import DepScope.Cli.Arguments
import DepScope.Config
import DepScope.Files.Walk
import DepScope.Session

/-!
# DepScope.Cli.Run

The commands: what each of them prints and leaves behind on a machine.
-/

namespace DepScope.Cli

open Package Text Files Documents

/-- What a command can see. -/
structure Machine where
  /-- All files, from the root on. -/
  files : Tree
  /-- The current folder. -/
  cwd : String
  home : String
  /-- The folder of programs' data. -/
  dataHome : String
  /-- The key in the environment. -/
  key : Option String
  network : Service.Network

/-- What a command leaves behind. -/
structure Result where
  exit : Nat := 0
  stdout : String := ""
  files : Tree

namespace Machine

/-- The place of a path. -/
def place (m : Machine) (path : String) : Names :=
  namesOf (join m.cwd path)

/-- The text of a file. -/
def text? (m : Machine) (path : String) : Option String :=
  m.files.text? (m.place path)

/-- Is there a file at a path? -/
def hasFile (m : Machine) (path : String) : Bool :=
  m.files.hasFile (m.place path)

/-- A command that ends well. -/
def prints (m : Machine) (stdout : String) : Result :=
  { stdout, files := m.files }

/-- A command that fails. -/
def fails (m : Machine) : Result :=
  { exit := 1, files := m.files }

end Machine

/-! ## Settings -/

/-- The settings with what the options say. -/
def Overrides.apply (o : Overrides) (c : Config) : Config :=
  { c with
    apiBaseUrl := o.apiBaseUrl.getD c.apiBaseUrl
    cacheDir := o.cacheDir.or c.cacheDir
    apiKey := o.apiKey.or c.apiKey
    pythonInterpreter := o.python.or c.pythonInterpreter
    goExecutable := o.go.or c.goExecutable
    offlinePatterns := o.offline || c.offlinePatterns }

/-- The folder of cached records. -/
def cacheDirOf (m : Machine) (c : Config) : String :=
  c.cacheDir.getD (Config.usualCacheDir m.home)

/-- The key for requests. -/
def keyOf (m : Machine) (c : Config) : String :=
  let settings := c.settingsFile.getD (join (join m.dataHome "socket") "settings")
  Service.KeySources.key ⟨c.apiKey, m.key, m.files.bytes? (m.place settings)⟩

/-- The patterns of manifests. -/
def patternsOf (m : Machine) (c : Config) : Pattern.Patterns :=
  let registry : Service.Registry := if c.offlinePatterns then .offline else .remote
  (registry.ask (m.network Service.patternsRequest)).1

/-- The helper programs at hand. Files that are named as such cannot be run. -/
def helpersOf (m : Machine) (c : Config) : Helpers where
  python := (c.pythonInterpreter.filter m.hasFile).map fun _ => none
  go := (c.goExecutable.filter m.hasFile).map fun _ => .broken

/-- The files a command is about. -/
def filesBelow (m : Machine) (ps : Pattern.Patterns) (path : String) : List String :=
  if m.hasFile path then [path] else walk ps m.files (m.place path) path

/-! ## Scanning -/

/-- A position as data. -/
def positionJson (p : Position) : Json.Value :=
  Json.object [("line", Json.count p.line), ("character", Json.count p.column)]

/-- A range as data. -/
def rangeJson (r : Range) : Json.Value :=
  Json.object [("start", positionJson r.start), ("end", positionJson r.stop)]

/-- A reference in a file as data. -/
def referenceJson (file : String) (p : Purl) (r : Reference) : Json.Value :=
  Json.object [("file", Json.text file), ("purl", Json.text p.text),
    ("is_builtin", .truth r.builtin), ("ranges", .array (r.ranges.map rangeJson))]

/-- A place in a file, counted from one. -/
def placeText (file : String) (p : Position) : String :=
  file ++ ":" ++ toString (p.line + 1) ++ ":" ++ toString (p.column + 1)

/-- The lines about a reference in a file. -/
def referenceLines (file : String) (p : Purl) (r : Reference) : String :=
  String.join (r.ranges.map fun range =>
    placeText file range.start ++ " " ++ p.text ++ (if r.builtin then " (builtin)" else "") ++ "\n")

/-- Lists the references in the files below a path. -/
def scan (m : Machine) (c : Config) (path format : String) : Result :=
  let ps := patternsOf m c
  let files := filesBelow m ps path
  let found := files.filterMap fun file => do
    let text ← m.text? file
    let rs ← extract ps (helpersOf m c) false (languageIdOf file) file text
    return rs.entries.map fun (p, r) => (file, p, r)
  let rows := found.flatten
  if format = "json" then
    m.prints ((Json.Value.array (rows.map fun (f, p, r) => referenceJson f p r)).pretty ++ "\n")
  else
    m.prints (String.join (rows.map fun (f, p, r) => referenceLines f p r)
      ++ "Found " ++ toString rows.length ++ " references in " ++ toString files.length ++ " files\n")

/-! ## Checking -/

/-- The records on disk, all of them fresh. -/
def storeOf (m : Machine) (c : Config) : Cache.Store :=
  let folder := cacheDirOf m c
  ⟨folder, (m.files.filesIn (m.place folder)).filterMap fun (name, bytes) =>
    (decodeStrict? bytes).map fun content => (name, ⟨content, 0⟩)⟩

/-- A workspace in which nothing is open. -/
def sessionOf (m : Machine) (c : Config) : Session where
  workspace := { cache := { staleAfter := c.staleAfterSecs * 1000, store := storeOf m c } }
  network := m.network
  key := keyOf m c

/-- Opens a file, if it holds text. -/
def openFile (m : Machine) (ps : Pattern.Patterns) (helpers : Helpers) (s : Session)
    (file : String) : List Event × Session :=
  match m.text? file with
  | none => ([], s)
  | some text =>
    let (u, w) := s.workspace.beginUpdate file
    let found := extract ps helpers false (languageIdOf file) file text
    let (_, events, s) := { s with workspace := w }.finishUpdate u found
    (events, s)

/-- The row about a package as data. -/
def packageJson (s : PackageState) : Json.Value :=
  let record := s.snapshot.bind (·.data)
  let error := s.snapshot.bind (·.error)
  Json.object [("purl", Json.text s.purl.text), ("class", Json.text s.severity.name),
    ("documents", Json.count s.documents),
    ("overall", (record.map fun r => Json.real r.ratings.overall).getD .null),
    ("error", (error.map Json.text).getD .null)]

/-- Lists what is known about the packages in the files below a path. -/
def check (m : Machine) (c : Config) (path format : String) : Result :=
  let ps := patternsOf m c
  let opened := (filesBelow m ps path).foldl
    (fun s file => (openFile m ps (helpersOf m c) s file).2) (sessionOf m c)
  let w := opened.settle.2.workspace
  let states := w.tracked.filterMap w.packageState?
  if format = "json" then
    m.prints ((Json.Value.array (states.map packageJson)).pretty ++ "\n")
  else
    let flagged := states.filter fun s => s.severity ≠ .info
    m.prints (String.join (states.map fun s =>
        "[" ++ s.severity.name ++ "] " ++ s.describe ++ "\n\n")
      ++ "Checked " ++ toString states.length ++ " packages, " ++ toString flagged.length
      ++ " flagged\n")

/-- The lines about the marks of a document. -/
def renderingLines (r : Rendering) : String :=
  String.join (r.decorations.map fun d =>
    placeText r.uri d.range.start ++ " [" ++ d.severity.name ++ "] " ++ d.purl.text ++ "\n")

/-- Shows the marks of the files below a path, before any of them changes. -/
def watch (m : Machine) (c : Config) (path : String) : Result :=
  let ps := patternsOf m c
  let (lines, _) := (walk ps m.files (m.place path) path).foldl
    (fun (lines, s) file =>
      let (events, s) := openFile m ps (helpersOf m c) s file
      let shown := events.map fun
        | .rendered r => renderingLines r
        | .notified .. => ""
      (lines ++ String.join shown, s))
    ("", sessionOf m c)
  m.prints (lines ++ "Watching for changes...\n")

/-! ## Accounts and the cache -/

/-- Removes the cached records. A folder that is not there is clear. -/
def clearCache (m : Machine) (c : Config) : Result :=
  let folder := cacheDirOf m c
  let place := m.place folder
  let blocked := (List.range (place.length + 1)).any fun n => m.files.hasFile (place.take n)
  if blocked then m.fails
  else
    let missing := folder.isEmpty || !m.files.hasFolder place
    { stdout := "Cache cleared: " ++ folder ++ "\n"
      files := if missing then m.files else m.files.removeFolder place }

/-- Shows the settings of the account. -/
def quota (m : Machine) (c : Config) : Result :=
  match Service.readSettings (m.network (Service.settingsRequest (keyOf m c))) with
  | .ok v => m.prints (v.pretty ++ "\n")
  | .error _ => m.fails

/-- Shows whose key it is. -/
def whoami (m : Machine) (c : Config) : Result :=
  let key := keyOf m c
  if Service.isPublicKey key then m.prints "Using the public API token\n"
  else
    let request := Service.organizationsRequest (Service.bearer key)
    match Service.readOrganizations (m.network request) with
    | .error _ => m.fails
    | .ok none => m.prints "API key was rejected\n"
    | .ok (some os) =>
      m.prints ((Service.label? os).getD "API key is valid but belongs to no organization" ++ "\n")

/-- Shows the patterns of manifests. -/
def patterns (m : Machine) (c : Config) : Result :=
  m.prints ((patternsOf m c).table.toJson.pretty ++ "\n")

/-! ## The command line -/

/-- The version of the program. -/
def version : String := "purl-sentry 0.1.0\n"

/-- How the program is used. -/
def usage : String :=
  "Usage: purl-sentry [OPTIONS] <COMMAND>\n\nCommands:\n"
    ++ String.join (commandOptions.map fun (name, _) => "  " ++ name ++ "\n")
    ++ "\nOptions:\n" ++ String.join (globalOptions.map fun (name, _) => "  --" ++ name ++ "\n")

/-- Runs a command. -/
def runCommand (m : Machine) (c : Config) : Command → Result
  | .scan path format => scan m c path format
  | .check path format => check m c path format
  | .watch path _ => watch m c path
  | .clearCache => clearCache m c
  | .quota => quota m c
  | .whoami => whoami m c
  | .patterns => patterns m c

/-- Runs a command line. A line that makes no sense ends with 2, a command that fails with 1. -/
def run (m : Machine) (args : List String) : Result :=
  match read args with
  | .error .usage => { exit := 2, files := m.files }
  | .error .help => m.prints usage
  | .error .version => m.prints version
  | .ok i =>
    match Config.load m.files m.cwd i.overrides.config with
    | .error _ => m.fails
    | .ok c => runCommand m (i.overrides.apply c) i.command

end DepScope.Cli
