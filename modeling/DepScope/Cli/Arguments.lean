import DepScope.Keyed
import DepScope.Power
import DepScope.Text.Chars

/-!
# DepScope.Cli.Arguments

The words of a command line. Options that concern all commands may stand before or after the
command, where the latter count; the options of a command follow it.

1. `--name value` and `--name=value` are the same; a value that starts with a dash needs the second
   form, a dash alone apart.
2. An option is given at most once on either side of the command.
3. After `--` no word is an option.
4. A path is not empty.
-/

namespace DepScope.Cli

open Text

/-- What a command is to do. -/
inductive Command where
  | scan (path format : String)
  | check (path format : String)
  | watch (path : String) (debounce : Option Nat)
  | clearCache
  | quota
  | whoami
  | patterns
deriving DecidableEq

/-- What the options say. -/
structure Overrides where
  config : Option String := none
  apiBaseUrl : Option String := none
  cacheDir : Option String := none
  apiKey : Option String := none
  python : Option String := none
  go : Option String := none
  offline : Bool := false
deriving DecidableEq

/-- A command line that makes sense. -/
structure Invocation where
  overrides : Overrides
  command : Command
deriving DecidableEq

/-- Why there is nothing to run. -/
inductive Stop where
  | usage
  | help
  | version
deriving DecidableEq

/-! ## Options -/

/-- What an option takes. -/
inductive Takes where
  | nothing
  | text
  | path
  | number
deriving DecidableEq

/-- The value of a number, which has 64 bits. -/
def number? (s : String) : Option Nat :=
  let digits := match s.toList with
    | '+' :: ds => ds
    | ds => ds
  (natIn? 10 digits).filter (· < 2 ^ 64)

/-- Is a value one that the option takes? -/
def Takes.accepts : Takes → String → Bool
  | nothing, _ => false
  | text, _ => true
  | path, s => !s.isEmpty
  | number, s => (number? s).isSome

/-- Options by name. -/
abbrev Options := List (String × Takes)

/-- The options for all commands. -/
def globalOptions : Options :=
  [("config", .path), ("api-base-url", .text), ("cache-dir", .path), ("api-key", .text),
   ("python", .path), ("go", .path), ("offline", .nothing)]

/-- The words after the name of a command: its options, and whether it takes a path. -/
def commandOptions : List (String × Options × Bool) :=
  [("scan", [("format", .text)], true), ("check", [("format", .text)], true),
   ("watch", [("debounce", .number)], true), ("clear-cache", [], false), ("quota", [], false),
   ("whoami", [], false), ("patterns", [], false)]

/-! ## Reading -/

/-- What has been read: options with their values, and words. -/
structure Words where
  options : List (String × String) := []
  words : List String := []

/-- Takes an option; not twice, and not with a value it does not take. -/
def Words.add (w : Words) (name : String) (takes : Takes) (value : String) : Except Stop Words :=
  if Keyed.contains name w.options || !(takes = .nothing || takes.accepts value) then
    .error .usage
  else .ok { w with options := w.options ++ [(name, value)] }

/-- Takes a word. -/
def Words.addWord (w : Words) (s : String) : Words :=
  { w with words := w.words ++ [s] }

/-- Does a word start with a dash, without being one? -/
def isDashed (s : String) : Bool :=
  match s.toList with
  | '-' :: _ :: _ => true
  | _ => false

/-- The name of a long option, and its value if there is one. -/
def longOption? (s : String) : Option (String × Option String) :=
  match s.toList with
  | '-' :: '-' :: body =>
    match cutAt? '=' body with
    | some (name, value) => some (String.ofList name, some (String.ofList value))
    | none => some (String.ofList body, none)
  | _ => none

/-- What a word with a dash that is no option of the command stands for. -/
def special (inCommand : Bool) (s : String) : Stop :=
  if s = "-h" || s = "--help" then .help
  else if !inCommand && (s = "-V" || s = "--version") then .version
  else .usage

/-- Takes an option with its value, which may be the next word; says how many further words that
took. -/
def Words.takeOption (w : Words) (options : Options) (inCommand : Bool) (s : String)
    (next : Option String) : Except Stop (Words × Nat) :=
  match longOption? s with
  | none => .error (special inCommand s)
  | some (name, value) =>
    match options.lookup name, value, next with
    | none, _, _ => .error (special inCommand s)
    | some .nothing, none, _ => (w.add name .nothing "").map (·, 0)
    | some .nothing, some _, _ => .error .usage
    | some takes, some v, _ => (w.add name takes v).map (·, 0)
    | some _, none, none => .error .usage
    | some takes, none, some v =>
      if isDashed v then .error (special inCommand v) else (w.add name takes v).map (·, 1)

/-- Reads the words of one side of a command line. Before the command, the first word ends it, and
the rest is given back. -/
def readWords (options : Options) (inCommand : Bool) (w : Words) :
    List String → Except Stop (Words × List String)
  | [] => .ok (w, [])
  | s :: rest =>
    if s = "--" then
      if inCommand then .ok (rest.foldl Words.addWord w, []) else .error .usage
    else if !isDashed s then
      if inCommand then readWords options inCommand (w.addWord s) rest else .ok (w, s :: rest)
    else match w.takeOption options inCommand s rest.head? with
      | .error e => .error e
      | .ok (w, used) => readWords options inCommand w (rest.drop used)
termination_by args => args.length

/-! ## Meaning -/

/-- A value that is given after the command, else before it. -/
def given (before after : Words) (name : String) : Option String :=
  (Keyed.get? name after.options).or (Keyed.get? name before.options)

/-- What the options say. -/
def overridesOf (before after : Words) : Overrides where
  config := given before after "config"
  apiBaseUrl := given before after "api-base-url"
  cacheDir := given before after "cache-dir"
  apiKey := given before after "api-key"
  python := given before after "python"
  go := given before after "go"
  offline := (given before after "offline").isSome

/-- The command of a name with its words. -/
def commandOf? (name : String) (w : Words) : Option Command :=
  let path := w.words.head?.getD "."
  let format := (Keyed.get? "format" w.options).getD "text"
  match name with
  | "scan" => some (.scan path format)
  | "check" => some (.check path format)
  | "watch" => some (.watch path ((Keyed.get? "debounce" w.options).bind number?))
  | "clear-cache" => some .clearCache
  | "quota" => some .quota
  | "whoami" => some .whoami
  | "patterns" => some .patterns
  | _ => none

/-- Are these words that a command takes? -/
def wordsFit (takesPath : Bool) (words : List String) : Bool :=
  match words with
  | [] => true
  | [p] => takesPath && !p.isEmpty
  | _ => false

/-- Reads a command line. -/
def read (args : List String) : Except Stop Invocation := do
  let (before, rest) ← readWords globalOptions false {} args
  match rest with
  | [] => .error .usage
  | "help" :: topic =>
    match topic with
    | [] => .error .help
    | name :: _ =>
      .error (if Keyed.contains name commandOptions || name = "help" then .help else .usage)
  | name :: rest =>
    match commandOptions.lookup name with
    | none => .error .usage
    | some (options, takesPath) =>
      let (after, _) ← readWords (options ++ globalOptions) true {} rest
      match commandOf? name after, wordsFit takesPath after.words with
      | some command, true => return ⟨overridesOf before after, command⟩
      | _, _ => .error .usage

end DepScope.Cli
