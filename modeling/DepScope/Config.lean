import DepScope.Error
import DepScope.Files.Tree
import DepScope.Service.Client
import DepScope.Toml.Meaning

/-!
# DepScope.Config

The settings and the file they come from. Settings that the file does not name have their usual
values, and names that are no settings are passed over.
-/

namespace DepScope

open Files

/-- The settings. -/
structure Config where
  apiBaseUrl : String := Service.defaultUrl
  /-- `none` for the usual place below the home folder. -/
  cacheDir : Option String := none
  staleAfterSecs : Nat := 600
  requestTimeoutSecs : Nat := 600
  pythonInterpreter : Option String := none
  goExecutable : Option String := none
  apiKey : Option String := none
  settingsFile : Option String := none
  debounceMillis : Nat := 500
  offlinePatterns : Bool := false
deriving DecidableEq

namespace Config

/-- The usual settings. -/
def usual : Config := {}

/-- The file with the settings, unless another one is given. -/
def fileName : String := "purl-sentry.toml"

/-- The place of cached records in a home folder. -/
def usualCacheDir (home : String) : String :=
  join (join home ".socket") "purl-sentry"

/-! ## Reading -/

/-- A setting, or its usual value if it is not named; `none` if it does not fit. -/
def setting {α : Type} (es : Toml.Entries) (read : Toml.Value → Option α) (name : String)
    (usual : α) : Option α :=
  match Keyed.get? name es with
  | none => some usual
  | some (.value v) => read v
  | some _ => none

/-- A text. -/
def text? : Toml.Value → Option String
  | .string _ raw => Toml.plainText? raw
  | _ => none

/-- A number that is not negative. -/
def natural? : Toml.Value → Option Nat
  | .scalar _ .integer raw =>
    (Toml.integer? raw).bind fun n => if 0 ≤ n then some n.toNat else none
  | _ => none

/-- A truth value. -/
def truth? : Toml.Value → Option Bool
  | .scalar _ .truth raw => some (raw == "true".toList)
  | _ => none

/-- The settings in a table. -/
def ofEntries? (es : Toml.Entries) : Option Config := do
  let optional (v : Toml.Value) := (text? v).map some
  return {
    apiBaseUrl := ← setting es text? "api_base_url" usual.apiBaseUrl
    cacheDir := ← setting es optional "cache_dir" none
    staleAfterSecs := ← setting es natural? "stale_after_secs" usual.staleAfterSecs
    requestTimeoutSecs := ← setting es natural? "request_timeout_secs" usual.requestTimeoutSecs
    pythonInterpreter := ← setting es optional "python_interpreter" none
    goExecutable := ← setting es optional "go_executable" none
    apiKey := ← setting es optional "api_key" none
    settingsFile := ← setting es optional "settings_file" none
    debounceMillis := ← setting es natural? "debounce_millis" usual.debounceMillis
    offlinePatterns := ← setting es truth? "offline_patterns" false }

/-- The settings in a text. -/
def ofText? (text : String) : Option Config :=
  (Toml.read? text).bind ofEntries?

/-- Why settings cannot be had from a file. -/
inductive Fault where
  /-- There is no such file, or it is no text. -/
  | unreadable
  | malformed
deriving DecidableEq

/-- The settings in a file. -/
def ofFile (tree : Tree) (place : Names) : Except Fault Config :=
  match tree.text? place with
  | none => .error .unreadable
  | some text =>
    match ofText? text with
    | some c => .ok c
    | none => .error .malformed

/-- The settings in a file that is given and has to be there, else in the usual file if it is in the
current folder. -/
def load (tree : Tree) (cwd : String) (given : Option String) : Except Fault Config :=
  let place (path : String) := namesOf (join cwd path)
  match given with
  | some path => ofFile tree (place path)
  | none => if tree.hasAny (place fileName) then ofFile tree (place fileName) else .ok usual

end Config

end DepScope
