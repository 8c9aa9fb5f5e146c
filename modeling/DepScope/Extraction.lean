import DepScope.Error
import DepScope.Files.Tree
import DepScope.Language
import DepScope.Pattern.Table
import DepScope.Scan.Finder
import DepScope.Scan.Go
import DepScope.Script.Imports

/-!
# DepScope.Extraction

From a document to its packages. The name of a file decides first: a manifest is read as one
whatever the editor calls it. Other documents are read by their language.

No result means no information: the document is of no known kind, is malformed, a helper program
failed, or the caller gave up.
-/

namespace DepScope

open Package

/-- How a document is read. -/
inductive DocumentKind where
  | manifest (k : Manifest.Kind)
  | source (l : Language)
deriving DecidableEq

/-- The kind of a document. -/
def classify (patterns : Pattern.Patterns) (languageId path : String) : Option DocumentKind :=
  ((patterns.classify? path).map .manifest).or ((Language.ofId? languageId).map .source)

/-- What the helper for Go sources does. -/
inductive GoHelper where
  /-- It cannot be built. -/
  | broken
  /-- It runs; `none` if it gives no answer. -/
  | runs (answer : Option String)

/-- The helper programs at hand. -/
structure Helpers where
  /-- The answer of the Python interpreter, if there is one. -/
  python : Option (Option String) := none
  go : Option GoHelper := none

/-- No helper at all. -/
def Helpers.absent : Helpers := {}

/-- The packages of a source. -/
def extractSource (helpers : Helpers) (l : Language) (text : String) : Option References :=
  match l with
  | .python =>
    match helpers.python with
    | some answer => answer.bind (Scan.pythonAnswer? · text)
    | none => some (Scan.python text)
  | .go =>
    match helpers.go with
    | some (.runs answer) => answer.bind (Scan.goAnswer? · text)
    | some .broken | none => some (Scan.go text)
  | .typescript => some (Script.imports false text)
  | .javascript | .javascriptReact | .typescriptReact => some (Script.imports true text)

/-- The packages of a document of a known kind. -/
def extractKind (helpers : Helpers) (k : DocumentKind) (text : String) : Option References :=
  match k with
  | .manifest m => Manifest.extract m text
  | .source l => extractSource helpers l text

/-- The packages of a document. -/
def extract (patterns : Pattern.Patterns) (helpers : Helpers) (cancelled : Bool)
    (languageId path text : String) : Option References :=
  if cancelled then none
  else (classify patterns languageId path).bind (extractKind helpers · text)

/-- What a file's name says about its language. -/
def languageIdOf (path : String) : String :=
  ((Language.ofPath? path).map Language.id).getD "plaintext"

/-- The packages of a file; it has to be there and hold text. -/
def extractFile (patterns : Pattern.Patterns) (helpers : Helpers) (tree : Files.Tree)
    (path : String) : Except Error (Option References) :=
  match tree.text? (Files.namesOf path) with
  | some text => .ok (extract patterns helpers false (languageIdOf path) path text)
  | none => .error .io

end DepScope
