import DepScope.GoMod.Token
import DepScope.References

/-!
# DepScope.GoMod.File

What a `go.mod` file declares. A line is a verb with its arguments; a verb followed by an opening
parenthesis applies to each of the lines up to the closing one. Verbs that declare no packages are
passed over.
-/

namespace DepScope.GoMod

open Text Package

/-- A module, perhaps at a version. -/
structure ModuleVersion where
  path : String
  version : Option String
deriving DecidableEq

/-- A module that is required or excluded. -/
structure Entry where
  module : ModuleVersion
  place : Stretch
deriving DecidableEq

/-- A module that takes another's place. -/
structure Replacement where
  old : ModuleVersion
  new : ModuleVersion
  place : Stretch
deriving DecidableEq

/-- The contents of a file. -/
structure File where
  module : Option String := none
  go : Option String := none
  require : List Entry := []
  exclude : List Entry := []
  replace : List Replacement := []
deriving DecidableEq

/-- A module from one word or two. -/
def moduleVersion? : List Token → Option ModuleVersion
  | [path] => some ⟨path.text, none⟩
  | [path, version] => some ⟨path.text, some version.text⟩
  | _ => none

/-- The words before and after the arrow. -/
def splitArrow? : List Token → Option (List Token × List Token)
  | [] => none
  | t :: ts => if t.is "=>" then some ([], ts) else (splitArrow? ts).map fun (a, b) => (t :: a, b)

/-- Adds what a verb with its arguments declares. -/
def File.apply (f : File) (verb : String) (args : List Token) (place : Stretch) :
    Except Fault File :=
  let line := place.start.line
  match verb with
  | "module" =>
    match args with
    | [path] => .ok { f with module := some path.text }
    | _ => .error (.usage line "module module/path")
  | "go" =>
    match args with
    | [version] => .ok { f with go := some version.text }
    | _ => .error (.usage line "go 1.23")
  | "require" =>
    match args with
    | [path, version] =>
      .ok { f with require := f.require ++ [⟨⟨path.text, some version.text⟩, place⟩] }
    | _ => .error (.usage line "require module/path v1.2.3")
  | "exclude" =>
    match args with
    | [path, version] =>
      .ok { f with exclude := f.exclude ++ [⟨⟨path.text, some version.text⟩, place⟩] }
    | _ => .error (.usage line "exclude module/path v1.2.3")
  | "replace" =>
    match splitArrow? args with
    | none => .error (.missingArrow line)
    | some (before, after) =>
      match moduleVersion? before, moduleVersion? after with
      | some old, some new => .ok { f with replace := f.replace ++ [⟨old, new, place⟩] }
      | _, _ => .error (.usage line "replace module/path [v1.2.3] => other/module v1.4")
  | _ => .ok f

/-- A line of a file: its first word and the others. -/
structure Line where
  first : Token
  others : List Token

/-- From the first word to the last. -/
def Line.place (l : Line) : Stretch :=
  ⟨l.first.place.start, (l.others.getLast?.getD l.first).place.stop⟩

/-- What a line means where no block is open, or inside the block of a verb: the file with what it
declares, and the block that is open behind it. -/
def File.line (f : File) (block : Option String) (l : Line) : Except Fault (File × Option String) :=
  let lineNo := l.first.place.start.line
  match block with
  | some verb =>
    if l.first.is ")" then
      if l.others.isEmpty then .ok (f, none) else .error (.afterClose lineNo)
    else (f.apply verb (l.first :: l.others) l.place).map (·, some verb)
  | none =>
    if l.first.quoted || l.first.is ")" || l.first.is "(" then
      .error (.unexpected lineNo l.first.text)
    else match l.others with
      | second :: more =>
        if second.is "(" then
          match more with
          | [] => .ok (f, some l.first.text)
          | [third] => if third.is ")" then .ok (f, none) else .error (.afterOpen lineNo)
          | _ => .error (.afterOpen lineNo)
        else (f.apply l.first.text l.others l.place).map (·, none)
      | [] => (f.apply l.first.text [] l.place).map (·, none)

/-- Reads the lines of a file one after the other. -/
def File.lines (f : File) (block : Option String) : List (List Token) → Except Fault File
  | [] => if block.isSome then .error .unclosedBlock else .ok f
  | [] :: rest => f.lines block rest
  | (first :: others) :: rest => do
    let (f, block) ← f.line block ⟨first, others⟩
    f.lines block rest

/-- Reads a file. -/
def File.parse (text : String) : Except Fault File := do
  File.lines {} none (← tokenize text)

/-! ## Packages -/

/-- The bytes of a stretch. -/
def Stretch.span (s : Stretch) : Span :=
  ⟨s.start.byte, s.stop.byte⟩

/-- Is a module excluded? -/
def File.excludes (f : File) (path : String) : Bool :=
  f.exclude.any (·.module.path == path)

/-- The modules a file brings in with their places: those required, then those put in the place of
others. -/
def File.brought (f : File) : List (String × Stretch) :=
  f.require.map (fun r => (r.module.path, r.place))
    ++ f.replace.map (fun r => (r.new.path, r.place))

/-- The packages of a file: the modules it brings in, unless it excludes them. -/
def File.references (f : File) (lines : LineIndex) : References :=
  .ofMentions ((f.brought.filter fun (path, _) => !f.excludes path).map fun (path, place) =>
    Mention.ofName .golang path (lines.rangeOf place.span))

end DepScope.GoMod
