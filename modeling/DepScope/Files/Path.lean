import DepScope.Text.Chars

/-!
# DepScope.Files.Path

Slash-separated paths taken apart. Repeated and trailing slashes do not count, nor does a single
dot, except at the start of a relative path.
-/

namespace DepScope.Files

open Text

/-- A step of a path. -/
inductive Component where
  | root
  | here
  | up
  | named (name : List Char)
deriving DecidableEq

namespace Component

/-- The step as it is written. -/
def text : Component → List Char
  | root => ['/']
  | here => ['.']
  | up => ['.', '.']
  | named n => n

/-- A step other than a dot. -/
def ofPiece? (p : List Char) : Option Component :=
  if p.isEmpty || p = ['.'] then none
  else if p = ['.', '.'] then some up
  else some (named p)

end Component

/-- The steps of a path. -/
def components (path : List Char) : List Component :=
  let ps := pieces '/' path
  let steps := ps.filterMap Component.ofPiece?
  if path.head? == some '/' then .root :: steps
  else if ps.head? == some ['.'] then .here :: steps
  else steps

/-- The last step, when it is a name. -/
def fileName? (path : List Char) : Option (List Char) :=
  match (components path).getLast? with
  | some (.named n) => some n
  | _ => none

/-- The part of a name after its last dot, unless that dot is its first character. -/
def nameExtension? (name : List Char) : Option (List Char) :=
  match cutAt? '.' name.reverse with
  | some (ext, _ :: _) => some ext.reverse
  | _ => none

/-- The extension of a path's last name. -/
def extension? (path : List Char) : Option (List Char) :=
  (fileName? path).bind nameExtension?

/-- A path inside a directory. -/
def join (dir name : String) : String :=
  if name.toList.head? == some '/' then name
  else if dir.isEmpty then name
  else if hasSuffix ['/'] dir.toList then dir ++ name
  else dir ++ "/" ++ name

end DepScope.Files
