import DepScope.Files.Path
import DepScope.Text.Utf8

/-!
# DepScope.Files.Tree

A directory with all that is below it. A file is named by the list of names on the way to it; a
folder is there if it is listed or if something is in it.
-/

namespace DepScope.Files

open Text

/-- The names on the way to a file or folder; the empty list is the directory itself. -/
abbrev Names := List String

/-- Files with their bytes, and folders that may be empty. -/
structure Tree where
  files : List (Names × List UInt8) := []
  folders : List Names := []

/-- The names of a path; steps to the directory itself do not count, and a step up takes the last
name away. -/
def namesOf (path : String) : Names :=
  ((components path.toList).foldl
    (fun acc c => match c with
      | .named n => String.ofList n :: acc
      | .up => acc.drop 1
      | .root | .here => acc)
    []).reverse

namespace Tree

/-- The bytes of a file. -/
def bytes? (t : Tree) (p : Names) : Option (List UInt8) :=
  (t.files.find? fun f => f.1 == p).map (·.2)

/-- The text of a file that is well-formed text. -/
def text? (t : Tree) (p : Names) : Option String :=
  (t.bytes? p).bind decodeStrict?

/-- Is there such a file? -/
def hasFile (t : Tree) (p : Names) : Bool :=
  (t.bytes? p).isSome

/-- Is there such a folder? -/
def hasFolder (t : Tree) (p : Names) : Bool :=
  p.isEmpty || t.folders.any (p.isPrefixOf ·) ||
    t.files.any fun f => p.isPrefixOf f.1 && p.length < f.1.length

/-- Is there anything at this place? -/
def hasAny (t : Tree) (p : Names) : Bool :=
  t.hasFile p || t.hasFolder p

/-- Puts a file, in the place of one with the same name. -/
def put (t : Tree) (p : Names) (bytes : List UInt8) : Tree :=
  { t with files := t.files.filter (fun f => f.1 != p) ++ [(p, bytes)] }

/-- Removes a folder with all that is in it; the folder around it stays. -/
def removeFolder (t : Tree) (p : Names) : Tree :=
  ⟨t.files.filter fun f => !p.isPrefixOf f.1,
    p.dropLast :: t.folders.filter fun d => !p.isPrefixOf d⟩

/-- The files right inside a folder, by name. -/
def filesIn (t : Tree) (p : Names) : List (String × List UInt8) :=
  t.files.filterMap fun (names, bytes) =>
    match names.drop p.length with
    | [name] => if p.isPrefixOf names then some (name, bytes) else none
    | _ => none

/-- The tree as a folder of another one. -/
def inside (t : Tree) (p : Names) : Tree :=
  ⟨t.files.map fun (names, bytes) => (p ++ names, bytes), p :: t.folders.map (p ++ ·)⟩

/-- Both trees in one. -/
def union (a b : Tree) : Tree :=
  ⟨a.files ++ b.files, a.folders ++ b.folders⟩

end Tree

/-- Names in order, step by step. -/
def namesLe : Names → Names → Bool
  | [], _ => true
  | _ :: _, [] => false
  | a :: as, b :: bs => if a = b then namesLe as bs else a < b

end DepScope.Files
