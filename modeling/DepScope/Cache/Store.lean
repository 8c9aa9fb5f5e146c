import DepScope.Files.Path
import DepScope.Keyed
import DepScope.Score.Record
import DepScope.Text.Base64

/-!
# DepScope.Cache.Store

Records on disk, one file for each identifier in one folder. The name of a file is the identifier
in an alphabet without slashes, so different identifiers have different files.

A file is written under a temporary name first and then takes its place, so that a reader never sees
half of it. A file that cannot be read as a record counts as missing.
-/

namespace DepScope.Cache

open Package Text Score

/-- A file: its text, and the time it was written. -/
structure StoredFile where
  content : String
  written : Int
deriving DecidableEq

/-- A folder with its files by name. -/
structure Store where
  folder : String
  files : List (String × StoredFile) := []

namespace Store

/-- The name of the file for an identifier. -/
def fileName (p : Purl) : String :=
  String.ofList (Base64.urlSafe.encode (encode p.text)) ++ ".json"

/-- The name a file is written under before it takes its place; `tag` tells writers apart. -/
def temporaryName (tag : Nat) (p : Purl) : String :=
  let name := fileName p
  let stem := match cutAt? '.' name.toList.reverse with
    | some (_, stem@(_ :: _)) => String.ofList stem.reverse
    | _ => name
  stem ++ ".json." ++ toString tag ++ ".tmp"

/-- The place of the file for an identifier. -/
def path (s : Store) (p : Purl) : String :=
  Files.join s.folder (fileName p)

/-- The record of an identifier and the time it was written. -/
def load? (s : Store) (p : Purl) : Option (Record × Int) := do
  let f ← Keyed.get? (fileName p) s.files
  return (← Record.read? f.content, f.written)

/-- Gives a file another name, in the place of what is there. -/
def rename (s : Store) (old new : String) : Store :=
  match Keyed.get? old s.files with
  | some f => { s with files := Keyed.put new f (Keyed.erase old s.files) }
  | none => s

/-- Writes the record of an identifier. -/
def save (s : Store) (tag : Nat) (now : Int) (p : Purl) (r : Record) : Store :=
  let written := { s with files := Keyed.put (temporaryName tag p) ⟨r.write, now⟩ s.files }
  written.rename (temporaryName tag p) (fileName p)

/-- Removes the folder. -/
def clear (s : Store) : Store :=
  { s with files := [] }

/-- The identifier whose file has this name. -/
def purlOf? (name : String) : Option Purl := do
  let stem ← beforeSuffix? ".json".toList name.toList
  return ⟨← decodeStrict? (← Base64.urlSafe.decode? stem)⟩

/-- The files of identifiers with their texts, sorted by identifier. -/
def contents (s : Store) : List (Purl × String) :=
  (s.files.filterMap fun (name, f) => (purlOf? name).map (·, f.content)).mergeSort
    fun a b => decide (a.1.text ≤ b.1.text)

end Store

end DepScope.Cache
