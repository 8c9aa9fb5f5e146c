import DepScope.Files.Path
import DepScope.Toolchain.Process

/-!
# DepScope.Toolchain.FinderBuild

The helper program for Go sources is compiled when it is first needed and again after it has been
removed. A build that failed is tried again the next time.
-/

namespace DepScope.Toolchain

open Files

/-- The module file of the helper's source. -/
def finderModule : String := "module purlsentry/importfinder\n\ngo 1.18\n"

/-- A builder with the folder it works in, and what it leaves on disk. -/
structure FinderBuild where
  /-- The folder of the compiled helper. -/
  folder : String
  /-- The compiled helper of the last build, if the builder knows of one. -/
  built : Option String := none
  /-- Are the sources on disk? -/
  hasSources : Bool := false
  /-- Is the compiled helper on disk? -/
  hasBinary : Bool := false
  /-- How often the compiler ran. -/
  runs : Nat := 0

namespace FinderBuild

/-- A builder that keeps its files below a cache folder. -/
def inCache (cache : String) : FinderBuild :=
  { folder := join cache "bin" }

/-- The place of the compiled helper. -/
def target (b : FinderBuild) : String :=
  join b.folder "go-import-finder"

/-- Writes the sources and runs the compiler, whose outcome is given. -/
def build (b : FinderBuild) (go : String) (compiler : Outcome) :
    Except Error String × FinderBuild :=
  let args := ["build", "-o", b.target, "."]
  let b := { b with hasSources := true, runs := b.runs + 1 }
  match runChecked go args compiler with
  | .ok _ => (.ok b.target, { b with built := some b.target, hasBinary := true })
  | .error e => (.error e, b)

/-- The compiled helper, built if need be. -/
def binary (b : FinderBuild) (go : String) (compiler : Outcome) :
    Except Error String × FinderBuild :=
  match b.built with
  | some path => if b.hasBinary then (.ok path, b) else b.build go compiler
  | none => b.build go compiler

/-- The cache folder is removed. -/
def cleared (b : FinderBuild) : FinderBuild :=
  { b with hasSources := false, hasBinary := false }

/-- The module file on disk. -/
def moduleFile? (b : FinderBuild) : Option String :=
  if b.hasSources then some finderModule else none

end FinderBuild

end DepScope.Toolchain
