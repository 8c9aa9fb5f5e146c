import DepScope.Files.Tree

/-!
# DepScope.Toolchain.Resolver

Where the external programs are: the configured place if a file is there, else the first program
of the right name in the search path. What was found once is kept.
-/

namespace DepScope.Toolchain

open Files

/-- The files that matter for finding programs. -/
structure Installed where
  executables : List String
  plainFiles : List String

/-- Is there a file at a path? -/
def Installed.hasFile (i : Installed) (path : String) : Bool :=
  i.executables.contains path || i.plainFiles.contains path

/-- The files without some of them. -/
def Installed.without (i : Installed) (paths : List String) : Installed :=
  ⟨i.executables.filter (!paths.contains ·), i.plainFiles.filter (!paths.contains ·)⟩

/-- The first executable of a name in the search path. -/
def Installed.search? (i : Installed) (path : List String) (name : String) : Option String :=
  (path.map fun dir => join dir name).find? i.executables.contains

/-- The configured place, else the first of several names that is found. -/
def Installed.resolve? (i : Installed) (path : List String) (configured : Option String)
    (names : List String) : Option String :=
  match configured.filter i.hasFile with
  | some p => some p
  | none => names.findSome? (i.search? path)

/-- A resolver: its settings and what it has found; the inner `none` is a search without success. -/
structure Resolver where
  path : List String
  pythonSetting : Option String
  goSetting : Option String
  python : Option (Option String) := none
  go : Option (Option String) := none

namespace Resolver

/-- The Python interpreter, searched for when first asked. -/
def askPython (r : Resolver) (i : Installed) : Option String × Resolver :=
  match r.python with
  | some found => (found, r)
  | none =>
    let found := i.resolve? r.path r.pythonSetting ["python3", "python"]
    (found, { r with python := some found })

/-- The Go tool, searched for when first asked. -/
def askGo (r : Resolver) (i : Installed) : Option String × Resolver :=
  match r.go with
  | some found => (found, r)
  | none =>
    let found := i.resolve? r.path r.goSetting ["go"]
    (found, { r with go := some found })

/-- Both, one after the other. -/
def askBoth (r : Resolver) (i : Installed) : (Option String × Option String) × Resolver :=
  let (python, r) := r.askPython i
  let (go, r) := r.askGo i
  ((python, go), r)

end Resolver

end DepScope.Toolchain
