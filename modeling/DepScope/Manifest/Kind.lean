import DepScope.GoMod.File
import DepScope.Manifest.PackageJson
import DepScope.Manifest.Python

/-!
# DepScope.Manifest.Kind

The kinds of manifests, in the order in which a file is tried against them, and the reading of a
manifest of a known kind.
-/

namespace DepScope.Manifest

open Package

/-- A kind of manifest. -/
inductive Kind where
  | packageJson
  | pyproject
  | pipfile
  | requirements
  | goMod
deriving DecidableEq

namespace Kind

/-- All kinds, in the order in which they are tried. -/
def all : List Kind := [packageJson, pyproject, pipfile, requirements, goMod]

/-- The usual name of such a file. -/
def name : Kind → String
  | packageJson => "package.json"
  | pyproject => "pyproject.toml"
  | pipfile => "Pipfile"
  | requirements => "requirements.txt"
  | goMod => "go.mod"

/-- Finds a kind by the usual name of its files. -/
def ofName? (s : String) : Option Kind :=
  all.find? (·.name == s)

/-- The ecosystem of the packages such a file names. -/
def ecosystem : Kind → Ecosystem
  | packageJson => .npm
  | pyproject | pipfile | requirements => .pypi
  | goMod => .golang

/-- The names under which the table of file patterns has the kind. -/
def tableKey : Kind → String × String
  | packageJson => ("npm", "packagejson")
  | pyproject => ("pypi", "pyproject")
  | pipfile => ("pypi", "pipfile")
  | requirements => ("pypi", "requirements")
  | goMod => ("golang", "gomod")

end Kind

/-- The packages a manifest names; `none` if it is malformed. -/
def extract (k : Kind) (text : String) : Option References :=
  match k with
  | .packageJson => packageJson text
  | .pyproject => pyproject text
  | .pipfile => pipfile text
  | .requirements => some (requirements text)
  | .goMod => (GoMod.File.parse text).toOption.map (·.references (Text.LineIndex.ofText text))

end DepScope.Manifest
