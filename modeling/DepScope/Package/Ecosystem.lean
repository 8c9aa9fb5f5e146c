import DepScope.Package.Builtins

/-!
# DepScope.Package.Ecosystem

The three package ecosystems, and what depends on the ecosystem alone: how a name is folded,
whether it belongs to the runtime, and whether it stays inside the workspace.
-/

namespace DepScope.Package

/-- A family of packages with its own registry and naming rules. -/
inductive Ecosystem where
  | npm
  | pypi
  | golang
deriving DecidableEq, Inhabited

namespace Ecosystem

/-- The name used in identifiers. -/
def name : Ecosystem → String
  | npm => "npm"
  | pypi => "pypi"
  | golang => "golang"

/-- Reads a name or one of its aliases, in any case. -/
def ofName? (s : String) : Option Ecosystem :=
  let folded := String.ofList (s.toList.map Text.lowerAscii)
  if ["npm", "node", "nodejs"].contains folded then some npm
  else if ["pypi", "python"].contains folded then some pypi
  else if ["golang", "go"].contains folded then some golang
  else none

/-- Python names do not distinguish a dash from an underscore; the other ecosystems keep names as
they are written. -/
def foldName (e : Ecosystem) (s : String) : String :=
  match e with
  | pypi => String.ofList (Text.substitute '-' '_' s.toList)
  | npm | golang => s

/-- Does the name belong to the language's runtime? -/
def isBuiltin (e : Ecosystem) (s : String) : Bool :=
  match e with
  | npm => isNodeBuiltin s
  | pypi => isPythonBuiltin s
  | golang => isGoStandard s

/-- Does the name resolve inside the workspace instead of a registry? -/
def isLocal (e : Ecosystem) (s : String) : Bool :=
  match e with
  | npm => match s.toList with
    | c :: _ => c = '.' || c = '/' || c = '#'
    | [] => false
  | pypi => s.toList.head? == some '.'
  | golang =>
    match Text.pieces '/' s.toList with
    | [] => true
    | first :: rest =>
      !first.contains '.' || first.head? == some '.' || rest.any (·.head? == some '.')

end Ecosystem

end DepScope.Package
