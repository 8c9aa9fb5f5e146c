import DepScope.Package.Ecosystem

/-!
# DepScope.Package.Purl

Package identifiers

    pkg:<type>/[<namespace>/]<name>[@<version>][?<qualifiers>][#<subpath>]

as one text (`Purl`) and in parts (`Coordinates`), and the two ways a package name is cut out of a
longer spelling: from a module specifier and from an override key.
-/

namespace DepScope.Package

/-- A package identifier as it is written. -/
structure Purl where
  text : String
deriving DecidableEq, Inhabited

namespace Purl

/-- The identifier of a package name, without a version. -/
def ofName (e : Ecosystem) (name : String) : Purl :=
  ⟨"pkg:" ++ e.name ++ "/" ++ e.foldName name⟩

/-- What follows the scheme `pkg:`. -/
def body? (p : Purl) : Option (List Char) :=
  Text.afterPrefix? "pkg:".toList p.text.toList

/-- The type, or `unknown` where the scheme is missing. -/
def packageType (p : Purl) : String :=
  match p.body? with
  | some rest => String.ofList (firstElement rest)
  | none => "unknown"

/-- All that follows the type, or `unknown` where scheme or slash is missing. -/
def name (p : Purl) : String :=
  match p.body?.bind (Text.cutAt? '/') with
  | some (_, rest) => String.ofList rest
  | none => "unknown"

/-- The ecosystem the type names. -/
def ecosystem? (p : Purl) : Option Ecosystem :=
  Ecosystem.ofName? p.packageType

end Purl

/-! ## Coordinates -/

/-- An identifier in parts. An empty optional part counts as absent. -/
structure Coordinates where
  packageType : String
  name : String
  space : Option String := none
  version : Option String := none
  qualifiers : Option String := none
  subpath : Option String := none
deriving DecidableEq, Inhabited

namespace Coordinates

/-- A part with its mark in front, or nothing when the part is absent or empty. -/
def marked (mark : String) (part : Option String) : String :=
  match part with
  | some s => if s.isEmpty then "" else mark ++ s
  | none => ""

/-- The name as identifiers write it. -/
def foldedName (c : Coordinates) : String :=
  if c.packageType = "pypi" then Ecosystem.pypi.foldName c.name else c.name

/-- The namespace with its slash, when there is one. -/
def spacePart (c : Coordinates) : String :=
  match c.space with
  | some s => if s.isEmpty then "" else s ++ "/"
  | none => ""

/-- The identifier, with the version as given. -/
def renderWith (c : Coordinates) (version : Option String) : Purl :=
  ⟨"pkg:" ++ c.packageType ++ "/" ++ c.spacePart ++ c.foldedName ++ marked "@" version
    ++ marked "?" c.qualifiers ++ marked "#" c.subpath⟩

/-- The full identifier. -/
def purl (c : Coordinates) : Purl :=
  c.renderWith c.version

/-- The identifier without its version. -/
def unversioned (c : Coordinates) : Purl :=
  c.renderWith none

end Coordinates

/-! ## Names inside longer spellings -/

/-- The first `n` pieces between separators, joined again. -/
def leadingPieces (sep : Char) (n : Nat) (s : String) : String :=
  String.ofList (Text.joinWith [sep] ((Text.pieces sep s.toList).take n))

/-- How many pieces a name spans: a scoped name starts with `@` and spans two. -/
def scopeWidth (s : String) : Nat :=
  if s.toList.head? == some '@' then 2 else 1

/-- The package of a module specifier: `@scope/pkg/sub` is in `@scope/pkg`. -/
def ofSpecifier (s : String) : String :=
  leadingPieces '/' (scopeWidth s) s

/-- The package of an override key: `@scope/pkg@1` is about `@scope/pkg`. -/
def ofVersionRange (s : String) : String :=
  leadingPieces '@' (scopeWidth s) s

end DepScope.Package
