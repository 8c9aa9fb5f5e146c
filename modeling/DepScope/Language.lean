import DepScope.Files.Path
import DepScope.Package.Ecosystem

/-!
# DepScope.Language

The languages whose sources name packages: how an editor calls them, which files they are in, and
which grammar reads them.
-/

namespace DepScope

open Package

/-- The grammars there are. -/
inductive Dialect where
  | typescript
  | tsx
  | json
  | toml
deriving DecidableEq

namespace Dialect

/-- The name of a grammar. -/
def name : Dialect → String
  | typescript => "typescript"
  | tsx => "tsx"
  | json => "json"
  | toml => "toml"

/-- Finds a grammar by its name. -/
def ofName? (s : String) : Option Dialect :=
  [typescript, tsx, json, toml].find? (·.name == s)

end Dialect

/-- A language whose sources name packages. -/
inductive Language where
  | javascript
  | javascriptReact
  | typescript
  | typescriptReact
  | python
  | go
deriving DecidableEq

namespace Language

/-- What editors call the language. -/
def id : Language → String
  | javascript => "javascript"
  | javascriptReact => "javascriptreact"
  | typescript => "typescript"
  | typescriptReact => "typescriptreact"
  | python => "python"
  | go => "go"

/-- Finds a language by what editors call it. -/
def ofId? (s : String) : Option Language :=
  [javascript, javascriptReact, typescript, typescriptReact, python, go].find? (·.id == s)

/-- Finds a language by a file name extension, in any case. -/
def ofExtension? (ext : List Char) : Option Language :=
  let e := String.ofList (ext.map Text.lowerAscii)
  if ["js", "mjs", "cjs"].contains e then some javascript
  else if e = "jsx" then some javascriptReact
  else if ["ts", "mts", "cts"].contains e then some typescript
  else if e = "tsx" then some typescriptReact
  else if ["py", "pyi"].contains e then some python
  else if e = "go" then some go
  else none

/-- Finds the language of a file. -/
def ofPath? (path : String) : Option Language :=
  (Files.extension? path.toList).bind ofExtension?

/-- The ecosystem of the packages a source names. -/
def ecosystem : Language → Ecosystem
  | python => .pypi
  | go => .golang
  | _ => .npm

/-- The grammar of a source, for the languages read by one. Markup and type assertions look alike,
so only plain TypeScript is read without markup. -/
def grammar? : Language → Option Dialect
  | typescript => some .typescript
  | javascript | javascriptReact | typescriptReact => some .tsx
  | python | go => none

end Language

end DepScope
