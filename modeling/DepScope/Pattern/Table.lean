import DepScope.Json.Value
import DepScope.Manifest.Kind
import DepScope.Pattern.Glob

/-!
# DepScope.Pattern.Table

Which files are manifests: a table from ecosystem and name to a pattern, the table that is built
in, and the patterns of those manifests that can be read.
-/

namespace DepScope.Pattern

open Manifest

/-- Patterns by ecosystem and name, both sorted. -/
abbrev Table := List (String × List (String × String))

namespace Table

/-- The pattern under two names. -/
def get? (t : Table) (ecosystem name : String) : Option String :=
  (t.lookup ecosystem).bind (·.lookup name)

/-- The table with the alternatives of each pattern in one group. -/
def flattened (t : Table) : Table :=
  t.map fun (e, ms) => (e, ms.map fun (n, p) => (n, String.ofList (flatten p.toList)))

/-- Decodes a table. -/
def ofJson? (v : Json.Value) : Option Table :=
  v.map? (Json.Value.map? fun entry => do
    match ← entry.fields? ["pattern"] with
    | [some p] => p.text?
    | _ => none)

/-- The table as data. -/
def toJson (t : Table) : Json.Value :=
  Json.object (t.map fun (e, ms) =>
    (e, Json.object (ms.map fun (n, p) => (n, Json.object [("pattern", Json.text p)]))))

/-- The table that is built in. -/
def builtIn : Table := [
  ("cargo",
    [("cargoLock", "Cargo.lock"),
     ("cargoToml", "Cargo.toml")]),
  ("cdx",
    [("json", "\x7bbom,c\x7byclone,\x7ddx[-.]*,*[-.]c\x7byclone,\x7ddx\x7d.json"),
     ("xml", "\x7bbom,c\x7byclone,\x7ddx[-.]*,*[-.]c\x7byclone,\x7ddx\x7d.xml")]),
  ("gem",
    [("gemfileLock", "Gemfile.lock")]),
  ("golang",
    [("gomod", "go.mod"),
     ("gosum", "go.sum")]),
  ("maven",
    [("buildr", "Buildfile"),
     ("gradle", "\x7b*.,\x7dgradle\x7b.lockfile,\x7d"),
     ("ivy", "ivy.xml"),
     ("kotlin", "*.gradle.kts"),
     ("leiningen", "project.clj"),
     ("pomxml", "\x7b*-*.,\x7dpom\x7b.xml,\x7d"),
     ("sbt", "build.sbt")]),
  ("npm",
    [("npmshrinkwrap", "npm-shrinkwrap.json"),
     ("packagejson", "package.json"),
     ("packagelockjson", "package-lock.json"),
     ("pnpmlock", "pnpm-lock.y\x7ba,\x7dml"),
     ("pnpmworkspace", "pnpm-workspace.y\x7ba,\x7dml"),
     ("yarnlock", "yarn.lock")]),
  ("nuget",
    [("msbuildProject", "*.*proj"),
     ("msbuildProjectItems", "*.projitems"),
     ("nuspec", "*.nuspec"),
     ("packageConfig", "\x7bpackages.*.config,packages.config\x7d"),
     ("packagesLock", "packages.lock.json"),
     ("props", "*.props"),
     ("targets", "*.targets"),
     ("visualStudioSolution", "*.sln")]),
  ("pypi",
    [("cdx-json", "\x7bbom,c\x7byclone,\x7ddx[-.]*,*[-.]c\x7byclone,\x7ddx\x7d.json"),
     ("cdx-xml", "\x7bbom,c\x7byclone,\x7ddx[-.]*,*[-.]c\x7byclone,\x7ddx\x7d.xml"),
     ("pipfile", "pipfile"),
     ("piplock", "pipfile.lock"),
     ("pkginfo", "\x7bPKG-INFO,METADATA\x7d"),
     ("poetry", "poetry.lock"),
     ("pylock", "pylock\x7b,.*\x7d.toml"),
     ("pyproject", "pyproject.toml"),
     ("requirements", "\x7b*requirements\x7b.frozen,\x7b[-_]*,\x7d.txt\x7d,requirements/*.txt\x7d"),
     ("setuppy", "setup.py"),
     ("spdx-json", "*[-.]spdx.json"),
     ("uvlock", "uv.lock")]),
  ("socket",
    [("facts", ".socket.facts.json")]),
  ("spdx",
    [("json", "*[-.]spdx.json")])]

end Table

/-- A table with its patterns flattened, and the patterns of the manifests that can be read. -/
structure Patterns where
  table : Table
  manifests : List (Kind × Glob)

namespace Patterns

/-- Prepares a table. -/
def ofTable (t : Table) : Patterns :=
  let t := t.flattened
  ⟨t, Kind.all.filterMap fun k =>
    (t.get? k.tableKey.1 k.tableKey.2).map fun p => (k, Glob.ofSource p.toList)⟩

/-- The patterns that are built in. -/
def builtIn : Patterns := ofTable .builtIn

/-- The kind of manifest a path is, the first one that matches. -/
def classify? (ps : Patterns) (path : String) : Option Kind :=
  (ps.manifests.find? fun (_, g) => g.matches path.toList).map (·.1)

/-- The pattern of a kind of manifest. -/
def patternOf? (ps : Patterns) (k : Kind) : Option String :=
  (ps.manifests.find? fun (k', _) => decide (k' = k)).map fun (_, g) => String.ofList g.source

end Patterns

end DepScope.Pattern
