import DepScope.Files.Ignore
import DepScope.Language
import DepScope.Pattern.Table

/-!
# DepScope.Files.Walk

The manifests and sources below a folder. Left out are hidden files, folders called
`node_modules`, and what the rules in `.ignore` files say; in a repository also what `.gitignore`
files and the repository's own list of exclusions say. Rules of a folder take precedence over those
of the folders around it, and `.ignore` over the others; rules can keep a hidden file.

A file is found iff no folder on the way to it is left out, nor the file itself.
-/

namespace DepScope.Files

open Text

/-- The rules in a file, none if there is no such file. -/
def Tree.rules (t : Tree) (p : Names) : List Rule :=
  ((t.text? p).map readRules).getD []

/-- A folder on the way to a path, and the path from there on. -/
structure Level where
  folder : Names
  rest : Names

/-- The folders around a path, the innermost first. -/
def levels (p : Names) : List Level :=
  (List.range p.length).reverse.map fun n => ⟨p.take n, p.drop n⟩

/-- Names as the text that rules are about. -/
def pathText (p : Names) : List Char :=
  joinWith ['/'] (p.map String.toList)

/-- Is a folder the top of a repository? -/
def Tree.isRepository (t : Tree) (folder : Names) : Bool :=
  t.hasAny (folder ++ [".git"])

/-- What the innermost file of rules with something to say says. -/
def firstDecision (t : Tree) (file : Names) (ls : List Level) (isFolder : Bool) : Option Bool :=
  ls.findSome? fun l => decide? (t.rules (l.folder ++ file)) (pathText l.rest) isFolder

/-- The levels up to and including the innermost repository; none outside of one. -/
def repositoryLevels (t : Tree) (ls : List Level) : List Level :=
  match ls.findIdx? fun l => t.isRepository l.folder with
  | some n => ls.take (n + 1)
  | none => []

/-- What the rules say about a path. -/
def ruled? (t : Tree) (p : Names) (isFolder : Bool) : Option Bool :=
  let ls := levels p
  let repo := repositoryLevels t ls
  (firstDecision t [".ignore"] ls isFolder).or
    ((firstDecision t [".gitignore"] repo isFolder).or
      (firstDecision t [".git", "info", "exclude"] repo isFolder))

/-- Is a name hidden? -/
def isHidden (name : String) : Bool :=
  name.toList.head? == some '.'

/-- Is a path left out, when the folder it is in is not? -/
def isLeftOut (t : Tree) (p : Names) (isFolder : Bool) : Bool :=
  let name := p.getLast?.getD ""
  (match ruled? t p isFolder with
    | some keeps => !keeps
    | none => isHidden name) || name == "node_modules"

/-- Is a file below a folder found from there? -/
def isReached (t : Tree) (root p : Names) : Bool :=
  root.isPrefixOf p && root.length < p.length &&
    (List.range p.length).all fun n =>
      n < root.length || !isLeftOut t (p.take (n + 1)) (n + 1 < p.length)

/-- Is a path that of a manifest or of a source? -/
def isSupported (patterns : Pattern.Patterns) (path : String) : Bool :=
  (patterns.classify? path).isSome || (Language.ofPath? path).isSome

/-- A place below a root, written as the root is. -/
def writtenPath (root : String) (below : Names) : String :=
  below.foldl join root

/-- The manifests and sources below a place, or the place itself if it is a file. Paths are written
with `root` for the place and come in the order of their steps. -/
def walk (patterns : Pattern.Patterns) (t : Tree) (place : Names) (root : String) : List String :=
  if t.hasFile place then (if isSupported patterns root then [root] else [])
  else
    let reached := (t.files.map (·.1)).filter (isReached t place)
    let sorted := reached.mergeSort namesLe
    (sorted.map fun p => writtenPath root (p.drop place.length)).filter (isSupported patterns)

end DepScope.Files
