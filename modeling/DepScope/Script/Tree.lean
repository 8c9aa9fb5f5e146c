import DepScope.Text.Position

/-!
# DepScope.Script.Tree

Syntax trees of scripts. A node carries what its meaning as a constant or as an import needs in its
label; nodes that can be neither are `other`. Comments are not in the tree, and children stand in
the order of the source.
-/

namespace DepScope.Script

open Text

/-- What a node is. -/
inductive Label where
  /-- A string literal with the text between its quotes. -/
  | string (body : List Char)
  /-- A template with the texts around its substitutions, which are the children. -/
  | template (texts : List (List Char))
  | number (text : List Char)
  | truth (b : Bool)
  | null
  | identifier (name : List Char)
  /-- The word `import` where a function stands. -/
  | importWord
  /-- An expression in parentheses, or one that is awaited. -/
  | wrapper
  /-- An operator before its operand. -/
  | unary (op : String)
  /-- An operator between its operands. -/
  | binary (op : String)
  /-- A call: the function first, the arguments last. -/
  | call
  /-- The arguments of a call. -/
  | arguments
  /-- A declaration that loads a module; its first child is the string that names it. -/
  | loads
  | other
deriving DecidableEq

/-- A node of a syntax tree. -/
inductive Node where
  | mk (label : Label) (span : Span) (children : List Node)

instance : Inhabited Node := ⟨.mk .other ⟨0, 0⟩ []⟩

namespace Node

def label : Node → Label
  | mk l _ _ => l

def span : Node → Span
  | mk _ s _ => s

def children : Node → List Node
  | mk _ _ cs => cs

mutual

/-- The number of nodes of a tree. -/
def size : Node → Nat
  | mk _ _ cs => 1 + sizes cs

/-- The number of nodes of a forest. -/
def sizes : List Node → Nat
  | [] => 0
  | n :: ns => n.size + sizes ns

end

mutual

/-- The nodes of a tree, each before its children, the children from left to right. -/
def preorder : Node → List Node
  | mk l s cs => mk l s cs :: preorders cs

/-- The nodes of a forest in that order. -/
def preorders : List Node → List Node
  | [] => []
  | n :: ns => n.preorder ++ preorders ns

end

theorem sizes_append (a b : List Node) : sizes (a ++ b) = sizes a + sizes b := by
  induction a with
  | nil => simp [sizes]
  | cons n a ih => simp [sizes, ih, Nat.add_assoc]

/-- Visits the nodes with a stack: the top node is taken off and its children are put in its
place. -/
def visit : List Node → List Node
  | [] => []
  | mk l s cs :: stack => mk l s cs :: visit (cs ++ stack)
termination_by stack => sizes stack
decreasing_by
  simp [sizes_append, sizes, size]

end Node

end DepScope.Script
