import DepScope.Script.Imports

/-!
# DepScope.Proofs.Script.Walk

The loop that looks for imports, with a stack of the nodes that are still to come.

1. A node is known by its address, the numbers of the children on the way down to it, so that two
   nodes that look alike are told apart (`Node.at?`). The recursive traversal lists all addresses,
   each once and in the order of the source (`mem_located`, `pairwise_located`).
2. One turn of the loop takes the last node of the stack and puts its children there, the first one
   on top (`step?_reverse`). What is still to come is then the traversal of the nodes on the stack,
   from its top, and each turn takes one node off it (`run?_reverse`).
3. So the loop takes as many turns as the tree has nodes, examines them in the order of the traversal,
   and gathers what the imports among them mention (`walk_in_source_order`).
-/

namespace DepScope.Script

open Text

/-- A node and its address: the numbers of the children on the way down to it. -/
structure Located where
  address : List Nat
  node : Node

/-- The children of a node, each at its own address. -/
def Located.children (x : Located) : List Located :=
  x.node.children.zipIdx.map fun (c, i) => ⟨x.address ++ [i], c⟩

/-! ## The loop -/

/-- The state of the loop: the nodes to come with the next one last, the nodes that have been
examined, and what has been gathered. -/
structure Walk where
  stack : List Located
  examined : List Located
  references : References

namespace Walk

/-- Before the first turn. -/
def start (root : Node) : Walk :=
  ⟨[⟨[], root⟩], [], .empty⟩

/-- Adds what a node mentions, if it is a place that loads a module. -/
def gather (lines : LineIndex) (rs : References) (x : Located) : References :=
  match x.node.site?.bind (Site.mention? lines) with
  | some m => rs.add m
  | none => rs

/-- One turn of the loop: a node is taken off the stack and examined, and its children are put on the
stack in reverse. There is none if the stack is empty. -/
def step? (lines : LineIndex) (w : Walk) : Option Walk :=
  w.stack.getLast?.map fun x =>
    { stack := w.stack.dropLast ++ x.children.reverse
      examined := w.examined ++ [x]
      references := gather lines w.references x }

/-- So many turns. -/
def run? (lines : LineIndex) : Nat → Walk → Option Walk
  | 0, w => some w
  | n + 1, w => (w.step? lines).bind (run? lines n)

end Walk

/-! ## The traversal -/

namespace Node

/-- The node at an address. -/
def at? (n : Node) : List Nat → Option Node
  | [] => some n
  | i :: q => n.children[i]?.bind fun c => c.at? q

mutual

/-- The nodes of a tree at an address, each before its children, the children from left to right. -/
def located (a : List Nat) : Node → List Located
  | mk l s cs => ⟨a, mk l s cs⟩ :: locatedAll a 0 cs

/-- The nodes below children, which are numbered from `i` on. -/
def locatedAll (a : List Nat) (i : Nat) : List Node → List Located
  | [] => []
  | c :: cs => c.located (a ++ [i]) ++ locatedAll a (i + 1) cs

end

mutual

theorem map_node_located (a : List Nat) : (n : Node) →
    (n.located a).map Located.node = n.preorder
  | mk l s cs => by rw [located, preorder, List.map_cons, map_node_locatedAll a 0 cs]

/-- **The traversal without addresses** lists each node before its children. -/
theorem map_node_locatedAll (a : List Nat) (i : Nat) : (cs : List Node) →
    (locatedAll a i cs).map Located.node = preorders cs
  | [] => by rw [locatedAll, preorders, List.map_nil]
  | c :: cs => by
    rw [locatedAll, preorders, List.map_append, map_node_located _ c, map_node_locatedAll a _ cs]

end

variable {x : Located}

mutual

/-- **All nodes are listed**, at their addresses. -/
theorem mem_located (a : List Nat) : (n : Node) →
    (x ∈ n.located a ↔ ∃ q, x.address = a ++ q ∧ n.at? q = some x.node)
  | mk l s cs => by
    rw [located, List.mem_cons, mem_locatedAll a 0 cs]
    constructor
    · rintro (rfl | ⟨j, q, c, haddress, hc, hq⟩)
      · exact ⟨[], (List.append_nil a).symm, rfl⟩
      · refine ⟨j :: q, by rw [haddress, Nat.zero_add], ?_⟩
        rw [at?, children, hc]
        exact hq
    · rintro ⟨_ | ⟨j, q⟩, haddress, hq⟩
      · obtain ⟨address, node⟩ := x
        rw [List.append_nil] at haddress
        cases hq
        exact .inl (congrArg (Located.mk · _) haddress)
      · obtain ⟨c, hc, hq⟩ := Option.bind_eq_some_iff.mp hq
        exact .inr ⟨j, q, c, by rw [haddress, Nat.zero_add], hc, hq⟩

theorem mem_locatedAll (a : List Nat) (i : Nat) : (cs : List Node) →
    (x ∈ locatedAll a i cs ↔
      ∃ j q c, x.address = a ++ (i + j) :: q ∧ cs[j]? = some c ∧ c.at? q = some x.node)
  | [] => by simp [locatedAll]
  | c :: cs => by
    rw [locatedAll, List.mem_append, mem_located _ c, mem_locatedAll a _ cs]
    constructor
    · rintro (⟨q, haddress, hq⟩ | ⟨j, q, d, haddress, hd, hq⟩)
      · exact ⟨0, q, c, by simpa using haddress, rfl, hq⟩
      · exact ⟨j + 1, q, d, by rw [haddress, Nat.add_right_comm, Nat.add_assoc], hd, hq⟩
    · rintro ⟨_ | j, q, d, haddress, hd, hq⟩
      · cases hd
        exact .inl ⟨q, by simpa using haddress, hq⟩
      · exact .inr ⟨j, q, d, by rw [haddress, Nat.add_right_comm, Nat.add_assoc], hd, hq⟩

end

mutual

/-- **The order of the source**: addresses grow from each node to the next. -/
theorem pairwise_located (a : List Nat) : (n : Node) →
    ((n.located a).map Located.address).Pairwise (· < ·)
  | mk l s cs => by
    rw [located, List.map_cons]
    refine .cons (fun b hb => ?_) (pairwise_locatedAll a 0 cs)
    obtain ⟨x, hx, rfl⟩ := List.mem_map.mp hb
    obtain ⟨j, q, c, haddress, -⟩ := (mem_locatedAll a 0 cs).mp hx
    have hlt : a ++ [] < a ++ (0 + j) :: q := List.append_left_lt (List.nil_lt_cons (0 + j) q)
    rw [List.append_nil] at hlt
    rwa [haddress]

theorem pairwise_locatedAll (a : List Nat) (i : Nat) : (cs : List Node) →
    ((locatedAll a i cs).map Located.address).Pairwise (· < ·)
  | [] => by
    rw [locatedAll]
    exact .nil
  | c :: cs => by
    rw [locatedAll, List.map_append]
    refine List.pairwise_append.mpr
      ⟨pairwise_located _ c, pairwise_locatedAll a (i + 1) cs, fun b hb d hd => ?_⟩
    obtain ⟨x, hx, rfl⟩ := List.mem_map.mp hb
    obtain ⟨y, hy, rfl⟩ := List.mem_map.mp hd
    obtain ⟨q, hx, -⟩ := (mem_located _ c).mp hx
    obtain ⟨j, r, e, hy, -⟩ := (mem_locatedAll a _ cs).mp hy
    rw [hx, hy, List.append_assoc, List.singleton_append]
    exact List.append_left_lt (List.cons_lt_cons_iff.mpr (.inl (by omega)))

end

end Node

/-! ## Turn by turn -/

namespace Walk

variable {lines : LineIndex} {x : Located} {todo seen : List Located} {rs : References}

/-- The nodes to come for the recursive traversal, if these are the next ones. -/
def traversal (todo : List Located) : List Located :=
  todo.flatMap fun x => x.node.located x.address

theorem traversal_children (x : Located) :
    traversal (x :: todo) = x :: traversal (x.children ++ todo) := by
  have hall (a : List Nat) (i : Nat) (cs : List Node) :
      traversal ((cs.zipIdx i).map fun (c, i) => ⟨a ++ [i], c⟩) = Node.locatedAll a i cs := by
    induction cs generalizing i with
    | nil => rw [Node.locatedAll]; rfl
    | cons c cs ih =>
      rw [Node.locatedAll, ← ih]
      rfl
  obtain ⟨a, l, s, cs⟩ := x
  rw [traversal, traversal, List.flatMap_cons, List.flatMap_append, Node.located, List.cons_append]
  exact congrArg (_ :: · ++ _) (hall a 0 cs).symm

/-- The number of nodes to come. -/
def remaining (todo : List Located) : Nat :=
  Node.sizes (todo.map Located.node)

theorem remaining_children (x : Located) :
    remaining (x :: todo) = remaining (x.children ++ todo) + 1 := by
  have hchildren : x.children.map Located.node = x.node.children := by
    rw [Located.children, List.map_map]
    exact List.zipIdx_map_fst 0 _
  obtain ⟨a, l, s, cs⟩ := x
  rw [remaining, remaining, List.map_append, hchildren, Node.sizes_append]
  simp only [List.map_cons, Node.sizes, Node.size, Node.children]
  omega

/-- **One turn**, with the stack written from its top. -/
theorem step?_reverse : (Walk.mk (x :: todo).reverse seen rs).step? lines =
    some ⟨(x.children ++ todo).reverse, seen ++ [x], gather lines rs x⟩ := by
  simp [step?]

/-- **All turns**: the loop examines what the traversal has to come, one node at each turn. -/
theorem run?_reverse (lines : LineIndex) (todo seen : List Located) (rs : References) :
    (Walk.mk todo.reverse seen rs).run? lines (remaining todo) =
      some ⟨[], seen ++ traversal todo, (traversal todo).foldl (gather lines) rs⟩ := by
  generalize hn : remaining todo = n
  induction n generalizing todo seen rs with
  | zero =>
    cases todo with
    | nil => simp [run?, traversal]
    | cons x todo =>
      rw [remaining_children] at hn
      cases hn
  | succ n ih =>
    cases todo with
    | nil => cases hn
    | cons x todo =>
      rw [remaining_children] at hn
      rw [run?, step?_reverse, Option.bind_some, ih _ _ _ (Nat.succ.inj hn), traversal_children]
      simp

/-- What the loop gathers is what the imports mention, in the same order. -/
theorem foldl_gather (xs : List Located) (rs : References) :
    xs.foldl (gather lines) rs =
      (((xs.map Located.node).filterMap Node.site?).filterMap (Site.mention? lines)).foldl
        References.add rs := by
  induction xs generalizing rs with
  | nil => rfl
  | cons x xs ih =>
    rw [List.foldl_cons, ih, List.map_cons, gather]
    cases hsite : x.node.site? with
    | none => rw [List.filterMap_cons_none hsite]; rfl
    | some site =>
      rw [List.filterMap_cons_some hsite, Option.bind_some]
      cases hmention : site.mention? lines with
      | none => rw [List.filterMap_cons_none hmention]
      | some m => rw [List.filterMap_cons_some hmention]; rfl

end Walk

/-- The stack that grows at its front sees the nodes in the order of the traversal. -/
theorem Node.visit_eq_preorders (stack : List Node) : Node.visit stack = Node.preorders stack := by
  have happend (ns ms : List Node) : preorders (ns ++ ms) = preorders ns ++ preorders ms := by
    induction ns with
    | nil => rw [preorders]; rfl
    | cons n ns ih => rw [List.cons_append, preorders, preorders, ih, List.append_assoc]
  fun_induction Node.visit stack with
  | case1 => rw [preorders]
  | case2 l s cs stack ih => rw [ih, happend, preorders, preorder, List.cons_append]

/-- **The loop examines every node once, in the order of the source.** On every tree it ends, after
as many turns as there are nodes. The nodes examined are those of the recursive traversal: their
addresses grow, and every node of the tree is there with its own. What has been gathered are the
mentions of the imports among them, in that order; for the tree of a script these are the packages
that it loads. -/
theorem walk_in_source_order :
    (∀ (lines : LineIndex) (root : Node), ∃ w, (Walk.start root).run? lines root.size = some w ∧
      w.step? lines = none ∧
      w.examined.map Located.node = root.preorder ∧
      (w.examined.map Located.address).Pairwise (· < ·) ∧
      (∀ x, x ∈ w.examined ↔ root.at? x.address = some x.node) ∧
      w.references = References.ofMentions
        ((root.preorder.filterMap Node.site?).filterMap (Site.mention? lines))) ∧
    ∀ (markup : Bool) (text : String), ∃ w,
      (Walk.start (parseScript markup text)).run? (LineIndex.ofText text)
        (parseScript markup text).size = some w ∧
      w.step? (LineIndex.ofText text) = none ∧ w.references = imports markup text := by
  have hrun (lines : LineIndex) (root : Node) : (Walk.start root).run? lines root.size =
      some ⟨[], root.located [], References.ofMentions
        ((root.preorder.filterMap Node.site?).filterMap (Site.mention? lines))⟩ := by
    have h := Walk.run?_reverse lines [⟨[], root⟩] [] .empty
    rw [Walk.foldl_gather] at h
    simpa [Walk.traversal, Walk.remaining, Node.sizes, Node.map_node_located, Walk.start,
      References.ofMentions] using h
  refine ⟨fun lines root => ⟨_, hrun lines root, rfl, root.map_node_located [],
    root.pairwise_located [], fun x => ?_, rfl⟩, fun markup text => ⟨_, hrun _ _, rfl, ?_⟩⟩
  · simpa using root.mem_located [] (x := x)
  · rw [imports, Node.visit_eq_preorders, Node.preorders, Node.preorders, List.append_nil]

end DepScope.Script
