import DepScope.Keyed
import DepScope.Toml.Keys
import Mathlib.Data.List.Basic

/-!
# DepScope.Proofs.Toml.Traversal

The traversal of a syntax tree that keeps the path in one stack, which it extends on the way down and
cuts back on the way up, and the numbers of array elements in one table.

1. The keys met are those of the tables, elements and pairs that can be reached without going into a
   key, or past a table or pair without one (`Tree.ownerAt?`). Each is met once, in the order of the
   document.
2. The path is cut back to what it was after every subtree, so a key is met with the path of what is
   around it and its own steps behind (`Found`). By the recursion of the tree, this is what all that
   is around it contributes, from the outside in.
3. Whatever each entry into a table keeps, the traversal keeps (`walk_keeps`). So the table of
   numbers holds how many elements have been met under each path, and that is the number of the next
   one (`Numbered`).
-/

namespace DepScope.Toml

open Text

/-! ## Syntax trees -/

/-- What a node of a syntax tree is. -/
inductive Kind where
  | table
  /-- An element of an array of tables. -/
  | element
  | pair
  | bareKey
  | quotedKey
  | dottedKey
  | string
  | comment
  | other
deriving DecidableEq

/-- Does a node of this kind have a key? -/
def Kind.isOwner : Kind → Bool
  | table | element | pair => true
  | _ => false

/-- Is a node of this kind a key? -/
def Kind.isKey : Kind → Bool
  | bareKey | quotedKey | dottedKey => true
  | _ => false

/-- A node with its place, its text and the nodes in it. -/
inductive Tree where
  | mk (kind : Kind) (span : Span) (text : List Char) (children : List Tree)

/-- A table, element or pair as it is met: which of its nodes is the key, the key, and the value of a
pair. -/
structure Owner where
  kind : Kind
  keyIndex : Nat
  key : Tree
  value : Option Tree

namespace Tree

def kind : Tree → Kind
  | mk k _ _ _ => k

def span : Tree → Span
  | mk _ s _ _ => s

def text : Tree → List Char
  | mk _ _ t _ => t

def children : Tree → List Tree
  | mk _ _ _ cs => cs

mutual

/-- The steps that a key adds to a path. -/
def segments : Tree → List Segment
  | mk .dottedKey _ _ cs => segmentsAll cs
  | mk .quotedKey _ text _ => [.name (String.ofList ((decodeString? text).getD text))]
  | mk _ _ text _ => [.name (String.ofList text)]

/-- The steps of the keys among some nodes. -/
def segmentsAll : List Tree → List Segment
  | [] => []
  | c :: cs => (if c.kind.isKey then c.segments else []) ++ segmentsAll cs

end

/-- The last of the nodes that is neither a comment nor the one with this number. -/
def lastBeside (k : Nat) (cs : List Tree) : Option Tree :=
  (cs.zipIdx.reverse.find? fun (c, i) => decide (i ≠ k) && decide (c.kind ≠ .comment)).map (·.1)

/-- A table, element or pair with its key, which is the first among its nodes. -/
def owner? (t : Tree) : Option Owner :=
  if t.kind.isOwner then do
    let k ← t.children.findIdx? (·.kind.isKey)
    let key ← t.children[k]?
    return ⟨t.kind, k, key, if t.kind = .pair then lastBeside k t.children else none⟩
  else none

/-- The text of a string. -/
def string? (t : Tree) : Option String :=
  if t.kind = .string then (decodeString? t.text).map String.ofList else none

end Tree

/-! ## The traversal -/

/-- A key as it is met: the address of the node that has it, that is the numbers of the nodes on the
way down to it, and the path. -/
structure Met where
  address : List Nat
  owner : Owner
  path : List Segment

/-- How far the traversal has come: the path, how many elements there have been under each path, and
the keys met so far. -/
structure Progress where
  path : List Segment
  counts : List (List Segment × Nat)
  met : List Met

namespace Progress

/-- Goes into a table, element or pair: the path gets the steps of its key, for an element its number
as well, and the key is met. -/
def enter (s : Progress) (a : List Nat) (o : Owner) : Progress :=
  let header := s.path ++ o.key.segments
  if o.kind = .element then
    let n := (Keyed.get? header s.counts).getD 0
    let path := header ++ [.index n]
    ⟨path, Keyed.put header (n + 1) s.counts, s.met ++ [⟨a, o, path⟩]⟩
  else ⟨header, s.counts, s.met ++ [⟨a, o, header⟩]⟩

/-- Cuts the path back. -/
def leave (s : Progress) (depth : Nat) : Progress :=
  { s with path := s.path.take depth }

end Progress

mutual

/-- Traverses the node at an address. A table or pair without a key is passed over. -/
def walk (a : List Nat) : Tree → Progress → Progress
  | .mk kind span text children, s =>
    if kind.isOwner then
      match (Tree.mk kind span text children).owner? with
      | none => s
      | some o => (walkAll a (some o.keyIndex) 0 children (s.enter a o)).leave s.path.length
    else walkAll a none 0 children s

/-- Traverses nodes, which are numbered from `i` on, but for the one that is skipped. -/
def walkAll (a : List Nat) (skip : Option Nat) (i : Nat) : List Tree → Progress → Progress
  | [], s => s
  | c :: cs, s => walkAll a skip (i + 1) cs (if skip = some i then s else walk (a ++ [i]) c s)

end

/-- The keys of a syntax tree. -/
def traverse (root : Tree) : List Met :=
  (walk [] root ⟨[], [], []⟩).met

/-! ## What can be reached -/

namespace Tree

/-- The node at an address. -/
def at? (t : Tree) : List Nat → Option Tree
  | [] => some t
  | i :: q => t.children[i]?.bind fun c => c.at? q

/-- Is a node inside of this one traversed? Not the key, and nothing if the key is missing. -/
def enters (t : Tree) (i : Nat) : Bool :=
  !t.kind.isOwner || t.owner?.any fun o => decide (o.keyIndex ≠ i)

/-- The table, element or pair at an address. There is none inside of keys, nor inside of a table or
pair without a key. -/
def ownerAt? (t : Tree) : List Nat → Option Owner
  | [] => t.owner?
  | i :: q => if t.enters i then t.children[i]?.bind fun c => c.ownerAt? q else none

end Tree

/-! ## Paths -/

/-- What a node contributes to the paths of all keys inside of it: the steps of its key, and the
number of an element. -/
def Met.own (m : Met) : List Segment :=
  m.owner.key.segments ++ if m.owner.kind = .element then m.path.getLast?.toList else []

/-- The keys met in a part of a tree, in a place whose path is `before`: those of the owners in
`owners`, in the order of their addresses, each with the path before and then what all that is around
it contributes, from the outside in. -/
structure Found (before : List Segment) (owners : List Nat → Owner → Prop) (es : List Met) :
    Prop where
  ordered : (es.map Met.address).Pairwise (· < ·)
  complete : ∀ a o, (∃ e ∈ es, e.address = a ∧ e.owner = o) ↔ owners a o
  path : ∀ e ∈ es, e.path = before ++ (es.filter fun f => f.address <+: e.address).flatMap Met.own

variable {before : List Segment} {S T : List Nat → Owner → Prop} {es fs : List Met} {e : Met}
  {a : List Nat} {s : Progress} {o : Owner}

namespace Found

theorem congr (h : Found before S es) (hST : ∀ a o, S a o ↔ T a o) : Found before T es :=
  ⟨h.ordered, fun a o => (h.complete a o).trans (hST a o), h.path⟩

theorem nil (before : List Segment) : Found before (fun _ _ => False) [] :=
  ⟨.nil, by simp, by simp⟩

theorem owners_of_mem (h : Found before S es) (he : e ∈ es) : S e.address e.owner :=
  (h.complete _ _).mp ⟨e, he, rfl, rfl⟩

/-- A node in front of what is found inside of it. -/
theorem cons (hpath : e.path = before ++ e.own) (h : Found e.path S es)
    (hinside : ∀ b o, S b o → ∃ i q, b = e.address ++ i :: q) :
    Found before (fun b o => b = e.address ∧ o = e.owner ∨ S b o) (e :: es) := by
  have hinside {f : Met} (hf : f ∈ es) : ∃ i q, f.address = e.address ++ i :: q :=
    hinside _ _ (h.owners_of_mem hf)
  refine ⟨.cons (fun b hb => ?_) h.ordered, fun b o => ?_, fun f hf => ?_⟩
  · obtain ⟨f, hf, rfl⟩ := List.mem_map.mp hb
    obtain ⟨i, q, hq⟩ := hinside hf
    have hlt : e.address ++ [] < e.address ++ i :: q :=
      List.append_left_lt (List.nil_lt_cons i q)
    rwa [List.append_nil, ← hq] at hlt
  · rw [← h.complete b o]
    simp [eq_comm]
  · obtain rfl | hf := List.mem_cons.mp hf
    · have hnone : (es.filter fun g => g.address <+: f.address) = [] := by
        refine List.filter_eq_nil_iff.mpr fun g hg => ?_
        obtain ⟨i, q, hq⟩ := hinside hg
        have hlonger : ¬g.address <+: f.address := fun h => by
          have hlength := h.length_le
          rw [hq, List.length_append, List.length_cons] at hlength
          omega
        simpa using hlonger
      rw [List.filter_cons_of_pos (by simp), hnone]
      simpa using hpath
    · obtain ⟨i, q, hq⟩ := hinside hf
      rw [List.filter_cons_of_pos (by simp [hq]), h.path f hf, List.flatMap_cons, hpath,
        List.append_assoc]

/-- Two parts one after the other, neither inside of the other. -/
theorem append (hes : Found before S es) (hfs : Found before T fs)
    (hlt : ∀ b o c o', S b o → T c o' → b < c ∧ ¬b <+: c ∧ ¬c <+: b) :
    Found before (fun b o => S b o ∨ T b o) (es ++ fs) := by
  have hlt {e f : Met} (he : e ∈ es) (hf : f ∈ fs) :=
    hlt _ _ _ _ (hes.owners_of_mem he) (hfs.owners_of_mem hf)
  refine ⟨?_, fun b o => ?_, fun e he => ?_⟩
  · rw [List.map_append]
    refine List.pairwise_append.mpr ⟨hes.ordered, hfs.ordered, fun b hb c hc => ?_⟩
    obtain ⟨e, he, rfl⟩ := List.mem_map.mp hb
    obtain ⟨f, hf, rfl⟩ := List.mem_map.mp hc
    exact (hlt he hf).1
  · rw [← hes.complete b o, ← hfs.complete b o]
    simp only [List.mem_append, or_and_right, exists_or]
  · rw [List.filter_append]
    obtain he | he := List.mem_append.mp he
    · have hnone : (fs.filter fun f => f.address <+: e.address) = [] :=
        List.filter_eq_nil_iff.mpr fun f hf => by simpa using (hlt he hf).2.2
      rw [hnone, List.append_nil, hes.path e he]
    · have hnone : (es.filter fun f => f.address <+: e.address) = [] :=
        List.filter_eq_nil_iff.mpr fun f hf => by simpa using (hlt hf he).2.1
      rw [hnone, List.nil_append, hfs.path e he]

end Found

/-- What can be reached from the node at an address. -/
def OwnersAt (a : List Nat) (t : Tree) (b : List Nat) (o : Owner) : Prop :=
  ∃ q, b = a ++ q ∧ t.ownerAt? q = some o

/-- What can be reached from nodes that are numbered from `i` on, but for one that is skipped. -/
def OwnersAmong (a : List Nat) (skip : Option Nat) (i : Nat) (cs : List Tree) (b : List Nat)
    (o : Owner) : Prop :=
  ∃ j q c, b = a ++ (i + j) :: q ∧ skip ≠ some (i + j) ∧ cs[j]? = some c ∧ c.ownerAt? q = some o

section Owners

variable {b : List Nat} {t c : Tree} {cs : List Tree} {skip : Option Nat} {i : Nat}

theorem not_ownersAmong_nil : ¬OwnersAmong a skip i [] b o := by
  simp [OwnersAmong]

theorem ownersAmong_cons : OwnersAmong a skip i (c :: cs) b o ↔
    skip ≠ some i ∧ OwnersAt (a ++ [i]) c b o ∨ OwnersAmong a skip (i + 1) cs b o := by
  constructor
  · rintro ⟨_ | j, q, d, rfl, hskip, hd, hq⟩
    · cases hd
      exact .inl ⟨hskip, q, by simp, hq⟩
    · exact .inr ⟨j, q, d, by rw [Nat.add_right_comm, Nat.add_assoc],
        by rwa [Nat.add_right_comm, Nat.add_assoc], hd, hq⟩
  · rintro (⟨hskip, q, rfl, hq⟩ | ⟨j, q, d, rfl, hskip, hd, hq⟩)
    · exact ⟨0, q, c, by simp, hskip, rfl, hq⟩
    · exact ⟨j + 1, q, d, by rw [Nat.add_right_comm, Nat.add_assoc],
        by rwa [Nat.add_right_comm, Nat.add_assoc] at hskip, hd, hq⟩

/-- A node, and what can be reached from those inside of it that are entered. -/
theorem ownersAt_iff (hskip : ∀ j, t.enters j = true ↔ skip ≠ some j) :
    OwnersAt a t b o ↔
      b = a ∧ t.owner? = some o ∨ OwnersAmong a skip 0 t.children b o := by
  constructor
  · rintro ⟨_ | ⟨j, q⟩, rfl, hq⟩
    · exact .inl ⟨List.append_nil a, hq⟩
    · rw [Tree.ownerAt?] at hq
      split at hq
      · next henters =>
        obtain ⟨c, hc, hq⟩ := Option.bind_eq_some_iff.mp hq
        exact .inr ⟨j, q, c, by rw [Nat.zero_add], by rwa [Nat.zero_add, ← hskip], hc, hq⟩
      · cases hq
  · rintro (⟨rfl, ho⟩ | ⟨j, q, c, rfl, hj, hc, hq⟩)
    · exact ⟨[], (List.append_nil b).symm, ho⟩
    · rw [Nat.zero_add, ← hskip] at hj
      refine ⟨j :: q, by rw [Nat.zero_add], ?_⟩
      rw [Tree.ownerAt?, if_pos hj, hc]
      exact hq

theorem isOwner_of_owner? (h : t.owner? = some o) : t.kind.isOwner = true := by
  unfold Tree.owner? at h
  split at h
  · next howner => exact howner
  · cases h

theorem ownersAt_of_not_owner (h : t.kind.isOwner = false) :
    OwnersAmong a none 0 t.children b o ↔ OwnersAt a t b o := by
  have hskip (j : Nat) : t.enters j = true ↔ none ≠ some j := by simp [Tree.enters, h]
  have hnone : t.owner? = none := by simp [Tree.owner?, h]
  simp [ownersAt_iff hskip, hnone]

theorem not_ownersAt (h : t.kind.isOwner = true) (hnone : t.owner? = none) :
    ¬OwnersAt a t b o := by
  rintro ⟨_ | ⟨j, q⟩, rfl, hq⟩
  · rw [Tree.ownerAt?, hnone] at hq
    cases hq
  · simp [Tree.ownerAt?, Tree.enters, h, hnone] at hq

theorem ownersAt_of_owner {found : Owner} (h : t.owner? = some found) :
    b = a ∧ o = found ∨ OwnersAmong a (some found.keyIndex) 0 t.children b o ↔
      OwnersAt a t b o := by
  have hskip (j : Nat) : t.enters j = true ↔ some found.keyIndex ≠ some j := by
    simp [Tree.enters, isOwner_of_owner? h, h]
  simp [ownersAt_iff hskip, h, eq_comm]

/-- Siblings come one after the other, and none is inside of another. -/
theorem apart_of_siblings {b' : List Nat} {o' : Owner} (hb : OwnersAt (a ++ [i]) c b o)
    (hb' : OwnersAmong a skip (i + 1) cs b' o') : b < b' ∧ ¬b <+: b' ∧ ¬b' <+: b := by
  obtain ⟨q, rfl, -⟩ := hb
  obtain ⟨j, r, d, rfl, -⟩ := hb'
  rw [List.append_assoc, List.singleton_append]
  refine ⟨List.append_left_lt (List.cons_lt_cons_iff.mpr (.inl (by omega))), ?_, ?_⟩
  · rw [List.prefix_append_right_inj, List.cons_prefix_cons]
    omega
  · rw [List.prefix_append_right_inj, List.cons_prefix_cons]
    omega

end Owners

namespace Progress

/-- What is met on the way in: the key with the path before and its own steps. -/
theorem enter_spec (s : Progress) (a : List Nat) (o : Owner) :
    ∃ e : Met, e.address = a ∧ e.owner = o ∧ (s.enter a o).met = s.met ++ [e] ∧
      (s.enter a o).path = e.path ∧ e.path = s.path ++ e.own := by
  refine ⟨⟨a, o, (s.enter a o).path⟩, rfl, rfl, ?_, rfl, ?_⟩
  · unfold enter
    split <;> rfl
  · unfold enter Met.own
    split <;> simp

end Progress

mutual

/-- **A subtree leaves the path as it was**, and the keys found in it are those that can be reached,
with the path before and what is around them inside of the subtree. -/
theorem walk_spec (a : List Nat) : (t : Tree) → (s : Progress) → (walk a t s).path = s.path ∧
    ∃ es, (walk a t s).met = s.met ++ es ∧ Found s.path (OwnersAt a t) es
  | .mk kind span text children, s => by
    rw [walk]
    split
    · next howner =>
      split
      · next hnone =>
        refine ⟨rfl, [], (List.append_nil _).symm, (Found.nil _).congr fun b o => ?_⟩
        exact (iff_false_intro (not_ownersAt (t := .mk ..) howner hnone)).symm
      · next o ho =>
        obtain ⟨e, rfl, rfl, hmet, hpath, hown⟩ := s.enter_spec a o
        obtain ⟨hback, es, hmet', hfound⟩ :=
          walkAll_spec e.address (some e.owner.keyIndex) 0 children (s.enter e.address e.owner)
        rw [hpath] at hback hfound
        refine ⟨?_, e :: es, ?_, ?_⟩
        · rw [Progress.leave, hback, hown, List.take_left]
        · rw [Progress.leave, hmet', hmet, List.append_assoc, List.singleton_append]
        · refine (hfound.cons hown fun b o hb => ?_).congr fun b o => ownersAt_of_owner ho
          obtain ⟨j, q, -, rfl, -⟩ := hb
          exact ⟨_, q, rfl⟩
    · next howner =>
      obtain ⟨hpath, es, hmet, hfound⟩ := walkAll_spec a none 0 children s
      exact ⟨hpath, es, hmet, hfound.congr fun b o =>
        ownersAt_of_not_owner (t := .mk ..) (Bool.eq_false_iff.mpr howner)⟩

theorem walkAll_spec (a : List Nat) (skip : Option Nat) (i : Nat) : (cs : List Tree) →
    (s : Progress) → (walkAll a skip i cs s).path = s.path ∧
      ∃ es, (walkAll a skip i cs s).met = s.met ++ es ∧ Found s.path (OwnersAmong a skip i cs) es
  | [], s => by
    rw [walkAll]
    refine ⟨rfl, [], (List.append_nil _).symm, (Found.nil _).congr fun b o => ?_⟩
    exact (iff_false_intro not_ownersAmong_nil).symm
  | c :: cs, s => by
    rw [walkAll]
    split
    · next hskip =>
      obtain ⟨hpath, es, hmet, hfound⟩ := walkAll_spec a skip (i + 1) cs s
      refine ⟨hpath, es, hmet, hfound.congr fun b o => ?_⟩
      simp [ownersAmong_cons, hskip]
    · next hskip =>
      obtain ⟨hpath, es, hmet, hfound⟩ := walk_spec (a ++ [i]) c s
      obtain ⟨hpath', fs, hmet', hfound'⟩ := walkAll_spec a skip (i + 1) cs (walk (a ++ [i]) c s)
      rw [hpath] at hpath' hfound'
      refine ⟨hpath', es ++ fs, by rw [hmet', hmet, List.append_assoc], ?_⟩
      refine (hfound.append hfound' fun b o b' o' => apart_of_siblings).congr fun b o => ?_
      simp [ownersAmong_cons, hskip]

end

/-! ## Numbers -/

mutual

/-- Whatever each step of the way keeps, the traversal of a subtree keeps. -/
theorem walk_keeps {P : Progress → Prop} (henter : ∀ s a o, P s → P (s.enter a o))
    (hleave : ∀ s depth, P s → P (s.leave depth)) (a : List Nat) :
    (t : Tree) → (s : Progress) → P s → P (walk a t s)
  | .mk kind span text children, s, hs => by
    rw [walk]
    split
    · split
      · exact hs
      · exact hleave _ _ (walkAll_keeps henter hleave a _ 0 children _ (henter _ _ _ hs))
    · exact walkAll_keeps henter hleave a none 0 children s hs

theorem walkAll_keeps {P : Progress → Prop} (henter : ∀ s a o, P s → P (s.enter a o))
    (hleave : ∀ s depth, P s → P (s.leave depth)) (a : List Nat) (skip : Option Nat) (i : Nat) :
    (cs : List Tree) → (s : Progress) → P s → P (walkAll a skip i cs s)
  | [], s, hs => by rwa [walkAll]
  | c :: cs, s, hs => by
    rw [walkAll]
    refine walkAll_keeps henter hleave a skip (i + 1) cs _ ?_
    split
    · exact hs
    · exact walk_keeps henter hleave _ c s hs

end

/-- Is this an element of the array of tables at a path? -/
def Met.isElementOf (header : List Segment) (m : Met) : Bool :=
  m.owner.kind = .element && m.path.dropLast = header

/-- Each element has a number: how many elements of the same array have been met before. -/
def ElementsNumbered (ms : List Met) : Prop :=
  ∀ (i : Nat) (m : Met), ms[i]? = some m → m.owner.kind = .element →
    m.path.getLast? = some (.index ((ms.take i).countP (Met.isElementOf m.path.dropLast)))

theorem elementsNumbered_nil : ElementsNumbered [] := by
  simp [ElementsNumbered]

theorem ElementsNumbered.concat {ms : List Met} (h : ElementsNumbered ms) (e : Met)
    (he : e.owner.kind = .element →
      e.path.getLast? = some (.index (ms.countP (Met.isElementOf e.path.dropLast)))) :
    ElementsNumbered (ms ++ [e]) := by
  intro i m hm hkind
  obtain hlt | heq := Nat.lt_or_eq_of_le (Nat.lt_succ_iff.mp
    (by simpa using (List.getElem?_eq_some_iff.mp hm).1 : i < ms.length + 1))
  · rw [List.getElem?_append_left hlt] at hm
    rw [List.take_append_of_le_length (Nat.le_of_lt hlt)]
    exact h i m hm hkind
  · subst heq
    obtain rfl : e = m := by simpa using hm
    rw [List.take_left]
    exact he hkind

/-- The table holds how many elements of each array have been met, and these have their numbers. -/
structure Numbered (s : Progress) : Prop where
  counts : ∀ header, (Keyed.get? header s.counts).getD 0 = s.met.countP (Met.isElementOf header)
  numbers : ElementsNumbered s.met

namespace Numbered

theorem start : Numbered ⟨[], [], []⟩ :=
  ⟨fun _ => rfl, elementsNumbered_nil⟩

theorem enter (h : Numbered s) (a : List Nat) (o : Owner) : Numbered (s.enter a o) := by
  unfold Progress.enter
  split
  · next hkind =>
    refine ⟨fun header => ?_, h.numbers.concat _ fun _ => ?_⟩
    · rw [Keyed.get?_put, List.countP_append, ← h.counts header]
      by_cases heq : s.path ++ o.key.segments = header
      · simp [heq, Met.isElementOf, hkind]
      · simp [heq, Met.isElementOf, hkind]
    · rw [← h.counts]
      simp
  · next hkind =>
    refine ⟨fun header => ?_, h.numbers.concat _ fun h => absurd h hkind⟩
    rw [List.countP_append, ← h.counts header]
    simp [Met.isElementOf, hkind]

theorem leave (h : Numbered s) (depth : Nat) : Numbered (s.leave depth) :=
  ⟨h.counts, h.numbers⟩

theorem walk (h : Numbered s) (a : List Nat) (t : Tree) : Numbered (Toml.walk a t s) :=
  walk_keeps (fun _ a o h => h.enter a o) (fun _ depth h => h.leave depth) a t s h

end Numbered

end DepScope.Toml
