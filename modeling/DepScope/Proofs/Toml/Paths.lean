import DepScope.Toml.Keys
import DepScope.Toml.Meaning

/-!
# DepScope.Proofs.Toml.Paths

The paths of the keys of a document, against the table that the document means.

1. A name of the table is *written out* if a pair gives it a value or a header opens it; names that
   are only gone through on the way to others are not (`ownAt`).
2. Each rule for the meaning adds names, and written out are just those whose path the keys have
   (`Adds`), as long as no array is in the way (`crossesArray`).
3. So a path without an array on its way is that of a key exactly if it is written out
   (`visited_iff`). Behind an array there is nothing that a path of names could reach.
-/

namespace DepScope.Toml

variable {es es' : Entries} {q : List String} {k m : String} {node : Node}

/-! ## Paths in a table -/

/-- The names below a node: those of a table, however it is written. -/
def Node.under : Node → Entries
  | .table _ es => es
  | .value (.inlineTable _ ps) => (addPairs [] ps).getD []
  | _ => []

/-- Is this an array, of values or of tables? -/
def Node.isArray : Node → Bool
  | .value (.array ..) | .tables _ => true
  | _ => false

theorem Node.under_of_isArray (node : Node) (h : node.isArray = true) : node.under = [] := by
  cases node with
  | value v => cases v <;> first | rfl | cases h
  | table => cases h
  | tables => rfl

/-- Does the node have a pair or a header of its own? -/
def Node.isOwn : Node → Bool
  | .value _ | .table .header _ => true
  | _ => false

/-- The node at a path, through tables only. -/
def nodeAt? : Entries → List String → Option Node
  | _, [] => none
  | es, [n] => Keyed.get? n es
  | es, n :: ns => (Keyed.get? n es).bind fun node => nodeAt? node.under ns

/-- Is what stands at a path written out? -/
def ownAt (es : Entries) (q : List String) : Bool :=
  (nodeAt? es q).any Node.isOwn

/-- Is an array on the way along a path, before its end? -/
def crossesArray : Entries → List String → Bool
  | _, [] | _, [_] => false
  | es, n :: ns => (Keyed.get? n es).any fun node => node.isArray || crossesArray node.under ns

@[simp] theorem ownAt_path_nil (es : Entries) : ownAt es [] = false := rfl

@[simp] theorem crossesArray_path_nil (es : Entries) : crossesArray es [] = false := rfl

@[simp] theorem crossesArray_singleton (es : Entries) (n : String) :
    crossesArray es [n] = false := rfl

theorem ownAt_singleton (es : Entries) (n : String) :
    ownAt es [n] = (Keyed.get? n es).any Node.isOwn := rfl

theorem nodeAt?_cons_cons (es : Entries) (n m : String) (q : List String) :
    nodeAt? es (n :: m :: q) = (Keyed.get? n es).bind fun node => nodeAt? node.under (m :: q) := by
  rw [nodeAt?]
  simp

theorem ownAt_cons_cons (es : Entries) (n m : String) (q : List String) :
    ownAt es (n :: m :: q) = (Keyed.get? n es).any fun node => ownAt node.under (m :: q) := by
  rw [ownAt, nodeAt?_cons_cons]
  cases Keyed.get? n es <;> rfl

theorem crossesArray_cons_cons (es : Entries) (n m : String) (q : List String) :
    crossesArray es (n :: m :: q) =
      (Keyed.get? n es).any fun node => node.isArray || crossesArray node.under (m :: q) := by
  rw [crossesArray]
  simp

@[simp] theorem ownAt_nil (q : List String) : ownAt [] q = false := by
  match q with
  | [] | [_] => rfl
  | _ :: _ :: _ => rw [ownAt_cons_cons]; rfl

@[simp] theorem crossesArray_nil (q : List String) : crossesArray [] q = false := by
  match q with
  | [] | [_] => rfl
  | _ :: _ :: _ => rw [crossesArray_cons_cons]; rfl

theorem nodeAt?_concat (hq : q ≠ []) (es : Entries) (n : String) :
    nodeAt? es (q ++ [n]) = (nodeAt? es q).bind fun node => Keyed.get? n node.under := by
  induction q generalizing es with
  | nil => exact absurd rfl hq
  | cons k q ih =>
    cases q with
    | nil => exact nodeAt?_cons_cons es k n []
    | cons m q =>
      rw [List.cons_append, List.cons_append, nodeAt?_cons_cons, nodeAt?_cons_cons,
        Option.bind_assoc]
      exact congrArg _ (funext fun node => ih (by simp) node.under)

theorem crossesArray_concat (hq : q ≠ []) (es : Entries) (n : String) :
    crossesArray es (q ++ [n]) = (crossesArray es q || (nodeAt? es q).any Node.isArray) := by
  induction q generalizing es with
  | nil => exact absurd rfl hq
  | cons k q ih =>
    cases q with
    | nil =>
      have hsingle : nodeAt? es [k] = Keyed.get? k es := rfl
      rw [List.cons_append, List.nil_append, crossesArray_cons_cons, hsingle]
      simp
    | cons m q =>
      rw [List.cons_append, List.cons_append, crossesArray_cons_cons, crossesArray_cons_cons,
        nodeAt?_cons_cons]
      cases Keyed.get? k es with
      | none => rfl
      | some node =>
        have hnode := ih (by simp) node.under
        rw [List.cons_append] at hnode
        simp [hnode, Bool.or_assoc]

/-- Below an array a path of names reaches nothing. -/
theorem nodeAt?_of_crossesArray (h : crossesArray es q = true) : nodeAt? es q = none := by
  induction q generalizing es with
  | nil => rfl
  | cons n q ih =>
    cases q with
    | nil => simp at h
    | cons m q =>
      rw [crossesArray_cons_cons] at h
      rw [nodeAt?_cons_cons]
      cases hn : Keyed.get? n es with
      | none => rfl
      | some node =>
        simp only [hn, Option.any_some, Bool.or_eq_true] at h
        obtain harray | hunder := h
        · rw [Option.bind_some, node.under_of_isArray harray]
          cases q <;> rfl
        · exact ih hunder

/-- No array is on the way to a path or at it, and all names of the table there are written out. -/
def plainTable (es : Entries) (q : List String) : Bool :=
  !crossesArray es q &&
    (nodeAt? es q).all fun node => !node.isArray && node.under.all fun e => e.2.isOwn

theorem ownAt_of_plainTable (h : plainTable es q = true) (hq : q ≠ []) (n : String) :
    crossesArray es (q ++ [n]) = false ∧
      ((nodeAt? es (q ++ [n])).isSome = true → ownAt es (q ++ [n]) = true) := by
  rw [plainTable, Bool.and_eq_true, Bool.not_eq_true'] at h
  rw [crossesArray_concat hq, ownAt, nodeAt?_concat hq, h.1]
  cases hnode : nodeAt? es q with
  | none => simp
  | some node =>
    simp only [hnode, Option.all_some, Bool.and_eq_true, Bool.not_eq_true', List.all_eq_true] at h
    refine ⟨by simpa using h.2.1, fun hsome => ?_⟩
    rw [Option.bind_some] at hsome ⊢
    obtain ⟨entry, hentry⟩ := Option.isSome_iff_exists.mp hsome
    rw [hentry]
    exact h.2.2 _ (Keyed.mem_of_get? hentry)

/-! ## What is added -/

/-- From one table to another, the written out paths in a set are added. Nothing is said of paths
behind arrays, and no array goes away. -/
structure Adds (es es' : Entries) (S : List String → Prop) : Prop where
  own : ∀ q, crossesArray es' q = false → (ownAt es' q = true ↔ ownAt es q = true ∨ S q)
  crosses : ∀ q, crossesArray es q = true → crossesArray es' q = true

namespace Adds

variable {es'' : Entries} {S T : List String → Prop}

theorem congr (h : Adds es es' S) (hST : ∀ q, S q ↔ T q) : Adds es es' T where
  own q hq := by rw [h.own q hq, hST]
  crosses := h.crosses

theorem trans (h : Adds es es' S) (h' : Adds es' es'' T) :
    Adds es es'' fun q => S q ∨ T q where
  own q hq := by
    have hq' : crossesArray es' q = false := by
      cases hc : crossesArray es' q with
      | false => rfl
      | true => simp [h'.crosses q hc] at hq
    rw [h'.own q hq, h.own q hq', or_assoc]
  crosses q hq := h'.crosses q (h.crosses q hq)

theorem refl (es : Entries) : Adds es es fun _ => False where
  own q _ := by simp
  crosses _ h := h

/-- The empty path is never added. -/
theorem not_nil (h : Adds es es' S) : ¬S [] := fun hS => by
  simpa using (h.own [] rfl).mpr (.inr hS)

/-- **Putting a node under a name.** All paths that are added start with the name; the node is an
array if there was one, and is written out if it was or if that is added; and below it, what is added
is added to what was there. -/
theorem put (hS : ∀ q, S q → ∃ r, q = k :: r)
    (harray : (Keyed.get? k es).any Node.isArray = true → node.isArray = true)
    (hown : node.isOwn = true ↔ (Keyed.get? k es).any Node.isOwn = true ∨ S [k])
    (hunder : node.isArray = false →
      Adds ((Keyed.get? k es).elim [] Node.under) node.under fun r => r ≠ [] ∧ S (k :: r)) :
    Adds es (Keyed.put k node es) S where
  own q hq := by
    have hnot {m : String} {r : List String} (hm : k ≠ m) : ¬S (m :: r) := fun h => by
      obtain ⟨t, ht⟩ := hS _ h
      exact hm (List.cons.inj ht).1.symm
    obtain _ | ⟨m, _ | ⟨n, q⟩⟩ := q
    · simpa using fun h => hS [] h
    · by_cases hm : k = m
      · subst hm
        simpa [ownAt_singleton] using hown
      · simp [ownAt_singleton, hm, hnot hm]
    · by_cases hm : k = m
      · subst hm
        simp only [crossesArray_cons_cons, Keyed.get?_put, if_pos, Option.any_some,
          Bool.or_eq_false_iff] at hq
        have hsub := (hunder hq.1).own (n :: q) hq.2
        rw [ownAt_cons_cons, ownAt_cons_cons, Keyed.get?_put, if_pos rfl, Option.any_some, hsub]
        cases Keyed.get? k es <;> simp
      · simp [ownAt_cons_cons, hm, hnot hm]
  crosses q hq := by
    obtain _ | ⟨m, _ | ⟨n, q⟩⟩ := q
    · simp at hq
    · simp at hq
    · rw [crossesArray_cons_cons] at hq ⊢
      by_cases hm : k = m
      · subst hm
        rw [Keyed.get?_put, if_pos rfl, Option.any_some, Bool.or_eq_true]
        cases harr : node.isArray with
        | true => exact .inl rfl
        | false =>
          refine .inr ((hunder harr).crosses (n :: q) ?_)
          cases hk : Keyed.get? k es with
          | none => simp [hk] at hq
          | some old =>
            have hold : old.isArray = false := by
              cases ho : old.isArray with
              | false => rfl
              | true => simp [harray (by simp [hk, ho])] at harr
            simpa [hk, hold] using hq
      · rwa [Keyed.get?_put, if_neg hm]

end Adds

/-- The paths that a key adds: its own, and below it those of what it is given. -/
def Below (ks : List String) (F : List String → Prop) (q : List String) : Prop :=
  q = ks ∨ ∃ r, q = ks ++ r ∧ F r

theorem exists_of_below_cons {ks : List String} {F : List String → Prop}
    (h : Below (k :: ks) F q) : ∃ r, q = k :: r := by
  obtain rfl | ⟨r, rfl, -⟩ := h
  · exact ⟨ks, rfl⟩
  · exact ⟨ks ++ r, rfl⟩

theorem below_singleton {F : List String → Prop} (hF : ¬F []) (r : List String) :
    r ≠ [] ∧ Below [k] F (k :: r) ↔ F r := by
  constructor
  · rintro ⟨hr, h | ⟨r', h, hr'⟩⟩
    · exact absurd (List.cons.inj h).2 hr
    · rwa [(List.cons.inj h).2]
  · intro hr
    exact ⟨fun h => hF (h ▸ hr), .inr ⟨r, rfl, hr⟩⟩

theorem below_cons_cons {j : String} {ks : List String} {F : List String → Prop}
    (r : List String) : r ≠ [] ∧ Below (k :: j :: ks) F (k :: r) ↔ Below (j :: ks) F r := by
  simp only [Below, List.cons_append, List.cons.injEq, true_and, and_iff_right_iff_imp]
  rintro (rfl | ⟨r', rfl, -⟩) <;> simp

theorem not_below_cons_cons {j : String} {ks : List String} {F : List String → Prop} :
    ¬Below (k :: j :: ks) F [k] := by
  simp [Below]

/-- **A pair** adds its path, and below it what its value adds to nothing. -/
theorem adds_addValue {v : Value} {F : List String → Prop}
    (hF : (Node.value v).isArray = false → Adds [] (Node.value v).under F) {here : Bool}
    {ks : List String} (h : addValue v here ks es = some es') : Adds es es' (Below ks F) := by
  induction ks generalizing here es es' with
  | nil => cases h
  | cons k ks ih =>
    cases ks with
    | nil =>
      rw [addValue] at h
      split at h
      · next hnew =>
        cases h
        have hnone : Keyed.get? k es = none := by
          simp only [Bool.and_eq_true, Bool.not_eq_true', Keyed.contains] at hnew
          simpa using hnew.2
        refine .put (fun _ => exists_of_below_cons) (by simp [hnone]) ?_ fun harray => ?_
        · simp [hnone, Below, Node.isOwn]
        · rw [hnone]
          exact (hF harray).congr fun r => (below_singleton (hF harray).not_nil r).symm
      · cases h
    | cons j ks =>
      rw [addValue] at h
      · split at h
        · next hnone =>
          obtain ⟨sub, hsub, rfl⟩ := Option.map_eq_some_iff.mp h
          refine .put (fun _ => exists_of_below_cons) (by simp [hnone]) ?_ fun _ => ?_
          · simp [hnone, not_below_cons_cons, Node.isOwn]
          · rw [hnone]
            exact (ih hsub).congr fun r => (below_cons_cons r).symm
        · cases h
        · cases h
        · next o old hheader hold =>
          obtain ⟨sub, hsub, rfl⟩ := Option.map_eq_some_iff.mp h
          refine .put (fun _ => exists_of_below_cons) (by simp [hold, Node.isArray]) ?_ fun _ => ?_
          · cases o <;> simp [hold, not_below_cons_cons, Node.isOwn]
          · rw [hold]
            exact (ih hsub).congr fun r => (below_cons_cons r).symm
        · next items hitems =>
          obtain ⟨sub, hsub, rfl⟩ := Option.map_eq_some_iff.mp h
          refine .put (fun _ => exists_of_below_cons) (fun _ => rfl) ?_ (by simp [Node.isArray])
          simp [hitems, not_below_cons_cons, Node.isOwn]
      · simp

/-- **A header** adds its path, and below it what its pairs add; an element of an array of tables
adds nothing that a path of names could reach. -/
theorem adds_openTable {fill : Entries → Option Entries} {F : List String → Prop}
    (hfill : ∀ es es', fill es = some es' → Adds es es' F) {many : Bool} {ks : List String}
    (h : openTable fill many ks es = some es') :
    Adds es es' fun q => many = false ∧ Below ks F q := by
  have hstart (k : String) (ks : List String) (q : List String)
      (hq : many = false ∧ Below (k :: ks) F q) : ∃ r, q = k :: r :=
    exists_of_below_cons hq.2
  induction ks generalizing es es' with
  | nil => cases h
  | cons k ks ih =>
    cases ks with
    | nil =>
      unfold openTable at h
      split at h
      · next hnone =>
        obtain ⟨sub, hsub, rfl⟩ := Option.map_eq_some_iff.mp h
        have hadds := hfill _ _ hsub
        refine .put (hstart k []) (by simp [hnone]) ?_ fun _ => ?_
        · simp [hnone, Below, Node.isOwn]
        · rw [hnone]
          exact hadds.congr fun r => by simp [below_singleton hadds.not_nil]
      · next old hold =>
        obtain ⟨sub, hsub, rfl⟩ := Option.map_eq_some_iff.mp h
        have hadds := hfill _ _ hsub
        refine .put (hstart k []) (by simp [hold, Node.isArray]) ?_ fun _ => ?_
        · simp [hold, Below, Node.isOwn]
        · rw [hold]
          exact hadds.congr fun r => by simp [below_singleton hadds.not_nil]
      · next hnone =>
        obtain ⟨sub, hsub, rfl⟩ := Option.map_eq_some_iff.mp h
        exact .put (hstart k []) (fun _ => rfl) (by simp [hnone, Node.isOwn]) (by simp [Node.isArray])
      · next items hitems =>
        obtain ⟨sub, hsub, rfl⟩ := Option.map_eq_some_iff.mp h
        exact .put (hstart k []) (fun _ => rfl) (by simp [hitems, Node.isOwn])
          (by simp [Node.isArray])
      · cases h
    | cons j ks =>
      have hdeep (r : List String) :
          many = false ∧ Below (j :: ks) F r ↔
            r ≠ [] ∧ many = false ∧ Below (k :: j :: ks) F (k :: r) := by
        rw [and_left_comm, below_cons_cons]
      rw [openTable] at h
      · split at h
        · next hnone =>
          obtain ⟨sub, hsub, rfl⟩ := Option.map_eq_some_iff.mp h
          refine .put (hstart k _) (by simp [hnone]) ?_ fun _ => ?_
          · simp [hnone, not_below_cons_cons, Node.isOwn]
          · rw [hnone]
            exact (ih hsub).congr hdeep
        · cases h
        · next o old hold =>
          obtain ⟨sub, hsub, rfl⟩ := Option.map_eq_some_iff.mp h
          refine .put (hstart k _) (by simp [hold, Node.isArray]) ?_ fun _ => ?_
          · cases o <;> simp [hold, not_below_cons_cons, Node.isOwn]
          · rw [hold]
            exact (ih hsub).congr hdeep
        · next items hitems =>
          obtain ⟨sub, hsub, rfl⟩ := Option.map_eq_some_iff.mp h
          refine .put (hstart k _) (fun _ => rfl) ?_ (by simp [Node.isArray])
          simp [hitems, not_below_cons_cons, Node.isOwn]
      · simp

/-! ## The paths of keys -/

/-- A key has this path, which consists of names only. -/
def Visited (vs : List Visit) (q : List String) : Prop :=
  ∃ v ∈ vs, v.path = q.map .name

@[simp] theorem visited_nil (q : List String) : ¬Visited [] q := by
  simp [Visited]

theorem visited_cons {v : Visit} {vs : List Visit} :
    Visited (v :: vs) q ↔ v.path = q.map .name ∨ Visited vs q := by
  simp [Visited]

theorem visited_append {as bs : List Visit} :
    Visited (as ++ bs) q ↔ Visited as q ∨ Visited bs q := by
  simp [Visited, or_and_right, exists_or]

/-- A key inside of what stands at a path. -/
def Visit.within (path : List Segment) (v : Visit) : Visit :=
  { v with path := path ++ v.path }

mutual

theorem visitValue_eq (path : List Segment) :
    (v : Value) → visitValue path v = (visitValue [] v).map (Visit.within path)
  | .string .. | .scalar .. => rfl
  | .array _ items => by rw [visitValue, visitValue, visitItems_eq path items]
  | .inlineTable _ pairs => by rw [visitValue, visitValue, visitPairs_eq path pairs]

theorem visitItems_eq (path : List Segment) :
    (vs : List Value) → visitItems path vs = (visitItems [] vs).map (Visit.within path)
  | [] => rfl
  | v :: vs => by
    rw [visitItems, visitItems, visitValue_eq path v, visitItems_eq path vs, List.map_append]

theorem visitPairs_eq (path : List Segment) :
    (ps : List (Key × Value)) → visitPairs path ps = (visitPairs [] ps).map (Visit.within path)
  | [] => rfl
  | (k, v) :: ps => by
    rw [visitPairs, visitPairs, visitValue_eq (path ++ k.segments) v,
      visitValue_eq ([] ++ k.segments) v, visitPairs_eq path ps]
    simp [Visit.within, Function.comp_def]

end

theorem map_name_inj {a b : List String} : a.map Segment.name = b.map .name ↔ a = b :=
  List.map_inj_right fun _ _ h => Segment.name.inj h

theorem visited_within {p : List String} {vs : List Visit} :
    Visited (vs.map (Visit.within (p.map .name))) q ↔ ∃ r, q = p ++ r ∧ Visited vs r := by
  constructor
  · rintro ⟨w, hw, hpath⟩
    obtain ⟨v, hv, rfl⟩ := List.mem_map.mp hw
    obtain ⟨a, b, rfl, ha, hb⟩ := List.map_eq_append_iff.mp hpath.symm
    obtain rfl := map_name_inj.mp ha
    exact ⟨b, rfl, v, hv, hb.symm⟩
  · rintro ⟨r, rfl, v, hv, hpath⟩
    exact ⟨v.within _, List.mem_map_of_mem hv, by simp [Visit.within, hpath]⟩

theorem segments_eq_iff {k : Key} : k.segments = q.map .name ↔ q = k.names := by
  rw [Key.segments, map_name_inj, eq_comm]

/-- The paths of pairs, one after the other. -/
theorem visited_visitPairs {k : Key} {v : Value} {ps : List Pair} :
    Visited (visitPairs [] ((k, v) :: ps)) q ↔
      Below k.names (Visited (visitValue [] v)) q ∨ Visited (visitPairs [] ps) q := by
  rw [visitPairs, visitValue_eq, List.cons_append, visited_cons, visited_append, List.nil_append,
    Key.segments, visited_within, ← Key.segments, segments_eq_iff, Below, or_assoc]

/-- The paths of a table. -/
theorem visited_table {k : Key} {value : Option Value} {ps : List Pair} :
    Visited (⟨k.segments, k, value⟩ :: visitPairs k.segments ps) q ↔
      Below k.names (Visited (visitPairs [] ps)) q := by
  rw [visited_cons, visitPairs_eq k.segments, segments_eq_iff, Key.segments, visited_within, Below]

/-- In an element of an array of tables no path consists of names only. -/
theorem not_visited_element {k : Key} {i : Nat} {value : Option Value} {ps : List Pair} :
    ¬Visited (⟨k.segments ++ [.index i], k, value⟩ ::
      visitPairs (k.segments ++ [.index i]) ps) q := by
  have hindex (path : List Segment) : k.segments ++ .index i :: path ≠ q.map .name := by
    intro h
    have hmem : Segment.index i ∈ q.map .name := by
      rw [← h]
      simp
    simp at hmem
  rw [visited_cons, visitPairs_eq, not_or]
  refine ⟨hindex [], ?_⟩
  rintro ⟨w, hw, hpath⟩
  obtain ⟨v, -, rfl⟩ := List.mem_map.mp hw
  exact hindex v.path (by simpa [Visit.within] using hpath)

/-! ## Documents -/

/-- The names of a key are what it means, if it means anything. -/
def Key.Legible (k : Key) : Prop :=
  ∀ names, k.names? = some names → k.names = names

mutual

/-- All keys inside a value are legible. -/
def LegibleValue : Value → Prop
  | .string .. | .scalar .. => True
  | .array _ items => LegibleItems items
  | .inlineTable _ pairs => LegiblePairs pairs

/-- All keys inside of values are legible. -/
def LegibleItems : List Value → Prop
  | [] => True
  | v :: vs => LegibleValue v ∧ LegibleItems vs

/-- All keys of pairs and inside of their values are legible. -/
def LegiblePairs : List (Key × Value) → Prop
  | [] => True
  | (k, v) :: ps => k.Legible ∧ LegibleValue v ∧ LegiblePairs ps

end

/-- All keys of a document are legible. -/
structure Document.Legible (d : Document) : Prop where
  pairs : LegiblePairs d.pairs
  headers : ∀ s ∈ d.sections, s.header.Legible ∧ LegiblePairs s.pairs

mutual

/-- Does no inline table inside a value repeat a name? -/
def isKeyed : Value → Bool
  | .string .. | .scalar .. => true
  | .array _ items => areKeyed items
  | .inlineTable _ pairs => pairsKeyed pairs && (addPairs [] pairs).isSome

/-- Does no inline table inside of values repeat a name? -/
def areKeyed : List Value → Bool
  | [] => true
  | v :: vs => isKeyed v && areKeyed vs

/-- Does no inline table inside the values of pairs repeat a name? -/
def pairsKeyed : List (Key × Value) → Bool
  | [] => true
  | (_, v) :: ps => isKeyed v && pairsKeyed ps

end

/-- The table a document means, whatever its strings, numbers and dates are: all names have to make
sense, and none is given twice. -/
def Document.table? (d : Document) : Option Entries :=
  if pairsKeyed d.pairs && d.sections.all fun s => pairsKeyed s.pairs then do
    let root ← addPairs [] d.pairs
    d.sections.foldlM (fun es s => do
      openTable (addPairs · s.pairs) s.many (← s.header.names?) es) root
  else none

mutual

theorem isKeyed_of_isSound {depth : Nat} : (v : Value) → isSound depth v = true → isKeyed v = true
  | .string .., _ | .scalar .., _ => rfl
  | .array _ items, h => by
    rw [isSound, Bool.and_eq_true] at h
    exact areKeyed_of_areSound items h.2
  | .inlineTable _ pairs, h => by
    rw [isSound, Bool.and_eq_true, Bool.and_eq_true] at h
    rw [isKeyed, Bool.and_eq_true]
    exact ⟨pairsKeyed_of_pairsSound pairs h.1.2, h.2⟩

theorem areKeyed_of_areSound {depth : Nat} :
    (vs : List Value) → areSound depth vs = true → areKeyed vs = true
  | [], _ => rfl
  | v :: vs, h => by
    rw [areSound, Bool.and_eq_true] at h
    rw [areKeyed, isKeyed_of_isSound v h.1, areKeyed_of_areSound vs h.2]
    rfl

theorem pairsKeyed_of_pairsSound {depth : Nat} :
    (ps : List (Key × Value)) → pairsSound depth ps = true → pairsKeyed ps = true
  | [], _ => rfl
  | (_, v) :: ps, h => by
    rw [pairsSound, Bool.and_eq_true, Bool.and_eq_true] at h
    rw [pairsKeyed, isKeyed_of_isSound v h.1.2, pairsKeyed_of_pairsSound ps h.2]
    rfl

end

/-- A document with a meaning means its table. -/
theorem table?_of_meaning? {d : Document} {root : Entries} (h : d.meaning? = some root) :
    d.table? = some root := by
  unfold Document.meaning? at h
  simp only [Bool.not_eq_eq_eq_not, Bool.not_true] at h
  split at h
  · cases h
  · next hsound =>
    simp only [Bool.not_eq_false, Bool.and_eq_true, List.all_eq_true] at hsound
    have hkeyed : (pairsKeyed d.pairs && d.sections.all fun s => pairsKeyed s.pairs) = true := by
      simp only [Bool.and_eq_true, List.all_eq_true]
      exact ⟨pairsKeyed_of_pairsSound _ hsound.1,
        fun s hs => pairsKeyed_of_pairsSound _ (hsound.2 s hs).2⟩
    rw [Document.table?, if_pos hkeyed]
    exact h

mutual

/-- What a value adds below its name. -/
theorem adds_value : (v : Value) → LegibleValue v → isKeyed v = true →
    (Node.value v).isArray = false → Adds [] (Node.value v).under (Visited (visitValue [] v))
  | .string .., _, _, _ | .scalar .., _, _, _ => (Adds.refl []).congr fun q => by simp [visitValue]
  | .array .., _, _, h => by cases h
  | .inlineTable _ pairs, hlegible, hkeyed, _ => by
    rw [isKeyed, Bool.and_eq_true] at hkeyed
    obtain ⟨sub, hsub⟩ := Option.isSome_iff_exists.mp hkeyed.2
    rw [Node.under, hsub]
    exact adds_addPairs pairs hlegible hkeyed.1 hsub

/-- **Pairs** add the paths of their keys. -/
theorem adds_addPairs : (ps : List (Key × Value)) → LegiblePairs ps → pairsKeyed ps = true →
    ∀ {es es' : Entries}, addPairs es ps = some es' → Adds es es' (Visited (visitPairs [] ps))
  | [], _, _, es, es', h => by
    cases h
    exact (Adds.refl es).congr fun q => by simp [visitPairs]
  | (k, v) :: ps, hlegible, hkeyed, es, es', h => by
    obtain ⟨hk, hv, hps⟩ := hlegible
    rw [pairsKeyed, Bool.and_eq_true] at hkeyed
    obtain ⟨names, hnames, h⟩ := Option.bind_eq_some_iff.mp h
    obtain ⟨mid, hmid, h⟩ := Option.bind_eq_some_iff.mp h
    have hfirst := adds_addValue (adds_value v hv hkeyed.1) hmid
    have hrest := adds_addPairs ps hps hkeyed.2 h
    refine (hfirst.trans hrest).congr fun q => ?_
    rw [visited_visitPairs, hk names hnames]

end

/-- Sections add the paths of their keys. -/
theorem adds_sections {ss : List Section}
    (hlegible : ∀ s ∈ ss, s.header.Legible ∧ LegiblePairs s.pairs)
    (hkeyed : ∀ s ∈ ss, pairsKeyed s.pairs = true) (earlier : List (List Segment))
    (h : ss.foldlM (fun es s => do
      openTable (addPairs · s.pairs) s.many (← s.header.names?) es) es = some es') :
    Adds es es' (Visited (visitSections earlier ss)) := by
  induction ss generalizing es earlier with
  | nil =>
    obtain rfl : es = es' := Option.some.inj h
    exact (Adds.refl es).congr fun q => by simp [visitSections]
  | cons s ss ih =>
    obtain ⟨⟨hheader, hpairs⟩, hlegible⟩ := List.forall_mem_cons.mp hlegible
    obtain ⟨hkeyed, hkeyedRest⟩ := List.forall_mem_cons.mp hkeyed
    rw [List.foldlM_cons] at h
    obtain ⟨mid, hmid, h⟩ := Option.bind_eq_some_iff.mp h
    obtain ⟨names, hnames, hmid⟩ := Option.bind_eq_some_iff.mp hmid
    have hfirst := adds_openTable (fun _ _ => adds_addPairs s.pairs hpairs hkeyed) hmid
    have hrest := ih hlegible hkeyedRest (if s.many then s.header.segments :: earlier else earlier) h
    refine (hfirst.trans hrest).congr fun q => ?_
    rw [visitSections, visited_append, ← hheader names hnames]
    refine or_congr_left ?_
    cases s.many with
    | false => simpa using visited_table.symm
    | true => simpa using not_visited_element

/-- **The paths of the keys of a document** are, as long as no array is in the way, those of what is
written out in the table that the document means. -/
theorem visited_iff {d : Document} {root : Entries} (hlegible : d.Legible)
    (h : d.table? = some root) (hq : crossesArray root q = false) :
    Visited d.visits q ↔ ownAt root q = true := by
  unfold Document.table? at h
  split at h
  · next hkeyed =>
    simp only [Bool.and_eq_true, List.all_eq_true] at hkeyed
    obtain ⟨mid, hmid, h⟩ := Option.bind_eq_some_iff.mp h
    have hpairs := adds_addPairs d.pairs hlegible.pairs hkeyed.1 hmid
    have hsections := adds_sections hlegible.headers hkeyed.2 [] h
    have hown := (hpairs.trans hsections).own q hq
    rw [Document.visits, visited_append]
    simpa using hown.symm
  · cases h

end DepScope.Toml
