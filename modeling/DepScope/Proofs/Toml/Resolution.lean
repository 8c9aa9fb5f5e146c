import DepScope.Proofs.Toml.Traversal

/-!
# DepScope.Proofs.Toml.Resolution

The keys of a document and their paths, as the traversal of its syntax tree finds them.

1. In a tree of the grammar, tables and pairs have keys and keys have none of them inside, so nothing
   stands in the way: all of them are met (`Tree.ownerAt?_iff`).
2. A document has a tree of the grammar. Comments and escapes are left out of it, since nothing is
   met there. Below a table the numbers stay as they are (`Reports`), so they need to be followed
   from one table to the next only (`Counts`), and the keys met are those that `Document.visits`
   lists (`report_traverse`).
-/

namespace DepScope.Toml

open Text

/-! ## Trees of the grammar -/

namespace Tree

mutual

/-- Does this hold of every node of a tree? -/
def all (p : Tree → Bool) : Tree → Bool
  | mk kind span text cs => p (mk kind span text cs) && allIn p cs

/-- Does this hold of every node of these trees? -/
def allIn (p : Tree → Bool) : List Tree → Bool
  | [] => true
  | c :: cs => c.all p && allIn p cs

end

/-- Is there no table, element or pair? -/
def isOwnerless (t : Tree) : Bool :=
  t.all fun n => !n.kind.isOwner

/-- Does the tree keep to the grammar? Tables, elements and pairs have keys, and there are none of
them inside of keys. -/
def isGrammatical (t : Tree) : Bool :=
  t.all fun n => (!n.kind.isOwner || n.children.any (·.kind.isKey)) &&
    (!n.kind.isKey || n.isOwnerless)

variable {t n c : Tree} {cs ds : List Tree} {i : Nat} {q r : List Nat} {p : Tree → Bool}

theorem allIn_iff : allIn p cs = true ↔ ∀ c ∈ cs, c.all p = true := by
  induction cs with
  | nil => simp [allIn]
  | cons c cs ih => simp [allIn, ih]

theorem all_iff : t.all p = true ↔ p t = true ∧ ∀ c ∈ t.children, c.all p = true := by
  obtain ⟨kind, span, text, children⟩ := t
  rw [all, Bool.and_eq_true, allIn_iff]
  rfl

theorem isOwnerless_iff : t.isOwnerless = true ↔
    t.kind.isOwner = false ∧ ∀ c ∈ t.children, c.isOwnerless = true := by
  rw [isOwnerless, all_iff]
  simp [isOwnerless]

theorem isGrammatical_iff : t.isGrammatical = true ↔
    (t.kind.isOwner = true → ∃ c ∈ t.children, c.kind.isKey = true) ∧
      (t.kind.isKey = true → t.isOwnerless = true) ∧
      ∀ c ∈ t.children, c.isGrammatical = true := by
  rw [isGrammatical, all_iff]
  simp [isGrammatical, imp_iff_not_or, and_assoc]

/-- What holds of every node of a tree does so of every node inside of one that is in it. -/
theorem all_of_at? (h : t.all p = true) (hn : t.at? q = some n) : n.all p = true := by
  induction q generalizing t with
  | nil => cases hn; exact h
  | cons i q ih =>
    obtain ⟨c, hc, hn⟩ := Option.bind_eq_some_iff.mp hn
    exact ih ((all_iff.mp h).2 c (List.mem_of_getElem? hc)) hn

theorem isGrammatical_of_ownerless : (t : Tree) → t.isOwnerless = true → t.isGrammatical = true
  | mk kind span text cs, h => by
    obtain ⟨hkind, hchildren⟩ := isOwnerless_iff.mp h
    refine isGrammatical_iff.mpr ⟨fun howner => absurd howner ?_, fun _ => h,
      fun c (hc : c ∈ cs) => ?_⟩
    · simp [hkind]
    · exact isGrammatical_of_ownerless c (hchildren c hc)

/-- A table or pair of the grammar has a key, with none of them inside. -/
theorem exists_owner? (h : t.isGrammatical = true) (howner : t.kind.isOwner = true) :
    ∃ o, t.owner? = some o ∧ t.children[o.keyIndex]? = some o.key ∧
      o.key.isOwnerless = true := by
  obtain ⟨hkeyed, -, hchildren⟩ := isGrammatical_iff.mp h
  obtain ⟨k, hk⟩ := Option.isSome_iff_exists.mp
    (List.findIdx?_isSome.trans (List.any_eq_true.mpr (hkeyed howner)))
  obtain ⟨hlt, hkey, -⟩ := List.findIdx?_eq_some_iff_getElem.mp hk
  have hownerless := (isGrammatical_iff.mp (hchildren _ (List.getElem_mem hlt))).2.1 hkey
  refine ⟨⟨t.kind, k, t.children[k], if t.kind = .pair then lastBeside k t.children else none⟩, ?_,
    List.getElem?_eq_getElem hlt, hownerless⟩
  simp [owner?, howner, hk, List.getElem?_eq_getElem hlt]

theorem exists_of_ownerAt? {o : Owner} (h : t.ownerAt? q = some o) :
    ∃ n, t.at? q = some n ∧ n.owner? = some o := by
  induction q generalizing t with
  | nil => exact ⟨t, rfl, h⟩
  | cons i q ih =>
    rw [ownerAt?] at h
    split at h
    · obtain ⟨c, hc, ho⟩ := Option.bind_eq_some_iff.mp h
      obtain ⟨n, hn, ho⟩ := ih ho
      exact ⟨n, by rw [at?, hc]; exact hn, ho⟩
    · cases h

/-- **In a tree of the grammar every table, element and pair can be reached.** -/
theorem ownerAt?_iff {o : Owner} (h : t.isGrammatical = true) :
    t.ownerAt? q = some o ↔ ∃ n, t.at? q = some n ∧ n.owner? = some o := by
  refine ⟨exists_of_ownerAt?, ?_⟩
  rintro ⟨n, hn, ho⟩
  induction q generalizing t with
  | nil => cases hn; exact ho
  | cons i q ih =>
    obtain ⟨c, hc, hn⟩ := Option.bind_eq_some_iff.mp hn
    have henters : t.enters i = true := by
      cases howner : t.kind.isOwner with
      | false => simp [enters, howner]
      | true =>
        obtain ⟨around, haround, hkey, hownerless⟩ := exists_owner? h howner
        have hne : around.keyIndex ≠ i := by
          rintro rfl
          obtain rfl : c = around.key := Option.some.inj (hc.symm.trans hkey)
          simpa [isOwner_of_owner? ho] using (all_iff.mp (all_of_at? hownerless hn)).1
        simp [enters, haround, hne]
    rw [ownerAt?, if_pos henters, hc]
    exact ih ((isGrammatical_iff.mp h).2.2 c (List.mem_of_getElem? hc)) hn

end Tree

/-! ## The tree of a document -/

/-- One name of a key as a node. The places of single names are not kept, nor asked for. -/
def KeyPart.tree (span : Span) (p : KeyPart) : Tree :=
  .mk (if p.quoted then .quotedKey else .bareKey) span p.raw []

/-- Names with dots between them, the first ones innermost. -/
def dotted (span : Span) (first : Tree) (rest : List KeyPart) : Tree :=
  rest.foldl (fun t p => .mk .dottedKey span [] [t, p.tree span]) first

/-- A key as a node. -/
def Key.tree (k : Key) : Tree :=
  match k.parts with
  | [] => .mk .dottedKey k.span [] []
  | first :: rest => dotted k.span (first.tree k.span) rest

mutual

/-- A value as a node. -/
def Value.tree : Value → Tree
  | .string span raw => .mk .string span raw []
  | .scalar span _ raw => .mk .other span raw []
  | .array span items => .mk .other span [] (itemTrees items)
  | .inlineTable span pairs => .mk .other span [] (pairTrees pairs)

/-- The items of an array as nodes. -/
def itemTrees : List Value → List Tree
  | [] => []
  | v :: vs => v.tree :: itemTrees vs

/-- Pairs as nodes. -/
def pairTrees : List (Key × Value) → List Tree
  | [] => []
  | (k, v) :: rest => .mk .pair ⟨k.span.start, v.span.stop⟩ [] [k.tree, v.tree] :: pairTrees rest

end

/-- A table as a node. Its own place is never asked for; that of its header stands in. -/
def Section.tree (s : Section) : Tree :=
  .mk (if s.many then .element else .table) s.header.span [] (s.header.tree :: pairTrees s.pairs)

/-- A document as a syntax tree. -/
def Document.tree (d : Document) : Tree :=
  .mk .other ⟨0, 0⟩ [] (pairTrees d.pairs ++ d.sections.map Section.tree)

section Keys

variable {span : Span} {first : Tree}

theorem segments_partTree (span : Span) (p : KeyPart) :
    (p.tree span).segments = [.name p.name] := by
  obtain ⟨quoted, raw⟩ := p
  cases quoted <;> rfl

theorem isKey_partTree (span : Span) (p : KeyPart) : (p.tree span).kind.isKey = true := by
  obtain ⟨quoted, raw⟩ := p
  cases quoted <;> rfl

theorem isOwnerless_partTree (span : Span) (p : KeyPart) :
    (p.tree span).isOwnerless = true := by
  obtain ⟨quoted, raw⟩ := p
  cases quoted <;> rfl

theorem segments_dotted (hkey : first.kind.isKey = true) (rest : List KeyPart) :
    (dotted span first rest).segments =
      first.segments ++ rest.map fun p => Segment.name p.name := by
  induction rest generalizing first with
  | nil => exact (List.append_nil _).symm
  | cons p rest ih =>
    have hpair : (Tree.mk .dottedKey span [] [first, p.tree span]).segments =
        first.segments ++ [.name p.name] := by
      simp [Tree.segments, Tree.segmentsAll, hkey, isKey_partTree, segments_partTree]
    refine (ih rfl).trans ?_
    rw [hpair, List.append_assoc]
    rfl

theorem isKey_dotted (hkey : first.kind.isKey = true) (rest : List KeyPart) :
    (dotted span first rest).kind.isKey = true := by
  induction rest generalizing first with
  | nil => exact hkey
  | cons p rest ih => exact ih rfl

theorem isOwnerless_dotted (h : first.isOwnerless = true) (rest : List KeyPart) :
    (dotted span first rest).isOwnerless = true := by
  induction rest generalizing first with
  | nil => exact h
  | cons p rest ih =>
    refine ih (Tree.isOwnerless_iff.mpr ⟨rfl, ?_⟩)
    simp [Tree.children, h, isOwnerless_partTree]

theorem Key.segments_tree (k : Key) : k.tree.segments = k.segments := by
  obtain ⟨span, parts⟩ := k
  cases parts with
  | nil => rfl
  | cons first rest =>
    refine (segments_dotted (isKey_partTree span first) rest).trans ?_
    simp [segments_partTree, Key.segments, Key.names]

theorem Key.isKey_tree (k : Key) : k.tree.kind.isKey = true := by
  obtain ⟨span, parts⟩ := k
  cases parts with
  | nil => rfl
  | cons first rest => exact isKey_dotted (isKey_partTree span first) rest

theorem Key.isOwnerless_tree (k : Key) : k.tree.isOwnerless = true := by
  obtain ⟨span, parts⟩ := k
  cases parts with
  | nil => rfl
  | cons first rest => exact isOwnerless_dotted (isOwnerless_partTree span first) rest

theorem Key.span_tree (k : Key) : k.tree.span = k.span := by
  have hdotted (span : Span) (first : Tree) (rest : List KeyPart) (h : first.span = span) :
      (dotted span first rest).span = span := by
    induction rest generalizing first with
    | nil => exact h
    | cons p rest ih => exact ih _ rfl
  obtain ⟨span, parts⟩ := k
  cases parts with
  | nil => rfl
  | cons first rest => exact hdotted span _ rest rfl

end Keys

theorem Value.span_tree (v : Value) : v.tree.span = v.span := by
  cases v <;> rw [Value.tree] <;> rfl

theorem Value.string?_tree (v : Value) : v.tree.string? = v.text? := by
  cases v <;> rw [Value.tree] <;> rfl

theorem Value.isPlain_tree (v : Value) :
    v.tree.kind.isOwner = false ∧ v.tree.kind.isKey = false ∧ v.tree.kind ≠ .comment := by
  cases v <;> rw [Value.tree] <;> exact ⟨rfl, rfl, by simp [Tree.kind]⟩

theorem isGrammatical_other {span : Span} {text : List Char} {cs : List Tree}
    (h : ∀ c ∈ cs, c.isGrammatical = true) : (Tree.mk .other span text cs).isGrammatical = true :=
  Tree.isGrammatical_iff.mpr ⟨nofun, nofun, h⟩

/-- What has a key in front keeps to the grammar if all that comes behind does. -/
theorem isGrammatical_headed {kind : Kind} {span : Span} {text : List Char} {cs : List Tree}
    (hkind : kind.isKey = false) (k : Key) (h : ∀ c ∈ cs, c.isGrammatical = true) :
    (Tree.mk kind span text (k.tree :: cs)).isGrammatical = true := by
  refine Tree.isGrammatical_iff.mpr ⟨fun _ => ⟨k.tree, List.mem_cons_self, k.isKey_tree⟩,
    fun hkey => ?_, fun c hc => ?_⟩
  · exact absurd (hkind.symm.trans hkey) Bool.false_ne_true
  · obtain rfl | hc := List.mem_cons.mp hc
    · exact Tree.isGrammatical_of_ownerless _ k.isOwnerless_tree
    · exact h c hc

mutual

theorem Value.isGrammatical_tree : (v : Value) → v.tree.isGrammatical = true
  | .string .. | .scalar .. => rfl
  | .array _ items => by
    rw [Value.tree]
    exact isGrammatical_other (isGrammatical_itemTrees items)
  | .inlineTable _ pairs => by
    rw [Value.tree]
    exact isGrammatical_other (isGrammatical_pairTrees pairs)

theorem isGrammatical_itemTrees : (vs : List Value) → ∀ c ∈ itemTrees vs, c.isGrammatical = true
  | [] => by simp [itemTrees]
  | v :: vs => by
    rw [itemTrees]
    exact List.forall_mem_cons.mpr ⟨v.isGrammatical_tree, isGrammatical_itemTrees vs⟩

theorem isGrammatical_pairTrees : (ps : List (Key × Value)) →
    ∀ c ∈ pairTrees ps, c.isGrammatical = true
  | [] => by simp [pairTrees]
  | (k, v) :: ps => by
    rw [pairTrees]
    refine List.forall_mem_cons.mpr ⟨isGrammatical_headed rfl k ?_, isGrammatical_pairTrees ps⟩
    simpa using v.isGrammatical_tree

end

/-- The tree of a document keeps to the grammar. -/
theorem Document.isGrammatical_tree (d : Document) : d.tree.isGrammatical = true := by
  refine isGrammatical_other fun c hc => ?_
  obtain hc | hc := List.mem_append.mp hc
  · exact isGrammatical_pairTrees d.pairs c hc
  · obtain ⟨⟨many, header, pairs⟩, -, rfl⟩ := List.mem_map.mp hc
    refine isGrammatical_headed ?_ header (isGrammatical_pairTrees pairs)
    cases many <;> rfl

/-! ## What is met in the tree of a document -/

/-- What is told of a key: its path, whether it is a header, its place with that of its value, and the
value of a string. -/
def Visit.report (v : Visit) : List Segment × Bool × Span × Option String :=
  (v.path, v.isHeader, v.span, v.value.bind Value.text?)

/-- The place of a key, up to the end of its value. -/
def Owner.span (o : Owner) : Span :=
  ⟨o.key.span.start, match o.value with
    | some value => value.span.stop
    | none => o.key.span.stop⟩

/-- What is told of a key that is met in a syntax tree. -/
def Met.report (m : Met) : List Segment × Bool × Span × Option String :=
  (m.path, m.owner.kind ≠ .pair, m.owner.span, m.owner.value.bind Tree.string?)

/-- From one state of the traversal to another, these keys are met, and nothing else has changed. -/
structure Reports (s s' : Progress) (vs : List Visit) : Prop where
  path : s'.path = s.path
  counts : s'.counts = s.counts
  met : s'.met.map Met.report = s.met.map Met.report ++ vs.map Visit.report

namespace Reports

variable {s s' s'' : Progress} {vs ws : List Visit}

theorem refl (s : Progress) : Reports s s [] :=
  ⟨rfl, rfl, (List.append_nil _).symm⟩

theorem trans (h : Reports s s' vs) (h' : Reports s' s'' ws) : Reports s s'' (vs ++ ws) where
  path := h'.path.trans h.path
  counts := h'.counts.trans h.counts
  met := by rw [h'.met, h.met, List.map_append, List.append_assoc]

end Reports

theorem walkAll_append (a : List Nat) (skip : Option Nat) (i : Nat) (cs ds : List Tree)
    (s : Progress) : walkAll a skip i (cs ++ ds) s =
      walkAll a skip (i + cs.length) ds (walkAll a skip i cs s) := by
  induction cs generalizing i s with
  | nil => rw [walkAll]; rfl
  | cons c cs ih =>
    rw [List.cons_append, walkAll, walkAll, ih, List.length_cons, Nat.add_assoc, Nat.add_comm 1]

/-- Behind the one that is skipped, none is. -/
theorem walkAll_behind {k i : Nat} (h : k < i) (a : List Nat) (cs : List Tree) (s : Progress) :
    walkAll a (some k) i cs s = walkAll a none i cs s := by
  induction cs generalizing i s with
  | nil => rw [walkAll, walkAll]
  | cons c cs ih =>
    rw [walkAll, walkAll, if_neg (by simpa using Nat.ne_of_lt h), if_neg (by simp),
      ih (Nat.lt_succ_of_lt h)]

/-- The owner of a key that stands in front. -/
theorem owner?_headed (kind : Kind) {key : Tree} (hkind : kind.isOwner = true)
    (hkey : key.kind.isKey = true) (span : Span) (text : List Char) (cs : List Tree) :
    (Tree.mk kind span text (key :: cs)).owner? =
      some ⟨kind, 0, key, if kind = .pair then Tree.lastBeside 0 (key :: cs) else none⟩ := by
  have howner : (Tree.mk kind span text (key :: cs)).kind.isOwner = true := hkind
  have hchildren : (Tree.mk kind span text (key :: cs)).children = key :: cs := rfl
  have hfirst : (key :: cs).findIdx? (·.kind.isKey) = some 0 := by
    rw [List.findIdx?_cons, if_pos hkey]
  rw [Tree.owner?, if_pos howner, hchildren, hfirst]
  rfl

/-- A node with its key in front: all that comes behind is traversed. -/
theorem walk_headed (kind : Kind) {key : Tree} {value : Option Tree} {span : Span}
    {text : List Char} {cs : List Tree} (hkind : kind.isOwner = true)
    (ho : (Tree.mk kind span text (key :: cs)).owner? = some ⟨kind, 0, key, value⟩) (a : List Nat)
    (s : Progress) : walk a (.mk kind span text (key :: cs)) s =
      (walkAll a none 1 cs (s.enter a ⟨kind, 0, key, value⟩)).leave s.path.length := by
  rw [walk, if_pos hkind, ho]
  dsimp only
  rw [walkAll, if_pos rfl, walkAll_behind Nat.zero_lt_one]

/-- What a pair is. -/
def pairOwner (k : Key) (v : Value) : Owner :=
  ⟨.pair, 0, k.tree, some v.tree⟩

theorem walk_pair (k : Key) (v : Value) (span : Span) (text : List Char) (a : List Nat)
    (s : Progress) : walk a (.mk .pair span text [k.tree, v.tree]) s =
      (walk (a ++ [1]) v.tree (s.enter a (pairOwner k v))).leave s.path.length := by
  have hvalue : Tree.lastBeside 0 [k.tree, v.tree] = some v.tree := by
    simp [Tree.lastBeside, v.isPlain_tree.2.2]
  have ho := owner?_headed .pair rfl k.isKey_tree span text [v.tree]
  rw [if_pos rfl, hvalue] at ho
  rw [walk_headed .pair rfl ho, walkAll, if_neg nofun, walkAll]
  rfl

theorem path_enter_pair (s : Progress) (a : List Nat) (k : Key) (v : Value) :
    (s.enter a (pairOwner k v)).path = s.path ++ k.segments := by
  rw [← k.segments_tree]
  rfl

/-- What a table is, or an element of an array of tables. -/
def Section.owner (s : Section) : Owner :=
  ⟨if s.many then .element else .table, 0, s.header.tree, none⟩

theorem walk_section (sec : Section) (a : List Nat) (s : Progress) : walk a sec.tree s =
    (walkAll a none 1 (pairTrees sec.pairs) (s.enter a sec.owner)).leave s.path.length := by
  obtain ⟨_ | _, header, pairs⟩ := sec
  · exact walk_headed .table rfl (owner?_headed .table rfl header.isKey_tree ..) a s
  · exact walk_headed .element rfl (owner?_headed .element rfl header.isKey_tree ..) a s

namespace Reports

variable {s s' : Progress} {vs : List Visit}

/-- A pair, with what is inside of its value. -/
theorem pair {a : List Nat} {k : Key} {v : Value} (h : Reports (s.enter a (pairOwner k v)) s' vs) :
    Reports s (s'.leave s.path.length) (⟨s.path ++ k.segments, k, some v⟩ :: vs) where
  path := by
    rw [Progress.leave, h.path]
    exact List.take_left
  counts := h.counts
  met := by
    refine h.met.trans ?_
    simp [Progress.enter, pairOwner, Met.report, Visit.report, Owner.span, Visit.isHeader,
      Visit.span, k.segments_tree, k.span_tree, v.span_tree, v.string?_tree]

end Reports

mutual

theorem reports_value (a : List Nat) : (v : Value) → (s : Progress) →
    Reports s (walk a v.tree s) (visitValue s.path v)
  | .string .., s | .scalar .., s => by
    rw [Value.tree, walk, if_neg nofun, walkAll, visitValue]
    exact .refl s
  | .array _ items, s => by
    rw [Value.tree, walk, if_neg nofun, visitValue]
    exact reports_items a 0 items s
  | .inlineTable _ pairs, s => by
    rw [Value.tree, walk, if_neg nofun, visitValue]
    exact reports_pairs a 0 pairs s

theorem reports_items (a : List Nat) (i : Nat) : (vs : List Value) → (s : Progress) →
    Reports s (walkAll a none i (itemTrees vs) s) (visitItems s.path vs)
  | [], s => by
    rw [itemTrees, walkAll, visitItems]
    exact .refl s
  | v :: vs, s => by
    rw [itemTrees, walkAll, if_neg nofun, visitItems]
    have hv := reports_value (a ++ [i]) v s
    have hvs := reports_items a (i + 1) vs (walk (a ++ [i]) v.tree s)
    rw [hv.path] at hvs
    exact hv.trans hvs

theorem reports_pairs (a : List Nat) (i : Nat) : (ps : List (Key × Value)) → (s : Progress) →
    Reports s (walkAll a none i (pairTrees ps) s) (visitPairs s.path ps)
  | [], s => by
    rw [pairTrees, walkAll, visitPairs]
    exact .refl s
  | (k, v) :: ps, s => by
    rw [pairTrees, walkAll, if_neg nofun, walk_pair, visitPairs]
    have hv := (reports_value (a ++ [i] ++ [1]) v (s.enter (a ++ [i]) (pairOwner k v))).pair
    have hps := reports_pairs a (i + 1) ps
      ((walk (a ++ [i] ++ [1]) v.tree (s.enter (a ++ [i]) (pairOwner k v))).leave s.path.length)
    rw [path_enter_pair] at hv
    rw [hv.path] at hps
    exact hv.trans hps

end

/-- The steps that a table or element starts the paths inside of it with, given the headers of the
elements before. -/
def Section.path (earlier : List (List Segment)) (sec : Section) : List Segment :=
  if sec.many then sec.header.segments ++ [.index (earlier.count sec.header.segments)]
  else sec.header.segments

/-- The headers of the elements before what comes next. -/
def Section.headers (earlier : List (List Segment)) (sec : Section) : List (List Segment) :=
  if sec.many then sec.header.segments :: earlier else earlier

/-- A table of numbers that says how many elements there have been with each header. -/
def Counts (s : Progress) (earlier : List (List Segment)) : Prop :=
  ∀ header, (Keyed.get? header s.counts).getD 0 = earlier.count header

/-- A table or element on the way in. -/
theorem enter_section (sec : Section) (a : List Nat) {s : Progress}
    {earlier : List (List Segment)} (hpath : s.path = []) (hcounts : Counts s earlier) :
    (s.enter a sec.owner).path = sec.path earlier ∧
      Counts (s.enter a sec.owner) (sec.headers earlier) ∧
      (s.enter a sec.owner).met.map Met.report =
        s.met.map Met.report ++ [Visit.report ⟨sec.path earlier, sec.header, none⟩] := by
  have hreport (path : List Segment) :
      Met.report ⟨a, sec.owner, path⟩ = Visit.report ⟨path, sec.header, none⟩ := by
    cases hmany : sec.many <;>
      simp [Met.report, Visit.report, Section.owner, Owner.span, Visit.isHeader, Visit.span, hmany,
        sec.header.span_tree]
  cases hmany : sec.many with
  | false =>
    have henter : s.enter a sec.owner = ⟨sec.path earlier, s.counts,
        s.met ++ [⟨a, sec.owner, sec.path earlier⟩]⟩ := by
      simp [Progress.enter, Section.owner, Section.path, hmany, hpath, sec.header.segments_tree]
    rw [henter, Section.headers, hmany]
    exact ⟨rfl, hcounts, by simp [hreport]⟩
  | true =>
    have henter : s.enter a sec.owner = ⟨sec.path earlier,
        Keyed.put sec.header.segments (earlier.count sec.header.segments + 1) s.counts,
        s.met ++ [⟨a, sec.owner, sec.path earlier⟩]⟩ := by
      simp [Progress.enter, Section.owner, Section.path, hmany, hpath, sec.header.segments_tree,
        hcounts _]
    rw [henter]
    refine ⟨rfl, fun header => ?_, by simp [hreport]⟩
    rw [Section.headers, if_pos hmany, Keyed.get?_put, List.count_cons, ← hcounts header]
    by_cases heq : sec.header.segments = header
    · simp [heq, hcounts _]
    · simp [heq]

/-- The sections of a document, from where the path is empty. -/
theorem report_sections (ss : List Section) {earlier : List (List Segment)} {s : Progress}
    (hpath : s.path = []) (hcounts : Counts s earlier) (i : Nat) :
    (walkAll [] none i (ss.map Section.tree) s).met.map Met.report =
      s.met.map Met.report ++ (visitSections earlier ss).map Visit.report := by
  induction ss generalizing earlier s i with
  | nil => simp [walkAll, visitSections]
  | cons sec ss ih =>
    obtain ⟨hpath', hcounts', hmet⟩ := enter_section sec ([] ++ [i]) hpath hcounts
    have hpairs := reports_pairs ([] ++ [i]) 1 sec.pairs (s.enter ([] ++ [i]) sec.owner)
    have hvisits : visitSections earlier (sec :: ss) =
        ⟨sec.path earlier, sec.header, none⟩ :: visitPairs (sec.path earlier) sec.pairs ++
          visitSections (sec.headers earlier) ss := rfl
    rw [List.map_cons, walkAll, if_neg nofun, walk_section, hvisits, hpath]
    have hrest : Counts ((walkAll ([] ++ [i]) none 1 (pairTrees sec.pairs)
        (s.enter ([] ++ [i]) sec.owner)).leave 0) (sec.headers earlier) := fun header => by
      rw [Progress.leave, hpairs.counts]
      exact hcounts' header
    refine (ih rfl hrest (i + 1)).trans ?_
    rw [Progress.leave, hpairs.met, hmet, hpath']
    simp

/-- **The keys met in the tree of a document are those of `Document.visits`.** -/
theorem report_traverse (d : Document) :
    (traverse d.tree).map Met.report = d.visits.map Visit.report := by
  have hpairs := reports_pairs [] 0 d.pairs ⟨[], [], []⟩
  rw [traverse, Document.tree, walk, if_neg nofun, walkAll_append, Document.visits, List.map_append]
  have hcounts : Counts (walkAll [] none 0 (pairTrees d.pairs) ⟨[], [], []⟩) [] := fun header => by
    rw [hpairs.counts]
    rfl
  refine (report_sections d.sections hpairs.path hcounts _).trans ?_
  rw [hpairs.met]
  rfl

/-! ## Main result -/

/-- The keys met in a syntax tree, with their paths. -/
structure Resolves (root : Tree) (ms : List Met) : Prop where
  /-- They are met in the order of the document, each once. -/
  ordered : (ms.map Met.address).Pairwise (· < ·)
  /-- All that can be reached are met. -/
  complete : ∀ a o, (∃ m ∈ ms, m.address = a ∧ m.owner = o) ↔ root.ownerAt? a = some o
  /-- A path is what all that is around the key contributes, from the outside in, and then the key
  itself. -/
  path : ∀ m ∈ ms, m.path = (ms.filter fun e => e.address <+: m.address).flatMap Met.own
  /-- The number of an element is how many of the same array came before. -/
  numbers : ElementsNumbered ms

theorem resolves_traverse (root : Tree) : Resolves root (traverse root) := by
  obtain ⟨-, es, hmet, hfound⟩ := walk_spec [] root ⟨[], [], []⟩
  have hmet : traverse root = es := hmet
  refine ⟨hmet ▸ hfound.ordered, fun a o => ?_, hmet ▸ hfound.path, ?_⟩
  · rw [hmet, hfound.complete]
    simp [OwnersAt]
  · exact (Numbered.start.walk [] root).numbers

/-- **The traversal resolves the paths of all keys**, in every syntax tree. In a tree of the grammar
it misses none, after every subtree the path is what it was, and on the tree of a document it meets
what `Document.visits` lists. -/
theorem traversal_resolves_paths :
    (∀ root, Resolves root (traverse root)) ∧
      (∀ root : Tree, root.isGrammatical = true → ∀ a o,
        root.ownerAt? a = some o ↔ ∃ n, root.at? a = some n ∧ n.owner? = some o) ∧
      (∀ a t s, (walk a t s).path = s.path) ∧
      ∀ d : Document, d.tree.isGrammatical = true ∧
        (traverse d.tree).map Met.report = d.visits.map Visit.report :=
  ⟨resolves_traverse, fun _ h _ _ => Tree.ownerAt?_iff h, fun a t s => (walk_spec a t s).1,
    fun d => ⟨d.isGrammatical_tree, report_traverse d⟩⟩

/-- Two elements of one array, named once with quotes and once without, with a comment before and a
pair inside of a pair. -/
def twoElements : Tree :=
  .mk .other ⟨0, 0⟩ []
    [.mk .comment ⟨0, 0⟩ "# first".toList [],
      .mk .element ⟨0, 0⟩ []
        [.mk .dottedKey ⟨0, 0⟩ []
            [.mk .bareKey ⟨0, 0⟩ ['a'] [], .mk .quotedKey ⟨0, 0⟩ "\"b\"".toList []],
          .mk .pair ⟨0, 0⟩ []
            [.mk .bareKey ⟨0, 0⟩ ['c'] [],
              .mk .other ⟨0, 0⟩ []
                [.mk .pair ⟨0, 0⟩ []
                  [.mk .bareKey ⟨0, 0⟩ ['d'] [], .mk .other ⟨0, 0⟩ "1".toList []]]]],
      .mk .element ⟨0, 0⟩ []
        [.mk .dottedKey ⟨0, 0⟩ []
            [.mk .bareKey ⟨0, 0⟩ ['a'] [], .mk .bareKey ⟨0, 0⟩ ['b'] []]]]

theorem traversal_resolves_paths_of_twoElements :
    twoElements.isGrammatical = true ∧
      (∀ a o, twoElements.ownerAt? a = some o ↔
        ∃ n, twoElements.at? a = some n ∧ n.owner? = some o) ∧
      (traverse twoElements).map (fun m => (m.address, m.path)) =
        [([1], [.name "a", .name "b", .index 0]),
          ([1, 1], [.name "a", .name "b", .index 0, .name "c"]),
          ([1, 1, 1, 0], [.name "a", .name "b", .index 0, .name "c", .name "d"]),
          ([2], [.name "a", .name "b", .index 1])] := by
  have h : twoElements.isGrammatical = true := by decide +kernel
  exact ⟨h, traversal_resolves_paths.2.1 twoElements h, by decide +kernel⟩

end DepScope.Toml
