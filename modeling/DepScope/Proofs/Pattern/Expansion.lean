import DepScope.Pattern.Braces
import Mathlib.Data.List.Basic
import Mathlib.Data.List.Count

/-!
# DepScope.Proofs.Pattern.Expansion

The texts that a pattern stands for, and what they keep of its syntax.

1. A pattern is read character by character, an escape counting as one, up to a backslash at the end
   that escapes nothing (`Whole`).
2. Commas and braces inside of closed groups are used up. What is left outside of them is the same in
   all texts of the pattern (`specials_of_mem_expand`): closing braces that found no group, then the
   opening braces of groups that never close (`Reading.Even.outline_finish`).
3. A text in which no opening brace comes before a closing one has no groups, so each text of a pattern
   stands for itself (`expand_of_mem_expand`).
-/

namespace DepScope.Pattern

/-! ## Characters and escapes -/

/-- Does a character belong to the syntax of alternatives? -/
def isSpecial (c : Char) : Bool :=
  c = '\x7b' || c = ',' || c = '\x7d'

/-- The braces and commas of a text that are not escaped, in their order. -/
def specials : List Char → List Char
  | [] => []
  | '\\' :: _ :: cs => specials cs
  | c :: cs => if isSpecial c then c :: specials cs else specials cs

/-- A text that does not end in a backslash with nothing to escape. -/
inductive Whole : List Char → Prop
  | nil : Whole []
  | escape (c : Char) {cs : List Char} (h : Whole cs) : Whole ('\\' :: c :: cs)
  | char {c : Char} {cs : List Char} (hc : c ≠ '\\') (h : Whole cs) : Whole (c :: cs)

instance decidableWhole : (cs : List Char) → Decidable (Whole cs)
  | [] => isTrue .nil
  | [c] =>
    if hc : c = '\\' then isFalse fun h => by cases h with | char hne => exact hne hc
    else isTrue (.char hc .nil)
  | c :: d :: cs =>
    if hc : c = '\\' then
      match decidableWhole cs with
      | isTrue h => isTrue (hc ▸ .escape d h)
      | isFalse h => isFalse fun hw => by
        cases hw with
        | escape _ hw => exact h hw
        | char hne => exact hne hc
    else
      match decidableWhole (d :: cs) with
      | isTrue h => isTrue (.char hc h)
      | isFalse h => isFalse fun hw => by
        cases hw with
        | escape => exact hc rfl
        | char _ hw => exact h hw

variable {a b cs p e t : List Char} {c : Char} {r : Reading}

theorem specials_cons (hc : c ≠ '\\') :
    specials (c :: cs) = if isSpecial c then c :: specials cs else specials cs := by
  cases cs <;> simp [specials, hc]

theorem specials_append (ha : Whole a) (b : List Char) :
    specials (a ++ b) = specials a ++ specials b := by
  induction ha with
  | nil => rfl
  | escape c _ ih => simpa [specials] using ih
  | char hc _ ih =>
    rw [List.cons_append, specials_cons hc, specials_cons hc, ih]
    split <;> rfl

theorem Whole.append (ha : Whole a) (hb : Whole b) : Whole (a ++ b) := by
  induction ha with
  | nil => exact hb
  | escape c _ ih => exact .escape c ih
  | char hc _ ih => exact .char hc ih

/-- A lone backslash at the end of a text has nothing to escape. -/
theorem Whole.not_whole_concat (ha : Whole a) : ¬Whole (a ++ ['\\']) := by
  induction ha with
  | nil => decide
  | escape c _ ih =>
    rw [List.cons_append, List.cons_append]
    intro h
    cases h with
    | escape _ h => exact ih h
    | char hc _ => exact hc rfl
  | char hc _ ih =>
    rw [List.cons_append]
    generalize _ ++ ['\\'] = rest at ih ⊢
    intro h
    cases h with
    | escape => exact hc rfl
    | char _ h => exact ih h

/-- A text that is not whole is one with a backslash behind it. -/
theorem exists_of_not_whole : (cs : List Char) → ¬Whole cs → ∃ a, Whole a ∧ cs = a ++ ['\\']
  | [], h => absurd .nil h
  | [c], h => by
    by_cases hc : c = '\\'
    · exact ⟨[], .nil, by rw [hc]; rfl⟩
    · exact absurd (.char hc .nil) h
  | c :: d :: cs, h => by
    by_cases hc : c = '\\'
    · subst hc
      obtain ⟨a, ha, rfl⟩ := exists_of_not_whole cs fun hw => h (.escape d hw)
      exact ⟨'\\' :: d :: a, .escape d ha, rfl⟩
    · obtain ⟨a, ha, heq⟩ := exists_of_not_whole (d :: cs) fun hw => h (.char hc hw)
      exact ⟨c :: a, .char hc ha, by rw [heq]; rfl⟩

/-- A text that ends in another character than a backslash is whole. -/
theorem whole_concat (hc : c ≠ '\\') (cs : List Char) : Whole (cs ++ [c]) := by
  by_cases h : Whole (cs ++ [c])
  · exact h
  · obtain ⟨a, -, heq⟩ := exists_of_not_whole _ h
    exact absurd (List.append_inj_right' heq rfl) (by simpa using hc)

/-! ## Reading -/

namespace Reading

/-- Reads a character that is not a backslash. -/
def take (r : Reading) (c : Char) : Reading :=
  if c = '\x7b' then r.openGroup
  else if c = ',' then r.comma
  else if c = '\x7d' then r.closeGroup
  else r.push (.text [c])

theorem run_cons (hc : c ≠ '\\') (r : Reading) (cs : List Char) :
    r.run (c :: cs) = (r.take c).run cs := by
  rw [run]
  · unfold take
    split
    · rfl
    · split
      · rfl
      · split <;> rfl
  · intro d ds heq
    exact absurd heq hc

theorem run_append (ha : Whole a) (r : Reading) (b : List Char) :
    r.run (a ++ b) = (r.run a).run b := by
  induction ha generalizing r with
  | nil => rfl
  | escape c _ ih => exact ih _
  | char hc _ ih => rw [List.cons_append, run_cons hc, run_cons hc, ih]

end Reading

theorem joinAlternatives_concat_append (as : List (List Piece)) (ps qs : List Piece) :
    joinAlternatives (as ++ [ps ++ qs]) = joinAlternatives (as ++ [ps]) ++ qs := by
  induction as with
  | nil => rfl
  | cons a as ih => cases as <;> simp_all [joinAlternatives]

theorem joinAlternatives_concat_nil (as : List (List Piece)) (ps : List Piece) :
    joinAlternatives (as ++ [ps] ++ [[]]) = joinAlternatives (as ++ [ps]) ++ [.text [',']] := by
  induction as with
  | nil => simp [joinAlternatives]
  | cons a as ih => cases as <;> simp_all [joinAlternatives]

theorem Group.alternatives_eq (g : Group) : g.alternatives = g.done.reverse ++ [g.current.reverse] :=
  List.reverse_cons

namespace Reading

/-- If the pattern ended here, a further piece would stand at its end. -/
theorem finish_push (r : Reading) (p : Piece) : (r.push p).finish = r.finish ++ [p] := by
  obtain ⟨outer, groups⟩ := r
  cases groups with
  | nil => simp [push, finish]
  | cons g gs =>
    simp [push, finish, Group.unclosed, Group.alternatives_eq, Group.push,
      joinAlternatives_concat_append]

theorem finish_openGroup (r : Reading) :
    r.openGroup.finish = r.finish ++ [.text ['\x7b']] := by
  simp [openGroup, finish, Group.unclosed, Group.alternatives_eq, joinAlternatives]

theorem finish_comma (r : Reading) : r.comma.finish = r.finish ++ [.text [',']] := by
  obtain ⟨outer, groups⟩ := r
  cases groups with
  | nil => exact finish_push _ _
  | cons g gs =>
    have hjoin := joinAlternatives_concat_nil g.done.reverse g.current.reverse
    simp [comma, finish, Group.unclosed, Group.alternatives_eq, Group.next] at hjoin ⊢
    exact hjoin

end Reading

/-! ## What is left outside of closed groups -/

theorem expandAll_append (ps qs : List Piece) :
    expandAll (ps ++ qs) = (expandAll ps).flatMap fun x => (expandAll qs).map (x ++ ·) := by
  induction ps with
  | nil => simp [expandAll]
  | cons p ps ih =>
    simp only [List.cons_append, expandAll, ih, List.flatMap_assoc, List.flatMap_map, List.map_flatMap,
      List.map_map]
    simp [Function.comp_def]

theorem expandEach_append (as bs : List (List Piece)) :
    expandEach (as ++ bs) = expandEach as ++ expandEach bs := by
  induction as with
  | nil => rfl
  | cons a as ih => simp [expandEach, ih]

theorem expandAll_texts (ts : List (List Char)) : expandAll (ts.map .text) = [ts.flatten] := by
  induction ts with
  | nil => rfl
  | cons t ts ih => simp [expandAll, Piece.expand, ih]

/-- The commas and braces of a piece that are text. -/
def Piece.outline : Piece → List Char
  | .text cs => specials cs
  | .choice _ => []

/-- All texts that a piece stands for are whole and have the same commas and braces. -/
structure Piece.Even (p : Piece) : Prop where
  ne_nil : p.expand ≠ []
  whole : ∀ t ∈ p.expand, Whole t
  specials : ∀ t ∈ p.expand, specials t = p.outline

theorem Piece.even_text (h : Whole t) : (Piece.text t).Even where
  ne_nil := by simp [Piece.expand]
  whole := by simpa [Piece.expand] using h
  specials := by simp [Piece.expand, Piece.outline]

/-- Even pieces in a row stand for texts with the same commas and braces. -/
theorem even_expandAll {ps : List Piece} (h : ∀ p ∈ ps, p.Even) :
    expandAll ps ≠ [] ∧
      ∀ t ∈ expandAll ps, Whole t ∧ specials t = ps.flatMap Piece.outline := by
  induction ps with
  | nil => simp [expandAll, Whole.nil, specials]
  | cons p ps ih =>
    obtain ⟨hp, hps⟩ := List.forall_mem_cons.mp h
    obtain ⟨hne, hall⟩ := ih hps
    refine ⟨?_, fun t ht => ?_⟩
    · obtain ⟨x, hx⟩ := List.exists_mem_of_ne_nil _ hp.ne_nil
      obtain ⟨y, hy⟩ := List.exists_mem_of_ne_nil _ hne
      refine List.ne_nil_of_mem (a := x ++ y) ?_
      simp only [expandAll, List.mem_flatMap, List.mem_map]
      exact ⟨x, hx, y, hy, rfl⟩
    · simp only [expandAll, List.mem_flatMap, List.mem_map] at ht
      obtain ⟨x, hx, y, hy, rfl⟩ := ht
      obtain ⟨hwhole, hspecials⟩ := hall y hy
      refine ⟨(hp.whole x hx).append hwhole, ?_⟩
      rw [specials_append (hp.whole x hx), hp.specials x hx, hspecials, List.flatMap_cons]

/-- Alternatives without commas and braces make an even choice. -/
theorem even_choice {as : List (List Piece)} (hne : as ≠ [])
    (h : ∀ ps ∈ as, ∀ p ∈ ps, p.Even ∧ p.outline = []) : (Piece.choice as).Even := by
  have hmem {t} : t ∈ (Piece.choice as).expand ↔ ∃ ps ∈ as, t ∈ expandAll ps := by
    rw [Piece.expand]
    clear hne h
    induction as with
    | nil => simp [expandEach]
    | cons a as ih => simp [expandEach, ih]
  have hplain {ps} (hps : ps ∈ as) : ps.flatMap Piece.outline = [] :=
    List.flatMap_eq_nil_iff.mpr fun p hp => (h ps hps p hp).2
  refine ⟨?_, fun t ht => ?_, fun t ht => ?_⟩
  · obtain ⟨ps, hps⟩ := List.exists_mem_of_ne_nil _ hne
    obtain ⟨t, ht⟩ := List.exists_mem_of_ne_nil _ (even_expandAll fun p hp => (h ps hps p hp).1).1
    exact List.ne_nil_of_mem (hmem.mpr ⟨ps, hps, ht⟩)
  · obtain ⟨ps, hps, ht⟩ := hmem.mp ht
    exact ((even_expandAll fun p hp => (h ps hps p hp).1).2 t ht).1
  · obtain ⟨ps, hps, ht⟩ := hmem.mp ht
    rw [((even_expandAll fun p hp => (h ps hps p hp).1).2 t ht).2, hplain hps]
    rfl

/-- A reading whose pieces are even: outside of groups no opening brace is text, and inside of groups
nothing of the syntax is. -/
structure Reading.Even (r : Reading) : Prop where
  outer : ∀ p ∈ r.outer, p.Even ∧ '\x7b' ∉ p.outline
  inner : ∀ g ∈ r.groups, ∀ ps ∈ g.alternatives, ∀ p ∈ ps, p.Even ∧ p.outline = []

namespace Reading.Even

/-- A piece may be added where the reading stands if it is even and plain; outside of groups it may
have commas and closing braces as well. -/
theorem push {p : Piece} (h : r.Even) (hp : p.Even)
    (hout : p.outline = [] ∨ r.groups = [] ∧ '\x7b' ∉ p.outline) : (r.push p).Even := by
  obtain ⟨outer, groups⟩ := r
  cases groups with
  | nil =>
    refine ⟨List.forall_mem_cons.mpr ⟨⟨hp, ?_⟩, h.outer⟩, by simp [Reading.push]⟩
    obtain hnil | ⟨-, hout⟩ := hout
    · simp [hnil]
    · exact hout
  | cons g gs =>
    have hnil : p.outline = [] := by simpa using hout
    obtain ⟨hg, hgs⟩ := List.forall_mem_cons.mp h.inner
    refine ⟨h.outer, List.forall_mem_cons.mpr ⟨?_, hgs⟩⟩
    simp only [Group.alternatives_eq, Group.push, List.reverse_cons, List.mem_append,
      List.mem_singleton] at hg ⊢
    rintro ps (hps | rfl) q hq
    · exact hg ps (.inl hps) q hq
    · obtain hq | hq := List.mem_append.mp hq
      · exact hg _ (.inr rfl) q hq
      · obtain rfl := List.mem_singleton.mp hq
        exact ⟨hp, hnil⟩

theorem take (h : r.Even) (hc : c ≠ '\\') : (r.take c).Even := by
  have hwhole (c : Char) (hc : c ≠ '\\') : Whole [c] := .char hc .nil
  obtain ⟨outer, groups⟩ := r
  unfold Reading.take
  split
  · refine ⟨h.outer, List.forall_mem_cons.mpr ⟨?_, h.inner⟩⟩
    simp [Group.alternatives_eq]
  · split
    · cases groups with
      | nil => exact h.push (Piece.even_text (hwhole ',' (by decide))) (.inr ⟨rfl, by decide⟩)
      | cons g gs =>
        obtain ⟨hg, hgs⟩ := List.forall_mem_cons.mp h.inner
        refine ⟨h.outer, List.forall_mem_cons.mpr ⟨?_, hgs⟩⟩
        simp only [Group.alternatives_eq, Group.next, List.reverse_cons, List.reverse_nil,
          List.mem_append, List.mem_singleton] at hg ⊢
        rintro ps (hps | rfl) q hq
        · exact hg ps hps q hq
        · cases hq
    · split
      · cases groups with
        | nil => exact h.push (Piece.even_text (hwhole '\x7d' (by decide))) (.inr ⟨rfl, by decide⟩)
        | cons g gs =>
          obtain ⟨hg, hgs⟩ := List.forall_mem_cons.mp h.inner
          have hrest : (Reading.mk outer gs).Even := ⟨h.outer, hgs⟩
          exact hrest.push (even_choice (by simp [Group.alternatives_eq]) hg) (.inl rfl)
      · next h₁ h₂ h₃ =>
        refine h.push (Piece.even_text (hwhole c hc)) (.inl ?_)
        simp [Piece.outline, specials_cons hc, isSpecial, h₁, h₂, h₃, specials]

theorem run (h : r.Even) (hcs : Whole cs) : (r.run cs).Even := by
  induction hcs generalizing r with
  | nil => exact h
  | escape c _ ih => exact ih (h.push (Piece.even_text (.escape c .nil)) (.inl rfl))
  | char hc _ ih =>
    rw [Reading.run_cons hc]
    exact ih (h.take hc)

end Reading.Even

theorem even_start : (Reading.mk [] []).Even :=
  ⟨by simp, by simp⟩

/-- No opening brace comes before a closing one. -/
def Spent (s : List Char) : Prop :=
  ∃ a b, s = a ++ b ∧ '\x7b' ∉ a ∧ '\x7d' ∉ b

theorem Spent.tail {s : List Char} (h : Spent (c :: s)) : Spent s := by
  obtain ⟨a, b, heq, ha, hb⟩ := h
  cases a with
  | nil =>
    obtain rfl : b = c :: s := heq.symm
    exact ⟨[], s, rfl, by simp, fun h => hb (List.mem_cons_of_mem c h)⟩
  | cons x a =>
    obtain ⟨-, rfl⟩ := List.cons.inj heq
    exact ⟨a, b, rfl, fun h => ha (List.mem_cons_of_mem x h), hb⟩

theorem Spent.closing_notMem {s : List Char} (h : Spent ('\x7b' :: s)) : '\x7d' ∉ s := by
  obtain ⟨a, b, heq, ha, hb⟩ := h
  cases a with
  | nil =>
    obtain rfl : b = '\x7b' :: s := heq.symm
    exact fun h => hb (List.mem_cons_of_mem _ h)
  | cons x a =>
    obtain ⟨rfl, -⟩ := List.cons.inj heq
    exact absurd (List.mem_cons_self ..) ha

/-- How many closing braces have found no group, and how many groups are open. -/
def Reading.tally (r : Reading) : Nat × Nat :=
  ((r.outer.flatMap Piece.outline).count '\x7d', r.groups.length)

theorem outline_joinAlternatives {as : List (List Piece)} {ps : List Piece}
    (h : ∀ qs ∈ as ++ [ps], ∀ q ∈ qs, q.outline = []) :
    (joinAlternatives (as ++ [ps])).flatMap Piece.outline = List.replicate as.length ',' := by
  induction as with
  | nil => simpa [joinAlternatives] using h
  | cons a as ih =>
    obtain ⟨ha, has⟩ := List.forall_mem_cons.mp h
    have hcons : joinAlternatives (a :: as ++ [ps]) =
        a ++ .text [','] :: joinAlternatives (as ++ [ps]) := by
      cases as <;> rfl
    rw [hcons, List.flatMap_append, List.flatMap_cons, List.flatMap_eq_nil_iff.mpr ha, ih has]
    rfl

namespace Reading.Even

theorem outline_unclosed (h : r.Even) {g : Group} (hg : g ∈ r.groups) :
    g.unclosed.flatMap Piece.outline = '\x7b' :: List.replicate g.done.length ',' := by
  have hplain := fun ps hps p hp => (h.inner g hg ps hps p hp).2
  rw [Group.alternatives_eq] at hplain
  rw [Group.unclosed, Group.alternatives_eq, List.flatMap_cons, outline_joinAlternatives hplain,
    List.length_reverse]
  rfl

theorem finish (h : r.Even) : ∀ p ∈ r.finish, p.Even := by
  have hjoin {as : List (List Piece)} (has : ∀ ps ∈ as, ∀ p ∈ ps, p.Even) :
      ∀ p ∈ joinAlternatives as, p.Even := by
    fun_induction joinAlternatives as with
    | case1 => simp
    | case2 a => exact has a (by simp)
    | case3 a as _ ih =>
      obtain ⟨ha, has⟩ := List.forall_mem_cons.mp has
      exact List.forall_mem_append.mpr ⟨ha, List.forall_mem_cons.mpr
        ⟨Piece.even_text (.char (by decide) .nil), ih has⟩⟩
  intro p hp
  obtain hp | hp := List.mem_append.mp hp
  · exact (h.outer p (List.mem_reverse.mp hp)).1
  · obtain ⟨g, hg, hp⟩ := List.mem_flatMap.mp hp
    obtain rfl | hp := List.mem_cons.mp hp
    · exact Piece.even_text (.char (by decide) .nil)
    · exact hjoin (fun ps hps q hq => (h.inner g (List.mem_reverse.mp hg) ps hps q hq).1) p hp

/-- If the pattern ended here, what is left of its syntax would be the closing braces that have found
no group, then the opening braces of the groups that are open, and commas. -/
theorem outline_finish (h : r.Even) :
    Spent (r.finish.flatMap Piece.outline) ∧
      (r.finish.flatMap Piece.outline).count '\x7d' = r.tally.1 ∧
      (r.finish.flatMap Piece.outline).count '\x7b' = r.tally.2 := by
  have houter : '\x7b' ∉ r.outer.reverse.flatMap Piece.outline := by
    simp only [List.mem_flatMap, List.mem_reverse, not_exists, not_and]
    exact fun p hp => (h.outer p hp).2
  have hgroups : (r.groups.reverse.flatMap Group.unclosed).flatMap Piece.outline =
      r.groups.reverse.flatMap fun g => '\x7b' :: List.replicate g.done.length ',' := by
    rw [List.flatMap_assoc]
    exact List.flatMap_congr fun g hg => h.outline_unclosed (List.mem_reverse.mp hg)
  have hclosing : '\x7d' ∉ r.groups.reverse.flatMap
      fun g => '\x7b' :: List.replicate g.done.length ',' := by
    simp [List.mem_replicate]
  have hopening : (r.groups.reverse.flatMap
      fun g => '\x7b' :: List.replicate g.done.length ',').count '\x7b' = r.groups.length := by
    rw [List.count_flatMap]
    simp [Function.comp_def, List.count_replicate, List.map_const']
  rw [Reading.finish, List.flatMap_append, hgroups]
  refine ⟨⟨_, _, rfl, houter, hclosing⟩, ?_, ?_⟩
  · rw [List.count_append, List.count_eq_zero.mpr hclosing, Nat.add_zero]
    exact ((List.reverse_perm r.outer).flatMap_right _).count_eq _
  · rw [List.count_append, List.count_eq_zero.mpr houter, Nat.zero_add, hopening]
    rfl

end Reading.Even

/-- **The texts of a pattern** are whole like the pattern, and all have the same commas and braces. -/
theorem specials_of_mem_expand (hp : Whole p) (he : e ∈ expand p) :
    Whole e ∧ specials e = (pieces p).flatMap Piece.outline :=
  (even_expandAll (even_start.run hp).finish).2 e he

/-- A backslash at the end of a pattern stands at the end of all its texts. -/
theorem expand_concat_backslash (hp : Whole p) :
    expand (p ++ ['\\']) = (expand p).map (· ++ ['\\']) := by
  have hrun : (Reading.mk [] []).run (p ++ ['\\']) =
      ((Reading.mk [] []).run p).push (.text ['\\']) := by
    rw [Reading.run_append hp]
    rfl
  rw [expand, pieces, hrun, Reading.finish_push, expandAll_append]
  simp [expandAll, Piece.expand, expand, pieces, List.map_eq_flatMap]

theorem expand_ne_nil (p : List Char) : expand p ≠ [] := by
  have hwhole {p} (hp : Whole p) : expand p ≠ [] :=
    (even_expandAll (even_start.run hp).finish).1
  by_cases hp : Whole p
  · exact hwhole hp
  · obtain ⟨a, ha, rfl⟩ := exists_of_not_whole p hp
    rw [expand_concat_backslash ha]
    simpa using hwhole ha

/-! ## Texts that stand for themselves -/

theorem Reading.groups_push (r : Reading) (p : Piece) : (r.push p).groups = [] ↔ r.groups = [] := by
  unfold push
  split <;> simp_all

theorem Reading.groups_comma (r : Reading) : r.comma.groups = [] ↔ r.groups = [] := by
  unfold comma
  split
  · exact r.groups_push _
  · simp_all

/-- As long as no group closes, each character becomes a text. -/
theorem finish_take_of_spent (hc : c ≠ '\\')
    (hs : r.groups = [] ∧ Spent (specials (c :: cs)) ∨ '\x7d' ∉ specials (c :: cs)) :
    (r.take c).finish = r.finish ++ [.text [c]] ∧
      ((r.take c).groups = [] ∧ Spent (specials cs) ∨ '\x7d' ∉ specials cs) := by
  rw [specials_cons hc] at hs
  unfold Reading.take
  split
  · next h =>
    subst h
    refine ⟨r.finish_openGroup, .inr ?_⟩
    obtain ⟨-, hs⟩ | hs := hs
    · exact hs.closing_notMem
    · exact fun h => hs (List.mem_cons_of_mem _ h)
  · split
    · next h =>
      subst h
      refine ⟨r.finish_comma, ?_⟩
      rw [r.groups_comma]
      exact hs.imp (And.imp_right Spent.tail) fun hs h => hs (List.mem_cons_of_mem _ h)
    · split
      · next h =>
        subst h
        obtain ⟨hgroups, hs⟩ | hs := hs
        · have hclose : r.closeGroup = r.push (.text ['\x7d']) := by
            rw [Reading.closeGroup, hgroups]
          rw [hclose, r.groups_push]
          exact ⟨r.finish_push _, .inl ⟨hgroups, hs.tail⟩⟩
        · exact absurd (List.mem_cons_self ..) hs
      · next h₁ h₂ h₃ =>
        refine ⟨r.finish_push _, ?_⟩
        rw [r.groups_push]
        simpa [isSpecial, h₁, h₂, h₃] using hs

/-- As long as no group closes, characters and escapes become texts one by one. -/
theorem finish_run_of_spent (hcs : Whole cs)
    (hs : r.groups = [] ∧ Spent (specials cs) ∨ '\x7d' ∉ specials cs) :
    ∃ ts : List (List Char), (r.run cs).finish = r.finish ++ ts.map .text ∧ ts.flatten = cs := by
  induction hcs generalizing r with
  | nil => exact ⟨[], by simp [Reading.run], rfl⟩
  | @escape c cs _ ih =>
    obtain ⟨ts, hts, hflat⟩ := ih (r := r.push (.text ['\\', c])) (by rwa [r.groups_push])
    refine ⟨['\\', c] :: ts, ?_, by rw [List.flatten_cons, hflat]; rfl⟩
    rw [Reading.run, hts, Reading.finish_push]
    simp
  | @char c cs hc _ ih =>
    obtain ⟨hfinish, hrest⟩ := finish_take_of_spent hc hs
    obtain ⟨ts, hts, hflat⟩ := ih hrest
    refine ⟨[c] :: ts, ?_, by rw [List.flatten_cons, hflat]; rfl⟩
    rw [Reading.run_cons hc, hts, hfinish]
    simp

/-- A text in which no opening brace comes before a closing one stands for itself. -/
theorem expand_of_spent (hcs : Whole cs) (hs : Spent (specials cs)) : expand cs = [cs] := by
  obtain ⟨ts, hts, hflat⟩ := finish_run_of_spent (r := ⟨[], []⟩) hcs (.inl ⟨rfl, hs⟩)
  rw [expand, pieces, hts]
  simpa [Reading.finish, hflat] using expandAll_texts ts

/-- **Each text of a pattern stands for itself.** -/
theorem expand_of_mem_expand (he : e ∈ expand p) : expand e = [e] := by
  have hwhole {p e} (hp : Whole p) (he : e ∈ expand p) : expand e = [e] := by
    obtain ⟨hwhole, hspecials⟩ := specials_of_mem_expand hp he
    refine expand_of_spent hwhole ?_
    rw [hspecials]
    exact (even_start.run hp).outline_finish.1
  by_cases hp : Whole p
  · exact hwhole hp he
  · obtain ⟨a, ha, rfl⟩ := exists_of_not_whole p hp
    rw [expand_concat_backslash ha] at he
    obtain ⟨x, hx, rfl⟩ := List.mem_map.mp he
    rw [expand_concat_backslash (specials_of_mem_expand ha hx).1, hwhole ha hx]
    rfl

end DepScope.Pattern
