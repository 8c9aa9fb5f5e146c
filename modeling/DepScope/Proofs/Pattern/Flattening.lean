import DepScope.Pattern.Table
import DepScope.Proofs.Pattern.Expansion

/-!
# DepScope.Proofs.Pattern.Flattening

Whether a pattern whose alternatives are put into one group still stands for the same texts.

1. One group around texts without commas and braces stands for these texts (`expand_group`).
2. Commas and braces that are text outside of groups become syntax inside of one, and a backslash at
   the end escapes what is put behind it. The braces of the group and of its texts would have to come
   out even with those of each single text, which they do not (`eq_nil_of_expand_group`).
3. So flattening keeps what a pattern stands for exactly if it stands for one text, or its texts have
   no comma, no brace and no such backslash (`expand_flatten_iff`).
-/

namespace DepScope.Pattern

open Text Manifest

variable {cs p : List Char} {c : Char}

/-! ## Texts in one group -/

/-- Texts in one group, with commas between them. -/
def group (ps : List (List Char)) : List Char :=
  '\x7b' :: joinWith [','] ps ++ ['\x7d']

theorem joinWith_cons_cons (x y : List Char) (ps : List (List Char)) :
    joinWith [','] (x :: y :: ps) = x ++ ',' :: joinWith [','] (y :: ps) := by
  simp [joinWith]

theorem whole_joinWith {ps : List (List Char)} (h : ∀ p ∈ ps, Whole p) :
    Whole (joinWith [','] ps) := by
  induction ps with
  | nil => exact .nil
  | cons x ps ih =>
    obtain ⟨hx, hps⟩ := List.forall_mem_cons.mp h
    cases ps with
    | nil => exact hx
    | cons y ps =>
      rw [joinWith_cons_cons]
      exact hx.append (.char (by decide) (ih hps))

theorem specials_joinWith {ps : List (List Char)} (h : ∀ p ∈ ps, Whole p) :
    specials (joinWith [','] ps) = joinWith [','] (ps.map specials) := by
  induction ps with
  | nil => rfl
  | cons x ps ih =>
    obtain ⟨hx, hps⟩ := List.forall_mem_cons.mp h
    cases ps with
    | nil => rfl
    | cons y ps =>
      rw [joinWith_cons_cons, specials_append hx, specials_cons (by decide), ih hps]
      exact (joinWith_cons_cons _ _ _).symm

theorem specials_group {ps : List (List Char)} (h : ∀ p ∈ ps, Whole p) :
    specials (group ps) = group (ps.map specials) := by
  rw [group, List.cons_append, specials_cons (by decide), specials_append (whole_joinWith h),
    specials_joinWith h]
  rfl

/-- A text without commas and braces becomes pieces of the alternative being read. -/
theorem run_plain (hp : Whole p) (hs : specials p = []) (outer : List Piece) (g : Group)
    (gs : List Group) :
    ∃ ps, (Reading.mk outer (g :: gs)).run p = ⟨outer, ⟨g.done, ps.reverse ++ g.current⟩ :: gs⟩ ∧
      expandAll ps = [p] := by
  induction hp generalizing g with
  | nil => exact ⟨[], rfl, rfl⟩
  | @escape c cs _ ih =>
    obtain ⟨ps, hrun, hexp⟩ := ih hs ⟨g.done, .text ['\\', c] :: g.current⟩
    refine ⟨.text ['\\', c] :: ps, ?_, by simp [expandAll, Piece.expand, hexp]⟩
    rw [Reading.run]
    exact hrun.trans (by simp)
  | @char c cs hc _ ih =>
    rw [specials_cons hc] at hs
    have hplain : isSpecial c = false := by
      cases h : isSpecial c with
      | false => rfl
      | true => simp [h] at hs
    obtain ⟨ps, hrun, hexp⟩ := ih (by simpa [hplain] using hs) ⟨g.done, .text [c] :: g.current⟩
    refine ⟨.text [c] :: ps, ?_, by simp [expandAll, Piece.expand, hexp]⟩
    have htake : (Reading.mk outer (g :: gs)).take c = ⟨outer, g.push (.text [c]) :: gs⟩ := by
      simp only [isSpecial, Bool.or_eq_false_iff, decide_eq_false_iff_not] at hplain
      simp [Reading.take, Reading.push, hplain]
    rw [Reading.run_cons hc, htake]
    exact hrun.trans (by simp)

/-- Texts without commas and braces become the further alternatives of a group. -/
theorem run_joinWith {ps : List (List Char)} (hne : ps ≠ [])
    (h : ∀ p ∈ ps, specials p = [] ∧ Whole p) (done : List (List Piece)) :
    ∃ g, (Reading.mk [] [⟨done, []⟩]).run (joinWith [','] ps) = ⟨[], [g]⟩ ∧
      expandEach g.alternatives = expandEach done.reverse ++ ps := by
  induction ps generalizing done with
  | nil => exact absurd rfl hne
  | cons x ps ih =>
    obtain ⟨⟨hplain, hwhole⟩, hps⟩ := List.forall_mem_cons.mp h
    obtain ⟨qs, hrun, hexp⟩ := run_plain hwhole hplain [] ⟨done, []⟩ []
    cases ps with
    | nil =>
      refine ⟨_, hrun, ?_⟩
      simp [Group.alternatives_eq, expandEach_append, expandEach, hexp]
    | cons y ps =>
      obtain ⟨g, hg, halts⟩ := ih (by simp) hps (qs :: done)
      refine ⟨g, ?_, ?_⟩
      · rw [joinWith_cons_cons, Reading.run_append hwhole, hrun, Reading.run_cons (by decide)]
        simpa [Reading.take, Reading.comma, Group.next] using hg
      · simp [halts, expandEach_append, expandEach, hexp]

theorem pieces_group {ps : List (List Char)} (h : ∀ p ∈ ps, Whole p) {g : Group}
    (hrun : (Reading.mk [] [⟨[], []⟩]).run (joinWith [','] ps) = ⟨[], [g]⟩) :
    pieces (group ps) = [.choice g.alternatives] := by
  rw [pieces, group, List.cons_append, Reading.run_cons (by decide),
    Reading.run_append (whole_joinWith h)]
  have hopen : (Reading.mk [] []).take '\x7b' = ⟨[], [⟨[], []⟩]⟩ := rfl
  rw [hopen, hrun]
  rfl

/-- **One group around texts without commas and braces** stands for these texts. -/
theorem expand_group {ps : List (List Char)} (hne : ps ≠ [])
    (h : ∀ p ∈ ps, specials p = [] ∧ Whole p) : expand (group ps) = ps := by
  obtain ⟨g, hrun, halts⟩ := run_joinWith hne h []
  rw [expand, pieces_group (fun p hp => (h p hp).2) hrun]
  simpa [expandAll, Piece.expand, expandEach] using halts

/-! ## Texts that one group cannot hold -/

/-- Counts a brace: it closes a group that is open, or has found none, or opens one. -/
def tallyOf (n : Nat × Nat) (c : Char) : Nat × Nat :=
  if c = '\x7b' then (n.1, n.2 + 1)
  else if c = '\x7d' then
    match n.2 with
    | 0 => (n.1 + 1, 0)
    | d + 1 => (n.1, d)
  else n

theorem Reading.tally_push {q : Piece} (h : '\x7d' ∉ q.outline) (r : Reading) :
    (r.push q).tally = r.tally := by
  obtain ⟨outer, groups⟩ := r
  cases groups <;> simp [push, tally, List.count_eq_zero.mpr h]

theorem Reading.tally_take (hc : c ≠ '\\') (r : Reading) :
    (r.take c).tally = [c].foldl tallyOf r.tally := by
  obtain ⟨outer, groups⟩ := r
  unfold take
  split
  · next h => simp [h, tally, openGroup, tallyOf]
  · next hopen =>
    split
    · next h =>
      subst h
      cases groups with
      | nil => exact tally_push (q := .text [',']) (by decide) ⟨outer, []⟩
      | cons g gs => rfl
    · next hcomma =>
      split
      · next h =>
        subst h
        cases groups with
        | nil => simp [closeGroup, push, tally, tallyOf, Piece.outline, specials, isSpecial]
        | cons g gs => exact tally_push (by simp [Piece.outline]) ⟨outer, gs⟩
      · next hclose =>
        rw [tally_push]
        · simp [tallyOf, hopen, hclose]
        · simp [Piece.outline, specials_cons hc, isSpecial, hopen, hcomma, hclose, specials]

theorem foldl_tallyOf_of_not_special (h : isSpecial c = false) (n : Nat × Nat) :
    [c].foldl tallyOf n = n := by
  simp only [isSpecial, Bool.or_eq_false_iff, decide_eq_false_iff_not] at h
  simp [tallyOf, h]

/-- What a reading counts is a matter of the braces alone. -/
theorem Reading.tally_run (hcs : Whole cs) (r : Reading) :
    (r.run cs).tally = (specials cs).foldl tallyOf r.tally := by
  induction hcs generalizing r with
  | nil => rfl
  | escape c _ ih =>
    rw [run, ih, tally_push (by simp [Piece.outline, specials])]
    rfl
  | @char c cs hc _ ih =>
    rw [run_cons hc, ih, tally_take hc, specials_cons hc]
    cases h : isSpecial c with
    | true => rfl
    | false => rw [foldl_tallyOf_of_not_special h]; rfl

/-- Groups opened less braces closed is what is left open less what found no group. -/
theorem foldl_tallyOf_balance (s : List Char) (l d : Nat) :
    (s.foldl tallyOf (l, d)).2 + l + s.count '\x7d' =
      (s.foldl tallyOf (l, d)).1 + d + s.count '\x7b' := by
  induction s generalizing l d with
  | nil => simp [Nat.add_comm]
  | cons c s ih =>
    rw [List.foldl_cons, List.count_cons, List.count_cons]
    by_cases hopen : c = '\x7b'
    · have := ih l (d + 1)
      simp [hopen, tallyOf] at this ⊢
      omega
    · by_cases hclose : c = '\x7d'
      · cases d with
        | zero =>
          have := ih (l + 1) 0
          simp [hclose, tallyOf] at this ⊢
          omega
        | succ d =>
          have := ih l d
          simp [hclose, tallyOf] at this ⊢
          omega
      · simpa [tallyOf, hopen, hclose] using ih l d

theorem foldl_tallyOf_of_opening_notMem {s : List Char} (h : '\x7b' ∉ s) (l d : Nat) :
    s.foldl tallyOf (l, d) = (l + (s.count '\x7d' - d), d - s.count '\x7d') := by
  induction s generalizing l d with
  | nil => simp
  | cons c s ih =>
    simp only [List.mem_cons, not_or] at h
    rw [List.foldl_cons, List.count_cons]
    by_cases hclose : c = '\x7d'
    · cases d with
      | zero => simp [hclose, tallyOf, ih h.2]; omega
      | succ d => simp [hclose, tallyOf, ih h.2]
    · simp [tallyOf, Ne.symm h.1, hclose, ih h.2]

theorem foldl_tallyOf_of_closing_notMem {s : List Char} (h : '\x7d' ∉ s) (l d : Nat) :
    s.foldl tallyOf (l, d) = (l, d + s.count '\x7b') := by
  induction s generalizing l d with
  | nil => simp
  | cons c s ih =>
    simp only [List.mem_cons, not_or] at h
    rw [List.foldl_cons, List.count_cons]
    by_cases hopen : c = '\x7b'
    · simp [hopen, tallyOf, ih h.2]; omega
    · simp [tallyOf, Ne.symm h.1, hopen, ih h.2]

theorem Spent.foldl_tallyOf {s : List Char} (h : Spent s) (l d : Nat) :
    s.foldl tallyOf (l, d) =
      (l + (s.count '\x7d' - d), d - s.count '\x7d' + s.count '\x7b') := by
  obtain ⟨a, b, rfl, ha, hb⟩ := h
  rw [List.foldl_append, foldl_tallyOf_of_opening_notMem ha, foldl_tallyOf_of_closing_notMem hb,
    List.count_append, List.count_append, List.count_eq_zero.mpr ha, List.count_eq_zero.mpr hb]
  simp

theorem count_joinWith_replicate (hc : c ≠ ',') (o : List Char) (k : Nat) :
    (joinWith [','] (List.replicate k o)).count c = k * o.count c := by
  induction k with
  | zero => simp [joinWith]
  | succ k ih =>
    cases k with
    | zero => simp [joinWith]
    | succ k =>
      rw [List.replicate_succ, List.replicate_succ, joinWith_cons_cons, ← List.replicate_succ,
        List.count_append, List.count_cons_of_ne hc.symm, ih, Nat.succ_mul (k + 1), Nat.add_comm]

theorem count_closing_group (o : List Char) (k : Nat) :
    (group (List.replicate k o)).count '\x7d' = k * o.count '\x7d' + 1 := by
  rw [group, List.cons_append, List.count_cons_of_ne (by decide), List.count_append,
    count_joinWith_replicate (by decide)]
  rfl

theorem count_opening_group (o : List Char) (k : Nat) :
    (group (List.replicate k o)).count '\x7b' = k * o.count '\x7b' + 1 := by
  rw [group, List.cons_append, List.count_cons_self, List.count_append,
    count_joinWith_replicate (by decide)]
  rfl

/-- A text without braces leaves the reading in the group where it stands. -/
theorem run_of_no_braces (hcs : Whole cs) (hopen : '\x7b' ∉ specials cs)
    (hclose : '\x7d' ∉ specials cs) (outer : List Piece) (g : Group) (gs : List Group) :
    ∃ g', (Reading.mk outer (g :: gs)).run cs = ⟨outer, g' :: gs⟩ := by
  induction hcs generalizing g with
  | nil => exact ⟨g, rfl⟩
  | escape c _ ih => exact ih hopen hclose _
  | @char c cs hc _ ih =>
    rw [specials_cons hc] at hopen hclose
    have hc₁ : c ≠ '\x7b' := by
      rintro rfl
      exact hopen (List.mem_cons_self ..)
    have hc₂ : c ≠ '\x7d' := by
      rintro rfl
      exact hclose (List.mem_cons_self ..)
    obtain ⟨g', hg'⟩ : ∃ g', (Reading.mk outer (g :: gs)).take c = ⟨outer, g' :: gs⟩ := by
      by_cases hcomma : c = ','
      · exact ⟨g.next, by simp [Reading.take, hcomma, Reading.comma]⟩
      · exact ⟨g.push (.text [c]), by simp [Reading.take, hc₁, hc₂, hcomma, Reading.push]⟩
    rw [Reading.run_cons hc, hg']
    refine ih (fun h => hopen ?_) (fun h => hclose ?_) g' <;> split
    · exact List.mem_cons_of_mem c h
    · exact h
    · exact List.mem_cons_of_mem c h
    · exact h

/-- The braces of a group around several copies, if each copy has as many closing as opening ones. -/
theorem foldl_tallyOf_copies {o : List Char} (ho : Spent o) {m : Nat} (hx : o.count '\x7d' = m)
    (hy : o.count '\x7b' = m) (k l d : Nat) (hd : d ≤ m) :
    (joinWith [','] (List.replicate (k + 1) o)).foldl tallyOf (l, d) = (l + (m - d), m) := by
  have hone (l d : Nat) (hd : d ≤ m) : o.foldl tallyOf (l, d) = (l + (m - d), m) := by
    rw [ho.foldl_tallyOf, hx, hy, Nat.sub_eq_zero_of_le hd, Nat.zero_add]
  induction k generalizing l d with
  | zero => exact hone l d hd
  | succ k ih =>
    have hcomma (n : Nat × Nat) : tallyOf n ',' = n := rfl
    rw [List.replicate_succ, List.replicate_succ, joinWith_cons_cons, ← List.replicate_succ,
      List.foldl_append, hone l d hd, List.foldl_cons, hcomma, ih _ m (Nat.le_refl m)]
    simp

/-- **What a group around several texts gives back.** If it stands for these texts, and they all have
the same commas and braces, then they have none. -/
theorem eq_nil_of_expand_group {ps : List (List Char)} {o : List Char} (hlen : 2 ≤ ps.length)
    (hall : ∀ x ∈ ps, Whole x ∧ specials x = o) (ho : Spent o) (h : expand (group ps) = ps) :
    o = [] := by
  have hwhole := fun x hx => (hall x hx).1
  have hgroup : Whole (group ps) := whole_concat (by decide) _
  have hspecials : specials (group ps) = group (List.replicate ps.length o) := by
    rw [specials_group hwhole, List.map_congr_left fun x hx => (hall x hx).2, List.map_const']
  obtain ⟨k, hk⟩ : ∃ k, ps.length = k + 2 := ⟨ps.length - 2, by omega⟩
  rw [hk] at hspecials
  obtain ⟨x, hx⟩ := List.exists_mem_of_length_pos (l := ps) (by omega)
  -- what is left of the group's own syntax is what the texts have
  have hleft : (pieces (group ps)).flatMap Piece.outline = o := by
    rw [← (specials_of_mem_expand hgroup (h.symm ▸ hx)).2]
    exact (hall x hx).2
  obtain ⟨-, hclosing, hopening⟩ := (even_start.run hgroup).outline_finish
  rw [← pieces, hleft, Reading.tally_run hgroup, hspecials] at hclosing hopening
  have hbalance := foldl_tallyOf_balance (group (List.replicate (k + 2) o)) 0 0
  have hstart : (Reading.mk [] []).tally = (0, 0) := rfl
  rw [hstart] at hclosing hopening
  rw [← hclosing, ← hopening, count_closing_group, count_opening_group] at hbalance
  have heven : o.count '\x7d' = o.count '\x7b' := by
    have hcopies : (k + 1) * o.count '\x7d' = (k + 1) * o.count '\x7b' := by
      rw [Nat.succ_mul (k + 1), Nat.succ_mul (k + 1)] at hbalance
      omega
    exact Nat.eq_of_mul_eq_mul_left (by omega) hcopies
  obtain ⟨m, hx⟩ : ∃ m, o.count '\x7d' = m := ⟨_, rfl⟩
  have hy : o.count '\x7b' = m := heven ▸ hx
  cases m with
  | zero =>
    have hjoin {c : Char} (hc : c ≠ ',') (ho : o.count c = 0) :
        c ∉ specials (joinWith [','] ps) := by
      rw [specials_joinWith hwhole, List.map_congr_left fun x hx => (hall x hx).2, List.map_const',
        ← List.count_eq_zero, count_joinWith_replicate hc, ho, Nat.mul_zero]
    obtain ⟨g, hg⟩ := run_of_no_braces (whole_joinWith hwhole) (hjoin (by decide) hy)
      (hjoin (by decide) hx) [] ⟨[], []⟩ []
    rw [← hleft, pieces_group hwhole hg]
    rfl
  | succ m =>
    -- the group closes at the first closing brace, which is then missing
    have hfold : (group (List.replicate (k + 2) o)).foldl tallyOf (0, 0) = (m, m) := by
      have hopen : tallyOf (0, 0) '\x7b' = (0, 1) := rfl
      rw [group, List.cons_append, List.foldl_cons, hopen, List.foldl_append,
        foldl_tallyOf_copies ho hx hy (k + 1) 0 1 (by omega)]
      simp [tallyOf]
    rw [hx, hfold] at hclosing
    omega

/-! ## Flattening -/

/-- A pattern whose texts can be told apart in one group: there is only one, or they have no comma, no
brace and no backslash at their end. -/
def Separable (p : List Char) : Prop :=
  (expand p).length = 1 ∨ ∀ e ∈ expand p, specials e = [] ∧ Whole e

instance (p : List Char) : Decidable (Separable p) :=
  inferInstanceAs (Decidable (_ ∨ _))

theorem flatten_of_expand_eq_singleton {e : List Char} (h : expand p = [e]) : flatten p = e := by
  simp [flatten, h]

theorem flatten_of_two_le (h : 2 ≤ (expand p).length) : flatten p = group (expand p) := by
  unfold flatten
  split
  · next heq => simp [heq] at h
  · next heq => simp [heq] at h
  · rfl

theorem expand_length_pos (p : List Char) : 0 < (expand p).length :=
  List.length_pos_of_ne_nil (expand_ne_nil p)

/-- A pattern that stands for one text becomes that text. -/
theorem expand_flatten_of_length_eq_one (h : (expand p).length = 1) :
    expand (flatten p) = expand p := by
  obtain ⟨e, he⟩ := List.length_eq_one_iff.mp h
  rw [flatten_of_expand_eq_singleton he, he]
  exact expand_of_mem_expand (p := p) (by simp [he])

/-- A group with a text that ends in a backslash does not give this text back. -/
theorem expand_group_ne_of_not_whole {ps : List (List Char)} {x : List Char} (hx : x ∈ ps)
    (hwhole : ¬Whole x) : expand (group ps) ≠ ps := by
  intro h
  have hgroup : Whole (group ps) := whole_concat (by decide) _
  exact hwhole (specials_of_mem_expand hgroup (h.symm ▸ hx)).1

theorem separable_of_expand_flatten (h : expand (flatten p) = expand p) : Separable p := by
  by_cases hlen : (expand p).length = 1
  · exact .inl hlen
  · have htwo : 2 ≤ (expand p).length := by
      have := expand_length_pos p
      omega
    rw [flatten_of_two_le htwo] at h
    -- no text can end in a backslash, so neither does the pattern
    have hwhole : ∀ e ∈ expand p, Whole e := fun e he =>
      Classical.byContradiction fun hne => expand_group_ne_of_not_whole he hne h
    have hp : Whole p := by
      refine Classical.byContradiction fun hne => ?_
      obtain ⟨a, ha, rfl⟩ := exists_of_not_whole p hne
      rw [expand_concat_backslash ha] at hwhole
      obtain ⟨e, he⟩ := List.exists_mem_of_ne_nil _ (expand_ne_nil a)
      exact (specials_of_mem_expand ha he).1.not_whole_concat (hwhole _ (List.mem_map_of_mem he))
    have hsame := fun e he => specials_of_mem_expand hp (e := e) he
    have hnil := eq_nil_of_expand_group htwo hsame (even_start.run hp).outline_finish.1 h
    exact .inr fun e he => ⟨(hsame e he).2.trans hnil, hwhole e he⟩

/-- **When flattening keeps the texts of a pattern.** -/
theorem expand_flatten_iff (p : List Char) : expand (flatten p) = expand p ↔ Separable p := by
  refine ⟨separable_of_expand_flatten, fun h => ?_⟩
  by_cases hlen : (expand p).length = 1
  · exact expand_flatten_of_length_eq_one hlen
  · have htwo : 2 ≤ (expand p).length := by
      have := expand_length_pos p
      omega
    rw [flatten_of_two_le htwo]
    exact expand_group (expand_ne_nil p) (h.resolve_left hlen)

/-- A pattern is flattened by its texts alone. -/
theorem flatten_congr {p q : List Char} (h : expand p = expand q) : flatten p = flatten q := by
  rw [flatten, h, flatten]

/-! ## Tables -/

/-- A table and the patterns of the manifests that can be read, each as the table has it. -/
def Patterns.asWritten (t : Table) : Patterns :=
  ⟨t, Kind.all.filterMap fun k =>
    (t.get? k.tableKey.1 k.tableKey.2).map fun p => (k, Glob.ofSource p.toList)⟩

theorem Patterns.ofTable_eq (t : Table) : ofTable t = asWritten t.flattened :=
  rfl

theorem lookup_map_snd {α β : Type} (f : α → β) (xs : List (String × α)) (key : String) :
    (xs.map fun x => (x.1, f x.2)).lookup key = (xs.lookup key).map f := by
  induction xs with
  | nil => rfl
  | cons x xs ih =>
    rw [List.map_cons, List.lookup_cons, List.lookup_cons, ih]
    cases key == x.1 <;> rfl

theorem Table.get?_flattened (t : Table) (e n : String) :
    t.flattened.get? e n = (t.get? e n).map fun p => String.ofList (flatten p.toList) := by
  let flat (p : String) := String.ofList (flatten p.toList)
  have hrow : t.flattened.lookup e = (t.lookup e).map fun ms => ms.map fun m => (m.1, flat m.2) :=
    lookup_map_snd _ t e
  rw [get?, get?, hrow]
  cases t.lookup e with
  | none => rfl
  | some ms => exact lookup_map_snd flat ms n

/-- The patterns of a table that are looked at can be flattened. -/
def Table.Separable (t : Table) : Prop :=
  ∀ k ∈ Kind.all, ∀ p ∈ t.get? k.tableKey.1 k.tableKey.2, Pattern.Separable p.toList

instance (t : Table) : Decidable t.Separable :=
  inferInstanceAs (Decidable (∀ k ∈ Kind.all, ∀ p ∈ t.get? k.tableKey.1 k.tableKey.2, _))

theorem alternatives_ofSource_congr {p q : List Char} (h : expand p = expand q) :
    (Glob.ofSource p).alternatives = (Glob.ofSource q).alternatives := by
  rw [Glob.ofSource, h, Glob.ofSource]

/-- Each manifest has the alternatives of its pattern as the table has it. -/
theorem alternatives_ofTable {t : Table} (h : t.Separable) :
    (Patterns.ofTable t).manifests.map (fun m => (m.1, m.2.alternatives)) =
      (Patterns.asWritten t).manifests.map (fun m => (m.1, m.2.alternatives)) := by
  rw [Patterns.ofTable_eq, Patterns.asWritten, Patterns.asWritten, List.map_filterMap,
    List.map_filterMap]
  refine List.filterMap_congr fun k hk => ?_
  rw [Table.get?_flattened]
  cases hp : t.get? k.tableKey.1 k.tableKey.2 with
  | none => rfl
  | some p =>
    have hsep := (expand_flatten_iff p.toList).mpr (h k hk p hp)
    simp [alternatives_ofSource_congr hsep]

/-- Which kind a path has is a matter of the alternatives. -/
theorem classify?_eq (ps : Patterns) (path : String) :
    ps.classify? path = ((ps.manifests.map fun m => (m.1, m.2.alternatives)).find? fun m =>
      (Glob.mk [] m.2).matches path.toList).map (·.1) := by
  rw [Patterns.classify?, List.find?_map, Option.map_map]
  rfl

/-- **What flattening keeps.** A pattern stands for the same texts as before exactly if its texts can
be told apart in one group; flattening it again then changes nothing. A table whose patterns are of
this kind finds the same manifests as if its patterns were taken as they are written. -/
theorem flatten_keeps_iff_separable (p : List Char) (t : Table) :
    (expand (flatten p) = expand p ↔ Separable p) ∧
    (Separable p → flatten (flatten p) = flatten p) ∧
    (t.Separable →
      (Patterns.ofTable t).manifests.map (fun m => (m.1, m.2.alternatives)) =
        (Patterns.asWritten t).manifests.map (fun m => (m.1, m.2.alternatives)) ∧
      ∀ path, (Patterns.ofTable t).classify? path = (Patterns.asWritten t).classify? path) := by
  refine ⟨expand_flatten_iff p, fun hp => ?_, fun ht => ⟨alternatives_ofTable ht, fun path => ?_⟩⟩
  · exact flatten_congr ((expand_flatten_iff p).mpr hp)
  · rw [classify?_eq, classify?_eq, alternatives_ofTable ht]

/-- The patterns that are built in can be flattened, and a group in a group. -/
theorem flatten_keeps_builtIn :
    Table.builtIn.Separable ∧ Separable "\x7ba,b\x7bc,d\x7d\x7d".toList ∧
    expand (flatten "\x7ba,b\x7bc,d\x7d\x7d".toList) = expand "\x7ba,b\x7bc,d\x7d\x7d".toList ∧
    ∀ path, Patterns.builtIn.classify? path = (Patterns.asWritten .builtIn).classify? path := by
  have htable : Table.builtIn.Separable := by decide +kernel
  have hsep : Separable "\x7ba,b\x7bc,d\x7d\x7d".toList := by decide +kernel
  obtain ⟨hexpand, -, hclassify⟩ :=
    flatten_keeps_iff_separable "\x7ba,b\x7bc,d\x7d\x7d".toList .builtIn
  exact ⟨htable, hsep, hexpand.mpr hsep, (hclassify htable).2⟩

/-- A table with a comma outside of the groups of a pattern. -/
def commaTable : Table := [("npm", [("packagejson", "\x7ba,b\x7d,c")])]

/-- The comma becomes one between alternatives, and the files are not found. A closing brace outside
of groups ends the group too early, and another one comes out with every flattening. -/
theorem flatten_breaks_comma_and_brace :
    (expand "\x7ba,b\x7d,c".toList).map String.ofList = ["a,c", "b,c"] ∧
    (expand (flatten "\x7ba,b\x7d,c".toList)).map String.ofList = ["a", "c", "b", "c"] ∧
    (Patterns.asWritten commaTable).classify? "a,c" = some .packageJson ∧
    (Patterns.ofTable commaTable).classify? "a,c" = none ∧
    String.ofList (flatten "\x7ba,b\x7d\x7d".toList) = "\x7ba\x7d,b\x7d\x7d" ∧
    flatten (flatten "\x7ba,b\x7d\x7d".toList) ≠ flatten "\x7ba,b\x7d\x7d".toList := by
  decide +kernel

end DepScope.Pattern
