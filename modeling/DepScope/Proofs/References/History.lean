import DepScope.Proofs.References
import Mathlib.Data.List.Nodup
import Mathlib.Data.List.Perm.Subperm

/-!
# DepScope.Proofs.References.History

A gathered set is determined by what was mentioned of each identifier.

1. The set lists each identifier once, in the order of first mentions, with the flag of its first
   mention and the ranges of all its mentions (`gathers_ofMentions`).
2. Two sets are alike exactly if every identifier has the same reference in both (`alike_iff_get?`),
   so exactly if the mentions agree identifier by identifier (`alike_ofMentions_iff`). How the
   mentions of different identifiers are interleaved does not matter; where a single one of them is
   does.
-/

namespace DepScope

open Package Text

/-- The same stretch, one column further right. -/
def Text.Range.right (r : Range) : Range :=
  ⟨⟨r.start.line, r.start.column + 1⟩, ⟨r.stop.line, r.stop.column + 1⟩⟩

theorem Text.Range.right_ne (r : Range) : r.right ≠ r := by
  intro h
  have hcolumn := congrArg (·.start.column) h
  exact Nat.succ_ne_self _ hcolumn

namespace References

variable {m : Mention} {ms ms' before after : List Mention} {p q : Purl} {a b rs : References}
  {range : Range}

/-! ## One identifier -/

/-- The mentions of an identifier, in their order. -/
def history (p : Purl) (ms : List Mention) : List Mention :=
  ms.filter fun m => decide (m.purl = p)

theorem mem_history : m ∈ history p ms ↔ m ∈ ms ∧ m.purl = p := by
  simp [history]

theorem history_eq_nil_iff : history p ms = [] ↔ ¬ ∃ m ∈ ms, m.purl = p := by
  simp [history, List.filter_eq_nil_iff]

theorem history_append (ms ms' : List Mention) :
    history p (ms ++ ms') = history p ms ++ history p ms' :=
  List.filter_append ..

theorem history_cons_self (m : Mention) (ms : List Mention) :
    history m.purl (m :: ms) = m :: history m.purl ms :=
  List.filter_cons_of_pos (by simp)

/-- **The first mention** of an identifier decides its flag. -/
theorem get?_ofMentions_first (h : ∀ m' ∈ before, m'.purl ≠ m.purl) :
    (ofMentions (before ++ m :: after)).get? m.purl =
      some ⟨m.builtin, m.range :: (history m.purl after).map (·.range)⟩ := by
  have hbefore : history m.purl before = [] :=
    history_eq_nil_iff.mpr fun ⟨m', hm', hp⟩ => h m' hm' hp
  rw [get?_ofMentions, ← history, history_append, hbefore, List.nil_append, history_cons_self]
  rfl

/-- The flag of an identifier, if it occurs. -/
def flagOf? (rs : References) (p : Purl) : Option Bool :=
  (rs.get? p).map (·.builtin)

/-- **The flag of an identifier** is that of its first mention. -/
theorem flagOf?_ofMentions (ms : List Mention) (p : Purl) :
    (ofMentions ms).flagOf? p = (history p ms).head?.map (·.builtin) := by
  rw [flagOf?, get?_ofMentions, ← history]
  cases history p ms <;> rfl

/-- An identifier that has a reference has a flag and ranges, and these are the reference. -/
theorem get?_eq_iff : a.get? p = b.get? p ↔
    a.flagOf? p = b.flagOf? p ∧ a.rangesOf p = b.rangesOf p := by
  constructor
  · intro h
    simp [flagOf?, rangesOf, h]
  · rintro ⟨hflag, hranges⟩
    unfold flagOf? at hflag
    unfold rangesOf at hranges
    cases ha : a.get? p with
    | none =>
      cases hb : b.get? p with
      | none => rfl
      | some r => simp [ha, hb] at hflag
    | some r =>
      cases hb : b.get? p with
      | none => simp [ha, hb] at hflag
      | some r' =>
        obtain ⟨builtin, ranges⟩ := r
        obtain ⟨builtin', ranges'⟩ := r'
        simp only [ha, hb, Option.map_some, Option.some.injEq, Option.getD_some] at hflag hranges
        rw [hflag, hranges]

/-! ## All identifiers -/

/-- How many mentions come before the first one of an identifier. -/
def firstPlace (p : Purl) (ms : List Mention) : Nat :=
  (ms.map (·.purl)).idxOf p

theorem keys_insertMention (m : Mention) (es : List (Purl × Reference)) :
    (insertMention m es).map (·.1) =
      if m.purl ∈ es.map (·.1) then es.map (·.1) else es.map (·.1) ++ [m.purl] := by
  induction es with
  | nil => rfl
  | cons e es ih =>
    obtain ⟨q, r⟩ := e
    by_cases hq : q = m.purl
    · simp [insertMention, hq]
    · simp only [insertMention, if_neg hq, List.map_cons, ih, List.mem_cons, Ne.symm hq, false_or]
      split <;> rfl

theorem purls_add (rs : References) (m : Mention) :
    (rs.add m).purls = if m.purl ∈ rs.purls then rs.purls else rs.purls ++ [m.purl] :=
  keys_insertMention m rs.entries

theorem mem_purls_ofMentions : p ∈ (ofMentions ms).purls ↔ ∃ m ∈ ms, m.purl = p :=
  contains_iff.symm.trans contains_ofMentions

theorem firstPlace_lt (h : ∃ m ∈ ms, m.purl = p) : firstPlace p ms < ms.length := by
  have hmem : p ∈ ms.map (·.purl) := List.mem_map.mpr h
  simpa [firstPlace] using List.idxOf_lt_length_of_mem hmem

theorem firstPlace_concat (h : ∃ m ∈ ms, m.purl = p) (m : Mention) :
    firstPlace p (ms ++ [m]) = firstPlace p ms := by
  have hmem : p ∈ ms.map (·.purl) := List.mem_map.mpr h
  rw [firstPlace, List.map_append, List.idxOf_append_of_mem hmem, firstPlace]

theorem firstPlace_concat_new (h : ¬ ∃ m' ∈ ms, m'.purl = m.purl) :
    firstPlace m.purl (ms ++ [m]) = ms.length := by
  have hnot : m.purl ∉ ms.map (·.purl) := fun hmem => h (List.mem_map.mp hmem)
  rw [firstPlace, List.map_append, List.idxOf_append_of_notMem hnot]
  simp

/-- Identifiers are listed in the order of their first mentions. -/
theorem pairwise_purls (ms : List Mention) :
    (ofMentions ms).purls.Pairwise fun p q => firstPlace p ms < firstPlace q ms := by
  induction ms using List.reverseRecOn with
  | nil => exact List.Pairwise.nil
  | append_singleton ms m ih =>
    have hold : (ofMentions ms).purls.Pairwise fun p q =>
        firstPlace p (ms ++ [m]) < firstPlace q (ms ++ [m]) := by
      refine ih.imp_of_mem fun hp hq hlt => ?_
      rwa [firstPlace_concat (mem_purls_ofMentions.mp hp),
        firstPlace_concat (mem_purls_ofMentions.mp hq)]
    rw [ofMentions_concat, purls_add]
    split
    · exact hold
    · next hnew =>
      rw [mem_purls_ofMentions] at hnew
      refine List.pairwise_append.mpr ⟨hold, List.pairwise_singleton _ _, fun p hp q hq => ?_⟩
      obtain rfl := List.mem_singleton.mp hq
      rw [firstPlace_concat (mem_purls_ofMentions.mp hp), firstPlace_concat_new hnew]
      exact firstPlace_lt (mem_purls_ofMentions.mp hp)

/-- A set is what mentions add up to. -/
structure Gathers (rs : References) (ms : List Mention) : Prop where
  /-- No identifier is listed twice. -/
  distinct : rs.purls.Nodup
  /-- The identifiers are those that are mentioned. -/
  mentioned : ∀ p, p ∈ rs.purls ↔ ∃ m ∈ ms, m.purl = p
  /-- They come in the order of their first mentions. -/
  ordered : rs.purls.Pairwise fun p q => firstPlace p ms < firstPlace q ms
  /-- Each has the flag of its first mention. -/
  flags : ∀ p, rs.flagOf? p = (history p ms).head?.map (·.builtin)
  /-- Each has the ranges of its mentions, in their order. -/
  ranges : ∀ p, rs.rangesOf p = (history p ms).map (·.range)

theorem gathers_ofMentions (ms : List Mention) : Gathers (ofMentions ms) ms where
  distinct := (ofMentions ms).distinct
  mentioned := fun _ => mem_purls_ofMentions
  ordered := pairwise_purls ms
  flags := flagOf?_ofMentions ms
  ranges := rangesOf_ofMentions ms

/-! ## Sets that are alike -/

/-- References that are alike have the same entries, in some order. -/
theorem perm_of_alike {a b : References} (h : a.alike b = true) :
    a.entries.Perm b.entries := by
  simp only [alike, Bool.and_eq_true, beq_iff_eq, List.all_eq_true] at h
  obtain ⟨hsize, hall⟩ := h
  have hsub : a.entries ⊆ b.entries := fun e he => get?_eq_some_iff.mp (hall e he)
  have hnodup : a.entries.Nodup := List.Nodup.of_map (·.1) a.distinct
  exact (hnodup.subperm hsub).perm_of_length_le (Nat.le_of_eq hsize.symm)

/-- **Sets are alike** exactly if every identifier has the same reference in both. -/
theorem alike_iff_get? : a.alike b = true ↔ ∀ p, a.get? p = b.get? p := by
  constructor
  · intro h p
    refine Option.ext fun r => ?_
    rw [get?_eq_some_iff, get?_eq_some_iff, (perm_of_alike h).mem_iff]
  · intro h
    have hmem (e : Purl × Reference) : e ∈ a.entries ↔ e ∈ b.entries := by
      rw [← get?_eq_some_iff, ← get?_eq_some_iff, h]
    have hperm : a.entries.Perm b.entries :=
      (List.perm_ext_iff_of_nodup (List.Nodup.of_map _ a.distinct)
        (List.Nodup.of_map _ b.distinct)).mpr hmem
    simp only [alike, size, Bool.and_eq_true, beq_iff_eq, List.all_eq_true]
    exact ⟨hperm.length_eq, fun e he => get?_eq_some_iff.mpr ((hmem e).mp he)⟩

/-- Two sequences of mentions say the same of every identifier. -/
structure SameHistories (ms ms' : List Mention) : Prop where
  /-- They mention the same identifiers. -/
  mentioned : ∀ p, (∃ m ∈ ms, m.purl = p) ↔ ∃ m ∈ ms', m.purl = p
  /-- The first flag of each is the same. -/
  flags : ∀ p, (history p ms).head?.map (·.builtin) = (history p ms').head?.map (·.builtin)
  /-- So are its ranges and their order. -/
  ranges : ∀ p, (history p ms).map (·.range) = (history p ms').map (·.range)

/-- Gathered sets are alike exactly if the mentions say the same of every identifier. -/
theorem alike_ofMentions_iff :
    (ofMentions ms).alike (ofMentions ms') = true ↔ SameHistories ms ms' := by
  have hget (p : Purl) : (ofMentions ms).get? p = (ofMentions ms').get? p ↔
      (history p ms).head?.map (·.builtin) = (history p ms').head?.map (·.builtin) ∧
        (history p ms).map (·.range) = (history p ms').map (·.range) := by
    rw [get?_eq_iff, flagOf?_ofMentions, flagOf?_ofMentions, rangesOf_ofMentions,
      rangesOf_ofMentions]
    rfl
  rw [alike_iff_get?]
  constructor
  · intro h
    refine ⟨fun p => ?_, fun p => ((hget p).mp (h p)).1, fun p => ((hget p).mp (h p)).2⟩
    rw [← contains_ofMentions, ← contains_ofMentions, contains, contains, h p]
  · intro h p
    exact (hget p).mpr ⟨h.flags p, h.ranges p⟩

/-- A mention that is somewhere else makes a set that is not alike. -/
theorem not_sameHistories_of_moved (h : range ≠ m.range) :
    ¬ SameHistories (before ++ m :: after) (before ++ { m with range } :: after) := by
  intro hsame
  have hranges := hsame.ranges m.purl
  have hmoved : history m.purl ({ m with range } :: after) =
      { m with range } :: history m.purl after := history_cons_self { m with range } after
  rw [history_append, history_append, history_cons_self, hmoved, List.map_append, List.map_append,
    List.append_cancel_left_eq, List.map_cons, List.map_cons, List.cons.injEq] at hranges
  exact h hranges.1.symm

/-- **A set is determined by the histories of its identifiers.** It gathers the mentions: each
identifier once, in the order of first mentions, with its first flag and all its ranges. Two sets
are alike if and only if the mentions say the same of every identifier. So they are alike however
the mentions of different identifiers are interleaved, and they are not if a single range is shifted
by one column. -/
theorem determined_by_histories (ms ms' : List Mention) :
    Gathers (ofMentions ms) ms ∧
    ((ofMentions ms).alike (ofMentions ms') = true ↔ SameHistories ms ms') ∧
    ((∀ p, history p ms = history p ms') → (ofMentions ms).alike (ofMentions ms') = true) ∧
    ∀ before m after, ms = before ++ m :: after →
      ∀ range, range = m.range.right ∨ m.range = range.right →
        (ofMentions ms).alike (ofMentions (before ++ { m with range } :: after)) = false := by
  refine ⟨gathers_ofMentions ms, alike_ofMentions_iff, fun h => ?_, ?_⟩
  · refine alike_ofMentions_iff.mpr ⟨fun p => ?_, fun p => ?_, fun p => ?_⟩
    · rw [← not_iff_not, ← history_eq_nil_iff, ← history_eq_nil_iff, h p]
    · rw [h p]
    · rw [h p]
  · rintro before m after rfl range hshift
    have hmoved : range ≠ m.range := by
      obtain rfl | hleft := hshift
      · exact m.range.right_ne
      · exact fun heq => range.right_ne (heq ▸ hleft.symm)
    rw [Bool.eq_false_iff, Ne, alike_ofMentions_iff]
    exact not_sameHistories_of_moved hmoved

/-- Mentions of two packages that take turns, and the same with the turns taken otherwise. -/
theorem determined_by_histories_of_turns :
    let react (line : Nat) : Mention := .ofName .npm "react" (.ofCoords line 0 line 5)
    let fs : Mention := .ofName .npm "fs" (.ofCoords 1 0 1 2)
    (∀ p, history p [react 0, fs, react 2] = history p [fs, react 0, react 2]) ∧
      (ofMentions [react 0, fs, react 2]).alike (ofMentions [fs, react 0, react 2]) = true ∧
      (ofMentions [react 0, fs, react 2]).alike
        (ofMentions [react 0, fs, { react 2 with range := (react 2).range.right }]) = false := by
  intro react fs
  have hdiffer : (react 0).purl ≠ fs.purl := by decide
  have hturns : ∀ p, history p [react 0, fs, react 2] = history p [fs, react 0, react 2] := by
    intro p
    by_cases hp : fs.purl = p
    · subst hp
      rw [history, List.filter_cons_of_neg (by simpa using hdiffer)]
      rfl
    · simp [history, List.filter_cons, hp]
  obtain ⟨-, -, hinterleaved, hshifted⟩ :=
    determined_by_histories [react 0, fs, react 2] [fs, react 0, react 2]
  exact ⟨hturns, hinterleaved hturns, hshifted [react 0, fs] (react 2) [] rfl _ (.inl rfl)⟩

end References

end DepScope
