import DepScope.References
import Mathlib.Data.List.Induction

/-!
# DepScope.Proofs.References

Gathered mentions, read off the mentions.

1. The reference of an identifier has the flag of its first mention and the ranges of all its
   mentions, in their order (`get?_ofMentions`).
2. The gathered set knows the mentions up to their order (`perm_of_ofMentions_eq`).
3. Which identifiers there are, in which order, with which flags and how many ranges, does not depend
   on where the mentions are (`outline_ofMentions`).
-/

namespace DepScope

open Package Text

variable {m m' : Mention} {ms ms' : List Mention} {es es' : List (Purl × Reference)} {p : Purl}

/-! ## One mention -/

/-- A reference with one more mention. -/
def Reference.adding (r : Option Reference) (m : Mention) : Reference :=
  match r with
  | some r => ⟨r.builtin, r.ranges ++ [m.range]⟩
  | none => ⟨m.builtin, [m.range]⟩

theorem find?_insertMention (m : Mention) (es : List (Purl × Reference)) (p : Purl) :
    ((insertMention m es).find? fun e => decide (e.1 = p)).map (·.2) =
      if m.purl = p then
        some (Reference.adding ((es.find? fun e => decide (e.1 = p)).map (·.2)) m)
      else (es.find? fun e => decide (e.1 = p)).map (·.2) := by
  induction es with
  | nil => by_cases hp : m.purl = p <;> simp [insertMention, hp, Reference.adding]
  | cons e es ih =>
    obtain ⟨q, r⟩ := e
    by_cases hq : q = m.purl
    · by_cases hp : m.purl = p <;> simp [insertMention, hq, hp, Reference.adding]
    · rw [insertMention, if_neg hq]
      by_cases hp : q = p
      · have hne : m.purl ≠ p := fun h => hq (hp.trans h.symm)
        simp [hp, hne]
      · have hskip (es : List (Purl × Reference)) :
            ((q, r) :: es).find? (fun e => decide (e.1 = p)) =
              es.find? fun e => decide (e.1 = p) :=
          List.find?_cons_of_neg (by simpa using hp)
        rw [hskip, hskip, ih]

namespace References

theorem get?_add (rs : References) (m : Mention) (p : Purl) :
    (rs.add m).get? p = if m.purl = p then some (Reference.adding (rs.get? p) m) else rs.get? p :=
  find?_insertMention m rs.entries p

/-! ## All mentions -/

theorem ofMentions_concat (ms : List Mention) (m : Mention) :
    ofMentions (ms ++ [m]) = (ofMentions ms).add m := by
  simp [ofMentions]

/-- The reference that the mentions of one identifier add up to. -/
def ofHistory : List Mention → Option Reference
  | [] => none
  | m :: ms => some ⟨m.builtin, (m :: ms).map (·.range)⟩

theorem ofHistory_append (ms : List Mention) (m : Mention) :
    ofHistory (ms ++ [m]) = some (Reference.adding (ofHistory ms) m) := by
  cases ms <;> simp [ofHistory, Reference.adding]

/-- **The reference of an identifier** is what its own mentions add up to. -/
theorem get?_ofMentions (ms : List Mention) (p : Purl) :
    (ofMentions ms).get? p = ofHistory (ms.filter fun m => decide (m.purl = p)) := by
  induction ms using List.reverseRecOn with
  | nil => rfl
  | append_singleton ms m ih =>
    rw [ofMentions_concat, get?_add, ih, List.filter_append]
    by_cases hp : m.purl = p
    · rw [if_pos hp, List.filter_cons_of_pos (by simpa using hp), List.filter_nil, ofHistory_append]
    · rw [if_neg hp, List.filter_cons_of_neg (by simpa using hp), List.filter_nil, List.append_nil]

/-- The identifiers are those that are mentioned. -/
theorem contains_ofMentions {ms : List Mention} {p : Purl} :
    (ofMentions ms).contains p = true ↔ ∃ m ∈ ms, m.purl = p := by
  have hsome (hs : List Mention) : (ofHistory hs).isSome = true ↔ hs ≠ [] := by
    cases hs <;> simp [ofHistory]
  rw [contains, get?_ofMentions, hsome, Ne, List.filter_eq_nil_iff]
  simp

/-- The ranges of an identifier, none if it does not occur. -/
def rangesOf (rs : References) (p : Purl) : List Range :=
  ((rs.get? p).map (·.ranges)).getD []

theorem rangesOf_ofMentions (ms : List Mention) (p : Purl) :
    (ofMentions ms).rangesOf p = (ms.filter fun m => decide (m.purl = p)).map (·.range) := by
  rw [rangesOf, get?_ofMentions]
  cases ms.filter fun m => decide (m.purl = p) <;> rfl

/-- **Mentions that are gathered into the same set** are the same ones, in some order. -/
theorem perm_of_ofMentions_eq (h : ofMentions ms = ofMentions ms') :
    (ms.map fun m => (m.purl, m.range)).Perm (ms'.map fun m => (m.purl, m.range)) := by
  have hcount (ms : List Mention) (p : Purl) (r : Range) :
      (ms.map fun m => (m.purl, m.range)).count (p, r) = ((ofMentions ms).rangesOf p).count r := by
    rw [rangesOf_ofMentions, List.count, List.count, List.countP_map, List.countP_map,
      List.countP_filter]
    refine List.countP_congr fun m _ => ?_
    simp [and_comm]
  rw [List.perm_iff_count]
  rintro ⟨p, r⟩
  rw [hcount, hcount, h]

/-! ## What does not depend on the places -/

/-- An entry without its places. -/
def outlineOf (e : Purl × Reference) : Purl × Bool × Nat :=
  (e.1, e.2.builtin, e.2.ranges.length)

/-- The identifiers in their order, each with its flag and the number of its ranges. -/
def outline (rs : References) : List (Purl × Bool × Nat) :=
  rs.entries.map outlineOf

theorem outline_insertMention (hp : m.purl = m'.purl) (hb : m.builtin = m'.builtin)
    (h : es.map outlineOf = es'.map outlineOf) :
    (insertMention m es).map outlineOf = (insertMention m' es').map outlineOf := by
  induction es generalizing es' with
  | nil =>
    obtain rfl : es' = [] := List.map_eq_nil_iff.mp h.symm
    simp [insertMention, outlineOf, hp, hb]
  | cons e es ih =>
    obtain ⟨e', es', rfl, he, hes⟩ := List.map_eq_cons_iff.mp h.symm
    obtain ⟨q, r⟩ := e
    obtain ⟨q', r'⟩ := e'
    simp only [outlineOf, Prod.mk.injEq] at he
    obtain ⟨rfl, hflag, hcount⟩ := he
    by_cases hq : q' = m.purl
    · simp [insertMention, ← hp, hq, outlineOf, hflag, hcount, hes]
    · have hq' : q' ≠ m'.purl := hp ▸ hq
      simp only [insertMention, if_neg hq, if_neg hq', List.map_cons, ih hes.symm, outlineOf, hflag,
        hcount]

/-- **Mentions of the same identifiers with the same flags** are gathered alike, wherever they are. -/
theorem outline_ofMentions
    (h : ms.map (fun m => (m.purl, m.builtin)) = ms'.map (fun m => (m.purl, m.builtin))) :
    (ofMentions ms).outline = (ofMentions ms').outline := by
  suffices hgen : ∀ rs rs' : References, rs.outline = rs'.outline →
      (ms.foldl add rs).outline = (ms'.foldl add rs').outline from hgen empty empty rfl
  induction ms generalizing ms' with
  | nil =>
    obtain rfl : ms' = [] := List.map_eq_nil_iff.mp h.symm
    exact fun _ _ hrs => hrs
  | cons m ms ih =>
    obtain ⟨m', ms', rfl, hm, hms⟩ := List.map_eq_cons_iff.mp h.symm
    simp only [Prod.mk.injEq] at hm
    intro rs rs' hrs
    exact ih hms.symm _ _ (outline_insertMention hm.1.symm hm.2.symm hrs)

end References

end DepScope
