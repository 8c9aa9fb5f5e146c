import DepScope.Text.Reader

/-!
# DepScope.Proofs.Text.Reader

What the readers do at a place, so that proofs about grammars need not look into them, and what all
results of a reader have in common (`Yields`).
-/

namespace DepScope.Text

variable {α β : Type}

namespace Reader

theorem orElse_eq (r r' : Reader α) (s : Place) : (r <|> r') s = (r s).or (r' s) := by
  cases h : r s <;> simp [HOrElse.hOrElse, OrElse.orElse, Alternative.orElse, StateT.orElse, h]

theorem many_eq (r : Reader α) (s : Place) : many r s = repeated r s.rest.length s :=
  rfl

theorem repeated_of_eq_none {r : Reader α} {s : Place} (h : r s = none) (n : Nat) :
    repeated r n s = some ([], s) := by
  cases n with
  | zero => rfl
  | succ n => simp [repeated, h]

/-- Repeating always ends well. -/
theorem repeated_ne_none (r : Reader α) (n : Nat) (s : Place) : repeated r n s ≠ none := by
  induction n generalizing s with
  | zero => exact Option.some_ne_none _
  | succ n ih =>
    simp only [repeated]
    split
    · simpa using ih _
    · simp

theorem exactly_eq (w : String) (s : Place) :
    exactly w s =
      if hasPrefix w.toList s.rest then (do let _ ← take w.length : Reader Unit) s else none := by
  have heq : exactly w s =
      (if hasPrefix w.toList s.rest = true then do
        let _ ← take w.length
      else failure : Reader Unit) s := rfl
  rw [heq]
  split <;> rfl

theorem measured_eq (f : List Char → Option Nat) (s : Place) :
    measured f s = (f s.rest).bind fun n => take n s := by
  -- only the length at this place matters
  have hconst : measured f s = measured (fun _ => f s.rest) s := rfl
  rw [hconst]
  cases f s.rest <;> rfl

theorem takeWhile1_eq (p : Char → Bool) (s : Place) :
    takeWhile1 p s =
      if (s.rest.takeWhile p).isEmpty then none else takeWhile p s := by
  have heq : takeWhile1 p s =
      (if (s.rest.take (s.rest.takeWhile p).length).isEmpty = true then failure
      else pure (s.rest.take (s.rest.takeWhile p).length) : Reader (List Char))
        ⟨s.rest.drop (s.rest.takeWhile p).length,
          s.pos + byteLength (s.rest.take (s.rest.takeWhile p).length)⟩ := rfl
  have htake : s.rest.takeWhile p = s.rest.take (s.rest.takeWhile p).length :=
    List.prefix_iff_eq_take.mp (List.takeWhile_prefix p)
  have hempty : (s.rest.take (s.rest.takeWhile p).length).isEmpty = (s.rest.takeWhile p).isEmpty := by
    rw [← htake]
  rw [heq, hempty]
  split <;> rfl

end Reader

/-! ## What readers yield -/

open Reader

variable {P : α → Prop} {Q : β → Prop}

/-- All results of a reader have a property. -/
def Yields (P : α → Prop) (r : Reader α) : Prop :=
  ∀ s a s', r s = some (a, s') → P a

namespace Yields

theorem any (r : Reader α) : Yields (fun _ => True) r := fun _ _ _ _ => trivial

theorem fail : Yields P (failure : Reader α) := fun _ _ _ h => by cases h

theorem result {a : α} (h : P a) : Yields P (pure a : Reader α) := fun s b s' hrun => by
  cases hrun
  exact h

theorem bind {r : Reader α} {f : α → Reader β} (hr : Yields P r) (hf : ∀ a, P a → Yields Q (f a)) :
    Yields Q (r >>= f) := fun s b s' h => by
  obtain ⟨⟨a, mid⟩, ha, hb⟩ := Option.bind_eq_some_iff.mp h
  exact hf a (hr s a mid ha) mid b s' hb

/-- Whatever comes before. -/
theorem after {r : Reader α} {f : α → Reader β} (hf : ∀ a, Yields Q (f a)) : Yields Q (r >>= f) :=
  (any r).bind fun a _ => hf a

theorem orElse {r r' : Reader α} (h : Yields P r) (h' : Yields P r') : Yields P (r <|> r') :=
  fun s a s' hrun => by
    rw [orElse_eq, Option.or_eq_some_iff] at hrun
    obtain hrun | ⟨-, hrun⟩ := hrun
    · exact h s a s' hrun
    · exact h' s a s' hrun

theorem repeated {r : Reader α} (h : Yields P r) (n : Nat) :
    Yields (fun as => ∀ a ∈ as, P a) (repeated r n) := by
  induction n with
  | zero => exact .result (by simp)
  | succ n ih =>
    intro s as s' hrun
    simp only [Reader.repeated] at hrun
    split at hrun
    · next a mid ha =>
      obtain ⟨⟨more, last⟩, hmore, heq⟩ := Option.map_eq_some_iff.mp hrun
      cases heq
      exact List.forall_mem_cons.mpr ⟨h s a mid ha, ih mid more last hmore⟩
    · cases hrun
      simp

theorem many {r : Reader α} (h : Yields P r) : Yields (fun as => ∀ a ∈ as, P a) (many r) :=
  .after fun _ => h.repeated _

/-- What is measured is as long as the measure says. -/
theorem measured (f : List Char → Option Nat) :
    Yields (fun raw => ∃ cs n, f cs = some n ∧ raw = cs.take n) (measured f) := by
  intro s raw s' hrun
  rw [measured_eq] at hrun
  obtain ⟨n, hn, hrun⟩ := Option.bind_eq_some_iff.mp hrun
  cases hrun
  exact ⟨s.rest, n, hn, rfl⟩

end Yields

end DepScope.Text
