import DepScope.Files.Path
import DepScope.Proofs.Text.Lines

/-!
# DepScope.Proofs.Files.Path

A plain name put into a directory is one step below it: the steps of the path are those of the
directory and then the name (`components_join`), however the directory is written. So two plain names
in one directory are two paths (`join_injective`).
-/

namespace DepScope.Files

open Text

variable {n : List Char}

/-- A name that is one step of its own: not empty, without a slash, and not one of the dots. -/
structure IsPlainName (n : List Char) : Prop where
  ne_nil : n ≠ []
  ne_here : n ≠ ['.']
  ne_up : n ≠ ['.', '.']
  slash_notMem : '/' ∉ n

theorem IsPlainName.steps (h : IsPlainName n) :
    [n].filterMap Component.ofPiece? = [.named n] := by
  simp [Component.ofPiece?, h.ne_nil, h.ne_here, h.ne_up]

/-! ## Steps -/

/-- A text with a separator in it is cut on both sides of it. -/
theorem pieces_append_sep (sep : Char) (a b : List Char) :
    pieces sep (a ++ sep :: b) = pieces sep a ++ pieces sep b := by
  induction a with
  | nil => simp [pieces]
  | cons c a ih =>
    obtain ⟨p, ps, hp⟩ := List.exists_cons_of_ne_nil (pieces_ne_nil sep a)
    by_cases hc : c = sep
    · simp [pieces, hc, ih]
    · simp [pieces, hc, ih, hp]

theorem head?_pieces_append (sep : Char) (a b : List Char) :
    (pieces sep (a ++ sep :: b)).head? = (pieces sep a).head? := by
  obtain ⟨p, ps, hp⟩ := List.exists_cons_of_ne_nil (pieces_ne_nil sep a)
  rw [pieces_append_sep, hp]
  rfl

/-- What follows the last slash of a path is its last step. -/
theorem components_append (h : IsPlainName n) (d : List Char) :
    components (d ++ '/' :: n) = components (d ++ ['/']) ++ [.named n] := by
  have hhead : (d ++ '/' :: n).head? = (d ++ ['/']).head? := by cases d <;> rfl
  have hsteps : (pieces '/' (d ++ '/' :: n)).filterMap Component.ofPiece? =
      (pieces '/' (d ++ ['/'])).filterMap Component.ofPiece? ++ [.named n] := by
    rw [pieces_append_sep, pieces_append_sep, pieces_of_notMem h.slash_notMem]
    simp [pieces, h.steps, Component.ofPiece?]
  simp only [components, hhead, hsteps, head?_pieces_append]
  split
  · rfl
  · split <;> rfl

/-- A slash at the end of a path does not count, unless it is all of it. -/
theorem components_concat_slash {d : List Char} (h : d ≠ []) :
    components (d ++ ['/']) = components d := by
  have hhead : (d ++ ['/']).head? = d.head? := List.head?_append_of_ne_nil _ h
  have hsteps : (pieces '/' (d ++ ['/'])).filterMap Component.ofPiece? =
      (pieces '/' d).filterMap Component.ofPiece? := by
    rw [pieces_append_sep]
    simp [pieces, Component.ofPiece?]
  simp only [components, hhead, hsteps, head?_pieces_append]

/-! ## Names in a directory -/

theorem head?_ne_slash (h : IsPlainName n) : n.head? ≠ some '/' := by
  intro hhead
  exact h.slash_notMem (List.mem_of_mem_head? hhead)

/-- **A plain name in a directory** is one step below it. -/
theorem components_join (dir : String) {name : String} (h : IsPlainName name.toList) :
    components (join dir name).toList = components dir.toList ++ [.named name.toList] := by
  have hfirst : ¬ (name.toList.head? == some '/') = true := by simpa using head?_ne_slash h
  rw [join, if_neg hfirst]
  split
  · next hempty =>
    -- the current directory, whose steps are none
    rw [String.isEmpty_iff.mp hempty]
    have hpieces : pieces '/' name.toList = [name.toList] := pieces_of_notMem h.slash_notMem
    simp [components, hpieces, h.steps, hfirst, h.ne_here, pieces, Component.ofPiece?]
  · next hempty =>
    split
    · next hslash =>
      rw [hasSuffix, hasPrefix_iff] at hslash
      obtain ⟨d, hd⟩ := List.reverse_prefix.mp hslash
      rw [String.toList_append, ← hd, List.append_assoc]
      exact components_append h d
    · have hne : dir.toList ≠ [] := by simpa using hempty
      have htext : (dir ++ "/" ++ name).toList = dir.toList ++ '/' :: name.toList := by simp
      rw [htext, components_append h, components_concat_slash hne]

/-- Two plain names in one directory are two paths. -/
theorem join_injective {dir name name' : String} (h : IsPlainName name.toList)
    (h' : IsPlainName name'.toList) (heq : join dir name = join dir name') : name = name' := by
  have hsteps := components_join dir h
  rw [heq, components_join dir h'] at hsteps
  have hnamed := List.append_cancel_left hsteps
  simpa [String.toList_inj] using hnamed.symm

end DepScope.Files
