import DepScope.Proofs.Text.Cutting

/-!
# DepScope.Proofs.Text.Lines

Texts that are put together from lines, and places given by the number of a line.

1. Lines with line feeds between them are cut apart again (`pieces_joinWith`), and stand where the lines
   before them end (`placed_eq`).
2. The range of a part of a line is the number of the line and the units of what stands before it on
   that line (`rangeOf_line`). So it does not depend on the other lines, nor on what follows.
-/

namespace DepScope.Text

variable {l a piece b : List Char} {ls : List (List Char)} {i : Nat}

/-- A text without a separator is one piece. -/
theorem pieces_of_notMem {sep : Char} (h : sep ∉ l) : pieces sep l = [l] := by
  induction l with
  | nil => rfl
  | cons c l ih =>
    simp only [List.mem_cons, not_or] at h
    simp [pieces, Ne.symm h.1, ih h.2]

/-- What stands before the first separator is the first piece. -/
theorem pieces_append {sep : Char} (h : sep ∉ l) (rest : List Char) :
    pieces sep (l ++ sep :: rest) = l :: pieces sep rest := by
  induction l with
  | nil => simp [pieces]
  | cons c l ih =>
    simp only [List.mem_cons, not_or] at h
    simp [pieces, Ne.symm h.1, ih h.2]

/-- A piece has no separator in it. -/
theorem notMem_of_mem_pieces {sep : Char} {p cs : List Char} (h : p ∈ pieces sep cs) : sep ∉ p := by
  obtain ⟨as, bs, hcut⟩ := List.append_of_mem h
  obtain ⟨-, -, -, hp⟩ := exists_of_pieces hcut
  exact hp

/-- **Lines with line feeds between them** are cut apart again. -/
theorem pieces_joinWith (hne : ls ≠ []) (h : ∀ l ∈ ls, '\n' ∉ l) :
    pieces '\n' (joinWith ['\n'] ls) = ls := by
  induction ls with
  | nil => exact absurd rfl hne
  | cons l ls ih =>
    obtain ⟨hl, hls⟩ := List.forall_mem_cons.mp h
    cases ls with
    | nil => exact pieces_of_notMem hl
    | cons l' ls =>
      have hcut : joinWith ['\n'] (l :: l' :: ls) = l ++ '\n' :: joinWith ['\n'] (l' :: ls) := by
        simp [joinWith]
      rw [hcut, pieces_append hl, ih (by simp) hls]

/-! ## Where lines start -/

/-- The byte offset at which the line with a number starts. -/
def lineOffset (ls : List (List Char)) (i : Nat) : Nat :=
  byteLength ((ls.take i).flatMap (· ++ ['\n']))

theorem lineOffset_succ (h : ls[i]? = some l) :
    lineOffset ls (i + 1) = lineOffset ls i + byteLength l + 1 := by
  have hfeed : byteLength ['\n'] = 1 := rfl
  rw [lineOffset, List.take_add_one, h, Option.toList_some, List.flatMap_append, byteLength_append,
    List.flatMap_singleton, byteLength_append, hfeed, lineOffset, Nat.add_assoc]

/-- Lines are placed where the lines before them end. -/
theorem placed_eq (ls : List (List Char)) :
    placed 0 ls = ls.zipIdx.map fun e => (lineOffset ls e.2, e.1) := by
  suffices hgen : ∀ rest k, ls.drop k = rest →
      placed (lineOffset ls k) rest = (rest.zipIdx k).map fun e => (lineOffset ls e.2, e.1) from
    hgen ls 0 rfl
  intro rest
  induction rest with
  | nil => exact fun _ _ => rfl
  | cons l rest ih =>
    intro k hdrop
    have hget : ls[k]? = some l := by
      rw [← List.head?_drop, hdrop, List.head?_cons]
    have hrest : ls.drop (k + 1) = rest := by
      rw [← List.tail_drop, hdrop, List.tail_cons]
    rw [placed, ← lineOffset_succ hget, ih (k + 1) hrest, List.zipIdx_cons, List.map_cons]

/-- The position some bytes behind the start of a line: the number of the line, and the units of what
stands before it there. -/
theorem positionAt_of_line {text : String} (h : (pieces '\n' text.toList)[i]? = some (a ++ b)) :
    (LineIndex.ofText text).positionAt i (byteLength a) = ⟨i, unitLength a⟩ := by
  obtain ⟨head, rest, htext, hline, rfl, hhead, -⟩ := exists_of_line h
  obtain rfl : text = String.ofList (head ++ (a ++ b) ++ rest) := by
    rw [← htext, String.ofList_toList]
  have ha : '\n' ∉ a := fun hmem => hline (List.mem_append_left _ hmem)
  have hat := LineIndex.positionAt_line ha hhead (b ++ rest)
  have hposition := LineIndex.position_boundary ha hhead (b ++ rest)
  simp only [List.append_assoc] at hat hposition ⊢
  rw [hat, hposition]

/-- **The range of a part of a line**: the number of the line, and the units of what stands before its
two ends on the line. -/
theorem rangeOf_line {text : String}
    (h : (pieces '\n' text.toList)[i]? = some (a ++ piece ++ b)) :
    let start := lineOffset (pieces '\n' text.toList) i + byteLength a
    (LineIndex.ofText text).rangeOf ⟨start, start + byteLength piece⟩ =
      ⟨⟨i, unitLength a⟩, ⟨i, unitLength (a ++ piece)⟩⟩ := by
  obtain ⟨head, rest, htext, hline, rfl, hhead, hbefore⟩ := exists_of_line h
  have hoffset : lineOffset (pieces '\n' text.toList) (head.count '\n') = byteLength head := by
    rw [lineOffset, ← hbefore]
  obtain rfl : text = String.ofList (head ++ (a ++ piece ++ b) ++ rest) := by
    rw [← htext, String.ofList_toList]
  simp only [List.mem_append, not_or] at hline
  obtain ⟨⟨ha, hpiece⟩, -⟩ := hline
  have hboth : '\n' ∉ a ++ piece := by simp [ha, hpiece]
  have hstart := LineIndex.position_boundary ha hhead (piece ++ b ++ rest)
  have hstop := LineIndex.position_boundary hboth hhead (b ++ rest)
  rw [hoffset]
  simp only [List.append_assoc, byteLength_append] at hstart hstop ⊢
  rw [LineIndex.rangeOf, LineIndex.range, Nat.add_assoc, hstart, hstop]

end DepScope.Text
