import DepScope.Text.Position

/-!
# DepScope.Proofs.Text.Position

Positions of character boundaries. A boundary is the end of a beginning of the text, so it is given
here by what stands before it.

1. Its line is the number of line feeds before it, and its column counts the units after the last of
   them (`position_boundary`).
2. It can be told from its position (`offsetOf_position`): `LineIndex.offsetOf` takes a position back
   to bytes, and `LineIndex.spanOf` a range (`spanOf_rangeOf`).
-/

namespace DepScope.Text

variable {a head line : List Char} {off n : Nat}

/-! ## Bytes and units of beginnings -/

/-- The bytes of a character come off the bytes of what it starts, and are not none. -/
theorem exists_byteLength_cons (c : Char) (a : List Char) :
    ∃ n, byteLength (c :: a) = n + 1 ∧ n + 1 - c.utf8Size = byteLength a := by
  have hpos := Char.utf8Size_pos c
  refine ⟨c.utf8Size + byteLength a - 1, ?_, ?_⟩
  · rw [byteLength]
    omega
  · omega

theorem dropBytes_byteLength (a b : List Char) : dropBytes (byteLength a) (a ++ b) = b := by
  induction a with
  | nil => simp [byteLength, dropBytes]
  | cons c a ih =>
    obtain ⟨n, hsize, hrest⟩ := exists_byteLength_cons c a
    rw [hsize, List.cons_append, dropBytes, hrest, ih]

theorem takeBytes_byteLength (a b : List Char) : takeBytes (byteLength a) (a ++ b) = a := by
  induction a with
  | nil => simp [byteLength, takeBytes]
  | cons c a ih =>
    obtain ⟨n, hsize, hrest⟩ := exists_byteLength_cons c a
    rw [hsize, List.cons_append, takeBytes, hrest, ih]

/-- The bytes of the characters that fill a number of UTF-16 units. -/
def bytesOfUnits : Nat → List Char → Nat
  | 0, _ => 0
  | _, [] => 0
  | n + 1, c :: cs => c.utf8Size + bytesOfUnits (n + 1 - unitSize c) cs

theorem unitSize_pos (c : Char) : 0 < unitSize c := by
  unfold unitSize
  split <;> decide

theorem bytesOfUnits_unitLength (a b : List Char) :
    bytesOfUnits (unitLength a) (a ++ b) = byteLength a := by
  induction a with
  | nil => simp [unitLength, bytesOfUnits, byteLength]
  | cons c a ih =>
    obtain ⟨n, hn⟩ := Nat.exists_eq_add_of_lt (unitSize_pos c)
    have hsize : unitLength (c :: a) = n + unitLength a + 1 := by
      rw [unitLength]
      omega
    have hrest : n + unitLength a + 1 - unitSize c = unitLength a := by omega
    rw [hsize, List.cons_append, bytesOfUnits, hrest, ih, byteLength]

/-! ## Where lines start -/

theorem startsAfterFeeds_append (off : Nat) (a b : List Char) :
    startsAfterFeeds off (a ++ b) =
      startsAfterFeeds off a ++ startsAfterFeeds (off + byteLength a) b := by
  induction a generalizing off with
  | nil => simp [startsAfterFeeds, byteLength]
  | cons c a ih =>
    simp only [List.cons_append, startsAfterFeeds, ih, byteLength, Nat.add_assoc]
    split <;> rfl

theorem length_startsAfterFeeds (off : Nat) (a : List Char) :
    (startsAfterFeeds off a).length = a.count '\n' := by
  induction a generalizing off with
  | nil => rfl
  | cons c a ih =>
    by_cases hc : c = '\n' <;> simp [startsAfterFeeds, hc, ih]

/-- The lines of a text start after the offset it starts at, and not after its end. -/
theorem mem_startsAfterFeeds (h : n ∈ startsAfterFeeds off a) :
    off < n ∧ n ≤ off + byteLength a := by
  induction a generalizing off with
  | nil => cases h
  | cons c a ih =>
    have hpos := Char.utf8Size_pos c
    have hrest (h : n ∈ startsAfterFeeds (off + c.utf8Size) a) :
        off < n ∧ n ≤ off + byteLength (c :: a) := by
      obtain ⟨hlt, hle⟩ := ih h
      rw [byteLength]
      omega
    simp only [startsAfterFeeds] at h
    split at h
    · obtain rfl | h := List.mem_cons.mp h
      · rw [byteLength]
        omega
      · exact hrest h
    · exact hrest h

/-- What stands before a boundary is whole lines, and a beginning of the line it lies on. -/
theorem exists_lines (pre : List Char) :
    ∃ head line, pre = head ++ line ∧ '\n' ∉ line ∧ (head = [] ∨ ∃ h, head = h ++ ['\n']) := by
  induction pre with
  | nil => exact ⟨[], [], rfl, by simp, .inl rfl⟩
  | cons c pre ih =>
    obtain ⟨head, line, rfl, hline, rfl | ⟨h, rfl⟩⟩ := ih
    · by_cases hc : c = '\n'
      · exact ⟨[c], line, rfl, hline, .inr ⟨[], by rw [hc, List.nil_append]⟩⟩
      · exact ⟨[], c :: line, rfl, by simp [hline, Ne.symm hc], .inl rfl⟩
    · exact ⟨c :: h ++ ['\n'], line, rfl, hline, .inr ⟨c :: h, rfl⟩⟩

namespace LineIndex

/-- The line of an offset behind a beginning of the text, before the next line starts: the line feeds
of the beginning. -/
theorem lineOf_of_lt {pre post : List Char} (hpre : byteLength pre ≤ n)
    (hpost : ∀ m ∈ startsAfterFeeds (byteLength pre) post, n < m) :
    (ofText (String.ofList (pre ++ post))).lineOf n = pre.count '\n' := by
  have hbefore : ∀ m ∈ 0 :: startsAfterFeeds 0 pre, decide (m ≤ n) = true := by
    intro m hm
    obtain rfl | hm := List.mem_cons.mp hm
    · simp
    · have hle := (mem_startsAfterFeeds hm).2
      simp only [decide_eq_true_eq]
      omega
  have hafter : (startsAfterFeeds (byteLength pre) post).takeWhile (fun m => decide (m ≤ n)) = [] := by
    cases hs : startsAfterFeeds (byteLength pre) post with
    | nil => rfl
    | cons m ms =>
      have hlt := hpost m (hs ▸ List.mem_cons_self)
      exact List.takeWhile_cons_of_neg (by simpa using hlt)
  simp only [lineOf, ofText, String.toList_ofList, startsAfterFeeds_append, Nat.zero_add]
  rw [← List.cons_append, List.takeWhile_append_of_pos hbefore, hafter, List.append_nil,
    List.length_cons, length_startsAfterFeeds, Nat.add_sub_cancel]

/-- The line of a boundary: the line feeds before it. -/
theorem lineOf_boundary (pre post : List Char) :
    (ofText (String.ofList (pre ++ post))).lineOf (byteLength pre) = pre.count '\n' :=
  lineOf_of_lt (Nat.le_refl _) fun _ hm => (mem_startsAfterFeeds hm).1

/-- Whole lines end where the next line starts. -/
theorem lineStart_head (hhead : head = [] ∨ ∃ h, head = h ++ ['\n']) (post : List Char) :
    (ofText (String.ofList (head ++ post))).lineStart (head.count '\n') = byteLength head := by
  simp only [lineStart, ofText, String.toList_ofList, startsAfterFeeds_append, Nat.zero_add]
  obtain rfl | ⟨h, rfl⟩ := hhead
  · rfl
  · have hfeed : '\n'.utf8Size = 1 := by decide
    have hlast : startsAfterFeeds 0 (h ++ ['\n']) = startsAfterFeeds 0 h ++ [byteLength h + 1] := by
      simp [startsAfterFeeds_append, startsAfterFeeds, hfeed]
    have hlen : (h ++ ['\n']).count '\n' = (startsAfterFeeds 0 h).length + 1 := by
      simp [length_startsAfterFeeds]
    rw [hlast, hlen]
    simp [byteLength_append, byteLength, hfeed]

/-- **The position of a boundary**: the line feeds before it, and the units of what stands before it
on its line. -/
theorem position_boundary (hline : '\n' ∉ line) (hhead : head = [] ∨ ∃ h, head = h ++ ['\n'])
    (post : List Char) :
    (ofText (String.ofList (head ++ line ++ post))).position (byteLength (head ++ line)) =
      ⟨head.count '\n', unitLength line⟩ := by
  have hcount : (head ++ line).count '\n' = head.count '\n' := by
    rw [List.count_append, List.count_eq_zero.mpr hline, Nat.add_zero]
  have hstart := lineStart_head hhead (line ++ post)
  rw [← List.append_assoc] at hstart
  have hsize : (ofText (String.ofList (head ++ line ++ post))).size =
      byteLength head + byteLength line + byteLength post := by
    simp [size, ofText, byteLength_append, Nat.add_assoc]
  have htext : (ofText (String.ofList (head ++ line ++ post))).text = head ++ (line ++ post) := by
    simp [ofText]
  have hmin : min (byteLength (head ++ line)) (byteLength head + byteLength line + byteLength post) =
      byteLength (head ++ line) := by
    rw [byteLength_append]
    omega
  simp only [position, positionAt, hsize, hmin, lineOf_boundary, hcount, hstart, htext]
  have hstop : min (byteLength head + (byteLength (head ++ line) - byteLength head))
      (byteLength head + byteLength line + byteLength post) - byteLength head =
      byteLength line := by
    rw [byteLength_append]
    omega
  rw [hstop, dropBytes_byteLength, takeBytes_byteLength]

/-- The byte offset of a position. -/
def offsetOf (ix : LineIndex) (p : Position) : Nat :=
  ix.lineStart p.line + bytesOfUnits p.column (dropBytes (ix.lineStart p.line) ix.text)

/-- **A boundary can be told from its position.** -/
theorem offsetOf_position (pre post : List Char) :
    let ix := ofText (String.ofList (pre ++ post))
    ix.offsetOf (ix.position (byteLength pre)) = byteLength pre := by
  obtain ⟨head, line, rfl, hline, hhead⟩ := exists_lines pre
  have hstart := lineStart_head hhead (line ++ post)
  rw [← List.append_assoc] at hstart
  have htext : (ofText (String.ofList (head ++ line ++ post))).text = head ++ (line ++ post) := by
    simp [ofText]
  simp only [position_boundary hline hhead, offsetOf, hstart, htext]
  rw [dropBytes_byteLength, bytesOfUnits_unitLength, byteLength_append]

/-- The bytes of a range. -/
def spanOf (ix : LineIndex) (r : Range) : Span :=
  ⟨ix.offsetOf r.start, ix.offsetOf r.stop⟩

/-- **A stretch between boundaries can be told from its range.** -/
theorem spanOf_rangeOf (before text after : List Char) :
    let ix := ofText (String.ofList (before ++ text ++ after))
    let span : Span := ⟨byteLength before, byteLength before + byteLength text⟩
    ix.spanOf (ix.rangeOf span) = span := by
  have hstart := offsetOf_position before (text ++ after)
  have hstop := offsetOf_position (before ++ text) after
  rw [← List.append_assoc] at hstart
  rw [byteLength_append] at hstop
  simp only [spanOf, rangeOf, range, hstart, hstop]

end LineIndex

end DepScope.Text
