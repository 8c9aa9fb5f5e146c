import DepScope.Power
import DepScope.Proofs.Text.Position
import DepScope.Text.Units
import Mathlib.Data.List.DropRight

/-!
# DepScope.Proofs.Text.Boundary

Byte offsets of a text, and the positions they have.

1. A boundary (`IsBoundary`) is an offset between two characters, or at an end of the text. Its
   position counts the line feed bytes before it and the UTF-16 units behind the last of them;
   boundaries follow each other as their positions do, and can be told from them
   (`position_of_boundary`).
2. An offset inside a character has the position of the end of that character, and so never the
   position of its first byte (`position_inside`, `position_of_inner_byte`).
3. What stands at a span between boundaries is `slice`; a piece stands there if the text is what is
   before it, the piece, and what is after it (`StandsAt`).
-/

namespace DepScope.Text

variable {a b cs pre post piece : List Char} {c : Char} {m n k : Nat} {s : Span}

/-! ## Bytes -/

theorem length_encoded (cs : List Char) :
    (cs.flatMap String.utf8EncodeChar).length = byteLength cs := by
  induction cs with
  | nil => rfl
  | cons c cs ih => simp [byteLength, ih]

/-- All bytes of a character that takes several have their highest bit. -/
theorem le_of_mem_utf8EncodeChar {x : UInt8} (hc : 127 < c.val.toNat)
    (hx : x ∈ String.utf8EncodeChar c) : 128 ≤ x.toNat := by
  have hbyte {v : Nat} (hlow : 128 ≤ v) (hhigh : v < 256) (h : x = UInt8.ofNat v) :
      128 ≤ x.toNat := by
    rw [h, UInt8.toNat_ofNat', Nat.mod_eq_of_lt hhigh]
    exact hlow
  unfold String.utf8EncodeChar at hx
  dsimp only at hx
  rw [if_neg (by omega)] at hx
  split at hx
  · simp only [List.mem_cons, List.not_mem_nil, or_false] at hx
    obtain h | h := hx <;> exact hbyte (by omega) (by omega) h
  · split at hx
    · simp only [List.mem_cons, List.not_mem_nil, or_false] at hx
      obtain h | h | h := hx <;> exact hbyte (by omega) (by omega) h
    · simp only [List.mem_cons, List.not_mem_nil, or_false] at hx
      obtain h | h | h | h := hx <;> exact hbyte (by omega) (by omega) h

/-- Only a line feed is written with the byte of a line feed. -/
theorem feed_mem_utf8EncodeChar : 0x0A ∈ String.utf8EncodeChar c ↔ c = '\n' := by
  have hten : (0x0A : UInt8).toNat = 10 := rfl
  constructor
  · intro h
    have hlow : c.val.toNat ≤ 127 := by
      by_contra hhigh
      have hle := le_of_mem_utf8EncodeChar (by omega) h
      omega
    rw [String.utf8EncodeChar, if_pos hlow, List.mem_singleton] at h
    have hval := congrArg UInt8.toNat h
    rw [UInt8.toNat_ofNat', hten, Nat.mod_eq_of_lt (by omega)] at hval
    exact Char.toNat_inj.mp hval.symm
  · rintro rfl
    decide

theorem take_encode (pre post : List Char) :
    (encode (String.ofList (pre ++ post))).take (byteLength pre) =
      pre.flatMap String.utf8EncodeChar := by
  rw [encode, String.toList_ofList, List.flatMap_append, ← length_encoded, List.take_left]

/-- The line feed bytes of a text are its line feeds. -/
theorem count_feed_encoded (cs : List Char) :
    (cs.flatMap String.utf8EncodeChar).count 0x0A = cs.count '\n' := by
  induction cs with
  | nil => rfl
  | cons c cs ih =>
    rw [List.flatMap_cons, List.count_append, ih, List.count_cons, Nat.add_comm]
    by_cases hc : c = '\n'
    · subst hc
      rfl
    · rw [List.count_eq_zero.mpr fun h => hc (feed_mem_utf8EncodeChar.mp h)]
      simp [hc]

/-- The UTF-16 units of a text, counted. -/
theorem length_units (cs : List Char) : (cs.flatMap unitsOf).length = unitLength cs := by
  induction cs with
  | nil => rfl
  | cons c cs ih =>
    have hc : (unitsOf c).length = unitSize c := by
      simp only [unitsOf, unitSize]
      split <;> rfl
    rw [List.flatMap_cons, List.length_append, ih, hc, unitLength]

theorem byteLength_pos (h : cs ≠ []) : 0 < byteLength cs := by
  obtain ⟨c, cs, rfl⟩ := List.exists_cons_of_ne_nil h
  obtain ⟨n, hn, -⟩ := exists_byteLength_cons c cs
  omega

theorem unitLength_pos (h : cs ≠ []) : 0 < unitLength cs := by
  obtain ⟨c, cs, rfl⟩ := List.exists_cons_of_ne_nil h
  have hpos := unitSize_pos c
  rw [unitLength]
  omega

/-- A character has no more UTF-16 units than bytes. -/
theorem unitLength_le_byteLength (cs : List Char) : unitLength cs ≤ byteLength cs := by
  induction cs with
  | nil => rfl
  | cons c cs ih =>
    have hsize : unitSize c ≤ c.utf8Size := by
      have hpos := Char.utf8Size_pos c
      unfold unitSize
      split
      · omega
      · next h =>
        have hfour : c.utf8Size = 4 := by
          rw [Char.utf8Size_eq_four_iff]
          exact Nat.lt_of_not_le fun hle => h (Nat.lt_of_le_of_lt hle (by decide))
        omega
    rw [unitLength, byteLength]
    omega

theorem length_le_byteLength (cs : List Char) : cs.length ≤ byteLength cs := by
  induction cs with
  | nil => rfl
  | cons c cs ih =>
    have hpos := Char.utf8Size_pos c
    rw [List.length_cons, byteLength]
    omega

/-! ## The last line of a text -/

/-- What follows the last line feed. -/
def lastLine (cs : List Char) : List Char :=
  cs.rtakeWhile (· != '\n')

/-- The end of a list that satisfies a condition, behind an element that does not. -/
theorem rtakeWhile_append {α : Type} {p : α → Bool} {xs ys : List α} (hys : ∀ y ∈ ys, p y = true) :
    (xs ++ ys).rtakeWhile p = xs.rtakeWhile p ++ ys := by
  have hrev : ∀ y ∈ ys.reverse, p y = true := fun y hy => hys y (List.mem_reverse.mp hy)
  rw [List.rtakeWhile, List.reverse_append, List.takeWhile_append_of_pos hrev, List.reverse_append,
    List.reverse_reverse, List.rtakeWhile]

theorem lastLine_append (h : '\n' ∉ b) (a : List Char) : lastLine (a ++ b) = lastLine a ++ b := by
  refine rtakeWhile_append fun c hc => ?_
  have hne : c ≠ '\n' := fun heq => h (heq ▸ hc)
  simpa using hne

theorem lastLine_concat_feed (a : List Char) : lastLine (a ++ ['\n']) = [] :=
  List.rtakeWhile_concat_neg _ _ _ (by decide)

theorem lastLine_head (h : a = [] ∨ ∃ h, a = h ++ ['\n']) : lastLine a = [] := by
  obtain rfl | ⟨a, rfl⟩ := h
  · rfl
  · exact lastLine_concat_feed a

/-! ## Boundaries and slices -/

/-- An offset between two characters of a text, or at one of its ends. -/
def IsBoundary (cs : List Char) (n : Nat) : Prop :=
  ∃ pre post, cs = pre ++ post ∧ byteLength pre = n

/-- The characters between two offsets. -/
def slice (cs : List Char) (s : Span) : List Char :=
  takeBytes (s.stop - s.start) (dropBytes s.start cs)

/-- A piece of a text stands at a span. -/
def StandsAt (cs : List Char) (s : Span) (piece : List Char) : Prop :=
  ∃ before after, cs = before ++ piece ++ after ∧
    s = ⟨byteLength before, byteLength before + byteLength piece⟩

/-- Between two boundaries there is a piece of the text. -/
theorem IsBoundary.exists_standsAt (hm : IsBoundary cs m) (hn : IsBoundary cs n) (h : m ≤ n) :
    ∃ piece, StandsAt cs ⟨m, n⟩ piece := by
  obtain ⟨a, a', rfl, rfl⟩ := hm
  obtain ⟨b, b', hcut, rfl⟩ := hn
  obtain ⟨piece, rfl⟩ | ⟨more, rfl⟩ :=
    List.prefix_or_prefix_of_prefix ⟨a', rfl⟩ (hcut ▸ List.prefix_append b b' : b <+: a ++ a')
  · exact ⟨piece, a, b', hcut, by rw [byteLength_append]⟩
  · rw [byteLength_append] at h ⊢
    refine ⟨[], b ++ more, a', by simp, ?_⟩
    rw [byteLength_append, byteLength]
    congr 1
    omega

theorem StandsAt.isBoundary_start (h : StandsAt cs s piece) : IsBoundary cs s.start := by
  obtain ⟨before, after, rfl, rfl⟩ := h
  exact ⟨before, piece ++ after, by rw [List.append_assoc], rfl⟩

theorem StandsAt.isBoundary_stop (h : StandsAt cs s piece) : IsBoundary cs s.stop := by
  obtain ⟨before, after, rfl, rfl⟩ := h
  exact ⟨before ++ piece, after, rfl, byteLength_append before piece⟩

theorem StandsAt.slice_eq (h : StandsAt cs s piece) : slice cs s = piece := by
  obtain ⟨before, after, rfl, rfl⟩ := h
  rw [slice, List.append_assoc, dropBytes_byteLength, Nat.add_sub_cancel_left, takeBytes_byteLength]

theorem StandsAt.start_lt_stop (h : StandsAt cs s piece) (hne : piece ≠ []) : s.start < s.stop := by
  obtain ⟨before, after, -, rfl⟩ := h
  exact Nat.lt_add_of_pos_right (byteLength_pos hne)

/-- What stands before the end of a beginning. -/
theorem standsAt_beginning (pre post : List Char) : StandsAt (pre ++ post) ⟨0, byteLength pre⟩ pre :=
  ⟨[], post, rfl, by rw [byteLength, Nat.zero_add]⟩

/-- A piece of a piece. -/
theorem StandsAt.within (h : StandsAt cs s (a ++ piece ++ b)) :
    StandsAt cs ⟨s.start + byteLength a, s.start + byteLength a + byteLength piece⟩ piece := by
  obtain ⟨before, after, rfl, rfl⟩ := h
  exact ⟨before ++ a, b ++ after, by simp, by rw [byteLength_append before a]⟩

theorem StandsAt.rest (h : StandsAt cs s (a ++ piece)) :
    StandsAt cs ⟨s.start + byteLength a, s.start + byteLength a + byteLength piece⟩ piece :=
  StandsAt.within (b := []) (by simpa using h)

/-- The last line of a beginning stands before its end. -/
theorem standsAt_lastLine (pre post : List Char) :
    StandsAt (pre ++ post) ⟨byteLength pre - byteLength (lastLine pre), byteLength pre⟩
      (lastLine pre) := by
  obtain ⟨head, hhead⟩ : lastLine pre <:+ pre := List.rtakeWhile_suffix _ _
  have hbytes := byteLength_append head (lastLine pre)
  rw [hhead] at hbytes
  refine ⟨head, post, by rw [hhead], ?_⟩
  congr 1
  omega

/-! ## Positions of boundaries -/

/-- Positions follow each other line by line, and on one line by their columns. -/
instance : LT Position where
  lt p q := p.line < q.line ∨ p.line = q.line ∧ p.column < q.column

namespace LineIndex

@[simp] theorem size_ofText (cs : List Char) : (ofText (String.ofList cs)).size = byteLength cs := by
  simp [size, ofText]

theorem position_of_le {ix : LineIndex} (h : n ≤ ix.size) :
    ix.position n = ix.positionAt (ix.lineOf n) (n - ix.lineStart (ix.lineOf n)) := by
  rw [position, Nat.min_eq_left h]

/-- The position of the end of a beginning. -/
theorem position_byteLength (pre post : List Char) :
    (ofText (String.ofList (pre ++ post))).position (byteLength pre) =
      ⟨pre.count '\n', unitLength (lastLine pre)⟩ := by
  obtain ⟨head, line, rfl, hline, hhead⟩ := exists_lines pre
  rw [position_boundary hline hhead, lastLine_append hline, lastLine_head hhead, List.nil_append,
    List.count_append, List.count_eq_zero.mpr hline, Nat.add_zero]

/-- A position given by the number of a line and a part of it. -/
theorem positionAt_line {head line : List Char} (hline : '\n' ∉ line)
    (hhead : head = [] ∨ ∃ h, head = h ++ ['\n']) (post : List Char) :
    (ofText (String.ofList (head ++ line ++ post))).positionAt (head.count '\n') (byteLength line) =
      (ofText (String.ofList (head ++ line ++ post))).position (byteLength (head ++ line)) := by
  have hle : byteLength (head ++ line) ≤ (ofText (String.ofList (head ++ line ++ post))).size := by
    rw [size_ofText, byteLength_append _ post]
    exact Nat.le_add_right _ _
  have hstart := lineStart_head hhead (line ++ post)
  rw [← List.append_assoc] at hstart
  rw [position_of_le hle, lineOf_boundary, List.count_append, List.count_eq_zero.mpr hline,
    Nat.add_zero, hstart, byteLength_append, Nat.add_sub_cancel_left]

/-- **Later boundaries have later positions.** -/
theorem position_lt (hm : IsBoundary cs m) (hn : IsBoundary cs n) (h : m < n) :
    (ofText (String.ofList cs)).position m < (ofText (String.ofList cs)).position n := by
  obtain ⟨piece, pre, post, rfl, hspan⟩ := hm.exists_standsAt hn (Nat.le_of_lt h)
  obtain ⟨rfl, rfl⟩ := Span.mk.inj hspan
  have hne : piece ≠ [] := by
    rintro rfl
    exact Nat.lt_irrefl _ h
  have hstart := position_byteLength pre (piece ++ post)
  have hstop := position_byteLength (pre ++ piece) post
  rw [← List.append_assoc] at hstart
  rw [byteLength_append] at hstop
  rw [hstart, hstop, List.count_append]
  by_cases hfeed : '\n' ∈ piece
  · have hcount := List.count_pos_iff.mpr hfeed
    exact .inl (Nat.lt_add_of_pos_right hcount)
  · have hunits := unitLength_pos hne
    refine .inr ⟨?_, ?_⟩
    · rw [List.count_eq_zero.mpr hfeed, Nat.add_zero]
    · rw [lastLine_append hfeed, unitLength_append]
      exact Nat.lt_add_of_pos_right hunits

/-- The bytes of a text before a boundary, from the last line feed on. -/
theorem length_rtakeWhile_encoded (pre : List Char) :
    ((pre.flatMap String.utf8EncodeChar).rtakeWhile (· != 0x0A)).length =
      byteLength (lastLine pre) := by
  obtain ⟨head, line, rfl, hline, hhead⟩ := exists_lines pre
  have hbytes : ∀ x ∈ line.flatMap String.utf8EncodeChar, (x != 0x0A) = true := by
    intro x hx
    obtain ⟨c, hc, hxc⟩ := List.mem_flatMap.mp hx
    have hne : x ≠ 0x0A := by
      rintro rfl
      exact hline (feed_mem_utf8EncodeChar.mp hxc ▸ hc)
    simpa using hne
  have hlast : (head.flatMap String.utf8EncodeChar).rtakeWhile (· != 0x0A) = [] := by
    obtain rfl | ⟨h, rfl⟩ := hhead
    · rfl
    · rw [List.flatMap_append]
      exact List.rtakeWhile_concat_neg _ _ _ (by decide)
  rw [List.flatMap_append, rtakeWhile_append hbytes, hlast, List.nil_append, length_encoded,
    lastLine_append hline, lastLine_head hhead, List.nil_append]

/-- **Boundaries map exactly.** Of a text below 4 GiB, the position of a boundary has as its line the
number of line feed bytes before it, and as its column the number of UTF-16 units from the byte behind
the last of them on; both fit into 32 bits. It is the position on that line as many bytes behind its
start, the boundary can be told from it, and earlier boundaries have earlier positions. -/
theorem position_of_boundary {text : String} (hsize : byteLength text.toList < 2 ^ 32)
    (hn : IsBoundary text.toList n) :
    let ix := ofText text
    let before := (encode text).take n
    let start := n - (before.rtakeWhile (· != 0x0A)).length
    let p := ix.position n
    p.line = before.count 0x0A ∧
      p.column = ((slice text.toList ⟨start, n⟩).flatMap unitsOf).length ∧
      (p.line < 2 ^ 32 ∧ p.column < 2 ^ 32) ∧
      p = ix.positionAt p.line (n - ix.lineStart p.line) ∧
      ix.offsetOf p = n ∧
      ∀ m, IsBoundary text.toList m → m < n → ix.position m < p := by
  have hmono (m : Nat) (hm : IsBoundary text.toList m) (h : m < n) := position_lt hm hn h
  obtain ⟨pre, post, htext, rfl⟩ := hn
  obtain rfl : text = String.ofList (pre ++ post) := by rw [← htext, String.ofList_toList]
  rw [String.toList_ofList, byteLength_append] at hsize
  have hbefore := take_encode pre post
  have hposition := position_byteLength pre post
  have hlast := standsAt_lastLine pre post
  have hunits : unitLength (lastLine pre) ≤ byteLength pre := by
    have hbytes := unitLength_le_byteLength (lastLine pre)
    obtain ⟨head, hhead⟩ : lastLine pre <:+ pre := List.rtakeWhile_suffix _ _
    have hlength := congrArg byteLength hhead
    rw [byteLength_append] at hlength
    omega
  have hfeeds : pre.count '\n' ≤ byteLength pre :=
    Nat.le_trans List.count_le_length (length_le_byteLength pre)
  refine ⟨?_, ?_, ⟨?_, ?_⟩, ?_, offsetOf_position pre post, fun m hm h => ?_⟩
  · rw [hposition, hbefore, count_feed_encoded]
  · rw [hposition, hbefore, length_rtakeWhile_encoded, String.toList_ofList, hlast.slice_eq,
      length_units]
  · rw [hposition]
    dsimp only
    omega
  · rw [hposition]
    dsimp only
    omega
  · have hle : byteLength pre ≤ (ofText (String.ofList (pre ++ post))).size := by
      rw [size_ofText, byteLength_append]
      omega
    rw [position_of_le hle]
    rfl
  · rw [String.toList_ofList] at hmono hm
    exact hmono m hm h

/-- Behind an emoji, after a carriage return and an empty line. -/
theorem position_of_emoji :
    byteLength "é\r\n\n😀x".toList < 2 ^ 32 ∧ IsBoundary "é\r\n\n😀x".toList 9 ∧
      (ofText "é\r\n\n😀x").position 9 = ⟨2, 2⟩ ∧ (ofText "é\r\n\n😀x").offsetOf ⟨2, 2⟩ = 9 ∧
      (ofText "é\r\n\n😀x").position 4 < ⟨2, 2⟩ := by
  have hsize : byteLength "é\r\n\n😀x".toList < 2 ^ 32 := by decide
  have hboundary : IsBoundary "é\r\n\n😀x".toList 9 := ⟨"é\r\n\n😀".toList, "x".toList, rfl, rfl⟩
  have hbefore : IsBoundary "é\r\n\n😀x".toList 4 := ⟨"é\r\n".toList, "\n😀x".toList, rfl, rfl⟩
  have hposition : (ofText "é\r\n\n😀x").position 9 = ⟨2, 2⟩ := by decide
  obtain ⟨-, -, -, -, hback, hmono⟩ := position_of_boundary hsize hboundary
  rw [hposition] at hback hmono
  exact ⟨hsize, hboundary, hposition, hback, hmono 4 hbefore (by decide)⟩

/-! ## Offsets inside a character -/

theorem takeBytes_inside (hpos : 0 < k) (hk : k ≤ c.utf8Size) (a b : List Char) :
    takeBytes (byteLength a + k) (a ++ c :: b) = a ++ [c] := by
  induction a with
  | nil =>
    obtain ⟨k, rfl⟩ := Nat.exists_eq_succ_of_ne_zero (Nat.ne_of_gt hpos)
    have hrest : k + 1 - c.utf8Size = 0 := by omega
    rw [byteLength, Nat.zero_add, List.nil_append, takeBytes, hrest, takeBytes]
    rfl
  | cons d a ih =>
    obtain ⟨n, hsize, hrest⟩ := exists_byteLength_cons d a
    have hstep : n + 1 + k = n + k + 1 := by omega
    have htail : n + k + 1 - d.utf8Size = byteLength a + k := by
      rw [byteLength] at hsize
      omega
    rw [hsize, hstep, List.cons_append, takeBytes, htail, ih, List.cons_append]

theorem exists_of_mem_startsAfterFeeds {off : Nat} (h : n ∈ startsAfterFeeds off a) :
    ∃ pre post, a = pre ++ post ∧ off + byteLength pre = n := by
  induction a generalizing off with
  | nil => cases h
  | cons c a ih =>
    have hrest (h : n ∈ startsAfterFeeds (off + c.utf8Size) a) :
        ∃ pre post, c :: a = pre ++ post ∧ off + byteLength pre = n := by
      obtain ⟨pre, post, rfl, hn⟩ := ih h
      exact ⟨c :: pre, post, rfl, by rw [byteLength, ← hn, Nat.add_assoc]⟩
    simp only [startsAfterFeeds] at h
    split at h
    · obtain rfl | h := List.mem_cons.mp h
      · exact ⟨[c], a, rfl, by simp [byteLength]⟩
      · exact hrest h
    · exact hrest h

/-- Lines start at boundaries. -/
theorem isBoundary_lineStart (cs : List Char) (line : Nat) :
    IsBoundary cs ((ofText (String.ofList cs)).lineStart line) := by
  rw [lineStart]
  cases hstart : (ofText (String.ofList cs)).starts[line]? with
  | none => exact ⟨cs, [], by simp, by simp⟩
  | some n =>
    have hmem : n ∈ 0 :: startsAfterFeeds 0 cs := by
      simpa [ofText] using List.mem_of_getElem? hstart
    obtain rfl | hmem := List.mem_cons.mp hmem
    · exact ⟨[], cs, rfl, rfl⟩
    · obtain ⟨pre, post, hcut, hn⟩ := exists_of_mem_startsAfterFeeds hmem
      exact ⟨pre, post, hcut, by simpa using hn⟩

/-- A line that starts at or before a boundary starts at the end of some beginning of what is before
the boundary. -/
theorem exists_lineStart {line : Nat}
    (h : (ofText (String.ofList (pre ++ post))).lineStart line ≤ byteLength pre) :
    ∃ head mid, pre = head ++ mid ∧
      (ofText (String.ofList (pre ++ post))).lineStart line = byteLength head := by
  obtain ⟨mid, head, after, hcut, hspan⟩ :=
    (isBoundary_lineStart (pre ++ post) line).exists_standsAt ⟨pre, post, rfl, rfl⟩ h
  obtain ⟨hstart, hstop⟩ := Span.mk.inj hspan
  rw [← byteLength_append] at hstop
  refine ⟨head, mid, ?_, hstart⟩
  calc pre = takeBytes (byteLength pre) (pre ++ post) := (takeBytes_byteLength pre post).symm
    _ = head ++ mid := by rw [hcut, hstop, takeBytes_byteLength]

/-- The position a number of bytes behind the start of a line. -/
theorem positionAt_eq {head rest : List Char} {line bytes : Nat}
    (hstart : (ofText (String.ofList (head ++ rest))).lineStart line = byteLength head)
    (hbytes : bytes ≤ byteLength rest) :
    (ofText (String.ofList (head ++ rest))).positionAt line bytes =
      ⟨line, unitLength (takeBytes bytes rest)⟩ := by
  have hstop : min (byteLength head + bytes) (byteLength (head ++ rest)) - byteLength head = bytes := by
    rw [byteLength_append]
    omega
  have htext : (ofText (String.ofList (head ++ rest))).text = head ++ rest := by simp [ofText]
  rw [positionAt, hstart, size_ofText, hstop, htext, dropBytes_byteLength]

/-- **On a line, a part of a character counts as the whole of it.** -/
theorem positionAt_inside {line : Nat}
    (hline : (ofText (String.ofList (pre ++ c :: post))).lineStart line ≤ byteLength pre) :
    ∃ units, ∀ k ≤ c.utf8Size, (ofText (String.ofList (pre ++ c :: post))).positionAt line
        (byteLength pre - (ofText (String.ofList (pre ++ c :: post))).lineStart line + k) =
      ⟨line, units + if k = 0 then 0 else unitSize c⟩ := by
  obtain ⟨head, mid, rfl, hstart⟩ := exists_lineStart hline
  have hbytes : byteLength (head ++ mid) - byteLength head = byteLength mid := by
    rw [byteLength_append, Nat.add_sub_cancel_left]
  rw [hstart, hbytes]
  rw [List.append_assoc] at hstart ⊢
  refine ⟨unitLength mid, fun k hk => ?_⟩
  have hle : byteLength mid + k ≤ byteLength (mid ++ c :: post) := by
    rw [byteLength_append, byteLength]
    omega
  rw [positionAt_eq hstart hle]
  split
  · next hzero =>
    rw [hzero, Nat.add_zero, takeBytes_byteLength, Nat.add_zero]
  · next hpos =>
    rw [takeBytes_inside (Nat.pos_of_ne_zero hpos) hk, unitLength_append, unitLength, unitLength,
      Nat.add_zero]

/-- No line starts inside a character. -/
theorem lineOf_inside (hk : k < c.utf8Size) (pre post : List Char) :
    (ofText (String.ofList (pre ++ c :: post))).lineOf (byteLength pre + k) = pre.count '\n' := by
  refine lineOf_of_lt (Nat.le_add_right _ _) fun m hm => ?_
  simp only [startsAfterFeeds] at hm
  split at hm
  · obtain rfl | hm := List.mem_cons.mp hm
    · omega
    · have hlt := (mem_startsAfterFeeds hm).1
      omega
  · have hlt := (mem_startsAfterFeeds hm).1
    omega

/-- The line of a boundary starts at or before it. -/
theorem lineStart_count_le (pre post : List Char) :
    (ofText (String.ofList (pre ++ post))).lineStart (pre.count '\n') ≤ byteLength pre := by
  obtain ⟨head, line, rfl, hline, hhead⟩ := exists_lines pre
  rw [List.count_append, List.count_eq_zero.mpr hline, Nat.add_zero, List.append_assoc,
    lineStart_head hhead, byteLength_append]
  exact Nat.le_add_right _ _

/-- An offset in a character, or at its end, by its bytes on the line of the character. -/
theorem position_inside (hk : k ≤ c.utf8Size) (hc : c ≠ '\n' ∨ k < c.utf8Size) (pre post : List Char) :
    (ofText (String.ofList (pre ++ c :: post))).position (byteLength pre + k) =
      (ofText (String.ofList (pre ++ c :: post))).positionAt (pre.count '\n') (byteLength pre -
        (ofText (String.ofList (pre ++ c :: post))).lineStart (pre.count '\n') + k) := by
  have hline : (ofText (String.ofList (pre ++ c :: post))).lineOf (byteLength pre + k) =
      pre.count '\n' := by
    obtain hlt | rfl := Nat.lt_or_eq_of_le hk
    · exact lineOf_inside hlt pre post
    · have hfeed : c ≠ '\n' := hc.resolve_right (Nat.lt_irrefl _)
      have hend := lineOf_boundary (pre ++ [c]) post
      simpa [byteLength_append, byteLength, hfeed] using hend
  have hle : byteLength pre + k ≤ (ofText (String.ofList (pre ++ c :: post))).size := by
    rw [size_ofText, byteLength_append, byteLength]
    omega
  have hstart := lineStart_count_le pre (c :: post)
  rw [position_of_le hle, hline]
  congr 1
  omega

/-- Bytes behind the start of a line that end inside a character. -/
theorem positionAt_inner_byte {line : Nat}
    (hline : (ofText (String.ofList (pre ++ c :: post))).lineStart line ≤ byteLength pre)
    (hk : k < c.utf8Size) :
    let ix := ofText (String.ofList (pre ++ c :: post))
    let bytes := byteLength pre - ix.lineStart line
    (ix.positionAt line (bytes + k) = ix.positionAt line bytes ↔ k = 0) ∧
      (0 < k → ix.positionAt line (bytes + k) = ix.positionAt line (bytes + c.utf8Size)) := by
  have hunit := unitSize_pos c
  obtain ⟨units, hunits⟩ := positionAt_inside hline
  have hstart := hunits 0 (Nat.zero_le _)
  have hinside := hunits k (Nat.le_of_lt hk)
  have hstop := hunits c.utf8Size (Nat.le_refl _)
  rw [Nat.add_zero] at hstart
  dsimp only
  rw [hstart, hinside, hstop, if_neg (Nat.ne_of_gt (Char.utf8Size_pos c))]
  by_cases hzero : k = 0
  · simp [hzero]
  · simp [hzero, Nat.ne_of_gt hunit]

/-- **An offset inside a character lies behind it.** It has the position of the first byte of the
character only if it is that byte; otherwise it has the position of the end of the character. The same
goes for bytes behind the start of a line. -/
theorem position_of_inner_byte {text : String} (htext : text.toList = pre ++ c :: post)
    (hk : k < c.utf8Size) :
    let ix := ofText text
    let start := byteLength pre
    (ix.position (start + k) = ix.position start ↔ k = 0) ∧
      (0 < k → ix.position (start + k) = ix.position (start + c.utf8Size)) ∧
      ∀ line, ix.lineStart line ≤ start →
        let bytes := start - ix.lineStart line
        (ix.positionAt line (bytes + k) = ix.positionAt line bytes ↔ k = 0) ∧
          (0 < k → ix.positionAt line (bytes + k) = ix.positionAt line (bytes + c.utf8Size)) := by
  obtain rfl : text = String.ofList (pre ++ c :: post) := by rw [← htext, String.ofList_toList]
  have hsize := Char.utf8Size_pos c
  have hstart := position_inside (Nat.zero_le _) (.inr hsize) pre post
  have hinside := position_inside (Nat.le_of_lt hk) (.inr hk) pre post
  rw [Nat.add_zero, Nat.add_zero] at hstart
  obtain ⟨hiff, hforward⟩ := positionAt_inner_byte (lineStart_count_le pre (c :: post)) hk
  refine ⟨?_, fun hpos => ?_, fun line hline => positionAt_inner_byte hline hk⟩
  · rw [hstart, hinside, hiff]
  · have hfeed : c ≠ '\n' := by
      rintro rfl
      have hone : '\n'.utf8Size = 1 := rfl
      omega
    rw [hinside, position_inside (Nat.le_refl _) (.inl hfeed), hforward hpos]

/-- The second byte of a letter with two, at the start of the second line. -/
theorem position_of_second_byte :
    "a\né".toList = "a\n".toList ++ 'é' :: [] ∧ 1 < 'é'.utf8Size ∧
      (ofText "a\né").position 3 = (ofText "a\né").position 4 := by
  have htext : "a\né".toList = "a\n".toList ++ 'é' :: [] := rfl
  have hk : 1 < 'é'.utf8Size := by decide
  obtain ⟨-, hforward, -⟩ := position_of_inner_byte htext hk
  exact ⟨htext, hk, hforward (by decide)⟩

/-- The second byte of a letter does not have the position of its first byte, neither counted from the
start of the text nor from the start of the line. -/
theorem position_not_snapped_back :
    "é".toList = [] ++ 'é' :: [] ∧ 0 < 1 ∧ 1 < 'é'.utf8Size ∧
      (ofText "é").position 1 ≠ (ofText "é").position 0 ∧
      (ofText "é").positionAt 0 1 ≠ (ofText "é").positionAt 0 0 := by
  decide

end LineIndex

/-! ## Ranges -/

/-- A range is that of a span of the text, which is not empty and lies between boundaries. -/
structure Marks (text : String) (r : Range) (s : Span) : Prop where
  nonempty : s.start < s.stop
  start : IsBoundary text.toList s.start
  stop : IsBoundary text.toList s.stop
  range : (LineIndex.ofText text).rangeOf s = r

theorem StandsAt.marks {text : String} (h : StandsAt text.toList s piece) (hne : piece ≠ []) :
    Marks text ((LineIndex.ofText text).rangeOf s) s :=
  ⟨h.start_lt_stop hne, h.isBoundary_start, h.isBoundary_stop, rfl⟩

end DepScope.Text
