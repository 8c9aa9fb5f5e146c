import DepScope.Proofs.Json.Number
import DepScope.Proofs.Text.Digits

/-!
# DepScope.Proofs.Json.Word

Words that are written one after the other, without blanks, are read as the same words.

1. A string literal that was written by escaping is one word (`stringBody_escaped`), and its body
   stands for the text that was escaped (`decodeBody?_escaped`).
2. A number is one word as long as nothing follows that a number goes on with.
3. All other words are what they are, whatever follows.

`lex_words` puts them together. The places of the words are not looked at.
-/

namespace DepScope.Json

open Text

variable {cs rest : List Char}

/-! ## Strings -/

section Strings

variable {d : Dialect} {c e : Char} {ds : List Char} {u v fuel : Nat}

/-- A character that may stand in a string as it is. -/
def IsPlain (c : Char) : Prop :=
  0x20 ≤ c.toNat ∧ c ≠ '"' ∧ c ≠ '\\'

instance (c : Char) : Decidable (IsPlain c) :=
  inferInstanceAs (Decidable (_ ∧ _))

theorem isPlain_of_isAsciiAlnum (h : isAsciiAlnum c = true) : IsPlain c := by
  refine ⟨?_, ?_, ?_⟩
  · simp only [isAsciiAlnum, isAsciiLetter, isAsciiDigit, Bool.or_eq_true, Bool.and_eq_true,
      decide_eq_true_eq, Char.le_def] at h
    change (97 ≤ c.toNat ∧ c.toNat ≤ 122 ∨ 65 ≤ c.toNat ∧ c.toNat ≤ 90) ∨
      48 ≤ c.toNat ∧ c.toNat ≤ 57 at h
    omega
  · rintro rfl
    exact absurd h (by decide)
  · rintro rfl
    exact absurd h (by decide)

/-- Four digits that are read as a unit. -/
structure UnitDigits (u : Nat) (ds : List Char) : Prop where
  length : ds.length = 4
  value : natIn? 16 ds = some u

theorem unitDigits_hex4 (h : u < 0x10000) : UnitDigits u (hex4 u) :=
  ⟨length_hex4 h, natIn?_hex4 u⟩

theorem UnitDigits.plain (h : UnitDigits u ds) : ∀ c ∈ ds, IsPlain c := fun c hc =>
  isPlain_of_isAsciiAlnum (isAsciiAlnum_of_natIn? h.value c hc)

theorem UnitDigits.hexUnit?_append (h : UnitDigits u ds) (cs : List Char) :
    hexUnit? (ds ++ cs) = some (u, cs) := by
  obtain ⟨hlen, hval⟩ := h
  match ds, hlen, hval with
  | [a, b, c, d], _, hval => simp [hexUnit?, hval]

/-- How a character is written: with a one-letter escape, by its number, or as it is. -/
theorem escapeChar_cases (c : Char) :
    (∃ e, escapeChar c = ['\\', e] ∧ e ≠ 'u' ∧ shortEscape? e = some c) ∨
    (c.toNat < 0x20 ∧ escapeChar c = '\\' :: 'u' :: hex4 c.toNat) ∨
    (escapeChar c = [c] ∧ IsPlain c) := by
  unfold escapeChar
  split
  · exact .inl ⟨'"', rfl, by decide, rfl⟩
  · exact .inl ⟨'\\', rfl, by decide, rfl⟩
  · exact .inl ⟨'b', rfl, by decide, rfl⟩
  · exact .inl ⟨'f', rfl, by decide, rfl⟩
  · exact .inl ⟨'n', rfl, by decide, rfl⟩
  · exact .inl ⟨'r', rfl, by decide, rfl⟩
  · exact .inl ⟨'t', rfl, by decide, rfl⟩
  · next hquote hslash _ _ _ _ _ =>
    split
    · next hlt => exact .inr (.inl ⟨hlt, rfl⟩)
    · next hge => exact .inr (.inr ⟨rfl, by omega, hquote, hslash⟩)

/-- A plain character belongs to the body. -/
theorem stringBody_plain (h : IsPlain c) :
    stringBody d .text (c :: cs) = (stringBody d .text cs).map (c :: ·) := by
  obtain ⟨hge, hquote, hslash⟩ := h
  have hchar : isStringChar d c = true := by
    cases d with
    | strict => simpa [isStringChar] using hge
    | lenient =>
      have hfeed : c ≠ '\n' := by
        rintro rfl
        exact absurd hge (by decide)
      have hnul : c ≠ '\x00' := by
        rintro rfl
        exact absurd hge (by decide)
      simp [isStringChar, hfeed, hnul]
  rw [stringBody]
  · simp [hquote, hslash, hchar]
  · exact fun _ _ h => absurd h hslash

theorem stringBody_plains (h : ∀ c ∈ ds, IsPlain c) :
    stringBody d .text (ds ++ cs) = (stringBody d .text cs).map (ds ++ ·) := by
  induction ds with
  | nil => simp
  | cons c ds ih =>
    obtain ⟨hc, hds⟩ := List.forall_mem_cons.mp h
    rw [List.cons_append, stringBody_plain hc, ih hds, Option.map_map]
    rfl

/-- A one-letter escape belongs to the body. -/
theorem stringBody_short (he : shortEscape? e = some c) (hu : e ≠ 'u') :
    stringBody d .text ('\\' :: e :: cs) = (stringBody d .text cs).map (['\\', e] ++ ·) := by
  have hesc : isEscape d (e :: cs) = true := by
    unfold isEscape
    split
    · next heq =>
      cases heq
      exact absurd rfl hu
    · next heq =>
      cases heq
      simp [he]
    · next heq => cases heq
  rw [stringBody, if_pos hesc]
  rfl

/-- An escape by number belongs to the body. -/
theorem stringBody_unit (h : UnitDigits u ds) :
    stringBody d .text ('\\' :: 'u' :: ds ++ cs) =
      (stringBody d .text cs).map ('\\' :: 'u' :: ds ++ ·) := by
  have hesc : isEscape d ('u' :: (ds ++ cs)) = true := by
    simp [isEscape, h.hexUnit?_append]
  rw [List.cons_append, List.cons_append, stringBody, if_pos hesc, stringBody_plains h.plain,
    Option.map_map]
  rfl

/-- A written character belongs to the body. -/
theorem stringBody_escapeChar (c : Char) (cs : List Char) :
    stringBody .strict .text (escapeChar c ++ cs) =
      (stringBody .strict .text cs).map (escapeChar c ++ ·) := by
  obtain ⟨e, he, hu, hs⟩ | ⟨hlt, he⟩ | ⟨he, hplain⟩ := escapeChar_cases c <;> rw [he]
  · exact stringBody_short hs hu
  · exact stringBody_unit (unitDigits_hex4 (Nat.lt_trans hlt (by decide)))
  · exact stringBody_plain hplain

/-- **A written string ends at its quote.** -/
theorem stringBody_escaped (s : List Char) (rest : List Char) :
    stringBody .strict .text (s.flatMap escapeChar ++ '"' :: rest) =
      some (s.flatMap escapeChar) := by
  induction s with
  | nil => simp [stringBody]
  | cons c s ih =>
    rw [List.flatMap_cons, List.append_assoc, stringBody_escapeChar, ih]
    rfl

/-- The unit of a character of its own stands for that character. -/
theorem unicodeEscape?_unit (h : UnitDigits u ds) (hlow : isLowSurrogate u = false)
    (hhigh : isHighSurrogate u = false) (cs : List Char) :
    unicodeEscape? (ds ++ cs) = some (Char.ofNat u, cs) := by
  simp [unicodeEscape?, h.hexUnit?_append, hlow, hhigh]

theorem readBody_plain (h : IsPlain c) :
    readBody (fuel + 1) (c :: cs) = (readBody fuel cs).map (c :: ·) := by
  obtain ⟨hge, hquote, hslash⟩ := h
  have hlt : ¬c.toNat < 0x20 := by omega
  rw [readBody.eq_def]
  cases hb : readBody fuel cs <;> simp [hslash, hquote, hlt, hb]

theorem readBody_short (he : shortEscape? e = some c) (hu : e ≠ 'u') :
    readBody (fuel + 1) ('\\' :: e :: cs) = (readBody fuel cs).map (c :: ·) := by
  cases hb : readBody fuel cs <;> simp [readBody, he, hb]

theorem readBody_unicode (h : unicodeEscape? ds = some (c, cs)) :
    readBody (fuel + 1) ('\\' :: 'u' :: ds) = (readBody fuel cs).map (c :: ·) := by
  cases hb : readBody fuel cs <;> simp [readBody, h, hb]

theorem readBody_escapeChar (fuel : Nat) (c : Char) (cs : List Char) :
    readBody (fuel + 1) (escapeChar c ++ cs) = (readBody fuel cs).map (c :: ·) := by
  obtain ⟨e, he, hu, hs⟩ | ⟨hlt, he⟩ | ⟨he, hplain⟩ := escapeChar_cases c <;> rw [he]
  · exact readBody_short hs hu
  · have hlow : isLowSurrogate c.toNat = false := by
      simp only [isLowSurrogate, Bool.and_eq_false_iff, decide_eq_false_iff_not]
      omega
    have hhigh : isHighSurrogate c.toNat = false := by
      simp only [isHighSurrogate, Bool.and_eq_false_iff, decide_eq_false_iff_not]
      omega
    have hunit := unitDigits_hex4 (Nat.lt_trans hlt (by decide))
    have hescape := unicodeEscape?_unit hunit hlow hhigh cs
    rw [Char.ofNat_toNat] at hescape
    exact readBody_unicode hescape
  · exact readBody_plain hplain

theorem readBody_escaped {fuel : Nat} {s : List Char} (h : s.length ≤ fuel) :
    readBody fuel (s.flatMap escapeChar) = some s := by
  induction s generalizing fuel with
  | nil => simp [readBody]
  | cons c s ih =>
    cases fuel with
    | zero => simp at h
    | succ fuel =>
      rw [List.flatMap_cons, readBody_escapeChar, ih (by simpa using h)]
      rfl

theorem length_le_escaped (s : List Char) : s.length ≤ (s.flatMap escapeChar).length := by
  induction s with
  | nil => simp
  | cons c s ih =>
    have hpos : 0 < (escapeChar c).length := by
      obtain ⟨e, he, -⟩ | ⟨-, he⟩ | ⟨he, -⟩ := escapeChar_cases c <;> simp [he]
    rw [List.flatMap_cons, List.length_append, List.length_cons]
    omega

/-- **A written string stands for the text that was written.** -/
theorem decodeBody?_escaped (s : String) :
    decodeBody? (s.toList.flatMap escapeChar) = some s := by
  rw [decodeBody?, readBody_escaped (length_le_escaped _), Option.map_some, String.ofList_toList]

end Strings

/-! ## Words -/

/-- A word as it is written. -/
def Mark.word : Mark → List Char
  | openBrace => ['\x7b']
  | closeBrace => ['\x7d']
  | openBracket => ['[']
  | closeBracket => [']']
  | colon => [':']
  | comma => [',']
  | string body => '"' :: (body ++ ['"'])
  | number text => text
  | true => "true".toList
  | false => "false".toList
  | null => "null".toList

/-- Words one after the other. -/
def wordsText (ms : List Mark) : List Char :=
  ms.flatMap Mark.word

/-- Can a word be told from what follows it? -/
def Mark.Apart (d : Dialect) (m : Mark) (rest : List Char) : Prop :=
  match m with
  | string body => ∀ rest, stringBody d .text (body ++ '"' :: rest) = some body
  | number text => IsNumber text ∧ d.TakesSigns text ∧ Stops rest
  | _ => True

/-- Can each of several words be told from what follows it? -/
def Legible : List Mark → Prop
  | [] => True
  | m :: ms => m.Apart .strict (wordsText ms) ∧ Legible ms

variable {d : Dialect} {m : Mark}

/-- A number starts with none of the characters that other words or blanks start with. -/
theorem IsNumber.head_ne (h : IsNumber cs) :
    ∃ c more, cs = c :: more ∧ ∀ d, isAsciiDigit d = false → d ≠ '-' → c ≠ d := by
  obtain ⟨c, more, rfl, hc⟩ := h.exists_cons
  refine ⟨c, more, rfl, ?_⟩
  rintro d hd hminus rfl
  obtain hc | hc := hc
  · rw [hd] at hc
    cases hc
  · exact hminus hc

/-- Neither a digit nor a sign is blank. -/
theorem isGap_of_isDigit_or_minus {c : Char} (h : isAsciiDigit c = true ∨ c = '-') :
    isGap d c = false := by
  have hgap : ∀ n < 58, (48 ≤ n ∨ n = 45) → ∀ d, isGap d (Char.ofNat n) = false := by
    intro n hn hr d
    cases d <;> revert n <;> decide
  have hc : c.toNat < 58 ∧ (48 ≤ c.toNat ∨ c.toNat = 45) := by
    obtain hd | rfl := h
    · simp only [isAsciiDigit, Bool.and_eq_true, decide_eq_true_eq, Char.le_def] at hd
      change 48 ≤ c.toNat ∧ c.toNat ≤ 57 at hd
      omega
    · decide
  have h := hgap c.toNat hc.1 hc.2 d
  rwa [Char.ofNat_toNat] at h

/-- A word starts with a character that is neither blank nor starts a comment or a text. -/
theorem Mark.Apart.exists_cons (h : m.Apart d rest) :
    ∃ c cs, m.word = c :: cs ∧ isGap d c = Bool.false ∧ c ≠ '/' ∧ c ≠ '\uFEFF' := by
  cases m with
  | string body => exact ⟨'"', _, rfl, by cases d <;> decide, by decide, by decide⟩
  | number text =>
    obtain ⟨c, cs, rfl, hc⟩ := h.1.exists_cons
    refine ⟨c, cs, rfl, isGap_of_isDigit_or_minus hc, ?_, ?_⟩ <;> rintro rfl <;>
      exact absurd hc (by decide)
  | _ => exact ⟨_, _, rfl, by cases d <;> decide, by decide, by decide⟩

theorem wordAt?_number (h : IsNumber cs) (hd : d.TakesSigns cs) (hr : Stops rest) :
    wordAt? d (cs ++ rest) = some (.number cs, cs.length) := by
  have htext := numberText?_append h hd hr
  obtain ⟨c, more, rfl, hne⟩ := h.head_ne
  rw [List.cons_append] at htext ⊢
  have ht := hne 't' (by decide) (by decide)
  have hf := hne 'f' (by decide) (by decide)
  have hn := hne 'n' (by decide) (by decide)
  unfold wordAt?
  split
  -- the words of one character, and strings
  iterate 7
    · next heq =>
      cases heq
      exact absurd rfl (hne _ (by decide) (by decide))
  · simp [hasPrefix, afterPrefix?, ht.symm, hf.symm, hn.symm, htext]

theorem wordAt?_word (h : m.Apart d rest) :
    wordAt? d (m.word ++ rest) = some (m, m.word.length) := by
  cases m with
  | string body => simp [Mark.word, wordAt?, h rest]
  | number text => exact wordAt?_number h.1 h.2.1 h.2.2
  | _ => simp [Mark.word, wordAt?, hasPrefix, afterPrefix?]

theorem commentLength?_of_ne {c : Char} (h : c ≠ '/') (cs : List Char) :
    commentLength? (c :: cs) = none := by
  unfold commentLength?
  split
  · next heq =>
    cases heq
    exact absurd rfl h
  · next heq =>
    cases heq
    exact absurd rfl h
  · rfl

/-- One step reads one word. -/
theorem lex_word (h : m.Apart d rest) (fuel off : Nat) :
    lex d (fuel + 1) off (m.word ++ rest) =
      (lex d fuel (off + byteLength m.word) rest).map
        (⟨m, off, off + byteLength m.word⟩ :: ·) := by
  have hat := wordAt?_word h
  have htake : (m.word ++ rest).take m.word.length = m.word := List.take_left
  have hdrop : (m.word ++ rest).drop m.word.length = rest := List.drop_left
  obtain ⟨c, cs, hword, hgap, hslash, -⟩ := h.exists_cons
  generalize hw : m.word = w at *
  subst hword
  rw [List.cons_append] at *
  have hcomment : (if d = .lenient then commentLength? (c :: (cs ++ rest)) else none) = none := by
    rw [commentLength?_of_ne hslash, ite_self]
  rw [lex, if_neg (by simp [hgap])]
  simp only [hat, hcomment, Option.bind_eq_bind, Option.bind_some, htake, hdrop]
  cases lex d fuel (off + byteLength (c :: cs)) rest <;> rfl

/-- **Words that can be told apart are read as they were written.** -/
theorem lex_words {ms : List Mark} (h : Legible ms) {fuel : Nat}
    (hfuel : (wordsText ms).length ≤ fuel) (off : Nat) :
    ∃ ts, lex .strict fuel off (wordsText ms) = some ts ∧ ts.map (·.mark) = ms := by
  induction ms generalizing fuel off with
  | nil => exact ⟨[], by simp [wordsText, lex], rfl⟩
  | cons m ms ih =>
    obtain ⟨hm, hms⟩ := h
    have htext : wordsText (m :: ms) = m.word ++ wordsText ms := List.flatMap_cons
    obtain ⟨c, cs, hword, -⟩ := hm.exists_cons
    rw [htext, List.length_append, hword, List.length_cons] at hfuel
    cases fuel with
    | zero => omega
    | succ fuel =>
      have hrest : (wordsText ms).length ≤ fuel := by omega
      obtain ⟨ts, hts, hmarks⟩ := ih hms hrest (off + byteLength m.word)
      refine ⟨⟨m, off, off + byteLength m.word⟩ :: ts, ?_, by rw [List.map_cons, hmarks]⟩
      rw [htext, lex_word hm, hts]
      rfl

end DepScope.Json
