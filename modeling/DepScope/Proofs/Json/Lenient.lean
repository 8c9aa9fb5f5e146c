import DepScope.Proofs.Json.Spelling
import DepScope.Proofs.Text.Units

/-!
# DepScope.Proofs.Json.Lenient

The words of a document that people write are its words, at the offsets where they stand (`lex_pieces`),
however it is spelled.

1. A string literal ends at its quote and stands for its text, whichever way each character is written
   (`stringBody_spellsText`, `decodeBody?_literal`).
2. Blanks and comments are passed over (`lex_filler`), unless a comment holds a NUL.
3. A number is followed by something that no number goes on with (`told_pieces`).
-/

namespace DepScope.Json

open Text

/-! ## Strings -/

section Strings

variable {d : Dialect} {c e : Char} {word s body ds : List Char} {u fuel : Nat}

theorem shortEscape?_of_mem (h : (e, c) ∈ shortForms) : shortEscape? e = some c ∧ e ≠ 'u' := by
  have hall : ∀ x ∈ shortForms, shortEscape? x.1 = some x.2 ∧ x.1 ≠ 'u' := by decide
  exact hall _ h

theorem unitDigits_of_lower (h : ds.map lowerAscii = hex4 u) (hu : u < 0x10000) :
    UnitDigits u ds where
  length := by rw [← length_hex4 hu, ← h, List.length_map]
  value := by rw [← natIn?_map_lowerAscii, h, natIn?_hex4]

/-- The ways to write a character, with the numbers in place of the digits. -/
theorem Spells.cases (h : Spells c word) :
    (word = [c] ∧ IsPlain c) ∨
    (∃ e, word = ['\\', e] ∧ shortEscape? e = some c ∧ e ≠ 'u') ∨
    (∃ ds, word = '\\' :: 'u' :: ds ∧ UnitDigits c.toNat ds ∧ isHighSurrogate c.toNat = false ∧
      isLowSurrogate c.toNat = false) ∨
    (∃ high low hs ls, word = '\\' :: 'u' :: hs ++ '\\' :: 'u' :: ls ∧ UnitDigits high hs ∧
      UnitDigits low ls ∧ isHighSurrogate high = true ∧ isLowSurrogate high = false ∧
      isLowSurrogate low = true ∧ joinSurrogates high low = c) := by
  cases h with
  | plain hge hquote hslash => exact .inl ⟨rfl, hge, hquote, hslash⟩
  | short he => exact .inr (.inl ⟨_, rfl, shortEscape?_of_mem he⟩)
  | units dss hdss =>
    obtain ⟨hu, hlt, hhigh, hlow⟩ | ⟨high, low, hu, hh, hl, hhigh, hne, hlow, hjoin⟩ :=
      unitsOf_cases c <;> rw [hu] at hdss
    · obtain ⟨ds, rest, rfl, hds, hrest⟩ := List.map_eq_cons_iff.mp hdss
      obtain rfl := List.map_eq_nil_iff.mp hrest
      exact .inr (.inr (.inl ⟨ds, by simp, unitDigits_of_lower hds hlt, hhigh, hlow⟩))
    · obtain ⟨hs, rest, rfl, hhs, hrest⟩ := List.map_eq_cons_iff.mp hdss
      obtain ⟨ls, rest, rfl, hls, hrest⟩ := List.map_eq_cons_iff.mp hrest
      obtain rfl := List.map_eq_nil_iff.mp hrest
      exact .inr (.inr (.inr ⟨high, low, hs, ls, by simp, unitDigits_of_lower hhs hh,
        unitDigits_of_lower hls hl, hhigh, hne, hlow, hjoin⟩))

/-- A written character belongs to the body. -/
theorem stringBody_spells (h : Spells c word) (cs : List Char) :
    stringBody d .text (word ++ cs) = (stringBody d .text cs).map (word ++ ·) := by
  obtain ⟨rfl, hplain⟩ | ⟨e, rfl, he, hu⟩ | ⟨ds, rfl, hds, -, -⟩ |
    ⟨high, low, hs, ls, rfl, hhs, hls, -, -, -, -⟩ := h.cases
  · exact stringBody_plain hplain
  · exact stringBody_short he hu
  · exact stringBody_unit hds
  · rw [List.append_assoc, stringBody_unit hhs, stringBody_unit hls, Option.map_map]
    simp [Function.comp_def]

/-- A pair of halves stands for the character they are put together to. -/
theorem unicodeEscape?_pair {high low : Nat} {hs ls : List Char} (hhs : UnitDigits high hs)
    (hls : UnitDigits low ls) (hhigh : isHighSurrogate high = true)
    (hne : isLowSurrogate high = false) (hlow : isLowSurrogate low = true) (cs : List Char) :
    unicodeEscape? (hs ++ '\\' :: 'u' :: (ls ++ cs)) = some (joinSurrogates high low, cs) := by
  simp [unicodeEscape?, hhs.hexUnit?_append, hls.hexUnit?_append, hhigh, hne, hlow]

/-- A written character stands for itself. -/
theorem readBody_spells (h : Spells c word) (cs : List Char) :
    readBody (fuel + 1) (word ++ cs) = (readBody fuel cs).map (c :: ·) := by
  obtain ⟨rfl, hplain⟩ | ⟨e, rfl, he, hu⟩ | ⟨ds, rfl, hds, hhigh, hlow⟩ |
    ⟨high, low, hs, ls, rfl, hhs, hls, hhigh, hne, hlow, hjoin⟩ := h.cases
  · exact readBody_plain hplain
  · exact readBody_short he hu
  · have hescape := unicodeEscape?_unit hds hlow hhigh cs
    rw [Char.ofNat_toNat] at hescape
    exact readBody_unicode hescape
  · have hescape := unicodeEscape?_pair hhs hls hhigh hne hlow cs
    rw [hjoin] at hescape
    rw [List.append_assoc]
    exact readBody_unicode hescape

theorem Spells.length_pos (h : Spells c word) : 0 < word.length := by
  obtain ⟨rfl, -⟩ | ⟨e, rfl, -⟩ | ⟨ds, rfl, -⟩ | ⟨_, _, _, _, rfl, -⟩ := h.cases <;> simp

theorem stringBody_spellsText (h : SpellsText s body) (rest : List Char) :
    stringBody d .text (body ++ '"' :: rest) = some body := by
  induction h with
  | nil => simp [stringBody]
  | cons hc _ ih =>
    rw [List.append_assoc, stringBody_spells hc, ih]
    rfl

theorem readBody_spellsText (h : SpellsText s body) (hfuel : body.length ≤ fuel) :
    readBody fuel body = some s := by
  induction h generalizing fuel with
  | nil => simp [readBody]
  | @cons c word s body hc _ ih =>
    have hpos := hc.length_pos
    rw [List.length_append] at hfuel
    cases fuel with
    | zero => omega
    | succ fuel =>
      rw [readBody_spells hc, ih (by omega)]
      rfl

/-- **A literal stands for its text**, however it is written. -/
theorem decodeBody?_literal (l : Literal) : decodeBody? l.body = some l.text := by
  rw [decodeBody?, readBody_spellsText l.spelled (Nat.le_refl _), Option.map_some,
    String.ofList_toList]

end Strings

/-! ## Blanks and comments -/

section Fillers

variable {body rest : List Char} {fuel off : Nat}

theorem lex_blank {c : Char} (h : isAsciiBlank c = true) :
    lex .lenient (fuel + 1) off (c :: rest) = lex .lenient fuel (off + c.utf8Size) rest := by
  rw [lex, if_pos (show isGap .lenient c = true from h)]

theorem isGap_slash : isGap .lenient '/' = false := by decide

/-- A comment of a known length is passed over. -/
theorem lex_comment {word : List Char}
    (h : commentLength? ('/' :: word ++ rest) = some (some ('/' :: word).length))
    (fuel off : Nat) :
    lex .lenient (fuel + 1) off ('/' :: word ++ rest) =
      lex .lenient fuel (off + byteLength ('/' :: word)) rest := by
  rw [List.cons_append] at h ⊢
  rw [lex, if_neg (by simp [isGap_slash])]
  simp only [if_true, h]
  rw [← List.cons_append, List.take_left, List.drop_left]

/-- A comment to the end of its line goes up to the line feed. -/
theorem commentLength?_line (hline : '\n' ∉ body) (hnul : '\x00' ∉ body) (rest : List Char)
    (hrest : ∀ c ∈ rest.head?, c = '\n') :
    commentLength? ('/' :: '/' :: body ++ rest) = some (some ('/' :: '/' :: body).length) := by
  have hbody : ∀ c ∈ body, (c != '\n' && c != '\x00') = true := by
    intro c hc
    have hfeed : c ≠ '\n' := fun h => hline (h ▸ hc)
    have hzero : c ≠ '\x00' := fun h => hnul (h ▸ hc)
    simp [hfeed, hzero]
  have htake : (body ++ rest).takeWhile (fun c => c != '\n' && c != '\x00') = body := by
    rw [List.takeWhile_append_of_pos hbody]
    cases rest with
    | nil => simp
    | cons c rest =>
      obtain rfl := hrest c rfl
      simp
  have hlen : ('/' :: '/' :: body).length = 2 + body.length := by
    simp only [List.length_cons]
    omega
  rw [List.cons_append, List.cons_append, commentLength?, htake, hlen]

/-- A comment between marks goes up to the first closing mark. -/
theorem blockLength_append (hclose : ¬['*', '/'] <:+: body) (hnul : '\x00' ∉ body)
    (rest : List Char) :
    commentLength?.blockLength (body ++ '*' :: '/' :: rest) = some (body.length + 2) := by
  induction body with
  | nil => rfl
  | cons c body ih =>
    have hc : c ≠ '\x00' := fun h => hnul (h ▸ List.mem_cons_self)
    have hrest := ih (fun h => hclose (h.trans (List.suffix_cons c body).isInfix))
      fun h => hnul (List.mem_cons_of_mem c h)
    rw [List.cons_append, commentLength?.blockLength.eq_def]
    split
    · next heq => simp at heq
    · next heq =>
      -- a mark that closes here would close the comment before its end
      obtain ⟨hstar, hslash⟩ := List.cons.inj heq
      cases body with
      | nil => simp at hslash
      | cons c' body =>
        obtain ⟨rfl, -⟩ := List.cons.inj hslash
        exact absurd (hstar ▸ (List.prefix_append ['*', '/'] body).isInfix) hclose
    · next heq =>
      obtain ⟨rfl, rfl⟩ := List.cons.inj heq
      rw [if_neg hc, hrest]
      simp [Nat.add_right_comm]

theorem commentLength?_block (hclose : ¬['*', '/'] <:+: body) (hnul : '\x00' ∉ body) :
    commentLength? ('/' :: '*' :: (body ++ ['*', '/']) ++ rest) =
      some (some ('/' :: '*' :: (body ++ ['*', '/'])).length) := by
  have hlen := blockLength_append hclose hnul rest
  rw [List.cons_append, List.cons_append, List.append_assoc]
  simp only [commentLength?, List.cons_append, List.nil_append, hlen]
  simp

/-- **Blanks and comments are passed over**, in at most as many steps as they have characters. -/
theorem lex_filler (f : Filler) (hnul : '\x00' ∉ f.text) (off : Nat) (rest : List Char) :
    ∃ steps, 0 < steps ∧ steps ≤ f.text.length ∧ ∀ fuel,
      lex .lenient (fuel + steps) off (f.text ++ rest) =
        lex .lenient fuel (off + byteLength f.text) rest := by
  cases f with
  | blank c h =>
    refine ⟨1, by decide, by simp [Filler.text], fun fuel => ?_⟩
    simp only [Filler.text, List.cons_append, List.nil_append, lex_blank h, byteLength,
      Nat.add_zero]
  | line body h =>
    -- the comment is one step, and its line feed another
    refine ⟨2, by decide, by simp [Filler.text], fun fuel => ?_⟩
    have hbody : '\x00' ∉ body := fun hmem => hnul (by simp [Filler.text, hmem])
    have htext : Filler.text (.line body h) ++ rest = '/' :: '/' :: body ++ '\n' :: rest := by
      simp [Filler.text]
    have hsize : byteLength (Filler.text (.line body h)) =
        byteLength ('/' :: '/' :: body) + '\n'.utf8Size := by
      simp only [Filler.text, ← List.cons_append, byteLength_append, byteLength, Nat.add_zero]
    have hlen := commentLength?_line h hbody ('\n' :: rest) (by simp)
    rw [htext, lex_comment hlen, lex_blank (by decide), hsize, Nat.add_assoc]
  | block body h =>
    refine ⟨1, by decide, by simp [Filler.text], fun fuel => ?_⟩
    have hbody : '\x00' ∉ body := fun hmem => hnul (by simp [Filler.text, hmem])
    exact lex_comment (commentLength?_block h hbody) fuel off

end Fillers

/-! ## Words with their places -/

/-- The words among pieces, each with its place. -/
def located (off : Nat) : List Piece → List Token
  | [] => []
  | .filler f :: ps => located (off + byteLength f.text) ps
  | .word m :: ps =>
    ⟨m, off, off + byteLength m.word⟩ :: located (off + byteLength m.word) ps

/-- Is each word of its kind, and can each number be told from what follows it? -/
def Told (tail : List Char) : List Piece → Prop
  | [] => True
  | .word (.number n) :: ps => IsNumber n ∧ Stops (textOf ps ++ tail) ∧ Told tail ps
  | .word (.string body) :: ps => (∃ s, SpellsText s body) ∧ Told tail ps
  | _ :: ps => Told tail ps

section Pieces

variable {tail : List Char} {ps : List Piece} {m : Mark}

theorem Told.of_cons {p : Piece} (h : Told tail (p :: ps)) : Told tail ps := by
  unfold Told at h
  split at h
  · next heq => cases heq
  · next heq =>
    cases heq
    exact h.2.2
  · next heq =>
    cases heq
    exact h.2
  · next heq =>
    cases heq
    exact h

theorem Told.apart (h : Told tail (.word m :: ps)) (hplus : ∀ n, m = .number n → '+' ∉ n) :
    m.Apart .lenient (textOf ps ++ tail) := by
  cases m with
  | number n => exact ⟨h.1, fun _ => hplus n rfl, h.2.1⟩
  | string body =>
    obtain ⟨⟨s, hs⟩, -⟩ := h
    exact stringBody_spellsText hs
  | _ => trivial

/-- **The words of a text are its words**, at the offsets where they stand. -/
theorem lex_pieces (htold : Told tail ps) (hnul : '\x00' ∉ textOf ps)
    (hplus : ∀ n, .word (.number n) ∈ ps → '+' ∉ n)
    (htail : ∀ fuel off, tail.length ≤ fuel → lex .lenient fuel off tail = some [])
    {fuel : Nat} (hfuel : (textOf ps ++ tail).length ≤ fuel) (off : Nat) :
    lex .lenient fuel off (textOf ps ++ tail) = some (located off ps) := by
  induction ps generalizing fuel off with
  | nil => exact htail fuel off hfuel
  | cons p ps ih =>
    have htext : textOf (p :: ps) ++ tail = p.text ++ (textOf ps ++ tail) := by
      simp [textOf]
    have hnul' : '\x00' ∉ p.text ∧ '\x00' ∉ textOf ps := by
      simpa [textOf] using hnul
    have hrest {fuel : Nat} (hfuel : (textOf ps ++ tail).length ≤ fuel) (off : Nat) :
        lex .lenient fuel off (textOf ps ++ tail) = some (located off ps) :=
      ih htold.of_cons hnul'.2 (fun n hn => hplus n (List.mem_cons_of_mem _ hn)) hfuel off
    rw [htext, List.length_append] at hfuel
    rw [htext]
    cases p with
    | filler f =>
      obtain ⟨steps, hpos, hle, hstep⟩ := lex_filler f hnul'.1 off (textOf ps ++ tail)
      have hle : steps ≤ (Piece.filler f).text.length := hle
      obtain ⟨fuel, rfl⟩ := Nat.exists_eq_add_of_le' (show steps ≤ fuel by omega)
      rw [Piece.text, hstep, hrest (by omega), located]
    | word m =>
      have hapart := htold.apart fun n hn => hplus n (hn ▸ List.mem_cons_self)
      obtain ⟨c, cs, hword, -⟩ := hapart.exists_cons
      have hlen : (Piece.word m).text.length = cs.length + 1 := by
        rw [Piece.text, hword, List.length_cons]
      cases fuel with
      | zero => omega
      | succ fuel =>
        rw [Piece.text, lex_word hapart, hrest (by omega), located]
        rfl

/-! ## Numbers are followed by something else -/

theorem stops_of_head {c : Char} {cs : List Char}
    (h : isAsciiDigit c = false ∧ c ≠ '.' ∧ c ≠ 'e' ∧ c ≠ 'E') : Stops (c :: cs) := by
  rintro d ⟨⟩
  exact h

theorem stops_filler (f : Filler) (rest : List Char) : Stops (f.text ++ rest) := by
  have hslash : isAsciiDigit '/' = false ∧ '/' ≠ '.' ∧ '/' ≠ 'e' ∧ '/' ≠ 'E' := by decide
  cases f with
  | blank c h =>
    refine stops_of_head ?_
    have hall : ∀ n < 33, isAsciiDigit (Char.ofNat n) = false ∧ Char.ofNat n ≠ '.' ∧
        Char.ofNat n ≠ 'e' ∧ Char.ofNat n ≠ 'E' := by decide
    have hlt : c.toNat < 33 := by
      simp only [isAsciiBlank, Bool.or_eq_true, Bool.and_eq_true, decide_eq_true_eq,
        beq_iff_eq] at h
      omega
    have hc := hall c.toNat hlt
    rwa [Char.ofNat_toNat] at hc
  | line body h => exact stops_of_head hslash
  | block body h => exact stops_of_head hslash

theorem stops_gap (g : Gap) {rest : List Char} (h : Stops rest) :
    Stops (textOf (gap g) ++ rest) := by
  cases g with
  | nil => exact h
  | cons f g =>
    have htext : textOf (gap (f :: g)) ++ rest = f.text ++ (textOf (gap g) ++ rest) := by
      simp [textOf, gap, Piece.text]
    rw [htext]
    exact stops_filler f _

theorem told_gap (g : Gap) (h : Told tail ps) : Told tail (gap g ++ ps) := by
  induction g with
  | nil => exact h
  | cons f g ih => exact ih

theorem told_comma (first : Bool) (h : Told tail ps) : Told tail (comma first ++ ps) := by
  cases first <;> exact h

theorem stops_itemPieces {items : List (Around × Spelling)} (h : Stops (textOf ps ++ tail)) :
    Stops (textOf (itemPieces false items ++ ps) ++ tail) := by
  cases items with
  | nil => exact h
  | cons item items => exact stops_of_head (by decide)

theorem stops_memberPieces {ms : List (Label × Spelling)} (h : Stops (textOf ps ++ tail)) :
    Stops (textOf (memberPieces false ms ++ ps) ++ tail) := by
  cases ms with
  | nil => exact h
  | cons m ms => exact stops_of_head (by decide)

theorem stops_after (g : Gap) (h : Stops (textOf ps ++ tail)) :
    Stops (textOf (gap g ++ ps) ++ tail) := by
  rw [textOf_append, List.append_assoc]
  exact stops_gap g h

mutual

/-- The words of a value can be told from what follows, if that stops a number. -/
theorem told_pieces : (s : Spelling) → {ps : List Piece} → Told tail ps →
    Stops (textOf ps ++ tail) → Told tail (s.pieces ++ ps)
  | .null, _, h, _ => h
  | .truth true, _, h, _ => h
  | .truth false, _, h, _ => h
  | .number n, _, h, hs => ⟨n.grammar, hs, h⟩
  | .string l, _, h, _ => ⟨⟨_, l.spelled⟩, h⟩
  | .array g items, ps, h, _ => by
    have hclose : Told tail (.word .closeBracket :: ps) := h
    have hitems := told_itemPieces true items hclose (stops_of_head (by decide))
    rw [Spelling.pieces, List.append_assoc, List.append_assoc]
    exact told_gap g hitems
  | .object g ms, ps, h, _ => by
    have hclose : Told tail (.word .closeBrace :: ps) := h
    have hmembers := told_memberPieces true ms hclose (stops_of_head (by decide))
    rw [Spelling.pieces, List.append_assoc, List.append_assoc]
    exact told_gap g hmembers

theorem told_itemPieces (first : Bool) : (items : List (Around × Spelling)) → {ps : List Piece} →
    Told tail ps → Stops (textOf ps ++ tail) → Told tail (itemPieces first items ++ ps)
  | [], _, h, _ => h
  | (a, s) :: rest, ps, h, hs => by
    have hrest := told_gap a.after (told_itemPieces false rest h hs)
    have hvalue := told_pieces s hrest (stops_after a.after (stops_itemPieces hs))
    simp only [itemPieces, List.append_assoc]
    exact told_comma first (told_gap a.before hvalue)

theorem told_memberPieces (first : Bool) : (ms : List (Label × Spelling)) → {ps : List Piece} →
    Told tail ps → Stops (textOf ps ++ tail) → Told tail (memberPieces first ms ++ ps)
  | [], _, h, _ => h
  | (l, s) :: rest, ps, h, hs => by
    have hrest := told_gap l.after (told_memberPieces false rest h hs)
    have hvalue := told_pieces s hrest (stops_after l.after (stops_memberPieces hs))
    have hcolon : Told tail (.word .colon :: (gap l.afterColon ++ _)) := told_gap l.afterColon hvalue
    have hname := told_gap l.beforeColon hcolon
    simp only [memberPieces, Label.pieces, List.append_assoc, List.cons_append]
    exact told_comma first (told_gap l.before ⟨⟨_, l.name.spelled⟩, hname⟩)

end

end Pieces

end DepScope.Json
