import DepScope.Proofs.Package.Purl
import DepScope.Proofs.Text.Digits
import DepScope.Proofs.Text.Units
import DepScope.Script.Escape

/-!
# DepScope.Proofs.Script.Escape

The text of a literal's body, against the spelling of its pieces.

1. A piece is a plain character or an escape of one of the kinds of the language (`Piece`). Pieces
   follow one another so that each one is as long as it can be (`Body`): the digits of an octal escape
   and a return with its feed belong together.
2. The reader takes exactly one piece at a time (`escape?_append`, `bodyUnits_append`), so it finds the
   units of every body (`bodyUnits_of_body`).
3. The units decode to the text in the only way they can (`literal_text_of_pieces`).
-/

namespace DepScope.Script

open Text

variable {c : Char} {p q ds rest text : List Char} {us vs units : List Nat} {n u : Nat}

/-! ## Pieces of a body -/

/-- Letters that stand for control characters. -/
def controlLetters : List (Char × Nat) :=
  [('n', 0x0A), ('r', 0x0D), ('t', 0x09), ('b', 0x08), ('f', 0x0C), ('v', 0x0B)]

/-- Line breaks that a backslash takes away. -/
def lineBreaks : List (List Char) :=
  [['\n'], ['\r'], ['\r', '\n'], ['\u2028'], ['\u2029']]

def octalDigits : List Char :=
  ['0', '1', '2', '3', '4', '5', '6', '7']

/-- Letters and line breaks that do not stand for themselves after a backslash. -/
def escapeLetters : List Char :=
  ['n', 'r', 't', 'b', 'f', 'v', 'x', 'u', '\n', '\r', '\u2028', '\u2029']

/-- The units of a code point; a surrogate stands for itself. -/
def pointUnits (n : Nat) : List Nat :=
  if n < 0x10000 then [n] else [0xD800 + (n - 0x10000) / 0x400, 0xDC00 + (n - 0x10000) % 0x400]

/-- A plain character or an escape, and the units it stands for. -/
inductive Piece : List Char → List Nat → Prop
  | plain {c : Char} : c ≠ '\\' → Piece [c] (unitsOf c)
  | control {c : Char} {u : Nat} : (c, u) ∈ controlLetters → Piece ['\\', c] [u]
  | octal {ds : List Char} {n : Nat} :
    Denotes 8 ds n → ds.length ≤ 3 → n ≤ 0o377 → Piece ('\\' :: ds) [n]
  | byte {a b : Char} {n : Nat} : Denotes 16 [a, b] n → Piece ['\\', 'x', a, b] [n]
  | unit {a b c d : Char} {n : Nat} :
    Denotes 16 [a, b, c, d] n → Piece ['\\', 'u', a, b, c, d] [n]
  | point {ds : List Char} {n : Nat} :
    Denotes 16 ds n → n ≤ 0x10FFFF →
      Piece ('\\' :: 'u' :: '\x7b' :: (ds ++ ['\x7d'])) (pointUnits n)
  | lineBreak {cs : List Char} : cs ∈ lineBreaks → Piece ('\\' :: cs) []
  | itself {c : Char} : c ∉ escapeLetters ++ octalDigits → Piece ['\\', c] (unitsOf c)

/-- No piece goes on with the character that follows. -/
def Ends (p rest : List Char) : Prop :=
  ∀ c ∈ rest.head?, ∀ us, ¬ Piece (p ++ [c]) us

/-- A sequence of pieces, each as long as it can be, and the units it stands for. -/
inductive Body : List Char → List Nat → Prop
  | nil : Body [] []
  | cons {p rest : List Char} {us vs : List Nat} :
    Piece p us → Ends p rest → Body rest vs → Body (p ++ rest) (us ++ vs)

/-! ## Escapes without digits -/

theorem escape?_control (h : (c, u) ∈ controlLetters) (rest : List Char) :
    escape? (c :: rest) = some ([u], rest) := by
  simp only [controlLetters, List.mem_cons, Prod.mk.injEq, List.not_mem_nil, or_false] at h
  obtain ⟨rfl, rfl⟩ | ⟨rfl, rfl⟩ | ⟨rfl, rfl⟩ | ⟨rfl, rfl⟩ | ⟨rfl, rfl⟩ | ⟨rfl, rfl⟩ := h <;> rfl

theorem escape?_lineBreak (h : ds ∈ lineBreaks) (hends : Ends ('\\' :: ds) rest) :
    escape? (ds ++ rest) = some ([], rest) := by
  simp only [lineBreaks, List.mem_cons, List.not_mem_nil, or_false] at h
  obtain rfl | rfl | rfl | rfl | rfl := h
  · simp [escape?]
  · cases rest with
    | nil => rfl
    | cons c rest =>
      have hc : c ≠ '\n' := by
        rintro rfl
        exact hends '\n' rfl [] (@Piece.lineBreak ['\r', '\n'] (by decide))
      simp [escape?, hc]
  · rfl
  · simp [escape?]
  · simp [escape?]

theorem mem_octalDigits {d : Nat} (h : octal? c = some d) : c ∈ octalDigits := by
  have hall : ∀ d < 8, d.digitChar ∈ octalDigits ∧ d.digitChar.toUpper ∈ octalDigits := by decide
  obtain ⟨hd, rfl | rfl⟩ := (digitIn?_eq_some_iff (by decide)).mp h
  · exact (hall d hd).1
  · exact (hall d hd).2

theorem escape?_itself (h : c ∉ escapeLetters ++ octalDigits) (rest : List Char) :
    escape? (c :: rest) = some (unitsOf c, rest) := by
  rw [List.mem_append, not_or] at h
  obtain ⟨hletter, hdigit⟩ := h
  have hoctal : octal? c = none := by
    rw [Option.eq_none_iff_forall_ne_some]
    exact fun d hd => hdigit (mem_octalDigits hd)
  unfold escape?
  split <;> simp_all [escapeLetters]

/-! ## Escapes with digits -/

theorem escape?_octal {d : Nat} (h : octal? c = some d) (rest : List Char) :
    escape? (c :: rest) = some ([(octalTail (if d ≤ 3 then 2 else 1) d rest).1],
      (octalTail (if d ≤ 3 then 2 else 1) d rest).2) := by
  have hletter : c ∉ escapeLetters := by
    have hall : ∀ c ∈ octalDigits, c ∉ escapeLetters := by simp [octalDigits, escapeLetters]
    exact hall c (mem_octalDigits h)
  unfold escape?
  split <;> simp_all [escapeLetters]

/-- Further octal digits are taken up to their number or to a character that is none. -/
theorem octalTail_append {k v : Nat} (hread : readDigits 8 v ds = some n) (hlen : ds.length ≤ k)
    (hend : ds.length < k → ∀ c ∈ rest.head?, octal? c = none) :
    octalTail k v (ds ++ rest) = (n, rest) := by
  induction ds generalizing k v with
  | nil =>
    cases hread
    cases k with
    | zero => rfl
    | succ k =>
      cases rest with
      | nil => rfl
      | cons c rest => simp [octalTail, hend (Nat.succ_pos k) c rfl]
  | cons c ds ih =>
    rw [readDigits, Option.bind_eq_some_iff] at hread
    obtain ⟨d, hd, hread⟩ := hread
    cases k with
    | zero => exact absurd hlen (Nat.not_succ_le_zero _)
    | succ k =>
      have htail := ih hread (Nat.le_of_succ_le_succ hlen) fun h => hend (Nat.succ_lt_succ h)
      simp [octalTail, octal?, hd, htail]

theorem escape?_denotes_octal (h : Denotes 8 ds n) (hlen : ds.length ≤ 3) (hle : n ≤ 0o377)
    (hends : Ends ('\\' :: ds) rest) : escape? (ds ++ rest) = some ([n], rest) := by
  have hread := h.readDigits_eq (by decide)
  cases ds with
  | nil => exact absurd rfl h.ne_nil
  | cons c more =>
    rw [readDigits, Option.bind_eq_some_iff] at hread
    obtain ⟨d, hd, hread⟩ := hread
    rw [Nat.zero_mul, Nat.zero_add] at hread
    obtain ⟨hlow, hhigh⟩ := readDigits_bounds hread
    have hcount : more.length ≤ if d ≤ 3 then 2 else 1 := by
      rw [List.length_cons] at hlen
      split
      · omega
      · -- three digits that begin with four or more are too large
        refine Nat.le_of_not_lt fun hthree => ?_
        rw [show more.length = 2 by omega] at hlow
        omega
    have hstop : (more.length < if d ≤ 3 then 2 else 1) → ∀ e ∈ rest.head?, octal? e = none := by
      intro hless e he
      rw [Option.eq_none_iff_forall_ne_some]
      intro v hv
      have hdigit := (digitIn?_eq_some_iff (by decide)).mp hv
      have hv8 : v < 8 := hdigit.1
      have hlonger : (c :: more ++ [e]).length ≤ 3 := by
        simp only [List.length_append, List.length_cons, List.length_nil]
        split at hless <;> omega
      have hsmall : n * 8 + v ≤ 0o377 := by
        obtain hnone | hone : more.length = 0 ∨ more.length = 1 ∧ d ≤ 3 := by
          split at hless <;> omega
        · have hd8 : d < 8 := ((digitIn?_eq_some_iff (by decide)).mp hd).1
          rw [hnone] at hhigh
          omega
        · rw [hone.1] at hhigh
          omega
      exact hends e he _ (.octal (h.append hdigit) hlonger hsmall)
    rw [List.cons_append, escape?_octal hd, octalTail_append hread hcount hstop]

theorem hexBelow?_of_denotes {bound : Nat} (h : Denotes 16 ds n) (hn : n < bound) :
    hexBelow? bound ds = some n := by
  have hread := (natIn?_eq_some_iff (by decide)).mpr h
  have hplus : '+' ∉ ds := h.notMem (by decide) (by decide)
  cases ds with
  | nil => exact absurd rfl h.ne_nil
  | cons c ds =>
    have hc : c ≠ '+' := fun heq => hplus (heq ▸ List.mem_cons_self)
    simp [hexBelow?, hc, hread, hn]

theorem escape?_byte {a b : Char} (h : Denotes 16 [a, b] n) (rest : List Char) :
    escape? ('x' :: a :: b :: rest) = some ([n], rest) := by
  have hn : n < 16 ^ 2 := h.lt_pow (by decide)
  simp [escape?, hexBelow?_of_denotes h (show n < 0x10000 by omega)]

theorem escape?_unit {a b c d : Char} (h : Denotes 16 [a, b, c, d] n) (rest : List Char) :
    escape? ('u' :: a :: b :: c :: d :: rest) = some ([n], rest) := by
  have hn : n < 16 ^ 4 := h.lt_pow (by decide)
  have hbrace : '\x7b' ∉ [a, b, c, d] := h.notMem (by decide) (by decide)
  have ha : a ≠ '\x7b' := fun heq => hbrace (heq ▸ List.mem_cons_self)
  simp [escape?, ha, hexBelow?_of_denotes h (show n < 0x10000 by omega)]

theorem codePointUnits?_eq (hn : n ≤ 0x10FFFF) : codePointUnits? n = some (pointUnits n) := by
  rw [codePointUnits?]
  split
  · next hs =>
    simp only [isHighSurrogate, isLowSurrogate, Bool.or_eq_true, Bool.and_eq_true,
      decide_eq_true_eq] at hs
    rw [pointUnits, if_pos (by omega)]
  · next hs =>
    simp only [isHighSurrogate, isLowSurrogate, Bool.or_eq_true, Bool.and_eq_true,
      decide_eq_true_eq] at hs
    rw [if_pos (by omega), unitsOf, toNat_ofNat (by omega)]
    rfl

theorem escape?_point (h : Denotes 16 ds n) (hn : n ≤ 0x10FFFF) (rest : List Char) :
    escape? ('u' :: '\x7b' :: (ds ++ '\x7d' :: rest)) = some (pointUnits n, rest) := by
  have hbrace : '\x7d' ∉ ds := h.notMem (by decide) (by decide)
  simp [escape?, cutAt?_append hbrace, hexBelow?_of_denotes h (show n < 0x100000000 by omega),
    codePointUnits?_eq hn]

/-! ## Bodies -/

/-- **One escape is read at a time.** -/
theorem escape?_append (h : Piece ('\\' :: q) us) (hends : Ends ('\\' :: q) rest) :
    escape? (q ++ rest) = some (us, rest) := by
  cases h with
  | plain hc => exact absurd rfl hc
  | control hc => exact escape?_control hc rest
  | octal hds hlen hle => exact escape?_denotes_octal hds hlen hle hends
  | byte hds => exact escape?_byte hds rest
  | unit hds => exact escape?_unit hds rest
  | point hds hn =>
    have hpoint := escape?_point hds hn rest
    simpa using hpoint
  | lineBreak hcs => exact escape?_lineBreak hcs hends
  | itself hc => exact escape?_itself hc rest

/-- **One piece is read at a time.** -/
theorem bodyUnits_append (h : Piece p us) (hends : Ends p rest) (fuel : Nat) :
    bodyUnits (fuel + 1) (p ++ rest) = (bodyUnits fuel rest).map (us ++ ·) := by
  have hescape : ∀ {q : List Char}, p = '\\' :: q →
      bodyUnits (fuel + 1) (p ++ rest) = (bodyUnits fuel rest).map (us ++ ·) := by
    rintro q rfl
    simp only [List.cons_append, bodyUnits, if_true, escape?_append h hends, Option.bind_eq_bind,
      Option.bind_some]
    cases bodyUnits fuel rest <;> rfl
  cases h with
  | plain hc =>
    simp only [List.singleton_append, bodyUnits, if_neg hc]
    cases bodyUnits fuel rest <;> rfl
  | control | octal | byte | unit | point | lineBreak | itself => exact hescape rfl

theorem Piece.length_pos (h : Piece p us) : 0 < p.length := by
  cases h <;> exact Nat.succ_pos _

theorem bodyUnits_of_body {fuel : Nat} (h : Body text units) (hfuel : text.length ≤ fuel) :
    bodyUnits fuel text = some units := by
  induction h generalizing fuel with
  | nil => cases fuel <;> rfl
  | cons hp hends _ ih =>
    have hpos := hp.length_pos
    rw [List.length_append] at hfuel
    obtain ⟨fuel, rfl⟩ : ∃ k, fuel = k + 1 := ⟨fuel - 1, by omega⟩
    rw [bodyUnits_append hp hends, ih (by omega)]
    rfl

theorem unitsOf_lt (c : Char) : ∀ u ∈ unitsOf c, u < 0x10000 := by
  obtain ⟨hunits, hlt, -⟩ | ⟨high, low, hunits, hhigh, hlow, -⟩ := unitsOf_cases c
  · simpa [hunits] using hlt
  · simpa [hunits] using ⟨hhigh, hlow⟩

/-- The units of a piece are units of 16 bits. -/
theorem Piece.units_lt (h : Piece p us) : ∀ u ∈ us, u < 0x10000 := by
  cases h with
  | plain | itself => exact unitsOf_lt _
  | control hc =>
    have hall : ∀ entry ∈ controlLetters, entry.2 < 0x10000 := by decide
    simpa using hall _ hc
  | octal _ _ hle =>
    rw [List.forall_mem_singleton]
    omega
  | @byte a b n hds =>
    have hn : n < 16 ^ 2 := hds.lt_pow (by decide)
    rw [List.forall_mem_singleton]
    omega
  | @unit a b c d n hds =>
    have hn : n < 16 ^ 4 := hds.lt_pow (by decide)
    rw [List.forall_mem_singleton]
    omega
  | point _ hn =>
    unfold pointUnits
    split
    · next hlt => simpa using hlt
    · simp only [List.mem_cons, List.not_mem_nil, or_false, forall_eq_or_imp, forall_eq]
      omega
  | lineBreak => exact List.forall_mem_nil _

theorem Body.units_lt (h : Body text units) : ∀ u ∈ units, u < 0x10000 := by
  induction h with
  | nil => simp
  | cons hp _ _ ih =>
    intro u hu
    obtain hu | hu := List.mem_append.mp hu
    · exact hp.units_lt u hu
    · exact ih u hu

/-! ## Every sequence of pieces is a body -/

theorem Piece.eq_nil_of_ne (h : Piece (c :: q) us) (hc : c ≠ '\\') : q = [] := by
  cases h with
  | plain => rfl
  | control | octal | byte | unit | point | lineBreak | itself => exact absurd rfl hc

theorem not_piece_backslash : ¬ Piece ['\\'] us := by
  intro h
  cases h with
  | plain hc => exact hc rfl
  | octal hds => exact hds.ne_nil rfl
  | lineBreak hcs => exact absurd hcs (by decide)

/-- A backslash after a piece begins another one: no escape but that of the backslash ends in it. -/
theorem Piece.not_append_backslash (h : Piece p us) : ¬ Piece (p ++ ['\\']) vs := by
  intro hlonger
  generalize htext : p ++ ['\\'] = text at hlonger
  have hlast : text.getLast? = some '\\' := by rw [← htext, List.getLast?_concat]
  cases hlonger with
  | plain hc => exact hc (by simpa using hlast)
  | control hc =>
    have hall : ∀ entry ∈ controlLetters, entry.1 ≠ '\\' := by decide
    exact hall _ hc (by simpa using hlast)
  | octal hds =>
    rw [List.getLast?_cons_of_ne_nil hds.ne_nil] at hlast
    exact hds.notMem (by decide) (by decide) (List.mem_of_getLast? hlast)
  | byte hds =>
    exact hds.notMem (by decide) (by decide) (List.mem_of_getLast? hlast)
  | unit hds =>
    exact hds.notMem (by decide) (by decide) (List.mem_of_getLast? hlast)
  | @point ds =>
    have hbrace : '\\' :: 'u' :: '\x7b' :: (ds ++ ['\x7d'])
        = ('\\' :: 'u' :: '\x7b' :: ds) ++ ['\x7d'] := rfl
    rw [hbrace, List.getLast?_concat] at hlast
    exact absurd hlast (by decide)
  | lineBreak hcs =>
    have hall : ∀ cs ∈ lineBreaks, ('\\' :: cs).getLast? ≠ some '\\' := by decide
    exact hall _ hcs hlast
  | @itself c hc =>
    have hp : p = ['\\'] := by
      obtain rfl : c = '\\' := by simpa using hlast
      exact List.append_cancel_right (show p ++ ['\\'] = ['\\'] ++ ['\\'] from htext)
    exact not_piece_backslash (hp ▸ h)

theorem Body.tail_of_ne (h : Body (c :: rest) units) (hc : c ≠ '\\') : ∃ vs, Body rest vs := by
  generalize htext : c :: rest = text at h
  cases h with
  | nil => cases htext
  | @cons p _ us vs hp hends hrest =>
    cases p with
    | nil => exact absurd hp.length_pos (Nat.lt_irrefl 0)
    | cons e q =>
      rw [List.cons_append, List.cons.injEq] at htext
      obtain ⟨rfl, rfl⟩ := htext
      rw [hp.eq_nil_of_ne hc, List.nil_append]
      exact ⟨vs, hrest⟩

/-- A piece in front of a body makes a body: where the two run into one another, the piece takes what
it can, character by character. -/
theorem exists_body_append (hp : Piece p us) (hrest : Body rest vs) :
    ∃ units, Body (p ++ rest) units := by
  induction rest generalizing p us vs with
  | nil => exact ⟨_, .cons hp (fun c hc => by cases hc) .nil⟩
  | cons c rest ih =>
    by_cases hlonger : ∃ ws, Piece (p ++ [c]) ws
    · obtain ⟨ws, hlonger⟩ := hlonger
      have hc : c ≠ '\\' := by
        rintro rfl
        exact hp.not_append_backslash hlonger
      obtain ⟨vs', htail⟩ := hrest.tail_of_ne hc
      have hbody := ih hlonger htail
      rwa [List.append_assoc] at hbody
    · refine ⟨_, .cons hp (fun e he ws hws => ?_) hrest⟩
      cases he
      exact hlonger ⟨ws, hws⟩

theorem exists_body {ps : List (List Char)} (h : ∀ p ∈ ps, ∃ us, Piece p us) :
    ∃ units, Body ps.flatten units := by
  induction ps with
  | nil => exact ⟨[], .nil⟩
  | cons p ps ih =>
    obtain ⟨us, hp⟩ := h p List.mem_cons_self
    obtain ⟨vs, hrest⟩ := ih fun q hq => h q (List.mem_cons_of_mem p hq)
    rw [List.flatten_cons]
    exact exists_body_append hp hrest

/-- **A literal stands for the text of its units.** However plain characters and escapes are put
together, there is one way to read them with each piece as long as it can be, and one way to decode
the units of these pieces. The text of the literal is what these give; the units of a character give
the character, whichever pieces they come from. -/
theorem literal_text_of_pieces {ps : List (List Char)} (h : ∀ p ∈ ps, ∃ us, Piece p us) :
    ∃ units, (∀ vs, Body ps.flatten vs ↔ vs = units) ∧
      (∀ cs, Decodes units cs ↔ cs = ofUnits units) ∧
      decodeEscapes? ps.flatten = some (String.ofList (ofUnits units)) ∧
      ∀ us c vs, units = us ++ unitsOf c ++ vs → ofUnits units = ofUnits us ++ c :: ofUnits vs := by
  obtain ⟨units, hbody⟩ := exists_body h
  have hread := bodyUnits_of_body hbody (Nat.le_refl _)
  refine ⟨units, fun vs => ⟨fun hvs => ?_, ?_⟩, fun cs => decodes_iff hbody.units_lt, ?_, ?_⟩
  · have hsame := bodyUnits_of_body hvs (Nat.le_refl _)
    rw [hread] at hsame
    exact (Option.some.inj hsame).symm
  · rintro rfl
    exact hbody
  · rw [decodeEscapes?, hread, Option.map_some]
  · rintro us c vs rfl
    exact ofUnits_append_char us c vs

/-- The two halves of a character in two kinds of escapes, an octal escape whose digits stand in three
pieces, and a return apart from its feed. -/
theorem literal_text_of_halves :
    let ps := [['\\', 'u', 'D', '8', '3', 'd'],
      ['\\', 'u', '\x7b', '0', 'd', 'e', '0', '0', '\x7d'], ['\\', '1'], ['0'], ['1'],
      ['\\', '\r'], ['\n'], ['\\', '\\']]
    (∀ p ∈ ps, ∃ us, Piece p us) ∧
      (∃ units, (∀ vs, Body ps.flatten vs ↔ vs = units) ∧
        (∀ cs, Decodes units cs ↔ cs = ofUnits units) ∧
        decodeEscapes? ps.flatten = some (String.ofList (ofUnits units))) ∧
      decodeEscapes? ps.flatten = some "😀A\\" := by
  intro ps
  have hps : ∀ p ∈ ps, ∃ us, Piece p us := by
    intro p hp
    simp only [ps, List.mem_cons, List.not_mem_nil, or_false] at hp
    obtain rfl | rfl | rfl | rfl | rfl | rfl | rfl | rfl := hp
    · exact ⟨[0xD83D], .unit ((natIn?_eq_some_iff (by decide)).mp (by decide))⟩
    · exact ⟨_, @Piece.point ['0', 'd', 'e', '0', '0'] 0xDE00
        ((natIn?_eq_some_iff (by decide)).mp (by decide)) (by decide)⟩
    · exact ⟨[1], .octal ((natIn?_eq_some_iff (by decide)).mp (by decide)) (by decide) (by decide)⟩
    · exact ⟨_, .plain (by decide)⟩
    · exact ⟨_, .plain (by decide)⟩
    · exact ⟨_, .lineBreak (by decide)⟩
    · exact ⟨_, .plain (by decide)⟩
    · exact ⟨_, .itself (by decide)⟩
  obtain ⟨units, hbody, hdecode, htext, -⟩ := literal_text_of_pieces hps
  exact ⟨hps, ⟨units, hbody, hdecode, htext⟩, by decide +kernel⟩

end DepScope.Script
