import Mathlib.Data.List.Basic
import DepScope.Proofs.Script.Escape
import DepScope.Proofs.Text.Escapes

/-!
# DepScope.Proofs.Script.Malformed

Malformed escapes in the bodies of script literals.

1. The reader of a body takes plain characters and escapes one by one; the digits of an escape may
   have a plus sign in front (`reads_isRead`).
2. A malformed escape passes only with a plus sign (`Broken.plus_mem`).
3. The literal is refused with its body (`decodeEscapes?_eq_none_iff`).
-/

namespace DepScope.Script

open Text

variable {c : Char} {q cs ds rest body : List Char} {us : List Nat} {n u : Nat}

/-! ## Malformed escapes -/

/-- What follows the backslash of a malformed escape: nothing, an `x` without two hexadecimal digits,
or a `u` with neither four of them nor a code point in braces. -/
inductive Broken : List Char → Prop
  | last : Broken []
  | byte {rest : List Char} :
    (∀ ds n, Denotes 16 ds n → ds.length = 2 → ¬ ds <+: rest) → Broken ('x' :: rest)
  | unit {rest : List Char} :
    (∀ ds n, Denotes 16 ds n → ds.length = 4 → ¬ ds <+: rest) →
    (∀ ds n, Denotes 16 ds n → n ≤ 0x10FFFF → ¬ '\x7b' :: (ds ++ ['\x7d']) <+: rest) →
      Broken ('u' :: rest)

/-- What follows the backslash of an escape that is taken: that of a piece, or one in which a plus sign
stands where the first hexadecimal digit should. -/
inductive Taken : List Char → Prop
  | piece {q : List Char} {us : List Nat} : Piece ('\\' :: q) us → Taken q
  | byte {d : Char} {n : Nat} : Denotes 16 [d] n → Taken ['x', '+', d]
  | unit {ds : List Char} {n : Nat} : Denotes 16 ds n → ds.length = 3 → Taken ('u' :: '+' :: ds)
  | point {ds : List Char} {n : Nat} :
    Denotes 16 ds n → n ≤ 0x10FFFF → Taken ('u' :: '\x7b' :: '+' :: (ds ++ ['\x7d']))

theorem octalTail_inv {k v : Nat} (h : octalTail k v cs = (n, rest)) :
    ∃ ds, cs = ds ++ rest ∧ ds.length ≤ k ∧ readDigits 8 v ds = some n := by
  induction k generalizing v cs with
  | zero =>
    cases h
    exact ⟨[], rfl, Nat.le_refl 0, rfl⟩
  | succ k ih =>
    cases cs with
    | nil =>
      cases h
      exact ⟨[], rfl, Nat.zero_le _, rfl⟩
    | cons c cs =>
      simp only [octalTail] at h
      split at h
      · next d hd =>
        obtain ⟨ds, rfl, hlen, hread⟩ := ih h
        refine ⟨c :: ds, rfl, Nat.succ_le_succ hlen, ?_⟩
        rw [readDigits, show digitIn? 8 c = some d from hd, Option.bind_some, hread]
      · cases h
        exact ⟨[], rfl, Nat.zero_le _, rfl⟩

theorem taken_octal {d : Nat} (hd : octal? c = some d)
    (h : octalTail (if d ≤ 3 then 2 else 1) d cs = (n, rest)) :
    ∃ q, c :: cs = q ++ rest ∧ Taken q := by
  obtain ⟨ds, rfl, hlen, hread⟩ := octalTail_inv h
  have hd8 : d < 8 := ((digitIn?_eq_some_iff (by decide)).mp hd).1
  have hdenotes : Denotes 8 (c :: ds) n :=
    (Denotes.digit ((digitIn?_eq_some_iff (by decide)).mp hd)).append_readDigits (by decide) hread
  have hhigh := (readDigits_bounds hread).2
  have hcount : ds.length ≤ 2 ∧ n ≤ 0o377 := by
    obtain hfew | hmany : ds.length ≤ 1 ∨ ds.length = 2 ∧ d ≤ 3 := by split at hlen <;> omega
    · have hpow : 8 ^ ds.length ≤ 8 ^ 1 := Nat.pow_le_pow_right (by decide) hfew
      have hmul : (d + 1) * 8 ^ ds.length ≤ 8 * 8 := Nat.mul_le_mul hd8 hpow
      omega
    · rw [hmany.1] at hhigh
      omega
  exact ⟨c :: ds, rfl, .piece (.octal hdenotes (Nat.succ_le_succ hcount.1) hcount.2)⟩

/-- A character that begins no longer escape is one by itself. -/
theorem taken_single (hx : c ≠ 'x') (hu : c ≠ 'u') (hc : octal? c = none) : Taken [c] := by
  by_cases hletter : c ∈ escapeLetters
  · simp only [escapeLetters, List.mem_cons, List.not_mem_nil, or_false] at hletter
    obtain rfl | rfl | rfl | rfl | rfl | rfl | rfl | rfl | rfl | rfl | rfl | rfl := hletter
    · exact .piece (.control (u := 0x0A) (by decide))
    · exact .piece (.control (u := 0x0D) (by decide))
    · exact .piece (.control (u := 0x09) (by decide))
    · exact .piece (.control (u := 0x08) (by decide))
    · exact .piece (.control (u := 0x0C) (by decide))
    · exact .piece (.control (u := 0x0B) (by decide))
    · exact absurd rfl hx
    · exact absurd rfl hu
    · exact .piece (.lineBreak (by decide))
    · exact .piece (.lineBreak (by decide))
    · exact .piece (.lineBreak (by decide))
    · exact .piece (.lineBreak (by decide))
  · have hoctal : ∀ d ∈ octalDigits, (octal? d).isSome = true := List.all_eq_true.mp (by decide)
    have hdigit : c ∉ octalDigits := fun h => by
      have hsome := hoctal c h
      rw [hc] at hsome
      cases hsome
    exact .piece (.itself (by simp [hletter, hdigit]))

theorem taken_byte {a b : Char} (h : hexBelow? 0x10000 [a, b] = some u) : Taken ['x', a, b] := by
  generalize htext : [a, b] = text at h
  obtain ⟨hsigned, -⟩ := hexBelow?_eq_some_iff.mp h
  cases hsigned with
  | bare hds =>
    subst htext
    exact .piece (.byte hds)
  | plus hds =>
    obtain ⟨rfl, rfl⟩ := List.cons.inj htext
    exact .byte hds

theorem taken_unit {a b c d : Char} (h : hexBelow? 0x10000 [a, b, c, d] = some u) :
    Taken ['u', a, b, c, d] := by
  generalize htext : [a, b, c, d] = text at h
  obtain ⟨hsigned, -⟩ := hexBelow?_eq_some_iff.mp h
  cases hsigned with
  | bare hds =>
    subst htext
    exact .piece (.unit hds)
  | plus hds =>
    obtain ⟨rfl, rfl⟩ := List.cons.inj htext
    exact .unit hds rfl

theorem taken_point (h : hexBelow? 0x100000000 ds = some n) (hn : codePointUnits? n = some us) :
    Taken ('u' :: '\x7b' :: (ds ++ ['\x7d'])) := by
  obtain ⟨hsigned, -⟩ := hexBelow?_eq_some_iff.mp h
  have hle : n ≤ 0x10FFFF := by
    rw [codePointUnits?] at hn
    split at hn
    · next hs =>
      simp only [isHighSurrogate, isLowSurrogate, Bool.or_eq_true, Bool.and_eq_true,
        decide_eq_true_eq] at hs
      omega
    · split at hn
      · omega
      · cases hn
  cases hsigned with
  | bare hds => exact .piece (.point hds hle)
  | plus hds => exact .point hds hle

/-- **Only escapes that are taken are read.** -/
theorem taken_of_escape? (h : escape? cs = some (us, rest)) : ∃ q, cs = q ++ rest ∧ Taken q := by
  unfold escape? at h
  split at h
  case h_1 | h_9 | h_10 => cases h
  case h_2 | h_3 | h_4 | h_5 | h_6 | h_7 =>
    cases h
    exact ⟨[_], rfl, taken_single (by decide) (by decide) (by decide)⟩
  case h_8 =>
    obtain ⟨u, hu, heq⟩ := Option.map_eq_some_iff.mp h
    cases heq
    exact ⟨_, rfl, taken_byte hu⟩
  case h_11 =>
    simp only [Option.bind_eq_bind, Option.bind_eq_some_iff] at h
    obtain ⟨⟨digits, more⟩, hcut, n, hn, units, hunits, heq⟩ := h
    cases heq
    obtain ⟨-, rfl⟩ := cutAt?_eq_some_iff.mp hcut
    exact ⟨_, by simp, taken_point hn hunits⟩
  case h_12 =>
    split at h
    · obtain ⟨u, hu, heq⟩ := Option.map_eq_some_iff.mp h
      cases heq
      exact ⟨_, rfl, taken_unit hu⟩
    · cases h
  case h_13 =>
    cases h
    exact ⟨['\r', '\n'], rfl, .piece (.lineBreak (by decide))⟩
  case h_14 c cs _ _ _ _ _ _ htwo hnone hone _ hu _ =>
    have hx : c ≠ 'x' := by
      rintro rfl
      match cs with
      | [] => exact hnone rfl rfl
      | [e] => exact hone e rfl rfl
      | a :: b :: cs => exact htwo a b cs rfl rfl
    split at h
    · next hbreak =>
      cases h
      have hc : octal? c = none := by
        simp only [Bool.or_eq_true, decide_eq_true_eq] at hbreak
        obtain ((rfl | rfl) | rfl) | rfl := hbreak <;> decide
      exact ⟨[c], rfl, taken_single hx hu hc⟩
    · split at h
      · next d hd =>
        cases h
        exact taken_octal hd rfl
      · next hc =>
        cases h
        exact ⟨[c], rfl, taken_single hx hu hc⟩

/-! ## Bodies -/

/-- The reader accepts a body. -/
def IsRead (body : List Char) : Prop :=
  (bodyUnits body.length body).isSome = true

/-- More fuel than characters changes nothing. -/
theorem bodyUnits_of_le {fuel : Nat} (h : cs.length ≤ fuel) :
    bodyUnits fuel cs = bodyUnits cs.length cs := by
  induction hlen : cs.length using Nat.strongRecOn generalizing cs fuel with
  | ind k ih =>
    subst hlen
    cases cs with
    | nil => cases fuel <;> rfl
    | cons c cs =>
      obtain ⟨fuel, rfl⟩ : ∃ k, fuel = k + 1 := ⟨fuel - 1, by rw [List.length_cons] at h; omega⟩
      have hcs : cs.length ≤ fuel := Nat.le_of_succ_le_succ h
      simp only [List.length_cons, bodyUnits]
      split
      · cases hescape : escape? cs with
        | none => rfl
        | some p =>
          obtain ⟨us, rest⟩ := p
          obtain ⟨q, rfl, -⟩ := taken_of_escape? hescape
          rw [List.length_append] at hcs
          have hless : rest.length < ('\\' :: (q ++ rest)).length := by
            rw [List.length_cons, List.length_append]
            omega
          have hfuel : bodyUnits fuel rest = bodyUnits rest.length rest :=
            ih _ hless (by omega) rfl
          have hlength : bodyUnits (q ++ rest).length rest = bodyUnits rest.length rest :=
            ih _ hless (by simp) rfl
          simp only [Option.bind_eq_bind, Option.bind_some, hfuel, hlength]
      · rw [ih cs.length (Nat.lt_succ_self _) hcs rfl]

theorem isRead_plain (hc : c ≠ '\\') : IsRead (c :: cs) ↔ IsRead cs := by
  simp only [IsRead, List.length_cons, bodyUnits, if_neg hc]
  cases bodyUnits cs.length cs <;> simp

theorem isRead_escaped :
    IsRead ('\\' :: cs) ↔ ∃ us rest, escape? cs = some (us, rest) ∧ IsRead rest := by
  simp only [IsRead, List.length_cons, bodyUnits, if_true]
  cases hescape : escape? cs with
  | none => simp
  | some p =>
    obtain ⟨us, rest⟩ := p
    obtain ⟨q, rfl, -⟩ := taken_of_escape? hescape
    have hfuel : bodyUnits (q ++ rest).length rest = bodyUnits rest.length rest :=
      bodyUnits_of_le (by simp)
    simp only [Option.bind_eq_bind, Option.bind_some, hfuel]
    constructor
    · intro h
      cases hbody : bodyUnits rest.length rest with
      | none => simp [hbody] at h
      | some vs => exact ⟨us, rest, rfl, by rw [hbody]; rfl⟩
    · rintro ⟨us', rest', heq, hrest⟩
      cases heq
      obtain ⟨vs, hvs⟩ := Option.isSome_iff_exists.mp hrest
      simp [hvs]

/-- A piece in front of a body that is read: where the two run into one another, the piece takes what it
can, character by character. -/
theorem isRead_append {p : List Char} (hp : Piece p us) (hrest : IsRead rest) :
    IsRead (p ++ rest) := by
  have hends : ∀ {p : List Char} {us : List Nat} {rest : List Char}, Piece p us → Ends p rest →
      IsRead rest → IsRead (p ++ rest) := by
    intro p us rest hp hends hrest
    have hpos := hp.length_pos
    obtain ⟨k, hk⟩ : ∃ k, (p ++ rest).length = k + 1 ∧ rest.length ≤ k :=
      ⟨p.length - 1 + rest.length, by rw [List.length_append]; omega, by omega⟩
    rw [IsRead, hk.1, bodyUnits_append hp hends, Option.isSome_map, bodyUnits_of_le hk.2]
    exact hrest
  induction rest generalizing p us with
  | nil => exact hends hp (fun c hc => by cases hc) hrest
  | cons c rest ih =>
    by_cases hlonger : ∃ ws, Piece (p ++ [c]) ws
    · obtain ⟨ws, hlonger⟩ := hlonger
      have hc : c ≠ '\\' := by
        rintro rfl
        exact hp.not_append_backslash hlonger
      have hbody := ih hlonger ((isRead_plain hc).mp hrest)
      rwa [List.append_assoc] at hbody
    · refine hends hp (fun e he ws hws => ?_) hrest
      cases he
      exact hlonger ⟨ws, hws⟩

theorem escape?_taken (h : Taken q) (hrest : IsRead rest) : IsRead ('\\' :: (q ++ rest)) := by
  cases h with
  | piece hp => exact isRead_append hp hrest
  | @byte d n hd =>
    have hn : n < 16 ^ 1 := hd.lt_pow (by decide)
    have hread : hexBelow? 0x10000 ['+', d] = some n :=
      hexBelow?_eq_some_iff.mpr ⟨.plus hd, by omega⟩
    exact isRead_escaped.mpr ⟨[n], rest, by simp [escape?, hread], hrest⟩
  | @unit ds n hds hlen =>
    have hn : n < 16 ^ ds.length := hds.lt_pow (by decide)
    rw [hlen] at hn
    obtain ⟨a, b, c, rfl⟩ := List.length_eq_three.mp hlen
    have hread : hexBelow? 0x10000 ['+', a, b, c] = some n :=
      hexBelow?_eq_some_iff.mpr ⟨.plus hds, by omega⟩
    exact isRead_escaped.mpr ⟨[n], rest, by simp [escape?, hread], hrest⟩
  | @point ds n hds hn =>
    have hbrace : '\x7d' ∉ '+' :: ds := by
      rw [List.mem_cons, not_or]
      exact ⟨by decide, hds.notMem (by decide) (by decide)⟩
    have hread : hexBelow? 0x100000000 ('+' :: ds) = some n :=
      hexBelow?_eq_some_iff.mpr ⟨.plus hds, by omega⟩
    have hcut : cutAt? '\x7d' ('+' :: (ds ++ '\x7d' :: rest)) = some ('+' :: ds, rest) :=
      cutAt?_append hbrace rest
    exact isRead_escaped.mpr
      ⟨pointUnits n, rest, by simp [escape?, hcut, hread, codePointUnits?_eq hn], hrest⟩

theorem Taken.shape (h : Taken q) : ∃ c more, q = c :: more ∧ '\\' ∉ more := by
  cases h with
  | piece hp =>
    cases hp with
    | plain hc => exact absurd rfl hc
    | control | itself => exact ⟨_, _, rfl, List.not_mem_nil⟩
    | octal hds =>
      have hnot := hds.notMem (c := '\\') (by decide) (by decide)
      obtain ⟨c, more, rfl⟩ := List.exists_cons_of_ne_nil hds.ne_nil
      exact ⟨c, more, rfl, fun hmem => hnot (List.mem_cons_of_mem _ hmem)⟩
    | byte hds => exact ⟨_, _, rfl, hds.notMem (by decide) (by decide)⟩
    | unit hds => exact ⟨_, _, rfl, hds.notMem (by decide) (by decide)⟩
    | point hds => exact ⟨_, _, rfl, by simpa using hds.notMem (by decide) (by decide)⟩
    | lineBreak hcs =>
      have hall : ∀ cs ∈ lineBreaks, cs ≠ [] ∧ '\\' ∉ cs := by decide
      obtain ⟨c, more, rfl⟩ := List.exists_cons_of_ne_nil (hall _ hcs).1
      exact ⟨c, more, rfl, fun hmem => (hall _ hcs).2 (List.mem_cons_of_mem _ hmem)⟩
  | byte hd => exact ⟨_, _, rfl, by simpa using hd.notMem (c := '\\') (by decide) (by decide)⟩
  | unit hds => exact ⟨_, _, rfl, by simpa using hds.notMem (c := '\\') (by decide) (by decide)⟩
  | point hds => exact ⟨_, _, rfl, by simpa using hds.notMem (c := '\\') (by decide) (by decide)⟩

/-- **The reader of bodies** takes plain characters and the escapes that are taken. -/
theorem reads_isRead : Reads Taken IsRead where
  nil := rfl
  plain := isRead_plain
  escaped := by
    intro cs
    constructor
    · intro h
      obtain ⟨us, rest, hescape, hrest⟩ := isRead_escaped.mp h
      obtain ⟨q, hcut, hq⟩ := taken_of_escape? hescape
      exact ⟨q, rest, hcut, hq, hrest⟩
    · rintro ⟨q, rest, rfl, hq, hrest⟩
      exact escape?_taken hq hrest
  shape := Taken.shape

/-- Only a plus sign lets a malformed escape pass. -/
theorem Broken.plus_mem (h : Broken (q ++ rest)) (hq : Taken q) : '+' ∈ q := by
  cases hq with
  | piece hp =>
    exfalso
    cases hp with
    | plain hc => exact hc rfl
    | control hc =>
      have hall : ∀ entry ∈ controlLetters, entry.1 ≠ 'x' ∧ entry.1 ≠ 'u' := by decide
      cases h with
      | byte => exact (hall _ hc).1 rfl
      | unit => exact (hall _ hc).2 rfl
    | octal hds =>
      have hread := hds.readDigits_eq (by decide)
      obtain ⟨c, more, rfl⟩ := List.exists_cons_of_ne_nil hds.ne_nil
      cases h with
      | byte => simp [readDigits, show digitIn? 8 'x' = none by decide] at hread
      | unit => simp [readDigits, show digitIn? 8 'u' = none by decide] at hread
    | byte hds =>
      cases h with
      | byte hno => exact hno _ _ hds rfl (List.prefix_append _ rest)
    | unit hds =>
      cases h with
      | unit hno _ => exact hno _ _ hds rfl (List.prefix_append _ rest)
    | point hds hn =>
      cases h with
      | unit _ hno => exact hno _ _ hds hn (List.prefix_append _ rest)
    | lineBreak hcs =>
      have hall : ∀ cs ∈ lineBreaks, cs ≠ [] ∧ 'x' ∉ cs ∧ 'u' ∉ cs := by decide
      obtain ⟨hne, hx, hu⟩ := hall _ hcs
      obtain ⟨c, more, rfl⟩ := List.exists_cons_of_ne_nil hne
      cases h with
      | byte => exact hx List.mem_cons_self
      | unit => exact hu List.mem_cons_self
    | itself hc =>
      cases h with
      | byte => exact hc (by decide)
      | unit => exact hc (by decide)
  | byte => simp
  | unit => simp
  | point => simp

theorem decodeEscapes?_eq_none_iff : decodeEscapes? body = none ↔ ¬ IsRead body := by
  rw [decodeEscapes?, Option.map_eq_none_iff, IsRead, Bool.not_eq_true, Option.isSome_eq_false_iff,
    Option.isNone_iff_eq_none]

end DepScope.Script
