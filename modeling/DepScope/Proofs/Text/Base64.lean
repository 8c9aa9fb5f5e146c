import DepScope.Text.Base64
import DepScope.Text.Utf8

/-!
# DepScope.Proofs.Text.Base64

Texts as bytes and bytes as names: both ways of writing can be undone, so different texts have
different bytes (`encode_injective`) and different bytes have different names
(`Base64.decode?_encode`, for the alphabet of file names).
-/

namespace DepScope.Text

/-- Different texts have different bytes. -/
theorem encode_injective {s t : String} (h : encode s = encode t) : s = t := by
  have hbytes : s.toList.utf8Encode = t.toList.utf8Encode := by
    simp only [List.utf8Encode]
    exact congrArg List.toByteArray h
  rw [← String.toByteArray_ofList, ← String.toByteArray_ofList, String.ofList_toList,
    String.ofList_toList] at hbytes
  exact String.toByteArray_inj.mp hbytes

namespace Base64

/-! ## Digits -/

theorem value?_digit {n : Nat} (h : n < 64) : urlSafe.value? (urlSafe.digit n) = some n := by
  have hall : ∀ n < 64, urlSafe.value? (urlSafe.digit n) = some n := by decide
  exact hall n h

theorem digit_ne_pad {n : Nat} (h : n < 64) : urlSafe.digit n ≠ '=' := by
  have hall : ∀ n < 64, urlSafe.digit n ≠ '=' := by decide
  exact hall n h

/-! ## Groups -/

theorem ofNat_eq {x : UInt8} {n : Nat} (h : n = x.toNat) : UInt8.ofNat n = x := by
  rw [h, UInt8.ofNat_toNat]

theorem lastOne?_encode (x : UInt8) :
    urlSafe.lastOne? (urlSafe.digit (x.toNat / 4)) (urlSafe.digit (x.toNat % 4 * 16)) =
      some [x] := by
  have hx := x.toNat_lt
  have hbyte : UInt8.ofNat (x.toNat / 4 * 4 + x.toNat % 4 * 16 / 16) = x := ofNat_eq (by omega)
  simp only [lastOne?, value?_digit (n := x.toNat / 4) (by omega),
    value?_digit (n := x.toNat % 4 * 16) (by omega), Option.bind_eq_bind, Option.bind_some]
  rw [if_pos (by omega), hbyte]

theorem lastTwo?_encode (x y : UInt8) :
    urlSafe.lastTwo? (urlSafe.digit (x.toNat / 4))
      (urlSafe.digit (x.toNat % 4 * 16 + y.toNat / 16)) (urlSafe.digit (y.toNat % 16 * 4)) =
      some [x, y] := by
  have hx := x.toNat_lt
  have hy := y.toNat_lt
  have hfirst : UInt8.ofNat (x.toNat / 4 * 4 + (x.toNat % 4 * 16 + y.toNat / 16) / 16) = x :=
    ofNat_eq (by omega)
  have hsecond :
      UInt8.ofNat ((x.toNat % 4 * 16 + y.toNat / 16) % 16 * 16 + y.toNat % 16 * 4 / 4) = y :=
    ofNat_eq (by omega)
  simp only [lastTwo?, value?_digit (n := x.toNat / 4) (by omega),
    value?_digit (n := x.toNat % 4 * 16 + y.toNat / 16) (by omega),
    value?_digit (n := y.toNat % 16 * 4) (by omega), Option.bind_eq_bind, Option.bind_some]
  rw [if_pos (by omega), hfirst, hsecond]

theorem group?_encode (x y z : UInt8) :
    urlSafe.group? (urlSafe.digit (x.toNat / 4))
      (urlSafe.digit (x.toNat % 4 * 16 + y.toNat / 16))
      (urlSafe.digit (y.toNat % 16 * 4 + z.toNat / 64)) (urlSafe.digit (z.toNat % 64)) =
      some [x, y, z] := by
  have hx := x.toNat_lt
  have hy := y.toNat_lt
  have hz := z.toNat_lt
  have hfirst : UInt8.ofNat (x.toNat / 4 * 4 + (x.toNat % 4 * 16 + y.toNat / 16) / 16) = x :=
    ofNat_eq (by omega)
  have hsecond : UInt8.ofNat ((x.toNat % 4 * 16 + y.toNat / 16) % 16 * 16 +
      (y.toNat % 16 * 4 + z.toNat / 64) / 4) = y := ofNat_eq (by omega)
  have hthird : UInt8.ofNat ((y.toNat % 16 * 4 + z.toNat / 64) % 4 * 64 + z.toNat % 64) = z :=
    ofNat_eq (by omega)
  simp only [group?, value?_digit (n := x.toNat / 4) (by omega),
    value?_digit (n := x.toNat % 4 * 16 + y.toNat / 16) (by omega),
    value?_digit (n := y.toNat % 16 * 4 + z.toNat / 64) (by omega),
    value?_digit (n := z.toNat % 64) (by omega), Option.bind_eq_bind, Option.bind_some]
  rw [hfirst, hsecond, hthird]
  rfl

/-- A group that does not end in padding is a full one. -/
theorem decode?_group {p q r s : Char} (rest : List Char) (h : s ≠ '=') :
    urlSafe.decode? (p :: q :: r :: s :: rest) =
      (do return (← urlSafe.group? p q r s) ++ (← urlSafe.decode? rest)) := by
  rw [decode?]
  · exact fun _ hs => absurd hs h
  · exact fun hs => absurd hs h

/-- **Bytes are read back from their text.** -/
theorem decode?_encode (bs : List UInt8) : urlSafe.decode? (urlSafe.encode bs) = some bs := by
  fun_induction urlSafe.encode bs with
  | case1 => rfl
  | case2 x => exact lastOne?_encode x
  | case3 x y _ _ heq =>
    cases heq
    exact lastTwo?_encode x y
  | case4 x y z rest _ _ _ heq ih =>
    cases heq
    rw [decode?_group _ (digit_ne_pad (Nat.mod_lt _ (by decide))), group?_encode, ih]
    rfl

/-- A text consists of digits only. -/
theorem exists_digit_of_mem_encode {bs : List UInt8} {c : Char} (h : c ∈ urlSafe.encode bs) :
    ∃ n < 64, c = urlSafe.digit n := by
  have hdigit {n : Nat} (hn : n < 64) : ∃ m < 64, urlSafe.digit n = urlSafe.digit m := ⟨n, hn, rfl⟩
  fun_induction urlSafe.encode bs with
  | case1 => cases h
  | case2 x =>
    have hx := x.toNat_lt
    simp only [pad, urlSafe, Bool.false_eq_true, if_false, List.mem_cons, List.not_mem_nil,
      or_false] at h
    obtain rfl | rfl := h <;> exact hdigit (by omega)
  | case3 x y _ _ heq =>
    cases heq
    have hx := x.toNat_lt
    have hy := y.toNat_lt
    simp only [pad, urlSafe, Bool.false_eq_true, if_false, List.mem_cons, List.not_mem_nil,
      or_false] at h
    obtain rfl | rfl | rfl := h <;> exact hdigit (by omega)
  | case4 x y z rest _ _ _ heq ih =>
    cases heq
    have hx := x.toNat_lt
    have hy := y.toNat_lt
    have hz := z.toNat_lt
    simp only [List.mem_cons] at h
    obtain rfl | rfl | rfl | rfl | h := h
    · exact hdigit (by omega)
    · exact hdigit (by omega)
    · exact hdigit (by omega)
    · exact hdigit (by omega)
    · exact ih h

theorem encode_urlSafe_injective {bs bs' : List UInt8}
    (h : urlSafe.encode bs = urlSafe.encode bs') : bs = bs' := by
  have hdecoded := decode?_encode bs
  rw [h, decode?_encode] at hdecoded
  exact (Option.some.inj hdecoded).symm

end Base64

end DepScope.Text
