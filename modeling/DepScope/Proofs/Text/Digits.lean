import DepScope.Power
import DepScope.Text.Chars

/-!
# DepScope.Proofs.Text.Digits

Digits that are read as numbers. What is written with four hexadecimal digits is read back
(`natIn?_hex4`), the case of letters does not matter (`natIn?_map_lowerAscii`), and a sequence that is
read consists of digits and letters only (`isAsciiAlnum_of_natIn?`). In bases up to sixteen a sequence
is read as the number it denotes (`natIn?_eq_some_iff`).
-/

namespace DepScope.Text

variable {b acc n : Nat} {c : Char} {cs ds : List Char}

theorem readDigits_append (b acc : Nat) (cs ds : List Char) :
    readDigits b acc (cs ++ ds) = (readDigits b acc cs).bind fun acc => readDigits b acc ds := by
  induction cs generalizing acc with
  | nil => rfl
  | cons c cs ih => simp only [List.cons_append, readDigits, ih, Option.bind_assoc]

/-! ## The case of letters -/

theorem digitValue?_lowerAscii (c : Char) : digitValue? (lowerAscii c) = digitValue? c := by
  unfold lowerAscii
  split
  · next h =>
    have hall : ∀ n ≤ 90, 65 ≤ n →
        digitValue? (Char.ofNat (n + 32)) = digitValue? (Char.ofNat n) := by decide
    simp only [Bool.and_eq_true, decide_eq_true_eq, Char.le_def] at h
    have hc := hall c.toNat h.2 h.1
    rwa [Char.ofNat_toNat] at hc
  · rfl

theorem readDigits_map_lowerAscii (b acc : Nat) (cs : List Char) :
    readDigits b acc (cs.map lowerAscii) = readDigits b acc cs := by
  induction cs generalizing acc with
  | nil => rfl
  | cons c cs ih => simp only [List.map_cons, readDigits, digitIn?, digitValue?_lowerAscii, ih]

theorem natIn?_map_lowerAscii (b : Nat) (cs : List Char) :
    natIn? b (cs.map lowerAscii) = natIn? b cs := by
  cases cs with
  | nil => rfl
  | cons c cs => exact readDigits_map_lowerAscii b 0 (c :: cs)

/-! ## Which characters are read -/

theorem isAsciiAlnum_of_digitIn? (h : (digitIn? b c).isSome) : isAsciiAlnum c = true := by
  have hvalue : (digitValue? c).isSome := by
    obtain ⟨v, hv⟩ := Option.isSome_iff_exists.mp h
    rw [digitIn?, Option.filter_eq_some_iff] at hv
    simp [hv.1]
  unfold digitValue? at hvalue
  unfold isAsciiAlnum isAsciiLetter
  split at hvalue
  · next hd => simp [hd]
  · split at hvalue
    · next hl => simp [hl]
    · split at hvalue
      · next hu => simp [hu]
      · cases hvalue

theorem isAsciiAlnum_of_readDigits (h : readDigits b acc cs = some n) :
    ∀ c ∈ cs, isAsciiAlnum c = true := by
  induction cs generalizing acc with
  | nil => exact List.forall_mem_nil _
  | cons c cs ih =>
    rw [readDigits, Option.bind_eq_some_iff] at h
    obtain ⟨v, hv, hrest⟩ := h
    have hc : isAsciiAlnum c = true := isAsciiAlnum_of_digitIn? (Option.isSome_of_eq_some hv)
    exact List.forall_mem_cons.mpr ⟨hc, ih hrest⟩

theorem isAsciiAlnum_of_natIn? (h : natIn? b cs = some n) : ∀ c ∈ cs, isAsciiAlnum c = true := by
  cases cs with
  | nil => cases h
  | cons c cs => exact isAsciiAlnum_of_readDigits h

/-! ## Four hexadecimal digits -/

theorem digitIn?_digitChar (h : n < 16) : digitIn? 16 n.digitChar = some n := by
  have hall : ∀ n < 16, digitIn? 16 n.digitChar = some n := by decide
  exact hall n h

theorem readDigits_toDigits (n : Nat) : readDigits 16 0 (Nat.toDigits 16 n) = some n := by
  induction n using Nat.strongRecOn with
  | ind n ih =>
    by_cases hn : n < 16
    · rw [Nat.toDigits_of_lt_base hn]
      simp [readDigits, digitIn?_digitChar hn]
    · have hmod : n % 16 < 16 := Nat.mod_lt _ (by decide)
      rw [Nat.toDigits_of_base_le (by decide) (by omega), readDigits_append, ih (n / 16) (by omega)]
      simp [readDigits, digitIn?_digitChar hmod, Nat.div_add_mod']

theorem readDigits_zeros (k : Nat) : readDigits 16 0 (List.replicate k '0') = some 0 := by
  have hzero : digitIn? 16 '0' = some 0 := by decide
  induction k with
  | zero => rfl
  | succ k ih => simp [List.replicate_succ, readDigits, hzero, ih]

theorem hex4_ne_nil (n : Nat) : hex4 n ≠ [] := by
  simp [hex4, Nat.toDigits_ne_nil]

/-- **What is written with hexadecimal digits is read back.** -/
theorem natIn?_hex4 (n : Nat) : natIn? 16 (hex4 n) = some n := by
  have hread : readDigits 16 0 (hex4 n) = some n := by
    rw [hex4, readDigits_append, readDigits_zeros, Option.bind_some, readDigits_toDigits]
  obtain ⟨c, cs, hcs⟩ := List.exists_cons_of_ne_nil (hex4_ne_nil n)
  rw [hcs] at hread ⊢
  exact hread

theorem length_hex4 (h : n < 0x10000) : (hex4 n).length = 4 := by
  have hlen : (Nat.toDigits 16 n).length ≤ 4 :=
    (Nat.length_toDigits_le_iff (by decide) (by decide)).mpr h
  simp only [hex4, List.length_append, List.length_replicate]
  omega

/-! ## What digits denote -/

/-- A digit of a base, in lower or upper case. -/
def IsDigit (base : Nat) (c : Char) (d : Nat) : Prop :=
  d < base ∧ (c = d.digitChar ∨ c = d.digitChar.toUpper)

/-- One or more digits and the number they denote in a base. -/
inductive Denotes (base : Nat) : List Char → Nat → Prop
  | digit {c : Char} {d : Nat} : IsDigit base c d → Denotes base [c] d
  | append {cs : List Char} {c : Char} {n d : Nat} :
    Denotes base cs n → IsDigit base c d → Denotes base (cs ++ [c]) (n * base + d)

theorem toNat_lt_of_isAsciiAlnum (h : isAsciiAlnum c = true) : c.toNat < 128 := by
  simp only [isAsciiAlnum, isAsciiLetter, isAsciiDigit, Bool.or_eq_true, Bool.and_eq_true,
    decide_eq_true_eq, Char.le_def, UInt32.le_iff_toNat_le] at h
  have hz : 'z'.val.toNat = 122 := rfl
  have hZ : 'Z'.val.toNat = 90 := rfl
  have h9 : '9'.val.toNat = 57 := rfl
  change c.val.toNat < 128
  omega

theorem digitIn?_eq_some_iff (hb : b ≤ 16) {d : Nat} : digitIn? b c = some d ↔ IsDigit b c d := by
  rw [digitIn?, Option.filter_eq_some_iff, decide_eq_true_eq, and_comm]
  refine and_congr_right fun hd => ⟨fun h => ?_, fun h => ?_⟩
  · have hall : ∀ n < 128, ∀ d < 16, digitValue? (Char.ofNat n) = some d →
        Char.ofNat n = d.digitChar ∨ Char.ofNat n = d.digitChar.toUpper := by decide +kernel
    have hascii : c.toNat < 128 :=
      toNat_lt_of_isAsciiAlnum (isAsciiAlnum_of_digitIn? (b := b) (by simp [digitIn?, h, hd]))
    have hc := hall c.toNat hascii d (by omega)
    rw [Char.ofNat_toNat] at hc
    exact hc h
  · have hall : ∀ d < 16, digitValue? d.digitChar = some d ∧
        digitValue? d.digitChar.toUpper = some d := by decide
    obtain rfl | rfl := h
    · exact (hall d (by omega)).1
    · exact (hall d (by omega)).2

/-- Digits that are read behind others. -/
theorem Denotes.append_readDigits (hb : b ≤ 16) (hds : Denotes b ds acc)
    (h : readDigits b acc cs = some n) : Denotes b (ds ++ cs) n := by
  induction cs generalizing ds acc with
  | nil =>
    cases h
    rwa [List.append_nil]
  | cons c cs ih =>
    rw [readDigits, Option.bind_eq_some_iff] at h
    obtain ⟨d, hd, hrest⟩ := h
    have hmore := ih (hds.append ((digitIn?_eq_some_iff hb).mp hd)) hrest
    rwa [List.append_assoc] at hmore

theorem Denotes.ne_nil (h : Denotes b cs n) : cs ≠ [] := by
  cases h with
  | digit => exact List.cons_ne_nil _ _
  | append => exact List.append_ne_nil_of_right_ne_nil _ (List.cons_ne_nil _ _)

theorem Denotes.readDigits_eq (hb : b ≤ 16) (h : Denotes b cs n) : readDigits b 0 cs = some n := by
  induction h with
  | digit hd => simp [readDigits, (digitIn?_eq_some_iff hb).mpr hd]
  | append _ hd ih => simp [readDigits_append, ih, readDigits, (digitIn?_eq_some_iff hb).mpr hd]

/-- The digits in front settle the size of a number. -/
theorem readDigits_bounds (h : readDigits b acc cs = some n) :
    acc * b ^ cs.length ≤ n ∧ n < (acc + 1) * b ^ cs.length := by
  induction cs generalizing acc with
  | nil =>
    cases h
    simp
  | cons c cs ih =>
    rw [readDigits, Option.bind_eq_some_iff] at h
    obtain ⟨d, hd, hrest⟩ := h
    have hlt : d < b := by simpa using (Option.filter_eq_some_iff.mp hd).2
    obtain ⟨hlow, hhigh⟩ := ih hrest
    have hnext : acc * b + d + 1 ≤ (acc + 1) * b := by
      rw [Nat.add_mul]
      omega
    rw [List.length_cons, Nat.pow_succ', ← Nat.mul_assoc, ← Nat.mul_assoc]
    exact ⟨Nat.le_trans (Nat.mul_le_mul_right _ (Nat.le_add_right _ d)) hlow,
      Nat.lt_of_lt_of_le hhigh (Nat.mul_le_mul_right _ hnext)⟩

theorem Denotes.lt_pow (hb : b ≤ 16) (h : Denotes b cs n) : n < b ^ cs.length := by
  have hbound := (readDigits_bounds (h.readDigits_eq hb)).2
  rwa [Nat.zero_add, Nat.one_mul] at hbound

/-- **Digits are read as the number they denote.** -/
theorem natIn?_eq_some_iff (hb : b ≤ 16) : natIn? b cs = some n ↔ Denotes b cs n := by
  constructor
  · intro h
    cases cs with
    | nil => cases h
    | cons c cs =>
      rw [natIn?, readDigits, Option.bind_eq_some_iff] at h
      · obtain ⟨d, hd, hrest⟩ := h
        rw [Nat.zero_mul, Nat.zero_add] at hrest
        exact (Denotes.digit ((digitIn?_eq_some_iff hb).mp hd)).append_readDigits hb hrest
      · exact List.cons_ne_nil c cs
  · intro h
    rw [natIn?]
    · exact h.readDigits_eq hb
    · exact h.ne_nil

theorem Denotes.notMem (hb : b ≤ 16) (h : Denotes b cs n) (hc : isAsciiAlnum c = false) : c ∉ cs := by
  intro hmem
  rw [isAsciiAlnum_of_natIn? ((natIn?_eq_some_iff hb).mpr h) c hmem] at hc
  cases hc

end DepScope.Text
