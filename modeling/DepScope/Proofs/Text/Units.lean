import DepScope.Text.Units

/-!
# DepScope.Proofs.Text.Units

Texts and their code units. Units decode in one way (`decodes_iff`): the units of a character are that
character, and a surrogate that is not half of a pair is U+FFFD. So what is decoded does not depend on
where the units come from: the two halves of a character give the character (`ofUnits_append_char`).
-/

namespace DepScope.Text

variable {u v : Nat} {us vs : List Nat} {c : Char} {cs : List Char}

/-- The units of a character: itself, or two halves that are put together again. -/
theorem unitsOf_cases (c : Char) :
    (unitsOf c = [c.toNat] ∧ c.toNat < 0x10000 ∧ isHighSurrogate c.toNat = false ∧
      isLowSurrogate c.toNat = false) ∨
    ∃ high low, unitsOf c = [high, low] ∧ high < 0x10000 ∧ low < 0x10000 ∧
      isHighSurrogate high = true ∧ isLowSurrogate high = false ∧ isLowSurrogate low = true ∧
      joinSurrogates high low = c := by
  have hvalid : c.toNat < 0xD800 ∨ 0xDFFF < c.toNat ∧ c.toNat < 0x110000 := c.valid
  simp only [unitsOf, isHighSurrogate, isLowSurrogate, Bool.and_eq_true, Bool.and_eq_false_iff,
    decide_eq_true_eq, decide_eq_false_iff_not]
  split
  · exact .inl ⟨rfl, by omega, by omega, by omega⟩
  · refine .inr ⟨_, _, rfl, by omega, by omega, by omega, by omega, by omega, ?_⟩
    have hback : 0x10000 + (0xD800 + (c.toNat - 0x10000) / 0x400 - 0xD800) * 0x400 +
        (0xDC00 + (c.toNat - 0x10000) % 0x400 - 0xDC00) = c.toNat := by omega
    rw [joinSurrogates, hback, Char.ofNat_toNat]

/-! ## Decoding, unit by unit -/

/-- Is this half of a pair? -/
def IsSurrogate (u : Nat) : Prop :=
  isHighSurrogate u = true ∨ isLowSurrogate u = true

theorem isSurrogate_iff : (isHighSurrogate u || isLowSurrogate u) = true ↔ IsSurrogate u :=
  Bool.or_eq_true_iff

/-- Is this a first half, in front of a second one? -/
def StartsPair (u : Nat) (us : List Nat) : Prop :=
  isHighSurrogate u = true ∧ ∃ v ∈ us.head?, isLowSurrogate v = true

/-- A text and the units that stand for it. -/
inductive Decodes : List Nat → List Char → Prop
  | nil : Decodes [] []
  | char {us : List Nat} {cs : List Char} (c : Char) :
    Decodes us cs → Decodes (unitsOf c ++ us) (c :: cs)
  | alone {u : Nat} {us : List Nat} {cs : List Char} :
    IsSurrogate u → ¬ StartsPair u us → Decodes us cs → Decodes (u :: us) ('\uFFFD' :: cs)

theorem ofUnits_cons_alone (hu : IsSurrogate u) (hpair : ¬ StartsPair u us) :
    ofUnits (u :: us) = '\uFFFD' :: ofUnits us := by
  cases us with
  | nil => simp only [ofUnits, isSurrogate_iff.mpr hu, if_true]
  | cons v us =>
    obtain hhigh | hlow := hu
    · have hv : isLowSurrogate v = false := by simpa [StartsPair, hhigh] using hpair
      simp [ofUnits, hhigh, hv]
    · have hhigh : isHighSurrogate u = false := by
        simp only [isHighSurrogate, isLowSurrogate, Bool.and_eq_true, Bool.and_eq_false_iff,
          decide_eq_true_eq, decide_eq_false_iff_not] at hlow ⊢
        omega
      simp [ofUnits, hhigh, hlow]

theorem ofUnits_cons_plain (hu : ¬ IsSurrogate u) :
    ofUnits (u :: us) = Char.ofNat u :: ofUnits us := by
  obtain ⟨hhigh, hlow⟩ := not_or.mp hu
  cases us with
  | nil => simp [ofUnits, hhigh, hlow]
  | cons v us => simp [ofUnits, hhigh, hlow]

theorem ofUnits_unitsOf_append (c : Char) (us : List Nat) :
    ofUnits (unitsOf c ++ us) = c :: ofUnits us := by
  obtain ⟨hunits, -, hhigh, hlow⟩ | ⟨high, low, hunits, -, -, hhigh, -, hlow, hjoin⟩ :=
    unitsOf_cases c
  · rw [hunits, List.singleton_append, ofUnits_cons_plain, Char.ofNat_toNat]
    simp [IsSurrogate, hhigh, hlow]
  · rw [hunits]
    simp [ofUnits, hhigh, hlow, hjoin]

theorem Decodes.eq_ofUnits (h : Decodes us cs) : cs = ofUnits us := by
  induction h with
  | nil => rfl
  | char c _ ih => rw [ofUnits_unitsOf_append, ih]
  | alone hu hpair _ ih => rw [ofUnits_cons_alone hu hpair, ih]

theorem toNat_ofNat (h : u < 0xD800 ∨ 0xDFFF < u ∧ u < 0x110000) : (Char.ofNat u).toNat = u := by
  rw [Char.ofNat, dif_pos h]
  rfl

theorem unitsOf_ofNat (hu : u < 0x10000) (hplain : ¬ IsSurrogate u) :
    unitsOf (Char.ofNat u) = [u] := by
  simp only [IsSurrogate, isHighSurrogate, isLowSurrogate, Bool.and_eq_true,
    decide_eq_true_eq] at hplain
  rw [unitsOf, toNat_ofNat (by omega), if_pos hu]

theorem unitsOf_joinSurrogates (hu : isHighSurrogate u = true) (hv : isLowSurrogate v = true) :
    unitsOf (joinSurrogates u v) = [u, v] := by
  simp only [isHighSurrogate, isLowSurrogate, Bool.and_eq_true, decide_eq_true_eq] at hu hv
  rw [unitsOf, joinSurrogates, toNat_ofNat (by omega), if_neg (by omega)]
  simp only [List.cons.injEq, and_true]
  constructor <;> omega

theorem decodes_ofUnits (h : ∀ u ∈ us, u < 0x10000) : Decodes us (ofUnits us) := by
  fun_induction ofUnits us with
  | case1 => exact .nil
  | case2 u =>
    split
    · next hu =>
      refine .alone (isSurrogate_iff.mp hu) ?_ .nil
      simp [StartsPair]
    · next hu =>
      have hplain : ¬ IsSurrogate u := fun hs => hu (isSurrogate_iff.mpr hs)
      have hrest := Decodes.char (Char.ofNat u) .nil
      rwa [unitsOf_ofNat (h u List.mem_cons_self) hplain] at hrest
  | case3 u v us hhigh hlow ih =>
    have hrest := Decodes.char (joinSurrogates u v) (ih (by simp_all))
    rwa [unitsOf_joinSurrogates hhigh hlow] at hrest
  | case4 u v us hhigh hlow ih =>
    refine .alone (.inl hhigh) ?_ (ih (by simp_all))
    simp [StartsPair, hlow]
  | case5 u v us hhigh hlow ih =>
    refine .alone (.inr hlow) ?_ (ih (by simp_all))
    simp [StartsPair, hhigh]
  | case6 u v us hhigh hlow ih =>
    have hrest := Decodes.char (Char.ofNat u) (ih (by simp_all))
    rwa [unitsOf_ofNat (h u List.mem_cons_self) (not_or.mpr ⟨hhigh, hlow⟩)] at hrest

/-- **Units decode in one way.** -/
theorem decodes_iff (h : ∀ u ∈ us, u < 0x10000) : Decodes us cs ↔ cs = ofUnits us :=
  ⟨Decodes.eq_ofUnits, fun heq => heq ▸ decodes_ofUnits h⟩

/-! ## Units put together -/

/-- No text begins with a second half. -/
theorem isLowSurrogate_head_unitsOf (c : Char) :
    ∀ v ∈ (unitsOf c ++ us).head?, isLowSurrogate v = false := by
  obtain ⟨hunits, -, -, hlow⟩ | ⟨high, low, hunits, -, -, -, hlow, -⟩ := unitsOf_cases c
  · simpa [hunits] using hlow
  · simpa [hunits] using hlow

/-- Units are decoded apart where no pair is cut in two. -/
theorem ofUnits_append (h : ∀ v ∈ vs.head?, isLowSurrogate v = false) :
    ofUnits (us ++ vs) = ofUnits us ++ ofUnits vs := by
  fun_induction ofUnits us with
  | case1 => rfl
  | case2 u =>
    split
    · next hu =>
      rw [List.singleton_append, ofUnits_cons_alone (isSurrogate_iff.mp hu)]
      · rfl
      · rintro ⟨-, v, hv, hlow⟩
        simp [h v hv] at hlow
    · next hu =>
      rw [List.singleton_append, ofUnits_cons_plain fun hs => hu (isSurrogate_iff.mpr hs)]
      rfl
  | case3 u v us hhigh hlow ih => simp [ofUnits, hhigh, hlow, ih]
  | case4 u v us hhigh hlow ih => simp [ofUnits, hhigh, hlow, ← ih]
  | case5 u v us hhigh hlow ih => simp [ofUnits, hhigh, hlow, ← ih]
  | case6 u v us hhigh hlow ih => simp [ofUnits, hhigh, hlow, ← ih]

/-- **The units of a character give the character, whatever stands around them.** -/
theorem ofUnits_append_char (us : List Nat) (c : Char) (vs : List Nat) :
    ofUnits (us ++ unitsOf c ++ vs) = ofUnits us ++ c :: ofUnits vs := by
  rw [List.append_assoc, ofUnits_append (isLowSurrogate_head_unitsOf c), ofUnits_unitsOf_append]

end DepScope.Text
