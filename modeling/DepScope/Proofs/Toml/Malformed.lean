import DepScope.Proofs.Toml.Written

/-!
# DepScope.Proofs.Toml.Malformed

Malformed escapes of basic strings: the number of a character that is missing or that names none.

1. The reader of a body takes plain characters and escapes one by one; the digits of a number may have
   a plus sign in front (`reads_isRead`).
2. A body is refused unless it is put together from these, and a number that is malformed passes only
   with a plus sign (`Broken.plus_mem`).
3. The literal is refused with its body, on one line and on several (`isSome_decodeString?`).
-/

namespace DepScope.Toml

open Text

variable {skips : Char → Bool} {c : Char} {q cs rest raw body : List Char}

/-- What follows the backslash of a malformed number: a letter that announces a number of digits, but
not that many digits of a character. -/
inductive Broken : List Char → Prop
  | number {l : Char} {k : Nat} {rest : List Char} : (l, k) ∈ numberLetters →
    (∀ ds (c : Char), ds.length = k → Denotes 16 ds c.toNat → ¬ ds <+: rest) → Broken (l :: rest)

/-- What follows the backslash of an escape that is taken. -/
inductive Taken (skips : Char → Bool) : List Char → Prop
  | short {e c : Char} : (e, c) ∈ shortLetters → Taken skips [e]
  | number {l c : Char} {k : Nat} {ds : List Char} :
    (l, k) ∈ numberLetters → ds.length = k → Signed ds c.toNat → Taken skips (l :: ds)
  | blanks {bs : List Char} : bs ≠ [] → (∀ b ∈ bs, skips b = true) → Taken skips bs

/-- The reader accepts a body. -/
def IsRead (skips : Char → Bool) (body : List Char) : Prop :=
  (unescaped? skips body).isSome = true

/-! ## Bodies -/

theorem isRead_plain (hc : c ≠ '\\') : IsRead skips (c :: cs) ↔ IsRead skips cs := by
  rw [IsRead, IsRead, unescaped?_plain hc, Option.isSome_map]

theorem isRead_blanks (hskips : ∀ b, skips b = true → isBlank b = true) (cs : List Char) :
    IsRead skips (cs.dropWhile skips) ↔ IsRead skips cs := by
  induction cs with
  | nil => rfl
  | cons c cs ih =>
    by_cases hc : skips c = true
    · have hne : c ≠ '\\' := by
        rintro rfl
        exact absurd (hskips '\\' hc) (by decide)
      rw [List.dropWhile_cons_of_pos hc, isRead_plain hne, ih]
    · rw [List.dropWhile_cons_of_neg hc]

theorem Taken.isRead (hskips : ∀ b, skips b = true → isBlank b = true) (hq : Taken skips q)
    (hrest : IsRead skips rest) : IsRead skips ('\\' :: (q ++ rest)) := by
  cases hq with
  | short h =>
    rw [IsRead, List.singleton_append, unescaped?_short h, Option.isSome_map]
    exact hrest
  | @number l c k ds h hlen hds =>
    rw [IsRead, List.cons_append, unescaped?_number h, if_neg (by simp; omega),
      List.take_left' hlen, List.drop_left' hlen, scalar?_eq_some_iff.mpr hds, Option.bind_some,
      Option.isSome_map]
    exact hrest
  | blanks hne hbs =>
    rw [IsRead, unescaped?_blanks hskips hne hbs]
    exact (isRead_blanks hskips rest).mpr hrest

/-- **Only escapes that are taken are read.** -/
theorem exists_taken (hskips : ∀ b, skips b = true → isBlank b = true)
    (h : IsRead skips ('\\' :: cs)) :
    ∃ q rest, cs = q ++ rest ∧ Taken skips q ∧ IsRead skips rest := by
  cases cs with
  | nil => cases h
  | cons e cs =>
    by_cases hshort : ∃ x, (e, x) ∈ shortLetters
    · obtain ⟨x, hx⟩ := hshort
      rw [IsRead, unescaped?_short hx, Option.isSome_map] at h
      exact ⟨[e], cs, rfl, .short hx, h⟩
    · by_cases hnumber : ∃ k, (e, k) ∈ numberLetters
      · obtain ⟨k, hk⟩ := hnumber
        rw [IsRead, unescaped?_number hk] at h
        split at h
        · cases h
        · next hlen =>
          cases hx : scalar? (cs.take k) with
          | none => simp [hx] at h
          | some x =>
            rw [hx, Option.bind_some, Option.isSome_map] at h
            refine ⟨e :: cs.take k, cs.drop k, by simp, ?_, h⟩
            exact .number hk (by rw [List.length_take]; omega) (scalar?_eq_some_iff.mp hx)
      · rw [IsRead, unescaped?_other (not_exists.mp hshort) (not_exists.mp hnumber)] at h
        split at h
        · next he =>
          have hblank : ∀ b ∈ [e], skips b = true := by simpa using he
          exact ⟨[e], cs, rfl, .blanks (by simp) hblank, (isRead_blanks hskips cs).mp h⟩
        · cases h

theorem Taken.shape (hskips : ∀ b, skips b = true → isBlank b = true) (h : Taken skips q) :
    ∃ c more, q = c :: more ∧ '\\' ∉ more := by
  cases h with
  | short => exact ⟨_, _, rfl, List.not_mem_nil⟩
  | number _ _ hds => exact ⟨_, _, rfl, hds.backslash_notMem⟩
  | blanks hne hbs =>
    obtain ⟨c, more, rfl⟩ := List.exists_cons_of_ne_nil hne
    refine ⟨c, more, rfl, fun hmem => ?_⟩
    exact absurd (hskips '\\' (hbs '\\' (List.mem_cons_of_mem _ hmem))) (by decide)

/-- **The reader of bodies** takes plain characters and the escapes that are taken. -/
theorem reads_isRead (hskips : ∀ b, skips b = true → isBlank b = true) :
    Reads (Taken skips) (IsRead skips) where
  nil := rfl
  plain := isRead_plain
  escaped := by
    intro cs
    refine ⟨exists_taken hskips, ?_⟩
    rintro ⟨q, rest, rfl, hq, hrest⟩
    exact hq.isRead hskips hrest
  shape := Taken.shape hskips

/-- Only a plus sign lets a malformed number pass. -/
theorem Broken.plus_mem (hskips : ∀ b, skips b = true → isBlank b = true)
    (h : Broken (q ++ rest)) (hq : Taken skips q) : '+' ∈ q := by
  have hletters : ∀ entry ∈ numberLetters, ∀ entry' ∈ shortLetters, entry.1 ≠ entry'.1 := by decide
  cases hq with
  | short hshort =>
    cases h with
    | number hnumber => exact absurd rfl (hletters _ hnumber _ hshort)
  | @number l c k ds hl hlen hds =>
    refine Decidable.byContradiction fun hplus => ?_
    cases h with
    | @number _ k' _ hl' hno =>
      have hk : k' = k := by
        have hall : ∀ a ∈ numberLetters, ∀ b ∈ numberLetters, a.1 = b.1 → a.2 = b.2 := by decide
        exact hall _ hl' _ hl rfl
      have hdenotes := hds.denotes fun hmem => hplus (List.mem_cons_of_mem _ hmem)
      exact hno ds c (hlen.trans hk.symm) hdenotes (List.prefix_append ds rest)
  | blanks hne hbs =>
    obtain ⟨e, more, rfl⟩ := List.exists_cons_of_ne_nil hne
    cases h with
    | number hnumber =>
      have hblank := hskips e (hbs e List.mem_cons_self)
      exact absurd hnumber ((notMem_letters_of_isBlank hblank).2 _)

/-! ## Literals -/

/-- A basic string with what counts as a blank in it, and its body: on one line, where it does not open
like one on several lines, or on several. -/
inductive IsBasic : List Char → (Char → Bool) → List Char → Prop
  | line {body : List Char} :
    body.head? ≠ some '"' → IsBasic (['"'] ++ body ++ ['"']) (fun _ => false) body
  | lines {body : List Char} :
    IsBasic (['"', '"', '"'] ++ body ++ ['"', '"', '"']) isBlank body

theorem IsBasic.isBlank_of_skips (h : IsBasic raw skips body) :
    ∀ b, skips b = true → isBlank b = true := by
  cases h with
  | line => exact fun _ hb => by cases hb
  | lines => exact fun _ => id

/-- The literal is read if its body is; the break that is left out does not matter. -/
theorem IsBasic.isSome_decodeString? (h : IsBasic raw skips body) :
    (decodeString? raw).isSome = true ↔ IsRead skips body := by
  cases h with
  | line hbody => rw [decodeString?_line hbody, IsRead]
  | lines =>
    rw [decodeString?_lines]
    unfold trimBreak
    split
    · rw [isRead_plain (by decide), isRead_plain (by decide), IsRead]
    · rw [isRead_plain (by decide), IsRead]
    · rw [IsRead]

end DepScope.Toml
