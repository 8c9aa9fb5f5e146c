import DepScope.Proofs.Text.Digits

/-!
# DepScope.Proofs.Text.Escapes

Texts in which a backslash begins an escape, for every language of escapes.

1. Hexadecimal digits are read with a plus sign in front, too (`hexBelow?_eq_some_iff`).
2. A reader that takes plain characters and escapes one by one (`Reads`) accepts exactly the texts
   that are put together from them (`Reads.accepts_iff`).
3. If the reader accepts a text although an escape in it is malformed (`SomeEscape`), then it takes
   escapes of a kind that gives it away (`Reads.mem_of_someEscape`), such as a plus sign.
-/

namespace DepScope.Text

variable {c : Char} {ds cs body : List Char} {bound n : Nat}

/-! ## Hexadecimal digits with a sign -/

/-- Hexadecimal digits with or without a plus sign in front, and the number they denote. -/
inductive Signed : List Char → Nat → Prop
  | bare {ds : List Char} {n : Nat} : Denotes 16 ds n → Signed ds n
  | plus {ds : List Char} {n : Nat} : Denotes 16 ds n → Signed ('+' :: ds) n

theorem Signed.denotes (h : Signed ds n) (hplus : '+' ∉ ds) : Denotes 16 ds n := by
  cases h with
  | bare h => exact h
  | plus => exact absurd List.mem_cons_self hplus

theorem Signed.backslash_notMem (h : Signed ds n) : '\\' ∉ ds := by
  cases h with
  | bare h => exact h.notMem (by decide) (by decide)
  | plus h =>
    rw [List.mem_cons, not_or]
    exact ⟨by decide, h.notMem (by decide) (by decide)⟩

theorem hexBelow?_eq_some_iff : hexBelow? bound ds = some n ↔ Signed ds n ∧ n < bound := by
  have hread (ds : List Char) : natIn? 16 ds = some n ↔ Denotes 16 ds n :=
    natIn?_eq_some_iff (by decide)
  unfold hexBelow?
  simp only [Option.filter_eq_some_iff, decide_eq_true_eq, and_congr_left_iff]
  intro _
  split
  · next more =>
    rw [hread]
    refine ⟨.plus, fun h => ?_⟩
    cases h with
    | bare h => exact absurd List.mem_cons_self (h.notMem (c := '+') (by decide) (by decide))
    | plus h => exact h
  · next hne =>
    rw [hread]
    refine ⟨.bare, fun h => ?_⟩
    cases h with
    | bare h => exact h
    | plus => exact absurd rfl (hne _)

/-! ## Readers of texts with escapes -/

/-- Some escape of the text, read from the left, goes on as described behind its backslash. -/
inductive SomeEscape (bad : List Char → Prop) : List Char → Prop
  | here {rest : List Char} : bad rest → SomeEscape bad ('\\' :: rest)
  | plain {c : Char} {rest : List Char} :
    c ≠ '\\' → SomeEscape bad rest → SomeEscape bad (c :: rest)
  | escaped {c : Char} {rest : List Char} :
    SomeEscape bad rest → SomeEscape bad ('\\' :: c :: rest)

/-- The text is put together from plain characters and escapes. -/
def Composed (escape : List Char → Prop) (body : List Char) : Prop :=
  ∃ ps : List (List Char), ps.flatten = body ∧
    ∀ p ∈ ps, (∃ c, c ≠ '\\' ∧ p = [c]) ∨ ∃ q, escape q ∧ p = '\\' :: q

/-- A reader takes plain characters, and escapes by what follows their backslash. -/
structure Reads (escape accepts : List Char → Prop) : Prop where
  nil : accepts []
  plain {c : Char} {cs : List Char} : c ≠ '\\' → (accepts (c :: cs) ↔ accepts cs)
  escaped {cs : List Char} :
    accepts ('\\' :: cs) ↔ ∃ q rest, cs = q ++ rest ∧ escape q ∧ accepts rest
  /-- An escape has a first character, and no backslash behind it. -/
  shape {q : List Char} : escape q → ∃ c more, q = c :: more ∧ '\\' ∉ more

section Reader

variable {escape accepts bad : List Char → Prop}

theorem Composed.plain (hc : c ≠ '\\') (h : Composed escape cs) : Composed escape (c :: cs) := by
  obtain ⟨ps, rfl, hps⟩ := h
  exact ⟨[c] :: ps, rfl, List.forall_mem_cons.mpr ⟨.inl ⟨c, hc, rfl⟩, hps⟩⟩

theorem Composed.escaped {q : List Char} (hq : escape q) (h : Composed escape cs) :
    Composed escape ('\\' :: (q ++ cs)) := by
  obtain ⟨ps, rfl, hps⟩ := h
  exact ⟨('\\' :: q) :: ps, rfl, List.forall_mem_cons.mpr ⟨.inr ⟨q, hq, rfl⟩, hps⟩⟩

namespace Reads

variable (h : Reads escape accepts)

include h

/-- Plain characters in front do not matter. -/
theorem append {q : List Char} (hq : '\\' ∉ q) (rest : List Char) :
    accepts (q ++ rest) ↔ accepts rest := by
  induction q with
  | nil => rfl
  | cons c q ih =>
    rw [List.mem_cons, not_or] at hq
    obtain ⟨hc, hq⟩ := hq
    rw [List.cons_append, h.plain (Ne.symm hc), ih hq]

/-- **A reader accepts exactly what is put together** from plain characters and escapes. -/
theorem accepts_iff : accepts body ↔ Composed escape body := by
  constructor
  · intro hbody
    induction hlen : body.length using Nat.strongRecOn generalizing body with
    | ind k ih =>
      subst hlen
      cases body with
      | nil => exact ⟨[], rfl, List.forall_mem_nil _⟩
      | cons c cs =>
        by_cases hc : c = '\\'
        · subst hc
          obtain ⟨q, rest, rfl, hq, hrest⟩ := h.escaped.mp hbody
          have hless : rest.length < ('\\' :: (q ++ rest)).length := by
            rw [List.length_cons, List.length_append]
            omega
          exact (ih _ hless hrest rfl).escaped hq
        · have hcs := ih _ (Nat.lt_succ_self _) ((h.plain hc).mp hbody) rfl
          exact hcs.plain hc
  · rintro ⟨ps, rfl, hps⟩
    induction ps with
    | nil => exact h.nil
    | cons p ps ih =>
      obtain ⟨hp, hrest⟩ := List.forall_mem_cons.mp hps
      obtain ⟨c, hc, rfl⟩ | ⟨q, hq, rfl⟩ := hp
      · exact (h.plain hc).mpr (ih hrest)
      · exact h.escaped.mpr ⟨q, _, rfl, hq, ih hrest⟩

/-- **A malformed escape is accepted for a reason.** If escapes are taken for malformed ones only when
they hold some character, then an accepted text with a malformed escape holds this character. -/
theorem mem_of_someEscape (hbad : ∀ q rest, bad (q ++ rest) → escape q → c ∈ q)
    (hsome : SomeEscape bad body) (hbody : accepts body) : c ∈ body := by
  induction hsome with
  | here hrest =>
    obtain ⟨q, rest, rfl, hq, -⟩ := h.escaped.mp hbody
    exact List.mem_cons_of_mem _ (List.mem_append_left _ (hbad q rest hrest hq))
  | plain hc _ ih => exact List.mem_cons_of_mem _ (ih ((h.plain hc).mp hbody))
  | escaped _ ih =>
    obtain ⟨q, rest, hcut, hq, hrest⟩ := h.escaped.mp hbody
    obtain ⟨e, more, rfl, hmore⟩ := h.shape hq
    obtain ⟨rfl, rfl⟩ := List.cons.inj hcut
    have hmem := ih ((h.append hmore rest).mpr hrest)
    exact List.mem_cons_of_mem _ (List.mem_cons_of_mem _ hmem)

end Reads

end Reader

end DepScope.Text
