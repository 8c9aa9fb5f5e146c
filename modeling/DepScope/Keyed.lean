/-!
# DepScope.Keyed

Values under keys, as a list of pairs. The view is `get?`: the value under a key. Each operation
comes with its equation for that view, so nothing else needs to know how the list is laid out.
-/

namespace DepScope.Keyed

variable {κ α : Type} [DecidableEq κ]

/-- The value under a key. -/
def get? (k : κ) : List (κ × α) → Option α
  | [] => none
  | (k', a) :: xs => if k' = k then some a else get? k xs

/-- Is there a value under a key? -/
def contains (k : κ) (xs : List (κ × α)) : Bool :=
  (get? k xs).isSome

/-- Puts a value under a key: in the place of the one that is there, else at the end. -/
def put (k : κ) (a : α) : List (κ × α) → List (κ × α)
  | [] => [(k, a)]
  | (k', a') :: xs => if k' = k then (k, a) :: xs else (k', a') :: put k a xs

/-- Takes away what is under a key. -/
def erase (k : κ) : List (κ × α) → List (κ × α)
  | [] => []
  | (k', a) :: xs => if k' = k then erase k xs else (k', a) :: erase k xs

@[simp]
theorem get?_nil (k : κ) : get? k ([] : List (κ × α)) = none := rfl

@[simp]
theorem get?_put (k j : κ) (a : α) (xs : List (κ × α)) :
    get? j (put k a xs) = if k = j then some a else get? j xs := by
  induction xs with
  | nil => simp [put, get?]
  | cons x xs ih =>
    obtain ⟨k', a'⟩ := x
    by_cases h : k' = k <;> grind [put, get?]

theorem mem_of_get? {k : κ} {a : α} {xs : List (κ × α)} (h : get? k xs = some a) :
    (k, a) ∈ xs := by
  induction xs with
  | nil => cases h
  | cons x xs ih =>
    obtain ⟨k', a'⟩ := x
    by_cases hk : k' = k
    · simp only [get?, if_pos hk, Option.some.injEq] at h
      simp [hk, h]
    · simp only [get?, if_neg hk] at h
      exact List.mem_cons_of_mem _ (ih h)

@[simp]
theorem put_put (k : κ) (a b : α) (xs : List (κ × α)) :
    put k a (put k b xs) = put k a xs := by
  induction xs with
  | nil => simp [put]
  | cons x xs ih =>
    obtain ⟨k', a'⟩ := x
    by_cases h : k' = k
    · simp [put, h]
    · simp [put, h, ih]

@[simp]
theorem get?_erase (k j : κ) (xs : List (κ × α)) :
    get? j (erase k xs) = if k = j then none else get? j xs := by
  induction xs with
  | nil => simp [erase, get?]
  | cons x xs ih =>
    obtain ⟨k', a'⟩ := x
    by_cases h : k' = k <;> grind [erase, get?]

end DepScope.Keyed
