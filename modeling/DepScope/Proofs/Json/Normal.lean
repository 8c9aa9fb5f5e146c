import DepScope.Proofs.Json.RoundTrip

/-!
# DepScope.Proofs.Json.Normal

The normal form of a value (`normalForm_of_normal?`) is its own normal form, is not nested deeper
than the value, and has no numbers but those of the value.

A value in normal form whose numbers are all read back as they were is itself read back as it was
(`reread_of_normal`).
-/

namespace DepScope.Json

/-! ## Sorting members -/

section Sorting

variable {α : Type} {k : String} {v : α} {ms acc : List (String × α)}

/-- Names ascend, so each stands once. -/
def Ascending (ms : List (String × α)) : Prop :=
  ms.Pairwise (·.1 < ·.1)

theorem mem_insertMember {m : String × α} (h : m ∈ insertMember k v ms) :
    m = (k, v) ∨ m ∈ ms := by
  induction ms with
  | nil => exact .inl (List.mem_singleton.mp h)
  | cons x ms ih =>
    simp only [insertMember] at h
    split at h
    · obtain h | h := List.mem_cons.mp h
      · exact .inl h
      · exact .inr (List.mem_cons_of_mem _ h)
    · split at h
      · exact List.mem_cons.mp h
      · obtain rfl | h := List.mem_cons.mp h
        · exact .inr List.mem_cons_self
        · obtain h | h := ih h
          · exact .inl h
          · exact .inr (List.mem_cons_of_mem _ h)

theorem ascending_insertMember (h : Ascending ms) : Ascending (insertMember k v ms) := by
  induction ms with
  | nil => exact List.pairwise_singleton _ _
  | cons x ms ih =>
    obtain ⟨k', v'⟩ := x
    obtain ⟨hx, hms⟩ := List.pairwise_cons.mp h
    simp only [insertMember]
    split
    · next heq =>
      subst heq
      exact List.pairwise_cons.mpr ⟨hx, hms⟩
    · next hne =>
      split
      · next hlt =>
        refine List.pairwise_cons.mpr ⟨fun m hm => ?_, h⟩
        obtain rfl | hm := List.mem_cons.mp hm
        · exact hlt
        · exact String.lt_trans hlt (hx m hm)
      · next hlt =>
        refine List.pairwise_cons.mpr ⟨fun m hm => ?_, ih hms⟩
        obtain rfl | hm := mem_insertMember hm
        · refine Decidable.byContradiction fun hge => hne ?_
          exact String.le_antisymm (String.not_lt.mp hge) (String.not_lt.mp hlt)
        · exact hx m hm

/-- A name that comes after all others goes to the end. -/
theorem insertMember_last (h : ∀ m ∈ ms, m.1 < k) : insertMember k v ms = ms ++ [(k, v)] := by
  induction ms with
  | nil => rfl
  | cons x ms ih =>
    obtain ⟨k', v'⟩ := x
    have hlt : k' < k := h _ List.mem_cons_self
    have hne : k ≠ k' := fun heq => String.lt_irrefl k (heq ▸ hlt)
    rw [insertMember, if_neg hne, if_neg (String.lt_asymm hlt),
      ih fun m hm => h m (List.mem_cons_of_mem _ hm)]
    rfl

/-- Members put into a list one after the other. -/
def insertAll (acc ms : List (String × α)) : List (String × α) :=
  ms.foldl (fun acc (k, v) => insertMember k v acc) acc

theorem mem_insertAll {m : String × α} (h : m ∈ insertAll acc ms) : m ∈ acc ∨ m ∈ ms := by
  induction ms generalizing acc with
  | nil => exact .inl h
  | cons x ms ih =>
    obtain h | h := ih h
    · obtain rfl | h := mem_insertMember h
      · exact .inr List.mem_cons_self
      · exact .inl h
    · exact .inr (List.mem_cons_of_mem _ h)

theorem ascending_insertAll (h : Ascending acc) : Ascending (insertAll acc ms) := by
  induction ms generalizing acc with
  | nil => exact h
  | cons x ms ih => exact ih (ascending_insertMember h)

theorem insertAll_of_ascending (h : Ascending (acc ++ ms)) : insertAll acc ms = acc ++ ms := by
  induction ms generalizing acc with
  | nil => exact (List.append_nil acc).symm
  | cons x ms ih =>
    obtain ⟨k, v⟩ := x
    have hlast : ∀ m ∈ acc, m.1 < k := fun m hm =>
      (List.pairwise_append.mp h).2.2 m hm _ List.mem_cons_self
    have hins : insertMember k v acc = acc ++ [(k, v)] := insertMember_last hlast
    have hcons : insertAll acc ((k, v) :: ms) = insertAll (insertMember k v acc) ms := rfl
    rw [hcons, hins, ih (by rwa [List.append_assoc]), List.append_assoc]
    rfl

theorem mem_sortMembers {m : String × α} (h : m ∈ sortMembers ms) : m ∈ ms := by
  obtain h | h := mem_insertAll h
  · cases h
  · exact h

theorem ascending_sortMembers (ms : List (String × α)) : Ascending (sortMembers ms) :=
  ascending_insertAll List.Pairwise.nil

/-- Sorted members stay as they are. -/
theorem sortMembers_of_ascending (h : Ascending ms) : sortMembers ms = ms :=
  insertAll_of_ascending h

end Sorting

/-! ## Numbers and depth -/

mutual

/-- The numbers of a value. -/
def Value.numbers : Value → List Number
  | .number (some n) => [n]
  | .array items => itemNumbers items
  | .object ms => memberNumbers ms
  | _ => []

/-- The numbers of several values. -/
def itemNumbers : List Value → List Number
  | [] => []
  | v :: vs => v.numbers ++ itemNumbers vs

/-- The numbers of the values of members. -/
def memberNumbers : List (Option String × Value) → List Number
  | [] => []
  | (_, v) :: ms => v.numbers ++ memberNumbers ms

end

/-- Members as an object has them. -/
def named (ms : List (String × Value)) : List (Option String × Value) :=
  ms.map fun (k, v) => (some k, v)

theorem memberDepths_named {ms : List (String × Value)} {d : Nat}
    (h : ∀ m ∈ ms, m.2.depth ≤ d) : memberDepths (named ms) ≤ d := by
  induction ms with
  | nil => exact Nat.zero_le d
  | cons m ms ih =>
    refine Nat.max_le.mpr ⟨h m List.mem_cons_self, ?_⟩
    exact ih fun m' hm' => h m' (List.mem_cons_of_mem _ hm')

theorem mem_memberNumbers_named {ms : List (String × Value)} {n : Number}
    (h : n ∈ memberNumbers (named ms)) : ∃ m ∈ ms, n ∈ m.2.numbers := by
  induction ms with
  | nil => cases h
  | cons m ms ih =>
    obtain h | h := List.mem_append.mp h
    · exact ⟨m, List.mem_cons_self, h⟩
    · obtain ⟨m', hm', hn⟩ := ih h
      exact ⟨m', List.mem_cons_of_mem _ hm', hn⟩

mutual

/-- Numbers that are read from a text fit. -/
theorem fits_of_mem_numbers : (t : Tree) → ∀ n ∈ t.value.numbers, n.Fits
  | .null _, _, h => nomatch h
  | .truth _ _, _, h => nomatch h
  | .number _ text, n, h => by
    rw [Tree.value] at h
    cases ht : Number.ofText? text with
    | none =>
      rw [ht] at h
      cases h
    | some n' =>
      rw [ht] at h
      rw [List.mem_singleton.mp h]
      exact fits_of_ofText? ht
  | .string _ _, _, h => nomatch h
  | .array _ items, n, h => fits_of_mem_itemNumbers items n h
  | .object _ ms, n, h => fits_of_mem_memberNumbers ms n h

theorem fits_of_mem_itemNumbers : (ts : List Tree) → ∀ n ∈ itemNumbers (Tree.values ts), n.Fits
  | [], _, h => nomatch h
  | t :: ts, n, h => (List.mem_append.mp h).elim (fits_of_mem_numbers t n)
      (fits_of_mem_itemNumbers ts n)

theorem fits_of_mem_memberNumbers : (ms : List (Key × Tree)) →
    ∀ n ∈ memberNumbers (Tree.memberValues ms), n.Fits
  | [], _, h => nomatch h
  | (_, t) :: ms, n, h => (List.mem_append.mp h).elim (fits_of_mem_numbers t n)
      (fits_of_mem_memberNumbers ms n)

end

/-! ## Normal forms -/

/-- What the normal form of a value has of it. -/
structure NormalForm (v w : Value) : Prop where
  normal : w.normal? = some w
  depth : w.depth ≤ v.depth
  numbers : ∀ n ∈ w.numbers, n ∈ v.numbers

theorem normalMembers?_named {ms : List (String × Value)} (h : ∀ m ∈ ms, m.2.normal? = some m.2) :
    normalMembers? (named ms) = some ms := by
  induction ms with
  | nil => rfl
  | cons m ms ih =>
    obtain ⟨k, v⟩ := m
    have hv : v.normal? = some v := h _ List.mem_cons_self
    have hms := ih fun m' hm' => h m' (List.mem_cons_of_mem _ hm')
    have hcons : named ((k, v) :: ms) = (some k, v) :: named ms := rfl
    rw [hcons, normalMembers?, hv, hms]
    rfl

mutual

/-- **The normal form** of a value is normal, not deeper and has no further numbers. -/
theorem normalForm_of_normal? : (v : Value) → {w : Value} → v.normal? = some w → NormalForm v w
  | .null, w, h => by
    cases h
    exact ⟨rfl, Nat.le_refl _, fun _ hn => hn⟩
  | .truth b, w, h => by
    cases h
    exact ⟨rfl, Nat.le_refl _, fun _ hn => hn⟩
  | .number n, w, h => by
    obtain ⟨n, rfl, rfl⟩ := Option.map_eq_some_iff.mp h
    exact ⟨rfl, Nat.le_refl _, fun _ hn => hn⟩
  | .string s, w, h => by
    obtain ⟨s, rfl, rfl⟩ := Option.map_eq_some_iff.mp h
    exact ⟨rfl, Nat.le_refl _, fun _ hn => hn⟩
  | .array items, w, h => by
    obtain ⟨ws, hws, rfl⟩ := Option.map_eq_some_iff.mp h
    obtain ⟨hnormal, hdepth, hnumbers⟩ := normalForm_of_normals? items hws
    refine ⟨?_, Nat.succ_le_succ hdepth, hnumbers⟩
    rw [Value.normal?, hnormal]
    rfl
  | .object ms, w, h => by
    obtain ⟨ns, hns, rfl⟩ := Option.map_eq_some_iff.mp h
    have hall := normalForm_of_normalMembers? ms hns
    have hsorted : ∀ m ∈ sortMembers ns, m.2.normal? = some m.2 ∧
        m.2.depth ≤ memberDepths ms ∧ ∀ n ∈ m.2.numbers, n ∈ memberNumbers ms :=
      fun m hm => hall m (mem_sortMembers hm)
    refine ⟨?_, ?_, ?_⟩
    · have hnamed := normalMembers?_named fun m hm => (hsorted m hm).1
      rw [named] at hnamed
      rw [Value.normal?, hnamed, Option.map_some,
        sortMembers_of_ascending (ascending_sortMembers ns)]
    · exact Nat.succ_le_succ (memberDepths_named fun m hm => (hsorted m hm).2.1)
    · intro n hn
      obtain ⟨m, hm, hn⟩ := mem_memberNumbers_named hn
      exact (hsorted m hm).2.2 n hn

theorem normalForm_of_normals? : (vs : List Value) → {ws : List Value} → normals? vs = some ws →
    normals? ws = some ws ∧ depths ws ≤ depths vs ∧ ∀ n ∈ itemNumbers ws, n ∈ itemNumbers vs
  | [], ws, h => by
    cases h
    exact ⟨rfl, Nat.le_refl _, fun _ hn => hn⟩
  | v :: vs, ws, h => by
    simp only [normals?, Option.bind_eq_bind, Option.bind_eq_some_iff, Option.pure_def,
      Option.some.injEq] at h
    obtain ⟨w, hw, ws, hws, rfl⟩ := h
    have hv := normalForm_of_normal? v hw
    obtain ⟨hnormal, hdepth, hnumbers⟩ := normalForm_of_normals? vs hws
    refine ⟨?_, ?_, fun n hn => ?_⟩
    · rw [normals?, hv.normal, hnormal]
      rfl
    · have := hv.depth
      simp only [depths]
      omega
    · exact List.mem_append.mpr ((List.mem_append.mp hn).imp (hv.numbers n) (hnumbers n))

theorem normalForm_of_normalMembers? : (ms : List (Option String × Value)) →
    {ns : List (String × Value)} → normalMembers? ms = some ns → ∀ m ∈ ns,
    m.2.normal? = some m.2 ∧ m.2.depth ≤ memberDepths ms ∧
      ∀ n ∈ m.2.numbers, n ∈ memberNumbers ms
  | [], ns, h, m, hm => by
    cases h
    cases hm
  | (k, v) :: ms, ns, h, m, hm => by
    simp only [normalMembers?, Option.bind_eq_bind, Option.bind_eq_some_iff, Option.pure_def,
      Option.some.injEq] at h
    obtain ⟨name, -, w, hw, ns, hns, rfl⟩ := h
    simp only [memberDepths, memberNumbers, List.mem_append]
    obtain rfl | hm := List.mem_cons.mp hm
    · have hv := normalForm_of_normal? v hw
      exact ⟨hv.normal, Nat.le_trans hv.depth (Nat.le_max_left _ _), fun n hn =>
        .inl (hv.numbers n hn)⟩
    · obtain ⟨hnormal, hdepth, hnumbers⟩ := normalForm_of_normalMembers? ms hns m hm
      exact ⟨hnormal, Nat.le_trans hdepth (Nat.le_max_right _ _), fun n hn => .inr (hnumbers n hn)⟩

end

/-! ## Reading back -/

/-- The members of an object in normal form have names, and their values are in normal form. -/
theorem normal_members {ms : List (Option String × Value)}
    (h : (Value.object ms).normal? = some (.object ms)) :
    ∀ m ∈ ms, m.1.isSome ∧ m.2.normal? = some m.2 := by
  obtain ⟨ns, hns, heq⟩ := Option.map_eq_some_iff.mp h
  cases heq
  intro m hm
  obtain ⟨m, hmem, rfl⟩ := List.mem_map.mp hm
  exact ⟨rfl, (normalForm_of_normalMembers? _ hns m (mem_sortMembers hmem)).1⟩

theorem normal_items {items : List Value} (h : (Value.array items).normal? = some (.array items)) :
    normals? items = some items := by
  obtain ⟨ws, hws, heq⟩ := Option.map_eq_some_iff.mp h
  cases heq
  exact hws

mutual

/-- **A value in normal form is read back as it was**, if its numbers are. -/
theorem reread_of_normal : (v : Value) → v.normal? = some v →
    (∀ n ∈ v.numbers, Number.ofText? n.text = some n) → v.reread = v
  | .null, _, _ => rfl
  | .truth _, _, _ => rfl
  | .number none, h, _ => nomatch h
  | .number (some n), _, hn => by rw [Value.reread, hn n List.mem_cons_self]
  | .string none, h, _ => nomatch h
  | .string (some s), _, _ => rfl
  | .array items, h, hn => by rw [Value.reread, rereadItems_of_normal items (normal_items h) hn]
  | .object ms, h, hn => by rw [Value.reread, rereadMembers_of_normal ms (normal_members h) hn]

theorem rereadItems_of_normal : (vs : List Value) → normals? vs = some vs →
    (∀ n ∈ itemNumbers vs, Number.ofText? n.text = some n) → rereadItems vs = vs
  | [], _, _ => rfl
  | v :: vs, h, hn => by
    simp only [normals?, Option.bind_eq_bind, Option.bind_eq_some_iff, Option.pure_def,
      Option.some.injEq, List.cons.injEq] at h
    obtain ⟨w, hw, ws, hws, rfl, rfl⟩ := h
    rw [rereadItems, reread_of_normal w hw fun n h => hn n (List.mem_append_left _ h),
      rereadItems_of_normal ws hws fun n h => hn n (List.mem_append_right _ h)]

theorem rereadMembers_of_normal : (ms : List (Option String × Value)) →
    (∀ m ∈ ms, m.1.isSome ∧ m.2.normal? = some m.2) →
    (∀ n ∈ memberNumbers ms, Number.ofText? n.text = some n) → rereadMembers ms = ms
  | [], _, _ => rfl
  | (k, v) :: ms, h, hn => by
    obtain ⟨hk, hv⟩ := h (k, v) List.mem_cons_self
    obtain ⟨k, rfl⟩ := Option.isSome_iff_exists.mp hk
    rw [rereadMembers, reread_of_normal v hv fun n h => hn n (List.mem_append_left _ h),
      rereadMembers_of_normal ms (fun m hm => h m (List.mem_cons_of_mem _ hm)) fun n h =>
        hn n (List.mem_append_right _ h)]
    rfl

end

end DepScope.Json
