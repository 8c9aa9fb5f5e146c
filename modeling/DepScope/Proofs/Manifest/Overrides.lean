import DepScope.Manifest.PackageJson
import DepScope.Proofs.Text.Lines

/-!
# DepScope.Proofs.Manifest.Overrides

What is named under `overrides` (`overrides_exact`).

1. A version range behind a name is cut off, whatever it is (`ofVersionRange_of_name`).
2. A member is known by its address: the numbers of the members on the way down to it. `overrideAt?`
   goes down that way and collects the names of the members around it; `addresses` lists the
   addresses in the order of the document (`mem_addresses`, `pairwise_addresses`).
3. What a member names can be told from itself and the names around it (`Override.named`), and all
   of them together, in that order, name what is extracted (`overrides_eq`).

Members of objects in a list are no overrides, and a member whose name has no text is passed over
with all that it holds (`overrides_passed_over`).
-/

namespace DepScope.Manifest

open Text Package Json

/-! ## Names with version ranges -/

/-- A name of one part, which has no `@`, or of a scope: an `@` and such a part. -/
def IsName (name : String) : Prop :=
  ∃ part : String, part ≠ "" ∧ '@' ∉ part.toList ∧ (name = part ∨ name = "@" ++ part)

/-- **A name with a version range behind it**, or with nothing, is cut down to the name. -/
theorem ofVersionRange_of_name {name s : String} {tail : List Char} (hname : IsName name)
    (hs : s.toList = name.toList ++ tail) (htail : tail = [] ∨ ∃ range, tail = '@' :: range) :
    ofVersionRange s = name := by
  obtain ⟨part, hne, hpart, hform⟩ := hname
  obtain ⟨more, hcut⟩ : ∃ more, pieces '@' (part.toList ++ tail) = part.toList :: more := by
    obtain rfl | ⟨range, rfl⟩ := htail
    · exact ⟨[], by rw [List.append_nil, pieces_of_notMem hpart]⟩
    · exact ⟨_, pieces_append hpart range⟩
  obtain rfl | rfl := hform
  · obtain ⟨c, cs, hcs⟩ := List.exists_cons_of_ne_nil (mt String.toList_eq_nil_iff.mp hne)
    have hwidth : scopeWidth s = 1 := by
      rw [hcs] at hpart
      simp [scopeWidth, hs, hcs, Ne.symm (List.ne_of_not_mem_cons hpart)]
    rw [ofVersionRange, leadingPieces, hwidth, hs, hcut, List.take_succ_cons, List.take_zero,
      joinWith, String.ofList_toList]
  · have hscope : s.toList = '@' :: (part.toList ++ tail) := by simp [hs]
    have hwidth : scopeWidth s = 2 := by simp [scopeWidth, hscope]
    rw [ofVersionRange, leadingPieces, hwidth, hscope, pieces, if_pos rfl, hcut]
    simp [joinWith]

/-! ## Members and their addresses -/

/-- A member somewhere inside overrides: the names of the members around it with the nearest first,
its own name, the place of its key, and its value. -/
structure Override where
  around : List String
  name : String
  key : Span
  value : Tree

namespace Override

/-- The package of a member: that of its name, and for `.` that of the nearest member around it
which is called otherwise. -/
def package? (o : Override) : Option String :=
  if o.name = "." then (o.around.find? (· ≠ ".")).map ofVersionRange
  else some (ofVersionRange o.name)

/-- Where a member is mentioned: as a whole, but by its key alone if an object follows. -/
def span (o : Override) : Span :=
  match o.value with
  | .object .. => o.key
  | value => ⟨o.key.start, value.span.stop⟩

/-- The package that a value `$name` refers to. -/
def referred? (o : Override) : Option Named :=
  match o.value with
  | .string span (some text) =>
    match text.toList with
    | '$' :: name => some ⟨String.ofList name, span⟩
    | _ => none
  | _ => none

/-- What a member names: its package, and the one it refers to. -/
def named (o : Override) : List Named :=
  (o.package?.map fun name => Named.mk name o.span).toList ++ o.referred?.toList

end Override

/-- The member at an address. There is none behind a member whose name has no text, nor behind one
whose value is no object. -/
def overrideAt? (around : List String) (ms : List (Key × Tree)) : List Nat → Option Override
  | [] => none
  | [i] =>
    match ms[i]? with
    | some (⟨key, some name⟩, value) => some ⟨around, name, key, value⟩
    | _ => none
  | i :: j :: rest =>
    match ms[i]? with
    | some (⟨_, some name⟩, .object _ inner) => overrideAt? (name :: around) inner (j :: rest)
    | _ => none

/-- The member at an address inside a value. -/
def overrideWithin? (around : List String) (value : Tree) (a : List Nat) : Option Override :=
  match value with
  | .object _ ms => overrideAt? around ms a
  | _ => none

mutual

/-- The addresses of the members of an object, in the order of the document. -/
def addresses : List (Key × Tree) → List (List Nat)
  | [] => []
  | (key, value) :: rest =>
    (match key.text with
      | some _ => [0] :: (addressesWithin value).map (0 :: ·)
      | none => []) ++ (addresses rest).map (List.modifyHead (· + 1))

/-- The addresses of the members inside a value. -/
def addressesWithin : Tree → List (List Nat)
  | .object _ ms => addresses ms
  | _ => []

end

section Addresses

variable {around : List String} {key : Key} {value : Tree} {m : Key × Tree}
  {ms rest : List (Key × Tree)} {a b : List Nat} {name : String} {span : Span}

/-- The addresses start with the number of a member whose name has a text. -/
theorem mem_addresses_iff : a ∈ addresses ms ↔ ∃ i q span name value, a = i :: q ∧
    ms[i]? = some (⟨span, some name⟩, value) ∧ (q = [] ∨ q ∈ addressesWithin value) := by
  induction ms generalizing a with
  | nil => simp [addresses]
  | cons m ms ih =>
    have hrest : a ∈ (addresses ms).map (List.modifyHead (· + 1)) ↔
        ∃ i q span name value, a = (i + 1) :: q ∧
          ms[i]? = some (⟨span, some name⟩, value) ∧ (q = [] ∨ q ∈ addressesWithin value) := by
      simp only [List.mem_map, ih]
      constructor
      · rintro ⟨_, ⟨i, q, span, name, value, rfl, hm, hq⟩, rfl⟩
        exact ⟨i, q, span, name, value, rfl, hm, hq⟩
      · rintro ⟨i, q, span, name, value, rfl, hm, hq⟩
        exact ⟨_, ⟨i, q, span, name, value, rfl, hm, hq⟩, rfl⟩
    obtain ⟨⟨span, text⟩, value⟩ := m
    rw [addresses, List.mem_append, hrest]
    constructor
    · rintro (hfirst | ⟨i, q, span, name, value, rfl, hm, hq⟩)
      · cases text with
        | none => cases hfirst
        | some name =>
          obtain rfl | hwithin := List.mem_cons.mp hfirst
          · exact ⟨0, [], span, name, value, rfl, rfl, .inl rfl⟩
          · obtain ⟨q, hq, rfl⟩ := List.mem_map.mp hwithin
            exact ⟨0, q, span, name, value, rfl, rfl, .inr hq⟩
      · exact ⟨i + 1, q, span, name, value, rfl, hm, hq⟩
    · rintro ⟨i, q, span', name, value', rfl, hm, hq⟩
      cases i with
      | zero =>
        cases hm
        refine .inl (List.mem_cons.mpr ?_)
        obtain rfl | hq := hq
        · exact .inl rfl
        · exact .inr (List.mem_map.mpr ⟨q, hq, rfl⟩)
      | succ i => exact .inr ⟨i, q, span', name, value', rfl, hm, hq⟩

theorem ne_nil_of_mem_addressesWithin (h : a ∈ addressesWithin value) : a ≠ [] := by
  cases value with
  | object span ms =>
    obtain ⟨i, q, -, -, -, rfl, -⟩ := mem_addresses_iff.mp h
    exact List.cons_ne_nil _ _
  | _ => cases h

/-- **The addresses are those of the members.** -/
theorem mem_addresses : a ∈ addresses ms ↔ (overrideAt? around ms a).isSome = true := by
  induction a generalizing around ms with
  | nil => simp [mem_addresses_iff, overrideAt?]
  | cons i q ih =>
    rw [mem_addresses_iff]
    cases q with
    | nil =>
      rw [overrideAt?]
      constructor
      · rintro ⟨_, _, span, name, value, heq, hm, -⟩
        cases heq
        simp [hm]
      · intro h
        split at h
        · next span name value hm => exact ⟨i, [], span, name, value, rfl, hm, .inl rfl⟩
        · cases h
    | cons j q =>
      rw [overrideAt?]
      constructor
      · rintro ⟨_, _, span, name, value, heq, hm, hq⟩
        cases heq
        obtain hq | hq := hq
        · cases hq
        · cases value with
          | object s inner =>
            simp only [hm]
            exact ih.mp hq
          | _ => cases hq
      · intro h
        split at h
        · next span name s inner hm =>
          exact ⟨i, j :: q, span, name, .object s inner, rfl, hm, .inr (ih.mpr h)⟩
        · cases h

/-! ### The order of the document -/

theorem lt_next (ha : a ∈ addresses ms) (hb : b ∈ addresses ms) (hlt : a < b) :
    a.modifyHead (· + 1) < b.modifyHead (· + 1) := by
  obtain ⟨i, q, -, -, -, rfl, -⟩ := mem_addresses_iff.mp ha
  obtain ⟨j, r, -, -, -, rfl, -⟩ := mem_addresses_iff.mp hb
  simpa [List.cons_lt_cons_iff] using hlt

theorem zero_lt_next (ha : a ∈ addresses ms) (q : List Nat) :
    0 :: q < a.modifyHead (· + 1) := by
  obtain ⟨i, r, -, -, -, rfl, -⟩ := mem_addresses_iff.mp ha
  simp [List.cons_lt_cons_iff]

mutual

/-- **Addresses come in the order of the document**: a member before what it holds, and that before
the next member. -/
theorem pairwise_addresses : (ms : List (Key × Tree)) → (addresses ms).Pairwise (· < ·)
  | [] => .nil
  | (⟨_, text⟩, value) :: rest => by
    have hrest : ((addresses rest).map (List.modifyHead (· + 1))).Pairwise (· < ·) :=
      List.pairwise_map.mpr ((pairwise_addresses rest).imp_of_mem fun ha hb => lt_next ha hb)
    rw [addresses]
    cases text with
    | none => exact hrest
    | some name =>
      refine List.pairwise_append.mpr ⟨List.pairwise_cons.mpr ⟨fun a ha => ?_, ?_⟩, hrest, ?_⟩
      · obtain ⟨q, hq, rfl⟩ := List.mem_map.mp ha
        obtain ⟨j, q, rfl⟩ := List.exists_cons_of_ne_nil (ne_nil_of_mem_addressesWithin hq)
        simp
      · refine List.pairwise_map.mpr ((pairwise_addressesWithin value).imp fun hlt => ?_)
        simpa [List.cons_lt_cons_iff] using hlt
      · intro a ha b hb
        obtain ⟨q, hq, rfl⟩ := List.mem_map.mp hb
        obtain rfl | ha := List.mem_cons.mp ha
        · exact zero_lt_next hq []
        · obtain ⟨r, -, rfl⟩ := List.mem_map.mp ha
          exact zero_lt_next hq r

theorem pairwise_addressesWithin : (t : Tree) → (addressesWithin t).Pairwise (· < ·)
  | .object _ ms => pairwise_addresses ms
  | .array .. | .string .. | .number .. | .truth .. | .null .. => .nil

end

/-! ## What is extracted -/

theorem overrideAt?_next (a : List Nat) :
    overrideAt? around (m :: ms) (a.modifyHead (· + 1)) = overrideAt? around ms a := by
  match a with
  | [] => rfl
  | [_] => rfl
  | _ :: _ :: _ => rfl

theorem overrideAt?_within (hne : a ≠ []) :
    overrideAt? around ((⟨span, some name⟩, value) :: rest) (0 :: a) =
      overrideWithin? (name :: around) value a := by
  obtain ⟨j, a, rfl⟩ := List.exists_cons_of_ne_nil hne
  cases value <;> rfl

/-- The members of an object, in the order of the document. -/
def overridesIn (around : List String) (ms : List (Key × Tree)) : List Override :=
  (addresses ms).filterMap (overrideAt? around ms)

/-- The members inside a value. -/
def overridesWithin (around : List String) (value : Tree) : List Override :=
  (addressesWithin value).filterMap (overrideWithin? around value)

theorem overridesIn_later : ((addresses ms).map (List.modifyHead (· + 1))).filterMap
    (overrideAt? around (m :: ms)) = overridesIn around ms := by
  rw [List.filterMap_map, overridesIn]
  exact congrArg (List.filterMap · _) (funext overrideAt?_next)

theorem overridesIn_illegible :
    overridesIn around ((⟨span, none⟩, value) :: rest) = overridesIn around rest := by
  rw [overridesIn, addresses]
  exact overridesIn_later

theorem overridesIn_legible :
    overridesIn around ((⟨span, some name⟩, value) :: rest) =
      ⟨around, name, span, value⟩ :: overridesWithin (name :: around) value ++
        overridesIn around rest := by
  have hwithin : ((addressesWithin value).map (0 :: ·)).filterMap
      (overrideAt? around ((⟨span, some name⟩, value) :: rest)) =
        overridesWithin (name :: around) value := by
    rw [List.filterMap_map, overridesWithin]
    exact List.filterMap_congr fun a ha => overrideAt?_within (ne_nil_of_mem_addressesWithin ha)
  have hfirst : overrideAt? around ((⟨span, some name⟩, value) :: rest) [0] =
      some ⟨around, name, span, value⟩ := rfl
  rw [overridesIn, addresses, List.filterMap_append, overridesIn_later]
  dsimp only
  rw [List.filterMap_cons_some hfirst, hwithin]

/-- The package that members around belong to. -/
def ownerOf (around : List String) : Option String :=
  (around.find? (· ≠ ".")).map ofVersionRange

theorem overrideTarget_or_ownerOf :
    (overrideTarget (ownerOf around) name).or (ownerOf around) = ownerOf (name :: around) := by
  by_cases hname : name = "."
  · simp [overrideTarget, ownerOf, hname]
  · simp [overrideTarget, ownerOf, hname]

theorem referred?_string {text : Option String} :
    (match text.bind fun t => afterPrefix? ['$'] t.toList with
      | some other => [(⟨String.ofList other, span⟩ : Named)]
      | none => []) = (Override.mk around name key.span (.string span text)).referred?.toList := by
  cases text with
  | none => rfl
  | some text =>
    simp only [Option.bind_some, Override.referred?]
    match text.toList with
    | [] => rfl
    | c :: cs =>
      by_cases hc : '$' = c
      · subst hc
        rfl
      · simp only [afterPrefix?, if_neg hc]
        split
        · next heq => exact absurd (List.cons.inj heq).1.symm hc
        · rfl

/-- What a member names without what is inside of it. -/
theorem override_of_not_object (h : ∀ s ms, value ≠ .object s ms) :
    override (overrideTarget (ownerOf around) name) (ownerOf around) key value =
      Override.named ⟨around, name, key.span, value⟩ := by
  cases value with
  | object s ms => exact absurd rfl (h s ms)
  | string s text =>
    rw [override, Override.named, ← referred?_string]
    rfl
  | array | number | truth | null =>
    rw [override, Override.named, Override.referred?, Option.toList_none, List.append_nil]
    · rfl
    all_goals simp

mutual

/-- **All members together** name what is extracted. -/
theorem overrides_eq (around : List String) : (ms : List (Key × Tree)) →
    overrides (ownerOf around) ms = (overridesIn around ms).flatMap Override.named
  | [] => rfl
  | (⟨span, none⟩, value) :: rest => by
    rw [overridesIn_illegible, ← overrides_eq around rest]
    rfl
  | (⟨span, some name⟩, value) :: rest => by
    rw [overridesIn_legible, List.cons_append, List.flatMap_cons, List.flatMap_append,
      ← List.append_assoc, ← override_eq around name span value, ← overrides_eq around rest]
    rfl

theorem override_eq (around : List String) (name : String) (span : Span) : (t : Tree) →
    override (overrideTarget (ownerOf around) name) (ownerOf around) ⟨span, some name⟩ t =
      Override.named ⟨around, name, span, t⟩ ++
        (overridesWithin (name :: around) t).flatMap Override.named
  | .object s ms => by
    rw [override, overrideTarget_or_ownerOf, overrides_eq (name :: around) ms, Override.named,
      Override.referred?, Option.toList_none, List.append_nil]
    rfl
  | .array .. | .string .. | .number .. | .truth .. | .null .. => by
    rw [override_of_not_object (by simp)]
    exact (List.append_nil _).symm

end

end Addresses

/-- **Overrides name what their members name, and nothing else.** The members at any depth that can
be reached through objects and names with a text are listed in the order of the document, each once;
and what is extracted is, in that order, what each of them names. A version range behind a name is
cut off, and there need not be one. -/
theorem overrides_exact :
    (∀ ms : List (Key × Tree), ∃ as : List (List Nat), as.Pairwise (· < ·) ∧
      (∀ a, a ∈ as ↔ (overrideAt? [] ms a).isSome = true) ∧
      overrides none ms = (as.filterMap (overrideAt? [] ms)).flatMap Override.named) ∧
    ∀ name range : String, IsName name →
      ofVersionRange (name ++ "@" ++ range) = name ∧ ofVersionRange name = name := by
  refine ⟨fun ms => ?_, fun name range hname => ⟨?_, ?_⟩⟩
  · exact ⟨addresses ms, pairwise_addresses ms, fun a => mem_addresses, overrides_eq [] ms⟩
  · have hs : (name ++ "@" ++ range).toList = name.toList ++ '@' :: range.toList := by simp
    exact ofVersionRange_of_name hname hs (.inr ⟨_, rfl⟩)
  · exact ofVersionRange_of_name hname (List.append_nil _).symm (.inl rfl)

/-- An alias of a scoped package: the range has marks of its own. -/
theorem overrides_exact_of_alias :
    IsName "@a/b" ∧ ofVersionRange "@a/b@npm:@c/d@1" = "@a/b" ∧ ofVersionRange "@a/b" = "@a/b" := by
  have hname : IsName "@a/b" := ⟨"a/b", by decide, by decide, .inr rfl⟩
  exact ⟨hname, overrides_exact.2 "@a/b" "npm:@c/d@1" hname⟩

/-- Two manifests of the data format itself: in the one an object stands in a list, in the other the
range behind a name has an escape that is no character. Of the object `{"b": "1"}` inside, nothing
is named. -/
theorem overrides_passed_over :
    let listed := "\x7b\"overrides\":\x7b\"a\":[\x7b\"b\":\"1\"\x7d]\x7d\x7d"
    let illegible := "\x7b\"overrides\":\x7b\"a@\\ud800\":\x7b\"b\":\"1\"\x7d\x7d\x7d"
    (parse? .strict listed).isSome = true ∧ (parse? .strict illegible).isSome = true ∧
      packageJson listed = some (.ofMentions [.ofName .npm "a" (.ofCoords 0 14 0 29)]) ∧
      packageJson illegible = some .empty := by
  refine ⟨?_, ?_, ?_, ?_⟩ <;> decide +kernel

end DepScope.Manifest
