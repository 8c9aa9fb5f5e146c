import DepScope.Keyed
import DepScope.Proofs.Json.Normal
import DepScope.Score.Record

/-!
# DepScope.Proofs.Score.RoundTrip

What is read of the text that was written for a record.

1. The coordinates are read back as they were, whatever the record (`read?_write`).
2. The alerts of a record that was itself read from a text can be read back: their data is in normal
   form, not nested too deeply, and its integers fit (`sound_of_read?`).
3. Such a record is read back as it was if all its doubles survive (`read?_write_of_survives`).
-/

namespace DepScope.Json

/-! ## Objects with given names -/

section Objects

variable {ms : List (String × Value)} {n : String}

theorem members?_object (ms : List (String × Value)) : (object ms).members? = some ms := by
  induction ms with
  | nil => rfl
  | cons m ms ih =>
    rw [object, Value.members?] at ih ⊢
    rw [List.map_cons, List.mapM_cons, ih]
    rfl

theorem filter_name (h : (ms.map (·.1)).Nodup) :
    ms.filter (·.1 == n) = ((Keyed.get? n ms).map fun v => (n, v)).toList := by
  induction ms with
  | nil => rfl
  | cons m ms ih =>
    obtain ⟨k, v⟩ := m
    obtain ⟨hk, hms⟩ := List.nodup_cons.mp h
    by_cases hkn : k = n
    · subst hkn
      have hnone : ms.filter (·.1 == k) = [] := by
        rw [List.filter_eq_nil_iff]
        intro m hm heq
        exact hk (List.mem_map.mpr ⟨m, hm, by simpa using heq⟩)
      simp [Keyed.get?, hnone]
    · rw [List.filter_cons_of_neg (by simpa using hkn), ih hms, Keyed.get?, if_neg hkn]

/-- The fields of an object that has each name once. -/
theorem fields?_object (h : (ms.map (·.1)).Nodup) (names : List String) :
    (object ms).fields? names = some (names.map fun n => Keyed.get? n ms) := by
  have hmembers := members?_object ms
  rw [object] at hmembers ⊢
  simp only [Value.fields?, hmembers, Option.bind_eq_bind, Option.bind_some]
  induction names with
  | nil => rfl
  | cons n names ih =>
    rw [List.mapM_cons, ih, filter_name h]
    cases hn : Keyed.get? n ms <;> simp [hn]

theorem rereadMembers_object (ms : List (String × Value)) :
    rereadMembers (ms.map fun (k, v) => (some k, v)) =
      (ms.map fun (k, v) => (k, v.reread)).map fun (k, v) => (some k, v) := by
  induction ms with
  | nil => rfl
  | cons m ms ih => simp [rereadMembers, ih]

theorem reread_object (ms : List (String × Value)) :
    (object ms).reread = object (ms.map fun (k, v) => (k, v.reread)) := by
  rw [object, Value.reread, rereadMembers_object]
  rfl

theorem rereadItems_eq_map (vs : List Value) : rereadItems vs = vs.map Value.reread := by
  induction vs with
  | nil => rfl
  | cons v vs ih => rw [rereadItems, ih, List.map_cons]

end Objects

/-! ## The numbers of fields -/

theorem mem_itemNumbers {vs : List Value} {v : Value} {n : Number} (hv : v ∈ vs)
    (hn : n ∈ v.numbers) : n ∈ itemNumbers vs := by
  induction vs with
  | nil => cases hv
  | cons w vs ih =>
    obtain rfl | hv := List.mem_cons.mp hv
    · exact List.mem_append_left _ hn
    · exact List.mem_append_right _ (ih hv)

theorem mem_memberNumbers {ms : List (Option String × Value)} {m : Option String × Value}
    {n : Number} (hm : m ∈ ms) (hn : n ∈ m.2.numbers) : n ∈ memberNumbers ms := by
  induction ms with
  | nil => cases hm
  | cons m' ms ih =>
    obtain rfl | hm := List.mem_cons.mp hm
    · exact List.mem_append_left _ hn
    · exact List.mem_append_right _ (ih hm)

/-- Each result of a map that may fail comes from an argument. -/
theorem exists_of_mem_mapM {α β : Type} {f : α → Option β} {xs : List α} {ys : List β} {y : β}
    (h : xs.mapM f = some ys) (hy : y ∈ ys) : ∃ x ∈ xs, f x = some y := by
  induction xs generalizing ys with
  | nil =>
    cases h
    cases hy
  | cons x xs ih =>
    simp only [List.mapM_cons, Option.bind_eq_bind, Option.bind_eq_some_iff, Option.pure_def,
      Option.some.injEq] at h
    obtain ⟨z, hz, zs, hzs, rfl⟩ := h
    obtain rfl | hy := List.mem_cons.mp hy
    · exact ⟨x, List.mem_cons_self, hz⟩
    · obtain ⟨x', hx', hfx⟩ := ih hzs hy
      exact ⟨x', List.mem_cons_of_mem _ hx', hfx⟩

/-- The numbers of a field are numbers of the record it is a field of. -/
theorem mem_numbers_of_fields? {v w : Value} {names : List String} {fs : List (Option Value)}
    (h : v.fields? names = some fs) (hw : some w ∈ fs) {n : Number} (hn : n ∈ w.numbers) :
    n ∈ v.numbers := by
  cases v with
  | object ms =>
    simp only [Value.fields?, Option.bind_eq_bind, Option.bind_eq_some_iff] at h
    obtain ⟨ns, hns, h⟩ := h
    obtain ⟨name, -, hname⟩ := exists_of_mem_mapM h hw
    split at hname
    · cases hname
    · next k _ hfilter =>
      cases hname
      have hmem : (k, w) ∈ ns.filter (·.1 == name) := hfilter ▸ List.mem_singleton_self _
      obtain ⟨⟨k', w'⟩, hm, hk⟩ := exists_of_mem_mapM hns (List.mem_filter.mp hmem).1
      obtain ⟨_, -, heq⟩ := Option.map_eq_some_iff.mp hk
      cases heq
      exact mem_memberNumbers hm hn
    · cases hname
  | array items =>
    simp only [Value.fields?, Option.ite_none_right_eq_some, Option.some.injEq] at h
    obtain ⟨-, rfl⟩ := h
    obtain hw | hw := List.mem_append.mp hw
    · obtain ⟨w', hw', heq⟩ := List.mem_map.mp hw
      cases heq
      exact mem_itemNumbers hw' hn
    · cases List.eq_of_mem_replicate hw
  | _ => cases h

end DepScope.Json

namespace DepScope.Score

open Package Json

/-! ## Ratings and alerts -/

theorem reread_text (s : String) : (text s).reread = text s := rfl

@[simp]
theorem text?_text (s : String) : (text s).text? = some s := rfl

theorem reread_real {x : Decimal.Finite} (h : Survives x) : (real x).reread = real x := by
  have htext : Number.ofText? (Number.real x).text = some (.real x) := h
  rw [real, Value.reread, htext]

/-- The scores in the order they are written. -/
def Ratings.toList (r : Ratings) : List Decimal.Finite :=
  [r.overall, r.license, r.maintenance, r.quality, r.supplyChain, r.vulnerability]

theorem Ratings.ofJson?_toJson (r : Ratings) : Ratings.ofJson? r.toJson = some r := by
  have hfields : r.toJson.fields?
      ["overall", "license", "maintenance", "quality", "supplyChain", "vulnerability"] =
      some (r.toList.map fun x => some (real x)) :=
    fields?_object (by simp) _
  simp [Ratings.ofJson?, hfields, Ratings.toList, orDefault?, real, Value.real?, Number.toReal]

theorem Ratings.reread_toJson {r : Ratings} (h : ∀ x ∈ r.toList, Survives x) :
    r.toJson.reread = r.toJson := by
  simp only [Ratings.toList, List.forall_mem_cons] at h
  obtain ⟨ho, hl, hm, hq, hs, hv, -⟩ := h
  rw [Ratings.toJson, reread_object]
  simp only [List.map_cons, List.map_nil, reread_real, ho, hl, hm, hq, hs, hv]

theorem Action.ofJson?_name (a : Action) : Action.ofJson? (text a.name) = some a := by
  cases a <;> decide

/-- An alert whose data can be read back: in normal form, not too deep, of numbers that fit. -/
structure Alert.Sound (a : Alert) : Prop where
  data : a.props.data? 3 = some a.props
  fits : ∀ n ∈ a.props.numbers, n.Fits

theorem Alert.ofJson?_toJson {a : Alert} (h : a.Sound) : Alert.ofJson? a.toJson = some a := by
  have hfields : a.toJson.fields? ["action", "type", "severity", "props"] =
      some [some (text a.action.name), some (text a.kind), some (text a.severity), some a.props] :=
    fields?_object (by simp) _
  simp [Alert.ofJson?, hfields, Action.ofJson?_name, orDefault?, h.data]

theorem Alert.Sound.normal {a : Alert} (h : a.Sound) : a.props.normal? = some a.props := by
  have hd := h.data
  rw [Value.data?, Option.ite_none_right_eq_some] at hd
  exact hd.2

theorem Alert.reread_toJson {a : Alert} (h : a.Sound)
    (hx : ∀ x, .real x ∈ a.props.numbers → Survives x) : a.toJson.reread = a.toJson := by
  have hprops : a.props.reread = a.props :=
    reread_of_normal _ h.normal fun n hn =>
      ofText?_text (h.fits n hn) fun x heq => hx x (heq ▸ hn)
  rw [Alert.toJson, reread_object]
  simp only [List.map_cons, List.map_nil, reread_text, hprops]

/-- Alerts that are read from data whose numbers fit can be read back. -/
theorem Alert.sound_of_ofJson? {v : Value} {a : Alert} (hv : ∀ n ∈ v.numbers, n.Fits)
    (h : Alert.ofJson? v = some a) : a.Sound := by
  simp only [Alert.ofJson?, Option.bind_eq_bind, Option.bind_eq_some_iff] at h
  obtain ⟨fs, hfs, h⟩ := h
  split at h
  · next props =>
    simp only [Option.bind_eq_some_iff, Option.pure_def, Option.some.injEq] at h
    obtain ⟨_, -, _, -, _, -, p, hp, rfl⟩ := h
    cases props with
    | none =>
      cases hp
      exact ⟨rfl, List.forall_mem_nil _⟩
    | some w =>
      have hdata : w.data? 3 = some p := hp
      rw [Value.data?, Option.ite_none_right_eq_some] at hdata
      have hform := normalForm_of_normal? w hdata.2
      have hdepth : 3 + p.depth ≤ maxDepth :=
        Nat.le_trans (Nat.add_le_add_left hform.depth 3) hdata.1
      refine ⟨(if_pos hdepth).trans hform.normal, fun n hn => ?_⟩
      exact hv n (mem_numbers_of_fields? hfs (by simp) (hform.numbers n hn))
  · cases h

/-! ## Records -/

theorem get?_append {α : Type} (k : String) (xs ys : List (String × α)) :
    Keyed.get? k (xs ++ ys) = (Keyed.get? k xs).or (Keyed.get? k ys) := by
  induction xs with
  | nil => rfl
  | cons x xs ih =>
    obtain ⟨k', a⟩ := x
    by_cases h : k' = k <;> simp [Keyed.get?, h, ih]

theorem get?_field (k name : String) (s : Option String) :
    Keyed.get? k (Record.field name s) = if name = k then s.map text else none := by
  cases s <;> simp [Record.field, Keyed.get?]

theorem reread_field (name : String) (s : Option String) :
    (Record.field name s).map (fun (k, v) => (k, v.reread)) = Record.field name s := by
  cases s <;> rfl

theorem names_field (name : String) (s : Option String) :
    ((Record.field name s).map (·.1)).Sublist [name] := by
  cases s <;> simp [Record.field]

namespace Record

variable {r r' : Record}

/-- The fields of a record that was written. -/
theorem fields?_reread_toJson (r : Record) :
    r.toJson.reread.fields?
      ["type", "namespace", "name", "version", "qualifiers", "subpath", "score", "alerts"] =
    some [some (text r.coordinates.packageType), r.coordinates.space.map text,
      some (text r.coordinates.name), r.coordinates.version.map text,
      r.coordinates.qualifiers.map text, r.coordinates.subpath.map text,
      some r.ratings.toJson.reread, some (.array (r.alerts.map (·.toJson.reread)))] := by
  rw [toJson, reread_object, fields?_object]
  · simp [reread_field, get?_append, get?_field, Keyed.get?, reread_text, Value.reread,
      rereadItems_eq_map]
  · simp only [List.map_append, reread_field, List.map_cons, List.map_nil]
    have hall : ["type", "namespace", "name", "version", "qualifiers", "subpath", "score",
      "alerts"].Nodup := by decide
    refine List.Nodup.sublist ?_ hall
    exact (((((List.Sublist.refl ["type"]).append (names_field _ _)).append (.refl ["name"])).append
      (names_field _ _)).append (names_field _ _)).append (names_field _ _) |>.append (.refl _)

theorem orDefault?_some {α : Type} (a : α) (f : Value → Option α) (v : Value) :
    orDefault? a f (some v) = f v := rfl

theorem orNull?_text (s : Option String) : orNull? Value.text? (s.map text) = some s := by
  cases s <;> rfl

theorem orDefault?_qualifiers (s : Option String) :
    orDefault? none qualifiers? (s.map text) = some s := by
  cases s <;> rfl

/-- **The coordinates of a record are read back as they were.** -/
theorem read?_write (r : Record) :
    read? r.write = (do
      let ratings ← Ratings.ofJson? r.ratings.toJson.reread
      let alerts ← (r.alerts.map (·.toJson.reread)).mapM Alert.ofJson?
      return ⟨r.coordinates, ratings, alerts⟩) := by
  rw [read?, write, read?_compact, Option.bind_some, ofJson?, fields?_reread_toJson]
  simp [orNull?_text, orDefault?_qualifiers, orDefault?_some, Value.items?]

theorem coordinates_of_read?_write (h : read? r.write = some r') :
    r'.coordinates = r.coordinates := by
  simp only [read?_write, Option.bind_eq_bind, Option.bind_eq_some_iff, Option.pure_def,
    Option.some.injEq] at h
  obtain ⟨_, -, _, -, rfl⟩ := h
  rfl

/-- Do all doubles of a record survive? -/
structure Survives (r : Record) : Prop where
  ratings : ∀ x ∈ r.ratings.toList, Json.Survives x
  alerts : ∀ a ∈ r.alerts, ∀ x, .real x ∈ a.props.numbers → Json.Survives x

instance (r : Record) : Decidable r.Survives :=
  let reals (a : Alert) := a.props.numbers.filterMap fun
    | .real x => some x
    | _ => none
  have hreals {a : Alert} {x : Decimal.Finite} : x ∈ reals a ↔ .real x ∈ a.props.numbers := by
    rw [List.mem_filterMap]
    constructor
    · rintro ⟨n, hn, hx⟩
      cases n <;> cases hx
      exact hn
    · exact fun hn => ⟨_, hn, rfl⟩
  decidable_of_iff
    ((∀ x ∈ r.ratings.toList, Json.Survives x) ∧ ∀ a ∈ r.alerts, ∀ x ∈ reals a, Json.Survives x)
    ⟨fun h => ⟨h.1, fun a ha x hx => h.2 a ha x (hreals.mpr hx)⟩,
      fun h => ⟨h.ratings, fun a ha x hx => h.alerts a ha x (hreals.mp hx)⟩⟩

/-- The alerts of a record that was read can be read back. -/
theorem sound_of_read? {text : String} (h : read? text = some r) : ∀ a ∈ r.alerts, a.Sound := by
  obtain ⟨v, hv, hr⟩ := Option.bind_eq_some_iff.mp h
  have hfits : ∀ n ∈ v.numbers, n.Fits := by
    simp only [Json.read?, Option.bind_eq_bind, Option.bind_eq_some_iff, Option.pure_def,
      Option.some.injEq] at hv
    obtain ⟨_, _, t, _, rfl⟩ := hv
    exact fits_of_mem_numbers t
  simp only [ofJson?, Option.bind_eq_bind, Option.bind_eq_some_iff] at hr
  obtain ⟨fs, hfs, hr⟩ := hr
  split at hr
  · next alerts =>
    simp only [Option.bind_eq_some_iff, Option.pure_def, Option.some.injEq] at hr
    obtain ⟨_, -, _, -, _, -, _, -, _, -, _, -, _, -, as, has, rfl⟩ := hr
    cases alerts with
    | none =>
      cases has
      exact List.forall_mem_nil _
    | some w =>
      -- an alert comes from an item of the list, whose numbers are numbers of the whole text
      intro a ha
      obtain ⟨items, hitems, hmap⟩ := Option.bind_eq_some_iff.mp has
      obtain ⟨item, hitem, hparse⟩ := exists_of_mem_mapM hmap ha
      have hw : w = .array items := by
        cases w <;> cases hitems
        rfl
      refine Alert.sound_of_ofJson? (fun n hn => hfits n ?_) hparse
      refine mem_numbers_of_fields? hfs (w := w) (by simp) ?_
      rw [hw]
      exact mem_itemNumbers hitem hn
  · cases hr

theorem mapM_ofJson?_toJson {as : List Alert} (h : ∀ a ∈ as, a.Sound)
    (hx : ∀ a ∈ as, ∀ x, .real x ∈ a.props.numbers → Json.Survives x) :
    (as.map (·.toJson.reread)).mapM Alert.ofJson? = some as := by
  induction as with
  | nil => rfl
  | cons a as ih =>
    have ha := h a List.mem_cons_self
    have hrest := ih (fun b hb => h b (List.mem_cons_of_mem _ hb)) fun b hb =>
      hx b (List.mem_cons_of_mem _ hb)
    rw [List.map_cons, List.mapM_cons, Alert.reread_toJson ha (hx a List.mem_cons_self),
      Alert.ofJson?_toJson ha, hrest]
    rfl

/-- **A record that was read and whose doubles survive is read back as it was.** -/
theorem read?_write_of_survives {text : String} (h : read? text = some r) (hx : r.Survives) :
    read? r.write = some r := by
  rw [read?_write, Ratings.reread_toJson hx.ratings, Ratings.ofJson?_toJson,
    mapM_ofJson?_toJson (sound_of_read? h) hx.alerts]
  rfl

end Record

end DepScope.Score
