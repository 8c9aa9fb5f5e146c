import DepScope.Package.Purl

/-!
# DepScope.Proofs.Package.Purl

The identifier of a name says what it was made from: its type is the ecosystem's, and its name is
the folded one, whatever characters the name has (`ecosystem?_ofName`, `name_ofName`). So names have
one identifier only if they are folded alike (`ofName_inj`). Folding does not change whether a name
is local (`isLocal_foldName`).
-/

namespace DepScope.Text

theorem afterPrefix?_append (p cs : List Char) : afterPrefix? p (p ++ cs) = some cs := by
  induction p with
  | nil => rfl
  | cons c p ih => simp [afterPrefix?, ih]

theorem cutAt?_append {sep : Char} {a : List Char} (h : sep ∉ a) (b : List Char) :
    cutAt? sep (a ++ sep :: b) = some (a, b) := by
  induction a with
  | nil => simp [cutAt?]
  | cons c a ih =>
    simp only [List.mem_cons, not_or] at h
    obtain ⟨hc, ha⟩ := h
    simp [cutAt?, Ne.symm hc, ih ha]

theorem cutAt?_eq_some_iff {sep : Char} {cs a b : List Char} :
    cutAt? sep cs = some (a, b) ↔ sep ∉ a ∧ cs = a ++ sep :: b := by
  refine ⟨fun h => ?_, fun h => h.2 ▸ cutAt?_append h.1 b⟩
  induction cs generalizing a with
  | nil => cases h
  | cons c cs ih =>
    rw [cutAt?] at h
    split at h
    · next hc =>
      cases h
      exact ⟨List.not_mem_nil, by rw [hc, List.nil_append]⟩
    · next hc =>
      obtain ⟨⟨a, b⟩, hcut, heq⟩ := Option.map_eq_some_iff.mp h
      cases heq
      obtain ⟨hnot, rfl⟩ := ih hcut
      exact ⟨by simp [Ne.symm hc, hnot], rfl⟩

theorem head?_substitute {a b c : Char} (hc : c ≠ a) (hb : c ≠ b) (cs : List Char) :
    (substitute a b cs).head? = some c ↔ cs.head? = some c := by
  cases cs with
  | nil => rfl
  | cons x cs =>
    by_cases hx : x = a
    · simp [substitute, hx, Ne.symm hc, Ne.symm hb]
    · simp [substitute, hx]

end DepScope.Text

namespace DepScope.Package

open Text

variable (e : Ecosystem) (n : String)

theorem slash_notMem_name : '/' ∉ e.name.toList := by
  cases e <;> decide

theorem body?_ofName :
    (Purl.ofName e n).body? = some (e.name.toList ++ '/' :: (e.foldName n).toList) := by
  have htext : (Purl.ofName e n).text.toList =
      "pkg:".toList ++ (e.name.toList ++ '/' :: (e.foldName n).toList) := by
    simp [Purl.ofName]
  rw [Purl.body?, htext, afterPrefix?_append]

/-- The type of the identifier of a name is the ecosystem. -/
theorem ecosystem?_ofName : (Purl.ofName e n).ecosystem? = some e := by
  have hfirst : firstElement (e.name.toList ++ '/' :: (e.foldName n).toList) = e.name.toList := by
    have hplain : ∀ c ∈ e.name.toList, (c != '/') = true := fun c hc => by
      have hne : c ≠ '/' := fun h => slash_notMem_name e (h ▸ hc)
      simpa using hne
    simp [firstElement, List.takeWhile_append_of_pos hplain]
  have hread : Ecosystem.ofName? e.name = some e := by cases e <;> decide
  rw [Purl.ecosystem?, Purl.packageType, body?_ofName]
  simp only [hfirst, String.ofList_toList, hread]

/-- The name of the identifier of a name is the folded name. -/
theorem name_ofName : (Purl.ofName e n).name = e.foldName n := by
  rw [Purl.name, body?_ofName, Option.bind_some, cutAt?_append (slash_notMem_name e)]
  simp only [String.ofList_toList]

/-- **Names of one identifier** are of one ecosystem and folded alike. -/
theorem ofName_inj {e e' : Ecosystem} {a b : String} :
    Purl.ofName e a = Purl.ofName e' b ↔ e = e' ∧ e.foldName a = e.foldName b := by
  constructor
  · intro h
    have hecosystem := congrArg Purl.ecosystem? h
    rw [ecosystem?_ofName, ecosystem?_ofName, Option.some.injEq] at hecosystem
    subst hecosystem
    have hname := congrArg Purl.name h
    rw [name_ofName, name_ofName] at hname
    exact ⟨rfl, hname⟩
  · rintro ⟨rfl, hname⟩
    rw [Purl.ofName, Purl.ofName, hname]

/-- Where names are not folded, different names have different identifiers. -/
theorem ofName_inj_of_ne {e : Ecosystem} {a b : String} (h : e ≠ .pypi) :
    Purl.ofName e a = Purl.ofName e b ↔ a = b := by
  cases e with
  | pypi => exact absurd rfl h
  | npm | golang => simp [ofName_inj, Ecosystem.foldName]

/-- A folded name is local if and only if the name is: folding leaves the dot in front alone. -/
theorem isLocal_foldName : e.isLocal (e.foldName n) = e.isLocal n := by
  cases e with
  | npm => rfl
  | golang => rfl
  | pypi =>
    rw [Bool.eq_iff_iff]
    simp only [Ecosystem.isLocal, Ecosystem.foldName, String.toList_ofList, beq_iff_eq]
    exact head?_substitute (by decide) (by decide) n.toList

end DepScope.Package
