import DepScope.Proofs.Package.Purl
import DepScope.Proofs.References.History

/-!
# DepScope.Proofs.References.Flags

Whether the flag of an identifier depends on the spelling of its name. The flag is looked up for the
name as it is written, the identifier has the folded name, and a set keeps the first flag it meets.

1. Folding turns dashes of Python names into underscores, and no module of the runtime has a dash.
   So names of one identifier differ in their flags exactly if one is a module, and the other the
   same with dashes (`isBuiltin_eq_iff`).
2. The flags of a set do not depend on the order of the mentions exactly if all mentions of an
   identifier have the same flag (`flags_perm_iff`).
3. So they depend on the order exactly if a document has both spellings of a module
   (`flags_iff_no_dashed_module`), such as `py_compile` and `py-compile` (`flag_of_first_spelling`).
-/

namespace DepScope

open Package Text

/-! ## Spellings of a name -/

namespace Package

variable {e : Ecosystem} {a b : String}

/-- A module of the Python runtime, and the same name with dashes for some of its underscores. -/
def IsDashed (module other : String) : Prop :=
  module ∈ pythonModules ∧ other ≠ module ∧ Ecosystem.pypi.foldName other = module

/-- Folding leaves the modules of the runtime alone: they have no dashes. -/
theorem foldName_of_mem_pythonModules (h : a ∈ pythonModules) : Ecosystem.pypi.foldName a = a := by
  have htable : ∀ m ∈ pythonModules, '-' ∉ m.toList := by decide +kernel
  have hsame : substitute '-' '_' a.toList = a.toList := by
    have hkept : ∀ c ∈ a.toList, (if c = '-' then '_' else c) = c := fun c hc =>
      if_neg fun hdash : c = '-' => htable a h (hdash ▸ hc)
    rw [substitute, List.map_congr_left hkept, List.map_id']
  rw [Ecosystem.foldName, hsame, String.ofList_toList]

theorem isBuiltin_pypi_iff : Ecosystem.pypi.isBuiltin a = true ↔ a ∈ pythonModules := by
  simp [Ecosystem.isBuiltin, isPythonBuiltin]

/-- Only one spelling of a module is in the table. -/
theorem isDashed_of_mem (h : Ecosystem.pypi.foldName a = Ecosystem.pypi.foldName b)
    (ha : a ∈ pythonModules) : IsDashed a b ↔ b ∉ pythonModules := by
  rw [foldName_of_mem_pythonModules ha] at h
  constructor
  · rintro ⟨-, hne, -⟩ hb
    rw [foldName_of_mem_pythonModules hb] at h
    exact hne h.symm
  · intro hb
    exact ⟨ha, fun heq => hb (heq ▸ ha), h.symm⟩

theorem IsDashed.ofName_eq (h : IsDashed a b) : Purl.ofName .pypi a = Purl.ofName .pypi b :=
  ofName_inj.mpr ⟨rfl, (foldName_of_mem_pythonModules h.1).trans h.2.2.symm⟩

/-- **Names of one identifier** have the same flag, unless one is a module of the Python runtime and
the other the same with dashes. -/
theorem isBuiltin_eq_iff (h : Purl.ofName e a = Purl.ofName e b) :
    e.isBuiltin a = e.isBuiltin b ↔ ¬ (e = .pypi ∧ (IsDashed a b ∨ IsDashed b a)) := by
  obtain ⟨-, hfold⟩ := ofName_inj.mp h
  cases e with
  | npm | golang =>
    obtain rfl : a = b := hfold
    simp
  | pypi =>
    rw [Bool.eq_iff_iff, isBuiltin_pypi_iff, isBuiltin_pypi_iff]
    by_cases ha : a ∈ pythonModules
    · have hba : ¬ IsDashed b a := fun hdashed =>
        (isDashed_of_mem hfold.symm hdashed.1).mp hdashed ha
      simp [ha, hba, isDashed_of_mem hfold ha]
    · have hab : ¬ IsDashed a b := fun hdashed => ha hdashed.1
      by_cases hb : b ∈ pythonModules
      · simp [ha, hb, isDashed_of_mem hfold.symm hb]
      · have hba : ¬ IsDashed b a := fun hdashed => hb hdashed.1
        simp [ha, hb, hab, hba]

end Package

/-! ## The order of mentions -/

namespace References

/-- **The order of mentions** makes no difference to flags exactly if all mentions of an identifier
have the same flag. -/
theorem flags_perm_iff {α : Type} (f : α → Mention) (xs : List α) :
    (∀ ys : List α, ys.Perm xs → ∀ p,
        (ofMentions (ys.map f)).flagOf? p = (ofMentions (xs.map f)).flagOf? p) ↔
      ∀ x ∈ xs, ∀ y ∈ xs, (f x).purl = (f y).purl → (f x).builtin = (f y).builtin := by
  constructor
  · intro h x hx y hy hpurl
    -- whichever of the two comes first decides the flag
    have hfirst (z : α) (hz : z ∈ xs) :
        (ofMentions (xs.map f)).flagOf? (f z).purl = some (f z).builtin := by
      obtain ⟨before, after, rfl⟩ := List.append_of_mem hz
      rw [← h _ List.perm_middle.symm, flagOf?_ofMentions, List.map_cons, history_cons_self]
      rfl
    have hflags := (hfirst x hx).symm.trans ((congrArg _ hpurl).trans (hfirst y hy))
    exact Option.some.inj hflags
  · intro h ys hperm p
    have hhistories : (history p (ys.map f)).Perm (history p (xs.map f)) :=
      (hperm.map f).filter _
    rw [flagOf?_ofMentions, flagOf?_ofMentions]
    cases hys : history p (ys.map f) with
    | nil =>
      rw [hys] at hhistories
      rw [hhistories.nil_eq]
    | cons m rest =>
      obtain ⟨m', rest', hxs⟩ := List.exists_cons_of_ne_nil
        (fun hnil => by simpa [hys, hnil] using hhistories.length_eq : history p (xs.map f) ≠ [])
      have hm : m ∈ history p (xs.map f) := hhistories.mem_iff.mp (hys ▸ List.mem_cons_self)
      have hm' : m' ∈ history p (xs.map f) := hxs ▸ List.mem_cons_self
      obtain ⟨hmem, hp⟩ := mem_history.mp hm
      obtain ⟨hmem', hp'⟩ := mem_history.mp hm'
      obtain ⟨x, hx, rfl⟩ := List.mem_map.mp hmem
      obtain ⟨y, hy, rfl⟩ := List.mem_map.mp hmem'
      rw [hxs, List.head?_cons, List.head?_cons, Option.map_some, Option.map_some,
        h x hx y hy (hp.trans hp'.symm)]

/-- A package name and where it was found. -/
structure Found where
  ecosystem : Ecosystem
  name : String
  range : Range

/-- The mention of the name. -/
def Found.mention (f : Found) : Mention :=
  .ofName f.ecosystem f.name f.range

/-- The set of the packages that were found. -/
def ofFound (fs : List Found) : References :=
  ofMentions (fs.map Found.mention)

/-- **Flags belong to identifiers, but for dashed modules.** That names have the same flag if they
have the same identifier is true of all pairs of names but those of a module of the Python runtime
and the same with dashes, and of none of these. And the flags of a set do not depend on the order in
which its packages were found if and only if no two of them are such a pair. -/
theorem flags_iff_no_dashed_module (e : Ecosystem) (a b : String) (fs : List Found) :
    ((Purl.ofName e a = Purl.ofName e b → e.isBuiltin a = e.isBuiltin b) ↔
      ¬ (e = .pypi ∧ (IsDashed a b ∨ IsDashed b a))) ∧
    ((∀ gs : List Found, gs.Perm fs → ∀ p, (ofFound gs).flagOf? p = (ofFound fs).flagOf? p) ↔
      ¬ ∃ f ∈ fs, ∃ g ∈ fs,
        f.ecosystem = .pypi ∧ g.ecosystem = .pypi ∧ IsDashed f.name g.name) := by
  refine ⟨?_, (flags_perm_iff Found.mention fs).trans ?_⟩
  · constructor
    · rintro h ⟨rfl, hdashed⟩
      have hpurl : Purl.ofName .pypi a = Purl.ofName .pypi b :=
        hdashed.elim IsDashed.ofName_eq fun hba => hba.ofName_eq.symm
      exact (isBuiltin_eq_iff hpurl).mp (h hpurl) ⟨rfl, hdashed⟩
    · exact fun h hpurl => (isBuiltin_eq_iff hpurl).mpr h
  · constructor
    · rintro h ⟨f, hf, g, hg, hef, heg, hdashed⟩
      have hpurl : f.mention.purl = g.mention.purl := by
        simp only [Found.mention, Mention.ofName, hef, heg, hdashed.ofName_eq]
      have hflags := h f hf g hg hpurl
      simp only [Found.mention, Mention.ofName, hef, heg] at hflags
      exact (isBuiltin_eq_iff hdashed.ofName_eq).mp hflags ⟨rfl, .inl hdashed⟩
    · intro h f hf g hg hpurl
      obtain ⟨hecosystem, -⟩ := ofName_inj.mp hpurl
      simp only [Found.mention, Mention.ofName, ← hecosystem] at hpurl ⊢
      refine (isBuiltin_eq_iff hpurl).mpr ?_
      rintro ⟨hpypi, hdashed | hdashed⟩
      · exact h ⟨f, hf, g, hg, hpypi, hecosystem ▸ hpypi, hdashed⟩
      · exact h ⟨g, hg, f, hf, hecosystem ▸ hpypi, hpypi, hdashed⟩

/-- A module of the runtime and a package that is called the same but for its dash, in both orders:
the flag of their identifier is that of the spelling found first, and the sets are not alike
although they have the same identifiers with the same ranges. -/
theorem flag_of_first_spelling :
    let module : Found := ⟨.pypi, "py_compile", .ofCoords 0 0 0 10⟩
    let dashed : Found := ⟨.pypi, "py-compile", .ofCoords 0 0 0 10⟩
    let p := Purl.ofName .pypi "py_compile"
    Purl.ofName .pypi dashed.name = p ∧
      Ecosystem.pypi.isBuiltin module.name = true ∧ Ecosystem.pypi.isBuiltin dashed.name = false ∧
      [dashed, module].Perm [module, dashed] ∧
      (ofFound [module, dashed]).flagOf? p = some true ∧
      (ofFound [dashed, module]).flagOf? p = some false ∧
      (ofFound [module, dashed]).rangesOf p = (ofFound [dashed, module]).rangesOf p ∧
      (ofFound [module, dashed]).alike (ofFound [dashed, module]) = false := by
  refine ⟨by decide, by decide, by decide, List.Perm.swap .., ?_⟩
  decide +kernel

end References

end DepScope
