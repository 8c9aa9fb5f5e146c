import DepScope.Proofs.Package.Purl
import DepScope.Proofs.References.History
import DepScope.Proofs.Text.Cutting
import DepScope.Script.Imports

/-!
# DepScope.Proofs.Script.Exemption

Which packages that a script loads are exempt from checking, because they come with the runtime.

1. A specifier is looked up in the table of the runtime only when it has been cut down to its
   package. So a path below a module of the runtime counts as one, whether or not the table has it
   (`isNodeBuiltin_ofSpecifier`).
2. The first place that loads a package decides its flag (`References.get?_ofMentions_first`).
3. Hence the flag is that of the specifier unless the specifier is a path below a module and no
   module itself (`exempt_iff_not_below`); `punycode/` is such a path (`exempt_of_trailing_slash`).
-/

namespace DepScope

open Package Text

/-! ## The package of a specifier -/

namespace Text

theorem take_one_pieces (sep : Char) (cs : List Char) :
    (pieces sep cs).take 1 = [cs.takeWhile (· != sep)] := by
  induction cs with
  | nil => rfl
  | cons c cs ih =>
    obtain ⟨p, ps, hp⟩ := List.exists_cons_of_ne_nil (pieces_ne_nil sep cs)
    by_cases hc : c = sep
    · simp [pieces, hc]
    · rw [hp] at ih
      simp [pieces, hc, hp, List.cons.inj ih]

/-- A start without the separator is one of the first piece. -/
theorem isPrefix_takeWhile_iff {sep : Char} {p cs : List Char} (h : sep ∉ p) :
    p <+: cs.takeWhile (· != sep) ↔ p <+: cs := by
  refine ⟨fun hp => hp.trans (List.takeWhile_prefix _), ?_⟩
  rintro ⟨rest, rfl⟩
  have hplain : ∀ c ∈ p, (c != sep) = true := fun c hc => by
    simpa using fun heq : c = sep => h (heq ▸ hc)
  rw [List.takeWhile_append_of_pos hplain]
  exact List.prefix_append p _

end Text

namespace Package

variable {s : String}

theorem toList_ofSpecifier (h : s.toList.head? ≠ some '@') :
    (ofSpecifier s).toList = firstElement s.toList := by
  have hwidth : scopeWidth s = 1 := by simp [scopeWidth, h]
  rw [ofSpecifier, hwidth, leadingPieces, take_one_pieces, String.toList_ofList]
  rfl

theorem head?_ofSpecifier_scoped (h : s.toList.head? = some '@') :
    (ofSpecifier s).toList.head? = some '@' := by
  have hwidth : scopeWidth s = 2 := by simp [scopeWidth, h]
  rw [ofSpecifier, hwidth, leadingPieces, String.toList_ofList]
  obtain ⟨cs, hcs⟩ := List.head?_eq_some_iff.mp h
  obtain ⟨p, ps, hp⟩ := List.exists_cons_of_ne_nil (pieces_ne_nil '/' cs)
  rw [hcs, pieces, if_neg (by decide), hp]
  cases ps <;> simp [joinWith]

/-- A specifier is its first element, or goes on behind a slash. -/
theorem firstElement_cases (s : String) : String.ofList (firstElement s.toList) = s ∨
    ∃ rest, s = String.ofList (firstElement s.toList) ++ "/" ++ rest := by
  have hsplit := List.takeWhile_append_dropWhile (p := (· != '/')) (l := s.toList)
  cases hrest : s.toList.dropWhile (· != '/') with
  | nil =>
    rw [hrest, List.append_nil] at hsplit
    exact .inl (by rw [firstElement, hsplit, String.ofList_toList])
  | cons c rest =>
    have hstop := List.head?_dropWhile_not (p := (· != '/')) s.toList
    have hc : c = '/' := by
      rw [hrest] at hstop
      simpa using hstop
    rw [hrest, hc] at hsplit
    refine .inr ⟨String.ofList rest, String.toList_inj.mp ?_⟩
    simpa [firstElement] using hsplit.symm

/-! ## Modules of the runtime -/

/-- A path below a module of the runtime that is no module itself. -/
def BelowModule (s : String) : Prop :=
  s ∉ nodeModules ∧ ∃ m ∈ nodeModules, ∃ rest, s = m ++ "/" ++ rest

theorem isNodeBuiltin_iff :
    isNodeBuiltin s = true ↔ "node:".toList <+: s.toList ∨ s ∈ nodeModules := by
  simp [isNodeBuiltin, hasPrefix_iff]

/-- No scoped name belongs to the runtime. -/
theorem head?_ne_of_isNodeBuiltin (h : isNodeBuiltin s = true) : s.toList.head? ≠ some '@' := by
  have htable : ∀ m ∈ nodeModules, m.toList.head? ≠ some '@' := by decide +kernel
  obtain ⟨rest, hrest⟩ | hmem := isNodeBuiltin_iff.mp h
  · rw [← hrest, List.head?_append_of_ne_nil _ (by decide)]
    decide
  · exact htable s hmem

/-- The table has the first element of all its modules. -/
theorem firstElement_mem_nodeModules {m : String} (h : m ∈ nodeModules) :
    String.ofList (firstElement m.toList) ∈ nodeModules := by
  have htable : ∀ m ∈ nodeModules, String.ofList (firstElement m.toList) ∈ nodeModules := by
    decide +kernel
  exact htable m h

/-- Modules and paths below modules are unscoped, and their first element is a module. -/
theorem BelowModule.first_mem (h : BelowModule s) :
    s.toList.head? ≠ some '@' ∧ String.ofList (firstElement s.toList) ∈ nodeModules := by
  obtain ⟨-, m, hm, rest, rfl⟩ := h
  have htable : ∀ m ∈ nodeModules, m.toList ≠ [] ∧ m.toList.head? ≠ some '@' := by decide +kernel
  have hchars : (m ++ "/" ++ rest).toList = m.toList ++ '/' :: rest.toList := by simp
  constructor
  · rw [hchars, List.head?_append_of_ne_nil _ (htable m hm).1]
    exact (htable m hm).2
  · rw [hchars, firstElement, takeWhile_append_stop (by decide)]
    exact firstElement_mem_nodeModules hm

/-- **A package counts as a part of the runtime** if the specifier is one, or a path below one. -/
theorem isNodeBuiltin_ofSpecifier :
    isNodeBuiltin (ofSpecifier s) = true ↔ isNodeBuiltin s = true ∨ BelowModule s := by
  by_cases hscope : s.toList.head? = some '@'
  · have hpackage : ¬ isNodeBuiltin (ofSpecifier s) = true := fun h =>
      head?_ne_of_isNodeBuiltin h (head?_ofSpecifier_scoped hscope)
    have hself : ¬ isNodeBuiltin s = true := fun h => head?_ne_of_isNodeBuiltin h hscope
    have hbelow : ¬ BelowModule s := fun h => h.first_mem.1 hscope
    simp [hpackage, hself, hbelow]
  · have hfirst : ofSpecifier s = String.ofList (firstElement s.toList) := by
      rw [← toList_ofSpecifier hscope, String.ofList_toList]
    have hnode : "node:".toList <+: (ofSpecifier s).toList ↔ "node:".toList <+: s.toList := by
      rw [toList_ofSpecifier hscope]
      exact isPrefix_takeWhile_iff (by decide)
    rw [isNodeBuiltin_iff, isNodeBuiltin_iff, hnode, or_assoc]
    rw [hfirst]
    refine or_congr_right ⟨fun hmem => or_iff_not_imp_left.mpr fun hnot => ⟨hnot, _, hmem, ?_⟩, ?_⟩
    · -- a module that is no longer than its first element would be in the table
      exact (firstElement_cases s).resolve_left fun heq => hnot (heq ▸ hmem)
    · rintro (hmem | hbelow)
      · exact firstElement_mem_nodeModules hmem
      · exact hbelow.first_mem.2

/-- No module has a scheme, so a path below one has none. -/
theorem BelowModule.isNodeBuiltin_eq (h : BelowModule s) : isNodeBuiltin s = false := by
  obtain ⟨hnot, m, hm, rest, rfl⟩ := h
  have htable : ∀ m ∈ nodeModules, ¬ "node:".toList <+: m.toList := by decide +kernel
  have hchars : (m ++ "/" ++ rest).toList = m.toList ++ '/' :: rest.toList := by simp
  rw [Bool.eq_false_iff, Ne, isNodeBuiltin_iff, not_or]
  refine ⟨fun hnode => htable m hm ?_, hnot⟩
  rw [hchars, ← @isPrefix_takeWhile_iff '/' _ _ (by decide),
    takeWhile_append_stop (by decide), isPrefix_takeWhile_iff (by decide)] at hnode
  exact hnode

end Package

/-! ## Places of a script -/

namespace Script

/-- The places of a script that load modules, in the order of the source. -/
def sites (markup : Bool) (text : String) : List Site :=
  (Node.visit [parseScript markup text]).filterMap Node.site?

/-- The specifier names a package, not a file of the workspace. -/
def Site.IsBare (s : Site) : Prop :=
  s.specifier.toList.head? ≠ some '.' ∧ s.specifier.toList.head? ≠ some '/'

instance : DecidablePred Site.IsBare := fun _ => inferInstanceAs (Decidable (_ ∧ _))

theorem imports_eq (markup : Bool) (text : String) :
    imports markup text =
      .ofMentions ((sites markup text).filterMap (Site.mention? (.ofText text))) :=
  rfl

variable {markup : Bool} {text : String} {lines : LineIndex} {s : Site} {m : Mention}

theorem mention?_eq_some_iff : s.mention? lines = some m ↔
    s.IsBare ∧ m = .ofName .npm (ofSpecifier s.specifier) (lines.rangeOf s.span) := by
  unfold Site.mention? Site.mention?.mention Site.IsBare
  split
  · next c cs hcs =>
    by_cases hc : c = '.' ∨ c = '/'
    · simp only [hcs]
      grind
    · simp only [hcs]
      grind
  · next hcs => simp [hcs, eq_comm]

/-- **Only paths below modules are exempt by mistake.** The first place that loads a package is
recorded under the package of its specifier, and the package is exempt exactly if the specifier
belongs to the runtime, unless the specifier is a path below a module and no module itself. -/
theorem exempt_iff_not_below {before after : List Site} {site : Site}
    (hsites : sites markup text = before ++ site :: after) (hbare : site.IsBare)
    (hfirst : ∀ other ∈ before, other.IsBare →
      ofSpecifier other.specifier ≠ ofSpecifier site.specifier) :
    ∃ r, (imports markup text).get? (.ofName .npm (ofSpecifier site.specifier)) = some r ∧
      r.ranges.head? = some ((LineIndex.ofText text).rangeOf site.span) ∧
      (r.builtin = isNodeBuiltin site.specifier ↔ ¬ BelowModule site.specifier) := by
  have hmention : site.mention? (.ofText text) = some (.ofName .npm (ofSpecifier site.specifier)
      ((LineIndex.ofText text).rangeOf site.span)) := mention?_eq_some_iff.mpr ⟨hbare, rfl⟩
  rw [imports_eq, hsites, List.filterMap_append, List.filterMap_cons_some hmention]
  refine ⟨_, References.get?_ofMentions_first fun m hm heq => ?_, rfl, ?_⟩
  · obtain ⟨other, hother, hm⟩ := List.mem_filterMap.mp hm
    obtain ⟨hotherBare, rfl⟩ := mention?_eq_some_iff.mp hm
    exact hfirst other hother hotherBare ((ofName_inj_of_ne (by decide)).mp heq)
  · simp only [Mention.ofName, Ecosystem.isBuiltin]
    constructor
    · intro hflag hbelow
      rw [hbelow.isNodeBuiltin_eq, Bool.eq_false_iff] at hflag
      exact hflag (isNodeBuiltin_ofSpecifier.mpr (.inr hbelow))
    · intro hnot
      rw [Bool.eq_iff_iff, isNodeBuiltin_ofSpecifier, or_iff_left hnot]

/-- A path that the table has, behind a file of the workspace. -/
theorem exempt_of_listed_path :
    let text := "import './fs'; import 'fs/promises'"
    let site : Site := ⟨⟨22, 35⟩, "fs/promises"⟩
    sites false text = [⟨⟨7, 13⟩, "./fs"⟩] ++ site :: [] ∧ site.IsBare ∧
      (∀ other ∈ [(⟨⟨7, 13⟩, "./fs"⟩ : Site)], other.IsBare →
        ofSpecifier other.specifier ≠ ofSpecifier site.specifier) ∧
      ∃ r, (imports false text).get? (.ofName .npm (ofSpecifier site.specifier)) = some r ∧
        r.ranges.head? = some ((LineIndex.ofText text).rangeOf site.span) ∧
        r.builtin = isNodeBuiltin site.specifier := by
  intro text site
  have hsites : sites false text = [⟨⟨7, 13⟩, "./fs"⟩] ++ site :: [] := by decide +kernel
  have hbare : site.IsBare := by decide
  have hfirst : ∀ other ∈ [(⟨⟨7, 13⟩, "./fs"⟩ : Site)], other.IsBare →
      ofSpecifier other.specifier ≠ ofSpecifier site.specifier := by decide
  have hlisted : ¬ BelowModule site.specifier := fun h => h.1 (by decide)
  obtain ⟨r, hr, hhead, hiff⟩ := exempt_iff_not_below hsites hbare hfirst
  exact ⟨hsites, hbare, hfirst, r, hr, hhead, hiff.mpr hlisted⟩

/-- A slash behind the name asks for the installed package instead of the module of that name. The
package is exempt all the same. -/
theorem exempt_of_trailing_slash :
    let text := "require('punycode/');"
    sites false text = [⟨⟨0, 20⟩, "punycode/"⟩] ∧ isNodeBuiltin "punycode/" = false ∧
      (imports false text).get? (.ofName .npm (ofSpecifier "punycode/")) =
        some ⟨true, [.ofCoords 0 0 0 20]⟩ := by
  intro text
  have hsites : sites false text = [⟨⟨0, 20⟩, "punycode/"⟩] := by decide +kernel
  refine ⟨hsites, by decide, ?_⟩
  rw [imports_eq, hsites]
  decide

end Script

end DepScope
