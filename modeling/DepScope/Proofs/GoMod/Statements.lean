import DepScope.Proofs.GoMod.Blocks

/-!
# DepScope.Proofs.GoMod.Statements

Files that are put together from statements, each a text that can be read by itself.

1. What lines declare does not depend on what has been declared before them: it is put behind that
   (`File.followedBy`), for one verb with its arguments (`apply_eq`), one line (`line_eq`) and all lines
   (`through_eq`).
2. So statements with line feeds between them declare what they declare one by one, in their order
   (`declared_join`).
-/

namespace DepScope.GoMod

variable {f g : File} {a b : String}

/-! ## What comes behind what has been declared -/

/-- What two parts of a file declare together. Of the module and of the language version the last word
counts, entries are kept in their order. -/
def File.followedBy (f g : File) : File where
  module := g.module.or f.module
  go := g.go.or f.go
  require := f.require ++ g.require
  exclude := f.exclude ++ g.exclude
  replace := f.replace ++ g.replace

theorem followedBy_empty (f : File) : f.followedBy {} = f := by
  simp [File.followedBy]

theorem followedBy_assoc (f g h : File) :
    (f.followedBy g).followedBy h = f.followedBy (g.followedBy h) := by
  simp [File.followedBy, Option.or_assoc]

/-- A verb with its arguments declares the same behind anything. -/
theorem apply_eq (f : File) (verb : String) (args : List Token) (place : Stretch) :
    f.apply verb args place = (({} : File).apply verb args place).map f.followedBy := by
  unfold File.apply
  split
  · match args with
    | [] | [_] | _ :: _ :: _ => simp [Except.map, File.followedBy]
  · match args with
    | [] | [_] | _ :: _ :: _ => simp [Except.map, File.followedBy]
  · match args with
    | [] | [_] | [_, _] | _ :: _ :: _ :: _ => simp [Except.map, File.followedBy]
  · match args with
    | [] | [_] | [_, _] | _ :: _ :: _ :: _ => simp [Except.map, File.followedBy]
  · cases splitArrow? args with
    | none => rfl
    | some r =>
      dsimp only
      split
      · simp [Except.map, File.followedBy]
      · rfl
  · simp [Except.map, followedBy_empty]

/-- A line declares the same behind anything, and leaves the same block open. -/
theorem line_eq (f : File) (block : Option String) (l : Line) :
    f.line block l = (({} : File).line block l).map fun r => (f.followedBy r.1, r.2) := by
  have happly (verb : String) (args : List Token) (b : Option String) :
      (f.apply verb args l.place).map (·, b) =
        ((({} : File).apply verb args l.place).map (·, b)).map fun r => (f.followedBy r.1, r.2) := by
    rw [apply_eq]
    cases ({} : File).apply verb args l.place <;> rfl
  obtain ⟨first, others⟩ := l
  unfold File.line
  cases block with
  | some verb =>
    dsimp only
    split
    · split <;> simp [Except.map, followedBy_empty]
    · exact happly verb (first :: others) (some verb)
  | none =>
    dsimp only
    split
    · rfl
    · cases others with
      | nil => exact happly first.text [] none
      | cons second more =>
        dsimp only
        split
        · match more with
          | [] => simp [Except.map, followedBy_empty]
          | [third] => cases hthird : third.is ")" <;> simp [hthird, Except.map, followedBy_empty]
          | _ :: _ :: _ => rfl
        · exact happly first.text (second :: more) none

/-- **Lines declare the same behind anything.** -/
theorem through_eq (f : File) (block : Option String) (ls : List (List Token)) :
    f.through block ls = (({} : File).through block ls).map fun r => (f.followedBy r.1, r.2) := by
  induction ls generalizing f block with
  | nil => simp [File.through, Except.map, followedBy_empty]
  | cons l ls ih =>
    cases l with
    | nil => exact ih f block
    | cons first others =>
      rw [through_cons, through_cons, line_eq]
      cases ({} : File).line block ⟨first, others⟩ with
      | error e => rfl
      | ok r =>
        obtain ⟨g, block'⟩ := r
        simp only [Except.map, Except.bind]
        rw [ih (f.followedBy g), ih g]
        cases ({} : File).through block' ls with
        | error e => rfl
        | ok r' => simp [Except.map, followedBy_assoc]

/-! ## Texts put together -/

/-- Can a text be read as a file? -/
def Accepted (text : String) : Prop :=
  ∃ f, File.parse text = .ok f

/-- What a text declares, without places; nothing if it cannot be read. -/
def declared (text : String) : File :=
  ((File.parse text).toOption.map File.unplaced).getD {}

theorem parse_toOption (h : Accepted a) :
    (File.parse a).toOption.map File.unplaced = some (declared a) := by
  obtain ⟨f, hf⟩ := h
  simp [declared, hf, Except.toOption]

theorem accepted_of_toOption (h : (File.parse a).toOption.map File.unplaced = some f) : Accepted a := by
  cases hf : File.parse a with
  | error e => simp [hf, Except.toOption] at h
  | ok g => exact ⟨g, hf⟩

/-- The lines of a text that can be read leave no block open. -/
theorem exists_through (h : Accepted a) :
    ∃ ls, lineWords a.toList = some ls ∧ ({} : File).through none ls = .ok (declared a, none) := by
  have hread := parse_toOption h
  rw [unplaced_parse] at hread
  obtain ⟨ls, hls, hread⟩ := Option.bind_eq_some_iff.mp hread
  obtain ⟨⟨f, block⟩, hthrough, hread⟩ := Option.bind_eq_some_iff.mp hread
  refine ⟨ls, hls, ?_⟩
  cases hr : ({} : File).through none ls with
  | error e => simp [hr, Except.toOption] at hthrough
  | ok r =>
    obtain rfl : r = (f, block) := by simpa [hr, Except.toOption] using hthrough
    cases block with
    | some verb => simp at hread
    | none =>
      obtain rfl : f = declared a := by simpa using hread
      rfl

/-- **A statement and what follows it on new lines** declare what they declare one after the other. -/
theorem accepted_append (ha : Accepted a) (hb : Accepted b) :
    Accepted (a ++ "\n" ++ b) ∧ declared (a ++ "\n" ++ b) = (declared a).followedBy (declared b) := by
  obtain ⟨as, has, hthrough⟩ := exists_through ha
  obtain ⟨bs, hbs, hthrough'⟩ := exists_through hb
  have hwords : lineWords (a ++ "\n" ++ b).toList = some (as ++ bs) := by
    have hcut : (a ++ "\n" ++ b).toList = a.toList ++ '\n' :: b.toList := by simp
    rw [hcut, lineWords_append has (.inr rfl), lineWords_lineFeed, hbs]
    rfl
  have hboth : ({} : File).through none (as ++ bs) =
      .ok ((declared a).followedBy (declared b), none) := by
    rw [through_append, hthrough]
    simp only [Except.bind]
    rw [through_eq, hthrough']
    rfl
  have hread : (File.parse (a ++ "\n" ++ b)).toOption.map File.unplaced =
      some ((declared a).followedBy (declared b)) := by
    rw [unplaced_parse, hwords]
    simp [hboth, Except.toOption]
  have haccepted := accepted_of_toOption hread
  refine ⟨haccepted, ?_⟩
  rw [parse_toOption haccepted] at hread
  exact Option.some.inj hread

/-- What statements declare one after the other. -/
def declaredAll (as : List String) : File :=
  as.foldr (fun a f => (declared a).followedBy f) {}

/-- **Statements with line feeds between them** can be read, and declare what they declare one by one. -/
theorem declared_join {as : List String} (h : ∀ a ∈ as, Accepted a) :
    Accepted ("\n".intercalate as) ∧ declared ("\n".intercalate as) = declaredAll as := by
  induction as with
  | nil => exact ⟨⟨{}, rfl⟩, rfl⟩
  | cons a as ih =>
    obtain ⟨ha, has⟩ := List.forall_mem_cons.mp h
    obtain ⟨hrest, hdeclared⟩ := ih has
    cases as with
    | nil => exact ⟨ha, (followedBy_empty (declared a)).symm⟩
    | cons b bs =>
      rw [String.intercalate_cons_cons]
      obtain ⟨hboth, heq⟩ := accepted_append ha hrest
      refine ⟨hboth, ?_⟩
      rw [heq, hdeclared]
      rfl

end DepScope.GoMod
