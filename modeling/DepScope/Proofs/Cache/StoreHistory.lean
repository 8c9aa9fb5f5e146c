import DepScope.Proofs.Cache.Store
import DepScope.Proofs.Files.Path
import DepScope.Proofs.Package.Purl
import Mathlib.Data.List.Induction

/-!
# DepScope.Proofs.Cache.StoreHistory

The folder over any history of uses, from an empty one on.

1. The names of files and the temporary ones are plain, so that all of them lie directly in the folder
   and nothing outside of it is touched (`isPlainName_fileName`, `isPlainName_temporaryName`).
2. What one more use does to a lookup (`load?_after`) is what it does to the last save of an identifier
   since the folder was cleared (`lastSaved_concat`).
3. So the folder is a map: an identifier has the record of its last save, if there was one since the
   folder was last cleared (`behaves_as_map`).
-/

namespace DepScope.Cache.Store

open Package Text Score Files

variable {s : Store} {p q : Purl} {r : Record} {tag : Nat} {now t : Int}

/-! ## Names in the folder -/

theorem slash_notMem_encode (bs : List UInt8) : '/' ∉ Base64.urlSafe.encode bs := by
  intro hmem
  obtain ⟨n, hn, hslash⟩ := Base64.exists_digit_of_mem_encode hmem
  have hall : ∀ n < 64, '/' ≠ Base64.urlSafe.digit n := by decide
  exact hall n hn hslash

/-- The name of a file is plain. -/
theorem isPlainName_fileName (p : Purl) : IsPlainName (fileName p).toList := by
  have hlast : (fileName p).toList.getLast? = some 'n' := by simp [toList_fileName]
  constructor
  · intro h
    simp [h] at hlast
  · intro h
    simp [h] at hlast
  · intro h
    simp [h] at hlast
  · simp [toList_fileName, slash_notMem_encode]

/-- What a temporary name begins with is part of the name of the file. -/
theorem exists_stem (tag : Nat) (p : Purl) :
    ∃ stem, temporaryName tag p = stem ++ ".json." ++ toString tag ++ ".tmp" ∧
      stem.toList ⊆ (fileName p).toList := by
  have hcut : cutAt? '.' (fileName p).toList.reverse =
      some (['n', 'o', 's', 'j'], (Base64.urlSafe.encode (encode p.text)).reverse) := by
    have hrev : (fileName p).toList.reverse =
        ['n', 'o', 's', 'j'] ++ '.' :: (Base64.urlSafe.encode (encode p.text)).reverse := by
      simp [toList_fileName]
    rw [hrev]
    exact cutAt?_append (by decide) _
  simp only [temporaryName, hcut]
  split
  · next heq =>
    -- the text before the extension
    obtain ⟨-, hstem⟩ := Prod.mk.inj (Option.some.inj heq)
    refine ⟨_, rfl, ?_⟩
    rw [← hstem, List.reverse_reverse, String.toList_ofList, toList_fileName]
    exact List.subset_append_left _ _
  · -- nothing stands before the extension: it counts as the stem
    exact ⟨_, rfl, List.Subset.refl _⟩

/-- A temporary name is plain. -/
theorem isPlainName_temporaryName (tag : Nat) (p : Purl) :
    IsPlainName (temporaryName tag p).toList := by
  have hlast := getLast?_temporaryName tag p
  constructor
  · intro h
    simp [h] at hlast
  · intro h
    simp [h] at hlast
  · intro h
    simp [h] at hlast
  · obtain ⟨stem, hname, hstem⟩ := exists_stem tag p
    have hdigits : '/' ∉ Nat.toDigits 10 tag := by
      intro hmem
      have hdigit := Nat.isDigit_of_mem_toDigits (b := 10) (by decide) (by decide) hmem
      exact absurd hdigit (by decide)
    have hslash : '/' ∉ stem.toList := fun hmem =>
      (isPlainName_fileName p).slash_notMem (hstem hmem)
    simp [hname, hslash, hdigits]

/-! ## Uses -/

/-- A use of the folder. -/
inductive Use where
  /-- A record is saved at a time, by the writer with this tag. -/
  | save (tag : Nat) (now : Int) (p : Purl) (r : Record)
  | load (p : Purl)
  | clear

/-- The folder after a use; loading leaves it as it is. -/
def after (s : Store) : Use → Store
  | .save tag now p r => s.save tag now p r
  | .load _ => s
  | .clear => s.clear

/-- The folder after uses one by one. -/
def afterAll (s : Store) (uses : List Use) : Store :=
  uses.foldl after s

/-- Does the use put an end to what was saved for an identifier? -/
def Use.Ends (p : Purl) : Use → Prop
  | .save _ _ q _ => q = p
  | .load _ => False
  | .clear => True

/-- The last save of an identifier since the folder was cleared was of this record at this time. -/
def LastSaved (uses : List Use) (p : Purl) (r : Record) (t : Int) : Prop :=
  ∃ tag before since, uses = before ++ .save tag t p r :: since ∧ ∀ u ∈ since, ¬ u.Ends p

/-- Every record that is saved is read back from its text. -/
def Readable (uses : List Use) : Prop :=
  ∀ tag now p r, .save tag now p r ∈ uses → Record.read? r.write = some r

/-! ## One more use -/

theorem load?_save_of_ne (h : q ≠ p) : (s.save tag now p r).load? q = s.load? q := by
  simp only [load?, get?_save, if_neg h]

/-- What a use does to the record of an identifier. -/
theorem load?_after {u : Use}
    (hu : ∀ tag now q r, u = .save tag now q r → Record.read? r.write = some r) :
    (s.after u).load? p = some (r, t) ↔
      (∃ tag, u = .save tag t p r) ∨ s.load? p = some (r, t) ∧ ¬ u.Ends p := by
  cases u with
  | save tag now q r' =>
    by_cases hq : q = p
    · subst hq
      simp [after, Use.Ends, load?_save, hu tag now q r' rfl, and_comm]
    · simp [after, Use.Ends, load?_save_of_ne (Ne.symm hq), hq]
  | load q => simp [after, Use.Ends]
  | clear => simp [after, Use.Ends, clear, load?]

/-- What a use does to the last save of an identifier. -/
theorem lastSaved_concat {uses : List Use} {u : Use} :
    LastSaved (uses ++ [u]) p r t ↔
      (∃ tag, u = .save tag t p r) ∨ LastSaved uses p r t ∧ ¬ u.Ends p := by
  constructor
  · rintro ⟨tag, before, since, heq, hsince⟩
    obtain rfl | ⟨since, v, rfl⟩ := List.eq_nil_or_concat since
    · obtain ⟨-, hu⟩ := List.append_inj' heq rfl
      exact .inl ⟨tag, by simpa using hu⟩
    · rw [List.concat_eq_append, ← List.cons_append, ← List.append_assoc] at heq
      obtain ⟨huses, hu⟩ := List.append_inj' heq rfl
      obtain rfl : u = v := by simpa using hu
      exact .inr ⟨⟨tag, before, since, huses, fun w hw => hsince w (by simp [hw])⟩,
        hsince u (by simp)⟩
  · rintro (⟨tag, rfl⟩ | ⟨⟨tag, before, since, rfl, hsince⟩, hu⟩)
    · exact ⟨tag, uses, [], rfl, by simp⟩
    · refine ⟨tag, before, since ++ [u], by simp, ?_⟩
      intro w hw
      obtain hw | hw := List.mem_append.mp hw
      · exact hsince w hw
      · rwa [List.mem_singleton.mp hw]

/-! ## A history of uses -/

/-- The record of an identifier is the one that was saved last. -/
theorem load?_afterAll {folder : String} {uses : List Use} (h : Readable uses) :
    (afterAll ⟨folder, []⟩ uses).load? p = some (r, t) ↔ LastSaved uses p r t := by
  induction uses using List.reverseRecOn with
  | nil => simp [afterAll, load?, LastSaved]
  | append_singleton uses u ih =>
    have huses : Readable uses := fun tag now q r' hmem => h tag now q r' (by simp [hmem])
    have hu : ∀ tag now q r', u = .save tag now q r' → Record.read? r'.write = some r' :=
      fun tag now q r' heq => h tag now q r' (by simp [heq])
    rw [lastSaved_concat, ← ih huses, ← load?_after hu, afterAll, List.foldl_concat]
    rfl

/-- **The folder is a map** from identifiers to records. After any uses of a folder that was empty, in
which all that was saved can be read back, loading gives the record of the last save since the folder
was cleared, and nothing if there was none. Different identifiers have different files; all of them
lie directly in the folder, and so does the file that is written first, which is none of them. -/
theorem behaves_as_map (folder : String) (uses : List Use) (h : Readable uses) :
    (∀ p r t, (afterAll ⟨folder, []⟩ uses).load? p = some (r, t) ↔ LastSaved uses p r t) ∧
    ∀ s : Store,
      (∀ p q, p ≠ q → s.path p ≠ s.path q) ∧
      (∀ p, components (s.path p).toList =
        components s.folder.toList ++ [.named (fileName p).toList]) ∧
      (∀ tag p, components (join s.folder (temporaryName tag p)).toList =
        components s.folder.toList ++ [.named (temporaryName tag p).toList]) ∧
      ∀ tag p q, s.path p ≠ join s.folder (temporaryName tag q) := by
  refine ⟨fun p r t => load?_afterAll h, fun s => ⟨?_, ?_, ?_, ?_⟩⟩
  · intro p q hne heq
    exact hne (fileName_injective
      (join_injective (isPlainName_fileName p) (isPlainName_fileName q) heq))
  · exact fun p => components_join s.folder (isPlainName_fileName p)
  · exact fun tag p => components_join s.folder (isPlainName_temporaryName tag p)
  · intro tag p q heq
    exact temporaryName_ne_fileName
      (join_injective (isPlainName_fileName p) (isPlainName_temporaryName tag q) heq).symm

/-- A record with coordinates only. -/
def plainLine : String :=
  "\x7b\"type\":\"pypi\",\"name\":\"b\"\x7d"

/-- Two identifiers are saved, the folder is cleared, and one of them is saved again, twice. -/
def clearedUses (r r' : Record) : List Use :=
  [.save 1 0 ⟨"pkg:npm/a"⟩ r, .save 1 3 ⟨"pkg:pypi/b"⟩ r', .clear, .save 2 5 ⟨"pkg:npm/a"⟩ r',
    .load ⟨"pkg:npm/a"⟩, .save 2 7 ⟨"pkg:npm/a"⟩ r]

theorem readable_clearedUses {r r' : Record} (hr : Record.read? r.write = some r)
    (hr' : Record.read? r'.write = some r') : Readable (clearedUses r r') := by
  intro tag now p x hmem
  simp only [clearedUses, List.mem_cons, Use.save.injEq, reduceCtorEq, List.not_mem_nil, or_false,
    false_or] at hmem
  obtain ⟨-, -, -, rfl⟩ | ⟨-, -, -, rfl⟩ | ⟨-, -, -, rfl⟩ | ⟨-, -, -, rfl⟩ := hmem <;> assumption

/-- After that the last save is found, and what was there before the clearing is gone. -/
theorem behaves_as_map_of_cleared :
    ∃ r r' : Record, Readable (clearedUses r r') ∧
      (afterAll ⟨"cache", []⟩ (clearedUses r r')).load? ⟨"pkg:npm/a"⟩ = some (r, 7) ∧
      (afterAll ⟨"cache", []⟩ (clearedUses r r')).load? ⟨"pkg:pypi/b"⟩ = none := by
  have hrun (line : String)
      (h : (Record.read? line).any (fun r => decide r.Survives) = true) :
      ∃ r, Record.read? r.write = some r := by
    obtain ⟨r, hr, hx⟩ := (Option.any_eq_true _ _).mp h
    exact ⟨r, Record.read?_write_of_survives hr (of_decide_eq_true hx)⟩
  obtain ⟨r, hr⟩ := hrun listedLine (by decide +kernel)
  obtain ⟨r', hr'⟩ := hrun plainLine (by decide +kernel)
  have hreadable := readable_clearedUses hr hr'
  obtain ⟨hload, -⟩ := behaves_as_map "cache" _ hreadable
  refine ⟨r, r', hreadable, (hload _ _ _).mpr ?_, Option.eq_none_iff_forall_ne_some.mpr ?_⟩
  · exact ⟨2, (clearedUses r r').dropLast, [], rfl, by simp⟩
  · intro x hx
    obtain ⟨tag, before, since, heq, hsince⟩ := (hload _ x.1 x.2).mp hx
    simp only [clearedUses, List.cons_eq_append_iff, List.cons.injEq, Use.save.injEq, Purl.mk.injEq,
      String.reduceEq, reduceCtorEq, List.nil_eq, List.append_eq_nil_iff, false_and, and_false,
      exists_false, or_false, false_or] at heq
    obtain ⟨-, -, ⟨-, -, rfl⟩⟩ := heq
    exact hsince .clear (by simp) trivial

end DepScope.Cache.Store
