import DepScope.Cache.Store
import DepScope.Proofs.Score.RoundTrip
import DepScope.Proofs.Text.Base64

/-!
# DepScope.Proofs.Cache.Store

The folder as a map from identifiers to files. Different identifiers have different file names, and
none of them is a temporary name (`fileName_injective`, `temporaryName_ne_fileName`). So saving a
record sets the file of its identifier and leaves all others alone (`get?_save`).

The format of the files loses nothing: what was read from a text in any of the forms that are accepted
is written in one form, and read back as it was (`load?_save_of_read?`).
-/

namespace DepScope.Cache.Store

open Package Text Score

variable {s : Store} {p q : Purl} {r : Record} {tag : Nat} {now : Int}

/-! ## Names -/

theorem toList_fileName (p : Purl) :
    (fileName p).toList = Base64.urlSafe.encode (encode p.text) ++ ['.', 'j', 's', 'o', 'n'] := by
  simp [fileName]

/-- Different identifiers have different file names. -/
theorem fileName_injective (h : fileName p = fileName q) : p = q := by
  have hlist := congrArg String.toList h
  rw [toList_fileName, toList_fileName] at hlist
  have hbytes := Base64.encode_urlSafe_injective (List.append_cancel_right hlist)
  exact congrArg Purl.mk (encode_injective hbytes)

theorem getLast?_temporaryName (tag : Nat) (p : Purl) :
    (temporaryName tag p).toList.getLast? = some 'p' := by
  have hend : ".tmp".toList.getLast? = some 'p' := by decide
  rw [temporaryName, String.toList_append, List.getLast?_append, hend, Option.some_or]

/-- A temporary name ends differently from every file name. -/
theorem temporaryName_ne_fileName : temporaryName tag p ≠ fileName q := by
  intro h
  have hlast := getLast?_temporaryName tag p
  rw [h, toList_fileName] at hlast
  simp at hlast

/-! ## Saving -/

/-- **Saving** sets the file of an identifier and leaves those of others alone. -/
theorem get?_save :
    Keyed.get? (fileName q) (s.save tag now p r).files =
      if q = p then some ⟨r.write, now⟩ else Keyed.get? (fileName q) s.files := by
  have htemp : temporaryName tag p ≠ fileName q := temporaryName_ne_fileName
  simp only [save, rename, Keyed.get?_put, if_true, Keyed.get?_erase, if_neg htemp]
  by_cases hq : q = p
  · rw [if_pos hq, if_pos (by rw [hq])]
  · rw [if_neg hq, if_neg fun h => hq (fileName_injective h).symm]

/-! ## Loading -/

/-- What is loaded after saving is what the text of the record is read as. -/
theorem load?_save : (s.save tag now p r).load? p = (Record.read? r.write).map (·, now) := by
  simp only [load?, get?_save, if_true, Option.bind_eq_bind, Option.bind_some, Option.pure_def,
    Option.map_eq_bind, Function.comp_def]

/-- **The files lose nothing.** A record that was read from a text, and whose doubles are read back
from their own texts, is read back from its text as it was, and is written with the same bytes again;
so a folder gives back what it was given. -/
theorem load?_save_of_read? {text : String} (h : Record.read? text = some r) (hx : r.Survives) :
    Record.read? r.write = some r ∧
    (Record.read? r.write).map (fun r' => encode r'.write) = some (encode r.write) ∧
    (s.save tag now p r).load? p = some (r, now) := by
  have hback := Record.read?_write_of_survives h hx
  refine ⟨hback, ?_, ?_⟩
  · rw [hback, Option.map_some]
  · rw [load?_save, hback, Option.map_some]

/-- A record as a list of its fields' values: the qualifiers are a map, coordinates are null, the
action is not known, and the members of the nested data are not in order. -/
def listedLine : String :=
  "[\"npm\",null,\"a\",\"1\",\x7b\"k\":\"v\\n\"\x7d,null,\x7b\"overall\":5e-1\x7d," ++
    "[\x7b\"type\":\"t\",\"action\":\"frown\"," ++
      "\"props\":\x7b\"b\":[1,\x7b\"c\":-25E-1\x7d],\"a\":null\x7d\x7d]]"

/-- The listed record is saved and loaded. -/
theorem load?_save_of_listed :
    ∃ r, Record.read? listedLine = some r ∧ r.Survives ∧ Record.read? r.write = some r ∧
      (save ⟨"cache", []⟩ 1 0 ⟨"pkg:npm/a"⟩ r).load? ⟨"pkg:npm/a"⟩ = some (r, 0) := by
  have hrun : (Record.read? listedLine).any (fun r => decide r.Survives) = true := by
    decide +kernel
  obtain ⟨r, hr, hx⟩ := (Option.any_eq_true _ _).mp hrun
  have hx : r.Survives := of_decide_eq_true hx
  obtain ⟨hback, -, hload⟩ := load?_save_of_read? hr hx
  exact ⟨r, hr, hx, hback, hload⟩

end DepScope.Cache.Store
