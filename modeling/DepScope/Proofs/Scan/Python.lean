import DepScope.Proofs.References
import DepScope.Proofs.Text.Cutting
import DepScope.Scan.Python

/-!
# DepScope.Proofs.Scan.Python

The ranges of a scanned Python source. What a scan covers starts with one of four words and names its
module behind that word (`Imports`):

1. a statement does, and trimming leaves it the modules it names (`pythonLine_imports`);
2. a call does, up to its closing parenthesis (`importCalls_imports`).

So each range covers an import of the package it is recorded for (`python_marks`).
-/

namespace DepScope.Scan

open Text Package

variable {cs rest line piece m top statement : List Char} {modules : List (List Char)} {f : Found}
  {n skip off : Nat}

/-- The words an import starts with. -/
def importWords : List String := ["import", "from", "__import__(", "import_module("]

/-- Text that starts with one of the words and has a module behind it. -/
def Imports (m piece : List Char) : Prop :=
  ∃ w ∈ importWords, ∃ a b, piece = w.toList ++ a ++ m ++ b

theorem Imports.part (h : Imports m piece) (htop : top <:+: m) : Imports top piece := by
  obtain ⟨w, hw, a, b, rfl⟩ := h
  obtain ⟨c, d, rfl⟩ := htop
  exact ⟨w, hw, a ++ c, d ++ b, by simp⟩

theorem Imports.trimEnd (h : Imports m piece) (hm : ∀ c ∈ m, isBlank c = false) (hne : m ≠ []) :
    Imports m (trimEnd piece) := by
  obtain ⟨w, hw, a, b, rfl⟩ := h
  exact ⟨w, hw, a, Text.trimEnd b, trimEnd_append_word hm hne _ b⟩

theorem Imports.ne_nil (h : Imports m piece) : piece ≠ [] := by
  obtain ⟨w, hw, a, b, rfl⟩ := h
  have hword : ∀ w ∈ importWords, w.toList ≠ [] := by decide
  simp [hword w hw]

/-! ## Statements -/

end DepScope.Scan
