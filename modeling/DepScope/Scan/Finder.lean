import DepScope.Json.Value
import DepScope.References

/-!
# DepScope.Scan.Finder

The answers of the helper programs that read a source with the language's own parser: lists of
records, one for each import. An answer that is blank or does not fit gives no information.
-/

namespace DepScope.Scan

open Text Package

/-- Places in an answer have 64 bits, lines of a position 32. -/
def wordBound : Nat := 2 ^ 64

/-- A line and a byte column. -/
def finderPoint? (lines : LineIndex) (v : Json.Value) : Option Position := do
  match ← v.fields? ["line", "character"] with
  | [some l, some c] =>
    let p := lines.positionAt (← l.natural? wordBound) (← c.natural? wordBound)
    return ⟨p.line % 2 ^ 32, p.column⟩
  | _ => none

/-- One import found in a Python source. -/
def pythonRecord? (lines : LineIndex) (v : Json.Value) : Option Mention := do
  match ← v.fields? ["name", "is_builtin", "range"] with
  | [some name, some builtin, some range] =>
    match ← range.fields? ["start", "end"] with
    | [some start, some stop] =>
      return ⟨Purl.ofName .pypi (← name.text?), ← builtin.truth?,
        ⟨← finderPoint? lines start, ← finderPoint? lines stop⟩⟩
    | _ => none
  | _ => none

/-- One import found in a Go source. -/
def goRecord? (lines : LineIndex) (v : Json.Value) : Option Mention := do
  match ← v.fields? ["path", "start", "end"] with
  | [some path, some start, some stop] =>
    return Mention.ofName .golang (← path.text?)
      (lines.range (← start.natural? wordBound) (← stop.natural? wordBound))
  | _ => none

/-- The packages of an answer about a document. -/
def finderAnswer? (record : LineIndex → Json.Value → Option Mention) (answer text : String) :
    Option References := do
  let items ← (← Json.read? (trimmed answer)).items?
  let mentions ← items.mapM (record (LineIndex.ofText text))
  return .ofMentions mentions

/-- The packages of an answer about a Python source. -/
def pythonAnswer? (answer text : String) : Option References :=
  finderAnswer? pythonRecord? answer text

/-- The packages of an answer about a Go source. -/
def goAnswer? (answer text : String) : Option References :=
  finderAnswer? goRecord? answer text

end DepScope.Scan
