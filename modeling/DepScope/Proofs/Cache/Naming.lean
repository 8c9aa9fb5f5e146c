import DepScope.Proofs.Cache.Provenance

/-!
# DepScope.Proofs.Cache.Naming

A package is scored under the identifier it is found under. A reader of documents makes an
identifier from a whole name (`Purl.ofName`); the service sends a record in parts, and the cache
writes the identifiers of the record from them (`Coordinates.renderWith`). The service may cut a
name at any of its slashes, or not at all (`ReadsAs`); whichever way it does, the record has the
identifier of the name (`unversioned_of_readsAs`), so it comes to the entry that is watched for the
name (`applyRecord_of_readsAs`).
-/

namespace DepScope.Package

/-- An optional part that is not there, or empty. -/
def Absent (part : Option String) : Prop :=
  part.getD "" = ""

instance (part : Option String) : Decidable (Absent part) :=
  inferInstanceAs (Decidable (part.getD "" = ""))

/-- The ways to read a package name in parts: as a name alone, or cut at a slash behind a
namespace. Names of Python packages have no namespace. -/
inductive ReadsAs : Ecosystem → String → Option String → String → Prop
  | whole {space : Option String} (e : Ecosystem) (n : String) (h : Absent space) :
      ReadsAs e n space n
  | cut {e : Ecosystem} {space : String} (name : String) (he : e ≠ .pypi) (hs : space ≠ "") :
      ReadsAs e (space ++ "/" ++ name) (some space) name

namespace Coordinates

variable {e : Ecosystem} {n : String} {c : Coordinates}

theorem marked_of_absent {part : Option String} (mark : String) (h : Absent part) :
    marked mark part = "" := by
  cases part with
  | none => rfl
  | some s =>
    obtain rfl : s = "" := h
    rfl

theorem marked_some {s : String} (mark : String) (h : s ≠ "") : marked mark (some s) = mark ++ s := by
  simp [marked, h]

theorem spacePart_of_absent (h : Absent c.space) : c.spacePart = "" := by
  unfold spacePart
  cases hs : c.space with
  | none => rfl
  | some s =>
    rw [hs] at h
    obtain rfl : s = "" := h
    rfl

theorem foldedName_eq (ht : c.packageType = e.name) : c.foldedName = e.foldName c.name := by
  cases e <;> simp [foldedName, ht, Ecosystem.name, Ecosystem.foldName]

/-- Namespace and name, put together again, are the folded name. -/
theorem spacePart_append_foldedName (hr : ReadsAs e n c.space c.name) (ht : c.packageType = e.name) :
    c.spacePart ++ c.foldedName = e.foldName n := by
  rw [foldedName_eq ht]
  obtain ⟨packageType, name, space, version, qualifiers, subpath⟩ := c
  cases hr with
  | whole _ _ h => rw [spacePart_of_absent h, String.empty_append]
  | @cut _ space _ he hs =>
    -- outside of PyPI nothing is folded, in the namespace or in the name
    cases e with
    | pypi => exact absurd rfl he
    | npm | golang => simp [spacePart, hs, Ecosystem.foldName]

/-- What a record's identifiers have in common: all but the version is the identifier of the name. -/
theorem renderWith_of_readsAs (hr : ReadsAs e n c.space c.name) (ht : c.packageType = e.name)
    (hq : Absent c.qualifiers) (hs : Absent c.subpath) (version : Option String) :
    c.renderWith version = ⟨(Purl.ofName e n).text ++ marked "@" version⟩ := by
  rw [renderWith, marked_of_absent "?" hq, marked_of_absent "#" hs, String.append_empty,
    String.append_empty, ht, Purl.ofName, ← spacePart_append_foldedName hr ht, ← String.append_assoc]

/-- **The parts of a name have the identifier of the name.** -/
theorem unversioned_of_readsAs (hr : ReadsAs e n c.space c.name) (ht : c.packageType = e.name)
    (hq : Absent c.qualifiers) (hs : Absent c.subpath) : c.unversioned = Purl.ofName e n := by
  rw [unversioned, renderWith_of_readsAs hr ht hq hs, marked, String.append_empty]

end Coordinates

end DepScope.Package

namespace DepScope.Cache

open Package Score

variable {e : Ecosystem} {n : String} {r : Record}

/-- The identifier of a name at a version. -/
def versionOf (e : Ecosystem) (n v : String) : Purl :=
  ⟨(Purl.ofName e n).text ++ "@" ++ v⟩

/-- The identifiers that a record answers, seen from the name. -/
theorem mem_forms_of_readsAs {q : Purl} (hr : ReadsAs e n r.coordinates.space r.coordinates.name)
    (ht : r.coordinates.packageType = e.name) (hq : Absent r.coordinates.qualifiers)
    (hs : Absent r.coordinates.subpath) :
    q ∈ r.forms ↔ q = Purl.ofName e n ∨
      ∃ v, r.coordinates.version = some v ∧ v ≠ "" ∧ q = versionOf e n v := by
  have hun : r.unversioned = Purl.ofName e n := Coordinates.unversioned_of_readsAs hr ht hq hs
  rw [mem_forms, hun, Record.versioned, Coordinates.purl,
    Coordinates.renderWith_of_readsAs hr ht hq hs]
  cases hversion : r.coordinates.version with
  | none => simp [Coordinates.marked]
  | some v =>
    by_cases hv : v = ""
    · simp [Coordinates.marked, hv]
    · simp [Coordinates.marked_some "@" hv, hv, versionOf, String.append_assoc]

/-- **A record comes to the entry that is watched for the name.** However the service reads a name
in parts, a record with these parts has the identifier of the name without a version. Applying it
answers the entry of that identifier and, if it has a version, the entry of the identifier with the
version, and keeps their subscribers; it leaves the queue as it is, and of all other identifiers the
entry and whether they are in flight. -/
theorem applyRecord_of_readsAs (hr : ReadsAs e n r.coordinates.space r.coordinates.name)
    (ht : r.coordinates.packageType = e.name) (hq : Absent r.coordinates.qualifiers)
    (hs : Absent r.coordinates.subpath) :
    r.unversioned = Purl.ofName e n ∧
    ∀ c : State,
      Keyed.get? (Purl.ofName e n) (c.applyRecord r).1.entries =
        (Keyed.get? (Purl.ofName e n) c.entries).map
          (fun x => { x with snapshot := ⟨x.snapshot.purl, some r, none, some c.now⟩ }) ∧
      (∀ v, r.coordinates.version = some v → v ≠ "" →
        Keyed.get? (versionOf e n v) (c.applyRecord r).1.entries =
          (Keyed.get? (versionOf e n v) c.entries).map
            (fun x => { x with snapshot := ⟨x.snapshot.purl, some r, none, some c.now⟩ })) ∧
      (c.applyRecord r).1.queued = c.queued ∧
      ∀ q, q ≠ Purl.ofName e n →
        (∀ v, r.coordinates.version = some v → v ≠ "" → q ≠ versionOf e n v) →
        Keyed.get? q (c.applyRecord r).1.entries = Keyed.get? q c.entries ∧
          (q ∈ (c.applyRecord r).1.inFlight ↔ q ∈ c.inFlight) := by
  have hforms {q : Purl} := mem_forms_of_readsAs (q := q) hr ht hq hs
  refine ⟨Coordinates.unversioned_of_readsAs hr ht hq hs, fun c => ⟨?_, fun v hv hne => ?_,
    (State.applyRecord_agrees c r).queued, fun q hname hversion => ?_⟩⟩
  · rw [State.get?_applyRecord, if_pos (hforms.mpr (.inl rfl))]
    rfl
  · rw [State.get?_applyRecord, if_pos (hforms.mpr (.inr ⟨v, hv, hne, rfl⟩))]
    rfl
  · have hother : q ∉ r.forms := by
      rw [hforms]
      rintro (h | ⟨v, hv, hne, h⟩)
      · exact hname h
      · exact hversion v hv hne h
    rw [State.get?_applyRecord, if_neg hother, State.mem_inFlight_applyRecord]
    exact ⟨rfl, and_iff_left hother⟩

/-- A record of a module that the service cuts at its second slash. -/
def moduleRecord : Record where
  coordinates := ⟨"golang", "errors", some "github.com/pkg", some "v0.9.1", none, none⟩
  ratings := .zero
  alerts := []

/-- A cache that waits for the module, for a version of it and for another module. -/
def awaiting : State where
  staleAfter := 0
  store := ⟨"cache", []⟩
  entries := ["pkg:golang/github.com/pkg/errors", "pkg:golang/github.com/pkg/errors@v0.9.1",
    "pkg:golang/errors"].map fun s => (⟨s⟩, { snapshot := { purl := ⟨s⟩ } })
  inFlight := [⟨"pkg:golang/github.com/pkg/errors"⟩, ⟨"pkg:golang/errors"⟩]

/-- The record answers the module and its version; a module that is called like the last part of the
name goes on waiting. -/
theorem applyRecord_of_module :
    ReadsAs .golang "github.com/pkg/errors" (some "github.com/pkg") "errors" ∧
    moduleRecord.unversioned = Purl.ofName .golang "github.com/pkg/errors" ∧
    ((awaiting.applyRecord moduleRecord).1.snapshot? ⟨"pkg:golang/github.com/pkg/errors"⟩).bind
      (·.data) = some moduleRecord ∧
    ((awaiting.applyRecord moduleRecord).1.snapshot? ⟨"pkg:golang/github.com/pkg/errors@v0.9.1"⟩).bind
      (·.data) = some moduleRecord ∧
    ((awaiting.applyRecord moduleRecord).1.snapshot? ⟨"pkg:golang/errors"⟩).bind (·.data) = none ∧
    ⟨"pkg:golang/errors"⟩ ∈ (awaiting.applyRecord moduleRecord).1.inFlight := by
  have hread : ReadsAs .golang "github.com/pkg/errors" (some "github.com/pkg") "errors" :=
    @ReadsAs.cut .golang "github.com/pkg" "errors" (by decide) (by decide)
  obtain ⟨hun, happly⟩ :=
    applyRecord_of_readsAs (r := moduleRecord) hread rfl (by decide) (by decide)
  obtain ⟨hname, hversion, -, hother⟩ := happly awaiting
  have hversion := hversion "v0.9.1" rfl (by decide)
  obtain ⟨hentry, hflight⟩ := hother ⟨"pkg:golang/errors"⟩ (by decide) (by
    rintro v hv -
    cases hv
    decide)
  refine ⟨hread, hun, ?_, ?_, ?_, hflight.mpr (by decide)⟩
  · rw [State.snapshot?]
    exact (congrArg (fun x => (x.map Entry.snapshot).bind Snapshot.data) hname).trans rfl
  · rw [State.snapshot?]
    exact (congrArg (fun x => (x.map Entry.snapshot).bind Snapshot.data) hversion).trans rfl
  · rw [State.snapshot?, hentry]
    rfl

end DepScope.Cache
