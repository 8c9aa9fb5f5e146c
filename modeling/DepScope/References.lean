import DepScope.Package.Purl
import DepScope.Text.Position

/-!
# DepScope.References

What is known about the packages of one document: which identifiers occur, whether each belongs to
the runtime, and the ranges that mention it.

A reader produces *mentions*, one per place; `References.ofMentions` gathers them. Identifiers keep
the order of their first mention and ranges the order of mentioning, but two sets are alike
(`References.alike`) also when their identifiers come in different orders.
-/

namespace DepScope

open Package Text

/-- What a document says about one identifier. -/
structure Reference where
  builtin : Bool
  ranges : List Range
deriving DecidableEq, Inhabited

/-- One place that names a package. -/
structure Mention where
  purl : Purl
  builtin : Bool
  range : Range
deriving DecidableEq, Inhabited

/-- The mention of a package name: the identifier is folded, the flag is that of the name as
written. -/
def Mention.ofName (e : Ecosystem) (name : String) (range : Range) : Mention :=
  ⟨Purl.ofName e name, e.isBuiltin name, range⟩

/-- Adds a mention to a list of entries: to the entry of its identifier, else at the end. -/
def insertMention (m : Mention) : List (Purl × Reference) → List (Purl × Reference)
  | [] => [(m.purl, ⟨m.builtin, [m.range]⟩)]
  | (p, r) :: es =>
    if p = m.purl then (p, ⟨r.builtin, r.ranges ++ [m.range]⟩) :: es
    else (p, r) :: insertMention m es

theorem mem_keys_insertMention {m : Mention} {es : List (Purl × Reference)} {p : Purl} :
    p ∈ (insertMention m es).map (·.1) ↔ p = m.purl ∨ p ∈ es.map (·.1) := by
  induction es with
  | nil => simp [insertMention]
  | cons e es ih =>
    simp only [insertMention]
    split
    · next h => simp [← h]
    · simp only [List.map_cons, List.mem_cons, ih]
      exact or_left_comm

theorem nodup_keys_insertMention {es : List (Purl × Reference)} (m : Mention)
    (h : (es.map (·.1)).Nodup) : ((insertMention m es).map (·.1)).Nodup := by
  induction es with
  | nil => simp [insertMention]
  | cons e es ih =>
    obtain ⟨hnew, hes⟩ := List.nodup_cons.mp h
    simp only [insertMention]
    split
    · exact h
    · next hne =>
      refine List.nodup_cons.mpr ⟨fun hmem => ?_, ih hes⟩
      obtain heq | hmem := mem_keys_insertMention.mp hmem
      · exact hne heq
      · exact hnew hmem

theorem ranges_insertMention {es : List (Purl × Reference)} (m : Mention)
    (h : ∀ e ∈ es, e.2.ranges ≠ []) : ∀ e ∈ insertMention m es, e.2.ranges ≠ [] := by
  induction es with
  | nil => simp [insertMention]
  | cons e es ih =>
    obtain ⟨he, hes⟩ := List.forall_mem_cons.mp h
    simp only [insertMention]
    split
    · exact List.forall_mem_cons.mpr ⟨by simp, hes⟩
    · exact List.forall_mem_cons.mpr ⟨he, ih hes⟩

/-- Identifiers with their references, in the order of their first mention. -/
structure References where
  entries : List (Purl × Reference) := []
  /-- Each identifier occurs once. -/
  distinct : (entries.map (·.1)).Nodup := by simp
  /-- Each identifier has been mentioned somewhere. -/
  mentioned : ∀ e ∈ entries, e.2.ranges ≠ [] := by simp
deriving DecidableEq

instance : Inhabited References := ⟨{}⟩

namespace References

/-- No identifier at all. -/
def empty : References := {}

/-- The reference of an identifier. -/
def get? (rs : References) (p : Purl) : Option Reference :=
  (rs.entries.find? fun e => decide (e.1 = p)).map (·.2)

/-- Does the identifier occur? -/
def contains (rs : References) (p : Purl) : Bool :=
  (rs.get? p).isSome

/-- How many identifiers occur. -/
def size (rs : References) : Nat :=
  rs.entries.length

/-- Does nothing occur? -/
def isEmpty (rs : References) : Bool :=
  rs.entries.isEmpty

/-- The identifiers in the order of their first mention. -/
def purls (rs : References) : List Purl :=
  rs.entries.map (·.1)

/-- Adds a mention. The flag of the first mention stays. -/
def add (rs : References) (m : Mention) : References where
  entries := insertMention m rs.entries
  distinct := nodup_keys_insertMention m rs.distinct
  mentioned := ranges_insertMention m rs.mentioned

/-- Gathers mentions. -/
def ofMentions (ms : List Mention) : References :=
  ms.foldl add empty

theorem get?_eq_some_iff {rs : References} {p : Purl} {r : Reference} :
    rs.get? p = some r ↔ (p, r) ∈ rs.entries := by
  obtain ⟨es, distinct, mentioned⟩ := rs
  simp only [get?]
  clear mentioned
  induction es with
  | nil => simp
  | cons e es ih =>
    obtain ⟨q, r'⟩ := e
    obtain ⟨hnew, hes⟩ := List.nodup_cons.mp distinct
    by_cases hq : q = p
    · subst hq
      have hnot : (q, r) ∉ es := fun h => hnew (List.mem_map.mpr ⟨(q, r), h, rfl⟩)
      simp [hnot, eq_comm]
    · rw [List.find?_cons_of_neg (by simpa using hq), ih hes]
      simp [Ne.symm hq]

theorem contains_iff {rs : References} {p : Purl} : rs.contains p = true ↔ p ∈ rs.purls := by
  simp only [contains, Option.isSome_iff_exists, get?_eq_some_iff, purls, List.mem_map]
  constructor
  · rintro ⟨r, hr⟩
    exact ⟨(p, r), hr, rfl⟩
  · rintro ⟨e, he, rfl⟩
    exact ⟨e.2, he⟩

/-- Same identifiers with the same references, in whatever order. -/
def alike (a b : References) : Bool :=
  a.size == b.size && a.entries.all fun (p, r) => b.get? p == some r

end References

end DepScope
