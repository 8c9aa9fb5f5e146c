import DepScope.Proofs.Scan.Go
import DepScope.Proofs.Text.Lines

/-!
# DepScope.Proofs.Scan.GoLines

A Go source scanned by the numbers of its lines instead of byte offsets.

A path that is seen (`Sighting`) is given by its line and by what stands before it there, so its range
does not depend on the other lines. The paths seen on lines and in blocks (`sightings`) are what the
scan finds (`found_eq`), and the packages of a text are their mentions (`go_eq`, `go_join`).
-/

namespace DepScope.Scan

open Text Package

/-! ## Sightings -/

/-- A line with a number, from some part of it on. -/
structure LineRest where
  line : Nat
  lead : List Char
  text : List Char

/-- A path that is seen on a line, in what follows some part of the line. -/
structure Sighting where
  line : Nat
  lead : List Char
  path : QuotedPath

variable {ls : List (List Char)} {rs : List LineRest} {r : LineRest} {s : Sighting}

/-- Where a path stands with its quotes. -/
def Sighting.range (s : Sighting) : Range :=
  let before := s.lead ++ s.path.before
  ⟨⟨s.line, unitLength before⟩, ⟨s.line, unitLength (before ++ s.path.written)⟩⟩

/-- The mention of a package by its path. -/
def Sighting.mention (s : Sighting) : Mention :=
  .ofName .golang (String.ofList s.path.decoded) s.range

/-- Lines with their numbers. -/
def numbered (i : Nat) (ls : List (List Char)) : List LineRest :=
  (ls.zipIdx i).map fun e => ⟨e.2, [], e.1⟩

theorem numbered_cons (i : Nat) (l : List Char) (ls : List (List Char)) :
    numbered i (l :: ls) = ⟨i, [], l⟩ :: numbered (i + 1) ls := rfl

theorem numbered_append (i : Nat) (as bs : List (List Char)) :
    numbered i (as ++ bs) = numbered i as ++ numbered (i + as.length) bs := by
  simp [numbered, List.zipIdx_append]

/-- The path that a line imports by itself. -/
def onLine? (r : LineRest) : Option Sighting := do
  let (head, rest) ← afterImport? r.text
  let p ← quotedPath? rest
  if endsImport p.after then return ⟨r.line, r.lead ++ head, p⟩ else none

/-- The paths of lines inside a block. -/
def inBlock : List LineRest → List Sighting
  | [] => []
  | r :: rs =>
    let content := trim r.text
    if content.head? == some ')' then []
    else
      ((quotedPath? r.text).map (Sighting.mk r.line r.lead)).toList ++
        (if content.getLast? == some ')' then [] else inBlock rs)

/-- What follows on a line that opens a block. -/
def opened? (r : LineRest) : Option LineRest := do
  let (head, rest) ← afterImport? r.text
  let spaces := rest.takeWhile isSpace
  match rest.drop spaces.length with
  | '(' :: inside => return ⟨r.line, r.lead ++ (head ++ spaces ++ ['(']), inside⟩
  | _ => none

/-- The paths of all blocks. -/
def inBlocks : List LineRest → List Sighting
  | [] => []
  | r :: rs =>
    (match opened? r with
      | some first => inBlock (first :: rs)
      | none => []) ++ inBlocks rs

/-- Lines that open no block bring no block. -/
theorem inBlocks_unopened (h : ∀ l ∈ ls, ∀ n, opened? ⟨n, [], l⟩ = none) (i : Nat)
    (rs : List LineRest) : inBlocks (numbered i ls ++ rs) = inBlocks rs := by
  induction ls generalizing i with
  | nil => rfl
  | cons l ls ih =>
    obtain ⟨hl, hls⟩ := List.forall_mem_cons.mp h
    rw [numbered_cons, List.cons_append, inBlocks, hl, List.nil_append, ih hls]

/-- All paths that are seen on the lines of a text. -/
def sightings (ls : List (List Char)) : List Sighting :=
  (numbered 0 ls).filterMap onLine? ++ inBlocks (numbered 0 ls)

/-! ## Offsets -/

/-- Where the rest of a line starts, if lines start where `o` says. -/
def LineRest.offset (o : Nat → Nat) (r : LineRest) : Nat :=
  o r.line + byteLength r.lead

/-- What is found where a path is seen, if lines start where `o` says. -/
def Sighting.found (o : Nat → Nat) (s : Sighting) : Found :=
  s.path.found (o s.line + byteLength s.lead)

/-- The rest of a line with its offset. -/
def LineRest.placed (o : Nat → Nat) (r : LineRest) : Nat × List Char :=
  (r.offset o, r.text)

variable (o : Nat → Nat)

theorem singleImport?_eq (r : LineRest) :
    singleImport? (r.offset o) r.text = (onLine? r).map (Sighting.found o) := by
  unfold singleImport? onLine?
  cases hhead : afterImport? r.text with
  | none => rfl
  | some x =>
    obtain ⟨head, rest⟩ := x
    simp only [Option.bind_eq_bind, Option.bind_some]
    cases hpath : quotedPath? rest with
    | none => rfl
    | some p =>
      simp only [Option.bind_some]
      split
      · simp [Sighting.found, LineRest.offset, byteLength_append, Nat.add_assoc]
      · rfl

theorem blockImports_eq (rs : List LineRest) :
    blockImports (rs.map (·.placed o)) = (inBlock rs).map (·.found o) := by
  induction rs with
  | nil => rfl
  | cons r rs ih =>
    have hpath : ((quotedPath? r.text).map (·.found (r.offset o))).toList =
        (((quotedPath? r.text).map (Sighting.mk r.line r.lead)).toList).map (·.found o) := by
      cases quotedPath? r.text <;> rfl
    simp only [List.map_cons, LineRest.placed, blockImports, inBlock]
    split
    · rfl
    · rw [List.map_append, hpath]
      split
      · rfl
      · exact congrArg _ ih

theorem opensBlock?_eq (r : LineRest) :
    opensBlock? (r.offset o) r.text = (opened? r).map (·.placed o) := by
  unfold opensBlock? opened?
  cases hhead : afterImport? r.text with
  | none => rfl
  | some x =>
    obtain ⟨head, rest⟩ := x
    have hparenthesis : byteLength ['('] = 1 := rfl
    simp only [Option.bind_eq_bind, Option.bind_some]
    generalize rest.drop (rest.takeWhile isSpace).length = more
    cases more with
    | nil => rfl
    | cons c inside =>
      by_cases hc : c = '('
      · subst hc
        simp [LineRest.placed, LineRest.offset, byteLength_append, hparenthesis, Nat.add_assoc]
      · simp [hc]

theorem opened?_of_opensBlock? {l : List Char} (h : opensBlock? 0 l = none) (n : Nat) :
    opened? ⟨n, [], l⟩ = none := by
  have hplaced := opensBlock?_eq (fun _ => 0) ⟨n, [], l⟩
  rw [LineRest.offset, byteLength, h] at hplaced
  exact Option.map_eq_none_iff.mp hplaced.symm

theorem blocks_eq (rs : List LineRest) :
    blocks (rs.map (·.placed o)) = (inBlocks rs).map (·.found o) := by
  induction rs with
  | nil => rfl
  | cons r rs ih =>
    have hblock := blockImports_eq o
    rw [List.map_cons, blocks, inBlocks, List.map_append, ih]
    congr 1
    dsimp only [LineRest.placed]
    rw [opensBlock?_eq]
    cases opened? r with
    | none => rfl
    | some first => exact hblock (first :: rs)

/-- **What the scan finds** is what is seen, at the offsets of the lines. -/
theorem found_eq (ls : List (List Char)) :
    (placed 0 ls).filterMap (fun (off, line) => singleImport? off line) ++ blocks (placed 0 ls) =
      (sightings ls).map (·.found (lineOffset ls)) := by
  have hplaced : placed 0 ls = (numbered 0 ls).map (·.placed (lineOffset ls)) := by
    rw [placed_eq, numbered, List.map_map]
    rfl
  rw [hplaced, sightings, List.map_append, blocks_eq, List.filterMap_map, List.map_filterMap]
  congr 2
  funext r
  exact singleImport?_eq (lineOffset ls) r

/-! ## Ranges -/

/-- The rest of one of some lines. -/
def LineRest.IsOf (r : LineRest) (ls : List (List Char)) : Prop :=
  ls[r.line]? = some (r.lead ++ r.text)

theorem isOf_of_mem_numbered (h : r ∈ numbered 0 ls) : r.IsOf ls := by
  obtain ⟨⟨l, i⟩, hl, rfl⟩ := List.mem_map.mp h
  exact List.mem_zipIdx_iff_getElem?.mp hl

/-- A path that is seen stands on its line behind what was read there. -/
def Sighting.IsOf (s : Sighting) (ls : List (List Char)) : Prop :=
  s.path.Valid ∧ ls[s.line]? = some (s.lead ++ s.path.before ++ s.path.written ++ s.path.after)

theorem isOf_onLine? (hr : r.IsOf ls) (h : onLine? r = some s) : s.IsOf ls := by
  obtain ⟨⟨head, rest⟩, hhead, hseen⟩ := Option.bind_eq_some_iff.mp h
  obtain ⟨p, hp, hseen⟩ := Option.bind_eq_some_iff.mp hseen
  obtain ⟨hvalid, hrest⟩ := quotedPath?_append hp
  have htext := afterImport?_append hhead
  rw [LineRest.IsOf, htext, hrest] at hr
  split at hseen
  · cases hseen
    exact ⟨hvalid, by simpa using hr⟩
  · cases hseen

theorem isOf_inBlock (hrs : ∀ r ∈ rs, r.IsOf ls) (h : s ∈ inBlock rs) : s.IsOf ls := by
  induction rs with
  | nil => cases h
  | cons r rs ih =>
    obtain ⟨hr, hrs⟩ := List.forall_mem_cons.mp hrs
    rw [inBlock] at h
    split at h
    · cases h
    · obtain h | h := List.mem_append.mp h
      · obtain ⟨p, hp, rfl⟩ := Option.map_eq_some_iff.mp (Option.mem_toList.mp h)
        obtain ⟨hvalid, htext⟩ := quotedPath?_append hp
        rw [LineRest.IsOf, htext] at hr
        exact ⟨hvalid, by simpa using hr⟩
      · split at h
        · cases h
        · exact ih hrs h

theorem isOf_opened? {first : LineRest} (hr : r.IsOf ls) (h : opened? r = some first) :
    first.IsOf ls := by
  obtain ⟨⟨head, rest⟩, hhead, hopened⟩ := Option.bind_eq_some_iff.mp h
  have htext := afterImport?_append hhead
  have hspaces := takeWhile_append_drop isSpace rest
  dsimp only at hopened
  split at hopened
  · next inside hinside =>
    cases hopened
    rw [hinside] at hspaces
    rw [LineRest.IsOf, htext, ← hspaces] at hr
    rw [LineRest.IsOf]
    simpa using hr
  · cases hopened

theorem isOf_inBlocks (hrs : ∀ r ∈ rs, r.IsOf ls) (h : s ∈ inBlocks rs) : s.IsOf ls := by
  induction rs with
  | nil => cases h
  | cons r rs ih =>
    obtain ⟨hr, hlater⟩ := List.forall_mem_cons.mp hrs
    obtain h | h := List.mem_append.mp h
    · cases hopened : opened? r with
      | none => simp [hopened] at h
      | some first =>
        rw [hopened] at h
        have hfirst := isOf_opened? hr hopened
        exact isOf_inBlock (List.forall_mem_cons.mpr ⟨hfirst, hlater⟩) h
    · exact ih hlater h

theorem isOf_of_mem_sightings (h : s ∈ sightings ls) : s.IsOf ls := by
  obtain h | h := List.mem_append.mp h
  · obtain ⟨r, hr, hseen⟩ := List.mem_filterMap.mp h
    exact isOf_onLine? (isOf_of_mem_numbered hr) hseen
  · exact isOf_inBlocks (fun r hr => isOf_of_mem_numbered hr) h

/-- The range of a path that is seen on a line of a text. -/
theorem rangeOf_found {text : String} (h : s.IsOf (pieces '\n' text.toList)) :
    (LineIndex.ofText text).rangeOf (s.found (lineOffset (pieces '\n' text.toList))).span =
      s.range := by
  obtain ⟨hvalid, hline⟩ := h
  have hrange := rangeOf_line hline
  simp only [byteLength_append, hvalid.byteLength_written, ← Nat.add_assoc] at hrange
  exact hrange

/-- **The packages of a Go source** are those whose paths are seen on its lines. -/
theorem go_eq (text : String) :
    go text = .ofMentions ((sightings (pieces '\n' text.toList)).map Sighting.mention) := by
  rw [go, placedLines, found_eq, List.map_map]
  congr 1
  refine List.map_congr_left fun s hs => ?_
  have hrange := rangeOf_found (isOf_of_mem_sightings hs)
  simp only [Function.comp_apply, Sighting.mention, hrange]
  rfl

/-- The text of lines with line feeds between them. -/
def textOf (ls : List (List Char)) : String :=
  String.ofList (joinWith ['\n'] ls)

/-- The packages of a Go source that is given by its lines. -/
theorem go_join (h : ∀ l ∈ ls, '\n' ∉ l) :
    go (textOf ls) = .ofMentions ((sightings ls).map Sighting.mention) := by
  rw [go_eq, textOf, String.toList_ofList]
  cases ls with
  | nil => rfl
  | cons l ls => rw [pieces_joinWith (by simp) h]

end DepScope.Scan
