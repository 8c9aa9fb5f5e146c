import DepScope.Proofs.Scan.GoBlocks

/-!
# DepScope.Proofs.Scan.GoForms

The two forms of an import, on a line of its own and in a block.

1. Behind the keyword every import is seen, once (`packages_single`).
2. In a block every import is seen as well, but a name that begins like the keyword makes its line look
   like an import by itself, which is seen a second time (`packages_block`).
3. So the two forms are scanned alike exactly if there is no such name
   (`scannedAlike_iff_no_keyword_start`).
-/

namespace DepScope.Scan

open Text Package

/-! ## Imports -/

/-- Characters that are not blanks, quotes or escapes. -/
def ArePlain (cs : List Char) : Prop :=
  ∀ c ∈ cs, isBlank c = false ∧ isPathQuote c = false ∧ c ≠ '\\'

instance (cs : List Char) : Decidable (ArePlain cs) :=
  List.decidableBAll _ cs

/-- An import: a path to be put in plain quotes, perhaps with a name for it. -/
structure ImportSpec where
  name : List Char
  path : List Char
  named : name = [] ∨ IsName name
  name_ne_keyword : name ≠ "import".toList
  path_ne_nil : path ≠ []
  plain : ArePlain path

namespace ImportSpec

variable (s : ImportSpec)

/-- What parts a name from the path. -/
def gap : List Char :=
  if s.name.isEmpty then [] else [' ']

/-- An import as it is written behind the keyword or on a line of a block. -/
def text : List Char :=
  s.name ++ s.gap ++ '"' :: (s.path ++ ['"'])

/-- The identifier of the imported package, and whether it belongs to the runtime. -/
def package : Purl × Bool :=
  (.ofName .golang (String.ofList s.path), Ecosystem.golang.isBuiltin (String.ofList s.path))

end ImportSpec

variable {indent : List Char} {specs : List ImportSpec}

/-- Imports on lines of their own. -/
def singleLines (specs : List ImportSpec) : List (List Char) :=
  specs.map (fun s => "import ".toList ++ s.text) ++ [[]]

/-- Imports in a block, one on each line. -/
def blockLines (indent : List Char) (specs : List ImportSpec) : List (List Char) :=
  "import (".toList :: specs.map (fun s => indent ++ s.text) ++ [")".toList, []]

/-! ## Paths -/

/-- A text without escapes stands for itself, if for anything. -/
theorem eq_of_readBody {cs text : List Char} {fuel : Nat} (hcs : ∀ c ∈ cs, c ≠ '\\')
    (h : Json.readBody fuel cs = some text) : text = cs := by
  induction cs generalizing fuel text with
  | nil =>
    cases fuel <;> simpa [Json.readBody, eq_comm] using h
  | cons c cs ih =>
    obtain ⟨hc, hcs⟩ := List.forall_mem_cons.mp hcs
    cases fuel with
    | zero => simp [Json.readBody] at h
    | succ fuel =>
      simp only [Json.readBody, if_neg hc] at h
      split at h
      · cases h
      · obtain ⟨rest, hrest, hcons⟩ := Option.bind_eq_some_iff.mp h
        rw [ih hcs hrest] at hcons
        exact (Option.some.inj hcons).symm

namespace ImportSpec

variable (s : ImportSpec)

/-- The package of a path that is seen. -/
theorem package_sighting (n : Nat) (lead before after : List Char) :
    ((Sighting.mk n lead ⟨before, '"', s.path, '"', after⟩).mention.purl,
      (Sighting.mk n lead ⟨before, '"', s.path, '"', after⟩).mention.builtin) = s.package := by
  have hdecoded : QuotedPath.decoded ⟨before, '"', s.path, '"', after⟩ = s.path := by
    simp only [QuotedPath.decoded, Json.decodeBody?]
    cases hread : Json.readBody s.path.length s.path with
    | none => rfl
    | some text =>
      obtain rfl := eq_of_readBody (fun c hc => (s.plain c hc).2.2) hread
      simp
  simp only [Sighting.mention, hdecoded]
  rfl

theorem gap_spaces : ∀ c ∈ s.gap, isSpace c = true := by
  intro c hc
  rw [gap] at hc
  split at hc
  · cases hc
  · obtain rfl := List.mem_singleton.mp hc
    decide

/-- What is left of a name still announces the path. -/
theorem announces_before {lead rest : List Char} (hlead : ∀ c ∈ lead, isSpace c = true)
    (hrest : rest <:+ s.name) : announces (lead ++ rest ++ s.gap) = true := by
  by_cases hnil : rest = []
  · refine announces_spaces fun c hc => ?_
    rw [hnil, List.append_nil] at hc
    exact (List.mem_append.mp hc).elim (hlead c) (s.gap_spaces c)
  · have hname : s.name ≠ [] := fun h => hnil (List.suffix_nil.mp (h ▸ hrest))
    have hgap : s.gap ≠ [] := by simp [gap, hname]
    have hlabel : ∀ c ∈ rest, isLabelChar c = true :=
      fun c hc => (plain_of_named s.named (hrest.mem hc)).1
    exact announces_label hlead hlabel s.gap_spaces hnil hgap

theorem gap_blanks : AreBlanks s.gap :=
  areBlanks_of_isSpace s.gap_spaces

theorem unquoted : AreUnquoted s.path := by
  intro c hc
  obtain ⟨hblank, hquote, -⟩ := s.plain c hc
  refine ⟨hquote, ?_⟩
  rintro rfl
  cases hblank

theorem isPathQuote_double : isPathQuote '"' = true := by decide

/-- An import behind spaces, as a spec of its line. -/
def spec (lead : List Char) (hlead : ∀ c ∈ lead, isSpace c = true) : Spec where
  lead := lead
  name := s.name
  gap := s.gap
  quote := '"'
  path := s.path
  trail := []
  lead_blanks := areBlanks_of_isSpace hlead
  named := s.named
  gap_blanks := s.gap_blanks
  quoted := isPathQuote_double
  plain := s.unquoted
  trail_blanks := areBlanks_nil

variable {lead : List Char}

theorem spec_text (hlead : ∀ c ∈ lead, isSpace c = true) :
    (s.spec lead hlead).text = lead ++ s.text := by
  simp [Spec.text, Spec.before, spec, text]

theorem isRead_spec (hlead : ∀ c ∈ lead, isSpace c = true) :
    (s.spec lead hlead).isRead = true := by
  have hbefore : announces (s.spec lead hlead).before = true :=
    s.announces_before hlead (List.suffix_refl _)
  have hpath : s.path.all (!isBlank ·) = true :=
    List.all_eq_true.mpr fun c hc => by simp [(s.plain c hc).1]
  have hne : s.path.isEmpty = false := by simpa using s.path_ne_nil
  rw [Spec.isRead, hbefore]
  simp only [spec, hpath, hne]
  rfl

/-- An import behind spaces is read. -/
theorem quotedPath?_text (hlead : ∀ c ∈ lead, isSpace c = true) :
    quotedPath? (lead ++ s.text) = some ⟨lead ++ s.name ++ s.gap, '"', s.path, '"', []⟩ := by
  have hread := (s.spec lead hlead).quotedPath?_eq []
  rw [s.isRead_spec, List.append_nil, s.spec_text] at hread
  exact hread

/-- An import behind the keyword is seen. -/
theorem onLine?_single (n : Nat) :
    onLine? ⟨n, [], "import ".toList ++ s.text⟩ =
      some ⟨n, "import".toList, ⟨[' '] ++ s.name ++ s.gap, '"', s.path, '"', []⟩⟩ := by
  have hline : "import ".toList ++ s.text = [] ++ "import".toList ++ ([' '] ++ s.text) := rfl
  rw [onLine?, hline, afterImport?_keyword (by simp)]
  simp only [Option.bind_eq_bind, Option.bind_some, s.quotedPath?_text isSpace_of_mem_space]
  rfl

theorem opened?_single (n : Nat) : opened? ⟨n, [], "import ".toList ++ s.text⟩ = none := by
  have hline : "import ".toList ++ s.text =
      "import".toList ++ (s.spec [' '] isSpace_of_mem_space).before ++ '"' :: (s.path ++ ['"']) := by
    rw [List.append_assoc]
    exact congrArg ("import".toList ++ ·) (s.spec_text isSpace_of_mem_space).symm
  have hbefore := (s.spec [' '] isSpace_of_mem_space).parenthesis_notMem_before
  have hkeyword : '(' ∉ "import".toList := by decide
  rw [hline]
  exact opened?_quoted (by simp only [List.mem_append, hkeyword, hbefore, or_self, not_false_eq_true])
    (by decide) n []

/-- What follows the keyword on a line that begins with a name. -/
theorem afterImport?_before (hlead : ∀ c ∈ lead, isSpace c = true) :
    afterImport? (lead ++ s.name ++ s.gap) =
      (afterPrefix? "import".toList s.name).map fun rest =>
        (lead ++ "import".toList, rest ++ s.gap) := by
  cases hname : s.name with
  | nil =>
    have hgap : s.gap = [] := by simp [gap, hname]
    have hblanks := (areBlanks_of_isSpace hlead).trimStart_eq
    rw [hgap, List.append_nil, List.append_nil, afterImport?_of_head (by simp [hblanks])]
    rfl
  | cons a name =>
    have hgap : s.gap = [' '] := by simp [gap, hname]
    have hlabel := (plain_of_named s.named (c := a) (by simp [hname])).1
    have hstop : isSpace a = false := by
      by_contra hspace
      rw [isLabelChar_of_isSpace (by simpa using hspace)] at hlabel
      cases hlabel
    have hkeyword : ' ' ∉ "import".toList := by decide
    simp only [afterImport?, drop_takeWhile]
    rw [hgap, List.append_assoc, List.cons_append, takeWhile_append_stop hstop,
      dropWhile_append_stop hstop, List.takeWhile_eq_self_iff.mpr hlead,
      List.dropWhile_eq_nil_iff.mpr hlead, List.nil_append, ← List.cons_append,
      afterPrefix?_append_stop hkeyword, Option.map_map]
    rfl

/-- An import on a line of a block is seen on the line itself if its name begins like the keyword. -/
theorem onLine?_block (hlead : ∀ c ∈ lead, isSpace c = true) (n : Nat) :
    onLine? ⟨n, [], lead ++ s.text⟩ =
      (afterPrefix? "import".toList s.name).map fun rest =>
        ⟨n, lead ++ "import".toList, ⟨rest ++ s.gap, '"', s.path, '"', []⟩⟩ := by
  have hline : lead ++ s.text = lead ++ s.name ++ s.gap ++ '"' :: (s.path ++ '"' :: []) := by
    simp [text]
  have hpath : (!s.path.isEmpty && s.path.all (!isBlank ·)) = true := by
    have hread := s.isRead_spec hlead
    exact (Bool.and_eq_true_iff.mp hread).2
  have hbefore : ∀ c ∈ lead ++ s.name ++ s.gap, isPathQuote c = false :=
    (s.spec lead hlead).before_unquoted
  rw [hline, onLine?_quoted hbefore (by decide) (fun c hc => (s.plain c hc).2.1) (by decide),
    s.afterImport?_before hlead, hpath]
  cases hrest : afterPrefix? "import".toList s.name with
  | none => rfl
  | some rest =>
    have hsuffix : rest <:+ s.name := ⟨_, (afterPrefix?_eq_some_iff.mp hrest).symm⟩
    have hannounces : announces (rest ++ s.gap) = true :=
      s.announces_before (List.forall_mem_nil _) hsuffix
    simp only [Option.map_some, Option.bind_some, hannounces]
    rfl

end ImportSpec

/-! ## Lines of their own -/

/-- The packages of the paths that are seen. -/
def packagesOf (ss : List Sighting) : List (Purl × Bool) :=
  ss.map fun s => (s.mention.purl, s.mention.builtin)

theorem packagesOf_append (ss ss' : List Sighting) :
    packagesOf (ss ++ ss') = packagesOf ss ++ packagesOf ss' :=
  List.map_append

/-- **On lines of their own** every import is seen, once. -/
theorem packages_single (specs : List ImportSpec) :
    packagesOf (sightings (singleLines specs)) = specs.map ImportSpec.package := by
  have hseen (i : Nat) : packagesOf ((numbered i (singleLines specs)).filterMap onLine?) =
      specs.map ImportSpec.package := by
    induction specs generalizing i with
    | nil => rfl
    | cons s specs ih =>
      have hlines : numbered i (singleLines (s :: specs)) =
          ⟨i, [], "import ".toList ++ s.text⟩ :: numbered (i + 1) (singleLines specs) := rfl
      rw [hlines, List.filterMap_cons_some (s.onLine?_single i), List.map_cons, ← ih (i + 1),
        ← s.package_sighting i]
      rfl
  have hunopened : ∀ l ∈ singleLines specs, ∀ n, opened? ⟨n, [], l⟩ = none := by
    intro l hl n
    obtain hl | hl := List.mem_append.mp hl
    · obtain ⟨s, -, rfl⟩ := List.mem_map.mp hl
      exact s.opened?_single n
    · obtain rfl := List.mem_singleton.mp hl
      rfl
  have hblocks := inBlocks_unopened hunopened 0 []
  rw [List.append_nil, inBlocks] at hblocks
  rw [sightings, hblocks, List.append_nil, hseen]

/-! ## Blocks -/

/-- The block that holds some imports. -/
def importBlock (indent : List Char) (hindent : ∀ c ∈ indent, isSpace c = true)
    (specs : List ImportSpec) : Block where
  indent := []
  gap := [' ']
  body := ⟨.blank [] areBlanks_nil, none⟩ ::
    specs.map fun s => ⟨.spec (s.spec indent hindent), none⟩
  closing := .alone [] [] areBlanks_nil feed_notMem_nil
  indent_spaces := isSpace_of_mem_nil
  gap_spaces := isSpace_of_mem_space

theorem lines_importBlock (hindent : ∀ c ∈ indent, isSpace c = true) (specs : List ImportSpec) :
    (importBlock indent hindent specs).lines ++ [[]] = blockLines indent specs := by
  have htext : (BlockLine.text ∘ fun s => ⟨.spec (s.spec indent hindent), none⟩) =
      fun s : ImportSpec => indent ++ s.text := by
    funext s
    simp [BlockLine.text, Code.text, s.spec_text]
  simp only [Block.lines, importBlock, inside, List.map_cons, List.map_map, htext]
  simp [blockLines, Block.opening, BlockLine.text, Code.text, Closing.text]

/-- What a block shows of its imports. -/
theorem packages_seenFrom (hindent : ∀ c ∈ indent, isSpace c = true) (specs : List ImportSpec)
    (i : Nat) :
    packagesOf (seenFrom (.alone [] [] areBlanks_nil feed_notMem_nil) i []
      (specs.map fun s => ⟨.spec (s.spec indent hindent), none⟩)) =
      specs.map ImportSpec.package := by
  induction specs generalizing i with
  | nil => rfl
  | cons s specs ih =>
    have htext : (BlockLine.mk (.spec (s.spec indent hindent)) none).text = indent ++ s.text := by
      simp [BlockLine.text, Code.text, s.spec_text]
    have hlater := ih (i + 1)
    rw [List.map_cons, List.map_cons, seenFrom, htext, s.quotedPath?_text hindent,
      packagesOf_append, ← hlater, ← s.package_sighting i]
    rfl

/-- **In a block** every import is seen, after those whose names begin like the keyword. -/
theorem packages_block (hindent : ∀ c ∈ indent, isSpace c = true) (specs : List ImportSpec) :
    packagesOf (sightings (blockLines indent specs)) =
      (specs.filter fun s => hasPrefix "import".toList s.name).map ImportSpec.package ++
        specs.map ImportSpec.package := by
  have hseen (i : Nat) : packagesOf ((numbered i (specs.map (fun s => indent ++ s.text) ++
      [")".toList, []])).filterMap onLine?) =
      (specs.filter fun s => hasPrefix "import".toList s.name).map ImportSpec.package := by
    induction specs generalizing i with
    | nil => rfl
    | cons s specs ih =>
      have hline := s.onLine?_block hindent i
      rw [List.map_cons, List.cons_append, numbered_cons, List.filter_cons, hasPrefix]
      cases hstart : afterPrefix? "import".toList s.name with
      | none =>
        rw [hstart] at hline
        rw [List.filterMap_cons_none hline]
        exact ih (i + 1)
      | some rest =>
        rw [hstart] at hline
        rw [List.filterMap_cons_some hline, Option.isSome_some, if_pos rfl, List.map_cons,
          ← ih (i + 1), ← s.package_sighting i]
        rfl
  have hblock : packagesOf (inBlocks (numbered 0 (blockLines indent specs))) =
      specs.map ImportSpec.package := by
    rw [← lines_importBlock hindent, numbered_append, Block.inBlocks_block, packagesOf_append]
    exact (List.append_nil _).trans (packages_seenFrom hindent specs 1)
  have hopening : onLine? ⟨0, [], "import (".toList⟩ = none := rfl
  rw [sightings, packagesOf_append, hblock, blockLines, List.cons_append, numbered_cons,
    List.filterMap_cons_none hopening, hseen]

/-! ## Both forms -/

/-- Does every identifier have a range for each import of it? -/
def Once (specs : List ImportSpec) (rs : References) : Prop :=
  ∀ p, (rs.rangesOf p).length = specs.countP fun s => decide (s.package.1 = p)

/-- Imports on lines of their own and in a block bring the same identifiers in the same order, with the
same flags and as many ranges, one for each import. -/
structure ScannedAlike (indent : List Char) (specs : List ImportSpec) : Prop where
  outline_eq : (go (textOf (singleLines specs))).outline =
    (go (textOf (blockLines indent specs))).outline
  single : Once specs (go (textOf (singleLines specs)))
  block : Once specs (go (textOf (blockLines indent specs)))

theorem feed_notMem_single (specs : List ImportSpec) : ∀ l ∈ singleLines specs, '\n' ∉ l := by
  intro l hl
  obtain hl | hl := List.mem_append.mp hl
  · obtain ⟨s, -, rfl⟩ := List.mem_map.mp hl
    have htext := (s.spec [] (by simp)).feed_notMem_text
    rw [s.spec_text, List.nil_append] at htext
    have hkeyword : '\n' ∉ "import ".toList := by decide
    simp only [List.mem_append, hkeyword, htext, or_self, not_false_eq_true]
  · obtain rfl := List.mem_singleton.mp hl
    simp

theorem feed_notMem_block (hindent : ∀ c ∈ indent, isSpace c = true) (specs : List ImportSpec) :
    ∀ l ∈ blockLines indent specs, '\n' ∉ l := by
  intro l hl
  rw [← lines_importBlock hindent] at hl
  obtain hl | hl := List.mem_append.mp hl
  · exact (importBlock indent hindent specs).feed_notMem_lines l hl
  · obtain rfl := List.mem_singleton.mp hl
    simp

/-- How often an identifier is mentioned, from the packages that are seen. -/
theorem length_rangesOf {ls : List (List Char)} {ps : List (Purl × Bool)}
    (hls : ∀ l ∈ ls, '\n' ∉ l) (h : packagesOf (sightings ls) = ps) (p : Purl) :
    ((go (textOf ls)).rangesOf p).length = ps.countP fun x => decide (x.1 = p) := by
  rw [go_join hls, References.rangesOf_ofMentions, List.length_map, ← List.countP_eq_length_filter,
    List.countP_map, ← h, packagesOf, List.countP_map]
  rfl

theorem once_single (specs : List ImportSpec) : Once specs (go (textOf (singleLines specs))) := by
  intro p
  rw [length_rangesOf (feed_notMem_single specs) (packages_single specs), List.countP_map]
  rfl

/-- In a block the imports whose names begin like the keyword count twice. -/
theorem length_rangesOf_block (hindent : ∀ c ∈ indent, isSpace c = true) (specs : List ImportSpec)
    (p : Purl) :
    ((go (textOf (blockLines indent specs))).rangesOf p).length =
      (specs.filter fun s => hasPrefix "import".toList s.name).countP
        (fun s => decide (s.package.1 = p)) + specs.countP fun s => decide (s.package.1 = p) := by
  rw [length_rangesOf (feed_notMem_block hindent specs) (packages_block hindent specs),
    List.countP_append, List.countP_map, List.countP_map]
  rfl

/-- Without names that begin like the keyword the two forms are scanned alike. -/
theorem scannedAlike_of_filter_nil (hindent : ∀ c ∈ indent, isSpace c = true)
    (h : (specs.filter fun s => hasPrefix "import".toList s.name) = []) :
    ScannedAlike indent specs where
  outline_eq := by
    have hpackages := packages_block hindent specs
    rw [h, List.map_nil, List.nil_append, ← packages_single specs] at hpackages
    rw [go_join (feed_notMem_single specs), go_join (feed_notMem_block hindent specs)]
    refine References.outline_ofMentions ?_
    rw [List.map_map, List.map_map]
    exact hpackages.symm
  single := once_single specs
  block := by
    intro p
    rw [length_rangesOf_block hindent, h, List.countP_nil, Nat.zero_add]

/-- **Single lines and blocks.** Imports are scanned alike in both forms, each once, exactly if none has
a name that begins like the keyword. -/
theorem scannedAlike_iff_no_keyword_start (hindent : ∀ c ∈ indent, isSpace c = true)
    (specs : List ImportSpec) :
    ScannedAlike indent specs ↔ ∀ s ∈ specs, ¬ "import".toList <+: s.name := by
  constructor
  · intro halike s hs hstart
    -- The identifier of such an import has a range too many in the block.
    have hcount := halike.block s.package.1
    rw [length_rangesOf_block hindent] at hcount
    have hzero : (specs.filter fun s => hasPrefix "import".toList s.name).countP
        (fun t => decide (t.package.1 = s.package.1)) = 0 := by omega
    have hmem : s ∈ specs.filter fun s => hasPrefix "import".toList s.name :=
      List.mem_filter.mpr ⟨hs, hasPrefix_iff.mpr hstart⟩
    exact List.countP_eq_zero.mp hzero s hmem (by simp)
  · intro hnone
    refine scannedAlike_of_filter_nil hindent (List.filter_eq_nil_iff.mpr fun s hs => ?_)
    rw [hasPrefix_iff]
    exact hnone s hs

theorem scannedAlike_of_log :
    (∀ c ∈ ['\t'], isSpace c = true) ∧
      ScannedAlike ['\t']
        [⟨[], "fmt".toList, by decide, by decide, by decide, by decide⟩,
          ⟨"log".toList, "github.com/sirupsen/logrus".toList, by decide, by decide, by decide,
            by decide⟩,
          ⟨['.'], "fmt".toList, by decide, by decide, by decide, by decide⟩] :=
  ⟨by simp [isSpace], (scannedAlike_iff_no_keyword_start (by simp [isSpace]) _).mpr (by decide)⟩

/-- The name `imports` makes a second import of its line. -/
theorem not_scannedAlike_of_imports :
    ¬ ScannedAlike ['\t'] [⟨"imports".toList, "golang.org/x/tools/imports".toList, by decide,
      by decide, by decide, by decide⟩] := by
  intro halike
  have hcount := halike.block (.ofName .golang "golang.org/x/tools/imports")
  rw [length_rangesOf_block (by simp [isSpace])] at hcount
  revert hcount
  decide

end DepScope.Scan
