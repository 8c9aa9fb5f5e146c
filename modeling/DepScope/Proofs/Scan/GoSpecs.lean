import DepScope.Proofs.Scan.GoLines

/-!
# DepScope.Proofs.Scan.GoSpecs

Lines of a Go source that hold a path in quotes.

1. Whether a path is read on such a line depends on what stands before its opening quote, which has to
   be blank or a name with blanks around it (`announces`), and on the path; never on what follows
   (`quotedPath?_quoted`).
2. The same goes for the keyword in front (`afterImport?_quoted`), so for what a line imports by itself
   (`onLine?_quoted`), and such a line opens no block (`opened?_quoted`).
3. The names that may stand before a path (`IsName`) have none of the characters that mean something on
   a line (`plain_of_named`).
-/

namespace DepScope.Scan

open Text Package

variable {u body v w cs : List Char} {q q' c : Char}

/-! ## Before a path -/

/-- The characters of a name before a path. -/
def isLabelChar (c : Char) : Bool :=
  !isBlank c && c != '(' && !isPathQuote c

/-- The characters of a path. -/
def isPathChar (c : Char) : Bool :=
  !isBlank c && !isPathQuote c

/-- May this stand before a path: spaces, or a name with spaces behind it? -/
def announces (u : List Char) : Bool :=
  let rest := u.dropWhile isSpace
  let gap := rest.dropWhile isLabelChar
  gap.all isSpace && ((rest.takeWhile isLabelChar).isEmpty == gap.isEmpty)

theorem isSpace_quote (h : isPathQuote q = true) : isSpace q = false := by
  simp only [isPathQuote, Bool.or_eq_true, decide_eq_true_eq] at h
  obtain rfl | rfl := h <;> decide

theorem isLabelChar_quote (h : isPathQuote q = true) : isLabelChar q = false := by
  simp [isLabelChar, h]

theorem isPathChar_quote (h : isPathQuote q = true) : isPathChar q = false := by
  simp [isPathChar, h]

theorem isBlank_of_isSpace (h : isSpace c = true) : isBlank c = true := by
  simp only [isSpace, Bool.or_eq_true, decide_eq_true_eq] at h
  obtain rfl | rfl := h <;> decide

theorem isLabelChar_of_isSpace (h : isSpace c = true) : isLabelChar c = false := by
  simp [isLabelChar, isBlank_of_isSpace h]

theorem announces_spaces (h : ∀ c ∈ u, isSpace c = true) : announces u = true := by
  have hnone : u.dropWhile isSpace = [] := List.dropWhile_eq_nil_iff.mpr h
  simp [announces, hnone]

/-- A name between spaces announces a path. -/
theorem announces_label {spaces label gap : List Char} (hspaces : ∀ c ∈ spaces, isSpace c = true)
    (hlabel : ∀ c ∈ label, isLabelChar c = true) (hgap : ∀ c ∈ gap, isSpace c = true)
    (hne : label ≠ []) (hne' : gap ≠ []) : announces (spaces ++ label ++ gap) = true := by
  obtain ⟨a, label, rfl⟩ := List.exists_cons_of_ne_nil hne
  obtain ⟨b, gap, rfl⟩ := List.exists_cons_of_ne_nil hne'
  have hfirst : isSpace a = false := by
    by_contra hspace
    have hnot := isLabelChar_of_isSpace (by simpa using hspace)
    rw [hlabel a List.mem_cons_self] at hnot
    cases hnot
  have hrest : (spaces ++ (a :: label) ++ b :: gap).dropWhile isSpace = (a :: label) ++ b :: gap := by
    rw [List.append_assoc, List.dropWhile_append_of_pos hspaces]
    simp [hfirst]
  have hstop := isLabelChar_of_isSpace (hgap b List.mem_cons_self)
  have htake : ((a :: label) ++ b :: gap).takeWhile isLabelChar = a :: label := by
    rw [takeWhile_append_stop hstop]
    exact List.takeWhile_eq_self_iff.mpr hlabel
  have hdrop : ((a :: label) ++ b :: gap).dropWhile isLabelChar = b :: gap := by
    rw [dropWhile_append_stop hstop, List.dropWhile_eq_nil_iff.mpr hlabel, List.nil_append]
  have hall : (b :: gap).all isSpace = true := List.all_eq_true.mpr hgap
  simp only [announces, hrest, htake, hdrop, hall]
  rfl

/-! ## Paths in quotes -/

/-- Where no quote is, no path is read. -/
theorem quotedPath?_of_unquoted (h : ∀ c ∈ cs, isPathQuote c = false) : quotedPath? cs = none := by
  cases hpath : quotedPath? cs with
  | none => rfl
  | some p =>
    obtain ⟨hvalid, rfl⟩ := quotedPath?_append hpath
    have hquote := h p.openQuote (by simp [QuotedPath.written])
    rw [hvalid.openQuote] at hquote
    cases hquote

/-- The path that starts where a line goes on after some part of it. -/
def pathAfter? (before : List Char) : List Char → Option QuotedPath
  | q :: more =>
    if isPathQuote q then
      match more.dropWhile isPathChar with
      | q' :: after =>
        if isPathQuote q' && !(more.takeWhile isPathChar).isEmpty then
          some ⟨before, q, more.takeWhile isPathChar, q', after⟩
        else none
      | [] => none
    else none
  | [] => none

theorem pathAfter?_of_other (hc : isPathQuote c = false) : pathAfter? u (c :: cs) = none := by
  simp [pathAfter?, hc]

/-- Between two quotes there is a path, unless there is a blank or nothing. -/
theorem pathAfter?_quoted (hq : isPathQuote q = true) (hbody : ∀ c ∈ body, isPathQuote c = false)
    (hq' : isPathQuote q' = true) :
    pathAfter? u (q :: (body ++ q' :: v)) =
      if !body.isEmpty && body.all (!isBlank ·) then some ⟨u, q, body, q', v⟩ else none := by
  have hclose := isPathChar_quote hq'
  simp only [pathAfter?, hq, if_true, takeWhile_append_stop hclose, dropWhile_append_stop hclose]
  by_cases hplain : ∀ c ∈ body, isBlank c = false
  · have hall : ∀ c ∈ body, isPathChar c = true := fun c hc => by
      simp [isPathChar, hplain c hc, hbody c hc]
    have hblanks : body.all (!isBlank ·) = true := List.all_eq_true.mpr fun c hc => by
      simp [hplain c hc]
    rw [List.takeWhile_eq_self_iff.mpr hall, List.dropWhile_eq_nil_iff.mpr hall]
    simp [hq', hblanks]
  · -- The path ends at the blank, which is not a quote.
    have hblanks : body.all (!isBlank ·) = false := by simpa using hplain
    obtain ⟨c, more, hmore⟩ : ∃ c more, body.dropWhile isPathChar = c :: more := by
      refine List.exists_cons_of_ne_nil fun hnone => hplain fun c hc => ?_
      have hchar := List.dropWhile_eq_nil_iff.mp hnone c hc
      simp only [isPathChar, Bool.and_eq_true, Bool.not_eq_true'] at hchar
      exact hchar.1
    have hmem : c ∈ body := (List.dropWhile_suffix isPathChar).mem (by rw [hmore]; simp)
    simp [hmore, hbody c hmem, hblanks]

/-- A path is looked for after spaces, a name and spaces. -/
theorem quotedPath?_eq {line spaces label gap : List Char}
    (hspaces : line.takeWhile isSpace = spaces)
    (hlabel : (line.dropWhile isSpace).takeWhile isLabelChar = label)
    (hgap : ((line.dropWhile isSpace).dropWhile isLabelChar).takeWhile isSpace = gap) :
    quotedPath? line =
      if !label.isEmpty && gap.isEmpty then none
      else pathAfter? (spaces ++ label ++ gap) (line.drop (spaces ++ label ++ gap).length) := by
  subst hspaces hlabel hgap
  simp only [← drop_takeWhile]
  rw [quotedPath?]
  simp only [pathAfter?, ← drop_takeWhile]
  rfl

/-- A parenthesis does not announce a path. -/
theorem quotedPath?_parenthesis (hu : ∀ c ∈ u, isSpace c = true) (w : List Char) :
    quotedPath? (u ++ '(' :: w) = none := by
  have hstop : isSpace '(' = false := by decide
  have hlabel : isLabelChar '(' = false := by decide
  have hrest : (u ++ '(' :: w).dropWhile isSpace = '(' :: w := by
    rw [dropWhile_append_stop hstop, List.dropWhile_eq_nil_iff.mpr hu, List.nil_append]
  have hspaces : (u ++ '(' :: w).takeWhile isSpace = u := by
    rw [takeWhile_append_stop hstop, List.takeWhile_eq_self_iff.mpr hu]
  have hname : ((u ++ '(' :: w).dropWhile isSpace).takeWhile isLabelChar = [] := by
    simp [hrest, hlabel]
  have hgap : (((u ++ '(' :: w).dropWhile isSpace).dropWhile isLabelChar).takeWhile isSpace = [] := by
    simp [hrest, hlabel, hstop]
  rw [quotedPath?_eq hspaces hname hgap]
  simp [pathAfter?, isPathQuote]

/-- Without a name there is no second run of spaces. -/
theorem gap_of_no_label (h : (u.dropWhile isSpace).takeWhile isLabelChar = [])
    (hall : ∀ c ∈ (u.dropWhile isSpace).dropWhile isLabelChar, isSpace c = true) :
    (u.dropWhile isSpace).dropWhile isLabelChar = [] := by
  have hsame := List.takeWhile_append_dropWhile (p := isLabelChar) (l := u.dropWhile isSpace)
  rw [h, List.nil_append] at hsame
  rw [hsame] at hall ⊢
  rw [← List.dropWhile_idempotent, List.dropWhile_eq_nil_iff]
  exact hall

/-- **A line with a path in quotes.** Whether the path is read, and as what, can be told from what stands
before it and from the path. -/
theorem quotedPath?_quoted (hu : ∀ c ∈ u, isPathQuote c = false) (hq : isPathQuote q = true)
    (hbody : ∀ c ∈ body, isPathQuote c = false) (hq' : isPathQuote q' = true) :
    quotedPath? (u ++ q :: (body ++ q' :: v)) =
      if announces u && (!body.isEmpty && body.all (!isBlank ·)) then some ⟨u, q, body, q', v⟩
      else none := by
  -- The name and the spaces around it end at the opening quote at the latest.
  have hrest := dropWhile_append_stop (isSpace_quote hq) u (body ++ q' :: v)
  have hafter := dropWhile_append_stop (isLabelChar_quote hq) (u.dropWhile isSpace) (body ++ q' :: v)
  have hspaces := takeWhile_append_stop (isSpace_quote hq) u (body ++ q' :: v)
  have hname := takeWhile_append_stop (isLabelChar_quote hq) (u.dropWhile isSpace) (body ++ q' :: v)
  have hgap := takeWhile_append_stop (isSpace_quote hq)
    ((u.dropWhile isSpace).dropWhile isLabelChar) (body ++ q' :: v)
  have hcut : u.takeWhile isSpace ++ (u.dropWhile isSpace).takeWhile isLabelChar ++
      (u.dropWhile isSpace).dropWhile isLabelChar = u := by
    simp only [List.append_assoc, List.takeWhile_append_dropWhile]
  rw [← hrest] at hname hafter
  rw [← hafter] at hgap
  rw [quotedPath?_eq hspaces hname hgap, announces]
  have hnone := gap_of_no_label (u := u)
  generalize u.takeWhile isSpace = spaces at hcut ⊢
  generalize (u.dropWhile isSpace).takeWhile isLabelChar = label at hcut hnone ⊢
  generalize (u.dropWhile isSpace).dropWhile isLabelChar = gap at hcut hnone ⊢
  by_cases hall : ∀ c ∈ gap, isSpace c = true
  · have hspaces : gap.all isSpace = true := List.all_eq_true.mpr hall
    rw [List.takeWhile_eq_self_iff.mpr hall, hcut, List.drop_left, pathAfter?_quoted hq hbody hq',
      hspaces]
    cases label with
    | nil => simp [hnone rfl hall]
    | cons a label => cases gap <;> simp
  · have hspaces : gap.all isSpace = false := by simpa using hall
    obtain ⟨c, more, hmore⟩ : ∃ c more, gap.dropWhile isSpace = c :: more :=
      List.exists_cons_of_ne_nil fun hnil => hall (List.dropWhile_eq_nil_iff.mp hnil)
    have hu' : u = spaces ++ label ++ gap.takeWhile isSpace ++ c :: more := by
      rw [← hmore, List.append_assoc _ _ (gap.dropWhile isSpace), List.takeWhile_append_dropWhile,
        hcut]
    have hline : (u ++ q :: (body ++ q' :: v)).drop
        (spaces ++ label ++ gap.takeWhile isSpace).length = c :: (more ++ q :: (body ++ q' :: v)) := by
      rw [hu', List.append_assoc _ (c :: more), List.drop_left, List.cons_append]
    have hc : isPathQuote c = false := hu c (by rw [hu']; simp)
    rw [hline, pathAfter?_of_other hc, hspaces]
    simp

/-! ## The keyword -/

/-- A line that begins otherwise does not have the keyword. -/
theorem afterImport?_of_head {line : List Char} (h : (trimStart line).head? ≠ some 'i') :
    afterImport? line = none := by
  cases hafter : afterImport? line with
  | none => rfl
  | some x =>
    obtain ⟨rest, hrest, -⟩ := Option.map_eq_some_iff.mp hafter
    rw [drop_takeWhile, afterPrefix?_eq_some_iff] at hrest
    have hspaces : ∀ c ∈ line.takeWhile isSpace, isBlank c = true :=
      fun c hc => isBlank_of_isSpace (List.mem_takeWhile_imp hc)
    have hblank : isBlank 'i' = false := by decide
    refine absurd ?_ h
    rw [trimStart, ← List.takeWhile_append_dropWhile (p := isSpace) (l := line),
      List.dropWhile_append_of_pos hspaces, hrest]
    simp [hblank]

theorem onLine?_of_head (h : (trimStart cs).head? ≠ some 'i') (n : Nat) (lead : List Char) :
    onLine? ⟨n, lead, cs⟩ = none := by
  simp [onLine?, afterImport?_of_head h]

theorem opened?_of_head (h : (trimStart cs).head? ≠ some 'i') (n : Nat) (lead : List Char) :
    opened? ⟨n, lead, cs⟩ = none := by
  simp [opened?, afterImport?_of_head h]

/-- The keyword behind spaces. -/
theorem afterImport?_keyword (hu : ∀ c ∈ u, isSpace c = true) (w : List Char) :
    afterImport? (u ++ "import".toList ++ w) = some (u ++ "import".toList, w) := by
  have hkeyword : "import".toList ++ w = 'i' :: ("mport".toList ++ w) := rfl
  have hstop : isSpace 'i' = false := by decide
  simp only [afterImport?, drop_takeWhile]
  rw [List.append_assoc, hkeyword, takeWhile_append_stop hstop, dropWhile_append_stop hstop,
    List.takeWhile_eq_self_iff.mpr hu, List.dropWhile_eq_nil_iff.mpr hu, List.nil_append,
    ← hkeyword, afterPrefix?_eq_some_iff.mpr rfl, Option.map_some]

/-- The keyword ends before a quote. -/
theorem afterImport?_quoted (hq : isPathQuote q = true) :
    afterImport? (u ++ q :: w) = (afterImport? u).map fun x => (x.1, x.2 ++ q :: w) := by
  have hkeyword : q ∉ "import".toList := by
    simp only [isPathQuote, Bool.or_eq_true, decide_eq_true_eq] at hq
    obtain rfl | rfl := hq <;> decide
  have hspace := isSpace_quote hq
  simp only [afterImport?, drop_takeWhile]
  rw [takeWhile_append_stop hspace, dropWhile_append_stop hspace, afterPrefix?_append_stop hkeyword,
    Option.map_map, Option.map_map]
  rfl

/-- **What a line with a path in quotes imports by itself** depends on what follows the path only by
whether a line may end so. -/
theorem onLine?_quoted (hu : ∀ c ∈ u, isPathQuote c = false) (hq : isPathQuote q = true)
    (hbody : ∀ c ∈ body, isPathQuote c = false) (hq' : isPathQuote q' = true) (n : Nat)
    (lead : List Char) :
    onLine? ⟨n, lead, u ++ q :: (body ++ q' :: v)⟩ =
      (afterImport? u).bind fun x =>
        if (announces x.2 && (!body.isEmpty && body.all (!isBlank ·))) && endsImport v then
          some ⟨n, lead ++ x.1, ⟨x.2, q, body, q', v⟩⟩
        else none := by
  rw [onLine?, afterImport?_quoted hq]
  cases hafter : afterImport? u with
  | none => rfl
  | some x =>
    obtain ⟨head, rest⟩ := x
    have hrest : ∀ c ∈ rest, isPathQuote c = false := fun c hc =>
      hu c (by rw [afterImport?_append hafter]; simp [hc])
    simp only [Option.map_some, Option.bind_eq_bind, Option.bind_some,
      quotedPath?_quoted hrest hq hbody hq']
    cases announces rest && (!body.isEmpty && body.all (!isBlank ·)) with
    | false => rfl
    | true => rfl

/-- A block is not opened behind a quote. -/
theorem opened?_quoted (hu : '(' ∉ u) (hq : isPathQuote q = true) (n : Nat) (lead : List Char) :
    opened? ⟨n, lead, u ++ q :: w⟩ = none := by
  have hparen : q ≠ '(' := by
    rintro rfl
    cases hq
  simp only [opened?, afterImport?_quoted hq]
  cases hafter : afterImport? u with
  | none => rfl
  | some x =>
    obtain ⟨head, rest⟩ := x
    have hrest : '(' ∉ rest := fun hmem =>
      hu (by rw [afterImport?_append hafter]; exact List.mem_append_right _ hmem)
    simp only [Option.map_some, Option.bind_eq_bind, Option.bind_some, drop_takeWhile,
      dropWhile_append_stop (isSpace_quote hq)]
    cases hmore : rest.dropWhile isSpace with
    | nil => simp [hparen]
    | cons c more =>
      have hmem : c ∈ rest := (List.dropWhile_suffix isSpace).mem (by rw [hmore]; simp)
      have hc : c ≠ '(' := fun heq => hrest (heq ▸ hmem)
      simp [hc]

/-! ## Names -/

/-- The characters of identifiers: letters, digits and the underscore, those beyond ASCII included. -/
def isNameChar (c : Char) : Bool :=
  isAsciiAlnum c || c = '_' || (127 < c.toNat && !isBlank c)

/-- What may stand before a path: an identifier or a dot. -/
def IsName (a : List Char) : Prop :=
  a = ['.'] ∨ a ≠ [] ∧ a.all isNameChar = true

instance (a : List Char) : Decidable (IsName a) :=
  inferInstanceAs (Decidable (_ ∨ _))

theorem isBlank_of_isNameChar (h : isNameChar c = true) : isBlank c = false := by
  simp only [isNameChar, Bool.or_eq_true, Bool.and_eq_true, decide_eq_true_eq,
    Bool.not_eq_true'] at h
  obtain (h | rfl) | ⟨-, h⟩ := h
  · exact isBlank_of_isAsciiAlnum h
  · decide
  · exact h

/-- The characters of a name, if there is one, have no meaning of their own on a line. -/
theorem plain_of_named {a : List Char} (h : a = [] ∨ IsName a) (hc : c ∈ a) :
    isLabelChar c = true ∧ c ≠ ')' ∧ c ≠ '\n' := by
  obtain rfl | rfl | ⟨-, hall⟩ := h
  · cases hc
  · obtain rfl := List.mem_singleton.mp hc
    decide
  · have hname := List.all_eq_true.mp hall c hc
    have hother {d : Char} (hd : isNameChar d = false) : c ≠ d := by
      rintro rfl
      rw [hname] at hd
      cases hd
    have hopen : c ≠ '(' := hother (by decide)
    have hdouble : c ≠ '"' := hother (by decide)
    have hraw : c ≠ '\x60' := hother (by decide)
    refine ⟨?_, hother (by decide), hother (by decide)⟩
    simp [isLabelChar, isPathQuote, isBlank_of_isNameChar hname, hopen, hdouble, hraw]

end DepScope.Scan
