import DepScope.Proofs.Package.Purl
import DepScope.Proofs.Text.Escapes
import DepScope.Proofs.Text.Units
import DepScope.Toml.Quoted

/-!
# DepScope.Proofs.Toml.Written

The text of a string literal, against all the ways to write it.

1. A character is written as it is or with one of its escapes (`Spells`), and a body is a sequence
   of such characters, in which a backslash may take blanks along (`Spelling`).
2. Each spelling is read as the text it spells (`unescaped?_of_spelling`).
3. There are four forms (`Writes`). They are told apart by the quotes they begin and end with, which
   a body cannot imitate, so each one is read as what it writes (`decodeString?_of_writes`).
-/

namespace DepScope.Toml

open Text

variable {skips : Char → Bool} {c e : Char} {p cs ds text s raw lead : List Char}

/-! ## One step of reading -/

/-- The text of a basic string's body. -/
def unescaped? (skips : Char → Bool) (cs : List Char) : Option (List Char) :=
  unescape skips cs.length cs

/-- More fuel than characters changes nothing. -/
theorem unescape_of_le (skips : Char → Bool) {fuel : Nat} (h : cs.length ≤ fuel) :
    unescape skips fuel cs = unescaped? skips cs := by
  rw [unescaped?]
  induction hlen : cs.length using Nat.strongRecOn generalizing cs fuel with
  | ind k ih =>
    subst hlen
    cases cs with
    | nil => cases fuel <;> rfl
    | cons c cs =>
      obtain ⟨fuel, rfl⟩ : ∃ k, fuel = k + 1 := ⟨fuel - 1, by rw [List.length_cons] at h; omega⟩
      have hcs : cs.length ≤ fuel := Nat.le_of_succ_le_succ h
      have hrest (rest : List Char) (hr : rest.length ≤ cs.length) :
          unescape skips fuel rest = unescape skips cs.length rest := by
        have hless : rest.length < (c :: cs).length := Nat.lt_succ_of_le hr
        rw [ih _ hless (Nat.le_trans hr hcs) rfl, ih _ hless hr rfl]
      simp only [List.length_cons, unescape, hrest cs (Nat.le_refl _)]
      split
      · split
        · rfl
        · next more => rw [hrest _ (by simp; omega)]
        · next more => rw [hrest _ (by simp; omega)]
        · next more _ _ =>
          have hdrop := (List.dropWhile_suffix skips (l := more)).length_le
          rw [hrest more (by simp), hrest (more.dropWhile skips) (by simp; omega)]
      · rfl

theorem unescaped?_plain (hc : c ≠ '\\') (cs : List Char) :
    unescaped? skips (c :: cs) = (unescaped? skips cs).map (c :: ·) := by
  simp only [unescaped?, List.length_cons, unescape, if_neg hc]

/-- One-letter escapes, and the characters they stand for. -/
def shortLetters : List (Char × Char) :=
  [('b', '\x08'), ('t', '\t'), ('n', '\n'), ('f', '\x0c'), ('r', '\r'), ('e', '\x1b'), ('"', '"'),
    ('\\', '\\')]

/-- Letters that announce the number of a character, and with how many digits. -/
def numberLetters : List (Char × Nat) :=
  [('u', 4), ('U', 8)]

theorem unescaped?_number {l : Char} {k : Nat} (h : (l, k) ∈ numberLetters) (cs : List Char) :
    unescaped? skips ('\\' :: l :: cs) =
      if cs.length < k then none
      else (scalar? (cs.take k)).bind fun x => (unescaped? skips (cs.drop k)).map (x :: ·) := by
  have hrest : unescape skips (cs.length + 1) (cs.drop k) = unescaped? skips (cs.drop k) :=
    unescape_of_le skips (by rw [List.length_drop]; omega)
  simp only [numberLetters, List.mem_cons, Prod.mk.injEq, List.not_mem_nil, or_false] at h
  obtain ⟨rfl, rfl⟩ | ⟨rfl, rfl⟩ := h
  all_goals
    simp only [unescaped?, List.length_cons, unescape, if_true] at hrest ⊢
    rw [hrest]
    split
    · rfl
    · simp only [Option.map_eq_bind]
      rfl

theorem shortEscape?_eq_some_iff : shortEscape? e = some c ↔ (e, c) ∈ shortLetters := by
  have hall : ∀ entry ∈ shortLetters, shortEscape? entry.1 = some entry.2 := by decide
  refine ⟨fun h => ?_, hall (e, c)⟩
  unfold shortEscape? at h
  split at h <;> cases h <;> decide

theorem unescaped?_short (h : (e, c) ∈ shortLetters) (cs : List Char) :
    unescaped? skips ('\\' :: e :: cs) = (unescaped? skips cs).map (c :: ·) := by
  have hrest : unescape skips (cs.length + 1) cs = unescaped? skips cs :=
    unescape_of_le skips (Nat.le_succ _)
  simp only [shortLetters, List.mem_cons, Prod.mk.injEq, List.not_mem_nil, or_false] at h
  obtain ⟨rfl, rfl⟩ | ⟨rfl, rfl⟩ | ⟨rfl, rfl⟩ | ⟨rfl, rfl⟩ | ⟨rfl, rfl⟩ | ⟨rfl, rfl⟩ | ⟨rfl, rfl⟩ |
    ⟨rfl, rfl⟩ := h
  all_goals
    rw [← hrest]
    rfl

/-- Any other character is taken only if it is a blank, and then with all blanks behind it. -/
theorem unescaped?_other (hshort : ∀ x, (e, x) ∉ shortLetters)
    (hnumber : ∀ k, (e, k) ∉ numberLetters) (cs : List Char) : unescaped? skips ('\\' :: e :: cs) =
      if skips e then unescaped? skips (cs.dropWhile skips) else none := by
  have hrest : unescape skips (cs.length + 1) (cs.dropWhile skips) =
      unescaped? skips (cs.dropWhile skips) := by
    have hdrop := (List.dropWhile_suffix skips (l := cs)).length_le
    exact unescape_of_le skips (by omega)
  have hu : e ≠ 'u' := fun h => hnumber 4 (by rw [h]; decide)
  have hU : e ≠ 'U' := fun h => hnumber 8 (by rw [h]; decide)
  have hnone : shortEscape? e = none :=
    Option.eq_none_iff_forall_ne_some.mpr fun x hx => hshort x (shortEscape?_eq_some_iff.mp hx)
  simp only [unescaped?, List.length_cons, unescape, if_true, hnone] at hrest ⊢
  rw [hrest]

/-! ## The number of a character -/

theorem scalar?_eq_some_iff : scalar? ds = some c ↔ Signed ds c.toNat := by
  rw [scalar?, Option.bind_eq_some_iff]
  constructor
  · rintro ⟨n, hn, hc⟩
    obtain ⟨hsigned, hlt⟩ := hexBelow?_eq_some_iff.mp hn
    split at hc
    · cases hc
    · cases hc
      rwa [toNat_ofNat (by omega)]
  · intro h
    have hvalid : c.toNat < 0xD800 ∨ 0xDFFF < c.toNat ∧ c.toNat < 0x110000 := c.valid
    refine ⟨c.toNat, hexBelow?_eq_some_iff.mpr ⟨h, by omega⟩, ?_⟩
    rw [if_neg (by omega), Char.ofNat_toNat]

/-! ## Spellings -/

/-- A character that is written as it is, or with one of its escapes. -/
inductive Spells : List Char → Char → Prop
  | plain {c : Char} : c ≠ '"' → c ≠ '\\' → Spells [c] c
  | short {e c : Char} : (e, c) ∈ shortLetters → Spells ['\\', e] c
  | number {l c : Char} {k : Nat} {ds : List Char} :
    (l, k) ∈ numberLetters → ds.length = k → Denotes 16 ds c.toNat → Spells ('\\' :: l :: ds) c

/-- A body and the text it spells. A backslash takes blanks along, as many as follow it. -/
inductive Spelling (skips : Char → Bool) : List Char → List Char → Prop
  | nil : Spelling skips [] []
  | char {p text s : List Char} {c : Char} :
    Spells p c → Spelling skips text s → Spelling skips (p ++ text) (c :: s)
  | gap {blanks text s : List Char} :
    blanks ≠ [] → (∀ b ∈ blanks, skips b = true) → (∀ b ∈ text.head?, skips b = false) →
      Spelling skips text s → Spelling skips ('\\' :: (blanks ++ text)) s

theorem unescaped?_spells (h : Spells p c) (rest : List Char) :
    unescaped? skips (p ++ rest) = (unescaped? skips rest).map (c :: ·) := by
  cases h with
  | plain _ hc => exact unescaped?_plain hc rest
  | short hmem => exact unescaped?_short hmem rest
  | @number l _ k ds hmem hlen hds =>
    have hscalar : scalar? ds = some c := scalar?_eq_some_iff.mpr (.bare hds)
    rw [List.cons_append, List.cons_append, unescaped?_number hmem, if_neg (by simp; omega),
      List.take_left' hlen, List.drop_left' hlen, hscalar, Option.bind_some]

/-- No blank is the letter of an escape. -/
theorem notMem_letters_of_isBlank (h : isBlank e = true) :
    (∀ x, (e, x) ∉ shortLetters) ∧ ∀ k, (e, k) ∉ numberLetters := by
  have hshort : ∀ entry ∈ shortLetters, isBlank entry.1 = false := by decide
  have hnumber : ∀ entry ∈ numberLetters, isBlank entry.1 = false := by decide
  constructor
  · intro x hmem
    rw [hshort _ hmem] at h
    cases h
  · intro k hmem
    rw [hnumber _ hmem] at h
    cases h

theorem unescaped?_blanks (hskips : ∀ b, skips b = true → isBlank b = true) {blanks : List Char}
    (hne : blanks ≠ []) (hblanks : ∀ b ∈ blanks, skips b = true) (rest : List Char) :
    unescaped? skips ('\\' :: (blanks ++ rest)) = unescaped? skips (rest.dropWhile skips) := by
  obtain ⟨e, more, rfl⟩ := List.exists_cons_of_ne_nil hne
  obtain ⟨he, hmore⟩ := List.forall_mem_cons.mp hblanks
  obtain ⟨hshort, hnumber⟩ := notMem_letters_of_isBlank (hskips e he)
  rw [List.cons_append, unescaped?_other hshort hnumber, if_pos he,
    List.dropWhile_append_of_pos hmore]

/-- **A spelling is read as the text it spells.** -/
theorem unescaped?_of_spelling (hskips : ∀ b, skips b = true → isBlank b = true)
    (h : Spelling skips text s) : unescaped? skips text = some s := by
  induction h with
  | nil => rfl
  | char hp _ ih => rw [unescaped?_spells hp, ih, Option.map_some]
  | @gap blanks text s hne hblanks hstop _ ih =>
    have hrest : text.dropWhile skips = text := by
      cases text with
      | nil => rfl
      | cons c text => rw [List.dropWhile_cons_of_neg (by simpa using hstop c rfl)]
    rw [unescaped?_blanks hskips hne hblanks, hrest, ih]

/-! ## The four forms -/

/-- Line breaks that are left out behind an opening. -/
def breaks : List (List Char) :=
  [['\n'], ['\r', '\n']]

/-- A literal and the text that it writes. A basic literal has escapes, and on several lines also
gaps; the others have the text as it is. -/
inductive Writes : List Char → List Char → Prop
  | basic {text s : List Char} :
    Spelling (fun _ => false) text s → Writes (['"'] ++ text ++ ['"']) s
  | basicLines {lead text s : List Char} :
    Spelling isBlank text s → lead ∈ breaks ∨ lead = [] ∧ (∀ b ∈ breaks, ¬ b <+: text) →
      Writes (['"', '"', '"'] ++ (lead ++ text) ++ ['"', '"', '"']) s
  | literal {s : List Char} : '\'' ∉ s → Writes (['\''] ++ s ++ ['\'']) s
  | literalLines {lead s : List Char} :
    lead ∈ breaks → Writes (['\'', '\'', '\''] ++ (lead ++ s) ++ ['\'', '\'', '\'']) s

theorem between?_eq_some (q text : List Char) : between? q (q ++ text ++ q) = some text := by
  rw [between?, List.append_assoc, afterPrefix?_append, Option.bind_some, beforeSuffix?,
    List.reverse_append, afterPrefix?_append, Option.map_some, List.reverse_reverse]

/-- A literal with one quote at its start does not begin with three of them. -/
theorem between?_three {q : Char} {text : List Char} (h : text.head? ≠ some q) :
    between? [q, q, q] ([q] ++ text ++ [q]) = none := by
  have hopen : afterPrefix? [q, q, q] ([q] ++ text ++ [q]) = none := by
    cases text with
    | nil => simp [afterPrefix?]
    | cons c text =>
      have hc : q ≠ c := fun heq => h (by rw [heq]; rfl)
      simp [afterPrefix?, hc]
  rw [between?, hopen, Option.bind_none]

theorem between?_other {a b : Char} (h : a ≠ b) (q text : List Char) :
    between? (a :: q) (b :: text) = none := by
  rw [between?, afterPrefix?, if_neg h, Option.bind_none]

theorem trimBreak_append (h : lead ∈ breaks) (text : List Char) :
    trimBreak (lead ++ text) = text := by
  simp only [breaks, List.mem_cons, List.not_mem_nil, or_false] at h
  obtain rfl | rfl := h <;> rfl

theorem trimBreak_of_not (h : ∀ b ∈ breaks, ¬ b <+: text) : trimBreak text = text := by
  have hfeed := h ['\n'] (by decide)
  have hreturn := h ['\r', '\n'] (by decide)
  unfold trimBreak
  split
  · exact absurd ⟨_, rfl⟩ hreturn
  · exact absurd ⟨_, rfl⟩ hfeed
  · rfl

theorem Spelling.head?_ne (h : Spelling skips text s) : text.head? ≠ some '"' := by
  cases h with
  | nil => decide
  | char hp =>
    cases hp with
    | plain hq => simpa using hq
    | short | number => simp
  | gap => simp

theorem decodeString?_line (h : text.head? ≠ some '"') :
    decodeString? (['"'] ++ text ++ ['"']) = unescaped? (fun _ => false) text := by
  have hother : between? ['\'', '\'', '\''] (['"'] ++ text ++ ['"']) = none :=
    between?_other (by decide) _ _
  simp only [decodeString?, decodeStringWith?, between?_three h, hother, between?_eq_some]
  rfl

theorem decodeString?_lines (text : List Char) :
    decodeString? (['"', '"', '"'] ++ text ++ ['"', '"', '"']) =
      unescaped? isBlank (trimBreak text) := by
  simp only [decodeString?, decodeStringWith?, between?_eq_some]
  rfl

/-- **Every way to write a text is read as that text.** -/
theorem decodeString?_of_writes (h : Writes raw s) : decodeString? raw = some s := by
  cases h with
  | basic htext =>
    rw [decodeString?_line htext.head?_ne]
    exact unescaped?_of_spelling (fun _ hb => by cases hb) htext
  | basicLines htext hlead =>
    rw [decodeString?_lines]
    obtain hbreak | ⟨rfl, hno⟩ := hlead
    · rw [trimBreak_append hbreak]
      exact unescaped?_of_spelling (fun _ => id) htext
    · rw [List.nil_append, trimBreak_of_not hno]
      exact unescaped?_of_spelling (fun _ => id) htext
  | literal hs =>
    have hthree : between? ['\'', '\'', '\''] (['\''] ++ s ++ ['\'']) = none :=
      between?_three fun hhead => hs (List.mem_of_head? hhead)
    have hbasicLines : between? ['"', '"', '"'] (['\''] ++ s ++ ['\'']) = none :=
      between?_other (by decide) _ _
    have hbasic : between? ['"'] (['\''] ++ s ++ ['\'']) = none := between?_other (by decide) _ _
    simp only [decodeString?, decodeStringWith?, hthree, hbasicLines, hbasic, between?_eq_some]
  | literalLines hlead =>
    have hbasicLines (text : List Char) :
        between? ['"', '"', '"'] (['\'', '\'', '\''] ++ text ++ ['\'', '\'', '\'']) = none :=
      between?_other (by decide) _ _
    simp only [decodeString?, decodeStringWith?, hbasicLines, between?_eq_some,
      trimBreak_append hlead]

/-- A text of a quote, a feed and a face, on three lines: a break is left out behind the opening,
and a backslash takes a break and the blanks of the next line along. -/
theorem decodeString?_of_three_lines :
    let raw := "\"\"\"\r\n\\\"\\\n \t\\n\\U0001F600\"\"\"".toList
    Writes raw ['"', '\n', '😀'] ∧ decodeString? raw = some ['"', '\n', '😀'] := by
  intro raw
  have hface : Spells ('\\' :: 'U' :: "0001F600".toList) '😀' :=
    .number (k := 8) (by decide) (by decide) ((natIn?_eq_some_iff (by decide)).mp (by decide))
  have hletter : ∀ b ∈ ['\\', 'n'].head?, isBlank b = false := by
    rintro b ⟨⟩
    decide
  have htext : Spelling isBlank
      (['\\', '"'] ++ '\\' :: (['\n', ' ', '\t'] ++ (['\\', 'n'] ++
        ('\\' :: 'U' :: "0001F600".toList ++ [])))) ['"', '\n', '😀'] :=
    .char (.short (by decide)) (.gap (by decide) (List.all_eq_true.mp (by decide)) hletter
      (.char (.short (by decide)) (.char hface .nil)))
  have hwrites : Writes raw ['"', '\n', '😀'] :=
    @Writes.basicLines ['\r', '\n'] _ _ htext (.inl (by decide))
  exact ⟨hwrites, decodeString?_of_writes hwrites⟩

end DepScope.Toml
