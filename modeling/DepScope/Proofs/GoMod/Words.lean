import DepScope.GoMod.Token

/-!
# DepScope.Proofs.GoMod.Words

The words of a text that is put together from lines, up to their places.

1. Where a text stands in a file changes the places of its words and nothing else (`scan_unplaced`).
2. A text is read in parts, one after the other, unless a comment mark is cut in two
   (`scan_append`).
3. A line feed behind a text with all its quotes closed ends the last line (`lineWords_append`); a
   word and a blank before it put the word at the head of the first (`lineWords_word`).
-/

namespace DepScope.GoMod

open Text

variable {s s' : State} {p q : Point} {a b cs : List Char} {c : Char}

/-! ## Forgetting places -/

/-- The place of a word whose place does not matter. -/
def Stretch.nowhere : Stretch := ⟨.start, .start⟩

/-- A word without its place. -/
def Token.unplaced (t : Token) : Token :=
  { t with place := .nowhere }

/-- An item without its place. -/
def Item.unplaced : Item → Item
  | .token t => .token t.unplaced
  | .lineEnd => .lineEnd

/-- A state without the point where its word starts. -/
def State.unplaced : State → State
  | .gap => .gap
  | .comment => .comment
  | .word _ text => .word .start text
  | .quoted _ text escaped => .quoted .start text escaped
  | .backquoted _ text => .backquoted .start text

theorem fromGap_unplaced (p q : Point) (c : Char) (next : Option Char) :
    (fromGap p c next).1.map Item.unplaced = (fromGap q c next).1.map Item.unplaced ∧
      (fromGap p c next).2.unplaced = (fromGap q c next).2.unplaced := by
  unfold fromGap
  repeat' split
  all_goals exact ⟨rfl, rfl⟩

/-- What one character does, up to places. -/
theorem step_unplaced (h : s.unplaced = s'.unplaced) (p q : Point) (c : Char)
    (next : Option Char) :
    (step s p c next).toOption.map (fun r => (r.1.map Item.unplaced, r.2.unplaced)) =
      (step s' q c next).toOption.map (fun r => (r.1.map Item.unplaced, r.2.unplaced)) := by
  obtain ⟨hout, hst⟩ := fromGap_unplaced p q c next
  cases s <;> cases s' <;> cases h <;> simp only [step]
  case gap.gap => simp [Except.toOption, hout, hst]
  case word.word =>
    split
    · simp [Except.toOption, hout, hst, wordToken, Item.unplaced, Token.unplaced]
    · rfl
  case quoted.quoted =>
    repeat' split
    all_goals rfl
  case backquoted.backquoted => split <;> rfl

theorem scan_cons_of_ok {out : List Item} (h : step s p c cs.head? = .ok (out, s')) :
    scan s p (c :: cs) = (scan s' (p.past c) cs).map (out ++ ·) := by
  rw [scan, h]
  rfl

theorem scan_cons_of_error {e : Fault} (h : step s p c cs.head? = .error e) :
    scan s p (c :: cs) = .error e := by
  rw [scan, h]
  rfl

theorem toOption_map {α β : Type} (r : Except Fault α) (f : α → β) :
    (r.map f).toOption = r.toOption.map f := by
  cases r <;> rfl

/-- **Where a text stands** changes nothing but places. -/
theorem scan_unplaced (h : s.unplaced = s'.unplaced) (p q : Point) (cs : List Char) :
    (scan s p cs).toOption.map (·.map Item.unplaced) =
      (scan s' q cs).toOption.map (·.map Item.unplaced) := by
  induction cs generalizing s s' p q with
  | nil => cases s <;> cases s' <;> cases h <;> rfl
  | cons c cs ih =>
    have hstep := step_unplaced h p q c cs.head?
    cases hs : step s p c cs.head? with
    | error e =>
      cases hs' : step s' q c cs.head? with
      | error e' => rw [scan_cons_of_error hs, scan_cons_of_error hs']; rfl
      | ok r' => simp [hs, hs', Except.toOption] at hstep
    | ok r =>
      cases hs' : step s' q c cs.head? with
      | error e' => simp [hs, hs', Except.toOption] at hstep
      | ok r' =>
        simp only [hs, hs', Except.toOption, Option.map_some, Option.some.injEq,
          Prod.mk.injEq] at hstep
        rw [scan_cons_of_ok hs, scan_cons_of_ok hs', toOption_map, toOption_map]
        have hrest := congrArg (Option.map (r.1.map Item.unplaced ++ ·))
          (ih hstep.2 (p.past c) (q.past c))
        rw [Option.map_map, Option.map_map] at hrest ⊢
        simpa [Function.comp_def, hstep.1] using hrest

/-! ## Reading in parts -/

/-- Runs the machine on a part of a text: what it puts out, and where it stands behind the part. -/
def run : State → Point → List Char → Except Fault (List Item × State)
  | s, _, [] => .ok ([], s)
  | s, p, c :: cs => do
    let (out, s) ← step s p c cs.head?
    let (rest, s) ← run s (p.past c) cs
    return (out ++ rest, s)

theorem run_cons_of_ok {out : List Item} (h : step s p c cs.head? = .ok (out, s')) :
    run s p (c :: cs) = (run s' (p.past c) cs).map fun r => (out ++ r.1, r.2) := by
  rw [run, h]
  rfl

theorem run_cons_of_error {e : Fault} (h : step s p c cs.head? = .error e) :
    run s p (c :: cs) = .error e := by
  rw [run, h]
  rfl

/-- The character behind matters only between two slashes. -/
theorem step_congr_next {next next' : Option Char}
    (h : c = '/' → (next = some '/' ↔ next' = some '/')) (s : State) (p : Point) :
    step s p c next = step s p c next' := by
  have hopens : opensComment c next = opensComment c next' := by
    by_cases hc : c = '/'
    · simp [opensComment, hc, h hc, Bool.beq_eq_decide_eq]
    · simp [opensComment, hc]
  have hgap : fromGap p c next = fromGap p c next' := by
    rw [fromGap, fromGap, hopens]
  have hbreaks : breaksWord c next = breaksWord c next' := by
    rw [breaksWord, breaksWord, hopens]
  cases s with
  | gap => rw [step, step, hgap]
  | word start text => rw [step, step, hbreaks, hgap]
  | comment | quoted | backquoted => rfl

/-- The parts of a text do not meet in a comment mark. -/
def Apart (a b : List Char) : Prop :=
  a.getLast? = some '/' → b.head? ≠ some '/'

/-- **A text is read in parts.** -/
theorem scan_append (h : Apart a b) (s : State) (p : Point) :
    scan s p (a ++ b) = (run s p a).bind fun r =>
      (scan r.2 (a.foldl Point.past p) b).map (r.1 ++ ·) := by
  induction a generalizing s p with
  | nil =>
    rw [run]
    cases h : scan s p b <;> simp [Except.bind, Except.map, h]
  | cons c a ih =>
    have hnext : step s p c (a ++ b).head? = step s p c a.head? := by
      refine step_congr_next (fun hc => ?_) s p
      cases a with
      | nil => simpa using h (by simp [hc])
      | cons d a => rfl
    have htail : Apart a b := fun hlast => h (by
      cases a with
      | nil => simp at hlast
      | cons d a => simpa using hlast)
    rw [List.cons_append]
    cases hs : step s p c a.head? with
    | error e =>
      rw [scan_cons_of_error (hnext.trans hs), run_cons_of_error hs]
      rfl
    | ok r =>
      rw [scan_cons_of_ok (hnext.trans hs), run_cons_of_ok hs, ih htail]
      cases run r.2 (p.past c) a with
      | error e => rfl
      | ok r' =>
        cases hrest : scan r'.2 (a.foldl Point.past (p.past c)) b <;>
          simp [Except.map, Except.bind, hrest]

/-- A text to its end. -/
theorem scan_eq_run (s : State) (p : Point) (a : List Char) :
    scan s p a = (run s p a).bind fun r =>
      (finish r.2 (a.foldl Point.past p)).map (r.1 ++ ·) := by
  simpa [scan] using scan_append (a := a) (b := []) (fun _ => by simp) s p

theorem exists_run {items : List Item} (h : scan s p a = .ok items) :
    ∃ out s' rest, run s p a = .ok (out, s') ∧ finish s' (a.foldl Point.past p) = .ok rest ∧
      items = out ++ rest := by
  rw [scan_eq_run] at h
  cases hr : run s p a with
  | error e => simp [hr, Except.bind] at h
  | ok r =>
    cases hf : finish r.2 (a.foldl Point.past p) with
    | error e => simp [hr, hf, Except.bind, Except.map] at h
    | ok rest =>
      simp only [hr, hf, Except.bind, Except.map, Except.ok.injEq] at h
      exact ⟨r.1, r.2, rest, rfl, hf, h.symm⟩

/-- A line feed where a text may end ends the line. -/
theorem step_lineFeed {rest : List Item} (h : finish s p = .ok rest) (next : Option Char) :
    step s p '\n' next = .ok (rest ++ [.lineEnd], .gap) := by
  cases s with
  | gap | comment | word =>
    cases h
    rfl
  | quoted | backquoted => cases h

theorem scan_lineFeed {rest : List Item} (h : finish s p = .ok rest) (cs : List Char) :
    scan s p ('\n' :: cs) = (scan .gap (p.past '\n') cs).map (rest ++ .lineEnd :: ·) := by
  simp [scan_cons_of_ok (step_lineFeed h cs.head?)]

/-! ## Lines -/

theorem exists_gather_token (t : Token) (items : List Item) :
    ∃ line lines, gather (.token t :: items) = (t :: line) :: lines := by
  unfold gather
  split
  · exact ⟨_, _, rfl⟩
  · exact ⟨_, _, rfl⟩

theorem gather_token_token {t u : Token} {items : List Item} {line : List Token}
    {lines : List (List Token)} (h : gather (.token u :: items) = line :: lines) :
    gather (.token t :: .token u :: items) = (t :: line) :: lines := by
  unfold gather
  rw [h]

theorem mem_of_gather {t : Token} {items : List Item} {line : List Token}
    {lines : List (List Token)} (h : gather items = (t :: line) :: lines) : .token t ∈ items := by
  induction items with
  | nil => cases h
  | cons x items ih =>
    cases x with
    | lineEnd => exact List.mem_cons_of_mem _ (ih h)
    | token u =>
      obtain ⟨line', lines', hgather⟩ := exists_gather_token u items
      rw [hgather] at h
      cases h
      exact List.mem_cons_self

theorem gather_append_lineEnd (a b : List Item) :
    gather (a ++ .lineEnd :: b) = gather a ++ gather b := by
  induction a with
  | nil => rfl
  | cons x a ih =>
    cases x with
    | lineEnd => exact ih
    | token t =>
      cases a with
      | nil => rfl
      | cons y a =>
        cases y with
        | lineEnd => exact congrArg ([t] :: ·) ih
        | token u =>
          obtain ⟨line, lines, h⟩ := exists_gather_token u a
          rw [h] at ih
          rw [gather_token_token h]
          exact gather_token_token ih

theorem gather_unplaced (items : List Item) :
    gather (items.map Item.unplaced) = (gather items).map (·.map Token.unplaced) := by
  induction items with
  | nil => rfl
  | cons x items ih =>
    cases x with
    | lineEnd => exact ih
    | token t =>
      cases items with
      | nil => rfl
      | cons y items =>
        cases y with
        | lineEnd => exact congrArg ([t.unplaced] :: ·) ih
        | token u =>
          obtain ⟨line, lines, h⟩ := exists_gather_token u items
          rw [h] at ih
          rw [List.map_cons, List.map_cons, gather_token_token h]
          exact gather_token_token ih

/-- The words of a text, line by line and up to places. -/
def lineWords (cs : List Char) : Option (List (List Token)) :=
  (scan .gap .start cs).toOption.map fun items => gather (items.map Item.unplaced)

theorem lineWords_eq (text : String) :
    lineWords text.toList = (tokenize text).toOption.map (·.map (·.map Token.unplaced)) := by
  rw [lineWords, tokenize, toOption_map, Option.map_map]
  exact congrArg (Option.map · _) (funext gather_unplaced)

theorem map_gather_scan (p : Point) (cs : List Char) :
    (scan .gap p cs).toOption.map (fun items => gather (items.map Item.unplaced)) = lineWords cs := by
  have h := congrArg (Option.map gather) (scan_unplaced (s := .gap) rfl p .start cs)
  rwa [Option.map_map, Option.map_map] at h

theorem lineWords_lineFeed (cs : List Char) : lineWords ('\n' :: cs) = lineWords cs := by
  rw [lineWords, scan_lineFeed (s := .gap) rfl, toOption_map, Option.map_map]
  exact map_gather_scan _ cs

/-- What follows a text starts on a new line, or there is nothing. -/
def StartsLine (b : List Char) : Prop :=
  b = [] ∨ b.head? = some '\n'

/-- **The lines of a text and of what follows it.** -/
theorem lineWords_append {lines : List (List Token)} (ha : lineWords a = some lines)
    (hb : StartsLine b) : lineWords (a ++ b) = (lineWords b).map (lines ++ ·) := by
  obtain rfl | hb := hb
  · rw [List.append_nil, ha]
    exact congrArg some (List.append_nil lines).symm
  · obtain ⟨b, rfl⟩ : ∃ b', b = '\n' :: b' := by
      cases b with
      | nil => simp at hb
      | cons c b => exact ⟨b, by simpa using hb⟩
    cases hscan : scan .gap .start a with
    | error e => simp [lineWords, hscan, Except.toOption] at ha
    | ok items =>
      obtain rfl : gather (items.map Item.unplaced) = lines := by
        simpa [lineWords, hscan, Except.toOption] using ha
      obtain ⟨out, s, rest, hrun, hfinish, rfl⟩ := exists_run hscan
      rw [lineWords_lineFeed, ← map_gather_scan ((a.foldl Point.past .start).past '\n') b, lineWords,
        scan_append (by simp [Apart]), hrun, Except.bind, scan_lineFeed hfinish]
      simp only [toOption_map, Option.map_map]
      refine congrArg (Option.map · _) (funext fun more => ?_)
      simp [Item.unplaced, ← gather_append_lineEnd]

/-- Behind a line feed the machine is out of words, unless it is in backquotes. -/
theorem run_concat_lineFeed {out : List Item} (h : run s p (a ++ ['\n']) = .ok (out, s')) :
    (∃ start text, s' = .backquoted start text) ∨ s' = .gap ∧ ∃ more, out = more ++ [.lineEnd] := by
  induction a generalizing s p out with
  | nil =>
    cases s with
    | gap => cases h; exact .inr ⟨rfl, [], rfl⟩
    | comment => cases h; exact .inr ⟨rfl, [], rfl⟩
    | word start text => cases h; exact .inr ⟨rfl, [wordToken start p text], rfl⟩
    | quoted => cases h
    | backquoted start text => cases h; exact .inl ⟨start, _, rfl⟩
  | cons c a ih =>
    rw [List.cons_append] at h
    cases hs : step s p c (a ++ ['\n']).head? with
    | error e => simp [run_cons_of_error hs] at h
    | ok r =>
      rw [run_cons_of_ok hs] at h
      cases hr : run r.2 (p.past c) (a ++ ['\n']) with
      | error e => simp [hr, Except.map] at h
      | ok r' =>
        rw [hr] at h
        cases h
        obtain hopen | ⟨hgap, more, hmore⟩ := ih hr
        · exact .inl hopen
        · exact .inr ⟨hgap, r.1 ++ more, by rw [hmore, List.append_assoc]⟩

/-- Whole lines with all quotes closed. -/
structure WholeLines (text : String) : Prop where
  ends : text = "" ∨ text.toList.getLast? = some '\n'
  closed : ∀ n, tokenize text ≠ .error (.unterminatedString n)

/-- **The lines of a text behind whole lines**, unless these cannot be read. -/
theorem WholeLines.lineWords_append {text : String} (h : WholeLines text) :
    (∀ b, lineWords (text.toList ++ b) = none) ∨
      ∃ lines, lineWords text.toList = some lines ∧
        ∀ b, lineWords (text.toList ++ b) = (lineWords b).map (lines ++ ·) := by
  obtain rfl | hlast := h.ends
  · exact .inr ⟨[], rfl, fun b => by simp⟩
  · have hapart (b : List Char) : Apart text.toList b := by simp [Apart, hlast]
    cases hrun : run .gap .start text.toList with
    | error e =>
      refine .inl fun b => ?_
      rw [lineWords, scan_append (hapart b), hrun]
      rfl
    | ok r =>
      obtain ⟨a, ha⟩ := List.getLast?_eq_some_iff.mp hlast
      obtain ⟨start, word, hopen⟩ | ⟨hgap, more, hmore⟩ := run_concat_lineFeed (ha ▸ hrun)
      · refine absurd ?_ (h.closed start.line)
        rw [tokenize, scan_eq_run, hrun, Except.bind, hopen]
        rfl
      · have hb (b : List Char) : lineWords (text.toList ++ b) =
            (lineWords b).map (gather (more.map Item.unplaced) ++ ·) := by
          rw [lineWords, scan_append (hapart b), hrun, Except.bind, hgap,
            ← map_gather_scan (text.toList.foldl Point.past .start) b]
          simp only [toOption_map, Option.map_map]
          refine congrArg (Option.map · _) (funext fun items => ?_)
          simp [hmore, Item.unplaced, ← gather_append_lineEnd]
        refine .inr ⟨gather (more.map Item.unplaced), ?_, hb⟩
        simpa [lineWords, scan, finish, Except.toOption, gather] using hb []

/-! ## A word before a line -/

/-- How many characters an item has used at least, quotes apart. -/
def Item.weight : Item → Nat
  | .token t => if t.quoted then 0 else t.text.toList.length
  | .lineEnd => 1

/-- How many characters items have used at least. -/
def totalWeight : List Item → Nat
  | [] => 0
  | x :: xs => x.weight + totalWeight xs

/-- How many of the characters read have not been put out. -/
def State.pending : State → Nat
  | .gap | .quoted .. | .backquoted .. => 0
  | .comment => 1
  | .word _ text => text.length

@[simp] theorem Item.weight_lineEnd : Item.lineEnd.weight = 1 := rfl

@[simp] theorem Item.weight_quoted (text : String) (place : Stretch) :
    (Item.token ⟨text, true, place⟩).weight = 0 := rfl

@[simp] theorem weight_wordToken (start stop : Point) (text : List Char) :
    (wordToken start stop text).weight = text.length := by
  simp [wordToken, Item.weight]

@[simp] theorem totalWeight_nil : totalWeight [] = 0 := rfl

@[simp] theorem totalWeight_cons (x : Item) (xs : List Item) :
    totalWeight (x :: xs) = x.weight + totalWeight xs := rfl

theorem totalWeight_append (xs ys : List Item) :
    totalWeight (xs ++ ys) = totalWeight xs + totalWeight ys := by
  induction xs with
  | nil => simp
  | cons x xs ih => simp [ih, Nat.add_assoc]

@[simp] theorem State.pending_gap : State.gap.pending = 0 := rfl

@[simp] theorem State.pending_comment : State.comment.pending = 1 := rfl

@[simp] theorem State.pending_word (start : Point) (text : List Char) :
    (State.word start text).pending = text.length := rfl

@[simp] theorem State.pending_quoted (start : Point) (text : List Char) (escaped : Bool) :
    (State.quoted start text escaped).pending = 0 := rfl

@[simp] theorem State.pending_backquoted (start : Point) (text : List Char) :
    (State.backquoted start text).pending = 0 := rfl

theorem fromGap_weight (p : Point) (c : Char) (next : Option Char) :
    totalWeight (fromGap p c next).1 + (fromGap p c next).2.pending ≤ 1 := by
  unfold fromGap
  repeat' split
  all_goals simp

theorem step_weight {next : Option Char} {out : List Item} (h : step s p c next = .ok (out, s')) :
    totalWeight out + s'.pending ≤ s.pending + 1 := by
  have hgap := fromGap_weight p c next
  cases s <;> simp only [step] at h
  case gap =>
    rw [Except.ok.injEq] at h
    simpa [h] using hgap
  case comment =>
    split at h <;> cases h <;> simp
  case word start text =>
    split at h
    · cases h
      simp only [totalWeight_cons, weight_wordToken, State.pending_word]
      omega
    · cases h
      simp
  case quoted start text escaped =>
    repeat' split at h
    all_goals cases h
    all_goals simp
  case backquoted start text =>
    split at h <;> cases h <;> simp

theorem run_weight {out : List Item} (h : run s p cs = .ok (out, s')) :
    totalWeight out + s'.pending ≤ s.pending + cs.length := by
  induction cs generalizing s p out with
  | nil =>
    cases h
    simp
  | cons c cs ih =>
    cases hs : step s p c cs.head? with
    | error e => simp [run_cons_of_error hs] at h
    | ok r =>
      rw [run_cons_of_ok hs] at h
      cases hr : run r.2 (p.past c) cs with
      | error e => simp [hr, Except.map] at h
      | ok r' =>
        rw [hr] at h
        cases h
        have hstep := step_weight hs
        have hrest := ih hr
        simp only [totalWeight_append, List.length_cons]
        omega

theorem finish_weight {rest : List Item} (h : finish s p = .ok rest) :
    totalWeight rest ≤ s.pending := by
  cases s <;> cases h <;> simp

/-- A text that is one word as it stands, without quotes. -/
def IsWord (v : String) : Prop :=
  ∃ place, tokenize v = .ok [[⟨v, false, place⟩]]

theorem weight_le_of_gather {t : Token} {items : List Item} (h : gather items = [[t]]) :
    (Item.token t).weight ≤ totalWeight items := by
  induction items with
  | nil => simp [gather] at h
  | cons x items ih =>
    cases x with
    | lineEnd =>
      have := ih h
      simp only [totalWeight_cons]
      omega
    | token u =>
      obtain ⟨line, lines, hgather⟩ := exists_gather_token u items
      rw [hgather] at h
      cases h
      simp

/-- One word that accounts for all characters is all there is. -/
theorem eq_singleton_of_gather {t : Token} {items : List Item} (h : gather items = [[t]])
    (hsum : totalWeight items ≤ (Item.token t).weight) : items = [.token t] := by
  cases items with
  | nil => simp [gather] at h
  | cons x items =>
    cases x with
    | lineEnd =>
      have hrest : gather items = [[t]] := h
      have := weight_le_of_gather hrest
      simp only [totalWeight_cons, Item.weight_lineEnd] at hsum
      omega
    | token u =>
      obtain ⟨line, lines, hgather⟩ := exists_gather_token u items
      rw [hgather] at h
      cases h
      cases items with
      | nil => rfl
      | cons y items =>
        cases y with
        | lineEnd =>
          simp only [totalWeight_cons, Item.weight_lineEnd] at hsum
          omega
        | token v =>
          obtain ⟨line, lines, hrest⟩ := exists_gather_token v items
          rw [gather_token_token hrest] at hgather
          cases hgather

/-- Reading a text that is one word leaves the machine where a blank puts the word out. -/
theorem IsWord.run {v : String} (h : IsWord v) :
    ∃ place out s' rest, run .gap .start v.toList = .ok (out, s') ∧
      finish s' (v.toList.foldl Point.past .start) = .ok rest ∧
      out ++ rest = [.token ⟨v, false, place⟩] ∧ s' ≠ .comment := by
  obtain ⟨place, h⟩ := h
  cases hscan : scan .gap .start v.toList with
  | error e => simp [tokenize, hscan, Except.map] at h
  | ok items =>
    obtain ⟨out, s', rest, hrun, hfinish, rfl⟩ := exists_run hscan
    have hgather : gather (out ++ rest) = [[⟨v, false, place⟩]] := by
      simpa [tokenize, hscan, Except.map] using h
    have hweight := run_weight hrun
    have hrest := finish_weight hfinish
    rw [State.pending_gap] at hweight
    have hv : (Item.token ⟨v, false, place⟩).weight = v.toList.length := rfl
    have hitems : out ++ rest = [.token ⟨v, false, place⟩] := by
      refine eq_singleton_of_gather hgather ?_
      rw [hv, totalWeight_append]
      omega
    refine ⟨place, out, s', rest, hrun, hfinish, hitems, ?_⟩
    rintro rfl
    cases hfinish
    rw [List.append_nil] at hitems
    rw [hitems] at hweight
    simp only [totalWeight_cons, totalWeight_nil, hv, State.pending_comment] at hweight
    omega

theorem step_blank {rest : List Item} (h : finish s p = .ok rest) (hs : s ≠ .comment)
    (next : Option Char) : step s p ' ' next = .ok (rest, .gap) := by
  cases s with
  | gap | word =>
    cases h
    rfl
  | comment => exact absurd rfl hs
  | quoted | backquoted => cases h

/-- A word and a blank before a text. -/
theorem scan_word {v : String} (h : IsWord v) (cs : List Char) :
    (scan .gap .start (v.toList ++ ' ' :: cs)).toOption.map (·.map Item.unplaced) =
      (scan .gap .start cs).toOption.map fun items =>
        .token ⟨v, false, .nowhere⟩ :: items.map Item.unplaced := by
  obtain ⟨place, out, s', rest, hrun, hfinish, hitems, hs'⟩ := h.run
  rw [scan_append (by simp [Apart]), hrun, Except.bind,
    scan_cons_of_ok (step_blank hfinish hs' cs.head?)]
  have hunplaced := congrArg (List.map Item.unplaced) hitems
  simp only [List.map_append, List.map_cons, List.map_nil] at hunplaced
  have hcs := congrArg (Option.map (out.map Item.unplaced ++ rest.map Item.unplaced ++ ·))
    (scan_unplaced (s := .gap) rfl ((v.toList.foldl Point.past .start).past ' ') .start cs)
  simp only [toOption_map, Option.map_map] at hcs ⊢
  refine Eq.trans ?_ (hcs.trans ?_)
  · exact congrArg (Option.map · _) (funext fun items => by simp)
  · exact congrArg (Option.map · _) (funext fun items => by rw [hunplaced]; rfl)

/-! ## The line of a word -/

/-- The word being read starts on this line or later. -/
def State.Since (n : Nat) : State → Prop
  | .gap | .comment => True
  | .word start _ | .quoted start .. | .backquoted start _ => n ≤ start.line

/-- The words start on this line or later. -/
def AllSince (n : Nat) (items : List Item) : Prop :=
  ∀ t, .token t ∈ items → n ≤ t.place.start.line

theorem line_le_past (p : Point) (c : Char) : p.line ≤ (p.past c).line := by
  unfold Point.past
  split <;> simp

theorem fromGap_since {n : Nat} (hp : n ≤ p.line) (c : Char) (next : Option Char) :
    AllSince n (fromGap p c next).1 ∧ (fromGap p c next).2.Since n := by
  unfold fromGap
  repeat' split
  all_goals simp [AllSince, State.Since, wordToken, hp]

theorem step_since {n : Nat} {next : Option Char} {out : List Item} (hs : s.Since n)
    (hp : n ≤ p.line) (h : step s p c next = .ok (out, s')) : AllSince n out ∧ s'.Since n := by
  have hgap := fromGap_since hp c next
  cases s <;> simp only [step] at h
  case gap =>
    rw [Except.ok.injEq] at h
    rwa [h] at hgap
  case comment => split at h <;> cases h <;> simp [AllSince, State.Since]
  case word start text =>
    split at h
    · cases h
      refine ⟨fun t ht => ?_, hgap.2⟩
      obtain ht | ht := List.mem_cons.mp ht
      · cases ht
        exact hs
      · exact hgap.1 t ht
    · cases h
      exact ⟨by simp [AllSince], hs⟩
  case quoted start text escaped =>
    repeat' split at h
    all_goals cases h
    all_goals simp_all [AllSince, State.Since]
  case backquoted start text => split at h <;> cases h <;> simp_all [AllSince, State.Since]

theorem scan_since {n : Nat} {items : List Item} (hs : s.Since n) (hp : n ≤ p.line)
    (h : scan s p cs = .ok items) : AllSince n items := by
  induction cs generalizing s p items with
  | nil =>
    rw [scan] at h
    cases s <;> cases h <;> simp_all [AllSince, State.Since, wordToken]
  | cons c cs ih =>
    cases hstep : step s p c cs.head? with
    | error e => simp [scan_cons_of_error hstep] at h
    | ok r =>
      obtain ⟨hout, hr⟩ := step_since hs hp hstep
      rw [scan_cons_of_ok hstep] at h
      cases hrest : scan r.2 (p.past c) cs with
      | error e => simp [hrest, Except.map] at h
      | ok rest =>
        rw [hrest] at h
        cases h
        intro t ht
        obtain ht | ht := List.mem_append.mp ht
        · exact hout t ht
        · exact ih hr (Nat.le_trans hp (line_le_past p c)) hrest t ht

/-- What a character can put out: nothing, the end of a line at a line feed, or first a word. -/
theorem step_out {next : Option Char} {out : List Item} (h : step s p c next = .ok (out, s')) :
    out = [] ∨ (out = [.lineEnd] ∧ s' = .gap ∧ c = '\n') ∨ ∃ t more, out = .token t :: more := by
  have hgap : (fromGap p c next).1 = [] ∨
      ((fromGap p c next).1 = [.lineEnd] ∧ (fromGap p c next).2 = .gap ∧ c = '\n') ∨
      ∃ t more, (fromGap p c next).1 = .token t :: more := by
    unfold fromGap
    repeat' split
    all_goals simp_all [wordToken]
  cases s <;> simp only [step] at h
  case gap =>
    rw [Except.ok.injEq] at h
    rwa [h] at hgap
  case comment => split at h <;> cases h <;> simp_all
  case word start text => split at h <;> cases h <;> simp [wordToken]
  case quoted start text escaped =>
    repeat' split at h
    all_goals cases h
    all_goals simp
  case backquoted start text => split at h <;> cases h <;> simp

/-- Behind the end of a line that comes first, all words are on later lines. -/
theorem scan_since_lineEnd {items : List Item} (h : scan s p cs = .ok (.lineEnd :: items)) :
    AllSince (p.line + 1) items := by
  induction cs generalizing s p with
  | nil =>
    rw [scan] at h
    cases s <;> cases h
  | cons c cs ih =>
    cases hstep : step s p c cs.head? with
    | error e => simp [scan_cons_of_error hstep] at h
    | ok r =>
      rw [scan_cons_of_ok hstep] at h
      cases hrest : scan r.2 (p.past c) cs with
      | error e => simp [hrest, Except.map] at h
      | ok rest =>
        rw [hrest, Except.map, Except.ok.injEq] at h
        obtain hout | ⟨hout, hr, rfl⟩ | ⟨t, more, hout⟩ := step_out hstep
        · rw [hout, List.nil_append] at h
          have hlines := ih (h ▸ hrest)
          intro t ht
          exact Nat.le_trans (Nat.succ_le_succ (line_le_past p c)) (hlines t ht)
        · rw [hout] at h
          cases h
          rw [hr] at hrest
          exact scan_since (s := .gap) trivial (Nat.le_refl _) hrest
        · rw [hout] at h
          cases h

/-- **A word before a line** of words that start on it becomes the first of them. -/
theorem lineWords_word {v l : String} {t : Token} {line : List Token} {lines : List (List Token)}
    (hv : IsWord v) (hl : tokenize l = .ok ((t :: line) :: lines)) (ht : t.place.start.line = 1) :
    lineWords (v.toList ++ ' ' :: l.toList) = some
      ((⟨v, false, .nowhere⟩ :: (t :: line).map Token.unplaced) ::
        lines.map (·.map Token.unplaced)) := by
  cases hscan : scan .gap .start l.toList with
  | error e => simp [tokenize, hscan, Except.map] at hl
  | ok items =>
    have hgather : gather items = (t :: line) :: lines := by
      simpa [tokenize, hscan, Except.map] using hl
    cases items with
    | nil => cases hgather
    | cons x items =>
      cases x with
      | lineEnd =>
        -- then no word is on the first line
        have hsince := scan_since_lineEnd hscan
        have hmem : .token t ∈ items := mem_of_gather hgather
        exact absurd (hsince t hmem) (by rw [ht]; decide)
      | token u =>
        have hitems := congrArg (List.map (List.map Token.unplaced)) hgather
        rw [← gather_unplaced] at hitems
        have hword := congrArg (Option.map gather) (scan_word hv l.toList)
        rw [Option.map_map, Option.map_map] at hword
        refine hword.trans ?_
        rw [hscan]
        exact congrArg some (gather_token_token hitems)

end DepScope.GoMod
