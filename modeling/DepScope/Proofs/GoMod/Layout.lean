import DepScope.GoMod.File
import DepScope.Proofs.GoMod.Words
import DepScope.Proofs.Text.Boundary

/-!
# DepScope.Proofs.GoMod.Layout

Where the words of a file stand in it.

1. A file is its words as they are written (`Written`), with gaps of blanks and comments between them
   (`IsGap`); `Laid` puts them one behind the other, each with its place. The machine lays every
   character down: what it has not put out yet is `Pending`, one character at a time
   (`step_advances`), and so over the whole file (`scan_laid`).
2. Where it fails, there is a quote on the line that the fault names (`scan_fault`).
3. So the places of words are right, and nothing between them is lost (`Faithful`,
   `tokenize_faithful`).
-/

namespace DepScope.GoMod

open Text

variable {s s' : State} {c : Char} {cs pre a b gap body used rest last : List Char} {t : Token}
  {ts us : List Token} {out items : List Item}

/-! ## Points -/

/-- The point behind a beginning of a file. -/
def Point.behind (pre : List Char) : Point :=
  ⟨pre.count '\n' + 1, (lastLine pre).length + 1, byteLength pre⟩

theorem behind_concat (pre : List Char) (c : Char) :
    Point.behind (pre ++ [c]) = (Point.behind pre).past c := by
  by_cases hc : c = '\n'
  · subst hc
    have hone : '\n'.utf8Size = 1 := rfl
    simp [Point.behind, Point.past, lastLine_concat_feed, byteLength_append, byteLength, hone]
  · have hline : '\n' ∉ [c] := by simpa using Ne.symm hc
    simp [Point.behind, Point.past, hc, lastLine_append hline, byteLength_append, byteLength]

/-! ## Gaps and words -/

/-- What may stand between words: blanks, and comments that run to the end of their line. -/
inductive IsGap : List Char → Prop
  | nil : IsGap []
  | blank {c : Char} {cs : List Char} : isBlank c = true → IsGap cs → IsGap (c :: cs)
  | comment {body cs : List Char} : '\n' ∉ body → IsGap cs →
      IsGap ('/' :: '/' :: body ++ '\n' :: cs)

theorem IsGap.append (ha : IsGap a) (hb : IsGap b) : IsGap (a ++ b) := by
  induction ha with
  | nil => exact hb
  | blank hc _ ih => exact .blank hc ih
  | comment hbody _ ih =>
    have := IsGap.comment hbody ih
    simpa using this

theorem IsGap.concat (ha : IsGap a) (hc : isBlank c = true) : IsGap (a ++ [c]) :=
  ha.append (.blank hc .nil)

/-- Characters of words without quotes, signs apart. -/
def isInner (c : Char) : Bool :=
  !isBlank c && !isSign c && c != '"' && c != backquote

theorem isInner_of_not_breaksWord {next : Option Char} (h : ¬breaksWord c next = true) :
    isInner c = true := by
  simp only [breaksWord, Bool.or_eq_true, decide_eq_true_eq, not_or] at h
  simp [isInner, h]

/-- A word without quotes. -/
inductive IsPlain : List Char → Prop
  | sign {c : Char} : isSign c = true → IsPlain [c]
  | word {w : List Char} : w ≠ [] → (∀ c ∈ w, isInner c = true) → IsPlain w

/-- How a word is written: as it is, in quotes with escapes, or in backquotes. -/
inductive Written : Token → List Char → Prop
  | plain {text : List Char} {place : Stretch} : IsPlain text →
      Written ⟨String.ofList text, false, place⟩ text
  | quoted {text : String} {body : List Char} {place : Stretch} : Json.decodeBody? body = some text →
      Written ⟨text, true, place⟩ ('"' :: body ++ ['"'])
  | backquoted {body : List Char} {place : Stretch} : backquote ∉ body →
      Written ⟨String.ofList body, true, place⟩ (backquote :: body ++ [backquote])

theorem Written.ne_nil (h : Written t a) : a ≠ [] := by
  cases h with
  | plain h =>
    cases h with
    | sign => simp
    | word hne => exact hne
  | quoted | backquoted => simp

/-- Behind a beginning of a file, a text is these words in these places, each with a gap before it. -/
inductive Laid : List Char → List Char → List Token → Prop
  | nil {pre : List Char} : Laid pre [] []
  | cons {pre gap written rest : List Char} {t : Token} {ts : List Token} : IsGap gap →
      Written t written → t.place = ⟨.behind (pre ++ gap), .behind (pre ++ gap ++ written)⟩ →
      Laid (pre ++ gap ++ written) rest ts → Laid pre (gap ++ written ++ rest) (t :: ts)

theorem Laid.append (ha : Laid pre a ts) (hb : Laid (pre ++ a) b us) :
    Laid pre (a ++ b) (ts ++ us) := by
  induction ha with
  | nil => simpa using hb
  | cons hgap hwritten hplace _ ih =>
    have := Laid.cons hgap hwritten hplace (ih (by simpa using hb))
    simpa using this

/-- One word behind a gap. -/
theorem Laid.single (hgap : IsGap gap) (hwritten : Written t a)
    (hplace : t.place = ⟨.behind (pre ++ gap), .behind (pre ++ gap ++ a)⟩) :
    Laid pre (gap ++ a) [t] := by
  simpa using Laid.cons hgap hwritten hplace .nil

/-! ## One character -/

/-- The words among what the machine puts out. -/
def words (items : List Item) : List Token :=
  items.filterMap fun
    | .token t => some t
    | .lineEnd => none

@[simp] theorem words_nil : words [] = [] := rfl

@[simp] theorem words_token (t : Token) (items : List Item) :
    words (.token t :: items) = t :: words items := rfl

@[simp] theorem words_lineEnd (items : List Item) : words (.lineEnd :: items) = words items := rfl

@[simp] theorem words_append (xs ys : List Item) : words (xs ++ ys) = words xs ++ words ys := by
  rw [words, List.filterMap_append]
  rfl

/-- What the machine has read and not put out, behind a beginning of the file and before the rest of
it: a gap, and perhaps a part of a comment or word. -/
inductive Pending (pre : List Char) : State → List Char → List Char → Prop
  | gap {gap rest : List Char} : IsGap gap → Pending pre .gap gap rest
  | comment {gap body rest : List Char} : IsGap gap → '\n' ∉ body → (body ++ rest).head? = some '/' →
      Pending pre .comment (gap ++ '/' :: body) rest
  | word {gap w rest : List Char} : IsGap gap → w ≠ [] → (∀ c ∈ w, isInner c = true) →
      Pending pre (.word (.behind (pre ++ gap)) w) (gap ++ w.reverse) rest
  | quoted {gap w rest : List Char} {escaped : Bool} : IsGap gap →
      Pending pre (.quoted (.behind (pre ++ gap)) w escaped) (gap ++ '"' :: w.reverse) rest
  | backquoted {gap w rest : List Char} : IsGap gap → backquote ∉ w →
      Pending pre (.backquoted (.behind (pre ++ gap)) w) (gap ++ backquote :: w.reverse) rest

/-- One more character behind what is pending: some of it is laid down, the rest is pending. -/
def Advances (pre a : List Char) (c : Char) (cs : List Char) (out : List Item) (s : State) : Prop :=
  ∃ used left, a ++ [c] = used ++ left ∧ Laid pre used (words out) ∧ Pending (pre ++ used) s left cs

/-- Nothing is laid down. -/
theorem Advances.of_pending (h : Pending pre s (a ++ [c]) cs) (hout : words out = []) :
    Advances pre a c cs out s :=
  ⟨[], a ++ [c], rfl, hout ▸ .nil, by simpa using h⟩

/-- All is laid down. -/
theorem Advances.of_laid (h : Laid pre (a ++ [c]) (words out)) : Advances pre a c cs out .gap :=
  ⟨a ++ [c], [], by simp, h, .gap .nil⟩

/-- A word without quotes is laid down where it ends. -/
theorem laid_word {w : List Char} (hgap : IsGap gap) (hne : w ≠ []) (hw : ∀ c ∈ w, isInner c = true)
    (pre : List Char) :
    Laid pre (gap ++ w.reverse) [⟨String.ofList w.reverse, false, .behind (pre ++ gap),
      .behind (pre ++ (gap ++ w.reverse))⟩] := by
  refine .single hgap (.plain (.word (by simpa using hne) (by simpa using hw))) ?_
  rw [List.append_assoc]

/-- A word is laid down before what the character does behind it. -/
theorem Advances.behind_word (h : Laid pre a [t]) (hout : Advances (pre ++ a) [] c cs out s) :
    Advances pre a c cs (.token t :: out) s := by
  obtain ⟨used, left, hcut, hlaid, hpending⟩ := hout
  refine ⟨a ++ used, left, ?_, h.append hlaid, ?_⟩
  · rw [List.append_assoc, ← hcut, List.nil_append]
  · rwa [← List.append_assoc]

theorem fromGap_advances (ha : IsGap a) (pre : List Char) (c : Char) (cs : List Char) :
    Advances pre a c cs (fromGap (.behind (pre ++ a)) c cs.head?).1
      (fromGap (.behind (pre ++ a)) c cs.head?).2 := by
  unfold fromGap
  split
  · next hc => exact .of_pending (.gap (ha.concat (by rw [hc]; decide))) rfl
  split
  · next hc => exact .of_pending (.gap (ha.concat hc)) rfl
  split
  · next hc =>
    simp only [opensComment, Bool.and_eq_true, decide_eq_true_eq, beq_iff_eq] at hc
    obtain ⟨rfl, hnext⟩ := hc
    exact .of_pending (.comment ha (by simp) hnext) rfl
  split
  · next hc =>
    refine .of_laid (.single ha (.plain (.sign hc)) ?_)
    rw [← behind_concat]
  split
  · next hc => exact .of_pending (hc ▸ .quoted (w := []) ha) rfl
  split
  · next hc => exact .of_pending (hc ▸ .backquoted (w := []) ha (by simp)) rfl
  · next hblank _ hsign hquote hback =>
    have hinner : isInner c = true := by simp [isInner, hblank, hsign, hquote, hback]
    exact .of_pending (.word (w := [c]) ha (by simp) (by simpa using hinner)) rfl

/-- A line feed ends a comment, whose two slashes are both behind then. -/
theorem isGap_of_comment (hgap : IsGap gap) (hbody : '\n' ∉ body)
    (hslash : (body ++ '\n' :: cs).head? = some '/') : IsGap (gap ++ '/' :: body ++ ['\n']) := by
  cases body with
  | nil => simp at hslash
  | cons d body =>
    obtain rfl : d = '/' := by simpa using hslash
    have hcomment := IsGap.comment (fun h => hbody (List.mem_cons_of_mem _ h)) .nil
    simpa using hgap.append hcomment

/-- **One character** lays down what it completes. -/
theorem step_advances (h : Pending pre s a (c :: cs))
    (hstep : step s (.behind (pre ++ a)) c cs.head? = .ok (out, s')) :
    Advances pre a c cs out s' := by
  cases h with
  | gap hgap =>
    have hadvances := fromGap_advances hgap pre c cs
    rw [step, Except.ok.injEq] at hstep
    rwa [hstep] at hadvances
  | @comment gap body _ hgap hbody hslash =>
    simp only [step] at hstep
    split at hstep
    · next hc =>
      cases hstep
      subst hc
      exact .of_pending (.gap (isGap_of_comment hgap hbody hslash)) rfl
    · next hc =>
      cases hstep
      have hmore : '\n' ∉ body ++ [c] := by simp [hbody, Ne.symm hc]
      have hnext : (body ++ [c] ++ cs).head? = some '/' := by simpa using hslash
      refine .of_pending ?_ rfl
      simpa using Pending.comment hgap hmore hnext
  | @word gap w _ hgap hne hw =>
    simp only [step] at hstep
    split at hstep
    · cases hstep
      have hadvances := fromGap_advances .nil (pre ++ (gap ++ w.reverse)) c cs
      rw [List.append_nil] at hadvances
      exact .behind_word (laid_word hgap hne hw pre) hadvances
    · next hc =>
      cases hstep
      have hmore : ∀ d ∈ c :: w, isInner d = true :=
        List.forall_mem_cons.mpr ⟨isInner_of_not_breaksWord hc, hw⟩
      refine .of_pending ?_ rfl
      simpa using Pending.word hgap (by simp) hmore
  | @quoted gap w _ escaped hgap =>
    have hmore (e : Bool) : Pending pre (.quoted (.behind (pre ++ gap)) (c :: w) e)
        (gap ++ '"' :: w.reverse ++ [c]) cs := by
      simpa using Pending.quoted (w := c :: w) hgap
    simp only [step] at hstep
    split at hstep
    · cases hstep
    split at hstep
    · cases hstep
      exact .of_pending (hmore true) rfl
    split at hstep
    · next hc =>
      obtain ⟨rfl, -⟩ : c = '"' ∧ escaped = false := by simpa using hc
      split at hstep
      · next text hdecode =>
        cases hstep
        have hword : Laid pre (gap ++ ('"' :: w.reverse ++ ['"'])) [⟨text, true,
            .behind (pre ++ gap), .behind (pre ++ gap ++ ('"' :: w.reverse ++ ['"']))⟩] :=
          .single hgap (.quoted hdecode) rfl
        rw [← behind_concat]
        exact .of_laid (by simpa using hword)
      · cases hstep
    · cases hstep
      exact .of_pending (hmore false) rfl
  | @backquoted gap w _ hgap hw =>
    simp only [step] at hstep
    split at hstep
    · next hc =>
      cases hstep
      subst hc
      have hword : Laid pre (gap ++ (backquote :: w.reverse ++ [backquote]))
          [⟨String.ofList w.reverse, true, .behind (pre ++ gap),
            .behind (pre ++ gap ++ (backquote :: w.reverse ++ [backquote]))⟩] :=
        .single hgap (.backquoted (by simpa using hw)) rfl
      rw [← behind_concat]
      exact .of_laid (by simpa using hword)
    · next hc =>
      cases hstep
      refine .of_pending ?_ rfl
      simpa using Pending.backquoted (w := c :: w) hgap (by simp [hw, Ne.symm hc])

/-! ## The whole file -/

/-- **What the machine reads is laid down**, up to a gap at the end of the file. -/
theorem scan_laid (h : Pending pre s a cs) (hscan : scan s (.behind (pre ++ a)) cs = .ok items) :
    ∃ used last, a ++ cs = used ++ last ∧ Laid pre used (words items) ∧ IsGap (last ++ ['\n']) := by
  induction cs generalizing pre s a items with
  | nil =>
    cases h with
    | gap hgap =>
      cases hscan
      exact ⟨[], a, by simp, .nil, hgap.concat (by decide)⟩
    | @comment gap body _ hgap hbody hslash =>
      cases hscan
      have hbehind : (body ++ '\n' :: []).head? = some '/' := by
        cases body with
        | nil => simp at hslash
        | cons d body => simpa using hslash
      exact ⟨[], gap ++ '/' :: body, by simp, .nil, isGap_of_comment hgap hbody hbehind⟩
    | @word gap w _ hgap hne hw =>
      cases hscan
      exact ⟨gap ++ w.reverse, [], by simp, laid_word hgap hne hw pre, .blank (by decide) .nil⟩
    | quoted | backquoted => cases hscan
  | cons c cs ih =>
    cases hstep : step s (.behind (pre ++ a)) c cs.head? with
    | error e => simp [scan_cons_of_error hstep] at hscan
    | ok r =>
      obtain ⟨out, s'⟩ := r
      obtain ⟨used, left, hcut, hlaid, hpending⟩ := step_advances h hstep
      rw [scan_cons_of_ok hstep, ← behind_concat, List.append_assoc, hcut, ← List.append_assoc] at hscan
      cases hrest : scan s' (.behind (pre ++ used ++ left)) cs with
      | error e =>
        rw [hrest] at hscan
        cases hscan
      | ok rest =>
        rw [hrest] at hscan
        cases hscan
        obtain ⟨used', last, hcut', hlaid', hlast⟩ := ih hpending hrest
        refine ⟨used ++ used', last, ?_, ?_, hlast⟩
        · rw [List.append_assoc, ← hcut', ← List.append_assoc, ← hcut, List.append_assoc]
          rfl
        · rw [words_append]
          exact hlaid.append hlaid'

/-- What a fault of the machine says: there is a quote on the line it names. -/
def Fault.AtQuote (e : Fault) (cs : List Char) : Prop :=
  ∃ before quote after, cs = before ++ quote :: after ∧ (quote = '"' ∨ quote = backquote) ∧
    (e = .unterminatedString (before.count '\n' + 1) ∨ e = .invalidString (before.count '\n' + 1))

/-- A character is refused only inside of quotes, with the line where they start. -/
theorem step_error {p : Point} {next : Option Char} {e : Fault} (h : step s p c next = .error e) :
    ∃ start w escaped, s = .quoted start w escaped ∧
      (e = .unterminatedString start.line ∨ e = .invalidString start.line) := by
  cases s with
  | gap | comment => cases h
  | word => simp only [step] at h; split at h <;> cases h
  | backquoted => simp only [step] at h; split at h <;> cases h
  | quoted start w escaped =>
    refine ⟨start, w, escaped, rfl, ?_⟩
    simp only [step] at h
    repeat' split at h
    all_goals cases h
    · exact .inl rfl
    · exact .inr rfl

/-- **Where the machine fails, there is a quote.** -/
theorem scan_fault {e : Fault} (h : Pending pre s a cs)
    (hscan : scan s (.behind (pre ++ a)) cs = .error e) : e.AtQuote (pre ++ a ++ cs) := by
  induction cs generalizing pre s a with
  | nil =>
    cases h with
    | gap | comment | word => cases hscan
    | @quoted gap w =>
      cases hscan
      exact ⟨pre ++ gap, '"', w.reverse, by simp, .inl rfl, .inl rfl⟩
    | @backquoted gap w =>
      cases hscan
      exact ⟨pre ++ gap, backquote, w.reverse, by simp, .inr rfl, .inl rfl⟩
  | cons c cs ih =>
    cases hstep : step s (.behind (pre ++ a)) c cs.head? with
    | error f =>
      rw [scan_cons_of_error hstep] at hscan
      cases hscan
      obtain ⟨start, w, escaped, rfl, hline⟩ := step_error hstep
      cases h with
      | @quoted gap => exact ⟨pre ++ gap, '"', w.reverse ++ c :: cs, by simp, .inl rfl, hline⟩
    | ok r =>
      obtain ⟨out, s'⟩ := r
      obtain ⟨used, left, hcut, -, hpending⟩ := step_advances h hstep
      rw [scan_cons_of_ok hstep, ← behind_concat, List.append_assoc, hcut, ← List.append_assoc] at hscan
      have hrest : scan s' (.behind (pre ++ used ++ left)) cs = .error e := by
        cases hr : scan s' (.behind (pre ++ used ++ left)) cs with
        | error f =>
          rw [hr] at hscan
          cases hscan
          rfl
        | ok rest =>
          rw [hr] at hscan
          cases hscan
      have hquote := ih hpending hrest
      rw [List.append_assoc pre, ← hcut] at hquote
      simpa using hquote

/-- Gathering words into lines keeps all of them. -/
theorem flatten_gather (items : List Item) : (gather items).flatten = words items := by
  induction items with
  | nil => rfl
  | cons x items ih =>
    cases x with
    | lineEnd => exact ih
    | token t =>
      cases items with
      | nil => rfl
      | cons y items =>
        cases y with
        | lineEnd => exact congrArg (t :: ·) ih
        | token u =>
          obtain ⟨line, lines, hgather⟩ := exists_gather_token u items
          rw [gather_token_token hgather]
          rw [hgather] at ih
          exact congrArg (t :: ·) ih

/-- **The words of a file are laid down in it.** -/
theorem laid_of_tokenize {text : String} {lines : List (List Token)} (h : tokenize text = .ok lines) :
    ∃ used last, text.toList = used ++ last ∧ Laid [] used lines.flatten ∧
      IsGap (last ++ ['\n']) := by
  rw [tokenize] at h
  cases hscan : scan .gap .start text.toList with
  | error e =>
    rw [hscan] at h
    cases h
  | ok items =>
    rw [hscan] at h
    cases h
    rw [flatten_gather]
    have hpending : Pending [] .gap [] text.toList := .gap .nil
    exact scan_laid hpending hscan

/-! ## Places -/

/-- What is known of a point of a file: it is a boundary; its line counts the line feed bytes before
it, as the line index does, and its character those behind the last of them, both from one. -/
structure Point.Right (p : Point) (text : String) : Prop where
  boundary : IsBoundary text.toList p.byte
  line : p.line = ((encode text).take p.byte).count 0x0A + 1
  indexed : p.line = ((LineIndex.ofText text).position p.byte).line + 1
  rune : p.rune = (lastLine (slice text.toList ⟨0, p.byte⟩)).length + 1

/-- From an offset on there are gaps between words, before the first and behind the last. -/
def GapsFrom (cs : List Char) : Nat → List Token → Prop
  | n, [] => IsGap (dropBytes n cs ++ ['\n'])
  | n, t :: ts => IsGap (slice cs ⟨n, t.place.start.byte⟩) ∧ GapsFrom cs t.place.stop.byte ts

/-- **Words and places give the text of a file back.** -/
structure Faithful (text : String) (ts : List Token) : Prop where
  /-- No word is empty. -/
  nonempty : ∀ t ∈ ts, t.place.start.byte < t.place.stop.byte
  /-- Words follow each other. -/
  ascending : ts.Pairwise fun t u => t.place.stop.byte ≤ u.place.start.byte
  /-- What stands in the place of a word is the word, as it is written. -/
  written : ∀ t ∈ ts, Written t (slice text.toList t.place.span)
  /-- There is nothing but blanks and comments between words. -/
  gaps : GapsFrom text.toList 0 ts
  /-- Words start and stop at the points they say. -/
  points : ∀ t ∈ ts, t.place.start.Right text ∧ t.place.stop.Right text

theorem behind_right (pre post : List Char) :
    (Point.behind pre).Right (String.ofList (pre ++ post)) where
  boundary := ⟨pre, post, String.toList_ofList, rfl⟩
  line := by rw [Point.behind, take_encode, count_feed_encoded]
  indexed := by rw [Point.behind, LineIndex.position_byteLength]
  rune := by rw [Point.behind, String.toList_ofList, (standsAt_beginning pre post).slice_eq]

/-- Each word stands in its place. -/
theorem Laid.exists_written (h : Laid pre used ts) (ht : t ∈ ts) :
    ∃ before written after, pre ++ used = before ++ written ++ after ∧ Written t written ∧
      t.place = ⟨.behind before, .behind (before ++ written)⟩ := by
  induction h with
  | nil => cases ht
  | @cons pre gap written rest u us _ hwritten hplace _ ih =>
    obtain rfl | ht := List.mem_cons.mp ht
    · exact ⟨pre ++ gap, written, rest, by simp, hwritten, hplace⟩
    · simpa using ih ht

/-- Words that are laid down follow each other, and the beginning before them. -/
theorem Laid.ascending (h : Laid pre used ts) :
    (∀ t ∈ ts, byteLength pre ≤ t.place.start.byte) ∧
      ts.Pairwise fun t u => t.place.stop.byte ≤ u.place.start.byte := by
  induction h with
  | nil => exact ⟨by simp, .nil⟩
  | @cons pre gap written rest u us _ _ hplace _ ih =>
    have hstop : byteLength (pre ++ gap ++ written) = u.place.stop.byte := by
      rw [hplace]
      rfl
    obtain ⟨hafter, hpairs⟩ := ih
    rw [hstop] at hafter
    refine ⟨fun t ht => ?_, .cons hafter hpairs⟩
    have hle : byteLength pre ≤ u.place.start.byte := by
      rw [hplace]
      simp [Point.behind, byteLength_append]
    obtain rfl | ht := List.mem_cons.mp ht
    · exact hle
    · have hword : u.place.start.byte ≤ u.place.stop.byte := by
        rw [hplace]
        simp [Point.behind, byteLength_append]
      exact Nat.le_trans hle (Nat.le_trans hword (hafter t ht))

theorem Laid.gapsFrom (h : Laid pre used ts) (hlast : IsGap (last ++ ['\n'])) :
    GapsFrom (pre ++ used ++ last) (byteLength pre) ts := by
  induction h with
  | @nil pre =>
    rw [GapsFrom, List.append_nil, dropBytes_byteLength]
    exact hlast
  | @cons pre gap written rest u us hgap _ hplace _ ih =>
    have hstands : StandsAt (pre ++ (gap ++ written ++ rest) ++ last)
        ⟨byteLength pre, u.place.start.byte⟩ gap := by
      refine ⟨pre, written ++ rest ++ last, by simp, ?_⟩
      rw [hplace]
      simp [Point.behind, byteLength_append]
    refine ⟨?_, ?_⟩
    · rw [hstands.slice_eq]
      exact hgap
    · rw [hplace]
      simpa [Point.behind] using ih

/-- **A file that is taken apart can be put together again.** -/
theorem faithful_of_tokenize {text : String} {lines : List (List Token)}
    (h : tokenize text = .ok lines) : Faithful text lines.flatten := by
  obtain ⟨used, last, htext, hlaid, hlast⟩ := laid_of_tokenize h
  have hword {t : Token} (ht : t ∈ lines.flatten) :
      ∃ before written after, text.toList = before ++ written ++ after ∧ Written t written ∧
        t.place = ⟨.behind before, .behind (before ++ written)⟩ := by
    obtain ⟨before, written, after, hcut, hwritten, hplace⟩ := hlaid.exists_written ht
    rw [List.nil_append] at hcut
    exact ⟨before, written, after ++ last, by simp [htext, hcut], hwritten, hplace⟩
  have hstands {t : Token} (ht : t ∈ lines.flatten) :
      ∃ written, Written t written ∧ StandsAt text.toList t.place.span written := by
    obtain ⟨before, written, after, hcut, hwritten, hplace⟩ := hword ht
    refine ⟨written, hwritten, before, after, hcut, ?_⟩
    rw [hplace]
    simp [Stretch.span, Point.behind, byteLength_append]
  constructor
  · intro t ht
    obtain ⟨written, hwritten, hstands⟩ := hstands ht
    exact hstands.start_lt_stop hwritten.ne_nil
  · exact hlaid.ascending.2
  · intro t ht
    obtain ⟨written, hwritten, hstands⟩ := hstands ht
    rw [hstands.slice_eq]
    exact hwritten
  · have hgaps := hlaid.gapsFrom hlast
    rwa [List.nil_append, ← htext] at hgaps
  · intro t ht
    obtain ⟨before, written, after, hcut, -, hplace⟩ := hword ht
    have hstart := behind_right before (written ++ after)
    have hstop := behind_right (before ++ written) after
    rw [← List.append_assoc] at hstart
    rw [← hcut, String.ofList_toList] at hstart hstop
    rw [hplace]
    exact ⟨hstart, hstop⟩

/-- **Every file is taken apart, or refused at a quote.** If words are found, they and their places
give the text back: they are not empty and follow each other, what stands in the place of a word is the
word as it is written, there are only blanks and comments between them, and both ends of a word have the
right line and character. Otherwise there is a quote on the line that is named. -/
theorem tokenize_faithful (text : String) :
    (∃ lines, tokenize text = .ok lines ∧ Faithful text lines.flatten) ∨
      ∃ e, tokenize text = .error e ∧ e.AtQuote text.toList := by
  cases h : tokenize text with
  | ok lines => exact .inl ⟨lines, rfl, faithful_of_tokenize h⟩
  | error e =>
    refine .inr ⟨e, rfl, ?_⟩
    rw [tokenize] at h
    cases hscan : scan .gap .start text.toList with
    | error f =>
      rw [hscan] at h
      cases h
      have hpending : Pending [] .gap [] text.toList := .gap .nil
      exact scan_fault hpending hscan
    | ok items =>
      rw [hscan] at h
      cases h

end DepScope.GoMod
