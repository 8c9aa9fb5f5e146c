import DepScope.Proofs.Pattern.Expansion

/-!
# DepScope.Proofs.Pattern.Backtracking

A pattern read by trying: where a brace opens, the group is read on trial; if it never closes, the
reading goes back to the brace, takes it as text and reads the same characters once more.

The reader (`Source.sequence`, `Source.alternation`) has one position for all calls. By its definition
it may go on for ever, and it fails where it takes a character behind the end. It does neither
(`backtracking_ends`):

1. Each way a call can go on is a rule about what it returns (`Returns`).
2. A position that is moved back is still behind the one where the call began, and what a call
   returns stands no earlier than that. So the characters left carry the induction
   (`sequence_ends`, `alternation_ends`).
3. A group fails exactly if it stays open up to the end of the pattern (`staysOpen`), and then so do
   all groups around it. What was read of an open group is text, as the stack of open groups has it
   (`Released.finish_run_eq`), so both readers come to the same texts.
-/

namespace DepScope.Pattern

/-! ## The reader -/

/-- A character is taken where the text has none. -/
inductive Fault where
  | outOfBounds (i : Nat)

/-- Readers with a position, which may fail, and may never end (`none`). -/
abbrev Backtrack := StateT Nat (ExceptT Fault Option)

/-- The characters of a pattern. -/
abbrev Source := List Char

/-- The character at an index. -/
def Source.charAt (cs : Source) (i : Nat) : Backtrack Char :=
  match cs[i]? with
  | some c => pure c
  | none => throw (.outOfBounds i)

/-- Pieces with the text behind them, if there is any. -/
def flush (items : List Piece) (text : List Char) : List Piece :=
  if text = [] then items else items ++ [.text text]

mutual

/-- Reads pieces from the position on, inside of a group up to its next comma or closing brace. What
has been read are the pieces `items` and the text `text` behind them. -/
def Source.sequence (cs : Source) (nested : Bool) (items : List Piece) (text : List Char) :
    Backtrack (List Piece) := do
  let pos ← get
  if pos < cs.length then
    let c ← cs.charAt pos
    if c = '\\' then
      match cs[pos + 1]? with
      | some next =>
        set (pos + 2)
        cs |>.sequence nested items (text ++ [c, next])
      | none =>
        set (pos + 1)
        cs |>.sequence nested items (text ++ [c])
    else if c = '\x7b' then
      set (pos + 1)
      match ← cs |>.alternation [] with
      | some alternatives =>
        cs |>.sequence nested (flush items text ++ [.choice alternatives]) []
      | none =>
        -- back to the character behind the brace, wherever the trial has ended
        set (pos + 1)
        cs |>.sequence nested items (text ++ ['\x7b'])
    else if nested && (c = ',' || c = '\x7d') then
      return flush items text
    else
      set (pos + 1)
      cs |>.sequence nested items (text ++ [c])
  else
    return flush items text
partial_fixpoint

/-- Reads a group behind its opening brace, with the alternatives that are done already. There is
none if the group never closes. -/
def Source.alternation (cs : Source) (done : List (List Piece)) :
    Backtrack (Option (List (List Piece))) := do
  let alternatives := done ++ [← cs |>.sequence true [] []]
  let pos ← get
  match cs[pos]? with
  | some ',' =>
    set (pos + 1)
    cs |>.alternation alternatives
  | some '\x7d' =>
    set (pos + 1)
    return some alternatives
  | _ => return none
partial_fixpoint

end

mutual

/-- Each text so far with each text of the pieces behind it. -/
def explodeFrom (before : List (List Char)) : List Piece → List (List Char)
  | [] => before
  | .text cs :: ps => explodeFrom (before.flatMap fun a => [a ++ cs]) ps
  | .choice alternatives :: ps =>
    explodeFrom (before.flatMap fun a => (explodeEach alternatives).map (a ++ ·)) ps

/-- The texts of several alternatives, one after the other. -/
def explodeEach : List (List Piece) → List (List Char)
  | [] => []
  | a :: as => explodeFrom [[]] a ++ explodeEach as

end

/-! ## What the reader returns -/

/-- From a position, a reader returns a result and ends at another position. -/
def Returns {α : Type} (m : Backtrack α) (pos : Nat) (a : α) (stop : Nat) : Prop :=
  (m.run pos).run = some (.ok (a, stop))

variable {p : Source} {nested : Bool} {items result : List Piece} {text rest : List Char}
  {pos mid stop : Nat} {c next : Char}

theorem Returns.bind {α β : Type} {m : Backtrack α} {f : α → Backtrack β} {a : α} {b : β}
    (h : Returns m pos a mid) (hf : Returns (f a) mid b stop) : Returns (m >>= f) pos b stop := by
  unfold Returns at h hf ⊢
  rw [StateT.run_bind, ExceptT.run_bind, h]
  exact hf

theorem returns_pure {α : Type} (a : α) (pos : Nat) : Returns (pure a) pos a pos := rfl

theorem returns_get (pos : Nat) : Returns get pos pos pos := rfl

theorem returns_set (pos stop : Nat) : Returns (set stop) pos ⟨⟩ stop := rfl

theorem returns_charAt (h : p[pos]? = some c) (mid : Nat) : Returns (p.charAt pos) mid c mid := by
  rw [Source.charAt, h]
  exact returns_pure c mid

/-- Up to the end of the pattern, the reader looks at the character at its position. -/
theorem getElem?_of_drop (h : p.drop pos = c :: rest) : p[pos]? = some c := by
  rw [← Nat.add_zero pos, ← List.getElem?_drop, h]
  rfl

theorem drop_succ_of_drop (h : p.drop pos = c :: rest) : p.drop (pos + 1) = rest := by
  rw [← List.drop_drop, h]
  rfl

theorem lt_length_of_drop (h : p.drop pos = c :: rest) : pos < p.length :=
  (List.getElem?_eq_some_iff.mp (getElem?_of_drop h)).1

namespace Returns

/-- The pattern ends. -/
theorem ends (h : p.length ≤ pos) :
    Returns (p.sequence nested items text) pos (flush items text) pos := by
  rw [Source.sequence]
  refine (returns_get pos).bind ?_
  rw [if_neg (Nat.not_lt.mpr h)]
  exact returns_pure _ pos

/-- A backslash takes the next character with it. -/
theorem escape (h : p.drop pos = '\\' :: next :: rest)
    (hrest : Returns (p.sequence nested items (text ++ ['\\', next])) (pos + 2) result stop) :
    Returns (p.sequence nested items text) pos result stop := by
  rw [Source.sequence]
  refine (returns_get pos).bind ?_
  rw [if_pos (lt_length_of_drop h)]
  refine (returns_charAt (getElem?_of_drop h) pos).bind ?_
  rw [if_pos rfl, getElem?_of_drop (drop_succ_of_drop h)]
  exact (returns_set pos (pos + 2)).bind hrest

/-- A backslash at the end. -/
theorem lastEscape (h : p.drop pos = ['\\'])
    (hrest : Returns (p.sequence nested items (text ++ ['\\'])) (pos + 1) result stop) :
    Returns (p.sequence nested items text) pos result stop := by
  have hlast : p[pos + 1]? = none := by
    have hlength := congrArg List.length h
    rw [List.length_drop, List.length_singleton] at hlength
    exact List.getElem?_eq_none (by omega)
  rw [Source.sequence]
  refine (returns_get pos).bind ?_
  rw [if_pos (lt_length_of_drop h)]
  refine (returns_charAt (getElem?_of_drop h) pos).bind ?_
  rw [if_pos rfl, hlast]
  exact (returns_set pos (pos + 1)).bind hrest

/-- A group that closes is a piece. -/
theorem group {alternatives : List (List Piece)} (h : p.drop pos = '\x7b' :: rest)
    (hgroup : Returns (p.alternation []) (pos + 1) (some alternatives) mid)
    (hrest : Returns (p.sequence nested (flush items text ++ [.choice alternatives]) []) mid
      result stop) :
    Returns (p.sequence nested items text) pos result stop := by
  rw [Source.sequence]
  refine (returns_get pos).bind ?_
  rw [if_pos (lt_length_of_drop h)]
  refine (returns_charAt (getElem?_of_drop h) pos).bind ?_
  rw [if_neg (by decide), if_pos rfl]
  exact (returns_set pos (pos + 1)).bind (hgroup.bind hrest)

/-- A group that never closes is read once more, behind its brace. -/
theorem unclosed (h : p.drop pos = '\x7b' :: rest)
    (hgroup : Returns (p.alternation []) (pos + 1) none mid)
    (hrest : Returns (p.sequence nested items (text ++ ['\x7b'])) (pos + 1) result stop) :
    Returns (p.sequence nested items text) pos result stop := by
  rw [Source.sequence]
  refine (returns_get pos).bind ?_
  rw [if_pos (lt_length_of_drop h)]
  refine (returns_charAt (getElem?_of_drop h) pos).bind ?_
  rw [if_neg (by decide), if_pos rfl]
  exact (returns_set pos (pos + 1)).bind (hgroup.bind ((returns_set mid (pos + 1)).bind hrest))

/-- Inside of a group, a comma or a closing brace ends the alternative. -/
theorem mark (h : p.drop pos = c :: rest) (hc : c = ',' ∨ c = '\x7d') :
    Returns (p.sequence true items text) pos (flush items text) pos := by
  have hslash : c ≠ '\\' := by
    obtain rfl | rfl := hc <;> decide
  have hopen : c ≠ '\x7b' := by
    obtain rfl | rfl := hc <;> decide
  rw [Source.sequence]
  refine (returns_get pos).bind ?_
  rw [if_pos (lt_length_of_drop h)]
  refine (returns_charAt (getElem?_of_drop h) pos).bind ?_
  rw [if_neg hslash, if_neg hopen, if_pos (by simpa using hc)]
  exact returns_pure _ pos

/-- All else is text. -/
theorem plain (h : p.drop pos = c :: rest) (hslash : c ≠ '\\') (hopen : c ≠ '\x7b')
    (hc : nested = true → c ≠ ',' ∧ c ≠ '\x7d')
    (hrest : Returns (p.sequence nested items (text ++ [c])) (pos + 1) result stop) :
    Returns (p.sequence nested items text) pos result stop := by
  have hmark : ¬(nested && (decide (c = ',') || decide (c = '\x7d'))) = true := by
    cases nested with
    | false => simp
    | true => simpa using hc rfl
  rw [Source.sequence]
  refine (returns_get pos).bind ?_
  rw [if_pos (lt_length_of_drop h)]
  refine (returns_charAt (getElem?_of_drop h) pos).bind ?_
  rw [if_neg hslash, if_neg hopen, if_neg hmark]
  exact (returns_set pos (pos + 1)).bind hrest

variable {done : List (List Piece)} {found : Option (List (List Piece))}

/-- A comma: there is another alternative. -/
theorem comma (hfirst : Returns (p.sequence true [] []) pos result mid)
    (h : p.drop mid = ',' :: rest)
    (hrest : Returns (p.alternation (done ++ [result])) (mid + 1) found stop) :
    Returns (p.alternation done) pos found stop := by
  rw [Source.alternation]
  refine hfirst.bind ((returns_get mid).bind ?_)
  rw [getElem?_of_drop h]
  exact (returns_set mid (mid + 1)).bind hrest

/-- A closing brace: the group is complete. -/
theorem closed (hfirst : Returns (p.sequence true [] []) pos result mid)
    (h : p.drop mid = '\x7d' :: rest) :
    Returns (p.alternation done) pos (some (done ++ [result])) (mid + 1) := by
  rw [Source.alternation]
  refine hfirst.bind ((returns_get mid).bind ?_)
  rw [getElem?_of_drop h]
  exact (returns_set mid (mid + 1)).bind (returns_pure _ _)

/-- The end of the pattern: the group never closes. -/
theorem runsOut (hfirst : Returns (p.sequence true [] []) pos result mid) (h : p.drop mid = []) :
    Returns (p.alternation done) pos none mid := by
  rw [Source.alternation]
  refine hfirst.bind ((returns_get mid).bind ?_)
  rw [List.getElem?_eq_none (List.drop_eq_nil_iff.mp h)]
  exact returns_pure none mid

end Returns

/-! ## Groups that stay open -/

/-- Does a group stay open up to the end of the text, with so many groups open inside of it? -/
def staysOpen : Nat → List Char → Bool
  | _, [] => true
  | depth, '\\' :: _ :: cs => staysOpen depth cs
  | depth, c :: cs =>
    if c = '\x7b' then staysOpen (depth + 1) cs
    else if c = '\x7d' then depth ≠ 0 && staysOpen (depth - 1) cs
    else staysOpen depth cs

variable {cs after : List Char} {ps : List Piece} {depth : Nat}

theorem staysOpen_escape (c : Char) : staysOpen depth ('\\' :: c :: cs) = staysOpen depth cs := rfl

theorem staysOpen_opening : staysOpen depth ('\x7b' :: cs) = staysOpen (depth + 1) cs := by
  rw [staysOpen, if_pos rfl]
  simp

theorem staysOpen_closing_zero : staysOpen 0 ('\x7d' :: cs) = false := by
  rw [staysOpen, if_neg (by decide), if_pos rfl] <;> simp

theorem staysOpen_closing_succ : staysOpen (depth + 1) ('\x7d' :: cs) = staysOpen depth cs := by
  rw [staysOpen, if_neg (by decide), if_pos rfl] <;> simp

/-- A character that is no brace and escapes nothing. -/
theorem staysOpen_plain (hslash : c = '\\' → cs = []) (hopen : c ≠ '\x7b') (hclose : c ≠ '\x7d') :
    staysOpen depth (c :: cs) = staysOpen depth cs := by
  rw [staysOpen, if_neg hopen, if_neg hclose]
  intro d ds hc hcs
  exact absurd (hcs.symm.trans (hslash hc)) (by simp)

/-- What is left open is left open with more groups inside of it. -/
theorem staysOpen_succ (h : staysOpen depth cs = true) : staysOpen (depth + 1) cs = true := by
  fun_induction staysOpen depth cs with
  | case1 => rfl
  | case2 depth d cs ih => exact ih h
  | case3 depth cs hslash ih =>
    rw [staysOpen_opening]
    exact ih h
  | case4 depth cs hslash hopen ih =>
    obtain ⟨hdepth, h⟩ := Bool.and_eq_true _ _ ▸ h
    obtain ⟨n, rfl⟩ := Nat.exists_eq_succ_of_ne_zero (of_decide_eq_true hdepth)
    rw [staysOpen_closing_succ]
    exact ih h
  | case5 depth c cs hslash hopen hclose ih =>
    rw [staysOpen_plain (fun hc => ?_) hopen hclose]
    · exact ih h
    · cases cs with
      | nil => rfl
      | cons d ds => exact (hslash d ds hc rfl).elim

theorem staysOpen_of_zero (h : staysOpen 0 cs = true) (depth : Nat) :
    staysOpen depth cs = true := by
  induction depth with
  | zero => exact h
  | succ depth ih => exact staysOpen_succ ih

/-- Two readings of the same characters: the outermost group that is open in the one is text in the
other, and `depth` groups are open inside of it. -/
def Released (depth : Nat) (r r' : Reading) : Prop :=
  ∃ outer g gs, gs.length = depth ∧ r = ⟨outer, gs ++ [g]⟩ ∧
    r' = ⟨g.unclosed.reverse ++ outer, gs⟩

namespace Released

variable {r r' : Reading}

theorem finish_eq (h : Released depth r r') : r.finish = r'.finish := by
  obtain ⟨outer, g, gs, -, rfl, rfl⟩ := h
  simp [Reading.finish]

theorem push (h : Released depth r r') (p : Piece) : Released depth (r.push p) (r'.push p) := by
  obtain ⟨outer, g, gs, rfl, rfl, rfl⟩ := h
  cases gs with
  | nil =>
    refine ⟨outer, g.push p, [], rfl, rfl, ?_⟩
    simp [Reading.push, Group.unclosed, Group.alternatives_eq, Group.push,
      joinAlternatives_concat_append]
  | cons g' gs => exact ⟨outer, g, g'.push p :: gs, rfl, rfl, rfl⟩

theorem openGroup (h : Released depth r r') : Released (depth + 1) r.openGroup r'.openGroup := by
  obtain ⟨outer, g, gs, rfl, rfl, rfl⟩ := h
  exact ⟨outer, g, ⟨[], []⟩ :: gs, rfl, rfl, rfl⟩

theorem comma (h : Released depth r r') : Released depth r.comma r'.comma := by
  obtain ⟨outer, g, gs, rfl, rfl, rfl⟩ := h
  cases gs with
  | nil =>
    have hjoin := joinAlternatives_concat_nil g.done.reverse g.current.reverse
    refine ⟨outer, g.next, [], rfl, rfl, ?_⟩
    simp [Reading.comma, Reading.push, Group.unclosed, Group.alternatives_eq, Group.next] at hjoin ⊢
    simp [hjoin]
  | cons g' gs => exact ⟨outer, g, g'.next :: gs, rfl, rfl, rfl⟩

/-- The groups inside may close. -/
theorem closeGroup (h : Released (depth + 1) r r') : Released depth r.closeGroup r'.closeGroup := by
  obtain ⟨outer, g, gs, hdepth, rfl, rfl⟩ := h
  obtain ⟨g', gs, rfl⟩ := List.exists_cons_of_length_eq_add_one hdepth
  exact push ⟨outer, g, gs, Nat.succ.inj hdepth, rfl, rfl⟩ (.choice g'.alternatives)

/-- As long as the outermost group stays open, both readings come to the same pieces. -/
theorem finish_run_eq (h : Released depth r r') (hcs : staysOpen depth cs = true) :
    (r.run cs).finish = (r'.run cs).finish := by
  fun_induction staysOpen depth cs generalizing r r' with
  | case1 => exact h.finish_eq
  | case2 depth c cs ih => exact ih (h.push _) hcs
  | case3 depth cs hslash ih =>
    rw [Reading.run_cons (by decide), Reading.run_cons (by decide)]
    exact ih h.openGroup hcs
  | case4 depth cs hslash hopen ih =>
    obtain ⟨hdepth, hcs⟩ := Bool.and_eq_true _ _ ▸ hcs
    obtain ⟨n, rfl⟩ := Nat.exists_eq_succ_of_ne_zero (of_decide_eq_true hdepth)
    rw [Reading.run_cons (by decide), Reading.run_cons (by decide)]
    exact ih h.closeGroup hcs
  | case5 depth c cs hslash hopen hclose ih =>
    by_cases hlone : c = '\\'
    · subst hlone
      cases cs with
      | nil => exact (h.push _).finish_eq
      | cons d ds => exact (hslash d ds rfl rfl).elim
    · rw [Reading.run_cons hlone, Reading.run_cons hlone, Reading.take, Reading.take, if_neg hopen,
        if_neg hopen, if_neg hclose, if_neg hclose]
      by_cases hcomma : c = ','
      · rw [if_pos hcomma, if_pos hcomma]
        exact ih h.comma hcs
      · rw [if_neg hcomma, if_neg hcomma]
        exact ih (h.push _) hcs

end Released

/-- **A group that never closes** reads like its opening brace as text, and what follows. -/
theorem finish_opening (outer : List Piece) (hcs : staysOpen 0 cs = true) :
    ((Reading.mk outer []).run ('\x7b' :: cs)).finish =
      ((Reading.mk (.text ['\x7b'] :: outer) []).run cs).finish := by
  rw [Reading.run_cons (by decide)]
  exact Released.finish_run_eq ⟨outer, ⟨[], []⟩, [], rfl, rfl, rfl⟩ hcs

/-! ## Both readers -/

/-- What the pieces between two places of a pattern are for a reading with a stack of open groups.
Outside of groups they are all that follows. Inside of a group they end at a mark of this group or
with the pattern, and unless the group stays open they are added to the alternative being read. -/
def Follows : Bool → List Char → List Char → List Piece → Prop
  | false, cs, after, ps =>
    after = [] ∧ ∀ outer, ((Reading.mk outer []).run cs).finish = outer.reverse ++ ps
  | true, cs, after, ps =>
    (after = [] ∨ ∃ c rest, after = c :: rest ∧ (c = ',' ∨ c = '\x7d')) ∧
      (∀ depth, staysOpen depth cs = staysOpen depth after) ∧
      (staysOpen 0 after = false → ∀ outer g gs, (Reading.mk outer (g :: gs)).run cs =
        (Reading.mk outer (⟨g.done, ps.reverse ++ g.current⟩ :: gs)).run after)

theorem follows_end (nested : Bool) : Follows nested [] [] [] := by
  cases nested with
  | false => exact ⟨rfl, fun outer => by simp [Reading.run, Reading.finish]⟩
  | true => exact ⟨.inl rfl, fun _ => rfl, fun _ _ _ _ => rfl⟩

theorem follows_mark (hc : c = ',' ∨ c = '\x7d') (cs : List Char) :
    Follows true (c :: cs) (c :: cs) [] :=
  ⟨.inr ⟨c, cs, rfl, hc⟩, fun _ => rfl, fun _ _ _ _ => rfl⟩

/-- A piece in front, which is pushed where the reading stands. -/
theorem Follows.push {q : Piece} {cs' : List Char} (h : Follows nested cs' after ps)
    (hrun : ∀ r : Reading, nested = true ∨ r.groups = [] → r.run cs = (r.push q).run cs')
    (hopen : nested = true → ∀ depth, staysOpen depth cs = staysOpen depth cs') :
    Follows nested cs after (q :: ps) := by
  cases nested with
  | false =>
    refine ⟨h.1, fun outer => ?_⟩
    rw [hrun _ (.inr rfl)]
    exact (h.2 (q :: outer)).trans (by simp)
  | true =>
    refine ⟨h.1, fun depth => (hopen rfl depth).trans (h.2.1 depth), fun hafter outer g gs => ?_⟩
    rw [hrun _ (.inl rfl)]
    exact (h.2.2 hafter outer (g.push q) gs).trans (by simp [Group.push])

/-- A brace in front, whose group never closes. The group around stays open as well. -/
theorem Follows.unclosed (h : Follows nested cs after ps) (hcs : staysOpen 0 cs = true) :
    Follows nested ('\x7b' :: cs) after (.text ['\x7b'] :: ps) := by
  cases nested with
  | false =>
    refine ⟨h.1, fun outer => ?_⟩
    rw [finish_opening outer hcs]
    exact (h.2 _).trans (by simp)
  | true =>
    refine ⟨h.1, fun depth => ?_, fun hafter => ?_⟩
    · rw [← h.2.1, staysOpen_opening, staysOpen_of_zero hcs, staysOpen_of_zero hcs]
    · rw [← h.2.1, hcs] at hafter
      cases hafter

/-- A group is open in front of a text and closes in it: `after` follows its closing brace. -/
structure Closes (cs after : List Char) (alternatives : List (List Piece)) : Prop where
  closes : staysOpen 0 cs = false
  around : ∀ depth, staysOpen (depth + 1) cs = staysOpen depth after
  run : ∀ outer done gs, (Reading.mk outer (⟨done, []⟩ :: gs)).run cs =
    ((Reading.mk outer gs).push (.choice (done.reverse ++ alternatives))).run after

theorem Follows.closes (h : Follows true cs ('\x7d' :: after) ps) : Closes cs after [ps] where
  closes := by rw [h.2.1, staysOpen_closing_zero]
  around depth := by rw [h.2.1, staysOpen_closing_succ]
  run outer done gs := by
    rw [h.2.2 staysOpen_closing_zero, Reading.run_cons (by decide)]
    simp [Reading.take, Reading.closeGroup, Group.alternatives]

theorem Follows.comma {cs' : List Char} {as : List (List Piece)} (h : Follows true cs (',' :: cs') ps)
    (hrest : Closes cs' after as) : Closes cs after (ps :: as) := by
  have hcomma (depth : Nat) : staysOpen depth (',' :: cs') = staysOpen depth cs' :=
    staysOpen_plain (fun hc => absurd hc (by decide)) (by decide) (by decide)
  refine ⟨?_, fun depth => ?_, fun outer done gs => ?_⟩
  · rw [h.2.1, hcomma, hrest.closes]
  · rw [h.2.1, hcomma, hrest.around]
  · have hnext : (Reading.mk outer (⟨done, ps.reverse ++ []⟩ :: gs)).take ',' =
        ⟨outer, ⟨ps :: done, []⟩ :: gs⟩ := by
      simp [Reading.take, Reading.comma, Group.next]
    rw [h.2.2 (by rw [hcomma, hrest.closes]), Reading.run_cons (by decide), hnext, hrest.run]
    simp

/-! ### Texts of pieces -/

theorem expandAll_flush (items : List Piece) (text : List Char) (ps : List Piece) :
    expandAll (flush items text ++ ps) = expandAll (items ++ .text text :: ps) := by
  unfold flush
  split
  · next h => simp [h, expandAll_append, expandAll, Piece.expand]
  · simp

theorem expandAll_text_append (items : List Piece) (a b : List Char) (ps : List Piece) :
    expandAll (items ++ .text (a ++ b) :: ps) =
      expandAll (items ++ .text a :: .text b :: ps) := by
  simp [expandAll_append, expandAll, Piece.expand, Function.comp_def]

theorem expandAll_choice_congr {as bs : List (List Piece)} (h : expandEach as = expandEach bs)
    (items ps : List Piece) :
    expandAll (items ++ .choice as :: ps) = expandAll (items ++ .choice bs :: ps) := by
  simp [expandAll_append, expandAll, Piece.expand, h]

/-! ### The end of each call -/

/-- A call that reads pieces returns. It ends no earlier than it began, and its pieces stand for the
same texts as those that follow for the stack of open groups. -/
def SequenceEnds (p : Source) (nested : Bool) (items : List Piece) (text : List Char)
    (pos : Nat) : Prop :=
  ∃ result stop ps, Returns (p.sequence nested items text) pos result stop ∧
    pos ≤ stop ∧ stop ≤ max pos p.length ∧ Follows nested (p.drop pos) (p.drop stop) ps ∧
    expandAll result = expandAll (items ++ .text text :: ps)

/-- A call that reads a group returns: nothing if the group stays open, else the alternatives up to
the place behind its closing brace. -/
def AlternationEnds (p : Source) (done : List (List Piece)) (pos : Nat) : Prop :=
  ∃ found stop, Returns (p.alternation done) pos found stop ∧ pos ≤ stop ∧
    stop ≤ max pos p.length ∧
    (found = none ∧ staysOpen 0 (p.drop pos) = true ∨
      ∃ alternatives as, found = some alternatives ∧ Closes (p.drop pos) (p.drop stop) as ∧
        expandEach alternatives = expandEach (done ++ as))

theorem run_text {r : Reading} (hslash : c ≠ '\\') (hopen : c ≠ '\x7b')
    (hmark : c = ',' ∨ c = '\x7d' → r.groups = []) :
    r.run (c :: rest) = (r.push (.text [c])).run rest := by
  have htake : r.take c = r.push (.text [c]) := by
    unfold Reading.take
    rw [if_neg hopen]
    split
    · next hcomma => rw [Reading.comma, hmark (.inl hcomma), hcomma]
    · split
      · next hclose => rw [Reading.closeGroup, hmark (.inr hclose), hclose]
      · rfl
  rw [Reading.run_cons hslash, htake]

namespace SequenceEnds

/-- Text in front: the call goes on behind it. -/
theorem behind {w : List Char} (hdrop : p.drop pos = w ++ rest)
    (hreturns : ∀ result stop, Returns (p.sequence nested items (text ++ w)) (pos + w.length)
      result stop → Returns (p.sequence nested items text) pos result stop)
    (hrun : ∀ r : Reading, nested = true ∨ r.groups = [] →
      r.run (w ++ rest) = (r.push (.text w)).run rest)
    (hopen : nested = true → ∀ depth, staysOpen depth (w ++ rest) = staysOpen depth rest)
    (h : SequenceEnds p nested items (text ++ w) (pos + w.length)) :
    SequenceEnds p nested items text pos := by
  obtain ⟨result, stop, ps, hret, hle, hmax, hfollows, hexpand⟩ := h
  have hrest : p.drop (pos + w.length) = rest := by
    rw [← List.drop_drop, hdrop, List.drop_left]
  have hbound : pos + w.length ≤ max pos p.length := by
    have hlength := congrArg List.length hdrop
    rw [List.length_drop, List.length_append] at hlength
    omega
  rw [hrest] at hfollows
  refine ⟨result, stop, .text w :: ps, hreturns _ _ hret, by omega, by omega, ?_, ?_⟩
  · rw [hdrop]
    exact hfollows.push hrun hopen
  · rw [hexpand, expandAll_text_append]

/-- A group that stays open in front: the call goes back to behind its brace. -/
theorem unclosed (hdrop : p.drop pos = '\x7b' :: rest)
    (hgroup : Returns (p.alternation []) (pos + 1) none mid) (hrest : staysOpen 0 rest = true)
    (h : SequenceEnds p nested items (text ++ ['\x7b']) (pos + 1)) :
    SequenceEnds p nested items text pos := by
  obtain ⟨result, stop, ps, hret, hle, hmax, hfollows, hexpand⟩ := h
  have hpos := lt_length_of_drop hdrop
  rw [drop_succ_of_drop hdrop] at hfollows
  refine ⟨result, stop, .text ['\x7b'] :: ps, .unclosed hdrop hgroup hret, by omega, by omega, ?_,
    ?_⟩
  · rw [hdrop]
    exact hfollows.unclosed hrest
  · rw [hexpand, expandAll_text_append]

/-- A group that closes in front: the call goes on behind it. -/
theorem group {alternatives as : List (List Piece)} (hdrop : p.drop pos = '\x7b' :: rest)
    (hgroup : Returns (p.alternation []) (pos + 1) (some alternatives) mid)
    (hle : pos + 1 ≤ mid) (hmax : mid ≤ max (pos + 1) p.length)
    (hcloses : Closes rest (p.drop mid) as) (halts : expandEach alternatives = expandEach as)
    (h : SequenceEnds p nested (flush items text ++ [.choice alternatives]) [] mid) :
    SequenceEnds p nested items text pos := by
  obtain ⟨result, stop, ps, hret, hstop, hend, hfollows, hexpand⟩ := h
  have hpos := lt_length_of_drop hdrop
  refine ⟨result, stop, .choice as :: ps, .group hdrop hgroup hret, by omega, by omega, ?_, ?_⟩
  · rw [hdrop]
    refine hfollows.push (fun r _ => ?_) fun _ depth => ?_
    · rw [Reading.run_cons (by decide)]
      exact hcloses.run r.outer [] r.groups
    · rw [staysOpen_opening, hcloses.around]
  · rw [hexpand, ← expandAll_flush, flush, if_pos rfl, List.append_assoc, expandAll_flush]
    have hchoice := expandAll_choice_congr halts (items ++ [.text text]) ps
    simpa using hchoice

end SequenceEnds

mutual

/-- **Reading pieces comes to an end.** The measure is the number of characters left, and at the same
place a call for a group comes before that for its pieces. -/
theorem sequence_ends (p : Source) (nested : Bool) (items : List Piece) (text : List Char)
    (pos : Nat) : SequenceEnds p nested items text pos := by
  cases hdrop : p.drop pos with
  | nil =>
    have hpos := List.drop_eq_nil_iff.mp hdrop
    refine ⟨_, pos, [], .ends hpos, Nat.le_refl pos, Nat.le_max_left .., ?_, ?_⟩
    · rw [hdrop]
      exact follows_end nested
    · rw [← expandAll_flush, List.append_nil]
  | cons c rest =>
    have hpos := lt_length_of_drop hdrop
    by_cases hslash : c = '\\'
    · subst hslash
      cases rest with
      | nil =>
        exact .behind (w := ['\\']) hdrop (fun _ _ => .lastEscape hdrop) (fun _ _ => rfl)
          (fun _ _ => staysOpen_plain (fun _ => rfl) (by decide) (by decide))
          (sequence_ends p nested items _ _)
      | cons next rest =>
        exact .behind (w := ['\\', next]) hdrop (fun _ _ => .escape hdrop) (fun _ _ => rfl)
          (fun _ _ => staysOpen_escape next) (sequence_ends p nested items _ _)
    · by_cases hopen : c = '\x7b'
      · subst hopen
        obtain ⟨found, mid, hgroup, hle, hmax, hfound⟩ := alternation_ends p [] (pos + 1)
        rw [drop_succ_of_drop hdrop] at hfound
        obtain ⟨rfl, hrest⟩ | ⟨alternatives, as, rfl, hcloses, halts⟩ := hfound
        · exact .unclosed hdrop hgroup hrest (sequence_ends p nested items _ (pos + 1))
        · exact .group hdrop hgroup hle hmax hcloses halts (sequence_ends p nested _ [] mid)
      · by_cases hmark : nested = true ∧ (c = ',' ∨ c = '\x7d')
        · obtain ⟨rfl, hmark⟩ := hmark
          refine ⟨_, pos, [], .mark hdrop hmark, Nat.le_refl pos, Nat.le_max_left .., ?_, ?_⟩
          · rw [hdrop]
            exact follows_mark hmark rest
          · rw [← expandAll_flush, List.append_nil]
        · have hplain (hnested : nested = true) : c ≠ ',' ∧ c ≠ '\x7d' :=
            not_or.mp fun h => hmark ⟨hnested, h⟩
          refine .behind (w := [c]) hdrop (fun _ _ => .plain hdrop hslash hopen hplain)
            (fun r hr => run_text hslash hopen fun hc => ?_)
            (fun hnested _ => staysOpen_plain (fun hc => absurd hc hslash) hopen (hplain hnested).2)
            (sequence_ends p nested items _ _)
          exact hr.resolve_left fun hnested => hmark ⟨hnested, hc⟩
termination_by (p.length - pos, 0)

theorem alternation_ends (p : Source) (done : List (List Piece)) (pos : Nat) :
    AlternationEnds p done pos := by
  obtain ⟨result, mid, ps, hfirst, hle, hmax, hfollows, hexpand⟩ := sequence_ends p true [] [] pos
  have hps : expandAll result = expandAll ps := by
    rw [hexpand, ← expandAll_flush]
    rfl
  obtain hdrop | ⟨c, rest, hdrop, rfl | rfl⟩ := hfollows.1
  · refine ⟨none, mid, .runsOut hfirst hdrop, hle, hmax, .inl ⟨rfl, ?_⟩⟩
    rw [hfollows.2.1, hdrop]
    rfl
  · have hmid := lt_length_of_drop hdrop
    obtain ⟨found, stop, hrest, hstop, hend, hfound⟩ :=
      alternation_ends p (done ++ [result]) (mid + 1)
    rw [drop_succ_of_drop hdrop] at hfound
    rw [hdrop] at hfollows
    refine ⟨found, stop, .comma hfirst hdrop hrest, by omega, by omega, ?_⟩
    obtain ⟨rfl, hopen⟩ | ⟨alternatives, as, rfl, hcloses, halts⟩ := hfound
    · refine .inl ⟨rfl, ?_⟩
      rw [hfollows.2.1,
        staysOpen_plain (fun hc => absurd hc (by decide)) (by decide) (by decide), hopen]
    · refine .inr ⟨alternatives, ps :: as, rfl, hfollows.comma hcloses, ?_⟩
      rw [halts]
      simp [expandEach_append, expandEach, hps]
  · have hmid := lt_length_of_drop hdrop
    rw [hdrop] at hfollows
    refine ⟨_, mid + 1, .closed hfirst hdrop, by omega, by omega, .inr ⟨_, [ps], rfl, ?_, ?_⟩⟩
    · rw [drop_succ_of_drop hdrop]
      exact hfollows.closes
    · simp [expandEach_append, expandEach, hps]
termination_by (p.length - pos, 1)

end

/-! ### Texts, one piece after the other -/

mutual

/-- Texts multiplied out piece by piece are those of the sequence. -/
theorem explodeFrom_eq (before : List (List Char)) : (ps : List Piece) →
    explodeFrom before ps = before.flatMap fun a => (expandAll ps).map (a ++ ·)
  | [] => by simp [explodeFrom, expandAll]
  | .text cs :: ps => by
    rw [explodeFrom, explodeFrom_eq _ ps]
    simp [expandAll, Piece.expand, List.flatMap_assoc, Function.comp_def]
  | .choice alternatives :: ps => by
    rw [explodeFrom, explodeFrom_eq _ ps, explodeEach_eq alternatives]
    simp [expandAll, Piece.expand, List.flatMap_assoc, List.flatMap_map, List.map_flatMap,
      Function.comp_def]

theorem explodeEach_eq : (as : List (List Piece)) → explodeEach as = expandEach as
  | [] => by rw [explodeEach, expandEach]
  | a :: as => by
    rw [explodeEach, expandEach, explodeFrom_eq _ a, explodeEach_eq as]
    simp

end

/-! ## Patterns that are text -/

/-- A pattern without closing braces, or without opening ones, stands for itself. -/
theorem expand_of_unpaired (h : '\x7d' ∉ specials p ∨ '\x7b' ∉ specials p) : expand p = [p] := by
  have hspent {cs : List Char} (h : '\x7d' ∉ specials cs ∨ '\x7b' ∉ specials cs) :
      Spent (specials cs) := by
    obtain hclose | hopen := h
    · exact ⟨[], specials cs, rfl, by simp, hclose⟩
    · exact ⟨specials cs, [], by simp, hopen, by simp⟩
  by_cases hp : Whole p
  · exact expand_of_spent hp (hspent h)
  · obtain ⟨cs, hcs, rfl⟩ := exists_of_not_whole p hp
    have hspecials : specials (cs ++ ['\\']) = specials cs := by
      rw [specials_append hcs]
      exact List.append_nil _
    rw [hspecials] at h
    rw [expand_concat_backslash hcs, expand_of_spent hcs (hspent h)]
    rfl

/-- **Reading by trial ends and falls back to text.** From any place, inside of a group or outside of
all groups, both readers return without taking a character behind the end, although a group that
never closes is read again. From the start they read the whole pattern, to pieces whose texts are
those of the pattern; there is one at least, and if the pattern has no closing brace, or no opening
one, it is the pattern itself. -/
theorem backtracking_ends (p : Source) :
    (∀ nested items text pos, ∃ result stop,
      ((p.sequence nested items text).run pos).run = some (.ok (result, stop))) ∧
    (∀ done pos, ∃ found stop,
      ((p.alternation done).run pos).run = some (.ok (found, stop))) ∧
    (∃ items, ((p.sequence false [] []).run 0).run = some (.ok (items, p.length)) ∧
      explodeFrom [[]] items = expand p) ∧
    expand p ≠ [] ∧
    ('\x7d' ∉ specials p ∨ '\x7b' ∉ specials p → expand p = [p]) := by
  refine ⟨fun nested items text pos => ?_, fun done pos => ?_, ?_, expand_ne_nil p,
    expand_of_unpaired⟩
  · obtain ⟨result, stop, -, hret, -⟩ := sequence_ends p nested items text pos
    exact ⟨result, stop, hret⟩
  · obtain ⟨found, stop, hret, -⟩ := alternation_ends p done pos
    exact ⟨found, stop, hret⟩
  · obtain ⟨items, stop, ps, hret, -, hmax, hfollows, hexpand⟩ := sequence_ends p false [] [] 0
    have hstop := List.drop_eq_nil_iff.mp hfollows.1
    obtain rfl : stop = p.length := by omega
    refine ⟨items, hret, ?_⟩
    rw [explodeFrom_eq, hexpand, ← expandAll_flush, expand, pieces]
    simpa [flush] using congrArg expandAll (hfollows.2 []).symm

/-- Groups that never close, one inside of the other, and a closing brace that is escaped. -/
theorem backtracking_ends_of_unclosed :
    '\x7d' ∉ specials "\x7b\x7ba,\x7bb\\\x7d".toList ∧
      expand "\x7b\x7ba,\x7bb\\\x7d".toList = ["\x7b\x7ba,\x7bb\\\x7d".toList] := by
  have h : '\x7d' ∉ specials "\x7b\x7ba,\x7bb\\\x7d".toList := by decide +kernel
  exact ⟨h, (backtracking_ends _).2.2.2.2 (.inl h)⟩

end DepScope.Pattern
