import DepScope.Proofs.Pattern.Expansion

/-!
# DepScope.Proofs.Pattern.Terms

Patterns that are written out from a tree.

A `Term` is text, or a choice between one or more sequences of terms; text consists of plain characters
and of escapes. It is written with the alternatives of a choice in braces and commas between them
(`render`), and stands for every way to take one alternative of each choice (`texts`).

1. What is written for terms is read as pieces where the reading stands, whatever groups are open there
   and whatever follows (`run_renderAll`).
2. So a pattern that is written out from terms stands for the texts of the terms, in their order and as
   often as they occur there (`expand_renderAll`).
-/

namespace DepScope.Pattern

/-! ## Terms -/

/-- A character that stands for itself, or a backslash with the character it escapes. -/
inductive Mark where
  | plain (c : Char) (notBackslash : c ≠ '\\') (notSpecial : isSpecial c = false)
  | escape (c : Char)

/-- How a mark is written. -/
def Mark.render : Mark → List Char
  | .plain c _ _ => [c]
  | .escape c => ['\\', c]

/-- A pattern as a tree. A choice has at least one alternative; an alternative may be empty. -/
inductive Term where
  | text (marks : List Mark)
  | choice (first : List Term) (others : List (List Term))

mutual

/-- How a term is written. -/
def Term.render : Term → List Char
  | .text marks => marks.flatMap Mark.render
  | .choice first others => '\x7b' :: renderAll first ++ renderOthers others ++ ['\x7d']

/-- How a sequence of terms is written. -/
def renderAll : List Term → List Char
  | [] => []
  | t :: ts => t.render ++ renderAll ts

/-- How the further alternatives of a choice are written, each behind a comma. -/
def renderOthers : List (List Term) → List Char
  | [] => []
  | a :: as => ',' :: renderAll a ++ renderOthers as

end

mutual

/-- The texts of a term: text is kept as it is written, a choice is each of its alternatives. -/
def Term.texts : Term → List (List Char)
  | .text marks => [marks.flatMap Mark.render]
  | .choice first others => textsAll first ++ textsEach others

/-- The texts of a sequence: a text of its first term before a text of the others, in all ways, the
first term varying slowest. -/
def textsAll : List Term → List (List Char)
  | [] => [[]]
  | t :: ts => t.texts.flatMap fun x => (textsAll ts).map fun y => x ++ y

/-- The texts of several alternatives, one after the other. -/
def textsEach : List (List Term) → List (List Char)
  | [] => []
  | a :: as => textsAll a ++ textsEach as

end

/-! ## Reading -/

mutual

/-- The pieces that a term is read as. -/
def Term.pieces : Term → List Piece
  | .text marks => marks.map fun m => .text m.render
  | .choice first others => [.choice (piecesAll first :: piecesEach others)]

/-- The pieces of a sequence of terms. -/
def piecesAll : List Term → List Piece
  | [] => []
  | t :: ts => t.pieces ++ piecesAll ts

/-- The pieces of several alternatives. -/
def piecesEach : List (List Term) → List (List Piece)
  | [] => []
  | a :: as => piecesAll a :: piecesEach as

end

namespace Reading

/-- Adds pieces one after the other where the reading stands. -/
def pushAll (r : Reading) (ps : List Piece) : Reading :=
  ps.foldl push r

theorem pushAll_append (r : Reading) (ps qs : List Piece) :
    r.pushAll (ps ++ qs) = (r.pushAll ps).pushAll qs :=
  List.foldl_append

/-- Inside of a group, pieces are added to the alternative being read. -/
theorem pushAll_group (outer : List Piece) (g : Group) (gs : List Group) (ps : List Piece) :
    (Reading.mk outer (g :: gs)).pushAll ps = ⟨outer, ⟨g.done, ps.reverse ++ g.current⟩ :: gs⟩ := by
  induction ps generalizing g with
  | nil => rfl
  | cons p ps ih =>
    have hpush : (Reading.mk outer (g :: gs)).push p = ⟨outer, ⟨g.done, p :: g.current⟩ :: gs⟩ := rfl
    have hrest := ih ⟨g.done, p :: g.current⟩
    simpa [pushAll, hpush] using hrest

/-- Outside of groups, pieces are what the pattern consists of. -/
theorem finish_pushAll (ps : List Piece) : ((Reading.mk [] []).pushAll ps).finish = ps := by
  have hpush (outer : List Piece) :
      (Reading.mk outer []).pushAll ps = ⟨ps.reverse ++ outer, []⟩ := by
    induction ps generalizing outer with
    | nil => rfl
    | cons p ps ih => simpa [pushAll, push] using ih (p :: outer)
  simp [hpush, finish]

/-- A mark is read as a piece of text. -/
theorem run_mark (m : Mark) (r : Reading) (rest : List Char) :
    r.run (m.render ++ rest) = (r.push (.text m.render)).run rest := by
  cases m with
  | escape c => rfl
  | plain c hc hs =>
    have htake : r.take c = r.push (.text [c]) := by
      simp only [isSpecial, Bool.or_eq_false_iff, decide_eq_false_iff_not] at hs
      simp [take, hs]
    rw [Mark.render, List.singleton_append, run_cons hc, htake]

theorem run_marks (marks : List Mark) (r : Reading) (rest : List Char) :
    r.run (marks.flatMap Mark.render ++ rest) =
      (r.pushAll (marks.map fun m => .text m.render)).run rest := by
  induction marks generalizing r with
  | nil => rfl
  | cons m marks ih =>
    rw [List.flatMap_cons, List.append_assoc, run_mark, ih]
    rfl

/-- An opening brace starts a group without alternatives. -/
theorem run_opening (r : Reading) (rest : List Char) :
    r.run ('\x7b' :: rest) = (Reading.mk r.outer (⟨[], []⟩ :: r.groups)).run rest :=
  run_cons (by decide) r rest

/-- A comma inside of a group ends the alternative being read. -/
theorem run_comma (outer : List Piece) (g : Group) (gs : List Group) (rest : List Char) :
    (Reading.mk outer (g :: gs)).run (',' :: rest) = (Reading.mk outer (g.next :: gs)).run rest :=
  run_cons (by decide) _ rest

/-- A closing brace makes a choice of the group that is open. -/
theorem run_closing (r : Reading) (g : Group) (rest : List Char) :
    (Reading.mk r.outer (g :: r.groups)).run ('\x7d' :: rest) =
      (r.push (.choice g.alternatives)).run rest :=
  run_cons (by decide) _ rest

end Reading

open Reading

/-- A group with one more alternative, finished. -/
theorem alternatives_next (g : Group) (ps : List Piece) :
    Group.alternatives ⟨g.next.done, ps.reverse ++ g.next.current⟩ = g.alternatives ++ [ps] := by
  simp [Group.alternatives_eq, Group.next]

-- The induction is on the tree; that the reading stands inside of a choice shows in nothing but the
-- groups that are open, so the statement holds for any reading and any rest.
mutual

theorem run_render : (t : Term) → (r : Reading) → (rest : List Char) →
    r.run (t.render ++ rest) = (r.pushAll t.pieces).run rest
  | .text marks, r, rest => by
    rw [Term.render, Term.pieces]
    exact run_marks marks r rest
  | .choice first others, r, rest => by
    have hcut : (Term.choice first others).render ++ rest =
        '\x7b' :: (renderAll first ++ (renderOthers others ++ '\x7d' :: rest)) := by
      simp [Term.render]
    obtain ⟨g, hrun, halts⟩ := run_renderOthers others r.outer
      ⟨[], (piecesAll first).reverse⟩ r.groups ('\x7d' :: rest)
    have hfirst : Group.alternatives ⟨[], (piecesAll first).reverse⟩ = [piecesAll first] := by
      simp [Group.alternatives_eq]
    rw [hcut, run_opening, run_renderAll first, pushAll_group, List.append_nil, hrun, run_closing,
      halts, hfirst]
    rfl

/-- **What is written for a sequence of terms** is read as its pieces. -/
theorem run_renderAll : (ts : List Term) → (r : Reading) → (rest : List Char) →
    r.run (renderAll ts ++ rest) = (r.pushAll (piecesAll ts)).run rest
  | [], _, _ => by
    rw [renderAll, piecesAll]
    rfl
  | t :: ts, r, rest => by
    rw [renderAll, piecesAll, List.append_assoc, run_render t, run_renderAll ts, pushAll_append]

/-- Further alternatives are added to the group that is open. -/
theorem run_renderOthers : (as : List (List Term)) → (outer : List Piece) → (g : Group) →
    (gs : List Group) → (rest : List Char) →
    ∃ g', (Reading.mk outer (g :: gs)).run (renderOthers as ++ rest) =
        (Reading.mk outer (g' :: gs)).run rest ∧
      g'.alternatives = g.alternatives ++ piecesEach as
  | [], _, g, _, _ => ⟨g, by rw [renderOthers]; rfl, by rw [piecesEach, List.append_nil]⟩
  | a :: as, outer, g, gs, rest => by
    have hcut : renderOthers (a :: as) ++ rest = ',' :: (renderAll a ++ (renderOthers as ++ rest)) := by
      simp [renderOthers]
    obtain ⟨g', hrun, halts⟩ := run_renderOthers as outer
      ⟨g.next.done, (piecesAll a).reverse ++ g.next.current⟩ gs rest
    refine ⟨g', ?_, ?_⟩
    · rw [hcut, run_comma, run_renderAll a, pushAll_group, hrun]
    · rw [halts, alternatives_next, piecesEach, List.append_assoc, List.singleton_append]

end

/-! ## Expanding -/

mutual

theorem expandAll_pieces : (t : Term) → expandAll t.pieces = t.texts
  | .text marks => by
    have htexts : marks.map (fun m => Piece.text m.render) = (marks.map Mark.render).map .text := by
      simp
    rw [Term.pieces, Term.texts, htexts, expandAll_texts, List.flatMap_def]
  | .choice first others => by
    have halts : expandEach (piecesAll first :: piecesEach others) =
        textsAll first ++ textsEach others := by
      rw [expandEach, expandAll_piecesAll first, expandEach_piecesEach others]
    simp [Term.pieces, Term.texts, expandAll, Piece.expand, halts]

/-- The pieces of a sequence of terms stand for its texts. -/
theorem expandAll_piecesAll : (ts : List Term) → expandAll (piecesAll ts) = textsAll ts
  | [] => by rw [piecesAll, expandAll, textsAll]
  | t :: ts => by
    rw [piecesAll, expandAll_append, expandAll_pieces t, expandAll_piecesAll ts, textsAll]

theorem expandEach_piecesEach : (as : List (List Term)) → expandEach (piecesEach as) = textsEach as
  | [] => by rw [piecesEach, expandEach, textsEach]
  | a :: as => by
    rw [piecesEach, expandEach, textsEach, expandAll_piecesAll a, expandEach_piecesEach as]

end

/-- **A pattern that is written out from terms** stands for the texts of the terms: each sequence of one
alternative of every choice, the first choice varying slowest, with escapes as they are written. -/
theorem expand_renderAll (ts : List Term) : expand (renderAll ts) = textsAll ts := by
  have hrun := run_renderAll ts ⟨[], []⟩ []
  rw [List.append_nil, Reading.run] at hrun
  rw [expand, pieces, hrun, finish_pushAll, expandAll_piecesAll]

/-- A choice in a choice, with an empty alternative and an escaped comma. -/
example :
    let a : Mark := .plain 'a' (by decide) (by decide)
    let b : Mark := .plain 'b' (by decide) (by decide)
    renderAll [.choice [.text [a]] [[.text [b], .choice [] [[.text [.escape ',']]]]]] =
        "\x7ba,b\x7b,\\,\x7d\x7d".toList ∧
      expand "\x7ba,b\x7b,\\,\x7d\x7d".toList = ["a".toList, "b".toList, "b\\,".toList] := by
  decide +kernel

end DepScope.Pattern
