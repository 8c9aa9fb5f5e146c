import DepScope.Manifest.Kind
import DepScope.Proofs.Manifest.RequirementName
import DepScope.Proofs.References.Union

/-!
# DepScope.Proofs.Manifest.RequirementLines

A list of requirements is read line by line, and what stands behind the requirement on a line does not
matter.

1. Blanks behind a line, or a comment, are gone once the comment is taken off and the line is trimmed
   (`trimEnd_withoutComment`): a comment starts with the first hash behind a blank, so one that is put
   behind a line never reaches into it.
2. The name of a requirement does not depend on the blanks behind it (`requirementName?_trimmed`), and
   neither does its range, which ends where the trimmed line does.
3. So what a line mentions (`onRequirementLine`) depends on the trimmed line without its comment only.

`requirements_line_by_line` puts them together.
-/

namespace DepScope.Manifest

open Text Package

variable {c : Char} {cs line tail ws text raw : List Char} {i : Nat}

/-! ## Comments -/

/-- What may be put behind a line: blanks, or blanks and a comment. Right before the hash of the comment
stands a blank, of its own or of the line, or nothing. -/
inductive Trailer (line : List Char) : List Char → Prop
  | blanks {ws : List Char} : (∀ c ∈ ws, isBlank c = true) → '\n' ∉ ws → Trailer line ws
  | comment {ws text : List Char} : (∀ c ∈ ws, isBlank c = true) → '\n' ∉ ws → '\n' ∉ text →
      (ws ≠ [] ∨ ∀ c ∈ line.getLast?, isBlank c = true) → Trailer line (ws ++ '#' :: text)

theorem Trailer.feed_notMem (h : Trailer line tail) : '\n' ∉ tail := by
  cases h with
  | blanks _ hws => exact hws
  | comment _ hws htext _ => simp [hws, htext]

theorem go_cons (h : cs.head? ≠ some '#') :
    withoutComment.go (c :: cs) = c :: withoutComment.go cs := by
  rw [withoutComment.go]
  rintro more rfl
  exact h rfl

theorem withoutComment_eq_go (h : cs.head? ≠ some '#') :
    withoutComment cs = withoutComment.go cs := by
  unfold withoutComment
  split
  · exact absurd rfl h
  · rfl

/-- What is put behind a line without a comment is read by itself, if it does not start with a hash. -/
theorem go_append (line : List Char) (h : tail.head? ≠ some '#') :
    withoutComment.go (line ++ tail) = withoutComment.go line ∨
      (withoutComment.go line = line ∧
        withoutComment.go (line ++ tail) = line ++ withoutComment.go tail) := by
  fun_induction withoutComment.go line with
  | case1 => exact .inr ⟨rfl, rfl⟩
  | case2 c cs hc =>
    rw [List.cons_append, List.cons_append, withoutComment.go, if_pos hc]
    exact .inl rfl
  | case3 c cs hc ih =>
    rw [List.cons_append, List.cons_append, withoutComment.go, if_neg hc, ← List.cons_append]
    obtain heq | ⟨hline, heq⟩ := ih
    · exact .inl (by rw [heq])
    · exact .inr ⟨by rw [hline], by rw [heq]; rfl⟩
  | case4 c cs hnot ih =>
    have hhead : (cs ++ tail).head? ≠ some '#' := by
      cases cs with
      | nil => exact h
      | cons x cs =>
        intro heq
        cases heq
        exact hnot cs rfl
    rw [List.cons_append, go_cons hhead]
    obtain heq | ⟨hline, heq⟩ := ih
    · exact .inl (by rw [heq])
    · exact .inr ⟨by rw [hline], by rw [heq]; rfl⟩

theorem withoutComment_append (line : List Char) (h : tail.head? ≠ some '#') :
    withoutComment (line ++ tail) = withoutComment line ∨
      (withoutComment line = line ∧
        withoutComment (line ++ tail) = line ++ withoutComment tail) := by
  cases line with
  | nil => exact .inr ⟨rfl, rfl⟩
  | cons c line =>
    by_cases hc : c = '#'
    · subst hc
      exact .inl rfl
    · have hstart (cs : List Char) : withoutComment (c :: cs) = withoutComment.go (c :: cs) :=
        withoutComment_eq_go (by simpa using hc)
      have hgo := go_append (c :: line) h
      rw [List.cons_append] at hgo ⊢
      rwa [hstart, hstart, withoutComment_eq_go h]

theorem head?_ne_hash (h : ∀ c ∈ ws, isBlank c = true) : ws.head? ≠ some '#' := by
  intro hhead
  exact absurd (h '#' (List.mem_of_mem_head? hhead)) (by decide)

theorem withoutComment_blanks (h : ∀ c ∈ ws, isBlank c = true) : withoutComment ws = ws := by
  rw [withoutComment_eq_go (head?_ne_hash h)]
  induction ws with
  | nil => rfl
  | cons c ws ih =>
    obtain ⟨-, hws⟩ := List.forall_mem_cons.mp h
    rw [go_cons (head?_ne_hash hws), ih hws]

theorem trimEnd_withoutComment_blanks (line : List Char) (h : ∀ c ∈ ws, isBlank c = true) :
    trimEnd (withoutComment (line ++ ws)) = trimEnd (withoutComment line) := by
  obtain heq | ⟨hline, heq⟩ := withoutComment_append line (head?_ne_hash h)
  · rw [heq]
  · rw [heq, withoutComment_blanks h, trimEnd_append_blanks h, hline]

/-- A hash behind a blank, or at the start, takes all that follows off, and nothing else but blanks. -/
theorem trimEnd_withoutComment_hash (h : ∀ c ∈ line.getLast?, isBlank c = true) (text : List Char) :
    trimEnd (withoutComment (line ++ '#' :: text)) = trimEnd (withoutComment line) := by
  cases line using List.reverseRecOn with
  | nil => rfl
  | append_singleton line c =>
    have hc : isBlank c = true := h c (by simp)
    have hhead : (c :: '#' :: text).head? ≠ some '#' := by
      rintro ⟨⟩
      exact absurd hc (by decide)
    have hcomment : withoutComment (c :: '#' :: text) = [] := by
      rw [withoutComment_eq_go hhead, withoutComment.go, if_pos hc]
    have hblank : ∀ x ∈ [c], isBlank x = true := by simpa using hc
    rw [trimEnd_withoutComment_blanks line hblank, List.append_assoc, List.singleton_append]
    obtain heq | ⟨hline, heq⟩ := withoutComment_append line hhead
    · rw [heq]
    · rw [heq, hcomment, List.append_nil, hline]

/-- **What is put behind a line is taken off again.** -/
theorem trimEnd_withoutComment (h : Trailer line tail) :
    trimEnd (withoutComment (line ++ tail)) = trimEnd (withoutComment line) := by
  cases h with
  | blanks hblank => exact trimEnd_withoutComment_blanks line hblank
  | @comment ws text hblank _ _ hbefore =>
    have hlast : ∀ c ∈ (line ++ ws).getLast?, isBlank c = true := by
      intro c hc
      rw [List.getLast?_append] at hc
      obtain hws | ⟨hws, hline⟩ := Option.or_eq_some_iff.mp hc
      · exact hblank c (List.mem_of_getLast? hws)
      · exact hbefore.resolve_left (fun hne => hne (List.getLast?_eq_none_iff.mp hws)) c hline
    rw [← List.append_assoc, trimEnd_withoutComment_hash hlast,
      trimEnd_withoutComment_blanks line hblank]

/-! ## Lines -/

/-- The name of a requirement does not depend on the blanks behind it. -/
theorem requirementName?_trimmed (cs : List Char) :
    requirementName? (trimEnd cs) = requirementName? cs := by
  have hblanks : ∀ c ∈ cs.rtakeWhile isBlank, isBlank c = true := fun c => List.mem_rtakeWhile_imp
  have hcs : trimEnd cs ++ cs.rtakeWhile isBlank = cs := List.rdropWhile_append_rtakeWhile
  refine Option.ext fun ⟨blanks, name⟩ => ?_
  rw [requirementName?_iff, requirementName?_iff]
  constructor
  · rintro ⟨rest, hwhole, hblank, hname, hends⟩
    refine ⟨rest ++ cs.rtakeWhile isBlank, ?_, hblank, hname, ?_⟩
    · rw [← List.append_assoc, ← hwhole, hcs]
    · intro c hc
      rw [List.head?_append] at hc
      obtain hc | ⟨-, hc⟩ := Option.or_eq_some_iff.mp hc
      · exact hends c hc
      · exact .inl (hblanks c (List.mem_of_mem_head? hc))
  · rintro ⟨rest, rfl, hblank, hname, hends⟩
    have hword : ∀ c ∈ name, isBlank c = false := fun c hc =>
      isBlank_of_isNameInner (isNameInner_iff.mpr (hname.chars c hc))
    have hne : name ≠ [] := by
      rintro rfl
      obtain ⟨c, hc, -⟩ := hname.first
      cases hc
    refine ⟨trimEnd rest, trimEnd_append_word hword hne blanks rest, hblank, hname, ?_⟩
    exact endsName_iff.mp (endsName_of_isPrefix (trimEnd_isPrefix rest) (endsName_iff.mpr hends))

/-- What a line mentions as the only line of a text. -/
def onRequirementLine (raw : List Char) : Option Mention :=
  let line := trimEnd (withoutComment raw)
  (requirementName? line).map fun (blanks, name) =>
    Mention.ofName .pypi (String.ofList name) ⟨⟨0, unitLength blanks⟩, ⟨0, unitLength line⟩⟩

/-- **What is read on the line with a number** is what the line mentions by itself. -/
theorem requirementLine_eq {text : String} (h : (pieces '\n' text.toList)[i]? = some raw) :
    requirementLine (LineIndex.ofText text) i raw = (onRequirementLine raw).map (·.down i) := by
  obtain ⟨rest, hraw⟩ := (trimEnd_isPrefix _).trans (withoutComment_isPrefix raw)
  rw [requirementLine, onRequirementLine, ← requirementName?_trimmed]
  generalize trimEnd (withoutComment raw) = line at *
  cases hname : requirementName? line with
  | none => rfl
  | some found =>
    obtain ⟨blanks, name⟩ := found
    obtain ⟨after, hwhole, -⟩ := requirementName?_iff.mp hname
    have hstart : (pieces '\n' text.toList)[i]? = some (blanks ++ (name ++ after ++ rest)) := by
      rw [h, ← hraw, hwhole]
      simp
    rw [← hraw] at h
    simp only [Option.map_some, positionAt_of_line hstart, positionAt_of_line h]
    simp [Mention.down, Mention.ofName, Range.down, Position.down]

/-- The packages of a list of requirements are what its lines mention. -/
theorem requirements_eq_lineMentions (text : String) :
    requirements text =
      .ofMentions (References.lineMentions (fun raw => (onRequirementLine raw).toList) text) := by
  rw [requirements, References.lineMentions, List.filterMap_eq_flatMap_toList]
  congr 1
  refine List.flatMap_congr fun e he => ?_
  obtain ⟨raw, i⟩ := e
  dsimp only
  rw [requirementLine_eq (List.mem_zipIdx_iff_getElem?.mp he)]
  cases onRequirementLine raw <;> rfl

/-- **Lists of requirements are read line by line**, whatever blanks and comments stand behind the
lines: putting blanks or a comment behind any of the lines changes nothing, and the packages are those
of the lines, each read alone, moved to its number and added in the order of the lines. -/
theorem requirements_line_by_line :
    (∀ ls : List (List Char × List Char), (∀ l ∈ ls, '\n' ∉ l.1 ∧ Trailer l.1 l.2) →
      extract .requirements (String.ofList (joinWith ['\n'] (ls.map fun l => l.1 ++ l.2))) =
        extract .requirements (String.ofList (joinWith ['\n'] (ls.map fun l => l.1)))) ∧
    ∀ text, extract .requirements text = some (References.byLines requirements text) := by
  refine ⟨fun ls hls => ?_, fun text => ?_⟩
  · simp only [extract, requirements_eq_lineMentions]
    congr 2
    refine References.lineMentions_congr (fun l hl => ?_) (fun l hl => (hls l hl).1) fun l hl => ?_
    · simp [(hls l hl).1, (hls l hl).2.feed_notMem]
    · simp only [onRequirementLine, trimEnd_withoutComment (hls l hl).2]
  · rw [extract]
    congr 1
    exact References.read_eq_byLines fun t _ => requirements_eq_lineMentions t

/-- A return and a comment behind lines that have blanks, a hash or a comment already. -/
theorem requirements_lines_of_pins :
    let ls := [("  é-app>=2 ".toList, "\r".toList), ("a @ b#c".toList, "\u00A0# d".toList),
      ("my_app # e".toList, " #".toList), ("".toList, "#".toList)]
    (∀ l ∈ ls, '\n' ∉ l.1 ∧ Trailer l.1 l.2) ∧
      extract .requirements "  é-app>=2 \r\na @ b#c\u00A0# d\nmy_app # e #\n#" =
        extract .requirements "  é-app>=2 \na @ b#c\nmy_app # e\n" := by
  intro ls
  have hls : ∀ l ∈ ls, '\n' ∉ l.1 ∧ Trailer l.1 l.2 := by
    simp only [ls, List.forall_mem_cons, List.not_mem_nil, false_implies, implies_true, and_true]
    refine ⟨⟨by decide, .blanks (List.all_eq_true.mp (by decide)) (by decide)⟩, ⟨by decide, ?_⟩,
      ⟨by decide, ?_⟩, ⟨by decide, ?_⟩⟩
    · exact @Trailer.comment _ ['\u00A0'] " d".toList (List.all_eq_true.mp (by decide)) (by decide)
        (by decide) (.inl (by decide))
    · exact @Trailer.comment _ [' '] [] (List.all_eq_true.mp (by decide)) (by decide) (by decide)
        (.inl (by decide))
    · exact @Trailer.comment _ [] [] (by simp) (by decide) (by decide) (.inr (by simp))
  exact ⟨hls, requirements_line_by_line.1 ls hls⟩

end DepScope.Manifest
