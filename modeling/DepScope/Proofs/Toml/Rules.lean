import DepScope.Proofs.Text.Reader
import DepScope.Toml.Parser

/-!
# DepScope.Proofs.Toml.Rules

What the strict grammar reads, the loose one reads alike (`parse?_loose`).

Inside of a value this is so step by step. Pairs are read as long as there are any, so the loose
grammar may go on where the strict one stops; but then a key is ahead, and what the strict grammar
could read after pairs does not start like that.
-/

namespace DepScope.Toml

open Text Reader

variable {α β : Type}

/-! ## Strings -/

theorem continuationLength?_loose {cs : List Char} {n : Nat}
    (h : continuationLength? ⟨false⟩ cs = some n) : continuationLength? ⟨true⟩ cs = some n := by
  have hbreak : breakLength? cs = some n := by simpa [continuationLength?] using h
  have hblanks : cs.takeWhile (fun c => c = ' ' || c = '\t') = [] := by
    unfold breakLength? at hbreak
    split at hbreak
    · rfl
    · rfl
    · cases hbreak
  simp [continuationLength?, hblanks, hbreak]

theorem multilineLength_loose {q : Char} {fuel : Nat} {cs : List Char} {n : Nat}
    (h : multilineLength ⟨false⟩ q fuel cs = some n) : multilineLength ⟨true⟩ q fuel cs = some n := by
  induction fuel generalizing cs n with
  | zero => cases h
  | succ fuel ih =>
    cases cs with
    | nil => cases h
    | cons c cs =>
      have hmap {ds : List Char} {k : Nat}
          (hds : (multilineLength ⟨false⟩ q fuel ds).map (· + k) = some n) :
          (multilineLength ⟨true⟩ q fuel ds).map (· + k) = some n := by
        obtain ⟨l, hl, rfl⟩ := Option.map_eq_some_iff.mp hds
        rw [ih hl]
        rfl
      rw [multilineLength] at h ⊢
      split
      · next hq =>
        rw [if_pos hq] at h
        dsimp only at h ⊢
        split
        · next hrun => rwa [if_pos hrun] at h
        · next hrun =>
          rw [if_neg hrun] at h
          exact hmap h
      · next hq =>
        rw [if_neg hq] at h
        split
        · next hslash =>
          rw [if_pos hslash] at h
          obtain ⟨k, hk, h⟩ := Option.bind_eq_some_iff.mp h
          obtain ⟨l, hl, h⟩ := Option.bind_eq_some_iff.mp h
          have hk' : (escapeLength? cs).or (continuationLength? ⟨true⟩ cs) = some k := by
            cases hescape : escapeLength? cs with
            | none =>
              rw [hescape, Option.none_or] at hk
              exact continuationLength?_loose hk
            | some m => rwa [hescape, Option.some_or] at hk
          rw [hk', Option.bind_eq_bind, Option.bind_some, ih hl]
          exact h
        · next hslash =>
          rw [if_neg hslash] at h
          split
          · next k hk =>
            rw [hk] at h
            exact hmap h
          · next hk =>
            rw [hk] at h
            dsimp only at h
            split
            · next hplain =>
              rw [if_pos hplain] at h
              exact hmap h
            · next hplain =>
              rw [if_neg hplain] at h
              cases h

theorem stringLength?_loose {cs : List Char} {n : Nat} (h : stringLength? ⟨false⟩ cs = some n) :
    stringLength? ⟨true⟩ cs = some n := by
  unfold stringLength? at h ⊢
  split at h
  · obtain ⟨l, hl, rfl⟩ := Option.map_eq_some_iff.mp h
    simp [multilineLength_loose hl]
  · obtain ⟨l, hl, rfl⟩ := Option.map_eq_some_iff.mp h
    simp [multilineLength_loose hl]
  · exact h

/-- What starts with a quote is no number, date or truth value. -/
theorem scalarAt?_quote {q : Char} (hq : q = '"' ∨ q = '\'') (cs : List Char) :
    scalarAt? (q :: cs) = none := by
  have hdigit : isAsciiDigit q = false := by obtain rfl | rfl := hq <;> decide
  have hrun : digitRun isAsciiDigit (q :: cs) = 0 := by
    unfold digitRun
    split
    · next heq => cases heq; simp [hdigit]
    · next heq => cases heq; simp [hdigit]
    · rfl
  have hsign : signLength (q :: cs) = 0 := by obtain rfl | rfl := hq <;> rfl
  have hdecimal : decimalLength? (q :: cs) = none := by
    obtain rfl | rfl := hq <;> simp [decimalLength?, hsign, hrun]
  have hbased : basedLength? (q :: cs) = none := by obtain rfl | rfl := hq <;> rfl
  have hfloat : floatLength? (q :: cs) = none := by
    obtain rfl | rfl := hq <;> simp [floatLength?, hsign, hdecimal, hasPrefix, afterPrefix?]
  have hdate : dateLength? (q :: cs) = none := by
    obtain rfl | rfl := hq <;> simp [dateLength?, List.takeWhile, hdigit]
  have hdateTime : dateTimeLength? (q :: cs) = none := by simp [dateTimeLength?, hdate]
  have htime : timeLength? (q :: cs) = none := by
    unfold timeLength?
    split
    · next heq =>
      have htwo (b : Char) : twoDigits 0 23 [q, b] = false := by obtain rfl | rfl := hq <;> rfl
      cases heq
      simp [htwo]
    · rfl
  have htruth : truthLength? (q :: cs) = none := by
    obtain rfl | rfl := hq <;> simp [truthLength?, hasPrefix, afterPrefix?]
  simp [scalarAt?, scalarReadings, offsetDateTimeLength?, hdecimal, hbased, hfloat, hdate, hdateTime,
    htime, htruth]

/-! ## Values -/

/-- Whatever the one reader reads, the other reads alike. -/
def Under (r r' : Reader α) : Prop :=
  ∀ s x, r s = some x → r' s = some x

namespace Under

theorem refl (r : Reader α) : Under r r := fun _ _ h => h

theorem fail {r : Reader α} : Under failure r := fun _ _ h => by cases h

theorem bind {r r' : Reader α} {f f' : α → Reader β} (hr : Under r r')
    (hf : ∀ a, Under (f a) (f' a)) : Under (r >>= f) (r' >>= f') := fun s x h => by
  obtain ⟨⟨a, mid⟩, ha, hb⟩ := Option.bind_eq_some_iff.mp h
  exact Option.bind_eq_some_iff.mpr ⟨(a, mid), hr s _ ha, hf a mid x hb⟩

/-- After the same reader. -/
theorem after {r : Reader α} {f f' : α → Reader β} (hf : ∀ a, Under (f a) (f' a)) :
    Under (r >>= f) (r >>= f') :=
  (refl r).bind hf

end Under

/-- Values, items and pairs, nested at most so deep. -/
theorem under_values (depth : Nat) :
    Under (value ⟨false⟩ depth) (value ⟨true⟩ depth) ∧
      Under (items ⟨false⟩ depth) (items ⟨true⟩ depth) ∧
      Under (inlinePairs ⟨false⟩ depth) (inlinePairs ⟨true⟩ depth) := by
  induction depth with
  | zero =>
    rw [value, items, inlinePairs]
    exact ⟨.fail, .fail, .fail⟩
  | succ depth ih =>
    obtain ⟨hvalue, hitems, hpairs⟩ := ih
    refine ⟨?_, ?_, ?_⟩
    · rw [value, value]
      refine .after fun start => .after fun cs => ?_
      split
      · exact .after fun _ => hitems.bind fun items => .refl _
      · exact .after fun _ => .after fun _ => hpairs.bind fun pairs => .refl _
      · next hbracket hbrace =>
        cases hstrict : stringLength? ⟨false⟩ cs with
        | some n =>
          rw [stringLength?_loose hstrict]
          exact .refl _
        | none =>
          cases hloose : stringLength? ⟨true⟩ cs with
          | none => exact .refl _
          | some n =>
            obtain ⟨q, more, rfl, hq⟩ : ∃ q more, cs = q :: more ∧ (q = '"' ∨ q = '\'') := by
              unfold stringLength? lineStringLength? at hloose
              repeat' split at hloose
              all_goals first | exact ⟨_, _, rfl, .inl rfl⟩ | exact ⟨_, _, rfl, .inr rfl⟩ | cases hloose
            rw [scalarAt?_quote hq]
            exact .fail
    · rw [items, items]
      refine .after fun _ => .after fun cs => ?_
      split
      · exact .refl _
      · refine hvalue.bind fun v => .after fun _ => .after fun cs => ?_
        split
        · exact .after fun _ => hitems.bind fun vs => .refl _
        · exact .refl _
        · exact .refl _
    · rw [inlinePairs, inlinePairs]
      refine .after fun cs => ?_
      split
      · exact .refl _
      · refine .after fun k => .after fun _ => .after fun _ => .after fun _ => hvalue.bind fun v =>
          .after fun _ => .after fun cs => ?_
        split
        · exact .refl _
        · refine .after fun _ => .after fun _ => .after fun cs => ?_
          split
          · exact .refl _
          · exact hpairs.bind fun ps => .refl _
        · exact .refl _

/-! ## Where pairs end -/

theorem hasPrefix_of_exactly {w : String} {s : Place} {x : Unit × Place} (h : exactly w s = some x) :
    hasPrefix w.toList s.rest = true := by
  rw [exactly_eq] at h
  split at h
  · assumption
  · cases h

/-- Behind a gap comes a character that neither ends the line nor opens a header. -/
def KeyAhead (s : Place) : Prop :=
  ∃ p c cs, gap s = some ((), p) ∧ p.rest = c :: cs ∧ c ≠ '[' ∧ c ≠ '\n' ∧ c ≠ '\r'

theorem exists_cons_of_keyPart {s : Place} {x : KeyPart × Place} (h : keyPart s = some x) :
    ∃ c cs, s.rest = c :: cs ∧ c ≠ '[' ∧ c ≠ '\n' ∧ c ≠ '\r' := by
  rw [keyPart, orElse_eq, Option.or_eq_some_iff] at h
  obtain h | ⟨-, h⟩ := h
  · obtain ⟨y, hbare, -⟩ := Option.bind_eq_some_iff.mp h
    rw [takeWhile1_eq] at hbare
    split at hbare
    · cases hbare
    · next hne =>
      match hrest : s.rest with
      | [] => simp [hrest] at hne
      | c :: cs =>
        have hc : isBareChar c = true := by
          cases hc : isBareChar c with
          | true => rfl
          | false => simp [hrest, hc] at hne
        refine ⟨c, cs, rfl, ?_, ?_, ?_⟩ <;> rintro rfl <;> exact absurd hc (by decide)
  · obtain ⟨y, hquoted, -⟩ := Option.bind_eq_some_iff.mp h
    rw [measured_eq] at hquoted
    obtain ⟨n, hn, -⟩ := Option.bind_eq_some_iff.mp hquoted
    unfold lineStringLength? at hn
    split at hn
    · next cs hrest => exact ⟨_, cs, hrest, by decide, by decide, by decide⟩
    · next cs hrest => exact ⟨_, cs, hrest, by decide, by decide, by decide⟩
    · cases hn

theorem keyAhead_of_pairLine {rules : Rules} {depth : Nat} {s : Place} {x : Pair × Place}
    (h : pairLine rules depth s = some x) : KeyAhead s := by
  obtain ⟨⟨⟨⟩, p⟩, hgap, h⟩ := Option.bind_eq_some_iff.mp h
  obtain ⟨y, hkey, -⟩ := Option.bind_eq_some_iff.mp h
  obtain ⟨z, hpart, -⟩ := Option.bind_eq_some_iff.mp hkey
  obtain ⟨c, cs, hrest, hc⟩ := exists_cons_of_keyPart hpart
  exact ⟨p, c, cs, hgap, hrest, hc⟩

theorem not_keyAhead_of_emptyLine {s : Place} {x : Unit × Place} (h : emptyLine s = some x) :
    ¬KeyAhead s := by
  rintro ⟨p, c, cs, hgap, hrest, -, hfeed, hreturn⟩
  obtain ⟨⟨⟨⟩, p'⟩, hgap', h⟩ := Option.bind_eq_some_iff.mp h
  obtain rfl : p = p' := by simpa [hgap] using hgap'
  simp only [lineBreak, orElse_eq, Option.or_eq_some_iff] at h
  obtain h | ⟨-, h⟩ := h
  · have := hasPrefix_of_exactly h
    simp [hrest, hasPrefix, afterPrefix?, hfeed.symm] at this
  · have := hasPrefix_of_exactly h
    simp [hrest, hasPrefix, afterPrefix?, hreturn.symm] at this

theorem not_keyAhead_of_table {rules : Rules} {depth : Nat} {s : Place} {x : Section × Place}
    (h : table rules depth s = some x) : ¬KeyAhead s := by
  rintro ⟨p, c, cs, hgap, hrest, hbracket, -⟩
  obtain ⟨⟨⟨⟩, p'⟩, hgap', h⟩ := Option.bind_eq_some_iff.mp h
  obtain rfl : p = p' := by simpa [hgap] using hgap'
  obtain ⟨y, hopen, -⟩ := Option.bind_eq_some_iff.mp h
  have := hasPrefix_of_exactly hopen
  simp [hrest, hasPrefix, afterPrefix?, hbracket.symm] at this

/-! ## Documents -/

/-- A reader that stops before another one does, alike up to there, with a key ahead; and that has not
read when the other one has not. -/
structure Drifts (r r' : Reader α) : Prop where
  some : ∀ s a s', r s = .some (a, s') → r' s = .some (a, s') ∨ KeyAhead s'
  none : ∀ s, r s = .none → r' s = .none

namespace Drifts

theorem refl (r : Reader α) : Drifts r r :=
  ⟨fun _ _ _ h => .inl h, fun _ h => h⟩

/-- After the same reader. -/
theorem after {r : Reader α} {f f' : α → Reader β} (hf : ∀ a, Drifts (f a) (f' a)) :
    Drifts (r >>= f) (r >>= f') where
  some s b s' h := by
    obtain ⟨⟨a, mid⟩, ha, hb⟩ := Option.bind_eq_some_iff.mp h
    refine ((hf a).some mid b s' hb).imp_left fun hb' => ?_
    exact Option.bind_eq_some_iff.mpr ⟨(a, mid), ha, hb'⟩
  none s h := by
    refine Option.bind_eq_none_iff.mpr fun ⟨a, mid⟩ ha => ?_
    exact (hf a).none mid (Option.bind_eq_none_iff.mp h (a, mid) ha)

/-- What is made of the result. -/
theorem map {r r' : Reader α} (h : Drifts r r') (f : α → β) :
    Drifts (r >>= fun a => pure (f a)) (r' >>= fun a => pure (f a)) where
  some s b s' hrun := by
    obtain ⟨⟨a, mid⟩, ha, hb⟩ := Option.bind_eq_some_iff.mp hrun
    cases hb
    refine (h.some s a s' ha).imp_left fun ha' => ?_
    exact Option.bind_eq_some_iff.mpr ⟨(a, s'), ha', rfl⟩
  none s hrun := by
    refine Option.bind_eq_none_iff.mpr fun ⟨a, mid⟩ ha => ?_
    cases hr : r s with
    | none => simp [h.none s hr] at ha
    | some x => cases Option.bind_eq_none_iff.mp hrun x hr

/-- **Repeating.** Where the one stops, so does the other or a key is ahead. -/
theorem repeated {r r' : Reader α}
    (hsome : ∀ s a s', r s = .some (a, s') →
      r' s = .some (a, s') ∨ KeyAhead s' ∧ r s' = .none)
    (hnone : ∀ s, r s = .none → r' s = .none ∨ KeyAhead s) (n : Nat) :
    Drifts (repeated r n) (repeated r' n) where
  some s as s' h := by
    induction n generalizing s as with
    | zero => exact .inl h
    | succ n ih =>
      simp only [Reader.repeated] at h ⊢
      cases hr : r s with
      | none =>
        obtain ⟨rfl, rfl⟩ : [] = as ∧ s = s' := by simpa [hr] using h
        refine (hnone s hr).imp_left fun hr' => ?_
        rw [hr']
      | some x =>
        obtain ⟨a, mid⟩ := x
        rw [hr] at h
        obtain ⟨⟨more, last⟩, hmore, hlast⟩ := Option.map_eq_some_iff.mp h
        obtain ⟨rfl, rfl⟩ : a :: more = as ∧ last = s' := by simpa using hlast
        obtain hr' | ⟨hahead, hstop⟩ := hsome s a mid hr
        · refine (ih mid more hmore).imp_left fun hmore' => ?_
          simp [hr', hmore']
        · -- the next round stops at once
          obtain ⟨-, rfl⟩ : [] = more ∧ mid = last := by
            simpa [repeated_of_eq_none hstop] using hmore
          exact .inr hahead
  none s h := absurd h (repeated_ne_none r n s)

end Drifts

theorem drifts_pairLines (depth : Nat) :
    Drifts (pairLines ⟨false⟩ depth) (pairLines ⟨true⟩ depth) := by
  have hpair : Under (pairLine ⟨false⟩ depth) (pairLine ⟨true⟩ depth) :=
    .after fun _ => .after fun _ => .after fun _ => .after fun _ => .after fun _ =>
      (under_values depth).1.bind fun _ => .refl _
  refine Drifts.map (Drifts.after fun cs => Drifts.repeated ?_ ?_ _) _
  · intro s a s' h
    left
    rw [orElse_eq, Option.or_eq_some_iff] at h ⊢
    obtain h | ⟨hnone, h⟩ := h
    · exact .inl (hpair.bind (fun _ => .refl _) s _ h)
    · refine .inr ⟨?_, h⟩
      -- on an empty line there is no key
      obtain ⟨x, hempty, -⟩ := Option.bind_eq_some_iff.mp h
      refine Option.eq_none_iff_forall_ne_some.mpr fun y hy => ?_
      obtain ⟨z, hz, -⟩ := Option.bind_eq_some_iff.mp hy
      exact not_keyAhead_of_emptyLine hempty (keyAhead_of_pairLine hz)
  · intro s h
    rw [orElse_eq, Option.or_eq_none_iff] at h
    cases hloose : pairLine ⟨true⟩ depth s with
    | none =>
      left
      rw [orElse_eq, Option.or_eq_none_iff]
      exact ⟨Option.bind_eq_none_iff.mpr (by simp [hloose]), h.2⟩
    | some x => exact .inr (keyAhead_of_pairLine hloose)

theorem drifts_table (depth : Nat) : Drifts (table ⟨false⟩ depth) (table ⟨true⟩ depth) :=
  .after fun _ => .after fun _ => .after fun _ => .after fun _ => .after fun _ => .after fun _ =>
    .after fun _ => .after fun _ => (drifts_pairLines depth).map _

theorem drifts_tables (depth : Nat) :
    Drifts (many (table ⟨false⟩ depth)) (many (table ⟨true⟩ depth)) := by
  refine .after fun cs => .repeated (fun s a s' h => ?_) (fun s h => ?_) _
  · refine ((drifts_table depth).some s a s' h).imp_right fun hahead => ⟨hahead, ?_⟩
    refine Option.eq_none_iff_forall_ne_some.mpr fun x hx => ?_
    exact not_keyAhead_of_table hx hahead
  · exact .inl ((drifts_table depth).none s h)

/-- With a key ahead there is no table, and no end. -/
theorem tables_of_keyAhead {rules : Rules} {depth : Nat} {s s' : Place} {ts : List Section}
    (h : many (table rules depth) s = some (ts, s')) (hahead : KeyAhead s) : s' = s := by
  have hstop : table rules depth s = none :=
    Option.eq_none_iff_forall_ne_some.mpr fun x hx => not_keyAhead_of_table hx hahead
  obtain ⟨-, rfl⟩ : [] = ts ∧ s = s' := by simpa [many_eq, repeated_of_eq_none hstop] using h
  rfl

/-- A document read by the strict grammar is read alike by the loose one. -/
theorem document_loose {depth : Nat} {s s' : Place} {d : Document}
    (h : document ⟨false⟩ depth s = some (d, s')) (hend : s'.rest = []) :
    document ⟨true⟩ depth s = some (d, s') := by
  obtain ⟨⟨pairs, s₁⟩, hpairs, h⟩ := Option.bind_eq_some_iff.mp h
  obtain ⟨⟨sections, s₂⟩, hsections, h⟩ := Option.bind_eq_some_iff.mp h
  obtain ⟨⟨⟨⟩, s₃⟩, hgap, h⟩ := Option.bind_eq_some_iff.mp h
  obtain ⟨rfl, rfl⟩ : ⟨pairs, sections⟩ = d ∧ s₃ = s' := by cases h; exact ⟨rfl, rfl⟩
  have hahead : ¬KeyAhead s₂ := by
    rintro ⟨p, c, cs, hgap', hrest, -⟩
    obtain rfl : p = s₃ := by simpa [hgap'] using hgap
    simp [hrest] at hend
  have hpairs' := ((drifts_pairLines depth).some s pairs s₁ hpairs).resolve_right fun h₁ =>
    hahead (tables_of_keyAhead hsections h₁ ▸ h₁)
  have hsections' := ((drifts_tables depth).some s₁ sections s₂ hsections).resolve_right hahead
  refine Option.bind_eq_some_iff.mpr ⟨(pairs, s₁), hpairs', ?_⟩
  refine Option.bind_eq_some_iff.mpr ⟨(sections, s₂), hsections', ?_⟩
  exact Option.bind_eq_some_iff.mpr ⟨((), s₃), hgap, rfl⟩

/-- **What the strict grammar reads, the loose one reads alike.** -/
theorem parse?_loose {text : String} {d : Document} (h : parse? ⟨false⟩ text = some d) :
    parse? ⟨true⟩ text = some d := by
  obtain ⟨⟨d', s'⟩, hrun, h⟩ := Option.bind_eq_some_iff.mp h
  dsimp only at h
  split at h
  · next hend =>
    obtain rfl : d' = d := by cases h; rfl
    refine Option.bind_eq_some_iff.mpr ⟨(d', s'), document_loose hrun (by simpa using hend), ?_⟩
    simp [hend]
  · cases h

end DepScope.Toml
