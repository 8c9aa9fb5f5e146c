import DepScope.Proofs.Cache.Run
import DepScope.Proofs.Cache.Store
import DepScope.Proofs.Score.RoundTrip

/-!
# DepScope.Proofs.Cache.Provenance

Where the data of an entry comes from, over the lifetime of a folder: one cache after the other uses
it, it starts empty, and nobody else writes to it.

Data reaches an entry in two ways: a record is applied to it, or the file of its identifier is read
when the entry is made. A file holds the text of a record that was applied to the same identifier,
maybe by an earlier cache. So all data goes back to a record that has come for the identifier
(`shown_of_lifetime`).

It need not be that record: a double that does not survive writing and reading is shown as another
one after a restart (`not_sent_of_restart`).
-/

namespace DepScope.Cache

open Package Score Service

/-! ## Lifetimes -/

/-- What may come from outside: records that are read from some text, and of files of identifiers
only such as the folder has held before. -/
def Step.Admitted (h : History) (c : State) : Step → Prop
  | apply _ r => ∃ text, Record.read? text = some r
  | disk s => ∀ p f, Keyed.get? (Store.fileName p) s.files = some f →
      ∃ c' ∈ c :: h.map (·.1), Keyed.get? (Store.fileName p) c'.store.files = some f
  | _ => True

/-- The lifetimes of a folder, with the steps of all its caches so far and the latest cache. -/
inductive Lifetime : History → State → Prop
  /-- A new cache on an empty folder. -/
  | opened {c : State} : c.reopened = c → c.store.files = [] → Lifetime [] c
  /-- The cache makes a step. -/
  | next {h : History} {c c' : State} {s : Step} :
      Lifetime h c → c.step? s = some c' → s.Admitted h c → Lifetime ((c, s) :: h) c'
  /-- Another new cache takes over the folder. -/
  | restarted {h : History} {c c' : State} :
      Lifetime h c → c'.reopened = c' → c'.store = c.store → Lifetime h c'

/-- Has a record come in some batch? -/
def Sent (h : History) (r : Record) : Prop :=
  ∃ c b, (c, Step.apply b r) ∈ h

/-- A record that has come for an identifier. -/
structure SentFor (h : History) (p : Purl) (r : Record) : Prop where
  sent : Sent h r
  readable : ∃ text, Record.read? text = some r
  form : p ∈ r.forms

variable {h : History} {c c' : State} {s : Step} {p q : Purl} {r r₀ : Record} {x : State × Step}

theorem Sent.cons (hr : Sent h r) : Sent (x :: h) r := by
  obtain ⟨c, b, hmem⟩ := hr
  exact ⟨c, b, List.mem_cons_of_mem _ hmem⟩

theorem SentFor.cons (hr : SentFor h p r) : SentFor (x :: h) p r :=
  ⟨hr.sent.cons, hr.readable, hr.form⟩

/-! ## Batches that run undisturbed -/

theorem readable_of_mem_readRecords {ending : StreamEnd} {ls : List (List UInt8)}
    (hr : r ∈ (readRecords ending ls).records) : ∃ text, Record.read? text = some r := by
  induction ls with
  | nil => cases hr
  | cons l ls ih =>
    simp only [readRecords] at hr
    split at hr
    · cases hr
    · split at hr
      · exact ih hr
      · split at hr
        · cases hr
        · next r' hr' =>
          obtain rfl | hr := List.mem_cons.mp hr
          · exact ⟨_, hr'⟩
          · exact ih hr

/-- The records that a batch gets are read from lines of the reply. -/
theorem readable_of_mem_outcomeOf {key : String} {reply : Reply}
    (hr : r ∈ (State.outcomeOf key reply).1) : ∃ text, Record.read? text = some r := by
  unfold State.outcomeOf at hr
  split at hr
  · cases hr
  · split at hr
    · cases hr
    · next d hd =>
      unfold readScores at hd
      split at hd
      · cases hd
      · cases hd
        cases hr
      · split at hd
        · cases hd
          exact readable_of_mem_readRecords hr
        · cases hd

theorem Lifetime.applyRecords {b : Batch} {rs : List Record} (hl : Lifetime h c)
    (hb : b ∈ c.running) (hrs : ∀ r ∈ rs, ∃ text, Record.read? text = some r) :
    ∃ h', Lifetime h' (c.applyRecords rs).1 ∧ b ∈ (c.applyRecords rs).1.running := by
  induction rs generalizing h c with
  | nil => exact ⟨h, hl, hb⟩
  | cons r rs ih =>
    have hs : c.step? (.apply b r) = some (c.applyRecord r).1 := by rw [State.step?, if_pos hb]
    have hb' : b ∈ (c.applyRecord r).1.running := by
      rw [(State.applyRecord_agrees c r).running]
      exact hb
    rw [State.applyRecords_cons]
    exact ih (hl.next hs (hrs r List.mem_cons_self)) hb' fun r' hr' =>
      hrs r' (List.mem_cons_of_mem _ hr')

/-- A batch that runs to its end, whatever the reply, is part of a lifetime. -/
theorem Lifetime.runBatch {b : Batch} (hl : Lifetime h c) (hb : b ∈ c.running) (key : String)
    (reply : Reply) : ∃ h', Lifetime h' (c.runBatch b key reply).1 := by
  have hrs : ∀ r ∈ (State.outcomeOf key reply).1, ∃ text, Record.read? text = some r :=
    fun _ => readable_of_mem_outcomeOf
  obtain ⟨h', hl', hb'⟩ := hl.applyRecords hb hrs
  obtain ⟨e, he⟩ := exists_ending key reply
  rw [State.runBatch_eq, he]
  exact ⟨_, hl'.next (s := .finish b e) (if_pos hb') trivial⟩

/-! ## Files -/

/-- Each file of an identifier holds the text of a record that has come for it. -/
def FilesSent (h : History) (s : Store) : Prop :=
  ∀ p f, Keyed.get? (Store.fileName p) s.files = some f → ∃ r, SentFor h p r ∧ f.content = r.write

theorem FilesSent.cons {st : Store} (hf : FilesSent h st) : FilesSent (x :: h) st := by
  intro p f hp
  obtain ⟨r, hr, hc⟩ := hf p f hp
  exact ⟨r, hr.cons, hc⟩

namespace State

theorem get?_store_applyForm {r : Record} :
    Keyed.get? (Store.fileName q) (c.applyForm r p).1.store.files =
      if q = p ∧ (Keyed.get? p c.entries).isSome then some ⟨r.write, c.now⟩
      else Keyed.get? (Store.fileName q) c.store.files := by
  cases he : Keyed.get? p c.entries with
  | none => simp [applyForm, he]
  | some e =>
    simp only [applyForm, he, Store.get?_save, Option.isSome_some, and_true]

theorem known_applyForm {r : Record} :
    (Keyed.get? q (c.applyForm r p).1.entries).isSome = (Keyed.get? q c.entries).isSome := by
  rw [get?_applyForm]
  split <;> simp

/-- A record is saved for those of its identifiers that have an entry. -/
theorem get?_store_applyForms {r : Record} {ps : List Purl} :
    Keyed.get? (Store.fileName q) (c.applyForms r ps).1.store.files =
      if q ∈ ps ∧ (Keyed.get? q c.entries).isSome then some ⟨r.write, c.now⟩
      else Keyed.get? (Store.fileName q) c.store.files := by
  induction ps generalizing c with
  | nil => simp [applyForms]
  | cons p ps ih =>
    simp only [applyForms, ih, known_applyForm, (applyForm_agrees c r p).now, get?_store_applyForm,
      List.mem_cons]
    by_cases hq : q = p
    · subst hq
      cases (Keyed.get? q c.entries).isSome <;> simp
    · simp [hq]

/-- Only records and changes from outside change the folder. -/
theorem store_step? (hs : c.step? s = some c') :
    c'.store = c.store ∨ (∃ b r, s = .apply b r ∧ c' = (c.applyRecord r).1) ∨
      s = .disk c'.store := by
  cases s with
  | watch q =>
    cases hs
    obtain ⟨-, h⟩ | ⟨-, h⟩ | ⟨-, h⟩ := watch_cases c q <;> rw [h] <;> exact .inl rfl
  | subscribe q l =>
    cases hs
    exact .inl rfl
  | unsubscribe q id =>
    cases hs
    unfold unsubscribe
    split <;> exact .inl rfl
  | dispatch =>
    simp only [step?, Option.ite_none_left_eq_some, Option.some.injEq] at hs
    obtain ⟨-, rfl⟩ := hs
    simp only [dispatch]
    split <;> exact .inl rfl
  | apply b r =>
    simp only [step?, Option.ite_none_right_eq_some, Option.some.injEq] at hs
    exact .inr (.inl ⟨b, r, rfl, hs.2.symm⟩)
  | finish b e =>
    simp only [step?, Option.ite_none_right_eq_some, Option.some.injEq] at hs
    obtain ⟨-, rfl⟩ := hs
    exact .inl store_failAll
  | clock t =>
    cases hs
    exact .inl rfl
  | caller on =>
    cases hs
    exact .inl rfl
  | disk st =>
    cases hs
    exact .inr (.inr rfl)

end State

theorem FilesSent.applyRecord (hf : FilesSent h c.store) {b : Batch}
    (hr : ∃ text, Record.read? text = some r) :
    FilesSent ((c, .apply b r) :: h) (c.applyRecord r).1.store := by
  intro p f hp
  rw [State.applyRecord, State.get?_store_applyForms] at hp
  split at hp
  · next hform =>
    cases hp
    exact ⟨r, ⟨⟨c, b, List.mem_cons_self⟩, hr, hform.1⟩, rfl⟩
  · exact hf.cons p f hp

/-! ## Entries -/

/-- The data of an entry has a time, and goes back to a record that has come for the identifier: it
is that record, or what the text written for it is read as. -/
structure EntrySent (h : History) (p : Purl) (e : Entry) : Prop where
  dated : e.snapshot.data.isSome ↔ e.snapshot.updated.isSome
  data : ∀ r, e.snapshot.data = some r →
    ∃ r₀, SentFor h p r₀ ∧ (r = r₀ ∨ Record.read? r₀.write = some r)

theorem EntrySent.cons {e : Entry} (he : EntrySent h p e) : EntrySent (x :: h) p e where
  dated := he.dated
  data r hr := by
    obtain ⟨r₀, hr₀, hread⟩ := he.data r hr
    exact ⟨r₀, hr₀.cons, hread⟩

theorem EntrySent.kept {e e' : Entry} (he : EntrySent h p e) (hk : e.Kept e') :
    EntrySent h p e' where
  dated := by rw [hk.data, hk.updated]; exact he.dated
  data r hr := he.data r (hk.data ▸ hr)

/-- The invariant of a lifetime: all files, now and before, and all entries go back to records that
have come. -/
structure Provenance (h : History) (c : State) : Prop where
  files : FilesSent h c.store
  past : ∀ x ∈ h, FilesSent h x.1.store
  entries : ∀ p e, Keyed.get? p c.entries = some e → EntrySent h p e

/-- An entry that would be made now goes back to records that have come, too. -/
theorem Provenance.entryOf (hc : Provenance h c) (p : Purl) : EntrySent h p (c.entryOf p) := by
  unfold State.entryOf
  split
  · next e he => exact hc.entries p e he
  · split
    · next r t hload =>
      simp only [Store.load?, Option.bind_eq_bind, Option.bind_eq_some_iff, Option.pure_def,
        Option.some.injEq, Prod.mk.injEq] at hload
      obtain ⟨f, hf, r, hread, rfl, rfl⟩ := hload
      obtain ⟨r₀, hr₀, hcontent⟩ := hc.files p f hf
      refine ⟨by simp, fun r' hr' => ?_⟩
      cases hr'
      exact ⟨r₀, hr₀, .inr (hcontent ▸ hread)⟩
    · refine ⟨by simp, fun r hr => ?_⟩
      cases hr

theorem Provenance.of_fresh (hc : c.reopened = c) (hf : FilesSent h c.store)
    (hp : ∀ x ∈ h, FilesSent h x.1.store) : Provenance h c where
  files := hf
  past := hp
  entries p e he := by
    rw [← hc] at he
    cases he

/-- **A step keeps the invariant.** -/
theorem Provenance.step (hc : Provenance h c) (hs : c.step? s = some c') (ha : s.Admitted h c) :
    Provenance ((c, s) :: h) c' where
  files := by
    obtain heq | ⟨b, r, rfl, rfl⟩ | hdisk := State.store_step? hs
    · exact heq ▸ hc.files.cons
    · exact hc.files.applyRecord ha
    · -- what is shown now was there before
      intro p f hf
      rw [hdisk] at ha
      obtain ⟨c₁, hc₁, hf₁⟩ := ha p f hf
      obtain rfl | hc₁ := List.mem_cons.mp hc₁
      · exact hc.files.cons p f hf₁
      · obtain ⟨x, hx, rfl⟩ := List.mem_map.mp hc₁
        exact (hc.past x hx).cons p f hf₁
  past x hx := by
    obtain rfl | hx := List.mem_cons.mp hx
    · exact hc.files.cons
    · exact (hc.past x hx).cons
  entries p e' he' := by
    obtain ⟨b, r, e, rfl, hform, -, rfl⟩ | ⟨-, hk⟩ := State.step?_entry hs he'
    · refine ⟨by simp [Entry.answered], fun r' hr' => ?_⟩
      cases hr'
      exact ⟨r, ⟨⟨c, b, List.mem_cons_self⟩, ha, hform⟩, .inl rfl⟩
    · exact ((hc.entryOf p).cons).kept hk

/-- **All data of a lifetime goes back to records that have come.** -/
theorem Lifetime.provenance (hl : Lifetime h c) : Provenance h c := by
  induction hl with
  | opened hc hempty =>
    refine .of_fresh hc (fun p f hf => ?_) (List.forall_mem_nil _)
    rw [hempty] at hf
    cases hf
  | next _ hs ha ih => exact ih.step hs ha
  | restarted _ hc hstore ih => exact .of_fresh hc (hstore ▸ ih.files) ih.past

/-! ## Restarts -/

/-- A watch shows the data that the entry has, from the disk if it is made now. -/
theorem State.snapshot?_watch (c : State) (p : Purl) :
    ∃ s, (c.watch p).2.snapshot? p = some s ∧ s.data = (c.entryOf p).snapshot.data := by
  obtain h | h := State.get?_watch (c := c) (p := p)
  · exact ⟨(c.entryOf p).snapshot, by rw [State.snapshot?, h]; rfl, rfl⟩
  · exact ⟨((c.entryOf p).failed State.noRuntime).snapshot, by rw [State.snapshot?, h]; rfl, rfl⟩

/-- A new cache makes entries from what is on disk. -/
theorem State.data_entryOf_reopened {f : StoredFile}
    (hf : Keyed.get? (Store.fileName p) c.store.files = some f)
    (hr : Record.read? f.content = some r) :
    (c.reopened.entryOf p).snapshot.data = some r := by
  have hload : c.store.load? p = some (r, f.written) := by simp [Store.load?, hf, hr]
  simp [State.entryOf, State.reopened, hload]

theorem State.reopened_reopened (c : State) : c.reopened.reopened = c.reopened := rfl

theorem State.store_reopened (c : State) : c.reopened.store = c.store := rfl

/-- In a cache with nothing on disk, a watch and a dispatch put an identifier into a batch. -/
theorem exists_dispatched (p : Purl) :
    ∃ h c, Lifetime h c ∧ (∀ r, ¬Sent h r) ∧ c.running = [⟨0, [p]⟩] ∧
      (Keyed.get? p c.entries).isSome := by
  have hentry : State.empty.entryOf p = { snapshot := { purl := p } } := by
    simp [State.entryOf, State.empty, Store.load?]
  have hjoins : State.empty.Joins p := by
    refine ⟨⟨?_, ?_⟩, .inl rfl⟩
    · rw [hentry]
      rfl
    · simp [State.empty]
  have hopen : Lifetime [] State.empty := .opened rfl rfl
  have hwatched : Lifetime [(State.empty, .watch p)] (State.empty.joined p) :=
    hopen.next (by rw [State.step?, State.watch_of_joins hjoins]) trivial
  have htaken : Lifetime [(State.empty.joined p, .dispatch), (State.empty, .watch p)]
      (State.empty.joined p).dispatch.2 :=
    hwatched.next (by rw [State.step?, if_neg (by simp [State.joined, State.empty])]) trivial
  have hqueue : (State.empty.joined p).queued ≠ [] := State.insertSorted_ne_nil p []
  refine ⟨[(State.empty.joined p, .dispatch), (State.empty, .watch p)],
    (State.empty.joined p).dispatch.2, htaken, ?_, ?_, ?_⟩
  · rintro r ⟨c, b, hmem⟩
    simp at hmem
  · rw [State.dispatch_of_ne_nil hqueue]
    rfl
  · rw [State.get?_dispatch, State.joined, State.setEntry, Keyed.get?_put, if_pos rfl]
    rfl

/-- A cache gets a record for an identifier that it watches, and the next cache watches the
identifier: it shows what the file of the record is read as. -/
theorem exists_restart {text : String} (hr₀ : Record.read? text = some r₀) (hp : p ∈ r₀.forms)
    (hr : Record.read? r₀.write = some r) :
    ∃ h c s, Lifetime h c ∧ (∀ r', Sent h r' → r' = r₀) ∧ c.snapshot? p = some s ∧
      s.data = some r := by
  obtain ⟨h, c, hl, hnone, hrun, hentry⟩ := exists_dispatched p
  have hb : (⟨0, [p]⟩ : Batch) ∈ c.running := by simp [hrun]
  have hstep : c.step? (.apply ⟨0, [p]⟩ r₀) = some (c.applyRecord r₀).1 := by
    rw [State.step?, if_pos hb]
  have hsaved : Keyed.get? (Store.fileName p) (c.applyRecord r₀).1.store.files =
      some ⟨r₀.write, c.now⟩ := by
    rw [State.applyRecord, State.get?_store_applyForms, if_pos ⟨hp, hentry⟩]
  have hnew : Lifetime ((c, .apply ⟨0, [p]⟩ r₀) :: h) (c.applyRecord r₀).1.reopened :=
    .restarted (hl.next hstep ⟨text, hr₀⟩) (State.reopened_reopened _)
      (State.store_reopened _)
  generalize (c.applyRecord r₀).1 = c₁ at hnew hsaved
  obtain ⟨s, hs, hdata⟩ := State.snapshot?_watch c₁.reopened p
  have hwatched : Lifetime ((c₁.reopened, .watch p) :: (c, .apply ⟨0, [p]⟩ r₀) :: h)
      (c₁.reopened.watch p).2 := hnew.next rfl trivial
  have honly : ∀ r', Sent ((c₁.reopened, .watch p) :: (c, .apply ⟨0, [p]⟩ r₀) :: h) r' →
      r' = r₀ := by
    rintro r' ⟨c', b', hmem⟩
    simp only [List.mem_cons, Prod.mk.injEq, reduceCtorEq, and_false, Step.apply.injEq,
      false_or] at hmem
    obtain ⟨-, -, rfl⟩ | hmem := hmem
    · rfl
    · exact absurd ⟨c', b', hmem⟩ (hnone r')
  exact ⟨_, _, s, hwatched, honly, hs, by rw [hdata, State.data_entryOf_reopened hsaved hr]⟩

/-- A line of the service about a package, with a score that is not read back as it was: it is read
as `0.9686612783388187`, and that as `0.9686612783388188`. -/
def driftingLine : String :=
  "\x7b\"type\":\"npm\",\"name\":\"a\",\"score\":\x7b\"overall\":0.9686612783388186\x7d\x7d"

/-- The record of the line, and what its file is read as. -/
theorem exists_drifting :
    ∃ r₀ r, Record.read? driftingLine = some r₀ ∧ ⟨"pkg:npm/a"⟩ ∈ r₀.forms ∧
      Record.read? r₀.write = some r ∧ r.ratings.overall ≠ r₀.ratings.overall := by
  have hrun : (Record.read? driftingLine).any (fun r₀ => r₀.forms.contains ⟨"pkg:npm/a"⟩ &&
      (Record.read? r₀.write).any fun r => r.ratings.overall ≠ r₀.ratings.overall) = true := by
    decide +kernel
  obtain ⟨r₀, hr₀, hrun⟩ := (Option.any_eq_true _ _).mp hrun
  obtain ⟨hform, hrun⟩ := Bool.and_eq_true_iff.mp hrun
  obtain ⟨r, hr, hne⟩ := (Option.any_eq_true _ _).mp hrun
  exact ⟨r₀, r, hr₀, List.contains_iff_mem.mp hform, hr, of_decide_eq_true hne⟩

/-! ## What is shown -/

/-- No step takes the data of an entry away. -/
theorem State.step?_data {e : Entry} (hs : c.step? s = some c')
    (he : Keyed.get? p c.entries = some e) (hd : e.snapshot.data.isSome) :
    ∃ e', Keyed.get? p c'.entries = some e' ∧ e'.snapshot.data.isSome := by
  have hknown : (Keyed.get? p c.entries).isSome := by simp [he]
  obtain ⟨e', he'⟩ := Option.isSome_iff_exists.mp (State.step?_known hs hknown)
  refine ⟨e', he', ?_⟩
  obtain ⟨_, _, _, -, -, -, rfl⟩ | ⟨-, hk⟩ := State.step?_entry hs he'
  · rfl
  · rw [hk.data, State.entryOf_of_get? he]
    exact hd

theorem Run.data {e : Entry} (hr : Run c h c') (he : Keyed.get? p c.entries = some e)
    (hd : e.snapshot.data.isSome) :
    ∃ e', Keyed.get? p c'.entries = some e' ∧ e'.snapshot.data.isSome := by
  induction hr with
  | start => exact ⟨e, he, hd⟩
  | next _ hs ih =>
    obtain ⟨e₁, he₁, hd₁⟩ := ih
    exact State.step?_data hs he₁ hd₁

theorem mem_forms {r : Record} : p ∈ r.forms ↔ p = r.unversioned ∨ p = r.versioned := by
  unfold Record.forms
  split
  · next heq => simp [heq]
  · simp

/-- **What is shown is what has come**: the data of an entry is of the identifier itself and is a
record that has come, or what such a record is read back as if a double of it does not survive. An
entry has data if and only if it has a time, and no step takes data away. -/
theorem shown_of_lifetime (hl : Lifetime h c) {s : Snapshot} (hs : c.snapshot? p = some s) :
    (∀ r, s.data = some r → (p = r.unversioned ∨ p = r.versioned) ∧
      ∃ r₀, Sent h r₀ ∧
        (r = r₀ ∨ ¬r₀.Survives ∧ Record.read? r₀.write = some r ∧
          r.coordinates = r₀.coordinates)) ∧
    (s.data.isSome ↔ s.updated.isSome) ∧
    (s.data.isSome → ∀ h' c', Run c h' c' → ∃ s', c'.snapshot? p = some s' ∧ s'.data.isSome) := by
  obtain ⟨e, he, rfl⟩ := Option.map_eq_some_iff.mp hs
  have hsent := hl.provenance.entries p e he
  refine ⟨fun r hr => ?_, hsent.dated, fun hd h' c' hrun => ?_⟩
  · obtain ⟨r₀, hr₀, rfl | hread⟩ := hsent.data r hr
    · exact ⟨mem_forms.mp hr₀.form, r, hr₀.sent, .inl rfl⟩
    · have hcoords := Record.coordinates_of_read?_write hread
      have hform := mem_forms.mp hr₀.form
      rw [Record.unversioned, Record.versioned, ← hcoords] at hform
      refine ⟨hform, r₀, hr₀.sent, ?_⟩
      by_cases hx : r₀.Survives
      · obtain ⟨text, htext⟩ := hr₀.readable
        rw [Record.read?_write_of_survives htext hx] at hread
        exact .inl (Option.some.inj hread).symm
      · exact .inr ⟨hx, hread, hcoords⟩
  · obtain ⟨e', he', hd'⟩ := hrun.data he hd
    exact ⟨e'.snapshot, by simp [State.snapshot?, he'], hd'⟩

/-- After a restart the package, the time and the origin of what is shown are right. -/
theorem shown_of_restart :
    ∃ h c s r, Lifetime h c ∧ c.snapshot? ⟨"pkg:npm/a"⟩ = some s ∧ s.data = some r ∧
      s.updated.isSome ∧ (⟨"pkg:npm/a"⟩ = r.unversioned ∨ ⟨"pkg:npm/a"⟩ = r.versioned) ∧
      ∃ r₀, Sent h r₀ ∧ r.coordinates = r₀.coordinates := by
  obtain ⟨r₀, r, hr₀, hform, hr, -⟩ := exists_drifting
  obtain ⟨h, c, s, hl, -, hs, hdata⟩ := exists_restart hr₀ hform hr
  obtain ⟨hshown, hdated, -⟩ := shown_of_lifetime hl hs
  obtain ⟨hof, r₁, hsent, hfrom⟩ := hshown r hdata
  refine ⟨h, c, s, r, hl, hs, hdata, hdated.mp (by rw [hdata]; rfl), hof, r₁, hsent, ?_⟩
  obtain rfl | ⟨-, -, hcoords⟩ := hfrom
  · rfl
  · exact hcoords

/-- After the same restart a record is shown that has never come. -/
theorem not_sent_of_restart :
    ∃ h c s r, Lifetime h c ∧ c.snapshot? ⟨"pkg:npm/a"⟩ = some s ∧ s.data = some r ∧
      ¬Sent h r := by
  obtain ⟨r₀, r, hr₀, hform, hr, hne⟩ := exists_drifting
  obtain ⟨h, c, s, hl, honly, hs, hdata⟩ := exists_restart hr₀ hform hr
  refine ⟨h, c, s, r, hl, hs, hdata, fun hsent => hne ?_⟩
  rw [honly r hsent]

end DepScope.Cache
