import DepScope.Proofs.Documents.Tracking
import DepScope.Proofs.Package.Purl

/-!
# DepScope.Proofs.Documents.Locality

Local names stay on the machine (`local_names_stay`). As long as the documents are the only clients
of the cache, whatever is dispatched is not local, and some document has referred to it without
flagging it as part of the runtime.

Nothing gets into the queue but by a watch, the documents watch only what they accept and look up
(`mem_queued_accept`), and a batch is the queue as it was (`Run.queued_wanted`).

What is local is asked of the identifier and not of the name it was made from; the two agree.
-/

namespace DepScope.Documents

open Package Cache

/-! ## What the documents put into the queue -/

namespace Workspace

variable {w : Workspace} {uri : String} {p q : Purl} {r : Reference} {d : Document}
  {rs : References}

theorem mem_queued_watch {c : State} (h : q ∈ (c.watch p).2.queued) : q = p ∨ q ∈ c.queued := by
  cases moves_watch c p with
  | still _ queued => exact .inr (queued ▸ h)
  | joins _ queued =>
    rw [queued] at h
    exact State.mem_insertSorted.mp h

theorem mem_queued_track (h : q ∈ (w.track uri p r).cache.queued) :
    (q = p ∧ isWatched p r = true) ∨ q ∈ w.cache.queued := by
  obtain ⟨-, ht⟩ | ⟨id, hr, -, ht⟩ | ⟨hr, -, ht⟩ := track_cases w uri p r <;> rw [ht] at h
  · exact .inr h
  · exact (mem_queued_watch h).imp_left (⟨·, hr⟩)
  · have hwatch : q ∈ (w.cache.watch p).2.queued := h
    exact (mem_queued_watch hwatch).imp_left (⟨·, hr⟩)

theorem queued_release (w : Workspace) (uri : String) (p : Purl) :
    (w.release uri p).cache.queued = w.cache.queued := by
  obtain ⟨-, h⟩ | ⟨_, -, -, h⟩ | ⟨_, c, -, -, hc, h⟩ := release_cases w uri p <;> rw [h]
  obtain ⟨-, rfl⟩ | ⟨id, -, rfl⟩ := hc
  · rfl
  · cases moves_unsubscribe w.cache p id with
    | still _ queued => exact queued

theorem mem_queued_trackEach {es : List (Purl × Reference)}
    (h : q ∈ (w.trackEach uri es).cache.queued) :
    (∃ r, (q, r) ∈ es ∧ isWatched q r = true) ∨ q ∈ w.cache.queued := by
  induction es generalizing w with
  | nil => exact .inr h
  | cons e es ih =>
    obtain ⟨r, hr, hw⟩ | h := ih (w := w.track uri e.1 e.2) h
    · exact .inl ⟨r, List.mem_cons_of_mem _ hr, hw⟩
    · obtain ⟨rfl, hw⟩ | h := mem_queued_track h
      · exact .inl ⟨e.2, List.mem_cons_self, hw⟩
      · exact .inr h

theorem queued_releaseEach (w : Workspace) (uri : String) (ps : List Purl) :
    (w.releaseEach uri ps).cache.queued = w.cache.queued :=
  releaseEach_of (P := fun w' => w'.cache.queued = w.cache.queued)
    (fun w' p h => (queued_release w' uri p).trans h) rfl ps

/-- **What an update puts into the queue** is what it has found and what is looked up. -/
theorem mem_queued_accept (h : q ∈ (w.accept uri d rs).cache.queued) :
    (∃ r, rs.get? q = some r ∧ isWatched q r = true) ∨ q ∈ w.cache.queued := by
  have hcache : (w.accept uri d rs).cache = (w.trackAll uri d.references rs).cache := rfl
  rw [hcache, trackAll, queued_releaseEach] at h
  obtain ⟨r, hr, hw⟩ | h := mem_queued_trackEach h
  · exact .inl ⟨r, References.get?_eq_some_iff.mpr hr, hw⟩
  · exact .inr h

theorem queued_close (w : Workspace) (uri : String) :
    (w.close uri).cache.queued = w.cache.queued := by
  obtain ⟨-, h⟩ | ⟨d, -, -, h⟩ := close_cases w uri <;> rw [h]
  exact queued_releaseEach (w.forget uri d) uri _

end Workspace

/-! ## What a run dispatches -/

theorem isLocal_of_ecosystem? {p : Purl} {e : Ecosystem} (he : p.ecosystem? = some e) :
    isLocal p = e.isLocal p.name := by
  unfold isLocal
  split
  · next e' he' => rw [Option.some.inj (he'.symm.trans he)]
  · next hnone => cases hnone.symm.trans he

/-- Is a step a call of the cache by others than the documents? -/
def Step.isClientCall : Step → Bool
  | .cache b => b.isCall
  | _ => false

/-- The documents are the only clients of the cache: nobody else calls it. -/
def Sole (h : History) : Prop :=
  ∀ m ∈ h, m.step.isClientCall = false

/-- Some document has accepted a reference to the identifier that is not flagged as part of the
runtime. -/
def Wanted (p : Purl) (h : History) : Prop :=
  ∃ m ∈ h, ∃ u rs r, m.step = .finish u (some rs) ∧
    (m.before.finishUpdate u (some rs)).1.isAccepted = true ∧ rs.get? p = some r ∧
    r.builtin = false

variable {s₀ s : Session} {h : History} {p : Purl} {m : Moment}

theorem Wanted.cons (hp : Wanted p h) : Wanted p (m :: h) := by
  obtain ⟨m', hm', hw⟩ := hp
  exact ⟨m', List.mem_cons_of_mem _ hm', hw⟩

/-- **Whatever is in the queue is not local, and is wanted.** -/
theorem Run.queued_wanted (hn : IsNew s₀) (hr : Run s₀ h s) (hsole : Sole h)
    (hp : p ∈ s.workspace.cache.queued) : isLocal p = false ∧ Wanted p h := by
  induction hr with
  | start =>
    rw [← hn.cache] at hp
    cases hp
  | @next h s s' a es hr hs ih =>
    obtain ⟨hstep, hsole⟩ := List.forall_mem_cons.mp hsole
    -- what was in the queue before
    have hold (hp : p ∈ s.workspace.cache.queued) :
        isLocal p = false ∧ Wanted p (⟨s, a, es⟩ :: h) :=
      ⟨(ih hsole hp).1, (ih hsole hp).2.cons⟩
    cases a with
    | begin uri =>
      cases hs
      rw [Workspace.cache_beginUpdate] at hp
      exact hold hp
    | close uri =>
      cases hs
      rw [Session.close, Workspace.queued_close] at hp
      exact hold hp
    | finish u found =>
      obtain ⟨-, -, rfl⟩ | ⟨d, rs, hacc, -, rfl, hw, -⟩ := step?_finish hs
      · exact hold hp
      · rw [hw] at hp
        obtain ⟨r, hget, hwatched⟩ | hp := Workspace.mem_queued_accept hp
        · simp only [isWatched, Bool.and_eq_true, Bool.not_eq_true'] at hwatched
          exact ⟨hwatched.2, _, List.mem_cons_self, u, rs, r, rfl, hacc, hget, hwatched.1⟩
        · exact hold hp
    | cache b =>
      obtain ⟨c, ns, hc, rfl, -⟩ := step?_cache hs
      obtain ⟨h', hrc⟩ := hr.cache
      have hcall : b.isCall = false := hstep
      have hp : p ∈ c.queued := hp
      cases (hrc.coherent hn.cache).moves hc with
      | still _ queued => exact hold (queued ▸ hp)
      | joins => cases hcall
      | takes _ queued => simp [queued] at hp
      | answers queued => exact hold (queued ▸ hp)
      | ends queued => exact hold (queued ▸ hp)

/-- The batch that a step has sent on its way, if it has. -/
def dispatched? (m : Moment) : Option Batch :=
  match m.step with
  | .cache .dispatch => m.before.workspace.cache.dispatch.1
  | _ => none

/-- A batch that is dispatched is the queue. -/
theorem members_of_dispatched? {b : Batch} (hb : dispatched? m = some b) :
    b.members = m.before.workspace.cache.queued := by
  unfold dispatched? at hb
  split at hb
  · by_cases hq : m.before.workspace.cache.queued = []
    · simp [State.dispatch, hq] at hb
    · rw [State.dispatch_of_ne_nil hq] at hb
      cases hb
      rfl
  · cases hb

/-- **Local names stay on the machine.** In every run in which the documents are the only clients of
the cache, an identifier of a batch that is dispatched is not local, and some document has accepted a
reference to it before that is not flagged as part of the runtime. And what is asked of the identifier
is asked of the name it was made from: the identifier has the ecosystem and the folded name, and it is
local exactly if the name is. -/
theorem local_names_stay (hn : IsNew s₀) (hr : Run s₀ h s) (hsole : Sole h) :
    (∀ h₁ m h₂ b, h = h₂ ++ m :: h₁ → dispatched? m = some b → ∀ p ∈ b.members,
      (∀ e, p.ecosystem? = some e → e.isLocal p.name = false) ∧ Wanted p h₁) ∧
    ∀ e n, (Purl.ofName e n).ecosystem? = some e ∧ (Purl.ofName e n).name = e.foldName n ∧
      e.isLocal (Purl.ofName e n).name = e.isLocal n := by
  constructor
  · rintro h₁ m h₂ b rfl hb p hp
    obtain ⟨_, hr₁, -⟩ := hr.split
    have hsole₁ : Sole h₁ := fun m' hm' =>
      hsole m' (List.mem_append_right _ (List.mem_cons_of_mem _ hm'))
    rw [members_of_dispatched? hb] at hp
    obtain ⟨hlocal, hwanted⟩ := hr₁.queued_wanted hn hsole₁ hp
    exact ⟨fun e he => (isLocal_of_ecosystem? he).symm.trans hlocal, hwanted⟩
  · intro e n
    refine ⟨ecosystem?_ofName e n, name_ofName e n, ?_⟩
    rw [name_ofName, isLocal_foldName]

/-- A source that imports a file next to it, a part of the runtime and a package. -/
def threeImports : References :=
  .ofMentions [.ofName .npm "./util" (.ofCoords 0 0 0 8), .ofName .npm "fs" (.ofCoords 1 0 1 4),
    .ofName .npm "left-pad" (.ofCoords 2 0 2 10)]

/-- Of the three only the package is dispatched. -/
theorem local_names_stay_of_imports :
    ∃ h m s b, Run blank (m :: h) s ∧ Sole (m :: h) ∧ dispatched? m = some b ∧
      b.members = [⟨"pkg:npm/left-pad"⟩] ∧ isLocal ⟨"pkg:npm/./util"⟩ = true ∧
      ∀ p ∈ b.members, (∀ e, p.ecosystem? = some e → e.isLocal p.name = false) ∧ Wanted p h := by
  obtain ⟨h, s, hr, hsole, hdue, hb⟩ : ∃ h s, Run blank h s ∧
      (∀ m ∈ h, m.step.isClientCall = false) ∧ s.workspace.cache.scheduled ≠ 0 ∧
      s.workspace.cache.dispatch.1 = some ⟨0, [⟨"pkg:npm/left-pad"⟩]⟩ :=
    exists_run [.begin "a", .finish ⟨"a", 1, 0⟩ (some threeImports)] (by decide)
  have hs : s.step? (.cache .dispatch) = some ([], s.setCache s.workspace.cache.dispatch.2) := by
    simp [Session.step?, State.admits, State.step?, hdue]
  have hsole' : Sole (⟨s, .cache .dispatch, []⟩ :: h) := List.forall_mem_cons.mpr ⟨rfl, hsole⟩
  refine ⟨h, _, _, _, hr.next hs, hsole', hb, rfl, by decide, ?_⟩
  exact (local_names_stay isNew_blank (hr.next hs) hsole').1 h _ [] _ rfl hb

end DepScope.Documents
