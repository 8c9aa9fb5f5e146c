import DepScope.Documents.Workspace
import DepScope.Proofs.Cache.Subscribers

/-!
# DepScope.Proofs.Documents.Operations

What each operation of a workspace does, said once. A workspace is seen through the references of
its documents (`references?`), the documents that the tracker of an identifier names (`holders`),
the trackers themselves and the cache.

* `track_cases`, `release_cases`: all that can happen when a document comes to refer to an
  identifier, or no longer does;
* `mem_holders_trackAll`, `mem_holders_close`: who refers to an identifier then;
* `flag?_trackAll`, `flag?_close`: which flag a tracker has then;
* `called_trackAll`, `called_close`: the cache is only called, so that no data changes;
* `get?_beginUpdate`, `get?_accept`, `get?_close`: the documents after an update or a close.

Later proofs cite these and unfold no operation.
-/

namespace DepScope.Cache

open Package

/-! ## Calls of the cache -/

/-- Is a step a call of a client, as opposed to something that happens by itself? -/
def Step.isCall : Step → Bool
  | watch _ | subscribe .. | unsubscribe .. => true
  | _ => false

theorem Step.answers_of_isCall {s : Step} (h : s.isCall = true) (p : Purl) :
    s.answers p = false := by
  cases s <;> first | rfl | cases h

/-- One cache comes from another by calls alone. -/
def Called (c c' : State) : Prop :=
  ∃ h, Run c h c' ∧ ∀ x ∈ h, x.2.isCall = true

variable {c c' c'' : State} {p : Purl} {e : Entry}

theorem Called.refl (c : State) : Called c c := ⟨[], .start, List.forall_mem_nil _⟩

theorem Called.call {s : Step} (hcall : Called c c') (hs : c'.step? s = some c'')
    (h : s.isCall = true) : Called c c'' := by
  obtain ⟨hist, hr, hall⟩ := hcall
  exact ⟨_, hr.next hs, List.forall_mem_cons.mpr ⟨h, hall⟩⟩

theorem Called.trans (hcall : Called c c') (hcall' : Called c' c'') : Called c c'' := by
  obtain ⟨h, hr, hall⟩ := hcall
  obtain ⟨h', hr', hall'⟩ := hcall'
  exact ⟨h' ++ h, hr.trans hr', List.forall_mem_append.mpr ⟨hall', hall⟩⟩

/-- Calls keep the data of an entry. -/
theorem Called.kept (hcall : Called c c') (he : Keyed.get? p c.entries = some e) :
    ∃ e', Keyed.get? p c'.entries = some e' ∧ e.Kept e' := by
  obtain ⟨h, hr, hall⟩ := hcall
  exact hr.kept (fun x hx => Step.answers_of_isCall (hall x hx) p) he

end DepScope.Cache

namespace DepScope.Documents

open Package Cache

/-! ## Lists of documents -/

/-- Documents are kept in order as the identifiers of a queue are. -/
theorem map_insertUri (u : String) (us : List String) :
    (insertUri u us).map Purl.mk = insertSorted ⟨u⟩ (us.map Purl.mk) := by
  induction us with
  | nil => rfl
  | cons v us ih =>
    simp only [insertUri, List.map_cons, insertSorted, Purl.mk.injEq]
    split
    · rfl
    · split
      · rfl
      · rw [List.map_cons, ih]

theorem mem_insertUri {u v : String} {us : List String} : v ∈ insertUri u us ↔ v = u ∨ v ∈ us := by
  have hmem (us : List String) : v ∈ us ↔ ⟨v⟩ ∈ us.map Purl.mk := by simp
  rw [hmem, map_insertUri, State.mem_insertSorted, ← hmem, Purl.mk.injEq]

theorem pairwise_insertUri {u : String} {us : List String} (h : us.Pairwise (· < ·)) :
    (insertUri u us).Pairwise (· < ·) := by
  have hmap (us : List String) :
      (us.map Purl.mk).Pairwise (·.text < ·.text) ↔ us.Pairwise (· < ·) := List.pairwise_map
  rw [← hmap, map_insertUri]
  exact State.pairwise_insertSorted ((hmap us).mpr h)

namespace Workspace

variable {w w' : Workspace} {uri v : String} {p q : Purl} {r : Reference} {t t' : Tracker}
  {d : Document} {rs : References}

/-- The documents that the tracker of an identifier names. -/
def holders (w : Workspace) (p : Purl) : List String :=
  ((Keyed.get? p w.packages).map (·.documents)).getD []

/-- Two workspaces that differ at most in their packages and their cache. -/
structure Agree (w w' : Workspace) : Prop where
  documents : w'.documents = w.documents
  tokens : w'.tokens = w.tokens
  cancelled : w'.cancelled = w.cancelled

theorem Agree.refl (w : Workspace) : Agree w w := ⟨rfl, rfl, rfl⟩

theorem Agree.trans {w₁ w₂ w₃ : Workspace} (h : Agree w₁ w₂) (h' : Agree w₂ w₃) : Agree w₁ w₃ where
  documents := h'.documents.trans h.documents
  tokens := h'.tokens.trans h.tokens
  cancelled := h'.cancelled.trans h.cancelled

/-! ## Tracking -/

/-- The tracker of an identifier after a document has come to refer to it. -/
def joined (w : Workspace) (uri : String) (p : Purl) (r : Reference) : Tracker :=
  let t := (Keyed.get? p w.packages).getD { builtin := !isWatched p r }
  { t with documents := insertUri uri t.documents }

/-- **A document refers to an identifier**: its tracker is made if need be and names the document.
If the reference is looked up, the identifier is watched, and subscribed to unless it is. -/
theorem track_cases (w : Workspace) (uri : String) (p : Purl) (r : Reference) :
    (isWatched p r = false ∧
      w.track uri p r = { w with packages := Keyed.put p (w.joined uri p r) w.packages }) ∨
    (∃ id, isWatched p r = true ∧ (w.joined uri p r).subscription = some id ∧
      w.track uri p r =
        { w with
          cache := (w.cache.watch p).2
          packages := Keyed.put p (w.joined uri p r) w.packages }) ∨
    (isWatched p r = true ∧ (w.joined uri p r).subscription = none ∧
      w.track uri p r =
        { w with
          cache := ((w.cache.watch p).2.subscribe p .documents).2
          packages := Keyed.put p
            { w.joined uri p r with
              subscription := some ((w.cache.watch p).2.subscribe p .documents).1 }
            w.packages }) := by
  unfold track
  cases hw : isWatched p r with
  | false => exact .inl ⟨rfl, by simp [joined, hw]⟩
  | true =>
    cases hs : (w.joined uri p r).subscription with
    | none =>
      simp only [joined, hw, Bool.not_true] at hs
      exact .inr (.inr ⟨rfl, rfl, by simp [joined, hw, hs]⟩)
    | some id =>
      simp only [joined, hw, Bool.not_true] at hs
      exact .inr (.inl ⟨id, rfl, rfl, by simp [joined, hw, hs]⟩)

/-- **A document no longer refers to an identifier**: its tracker names the documents that are left,
or goes, with its subscription, if there is none. -/
theorem release_cases (w : Workspace) (uri : String) (p : Purl) :
    (Keyed.get? p w.packages = none ∧ w.release uri p = w) ∨
    (∃ t, Keyed.get? p w.packages = some t ∧ t.documents.filter (· ≠ uri) ≠ [] ∧
      w.release uri p =
        { w with
          packages := Keyed.put p { t with documents := t.documents.filter (· ≠ uri) }
            w.packages }) ∨
    (∃ t c, Keyed.get? p w.packages = some t ∧ t.documents.filter (· ≠ uri) = [] ∧
      (t.subscription = none ∧ c = w.cache ∨
        ∃ id, t.subscription = some id ∧ c = (w.cache.unsubscribe p id).2) ∧
      w.release uri p = { w with cache := c, packages := Keyed.erase p w.packages }) := by
  unfold release
  cases ht : Keyed.get? p w.packages with
  | none => exact .inl ⟨rfl, rfl⟩
  | some t =>
    by_cases hl : t.documents.filter (· ≠ uri) = []
    · refine .inr (.inr ⟨t, _, rfl, hl, ?_, by simp only [hl, List.isEmpty_nil, if_true]; rfl⟩)
      cases t.subscription with
      | none => exact .inl ⟨rfl, rfl⟩
      | some id => exact .inr ⟨id, rfl, rfl⟩
    · exact .inr (.inl ⟨t, rfl, hl, by simp only [List.isEmpty_iff, hl, if_false]⟩)

theorem agree_track (w : Workspace) (uri : String) (p : Purl) (r : Reference) :
    Agree w (w.track uri p r) := by
  obtain ⟨-, h⟩ | ⟨_, -, -, h⟩ | ⟨-, -, h⟩ := track_cases w uri p r <;> rw [h] <;>
    exact ⟨rfl, rfl, rfl⟩

theorem agree_release (w : Workspace) (uri : String) (p : Purl) : Agree w (w.release uri p) := by
  obtain ⟨-, h⟩ | ⟨_, -, -, h⟩ | ⟨_, _, -, -, -, h⟩ := release_cases w uri p <;> rw [h] <;>
    exact ⟨rfl, rfl, rfl⟩

theorem called_track (w : Workspace) (uri : String) (p : Purl) (r : Reference) :
    Called w.cache (w.track uri p r).cache := by
  have hwatch : Called w.cache (w.cache.watch p).2 :=
    (Called.refl _).call (s := .watch p) rfl rfl
  obtain ⟨-, h⟩ | ⟨_, -, -, h⟩ | ⟨-, -, h⟩ := track_cases w uri p r <;> rw [h]
  · exact Called.refl _
  · exact hwatch
  · exact hwatch.call (s := .subscribe p .documents) rfl rfl

theorem called_release (w : Workspace) (uri : String) (p : Purl) :
    Called w.cache (w.release uri p).cache := by
  obtain ⟨-, h⟩ | ⟨_, -, -, h⟩ | ⟨_, c, -, -, hc, h⟩ := release_cases w uri p <;> rw [h]
  · exact Called.refl _
  · exact Called.refl _
  · obtain ⟨-, rfl⟩ | ⟨id, -, rfl⟩ := hc
    · exact Called.refl _
    · exact (Called.refl _).call (s := .unsubscribe p id) rfl rfl

/-- The tracker of an identifier that a document has come to refer to, and all others. -/
theorem get?_track (h : Keyed.get? q (w.track uri p r).packages = some t) :
    (q ≠ p ∧ Keyed.get? q w.packages = some t) ∨
    (q = p ∧ t.documents = (w.joined uri p r).documents ∧
      t.builtin = (w.joined uri p r).builtin) := by
  by_cases hq : q = p
  · subst hq
    refine .inr ⟨rfl, ?_⟩
    obtain ⟨-, ht⟩ | ⟨_, -, -, ht⟩ | ⟨-, -, ht⟩ := track_cases w uri q r <;>
      rw [ht, Keyed.get?_put, if_pos rfl] at h <;> cases h <;> exact ⟨rfl, rfl⟩
  · refine .inl ⟨hq, ?_⟩
    obtain ⟨-, ht⟩ | ⟨_, -, -, ht⟩ | ⟨-, -, ht⟩ := track_cases w uri p r <;>
      rwa [ht, Keyed.get?_put, if_neg (Ne.symm hq)] at h

/-- A tracker that is left after a release was there before. -/
theorem get?_release (h : Keyed.get? q (w.release uri p).packages = some t) :
    ∃ t₀, Keyed.get? q w.packages = some t₀ ∧ t.builtin = t₀.builtin ∧
      t.subscription = t₀.subscription := by
  obtain ⟨-, hr⟩ | ⟨t₀, ht₀, -, hr⟩ | ⟨t₀, c, ht₀, -, -, hr⟩ := release_cases w uri p <;>
    rw [hr] at h
  · exact ⟨t, h, rfl, rfl⟩
  · rw [Keyed.get?_put] at h
    split at h
    · next hp =>
      cases h
      exact ⟨t₀, hp ▸ ht₀, rfl, rfl⟩
    · exact ⟨t, h, rfl, rfl⟩
  · rw [Keyed.get?_erase] at h
    split at h
    · cases h
    · exact ⟨t, h, rfl, rfl⟩

theorem documents_joined (w : Workspace) (uri : String) (p : Purl) (r : Reference) :
    (w.joined uri p r).documents = insertUri uri (w.holders p) := by
  unfold joined holders
  cases Keyed.get? p w.packages <;> rfl

theorem holders_track :
    (w.track uri p r).holders q = if q = p then insertUri uri (w.holders p) else w.holders q := by
  have hput (t : Tracker) (ht : t.documents = insertUri uri (w.holders p)) :
      ((Keyed.get? q (Keyed.put p t w.packages)).map (·.documents)).getD [] =
        if q = p then insertUri uri (w.holders p) else w.holders q := by
    rw [Keyed.get?_put]
    by_cases hq : q = p
    · simp [hq, ht]
    · simp [hq, Ne.symm hq, holders]
  obtain ⟨-, h⟩ | ⟨_, -, -, h⟩ | ⟨-, -, h⟩ := track_cases w uri p r <;> rw [h] <;>
    exact hput _ (documents_joined w uri p r)

theorem holders_release :
    (w.release uri p).holders q =
      if q = p then (w.holders p).filter (· ≠ uri) else w.holders q := by
  by_cases hq : q = p
  · subst hq
    rw [if_pos rfl]
    obtain ⟨ht, h⟩ | ⟨t, ht, -, h⟩ | ⟨t, c, ht, hl, -, h⟩ := release_cases w uri q <;> rw [h]
    · simp [holders, ht]
    · simp [holders, ht]
    · simp only [holders, Keyed.get?_erase, ht]
      simpa using hl
  · rw [if_neg hq]
    obtain ⟨-, h⟩ | ⟨t, -, -, h⟩ | ⟨t, c, -, -, -, h⟩ := release_cases w uri p <;> rw [h]
    · simp [holders, Ne.symm hq]
    · simp [holders, Ne.symm hq]

/-! ## Flags -/

/-- The flag of the tracker of an identifier, if it has one. -/
def flag? (w : Workspace) (p : Purl) : Option Bool :=
  (Keyed.get? p w.packages).map (·.builtin)

theorem severityOf_eq (w : Workspace) (p : Purl) :
    w.severityOf p =
      if w.flag? p = some false then .ofSnapshot (w.cache.snapshot? p) else .info := by
  unfold severityOf flag?
  cases Keyed.get? p w.packages with
  | none => simp
  | some t => cases hb : t.builtin <;> simp [hb]

theorem flag?_isSome (h : v ∈ w.holders p) : (w.flag? p).isSome := by
  unfold holders at h
  unfold flag?
  cases ht : Keyed.get? p w.packages with
  | none => simp [ht] at h
  | some t => rfl

/-- A tracker has the flag of the reference for which it was made. -/
theorem flag?_track :
    (w.track uri p r).flag? q =
      if q = p then some ((w.flag? p).getD (!isWatched p r)) else w.flag? q := by
  have hjoined : (w.joined uri p r).builtin = (w.flag? p).getD (!isWatched p r) := by
    unfold joined flag?
    cases Keyed.get? p w.packages <;> rfl
  have hput (t : Tracker) (ht : t.builtin = (w.flag? p).getD (!isWatched p r)) :
      (Keyed.get? q (Keyed.put p t w.packages)).map (·.builtin) =
        if q = p then some ((w.flag? p).getD (!isWatched p r)) else w.flag? q := by
    rw [Keyed.get?_put]
    by_cases hq : q = p
    · simp [hq, ht]
    · simp [hq, Ne.symm hq, flag?]
  obtain ⟨-, h⟩ | ⟨_, -, -, h⟩ | ⟨-, -, h⟩ := track_cases w uri p r <;> rw [h] <;>
    exact hput _ hjoined

/-- Only a tracker that is made anew gets another flag. -/
theorem flag?_release (w : Workspace) (uri : String) (p q : Purl) :
    (w.release uri p).flag? q = none ∨ (w.release uri p).flag? q = w.flag? q := by
  cases h : Keyed.get? q (w.release uri p).packages with
  | none => exact .inl (by simp [flag?, h])
  | some t =>
    obtain ⟨t₀, ht₀, hb, -⟩ := get?_release h
    exact .inr (by simp [flag?, h, ht₀, hb])

/-! ## Several identifiers -/

theorem trackEach_of {P : Workspace → Prop} (ht : ∀ w p r, P w → P (w.track uri p r)) (h : P w)
    (es : List (Purl × Reference)) : P (w.trackEach uri es) := by
  induction es generalizing w with
  | nil => exact h
  | cons e es ih => exact ih (ht w e.1 e.2 h)

theorem releaseEach_of {P : Workspace → Prop} (hr : ∀ w p, P w → P (w.release uri p)) (h : P w)
    (ps : List Purl) : P (w.releaseEach uri ps) := by
  induction ps generalizing w with
  | nil => exact h
  | cons p ps ih => exact ih (hr w p h)

/-- What every change of the tracking keeps, an update and a close keep. -/
theorem trackAll_of {P : Workspace → Prop} (ht : ∀ w p r, P w → P (w.track uri p r))
    (hr : ∀ w p, P w → P (w.release uri p)) (h : P w) (previous : Option References)
    (current : References) : P (w.trackAll uri previous current) :=
  releaseEach_of hr (trackEach_of ht h _) _

theorem mem_holders_trackEach {es : List (Purl × Reference)} :
    v ∈ (w.trackEach uri es).holders q ↔ v = uri ∧ q ∈ es.map (·.1) ∨ v ∈ w.holders q := by
  induction es generalizing w with
  | nil => simp [trackEach]
  | cons e es ih =>
    have hstep : w.trackEach uri (e :: es) = (w.track uri e.1 e.2).trackEach uri es := rfl
    rw [hstep, ih, holders_track]
    by_cases hq : q = e.1
    · rw [if_pos hq, mem_insertUri, hq]
      simp only [List.map_cons, List.mem_cons, true_or, and_true]
      grind
    · rw [if_neg hq]
      simp [hq]

theorem mem_holders_releaseEach {ps : List Purl} :
    v ∈ (w.releaseEach uri ps).holders q ↔ v ∈ w.holders q ∧ ¬(v = uri ∧ q ∈ ps) := by
  induction ps generalizing w with
  | nil => simp [releaseEach]
  | cons p ps ih =>
    have hstep : w.releaseEach uri (p :: ps) = (w.release uri p).releaseEach uri ps := rfl
    rw [hstep, ih, holders_release]
    by_cases hq : q = p
    · rw [if_pos hq, hq]
      simp only [List.mem_filter, List.mem_cons, true_or, and_true, decide_eq_true_eq]
      grind
    · rw [if_neg hq]
      simp [hq]

/-- **Who refers to an identifier after an update**: the document if it is found now, and everybody
who did before, the document apart if it was found before. -/
theorem mem_holders_trackAll {previous : Option References} {current : References} :
    v ∈ (w.trackAll uri previous current).holders q ↔
      v = uri ∧ q ∈ current.purls ∨ v ∈ w.holders q ∧ ¬(v = uri ∧ q ∈ purlsOf previous) := by
  rw [trackAll, mem_holders_releaseEach, mem_holders_trackEach]
  have hcur : q ∈ current.entries.map (·.1) ↔ q ∈ current.purls := Iff.rfl
  rw [hcur]
  simp only [List.mem_filter, Bool.not_eq_true', ← Bool.not_eq_true, References.contains_iff]
  by_cases hv : v = uri <;> by_cases hc : q ∈ current.purls <;> simp [hv, hc]

/-- The first of several references makes the tracker. -/
theorem flag?_trackEach {es : List (Purl × Reference)} :
    (w.trackEach uri es).flag? q =
      (w.flag? q).or ((es.find? fun e => decide (e.1 = q)).map fun e => !isWatched q e.2) := by
  induction es generalizing w with
  | nil => simp [trackEach]
  | cons e es ih =>
    have hstep : w.trackEach uri (e :: es) = (w.track uri e.1 e.2).trackEach uri es := rfl
    rw [hstep, ih, flag?_track]
    by_cases hq : q = e.1
    · subst hq
      cases w.flag? e.1 <;> simp
    · simp [hq, Ne.symm hq, List.find?_cons_of_neg]

theorem flag?_releaseEach (w : Workspace) (uri : String) (ps : List Purl) (q : Purl) :
    (w.releaseEach uri ps).flag? q = none ∨ (w.releaseEach uri ps).flag? q = w.flag? q := by
  induction ps generalizing w with
  | nil => exact .inr rfl
  | cons p ps ih =>
    obtain h | h := ih (w.release uri p)
    · exact .inl h
    · obtain h' | h' := flag?_release w uri p q
      · exact .inl (h.trans h')
      · exact .inr (h.trans h')

/-- **The flags after an update**: a tracker that was there keeps its flag, and a new one has that
of the reference found now. -/
theorem flag?_trackAll {previous : Option References} {current : References}
    (hsome : ((w.trackAll uri previous current).flag? q).isSome) :
    (w.trackAll uri previous current).flag? q =
      (w.flag? q).or ((current.get? q).map fun r => !isWatched q r) := by
  have heach : (w.trackEach uri current.entries).flag? q =
      (w.flag? q).or ((current.get? q).map fun r => !isWatched q r) := by
    rw [flag?_trackEach, References.get?, Option.map_map]
    rfl
  rw [← heach]
  obtain h | h := flag?_releaseEach (w.trackEach uri current.entries) uri
    ((purlsOf previous).filter (!current.contains ·)) q
  · rw [trackAll, h] at hsome
    cases hsome
  · exact h

/-! ## Updates -/

theorem agree_trackAll (w : Workspace) (uri : String) (previous : Option References)
    (current : References) : Agree w (w.trackAll uri previous current) :=
  trackAll_of (fun w' p r h => h.trans (agree_track w' uri p r))
    (fun w' p h => h.trans (agree_release w' uri p)) (Agree.refl w) _ _

theorem agree_releaseEach (w : Workspace) (uri : String) (ps : List Purl) :
    Agree w (w.releaseEach uri ps) :=
  releaseEach_of (fun w' p h => h.trans (agree_release w' uri p)) (Agree.refl w) ps

theorem called_trackAll (w : Workspace) (uri : String) (previous : Option References)
    (current : References) : Called w.cache (w.trackAll uri previous current).cache :=
  trackAll_of (P := fun w' => Called w.cache w'.cache)
    (fun w' p r h => h.trans (called_track w' uri p r))
    (fun w' p h => h.trans (called_release w' uri p)) (Called.refl _) _ _

theorem called_releaseEach (w : Workspace) (uri : String) (ps : List Purl) :
    Called w.cache (w.releaseEach uri ps).cache :=
  releaseEach_of (P := fun w' => Called w.cache w'.cache)
    (fun w' p h => h.trans (called_release w' uri p)) (Called.refl _) ps

/-- **A document after an update has begun**: it has the update's generation and token, and keeps
its references. -/
theorem get?_beginUpdate (w : Workspace) (uri : String) :
    Keyed.get? v (w.beginUpdate uri).2.documents =
      if v = uri then
        some ⟨(w.beginUpdate uri).1.generation, w.tokens, w.references? uri⟩
      else Keyed.get? v w.documents := by
  by_cases hv : v = uri
  · subst hv
    unfold beginUpdate references?
    cases Keyed.get? v w.documents <;> simp [cancel]
  · unfold beginUpdate
    cases Keyed.get? uri w.documents <;> simp [cancel, hv, Ne.symm hv]

/-- An update that begins cancels the token of its document and no other. -/
theorem cancelled_beginUpdate (w : Workspace) (uri : String) :
    (w.beginUpdate uri).2.cancelled =
      ((Keyed.get? uri w.documents).map (·.token)).toList ++ w.cancelled := by
  unfold beginUpdate
  cases Keyed.get? uri w.documents <;> rfl

theorem uri_beginUpdate (w : Workspace) (uri : String) : (w.beginUpdate uri).1.uri = uri := rfl

theorem token_beginUpdate (w : Workspace) (uri : String) :
    (w.beginUpdate uri).1.token = w.tokens := by
  unfold beginUpdate
  cases Keyed.get? uri w.documents <;> rfl

theorem tokens_beginUpdate (w : Workspace) (uri : String) :
    (w.beginUpdate uri).2.tokens = w.tokens + 1 := by
  unfold beginUpdate
  cases Keyed.get? uri w.documents <;> rfl

theorem packages_beginUpdate (w : Workspace) (uri : String) :
    (w.beginUpdate uri).2.packages = w.packages := by
  unfold beginUpdate
  cases Keyed.get? uri w.documents <;> rfl

theorem cache_beginUpdate (w : Workspace) (uri : String) :
    (w.beginUpdate uri).2.cache = w.cache := by
  unfold beginUpdate
  cases Keyed.get? uri w.documents <;> rfl

theorem references?_beginUpdate (w : Workspace) (uri : String) :
    (w.beginUpdate uri).2.references? v = w.references? v := by
  rw [references?, get?_beginUpdate]
  split
  · next hv => rw [hv]; rfl
  · rfl

/-- The document of an update is the one that is open, with the generation of the update. -/
theorem current?_eq_some_iff {u : Pending} :
    w.current? u = some d ↔ Keyed.get? u.uri w.documents = some d ∧
      d.generation = u.generation ∧ u.token ∉ w.cancelled := by
  simp [current?, Option.filter_eq_some_iff]

theorem current?_eq_none_of_cancelled {u : Pending} (h : u.token ∈ w.cancelled) :
    w.current? u = none := by
  cases hd : w.current? u with
  | none => rfl
  | some d => exact absurd h (current?_eq_some_iff.mp hd).2.2

/-- **How an update finishes**: without effect, or the document goes over to what was found. -/
theorem finishUpdate_cases (w : Workspace) (u : Pending) (found : Option References) :
    (w.current? u = none ∧ w.finishUpdate u found = (.superseded, w)) ∨
    (∃ d, w.current? u = some d ∧ found = none ∧
      w.finishUpdate u found = (.noInformation, w)) ∨
    (∃ d rs, w.current? u = some d ∧ found = some rs ∧ isSame d.references rs = true ∧
      w.finishUpdate u found = (.unchanged, w.accept u.uri d rs)) ∨
    (∃ d rs, w.current? u = some d ∧ found = some rs ∧ isSame d.references rs = false ∧
      w.finishUpdate u found =
        (.rendered ((w.accept u.uri d rs).decorations u.uri), w.accept u.uri d rs)) := by
  unfold finishUpdate
  cases hd : w.current? u with
  | none => exact .inl ⟨rfl, rfl⟩
  | some d =>
    cases found with
    | none => exact .inr (.inl ⟨d, rfl, rfl, rfl⟩)
    | some rs =>
      cases hs : isSame d.references rs with
      | true => exact .inr (.inr (.inl ⟨d, rs, rfl, rfl, hs, by simp [hs]⟩))
      | false => exact .inr (.inr (.inr ⟨d, rs, rfl, rfl, hs, by simp [hs]⟩))

theorem get?_accept (w : Workspace) (uri : String) (d : Document) (rs : References) :
    Keyed.get? v (w.accept uri d rs).documents =
      if v = uri then some { d with references := some rs } else Keyed.get? v w.documents := by
  unfold accept
  dsimp only
  rw [Keyed.get?_put, (agree_trackAll w uri d.references rs).documents]
  simp only [eq_comm]

theorem flag?_accept (hsome : ((w.accept uri d rs).flag? p).isSome) :
    (w.accept uri d rs).flag? p = (w.flag? p).or ((rs.get? p).map fun r => !isWatched p r) :=
  flag?_trackAll hsome

theorem references?_accept :
    (w.accept uri d rs).references? v = if v = uri then some rs else w.references? v := by
  rw [references?, get?_accept]
  split <;> rfl

/-- **A close** forgets the document and releases what it referred to. -/
theorem close_cases (w : Workspace) (uri : String) :
    (Keyed.get? uri w.documents = none ∧ w.close uri = w) ∨
    (∃ d, Keyed.get? uri w.documents = some d ∧ Agree (w.forget uri d) (w.close uri) ∧
      w.close uri = (w.forget uri d).releaseEach uri (purlsOf (w.references? uri))) := by
  unfold close references?
  cases hd : Keyed.get? uri w.documents with
  | none => exact .inl ⟨rfl, rfl⟩
  | some d => exact .inr ⟨d, rfl, agree_releaseEach _ _ _, rfl⟩

theorem get?_close (w : Workspace) (uri : String) :
    Keyed.get? v (w.close uri).documents =
      if v = uri then none else Keyed.get? v w.documents := by
  obtain ⟨hd, h⟩ | ⟨d, -, hagree, -⟩ := close_cases w uri
  · rw [h]
    split
    · next hv => rw [hv, hd]
    · rfl
  · rw [hagree.documents, forget, Keyed.get?_erase]
    simp only [eq_comm]

theorem references?_close :
    (w.close uri).references? v = if v = uri then none else w.references? v := by
  rw [references?, get?_close]
  split <;> rfl

/-- **Who refers to an identifier after a close**: everybody who did before, the document apart. -/
theorem mem_holders_close :
    v ∈ (w.close uri).holders q ↔
      v ∈ w.holders q ∧ ¬(v = uri ∧ q ∈ purlsOf (w.references? uri)) := by
  obtain ⟨hd, h⟩ | ⟨d, -, -, h⟩ := close_cases w uri
  · simp [h, references?, hd, purlsOf]
  · rw [h, mem_holders_releaseEach]
    rfl

theorem called_close (w : Workspace) (uri : String) : Called w.cache (w.close uri).cache := by
  obtain ⟨-, h⟩ | ⟨d, -, -, h⟩ := close_cases w uri <;> rw [h]
  · exact Called.refl _
  · exact called_releaseEach (w.forget uri d) uri _

theorem flag?_close (hsome : ((w.close uri).flag? p).isSome) :
    (w.close uri).flag? p = w.flag? p := by
  obtain ⟨-, h⟩ | ⟨d, -, -, h⟩ := close_cases w uri <;> rw [h] at hsome ⊢
  obtain hnone | heq := flag?_releaseEach (w.forget uri d) uri (purlsOf (w.references? uri)) p
  · rw [hnone] at hsome
    cases hsome
  · exact heq

end Workspace

end DepScope.Documents
