import DepScope.Proofs.References
import DepScope.Proofs.Text.Lines

/-!
# DepScope.Proofs.References.Union

Reference sets that are put together from others.

1. A set can be taken apart into mentions again (`mentions`), and adding all of them to another set is
   the union of the two (`union`). Mentions that are gathered in two parts are gathered into the union
   of the parts (`ofMentions_append`), although a part keeps only one flag for each identifier and the
   mentions of one identifier together.
2. A set may stand on later lines (`down`), which is the same before and after gathering
   (`ofMentions_down`).
3. A reader that mentions on each line what it mentions in that line alone, only further down, gives the
   union of what it gives for the lines (`read_eq_byLines`).
-/

namespace DepScope

open Package Text

/-! ## Places on later lines -/

/-- The same place, some lines further down. -/
def Text.Position.down (n : Nat) (p : Position) : Position :=
  ⟨p.line + n, p.column⟩

/-- The same stretch, some lines further down. -/
def Text.Range.down (n : Nat) (r : Range) : Range :=
  ⟨r.start.down n, r.stop.down n⟩

/-- The same mention, some lines further down. -/
def Mention.down (n : Nat) (m : Mention) : Mention :=
  { m with range := m.range.down n }

/-- The same reference, some lines further down. -/
def Reference.down (n : Nat) (r : Reference) : Reference :=
  ⟨r.builtin, r.ranges.map (·.down n)⟩

variable {m m' : Mention} {ms ms' : List Mention} {es : List (Purl × Reference)} {n : Nat}

namespace References

/-- All references of a set, some lines further down. -/
def down (n : Nat) (rs : References) : References where
  entries := rs.entries.map fun e => (e.1, e.2.down n)
  distinct := by simpa [Function.comp_def] using rs.distinct
  mentioned := by
    intro e he
    obtain ⟨e', he', rfl⟩ := List.mem_map.mp he
    simpa [Reference.down] using rs.mentioned e' he'

theorem insertMention_down (m : Mention) (es : List (Purl × Reference)) :
    insertMention (m.down n) (es.map fun e => (e.1, e.2.down n)) =
      (insertMention m es).map fun e => (e.1, e.2.down n) := by
  induction es with
  | nil => simp [insertMention, Mention.down, Reference.down]
  | cons e es ih =>
    obtain ⟨p, r⟩ := e
    have hpurl : (m.down n).purl = m.purl := rfl
    simp only [List.map_cons, insertMention, hpurl]
    split
    · simp [Reference.down, Mention.down]
    · rw [ih, List.map_cons]

/-- **Mentions further down** are gathered into the set that is further down. -/
theorem ofMentions_down (n : Nat) (ms : List Mention) :
    ofMentions (ms.map (·.down n)) = (ofMentions ms).down n := by
  induction ms using List.reverseRecOn with
  | nil => rfl
  | append_singleton ms m ih =>
    rw [List.map_append, List.map_singleton, ofMentions_concat, ih, ofMentions_concat]
    simp only [add, down, insertMention_down]

/-! ## Mentions of a set -/

/-- The mentions that entries stand for: the identifiers in their order, each with all its ranges. -/
def mentionsOf (es : List (Purl × Reference)) : List Mention :=
  es.flatMap fun e => e.2.ranges.map fun range => ⟨e.1, e.2.builtin, range⟩

/-- The mentions that a set stands for. -/
def mentions (rs : References) : List Mention :=
  mentionsOf rs.entries

/-- A set with all references of another one. -/
def union (a b : References) : References :=
  b.mentions.foldl add a

theorem mentionsOf_cons (e : Purl × Reference) (es : List (Purl × Reference)) :
    mentionsOf (e :: es) =
      (e.2.ranges.map fun range => ⟨e.1, e.2.builtin, range⟩) ++ mentionsOf es :=
  List.flatMap_cons

theorem purl_mem_of_mem_mentionsOf (h : m ∈ mentionsOf es) : m.purl ∈ es.map (·.1) := by
  obtain ⟨e, he, hm⟩ := List.mem_flatMap.mp h
  obtain ⟨range, -, rfl⟩ := List.mem_map.mp hm
  exact List.mem_map.mpr ⟨e, he, rfl⟩

/-! ## The order of mentions -/

/-- One more mention of an identifier that is there already can wait for those of another one. -/
theorem insertMention_comm (hne : m.purl ≠ m'.purl) (hmem : m.purl ∈ es.map (·.1)) :
    insertMention m' (insertMention m es) = insertMention m (insertMention m' es) := by
  induction es with
  | nil => cases hmem
  | cons e es ih =>
    obtain ⟨p, r⟩ := e
    by_cases hp : p = m.purl
    · simp [insertMention, hp, hne]
    · have hrest : m.purl ∈ es.map (·.1) := by
        simpa [Ne.symm hp] using hmem
      by_cases hp' : p = m'.purl
      · simp [insertMention, hp', Ne.symm hne]
      · simp [insertMention, hp, hp', ih hrest]

/-- The flag of a mention does not matter once the identifier is there. -/
theorem insertMention_flag (hp : m.purl = m'.purl) (hr : m.range = m'.range)
    (hmem : m.purl ∈ es.map (·.1)) : insertMention m es = insertMention m' es := by
  induction es with
  | nil => cases hmem
  | cons e es ih =>
    obtain ⟨p, r⟩ := e
    by_cases he : p = m.purl
    · simp [insertMention, he, hp, hr]
    · have hrest : m.purl ∈ es.map (·.1) := by
        simpa [Ne.symm he] using hmem
      have he' : p ≠ m'.purl := hp ▸ he
      simp only [insertMention, if_neg he, if_neg he', ih hrest]

theorem mem_purls_add {rs : References} {p : Purl} :
    p ∈ (rs.add m).purls ↔ p = m.purl ∨ p ∈ rs.purls :=
  mem_keys_insertMention

theorem mem_purls_foldl {rs : References} {p : Purl} (h : p ∈ rs.purls) :
    p ∈ (ms.foldl add rs).purls := by
  induction ms generalizing rs with
  | nil => exact h
  | cons m ms ih => exact ih (mem_purls_add.mpr (.inr h))

/-- One more mention of an identifier that is there already can wait for mentions of others. -/
theorem foldl_add_comm {rs : References} (hmem : m.purl ∈ rs.purls)
    (hne : ∀ x ∈ ms, m.purl ≠ x.purl) : ms.foldl add (rs.add m) = (ms.foldl add rs).add m := by
  induction ms generalizing rs with
  | nil => rfl
  | cons x ms ih =>
    obtain ⟨hx, hms⟩ := List.forall_mem_cons.mp hne
    have hswap : (rs.add m).add x = (rs.add x).add m := by
      simp only [add, insertMention_comm hx hmem]
    rw [List.foldl_cons, List.foldl_cons, hswap, ih (mem_purls_add.mpr (.inr hmem)) hms]

/-- Mentions of an identifier bring it in. -/
theorem purl_mem_foldl {rs : References} (hms : ms ≠ []) {p : Purl} (h : ∀ m ∈ ms, m.purl = p) :
    p ∈ (ms.foldl add rs).purls := by
  obtain ⟨m, ms, rfl⟩ := List.exists_cons_of_ne_nil hms
  rw [List.foldl_cons]
  exact mem_purls_foldl (mem_purls_add.mpr (.inl (h m List.mem_cons_self).symm))

/-- **A set with one more mention** is added as the set, and then the mention. -/
theorem foldl_mentionsOf_insert (rs : References) (hdistinct : (es.map (·.1)).Nodup)
    (hmentioned : ∀ e ∈ es, e.2.ranges ≠ []) (m : Mention) :
    (mentionsOf (insertMention m es)).foldl add rs = ((mentionsOf es).foldl add rs).add m := by
  induction es generalizing rs with
  | nil => rfl
  | cons e es ih =>
    obtain ⟨p, r⟩ := e
    obtain ⟨hnew, hes⟩ := List.nodup_cons.mp hdistinct
    obtain ⟨hr, hrs⟩ := List.forall_mem_cons.mp hmentioned
    simp only [insertMention]
    split
    · next hp =>
      -- the mention joins those of its identifier, and has to wait for all others
      have hthere : m.purl ∈ ((r.ranges.map fun range =>
          (⟨p, r.builtin, range⟩ : Mention)).foldl add rs).purls := by
        refine purl_mem_foldl (by simpa using hr) fun x hx => ?_
        obtain ⟨range, -, rfl⟩ := List.mem_map.mp hx
        exact hp
      have hflag (rs : References) (h : m.purl ∈ rs.purls) :
          rs.add ⟨p, r.builtin, m.range⟩ = rs.add m := by
        simp only [add]
        congr 1
        exact insertMention_flag hp rfl (hp ▸ h)
      have hother : ∀ x ∈ mentionsOf es, m.purl ≠ x.purl := fun x hx heq =>
        hnew (hp ▸ heq ▸ purl_mem_of_mem_mentionsOf hx)
      rw [mentionsOf_cons, mentionsOf_cons, List.map_append, List.map_singleton, List.foldl_append,
        List.foldl_append, List.foldl_append, List.foldl_cons, List.foldl_nil, hflag _ hthere,
        foldl_add_comm hthere hother]
    · rw [mentionsOf_cons, mentionsOf_cons, List.foldl_append, List.foldl_append, ih _ hes hrs]

theorem union_add (a b : References) (m : Mention) : a.union (b.add m) = (a.union b).add m :=
  foldl_mentionsOf_insert a b.distinct b.mentioned m

/-- **Mentions in two parts** are gathered into the union of the parts. -/
theorem ofMentions_append (ms ms' : List Mention) :
    ofMentions (ms ++ ms') = (ofMentions ms).union (ofMentions ms') := by
  induction ms' using List.reverseRecOn with
  | nil => rw [List.append_nil]; rfl
  | append_singleton ms' m ih =>
    rw [← List.append_assoc, ofMentions_concat, ih, ofMentions_concat, union_add]

/-! ## Line by line -/

/-- What a reader gives for the lines of a text, each read alone and moved to its number, put together
in their order. -/
def byLines (read : String → References) (text : String) : References :=
  (pieces '\n' text.toList).zipIdx.foldl
    (fun rs e => rs.union ((read (String.ofList e.1)).down e.2)) empty

/-- What is mentioned on the lines of a text, if each line mentions so much by itself. -/
def lineMentions (onLine : List Char → List Mention) (text : String) : List Mention :=
  (pieces '\n' text.toList).zipIdx.flatMap fun e => (onLine e.1).map (·.down e.2)

theorem lineMentions_of_line {onLine : List Char → List Mention} {l : List Char} (h : '\n' ∉ l) :
    lineMentions onLine (String.ofList l) = onLine l := by
  have hsame : Mention.down 0 = id := rfl
  rw [lineMentions, String.toList_ofList, pieces_of_notMem h, List.zipIdx_singleton,
    List.flatMap_singleton, hsame, List.map_id]

/-- Texts of lines that mention the same one by one mention the same. -/
theorem lineMentions_congr {onLine : List Char → List Mention} {α : Type} {xs : List α}
    {f g : α → List Char} (hf : ∀ x ∈ xs, '\n' ∉ f x) (hg : ∀ x ∈ xs, '\n' ∉ g x)
    (h : ∀ x ∈ xs, onLine (f x) = onLine (g x)) :
    lineMentions onLine (String.ofList (joinWith ['\n'] (xs.map f))) =
      lineMentions onLine (String.ofList (joinWith ['\n'] (xs.map g))) := by
  cases xs with
  | nil => rfl
  | cons x xs =>
    have hlines (k : α → List Char) (hk : ∀ y ∈ x :: xs, '\n' ∉ k y) :
        lineMentions onLine (String.ofList (joinWith ['\n'] ((x :: xs).map k))) =
          (x :: xs).zipIdx.flatMap fun e => (onLine (k e.1)).map (·.down e.2) := by
      rw [lineMentions, String.toList_ofList, pieces_joinWith (by simp) (by simpa using hk),
        List.zipIdx_map, List.flatMap_map]
      rfl
    rw [hlines f hf, hlines g hg]
    refine List.flatMap_congr fun e he => ?_
    rw [h e.1 (List.mem_of_getElem? (List.mem_zipIdx_iff_getElem?.mp he))]

/-- **A reader of lines**: if what it gathers from each part of a text is what the lines of the part
mention by themselves, it reads the text line by line. -/
theorem read_eq_byLines {read : String → References} {onLine : List Char → List Mention}
    {text : String}
    (hread : ∀ t : String, t.toList <:+: text.toList → read t = ofMentions (lineMentions onLine t)) :
    read text = byLines read text := by
  have hline : ∀ l ∈ pieces '\n' text.toList, read (String.ofList l) = ofMentions (onLine l) := by
    intro l hl
    have hpart : (String.ofList l).toList <:+: text.toList := by
      rw [String.toList_ofList]
      exact isInfix_of_mem_pieces hl
    rw [hread _ hpart, lineMentions_of_line (notMem_of_mem_pieces hl)]
  have hgen (es : List (List Char × Nat)) (hes : ∀ e ∈ es, e.1 ∈ pieces '\n' text.toList) :
      ofMentions (es.flatMap fun e => (onLine e.1).map (·.down e.2)) =
        es.foldl (fun rs e => rs.union ((read (String.ofList e.1)).down e.2)) empty := by
    induction es using List.reverseRecOn with
    | nil => rfl
    | append_singleton es e ih =>
      obtain ⟨hes, he⟩ := List.forall_mem_append.mp hes
      rw [List.flatMap_append, ofMentions_append, ih hes, List.foldl_append, List.foldl_cons,
        List.foldl_nil, List.flatMap_singleton, ofMentions_down,
        hline e.1 (he e List.mem_cons_self)]
  rw [hread text (List.infix_refl _), lineMentions, byLines]
  exact hgen _ fun e he => List.mem_of_getElem? (List.mem_zipIdx_iff_getElem?.mp he)

end References

end DepScope
