import FileProvider.Ontology.Replay

/-!
# The history of the ontology

`Told` says that the rows of the journal replay to the graph and that every one of them names the
document held before it; a change keeps it, and so does a batch. `Chronicle` adds the commits: they
are numbered from one to the revision, and each has an event and a session. A batch that is undone,
or whose changes alter nothing, adds to neither.

The two invariants are kept apart because the journal is about the changes of a batch and the
commits are about its end. A batch without an effect is recognised by its being idle, and not by its
tables.
-/

namespace FileProvider

open Bytes Fallible Ontology OntologyFileSystem Relation ReplayedGraph

variable {P : Platform} {L : JsonLibrary} {objects objects' : ObjectTables} {next : Nat}
  {g g' : GraphTables} {b b' : Batch} {o o' : OntologyTables}

/-! ## The journal of a batch -/

/-- The last event is replayed on what the others give. -/
theorem replay_concat {l : List JournalRow} {j : JournalRow} {r : ReplayedGraph}
    (h : replay L l = .ok r) : replay L (l ++ [j]) = r.record L j := by
  unfold replay at h ⊢
  rw [List.foldlM_append, h]
  exact bind_pure (r.record L j)

/-- The journal tells the graph: it replays to what the tables hold, and every event changes
something, from the document held before it. -/
structure Told (L : JsonLibrary) (journal : List JournalRow) (last : Nat) (g : GraphTables) :
    Prop where
  replay : replay L journal = .ok g.content
  held : ∀ before j, before ++ [j] <+: journal → j.beforeJson ≠ j.afterJson ∧
    ∃ r, ReplayedGraph.replay L before = .ok r ∧ r.HeldBefore L j
  ascending : Keyset.Ascending JournalRow.sequence journal
  last : ∀ j ∈ journal, j.sequence ≤ last

/-- The empty journal tells the empty graph. -/
theorem Told.empty (L : JsonLibrary) : Told L [] 0 .empty where
  replay := rfl
  held _ _ h := by cases List.append_eq_nil_iff.1 (List.prefix_nil.1 h) |>.2
  ascending := .nil
  last _ h := by cases h

/-- **A change keeps the journal telling the graph.** -/
theorem Changed.told (hg : GraphStorage L b.graph)
    (hb : Told L b.journal.rows b.journalSequence b.graph) (h : Changed L objects next b b') :
    Told L b'.journal.rows b'.journalSequence b'.graph := by
  cases h with
  | nothing n => exact ⟨hb.replay, hb.held, hb.ascending, hb.last⟩
  | edit e marks h =>
      have hrecorded := h.edit.recorded hg
      rw [Table.rows_insert h.journal, h.journalSequence]
      refine ⟨?_, ?_, ?_, ?_⟩
      · rw [replay_concat hb.replay]
        exact hrecorded.record _ _
      · intro before j hfront
        rcases List.prefix_concat_iff.1 hfront with heq | hfront
        · obtain ⟨rfl, hj⟩ := List.append_inj' heq rfl
          obtain rfl := List.singleton_inj.1 hj
          exact ⟨hrecorded.differs, _, hb.replay, hrecorded.held _ _⟩
        · exact hb.held before j hfront
      · refine List.pairwise_append.2 ⟨hb.ascending, List.pairwise_singleton _ _, ?_⟩
        intro j hj j' hj'
        obtain rfl := List.mem_singleton.1 hj'
        exact Nat.lt_succ_of_le (hb.last j hj)
      · intro j hj
        rcases List.mem_append.1 hj with hj | hj
        · exact (hb.last j hj).trans (Nat.le_succ _)
        · obtain rfl := List.mem_singleton.1 hj
          exact le_rfl

/-- The changes of a batch keep the journal telling the graph. -/
theorem told_of_changes (hg : GraphStorage L o.graph)
    (ho : Told L o.journal.rows o.journalSequence o.graph)
    (h : ReflTransGen (Changed L objects next) (.start o) b) :
    Told L b.journal.rows b.journalSequence b.graph := by
  induction h with
  | refl => exact ho
  | tail hchanges hchange ih =>
      exact hchange.told (graph_of_changes Changed.storage hchanges hg) ih

/-- A batch with events has one of its revision. -/
theorem event_of_changes (h : ReflTransGen (Changed L objects next) (.start o) b)
    (hevents : b.events ≠ 0) : ∃ j ∈ b.journal, j.revision = next := by
  induction h with
  | refl => exact absurd rfl hevents
  | tail _ hchange ih =>
      cases hchange with
      | nothing n => exact ih hevents
      | edit e marks h => exact ⟨_, (Table.mem_insert h.journal).2 (.inr rfl), rfl⟩

/-! ## Batches that alter nothing -/

/-- No change of a batch alters anything: each leaves what the graph holds. -/
def Idle (L : JsonLibrary) (objects : ObjectTables) (next : Nat) :
    List OntologyChange → Batch → Prop
  | [], _ => True
  | change :: changes, b => ∀ b', applyChange L objects next b change = .ok b' →
      b'.graph.content = b.graph.content ∧ Idle L objects next changes b'

/-- The tables after a batch. The transaction of one that throws is rolled back. -/
def OntologyTables.after (o : OntologyTables) : Fallible (Nat × OntologyTables) → OntologyTables
  | .ok (_, o') => o'
  | .error _ => o

/-- A change that leaves what the graph holds has no event. -/
theorem Changed.events_eq (hg : GraphStorage L b.graph) (h : Changed L objects next b b')
    (hsame : b'.graph.content = b.graph.content) : b'.events = b.events := by
  cases h with
  | nothing n => rfl
  | edit e marks h => exact absurd hsame (h.edit.recorded hg).alters

/-- Changes that are idle write no event, by induction on them. -/
theorem Idle.events_eq {token : StopToken} : ∀ {changes : List OntologyChange} {polls : Nat}
    {b : Batch}, GraphStorage L b.graph → Idle L objects next changes b →
    OntologyFileSystem.applyChanges L objects next token changes polls b = .ok b' →
    b'.events = b.events
  | [], _, b, _, _, h => by
      rw [OntologyFileSystem.applyChanges, pure_ok] at h
      rw [h]
  | change :: changes, polls, b, hg, hidle, h => by
      simp only [OntologyFileSystem.applyChanges, bind_ok] at h
      obtain ⟨-, -, b₁, hchange, hrest⟩ := h
      obtain ⟨hsame, hidle'⟩ := hidle b₁ hchange
      have hfirst := applyChange_ok hg hchange
      rw [hidle'.events_eq (hfirst.storage hg) hrest, hfirst.events_eq hg hsame]

/-- A batch whose changes alter nothing adds no event, no commit and no revision. -/
theorem Idle.unchanged {m : OntologyImpl} {changes : List OntologyChange}
    {expected revision : Nat} {session : Bytes} {token : StopToken} {now : Int}
    (hidle : Idle L objects (o.revision + 1) changes (.start o))
    (hg : OntologyInvariant L objects o)
    (h : apply L objects m o changes expected session token now = .ok (revision, o')) :
    o'.journal = o.journal ∧ o'.commits = o.commits ∧ o'.revision = o.revision := by
  simp only [apply, bind_ok] at h
  obtain ⟨-, -, -, -, -, -, -, -, -, -, -, -, -, -, b, hchanges, hcommit⟩ := h
  obtain ⟨hsteps, -⟩ := applyChanges_ok hg.storage hchanges
  have hevents : b.events = 0 := hidle.events_eq hg.storage hchanges
  obtain ⟨hjournal, -⟩ := (journaled_of_changes hg.sequence hsteps).none hevents
  unfold commit at hcommit
  rw [if_pos hevents] at hcommit
  simp only [bind_ok, pure_ok, Prod.mk.injEq] at hcommit
  obtain ⟨-, -, -, rfl⟩ := hcommit
  exact ⟨hjournal, rfl, rfl⟩

/-! ## Reachable workspaces -/

/-- The journal and the commits of an ontology. -/
structure Chronicle (L : JsonLibrary) (objects : ObjectTables) (o : OntologyTables) : Prop where
  told : Told L o.journal.rows o.journalSequence o.graph
  revisions : o.commits.rows.map (·.revision) = List.range' 1 o.revision
  recorded : ∀ c ∈ o.commits, (∃ j ∈ o.journal, j.revision = c.revision) ∧
    objects.sessions.find c.sessionKey ≠ none

/-- The empty ontology has its history told. -/
theorem Chronicle.empty (L : JsonLibrary) (objects : ObjectTables) :
    Chronicle L objects .empty where
  told := .empty L
  revisions := rfl
  recorded _ h := absurd h (Table.not_mem_empty _)

/-- Sessions stay. -/
theorem Chronicle.of_extends (h : Chronicle L objects o) (hext : Extends objects objects') :
    Chronicle L objects' o where
  told := h.told
  revisions := h.revisions
  recorded c hc := by
    obtain ⟨hevent, hsession⟩ := h.recorded c hc
    obtain ⟨row, hrow⟩ := Option.ne_none_iff_exists'.1 hsession
    obtain ⟨ended, hkept⟩ := hext.sessions _ row hrow
    exact ⟨hevent, hkept ▸ Option.some_ne_none _⟩

/-- A batch continues the chronicle. The events of the batch stand behind those of before, and its
commit behind the commits. -/
theorem Chronicle.applied {session : Bytes} {now : Int} {revision : Nat}
    (hg : OntologyInvariant L objects o) (h : Chronicle L objects o)
    (ha : Applied L objects o b session now revision o') : Chronicle L objects o' := by
  have hjournal := journaled_of_changes hg.sequence ha.changes
  have htold : Told L o'.journal.rows o'.journalSequence o'.graph := by
    rw [ha.journal, ha.journalSequence, ha.graph]
    exact told_of_changes hg.storage h.told ha.changes
  have hkept : ∀ c ∈ o.commits, (∃ j ∈ o'.journal, j.revision = c.revision) ∧
      objects.sessions.find c.sessionKey ≠ none := by
    intro c hc
    obtain ⟨⟨j, hj, hrevision⟩, hsession⟩ := h.recorded c hc
    exact ⟨⟨j, ha.journal ▸ hjournal.kept j hj, hrevision⟩, hsession⟩
  by_cases hevents : b.events = 0
  · obtain ⟨hcommits, hrevision⟩ := ha.unchanged hevents
    refine ⟨htold, ?_, ?_⟩
    · rw [hcommits, ha.newRevision, hrevision]
      exact h.revisions
    · rw [hcommits]
      exact hkept
  · obtain ⟨-, hinsert, hrevision⟩ := ha.committed hevents
    refine ⟨htold, ?_, ?_⟩
    · rw [Table.rows_insert hinsert, List.map_append, h.revisions, ha.newRevision, hrevision,
        List.range'_1_concat, Nat.add_comm 1]
      rfl
    · intro c hc
      rcases (Table.mem_insert hinsert).1 hc with hc | rfl
      · exact hkept c hc
      · refine ⟨?_, fun hnone => ?_⟩
        · rw [ha.journal]
          exact event_of_changes ha.changes hevents
        · have hactive := ha.active
          rw [activeSession, hnone] at hactive
          cases hactive

namespace Workspace

variable {clock : Int → Prop} {w w' : Workspace} {container : Bytes}

/-- A sound workspace with the chronicle of its ontology. -/
structure Chronicled (P : Platform) (container : Bytes) (w : Workspace) : Prop where
  sound : Sound P container w
  chronicle : Chronicle P.json w.package.tables w.ontology

/-- Each step keeps the history told. -/
theorem Step.chronicled {e : Event} (h : Step P clock w e w') (hw : Chronicled P container w) :
    Chronicled P container w' := by
  obtain ⟨-, hext⟩ := h.keeps hw.sound.package
  refine ⟨h.sound hw.sound, ?_⟩
  cases h with
  | start | commit | fail => exact hw.chronicle.of_extends hext
  | apply _ _ happly =>
      obtain ⟨b, ha⟩ := apply_ok hw.sound.ontology.storage happly
      exact hw.chronicle.applied hw.sound.ontology ha

/-- Every reachable workspace has its chronicle. -/
theorem Reachable.chronicle (h : Reachable P clock container w) :
    Chronicle P.json w.package.tables w.ontology := by
  obtain ⟨events, hrun⟩ := h
  have hstart : Chronicled P container (fresh container) :=
    ⟨⟨Package.sound_fresh P container, .empty P.json _⟩, .empty P.json _⟩
  exact (hrun.invariant (fun hw hstep => hstep.chronicled hw) hstart).chronicle

/-- **The journal replays to the graph.** In every reachable workspace the events of the journal, in
the order of their sequence numbers, build what the graph holds from nothing, each from the document
held before it; the commits are those of the revisions one to the last, each with an event and a
session; and a batch that throws, or whose changes alter nothing, adds nothing. -/
theorem Reachable.journal_replay (h : Reachable P clock container w) :
    (∃ events, Keyset.orderBy JournalRow.sequence w.ontology.journal.rows = events ∧
      replay P.json events = .ok w.ontology.graph.content ∧
      ∀ before j, before ++ [j] <+: events →
        j.beforeJson ≠ j.afterJson ∧
          ∃ r, replay P.json before = .ok r ∧ r.HeldBefore P.json j) ∧
    w.ontology.commits.rows.map (·.revision) = List.range' 1 w.ontology.revision ∧
    (∀ c ∈ w.ontology.commits, (∃ j ∈ w.ontology.journal, j.revision = c.revision) ∧
      w.package.tables.sessions.find c.sessionKey ≠ none) ∧
    ∀ (m : OntologyImpl) changes expected session cancellation now result,
      apply P.json w.package.tables m w.ontology changes expected session cancellation now
        = result →
      ((∃ what, result = .error what) ∨
        Idle P.json w.package.tables (w.ontology.revision + 1) changes (.start w.ontology)) →
      (w.ontology.after result).journal = w.ontology.journal ∧
        (w.ontology.after result).commits = w.ontology.commits ∧
        (w.ontology.after result).revision = w.ontology.revision := by
  obtain ⟨htold, hrevisions, hrecorded⟩ := h.chronicle
  refine ⟨⟨_, Keyset.orderBy_eq_self htold.ascending, htold.replay,
    htold.held⟩, hrevisions, hrecorded, ?_⟩
  intro m changes expected session cancellation now result hresult hnothing
  cases result with
  | error what => exact ⟨rfl, rfl, rfl⟩
  | ok y =>
      obtain ⟨revision, o'⟩ := y
      have hidle := hnothing.resolve_left fun ⟨_, herror⟩ => by cases herror
      exact hidle.unchanged h.sound.ontology hresult

/-- The journal of the sample's graph is not empty, and folded over the empty graph it gives the
content of the graph. -/
theorem Reachable.journal_replay_sample : ∃ w : Workspace, w.ontology.journal.rows ≠ [] ∧
    (∃ events, Keyset.orderBy JournalRow.sequence w.ontology.journal.rows = events ∧
      replay Platform.reference.json events = .ok w.ontology.graph.content) ∧
    w.ontology.commits.rows.map (·.revision) = List.range' 1 w.ontology.revision := by
  have hok : (Package.exec .reference .reference (Package.sampleCalls.take 2)
      (.fresh (ascii "c")) >>= fun x =>
        OntologyFileSystem.apply Platform.reference.json x.2 ⟨ascii "c", false⟩ .empty sampleFile 0
          Package.sampleSession (fun _ => false) 0 >>= fun y =>
            failIf (y.2.journal.rows = []) "unexpected").isOk = true := by
    decide +kernel
  obtain ⟨_, h⟩ := exists_of_isOk hok
  obtain ⟨⟨responses, db⟩, hexec, h⟩ := bind_ok.1 h
  obtain ⟨⟨revision, o⟩, happly, hrows⟩ := bind_ok.1 h
  obtain ⟨⟨events, horder, hreplay, -⟩, hrevisions, -⟩ :=
    Reachable.journal_replay (Reachable.of_exec hexec happly)
  exact ⟨⟨⟨db, []⟩, o⟩, failIf_ok.1 hrows, ⟨events, horder, hreplay⟩, hrevisions⟩

end Workspace

end FileProvider
