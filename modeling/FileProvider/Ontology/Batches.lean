import FileProvider.Ontology.Changes
import FileProvider.Ontology.System

/-!
# Batches and what they keep

Every edit keeps a stored graph stored, and so does a batch: its changes are edits one after the
other (`applyChanges_ok`). `Applied` is what a batch that succeeds did, and `OntologyInvariant` is
what holds of the ontology in every workspace the stores and the semantic filesystems reach.

The invariants of the ontology are proved in two steps: for an edit, and then for a batch by
induction over its changes. `Reachable` adds the steps of the stores, which leave the ontology as it
is.
-/

namespace FileProvider

open Bytes Fallible Ontology OntologyFileSystem Relation

variable {L : JsonLibrary} {objects : ObjectTables} {next : Nat} {g g' : GraphTables}
  {b b' : Batch} {e : EventText} {marks : Marks}

/-! ## Edits of stored graphs -/

/-- A row of a key that is put in or replaced is there, and every other that was there. -/
theorem Table.find_upsert_ne_none {ρ κ : Type} {key : ρ → κ} [DecidableEq κ] {t : Table key}
    {r : ρ} {k : κ} (h : key r = k ∨ t.find k ≠ none) : (t.upsert r).find k ≠ none := by
  rw [Table.find_upsert]
  split
  · exact Option.some_ne_none _
  · next hk => exact h.resolve_left hk

/-- A row with the edges of the class and the other rows. -/
theorem ParentsWritten.mem {c : OntologyClass} {parents : Table (id : ParentRow → ParentRow)}
    (h : ParentsWritten g c parents) {p : ParentRow} (hp : p ∈ parents) :
    p ∈ g.parents ∨ (p.child = c.key ∧ p.parent ∈ c.parents) := by
  cases hmoved : reparented (getClass g c.key) c with
  | true => exact (((h.moved hmoved).1 p).1 hp).imp_left And.left
  | false => exact .inl (h.same hmoved ▸ hp)

/-- An entity's node names no file. -/
theorem GraphStorage.entity_node (hg : GraphStorage L g) (k : Bytes) :
    (g.nodes.find (OntologyResource.mk .entity k).node).bind (·.objectKey) = none := by
  cases hfind : g.nodes.find (OntologyResource.mk .entity k).node with
  | none => rfl
  | some n =>
      obtain ⟨hmem, hkey⟩ := Table.find_eq_some.1 hfind
      rcases hg.nodes n hmem with ⟨k', rfl⟩ | ⟨k', -, hnone⟩
      · have hkey : (OntologyResource.mk .file k').node
            = (OntologyResource.mk .entity k).node := hkey
        cases OntologyResource.node_injective hkey
      · exact hnone

/-- **An edit keeps a stored graph stored.** -/
theorem Edit.storage (hg : GraphStorage L g) (h : Edit L objects g g' e marks) :
    GraphStorage L g' := by
  cases h with
  | @ontologyClass c j before after parents hj hbefore hafter hne hexist hwritten =>
      have hkeep : ∀ k, g.classes.find k ≠ none →
          (g.classes.upsert ⟨c.key, c.label, c.description⟩).find k ≠ none :=
        fun k hk => Table.find_upsert_ne_none (.inr hk)
      refine ⟨?_, ?_, hg.nodes, ?_, hg.statements, hg.directories⟩
      · intro p hp
        rcases hwritten.mem hp with hp | ⟨hchild, hparent⟩
        · exact (hg.parents p hp).imp (hkeep _) (hkeep _)
        · exact ⟨Table.find_upsert_ne_none (.inl hchild.symm), hkeep _ (hexist _ hparent)⟩
      · intro row hrow
        obtain ⟨p, j, hp, ht, hkey, hdomain, hrange⟩ := hg.properties row hrow
        exact ⟨p, j, hp, ht, hkey, hdomain.imp_right (hkeep _), hrange.imp_right (hkeep _)⟩
      · intro t ht
        exact (hg.types t ht).imp_right (hkeep _)
  | @ontologyProperty p j before after old hj hafter hdomain hrange =>
      refine ⟨hg.parents, ?_, hg.nodes, hg.types, ?_, hg.directories⟩
      · intro row hrow
        rcases Table.mem_upsert.1 hrow with ⟨hrow, -⟩ | rfl
        · exact hg.properties row hrow
        · exact ⟨p, j, hj, hafter, rfl, hdomain, hrange⟩
      · intro s hs
        obtain ⟨hsubject, hpredicate, hrest⟩ := hg.statements s hs
        exact ⟨hsubject, Table.find_upsert_ne_none (.inr hpredicate), hrest⟩
  | @ontologyEntity entity key after hkey hafter =>
      have hkeep : ∀ k, g.nodes.find k ≠ none → (g.nodes.upsert
          ⟨key, (g.nodes.find key).bind (·.objectKey), after⟩).find k ≠ none :=
        fun k hk => Table.find_upsert_ne_none (.inr hk)
      refine ⟨hg.parents, hg.properties, ?_, ?_, ?_, hg.directories⟩
      · intro n hn
        rcases Table.mem_upsert.1 hn with ⟨hn, -⟩ | rfl
        · exact hg.nodes n hn
        · exact .inr ⟨entity.key, hkey, hkey ▸ hg.entity_node entity.key⟩
      · intro t ht
        exact (hg.types t ht).imp_left (hkeep _)
      · intro s hs
        obtain ⟨hsubject, hpredicate, htarget, hvalue⟩ := hg.statements s hs
        exact ⟨hkeep _ hsubject, hpredicate, fun k hk => hkeep k (htarget k hk), hvalue⟩
  | @addType subject classKey document nodes hgrow hnode hclass =>
      refine ⟨hg.parents, hg.properties, ?_, ?_, ?_, hg.directories⟩
      · intro n hn
        rcases hgrow.added n hn with hn | ⟨k, hk, -⟩
        · exact hg.nodes n hn
        · exact .inl ⟨k, hk⟩
      · intro t ht
        rcases Table.mem_orInsert.1 ht with ht | ⟨rfl, -⟩
        · exact (hg.types t ht).imp_left hgrow.find
        · exact ⟨hnode, hclass⟩
      · intro s hs
        obtain ⟨hsubject, hpredicate, htarget, hvalue⟩ := hg.statements s hs
        exact ⟨hgrow.find hsubject, hpredicate, fun k hk => hgrow.find (htarget k hk), hvalue⟩
  | removeType =>
      exact ⟨hg.parents, hg.properties, hg.nodes,
        fun t ht => hg.types t (Table.mem_filter.1 ht).1, hg.statements, hg.directories⟩
  | @assert subject predicate value document v j nodes hgrow hnode hproperty htarget hj ht =>
      refine ⟨hg.parents, hg.properties, ?_, ?_, ?_, hg.directories⟩
      · intro n hn
        rcases hgrow.added n hn with hn | ⟨k, hk, -⟩
        · exact hg.nodes n hn
        · exact .inl ⟨k, hk⟩
      · intro t ht
        exact (hg.types t ht).imp_left hgrow.find
      · intro s hs
        rcases Table.mem_orInsert.1 hs with hs | ⟨rfl, -⟩
        · obtain ⟨hsubject, hpredicate, htarget, hvalue⟩ := hg.statements s hs
          exact ⟨hgrow.find hsubject, hpredicate, fun k hk => hgrow.find (htarget k hk), hvalue⟩
        · exact ⟨hnode, hproperty, htarget, v, ⟨j, hj, ht⟩, rfl, rfl⟩
  | retract =>
      exact ⟨hg.parents, hg.properties, hg.nodes, hg.types,
        fun s hs => hg.statements s (Table.mem_filter.1 hs).1, hg.directories⟩
  | @directory d query after directoryProperties hvalid hquery hafter hne hmem =>
      refine ⟨hg.parents, hg.properties, hg.nodes, hg.types, hg.statements, ?_⟩
      intro row hrow
      rcases Table.mem_upsert.1 hrow with ⟨hrow, hother⟩ | rfl
      · obtain ⟨label, q, hstored, hconditions⟩ := hg.directories row hrow
        exact ⟨label, q, hstored, fun c hc => (hmem _).2 (.inl ⟨hconditions c hc, hother⟩)⟩
      · exact ⟨d.label, d.query, ⟨query, hquery, hafter⟩,
          fun c hc => (hmem _).2 (.inr ⟨rfl, List.mem_map_of_mem hc⟩)⟩
  | @removeDirectory d hd =>
      refine ⟨hg.parents, hg.properties, hg.nodes, hg.types, hg.statements, ?_⟩
      intro row hrow
      obtain ⟨hrow, hother⟩ := Table.mem_filter.1 hrow
      obtain ⟨label, q, hstored, hconditions⟩ := hg.directories row hrow
      exact ⟨label, q, hstored, fun c hc => Table.mem_filter.2 ⟨hconditions c hc, hother⟩⟩

/-- The files that the nodes name are there. -/
def GraphTables.Owned (objects : ObjectTables) (g : GraphTables) : Prop :=
  ∀ n ∈ g.nodes, ∀ k ∈ n.objectKey, objects.objects.find k ≠ none

/-- Nodes that are added belong to objects of the package. -/
theorem NodesGrow.owned {t t' : Table NodeRow.key} (h : NodesGrow objects t t')
    (ht : ∀ n ∈ t, ∀ k ∈ n.objectKey, objects.objects.find k ≠ none) :
    ∀ n ∈ t', ∀ k ∈ n.objectKey, objects.objects.find k ≠ none := by
  intro n hn k hk
  rcases h.added n hn with hn | ⟨k', rfl, hobject⟩
  · exact ht n hn k hk
  · obtain rfl := Option.some.inj hk
    exact hobject

/-- An edit names no file that is not there. -/
theorem Edit.owned (hg : g.Owned objects) (h : Edit L objects g g' e marks) :
    g'.Owned objects := by
  cases h with
  | ontologyClass | ontologyProperty | removeType | retract | directory | removeDirectory =>
      exact hg
  | addType hgrow => exact hgrow.owned hg
  | assert hgrow => exact hgrow.owned hg
  | @ontologyEntity entity key after hkey =>
      intro n hn k hk
      rcases Table.mem_upsert.1 hn with ⟨hn, -⟩ | rfl
      · exact hg n hn k hk
      · obtain ⟨old, hold, hk⟩ := Option.bind_eq_some_iff.1 hk
        exact hg old (Table.mem_of_find hold) k hk

/-- A change keeps what the graph's storage promises. -/
theorem Changed.storage (hg : GraphStorage L b.graph) (h : Changed L objects next b b') :
    GraphStorage L b'.graph := by
  cases h with
  | nothing n =>
      exact ⟨hg.parents, hg.properties, hg.nodes, hg.types, hg.statements, hg.directories⟩
  | edit e marks h => exact h.edit.storage hg

/-- A change keeps the nodes owned. -/
theorem Changed.owned (hg : b.graph.Owned objects) (h : Changed L objects next b b') :
    b'.graph.Owned objects := by
  cases h with
  | nothing n => exact hg
  | edit e marks h => exact h.edit.owned hg

/-- What every change keeps of a graph, the changes of a batch keep. -/
theorem graph_of_changes {I : GraphTables → Prop}
    (hstep : ∀ {b b'}, I b.graph → Changed L objects next b b' → I b'.graph)
    (h : ReflTransGen (Changed L objects next) b b') (hb : I b.graph) : I b'.graph := by
  induction h with
  | refl => exact hb
  | tail _ hchange ih => exact hstep ih hchange

/-! ## Batches -/

/-- **The changes of a batch are edits one after the other.** The induction is on the changes, each
of which is a step from the batch that the changes before it have left. -/
theorem applyChanges_ok {token : StopToken} :
    ∀ {changes : List OntologyChange} {polls : Nat} {b : Batch}, GraphStorage L b.graph →
    OntologyFileSystem.applyChanges L objects next token changes polls b = .ok b' →
    ReflTransGen (Changed L objects next) b b' ∧ GraphStorage L b'.graph
  | [], _, b, hg, h => by
      rw [OntologyFileSystem.applyChanges, pure_ok] at h
      subst h
      exact ⟨.refl, hg⟩
  | change :: changes, polls, b, hg, h => by
      simp only [OntologyFileSystem.applyChanges, bind_ok] at h
      obtain ⟨-, -, b₁, hchange, hrest⟩ := h
      have hfirst := applyChange_ok hg hchange
      obtain ⟨hchanges, hg'⟩ := applyChanges_ok (hfirst.storage hg) hrest
      exact ⟨.head hfirst hchanges, hg'⟩

/-- What a batch that succeeds did: it changed something and was committed under the next
revision, or it has no event. -/
structure Applied (L : JsonLibrary) (objects : ObjectTables) (o : OntologyTables) (b : Batch)
    (session : Bytes) (now : Int) (revision : Nat) (o' : OntologyTables) : Prop where
  active : activeSession objects session = true
  bound : o.revision < int64Max
  changes : ReflTransGen (Changed L objects (o.revision + 1)) (.start o) b
  graph : o'.graph = b.graph
  journal : o'.journal = b.journal
  journalSequence : o'.journalSequence = b.journalSequence
  newRevision : o'.revision = revision
  unchanged : b.events = 0 → o'.commits = o.commits ∧ revision = o.revision
  committed : b.events ≠ 0 → validateBatch L objects b = .ok () ∧
    o.commits.insert ⟨o.revision + 1, session, now⟩ = some o'.commits ∧
    revision = o.revision + 1

/-- **What `apply` does.** The tests of the source come first, then the changes, and the commit is
only written if there was an event. -/
theorem apply_ok {m : OntologyImpl} {o o' : OntologyTables} {changes : List OntologyChange}
    {expected revision : Nat} {session : Bytes} {token : StopToken} {now : Int}
    (hg : GraphStorage L o.graph)
    (h : apply L objects m o changes expected session token now = .ok (revision, o')) :
    ∃ b, Applied L objects o b session now revision o' := by
  simp only [apply, bind_ok, failIf_ok, Bool.not_eq_false] at h
  obtain ⟨-, -, -, -, -, -, -, -, -, -, -, hexpected, -, hactive, b, hchanges, h⟩ := h
  rw [not_or, not_not, not_le] at hexpected
  obtain ⟨rfl, hbound⟩ := hexpected
  obtain ⟨hsteps, -⟩ := applyChanges_ok hg hchanges
  refine ⟨b, ?_⟩
  unfold commit at h
  split at h
  · next hnone =>
      simp only [bind_ok, pure_ok, Prod.mk.injEq] at h
      obtain ⟨-, -, rfl, rfl⟩ := h
      exact ⟨hactive, hbound, hsteps, rfl, rfl, rfl, rfl, fun _ => ⟨rfl, rfl⟩,
        fun hsome => absurd hnone hsome⟩
  · next hsome =>
      simp only [bind_ok, pure_ok, Prod.mk.injEq] at h
      obtain ⟨_, hvalid, written, hwritten, -, -, rfl, rfl⟩ := h
      simp only [OntologyTables.insertCommit, bind_ok, orFail_ok, pure_ok] at hwritten
      obtain ⟨-, -, commits, hinsert, -, -, rfl⟩ := hwritten
      exact ⟨hactive, hbound, hsteps, rfl, rfl, rfl, rfl, fun hnone => absurd hnone hsome,
        fun _ => ⟨hvalid, hinsert, rfl⟩⟩

/-! ## The journal of a batch -/

/-- What the changes of a batch so far did to the journal. -/
structure Journaled (next : Nat) (o : OntologyTables) (b : Batch) : Prop where
  kept : ∀ j ∈ o.journal, j ∈ b.journal
  added : ∀ j ∈ b.journal, j ∈ o.journal ∨ (j.revision = next ∧
    j.beforeJson.length + j.afterJson.length ≤ maximumBatchJournalBytes)
  sequence : ∀ j ∈ b.journal, 1 ≤ j.sequence ∧ j.sequence ≤ b.journalSequence
  none : b.events = 0 → b.journal = o.journal ∧ b.journalSequence = o.journalSequence

/-- A change keeps its events journalled. An event takes the next number of the journal, so that the
events of the batch follow one another. -/
theorem Changed.journaled {o : OntologyTables} (hb : Journaled next o b)
    (h : Changed L objects next b b') : Journaled next o b' := by
  cases h with
  | nothing n => exact ⟨hb.kept, hb.added, hb.sequence, hb.none⟩
  | edit e marks h =>
      have hmem : ∀ j, j ∈ b'.journal ↔ j ∈ b.journal ∨ j = ⟨b.journalSequence + 1, next,
          e.operation, e.subject, e.before, e.after⟩ := fun j => Table.mem_insert h.journal
      refine ⟨fun j hj => (hmem j).2 (.inl (hb.kept j hj)), ?_, ?_, ?_⟩
      · intro j hj
        rcases (hmem j).1 hj with hj | rfl
        · exact hb.added j hj
        · have hbytes := h.journalBytes
          have hbounded := h.bounded
          refine .inr ⟨rfl, ?_⟩
          show e.before.length + e.after.length ≤ _
          omega
      · intro j hj
        rw [h.journalSequence]
        rcases (hmem j).1 hj with hj | rfl
        · exact (hb.sequence j hj).imp_right fun hle => hle.trans (Nat.le_succ _)
        · exact ⟨Nat.succ_pos _, le_rfl⟩
      · intro hnone
        have hevents := h.events
        omega

/-- So do several changes, by induction on them. -/
theorem journaled_of_changes {o : OntologyTables}
    (hsequence : ∀ j ∈ o.journal, 1 ≤ j.sequence ∧ j.sequence ≤ o.journalSequence)
    (h : ReflTransGen (Changed L objects next) (.start o) b) : Journaled next o b := by
  induction h with
  | refl => exact ⟨fun _ hj => hj, fun _ hj => .inl hj, hsequence, fun _ => ⟨rfl, rfl⟩⟩
  | tail _ hchange ih => exact hchange.journaled ih

/-! ## The invariant -/

/-- What holds of the ontology of a package. -/
structure OntologyInvariant (L : JsonLibrary) (objects : ObjectTables) (o : OntologyTables) :
    Prop where
  storage : GraphStorage L o.graph
  owned : o.graph.Owned objects
  sequence : ∀ j ∈ o.journal, 1 ≤ j.sequence ∧ j.sequence ≤ o.journalSequence
  committed : ∀ j ∈ o.journal, o.commits.find j.revision ≠ none
  bounded : ∀ j ∈ o.journal,
    j.beforeJson.length + j.afterJson.length ≤ maximumBatchJournalBytes

namespace OntologyInvariant

variable {o o' : OntologyTables}

/-- An empty ontology satisfies the invariant. -/
theorem empty (L : JsonLibrary) (objects : ObjectTables) :
    OntologyInvariant L objects .empty where
  storage := .empty L
  owned _ h := absurd h (Table.not_mem_empty _)
  sequence _ h := absurd h (Table.not_mem_empty _)
  committed _ h := absurd h (Table.not_mem_empty _)
  bounded _ h := absurd h (Table.not_mem_empty _)

/-- Objects stay. -/
theorem of_extends {objects' : ObjectTables} (h : OntologyInvariant L objects o)
    (hext : Extends objects objects') : OntologyInvariant L objects' o where
  storage := h.storage
  owned n hn k hk := by
    obtain ⟨row, hrow⟩ := Option.ne_none_iff_exists'.1 (h.owned n hn k hk)
    obtain ⟨row', hrow', -⟩ := hext.objects k row hrow
    rw [hrow']
    exact Option.some_ne_none _
  sequence := h.sequence
  committed := h.committed
  bounded := h.bounded

/-- A batch keeps the invariant. The commit has the next revision and every new event names it, so
that no row is left without its commit. -/
theorem applied {session : Bytes} {now : Int} {revision : Nat}
    (h : OntologyInvariant L objects o) (ha : Applied L objects o b session now revision o') :
    OntologyInvariant L objects o' := by
  have hjournal := journaled_of_changes h.sequence ha.changes
  have hold : ∀ j ∈ o.journal, o'.commits.find j.revision ≠ none := by
    intro j hj
    by_cases hevents : b.events = 0
    · rw [(ha.unchanged hevents).1]
      exact h.committed j hj
    · rw [(Table.find_insert (ha.committed hevents).2.1).2]
      split
      · exact Option.some_ne_none _
      · exact h.committed j hj
  refine ⟨?_, ?_, ?_, ?_, ?_⟩
  · rw [ha.graph]
    exact graph_of_changes Changed.storage ha.changes h.storage
  · rw [ha.graph]
    exact graph_of_changes Changed.owned ha.changes h.owned
  · rw [ha.journal, ha.journalSequence]
    exact hjournal.sequence
  · intro j hj
    rw [ha.journal] at hj
    rcases hjournal.added j hj with hj | ⟨hrevision, -⟩
    · exact hold j hj
    · by_cases hevents : b.events = 0
      · rw [(hjournal.none hevents).1] at hj
        exact hold j hj
      · rw [(Table.find_insert (ha.committed hevents).2.1).2, if_pos hrevision.symm]
        exact Option.some_ne_none _
  · intro j hj
    rw [ha.journal] at hj
    rcases hjournal.added j hj with hj | ⟨-, hbound⟩
    · exact h.bounded j hj
    · exact hbound

end OntologyInvariant

namespace Workspace

variable {P : Platform} {clock : Int → Prop} {w w' : Workspace} {container : Bytes}
  {events : List Event}

/-- What holds of every workspace the stores and the semantic filesystems reach. -/
structure Sound (P : Platform) (container : Bytes) (w : Workspace) : Prop where
  package : Package.Sound P container w.package
  ontology : OntologyInvariant P.json w.package.tables w.ontology

/-- **One step of a workspace** keeps it sound. The steps of the package extend it, which keeps the
references to it, and a commit of the graph is the lemma about batches. -/
theorem Step.sound {e : Event} (h : Step P clock w e w') (hs : Sound P container w) :
    Sound P container w' := by
  obtain ⟨hpackage, hext⟩ := h.keeps hs.package
  refine ⟨hpackage, ?_⟩
  cases h with
  | start | commit | fail => exact hs.ontology.of_extends hext
  | apply _ _ h =>
      obtain ⟨b, ha⟩ := apply_ok hs.ontology.storage h
      exact hs.ontology.applied ha

/-- A state the stores and the semantic filesystems can bring a freshly created package to. -/
def Reachable (P : Platform) (clock : Int → Prop) (container : Bytes) (w : Workspace) : Prop :=
  ∃ events, Run (Step P clock) (fresh container) events w

/-- Every reachable workspace is sound. -/
theorem Reachable.sound (h : Reachable P clock container w) : Sound P container w := by
  obtain ⟨events, hrun⟩ := h
  exact hrun.invariant (fun hs hstep => hstep.sound hs)
    ⟨Package.sound_fresh P container, .empty P.json _⟩

/-- Calls run on a new package one after the other, and then a batch is applied. -/
theorem Reachable.of_exec {calls : List (Call × Draws)} {responses : List Response}
    {db : ObjectTables} {changes : List OntologyChange} {revision : Nat} {session : Bytes}
    {o : OntologyTables}
    (hexec : Package.exec .reference .reference calls (.fresh (ascii "c")) = .ok (responses, db))
    (happly : apply Platform.reference.json db ⟨ascii "c", false⟩ .empty changes 0 session
      (fun _ => false) 0 = .ok (revision, o)) :
    Reachable .reference (fun _ => True) (ascii "c") ⟨⟨db, []⟩, o⟩ := by
  obtain ⟨events, hrun, -⟩ := Package.run_of_exec Package.opens_reference hexec
  have hext := Package.Run.extends hrun (Package.sound_fresh .reference (ascii "c"))
  exact ⟨_, (run_of_package hrun .empty).snoc
    (.apply ⟨hext.userVersion, hext.containerKey⟩ trivial happly)⟩

end Workspace

end FileProvider
