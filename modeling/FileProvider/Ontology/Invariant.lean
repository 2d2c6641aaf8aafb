import FileProvider.Ontology.Queries
import FileProvider.Ontology.Validation

/-!
# The invariant of the graph

What holds of the graph in every reachable workspace, whatever batches were applied and whatever
the stores did between them: `Consistent`. A batch that changed the graph was committed only after
`validateBatch`, and `validateBatch_iff` makes that the check of the whole graph; the hierarchy of
classes is checked by the change that writes the parents of a class.

`Consistent` is stated by what the rows mean once their documents are decoded, and
`consistent_of_fullCheck` has one lemma behind it for each of its parts. That a batch keeps the
graph checked rests on `validateBatch_iff`.
-/

namespace FileProvider

open Bytes Fallible Ontology OntologyFileSystem Relation

variable {P : Platform} {L : JsonLibrary} {objects objects' : ObjectTables} {next : Nat}
  {g g' : GraphTables} {b b' : Batch} {e : EventText} {m : Marks}

/-! ## Consistent graphs -/

/-- A class is a parent of another. -/
def GraphTables.Parent (g : GraphTables) (child parent : Bytes) : Prop :=
  ⟨child, parent⟩ ∈ g.parents

/-- A node has a class, directly or by inheritance. Every node has the empty class. -/
def GraphTables.Typed (g : GraphTables) (node classKey : Bytes) : Prop :=
  classKey = [] ∨ ∃ t ∈ g.types, t.resourceKey = node ∧ ReflTransGen g.Parent t.classKey classKey

/-- A statement relates its subject to another node by a property: to the node of the resource
that the stored value decodes to. The column of the target is not looked at, so a cycle of the
values is a cycle of this relation whatever that column holds. -/
def GraphTables.Related (L : JsonLibrary) (g : GraphTables)
    (predicate subject object : Bytes) : Prop :=
  ∃ s ∈ g.statements, s.predicate = predicate ∧ s.subject = subject ∧
    ∃ r, decodeValue L s.kind.code s.value = .ok (.resource r) ∧ r.node = object

/-- A statement agrees with its property: the property exists, the stored value decodes and has
its kind, subject and target have the classes it asks for up to inheritance, and the column of the
target names the node of the value. -/
structure StatementFits (L : JsonLibrary) (g : GraphTables) (s : StatementRow) : Prop where
  typed : ∃ p v, getProperty L g s.predicate = .ok (some p) ∧
    decodeValue L s.kind.code s.value = .ok v ∧ v.kind = p.kind ∧ s.kind = p.kind ∧
    v.target = s.objectKey ∧ g.Typed s.subject p.domainClass ∧
    ∀ r, v = .resource r → g.Typed r.node p.rangeClass

/-- A consistent graph: every part of the invariant is a field. Named classes exist, every
statement fits its property, single values are single, and neither the hierarchy nor the values of
an acyclic property have a directed cycle. -/
structure Consistent (L : JsonLibrary) (objects : ObjectTables) (g : GraphTables) : Prop where
  hierarchy : Reach.Acyclic g.Parent
  parents : ∀ p ∈ g.parents, g.classes.find p.child ≠ none ∧ g.classes.find p.parent ≠ none
  types : ∀ t ∈ g.types, g.nodes.find t.resourceKey ≠ none ∧ g.classes.find t.classKey ≠ none
  properties : ∀ row ∈ g.properties, ∃ p, getProperty L g row.key = .ok (some p) ∧
    p.key = row.key ∧ g.Defines p.domainClass ∧ g.Defines p.rangeClass
  statements : ∀ s ∈ g.statements, StatementFits L g s
  single : ∀ s ∈ g.statements, ∀ s' ∈ g.statements, s.subject = s'.subject →
    s.predicate = s'.predicate → ∀ p, getProperty L g s.predicate = .ok (some p) →
    p.singleValue = true → s = s'
  acyclic : ∀ predicate p, getProperty L g predicate = .ok (some p) → p.acyclic = true →
    Reach.Acyclic (g.Related L predicate)
  directories : ∀ d ∈ g.directories, ∃ query, directoryQuery L d.document = .ok query ∧
    queryValid L objects g query = .ok ()

/-! ## From the full check -/

/-- The test for a type finds exactly the types that a node has by inheritance. -/
theorem hasType_iff_typed {node classKey : Bytes} :
    hasType g node classKey = true ↔ g.Typed node classKey := by
  unfold hasType lineage GraphTables.Typed
  rw [Bool.or_eq_true, decide_eq_true_eq, decide_eq_true_eq, Reach.mem_reach]
  refine or_congr_right ?_
  have hedge : Reach.Edge (parentEdges g) = g.Parent := by
    funext x y
    exact propext edge_parentEdges
  rw [hedge]
  simp only [List.mem_map, List.mem_filter, decide_eq_true_eq]
  constructor
  · rintro ⟨_, ⟨t, ⟨ht, hnode⟩, rfl⟩, hpath⟩
    exact ⟨t, ht, hnode, hpath⟩
  · rintro ⟨t, ht, hnode, hpath⟩
    exact ⟨_, ⟨t, ⟨ht, hnode⟩, rfl⟩, hpath⟩

/-- A property that is there is the one its document gives. -/
theorem GraphStorage.getProperty_ok (hg : GraphStorage L g) {row : PropertyRow}
    (hrow : row ∈ g.properties) : ∃ p, getProperty L g row.key = .ok (some p) ∧
      p.key = row.key ∧ g.Defines p.domainClass ∧ g.Defines p.rangeClass := by
  obtain ⟨p, j, hj, ht, hkey, hdomain, hrange⟩ := hg.properties row hrow
  refine ⟨p, ?_, hkey, hdomain, hrange⟩
  unfold getProperty
  rw [Table.mem_iff_find.1 hrow]
  show some <$> decodeProperty L row.document = _
  rw [decodeProperty_propertyJson hj ht]
  rfl

/-- The edges the check of cycles walks are those of the stored values: the column of the target
holds the node of the value, and is empty for a value that is no resource. -/
theorem GraphStorage.edge_iff_related (hg : GraphStorage L g)
    (hvalid : ∀ s ∈ g.statements, statementValid L g s = .ok ()) {predicate x y : Bytes} :
    Reach.Edge (statementEdges g predicate) x y ↔ g.Related L predicate x y := by
  rw [edge_statementEdges]
  refine exists_congr fun s => and_congr_right fun hs => and_congr_right fun _ =>
    and_congr_right fun _ => ?_
  constructor
  · intro hy
    obtain ⟨p, v, hv⟩ := statementValid_ok.1 (hvalid s hs)
    have htarget := hg.target_eq hs hv.value
    rw [hy] at htarget
    cases v with
    | resource r => exact ⟨r, hv.value, Option.some.inj htarget⟩
    | text _ | integer _ | real _ | boolean _ => cases htarget
  · rintro ⟨r, hr, rfl⟩
    exact (hg.target_eq hs hr).symm

/-- **A graph that passes the full check is consistent**, if its hierarchy has no cycle. The check
covers the statements and the directories, and the other parts are those that a stored graph has in
any case. -/
theorem consistent_of_fullCheck (hg : GraphStorage L g) (hierarchy : Reach.Acyclic g.Parent)
    (h : fullCheck L objects g = .ok ()) : Consistent L objects g := by
  obtain ⟨hstatements, hdirectories⟩ := fullCheck_ok.1 h
  refine ⟨hierarchy, hg.parents, hg.types, fun row hrow => hg.getProperty_ok hrow, ?_, ?_, ?_, ?_⟩
  · intro s hs
    obtain ⟨p, v, hv⟩ := statementValid_ok.1 (hstatements s hs)
    obtain ⟨hcode, -, -⟩ := decodeValue_ok hv.value
    rw [OntologyValueKind.ofCode?_code, Option.some.injEq] at hcode
    refine ⟨p, v, hv.property, hv.value, ?_, hv.kind.symm, hg.target_eq hs hv.value,
      hasType_iff_typed.1 hv.domain, ?_⟩
    · rw [hv.kind, hcode]
    · rintro r rfl
      have hrange := hv.range
      simp only [rangeValid, bind_ok, failIf_ok, Bool.not_eq_false] at hrange
      obtain ⟨key, hkey, hrange⟩ := hrange
      rw [← nodeKey_ok hkey]
      exact hasType_iff_typed.1 hrange
  · intro s hs s' hs' hsubject hpredicate p hp hsingle
    obtain ⟨q, v, hv⟩ := statementValid_ok.1 (hstatements s hs)
    have heq : q = p := Option.some.inj (Except.ok.inj (hv.property.symm.trans hp))
    have hcount := hv.single (heq ▸ hsingle)
    unfold statementCount at hcount
    have hmem : ∀ {r}, r ∈ g.statements → r.subject = s.subject → r.predicate = s.predicate →
        r ∈ g.statements.rows.filter
          fun r => r.subject = s.subject ∧ r.predicate = s.predicate :=
      fun hr h h' => List.mem_filter.2 ⟨hr, decide_eq_true ⟨h, h'⟩⟩
    obtain ⟨i, hi, hsi⟩ := List.getElem_of_mem (hmem hs rfl rfl)
    obtain ⟨i', hi', hsi'⟩ := List.getElem_of_mem (hmem hs' hsubject.symm hpredicate.symm)
    obtain rfl : i = i' := by omega
    exact hsi.symm.trans hsi'
  · intro predicate p hp hacyclic
    have hedge : Reach.Edge (statementEdges g predicate) = g.Related L predicate := by
      funext x y
      exact propext (hg.edge_iff_related hstatements)
    rw [← hedge]
    exact statements_acyclic hg hp hacyclic fun s hs _ => hstatements s hs
  · intro d hd
    have hvalid := hdirectories d hd
    simp only [directoryValid, bind_ok] at hvalid
    exact hvalid

/-! ## What the steps keep -/

/-- **An edit keeps the hierarchy free of cycles.** Only the edit of a class touches it, and this
one was refused if it would lead back to the class. -/
theorem Edit.hierarchy (hg : Reach.Acyclic g.Parent) (h : Edit L objects g g' e m) :
    Reach.Acyclic g'.Parent := by
  cases h with
  | ontologyProperty | ontologyEntity | addType | removeType | assert | retract | directory
  | removeDirectory => exact hg
  | @ontologyClass c j before after parents _ _ _ _ _ hwritten =>
      cases hmoved : reparented (getClass g c.key) c with
      | false =>
          obtain rfl := hwritten.same hmoved
          exact hg
      | true =>
          obtain ⟨hrows, hloop⟩ := hwritten.moved hmoved
          -- Every new edge starts at the class that was written.
          refine Reach.acyclic_of_new hg fun x y hedge hnew hpath => ?_
          rcases (hrows ⟨x, y⟩).1 hedge with ⟨hold, -⟩ | ⟨rfl, -⟩
          · exact hnew hold
          · exact hloop (TransGen.head' hedge hpath)

/-- A batch without events changed nothing but the number of the next statement. -/
theorem graph_of_no_events {o : OntologyTables}
    (h : ReflTransGen (Changed L objects next) (.start o) b) (hnone : b.events = 0) :
    ∃ n, b.graph = { o.graph with statementsSequence := n } := by
  induction h with
  | refl => exact ⟨o.graph.statementsSequence, rfl⟩
  | tail _ hchange ih =>
      cases hchange with
      | nothing n =>
          obtain ⟨_, hgraph⟩ := ih hnone
          rw [hgraph]
          exact ⟨n, rfl⟩
      | edit e m hrecorded =>
          rw [hrecorded.events] at hnone
          cases hnone

/-- Objects stay, so what was valid stays valid. -/
theorem fullCheck_extends (hext : Extends objects objects')
    (h : fullCheck L objects g = .ok ()) : fullCheck L objects' g = .ok () := by
  obtain ⟨hstatements, hdirectories⟩ := fullCheck_ok.1 h
  refine fullCheck_ok.2 ⟨hstatements, fun d hd => ?_⟩
  have hvalid := hdirectories d hd
  simp only [directoryValid, bind_ok] at hvalid ⊢
  obtain ⟨query, hquery, hvalid⟩ := hvalid
  refine ⟨query, hquery, (Marked.refl g ⟨[], [], false⟩).valid_query ?_
    (fun _ _ => List.not_mem_nil) hvalid⟩
  intro k hk
  obtain ⟨row, hrow⟩ := Option.ne_none_iff_exists'.1 hk
  obtain ⟨row', hrow', -⟩ := hext.objects k row hrow
  rw [hrow']
  exact Option.some_ne_none _

/-- **A batch keeps the graph checked.** Without an event the graph is as it was, and otherwise the
batch was checked before it was stored. -/
theorem Applied.fullCheck {o o' : OntologyTables} {session : Bytes} {now : Int} {revision : Nat}
    (hg : GraphStorage L o.graph) (hfull : fullCheck L objects o.graph = .ok ())
    (h : Applied L objects o b session now revision o') :
    FileProvider.fullCheck L objects o'.graph = .ok () := by
  rw [h.graph]
  by_cases hevents : b.events = 0
  · obtain ⟨n, hgraph⟩ := graph_of_no_events h.changes hevents
    rw [hgraph]
    exact hfull
  · exact (validateBatch_iff hg hfull h.changes).1 (h.committed hevents).1

namespace Workspace

variable {clock : Int → Prop} {w w' : Workspace} {container : Bytes}

/-- What the steps keep of a workspace's graph. -/
structure Checked (P : Platform) (container : Bytes) (w : Workspace) : Prop where
  sound : Sound P container w
  hierarchy : Reach.Acyclic w.ontology.graph.Parent
  full : fullCheck P.json w.package.tables w.ontology.graph = .ok ()

/-- **One step of a workspace** keeps its graph checked. -/
theorem Step.checked {e : Event} (h : Step P clock w e w') (hw : Checked P container w) :
    Checked P container w' := by
  obtain ⟨-, hext⟩ := h.keeps hw.sound.package
  refine ⟨h.sound hw.sound, ?_, ?_⟩
  · cases h with
    | start | commit | fail => exact hw.hierarchy
    | apply _ _ happly =>
        obtain ⟨b, ha⟩ := apply_ok hw.sound.ontology.storage happly
        have hkept := graph_of_changes (I := fun g => Reach.Acyclic g.Parent) (fun hb hchange => by
          cases hchange with
          | nothing n => exact hb
          | edit e m hrecorded => exact hrecorded.edit.hierarchy hb) ha.changes hw.hierarchy
        rwa [← ha.graph] at hkept
  · cases h with
    | start | commit | fail => exact fullCheck_extends hext hw.full
    | apply _ _ happly =>
        obtain ⟨b, ha⟩ := apply_ok hw.sound.ontology.storage happly
        exact ha.fullCheck hw.sound.ontology.storage hw.full

/-- Every reachable workspace has a checked graph. -/
theorem Reachable.checked (h : Reachable P clock container w) : Checked P container w := by
  obtain ⟨events, hrun⟩ := h
  have hstart : Checked P container (fresh container) := by
    refine ⟨⟨Package.sound_fresh P container, .empty P.json _⟩, Reach.acyclic_iff.2 ?_, rfl⟩
    exact fun x y hedge => absurd hedge (Table.not_mem_empty _)
  exact hrun.invariant (fun hs hstep => hstep.checked hs) hstart

/-- **The graph of every reachable workspace is consistent.** The hierarchy of classes has no cycle,
types and statements are about what the graph holds and fit the domain, the range and the
cardinality of their properties, the relation of each acyclic property has no cycle, and the
directories select by queries that are valid. A workspace is reached by any batches, ended by their
checks or failed, with any calls of the stores between them. -/
theorem Reachable.consistent (h : Reachable P clock container w) :
    Consistent P.json w.package.tables w.ontology.graph :=
  consistent_of_fullCheck h.sound.ontology.storage h.checked.hierarchy h.checked.full

/-- The file of the sample, and an entity that an acyclic property relates it to. The property
takes files of a class with a parent, named by that parent. -/
def sampleRelation : List OntologyChange :=
  [.ontologyClass ⟨ascii "k", ascii "label", [], []⟩,
    .ontologyClass ⟨ascii "c", ascii "label", [], [ascii "k"]⟩,
    .ontologyProperty ⟨ascii "p", ascii "label", .resource, ascii "k", [], true, true⟩,
    .ontologyEntity ⟨ascii "e", ascii "label", []⟩,
    .typeAssignment ⟨⟨.file, Package.sampleObject⟩, ascii "c", true⟩,
    .assertion ⟨⟨.file, Package.sampleObject⟩, ascii "p", .resource ⟨.entity, ascii "e"⟩, true⟩]

/-- The graph of that relation: a parent, and the file related to the entity. -/
theorem Reachable.consistent_sample : ∃ w : Workspace, w.ontology.graph.parents.rows ≠ [] ∧
    w.ontology.graph.Related Platform.reference.json (ascii "p")
      (OntologyResource.node ⟨.file, Package.sampleObject⟩)
      (OntologyResource.node ⟨.entity, ascii "e"⟩) ∧
    Consistent Platform.reference.json w.package.tables w.ontology.graph := by
  have hok : (Package.exec .reference .reference (Package.sampleCalls.take 2)
      (.fresh (ascii "c")) >>= fun x =>
        OntologyFileSystem.apply Platform.reference.json x.2 ⟨ascii "c", false⟩ .empty
          sampleRelation 0 Package.sampleSession (fun _ => false) 0 >>= fun y =>
            failIf (y.2.graph.parents.rows = [] ∨
              (OntologyResource.node ⟨.file, Package.sampleObject⟩,
                OntologyResource.node ⟨.entity, ascii "e"⟩) ∉ statementEdges y.2.graph (ascii "p"))
              "unexpected").isOk = true := by
    decide +kernel
  obtain ⟨_, h⟩ := exists_of_isOk hok
  obtain ⟨⟨responses, db⟩, hexec, h⟩ := bind_ok.1 h
  obtain ⟨⟨revision, o⟩, happly, hrows⟩ := bind_ok.1 h
  obtain ⟨hparents, hedge⟩ := not_or.1 (failIf_ok.1 hrows)
  have hreach := Reachable.of_exec hexec happly
  refine ⟨⟨⟨db, []⟩, o⟩, hparents, ?_, Reachable.consistent hreach⟩
  exact (hreach.sound.ontology.storage.edge_iff_related
    (fullCheck_ok.1 hreach.checked.full).1).1 (not_not.1 hedge)

end Workspace

end FileProvider
