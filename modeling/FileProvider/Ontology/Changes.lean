import FileProvider.Ontology.Edits

/-!
# Every change is an edit

What each of the seven changes does when it succeeds on a stored graph: `Changed`, by one lemma
for each change. The statements a change is made of are read back first.

The proofs follow the source through its checks once, so that no later proof has to. What a failed
change leaves is of no interest, since it ends its batch.
-/

namespace FileProvider

open Bytes Fallible Ontology OntologyFileSystem

variable {L : JsonLibrary} {objects : ObjectTables} {next : Nat} {g g' : GraphTables}
  {b b' : Batch}

/-! ## Readers and statements -/

/-- Where a class is found to exist, the graph defines it. -/
theorem classExists_ok {key : Bytes} (h : classExists g key = .ok ()) : g.Defines key := by
  simp only [classExists, bind_ok, failIf_ok, not_and_or, not_not] at h
  obtain ⟨-, -, h⟩ := h
  exact h

/-- A text that is accepted is within its limit, has a JSON text, and is not empty where it is
required. -/
theorem text_ok {s : Bytes} {maximum : Nat} {required : Bool} {u : Unit}
    (h : text L s maximum required = .ok u) :
    (required = true → s ≠ []) ∧ s.length ≤ maximum ∧ ∃ t, L.dump (.str s) = .ok t := by
  simp only [text, bind_ok, failIf_ok, not_or, not_and, not_lt] at h
  obtain ⟨-, ⟨hrequired, hlen, -⟩, t, ht, -⟩ := h
  exact ⟨hrequired, hlen, t, ht⟩

/-- The key of a resource is that of its node. -/
theorem nodeKey_ok {r : OntologyResource} {key : Bytes} (h : nodeKey L r = .ok key) :
    key = r.node := by
  simp only [nodeKey, bind_ok, pure_ok] at h
  obtain ⟨-, -, rfl⟩ := h
  rfl

/-- A table keyed by whole rows finds exactly its rows. -/
theorem mem_find {ρ : Type} [DecidableEq ρ] {t : Table (id : ρ → ρ)} {r : ρ} :
    t.find r ≠ none ↔ r ∈ t := by
  rw [Table.mem_iff_find]
  constructor
  · intro h
    obtain ⟨s, hs⟩ := Option.ne_none_iff_exists'.1 h
    have hsr : s = r := Table.key_of_find hs
    rwa [hsr] at hs
  · intro h
    have hr : t.find r = some r := h
    rw [hr]
    exact Option.some_ne_none _

/-- The edges of the hierarchy are the rows of parents. -/
theorem edge_parentEdges {x y : Bytes} :
    Reach.Edge (parentEdges g) x y ↔ ⟨x, y⟩ ∈ g.parents := by
  simp only [Reach.Edge, parentEdges, List.mem_map, Prod.mk.injEq]
  constructor
  · rintro ⟨p, hp, rfl, rfl⟩
    exact hp
  · intro h
    exact ⟨_, h, rfl, rfl⟩

/-- The parents of a class are its rows. -/
theorem mem_parentsOf {key x : Bytes} : x ∈ parentsOf g key ↔ ⟨key, x⟩ ∈ g.parents := by
  simp only [parentsOf, Keyset.mem_orderBy, List.mem_map, List.mem_filter, decide_eq_true_eq]
  constructor
  · rintro ⟨p, ⟨hp, rfl⟩, rfl⟩
    exact hp
  · intro h
    exact ⟨_, ⟨h, rfl⟩, rfl⟩

/-! ### Nodes -/

/-- Nodes grow into themselves. -/
theorem NodesGrow.refl (objects : ObjectTables) (t : Table NodeRow.key) :
    NodesGrow objects t t where
  kept _ _ h := h
  added _ h := .inl h

/-- Growing is transitive: nodes are only added. -/
theorem NodesGrow.trans {t t' t'' : Table NodeRow.key} (h : NodesGrow objects t t')
    (h' : NodesGrow objects t' t'') : NodesGrow objects t t'' where
  kept k n hn := h'.kept k n (h.kept k n hn)
  added n hn := by
    rcases h'.added n hn with hn | hn
    · exact h.added n hn
    · exact .inr hn

/-- A node that is there stays there. -/
theorem NodesGrow.find {t t' : Table NodeRow.key} (h : NodesGrow objects t t') {k : Bytes}
    (hk : t.find k ≠ none) : t'.find k ≠ none := by
  obtain ⟨n, hn⟩ := Option.ne_none_iff_exists'.1 hk
  rw [h.kept k n hn]
  exact Option.some_ne_none _

/-- Using a resource adds at most its node, and nothing if that is there. An entity adds nothing
here, and a file gets its node if there is none, provided that its object is stored. -/
theorem ensureResource_ok {r : OntologyResource} (h : ensureResource L objects g r = .ok g') :
    (∃ nodes, g' = { g with nodes } ∧ NodesGrow objects g.nodes nodes) ∧
      (g.nodes.find r.node ≠ none → g' = g) := by
  obtain ⟨kind, key⟩ := r
  simp only [ensureResource, bind_ok] at h
  obtain ⟨-, -, h⟩ := h
  cases kind with
  | entity =>
      simp only [pure_ok] at h
      subst h
      exact ⟨⟨g.nodes, rfl, .refl _ _⟩, fun _ => rfl⟩
  | file =>
      simp only [GraphTables.insertFileNode, bind_ok] at h
      obtain ⟨-, -, h⟩ := h
      split at h
      · simp only [pure_ok] at h
        subst h
        exact ⟨⟨g.nodes, rfl, .refl _ _⟩, fun _ => rfl⟩
      · next hnew =>
          simp only [bind_ok, failIf_ok, pure_ok] at h
          obtain ⟨-, hobject, rfl⟩ := h
          rw [not_or, not_not] at hnew
          refine ⟨⟨_, rfl, ⟨fun k n hn => ?_, fun n hn => ?_⟩⟩, fun hne => absurd hnew.1 hne⟩
          · rw [Table.find_orInsert, hn]
            rfl
          · rcases Table.mem_orInsert.1 hn with hn | ⟨rfl, -⟩
            · exact .inl hn
            · exact .inr ⟨key, rfl, hobject⟩

/-- Touching a resource adds its node where it is missing, and changes nothing where it is not
wanted. -/
theorem touchResource_ok {r : OntologyResource} {present : Bool}
    (h : touchResource L objects g r present = .ok g') :
    (∃ nodes, g' = { g with nodes } ∧ NodesGrow objects g.nodes nodes) ∧
      (present = false ∨ g.nodes.find r.node ≠ none → g' = g) := by
  cases present with
  | true =>
      obtain ⟨hgrow, hsame⟩ := ensureResource_ok h
      refine ⟨hgrow, fun hcase => hsame ?_⟩
      rcases hcase with hcase | hcase
      · cases hcase
      · exact hcase
  | false =>
      simp only [touchResource, Bool.false_eq_true, if_false, bind_ok, pure_ok] at h
      obtain ⟨-, -, rfl⟩ := h
      exact ⟨⟨g.nodes, rfl, .refl _ _⟩, fun _ => rfl⟩

/-- Touching the target of a value does the same for the resource it names. -/
theorem touchTarget_ok {v : OntologyValue} {present : Bool}
    (h : touchTarget L objects g v present = .ok g') :
    (∃ nodes, g' = { g with nodes } ∧ NodesGrow objects g.nodes nodes) ∧
      (present = false ∨ (∀ k ∈ v.target, g.nodes.find k ≠ none) → g' = g) := by
  cases v with
  | resource r =>
      obtain ⟨hgrow, hsame⟩ := touchResource_ok h
      exact ⟨hgrow, fun hcase => hsame (hcase.imp_right fun hk => hk _ rfl)⟩
  | text _ | integer _ | real _ | boolean _ =>
      simp only [touchTarget, pure_ok] at h
      subst h
      exact ⟨⟨g.nodes, rfl, .refl _ _⟩, fun _ => rfl⟩

/-! ### Events -/

/-- An event that changes something is appended, and nothing else happens. -/
theorem event_ok {operation subject before after : Bytes}
    (h : event next b operation subject before after = .ok b') (hne : before ≠ after) :
    b.journalBytes + before.length + after.length ≤ maximumBatchJournalBytes ∧
      b.journal.insert ⟨b.journalSequence + 1, next, operation, subject, before, after⟩
        = some b'.journal ∧
      b' = { b with
        journal := b'.journal, journalSequence := b.journalSequence + 1,
        journalBytes := b.journalBytes + before.length + after.length,
        events := b.events + 1 } := by
  unfold event at h
  rw [if_neg hne] at h
  simp only [bind_ok, failIf_ok, orFail_ok, pure_ok, not_lt] at h
  obtain ⟨-, hbound, -, -, -, -, journal, hinsert, rfl⟩ := h
  exact ⟨hbound, hinsert, rfl⟩

/-- Writing an event leaves the graph. -/
theorem event_graph {operation subject before after : Bytes}
    (h : event next b operation subject before after = .ok b') : b'.graph = b.graph := by
  by_cases hne : before = after
  · unfold event at h
    rw [if_pos hne, pure_ok] at h
    rw [h]
  · rw [(event_ok h hne).2.2]

/-- The batch of an edit, from the batch its event was appended to. -/
theorem Recorded.of_event {b₁ : Batch} {graph graph₀ : GraphTables} {e : EventText}
    {marks : Marks} {hierarchyChanged : Bool} (hedit : Edit L objects b.graph graph e marks)
    (hne : e.before ≠ e.after)
    (hhierarchy : hierarchyChanged = (b.hierarchyChanged || marks.hierarchy))
    (hevent : event next
      { b with
        graph := graph₀
        changedProperties := marks.properties ++ b.changedProperties
        hierarchyChanged }
      e.operation e.subject e.before e.after = .ok b₁)
    (hb' : b' = { b₁ with graph, changedNodes := marks.nodes ++ b₁.changedNodes }) :
    Recorded L objects next b b' e marks := by
  obtain ⟨hbound, hinsert, hb₁⟩ := event_ok hevent hne
  subst hb'
  rw [hb₁]
  exact ⟨hedit, hinsert, rfl, rfl, hbound, rfl, rfl, rfl, hhierarchy⟩

/-- A batch whose graph is known. -/
theorem Batch.eq_of_graph {graph : GraphTables} (nodes : List Bytes) (h : b.graph = graph) :
    { b with changedNodes := nodes ++ b.changedNodes }
      = { b with graph, changedNodes := nodes ++ b.changedNodes } := by
  subst h
  rfl

/-- What the end of a change does that a statement made. -/
theorem recorded_ok {w : Written} {operation subject : Bytes} {present : Bool}
    {document : Fallible Bytes} {nodes : List Bytes}
    (h : recorded next b w operation subject present document nodes = .ok b') :
    (w.changed = false ∧ b' = { b with graph := w.graph }) ∨
      (w.changed = true ∧ ∃ d b₁, document = .ok d ∧
        event next { b with graph := w.graph } operation subject (if present then [] else d)
          (if present then d else []) = .ok b₁ ∧
        b' = { b₁ with changedNodes := nodes ++ b₁.changedNodes }) := by
  unfold recorded at h
  split at h
  · next hchanged =>
      simp only [bind_ok, pure_ok] at h
      obtain ⟨d, hd, b₁, hevent, rfl⟩ := h
      exact .inr ⟨hchanged, d, b₁, hd, hevent, rfl⟩
  · next hchanged =>
      rw [pure_ok] at h
      exact .inl ⟨Bool.not_eq_true _ ▸ hchanged, h.symm⟩

/-! ## Classes and properties -/

/-- Writing the parents of a class one by one. -/
theorem insertParents_ok {key : Bytes} : ∀ {parents : List Bytes} {g g' : GraphTables},
    parents.foldlM (fun g p => g.insertParent ⟨key, p⟩) g = .ok g' →
    g' = { g with parents := g'.parents } ∧
      ∀ row, row ∈ g'.parents ↔ row ∈ g.parents ∨ (row.child = key ∧ row.parent ∈ parents)
  | [], g, g', h => by
      rw [List.foldlM_nil, pure_ok] at h
      subst h
      exact ⟨rfl, fun row => by simp⟩
  | p :: parents, g, g', h => by
      obtain ⟨g₁, hstep, hrest⟩ := foldlM_cons_ok.1 h
      simp only [GraphTables.insertParent, bind_ok, orFail_ok, pure_ok] at hstep
      obtain ⟨-, -, written, hwritten, -, -, rfl⟩ := hstep
      obtain ⟨hg', hmem⟩ := insertParents_ok hrest
      refine ⟨hg', fun row => ?_⟩
      obtain ⟨child, parent⟩ := row
      rw [hmem, Table.mem_insert hwritten, List.mem_cons, ParentRow.mk.injEq]
      tauto

/-- Setting the parents of a class replaces its rows where they differ, and makes no cycle through
it. -/
theorem setParents_ok {old : Option OntologyClass} {c : OntologyClass}
    (h : setParents g old c = .ok g') :
    ∃ parents, g' = { g with parents } ∧
      (reparented old c = false → parents = g.parents) ∧
      (reparented old c = true →
        (∀ row, row ∈ parents ↔ (row ∈ g.parents ∧ row.child ≠ c.key) ∨
          (row.child = c.key ∧ row.parent ∈ c.parents)) ∧
        ¬ Relation.TransGen (fun a b => ⟨a, b⟩ ∈ parents) c.key c.key) := by
  unfold setParents at h
  split at h
  · next hmoved =>
      simp only [GraphTables.removeParents, bind_ok, failIf_ok, pure_ok] at h
      obtain ⟨cleared, ⟨-, -, rfl⟩, written, hwritten, -, hcycle, rfl⟩ := h
      obtain ⟨hg', hmem⟩ := insertParents_ok hwritten
      refine ⟨written.parents, hg', fun hsame => ?_, fun _ => ⟨fun row => ?_, fun hloop => ?_⟩⟩
      · rw [hmoved] at hsame
        cases hsame
      · rw [hmem, Table.mem_filter, decide_eq_true_eq]
      · -- A path back to the class starts with one of its parents.
        obtain ⟨p, hp, hpath⟩ := Relation.TransGen.head'_iff.1 hloop
        refine hcycle (Reach.mem_reach.2 ⟨p, mem_parentsOf.2 hp, ?_⟩)
        exact hpath.lift id fun _ _ => edge_parentEdges.2
  · next hsame =>
      rw [pure_ok] at h
      subst h
      refine ⟨g.parents, rfl, fun _ => rfl, fun hmoved => absurd hmoved hsame⟩

/-- Applying a class changes the graph as one edit, and writes its event where there is something to
tell. -/
theorem applyClass_ok {c : OntologyClass} (h : applyClass L next b c = .ok b') :
    Changed L objects next b b' := by
  simp only [applyClass, bind_ok] at h
  obtain ⟨j, hj, before, hbefore, after, hafter, h⟩ := h
  split at h
  · rw [pure_ok] at h
    subst h
    exact .nothing b.graph.statementsSequence
  · next hne =>
      simp only [GraphTables.upsertClass, bind_ok, pure_ok, forM_ok] at h
      obtain ⟨-, hparents, written, ⟨-, -, rfl⟩, graph, hgraph, hevent⟩ := h
      obtain ⟨parents, rfl, hsame, hmoved⟩ := setParents_ok hgraph
      have hexist : ∀ p ∈ c.parents, b.graph.classes.find p ≠ none := by
        intro p hp
        have hjson := hj
        simp only [classJson, bind_ok, forM_ok] at hjson
        obtain ⟨-, -, -, -, -, -, -, -, -, htexts, -⟩ := hjson
        exact (classExists_ok (hparents p hp)).resolve_left ((text_ok (htexts p hp)).1 rfl)
      have hedit : Edit L objects b.graph _ _ _ := .ontologyClass hj hbefore hafter hne hexist
        ⟨hsame, hmoved⟩
      exact .edit _ _ (.of_event hedit hne rfl hevent (Batch.eq_of_graph [] (event_graph hevent)))

/-- The same for a property. -/
theorem applyProperty_ok {p : OntologyProperty} (h : applyProperty L next b p = .ok b') :
    Changed L objects next b b' := by
  simp only [applyProperty, bind_ok] at h
  obtain ⟨j, hj, after, hafter, _, hdomain, _, hrange, old, hold, before, hbefore, h⟩ := h
  split at h
  · rw [pure_ok] at h
    subst h
    exact .nothing b.graph.statementsSequence
  · next hne =>
      simp only [GraphTables.upsertProperty, bind_ok, pure_ok] at h
      obtain ⟨graph, ⟨-, -, rfl⟩, hevent⟩ := h
      have hedit : Edit L objects b.graph _ _ _ := .ontologyProperty hj hafter
        (classExists_ok hdomain)
        (classExists_ok hrange) hold hbefore hne
      exact .edit _ _ (.of_event hedit hne (Bool.or_false _).symm hevent
        (Batch.eq_of_graph [] (event_graph hevent)))

/-! ## Entities and types -/

/-- The same for an entity. -/
theorem applyEntity_ok {e : OntologyEntity} (h : applyEntity L next b e = .ok b') :
    Changed L objects next b b' := by
  simp only [applyEntity, bind_ok] at h
  obtain ⟨-, -, -, -, -, -, key, hkey, after, hafter, h⟩ := h
  split at h
  · rw [pure_ok] at h
    subst h
    exact .nothing b.graph.statementsSequence
  · next hne =>
      simp only [GraphTables.upsertNode, bind_ok, pure_ok] at h
      obtain ⟨graph, ⟨-, -, rfl⟩, hevent⟩ := h
      have hedit : Edit L objects b.graph _ _ _ := .ontologyEntity (nodeKey_ok hkey) hafter hne
      exact .edit _ _ (.of_event hedit hne (Bool.or_false _).symm hevent
        (Batch.eq_of_graph [] (event_graph hevent)))

/-- On a stored graph the node of a type that is there is there. The type is asserted or taken back,
and where it is as it should be nothing is written but the number of the next statement. -/
theorem applyType_ok (hg : GraphStorage L b.graph) {t : OntologyTypeAssignment}
    (h : applyType L objects next b t = .ok b') : Changed L objects next b b' := by
  obtain ⟨resource, classKey, present⟩ := t
  simp only [applyType, bind_ok] at h
  obtain ⟨_, hclass, _, htext, graph, hgraph, key, hkey, w, hw, h⟩ := h
  obtain rfl := nodeKey_ok hkey
  obtain ⟨⟨nodes, hnodes, hgrow⟩, hsame⟩ := touchResource_ok hgraph
  have hname : b.graph.classes.find classKey ≠ none :=
    (classExists_ok hclass).resolve_left ((text_ok htext).1 rfl)
  cases present with
  | true =>
      simp only [writeType, if_true, GraphTables.insertType, bind_ok] at hw
      obtain ⟨-, -, hw⟩ := hw
      split at hw
      · next hthere =>
          rw [pure_ok] at hw
          subst hw
          rcases recorded_ok h with ⟨-, rfl⟩ | ⟨hchanged, -⟩
          · rw [hnodes] at hthere
            obtain rfl := hsame (.inr (hg.types _ (mem_find.1 hthere)).1)
            exact .nothing b.graph.statementsSequence
          · cases hchanged
      · next hnew =>
          simp only [bind_ok, failIf_ok, pure_ok, not_or] at hw
          obtain ⟨-, ⟨hnode, -⟩, rfl⟩ := hw
          rcases recorded_ok h with ⟨hchanged, -⟩ | ⟨-, d, b₁, hd, hevent, hb'⟩
          · cases hchanged
          · subst hnodes
            have hedit := Edit.addType (L := L) hgrow hnode hname
              (fun hmem => hnew (mem_find.2 hmem)) hd
            have hne : [] ≠ d := (Json.dump_obj_ne_nil (orFail_ok.1 hd)).symm
            exact .edit _ _ (.of_event hedit hne (Bool.or_false _).symm hevent
              (hb'.trans (Batch.eq_of_graph _ (event_graph hevent))))
  | false =>
      obtain rfl := hsame (.inl rfl)
      simp only [writeType, Bool.false_eq_true, if_false, GraphTables.removeType, bind_ok,
        pure_ok] at hw
      obtain ⟨-, -, rfl⟩ := hw
      rcases recorded_ok h with ⟨hchanged, rfl⟩ | ⟨hchanged, d, b₁, hd, hevent, hb'⟩
      · have hsame : b.graph.types.filter (· ≠ ⟨resource.node, classKey⟩) = b.graph.types := by
          refine Table.filter_eq_self fun row hrow => decide_eq_true fun heq => ?_
          exact of_decide_eq_false hchanged (mem_find.2 (heq ▸ hrow))
        rw [hsame]
        exact .nothing b.graph.statementsSequence
      · have hedit : Edit L objects b.graph _ _ _ := .removeType
          (mem_find.1 (of_decide_eq_true hchanged)) hd
        have hne : d ≠ [] := Json.dump_obj_ne_nil (orFail_ok.1 hd)
        exact .edit _ _ (.of_event hedit hne (Bool.or_false _).symm hevent
          (hb'.trans (Batch.eq_of_graph _ (event_graph hevent))))

/-! ## Statements -/

/-- A property that is read has its row. -/
theorem getProperty_find {key : Bytes} {p : OntologyProperty}
    (h : getProperty L g key = .ok (some p)) : g.properties.find key ≠ none := by
  intro hnone
  rw [getProperty, hnone] at h
  cases h

/-- The column of the target, which is empty for a value that names no resource. -/
theorem OntologyValue.target_column (v : OntologyValue) :
    (if v.target.getD [] = [] then none else some (v.target.getD [])) = v.target := by
  cases v with
  | resource r =>
      obtain ⟨kind, key⟩ := r
      cases kind <;> rfl
  | text _ | integer _ | real _ | boolean _ => rfl

/-- A statement that is there has its subject and its target. -/
theorem GraphStorage.statement_nodes (hg : GraphStorage L g) {subject predicate t : Bytes}
    {v : OntologyValue} (hv : v.StoredAs L t)
    (hthere : g.statements.find (subject, predicate, v.kind, t) ≠ none) :
    g.nodes.find subject ≠ none ∧ ∀ k ∈ v.target, g.nodes.find k ≠ none := by
  obtain ⟨s, hs⟩ := Option.ne_none_iff_exists'.1 hthere
  obtain ⟨hmem, hid⟩ := Table.find_eq_some.1 hs
  obtain ⟨hsubject, hrest⟩ := Prod.mk.inj hid
  obtain ⟨-, hrest⟩ := Prod.mk.inj hrest
  obtain ⟨hkind, hvalue⟩ := Prod.mk.inj hrest
  obtain ⟨hnode, -, htarget, w, hw, hwkind, hwtarget⟩ := hg.statements s hmem
  rw [hvalue] at hw
  have hnormal := hv.normal_eq hw (hkind.symm.trans hwkind.symm)
  have heq : v.target = s.objectKey := by
    rw [← hwtarget, ← v.target_normal, hnormal, w.target_normal]
  exact ⟨hsubject ▸ hnode, heq ▸ htarget⟩

/-- The same for an assertion, of a type or of a statement. Subject and object may each get a node,
and the rest is the insertion or the deletion of the one statement. -/
theorem applyAssertion_ok (hg : GraphStorage L b.graph) {a : OntologyAssertion}
    (h : applyAssertion L objects next b a = .ok b') : Changed L objects next b b' := by
  obtain ⟨resource, predicate, v, present⟩ := a
  simp only [applyAssertion, bind_ok, failIf_ok, orFail_ok] at h
  obtain ⟨-, -, -, hdefinition, p, rfl, -, -, graph₁, hgraph₁, subject, hsubject, j, hj, t, ht,
    graph₂, hgraph₂, w, hw, h⟩ := h
  obtain rfl := nodeKey_ok hsubject
  obtain ⟨⟨nodes₁, hnodes₁, hgrow₁⟩, hsame₁⟩ := touchResource_ok hgraph₁
  obtain ⟨⟨nodes, hnodes, hgrow⟩, hsame₂⟩ := touchTarget_ok hgraph₂
  have hproperty := getProperty_find hdefinition
  cases present with
  | true =>
      simp only [writeStatement, if_true, GraphTables.insertStatement, bind_ok,
        OntologyValue.target_column] at hw
      obtain ⟨-, -, -, -, hw⟩ := hw
      split at hw
      · next hthere =>
          rw [pure_ok] at hw
          subst hw
          rcases recorded_ok h with ⟨-, rfl⟩ | ⟨hchanged, -⟩
          · have hthere' :
                b.graph.statements.find (resource.node, predicate, v.kind, t) ≠ none := by
              rw [hnodes, hnodes₁] at hthere
              exact hthere
            obtain ⟨hnode, htarget⟩ := hg.statement_nodes ⟨j, hj, ht⟩ hthere'
            obtain rfl := hsame₁ (.inr hnode)
            obtain rfl := hsame₂ (.inr htarget)
            exact .nothing (b.graph.statementsSequence + 1)
          · cases hchanged
      · next hnew =>
          simp only [bind_ok, failIf_ok, pure_ok, not_or, not_exists, not_and] at hw
          obtain ⟨-, ⟨hnode, -, htarget⟩, rfl⟩ := hw
          rcases recorded_ok h with ⟨hchanged, -⟩ | ⟨-, d, b₁, hd, hevent, hb'⟩
          · cases hchanged
          · subst hnodes hnodes₁
            have hedit := Edit.assert (hgrow₁.trans hgrow) hnode hproperty htarget hj ht hd
              (not_not.1 hnew)
            have hne : [] ≠ d := (Json.dump_obj_ne_nil (orFail_ok.1 hd)).symm
            exact .edit _ _ (.of_event hedit hne (Bool.or_false _).symm hevent
              (hb'.trans (Batch.eq_of_graph _ (event_graph hevent))))
  | false =>
      obtain rfl := hsame₁ (.inl rfl)
      obtain rfl := hsame₂ (.inl rfl)
      simp only [writeStatement, Bool.false_eq_true, if_false, GraphTables.removeStatement,
        bind_ok, pure_ok] at hw
      obtain ⟨-, -, rfl⟩ := hw
      rcases recorded_ok h with ⟨hchanged, rfl⟩ | ⟨hchanged, d, b₁, hd, hevent, hb'⟩
      · have hnone : b.graph.statements.find (resource.node, predicate, v.kind, t) = none :=
          not_not.1 (of_decide_eq_false hchanged)
        have hsame : b.graph.statements.filter
            (·.id ≠ (resource.node, predicate, v.kind, t)) = b.graph.statements :=
          Table.filter_eq_self fun s hs => decide_eq_true (Table.find_eq_none.1 hnone s hs)
        rw [hsame]
        exact .nothing b.graph.statementsSequence
      · have hedit : Edit L objects b.graph _ _ _ := .retract hj ht hd (of_decide_eq_true hchanged)
        have hne : d ≠ [] := Json.dump_obj_ne_nil (orFail_ok.1 hd)
        exact .edit _ _ (.of_event hedit hne (Bool.or_false _).symm hevent
          (hb'.trans (Batch.eq_of_graph _ (event_graph hevent))))

/-! ## Directories -/

/-- Writing the properties of a directory one by one. -/
theorem insertDirectoryProperties_ok {path : Bytes} :
    ∀ {conditions : List OntologyCondition} {g g' : GraphTables},
    conditions.foldlM (fun g c => g.insertDirectoryProperty ⟨path, c.propertyKey⟩) g = .ok g' →
    g' = { g with directoryProperties := g'.directoryProperties } ∧
      ∀ row, row ∈ g'.directoryProperties ↔ row ∈ g.directoryProperties ∨
        (row.path = path ∧ row.predicate ∈ conditions.map (·.propertyKey))
  | [], g, g', h => by
      rw [List.foldlM_nil, pure_ok] at h
      subst h
      exact ⟨rfl, fun row => by simp⟩
  | c :: conditions, g, g', h => by
      obtain ⟨g₁, hstep, hrest⟩ := foldlM_cons_ok.1 h
      obtain ⟨hg', hmem⟩ := insertDirectoryProperties_ok hrest
      simp only [GraphTables.insertDirectoryProperty, bind_ok] at hstep
      obtain ⟨-, -, hstep⟩ := hstep
      split at hstep
      · next hthere =>
          rw [pure_ok] at hstep
          subst hstep
          refine ⟨hg', fun row => ?_⟩
          obtain ⟨rowPath, predicate⟩ := row
          have hrow : ⟨path, c.propertyKey⟩ ∈ g.directoryProperties := mem_find.1 hthere
          rw [hmem, List.map_cons, List.mem_cons]
          constructor
          · tauto
          · rintro (hrow | ⟨rfl, rfl | hrow⟩)
            · exact .inl hrow
            · exact .inl hrow
            · exact .inr ⟨rfl, hrow⟩
      · next hnew =>
          simp only [bind_ok, failIf_ok, pure_ok] at hstep
          obtain ⟨-, -, rfl⟩ := hstep
          refine ⟨hg', fun row => ?_⟩
          obtain ⟨rowPath, predicate⟩ := row
          have hfree : g.directoryProperties.find ⟨path, c.propertyKey⟩ = none := not_not.1 hnew
          have hrow := Table.mem_orInsert (t := g.directoryProperties)
            (r := ⟨path, c.propertyKey⟩) (s := ⟨rowPath, predicate⟩)
          rw [hmem, hrow, List.map_cons, List.mem_cons, DirectoryPropertyRow.mk.injEq]
          tauto

/-- The same for a directory. -/
theorem applyDirectory_ok {d : OntologyDirectory}
    (h : applyDirectory L objects next b d = .ok b') : Changed L objects next b b' := by
  simp only [applyDirectory, bind_ok] at h
  obtain ⟨-, -, -, -, _, hvalid, query, hquery, after, hafter, h⟩ := h
  split at h
  · rw [pure_ok] at h
    subst h
    exact .nothing b.graph.statementsSequence
  · next hne =>
      simp only [GraphTables.upsertDirectory, GraphTables.removeDirectoryProperties, bind_ok,
        pure_ok] at h
      obtain ⟨written, ⟨-, -, rfl⟩, b₁, hevent, cleared, ⟨-, -, rfl⟩, graph, hgraph, hb'⟩ := h
      rw [event_graph hevent] at hgraph
      obtain ⟨hg', hmem⟩ := insertDirectoryProperties_ok hgraph
      have hedit : Edit L objects b.graph graph _ _ :=
        hg' ▸ Edit.directory hvalid hquery hafter hne (fun row => by
          rw [hmem, Table.mem_filter, decide_eq_true_eq])
      exact .edit _ _ (.of_event hedit hne (Bool.or_false _).symm hevent hb'.symm)

/-- The same for the removal of a directory. -/
theorem applyRemoveDirectory_ok (hg : GraphStorage L b.graph) {path : Bytes}
    (h : applyRemoveDirectory L next b path = .ok b') : Changed L objects next b b' := by
  simp only [applyRemoveDirectory, bind_ok] at h
  obtain ⟨-, -, h⟩ := h
  split at h
  · rw [pure_ok] at h
    subst h
    exact .nothing b.graph.statementsSequence
  · next d hd =>
      simp only [GraphTables.removeDirectory, bind_ok, pure_ok] at h
      obtain ⟨graph, ⟨-, -, rfl⟩, hevent⟩ := h
      obtain ⟨hmem, rfl⟩ := Table.find_eq_some.1 hd
      have hedit : Edit L objects b.graph _ _ _ := .removeDirectory hmem
      have hne : d.document ≠ [] := hg.document_ne_nil hmem
      exact .edit _ _ (.of_event hedit hne (Bool.or_false _).symm hevent
        (Batch.eq_of_graph [] (event_graph hevent)))

/-- **Every change is an edit**, or leaves all but the number of the next statement as it is. -/
theorem applyChange_ok (hg : GraphStorage L b.graph) {change : OntologyChange}
    (h : applyChange L objects next b change = .ok b') : Changed L objects next b b' := by
  cases change with
  | ontologyClass c => exact applyClass_ok h
  | ontologyProperty p => exact applyProperty_ok h
  | ontologyEntity e => exact applyEntity_ok h
  | typeAssignment t => exact applyType_ok hg h
  | assertion a => exact applyAssertion_ok hg h
  | directory d => exact applyDirectory_ok h
  | removeDirectory path => exact applyRemoveDirectory_ok hg h

end FileProvider
