import FileProvider.Ontology.Batches
import FileProvider.Ontology.Definitions

/-!
# The check of a batch is the check of the whole graph

`validateBatch` looks at the statements and directories its batch marked. `fullCheck` looks at all
of them. `Marked` says what the marks of a batch promise: outside of them the graph is as it was
before, up to classes and nodes that are new. So a statement that is not marked keeps its property,
its types, its count and, among the statements of its property, its place outside of every cycle.

The argument is local: a statement that is not marked has kept all that its check looks at, which is
shown for each part of the check by itself. Cycles are the hard part; a statement that is not marked
can come to lie on one only together with a marked one, whose check fails.
-/

namespace FileProvider

open Bytes Fallible Ontology OntologyFileSystem Relation

variable {L : JsonLibrary} {objects : ObjectTables} {next : Nat} {g g' g'' : GraphTables}
  {b b' : Batch} {e : EventText} {m m' : Marks}

/-! ## The full check -/

/-- The check of every statement and of every saved directory. -/
def fullCheck (L : JsonLibrary) (objects : ObjectTables) (g : GraphTables) : Fallible Unit := do
  validateStatements L g true [] []
  g.directories.rows.forM (directoryValid L objects g)

/-- The full check passes exactly when each statement and each directory is valid. -/
theorem fullCheck_ok : fullCheck L objects g = .ok () ↔
    (∀ s ∈ g.statements, statementValid L g s = .ok ()) ∧
      ∀ d ∈ g.directories, directoryValid L objects g d = .ok () := by
  have hall : g.statements.rows.filter (fun s => true || touched [] [] s) = g.statements.rows :=
    List.filter_eq_self.2 fun _ _ => rfl
  simp only [fullCheck, validateStatements, hall, bind_ok, forM_ok]
  constructor
  · rintro ⟨_, hstatements, hdirectories⟩
    exact ⟨hstatements, hdirectories⟩
  · rintro ⟨hstatements, hdirectories⟩
    exact ⟨(), hstatements, hdirectories⟩

/-- The incremental check passes exactly when each statement and directory that a change may touch
is valid. -/
theorem validateBatch_ok : validateBatch L objects b = .ok () ↔
    (∀ s ∈ b.graph.statements, b.hierarchyChanged = true ∨
      touched b.changedNodes b.changedProperties s = true → statementValid L b.graph s = .ok ()) ∧
    ∀ d ∈ b.graph.directories, affected b.graph b.changedProperties d = true →
      directoryValid L objects b.graph d = .ok () := by
  simp only [validateBatch, validateStatements, validateDirectories, bind_ok, forM_ok,
    List.mem_filter, Bool.or_eq_true, and_imp]
  constructor
  · rintro ⟨_, hstatements, hdirectories⟩
    exact ⟨hstatements, hdirectories⟩
  · rintro ⟨hstatements, hdirectories⟩
    exact ⟨(), hstatements, hdirectories⟩

/-! ## What the marks promise -/

/-- What the check at the end of a batch has to look at. -/
def Batch.marks (b : Batch) : Marks := ⟨b.changedNodes, b.changedProperties, b.hierarchyChanged⟩

/-- Marks added to others. -/
def Marks.append (m m' : Marks) : Marks :=
  ⟨m'.nodes ++ m.nodes, m'.properties ++ m.properties, m.hierarchy || m'.hierarchy⟩

/-- Every difference between two graphs is marked, except for new classes and new nodes. -/
structure Marked (g g' : GraphTables) (m : Marks) : Prop where
  classes : ∀ k, g.classes.find k ≠ none → g'.classes.find k ≠ none
  nodes : ∀ k, g.nodes.find k ≠ none → g'.nodes.find k ≠ none
  parents : m.hierarchy = false → ∀ p : ParentRow, g.classes.find p.child ≠ none →
    (p ∈ g'.parents ↔ p ∈ g.parents)
  properties : ∀ k, k ∉ m.properties → g'.properties.find k = g.properties.find k
  types : ∀ t : TypeRow, t.resourceKey ∉ m.nodes → (t ∈ g'.types ↔ t ∈ g.types)
  statements : ∀ s : StatementRow, s.subject ∉ m.nodes →
    (s ∈ g'.statements ↔ s ∈ g.statements)

/-- A graph that does not change is marked by anything. -/
theorem Marked.refl (g : GraphTables) (m : Marks) : Marked g g m where
  classes _ h := h
  nodes _ h := h
  parents _ _ _ := .rfl
  properties _ _ := rfl
  types _ _ := .rfl
  statements _ _ := .rfl

/-- The marks of two changes together mark both. -/
theorem Marked.trans (h : Marked g g' m) (h' : Marked g' g'' m') :
    Marked g g'' (m.append m') where
  classes k hk := h'.classes k (h.classes k hk)
  nodes k hk := h'.nodes k (h.nodes k hk)
  parents hsame p hp := by
    obtain ⟨hfirst, hsecond⟩ := Bool.or_eq_false_iff.1 hsame
    exact (h'.parents hsecond p (h.classes _ hp)).trans (h.parents hfirst p hp)
  properties k hk := by
    obtain ⟨hsecond, hfirst⟩ := not_or.1 (mt List.mem_append.2 hk)
    exact (h'.properties k hsecond).trans (h.properties k hfirst)
  types t ht := by
    obtain ⟨hsecond, hfirst⟩ := not_or.1 (mt List.mem_append.2 ht)
    exact (h'.types t hsecond).trans (h.types t hfirst)
  statements s hs := by
    obtain ⟨hsecond, hfirst⟩ := not_or.1 (mt List.mem_append.2 hs)
    exact (h'.statements s hsecond).trans (h.statements s hfirst)

/-- **An edit marks what it changes.** -/
theorem Edit.marked (h : Edit L objects g g' e m) : Marked g g' m := by
  cases h with
  | @ontologyClass c j before after parents _ _ _ _ _ hwritten =>
      refine { Marked.refl g _ with
        classes := fun k hk => Table.find_upsert_ne_none (.inr hk), parents := ?_ }
      intro hsame p hp
      show p ∈ parents ↔ p ∈ g.parents
      cases hmoved : reparented (getClass g c.key) c with
      | false => rw [hwritten.same hmoved]
      | true =>
          -- The parents of a class that was not there are nobody's yet.
          have hnew : g.classes.find c.key = none := by
            have hsome : (getClass g c.key).isSome = false := by
              rwa [hmoved, Bool.true_and] at hsame
            rwa [getClass, Option.isSome_map, Option.isSome_eq_false_iff, Option.isNone_iff_eq_none]
              at hsome
          have hne : p.child ≠ c.key := fun heq => hp (heq ▸ hnew)
          rw [(hwritten.moved hmoved).1 p]
          constructor
          · rintro (⟨hold, -⟩ | ⟨heq, -⟩)
            · exact hold
            · exact absurd heq hne
          · exact fun hold => .inl ⟨hold, hne⟩
  | @ontologyProperty p =>
      refine { Marked.refl g _ with properties := fun k hk => ?_ }
      show (g.properties.upsert _).find k = _
      rw [Table.find_upsert, if_neg]
      exact fun heq => hk (List.mem_singleton.2 heq.symm)
  | ontologyEntity =>
      exact { Marked.refl g _ with nodes := fun k hk => Table.find_upsert_ne_none (.inr hk) }
  | @addType subject classKey document nodes hgrow =>
      refine { Marked.refl g _ with nodes := fun k hk => hgrow.find hk, types := fun t ht => ?_ }
      rw [Table.mem_orInsert]
      refine or_iff_left fun hnew => ht ?_
      rw [hnew.1]
      exact List.mem_singleton_self _
  | @removeType subject classKey =>
      refine { Marked.refl g _ with types := fun t ht => ?_ }
      rw [Table.mem_filter]
      refine and_iff_left (decide_eq_true fun heq => ht ?_)
      rw [heq]
      exact List.mem_singleton_self _
  | @assert subject predicate value document v j nodes hgrow =>
      refine { Marked.refl g _ with
        nodes := fun k hk => hgrow.find hk, statements := fun s hs => ?_ }
      rw [Table.mem_orInsert]
      refine or_iff_left fun hnew => hs ?_
      rw [hnew.1]
      exact List.mem_append_right _ (List.mem_singleton_self _)
  | @retract subject predicate value document v =>
      refine { Marked.refl g _ with statements := fun s hs => ?_ }
      rw [Table.mem_filter]
      refine and_iff_left (decide_eq_true fun heq => hs ?_)
      rw [(Prod.mk.inj heq).1]
      exact List.mem_append_right _ (List.mem_singleton_self _)
  | directory => exact { Marked.refl g _ with }
  | removeDirectory => exact { Marked.refl g _ with }

/-- **A batch marks what it changes.** -/
theorem marked_of_changes {o : OntologyTables}
    (h : ReflTransGen (Changed L objects next) (.start o) b) : Marked o.graph b.graph b.marks := by
  induction h with
  | refl => exact .refl _ _
  | @tail b b' _ hchange ih =>
      cases hchange with
      | nothing n => exact { ih with }
      | edit e m hrecorded =>
          have hmarks : b'.marks = b.marks.append m := by
            simp only [Batch.marks, Marks.append, hrecorded.changedNodes,
              hrecorded.changedProperties, hrecorded.hierarchyChanged]
          rw [hmarks]
          exact ih.trans hrecorded.edit.marked

/-! ## Statements that are not marked -/

section
variable {node predicate k : Bytes}

/-- A property that is not marked is read as before. -/
theorem Marked.getProperty_eq (h : Marked g g' m) (hk : k ∉ m.properties) :
    getProperty L g' k = getProperty L g k := by
  unfold getProperty
  rw [h.properties k hk]

/-- The classes of a node and what they inherit from are marked where they change. -/
theorem Marked.hasType_eq (h : Marked g g' m) (hg : GraphStorage L g) (hsame : m.hierarchy = false)
    (hnode : node ∉ m.nodes) : hasType g' node k = hasType g node k := by
  have hlineage : k ∈ lineage g' node ↔ k ∈ lineage g node := by
    refine Reach.mem_reach_congr (P := fun k => g.classes.find k ≠ none) ?_ ?_ ?_ ?_
    · intro k hk
      obtain ⟨t, ht, rfl⟩ := List.mem_map.1 hk
      exact (hg.types t (List.mem_filter.1 ht).1).2
    · intro k p _ hedge
      exact (hg.parents _ (edge_parentEdges.1 hedge)).2
    · intro k
      simp only [List.mem_map, List.mem_filter, decide_eq_true_eq]
      refine exists_congr fun t => and_congr_left fun _ => and_congr_left fun ht => ?_
      exact h.types t (ht ▸ hnode)
    · intro k p hk
      rw [edge_parentEdges, edge_parentEdges]
      exact h.parents hsame ⟨k, p⟩ hk
  unfold hasType
  rw [decide_eq_decide.2 hlineage]

/-- A node that is not marked has as many statements as before. -/
theorem Marked.statementCount_eq (h : Marked g g' m) (hnode : node ∉ m.nodes) :
    statementCount g' node predicate = statementCount g node predicate := by
  have hnodup : ∀ g : GraphTables, g.statements.rows.Nodup := fun g => .of_map _ g.statements.nodup
  refine ((List.perm_ext_iff_of_nodup ((hnodup g').filter _) ((hnodup g).filter _)).2
    fun s => ?_).length_eq
  simp only [List.mem_filter, decide_eq_true_eq]
  exact and_congr_left fun hs => h.statements s (hs.1 ▸ hnode)

end

/-- What the check of a statement asks for. -/
structure ValidStatement (L : JsonLibrary) (g : GraphTables) (s : StatementRow)
    (p : OntologyProperty) (v : OntologyValue) : Prop where
  property : getProperty L g s.predicate = .ok (some p)
  kind : p.kind = s.kind
  domain : hasType g s.subject p.domainClass = true
  value : decodeValue L s.kind.code s.value = .ok v
  range : rangeValid L g p v = .ok ()
  single : p.singleValue = true → statementCount g s.subject s.predicate ≤ 1
  acyclic : acyclicValid g p s v = .ok ()

/-- A statement is valid exactly when its property and its value make it so. -/
theorem statementValid_ok {s : StatementRow} :
    statementValid L g s = .ok () ↔ ∃ p v, ValidStatement L g s p v := by
  simp only [statementValid, bind_ok, orFail_ok, failIf_ok, not_or, not_not, not_and, not_lt,
    Bool.not_eq_false]
  constructor
  · rintro ⟨_, hproperty, p, rfl, _, ⟨hkind, hdomain⟩, v, hvalue, _, hrange, _, hsingle, hacyclic⟩
    exact ⟨p, v, hproperty, hkind, hdomain, hvalue, hrange, hsingle, hacyclic⟩
  · rintro ⟨p, v, h⟩
    exact ⟨_, h.property, p, rfl, (), ⟨h.kind, h.domain⟩, v, h.value, (), h.range, (), h.single,
      h.acyclic⟩

/-- The target of a statement is that of its value. -/
theorem GraphStorage.target_eq (hg : GraphStorage L g) {s : StatementRow} (hs : s ∈ g.statements)
    {v : OntologyValue} (hv : decodeValue L s.kind.code s.value = .ok v) :
    v.target = s.objectKey := by
  obtain ⟨-, -, -, w, hw, hkind, htarget⟩ := hg.statements s hs
  obtain ⟨hcode, -, hstored⟩ := decodeValue_ok hv
  rw [OntologyValueKind.ofCode?_code, Option.some.injEq] at hcode
  have hnormal := OntologyValue.StoredAs.normal_eq hstored hw (hcode.symm.trans hkind.symm)
  rw [← htarget, ← v.target_normal, hnormal, w.target_normal]

/-- The edges of a property are its statements with a target. -/
theorem edge_statementEdges {predicate x y : Bytes} :
    Reach.Edge (statementEdges g predicate) x y ↔
      ∃ s ∈ g.statements, s.predicate = predicate ∧ s.subject = x ∧ s.objectKey = some y := by
  unfold Reach.Edge statementEdges
  rw [List.mem_filterMap]
  refine exists_congr fun s => and_congr_right fun _ => ?_
  split
  · next hpredicate =>
      simp only [Option.map_eq_some_iff, Prod.mk.injEq]
      constructor
      · rintro ⟨k, hk, rfl, rfl⟩
        exact ⟨hpredicate, rfl, hk⟩
      · rintro ⟨-, rfl, hk⟩
        exact ⟨y, hk, rfl, rfl⟩
  · next hpredicate => exact iff_of_false nofun fun h => hpredicate h.1

/-- A valid statement of an acyclic property closes no cycle. -/
theorem ValidStatement.no_cycle {s : StatementRow} {p : OntologyProperty} {v : OntologyValue}
    (h : ValidStatement L g s p v) (hg : GraphStorage L g) (hs : s ∈ g.statements)
    (hp : p.acyclic = true) {k : Bytes} (hk : s.objectKey = some k) :
    ¬ ReflTransGen (Reach.Edge (statementEdges g s.predicate)) k s.subject := by
  have hacyclic := h.acyclic
  simp only [acyclicValid, hp, if_true, bind_ok, orFail_ok, failIf_ok] at hacyclic
  obtain ⟨target, htarget, hcycle⟩ := hacyclic
  rw [hg.target_eq hs h.value, hk] at htarget
  obtain rfl := Option.some.inj htarget
  intro hpath
  exact hcycle (Reach.mem_reach.2 ⟨k, List.mem_singleton_self _, hpath⟩)

/-- The statements of an acyclic property have no cycle if each of them is valid. -/
theorem statements_acyclic (hg : GraphStorage L g) {predicate : Bytes} {p : OntologyProperty}
    (hproperty : getProperty L g predicate = .ok (some p)) (hp : p.acyclic = true)
    (hvalid : ∀ s ∈ g.statements, s.predicate = predicate → statementValid L g s = .ok ()) :
    Reach.Acyclic (Reach.Edge (statementEdges g predicate)) := by
  rw [Reach.acyclic_iff]
  intro x y hedge
  obtain ⟨s, hs, rfl, rfl, hk⟩ := edge_statementEdges.1 hedge
  obtain ⟨q, v, hq⟩ := statementValid_ok.1 (hvalid s hs rfl)
  have heq : q = p := Option.some.inj (Except.ok.inj (hq.property.symm.trans hproperty))
  exact hq.no_cycle hg hs (heq ▸ hp) hk

/-- **A statement that is not marked stays valid**, if the marked ones are. Neither its ends nor its
property are marked, so that what its check reads is what it was. -/
theorem Marked.valid_statement (h : Marked g g' m) (hg : GraphStorage L g)
    (hg' : GraphStorage L g') (hsame : m.hierarchy = false)
    (hvalid : ∀ s ∈ g.statements, statementValid L g s = .ok ())
    (hmarked : ∀ s ∈ g'.statements, touched m.nodes m.properties s = true →
      statementValid L g' s = .ok ())
    {s : StatementRow} (hs : s ∈ g'.statements) : statementValid L g' s = .ok () := by
  cases htouched : touched m.nodes m.properties s with
  | true => exact hmarked s hs htouched
  | false =>
      simp only [touched, Bool.or_eq_false_iff, decide_eq_false_iff_not] at htouched
      obtain ⟨⟨hsubject, htarget⟩, hpredicate⟩ := htouched
      have hold := (h.statements s hsubject).1 hs
      obtain ⟨p, v, hp⟩ := statementValid_ok.1 (hvalid s hold)
      have hproperty : getProperty L g' s.predicate = .ok (some p) := by
        rw [h.getProperty_eq hpredicate, hp.property]
      have hobject := hg.target_eq hold hp.value
      refine statementValid_ok.2 ⟨p, v, hproperty, hp.kind, ?_, hp.value, ?_, ?_, ?_⟩
      · rw [h.hasType_eq hg hsame hsubject]
        exact hp.domain
      · have hrange := hp.range
        cases v with
        | resource r =>
            have hnode : r.node ∉ m.nodes := by
              have hr : s.objectKey = some r.node := hobject.symm
              simpa [hr] using htarget
            simp only [rangeValid, bind_ok, failIf_ok] at hrange ⊢
            obtain ⟨key, hkey, hrange⟩ := hrange
            refine ⟨key, hkey, ?_⟩
            rwa [h.hasType_eq hg hsame (nodeKey_ok hkey ▸ hnode)]
        | text _ | integer _ | real _ | boolean _ => exact hrange
      · rw [h.statementCount_eq hsubject]
        exact hp.single
      · have hacyclic := hp.acyclic
        unfold acyclicValid at hacyclic ⊢
        split
        · next hp' =>
            rw [if_pos hp'] at hacyclic
            simp only [bind_ok, orFail_ok, failIf_ok] at hacyclic ⊢
            obtain ⟨k, hk, -⟩ := hacyclic
            refine ⟨k, hk, fun hmem => ?_⟩
            obtain ⟨k', hk', hpath⟩ := Reach.mem_reach.1 hmem
            obtain rfl := List.mem_singleton.1 hk'
            -- An edge that was not there before is a marked statement's, and that is valid.
            refine Reach.acyclic_iff.1 (Reach.acyclic_of_new
              (statements_acyclic hg hp.property hp' fun s hs _ => hvalid s hs) ?_) s.subject k'
              (edge_statementEdges.2 ⟨s, hs, rfl, rfl, hobject ▸ hk⟩) hpath
            intro x y hedge hnew
            obtain ⟨s', hs', hpredicate', rfl, hy⟩ := edge_statementEdges.1 hedge
            have htouched' : s'.subject ∈ m.nodes := by
              by_contra hx
              exact hnew (edge_statementEdges.2
                ⟨s', (h.statements s' hx).1 hs', hpredicate', rfl, hy⟩)
            obtain ⟨q, w, hq⟩ := statementValid_ok.1 (hmarked s' hs' (by simp [touched, htouched']))
            have heq : q = p := by
              have hq' := hq.property
              rw [hpredicate', hproperty] at hq'
              exact (Option.some.inj (Except.ok.inj hq')).symm
            rw [← hpredicate']
            exact hq.no_cycle hg' hs' (heq ▸ hp') hy
        · rfl

/-! ## Directories that are not affected -/

/-- What a query asks of the graph stays, if none of its properties is marked. The classes and the
objects only grow, and the properties of its conditions are as they were. -/
theorem Marked.valid_query (h : Marked g g' m) {objects' : ObjectTables} {query : OntologyQuery}
    (hobjects : ∀ k, objects.objects.find k ≠ none → objects'.objects.find k ≠ none)
    (hconditions : ∀ c ∈ query.conditions, c.propertyKey ∉ m.properties)
    (hvalid : queryValid L objects g query = .ok ()) : queryValid L objects' g' query = .ok () := by
  have hclass : ∀ {key}, classExists g key = .ok () → classExists g' key = .ok () := by
    intro key hkey
    simp only [classExists, bind_ok, failIf_ok, not_and] at hkey ⊢
    obtain ⟨_, hbound, hkey⟩ := hkey
    exact ⟨(), hbound, fun hne => h.classes key (hkey hne)⟩
  have hresource : ∀ {r}, resourceExists L objects g r false = .ok () →
      resourceExists L objects' g' r false = .ok () := by
    intro r hr
    simp only [resourceExists, bind_ok] at hr ⊢
    obtain ⟨key, hkey, hr⟩ := hr
    refine ⟨key, hkey, ?_⟩
    cases hkind : r.kind with
    | file =>
        rw [hkind] at hr
        have hfind := failIf_ok.1 hr
        obtain ⟨row, hrow⟩ := Option.ne_none_iff_exists'.1 (hobjects r.key fun hnone => by
          rw [hnone] at hfind
          exact hfind rfl)
        refine failIf_ok.2 ?_
        rw [hrow]
        exact Bool.false_ne_true
    | entity =>
        rw [hkind] at hr
        exact failIf_ok.2 (h.nodes key (failIf_ok.1 hr))
  simp only [queryValid, bind_ok, forM_ok] at hvalid ⊢
  obtain ⟨j, hj, _, hkey, hforall⟩ := hvalid
  refine ⟨j, hj, (), hclass hkey, fun c hc => ?_⟩
  have hcondition := hforall c hc
  simp only [conditionValid, bind_ok, h.getProperty_eq (hconditions c hc)] at hcondition ⊢
  obtain ⟨definition, hdefinition, p, hp, hvalue⟩ := hcondition
  refine ⟨definition, hdefinition, p, hp, ?_⟩
  cases hequals : c.equals with
  | none => rfl
  | some v =>
      rw [hequals] at hvalue
      simp only [bind_ok] at hvalue ⊢
      obtain ⟨_, hkind, hvalue⟩ := hvalue
      refine ⟨(), hkind, ?_⟩
      cases v with
      | resource r => exact hresource hvalue
      | text _ | integer _ | real _ | boolean _ => exact hvalue

/-- A stored directory is valid if the query it was written for is. The document is decoded to the
query in normal form, which the check does not tell apart. -/
theorem directoryValid_of_query {d : DirectoryRow} {label : Bytes} {q : OntologyQuery}
    (hq : q.StoredAs L label d.document) (hvalid : queryValid L objects g q = .ok ()) :
    directoryValid L objects g d = .ok () := by
  obtain ⟨j, hj, ht⟩ := hq
  simp only [directoryValid, bind_ok]
  refine ⟨q.normal, directoryQuery_directoryJson hj ht, ?_⟩
  simp only [queryValid, bind_ok, forM_ok] at hvalid ⊢
  obtain ⟨j, hj, _, hclass, hconditions⟩ := hvalid
  refine ⟨j, queryJson_normal hj, (), hclass, fun c hc => ?_⟩
  obtain ⟨c₀, hc₀, rfl⟩ := List.mem_map.1 hc
  have hcondition := hconditions c₀ hc₀
  simp only [conditionValid, bind_ok] at hcondition ⊢
  obtain ⟨definition, hdefinition, p, hp, hvalue⟩ := hcondition
  refine ⟨definition, hdefinition, p, hp, ?_⟩
  unfold OntologyCondition.normal
  cases hequals : c₀.equals with
  | none => rfl
  | some v =>
      rw [hequals] at hvalue
      cases v <;> exact hvalue

/-- A directory of a stored graph that is valid stays so, or is affected by the marks. -/
theorem Marked.valid_directory (h : Marked g g' m) (hg' : GraphStorage L g') {d : DirectoryRow}
    (hd : d ∈ g'.directories) (hvalid : directoryValid L objects g d = .ok ()) :
    affected g' m.properties d = true ∨ directoryValid L objects g' d = .ok () := by
  obtain ⟨label, q, ⟨j, hj, ht⟩, hindexed⟩ := hg'.directories d hd
  simp only [directoryValid, bind_ok, directoryQuery_directoryJson hj ht, Except.ok.injEq,
    exists_eq_left'] at hvalid ⊢
  by_cases hconditions : ∀ c ∈ q.normal.conditions, c.propertyKey ∉ m.properties
  · exact .inr (h.valid_query (fun _ hk => hk) hconditions hvalid)
  · rw [not_forall₂] at hconditions
    obtain ⟨c, hc, hmarked⟩ := hconditions
    obtain ⟨c₀, hc₀, rfl⟩ := List.mem_map.1 hc
    refine .inl (List.any_eq_true.2 ⟨_, hindexed c₀ hc₀, decide_eq_true ⟨rfl, ?_⟩⟩)
    exact not_not.1 hmarked

/-- What an edit leaves of the directories: each was there with its properties, or its query is
valid. -/
theorem Edit.directories (h : Edit L objects g g' e m) {d : DirectoryRow}
    (hd : d ∈ g'.directories) :
    (d ∈ g.directories ∧ ∀ row : DirectoryPropertyRow, row.path = d.path →
      row ∈ g.directoryProperties → row ∈ g'.directoryProperties) ∨
    directoryValid L objects g' d = .ok () := by
  have hmarked := h.marked
  cases h with
  | ontologyClass | ontologyProperty | ontologyEntity | addType | removeType | assert | retract =>
      exact .inl ⟨hd, fun _ _ hrow => hrow⟩
  | @directory d₀ query after directoryProperties hvalid hquery hafter _ hmem =>
      rcases Table.mem_upsert.1 hd with ⟨hd, hother⟩ | rfl
      · exact .inl ⟨hd, fun row hpath hrow => (hmem row).2 (.inl ⟨hrow, hpath ▸ hother⟩)⟩
      · have hstored : d₀.query.StoredAs L d₀.label after := ⟨query, hquery, hafter⟩
        refine .inr (directoryValid_of_query hstored ?_)
        exact hmarked.valid_query (fun _ hk => hk) (fun _ _ => List.not_mem_nil) hvalid
  | @removeDirectory d₀ =>
      obtain ⟨hd, hother⟩ := Table.mem_filter.1 hd
      exact .inl ⟨hd, fun row hpath hrow => Table.mem_filter.2 ⟨hrow, hpath ▸ hother⟩⟩

/-- Every directory is affected by what the batch changed, or valid. -/
def DirectoriesChecked (L : JsonLibrary) (objects : ObjectTables) (b : Batch) : Prop :=
  ∀ d ∈ b.graph.directories, affected b.graph b.changedProperties d = true ∨
    directoryValid L objects b.graph d = .ok ()

/-- **A change keeps every directory affected or valid.** A directory that was valid is affected as
soon as one of its properties is marked, and one that is written is checked with its query. -/
theorem Changed.directoriesChecked (hg' : GraphStorage L b'.graph)
    (hb : DirectoriesChecked L objects b) (h : Changed L objects next b b') :
    DirectoriesChecked L objects b' := by
  cases h with
  | nothing n => exact hb
  | edit e m hrecorded =>
      intro d hd
      have haffected : ∀ {marked : List Bytes}, marked ⊆ b'.changedProperties →
          affected b'.graph marked d = true → affected b'.graph b'.changedProperties d = true := by
        intro marked hsub h
        obtain ⟨row, hrow, hkey⟩ := List.any_eq_true.1 h
        exact List.any_eq_true.2 ⟨row, hrow, decide_eq_true
          ((of_decide_eq_true hkey).imp_right fun hmem => hsub hmem)⟩
      rcases hrecorded.edit.directories hd with ⟨hold, hrows⟩ | hvalid
      · rcases hb d hold with hold | hvalid
        · obtain ⟨row, hrow, hkey⟩ := List.any_eq_true.1 hold
          obtain ⟨hpath, hpredicate⟩ := of_decide_eq_true hkey
          refine .inl (List.any_eq_true.2 ⟨row, hrows row hpath hrow, decide_eq_true ⟨hpath, ?_⟩⟩)
          rw [hrecorded.changedProperties]
          exact List.mem_append_right _ hpredicate
        · rcases hrecorded.edit.marked.valid_directory hg' hd hvalid with h | h
          · refine .inl (haffected ?_ h)
            rw [hrecorded.changedProperties]
            exact List.subset_append_left _ _
          · exact .inr h
      · exact .inr hvalid

/-! ## The check of a batch -/

/-- **The check at the end of a batch is the full check.** What is marked is checked by the one, and
what is not marked is valid before and so after; the directories are affected or valid at every
step. -/
theorem validateBatch_iff {o : OntologyTables} (hg : GraphStorage L o.graph)
    (hfull : fullCheck L objects o.graph = .ok ())
    (h : ReflTransGen (Changed L objects next) (.start o) b) :
    validateBatch L objects b = .ok () ↔ fullCheck L objects b.graph = .ok () := by
  obtain ⟨hstatements, hdirectories⟩ := fullCheck_ok.1 hfull
  have hchecked : GraphStorage L b.graph ∧ DirectoriesChecked L objects b := by
    induction h with
    | refl => exact ⟨hg, fun d hd => .inr (hdirectories d hd)⟩
    | tail _ hchange ih =>
        have hg' := hchange.storage ih.1
        exact ⟨hg', hchange.directoriesChecked hg' ih.2⟩
  obtain ⟨hg', hchecked⟩ := hchecked
  rw [validateBatch_ok, fullCheck_ok]
  constructor
  · rintro ⟨hmarked, haffected⟩
    refine ⟨fun s hs => ?_, fun d hd => ?_⟩
    · cases hhierarchy : b.hierarchyChanged with
      | true => exact hmarked s hs (.inl hhierarchy)
      | false =>
          exact (marked_of_changes h).valid_statement hg hg' hhierarchy hstatements
            (fun s hs ht => hmarked s hs (.inr ht)) hs
    · rcases hchecked d hd with h | h
      · exact haffected d hd h
      · exact h
  · rintro ⟨hall, hall'⟩
    exact ⟨fun s hs _ => hall s hs, fun d hd _ => hall' d hd⟩

namespace Workspace

/-- **The check that a batch ends with accepts what the full check accepts.** The changes are any
that are applied to a graph that passed the full check; the batch looks only at what they may touch.
The graph has to be stored as the changes store it (`GraphStorage`), and that holds of the graph of
every reachable workspace. -/
theorem incremental_check (P : Platform) (clock : Int → Prop) (container : Bytes) :
    (∀ w, Reachable P clock container w → GraphStorage P.json w.ontology.graph) ∧
    ∀ (objects : ObjectTables) (o : OntologyTables) (next : Nat) (token : StopToken)
      (changes : List OntologyChange) (polls : Nat) (b : Batch),
      GraphStorage P.json o.graph → fullCheck P.json objects o.graph = .ok () →
      OntologyFileSystem.applyChanges P.json objects next token changes polls (.start o) = .ok b →
      (validateBatch P.json objects b = .ok () ↔ fullCheck P.json objects b.graph = .ok ()) := by
  refine ⟨fun w hw => hw.sound.ontology.storage, ?_⟩
  intro objects o next token changes polls b hg hfull h
  exact validateBatch_iff hg hfull (applyChanges_ok hg h).1

/-- An entity of a class that has a parent, with a statement of a property of the parent. -/
def sampleGraph : List OntologyChange :=
  [.ontologyClass ⟨ascii "k", ascii "label", [], []⟩,
    .ontologyClass ⟨ascii "c", ascii "label", [], [ascii "k"]⟩,
    .ontologyProperty ⟨ascii "p", ascii "label", .text, ascii "k", [], false, false⟩,
    .ontologyEntity ⟨ascii "e", ascii "label", []⟩,
    .typeAssignment ⟨⟨.entity, ascii "e"⟩, ascii "c", true⟩,
    .assertion ⟨⟨.entity, ascii "e"⟩, ascii "p", .text (ascii "t"), true⟩,
    .directory ⟨ascii "d", ascii "label", ⟨ascii "k", true, [⟨ascii "p", none⟩], false⟩⟩]

/-- The class loses its parent, and both checks refuse the statement. -/
theorem incremental_check_sample : ∃ (o : OntologyTables) (b : Batch),
    o.graph.statements.rows ≠ [] ∧
    (validateBatch Platform.reference.json (.fresh (ascii "c")) b = .ok () ↔
      fullCheck Platform.reference.json (.fresh (ascii "c")) b.graph = .ok ()) ∧
    (validateBatch Platform.reference.json (.fresh (ascii "c")) b).isOk = false := by
  have hok : (OntologyFileSystem.applyChanges Platform.reference.json (.fresh (ascii "c")) 1
      (fun _ => false) sampleGraph 0 (.start .empty) >>= fun b₁ =>
        fullCheck Platform.reference.json (.fresh (ascii "c")) b₁.graph >>= fun _ =>
          failIf (b₁.graph.statements.rows = []) "unexpected" >>= fun _ =>
            OntologyFileSystem.applyChanges Platform.reference.json (.fresh (ascii "c")) 2
              (fun _ => false) [.ontologyClass ⟨ascii "c", ascii "label", [], []⟩] 0
              (.start { OntologyTables.empty with graph := b₁.graph }) >>= fun b =>
                failIf ((validateBatch Platform.reference.json (.fresh (ascii "c")) b).isOk = true)
                  "unexpected").isOk = true := by
    decide +kernel
  obtain ⟨_, h⟩ := exists_of_isOk hok
  simp only [bind_ok, failIf_ok, Bool.not_eq_true] at h
  obtain ⟨b₁, hfirst, _, hfull, _, hrows, b, hsecond, hrefused⟩ := h
  have hg := (applyChanges_ok (GraphStorage.empty _) hfirst).2
  exact ⟨{ OntologyTables.empty with graph := b₁.graph }, b, hrows,
    (incremental_check .reference (fun _ => True) (ascii "c")).2 _ _ _ _ _ _ _ hg hfull hsecond,
    hrefused⟩

end Workspace

end FileProvider
