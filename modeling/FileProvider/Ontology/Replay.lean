import FileProvider.Ontology.Invariant

/-!
# Replaying the journal

Every event of the ontology's journal names what changed, by its operation and its subject, with the
documents before and after. `replay` reads the events one after the other and builds a graph from
them, `ReplayedGraph`, which starts empty. `Edit.record` says that the event of an edit does to that
graph what the edit does to the tables, and that its document before is the one held; by induction
over batches and runs the journal of every reachable workspace replays to its graph.

`replay` needs nothing but the texts of the events: it parses the documents as any reader of the
journal can. The graph it builds has functions instead of tables, so that what is not there needs no
rows.
-/

namespace FileProvider

open Bytes Fallible Ontology OntologyFileSystem Relation

variable {P : Platform} {L : JsonLibrary} {objects : ObjectTables} {next : Nat}
  {g g' : GraphTables} {b b' : Batch} {e : EventText} {m : Marks}

/-! ## The graph of a journal -/

namespace Ontology

/-- The class that the document of a type assignment names. -/
def readType (L : JsonLibrary) (document : Bytes) : Fallible Bytes := do
  let j ← L.parseText document
  (← j.member (ascii "class")).getStr

/-- The property, the kind and the text of the value that the document of a statement names. -/
def readStatement (L : JsonLibrary) (document : Bytes) :
    Fallible (Bytes × OntologyValueKind × Bytes) := do
  let j ← L.parseText document
  let predicate ← (← j.member (ascii "property")).getStr
  let code ← (← j.member (ascii "kind")).getInt32
  let kind ← orFail "invalid ontology value kind" (OntologyValueKind.ofCode? code)
  let value ← L.dump (← j.member (ascii "value"))
  pure (predicate, kind, value)

end Ontology

/-- What a journal tells of a graph. Properties, entities and directories are held as their
documents, a value of a statement as its text. -/
@[ext] structure ReplayedGraph where
  classes : Bytes → Option OntologyClass
  properties : Bytes → Option Bytes
  entities : Bytes → Option Bytes
  types : Bytes → Bytes → Bool
  statements : Bytes → Bytes × OntologyValueKind × Bytes → Bool
  directories : Bytes → Option Bytes

namespace ReplayedGraph

/-- The graph of no events. -/
def empty : ReplayedGraph where
  classes _ := none
  properties _ := none
  entities _ := none
  types _ _ := false
  statements _ _ := false
  directories _ := none

variable (L : JsonLibrary) (r : ReplayedGraph)

/-- A document that an event sets. The empty text is that of nothing. -/
def document (t : Bytes) : Option Bytes := if t = [] then none else some t

/-- The class of a document. -/
def classOf (t : Bytes) : Fallible (Option OntologyClass) :=
  if t = [] then pure none else some <$> readClass L t

/-- A type or a statement of a node, added or taken away. -/
def assign {α : Type} [DecidableEq α] (f : Bytes → α → Bool) (node : Bytes) (x : α)
    (present : Bool) : Bytes → α → Bool :=
  Function.update f node (Function.update (f node) x present)

/-- An event of the journal: its document takes the place of the one before. A type or a statement
is added where there is a document after it, and is taken away otherwise. -/
def record (j : JournalRow) : Fallible ReplayedGraph :=
  if j.operation = ascii "class" then do
    let c ← classOf L j.afterJson
    pure { r with classes := Function.update r.classes j.subject c }
  else if j.operation = ascii "property" then
    pure { r with properties := Function.update r.properties j.subject (document j.afterJson) }
  else if j.operation = ascii "entity" then
    pure { r with entities := Function.update r.entities j.subject (document j.afterJson) }
  else if j.operation = ascii "type" then do
    let key ← readType L (if j.afterJson = [] then j.beforeJson else j.afterJson)
    pure { r with types := assign r.types j.subject key (j.afterJson ≠ []) }
  else if j.operation = ascii "statement" then do
    let x ← readStatement L (if j.afterJson = [] then j.beforeJson else j.afterJson)
    pure { r with statements := assign r.statements j.subject x (j.afterJson ≠ []) }
  else if j.operation = ascii "directory" then
    pure { r with directories := Function.update r.directories j.subject (document j.afterJson) }
  else .error "unknown ontology operation"

/-- The document before an event is what the graph holds: the document of its subject, or for a type
or a statement whether it is there. -/
def HeldBefore (j : JournalRow) : Prop :=
  (j.operation = ascii "class" → classText L (r.classes j.subject) = .ok j.beforeJson) ∧
  (j.operation = ascii "property" → (r.properties j.subject).getD [] = j.beforeJson) ∧
  (j.operation = ascii "entity" → (r.entities j.subject).getD [] = j.beforeJson) ∧
  (j.operation = ascii "type" → ∃ key,
    readType L (if j.afterJson = [] then j.beforeJson else j.afterJson) = .ok key ∧
      (r.types j.subject key = true ↔ j.beforeJson ≠ [])) ∧
  (j.operation = ascii "statement" → ∃ x,
    readStatement L (if j.afterJson = [] then j.beforeJson else j.afterJson) = .ok x ∧
      (r.statements j.subject x = true ↔ j.beforeJson ≠ [])) ∧
  (j.operation = ascii "directory" → (r.directories j.subject).getD [] = j.beforeJson)

/-- The graph that a list of events tells. -/
def replay (events : List JournalRow) : Fallible ReplayedGraph :=
  events.foldlM (fun r j => r.record L j) .empty

end ReplayedGraph

/-- What the tables of a graph hold. The node of a file has no document and is not an entity. -/
def GraphTables.content (g : GraphTables) : ReplayedGraph where
  classes := getClass g
  properties key := (g.properties.find key).map (·.document)
  entities key := ((g.nodes.find key).map (·.document)).filter (· ≠ [])
  types node key := decide (⟨node, key⟩ ∈ g.types)
  statements node x := (g.statements.find (node, x)).isSome
  directories path := (g.directories.find path).map (·.document)

/-! ## Reading the documents back -/

/-- The key of a type is read back from its document. -/
theorem readType_typeJson {key t : Bytes} (ht : L.dump (typeJson key) = .ok t) :
    readType L t = .ok key := by
  have hk : ([(ascii "class", Json.str key)].map (·.1)).Nodup := List.nodup_singleton _
  have hcanonical : (typeJson key).Canonical := by
    refine Json.canonical_object hk fun m hm => ?_
    rw [List.mem_singleton.1 hm]
    trivial
  simp only [readType, bind_ok]
  exact ⟨_, JsonLibrary.parseText_of_dump hcanonical ht, _,
    Json.member_object hk (List.mem_singleton_self _), rfl⟩

/-- A statement is read back from its document. -/
theorem readStatement_statementJson {predicate value t : Bytes} {v : OntologyValue} {j : Json}
    (hj : valueJson L v = .ok j) (hvalue : L.dump j = .ok value)
    (ht : L.dump (statementJson predicate v.kind j) = .ok t) :
    readStatement L t = .ok (predicate, v.kind, value) := by
  obtain ⟨hproperty, hkind, hvalue'⟩ := statementJson_members predicate v.kind j
  have hcanonical : (statementJson predicate v.kind j).Canonical :=
    statementJson_canonical (valueJson_canonical hj)
  simp only [readStatement, bind_ok, orFail_ok, pure_ok]
  exact ⟨_, JsonLibrary.parseText_of_dump hcanonical ht, _, hproperty, _, rfl, _, hkind, _,
    getInt32_code _, _, OntologyValueKind.ofCode?_code _, _, hvalue', _, hvalue, rfl⟩

/-- A class with its parents in order has the same document. The document is printed from the
parents in order, and ordering them twice is ordering them once. -/
theorem classJson_sorted {c : OntologyClass} {j : Json} (h : classJson L c = .ok j) :
    classJson L c.sorted = .ok j := by
  have hparents : (Keyset.orderBy order c.parents).Perm c.parents :=
    Keyset.orderBy_perm c.parents
  have hsorted : c.sorted.sorted = c.sorted := by
    have hnodup := (classJson_ok h).2
    have hself := Keyset.orderBy_eq_self (sorted_ascending hnodup)
    simp only [OntologyClass.sorted] at hself ⊢
    rw [hself]
  simp only [classJson, bind_ok, failIf_ok, pure_ok, forM_ok] at h ⊢
  obtain ⟨_, hkey, _, hlabel, _, hdescription, _, hcount, _, htexts, _, hnodup, rfl⟩ := h
  refine ⟨(), hkey, (), hlabel, (), hdescription, (), ?_, (), ?_, (), ?_, ?_⟩
  · rwa [OntologyClass.sorted, hparents.length_eq]
  · intro p hp
    exact htexts p (hparents.mem_iff.1 hp)
  · have hself := congrArg OntologyClass.parents hsorted
    simp only [OntologyClass.sorted] at hself ⊢
    rwa [hself]
  · have hself := congrArg OntologyClass.parents hsorted
    simp only [OntologyClass.sorted] at hself ⊢
    rw [hself]

/-! ## The events of each kind -/

namespace ReplayedGraph

section
variable {r : ReplayedGraph} {n revision : Nat} {subject before after : Bytes}

/-- What an event of a class says to have been before. -/
theorem heldBefore_class : r.HeldBefore L ⟨n, revision, ascii "class", subject, before, after⟩ ↔
    classText L (r.classes subject) = .ok before := by
  simp +decide [HeldBefore]

/-- What an event of a property says to have been before. -/
theorem heldBefore_property :
    r.HeldBefore L ⟨n, revision, ascii "property", subject, before, after⟩ ↔
      (r.properties subject).getD [] = before := by
  simp +decide [HeldBefore]

/-- What an event of an entity says to have been before. -/
theorem heldBefore_entity :
    r.HeldBefore L ⟨n, revision, ascii "entity", subject, before, after⟩ ↔
      (r.entities subject).getD [] = before := by
  simp +decide [HeldBefore]

/-- What an event of a type says to have been before. -/
theorem heldBefore_type : r.HeldBefore L ⟨n, revision, ascii "type", subject, before, after⟩ ↔
    ∃ key, readType L (if after = [] then before else after) = .ok key ∧
      (r.types subject key = true ↔ before ≠ []) := by
  simp +decide [HeldBefore]

/-- What an event of a statement says to have been before. -/
theorem heldBefore_statement :
    r.HeldBefore L ⟨n, revision, ascii "statement", subject, before, after⟩ ↔
      ∃ x, readStatement L (if after = [] then before else after) = .ok x ∧
        (r.statements subject x = true ↔ before ≠ []) := by
  simp +decide [HeldBefore]

/-- What an event of a directory says to have been before. -/
theorem heldBefore_directory :
    r.HeldBefore L ⟨n, revision, ascii "directory", subject, before, after⟩ ↔
      (r.directories subject).getD [] = before := by
  simp +decide [HeldBefore]

/-- What an event of a class changes in the record. -/
theorem record_class {c : Option OntologyClass} (h : classOf L after = .ok c) :
    r.record L ⟨n, revision, ascii "class", subject, before, after⟩
      = .ok { r with classes := Function.update r.classes subject c } := by
  unfold record
  rw [if_pos rfl, h]
  rfl

/-- What an event of a property changes in the record. -/
theorem record_property : r.record L ⟨n, revision, ascii "property", subject, before, after⟩
    = .ok { r with properties := Function.update r.properties subject (document after) } := by
  unfold record
  dsimp only
  rw [if_neg (by decide), if_pos rfl]
  rfl

/-- What an event of an entity changes in the record. -/
theorem record_entity : r.record L ⟨n, revision, ascii "entity", subject, before, after⟩
    = .ok { r with entities := Function.update r.entities subject (document after) } := by
  unfold record
  dsimp only
  rw [if_neg (by decide), if_neg (by decide), if_pos rfl]
  rfl

/-- What an event of a type changes in the record. -/
theorem record_type {key : Bytes}
    (h : readType L (if after = [] then before else after) = .ok key) :
    r.record L ⟨n, revision, ascii "type", subject, before, after⟩
      = .ok { r with types := assign r.types subject key (after ≠ []) } := by
  unfold record
  dsimp only
  rw [if_neg (by decide), if_neg (by decide), if_neg (by decide), if_pos rfl, h]
  rfl

/-- What an event of a statement changes in the record. -/
theorem record_statement {x : Bytes × OntologyValueKind × Bytes}
    (h : readStatement L (if after = [] then before else after) = .ok x) :
    r.record L ⟨n, revision, ascii "statement", subject, before, after⟩
      = .ok { r with statements := assign r.statements subject x (after ≠ []) } := by
  unfold record
  dsimp only
  rw [if_neg (by decide), if_neg (by decide), if_neg (by decide), if_neg (by decide), if_pos rfl,
    h]
  rfl

/-- What an event of a directory changes in the record. -/
theorem record_directory : r.record L ⟨n, revision, ascii "directory", subject, before, after⟩
    = .ok { r with directories := Function.update r.directories subject (document after) } := by
  unfold record
  dsimp only
  rw [if_neg (by decide), if_neg (by decide), if_neg (by decide), if_neg (by decide),
    if_neg (by decide), if_pos rfl]
  rfl

end

end ReplayedGraph

/-! ## The event of an edit -/

open ReplayedGraph

/-- A document that is not empty is read as a class. -/
theorem classOf_classJson {c : OntologyClass} {j : Json} {t : Bytes}
    (hj : classJson L c = .ok j) (ht : L.dump j = .ok t) : classOf L t = .ok (some c.sorted) := by
  obtain ⟨hobject, -⟩ := classJson_ok hj
  rw [hobject] at ht
  have hne : t ≠ [] := Json.dump_obj_ne_nil (orFail_ok.1 ht)
  rw [← hobject] at ht
  unfold classOf
  rw [if_neg hne, readClass_classJson hj ht]
  rfl

/-- What an event of the journal does to the graph: it holds the document before, and gets the one
after. -/
structure RecordedEvent (L : JsonLibrary) (e : EventText) (r r' : ReplayedGraph) : Prop where
  held : ∀ n revision,
    r.HeldBefore L ⟨n, revision, e.operation, e.subject, e.before, e.after⟩
  record : ∀ n revision,
    r.record L ⟨n, revision, e.operation, e.subject, e.before, e.after⟩ = .ok r'
  differs : e.before ≠ e.after
  alters : r' ≠ r

/-- Reading a table after an upsert is reading it with one value updated. -/
theorem find_upsert_comp {ρ κ β : Type} {key : ρ → κ} [DecidableEq κ] (t : Table key) (row : ρ)
    (f : Option ρ → β) : (fun k => f ((t.upsert row).find k))
      = Function.update (fun k => f (t.find k)) (key row) (f (some row)) := by
  funext k
  rw [Table.find_upsert, Function.update_apply]
  by_cases heq : k = key row
  · rw [if_pos heq.symm, if_pos heq]
  · rw [if_neg fun h => heq h.symm, if_neg heq]

/-- A delete of the row of a key. -/
theorem find_delete {ρ κ : Type} {key : ρ → κ} [DecidableEq κ] (t : Table key) (k k' : κ) :
    (t.filter (fun r => key r ≠ k)).find k' = if k' = k then none else t.find k' := by
  rw [Table.find_filter]
  cases hrow : t.find k' with
  | none => rw [Option.filter_none, ite_self]
  | some r =>
      obtain rfl := Table.key_of_find hrow
      rw [Option.filter_some]
      by_cases heq : key r = k
      · rw [if_pos heq, if_neg (by simp [heq])]
      · rw [if_neg heq, if_pos (decide_eq_true heq)]

/-- A text that is not empty is a document. -/
theorem document_some {t : Bytes} (h : t ≠ []) : document t = some t := if_neg h

/-- An assignment changes one value of one node. -/
theorem assign_apply {α : Type} [DecidableEq α] (f : Bytes → α → Bool) (node n : Bytes) (x y : α)
    (present : Bool) :
    assign f node x present n y = if n = node ∧ y = x then present else f n y := by
  unfold assign
  rw [Function.update_apply]
  by_cases hn : n = node
  · subst hn
    rw [if_pos rfl, Function.update_apply]
    by_cases hy : y = x
    · rw [if_pos hy, if_pos ⟨rfl, hy⟩]
    · rw [if_neg hy, if_neg fun h => hy h.2]
  · rw [if_neg hn, if_neg fun h => hn h.1]

/-- Where a document differs from the one held, setting it changes what is held. -/
theorem update_document_ne {f : Bytes → Option Bytes} {key before after : Bytes}
    (hheld : (f key).getD [] = before) (hne : before ≠ after) :
    Function.update f key (document after) ≠ f := by
  intro hsame
  have hat := congrFun hsame key
  rw [Function.update_self] at hat
  rw [← hat] at hheld
  refine hne (hheld.symm.trans ?_)
  unfold document
  split
  · next hnil => rw [hnil]; rfl
  · rfl

/-- Where something is there that was not, or the other way around, what is held changes. -/
theorem assign_ne {α : Type} [DecidableEq α] {f : Bytes → α → Bool} {node : Bytes} (x : α)
    (present : Bool) (h : f node x ≠ present) : assign f node x present ≠ f := by
  intro hsame
  have hat := congrFun (congrFun hsame node) x
  rw [assign_apply, if_pos ⟨rfl, rfl⟩] at hat
  exact h hat.symm

/-- The document of a stored property is the text of its definition. -/
theorem GraphStorage.propertyText_eq (hg : GraphStorage L g) {key before : Bytes}
    {old : Option OntologyProperty} (hold : getProperty L g key = .ok old)
    (hbefore : propertyText L old = .ok before) :
    ((g.properties.find key).map (·.document)).getD [] = before := by
  unfold getProperty at hold
  cases hrow : g.properties.find key with
  | none =>
      rw [hrow] at hold
      obtain rfl := Except.ok.inj hold
      exact Except.ok.inj hbefore
  | some row =>
      rw [hrow] at hold
      obtain ⟨p, j, hj, ht, -⟩ := hg.properties row (Table.mem_of_find hrow)
      simp only [map_ok, decodeProperty_propertyJson hj ht, Except.ok.injEq,
        exists_eq_left'] at hold
      subst hold
      obtain ⟨k, hk, hdump⟩ := propertyText_ok hbefore
      obtain rfl := Except.ok.inj (hk.symm.trans hj)
      exact Except.ok.inj (ht.symm.trans hdump)

/-- The empty text and no text are the same document. -/
theorem filter_getD (o : Option Bytes) : (o.filter (· ≠ [])).getD [] = o.getD [] := by
  cases o with
  | none => rfl
  | some t =>
      rw [Option.filter_some]
      split
      · rfl
      · next h => simpa using h

/-- The nodes of files are no entities. -/
theorem NodesGrow.entities_eq {t t' : Table NodeRow.key} (h : NodesGrow objects t t') :
    (fun key => ((t'.find key).map (·.document)).filter (· ≠ []))
      = fun key => ((t.find key).map (·.document)).filter (· ≠ []) := by
  funext key
  cases hold : t.find key with
  | some n => rw [h.kept key n hold]
  | none =>
      cases hnew : t'.find key with
      | none => rfl
      | some n =>
          obtain ⟨hmem, hkey⟩ := Table.find_eq_some.1 hnew
          rcases h.added n hmem with hn | ⟨k, rfl, -⟩
          · exact absurd hkey (Table.find_eq_none.1 hold n hn)
          · rfl

/-- A type that is inserted is assigned to its node. -/
theorem types_inserted {subject classKey : Bytes} (hnew : ⟨subject, classKey⟩ ∉ g.types) :
    (fun node key => decide (⟨node, key⟩ ∈ g.types.orInsert ⟨subject, classKey⟩))
      = assign g.content.types subject classKey true := by
  funext node key
  have hmem : ⟨node, key⟩ ∈ g.types.orInsert ⟨subject, classKey⟩ ↔
      (node = subject ∧ key = classKey) ∨ ⟨node, key⟩ ∈ g.types := by
    rw [Table.mem_orInsert, TypeRow.mk.injEq, or_comm]
    exact or_congr_left (and_iff_left (not_not.1 fun hfind => hnew (mem_find.1 hfind)))
  rw [assign_apply, decide_eq_decide.2 hmem]
  split
  · next h => exact decide_eq_true (.inl h)
  · next h => exact decide_eq_decide.2 (or_iff_right h)

/-- A type that is deleted is taken from its node. -/
theorem types_deleted (subject classKey : Bytes) :
    (fun node key => decide (⟨node, key⟩ ∈ g.types.filter (· ≠ ⟨subject, classKey⟩)))
      = assign g.content.types subject classKey false := by
  funext node key
  have hmem : ⟨node, key⟩ ∈ g.types.filter (· ≠ ⟨subject, classKey⟩) ↔
      ⟨node, key⟩ ∈ g.types ∧ ¬ (node = subject ∧ key = classKey) := by
    rw [Table.mem_filter, decide_eq_true_eq, Ne, TypeRow.mk.injEq]
  rw [assign_apply, decide_eq_decide.2 hmem]
  split
  · next h => exact decide_eq_false fun hboth => hboth.2 h
  · next h => exact decide_eq_decide.2 (and_iff_left h)

/-- A statement that is inserted is assigned to its subject. -/
theorem statements_inserted (s : StatementRow) :
    (fun node x => ((g.statements.orInsert s).find (node, x)).isSome)
      = assign g.content.statements s.subject (s.predicate, s.kind, s.value) true := by
  funext node x
  rw [assign_apply, Table.find_orInsert, Option.isSome_or]
  by_cases h : node = s.subject ∧ x = (s.predicate, s.kind, s.value)
  · obtain ⟨rfl, rfl⟩ := h
    have hid : s.id = (s.subject, s.predicate, s.kind, s.value) := rfl
    rw [if_pos hid, if_pos ⟨rfl, rfl⟩, Option.isSome_some, Bool.or_true]
  · have hid : s.id ≠ (node, x) :=
      fun heq => h ⟨(Prod.mk.inj heq).1.symm, (Prod.mk.inj heq).2.symm⟩
    rw [if_neg h, if_neg hid, Option.isSome_none, Bool.or_false]
    rfl

/-- A statement that is deleted is taken from its subject. -/
theorem statements_deleted (subject : Bytes) (y : Bytes × OntologyValueKind × Bytes) :
    (fun node x => ((g.statements.filter (·.id ≠ (subject, y))).find (node, x)).isSome)
      = assign g.content.statements subject y false := by
  funext node x
  rw [assign_apply, find_delete]
  by_cases h : node = subject ∧ x = y
  · obtain ⟨rfl, rfl⟩ := h
    rw [if_pos rfl, if_pos ⟨rfl, rfl⟩]
    rfl
  · have hid : (node, x) ≠ (subject, y) :=
      fun heq => h ⟨(Prod.mk.inj heq).1, (Prod.mk.inj heq).2⟩
    rw [if_neg h, if_neg hid]
    rfl

/-- A directory that is deleted has no document any more. -/
theorem directories_deleted (path : Bytes) :
    (fun k => ((g.directories.filter (·.path ≠ path)).find k).map (·.document))
      = Function.update g.content.directories path (document []) := by
  funext k
  rw [find_delete, Function.update_apply]
  by_cases h : k = path
  · rw [if_pos h, if_pos h]
    rfl
  · rw [if_neg h, if_neg h]
    rfl

namespace RecordedEvent

variable {r r' : ReplayedGraph} {subject before after : Bytes}

/-- Two texts, one of which alone is empty, differ. -/
theorem ne_of_present {present : Bool} (hbefore : decide (before ≠ []) = !present)
    (hafter : decide (after ≠ []) = present) : before ≠ after := by
  rintro rfl
  rw [hafter] at hbefore
  exact (Bool.eq_not_self present).1 hbefore

/-- An event of a type, which is added or taken away as its first or its second document is
empty. -/
theorem ofType (present : Bool) (key : Bytes)
    (hread : readType L (if after = [] then before else after) = .ok key)
    (hbefore : decide (before ≠ []) = !present) (hafter : decide (after ≠ []) = present)
    (hheld : r.types subject key = !present)
    (hgraph : r' = { r with types := assign r.types subject key present }) :
    RecordedEvent L ⟨ascii "type", subject, before, after⟩ r r' where
  held n revision :=
    heldBefore_type.2 ⟨key, hread, by rw [hheld, ← hbefore, decide_eq_true_iff]⟩
  record n revision := by rw [record_type hread, hafter, hgraph]
  differs := ne_of_present hbefore hafter
  alters hsame := by
    refine assign_ne key present ?_ (congrArg ReplayedGraph.types (hgraph.symm.trans hsame))
    rw [hheld]
    exact Bool.not_ne_self present

/-- An event of a statement, which is added or taken away as its first or its second document is
empty. -/
theorem ofStatement (present : Bool) (x : Bytes × OntologyValueKind × Bytes)
    (hread : readStatement L (if after = [] then before else after) = .ok x)
    (hbefore : decide (before ≠ []) = !present) (hafter : decide (after ≠ []) = present)
    (hheld : r.statements subject x = !present)
    (hgraph : r' = { r with statements := assign r.statements subject x present }) :
    RecordedEvent L ⟨ascii "statement", subject, before, after⟩ r r' where
  held n revision :=
    heldBefore_statement.2 ⟨x, hread, by rw [hheld, ← hbefore, decide_eq_true_iff]⟩
  record n revision := by rw [record_statement hread, hafter, hgraph]
  differs := ne_of_present hbefore hafter
  alters hsame := by
    refine assign_ne x present ?_ (congrArg ReplayedGraph.statements (hgraph.symm.trans hsame))
    rw [hheld]
    exact Bool.not_ne_self present

end RecordedEvent

/-- **The event of an edit does to the replayed graph what the edit does to the tables.** There is
one case for each edit: the event holds the document of what was there and of what is there now, and
the rows written are those that it tells. -/
theorem Edit.recorded (hg : GraphStorage L g) (h : Edit L objects g g' e m) :
    RecordedEvent L e g.content g'.content := by
  cases h with
  | @ontologyClass c j before after parents hj hbefore hafter hne hexist hwritten =>
      have hclasses := getClass_written hwritten (classJson_ok hj).2
      refine ⟨fun n revision => heldBefore_class.2 hbefore, fun n revision => ?_, hne,
        fun hsame => hne ?_⟩
      · rw [record_class (classOf_classJson hj hafter)]
        exact congrArg (fun f => Except.ok { g.content with classes := f }) hclasses.symm
      · have hold : getClass g c.key = some c.sorted := by
          have hat := congrFun (congrArg ReplayedGraph.classes hsame) c.key
          have hnew := congrFun hclasses c.key
          rw [Function.update_self] at hnew
          exact hat.symm.trans hnew
        rw [hold] at hbefore
        obtain ⟨k, hk, hdump⟩ := classText_ok hbefore
        rw [classJson_sorted hj] at hk
        obtain rfl := Except.ok.inj hk
        exact Except.ok.inj (hdump.symm.trans hafter)
  | @ontologyProperty p j before after old hj hafter hdomain hrange hold hbefore hne =>
      have hafter' : after ≠ [] := by
        rw [propertyJson_ok hj] at hafter
        exact Json.dump_obj_ne_nil (orFail_ok.1 hafter)
      have hheld := hg.propertyText_eq hold hbefore
      have hproperties := find_upsert_comp g.properties ⟨p.key, after⟩
        (Option.map PropertyRow.document)
      refine ⟨fun n revision => heldBefore_property.2 hheld, fun n revision => ?_, hne,
        fun hsame => ?_⟩
      · rw [record_property, document_some hafter']
        exact congrArg (fun f => Except.ok { g.content with properties := f }) hproperties.symm
      · refine update_document_ne (f := g.content.properties) hheld hne ?_
        rw [document_some hafter']
        exact hproperties.symm.trans (congrArg ReplayedGraph.properties hsame)
  | @ontologyEntity entity key after hkey hafter hne =>
      have hafter' : after ≠ [] := Json.dump_obj_ne_nil (orFail_ok.1 hafter)
      have hheld : (g.content.entities key).getD []
          = ((g.nodes.find key).map (·.document)).getD [] := filter_getD _
      have hentities := find_upsert_comp g.nodes ⟨key, (g.nodes.find key).bind (·.objectKey), after⟩
        fun o => (o.map (·.document)).filter (· ≠ [])
      have hstored : (some after).filter (· ≠ []) = some after :=
        if_pos (decide_eq_true hafter')
      rw [Option.map_some, hstored] at hentities
      refine ⟨fun n revision => heldBefore_entity.2 hheld, fun n revision => ?_, hne,
        fun hsame => ?_⟩
      · rw [record_entity, document_some hafter']
        exact congrArg (fun f => Except.ok { g.content with entities := f }) hentities.symm
      · refine update_document_ne (f := g.content.entities) hheld hne ?_
        rw [document_some hafter']
        exact hentities.symm.trans (congrArg ReplayedGraph.entities hsame)
  | @addType subject classKey document nodes hgrow hnode hclass hnew hdocument =>
      have hne : document ≠ [] := Json.dump_obj_ne_nil (orFail_ok.1 hdocument)
      refine .ofType true classKey ?_ rfl (decide_eq_true hne)
        (decide_eq_false hnew) ?_
      · rw [if_neg hne]
        exact readType_typeJson hdocument
      · exact congrArg₂ (fun f f' => { g.content with types := f, entities := f' })
          (types_inserted hnew) hgrow.entities_eq
  | @removeType subject classKey document hthere hdocument =>
      have hne : document ≠ [] := Json.dump_obj_ne_nil (orFail_ok.1 hdocument)
      refine .ofType false classKey ?_ (decide_eq_true hne) rfl
        (decide_eq_true hthere) ?_
      · exact readType_typeJson hdocument
      · exact congrArg (fun f => { g.content with types := f }) (types_deleted subject classKey)
  | @assert subject predicate value document v j nodes hgrow hnode hproperty htarget hj hvalue
      hdocument hnew =>
      have hne : document ≠ [] := Json.dump_obj_ne_nil (orFail_ok.1 hdocument)
      refine .ofStatement true (predicate, v.kind, value) ?_ rfl
        (decide_eq_true hne) (Option.isSome_eq_false_iff.2 (Option.isNone_iff_eq_none.2 hnew)) ?_
      · rw [if_neg hne]
        exact readStatement_statementJson hj hvalue hdocument
      · exact congrArg₂ (fun f f' => { g.content with statements := f, entities := f' })
          (statements_inserted _) hgrow.entities_eq
  | @retract subject predicate value document v j hj hvalue hdocument hthere =>
      have hne : document ≠ [] := Json.dump_obj_ne_nil (orFail_ok.1 hdocument)
      refine .ofStatement false (predicate, v.kind, value) ?_
        (decide_eq_true hne) rfl (Option.isSome_iff_ne_none.2 hthere) ?_
      · exact readStatement_statementJson hj hvalue hdocument
      · exact congrArg (fun f => { g.content with statements := f })
          (statements_deleted subject (predicate, v.kind, value))
  | @directory d query after directoryProperties hvalid hquery hafter hne hmem =>
      have hafter' : after ≠ [] := Json.dump_obj_ne_nil (orFail_ok.1 hafter)
      have hdirectories := find_upsert_comp g.directories ⟨d.path, after⟩
        (Option.map DirectoryRow.document)
      refine ⟨fun n revision => heldBefore_directory.2 rfl, fun n revision => ?_, hne,
        fun hsame => ?_⟩
      · rw [record_directory, document_some hafter']
        exact congrArg (fun f => Except.ok { g.content with directories := f }) hdirectories.symm
      · refine update_document_ne (f := g.content.directories) rfl hne ?_
        rw [document_some hafter']
        exact hdirectories.symm.trans (congrArg ReplayedGraph.directories hsame)
  | @removeDirectory d hd =>
      have hne : d.document ≠ [] := hg.document_ne_nil hd
      have hheld : (g.content.directories d.path).getD [] = d.document := by
        show ((g.directories.find d.path).map (·.document)).getD [] = _
        rw [Table.mem_iff_find.1 hd]
        rfl
      have hdirectories := directories_deleted (g := g) d.path
      refine ⟨fun n revision => heldBefore_directory.2 hheld, fun n revision => ?_, hne,
        fun hsame => ?_⟩
      · rw [record_directory]
        exact congrArg (fun f => Except.ok { g.content with directories := f }) hdirectories.symm
      · exact update_document_ne hheld hne
          (hdirectories.symm.trans (congrArg ReplayedGraph.directories hsame))

end FileProvider
