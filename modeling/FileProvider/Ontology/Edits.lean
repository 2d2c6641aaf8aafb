import FileProvider.Ontology.Apply

/-!
# What a change does

`GraphStorage` is what every graph keeps whose rows the changes wrote: the rows a row refers to
are there, and a document is the text its encoder writes. On such a graph a change that succeeds
either leaves everything as it is or is one edit: it changes the rows of its own kind, appends
one event, and marks what the check at the end has to look at. `Edit` lists the edits; every
invariant of the ontology is proved for them.

The marks of an edit are those that the source collects. `Ontology.Changes` shows that every change
is one of these edits, and `Ontology.Validation` that the marks are enough.
-/

namespace FileProvider

open Bytes Fallible Ontology OntologyFileSystem

variable {L : JsonLibrary} {objects : ObjectTables} {next : Nat} {g g' : GraphTables}
  {b b' : Batch}

/-! ## Stored graphs -/

/-- A class key that names no class or one that is there. -/
def GraphTables.Defines (g : GraphTables) (key : Bytes) : Prop :=
  key = [] ∨ g.classes.find key ≠ none

/-- The text a value is stored as. -/
def OntologyValue.StoredAs (L : JsonLibrary) (v : OntologyValue) (t : Bytes) : Prop :=
  ∃ j, valueJson L v = .ok j ∧ L.dump j = .ok t

/-- The text a directory is stored as. -/
def OntologyQuery.StoredAs (L : JsonLibrary) (q : OntologyQuery) (label t : Bytes) : Prop :=
  ∃ j, queryJson L q = .ok j ∧ L.dump (directoryJson label j) = .ok t

/-- A row of a file's node or of an entity's. -/
def NodeRow.Kept (n : NodeRow) : Prop :=
  (∃ k, n = ⟨(OntologyResource.mk .file k).node, some k, []⟩) ∨
    ∃ k, n.key = (OntologyResource.mk .entity k).node ∧ n.objectKey = none

/-- The rows a stored graph refers to are there, and its documents are what the encoders
write. -/
structure GraphStorage (L : JsonLibrary) (g : GraphTables) : Prop where
  parents : ∀ p ∈ g.parents, g.classes.find p.child ≠ none ∧ g.classes.find p.parent ≠ none
  properties : ∀ row ∈ g.properties, ∃ p j, propertyJson L p = .ok j ∧
    L.dump j = .ok row.document ∧ p.key = row.key ∧ g.Defines p.domainClass ∧
    g.Defines p.rangeClass
  nodes : ∀ n ∈ g.nodes, n.Kept
  types : ∀ t ∈ g.types, g.nodes.find t.resourceKey ≠ none ∧ g.classes.find t.classKey ≠ none
  statements : ∀ s ∈ g.statements, g.nodes.find s.subject ≠ none ∧
    g.properties.find s.predicate ≠ none ∧ (∀ k ∈ s.objectKey, g.nodes.find k ≠ none) ∧
    ∃ v : OntologyValue, v.StoredAs L s.value ∧ v.kind = s.kind ∧ v.target = s.objectKey
  directories : ∀ d ∈ g.directories, ∃ (label : Bytes) (q : OntologyQuery),
    q.StoredAs L label d.document ∧
      ∀ c ∈ q.conditions, ⟨d.path, c.propertyKey⟩ ∈ g.directoryProperties

/-- The empty graph has nothing stored wrongly. -/
theorem GraphStorage.empty (L : JsonLibrary) : GraphStorage L .empty where
  parents _ h := absurd h (Table.not_mem_empty _)
  properties _ h := absurd h (Table.not_mem_empty _)
  nodes _ h := absurd h (Table.not_mem_empty _)
  types _ h := absurd h (Table.not_mem_empty _)
  statements _ h := absurd h (Table.not_mem_empty _)
  directories _ h := absurd h (Table.not_mem_empty _)

/-- A stored directory has a document. -/
theorem GraphStorage.document_ne_nil (h : GraphStorage L g) {d : DirectoryRow}
    (hd : d ∈ g.directories) : d.document ≠ [] := by
  obtain ⟨label, q, ⟨j, -, ht⟩, -⟩ := h.directories d hd
  exact Json.dump_obj_ne_nil (orFail_ok.1 ht)

@[simp] theorem OntologyValue.target_normal (v : OntologyValue) : v.normal.target = v.target := by
  cases v <;> rfl

/-- A value is determined by its kind and its text, a sign of zero apart. -/
theorem OntologyValue.StoredAs.normal_eq {v w : OntologyValue} {t : Bytes} (hv : v.StoredAs L t)
    (hw : w.StoredAs L t) (hkind : v.kind = w.kind) : v.normal = w.normal := by
  obtain ⟨j, hj, ht⟩ := hv
  obtain ⟨k, hk, ht'⟩ := hw
  obtain rfl := JsonLibrary.dump_injective (valueJson_canonical hj) (valueJson_canonical hk) ht ht'
  have h := readValue_valueJson hj
  rw [hkind, readValue_valueJson hk] at h
  exact (Except.ok.inj h).symm

/-! ## The edits -/

/-- The nodes with file nodes added. -/
structure NodesGrow (objects : ObjectTables) (t t' : Table NodeRow.key) : Prop where
  kept : ∀ k n, t.find k = some n → t'.find k = some n
  added : ∀ n ∈ t', n ∈ t ∨
    ∃ k, n = ⟨(OntologyResource.mk .file k).node, some k, []⟩ ∧ objects.objects.find k ≠ none

/-- What an event of the journal says. -/
structure EventText where
  operation : Bytes
  subject : Bytes
  before : Bytes
  after : Bytes

/-- What the check at the end of a batch has to look at. -/
structure Marks where
  nodes : List Bytes
  properties : List Bytes
  hierarchy : Bool

/-- The parents after a class was written. -/
structure ParentsWritten (g : GraphTables) (c : OntologyClass)
    (parents : Table (id : ParentRow → ParentRow)) : Prop where
  same : reparented (getClass g c.key) c = false → parents = g.parents
  moved : reparented (getClass g c.key) c = true →
    (∀ row, row ∈ parents ↔ (row ∈ g.parents ∧ row.child ≠ c.key) ∨
      (row.child = c.key ∧ row.parent ∈ c.parents)) ∧
    ¬ Relation.TransGen (fun a b => ⟨a, b⟩ ∈ parents) c.key c.key

/-- One edit of the graph, with its event and its marks. -/
inductive Edit (L : JsonLibrary) (objects : ObjectTables) (g : GraphTables) :
    GraphTables → EventText → Marks → Prop where
  | ontologyClass {c : OntologyClass} {j : Json} {before after : Bytes}
      {parents : Table (id : ParentRow → ParentRow)} :
      classJson L c = .ok j → classText L (getClass g c.key) = .ok before →
      L.dump j = .ok after → before ≠ after → (∀ p ∈ c.parents, g.classes.find p ≠ none) →
      ParentsWritten g c parents →
      Edit L objects g
        { g with classes := g.classes.upsert ⟨c.key, c.label, c.description⟩, parents }
        ⟨ascii "class", c.key, before, after⟩
        ⟨[], [], reparented (getClass g c.key) c && (getClass g c.key).isSome⟩
  | ontologyProperty {p : OntologyProperty} {j : Json} {before after : Bytes}
      {old : Option OntologyProperty} :
      propertyJson L p = .ok j → L.dump j = .ok after → g.Defines p.domainClass →
      g.Defines p.rangeClass → getProperty L g p.key = .ok old →
      propertyText L old = .ok before → before ≠ after →
      Edit L objects g { g with properties := g.properties.upsert ⟨p.key, after⟩ }
        ⟨ascii "property", p.key, before, after⟩ ⟨[], [p.key], false⟩
  | ontologyEntity {e : OntologyEntity} {key after : Bytes} :
      key = (OntologyResource.mk .entity e.key).node → L.dump (entityJson e) = .ok after →
      ((g.nodes.find key).map (·.document)).getD [] ≠ after →
      Edit L objects g
        { g with
          nodes := g.nodes.upsert ⟨key, (g.nodes.find key).bind (·.objectKey), after⟩ }
        ⟨ascii "entity", key, ((g.nodes.find key).map (·.document)).getD [], after⟩
        ⟨[], [], false⟩
  | addType {subject classKey document : Bytes} {nodes : Table NodeRow.key} :
      NodesGrow objects g.nodes nodes → nodes.find subject ≠ none →
      g.classes.find classKey ≠ none → ⟨subject, classKey⟩ ∉ g.types →
      L.dump (typeJson classKey) = .ok document →
      Edit L objects g { g with nodes, types := g.types.orInsert ⟨subject, classKey⟩ }
        ⟨ascii "type", subject, [], document⟩ ⟨[subject], [], false⟩
  | removeType {subject classKey document : Bytes} :
      ⟨subject, classKey⟩ ∈ g.types → L.dump (typeJson classKey) = .ok document →
      Edit L objects g { g with types := g.types.filter (· ≠ ⟨subject, classKey⟩) }
        ⟨ascii "type", subject, document, []⟩ ⟨[subject], [], false⟩
  | assert {subject predicate value document : Bytes} {v : OntologyValue} {j : Json}
      {nodes : Table NodeRow.key} :
      NodesGrow objects g.nodes nodes → nodes.find subject ≠ none →
      g.properties.find predicate ≠ none → (∀ k ∈ v.target, nodes.find k ≠ none) →
      valueJson L v = .ok j → L.dump j = .ok value →
      L.dump (statementJson predicate v.kind j) = .ok document →
      g.statements.find (subject, predicate, v.kind, value) = none →
      Edit L objects g
        { g with
          nodes
          statements := g.statements.orInsert
            ⟨g.statementsSequence + 1, subject, predicate, v.kind, value, v.target⟩
          statementsSequence := g.statementsSequence + 1 }
        ⟨ascii "statement", subject, [], document⟩ ⟨v.target.toList ++ [subject], [], false⟩
  | retract {subject predicate value document : Bytes} {v : OntologyValue} {j : Json} :
      valueJson L v = .ok j → L.dump j = .ok value →
      L.dump (statementJson predicate v.kind j) = .ok document →
      g.statements.find (subject, predicate, v.kind, value) ≠ none →
      Edit L objects g
        { g with
          statements := g.statements.filter (·.id ≠ (subject, predicate, v.kind, value)) }
        ⟨ascii "statement", subject, document, []⟩ ⟨v.target.toList ++ [subject], [], false⟩
  | directory {d : OntologyDirectory} {query : Json} {after : Bytes}
      {directoryProperties : Table (id : DirectoryPropertyRow → DirectoryPropertyRow)} :
      queryValid L objects g d.query = .ok () → queryJson L d.query = .ok query →
      L.dump (directoryJson d.label query) = .ok after →
      ((g.directories.find d.path).map (·.document)).getD [] ≠ after →
      (∀ row, row ∈ directoryProperties ↔ (row ∈ g.directoryProperties ∧ row.path ≠ d.path) ∨
        (row.path = d.path ∧ row.predicate ∈ d.query.conditions.map (·.propertyKey))) →
      Edit L objects g
        { g with directories := g.directories.upsert ⟨d.path, after⟩, directoryProperties }
        ⟨ascii "directory", d.path, ((g.directories.find d.path).map (·.document)).getD [], after⟩
        ⟨[], [], false⟩
  | removeDirectory {d : DirectoryRow} :
      d ∈ g.directories →
      Edit L objects g
        { g with
          directories := g.directories.filter (·.path ≠ d.path)
          directoryProperties := g.directoryProperties.filter (·.path ≠ d.path) }
        ⟨ascii "directory", d.path, d.document, []⟩ ⟨[], [], false⟩

/-- A change that made one edit. -/
structure Recorded (L : JsonLibrary) (objects : ObjectTables) (next : Nat) (b b' : Batch)
    (e : EventText) (marks : Marks) : Prop where
  edit : Edit L objects b.graph b'.graph e marks
  journal : b.journal.insert
    ⟨b.journalSequence + 1, next, e.operation, e.subject, e.before, e.after⟩ = some b'.journal
  journalSequence : b'.journalSequence = b.journalSequence + 1
  journalBytes : b'.journalBytes = b.journalBytes + e.before.length + e.after.length
  bounded : b'.journalBytes ≤ maximumBatchJournalBytes
  events : b'.events = b.events + 1
  changedNodes : b'.changedNodes = marks.nodes ++ b.changedNodes
  changedProperties : b'.changedProperties = marks.properties ++ b.changedProperties
  hierarchyChanged : b'.hierarchyChanged = (b.hierarchyChanged || marks.hierarchy)

/-- A change that succeeded: one edit, or nothing but a spent statement number. -/
inductive Changed (L : JsonLibrary) (objects : ObjectTables) (next : Nat) (b : Batch) :
    Batch → Prop where
  | nothing (n : Nat) :
      Changed L objects next b { b with graph := { b.graph with statementsSequence := n } }
  | edit {b' : Batch} (e : EventText) (marks : Marks) : Recorded L objects next b b' e marks →
      Changed L objects next b b'

end FileProvider
