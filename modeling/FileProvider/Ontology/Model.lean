import FileProvider.Library.Json
import FileProvider.Library.Table

/-!
# The ontology: values, changes and tables

The values the semantic filesystem takes and hands out, and the tables it keeps them in. The
tables fall into two parts: `GraphTables` is the graph itself, the classes, properties, nodes,
types, statements and directories, and `OntologyTables` adds the revision counter and the
journal in which every change of the graph is recorded.

A resource is a file of the object store or an entity of the graph, and its node carries the key of
either. Documents are kept as texts, as the tables do; the codec says which values they are.
-/

namespace FileProvider

/-! ## Values -/

inductive OntologyResourceKind where
  | file | entity
deriving DecidableEq

/-- A file of the object store, or an entity of the ontology. -/
structure OntologyResource where
  kind : OntologyResourceKind
  key : Bytes
deriving DecidableEq

inductive OntologyValueKind where
  | resource | text | integer | real | boolean
deriving DecidableEq

namespace OntologyValueKind

/-- The number of a kind. -/
def code : OntologyValueKind → Int
  | .resource => 0 | .text => 1 | .integer => 2 | .real => 3 | .boolean => 4

/-- The kind of a number. -/
def ofCode? (n : Int) : Option OntologyValueKind :=
  if n = 0 then some .resource
  else if n = 1 then some .text
  else if n = 2 then some .integer
  else if n = 3 then some .real
  else if n = 4 then some .boolean
  else none

@[simp] theorem ofCode?_code (k : OntologyValueKind) : ofCode? k.code = some k := by
  cases k <;> rfl

/-- The codes of kinds are those from 0 to 4. -/
theorem code_bounds (k : OntologyValueKind) : 0 ≤ k.code ∧ k.code ≤ 4 := by
  cases k <;> exact ⟨by decide, by decide⟩

end OntologyValueKind

/-- The value of a statement. -/
inductive OntologyValue where
  | resource (r : OntologyResource)
  | text (s : Bytes)
  | integer (n : Int64)
  | real (x : Double)
  | boolean (b : Bool)
deriving DecidableEq

namespace OntologyValue

def kind : OntologyValue → OntologyValueKind
  | .resource _ => .resource
  | .text _ => .text
  | .integer _ => .integer
  | .real _ => .real
  | .boolean _ => .boolean

end OntologyValue

/-! ## Definitions and changes -/

structure OntologyClass where
  key : Bytes
  label : Bytes
  description : Bytes
  parents : List Bytes
deriving DecidableEq

structure OntologyProperty where
  key : Bytes
  label : Bytes
  kind : OntologyValueKind
  domainClass : Bytes
  rangeClass : Bytes
  singleValue : Bool
  acyclic : Bool
deriving DecidableEq

structure OntologyEntity where
  key : Bytes
  label : Bytes
  description : Bytes
deriving DecidableEq

structure OntologyTypeAssignment where
  resource : OntologyResource
  classKey : Bytes
  present : Bool
deriving DecidableEq

structure OntologyAssertion where
  subject : OntologyResource
  propertyKey : Bytes
  value : OntologyValue
  present : Bool
deriving DecidableEq

/-- A condition of a query. Without a value it asks whether the property is there. -/
structure OntologyCondition where
  propertyKey : Bytes
  equals : Option OntologyValue
deriving DecidableEq

structure OntologyQuery where
  classKey : Bytes
  includeSubclasses : Bool
  conditions : List OntologyCondition
  includeDeleted : Bool
deriving DecidableEq

structure OntologyDirectory where
  path : Bytes
  label : Bytes
  query : OntologyQuery
deriving DecidableEq

/-- A change of the graph. -/
inductive OntologyChange where
  | ontologyClass (c : OntologyClass)
  | ontologyProperty (p : OntologyProperty)
  | ontologyEntity (e : OntologyEntity)
  | typeAssignment (t : OntologyTypeAssignment)
  | assertion (a : OntologyAssertion)
  | directory (d : OntologyDirectory)
  | removeDirectory (path : Bytes)
deriving DecidableEq

/-! ## Rows -/

/-- A row of `ontology_classes`. -/
structure ClassRow where
  key : Bytes
  label : Bytes
  description : Bytes
deriving DecidableEq

/-- A row of `ontology_parents`. -/
structure ParentRow where
  child : Bytes
  parent : Bytes
deriving DecidableEq

/-- A row of `ontology_properties`. -/
structure PropertyRow where
  key : Bytes
  document : Bytes
deriving DecidableEq

/-- A row of `ontology_nodes`. -/
structure NodeRow where
  key : Bytes
  objectKey : Option Bytes
  document : Bytes
deriving DecidableEq

/-- A row of `ontology_types`. -/
structure TypeRow where
  resourceKey : Bytes
  classKey : Bytes
deriving DecidableEq

/-- A row of `ontology_statements`. -/
structure StatementRow where
  sequence : Nat
  subject : Bytes
  predicate : Bytes
  kind : OntologyValueKind
  value : Bytes
  objectKey : Option Bytes
deriving DecidableEq

/-- The unique columns of `ontology_statements`. -/
def StatementRow.id (s : StatementRow) : Bytes × Bytes × OntologyValueKind × Bytes :=
  (s.subject, s.predicate, s.kind, s.value)

/-- A row of `ontology_directories`. -/
structure DirectoryRow where
  path : Bytes
  document : Bytes
deriving DecidableEq

/-- A row of `ontology_directory_properties`. -/
structure DirectoryPropertyRow where
  path : Bytes
  predicate : Bytes
deriving DecidableEq

/-- A row of `ontology_commits`. -/
structure CommitRow where
  revision : Nat
  sessionKey : Bytes
  atNs : Int
deriving DecidableEq

/-- A row of `ontology_journal`. -/
structure JournalRow where
  sequence : Nat
  revision : Nat
  operation : Bytes
  subject : Bytes
  beforeJson : Bytes
  afterJson : Bytes
deriving DecidableEq

/-! ## Tables -/

/-- The graph. `statementsSequence` is the last number the `AUTOINCREMENT` of the statements
handed out. -/
structure GraphTables where
  classes : Table ClassRow.key
  parents : Table (id : ParentRow → ParentRow)
  properties : Table PropertyRow.key
  nodes : Table NodeRow.key
  types : Table (id : TypeRow → TypeRow)
  statements : Table StatementRow.id
  statementsSequence : Nat
  directories : Table DirectoryRow.path
  directoryProperties : Table (id : DirectoryPropertyRow → DirectoryPropertyRow)

/-- The graph without anything in it. -/
def GraphTables.empty : GraphTables where
  classes := .empty
  parents := .empty
  properties := .empty
  nodes := .empty
  types := .empty
  statements := .empty
  statementsSequence := 0
  directories := .empty
  directoryProperties := .empty

/-- The tables of the ontology: the graph, its revision, and the journal. -/
structure OntologyTables where
  graph : GraphTables
  revision : Nat
  commits : Table CommitRow.revision
  journal : Table JournalRow.sequence
  journalSequence : Nat

/-- The tables schema 5 creates. -/
def OntologyTables.empty : OntologyTables where
  graph := .empty
  revision := 0
  commits := .empty
  journal := .empty
  journalSequence := 0

end FileProvider
