import FileProvider.Object.Statements
import FileProvider.Ontology.Model

/-!
# The statements on the graph

Each statement that writes a table of the graph: its bound values, its constraints, and the
foreign keys of the rows it inserts. A statement whose effect the caller asks for answers with
the tables and with whether it changed a row.

The statements on nodes and types can be without an effect, when the row is there already, which
their answer tells. Nothing else in the model writes these tables.
-/

namespace FileProvider

open Bytes Fallible

/-- The tables after a statement, and whether it changed a row. -/
structure Written where
  graph : GraphTables
  changed : Bool

namespace GraphTables

variable (g : GraphTables)

/-! ## Classes and properties -/

def upsertClass (row : ClassRow) : Fallible GraphTables := do
  bindTexts [row.key, row.label, row.description]
  pure { g with classes := g.classes.upsert row }

def removeParents (child : Bytes) : Fallible GraphTables := do
  bindTexts [child]
  pure { g with parents := g.parents.filter fun p => p.child ≠ child }

def insertParent (row : ParentRow) : Fallible GraphTables := do
  bindTexts [row.child, row.parent]
  let parents ← orFail "UNIQUE constraint failed: ontology_parents.child, ontology_parents.parent"
    (g.parents.insert row)
  failIf (g.classes.find row.child = none ∨ g.classes.find row.parent = none)
    "FOREIGN KEY constraint failed"
  pure { g with parents }

def upsertProperty (row : PropertyRow) : Fallible GraphTables := do
  bindTexts [row.key, row.document]
  pure { g with properties := g.properties.upsert row }

/-! ## Nodes and their types -/

/-- `INSERT OR IGNORE INTO ontology_nodes(key,object_key,document) VALUES(?,?,'')`. -/
def insertFileNode (objects : ObjectTables) (key objectKey : Bytes) : Fallible GraphTables := do
  bindTexts [key, objectKey]
  if g.nodes.find key ≠ none ∨ ∃ n ∈ g.nodes.rows, n.objectKey = some objectKey then pure g else do
    failIf (objects.objects.find objectKey = none) "FOREIGN KEY constraint failed"
    pure { g with nodes := g.nodes.orInsert ⟨key, some objectKey, []⟩ }

/-- `INSERT INTO ontology_nodes VALUES(?,NULL,?) ON CONFLICT(key) DO UPDATE SET document=…`. -/
def upsertNode (key document : Bytes) : Fallible GraphTables := do
  bindTexts [key, document]
  let objectKey := (g.nodes.find key).bind (·.objectKey)
  pure { g with nodes := g.nodes.upsert ⟨key, objectKey, document⟩ }

/-- `INSERT OR IGNORE INTO ontology_types VALUES(?,?)`. -/
def insertType (row : TypeRow) : Fallible Written := do
  bindTexts [row.resourceKey, row.classKey]
  if g.types.find row ≠ none then pure ⟨g, false⟩ else do
    failIf (g.nodes.find row.resourceKey = none ∨ g.classes.find row.classKey = none)
      "FOREIGN KEY constraint failed"
    pure ⟨{ g with types := g.types.orInsert row }, true⟩

def removeType (row : TypeRow) : Fallible Written := do
  bindTexts [row.resourceKey, row.classKey]
  pure ⟨{ g with types := g.types.filter (· ≠ row) }, g.types.find row ≠ none⟩

/-! ## Statements -/

/-- `INSERT OR IGNORE INTO ontology_statements(subject,predicate,kind,value,object_key)`. The
number of a row that is ignored is spent. -/
def insertStatement (subject predicate : Bytes) (kind : OntologyValueKind) (value object : Bytes) :
    Fallible Written := do
  bindTexts [subject, predicate, value, object]
  failIf (int64Max ≤ g.statementsSequence) "database or disk is full"
  let objectKey := if object = [] then none else some object
  let row : StatementRow :=
    ⟨g.statementsSequence + 1, subject, predicate, kind, value, objectKey⟩
  if g.statements.find row.id ≠ none then
    pure ⟨{ g with statementsSequence := g.statementsSequence + 1 }, false⟩
  else do
    failIf (g.nodes.find subject = none ∨ g.properties.find predicate = none
      ∨ ∃ k ∈ objectKey, g.nodes.find k = none) "FOREIGN KEY constraint failed"
    pure ⟨{ g with
      statements := g.statements.orInsert row
      statementsSequence := g.statementsSequence + 1 }, true⟩

def removeStatement (subject predicate : Bytes) (kind : OntologyValueKind) (value : Bytes) :
    Fallible Written := do
  bindTexts [subject, predicate, value]
  let id := (subject, predicate, kind, value)
  pure ⟨{ g with statements := g.statements.filter (·.id ≠ id) }, g.statements.find id ≠ none⟩

/-! ## Directories -/

def upsertDirectory (row : DirectoryRow) : Fallible GraphTables := do
  bindTexts [row.path, row.document]
  pure { g with directories := g.directories.upsert row }

def removeDirectoryProperties (path : Bytes) : Fallible GraphTables := do
  bindTexts [path]
  pure { g with directoryProperties := g.directoryProperties.filter (·.path ≠ path) }

/-- `INSERT OR IGNORE INTO ontology_directory_properties VALUES(?,?)`. -/
def insertDirectoryProperty (row : DirectoryPropertyRow) : Fallible GraphTables := do
  bindTexts [row.path, row.predicate]
  if g.directoryProperties.find row ≠ none then pure g else do
    failIf (g.directories.find row.path = none ∨ g.properties.find row.predicate = none)
      "FOREIGN KEY constraint failed"
    pure { g with directoryProperties := g.directoryProperties.orInsert row }

/-- `DELETE FROM ontology_directories WHERE path=?`, which the directory's properties follow. -/
def removeDirectory (path : Bytes) : Fallible GraphTables := do
  bindTexts [path]
  pure { g with
    directories := g.directories.filter (·.path ≠ path)
    directoryProperties := g.directoryProperties.filter (·.path ≠ path) }

end GraphTables

namespace OntologyTables

variable (o : OntologyTables)

def insertCommit (objects : ObjectTables) (row : CommitRow) : Fallible OntologyTables := do
  bindTexts [row.sessionKey]
  let commits ← orFail "UNIQUE constraint failed: ontology_commits.revision"
    (o.commits.insert row)
  failIf (objects.sessions.find row.sessionKey = none) "FOREIGN KEY constraint failed"
  pure { o with commits }

end OntologyTables

end FileProvider
