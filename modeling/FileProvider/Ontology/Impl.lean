import FileProvider.Library.Reach
import FileProvider.Ontology.Codec
import FileProvider.Ontology.Statements

/-!
# Reading and checking the graph

The readers of `OntologyFileSystem::Impl`, and the two checks a batch ends with:
`validateStatements`, of the statements a batch may have broken, and `queryValid`, of a saved
query.

Lineages are the sets that `Library.Reach` finds along the edges to the parents, so a hierarchy can
be read before it is known to have no cycle. The checks throw with the texts of the source.
-/

namespace FileProvider

open Bytes Fallible

/-- What an open semantic filesystem remembers about its package. -/
structure OntologyImpl where
  container : Bytes
  readOnly : Bool
deriving DecidableEq

namespace OntologyImpl

/-- The package a semantic filesystem can be opened on. -/
structure Opens (m : OntologyImpl) (db : ObjectTables) : Prop where
  schema : db.userVersion = 5
  container : db.containerKey = m.container

end OntologyImpl

/-- The key of the resource a value names. -/
def OntologyValue.target : OntologyValue → Option Bytes
  | .resource r => some r.node
  | _ => none

namespace Ontology

variable (L : JsonLibrary) (objects : ObjectTables) (g : GraphTables)

/-! ## Readers -/

def classExists (key : Bytes) : Fallible Unit := do
  bindTexts [key]
  failIf (key ≠ [] ∧ g.classes.find key = none) "ontology class not found"

/-- The parents of a class, in order. -/
def parentsOf (key : Bytes) : List Bytes :=
  Keyset.orderBy order ((g.parents.rows.filter fun p => p.child = key).map (·.parent))

def getClass (key : Bytes) : Option OntologyClass :=
  (g.classes.find key).map fun c => ⟨key, c.label, c.description, parentsOf g key⟩

def getProperty (key : Bytes) : Fallible (Option OntologyProperty) :=
  match g.properties.find key with
  | none => pure none
  | some row => some <$> decodeProperty L row.document

def resourceExists (r : OntologyResource) (live : Bool) : Fallible Unit := do
  let key ← nodeKey L r
  match r.kind with
  | .file =>
      failIf ((objects.objects.find r.key).all fun o => live && o.deleted)
        "ontology file is missing or deleted"
  | .entity => failIf (g.nodes.find key = none) "ontology entity not found"

def ensureResource (r : OntologyResource) : Fallible GraphTables := do
  resourceExists L objects g r true
  match r.kind with
  | .file => g.insertFileNode objects r.node r.key
  | .entity => pure g

/-- The edges from each class to its parents. -/
def parentEdges : List (Bytes × Bytes) := g.parents.rows.map fun p => (p.child, p.parent)

/-- The classes of a resource and what they inherit from. -/
def lineage (resource : Bytes) : List Bytes :=
  Reach.reach (parentEdges g)
    ((g.types.rows.filter fun t => t.resourceKey = resource).map (·.classKey))

def hasType (resource classKey : Bytes) : Bool := classKey = [] || classKey ∈ lineage g resource

/-! ## Checks -/

def conditionValid (c : OntologyCondition) : Fallible Unit := do
  let definition ← getProperty L g c.propertyKey
  let p ← orFail "ontology query property not found" definition
  match c.equals with
  | none => pure ()
  | some v => do
      failIf (v.kind ≠ p.kind) "ontology query value type mismatch"
      match v with
      | .resource r => resourceExists L objects g r false
      | _ => pure ()

def queryValid (query : OntologyQuery) : Fallible Unit := do
  let _ ← queryJson L query
  classExists g query.classKey
  query.conditions.forM (conditionValid L objects g)

/-- The edges of the statements of a property. -/
def statementEdges (predicate : Bytes) : List (Bytes × Bytes) :=
  g.statements.rows.filterMap fun s =>
    if s.predicate = predicate then s.objectKey.map fun k => (s.subject, k) else none

/-- How many statements a subject has of a property. -/
def statementCount (subject predicate : Bytes) : Nat :=
  (g.statements.rows.filter fun s => s.subject = subject ∧ s.predicate = predicate).length

def rangeValid (p : OntologyProperty) : OntologyValue → Fallible Unit
  | .resource r => do
      let key ← nodeKey L r
      failIf (hasType g key p.rangeClass = false) "ontology property range violation"
  | _ => pure ()

def acyclicValid (p : OntologyProperty) (s : StatementRow) (v : OntologyValue) :
    Fallible Unit :=
  if p.acyclic then do
    let target ← orFail "std::get: wrong index for variant" v.target
    failIf (s.subject ∈ Reach.reach (statementEdges g s.predicate) [target])
      "cyclic ontology relation"
  else pure ()

/-- The check of one statement. The maps the source keeps hold answers of this loop, so that it
reads each property, each type and each count once. -/
def statementValid (s : StatementRow) : Fallible Unit := do
  let definition ← getProperty L g s.predicate
  let p ← orFail "ontology property domain or value type violation" definition
  failIf (p.kind ≠ s.kind ∨ hasType g s.subject p.domainClass = false)
    "ontology property domain or value type violation"
  let v ← decodeValue L s.kind.code s.value
  rangeValid L g p v
  failIf (p.singleValue = true ∧ 1 < statementCount g s.subject s.predicate)
    "ontology single-value property violation"
  acyclicValid g p s v

/-- A statement a batch may have broken: it starts or ends at a changed node, or its property
was changed. -/
def touched (changedNodes changedProperties : List Bytes) (s : StatementRow) : Bool :=
  s.subject ∈ changedNodes || s.objectKey.any (· ∈ changedNodes)
    || s.predicate ∈ changedProperties

def validateStatements (all : Bool) (changedNodes changedProperties : List Bytes) :
    Fallible Unit :=
  (g.statements.rows.filter fun s => all || touched changedNodes changedProperties s).forM
    (statementValid L g)

/-- The check of one saved directory. -/
def directoryValid (d : DirectoryRow) : Fallible Unit := do
  let query ← directoryQuery L d.document
  queryValid L objects g query

/-- A directory whose query names a changed property. -/
def affected (changedProperties : List Bytes) (d : DirectoryRow) : Bool :=
  g.directoryProperties.rows.any fun p => p.path = d.path ∧ p.predicate ∈ changedProperties

def validateDirectories (changedProperties : List Bytes) : Fallible Unit :=
  (g.directories.rows.filter (affected g changedProperties)).forM (directoryValid L objects g)

end Ontology

end FileProvider
