import FileProvider.Object.Store
import FileProvider.Ontology.Impl

/-!
# Applying a batch

`OntologyFileSystem::apply`. A batch runs its changes one after the other on the graph, each
against what the ones before it left; a change that alters something appends one event to the
journal. At the end the statements and directories the batch may have broken are checked, and
the batch is committed under the next revision.

A change that fails makes the whole batch fail, so a batch is a fold over its changes. What a change
alters is collected for the check at the end: the nodes, the properties, and whether the hierarchy
of classes is another.
-/

namespace FileProvider

open Bytes Fallible

/-- The state of a batch: the graph and the journal as the changes so far left them, and what
the check at the end has to look at. -/
structure Batch where
  graph : GraphTables
  journal : Table JournalRow.sequence
  journalSequence : Nat
  changedNodes : List Bytes
  changedProperties : List Bytes
  hierarchyChanged : Bool
  journalBytes : Nat
  events : Nat

namespace Batch

/-- The batch before its first change. -/
def start (o : OntologyTables) : Batch where
  graph := o.graph
  journal := o.journal
  journalSequence := o.journalSequence
  changedNodes := []
  changedProperties := []
  hierarchyChanged := false
  journalBytes := 0
  events := 0

end Batch

namespace OntologyFileSystem

open Ontology

/-- `OntologyFileSystem::maximumBatchChanges`. -/
def maximumBatchChanges : Nat := 256

/-- `OntologyFileSystem::maximumBatchJournalBytes`. -/
def maximumBatchJournalBytes : Nat := 4 * 1024 * 1024

variable (L : JsonLibrary) (objects : ObjectTables) (next : Nat)

/-- An event of the journal. One that changes nothing is left out. -/
def event (b : Batch) (operation subject before after : Bytes) : Fallible Batch :=
  if before = after then pure b else do
    let journalBytes := b.journalBytes + before.length + after.length
    failIf (maximumBatchJournalBytes < journalBytes) "ontology batch journal exceeds 4 MiB"
    bindTexts [operation, subject, before, after]
    failIf (int64Max ≤ b.journalSequence) "database or disk is full"
    let journal ← orFail "UNIQUE constraint failed: ontology_journal.sequence"
      (b.journal.insert ⟨b.journalSequence + 1, next, operation, subject, before, after⟩)
    pure { b with
      journal
      journalSequence := b.journalSequence + 1
      journalBytes
      events := b.events + 1 }

/-! ## The changes -/

/-- The text of the document of a class, if there is one. -/
def classText : Option OntologyClass → Fallible Bytes
  | none => pure []
  | some c => do
      let j ← classJson L c
      L.dump j

/-- Whether a class is new or gets other parents. The documents list them in order. -/
def reparented (old : Option OntologyClass) (c : OntologyClass) : Bool :=
  old.all fun o => Keyset.orderBy order o.parents ≠ Keyset.orderBy order c.parents

/-- The parents of a class, written anew, and the check that none inherits from the class. -/
def setParents (g : GraphTables) (old : Option OntologyClass) (c : OntologyClass) :
    Fallible GraphTables :=
  if reparented old c then do
    let cleared ← g.removeParents c.key
    let g ← c.parents.foldlM (fun g p => g.insertParent ⟨c.key, p⟩) cleared
    failIf (c.key ∈ Reach.reach (parentEdges g) (parentsOf g c.key))
      "cyclic ontology class hierarchy"
    pure g
  else pure g

def applyClass (b : Batch) (c : OntologyClass) : Fallible Batch := do
  let j ← classJson L c
  let old := getClass b.graph c.key
  let before ← classText L old
  let after ← L.dump j
  if before = after then pure b else do
    c.parents.forM (classExists b.graph)
    let written ← b.graph.upsertClass ⟨c.key, c.label, c.description⟩
    let graph ← setParents written old c
    let hierarchyChanged := b.hierarchyChanged || (reparented old c && old.isSome)
    event next { b with graph, hierarchyChanged } (ascii "class") c.key before after

/-- The text of the document of a property, if there is one. -/
def propertyText : Option OntologyProperty → Fallible Bytes
  | none => pure []
  | some p => do
      let j ← propertyJson L p
      L.dump j

def applyProperty (b : Batch) (p : OntologyProperty) : Fallible Batch := do
  let j ← propertyJson L p
  let after ← L.dump j
  classExists b.graph p.domainClass
  classExists b.graph p.rangeClass
  let old ← getProperty L b.graph p.key
  let before ← propertyText L old
  if before = after then pure b else do
    let graph ← b.graph.upsertProperty ⟨p.key, after⟩
    let changedProperties := p.key :: b.changedProperties
    event next { b with graph, changedProperties } (ascii "property") p.key before after

def applyEntity (b : Batch) (e : OntologyEntity) : Fallible Batch := do
  text L e.key 1024 true
  text L e.label 4096 false
  text L e.description 16384 false
  let key ← nodeKey L ⟨.entity, e.key⟩
  let after ← L.dump (entityJson e)
  let before := ((b.graph.nodes.find key).map (·.document)).getD []
  if before = after then pure b else do
    let graph ← b.graph.upsertNode key after
    event next { b with graph } (ascii "entity") key before after

/-- The end of a change that a statement made: an event and the changed nodes, if the statement
changed a row. -/
def recorded (b : Batch) (w : Written) (operation subject : Bytes) (present : Bool)
    (document : Fallible Bytes) (nodes : List Bytes) : Fallible Batch :=
  if w.changed then do
    let document ← document
    let b ← event next { b with graph := w.graph } operation subject
      (if present then [] else document) (if present then document else [])
    pure { b with changedNodes := nodes ++ b.changedNodes }
  else pure { b with graph := w.graph }

/-- The resource of a change: one that is stated must be there, and one that is retracted may
be deleted. -/
def touchResource (g : GraphTables) (r : OntologyResource) (present : Bool) :
    Fallible GraphTables :=
  if present then ensureResource L objects g r
  else do
    resourceExists L objects g r false
    pure g

/-- The statement of a type assignment. -/
def writeType (g : GraphTables) (row : TypeRow) (present : Bool) : Fallible Written :=
  if present then g.insertType row else g.removeType row

def applyType (b : Batch) (t : OntologyTypeAssignment) : Fallible Batch := do
  classExists b.graph t.classKey
  text L t.classKey 1024 true
  let graph ← touchResource L objects b.graph t.resource t.present
  let key ← nodeKey L t.resource
  let w ← writeType graph ⟨key, t.classKey⟩ t.present
  recorded next b w (ascii "type") key t.present (L.dump (typeJson t.classKey)) [key]

/-- The target of an assertion. -/
def touchTarget (g : GraphTables) (v : OntologyValue) (present : Bool) : Fallible GraphTables :=
  match v with
  | .resource r => touchResource L objects g r present
  | _ => pure g

/-- The statement of an assertion. -/
def writeStatement (g : GraphTables) (subject predicate : Bytes) (kind : OntologyValueKind)
    (value object : Bytes) (present : Bool) : Fallible Written :=
  if present then g.insertStatement subject predicate kind value object
  else g.removeStatement subject predicate kind value

def applyAssertion (b : Batch) (a : OntologyAssertion) : Fallible Batch := do
  text L a.propertyKey 1024 true
  let definition ← getProperty L b.graph a.propertyKey
  let p ← orFail "ontology assertion type mismatch" definition
  failIf (a.present = true ∧ p.kind ≠ a.value.kind) "ontology assertion type mismatch"
  let graph ← touchResource L objects b.graph a.subject a.present
  let subject ← nodeKey L a.subject
  let j ← valueJson L a.value
  let value ← L.dump j
  let graph ← touchTarget L objects graph a.value a.present
  let object := a.value.target.getD []
  let w ← writeStatement graph subject a.propertyKey a.value.kind value object a.present
  recorded next b w (ascii "statement") subject a.present
    (L.dump (statementJson a.propertyKey a.value.kind j)) (a.value.target.toList ++ [subject])

def applyDirectory (b : Batch) (d : OntologyDirectory) : Fallible Batch := do
  directoryPath L d.path
  text L d.label 4096 false
  queryValid L objects b.graph d.query
  let query ← queryJson L d.query
  let after ← L.dump (directoryJson d.label query)
  let before := ((b.graph.directories.find d.path).map (·.document)).getD []
  if before = after then pure b else do
    let written ← b.graph.upsertDirectory ⟨d.path, after⟩
    let b ← event next { b with graph := written } (ascii "directory") d.path before after
    let cleared ← b.graph.removeDirectoryProperties d.path
    let graph ← d.query.conditions.foldlM
      (fun g c => g.insertDirectoryProperty ⟨d.path, c.propertyKey⟩) cleared
    pure { b with graph }

def applyRemoveDirectory (b : Batch) (path : Bytes) : Fallible Batch := do
  directoryPath L path
  match b.graph.directories.find path with
  | none => pure b
  | some d => do
      let graph ← b.graph.removeDirectory path
      event next { b with graph } (ascii "directory") path d.document []

/-- One change of a batch. -/
def applyChange (b : Batch) : OntologyChange → Fallible Batch
  | .ontologyClass c => applyClass L next b c
  | .ontologyProperty p => applyProperty L next b p
  | .ontologyEntity e => applyEntity L next b e
  | .typeAssignment t => applyType L objects next b t
  | .assertion a => applyAssertion L objects next b a
  | .directory d => applyDirectory L objects next b d
  | .removeDirectory path => applyRemoveDirectory L next b path

/-! ## The batch -/

/-- The changes of a batch, each after a poll of the stop token. -/
def applyChanges (token : StopToken) : List OntologyChange → Nat → Batch → Fallible Batch
  | [], _, b => pure b
  | change :: changes, polls, b => do
      failIf (token polls = true) "ontology operation cancelled"
      let b ← applyChange L objects next b change
      applyChanges token changes (polls + 1) b

/-- The check at the end of a batch. -/
def validateBatch (b : Batch) : Fallible Unit := do
  validateStatements L b.graph b.hierarchyChanged b.changedNodes b.changedProperties
  validateDirectories L objects b.graph b.changedProperties

/-- Whether a session is there and has not ended. -/
def activeSession (session : Bytes) : Bool :=
  (objects.sessions.find session).any fun s => s.ended = 0

/-- The end of a batch: one without events leaves the revision as it is. -/
def commit (o : OntologyTables) (b : Batch) (session : Bytes) (now : Int) (cancelled : Bool) :
    Fallible (Nat × OntologyTables) :=
  let written := { o with
    graph := b.graph, journal := b.journal, journalSequence := b.journalSequence }
  if b.events = 0 then do
    failIf (cancelled = true) "ontology operation cancelled"
    pure (o.revision, written)
  else do
    validateBatch L objects b
    let o ← written.insertCommit objects ⟨next, session, now⟩
    failIf (cancelled = true) "ontology operation cancelled"
    pure (next, { o with revision := next })

def apply (m : OntologyImpl) (o : OntologyTables) (changes : List OntologyChange)
    (expected : Nat) (session : Bytes) (cancellation : StopToken) (now : Int) :
    Fallible (Nat × OntologyTables) := do
  failIf (cancellation 0 = true) "ontology operation cancelled"
  failIf (changes = [] ∨ maximumBatchChanges < changes.length)
    "ontology batch must contain 1 to 256 changes"
  text L session 1024 true
  failIf (m.readOnly = true) "read-only ontology"
  failIf (cancellation 1 = true) "ontology operation cancelled"
  failIf (expected ≠ o.revision ∨ int64Max ≤ expected) "ontology revision conflict"
  failIf (activeSession objects session = false) "ontology requires an active work session"
  let b ← applyChanges L objects (o.revision + 1) cancellation changes 2 (.start o)
  commit L objects (o.revision + 1) o b session now (cancellation (changes.length + 2))

end OntologyFileSystem

end FileProvider
