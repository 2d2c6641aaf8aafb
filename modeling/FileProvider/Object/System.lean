import FileProvider.Library.Transition
import FileProvider.Object.Store

/-!
# Any number of stores on one package

A call of a store starts and finishes. When it starts it may look at the package outside a
transaction, so what it saw is kept with it; when it finishes its transaction runs on the
package as it is then. Between the two any other call may start or finish. A call that throws,
or whose transaction the database ends for a reason of its own, leaves the tables as they are.

Nothing is assumed of the order in which calls start and finish, nor of how many are under way. The
runs of this relation are what `Object.Reachable` is about.
-/

namespace FileProvider

/-- The writing calls of a store. -/
inductive Call where
  | beginSession (author : ObjectAuthor) (device description : Bytes)
      (context : ObjectSessionContext)
  | endSession (key : Bytes)
  | importFile (source : SourceFile) (path session : Bytes) (options : ObjectWriteOptions)
  | importFiles (files : List ObjectImport) (session : Bytes)
  | wrapRaw (source : Fallible CapturedSource) (path : Bytes) (metadata : RawMetadata)
      (session : Bytes) (options : ObjectWriteOptions)
  | importDocument (source : Fallible CapturedSource) (path : Bytes) (metadata : RawMetadata)
      (session : Bytes) (options : ObjectWriteOptions)
  | reviseFile (key : Bytes) (source : SourceFile) (expected : Nat) (session : Bytes)
      (options : ObjectWriteOptions)
  | reviseMetadata (key : Bytes) (metadata : FileMetadata) (expected : Nat) (session : Bytes)
  | move (key path : Bytes) (expected : Nat) (session : Bytes) (options : ObjectWriteOptions)
  | erase (key : Bytes) (expected : Nat) (session : Bytes)

/-- What a call returns. -/
inductive Response where
  | session (s : ObjectSession)
  | ended
  | records (records : List ObjectRecord)
  | document (d : ObjectDocument)
deriving DecidableEq

namespace Response

/-- The response of a call that publishes one record. -/
def ofRecord (result : ObjectRecord × ObjectTables) : Response × ObjectTables :=
  (.records [result.1], result.2)

end Response

namespace Call

open ObjectStore in
/-- The result of a call, which saw the package as `before` when it started, on the tables its
transaction finds. -/
def run (P : Platform) (m : Impl) (before db : ObjectTables) (draws : Draws) :
    Call → Fallible (Response × ObjectTables)
  | .beginSession author device description context =>
      (fun r => (.session r.1, r.2)) <$>
        ObjectStore.beginSession P m db author device description context draws
  | .endSession key => (fun r => (.ended, r)) <$> ObjectStore.endSession m db key draws
  | .importFile source path session options =>
      Response.ofRecord <$> ObjectStore.importFile P m db source path session options draws
  | .importFiles files session =>
      (fun r => (.records r.1, r.2)) <$> ObjectStore.importFiles P m db files session draws
  | .wrapRaw source path metadata session options =>
      Response.ofRecord <$>
        ObjectStore.wrapRaw P m before db source path metadata session options draws
  | .importDocument source path metadata session options =>
      (fun r => (.document r.1, r.2)) <$>
        ObjectStore.importDocument P m before db source path metadata session options draws
  | .reviseFile key source expected session options =>
      Response.ofRecord <$> ObjectStore.reviseFile P m db key source expected session options draws
  | .reviseMetadata key metadata expected session =>
      Response.ofRecord <$> ObjectStore.reviseMetadata P m db key metadata expected session draws
  | .move key path expected session options =>
      Response.ofRecord <$> ObjectStore.move P m db key path expected session options draws
  | .erase key expected session =>
      Response.ofRecord <$> ObjectStore.erase P m db key expected session draws

end Call

/-- A call that has started. -/
structure Started where
  store : Impl
  call : Call
  before : ObjectTables

/-- A package and the calls that have started on it. -/
structure Package where
  tables : ObjectTables
  started : List Started

namespace Package

/-- A freshly created package. -/
def fresh (container : Bytes) : Package := ⟨.fresh container, []⟩

/-- What a step shows to the outside. -/
inductive Event where
  | start (call : Call)
  | commit (call : Call) (response : Response)
  | fail (call : Call)

/-- One step of the stores on a package. -/
inductive Step (P : Platform) : Package → Event → Package → Prop where
  | start {db : ObjectTables} {waiting : List Started} (m : Impl) (call : Call) :
      m.Opens db.containerKey →
      Step P ⟨db, waiting⟩ (.start call) ⟨db, ⟨m, call, db⟩ :: waiting⟩
  | commit {db db' : ObjectTables} {l r : List Started} {c : Started} {draws : Draws}
      {response : Response} :
      c.call.run P c.store c.before db draws = .ok (response, db') →
      Step P ⟨db, l ++ c :: r⟩ (.commit c.call response) ⟨db', l ++ r⟩
  | fail {db : ObjectTables} {l r : List Started} (c : Started) :
      Step P ⟨db, l ++ c :: r⟩ (.fail c.call) ⟨db, l ++ r⟩

/-- A state the stores can bring a freshly created package to. -/
def Reachable (P : Platform) (container : Bytes) (σ : Package) : Prop :=
  ∃ events, Run (Step P) (fresh container) events σ

end Package

end FileProvider
