import FileProvider.Library.Bytes
import FileProvider.Library.Engine
import FileProvider.Library.Program

/-!
# Native databases

`native::sql`: a connection to an engine, its statements and its transactions. How each call of the
engine ends, it is given; the engine can end a transaction by itself when a call fails. An engine
numbers the transactions it begins; the source does not see these numbers.

How a call of the engine ends is data: it is done, it fails, or it fails and takes the transaction
back. The connection keeps what the source keeps, and its engine the number of the transaction that
is open in it.
-/

namespace FileProvider

open Bytes

namespace Sql

/-! ## Errors -/

inductive Code where
  | invalidInput | closed | busy | constraint | readOnly | limitExceeded | failure | conflict
deriving DecidableEq

structure Error where
  code : Code
  native : Nat
  message : String
deriving DecidableEq

/-- `invalid`. -/
def invalid (message : String) (code : Code := .invalidInput) : Error := ⟨code, 0, message⟩

/-- What the engine says about a call that failed, and what a write that failed has left of the
bytes it was to write. -/
structure Failure where
  result : Nat
  message : String
  left : Bytes

/-- `failure`. -/
def failure (f : Failure) : Error :=
  let code := match f.result % 256 with
    | 5 | 6 => Code.busy
    | 19 => .constraint
    | 8 => .readOnly
    | 18 | 7 => .limitExceeded
    | 25 => .invalidInput
    | _ => .failure
  ⟨code, f.result, f.message⟩

/-! ## Content -/

/-- Where a value stands that can be read and written in ranges. -/
structure BlobPlace where
  table : Bytes
  column : Bytes
  row : Int
deriving DecidableEq

/-- What a database holds: its values, and the rest. A value has fewer than 2 ^ 31 bytes. -/
structure Content (ρ : Type) where
  blobs : BlobPlace → Option Bytes
  rest : ρ
  bounded : ∀ place value, blobs place = some value → value.length < 2 ^ 31

/-- Bytes written over a value from an offset on. What would be past its end is left out. -/
def overwrite (value : Bytes) (offset : Nat) (bytes : Bytes) : Bytes :=
  value.mapIdx fun i b => if offset ≤ i then bytes.getD (i - offset) b else b

@[simp] theorem length_overwrite (value : Bytes) (offset : Nat) (bytes : Bytes) :
    (overwrite value offset bytes).length = value.length := List.length_mapIdx

/-- The content with a value written over. -/
def Content.write {ρ : Type} (w : Content ρ) (place : BlobPlace) (offset : Nat) (bytes : Bytes) :
    Content ρ where
  blobs p := if p = place then (w.blobs p).map fun v => overwrite v offset bytes else w.blobs p
  rest := w.rest
  bounded p value h := by
    split at h
    · obtain ⟨v, hv, rfl⟩ := Option.map_eq_some_iff.1 h
      rw [length_overwrite]
      exact w.bounded p v hv
    · exact w.bounded p value h

/-! ## Connections -/

/-- `Database::State`: a connection, which has no engine once it is closed. `limit` and `readOnly`
are what the engine was opened with. `wrapped` is not in the source: it says whether a computation
with sizes or offsets has wrapped. -/
structure Connection (ρ : Type) where
  handle : Option (Engine (Content ρ))
  serial : Nat
  transaction : Nat
  limit : Fin (2 ^ 31)
  readOnly : Bool
  wrapped : Bool

/-- A call of a connection. -/
abbrev Call (ρ β : Type) : Type := Program (Connection ρ) (Answer Failure) Error β

variable {ρ β : Type}

namespace Connection

/-- The connection with another state of its engine. -/
def withEngine (c : Connection ρ) (e : Engine (Content ρ)) : Connection ρ :=
  { c with handle := some e }

/-- `Database::in_transaction`. -/
def inTransaction (c : Connection ρ) : Bool := (c.handle.bind Engine.number).isSome

/-- `sqlite3_get_autocommit`. -/
def autocommit (c : Connection ρ) : Bool := !c.inTransaction

/-- `Database::State::invalidate`. -/
def invalidate (c : Connection ρ) : Connection ρ := { c with handle := none, transaction := 0 }

end Connection

/-- A call of the engine: what it gives and does when it is done, or why the engine refuses it. -/
def engine (f : Engine (Content ρ) → Except String (β × Engine (Content ρ))) : Call ρ β :=
  .call fun a c =>
    match c.handle, a with
    | none, _ => (.error ⟨.failure, 21, "bad parameter or other API misuse"⟩, c)
    | some e, .done =>
        match f e with
        | .ok (b, e) => (.ok b, c.withEngine e)
        | .error message => (.error ⟨.failure, 1, message⟩, c)
    | some _, .failed f => (.error (failure f), c)
    | some e, .aborted f => (.error (failure f), c.withEngine e.rollback)

/-- A change of the connection that calls nothing. -/
def set (f : Connection ρ → Connection ρ) : Call ρ Unit := Program.modify f

def requireOpen : Call ρ Unit := do
  Program.failIf ((← Program.state).handle.isNone = true) (invalid "Database is closed" .closed)

/-! ## Statements -/

/-- A statement: those that control transactions, those that change the content, and those that
give rows. -/
inductive Statement (ρ : Type) where
  | begin (writing : Bool)
  | commit
  | rollback
  | change (f : Content ρ → Content ρ)
  | query (rows : Nat)

/-- What the engine does with a statement. -/
def Statement.run (q : Statement ρ) (e : Engine (Content ρ)) :
    Except String (Unit × Engine (Content ρ)) :=
  match q with
  | .begin _ =>
      if e.number.isSome then .error "cannot start a transaction within a transaction"
      else .ok ((), e.begin)
  | .commit =>
      if e.number.isSome then .ok ((), e.commit)
      else .error "cannot commit - no transaction is active"
  | .rollback =>
      if e.number.isSome then .ok ((), e.rollback)
      else .error "cannot rollback - no transaction is active"
  | .change f => .ok ((), e.change f)
  | .query _ => .ok ((), e)

/-- `sqlite3_exec` of one statement. -/
def exec (q : Statement ρ) : Call ρ Unit := engine q.run

/-- `Statement::State::Position`. -/
inductive Position where
  | initial | row | done | failed
deriving DecidableEq

inductive Step where
  | row | done
deriving DecidableEq

/-- A statement that is prepared: its position, and the rows it has yet to give. -/
structure Prepared (ρ : Type) where
  statement : Statement ρ
  position : Position
  rows : Nat

/-- `Database::prepare` of a text that is one statement. The engine is asked twice, for what may
follow the statement the second time. -/
def prepare (q : Statement ρ) : Call ρ (Prepared ρ) := do
  requireOpen
  engine fun e => .ok ((), e)
  match ← Program.attempt (engine fun e => .ok ((), e)) with
  | .error _ => Program.fail (invalid "Only one SQL statement is admitted")
  | .ok () => pure ⟨q, .initial, match q with | .query rows => rows | _ => 0⟩

/-- `Statement::step`, which also gives the statement as it stands then. -/
def Prepared.step (q : Prepared ρ) : Call ρ (Except Error Step × Prepared ρ) := do
  if (← Program.state).handle.isNone = true then
    pure (.error (invalid "Statement is closed" .closed), q)
  else match q.position with
    | .done => pure (.ok .done, q)
    | .failed => pure (.error (invalid "Reset the failed statement before stepping"), q)
    | _ => do
        let result ← Program.attempt (exec q.statement)
        set fun c => if c.autocommit = true then { c with transaction := 0 } else c
        match result, q.rows with
        | .error e, _ => pure (.error e, { q with position := .failed })
        | .ok (), 0 => pure (.ok .done, { q with position := .done })
        | .ok (), rows + 1 => pure (.ok .row, { q with position := .row, rows })

/-- The loop of `Database::execute`. -/
def Prepared.finish : Nat → Prepared ρ → Call ρ Unit
  | 0, _ => pure ()
  | fuel + 1, q => do
      match ← q.step with
      | (.error e, _) => Program.fail e
      | (.ok .done, _) => pure ()
      | (.ok .row, q) => q.finish fuel

/-- `Database::execute`. A statement is done once it has given its rows. -/
def execute (q : Statement ρ) : Call ρ Unit := do
  let q ← prepare q
  q.finish (q.rows + 1)

/-! ## Transactions -/

/-- `Transaction`: it holds the state of the connection until it is moved from, or has ended.
`begun` is the number of the transaction it began, which is not in the source. -/
structure Transaction where
  held : Bool
  id : Nat
  begun : Nat
deriving DecidableEq

namespace Transaction

/-- A transaction that holds nothing any more. -/
def drop (t : Transaction) : Transaction := { t with held := false }

/-- `Transaction::begin`. -/
def begin (writing : Bool) : Call ρ Transaction := do
  execute (.begin writing)
  set fun c => { c with serial := (c.serial + 1) % 2 ^ 64, transaction := (c.serial + 1) % 2 ^ 64 }
  let c ← Program.state
  pure ⟨true, c.transaction, (c.handle.bind Engine.number).getD 0⟩

/-- The check that `commit`, `rollback` and the destructor make. -/
def active (t : Transaction) (c : Connection ρ) : Bool := t.held && c.transaction = t.id

/-- `commit` and `rollback`. A transaction that fails to end keeps the state. -/
def finish (t : Transaction) (q : Statement ρ) : Call ρ Transaction := do
  Program.failIf (t.active (← Program.state) = false)
    (invalid "Transaction is no longer active")
  exec q
  set fun c => { c with transaction := 0 }
  pure t.drop

/-- `Transaction::commit`. -/
def commit (t : Transaction) : Call ρ Transaction := t.finish .commit

/-- `Transaction::rollback`. -/
def rollback (t : Transaction) : Call ρ Transaction := t.finish .rollback

/-- `Transaction::~Transaction`, and what a move assignment does first. -/
def destroy (t : Transaction) : Call ρ Unit := do
  if t.active (← Program.state) = true then do
    let _ ← Program.attempt t.rollback
    pure ()
  else pure ()

end Transaction

end Sql

end FileProvider
