import Mathlib.Logic.Basic

/-!
# Transactional engines

An engine shows one content, and can take it back to where its transaction began. Transactions are
numbered as they begin. A savepoint inside a transaction is a content to come back to without an end
of the transaction. A call is answered: it is done, or fails, or fails and takes the whole
transaction back.

An engine says nothing about what its content is: the operations of a database are functions on the
content, and `change` makes one of them a step inside the open transaction. Numbers are given to
transactions in their order and never twice, which is how two of them are told apart.
-/

/-- How a call of an engine ends. -/
inductive Answer (ε : Type) where
  | done
  | failed (e : ε)
  | aborted (e : ε)

instance {ε : Type} : Inhabited (Answer ε) := ⟨.done⟩

/-- An engine with its content, its open transaction, its savepoint, and the number of transactions
it has begun. The open transaction has its number and the content it began with. -/
structure Engine (ω : Type) where
  content : ω
  opened : Option (Nat × ω)
  savepoint : Option ω
  count : Nat

namespace Engine

variable {ω : Type}

/-- The number of the open transaction. -/
def number (e : Engine ω) : Option Nat := e.opened.map (·.1)

/-- A change of the content. -/
def change (e : Engine ω) (f : ω → ω) : Engine ω := { e with content := f e.content }

def begin (e : Engine ω) : Engine ω :=
  { e with opened := some (e.count, e.content), count := e.count + 1 }

def commit (e : Engine ω) : Engine ω := { e with opened := none, savepoint := none }

/-- The whole transaction taken back. -/
def rollback (e : Engine ω) : Engine ω :=
  { e with content := (e.opened.map (·.2)).getD e.content, opened := none, savepoint := none }

def mark (e : Engine ω) : Engine ω := { e with savepoint := some e.content }

def rollbackTo (e : Engine ω) : Engine ω :=
  { e with content := e.savepoint.getD e.content }

def release (e : Engine ω) : Engine ω := { e with savepoint := none }

@[simp] theorem number_change (e : Engine ω) (f : ω → ω) : (e.change f).number = e.number := rfl

@[simp] theorem number_begin (e : Engine ω) : e.begin.number = some e.count := rfl

@[simp] theorem number_commit (e : Engine ω) : e.commit.number = none := rfl

@[simp] theorem number_rollback (e : Engine ω) : e.rollback.number = none := rfl

@[simp] theorem number_mark (e : Engine ω) : e.mark.number = e.number := rfl

@[simp] theorem number_rollbackTo (e : Engine ω) : e.rollbackTo.number = e.number := rfl

@[simp] theorem number_release (e : Engine ω) : e.release.number = e.number := rfl

end Engine
