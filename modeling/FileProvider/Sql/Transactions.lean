import FileProvider.Sql.Ownership
import Mathlib.Data.List.Induction

/-!
# Transactions of a connection

A program has a connection and transactions in slots of its own, and does one operation after
another. In a run in which no operation overlooks that the engine ended the transaction, a
transaction never ends one that another has begun, and does nothing once its own has ended.

What an operation overlooks is a condition on the answers of the engine in that operation and on the
state before it. The invariant relates the slots of a program to the transactions of the engine, and
is kept by each operation that overlooks nothing.
-/

namespace FileProvider

namespace Sql

open Program

variable {ρ β : Type} {c c' : Connection ρ} {l : List (Answer Failure)}

/-! ## Operations -/

/-- A connection and the transactions that are there. -/
structure Session (ρ : Type) where
  connection : Connection ρ
  transactions : Nat → Option Transaction

/-- One operation on a connection. Transactions are named by the slots they are in. -/
inductive Operation (ρ : Type) where
  | begin (slot : Nat) (writing : Bool)
  | commit (slot : Nat)
  | rollback (slot : Nat)
  | destroy (slot : Nat)
  | moveConstruct (source slot : Nat)
  | moveAssign (source slot : Nat)
  | prepare (q : Statement ρ)
  | step (q : Prepared ρ)
  | patchBlob (place : BlobPlace) (replacement : Bytes)
  | compareExchange (S : RangeSort) (place : BlobPlace) (ranges : List BlobRangePatch)

namespace Session

/-- A session over a connection that is new: nothing has begun. -/
def fresh (content : Content ρ) (limit : Fin (2 ^ 31)) (readOnly : Bool) : Session ρ :=
  ⟨⟨some ⟨content, none, none, 0⟩, 0, 0, limit, readOnly, false⟩, fun _ => none⟩

/-- The session with a slot written. -/
def put (s : Session ρ) (slot : Nat) (t : Option Transaction) : Session ρ :=
  { s with transactions := fun k => if k = slot then t else s.transactions k }

/-- The session with its connection written. -/
def withConnection (s : Session ρ) (c : Connection ρ) : Session ρ := { s with connection := c }

/-- The session after a call that is not about a transaction. -/
def after (s : Session ρ) (p : Call ρ β) (l : List (Answer Failure)) : Session ρ :=
  s.withConnection (p s.connection l).2.1

/-- The session after the end of the transaction in a slot: one that fails to end stays. -/
def finish (s : Session ρ) (slot : Nat) (t : Transaction) (q : Statement ρ)
    (l : List (Answer Failure)) : Session ρ :=
  (s.after (t.finish q) l).put slot (some (match (t.finish q s.connection l).1 with
    | .ok t => t
    | .error _ => t))

/-- One operation. A slot that is not as the operation needs it leaves everything as it is. -/
def perform (s : Session ρ) (o : Operation ρ) (l : List (Answer Failure)) : Session ρ :=
  match o with
  | .begin slot writing =>
      if (s.transactions slot).isSome then s
      else match Transaction.begin writing s.connection l with
        | (.ok t, c, _) => (s.withConnection c).put slot (some t)
        | (.error _, c, _) => s.withConnection c
  | .commit slot =>
      match s.transactions slot with
      | none => s
      | some t => s.finish slot t .commit l
  | .rollback slot =>
      match s.transactions slot with
      | none => s
      | some t => s.finish slot t .rollback l
  | .destroy slot =>
      match s.transactions slot with
      | none => s
      | some t => (s.after t.destroy l).put slot none
  | .moveConstruct source slot =>
      match s.transactions source, s.transactions slot with
      | some t, none => (s.put slot (some t)).put source (some t.drop)
      | _, _ => s
  | .moveAssign source slot =>
      match s.transactions source, s.transactions slot with
      | some t, some old =>
          if source = slot then s
          else ((s.after old.destroy l).put slot (some t)).put source (some t.drop)
      | _, _ => s
  | .prepare q => s.after (Sql.prepare q) l
  | .step q => s.after q.step l
  | .patchBlob place replacement => s.after (Sql.patchBlob place replacement) l
  | .compareExchange S place ranges => s.after (compareExchangeBlobRanges S place ranges) l

/-- Operations one after another, each with the answers it is given. -/
def performAll (s : Session ρ) (events : List (Operation ρ × List (Answer Failure))) : Session ρ :=
  events.foldl (fun s e => s.perform e.1 e.2) s

end Session

/-! ## What is overlooked -/

/-- A call fails, and the engine ends the open transaction with it. -/
def Loses (p : Call ρ β) (c : Connection ρ) (l : List (Answer Failure)) : Prop :=
  (p c l).1.isOk = false ∧ c.number ≠ none ∧ (p c l).2.1.number = none

/-- The engine ends the open transaction in a call that the operation does not look at the
transaction after. -/
def Overlooks (s : Session ρ) (l : List (Answer Failure)) : Operation ρ → Prop
  | .begin slot writing =>
      s.transactions slot = none ∧ Loses (prepare (.begin writing)) s.connection l
  | .commit slot => ∃ t, s.transactions slot = some t ∧ t.active s.connection = true ∧
      Loses (exec .commit) s.connection l
  | .rollback slot => ∃ t, s.transactions slot = some t ∧ t.active s.connection = true ∧
      Loses (exec .rollback) s.connection l
  | .prepare q => Loses (prepare q) s.connection l
  | .patchBlob place replacement => Loses (patchBlob place replacement) s.connection l
  | .compareExchange S place ranges => Loses (beginExchange S place ranges) s.connection l
  | _ => False

/-- A transaction that the connection takes for the owner of the open one. -/
def Watched (s : Session ρ) : Prop :=
  ∃ slot t, s.transactions slot = some t ∧ t.active s.connection = true

/-- An operation overlooks the end of a transaction whose owner is still there. -/
def Forgets (s : Session ρ) (e : Operation ρ × List (Answer Failure)) : Prop :=
  Watched s ∧ Overlooks s e.2 e.1

/-! ## What is to hold -/

/-- A call ends no other transaction than one. -/
def EndsOnly (begun : Nat) (p : Call ρ β) (c : Connection ρ) : Prop :=
  ∀ l, (p c l).2.1.number = c.number ∨ c.number = some begun

/-- What can be relied on of a transaction: it ends its own transaction at most, and once that has
ended it reports so and calls nothing. -/
structure Owns (c : Connection ρ) (t : Transaction) : Prop where
  commit : EndsOnly t.begun t.commit c
  rollback : EndsOnly t.begun t.rollback c
  destroy : EndsOnly t.begun t.destroy c
  ended : c.number ≠ some t.begun → ∀ l,
    t.commit c l = (.error (invalid "Transaction is no longer active"), c, l) ∧
      t.rollback c l = (.error (invalid "Transaction is no longer active"), c, l) ∧
      t.destroy c l = (.ok (), c, l)

/-- What can be relied on of every transaction of a session. -/
def Guarded (s : Session ρ) : Prop :=
  ∀ slot t, s.transactions slot = some t → Owns s.connection t

/-! ## Statements -/

/-- The connection gives its number up, or it has kept its transaction. -/
structure Notices (c c' : Connection ρ) : Prop where
  serial : c'.serial = c.serial
  kept : c'.transaction = 0 ∨
    c'.transaction = c.transaction ∧ (c'.number = c.number ∨ c.number = none)

/-- A connection that stands still has noticed every transaction. -/
theorem Still.notices (h : Still c c') : Notices c c' :=
  ⟨h.serial, .inr ⟨h.transaction, .inl h.number⟩⟩

instance : IsPreorder (Connection ρ) Notices where
  refl c := (Still.refl c).notices
  trans _ _ _ h h' := by
    refine ⟨h'.serial.trans h.serial, ?_⟩
    rcases h'.kept with hzero | ⟨htransaction', hnumber'⟩
    · exact .inl hzero
    · rcases h.kept with hzero | ⟨htransaction, hnumber⟩
      · exact .inl (htransaction'.trans hzero)
      · refine .inr ⟨htransaction'.trans htransaction, ?_⟩
        rcases hnumber with hsame | hnone
        · rcases hnumber' with hsame' | hnone'
          · exact .inl (hsame'.trans hsame)
          · exact .inr (hsame ▸ hnone')
        · exact .inr hnone

/-- A statement leaves the numbers of the connection, and an open transaction can only end. The
engine changes what is stored and the number of the transaction, and a failure of it may end the
transaction. -/
theorem exec_meets (q : Statement ρ) (c : Connection ρ) :
    Meets (fun _ => True) (exec q) c fun _ c' => c'.transaction = c.transaction ∧
      c'.serial = c.serial ∧ (c.number ≠ none → c'.number = c.number ∨ c'.number = none) := by
  unfold exec engine
  refine .call trivial fun a _ => ?_
  cases hhandle : c.handle with
  | none => exact ⟨rfl, rfl, fun _ => .inl rfl⟩
  | some e =>
      cases a with
      | done =>
          dsimp only
          cases hresult : q.run e with
          | ok result =>
              refine ⟨rfl, rfl, fun hopen => ?_⟩
              have hsome : c.number = e.number := by
                unfold Connection.number
                rw [hhandle]
                rfl
              rw [hsome] at hopen ⊢
              show result.2.number = e.number ∨ result.2.number = none
              cases q with
              | begin writing =>
                  have hisSome : e.number.isSome = true := Option.isSome_iff_ne_none.2 hopen
                  simp only [Statement.run, if_pos hisSome] at hresult
                  cases hresult
              | commit =>
                  simp only [Statement.run] at hresult
                  split at hresult
                  · cases hresult
                    exact .inr rfl
                  · cases hresult
              | rollback =>
                  simp only [Statement.run] at hresult
                  split at hresult
                  · cases hresult
                    exact .inr rfl
                  · cases hresult
              | change f =>
                  cases hresult
                  exact .inl rfl
              | query rows =>
                  cases hresult
                  exact .inl rfl
          | error => exact ⟨rfl, rfl, fun _ => .inl rfl⟩
      | failed => exact ⟨rfl, rfl, fun _ => .inl rfl⟩
      | aborted => exact ⟨rfl, rfl, fun _ => .inr rfl⟩

/-- A statement that is run, and a transaction that has ended noted, keep what is watched, when
what comes behind them changes nothing. -/
theorem exec_notices {β : Type} (q : Prepared ρ) {f : Except Error Unit → Call ρ β}
    (hf : ∀ result c, Meets (fun _ => True) (f result) c fun _ c' => c' = c) :
    Keeps Notices Notices (do
      let result ← Program.attempt (exec q.statement)
      set fun c => if c.autocommit = true then { c with transaction := 0 } else c
      f result) := by
  intro c
  refine .bind (.attempt ((exec_meets q.statement c).imp fun r c' h => ?_))
  obtain ⟨htransaction, hserial, hnumber⟩ := h
  refine ⟨fun result _ => .bind (.modify ⟨fun _ _ => ?_, nofun⟩), nofun⟩
  have hnotices :
      Notices c (if c'.autocommit = true then { c' with transaction := 0 } else c') := by
    split
    · exact ⟨hserial, .inl rfl⟩
    · next hopen =>
        refine ⟨hserial, .inr ⟨htransaction, ?_⟩⟩
        rw [autocommit_eq_true] at hopen
        by_cases hbefore : c.number = none
        · exact .inr hbefore
        · exact .inl ((hnumber hbefore).resolve_right hopen)
  refine (hf result _).imp fun r c'' hsame => ?_
  subst hsame
  exact ⟨hnotices, fun _ _ => hnotices⟩

/-- A step of a statement notices the transaction it begins or ends. -/
theorem step_notices (q : Prepared ρ) : Keeps Notices Notices q.step := by
  refine .bind .state fun c => ?_
  split
  · exact .pure _
  · cases hposition : q.position with
    | initial | row =>
        refine exec_notices q fun result c => ?_
        cases result with
        | error => exact .pure rfl
        | ok =>
            cases q.rows with
            | zero => exact .pure rfl
            | succ => exact .pure rfl
    | done => exact .pure _
    | failed => exact .pure _

/-- Running a statement to its end notices it too, by induction on the steps. -/
theorem finish_notices (fuel : Nat) (q : Prepared ρ) : Keeps Notices Notices (q.finish fuel) := by
  induction fuel generalizing q with
  | zero => exact .pure _
  | succ fuel ih =>
      refine .bind (step_notices q) fun result => ?_
      obtain ⟨result, q'⟩ := result
      cases result with
      | error => exact .fail _
      | ok s =>
          cases s with
          | row => exact ih q'
          | done => exact .pure _

/-! ## The savepoint of a blob -/

/-- Rolling everything back clears the mark of the transaction and keeps the serial. -/
theorem rollbackAll_meets (c : Connection ρ) :
    Meets (fun _ => True) BlobSavepoint.rollbackAll c fun _ c' =>
      c'.serial = c.serial ∧ c'.transaction = 0 := by
  refine .bind (.attempt ((exec_meets .rollback c).imp fun r c₁ h => ⟨fun result _ => ?_, nofun⟩))
  refine .bind (.state ⟨fun c₂ hc₂ => ?_, nofun⟩)
  obtain rfl := Except.ok.inj hc₂
  split
  · exact .bind (.modify ⟨fun _ _ => .pure ⟨h.2.1, rfl⟩, nofun⟩)
  · exact .bind (.modify ⟨fun _ _ => .pure ⟨h.2.1, rfl⟩, nofun⟩)

/-- Undoing the savepoint begins and ends no transaction. -/
theorem undo_quiet : Keeps Still Quiet (do BlobSavepoint.rollbackTo; BlobSavepoint.release :
    Call ρ Unit) := by
  refine .bind (engine_quiet fun e b e' h => ?_) fun _ => engine_quiet fun e b e' h => ?_
  · split at h
    · cases h
      rfl
    · cases h
  · split at h
    · cases h
      rfl
    · cases h

/-- A rollback to the savepoint leaves the transaction, or the connection gives its number up. -/
theorem rollback_meets (c : Connection ρ) :
    Meets (fun _ => True) BlobSavepoint.rollback c fun _ c' => c'.serial = c.serial ∧
      (c'.transaction = 0 ∨ c.number ≠ none ∧ Still c c') := by
  refine .bind (.state ⟨fun c₀ hc₀ => ?_, nofun⟩)
  obtain rfl := Except.ok.inj hc₀
  split
  · exact .bind (.modify ⟨fun _ _ => .pure ⟨rfl, .inl rfl⟩, nofun⟩)
  · next hopen =>
      rw [autocommit_eq_true] at hopen
      refine .bind ((attempt_meets undo_quiet c).imp fun r c₁ h => ⟨fun undone hundone => ?_, ?_⟩)
      · obtain ⟨result, rfl, hquiet, hstill⟩ := h
        obtain rfl := Except.ok.inj hundone
        split
        · next hok => exact .pure ⟨hquiet.serial, .inr ⟨hopen, hstill hok⟩⟩
        · refine (rollbackAll_meets c₁).imp fun _ c₂ hall => ?_
          exact ⟨hall.1.trans hquiet.serial, .inl hall.2⟩
      · obtain ⟨result, rfl, -⟩ := h
        nofun

/-- After a step that can have ended the transaction, a rollback to the savepoint notices. -/
theorem rollback_notices (h : Quiet c c') :
    Meets (fun _ => True) BlobSavepoint.rollback c' fun _ c'' => Notices c c'' := by
  refine (rollback_meets c').imp fun _ c'' hend => ⟨hend.1.trans h.serial, ?_⟩
  rcases hend.2 with hzero | ⟨hopen, hstill⟩
  · exact .inl hzero
  · refine .inr ⟨hstill.transaction.trans h.transaction, .inl ?_⟩
    exact hstill.number.trans (h.number.resolve_right hopen)

/-- Releasing the savepoint begins and ends no transaction. -/
theorem release_quiet : Keeps Still Quiet (BlobSavepoint.release : Call ρ Unit) := by
  refine engine_quiet fun e b e' h => ?_
  split at h
  · cases h
    rfl
  · cases h

/-- The exchange of ranges notices the transaction it may have to roll back. The writes and the
release are quiet, and after an error the rollback looks at what is left. -/
theorem exchange_notices (place : BlobPlace) (ordered : List BlobRangePatch) :
    Keeps Notices Notices (exchange place ordered : Call ρ Nat) := by
  intro c
  refine .bind ((attempt_meets (writeRanges_quiet place ordered) c).imp
    fun r c₁ h => ⟨fun write hwrite => ?_, ?_⟩)
  · obtain ⟨result, rfl, hquiet, hstill⟩ := h
    obtain rfl := Except.ok.inj hwrite
    cases result with
    | error e =>
        refine .bind ((rollback_notices hquiet).imp fun r c₂ hend => ⟨fun undone _ => ?_, ?_⟩)
        · exact .fail ⟨hend, nofun⟩
        · exact fun _ _ => ⟨hend, nofun⟩
    | ok written =>
        refine .bind ((attempt_meets release_quiet c₁).imp
          fun r c₂ h => ⟨fun released hreleased => ?_, ?_⟩)
        · obtain ⟨result, rfl, hquiet', hstill'⟩ := h
          obtain rfl := Except.ok.inj hreleased
          cases result with
          | error e =>
              have hboth : Quiet c c₂ := trans_of Quiet hquiet hquiet'
              refine .bind ((rollback_notices hboth).imp fun r c₃ hend => ⟨fun _ _ => ?_, ?_⟩)
              · exact .fail ⟨hend, nofun⟩
              · exact fun _ _ => ⟨hend, nofun⟩
          | ok =>
              have hnotices := (trans_of Still (hstill rfl) (hstill' rfl)).notices
              exact .pure ⟨hnotices, fun _ _ => hnotices⟩
        · obtain ⟨result, rfl, -⟩ := h
          nofun
  · obtain ⟨result, rfl, -⟩ := h
    nofun

/-! ## Ends of transactions -/

/-- A transaction that is not the one of the connection calls nothing. -/
theorem finish_inactive {t : Transaction} (h : t.active c = false) (q : Statement ρ)
    (l : List (Answer Failure)) :
    t.finish q c l = (.error (invalid "Transaction is no longer active"), c, l) := by
  show (failIf (t.active c = false) _ >>= _ : Call ρ Transaction) c l = _
  unfold failIf
  rw [if_pos h]
  rfl

/-- A transaction of the connection is ended by the engine, or it stays. -/
theorem finish_active {t : Transaction} (h : t.active c = true) (q : Statement ρ)
    (l : List (Answer Failure)) : t.finish q c l = match exec q c l with
      | (.ok _, c', l') => (.ok t.drop, { c' with transaction := 0 }, l')
      | (.error e, c', l') => (.error e, c', l') := by
  have hfinish : t.finish q c l = (exec q >>= fun _ => (do
      set fun c => { c with transaction := 0 }
      pure t.drop : Call ρ Transaction)) c l := by
    show (failIf (t.active c = false) _ >>= _ : Call ρ Transaction) c l = _
    unfold failIf
    rw [if_neg (by simp [h])]
    rfl
  rw [hfinish, bind_run]
  generalize exec q c l = ended
  obtain ⟨r, c', l'⟩ := ended
  cases r with
  | ok => rfl
  | error => rfl

/-- The destructor of a transaction that is not active does nothing. -/
theorem destroy_inactive {t : Transaction} (h : t.active c = false) (l : List (Answer Failure)) :
    t.destroy c l = (.ok (), c, l) := by
  show (if t.active c = true then _ else pure () : Call ρ Unit) c l = _
  rw [if_neg (by simp [h])]
  rfl

/-- The destructor of an active transaction leaves the connection that its rollback leaves. -/
theorem destroy_active {t : Transaction} (h : t.active c = true) (l : List (Answer Failure)) :
    (t.destroy c l).2.1 = (t.rollback c l).2.1 := by
  show ((if t.active c = true then _ else pure () : Call ρ Unit) c l).2.1 = _
  rw [if_pos h]
  rfl

/-- An end that fails without a loss leaves the transaction, and one that does not gives the number
of the connection up. -/
theorem end_notices {t : Transaction} (h : t.active c = true) {q : Statement ρ}
    (hlost : ¬ Loses (exec q) c l) : Notices c (t.finish q c l).2.1 := by
  obtain ⟨htransaction, hserial, hnumber⟩ := (exec_meets q c l fun _ _ => trivial).1
  rw [finish_active h]
  unfold Loses at hlost
  generalize exec q c l = ended at htransaction hserial hnumber hlost
  obtain ⟨r, c', l'⟩ := ended
  cases r with
  | ok => exact ⟨hserial, .inl rfl⟩
  | error e =>
      refine ⟨hserial, .inr ⟨htransaction, ?_⟩⟩
      by_cases hbefore : c.number = none
      · exact .inr hbefore
      · refine .inl ((hnumber hbefore).resolve_right fun hnone => hlost ⟨rfl, hbefore, hnone⟩)

/-! ## The begin of a transaction -/

/-- A statement that is executed, once it is prepared. -/
theorem execute_run (q : Statement ρ) (c : Connection ρ) (l : List (Answer Failure)) :
    execute q c l = match prepare q c l with
      | (.ok q', c', l') => q'.finish (q'.rows + 1) c' l'
      | (.error e, c', l') => (.error e, c', l') := by
  unfold execute
  rw [bind_run]
  generalize prepare q c l = ended
  obtain ⟨r, c', l'⟩ := ended
  cases r with
  | ok => rfl
  | error => rfl

/-- After a `BEGIN` that succeeds there is a transaction. -/
theorem exec_begin_meets (writing : Bool) (c : Connection ρ) :
    Meets (fun _ => True) (exec (.begin writing)) c fun r c' => r = .ok () → c'.number ≠ none := by
  unfold exec engine
  refine .call trivial fun a _ => ?_
  cases hhandle : c.handle with
  | none => nofun
  | some e =>
      cases a with
      | done =>
          dsimp only [Statement.run]
          split
          · next result hresult =>
              split at hresult
              · cases hresult
              · cases hresult
                intro _ hnone
                cases hnone
          · nofun
      | failed => nofun
      | aborted => nofun

/-- A `BEGIN` that is done has begun a transaction. -/
theorem finish_begin_meets (writing : Bool) (c : Connection ρ) :
    Meets (fun _ => True) (Prepared.finish 1 ⟨.begin writing, .initial, 0⟩) c
      fun r c' => r = .ok () → c'.number ≠ none := by
  have hstep : Meets (fun _ => True) (Prepared.step ⟨.begin writing, .initial, 0⟩) c
      fun r c' => (∃ e q, r = .ok (.error e, q)) ∨ ∃ q, r = .ok (.ok .done, q) ∧
        c'.number ≠ none := by
    refine .bind (.state ⟨fun c₀ hc₀ => ?_, nofun⟩)
    obtain rfl := Except.ok.inj hc₀
    split
    · exact .pure (.inl ⟨_, _, rfl⟩)
    · refine .bind (.attempt ((exec_begin_meets writing c).imp fun result c₁ hexec => ⟨?_, nofun⟩))
      intro b hb
      obtain rfl := Except.ok.inj hb
      refine .bind (.modify ⟨fun _ _ => ?_, nofun⟩)
      cases result with
      | error => exact .pure (.inl ⟨_, _, rfl⟩)
      | ok =>
          refine .pure (.inr ⟨_, rfl, ?_⟩)
          have hopen : c₁.number ≠ none := hexec rfl
          rw [if_neg (fun h => hopen (autocommit_eq_true.1 h))]
          exact hopen
  refine .bind (hstep.imp fun r c₁ hr => ⟨fun b hb => ?_, fun e _ => nofun⟩)
  rcases hr with ⟨e, q, rfl⟩ | ⟨q, rfl, hopen⟩
  · obtain rfl := Except.ok.inj hb
    exact .fail nofun
  · obtain rfl := Except.ok.inj hb
    exact .pure fun _ => hopen

/-- A statement is prepared as it was asked for, before its first row. -/
theorem prepare_meets (q : Statement ρ) (c : Connection ρ) :
    Meets (fun _ => True) (prepare q) c fun r _ => ∀ q', r = .ok q' → q'.statement = q ∧
      q'.position = .initial ∧ q'.rows = match q with | .query rows => rows | _ => 0 := by
  have hany : ∀ {β : Type} {p : Call ρ β} {c : Connection ρ} {Q : Except Error β → Prop},
      (∀ r, Q r) → Meets (fun _ => True) p c fun r _ => Q r := by
    intro β p c Q hQ l hl
    exact ⟨hQ _, fun _ _ => trivial⟩
  refine .bind (.imp (hany fun _ => trivial) fun r c₁ _ => ⟨fun _ _ => ?_, fun _ _ => nofun⟩)
  refine .bind (.imp (hany fun _ => trivial) fun r c₂ _ => ⟨fun _ _ => ?_, fun _ _ => nofun⟩)
  refine .bind (.imp (hany fun _ => trivial) fun r c₃ _ => ⟨fun result _ => ?_, fun _ _ => nofun⟩)
  cases result with
  | error => exact .fail nofun
  | ok =>
      refine .pure fun q' hq' => ?_
      obtain rfl := Except.ok.inj hq'
      exact ⟨rfl, rfl, rfl⟩

/-- A transaction that begins is the one of its connection, under the next serial number. -/
structure Begins (c : Connection ρ) (t : Transaction) (c' : Connection ρ) : Prop where
  held : t.held = true
  id : t.id = (c.serial + 1) % 2 ^ 64
  serial : c'.serial = t.id
  transaction : c'.transaction = t.id
  number : c'.number = some t.begun

/-- What comes of the begin of a transaction. -/
inductive Beginning (c : Connection ρ) (q : Statement ρ) (l : List (Answer Failure)) :
    Except Error Transaction → Connection ρ → Prop where
  | refused {e : Error} : (prepare q c l).1.isOk = false →
      Beginning c q l (.error e) (prepare q c l).2.1
  | failed {e : Error} {c' : Connection ρ} : Notices (prepare q c l).2.1 c' →
      (prepare q c l).1.isOk = true → Beginning c q l (.error e) c'
  | begun {t : Transaction} {c' : Connection ρ} : Begins c t c' →
      (prepare q c l).1.isOk = true → Beginning c q l (.ok t) c'

/-- A transaction that begins, once its statement is executed. -/
theorem begin_run (writing : Bool) (c : Connection ρ) (l : List (Answer Failure)) :
    Transaction.begin writing c l = match execute (.begin writing) c l with
      | (.ok _, c', l') => (.ok ⟨true, (c'.serial + 1) % 2 ^ 64, c'.number.getD 0⟩,
          { c' with serial := (c'.serial + 1) % 2 ^ 64,
                    transaction := (c'.serial + 1) % 2 ^ 64 }, l')
      | (.error e, c', l') => (.error e, c', l') := by
  unfold Transaction.begin
  rw [bind_run]
  generalize execute (.begin writing) c l = ended
  obtain ⟨r, c', l'⟩ := ended
  cases r with
  | ok => rfl
  | error => rfl

/-- The ways in which a transaction begins or does not. The preparation may be refused, the
statement may fail, or the transaction begins, and these are the three cases. -/
theorem begin_cases (writing : Bool) (c : Connection ρ) (l : List (Answer Failure)) :
    Beginning c (.begin writing) l (Transaction.begin writing c l).1
      (Transaction.begin writing c l).2.1 := by
  have hprepare := (prepare_quiet (.begin writing)).run c l
  have hshape := (prepare_meets (.begin writing) c l fun _ _ => trivial).1
  rw [begin_run, execute_run]
  cases hp : prepare (.begin writing) c l with
  | mk r rest =>
      obtain ⟨c₁, l₁⟩ := rest
      rw [hp] at hprepare hshape
      cases r with
      | error e =>
          have hrefused : (prepare (.begin writing) c l).1.isOk = false := by rw [hp]; rfl
          have hback : c₁ = (prepare (.begin writing) c l).2.1 := by rw [hp]
          subst hback
          exact .refused hrefused
      | ok q =>
          obtain ⟨hstatement, hposition, hrows⟩ := hshape q rfl
          obtain ⟨statement, position, rows⟩ := q
          subst hstatement hposition hrows
          have hnotices := (finish_notices 1 ⟨.begin writing, .initial, 0⟩).run c₁ l₁
          have hopen := (finish_begin_meets writing c₁ l₁ fun _ _ => trivial).1
          dsimp only
          generalize Prepared.finish 1 ⟨.begin writing, .initial, 0⟩ c₁ l₁ = ended
            at hnotices hopen ⊢
          obtain ⟨result, c₂, l₂⟩ := ended
          cases result with
          | error e =>
              refine .failed ?_ ?_
              · rw [hp]
                exact hnotices
              · rw [hp]
                rfl
          | ok =>
              have hserial : c₂.serial = c.serial := hnotices.serial.trans hprepare.serial
              obtain ⟨n, hn⟩ := Option.ne_none_iff_exists'.1 (hopen rfl)
              refine .begun ⟨rfl, ?_, rfl, rfl, ?_⟩ (by rw [hp]; rfl)
              · show (c₂.serial + 1) % 2 ^ 64 = _
                rw [hserial]
              · show c₂.number = some (c₂.number.getD 0)
                rw [hn]
                rfl

/-! ## The invariant -/

/-- Transactions have serial numbers of their own, and the one whose number the connection has is
the owner of the open transaction. -/
structure Tracked (s : Session ρ) : Prop where
  ids : ∀ slot t, s.transactions slot = some t → t.held = true →
    t.id ≠ 0 ∧ t.id ≤ s.connection.serial
  distinct : ∀ slot slot' t t', s.transactions slot = some t → s.transactions slot' = some t' →
    t.held = true → t'.held = true → t.id = t'.id → slot = slot'
  current : s.connection.transaction ≤ s.connection.serial
  owned : ∀ slot t, s.transactions slot = some t → t.active s.connection = true →
    s.connection.number = some t.begun

/-- A transaction is active when it is held and the connection carries its mark. -/
theorem active_iff {t : Transaction} :
    t.active c = true ↔ t.held = true ∧ c.transaction = t.id := by
  unfold Transaction.active
  rw [Bool.and_eq_true, decide_eq_true_eq]

namespace Tracked

variable {s : Session ρ}

/-- A fresh session has no transaction to track. -/
theorem fresh (content : Content ρ) (limit : Fin (2 ^ 31)) (readOnly : Bool) :
    Tracked (Session.fresh content limit readOnly) :=
  ⟨nofun, nofun, Nat.le_refl 0, nofun⟩

/-- A connection that notices keeps track. Where the transaction has ended the connection has no
owner any more, and otherwise its numbers are as they were. -/
theorem notices (h : Tracked s) (hc : Notices s.connection c') :
    Tracked (s.withConnection c') where
  ids slot t ht hheld := by
    show t.id ≠ 0 ∧ t.id ≤ c'.serial
    rw [hc.serial]
    exact h.ids slot t ht hheld
  distinct := h.distinct
  current := by
    show c'.transaction ≤ c'.serial
    rw [hc.serial]
    rcases hc.kept with hzero | ⟨hsame, -⟩
    · omega
    · rw [hsame]
      exact h.current
  owned slot t ht hactive := by
    obtain ⟨hheld, hid⟩ := active_iff.1 hactive
    have hid : c'.transaction = t.id := hid
    rcases hc.kept with hzero | ⟨hsame, hnumber⟩
    · exact absurd (hid.symm.trans hzero) (h.ids slot t ht hheld).1
    · have hown := h.owned slot t ht (active_iff.2 ⟨hheld, hsame.symm.trans hid⟩)
      show c'.number = some t.begun
      rcases hnumber with hkept | hnone
      · exact hkept.trans hown
      · rw [hnone] at hown
        cases hown

/-- So does one that is quiet, when nothing is lost of which there is an owner. -/
theorem quiet (h : Tracked s) (hc : Quiet s.connection c')
    (hkept : Watched s → s.connection.number ≠ none → c'.number ≠ none) :
    Tracked (s.withConnection c') where
  ids slot t ht hheld := by
    show t.id ≠ 0 ∧ t.id ≤ c'.serial
    rw [hc.serial]
    exact h.ids slot t ht hheld
  distinct := h.distinct
  current := by
    show c'.transaction ≤ c'.serial
    rw [hc.serial, hc.transaction]
    exact h.current
  owned slot t ht hactive := by
    obtain ⟨hheld, hid⟩ := active_iff.1 hactive
    have hid : c'.transaction = t.id := hid
    have hactive' := active_iff.2 ⟨hheld, hc.transaction.symm.trans hid⟩
    have hown := h.owned slot t ht hactive'
    have hopen := hkept ⟨slot, t, ht, hactive'⟩ (by rw [hown]; nofun)
    exact (hc.number.resolve_right hopen).trans hown

/-- A transaction that is found after a change is the new one or one from before. -/
theorem put_cases {slot k : Nat} {new : Option Transaction} {t : Transaction}
    (h : (s.put slot new).transactions k = some t) :
    k = slot ∧ new = some t ∨ k ≠ slot ∧ s.transactions k = some t := by
  have h : (if k = slot then new else s.transactions k) = some t := h
  by_cases hk : k = slot
  · rw [if_pos hk] at h
    exact .inl ⟨hk, h⟩
  · rw [if_neg hk] at h
    exact .inr ⟨hk, h⟩

/-- What is put in a slot holds nothing, or was there. -/
theorem put (h : Tracked s) {slot : Nat} {new : Option Transaction}
    (hnew : ∀ t, new = some t → t.held = true → s.transactions slot = some t) :
    Tracked (s.put slot new) := by
  have hback : ∀ k t, (s.put slot new).transactions k = some t → t.held = true →
      s.transactions k = some t := by
    intro k t ht hheld
    rcases put_cases ht with ⟨rfl, hsome⟩ | ⟨-, hsome⟩
    · exact hnew t hsome hheld
    · exact hsome
  refine ⟨fun k t ht hheld => h.ids k t (hback k t ht hheld) hheld, ?_, h.current, ?_⟩
  · intro k k' t t' ht ht' hheld hheld' hid
    exact h.distinct k k' t t' (hback k t ht hheld) (hback k' t' ht' hheld') hheld hheld' hid
  · intro k t ht hactive
    have hheld := (active_iff.1 hactive).1
    exact h.owned k t (hback k t ht hheld) hactive

/-- A transaction that is moved is in its new slot only. The one it was moved from holds nothing any
more, so that only one slot has its number. -/
theorem move (h : Tracked s) {source : Nat} (slot : Nat) {t : Transaction}
    (ht : s.transactions source = some t) :
    Tracked ((s.put slot (some t)).put source (some t.drop)) := by
  have hback : ∀ k u, ((s.put slot (some t)).put source (some t.drop)).transactions k = some u →
      u.held = true → (k = slot ∧ u = t) ∨ (k ≠ slot ∧ k ≠ source ∧ s.transactions k = some u) := by
    intro k u hu hheld
    rcases put_cases hu with ⟨-, hdrop⟩ | ⟨hk, hu⟩
    · obtain rfl := Option.some.inj hdrop
      cases hheld
    · rcases put_cases hu with ⟨hslot, hsome⟩ | ⟨hslot, hsome⟩
      · exact .inl ⟨hslot, (Option.some.inj hsome).symm⟩
      · exact .inr ⟨hslot, hk, hsome⟩
  refine ⟨fun k u hu hheld => ?_, ?_, h.current, fun k u hu hactive => ?_⟩
  · rcases hback k u hu hheld with ⟨-, rfl⟩ | ⟨-, -, hu'⟩
    · exact h.ids source u ht hheld
    · exact h.ids k u hu' hheld
  · intro k k' u u' hu hu' hheld hheld' hid
    rcases hback k u hu hheld with ⟨hk, rfl⟩ | ⟨-, hk, hold⟩
    · rcases hback k' u' hu' hheld' with ⟨hk', rfl⟩ | ⟨-, hk', hold'⟩
      · rw [hk, hk']
      · exact absurd (h.distinct source k' u u' ht hold' hheld hheld' hid).symm hk'
    · rcases hback k' u' hu' hheld' with ⟨hk', rfl⟩ | ⟨-, -, hold'⟩
      · exact absurd (h.distinct k source u u' hold ht hheld hheld' hid) hk
      · exact h.distinct k k' u u' hold hold' hheld hheld' hid
  · have hheld := (active_iff.1 hactive).1
    rcases hback k u hu hheld with ⟨-, rfl⟩ | ⟨-, -, hu'⟩
    · exact h.owned source u ht hactive
    · exact h.owned k u hu' hactive

/-- A transaction that begins is the owner of the open one. -/
theorem begins (h : Tracked s) {slot : Nat} {t : Transaction} (hc : Begins s.connection t c')
    (hserial : s.connection.serial + 1 < 2 ^ 64) :
    Tracked ((s.withConnection c').put slot (some t)) := by
  have hid : t.id = s.connection.serial + 1 := hc.id.trans (Nat.mod_eq_of_lt hserial)
  have hserial' : c'.serial = s.connection.serial + 1 := hc.serial.trans hid
  have hold : ∀ k u, k ≠ slot → s.transactions k = some u → u.held = true →
      u.id ≤ s.connection.serial := fun k u _ hu hheld => (h.ids k u hu hheld).2
  refine ⟨fun k u hu hheld => ?_, ?_, ?_, fun k u hu hactive => ?_⟩
  · show u.id ≠ 0 ∧ u.id ≤ c'.serial
    rw [hserial']
    rcases put_cases hu with ⟨-, hnew⟩ | ⟨-, hu'⟩
    · obtain rfl := Option.some.inj hnew
      omega
    · have hids := h.ids k u hu' hheld
      omega
  · intro k k' u u' hu hu' hheld hheld' heq
    rcases put_cases hu with ⟨hk, hnew⟩ | ⟨hk, hu⟩
    · rcases put_cases hu' with ⟨hk', -⟩ | ⟨hk', hu'⟩
      · rw [hk, hk']
      · obtain rfl := Option.some.inj hnew
        have hle := hold k' u' hk' hu' hheld'
        omega
    · rcases put_cases hu' with ⟨hk', hnew⟩ | ⟨hk', hu'⟩
      · obtain rfl := Option.some.inj hnew
        have hle := hold k u hk hu hheld
        omega
      · exact h.distinct k k' u u' hu hu' hheld hheld' heq
  · show c'.transaction ≤ c'.serial
    rw [hc.transaction, hc.serial]
  · obtain ⟨hheld, hactive⟩ := active_iff.1 hactive
    have hactive : c'.transaction = u.id := hactive
    rcases put_cases hu with ⟨-, hnew⟩ | ⟨hk, hu'⟩
    · obtain rfl := Option.some.inj hnew
      exact hc.number
    · have hle := hold k u hk hu' hheld
      rw [hc.transaction] at hactive
      omega

/-- **A session that keeps track is guarded.** An active transaction of the session is its own, and
for one that is not active there is nothing to guard. -/
theorem guarded (h : Tracked s) : Guarded s := by
  intro slot t ht
  cases hactive : t.active s.connection with
  | true =>
      have hown := h.owned slot t ht hactive
      exact ⟨fun _ => .inr hown, fun _ => .inr hown, fun _ => .inr hown,
        fun hended => absurd hown hended⟩
  | false =>
      refine ⟨fun l => .inl ?_, fun l => .inl ?_, fun l => .inl ?_, fun _ l => ⟨?_, ?_, ?_⟩⟩
      · rw [Transaction.commit, finish_inactive hactive]
      · rw [Transaction.rollback, finish_inactive hactive]
      · rw [destroy_inactive hactive]
      · exact finish_inactive hactive .commit l
      · exact finish_inactive hactive .rollback l
      · exact destroy_inactive hactive l

end Tracked

/-! ## Runs -/

/-- The serial number of a transaction that begins would be one of 64 bits that was there before. -/
def Wraps (s : Session ρ) : Operation ρ → Prop
  | .begin _ _ => 2 ^ 64 ≤ s.connection.serial + 1
  | _ => False

/-- A call that returns has a value. -/
theorem isOk_iff {r : Except Error β} : r.isOk = true ↔ ∃ b, r = .ok b := by
  cases r with
  | ok b => exact ⟨fun _ => ⟨b, rfl⟩, fun _ => rfl⟩
  | error => exact ⟨nofun, nofun⟩

/-- A transaction is lost in a call that fails only. -/
theorem loses_of {p : Call ρ β} (h : Keeps Still Quiet p) (hopen : c.number ≠ none)
    (hnone : (p c l).2.1.number = none) : Loses p c l := by
  refine ⟨?_, hopen, hnone⟩
  cases hok : (p c l).1.isOk with
  | false => rfl
  | true =>
      obtain ⟨b, hb⟩ := isOk_iff.1 hok
      exact absurd ((h.run_ok hb).number.symm.trans hnone) hopen

namespace Session

variable {s : Session ρ}

/-- Of two changes of a slot the second counts. -/
theorem put_put (s : Session ρ) (slot : Nat) (t u : Option Transaction) :
    (s.put slot t).put slot u = s.put slot u := by
  unfold put
  congr 1
  funext k
  dsimp only
  split
  · rfl
  · rfl

/-- The end of a transaction in a slot keeps track, when it is not overlooked. An inactive
transaction calls nothing, and of an active one the hypothesis excludes that the engine ends it in a
call that fails. -/
theorem finish_tracked (h : Tracked s) {slot : Nat} {t : Transaction}
    (ht : s.transactions slot = some t) {q : Statement ρ}
    (hlost : ¬ (t.active s.connection = true ∧ Loses (exec q) s.connection l)) :
    Tracked (s.finish slot t q l) := by
  have hnotices : Notices s.connection (t.finish q s.connection l).2.1 := by
    cases hactive : t.active s.connection with
    | false =>
        rw [finish_inactive hactive]
        exact refl_of Notices _
    | true => exact end_notices hactive fun hloses => hlost ⟨hactive, hloses⟩
  refine (h.notices hnotices).put fun u hu hheld => ?_
  have hu := Option.some.inj hu
  cases hactive : t.active s.connection with
  | false =>
      rw [finish_inactive hactive] at hu
      exact hu ▸ ht
  | true =>
      rw [finish_active hactive] at hu
      generalize exec q s.connection l = ended at hu
      obtain ⟨r, c', l'⟩ := ended
      cases r with
      | ok =>
          subst hu
          cases hheld
      | error =>
          subst hu
          exact ht

/-- A destructor keeps the session tracked and frees the slot. The slot is empty afterwards, and no
other transaction has the number of the connection. -/
theorem destroy_tracked (h : Tracked s) {slot : Nat} {t : Transaction}
    (ht : s.transactions slot = some t) : Tracked ((s.after t.destroy l).put slot none) := by
  cases hactive : t.active s.connection with
  | false =>
      have hsame : s.after t.destroy l = s := by
        show s.withConnection _ = s
        rw [destroy_inactive hactive]
        rfl
      rw [hsame]
      exact h.put nofun
  | true =>
      -- whatever the engine does, no other transaction has the number of the connection
      have hback : (t.destroy s.connection l).2.1 = (t.finish .rollback s.connection l).2.1 :=
        destroy_active hactive l
      obtain ⟨htransaction, hserial, -⟩ :=
        (exec_meets .rollback s.connection l fun _ _ => trivial).1
      have hnumbers : (t.destroy s.connection l).2.1.serial = s.connection.serial ∧
          ((t.destroy s.connection l).2.1.transaction = 0 ∨
            (t.destroy s.connection l).2.1.transaction = s.connection.transaction) := by
        rw [hback, finish_active hactive]
        generalize exec .rollback s.connection l = ended at htransaction hserial
        obtain ⟨r, c', l'⟩ := ended
        cases r with
        | ok => exact ⟨hserial, .inl rfl⟩
        | error => exact ⟨hserial, .inr htransaction⟩
      obtain ⟨hserial, htransaction⟩ := hnumbers
      obtain ⟨hheld, hid⟩ := active_iff.1 hactive
      have hothers : ∀ k u, ((s.after t.destroy l).put slot none).transactions k = some u →
          k ≠ slot ∧ s.transactions k = some u := by
        intro k u hu
        rcases Tracked.put_cases hu with ⟨-, hnone⟩ | hother
        · cases hnone
        · exact hother
      refine ⟨fun k u hu hheld' => ?_, ?_, ?_, fun k u hu hactive' => ?_⟩
      · show u.id ≠ 0 ∧ u.id ≤ (t.destroy s.connection l).2.1.serial
        rw [hserial]
        exact h.ids k u (hothers k u hu).2 hheld'
      · intro k k' u u' hu hu' hheld hheld' heq
        exact h.distinct k k' u u' (hothers k u hu).2 (hothers k' u' hu').2 hheld hheld' heq
      · show (t.destroy s.connection l).2.1.transaction ≤ (t.destroy s.connection l).2.1.serial
        rw [hserial]
        rcases htransaction with hzero | hsame
        · omega
        · rw [hsame]
          exact h.current
      · obtain ⟨hk, hu⟩ := hothers k u hu
        obtain ⟨hheld', hid'⟩ := active_iff.1 hactive'
        have hid' : (t.destroy s.connection l).2.1.transaction = u.id := hid'
        rcases htransaction with hzero | hsame
        · exact absurd (hid'.symm.trans hzero) (h.ids k u hu hheld').1
        · have hsameId : u.id = t.id := hid'.symm.trans (hsame.trans hid)
          exact absurd (h.distinct k slot u t hu ht hheld' hheld hsameId) hk

/-- **Every operation that overlooks nothing keeps track.** There is one case for each operation,
and the conditions exclude the end that is overlooked and the serial that comes round. -/
theorem perform_tracked (h : Tracked s) (o : Operation ρ) (hforgets : ¬ Forgets s (o, l))
    (hwraps : ¬ Wraps s o) : Tracked (s.perform o l) := by
  have hlost : Watched s → ¬ Overlooks s l o := fun hwatched hover => hforgets ⟨hwatched, hover⟩
  cases o with
  | begin slot writing =>
      simp only [perform]
      split
      · exact h
      · next hslot =>
          have hslot : s.transactions slot = none := by simpa using hslot
          have hquiet := (prepare_quiet (.begin writing)).run s.connection l
          have hcases := begin_cases writing s.connection l
          generalize Transaction.begin writing s.connection l = ended at hcases
          obtain ⟨r, c', l'⟩ := ended
          cases hcases with
          | refused hfailed =>
              refine h.quiet hquiet fun hwatched hopen hnone => ?_
              exact hlost hwatched ⟨hslot, hfailed, hopen, hnone⟩
          | failed hnotices hprepared =>
              obtain ⟨q, hq⟩ := isOk_iff.1 hprepared
              have hstill := (prepare_quiet (.begin writing)).run_ok hq
              exact h.notices (trans_of Notices hstill.notices hnotices)
          | begun hbegins _ => exact h.begins hbegins (by unfold Wraps at hwraps; omega)
  | commit slot =>
      simp only [perform]
      split
      · exact h
      · next t ht =>
          refine finish_tracked h ht fun ⟨hactive, hloses⟩ => ?_
          exact hlost ⟨slot, t, ht, hactive⟩ ⟨t, ht, hactive, hloses⟩
  | rollback slot =>
      simp only [perform]
      split
      · exact h
      · next t ht =>
          refine finish_tracked h ht fun ⟨hactive, hloses⟩ => ?_
          exact hlost ⟨slot, t, ht, hactive⟩ ⟨t, ht, hactive, hloses⟩
  | destroy slot =>
      simp only [perform]
      split
      · exact h
      · next t ht => exact destroy_tracked h ht
  | moveConstruct source slot =>
      simp only [perform]
      split
      · next t ht hslot => exact h.move _ ht
      · exact h
  | moveAssign source slot =>
      simp only [perform]
      split
      · next t old ht hold =>
          split
          · exact h
          · next hne =>
              have hdestroyed := destroy_tracked (l := l) h hold
              have hsource : ((s.after old.destroy l).put slot none).transactions source = some t :=
                (if_neg hne).trans ht
              have hmoved := hdestroyed.move slot hsource
              rwa [put_put] at hmoved
      · exact h
  | prepare q =>
      refine h.quiet ((prepare_quiet q).run _ _) fun hwatched hopen hnone => ?_
      exact hlost hwatched (loses_of (prepare_quiet q) hopen hnone)
  | step q => exact h.notices ((step_notices q).run _ _)
  | patchBlob place replacement =>
      refine h.quiet ((patchBlob_quiet place replacement).run _ _) fun hwatched hopen hnone => ?_
      exact hlost hwatched (loses_of (patchBlob_quiet place replacement) hopen hnone)
  | compareExchange S place ranges =>
      have hquiet := beginExchange_quiet (ρ := ρ) S place ranges
      have hend : (∃ e, (beginExchange S place ranges s.connection l).1 = .error e) ∧
            (compareExchangeBlobRanges S place ranges s.connection l).2.1
              = (beginExchange S place ranges s.connection l).2.1 ∨
          Notices s.connection (compareExchangeBlobRanges S place ranges s.connection l).2.1 := by
        have hrun := fun b => hquiet.run_ok (s := s.connection) (l := l) (b := b)
        unfold compareExchangeBlobRanges
        rw [bind_run]
        generalize beginExchange S place ranges s.connection l = ended at hrun
        obtain ⟨r, c₁, l₁⟩ := ended
        cases r with
        | error e => exact .inl ⟨⟨e, rfl⟩, rfl⟩
        | ok result =>
            refine .inr (trans_of Notices (hrun result rfl).notices ?_)
            obtain ⟨compared, ordered, changes⟩ := result
            have hkeeps : Keeps Notices Notices (if changes = false then pure ⟨compared, 0⟩
                else do
                  let written ← exchange place ordered
                  pure ⟨compared, written⟩ : Call ρ BlobPatchStatistics) := by
              split
              · exact .pure _
              · exact .bind (exchange_notices place ordered) fun _ => .pure _
            exact hkeeps.run c₁ l₁
      rcases hend with ⟨-, hsame⟩ | hnotices
      · refine h.quiet (hsame ▸ hquiet.run _ _) fun hwatched hopen hnone => ?_
        exact hlost hwatched (loses_of hquiet hopen (hsame ▸ hnone))
      · exact h.notices hnotices

/-- No operation of a run overlooks a lost transaction, and the serial numbers do not come round. -/
def Calm (s : Session ρ) (events : List (Operation ρ × List (Answer Failure))) : Prop :=
  ∀ before e after, events = before ++ e :: after →
    ¬ Forgets (s.performAll before) e ∧ ¬ Wraps (s.performAll before) e.1

/-- The last operation of a list is performed after the others. -/
theorem performAll_snoc (s : Session ρ) (events : List (Operation ρ × List (Answer Failure)))
    (e : Operation ρ × List (Answer Failure)) :
    s.performAll (events ++ [e]) = (s.performAll events).perform e.1 e.2 := by
  unfold performAll
  rw [List.foldl_append]
  rfl

/-- A calm run keeps track, up to every state it comes through. -/
theorem performAll_tracked (h : Tracked s)
    {events : List (Operation ρ × List (Answer Failure))} (hcalm : s.Calm events) :
    Tracked (s.performAll events) := by
  induction events using List.reverseRecOn with
  | nil => exact h
  | append_singleton events e ih =>
      obtain ⟨hforgets, hwraps⟩ := hcalm events e [] rfl
      rw [performAll_snoc]
      refine perform_tracked (ih fun before e' after heq => ?_) e.1 hforgets hwraps
      refine hcalm before e' (after ++ [e]) ?_
      rw [heq, List.append_assoc, List.cons_append]

/-- A transaction whose own has ended, but which the connection still takes for its owner, calls the
engine. -/
theorem not_owns {t : Transaction} (hactive : t.active c = true) (hnone : c.number = none) :
    ¬ Owns c t := by
  intro howns
  have hended := (howns.ended (by rw [hnone]; nofun) []).1
  rw [Transaction.commit, finish_active hactive] at hended
  obtain ⟨handle, serial, transaction, limit, readOnly, wrapped⟩ := c
  cases handle with
  | none => exact absurd (Except.error.inj (Prod.ext_iff.1 hended).1) (by decide)
  | some e =>
      have hclosed : e.number = none := hnone
      have hrefused : Statement.commit.run e
          = .error "cannot commit - no transaction is active" := by
        unfold Statement.run
        rw [hclosed]
        rfl
      have hcall : (exec .commit ⟨some e, serial, transaction, limit, readOnly, wrapped⟩ []).1
          = .error ⟨.failure, 1, "cannot commit - no transaction is active"⟩ := by
        simp only [exec, engine, call, List.headD_nil, default, hrefused]
      generalize exec .commit _ [] = ended at hcall hended
      obtain ⟨r, c', l'⟩ := ended
      subst hcall
      exact absurd (Except.error.inj (Prod.ext_iff.1 hended).1) (by decide)

/-- What an operation that forgets leaves: the owner is still there, its transaction is not. The
connection still has the number of that owner, while the engine has no transaction. -/
theorem perform_forgets {e : Operation ρ × List (Answer Failure)} (h : Forgets s e) :
    ¬ Guarded (s.perform e.1 e.2) := by
  obtain ⟨o, l⟩ := e
  obtain ⟨⟨k, u, hu, hactive⟩, hover⟩ := h
  have hquiet : ∀ {c' : Connection ρ}, Quiet s.connection c' → c'.number = none →
      ¬ Guarded (s.withConnection c') := by
    intro c' hc hnone hguarded
    obtain ⟨hheld, hid⟩ := active_iff.1 hactive
    exact not_owns (active_iff.2 ⟨hheld, hc.transaction.trans hid⟩) hnone (hguarded k u hu)
  have hfinish : ∀ {slot : Nat} {t : Transaction} {q : Statement ρ},
      t.active s.connection = true → Loses (exec q) s.connection l →
      ¬ Guarded (s.finish slot t q l) := by
    rintro slot t q hactive' ⟨hfailed, -, hnone⟩ hguarded
    obtain ⟨htransaction, -, -⟩ := (exec_meets q s.connection l fun _ _ => trivial).1
    have howns := hguarded slot
    unfold finish after at howns
    rw [finish_active hactive'] at howns
    generalize exec q s.connection l = ended at hfailed hnone htransaction howns
    obtain ⟨r, c', l'⟩ := ended
    cases r with
    | ok => cases hfailed
    | error =>
        obtain ⟨hheld, hid⟩ := active_iff.1 hactive'
        exact not_owns (active_iff.2 ⟨hheld, htransaction.trans hid⟩) hnone (howns t (if_pos rfl))
  cases o with
  | begin slot writing =>
      obtain ⟨hslot, hfailed, -, hnone⟩ := hover
      have hcases := begin_cases writing s.connection l
      have hback := (prepare_quiet (.begin writing)).run s.connection l
      simp only [perform, hslot, Option.isSome_none, Bool.false_eq_true, if_false]
      generalize Transaction.begin writing s.connection l = ended at hcases
      obtain ⟨r, c', l'⟩ := ended
      cases hcases with
      | refused _ => exact hquiet hback hnone
      | failed _ hprepared =>
          rw [hfailed] at hprepared
          cases hprepared
      | begun _ hprepared =>
          rw [hfailed] at hprepared
          cases hprepared
  | commit slot =>
      obtain ⟨t, ht, hactive', hloses⟩ := hover
      simp only [perform, ht]
      exact hfinish hactive' hloses
  | rollback slot =>
      obtain ⟨t, ht, hactive', hloses⟩ := hover
      simp only [perform, ht]
      exact hfinish hactive' hloses
  | destroy => exact hover.elim
  | moveConstruct => exact hover.elim
  | moveAssign => exact hover.elim
  | prepare q => exact hquiet ((prepare_quiet q).run _ _) hover.2.2
  | step => exact hover.elim
  | patchBlob place replacement =>
      exact hquiet ((patchBlob_quiet place replacement).run _ _) hover.2.2
  | compareExchange S place ranges =>
      obtain ⟨hfailed, -, hnone⟩ := hover
      have hrun := (beginExchange_quiet S place ranges).run s.connection l
      have hsame : (compareExchangeBlobRanges S place ranges s.connection l).2.1
          = (beginExchange S place ranges s.connection l).2.1 := by
        unfold compareExchangeBlobRanges
        rw [bind_run]
        generalize beginExchange S place ranges s.connection l = ended at hfailed
        obtain ⟨r, c', l'⟩ := ended
        cases r with
        | ok => cases hfailed
        | error => rfl
      exact hquiet (hsame ▸ hrun) (hsame ▸ hnone)

/-- **Transactions end no transaction but their own.** In a run in which no operation overlooks that
the engine ended the transaction of an owner that is still there, every transaction ends its own
transaction at most, and nothing once that has ended. The first operation that does overlook it
leaves a transaction of which this does not hold. -/
theorem transactions_guarded (content : Content ρ) (limit : Fin (2 ^ 31)) (readOnly : Bool)
    (events : List (Operation ρ × List (Answer Failure)))
    (hcalm : (fresh content limit readOnly).Calm events) :
    (∀ before after, events = before ++ after →
      Guarded ((fresh content limit readOnly).performAll before)) ∧
    ∀ e, Forgets ((fresh content limit readOnly).performAll events) e →
      ¬ Guarded ((fresh content limit readOnly).performAll (events ++ [e])) := by
  refine ⟨fun before after heq => ?_, fun e hforgets => ?_⟩
  · refine (performAll_tracked (.fresh content limit readOnly)
      fun first e rest hfirst => ?_).guarded
    refine hcalm first e (rest ++ after) ?_
    rw [heq, hfirst, List.append_assoc, List.cons_append]
  · rw [performAll_snoc]
    exact perform_forgets hforgets

/-! ## Samples -/

/-- A database without values. -/
def sample : Session Unit := fresh ⟨fun _ => none, (), nofun⟩ 1024 false

/-- A transaction begins and is committed. -/
def committed : List (Operation Unit × List (Answer Failure)) :=
  [(.begin 0 true, []), (.commit 0, [])]

/-- In the sample each transaction that ends is the one that its owner began. -/
theorem transactions_guarded_sample : Guarded (sample.performAll committed) := by
  refine (transactions_guarded _ 1024 false committed ?_).1 committed [] rfl
  rintro before e after heq
  have hcases : before = [] ∧ e = (.begin 0 true, []) ∨
      before = [(.begin 0 true, [])] ∧ e = (.commit 0, []) := by
    rcases before with _ | ⟨a, _ | ⟨b, before⟩⟩
    · exact .inl ⟨rfl, (List.cons.inj heq).1.symm⟩
    · obtain ⟨rfl, hrest⟩ := List.cons.inj heq
      exact .inr ⟨rfl, (List.cons.inj hrest).1.symm⟩
    · have hlength := congrArg List.length heq
      simp [committed] at hlength
  rcases hcases with ⟨rfl, rfl⟩ | ⟨rfl, rfl⟩
  · refine ⟨?_, by show ¬ 2 ^ 64 ≤ 0 + 1; omega⟩
    rintro ⟨-, -, hfailed, -⟩
    cases hfailed
  · refine ⟨?_, nofun⟩
    rintro ⟨-, t, -, -, hfailed, -⟩
    cases hfailed

/-- A commit that fails with the whole transaction taken back, a raw `BEGIN`, and the destructor of
the transaction object: it takes the transaction of the raw `BEGIN` back. -/
theorem destructor_ends_another : ∃ s : Session Unit, ∃ t : Transaction,
    s = sample.performAll [(.begin 0 true, []), (.commit 0, [.aborted ⟨13, "disk full", []⟩]),
      (.step ⟨.begin true, .initial, 0⟩, [])] ∧
    s.transactions 0 = some t ∧ s.connection.number = some 1 ∧ t.begun = 0 ∧
    (s.perform (.destroy 0) []).connection.number = none :=
  ⟨_, ⟨true, 1, 0⟩, rfl, rfl, rfl, rfl, rfl⟩

end Session

end Sql

end FileProvider
