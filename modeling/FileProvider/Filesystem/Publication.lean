import FileProvider.Filesystem.SaveCalls

/-!
# All or nothing

A save changes its destination in a commit that succeeds, and only there: `Promise` says it of one
step, `publishes_all_or_nothing` of every run in which no step meets one of the failures that
`Spared` names.

The promise is proved from the lemmas about the calls alone, one for each operation, and the run by
the rule for runs. The conditions of `Spared` are about the answers of the system and the state
before the step; `link_left` shows a run that does not meet them and breaks the promise.
-/

namespace FileProvider

open Bytes Program

namespace Filesystem

variable {allowed : Answer → Prop} {s : Save} {sys : System} {p d : FilePath}

/-! ## One operation -/

/-- The names that saves take for themselves. -/
def Private (q : FilePath) : Prop := IsStage q ∨ ∃ directory, q = sentinel directory

/-- The operations that end a save. -/
def Operation.ends : Operation → Bool
  | cancel | commit _ | destroy => true
  | _ => false

/-- **All or nothing.** What an operation may do, with what is staged before it. -/
structure Promise (sys : System) (op : Operation) (a : Staged) (s : Save) (r : Result) (s' : Save) :
    Prop where
  /-- Nothing but a commit that succeeds changes the destination. -/
  untouched : r.isPublished = false →
    ∀ d, s'.destination = some d → s.stage ≠ some d → s'.disk d = s.disk d
  /-- No other file is changed. -/
  others : ∀ q, ¬ Private q → (r.isPublished = true → s.destination ≠ some q) →
    s'.disk q = s.disk q
  /-- A commit succeeds on a save that is open and has not failed, and it publishes what is staged;
  one that must not overwrite, on a destination that is not there. -/
  published : r.isPublished = true → ∃ overwrite d bytes offset mode, op = .commit overwrite ∧
    a = .staging d bytes offset false ∧ s.destination = some d ∧ s'.disk d = .file bytes mode ∧
      (overwrite = false → s.disk d = .absent)
  /-- A stage that is given up is removed. -/
  removed : ∀ p, s.stage = some p → s'.stage ≠ some p → s'.disk p = .absent
  ended : op.ends = true → s'.stage = none
  /-- Opening that fails leaves nothing but the lock file. -/
  reverted : ∀ name e, op = .open name → r = .error e → ∀ q, s.stage ≠ some q →
    (∀ d, sys.checked name = .ok d → q ≠ sentinel d.directory) → s'.disk q = s.disk q

/-- What an operation keeps and fulfils. -/
def Fulfils (sys : System) (op : Operation) (a : Staged) (s : Save) (r : Result) (s' : Save) :
    Prop :=
  Matches (a.next sys op r) s' ∧ Promise sys op a s r s'

/-- An operation on the device. -/
theorem Promise.device {op : Operation} {a : Staged} {r : Result} {s' : Save}
    (hr : r.isPublished = false) (hends : op.ends = false) (hopen : ∀ name, op ≠ .open name)
    (hstage : s'.stage = s.stage)
    (hdestination : ∀ d, s'.destination = some d → s'.disk d = s.disk d)
    (hothers : ∀ q, ¬ IsStage q → s'.disk q = s.disk q) : Promise sys op a s r s' where
  untouched _ d hd _ := hdestination d hd
  others q hq _ := hothers q fun hstage => hq (.inl hstage)
  published h := by
    rw [hr] at h
    cases h
  removed p hp hne := absurd (hstage.trans hp) hne
  ended h := by
    rw [hends] at h
    cases h
  reverted name e hop := absurd hop (hopen name)

/-- What passing a result on does. -/
theorem value_run {β : Type} (call : Call β) (f : β → Value) (l : List Answer) :
    (call >>= fun v => pure (f v)) s l = ((call s l).1.map f, (call s l).2) := by
  rw [bind_run]
  obtain ⟨r, s', rest⟩ := call s l
  cases r with
  | ok v => rfl
  | error e => rfl

/-- The rule of a result that is passed on. -/
theorem value_meets {β : Type} {call : Call β} {f : β → Value} {Q : Result → Save → Prop}
    (h : Meets allowed call s fun r s' => Q (r.map f) s') :
    Meets allowed (call >>= fun v => pure (f v)) s Q := by
  refine .bind (h.imp fun r s' hr => ?_)
  cases r with
  | ok v => exact ⟨fun v' hv' => by cases hv'; exact .pure hr, nofun⟩
  | error e => exact ⟨nofun, fun e' he' => by cases he'; exact hr⟩

/-! The save is not open. -/

/-- A closed save fulfils its promise where the call ends it, publishes nothing and leaves it
closed. -/
theorem Closed.fulfils {op : Operation} {r : Result} {output : Device} (h : Closed s)
    (houtput : output.isOpen = false) (hnext : Staged.next sys .idle op r = .idle)
    (hr : r.isPublished = false) (hends : op.ends = false) (hopen : ∀ name, op ≠ .open name) :
    Fulfils sys op .idle s r { s with output } := by
  refine ⟨?_, .device hr hends hopen rfl (fun _ _ => rfl) fun _ _ => rfl⟩
  rw [hnext]
  exact ⟨houtput, h.committed, h.named⟩

/-! The save is open. -/

/-- The open file with other bytes. -/
def Save.rewritten (s : Save) (mode : Nat) (bytes : Bytes) (offset : Nat) (broken : Bool) : Save :=
  { s with
    disk := s.disk.put s.output.path (.file bytes mode)
    output := { s.output with offset, broken } }

/-- Rewriting the output with what it holds changes nothing. -/
theorem rewritten_self {mode : Nat} {old : Bytes} (h : s.disk s.output.path = .file old mode) :
    s = s.rewritten mode old s.output.offset s.output.broken := (s.written_self h).symm

/-- A save that holds a stage still holds it after its output is rewritten, with the new bytes and
offset. -/
theorem Holds.rewritten {bytes bytes' : Bytes} {offset offset' : Nat} {failed failed' : Bool}
    (h : Holds s d bytes offset failed) (mode : Nat) (old : Bytes) (o : Nat) (broken : Bool)
    (hfile : failed' = false → old = bytes' ∧ o = offset')
    (hbroken : failed' = true → broken = true) :
    Holds (s.rewritten mode old o broken) d bytes' offset' failed' where
  isOpen := h.isOpen
  live := h.live
  destination := h.destination
  stage := h.stage
  named := h.named
  apart := h.apart
  file := ⟨old, mode, Disk.put_self _ _ _, fun hf => (hfile hf).1⟩
  offset hf := (hfile hf).2
  broken := hbroken

/-- A call that rewrites the output as `Staged.next` says fulfils the promise. -/
theorem Holds.fulfils {bytes bytes' : Bytes} {offset offset' : Nat} {failed failed' : Bool}
    {op : Operation} {a : Staged} {r : Result} (h : Holds s d bytes offset failed) (mode : Nat)
    (old : Bytes) (o : Nat) (broken : Bool)
    (hnext : a.next sys op r = .staging d bytes' offset' failed')
    (hfile : failed' = false → old = bytes' ∧ o = offset')
    (hbroken : failed' = true → broken = true) (hr : r.isPublished = false)
    (hends : op.ends = false) (hopen : ∀ name, op ≠ .open name) :
    Fulfils sys op a s r (s.rewritten mode old o broken) := by
  refine ⟨?_, .device hr hends hopen rfl (fun d' hd' => ?_) fun q hq => ?_⟩
  · rw [hnext]
    exact h.rewritten mode old o broken hfile hbroken
  · cases h.destination.symm.trans hd'
    exact Disk.put_ne h.apart.symm
  · exact Disk.put_ne fun heq => hq (by rw [heq]; exact h.named)

/-- Nothing is changed. -/
theorem Holds.unchanged {bytes : Bytes} {offset : Nat} {failed : Bool} {op : Operation} {a : Staged}
    {r : Result} (h : Holds s d bytes offset failed)
    (hnext : a.next sys op r = .staging d bytes offset failed) (hr : r.isPublished = false)
    (hends : op.ends = false) (hopen : ∀ name, op ≠ .open name) : Fulfils sys op a s r s := by
  refine ⟨?_, .device hr hends hopen rfl (fun _ _ => rfl) fun _ _ => rfl⟩
  rw [hnext]
  exact h

/-! Each operation. -/

/-- A write keeps the promise, open or closed, whole or broken off. -/
theorem write_fulfils {a : Staged} (h : Matches a s) (bytes : Bytes) :
    Meets allowed (write bytes) s fun r s' => Fulfils sys (.write bytes) a s (r.map .size) s' := by
  cases a with
  | idle =>
      refine (write_closed bytes h.isOpen).imp fun r s' hr => ?_
      obtain ⟨⟨e, rfl⟩, rfl⟩ := hr
      exact h.fulfils h.isOpen rfl rfl rfl nofun
  | staging d b o f =>
      obtain ⟨old, mode, hfile, hold⟩ := h.file
      refine (write_meets bytes h.isOpen hfile).imp fun r s' hr => ?_
      obtain ⟨rfl, rfl⟩ | ⟨e, old', o', rfl, rfl⟩ := hr
      · refine h.fulfils mode _ _ s.output.broken rfl (fun hf => ?_) h.broken rfl rfl nofun
        rw [hold hf, h.offset hf]
        exact ⟨rfl, rfl⟩
      · exact h.fulfils mode old' o' true rfl nofun (fun _ => rfl) rfl rfl nofun

/-- A seek keeps the promise. -/
theorem seek_fulfils {a : Staged} (h : Matches a s) (offset : Int) :
    Meets allowed (seek offset) s fun r s' => Fulfils sys (.seek offset) a s (r.map .flag) s' := by
  refine (seek_meets offset).imp fun r s' hr => ?_
  cases a with
  | idle =>
      obtain ⟨rfl, rfl, -⟩ | ⟨rfl, rfl⟩ | ⟨e, rfl, -, rfl⟩ := hr
      all_goals exact Closed.fulfils h h.isOpen rfl rfl rfl nofun
  | staging d b o f =>
      obtain ⟨rfl, hs', -⟩ | ⟨rfl, hs'⟩ | ⟨e, rfl, -, hs'⟩ := hr
      · rw [hs']
        exact h.unchanged rfl rfl rfl nofun
      · obtain ⟨old, mode, hfile, hold⟩ := h.file
        have hself : s' = s.rewritten mode old offset.toNat s.output.broken := by
          rw [hs']
          exact congrArg (fun t : Save => t.at offset.toNat) (rewritten_self hfile)
        rw [hself]
        exact h.fulfils mode old _ _ rfl (fun hf => ⟨hold hf, rfl⟩) h.broken rfl rfl nofun
      · rw [hs']
        exact h.unchanged rfl rfl rfl nofun

/-- A resize keeps the promise, also where it throws in between. An idle device answers that nothing
was done; on an open one the file is cut or filled, and the place of the descriptor stays inside it.
-/
theorem resize_fulfils {a : Staged} (h : Matches a s) (count : Int) :
    Meets allowed (resize count) s fun r s' =>
      Fulfils sys (.resize count) a s (r.map .flag) s' := by
  cases a with
  | idle =>
      refine (resize_closed count h.isOpen).imp fun r s' hr => ?_
      obtain ⟨rfl, rfl⟩ := hr
      exact Closed.fulfils h h.isOpen rfl rfl rfl nofun
  | staging d b o f =>
      obtain ⟨old, mode, hfile, hold⟩ := h.file
      refine (resize_meets count hfile).imp fun r s' hr => ?_
      obtain ⟨rfl, hs'⟩ | ⟨e, rfl, he, hs'⟩ | ⟨e, rfl, he, hs'⟩ | ⟨rfl, hs'⟩ |
        ⟨e, rfl, he, hs'⟩ := hr
      · rw [hs']
        exact h.unchanged rfl rfl rfl nofun
      · have hnext : Staged.next sys (.staging d b o f) (.resize count) (.error e)
            = .staging d b o f := by
          simp [Staged.next, he]
        rw [hs']
        exact h.unchanged hnext rfl rfl nofun
      · have hself : s' = s.rewritten mode old s.output.offset true := by
          rw [hs']
          exact congrArg Save.broke (rewritten_self hfile)
        have hnext : Staged.next sys (.staging d b o f) (.resize count) (.error e)
            = .staging d b o true := by
          simp [Staged.next, he]
        rw [hself]
        exact h.fulfils mode old _ true hnext nofun (fun _ => rfl) rfl rfl nofun
      · rw [hs']
        refine h.fulfils mode _ _ s.output.broken rfl (fun hf => ?_) h.broken rfl rfl nofun
        rw [hold hf, h.offset hf]
        exact ⟨rfl, rfl⟩
      · have hnext : Staged.next sys (.staging d b o f) (.resize count) (.error e)
            = .staging d (resized b count.toNat) o f := by
          simp [Staged.next, he]
        rw [hs']
        refine h.fulfils mode _ _ s.output.broken hnext (fun hf => ?_) h.broken rfl rfl nofun
        rw [hold hf, h.offset hf]
        exact ⟨rfl, rfl⟩

/-- A flush keeps the promise. A failed flush of an open device is remembered as a failed write, and
one of a closed device is an error that changes nothing. -/
theorem flush_fulfils {a : Staged} (h : Matches a s) (durable : Bool) :
    Meets allowed (flush durable) s fun r s' =>
      Fulfils sys (.flush durable) a s (r.map fun _ => .unit) s' := by
  refine (flush_meets durable).imp fun r s' hr => ?_
  cases a with
  | idle =>
      obtain ⟨rfl, hopen, -⟩ | ⟨e, rfl, hopen, -⟩ | ⟨e, rfl, -, rfl⟩ := hr
      · cases h.isOpen.symm.trans hopen
      · cases h.isOpen.symm.trans hopen
      · exact Closed.fulfils h h.isOpen rfl rfl rfl nofun
  | staging d b o f =>
      obtain ⟨rfl, -, hs'⟩ | ⟨e, rfl, -, hs'⟩ | ⟨e, -, hclosed, -⟩ := hr
      · rw [hs']
        exact h.unchanged rfl rfl rfl nofun
      · obtain ⟨old, mode, hfile, hold⟩ := h.file
        have hself : s' = s.rewritten mode old s.output.offset true := by
          rw [hs']
          exact congrArg Save.broke (rewritten_self hfile)
        rw [hself]
        exact h.fulfils mode old _ true rfl nofun (fun _ => rfl) rfl rfl nofun
      · cases h.isOpen.symm.trans hclosed

/-- What is staged does not depend on the permissions that were asked for. -/
theorem Matches.permissions {a : Staged} (h : Matches a s) (permissions : Option Nat) :
    Matches a { s with permissions } := by
  cases a with
  | idle => exact ⟨h.isOpen, h.committed, h.named⟩
  | staging d b o f =>
      exact ⟨h.isOpen, h.live, h.destination, h.stage, h.named, h.apart, h.file, h.offset, h.broken⟩

/-- Setting permissions keeps the promise. The abstract save does not have the permissions, so that
the step changes nothing of it and only the bytes and places have to be seen to stay. -/
theorem setPermissions_fulfils {a : Staged} (h : Matches a s) (platform : Platform) (value : Nat) :
    Meets allowed (setSavePermissions platform value) s fun r s' =>
      Fulfils sys (.setPermissions value) a s (r.map .flag) s' := by
  have hset : Meets allowed (setPermissions platform value) s fun r s' =>
      ∀ r' : Except Exception Bool, Fulfils sys (.setPermissions value) a s (r'.map .flag) s' ∧
        Fulfils sys (.setPermissions value) a s (r'.map .flag)
          { s' with permissions := some value } := by
    have hnext (r : Result) : a.next sys (.setPermissions value) r = a := by
      cases a <;> cases r <;> rfl
    have hflag (r : Except Exception Bool) : Result.isPublished (r.map .flag) = false := by
      cases r <;> rfl
    cases a with
    | idle =>
        refine (setPermissions_closed platform value h.isOpen).imp fun r s' hr r' => ?_
        have hfulfils : Fulfils sys (.setPermissions value) .idle s (r'.map .flag) s' := by
          rw [hr.2]
          exact Closed.fulfils h h.isOpen (hnext _) (hflag _) rfl nofun
        refine ⟨hfulfils, hfulfils.1.permissions _, ?_⟩
        obtain ⟨h₁, h₂, h₃, h₄, h₅, h₆⟩ := hfulfils.2
        exact ⟨h₁, h₂, h₃, h₄, h₅, h₆⟩
    | staging d b o f =>
        obtain ⟨old, mode, hfile, hold⟩ := h.file
        refine (setPermissions_meets platform value hfile).imp fun r s' hr r' => ?_
        obtain ⟨mode', rfl⟩ := hr
        have hfulfils : Fulfils sys (.setPermissions value) (.staging d b o f) s (r'.map .flag)
            (s.rewritten mode' old s.output.offset s.output.broken) :=
          h.fulfils mode' old _ _ (hnext _) (fun hf => ⟨hold hf, h.offset hf⟩) h.broken (hflag _)
            rfl nofun
        refine ⟨hfulfils, hfulfils.1.permissions _, ?_⟩
        obtain ⟨h₁, h₂, h₃, h₄, h₅, h₆⟩ := hfulfils.2
        exact ⟨h₁, h₂, h₃, h₄, h₅, h₆⟩
  refine .bind (hset.imp fun r s' hr => ⟨fun done _ => ?_, fun e _ => (hr (.error e)).1⟩)
  split
  · exact .bind_modify (.pure (hr (.ok true)).2)
  · exact .pure (hr (.ok false)).1

/-- Closing keeps the promise: what is staged is given up. -/
theorem close_fulfils {a : Staged} (h : Matches a s) :
    Meets allowed close s fun r s' => Fulfils sys .close a s (r.map fun _ => .unit) s' := by
  refine close_meets.imp fun r s' hr => ?_
  obtain ⟨broken, rfl⟩ := hr
  have hnext (r : Result) : a.next sys .close r = .idle := by cases a <;> rfl
  have hunit : Result.isPublished (r.map fun _ => .unit) = false := by cases r <;> rfl
  refine ⟨?_, .device hunit rfl nofun rfl (fun _ _ => rfl) fun _ _ => rfl⟩
  rw [hnext]
  cases a with
  | idle => exact ⟨rfl, h.committed, h.named⟩
  | staging d b o f =>
      refine ⟨rfl, fun hcommitted => ?_, fun p hp => ?_⟩
      · cases h.live.symm.trans hcommitted
      · cases h.stage.symm.trans hp
        exact h.named

/-- The disk without the stage is the disk elsewhere. -/
theorem without_ne (h : s.stage ≠ some p) : s.without p = s.disk p := if_neg h

/-- The stage that is held has the name of a stage. -/
theorem Matches.named {a : Staged} (h : Matches a s) (hp : s.stage = some p) : IsStage p := by
  cases a with
  | idle => exact Closed.named h p hp
  | staging d b o f =>
      cases h.stage.symm.trans hp
      exact Holds.named h

/-- A file that is not private is not lost with a stage. -/
theorem Matches.without_public {a : Staged} (h : Matches a s) (hp : ¬ Private p) :
    s.without p = s.disk p :=
  without_ne fun hstage => hp (.inl (h.named hstage))

/-- A call that ends the save leaves nothing staged. -/
theorem next_ends {op : Operation} (a : Staged) (r : Result) (h : op.ends = true) :
    a.next sys op r = .idle := by
  cases op <;> first | (cases a <;> rfl) | cases h

/-- A save that is dropped keeps the promise. -/
theorem Dropped.fulfils {a : Staged} {op : Operation} {r : Result} {s' : Save} (h : Matches a s)
    (hdropped : Dropped s s') (hr : r.isPublished = false) (hends : op.ends = true) :
    Fulfils sys op a s r s' := by
  refine ⟨?_, ?_⟩
  · rw [next_ends a r hends]
    exact hdropped.1.closed
  · exact {
      untouched := fun _ d _ hstage => by rw [hdropped.2, without_ne hstage]
      others := fun q hq _ => by rw [hdropped.2, h.without_public hq]
      published := fun hpublished => by
        rw [hr] at hpublished
        cases hpublished
      removed := fun p hp _ => hdropped.1.gone p hp
      ended := fun _ => hdropped.1.stage
      reverted := fun name e hop => by
        subst hop
        cases hends }

/-- Cancelling keeps the promise. -/
theorem cancel_fulfils {a : Staged} (h : Matches a s) (hremove : Sure allowed .remove) :
    Meets allowed cancel s fun r s' => Fulfils sys .cancel a s (r.map fun _ => .unit) s' := by
  refine .bind_modify ((discard_meets hremove).imp fun r s' hr => ?_)
  obtain ⟨rfl, hdiscarded⟩ := hr
  obtain ⟨⟨hclosed, hstage, hdestination, hgone⟩, hdisk⟩ := hdiscarded.dropped
  exact Dropped.fulfils h ⟨⟨hclosed, hstage, hdestination, hgone⟩, hdisk⟩ rfl rfl

/-- Destroying the save keeps the promise. -/
theorem destroy_fulfils {a : Staged} (h : Matches a s) (hremove : Sure allowed .remove) :
    Meets allowed discard s fun r s' => Fulfils sys .destroy a s (r.map fun _ => .unit) s' := by
  refine (discard_meets hremove).imp fun r s' hr => ?_
  obtain ⟨rfl, hdiscarded⟩ := hr
  exact Dropped.fulfils h hdiscarded.dropped rfl rfl

/-- A commit keeps the promise: it publishes the staged bytes or changes nothing but its stage. -/
theorem commit_fulfils {a : Staged} (h : Matches a s) (hremove : Sure allowed .remove)
    (hunlink : sys.platform = .posix → Sure allowed .unlink)
    (hprobe : ∀ p d, s.stage = some p → s.destination = some d → permissionProbe p = d →
      Sure allowed .removeProbe) (overwrite : Bool) :
    Meets allowed (commit sys overwrite) s fun r s' =>
      Fulfils sys (.commit overwrite) a s (r.map .published) s' := by
  cases a with
  | idle =>
      refine (commit_closed hremove h overwrite).imp fun r s' hr => ?_
      obtain ⟨result, rfl, hresult, hdropped⟩ := hr
      exact Dropped.fulfils h hdropped hresult rfl
  | staging d b o f =>
      refine (commit_meets hremove h hunlink (hprobe _ d h.stage h.destination) overwrite).imp
        fun r s' hr => ?_
      obtain ⟨result, rfl, ⟨hended, hcommits⟩, hlive⟩ := hr
      refine ⟨hended.closed, ?_⟩
      obtain ⟨hresult, ⟨mode, hd⟩, hover, hothers⟩ | ⟨hresult, halike⟩ := hcommits
      · exact {
          untouched := fun hr => by cases hresult.symm.trans hr
          others := fun q hq hne => by
            refine hothers q (fun heq => hne hresult ?_) fun hstage => hq (.inl hstage)
            rw [heq]
            exact h.destination
          published := fun _ => by
            cases hlive hresult
            exact ⟨overwrite, d, b, o, mode, rfl, rfl, h.destination, hd, hover⟩
          removed := fun p hp _ => hended.gone p hp
          ended := fun _ => hended.stage
          reverted := nofun }
      · exact {
          untouched := fun _ d' hd' _ => by
            cases h.destination.symm.trans (hended.destination.symm.trans hd')
            exact halike.1
          others := fun q hq _ => halike.2 q fun hstage => hq (.inl hstage)
          published := fun hr => by cases hresult.symm.trans hr
          removed := fun p hp _ => hended.gone p hp
          ended := fun _ => hended.stage
          reverted := nofun }

/-- An opening keeps the promise, whether it reaches its lease or fails before. An opening that is
refused since the device is open leaves everything, and every later failure leaves a save without a
destination or a lease. -/
theorem Opened.fulfils {a : Staged} {name : Bytes} {r : Except Exception Unit} {s' : Save}
    (hr : Opened sys name s r s') (h : Matches a s) :
    Fulfils sys (.open name) a s (r.map fun _ => .unit) s' := by
  obtain ⟨rfl, -, rfl⟩ | ⟨hclosed, hr⟩ := hr
  · have hnext : a.next sys (.open name) (.error alreadyOpen) = a := by
      cases a <;> simp [Staged.next]
    refine ⟨?_, ?_⟩
    · show Matches (a.next sys (.open name) (.error alreadyOpen)) s'
      rw [hnext]
      exact h
    · exact ⟨fun _ _ _ _ => rfl, fun _ _ _ => rfl, nofun, fun _ hp hne => absurd hp hne, nofun,
        fun _ _ _ _ _ _ _ => rfl⟩
  cases a with
  | staging d b o f => cases h.isOpen.symm.trans hclosed
  | idle =>
      obtain ⟨e, rfl, hclosed', hstage', hreverted⟩ |
        ⟨d, rfl, hd, hholds, hapart, disk, hleased, hdisk⟩ := hr
      · have hnext : Staged.next sys .idle (.open name) (.error e) = .idle := by
          simp [Staged.next]
        -- Away from the lock file, the disk is that without the old stage.
        have hsame : ∀ q, (∀ d, sys.checked name = .ok d → s.without q = .absent →
            q ≠ sentinel d.directory) → s'.disk q = s.without q := by
          intro q hq
          obtain hdisk | ⟨d, hd, -, -, hleased⟩ := hreverted
          · rw [hdisk]
          · exact hleased.same (hq d hd)
        refine ⟨?_, ?_⟩
        · show Matches (Staged.next sys .idle (.open name) (.error e)) s'
          rw [hnext]
          exact hclosed'
        · exact {
            untouched := fun _ d hd' hstage => by
              rw [← without_ne hstage]
              obtain hdisk | ⟨d', hd, hnew, hapart, hleased⟩ := hreverted
              · rw [hdisk]
              · cases hd'.symm.trans hnew
                exact hleased.same hapart
            others := fun q hq _ => by
              rw [← h.without_public hq]
              exact hsame q fun d _ _ heq => hq (.inr ⟨_, heq⟩)
            published := nofun
            removed := fun p hp _ => by
              refine (hsame p fun d _ _ heq => ?_).trans (if_pos hp)
              exact not_isStage_sentinel d.directory (heq ▸ h.named hp)
            ended := nofun
            reverted := fun name' e' hop _ q hstage hq => by
              cases hop
              rw [← without_ne hstage]
              exact hsame q fun d hd _ => hq d hd }
      · have hnext : Staged.next sys .idle (.open name) (.ok .unit) = .staging d [] 0 false := by
          simp [Staged.next, hd]
        refine ⟨?_, ?_⟩
        · show Matches (Staged.next sys .idle (.open name) (.ok .unit)) s'
          rw [hnext]
          exact hholds
        · exact {
            untouched := fun _ d' hd' hstage => by
              cases hholds.destination.symm.trans hd'
              rw [hdisk, Disk.put_ne hholds.apart.symm, ← without_ne hstage]
              exact hleased.same hapart
            others := fun q hq _ => by
              have hne : q ≠ s'.output.path := by
                rintro rfl
                exact hq (.inl hholds.named)
              rw [hdisk, Disk.put_ne hne, ← h.without_public hq]
              exact hleased.same fun _ heq => hq (.inr ⟨_, heq⟩)
            published := nofun
            removed := fun p hp hne => by
              have hne' : p ≠ s'.output.path := fun heq => hne (by rw [heq]; exact hholds.stage)
              rw [hdisk, Disk.put_ne hne']
              refine (hleased.same fun _ heq => ?_).trans (if_pos hp)
              exact not_isStage_sentinel d.directory (heq ▸ h.named hp)
            ended := nofun
            reverted := nofun }

/-! ## Runs -/

/-- What a step is spared: a stage or a probe that cannot be removed, a temporary file that cannot
be inspected once it is there, a link that cannot be undone, and, where an opening reaches its
lease, private names that are the destination's. -/
structure Spared (sys : System) (w : World) (e : Event) : Prop where
  remove : Sure (· ∈ e.answers) .remove
  created : Sound (· ∈ e.answers)
  unlink : sys.platform = .posix → Sure (· ∈ e.answers) .unlink
  probe : ∀ p d, w.save.stage = some p → w.save.destination = some d → permissionProbe p = d →
    Sure (· ∈ e.answers) .removeProbe
  apart : ∀ name d s rest, e.operation = .open name →
    reachLease sys name w.save e.answers = (.ok d, s, rest) →
      Apart (· ∈ e.answers) w.save.without d

/-- What holds of every world. -/
structure World.Invariant (w : World) : Prop where
  knows : Matches w.staged w.save
  dead : w.alive = false → w.save.stage = none

/-- The invariant holds before the first call. -/
theorem World.invariant_start (disk : Disk) : (World.start disk).Invariant where
  knows := ⟨rfl, nofun, nofun⟩
  dead _ := rfl

/-- Constructing a save keeps the promise. -/
theorem construct_fulfils {a : Staged} (hstage : s.stage = none) :
    Fulfils sys .construct a s (.ok .unit) (.constructed s.disk) := by
  have hnext : a.next sys .construct (.ok .unit) = .idle := by cases a <;> rfl
  refine ⟨?_, nofun, fun _ _ _ => rfl, nofun, fun p hp => ?_, nofun, nofun⟩
  · rw [hnext]
    exact ⟨rfl, nofun, nofun⟩
  · cases hstage.symm.trans hp

/-- Each operation keeps the promise where its answers are spared; one case for each operation. What
holds after the operation is taken from its own lemma, and the invariant of the world gives the
abstract save that the lemma starts from. -/
theorem perform_fulfils {w : World} {e : Event} (hw : w.Invariant) (hspared : Spared sys w e)
    (hdead : e.operation = .construct → w.alive = false) :
    Fulfils sys e.operation w.staged w.save (perform sys e.operation w.save e.answers).1
      (perform sys e.operation w.save e.answers).2.1 := by
  have hknows := hw.knows
  -- The answers of the step are the only ones that matter.
  have hgiven {Q : Result → Save → Prop}
      (h : Meets (· ∈ e.answers) (perform sys e.operation) w.save Q) :
      Q (perform sys e.operation w.save e.answers).1
        (perform sys e.operation w.save e.answers).2.1 :=
    (h e.answers fun _ ha => ha).1
  cases hop : e.operation with
  | «open» name =>
      show Fulfils _ _ _ _ ((openSave sys name >>= fun _ => pure Value.unit) w.save e.answers).1
        ((openSave sys name >>= fun _ => pure Value.unit) w.save e.answers).2.1
      rw [value_run]
      have hopened := openSave_given hspared.created hspared.remove name
        (fun _ ha => ha) fun d s' rest hreached => hspared.apart name d s' rest hop hreached
      exact hopened.fulfils hknows
  | construct =>
      rw [hop] at hgiven
      exact hgiven (.bind_modify (.pure (construct_fulfils (hw.dead (hdead hop)))))
  | write bytes =>
      rw [hop] at hgiven
      exact hgiven (value_meets (write_fulfils hknows bytes))
  | seek offset =>
      rw [hop] at hgiven
      exact hgiven (value_meets (seek_fulfils hknows offset))
  | resize count =>
      rw [hop] at hgiven
      exact hgiven (value_meets (resize_fulfils hknows count))
  | flush durable =>
      rw [hop] at hgiven
      exact hgiven (value_meets (flush_fulfils hknows durable))
  | close =>
      rw [hop] at hgiven
      exact hgiven (value_meets (close_fulfils hknows))
  | setPermissions value =>
      rw [hop] at hgiven
      exact hgiven (value_meets (setPermissions_fulfils hknows sys.platform value))
  | cancel =>
      rw [hop] at hgiven
      exact hgiven (value_meets (cancel_fulfils hknows hspared.remove))
  | commit overwrite =>
      rw [hop] at hgiven
      exact hgiven (value_meets
        (commit_fulfils hknows hspared.remove hspared.unlink hspared.probe overwrite))
  | destroy =>
      rw [hop] at hgiven
      exact hgiven (value_meets (destroy_fulfils hknows hspared.remove))

/-- Each step keeps the promise and the invariant. -/
theorem Step.fulfils {w w' : World} {e : Event} (hw : w.Invariant) (hspared : Spared sys w e)
    (h : Step sys w e w') :
    w'.Invariant ∧ Promise sys e.operation w.staged w.save w'.result w'.save := by
  unfold Step World.step at h
  split at h
  · cases h
  · next hgo =>
      have hdead : e.operation = .construct → w.alive = false := by
        intro hop
        rw [hop] at hgo
        simpa using hgo
      have hfulfils := perform_fulfils hw hspared hdead
      cases h
      refine ⟨⟨hfulfils.1, fun hdestroyed => hfulfils.2.ended ?_⟩, hfulfils.2⟩
      simp only [ne_eq, decide_not, Bool.not_eq_false', decide_eq_true_eq] at hdestroyed
      rw [hdestroyed]
      rfl

/-- **A save publishes all or nothing.** In every run of any operations, with any answers of the
system that spare the save (`Spared`), the next step keeps its promise: only a commit that succeeds
changes the destination, to exactly the bytes that were staged and, where overwriting is not
allowed, only where nothing was; no other file changes, and a stage that is given up is removed. -/
theorem publishes_all_or_nothing (sys : System) (disk : Disk) (events : List Event) (w : World)
    (h : Run (fun w e w' => Spared sys w e ∧ Step sys w e w') (.start disk) events w) (e : Event)
    (w' : World) (hspared : Spared sys w e) (hstep : Step sys w e w') :
    Promise sys e.operation w.staged w.save w'.result w'.save :=
  (hstep.fulfils (h.invariant (fun hw hs => (hs.2.fulfils hw hs.1).1) (World.invariant_start disk))
    hspared).2

/-- A system with one directory. -/
def sampleSystem (platform : Platform) : System :=
  ⟨platform, 0o022, fun name => .ok ⟨ascii "/d", name⟩⟩

def sampleFile : FilePath := ⟨ascii "/d", ascii "a.txt"⟩

def sampleDisk : Disk := fun p => if p = sampleFile then .file (ascii "old") 0o644 else .absent

/-- A file is opened and written. -/
def sampleEvents : List Event :=
  [⟨.construct, []⟩, ⟨.open (ascii "a.txt"), [⟨.random, .bits 1 2 3⟩]⟩, ⟨.write (ascii "new"), []⟩]

/-- The calls of the sample meet the condition on every platform. -/
theorem sampleEvents_spared {platform : Platform} {w : World} {e : Event} (he : e ∈ sampleEvents) :
    Spared (sampleSystem platform) w e := by
  have hsure : ∀ call error, (⟨call, .failed error⟩ : Answer) ∉ e.answers := by
    intro call error
    simp only [sampleEvents, List.mem_cons, List.not_mem_nil, or_false] at he
    obtain rfl | rfl | rfl := he <;> simp
  refine ⟨hsure _, ⟨hsure _, hsure _, hsure _, hsure _⟩, fun _ => hsure _, fun _ _ _ _ _ => hsure _,
    fun name d s rest hop hreached _ => ?_⟩
  have he' : e = ⟨.open (ascii "a.txt"), [⟨.random, .bits 1 2 3⟩]⟩ := by
    simp only [sampleEvents, List.mem_cons, List.not_mem_nil, or_false] at he
    obtain rfl | rfl | rfl := he
    · cases hop
    · rfl
    · cases hop
  subst he'
  cases hop
  cases checked_of_reachLease (hsure .remove) (fun _ ha => ha) hreached
  refine ⟨by decide, ?_⟩
  rintro p ⟨a, b, c, hdrawn, rfl⟩
  cases List.mem_singleton.1 hdrawn
  decide +kernel

/-- The save of a file that is there: it is opened, written and committed, and each step keeps its
promise on every platform. -/
theorem publishes_all_or_nothing_sample : ∃ w w',
    Run (Step (sampleSystem .linux)) (.start sampleDisk) sampleEvents w ∧
      Step (sampleSystem .linux) w ⟨.commit true, []⟩ w' ∧
      Promise (sampleSystem .linux) (.commit true) w.staged w.save w'.result w'.save := by
  have hsome : (sampleEvents.foldlM (World.step (sampleSystem .linux)) (.start sampleDisk)).any
      (fun w => decide ((w.step (sampleSystem .linux) ⟨.commit true, []⟩).isSome)) = true := by
    decide +kernel
  obtain ⟨w, hrun, hcommit⟩ := Run.of_any hsome
  obtain ⟨w', hstep⟩ := Option.isSome_iff_exists.1 hcommit
  refine ⟨w, w', hrun, hstep, ?_⟩
  refine publishes_all_or_nothing _ sampleDisk sampleEvents w
    (hrun.imp fun he hs => ⟨sampleEvents_spared he, hs⟩) ⟨.commit true, []⟩ w' ?_ hstep
  have hsure : ∀ call error, (⟨call, .failed error⟩ : Answer) ∉ ([] : List Answer) := by simp
  exact ⟨hsure _, ⟨hsure _, hsure _, hsure _, hsure _⟩, nofun, fun _ _ _ _ _ => hsure _, nofun⟩

/-- A link that cannot be undone is left, though the commit reports a failure: the removal of the
stage fails after the link has made the file. -/
theorem link_left : ¬ ∀ sys disk events w, Run (Step sys) (.start disk) events w →
    ∀ e w', Step sys w e w' → Promise sys e.operation w.staged w.save w'.result w'.save := by
  intro h
  have hleft :
      (sampleEvents.foldlM (World.step (sampleSystem .posix)) (.start fun _ => .absent)).any
      (fun w => decide ((w.step (sampleSystem .posix)
        ⟨.commit false, [⟨.unlink, .failed ⟨.other, "Input/output error"⟩⟩]⟩).any (fun w' =>
          decide (w'.result.isPublished = false ∧ w'.save.destination = some sampleFile ∧
            w.save.stage ≠ some sampleFile ∧
            w'.save.disk sampleFile ≠ w.save.disk sampleFile)) = true)) = true := by
    decide +kernel
  obtain ⟨w, hrun, hany⟩ := Run.of_any hleft
  obtain ⟨w', hstep, hw'⟩ := (Option.any_eq_true ..).1 hany
  obtain ⟨hresult, hdestination, hstage, hdisk⟩ := of_decide_eq_true hw'
  exact hdisk ((h _ _ _ w hrun _ w' hstep).untouched hresult sampleFile hdestination hstage)

end Filesystem

end FileProvider
