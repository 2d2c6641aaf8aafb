import FileProvider.Filesystem.AtomicSave

/-!
# What the calls of a device come to

One lemma for each function of the device: the state it ends in, whatever calls of the system fail.

Each lemma gives the whole state at the end, for a call that returns and for one that throws, and
the cases follow the answers of the system in the order in which they are asked for. What a function
leaves alone is part of the state it ends in, so no separate lemmas about the rest are needed.
-/

namespace FileProvider

open Bytes Program

namespace Filesystem

variable {allowed : Answer → Prop} {s : Save} {β γ : Type}

/-- The device is broken. -/
def Save.broke (s : Save) : Save := { s with output := { s.output with broken := true } }

/-! ## Calls of the system -/

/-- A call is answered by one of the answers or is done, and uses up no other. -/
theorem mem_answered (call : Syscall) (l : List Answer) :
    ((answered call l).1 = .done ∨ ⟨call, (answered call l).1⟩ ∈ l) ∧
      ∀ a ∈ (answered call l).2, a ∈ l := by
  unfold answered
  split
  · exact ⟨.inl rfl, fun _ h => h⟩
  · next a rest =>
      split
      · next hcall =>
          subst hcall
          exact ⟨.inr List.mem_cons_self, fun _ h => List.mem_cons_of_mem _ h⟩
      · exact ⟨.inl rfl, fun _ h => h⟩

/-- Why a call fails. -/
def Fails (allowed : Answer → Prop) (call : Syscall)
    (effect : Reply → Save → Except SystemError (β × Save)) (s : Save) (e : SystemError) : Prop :=
  allowed ⟨call, .failed e⟩ ∨ ∃ reply, effect reply s = .error e

/-- The rule of calls of the system. -/
theorem system_meets {call : Syscall} {effect : Reply → Save → Except SystemError (β × Save)}
    {Q : Except Exception (Except SystemError β) → Save → Prop}
    (hfail : ∀ e, Fails allowed call effect s e → Q (.ok (.error e)) s)
    (hok : ∀ reply b s', (reply = .done ∨ allowed ⟨call, reply⟩) → effect reply s = .ok (b, s') →
      Q (.ok (.ok b)) s') :
    Meets allowed (system call effect) s Q := by
  intro l hl
  obtain ⟨hreply, hrest⟩ := mem_answered call l
  refine ⟨?_, fun a ha => hl a (hrest a ha)⟩
  have hallowed : (answered call l).1 = .done ∨ allowed ⟨call, (answered call l).1⟩ :=
    hreply.imp_right (hl _)
  unfold system settled
  dsimp only
  generalize (answered call l).1 = reply at hallowed
  split
  · next e => exact hfail e (.inl (hallowed.resolve_left nofun))
  · cases heffect : effect reply s with
    | ok r => exact hok reply r.1 r.2 hallowed heffect
    | error e => exact hfail e (.inr ⟨reply, heffect⟩)

/-- The rule of calls that change nothing. -/
theorem plain_meets {call : Syscall} {Q : Except Exception (Except SystemError Unit) → Save → Prop}
    (hfail : ∀ e, allowed ⟨call, .failed e⟩ → Q (.ok (.error e)) s) (hok : Q (.ok (.ok ())) s) :
    Meets allowed (plain call) s Q := by
  refine system_meets (fun e he => hfail e ?_) fun _ _ _ _ heffect => ?_
  · obtain he | ⟨_, heffect⟩ := he
    · exact he
    · cases heffect
  · cases heffect
    exact hok

/-- The rule of a call whose error is thrown. -/
theorem bind_throw {call : Syscall} {effect : Reply → Save → Except SystemError (β × Save)}
    {exception : SystemError → Exception} {f : β → Call γ} {Q : Except Exception γ → Save → Prop}
    (hfail : ∀ e, Fails allowed call effect s e → Q (.error (exception e)) s)
    (hok : ∀ reply b s', (reply = .done ∨ allowed ⟨call, reply⟩) → effect reply s = .ok (b, s') →
      Meets allowed (f b) s' Q) :
    Meets allowed (system call effect >>= fun r => orThrow exception r >>= f) s Q := by
  refine .bind (system_meets (fun e he => ⟨?_, nofun⟩) fun reply b s' hr heffect => ⟨?_, nofun⟩)
  · intro r hr
    cases hr
    exact .bind (.fail ⟨nofun, fun e' he' => by cases he'; exact hfail e he⟩)
  · intro r hr'
    cases hr'
    exact hok reply b s' hr heffect

/-- A call that comes last. -/
theorem throw_meets {call : Syscall} {effect : Reply → Save → Except SystemError (β × Save)}
    {exception : SystemError → Exception} {Q : Except Exception β → Save → Prop}
    (hfail : ∀ e, Fails allowed call effect s e → Q (.error (exception e)) s)
    (hok : ∀ reply b s', (reply = .done ∨ allowed ⟨call, reply⟩) → effect reply s = .ok (b, s') →
      Q (.ok b) s') :
    Meets allowed (system call effect >>= orThrow exception) s Q := by
  refine .bind (system_meets (fun e he => ⟨?_, nofun⟩) fun reply b s' hr heffect => ⟨?_, nofun⟩)
  · intro r hr
    cases hr
    exact .fail (hfail e he)
  · intro r hr'
    cases hr'
    exact .pure (hok reply b s' hr heffect)

/-- The rule of a call whose failure breaks the device. -/
theorem orBreak_meets {operation : String} {r : Except SystemError β} {f : β → Call γ}
    {Q : Except Exception γ → Save → Prop}
    (hfail : ∀ e, r = .error e → Q (.error (ioError operation e)) s.broke)
    (hok : ∀ b, r = .ok b → Meets allowed (f b) s Q) :
    Meets allowed (orBreak operation r >>= f) s Q := by
  cases r with
  | ok b => exact hok b rfl
  | error e =>
      refine .bind (.bind_modify (.fail ⟨nofun, fun e' he' => ?_⟩))
      cases he'
      exact hfail e rfl

/-! ## Bytes -/

@[simp] theorem splice_nil (old : Bytes) (offset : Nat) : splice old offset [] = old := if_pos rfl

/-- Writing behind the end fills the gap with zeros. -/
theorem splice_of_ne_nil {old : Bytes} {offset : Nat} {bytes : Bytes} (h : bytes ≠ []) :
    splice old offset bytes = (old ++ List.replicate (offset - old.length) 0).take offset ++ bytes
      ++ old.drop (offset + bytes.length) := if_neg h

/-- Bytes written one after another. Either of them may be empty, where the splice does not even
extend the file, and otherwise the offsets add up. -/
theorem splice_splice (old : Bytes) (offset : Nat) (x y : Bytes) :
    splice (splice old offset x) (offset + x.length) y = splice old offset (x ++ y) := by
  by_cases hx : x = []
  · subst hx
    rw [splice_nil, List.length_nil, Nat.add_zero, List.nil_append]
  by_cases hy : y = []
  · subst hy
    rw [splice_nil, List.append_nil]
  have hlength : ((old ++ List.replicate (offset - old.length) 0).take offset).length = offset := by
    rw [List.length_take, List.length_append, List.length_replicate]
    omega
  rw [splice_of_ne_nil hy, splice_of_ne_nil hx,
    splice_of_ne_nil (fun h => hx (List.append_eq_nil_iff.1 h).1)]
  generalize (old ++ List.replicate (offset - old.length) 0).take offset = front at hlength ⊢
  have hzeros : offset + x.length - (front ++ x ++ old.drop (offset + x.length)).length = 0 := by
    rw [List.length_append, List.length_append]
    omega
  rw [hzeros, List.replicate_zero, List.append_nil]
  have htake : (front ++ x ++ old.drop (offset + x.length)).take (offset + x.length)
      = front ++ x := by
    rw [List.take_append_of_le_length (by rw [List.length_append]; omega),
      List.take_of_length_le (by rw [List.length_append]; omega)]
  have hdrop : (front ++ x ++ old.drop (offset + x.length)).drop (offset + x.length + y.length)
      = old.drop (offset + (x ++ y).length) := by
    rw [List.drop_append, List.drop_of_length_le (by rw [List.length_append]; omega),
      List.nil_append, List.drop_drop, List.length_append, List.length_append]
    congr 1
    omega
  rw [htake, hdrop, List.append_assoc front]

/-! ## The open file -/

/-- Putting what is there changes nothing. -/
theorem Disk.put_eq_self {d : Disk} {p : FilePath} {n : Node} (h : d p = n) : d.put p n = d := by
  funext q
  unfold Disk.put
  split
  · next hq => rw [hq, h]
  · rfl

/-- The open file with other bytes, and the descriptor at another place. -/
def Save.written (s : Save) (mode : Nat) (bytes : Bytes) (offset : Nat) : Save :=
  { s with
    disk := s.disk.put s.output.path (.file bytes mode)
    output := { s.output with offset } }

@[simp] theorem Save.written_written (s : Save) (mode mode' : Nat) (b b' : Bytes) (o o' : Nat) :
    (s.written mode b o).written mode' b' o' = s.written mode' b' o' := by
  simp [Save.written]

/-- Writing what the output holds changes nothing. -/
theorem Save.written_self {mode : Nat} {bytes : Bytes}
    (h : s.disk s.output.path = .file bytes mode) : s.written mode bytes s.output.offset = s := by
  unfold Save.written
  rw [Disk.put_eq_self h]

/-- Storing bytes rewrites the file of the output. -/
theorem Save.store_eq {mode : Nat} {old : Bytes} (h : s.disk s.output.path = .file old mode)
    (f : Bytes → Nat → Bytes) (offset : Nat) :
    s.store f offset = s.written mode (f old s.output.offset) offset := by
  unfold Save.store
  rw [h]
  rfl

/-- Setting permissions rewrites the file of the output with another mode. -/
theorem Save.chmod_eq {mode : Nat} {old : Bytes} (h : s.disk s.output.path = .file old mode)
    (perms : Nat) : s.chmod s.output.path perms = s.written perms old s.output.offset := by
  unfold Save.chmod
  rw [h]
  rfl

/-! ## The functions of `Device` -/

/-- The descriptor is gone. -/
def Shut (s s' : Save) : Prop :=
  ∃ broken, s' = { s with output := { s.output with isOpen := false, broken } }

/-- Closing shuts the output, whatever the answer. -/
theorem close_meets : Meets allowed close s fun _ s' => Shut s s' := by
  refine .bind_state ?_
  split
  · refine .bind (plain_meets (fun e _ => ⟨fun r hr => ?_, nofun⟩) ⟨fun r hr => ?_, nofun⟩)
    · cases hr
      exact .bind_modify (.bind_modify (.fail ⟨true, rfl⟩))
    · cases hr
      exact .bind_modify (.pure ⟨s.output.broken, rfl⟩)
  · next h =>
      have hclosed : s.output.isOpen = false := Bool.eq_false_iff.2 h
      refine .pure ⟨s.output.broken, ?_⟩
      rw [← hclosed]

/-- One call of `write` writes a first part of the bytes, or fails without an effect. The number in
a short reply decides how many bytes were stored, and any other answer stores all of them. -/
theorem writePart_meets {old : Bytes} {mode : Nat} (bytes : Bytes)
    (h : s.disk s.output.path = .file old mode) :
    Meets allowed (writePart bytes) s fun r s' =>
      (∃ e, r = .ok (.error e) ∧ s' = s) ∨
      ∃ part rest, bytes = part ++ rest ∧ r = .ok (.ok part.length) ∧
        s' = s.written mode (splice old s.output.offset part) (s.output.offset + part.length) := by
  refine system_meets (fun e _ => .inl ⟨e, rfl, rfl⟩) fun reply done s' _ heffect => ?_
  have hstore (part : Bytes) := s.store_eq h (fun old offset => splice old offset part)
    (s.output.offset + part.length)
  have hpart : ∃ part rest, bytes = part ++ rest ∧ (done, s') = (part.length,
      s.written mode (splice old s.output.offset part) (s.output.offset + part.length)) := by
    cases reply with
    | count n =>
        refine ⟨bytes.take n, bytes.drop n, (List.take_append_drop n bytes).symm, ?_⟩
        rw [← hstore]
        exact (Except.ok.inj heffect).symm
    | _ =>
        refine ⟨bytes, [], (List.append_nil _).symm, ?_⟩
        rw [← hstore]
        exact (Except.ok.inj heffect).symm
  obtain ⟨part, rest, hbytes, hdone⟩ := hpart
  cases hdone
  exact .inr ⟨part, rest, hbytes, rfl, rfl⟩

/-- The loop of writes writes all bytes or breaks the device, by induction on its fuel. Each turn
writes a first part, so that a fuel of the number of bytes is enough; an error in a turn breaks the
device and keeps what was written. -/
theorem writeParts_meets {fuel : Nat} {bytes old : Bytes} {mode : Nat} (hfuel : bytes.length ≤ fuel)
    (h : s.disk s.output.path = .file old mode) :
    Meets allowed (writeParts fuel bytes) s fun r s' =>
      r = .ok () ∧ s' = s.written mode (splice old s.output.offset bytes)
        (s.output.offset + bytes.length) ∨
      ∃ e old' o', r = .error e ∧ s' = (s.written mode old' o').broke := by
  induction fuel generalizing bytes old s with
  | zero =>
      cases List.length_eq_zero_iff.1 (Nat.le_zero.1 hfuel)
      exact .pure (.inl ⟨rfl, by rw [splice_nil, List.length_nil, Nat.add_zero, s.written_self h]⟩)
  | succ fuel ih =>
      unfold writeParts
      split
      · next hnil =>
          subst hnil
          exact .pure (.inl ⟨rfl, by rw [splice_nil, List.length_nil, Nat.add_zero,
            s.written_self h]⟩)
      · next hne =>
          refine .bind ((writePart_meets (bytes.take (2 ^ 31 - 1)) h).imp fun r s' hr => ?_)
          obtain ⟨e, rfl, hs'⟩ | ⟨part, rest, hpart, rfl, rfl⟩ := hr
          · rw [hs']
            refine ⟨fun r hr => ?_, nofun⟩
            cases hr
            refine orBreak_meets (fun e' _ => .inr ⟨_, old, s.output.offset, rfl, ?_⟩) nofun
            rw [s.written_self h]
          · refine ⟨fun r hr => ?_, nofun⟩
            cases hr
            refine orBreak_meets nofun fun done hdone => ?_
            cases hdone
            -- What has been taken is the front of what is left.
            have hbytes : bytes = part ++ bytes.drop part.length := by
              have hfront : part = bytes.take part.length := by
                have := congrArg (List.take part.length) hpart
                rw [List.take_left, List.take_take] at this
                have hle : part.length ≤ 2 ^ 31 - 1 := by
                  have := congrArg List.length hpart
                  rw [List.length_take, List.length_append] at this
                  omega
                rw [Nat.min_eq_left hle] at this
                exact this.symm
              conv_lhs => rw [← List.take_append_drop part.length bytes, ← hfront]
            split
            · refine .bind_modify (.fail (.inr ⟨_, _, _, rfl, rfl⟩))
            · next hsome =>
                have hrest : (bytes.drop part.length).length ≤ fuel := by
                  rw [List.length_drop]
                  omega
                refine (ih hrest (s.disk.put_self _ _)).imp fun r s' hr => ?_
                obtain ⟨rfl, rfl⟩ | ⟨e, old', o', rfl, rfl⟩ := hr
                · refine .inl ⟨rfl, ?_⟩
                  rw [s.written_written]
                  conv_rhs => rw [hbytes, ← splice_splice, List.length_append, ← Nat.add_assoc]
                  rfl
                · exact .inr ⟨e, old', o', rfl, by rw [s.written_written]⟩

/-- A write to an open device writes all bytes or breaks the device. -/
theorem write_meets {old : Bytes} {mode : Nat} (bytes : Bytes) (hopen : s.output.isOpen = true)
    (h : s.disk s.output.path = .file old mode) :
    Meets allowed (write bytes) s fun r s' =>
      r = .ok bytes.length ∧ s' = s.written mode (splice old s.output.offset bytes)
        (s.output.offset + bytes.length) ∨
      ∃ e old' o', r = .error e ∧ s' = (s.written mode old' o').broke := by
  refine .bind_state ?_
  rw [if_pos hopen]
  refine .bind ((writeParts_meets le_rfl h).imp fun r s' hr => ?_)
  obtain ⟨rfl, rfl⟩ | ⟨e, old', o', rfl, rfl⟩ := hr
  · exact ⟨fun _ _ => .pure (.inl ⟨rfl, rfl⟩), nofun⟩
  · exact ⟨nofun, fun e' he' => .inr ⟨e', old', o', rfl, rfl⟩⟩

/-- A write to a closed device throws. -/
theorem write_closed (bytes : Bytes) (hopen : s.output.isOpen = false) :
    Meets allowed (write bytes) s fun r s' => (∃ e, r = .error e) ∧ s' = s.broke := by
  refine .bind_state ?_
  rw [if_neg (by rw [hopen]; decide)]
  exact .bind_modify (.fail ⟨⟨_, rfl⟩, rfl⟩)

/-- The descriptor is at another place. -/
def Save.at (s : Save) (offset : Nat) : Save := { s with output := { s.output with offset } }

/-- Seeking moves the offset of an open device, or does nothing. -/
theorem seek_meets (offset : Int) :
    Meets allowed (seek offset) s fun r s' =>
      (r = .ok false ∧ s' = s ∧ (s.output.isOpen = false ∨ offset < 0)) ∨
      (r = .ok true ∧ s' = s.at offset.toNat) ∨
      ∃ e, r = .error e ∧ e.operation = "Seek file" ∧ s' = s := by
  refine .bind_state ?_
  split
  · next h => exact .pure (.inl ⟨rfl, rfl, h⟩)
  · refine bind_throw (fun e _ => .inr (.inr ⟨_, rfl, rfl, rfl⟩)) fun _ _ s' _ heffect => ?_
    cases heffect
    exact .pure (.inr (.inl ⟨rfl, rfl⟩))

/-- Asking for the position changes nothing. -/
theorem pos_meets : Meets allowed pos s fun r s' => s' = s ∧
    (r = .ok s.output.offset ∨ ∃ e, r = .error e ∧ e.operation = "File position") := by
  refine throw_meets (fun e _ => ⟨rfl, .inr ⟨_, rfl, rfl⟩⟩) fun _ _ s' _ heffect => ?_
  cases heffect
  exact ⟨rfl, .inl rfl⟩

/-- Resizing cuts or extends the file and moves the offset within it, or breaks the device where it
throws. -/
theorem resize_meets {old : Bytes} {mode : Nat} (count : Int)
    (h : s.disk s.output.path = .file old mode) :
    Meets allowed (resize count) s fun r s' =>
      (r = .ok false ∧ s' = s) ∨
      (∃ e, r = .error e ∧ e.operation = "File position" ∧ s' = s) ∨
      (∃ e, r = .error e ∧ e.operation = "Resize file" ∧ s' = s.broke) ∨
      (r = .ok true ∧ s' = s.written mode (resized old count.toNat)
        (min s.output.offset count.toNat)) ∨
      ∃ e, r = .error e ∧ e.operation = "Seek file" ∧
        s' = s.written mode (resized old count.toNat) s.output.offset := by
  refine .bind_state ?_
  split
  · exact .pure (.inl ⟨rfl, rfl⟩)
  · next hgo =>
      rw [not_or, Bool.not_eq_false] at hgo
      refine .bind (pos_meets.imp fun r s' hr => ?_)
      obtain ⟨hs', rfl | ⟨e, rfl, he⟩⟩ := hr
      · rw [hs']
        refine ⟨fun before hbefore => ?_, nofun⟩
        cases hbefore
        refine .bind (system_meets (fun e _ => ⟨fun r hr => ?_, nofun⟩)
          fun _ _ s' _ heffect => ⟨fun r hr => ?_, nofun⟩)
        · cases hr
          exact orBreak_meets (fun e' _ => .inr (.inr (.inl ⟨_, rfl, rfl, rfl⟩))) nofun
        · cases hr
          cases heffect
          rw [s.store_eq h]
          refine orBreak_meets nofun fun _ _ => (seek_meets _).imp fun r s' hr => ?_
          obtain ⟨_, _, hclosed | hbefore⟩ | ⟨rfl, rfl⟩ | ⟨e, rfl, he, rfl⟩ := hr
          · cases hgo.1.symm.trans hclosed
          · omega
          · refine .inr (.inr (.inr (.inl ⟨rfl, ?_⟩)))
            have hmin : (min (s.output.offset : Int) count).toNat
                = min s.output.offset count.toNat := by omega
            rw [hmin]
            rfl
          · exact .inr (.inr (.inr (.inr ⟨e, rfl, he, rfl⟩)))
      · rw [hs']
        exact ⟨nofun, fun e' he' => by cases he'; exact .inr (.inl ⟨_, rfl, he, rfl⟩)⟩

/-- A closed device is not resized. -/
theorem resize_closed (count : Int) (hopen : s.output.isOpen = false) :
    Meets allowed (resize count) s fun r s' => r = .ok false ∧ s' = s := by
  refine .bind_state ?_
  rw [if_pos (.inl hopen)]
  exact .pure ⟨rfl, rfl⟩

/-- Flushing changes nothing but the mark of a broken device. -/
theorem flush_meets (durable : Bool) :
    Meets allowed (flush durable) s fun r s' =>
      (r = .ok () ∧ s.output.isOpen = true ∧ s' = s) ∨
      (∃ e, r = .error e ∧ s.output.isOpen = true ∧ s' = s.broke) ∨
      ∃ e, r = .error e ∧ s.output.isOpen = false ∧ s' = s := by
  refine .bind_state (.bind_failIf (fun hclosed => ?_) fun hopen => ?_)
  · exact .inr (.inr ⟨_, rfl, hclosed, rfl⟩)
  rw [Bool.not_eq_false] at hopen
  split
  · refine .bind (plain_meets (fun e _ => ⟨fun r hr => ?_, nofun⟩) ⟨fun r hr => ?_, nofun⟩)
    · cases hr
      exact .bind_modify (.fail (.inr (.inl ⟨_, rfl, hopen, rfl⟩)))
    · cases hr
      exact .pure (.inl ⟨rfl, hopen, rfl⟩)
  · exact .pure (.inl ⟨rfl, hopen, rfl⟩)

/-- Permissions change no byte. -/
theorem setPermissions_meets {old : Bytes} {mode : Nat} (platform : Platform) (perms : Nat)
    (h : s.disk s.output.path = .file old mode) :
    Meets allowed (setPermissions platform perms) s fun _ s' =>
      ∃ mode', s' = s.written mode' old s.output.offset := by
  refine .bind_state ?_
  have hself : s = s.written mode old s.output.offset := (s.written_self h).symm
  split
  · exact .pure ⟨mode, hself⟩
  · split
    · refine bind_throw (fun e _ => ⟨mode, hself⟩) fun _ _ s' _ heffect => ?_
      cases heffect
      refine bind_throw (fun e _ => ⟨mode, hself⟩) fun _ _ s' _ heffect => ?_
      cases heffect
      exact .pure ⟨perms, s.chmod_eq h perms⟩
    · refine bind_throw (fun e _ => ⟨mode, hself⟩) fun _ _ s' _ heffect => ?_
      cases heffect
      exact .pure ⟨perms, s.chmod_eq h perms⟩

/-- The permissions of a closed device are not set. -/
theorem setPermissions_closed (platform : Platform) (perms : Nat)
    (hopen : s.output.isOpen = false) :
    Meets allowed (setPermissions platform perms) s fun r s' => r = .ok false ∧ s' = s := by
  refine .bind_state ?_
  rw [if_pos hopen]
  exact .pure ⟨rfl, rfl⟩

/-! ## Temporary files -/

/-- A call that does not fail. -/
def Sure (allowed : Answer → Prop) (call : Syscall) : Prop := ∀ e, ¬ allowed ⟨call, .failed e⟩

/-- Asking for the kind of a file changes nothing. -/
theorem isRegularFile_meets (call : Syscall) (p : FilePath) :
    Meets allowed (isRegularFile call p) s fun r s' =>
      s' = s ∧ (Sure allowed call → ∃ there, r = .ok there) := by
  refine bind_throw (fun e he => ⟨rfl, fun hsure => ?_⟩) fun _ _ s' _ heffect => ?_
  · obtain he | ⟨_, heffect⟩ := he
    · exact absurd he (hsure e)
    · cases heffect
  · cases heffect
    exact .pure ⟨rfl, fun _ => ⟨_, rfl⟩⟩

/-- Taking access to a source changes nothing. -/
theorem accessIf_meets (call : Syscall) (there : Bool) :
    Meets allowed (accessIf call there) s fun r s' =>
      s' = s ∧ (Sure allowed call → r = .ok ()) := by
  unfold accessIf
  split
  · refine throw_meets (fun e he => ⟨rfl, fun hsure => ?_⟩) fun _ _ s' _ heffect => ?_
    · obtain he | ⟨_, heffect⟩ := he
      · exact absurd he (hsure e)
      · cases heffect
    · cases heffect
      exact ⟨rfl, fun _ => rfl⟩
  · exact .pure ⟨rfl, fun _ => rfl⟩

/-- Refusing links changes nothing. -/
theorem refuseLink_meets (platform : Platform) (name : FilePath) :
    Meets allowed (refuseLink platform name) s fun _ s' => s' = s := by
  unfold refuseLink
  split
  · refine bind_throw (fun _ _ => rfl) fun _ _ s' _ heffect => ?_
    cases heffect
    split
    · exact .fail rfl
    · exact .pure rfl
  · exact .pure rfl

/-- The calls on a file that has just been created. -/
structure Sound (allowed : Answer → Prop) : Prop where
  adopt : Sure allowed .adopt
  inspect : Sure allowed .inspectCreated
  status : Sure allowed .statusCreated
  access : Sure allowed .accessCreated

/-- Adopting the handle changes nothing, and does not fail where inspections do not. -/
theorem adopt_meets (hsound : Sound allowed) (platform : Platform) :
    Meets allowed (adopt platform) s fun r s' => r = .ok () ∧ s' = s := by
  unfold adopt
  split
  · refine throw_meets (fun e he => ?_) fun _ _ s' _ heffect => ?_
    · obtain he | ⟨_, heffect⟩ := he
      · exact absurd he (hsound.adopt e)
      · cases heffect
    · cases heffect
      exact ⟨rfl, rfl⟩
  · exact .pure ⟨rfl, rfl⟩

/-- The inspection after an opening leaves the device in order. -/
theorem opened_meets (hsound : Sound allowed) (name : FilePath) (known : Bool) :
    Meets allowed (opened name known) s fun r s' =>
      r = .ok () ∧ s' = { s with output := { s.output with broken := false } } := by
  refine bind_throw (fun e he => ?_) fun _ _ s' _ heffect => ?_
  · obtain he | ⟨_, heffect⟩ := he
    · exact absurd he (hsound.inspect e)
    · cases heffect
  · cases heffect
    refine .bind_modify ?_
    split
    · exact .pure ⟨rfl, rfl⟩
    · refine .bind ((isRegularFile_meets _ _).imp fun r s' hr => ?_)
      obtain ⟨rfl, hr⟩ := hr
      obtain ⟨there, rfl⟩ := hr hsound.status
      exact ⟨fun _ _ => (accessIf_meets _ _).imp fun r s' hr => ⟨hr.2 hsound.access, hr.1⟩, nofun⟩

/-- The device has been tried with a name. -/
def Save.named (s : Save) (path : FilePath) : Save :=
  { s with output := { s.output with path } }

/-- The device is open on a new file. -/
def Save.created (s : Save) (path : FilePath) : Save :=
  { s with
    disk := s.disk.put path (.file [] 0o600)
    output := ⟨true, false, path, 0⟩ }

/-- An exclusive opening creates the file where nothing was, or fails without a file. Before the
creation only the name given to the device changes, so that an error there leaves the disk as it
was. -/
theorem openExclusive_meets (hsound : Sound allowed) (platform : Platform) (name : FilePath) :
    Meets allowed (openExclusive platform name) s fun r s' =>
      (∃ e path, r = .error e ∧ s' = s.named path) ∨
      r = .ok () ∧ s.disk name = .absent ∧ s' = s.created name := by
  refine .bind_state (.bind_failIf (fun _ => .inl ⟨_, s.output.path, rfl, rfl⟩) fun hopen => ?_)
  refine .bind_modify (.bind ((isRegularFile_meets _ _).imp fun r s' hr => ?_))
  obtain ⟨rfl, -⟩ := hr
  refine ⟨fun known _ => ?_, fun e _ => .inl ⟨e, name, rfl, rfl⟩⟩
  refine .bind ((accessIf_meets _ _).imp fun r s' hr => ?_)
  obtain ⟨rfl, -⟩ := hr
  refine ⟨fun _ _ => ?_, fun e _ => .inl ⟨e, name, rfl, rfl⟩⟩
  refine .bind ((refuseLink_meets _ _).imp fun r s' hr => ?_)
  subst hr
  refine ⟨fun _ _ => ?_, fun e _ => .inl ⟨e, name, rfl, rfl⟩⟩
  refine bind_throw (fun e _ => .inl ⟨_, name, rfl, rfl⟩) fun _ _ s' _ heffect => ?_
  have hcreated : s.disk name = .absent ∧
      s' = { s.named name with disk := s.disk.put name (.file [] 0o600) } := by
    split at heffect
    · next habsent =>
        cases heffect
        exact ⟨habsent, rfl⟩
    · cases heffect
  obtain ⟨habsent, rfl⟩ := hcreated
  refine .bind ((adopt_meets hsound _).imp fun r s' hr => ?_)
  obtain ⟨rfl, rfl⟩ := hr
  refine ⟨fun _ _ => .bind_modify ?_, nofun⟩
  refine .bind (.attempt ((opened_meets hsound _ _).imp fun r s' hr => ?_))
  obtain ⟨rfl, rfl⟩ := hr
  refine ⟨fun r hr => ?_, nofun⟩
  cases hr
  exact .pure (.inr ⟨rfl, habsent, rfl⟩)

/-- A name that has been drawn. -/
def Drawn (allowed : Answer → Prop) (pattern name : FilePath) : Prop :=
  ∃ a b c, allowed ⟨.random, .bits a b c⟩ ∧ name = temporaryName pattern (suffix a b c)

/-- A name is drawn from the random bits of an answer. -/
theorem draw_meets : Meets allowed draw s fun r s' =>
    s' = s ∧ ∀ drawn, r = .ok drawn →
      ∃ a b c, allowed ⟨.random, .bits a b c⟩ ∧ drawn = suffix a b c := by
  refine throw_meets (fun e _ => ⟨rfl, nofun⟩) fun reply drawn s' hreply heffect => ?_
  cases reply with
  | bits a b c =>
      cases heffect
      refine ⟨rfl, fun drawn hdrawn => ⟨a, b, c, hreply.resolve_left nofun, ?_⟩⟩
      exact (Except.ok.inj hdrawn).symm
  | _ => cases heffect

/-- The loop over drawn names creates a file under one of them, or fails without a file, by
induction on the attempts. -/
theorem reserve_meets (hsound : Sound allowed) (platform : Platform) (pattern : FilePath)
    (attempts : Nat) :
    Meets allowed (reserve platform pattern attempts) s fun r s' =>
      (∃ e path, r = .error e ∧ s' = s.named path) ∨
      ∃ name, r = .ok () ∧ Drawn allowed pattern name ∧ s.disk name = .absent ∧
        s' = s.created name := by
  induction attempts generalizing s with
  | zero => exact .fail (.inl ⟨_, s.output.path, rfl, rfl⟩)
  | succ attempts ih =>
      refine .bind (draw_meets.imp fun r s' hr => ?_)
      obtain ⟨rfl, hdrawn⟩ := hr
      refine ⟨fun drawn hr => ?_, fun e _ => .inl ⟨e, s'.output.path, rfl, rfl⟩⟩
      obtain ⟨a, b, c, hallowed, rfl⟩ := hdrawn drawn hr
      refine .bind (.attempt ((openExclusive_meets hsound platform _).imp fun r s'' hr => ?_))
      obtain ⟨e, path, rfl, rfl⟩ | ⟨rfl, habsent, rfl⟩ := hr
      · refine ⟨fun r hr => ?_, nofun⟩
        cases hr
        dsimp only
        split
        · exact ih
        · exact .fail (.inl ⟨e, path, rfl, rfl⟩)
      · refine ⟨fun r hr => ?_, nofun⟩
        cases hr
        exact .pure (.inr ⟨_, rfl, ⟨a, b, c, hallowed, rfl⟩, habsent, rfl⟩)

/-- Opening a temporary file creates one under a drawn name, or fails without one. -/
theorem openTemporary_meets (hsound : Sound allowed) (platform : Platform) (pattern : FilePath) :
    Meets allowed (openTemporary platform pattern) s fun r s' =>
      (∃ e path, r = .error e ∧ s' = s.named path) ∨
      ∃ name, r = .ok () ∧ Drawn allowed pattern name ∧ s.disk name = .absent ∧
        s' = s.created name :=
  .bind_state (.bind_failIf (fun _ => .inl ⟨_, s.output.path, rfl, rfl⟩) fun _ =>
    reserve_meets hsound platform pattern 128)

end Filesystem

end FileProvider
