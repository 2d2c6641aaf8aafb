import FileProvider.Files.Calls

/-!
# No update is lost

Whatever changes the path holds its lock, so that what `update` compared is still there when it
moves its replacement. `Sound` says what a call relies on at its next step, and `Others` what the
step of another call leaves of it. The history then carries the order of all effects: an update that
succeeded replaced exactly the bytes it expected, and two of them need a third call between them.

The state is one lock, one path and any number of calls, each at a place of its own, and the history
lists what was done to the path. `Sound` for a call is kept by its own steps and, with `Others`, by
those of the other calls; the two lemmas together are the invariant.
-/

namespace FileProvider

open Bytes

namespace Files

variable {f : Entry} {s t : Shared} {k j : Nat} {c : Call} {E R : Bytes}

/-- What the path names after some effects. -/
def content (f : Entry) (log : List Effect) : Entry := log.foldl (fun _ e => e.after) f

@[simp] theorem content_append_singleton (l : List Effect) (e : Effect) :
    content f (l ++ [e]) = e.after := by
  rw [content, List.foldl_append]
  rfl

/-- A call did nothing to the path. -/
def Shared.Silent (s : Shared) (k : Nat) : Prop := ∀ e ∈ s.log, e.caller ≠ k

/-- The effect of an update: none where the replacement is what it expects. -/
def replaced (k : Nat) (E R : Bytes) : List Effect :=
  if E = R then [] else [⟨k, .update E R, .file E, .file R⟩]

/-- An update found the bytes it expected and replaced them: at one moment after it began, the path
named these bytes, and its effect follows with no other effect since the comparison. -/
def Shared.Updated (f : Entry) (s : Shared) (k : Nat) (E R : Bytes) : Prop :=
  ∃ l₁ l₂, s.log = l₁ ++ replaced k E R ++ l₂ ∧ content f l₁ = .file E ∧
    s.compared k = l₁.length ∧ s.started k ≤ l₁.length

/-- What holds of the history of a call that has ended. -/
def Ended (f : Entry) (s : Shared) (k : Nat) (c : Call) : Outcome → Prop
  | .returned _ => ∀ E R, c = .update E R → s.Updated f k E R
  | .threw _ => ∀ e ∈ s.log, e.caller = k → c = .remove ∧ e.call = .remove
  | .rejected => s.Silent k

/-- A call moves a staged file to the path: an update has compared the file, which has not changed
since. -/
structure Shared.Matched (s : Shared) (k : Nat) (c : Call) : Prop where
  moves : c ≠ .remove
  update : ∀ E R, c = .update E R → s.file = .file E ∧ s.compared k = s.log.length ∧ E ≠ R

def Place.locked : Place → Bool
  | opening | checking | staging | locking _ | reporting => false
  | _ => true

/-- What a running call relies on at its next step. -/
def Place.Sound (f : Entry) (s : Shared) (k : Nat) (c : Call) : Place → Prop
  | .measuring bytes => s.Silent k ∧ s.file = .file bytes
  | .encoding => s.Silent k ∧ s.Matched k c
  | .inspecting stage | .moving stage =>
      s.Silent k ∧ s.Matched k c ∧ ∀ E R, c = .update E R → stage = R
  | .probing | .unlinking => s.Silent k ∧ c = .remove
  | .retiring => c = .remove ∧ ∀ e ∈ s.log, e.caller = k → e.call = .remove
  | .unlocking outcome => Ended f s k c outcome
  | _ => s.Silent k

def Phase.Sound (f : Entry) (s : Shared) (k : Nat) : Phase → Prop
  | .pending => s.Silent k
  | .running c place =>
      s.started k ≤ s.log.length ∧ (place.locked = true → s.lock = some k) ∧ place.Sound f s k c
  | .finished c outcome => Ended f s k c outcome
  | .crashed _ => True

/-- The history tells what the path names, each call has one effect at most, and one that does not
replace met an empty path. -/
structure Recorded (f : Entry) (s : Shared) : Prop where
  file : s.file = content f s.log
  callers : (s.log.map Effect.caller).Nodup
  before : ∀ l₁ e l₂, s.log = l₁ ++ e :: l₂ → e.before = content f l₁
  exclusive : ∀ e ∈ s.log, e.call.overwrites = false → e.before = .absent
  removed : ∀ e ∈ s.log, e.call = .remove → e.after = .absent

structure State.Invariant (f : Entry) (s : State) : Prop where
  recorded : Recorded f s.shared
  sound : ∀ k, (s.phase k).Sound f s.shared k

/-- The invariant holds before the first call. -/
theorem start_invariant (f : Entry) : (start f).Invariant f where
  recorded :=
    { file := rfl
      callers := List.nodup_nil
      before := fun l₁ e l₂ h => by simp [start] at h
      exclusive := nofun
      removed := nofun }
  sound _ := nofun

/-! ## The steps of the other calls -/

/-- What a step of a call leaves to the others: their locks, the path and the history where they
hold the lock, and no effect of theirs is added. -/
structure Others (k : Nat) (s t : Shared) : Prop where
  lock : ∀ j ≠ k, s.lock = some j → t.lock = some j
  quiet : ∀ j ≠ k, s.lock = some j → t.file = s.file ∧ t.log = s.log
  log : ∃ l, t.log = s.log ++ l ∧ ∀ e ∈ l, e.caller = k
  started : ∀ j ≠ k, t.started j = s.started j
  compared : ∀ j ≠ k, t.compared j = s.compared j

/-- What others do leaves a silent call silent. -/
theorem Others.silent (h : Others k s t) (hjk : j ≠ k) (hj : s.Silent j) : t.Silent j := by
  obtain ⟨l, hlog, hl⟩ := h.log
  intro e he
  rw [hlog] at he
  rcases List.mem_append.1 he with he | he
  · exact hj e he
  · rw [hl e he]
    exact hjk.symm

/-- What others do leaves the record of an update. -/
theorem Others.updated (h : Others k s t) (hjk : j ≠ k) (hj : s.Updated f j E R) :
    t.Updated f j E R := by
  obtain ⟨l, hlog, -⟩ := h.log
  obtain ⟨l₁, l₂, hs, hcontent, hcompared, hstarted⟩ := hj
  refine ⟨l₁, l₂ ++ l, ?_, hcontent, ?_, ?_⟩
  · rw [hlog, hs, List.append_assoc]
  · rw [h.compared j hjk]
    exact hcompared
  · rw [h.started j hjk]
    exact hstarted

/-- What others do leaves an outcome justified. -/
theorem Others.ended {o : Outcome} (h : Others k s t) (hjk : j ≠ k) (hj : Ended f s j c o) :
    Ended f t j c o := by
  cases o with
  | returned b => exact fun E R hc => h.updated hjk (hj E R hc)
  | rejected => exact h.silent hjk hj
  | threw code =>
      obtain ⟨l, hlog, hl⟩ := h.log
      intro e he hcaller
      rw [hlog] at he
      rcases List.mem_append.1 he with he | he
      · exact hj e he hcaller
      · exact absurd (hcaller.symm.trans (hl e he)) hjk

/-- **A step of another call leaves what a call relies on.** It is one case for each phase; a call
that holds the lock is not met by another effect, and one that does not relies on nothing of the
file. -/
theorem Phase.Sound.others {p : Phase} (hj : p.Sound f s j) (h : Others k s t) (hjk : j ≠ k) :
    p.Sound f t j := by
  cases p with
  | pending => exact h.silent hjk hj
  | crashed c => trivial
  | finished c o => exact h.ended hjk hj
  | running c place =>
      obtain ⟨hstarted, hlock, hplace⟩ := hj
      refine ⟨?_, fun hp => h.lock j hjk (hlock hp), ?_⟩
      · obtain ⟨l, hlog, -⟩ := h.log
        rw [h.started j hjk, hlog, List.length_append]
        exact Nat.le_add_right_of_le hstarted
      · have hmatched : s.lock = some j → s.Matched j c → t.Matched j c := by
          intro hheld hm
          refine ⟨hm.moves, fun E R hc => ?_⟩
          obtain ⟨hfile, hlog⟩ := h.quiet j hjk hheld
          rw [hfile, hlog, h.compared j hjk]
          exact hm.update E R hc
        cases place with
        | measuring bytes =>
            refine ⟨h.silent hjk hplace.1, ?_⟩
            rw [(h.quiet j hjk (hlock rfl)).1]
            exact hplace.2
        | encoding => exact ⟨h.silent hjk hplace.1, hmatched (hlock rfl) hplace.2⟩
        | inspecting stage | moving stage =>
            exact ⟨h.silent hjk hplace.1, hmatched (hlock rfl) hplace.2.1, hplace.2.2⟩
        | probing | unlinking => exact ⟨h.silent hjk hplace.1, hplace.2⟩
        | retiring =>
            refine ⟨hplace.1, ?_⟩
            rw [(h.quiet j hjk (hlock rfl)).2]
            exact hplace.2
        | unlocking o => exact h.ended hjk hplace
        | _ => exact h.silent hjk hplace

/-- A step that only moves its own call on. -/
theorem Others.refl (k : Nat) (s : Shared) : Others k s s where
  lock _ _ h := h
  quiet _ _ _ := ⟨rfl, rfl⟩
  log := ⟨[], by rw [List.append_nil], nofun⟩
  started _ _ := rfl
  compared _ _ := rfl

/-- Taking a free lock concerns the others in no way. -/
theorem Others.take (hfree : s.lock = none) : Others k s { s with lock := some k } where
  lock j _ h := by rw [hfree] at h; cases h
  quiet _ _ _ := ⟨rfl, rfl⟩
  log := ⟨[], by rw [List.append_nil], nofun⟩
  started _ _ := rfl
  compared _ _ := rfl

/-- Giving a lock back concerns the others in no way. -/
theorem Others.unlock (k : Nat) (s : Shared) : Others k s (s.unlock k) where
  lock j hjk h := by
    rw [Shared.unlock, h, if_neg]
    exact fun hsame => hjk (Option.some.inj hsame)
  quiet _ _ _ := ⟨rfl, rfl⟩
  log := ⟨[], by rw [List.append_nil]; rfl, nofun⟩
  started _ _ := rfl
  compared _ _ := rfl

/-- A comparison concerns the others in no way. -/
theorem Others.compare (k n : Nat) (s : Shared) :
    Others k s { s with compared := Function.update s.compared k n } where
  lock _ _ h := h
  quiet _ _ _ := ⟨rfl, rfl⟩
  log := ⟨[], by rw [List.append_nil], nofun⟩
  started _ _ := rfl
  compared _ hjk := Function.update_of_ne hjk ..

/-- Only the holder of the lock changes the path. -/
theorem Others.write (hheld : s.lock = some k) (c : Call) (entry : Entry) :
    Others k s (s.write k c entry) where
  lock _ _ h := h
  quiet j hjk h := absurd (Option.some.inj (h.symm.trans hheld)) hjk
  log := ⟨[_], rfl, fun e he => by rw [List.mem_singleton.1 he]⟩
  started _ _ := rfl
  compared _ _ := rfl

/-! ## The history -/

/-- The log records the file as long as both stay. -/
theorem Recorded.of_log (h : Recorded f s) (hfile : t.file = s.file) (hlog : t.log = s.log) :
    Recorded f t where
  file := by rw [hfile, hlog]; exact h.file
  callers := by rw [hlog]; exact h.callers
  before := by rw [hlog]; exact h.before
  exclusive := by rw [hlog]; exact h.exclusive
  removed := by rw [hlog]; exact h.removed

/-- An effect is recorded after the ones it met. The hypotheses say what the source has checked
under the lock: the call has no effect yet, a call that may not overwrite met no file, and a removal
leaves none. -/
theorem Recorded.write {entry : Entry} (h : Recorded f s) (hsilent : s.Silent k)
    (hexclusive : c.overwrites = false → s.file = .absent)
    (hremove : c = .remove → entry = .absent) : Recorded f (s.write k c entry) where
  file := by
    show entry = content f (s.log ++ [_])
    rw [content_append_singleton]
  callers := by
    rw [Shared.write, List.map_append, List.nodup_append]
    refine ⟨h.callers, by simp, ?_⟩
    intro a ha b hb hab
    obtain ⟨e, he, rfl⟩ := List.mem_map.1 ha
    rw [List.map_singleton, List.mem_singleton] at hb
    exact hsilent e he (hab.trans hb)
  before := by
    intro l₁ e l₂ hsplit
    rw [Shared.write] at hsplit
    rcases List.eq_nil_or_concat l₂ with rfl | ⟨l₂, last, rfl⟩
    · obtain ⟨rfl, hlast⟩ := List.append_inj' hsplit rfl
      cases hlast
      exact h.file
    · rw [List.concat_eq_append, ← List.cons_append, ← List.append_assoc] at hsplit
      exact h.before l₁ e l₂ (List.append_inj' hsplit rfl).1
  exclusive := by
    intro e he hover
    rcases List.mem_append.1 he with he | he
    · exact h.exclusive e he hover
    · rw [List.mem_singleton.1 he] at hover ⊢
      exact hexclusive hover
  removed := by
    intro e he hcall
    rcases List.mem_append.1 he with he | he
    · exact h.removed e he hcall
    · rw [List.mem_singleton.1 he] at hcall ⊢
      exact hremove hcall

/-! ## The steps of a call -/

/-- What a step of a call brings about: the history stays right, the call goes on soundly, and the
others lose nothing. -/
structure Advanced (f : Entry) (k : Nat) (s : Shared) (r : Shared × Phase) : Prop where
  recorded : Recorded f r.1
  sound : r.2.Sound f r.1 k
  others : Others k s r.1

/-- A step that leaves the path and the history alone. -/
theorem Advanced.stay {p : Phase} (h : Recorded f s) (hp : p.Sound f s k) :
    Advanced f k s (s, p) :=
  ⟨h, hp, .refl k s⟩

/-- A call that has done nothing may throw anything. -/
theorem ended_threw (f : Entry) (c : Call) (code : FileCode) (h : s.Silent k) :
    Ended f s k c (.threw code) :=
  fun e he hcaller => absurd hcaller (h e he)

/-- A call that has done nothing may fail. -/
theorem sound_fail {code : FileCode} (h : s.Silent k) : (c.fail code).Sound f s k := by
  cases c with
  | publish overwrite => exact h
  | _ => exact ended_threw f _ code h

/-- A call that holds the lock and has done nothing may fail, and gives the lock back. -/
theorem sound_failLocked {code : FileCode} (h : s.Silent k) (hstarted : s.started k ≤ s.log.length)
    (hheld : s.lock = some k) : (c.failLocked code).Sound f s k :=
  ⟨hstarted, fun _ => hheld, ended_threw f c code h⟩

/-- A call whose publication failed ends with its diagnosis. -/
theorem sound_unpublished (h : s.Silent k) (hstarted : s.started k ≤ s.log.length)
    (hheld : s.lock = some k) : c.unpublished.Sound f s k := by
  refine ⟨hstarted, fun _ => hheld, ?_⟩
  show Ended f s k c _
  split
  · exact h
  · exact ended_threw f c _ h

/-- A call whose expectation is not met is refused. -/
theorem sound_refused (h : s.Silent k) (hstarted : s.started k ≤ s.log.length) :
    c.refused.Sound f s k := by
  cases c with
  | publish overwrite => exact h
  | _ => exact ⟨hstarted, nofun, h⟩

/-- A call that publishes unconditionally needs no match. -/
theorem matched_of_publishes (h : c.publishes = true) : s.Matched k c where
  moves := by rintro rfl; cases h
  update := by rintro E R rfl; cases h

variable {fault : Option FileCode} {given : Bytes}

/-- The steps before a call has the lock. They open the lock file, take the lock and draw the stage,
and none of them changes the file or the log. -/
theorem advance_unlocked {place : Place} (h : Recorded f s) (hlocked : place.locked = false)
    (hs : (Phase.running c place).Sound f s k) :
    Advanced f k s (advance s k c fault given place) := by
  obtain ⟨hstarted, -, hsilent⟩ := hs
  cases place with
  | opening =>
      cases fault with
      | some code => exact .stay h (sound_fail hsilent)
      | none => exact .stay h ⟨hstarted, nofun, hsilent⟩
  | checking =>
      cases fault with
      | some code => exact .stay h (sound_fail hsilent)
      | none =>
          simp only [advance]
          split
          · exact .stay h (sound_fail hsilent)
          · refine .stay h ⟨hstarted, ?_, ?_⟩
            · split <;> exact nofun
            · split <;> exact hsilent
  | staging =>
      cases fault with
      | some code => exact .stay h (sound_fail hsilent)
      | none => exact .stay h ⟨hstarted, nofun, hsilent⟩
  | locking stage =>
      simp only [advance]
      split
      next hfree =>
        refine ⟨h.of_log rfl rfl, ⟨hstarted, fun _ => rfl, ?_⟩, .take hfree.2⟩
        split
        next hpublishes =>
          refine ⟨hsilent, matched_of_publishes hpublishes, ?_⟩
          rintro E R rfl
          cases hpublishes
        next => exact hsilent
      next =>
        split
        · exact .stay h (sound_refused hsilent hstarted)
        · exact .stay h (sound_fail hsilent)
  | reporting =>
      simp only [advance]
      refine .stay h ?_
      exact fun e he hcaller => absurd hcaller (hsilent e he)
  | _ => cases hlocked

/-- The comparison of `update` finds what the path names. Both the size and the bytes are compared
under the lock, so that what is found is the content after the last effect. -/
theorem compare_advanced {bytes : Bytes} (h : Recorded f s)
    (hs : (Phase.running c (.measuring bytes)).Sound f s k) :
    Advanced f k s (compare s k c fault bytes) := by
  obtain ⟨hstarted, hlock, hsilent, hfile⟩ := hs
  have hheld := hlock rfl
  cases c with
  | update E R =>
      cases fault with
      | some code => exact .stay h (sound_failLocked hsilent hstarted hheld)
      | none =>
          simp only [compare]
          split
          · exact .stay h (sound_failLocked hsilent hstarted hheld)
          next hequal =>
            have hbytes : bytes = E := by
              by_contra hne
              exact hequal (.inr hne)
            subst hbytes
            refine ⟨h.of_log rfl rfl, ⟨hstarted, fun _ => hheld, ?_⟩, .compare k _ s⟩
            split
            next hsame =>
              -- the file already holds the replacement, and this is its moment
              rintro E' R' hc
              cases hc
              refine ⟨s.log, [], ?_, ?_, Function.update_self .., hstarted⟩
              · rw [replaced, if_pos hsame, List.append_nil, List.append_nil]
              · rw [← h.file]
                exact hfile
            next hne =>
              refine ⟨hsilent, nofun, ?_⟩
              rintro E' R' hc
              cases hc
              exact ⟨hfile, Function.update_self .., hne⟩
  | _ => exact .stay h (sound_failLocked hsilent hstarted hheld)

/-- The move of a publication or of an update that has compared the file. It is the one step of such
a call that changes the file, and its effect is appended to the log. -/
theorem moving_advanced {stage : Bytes} (h : Recorded f s)
    (hs : (Phase.running c (.moving stage)).Sound f s k) :
    Advanced f k s (advance s k c fault given (.moving stage)) := by
  obtain ⟨hstarted, hlock, hsilent, hmatched, hstage⟩ := hs
  have hheld := hlock rfl
  simp only [advance]
  split
  next hmove =>
    obtain ⟨-, -, hover⟩ := hmove
    refine ⟨h.write hsilent (fun hnot => ?_) (fun hremove => ?_), ⟨?_, fun _ => hheld, ?_⟩,
      .write hheld ..⟩
    · exact hover.resolve_left fun hyes => by rw [hnot] at hyes; cases hyes
    · exact absurd hremove hmatched.moves
    · show s.started k ≤ (s.log ++ [_]).length
      rw [List.length_append]
      exact Nat.le_add_right_of_le hstarted
    · rintro E R rfl
      obtain ⟨hfile, hcompared, hne⟩ := hmatched.update E R rfl
      refine ⟨s.log, [], ?_, ?_, hcompared, hstarted⟩
      · rw [List.append_nil, replaced, if_neg hne, Shared.write, hfile, hstage E R rfl]
      · rw [← h.file]
        exact hfile
  next => exact .stay h (sound_unpublished hsilent hstarted hheld)

/-- The removal of a file. -/
theorem unlinking_advanced (h : Recorded f s) (hs : (Phase.running c .unlinking).Sound f s k) :
    Advanced f k s (advance s k c fault given .unlinking) := by
  obtain ⟨hstarted, hlock, hsilent, rfl⟩ := hs
  have hheld := hlock rfl
  simp only [advance]
  split
  next =>
    refine ⟨h.write hsilent nofun fun _ => rfl, ⟨?_, fun _ => hheld, rfl, ?_⟩, .write hheld ..⟩
    · show s.started k ≤ (s.log ++ [_]).length
      rw [List.length_append]
      exact Nat.le_add_right_of_le hstarted
    · intro e he hcaller
      rcases List.mem_append.1 he with he | he
      · exact absurd hcaller (hsilent e he)
      · rw [List.mem_singleton.1 he]
  next => exact .stay h (sound_failLocked hsilent hstarted hheld)

/-- The lock is released, with nothing else done. -/
theorem unlocking_advanced {o : Outcome} (h : Recorded f s)
    (hs : (Phase.running c (.unlocking o)).Sound f s k) :
    Advanced f k s (advance s k c fault given (.unlocking o)) := by
  obtain ⟨hstarted, -, hended⟩ := hs
  have hrecorded : Recorded f (s.unlock k) := h.of_log rfl rfl
  cases o with
  | rejected => exact ⟨hrecorded, sound_refused (s := s.unlock k) hended hstarted, .unlock k s⟩
  | returned b => exact ⟨hrecorded, hended, .unlock k s⟩
  | threw code => exact ⟨hrecorded, hended, .unlock k s⟩

/-- The steps of a call that has the lock. -/
theorem advance_locked {place : Place} (h : Recorded f s) (hlocked : place.locked = true)
    (hs : (Phase.running c place).Sound f s k) :
    Advanced f k s (advance s k c fault given place) := by
  have hall := hs
  obtain ⟨hstarted, hlock, hsound⟩ := hs
  have hheld := hlock hlocked
  cases place with
  | rechecking =>
      cases fault with
      | some code => exact .stay h (sound_failLocked hsound hstarted hheld)
      | none =>
          simp only [advance]
          split
          · exact .stay h (sound_failLocked hsound hstarted hheld)
          · cases c with
            | update E R => exact .stay h ⟨hstarted, fun _ => hheld, hsound⟩
            | remove => exact .stay h ⟨hstarted, fun _ => hheld, hsound, rfl⟩
            | _ => exact .stay h ⟨hstarted, fun _ => hheld, hsound, nofun, nofun⟩
  | reading =>
      simp only [advance]
      split
      next => exact .stay h (sound_failLocked hsound hstarted hheld)
      next => exact .stay h (sound_failLocked hsound hstarted hheld)
      next => exact .stay h (sound_failLocked hsound hstarted hheld)
      next bytes hfile => exact .stay h ⟨hstarted, fun _ => hheld, hsound, hfile⟩
  | measuring bytes => exact compare_advanced h hall
  | encoding =>
      cases fault with
      | some code => exact .stay h (sound_failLocked hsound.1 hstarted hheld)
      | none =>
          refine .stay h ⟨hstarted, fun _ => hheld, hsound.1, hsound.2, ?_⟩
          rintro E R rfl
          rfl
  | inspecting stage =>
      simp only [advance]
      split
      · exact .stay h ⟨hstarted, fun _ => hheld, hsound⟩
      · exact .stay h (sound_unpublished hsound.1 hstarted hheld)
  | moving stage => exact moving_advanced h hall
  | probing =>
      obtain ⟨hsilent, rfl⟩ := hsound
      simp only [advance]
      split
      · exact .stay h ⟨hstarted, fun _ => hheld, nofun⟩
      · exact .stay h ⟨hstarted, fun _ => hheld, hsilent, rfl⟩
  | unlinking => exact unlinking_advanced h hall
  | retiring =>
      obtain ⟨rfl, hcalls⟩ := hsound
      refine .stay h ⟨hstarted, fun _ => hheld, ?_⟩
      show Ended f s k .remove _
      split
      · exact nofun
      · exact fun e he hcaller => ⟨rfl, hcalls e he hcaller⟩
  | unlocking o => exact unlocking_advanced h hall
  | _ => cases hlocked

/-! ## Runs -/

/-- Each place of a running call is left as `Advanced` says, one case for each place. -/
theorem advance_advanced {place : Place} (h : Recorded f s)
    (hs : (Phase.running c place).Sound f s k) :
    Advanced f k s (advance s k c fault given place) := by
  cases hlocked : place.locked with
  | false => exact advance_unlocked h hlocked hs
  | true => exact advance_locked h hlocked hs

/-- A step of one call keeps the invariant. -/
theorem State.Invariant.act {s : State} {r : Shared × Phase} (h : s.Invariant f)
    (hr : Advanced f k s.shared r) : State.Invariant f ⟨r.1, Function.update s.phase k r.2⟩ where
  recorded := hr.recorded
  sound j := by
    by_cases hjk : j = k
    · subst hjk
      show Phase.Sound f r.1 j (Function.update s.phase j r.2 j)
      rw [Function.update_self]
      exact hr.sound
    · show Phase.Sound f r.1 j (Function.update s.phase k r.2 j)
      rw [Function.update_of_ne hjk]
      exact (h.sound j).others hr.others hjk

/-- A call begins. -/
theorem start_advanced (c : Call) (h : Recorded f s) (hsilent : s.Silent k) :
    Advanced f k s
      ({ s with started := Function.update s.started k s.log.length }, .running c c.first) where
  recorded := h.of_log rfl rfl
  sound := by
    have hstarted : Function.update s.started k s.log.length k ≤ s.log.length := by
      rw [Function.update_self]
    cases c <;> exact ⟨hstarted, nofun, hsilent⟩
  others :=
    { lock := fun _ _ hl => hl
      quiet := fun _ _ _ => ⟨rfl, rfl⟩
      log := ⟨[], by rw [List.append_nil], nofun⟩
      started := fun _ hjk => Function.update_of_ne hjk ..
      compared := fun _ _ => rfl }

/-- Each step keeps the invariant: of the call that moves by `Advanced`, and of the others by
`Others`. -/
theorem step_keeps {s t : State} {e : Event} (h : s.Invariant f) (ht : step s e = some t) :
    t.Invariant f := by
  cases e with
  | start k c =>
      cases hphase : s.phase k with
      | pending =>
          simp only [step, hphase] at ht
          cases ht
          have hsilent := h.sound k
          rw [hphase] at hsilent
          exact h.act (start_advanced c h.recorded hsilent)
      | _ =>
          simp only [step, hphase] at ht
          cases ht
  | next k fault given =>
      cases hphase : s.phase k with
      | running c place =>
          simp only [step, hphase] at ht
          cases ht
          have hsound := h.sound k
          rw [hphase] at hsound
          exact h.act (advance_advanced h.recorded hsound)
      | _ =>
          simp only [step, hphase] at ht
          cases ht
  | crash k =>
      cases hphase : s.phase k with
      | running c place =>
          simp only [step, hphase] at ht
          cases ht
          have hcrash : Advanced f k s.shared (s.shared.unlock k, .crashed c) :=
            ⟨h.recorded.of_log rfl rfl, trivial, .unlock k s.shared⟩
          exact h.act hcrash
      | _ =>
          simp only [step, hphase] at ht
          cases ht

/-! ## No lost update -/

/-- Between the effects of two calls, a third one brings the path back to some bytes. -/
def Shared.Restored (s : Shared) (i j : Nat) (E : Bytes) : Prop :=
  ∃ l₁ a l₂ e b l₃, s.log = l₁ ++ a :: (l₂ ++ e :: b :: l₃) ∧
    (a.caller = i ∧ b.caller = j ∨ a.caller = j ∧ b.caller = i) ∧
    e.after = .file E ∧ e.caller ≠ i ∧ e.caller ≠ j

/-- What an update replaced has to be brought back before another one can expect it. If no effect
stood between the two, the second one would have met what the first one left, which is not the
expected content. -/
theorem Recorded.restored_after {l m r : List Effect} {a b : Effect} (h : Recorded f s)
    (hlog : s.log = l ++ a :: (m ++ b :: r)) (ha : a.after ≠ .file E)
    (hb : content f (l ++ a :: m) = .file E) :
    ∃ m' e, m = m' ++ [e] ∧ e.after = .file E ∧ e.caller ≠ a.caller ∧ e.caller ≠ b.caller := by
  rcases List.eq_nil_or_concat m with rfl | ⟨m', e, rfl⟩
  · rw [content_append_singleton] at hb
    exact absurd hb ha
  · rw [List.concat_eq_append] at hlog hb ⊢
    have hafter : e.after = .file E := by
      rw [← hb, ← List.cons_append, ← List.append_assoc, content_append_singleton]
    have hcallers := h.callers
    rw [hlog, List.map_append, List.nodup_append, List.map_cons, List.nodup_cons,
      List.append_assoc, List.map_append, List.nodup_append] at hcallers
    obtain ⟨-, ⟨hfirst, -, hlast, -⟩, -⟩ := hcallers
    refine ⟨m', e, rfl, hafter, fun hsame => hfirst ?_, fun hsame => ?_⟩
    · rw [← hsame]
      simp
    · rw [List.singleton_append, List.map_cons, List.nodup_cons] at hlast
      refine hlast.1 ?_
      rw [hsame]
      simp

/-- Of two updates from one content, another has restored that content in between. The log orders
the two updates, and the lemma about the second one is applied in either order. -/
theorem Recorded.restored {i j : Nat} {R R' : Bytes} (h : Recorded f s) (hij : i ≠ j)
    (hi : s.Updated f i E R) (hj : s.Updated f j E R') (hR : E ≠ R) (hR' : E ≠ R') :
    s.Restored i j E := by
  obtain ⟨l₁, r₁, hlog, hcontent, -⟩ := hi
  obtain ⟨l₂, r₂, hlog', hcontent', -⟩ := hj
  rw [replaced, if_neg hR, List.append_assoc, List.singleton_append] at hlog
  rw [replaced, if_neg hR', List.append_assoc, List.singleton_append] at hlog'
  rcases List.append_eq_append_iff.1 (hlog.symm.trans hlog') with ⟨m, hl, hm⟩ | ⟨m, hl, hm⟩
  · cases m with
    | nil => exact absurd (congrArg Effect.caller (List.cons.inj hm).1) hij
    | cons a m =>
        obtain ⟨rfl, -⟩ := List.cons.inj hm
        rw [hl] at hcontent'
        rw [hl, List.append_assoc, List.cons_append] at hlog'
        obtain ⟨m', e, rfl, hafter, hfirst, hlast⟩ := h.restored_after hlog'
          (fun hsame => hR (Entry.file.inj hsame).symm) hcontent'
        rw [List.append_assoc, List.singleton_append] at hlog'
        exact ⟨l₁, _, m', e, _, r₂, hlog', .inl ⟨rfl, rfl⟩, hafter, hfirst, hlast⟩
  · cases m with
    | nil => exact absurd (congrArg Effect.caller (List.cons.inj hm).1).symm hij
    | cons b m =>
        obtain ⟨rfl, -⟩ := List.cons.inj hm
        rw [hl] at hcontent
        rw [hl, List.append_assoc, List.cons_append] at hlog
        obtain ⟨m', e, rfl, hafter, hfirst, hlast⟩ := h.restored_after hlog
          (fun hsame => hR' (Entry.file.inj hsame).symm) hcontent
        rw [List.append_assoc, List.singleton_append] at hlog
        exact ⟨l₂, _, m', e, _, r₁, hlog, .inr ⟨rfl, rfl⟩, hafter, hlast, hfirst⟩

/-- **No whole-file update is lost.** An update that succeeds met the bytes it expected, and its
replacement followed with no other effect in between; two updates that replace the same bytes by
others need a third call between them that brings these back; a call that does not overwrite met an
empty path; and a call that throws did nothing to the path, or removed the file and failed after. -/
theorem updates_not_lost {t : State} {events : List Event}
    (h : Run (fun s e t => step s e = some t) (start f) events t) :
    (t.shared.file = content f t.shared.log ∧
      ∀ l₁ e l₂, t.shared.log = l₁ ++ e :: l₂ → e.before = content f l₁) ∧
    (∀ k E R b, t.phase k = .finished (.update E R) (.returned b) → t.shared.Updated f k E R) ∧
    (∀ i j E R R' b b', i ≠ j → t.phase i = .finished (.update E R) (.returned b) →
      t.phase j = .finished (.update E R') (.returned b') → E ≠ R → E ≠ R' →
      t.shared.Restored i j E) ∧
    (∀ e ∈ t.shared.log, e.call.overwrites = false → e.before = .absent) ∧
    ∀ k c code, t.phase k = .finished c (.threw code) →
      ∀ e ∈ t.shared.log, e.caller = k → c = .remove ∧ e.after = .absent := by
  have hinv : t.Invariant f := h.invariant (fun hs ht => step_keeps hs ht) (start_invariant f)
  have hupdated : ∀ k E R b, t.phase k = .finished (.update E R) (.returned b) →
      t.shared.Updated f k E R := by
    intro k E R b hk
    have hsound := hinv.sound k
    rw [hk] at hsound
    exact hsound E R rfl
  refine ⟨⟨hinv.recorded.file, hinv.recorded.before⟩, hupdated, ?_, hinv.recorded.exclusive, ?_⟩
  · intro i j E R R' b b' hij hi hj hR hR'
    exact hinv.recorded.restored hij (hupdated i E R b hi) (hupdated j E R' b' hj) hR hR'
  · intro k c code hk e he hcaller
    have hsound := hinv.sound k
    rw [hk] at hsound
    obtain ⟨hremove, hcall⟩ := hsound e he hcaller
    exact ⟨hremove, hinv.recorded.removed e he hcall⟩

/-- The next steps of a call, none of which meets a fault. -/
def steps (k n : Nat) : List Event := List.replicate n (.next k none [])

/-- Two updates that expect the same bytes, and a writer that brings them back in between. -/
def restoring : List Event :=
  [.start 0 (.update [1] [2])] ++ steps 0 9 ++ [.start 2 (.update [1] [3])] ++ steps 2 1 ++
    [.start 1 (.write [1])] ++ steps 1 7 ++ steps 2 8

/-- A run in which two calls update the same content, because a third restores it between them. -/
theorem updates_not_lost_sample :
    ∃ t, Run (fun s e t => step s e = some t) (start (.file [1])) restoring t ∧
      t.shared.file = .file [3] ∧ t.shared.Restored 0 2 [1] := by
  have hfound : ∃ t, Run (fun s e t => step s e = some t) (start (.file [1])) restoring t ∧
      t.shared.file = .file [3] ∧
      t.phase 0 = .finished (.update [1] [2]) (.returned true) ∧
      t.phase 2 = .finished (.update [1] [3]) (.returned true) :=
    Run.of_any (by decide +kernel)
  obtain ⟨t, hrun, hfile, hfirst, hsecond⟩ := hfound
  refine ⟨t, hrun, hfile, ?_⟩
  exact (updates_not_lost hrun).2.2.1 0 2 [1] [2] [3] true true (by decide) hfirst hsecond
    (by decide) (by decide)

/-- Two updates that expect the same bytes, the first of which leaves them as they are. -/
def unchanged : List Event :=
  [.start 0 (.update [1] [1])] ++ steps 0 6 ++ [.start 1 (.update [1] [2])] ++ steps 1 9

/-- An update that replaces the bytes it expects by themselves succeeds beside another one, and no
third call does anything: the file was never other than both expected. -/
theorem unchanged_beside_update :
    ∃ t, Run (fun s e t => step s e = some t) (start (.file [1])) unchanged t ∧
      t.phase 0 = .finished (.update [1] [1]) (.returned true) ∧
      t.phase 1 = .finished (.update [1] [2]) (.returned true) ∧
      t.shared.log = [⟨1, .update [1] [2], .file [1], .file [2]⟩] :=
  Run.of_any (by decide +kernel)

end Files

end FileProvider
