import FileProvider.Compatibility.Exclusion

/-!
# What the advisory lock is for

A recovery removes only the file it locked, unless it locked a file that its creator had open
without a lock: between the creation and the lock, or after the lock was refused.
`verified_of_settled` says that these are the only runs in which the lock can fail to exclude. While
nothing else is locked, the path names the file of a recovery from its comparison to its removal,
because its owner does not remove it, and another recovery would have to lock it.

`Guarded` is an invariant of its own beside that of the exclusion: what a recovery relies on from
the moment it has locked a file. It is kept by settled steps, and from it follows the condition
under which the exclusion was proved.
-/

namespace FileProvider

open Bytes

namespace Compatibility

namespace FileWriteLock

variable {net : Deployment} {s t : State} {a b i j : Nat} {p : Phase}

/-- A recovery locks no file that an object owns without a lock. -/
def Settled (s : State) : Event → Prop
  | .call a _ => ∀ j, s.phase a = .guarding j → s.lock j = none → ∀ b, (s.phase b).owned ≠ some j
  | _ => True

/-- The file that a recovery has locked. -/
def Phase.guarded : Phase → Option Nat
  | identifying j | matching j | inspecting (.again j) _ | removing j => some j
  | _ => none

/-- The file that a recovery has locked and found at the path. -/
def Phase.matched : Phase → Option Nat
  | inspecting (.again j) _ | removing j => some j
  | _ => none

/-- What a recovery that has locked a file relies on. -/
structure Guards (s : State) (a : Nat) (p : Phase) : Prop where
  locked : ∀ j, p.guarded = some j → s.lock j = some a
  unowned : ∀ j, p.guarded = some j → ∀ b, (s.phase b).owned ≠ some j
  named : ∀ j, p.matched = some j → s.name = some j

/-- A matched file is a guarded one. -/
theorem Phase.guarded_of_matched (h : p.matched = some j) : p.guarded = some j := by
  cases p with
  | inspecting pass call =>
      cases pass with
      | first => cases h
      | again k => exact h
  | removing k => exact h
  | _ => cases h

/-- A guarded file has been created before. -/
theorem State.Sound.guarded_lt (h : s.Sound net a p) (hj : p.guarded = some j) : j < s.next := by
  cases p with
  | identifying k | matching k =>
      cases hj
      exact h
  | removing k =>
      cases hj
      exact h.1
  | inspecting pass call =>
      cases pass with
      | first => cases hj
      | again k =>
          cases hj
          exact h.1
  | _ => cases hj

/-- A phase without a guarded file guards nothing. -/
theorem Guards.of_unguarded (hp : p.guarded = none) : Guards s a p where
  locked j hj := by rw [hp] at hj; cases hj
  unowned j hj := by rw [hp] at hj; cases hj
  named j hj := by
    have := Phase.guarded_of_matched hj
    rw [hp] at this
    cases this

/-- **What a recovery relies on stays**, where no lock it holds is taken from it, no object comes to
own a file that is not new, and the path keeps naming a file that a recovery has found. -/
theorem Guards.keep (h : Guards s b p) (hlt : ∀ j, p.guarded = some j → j < s.next)
    (hlock : ∀ j, s.lock j = some b → j < s.next → t.lock j = some b)
    (hown : ∀ c i, (t.phase c).owned = some i → (s.phase c).owned = some i ∨ i = s.next)
    (hname : ∀ j, p.matched = some j → s.name = some j → t.name = some j) : Guards t b p where
  locked j hj := hlock j (h.locked j hj) (hlt j hj)
  unowned j hj c hc := by
    rcases hown c j hc with hold | hnew
    · exact h.unowned j hj c hold
    · exact absurd hnew (Nat.ne_of_lt (hlt j hj))
  named j hj := hname j hj (h.named j hj)

/-- Every object relies on what holds. -/
def Guarded (s : State) : Prop := ∀ a, Guards s a (s.phase a)

/-- A step of one object that keeps the locks of the others and what they found at the path. The
owned files may only shrink or be the fresh inode, so that a lock relied on by another object is
still no owner's file. -/
theorem Guarded.act (h : Guarded s) (hinv : s.Invariant net)
    (hphase : ∀ b, b ≠ a → t.phase b = s.phase b)
    (hlock : ∀ b j, b ≠ a → s.lock j = some b → j < s.next → t.lock j = some b)
    (hown : ∀ i, (t.phase a).owned = some i → (s.phase a).owned = some i ∨ i = s.next)
    (hname : ∀ b j, b ≠ a → (s.phase b).matched = some j → s.name = some j → t.name = some j)
    (hself : Guards t a (t.phase a)) : Guarded t := by
  have hall : ∀ c i, (t.phase c).owned = some i → (s.phase c).owned = some i ∨ i = s.next := by
    intro c i hc
    by_cases hca : c = a
    · rw [hca] at hc ⊢
      exact hown i hc
    · rw [hphase c hca] at hc
      exact .inl hc
  intro b
  by_cases hba : b = a
  · rw [hba]
    exact hself
  · rw [hphase b hba]
    exact (h b).keep (fun j hj => (hinv.sound b).guarded_lt hj)
      (fun j hj hlt => hlock b j hba hj hlt) hall (fun j hj hn => hname b j hba hj hn)

/-- An object that goes on to its next call without a new file. -/
theorem Guarded.goto (h : Guarded s) (hinv : s.Invariant net)
    (hown : ∀ i, p.owned = some i → (s.phase a).owned = some i)
    (hguard : ∀ j, p.guarded = some j → (s.phase a).guarded = some j)
    (hmatch : ∀ j, p.matched = some j → s.name = some j) : Guarded (s.goto a p) := by
  refine h.act (a := a) hinv (fun b hba => goto_phase_of_ne hba) (fun _ _ _ hl _ => hl) ?_
    (fun _ _ _ _ hn => hn) ?_
  · intro i hi
    rw [goto_phase] at hi
    exact .inl (hown i hi)
  · rw [goto_phase]
    refine ⟨fun j hj => (h a).locked j (hguard j hj), fun j hj b hb => ?_, hmatch⟩
    by_cases hba : b = a
    · rw [hba, goto_phase] at hb
      exact (h a).unowned j (hguard j hj) a (hown j hb)
    · rw [goto_phase_of_ne hba] at hb
      exact (h a).unowned j (hguard j hj) b hb

/-- An object that goes on with its file, or lets go of it, guards nothing. -/
theorem Guarded.proceed (h : Guarded s) (hinv : s.Invariant net)
    (hown : ∀ i, p.owned = some i → (s.phase a).owned = some i) (hguard : p.guarded = none) :
    Guarded (s.goto a p) := by
  refine h.goto hinv hown (fun j hj => ?_) fun j hj => ?_
  · rw [hguard] at hj
    cases hj
  · rw [Phase.guarded_of_matched hj] at hguard
    cases hguard

/-- An object that neither owns nor guards a file. -/
theorem Guarded.retreat (h : Guarded s) (hinv : s.Invariant net) (hown : p.owned = none)
    (hguard : p.guarded = none) : Guarded (s.goto a p) := by
  refine h.proceed hinv (fun i hi => ?_) hguard
  rw [hown] at hi
  cases hi

/-- A recovery that goes on with the lock it relies on. -/
theorem Guarded.resume (h : Guarded s) (hinv : s.Invariant net) (hown : p.owned = none)
    (hguard : p.guarded = (s.phase a).guarded) (hmatch : p.matched = (s.phase a).matched) :
    Guarded (s.goto a p) := by
  refine h.goto hinv (fun i hi => ?_) (fun j hj => hguard ▸ hj) fun j hj =>
    (h a).named j (hmatch ▸ hj)
  rw [hown] at hi
  cases hi

/-- Locks that change, but for the ones that recoveries hold. -/
theorem Guarded.relock {lock : Nat → Option Nat} (h : Guarded s)
    (hl : ∀ b j, (s.phase b).guarded = some j → s.lock j = some b → lock j = some b) :
    Guarded { s with lock := lock } := fun b =>
  ⟨fun j hj => hl b j hj ((h b).locked j hj), (h b).unowned, (h b).named⟩

/-- A descriptor that is closed gives up the lock of no other object. -/
theorem Guarded.close (h : Guarded s) (ha : (s.phase a).guarded = none) :
    Guarded (s.close a i) := by
  refine h.relock fun b j hj hl => ?_
  have hba : b ≠ a := by
    intro hba
    rw [hba, ha] at hj
    cases hj
  by_cases hji : j = i
  · rw [hji, Function.update_self]
    rw [hji] at hl
    rw [if_neg, hl]
    rw [hl]
    exact fun hsame => hba (Option.some.inj hsame)
  · rw [Function.update_of_ne hji]
    exact hl

/-- A lock that no object holds is taken. -/
theorem Guarded.flock (h : Guarded s) (hfree : s.lock i = none) : Guarded (s.flock a i) := by
  refine h.relock fun b j _ hl => ?_
  have hji : j ≠ i := by
    intro hji
    rw [hji, hfree] at hl
    cases hl
  rw [Function.update_of_ne hji]
  exact hl

/-- An object that no longer relies on a lock removes the path, where no recovery of another object
has found its file there. -/
theorem Guarded.unlink (h : Guarded s) (hinv : s.Invariant net) (howned : p.owned = none)
    (hguard : p.guarded = none)
    (hname : ∀ b j, b ≠ a → (s.phase b).matched = some j → s.name ≠ some j) :
    Guarded (s.unlink.goto a p) := by
  refine h.act (a := a) hinv (fun b hba => goto_phase_of_ne hba) (fun _ _ _ hl _ => hl) ?_ ?_ ?_
  · intro i hi
    rw [goto_phase, howned] at hi
    cases hi
  · intro b j hba hj hn
    exact absurd hn (hname b j hba hj)
  · rw [goto_phase]
    exact .of_unguarded hguard

/-- Creating the lock file keeps it guarded, as the name was free. -/
theorem Guarded.create (h : Guarded s) (hinv : s.Invariant net) (hname : s.name = none) :
    Guarded (s.create a) := by
  have hphase : (s.create a).phase a = .locking s.next := Function.update_self ..
  refine h.act (a := a) hinv (fun b hba => Function.update_of_ne hba ..) ?_ ?_ ?_ ?_
  · intro b j _ hl hlt
    exact (Function.update_of_ne (Nat.ne_of_lt hlt) ..).trans hl
  · intro i hi
    rw [hphase] at hi
    exact .inr (Option.some.inj hi).symm
  · intro b j _ _ hn
    rw [hname] at hn
    cases hn
  · rw [hphase]
    exact .of_unguarded rfl

/-- A recovery that locks a file which no object owns may rely on its lock. The lock was free and
becomes the object's own, and that no object owns the file is the hypothesis: these are the first
two of the facts a recovery relies on. -/
theorem Guarded.guard (h : Guarded s) (hinv : s.Invariant net) (hfree : s.lock j = none)
    (hunowned : ∀ b, (s.phase b).owned ≠ some j) :
    Guarded ((s.goto a (.identifying j)).flock a j) := by
  have hphase : ((s.goto a (.identifying j)).flock a j).phase a = .identifying j := goto_phase
  have hothers : ∀ b, b ≠ a → ((s.goto a (.identifying j)).flock a j).phase b = s.phase b :=
    fun b hba => goto_phase_of_ne hba
  refine h.act (a := a) hinv hothers ?_ ?_ (fun _ _ _ _ hn => hn) ?_
  · intro b k _ hl _
    have hkj : k ≠ j := by
      intro hkj
      rw [hkj, hfree] at hl
      cases hl
    exact (Function.update_of_ne hkj ..).trans hl
  · intro i hi
    rw [hphase] at hi
    cases hi
  · rw [hphase]
    refine ⟨fun k hk => ?_, fun k hk b hb => ?_, fun k hk => by cases hk⟩
    · cases hk
      exact Function.update_self ..
    · cases hk
      by_cases hba : b = a
      · rw [hba, hphase] at hb
        cases hb
      · rw [hothers b hba] at hb
        exact hunowned b hb

/-- An owner check goes on with nothing new, or ends. -/
theorem Guarded.inspect {host : Bytes} {pass : Pass} {c : Inspection} {ok : Bool} (h : Guarded s)
    (hinv : s.Invariant net) (ha : s.phase a = .inspecting pass c) :
    Guarded (s.inspect host a pass ok c) := by
  have hon : ∀ c', Guarded (s.goto a (.inspecting pass c')) := by
    intro c'
    cases pass with
    | first => exact h.retreat hinv rfl rfl
    | again j => exact h.resume hinv rfl (by rw [ha]; rfl) (by rw [ha]; rfl)
  have hend : ∀ proven, Guarded (s.concluded a pass proven) := by
    intro proven
    cases pass with
    | first => cases proven <;> exact h.retreat hinv rfl rfl
    | again j =>
        cases proven with
        | false => exact h.retreat hinv rfl rfl
        | true => exact h.resume hinv rfl (by rw [ha]; rfl) (by rw [ha]; rfl)
  cases c with
  | symlink => exact hon _
  | regular =>
      simp only [State.inspect]
      split
      · exact hon _
      · exact hend _
  | probing k q => exact hend _
  | size | opening | reading =>
      simp only [State.inspect]
      split
      · split
        · exact hon _
        · exact hend _
      · exact hend _

/-- Each system call of a settled run keeps the lock file guarded, one case for each phase. The case
that needs the hypothesis is the lock of a recovery, which has to be taken on a file that no object
owns. -/
theorem Guarded.call {ok : Bool} (h : Guarded s) (hinv : s.Invariant net)
    (hsettled : Settled s (.call a ok)) (ht : s.call net a ok = some t) : Guarded t := by
  have howned : ∀ {q : Phase} {i : Nat}, s.phase a = q → q.owned = some i →
      (s.phase a).owned = some i := by
    intro q i hq hi
    rw [hq]
    exact hi
  cases ha : s.phase a with
  | idle | holding =>
      simp only [State.call, ha] at ht
      cases ht
  | creating retried =>
      simp only [State.call, ha] at ht
      split at ht
      next hopen =>
        cases ht
        exact h.create hinv hopen.2
      next =>
        cases ht
        cases retried <;> exact h.retreat hinv rfl rfl
  | locking i =>
      simp only [State.call, ha] at ht
      split at ht
      next hfree =>
        cases ht
        exact (h.proceed (p := .writing i _) hinv (fun k hk => howned ha hk) rfl).flock
          hfree.2
      next =>
        cases ht
        exact h.proceed hinv (fun k hk => howned ha hk) rfl
  | writing i remaining =>
      simp only [State.call, ha] at ht
      split at ht
      · cases ht
      · cases ht
        exact h.proceed hinv (fun k hk => howned ha hk) rfl
  | comparing i =>
      simp only [State.call, ha] at ht
      cases ht
      cases ok with
      | true => exact h.proceed hinv (fun k hk => howned ha hk) rfl
      | false => exact h.retreat hinv rfl rfl
  | resolving i =>
      simp only [State.call, ha] at ht
      cases ht
      split
      · exact h.proceed hinv (fun k hk => howned ha hk) rfl
      · exact h.retreat hinv rfl rfl
  | unlinking i =>
      simp only [State.call, ha] at ht
      split at ht
      · cases ht
        refine h.unlink hinv rfl rfl fun b j _ hj hn => ?_
        -- the path names the file of the object, which no recovery has locked
        have hmine : (s.phase a).owned = some i := howned ha rfl
        have hji : j = i :=
          Option.some.inj (hn.symm.trans ((hinv.sound a).owner hmine).named)
        exact (h b).unowned j (Phase.guarded_of_matched hj) a (hji ▸ hmine)
      · cases ht
        exact h.retreat hinv rfl rfl
  | closing i =>
      simp only [State.call, ha] at ht
      cases ht
      refine (h.retreat (p := .idle) hinv rfl rfl).close ?_
      rw [goto_phase]
      rfl
  | inspecting pass c =>
      simp only [State.call, ha] at ht
      cases ht
      exact h.inspect hinv ha
  | opening =>
      simp only [State.call, ha] at ht
      split at ht
      · cases ht
        cases ok <;> exact h.retreat hinv rfl rfl
      · cases ht
        exact h.retreat hinv rfl rfl
  | guarding j =>
      simp only [State.call, ha] at ht
      split at ht
      next hfree =>
        cases ht
        exact h.guard hinv hfree.2 (hsettled j ha hfree.2)
      next =>
        cases ht
        exact h.retreat hinv rfl rfl
  | identifying j =>
      simp only [State.call, ha] at ht
      cases ht
      cases ok with
      | true =>
          refine h.goto hinv (fun k hk => by cases hk) (fun k hk => ?_) fun k hk => by cases hk
          cases hk
          rw [ha]
          rfl
      | false => exact h.retreat hinv rfl rfl
  | matching j =>
      simp only [State.call, ha] at ht
      cases ht
      split
      next hsame =>
        refine h.goto hinv (fun k hk => by cases hk) (fun k hk => ?_) fun k hk => ?_
        · cases hk
          rw [ha]
          rfl
        · cases hk
          exact hsame.2
      next => exact h.retreat hinv rfl rfl
  | removing j =>
      simp only [State.call, ha] at ht
      split at ht
      · cases ht
        refine h.unlink hinv rfl rfl fun b k hba hk hn => ?_
        -- two recoveries would have locked the same file
        have hmatched : (s.phase a).matched = some j := by rw [ha]; rfl
        have hkj : k = j := Option.some.inj (hn.symm.trans ((h a).named j hmatched))
        have hb := (h b).locked k (Phase.guarded_of_matched hk)
        rw [hkj, (h a).locked j (Phase.guarded_of_matched hmatched)] at hb
        exact hba (Option.some.inj hb).symm
      · cases ht
        exact h.retreat hinv rfl rfl
  | dropping j removed =>
      simp only [State.call, ha] at ht
      cases ht
      cases removed with
      | true =>
          refine (h.retreat (p := .creating true) hinv rfl rfl).close ?_
          rw [goto_phase]
          rfl
      | false =>
          refine (h.retreat (p := .idle) hinv rfl rfl).close ?_
          rw [goto_phase]
          rfl

/-- Writing to the lock file keeps it guarded. -/
theorem Guarded.append {remaining : Bytes} {n : Nat} (h : Guarded s) (hinv : s.Invariant net)
    (ha : s.phase a = .writing i remaining) : Guarded (s.append a i remaining n) := by
  have hphase : (s.append a i remaining n).phase a =
      if n = remaining.length then .holding i else .writing i (remaining.drop n) :=
    Function.update_self ..
  refine h.act (a := a) hinv (fun b hba => Function.update_of_ne hba ..) (fun _ _ _ hl _ => hl)
    ?_ (fun _ _ _ _ hn => hn) ?_
  · intro k hk
    rw [hphase] at hk
    rw [ha]
    split at hk <;> exact .inl hk
  · rw [hphase]
    split <;> exact .of_unguarded rfl

/-- A crash keeps the lock files of the others guarded. -/
theorem Guarded.crash {r : Nat} (h : Guarded s) (hinv : s.Invariant net) :
    Guarded (s.crash net r) := by
  have hphase : ∀ b, (s.crash net r).phase b = if net.process b = r then .idle else s.phase b :=
    fun _ => rfl
  have hlock : ∀ j, (s.crash net r).lock j = (s.lock j).filter (net.process · ≠ r) := fun _ => rfl
  intro b
  rw [hphase]
  split
  · exact .of_unguarded rfl
  · next hne =>
      refine (h b).keep (fun j hj => (hinv.sound b).guarded_lt hj) ?_ ?_ (fun _ _ hn => hn)
      · intro j hl _
        rw [hlock, hl, Option.filter_some, if_pos]
        exact decide_eq_true hne
      · intro c i hc
        rw [hphase] at hc
        split at hc
        · cases hc
        · exact .inl hc

/-- Each settled step keeps the lock file guarded. -/
theorem guarded_step {e : Event} (h : Guarded s) (hinv : s.Invariant net) (hsettled : Settled s e)
    (ht : step net s e = some t) : Guarded t := by
  cases e with
  | spawn r =>
      simp only [step] at ht
      split at ht
      · cases ht
        exact fun b => ⟨(h b).locked, (h b).unowned, (h b).named⟩
      · cases ht
  | crash r =>
      simp only [step] at ht
      split at ht
      · cases ht
        exact h.crash hinv
      · cases ht
  | construct a =>
      simp only [step] at ht
      split at ht
      · cases ht
        exact h.retreat hinv rfl rfl
      · cases ht
  | destroy a =>
      simp only [step] at ht
      split at ht
      next i ha =>
        split at ht
        · cases ht
          refine h.proceed hinv (fun k hk => ?_) rfl
          rw [ha]
          exact hk
        · cases ht
      next => cases ht
  | write a n =>
      simp only [step] at ht
      split at ht
      next i remaining ha =>
        split at ht
        · cases ht
          exact h.append hinv ha
        · cases ht
      next => cases ht
  | call a ok =>
      simp only [step] at ht
      split at ht
      · exact h.call hinv hsettled ht
      · cases ht

/-- **A recovery that relies on its lock removes the file it locked.** The guard says that the file
at the name is still the one that was locked and matched, which is what a verified removal asks for.
-/
theorem Guarded.verified {e : Event} (h : Guarded s) : Verified s e := by
  intro j hj
  cases e with
  | call a ok =>
      cases ha : s.phase a with
      | removing k =>
          simp only [reclaimed, ha] at hj
          cases hj
          exact .inr ((h a).named j (by rw [ha]; rfl))
      | _ =>
          simp only [reclaimed, ha] at hj
          cases hj
  | _ => cases hj

/-- A step in which no recovery locks a file that an object owns without a lock. -/
def SettledStep (net : Deployment) (s : State) (e : Event) (t : State) : Prop :=
  Settled s e ∧ step net s e = some t

/-- Where no recovery locks a file that an object owns without a lock, every recovery removes
nothing but the file it locked, so that the lock excludes. -/
theorem verified_of_settled {events : List Event} (h : Run (SettledStep net) s events t)
    (hinv : s.Invariant net) (hguarded : Guarded s) : Run (VerifiedStep net) s events t := by
  induction h with
  | nil => exact .nil _
  | cons hstep _ ih =>
      refine .cons ⟨hguarded.verified, hstep.2⟩ (ih ?_ ?_)
      · exact step_keeps hinv hguarded.verified hstep.2
      · exact guarded_step hguarded hinv hstep.1 hstep.2

/-- **Settled runs exclude each other.** In every state of a settled run at most one participant
holds, and one lock file. -/
theorem exclusive_of_settled {events : List Event} (h : Run (SettledStep net) start events t) :
    ∀ a b i j, t.phase a = .holding i → t.phase b = .holding j → a = b := by
  have hstart : Guarded start := fun _ => .of_unguarded rfl
  have hinv := invariant_of_run (verified_of_settled h (start_invariant net) hstart)
  intro a b i j ha hb
  exact hinv.owner_eq (by rw [ha]; rfl) (by rw [hb]; rfl)

end FileWriteLock

end Compatibility

end FileProvider
