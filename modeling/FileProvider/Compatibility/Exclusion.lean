import FileProvider.Compatibility.WriteLock

/-!
# The exclusion of the write lock

`Invariant` holds the lock path against every object: the file an object owns is the one the path
names, and a recovery that goes on past its second check has seen that the owner of the file it
locked is gone, unless the path names another file by now. A file that the path no longer names
is never named again, so that what a recovery knows of its file stays true (`Sound.later`).

`step_keeps` goes through the steps of one object at a time, by what each of its system calls can
answer; what other objects know is kept by `Sound.later`. The condition `Spares` is on a step of a
recovery and the state before it, and the last section shows a run of five processes that does
without it.
-/

namespace FileProvider

open Bytes

namespace Compatibility

namespace FileWriteLock

variable {net : Deployment} {s t : State} {a b i j : Nat} {p q : Phase}

/-- The creator of a file has crashed. -/
def State.Abandoned (s : State) (net : Deployment) (i : Nat) : Prop :=
  s.status (net.process (s.creator i)) = .gone

/-- An object owns the file that the path names. -/
structure State.Owner (s : State) (a i : Nat) : Prop where
  named : s.name = some i
  creator : s.creator i = a

/-- What the second check of a recovery of file `j` knows: of the file it reads, that it is this one
or that the path no longer names this one. -/
def Inspection.Sound (s : State) (net : Deployment) (j : Nat) : Inspection → Prop
  | .reading k => k < s.next ∧ (k = j ∨ s.name ≠ some j)
  | .probing k owner =>
      k < s.next ∧ owner = net.process (s.creator k) ∧ (k = j ∨ s.name ≠ some j)
  | _ => True

/-- What an object knows at its next call. -/
def State.Sound (s : State) (net : Deployment) (a : Nat) : Phase → Prop
  | .locking i => s.Owner a i ∧ s.content i = []
  | .writing i remaining => s.Owner a i ∧ s.content i ++ remaining = net.metadata a
  | .holding i | .comparing i | .resolving i | .unlinking i => s.Owner a i
  | .guarding j | .identifying j | .matching j => j < s.next
  | .inspecting (.again j) call => j < s.next ∧ call.Sound s net j
  | .removing j => j < s.next ∧ (s.name = some j → s.Abandoned net j)
  | _ => True

structure State.Invariant (net : Deployment) (s : State) : Prop where
  named : ∀ i, s.name = some i → i < s.next
  content : ∀ i < s.next, s.content i <+: net.metadata (s.creator i)
  born : ∀ i < s.next, s.status (net.process (s.creator i)) ≠ .unborn
  live : ∀ a, s.phase a ≠ .idle → s.status (net.process a) = .live
  sound : ∀ a, s.Sound net a (s.phase a)

/-- The invariant holds before the first process. -/
theorem start_invariant (net : Deployment) : start.Invariant net where
  named _ h := nomatch h
  content _ h := nomatch h
  born _ h := nomatch h
  live _ h := absurd rfl h
  sound _ := trivial

/-! ## What stays true -/

/-- A later state: files keep their creators, what has crashed stays so, and the path names what it
named, a new file, or nothing. -/
structure Later (s t : State) : Prop where
  next : s.next ≤ t.next
  creator : ∀ i < s.next, t.creator i = s.creator i
  gone : ∀ p, s.status p = .gone → t.status p = .gone
  named : ∀ i < s.next, t.name = some i → s.name = some i

/-- A participant in a phase that owns the lock file owns it in the state. -/
theorem State.Sound.owner (h : s.Sound net a p) (hown : p.owned = some i) : s.Owner a i := by
  cases p with
  | locking k | writing k rest =>
      cases hown
      exact h.1
  | holding k | comparing k | resolving k | unlinking k =>
      cases hown
      exact h
  | _ => cases hown

/-- **What an object knows stays true**, as long as nothing happens to the file it owns. -/
theorem State.Sound.later (h : s.Sound net a p) (hl : Later s t)
    (hown : ∀ i, p.owned = some i → t.Owner a i ∧ t.content i = s.content i) :
    t.Sound net a p := by
  have hname : ∀ {k j}, j < s.next → (k = j ∨ s.name ≠ some j) → (k = j ∨ t.name ≠ some j) := by
    intro k j hj hk
    rcases hk with hk | hk
    · exact .inl hk
    · exact .inr fun ht => hk (hl.named j hj ht)
  cases p with
  | locking i =>
      obtain ⟨howner, hcontent⟩ := hown i rfl
      exact ⟨howner, hcontent.trans h.2⟩
  | writing i remaining =>
      obtain ⟨howner, hcontent⟩ := hown i rfl
      refine ⟨howner, ?_⟩
      rw [hcontent]
      exact h.2
  | holding i | comparing i | resolving i | unlinking i => exact (hown i rfl).1
  | guarding j | identifying j | matching j => exact Nat.lt_of_lt_of_le h hl.next
  | removing j =>
      obtain ⟨hj, hgone⟩ := h
      refine ⟨Nat.lt_of_lt_of_le hj hl.next, fun ht => ?_⟩
      rw [Abandoned, hl.creator j hj]
      exact hl.gone _ (hgone (hl.named j hj ht))
  | inspecting pass call =>
      cases pass with
      | first => trivial
      | again j =>
          obtain ⟨hj, hcall⟩ := h
          refine ⟨Nat.lt_of_lt_of_le hj hl.next, ?_⟩
          cases call with
          | reading k => exact ⟨Nat.lt_of_lt_of_le hcall.1 hl.next, hname hj hcall.2⟩
          | probing k owner =>
              obtain ⟨hk, howner, hsame⟩ := hcall
              refine ⟨Nat.lt_of_lt_of_le hk hl.next, ?_, hname hj hsame⟩
              rw [hl.creator k hk]
              exact howner
          | _ => trivial
  | _ => trivial

/-- What an object knows is not about phases or locks. -/
theorem State.Sound.move (h : s.Sound net a p) (phase : Nat → Phase) (lock : Nat → Option Nat) :
    State.Sound { s with phase := phase, lock := lock } net a p :=
  h.later ⟨le_rfl, fun _ _ => rfl, fun _ h => h, fun _ _ h => h⟩
    fun _ hi => ⟨⟨(h.owner hi).named, (h.owner hi).creator⟩, rfl⟩

/-- The lock file has one owner. -/
theorem State.Owner.eq (h : s.Owner a i) (h' : s.Owner b j) : a = b := by
  have hsame : i = j := Option.some.inj (h.named.symm.trans h'.named)
  subst hsame
  exact h.creator.symm.trans h'.creator

/-- Only one object owns a file. -/
theorem State.Invariant.owner_eq (h : s.Invariant net) (ha : (s.phase a).owned = some i)
    (hb : (s.phase b).owned = some j) : a = b :=
  ((h.sound a).owner ha).eq ((h.sound b).owner hb)

/-! ## Steps that move one object -/

/-- A step of one object on the shared state keeps the invariant. What the object itself knows
afterwards is left as the hypothesis, and the knowledge of the others is carried over by the lemma
about later states. -/
theorem State.Invariant.act (h : s.Invariant net) (hl : Later s t) (hstatus : t.status = s.status)
    (hlive : s.status (net.process a) = .live)
    (hphase : ∀ b, b ≠ a → t.phase b = s.phase b)
    (hnamed : ∀ i, t.name = some i → i < t.next)
    (hfiles : ∀ i < t.next, t.content i <+: net.metadata (t.creator i) ∧
      t.status (net.process (t.creator i)) ≠ .unborn)
    (hothers : ∀ b i, b ≠ a → (s.phase b).owned = some i →
      t.Owner b i ∧ t.content i = s.content i)
    (hself : t.Sound net a (t.phase a)) : t.Invariant net where
  named := hnamed
  content i hi := (hfiles i hi).1
  born i hi := (hfiles i hi).2
  live b hb := by
    rw [hstatus]
    by_cases hba : b = a
    · rw [hba]
      exact hlive
    · rw [hphase b hba] at hb
      exact h.live b hb
  sound b := by
    by_cases hba : b = a
    · rw [hba]
      exact hself
    · rw [hphase b hba]
      exact (h.sound b).later hl (hothers b · hba)

@[simp] theorem goto_phase : (s.goto a p).phase a = p := Function.update_self ..

/-- A change of phase concerns one participant. -/
theorem goto_phase_of_ne (hba : b ≠ a) : (s.goto a p).phase b = s.phase b :=
  Function.update_of_ne hba ..

/-- An object that goes on to its next call keeps the invariant. -/
theorem State.Invariant.goto (h : s.Invariant net) (hlive : s.status (net.process a) = .live)
    (hp : s.Sound net a p) : (s.goto a p).Invariant net := by
  refine h.act (a := a) ⟨le_rfl, fun _ _ => rfl, fun _ h => h, fun _ _ h => h⟩ rfl hlive
    (fun b hba => goto_phase_of_ne hba) h.named (fun i hi => ⟨h.content i hi, h.born i hi⟩)
    (fun b i _ hb => ?_) ?_
  · have howner := (h.sound b).owner hb
    exact ⟨⟨howner.named, howner.creator⟩, rfl⟩
  · rw [goto_phase]
    exact hp.move _ s.lock

/-- The invariant is not about locks. -/
theorem State.Invariant.relock (h : s.Invariant net) (lock : Nat → Option Nat) :
    State.Invariant net { s with lock := lock } where
  named := h.named
  content := h.content
  born := h.born
  live := h.live
  sound a := (h.sound a).move s.phase lock

/-- An object that removes the file named by the path keeps the invariant, where no other object
owns it. -/
theorem State.Invariant.unlink (h : s.Invariant net) (hlive : s.status (net.process a) = .live)
    (hspare : ∀ b i, b ≠ a → (s.phase b).owned = some i → s.name ≠ some i)
    (hp : s.unlink.Sound net a p) : (s.unlink.goto a p).Invariant net := by
  refine h.act (a := a) ⟨le_rfl, fun _ _ => rfl, fun _ h => h, fun _ _ h => nomatch h⟩ rfl hlive
    (fun b hba => goto_phase_of_ne hba) (fun _ h => nomatch h)
    (fun i hi => ⟨h.content i hi, h.born i hi⟩) ?_ ?_
  · intro b i hba hb
    exact absurd ((h.sound b).owner hb).named (hspare b i hba hb)
  · rw [goto_phase]
    exact hp.move _ _

/-- Creating the lock file keeps the invariant, as the name was free. The new inode is numbered by
the next counter, so that nothing an object already knows is about it. -/
theorem State.Invariant.create (h : s.Invariant net) (hlive : s.status (net.process a) = .live)
    (hname : s.name = none) : (s.create a).Invariant net := by
  have hold : ∀ i < s.next, (s.create a).creator i = s.creator i := by
    intro i hi
    exact Function.update_of_ne (Nat.ne_of_lt hi) ..
  refine h.act (a := a) ⟨Nat.le_succ _, hold, fun _ h => h, ?_⟩ rfl hlive
    (fun b hba => Function.update_of_ne hba ..) ?_ ?_ ?_ ?_
  · intro i hi hnew
    have hsame : s.next = i := Option.some.inj hnew
    omega
  · intro i hnew
    have hsame : s.next = i := Option.some.inj hnew
    rw [← hsame]
    exact Nat.lt_succ_self _
  · intro i hi
    show Function.update s.content s.next [] i <+: net.metadata
        (Function.update s.creator s.next a i) ∧
      s.status (net.process (Function.update s.creator s.next a i)) ≠ .unborn
    by_cases hnew : i = s.next
    · rw [hnew, Function.update_self, Function.update_self, hlive]
      exact ⟨List.nil_prefix, by decide⟩
    · have hi' : i < s.next := Nat.lt_of_le_of_ne (Nat.le_of_lt_succ hi) hnew
      rw [Function.update_of_ne hnew, Function.update_of_ne hnew]
      exact ⟨h.content i hi', h.born i hi'⟩
  · intro b i _ hb
    have hnamed := ((h.sound b).owner hb).named
    rw [hname] at hnamed
    cases hnamed
  · show State.Sound _ net a (Function.update s.phase a (.locking s.next) a)
    rw [Function.update_self]
    exact ⟨⟨rfl, Function.update_self ..⟩, Function.update_self ..⟩

/-- Writing to the lock file keeps the invariant. Only the object that owns the file may write to
it, and what it writes is a further part of its own metadata. -/
theorem State.Invariant.append {remaining : Bytes} {n : Nat} (h : s.Invariant net)
    (hlive : s.status (net.process a) = .live) (ha : s.phase a = .writing i remaining) :
    (s.append a i remaining n).Invariant net := by
  have hsound := h.sound a
  rw [ha] at hsound
  obtain ⟨howner, hcontent⟩ := hsound
  have hmine : (s.phase a).owned = some i := by rw [ha]; rfl
  have hwritten : s.content i ++ remaining.take n ++ remaining.drop n = net.metadata a := by
    rw [List.append_assoc, List.take_append_drop]
    exact hcontent
  refine h.act (a := a) ⟨le_rfl, fun _ _ => rfl, fun _ h => h, fun _ _ h => h⟩ rfl hlive
    (fun b hba => Function.update_of_ne hba ..) h.named ?_ ?_ ?_
  · intro k hk
    show Function.update s.content i (s.content i ++ remaining.take n) k <+:
        net.metadata (s.creator k) ∧ s.status (net.process (s.creator k)) ≠ .unborn
    by_cases hki : k = i
    · rw [hki, Function.update_self, howner.creator, hlive]
      exact ⟨⟨_, hwritten⟩, by decide⟩
    · rw [Function.update_of_ne hki]
      exact ⟨h.content k hk, h.born k hk⟩
  · intro b k hba hb
    exact absurd (h.owner_eq hb hmine) hba
  · show State.Sound _ net a (Function.update s.phase a
      (if n = remaining.length then .holding i else .writing i (remaining.drop n)) a)
    rw [Function.update_self]
    split
    · exact ⟨howner.named, howner.creator⟩
    · refine ⟨⟨howner.named, howner.creator⟩, ?_⟩
      show Function.update s.content i _ i ++ _ = _
      rw [Function.update_self]
      exact hwritten

/-! ## The owner checks -/

/-- The end of a pass keeps the invariant, where it goes on to remove only what was proven to be its
own. -/
theorem State.Invariant.concluded {pass : Pass} {proven : Bool} (h : s.Invariant net)
    (hlive : s.status (net.process a) = .live)
    (hp : ∀ j, pass = .again j → proven = true → s.Sound net a (.removing j)) :
    (s.concluded a pass proven).Invariant net := by
  cases pass with
  | first => cases proven <;> exact h.goto hlive trivial
  | again j =>
      cases proven with
      | false => exact h.goto hlive trivial
      | true => exact h.goto hlive (hp j rfl rfl)

/-- What a check has found out lets it go on to its next call. -/
theorem State.Sound.check {pass : Pass} {c c' : Inspection}
    (h : s.Sound net a (.inspecting pass c))
    (hc : ∀ j, pass = .again j → j < s.next → c'.Sound s net j) :
    s.Sound net a (.inspecting pass c') := by
  cases pass with
  | first => trivial
  | again j => exact ⟨h.1, hc j rfl h.1⟩

/-- A call of an owner check keeps the invariant. The owner that is read is the creator of the file
that was opened, and once that process is not found it has crashed, since it had started. -/
theorem State.Invariant.inspect {pass : Pass} {c : Inspection} {ok : Bool} (h : s.Invariant net)
    (hlive : s.status (net.process a) = .live) (ha : s.phase a = .inspecting pass c) :
    (s.inspect net.host a pass ok c).Invariant net := by
  have hsound := h.sound a
  rw [ha] at hsound
  have hgive : (s.concluded a pass false).Invariant net := h.concluded hlive nofun
  cases c with
  | symlink => exact h.goto hlive (hsound.check fun _ _ _ => trivial)
  | regular =>
      simp only [State.inspect]
      split
      · exact h.goto hlive (hsound.check fun _ _ _ => trivial)
      · exact hgive
  | size =>
      simp only [State.inspect]
      split
      · split
        · exact h.goto hlive (hsound.check fun _ _ _ => trivial)
        · exact hgive
      · exact hgive
  | opening =>
      simp only [State.inspect]
      split
      next k hname =>
        split
        · refine h.goto hlive (hsound.check fun j _ _ => ⟨h.named k hname, ?_⟩)
          by_cases hkj : k = j
          · exact .inl hkj
          · exact .inr fun hj => hkj (Option.some.inj (hname.symm.trans hj))
        · exact hgive
      next => exact hgive
  | reading k =>
      simp only [State.inspect]
      split
      next q howner =>
        split
        · cases pass with
          | first => exact h.goto hlive trivial
          | again j =>
              obtain ⟨hj, hk, hsame⟩ := hsound
              have hq := ownerOf_of_prefix (h.content k hk) howner
              exact h.goto hlive ⟨hj, hk, hq, hsame⟩
        · exact hgive
      next => exact hgive
  | probing k q =>
      refine h.concluded hlive fun j hpass hproven => ?_
      subst hpass
      obtain ⟨hj, hk, rfl, hsame⟩ := hsound
      refine ⟨hj, fun hname => ?_⟩
      have hkj : k = j := hsame.resolve_right fun hne => hne hname
      subst hkj
      have hdead := (of_decide_eq_true hproven).2
      rw [State.Abandoned]
      cases hstatus : s.status (net.process (s.creator k)) with
      | unborn => exact absurd hstatus (h.born k hk)
      | live => exact absurd hstatus hdead
      | gone => rfl

/-! ## What a removal spares -/

/-- The file of an object that is constructed or under construction. -/
def Phase.claimed : Phase → Option Nat
  | locking i | writing i _ | holding i => some i
  | _ => none

/-- The file that a step unlinks. -/
def unlinked (s : State) : Event → Option Nat
  | .call a true =>
      match s.phase a with
      | .unlinking _ | .removing _ => s.name
      | _ => none
  | _ => none

/-- A step unlinks the file of no living owner. -/
def Spares (s : State) (e : Event) : Prop :=
  ∀ i ∈ unlinked s e, ∀ b, (s.phase b).claimed ≠ some i

/-- A claimed file is an owned one. -/
theorem Phase.owned_of_claimed (h : p.claimed = some i) : p.owned = some i := by
  cases p with
  | locking k | writing k rest | holding k => exact h
  | _ => cases h

/-- A recovery that removes the file it locked removes the file of a crashed process. -/
theorem State.Invariant.removing_spares (h : s.Invariant net) (ha : s.phase a = .removing j)
    (hv : s.name = none ∨ s.name = some j) (hb : (s.phase b).owned = some i) :
    s.name ≠ some i := by
  intro hname
  have hj : s.name = some j := hv.resolve_left fun hnone => by rw [hnone] at hname; cases hname
  have hij : i = j := Option.some.inj (hname.symm.trans hj)
  subst hij
  have hsound := h.sound a
  rw [ha] at hsound
  have hgone := hsound.2 hj
  rw [State.Abandoned, ((h.sound b).owner hb).creator] at hgone
  have hidle : s.phase b ≠ .idle := by
    intro hidle
    rw [hidle] at hb
    cases hb
  rw [h.live b hidle] at hgone
  cases hgone

/-- A verified removal finds its own file under the name, or none. -/
theorem verified_removing {ok : Bool} (hv : Verified s (.call a ok))
    (ha : s.phase a = .removing j) : s.name = none ∨ s.name = some j := by
  refine hv j ?_
  simp only [reclaimed, ha]
  rfl

/-- Where removals are verified every step spares the owner. Only the unlink of a destructor and the
removal of a recovery take a name away: the first is of the file the object itself owns, and the
second is of the file that was verified. -/
theorem State.Invariant.spares {e : Event} (h : s.Invariant net) (hv : Verified s e) :
    Spares s e := by
  intro i hi b hb
  have howned := Phase.owned_of_claimed hb
  cases e with
  | call a ok =>
      cases ok with
      | false => cases hi
      | true =>
          cases ha : s.phase a with
          | unlinking k =>
              have hmine : (s.phase a).owned = some k := by rw [ha]; rfl
              have hba := h.owner_eq howned hmine
              rw [hba, ha] at hb
              cases hb
          | removing j =>
              simp only [unlinked, ha] at hi
              exact h.removing_spares ha (verified_removing hv ha) howned hi
          | _ =>
              simp only [unlinked, ha] at hi
              cases hi
  | _ => cases hi

/-! ## Every step keeps the invariant -/

/-- The calls of the constructor. The three phases are the creation of the file, the lock on it and
the writing of its metadata; a failed call leads to the retry or to the end that the source has for
it. -/
theorem State.Invariant.call_constructor {ok : Bool} (h : s.Invariant net)
    (hlive : s.status (net.process a) = .live) (ht : s.call net a ok = some t)
    (ha : (∃ retried, s.phase a = .creating retried) ∨ (∃ i, s.phase a = .locking i) ∨
      ∃ i remaining, s.phase a = .writing i remaining) : t.Invariant net := by
  have hsound := h.sound a
  rcases ha with ⟨retried, ha⟩ | ⟨i, ha⟩ | ⟨i, remaining, ha⟩
  · simp only [call, ha] at ht
    split at ht
    next hopen =>
      cases ht
      exact h.create hlive hopen.2
    next =>
      cases ht
      cases retried with
      | true => exact h.goto hlive trivial
      | false => exact h.goto hlive trivial
  · rw [ha] at hsound
    simp only [call, ha] at ht
    split at ht
    next =>
      cases ht
      refine (h.goto hlive ?_).relock _
      refine ⟨hsound.1, ?_⟩
      rw [hsound.2]
      rfl
    next =>
      cases ht
      exact h.goto hlive hsound.1
  · rw [ha] at hsound
    simp only [call, ha] at ht
    split at ht
    · cases ht
    · cases ht
      exact h.goto hlive hsound.1

/-- The calls of the destructor. -/
theorem State.Invariant.call_destructor {ok : Bool} (h : s.Invariant net)
    (hlive : s.status (net.process a) = .live) (ht : s.call net a ok = some t)
    (ha : s.phase a = .comparing i ∨ s.phase a = .resolving i ∨ s.phase a = .unlinking i ∨
      s.phase a = .closing i) : t.Invariant net := by
  have hsound := h.sound a
  rcases ha with ha | ha | ha | ha
  · rw [ha] at hsound
    simp only [call, ha] at ht
    cases ht
    cases ok with
    | true => exact h.goto hlive hsound
    | false => exact h.goto hlive trivial
  · rw [ha] at hsound
    simp only [call, ha] at ht
    cases ht
    split
    · exact h.goto hlive hsound
    · exact h.goto hlive trivial
  · simp only [call, ha] at ht
    have hmine : (s.phase a).owned = some i := by rw [ha]; rfl
    split at ht
    · cases ht
      refine h.unlink hlive (fun b k hba hb => ?_) trivial
      exact absurd (h.owner_eq hb hmine) hba
    · cases ht
      exact h.goto hlive trivial
  · simp only [call, ha] at ht
    cases ht
    exact (h.goto (p := .idle) hlive trivial).relock _

/-- The calls of recovery. The phases go from the opening of the found file to the unlink and the
drop of its lock; only the unlink needs the hypothesis that the removal is verified. -/
theorem State.Invariant.call_reclaim {ok : Bool} (h : s.Invariant net)
    (hlive : s.status (net.process a) = .live) (hv : Verified s (.call a ok))
    (ht : s.call net a ok = some t)
    (ha : s.phase a = .opening ∨ s.phase a = .guarding j ∨ s.phase a = .identifying j ∨
      s.phase a = .matching j ∨ s.phase a = .removing j ∨
      ∃ removed, s.phase a = .dropping j removed) : t.Invariant net := by
  have hsound := h.sound a
  rcases ha with ha | ha | ha | ha | ha | ⟨removed, ha⟩
  · simp only [call, ha] at ht
    split at ht
    next k hname =>
      cases ht
      cases ok with
      | true => exact h.goto hlive (h.named k hname)
      | false => exact h.goto hlive trivial
    next =>
      cases ht
      exact h.goto hlive trivial
  · rw [ha] at hsound
    simp only [call, ha] at ht
    split at ht
    · cases ht
      exact (h.goto (p := .identifying j) hlive hsound).relock _
    · cases ht
      exact h.goto hlive trivial
  · rw [ha] at hsound
    simp only [call, ha] at ht
    cases ht
    cases ok with
    | true => exact h.goto hlive hsound
    | false => exact h.goto hlive trivial
  · rw [ha] at hsound
    simp only [call, ha] at ht
    cases ht
    split
    · exact h.goto hlive ⟨hsound, trivial⟩
    · exact h.goto hlive trivial
  · simp only [call, ha] at ht
    split at ht
    · cases ht
      refine h.unlink hlive (fun b k _ hb => ?_) trivial
      exact h.removing_spares ha (verified_removing hv ha) hb
    · cases ht
      exact h.goto hlive trivial
  · simp only [call, ha] at ht
    cases ht
    cases removed with
    | true => exact (h.goto (p := .creating true) hlive trivial).relock _
    | false => exact (h.goto (p := .idle) hlive trivial).relock _

/-- Each system call of a participant keeps the invariant, one case for each phase. The phases are
dealt with in three groups, the constructor, the destructor and recovery, each by a lemma of its
own. -/
theorem State.Invariant.call {ok : Bool} (h : s.Invariant net)
    (hlive : s.status (net.process a) = .live) (hv : Verified s (.call a ok))
    (ht : s.call net a ok = some t) : t.Invariant net := by
  cases ha : s.phase a with
  | idle =>
      simp only [State.call, ha] at ht
      cases ht
  | holding i =>
      simp only [State.call, ha] at ht
      cases ht
  | creating retried => exact h.call_constructor hlive ht (.inl ⟨_, ha⟩)
  | locking i => exact h.call_constructor hlive ht (.inr (.inl ⟨_, ha⟩))
  | writing i remaining => exact h.call_constructor hlive ht (.inr (.inr ⟨_, _, ha⟩))
  | comparing i => exact h.call_destructor hlive ht (.inl ha)
  | resolving i => exact h.call_destructor hlive ht (.inr (.inl ha))
  | unlinking i => exact h.call_destructor hlive ht (.inr (.inr (.inl ha)))
  | closing i => exact h.call_destructor hlive ht (.inr (.inr (.inr ha)))
  | inspecting pass c =>
      simp only [State.call, ha] at ht
      cases ht
      exact h.inspect hlive ha
  | opening => exact h.call_reclaim (j := 0) hlive hv ht (.inl ha)
  | guarding j => exact h.call_reclaim hlive hv ht (.inr (.inl ha))
  | identifying j => exact h.call_reclaim hlive hv ht (.inr (.inr (.inl ha)))
  | matching j => exact h.call_reclaim hlive hv ht (.inr (.inr (.inr (.inl ha))))
  | removing j => exact h.call_reclaim hlive hv ht (.inr (.inr (.inr (.inr (.inl ha)))))
  | dropping j removed =>
      exact h.call_reclaim hlive hv ht (.inr (.inr (.inr (.inr (.inr ⟨_, ha⟩)))))

/-- A new process keeps the invariant. -/
theorem State.Invariant.spawn {r : Nat} (h : s.Invariant net) (hr : s.status r = .unborn) :
    State.Invariant net { s with status := Function.update s.status r .live } := by
  have hkept : ∀ r', s.status r' ≠ .unborn →
      Function.update s.status r .live r' = s.status r' := by
    intro r' hr'
    have hne : r' ≠ r := fun he => hr' (he ▸ hr)
    exact Function.update_of_ne hne ..
  refine ⟨h.named, h.content, fun i hi => ?_, fun b hb => ?_, fun b => ?_⟩
  · exact (hkept _ (h.born i hi)).trans_ne (h.born i hi)
  · have hlive := h.live b hb
    exact (hkept _ (by rw [hlive]; decide)).trans hlive
  · refine (h.sound b).later ⟨le_rfl, fun _ _ => rfl, fun r' hgone => ?_, fun _ _ hn => hn⟩
      fun i hi => ?_
    · exact (hkept r' (by rw [hgone]; decide)).trans hgone
    · have howner := (h.sound b).owner hi
      exact ⟨⟨howner.named, howner.creator⟩, rfl⟩

/-- A crash keeps the invariant: the locks of the process are gone, its files stay. -/
theorem State.Invariant.crash {r : Nat} (h : s.Invariant net) (hr : s.status r = .live) :
    (s.crash net r).Invariant net := by
  have hphase : ∀ b, (s.crash net r).phase b = if net.process b = r then .idle else s.phase b :=
    fun _ => rfl
  have hstatus : (s.crash net r).status = Function.update s.status r .gone := rfl
  refine ⟨h.named, h.content, fun i hi => ?_, fun b hb => ?_, fun b => ?_⟩
  · rw [hstatus]
    by_cases he : net.process (s.creator i) = r
    · rw [show net.process ((s.crash net r).creator i) = r from he, Function.update_self]
      decide
    · exact (Function.update_of_ne he ..).trans_ne (h.born i hi)
  · rw [hphase] at hb
    rw [hstatus]
    split at hb
    · exact absurd rfl hb
    · next hne => exact (Function.update_of_ne hne ..).trans (h.live b hb)
  · rw [hphase]
    split
    · trivial
    · refine (h.sound b).later ⟨le_rfl, fun _ _ => rfl, fun r' hgone => ?_, fun _ _ hn => hn⟩
        fun i hi => ?_
      · have hne : r' ≠ r := fun he => by rw [he, hr] at hgone; cases hgone
        exact (Function.update_of_ne hne ..).trans hgone
      · have howner := (h.sound b).owner hi
        exact ⟨⟨howner.named, howner.creator⟩, rfl⟩

/-- **Every step keeps the invariant**, where recovery removes the file it locked. This is the step
lemma of the exclusion: the run lemma and the claim that at most one object holds the name are read
off the invariant. -/
theorem step_keeps {e : Event} (h : s.Invariant net) (hv : Verified s e)
    (ht : step net s e = some t) : t.Invariant net := by
  cases e with
  | spawn r =>
      simp only [step] at ht
      split at ht
      next hr =>
        cases ht
        exact h.spawn hr
      next => cases ht
  | crash r =>
      simp only [step] at ht
      split at ht
      next hr =>
        cases ht
        exact h.crash hr
      next => cases ht
  | construct a =>
      simp only [step] at ht
      split at ht
      next hidle =>
        cases ht
        exact h.goto hidle.1 trivial
      next => cases ht
  | destroy a =>
      simp only [step] at ht
      split at ht
      next i ha =>
        split at ht
        next hlive =>
          cases ht
          have hsound := h.sound a
          rw [ha] at hsound
          exact h.goto hlive hsound
        next => cases ht
      next => cases ht
  | write a n =>
      simp only [step] at ht
      split at ht
      next i remaining ha =>
        split at ht
        next hwrite =>
          cases ht
          exact h.append hwrite.1 ha
        next => cases ht
      next => cases ht
  | call a ok =>
      simp only [step] at ht
      split at ht
      next hlive => exact h.call hlive hv ht
      next => cases ht

/-! ## Exclusion -/

/-- A step in which a recovery removes nothing but the file it locked. -/
def VerifiedStep (net : Deployment) (s : State) (e : Event) (t : State) : Prop :=
  Verified s e ∧ step net s e = some t

/-- The invariant holds in every state of a verified run, by induction on the run. -/
theorem invariant_of_run {events : List Event} (h : Run (VerifiedStep net) start events t) :
    t.Invariant net :=
  h.invariant (fun hs ht => step_keeps hs ht.1 ht.2) (start_invariant net)

/-- **The write lock excludes.** In every run whose recoveries remove nothing but the file they have
locked, at most one participant holds the lock, it is alive and the name is that of its file, and
the next step, of recovery or release too, leaves the lock file of a living owner alone. The
participants are any processes, and each of their system calls is a step of its own, crashes
included. -/
theorem exclusive {events : List Event} (h : Run (VerifiedStep net) start events t) :
    (∀ a b i j, t.phase a = .holding i → t.phase b = .holding j → a = b) ∧
      (∀ a i, t.phase a = .holding i → t.status (net.process a) = .live ∧ t.name = some i) ∧
      ∀ e u, VerifiedStep net t e u → Spares t e := by
  have hinv := invariant_of_run h
  have howned : ∀ a i, t.phase a = .holding i → (t.phase a).owned = some i := by
    intro a i ha
    rw [ha]
    rfl
  refine ⟨fun a b i j ha hb => ?_, fun a i ha => ⟨?_, ?_⟩, fun e u he => ?_⟩
  · exact hinv.owner_eq (howned a i ha) (howned b j hb)
  · exact hinv.live a (by rw [ha]; nofun)
  · exact ((hinv.sound a).owner (howned a i ha)).named
  · exact hinv.spares he.1

/-- Five processes, each with one lock. -/
def sample : Deployment where
  process a := a + 1
  application _ := ascii "Editor"
  host := ascii "mac"

/-- The next calls of an object, none of them refused. -/
def calls (a n : Nat) : List Event := List.replicate n (.call a true)

/-- An object creates the lock file, locks it and writes its metadata. -/
def acquire (a : Nat) : List Event := calls a 2 ++ [.write a (sample.metadata a).length]

/-- The first process crashes with the lock, and the second one recovers it. -/
def recovery : List Event :=
  [.spawn 1, .spawn 2, .construct 0] ++ acquire 0 ++ [.crash 1, .construct 1] ++ calls 1 19
    ++ acquire 1

/-- A run in which a process crashes and another recovers the lock, and holds it alone. -/
theorem exclusive_sample : ∃ t, Run (VerifiedStep sample) start recovery t ∧
    t.phase 1 = .holding 1 ∧ ∀ b j, t.phase b = .holding j → b = 1 := by
  have hfound : ∃ t, Run (fun s e t => (if Verified s e then step sample s e else none) = some t)
      start recovery t ∧ t.phase 1 = .holding 1 := Run.of_any (by decide +kernel)
  obtain ⟨t, hrun, hheld⟩ := hfound
  have hverified : Run (VerifiedStep sample) start recovery t := hrun.imp fun _ ht => by
    split at ht
    next hv => exact ⟨hv, ht⟩
    next => cases ht
  exact ⟨t, hverified, hheld, fun b j hb => (exclusive hverified).1 b 1 j 1 hb hheld⟩

/-- The second process finds the first one dead and stops before it opens the lock file; the third
one recovers the lock and creates its own file, which the second one locks and compares; refused its
own lock, the third one removes that file; the fourth one takes the lock and crashes, which the
second one finds in its second check; the fifth one recovers the lock and takes it. -/
def beforeRemoval : List Event :=
  [.spawn 1, .spawn 2, .spawn 3, .spawn 4, .spawn 5, .construct 0] ++ acquire 0
    ++ [.crash 1, .construct 1] ++ calls 1 7 ++ [.construct 2] ++ calls 2 20 ++ calls 1 4
    ++ calls 2 5 ++ [.construct 3] ++ acquire 3 ++ [.crash 4] ++ calls 1 6
    ++ [.construct 4] ++ calls 4 19 ++ acquire 4

/-- The second process removes the lock file of the fifth one and takes the lock, too. -/
def race : List Event := beforeRemoval ++ calls 1 2 ++ acquire 1

/-- **Two living processes hold the lock**, the second of which removed the lock file of the first
one in its recovery. -/
theorem two_holders :
    (∃ s, Run (fun s e t => step sample s e = some t) start beforeRemoval s ∧
      s.phase 4 = .holding 3 ∧ unlinked s (.call 1 true) = some 3 ∧ ¬ Spares s (.call 1 true)) ∧
    ∃ t, Run (fun s e t => step sample s e = some t) start race t ∧
      t.phase 1 = .holding 4 ∧ t.phase 4 = .holding 3 ∧
      t.status (sample.process 1) = .live ∧ t.status (sample.process 4) = .live ∧
      sample.process 1 ≠ sample.process 4 := by
  constructor
  · have hfound : ∃ s, Run (fun s e t => step sample s e = some t) start beforeRemoval s ∧
        s.phase 4 = .holding 3 ∧ unlinked s (.call 1 true) = some 3 :=
      Run.of_any (by decide +kernel)
    obtain ⟨s, hrun, hholds, hunlinked⟩ := hfound
    refine ⟨s, hrun, hholds, hunlinked, fun hspares => hspares 3 hunlinked 4 ?_⟩
    rw [hholds]
    rfl
  · exact Run.of_any (by decide +kernel)

end FileWriteLock

end Compatibility

end FileProvider
