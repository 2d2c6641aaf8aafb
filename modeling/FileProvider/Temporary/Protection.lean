import FileProvider.Temporary.Lease

/-!
# What the leases protect

A held lease has locked the file that the sentinel of its directory names, because the second
inspection saw it there under the lock and others spare it from then on (`Invariant`). So two leases
held on one directory have locked one file, and the locks on a file are compatible: while a writer
holds its lease there is no cleaner in the directory, and its temporary stays.

The invariant has a part for each phase of a lease, which its own steps make and the steps of others
leave. The condition on others is that they spare the sentinel and the temporaries of a directory
while a lease is held on it.
-/

namespace FileProvider

open Bytes

namespace TemporaryLease

variable {net : Deployment} {s t : State} {a b d d' i j : Nat} {x y : Bytes} {p : Phase}

/-- The file that a lease has locked. -/
def Phase.locked : Phase → Option Nat
  | .inspecting _ i .second => some i
  | .matching _ handle .second => some handle.node
  | .held _ i => some i
  | _ => none

structure State.Invariant (net : Deployment) (s : State) : Prop where
  compatible : ∀ i, Advisory.Compatible (s.locks i)
  locked : ∀ a i, (s.phase a).locked = some i → (a, (net.mode a).operation) ∈ s.locks i
  named : ∀ a d i, s.phase a = .held d i → s.world.entry d sentinel = some i
  staged : ∀ a x n, s.temporary a = some (x, n) → ∃ d i, s.phase a = .held d i ∧
    net.mode a = .shared ∧ x ≠ sentinel ∧ s.world.entry d x = some n
  single : ∀ a b d i j x n m, s.phase a = .held d i → s.phase b = .held d j →
    s.temporary a = some (x, n) → s.temporary b = some (x, m) → a = b

/-- The invariant holds before the first process, in any world. -/
theorem start_invariant (net : Deployment) (w : World) : (start w).Invariant net where
  compatible _ := .nil
  locked _ _ h := nomatch h
  named _ _ _ h := nomatch h
  staged _ _ _ h := nomatch h
  single _ _ _ _ _ _ _ _ h := nomatch h

namespace World

variable {w : World} {e : Option Nat}

/-- Setting an entry changes that entry only. -/
theorem set_entry : (w.set d x e).entry d' y = if d' = d ∧ y = x then e else w.entry d' y := by
  rw [set]
  dsimp only
  by_cases hd : d' = d
  · subst hd
    rw [Function.update_self, Function.update_apply]
    exact if_congr (by rw [and_iff_right rfl]) rfl rfl
  · rw [Function.update_of_ne hd, if_neg fun h => hd h.1]

/-- Other entries are as they were. -/
theorem set_entry_of_ne (h : d' = d → y ≠ x) : (w.set d x e).entry d' y = w.entry d' y := by
  rw [set_entry, if_neg fun hsame => h hsame.1 hsame.2]

@[simp]
theorem create_entry {kind : NodeKind} :
    (w.create d x kind).entry = (w.set d x (some w.next)).entry :=
  rfl

end World

/-! ## Leases on one directory -/

/-- What two leases held on one directory have locked is one file, and they share it. -/
theorem State.Invariant.shared (h : s.Invariant net) (ha : s.phase a = .held d i)
    (hb : s.phase b = .held d j) (hne : a ≠ b) : net.mode a = .shared ∧ net.mode b = .shared := by
  have hsame : i = j := Option.some.inj ((h.named a d i ha).symm.trans (h.named b d j hb))
  subst hsame
  have hlocked : ∀ {c}, s.phase c = .held d i → (c, (net.mode c).operation) ∈ s.locks i :=
    fun {c} hc => h.locked c i (by rw [hc]; rfl)
  obtain ⟨hma, hmb⟩ := (h.compatible i).shared (hlocked ha) (hlocked hb) hne
  have hmode : ∀ {m : Mode}, m.operation = .shared → m = .shared := fun {m} hm => by
    cases m with
    | shared => rfl
    | tryExclusive => cases hm
  exact ⟨hmode hma, hmode hmb⟩

/-- A lease that is not held has no temporary. -/
theorem State.Invariant.temporary_none (h : s.Invariant net) (ha : ∀ d i, s.phase a ≠ .held d i) :
    s.temporary a = none := by
  cases hs : s.temporary a with
  | none => rfl
  | some stage =>
      obtain ⟨d, i, hheld, -⟩ := h.staged a stage.1 stage.2 hs
      exact absurd hheld (ha d i)

/-! ## What one step changes -/

@[simp]
theorem State.goto_phase_self : (s.goto a p).phase a = p := Function.update_self _ _ _

/-- A change of phase concerns one participant. -/
theorem State.goto_phase_of_ne (h : b ≠ a) : (s.goto a p).phase b = s.phase b :=
  Function.update_of_ne h _ _

/-- A lease that does not hold goes to a phase in which it knows of its lock, and, if it holds the
lease now, of the sentinel. -/
theorem State.Invariant.goto (h : s.Invariant net) (ha : ∀ d i, s.phase a ≠ .held d i)
    (hlocked : ∀ i, p.locked = some i → (a, (net.mode a).operation) ∈ s.locks i)
    (hnamed : ∀ d i, p = .held d i → s.world.entry d sentinel = some i) :
    (s.goto a p).Invariant net := by
  have hnone : s.temporary a = none := h.temporary_none ha
  have hother : ∀ {b x n}, s.temporary b = some (x, n) → b ≠ a := by
    rintro b x n hb rfl
    rw [hnone] at hb
    cases hb
  refine ⟨h.compatible, fun b i hb => ?_, fun b d i hb => ?_, fun b x n hb => ?_, ?_⟩
  · by_cases hba : b = a
    · subst hba
      rw [goto_phase_self] at hb
      exact hlocked i hb
    · rw [goto_phase_of_ne hba] at hb
      exact h.locked b i hb
  · by_cases hba : b = a
    · subst hba
      rw [goto_phase_self] at hb
      exact hnamed d i hb
    · rw [goto_phase_of_ne hba] at hb
      exact h.named b d i hb
  · rw [goto_phase_of_ne (hother hb)]
    exact h.staged b x n hb
  · intro b c d i j x n m hb hc hbx hcx
    rw [goto_phase_of_ne (hother hbx)] at hb
    rw [goto_phase_of_ne (hother hcx)] at hc
    exact h.single b c d i j x n m hb hc hbx hcx

/-- The same, where no lock is known of. -/
theorem State.Invariant.move (h : s.Invariant net) (ha : ∀ d i, s.phase a ≠ .held d i)
    (hp : p.locked = none) : (s.goto a p).Invariant net := by
  refine h.goto ha (fun i hi => ?_) (fun d i hi => ?_)
  · rw [hp] at hi
    cases hi
  · rw [hi] at hp
    cases hp

/-- Closing a file gives up the locks on it, and keeps the invariant. It only leaves locks, and
every phase that needs one is of another participant or is left with it. -/
theorem State.Invariant.close (h : s.Invariant net) (a : Nat) : (s.close a).Invariant net := by
  have hphase : ∀ {b q}, (s.close a).phase b = q → q ≠ .idle → b ≠ a ∧ s.phase b = q := by
    intro b q hb hq
    have hba : b ≠ a := by
      rintro rfl
      exact hq (hb.symm.trans (Function.update_self ..))
    exact ⟨hba, (Function.update_of_ne hba _ _).symm.trans hb⟩
  have htemporary : ∀ {b x n}, (s.close a).temporary b = some (x, n) →
      s.temporary b = some (x, n) ∧ b ≠ a := by
    intro b x n hb
    have hba : b ≠ a := by
      rintro rfl
      have hnone : (s.close b).temporary b = none := Function.update_self ..
      rw [hnone] at hb
      cases hb
    exact ⟨(Function.update_of_ne hba _ _).symm.trans hb, hba⟩
  refine ⟨fun i => (h.compatible i).release, fun b i hb => ?_, fun b d i hb => ?_,
    fun b x n hb => ?_, fun b c d i j x n m hb hc hbx hcx => ?_⟩
  · have hba : (s.close a).phase b ≠ .idle := fun hidle => by
      rw [hidle] at hb
      cases hb
    obtain ⟨hne, hsame⟩ := hphase rfl hba
    rw [← hsame] at hb
    exact Advisory.mem_release.2 ⟨h.locked b i hb, hne⟩
  · exact h.named b d i (hphase hb nofun).2
  · obtain ⟨hold, hba⟩ := htemporary hb
    obtain ⟨d, i, hheld, hrest⟩ := h.staged b x n hold
    exact ⟨d, i, (Function.update_of_ne hba _ _).trans hheld, hrest⟩
  · exact h.single b c d i j x n m (hphase hb nofun).2 (hphase hc nofun).2 (htemporary hbx).1
      (htemporary hcx).1

/-- A file system in which the sentinels and the temporaries of those who hold a lease are as they
were. -/
theorem State.Invariant.world (h : s.Invariant net) {w : World}
    (hspares : ∀ a d i, s.phase a = .held d i →
      w.entry d sentinel = s.world.entry d sentinel ∧
        ∀ x n, s.temporary a = some (x, n) → w.entry d x = s.world.entry d x) :
    State.Invariant net { s with world := w } where
  compatible := h.compatible
  locked := h.locked
  named a d i ha := (hspares a d i ha).1.trans (h.named a d i ha)
  staged a x n ha := by
    obtain ⟨d, i, hheld, hmode, hx, hentry⟩ := h.staged a x n ha
    exact ⟨d, i, hheld, hmode, hx, ((hspares a d i hheld).2 x n ha).trans hentry⟩
  single := h.single

/-- Arriving at a directory keeps the invariant, for a participant without a lease. -/
theorem State.Invariant.arrive (h : s.Invariant net) (ha : ∀ d i, s.phase a ≠ .held d i) (d : Nat)
    (rest : List Bytes) : (s.arrive a d rest).Invariant net := by
  cases rest with
  | nil => exact h.move ha rfl
  | cons x rest => exact h.move ha rfl

/-- Trying again keeps the invariant. -/
theorem State.Invariant.again (h : s.Invariant net) (ha : ∀ d i, s.phase a ≠ .held d i)
    (d attempts : Nat) : (s.again a d attempts).Invariant net := by
  unfold State.again
  split
  · exact h.move ha rfl
  · exact h.close a

/-- A new sentinel stands where no lease is held: the sentinel of a held lease exists. -/
theorem State.Invariant.openSentinel (h : s.Invariant net) (ha : ∀ d i, s.phase a ≠ .held d i)
    (d attempts : Nat) : (s.openSentinel a d attempts).Invariant net := by
  unfold State.openSentinel
  split
  · split
    · exact h.close a
    · exact h.move ha rfl
  next hvacant =>
    split
    · exact h.move ha rfl
    · have hworld : State.Invariant net { s with world := s.world.create d sentinel .regular } := by
        refine h.world fun b d' i hb => ?_
        have hne : d' ≠ d := by
          rintro rfl
          rw [h.named b d' i hb] at hvacant
          cases hvacant
        rw [World.create_entry]
        exact ⟨World.set_entry_of_ne fun hd => absurd hd hne,
          fun x n _ => World.set_entry_of_ne fun hd => absurd hd hne⟩
      exact hworld.move ha rfl

/-- A lock that is granted. It is compatible with those that are held on the file, and everybody
else keeps what they had. -/
theorem State.Invariant.flock (h : s.Invariant net)
    (hgrants : Advisory.Grants (s.locks i) a (net.mode a).operation) :
    (s.flock a i (net.mode a).operation).Invariant net := by
  refine ⟨fun j => ?_, fun b j hb => ?_, h.named, h.staged, h.single⟩
  · show Advisory.Compatible (Function.update s.locks i _ j)
    by_cases hj : j = i
    · subst hj
      rw [Function.update_self]
      exact (h.compatible j).take hgrants
    · rw [Function.update_of_ne hj]
      exact h.compatible j
  · show _ ∈ Function.update s.locks i _ j
    have hold := h.locked b j hb
    by_cases hj : j = i
    · subst hj
      rw [Function.update_self]
      by_cases hba : b = a
      · subst hba
        exact Advisory.mem_take_self
      · exact (Advisory.mem_take hba).2 hold
    · rw [Function.update_of_ne hj]
      exact hold

/-! ## A call of the constructor -/

/-- Each system call keeps the invariant, one case for each phase. The phases go from the arrival to
the lease and back, and each is a step of the object itself. -/
theorem State.Invariant.call {refusal : Option Errno} (h : s.Invariant net)
    (ht : s.call net a refusal = some t) : t.Invariant net := by
  have hidle : ∀ {q}, s.phase a = q → (∀ d i, q ≠ .held d i) → ∀ d i, s.phase a ≠ .held d i :=
    fun {q} hq hne d i hheld => hne d i (hq.symm.trans hheld)
  unfold State.call at ht
  split at ht
  next => cases ht
  next => cases ht
  next => cases ht
  next ha =>
    cases ht
    split
    · exact h.arrive (hidle ha nofun) root _
    · exact h.close a
  next d x rest ha =>
    split at ht
    next i hi =>
      cases ht
      split
      · exact h.arrive (hidle ha nofun) i rest
      · exact h.close a
    next =>
      cases ht
      exact h.close a
  next d attempts ha =>
    split at ht
    next =>
      cases ht
      exact h.openSentinel (hidle ha nofun) d attempts
    next =>
      cases ht
      exact h.again (hidle ha nofun) d attempts
    next =>
      cases ht
      exact h.move (hidle ha nofun) rfl
    next =>
      cases ht
      exact h.close a
  next d attempts ha =>
    cases ht
    split
    · exact h.move (hidle ha nofun) rfl
    · exact h.close a
  next attempts pinned ha =>
    split at ht
    next =>
      cases ht
      split
      · exact h.again (hidle ha nofun) pinned.node attempts
      · exact h.close a
    next =>
      cases ht
      exact h.close a
  next d i pass ha =>
    cases ht
    split
    · refine h.goto (hidle ha nofun) (fun j hj => ?_) nofun
      cases pass with
      | first => cases hj
      | second =>
          obtain rfl : i = j := Option.some.inj hj
          exact h.locked a i (by rw [ha]; rfl)
    · exact h.close a
  next d handle pass ha =>
    split at ht
    next i hi =>
      split at ht
      next hsound =>
        cases ht
        cases pass with
        | first => exact h.move (hidle ha nofun) rfl
        | second =>
            -- the lock is held, and the directory names the file under it
            refine h.goto (hidle ha nofun) (fun j hj => ?_) (fun d' j hj => ?_)
            · exact h.locked a j (by rw [ha]; exact hj)
            · cases hj
              obtain ⟨-, -, -, -, -, hnode⟩ := hsound
              rw [hi]
              exact congrArg some hnode.symm
      next =>
        cases ht
        exact h.close a
    next =>
      cases ht
      exact h.close a
  next d i ha =>
    split at ht
    next =>
      cases ht
      exact h
    next =>
      cases ht
      exact h.close a
    next =>
      split at ht
      next hgrants =>
        cases ht
        refine (h.flock hgrants).goto (hidle ha nofun) (fun j hj => ?_) nofun
        obtain rfl : i = j := Option.some.inj hj
        show _ ∈ Function.update s.locks i _ i
        rw [Function.update_self]
        exact Advisory.mem_take_self
      next =>
        split at ht
        next => cases ht
        next =>
          cases ht
          exact h.move (hidle ha nofun) rfl

/-! ## What holders do -/

/-- A writer's temporary is new in its directory, so it is nobody else's. -/
theorem State.Invariant.stage {kind : NodeKind} (h : s.Invariant net) (ha : s.phase a = .held d i)
    (hmode : net.mode a = .shared) (hx : x ≠ sentinel) (hvacant : s.world.entry d x = none) :
    State.Invariant net { s with
      world := s.world.create d x kind
      temporary := Function.update s.temporary a (some (x, s.world.next)) } := by
  have hentry : ∀ {d' y n}, s.world.entry d' y = some n →
      (s.world.create d x kind).entry d' y = s.world.entry d' y := by
    intro d' y n hold
    rw [World.create_entry]
    refine World.set_entry_of_ne ?_
    rintro rfl rfl
    rw [hvacant] at hold
    cases hold
  have hnew : (s.world.create d x kind).entry d x = some s.world.next := by
    rw [World.create_entry, World.set_entry, if_pos ⟨rfl, rfl⟩]
  -- what another holder in the directory has staged stands under another name
  have hother : ∀ {b j n}, s.phase b = .held d j → s.temporary b ≠ some (x, n) := by
    intro b j n hb hold
    obtain ⟨d', j', hb', -, -, hstands⟩ := h.staged b x n hold
    obtain ⟨rfl, -⟩ := Phase.held.inj (hb.symm.trans hb')
    rw [hvacant] at hstands
    cases hstands
  have hcases : ∀ {b y n}, Function.update s.temporary a (some (x, s.world.next)) b = some (y, n) →
      b = a ∧ y = x ∧ n = s.world.next ∨ b ≠ a ∧ s.temporary b = some (y, n) := by
    intro b y n hb
    by_cases hba : b = a
    · subst hba
      rw [Function.update_self] at hb
      cases hb
      exact .inl ⟨rfl, rfl, rfl⟩
    · rw [Function.update_of_ne hba] at hb
      exact .inr ⟨hba, hb⟩
  refine ⟨h.compatible, h.locked, fun b d' j hb => ?_, fun b y n hb => ?_, ?_⟩
  · exact (hentry (h.named b d' j hb)).trans (h.named b d' j hb)
  · rcases hcases hb with ⟨rfl, rfl, rfl⟩ | ⟨-, hold⟩
    · exact ⟨d, i, ha, hmode, hx, hnew⟩
    · obtain ⟨d', j, hheld, hshared, hy, hstands⟩ := h.staged b y n hold
      exact ⟨d', j, hheld, hshared, hy, (hentry hstands).trans hstands⟩
  · intro b c d' j k y n m hb hc hby hcy
    rcases hcases hby with ⟨rfl, rfl, rfl⟩ | ⟨-, hbold⟩
    · rcases hcases hcy with ⟨rfl, -, -⟩ | ⟨-, hcold⟩
      · rfl
      · obtain ⟨rfl, -⟩ := Phase.held.inj (ha.symm.trans hb)
        exact absurd hcold (hother hc)
    · rcases hcases hcy with ⟨rfl, rfl, rfl⟩ | ⟨-, hcold⟩
      · obtain ⟨rfl, -⟩ := Phase.held.inj (ha.symm.trans hc)
        exact absurd hbold (hother hb)
      · exact h.single b c d' j k y n m hb hc hbold hcold

/-- A writer removes nothing but its own temporary. The others have temporaries of other names, or
in other directories. -/
theorem State.Invariant.unstage (h : s.Invariant net) (ha : s.phase a = .held d i) {n : Nat}
    (hax : s.temporary a = some (x, n)) :
    State.Invariant net { s with
      world := s.world.set d x none
      temporary := Function.update s.temporary a none } := by
  obtain ⟨d', i', ha', -, hx, -⟩ := h.staged a x n hax
  have hold : ∀ {b y m}, Function.update s.temporary a none b = some (y, m) →
      s.temporary b = some (y, m) ∧ b ≠ a := by
    intro b y m hb
    have hba : b ≠ a := by
      rintro rfl
      rw [Function.update_self] at hb
      cases hb
    exact ⟨(Function.update_of_ne hba _ _).symm.trans hb, hba⟩
  refine ⟨h.compatible, h.locked, fun b e j hb => ?_, fun b y m hb => ?_,
    fun b c e j k y m l hb hc hby hcy =>
      h.single b c e j k y m l hb hc (hold hby).1 (hold hcy).1⟩
  · exact (World.set_entry_of_ne fun _ => hx.symm).trans (h.named b e j hb)
  · obtain ⟨hby, hba⟩ := hold hb
    obtain ⟨e, j, hheld, hmode, hy, hstands⟩ := h.staged b y m hby
    refine ⟨e, j, hheld, hmode, hy, (World.set_entry_of_ne ?_).trans hstands⟩
    rintro rfl rfl
    exact hba (h.single b a e j i y m n hheld ha hby hax)

/-- **A cleaner removes no temporary of a writer**: there is none in its directory. It holds the
exclusive lock, and a writer with a temporary there would hold a shared one. -/
theorem State.Invariant.clean (h : s.Invariant net) (ha : s.phase a = .held d i)
    (hmode : net.mode a = .tryExclusive) (hx : x ≠ sentinel) :
    State.Invariant net { s with world := s.world.set d x none } := by
  refine h.world fun b e j hb => ⟨World.set_entry_of_ne fun _ => hx.symm, fun y n hby => ?_⟩
  refine World.set_entry_of_ne fun hd => ?_
  subst hd
  obtain ⟨e', j', -, hshared, -⟩ := h.staged b y n hby
  have hba : b ≠ a := by
    rintro rfl
    rw [hmode] at hshared
    cases hshared
  rw [(h.shared hb ha hba).2] at hmode
  cases hmode

/-! ## A step, and a run -/

/-- Each step that spares the leases of others keeps the invariant. There is one case for each
event, and the condition is used where something is removed by somebody else. -/
theorem step_keeps {e : Event} (h : s.Invariant net) (hspares : Spares s e)
    (ht : step net s e = some t) : t.Invariant net := by
  cases e with
  | construct a =>
      simp only [step] at ht
      split at ht
      next ha =>
        cases ht
        split
        · exact h.move (fun d i hheld => nomatch ha.symm.trans hheld) rfl
        · exact h
      next => cases ht
  | call a refusal => exact h.call ht
  | destroy a =>
      simp only [step] at ht
      split at ht
      next =>
        split at ht
        next =>
          cases ht
          exact h.close a
        next => cases ht
      next =>
        split at ht
        next =>
          cases ht
          exact h.close a
        next => cases ht
      next => cases ht
  | crash a =>
      cases ht
      exact h.close a
  | stage a x kind =>
      simp only [step] at ht
      split at ht
      next d i ha =>
        split at ht
        next hstage =>
          cases ht
          obtain ⟨hmode, -, hx, hvacant⟩ := hstage
          exact h.stage ha hmode hx hvacant
        next => cases ht
      next => cases ht
  | unstage a =>
      simp only [step] at ht
      split at ht
      next d i x n ha hax =>
        cases ht
        exact h.unstage ha hax
      next => cases ht
  | clean a x =>
      simp only [step] at ht
      split at ht
      next d i ha =>
        split at ht
        next hclean =>
          cases ht
          exact h.clean ha hclean.1 hclean.2
        next => cases ht
      next => cases ht
  | tamper w =>
      simp only [step] at ht
      split at ht
      next =>
        cases ht
        exact h.world hspares
      next => cases ht

/-- **What the leases protect.** However the calls of the leases fall between one another and
between what others do, in every run in which others spare the sentinel and the temporaries of a
directory while a lease is held on it: two leases held on one directory are shared ones, so that a
cleaner is alone; a held lease has locked the file that its directory names as the sentinel; and the
temporary that a writer created stands in its directory as long as the writer keeps it, whatever the
cleaners remove. -/
theorem leases_protect {w : World} {events : List Event}
    (h : Run (SparingStep net) (start w) events t) :
    (∀ a b d i j, a ≠ b → t.phase a = .held d i → t.phase b = .held d j →
      net.mode a = .shared ∧ net.mode b = .shared) ∧
    (∀ a d i, t.phase a = .held d i →
      t.world.entry d sentinel = some i ∧ (a, (net.mode a).operation) ∈ t.locks i) ∧
    ∀ a x n, t.temporary a = some (x, n) →
      ∃ d i, t.phase a = .held d i ∧ t.world.entry d x = some n := by
  have hinv : t.Invariant net :=
    h.invariant (fun hs ht => step_keeps hs ht.1 ht.2) (start_invariant net w)
  refine ⟨fun a b d i j hne ha hb => hinv.shared ha hb hne,
    fun a d i ha => ⟨hinv.named a d i ha, ?_⟩,
    fun a x n ha => ?_⟩
  · exact hinv.locked a i (by rw [ha]; rfl)
  · obtain ⟨d, i, hheld, -, -, hstands⟩ := hinv.staged a x n ha
    exact ⟨d, i, hheld, hstands⟩

/-- Two writers and a cleaner of one directory. -/
def sample : Deployment where
  mode a := if a < 2 then .shared else .tryExclusive
  directory _ := ascii "/tmp"

/-- A file system with one directory below the root. -/
def sampleWorld : World where
  kind i := if i < 2 then .directory else .special
  size _ := 0
  links i := if i < 2 then 2 else 0
  entry d x := if d = 0 ∧ x = ascii "tmp" then some 1 else none
  target _ := none
  next := 2

/-- A constructor and its calls. -/
def acquire (a calls : Nat) : List Event :=
  .construct a :: List.replicate calls (.call a none)

/-- The cleaner is refused while two writers have their temporaries; one of them removes its own and
the other one crashes, whose temporary the cleaner then removes. -/
def cleaning : List Event :=
  acquire 0 8 ++ [.stage 0 (ascii "stage-1") .regular] ++ acquire 1 8
    ++ [.stage 1 (ascii "stage-2") .directory] ++ acquire 2 6
    ++ [.destroy 2, .unstage 1, .destroy 1, .crash 0] ++ acquire 2 8
    ++ [.clean 2 (ascii "stage-1"), .destroy 2] ++ acquire 1 8
    ++ [.stage 1 (ascii "stage-3") .regular]

/-- What the leases and their holders do themselves. -/
def Event.own : Event → Bool
  | .tamper _ => false
  | _ => true

/-- The library's own steps spare the leases of others. -/
theorem spares_of_own {e : Event} (h : e.own = true) (s : State) : Spares s e := by
  cases e with
  | tamper w => cases h
  | _ => trivial

/-- A run in which a cleaner removes one abandoned stage, and the stage under a lease and the lock
file stay. -/
theorem leases_protect_sample : ∃ t, Run (SparingStep sample) (start sampleWorld) cleaning t ∧
    t.phase 1 = .held 1 2 ∧ t.temporary 1 = some (ascii "stage-3", 5) ∧
    t.world.entry 1 (ascii "stage-1") = none ∧ t.world.entry 1 sentinel = some 2 := by
  have hfound : ∃ t, Run (fun s e t => step sample s e = some t) (start sampleWorld) cleaning t ∧
      t.phase 1 = .held 1 2 ∧ t.temporary 1 = some (ascii "stage-3", 5) ∧
      t.world.entry 1 (ascii "stage-1") = none := Run.of_any (by decide +kernel)
  obtain ⟨t, hrun, hheld, hstaged, hcleaned⟩ := hfound
  have hown : ∀ e ∈ cleaning, e.own = true := by decide +kernel
  have hspares : Run (SparingStep sample) (start sampleWorld) cleaning t :=
    hrun.imp fun he ht => ⟨spares_of_own (hown _ he) _, ht⟩
  exact ⟨t, hspares, hheld, hstaged, hcleaned, ((leases_protect hspares).2.1 1 1 2 hheld).1⟩

end TemporaryLease

end FileProvider
