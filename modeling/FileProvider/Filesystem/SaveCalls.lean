import FileProvider.Filesystem.DeviceCalls

/-!
# What the calls of a save come to

One lemma for each function of `AtomicSave` and of publication, as for the device: opening makes a
stage or leaves nothing but the lock file, discarding removes the stage, and a commit publishes the
bytes of the stage or changes nothing. `Matches` says that a save is as its caller knows it.

The order is that of the life of a save. The stage has a name that no other save has, and the lock
file stays while the lease is held, so the files of others are as they were in every case.
-/

namespace FileProvider

open Bytes Program

namespace Filesystem

variable {allowed : Answer → Prop} {s : Save} {sys : System} {p d : FilePath} {b : Bytes} {m : Nat}

/-! ## Stages -/

/-- The names of stages. -/
def IsStage (p : FilePath) : Prop := (ascii ".iifile-stage-").isPrefixOf p.filename = true

/-- The pattern of the stages of a destination. -/
def stagePattern (destination : FilePath) : FilePath :=
  { destination with filename := ascii ".iifile-stage-XXXXXX" ++ extension destination.filename }

/-- The last place of a token is not before any of its places. The places are searched from the last
one backwards, so that the first one found is at or behind any other. -/
theorem le_rfind {raw token : Bytes} {place : Nat} (hplace : place + token.length ≤ raw.length)
    (h : token.isPrefixOf (raw.drop place) = true) :
    ∃ last, rfind raw token = some last ∧ place ≤ last := by
  have hmem : place ∈ (List.range (raw.length + 1 - token.length)).reverse := by
    rw [List.mem_reverse, List.mem_range]
    omega
  have hsorted : (List.range (raw.length + 1 - token.length)).reverse.Pairwise fun i j => j < i :=
    List.pairwise_reverse.2 List.pairwise_lt_range
  unfold rfind
  generalize (List.range (raw.length + 1 - token.length)).reverse = places at hmem hsorted
  have hfound : (places.find? fun i => token.isPrefixOf (raw.drop i)).isSome :=
    List.find?_isSome.2 ⟨place, hmem, h⟩
  obtain ⟨last, hlast⟩ := Option.isSome_iff_exists.1 hfound
  refine ⟨last, hlast, ?_⟩
  obtain ⟨-, before, after, rfl, hbefore⟩ := List.find?_eq_some_iff_append.1 hlast
  obtain hplace | hplace := List.mem_append.1 hmem
  · have := hbefore place hplace
    rw [h] at this
    cases this
  · obtain rfl | hafter := List.mem_cons.1 hplace
    · exact le_rfl
    · exact ((List.pairwise_cons.1 (List.pairwise_append.1 hsorted).2.1).1 place hafter).le

/-- Every name that is drawn from the pattern of stages is the name of a stage. The token of the
pattern is the last one in it and behind the front part, which the drawn letters therefore leave
alone. -/
theorem isStage_temporaryName (destination : FilePath) (suffix : Bytes) :
    IsStage (temporaryName (stagePattern destination) suffix) := by
  have hfront : (ascii ".iifile-stage-").length = 14 := rfl
  have htoken : (ascii "XXXXXX").length = 6 := rfl
  have hraw : (stagePattern destination).filename
      = ascii ".iifile-stage-" ++ (ascii "XXXXXX" ++ extension destination.filename) := rfl
  have hthere :
      (ascii "XXXXXX").isPrefixOf ((stagePattern destination).filename.drop 14) = true := by
    rw [hraw, List.drop_left' hfront, List.isPrefixOf_iff_prefix]
    exact List.prefix_append _ _
  have hlength : 14 + (ascii "XXXXXX").length ≤ (stagePattern destination).filename.length := by
    rw [hraw, List.length_append, List.length_append, hfront]
    omega
  obtain ⟨last, hlast, hle⟩ := le_rfind hlength hthere
  unfold temporaryName IsStage
  dsimp only
  rw [hlast, List.isPrefixOf_iff_prefix]
  dsimp only
  rw [List.append_assoc]
  refine List.IsPrefix.trans (List.prefix_take_iff.2 ⟨?_, hfront ▸ hle⟩) (List.prefix_append _ _)
  rw [hraw]
  exact List.prefix_append _ _

/-- The lock file of the leases is no stage. -/
theorem not_isStage_sentinel (directory : Bytes) : ¬ IsStage (sentinel directory) := by
  show ¬ (ascii ".iifile-stage-").isPrefixOf (ascii ".iisacc-temporary.lock") = true
  decide

/-! ## The end of a save -/

/-- The disk without the stage of a save. -/
def Save.without (s : Save) : Disk := fun q => if s.stage = some q then .absent else s.disk q

/-- What is left of a save that has been discarded. -/
structure Discarded (s s' : Save) : Prop where
  isOpen : s'.output.isOpen = false
  stage : s'.stage = none
  destination : s'.destination = s.destination
  committed : s'.committed = s.committed
  disk : s'.disk = s.without

/-- Without a stage the disk is taken as it is. -/
theorem without_none (h : s.stage = none) : s.without = s.disk := by
  funext q
  unfold Save.without
  rw [if_neg (by rw [h]; nofun)]

/-- The disk without its stage has nothing under the stage's name. -/
theorem without_some (h : s.stage = some p) : s.without = s.disk.put p .absent := by
  funext q
  unfold Save.without Disk.put
  rw [h]
  simp only [Option.some.injEq, eq_comm]

/-- Where the removal does not fail, the name is gone and nothing else has changed. -/
theorem unlinkFile_meets {call : Syscall} (hsure : Sure allowed call) (p : FilePath) :
    Meets allowed (unlinkFile call p) s fun r s' =>
      r = .ok (.ok ()) ∧ s' = { s with disk := s.disk.put p .absent } := by
  refine system_meets (fun e he => ?_) fun _ _ s' _ heffect => ?_
  · obtain he | ⟨_, heffect⟩ := he
    · exact absurd he (hsure e)
    · cases heffect
  · cases heffect
    exact ⟨rfl, rfl⟩

/-- Where the removal of the stage does not fail, discarding leaves the disk without the stage. -/
theorem discard_meets (hremove : Sure allowed .remove) :
    Meets allowed discard s fun r s' => r = .ok () ∧ Discarded s s' := by
  refine .bind (.attempt (close_meets.imp fun r s' hr => ⟨fun _ _ => ?_, nofun⟩))
  obtain ⟨broken, rfl⟩ := hr
  refine .bind_state ?_
  dsimp only
  cases hstage : s.stage with
  | none =>
      refine .bind (.pure ⟨fun _ _ => .modify ⟨rfl, rfl, rfl, rfl, rfl, ?_⟩, nofun⟩)
      exact (without_none hstage).symm
  | some p =>
      refine .bind (.bind ((unlinkFile_meets hremove p).imp fun r s' hr => ?_))
      obtain ⟨rfl, rfl⟩ := hr
      refine ⟨fun _ _ => .modify ⟨fun _ _ => .modify ⟨rfl, rfl, rfl, rfl, rfl, ?_⟩, nofun⟩, nofun⟩
      exact (without_some hstage).symm

/-! ## A save that is open -/

/-- The save stages these bytes for a destination. -/
structure Holds (s : Save) (d : FilePath) (bytes : Bytes) (offset : Nat) (failed : Bool) :
    Prop where
  isOpen : s.output.isOpen = true
  live : s.committed = false
  destination : s.destination = some d
  stage : s.stage = some s.output.path
  named : IsStage s.output.path
  apart : s.output.path ≠ d
  file : ∃ old mode, s.disk s.output.path = .file old mode ∧ (failed = false → old = bytes)
  offset : failed = false → s.output.offset = offset
  broken : failed = true → s.output.broken = true

/-- The save is not open. -/
structure Closed (s : Save) : Prop where
  isOpen : s.output.isOpen = false
  committed : s.committed = true → s.stage = none
  named : ∀ p, s.stage = some p → IsStage p

/-- What its caller knows of a save is so. -/
def Matches : Staged → Save → Prop
  | .idle, s => Closed s
  | .staging d bytes offset failed, s => Holds s d bytes offset failed

/-- A save that is discarded is closed. -/
theorem Discarded.closed {s s' : Save} (h : Discarded s s') : Closed s' where
  isOpen := h.isOpen
  committed _ := h.stage
  named p hp := by
    rw [h.stage] at hp
    cases hp

/-! ## Opening -/

/-- The lock file of a directory is there, and nothing else is new. -/
def Leased (directory : Bytes) (before after : Disk) : Prop :=
  after = before ∨
    before (sentinel directory) = .absent ∧ after = before.put (sentinel directory) (.file [] 0o600)

/-- What is absent after the lease was taken was absent before. -/
theorem Leased.absent {directory : Bytes} {before after : Disk} (h : Leased directory before after)
    (habsent : after p = .absent) : before p = .absent := by
  obtain rfl | ⟨-, rfl⟩ := h
  · exact habsent
  · by_cases hp : p = sentinel directory
    · subst hp
      rw [Disk.put_self] at habsent
      cases habsent
    · rwa [Disk.put_ne hp] at habsent

/-- Only the lock file can be new. -/
theorem Leased.same {directory : Bytes} {before after : Disk} (h : Leased directory before after)
    (hp : before p = .absent → p ≠ sentinel directory) : after p = before p := by
  obtain rfl | ⟨habsent, rfl⟩ := h
  · rfl
  · exact Disk.put_ne fun heq => hp (heq ▸ habsent) heq

/-- Taking the lease changes the lock file at most, also when it fails. -/
theorem takeLease_meets (directory : Bytes) :
    Meets allowed (takeLease directory) s fun _ s' =>
      ∃ lease disk, s' = { s with lease, disk } ∧ Leased directory s.disk disk := by
  refine bind_throw (fun _ _ => ⟨s.lease, s.disk, rfl, .inl rfl⟩) fun _ _ s' _ heffect => ?_
  have hcreated : ∃ disk, s' = { s with disk } ∧ Leased directory s.disk disk := by
    split at heffect
    · next habsent =>
        cases heffect
        exact ⟨_, rfl, .inr ⟨habsent, rfl⟩⟩
    · cases heffect
      exact ⟨s.disk, rfl, .inl rfl⟩
    · cases heffect
  obtain ⟨disk, rfl, hdisk⟩ := hcreated
  refine bind_throw (fun _ _ => ⟨s.lease, disk, rfl, hdisk⟩) fun _ _ s' _ heffect => ?_
  cases heffect
  exact .modify ⟨true, disk, rfl, hdisk⟩

/-- Checking the parent changes nothing. -/
theorem requireParent_meets : Meets allowed requireParent s fun _ s' => s' = s := by
  refine throw_meets (fun _ _ => rfl) fun _ _ s' _ heffect => ?_
  cases heffect
  rfl

/-- Checking the destination changes nothing. -/
theorem requireReplaceable_meets (d : FilePath) :
    Meets allowed (requireReplaceable d) s fun _ s' => s' = s := by
  refine bind_throw (fun _ _ => rfl) fun _ _ s' _ heffect => ?_
  cases heffect
  exact .failIf (fun _ => rfl) fun _ => rfl

/-- The names that are drawn are not the destination's, and neither is that of the lock file. -/
def Apart (allowed : Answer → Prop) (disk : Disk) (d : FilePath) : Prop :=
  disk d = .absent → d ≠ sentinel d.directory ∧ ∀ p, Drawn allowed (stagePattern d) p → p ≠ d

/-- Opening a stage creates a file under a fresh name of the pattern, or fails without a file of its
own. -/
theorem openStage_meets (hsound : Sound allowed) (platform : Platform) (d : FilePath) :
    Meets allowed (openStage platform d) s fun r s' =>
      (∃ e path, r = .error e ∧ s' = s.named path) ∨
      ∃ p, r = .ok () ∧ Drawn allowed (stagePattern d) p ∧ s.disk p = .absent ∧
        s' = { s.created p with stage := some p } := by
  refine .bind ((openTemporary_meets hsound platform (stagePattern d)).imp fun r s' hr => ?_)
  obtain ⟨e, path, rfl, rfl⟩ | ⟨p, rfl, hdrawn, habsent, rfl⟩ := hr
  · exact ⟨nofun, fun e' _ => .inl ⟨e', path, rfl, rfl⟩⟩
  · exact ⟨fun _ _ => .modify (.inr ⟨p, rfl, hdrawn, habsent, rfl⟩), nofun⟩

/-- Up to the lease, opening discards the old stage and takes its new destination. The three
outcomes are a device that is open already, a failure before the lease and the path that was
checked; in the last two the old stage is gone from the disk. -/
theorem reachLease_meets (hremove : Sure allowed .remove) (name : Bytes) :
    Meets allowed (reachLease sys name) s fun r s' =>
      (r = .error alreadyOpen ∧ s.output.isOpen = true ∧ s' = s) ∨
      s.output.isOpen = false ∧ s'.output.isOpen = false ∧ s'.stage = none ∧ s'.disk = s.without ∧
        ((∃ e, r = .error e) ∨
          ∃ d, r = .ok d ∧ sys.checked name = .ok d ∧ s'.destination = some d ∧
            s'.committed = false) := by
  refine .bind_state (.bind_failIf (fun hopen => .inl ⟨rfl, hopen, rfl⟩) fun hopen => ?_)
  rw [Bool.not_eq_true] at hopen
  refine .bind ((discard_meets hremove).imp fun r s₁ hr => ⟨fun _ _ => ?_, ?_⟩)
  swap
  · intro e he
    rw [hr.1] at he
    cases he
  have hs₁ := hr.2
  refine .bind_lift (fun d hd => ?_) fun e _ =>
    .inr ⟨hopen, hs₁.isOpen, hs₁.stage, hs₁.disk, .inl ⟨e, rfl⟩⟩
  refine .bind_modify ?_
  -- From here on the save is that of the discarded one, with the new destination.
  have hfails (e : Exception) : ∃ e', (Except.error e : Except Exception FilePath) = .error e' :=
    ⟨e, rfl⟩
  refine .bind (requireParent_meets.imp fun r s' hr => ?_)
  rw [hr]
  refine ⟨fun _ _ => ?_, fun e _ => .inr ⟨hopen, hs₁.isOpen, hs₁.stage, hs₁.disk, .inl (hfails e)⟩⟩
  refine .bind ((requireReplaceable_meets d).imp fun r s' hr => ?_)
  rw [hr]
  refine ⟨fun _ _ => ?_, fun e _ => .inr ⟨hopen, hs₁.isOpen, hs₁.stage, hs₁.disk, .inl (hfails e)⟩⟩
  refine bind_throw (fun e _ => .inr ⟨hopen, hs₁.isOpen, hs₁.stage, hs₁.disk, .inl (hfails _)⟩)
    fun _ _ s' _ heffect => ?_
  cases heffect
  exact .pure (.inr ⟨hopen, hs₁.isOpen, hs₁.stage, hs₁.disk, .inr ⟨d, rfl, hd, rfl, rfl⟩⟩)

/-- An opening that reaches its lease does so with the checked name. -/
theorem checked_of_reachLease (hremove : Sure allowed .remove) {name : Bytes} {l : List Answer}
    (hl : ∀ a ∈ l, allowed a) {s' : Save} {rest : List Answer}
    (h : reachLease sys name s l = (.ok d, s', rest)) : sys.checked name = .ok d := by
  have hmeets : Meets allowed (reachLease sys name) s _ := reachLease_meets hremove name
  have hreached := (hmeets l hl).1
  rw [h] at hreached
  obtain ⟨hd, -⟩ | ⟨-, -, -, -, ⟨_, hd⟩ | ⟨_, hd, hchecked, -⟩⟩ := hreached
  · cases hd
  · cases hd
  · rwa [Except.ok.inj hd]

/-- What opening has done when it fails: the old stage is gone, and where the lease was reached the
lock file may be new, which is not the destination. -/
def Reverted (sys : System) (name : Bytes) (s s' : Save) : Prop :=
  s'.disk = s.without ∨
    ∃ d, sys.checked name = .ok d ∧ s'.destination = some d ∧
      (s.without d = .absent → d ≠ sentinel d.directory) ∧ Leased d.directory s.without s'.disk

/-- What opening comes to: it refuses a save that is open, it fails and reverts what it did, or it
holds an empty stage. -/
def Opened (sys : System) (name : Bytes) (s : Save) (r : Except Exception Unit) (s' : Save) :
    Prop :=
  (r = .error alreadyOpen ∧ s.output.isOpen = true ∧ s' = s) ∨
  s.output.isOpen = false ∧
    ((∃ e, r = .error e ∧ Closed s' ∧ s'.stage = none ∧ Reverted sys name s s') ∨
      ∃ d, r = .ok () ∧ sys.checked name = .ok d ∧ Holds s' d [] 0 false ∧
        (s.without d = .absent → d ≠ sentinel d.directory) ∧
        ∃ disk, Leased d.directory s.without disk ∧
          s'.disk = disk.put s'.output.path (.file [] 0o600))

/-- Only an opening that reaches its lease with the answers it is given must have its destination
apart from the names that are taken there. -/
theorem openSave_given (hsound : Sound allowed) (hremove : Sure allowed .remove) (name : Bytes)
    {l : List Answer} (hl : ∀ a ∈ l, allowed a)
    (hapart : ∀ d s' rest, reachLease sys name s l = (.ok d, s', rest) →
      Apart allowed s.without d) :
    Opened sys name s (openSave sys name s l).1 (openSave sys name s l).2.1 := by
  have hclosed (s' : Save) (hisOpen : s'.output.isOpen = false) (hstage : s'.stage = none) :
      Closed s' :=
    ⟨hisOpen, fun _ => hstage, fun p hp => by rw [hstage] at hp; cases hp⟩
  refine Meets.bind_given (Q := Opened sys name s) (reachLease_meets hremove name) hl
    (fun d s₂ rest hreached hr => ?_) fun e s₂ hr => ?_
  swap
  · obtain ⟨he, hopen, rfl⟩ | ⟨hopen, hisOpen, hstage, hdisk, -⟩ := hr
    · cases he
      exact .inl ⟨rfl, hopen, rfl⟩
    · exact .inr ⟨hopen, .inl ⟨e, rfl, hclosed s₂ hisOpen hstage, hstage, .inl hdisk⟩⟩
  obtain ⟨he, -⟩ | ⟨hopen, hisOpen, hstage, hdisk, ⟨_, he⟩ | ⟨_, hd, hchecked, hdestination,
    hcommitted⟩⟩ := hr
  · cases he
  · cases he
  obtain rfl := Except.ok.inj hd
  have hapart := hapart d s₂ rest hreached
  have hfails (s' : Save) (e : Exception) (hisOpen : s'.output.isOpen = false)
      (hstage' : s'.stage = none) (hd' : s'.destination = some d)
      (hleased : Leased d.directory s.without s'.disk) :
      ∃ e', (Except.error e : Except Exception Unit) = .error e' ∧ Closed s' ∧ s'.stage = none ∧
        Reverted sys name s s' :=
    ⟨e, rfl, hclosed s' hisOpen hstage', hstage',
      .inr ⟨d, hchecked, hd', fun habsent => (hapart habsent).1, hleased⟩⟩
  refine .bind ((takeLease_meets d.directory).imp fun r s' hr => ?_)
  obtain ⟨lease, disk, rfl, hleased⟩ := hr
  rw [hdisk] at hleased
  refine ⟨fun _ _ => ?_, fun e _ => .inr ⟨hopen, .inl (hfails _ e hisOpen hstage hdestination
    hleased)⟩⟩
  refine .bind (.attempt ((openStage_meets hsound sys.platform d).imp fun r s' hr => ?_))
  obtain ⟨e, path, rfl, rfl⟩ | ⟨p, rfl, hdrawn, habsent, rfl⟩ := hr
  · refine ⟨fun r hr => ?_, nofun⟩
    cases hr
    refine .bind ((discard_meets hremove).imp fun r s' hr => ?_)
    obtain ⟨rfl, hdiscarded⟩ := hr
    refine ⟨fun _ _ => .fail (.inr ⟨hopen, .inl (hfails _ e hdiscarded.isOpen hdiscarded.stage
      (hdiscarded.destination.trans hdestination) ?_)⟩), nofun⟩
    have hwithout : (Save.named { s₂ with lease, disk } path).without = disk := without_none hstage
    rw [hdiscarded.disk, hwithout]
    exact hleased
  · refine ⟨fun r hr => ?_, nofun⟩
    cases hr
    refine .pure (.inr ⟨hopen, .inr ⟨d, rfl, hchecked, ?_, fun habsent => (hapart habsent).1, disk,
      hleased, rfl⟩⟩)
    obtain ⟨a, b, c, hallowed, hp⟩ := id hdrawn
    exact {
      isOpen := rfl
      live := hcommitted
      destination := hdestination
      stage := rfl
      named := hp ▸ isStage_temporaryName d _
      apart := by
        rintro rfl
        exact (hapart (hleased.absent habsent)).2 _ hdrawn rfl
      file := ⟨[], 0o600, Disk.put_self _ _ _, fun _ => rfl⟩
      offset := fun _ => rfl
      broken := nofun }

/-! ## Publishing -/

/-- A rename that succeeds moves the file; one that fails leaves the disk. A failing answer has no
effect on the disk, and the source keeps the number of the error for its own decision. -/
theorem move_meets (call : Syscall) (exclusive : Bool) (h : s.disk p = .file b m) :
    Meets allowed (move call p d exclusive) s fun r s' =>
      (∃ e, r = .ok (.error e) ∧ s' = s) ∨
      r = .ok (.ok ()) ∧ s' = { s with disk := (s.disk.put d (.file b m)).put p .absent } ∧
        (exclusive = true → s.disk d = .absent) := by
  refine system_meets (fun e _ => .inl ⟨e, rfl, rfl⟩) fun _ r s' _ heffect => .inr ⟨rfl, ?_⟩
  rw [h] at heffect
  cases hd : s.disk d with
  | absent =>
      rw [hd] at heffect
      cases heffect
      exact ⟨rfl, fun _ => rfl⟩
  | directory =>
      rw [hd] at heffect
      cases heffect
  | file _ _ =>
      rw [hd] at heffect
      dsimp only at heffect
      split at heffect
      · cases heffect
      · next hexclusive =>
          cases heffect
          exact ⟨rfl, fun h => absurd h hexclusive⟩
  | link _ =>
      rw [hd] at heffect
      dsimp only at heffect
      split at heffect
      · cases heffect
      · next hexclusive =>
          cases heffect
          exact ⟨rfl, fun h => absurd h hexclusive⟩

/-- A link that succeeds gives the file a second name where none was; one that fails leaves the
disk. -/
theorem linkFile_meets (h : s.disk p = .file b m) :
    Meets allowed (linkFile p d) s fun r s' =>
      (∃ e, r = .ok (.error e) ∧ s' = s) ∨
      r = .ok (.ok ()) ∧ s' = { s with disk := s.disk.put d (.file b m) } ∧ s.disk d = .absent := by
  refine system_meets (fun e _ => .inl ⟨e, rfl, rfl⟩) fun _ r s' _ heffect => .inr ⟨rfl, ?_⟩
  rw [h] at heffect
  cases hd : s.disk d with
  | absent =>
      rw [hd] at heffect
      cases heffect
      exact ⟨rfl, rfl⟩
  | _ =>
      rw [hd] at heffect
      cases heffect

/-- Moving succeeds or fails as a whole on every platform, where the unlink after a link does not
fail. -/
theorem moveFile_meets (overwrite : Bool) (hunlink : sys.platform = .posix → Sure allowed .unlink)
    (h : s.disk p = .file b m) :
    Meets allowed (moveFile sys.platform p d overwrite) s fun r s' =>
      (∃ e, r = .ok (.error e) ∧ s' = s) ∨
      r = .ok (.ok ()) ∧ s' = { s with disk := (s.disk.put d (.file b m)).put p .absent } ∧
        (overwrite = false → s.disk d = .absent) := by
  unfold moveFile
  split
  · refine (move_meets .rename (!overwrite) h).imp fun r s' hr => hr.imp_right fun hr => ?_
    exact ⟨hr.1, hr.2.1, fun hover => hr.2.2 (by rw [hover]; rfl)⟩
  · split
    · next hposix =>
        refine .bind ((linkFile_meets h).imp fun r s' hr => ?_)
        obtain ⟨e, rfl, hs'⟩ | ⟨rfl, rfl, habsent⟩ := hr
        · refine ⟨fun r hr => ?_, nofun⟩
          cases hr
          exact .pure (.inl ⟨e, rfl, hs'⟩)
        · refine ⟨fun r hr => ?_, nofun⟩
          cases hr
          refine (unlinkFile_meets (hunlink hposix) p).imp fun r s' hr => .inr ?_
          exact ⟨hr.1, hr.2, fun _ => habsent⟩
    · refine (move_meets .renameExclusive true h).imp fun r s' hr => hr.imp_right fun hr => ?_
      exact ⟨hr.1, hr.2.1, fun _ => hr.2.2 rfl⟩

/-- The disks differ at private names only. -/
def Alike (d : FilePath) (before after : Disk) : Prop :=
  after d = before d ∧ ∀ q, ¬ IsStage q → after q = before q

/-- A disk is like itself. -/
theorem Alike.refl (d : FilePath) (disk : Disk) : Alike d disk disk := ⟨rfl, fun _ _ => rfl⟩

/-- Likeness is transitive. -/
theorem Alike.trans {before between after : Disk} (h : Alike d before between)
    (h' : Alike d between after) : Alike d before after :=
  ⟨h'.1.trans h.1, fun q hq => (h'.2 q hq).trans (h.2 q hq)⟩

/-- What happens to a stage leaves the disk alike for its destination. -/
theorem Alike.put {before after : Disk} (h : Alike d before after) (hp : IsStage p) (hd : p ≠ d)
    (n : Node) : Alike d before (after.put p n) :=
  ⟨(Disk.put_ne hd.symm).trans h.1, fun q hq =>
    (Disk.put_ne fun heq => hq (by rw [heq]; exact hp)).trans (h.2 q hq)⟩

/-- The probe for permissions is named like a stage. -/
theorem isStage_permissionProbe (hp : IsStage p) : IsStage (permissionProbe p) := by
  unfold IsStage at hp ⊢
  rw [List.isPrefixOf_iff_prefix] at hp ⊢
  exact hp.trans (List.prefix_append _ _)

/-- The probe for permissions is not the stage itself. -/
theorem permissionProbe_ne : permissionProbe p ≠ p := by
  intro h
  have hlength := congrArg (fun q : FilePath => q.filename.length) h
  unfold permissionProbe at hlength
  rw [List.length_append] at hlength
  have : 0 < (ascii ".permission-probe").length := by decide
  omega

/-- Finding the permissions of a new file leaves the disk alike and the stage as it is. The probe is
created and removed beside the stage, and where its removal may fail the disk is only alike outside
the probe. -/
theorem newPermissions_meets (hp : IsStage p)
    (hprobe : permissionProbe p = d → Sure allowed .removeProbe) :
    Meets allowed (newPermissions sys p) s fun _ s' =>
      ∃ disk, s' = { s with disk } ∧ Alike d s.disk disk ∧ disk p = s.disk p := by
  have hsame : ∃ disk, s = { s with disk } ∧ Alike d s.disk disk ∧ disk p = s.disk p :=
    ⟨s.disk, rfl, .refl _ _, rfl⟩
  unfold newPermissions
  split
  · exact .pure hsame
  refine bind_throw (fun _ _ => hsame) fun _ _ s₁ _ heffect => ?_
  have hcreated : s.disk (permissionProbe p) = .absent ∧ ∃ node,
      s₁ = { s with disk := s.disk.put (permissionProbe p) node } := by
    split at heffect
    · next habsent =>
        cases heffect
        exact ⟨habsent, _, rfl⟩
    · cases heffect
  obtain ⟨habsent, node, rfl⟩ := hcreated
  -- Whatever the three calls answer, the probe is gone or is not the destination.
  have hgone (node' : Node) (h : permissionProbe p = d → node' = .absent) :
      ∃ disk, ({ s with disk := s.disk.put (permissionProbe p) node' } : Save) = { s with disk } ∧
        Alike d s.disk disk ∧ disk p = s.disk p := by
    refine ⟨_, rfl, ?_, Disk.put_ne permissionProbe_ne.symm⟩
    by_cases hd : permissionProbe p = d
    · rw [h hd, Disk.put_eq_self habsent]
      exact .refl _ _
    · exact (Alike.refl _ _).put (isStage_permissionProbe hp) hd _
  refine .bind ?_
  refine Meets.imp (Q := fun r s' => s' = { s with disk := s.disk.put (permissionProbe p) node } ∧
    ∃ status, r = .ok status) ?_ fun r s' hr => ?_
  · refine system_meets (fun _ _ => ⟨rfl, _, rfl⟩) fun _ _ s' _ heffect => ?_
    split at heffect
    · cases heffect
      exact ⟨rfl, _, rfl⟩
    · cases heffect
  obtain ⟨rfl, status, rfl⟩ := hr
  refine ⟨fun _ _ => ?_, nofun⟩
  refine .bind ?_
  refine Meets.imp (Q := fun r s' => (∃ removed, r = .ok removed) ∧ ∃ node',
    (permissionProbe p = d → node' = .absent) ∧
      s' = { s with disk := s.disk.put (permissionProbe p) node' }) ?_ fun r s' hr => ?_
  · refine system_meets (fun e he => ⟨⟨_, rfl⟩, node, fun hd => ?_, rfl⟩) fun _ _ s' _ heffect => ?_
    · obtain he | ⟨_, heffect⟩ := he
      · exact absurd he (hprobe hd e)
      · cases heffect
    · cases heffect
      exact ⟨⟨_, rfl⟩, .absent, fun _ => rfl, by rw [Disk.put_put]⟩
  obtain ⟨⟨removed, rfl⟩, node', hnode', rfl⟩ := hr
  refine ⟨fun _ _ => ?_, nofun⟩
  refine .bind (plain_meets (fun _ _ => ⟨fun _ _ => ?_, nofun⟩) ⟨fun _ _ => ?_, nofun⟩)
  all_goals
    split
    · exact .pure (hgone node' hnode')
    · exact .fail (hgone node' hnode')

/-- What publishing a stage with these bytes comes to. -/
def Publishes (s : Save) (p d : FilePath) (b : Bytes) (overwrite : Bool)
    (r : Except Exception PublishResult) (s' : Save) : Prop :=
  ∃ disk, s' = { s with disk } ∧
    (r = .ok published ∧ (∃ mode, disk d = .file b mode) ∧ disk p = .absent ∧
        (overwrite = false → s.disk d = .absent) ∧ (∀ q, q ≠ d → ¬ IsStage q → disk q = s.disk q) ∨
      Alike d s.disk disk ∧ ∀ result, r = .ok result → result.succeeded = false)

/-- A publication that is refused has published nothing. -/
theorem Publishes.refused {r : Except Exception PublishResult} {overwrite : Bool}
    (h : ∀ result, r = .ok result → result.succeeded = false) : Publishes s p d b overwrite r s :=
  ⟨s.disk, rfl, .inr ⟨.refl _ _, h⟩⟩

/-- What is done before to other names does not matter for a publication. -/
theorem Publishes.after {r : Except Exception PublishResult} {overwrite : Bool} {disk : Disk}
    {s' : Save} (halike : Alike d s.disk disk)
    (h : Publishes { s with disk } p d b overwrite r s') : Publishes s p d b overwrite r s' := by
  obtain ⟨disk', rfl, ⟨rfl, hd, hp, hover, hothers⟩ | ⟨halike', hr⟩⟩ := h
  · refine ⟨disk', rfl, .inl ⟨rfl, hd, hp, fun h => halike.1 ▸ hover h, fun q hq hstage => ?_⟩⟩
    exact (hothers q hq hstage).trans (halike.2 q hstage)
  · exact ⟨disk', rfl, .inr ⟨halike.trans halike', hr⟩⟩

/-- The last part of a publication moves the stage to the destination or publishes nothing. It is
the rename, the exclusive rename or the link followed by the unlink of the stage, as the platform
has it. -/
theorem finishPublish_meets (overwrite : Bool) (mode : Nat) (hp : IsStage p) (hne : p ≠ d)
    (hunlink : sys.platform = .posix → Sure allowed .unlink) (h : s.disk p = .file b m) :
    Meets allowed (finishPublish sys.platform p d overwrite mode) s
      (Publishes s p d b overwrite) := by
  refine .bind (system_meets (fun e _ => ⟨fun r hr => ?_, nofun⟩)
    fun _ _ s₁ _ heffect => ⟨fun r hr => ?_, nofun⟩)
  · cases hr
    exact .pure (.refused fun _ h => by cases h; rfl)
  · cases hr
    have hs₁ : s₁ = { s with disk := s.disk.put p (.file b mode) } := by
      cases heffect
      unfold Save.chmod
      rw [h]
    subst hs₁
    have halike := (Alike.refl d s.disk).put hp hne (.file b mode)
    refine Meets.imp ?_ fun _ _ => Publishes.after halike
    refine .bind ((moveFile_meets overwrite hunlink (Disk.put_self _ _ _)).imp fun r s' hr => ?_)
    obtain ⟨e, rfl, rfl⟩ | ⟨rfl, rfl, hover⟩ := hr
    · refine ⟨fun r hr => ?_, nofun⟩
      cases hr
      exact .pure (.refused fun _ h => by cases h; rfl)
    · refine ⟨fun r hr => ?_, nofun⟩
      cases hr
      refine .bind (plain_meets (fun _ _ => ⟨fun _ _ => ?_, nofun⟩) ⟨fun _ _ => ?_, nofun⟩)
      all_goals
        refine .pure ⟨_, rfl, .inl ⟨rfl, ⟨mode, ?_⟩, Disk.put_self _ _ _, hover,
          fun q hq hstage => ?_⟩⟩
        · rw [Disk.put_ne hne.symm, Disk.put_self]
        · rw [Disk.put_ne fun heq => hstage (by rw [heq]; exact hp), Disk.put_ne hq]

/-- Cancelling what is pending in the cloud changes nothing here. -/
theorem cancelPending_meets (platform : Platform) :
    Meets allowed (cancelPending platform) s fun _ s' => s' = s := by
  unfold cancelPending
  split
  · refine bind_throw (fun _ _ => rfl) fun _ _ s' _ heffect => ?_
    cases heffect
    refine throw_meets (fun _ _ => rfl) fun _ _ s' _ heffect => ?_
    cases heffect
    rfl
  · exact .pure rfl

/-- A publication with its permissions moves the stage to the destination or publishes nothing.
Before that last part the permissions are found, and none of what is done there touches the stage or
the destination. -/
theorem publishTo_meets (overwrite : Bool) (permissions : Option Nat) (target : Node)
    (hp : IsStage p) (hne : p ≠ d) (hunlink : sys.platform = .posix → Sure allowed .unlink)
    (hprobe : permissionProbe p = d → Sure allowed .removeProbe) (h : s.disk p = .file b m) :
    Meets allowed (publishTo sys p d overwrite permissions target) s
      (Publishes s p d b overwrite) := by
  unfold publishTo
  split
  · exact .pure (.refused fun _ h => by cases h; rfl)
  split
  · exact .pure (.refused fun _ h => by cases h; rfl)
  refine .bind ((cancelPending_meets _).imp fun r s' hr => ?_)
  rw [hr]
  refine ⟨fun _ _ => ?_, fun e _ => .refused nofun⟩
  refine .bind ((accessIf_meets _ _).imp fun r s' hr => ?_)
  rw [hr.1]
  refine ⟨fun _ _ => ?_, fun e _ => .refused nofun⟩
  have hmode : Meets allowed (publishMode sys p target permissions) s fun _ s' =>
      ∃ disk, s' = { s with disk } ∧ Alike d s.disk disk ∧ disk p = s.disk p := by
    unfold publishMode
    split
    · exact .pure ⟨s.disk, rfl, .refl _ _, rfl⟩
    · split
      · exact .pure ⟨s.disk, rfl, .refl _ _, rfl⟩
      · exact newPermissions_meets hp hprobe
  refine .bind (hmode.imp fun r s' hr => ?_)
  obtain ⟨disk, rfl, halike, hkept⟩ := hr
  refine ⟨fun mode _ => ?_, fun e _ => ⟨disk, rfl, .inr ⟨halike, nofun⟩⟩⟩
  refine (finishPublish_meets (s := { s with disk }) overwrite mode hp hne hunlink
    (hkept.trans h)).imp fun r s' hr => hr.after halike

/-- So does the whole call, which answers with a result and does not throw. What the attempt throws
is caught and given as the result, so that only the disk has to be followed. -/
theorem publishFile_meets (overwrite : Bool) (permissions : Option Nat) (hp : IsStage p)
    (hne : p ≠ d) (hunlink : sys.platform = .posix → Sure allowed .unlink)
    (hprobe : permissionProbe p = d → Sure allowed .removeProbe) (h : s.disk p = .file b m) :
    Meets allowed (publishFile sys p d overwrite permissions) s fun r s' =>
      (∃ result, r = .ok result) ∧ Publishes s p d b overwrite r s' := by
  have htry : Meets allowed (tryPublish sys p d overwrite permissions) s
      (Publishes s p d b overwrite) := by
    refine bind_throw (fun _ _ => .refused nofun) fun _ _ s' _ heffect => ?_
    cases heffect
    split
    · exact .pure (.refused fun _ h => by cases h; rfl)
    refine .bind (system_meets (fun e _ => ⟨fun r hr => ?_, nofun⟩)
      fun _ _ s' _ heffect => ⟨fun r hr => ?_, nofun⟩)
    · cases hr
      dsimp only
      split
      · exact publishTo_meets overwrite permissions _ hp hne hunlink hprobe h
      · exact .pure (.refused fun _ h => by cases h; rfl)
    · cases hr
      cases heffect
      exact publishTo_meets overwrite permissions _ hp hne hunlink hprobe h
  refine .bind (.attempt (htry.imp fun r s' hr => ⟨fun r' hr' => ?_, nofun⟩))
  cases hr'
  cases r with
  | ok result => exact .pure ⟨⟨result, rfl⟩, hr⟩
  | error e =>
      obtain ⟨disk, rfl, ⟨hpublished, -⟩ | ⟨halike, -⟩⟩ := hr
      · cases hpublished
      · exact .pure ⟨⟨_, rfl⟩, disk, rfl, .inr ⟨halike, fun _ h => by cases h; rfl⟩⟩

/-! ## Committing -/

/-- A save has ended, and its stage is gone. -/
structure Ended (s s' : Save) : Prop where
  closed : Closed s'
  stage : s'.stage = none
  destination : s'.destination = s.destination
  gone : ∀ p, s.stage = some p → s'.disk p = .absent

/-- The save has ended with nothing changed. -/
def Dropped (s s' : Save) : Prop := Ended s s' ∧ s'.disk = s.without

/-- A save that is discarded is dropped. -/
theorem Discarded.dropped {s s' : Save} (h : Discarded s s') : Dropped s s' := by
  refine ⟨⟨h.closed, h.stage, h.destination, fun p hp => ?_⟩, h.disk⟩
  rw [h.disk]
  exact if_pos hp

/-- While a save holds its stage, the disk without it is like the disk that the save found. -/
theorem Holds.alike {bytes : Bytes} {offset : Nat} {failed : Bool}
    (h : Holds s d bytes offset failed) : Alike d s.disk s.without := by
  rw [without_some h.stage]
  exact (Alike.refl _ _).put h.named h.apart _

/-- A save whose stage is not open is not published. -/
theorem commit_closed (hremove : Sure allowed .remove) (h : Closed s) (overwrite : Bool) :
    Meets allowed (commit sys overwrite) s fun r s' =>
      ∃ result, r = .ok result ∧ result.succeeded = false ∧ Dropped s s' := by
  refine .bind_state ?_
  split
  · next hcommitted =>
      have hstage := h.committed hcommitted
      refine .pure ⟨_, rfl, rfl, ⟨h, hstage, rfl, fun p hp => ?_⟩, (without_none hstage).symm⟩
      rw [hstage] at hp
      cases hp
  · rw [if_pos (.inr (.inl h.isOpen))]
    refine .bind ((discard_meets hremove).imp fun r s' hr => ?_)
    obtain ⟨rfl, hdiscarded⟩ := hr
    exact ⟨fun _ _ => .pure ⟨_, rfl, rfl, hdiscarded.dropped⟩, nofun⟩

/-- What a commit of a stage with these bytes comes to. -/
def Commits (s : Save) (d : FilePath) (b : Bytes) (overwrite : Bool) (result : PublishResult)
    (s' : Save) : Prop :=
  Ended s s' ∧
    (result.succeeded = true ∧ (∃ mode, s'.disk d = .file b mode) ∧
        (overwrite = false → s.disk d = .absent) ∧
        (∀ q, q ≠ d → ¬ IsStage q → s'.disk q = s.disk q) ∨
      result.succeeded = false ∧ Alike d s.disk s'.disk)

/-- The device alone has changed. -/
def Beside (s s' : Save) : Prop := ∃ output, s' = { s with output }

/-- A commit that fails and discards its stage has changed nothing but that. -/
theorem Holds.commits_dropped {bytes : Bytes} {offset : Nat} {failed overwrite : Bool}
    {s' s'' : Save} {result : PublishResult} (h : Holds s d bytes offset failed)
    (hbeside : Beside s s')
    (hdiscarded : Discarded s' s'') (hresult : result.succeeded = false) :
    Commits s d b overwrite result s'' := by
  obtain ⟨output, rfl⟩ := hbeside
  obtain ⟨⟨hclosed, hstage, hdestination, hgone⟩, hdisk⟩ := hdiscarded.dropped
  refine ⟨⟨hclosed, hstage, hdestination, hgone⟩, .inr ⟨hresult, ?_⟩⟩
  rw [hdisk]
  exact h.alike

/-- The end of a commit keeps the result of the publication and discards the stage where it failed.
-/
theorem concludeCommit_meets {offset : Nat} {failed overwrite : Bool} {s' : Save}
    {result : PublishResult} (hremove : Sure allowed .remove) (h : Holds s d b offset failed)
    (hshut : Shut s s') {s₁ : Save}
    (hpublishes : Publishes s' s.output.path d b overwrite (.ok result) s₁) :
    Meets allowed (concludeCommit result) s₁ fun r s₂ =>
      r = .ok result ∧ Commits s d b overwrite result s₂ := by
  obtain ⟨broken, rfl⟩ := hshut
  obtain ⟨disk, rfl, ⟨hpublished, hd, hp, hover, hothers⟩ | ⟨halike, hfailed⟩⟩ := hpublishes
  · cases hpublished
    refine .bind_modify (.pure ⟨rfl, ⟨⟨rfl, fun _ => rfl, nofun⟩, rfl, rfl, fun p hstage => ?_⟩,
      .inl ⟨rfl, hd, hover, hothers⟩⟩)
    rw [h.stage] at hstage
    cases hstage
    exact hp
  · have hresult := hfailed result rfl
    unfold concludeCommit
    rw [if_neg (by rw [hresult]; decide)]
    refine .bind ((discard_meets hremove).imp fun r s' hr => ?_)
    obtain ⟨rfl, hdiscarded⟩ := hr
    obtain ⟨⟨hclosed, hstage, hdestination, hgone⟩, hdisk⟩ := hdiscarded.dropped
    refine ⟨fun _ _ => .pure ⟨rfl, ⟨hclosed, hstage, hdestination, hgone⟩, .inr ⟨hresult, ?_⟩⟩,
      nofun⟩
    rw [hdisk.trans (without_some h.stage)]
    exact halike.put h.named h.apart _

/-- A commit of an open save publishes the staged bytes or reports failure, with the disk as before
but for the stage. -/
theorem tryCommit_meets {offset : Nat} {failed : Bool} (hremove : Sure allowed .remove)
    (h : Holds s d b offset failed) (hbytes : ∃ mode, s.disk s.output.path = .file b mode)
    (hunlink : sys.platform = .posix → Sure allowed .unlink)
    (hprobe : permissionProbe s.output.path = d → Sure allowed .removeProbe) (overwrite : Bool) :
    Meets allowed (tryCommit sys overwrite) s fun r s' =>
      (∃ result, r = .ok result ∧ Commits s d b overwrite result s') ∨
      ∃ e, r = .error e ∧ Beside s s' := by
  obtain ⟨mode, hmode⟩ := hbytes
  refine .bind ((flush_meets true).imp fun r s' hr => ?_)
  obtain ⟨rfl, -, hs'⟩ | ⟨e, rfl, -, rfl⟩ | ⟨e, -, hclosed, -⟩ := hr
  rotate_left
  · exact ⟨nofun, fun e' _ => .inr ⟨e', rfl, _, rfl⟩⟩
  · cases h.isOpen.symm.trans hclosed
  rw [hs']
  refine ⟨fun _ _ => ?_, nofun⟩
  refine .bind (close_meets.imp fun r s' hshut => ?_)
  refine ⟨fun _ _ => ?_, fun e _ => .inr ⟨e, rfl, ?_⟩⟩
  swap
  · obtain ⟨broken, rfl⟩ := hshut
    exact ⟨_, rfl⟩
  refine .bind_state ?_
  have hpublish : publishStage sys overwrite s'
      = publishFile sys s.output.path d overwrite s'.permissions := by
    obtain ⟨broken, rfl⟩ := hshut
    unfold publishStage
    rw [h.stage, h.destination]
  have hfile : s'.disk s.output.path = .file b mode := by
    obtain ⟨broken, rfl⟩ := hshut
    exact hmode
  rw [hpublish]
  refine .bind ((publishFile_meets overwrite s'.permissions h.named h.apart hunlink hprobe
    hfile).imp fun r s₁ hr => ?_)
  obtain ⟨⟨result, rfl⟩, hpublishes⟩ := hr
  refine ⟨fun result' hr' => ?_, nofun⟩
  cases hr'
  exact (concludeCommit_meets hremove h hshut hpublishes).imp fun r s₂ hr => .inl ⟨result, hr⟩

/-- A commit of a save whose writes have succeeded publishes what is staged, or changes nothing. A
save that was cancelled or whose device broke only discards its stage, and an error in the attempt
ends in the same way. -/
theorem commit_meets {offset : Nat} {failed : Bool} (hremove : Sure allowed .remove)
    (h : Holds s d b offset failed) (hunlink : sys.platform = .posix → Sure allowed .unlink)
    (hprobe : permissionProbe s.output.path = d → Sure allowed .removeProbe) (overwrite : Bool) :
    Meets allowed (commit sys overwrite) s fun r s' =>
      ∃ result, r = .ok result ∧ Commits s d b overwrite result s' ∧
        (result.succeeded = true → failed = false) := by
  refine .bind_state ?_
  rw [if_neg (by rw [h.live]; decide)]
  split
  · refine .bind ((discard_meets hremove).imp fun r s' hr => ?_)
    obtain ⟨rfl, hdiscarded⟩ := hr
    refine ⟨fun _ _ => .pure ⟨_, rfl, ?_, nofun⟩, nofun⟩
    exact h.commits_dropped ⟨s.output, rfl⟩ hdiscarded rfl
  · next hgo =>
      rw [not_or, not_or] at hgo
      have hfailed : failed = false := by
        cases hfailed : failed with
        | false => rfl
        | true => exact absurd (h.broken hfailed) hgo.2.2
      have hbytes : ∃ mode, s.disk s.output.path = .file b mode := by
        obtain ⟨old, mode, hfile, hold⟩ := h.file
        exact ⟨mode, hold hfailed ▸ hfile⟩
      refine .bind (.attempt ((tryCommit_meets hremove h hbytes hunlink hprobe overwrite).imp
        fun r s' hr => ?_))
      obtain ⟨result, rfl, hcommits⟩ | ⟨e, rfl, hbeside⟩ := hr
      · refine ⟨fun r hr => ?_, nofun⟩
        cases hr
        exact .pure ⟨result, rfl, hcommits, fun _ => hfailed⟩
      · refine ⟨fun r hr => ?_, nofun⟩
        cases hr
        refine .bind ((discard_meets hremove).imp fun r s'' hr => ?_)
        obtain ⟨rfl, hdiscarded⟩ := hr
        exact ⟨fun _ _ => .pure ⟨_, rfl, h.commits_dropped hbeside hdiscarded rfl, nofun⟩, nofun⟩

end Filesystem

end FileProvider
