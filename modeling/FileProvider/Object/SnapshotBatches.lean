import FileProvider.Object.SnapshotMoments

/-!
# What a batch of snapshots holds

Each call of the constructor keeps what is known of its copy. A batch that returns has published a
snapshot for every request, and each of them is what its source held at a moment of the run.

The requests are taken by the workers in any order, and a call of the constructor is a program of
single reads and writes, which the others may interleave. The sample has two workers and a source
that is rewritten meanwhile.
-/

namespace FileProvider

open Bytes Fallible

namespace ObjectSnapshotBatch

variable {host : SourceHost} {batch : Batch} {before : List Event} {e : Event} {s t : State}
  {w k i n copied : Nat} {p : Phase} {o : ObjectSourceIdentity} {rest : Bytes} {answer : Answer}
  {c : Construction}

/-! ## The copy -/

/-- An identity is compared with the one that was kept. -/
theorem Invariant.matching {message : String} (h : Invariant host batch before s)
    (he : HonestStep host batch s e t) (ht : t = s.matching host batch w k i o message p)
    (hw : (s.worker w).index = some k) (hp : p.index = some k)
    (hdescriptor : ∀ i, p.descriptor = some i → s.Exists i)
    (hsound : host.identity (batch.request k).source i (s.version i) = .ok o →
      p.Sound host batch before s) : Invariant host batch (before ++ [e]) t := by
  unfold State.matching at ht
  split at ht
  next => exact h.fail he ht hw
  next identity hidentity =>
    split at ht
    next => exact h.fail he ht hw
    next hsame =>
      rw [ne_eq, not_not] at hsame
      subst hsame
      exact h.move he ht hw hp hdescriptor (hsound hidentity)

/-- At the end of a file its whole content is copied; before the end what is read follows what was
copied. -/
theorem Invariant.read (h : Invariant host batch before s) (he : HonestStep host batch s e t)
    (ht : t = s.read host w k i o copied n) (hw : s.worker w = .building k (.reading i o copied)) :
    Invariant host batch (before ++ [e]) t := by
  have hindex : (s.worker w).index = some k := by rw [hw]; rfl
  have hopen : s.Exists i := .inr ⟨w, by rw [hw]; rfl⟩
  have hdescriptor : ∀ {j}, some i = some j → s.Exists j := fun {j} hj => Option.some.inj hj ▸ hopen
  have hsound := h.sound w
  rw [hw] at hsound
  simp only [Phase.Sound, Construction.Sound] at hsound
  unfold State.read at ht
  simp only at ht
  split at ht
  next hend =>
    refine h.move he ht hindex rfl (fun j hj => hdescriptor hj) (hsound.imp fun hcopying => ?_)
    obtain ⟨hcopy, -⟩ := hcopying
    rwa [List.append_nil, List.take_of_length_le (List.drop_eq_nil_iff.1 hend)] at hcopy
  next =>
    split at ht
    next => exact h.fail he ht hindex
    next =>
      refine h.move he ht hindex rfl (fun j hj => hdescriptor hj) (hsound.imp fun hcopying => ?_)
      obtain ⟨hcopy, hlength⟩ := hcopying
      rw [List.append_nil] at hcopy
      refine ⟨?_, ?_⟩
      · rw [hcopy, List.length_take, List.length_drop, ← List.take_add]
        exact List.take_eq_take_iff.2 (by omega)
      · rw [List.length_take, List.length_drop]
        omega

/-- What is written moves from what remains to the copy. -/
theorem Invariant.write (h : Invariant host batch before s) (he : HonestStep host batch s e t)
    (ht : t = s.write w k i o copied rest n)
    (hw : s.worker w = .building k (.writing i o copied rest)) :
    Invariant host batch (before ++ [e]) t := by
  have hindex : (s.worker w).index = some k := by rw [hw]; rfl
  have hopen : s.Exists i := .inr ⟨w, by rw [hw]; rfl⟩
  have hsound := h.sound w
  rw [hw] at hsound
  simp only [Phase.Sound, Construction.Sound] at hsound
  unfold State.write at ht
  simp only at ht
  have hpayload : t.payload k = s.payload k ++ rest.take (max 1 n) := by
    rw [ht]
    exact Function.update_self ..
  have hlater : ∀ i, s.version i ≤ t.version i := fun i => by rw [ht]; exact le_rfl
  have hsplit : s.payload k ++ rest = t.payload k ++ rest.drop (max 1 n) := by
    rw [hpayload, List.append_assoc, List.take_append_drop]
  split at ht
  next hdone =>
    refine h.forward he ht hindex rfl (fun j hj => Option.some.inj hj ▸ hopen) ?_
    rw [hdone] at hsplit
    exact (hsound.later hlater).imp fun hcopying => ⟨hsplit.symm.trans hcopying.1, hcopying.2⟩
  next =>
    refine h.forward he ht hindex rfl (fun j hj => Option.some.inj hj ▸ hopen) ?_
    exact (hsound.later hlater).imp fun hcopying => ⟨hsplit.symm.trans hcopying.1, hcopying.2⟩

/-- **A call of the constructor keeps what is known of its copy.** The cases are the calls of the
constructor in their order, and after each the descriptor, the copy and what was seen of the source
fit together. -/
theorem Invariant.build (hhost : host.Honest) (h : Invariant host batch before s)
    (he : HonestStep host batch s e t) (ht : t = s.build host batch w k answer c)
    (hw : s.worker w = .building k c) : Invariant host batch (before ++ [e]) t := by
  have hindex : (s.worker w).index = some k := by rw [hw]; rfl
  have hopen : ∀ {i}, c.descriptor = some i → s.Exists i := fun {i} hi =>
    .inr ⟨w, by rw [hw]; exact hi⟩
  have hsound := h.sound w
  rw [hw] at hsound
  simp only [Phase.Sound] at hsound
  cases c with
  | entering =>
      simp only [State.build] at ht
      split at ht
      next => exact h.fail he ht hindex
      next => exact h.move he ht hindex rfl (fun j hj => by cases hj) trivial
  | opening =>
      simp only [State.build] at ht
      split at ht
      next i n hnamed =>
        refine h.move he ht hindex rfl (fun j hj => ?_) trivial
        obtain rfl : i = j := Option.some.inj hj
        exact .inl ⟨k, hnamed⟩
      next => exact h.fail he ht hindex
  | identifying i =>
      cases answer with
      | done n =>
          refine h.matching he ht hindex rfl (fun j hj => hopen hj) fun hidentity => ?_
          exact ⟨s.version i, le_rfl, hidentity, fun _ => trivial⟩
      | _ => exact h.fail he ht hindex
  | leasing i original =>
      cases answer with
      | done n => exact h.move he ht hindex rfl (fun j hj => hopen hj) hsound
      | _ => exact h.fail he ht hindex
  | creating i original =>
      cases answer with
      | done n =>
          refine h.forward he ht hindex rfl (fun j hj => hopen hj) ?_
          have hempty : t.payload k = [] := by
            rw [ht]
            exact Function.update_self ..
          simp only [Phase.Sound, Construction.Sound, hempty]
          have hsince : Since host batch s k i original fun _ => True := hsound
          refine (hsince.later fun i => ?_).imp fun _ => ⟨rfl, Nat.zero_le _⟩
          rw [ht]
          exact le_rfl
      | _ => exact h.fail he ht hindex
  | polling i original copied =>
      simp only [State.build] at ht
      split at ht
      next => exact h.fail he ht hindex
      next => exact h.move he ht hindex rfl (fun j hj => hopen hj) hsound
  | reading i original copied =>
      cases answer with
      | done n => exact h.read he ht hw
      | interrupted => exact h.move he ht hindex rfl (fun j hj => hopen hj) hsound
      | refused => exact h.fail he ht hindex
  | writing i original copied rest =>
      cases answer with
      | done n => exact h.write he ht hw
      | interrupted =>
          have hsame : s = s.goto w (.building k (.writing i original copied rest)) := by
            rw [State.goto, ← hw, Function.update_eq_self]
          refine h.move he (ht.trans hsame) hindex rfl (fun j hj => hopen hj) hsound
      | refused => exact h.fail he ht hindex
  | sealing i original =>
      cases answer with
      | done n => exact h.move he ht hindex rfl (fun j hj => hopen hj) hsound
      | _ => exact h.fail he ht hindex
  | stopping i original =>
      simp only [State.build] at ht
      split at ht
      next => exact h.fail he ht hindex
      next => exact h.move he ht hindex rfl (fun j hj => hopen hj) hsound
  | rechecking i original =>
      cases answer with
      | done n =>
          refine h.matching he ht hindex rfl (fun j hj => hopen hj) fun hidentity => ?_
          -- the identity is the first one, so nothing was written since
          obtain ⟨v, hv, hfirst, hcontent⟩ := hsound
          have hversion : s.version i = v := hhost.version_eq hidentity hfirst
          exact ⟨v, hv, hfirst, hcontent hversion⟩
      | _ => exact h.fail he ht hindex
  | revisiting i original =>
      simp only [State.build] at ht
      split at ht
      next j n hnamed =>
        refine h.matching he ht hindex rfl (fun l hl => hopen hl) fun hidentity => ?_
        obtain ⟨v, hv, hfirst, hcontent⟩ := hsound
        obtain ⟨hdevice, hinode, -⟩ := hhost.identity_eq hidentity hfirst
        obtain rfl : j = i := h.distinct j i (.inl ⟨k, hnamed⟩) (hopen rfl) hdevice hinode
        have hversion : s.version j = v := hhost.version_eq hidentity hfirst
        exact h.run.once ⟨j, hnamed, by rw [hversion, hcontent], hidentity⟩
      next => exact h.fail he ht hindex
  | measuring i original =>
      cases answer with
      | done n =>
          simp only [State.build] at ht
          split at ht
          next => exact h.fail he ht hindex
          next => exact h.move he ht hindex rfl (fun j hj => by cases hj) hsound
      | _ => exact h.fail he ht hindex

/-! ## The batch -/

/-- Each system call of a worker keeps the invariant, one case for each phase. -/
theorem Invariant.call (hhost : host.Honest) (h : Invariant host batch before s)
    (he : HonestStep host batch s (.call w answer) t) :
    Invariant host batch (before ++ [.call w answer]) t := by
  have ht : s.call host batch w answer = some t := he.1
  unfold State.call at ht
  split at ht
  next => cases ht
  next hw => exact h.load he (Option.some.inj ht).symm hw
  next hw => exact h.claim he (Option.some.inj ht).symm hw
  next k hw =>
    have hindex : (s.worker w).index = some k := by rw [hw]; rfl
    replace ht := (Option.some.inj ht).symm
    split at ht
    next => exact h.fail he ht hindex
    next => exact h.move he ht hindex rfl (fun j hj => by cases hj) trivial
  next k hw =>
    have hindex : (s.worker w).index = some k := by rw [hw]; rfl
    split at ht
    next =>
      exact h.matching he (Option.some.inj ht).symm hindex rfl (fun j hj => by cases hj)
        fun _ => trivial
    next => exact h.fail he (Option.some.inj ht).symm hindex
  next k c hw => exact h.build hhost he (Option.some.inj ht).symm hw
  next k original hw =>
    have hindex : (s.worker w).index = some k := by rw [hw]; rfl
    replace ht := (Option.some.inj ht).symm
    split at ht
    next => exact h.fail he ht hindex
    next hsame => exact h.publish he ht hw (not_not.1 hsame)

/-- The invariant holds in every state of an honest run, by induction on the run. -/
theorem invariant_of_run (hhost : host.Honest) {events : List Event}
    (h : Run (HonestStep host batch) (start batch) events t) :
    Invariant host batch events t := by
  refine h.history (I := Invariant host batch) (fun {before s e t} hs he => ?_)
    (start_invariant host batch)
  cases e with
  | others version path => exact hs.outsiders he
  | stop => exact hs.stop he
  | call w answer => exact hs.call hhost he

/-- A batch that returns has no errors. -/
theorem result_ok {u : Unit} (h : s.result batch = .ok u) {k : Nat} (hk : k < batch.count) :
    s.errors k = none := by
  simp only [State.result, bind_ok, Fallible.forM_ok] at h
  obtain ⟨-, hall, -⟩ := h
  have hnone := hall k (List.mem_range.2 hk)
  split at hnone
  next => cases hnone
  next hnone' => exact hnone'

/-- **Snapshots are of one moment each.** Whatever the workers of a batch do between one another,
whatever others write to the sources and whichever files they put in their places meanwhile, a batch
that returns has a snapshot for every request: with the identity of the request, of its size, and
with the content that the file of this identity had at a moment of the run at which the source named
it. -/
theorem snapshots_captured (hhost : host.Honest) (hworkers : 0 < batch.workers)
    {events : List Event} (h : Run (HonestStep host batch) (start batch) events t)
    (hjoined : t.Joined batch) (hreturns : t.result batch = .ok ()) {k : Nat}
    (hk : k < batch.count) :
    t.sources k = some (batch.request k).identity ∧
      (t.payload k).length = (batch.request k).identity.size ∧
      Captured host batch events t k (t.payload k) (batch.request k).identity := by
  have hinv := invariant_of_run hhost h
  have hcursor : batch.count ≤ t.cursor := by
    rcases hinv.finished 0 hworkers (hjoined 0 hworkers) with hfailed | hdone
    · obtain ⟨l, hl, herror⟩ := hinv.failed hfailed
      exact absurd (result_ok hreturns hl) herror
    · exact hdone
  have hidle : ∀ w, (t.worker w).index ≠ some k := by
    intro w hw
    have hfinished : t.worker w = .finished := by
      rcases Nat.lt_or_ge w batch.workers with hlt | hge
      · exact hjoined w hlt
      · exact hinv.outside w hge
    rw [hfinished] at hw
    cases hw
  obtain ⟨o, ho⟩ : ∃ o, t.sources k = some o := by
    rcases hinv.settled k (Nat.lt_of_lt_of_le hk hcursor) hk with ⟨w, hw⟩ | hsource | herror
    · exact absurd hw (hidle w)
    · exact Option.ne_none_iff_exists'.1 hsource
    · exact absurd (result_ok hreturns hk) herror
  obtain ⟨rfl, hcaptured⟩ := hinv.published k o ho
  refine ⟨ho, ?_, hcaptured⟩
  obtain ⟨_, _, u, _, _, _, i, _, hcontent, hidentity⟩ := hcaptured
  rw [← hcontent]
  exact (SourceHost.identity_ok hidentity).2.symm

/-- Files that are rewritten once. -/
def sampleHost : SourceHost where
  hash := id
  regular _ := true
  device _ := 0
  inode i := i
  content _ v := if v = 0 then ascii "old" else ascii "new!"
  modified _ v := ⟨v, 0⟩
  changed _ v := ⟨v, 0⟩

/-- The host of the sample is honest. -/
theorem sampleHost_honest : sampleHost.Honest where
  hash _ _ _ _ _ h := h
  changed _ _ _ h := Int.ofNat_inj.1 (FileTime.mk.inj h).1

/-- Two sources, the first of which has been rewritten. -/
def sampleBatch : Batch where
  request k :=
    if k = 0 then ⟨ascii "a", ⟨ObjectSource.statText (sampleHost.stat 1 1) (ascii "a"), 4⟩⟩
    else ⟨ascii "b", ⟨ObjectSource.statText (sampleHost.stat 2 0) (ascii "b"), 3⟩⟩
  count := 2
  workers := 2

def sampleVersion (i : Nat) : Nat := if i = 1 then 1 else 0

def samplePath (k : Nat) : Option Nat :=
  if k = 0 then some 1 else if k = 1 then some 2 else none

/-- Calls of a worker, which read and write up to three bytes. -/
def calls (w n : Nat) : List Event := List.replicate n (.call w (.done 3))

/-- The workers take turns; the first one needs two reads. -/
def sampleCalls : List Event := calls 0 11 ++ calls 1 12 ++ calls 0 14 ++ calls 1 10

/-- One file is rewritten by others before it is read, and both payloads are those of the captured
versions. -/
theorem snapshots_captured_sample : ∃ t,
    Run (HonestStep sampleHost sampleBatch) (start sampleBatch)
      (.others sampleVersion samplePath :: sampleCalls) t ∧
    t.payload 0 = ascii "new!" ∧ t.payload 1 = ascii "old" ∧
    Captured sampleHost sampleBatch (.others sampleVersion samplePath :: sampleCalls) t 0
      (t.payload 0) (sampleBatch.request 0).identity := by
  have hfound : ∃ t, Run (fun s e t => step sampleHost sampleBatch s e = some t)
      { start sampleBatch with version := sampleVersion, path := samplePath } sampleCalls t ∧
      t.Joined sampleBatch ∧ (t.result sampleBatch).isOk = true ∧ t.payload 0 = ascii "new!" ∧
      t.payload 1 = ascii "old" := Run.of_any (by decide +kernel)
  obtain ⟨t, hrun, hjoined, hok, hnew, hold⟩ := hfound
  have hcalls : ∀ e ∈ sampleCalls, ∃ w n, e = .call w (.done n) := by
    intro e he
    simp only [sampleCalls, calls, List.mem_append, List.mem_replicate] at he
    rcases he with ((⟨-, rfl⟩ | ⟨-, rfl⟩) | ⟨-, rfl⟩) | ⟨-, rfl⟩
    all_goals exact ⟨_, _, rfl⟩
  have hhonest : Run (HonestStep sampleHost sampleBatch) (start sampleBatch)
      (.others sampleVersion samplePath :: sampleCalls) t := by
    refine .cons ⟨rfl, fun i => Nat.zero_le _, fun i j _ _ _ hinode => hinode⟩ ?_
    refine hrun.imp fun {s e u} he hstep => ?_
    obtain ⟨w, n, rfl⟩ := hcalls e he
    exact ⟨hstep, trivial⟩
  obtain ⟨_, hreturns⟩ := exists_of_isOk hok
  exact ⟨t, hhonest, hnew, hold,
    (snapshots_captured sampleHost_honest (by decide) hhonest hjoined hreturns (by decide)).2.2⟩

end ObjectSnapshotBatch

end FileProvider
