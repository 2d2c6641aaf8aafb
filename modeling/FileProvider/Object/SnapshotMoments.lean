import FileProvider.Object.SnapshotCalls

/-!
# Snapshots of a moment

A copy that is published is what its source held at one moment. While the source is copied the file
may change; as long as it has not, what is copied is the front of its content (`Copying`). The
identity tells a change, so that the second look at the descriptor finds the copy whole, and the
look at the path finds the file in place (`Captured`). That the batch has a snapshot for each of its
requests is up to its workers: a request that was claimed is being worked on, published, or failed
(`Invariant`).
-/

namespace FileProvider

open Bytes Fallible

namespace ObjectSource

variable {f g : FileStat} {path : Bytes}

/-- A printed integer holds no colon. -/
theorem colon_not_mem_decimalInt (n : Int) : (58 : UInt8) ∉ decimalInt n := by
  cases n with
  | ofNat n => exact colon_not_mem_decimal n
  | negSucc n => simp [decimalInt, colon_not_mem_decimal]

/-- No field of a stamp holds a colon, so the stamp tells its fields. -/
theorem colon_not_mem_fields (f : FileStat) : ∀ x ∈ fields f, (58 : UInt8) ∉ x := by
  simp [fields, colon_not_mem_decimal, colon_not_mem_decimalInt]

/-- Texts without a colon are read back from what puts a colon before each of them. Shifted by one
place, the colons stand behind the texts, where the first of them ends the first text. -/
theorem flatMap_colon_injective {l l' : List Bytes} (hl : ∀ x ∈ l, (58 : UInt8) ∉ x)
    (hl' : ∀ x ∈ l', (58 : UInt8) ∉ x) (h : l.flatMap (58 :: ·) = l'.flatMap (58 :: ·)) :
    l = l' := by
  have hshift : ∀ m : List Bytes, m.flatMap (58 :: ·) ++ [58] = 58 :: m.flatMap (· ++ [58]) := by
    intro m
    induction m with
    | nil => rfl
    | cons x m ih => simp only [List.flatMap_cons, List.append_assoc, ih, List.cons_append,
        List.nil_append]
  have hends : l.flatMap (· ++ [58]) = l'.flatMap (· ++ [58]) := by
    have hboth := congrArg (· ++ [(58 : UInt8)]) h
    simp only [hshift] at hboth
    exact (List.cons.inj hboth).2
  clear h hshift
  induction l generalizing l' with
  | nil =>
      cases l' with
      | nil => rfl
      | cons y l' => simp at hends
  | cons x l ih =>
      cases l' with
      | nil => simp at hends
      | cons y l' =>
          simp only [List.flatMap_cons, List.append_assoc, List.singleton_append] at hends
          rw [List.forall_mem_cons] at hl hl'
          obtain ⟨rfl, hrest⟩ := append_sep_inj hl.1 hl'.1 hends
          rw [ih hl.2 hl'.2 hrest]

/-- The stamp of a file is a text of all that is told of it but its kind. -/
theorem statText_inj (h : statText f path = statText g path) :
    f.device = g.device ∧ f.inode = g.inode ∧ f.size = g.size ∧ f.modified = g.modified ∧
      f.changed = g.changed := by
  have hfields := flatMap_colon_injective (colon_not_mem_fields f) (colon_not_mem_fields g)
    (List.append_cancel_left h)
  simp only [fields, List.cons.injEq, decimal_injective.eq_iff, decimalInt_injective.eq_iff,
    and_true] at hfields
  obtain ⟨hdevice, hinode, hsize, hms, hmn, hcs, hcn⟩ := hfields
  exact ⟨hdevice, hinode, hsize, FileTime.ext hms hmn, FileTime.ext hcs hcn⟩

end ObjectSource

namespace SourceHost

variable {host : SourceHost} {path : Bytes} {i j v w : Nat} {o : ObjectSourceIdentity}

/-- The host hashes different stamps to different digests, and it gives a file a time of change it
has never had whenever the file changes. -/
structure Honest (host : SourceHost) : Prop where
  hash : ∀ path i v j w, host.hash (ObjectSource.statText (host.stat i v) path)
    = host.hash (ObjectSource.statText (host.stat j w) path) →
      ObjectSource.statText (host.stat i v) path = ObjectSource.statText (host.stat j w) path
  changed : ∀ i v w, host.changed i v = host.changed i w → v = w

/-- An identity that is taken has the stamp and the size of the version. -/
theorem identity_ok (h : host.identity path i v = .ok o) :
    o.stamp = host.hash (ObjectSource.statText (host.stat i v) path) ∧
      o.size = (host.content i v).length := by
  simp only [identity, ObjectSource.statIdentity, bind_ok, pure_ok] at h
  obtain ⟨-, -, rfl⟩ := h
  exact ⟨rfl, rfl⟩

/-- Files with one identity have one device, one inode and one time of change. -/
theorem Honest.identity_eq (hhost : host.Honest) (h : host.identity path i v = .ok o)
    (h' : host.identity path j w = .ok o) :
    host.device i = host.device j ∧ host.inode i = host.inode j ∧
      host.changed i v = host.changed j w := by
  have htext := hhost.hash path i v j w ((identity_ok h).1.symm.trans (identity_ok h').1)
  obtain ⟨hdevice, hinode, -, -, hchanged⟩ := ObjectSource.statText_inj htext
  exact ⟨hdevice, hinode, hchanged⟩

/-- A file with the identity it had before is in the version it was in before. -/
theorem Honest.version_eq (hhost : host.Honest) (h : host.identity path i v = .ok o)
    (h' : host.identity path i w = .ok o) : v = w :=
  hhost.changed i v w (hhost.identity_eq h h').2.2

end SourceHost

namespace ObjectSnapshotBatch

variable {host : SourceHost} {batch : Batch} {before : List Event} {e : Event} {s t : State}
  {w w' k i : Nat} {p : Phase} {o : ObjectSourceIdentity} {x : Bytes}

/-! ## What is known of a copy -/

/-- A run of the batch has passed through a moment at which the source of a request named a file
with this content and this identity. -/
def Captured (host : SourceHost) (batch : Batch) (before : List Event) (s : State) (k : Nat)
    (payload : Bytes) (original : ObjectSourceIdentity) : Prop :=
  Run.Once (HonestStep host batch) (start batch) before s fun u => ∃ i, u.path k = some i ∧
    host.content i (u.version i) = payload ∧
      host.identity (batch.request k).source i (u.version i) = .ok original

/-- A file had an identity in some version, and if it is still in that version something holds of
its content. -/
def Since (host : SourceHost) (batch : Batch) (s : State) (k i : Nat)
    (original : ObjectSourceIdentity) (P : Bytes → Prop) : Prop :=
  ∃ v ≤ s.version i, host.identity (batch.request k).source i v = .ok original ∧
    (s.version i = v → P (host.content i v))

/-- What is copied and what is about to be written are the front of the content. -/
def Copying (payload rest : Bytes) (copied : Nat) (content : Bytes) : Prop :=
  payload ++ rest = content.take copied ∧ copied ≤ content.length

/-- What the constructor knows at its next call. -/
def Construction.Sound (host : SourceHost) (batch : Batch) (before : List Event) (s : State)
    (k : Nat) : Construction → Prop
  | .entering | .opening | .identifying _ => True
  | .leasing i original | .creating i original => Since host batch s k i original fun _ => True
  | .polling i original copied | .reading i original copied =>
      Since host batch s k i original (Copying (s.payload k) [] copied)
  | .writing i original copied rest =>
      Since host batch s k i original (Copying (s.payload k) rest copied)
  | .sealing i original | .stopping i original | .rechecking i original =>
      Since host batch s k i original (s.payload k = ·)
  | .revisiting i original =>
      ∃ v ≤ s.version i, host.identity (batch.request k).source i v = .ok original ∧
        s.payload k = host.content i v
  | .measuring _ original => Captured host batch before s k (s.payload k) original

def Phase.Sound (host : SourceHost) (batch : Batch) (before : List Event) (s : State) :
    Phase → Prop
  | .building k c => c.Sound host batch before s k
  | .comparing k original => Captured host batch before s k (s.payload k) original
  | _ => True

/-- What was captured stays captured as the run goes on. -/
theorem Captured.snoc (h : Captured host batch before s k x o) (he : HonestStep host batch s e t) :
    Captured host batch (before ++ [e]) t k x o := Run.Once.snoc h he

/-- What held since a moment held since it also seen from later. -/
theorem Since.later {P : Bytes → Prop} (h : Since host batch s k i o P)
    (hversion : ∀ i, s.version i ≤ t.version i) : Since host batch t k i o P := by
  obtain ⟨v, hv, hidentity, hcontent⟩ := h
  refine ⟨v, hv.trans (hversion i), hidentity, fun hsame => hcontent ?_⟩
  exact Nat.le_antisymm (hsame ▸ hversion i) hv

/-- What held since a moment may be weakened. -/
theorem Since.imp {P Q : Bytes → Prop} (h : Since host batch s k i o P)
    (hPQ : P (host.content i (s.version i)) → Q (host.content i (s.version i))) :
    Since host batch s k i o Q := by
  obtain ⟨v, hv, hidentity, hcontent⟩ := h
  refine ⟨v, hv, hidentity, ?_⟩
  rintro rfl
  exact hPQ (hcontent rfl)

/-- **What is known of a copy stays true**, as long as it is left alone. What was seen of the source
was seen at an earlier moment, and the copy of a request only changes through the worker that has
it. -/
theorem Phase.Sound.later (h : p.Sound host batch before s) (he : HonestStep host batch s e t)
    (hversion : ∀ i, s.version i ≤ t.version i)
    (hpayload : ∀ k, p.index = some k → t.payload k = s.payload k) :
    p.Sound host batch (before ++ [e]) t := by
  cases p with
  | building k c =>
      have hsame := hpayload k rfl
      cases c with
      | entering | opening | identifying i => trivial
      | leasing i original | creating i original =>
          simp only [Phase.Sound, Construction.Sound] at h ⊢
          exact h.later hversion
      | polling i original copied | reading i original copied | sealing i original
        | stopping i original | rechecking i original | writing i original copied rest =>
          simp only [Phase.Sound, Construction.Sound, hsame] at h ⊢
          exact h.later hversion
      | revisiting i original =>
          obtain ⟨v, hv, hidentity, hcontent⟩ := h
          exact ⟨v, hv.trans (hversion i), hidentity, hsame.trans hcontent⟩
      | measuring i original =>
          simp only [Phase.Sound, Construction.Sound, hsame] at h ⊢
          exact Captured.snoc h he
  | comparing k original =>
      have hsame := hpayload k rfl
      simp only [Phase.Sound, hsame] at h ⊢
      exact Captured.snoc h he
  | _ => trivial

/-! ## The workers -/

structure Invariant (host : SourceHost) (batch : Batch) (before : List Event) (s : State) :
    Prop where
  run : Run (HonestStep host batch) (start batch) before s
  distinct : s.Distinct host
  outside : ∀ w, batch.workers ≤ w → s.worker w = .finished
  bound : ∀ w k, (s.worker w).index = some k → k < s.cursor ∧ k < batch.count
  owner : ∀ w w' k, (s.worker w).index = some k → (s.worker w').index = some k → w = w'
  unpublished : ∀ w k, (s.worker w).index = some k → s.sources k = none
  unclaimed : ∀ k, s.cursor ≤ k → s.sources k = none
  settled : ∀ k < s.cursor, k < batch.count →
    (∃ w, (s.worker w).index = some k) ∨ s.sources k ≠ none ∨ s.errors k ≠ none
  failed : s.failed = true → ∃ k < batch.count, s.errors k ≠ none
  finished : ∀ w < batch.workers, s.worker w = .finished →
    s.failed = true ∨ batch.count ≤ s.cursor
  published : ∀ k o, s.sources k = some o →
    o = (batch.request k).identity ∧ Captured host batch before s k (s.payload k) o
  sound : ∀ w, (s.worker w).Sound host batch before s

/-- The invariant holds before the first system call. No worker has a request yet, so that there is
nothing to know. -/
theorem start_invariant (host : SourceHost) (batch : Batch) :
    Invariant host batch [] (start batch) := by
  have hindex : ∀ w, ((start batch).worker w).index = none := by
    intro w
    simp only [start]
    split <;> rfl
  have hnone : ∀ {w k}, ((start batch).worker w).index ≠ some k := by
    intro w k h
    rw [hindex w] at h
    cases h
  refine ⟨.nil _, ?_, fun w hw => if_neg (Nat.not_lt.2 hw), fun w k h => absurd h hnone,
    fun w w' k h => absurd h hnone, fun _ _ _ => rfl, fun _ _ => rfl,
    fun k h => absurd h (Nat.not_lt_zero k), fun h => absurd h Bool.false_ne_true,
    fun w hw h => ?_, fun _ _ h => (nomatch h), fun w => ?_⟩
  · rintro i j (⟨k, hk⟩ | ⟨w, hw⟩)
    · cases hk
    · simp only [start] at hw
      split at hw <;> cases hw
  · rw [show (start batch).worker w = .loading from if_pos hw] at h
    cases h
  · simp only [start]
    split <;> trivial

/-- Files exist no longer than they are named or open. -/
theorem State.Distinct.moved (h : s.Distinct host) (hpath : t.path = s.path)
    (hworker : t.worker = Function.update s.worker w p)
    (hdescriptor : ∀ i, p.descriptor = some i → s.Exists i) : t.Distinct host := by
  have hexists : ∀ i, t.Exists i → s.Exists i := by
    rintro i (⟨k, hk⟩ | ⟨w', hw'⟩)
    · rw [hpath] at hk
      exact .inl ⟨k, hk⟩
    · rw [hworker] at hw'
      by_cases hne : w' = w
      · subst hne
        rw [Function.update_self] at hw'
        exact hdescriptor i hw'
      · rw [Function.update_of_ne hne] at hw'
        exact .inr ⟨w', hw'⟩
  exact fun i j hi hj => h i j (hexists i hi) (hexists j hj)

/-- What the workers but one know, and what was published, where that one leaves its request. No two
workers have one request, so that the copies of the others are left alone. -/
theorem Invariant.others (h : Invariant host batch before s) (he : HonestStep host batch s e t)
    (hversion : t.version = s.version)
    (hpayload : ∀ k', (∀ k, (s.worker w).index = some k → k' ≠ k) → t.payload k' = s.payload k') :
    (∀ w', w' ≠ w → (s.worker w').Sound host batch (before ++ [e]) t) ∧
      ∀ k o, s.sources k = some o →
        o = (batch.request k).identity ∧ Captured host batch (before ++ [e]) t k
          (t.payload k) o := by
  constructor
  · intro w' hne
    refine (h.sound w').later he (fun i => le_of_eq (by rw [hversion])) fun k' hk' => ?_
    refine hpayload k' ?_
    rintro k hk rfl
    exact hne (h.owner w' w k' hk' hk)
  · intro k' o ho
    obtain ⟨hidentity, hcaptured⟩ := h.published k' o ho
    refine ⟨hidentity, ?_⟩
    rw [hpayload k' ?_]
    · exact hcaptured.snoc he
    · rintro k hk rfl
      rw [h.unpublished w k' hk] at ho
      cases ho

/-- A worker goes on with its request. It keeps its request, so that the owner of every request is
the same as before. -/
theorem Invariant.forward (h : Invariant host batch before s) (he : HonestStep host batch s e t)
    (ht : t = (s.store k x).goto w p) (hw : (s.worker w).index = some k) (hp : p.index = some k)
    (hdescriptor : ∀ i, p.descriptor = some i → s.Exists i)
    (hsound : p.Sound host batch (before ++ [e]) t) : Invariant host batch (before ++ [e]) t := by
  obtain ⟨hothers, hpublished⟩ := h.others (w := w) he (by rw [ht]; rfl) fun k' hk' => by
    rw [ht]
    exact Function.update_of_ne (hk' k hw) _ _
  have hworker : t.worker = Function.update s.worker w p := by rw [ht]; rfl
  have hself : t.worker w = p := by rw [hworker, Function.update_self]
  have hother : ∀ w', w' ≠ w → t.worker w' = s.worker w' := fun w' hne => by
    rw [hworker, Function.update_of_ne hne]
  have hindex : ∀ w', (t.worker w').index = (s.worker w').index := by
    intro w'
    by_cases hne : w' = w
    · rw [hne, hself, hp, hw]
    · rw [hother w' hne]
  have hfinished : ∀ w', t.worker w' = .finished → s.worker w' = .finished := by
    intro w' hw'
    by_cases hne : w' = w
    · rw [hne, hself] at hw'
      rw [hw'] at hp
      cases hp
    · rwa [hother w' hne] at hw'
  have hcursor : t.cursor = s.cursor := by rw [ht]; rfl
  have hsources : t.sources = s.sources := by rw [ht]; rfl
  have herrors : t.errors = s.errors := by rw [ht]; rfl
  have hfailed : t.failed = s.failed := by rw [ht]; rfl
  refine ⟨h.run.snoc he, h.distinct.moved (by rw [ht]; rfl) hworker hdescriptor, fun w' hw' => ?_,
    ?_, ?_, ?_, ?_, ?_, ?_, ?_, ?_, fun w' => ?_⟩
  · by_cases hne : w' = w
    · subst hne
      rw [h.outside w' hw'] at hw
      cases hw
    · rw [hother w' hne]
      exact h.outside w' hw'
  · simp only [hindex, hcursor]
    exact h.bound
  · simp only [hindex]
    exact h.owner
  · simp only [hindex, hsources]
    exact h.unpublished
  · rw [hcursor, hsources]
    exact h.unclaimed
  · simp only [hindex, hcursor, hsources, herrors]
    exact h.settled
  · rw [hfailed, herrors]
    exact h.failed
  · intro w' hw' hend
    rw [hfailed, hcursor]
    exact h.finished w' hw' (hfinished w' hend)
  · rw [hsources]
    exact hpublished
  · by_cases hne : w' = w
    · rw [hne, hself]
      exact hsound
    · rw [hother w' hne]
      exact hothers w' hne

/-- The same, where the copy is left as it is. -/
theorem Invariant.move (h : Invariant host batch before s) (he : HonestStep host batch s e t)
    (ht : t = s.goto w p) (hw : (s.worker w).index = some k) (hp : p.index = some k)
    (hdescriptor : ∀ i, p.descriptor = some i → s.Exists i) (hsound : p.Sound host batch before s) :
    Invariant host batch (before ++ [e]) t := by
  have hstore : s.store k (s.payload k) = s := by rw [State.store, Function.update_eq_self]
  refine h.forward he (x := s.payload k) (by rw [hstore, ht]) hw hp hdescriptor ?_
  refine hsound.later he (fun i => le_of_eq (by rw [ht]; rfl)) fun k' _ => ?_
  rw [ht]
  rfl

/-- A worker leaves a request that failed. -/
theorem Invariant.fail {message : String} (h : Invariant host batch before s)
    (he : HonestStep host batch s e t) (ht : t = s.fail w k message)
    (hw : (s.worker w).index = some k) : Invariant host batch (before ++ [e]) t := by
  obtain ⟨hothers, hpublished⟩ := h.others (w := w) he (by rw [ht]; rfl) fun k' _ => by rw [ht]; rfl
  subst ht
  have hself : (s.fail w k message).worker w = .loading := Function.update_self ..
  have hother : ∀ {w'}, w' ≠ w → (s.fail w k message).worker w' = s.worker w' :=
    fun {w'} hne => Function.update_of_ne hne _ _
  have hindex : ∀ {w' k'}, ((s.fail w k message).worker w').index = some k' →
      w' ≠ w ∧ (s.worker w').index = some k' := by
    intro w' k' hk'
    have hne : w' ≠ w := by
      rintro rfl
      rw [hself] at hk'
      cases hk'
    rw [hother hne] at hk'
    exact ⟨hne, hk'⟩
  have herror : (s.fail w k message).errors k ≠ none := by
    have hnew : (s.fail w k message).errors k = some message := Function.update_self ..
    rw [hnew]
    exact Option.some_ne_none message
  have hkept : ∀ {k'}, s.errors k' ≠ none → (s.fail w k message).errors k' ≠ none := by
    intro k' hk'
    by_cases hne : k' = k
    · rw [hne]
      exact herror
    · exact (Function.update_of_ne hne _ s.errors).trans_ne hk'
  refine ⟨h.run.snoc he, h.distinct.moved rfl rfl nofun, fun w' hw' => ?_,
    fun w' k' hk' => h.bound w' k' (hindex hk').2,
    fun w' w'' k' hk' hk'' => h.owner w' w'' k' (hindex hk').2 (hindex hk'').2,
    fun w' k' hk' => h.unpublished w' k' (hindex hk').2, h.unclaimed, fun k' hcursor hcount => ?_,
    fun _ => ⟨k, (h.bound w k hw).2, herror⟩, fun _ _ _ => .inl rfl, hpublished, fun w' => ?_⟩
  · have hne : w' ≠ w := by
      rintro rfl
      rw [h.outside w' hw'] at hw
      cases hw
    exact (hother hne).trans (h.outside w' hw')
  · rcases h.settled k' hcursor hcount with ⟨w', hw'⟩ | hsource | herrors
    · by_cases hne : w' = w
      · rw [hne, hw] at hw'
        obtain rfl := Option.some.inj hw'
        exact .inr (.inr herror)
      · exact .inl ⟨w', by rw [hother hne]; exact hw'⟩
    · exact .inr (.inl hsource)
    · exact .inr (.inr (hkept herrors))
  · by_cases hne : w' = w
    · rw [hne, hself]
      trivial
    · rw [hother hne]
      exact hothers w' hne

/-- A worker publishes its source and leaves the request. What was compared is the identity of the
request, and the copy is the one that was captured for it. -/
theorem Invariant.publish (h : Invariant host batch before s) (he : HonestStep host batch s e t)
    (ht : t = s.publish w k o) (hw : s.worker w = .comparing k o)
    (ho : o = (batch.request k).identity) : Invariant host batch (before ++ [e]) t := by
  have hidx : (s.worker w).index = some k := by rw [hw]; rfl
  obtain ⟨hothers, hpublished⟩ := h.others (w := w) he (by rw [ht]; rfl) fun k' _ => by rw [ht]; rfl
  have hcaptured : Captured host batch before s k (s.payload k) o := by
    have hsound := h.sound w
    rwa [hw] at hsound
  subst ht
  have hself : (s.publish w k o).worker w = .loading := Function.update_self ..
  have hother : ∀ {w'}, w' ≠ w → (s.publish w k o).worker w' = s.worker w' :=
    fun {w'} hne => Function.update_of_ne hne _ _
  have hindex : ∀ {w' k'}, ((s.publish w k o).worker w').index = some k' →
      w' ≠ w ∧ (s.worker w').index = some k' := by
    intro w' k' hk'
    have hne : w' ≠ w := by
      rintro rfl
      rw [hself] at hk'
      cases hk'
    rw [hother hne] at hk'
    exact ⟨hne, hk'⟩
  have hsource : (s.publish w k o).sources k = some o := Function.update_self ..
  have hold : ∀ {k'}, k' ≠ k → (s.publish w k o).sources k' = s.sources k' :=
    fun {k'} hne => Function.update_of_ne hne _ _
  refine ⟨h.run.snoc he, h.distinct.moved rfl rfl nofun, fun w' hw' => ?_,
    fun w' k' hk' => h.bound w' k' (hindex hk').2,
    fun w' w'' k' hk' hk'' => h.owner w' w'' k' (hindex hk').2 (hindex hk'').2,
    fun w' k' hk' => ?_, fun k' hk' => ?_, fun k' hcursor hcount => ?_, h.failed,
    fun w' hw' hend => ?_, fun k' o' ho' => ?_, fun w' => ?_⟩
  · have hne : w' ≠ w := by
      rintro rfl
      rw [h.outside w' hw'] at hw
      cases hw
    exact (hother hne).trans (h.outside w' hw')
  · obtain ⟨hne, hwas⟩ := hindex hk'
    have hkk : k' ≠ k := by
      rintro rfl
      exact hne (h.owner w' w k' hwas hidx)
    exact (hold hkk).trans (h.unpublished w' k' hwas)
  · have hkk : k' ≠ k := by
      rintro rfl
      exact absurd (h.bound w k' hidx).1 (Nat.not_lt.2 hk')
    exact (hold hkk).trans (h.unclaimed k' hk')
  · by_cases hkk : k' = k
    · refine .inr (.inl ?_)
      rw [hkk, hsource]
      nofun
    · rcases h.settled k' hcursor hcount with ⟨w', hw'⟩ | hold' | herrors
      · have hne : w' ≠ w := by
          rintro rfl
          exact hkk (Option.some.inj (hw'.symm.trans hidx))
        exact .inl ⟨w', by rw [hother hne]; exact hw'⟩
      · exact .inr (.inl (by rw [hold hkk]; exact hold'))
      · exact .inr (.inr herrors)
  · have hne : w' ≠ w := by
      rintro rfl
      rw [hself] at hend
      cases hend
    rw [hother hne] at hend
    exact h.finished w' hw' hend
  · by_cases hkk : k' = k
    · subst hkk
      obtain rfl : o = o' := Option.some.inj (hsource.symm.trans ho')
      exact ⟨ho, hcaptured.snoc he⟩
    · rw [hold hkk] at ho'
      exact hpublished k' o' ho'
  · by_cases hne : w' = w
    · rw [hne, hself]
      trivial
    · rw [hother hne]
      exact hothers w' hne

/-- A worker without a request ends, or goes for another one. -/
theorem Invariant.load (h : Invariant host batch before s) (he : HonestStep host batch s e t)
    (ht : t = s.goto w (if s.failed then .finished else .claiming)) (hw : s.worker w = .loading) :
    Invariant host batch (before ++ [e]) t := by
  obtain ⟨hothers, hpublished⟩ := h.others (w := w) he (by rw [ht]; rfl) fun k' _ => by rw [ht]; rfl
  obtain ⟨p, hp⟩ : ∃ p : Phase, (if s.failed then .finished else .claiming) = p := ⟨_, rfl⟩
  have hindex : p.index = none ∧ p.descriptor = none ∧ p.Sound host batch (before ++ [e]) t := by
    split at hp <;> subst hp <;> exact ⟨rfl, rfl, trivial⟩
  have hend : p = .finished → s.failed = true := by
    rintro rfl
    by_contra hfailed
    rw [if_neg hfailed] at hp
    cases hp
  rw [hp] at ht
  subst ht
  have hself : (s.goto w p).worker w = p := Function.update_self ..
  have hother : ∀ {w'}, w' ≠ w → (s.goto w p).worker w' = s.worker w' :=
    fun {w'} hne => Function.update_of_ne hne _ _
  have hsame : ∀ w', ((s.goto w p).worker w').index = (s.worker w').index := by
    intro w'
    by_cases hne : w' = w
    · rw [hne, hself, hindex.1, hw]
      rfl
    · rw [hother hne]
  refine ⟨h.run.snoc he, h.distinct.moved rfl rfl fun i hi => ?_, fun w' hw' => ?_, ?_, ?_, ?_,
    h.unclaimed, ?_, h.failed, fun w' hw' hfinished => ?_, hpublished, fun w' => ?_⟩
  · rw [hindex.2.1] at hi
    cases hi
  · have hne : w' ≠ w := by
      rintro rfl
      rw [h.outside w' hw'] at hw
      cases hw
    exact (hother hne).trans (h.outside w' hw')
  · simp only [hsame]
    exact h.bound
  · simp only [hsame]
    exact h.owner
  · simp only [hsame]
    exact h.unpublished
  · simp only [hsame]
    exact h.settled
  · by_cases hne : w' = w
    · rw [hne, hself] at hfinished
      exact .inl (hend hfinished)
    · rw [hother hne] at hfinished
      exact h.finished w' hw' hfinished
  · by_cases hne : w' = w
    · rw [hne, hself]
      exact hindex.2.2
    · rw [hother hne]
      exact hothers w' hne

/-- A worker claims the next request, or finds that there is none. -/
theorem Invariant.claim (h : Invariant host batch before s) (he : HonestStep host batch s e t)
    (ht : t = s.claim w batch.count) (hw : s.worker w = .claiming) :
    Invariant host batch (before ++ [e]) t := by
  obtain ⟨hothers, hpublished⟩ := h.others (w := w) he (by rw [ht]; rfl) fun k' _ => by rw [ht]; rfl
  subst ht
  have hself : (s.claim w batch.count).worker w
      = if batch.count ≤ s.cursor then .finished else .polling s.cursor := Function.update_self ..
  have hother : ∀ {w'}, w' ≠ w → (s.claim w batch.count).worker w' = s.worker w' :=
    fun {w'} hne => Function.update_of_ne hne _ _
  have hclaimed : ∀ {k}, ((s.claim w batch.count).worker w).index = some k →
      k = s.cursor ∧ s.cursor < batch.count := by
    intro k hk
    rw [hself] at hk
    split at hk
    next => cases hk
    next hmore => exact ⟨(Option.some.inj hk).symm, Nat.lt_of_not_le hmore⟩
  -- a request that another worker is on was claimed before
  have hbefore : ∀ {w' k}, w' ≠ w → ((s.claim w batch.count).worker w').index = some k →
      (s.worker w').index = some k ∧ k < s.cursor := by
    intro w' k hne hk
    rw [hother hne] at hk
    exact ⟨hk, (h.bound w' k hk).1⟩
  refine ⟨h.run.snoc he, h.distinct.moved rfl rfl fun i hi => ?_, fun w' hw' => ?_,
    fun w' k hk => ?_, fun w' w'' k hk hk' => ?_, fun w' k hk => ?_, fun k hk => ?_,
    fun k hk hcount => ?_, h.failed, fun w' hw' hfinished => ?_, hpublished, fun w' => ?_⟩
  · split at hi <;> cases hi
  · have hne : w' ≠ w := by
      rintro rfl
      rw [h.outside w' hw'] at hw
      cases hw
    exact (hother hne).trans (h.outside w' hw')
  · by_cases hne : w' = w
    · subst hne
      obtain ⟨rfl, hmore⟩ := hclaimed hk
      exact ⟨Nat.lt_succ_self _, hmore⟩
    · obtain ⟨hold, -⟩ := hbefore hne hk
      exact ⟨Nat.lt_succ_of_lt (h.bound w' k hold).1, (h.bound w' k hold).2⟩
  · by_cases hne : w' = w
    · by_cases hne' : w'' = w
      · rw [hne, hne']
      · rw [hne] at hk
        obtain ⟨rfl, -⟩ := hclaimed hk
        exact absurd (hbefore hne' hk').2 (Nat.lt_irrefl _)
    · obtain ⟨hold, hlt⟩ := hbefore hne hk
      by_cases hne' : w'' = w
      · rw [hne'] at hk'
        obtain ⟨rfl, -⟩ := hclaimed hk'
        exact absurd hlt (Nat.lt_irrefl _)
      · exact h.owner w' w'' k hold (hbefore hne' hk').1
  · by_cases hne : w' = w
    · rw [hne] at hk
      obtain ⟨rfl, -⟩ := hclaimed hk
      exact h.unclaimed _ le_rfl
    · exact h.unpublished w' k (hbefore hne hk).1
  · exact h.unclaimed k (Nat.le_of_succ_le hk)
  · by_cases hkk : k = s.cursor
    · refine .inl ⟨w, ?_⟩
      rw [hself, if_neg (Nat.not_le.2 (hkk ▸ hcount)), hkk]
      rfl
    · have hlt : k < s.cursor := Nat.lt_of_le_of_ne (Nat.le_of_lt_succ hk) hkk
      rcases h.settled k hlt hcount with ⟨w', hw'⟩ | hsettled
      · have hne : w' ≠ w := by
          rintro rfl
          rw [hw] at hw'
          cases hw'
        exact .inl ⟨w', by rw [hother hne]; exact hw'⟩
      · exact .inr hsettled
  · by_cases hne : w' = w
    · rw [hne, hself] at hfinished
      split at hfinished
      next hdone => exact .inr (Nat.le_succ_of_le hdone)
      next => cases hfinished
    · rw [hother hne] at hfinished
      exact (h.finished w' hw' hfinished).imp_right Nat.le_succ_of_le
  · by_cases hne : w' = w
    · rw [hne, hself]
      split <;> trivial
    · rw [hother hne]
      exact hothers w' hne

/-- Others change the files and the paths. -/
theorem Invariant.outsiders {version : Nat → Nat} {path : Nat → Option Nat}
    (h : Invariant host batch before s) (he : HonestStep host batch s (.others version path) t) :
    Invariant host batch (before ++ [.others version path]) t := by
  obtain ⟨ht, hversion, hdistinct⟩ := he
  have he : HonestStep host batch s (.others version path) t := ⟨ht, hversion, hdistinct⟩
  obtain rfl : { s with version := version, path := path } = t := Option.some.inj ht
  refine ⟨h.run.snoc he, hdistinct, h.outside, h.bound, h.owner, h.unpublished, h.unclaimed,
    h.settled, h.failed, h.finished, fun k o ho => ?_, fun w => ?_⟩
  · obtain ⟨hidentity, hcaptured⟩ := h.published k o ho
    exact ⟨hidentity, hcaptured.snoc he⟩
  · exact (h.sound w).later he hversion fun _ _ => rfl

/-- The cancellation is requested. -/
theorem Invariant.stop (h : Invariant host batch before s) (he : HonestStep host batch s .stop t) :
    Invariant host batch (before ++ [.stop]) t := by
  obtain rfl : { s with stopped := true } = t := Option.some.inj he.1
  refine ⟨h.run.snoc he, h.distinct, h.outside, h.bound, h.owner, h.unpublished, h.unclaimed,
    h.settled, h.failed, h.finished, fun k o ho => ?_, fun w => ?_⟩
  · obtain ⟨hidentity, hcaptured⟩ := h.published k o ho
    exact ⟨hidentity, hcaptured.snoc he⟩
  · exact (h.sound w).later he (fun _ => le_rfl) fun _ _ => rfl

end ObjectSnapshotBatch

end FileProvider
