import FileProvider.Catalog.Provision
import FileProvider.Catalog.Reference
import FileProvider.Object.SnapshotMoments

/-!
# Files put together of their ranges

A reader asks for one range after the other, and for the version which it was given first. What it
puts together is what the file was at one moment, although others changed files and catalog all
the time (`ranges_assemble`): the version of a file tells each of its changes, so that a reader
that finds it again has read in between of what it had found before (`Since`).

`Phase.Sound` says for each call of a reader what it knows by then, and the invariant says it of all
readers at once; a change of the world weakens what is known only of files that have got another
version. The last part is about progress: a reader that nobody disturbs gets to the end of the file.
-/

namespace FileProvider

open Bytes Fallible

namespace SourceHost

variable {host : SourceHost} {i j v w : Nat}

/-- The host never gives two states of the files of one inode the same time of change. -/
def Stamped (host : SourceHost) : Prop :=
  ∀ i v j w, host.device i = host.device j → host.inode i = host.inode j →
    host.changed i v = host.changed j w → i = j ∧ v = w

/-- Files with one version are one file in one state. -/
theorem Stamped.version_eq (hhost : host.Stamped)
    (h : host.versionText i v = host.versionText j w) : i = j ∧ v = w := by
  have hstat : ∀ i v, ObjectSource.statText (host.stat i v) [] = 58 :: host.versionText i v := by
    intro i v
    simp [ObjectSource.statText, ObjectSource.fields, versionText, identityText, stat]
  have htext : ObjectSource.statText (host.stat i v) []
      = ObjectSource.statText (host.stat j w) [] := by
    rw [hstat, hstat, h]
  obtain ⟨hdevice, hinode, -, -, hchanged⟩ := ObjectSource.statText_inj htext
  exact hhost i v j w hdevice hinode hchanged

/-- A version is never printed as the empty text, which stands for no version. -/
theorem versionText_ne_nil : host.versionText i v ≠ [] := by
  simp [versionText, identityText]

end SourceHost

namespace Catalog

namespace Provision

variable {E : CatalogLibraries} {host : SourceHost} {w w' w₀ : World} {s t : State}
  {events before : List Event} {e : Event} {r : Request} {p p' : Phase} {key place bytes : Bytes}
  {i v id given k : Nat} {physical : Physical} {chunk : FileChunk}

/-! ## What a change leaves -/

/-- A file stood under a path in some version, and as long as it is in that version it still
does. -/
def Since (w : World) (place : Bytes) (i v : Nat) : Prop :=
  v ≤ w.version i ∧ (w.version i = v → w.place place = some (.file i))

/-- A row of a key has this number. -/
def Numbered (E : CatalogLibraries) (w : World) (key : Bytes) (id : Nat) : Prop :=
  ∃ row ∈ w.tables.files, row.id = id ∧ normalized E key 128 false true = .ok row.key

/-- A world evolves into itself. -/
theorem World.Evolves.refl (w : World) : w.Evolves w :=
  ⟨fun row hrow => ⟨row, hrow, rfl, rfl⟩, fun _ => le_rfl, fun _ _ hplace _ => hplace⟩

/-- A file that is in a version it was in has not changed in between. -/
theorem World.Evolves.stayed (h : w.Evolves w') (hle : v ≤ w.version i) (hv : w'.version i = v) :
    w.version i = v :=
  le_antisymm (hv ▸ h.versions i) hle

/-- What stood at a place since the start stood there also seen from later. -/
theorem Since.evolves (hsince : Since w place i v) (h : w.Evolves w') : Since w' place i v := by
  obtain ⟨hle, hplace⟩ := hsince
  refine ⟨hle.trans (h.versions i), fun hv => ?_⟩
  have hold := h.stayed hle hv
  exact h.places place i (hplace hold) (hv.trans hold.symm)

/-- A file keeps its number as the world evolves. -/
theorem Numbered.evolves (hid : Numbered E w key id) (h : w.Evolves w') :
    Numbered E w' key id := by
  obtain ⟨row, hrow, rfl, hkey⟩ := hid
  obtain ⟨row', hrow', hid, hkey'⟩ := h.rows row hrow
  exact ⟨row', hrow', hid, hkey' ▸ hkey⟩

/-- What a step of a catalog does to its tables is among what others may do. -/
theorem evolves_of_step {c c' : Catalog} {e : Catalog.Event} (h : Catalog.Step E c e c')
    (hc : w.tables = c.tables) (hdb : c.tables.References) :
    w.Evolves { w with tables := c'.tables } where
  rows row hrow := by
    obtain ⟨row', hrow', hkey, -⟩ := (h.moves hdb).2 row (hc ▸ hrow)
    obtain ⟨hmem, hid⟩ := UniqueTable.find_eq_some.1 hrow'
    exact ⟨row', hmem, hid, hkey⟩
  versions _ := le_rfl
  places _ _ hplace _ := hplace

/-- Files that come to new versions may be put where no file stood. -/
theorem World.Evolves.elsewhere {place : Bytes → Option Place} {version : Nat → Nat}
    (hversions : ∀ i, w.version i ≤ version i)
    (hplaces : ∀ p i, w.place p = some (.file i) → place p = some (.file i)) :
    w.Evolves { w with place, version } :=
  ⟨fun row hrow => ⟨row, hrow, rfl, rfl⟩, hversions, fun p i hplace _ => hplaces p i hplace⟩

/-! ## What a reader knows -/

/-- A file in some version is registered under a key, and stands under a path. -/
def Stands (E : CatalogLibraries) (host : SourceHost) (key : Bytes) (i v : Nat) (s : State) :
    Prop :=
  s.world.version i = v ∧ (∃ place, s.world.place place = some (.file i)) ∧
    ∃ row ∈ s.world.tables.files, normalized E key 128 false true = .ok row.key ∧
      row.identity = host.identityText i

/-- The run has passed through a moment at which the file stood so. -/
def Stood (E : CatalogLibraries) (host : SourceHost) (w₀ : World) (before : List Event) (s : State)
    (key : Bytes) (i v : Nat) : Prop :=
  Run.Once (Step E host) (start w₀) before s (Stands E host key i v)

/-- A range is accepted when it is one of the file, and of the version that is asked for. -/
def Request.Accepts (r : Request) (physical : Physical) : Prop :=
  (r.expected = [] ∨ r.expected = physical.version) ∧ r.offset ≤ physical.size

/-- What was found of a file, and what holds if it is still in the version it was found in. -/
structure Found (host : SourceHost) (w : World) (place : Bytes) (physical : Physical) (i v : Nat)
    (P : Prop) : Prop where
  found : physical = host.physical i v
  since : Since w place i v
  stays : w.version i = v → P

/-- What was found of a file holds as the world evolves. -/
theorem Found.evolves {P : Prop} (h : Found host w place physical i v P) (hw : w.Evolves w') :
    Found host w' place physical i v P :=
  ⟨h.found, h.since.evolves hw, fun hv => h.stays (hw.stayed h.since.1 hv)⟩

/-- What was found may be weakened. -/
theorem Found.imp {P Q : Prop} (h : Found host w place physical i v P) (himp : P → Q) :
    Found host w place physical i v Q :=
  ⟨h.found, h.since, fun hv => himp (h.stays hv)⟩

/-- What a reader knows when it makes its next call. `Q` is what it knows of a file in a version
whose row it has compared. -/
def Phase.Sound (E : CatalogLibraries) (host : SourceHost) (w : World) (Q : Nat → Nat → Prop)
    (r : Request) : Phase → Prop
  | .entering => True
  | .locating record => Numbered E w r.key record.index
  | .inspecting id _ => Numbered E w r.key id
  | .comparing id place physical =>
      Numbered E w r.key id ∧ ∃ i v, Found host w place physical i v True
  | .opening place physical =>
      r.Accepts physical ∧ ∃ i v, Found host w place physical i v (Q i v)
  | .reading place physical j bytes =>
      r.Accepts physical ∧ ∃ i v, Found host w place physical i v
        (Q i v ∧ j = i ∧ bytes = ((host.content i v).drop r.offset).take bytes.length)
  | .rechecking place physical bytes =>
      r.Accepts physical ∧ ∃ i v, Found host w place physical i v
        (Q i v ∧ bytes = ((host.content i v).drop r.offset).take (r.count physical))

/-- A sound phase stays sound as the world evolves, with more known of the versions. -/
theorem Phase.Sound.evolves {Q Q' : Nat → Nat → Prop} (h : p.Sound E host w Q r)
    (hw : w.Evolves w') (hQ : ∀ i v, Q i v → Q' i v) : p.Sound E host w' Q' r := by
  cases p with
  | entering => trivial
  | locating record => exact Numbered.evolves h hw
  | inspecting id place => exact Numbered.evolves h hw
  | comparing id place physical =>
      obtain ⟨hid, i, v, hfound⟩ := h
      exact ⟨hid.evolves hw, i, v, hfound.evolves hw⟩
  | opening place physical =>
      obtain ⟨hr, i, v, hfound⟩ := h
      exact ⟨hr, i, v, (hfound.evolves hw).imp (hQ i v)⟩
  | reading place physical j bytes =>
      obtain ⟨hr, i, v, hfound⟩ := h
      exact ⟨hr, i, v, (hfound.evolves hw).imp (.imp_left (hQ i v))⟩
  | rechecking place physical bytes =>
      obtain ⟨hr, i, v, hfound⟩ := h
      exact ⟨hr, i, v, (hfound.evolves hw).imp (.imp_left (hQ i v))⟩

/-- A range is what the file has there in a version. -/
structure Provided (host : SourceHost) (Q : Nat → Nat → Prop) (r : Request) (chunk : FileChunk)
    (i v : Nat) : Prop where
  stood : Q i v
  version : chunk.contentVersion = host.versionText i v
  expected : r.expected = [] ∨ r.expected = chunk.contentVersion
  offset : chunk.offset = r.offset ∧ r.offset ≤ (host.content i v).length
  bytes : chunk.bytes = ((host.content i v).drop r.offset).take r.maximumBytes
  size : chunk.size = (host.content i v).length
  eof : chunk.eof = true ↔ r.offset + chunk.bytes.length = (host.content i v).length

/-- Inspection of a place reports the version of the file that stands there. -/
theorem inspect_world (h : inspect (w.fs host) place = .ok physical) :
    ∃ i, w.place place = some (.file i) ∧ physical = host.physical i (w.version i) := by
  obtain ⟨content, hnode⟩ := inspect_ok.1 h
  obtain ⟨found, hplace, hfound⟩ := Option.map_eq_some_iff.1 hnode
  cases found with
  | file i =>
      obtain ⟨rfl, -⟩ := Node.file.inj hfound
      exact ⟨i, hplace, rfl⟩
  | directory => cases hfound
  | link target => cases hfound
  | special => cases hfound

/-- A read goes on with the bytes of the file. -/
theorem piece_append {content : Bytes} {offset n asked : Nat} :
    (content.drop offset).take n ++ piece content (offset + n) asked given
      = (content.drop offset).take (n + min asked (max 1 given)) := by
  rw [List.take_add, List.drop_drop, piece]

/-! ## Each call -/

/-- What a reader goes on with is sound. Each call of a read finds out one more thing about the
file, which then stays true as long as the versions that were read are the same. -/
theorem call_goes {Q : Nat → Nat → Prop} (hQ : ∀ i v, Stands E host r.key i v s → Q i v)
    (hp : p.Sound E host s.world Q r) (h : call E host r given s.world p = .ok (.inl p')) :
    p'.Sound E host s.world Q r := by
  cases p with
  | entering =>
      simp only [call, bind_ok, pure_ok, Sum.inl.injEq] at h
      obtain ⟨_, -, _, -, record, hrecord, rfl⟩ := h
      obtain ⟨row, hrow, hkey, hentry⟩ := require_ok hrecord
      obtain ⟨_, _, -, -, rfl⟩ := entry_ok hentry
      exact ⟨row, hrow, rfl, hkey⟩
  | locating record =>
      simp only [call, bind_ok, pure_ok, Sum.inl.injEq] at h
      obtain ⟨place, -, rfl⟩ := h
      exact hp
  | inspecting id place =>
      simp only [call, bind_ok, pure_ok, Sum.inl.injEq] at h
      obtain ⟨physical, hphysical, rfl⟩ := h
      obtain ⟨i, hplace, hfound⟩ := inspect_world hphysical
      exact ⟨hp, i, s.world.version i, hfound, ⟨le_rfl, fun _ => hplace⟩, fun _ => trivial⟩
  | comparing id place physical =>
      simp only [call, bind_ok, pure_ok, failIf_ok, Sum.inl.injEq, not_or, not_and, not_not,
        Nat.not_lt] at h
      obtain ⟨_, hidentity, _, ⟨hexpected, hoffset, -⟩, rfl⟩ := h
      obtain ⟨⟨row, hrow, rfl, hkey⟩, i, v, hfound⟩ := hp
      refine ⟨⟨or_iff_not_imp_left.2 hexpected, hoffset⟩, i, v, hfound.found, hfound.since,
        fun hv => hQ i v ⟨hv, ⟨place, hfound.since.2 hv⟩, row, hrow, hkey, ?_⟩⟩
      rw [UniqueTable.mem_iff_find.1 hrow] at hidentity
      rw [Option.some.inj hidentity, hfound.found]
      rfl
  | opening place physical =>
      simp only [call, bind_ok, pure_ok, orFail_ok, Sum.inl.injEq] at h
      obtain ⟨j, hj, rfl⟩ := h
      obtain ⟨hr, i, v, hfound⟩ := hp
      refine ⟨hr, i, v, hfound.found, hfound.since, fun hv => ⟨hfound.stays hv, ?_, ?_⟩⟩
      · rw [hfound.since.2 hv] at hj
        exact (Option.some.inj hj).symm
      · simp
  | reading place physical j bytes =>
      obtain ⟨hr, i, v, hfound⟩ := hp
      simp only [call] at h
      split at h
      · next hcount =>
          obtain rfl : Phase.rechecking place physical bytes = p' := by simpa using h
          refine ⟨hr, i, v, hfound.imp fun hreads => ⟨hreads.1, ?_⟩⟩
          rw [← hcount]
          exact hreads.2.2
      · simp only [bind_ok, pure_ok, failIf_ok, Sum.inl.injEq] at h
        obtain ⟨_, -, rfl⟩ := h
        refine ⟨hr, i, v, hfound.found, hfound.since, fun hv => ?_⟩
        obtain ⟨hstood, rfl, hbytes⟩ := hfound.stays hv
        refine ⟨hstood, rfl, ?_⟩
        have hmore : ((host.content j v).drop r.offset).take bytes.length ++
            piece (host.content j v) (r.offset + bytes.length) (r.count physical - bytes.length)
              given = _ := piece_append
        rw [hv]
        rw [← hbytes] at hmore
        rw [hmore, List.take_eq_take_iff, List.length_take]
        omega
  | rechecking place physical bytes =>
      simp only [call, bind_ok, pure_ok, reduceCtorEq, and_false, exists_false] at h

/-- What a reader provides is what the file has there. The bytes were read between two inspections
that found one version, so they are the content that the file had at that version. -/
theorem call_provides {Q : Nat → Nat → Prop} (hhost : host.Stamped)
    (hp : p.Sound E host w Q r) (h : call E host r given w p = .ok (.inr chunk)) :
    ∃ i v, Provided host Q r chunk i v := by
  cases p with
  | rechecking place physical bytes =>
      simp only [call, bind_ok, pure_ok, failIf_ok, not_not, Sum.inr.injEq] at h
      obtain ⟨after, hafter, _, hversion, rfl⟩ := h
      obtain ⟨⟨hexpected, hoffset⟩, i, v, hfound⟩ := hp
      obtain ⟨j, -, rfl⟩ := inspect_world hafter
      obtain rfl := hfound.found
      obtain ⟨rfl, hv⟩ := hhost.version_eq hversion
      obtain ⟨hstood, hbytes⟩ := hfound.stays hv
      refine ⟨j, v, hstood, rfl, hexpected, ⟨rfl, hoffset⟩, ?_, rfl, decide_eq_true_iff⟩
      rw [hbytes, List.take_eq_take_iff, List.length_drop]
      show min (min r.maximumBytes ((host.content j v).length - r.offset)) _ = _
      omega
  | entering | locating record | inspecting id place | comparing id place physical
  | opening place physical =>
      simp only [call, bind_ok, pure_ok, reduceCtorEq, and_false, exists_false] at h
  | reading place physical j bytes =>
      simp only [call] at h
      split at h
      · simp at h
      · simp only [bind_ok, pure_ok, reduceCtorEq, and_false, exists_false] at h

/-! ## Each step -/

/-- Only a reader that is at work makes a call. -/
theorem call_some {result : Fallible (Phase ⊕ FileChunk)}
    (h : s.call E host k given = some (r, result)) :
    ∃ p, s.reader k = some (r, p) ∧ call E host r given s.world p = result := by
  obtain ⟨⟨r', p⟩, hreader, hresult⟩ := Option.map_eq_some_iff.1 h
  obtain ⟨rfl, rfl⟩ := Prod.mk.inj hresult
  exact ⟨p, hreader, rfl⟩

/-- What a step of a reader does: one call, and the phase after it. -/
theorem next_act (h : next E host s (.act k given) = some t) :
    ∃ r p p', s.reader k = some (r, p) ∧ call E host r given s.world p = .ok (.inl p') ∧
      t = s.set k (some (r, p')) := by
  simp only [next] at h
  split at h
  · next r p' hcall =>
      obtain ⟨p, hreader, hresult⟩ := call_some hcall
      exact ⟨r, p, p', hreader, hresult, (Option.some.inj h).symm⟩
  · cases h

/-- A reader provides its chunk by a call that returns it, and then has nothing to do. -/
theorem next_provide (h : next E host s (.provide k r chunk) = some t) :
    ∃ p, s.reader k = some (r, p) ∧ call E host r 0 s.world p = .ok (.inr chunk) ∧
      t = s.set k none := by
  simp only [next] at h
  split at h
  · next r' chunk' hcall =>
      split at h
      · next hsame =>
          obtain ⟨rfl, rfl⟩ := hsame
          obtain ⟨p, hreader, hresult⟩ := call_some hcall
          exact ⟨p, hreader, hresult, (Option.some.inj h).symm⟩
      · cases h
  · cases h

/-- A reader that refuses has nothing to do. -/
theorem next_refuse (h : next E host s (.refuse k) = some t) : t = s.set k none := by
  simp only [next] at h
  split at h
  · exact (Option.some.inj h).symm
  · cases h

/-- Setting one reader leaves the others. -/
theorem State.set_reader {q q' : Option (Request × Phase)} {j : Nat}
    (h : (s.set k q).reader j = q') : q = q' ∨ s.reader j = q' := by
  unfold State.set at h
  dsimp only at h
  split at h
  · exact .inl h
  · exact .inr h

/-- Every reader knows what it should, and every range that was provided is of a version that
stood. -/
structure Invariant (E : CatalogLibraries) (host : SourceHost) (w₀ : World) (before : List Event)
    (s : State) : Prop where
  readers : ∀ k r p, s.reader k = some (r, p) →
    p.Sound E host s.world (Stood E host w₀ before s r.key) r
  provided : ∀ k r chunk, .provide k r chunk ∈ before →
    ∃ i v, Provided host (Stood E host w₀ before s r.key) r chunk i v

/-- What a chunk was provided from may be weakened. -/
theorem Provided.imp {Q Q' : Nat → Nat → Prop} (h : Provided host Q r chunk i v)
    (hQ : ∀ i v, Q i v → Q' i v) : Provided host Q' r chunk i v :=
  { h with stood := hQ i v h.stood }

/-- What holds before a step of what its readers and its range are after it, holds afterwards. -/
theorem Invariant.advance (h : Invariant E host w₀ before s) (hstep : Step E host s e t)
    (hw : s.world.Evolves t.world)
    (hreaders : ∀ j r p, t.reader j = some (r, p) →
      p.Sound E host s.world (Stood E host w₀ before s r.key) r)
    (hprovided : ∀ k r chunk, e = .provide k r chunk →
      ∃ i v, Provided host (Stood E host w₀ before s r.key) r chunk i v) :
    Invariant E host w₀ (before ++ [e]) t where
  readers j r p hj := (hreaders j r p hj).evolves hw fun _ _ hstood => hstood.snoc hstep
  provided k r chunk hmem := by
    have hold : ∃ i v, Provided host (Stood E host w₀ before s r.key) r chunk i v := by
      rcases List.mem_append.1 hmem with hmem | hmem
      · exact h.provided k r chunk hmem
      · exact hprovided k r chunk (List.mem_singleton.1 hmem).symm
    obtain ⟨i, v, hchunk⟩ := hold
    exact ⟨i, v, hchunk.imp fun _ _ hstood => hstood.snoc hstep⟩

/-- Each step keeps the invariant: a call of a reader, a change of the world, or a request that
begins or ends. -/
theorem Invariant.step (hhost : host.Stamped) (hrun : Run (Step E host) (start w₀) before s)
    (h : Invariant E host w₀ before s) (hstep : Step E host s e t) :
    Invariant E host w₀ (before ++ [e]) t := by
  obtain ⟨hnext, hchange⟩ := hstep
  have hstep : Step E host s e t := ⟨hnext, hchange⟩
  -- a reader that does not move knows what it knew
  have hkept : ∀ {k q}, (∀ r p, q = some (r, p) →
      p.Sound E host s.world (Stood E host w₀ before s r.key) r) →
      ∀ j r p, (s.set k q).reader j = some (r, p) →
        p.Sound E host s.world (Stood E host w₀ before s r.key) r := by
    intro k q hq j r p hj
    rcases State.set_reader hj with hj | hj
    · exact hq r p hj
    · exact h.readers j r p hj
  cases e with
  | begin k r =>
      simp only [next] at hnext
      split at hnext
      · obtain rfl := Option.some.inj hnext
        refine h.advance hstep (.refl _) (hkept fun r' p' hq => ?_) (by simp)
        obtain ⟨rfl, rfl⟩ := Prod.mk.inj (Option.some.inj hq)
        trivial
      · cases hnext
  | act k given =>
      obtain ⟨r, p, p', hreader, hcall, rfl⟩ := next_act hnext
      refine h.advance hstep (.refl _) (hkept fun r' q hq => ?_) (by simp)
      obtain ⟨rfl, rfl⟩ := Prod.mk.inj (Option.some.inj hq)
      exact call_goes (fun i v hstands => hrun.once hstands) (h.readers k r p hreader) hcall
  | provide k r chunk =>
      obtain ⟨p, hreader, hcall, rfl⟩ := next_provide hnext
      refine h.advance hstep (.refl _) (hkept fun r' q hq => by cases hq) ?_
      intro k' r' chunk' heq
      obtain ⟨rfl, rfl, rfl⟩ := Event.provide.inj heq
      exact call_provides hhost (h.readers k r p hreader) hcall
  | refuse k =>
      obtain rfl := next_refuse hnext
      exact h.advance hstep (.refl _) (hkept fun r' q hq => by cases hq) (by simp)
  | change w =>
      obtain rfl := Option.some.inj hnext
      exact h.advance hstep (hchange w rfl) h.readers (by simp)

/-- The invariant holds at the start, when no reader is at work. -/
theorem Invariant.start : Invariant E host w₀ [] (start w₀) where
  readers k r p h := by cases h
  provided k r chunk h := absurd h List.not_mem_nil

/-- The invariant holds in every state of every run, by induction on the run. -/
theorem invariant_of_run (hhost : host.Stamped) (hrun : Run (Step E host) (start w₀) events s) :
    Invariant E host w₀ events s := by
  have hstart : Run (Step E host) (Provision.start w₀) [] (Provision.start w₀) ∧
      Invariant E host w₀ [] (Provision.start w₀) := ⟨.nil _, .start⟩
  have hboth := hrun.history (I := fun before s => Run (Step E host) (Provision.start w₀) before s ∧
      Invariant E host w₀ before s)
    (fun ⟨hrun, h⟩ hstep => ⟨hrun.snoc hstep, h.step hhost hrun hstep⟩) hstart
  exact hboth.2

/-! ## What a reader puts together -/

/-- The answers to a reader that goes on where each range ended, asks for a version, and stops at
the end of the file. -/
structure Continued (version : Bytes) (first : Request × FileChunk)
    (rest : List (Request × FileChunk)) : Prop where
  pinned : ∀ x ∈ rest, x.1.expected = version
  follows : (first :: rest).IsChain fun x y => y.1.offset = x.1.offset + x.2.bytes.length
  ended : ((first :: rest).getLast (List.cons_ne_nil _ _)).2.eof = true

/-- The answers to a reader that begins at the front and goes on for the version that the first
range was of. -/
structure Collected (first : Request × FileChunk) (rest : List (Request × FileChunk)) : Prop where
  front : first.1.offset = 0
  continued : Continued first.2.contentVersion first rest

/-- A part of the content that was read is followed by the rest. -/
theorem drop_range {content : Bytes} {offset m : Nat}
    (h : bytes = (content.drop offset).take m) :
    content.drop offset = bytes ++ content.drop (offset + bytes.length) := by
  have hlength : bytes = (content.drop offset).take bytes.length := by
    conv_lhs => rw [h]
    rw [List.take_eq_take_iff, h, List.length_take]
    simp
  conv_lhs => rw [← List.take_append_drop bytes.length (content.drop offset)]
  rw [← hlength, List.drop_drop]

/-- Ranges of one content that follow one another to its end are what it has from where they
begin. -/
theorem flatten_ranges {content : Bytes} {x : Request × FileChunk}
    {l : List (Request × FileChunk)}
    (hbytes : ∀ y ∈ x :: l, y.2.bytes = (content.drop y.1.offset).take y.1.maximumBytes)
    (hfollows : (x :: l).IsChain fun x y => y.1.offset = x.1.offset + x.2.bytes.length)
    (hend : ((x :: l).getLast (List.cons_ne_nil _ _)).1.offset
      + ((x :: l).getLast (List.cons_ne_nil _ _)).2.bytes.length = content.length) :
    ((x :: l).map (·.2.bytes)).flatten = content.drop x.1.offset := by
  induction l generalizing x with
  | nil =>
      have hend : x.1.offset + x.2.bytes.length = content.length := hend
      rw [drop_range (hbytes x List.mem_cons_self), hend, List.drop_length]
      rfl
  | cons y l ih =>
      obtain ⟨hnext, hfollows⟩ := List.isChain_cons_cons.1 hfollows
      have hrest := ih (fun z hz => hbytes z (List.mem_cons_of_mem _ hz)) hfollows
        (by simpa only [List.getLast_cons_cons] using hend)
      rw [List.map_cons, List.flatten_cons, hrest, hnext,
        drop_range (hbytes x List.mem_cons_self)]

/-! ## A reader that is alone -/

@[simp] theorem State.set_set (q q' : Option (Request × Phase)) :
    (s.set k q).set k q' = s.set k q' := by
  refine congrArg (State.mk s.world) (funext fun j => ?_)
  show (if j = k then q' else if j = k then q else s.reader j) = if j = k then q' else s.reader j
  grind

/-- Setting a reader that has nothing to do to nothing changes nothing. -/
theorem State.set_none (h : s.reader k = none) : s.set k none = s := by
  refine congrArg (State.mk s.world) (funext fun j => ?_)
  grind

/-- A call that goes on is a step of the reader. -/
theorem act_of_call (h : call E host r given s.world p = .ok (.inl p')) :
    Step E host (s.set k (some (r, p))) (.act k given) (s.set k (some (r, p'))) := by
  have hcall : (s.set k (some (r, p))).call E host k given = some (r, .ok (.inl p')) := by
    simp [State.call, State.set, h]
  refine ⟨?_, fun w heq => by cases heq⟩
  simp [next, hcall]

/-- A call that returns a chunk is the last step of the reader. -/
theorem provide_of_call (h : call E host r 0 s.world p = .ok (.inr chunk)) :
    Step E host (s.set k (some (r, p))) (.provide k r chunk) (s.set k none) := by
  have hcall : (s.set k (some (r, p))).call E host k 0 = some (r, .ok (.inr chunk)) := by
    simp [State.call, State.set, h]
  refine ⟨?_, fun w heq => by cases heq⟩
  simp [next, hcall]

/-- The file under the path of a row, which is the one that was registered. -/
structure Serves (E : CatalogLibraries) (host : SourceHost) (w : World) (key : Bytes)
    (record : CatalogFile) (i : Nat) : Prop where
  intact : w.intact = true
  required : require E w.tables key = .ok record
  path : path E (w.fs host) record.path = .ok record.path
  place : w.place record.path = some (.file i)
  identity : (w.tables.files.find record.index).map FileRow.identity = some (host.identityText i)
  size : (host.content i (w.version i)).length ≤ int64Max

/-- The range that a file has there. -/
def World.range (host : SourceHost) (w : World) (r : Request) (i : Nat) : FileChunk :=
  let content := host.content i (w.version i)
  let bytes := (content.drop r.offset).take r.maximumBytes
  ⟨bytes, r.offset, content.length, host.versionText i (w.version i),
    r.offset + bytes.length = content.length⟩

/-- A run in which nobody changes anything. -/
def Quiet (events : List Event) : Prop := ∀ e ∈ events, ∀ w, e ≠ .change w

/-- Where nobody interferes the loop of reads gets the whole range, by induction on what is left of
it. -/
theorem reads_range {physical : Physical} {i : Nat}
    (hphysical : physical = host.physical i (s.world.version i)) :
    ∃ events, Run (Step E host) (s.set k (some (r, .reading place physical i []))) events
      (s.set k (some (r, .rechecking place physical
        (((host.content i (s.world.version i)).drop r.offset).take r.maximumBytes)))) ∧
      Quiet events := by
  set content := host.content i (s.world.version i) with hcontent
  set range := (content.drop r.offset).take r.maximumBytes with hrange
  have hcount : range.length = r.count physical := by
    rw [hrange, List.length_take, List.length_drop, hphysical]
    rfl
  have hlast : Step E host (s.set k (some (r, .reading place physical i range))) (.act k 0)
      (s.set k (some (r, .rechecking place physical range))) :=
    act_of_call (by simp only [call, if_pos hcount]; rfl)
  by_cases hnil : range = []
  · refine ⟨[.act k 0], ?_, by simp [Quiet]⟩
    rw [hnil] at hlast ⊢
    exact .cons hlast (.nil _)
  · have hne : ¬ 0 = r.count physical := by
      rw [← hcount]
      exact fun hzero => hnil (List.length_eq_zero_iff.1 hzero.symm)
    have hpiece : piece content (r.offset + 0) (r.count physical - 0) (r.count physical)
        = range := by
      refine List.take_eq_take_iff.2 ?_
      rw [← hcount, hrange, List.length_take]
      simp only [Nat.add_zero, List.length_drop]
      omega
    have hfirst : Step E host (s.set k (some (r, .reading place physical i [])))
        (.act k (r.count physical)) (s.set k (some (r, .reading place physical i range))) := by
      refine act_of_call ?_
      simp only [call, List.length_nil, if_neg hne, ← hcontent, hpiece, List.nil_append]
      rw [(failIf_ok (u := ())).2 hnil]
      rfl
    exact ⟨[.act k (r.count physical), .act k 0], .cons hfirst (.cons hlast (.nil _)),
      by simp [Quiet]⟩

/-- A request for a range of the file, or for what is behind its end. -/
structure Request.Fits (r : Request) (w : World) (host : SourceHost) (key : Bytes) (i : Nat) :
    Prop where
  key : r.key = key
  maximum : 0 < r.maximumBytes ∧ r.maximumBytes ≤ maximumChunk
  expected : r.expected = [] ∨ r.expected = host.versionText i (w.version i)
  offset : r.offset ≤ (host.content i (w.version i)).length

/-- A reader that is alone is provided the range it asks for. Nobody else takes a step, so each of
its calls succeeds, and the version it finds is the one it began with. -/
theorem provides_range {record : CatalogFile} (hreader : s.reader k = none)
    (hserves : Serves E host s.world key record i) (hr : r.Fits s.world host key i) :
    ∃ events, Run (Step E host) s events s ∧ Quiet events ∧
      .provide k r (s.world.range host r i) ∈ events := by
  obtain ⟨rfl, hmaximum, hexpected, hoffset⟩ := hr
  set physical := host.physical i (s.world.version i) with hphysical
  have hnode : (s.world.fs host).node record.path
      = some (.file physical (host.content i (s.world.version i))) := by
    show (s.world.place record.path).map _ = _
    rw [hserves.place]
    rfl
  have hinspect : inspect (s.world.fs host) record.path = .ok physical :=
    inspect_ok.2 ⟨_, hnode⟩
  have hbegin : Step E host s (.begin k r) (s.set k (some (r, .entering))) :=
    ⟨by simp [next, hreader], fun w heq => by cases heq⟩
  have hentering : Step E host (s.set k (some (r, .entering))) (.act k 0)
      (s.set k (some (r, .locating record))) := by
    refine act_of_call ?_
    have hintact : (s.world.fs host).intact = true := hserves.intact
    have hlimit : ¬ (r.maximumBytes = 0 ∨ maximumChunk < r.maximumBytes) := by omega
    simp [call, failIf, hlimit, intact, hintact, hserves.required]
  have hlocating : Step E host (s.set k (some (r, .locating record))) (.act k 0)
      (s.set k (some (r, .inspecting record.index record.path))) := by
    refine act_of_call ?_
    simp only [call, hserves.path]
    rfl
  have hinspecting : Step E host (s.set k (some (r, .inspecting record.index record.path)))
      (.act k 0) (s.set k (some (r, .comparing record.index record.path physical))) := by
    refine act_of_call ?_
    simp only [call, hinspect]
    rfl
  have hcomparing : Step E host (s.set k (some (r, .comparing record.index record.path physical)))
      (.act k 0) (s.set k (some (r, .opening record.path physical))) := by
    refine act_of_call ?_
    have hidentity : ¬ (s.world.tables.files.find record.index).map FileRow.identity
        ≠ some physical.identity := not_not.2 hserves.identity
    have hrange : ¬ ((r.expected ≠ [] ∧ r.expected ≠ physical.version) ∨
        physical.size < r.offset ∨ int64Max < r.offset) := by
      rintro (⟨hne, hversion⟩ | hlt | hlt)
      · exact hexpected.elim hne hversion
      · exact absurd hoffset (Nat.not_le.2 hlt)
      · exact absurd (hoffset.trans hserves.size) (Nat.not_le.2 hlt)
    simp only [call, failIf, if_neg hidentity, if_neg hrange]
    rfl
  have hopening : Step E host (s.set k (some (r, .opening record.path physical))) (.act k 0)
      (s.set k (some (r, .reading record.path physical i []))) := by
    refine act_of_call ?_
    simp only [call, hserves.place]
    rfl
  obtain ⟨events, hreads, hquiet⟩ :
      ∃ events, Run (Step E host) (s.set k (some (r, .reading record.path physical i []))) events
        (s.set k (some (r, .rechecking record.path physical
          (((host.content i (s.world.version i)).drop r.offset).take r.maximumBytes)))) ∧
        Quiet events := reads_range hphysical
  have hprovide : Step E host (s.set k (some (r, .rechecking record.path physical
      (((host.content i (s.world.version i)).drop r.offset).take r.maximumBytes))))
      (.provide k r (s.world.range host r i)) (s.set k none) := by
    refine provide_of_call ?_
    exact bind_ok.2 ⟨physical, hinspect, bind_ok.2 ⟨(), failIf_ok.2 (not_not.2 rfl), rfl⟩⟩
  rw [State.set_none hreader] at hprovide
  refine ⟨[.begin k r, .act k 0, .act k 0, .act k 0, .act k 0, .act k 0] ++
    (events ++ [.provide k r (s.world.range host r i)]), ?_, ?_, by simp⟩
  · refine Run.append ?_ (hreads.append (.cons hprovide (.nil s)))
    exact .cons hbegin <| .cons hentering <| .cons hlocating <| .cons hinspecting <|
      .cons hcomparing <| .cons hopening (.nil _)
  · intro e he
    rcases List.mem_append.1 he with he | he
    · simp only [List.mem_cons, List.not_mem_nil, or_false] at he
      rcases he with rfl | rfl | rfl | rfl | rfl | rfl <;> exact fun w heq => by cases heq
    · rcases List.mem_append.1 he with he | he
      · exact hquiet e he
      · obtain rfl := List.mem_singleton.1 he
        exact fun w heq => by cases heq

/-- Two undisturbed parts of a run make one. -/
theorem Quiet.append {more : List Event} (h : Quiet events) (h' : Quiet more) :
    Quiet (events ++ more) := fun e he =>
  (List.mem_append.1 he).elim (h e) (h' e)

/-- A reader that is alone goes on to the end of the file. Each range is not empty before the end,
so what is left becomes less; the induction is on how many bytes are left. -/
theorem reaches_end {record : CatalogFile} (hreader : s.reader k = none)
    (hserves : Serves E host s.world key record i) (r : Request)
    (hr : r.Fits s.world host key i) :
    ∃ rest events, Run (Step E host) s events s ∧ Quiet events ∧
      (∀ x ∈ (r, s.world.range host r i) :: rest, .provide k x.1 x.2 ∈ events) ∧
      Continued (host.versionText i (s.world.version i)) (r, s.world.range host r i) rest := by
  set content := host.content i (s.world.version i) with hcontent
  induction hleft : content.length - r.offset using Nat.strong_induction_on generalizing r with
  | _ left ih =>
      obtain ⟨events, hrun, hquiet, hanswer⟩ := provides_range hreader hserves hr
      have hbytes : (s.world.range host r i).bytes = (content.drop r.offset).take r.maximumBytes :=
        rfl
      have heof : (s.world.range host r i).eof
          = decide (r.offset + (s.world.range host r i).bytes.length = content.length) := rfl
      by_cases hend : r.offset + (s.world.range host r i).bytes.length = content.length
      · refine ⟨[], events, hrun, hquiet, ?_, by simp, List.IsChain.singleton _, ?_⟩
        · intro x hx
          obtain rfl := List.mem_singleton.1 hx
          exact hanswer
        · exact heof.trans (decide_eq_true hend)
      · -- the range is full, and what is left gets shorter
        have hlength : (s.world.range host r i).bytes.length
            = min r.maximumBytes (content.length - r.offset) := by
          rw [hbytes, List.length_take, List.length_drop]
        have hoffset : r.offset ≤ content.length := hr.offset
        have hmaximum := hr.maximum
        set next : Request := ⟨key, r.offset + (s.world.range host r i).bytes.length,
          r.maximumBytes, host.versionText i (s.world.version i)⟩ with hnext
        have hfits : next.Fits s.world host key i := by
          refine ⟨rfl, hmaximum, .inr rfl, ?_⟩
          show r.offset + (s.world.range host r i).bytes.length ≤ content.length
          omega
        have hshorter : content.length - next.offset < left := by
          show content.length - (r.offset + (s.world.range host r i).bytes.length) < left
          omega
        obtain ⟨rest, more, hrun', hquiet', hanswers, hcontinued⟩ :=
          ih (content.length - next.offset) hshorter next hfits rfl
        refine ⟨(next, s.world.range host next i) :: rest, events ++ more, hrun.append hrun',
          hquiet.append hquiet', ?_, ?_, ?_, ?_⟩
        · intro x hx
          rcases List.mem_cons.1 hx with rfl | hx
          · exact List.mem_append_left _ hanswer
          · exact List.mem_append_right _ (hanswers x hx)
        · rw [List.forall_mem_cons]
          exact ⟨rfl, hcontinued.pinned⟩
        · exact List.isChain_cons_cons.2 ⟨rfl, hcontinued.follows⟩
        · rw [List.getLast_cons_cons]
          exact hcontinued.ended

/-! ## The whole file -/

/-- **What a reader puts together is what the file was at one moment.** Whoever wrote files, put
others under their paths, or changed the catalog while the reader went on from range to range: the
run has passed through a moment at which the bytes that were collected were the content of the file
that is registered under the key. -/
theorem ranges_assemble (hhost : host.Stamped) (hrun : Run (Step E host) (start w₀) events s)
    {first : Request × FileChunk} {rest : List (Request × FileChunk)}
    (hanswers : ∀ x ∈ first :: rest, ∃ k, .provide k x.1 x.2 ∈ events)
    (hcollected : Collected first rest) :
    ∃ i v, Stood E host w₀ events s first.1.key i v ∧
      host.versionText i v = first.2.contentVersion ∧
      host.content i v = ((first :: rest).map (·.2.bytes)).flatten := by
  have hprovided : ∀ x ∈ first :: rest, ∃ i v,
      Provided host (Stood E host w₀ events s x.1.key) x.1 x.2 i v := by
    intro x hx
    obtain ⟨k, hk⟩ := hanswers x hx
    exact (invariant_of_run hhost hrun).provided k x.1 x.2 hk
  obtain ⟨i, v, hfirst⟩ := hprovided first List.mem_cons_self
  -- every range is of the version of the first one, which tells the file and its state
  have hsame : ∀ x ∈ first :: rest,
      Provided host (Stood E host w₀ events s x.1.key) x.1 x.2 i v := by
    intro x hx
    rcases List.mem_cons.1 hx with rfl | hrest
    · exact hfirst
    · obtain ⟨j, u, hx⟩ := hprovided x hx
      have hversion : x.2.contentVersion = first.2.contentVersion := by
        have hpinned := hcollected.continued.pinned x hrest
        rcases hx.expected with hnone | hexpected
        · rw [hnone, hfirst.version] at hpinned
          exact absurd hpinned.symm SourceHost.versionText_ne_nil
        · exact hexpected.symm.trans hpinned
      rw [hx.version, hfirst.version] at hversion
      obtain ⟨rfl, rfl⟩ := hhost.version_eq hversion
      exact hx
  refine ⟨i, v, hfirst.stood, hfirst.version.symm, ?_⟩
  have hlast := hsame _ (List.getLast_mem (List.cons_ne_nil first rest))
  have hall := flatten_ranges (fun x hx => (hsame x hx).bytes) hcollected.continued.follows
    (hlast.eof.1 hcollected.continued.ended)
  rw [hall, hcollected.front]
  rfl

/-- A host whose files have numbers for their inodes, and for their times those of their
versions. -/
def sampleHost : SourceHost where
  hash b := b
  regular _ := true
  device _ := 1
  inode i := i
  content i v := if i = 0 then ascii "abc" else [v.toUInt8]
  modified _ v := ⟨v, 0⟩
  changed _ v := ⟨v, 0⟩

/-- The host of the sample tells versions apart. -/
theorem sampleHost_stamped : sampleHost.Stamped := by
  intro i v j w _ hinode hchanged
  exact ⟨hinode, Int.ofNat.inj (congrArg FileTime.seconds hchanged)⟩

/-- One file, which is registered. -/
def sampleWorld : World where
  intact := true
  tables := (createFile .reference sample (ascii "a") (ascii "abc") .initial (sampleDraws 1)
    (.done ⟨sampleHost.physical 0 0, none⟩) (.failed "disk is full")).2.tables
  place p := if p = ascii "a" then some (.file 0) else none
  version _ := 0

/-- Others have written another file. -/
def laterWorld : World :=
  { sampleWorld with
    place := fun p => if p = ascii "b" then some (.file 1) else sampleWorld.place p
    version := fun i => i }

def sampleRequest (offset : Nat) (expected : Bytes) : Request :=
  ⟨newKey (sampleDraws 1).fresh "file-", offset, 2, expected⟩

/-- The world of the sample evolves into the later one. -/
theorem laterWorld_evolves : sampleWorld.Evolves laterWorld := by
  refine .elsewhere (fun i => Nat.zero_le i) fun p i hplace => ?_
  have hp : p = ascii "a" := by
    by_contra hne
    cases hplace.symm.trans (if_neg hne)
  have hne : p ≠ ascii "b" := by
    rw [hp]
    decide
  exact (if_neg hne).trans hplace

/-- A file is served when what is looked up for it computes. -/
theorem serves_of_isOk
    (h : (require .reference w.tables key >>= fun record =>
      path .reference (w.fs host) record.path >>= fun _ =>
        failIf (w.intact = false ∨ w.place record.path ≠ some (.file i) ∨
          (w.tables.files.find record.index).map FileRow.identity ≠ some (host.identityText i) ∨
          int64Max < (host.content i (w.version i)).length) "unexpected").isOk = true) :
    ∃ record, Serves .reference host w key record i := by
  obtain ⟨_, hok⟩ := exists_of_isOk h
  obtain ⟨record, hrecord, hok⟩ := bind_ok.1 hok
  obtain ⟨place, hpath, hok⟩ := bind_ok.1 hok
  obtain ⟨rfl, -⟩ := path_ok hpath
  simp only [failIf_ok, not_or, not_not, Bool.not_eq_false, Nat.not_lt] at hok
  obtain ⟨hintact, hplace, hidentity, hsize⟩ := hok
  exact ⟨record, hintact, hrecord, hpath, hplace, hidentity, hsize⟩

/-- A run in which the world changes while the file is read, and what was assembled is the content
of one version. -/
theorem ranges_assemble_sample : ∃ (events : List Event) (s : State) (i v : Nat),
    Run (Step .reference sampleHost) (start sampleWorld) events s ∧
      .change laterWorld ∈ events ∧
      Stood .reference sampleHost sampleWorld events s (sampleRequest 0 []).key i v ∧
      sampleHost.content i v = ascii "abc" := by
  obtain ⟨record, hserves⟩ :
      ∃ record, Serves .reference sampleHost sampleWorld (sampleRequest 0 []).key record 0 :=
    serves_of_isOk (by decide +kernel)
  obtain ⟨record', hserves'⟩ :
      ∃ record, Serves .reference sampleHost laterWorld (sampleRequest 0 []).key record 0 :=
    serves_of_isOk (by decide +kernel)
  have hfits : (sampleRequest 0 []).Fits sampleWorld sampleHost (sampleRequest 0 []).key 0 :=
    ⟨rfl, by decide, .inl rfl, by decide⟩
  have hfits' : (sampleRequest 2 (sampleHost.versionText 0 0)).Fits laterWorld sampleHost
      (sampleRequest 0 []).key 0 :=
    ⟨rfl, by decide, .inr rfl, by decide⟩
  obtain ⟨events, hrun, -, hmem⟩ := provides_range (k := 0) (s := start sampleWorld) rfl hserves
    hfits
  obtain ⟨more, hrun', -, hmem'⟩ := provides_range (k := 0) (s := start laterWorld) rfl hserves'
    hfits'
  have hchange : Step .reference sampleHost (start sampleWorld) (.change laterWorld)
      (start laterWorld) := by
    refine ⟨rfl, fun w heq => ?_⟩
    obtain rfl := Event.change.inj heq
    exact laterWorld_evolves
  have hall := hrun.append (.cons hchange hrun')
  have hcollected : Collected
      (sampleRequest 0 [], sampleWorld.range sampleHost (sampleRequest 0 []) 0)
      [(sampleRequest 2 (sampleHost.versionText 0 0),
        laterWorld.range sampleHost (sampleRequest 2 (sampleHost.versionText 0 0)) 0)] :=
    ⟨rfl, by simp; rfl, List.isChain_cons_cons.2 ⟨rfl, .singleton _⟩, by decide⟩
  obtain ⟨i, v, hstood, -, hcontent⟩ := ranges_assemble sampleHost_stamped hall
    (by
      simp only [List.forall_mem_cons]
      exact ⟨⟨0, List.mem_append_left _ hmem⟩,
        ⟨0, List.mem_append_right _ (List.mem_cons_of_mem _ hmem')⟩, List.forall_mem_nil _⟩)
    hcollected
  exact ⟨_, _, i, v, hall, by simp, hstood, hcontent⟩

/-- **A reader that is alone collects the whole file**, however short the ranges it asks for are,
whatever happened before. From any state of any run there is a run of undisturbed calls in which the
ranges are provided one behind the other, from the first to the one that ends the file, and their
bytes are its content. -/
theorem collects_alone (hhost : host.Stamped) (hrun : Run (Step E host) (start w₀) before s)
    {record : CatalogFile} (hreader : s.reader k = none)
    (hserves : Serves E host s.world key record i) {m : Nat} (hm : 0 < m ∧ m ≤ maximumChunk) :
    ∃ first rest events, Run (Step E host) s events s ∧ Quiet events ∧
      (∀ x ∈ first :: rest, .provide k x.1 x.2 ∈ events) ∧ first.1 = ⟨key, 0, m, []⟩ ∧
      Collected first rest ∧
      ((first :: rest).map (·.2.bytes)).flatten = host.content i (s.world.version i) := by
  obtain ⟨rest, events, halone, hquiet, hanswers, hcontinued⟩ :=
    reaches_end hreader hserves ⟨key, 0, m, []⟩ ⟨rfl, hm, .inl rfl, Nat.zero_le _⟩
  have hcollected : Collected (_, s.world.range host ⟨key, 0, m, []⟩ i) rest := ⟨rfl, hcontinued⟩
  obtain ⟨j, v, -, hversion, hcontent⟩ := ranges_assemble hhost (hrun.append halone)
    (fun x hx => ⟨k, List.mem_append_right _ (hanswers x hx)⟩) hcollected
  obtain ⟨rfl, rfl⟩ := hhost.version_eq hversion
  exact ⟨_, rest, events, halone, hquiet, hanswers, rfl, hcollected, hcontent.symm⟩

/-- Ranges of two bytes collected without interference are the whole content. -/
theorem collects_alone_sample : ∃ (first : Request × FileChunk)
    (rest : List (Request × FileChunk)) (events : List Event),
    Run (Step .reference sampleHost) (start sampleWorld) events (start sampleWorld) ∧
      Collected first rest ∧ ((first :: rest).map (·.2.bytes)).flatten = ascii "abc" := by
  obtain ⟨record, hserves⟩ :
      ∃ record, Serves .reference sampleHost sampleWorld (sampleRequest 0 []).key record 0 :=
    serves_of_isOk (by decide +kernel)
  obtain ⟨first, rest, events, hrun, -, -, -, hcollected, hcontent⟩ :=
    collects_alone (k := 0) (m := 2) (s := start sampleWorld) sampleHost_stamped (.nil _) rfl
      hserves (by decide)
  exact ⟨first, rest, events, hrun, hcollected, hcontent⟩

end Provision

end Catalog

end FileProvider
