import FileProvider.Catalog.Companions

/-!
# What holds of every reachable catalog

Each step keeps the keys of files and the texts of collections in their normal form.

`Sound` was stated with the registrations, where keys are made. Every other transaction either makes
no key or takes one that is there, and collections are changed by calls that normalise their texts
first. The results are used where keys and texts are read back.
-/

namespace FileProvider

open Bytes Fallible

namespace Catalog

variable {E : CatalogLibraries} {fs : FileSystem} {db db' : CatalogTables}

/-- Raising the catalog's revision keeps the tables sound. -/
theorem bump_sound (hdb : Sound E db) (h : db.bump = .ok db') : Sound E db' := by
  rw [CatalogTables.bump_ok h]
  exact ⟨hdb.files, hdb.collections⟩

/-- Raised revisions leave the keys of the rows. -/
theorem raiseRevisions_rows {ids : List Nat} (h : db.raiseRevisions ids = .ok db') {row : FileRow}
    (hrow : row ∈ db'.files) : ∃ r ∈ db.files, r.id = row.id ∧ r.key = row.key := by
  obtain ⟨files, hfiles, rfl⟩ := CatalogTables.raiseRevisions_ok h
  have hfind := UniqueTable.mem_iff_find.1 hrow
  have hfind : files.find row.id = some row := hfind
  rw [hfiles] at hfind
  obtain ⟨r, hr, hrow'⟩ := Option.map_eq_some_iff.1 hfind
  have hmem := UniqueTable.find_eq_some.1 hr
  refine ⟨r, hmem.1, hmem.2, ?_⟩
  rw [← hrow']
  split
  · rfl
  · rfl

/-- Raising revisions keeps the tables sound. -/
theorem raiseRevisions_sound {ids : List Nat} (hdb : Sound E db)
    (h : db.raiseRevisions ids = .ok db') : Sound E db' := by
  refine ⟨fun row hrow => ?_, ?_⟩
  · obtain ⟨r, hr, -, hkey⟩ := raiseRevisions_rows h hrow
    exact hkey ▸ hdb.files r hr
  · obtain ⟨files, -, rfl⟩ := CatalogTables.raiseRevisions_ok h
    exact hdb.collections

/-- A registration keeps the tables sound. -/
theorem registration_sound {r : FileRegistration} {draws : KeyDraws} {file : CatalogFile}
    {mutated : Bool} (hdb : Sound E db)
    (h : registration E fs db r draws = .ok (file, mutated, db')) : Sound E db' := by
  obtain ⟨physical, content, -, -, hregisters⟩ := registration_ok h
  exact hregisters.sound hdb

/-- One entry of a batch keeps them sound. -/
theorem registerEntry_sound {b b' : Batch} {e : FileRegistration × KeyDraws}
    (hb : Sound E b.tables) (h : registerEntry E fs b e = .ok b') : Sound E b'.tables := by
  simp only [registerEntry, bind_ok, pure_ok, Prod.exists] at h
  obtain ⟨file, mutated, tables, hregistration, _, -, rfl⟩ := h
  exact registration_sound hb hregistration

/-- The transaction of a batch: its registrations, and the revision of the catalog. -/
theorem registerBatch_ok {entries : List FileRegistration} {draws : Nat → KeyDraws}
    {files : List CatalogFile} (h : registerBatch E fs db entries draws = .ok (files, db')) :
    ∃ batch : Batch, (entries.zipIdx.map fun e => (e.1, draws e.2)).foldlM (registerEntry E fs)
        ⟨db, [], false, 0⟩ = .ok batch ∧ files = batch.files ∧
      ((batch.mutated = true ∧ batch.tables.bump = .ok db') ∨
        (batch.mutated = false ∧ db' = batch.tables)) := by
  simp only [registerBatch, bind_ok] at h
  obtain ⟨batch, hbatch, h⟩ := h
  refine ⟨batch, hbatch, ?_⟩
  split at h
  · next hmutated =>
      simp only [bind_ok, pure_ok, Prod.mk.injEq] at h
      obtain ⟨bumped, hbump, rfl, rfl⟩ := h
      exact ⟨rfl, .inl ⟨hmutated, hbump⟩⟩
  · next hmutated =>
      simp only [pure_bind, pure_ok, Prod.mk.injEq] at h
      exact ⟨h.1.symm, .inr ⟨Bool.eq_false_iff.2 hmutated, h.2.symm⟩⟩

/-- A batch keeps them sound, by induction on its entries. -/
theorem registerBatch_sound {entries : List FileRegistration} {draws : Nat → KeyDraws}
    {files : List CatalogFile} (hdb : Sound E db)
    (h : registerBatch E fs db entries draws = .ok (files, db')) : Sound E db' := by
  obtain ⟨batch, hbatch, -, hbump⟩ := registerBatch_ok h
  have hfold : Sound E batch.tables :=
    foldlM_preserves (motive := fun b : Batch => Sound E b.tables)
      (fun _ _ _ hb hs => registerEntry_sound hb hs) _ hdb hbatch
  rcases hbump with ⟨-, hbump⟩ | ⟨-, rfl⟩
  · exact bump_sound hfold hbump
  · exact hfold

/-- Inheriting a valid companion's collections keeps them sound. -/
theorem inherit_sound {inherited : Option Companion} {m metadata : FileMetadata}
    (hdb : Sound E db) (hinherited : ∀ j ∈ inherited, CompanionValid E j)
    (h : inherit E db inherited m = .ok (metadata, db')) : Sound E db' := by
  cases inherited with
  | none =>
      cases h
      exact hdb
  | some j => exact restoreCollections_sound hdb (hinherited j rfl) h

/-- Raising and queueing the members of a collection keeps them sound. -/
theorem sound_of_raises {key : Bytes} {mid : CatalogTables} (hdb : Sound E db)
    (hraise : db.raiseRevisions (db.membersOf key) = .ok mid)
    (hqueue : mid.queue (mid.membersOf key) = .ok db') : Sound E db' := by
  have hmid := raiseRevisions_sound hdb hraise
  rw [CatalogTables.queue_ok hqueue]
  exact ⟨hmid.files, hmid.collections⟩

/-- **Every step keeps the keys sound.** Texts that come in are normalised by the call before its
transaction, or by the companion's reader. -/
theorem Sound.step {c c' : Catalog} {e : Event} (hc : Sound E c.tables) (h : Step E c e c') :
    Sound E c'.tables := by
  cases h with
  | register h => exact registerBatch_sound hc h
  | create hinherited hprepared hregister =>
      obtain ⟨-, -, -, hinherit⟩ := prepared_ok hprepared
      simp only [Catalog.register, bind_ok, pure_ok, Prod.exists, Prod.mk.injEq] at hregister
      obtain ⟨file, mutated, d, hregistration, d', hbump, -, rfl⟩ := hregister
      have hmid := inherit_sound hc hinherited hinherit
      exact bump_sound (registration_sound hmid hregistration) hbump
  | update _ h =>
      obtain ⟨file, physical, raised, text, mid, -, -, -, -, -, hraised, hannotated, -, hbump⟩ :=
        update_ok h
      exact bump_sound (hannotated.sound (raiseRevisions_sound hc hraised)) hbump
  | createCollection hname h =>
      simp only [addCollection, bind_ok, pure_ok, Prod.mk.injEq] at h
      obtain ⟨_, -, folded, hfolded, mid, hmid, bumped, hbump, -, rfl⟩ := h
      refine bump_sound
        (insertCollection_sound hc ⟨⟨?_, normalized_idem hname⟩, hfolded⟩ hmid) hbump
      exact normalized_collectionKey _
  | renameCollection hname h =>
      simp only [rename, bind_ok] at h
      obtain ⟨folded, hfolded, renamed, hrenamed, raised, hraised, queued, hqueued, _, -,
        hbump⟩ := h
      refine bump_sound (sound_of_raises ?_ hraised hqueued) hbump
      simp only [CatalogTables.updateCollection, bind_ok, orFail_ok, pure_ok] at hrenamed
      obtain ⟨_, -, collections, hcollections, _, -, rfl⟩ := hrenamed
      refine ⟨hc.files, fun row hrow => ?_⟩
      obtain ⟨row', hrow', rfl⟩ := (UniqueTable.mem_modify hcollections).1 hrow
      have hvalid := hc.collections row' hrow'
      split
      · exact ⟨⟨hvalid.normal.key, normalized_idem hname⟩, hfolded⟩
      · exact hvalid
  | removeCollection h =>
      simp only [dissolve, bind_ok] at h
      obtain ⟨raised, hraised, queued, hqueued, removed, hremoved, hbump⟩ := h
      have hsound := sound_of_raises hc hraised hqueued
      refine bump_sound ?_ hbump
      simp only [CatalogTables.removeCollection, bind_ok, pure_ok] at hremoved
      obtain ⟨_, -, _, -, rfl⟩ := hremoved
      refine ⟨hsound.files, fun row hrow => ?_⟩
      exact hsound.collections row (UniqueTable.mem_erase.1 hrow).1
  | saveFilter h =>
      obtain ⟨_, rfl⟩ := storeFilter_ok h
      exact ⟨hc.files, hc.collections⟩
  | removeFilter h =>
      obtain ⟨_, rfl⟩ := dropFilter_ok h
      exact ⟨hc.files, hc.collections⟩
  | publish => exact ⟨hc.files, hc.collections⟩
  | interrupted => exact hc
  | unindexed => exact hc
  | directory => exact hc
  | staged => exact hc
  | present => rwa [prepare_tables]
  | outside => exact hc

/-- Every catalog that is reached is sound. -/
theorem Sound.reached {allowed : FileSystem → FileSystem → Prop} {c : Catalog}
    (h : Reached E allowed c) : Sound E c.tables := by
  refine h.invariant (I := fun c => Sound E c.tables) (fun id fs => ⟨?_, ?_⟩)
    fun hc hstep _ => hc.step hstep
  · intro r hr
    cases hr
  · intro row hrow
    cases hrow

end Catalog

end FileProvider
