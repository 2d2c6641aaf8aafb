import FileProvider.Catalog.Refresh
import FileProvider.Catalog.Revisions

/-!
# Observed revisions

A writer that has seen a file at a revision edits it at that revision. The edit commits only where
nothing of the file has changed in between, so of two edits at one revision one at most commits. A
registration of files that are as the catalog has them changes nothing, and what is committed can be
read.

`RowValid` says what a row needs to be read again, and `Readable` that the tables are sound and all
rows are valid; both hold of every catalog that is reached. A file is undisturbed when what is found
of it is what its row says.
-/

namespace FileProvider

open Bytes Fallible

namespace Catalog

variable {E : CatalogLibraries} {fs : FileSystem} {db db' : CatalogTables}

/-! ## Rows -/

/-- A row with a revision of 64 bits that is not zero, whose annotation can be read. -/
structure RowValid (E : CatalogLibraries) (r : FileRow) : Prop where
  positive : 0 < r.revision
  bounded : r.revision ≤ int64Max
  reads : ∃ j m, E.json.parseText r.metadata = .ok j ∧ parseMetadata E j = .ok m

def RowsValid (E : CatalogLibraries) (db : CatalogTables) : Prop := ∀ r ∈ db.files, RowValid E r

/-- A valid row is read as an entry. -/
theorem RowValid.entry {r : FileRow} (h : RowValid E r) (db : CatalogTables) :
    ∃ f, entry E db r = .ok f := by
  obtain ⟨j, m, hj, hm⟩ := h.reads
  simp only [Catalog.entry, bind_ok, pure_ok]
  exact ⟨_, j, hj, m, hm, rfl⟩

/-- A row that is read as an entry has a document that parses. -/
theorem reads_of_entry {r : FileRow} {f : CatalogFile} (h : entry E db r = .ok f) :
    ∃ j m, E.json.parseText r.metadata = .ok j ∧ parseMetadata E j = .ok m := by
  obtain ⟨j, m, hj, hm, -⟩ := entry_ok h
  exact ⟨j, m, hj, hm⟩

/-- The revision of an updated row is within SQLite's positive numbers. -/
theorem updateFile_range {physical : Physical} {revision id : Nat} {path : Bytes}
    (h : db.updateFile physical revision path id = .ok db') :
    0 < revision ∧ revision ≤ int64Max := by
  simp only [CatalogTables.updateFile, integer, bind_ok, failIf_ok] at h
  obtain ⟨_, -, _, -, _, hle, _, hne, -⟩ := h
  exact ⟨Nat.pos_of_ne_zero hne, Nat.not_lt.1 hle⟩

/-- The revision of an inserted row is within SQLite's positive numbers. -/
theorem insertFile_range {physical : Physical} {revision id : Nat} {key path : Bytes}
    (h : db.insertFile physical revision key path = .ok (id, db')) :
    0 < revision ∧ revision ≤ int64Max := by
  simp only [CatalogTables.insertFile, integer, bind_ok, failIf_ok] at h
  obtain ⟨_, -, _, -, _, hle, _, hne, -⟩ := h
  exact ⟨Nat.pos_of_ne_zero hne, Nat.not_lt.1 hle⟩

/-- A revision that is raised stays within 64 bits. -/
theorem raiseRevisions_valid {ids : List Nat} (hdb : RowsValid E db)
    (h : db.raiseRevisions ids = .ok db') : RowsValid E db' := by
  simp only [CatalogTables.raiseRevisions, bind_ok, failIf_ok, pure_ok] at h
  obtain ⟨_, hlimit, rfl⟩ := h
  intro row hrow
  obtain ⟨r, hr, rfl⟩ : ∃ r ∈ db.files, (if r.id ∈ ids then r.raise else r) = row :=
    List.mem_map.1 hrow
  have hvalid := hdb r hr
  split
  · next hid =>
      have hlt : r.revision < int64Max := by
        by_contra hle
        exact hlimit ⟨r, hr, hid, Nat.not_lt.1 hle⟩
      exact ⟨Nat.succ_pos _, hlt, hvalid.reads⟩
  · exact hvalid

/-- Rows stay valid when one is annotated that can be read afterwards. -/
theorem Annotated.valid {id : Nat} {m : FileMetadata} {text : Bytes} {row : FileRow}
    {f : CatalogFile} (h : Annotated E db id m text db') (hrow : db.files.find id = some row)
    (hothers : ∀ r ∈ db.files, r.id ≠ id → RowValid E r)
    (hrange : 0 < row.revision ∧ row.revision ≤ int64Max)
    (hentry : entry E db' (row.annotate m text) = .ok f) : RowsValid E db' := by
  intro r hr
  have hfind := UniqueTable.mem_iff_find.1 hr
  by_cases hid : r.id = id
  · rw [hid, h.row hrow] at hfind
    obtain rfl := Option.some.inj hfind
    exact ⟨hrange.1, hrange.2, reads_of_entry hentry⟩
  · rw [h.leaves.files r.id hid] at hfind
    exact hothers r (UniqueTable.mem_iff_find.2 hfind) hid

/-- The file a description ends with is the one it annotated. -/
theorem Described.valid {mid : CatalogTables} {id : Nat} {p : Proposal} {file : CatalogFile}
    {row : FileRow} (h : Described E mid id p file db') (hrow : mid.files.find id = some row)
    (hkey : row.key = p.key) (hsound : fileKeyValid p.key = true)
    (hothers : ∀ r ∈ mid.files, r.id ≠ id → RowValid E r)
    (hrange : 0 < row.revision ∧ row.revision ≤ int64Max) : RowsValid E db' := by
  obtain ⟨text, hannotated⟩ := h.annotated
  obtain ⟨own, hown, hownKey, hentry⟩ := require_row h.required hsound
  have hnew := UniqueTable.find_eq_some.1 (hannotated.row hrow)
  obtain rfl : own = row.annotate p.metadata text :=
    UniqueTable.eq_of_column_eq (c := FileRow.key) (by simp [FileRow.columns]) hown hnew.1
      (hownKey.trans hkey.symm)
  exact hannotated.valid hrow hothers hrange hentry

/-- The row of a known file is refreshed under its number, and the key that is proposed is its. -/
theorem refreshed_row {relative : Bytes} {physical : Physical} {f : CatalogFile}
    {explicit : Option FileMetadata} {p : Proposal} {mid : CatalogTables}
    (hf : registered E fs db relative physical = .ok (some f))
    (hp : refreshed E fs db relative f explicit = .ok p)
    (hmid : p.tables.updateFile physical p.revision relative f.index = .ok mid) :
    ∃ own ∈ db.files, p.key = own.key ∧
      mid.files.find f.index = some (own.refresh relative physical p.revision) := by
  obtain ⟨hrestores, hkey, -⟩ := refreshed_ok hp
  obtain ⟨own, hown, hentry, -⟩ := registered_ok hf
  obtain ⟨_, _, -, -, rfl⟩ := entry_ok hentry
  obtain ⟨files, hfiles, rfl⟩ := CatalogTables.updateFile_ok hmid
  refine ⟨own, hown, hkey, ?_⟩
  show files.find own.id = _
  rw [UniqueTable.find_modify hfiles, if_pos rfl, hrestores.rows.1,
    UniqueTable.mem_iff_find.1 hown, Option.map_some]

/-- A registration keeps all rows valid: the one that it writes has been normalised and is within
the limits. -/
theorem Registers.valid {r : FileRegistration} {draws : KeyDraws} {physical : Physical}
    {file : CatalogFile} {mutated : Bool} (hdb : Sound E db) (hrows : RowsValid E db)
    (h : Registers E fs db r draws physical file mutated db') : RowsValid E db' := by
  cases h with
  | unchanged _ hp =>
      intro row hrow
      rw [(refreshed_ok hp).1.rows.1] at hrow
      exact hrows row hrow
  | @refreshed f _ p mid _ hf hp _ hmid hdescribed =>
      obtain ⟨own, hown, hkey, hfind⟩ := refreshed_row hf hp hmid
      obtain ⟨files, hfiles, hmid'⟩ := CatalogTables.updateFile_ok hmid
      refine hdescribed.valid hfind hkey.symm (hkey ▸ hdb.files own hown) ?_ (updateFile_range hmid)
      intro row hrow hid
      rw [hmid'] at hrow
      obtain ⟨row', hrow', rfl⟩ := (UniqueTable.mem_modify hfiles).1 hrow
      rw [(refreshed_ok hp).1.rows.1] at hrow'
      split at hid
      · next hsame => exact absurd hsame hid
      · next hother =>
          rw [if_neg hother]
          exact hrows row' hrow'
  | @added _ p id mid _ _ hp hmid hdescribed =>
      obtain ⟨hrestores, hvalid⟩ := adopted_ok hp
      obtain ⟨files, hfiles, hmid'⟩ := CatalogTables.insertFile_ok hmid
      have hfind : mid.files.find id = some (.new id p.key r.path physical p.revision) := by
        rw [hmid']
        exact ((UniqueTable.find_insert hfiles).2 id).trans (if_pos rfl)
      refine hdescribed.valid hfind rfl hvalid ?_ (insertFile_range hmid)
      intro row hrow hid
      rw [hmid'] at hrow
      rcases (UniqueTable.mem_insert hfiles).1 hrow with hrow | rfl
      · rw [hrestores.rows.1] at hrow
        exact hrows row hrow
      · exact absurd rfl hid

/-- Tables whose keys and rows are sound. -/
def Readable (E : CatalogLibraries) (db : CatalogTables) : Prop := Sound E db ∧ RowsValid E db

/-- A registration keeps the tables readable. -/
theorem registration_readable {r : FileRegistration} {draws : KeyDraws} {file : CatalogFile}
    {mutated : Bool} (hdb : Readable E db)
    (h : registration E fs db r draws = .ok (file, mutated, db')) : Readable E db' := by
  obtain ⟨physical, content, -, -, hregisters⟩ := registration_ok h
  exact ⟨hregisters.sound hdb.1, hregisters.valid hdb.1 hdb.2⟩

/-- Raising the catalog's revision keeps the rows valid. -/
theorem bump_valid (hdb : RowsValid E db) (h : db.bump = .ok db') : RowsValid E db' := by
  rw [CatalogTables.bump_ok h]
  exact hdb

/-- A batch of registrations keeps the rows valid, by induction on its entries. -/
theorem registerBatch_valid {entries : List FileRegistration} {draws : Nat → KeyDraws}
    {files : List CatalogFile} (hdb : Readable E db)
    (h : registerBatch E fs db entries draws = .ok (files, db')) : RowsValid E db' := by
  obtain ⟨batch, hbatch, -, hend⟩ := registerBatch_ok h
  have hfold : Readable E batch.tables := by
    refine foldlM_preserves (motive := fun b : Batch => Readable E b.tables) ?_ _ hdb hbatch
    intro b e b' hb hstep
    obtain ⟨file, mutated, hregistration, -, -⟩ := registerEntry_ok hstep
    exact registration_readable hb hregistration
  rcases hend with ⟨-, hbump⟩ | ⟨-, rfl⟩
  · exact bump_valid hfold.2 hbump
  · exact hfold.2

/-- An update of metadata keeps the rows valid. -/
theorem update_valid {key : Bytes} {expected : Nat} {metadata : FileMetadata}
    (hdb : RowsValid E db) (h : update E fs db key expected metadata = .ok db') :
    RowsValid E db' := by
  obtain ⟨file, physical, raised, text, mid, hfile, -, -, -, -, hraised, hannotated,
    hread, hbump⟩ :=
    update_ok h
  obtain ⟨row, hrow, hkey, hentry⟩ := require_ok hfile
  obtain ⟨_, _, -, -, rfl⟩ := entry_ok hentry
  obtain ⟨f, -, hf, -⟩ := hread
  obtain ⟨own, hown, hownKey, hread⟩ := require_ok hf
  have hraise := raiseRevisions_row hraised hrow (List.mem_singleton_self _)
  have hvalid := raiseRevisions_valid hdb hraised
  have hnew := UniqueTable.find_eq_some.1 (hannotated.row hraise)
  obtain rfl : own = row.raise.annotate metadata text :=
    UniqueTable.eq_of_column_eq (c := FileRow.key) (by simp [FileRow.columns]) hown hnew.1
      (Except.ok.inj (hownKey.symm.trans hkey))
  have hraised' := hvalid _ (UniqueTable.find_eq_some.1 hraise).1
  refine bump_valid (hannotated.valid hraise (fun r hr _ => hvalid r hr) ?_ hread) hbump
  exact ⟨hraised'.positive, hraised'.bounded⟩

/-- **Every step keeps rows readable and their revisions within 64 bits.** A transaction that raises
a revision fails at the last one, and the annotations it writes are in normal form, so the rows can
be read again. -/
theorem RowsValid.step {c c' : Catalog} {e : Event} (hc : Readable E c.tables)
    (h : Step E c e c') : RowsValid E c'.tables := by
  cases h with
  | register h => exact registerBatch_valid hc h
  | create hinherited hprepared hregister =>
      obtain ⟨-, -, -, hinherit⟩ := prepared_ok hprepared
      simp only [Catalog.register, bind_ok, pure_ok, Prod.exists, Prod.mk.injEq] at hregister
      obtain ⟨file, mutated, d, hregistration, d', hbump, -, rfl⟩ := hregister
      refine bump_valid (registration_readable ⟨inherit_sound hc.1 hinherited hinherit, ?_⟩
        hregistration).2 hbump
      intro row hrow
      refine hc.2 row ?_
      rename_i inherited _ _ _ _ _
      cases inherited with
      | none =>
          cases hinherit
          exact hrow
      | some j =>
          rw [(restoreCollections_ok hinherit).1.rows.1] at hrow
          exact hrow
  | update _ h => exact update_valid hc.2 h
  | createCollection _ h =>
      simp only [addCollection, bind_ok, pure_ok, Prod.mk.injEq] at h
      obtain ⟨_, -, folded, -, mid, hmid, bumped, hbump, -, rfl⟩ := h
      obtain ⟨collections, -, rfl⟩ := CatalogTables.insertCollection_ok hmid
      rw [CatalogTables.bump_ok hbump]
      exact hc.2
  | renameCollection _ h =>
      simp only [rename, bind_ok] at h
      obtain ⟨folded, -, renamed, hrenamed, raised, hraised, queued, hqueued, _, -, hbump⟩ := h
      simp only [CatalogTables.updateCollection, bind_ok, orFail_ok, pure_ok] at hrenamed
      obtain ⟨_, -, collections, -, _, -, rfl⟩ := hrenamed
      have hvalid : RowsValid E raised := by
        refine raiseRevisions_valid ?_ hraised
        exact hc.2
      rw [CatalogTables.bump_ok hbump, CatalogTables.queue_ok hqueued]
      exact hvalid
  | removeCollection h =>
      simp only [dissolve, bind_ok] at h
      obtain ⟨raised, hraised, queued, hqueued, removed, hremoved, hbump⟩ := h
      have hvalid := raiseRevisions_valid hc.2 hraised
      simp only [CatalogTables.removeCollection, bind_ok, pure_ok] at hremoved
      obtain ⟨_, -, _, -, rfl⟩ := hremoved
      rw [CatalogTables.bump_ok hbump, CatalogTables.queue_ok hqueued]
      exact hvalid
  | saveFilter h =>
      obtain ⟨_, rfl⟩ := storeFilter_ok h
      exact hc.2
  | removeFilter h =>
      obtain ⟨_, rfl⟩ := dropFilter_ok h
      exact hc.2
  | publish => exact hc.2
  | interrupted => exact hc.2
  | unindexed => exact hc.2
  | directory => exact hc.2
  | staged => exact hc.2
  | present =>
      rw [prepare_tables]
      exact hc.2
  | outside => exact hc.2

/-- Every catalog that is reached is readable. -/
theorem Readable.reached {allowed : FileSystem → FileSystem → Prop} {c : Catalog}
    (h : Reached E allowed c) : Readable E c.tables := by
  refine h.invariant (I := fun c => Readable E c.tables) (fun id fs => ⟨⟨?_, ?_⟩, ?_⟩)
    fun hc hstep _ => ⟨hc.1.step hstep, .step hc hstep⟩
  · intro r hr
    cases hr
  · intro row hrow
    cases hrow
  · intro r hr
    cases hr

/-! ## Files that are as the catalog has them -/

/-- The keys that come out of restored collections are those of the companion. -/
theorem restoreFold_keys {l : List FileCollection}
    {state state' : CatalogTables × List (Bytes × Bytes)}
    (h : l.foldlM (restoreCollection E) state = .ok state') :
    state'.2.map (·.1) = (l.map (·.key)).reverse ++ state.2.map (·.1) := by
  induction l generalizing state with
  | nil =>
      rw [List.foldlM_nil, pure_ok] at h
      rw [h]
      rfl
  | cons c l ih =>
      obtain ⟨mid, hmid, h⟩ := foldlM_cons_ok.1 h
      obtain ⟨-, key, hmap, -⟩ := restoreCollection_stands hmid
      rw [ih h, hmap]
      simp

/-- A collection that is made stands for itself. The others of the loop find their collection, by
its key or by its name, so nothing is inserted for them. -/
theorem restoreFold_made {l : List FileCollection}
    {state state' : CatalogTables × List (Bytes × Bytes)}
    (h : l.foldlM (restoreCollection E) state = .ok state') :
    state'.1 = state.1 ∨
      ∃ c ∈ l, state.1.collections.find c.key = none ∧ (c.key, c.key) ∈ state'.2 := by
  induction l generalizing state with
  | nil =>
      rw [List.foldlM_nil, pure_ok] at h
      exact .inl (congrArg Prod.fst h.symm)
  | cons c l ih =>
      obtain ⟨mid, hmid, h⟩ := foldlM_cons_ok.1 h
      have hkept : ∀ {l : List FileCollection} {s s' : CatalogTables × List (Bytes × Bytes)},
          l.foldlM (restoreCollection E) s = .ok s' → ∀ e ∈ s.2, e ∈ s'.2 := by
        intro l s s' hfold e he
        refine foldlM_preserves (motive := fun s : CatalogTables × List (Bytes × Bytes) => e ∈ s.2)
          (fun s c s' hs hstep => ?_) _ he hfold
        obtain ⟨-, key, hmap, -⟩ := restoreCollection_stands hstep
        rw [hmap]
        exact List.mem_cons_of_mem _ hs
      have hrestores := restoreCollection_restores hmid
      simp only [restoreCollection, bind_ok] at hmid
      obtain ⟨folded, -, hmid⟩ := hmid
      split at hmid
      · rw [pure_ok] at hmid
        subst hmid
        rcases ih h with hsame | ⟨c', hc', hnone, hmem⟩
        · exact .inl hsame
        · exact .inr ⟨c', List.mem_cons_of_mem _ hc', hnone, hmem⟩
      · next hnone =>
          simp only [bind_ok, pure_ok] at hmid
          obtain ⟨_, -, d, -, rfl⟩ := hmid
          refine .inr ⟨c, List.mem_cons_self, ?_, hkept h _ List.mem_cons_self⟩
          have hor := Option.map_eq_none_iff.1 hnone
          exact (Option.or_eq_none_iff.1 hor).1

/-- **Collections that are there are not made again.** A companion lists the collections of its
metadata, each of which is then remapped to the one that is there. -/
theorem restoreCollections_known {j : Companion} {m : FileMetadata} (hj : CompanionValid E j)
    (hknown : ∀ key ∈ m.collections, db.collections.find key ≠ none)
    (h : restoreCollections E db j = .ok (m, db')) : db' = db := by
  simp only [restoreCollections, bind_ok, pure_ok, Prod.exists, Prod.mk.injEq] at h
  obtain ⟨d, remap, hfold, collections, hmap, m', hm, rfl, rfl⟩ := h
  rcases restoreFold_made hfold with hsame | ⟨c, hc, hnone, hmem⟩
  · exact hsame
  · exfalso
    have hkeys := restoreFold_keys hfold
    have hnodup : (remap.map (·.1)).Nodup := by
      rw [show remap.map (·.1) = (j.collections.map (·.key)).reverse ++ [] from hkeys,
        List.append_nil]
      exact List.nodup_reverse.2 hj.nodup
    have hself : remapped remap c.key = .ok c.key := by
      cases hremap : remapped remap c.key with
      | error e =>
          rw [remapped] at hremap
          have hfind : remap.find? (fun e => e.1 = c.key) = none := by
            cases hfind : remap.find? (fun e => e.1 = c.key) with
            | none => rfl
            | some e =>
                rw [hfind] at hremap
                cases hremap
          exact absurd (List.find?_eq_none.1 hfind _ hmem) (by simp)
      | ok value =>
          have hvalue := remapped_ok hremap
          have hsame := List.inj_on_of_nodup_map hnodup hvalue hmem rfl
          rw [(Prod.mk.inj hsame).2]
    have hlisted : c.key ∈ collections := by
      have hmem' : remapped remap c.key ∈ collections.map (Except.ok (ε := String)) := by
        rw [← mapM_ok.1 hmap]
        exact List.mem_map_of_mem (hj.known c hc)
      rw [hself] at hmem'
      obtain ⟨v, hv, heq⟩ := List.mem_map.1 hmem'
      exact Except.ok.inj heq ▸ hv
    obtain ⟨memberships, hmemberships, hcollections⟩ := normalizeMetadata_collections hm
    have hmember : c.key ∈ memberships := by
      have hmem' : normalized E c.key 128 false true
          ∈ memberships.map (Except.ok (ε := String)) := by
        rw [← mapM_ok.1 hmemberships]
        exact List.mem_map_of_mem (f := fun key => normalized E key 128 false true) hlisted
      rw [(hj.normal c hc).key] at hmem'
      obtain ⟨v, hv, heq⟩ := List.mem_map.1 hmem'
      exact Except.ok.inj heq ▸ hv
    refine hknown c.key ?_ hnone
    rw [hcollections]
    exact mem_sortedSet.2 hmember

/-- The metadata a registration takes over in place of the file's own. Where its collections are all
there, taking it over makes no new ones, and the tables stay what they are. -/
theorem refreshed_tables {relative : Bytes} {f : CatalogFile} {explicit : Option FileMetadata}
    {p : Proposal} (h : refreshed E fs db relative f explicit = .ok p)
    (hknown : ∀ key ∈ p.metadata.collections, db.collections.find key ≠ none) : p.tables = db := by
  unfold refreshed at h
  split at h
  · simp only [bind_ok, pure_ok] at h
    obtain ⟨m, -, rfl⟩ := h
    rfl
  · rw [bind_ok] at h
    obtain ⟨found, hfound, h⟩ := h
    split at h
    · rw [pure_ok] at h
      subst h
      rfl
    · split at h
      · simp only [bind_ok, pure_ok, Prod.exists] at h
        obtain ⟨m, d, hrestore, rfl⟩ := h
        exact restoreCollections_known (sidecar_valid hfound) hknown hrestore
      · rw [pure_ok] at h
        subst h
        rfl

/-- The collections of a file are there. -/
theorem entry_known (hdb : db.References) {row : FileRow} {f : CatalogFile}
    (h : entry E db row = .ok f) :
    ∀ key ∈ f.metadata.collections, db.collections.find key ≠ none := by
  obtain ⟨_, _, -, -, rfl⟩ := entry_ok h
  intro key hkey
  exact hdb ⟨row.id, key⟩ (CatalogTables.mem_memberships.1 hkey)

/-- **A registration that finds nothing changed changes nothing.** This is what `mutated` reports,
and the batch counts itself only if one of its entries is mutated. -/
theorem Registers.unmutated {r : FileRegistration} {draws : KeyDraws} {physical : Physical}
    {file : CatalogFile} {mutated : Bool} (hdb : db.References)
    (h : Registers E fs db r draws physical file mutated db') (hmutated : mutated = false) :
    db' = db := by
  cases h with
  | unchanged hf hp _ _ hmetadata =>
      obtain ⟨own, -, hentry, -⟩ := registered_ok hf
      exact refreshed_tables hp fun key hkey => entry_known hdb hentry key (hmetadata ▸ hkey)
  | refreshed => cases hmutated
  | added => cases hmutated

/-- A companion whose collections are there is restored as it is. Every collection is remapped to
itself, so the memberships are those that were written. -/
theorem restoreCollections_same {j : Companion} {m : FileMetadata} (hj : CompanionValid E j)
    (hknown : ∀ key ∈ j.metadata.collections, db.collections.find key ≠ none)
    (h : restoreCollections E db j = .ok (m, db')) : m = j.metadata := by
  simp only [restoreCollections, bind_ok, pure_ok, Prod.exists, Prod.mk.injEq] at h
  obtain ⟨d, remap, hfold, collections, hmap, m', hm, rfl, rfl⟩ := h
  have hself : d = db ∧ ∀ e ∈ remap, e.2 = e.1 := by
    refine foldlM_preserves_mem (motive := fun s : CatalogTables × List (Bytes × Bytes) =>
      s.1 = db ∧ ∀ e ∈ s.2, e.2 = e.1) ?_ ⟨rfl, fun e he => by cases he⟩ hfold
    intro c hc s s' hs hstep
    obtain ⟨htables, hremap⟩ := hs
    simp only [restoreCollection, bind_ok] at hstep
    obtain ⟨folded, -, hstep⟩ := hstep
    obtain ⟨row, hrow⟩ := Option.ne_none_iff_exists'.1 (hknown c.key (hj.known c hc))
    have hkey : row.key = c.key := (UniqueTable.find_eq_some.1 hrow).2
    have hfound : s.1.collectionOf c.key folded = some c.key := by
      rw [CatalogTables.collectionOf, htables, hrow, Option.some_or, Option.map_some, hkey]
    rw [hfound] at hstep
    dsimp only at hstep
    rw [pure_ok] at hstep
    subst hstep
    exact ⟨htables, List.forall_mem_cons.2 ⟨rfl, hremap⟩⟩
  have hcollections : collections = j.metadata.collections := by
    have hmap' := mapM_ok.1 hmap
    have heq : j.metadata.collections.map (remapped remap)
        = j.metadata.collections.map Except.ok := by
      refine List.map_congr_left fun key hkey => ?_
      have hmem : remapped remap key ∈ collections.map (Except.ok (ε := String)) := by
        rw [← hmap']
        exact List.mem_map_of_mem hkey
      obtain ⟨value, -, hvalue⟩ := List.mem_map.1 hmem
      have hsame : value = key := hself.2 _ (remapped_ok hvalue.symm)
      rw [← hvalue, hsame]
    rw [heq] at hmap'
    exact (List.map_injective_iff.2 (fun _ _ h => Except.ok.inj h) hmap').symm
  obtain ⟨n, hn⟩ := hj.metadata
  obtain ⟨hnormal, hkeys⟩ := normalizeMetadata_normal hn
  rw [hcollections] at hm
  exact normalizeMetadata_eq hnormal hkeys hm

/-- A file that is as the catalog has it: its content has the version of its row, and its
registration brings no other annotation. -/
def Undisturbed (E : CatalogLibraries) (fs : FileSystem) (db : CatalogTables)
    (r : FileRegistration) : Prop :=
  ∃ row ∈ db.files, ∃ f physical, row.path = r.path ∧ entry E db row = .ok f ∧
    inspect fs r.path = .ok physical ∧ row.stamp = physical.version ∧
    (∀ m ∈ r.metadata, normalizeMetadata E m = .ok f.metadata) ∧
    (r.metadata = none → ∀ j, sidecar E fs r.path = .ok (some j) → j.fileKey = row.key →
      row.revision ≤ j.revision → j.metadata = f.metadata)

/-- A file is found under its path. -/
theorem registered_path {row : FileRow} {f : CatalogFile} {relative : Bytes} {physical : Physical}
    (hrow : row ∈ db.files) (hpath : row.path = relative) (hf : entry E db row = .ok f) :
    registered E fs db relative physical = .ok (some f) := by
  have hby : db.files.findBy FileRow.path relative = some row :=
    (UniqueTable.findBy_eq_some (by simp [FileRow.columns])).2 ⟨hrow, hpath⟩
  have hfind : find E db relative true = .ok (some f) := by
    unfold find
    rw [if_pos rfl, hby]
    simp only [bind_ok, pure_ok]
    exact ⟨f, hf, rfl⟩
  simp only [registered, bind_ok]
  exact ⟨some f, hfind, rfl⟩

/-- The registration of a file that is as the catalog has it brings what it has. So the proposal is
the metadata of the row itself, whether it was given, read of the companion or left to the row. -/
theorem Undisturbed.refreshed {row : FileRow} {f : CatalogFile} {relative : Bytes}
    {explicit : Option FileMetadata} {p : Proposal} (hdb : db.References)
    (hf : entry E db row = .ok f)
    (hexplicit : ∀ m ∈ explicit, normalizeMetadata E m = .ok f.metadata)
    (hcompanion : explicit = none → ∀ j, sidecar E fs relative = .ok (some j) →
      j.fileKey = row.key → row.revision ≤ j.revision → j.metadata = f.metadata)
    (h : Catalog.refreshed E fs db relative f explicit = .ok p) : p.metadata = f.metadata := by
  have hfields : f.key = row.key ∧ f.revision = row.revision := by
    obtain ⟨_, _, -, -, rfl⟩ := entry_ok hf
    exact ⟨rfl, rfl⟩
  unfold Catalog.refreshed at h
  split at h
  · next m =>
      simp only [bind_ok, pure_ok] at h
      obtain ⟨m', hm', rfl⟩ := h
      exact Except.ok.inj (hm'.symm.trans (hexplicit m rfl))
  · rw [bind_ok] at h
    obtain ⟨found, hfound, h⟩ := h
    split at h
    · rw [pure_ok] at h
      subst h
      rfl
    · next j =>
        split at h
        · next hown =>
            simp only [bind_ok, pure_ok, Prod.exists] at h
            obtain ⟨m, d, hrestore, rfl⟩ := h
            have hsame := hcompanion rfl j hfound (hown.1.trans hfields.1) (hfields.2 ▸ hown.2)
            refine (restoreCollections_same (sidecar_valid hfound) ?_ hrestore).trans hsame
            rw [hsame]
            exact entry_known hdb hf
        · rw [pure_ok] at h
          subst h
          rfl

/-- A registration of a file that is as its row says changes nothing, and returns the entry of the
row. -/
theorem Undisturbed.registration {r : FileRegistration} {draws : KeyDraws} {file : CatalogFile}
    {mutated : Bool} (hdb : db.References) (hr : Undisturbed E fs db r)
    (h : registration E fs db r draws = .ok (file, mutated, db')) :
    mutated = false ∧ db' = db ∧ ∃ row ∈ db.files, row.path = r.path
      ∧ entry E db row = .ok file := by
  obtain ⟨physical, content, -, hnode, hregisters⟩ := registration_ok h
  obtain ⟨row, hrow, f, physical', hpath, hf, hphysical, hstamp, hexplicit, hcompanion⟩ := hr
  have hsame : physical' = physical := by
    obtain ⟨content', hnode'⟩ := inspect_ok.1 hphysical
    rw [hnode, Option.some.injEq, Node.file.injEq] at hnode'
    exact hnode'.1.symm
  have hfound : registered E fs db r.path physical = .ok (some f) := registered_path hrow hpath hf
  have hfields : f.path = row.path ∧ f.contentVersion = row.stamp := by
    obtain ⟨_, _, -, -, rfl⟩ := entry_ok hf
    exact ⟨rfl, rfl⟩
  have hregisters' := hregisters
  cases hregisters with
  | unchanged hf' =>
      obtain rfl := Option.some.inj (Except.ok.inj (hf'.symm.trans hfound))
      exact ⟨rfl, hregisters'.unmutated hdb rfl, row, hrow, hpath, hf⟩
  | refreshed hf' hp hchanged =>
      obtain rfl := Option.some.inj (Except.ok.inj (hf'.symm.trans hfound))
      refine absurd ⟨hfields.1.trans hpath, ?_, ?_⟩ hchanged
      · rw [hfields.2, hstamp, hsame]
      · exact (Undisturbed.refreshed hdb hf hexplicit hcompanion hp).symm
  | added hf' =>
      rw [hfound] at hf'
      cases hf'

/-- **Registering files again that are as the catalog has them changes nothing.** Each entry is
unmutated, so the batch does not count itself and its transaction leaves the tables; a batch that
throws leaves them anyway. -/
theorem registerFiles_undisturbed {c : Catalog} {input : List FileRegistration}
    {draws : Nat → KeyDraws} (hdb : c.tables.References)
    (hinput : ∀ r ∈ input, Undisturbed E c.fs c.tables r) :
    (registerFiles E c input draws).2 = c := by
  cases hcall : registerFiles E c input draws with
  | mk result c' =>
      cases result with
      | error e =>
          unfold registerFiles at hcall
          split at hcall
          · cases hcall
            rfl
          · cases hcall
      | ok files =>
          obtain ⟨-, hfs, hbatch⟩ := registerFiles_ok hcall
          obtain ⟨batch, hfold, -, hend⟩ := registerBatch_ok hbatch
          have hsame : batch.tables = c.tables ∧ batch.mutated = false := by
            refine foldlM_preserves_mem (motive := fun b : Batch =>
              b.tables = c.tables ∧ b.mutated = false) ?_ ⟨rfl, rfl⟩ hfold
            rintro e he b b' ⟨htables, hmutated⟩ hstep
            obtain ⟨file, mutated, hregistration, -, hflag⟩ := registerEntry_ok hstep
            rw [htables] at hregistration
            obtain ⟨hnot, hunchanged, -⟩ :=
              (hinput e.1 (mem_drawn he)).registration hdb hregistration
            exact ⟨hunchanged, by rw [hflag, hmutated, hnot]; rfl⟩
          obtain ⟨fs, db⟩ := c'
          obtain rfl : fs = c.fs := hfs
          rcases hend with ⟨hmutated, -⟩ | ⟨-, hdb'⟩
          · rw [hsame.2] at hmutated
            cases hmutated
          · have hdb' : db = batch.tables := hdb'
            rw [hdb', hsame.1]

/-- A file that is not pending is not published again. -/
theorem publish_idle {c : Catalog} {row : FileRow} (hdb : Sound E c.tables)
    (hrow : row ∈ c.tables.files) (hidle : ¬ c.tables.Pending row.id) (w : NativeWrite Physical) :
    (publish E c row.key w).2 = c := by
  unfold publish
  split
  · rfl
  · rfl
  · next f text h =>
      exfalso
      simp only [publication, bind_ok] at h
      obtain ⟨_, -, f', hf', h⟩ := h
      obtain ⟨own, hown, hkey, hentry⟩ := require_row hf' (hdb.files row hrow)
      obtain rfl : own = row :=
        UniqueTable.eq_of_column_eq (c := FileRow.key) (by simp [FileRow.columns]) hown hrow hkey
      obtain ⟨_, _, -, -, rfl⟩ := entry_ok hentry
      unfold CatalogTables.Pending at hidle
      rw [if_pos (by simpa using hidle), pure_ok] at h
      cases h

/-- The registration of one file that is as the catalog has it, and whose companion is published. -/
theorem registerFile_undisturbed {c : Catalog} {relative : Bytes} {metadata : Option FileMetadata}
    {draws : KeyDraws} {w : NativeWrite Physical} (hsound : Sound E c.tables)
    (hdb : c.tables.References) (hr : Undisturbed E c.fs c.tables ⟨relative, metadata⟩)
    (hidle : ∀ row ∈ c.tables.files, row.path = relative → ¬ c.tables.Pending row.id) :
    (registerFile E c relative metadata none draws w).2 = c := by
  have hprepare : prepare E c relative none = c := by
    unfold prepare
    split
    · next h => cases h
    · rfl
  have hsame : (registerFiles E c [⟨relative, metadata⟩] fun _ => draws).2 = c :=
    registerFiles_undisturbed hdb fun r hr' => by
      rw [List.mem_singleton.1 hr']
      exact hr
  unfold registerFile
  rw [hprepare]
  split
  · rfl
  · split
    · next file rest c' hcall =>
        rw [hcall] at hsame
        have hsame : c' = c := hsame
        subst hsame
        obtain ⟨-, -, hbatch⟩ := registerFiles_ok hcall
        obtain ⟨batch, hfold, hfiles, -⟩ := registerBatch_ok hbatch
        obtain ⟨mid, hmid, hrest⟩ := foldlM_cons_ok.1 hfold
        have hrest : mid = batch := pure_ok.1 hrest
        obtain ⟨file', mutated, hregistration, hmore, -⟩ := registerEntry_ok hmid
        obtain ⟨-, -, row, hrow, hpath, hentry⟩ := hr.registration hdb hregistration
        have hfile : file = file' := by
          rw [← hrest, hmore] at hfiles
          exact (List.cons.inj hfiles).1
        have hkey : file.key = row.key := by
          obtain ⟨_, _, -, -, rfl⟩ := entry_ok hentry
          rw [hfile]
        show (publish E c' file.key w).2 = c'
        rw [hkey]
        exact publish_idle hsound hrow (hidle row hrow hpath) w
    · next hcall =>
        rw [hcall] at hsame
        exact hsame
    · next hcall =>
        rw [hcall] at hsame
        exact hsame

/-! ## Edits at a revision -/

/-- The entry of a row is found under its key. -/
theorem require_of_row {key : Bytes} {row : FileRow} {f : CatalogFile} (hrow : row ∈ db.files)
    (hkey : normalized E key 128 false true = .ok row.key) (hf : entry E db row = .ok f) :
    require E db key = .ok f := by
  have hby : db.files.findBy FileRow.key row.key = some row :=
    (UniqueTable.findBy_eq_some (by simp [FileRow.columns])).2 ⟨hrow, rfl⟩
  have hfind : find E db row.key false = .ok (some f) := by
    unfold find
    rw [if_neg (by simp), hby]
    simp only [bind_ok, pure_ok]
    exact ⟨f, hf, rfl⟩
  simp only [require, bind_ok, orFail_ok]
  exact ⟨row.key, hkey, some f, hfind, rfl⟩

/-- **An edit at an observed revision finds nothing changed.** The revision is compared in the
transaction of the edit, and a file that has kept its revision has kept all that its readers see. -/
theorem update_observed {c mid c' : Catalog} {row : FileRow} {key : Bytes}
    {metadata : FileMetadata} {events more : List Event} (hdb : c.tables.References)
    (hrow : row ∈ c.tables.files) (hkey : normalized E key 128 false true = .ok row.key)
    (hrun : Run (Step E) c events mid) (hrun' : Run (Step E) mid more c')
    (h : update E c'.fs c'.tables key row.revision metadata = .ok db) :
    Kept c.tables mid.tables row ∧ Kept mid.tables c'.tables row := by
  obtain ⟨last, hlast, -, hlastKey, hlastRevision, -⟩ := update_row h
  have hkey' : last.key = row.key := Except.ok.inj (hlastKey.symm.trans hkey)
  obtain ⟨hmid, hfirst⟩ := run_moves hrun hdb
  obtain ⟨-, hsecond⟩ := run_moves hrun' hmid
  obtain ⟨row', hrow', hmidKey, hle⟩ := hfirst.revision_le hrow
  obtain ⟨row'', hrow'', hlastKey', hle'⟩ := hsecond.revision_le hrow'
  obtain rfl : row'' = last := UniqueTable.eq_of_column_eq (c := FileRow.key)
    (by simp [FileRow.columns]) hrow'' hlast (hlastKey'.trans (hmidKey.trans hkey'.symm))
  have hkept : Kept c.tables mid.tables row :=
    hfirst.kept hrow hrow' hmidKey (hle'.trans hlastRevision.le)
  obtain ⟨hmem, -⟩ := UniqueTable.find_eq_some.1 hkept.found
  exact ⟨hkept, hsecond.kept hmem hrow'' hkey' hlastRevision.le⟩

/-- **Of two edits at one revision one at most commits.** The first one raises the revision of the
row, and no step lowers it, so the other finds a higher one than it expects. -/
theorem update_exclusive {c c' : Catalog} {key key' : Bytes} {expected : Nat}
    {metadata metadata' : FileMetadata} {events : List Event} (hdb : c.tables.References)
    (hkeys : normalized E key' 128 false true = normalized E key 128 false true)
    (h : update E c.fs c.tables key expected metadata = .ok db)
    (hrun : Run (Step E) ⟨c.fs, db⟩ events c') :
    update E c'.fs c'.tables key' expected metadata' ≠ .ok db' := by
  intro h'
  obtain ⟨row, hrow, text, hkey, hrevision, hnew⟩ := update_row h
  obtain ⟨last, hlast, -, hlastKey, hlastRevision, -⟩ := update_row h'
  obtain ⟨hdb', -⟩ := Moves.update h hdb
  obtain ⟨-, hadvances⟩ := run_moves hrun hdb'
  obtain ⟨row', hrow', hkey', hle⟩ := hadvances.revision_le (UniqueTable.find_eq_some.1 hnew).1
  have hsame : last.key = row.key :=
    Except.ok.inj (hlastKey.symm.trans (hkeys.trans hkey))
  obtain rfl : row' = last := UniqueTable.eq_of_column_eq (c := FileRow.key)
    (by simp [FileRow.columns]) hrow' hlast (hkey'.trans hsame.symm)
  have hraised : row.revision + 1 ≤ row'.revision := hle
  omega

/-- Runs keep a catalog readable. -/
theorem run_readable {c c' : Catalog} {events : List Event} (hc : Readable E c.tables)
    (h : Run (Step E) c events c') : Readable E c'.tables :=
  h.invariant (I := fun c => Readable E c.tables)
    (fun hs hstep => ⟨hs.1.step hstep, .step hs hstep⟩) hc

/-- A file that was edited can be read, whatever follows. -/
theorem update_completed {c c' : Catalog} {key : Bytes} {expected : Nat}
    {input metadata : FileMetadata} {events : List Event} (hc : Readable E c.tables)
    (hdb : c.tables.References) (hinput : normalizeMetadata E input = .ok metadata)
    (h : update E c.fs c.tables key expected metadata = .ok db)
    (hrun : Run (Step E) ⟨c.fs, db⟩ events c') : ∃ f, require E c'.tables key = .ok f := by
  obtain ⟨row, -, text, hkey, -, hnew⟩ := update_row h
  obtain ⟨hdb', -⟩ := Moves.update h hdb
  have hstep : Step E ⟨c.fs, c.tables⟩ (.update key metadata) ⟨c.fs, db⟩ := .update hinput h
  have hread := run_readable (run_readable hc (.cons hstep (.nil _))) hrun
  obtain ⟨-, hadvances⟩ := run_moves hrun hdb'
  obtain ⟨row', hrow', hkey', -⟩ := hadvances.revision_le (UniqueTable.find_eq_some.1 hnew).1
  obtain ⟨f, hf⟩ := (hread.2 row' hrow').entry c'.tables
  have hkey'' : row'.key = row.key := hkey'
  exact ⟨f, require_of_row hrow' (hkey'' ▸ hkey) hf⟩

/-- A call of `updateMetadata` answers exactly where its transaction commits, and otherwise leaves
the catalog as it was. -/
theorem updateMetadata_cases {c : Catalog} {key : Bytes} {expected : Nat} {input : FileMetadata}
    {w : NativeWrite Physical} (hc : Readable E c.tables) (hdb : c.tables.References) :
    (∃ e, updateMetadata E c key expected input w = (.error e, c)) ∨
      ∃ result metadata db c', updateMetadata E c key expected input w = (.ok result, c') ∧
        normalizeMetadata E input = .ok metadata ∧
        update E c.fs c.tables key expected metadata = .ok db := by
  unfold updateMetadata
  split
  · next e h => exact .inl ⟨e, rfl⟩
  · next db h =>
      simp only [bind_ok] at h
      obtain ⟨metadata, hmetadata, _, -, hupdate⟩ := h
      obtain ⟨events, hrun, -⟩ := publish_leads (E := E) { c with tables := db } key w
      obtain ⟨f, hf⟩ := update_completed hc hdb hmetadata hupdate hrun
      cases hpublish : publish E { c with tables := db } key w with
      | mk result c' =>
          rw [hpublish] at hf
          refine .inr ⟨⟨f, !f.metadataPending, errorOf result⟩, metadata, db, c', ?_, hmetadata,
            hupdate⟩
          unfold publishResult
          rw [hpublish]
          dsimp only
          rw [hf]
          rfl

/-- What the revisions of files are good for, from a catalog on. -/
structure RevisionDiscipline (E : CatalogLibraries) (c : Catalog) : Prop where
  range : ∀ row ∈ c.tables.files, 0 < row.revision ∧ row.revision ≤ int64Max
  advances : ∀ e c', Step E c e c' → Advances c.tables c'.tables
  unchanged : ∀ input draws, (∀ r ∈ input, Undisturbed E c.fs c.tables r) →
    (registerFiles E c input draws).2 = c
  unchangedFile : ∀ relative metadata draws w, Undisturbed E c.fs c.tables ⟨relative, metadata⟩ →
    (∀ row ∈ c.tables.files, row.path = relative → ¬ c.tables.Pending row.id) →
    (registerFile E c relative metadata none draws w).2 = c
  observed : ∀ row ∈ c.tables.files, ∀ key, normalized E key 128 false true = .ok row.key →
    ∀ events mid more c', Run (Step E) c events mid → Run (Step E) mid more c' →
    ∀ metadata db, update E c'.fs c'.tables key row.revision metadata = .ok db →
    Kept c.tables mid.tables row ∧ Kept mid.tables c'.tables row
  exclusive : ∀ key expected metadata db, update E c.fs c.tables key expected metadata = .ok db →
    ∀ events c', Run (Step E) ⟨c.fs, db⟩ events c' →
    ∀ key', normalized E key' 128 false true = normalized E key 128 false true →
    ∀ metadata' db', update E c'.fs c'.tables key' expected metadata' ≠ .ok db'
  calls : ∀ key expected input w,
    (∃ e, updateMetadata E c key expected input w = (.error e, c)) ∨
      ∃ result metadata db c', updateMetadata E c key expected input w = (.ok result, c') ∧
        normalizeMetadata E input = .ok metadata ∧
        update E c.fs c.tables key expected metadata = .ok db
  completed : ∀ key expected input metadata db, normalizeMetadata E input = .ok metadata →
    update E c.fs c.tables key expected metadata = .ok db →
    ∀ events c', Run (Step E) ⟨c.fs, db⟩ events c' → ∃ f, require E c'.tables key = .ok f

/-- **Revisions tell of every change.** Whatever others do with the files, every committed step
gives a higher revision, within 64 bits, to each file it changes; files that are as the catalog has
them are registered again without a change; an edit at an observed revision commits only where
nothing of the file has changed since, and a call that throws leaves the catalog as it was. -/
theorem revisions_disciplined {allowed : FileSystem → FileSystem → Prop} {c : Catalog}
    (hc : Reached E allowed c) : RevisionDiscipline E c := by
  have hread := Readable.reached hc
  have hdb := References.reached hc
  exact {
    range := fun row hrow => ⟨(hread.2 row hrow).positive, (hread.2 row hrow).bounded⟩
    advances := fun e c' hstep => (hstep.moves hdb).2
    unchanged := fun input draws hinput => registerFiles_undisturbed hdb hinput
    unchangedFile := fun relative metadata draws w hr hidle =>
      registerFile_undisturbed hread.1 hdb hr hidle
    observed := fun row hrow key hkey events mid more c' hrun hrun' metadata db h =>
      update_observed hdb hrow hkey hrun hrun' h
    exclusive := fun key expected metadata db h events c' hrun key' hkeys metadata' db' =>
      update_exclusive hdb hkeys h hrun
    calls := fun key expected input w => updateMetadata_cases hread hdb
    completed := fun key expected input metadata db hinput h events c' hrun =>
      update_completed hread hdb hinput h hrun }

/-- The published sample has one file, of revision 1, and keeps the discipline. -/
theorem revisions_disciplined_sample :
    (published.tables.files.rows.map (·.revision)) = [1]
      ∧ RevisionDiscipline .reference published :=
  ⟨by decide +kernel, revisions_disciplined
    (reached_published : Reached .reference (fun _ _ => True) published)⟩

end Catalog

end FileProvider
