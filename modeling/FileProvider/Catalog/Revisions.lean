import FileProvider.Catalog.Batches

/-!
# Revisions of files

`Advances` says what a transaction may do to the files that are there: each keeps its row, its
memberships and their collections, or has a higher revision afterwards. Every step advances, so a
revision that is still the one that was observed says that nothing of the file changed since.

The transactions are those of `Frame`, each with a lemma about one of them, and the runs are those
of a reachable catalog with the writes of others between. A caller that compares revisions thus sees
every change, and nothing has to be known of what the change was.
-/

namespace FileProvider

open Bytes Fallible

namespace Catalog

variable {E : CatalogLibraries} {fs : FileSystem} {db db' : CatalogTables}

/-! ## Advancing tables -/

/-- A file is as it was: its row, its memberships, and the collections it is in. -/
structure Kept (db db' : CatalogTables) (row : FileRow) : Prop where
  found : db'.files.find row.id = some row
  memberships : db'.memberships row.id = db.memberships row.id
  collections : ∀ key ∈ db.memberships row.id, db'.collections.find key = db.collections.find key

/-- Every file is as it was, or has a higher revision. -/
def Advances (db db' : CatalogTables) : Prop :=
  ∀ row ∈ db.files, ∃ row', db'.files.find row.id = some row' ∧ row'.key = row.key ∧
    (row.revision < row'.revision ∨ Kept db db' row)

/-- A row is kept where nothing happens. -/
theorem Kept.refl {row : FileRow} (hrow : row ∈ db.files) : Kept db db row :=
  ⟨UniqueTable.mem_iff_find.1 hrow, rfl, fun _ _ => rfl⟩

/-- Being kept is transitive: revisions only go up. -/
theorem Kept.trans {db'' : CatalogTables} {row : FileRow} (h : Kept db db' row)
    (h' : Kept db' db'' row) : Kept db db'' row where
  found := h'.found
  memberships := h'.memberships.trans h.memberships
  collections key hkey :=
    (h'.collections key (h.memberships ▸ hkey)).trans (h.collections key hkey)

namespace Advances

/-- Tables advance to themselves. -/
theorem refl (db : CatalogTables) : Advances db db :=
  fun row hrow => ⟨row, UniqueTable.mem_iff_find.1 hrow, rfl, .inr (.refl hrow)⟩

/-- Advancing is transitive. -/
theorem trans {db'' : CatalogTables} (h : Advances db db') (h' : Advances db' db'') :
    Advances db db'' := by
  intro row hrow
  obtain ⟨row', hrow', hkey, hway⟩ := h row hrow
  obtain ⟨hmem, hid⟩ := UniqueTable.find_eq_some.1 hrow'
  obtain ⟨row'', hrow'', hkey', hway'⟩ := h' row' hmem
  refine ⟨row'', hid ▸ hrow'', hkey'.trans hkey, ?_⟩
  rcases hway with hlt | hkept
  · left
    rcases hway' with hlt' | hkept'
    · exact hlt.trans hlt'
    · obtain rfl : row'' = row' := Option.some.inj (hrow''.symm.trans hkept'.found)
      exact hlt
  · obtain rfl : row' = row := Option.some.inj (hrow'.symm.trans hkept.found)
    exact hway'.imp id hkept.trans

/-- What leaves all files but some, and gives those a higher revision, advances. -/
theorem of_leaves {ids : Nat → Prop} (hdb : db.References) (h : db.Leaves ids db')
    (hids : ∀ row ∈ db.files, ids row.id → ∃ row', db'.files.find row.id = some row' ∧
      row'.key = row.key ∧ row.revision < row'.revision) : Advances db db' := by
  intro row hrow
  by_cases hid : ids row.id
  · obtain ⟨row', hrow', hkey, hlt⟩ := hids row hrow hid
    exact ⟨row', hrow', hkey, .inl hlt⟩
  · have hfind := (h.files row.id hid).trans (UniqueTable.mem_iff_find.1 hrow)
    refine ⟨row, hfind, rfl, .inr ⟨hfind, h.memberships row.id hid, fun key hkey => ?_⟩⟩
    obtain ⟨c, hc⟩ := Option.ne_none_iff_exists'.1
      (hdb ⟨row.id, key⟩ (CatalogTables.mem_memberships.1 hkey))
    have hc : db.collections.find key = some c := hc
    rw [hc, h.collections key c hc]

/-- A change that leaves all files is an advance. -/
theorem of_leaves_all (hdb : db.References) (h : db.Leaves (fun _ => False) db') :
    Advances db db' :=
  of_leaves hdb h fun _ _ hfalse => hfalse.elim

/-- Raising the catalog's revision is an advance. -/
theorem bump (hdb : db.References) (h : db.bump = .ok db') : Advances db db' :=
  of_leaves_all hdb (.bump h)

/-- A revision that is still the same says that the file is as it was. -/
theorem kept (h : Advances db db') {row row' : FileRow} (hrow : row ∈ db.files)
    (hrow' : row' ∈ db'.files) (hkey : row'.key = row.key)
    (hrevision : row'.revision ≤ row.revision) :
    Kept db db' row := by
  obtain ⟨other, hother, hotherKey, hway⟩ := h row hrow
  obtain rfl : other = row' := UniqueTable.eq_of_column_eq (c := FileRow.key)
    (by simp [FileRow.columns]) (UniqueTable.find_eq_some.1 hother).1 hrow'
    (hotherKey.trans hkey.symm)
  rcases hway with hlt | hkept
  · exact absurd hlt (Nat.not_lt.2 hrevision)
  · exact hkept

/-- Revisions do not fall. -/
theorem revision_le (h : Advances db db') {row : FileRow} (hrow : row ∈ db.files) :
    ∃ row' ∈ db'.files, row'.key = row.key ∧ row.revision ≤ row'.revision := by
  obtain ⟨row', hrow', hkey, hway⟩ := h row hrow
  refine ⟨row', (UniqueTable.find_eq_some.1 hrow').1, hkey, ?_⟩
  rcases hway with hlt | hkept
  · exact hlt.le
  · obtain rfl : row' = row := Option.some.inj (hrow'.symm.trans hkept.found)
    exact le_rfl

end Advances

/-! ## Each transaction -/

/-- A registration gives the next revision to the file it writes anew. A row that is not that of the
file keeps its revision, and so does one that is found unchanged. -/
theorem Registers.advances {r : FileRegistration} {draws : KeyDraws} {physical : Physical}
    {file : CatalogFile} {mutated : Bool} (hdb : db.References)
    (h : Registers E fs db r draws physical file mutated db') : Advances db db' := by
  cases h with
  | unchanged _ hp => exact .of_leaves_all hdb (refreshed_ok hp).1.leaves
  | @refreshed f _ p mid _ hf hp _ hmid hdescribed =>
      obtain ⟨hrestores, -, hrevision⟩ := refreshed_ok hp
      obtain ⟨own, hown, hentry, -⟩ := registered_ok hf
      obtain ⟨_, _, -, -, rfl⟩ := entry_ok hentry
      have hleaves := (hrestores.leaves.trans (.updateFile hmid)).trans hdescribed.leaves
      refine .of_leaves hdb hleaves fun row hrow hid => ?_
      obtain rfl : row = own := Table.eq_of_key_eq hrow hown hid
      have hfind : p.tables.files.find row.id = some row := by
        rw [hrestores.rows.1]
        exact UniqueTable.mem_iff_find.1 hrow
      obtain ⟨text, -, hnew⟩ := hdescribed.refreshed_row hmid hfind
      refine ⟨_, hnew, rfl, ?_⟩
      show row.revision < p.revision
      rw [hrevision]
      exact Nat.lt_succ_self _
  | @added _ p id mid _ _ hp hmid hdescribed =>
      obtain ⟨hrestores, -⟩ := adopted_ok hp
      have hleaves := (hrestores.leaves.trans (.insertFile hmid)).trans hdescribed.leaves
      refine .of_leaves hdb hleaves fun row hrow hid => ?_
      obtain ⟨files, hfiles, -⟩ := CatalogTables.insertFile_ok hmid
      have hfree := (UniqueTable.find_insert hfiles).1
      rw [hrestores.rows.1] at hfree
      have hfind := UniqueTable.mem_iff_find.1 hrow
      rw [hid] at hfind
      rw [show db.files.find id = none from hfree] at hfind
      cases hfind

/-- A registration is an advance: the file it is about is raised, and the others stay. -/
theorem registration_advances {r : FileRegistration} {draws : KeyDraws} {file : CatalogFile}
    {mutated : Bool} (hdb : db.References)
    (h : registration E fs db r draws = .ok (file, mutated, db')) : Advances db db' := by
  obtain ⟨physical, content, -, -, hregisters⟩ := registration_ok h
  exact hregisters.advances hdb

/-- Tables that advance, and still have the collections of their memberships. -/
def Moves (db db' : CatalogTables) : Prop :=
  db.References → db'.References ∧ Advances db db'

namespace Moves

/-- Tables move to themselves. -/
theorem refl (db : CatalogTables) : Moves db db := fun hdb => ⟨hdb, .refl db⟩

/-- Moving is transitive. -/
theorem trans {db'' : CatalogTables} (h : Moves db db') (h' : Moves db' db'') :
    Moves db db'' := by
  intro hdb
  obtain ⟨hdb', hadvances⟩ := h hdb
  obtain ⟨hdb'', hadvances'⟩ := h' hdb'
  exact ⟨hdb'', hadvances.trans hadvances'⟩

/-- A commit that advances moves the tables, and keeps their references. -/
theorem of_commits (h : Commits db db') (h' : db.References → Advances db db') : Moves db db' :=
  fun hdb => ⟨(h hdb).1, h' hdb⟩

/-- Raising the catalog's revision moves the tables. -/
theorem bump (h : db.bump = .ok db') : Moves db db' :=
  .of_commits (.bump h) fun hdb => .bump hdb h

/-- A registration moves the tables. -/
theorem registration {r : FileRegistration} {draws : KeyDraws} {file : CatalogFile}
    {mutated : Bool} (h : registration E fs db r draws = .ok (file, mutated, db')) :
    Moves db db' :=
  .of_commits (registration_commits h) fun hdb => registration_advances hdb h

/-- A batch of registrations moves the tables, by induction on its entries. -/
theorem registerBatch {entries : List FileRegistration} {draws : Nat → KeyDraws}
    {files : List CatalogFile} (h : registerBatch E fs db entries draws = .ok (files, db')) :
    Moves db db' := by
  obtain ⟨batch, hbatch, -, hend⟩ := registerBatch_ok h
  have hfold : Moves db batch.tables := by
    refine foldlM_relates (R := fun a b : Batch => Moves a.tables b.tables)
      (fun a => .refl a.tables) .trans ?_ _ hbatch
    intro a e b hab
    obtain ⟨file, mutated, hregistration, -, -⟩ := registerEntry_ok hab
    exact .registration hregistration
  rcases hend with ⟨-, hbump⟩ | ⟨-, rfl⟩
  · exact hfold.trans (.bump hbump)
  · exact hfold

/-- Inheriting a companion's collections moves the tables. -/
theorem inherit {inherited : Option Companion} {m metadata : FileMetadata}
    (h : inherit E db inherited m = .ok (metadata, db')) : Moves db db' := by
  refine .of_commits (inherit_commits h) fun hdb => ?_
  cases inherited with
  | none =>
      cases h
      exact .refl db
  | some j => exact .of_leaves_all hdb (restoreCollections_ok h).1.leaves

/-- The registration of a single file moves the tables. -/
theorem register {relative : Bytes} {metadata : FileMetadata} {draws : KeyDraws}
    {f : CatalogFile} (h : register E fs db relative metadata draws = .ok (f, db')) :
    Moves db db' := by
  simp only [Catalog.register, bind_ok, pure_ok, Prod.exists, Prod.mk.injEq] at h
  obtain ⟨file, mutated, d, hregistration, d', hbump, -, rfl⟩ := h
  exact (registration hregistration).trans (.bump hbump)

end Moves

/-- The rows whose revisions are raised. -/
theorem raiseRevisions_row {ids : List Nat} (h : db.raiseRevisions ids = .ok db') {row : FileRow}
    (hrow : row ∈ db.files) (hid : row.id ∈ ids) : db'.files.find row.id = some row.raise := by
  obtain ⟨files, hfiles, rfl⟩ := CatalogTables.raiseRevisions_ok h
  show files.find row.id = _
  rw [hfiles, UniqueTable.mem_iff_find.1 hrow, Option.map_some, if_pos hid]

/-- The row of an update, with its revision raised. -/
theorem update_row {key : Bytes} {expected : Nat} {metadata : FileMetadata}
    (h : update E fs db key expected metadata = .ok db') : ∃ row ∈ db.files, ∃ text,
      normalized E key 128 false true = .ok row.key ∧ row.revision = expected ∧
        db'.files.find row.id = some (row.raise.annotate metadata text) := by
  obtain ⟨file, physical, raised, text, mid, hfile, hrevision, -, -, -, hraised, hannotated, -,
    hbump⟩ := update_ok h
  obtain ⟨row, hrow, hkey, hentry⟩ := require_ok hfile
  obtain ⟨_, _, -, -, rfl⟩ := entry_ok hentry
  refine ⟨row, hrow, text, hkey, hrevision, ?_⟩
  rw [CatalogTables.bump_ok hbump]
  exact hannotated.row (raiseRevisions_row hraised hrow (List.mem_singleton_self _))

/-- An update of metadata moves the tables. -/
theorem Moves.update {key : Bytes} {expected : Nat} {metadata : FileMetadata}
    (h : update E fs db key expected metadata = .ok db') : Moves db db' := by
  refine .of_commits (update_commits h) fun hdb => ?_
  obtain ⟨row, hrow, text, -, -, hnew⟩ := update_row h
  obtain ⟨file, physical, raised, text', mid, hfile, -, -, -, -, hraised, hannotated, -, hbump⟩ :=
    update_ok h
  have hleaves : db.Leaves (· = file.index) raised :=
    (CatalogTables.Leaves.raiseRevisions hraised).mono fun i hi => List.mem_singleton.1 hi
  refine .of_leaves hdb ((hleaves.trans hannotated.leaves).trans (.bump hbump)) ?_
  intro other hother hid
  obtain ⟨own, hown, -, hentry⟩ := require_ok hfile
  obtain ⟨_, _, -, -, rfl⟩ := entry_ok hentry
  have hraise := hannotated.row (raiseRevisions_row hraised hown (List.mem_singleton_self _))
  obtain rfl : other = own := Table.eq_of_key_eq hother hown hid
  refine ⟨other.raise.annotate metadata text', ?_, rfl, Nat.lt_succ_self other.revision⟩
  rw [CatalogTables.bump_ok hbump]
  exact hraise

/-- A new collection moves the tables. -/
theorem Moves.addCollection {name : Bytes} {random : Fin 16 → UInt8}
    {collection : FileCollection} (h : addCollection E db name random = .ok (collection, db')) :
    Moves db db' := by
  refine .of_commits (addCollection_commits h) fun hdb => ?_
  simp only [Catalog.addCollection, bind_ok, pure_ok, Prod.mk.injEq] at h
  obtain ⟨_, -, folded, -, mid, hmid, bumped, hbump, -, rfl⟩ := h
  exact .of_leaves_all hdb ((CatalogTables.Leaves.insertCollection hmid).trans (.bump hbump))

/-- The members of a collection that is renamed or removed have their revisions raised. -/
theorem raises_row {key : Bytes} {mid : CatalogTables}
    (hraise : db.raiseRevisions (db.membersOf key) = .ok mid)
    (hqueue : mid.queue (mid.membersOf key) = .ok db') {row : FileRow} (hrow : row ∈ db.files)
    (hkey : key ∈ db.memberships row.id) : db'.files.find row.id = some row.raise := by
  rw [CatalogTables.queue_ok hqueue]
  exact raiseRevisions_row hraise hrow (mem_membersOf.2 hkey)

/-- A file that is no member of the collection has its row and its memberships. -/
theorem Raises.spares {key : Bytes} (h : Raises key db db') {row : FileRow} (hrow : row ∈ db.files)
    (hkey : key ∉ db.memberships row.id) : db'.files.find row.id = some row ∧
      db'.memberships row.id = db.memberships row.id := by
  have hno : row.id ∉ db.membersOf key := fun hid => hkey (mem_membersOf.1 hid)
  exact ⟨(h.leaves.files row.id hno).trans (UniqueTable.mem_iff_find.1 hrow),
    h.leaves.memberships row.id hno⟩

/-- Where every member of a collection has its revision raised, and every other file is as it was,
the tables advance. -/
theorem Advances.of_raised {k : Bytes}
    (hmembers : ∀ row ∈ db.files, k ∈ db.memberships row.id →
      db'.files.find row.id = some row.raise)
    (hothers : ∀ row ∈ db.files, k ∉ db.memberships row.id → Kept db db' row) :
    Advances db db' := by
  intro row hrow
  by_cases hkey : k ∈ db.memberships row.id
  · exact ⟨row.raise, hmembers row hrow hkey, rfl, .inl (Nat.lt_succ_self row.revision)⟩
  · have hkept := hothers row hrow hkey
    exact ⟨row, hkept.found, rfl, .inr hkept⟩

/-- Renaming a collection moves the tables: its members are raised. -/
theorem Moves.rename {key name : Bytes} (h : rename E db key name = .ok db') : Moves db db' := by
  refine .of_commits (rename_commits h) fun hdb => ?_
  simp only [Catalog.rename, bind_ok] at h
  obtain ⟨folded, -, renamed, hrenamed, raised, hraised, queued, hqueued, _, -, hbump⟩ := h
  have hraises := raises hraised hqueued
  simp only [CatalogTables.updateCollection, bind_ok, orFail_ok, pure_ok] at hrenamed
  obtain ⟨_, -, collections, hcollections, _, -, rfl⟩ := hrenamed
  have hfind := UniqueTable.find_modify hcollections
  rw [CatalogTables.bump_ok hbump]
  refine .of_raised (k := key) (fun row hrow hkey => raises_row hraised hqueued hrow hkey) ?_
  intro row hrow hkey
  obtain ⟨hfound, hmembers⟩ := hraises.spares hrow hkey
  refine ⟨hfound, hmembers, fun other hother => ?_⟩
  show queued.collections.find other = _
  rw [hraises.collections]
  refine (hfind other).trans (if_neg ?_)
  rintro rfl
  exact hkey hother

/-- Dissolving a collection moves the tables: its members are raised. The members are raised before
the collection is deleted, so no file loses a membership at its old revision. -/
theorem Moves.dissolve {key : Bytes} (h : dissolve db key = .ok db') : Moves db db' := by
  refine .of_commits (dissolve_commits h) fun hdb => ?_
  simp only [Catalog.dissolve, bind_ok] at h
  obtain ⟨raised, hraised, queued, hqueued, removed, hremoved, hbump⟩ := h
  have hraises := raises hraised hqueued
  simp only [CatalogTables.removeCollection, bind_ok, pure_ok] at hremoved
  obtain ⟨_, -, _, -, rfl⟩ := hremoved
  rw [CatalogTables.bump_ok hbump]
  refine .of_raised (k := key) (fun row hrow hkey => raises_row hraised hqueued hrow hkey) ?_
  intro row hrow hkey
  obtain ⟨hfound, hmembers⟩ := hraises.spares hrow hkey
  refine ⟨hfound, ?_, fun other hother => ?_⟩
  · refine Eq.trans (CatalogTables.memberships_congr ?_) hmembers
    show (queued.members.rows.filter _).filter _ = _
    rw [List.filter_filter]
    refine List.filter_congr fun m hm => ?_
    by_cases hid : m.fileId = row.id
    · have hne : m.collectionKey ≠ key := by
        rintro rfl
        refine hkey (CatalogTables.mem_memberships.2 ?_)
        rw [← hid, ← hraises.members]
        exact hm
      simp [hid, hne]
    · simp [hid]
  · show (queued.collections.erase key).find other = _
    rw [UniqueTable.find_erase, if_neg ?_, hraises.collections]
    rintro rfl
    exact hkey hother

/-- Storing filters moves the tables. -/
theorem Moves.stores (h : Stores db db') : Moves db db' := by
  refine .of_commits h.commits fun hdb => ?_
  obtain ⟨savedFilters, rfl⟩ := h
  exact fun row hrow => ⟨row, UniqueTable.mem_iff_find.1 hrow, rfl, .inr ⟨
    UniqueTable.mem_iff_find.1 hrow, rfl, fun _ _ => rfl⟩⟩

/-! ## Runs -/

/-- **Every step advances.** The cases are the transactions of a catalog; what others do with the
files is no change of the tables. -/
theorem Step.moves {c c' : Catalog} {e : Event} (h : Step E c e c') : Moves c.tables c'.tables := by
  cases h with
  | register h => exact .registerBatch h
  | create _ hprepared hregister =>
      obtain ⟨-, -, -, hinherit⟩ := prepared_ok hprepared
      exact (Moves.inherit hinherit).trans (.register hregister)
  | update _ h => exact .update h
  | createCollection _ h => exact .addCollection h
  | renameCollection _ h => exact .rename h
  | removeCollection h => exact .dissolve h
  | saveFilter h => exact .stores (storeFilter_ok h)
  | removeFilter h => exact .stores (dropFilter_ok h)
  | @publish _ _ _ f =>
      refine fun hdb => ⟨hdb, fun row hrow => ⟨row, ?_, rfl, .inr ⟨?_, rfl, fun _ _ => rfl⟩⟩⟩
      · exact UniqueTable.mem_iff_find.1 hrow
      · exact UniqueTable.mem_iff_find.1 hrow
  | interrupted => exact .refl _
  | unindexed => exact .refl _
  | directory => exact .refl _
  | staged => exact .refl _
  | present =>
      rw [prepare_tables]
      exact .refl _
  | outside => exact .refl _

/-- Every run of a catalog moves its tables. -/
theorem run_moves {c c' : Catalog} {events : List Event} (h : Run (Step E) c events c') :
    Moves c.tables c'.tables :=
  h.relates (I := fun _ => True) (R := fun a b => Moves a.tables b.tables) (fun a => .refl a.tables)
    Moves.trans (fun _ _ => trivial) (fun _ hstep => Step.moves hstep) trivial

/-- The references between the tables hold in every catalog that is reached. -/
theorem References.reached {allowed : FileSystem → FileSystem → Prop} {c : Catalog}
    (h : Reached E allowed c) : c.tables.References := by
  refine h.invariant (I := fun c => c.tables.References) (fun id fs m hm => ?_) ?_
  · cases hm
  · intro c e c' hc hstep _
    exact (hstep.moves hc).1

end Catalog

end FileProvider
