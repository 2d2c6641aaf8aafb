import FileProvider.Catalog.Rebuild
import FileProvider.Catalog.Batches

/-!
# A catalog that is lost and made anew

Portable metadata survives loss of the acceleration index (`tests/file_catalog.cpp`): a catalog
whose database is lost is made anew by registering its files in an empty one, in any order and in
any batches within the limits. Where every file has its companion and no two of them have one native
identity, each file gets its key, its revision, its classification and its document back, and so
does each collection that has files.

The order of the batches does not matter because each entry of a batch is registered by a lemma
about one file beside rows of other files, and what is read of a companion does not depend on the
rows. The limits on batches are conditions on their sizes, which the batches of any program have to
meet as well.
-/

namespace FileProvider

open Bytes Fallible

namespace Catalog

variable {E : CatalogLibraries} {fs : FileSystem} {old db db' : CatalogTables}
  {taken : List FileRow} {s : FileRow}

/-! ## Batches -/

/-- The text of the classification of a file. -/
def metadataText (E : CatalogLibraries) (db : CatalogTables) (r : FileRow) : Fallible Bytes := do
  let f ← entry E db r
  E.json.dump (metadataJson f.metadata)

/-- Its size, as a batch counts it. -/
def metadataSize (E : CatalogLibraries) (db : CatalogTables) (r : FileRow) : Nat :=
  (metadataText E db r).toOption.elim 0 List.length

/-- A documented file adds its metadata to the size of the batch. -/
theorem Documented.batchSize {f : CatalogFile} {text : Bytes} (h : Documented E old s f text)
    {bytes : Nat} (hfits : bytes + metadataSize E old s ≤ maximumBatchMetadata) :
    batchSize E bytes f.metadata = .ok (bytes + metadataSize E old s) := by
  obtain ⟨t, ht, -⟩ := h.metadata_dumped
  have hsize : metadataSize E old s = t.length := by
    have htext : metadataText E old s = .ok t := by
      unfold metadataText
      rw [bind_ok]
      exact ⟨f, h.entry, ht⟩
    unfold metadataSize
    rw [htext]
    rfl
  rw [hsize] at hfits ⊢
  have hlimit : failIf (maximumBatchMetadata < bytes + t.length)
      "registration metadata exceeds batch limit" = .ok () := failIf_ok.2 (not_lt.2 hfits)
  unfold Catalog.batchSize
  rw [ht, bind_ok]
  refine ⟨t, rfl, ?_⟩
  rw [bind_ok]
  exact ⟨(), hlimit, pure_ok.2 rfl⟩

/-- Tables whose files a new catalog finds, each with its companion. -/
structure Recoverable (E : CatalogLibraries) (fs : FileSystem) (old : CatalogTables) : Prop where
  files : ∀ s ∈ old.files, ∃ f text physical, Restorable E fs old s f text physical
  apart : ∀ s ∈ old.files, ∀ t ∈ old.files, ∀ p q, inspect fs s.path = .ok p →
    inspect fs t.path = .ok q → p.identity = q.identity → s = t
  collections : old.collections.rows.length ≤ 4096
  count : old.files.rows.length ≤ int64Max

/-- A file that is not among those taken remains. -/
theorem Recoverable.remaining (h : Recoverable E fs old) {rest : List FileRow}
    {physical : Physical} (hsub : ∀ t ∈ taken ++ s :: rest, t ∈ old.files)
    (hnodup : (taken ++ s :: rest).Nodup) (hphysical : inspect fs s.path = .ok physical) :
    Remaining fs old taken s physical := by
  have hs : s ∈ taken ++ s :: rest := List.mem_append_right _ List.mem_cons_self
  have hfresh : s ∉ taken := fun hmem =>
    List.disjoint_of_nodup_append hnodup hmem List.mem_cons_self
  refine ⟨fun t ht => hsub t (List.mem_append_left _ ht), hfresh, fun t ht q hq heq => ?_, ?_⟩
  · have hsame := h.apart t (hsub t (List.mem_append_left _ ht)) s (hsub s hs) q physical hq
      hphysical heq
    exact hfresh (hsame ▸ ht)
  · have hle := (List.subperm_of_subset hnodup hsub).length_le
    have hcount := h.count
    rw [List.length_append, List.length_cons] at hle
    omega

/-- One entry of a batch. -/
theorem Recoverable.registerEntry (h : Recoverable E fs old) {rest : List FileRow} {b : Batch}
    (hsub : ∀ t ∈ taken ++ s :: rest, t ∈ old.files) (hnodup : (taken ++ s :: rest).Nodup)
    (hb : Rebuilt fs old taken b.tables)
    (hfits : b.bytes + metadataSize E old s ≤ maximumBatchMetadata) (draws : KeyDraws) :
    ∃ b', registerEntry E fs b (⟨s.path, none⟩, draws) = .ok b' ∧
      Rebuilt fs old (taken ++ [s]) b'.tables ∧ b'.mutated = true ∧
      b'.bytes = b.bytes + metadataSize E old s ∧ b'.tables.revision = b.tables.revision := by
  obtain ⟨f, text, physical, hs⟩ :=
    h.files s (hsub s (List.mem_append_right _ List.mem_cons_self))
  obtain ⟨file, db', hregistration, hrebuilt, hmetadata⟩ :=
    hs.registration hb (h.remaining hsub hnodup hs.file) h.collections draws
  have hsize := hs.documented.batchSize hfits
  refine ⟨⟨db', b.files ++ [file], b.mutated || true, b.bytes + metadataSize E old s⟩, ?_,
    hrebuilt, Bool.or_true _, rfl, (Transacts.registration hregistration).revision⟩
  simp only [Catalog.registerEntry, bind_ok, Prod.exists, pure_ok]
  exact ⟨file, true, db', hregistration, _, hmetadata ▸ hsize, rfl⟩

/-- The entries of a batch, one after another. Each entry restores one more file, and the files
before it are copies still; the induction is on the batch. -/
theorem Recoverable.registerEntries (h : Recoverable E fs old) {l : List FileRow}
    (draws : Nat → KeyDraws) {n : Nat} {b : Batch}
    (hsub : ∀ t ∈ taken ++ l, t ∈ old.files) (hnodup : (taken ++ l).Nodup)
    (hb : Rebuilt fs old taken b.tables)
    (hfits : b.bytes + (l.map (metadataSize E old)).sum ≤ maximumBatchMetadata) :
    ∃ b', (drawn draws n (l.map fun s => ⟨s.path, none⟩)).foldlM (Catalog.registerEntry E fs) b
        = .ok b' ∧
      Rebuilt fs old (taken ++ l) b'.tables ∧ (l ≠ [] → b'.mutated = true) ∧
      b'.tables.revision = b.tables.revision := by
  induction l generalizing taken n b with
  | nil => exact ⟨b, rfl, (List.append_nil taken).symm ▸ hb, fun hne => absurd rfl hne, rfl⟩
  | cons s l ih =>
      rw [List.map_cons, List.sum_cons] at hfits
      obtain ⟨mid, hmid, hrebuilt, hmutated, hbytes, hrevision⟩ :=
        h.registerEntry hsub hnodup hb (by omega) (draws n)
      have happend : taken ++ s :: l = (taken ++ [s]) ++ l := by simp
      rw [happend] at hsub hnodup
      obtain ⟨b', hb', hfinal, hflag, hsame⟩ :=
        @ih (taken ++ [s]) (n + 1) mid hsub hnodup hrebuilt (by omega)
      refine ⟨b', ?_, happend ▸ hfinal, fun _ => ?_, hsame.trans hrevision⟩
      · rw [List.map_cons, drawn_cons]
        exact foldlM_cons_ok.2 ⟨mid, hmid, hb'⟩
      · cases l with
        | nil =>
            obtain rfl := Except.ok.inj hb'
            exact hmutated
        | cons t l => exact hflag (List.cons_ne_nil t l)

/-- Raising the catalog's revision keeps what is rebuilt. -/
theorem Rebuilt.bump (hdb : Rebuilt fs old taken db) (h : db.bump = .ok db') :
    Rebuilt fs old taken db' := by
  rw [CatalogTables.bump_ok h]
  have hcopy : ∀ t r, Copies fs old db t r →
      Copies fs old { db with revision := db.revision + 1 } t r :=
    fun t r hr => { hr with memberships := hr.memberships }
  refine ⟨hdb.sequence, hdb.numbered, fun r hr => ?_, fun t ht => ?_, hdb.collections⟩
  · obtain ⟨t, ht, hr'⟩ := hdb.rows r hr
    exact ⟨t, ht, hcopy t r hr'⟩
  · obtain ⟨r, hr, hr'⟩ := hdb.restored t ht
    exact ⟨r, hr, hcopy t r hr'⟩

/-- The entries of a batch pass when their paths differ. -/
theorem checkEntries_run {l : List FileRow} {state : List Bytes × Nat}
    (hpaths : (l.map (·.path)).Nodup) (hnew : ∀ s ∈ l, s.path ∉ state.1)
    (hl : ∀ s ∈ l, relativePath E s.path false = .ok s.path) : ∃ state',
      (l.map fun s => (⟨s.path, none⟩ : FileRegistration)).foldlM (checkEntry E) state
        = .ok state' := by
  induction l generalizing state with
  | nil => exact ⟨state, rfl⟩
  | cons s l ih =>
      rw [List.map_cons, List.nodup_cons] at hpaths
      rw [List.forall_mem_cons] at hnew hl
      have hcheck : checkEntry E state ⟨s.path, none⟩ = .ok (s.path :: state.1, state.2) := by
        simp only [checkEntry, bind_ok, failIf_ok, pure_ok]
        exact ⟨s.path, hl.1, (), hnew.1, trivial⟩
      have hrest : ∀ t ∈ l, t.path ∉ s.path :: state.1 := by
        intro t ht hmem
        rcases List.mem_cons.1 hmem with heq | hmem
        · exact hpaths.1 (heq ▸ List.mem_map_of_mem ht)
        · exact hnew.2 t ht hmem
      obtain ⟨state', hstate'⟩ := @ih (s.path :: state.1, state.2) hpaths.2 hrest hl.2
      exact ⟨state', foldlM_cons_ok.2 ⟨_, hcheck, hstate'⟩⟩

/-- A batch of files that `registerFiles` accepts. -/
structure Batched (E : CatalogLibraries) (old : CatalogTables) (batch : List FileRow) : Prop where
  nonempty : batch ≠ []
  length : batch.length ≤ maximumBatch
  bytes : (batch.map (metadataSize E old)).sum ≤ maximumBatchMetadata

/-- What a batch passes before its transaction. The volume is intact and the paths are those of
files that are there; this is all that is asked before the batch begins. -/
theorem Recoverable.passes (h : Recoverable E fs old) {batch : List FileRow} (hne : batch ≠ [])
    (hsub : ∀ s ∈ batch, s ∈ old.files) (hnodup : batch.Nodup) :
    intact fs = .ok () ∧ ∃ state, (batch.map fun s => (⟨s.path, none⟩ : FileRegistration)).foldlM
      (checkEntry E) ([], 0) = .ok state := by
  have hfiles : ∀ s ∈ batch, Catalog.path E fs s.path = .ok s.path := by
    intro s hs
    obtain ⟨_, _, _, hrestorable⟩ := h.files s (hsub s hs)
    exact hrestorable.path
  constructor
  · obtain ⟨s, hs⟩ := List.exists_mem_of_ne_nil _ hne
    have hpath := hfiles s hs
    simp only [path, bind_ok] at hpath
    obtain ⟨_, hintact, -⟩ := hpath
    exact hintact
  · have hpaths : (batch.map (·.path)).Nodup := by
      refine hnodup.map_on fun a ha b hb heq => ?_
      exact UniqueTable.eq_of_column_eq (c := FileRow.path) (by simp [FileRow.columns])
        (hsub a ha) (hsub b hb) heq
    exact checkEntries_run hpaths (fun _ _ => List.not_mem_nil)
      fun s hs => (path_ok (hfiles s hs)).2

/-- The transaction of a batch of files that remain. The revision of the new catalog goes up by one
at most for each batch, and there are no more batches than files, so it stays within its bound. -/
theorem Recoverable.registerBatch (h : Recoverable E fs old) {batch : List FileRow}
    (hbatch : Batched E old batch) (hsub : ∀ t ∈ taken ++ batch, t ∈ old.files)
    (hnodup : (taken ++ batch).Nodup) (hdb : Rebuilt fs old taken db)
    (hrevision : db.revision ≤ taken.length) (draws : Nat → KeyDraws) : ∃ files db',
      Catalog.registerBatch E fs db (batch.map fun s => ⟨s.path, none⟩) draws
        = .ok (files, db') ∧
      Rebuilt fs old (taken ++ batch) db' ∧ db'.revision ≤ (taken ++ batch).length := by
  have hfits : 0 + (batch.map (metadataSize E old)).sum ≤ maximumBatchMetadata :=
    (Nat.zero_add _).trans_le hbatch.bytes
  obtain ⟨b, hfold, hrebuilt, hmutated, hsame⟩ :=
    @Recoverable.registerEntries E fs old taken h batch draws 0 ⟨db, [], false, 0⟩ hsub hnodup hdb
      hfits
  have hpositive : 0 < batch.length := List.length_pos_of_ne_nil hbatch.nonempty
  have hcount := ((List.subperm_of_subset hnodup hsub).length_le).trans h.count
  rw [List.length_append] at hcount ⊢
  have hsame' : b.tables.revision = db.revision := hsame
  have hbump : b.tables.bump = .ok { b.tables with revision := b.tables.revision + 1 } := by
    simp only [CatalogTables.bump, bind_ok, failIf_ok, pure_ok]
    exact ⟨(), by omega, trivial⟩
  refine ⟨b.files, _, ?_, hrebuilt.bump hbump, ?_⟩
  · unfold Catalog.registerBatch
    rw [bind_ok]
    refine ⟨b, hfold, ?_⟩
    rw [if_pos (hmutated hbatch.nonempty), bind_ok]
    exact ⟨_, hbump, pure_ok.2 rfl⟩
  · show b.tables.revision + 1 ≤ _
    omega

/-- A call for a batch that passes its checks ends with the tables of the batch. -/
theorem registerFiles_run {input : List FileRegistration} {draws : Nat → KeyDraws}
    {state : List Bytes × Nat} {files : List CatalogFile} (hne : input ≠ [])
    (hlength : input.length ≤ maximumBatch)
    (hcheck : input.foldlM (checkEntry E) ([], 0) = .ok state) (hintact : intact fs = .ok ())
    (hbatch : registerBatch E fs db input draws = .ok (files, db')) :
    registerFiles E ⟨fs, db⟩ input draws = (.ok files, ⟨fs, db'⟩) := by
  have hcall : (do
      failIf (input = [] ∨ maximumBatch < input.length)
        "registration batch exceeds file count limit"
      let _ ← input.foldlM (checkEntry E) ([], 0)
      intact fs
      registerBatch E fs db input draws) = .ok (files, db') := by
    simp only [bind_ok, failIf_ok, not_or, not_lt]
    exact ⟨(), ⟨hne, hlength⟩, state, hcheck, (), hintact, hbatch⟩
  unfold registerFiles
  rw [hcall]

/-- **A batch of files that remain is registered**, with one step of the catalog. The check of the
disk before the step passes, so that the revision grows by at most one while the rows of the batch
join those rebuilt so far. -/
theorem Recoverable.registerFiles (h : Recoverable E fs old) {batch : List FileRow}
    (hbatch : Batched E old batch) (hsub : ∀ t ∈ taken ++ batch, t ∈ old.files)
    (hnodup : (taken ++ batch).Nodup) (hdb : Rebuilt fs old taken db)
    (hrevision : db.revision ≤ taken.length) (draws : Nat → KeyDraws) : ∃ files db',
      Catalog.registerFiles E ⟨fs, db⟩ (batch.map fun s => ⟨s.path, none⟩) draws
        = (.ok files, ⟨fs, db'⟩) ∧
      Rebuilt fs old (taken ++ batch) db' ∧ db'.revision ≤ (taken ++ batch).length := by
  obtain ⟨hintact, state, hcheck⟩ := h.passes hbatch.nonempty
    (fun s hs => hsub s (List.mem_append_right _ hs)) (List.Nodup.of_append_right hnodup)
  obtain ⟨files, db', hcall, hrebuilt, hstep⟩ :=
    h.registerBatch hbatch hsub hnodup hdb hrevision draws
  have hne : batch.map (fun s => (⟨s.path, none⟩ : FileRegistration)) ≠ [] :=
    fun heq => hbatch.nonempty (List.map_eq_nil_iff.1 heq)
  have hlength : (batch.map fun s => (⟨s.path, none⟩ : FileRegistration)).length
      ≤ maximumBatch := (List.length_map _).trans_le hbatch.length
  exact ⟨files, db', registerFiles_run hne hlength hcheck hintact hcall, hrebuilt, hstep⟩

/-! ## All of it -/

/-- Files registered in a catalog batch by batch, with the bytes each batch draws. The first call
that fails ends it. -/
def registerAll (E : CatalogLibraries) (c : Catalog) :
    List (List FileRegistration × (Nat → KeyDraws)) → Fallible Catalog
  | [] => pure c
  | b :: rest => do
      let call := Catalog.registerFiles E c b.1 b.2
      let _ ← call.1
      registerAll E call.2 rest

/-- What comes of it is a reachable catalog. -/
theorem Reached.registerAll {allowed : FileSystem → FileSystem → Prop} {c c' : Catalog}
    {batches : List (List FileRegistration × (Nat → KeyDraws))} (h : Reached E allowed c)
    (hrun : Catalog.registerAll E c batches = .ok c') : Reached E allowed c' := by
  induction batches generalizing c with
  | nil => exact Except.ok.inj hrun ▸ h
  | cons b batches ih =>
      simp only [Catalog.registerAll, bind_ok] at hrun
      obtain ⟨files, -, hrest⟩ := hrun
      exact ih (h.leads (registerFiles_leads c b.1 b.2)) hrest

/-- The registrations of some files. -/
def registrations (batches : List (List FileRow × (Nat → KeyDraws))) :
    List (List FileRegistration × (Nat → KeyDraws)) :=
  batches.map fun b => (b.1.map fun s => ⟨s.path, none⟩, b.2)

/-- Several batches rebuild all of their files, by induction on the batches. The rows rebuilt so far
are generalised, so that each batch starts from the tables the batches before it left behind. -/
theorem Recoverable.registerAll (h : Recoverable E fs old)
    {batches : List (List FileRow × (Nat → KeyDraws))}
    (hbatches : ∀ b ∈ batches, Batched E old b.1)
    (hsub : ∀ t ∈ taken ++ (batches.map (·.1)).flatten, t ∈ old.files)
    (hnodup : (taken ++ (batches.map (·.1)).flatten).Nodup) (hdb : Rebuilt fs old taken db)
    (hrevision : db.revision ≤ taken.length) : ∃ db',
      Catalog.registerAll E ⟨fs, db⟩ (registrations batches) = .ok ⟨fs, db'⟩ ∧
      Rebuilt fs old (taken ++ (batches.map (·.1)).flatten) db' := by
  induction batches generalizing taken db with
  | nil => exact ⟨db, rfl, (List.append_nil taken).symm ▸ hdb⟩
  | cons b batches ih =>
      rw [List.forall_mem_cons] at hbatches
      have happend : taken ++ ((b :: batches).map (·.1)).flatten
          = (taken ++ b.1) ++ (batches.map (·.1)).flatten := by
        rw [List.map_cons, List.flatten_cons, List.append_assoc]
      rw [happend] at hsub hnodup ⊢
      obtain ⟨files, mid, hcall, hmid, hstep⟩ := h.registerFiles hbatches.1
        (fun t ht => hsub t (List.mem_append_left _ ht)) (List.Nodup.of_append_left hnodup) hdb
        hrevision b.2
      obtain ⟨db', hrun, hrebuilt⟩ := ih hbatches.2 hsub hnodup hmid hstep
      refine ⟨db', ?_, hrebuilt⟩
      rw [registrations, List.map_cons, Catalog.registerAll, hcall]
      exact hrun

/-- A catalog whose files are there with their companions, none of them pending. A companion is as
long as its native state says, and no two files have one native identity. -/
structure Complete (E : CatalogLibraries) (c : Catalog) : Prop where
  settled : ∀ r ∈ c.tables.files, ¬ c.tables.Pending r.id
  path : ∀ r ∈ c.tables.files, Catalog.path E c.fs r.path = .ok r.path
  file : ∀ r ∈ c.tables.files, ∃ physical, inspect c.fs r.path = .ok physical ∧
    Describable physical
  sized : ∀ r ∈ c.tables.files, ∀ physical text,
    c.fs.node (companionPath r.path) = some (.file physical text) → physical.size = text.length
  apart : ∀ r ∈ c.tables.files, ∀ t ∈ c.tables.files, ∀ p q, inspect c.fs r.path = .ok p →
    inspect c.fs t.path = .ok q → p.identity = q.identity → r = t

/-- A complete catalog that is reached can be rebuilt from its companions. That every row has a
companion which says what the row says is the invariant of the reachable catalogs; that the files
can be described is what completeness adds. -/
theorem Complete.recoverable {c : Catalog} (hc : Complete E c)
    (h : Reached E KeepsCompanions c) : Recoverable E c.fs c.tables where
  files r hr := by
    obtain ⟨f, text, hdocumented, hcontent⟩ := documented_of_reached h hr (hc.settled r hr)
    obtain ⟨physical, hphysical, hdescribable⟩ := hc.file r hr
    obtain ⟨state, hnode⟩ : ∃ state,
        c.fs.node (companionPath r.path) = some (.file state text) := by
      unfold FileSystem.content at hcontent
      split at hcontent
      · next hnode =>
          obtain rfl := Option.some.inj hcontent
          exact ⟨_, hnode⟩
      · cases hcontent
    exact ⟨f, text, physical, hr, hdocumented, hc.path r hr, hphysical, hdescribable,
      hdocumented.sidecar hnode (hc.sized r hr _ _ hnode)⟩
  apart := hc.apart
  collections := (Limited.reached h).collections
  count := (Limited.reached h).length_files_le fun r hr => by
    obtain ⟨m, hm⟩ := Indexed.reached h r hr
    exact hm.numbered

/-- Tables into which all files have been taken have the keys of the old ones. -/
theorem Rebuilt.keys (hdb : Rebuilt fs old taken db) (htaken : taken.Perm old.files.rows) :
    (db.files.rows.map FileRow.key).Perm (old.files.rows.map FileRow.key) := by
  have hcolumn : FileRow.key ∈ FileRow.columns := by simp [FileRow.columns]
  refine (List.perm_ext_iff_of_nodup (db.files.unique _ hcolumn)
    (old.files.unique _ hcolumn)).2 fun key => ?_
  constructor
  · intro hkey
    obtain ⟨r, hr, rfl⟩ := List.mem_map.1 hkey
    obtain ⟨t, ht, hcopy⟩ := hdb.rows r hr
    exact List.mem_map.2 ⟨t, htaken.mem_iff.1 ht, hcopy.key.symm⟩
  · intro hkey
    obtain ⟨t, ht, rfl⟩ := List.mem_map.1 hkey
    obtain ⟨r, hr, hcopy⟩ := hdb.restored t (htaken.mem_iff.2 ht)
    exact List.mem_map.2 ⟨r, hr, hcopy.key⟩

/-- **A catalog is made anew from its companions.** Whatever the order and the batches in which the
files are registered in an empty catalog, every call succeeds. Each file gets its key, its revision
and its classification back, and its companion on disk is its document in the new catalog; there are
no other files; and the collections that have files are there again as they were. -/
theorem catalog_rebuilt {c : Catalog} (h : Reached E KeepsCompanions c) (hc : Complete E c)
    {batches : List (List FileRow × (Nat → KeyDraws))}
    (hbatches : ∀ b ∈ batches, Batched E c.tables b.1)
    (hall : (batches.map (·.1)).flatten.Perm c.tables.files.rows) (id : Bytes) : ∃ db',
      registerAll E ⟨c.fs, .empty id⟩ (registrations batches) = .ok ⟨c.fs, db'⟩ ∧
      Reached E KeepsCompanions ⟨c.fs, db'⟩ ∧
      (∀ r ∈ c.tables.files, ∃ r' ∈ db'.files, ∃ f g text, entry E c.tables r = .ok f ∧
        entry E db' r' = .ok g ∧ g.key = f.key ∧ g.path = f.path ∧ g.revision = f.revision ∧
        g.metadata = f.metadata ∧ documentOf E db' r' = .ok text ∧
        c.fs.content (companionPath r'.path) = some text) ∧
      (db'.files.rows.map FileRow.key).Perm (c.tables.files.rows.map FileRow.key) ∧
      ∀ row, row ∈ db'.collections ↔ row ∈ c.tables.collections ∧
        ∃ r ∈ c.tables.files, row.key ∈ c.tables.memberships r.id := by
  have hrecoverable := hc.recoverable h
  have hnodup : (batches.map (·.1)).flatten.Nodup :=
    hall.nodup_iff.2 c.tables.files.nodup.of_map
  obtain ⟨db', hrun, hrebuilt⟩ :=
    @Recoverable.registerAll E c.fs c.tables (.empty id) [] hrecoverable batches hbatches
      (fun t ht => hall.mem_iff.1 ht) hnodup (.fresh id) le_rfl
  have hreached : Reached E KeepsCompanions ⟨c.fs, .empty id⟩ := .fresh id c.fs
  refine ⟨db', hrun, hreached.registerAll hrun, fun r hr => ?_, hrebuilt.keys hall, fun row => ?_⟩
  · have htaken : r ∈ (batches.map (·.1)).flatten := hall.mem_iff.2 hr
    obtain ⟨f, text, physical, hrestorable⟩ := hrecoverable.files r hr
    have hdocumented := hrestorable.documented
    obtain ⟨r', hr', hcopy⟩ := hrebuilt.restored r htaken
    obtain ⟨g, hg, hkey, hpath, hrevision, hmetadata⟩ := hcopy.entry hdocumented
    obtain ⟨text', hdocument, hcontent⟩ :=
      (Synchronised.reached h).companions r hr (hc.settled r hr)
    obtain rfl : text = text' :=
      Except.ok.inj ((bind_ok.2 ⟨f, hdocumented.entry, hdocumented.document⟩).symm.trans hdocument)
    rw [← hcopy.path] at hcontent
    exact ⟨r', hr', f, g, text, hdocumented.entry, hg, hkey, hpath, hrevision, hmetadata,
      hrebuilt.document htaken hcopy hdocumented, hcontent⟩
  · rw [hrebuilt.collections]
    constructor
    · rintro ⟨hrow, t, ht, hkey⟩
      exact ⟨hrow, t, hall.mem_iff.1 ht, hkey⟩
    · rintro ⟨hrow, t, ht, hkey⟩
      exact ⟨hrow, t, hall.mem_iff.2 ht, hkey⟩

/-- A catalog is complete where its rows show it to be. The hypotheses are decidable on a concrete
catalog, which is how an example of a complete catalog is built. -/
theorem Complete.of_rows {c : Catalog}
    (hrows : ∀ r ∈ c.tables.files.rows, c.tables.pending.find r.id = none ∧
      (Catalog.path E c.fs r.path).isOk = true ∧
      ((inspect c.fs r.path).toOption.any fun p =>
        decide (p.identity.length ≤ maximumMetadataBytes + 65536 ∧
          p.version.length ≤ maximumMetadataBytes + 65536 ∧ p.size ≤ int64Max)) = true ∧
      (inspect c.fs (companionPath r.path)).toOption.map (·.size)
        = (c.fs.content (companionPath r.path)).map List.length)
    (hapart : ∀ r ∈ c.tables.files.rows, ∀ t ∈ c.tables.files.rows,
      (inspect c.fs r.path).toOption.map (·.identity)
        = (inspect c.fs t.path).toOption.map (·.identity) → r = t) : Complete E c where
  settled r hr hpending := hpending (hrows r hr).1
  path r hr := by
    obtain ⟨-, hok, -⟩ := hrows r hr
    cases hplace : Catalog.path E c.fs r.path with
    | error e =>
        rw [hplace] at hok
        cases hok
    | ok place => rw [(path_ok hplace).1]
  file r hr := by
    obtain ⟨-, -, hany, -⟩ := hrows r hr
    cases hphysical : inspect c.fs r.path with
    | error e =>
        rw [hphysical] at hany
        cases hany
    | ok p =>
        rw [hphysical] at hany
        obtain ⟨hidentity, hversion, hsize⟩ := of_decide_eq_true hany
        exact ⟨p, rfl, hidentity, hversion, hsize⟩
  sized r hr physical text hnode := by
    obtain ⟨-, -, -, hsame⟩ := hrows r hr
    rw [inspect_ok.2 ⟨text, hnode⟩, FileSystem.content, hnode] at hsame
    exact Option.some.inj hsame
  apart r hr t ht p q hp hq heq := by
    refine hapart r hr t ht ?_
    rw [hp, hq]
    exact congrArg some heq

/-- A catalog with a file in a collection and another file, whose companions are published. -/
def stocked : Catalog :=
  let E := CatalogLibraries.reference
  let c := (Catalog.createCollection E sample (ascii "b") (sampleDraws 1).fresh).2
  let m := { FileMetadata.initial with collections := [newKey (sampleDraws 1).fresh "collection-"] }
  let c := (Catalog.createFile E c (ascii "a") [1] m (sampleDraws 2)
    (.done ⟨samplePhysical "i" "v" 1, none⟩) (.done (samplePhysical "j" "w" 357))).2
  (Catalog.createFile E c (ascii "d") [1] .initial (sampleDraws 4)
    (.done ⟨samplePhysical "k" "v" 1, none⟩) (.done (samplePhysical "l" "w" 248))).2

/-- The catalog of the sample is reached. -/
theorem reached_stocked {allowed : FileSystem → FileSystem → Prop} :
    Reached .reference allowed stocked := by
  have hsample : Reached .reference allowed sample := .fresh _ _
  exact ((hsample.called (.createCollection _ _)).called (.createFile _ _ _ _ _ _)).called
    (.createFile _ _ _ _ _ _)

/-- A catalog with a collection is rebuilt under other draws, with the same keys and the name of the
collection. -/
theorem catalog_rebuilt_sample : ∃ db',
    registerAll .reference ⟨stocked.fs, .empty (ascii "n")⟩
      (registrations [(stocked.tables.files.rows.reverse, fun _ => sampleDraws 9)])
        = .ok ⟨stocked.fs, db'⟩ ∧
    (db'.files.rows.map FileRow.key).Perm (stocked.tables.files.rows.map FileRow.key) ∧
    ∃ row ∈ db'.collections, row.name = ascii "b" := by
  have hcomplete : Complete .reference stocked := .of_rows (by decide +kernel) (by decide +kernel)
  have hreached : Reached .reference KeepsCompanions stocked := reached_stocked
  have hbatch : stocked.tables.files.rows.reverse ≠ [] ∧
      stocked.tables.files.rows.reverse.length ≤ maximumBatch ∧
      (stocked.tables.files.rows.reverse.map (metadataSize .reference stocked.tables)).sum
        ≤ maximumBatchMetadata ∧
      ∃ row ∈ stocked.tables.collections.rows, row.name = ascii "b" ∧
        ∃ r ∈ stocked.tables.files.rows, row.key ∈ stocked.tables.memberships r.id := by
    decide +kernel
  -- What is left holds of any such catalog, and `stocked` is not computed again.
  generalize stocked = c at *
  obtain ⟨hnonempty, hlength, hbytes, row, hrow, hname, r, hr, hkey⟩ := hbatch
  have hall : ([(c.tables.files.rows.reverse, fun _ : Nat => sampleDraws 9)].map
      (·.1)).flatten.Perm c.tables.files.rows := by
    rw [List.map_singleton, List.flatten_singleton]
    exact List.reverse_perm _
  obtain ⟨db', hrun, -, -, hkeys, hcollections⟩ := catalog_rebuilt hreached hcomplete
    (List.forall_mem_singleton.2 ⟨hnonempty, hlength, hbytes⟩) hall (ascii "n")
  exact ⟨db', hrun, hkeys, row, (hcollections row).2 ⟨hrow, r, hr, hkey⟩, hname⟩

end Catalog

end FileProvider
