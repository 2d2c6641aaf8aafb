import FileProvider.Catalog.NewFiles
import FileProvider.Catalog.Soundness

/-!
# Batches of registrations

A batch is registered entry after entry, each under a path of its own. A file whose row stands under
the path of one entry, or whose file is still there, is left as it is by every other entry.

`Registers.row` is the lemma about one entry and any row, from which the rest follows by induction
on the batch: the entries before one and behind it spare its row. Two entries of a batch have two
paths, which the batch checks before it begins.
-/

namespace FileProvider

open Bytes Fallible

namespace Catalog

variable {E : CatalogLibraries} {fs : FileSystem} {db db' : CatalogTables}

/-! ## Paths of a batch -/

/-- An entry passes when its path has not come before. -/
theorem checkEntry_ok {state state' : List Bytes × Nat} {r : FileRegistration}
    (h : checkEntry E state r = .ok state') : r.path ∉ state.1 ∧ state'.1 = r.path :: state.1 := by
  simp only [checkEntry, bind_ok, failIf_ok] at h
  obtain ⟨_, -, _, hnew, h⟩ := h
  split at h
  · rw [pure_ok] at h
    exact ⟨hnew, h ▸ rfl⟩
  · simp only [bind_ok, pure_ok] at h
    obtain ⟨_, -, _, -, rfl⟩ := h
    exact ⟨hnew, rfl⟩

/-- The paths of a batch that is checked are distinct. -/
theorem checkEntries_ok {input : List FileRegistration} {state state' : List Bytes × Nat}
    (h : input.foldlM (checkEntry E) state = .ok state') :
    (input.map (·.path)).Nodup ∧ ∀ r ∈ input, r.path ∉ state.1 := by
  induction input generalizing state with
  | nil => exact ⟨List.nodup_nil, by simp⟩
  | cons r input ih =>
      obtain ⟨mid, hmid, h⟩ := foldlM_cons_ok.1 h
      obtain ⟨hnew, hpaths⟩ := checkEntry_ok hmid
      obtain ⟨hnodup, hrest⟩ := ih h
      rw [hpaths] at hrest
      refine ⟨List.nodup_cons.2 ⟨fun hmem => ?_, hnodup⟩, List.forall_mem_cons.2 ⟨hnew, ?_⟩⟩
      · obtain ⟨s, hs, hpath⟩ := List.mem_map.1 hmem
        exact hrest s hs (hpath ▸ List.mem_cons_self)
      · exact fun s hs hmem => hrest s hs (List.mem_cons_of_mem _ hmem)

/-- What a batch that commits has passed. -/
theorem registerFiles_ok {c c' : Catalog} {input : List FileRegistration}
    {draws : Nat → KeyDraws} {files : List CatalogFile}
    (h : registerFiles E c input draws = (.ok files, c')) :
    (input.map (·.path)).Nodup ∧ c'.fs = c.fs ∧
      registerBatch E c.fs c.tables input draws = .ok (files, c'.tables) := by
  unfold registerFiles at h
  split at h
  · cases h
  · next files' db hbatch =>
      simp only [bind_ok] at hbatch
      obtain ⟨_, -, state, hcheck, _, -, hbatch⟩ := hbatch
      cases h
      exact ⟨(checkEntries_ok hcheck).1, rfl, hbatch⟩

/-! ## Entries -/

/-- The entries of a batch with the bytes each draws. -/
def drawn (draws : Nat → KeyDraws) (n : Nat) (input : List FileRegistration) :
    List (FileRegistration × KeyDraws) :=
  (input.zipIdx n).map fun e => (e.1, draws e.2)

/-- The first entry is given the first draws. -/
theorem drawn_cons (draws : Nat → KeyDraws) (n : Nat) (r : FileRegistration)
    (input : List FileRegistration) :
    drawn draws n (r :: input) = (r, draws n) :: drawn draws (n + 1) input := rfl

/-- The second part of a batch is given the draws behind those of the first. -/
theorem drawn_append (draws : Nat → KeyDraws) (n : Nat) (before after : List FileRegistration) :
    drawn draws n (before ++ after)
      = drawn draws n before ++ drawn draws (n + before.length) after := by
  rw [drawn, List.zipIdx_append, List.map_append]
  rfl

/-- The entries with their draws are those of the batch. -/
theorem mem_drawn {draws : Nat → KeyDraws} {n : Nat} {input : List FileRegistration}
    {e : FileRegistration × KeyDraws} (h : e ∈ drawn draws n input) : e.1 ∈ input := by
  obtain ⟨x, hx, rfl⟩ := List.mem_map.1 h
  exact List.fst_mem_of_mem_zipIdx hx

/-- One entry of a batch that is registered. -/
theorem registerEntry_ok {b b' : Batch} {e : FileRegistration × KeyDraws}
    (h : registerEntry E fs b e = .ok b') : ∃ file mutated,
      registration E fs b.tables e.1 e.2 = .ok (file, mutated, b'.tables) ∧
        b'.files = b.files ++ [file] ∧ b'.mutated = (b.mutated || mutated) := by
  simp only [registerEntry, bind_ok, pure_ok, Prod.exists] at h
  obtain ⟨file, mutated, tables, hregistration, _, -, rfl⟩ := h
  exact ⟨file, mutated, hregistration, rfl, rfl⟩

/-- Each entry gives one file. -/
theorem registerEntries_length {l : List (FileRegistration × KeyDraws)} {b b' : Batch}
    (h : l.foldlM (registerEntry E fs) b = .ok b') :
    ∃ more : List CatalogFile, b'.files = b.files ++ more ∧ more.length = l.length := by
  induction l generalizing b with
  | nil =>
      rw [List.foldlM_nil, pure_ok] at h
      exact ⟨[], by rw [h, List.append_nil], rfl⟩
  | cons e l ih =>
      obtain ⟨mid, hmid, h⟩ := foldlM_cons_ok.1 h
      obtain ⟨file, mutated, -, hfiles, -⟩ := registerEntry_ok hmid
      obtain ⟨more, hmore, hlength⟩ := ih h
      refine ⟨file :: more, ?_, congrArg (· + 1) hlength⟩
      rw [hmore, hfiles, List.append_assoc, List.singleton_append]

/-- **A batch around one of its entries.** The entries before it, its own registration and those
after it are three runs of the loop, each from where the one before ended. -/
theorem registerBatch_split {before after : List FileRegistration} {r : FileRegistration}
    {draws : Nat → KeyDraws} {files : List CatalogFile}
    (h : registerBatch E fs db (before ++ r :: after) draws = .ok (files, db')) :
    ∃ (first second last : Batch) (file : CatalogFile) (mutated : Bool),
      (drawn draws 0 before).foldlM (registerEntry E fs) ⟨db, [], false, 0⟩ = .ok first ∧
      registration E fs first.tables r (draws before.length)
        = .ok (file, mutated, second.tables) ∧
      (drawn draws (before.length + 1) after).foldlM (registerEntry E fs) second = .ok last ∧
      files[before.length]? = some file ∧
      (db' = last.tables ∨ last.tables.bump = .ok db') := by
  obtain ⟨last, hfold, rfl, hbump⟩ := registerBatch_ok h
  have hentries : (drawn draws 0 (before ++ r :: after)).foldlM (registerEntry E fs)
      ⟨db, [], false, 0⟩ = .ok last := hfold
  rw [drawn_append, drawn_cons, Nat.zero_add, List.foldlM_append, bind_ok] at hentries
  obtain ⟨first, hfirst, hentries⟩ := hentries
  obtain ⟨second, hsecond, hlast⟩ := foldlM_cons_ok.1 hentries
  obtain ⟨file, mutated, hregistration, hfiles, -⟩ := registerEntry_ok hsecond
  obtain ⟨early, hearly, hlength⟩ := registerEntries_length hfirst
  obtain ⟨late, hlate, -⟩ := registerEntries_length hlast
  have hcount : first.files.length = before.length := by
    rw [hearly, List.nil_append, hlength, drawn, List.length_map, List.length_zipIdx]
  refine ⟨first, second, last, file, mutated, hfirst, hregistration, hlast, ?_, ?_⟩
  · rw [hlate, hfiles, ← hcount]
    simp
  · rcases hbump with ⟨-, hbump⟩ | ⟨-, rfl⟩
    · exact .inr hbump
    · exact .inl rfl

/-! ## Rows of a batch -/

/-- A file below directories that are in order is found present. -/
theorem presentFrom_of_directories {leaf : Bytes} {dirs : List Bytes}
    (hdirs : ∀ p ∈ dirs, directoryValid fs p = .ok ()) {physical : Physical} {content : Bytes}
    (hnode : fs.node leaf = some (.file physical content)) :
    presentFrom fs leaf dirs = .ok true := by
  induction dirs with
  | nil =>
      unfold presentFrom
      rw [hnode]
      rfl
  | cons p rest ih =>
      obtain ⟨hp, hrest⟩ := List.forall_mem_cons.1 hdirs
      simp only [directoryValid, failIf_ok, not_not] at hp
      unfold presentFrom
      rw [hp]
      exact ih hrest

/-- A file that can be inspected is present. -/
theorem present_of_path {relative place : Bytes} (hpath : path E fs relative = .ok place)
    {physical : Physical} {content : Bytes}
    (hnode : fs.node relative = some (.file physical content)) :
    present E fs relative = .ok true := by
  simp only [path, bind_ok, pure_ok] at hpath
  obtain ⟨u, hintact, value, hvalue, _, hdirs, _, -, -⟩ := hpath
  obtain ⟨rfl, -⟩ := relativePath_ok hvalue
  simp only [present, bind_ok]
  exact ⟨u, hintact, value, hvalue, presentFrom_of_directories (forM_ok.1 hdirs) hnode⟩

/-- What a registration leaves of one file. -/
structure Spares (db db' : CatalogTables) (row : FileRow) : Prop where
  file : db'.files.find row.id = some row
  memberships : db'.memberships row.id = db.memberships row.id
  pending : db'.pending.find row.id = db.pending.find row.id

/-- A row that is spared is read as before. -/
theorem Spares.entry {row : FileRow} (h : Spares db db' row) {f : CatalogFile}
    (hf : entry E db row = .ok f) :
    entry E db' row = .ok f := by
  unfold Catalog.entry at hf ⊢
  rwa [h.memberships, h.pending]

/-- A change that leaves a file spares its row. -/
theorem spares_of_leaves {ids : Nat → Prop} (h : db.Leaves ids db') {row : FileRow}
    (hrow : row ∈ db.files) (hid : ¬ ids row.id) : Spares db db' row :=
  ⟨(h.files row.id hid).trans (UniqueTable.mem_iff_find.1 hrow), h.memberships row.id hid,
    h.pending row.id hid⟩

/-- The row of a file that is registered anew. -/
theorem Described.refreshed_row {p : Proposal} {mid : CatalogTables} {physical : Physical}
    {relative : Bytes} {file : CatalogFile} {own : FileRow}
    (h : Described E mid own.id p file db')
    (hmid : p.tables.updateFile physical p.revision relative own.id = .ok mid)
    (hown : p.tables.files.find own.id = some own) :
    ∃ text, Annotated E mid own.id p.metadata text db' ∧ db'.files.find own.id
      = some ((own.refresh relative physical p.revision).annotate p.metadata text) := by
  obtain ⟨text, hannotated⟩ := h.annotated
  obtain ⟨files, hfiles, hmid'⟩ := CatalogTables.updateFile_ok hmid
  refine ⟨text, hannotated, hannotated.row ?_⟩
  rw [hmid']
  show files.find own.id = _
  rw [UniqueTable.find_modify hfiles, if_pos rfl, hown, Option.map_some]

/-- A row that a file is found under by its native identity has lost its file. -/
theorem registered_row {relative : Bytes} {physical : Physical} {f : CatalogFile}
    (hdb : Sound E db) (h : registered E fs db relative physical = .ok (some f)) :
    ∃ own ∈ db.files, entry E db own = .ok f ∧ (own.path = relative ∨
      (∀ s ∈ db.files, s.path ≠ relative) ∧ own.identity = physical.identity ∧
        present E fs own.path = .ok false) := by
  obtain ⟨own, hown, hentry, hway⟩ := registered_ok h
  refine ⟨own, hown, hentry, ?_⟩
  rcases hway with hpath | ⟨hfree, s, hs, hidentity, hpresent, hkey⟩
  · exact .inl hpath
  · have hkey' : s.key = own.key := by
      rw [normalized_fileKey (hdb.files s hs)] at hkey
      exact Except.ok.inj hkey
    have hsame : s = own :=
      UniqueTable.eq_of_column_eq (c := FileRow.key) (by simp [FileRow.columns]) hs hown hkey'
    subst hsame
    exact .inr ⟨hfree, hidentity, hpresent⟩

/-- **What a registration does to one row.** It leaves it, or puts it under its own path. -/
theorem Registers.row {r : FileRegistration} {draws : KeyDraws} {physical : Physical}
    {file : CatalogFile} {mutated : Bool} (h : Registers E fs db r draws physical file mutated db')
    (hdb : Sound E db) {row : FileRow} (hrow : row ∈ db.files) :
    Spares db db' row ∨ ((row.path = r.path ∨ present E fs row.path = .ok false) ∧
      ∃ row', db'.files.find row.id = some row' ∧ row'.key = row.key ∧ row'.path = r.path) := by
  have hfind := UniqueTable.mem_iff_find.1 hrow
  cases h with
  | unchanged _ hp =>
      obtain ⟨hrestores, -⟩ := refreshed_ok hp
      have hleaves : db.Leaves (fun _ => False) _ := hrestores.leaves
      exact .inl (spares_of_leaves hleaves hrow id)
  | refreshed hf hp _ hmid hdescribed =>
      obtain ⟨hrestores, -⟩ := refreshed_ok hp
      obtain ⟨own, hown, hentry, hway⟩ := registered_row hdb hf
      obtain ⟨_, _, -, -, rfl⟩ := entry_ok hentry
      have hleaves := (hrestores.leaves.trans (.updateFile hmid)).trans hdescribed.leaves
      by_cases hid : row.id = own.id
      · have hsame : row = own := by
          rw [hid, UniqueTable.mem_iff_find.1 hown] at hfind
          exact (Option.some.inj hfind).symm
        subst hsame
        have hown' := UniqueTable.mem_iff_find.1 hown
        rw [← hrestores.rows.1] at hown'
        obtain ⟨text, -, hnew⟩ := hdescribed.refreshed_row hmid hown'
        exact .inr ⟨hway.imp id fun h => h.2.2, _, hnew, rfl, rfl⟩
      · exact .inl (spares_of_leaves hleaves hrow hid)
  | added _ hp hmid hdescribed =>
      obtain ⟨hrestores, -⟩ := adopted_ok hp
      have hleaves := (hrestores.leaves.trans (.insertFile hmid)).trans hdescribed.leaves
      refine .inl (spares_of_leaves hleaves hrow fun hid => ?_)
      obtain ⟨files, hfiles, -⟩ := CatalogTables.insertFile_ok hmid
      have hfree := (UniqueTable.find_insert hfiles).1
      rw [hrestores.rows.1] at hfree
      rw [hid] at hfind
      exact absurd (hfind.symm.trans hfree) (by simp)

/-- A file that is registered again: what it takes over, and whether that changes its row. -/
inductive Again (E : CatalogLibraries) (db : CatalogTables) (row : FileRow) (f : CatalogFile)
    (relative : Bytes) (physical : Physical) (p : Proposal) (db' : CatalogTables) : Prop where
  | same : row.path = relative → row.stamp = physical.version → f.metadata = p.metadata →
      db' = p.tables → Again E db row f relative physical p db'
  | changed {mid : CatalogTables} {text : Bytes} :
      ¬ (row.path = relative ∧ row.stamp = physical.version ∧ f.metadata = p.metadata) →
      p.tables.updateFile physical p.revision relative row.id = .ok mid →
      Annotated E mid row.id p.metadata text db' →
      db'.files.find row.id
        = some ((row.refresh relative physical p.revision).annotate p.metadata text) →
      (∃ file, require E db' p.key = .ok file) →
      Again E db row f relative physical p db'

/-- **A registration that gives a file of the catalog registers it again.** -/
theorem Registers.again {r : FileRegistration} {draws : KeyDraws} {physical : Physical}
    {file : CatalogFile} {mutated : Bool} (h : Registers E fs db r draws physical file mutated db')
    (hdb : Sound E db) {row : FileRow} (hrow : row ∈ db.files) (hkey : file.key = row.key) :
    ∃ f p, entry E db row = .ok f ∧ (row.path = r.path ∨ present E fs row.path = .ok false) ∧
      Catalog.refreshed E fs db r.path f r.metadata = .ok p
        ∧ Again E db row f r.path physical p db' := by
  have hcolumn : FileRow.key ∈ FileRow.columns := by simp [FileRow.columns]
  cases h with
  | unchanged hf hp hpath hversion hmetadata =>
      obtain ⟨own, hown, hentry, hway⟩ := registered_row hdb hf
      obtain ⟨j, m, -, -, rfl⟩ := entry_ok hentry
      obtain rfl : own = row := UniqueTable.eq_of_column_eq hcolumn hown hrow hkey
      exact ⟨_, _, hentry, hway.imp id fun h => h.2.2, hp, .same hpath hversion hmetadata rfl⟩
  | refreshed hf hp hchanged hmid hdescribed =>
      obtain ⟨own, hown, hentry, hway⟩ := registered_row hdb hf
      obtain ⟨hrestores, hpkey, -⟩ := refreshed_ok hp
      obtain ⟨j, m, -, -, rfl⟩ := entry_ok hentry
      obtain ⟨row', -, hkey', hread⟩ :=
        require_row hdescribed.required (hpkey ▸ hdb.files own hown)
      obtain ⟨_, _, -, -, rfl⟩ := entry_ok hread
      have hsame : own.key = row.key := hpkey.symm.trans (hkey'.symm.trans hkey)
      obtain rfl : own = row := UniqueTable.eq_of_column_eq hcolumn hown hrow hsame
      have hown' := UniqueTable.mem_iff_find.1 hown
      rw [← hrestores.rows.1] at hown'
      obtain ⟨text, hannotated, hnew⟩ := hdescribed.refreshed_row hmid hown'
      exact ⟨_, _, hentry, hway.imp id fun h => h.2.2, hp,
        .changed hchanged hmid hannotated hnew ⟨_, hdescribed.required⟩⟩
  | added hf hp hmid hdescribed =>
      obtain ⟨hrestores, hvalid⟩ := adopted_ok hp
      obtain ⟨row', -, hkey', hread⟩ := require_row hdescribed.required hvalid
      obtain ⟨_, _, -, -, rfl⟩ := entry_ok hread
      exact absurd (hkey.symm.trans hkey') (insertFile_key hmid row (hrestores.rows.1 ▸ hrow))

/-! ## One file through a batch -/

/-- A registration in a batch, and the native file it found. -/
theorem registerEntry_registers {b b' : Batch} {e : FileRegistration × KeyDraws}
    (h : registerEntry E fs b e = .ok b') : ∃ physical file mutated,
      Registers E fs b.tables e.1 e.2 physical file mutated b'.tables ∧
        present E fs e.1.path = .ok true := by
  obtain ⟨file, mutated, hregistration, -, -⟩ := registerEntry_ok h
  obtain ⟨physical, content, hpath, hnode, hregisters⟩ := registration_ok hregistration
  exact ⟨physical, file, mutated, hregisters, present_of_path hpath hnode⟩

/-- A row is as it was, or it was put under another path where its file is. -/
def Untouched (E : CatalogLibraries) (fs : FileSystem) (relative : Bytes) (row : FileRow)
    (db : CatalogTables) : Prop :=
  db.files.find row.id = some row ∨ ∃ moved, db.files.find row.id = some moved ∧
    moved.key = row.key ∧ moved.path ≠ relative ∧ present E fs moved.path = .ok true

/-- The entries before one leave its row, or take it to another path. The paths of a batch are
distinct, so no other entry is for the path of this one; a row is taken to another path only where
its own path is empty. -/
theorem registerEntries_untouched (relative : Bytes) {row : FileRow}
    {l : List (FileRegistration × KeyDraws)} {b b' : Batch} (hdb : Sound E b.tables)
    (hpaths : ∀ e ∈ l, e.1.path ≠ relative) (hrow : b.tables.files.find row.id = some row)
    (h : l.foldlM (registerEntry E fs) b = .ok b') :
    Sound E b'.tables ∧ Untouched E fs relative row b'.tables := by
  refine foldlM_preserves_mem (motive := fun b : Batch => Sound E b.tables ∧
    Untouched E fs relative row b.tables) ?_ ⟨hdb, .inl hrow⟩ h
  rintro e he b b' ⟨hdb, hrow⟩ hstep
  obtain ⟨physical, file, mutated, hregisters, hpresent⟩ := registerEntry_registers hstep
  refine ⟨hregisters.sound hdb, ?_⟩
  have hmoves : ∀ row' ∈ b.tables.files, row'.id = row.id → row'.key = row.key →
      (Spares b.tables b'.tables row' → Untouched E fs relative row b'.tables) →
      Untouched E fs relative row b'.tables := by
    intro row' hrow' hid hkey hspared
    rcases hregisters.row hdb hrow' with hspares | ⟨-, moved, hmoved, hkey', hpath⟩
    · exact hspared hspares
    · refine .inr ⟨moved, hid ▸ hmoved, hkey'.trans hkey, ?_, hpath ▸ hpresent⟩
      exact hpath ▸ hpaths e he
  rcases hrow with hrow | ⟨moved, hmoved, hkey, hpath, hthere⟩
  · exact hmoves row (UniqueTable.find_eq_some.1 hrow).1 rfl rfl fun hspares => .inl hspares.file
  · obtain ⟨hmem, hid⟩ := UniqueTable.find_eq_some.1 hmoved
    refine hmoves moved hmem hid hkey fun hspares => .inr ⟨moved, ?_, hkey, hpath, hthere⟩
    exact hid ▸ hspares.file

/-- The entries after one leave the row of its file. -/
theorem registerEntries_spare {row : FileRow} {f : CatalogFile}
    {l : List (FileRegistration × KeyDraws)} {b b' : Batch} (hdb : Sound E b.tables)
    (hpaths : ∀ e ∈ l, e.1.path ≠ row.path) (hpresent : present E fs row.path = .ok true)
    (hrow : b.tables.files.find row.id = some row) (hf : entry E b.tables row = .ok f)
    (h : l.foldlM (registerEntry E fs) b = .ok b') :
    b'.tables.files.find row.id = some row ∧ entry E b'.tables row = .ok f ∧
      ∀ key c, b.tables.collections.find key = some c →
        b'.tables.collections.find key = some c := by
  have hall := foldlM_preserves_mem (motive := fun b' : Batch => Sound E b'.tables ∧
    b'.tables.files.find row.id = some row ∧ entry E b'.tables row = .ok f ∧
      ∀ key c, b.tables.collections.find key = some c →
        b'.tables.collections.find key = some c) ?_ ⟨hdb, hrow, hf, fun _ _ hc => hc⟩ h
  · exact hall.2
  rintro e he b₁ b₂ ⟨hdb, hrow, hf, hmore⟩ hstep
  obtain ⟨physical, file, mutated, hregisters, -⟩ := registerEntry_registers hstep
  have hmem := (UniqueTable.find_eq_some.1 hrow).1
  refine ⟨hregisters.sound hdb, ?_, ?_, fun key c hc => ?_⟩
  · rcases hregisters.row hdb hmem with hspares | ⟨hpath | hgone, -⟩
    · exact hspares.file
    · exact absurd hpath.symm (hpaths e he)
    · rw [hpresent] at hgone
      cases hgone
  · rcases hregisters.row hdb hmem with hspares | ⟨hpath | hgone, -⟩
    · exact hspares.entry hf
    · exact absurd hpath.symm (hpaths e he)
    · rw [hpresent] at hgone
      cases hgone
  · exact hregisters.queues.collections key c (hmore key c hc)

end Catalog

end FileProvider
