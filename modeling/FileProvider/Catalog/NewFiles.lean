import FileProvider.Catalog.Companions

/-!
# New files and their keys

A creation registers the file it has put in place as any other file: a row under the path, or a row
with the native identity whose path has vanished, is taken over. So a new file gets a new key
exactly when the catalog has no such row.

`Unclaimed` is the condition on the tables before the call, and `GetsNewKey` says what the call does
to the rows. The sample is a catalog whose file was deleted by others and whose identity was given
to a new one.
-/

namespace FileProvider

open Bytes Fallible

namespace Catalog

variable {E : CatalogLibraries} {fs : FileSystem} {db db' : CatalogTables}

/-- A row of a new key is added, and the rows that were there keep their key, path, revision and
metadata. -/
def GetsNewKey (db db' : CatalogTables) : Prop :=
  (∃ row ∈ db'.files, ∀ r ∈ db.files, r.key ≠ row.key) ∧
    ∀ r ∈ db.files, ∃ r' ∈ db'.files, r'.key = r.key ∧ r'.path = r.path ∧
      r'.revision = r.revision ∧ r'.metadata = r.metadata ∧
      db'.memberships r'.id = db.memberships r.id

/-- No row has the path or the native identity of a file. -/
def Unclaimed (db : CatalogTables) (path : Bytes) (physical : Physical) : Prop :=
  ∀ r ∈ db.files, r.path ≠ path ∧ r.identity ≠ physical.identity

/-- Where no row is taken over, path and identity are unclaimed. -/
theorem registered_none {relative : Bytes} {physical : Physical}
    (h : registered E fs db relative physical = .ok none) : Unclaimed db relative physical := by
  simp only [registered, bind_ok] at h
  obtain ⟨found, hfound, h⟩ := h
  cases found with
  | some f =>
      rw [pure_ok] at h
      cases h
  | none =>
      dsimp only at h
      split at h
      · next hnone =>
          exact fun r hr => ⟨find_none hfound r hr, UniqueTable.findBy_eq_none.1 hnone r hr⟩
      · simp only [bind_ok, pure_ok] at h
        obtain ⟨_, -, _, -, _, -, h⟩ := h
        cases h

/-- Where a row is taken over, path or identity is claimed. -/
theorem registered_some {relative : Bytes} {physical : Physical} {f : CatalogFile}
    (h : registered E fs db relative physical = .ok (some f)) :
    ¬ Unclaimed db relative physical := by
  intro hunclaimed
  obtain ⟨r, hr, -, hway⟩ := registered_ok h
  rcases hway with hpath | ⟨-, s, hs, hidentity, -, -⟩
  · exact (hunclaimed r hr).1 hpath
  · exact (hunclaimed s hs).2 hidentity

/-- A row that is put in has a key that was free. -/
theorem insertFile_key {mid : CatalogTables} {physical : Physical} {revision id : Nat}
    {key path : Bytes} (h : db.insertFile physical revision key path = .ok (id, mid)) :
    ∀ r ∈ db.files, r.key ≠ key := by
  obtain ⟨files, hfiles, -⟩ := CatalogTables.insertFile_ok h
  intro r hr heq
  have hnew : FileRow.new id key path physical revision ∈ files :=
    (UniqueTable.mem_insert hfiles).2 (.inr rfl)
  have hold : r ∈ files := (UniqueTable.mem_insert hfiles).2 (.inl hr)
  have hsame : r = .new id key path physical revision :=
    UniqueTable.eq_of_column_eq (c := FileRow.key) (by simp [FileRow.columns]) hold hnew heq
  have hfind := UniqueTable.mem_iff_find.1 hr
  rw [hsame, (UniqueTable.find_insert hfiles).1] at hfind
  cases hfind

/-- **A registration gives a new key exactly to a file that no row claims.** A row claims a file by
its path, or by its native identity where the file of its own path is gone. -/
theorem Registers.givesNewKey_iff {r : FileRegistration} {draws : KeyDraws} {physical : Physical}
    {file : CatalogFile} {mutated : Bool}
    (h : Registers E fs db r draws physical file mutated db') :
    GetsNewKey db db' ↔ Unclaimed db r.path physical := by
  have htaken : ∀ {f : CatalogFile}, registered E fs db r.path physical = .ok (some f) →
      (∀ row ∈ db'.files, ∃ s ∈ db.files, s.key = row.key) →
      (GetsNewKey db db' ↔ Unclaimed db r.path physical) := by
    intro f hf hkeys
    constructor
    · rintro ⟨⟨row, hrow, hnew⟩, -⟩
      obtain ⟨s, hs, hkey⟩ := hkeys row hrow
      exact absurd hkey (hnew s hs)
    · intro hunclaimed
      exact absurd hunclaimed (registered_some hf)
  cases h with
  | unchanged hf hp =>
      refine htaken hf fun row hrow => ⟨row, ?_, rfl⟩
      rwa [← (refreshed_ok hp).1.rows.1]
  | refreshed hf hp _ hmid hdescribed =>
      refine htaken hf fun row hrow => ?_
      obtain ⟨text, hannotated⟩ := hdescribed.annotated
      obtain ⟨s, hs, hkey⟩ := hannotated.rows hrow
      obtain ⟨files, hfiles, rfl⟩ := CatalogTables.updateFile_ok hmid
      obtain ⟨s', hs', rfl⟩ := (UniqueTable.mem_modify hfiles).1 hs
      refine ⟨s', (refreshed_ok hp).1.rows.1 ▸ hs', hkey ▸ ?_⟩
      split
      · rfl
      · rfl
  | @added _ p id mid _ hf hp hmid hdescribed =>
      refine ⟨fun _ => registered_none hf, fun _ => ?_⟩
      obtain ⟨hrestores, -⟩ := adopted_ok hp
      obtain ⟨text, hannotated⟩ := hdescribed.annotated
      obtain ⟨files, hfiles, hmid'⟩ := CatalogTables.insertFile_ok hmid
      obtain ⟨hfree, hfind⟩ := UniqueTable.find_insert hfiles
      rw [hrestores.rows.1] at hfree
      have hnew : mid.files.find id = some (.new id p.key r.path physical p.revision) := by
        rw [hmid']
        exact (hfind id).trans (if_pos rfl)
      constructor
      · have hrow := UniqueTable.find_eq_some.1 (hannotated.row hnew)
        refine ⟨_, hrow.1, fun s hs => ?_⟩
        exact insertFile_key hmid s (hrestores.rows.1 ▸ hs)
      · intro s hs
        have hleaves := (hrestores.leaves.trans (.insertFile hmid)).trans hannotated.leaves
        have hs' := UniqueTable.mem_iff_find.1 hs
        have hne : s.id ≠ id := by
          intro heq
          rw [heq] at hs'
          rw [show db.files.find id = none from hfree] at hs'
          cases hs'
        refine ⟨s, ?_, rfl, rfl, rfl, rfl, hleaves.memberships s.id hne⟩
        rw [UniqueTable.mem_iff_find, hleaves.files s.id hne]
        exact hs'

/-! ## Creations -/

/-- A creation that succeeded, with the native state of the new file. -/
inductive Creates (E : CatalogLibraries) (c : Catalog) (relative : Bytes) (file : NewFile) :
    MetadataWrite → Catalog → Prop where
  | createFile {bytes : Bytes} {input : FileMetadata} {draws : KeyDraws}
      {w : NativeWrite Physical} {write : MetadataWrite} {c' : Catalog} :
      Catalog.createFile E c relative bytes input draws (.done file) w = (.ok write, c') →
      Creates E c relative file write c'
  | createFileWith {encoded : Fallible Bytes} {input : FileMetadata} {draws : KeyDraws}
      {w : NativeWrite Physical} {write : MetadataWrite} {c' : Catalog} :
      Catalog.createFileWith E c relative encoded input draws (.done file) w = (.ok write, c') →
      Creates E c relative file write c'
  | importFile {source : FileSystem} {origin : Bytes} {input : Option FileMetadata}
      {draws : KeyDraws} {w : NativeWrite Physical} {write : MetadataWrite} {c' : Catalog} :
      Catalog.importFile E c source origin relative input draws (.done file) w = (.ok write, c') →
      Creates E c relative file write c'

/-- Publication leaves the rows and the memberships. -/
theorem publish_rows (c : Catalog) (key : Bytes) (w : NativeWrite Physical) :
    (publish E c key w).2.tables.files = c.tables.files ∧
      ∀ i, (publish E c key w).2.tables.memberships i = c.tables.memberships i := by
  unfold publish
  split
  · exact ⟨rfl, fun _ => rfl⟩
  · exact ⟨rfl, fun _ => rfl⟩
  · cases w with
    | failed => exact ⟨rfl, fun _ => rfl⟩
    | torn => exact ⟨rfl, fun _ => rfl⟩
    | done => exact ⟨rfl, fun _ => rfl⟩

/-- Whether a file gets a new key depends on files and memberships alone. -/
theorem GetsNewKey.congr {d d' : CatalogTables} (hfiles : d.files = db.files)
    (hmembers : ∀ i, d.memberships i = db.memberships i) (hfiles' : d'.files = db'.files)
    (hmembers' : ∀ i, d'.memberships i = db'.memberships i) :
    GetsNewKey d d' ↔ GetsNewKey db db' := by
  unfold GetsNewKey
  simp only [hfiles, hmembers, hfiles', hmembers']

/-- A managed path is not that of its preview. -/
theorem ne_previewPath {text : Bytes} (h : relativePath E text false = .ok text) :
    text ≠ previewPath text := by
  intro heq
  obtain ⟨-, hvalid⟩ := relativePath_ok h
  simp only [pathValid, bind_ok, failIf_ok, not_or] at hvalid
  obtain ⟨_, ⟨-, -, -, -, -, -, hsuffix⟩, -⟩ := hvalid
  have hlower : previewSuffix.map lower = previewSuffix := by decide
  have hpreview : previewSuffix <:+ text := by
    rw [heq]
    exact List.suffix_append _ _
  exact hsuffix (hlower ▸ hpreview.map lower)

/-- A placed file stands under its path. -/
theorem place_node {relative content : Bytes} {file : NewFile}
    (h : relativePath E relative false = .ok relative) :
    (fs.place relative content file).node relative = some (.file file.physical content) := by
  have hwrite : (fs.write relative (.file file.physical content)).node relative
      = some (.file file.physical content) := if_pos rfl
  unfold FileSystem.place
  cases file.preview with
  | none => exact hwrite
  | some preview => exact (if_neg (ne_previewPath h)).trans hwrite

/-- The file that is added gets a new key exactly when its path and its identity are unclaimed
before the call. -/
theorem addFile_newKey_iff {c c' : Catalog} {relative : Bytes} {encoded : Fallible Bytes}
    {inherited : Option Companion} {metadata : FileMetadata} {draws : KeyDraws} {file : NewFile}
    {w : NativeWrite Physical} {write : MetadataWrite}
    (h : addFile E c relative encoded inherited metadata draws (.done file) w = (.ok write, c')) :
    GetsNewKey c.tables c'.tables ↔ Unclaimed c.tables relative file.physical := by
  unfold addFile at h
  split at h
  · cases h
  · next destination content m mid hprepared =>
      obtain ⟨rfl, hpath, -, hinherit⟩ := prepared_ok hprepared
      dsimp only at h
      split at h
      · cases h
      · next f db' hregister =>
          simp only [register, bind_ok, pure_ok, Prod.exists, Prod.mk.injEq] at hregister
          obtain ⟨f', mutated, d, hregistration, d', hbump, rfl, rfl⟩ := hregister
          obtain ⟨physical, content', -, hnode, hregisters⟩ := registration_ok hregistration
          have hphysical : file.physical = physical := by
            rw [place_node (path_ok hpath).2] at hnode
            cases hnode
            rfl
          have hmid : mid.files = c.tables.files ∧
              ∀ i, mid.memberships i = c.tables.memberships i := by
            unfold inherit at hinherit
            split at hinherit
            · cases hinherit
              exact ⟨rfl, fun _ => rfl⟩
            · exact (restoreCollections_ok hinherit).1.rows
          have hpublish := publish_rows (E := E) ⟨c.fs.place destination content file, d'⟩ f'.key w
          have hc' : c' = (publish E ⟨c.fs.place destination content file, d'⟩ f'.key w).2 :=
            (congrArg Prod.snd h).symm
          rw [CatalogTables.bump_ok hbump] at hpublish hc'
          have hgets : GetsNewKey c.tables c'.tables ↔ GetsNewKey mid d :=
            GetsNewKey.congr hmid.1.symm (fun i => (hmid.2 i).symm) (hc' ▸ hpublish.1)
              (hc' ▸ hpublish.2)
          have hunclaimed : Unclaimed c.tables destination file.physical
              ↔ Unclaimed mid destination physical := by
            unfold Unclaimed
            rw [hphysical, hmid.1]
          rw [hgets, hunclaimed]
          exact hregisters.givesNewKey_iff

/-- **When a new file gets a new key.** A creation that succeeds adds a row with a key that no row
had, and leaves the rows that were there, exactly when no row has the path of the new file and none
has its native identity. -/
theorem newKey_iff {c c' : Catalog} {relative : Bytes} {file : NewFile} {write : MetadataWrite}
    (h : Creates E c relative file write c') :
    GetsNewKey c.tables c'.tables ↔ Unclaimed c.tables relative file.physical := by
  have hcreate : ∀ {encoded input draws w}, Catalog.createFileWith E c relative encoded input draws
      (.done file) w = (.ok write, c') →
      (GetsNewKey c.tables c'.tables ↔ Unclaimed c.tables relative file.physical) := by
    intro encoded input draws w h
    unfold Catalog.createFileWith at h
    split at h
    · cases h
    · exact addFile_newKey_iff (c := ⟨makeParents E c.fs relative, c.tables⟩) h
  cases h with
  | createFile h => exact hcreate h
  | createFileWith h => exact hcreate h
  | importFile h =>
      unfold Catalog.importFile at h
      split at h
      · cases h
      · exact addFile_newKey_iff (c := ⟨makeParents E c.fs relative, c.tables⟩) h

/-! ## Samples -/

/-- The creation of the file `b` with a native identity and a version of its content. -/
def createSample (c : Catalog) (identity : String) : Fallible MetadataWrite × Catalog :=
  Catalog.createFile .reference c (ascii "b") [2] .initial (sampleDraws 4)
    (.done ⟨samplePhysical identity "x" 1, none⟩) (.done (samplePhysical "k" "y" 1))

/-- A creation of the sample that succeeds is one. -/
theorem createSample_creates {c : Catalog} {identity : String}
    (h : (createSample c identity).1.isOk = true) : ∃ write,
      Creates .reference c (ascii "b") ⟨samplePhysical identity "x" 1, none⟩ write
        (createSample c identity).2 := by
  have heq : ∃ write, createSample c identity = (.ok write, (createSample c identity).2) := by
    generalize createSample c identity = result at h ⊢
    obtain ⟨write, hwrite⟩ := exists_of_isOk h
    exact ⟨write, Prod.ext hwrite rfl⟩
  obtain ⟨write, hwrite⟩ := heq
  exact ⟨write, .createFile hwrite⟩

/-- A file with an identity and a path that no row has gets a new key, and the file that was there
keeps its own. -/
theorem newKey_iff_sample : GetsNewKey published.tables (createSample published "n").2.tables := by
  have hok : (createSample published "n").1.isOk = true := by decide +kernel
  obtain ⟨write, hcreates⟩ := createSample_creates hok
  refine (newKey_iff hcreates).2 ?_
  have hunclaimed : ∀ r ∈ published.tables.files.rows,
      r.path ≠ ascii "b" ∧ r.identity ≠ (samplePhysical "n" "x" 1).identity := by decide +kernel
  exact hunclaimed

/-- The files of a root where each has an identity of its own. -/
def IdentitiesUnique (fs : FileSystem) : Prop :=
  ∀ p q : Bytes, ∀ a b : Physical, ∀ s t : Bytes, fs.node p = some (.file a s) →
    fs.node q = some (.file b t) → a.identity = b.identity → p = q

/-- The catalog of the sample once others have deleted its files. -/
def deserted : Catalog := ⟨sample.fs, published.tables⟩

/-- A file that gets the identity of one that was deleted takes over its row: no row of a new key is
added, and the row that was there does not keep its path. -/
theorem newFile_not_newKey :
    ∃ c write c', Reached .reference (fun _ fs => IdentitiesUnique fs) c ∧
      IdentitiesUnique c.fs ∧ (∀ p, c.fs.node p = none) ∧
      Creates .reference c (ascii "b") ⟨samplePhysical "i" "x" 1, none⟩ write c' ∧
      ¬ GetsNewKey c.tables c'.tables := by
  have hempty : IdentitiesUnique sample.fs := by
    intro p q a b s t hp
    cases hp
  have hreached : Reached .reference (fun _ fs => IdentitiesUnique fs) deserted :=
    reached_published.outside hempty
  have hok : (createSample deserted "i").1.isOk = true := by decide +kernel
  obtain ⟨write, hcreates⟩ := createSample_creates hok
  refine ⟨deserted, write, _, hreached, hempty, fun _ => rfl, hcreates, ?_⟩
  rintro ⟨⟨row, hrow, hnew⟩, -⟩
  have hkeys : ∀ row ∈ (createSample deserted "i").2.tables.files.rows,
      row.key ∈ deserted.tables.files.rows.map (·.key) := by decide +kernel
  obtain ⟨r, hr, hkey⟩ := List.mem_map.1 (hkeys row hrow)
  exact hnew r hr hkey

end Catalog

end FileProvider
