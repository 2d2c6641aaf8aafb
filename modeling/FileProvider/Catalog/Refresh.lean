import FileProvider.Catalog.Batches
import FileProvider.Catalog.Reference

/-!
# Companions that are newer than the catalog

A registration without metadata takes over a companion of the file's own key that is not older than
the row. The row is given its next revision, not that of the companion, so the row stays behind a
companion that is more than one revision ahead; and where nothing else changes, it is not given a
revision at all.

`TakesOver` lists what a registration does with the companion that is beside the file, and
`absorbs_iff` tells by the revisions of both, and by what changed of the file, when the row has
taken the metadata over and stands at the revision of the companion or a later one. The samples are
a companion at the next revision, which is absorbed, and one further ahead, which is not.
-/

namespace FileProvider

open Bytes Fallible

namespace Catalog

variable {E : CatalogLibraries} {fs : FileSystem} {db db' : CatalogTables}

/-! ## Restored metadata -/

/-- A collection of the catalog that stands for one of a companion: it has the key, or the same
name but for case. -/
def StandsFor (E : CatalogLibraries) (db : CatalogTables) (c : FileCollection) (key : Bytes) :
    Prop :=
  ∃ row, db.collections.find key = some row ∧
    (key = c.key ∨ normalized E c.name 512 true false = .ok row.folded)

/-- The metadata of a companion, with collections of the catalog for those it lists. -/
def HoldsMetadata (E : CatalogLibraries) (db : CatalogTables) (m : FileMetadata) (j : Companion) :
    Prop :=
  m = { j.metadata with collections := m.collections } ∧ ∃ remap : Bytes → Bytes,
    m.collections = sortedSet (j.metadata.collections.map remap) ∧
      ∀ c ∈ j.collections, StandsFor E db c (remap c.key)

/-- What stands for a collection goes on to when collections are only added. -/
theorem StandsFor.mono {c : FileCollection} {key : Bytes} (h : StandsFor E db c key)
    (hmore : ∀ key row, db.collections.find key = some row →
      db'.collections.find key = some row) : StandsFor E db' c key := by
  obtain ⟨row, hrow, hsame⟩ := h
  exact ⟨row, hmore key row hrow, hsame⟩

/-- Tables that hold a companion's metadata hold them with more collections too. -/
theorem HoldsMetadata.mono {m : FileMetadata} {j : Companion} (h : HoldsMetadata E db m j)
    (hmore : ∀ key row, db.collections.find key = some row →
      db'.collections.find key = some row) : HoldsMetadata E db' m j := by
  obtain ⟨heq, remap, hcollections, hstands⟩ := h
  exact ⟨heq, remap, hcollections, fun c hc => (hstands c hc).mono hmore⟩

/-- One collection that is restored: what stands for it comes first in the map. Whichever branch
finds or creates the collection, the key it ends with is the one pushed in front, so that a later
lookup of the old key meets it first. -/
theorem restoreCollection_stands {state state' : CatalogTables × List (Bytes × Bytes)}
    {c : FileCollection} (h : restoreCollection E state c = .ok state') :
    Restores state.1 state'.1 ∧ ∃ key, state'.2 = (c.key, key) :: state.2 ∧
      StandsFor E state'.1 c key := by
  refine ⟨restoreCollection_restores h, ?_⟩
  simp only [restoreCollection, bind_ok] at h
  obtain ⟨folded, hfolded, h⟩ := h
  split at h
  · next key hkey =>
      rw [pure_ok] at h
      subst h
      refine ⟨key, rfl, ?_⟩
      obtain ⟨row, hrow, rfl⟩ := Option.map_eq_some_iff.1 hkey
      rcases Option.or_eq_some_iff.1 hrow with hrow | ⟨-, hrow⟩
      · have hkey : row.key = c.key := (UniqueTable.find_eq_some.1 hrow).2
        exact ⟨row, hkey ▸ hrow, .inl hkey⟩
      · obtain ⟨hmem, hfold⟩ :=
          (UniqueTable.findBy_eq_some (by simp [CollectionRow.columns])).1 hrow
        exact ⟨row, UniqueTable.mem_iff_find.1 hmem, .inr (hfold ▸ hfolded)⟩
  · simp only [bind_ok, pure_ok] at h
    obtain ⟨_, -, db, hinsert, rfl⟩ := h
    obtain ⟨collections, hcollections, rfl⟩ := CatalogTables.insertCollection_ok hinsert
    refine ⟨c.key, rfl, ⟨c.key, c.name, folded⟩, ?_, .inl rfl⟩
    exact ((UniqueTable.find_insert hcollections).2 c.key).trans (if_pos rfl)

/-- The map of the collections of a companion: what it says stands for a collection of its key. -/
theorem restoreFold_stands {l : List FileCollection}
    {state state' : CatalogTables × List (Bytes × Bytes)}
    (h : l.foldlM (restoreCollection E) state = .ok state') (P : Bytes → FileCollection → Prop)
    (hP : ∀ c ∈ l, P c.key c)
    (hstate : ∀ e ∈ state.2, ∃ c, P e.1 c ∧ StandsFor E state.1 c e.2) :
    ∀ e ∈ state'.2, ∃ c, P e.1 c ∧ StandsFor E state'.1 c e.2 := by
  refine foldlM_preserves_mem (motive := fun s : CatalogTables × List (Bytes × Bytes) =>
    ∀ e ∈ s.2, ∃ c, P e.1 c ∧ StandsFor E s.1 c e.2) ?_ hstate h
  intro c hc s s' hs hstep
  obtain ⟨⟨collections, htables, hmore⟩, key, hmap, hstands⟩ := restoreCollection_stands hstep
  intro e he
  rw [hmap] at he
  rcases List.mem_cons.1 he with rfl | he
  · exact ⟨c, hP c hc, hstands⟩
  · obtain ⟨c', hc', hstands'⟩ := hs e he
    refine ⟨c', hc', hstands'.mono ?_⟩
    rw [htables]
    exact hmore

/-- A key is remapped as the list says. -/
theorem remapped_ok {remap : List (Bytes × Bytes)} {key value : Bytes}
    (h : remapped remap key = .ok value) : (key, value) ∈ remap := by
  rw [remapped, orFail_ok, Option.map_eq_some_iff] at h
  obtain ⟨e, he, rfl⟩ := h
  have hkey : e.1 = key := by simpa using List.find?_some he
  rw [← hkey]
  exact List.mem_of_find?_eq_some he

/-- **What a restoration gives.** The metadata of the companion, over collections of the catalog.
The proof follows the calls: the fold over the collections gives the map of keys, the normal form of
the metadata comes from its own check, and each key of the result is one of the map. -/
theorem restoreCollections_holds {j : Companion} {m : FileMetadata} (hdb : Sound E db)
    (hj : CompanionValid E j) (h : restoreCollections E db j = .ok (m, db')) :
    HoldsMetadata E db' m j ∧ Normal E m ∧ CollectionsNormal E m.collections := by
  have hsound := restoreCollections_sound hdb hj h
  simp only [restoreCollections, bind_ok, pure_ok, Prod.exists, Prod.mk.injEq] at h
  obtain ⟨d, remap, hfold, collections, hmap, m', hm, rfl, rfl⟩ := h
  obtain ⟨hnormal, hkeys⟩ := normalizeMetadata_normal hm
  refine ⟨⟨?_, ?_⟩, hnormal, hkeys⟩
  · obtain ⟨n, hn⟩ := hj.metadata
    obtain ⟨hparts, -⟩ := normalizeMetadata_normal hn
    have hparts' : Normal E { j.metadata with collections } :=
      ⟨hparts.rating, hparts.title, hparts.description, hparts.keywords, hparts.fields⟩
    exact hparts'.eq hm
  · have hstands := restoreFold_stands hfold (fun key c => c ∈ j.collections ∧ c.key = key)
      (fun c hc => ⟨hc, rfl⟩) (fun e he => by cases he)
    let value (key : Bytes) : Bytes := ((remap.find? fun e => e.1 = key).map (·.2)).getD []
    have hvalue : ∀ key value', remapped remap key = .ok value' → value key = value' := by
      intro key value' hkey
      rw [remapped, orFail_ok] at hkey
      show ((remap.find? fun e => e.1 = key).map (·.2)).getD [] = value'
      rw [hkey]
      rfl
    have hcollections : collections = j.metadata.collections.map value := by
      have hmap := mapM_ok.1 hmap
      have hget : (j.metadata.collections.map (remapped remap)).map
          (fun key => key.toOption.getD []) = collections := by
        rw [hmap, List.map_map]
        exact List.map_id _
      rw [← hget, List.map_map]
      refine List.map_congr_left fun key hkey => ?_
      have hmem : remapped remap key ∈ collections.map (Except.ok (ε := String)) := by
        rw [← hmap]
        exact List.mem_map_of_mem hkey
      obtain ⟨v, -, hv⟩ := List.mem_map.1 hmem
      rw [Function.comp_apply, ← hv, hvalue key v hv.symm]
      rfl
    have hstands' : ∀ c ∈ j.collections, StandsFor E d c (value c.key) := by
      intro c hc
      have hmem : remapped remap c.key ∈ collections.map (Except.ok (ε := String)) := by
        rw [← mapM_ok.1 hmap]
        exact List.mem_map_of_mem (hj.known c hc)
      obtain ⟨v, -, hv⟩ := List.mem_map.1 hmem
      obtain ⟨c', ⟨hc', hkey⟩, hstand⟩ := hstands _ (remapped_ok hv.symm)
      have hsame : c' = c := List.inj_on_of_nodup_map hj.nodup hc' hc hkey
      rw [hvalue c.key v hv.symm]
      exact hsame ▸ hstand
    refine ⟨value, ?_, hstands'⟩
    -- the keys of collections of the catalog are in normal form already
    have hself : collections.mapM (fun key => normalized E key 128 false true)
        = .ok collections := by
      rw [mapM_ok]
      refine List.map_congr_left fun key hkey => ?_
      have hmem : Except.ok key ∈ j.metadata.collections.map (remapped remap) := by
        rw [mapM_ok.1 hmap]
        exact List.mem_map_of_mem hkey
      obtain ⟨old, -, hold⟩ := List.mem_map.1 hmem
      obtain ⟨_, -, row, hrow, -⟩ := hstands _ (remapped_ok hold)
      obtain ⟨hrow, hkey' : row.key = key⟩ := UniqueTable.find_eq_some.1 hrow
      have hvalid := (hsound.collections row hrow).normal.key
      exact hkey' ▸ hvalid
    obtain ⟨memberships, hmemberships, hn⟩ := normalizeMetadata_collections hm
    obtain rfl := Except.ok.inj (hmemberships.symm.trans hself)
    rw [hn, hcollections]

/-! ## What a file that is registered again takes over -/

/-- The row of an annotation reads as what was annotated. -/
theorem Annotated.read {id : Nat} {m : FileMetadata} {text : Bytes} {row : FileRow}
    {f : CatalogFile} (h : Annotated E db id m text db') (hm : Normal E m)
    (hkeys : CollectionsNormal E m.collections) (hid : row.id = id) (htext : row.metadata = text)
    (hentry : entry E db' row = .ok f) : f.metadata = m := by
  obtain ⟨value, n, hvalue, hn, rfl⟩ := entry_ok hentry
  rw [htext] at hvalue
  have hread := annotation_read hm h.dumped hvalue hn
  show { n with collections := db'.memberships row.id } = m
  rw [hread, hid, h.memberships, hkeys.sorted]

/-- The catalog has taken over a companion: it has the metadata of the companion at a revision that
is not lower, and does not refuse to replace the companion. -/
def Absorbs (E : CatalogLibraries) (db : CatalogTables) (key : Bytes) (j : Companion) : Prop :=
  ∃ row ∈ db.files, row.key = key ∧ j.revision ≤ row.revision ∧ ∃ f, entry E db row = .ok f ∧
    HoldsMetadata E db f.metadata j ∧ replaceable db key f j = .ok ()

/-- A file under a path, with a companion beside it, is as its row says. -/
def Current (E : CatalogLibraries) (fs : FileSystem) (db : CatalogTables) (row : FileRow)
    (relative : Bytes) (j : Companion) : Prop :=
  row.path = relative ∧ (∃ physical, inspect fs relative = .ok physical ∧
    row.stamp = physical.version) ∧ ∃ f d, entry E db row = .ok f ∧
      restoreCollections E db j = .ok (f.metadata, d)

/-- What a file that is registered again beside its own companion comes to. -/
structure TakesOver (E : CatalogLibraries) (db : CatalogTables) (row : FileRow) (relative : Bytes)
    (revision : Nat) (j : Companion) (db' : CatalogTables) (row' : FileRow) : Prop where
  found : db'.files.find row.id = some row'
  key : row'.key = row.key
  path : row'.path = relative
  revision : row'.revision = revision
  holds : ∃ f, entry E db' row' = .ok f ∧ HoldsMetadata E db' f.metadata j

/-- A file registered again with a current companion of its own takes over the companion's metadata
and revision. -/
theorem Again.takesOver {row : FileRow} {f : CatalogFile} {relative : Bytes} {physical : Physical}
    {p : Proposal} {j : Companion} (hdb : Sound E db) (hrow : row ∈ db.files)
    (hf : entry E db row = .ok f) (hphysical : inspect fs relative = .ok physical)
    (hj : sidecar E fs relative = .ok (some j)) (hkey : j.fileKey = row.key)
    (hrevision : row.revision ≤ j.revision)
    (hp : refreshed E fs db relative f none = .ok p)
    (h : Again E db row f relative physical p db') :
    (Current E fs db row relative j → ∃ row', TakesOver E db row relative row.revision j db' row') ∧
      (¬ Current E fs db row relative j →
        ∃ row', TakesOver E db row relative (row.revision + 1) j db' row') := by
  have hfields : f.key = row.key ∧ f.revision = row.revision := by
    obtain ⟨_, _, -, -, rfl⟩ := entry_ok hf
    exact ⟨rfl, rfl⟩
  simp only [refreshed, bind_ok] at hp
  obtain ⟨found, hfound, hp⟩ := hp
  obtain rfl := Except.ok.inj (hfound.symm.trans hj)
  dsimp only at hp
  rw [if_pos ⟨hkey.trans hfields.1.symm, hfields.2 ▸ hrevision⟩] at hp
  simp only [bind_ok, pure_ok, Prod.exists] at hp
  obtain ⟨m, d, hrestore, rfl⟩ := hp
  have hrestores := (restoreCollections_ok hrestore).1
  obtain ⟨hholds, hnormal, hkeys⟩ := restoreCollections_holds hdb (sidecar_valid hj) hrestore
  have hcurrent : Current E fs db row relative j ↔
      row.path = relative ∧ row.stamp = physical.version ∧ f.metadata = m := by
    constructor
    · rintro ⟨hpath, ⟨physical', hphysical', hversion⟩, f', d', hf', hrestore'⟩
      obtain rfl := Except.ok.inj (hphysical'.symm.trans hphysical)
      obtain rfl := Except.ok.inj (hf'.symm.trans hf)
      rw [hrestore, Except.ok.injEq, Prod.mk.injEq] at hrestore'
      exact ⟨hpath, hversion, hrestore'.1.symm⟩
    · rintro ⟨hpath, hversion, rfl⟩
      exact ⟨hpath, ⟨physical, hphysical, hversion⟩, f, d, hf, hrestore⟩
  cases h with
  | same hpath hversion hmetadata htables =>
      refine ⟨fun _ => ⟨row, ?_, rfl, hpath, rfl, f, ?_, ?_⟩, fun hnot => ?_⟩
      · rw [htables, hrestores.rows.1]
        exact UniqueTable.mem_iff_find.1 hrow
      · have hspares : Spares db db' row := by
          rw [htables]
          have hleaves : db.Leaves (fun _ => False) d := hrestores.leaves
          exact spares_of_leaves hleaves hrow id
        exact hspares.entry hf
      · rw [htables, hmetadata]
        exact hholds
      · exact absurd (hcurrent.2 ⟨hpath, hversion, hmetadata⟩) hnot
  | @changed mid text hchanged hmid hannotated hnew hrequired =>
      refine ⟨fun hnow => absurd (hcurrent.1 hnow) hchanged, fun _ => ?_⟩
      obtain ⟨file, hrequired⟩ := hrequired
      obtain ⟨row', hrow', hkey', hread⟩ :=
        require_row hrequired (hfields.1 ▸ hdb.files row hrow)
      have hnew' := UniqueTable.find_eq_some.1 hnew
      obtain rfl : row' = _ := UniqueTable.eq_of_column_eq (c := FileRow.key)
        (by simp [FileRow.columns]) hrow' hnew'.1 (hkey'.trans hfields.1)
      refine ⟨_, hnew, rfl, rfl, congrArg (· + 1) hfields.2, file, hread, ?_⟩
      rw [hannotated.read hnormal hkeys hnew'.2 rfl hread]
      refine hholds.mono fun key c hc => ?_
      rw [hannotated.collections]
      obtain ⟨files, -, rfl⟩ := CatalogTables.updateFile_ok hmid
      exact hc

/-- **When a newer companion is absorbed.** A file that a batch registers again beside its own
companion, which is not older than its row, takes over what the companion says. It does so at the
revision of the companion exactly when that is the revision of the row, or the next one and
something changes. -/
theorem absorbs_iff {allowed : FileSystem → FileSystem → Prop} {c c' : Catalog}
    {before after : List FileRegistration} {relative : Bytes} {row : FileRow} {j : Companion}
    {draws : Nat → KeyDraws} {files : List CatalogFile} (hc : Reached E allowed c)
    (hrow : row ∈ c.tables.files) (hj : sidecar E c.fs relative = .ok (some j))
    (hkey : j.fileKey = row.key) (hrevision : row.revision ≤ j.revision)
    (h : registerFiles E c (before ++ ⟨relative, none⟩ :: after) draws = (.ok files, c'))
    (hown : (files[before.length]?).map (·.key) = some row.key) :
    ∃ first : Batch,
      (drawn draws 0 before).foldlM (registerEntry E c.fs) ⟨c.tables, [], false, 0⟩ = .ok first ∧
      (Absorbs E c'.tables row.key j ↔ j.revision = row.revision ∨
        j.revision = row.revision + 1 ∧ ¬ Current E c.fs first.tables row relative j) := by
  have hdb := Sound.reached hc
  obtain ⟨hnodup, -, hbatch⟩ := registerFiles_ok h
  obtain ⟨first, second, last, file, mutated, hfirst, hregistration, hlast, hfile, hend⟩ :=
    registerBatch_split hbatch
  rw [hfile, Option.map_some, Option.some.injEq] at hown
  rw [List.map_append, List.map_cons, List.nodup_append] at hnodup
  obtain ⟨-, hafter, hbefore⟩ := hnodup
  obtain ⟨physical, content, hpath, hnode, hregisters⟩ := registration_ok hregistration
  have hpresent := present_of_path hpath hnode
  -- the entries before leave the row as it is
  obtain ⟨hsound, huntouched⟩ := registerEntries_untouched relative hdb
    (fun e he heq => hbefore _ (List.mem_map_of_mem (mem_drawn he)) relative
      List.mem_cons_self heq) (UniqueTable.mem_iff_find.1 hrow) hfirst
  have hkept : row ∈ first.tables.files := by
    rcases huntouched with hfind | ⟨moved, hmoved, hmovedKey, hother, hthere⟩
    · exact (UniqueTable.find_eq_some.1 hfind).1
    · obtain ⟨_, _, -, hgone | hgone, -⟩ := hregisters.again hsound
        (UniqueTable.find_eq_some.1 hmoved).1 (hown.trans hmovedKey.symm)
      · exact absurd hgone hother
      · rw [hthere] at hgone
        cases hgone
  obtain ⟨f, p, hf, -, hp, hagain⟩ := hregisters.again hsound hkept hown
  obtain ⟨hcurrent, hchanged⟩ := hagain.takesOver hsound hkept hf
    (inspect_ok.2 ⟨content, hnode⟩) hj hkey hrevision hp
  -- the entries after leave what the file has taken over
  have hfinal : ∀ {revision : Nat} {row' : FileRow},
      TakesOver E first.tables row relative revision j second.tables row' →
      (Absorbs E c'.tables row.key j ↔ j.revision ≤ revision) := by
    intro revision row' htakes
    obtain ⟨f', hf', hholds⟩ := htakes.holds
    obtain ⟨hmem, hid⟩ := UniqueTable.find_eq_some.1 htakes.found
    have hpaths : ∀ e ∈ drawn draws (before.length + 1) after, e.1.path ≠ row'.path := by
      intro e he heq
      have hlater : e.1.path ∈ after.map (·.path) := List.mem_map_of_mem (mem_drawn he)
      rw [heq, htakes.path] at hlater
      exact (List.nodup_cons.1 hafter).1 hlater
    obtain ⟨hlastRow, hlastEntry, hmore⟩ := registerEntries_spare (hregisters.sound hsound) hpaths
      (htakes.path ▸ hpresent) (UniqueTable.mem_iff_find.1 hmem) hf' hlast
    have htables : c'.tables.files = last.tables.files ∧ (entry E c'.tables row' = .ok f') ∧
        c'.tables.collections = last.tables.collections := by
      rcases hend with hend | hend
      · rw [hend]
        exact ⟨rfl, hlastEntry, rfl⟩
      · rw [CatalogTables.bump_ok hend]
        exact ⟨rfl, hlastEntry, rfl⟩
    obtain ⟨htables, hentry, hcollections⟩ := htables
    have hmem' : row' ∈ c'.tables.files := by
      rw [htables]
      exact (UniqueTable.find_eq_some.1 hlastRow).1
    have hfields : f'.revision = row'.revision := by
      obtain ⟨_, _, -, -, rfl⟩ := entry_ok hf'
      rfl
    constructor
    · rintro ⟨other, hother, hotherKey, hle, -⟩
      obtain rfl : other = row' := UniqueTable.eq_of_column_eq (c := FileRow.key)
        (by simp [FileRow.columns]) hother hmem' (hotherKey.trans htakes.key.symm)
      exact htakes.revision ▸ hle
    · intro hle
      refine ⟨row', hmem', htakes.key, htakes.revision ▸ hle, f', hentry, ?_, ?_⟩
      · exact hholds.mono fun key c hc => hcollections ▸ hmore key c hc
      · rw [replaceable, if_neg (by rw [hkey]; simp), failIf_ok, hfields, htakes.revision]
        omega
  refine ⟨first, hfirst, ?_⟩
  by_cases hnow : Current E c.fs first.tables row relative j
  · obtain ⟨row', htakes⟩ := hcurrent hnow
    rw [hfinal htakes]
    constructor
    · intro hle
      exact .inl (by omega)
    · rintro (heq | ⟨-, hnot⟩)
      · omega
      · exact absurd hnow hnot
  · obtain ⟨row', htakes⟩ := hchanged hnow
    rw [hfinal htakes]
    constructor
    · intro hle
      rcases Nat.lt_or_ge row.revision j.revision with hlt | hge
      · exact .inr ⟨by omega, hnow⟩
      · exact .inl (by omega)
    · rintro (heq | ⟨heq, -⟩)
      · omega
      · omega

/-! ## Samples -/

/-- The document of the file of the sample, at another revision. -/
def newerCompanion (revision : Nat) : Bytes :=
  match published.tables.files.rows.mapM (entry .reference published.tables) with
  | .ok [f] => (document .reference published.tables { f with revision }).toOption.getD []
  | _ => []

/-- A catalog whose file `a` has a new version of its content and another companion. -/
def overtaken (c : Catalog) (text : Bytes) : Catalog :=
  ⟨(c.fs.write (companionPath (ascii "a")) (.file (samplePhysical "k" "z" text.length) text)).write
    (ascii "a") (.file (samplePhysical "i" "x" 1) [1]), c.tables⟩

/-- The registration of the file `a` beside its companion, where it has both. -/
def refreshSample (c : Catalog) : Option (FileRow × Companion × List CatalogFile × Catalog) :=
  match c.tables.files.rows, sidecar .reference c.fs (ascii "a"),
    registerFiles .reference c [⟨ascii "a", none⟩] (fun _ => sampleDraws 6) with
  | [row], .ok (some j), (.ok files, c') =>
      if j.fileKey = row.key ∧ row.revision ≤ j.revision ∧ files.map (·.key) = [row.key] then
        some (row, j, files, c')
      else none
  | _, _, _ => none

/-- What the sample gives: a row, its companion further ahead, and the registration that follows. -/
theorem refreshSample_ok {c c' : Catalog} {row : FileRow} {j : Companion}
    {files : List CatalogFile} (h : refreshSample c = some (row, j, files, c')) :
    row ∈ c.tables.files ∧ sidecar .reference c.fs (ascii "a") = .ok (some j) ∧
      j.fileKey = row.key ∧ row.revision ≤ j.revision ∧
      registerFiles .reference c [⟨ascii "a", none⟩] (fun _ => sampleDraws 6) = (.ok files, c') ∧
      files.map (·.key) = [row.key] := by
  unfold refreshSample at h
  split at h
  · next row' j' files' c'' hrows hj hregister =>
      split at h
      · next hchecks =>
          obtain ⟨rfl, rfl, rfl, rfl⟩ : row' = row ∧ j' = j ∧ files' = files ∧ c'' = c' := by
            simpa using h
          refine ⟨?_, hj, hchecks.1, hchecks.2.1, hregister, hchecks.2.2⟩
          show row' ∈ c.tables.files.rows
          rw [hrows]
          exact List.mem_singleton_self row'
      · cases h
  · cases h

/-- The sample with a companion that others wrote is reached. -/
theorem overtaken_reached (text : Bytes) :
    Reached .reference (fun _ _ => True) (overtaken published text) :=
  reached_published.outside trivial

/-- A companion that is one revision ahead of its row is absorbed when the file has a new content.
-/
theorem absorbs_iff_sample : ∃ row j files c',
    refreshSample (overtaken published (newerCompanion 2)) = some (row, j, files, c') ∧
      j.revision = row.revision + 1 ∧ Absorbs .reference c'.tables row.key j := by
  have hsome : (refreshSample (overtaken published (newerCompanion 2))).any (fun x =>
      x.2.1.revision = x.1.revision + 1 ∧ x.1.stamp ≠ ascii "x") = true := by
    decide +kernel
  have hphysical : inspect (overtaken published (newerCompanion 2)).fs (ascii "a")
      = .ok (samplePhysical "i" "x" 1) := rfl
  have hreached := overtaken_reached (newerCompanion 2)
  generalize overtaken published (newerCompanion 2) = c at hsome hphysical hreached ⊢
  rw [Option.any_eq_true] at hsome
  obtain ⟨⟨row, j, files, c'⟩, hsample, hall⟩ := hsome
  obtain ⟨hnext, hstamp⟩ := of_decide_eq_true hall
  obtain ⟨hrow, hj, hkey, hrevision, hregister, hfiles⟩ := refreshSample_ok hsample
  have hown : (files[([] : List FileRegistration).length]?).map (·.key) = some row.key := by
    rw [← List.getElem?_map, hfiles]
    rfl
  have hregister' : registerFiles .reference c (([] : List FileRegistration) ++ [⟨ascii "a", none⟩])
      (fun _ => sampleDraws 6) = (.ok files, c') := hregister
  obtain ⟨first, -, hiff⟩ := absorbs_iff hreached hrow hj hkey hrevision hregister' hown
  refine ⟨row, j, files, c', hsample, hnext, hiff.2 (.inr ⟨hnext, ?_⟩)⟩
  rintro ⟨-, ⟨physical, hinspected, hversion⟩, -⟩
  obtain rfl := Except.ok.inj (hphysical.symm.trans hinspected)
  exact hstamp hversion

/-- A companion that is four revisions ahead of its row: the row is given its next revision, and the
companion cannot be published again. -/
theorem companion_not_absorbed : ∃ c row j files c', Reached .reference (fun _ _ => True) c ∧
    row ∈ c.tables.files ∧ sidecar .reference c.fs row.path = .ok (some j) ∧
    j.fileKey = row.key ∧ row.revision ≤ j.revision ∧
    registerFiles .reference c [⟨row.path, none⟩] (fun _ => sampleDraws 6) = (.ok files, c') ∧
    ¬ Absorbs .reference c'.tables row.key j ∧
    publication .reference c'.fs c'.tables row.key
      = .error "metadata companion belongs to a newer file revision" := by
  have hsample : (refreshSample (overtaken published (newerCompanion 5))).any (fun x =>
      x.1.path = ascii "a" ∧
      (∀ r ∈ x.2.2.2.tables.files.rows, r.revision < x.2.1.revision) ∧
      publication .reference x.2.2.2.fs x.2.2.2.tables x.1.key
        = .error "metadata companion belongs to a newer file revision") = true := by
    decide +kernel
  have hreached := overtaken_reached (newerCompanion 5)
  generalize overtaken published (newerCompanion 5) = c at hsample hreached ⊢
  rw [Option.any_eq_true] at hsample
  obtain ⟨⟨row, j, files, c'⟩, hsample, hall⟩ := hsample
  obtain ⟨hpath, hbehind, hrefused⟩ := of_decide_eq_true hall
  obtain ⟨hrow, hj, hkey, hrevision, hregister, -⟩ := refreshSample_ok hsample
  refine ⟨c, row, j, files, c', hreached, hrow, ?_, hkey, hrevision, ?_, ?_, hrefused⟩
  · rw [show row.path = ascii "a" from hpath]
    exact hj
  · rw [show row.path = ascii "a" from hpath]
    exact hregister
  · rintro ⟨row', hrow', -, hle, -⟩
    exact absurd hle (Nat.not_le.2 (hbehind row' hrow'))

end Catalog

end FileProvider
