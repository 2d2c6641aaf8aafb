import FileProvider.Catalog.Impl

/-!
# What the statements of a catalog leave

`Leaves ids db db'` says that the rows, the memberships and the pending entries of all files but
those of `ids` are as they were, and that the collections that were there are still there under
their names. Each statement that a registration is made of leaves all files but one, so a
registration does; what it does to that one is said by `annotations_ok`.

The first part has one lemma for each statement, which says what tables a statement that succeeds
leaves; the other modules about catalogs use these and do not look into the statements. `Leaves`
composes, and a larger set of files may be left out.
-/

namespace FileProvider

open Bytes Fallible

namespace CatalogTables

variable {db db' : CatalogTables}

/-! ## What each statement did -/

/-- The catalog's revision is raised by one, and nothing else changes. -/
theorem bump_ok (h : db.bump = .ok db') : db' = { db with revision := db.revision + 1 } := by
  simp only [bump, bind_ok, pure_ok] at h
  obtain ⟨_, -, rfl⟩ := h
  rfl

/-- A file is inserted under the next number and a key of its own, without annotations. -/
theorem insertFile_ok {physical : Physical} {revision id : Nat} {key path : Bytes}
    (h : db.insertFile physical revision key path = .ok (id, db')) :
    ∃ files, db.files.insert (.new id key path physical revision) = some files ∧
      db' = { db with files, filesSequence := id } := by
  simp only [insertFile, bind_ok, orFail_ok, pure_ok, Prod.mk.injEq] at h
  obtain ⟨_, -, _, -, _, -, _, -, _, -, files, hfiles, rfl, rfl⟩ := h
  exact ⟨files, hfiles, rfl⟩

/-- The row of a known file takes over the path, the native state and the revision. -/
theorem updateFile_ok {physical : Physical} {revision id : Nat} {path : Bytes}
    (h : db.updateFile physical revision path id = .ok db') :
    ∃ files, db.files.modify id (fun r => r.refresh path physical revision) (fun _ => rfl)
        = some files ∧ db' = { db with files } := by
  simp only [updateFile, bind_ok, orFail_ok, pure_ok] at h
  obtain ⟨_, -, _, -, _, -, _, -, files, hfiles, rfl⟩ := h
  exact ⟨files, hfiles, rfl⟩

/-- Each row of the list is raised to a new revision once; the other rows stay. -/
theorem raiseRevisions_ok {ids : List Nat} (h : db.raiseRevisions ids = .ok db') :
    ∃ files, (∀ i, files.find i =
        (db.files.find i).map fun r => if r.id ∈ ids then r.raise else r) ∧
      db' = { db with files } := by
  simp only [raiseRevisions, bind_ok, pure_ok] at h
  obtain ⟨_, -, rfl⟩ := h
  exact ⟨_, fun i => UniqueTable.find_update i, rfl⟩

/-- The row of one file takes over annotations and their text; the other rows stay. -/
theorem updateAnnotation_ok {m : FileMetadata} {text : Bytes} {id : Nat}
    (h : db.updateAnnotation m text id = .ok db') :
    ∃ files, (∀ i, files.find i =
        (db.files.find i).map fun r => if r.id = id then r.annotate m text else r) ∧
      db' = { db with files } := by
  simp only [ updateAnnotation, bind_ok, pure_ok] at h
  obtain ⟨_, -, _, -, rfl⟩ := h
  exact ⟨_, fun i => UniqueTable.find_update i, rfl⟩

/-- A keyword changes the table of keywords alone. -/
theorem insertKeyword_ok {row : KeywordRow} (h : db.insertKeyword row = .ok db') :
    ∃ keywords, db' = { db with keywords } := by
  simp only [insertKeyword, bind_ok, pure_ok] at h
  obtain ⟨_, -, keywords, -, _, -, rfl⟩ := h
  exact ⟨keywords, rfl⟩

/-- A field changes the table of fields alone. -/
theorem insertField_ok {row : FieldRow} (h : db.insertField row = .ok db') :
    ∃ fields, db' = { db with fields } := by
  simp only [insertField, bind_ok, pure_ok] at h
  obtain ⟨_, -, fields, -, _, -, rfl⟩ := h
  exact ⟨fields, rfl⟩

/-- A membership is appended for a collection that is there. -/
theorem insertMember_ok {row : MemberRow} (h : db.insertMember row = .ok db') :
    ∃ members, members.rows = db.members.rows ++ [row] ∧
      db.collections.find row.collectionKey ≠ none ∧ db' = { db with members } := by
  simp only [insertMember, bind_ok, orFail_ok, failIf_ok, not_or, pure_ok] at h
  obtain ⟨_, -, members, hmembers, _, ⟨-, hcollection⟩, rfl⟩ := h
  exact ⟨members, Table.rows_insert hmembers, hcollection, rfl⟩

/-- The files of a list are added to those that wait, each at most once. -/
theorem queue_ok {ids : List Nat} (h : db.queue ids = .ok db') :
    db' = { db with pending := ids.foldl (fun pending i => pending.orInsert i) db.pending } := by
  simp only [queue, bind_ok, pure_ok] at h
  obtain ⟨_, -, rfl⟩ := h
  rfl

/-- The search row of a file replaces the one before. -/
theorem replaceSearch_ok {row : SearchRow} (h : db.replaceSearch row = .ok db') :
    db' = { db with search := db.search.upsert row } := by
  simp only [replaceSearch, bind_ok, pure_ok] at h
  obtain ⟨_, -, rfl⟩ := h
  rfl

/-- A collection is inserted under a key and a name of its own. -/
theorem insertCollection_ok {row : CollectionRow} (h : db.insertCollection row = .ok db') :
    ∃ collections, db.collections.insert row = some collections ∧
      db' = { db with collections } := by
  simp only [insertCollection, bind_ok, orFail_ok, pure_ok] at h
  obtain ⟨_, -, collections, hcollections, rfl⟩ := h
  exact ⟨collections, hcollections, rfl⟩

/-! ## Pending entries -/

/-- A file whose companion is to be written. -/
def Pending (db : CatalogTables) (i : Nat) : Prop := db.pending.find i ≠ none

/-- Queueing a list finds what was queued before and the members of the list. -/
theorem find_foldl_orInsert (ids : List Nat) (t : Table (id : Nat → Nat)) (i : Nat) :
    (ids.foldl (fun t i => t.orInsert i) t).find i
      = (t.find i).or (if i ∈ ids then some i else none) := by
  induction ids generalizing t with
  | nil => simp
  | cons k ids ih =>
      rw [List.foldl_cons, ih, Table.find_orInsert]
      cases t.find i with
      | some => rfl
      | none =>
          by_cases hk : k = i
          · subst hk
            simp
          · simp [hk, Ne.symm hk]

/-- A file that is taken off the queue waits no more, the others as before. -/
theorem pending_dequeue {i k : Nat} : (db.dequeue i).Pending k ↔ db.Pending k ∧ k ≠ i := by
  unfold Pending dequeue
  rw [Table.find_filter]
  cases hk : db.pending.find k with
  | none => simp
  | some n =>
      obtain rfl : n = k := Table.key_of_find hk
      simp

/-! ## Memberships -/

/-- The memberships of a file are those of its rows. -/
theorem memberships_congr {i : Nat}
    (h : db'.members.rows.filter (fun m => m.fileId = i)
      = db.members.rows.filter fun m => m.fileId = i) : db'.memberships i = db.memberships i := by
  unfold memberships
  rw [h]

/-- The memberships of a file are its rows in the table of members. -/
theorem mem_memberships {i : Nat} {key : Bytes} :
    key ∈ db.memberships i ↔ ⟨i, key⟩ ∈ db.members := by
  simp only [memberships, Keyset.mem_orderBy, List.mem_map, List.mem_filter, decide_eq_true_eq]
  constructor
  · rintro ⟨m, ⟨hm, rfl⟩, rfl⟩
    exact hm
  · intro hm
    exact ⟨_, ⟨hm, rfl⟩, rfl⟩

/-- Every membership is one of a collection that is there. -/
def References (db : CatalogTables) : Prop :=
  ∀ m ∈ db.members, db.collections.find m.collectionKey ≠ none

/-! ## The frame -/

/-- All files but those of `ids` are as they were, and so are the collections that were there. -/
structure Leaves (ids : Nat → Prop) (db db' : CatalogTables) : Prop where
  files : ∀ i, ¬ ids i → db'.files.find i = db.files.find i
  memberships : ∀ i, ¬ ids i → db'.memberships i = db.memberships i
  pending : ∀ i, ¬ ids i → db'.pending.find i = db.pending.find i
  collections : ∀ key row, db.collections.find key = some row →
    db'.collections.find key = some row

namespace Leaves

variable {ids more : Nat → Prop}

/-- What two changes leave, both together leave. -/
theorem trans {db'' : CatalogTables} (h : Leaves ids db db') (h' : Leaves ids db' db'') :
    Leaves ids db db'' where
  files i hi := (h'.files i hi).trans (h.files i hi)
  memberships i hi := (h'.memberships i hi).trans (h.memberships i hi)
  pending i hi := (h'.pending i hi).trans (h.pending i hi)
  collections key row hrow := h'.collections key row (h.collections key row hrow)

/-- A change that leaves the files beside some leaves those beside more. -/
theorem mono (h : Leaves ids db db') (hids : ∀ i, ids i → more i) : Leaves more db db' where
  files i hi := h.files i fun hids' => hi (hids i hids')
  memberships i hi := h.memberships i fun hids' => hi (hids i hids')
  pending i hi := h.pending i fun hids' => hi (hids i hids')
  collections := h.collections

/-- Raising the catalog's revision changes what is recorded of no file. -/
theorem bump (h : db.bump = .ok db') : Leaves ids db db' := by
  rw [bump_ok h]
  exact ⟨fun _ _ => rfl, fun _ _ => rfl, fun _ _ => rfl, fun _ _ h => h⟩

/-- Inserting a file changes what is recorded of that file only. -/
theorem insertFile {physical : Physical} {revision id : Nat} {key path : Bytes}
    (h : db.insertFile physical revision key path = .ok (id, db')) : Leaves (· = id) db db' := by
  obtain ⟨files, hfiles, rfl⟩ := insertFile_ok h
  refine ⟨fun i hi => ?_, fun _ _ => rfl, fun _ _ => rfl, fun _ _ h => h⟩
  exact ((UniqueTable.find_insert hfiles).2 i).trans (if_neg fun heq => hi heq.symm)

/-- Updating a row changes what is recorded of its file only. -/
theorem updateFile {physical : Physical} {revision id : Nat} {path : Bytes}
    (h : db.updateFile physical revision path id = .ok db') : Leaves (· = id) db db' := by
  obtain ⟨files, hfiles, rfl⟩ := updateFile_ok h
  refine ⟨fun i hi => ?_, fun _ _ => rfl, fun _ _ => rfl, fun _ _ h => h⟩
  exact (UniqueTable.find_modify hfiles i).trans (if_neg hi)

/-- Raising rows changes what is recorded of their files only. -/
theorem raiseRevisions {list : List Nat} (h : db.raiseRevisions list = .ok db') :
    Leaves (· ∈ list) db db' := by
  obtain ⟨files, hfiles, rfl⟩ := raiseRevisions_ok h
  refine ⟨fun i hi => ?_, fun _ _ => rfl, fun _ _ => rfl, fun _ _ h => h⟩
  show files.find i = db.files.find i
  rw [hfiles i]
  cases hr : db.files.find i with
  | none => rfl
  | some r =>
      have hid : r.id = i := Table.key_of_find hr
      rw [Option.map_some, if_neg (hid ▸ hi)]

/-- Queueing changes what is recorded of the queued files only. -/
theorem queue {list : List Nat} (h : db.queue list = .ok db') : Leaves (· ∈ list) db db' := by
  rw [queue_ok h]
  refine ⟨fun _ _ => rfl, fun _ _ => rfl, fun i hi => ?_, fun _ _ h => h⟩
  show (list.foldl (fun t i => t.orInsert i) db.pending).find i = _
  rw [find_foldl_orInsert, if_neg hi, Option.or_none]

/-- A new collection changes what is recorded of no file. -/
theorem insertCollection {row : CollectionRow} (h : db.insertCollection row = .ok db') :
    Leaves ids db db' := by
  obtain ⟨collections, hcollections, rfl⟩ := insertCollection_ok h
  refine ⟨fun _ _ => rfl, fun _ _ => rfl, fun _ _ => rfl, fun key r hr => ?_⟩
  obtain ⟨hfree, hfind⟩ := UniqueTable.find_insert hcollections
  refine (hfind key).trans ((if_neg ?_).trans hr)
  rintro rfl
  rw [hfree] at hr
  cases hr

end Leaves

end CatalogTables

end FileProvider
