import FileProvider.Catalog.Calls
import FileProvider.Catalog.Documents
import FileProvider.Catalog.Frame

/-!
# What a registration does

`Registers` has one constructor for each way a registration succeeds: the file is as the catalog
has it, or the row it has is written anew, or it gets a row. Whichever it is, one file at most is
touched, and a file that is touched is pending.

The lemmas go from the inner parts of the source to the whole: what an annotation writes, what a
restored collection leaves, which keys are made, and then the three ways of `registration`. Keys
that are made have the form of `newKey`, and a key that is taken from a companion is in its normal
form, which is what `Sound` says of all keys.
-/

namespace FileProvider

open Bytes Fallible

namespace Catalog

variable {E : CatalogLibraries} {fs : FileSystem} {db db' : CatalogTables}

/-! ## Paths -/

/-- A path that is accepted is stored as it was given, and its form has been checked. The root
itself, the empty path, is refused here. -/
theorem relativePath_ok {text p : Bytes} (h : relativePath E text false = .ok p) :
    p = text ∧ pathValid text = .ok () := by
  simp only [relativePath, bind_ok] at h
  obtain ⟨_, -, h⟩ := h
  rw [if_neg (by simp)] at h
  simp only [bind_ok, pure_ok] at h
  obtain ⟨_, hvalid, rfl⟩ := h
  exact ⟨rfl, hvalid⟩

/-- The place of a path in the catalog is the path itself: the parents were resolved and none of
them leads out of the root. -/
theorem path_ok {relative place : Bytes} (h : path E fs relative = .ok place) :
    place = relative ∧ relativePath E relative false = .ok relative := by
  simp only [path, bind_ok, pure_ok] at h
  obtain ⟨_, -, value, hvalue, _, -, _, -, rfl⟩ := h
  obtain ⟨rfl, -⟩ := relativePath_ok hvalue
  exact ⟨rfl, hvalue⟩

/-- Inspection reports the native state of a regular file and of nothing else. -/
theorem inspect_ok {place : Bytes} {physical : Physical} :
    inspect fs place = .ok physical ↔ ∃ content, fs.node place = some (.file physical content) := by
  unfold inspect
  split
  · next p content h => simp [h]
  · next h =>
      constructor
      · intro h'
        cases h'
      · rintro ⟨content, hnode⟩
        exact absurd hnode (h physical content)

/-! ## Annotations -/

/-- What an annotation did to the tables. -/
structure Annotated (E : CatalogLibraries) (db : CatalogTables) (id : Nat) (m : FileMetadata)
    (text : Bytes) (db' : CatalogTables) : Prop where
  dumped : E.json.dump (metadataJson { m with collections := [] }) = .ok text
  files : ∀ i, db'.files.find i =
    (db.files.find i).map fun r => if r.id = id then r.annotate m text else r
  members : db'.members.rows
    = (db.members.rows.filter fun r => r.fileId ≠ id) ++ m.collections.map (MemberRow.mk id)
  known : ∀ key ∈ m.collections, db.collections.find key ≠ none
  collections : db'.collections = db.collections
  savedFilters : db'.savedFilters = db.savedFilters
  pending : db'.pending = db.pending.orInsert id

/-- The loop that writes keywords changes the table of keywords alone. -/
theorem insertKeywords_ok {id : Nat} {keywords : List Bytes}
    (h : keywords.foldlM (fun (db : CatalogTables) term => do
      db.insertKeyword ⟨id, ← normalized E term 512 true false⟩) db = .ok db') :
    ∃ rows, db' = { db with keywords := rows } := by
  refine foldlM_relates (R := fun a b => ∃ rows, b = { a with keywords := rows })
    (fun a => ⟨a.keywords, rfl⟩) ?_ ?_ keywords h
  · rintro a b c ⟨rows, rfl⟩ ⟨rows', rfl⟩
    exact ⟨rows', rfl⟩
  · intro a term b hab
    rw [bind_ok] at hab
    obtain ⟨_, -, hab⟩ := hab
    exact CatalogTables.insertKeyword_ok hab

/-- The loop that writes fields changes the table of fields alone. -/
theorem insertFields_ok {id : Nat} {fields : List (Bytes × Bytes)}
    (h : fields.foldlM (fun (db : CatalogTables) e => db.insertField ⟨id, e.1, e.2⟩) db
      = .ok db') : ∃ rows, db' = { db with fields := rows } := by
  refine foldlM_relates (R := fun a b => ∃ rows, b = { a with fields := rows })
    (fun a => ⟨a.fields, rfl⟩) ?_ ?_ fields h
  · rintro a b c ⟨rows, rfl⟩ ⟨rows', rfl⟩
    exact ⟨rows', rfl⟩
  · intro a e b hab
    exact CatalogTables.insertField_ok hab

/-- The loop that writes memberships appends them in the order of the keys, each of which names a
collection. -/
theorem insertMembers_ok {id : Nat} {keys : List Bytes}
    (h : keys.foldlM (fun (db : CatalogTables) key => db.insertMember ⟨id, key⟩) db = .ok db') :
    ∃ members, members.rows = db.members.rows ++ keys.map (MemberRow.mk id) ∧
      (∀ key ∈ keys, db.collections.find key ≠ none) ∧ db' = { db with members } := by
  induction keys generalizing db with
  | nil =>
      rw [List.foldlM_nil, pure_ok] at h
      exact ⟨db.members, (List.append_nil _).symm, by simp, h.symm⟩
  | cons key keys ih =>
      obtain ⟨mid, hmid, h⟩ := foldlM_cons_ok.1 h
      obtain ⟨members, hrows, hcollection, rfl⟩ := CatalogTables.insertMember_ok hmid
      obtain ⟨members', hrows', hknown, rfl⟩ := ih h
      refine ⟨members', ?_, List.forall_mem_cons.2 ⟨hcollection, hknown⟩, rfl⟩
      rw [hrows', hrows, List.map_cons, List.append_assoc, List.singleton_append]

/-- A call of `annotations` that returns has done what `Annotated` says, for the text of the
document it wrote. -/
theorem annotations_ok {id : Nat} {place : Bytes} {m : FileMetadata}
    (h : annotations E db id place m = .ok db') : ∃ text, Annotated E db id m text db' := by
  simp only [annotations, bind_ok] at h
  obtain ⟨text, htext, d₁, h₁, d₂, h₂, d₃, h₃, d₄, h₄, d₅, h₅, h⟩ := h
  obtain ⟨files, hfiles, rfl⟩ := CatalogTables.updateAnnotation_ok h₁
  obtain ⟨keywords, rfl⟩ := insertKeywords_ok h₂
  obtain ⟨fields, rfl⟩ := insertFields_ok h₃
  obtain ⟨members, hmembers, hknown, rfl⟩ := insertMembers_ok h₄
  rw [CatalogTables.replaceSearch_ok h₅] at h
  rw [CatalogTables.queue_ok h]
  exact ⟨text, htext, hfiles, hmembers, hknown, rfl, rfl, rfl⟩

namespace Annotated

variable {id : Nat} {m : FileMetadata} {text : Bytes}

/-- A file whose annotations are written waits for its companion. -/
theorem queued (h : Annotated E db id m text db') : db'.Pending id := by
  unfold CatalogTables.Pending
  rw [h.pending, Table.find_orInsert]
  cases db.pending.find id <;> simp

/-- The row of an annotated file carries the annotations and their text; its key, path and native
state are as before. -/
theorem row (h : Annotated E db id m text db') {r : FileRow} (hr : db.files.find id = some r) :
    db'.files.find id = some (r.annotate m text) := by
  have hid : r.id = id := Table.key_of_find hr
  rw [h.files, hr, Option.map_some, if_pos hid]

/-- The memberships of the file are the collections of the annotation. -/
theorem memberships (h : Annotated E db id m text db') :
    db'.memberships id = Keyset.orderBy order m.collections := by
  have hrest : (db.members.rows.filter fun r => r.fileId ≠ id).filter
      (fun r => r.fileId = id) = [] := by
    rw [List.filter_filter, List.filter_eq_nil_iff]
    intro r _
    simp
  have hown : (m.collections.map (MemberRow.mk id)).filter (fun r => r.fileId = id)
      = m.collections.map (MemberRow.mk id) := by
    rw [List.filter_eq_self]
    intro r hr
    obtain ⟨key, -, rfl⟩ := List.mem_map.1 hr
    exact decide_eq_true rfl
  unfold CatalogTables.memberships
  rw [h.members, List.filter_append, hrest, hown, List.nil_append, List.map_map]
  exact congrArg _ (List.map_id _)

/-- Annotating a file changes what is recorded of that file only. -/
theorem leaves (h : Annotated E db id m text db') : db.Leaves (· = id) db' where
  files i hi := by
    rw [h.files]
    cases hr : db.files.find i with
    | none => rfl
    | some r =>
        have hid : r.id = i := Table.key_of_find hr
        rw [Option.map_some, if_neg (hid ▸ hi)]
  memberships i hi := by
    refine CatalogTables.memberships_congr ?_
    have hown : (m.collections.map (MemberRow.mk id)).filter (fun r => r.fileId = i) = [] := by
      rw [List.filter_eq_nil_iff]
      intro r hr
      obtain ⟨key, -, rfl⟩ := List.mem_map.1 hr
      simpa using Ne.symm hi
    rw [h.members, List.filter_append, hown, List.append_nil, List.filter_filter]
    refine List.filter_congr fun r _ => ?_
    by_cases hr : r.fileId = i
    · simp [hr, hi]
    · simp [hr]
  pending i hi := by
    rw [h.pending, Table.find_orInsert, if_neg (by simpa using Ne.symm hi), Option.or_none]
  collections key row hrow := by rw [h.collections]; exact hrow

/-- Annotating keeps the rows of files with their keys: no file comes or goes. -/
theorem rows (h : Annotated E db id m text db') {row : FileRow} (hrow : row ∈ db'.files) :
    ∃ r ∈ db.files, r.key = row.key := by
  rw [UniqueTable.mem_iff_find, h.files] at hrow
  obtain ⟨r, hr, hrow⟩ := Option.map_eq_some_iff.1 hrow
  refine ⟨r, (UniqueTable.find_eq_some.1 hr).1, ?_⟩
  rw [← hrow]
  split
  · rfl
  · rfl

/-- Annotating keeps the references between the tables. -/
theorem references (h : Annotated E db id m text db') (hdb : db.References) :
    db'.References := by
  intro r hr
  rw [h.collections]
  have hmem : r ∈ (db.members.rows.filter fun r => r.fileId ≠ id)
      ++ m.collections.map (MemberRow.mk id) := h.members ▸ hr
  rcases List.mem_append.1 hmem with hr | hr
  · exact hdb r (List.mem_of_mem_filter hr)
  · obtain ⟨key, hkey, rfl⟩ := List.mem_map.1 hr
    exact h.known key hkey

end Annotated

/-! ## Restored collections -/

/-- Tables that differ in collections that were made. -/
def Restores (db db' : CatalogTables) : Prop :=
  ∃ collections, db' = { db with collections } ∧
    ∀ key row, db.collections.find key = some row → collections.find key = some row

namespace Restores

/-- Nothing is restored where no collection is missing. -/
theorem refl (db : CatalogTables) : Restores db db := ⟨db.collections, rfl, fun _ _ h => h⟩

/-- Collections restored in two passes are restored in one. -/
theorem trans {db'' : CatalogTables} (h : Restores db db') (h' : Restores db' db'') :
    Restores db db'' := by
  obtain ⟨mid, rfl, hmid⟩ := h
  obtain ⟨collections, rfl, hcollections⟩ := h'
  exact ⟨collections, rfl, fun key row hrow => hcollections key row (hmid key row hrow)⟩

/-- Restoring collections changes what is recorded of no file. -/
theorem leaves {ids : Nat → Prop} (h : Restores db db') : db.Leaves ids db' := by
  obtain ⟨collections, rfl, hcollections⟩ := h
  exact ⟨fun _ _ => rfl, fun _ _ => rfl, fun _ _ => rfl, hcollections⟩

/-- Restoring collections keeps the rows of files and their memberships as they are. -/
theorem rows (h : Restores db db') :
    db'.files = db.files ∧ ∀ i, db'.memberships i = db.memberships i := by
  obtain ⟨collections, rfl, -⟩ := h
  exact ⟨rfl, fun _ => rfl⟩

/-- Restoring collections keeps the references: a collection is added and none is taken away. -/
theorem references (h : Restores db db') (hdb : db.References) : db'.References := by
  obtain ⟨collections, rfl, hcollections⟩ := h
  intro m hm hnone
  obtain ⟨row, hrow⟩ := Option.ne_none_iff_exists'.1 (hdb m hm)
  have hnone' : collections.find m.collectionKey = none := hnone
  rw [hcollections _ row hrow] at hnone'
  cases hnone'

end Restores

/-- One round of the loop restores a collection or finds it there. -/
theorem restoreCollection_restores {state state' : CatalogTables × List (Bytes × Bytes)}
    {c : FileCollection} (h : restoreCollection E state c = .ok state') :
    Restores state.1 state'.1 := by
  simp only [restoreCollection, bind_ok] at h
  obtain ⟨folded, -, h⟩ := h
  split at h
  · rw [pure_ok] at h
    rw [← h]
    exact .refl _
  · simp only [bind_ok, pure_ok] at h
    obtain ⟨_, -, db, hdb, rfl⟩ := h
    have hleaves : state.1.Leaves (fun _ => False) db := .insertCollection hdb
    obtain ⟨collections, -, rfl⟩ := CatalogTables.insertCollection_ok hdb
    exact ⟨collections, rfl, hleaves.collections⟩

/-- The whole loop restores collections, and the metadata it hands on are the companion's with the
collections as the catalog names them. -/
theorem restoreCollections_ok {j : Companion} {m : FileMetadata}
    (h : restoreCollections E db j = .ok (m, db')) : Restores db db' ∧
      ∃ collections, normalizeMetadata E { j.metadata with collections } = .ok m := by
  simp only [restoreCollections, bind_ok, pure_ok, Prod.exists, Prod.mk.injEq] at h
  obtain ⟨d, remap, hfold, collections, -, m', hm, rfl, rfl⟩ := h
  refine ⟨?_, collections, hm⟩
  exact foldlM_relates (R := fun a b : CatalogTables × List (Bytes × Bytes) => Restores a.1 b.1)
    (fun a => .refl a.1) .trans (fun _ _ _ hab => restoreCollection_restores hab) _ hfold

/-! ## Rows -/

/-- What a row is read as: its document decodes, and the file has its metadata with the memberships
of the tables. -/
theorem entry_ok {r : FileRow} {f : CatalogFile} (h : entry E db r = .ok f) :
    ∃ j m, E.json.parseText r.metadata = .ok j ∧ parseMetadata E j = .ok m ∧
      f = ⟨r.key, r.id, r.revision, r.path, r.size, r.modified, r.stamp,
        { m with collections := db.memberships r.id }, db.pending.find r.id ≠ none⟩ := by
  simp only [entry, bind_ok, pure_ok] at h
  obtain ⟨j, hj, m, hm, rfl⟩ := h
  exact ⟨j, m, hj, hm, rfl⟩

/-- A file that is found has a row, and is what the row says. -/
theorem find_ok {value : Bytes} {byPath : Bool} {f : CatalogFile}
    (h : find E db value byPath = .ok (some f)) : ∃ r ∈ db.files,
      (if byPath = true then r.path else r.key) = value ∧ entry E db r = .ok f := by
  unfold find at h
  split at h
  · cases h
  · next r hr =>
      simp only [bind_ok, pure_ok, Option.some.injEq] at h
      obtain ⟨f, hf, rfl⟩ := h
      cases byPath with
      | true =>
          obtain ⟨hmem, hpath⟩ := (UniqueTable.findBy_eq_some (by simp [FileRow.columns])).1 hr
          exact ⟨r, hmem, hpath, hf⟩
      | false =>
          obtain ⟨hmem, hkey⟩ := (UniqueTable.findBy_eq_some (by simp [FileRow.columns])).1 hr
          exact ⟨r, hmem, hkey, hf⟩

/-- Where a path finds no entry, no row has this path. -/
theorem find_none {value : Bytes} (h : find E db value true = .ok none) :
    ∀ r ∈ db.files, r.path ≠ value := by
  unfold find at h
  split at h
  · next hr => exact UniqueTable.findBy_eq_none.1 hr
  · simp only [bind_ok, pure_ok] at h
    obtain ⟨_, -, h⟩ := h
    cases h

/-- A required entry is read from the row of its key. -/
theorem require_ok {key : Bytes} {f : CatalogFile} (h : require E db key = .ok f) :
    ∃ r ∈ db.files, normalized E key 128 false true = .ok r.key ∧ entry E db r = .ok f := by
  simp only [require, bind_ok, orFail_ok] at h
  obtain ⟨value, hvalue, found, hfound, rfl⟩ := h
  obtain ⟨r, hr, hkey, hentry⟩ := find_ok hfound
  have hkey : r.key = value := hkey
  exact ⟨r, hr, hkey ▸ hvalue, hentry⟩

/-- The file a registration finds has a row under its path, or a row whose path has vanished. -/
theorem registered_ok {relative : Bytes} {physical : Physical} {f : CatalogFile}
    (h : registered E fs db relative physical = .ok (some f)) : ∃ r ∈ db.files,
      entry E db r = .ok f ∧ (r.path = relative ∨
        (∀ s ∈ db.files, s.path ≠ relative) ∧ ∃ s ∈ db.files, s.identity = physical.identity ∧
          present E fs s.path = .ok false ∧ normalized E s.key 128 false true = .ok r.key) := by
  simp only [registered, bind_ok] at h
  obtain ⟨found, hfound, h⟩ := h
  cases found with
  | some f' =>
      rw [pure_ok, Option.some.injEq] at h
      obtain rfl := h
      obtain ⟨r, hr, hpath, hentry⟩ := find_ok hfound
      exact ⟨r, hr, hentry, .inl hpath⟩
  | none =>
      dsimp only at h
      split at h
      · cases h
      · next s hs =>
          simp only [bind_ok, failIf_ok, pure_ok, Option.some.injEq] at h
          obtain ⟨there, hthere, _, hfalse, f', hf', rfl⟩ := h
          obtain ⟨hmem, hidentity⟩ :=
            (UniqueTable.findBy_eq_some (by simp [FileRow.columns])).1 hs
          obtain ⟨r, hr, hkey, hentry⟩ := require_ok hf'
          have hthere' : present E fs s.path = .ok false := by
            rw [hthere, Bool.eq_false_iff.2 hfalse]
          exact ⟨r, hr, hentry, .inr ⟨find_none hfound, s, hmem, hidentity, hthere', hkey⟩⟩

/-! ## Keys -/

/-- A row of `collections` whose texts are in normal form, with the folded one of its name. -/
structure CollectionValid (E : CatalogLibraries) (row : CollectionRow) : Prop where
  normal : CollectionNormal E ⟨row.key, row.name⟩
  folded : normalized E row.name 512 true false = .ok row.folded

/-- The keys of files are of the form `newKey` makes, and the texts of collections are in normal
form. -/
structure Sound (E : CatalogLibraries) (db : CatalogTables) : Prop where
  files : ∀ r ∈ db.files, fileKeyValid r.key = true
  collections : ∀ row ∈ db.collections, CollectionValid E row

/-- Hexadecimal texts consist of the sixteen lower-case digits. -/
theorem digit_of_mem_hex {s : Bytes} {b : UInt8} (h : b ∈ hex s) :
    b ∈ ascii "0123456789abcdef" := by
  obtain ⟨x, -, hb⟩ := List.mem_flatMap.1 h
  have hdigit : ∀ n, n < 16 → (if n < 10 then (48 + n).toUInt8 else (87 + n).toUInt8)
      ∈ ascii "0123456789abcdef" := by decide
  have hx := x.toNat_lt
  rcases List.mem_pair.1 hb with rfl | rfl
  · exact hdigit _ (by omega)
  · exact hdigit _ (by omega)

/-- Each byte takes two hexadecimal digits. -/
theorem length_hex (s : Bytes) : (hex s).length = 2 * s.length := by
  induction s with
  | nil => rfl
  | cons b s ih =>
      rw [hex, List.flatMap_cons, List.length_append, ← hex, ih, List.length_cons]
      show 2 + 2 * s.length = _
      omega

/-- A key drawn for a file has the form that keys are checked for. -/
theorem fileKeyValid_newKey (random : Fin 16 → UInt8) :
    fileKeyValid (newKey random "file-") = true := by
  have hdrop : (newKey random "file-").drop 5 = hex (List.ofFn random) := rfl
  have hlength : (newKey random "file-").length = 37 := by
    show (ascii "file-" ++ hex (List.ofFn random)).length = 37
    rw [List.length_append, length_hex, List.length_ofFn]
    rfl
  have hprefix : (ascii "file-").isPrefixOf (newKey random "file-") = true :=
    List.isPrefixOf_iff_prefix.2 (List.prefix_append _ _)
  rw [fileKeyValid, hdrop, hlength, hprefix]
  simp only [decide_true, Bool.true_and, List.all_eq_true, decide_eq_true_eq]
  exact fun b hb => digit_of_mem_hex hb

/-- Annotating keeps the tables sound, as the metadata it stores are normal. -/
theorem Annotated.sound {id : Nat} {m : FileMetadata} {text : Bytes}
    (h : Annotated E db id m text db') (hdb : Sound E db) : Sound E db' := by
  refine ⟨fun row hrow => ?_, fun row hrow => ?_⟩
  · obtain ⟨r, hr, hkey⟩ := h.rows hrow
    exact hkey ▸ hdb.files r hr
  · exact hdb.collections row (h.collections ▸ hrow)

/-- The letters keys are made of. -/
def keyLetters : Bytes := ascii "abcdefghijklmnopqrstuvwxyz-0123456789"

/-- A text of such letters is its own normal form. They are ASCII, none of them is a space or a
terminator, and the Unicode map is the identity on ASCII, so that every step of the normal form does
nothing. -/
theorem normalized_letters {s : Bytes} {maximum : Nat} (hletters : ∀ b ∈ s, b ∈ keyLetters)
    (hne : s ≠ []) (hlength : s.length ≤ maximum) :
    normalized E s maximum false true = .ok s := by
  have hascii : ∀ b ∈ keyLetters, b < 128 ∧ b ≠ 0 ∧ b ∉ [32, 9, 13, 10] := by decide +kernel
  have hnul : (0 : UInt8) ∉ s := fun h0 => (hascii 0 (hletters 0 h0)).2.1 rfl
  have hmap : E.unicode.map false s = some s :=
    E.unicode.map_ascii s fun b hb => (hascii b (hletters b hb)).1
  have hspace : ¬ (s.all fun c => c ∈ [32, 9, 13, 10]) = true := by
    intro hall
    cases s with
    | nil => exact hne rfl
    | cons b s =>
        have hb := List.mem_cons_self (a := b) (l := s)
        exact (hascii b (hletters b hb)).2.2 (by simpa using List.all_eq_true.1 hall b hb)
  simp only [normalized, bind_ok, failIf_ok, orFail_ok, pure_ok]
  refine ⟨(), ?_, s, hmap, (), by omega, (), fun h => hspace h.2, rfl⟩
  rintro (hlong | h0 | ⟨-, hnil⟩)
  · omega
  · exact hnul h0
  · exact hne hnil

/-- A valid key is its own normal form. -/
theorem normalized_fileKey {key : Bytes} (h : fileKeyValid key = true) :
    normalized E key 128 false true = .ok key := by
  simp only [fileKeyValid, Bool.and_eq_true, decide_eq_true_eq, List.all_eq_true] at h
  obtain ⟨⟨hlength, hprefix⟩, hdigits⟩ := h
  have hsplit : key = ascii "file-" ++ key.drop 5 := by
    obtain ⟨rest, rfl⟩ := List.isPrefixOf_iff_prefix.1 hprefix
    rfl
  have hparts : (∀ b ∈ ascii "file-", b ∈ keyLetters) ∧
      ∀ b ∈ ascii "0123456789abcdef", b ∈ keyLetters := by decide +kernel
  refine normalized_letters (fun b hb => ?_) ?_ (by omega)
  · rw [hsplit] at hb
    rcases List.mem_append.1 hb with hb | hb
    · exact hparts.1 b hb
    · exact hparts.2 b (hdigits b hb)
  · rintro rfl
    cases hlength

/-- A key that is made is its own normal form. -/
theorem normalized_newKey (random : Fin 16 → UInt8) {kind : String}
    (hkind : ∀ b ∈ ascii kind, b ∈ keyLetters) (hlength : (ascii kind).length ≤ 96) :
    normalized E (newKey random kind) 128 false true = .ok (newKey random kind) := by
  have hdigits : ∀ b ∈ ascii "0123456789abcdef", b ∈ keyLetters := by decide +kernel
  have hsize : (newKey random kind).length = (ascii kind).length + 32 := by
    show (ascii kind ++ hex (List.ofFn random)).length = _
    rw [List.length_append, length_hex, List.length_ofFn]
  refine normalized_letters (fun b hb => ?_) ?_ (by omega)
  · rcases List.mem_append.1 (show b ∈ ascii kind ++ hex (List.ofFn random) from hb) with hb | hb
    · exact hkind b hb
    · exact hdigits b (digit_of_mem_hex hb)
  · intro hnil
    rw [hnil, List.length_nil] at hsize
    omega

/-- The key of a collection that is made is its own normal form. -/
theorem normalized_collectionKey (random : Fin 16 → UInt8) :
    normalized E (newKey random "collection-") 128 false true
      = .ok (newKey random "collection-") :=
  normalized_newKey random (by decide +kernel) (by decide)

/-- A row that is found by a valid key has that key. -/
theorem require_row {key : Bytes} {f : CatalogFile} (h : require E db key = .ok f)
    (hkey : fileKeyValid key = true) : ∃ r ∈ db.files, r.key = key ∧ entry E db r = .ok f := by
  obtain ⟨r, hr, hnormal, hentry⟩ := require_ok h
  rw [normalized_fileKey hkey] at hnormal
  exact ⟨r, hr, (Except.ok.inj hnormal).symm, hentry⟩

/-! ## The ways of a registration -/

/-- What a file takes over has its key, and its revision is the next. -/
theorem refreshed_ok {relative : Bytes} {f : CatalogFile} {explicit : Option FileMetadata}
    {p : Proposal} (h : refreshed E fs db relative f explicit = .ok p) :
    Restores db p.tables ∧ p.key = f.key ∧ p.revision = f.revision + 1 := by
  unfold refreshed at h
  split at h
  · simp only [bind_ok, pure_ok] at h
    obtain ⟨m, -, rfl⟩ := h
    exact ⟨.refl db, rfl, rfl⟩
  · rw [bind_ok] at h
    obtain ⟨found, -, h⟩ := h
    split at h
    · rw [pure_ok] at h
      subst h
      exact ⟨.refl db, rfl, rfl⟩
    · split at h
      · simp only [bind_ok, pure_ok, Prod.exists] at h
        obtain ⟨m, d, hrestore, rfl⟩ := h
        exact ⟨(restoreCollections_ok hrestore).1, rfl, rfl⟩
      · rw [pure_ok] at h
        subst h
        exact ⟨.refl db, rfl, rfl⟩

/-- A companion that is read has passed the checks of its members. -/
theorem companion_valid {place : Bytes} {j : Companion} (h : companion E fs place = .ok j) :
    CompanionValid E j := by
  simp only [companion, bind_ok] at h
  obtain ⟨text, -, value, -, h⟩ := h
  exact companionOf_valid h

/-- A companion found beside a file has passed the checks of its members. -/
theorem sidecar_valid {relative : Bytes} {j : Companion}
    (h : sidecar E fs relative = .ok (some j)) : CompanionValid E j := by
  unfold sidecar at h
  split at h
  · cases h
  · simp only [bind_ok, pure_ok, Option.some.injEq] at h
    obtain ⟨j', hj, rfl⟩ := h
    exact companion_valid hj

/-- A file that is new gets a key of the form `newKey` makes. The key is that of the companion, if
it is free and valid, and is made otherwise. -/
theorem adopted_ok {relative : Bytes} {explicit : Option FileMetadata} {draws : KeyDraws}
    {p : Proposal} (h : adopted E fs db relative explicit draws = .ok p) :
    Restores db p.tables ∧ fileKeyValid p.key = true := by
  unfold adopted at h
  split at h
  · simp only [bind_ok, pure_ok] at h
    obtain ⟨m, -, rfl⟩ := h
    exact ⟨.refl db, fileKeyValid_newKey _⟩
  · rw [bind_ok] at h
    obtain ⟨found, hfound, h⟩ := h
    split at h
    · rw [pure_ok] at h
      subst h
      exact ⟨.refl db, fileKeyValid_newKey _⟩
    · simp only [bind_ok, Prod.exists] at h
      obtain ⟨m, d, hrestore, h⟩ := h
      split at h
      · rw [pure_ok] at h
        subst h
        exact ⟨(restoreCollections_ok hrestore).1, fileKeyValid_newKey _⟩
      · rw [pure_ok] at h
        subst h
        exact ⟨(restoreCollections_ok hrestore).1, (sidecar_valid hfound).fileKey⟩

/-- The end of a registration that wrote something. -/
structure Described (E : CatalogLibraries) (mid : CatalogTables) (id : Nat) (p : Proposal)
    (file : CatalogFile) (db' : CatalogTables) : Prop where
  annotated : ∃ text, Annotated E mid id p.metadata text db'
  required : require E db' p.key = .ok file
  limited : ∃ text, document E db' file = .ok text ∧ text.length ≤ maximumMetadataBytes

/-- The document of a file is handed on when it is within the limit of metadata, unchanged. -/
theorem limitedDocument_ok {f : CatalogFile} {message : String} {text : Bytes} :
    limitedDocument E db f message = .ok text ↔
      document E db f = .ok text ∧ text.length ≤ maximumMetadataBytes := by
  simp only [limitedDocument, bind_ok, failIf_ok, not_lt, pure_ok]
  constructor
  · rintro ⟨text', htext, _, hlength, rfl⟩
    exact ⟨htext, hlength⟩
  · rintro ⟨htext, hlength⟩
    exact ⟨text, htext, (), hlength, rfl⟩

/-- A call of `described` that returns has done what `Described` says, and reports a mutation. -/
theorem described_ok {mid : CatalogTables} {id : Nat} {relative : Bytes} {p : Proposal}
    {file : CatalogFile} {mutated : Bool}
    (h : described E mid id relative p = .ok (file, mutated, db')) :
    Described E mid id p file db' ∧ mutated = true := by
  simp only [described, bind_ok, pure_ok, Prod.mk.injEq] at h
  obtain ⟨d, hannotated, f, hrequire, text, hlimited, rfl, rfl, rfl⟩ := h
  exact ⟨⟨annotations_ok hannotated, hrequire, text, limitedDocument_ok.1 hlimited⟩, rfl⟩

/-- The ways in which a file is registered. -/
inductive Registers (E : CatalogLibraries) (fs : FileSystem) (db : CatalogTables)
    (r : FileRegistration) (draws : KeyDraws) (physical : Physical) :
    CatalogFile → Bool → CatalogTables → Prop where
  | unchanged {f : CatalogFile} {p : Proposal} :
      registered E fs db r.path physical = .ok (some f) →
      refreshed E fs db r.path f r.metadata = .ok p →
      f.path = r.path → f.contentVersion = physical.version → f.metadata = p.metadata →
      Registers E fs db r draws physical f false p.tables
  | refreshed {f file : CatalogFile} {p : Proposal} {mid db' : CatalogTables} :
      registered E fs db r.path physical = .ok (some f) →
      Catalog.refreshed E fs db r.path f r.metadata = .ok p →
      ¬ (f.path = r.path ∧ f.contentVersion = physical.version ∧ f.metadata = p.metadata) →
      p.tables.updateFile physical p.revision r.path f.index = .ok mid →
      Described E mid f.index p file db' →
      Registers E fs db r draws physical file true db'
  | added {file : CatalogFile} {p : Proposal} {id : Nat} {mid db' : CatalogTables} :
      registered E fs db r.path physical = .ok none →
      adopted E fs db r.path r.metadata draws = .ok p →
      p.tables.insertFile physical p.revision p.key r.path = .ok (id, mid) →
      Described E mid id p file db' →
      Registers E fs db r draws physical file true db'

/-- What a registration that succeeded found and did. -/
theorem registration_ok {r : FileRegistration} {draws : KeyDraws} {file : CatalogFile}
    {mutated : Bool} (h : registration E fs db r draws = .ok (file, mutated, db')) :
    ∃ physical content, path E fs r.path = .ok r.path ∧
      fs.node r.path = some (.file physical content) ∧
      Registers E fs db r draws physical file mutated db' := by
  simp only [registration, bind_ok] at h
  obtain ⟨relative, hrelative, place, hplace, physical, hphysical, found, hfound, h⟩ := h
  obtain ⟨rfl, -⟩ := relativePath_ok hrelative
  obtain ⟨rfl, -⟩ := path_ok hplace
  obtain ⟨content, hnode⟩ := inspect_ok.1 hphysical
  refine ⟨physical, content, hplace, hnode, ?_⟩
  cases found with
  | some f =>
      simp only [bind_ok] at h
      obtain ⟨p, hp, h⟩ := h
      split at h
      · next hsame =>
          rw [pure_ok] at h
          cases h
          exact .unchanged hfound hp hsame.1 hsame.2.1 hsame.2.2
      · next hchanged =>
          rw [bind_ok] at h
          obtain ⟨mid, hmid, h⟩ := h
          obtain ⟨hdescribed, rfl⟩ := described_ok h
          exact .refreshed hfound hp hchanged hmid hdescribed
  | none =>
      simp only [bind_ok, Prod.exists] at h
      obtain ⟨p, hp, id, mid, hmid, h⟩ := h
      obtain ⟨hdescribed, rfl⟩ := described_ok h
      exact .added hfound hp hmid hdescribed

/-! ## Keys stay sound -/

/-- A valid collection is added to sound tables without harm. -/
theorem insertCollection_sound {row : CollectionRow} (hdb : Sound E db)
    (hrow : CollectionValid E row) (h : db.insertCollection row = .ok db') : Sound E db' := by
  obtain ⟨collections, hcollections, rfl⟩ := CatalogTables.insertCollection_ok h
  refine ⟨hdb.files, fun row' hrow' => ?_⟩
  rcases (UniqueTable.mem_insert hcollections).1 hrow' with hrow' | rfl
  · exact hdb.collections row' hrow'
  · exact hrow

/-- A round of the loop keeps the tables sound when the companion's collection is normal. -/
theorem restoreCollection_sound {state state' : CatalogTables × List (Bytes × Bytes)}
    {c : FileCollection} (hc : CollectionNormal E c) (hdb : Sound E state.1)
    (h : restoreCollection E state c = .ok state') :
    Sound E state'.1 := by
  simp only [restoreCollection, bind_ok] at h
  obtain ⟨folded, hfolded, h⟩ := h
  split at h
  · rw [pure_ok] at h
    rwa [← h]
  · simp only [bind_ok, pure_ok] at h
    obtain ⟨_, -, db, hinsert, rfl⟩ := h
    exact insertCollection_sound hdb ⟨hc, hfolded⟩ hinsert

/-- The loop over the collections of a valid companion keeps the tables sound. -/
theorem restoreCollections_sound {j : Companion} {m : FileMetadata} (hdb : Sound E db)
    (hj : CompanionValid E j) (h : restoreCollections E db j = .ok (m, db')) : Sound E db' := by
  simp only [restoreCollections, bind_ok, pure_ok, Prod.exists, Prod.mk.injEq] at h
  obtain ⟨d, remap, hfold, -, -, -, -, -, rfl⟩ := h
  exact foldlM_preserves_mem (motive := fun s : CatalogTables × List (Bytes × Bytes) => Sound E s.1)
    (fun c hc _ _ hs hstep => restoreCollection_sound (hj.normal c hc) hs hstep) hdb hfold

/-- Refreshing a known file from its companion keeps the tables sound, whatever is asked for.
Collections may be restored, whose texts the companion has in their normal form; the keys of files
are left. -/
theorem refreshed_sound {relative : Bytes} {f : CatalogFile} {explicit : Option FileMetadata}
    {p : Proposal} (hdb : Sound E db) (h : refreshed E fs db relative f explicit = .ok p) :
    Sound E p.tables := by
  unfold refreshed at h
  split at h
  · simp only [bind_ok, pure_ok] at h
    obtain ⟨m, -, rfl⟩ := h
    exact hdb
  · rw [bind_ok] at h
    obtain ⟨found, hfound, h⟩ := h
    split at h
    · rw [pure_ok] at h
      subst h
      exact hdb
    · split at h
      · simp only [bind_ok, pure_ok, Prod.exists] at h
        obtain ⟨m, d, hrestore, rfl⟩ := h
        exact restoreCollections_sound hdb (sidecar_valid hfound) hrestore
      · rw [pure_ok] at h
        subst h
        exact hdb

/-- Adopting an unknown file, with its companion or without, keeps the tables sound. Collections may
be restored, whose texts are in their normal form, and no key is written yet. -/
theorem adopted_sound {relative : Bytes} {explicit : Option FileMetadata} {draws : KeyDraws}
    {p : Proposal} (hdb : Sound E db) (h : adopted E fs db relative explicit draws = .ok p) :
    Sound E p.tables := by
  unfold adopted at h
  split at h
  · simp only [bind_ok, pure_ok] at h
    obtain ⟨m, -, rfl⟩ := h
    exact hdb
  · rw [bind_ok] at h
    obtain ⟨found, hfound, h⟩ := h
    split at h
    · rw [pure_ok] at h
      subst h
      exact hdb
    · simp only [bind_ok, Prod.exists] at h
      obtain ⟨m, d, hrestore, h⟩ := h
      have hd := restoreCollections_sound hdb (sidecar_valid hfound) hrestore
      split at h
      · rw [pure_ok] at h
        subst h
        exact hd
      · rw [pure_ok] at h
        subst h
        exact hd

/-! ## What a registration leaves -/

namespace Described

variable {mid : CatalogTables} {id : Nat} {p : Proposal} {file : CatalogFile}

/-- Describing a file changes what is recorded of that file only. -/
theorem leaves (h : Described E mid id p file db') : mid.Leaves (· = id) db' := by
  obtain ⟨text, hannotated⟩ := h.annotated
  exact hannotated.leaves

/-- A described file waits for its companion. -/
theorem queued (h : Described E mid id p file db') : db'.Pending id := by
  obtain ⟨text, hannotated⟩ := h.annotated
  exact hannotated.queued

/-- Describing a file keeps the references between the tables. -/
theorem references (h : Described E mid id p file db') (hmid : mid.References) :
    db'.References := by
  obtain ⟨text, hannotated⟩ := h.annotated
  exact hannotated.references hmid

/-- Describing a file keeps the tables sound. -/
theorem sound (h : Described E mid id p file db') (hmid : Sound E mid) : Sound E db' := by
  obtain ⟨text, hannotated⟩ := h.annotated
  exact hannotated.sound hmid

end Described

/-- The file a registration touches: one that was not there, or the one of the path, or one whose
path has vanished. -/
def Touches (E : CatalogLibraries) (fs : FileSystem) (db : CatalogTables) (path : Bytes)
    (i : Nat) : Prop :=
  ∀ row, db.files.find i = some row → row.path = path ∨ ∃ s ∈ db.files,
    normalized E s.key 128 false true = .ok row.key ∧ present E fs s.path = .ok false

namespace Registers

variable {r : FileRegistration} {draws : KeyDraws} {physical : Physical} {file : CatalogFile}
  {mutated : Bool}

/-- A registration touches one file at most, and a file it touches is pending. Touching is writing
its row anew or inserting it, and both are followed by the insertion into the queue. -/
theorem leaves (h : Registers E fs db r draws physical file mutated db') :
    db.Leaves (fun _ => False) db' ∨
      ∃ i, db.Leaves (· = i) db' ∧ db'.Pending i ∧ Touches E fs db r.path i := by
  cases h with
  | unchanged _ hp =>
      obtain ⟨hrestores, -⟩ := refreshed_ok hp
      exact .inl hrestores.leaves
  | @refreshed f _ _ _ _ hf hp _ hmid hdescribed =>
      obtain ⟨hrestores, -⟩ := refreshed_ok hp
      obtain ⟨row, hrow, hentry, hway⟩ := registered_ok hf
      obtain ⟨_, _, -, -, rfl⟩ := entry_ok hentry
      have hleaves := (hrestores.leaves.trans (.updateFile hmid)).trans hdescribed.leaves
      refine .inr ⟨row.id, hleaves, hdescribed.queued, fun row' hrow' => ?_⟩
      obtain rfl : row' = row := Option.some.inj (hrow'.symm.trans
        (UniqueTable.mem_iff_find.1 hrow))
      rcases hway with hpath | ⟨-, s, hs, -, hpresent, hkey⟩
      · exact .inl hpath
      · exact .inr ⟨s, hs, hkey, hpresent⟩
  | @added _ p id _ _ _ hp hmid hdescribed =>
      obtain ⟨hrestores, -⟩ := adopted_ok hp
      have hleaves := (hrestores.leaves.trans (.insertFile hmid)).trans hdescribed.leaves
      refine .inr ⟨id, hleaves, hdescribed.queued, fun row hrow => ?_⟩
      obtain ⟨files, hfiles, -⟩ := CatalogTables.insertFile_ok hmid
      obtain ⟨collections, htables, -⟩ := hrestores
      have hfree : db.files.find id = none := by
        rw [htables] at hfiles
        exact (UniqueTable.find_insert hfiles).1
      rw [hfree] at hrow
      cases hrow

/-- A registration changes what is recorded only of files that then wait for their companions. -/
theorem queues (h : Registers E fs db r draws physical file mutated db') :
    db.Leaves db'.Pending db' := by
  rcases h.leaves with hnothing | ⟨i, hleaves, hqueued, -⟩
  · exact hnothing.mono fun _ hfalse => hfalse.elim
  · exact hleaves.mono fun _ hi => hi ▸ hqueued

/-- A registration keeps the references between the tables. -/
theorem references (h : Registers E fs db r draws physical file mutated db')
    (hdb : db.References) : db'.References := by
  cases h with
  | unchanged _ hp => exact (refreshed_ok hp).1.references hdb
  | refreshed _ hp _ hmid hdescribed =>
      refine hdescribed.references ?_
      obtain ⟨files, -, rfl⟩ := CatalogTables.updateFile_ok hmid
      exact (refreshed_ok hp).1.references hdb
  | added _ hp hmid hdescribed =>
      refine hdescribed.references ?_
      obtain ⟨files, -, rfl⟩ := CatalogTables.insertFile_ok hmid
      exact (adopted_ok hp).1.references hdb

/-- A registration keeps the tables sound, on whichever of its three ways it went. The key that is
written is the one that was found, that of the companion or a new one, and each of them is valid. -/
theorem sound (h : Registers E fs db r draws physical file mutated db') (hdb : Sound E db) :
    Sound E db' := by
  cases h with
  | unchanged _ hp => exact refreshed_sound hdb hp
  | refreshed _ hp _ hmid hdescribed =>
      refine hdescribed.sound ⟨?_, ?_⟩
      · obtain ⟨files, hfiles, rfl⟩ := CatalogTables.updateFile_ok hmid
        intro row hrow
        obtain ⟨row', hrow', rfl⟩ := (UniqueTable.mem_modify hfiles).1 hrow
        have hvalid := (refreshed_sound hdb hp).files row' hrow'
        split
        · exact hvalid
        · exact hvalid
      · obtain ⟨files, -, rfl⟩ := CatalogTables.updateFile_ok hmid
        exact (refreshed_sound hdb hp).collections
  | added _ hp hmid hdescribed =>
      refine hdescribed.sound ⟨?_, ?_⟩
      · obtain ⟨files, hfiles, rfl⟩ := CatalogTables.insertFile_ok hmid
        intro row hrow
        rcases (UniqueTable.mem_insert hfiles).1 hrow with hrow | rfl
        · exact (adopted_sound hdb hp).files row hrow
        · exact (adopted_ok hp).2
      · obtain ⟨files, -, rfl⟩ := CatalogTables.insertFile_ok hmid
        exact (adopted_sound hdb hp).collections

end Registers

end Catalog

end FileProvider
