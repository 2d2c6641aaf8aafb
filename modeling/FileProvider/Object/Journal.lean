import FileProvider.Object.Migration

/-!
# The journal lists every revision once

`JournalInvariant` is what holds of the journal of a package of any age: its rows are numbered in
the order they stand in, each names a stored revision under that revision's session, and from
schema 4 on no revision is without a row. Rows are only ever appended (`JournalGrows`), so that a
reader who follows the sequence numbers while the package changes under it collects the journal
from where it started: nothing twice, and nothing left out once a page comes back empty.

The pages are those of a listing that is keyed by the sequence number. The reader is a step relation
of its own, in which the package takes steps between the pages, and what the reader has collected is
compared with the journal as it is at the end.
-/

namespace FileProvider

open Bytes Fallible Impl Relation

variable {P : Platform} {m : Impl} {db db' : ObjectTables} {container : Bytes}

/-! ## The invariant -/

/-- What holds of the journal. -/
structure JournalInvariant (db : ObjectTables) : Prop where
  named : ∀ j ∈ db.objectJournal, ∃ r, db.revisions.find j.id = some r ∧
    r.sessionKey = j.sessionKey
  complete : 4 ≤ db.userVersion → ∀ id, db.revisions.find id ≠ none →
    db.objectJournal.find id ≠ none
  ascending : Keyset.Ascending (·.sequence) db.objectJournal.rows
  numbered : ∀ j ∈ db.objectJournal, 0 < j.sequence ∧ j.sequence ≤ db.objectJournalSequence
  older : db.userVersion < 4 → db.objectJournal.rows = []

/-- The journal and the revisions of a package, as they grow. -/
structure JournalGrows (db db' : ObjectTables) : Prop where
  rows : ∃ more, db'.objectJournal.rows = db.objectJournal.rows ++ more
  revisions : ∀ id r, db.revisions.find id = some r → db'.revisions.find id = some r
  version : db.userVersion ≤ db'.userVersion

namespace JournalGrows

/-- A journal grows into itself. -/
theorem refl (db : ObjectTables) : JournalGrows db db where
  rows := ⟨[], (List.append_nil _).symm⟩
  revisions _ _ h := h
  version := le_rfl

/-- Growing is transitive: rows are only appended. -/
theorem trans {db'' : ObjectTables} (h : JournalGrows db db') (h' : JournalGrows db' db'') :
    JournalGrows db db'' where
  rows := by
    obtain ⟨more, hmore⟩ := h.rows
    obtain ⟨more', hmore'⟩ := h'.rows
    exact ⟨more ++ more', by rw [hmore', hmore, List.append_assoc]⟩
  revisions id r hr := h'.revisions id r (h.revisions id r hr)
  version := h.version.trans h'.version

/-- A journal that is left as it is grows. -/
theorem of_eq (hrevisions : db'.revisions = db.revisions)
    (hjournal : db'.objectJournal = db.objectJournal)
    (hversion : db.userVersion ≤ db'.userVersion) : JournalGrows db db' where
  rows := ⟨[], by rw [hjournal, List.append_nil]⟩
  revisions _ _ h := by rwa [hrevisions]
  version := hversion

end JournalGrows

/-- Moving the head of an object writes the objects and their index. -/
theorem updateHead_rest {head : Nat} {path key : Bytes} {deleted : Bool}
    (h : db.updateHead head path deleted key = .ok db') :
    db' = { db with objects := db'.objects, currentIndex := db'.currentIndex } := by
  simp only [ObjectTables.updateHead, bind_ok] at h
  obtain ⟨-, -, h⟩ := h
  split at h
  · obtain rfl := pure_ok.1 h
    rfl
  · simp only [bind_ok, pure_ok] at h
    obtain ⟨-, -, rfl⟩ := h
    unfold ObjectTables.publishIndex
    split
    · split <;> rfl
    · rfl

namespace JournalInvariant

/-- Rows of one number are one row. -/
theorem row_unique (h : JournalInvariant db) {j j' : ObjectJournalRow} (hj : j ∈ db.objectJournal)
    (hj' : j' ∈ db.objectJournal) (heq : j.sequence = j'.sequence) : j = j' :=
  List.inj_on_of_nodup_map h.ascending.nodup_keys hj hj' heq

/-- The journal of a created package satisfies the invariant. -/
theorem created (schema : Nat) (container : Bytes) :
    JournalInvariant (.created schema container) where
  named _ hj := absurd hj (Table.not_mem_empty _)
  complete _ _ h := absurd rfl h
  ascending := .nil
  numbered _ hj := absurd hj (Table.not_mem_empty _)
  older _ := rfl

/-- The invariant is about the revisions and the journal. -/
theorem congr (h : JournalInvariant db) (hrevisions : db'.revisions = db.revisions)
    (hjournal : db'.objectJournal = db.objectJournal)
    (hsequence : db'.objectJournalSequence = db.objectJournalSequence)
    (hversion : db'.userVersion = db.userVersion) : JournalInvariant db' where
  named := by rw [hjournal, hrevisions]; exact h.named
  complete := by rw [hversion, hjournal, hrevisions]; exact h.complete
  ascending := by rw [hjournal]; exact h.ascending
  numbered := by rw [hjournal, hsequence]; exact h.numbered
  older := by rw [hversion, hjournal]; exact h.older

/-- A revision is inserted together with its row. The trigger writes the row with the next number,
so that it is behind all rows that are there. -/
theorem insertRevision (h : JournalInvariant db) {row : RevisionRow}
    (hins : db.insertRevision row = .ok db') : JournalInvariant db' ∧ JournalGrows db db' := by
  obtain ⟨-, -, -, -, hrow, hjournals, hdb⟩ := ObjectTables.insertRevision_ok hins
  obtain ⟨hfresh, hfind⟩ := Table.find_insert hrow
  have hversion : db'.userVersion = db.userVersion := by rw [hdb]
  have hkept : ∀ id r, db.revisions.find id = some r → db'.revisions.find id = some r := by
    intro id r hr
    rw [hfind, if_neg, hr]
    rintro rfl
    rw [hfresh] at hr
    cases hr
  rcases Nat.lt_or_ge db.userVersion 4 with hv | hv
  · obtain ⟨hjournal, hsequence⟩ := hjournals.skip hv
    have hempty := h.older hv
    refine ⟨?_, ⟨⟨[], by rw [hjournal, List.append_nil]⟩, hkept, hversion.ge⟩⟩
    exact {
      named := fun j hj => by
        rw [Table.mem_def, hjournal, hempty] at hj
        cases hj
      complete := fun hge => by omega
      ascending := by rw [hjournal]; exact h.ascending
      numbered := by rw [hjournal, hsequence]; exact h.numbered
      older := fun _ => by rw [hjournal, hempty] }
  · obtain ⟨hjournal, hsequence⟩ := hjournals.append hv
    have hrows := Table.rows_insert hjournal
    refine ⟨?_, ⟨⟨_, hrows⟩, hkept, hversion.ge⟩⟩
    exact {
      named := fun j hj => by
        rcases (Table.mem_insert hjournal).1 hj with hj | rfl
        · obtain ⟨r, hr, hsession⟩ := h.named j hj
          exact ⟨r, hkept _ _ hr, hsession⟩
        · refine ⟨row, ?_, rfl⟩
          rw [hfind]
          exact if_pos rfl
      complete := fun _ id hid => by
        rw [(Table.find_insert hjournal).2]
        split
        · exact Option.some_ne_none _
        · next hne =>
            have hother : row.id ≠ id := hne
            rw [hfind, if_neg hother] at hid
            exact h.complete hv id hid
      ascending := by
        rw [hrows]
        refine List.pairwise_append.2 ⟨h.ascending, List.pairwise_singleton _ _, ?_⟩
        intro j hj new hnew
        obtain rfl := List.mem_singleton.1 hnew
        have hle := (h.numbered j hj).2
        show j.sequence < db.objectJournalSequence + 1
        omega
      numbered := fun j hj => by
        rcases (Table.mem_insert hjournal).1 hj with hj | rfl
        · have hj := h.numbered j hj
          omega
        · show 0 < db.objectJournalSequence + 1 ∧
            db.objectJournalSequence + 1 ≤ db'.objectJournalSequence
          omega
      older := fun hlt => by omega }

/-- Each statement keeps the invariant, and lets the journal only grow. Only the insertion of a
revision writes to the journal, and every other statement leaves it and the revisions. -/
theorem statement (h : JournalInvariant db) (hs : Statement db db') :
    JournalInvariant db' ∧ JournalGrows db db' := by
  cases hs with
  | session hins =>
      obtain ⟨-, sessions, -, rfl⟩ := ObjectTables.insertSession_ok hins
      exact ⟨h.congr rfl rfl rfl rfl, .of_eq rfl rfl le_rfl⟩
  | workSession hins =>
      obtain ⟨-, workSessions, -, rfl⟩ := ObjectTables.insertWorkSession_ok hins
      exact ⟨h.congr rfl rfl rfl rfl, .of_eq rfl rfl le_rfl⟩
  | ended hended =>
      obtain rfl := ObjectTables.setEnded_ok hended
      exact ⟨h.congr rfl rfl rfl rfl, .of_eq rfl rfl le_rfl⟩
  | object hins =>
      obtain ⟨-, -, -, objects, -, rfl⟩ := ObjectTables.insertObject_ok hins
      exact ⟨h.congr rfl rfl rfl rfl, .of_eq rfl rfl le_rfl⟩
  | chunks hstores =>
      rw [hstores.rest]
      exact ⟨h.congr rfl rfl rfl rfl, .of_eq rfl rfl le_rfl⟩
  | revision hins => exact h.insertRevision hins
  | raw hins =>
      rw [(ObjectTables.insertRaw_ok hins).2]
      exact ⟨h.congr rfl rfl rfl rfl, .of_eq rfl rfl le_rfl⟩
  | part hins =>
      rw [(ObjectTables.insertRevisionChunk_ok hins).2.2.2]
      exact ⟨h.congr rfl rfl rfl rfl, .of_eq rfl rfl le_rfl⟩
  | head _ hupdate =>
      rw [updateHead_rest hupdate]
      exact ⟨h.congr rfl rfl rfl rfl, .of_eq rfl rfl le_rfl⟩

/-- So do several statements, by induction on them. -/
theorem statements (h : JournalInvariant db) (hs : ReflTransGen Statement db db') :
    JournalInvariant db' ∧ JournalGrows db db' := by
  induction hs with
  | refl => exact ⟨h, .refl db⟩
  | tail _ hstep ih =>
      obtain ⟨hnext, hgrows⟩ := ih.1.statement hstep
      exact ⟨hnext, ih.2.trans hgrows⟩

/-- The backfill lists the revisions in the order it reads them. Below schema 4 the journal is
filled from the revisions, each with the next number, and from it on nothing is done. -/
theorem migrate (h : JournalInvariant db) (hm : db.migrate container = .ok db') :
    JournalInvariant db' ∧ JournalGrows db db' := by
  have hmig := migrate_ok hm
  have hrevisions : db'.revisions = db.revisions := by rw [hmig.kept]
  rcases Nat.lt_or_ge db.userVersion 4 with hv | hv
  · obtain ⟨hrows, hsequence⟩ := hmig.journal hv (h.older hv)
    have hversion := hmig.version
    have hperm : (Keyset.orderBy (·.atNs) db.revisions.rows).Perm db.revisions.rows :=
      Keyset.orderBy_perm _
    have hids := journalRows_ids db.objectJournalSequence
      (Keyset.orderBy (·.atNs) db.revisions.rows)
    have hnumbers := journalRows_sequences db.objectJournalSequence
      (Keyset.orderBy (·.atNs) db.revisions.rows)
    rw [← hrows] at hids hnumbers
    refine ⟨?_, ⟨db'.objectJournal.rows, by rw [h.older hv, List.nil_append]⟩,
      fun id r hr => ?_, by omega⟩
    · exact {
        named := fun j hj => by
          have hmem := List.mem_map_of_mem (f := fun j => (j.id, j.sessionKey)) hj
          rw [hids] at hmem
          obtain ⟨r, hr, heq⟩ := List.mem_map.1 hmem
          obtain ⟨hid, hsession⟩ := Prod.mk.inj heq
          refine ⟨r, ?_, hsession⟩
          rw [← hid, hrevisions]
          exact Table.mem_iff_find.1 (hperm.mem_iff.1 hr)
        complete := fun _ id hid => by
          rw [hrevisions] at hid
          obtain ⟨r, hr⟩ := Option.ne_none_iff_exists'.1 hid
          have hmem := List.mem_map_of_mem (f := fun r : RevisionRow => (r.id, r.sessionKey))
            (hperm.mem_iff.2 (Table.mem_of_find hr))
          rw [← hids] at hmem
          obtain ⟨j, hj, heq⟩ := List.mem_map.1 hmem
          have hkey : j.id = id := (Prod.mk.inj heq).1.trans (Table.key_of_find hr)
          rw [← hkey, Table.mem_iff_find.1 hj]
          exact Option.some_ne_none _
        ascending := by
          have hlt : (db'.objectJournal.rows.map (·.sequence)).Pairwise (· < ·) :=
            hnumbers ▸ List.pairwise_lt_range'
          exact List.pairwise_map.1 hlt
        numbered := fun j hj => by
          have hmem := List.mem_map_of_mem (f := (·.sequence)) hj
          rw [hnumbers, List.mem_range'_1, hperm.length_eq] at hmem
          rw [hsequence]
          omega
        older := fun hlt => by omega }
    · rwa [hrevisions]
  · obtain ⟨-, -, hjournal, hsequence⟩ := hmig.filled hv
    have hversion := hmig.version
    refine ⟨?_, .of_eq hrevisions hjournal (by omega)⟩
    exact {
      named := by rw [hjournal, hrevisions]; exact h.named
      complete := fun _ => by rw [hjournal, hrevisions]; exact h.complete hv
      ascending := by rw [hjournal]; exact h.ascending
      numbered := by rw [hjournal, hsequence]; exact h.numbered
      older := fun hlt => by omega }

/-- The calls of the stores keep the invariant. -/
theorem step {σ τ : Package} {e : Package.Event} (h : JournalInvariant σ.tables)
    (hs : Package.Step P σ e τ) : JournalInvariant τ.tables ∧ JournalGrows σ.tables τ.tables := by
  cases hs with
  | start m call hm => exact ⟨h, .refl _⟩
  | commit hrun =>
      have hstatements := (Call.run_changes hrun).lift' id fun _ _ hc => hc.statements
      exact h.statements hstatements
  | fail => exact ⟨h, .refl _⟩

/-- A run of the stores keeps the invariant, and the journal grows. -/
theorem run {σ τ : Package} {events : List Package.Event} (h : JournalInvariant σ.tables)
    (hrun : Run (Package.Step P) σ events τ) :
    JournalInvariant τ.tables ∧ JournalGrows σ.tables τ.tables := by
  induction hrun with
  | nil => exact ⟨h, .refl _⟩
  | cons hstep _ ih =>
      obtain ⟨hnext, hgrows⟩ := h.step hstep
      obtain ⟨hlast, hrest⟩ := ih hnext
      exact ⟨hlast, hgrows.trans hrest⟩

end JournalInvariant

/-- Every package has the invariant, however old it is. -/
theorem Evolves.journalInvariant (h : Evolves P container db) : JournalInvariant db := by
  induction h with
  | created schema _ _ => exact .created schema container
  | older _ _ hstatements _ ih => exact (ih.statements hstatements).1
  | migrated _ hm ih => exact (ih.migrate hm).1
  | used _ _ hrun ih => exact (ih.run hrun).1

/-! ## Pages -/

/-- The entry of a row under the filters of a query. -/
def journalListed (objectKey sessionKey : Bytes) (db : ObjectTables) (j : ObjectJournalRow) :
    Option ObjectJournalEntry :=
  if ObjectJournalQuery.selects ⟨0, 0, objectKey, sessionKey⟩ j then
    (db.revisions.find j.id).map (ObjectStore.journalEntry j)
  else none

/-- The listing the pages of the journal are cut from. -/
def journalListing (objectKey sessionKey : Bytes) (db : ObjectTables) :
    List ObjectJournalEntry :=
  db.objectJournal.rows.filterMap (journalListed objectKey sessionKey db)

/-- A row is listed when the query selects it, with the revision it is about. -/
theorem journalListed_eq_some {objectKey sessionKey : Bytes} {j : ObjectJournalRow}
    {e : ObjectJournalEntry} : journalListed objectKey sessionKey db j = some e ↔
      ObjectJournalQuery.selects ⟨0, 0, objectKey, sessionKey⟩ j ∧
        ∃ r, db.revisions.find j.id = some r ∧ ObjectStore.journalEntry j r = e := by
  rw [journalListed, Option.ite_none_right_eq_some, Option.map_eq_some_iff]

/-- The listing consists of the selected rows with their revisions. -/
theorem mem_journalListing {objectKey sessionKey : Bytes} {e : ObjectJournalEntry} :
    e ∈ journalListing objectKey sessionKey db ↔ ∃ j ∈ db.objectJournal,
      ObjectJournalQuery.selects ⟨0, 0, objectKey, sessionKey⟩ j ∧
        ∃ r, db.revisions.find j.id = some r ∧ ObjectStore.journalEntry j r = e := by
  simp only [journalListing, List.mem_filterMap, journalListed_eq_some]
  exact Iff.rfl

namespace JournalInvariant

variable {objectKey sessionKey : Bytes}

variable (objectKey sessionKey) in
/-- The listing is in the order of the sequence. -/
theorem ascending_listing (h : JournalInvariant db) :
    Keyset.Ascending (·.sequence) (journalListing objectKey sessionKey db) := by
  refine List.Pairwise.filterMap _ (fun j j' hlt e he e' he' => ?_) h.ascending
  obtain ⟨-, r, -, rfl⟩ := journalListed_eq_some.1 he
  obtain ⟨-, r', -, rfl⟩ := journalListed_eq_some.1 he'
  exact Int.ofNat_lt.2 hlt

/-- A page of the journal is a page of the listing. The rows past the cursor are filtered and
ordered in the source, and filtering and cutting come in either order. -/
theorem journal_ok (h : JournalInvariant db) {after : Int} {limit : Nat}
    {rows : List ObjectJournalEntry}
    (hpage : ObjectStore.journal m db ⟨after, limit, objectKey, sessionKey⟩ = .ok rows) :
    limit ≠ 0 ∧
      rows = Keyset.page (·.sequence) (journalListing objectKey sessionKey db) after limit := by
  simp only [ObjectStore.journal, bind_ok, failIf_ok, not_or, pure_ok] at hpage
  obtain ⟨-, ⟨-, hlimit, -⟩, -, -, -, -, -, -, rfl⟩ := hpage
  refine ⟨hlimit, ?_⟩
  have hpast : Keyset.past (·.sequence) (journalListing objectKey sessionKey db) after
      = db.objectJournal.rows.filterMap fun j =>
        if after < j.sequence ∧ ObjectJournalQuery.selects ⟨after, limit, objectKey, sessionKey⟩ j
        then (db.revisions.find (j.objectKey, j.version)).map (ObjectStore.journalEntry j)
        else none := by
    rw [Keyset.past, journalListing, List.filter_filterMap]
    refine List.filterMap_congr fun j _ => Option.ext fun e => ?_
    rw [Option.filter_eq_some_iff, journalListed_eq_some, Option.ite_none_right_eq_some,
      Option.map_eq_some_iff, decide_eq_true_eq]
    constructor
    · rintro ⟨⟨hselects, r, hr, rfl⟩, hlt⟩
      exact ⟨⟨hlt, hselects⟩, r, hr, rfl⟩
    · rintro ⟨⟨hlt, hselects⟩, r, hr, rfl⟩
      exact ⟨⟨hselects, r, hr, rfl⟩, hlt⟩
  have hascending := (h.ascending_listing objectKey sessionKey).past after
  rw [hpast] at hascending
  rw [Keyset.page, hpast, Keyset.orderBy_eq_self hascending]

variable (objectKey sessionKey) in
/-- The listing grows at its end. -/
theorem listing_grows (h : JournalInvariant db) (hgrows : JournalGrows db db') : ∃ more,
    journalListing objectKey sessionKey db'
      = journalListing objectKey sessionKey db ++ more := by
  obtain ⟨more, hrows⟩ := hgrows.rows
  refine ⟨more.filterMap (journalListed objectKey sessionKey db'), ?_⟩
  rw [journalListing, hrows, List.filterMap_append]
  congr 1
  refine List.filterMap_congr fun j hj => ?_
  obtain ⟨r, hr, -⟩ := h.named j hj
  rw [journalListed, journalListed, hr, hgrows.revisions _ r hr]

end JournalInvariant

/-! ## Readers of the journal -/

/-- A package, and the cursor of a reader of its journal. -/
structure JournalReader where
  package : Package
  cursor : Int

namespace JournalReader

/-- One step while a reader follows the journal under its filters: the reader fetches a page, with
any limit, or the package changes in one of the ways a package does. -/
inductive Step (P : Platform) (m : Impl) (container objectKey sessionKey : Bytes) :
    JournalReader → Option (List ObjectJournalEntry) → JournalReader → Prop where
  | page {σ : Package} {cursor : Int} {limit : Nat} {rows : List ObjectJournalEntry} :
      ObjectStore.journal m σ.tables ⟨cursor, limit, objectKey, sessionKey⟩ = .ok rows →
      Step P m container objectKey sessionKey ⟨σ, cursor⟩ (some rows)
        ⟨σ, Keyset.lastKey (·.sequence) rows cursor⟩
  | used {σ τ : Package} {e : Package.Event} {cursor : Int} :
      σ.tables.userVersion = 5 → Package.Step P σ e τ →
      Step P m container objectKey sessionKey ⟨σ, cursor⟩ none ⟨τ, cursor⟩
  | older {db db' : ObjectTables} {started : List Started} {cursor : Int} :
      db.userVersion < 5 → ReflTransGen Statement db db' → Published db' →
      Step P m container objectKey sessionKey ⟨⟨db, started⟩, cursor⟩ none
        ⟨⟨db', started⟩, cursor⟩
  | migrated {db db' : ObjectTables} {started : List Started} {cursor : Int} :
      db.migrate container = .ok db' →
      Step P m container objectKey sessionKey ⟨⟨db, started⟩, cursor⟩ none
        ⟨⟨db', started⟩, cursor⟩

/-- The pages a reader fetched, one after the other. -/
def collected (events : List (Option (List ObjectJournalEntry))) : List ObjectJournalEntry :=
  (events.filterMap id).flatten

/-- What a reader has collected grows by the page it reads. -/
theorem collected_append (events : List (Option (List ObjectJournalEntry)))
    (e : Option (List ObjectJournalEntry)) :
    collected (events ++ [e]) = collected events ++ e.getD [] := by
  cases e <;> simp [collected]

/-- What a reader has collected, of the journal of the package as it is now. -/
structure Follows (objectKey sessionKey : Bytes) (start : Int)
    (events : List (Option (List ObjectJournalEntry))) (ρ : JournalReader) : Prop where
  invariant : JournalInvariant ρ.package.tables
  version : 4 ≤ ρ.package.tables.userVersion
  collects : Keyset.Collected (·.sequence)
    (journalListing objectKey sessionKey ρ.package.tables) start ρ.cursor (collected events)

/-- A change of the package leaves a reader what it collected. -/
theorem Follows.grow {objectKey sessionKey : Bytes} {start cursor : Int}
    {events : List (Option (List ObjectJournalEntry))} {σ τ : Package}
    (h : Follows objectKey sessionKey start events ⟨σ, cursor⟩)
    (hnext : JournalInvariant τ.tables ∧ JournalGrows σ.tables τ.tables) :
    Follows objectKey sessionKey start (events ++ [none]) ⟨τ, cursor⟩ := by
  obtain ⟨more, hmore⟩ := h.invariant.listing_grows objectKey sessionKey hnext.2
  have hascending := hnext.1.ascending_listing objectKey sessionKey
  refine ⟨hnext.1, h.version.trans hnext.2.version, ?_⟩
  rw [collected_append, Option.getD_none, List.append_nil]
  show Keyset.Collected _ (journalListing objectKey sessionKey τ.tables) start cursor _
  rw [hmore] at hascending ⊢
  exact h.collects.append hascending

/-- Each step keeps a reader following: it has collected what was listed up to its cursor. -/
theorem Follows.step {objectKey sessionKey : Bytes} {start : Int}
    {events : List (Option (List ObjectJournalEntry))} {ρ ρ' : JournalReader}
    {e : Option (List ObjectJournalEntry)}
    (h : Follows objectKey sessionKey start events ρ)
    (hs : Step P m container objectKey sessionKey ρ e ρ') :
    Follows objectKey sessionKey start (events ++ [e]) ρ' := by
  cases hs with
  | page hpage =>
      obtain ⟨-, hrows⟩ := h.invariant.journal_ok hpage
      refine ⟨h.invariant, h.version, ?_⟩
      rw [collected_append, Option.getD_some, hrows]
      exact h.collects.page (h.invariant.ascending_listing _ _) _
  | used _ hstep => exact h.grow (h.invariant.step hstep)
  | older _ hstatements _ => exact h.grow (h.invariant.statements hstatements)
  | migrated hm => exact h.grow (h.invariant.migrate hm)

end JournalReader

/-! ## The journal of a run -/

/-- The journal and the revisions list each other. -/
structure CompleteJournal (db : ObjectTables) : Prop where
  /-- A revision has one row, of its own session. -/
  one : ∀ r ∈ db.revisions, ∃ j ∈ db.objectJournal, j.id = r.id ∧
    j.sessionKey = r.sessionKey ∧ ∀ j' ∈ db.objectJournal, j'.id = r.id → j' = j
  /-- A row names a revision. -/
  named : ∀ j ∈ db.objectJournal, ∃ r ∈ db.revisions, r.id = j.id

/-- From schema 4 on the journal has one row for each revision. -/
theorem JournalInvariant.completeJournal (h : JournalInvariant db) (hv : 4 ≤ db.userVersion) :
    CompleteJournal db where
  one r hr := by
    have hfind := Table.mem_iff_find.1 hr
    have hne : db.revisions.find r.id ≠ none := by
      rw [hfind]
      exact Option.some_ne_none _
    obtain ⟨j, hj⟩ := Option.ne_none_iff_exists'.1 (h.complete hv r.id hne)
    have hmem := Table.mem_of_find hj
    have hid : j.id = r.id := Table.key_of_find hj
    obtain ⟨r', hr', hsession⟩ := h.named j hmem
    rw [hid, hfind, Option.some.injEq] at hr'
    subst hr'
    refine ⟨j, hmem, hid, hsession.symm, fun j' hj' hid' => ?_⟩
    exact Table.eq_of_key_eq hj' hmem (hid'.trans hid.symm)
  named j hj := by
    obtain ⟨r, hr, -⟩ := h.named j hj
    exact ⟨r, Table.mem_of_find hr, Table.key_of_find hr⟩

/-- The journal of a package of any age lists every revision once. A reader that follows it from
any cursor, with any filters and limits, while the package changes in any way, collects its
entries in ascending order and no revision twice; and when a page comes back empty, it has
collected every revision its filters select whose row is past the cursor it started with. -/
theorem Evolves.journalFollowed (h : Evolves P container db) (hv : 4 ≤ db.userVersion) :
    CompleteJournal db ∧ ∀ (m : Impl) (objectKey sessionKey : Bytes) (start : Int)
      (started : List Started) (events : List (Option (List ObjectJournalEntry)))
      (σ : Package) (cursor : Int),
      Run (JournalReader.Step P m container objectKey sessionKey) ⟨⟨db, started⟩, start⟩ events
        ⟨σ, cursor⟩ →
      Keyset.Ascending (·.sequence) (JournalReader.collected events) ∧
      ((JournalReader.collected events).map fun e => (e.objectKey, e.version)).Nodup ∧
      ∀ limit, ObjectStore.journal m σ.tables ⟨cursor, limit, objectKey, sessionKey⟩ = .ok [] →
        ∀ r ∈ σ.tables.revisions, (objectKey = [] ∨ r.objectKey = objectKey) →
          (sessionKey = [] ∨ r.sessionKey = sessionKey) →
          ∃ j ∈ σ.tables.objectJournal, j.id = r.id ∧ 0 < j.sequence ∧
            (start < j.sequence →
              ObjectStore.journalEntry j r ∈ JournalReader.collected events) := by
  have hi := h.journalInvariant
  refine ⟨hi.completeJournal hv,
    fun m objectKey sessionKey start started events σ cursor hrun => ?_⟩
  have hstart : JournalReader.Follows objectKey sessionKey start [] ⟨⟨db, started⟩, start⟩ :=
    ⟨hi, hv, .init _ _⟩
  have hfollows := hrun.history (I := JournalReader.Follows objectKey sessionKey start)
    (fun hkept hstep => hkept.step hstep) hstart
  rw [List.nil_append] at hfollows
  have hcollects := hfollows.collects
  have hascending := hcollects.ascending (hfollows.invariant.ascending_listing _ _)
  refine ⟨hascending, ?_, fun limit hpage r hr hobject hsession => ?_⟩
  · -- Rows of one revision are one row, so entries of one revision have one number.
    rw [List.nodup_iff_pairwise_ne, List.pairwise_map]
    refine hascending.imp_of_mem fun {e e'} he he' hlt heq => ?_
    obtain ⟨j, hj, -, r, hr, rfl⟩ := mem_journalListing.1 (hcollects.subset he)
    obtain ⟨j', hj', -, r', hr', rfl⟩ := mem_journalListing.1 (hcollects.subset he')
    have hids : r.id = r'.id := heq
    have hid : j.id = j'.id := by
      rw [← Table.key_of_find hr, ← Table.key_of_find hr', hids]
    rw [Table.eq_of_key_eq hj hj' hid] at hlt
    exact lt_irrefl _ hlt
  · obtain ⟨j, hj, hid, hsessionKey, -⟩ :=
      (hfollows.invariant.completeJournal hfollows.version).one r hr
    refine ⟨j, hj, hid, (hfollows.invariant.numbered j hj).1, fun hlt => ?_⟩
    obtain ⟨hlimit, hempty⟩ := hfollows.invariant.journal_ok hpage
    have hlisted : ObjectStore.journalEntry j r
        ∈ journalListing objectKey sessionKey σ.tables := by
      have hkey : j.objectKey = r.objectKey := congrArg Prod.fst hid
      refine mem_journalListing.2 ⟨j, hj, ⟨?_, ?_⟩, r, hid ▸ Table.mem_iff_find.1 hr, rfl⟩
      · rw [hkey]
        exact hobject
      · rw [hsessionKey]
        exact hsession
    exact hcollects.complete hlimit hempty.symm hlisted hlt

/-- The sample package and two pages of its journal, after which a third is empty. -/
def Package.sampleJournal :
    Fallible ((List Response × ObjectTables) × List ObjectJournalEntry × List ObjectJournalEntry) :=
  Package.exec .reference .reference Package.sampleCalls (.fresh (ascii "c")) >>= fun result =>
    ObjectStore.journal .reference result.2 ⟨0, 2, [], []⟩ >>= fun first =>
      ObjectStore.journal .reference result.2 ⟨2, 2, [], []⟩ >>= fun second =>
        ObjectStore.journal .reference result.2 ⟨3, 2, [], []⟩ >>= fun third =>
          failIf (third ≠ [] ∨ Keyset.lastKey (·.sequence) first 0 ≠ 2
              ∨ Keyset.lastKey (·.sequence) second 2 ≠ 3) "" >>= fun _ =>
            pure (result, first, second)

/-- A reader that reads the journal of the sample package from its start has all of it when a page
comes back empty. -/
theorem Evolves.journalFollowed_sample : ∃ result first second,
    Package.sampleJournal = .ok (result, first, second) ∧ CompleteJournal result.2 ∧
    Keyset.Ascending (·.sequence) (first ++ second) ∧
    ∀ r ∈ result.2.revisions, ∃ e ∈ first ++ second, (e.objectKey, e.version) = r.id := by
  have hok : Package.sampleJournal.isOk = true := by decide +kernel
  obtain ⟨⟨result, first, second⟩, h⟩ := exists_of_isOk hok
  refine ⟨result, first, second, h, ?_⟩
  simp only [Package.sampleJournal, bind_ok, pure_ok, failIf_ok, Prod.mk.injEq, not_or,
    not_not] at h
  obtain ⟨result', hexec, first', hfirst, second', hsecond, third, hthird, -,
    ⟨hempty, hcursor, hcursor'⟩, hresult, hfirst', hsecond'⟩ := h
  subst hresult hfirst' hsecond' hempty
  obtain ⟨events, hrun, -⟩ := Package.run_of_exec Package.opens_reference hexec
  have hevolves : Evolves .reference (ascii "c") result'.2 :=
    .used (.created 5 (by omega) le_rfl) rfl hrun
  have hversion : 4 ≤ result'.2.userVersion := by
    have hgrows := (JournalInvariant.run (.created 5 (ascii "c")) hrun).2.version
    exact le_trans (show 4 ≤ 5 by omega) hgrows
  have hfetch : Run (JournalReader.Step .reference .reference (ascii "c") [] [])
      ⟨⟨result'.2, []⟩, 0⟩ [some first', some second'] ⟨⟨result'.2, []⟩, 3⟩ := by
    have hstep : JournalReader.Step .reference .reference (ascii "c") [] [] ⟨⟨result'.2, []⟩, 0⟩
        _ _ := .page hfirst
    have hstep' : JournalReader.Step .reference .reference (ascii "c") [] []
        ⟨⟨result'.2, []⟩, _⟩ _ _ := .page hsecond
    rw [hcursor] at hstep
    rw [hcursor'] at hstep'
    exact .cons hstep (.cons hstep' (.nil _))
  obtain ⟨hcomplete, hreader⟩ := Evolves.journalFollowed hevolves hversion
  obtain ⟨hascending, -, hall⟩ := hreader _ _ _ _ _ _ _ _ hfetch
  have hcollected : JournalReader.collected [some first', some second'] = first' ++ second' := by
    simp [JournalReader.collected]
  rw [hcollected] at hascending hall
  refine ⟨hcomplete, hascending, fun r hr => ?_⟩
  obtain ⟨j, -, hid, hpos, hentry⟩ := hall 2 hthird r hr (.inl rfl) (.inl rfl)
  exact ⟨_, hentry (by omega), rfl⟩

end FileProvider
