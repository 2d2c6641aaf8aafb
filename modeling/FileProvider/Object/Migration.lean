import FileProvider.Object.Originals

/-!
# Older schemas

A package of an older schema lacks what the later ones brought: schema 2 the documents of authors,
schema 3 the compact index and its trigger, schema 4 the work sessions, the RAW documents and the
journal with its trigger, schema 5 the ontology. A writer that opens one brings it to schema 5 in
one transaction. What the writers of the older schemas did is known by the statements they are
made of, of which the triggers are part; `Statement` is any of them, on a package of any schema.

Everything that is known of the writers of older schemas is known of `Statement`, of which their
transactions are sequences, whatever they meant by them.
-/

namespace FileProvider

open Bytes Fallible Impl Relation

variable {P : Platform} {m : Impl} {db db' : ObjectTables} {container : Bytes}

/-! ## Migration -/

namespace ObjectTables

/-- A package as a writer of an older schema, or of this one, creates it. -/
def created (schema : Nat) (container : Bytes) : ObjectTables :=
  { ObjectTables.fresh container with userVersion := schema }

variable (db : ObjectTables)

/-- `objects o JOIN revisions r ON r.object_key=o.object_key AND r.version=o.head`. -/
def headRows : List IndexRow :=
  db.objects.rows.filterMap fun o =>
    (db.revisions.find (o.objectKey, o.head)).map (indexRow o)

/-- The rows schema 3 fills its compact index with. -/
def backfillIndex : Fallible (Table IndexRow.indexKey) :=
  db.headRows.foldlM (fun t row =>
    orFail "UNIQUE constraint failed: current_index.index_key" (t.insert row)) .empty

/-- The row schema 4 adds for a session, unless it has one. The number of a row that is
ignored is spent. -/
def backfillWorkSession (db : ObjectTables) (s : SessionRow) : ObjectTables :=
  { db with
    workSessions := db.workSessions.orInsert ⟨db.workSessionsSequence + 1, s.sessionKey, []⟩
    workSessionsSequence := db.workSessionsSequence + 1 }

/-- The row schema 4 adds for a revision, unless it has one. -/
def backfillJournalRow (db : ObjectTables) (r : RevisionRow) : ObjectTables :=
  { db with
    objectJournal := db.objectJournal.orInsert
      ⟨db.objectJournalSequence + 1, r.objectKey, r.version, r.sessionKey⟩
    objectJournalSequence := db.objectJournalSequence + 1 }

/-- The step to schema 3. -/
def toSchema3 : Fallible ObjectTables :=
  if db.userVersion < 3 then do
    let currentIndex ← db.backfillIndex
    pure { db with currentIndex, userVersion := 3 }
  else pure db

/-- The step to schema 4. -/
def toSchema4 : ObjectTables :=
  if db.userVersion < 4 then
    let db := (Keyset.orderBy (·.started) db.sessions.rows).foldl backfillWorkSession db
    let db := (Keyset.orderBy (·.atNs) db.revisions.rows).foldl backfillJournalRow db
    { db with userVersion := 4 }
  else db

/-- The step to schema 5, as far as the object tables are concerned. -/
def toSchema5 : Fallible ObjectTables :=
  if db.userVersion < 5 then do
    failIf (¬ (db.currentIndex.rows.map (·.objectKey)).Nodup)
      "UNIQUE constraint failed: current_index.object_key"
    pure { db with userVersion := 5 }
  else pure db

/-- What a writer does with a package when it opens it. The columns schema 2 brought have the
defaults the rows hold already. -/
def migrate (container : Bytes) : Fallible ObjectTables := do
  failIf (db.containerKey ≠ container) "object package container mismatch"
  let db ← db.toSchema3
  db.toSchema4.toSchema5

end ObjectTables

/-! ## What a migration does -/

/-- The journal rows of some revisions, numbered after a number. -/
def journalRows : Nat → List RevisionRow → List ObjectJournalRow
  | _, [] => []
  | n, r :: l => ⟨n + 1, r.objectKey, r.version, r.sessionKey⟩ :: journalRows (n + 1) l

/-- The context rows of some sessions, numbered after a number. -/
def contextRows : Nat → List SessionRow → List WorkSessionRow
  | _, [] => []
  | n, s :: l => ⟨n + 1, s.sessionKey, []⟩ :: contextRows (n + 1) l

/-- The rows of the backfill are numbered without a gap. -/
theorem journalRows_sequences (n : Nat) (l : List RevisionRow) :
    (journalRows n l).map (·.sequence) = List.range' (n + 1) l.length := by
  induction l generalizing n with
  | nil => rfl
  | cons r l ih => simp [journalRows, ih, List.range'_succ]

/-- The rows of the backfill are about the revisions in their order. -/
theorem journalRows_ids (n : Nat) (l : List RevisionRow) :
    (journalRows n l).map (fun j => (j.id, j.sessionKey))
      = l.map fun r => (r.id, r.sessionKey) := by
  induction l generalizing n with
  | nil => rfl
  | cons r l ih =>
      rw [journalRows, List.map_cons, List.map_cons, ih]
      rfl

/-- The working sessions of the backfill are those of the sessions, with an empty context. -/
theorem contextRows_keys (n : Nat) (l : List SessionRow) :
    (contextRows n l).map (fun w => (w.sessionKey, w.context))
      = l.map fun s => (s.sessionKey, []) := by
  induction l generalizing n with
  | nil => rfl
  | cons s l ih => rw [contextRows, List.map_cons, List.map_cons, ih]

/-- An insert that finds its key free appends its row. -/
theorem rows_orInsert {ρ κ : Type} [DecidableEq κ] {key : ρ → κ} (t : Table key) (r : ρ)
    (h : t.find (key r) = none) : (t.orInsert r).rows = t.rows ++ [r] := by
  unfold Table.orInsert
  rw [dif_pos h]
  rfl

/-- The loop of the backfill appends its rows, where the journal has none of them. The induction is
on the rows: each is inserted under the next number, and none of the others has its key or its
number. -/
theorem backfillJournal_ok {l : List RevisionRow} (hids : (l.map RevisionRow.id).Nodup)
    (hnew : ∀ r ∈ l, db.objectJournal.find r.id = none) :
    ∃ j, l.foldl ObjectTables.backfillJournalRow db
        = { db with
            objectJournal := j
            objectJournalSequence := db.objectJournalSequence + l.length } ∧
      j.rows = db.objectJournal.rows ++ journalRows db.objectJournalSequence l := by
  induction l generalizing db with
  | nil => exact ⟨db.objectJournal, rfl, (List.append_nil _).symm⟩
  | cons r l ih =>
      obtain ⟨hr, hids⟩ := List.nodup_cons.1 hids
      have hfree : db.objectJournal.find r.id = none := hnew r List.mem_cons_self
      -- The rest of the revisions have other ids, so they are still free.
      have hrest : ∀ r' ∈ l, (db.backfillJournalRow r).objectJournal.find r'.id = none := by
        intro r' hr'
        show (db.objectJournal.orInsert _).find r'.id = none
        have hne : r.id ≠ r'.id := by
          intro heq
          exact hr (heq ▸ List.mem_map_of_mem hr')
        rw [Table.find_orInsert, hnew r' (List.mem_cons_of_mem _ hr')]
        exact if_neg hne
      obtain ⟨j, hfold, hrows⟩ := ih hids hrest
      refine ⟨j, ?_, ?_⟩
      · rw [List.foldl_cons, hfold, List.length_cons]
        show ({ db with
            objectJournal := j
            objectJournalSequence := db.objectJournalSequence + 1 + l.length } : ObjectTables)
          = { db with
            objectJournal := j
            objectJournalSequence := db.objectJournalSequence + (l.length + 1) }
        rw [Nat.add_assoc, Nat.add_comm 1]
      · rw [hrows]
        show (db.objectJournal.orInsert _).rows ++ journalRows (db.objectJournalSequence + 1) l
          = db.objectJournal.rows ++ journalRows db.objectJournalSequence (r :: l)
        rw [rows_orInsert db.objectJournal
          ⟨db.objectJournalSequence + 1, r.objectKey, r.version, r.sessionKey⟩ hfree,
          List.append_assoc]
        rfl

/-- The loop over the sessions appends its rows, where there are none of them. -/
theorem backfillWorkSessions_ok {l : List SessionRow}
    (hkeys : (l.map SessionRow.sessionKey).Nodup)
    (hnew : ∀ s ∈ l, db.workSessions.find s.sessionKey = none) :
    ∃ w, l.foldl ObjectTables.backfillWorkSession db
        = { db with
            workSessions := w
            workSessionsSequence := db.workSessionsSequence + l.length } ∧
      w.rows = db.workSessions.rows ++ contextRows db.workSessionsSequence l := by
  induction l generalizing db with
  | nil => exact ⟨db.workSessions, rfl, (List.append_nil _).symm⟩
  | cons s l ih =>
      obtain ⟨hs, hkeys⟩ := List.nodup_cons.1 hkeys
      have hfree : db.workSessions.find s.sessionKey = none := hnew s List.mem_cons_self
      have hrest : ∀ s' ∈ l, (db.backfillWorkSession s).workSessions.find s'.sessionKey = none := by
        intro s' hs'
        show (db.workSessions.orInsert _).find s'.sessionKey = none
        have hne : s.sessionKey ≠ s'.sessionKey := by
          intro heq
          exact hs (heq ▸ List.mem_map_of_mem hs')
        rw [Table.find_orInsert, hnew s' (List.mem_cons_of_mem _ hs')]
        exact if_neg hne
      obtain ⟨w, hfold, hrows⟩ := ih hkeys hrest
      refine ⟨w, ?_, ?_⟩
      · rw [List.foldl_cons, hfold, List.length_cons]
        show ({ db with
            workSessions := w
            workSessionsSequence := db.workSessionsSequence + 1 + l.length } : ObjectTables)
          = { db with
            workSessions := w
            workSessionsSequence := db.workSessionsSequence + (l.length + 1) }
        rw [Nat.add_assoc, Nat.add_comm 1]
      · rw [hrows]
        show (db.workSessions.orInsert _).rows ++ contextRows (db.workSessionsSequence + 1) l
          = db.workSessions.rows ++ contextRows db.workSessionsSequence (s :: l)
        rw [rows_orInsert db.workSessions ⟨db.workSessionsSequence + 1, s.sessionKey, []⟩ hfree,
          List.append_assoc]
        rfl

/-- What a migration does to the tables of a package. -/
structure Migrates (db db' : ObjectTables) : Prop where
  kept : db' = { db with
    userVersion := db'.userVersion
    currentIndex := db'.currentIndex
    workSessions := db'.workSessions
    workSessionsSequence := db'.workSessionsSequence
    objectJournal := db'.objectJournal
    objectJournalSequence := db'.objectJournalSequence }
  version : db'.userVersion = max db.userVersion 5
  index : 3 ≤ db.userVersion → db'.currentIndex = db.currentIndex
  indexed : db.userVersion < 3 → db.backfillIndex = .ok db'.currentIndex
  /-- Schema 4 and later have the contexts and the journal already. -/
  filled : 4 ≤ db.userVersion → db'.workSessions = db.workSessions ∧
    db'.workSessionsSequence = db.workSessionsSequence ∧ db'.objectJournal = db.objectJournal ∧
    db'.objectJournalSequence = db.objectJournalSequence
  contexts : db.userVersion < 4 → db.workSessions.rows = [] → db'.workSessions.rows
    = contextRows db.workSessionsSequence (Keyset.orderBy (·.started) db.sessions.rows)
  journal : db.userVersion < 4 → db.objectJournal.rows = [] →
    db'.objectJournal.rows
      = journalRows db.objectJournalSequence (Keyset.orderBy (·.atNs) db.revisions.rows) ∧
    db'.objectJournalSequence = db.objectJournalSequence + db.revisions.rows.length

/-- The backfill of the contexts writes nothing else. -/
theorem backfillWorkSessions_frame (l : List SessionRow) (db : ObjectTables) :
    ∃ w n, l.foldl ObjectTables.backfillWorkSession db
      = { db with workSessions := w, workSessionsSequence := n } := by
  induction l generalizing db with
  | nil => exact ⟨db.workSessions, db.workSessionsSequence, rfl⟩
  | cons s l ih =>
      obtain ⟨w, n, hl⟩ := ih (db.backfillWorkSession s)
      refine ⟨w, n, ?_⟩
      rw [List.foldl_cons, hl, ObjectTables.backfillWorkSession]

/-- The backfill of the journal writes nothing else. -/
theorem backfillJournal_frame (l : List RevisionRow) (db : ObjectTables) :
    ∃ j k, l.foldl ObjectTables.backfillJournalRow db
      = { db with objectJournal := j, objectJournalSequence := k } := by
  induction l generalizing db with
  | nil => exact ⟨db.objectJournal, db.objectJournalSequence, rfl⟩
  | cons r l ih =>
      obtain ⟨j, k, hl⟩ := ih (db.backfillJournalRow r)
      refine ⟨j, k, ?_⟩
      rw [List.foldl_cons, hl, ObjectTables.backfillJournalRow]

/-- The step to schema 4 writes the contexts and the journal, unless they are there. -/
theorem toSchema4_eq (db : ObjectTables) :
    (∃ w n j k, db.toSchema4 = { db with
        workSessions := w, workSessionsSequence := n, objectJournal := j,
        objectJournalSequence := k, userVersion := max db.userVersion 4 }) ∧
      (4 ≤ db.userVersion → db.toSchema4 = db) := by
  unfold ObjectTables.toSchema4
  split
  · next hv =>
      obtain ⟨w, n, hs⟩ := backfillWorkSessions_frame
        (Keyset.orderBy (·.started) db.sessions.rows) db
      obtain ⟨j, k, hr⟩ := backfillJournal_frame (Keyset.orderBy (·.atNs) db.revisions.rows)
        { db with workSessions := w, workSessionsSequence := n }
      refine ⟨⟨w, n, j, k, ?_⟩, fun hge => absurd hv (by omega)⟩
      rw [Nat.max_eq_right (by omega)]
      simp only [hs, hr]
  · next hv =>
      refine ⟨⟨db.workSessions, db.workSessionsSequence, db.objectJournal,
        db.objectJournalSequence, ?_⟩, fun _ => rfl⟩
      rw [Nat.max_eq_left (by omega)]

/-- The migration to schema 3 builds the current index and changes nothing else. -/
theorem toSchema3_ok (h : db.toSchema3 = .ok db') :
    db' = { db with currentIndex := db'.currentIndex, userVersion := db'.userVersion } ∧
      (3 ≤ db.userVersion → db' = db) ∧
      (db.userVersion < 3 → db'.userVersion = 3 ∧ db.backfillIndex = .ok db'.currentIndex) := by
  unfold ObjectTables.toSchema3 at h
  split at h
  · next hv =>
      simp only [bind_ok, pure_ok] at h
      obtain ⟨index, hindex, rfl⟩ := h
      exact ⟨rfl, fun hge => absurd hv (by omega), fun _ => ⟨rfl, hindex⟩⟩
  · next hv =>
      obtain rfl := pure_ok.1 h
      exact ⟨rfl, fun _ => rfl, fun hlt => absurd hlt hv⟩

/-- A table without rows finds nothing. -/
theorem find_of_rows_nil {ρ κ : Type} [DecidableEq κ] {key : ρ → κ} {t : Table key}
    (h : t.rows = []) (k : κ) : t.find k = none := by
  rw [Table.find_eq_none]
  intro r hr
  rw [Table.mem_def, h] at hr
  cases hr

/-- The rows the step to schema 4 fills its empty tables with. -/
theorem toSchema4_filled (hv : db.userVersion < 4) :
    (db.workSessions.rows = [] → db.toSchema4.workSessions.rows
      = contextRows db.workSessionsSequence (Keyset.orderBy (·.started) db.sessions.rows)) ∧
    (db.objectJournal.rows = [] → db.toSchema4.objectJournal.rows
      = journalRows db.objectJournalSequence (Keyset.orderBy (·.atNs) db.revisions.rows) ∧
    db.toSchema4.objectJournalSequence
      = db.objectJournalSequence + db.revisions.rows.length) := by
  obtain ⟨w, n, hsessions⟩ := backfillWorkSessions_frame
    (Keyset.orderBy (·.started) db.sessions.rows) db
  obtain ⟨j, k, hrevisions⟩ := backfillJournal_frame
    (Keyset.orderBy (·.atNs) db.revisions.rows)
    { db with workSessions := w, workSessionsSequence := n }
  have hstep : db.toSchema4 = { db with
      workSessions := w, workSessionsSequence := n, objectJournal := j,
      objectJournalSequence := k, userVersion := 4 } := by
    unfold ObjectTables.toSchema4
    rw [if_pos hv]
    simp only [hsessions, hrevisions]
  rw [hstep]
  constructor
  · intro hempty
    have hperm : (Keyset.orderBy (·.started) db.sessions.rows).Perm db.sessions.rows :=
      Keyset.orderBy_perm _
    have hkeys := hperm.map SessionRow.sessionKey
    obtain ⟨w', hfold, hrows⟩ := backfillWorkSessions_ok (hkeys.nodup_iff.2 db.sessions.nodup)
      fun s _ => find_of_rows_nil hempty s.sessionKey
    have hw : w = w' := congrArg ObjectTables.workSessions (hsessions.symm.trans hfold)
    rw [hempty, List.nil_append] at hrows
    rw [hw]
    exact hrows
  · intro hempty
    have hperm : (Keyset.orderBy (·.atNs) db.revisions.rows).Perm db.revisions.rows :=
      Keyset.orderBy_perm _
    have hids := hperm.map RevisionRow.id
    -- The contexts are filled before the journal.
    let mid : ObjectTables := { db with workSessions := w, workSessionsSequence := n }
    have hfree : ∀ r ∈ Keyset.orderBy (·.atNs) db.revisions.rows,
        mid.objectJournal.find r.id = none := fun r _ => find_of_rows_nil hempty r.id
    obtain ⟨j', hfold, hrows⟩ := backfillJournal_ok (hids.nodup_iff.2 db.revisions.nodup) hfree
    have hj : j = j' := congrArg ObjectTables.objectJournal (hrevisions.symm.trans hfold)
    have hk := congrArg ObjectTables.objectJournalSequence (hrevisions.symm.trans hfold)
    have hlen := hperm.length_eq
    rw [show mid.objectJournal.rows = [] from hempty, List.nil_append] at hrows
    refine ⟨hj ▸ hrows, ?_⟩
    rw [← hlen]
    exact hk

/-- The migration to schema 5 adds an empty table. -/
theorem toSchema5_ok (h : db.toSchema5 = .ok db') :
    db' = { db with userVersion := db'.userVersion } ∧
      db'.userVersion = max db.userVersion 5 := by
  unfold ObjectTables.toSchema5 at h
  split at h
  · next hv =>
      simp only [bind_ok, pure_ok] at h
      obtain ⟨-, -, rfl⟩ := h
      exact ⟨rfl, by show 5 = max db.userVersion 5; omega⟩
  · next hv =>
      obtain rfl := pure_ok.1 h
      exact ⟨rfl, by omega⟩

/-- A migration that succeeds has gone through the schemas one by one. What each step keeps and what
it adds is taken from its own lemma, and the cases are the schemas the package may have been in. -/
theorem migrate_ok (h : db.migrate container = .ok db') : Migrates db db' := by
  simp only [ObjectTables.migrate, bind_ok] at h
  obtain ⟨-, -, db₃, h₃, h₅⟩ := h
  obtain ⟨hkept₃, hsame₃, hindex₃⟩ := toSchema3_ok h₃
  obtain ⟨⟨w, n, j, k, h₄⟩, hsame₄⟩ := toSchema4_eq db₃
  obtain ⟨hkept₅, hv₅⟩ := toSchema5_ok h₅
  have hversion₄ : db₃.toSchema4.userVersion = max db₃.userVersion 4 := by rw [h₄]
  have hversion₃ : db₃.userVersion = max db.userVersion 3 := by
    rcases Nat.lt_or_ge db.userVersion 3 with hlt | hge
    · rw [(hindex₃ hlt).1]
      omega
    · rw [hsame₃ hge]
      omega
  have hindex : db'.currentIndex = db₃.currentIndex := by rw [hkept₅, h₄]
  have hlate : db'.workSessions = db₃.toSchema4.workSessions ∧
      db'.workSessionsSequence = db₃.toSchema4.workSessionsSequence ∧
      db'.objectJournal = db₃.toSchema4.objectJournal ∧
      db'.objectJournalSequence = db₃.toSchema4.objectJournalSequence := by
    rw [hkept₅]
    exact ⟨rfl, rfl, rfl, rfl⟩
  have hearly : db₃.workSessions = db.workSessions ∧
      db₃.workSessionsSequence = db.workSessionsSequence ∧ db₃.sessions = db.sessions ∧
      db₃.objectJournal = db.objectJournal ∧
      db₃.objectJournalSequence = db.objectJournalSequence ∧ db₃.revisions = db.revisions := by
    rw [hkept₃]
    exact ⟨rfl, rfl, rfl, rfl, rfl, rfl⟩
  obtain ⟨hw, hn, hs, hj, hk, hr⟩ := hearly
  refine {
    kept := by rw [hkept₅, h₄, hkept₃]
    version := by omega
    index := fun hge => by rw [hindex, hsame₃ hge]
    indexed := fun hlt => by rw [hindex]; exact (hindex₃ hlt).2
    filled := fun hge => ?_
    contexts := fun hlt hempty => ?_
    journal := fun hlt hempty => ?_ }
  · rw [hlate.1, hlate.2.1, hlate.2.2.1, hlate.2.2.2, hsame₄ (by omega)]
    exact ⟨hw, hn, hj, hk⟩
  · have hold : db₃.userVersion < 4 := by omega
    have hfilled := (toSchema4_filled hold).1 (by rw [hw]; exact hempty)
    rw [hn, hs] at hfilled
    rw [hlate.1]
    exact hfilled
  · have hold : db₃.userVersion < 4 := by omega
    have hfilled := (toSchema4_filled hold).2 (by rw [hj]; exact hempty)
    rw [hk, hr] at hfilled
    rw [hlate.2.2.1, hlate.2.2.2]
    exact hfilled

/-! ## Statements -/

/-- A statement of a transaction. The head of an object is moved to a revision that is there, of
which the row takes path and deletion: a publication updates the object after it inserted the
revision. -/
inductive Statement : ObjectTables → ObjectTables → Prop where
  | session {db db' : ObjectTables} {row : SessionRow} :
      db.insertSession row = .ok db' → Statement db db'
  | workSession {db db' : ObjectTables} {key context : Bytes} :
      db.insertWorkSession key context = .ok db' → Statement db db'
  | ended {db db' : ObjectTables} {key : Bytes} {ended : Int} :
      db.setEnded key ended = .ok db' → Statement db db'
  | object {db db' : ObjectTables} {key path : Bytes} {indexKey : Int} :
      db.insertObject key path = .ok (indexKey, db') → Statement db db'
  | chunks {db db' : ObjectTables} : Stores db db' → Statement db db'
  | revision {db db' : ObjectTables} {row : RevisionRow} :
      db.insertRevision row = .ok db' → Statement db db'
  | raw {db db' : ObjectTables} {row : RawRevisionRow} :
      db.insertRaw row = .ok db' → Statement db db'
  | part {db db' : ObjectTables} {row : RevisionChunkRow} :
      db.insertRevisionChunk row = .ok db' → Statement db db'
  | head {db db' : ObjectTables} {r : RevisionRow} :
      db.revisions.find (r.objectKey, r.version) = some r →
      db.updateHead r.version r.path r.deleted r.objectKey = .ok db' → Statement db db'

/-- The rows of a chunk list are inserted one by one. -/
theorem insertParts_statements {key : Bytes} {version : Nat} {parts : List Chunk} {i : Nat}
    (h : insertParts key version parts i db = .ok db') : ReflTransGen Statement db db' := by
  induction parts generalizing i db with
  | nil =>
      obtain rfl := pure_ok.1 h
      exact .refl
  | cons part parts ih =>
      simp only [insertParts, bind_ok] at h
      obtain ⟨mid, hmid, h⟩ := h
      exact .head (.part hmid) (ih h)

/-- A publication is a sequence of statements. The inserts of the revision, the document and the
chunks are followed by the move of the head, which is on a revision that is there by then. -/
theorem publish_statements {r x : ObjectRecord} {s : ObjectSession} {parts : List Chunk}
    {raw : Option Bytes} {now : Int} (h : publish P m db r s parts raw now = .ok (x, db')) :
    ReflTransGen Statement db db' := by
  simp only [publish, bind_ok, pure_ok, Prod.mk.injEq] at h
  obtain ⟨document, -, context, -, mid, hmid, rfl, rfl⟩ := h
  simp only [insertPublication, bind_ok] at hmid
  obtain ⟨db₁, h₁, db₂, h₂, db₃, h₃, h₄⟩ := hmid
  obtain ⟨-, -, -, -, hrevisions, -, -⟩ := ObjectTables.insertRevision_ok h₁
  have hraw : ReflTransGen Statement db₁ db₂ := by
    unfold insertDocument at h₂
    split at h₂
    · obtain rfl := pure_ok.1 h₂
      exact .refl
    · exact .single (.raw h₂)
  -- The revision the head is moved to is the one that was inserted first.
  let row := revisionRow ((r.stamped s now).withKey
    (validationKey P (r.stamped s now) s m.container context document))
  have hfind : db₃.revisions.find (row.objectKey, row.version) = some row := by
    have h₂₃ : db₃.revisions = db₁.revisions := by
      rw [(insertParts_ok h₃).2.2, (insertDocument_ok h₂).2]
    rw [h₂₃, (Table.find_insert hrevisions).2]
    exact if_pos rfl
  have hhead : Statement db₃ mid := .head hfind h₄
  exact ((ReflTransGen.single (.revision h₁)).trans hraw).trans
    ((insertParts_statements h₃).trans (.single hhead))

/-- Every change is a sequence of statements. -/
theorem Change.statements (h : Change P m db db') : ReflTransGen Statement db db' := by
  cases h with
  | beginSession h h' => exact .tail (.single (.session h)) (.workSession h')
  | endSession h => exact .single (.ended h)
  | create h =>
      obtain ⟨created, hins, hstores⟩ := h.insert
      exact .head (.object hins) (.head (.chunks hstores) (publish_statements h.publish))
  | revise h => exact .head (.chunks h.stores) (publish_statements h.publish)

/-! ## Packages of any age -/

/-- The packages writers of any schema can leave behind: one of them creates the package, a
transaction of an older writer is a sequence of statements that leaves no object without a head,
a writer of this schema migrates the package, and stores of this schema run their calls on it. -/
inductive Evolves (P : Platform) (container : Bytes) : ObjectTables → Prop where
  | created (schema : Nat) : 1 ≤ schema → schema ≤ 5 →
      Evolves P container (.created schema container)
  | older {db db' : ObjectTables} : Evolves P container db → db.userVersion < 5 →
      ReflTransGen Statement db db' → Published db' → Evolves P container db'
  | migrated {db db' : ObjectTables} : Evolves P container db → db.migrate container = .ok db' →
      Evolves P container db'
  | used {db db' : ObjectTables} {events : List Package.Event} {waiting : List Started} :
      Evolves P container db → db.userVersion = 5 →
      Run (Package.Step P) ⟨db, []⟩ events ⟨db', waiting⟩ → Evolves P container db'

/-- A package that is reachable from a fresh one evolves from it. -/
theorem Package.Reachable.evolves {σ : Package} (h : Package.Reachable P container σ) :
    Evolves P container σ.tables := by
  obtain ⟨events, hrun⟩ := h
  exact .used (.created 5 (by omega) le_rfl) rfl hrun

/-- Creating a package is migrating an empty one of an older schema. -/
theorem ObjectTables.migrate_created {schema : Nat} (h : schema ≤ 5) (container : Bytes) :
    (ObjectTables.created schema container).migrate container = .ok (.fresh container) := by
  unfold ObjectTables.migrate
  rw [show failIf ((ObjectTables.created schema container).containerKey ≠ container)
    "object package container mismatch" = .ok () from failIf_ok.2 fun h => h rfl]
  obtain rfl | rfl | rfl | rfl | rfl | rfl : schema = 0 ∨ schema = 1 ∨ schema = 2 ∨ schema = 3 ∨
    schema = 4 ∨ schema = 5 := by omega
  all_goals rfl

end FileProvider
