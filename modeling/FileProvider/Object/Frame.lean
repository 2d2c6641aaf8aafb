import FileProvider.Object.Validation

/-!
# What a call leaves in place

`Extends` is what no call of the store takes back: a stored revision, its RAW document, its
chunk list and the chunks stay, sessions only get their end, objects keep their index key and
their head only grows. What the validator and the readers found in a package they find in
every one that extends it. `Publishes` says everything one publication does.

The first part goes through the statements, and the second through a publication, which is a
sequence of them in a fixed order. `Publishes` is the specification of `publish` that all later
modules use.
-/

namespace FileProvider

open Bytes Fallible Impl

variable {P : Platform} {m : Impl} {db db' db'' : ObjectTables}

/-! ## Extension -/

/-- What was stored in a package is still stored in another. -/
structure Extends (db db' : ObjectTables) : Prop where
  containerKey : db'.containerKey = db.containerKey
  userVersion : db'.userVersion = db.userVersion
  sessions : ∀ k s, db.sessions.find k = some s →
    ∃ ended, db'.sessions.find k = some { s with ended }
  objects : ∀ k o, db.objects.find k = some o →
    ∃ o', db'.objects.find k = some o' ∧ o'.indexKey = o.indexKey
  revisions : ∀ id r, db.revisions.find id = some r → db'.revisions.find id = some r
  workSessions : ∀ k w, db.workSessions.find k = some w → db'.workSessions.find k = some w
  chunks : ∀ h c, db.chunks.find h = some c → db'.chunks.find h = some c
  raw : ∀ id, db.revisions.find id ≠ none →
    db'.rawRevisions.find id = db.rawRevisions.find id
  parts : ∀ k v, db.revisions.find (k, v) ≠ none → chunkRows db' k v = chunkRows db k v

namespace Extends

/-- A package extends itself. -/
theorem refl (db : ObjectTables) : Extends db db where
  containerKey := rfl
  userVersion := rfl
  sessions _ s h := ⟨s.ended, h⟩
  objects _ o h := ⟨o, h, rfl⟩
  revisions _ _ h := h
  workSessions _ _ h := h
  chunks _ _ h := h
  raw _ _ := rfl
  parts _ _ _ := rfl

/-- A revision that is stored is stored in every extension. -/
theorem revisions_ne_none (h : Extends db db') {id : Bytes × Nat}
    (hid : db.revisions.find id ≠ none) : db'.revisions.find id ≠ none := by
  obtain ⟨r, hr⟩ := Option.ne_none_iff_exists'.1 hid
  rw [h.revisions id r hr]
  exact Option.some_ne_none _

/-- Extensions compose. -/
theorem trans (h : Extends db db') (h' : Extends db' db'') : Extends db db'' where
  containerKey := h'.containerKey.trans h.containerKey
  userVersion := h'.userVersion.trans h.userVersion
  sessions k s hs := by
    obtain ⟨e, he⟩ := h.sessions k s hs
    obtain ⟨e', he'⟩ := h'.sessions k _ he
    exact ⟨e', he'⟩
  objects k o ho := by
    obtain ⟨o', ho', hi⟩ := h.objects k o ho
    obtain ⟨o'', ho'', hi'⟩ := h'.objects k o' ho'
    exact ⟨o'', ho'', hi'.trans hi⟩
  revisions id r hr := h'.revisions id r (h.revisions id r hr)
  workSessions k w hw := h'.workSessions k w (h.workSessions k w hw)
  chunks k c hc := h'.chunks k c (h.chunks k c hc)
  raw id hid := (h'.raw id (h.revisions_ne_none hid)).trans (h.raw id hid)
  parts k v hid := (h'.parts k v (h.revisions_ne_none hid)).trans (h.parts k v hid)

/-- The context of a session is read the same in every extension. -/
theorem context (h : Extends db db') {key c : Bytes} (hc : m.context db key = .ok c) :
    m.context db' key = .ok c := by
  rw [context_ok] at hc ⊢
  split
  · next hs => rwa [if_pos hs] at hc
  · next hs =>
      rw [if_neg hs] at hc
      obtain ⟨hb, row, hrow, rfl⟩ := hc
      exact ⟨hb, row, h.workSessions _ _ hrow, rfl⟩

/-- The joined row of an object's version is read the same in every extension. -/
theorem joined (h : Extends db db') {key : Bytes} {v : Nat} {x : ObjectRecord}
    (hx : joined db key v = some x) : Impl.joined db' key v = some x := by
  rw [joined_eq_some] at hx ⊢
  obtain ⟨r, o, s, hr, ho, hs, rfl⟩ := hx
  obtain ⟨o', ho', hi⟩ := h.objects _ _ ho
  obtain ⟨e, he⟩ := h.sessions _ _ hs
  exact ⟨r, o', _, h.revisions _ _ hr, ho', he, by simp [record, hi]⟩

/-- A version asked for by its number gives the same record in every extension. The head, asked for
by 0, does not. -/
theorem get (h : Extends db db') {key : Bytes} {v : Nat} {x : ObjectRecord} (hv : v ≠ 0)
    (hx : Impl.get db key v = .ok (some x)) : Impl.get db' key v = .ok (some x) := by
  rw [get_ok, versionOf_pos hv] at hx ⊢
  exact ⟨hx.1, h.joined hx.2⟩

/-- A version that is answered has its row in the table of revisions. -/
theorem revision_of_get {key : Bytes} {v : Nat} {x : ObjectRecord} (hv : v ≠ 0)
    (hx : Impl.get db key v = .ok (some x)) : db.revisions.find (key, v) ≠ none := by
  rw [get_ok, versionOf_pos hv, joined_eq_some] at hx
  obtain ⟨-, r, -, -, hr, -⟩ := hx
  rw [hr]
  exact Option.some_ne_none _

/-- A session is read the same in every extension but for its end, which may have been set since. -/
theorem getSession (h : Extends db db') {key : Bytes} {s : ObjectSession}
    (hs : Impl.getSession db key false = .ok s) :
    ∃ endedAtNs, Impl.getSession db' key false = .ok { s with endedAtNs } := by
  rw [getSession_ok] at hs
  obtain ⟨hb, row, hrow, -, rfl⟩ := hs
  obtain ⟨e, he⟩ := h.sessions _ _ hrow
  exact ⟨e, getSession_ok.2 ⟨hb, _, he, fun h => absurd h (by decide), rfl⟩⟩

/-- The RAW document of a stored revision is read the same in every extension. -/
theorem rawDocument (h : Extends db db') {key d : Bytes} {v : Nat}
    (hid : db.revisions.find (key, v) ≠ none) (hd : m.rawDocument db key v = .ok d) :
    m.rawDocument db' key v = .ok d := by
  rw [rawDocument_ok] at hd ⊢
  rwa [h.raw _ hid]

/-- The chunk list of a stored revision is read the same in every extension. -/
theorem chunkList (h : Extends db db') {key : Bytes} {v : Nat} {parts : List Chunk}
    (hid : db.revisions.find (key, v) ≠ none) (hp : Impl.chunks db key v = .ok parts) :
    Impl.chunks db' key v = .ok parts := by
  rw [chunks_ok] at hp ⊢
  rwa [h.parts _ _ hid]

/-- All the evidence of a version stays readable, with the end of its session as the one exception.
-/
theorem reads (h : Extends db db') {key : Bytes} {v : Nat} {e : Evidence} (hv : v ≠ 0)
    (he : Reads m db key v e) :
    ∃ endedAtNs, Reads m db' key v { e with session := { e.session with endedAtNs } } := by
  obtain ⟨n, hn⟩ := h.getSession he.session
  exact ⟨n, h.get hv he.record, hn, h.context he.context,
    h.rawDocument (revision_of_get hv he.record) he.raw⟩

/-- The end of a session is no part of the evidence about its revisions. -/
theorem fits {container previous : Bytes} {v : Nat} {e : Evidence}
    (he : e.Fits P container v previous) (endedAtNs : Int) :
    Evidence.Fits P container v previous
      { e with session := { e.session with endedAtNs } } :=
  ⟨he.format, he.legacy, he.version, he.parent, he.author, he.key⟩

/-- A validated history stays validated. -/
theorem validated (h : Extends db db') {key : Bytes} {v : Nat} {k : Bytes}
    (hk : Validated P m db key v k) : Validated P m db' key v k := by
  induction hk with
  | zero => exact .zero
  | @succ v previous e _ hr hf ih =>
      obtain ⟨n, hn⟩ := h.reads (by omega) hr
      exact .succ (e := { e with session := { e.session with endedAtNs := n } }) ih hn (fits hf n)

/-- The bytes of a chunk are found in every extension. -/
theorem holds (h : Extends db db') {part : Chunk} {bytes : Bytes} (hh : Holds P db part bytes) :
    Holds P db' part bytes :=
  ⟨hh.bound, h.chunks _ _ hh.stored, hh.size, hh.nonempty, hh.atMost, hh.digest⟩

/-- The content that a chunk list stands for is found in every extension. -/
theorem content (h : Extends db db') {parts : List Chunk} {content : Bytes}
    (hc : Content P db parts content) : Content P db' parts content := by
  induction hc with
  | nil => exact .nil
  | cons hfull hh _ ih => exact .cons hfull (h.holds hh) ih

/-- A record whose content is intact stays so in every extension. -/
theorem intact (h : Extends db db') {r : ObjectRecord} {parts : List Chunk}
    (hi : Intact P db r parts) : Intact P db' r parts where
  erased := hi.erased
  content hd := by
    obtain ⟨hlen, b, hb, hsize⟩ := hi.content hd
    exact ⟨hlen, b, h.content hb, hsize⟩

/-- **What the validator accepted, it accepts in every extension.** -/
theorem validate (h : Extends db db') {key : Bytes} {v : Nat} {payload : Bool}
    (hv : Impl.validate P m db key v payload = .ok true) :
    Impl.validate P m db' key v payload = .ok true := by
  rw [validate_iff] at hv ⊢
  obtain ⟨h0, hmax, ⟨k, hk⟩, hp⟩ := hv
  refine ⟨h0, hmax, ⟨k, h.validated hk⟩, fun hpay => ?_⟩
  obtain ⟨r, parts, hget, hparts, hintact⟩ := hp hpay
  exact ⟨r, parts, h.get h0 hget, h.chunkList (revision_of_get h0 hget) hparts,
    h.intact hintact⟩

end Extends

/-! ## Statements -/

namespace ObjectTables

/-- A session is inserted under a key of its own that is within the limit. -/
theorem insertSession_ok {row : SessionRow} (h : db.insertSession row = .ok db') :
    row.sessionKey.length ≤ maximumText ∧
      ∃ sessions, db.sessions.insert row = some sessions ∧ db' = { db with sessions } := by
  simp only [insertSession, bind_ok, bindTexts_ok, List.mem_cons, orFail_ok, pure_ok] at h
  obtain ⟨-, hb, sessions, hs, rfl⟩ := h
  exact ⟨hb _ (.inl rfl), sessions, hs, rfl⟩

/-- A working session is inserted for a session that is there, under the next number. -/
theorem insertWorkSession_ok {key context : Bytes}
    (h : db.insertWorkSession key context = .ok db') :
    db.sessions.find key ≠ none ∧ ∃ workSessions,
      db.workSessions.insert ⟨db.workSessionsSequence + 1, key, context⟩ = some workSessions ∧
      db' = { db with workSessions, workSessionsSequence := db.workSessionsSequence + 1 } := by
  simp only [insertWorkSession, bind_ok, failIf_ok, orFail_ok, pure_ok] at h
  obtain ⟨-, -, -, hfk, -, -, workSessions, hw, rfl⟩ := h
  exact ⟨hfk, workSessions, hw, rfl⟩

/-- Ending a session changes the end of that session alone. -/
theorem setEnded_ok {key : Bytes} {ended : Int} (h : db.setEnded key ended = .ok db') :
    db' = { db with
      sessions := db.sessions.modify key (fun s => { s with ended }) (fun _ => rfl) } := by
  simp only [setEnded, bind_ok, pure_ok] at h
  obtain ⟨-, -, rfl⟩ := h
  rfl

/-- An object is inserted under a key of its own with the next index key and no head, where its path
is free. -/
theorem insertObject_ok {key path : Bytes} {indexKey : Int}
    (h : db.insertObject key path = .ok (indexKey, db')) :
    key.length ≤ maximumText ∧ indexKey = db.objectsSequence + 1 ∧ ¬ db.livePath path ∧
      ∃ objects, db.objects.insert ⟨indexKey, key, 0, path, false⟩ = some objects ∧
        db' = { db with objects, objectsSequence := db.objectsSequence + 1 } := by
  simp only [insertObject, bind_ok, bindTexts_ok, failIf_ok, orFail_ok, pure_ok,
    Prod.mk.injEq, List.mem_cons] at h
  obtain ⟨-, hb, -, -, objects, ho, -, hlive, rfl, rfl⟩ := h
  exact ⟨hb _ (.inl rfl), rfl, hlive, objects, ho, rfl⟩

/-- A chunk is inserted under its own hash and within the size of chunks. -/
theorem insertChunk_ok {row : ChunkRow} (h : db.insertChunk row = .ok db') :
    row.data.length ≤ chunkBytes ∧
      ∃ chunks, db.chunks.insert row = some chunks ∧ db' = { db with chunks } := by
  simp only [insertChunk, bind_ok, failIf_ok, orFail_ok, pure_ok, not_lt] at h
  obtain ⟨-, -, -, hlen, chunks, hc, rfl⟩ := h
  exact ⟨hlen, chunks, hc, rfl⟩

/-- The table and the sequence of `object_journal` after the trigger of a revision. -/
structure Journals (db : ObjectTables) (r : RevisionRow) (db' : ObjectTables) : Prop where
  append : 4 ≤ db.userVersion → db.objectJournal.insert ⟨db.objectJournalSequence + 1,
    r.objectKey, r.version, r.sessionKey⟩ = some db'.objectJournal ∧
    db'.objectJournalSequence = db.objectJournalSequence + 1
  skip : db.userVersion < 4 → db'.objectJournal = db.objectJournal ∧
    db'.objectJournalSequence = db.objectJournalSequence

/-- The journal's trigger changes the journal and its sequence alone, where the schema has one. -/
theorem appendJournal_ok {row : RevisionRow} (h : db.appendJournal row = .ok db') :
    Journals db row db' ∧ db' = { db with
      objectJournal := db'.objectJournal, objectJournalSequence := db'.objectJournalSequence } := by
  unfold appendJournal at h
  split at h
  · next hv =>
      simp only [bind_ok, failIf_ok, orFail_ok, pure_ok] at h
      obtain ⟨-, -, journal, hj, rfl⟩ := h
      exact ⟨⟨fun _ => ⟨hj, rfl⟩, fun h => by omega⟩, rfl⟩
  · next hv =>
      obtain rfl := pure_ok.1 h
      exact ⟨⟨fun h => absurd h hv, fun _ => ⟨rfl, rfl⟩⟩, rfl⟩

/-- A revision is inserted for an object and a session that are there, under a version of its own,
and is journalled. -/
theorem insertRevision_ok {row : RevisionRow} (h : db.insertRevision row = .ok db') :
    row.objectKey.length ≤ maximumText ∧ row.version ≠ 0 ∧ db.objects.find row.objectKey ≠ none ∧
      db.sessions.find row.sessionKey ≠ none ∧
      db.revisions.insert row = some db'.revisions ∧ Journals db row db' ∧
      db' = { db with
        revisions := db'.revisions, objectJournal := db'.objectJournal,
        objectJournalSequence := db'.objectJournalSequence } := by
  simp only [insertRevision, bind_ok, bindTexts_ok, failIf_ok, orFail_ok, not_or,
    List.mem_cons] at h
  obtain ⟨-, hbound, -, hpos, -, -, revisions, hr, -, hfk, h⟩ := h
  obtain ⟨hj, hdb⟩ := appendJournal_ok h
  have hrev : db'.revisions = revisions := by rw [hdb]
  refine ⟨hbound _ (.inl rfl), hpos, hfk.1, hfk.2, hrev ▸ hr, ⟨hj.append, hj.skip⟩, ?_⟩
  rw [hrev]
  exact hdb

/-- A RAW document is inserted for a revision without one. -/
theorem insertRaw_ok {row : RawRevisionRow} (h : db.insertRaw row = .ok db') :
    db.rawRevisions.insert row = some db'.rawRevisions ∧
      db' = { db with rawRevisions := db'.rawRevisions } := by
  simp only [insertRaw, bind_ok, failIf_ok, orFail_ok, pure_ok] at h
  obtain ⟨-, -, -, -, raw, hr, rfl⟩ := h
  exact ⟨hr, rfl⟩

/-- A part of a revision is appended when it is not empty and its chunk is stored. -/
theorem insertRevisionChunk_ok {row : RevisionChunkRow}
    (h : db.insertRevisionChunk row = .ok db') :
    row.size ≠ 0 ∧ db.chunks.find row.sha256 ≠ none ∧
      db'.revisionChunks.rows = db.revisionChunks.rows ++ [row] ∧
      db' = { db with revisionChunks := db'.revisionChunks } := by
  simp only [insertRevisionChunk, bind_ok, failIf_ok, orFail_ok, pure_ok, not_or] at h
  obtain ⟨-, -, -, hsize, -, hfk, rows, hr, rfl⟩ := h
  exact ⟨hsize, hfk.2, Table.rows_insert hr, rfl⟩

/-- The table `current_index` after the trigger of a publication. -/
def indexAfter (db : ObjectTables) (o : ObjectRow) (r : RevisionRow) : Table IndexRow.indexKey :=
  if 3 ≤ db.userVersion then
    (if 5 ≤ db.userVersion then db.currentIndex.filter (fun i => i.objectKey ≠ o.objectKey)
      else db.currentIndex).upsert (indexRow o r)
  else db.currentIndex

/-- The index's trigger leaves everything but the current index as it is. -/
theorem publishIndex_eq {o : ObjectRow} {r : RevisionRow} (hhead : 0 < o.head)
    (hr : db.revisions.find (o.objectKey, o.head) = some r) :
    db.publishIndex o = { db with currentIndex := db.indexAfter o r } := by
  unfold publishIndex indexAfter
  by_cases hv : 3 ≤ db.userVersion
  · rw [if_pos ⟨hv, hhead⟩, if_pos hv, hr]
  · rw [if_neg (fun h => hv h.1), if_neg hv]

/-- Moving a head changes the object's row and the current index, where no other live object has the
path. -/
theorem updateHead_ok {head : Nat} {path key : Bytes} {deleted : Bool} {o : ObjectRow}
    {r : RevisionRow} (h : db.updateHead head path deleted key = .ok db')
    (ho : db.objects.find key = some o) (hhead : 0 < head)
    (hr : db.revisions.find (key, head) = some r) :
    (deleted = false → ∀ other ∈ db.objects, other.objectKey ≠ key → other.path = path →
      other.deleted = true) ∧
    db' = { db with
      objects := db.objects.modify key (fun o => { o with head, path, deleted }) (fun _ => rfl),
      currentIndex := db.indexAfter { o with head, path, deleted } r } := by
  have hk : o.objectKey = key := Table.key_of_find ho
  simp only [updateHead, ho, bind_ok, failIf_ok, pure_ok] at h
  obtain ⟨-, -, -, hfree, rfl⟩ := h
  refine ⟨fun hd other hmem hne hpath => ?_, ?_⟩
  · by_contra hlive
    exact hfree ⟨hd, other, hmem, hne, hpath, by simpa using hlive⟩
  · rw [publishIndex_eq (r := r) hhead (by simpa [hk] using hr)]
    rfl

end ObjectTables

/-! ## Publication -/

namespace Impl

/-- The rows of `revision_chunks` for a list of chunks, from an ordinal on. -/
def partRows (key : Bytes) (version : Nat) : List Chunk → Nat → List RevisionChunkRow
  | [], _ => []
  | part :: parts, ordinal =>
      ⟨key, version, ordinal, part.hash, part.size⟩ :: partRows key version parts (ordinal + 1)

/-- The parts of a revision are numbered without a gap. -/
theorem partRows_ordinals (key : Bytes) (version : Nat) (parts : List Chunk) (i : Nat) :
    (partRows key version parts i).map (·.ordinal) = List.range' i parts.length := by
  induction parts generalizing i with
  | nil => rfl
  | cons part parts ih => simp [partRows, ih, List.range'_succ]

/-- The parts of a revision in their order are the chunks it was written with. -/
theorem partRows_chunks (key : Bytes) (version : Nat) (parts : List Chunk) (i : Nat) :
    (partRows key version parts i).map (fun c => (⟨c.sha256, c.size⟩ : Chunk)) = parts := by
  induction parts generalizing i with
  | nil => rfl
  | cons part parts ih => simp [partRows, ih]

/-- Each part names the revision it belongs to. -/
theorem mem_partRows {key : Bytes} {version : Nat} {parts : List Chunk} {i : Nat}
    {c : RevisionChunkRow} (h : c ∈ partRows key version parts i) :
    c.objectKey = key ∧ c.version = version := by
  induction parts generalizing i with
  | nil => cases h
  | cons part parts ih =>
      rcases List.mem_cons.1 h with rfl | h
      · exact ⟨rfl, rfl⟩
      · exact ih h

/-- The loop over the parts appends their rows in order, for chunks that are stored and not empty.
-/
theorem insertParts_ok {key : Bytes} {version : Nat} {parts : List Chunk} {i : Nat}
    (h : insertParts key version parts i db = .ok db') :
    (∀ part ∈ parts, part.size ≠ 0 ∧ db.chunks.find part.hash ≠ none) ∧
      db'.revisionChunks.rows = db.revisionChunks.rows ++ partRows key version parts i ∧
      db' = { db with revisionChunks := db'.revisionChunks } := by
  induction parts generalizing i db with
  | nil =>
      obtain rfl := pure_ok.1 h
      simp [partRows]
  | cons part parts ih =>
      simp only [insertParts, bind_ok] at h
      obtain ⟨mid, hmid, h⟩ := h
      obtain ⟨hsize, hchunk, hrows, hdb⟩ := ObjectTables.insertRevisionChunk_ok hmid
      obtain ⟨hparts, hrows', hdb'⟩ := ih h
      have hchunks : mid.chunks = db.chunks := by rw [hdb]
      refine ⟨?_, ?_, ?_⟩
      · rintro p hp
        rcases List.mem_cons.1 hp with rfl | hp
        · exact ⟨hsize, hchunk⟩
        · exact hchunks ▸ hparts p hp
      · rw [hrows', hrows, List.append_assoc]
        rfl
      · rw [hdb', hdb]

/-- Everything the publication of a record does to the tables. -/
structure Publishes (db : ObjectTables) (x : ObjectRecord) (parts : List Chunk)
    (document : Bytes) (db' : ObjectTables) : Prop where
  bound : x.key.length ≤ maximumText
  positive : x.version ≠ 0
  object : db.objects.find x.key ≠ none
  session : db.sessions.find x.sessionKey ≠ none
  vacant : x.deleted = false → ∀ o ∈ db.objects, o.objectKey ≠ x.key → o.path = x.path →
    o.deleted = true
  stored : ∀ part ∈ parts, part.size ≠ 0 ∧ db.chunks.find part.hash ≠ none
  revisions : db.revisions.insert (revisionRow x) = some db'.revisions
  rawRevisions : if document = [] then db'.rawRevisions = db.rawRevisions
    else db.rawRevisions.insert ⟨x.key, x.version, document⟩ = some db'.rawRevisions
  revisionChunks : db'.revisionChunks.rows =
    db.revisionChunks.rows ++ partRows x.key x.version parts 0
  objects : db'.objects = db.objects.modify x.key
    (fun o => { o with head := x.version, path := x.path, deleted := x.deleted }) (fun _ => rfl)
  currentIndex : ∀ o, db.objects.find x.key = some o → db'.currentIndex = db.indexAfter
    { o with head := x.version, path := x.path, deleted := x.deleted } (revisionRow x)
  journal : ObjectTables.Journals db (revisionRow x) db'
  rest : db' = { db with
    revisions := db'.revisions, rawRevisions := db'.rawRevisions,
    revisionChunks := db'.revisionChunks, objects := db'.objects,
    currentIndex := db'.currentIndex, objectJournal := db'.objectJournal,
    objectJournalSequence := db'.objectJournalSequence }

/-- An empty document is not stored, any other is. -/
theorem insertDocument_ok {row : RawRevisionRow} (h : insertDocument db row = .ok db') :
    (if row.document = [] then db'.rawRevisions = db.rawRevisions
      else db.rawRevisions.insert row = some db'.rawRevisions) ∧
      db' = { db with rawRevisions := db'.rawRevisions } := by
  unfold insertDocument at h
  split at h
  · next hd =>
      obtain rfl := pure_ok.1 h
      exact ⟨by rw [if_pos hd], rfl⟩
  · next hd =>
      rw [if_neg hd]
      exact ObjectTables.insertRaw_ok h

/-- The four inserts and the update of a publication do together what `Publishes` says. The inserts
are taken in their order, and what each table has at the end is put together from them. -/
theorem insertPublication_ok {x : ObjectRecord} {parts : List Chunk} {document : Bytes}
    (h : insertPublication db x parts document = .ok db') :
    Publishes db x parts document db' := by
  simp only [insertPublication, bind_ok] at h
  obtain ⟨db₁, h₁, db₂, h₂, db₃, h₃, h₄⟩ := h
  obtain ⟨hbound, hpos, hobj, hsess, hrev, hjournal, hdb₁⟩ := ObjectTables.insertRevision_ok h₁
  obtain ⟨hraw, hdb₂⟩ := insertDocument_ok h₂
  have hrawRevisions : db₁.rawRevisions = db.rawRevisions := by rw [hdb₁]
  rw [hrawRevisions] at hraw
  obtain ⟨hstored, hrows, hdb₃⟩ := insertParts_ok h₃
  obtain ⟨o, ho : db.objects.find x.key = some o⟩ := Option.ne_none_iff_exists'.1 hobj
  have hobjects : db₃.objects = db.objects := by rw [hdb₃, hdb₂, hdb₁]
  have hrevisions : db₃.revisions = db₁.revisions := by rw [hdb₃, hdb₂]
  have hfind : db₃.revisions.find (x.key, x.version) = some (revisionRow x) := by
    rw [hrevisions, (Table.find_insert hrev).2, revisionRow_id, if_pos rfl]
  obtain ⟨hvacant, hdb₄⟩ := ObjectTables.updateHead_ok (o := o) h₄ (hobjects ▸ ho)
    (Nat.pos_of_ne_zero hpos) hfind
  have hindex : db₃.indexAfter = db.indexAfter := by
    funext o r
    unfold ObjectTables.indexAfter
    rw [hdb₃, hdb₂, hdb₁]
  exact {
    bound := hbound
    positive := hpos
    object := hobj
    session := hsess
    vacant := hobjects ▸ hvacant
    stored := by
      have hchunks : db₂.chunks = db.chunks := by rw [hdb₂, hdb₁]
      exact hchunks ▸ hstored
    revisions := by
      have hr : db'.revisions = db₃.revisions := by rw [hdb₄]
      rw [hr, hrevisions]
      exact hrev
    rawRevisions := by
      have hr : db'.rawRevisions = db₂.rawRevisions := by rw [hdb₄, hdb₃]
      rw [hr]
      exact hraw
    revisionChunks := by
      have hr : db'.revisionChunks = db₃.revisionChunks := by rw [hdb₄]
      rw [hr, hrows, hdb₂, hdb₁]
    objects := by
      rw [hdb₄, ← hobjects]
    currentIndex := by
      intro o' ho'
      obtain rfl : o = o' := by simpa [ho] using ho'
      rw [hdb₄, hindex]
    journal := by
      have hj : db'.objectJournal = db₁.objectJournal := by rw [hdb₄, hdb₃, hdb₂]
      have hs : db'.objectJournalSequence = db₁.objectJournalSequence := by
        rw [hdb₄, hdb₃, hdb₂]
      refine ⟨fun hv => ?_, fun hv => ?_⟩
      · rw [hj, hs]
        exact hjournal.append hv
      · rw [hj, hs]
        exact hjournal.skip hv
    rest := by rw [hdb₄, hdb₃, hdb₂, hdb₁] }

namespace Publishes

variable {x : ObjectRecord} {parts : List Chunk} {document : Bytes}

/-- The version that is published was not there before. -/
theorem fresh (h : Publishes db x parts document db') :
    db.revisions.find (x.key, x.version) = none :=
  (Table.find_insert h.revisions).1

/-- After a publication the new revision is found, and the others as they were. -/
theorem find_revision (h : Publishes db x parts document db') (id : Bytes × Nat) :
    db'.revisions.find id =
      if (x.key, x.version) = id then some (revisionRow x) else db.revisions.find id :=
  (Table.find_insert h.revisions).2 id

/-- A publication moves the head of its own object only. -/
theorem find_object (h : Publishes db x parts document db') (k : Bytes) :
    db'.objects.find k = if k = x.key then (db.objects.find k).map
      (fun o => { o with head := x.version, path := x.path, deleted := x.deleted })
      else db.objects.find k := by
  rw [h.objects, Table.find_modify]

/-- A publication stores the document of its own revision only, where there is one. -/
theorem find_raw (h : Publishes db x parts document db') (id : Bytes × Nat) :
    db'.rawRevisions.find id = if (x.key, x.version) = id ∧ document ≠ [] then
      some ⟨x.key, x.version, document⟩ else db.rawRevisions.find id := by
  have hraw := h.rawRevisions
  by_cases hd : document = []
  · rw [if_pos hd] at hraw
    rw [hraw, if_neg (by simp [hd])]
  · rw [if_neg hd] at hraw
    rw [(Table.find_insert hraw).2]
    exact if_congr (by simp [RawRevisionRow.id, hd]) rfl rfl

/-- A publication leaves the sessions. -/
theorem sessions (h : Publishes db x parts document db') : db'.sessions = db.sessions := by
  rw [h.rest]

/-- A publication leaves the working sessions. -/
theorem workSessions (h : Publishes db x parts document db') :
    db'.workSessions = db.workSessions := by
  rw [h.rest]

/-- A publication leaves the chunks: they are stored before it. -/
theorem chunks (h : Publishes db x parts document db') : db'.chunks = db.chunks := by
  rw [h.rest]

/-- The parts of every other revision are as they were. -/
theorem chunkRows_other (h : Publishes db x parts document db') {k : Bytes} {v : Nat}
    (hne : (k, v) ≠ (x.key, x.version)) : chunkRows db' k v = chunkRows db k v := by
  simp only [chunkRows, h.revisionChunks, List.filter_append]
  have hnone : (partRows x.key x.version parts 0).filter
      (fun c => c.objectKey = k ∧ c.version = v) = [] := by
    rw [List.filter_eq_nil_iff]
    intro c hc hmatch
    obtain ⟨hkey, hversion⟩ := mem_partRows hc
    simp only [decide_eq_true_eq, hkey, hversion] at hmatch
    exact hne (by rw [hmatch.1, hmatch.2])
  rw [hnone, List.append_nil]

/-- A publication extends the package it is made in. -/
theorem toExtends (h : Publishes db x parts document db') : Extends db db' where
  containerKey := by rw [h.rest]
  userVersion := by rw [h.rest]
  sessions k s hs := ⟨s.ended, h.sessions ▸ hs⟩
  objects k o ho := by
    rw [h.find_object]
    split
    · refine ⟨{ o with head := x.version, path := x.path, deleted := x.deleted }, ?_, rfl⟩
      rw [ho, Option.map_some]
    · exact ⟨o, ho, rfl⟩
  revisions id r hr := by
    rw [h.find_revision, if_neg, hr]
    rintro rfl
    rw [h.fresh] at hr
    cases hr
  workSessions k w hw := h.workSessions ▸ hw
  chunks k c hc := h.chunks ▸ hc
  raw id hid := by
    rw [h.find_raw, if_neg]
    rintro ⟨rfl, -⟩
    exact hid h.fresh
  parts k v hid := by
    refine h.chunkRows_other fun heq => ?_
    rw [heq] at hid
    exact hid h.fresh

end Publishes

/-- **What `publish` does.** It carries the document over, reads the context, makes the key of the
new record, and inserts it. -/
theorem publish_ok {r x : ObjectRecord} {s : ObjectSession} {parts : List Chunk}
    {raw : Option Bytes} {now : Int}
    (h : publish P m db r s parts raw now = .ok (x, db')) :
    ∃ document context, carriedDocument m db r raw = .ok document ∧
      m.context db s.key = .ok context ∧
      x = (r.stamped s now).withKey
        (validationKey P (r.stamped s now) s m.container context document) ∧
      Publishes db x parts document db' := by
  simp only [publish, bind_ok] at h
  obtain ⟨document, hdoc, context, hcontext, mid, hmid, h⟩ := h
  simp only [pure_ok, Prod.mk.injEq] at h
  obtain ⟨hx, rfl⟩ := h
  exact ⟨document, context, hdoc, hcontext, hx.symm, hx ▸ insertPublication_ok hmid⟩

end Impl

end FileProvider
