import FileProvider.Object.Journal
import FileProvider.Ontology.Invariant
import FileProvider.Ontology.Sessions

/-!
# Paging while the package changes

A reader follows the cursors of `queryFiles` or `listDirectory` while stores and other semantic
filesystems go on. A cursor carries the revision of the ontology and the end of the object journal.
`Advances` says why these two counters are enough: whatever changes the graph raises the revision,
and whatever changes the index appends to the journal. So the pages that a reader gets are all of
the state its first page was of, and a cursor is refused in every other.

The reader is given pages of different states of one run, in which anything may happen between them.
The argument is that a page with a cursor is refused unless both counters are as they were, and that
the counters tell of every change that a listing could show.
-/

namespace FileProvider

open Bytes Fallible Impl Ontology OntologyFileSystem Relation

variable {P : Platform} {L : JsonLibrary} {m m' : Impl} {db db' db'' : ObjectTables}

/-! ## The journal and the index -/

/-- The journal grows, and while it does not the objects and their index stay as they are. -/
structure IndexFollows (db db' : ObjectTables) : Prop where
  rows : ∃ more, db'.objectJournal.rows = db.objectJournal.rows ++ more
  still : db'.objectJournal.rows = db.objectJournal.rows → db'.objects = db.objects ∧
    db'.revisions = db.revisions ∧ db'.currentIndex = db.currentIndex

namespace IndexFollows

/-- An index follows itself. -/
theorem refl (db : ObjectTables) : IndexFollows db db where
  rows := ⟨[], (List.append_nil _).symm⟩
  still _ := ⟨rfl, rfl, rfl⟩

/-- Following is transitive. -/
theorem trans (h : IndexFollows db db') (h' : IndexFollows db' db'') : IndexFollows db db'' := by
  obtain ⟨more, hmore⟩ := h.rows
  obtain ⟨more', hmore'⟩ := h'.rows
  refine ⟨⟨more ++ more', by rw [hmore', hmore, List.append_assoc]⟩, fun hsame => ?_⟩
  rw [hmore', hmore, List.append_assoc, List.append_right_eq_self, List.append_eq_nil_iff] at hsame
  obtain ⟨rfl, rfl⟩ := hsame
  rw [List.append_nil] at hmore hmore'
  obtain ⟨hobjects, hrevisions, hindex⟩ := h.still hmore
  obtain ⟨hobjects', hrevisions', hindex'⟩ := h'.still hmore'
  exact ⟨hobjects'.trans hobjects, hrevisions'.trans hrevisions, hindex'.trans hindex⟩

/-- A publication appends to the journal. -/
theorem publishes {stored : ObjectTables} {x : ObjectRecord} {parts : List Chunk}
    {document : Bytes} (hp : Publishes stored x parts document db')
    (hversion : 4 ≤ stored.userVersion) (hjournal : stored.objectJournal = db.objectJournal) :
    IndexFollows db db' := by
  obtain ⟨hinsert, -⟩ := hp.journal.append hversion
  have hrows := Table.rows_insert hinsert
  rw [hjournal] at hrows
  refine ⟨⟨_, hrows⟩, fun hsame => ?_⟩
  rw [hrows, List.append_right_eq_self] at hsame
  cases hsame

/-- A change of the package moves the file sequence where it touches the index. -/
theorem change (h : Change P m db db') (hversion : 4 ≤ db.userVersion) : IndexFollows db db' := by
  cases h with
  | beginSession h h' =>
      obtain ⟨-, sessions, -, rfl⟩ := ObjectTables.insertSession_ok h
      obtain ⟨-, workSessions, -, rfl⟩ := ObjectTables.insertWorkSession_ok h'
      exact { refl db with }
  | endSession h =>
      obtain rfl := ObjectTables.setEnded_ok h
      exact { refl db with }
  | @create stored _ r x s parts document now hc =>
      obtain ⟨created, hins, hstores⟩ := hc.insert
      obtain ⟨-, -, -, objects, -, rfl⟩ := ObjectTables.insertObject_ok hins
      refine .publishes hc.publishes ?_ (by rw [hstores.rest])
      rw [hstores.rest]
      exact hversion
  | @revise stored _ expected old r x s parts raw now hr =>
      obtain ⟨document, _, -, -, -, hp⟩ := publish_ok hr.publish
      refine .publishes hp ?_ (by rw [hr.stores.rest])
      rw [hr.stores.rest]
      exact hversion

/-- So do several changes, by induction on them. -/
theorem changes (h : ReflTransGen (Change P m) db db') (hversion : 4 ≤ db.userVersion) :
    IndexFollows db db' ∧ db'.userVersion = db.userVersion := by
  induction h with
  | refl => exact ⟨.refl db, rfl⟩
  | tail _ hchange ih =>
      obtain ⟨hfollows, hsame⟩ := ih
      exact ⟨hfollows.trans (.change hchange (hsame ▸ hversion)),
        hchange.toExtends.userVersion.trans hsame⟩

end IndexFollows

/-- The end of the journal is its last row's number, or zero without a row. -/
theorem fileSequence_last (hjournal : JournalInvariant db) {rows : List ObjectJournalRow}
    {last : ObjectJournalRow} (hrows : db.objectJournal.rows = rows ++ [last]) :
    fileSequence db = last.sequence := by
  have hmax : (db.objectJournal.rows.map (·.sequence)).max? = some last.sequence := by
    have hascending := hjournal.ascending
    rw [hrows] at hascending ⊢
    obtain ⟨-, -, hlt⟩ := List.pairwise_append.1 hascending
    rw [List.max?_eq_some_iff, List.map_append, List.map_singleton]
    refine ⟨List.mem_append_right _ (List.mem_singleton_self _), fun n hn => ?_⟩
    rcases List.mem_append.1 hn with hn | hn
    · obtain ⟨j, hj, rfl⟩ := List.mem_map.1 hn
      exact (hlt j hj last (List.mem_singleton_self _)).le
    · exact (List.mem_singleton.1 hn).le
  unfold fileSequence
  rw [hmax]
  rfl

/-- **The journal has grown if its end is another.** It only grows at its end, and the numbers of
its rows ascend, so that the last number tells whether there is a new row. -/
theorem IndexFollows.fileSequence_le (h : IndexFollows db db') (hjournal : JournalInvariant db)
    (hjournal' : JournalInvariant db') : fileSequence db ≤ fileSequence db' ∧
      (fileSequence db' = fileSequence db →
        db'.objectJournal.rows = db.objectJournal.rows) := by
  obtain ⟨more, hmore⟩ := h.rows
  rcases List.eq_nil_or_concat more with rfl | ⟨init, last, hlast⟩
  · rw [List.append_nil] at hmore
    have hsame : fileSequence db' = fileSequence db := by
      unfold fileSequence
      rw [hmore]
    exact ⟨hsame.ge, fun _ => hmore⟩
  · rw [hlast, List.concat_eq_append, ← List.append_assoc] at hmore
    have hend := fileSequence_last hjournal' hmore
    have hlt : fileSequence db < fileSequence db' := by
      rw [hend]
      have hmem : last ∈ db'.objectJournal := by
        rw [Table.mem_def, hmore]
        exact List.mem_append_right _ (List.mem_singleton_self _)
      rcases List.eq_nil_or_concat db.objectJournal.rows with hnil | ⟨rows, j, hj⟩
      · have hzero : fileSequence db = 0 := by
          unfold fileSequence
          rw [hnil]
          rfl
        rw [hzero]
        exact Int.natCast_pos.2 (hjournal'.numbered last hmem).1
      · rw [List.concat_eq_append] at hj
        rw [fileSequence_last hjournal hj]
        have hascending := hjournal'.ascending
        rw [hmore, hj, List.append_assoc] at hascending
        obtain ⟨-, -, hcross⟩ := List.pairwise_append.1 hascending
        exact Int.ofNat_lt.2 (hcross j (List.mem_append_right _ (List.mem_singleton_self _)) last
          (List.mem_append_right _ (List.mem_singleton_self _)))
    exact ⟨hlt.le, fun hsame => absurd hsame hlt.ne'⟩

/-! ## The counters of a workspace -/

namespace Workspace

variable {clock : Int → Prop} {w w' w'' : Workspace} {container : Bytes} {events : List Event}

/-- The counters that a cursor carries only go up, and while they stay, so does what a query reads.
A batch that alters nothing may spend a number of a statement. -/
structure Advances (w w' : Workspace) : Prop where
  files : IndexFollows w.package.tables w'.package.tables
  revision : w.ontology.revision ≤ w'.ontology.revision
  graph : w'.ontology.revision = w.ontology.revision →
    ∃ n, w'.ontology.graph = { w.ontology.graph with statementsSequence := n }

/-- A workspace advances to itself. -/
theorem Advances.refl (w : Workspace) : Advances w w where
  files := .refl _
  revision := le_rfl
  graph _ := ⟨w.ontology.graph.statementsSequence, rfl⟩

/-- Advancing is transitive: both counters only go up. -/
theorem Advances.trans (h : Advances w w') (h' : Advances w' w'') : Advances w w'' where
  files := h.files.trans h'.files
  revision := h.revision.trans h'.revision
  graph hsame := by
    have hle := h.revision
    have hle' := h'.revision
    obtain ⟨_, hgraph⟩ := h.graph (by omega)
    obtain ⟨n, hgraph'⟩ := h'.graph (by omega)
    exact ⟨n, by rw [hgraph', hgraph]⟩

/-- What a paging reader needs of a workspace. -/
structure Numbered (P : Platform) (container : Bytes) (w : Workspace) : Prop where
  sound : Sound P container w
  journal : JournalInvariant w.package.tables
  version : w.package.tables.userVersion = 5

/-- Each step keeps the rows numbered below the counters. -/
theorem Step.numbered {e : Event} (h : Step P clock w e w') (hw : Numbered P container w) :
    Numbered P container w' := by
  obtain ⟨-, hext⟩ := h.keeps hw.sound.package
  refine ⟨h.sound hw.sound, ?_, hext.userVersion.trans hw.version⟩
  rcases h.package with ⟨e', -, hstep⟩ | hsame
  · exact (hw.journal.step hstep).1
  · rw [hsame]
    exact hw.journal

/-- **Every step advances the counters.** A step of the package leaves the revision of the graph,
and a commit of the graph leaves the package. -/
theorem Step.advances {e : Event} (h : Step P clock w e w') (hw : Numbered P container w) :
    Advances w w' := by
  have hversion : 4 ≤ w.package.tables.userVersion := by
    rw [hw.version]
    decide
  cases h with
  | start h =>
      cases h
      exact ⟨.refl _, le_rfl, fun _ => ⟨_, rfl⟩⟩
  | fail h =>
      cases h
      exact ⟨.refl _, le_rfl, fun _ => ⟨_, rfl⟩⟩
  | commit _ hrun =>
      exact ⟨(IndexFollows.changes (Call.run_changes hrun) hversion).1, le_rfl, fun _ => ⟨_, rfl⟩⟩
  | apply _ _ happly =>
      obtain ⟨b, ha⟩ := apply_ok hw.sound.ontology.storage happly
      by_cases hevents : b.events = 0
      · obtain ⟨n, hgraph⟩ := graph_of_no_events ha.changes hevents
        have hrevision := ha.newRevision.trans (ha.unchanged hevents).2
        exact ⟨.refl _, hrevision.ge, fun _ => ⟨n, ha.graph.trans hgraph⟩⟩
      · have hrevision := ha.newRevision.trans (ha.committed hevents).2.2
        refine ⟨.refl _, hrevision.ge.trans' (Nat.le_succ _), fun hsame => ?_⟩
        exact absurd (hrevision.symm.trans hsame) (Nat.succ_ne_self _)

/-- They are so in every workspace that is reached. -/
theorem Reachable.numbered (h : Reachable P clock container w) : Numbered P container w := by
  obtain ⟨events, hrun⟩ := h
  exact hrun.invariant (fun hs hstep => hstep.numbered hs)
    ⟨⟨Package.sound_fresh P container, .empty P.json _⟩, .created 5 container, rfl⟩

/-- **A run advances the counters.** -/
theorem advances_of_run (h : Run (Step P clock) w events w') (hw : Numbered P container w) :
    Advances w w' :=
  h.relates Advances.refl Advances.trans (fun hs hstep => hstep.numbered hs)
    (fun hs hstep => hstep.advances hs) hw

/-- **What the counters of two states say.** If they are the same, queries read the same. -/
structure SameFiles (w w' : Workspace) : Prop where
  objects : w'.package.tables.objects = w.package.tables.objects
  revisions : w'.package.tables.revisions = w.package.tables.revisions
  index : w'.package.tables.currentIndex = w.package.tables.currentIndex
  graph : ∃ n, w'.ontology.graph = { w.ontology.graph with statementsSequence := n }

/-- Where both counters are what they were, the files and the graph are too. -/
theorem Advances.sameFiles (h : Advances w w') (hw : Numbered P container w)
    (hw' : Numbered P container w') (hrevision : w'.ontology.revision = w.ontology.revision)
    (hfiles : fileSequence w'.package.tables = fileSequence w.package.tables) :
    SameFiles w w' := by
  have hrows := (h.files.fileSequence_le hw.journal hw'.journal).2 hfiles
  obtain ⟨hobjects, hrevisions, hindex⟩ := h.files.still hrows
  exact ⟨hobjects, hrevisions, hindex, h.graph hrevision⟩

end Workspace

/-! ## What a reader lists -/

namespace OntologyFileSystem

def listDirectory (P : Platform) (m : OntologyImpl) (objects : ObjectTables) (o : OntologyTables)
    (path : Bytes) (cursor : OntologyCursor) (limit : Nat) (cancellation : StopToken) :
    Fallible OntologyPage := do
  directoryPath P.json path
  failIf (cancellation 0 = true) "ontology operation cancelled"
  let d ← orFail "ontology directory not found" (o.graph.directories.find path)
  let query ← directoryQuery P.json d.document
  let result ← files P m objects o query cursor limit
  failIf (cancellation 1 = true) "ontology operation cancelled"
  pure result

end OntologyFileSystem

/-- The files of a query, or those of a saved directory. -/
inductive Listed where
  | query (query : OntologyQuery)
  | directory (path : Bytes)

namespace Listed

/-- A page of a list. -/
def read (P : Platform) (m : OntologyImpl) (w : Workspace) :
    Listed → OntologyCursor → Nat → StopToken → Fallible OntologyPage
  | .query q => queryFiles P m w.package.tables w.ontology q
  | .directory path => listDirectory P m w.package.tables w.ontology path

/-- The query whose files are listed. A directory's is the one it was saved with last. -/
def Names (L : JsonLibrary) (g : GraphTables) (named : OntologyQuery) : Listed → Prop
  | .query q => q = named
  | .directory path => ∃ d, g.directories.find path = some d ∧
      directoryQuery L d.document = .ok named

end Listed

namespace Workspace

variable {clock : Int → Prop} {w w' w₁ : Workspace} {container : Bytes} {events : List Event}
  {listed : Listed} {m : OntologyImpl} {cursor next : OntologyCursor} {limit : Nat}
  {token : StopToken} {page : OntologyPage} {pages : List OntologyPage}
  {stopped : Option OntologyCursor}

/-- Pages read one after the other, each in a later state of the workspace and with the cursor of
the page before it, up to a page without a cursor or to where the reader stops. -/
inductive Pages (P : Platform) (clock : Int → Prop) (listed : Listed) :
    Workspace → OntologyCursor → List OntologyPage → Option OntologyCursor → Prop where
  | stop (w : Workspace) (cursor : OntologyCursor) : Pages P clock listed w cursor [] (some cursor)
  | last {w w' : Workspace} {events : List Event} {m : OntologyImpl} {cursor : OntologyCursor}
      {limit : Nat} {token : StopToken} {page : OntologyPage} :
      Run (Step P clock) w events w' → m.Opens w'.package.tables →
      listed.read P m w' cursor limit token = .ok page → page.next = none →
      Pages P clock listed w cursor [page] none
  | more {w w' : Workspace} {events : List Event} {m : OntologyImpl} {cursor next : OntologyCursor}
      {limit : Nat} {token : StopToken} {page : OntologyPage} {pages : List OntologyPage}
      {stopped : Option OntologyCursor} :
      Run (Step P clock) w events w' → m.Opens w'.package.tables →
      listed.read P m w' cursor limit token = .ok page → page.next = some next →
      Pages P clock listed w' next pages stopped →
      Pages P clock listed w cursor (page :: pages) stopped

/-- What a page was read from. -/
structure PageOf (P : Platform) (m : OntologyImpl) (w : Workspace) (listed : Listed)
    (cursor : OntologyCursor) (limit : Nat) (page : OntologyPage) (query : OntologyQuery)
    (current : OntologyCursor) (selections : List Selection) : Prop where
  names : listed.Names P.json w.ontology.graph query
  plan : Planned P m w.package.tables w.ontology query current selections
  positive : limit ≠ 0
  checked : checkCursor current cursor = .ok ()
  page : page = queryPage current limit ((Keyset.past (·.indexKey) (selectedEntries
    w.package.tables w.ontology.graph query selections) cursor.afterIndexKey).take (limit + 1))

/-- A page that is read is one of the current query, with its counters checked. -/
theorem read_ok (h : listed.read P m w cursor limit token = .ok page) :
    ∃ query current selections, PageOf P m w listed cursor limit page query current selections := by
  have hfiles : ∃ query, listed.Names P.json w.ontology.graph query ∧
      files P m w.package.tables w.ontology query cursor limit = .ok page := by
    cases listed with
    | query query =>
        simp only [Listed.read, queryFiles, bind_ok, pure_ok] at h
        obtain ⟨_, -, first, hfirst, _, -, rfl⟩ := h
        exact ⟨query, rfl, hfirst⟩
    | directory path =>
        simp only [Listed.read, listDirectory, bind_ok, orFail_ok, pure_ok] at h
        obtain ⟨-, -, -, -, d, hd, query, hquery, first, hfirst, -, -, rfl⟩ := h
        exact ⟨query, ⟨d, hd, hquery⟩, hfirst⟩
  obtain ⟨query, hnames, hfiles⟩ := hfiles
  obtain ⟨current, selections, hplan, hlimit, hchecked, hpage⟩ := files_ok.1 hfiles
  rw [pageLimit, failIf_ok, not_or] at hlimit
  exact ⟨query, current, selections, hnames, hplan, hlimit.1, hchecked, hpage⟩

/-- **A page and what is left of the list.** The page is a first part of what is behind the cursor,
and where there is more the next cursor is at its last row. -/
theorem PageOf.split {query : OntologyQuery} {current : OntologyCursor}
    {selections : List Selection} {entries : List ObjectIndexEntry}
    (h : PageOf P m w listed cursor limit page query current selections)
    (hentries : selectedEntries w.package.tables w.ontology.graph query selections = entries) :
    (page.next = none → page.files = Keyset.past (·.indexKey) entries cursor.afterIndexKey) ∧
    ∀ next, page.next = some next → ∃ k, cursor.afterIndexKey < k ∧
      next = { current with afterIndexKey := k } ∧
      Keyset.past (·.indexKey) entries cursor.afterIndexKey
        = page.files ++ Keyset.past (·.indexKey) entries k := by
  subst hentries
  have hascending : Keyset.Ascending (·.indexKey)
      (selectedEntries w.package.tables w.ontology.graph query selections) :=
    selectedEntries_ascending selections
  obtain ⟨hfiles, hnone, hnext⟩ := queryPage_take current (Keyset.past (·.indexKey)
    (selectedEntries w.package.tables w.ontology.graph query selections) cursor.afterIndexKey)
    h.positive
  rw [← h.page] at hfiles hnone hnext
  refine ⟨fun hend => ?_, fun next hmore => ?_⟩
  · rw [hfiles, List.take_of_length_le (hnone.1 hend)]
  · refine ⟨_, ?_, hnext next hmore cursor.afterIndexKey, ?_⟩
    · refine Keyset.lt_lastKey fun hempty => ?_
      rcases List.take_eq_nil_iff.1 hempty with hzero | hpast
      · exact h.positive hzero
      · have hend := hnone.2 (by rw [hpast]; exact Nat.zero_le _)
        rw [hmore] at hend
        cases hend
    · rw [hfiles]
      have hrest := Keyset.past_lastKey hascending cursor.afterIndexKey limit
      unfold Keyset.page at hrest
      rw [hrest, List.take_append_drop]

/-! ## Pages of one state -/

section
variable {query : OntologyQuery} {current : OntologyCursor} {selections : List Selection}

/-- A directory is saved with one query. -/
theorem SameFiles.names (h : SameFiles w w') {query query' : OntologyQuery}
    (hq : listed.Names P.json w.ontology.graph query)
    (hq' : listed.Names P.json w'.ontology.graph query') : query' = query := by
  cases listed with
  | query q => exact hq'.symm.trans hq
  | directory path =>
      obtain ⟨n, hgraph⟩ := h.graph
      obtain ⟨d, hd, hquery⟩ := hq
      obtain ⟨d', hd', hquery'⟩ := hq'
      rw [hgraph] at hd'
      obtain rfl := Option.some.inj (hd.symm.trans hd')
      exact Except.ok.inj (hquery'.symm.trans hquery)

/-- A query selects the same entries where files and graph are the same. -/
theorem SameFiles.entries (h : SameFiles w w') (query : OntologyQuery)
    (selections : List Selection) :
    selectedEntries w'.package.tables w'.ontology.graph query selections
      = selectedEntries w.package.tables w.ontology.graph query selections := by
  obtain ⟨n, hgraph⟩ := h.graph
  unfold selectedEntries selected
  rw [h.index, hgraph]
  rfl

/-- A cursor past the start is only read with where the counters are its own. -/
theorem PageOf.counters {next : OntologyCursor}
    (h : PageOf P m w listed next limit page query current selections)
    (hpositive : 0 < next.afterIndexKey) : current.revision = next.revision ∧
      current.fileSequence = next.fileSequence ∧ current.fingerprint = next.fingerprint := by
  have hne : next ≠ .initial := fun heq => by
    rw [heq] at hpositive
    exact lt_irrefl _ hpositive
  have hchecked := h.checked
  simp only [checkCursor, bind_ok, failIf_ok, not_and, not_or, not_not] at hchecked
  obtain ⟨-, -, hsame⟩ := hchecked
  obtain ⟨hrevision, hfiles, hfingerprint⟩ := hsame hne
  exact ⟨hrevision.symm, hfiles.symm, hfingerprint.symm⟩

/-- Two plans with the same counters and the same fingerprint are one plan. -/
theorem current_ext {m' : OntologyImpl} {query' : OntologyQuery} {current' : OntologyCursor}
    {selections' : List Selection} (hrevision : current'.revision = current.revision)
    (hfiles : current'.fileSequence = current.fileSequence)
    (hfingerprint : current'.fingerprint = current.fingerprint)
    (h' : Planned P m' w'.package.tables w'.ontology query' current' selections')
    (h : Planned P m w.package.tables w.ontology query current selections) :
    current' = current := by
  obtain ⟨_, _, -, -, rfl⟩ := h.signed
  obtain ⟨_, _, -, -, rfl⟩ := h'.signed
  exact OntologyCursor.mk.injEq .. ▸ ⟨hrevision, hfiles, rfl, hfingerprint⟩

/-- The counters of a page are those of its state. -/
theorem PageOf.current_eq (h : PageOf P m w listed cursor limit page query current selections) :
    current.revision = w.ontology.revision ∧
      current.fileSequence = fileSequence w.package.tables := by
  obtain ⟨encoded, dumped, -, -, rfl⟩ := h.plan.signed
  exact ⟨rfl, rfl⟩

/-- **A page that is read with a cursor is of the state that the cursor is of.** The cursor was
refused if the revision or the file sequence were others, and equal counters mean an equal state. -/
theorem PageOf.sameFiles {m' : OntologyImpl} {listed' : Listed} {limit' : Nat}
    {page' : OntologyPage} {query' : OntologyQuery} {current' : OntologyCursor}
    {selections' : List Selection} (hw : Numbered P container w) (hw' : Numbered P container w')
    (hadvances : Advances w w')
    (h : PageOf P m w listed cursor limit page query current selections)
    (h' : PageOf P m' w' listed' next limit' page' query' current' selections')
    (hpositive : 0 < next.afterIndexKey)
    (hnext : next = { current with afterIndexKey := next.afterIndexKey }) : SameFiles w w' := by
  obtain ⟨hrevision, hfiles, -⟩ := h'.counters hpositive
  obtain ⟨hrevision', hfiles'⟩ := h'.current_eq
  obtain ⟨hrevision₀, hfiles₀⟩ := h.current_eq
  refine hadvances.sameFiles hw hw' ?_ ?_
  · rw [← hrevision', hrevision, hnext]
    exact hrevision₀
  · rw [← hfiles', hfiles, hnext]
    exact hfiles₀

/-- **A page of a later state is of the query, the counters and the list of the first one.** -/
theorem PageOf.again {m' : OntologyImpl} {limit' : Nat} {token' : StopToken} {page' : OntologyPage}
    (hw : Numbered P container w) (hw' : Numbered P container w') (hadvances : Advances w w')
    (h : PageOf P m w listed cursor limit page query current selections)
    (hpositive : 0 < next.afterIndexKey)
    (hnext : next = { current with afterIndexKey := next.afterIndexKey })
    (hread : listed.read P m' w' next limit' token' = .ok page') :
    PageOf P m' w' listed next limit' page' query current selections ∧
      selectedEntries w'.package.tables w'.ontology.graph query selections
        = selectedEntries w.package.tables w.ontology.graph query selections := by
  obtain ⟨query', current', selections', h'⟩ := read_ok hread
  have hsame := h.sameFiles hw hw' hadvances h' hpositive hnext
  obtain rfl := hsame.names h.names h'.names
  obtain rfl : selections' = selections :=
    Except.ok.inj (h'.plan.conditions.symm.trans h.plan.conditions)
  obtain rfl : current' = current := by
    obtain ⟨hrevision, hfiles, hfingerprint⟩ := h'.counters hpositive
    rw [hnext] at hrevision hfiles hfingerprint
    exact current_ext hrevision hfiles hfingerprint h'.plan h.plan
  exact ⟨h', hsame.entries _ _⟩

/-- **What is read with the cursor of a page is what is left of its list.** The induction is on the
pages that follow, each of which is read with the cursor of the page before. -/
theorem Pages.rest (hw₁ : Numbered P container w₁)
    (h₁ : PageOf P m w₁ listed cursor limit page query current selections)
    {entries : List ObjectIndexEntry}
    (hentries : selectedEntries w₁.package.tables w₁.ontology.graph query selections = entries)
    (hpages : Pages P clock listed w next pages stopped) (hw : Numbered P container w)
    (hadvances : Advances w₁ w) (hpositive : 0 < next.afterIndexKey)
    (hnext : next = { current with afterIndexKey := next.afterIndexKey }) :
    pages.flatMap (·.files) <+: Keyset.past (·.indexKey) entries next.afterIndexKey ∧
      (stopped = none → pages.flatMap (·.files)
        = Keyset.past (·.indexKey) entries next.afterIndexKey) := by
  induction hpages with
  | stop w next => exact ⟨List.nil_prefix, nofun⟩
  | last hrun _ hread hend =>
      have hw' := hrun.invariant (fun hs hstep => hstep.numbered hs) hw
      obtain ⟨h', hentries'⟩ := h₁.again hw₁ hw' (hadvances.trans (advances_of_run hrun hw))
        hpositive hnext hread
      obtain ⟨hlast, -⟩ := h'.split (hentries'.trans hentries)
      rw [List.flatMap_singleton, hlast hend]
      exact ⟨List.prefix_rfl, fun _ => rfl⟩
  | @more w w' _ _ _ next' _ _ _ _ _ hrun _ hread hmore _ ih =>
      have hw' := hrun.invariant (fun hs hstep => hstep.numbered hs) hw
      have hadvances' := hadvances.trans (advances_of_run hrun hw)
      obtain ⟨h', hentries'⟩ := h₁.again hw₁ hw' hadvances' hpositive hnext hread
      obtain ⟨-, hsplit⟩ := h'.split (hentries'.trans hentries)
      obtain ⟨k, hlt, hnext', heq⟩ := hsplit _ hmore
      obtain rfl : next'.afterIndexKey = k := congrArg OntologyCursor.afterIndexKey hnext'
      obtain ⟨hfront, hall⟩ := ih hw' hadvances' (hpositive.trans hlt) hnext'
      rw [List.flatMap_cons, heq]
      exact ⟨(List.prefix_append_right_inj _).2 hfront, fun hnone => congrArg _ (hall hnone)⟩

/-- The first page starts at the start of its list. -/
theorem past_initial (h : Reachable P clock container w)
    (hselections : query.conditions.mapM (selection P.json) = .ok selections) :
    Keyset.past (·.indexKey) (selectedEntries w.package.tables w.ontology.graph query selections)
        OntologyCursor.initial.afterIndexKey
      = selectedEntries w.package.tables w.ontology.graph query selections := by
  refine List.filter_eq_self.2 fun e he => decide_eq_true ?_
  obtain ⟨row, hrow, r, -, -, rfl⟩ := ((h.listing hselections).mem e).1 he
  exact (h.indexed.1.keys row hrow).1

/-- **The pages of a reader are the files of one state.** It is the state of the first page, and the
later pages are what is left of its listing. -/
theorem Reachable.pages_of_one_state (h : Reachable P clock container w)
    (hpages : Pages P clock listed w .initial pages stopped) (hne : pages ≠ []) :
    ∃ events w₁ query listing, Run (Step P clock) w events w₁ ∧
      listed.Names P.json w₁.ontology.graph query ∧
      Listing P.json w₁.package.tables w₁.ontology.graph query listing ∧
      pages.flatMap (·.files) <+: listing ∧
      (stopped = none → pages.flatMap (·.files) = listing) := by
  have hafter : ∀ {w' events}, Run (Step P clock) w events w' → Reachable P clock container w' := by
    intro w' events hrun
    obtain ⟨before, hbefore⟩ := h
    exact ⟨_, hbefore.append hrun⟩
  cases hpages with
  | stop => exact absurd rfl hne
  | last hrun _ hread hend =>
      have hw' := hafter hrun
      obtain ⟨query, current, selections, hpage⟩ := read_ok hread
      obtain ⟨hlast, -⟩ := hpage.split rfl
      refine ⟨_, _, query, _, hrun, hpage.names, hw'.listing hpage.plan.conditions, ?_⟩
      rw [List.flatMap_singleton, hlast hend, past_initial hw' hpage.plan.conditions]
      exact ⟨List.prefix_rfl, fun _ => rfl⟩
  | @more _ w' _ _ _ next _ _ _ _ _ hrun _ hread hmore hrest =>
      have hw' := hafter hrun
      obtain ⟨query, current, selections, hpage⟩ := read_ok hread
      obtain ⟨-, hsplit⟩ := hpage.split rfl
      obtain ⟨k, hpositive, hnext, heq⟩ := hsplit _ hmore
      obtain rfl : next.afterIndexKey = k := congrArg OntologyCursor.afterIndexKey hnext
      rw [past_initial hw' hpage.plan.conditions] at heq
      obtain ⟨hfront, hall⟩ := Pages.rest hw'.numbered hpage rfl hrest hw'.numbered (.refl w')
        hpositive hnext
      refine ⟨_, w', query, _, hrun, hpage.names, hw'.listing hpage.plan.conditions, ?_⟩
      rw [List.flatMap_cons, heq]
      exact ⟨(List.prefix_append_right_inj _).2 hfront, fun hnone => congrArg _ (hall hnone)⟩

/-! ## Cursors of one query and one state -/

/-- Two cursors of one fingerprint are of one package and one query, but for the sign of a zero
in it. -/
theorem PageOf.fingerprint {m' : OntologyImpl} {listed' : Listed} {limit' : Nat}
    {page' : OntologyPage} {query' : OntologyQuery} {current' cursor' : OntologyCursor}
    {selections' : List Selection} (hhash : Function.Injective P.hash)
    (h : PageOf P m w listed cursor limit page query current selections)
    (h' : PageOf P m' w' listed' cursor' limit' page' query' current' selections')
    (hsame : current'.fingerprint = current.fingerprint) :
    m'.container = m.container ∧ query'.normal = query.normal := by
  obtain ⟨encoded, dumped, hencoded, hdumped, rfl⟩ := h.plan.signed
  obtain ⟨encoded', dumped', hencoded', hdumped', rfl⟩ := h'.plan.signed
  have hsigned : signed m' dumped' = signed m dumped := hhash hsame
  have hframes : frame m'.container ++ dumped' = frame m.container ++ dumped := by
    simpa [signed, frame] using hsigned
  obtain ⟨hcontainer, rfl⟩ := frame_append_inj hframes
  obtain rfl := JsonLibrary.dump_injective (queryJson_canonical hencoded')
    (queryJson_canonical hencoded) hdumped' hdumped
  have hquery := decodeQuery_queryJson hencoded'
  rw [decodeQuery_queryJson hencoded] at hquery
  exact ⟨hcontainer, (Except.ok.inj hquery).symm⟩

end

/-- **Consistent paging.** The pages of a query or a directory are the files of one state, however
the package changes between them, and the cursor of a page is refused for another package, another
query and another state. -/
theorem Reachable.consistent_pages (hhash : Function.Injective P.hash)
    (h : Reachable P clock container w) :
    (∀ listed pages stopped, Pages P clock listed w .initial pages stopped → pages ≠ [] →
      ∃ events w₁ query listing, Run (Step P clock) w events w₁ ∧
        listed.Names P.json w₁.ontology.graph query ∧
        Listing P.json w₁.package.tables w₁.ontology.graph query listing ∧
        pages.flatMap (·.files) <+: listing ∧
        (stopped = none → pages.flatMap (·.files) = listing)) ∧
    ∀ (listed : Listed) (m : OntologyImpl) cursor limit token page next,
      m.Opens w.package.tables → listed.read P m w cursor limit token = .ok page →
      page.next = some next →
      ∀ (container' : Bytes) (w' : Workspace) (listed' : Listed) (m' : OntologyImpl) limit' token'
        page', Reachable P clock container' w' → m'.Opens w'.package.tables →
        listed'.read P m' w' next limit' token' = .ok page' →
        container' = container ∧
        (∃ query query', listed.Names P.json w.ontology.graph query ∧
          listed'.Names P.json w'.ontology.graph query' ∧ query'.normal = query.normal) ∧
        ∀ events, Run (Step P clock) w events w' → SameFiles w w' := by
  refine ⟨fun listed pages stopped hpages hne => h.pages_of_one_state hpages hne, ?_⟩
  intro listed m cursor limit token page next hm hread hmore container' w' listed' m' limit' token'
    page' h' hm' hread'
  obtain ⟨query, current, selections, hpage⟩ := read_ok hread
  obtain ⟨query', current', selections', hpage'⟩ := read_ok hread'
  obtain ⟨-, hsplit⟩ := hpage.split rfl
  obtain ⟨k, hlt, hnext, -⟩ := hsplit next hmore
  obtain rfl : next.afterIndexKey = k := congrArg OntologyCursor.afterIndexKey hnext
  have hpositive : 0 < next.afterIndexKey := by
    have hchecked := hpage.checked
    simp only [checkCursor, bind_ok, failIf_ok, not_or, not_lt] at hchecked
    obtain ⟨-, ⟨hstart, -⟩, -⟩ := hchecked
    exact hstart.trans_lt hlt
  obtain ⟨-, -, hfingerprint⟩ := hpage'.counters hpositive
  rw [hnext] at hfingerprint
  obtain ⟨hcontainer, hquery⟩ := hpage.fingerprint hhash hpage' hfingerprint
  refine ⟨?_, ⟨query, query', hpage.names, hpage'.names, hquery⟩, fun events hrun => ?_⟩
  · rw [← h'.sound.package.containerKey, ← h.sound.package.containerKey, hm'.container,
      hm.container, hcontainer]
  · have hw' := hrun.invariant (fun hs hstep => hstep.numbered hs) h.numbered
    exact hpage.sameFiles h.numbered hw' (advances_of_run hrun h.numbered) hpage' hpositive hnext

/-- Two files are imported in the sample session. -/
def sampleImports : List (Call × Draws) :=
  [Package.sampleBegin,
    (.importFile (.of [1]) (ascii "a") Package.sampleSession .plain, .numbered 1),
    (.importFile (.of [2]) (ascii "b") Package.sampleSession .plain, .numbered 2)]

/-- The query for all files. -/
def allFiles : OntologyQuery := ⟨[], false, [], false⟩

/-- Two pages of one file each, and between them another session begins. The session changes neither
of the counters, so that the second page is of the state of the first one. -/
theorem Reachable.consistent_pages_sample : ∃ (w w₁ : Workspace) (pages : List OntologyPage)
    (listing : List ObjectIndexEntry),
    Pages .reference (fun _ => True) (.query allFiles) w .initial pages none ∧ pages.length = 2 ∧
    Listing Platform.reference.json w₁.package.tables w₁.ontology.graph allFiles listing ∧
    pages.flatMap (·.files) = listing := by
  have hok : (Package.exec .reference .reference sampleImports (.fresh (ascii "c")) >>= fun x =>
      queryFiles .reference ⟨ascii "c", false⟩ x.2 .empty allFiles .initial 1 (fun _ => false)
        >>= fun first => orFail "unexpected" first.next >>= fun next =>
          Package.sampleBegin.1.run .reference .reference x.2 x.2 (.numbered 3) >>= fun y =>
            queryFiles .reference ⟨ascii "c", false⟩ y.2 .empty allFiles next 1 (fun _ => false)
              >>= fun second => failIf (second.next ≠ none) "unexpected").isOk = true := by
    decide +kernel
  obtain ⟨_, h⟩ := exists_of_isOk hok
  obtain ⟨⟨responses, db⟩, hexec, h⟩ := bind_ok.1 h
  obtain ⟨first, hfirst, h⟩ := bind_ok.1 h
  obtain ⟨next, hnext, h⟩ := bind_ok.1 h
  obtain ⟨⟨response, db'⟩, hcall, h⟩ := bind_ok.1 h
  obtain ⟨second, hsecond, h⟩ := bind_ok.1 h
  have hend : second.next = none := not_not.1 (failIf_ok.1 h)
  obtain ⟨events, hrun, -⟩ := Package.run_of_exec Package.opens_reference hexec
  have hext := Package.Run.extends hrun (Package.sound_fresh .reference (ascii "c"))
  have hreach : Reachable .reference (fun _ => True) (ascii "c") ⟨⟨db, []⟩, .empty⟩ :=
    ⟨_, run_of_package hrun .empty⟩
  have hopens : Impl.reference.Opens db.containerKey := by
    rw [hext.containerKey]
    exact Package.opens_reference
  obtain ⟨hstart, hcommit⟩ : Run (Step .reference fun _ => True) ⟨⟨db, []⟩, .empty⟩ _ _ ∧
      Step .reference (fun _ => True) _ _ ⟨⟨db', []⟩, .empty⟩ :=
    run_call .empty [] hopens (fun _ => trivial) hcall
  have hrun' := hstart.snoc hcommit
  have hopens₁ : OntologyImpl.Opens ⟨ascii "c", false⟩ db := ⟨hext.userVersion, hext.containerKey⟩
  have hopens₂ : OntologyImpl.Opens ⟨ascii "c", false⟩ db' := by
    have hnumbered := hrun'.invariant (fun hs hstep => hstep.numbered hs) hreach.numbered
    exact ⟨hnumbered.version, hnumbered.sound.package.containerKey⟩
  have hpage₁ : (Listed.query allFiles).read .reference ⟨ascii "c", false⟩ ⟨⟨db, []⟩, .empty⟩
      .initial 1 (fun _ => false) = .ok first := hfirst
  have hpage₂ : (Listed.query allFiles).read .reference ⟨ascii "c", false⟩ ⟨⟨db', []⟩, .empty⟩
      next 1 (fun _ => false) = .ok second := hsecond
  have hpages : Pages .reference (fun _ => True) (.query allFiles) ⟨⟨db, []⟩, .empty⟩ .initial
      [first, second] none :=
    .more (.nil _) hopens₁ hpage₁ (orFail_ok.1 hnext) (.last hrun' hopens₂ hpage₂ hend)
  obtain ⟨_, w₁, query, listing, -, hnames, hlisting, -, hall⟩ :=
    (Reachable.consistent_pages Function.injective_id hreach).1 _ _ _ hpages (List.cons_ne_nil _ _)
  obtain rfl : allFiles = query := hnames
  exact ⟨_, w₁, _, listing, hpages, rfl, hlisting, hall rfl⟩

end Workspace

end FileProvider
