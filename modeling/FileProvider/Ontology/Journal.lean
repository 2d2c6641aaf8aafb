import FileProvider.Object.WorkSessions
import FileProvider.Ontology.Batches

/-!
# The journal in pages

`OntologyFileSystem::journal` reads events in the order of their sequence numbers and ends a page
early where their documents would pass 8 MiB. A batch whose events pass 4 MiB is refused, so no
event is as large by itself, and every event belongs to a commit, so the join leaves none out.

The join with the commits is shown to lose no event, after which the pages are those of
`Library.CappedPages`. The bound on the events of a batch is what makes every event fit into a page.
-/

namespace FileProvider

open Bytes Fallible Ontology

variable {P : Platform} {L : JsonLibrary} {objects : ObjectTables} {o : OntologyTables}
  {session : Bytes}

/-! ## The reader -/

/-- An event of the journal with its commit. -/
structure OntologyEvent where
  sequence : Nat
  revision : Nat
  operation : Bytes
  subject : Bytes
  beforeJson : Bytes
  afterJson : Bytes
  sessionKey : Bytes
  atNs : Int
deriving DecidableEq

namespace OntologyEvent

/-- The event of a row of `ontology_journal` and its row of `ontology_commits`. -/
def ofRows (j : JournalRow) (c : CommitRow) : OntologyEvent :=
  ⟨j.sequence, j.revision, j.operation, j.subject, j.beforeJson, j.afterJson, c.sessionKey, c.atNs⟩

/-- The cursor of an event. -/
def cursor (e : OntologyEvent) : Int := e.sequence

/-- The bytes of an event that count towards the limit of a page. -/
def bytes (e : OntologyEvent) : Nat := e.beforeJson.length + e.afterJson.length

end OntologyEvent

namespace OntologyFileSystem

/-- The limit of a page of events. -/
def maximumJournalPage : Nat := 8 * 1024 * 1024

/-- The rows of the journal joined with their commits, or with those of one session. -/
def journalEvents (o : OntologyTables) (session : Bytes) : List OntologyEvent :=
  o.journal.rows.filterMap fun j =>
    ((o.commits.find j.revision).filter fun c => session = [] ∨ c.sessionKey = session).map
      (OntologyEvent.ofRows j)

def journal (L : JsonLibrary) (o : OntologyTables) (after : Int) (limit : Nat) (session : Bytes) :
    Fallible (List OntologyEvent) := do
  failIf (after < 0) "invalid ontology journal cursor"
  pageLimit limit
  text L session 1024 false
  let rows := (journalEvents o session).filter fun e => after < e.cursor
  pure (Keyset.within OntologyEvent.bytes maximumJournalPage 0
    ((Keyset.orderBy OntologyEvent.cursor rows).take limit))

end OntologyFileSystem

open OntologyFileSystem

/-! ## Pages -/

/-- Reading the journal in pages gives each of its events, in a fixed state. -/
structure JournalPaging (L : JsonLibrary) (o : OntologyTables) (session : Bytes)
    (events : List OntologyEvent) : Prop where
  /-- The events are those of the session that was asked for. -/
  mem : ∀ e, e ∈ events ↔ ∃ j ∈ o.journal, ∃ c ∈ o.commits, c.revision = j.revision ∧
    (session = [] ∨ c.sessionKey = session) ∧ e = .ofRows j c
  /-- Every row of the journal is one of them, unless its commit is of another session. -/
  complete : ∀ j ∈ o.journal, ∃ c ∈ o.commits, c.revision = j.revision ∧
    (session = [] ∨ c.sessionKey = session → OntologyEvent.ofRows j c ∈ events)
  ascending : Keyset.Ascending OntologyEvent.cursor events
  /-- A page is empty only where no event is left. -/
  page : ∀ (after : Int) (limit : Nat), 0 ≤ after → 1 ≤ limit → limit ≤ 1024 →
    ∃ page, journal L o after limit session = .ok page ∧
      (page = [] ↔ ∀ e ∈ events, e.cursor ≤ after)
  /-- Every page takes the reader at least one event further. -/
  enumerated : ∀ limits : List Nat, (∀ limit ∈ limits, 1 ≤ limit ∧ limit ≤ 1024) →
    ∃ n, Keyset.readPages OntologyEvent.cursor
        (fun after limit => journal L o after limit session) 0 limits = .ok (events.take n) ∧
      min limits.length events.length ≤ n

/-- The events of a session are the rows of its commits. -/
theorem mem_journalEvents {e : OntologyEvent} : e ∈ journalEvents o session ↔
    ∃ j ∈ o.journal, ∃ c ∈ o.commits, c.revision = j.revision ∧
      (session = [] ∨ c.sessionKey = session) ∧ e = .ofRows j c := by
  unfold journalEvents
  rw [List.mem_filterMap]
  refine exists_congr fun j => and_congr_right fun _ => ?_
  simp only [Option.map_eq_some_iff, Option.filter_eq_some_iff, decide_eq_true_eq]
  constructor
  · rintro ⟨c, ⟨hc, hsession⟩, rfl⟩
    obtain ⟨hmem, hrevision⟩ := Table.find_eq_some.1 hc
    exact ⟨c, hmem, hrevision, hsession, rfl⟩
  · rintro ⟨c, hmem, hrevision, hsession, rfl⟩
    exact ⟨c, ⟨Table.find_eq_some.2 ⟨hmem, hrevision⟩, hsession⟩, rfl⟩

/-- The events have the sequence numbers of their rows, which are distinct. -/
theorem journalEvents_nodup (o : OntologyTables) (session : Bytes) :
    ((journalEvents o session).map OntologyEvent.cursor).Nodup := by
  have hnodup : (o.journal.rows.map fun j => (j.sequence : Int)).Nodup := by
    rw [show (fun j : JournalRow => (j.sequence : Int)) = (fun n : Nat => (n : Int)) ∘
      JournalRow.sequence from rfl, ← List.map_map]
    exact o.journal.nodup.map fun _ _ h => Int.ofNat_inj.1 h
  refine hnodup.sublist (Keyset.filterMap_keys_sublist ?_ o.journal.rows)
  intro j e he
  obtain ⟨c, -, rfl⟩ := Option.map_eq_some_iff.1 he
  rfl

/-- **Reading the journal in pages gives each of its events.** The events have different cursors and
each fits into a page, so that the pages go through the listing. -/
theorem OntologyInvariant.paging (h : OntologyInvariant L objects o)
    (hsession : text L session 1024 false = .ok ()) :
    ∃ events, JournalPaging L o session events := by
  have hnodup := journalEvents_nodup o session
  have hascending := Keyset.ascending_orderBy hnodup
  have hlight : ∀ e ∈ Keyset.orderBy OntologyEvent.cursor (journalEvents o session),
      e.bytes ≤ maximumJournalPage := by
    intro e he
    obtain ⟨j, hj, c, -, -, -, rfl⟩ := mem_journalEvents.1 (Keyset.mem_orderBy.1 he)
    exact (h.bounded j hj).trans (by decide)
  have hfetch : ∀ (after : Int) (limit : Nat), 0 ≤ after → 1 ≤ limit → limit ≤ 1024 →
      ∃ k, journal L o after limit session = .ok ((Keyset.past OntologyEvent.cursor
          (Keyset.orderBy OntologyEvent.cursor (journalEvents o session)) after).take k) ∧
        (Keyset.past OntologyEvent.cursor
          (Keyset.orderBy OntologyEvent.cursor (journalEvents o session)) after ≠ [] →
          k ≠ 0) := by
    intro after limit hafter hlimit hmax
    obtain ⟨k, hk, hne⟩ := Keyset.within_page hlight after (Nat.one_le_iff_ne_zero.1 hlimit)
    refine ⟨k, ?_, hne⟩
    simp only [journal, pageLimit, bind_ok, failIf_ok, pure_ok]
    refine ⟨(), by omega, (), by omega, (), hsession, ?_⟩
    rw [Keyset.orderBy_filter hnodup, ← hk]
    rfl
  have hstart : ∀ e ∈ Keyset.orderBy OntologyEvent.cursor (journalEvents o session),
      (0 : Int) < e.cursor := by
    intro e he
    obtain ⟨j, hj, c, -, -, -, rfl⟩ := mem_journalEvents.1 (Keyset.mem_orderBy.1 he)
    have hpos := (h.sequence j hj).1
    show (0 : Int) < j.sequence
    omega
  refine ⟨_, ?_, ?_, hascending, ?_, ?_⟩
  · intro e
    rw [Keyset.mem_orderBy]
    exact mem_journalEvents
  · intro j hj
    obtain ⟨c, hc⟩ := Option.ne_none_iff_exists'.1 (h.committed j hj)
    obtain ⟨hmem, hrevision⟩ := Table.find_eq_some.1 hc
    refine ⟨c, hmem, hrevision, fun hsession => Keyset.mem_orderBy.2 ?_⟩
    exact mem_journalEvents.2 ⟨j, hj, c, hmem, hrevision, hsession, rfl⟩
  · intro after limit hafter hlimit hmax
    obtain ⟨k, hk, hne⟩ := hfetch after limit hafter hlimit hmax
    exact ⟨_, hk, Keyset.take_past_eq_nil hne⟩
  · intro limits hlimits
    obtain ⟨n, hn, hle⟩ := Keyset.readPages_progress hascending
      fun (after : Int) (hafter : 0 ≤ after) limit hlimit =>
        hfetch after limit hafter (hlimits limit hlimit).1 (hlimits limit hlimit).2
    rw [Keyset.past_eq_self hstart] at hn hle
    exact ⟨n, hn, hle⟩

/-! ## Reachable workspaces -/

namespace Workspace

variable {clock : Int → Prop} {w w' : Workspace} {container : Bytes} {m : Impl}

/-- The work sessions of every reachable workspace can be read. -/
theorem Reachable.workSessions (h : Reachable P clock container w) :
    WorkSessionInvariant P w.package.tables := by
  obtain ⟨events, hrun⟩ := h
  refine hrun.invariant (I := fun w => WorkSessionInvariant P w.package.tables) ?_
    (WorkSessionInvariant.fresh P container)
  intro w e w' hi hstep
  rcases hstep.package with ⟨e', -, hpackage⟩ | hsame
  · exact hpackage.workSessions hi
  · rw [hsame]
    exact hi

/-- **Pages that stop early always make progress.** In every workspace the stores and the semantic
filesystems reach, reading work sessions and reading the journal, each in pages of any limits,
gives every session and every event that was asked for: a page is empty only where none is left. -/
theorem Reachable.pages_progress (h : Reachable P clock container w) (hm : m.Opens container) :
    (∀ activeOnly, ∃ records, SessionPaging P m w.package.tables activeOnly records) ∧
      ∀ session, text P.json session 1024 false = .ok () →
        ∃ events, JournalPaging P.json w.ontology session events :=
  ⟨h.workSessions.paging hm.journal, fun _ hsession => h.sound.ontology.paging hsession⟩

/-- A change that defines an entity. -/
def sampleChange : OntologyChange := .ontologyEntity ⟨ascii "e", ascii "label", []⟩

/-- A session begins and an entity is defined in it; the pages of either component make progress. -/
theorem Reachable.pages_progress_sample : ∃ w : Workspace,
    w.package.tables.workSessions.rows ≠ [] ∧ w.ontology.journal.rows ≠ [] ∧
    (∀ activeOnly, ∃ records,
      SessionPaging .reference .reference w.package.tables activeOnly records) ∧
    ∀ session, text Platform.reference.json session 1024 false = .ok () →
      ∃ events, JournalPaging Platform.reference.json w.ontology session events := by
  have hok : (Package.exec .reference .reference [Package.sampleBegin] (.fresh (ascii "c")) >>=
      fun x => OntologyFileSystem.apply Platform.reference.json x.2 ⟨ascii "c", false⟩ .empty
        [sampleChange] 0 Package.sampleSession (fun _ => false) 0 >>= fun y =>
          failIf (x.2.workSessions.rows = [] ∨ y.2.journal.rows = [])
            "unexpected").isOk = true := by
    decide +kernel
  obtain ⟨u, h⟩ := exists_of_isOk hok
  obtain ⟨⟨responses, db⟩, hexec, h⟩ := bind_ok.1 h
  obtain ⟨⟨revision, o⟩, happly, hrows⟩ := bind_ok.1 h
  rw [failIf_ok, not_or] at hrows
  exact ⟨⟨⟨db, []⟩, o⟩, hrows.1, hrows.2,
    Reachable.pages_progress (Reachable.of_exec hexec happly) Package.opens_reference⟩

end Workspace

end FileProvider
