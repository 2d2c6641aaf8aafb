import FileProvider.Ontology.System

/-!
# Closed sessions

`endSession` puts the time it reads from the clock into the row of the session; a row whose time
is zero is that of a session that is still open. Every transaction that records something reads
the row again, so once a session has ended at another time than zero nothing is recorded under it,
and its row stays as it is.

The result is about both components at once, and rests on the one check that their transactions
share. In the sample another session begins after the end and records a file, and an import under
the ended one is refused.
-/

namespace FileProvider

open Bytes Fallible Impl Relation

variable {P : Platform} {m : Impl} {db db' : ObjectTables} {session : Bytes} {row : SessionRow}

/-! ## The tables of the stores -/

/-- Between two states nothing is recorded under a session. -/
structure RecordsNothing (session : Bytes) (db db' : ObjectTables) : Prop where
  row : db'.sessions.find session = db.sessions.find session
  context : ∀ w, db.workSessions.find session = some w → db'.workSessions.find session = some w
  revisions : ∀ id r, db'.revisions.find id = some r → r.sessionKey = session →
    db.revisions.find id = some r
  envelopes : ∀ id d r, db'.rawRevisions.find id = some d → db'.revisions.find id = some r →
    r.sessionKey = session → db.rawRevisions.find id = some d

namespace RecordsNothing

/-- Where nothing happens nothing is recorded. -/
theorem refl (session : Bytes) (db : ObjectTables) : RecordsNothing session db db where
  row := rfl
  context _ hw := hw
  revisions _ _ hr _ := hr
  envelopes _ _ _ hd _ _ := hd

/-- Recording nothing is transitive. -/
theorem trans {mid : ObjectTables} (h : RecordsNothing session db mid)
    (h' : RecordsNothing session mid db') : RecordsNothing session db db' where
  row := h'.row.trans h.row
  context w hw := h'.context w (h.context w hw)
  revisions id r hr hkey := h.revisions id r (h'.revisions id r hr hkey) hkey
  envelopes id d r hd hr hkey := by
    have hmid := h'.revisions id r hr hkey
    exact h.envelopes id d r (h'.envelopes id d r hd hr hkey) hmid hkey

/-- A publication in another session. The new revision and its document stand under another session,
and every other row is as it was. -/
theorem publishes {stored : ObjectTables} {x : ObjectRecord} {parts : List Chunk}
    {document : Bytes} (hp : Publishes stored x parts document db')
    (hext : Extends db db') (hsessions : stored.sessions = db.sessions)
    (hrevisions : stored.revisions = db.revisions)
    (hraws : stored.rawRevisions = db.rawRevisions) (hother : x.sessionKey ≠ session) :
    RecordsNothing session db db' where
  row := by rw [hp.sessions, hsessions]
  context w hw := hext.workSessions session w hw
  revisions id r hr hkey := by
    rw [hp.find_revision, hrevisions] at hr
    split at hr
    · obtain rfl := Option.some.inj hr
      exact absurd hkey hother
    · exact hr
  envelopes id d r hd hr hkey := by
    rw [hp.find_revision] at hr
    rw [hp.find_raw, hraws] at hd
    split at hr
    · obtain rfl := Option.some.inj hr
      exact absurd hkey hother
    · next hid =>
        rw [if_neg fun h => hid h.1] at hd
        exact hd

end RecordsNothing

/-- A session that is read as active is not one that has ended. -/
theorem getSession_ne {key : Bytes} {s : ObjectSession} (h : getSession db key true = .ok s)
    (hrow : db.sessions.find session = some row) (hended : row.ended ≠ 0) : key ≠ session := by
  intro heq
  obtain ⟨-, row', hrow', hopen, -⟩ := getSession_ok.1 h
  rw [heq, hrow, Option.some.injEq] at hrow'
  subst hrow'
  exact hended (hopen rfl)

/-- The sessions once one of them has ended. -/
theorem find_setEnded {key : Bytes} {ended : Int} (h : db.setEnded key ended = .ok db')
    (k : Bytes) : db'.sessions.find k = if k = key then
      (db.sessions.find k).map (fun s => { s with ended }) else db.sessions.find k := by
  obtain rfl := ObjectTables.setEnded_ok h
  exact Table.find_modify db.sessions key (fun s => { s with ended }) (fun _ => rfl) k

/-- **A change in an active session records nothing under one that has ended.** A publication is
made in a session that is active, and a session that begins takes another key. -/
theorem ActiveChange.recordsNothing (h : ActiveChange P m db db')
    (hrow : db.sessions.find session = some row) (hended : row.ended ≠ 0) :
    RecordsNothing session db db' := by
  have hext := h.change.toExtends
  cases h with
  | beginSession h h' =>
      obtain ⟨-, sessions, hins, rfl⟩ := ObjectTables.insertSession_ok h
      obtain ⟨-, workSessions, -, rfl⟩ := ObjectTables.insertWorkSession_ok h'
      obtain ⟨hfree, hall⟩ := Table.find_insert hins
      refine ⟨?_, hext.workSessions session, fun _ _ hr _ => hr, fun _ _ _ hd _ _ => hd⟩
      show sessions.find session = db.sessions.find session
      rw [hall, if_neg]
      intro heq
      rw [heq, hrow] at hfree
      cases hfree
  | @endSession _ key s ended hs h =>
      have hsessions := find_setEnded h session
      rw [if_neg (getSession_ne hs hrow hended).symm] at hsessions
      obtain rfl := ObjectTables.setEnded_ok h
      exact ⟨hsessions, hext.workSessions session, fun _ _ hr _ => hr, fun _ _ _ hd _ _ => hd⟩
  | @create stored _ r x s parts document now hc =>
      obtain ⟨created, hins, hstores⟩ := hc.insert
      obtain ⟨-, -, -, objects, -, rfl⟩ := ObjectTables.insertObject_ok hins
      obtain ⟨k, hx⟩ := hc.record_eq
      have hkey : x.sessionKey = s.key := by rw [hx]; rfl
      refine .publishes hc.publishes hext hc.stored_sessions (by rw [hstores.rest])
        (by rw [hstores.rest]) ?_
      rw [hkey]
      exact getSession_ne hc.session hrow hended
  | @revise stored _ expected old r x s parts raw now hr =>
      obtain ⟨document, _, -, -, hx, hp⟩ := publish_ok hr.publish
      have hkey : x.sessionKey = s.key := by rw [hx]; rfl
      refine .publishes hp hext (by rw [hr.stores.rest]) (by rw [hr.stores.rest])
        (by rw [hr.stores.rest]) ?_
      rw [hkey]
      exact getSession_ne hr.session hrow hended

/-- A sequence of changes records nothing under a session that has ended. -/
theorem recordsNothing_of_changes (h : ReflTransGen (ActiveChange P m) db db')
    (hrow : db.sessions.find session = some row) (hended : row.ended ≠ 0) :
    RecordsNothing session db db' := by
  induction h with
  | refl => exact .refl session db
  | tail _ hchange ih => exact ih.trans (hchange.recordsNothing (ih.row.trans hrow) hended)

/-! ## The ontology -/

/-- What a batch does to the list of commits. -/
theorem OntologyFileSystem.apply_commits {L : JsonLibrary} {objects : ObjectTables}
    {m : OntologyImpl} {o o' : OntologyTables} {changes : List OntologyChange}
    {expected revision : Nat} {token : StopToken} {now : Int}
    (h : apply L objects m o changes expected session token now = .ok (revision, o')) :
    activeSession objects session = true ∧ (o'.commits = o.commits ∨
      ∃ row : CommitRow, row.sessionKey = session ∧ o.commits.insert row = some o'.commits) := by
  simp only [apply, bind_ok, failIf_ok, Bool.not_eq_false] at h
  obtain ⟨-, -, -, -, -, -, -, -, -, -, -, -, -, hactive, b, -, h⟩ := h
  refine ⟨hactive, ?_⟩
  unfold commit at h
  split at h
  · simp only [bind_ok, pure_ok, Prod.mk.injEq] at h
    obtain ⟨-, -, -, rfl⟩ := h
    exact .inl rfl
  · simp only [bind_ok, pure_ok, Prod.mk.injEq] at h
    obtain ⟨-, -, written, hwritten, -, -, -, rfl⟩ := h
    simp only [OntologyTables.insertCommit, bind_ok, orFail_ok, pure_ok] at hwritten
    obtain ⟨-, -, commits, hins, -, -, rfl⟩ := hwritten
    exact .inr ⟨_, rfl, hins⟩

/-- A session a batch finds active has not ended. -/
theorem OntologyFileSystem.activeSession_ne {key : Bytes}
    (h : activeSession db key = true) (hrow : db.sessions.find session = some row)
    (hended : row.ended ≠ 0) : key ≠ session := by
  intro heq
  rw [activeSession, heq, hrow] at h
  exact hended (of_decide_eq_true h)

/-! ## Workspaces -/

namespace Workspace

variable {clock : Int → Prop} {w w' : Workspace} {e : Event} {container : Bytes}
  {events : List Event}

/-- Between two states of a workspace nothing is recorded under a session. -/
structure RecordsNothing (session : Bytes) (w w' : Workspace) : Prop where
  package : FileProvider.RecordsNothing session w.package.tables w'.package.tables
  commits : ∀ c ∈ w'.ontology.commits, c.sessionKey = session → c ∈ w.ontology.commits

/-- One step records nothing under a session that has ended, and does not end it again. A step of
the package is a sequence of changes in active sessions, and one of the graph is made in an active
session too. -/
theorem Step.recordsNothing (h : Step P clock w e w')
    (hrow : w.package.tables.sessions.find session = some row) (hended : row.ended ≠ 0) :
    RecordsNothing session w w' ∧
      ∀ response, e ≠ .store (.commit (.endSession session) response) := by
  cases h with
  | start h =>
      cases h with
      | start m call hm =>
          refine ⟨⟨.refl _ _, fun c hc _ => hc⟩, ?_⟩
          intro response he
          cases he
  | commit hclock hrun =>
      refine ⟨⟨recordsNothing_of_changes (Call.run_activeChanges hrun) hrow hended,
        fun c hc _ => hc⟩, ?_⟩
      intro response he
      obtain ⟨hcall, -⟩ := Package.Event.commit.inj (Event.store.inj he)
      obtain ⟨s, hs, hopen⟩ := Call.run_session (by rw [hcall]; rfl) hrun
      rw [show _ = some row from hrow, Option.some.injEq] at hs
      exact hended (hs ▸ hopen)
  | fail h =>
      cases h with
      | fail c =>
          refine ⟨⟨.refl _ _, fun c hc _ => hc⟩, ?_⟩
          intro response he
          cases he
  | @apply σ o o' m changes expected revision key cancellation now hm hclock h =>
      obtain ⟨hactive, hcommits⟩ := OntologyFileSystem.apply_commits h
      have hne := OntologyFileSystem.activeSession_ne hactive hrow hended
      refine ⟨⟨.refl _ _, ?_⟩, ?_⟩
      · intro c hc hkey
        rcases hcommits with hsame | ⟨row', hrow', hins⟩
        · rw [← hsame]
          exact hc
        · rcases (Table.mem_insert hins).1 hc with hc | rfl
          · exact hc
          · exact absurd (hrow'.symm.trans hkey) hne
      · intro response he
        cases he

/-- A run from a state in which a session has ended records nothing under it. -/
theorem recordsNothing_of_run (h : Run (Step P clock) w events w')
    (hrow : w.package.tables.sessions.find session = some row) (hended : row.ended ≠ 0) :
    RecordsNothing session w w' ∧
      ∀ response, .store (.commit (.endSession session) response) ∉ events := by
  induction h with
  | nil => exact ⟨⟨.refl _ _, fun _ hc _ => hc⟩, fun _ => List.not_mem_nil⟩
  | cons hstep _ ih =>
      obtain ⟨hfirst, hne⟩ := hstep.recordsNothing hrow hended
      obtain ⟨hrest, hmem⟩ := ih (hfirst.package.row.trans hrow)
      refine ⟨⟨hfirst.package.trans hrest.package, ?_⟩, ?_⟩
      · intro c hc hkey
        exact hfirst.commits c (hrest.commits c hc hkey) hkey
      · intro response
        rw [List.mem_cons, not_or]
        exact ⟨(hne response).symm, hmem response⟩

/-- What the end of a session does to its row. It was active before, and only the time of its end is
written. -/
theorem Step.endSession {response : Response}
    (h : Step P clock w (.store (.commit (.endSession session) response)) w') :
    ∃ row ended, clock ended ∧ w.package.tables.sessions.find session = some row ∧
      w'.package.tables.sessions.find session = some { row with ended } := by
  obtain ⟨σ, o⟩ := w
  obtain ⟨τ, o'⟩ := w'
  generalize he : Event.store (.commit (.endSession session) response) = e at h
  cases h with
  | start _ => cases he
  | @commit db db' l r c draws response' o hclock hrun =>
      obtain ⟨hcall, -⟩ := Package.Event.commit.inj (Event.store.inj he)
      rw [← hcall] at hrun
      simp only [Call.run, map_ok, Prod.mk.injEq] at hrun
      obtain ⟨db', hrun, -, rfl⟩ := hrun
      obtain ⟨⟨s, hs⟩, hended⟩ := endSession_ok hrun
      obtain ⟨-, row, hrow, -, -⟩ := getSession_ok.1 hs
      refine ⟨row, draws.now 0, hclock 0, hrow, ?_⟩
      show db'.sessions.find session = _
      rw [find_setEnded hended, if_pos rfl, hrow]
      rfl
  | fail _ => cases he
  | apply _ _ _ => cases he

/-- **A closed session records nothing.** Once a session has ended, at a time other than zero, no
revision, envelope or commit is recorded under it and it does not end again; its row is that of
before but for the time of its end, its context stays, and what was valid is valid. -/
theorem closedSession {before after : List Event} {w₁ : Workspace} {response : Response}
    (hclock : ¬ clock 0) (h : Run (Step P clock) (fresh container) before w)
    (hend : Step P clock w (.store (.commit (.endSession session) response)) w₁)
    (h' : Run (Step P clock) w₁ after w') :
    RecordsNothing session w₁ w' ∧
    (∀ response, .store (.commit (.endSession session) response) ∉ after) ∧
    (∃ row ended, w.package.tables.sessions.find session = some row ∧
      w'.package.tables.sessions.find session = some { row with ended }) ∧
    (∀ context, w.package.tables.workSessions.find session = some context →
      w'.package.tables.workSessions.find session = some context) ∧
    ∀ (m : Impl) (key : Bytes) (v : Nat) (payload : Bool),
      validate P m w.package.tables key v payload = .ok true →
      validate P m w'.package.tables key v payload = .ok true := by
  obtain ⟨row, ended, hshown, hrow, hrow₁⟩ := hend.endSession
  have hended : ended ≠ 0 := by
    intro heq
    exact hclock (heq ▸ hshown)
  obtain ⟨hnothing, hmem⟩ := recordsNothing_of_run h' hrow₁ hended
  have hext : Extends w.package.tables w'.package.tables := by
    have hs := sound_of_run h
    obtain ⟨hs₁, hfirst⟩ := hend.keeps hs
    exact hfirst.trans (h'.relates (I := fun w => Package.Sound P container w.package)
      (R := fun w w' => Extends w.package.tables w'.package.tables) (fun _ => .refl _)
      Extends.trans (fun hs hstep => (hstep.keeps hs).1) (fun hs hstep => (hstep.keeps hs).2) hs₁)
  refine ⟨hnothing, hmem, ⟨row, ended, hrow, hnothing.package.row.trans hrow₁⟩, ?_, ?_⟩
  · intro context hcontext
    exact hext.workSessions session context hcontext
  · intro m key v payload hvalid
    exact hext.validate hvalid

/-! ## A session that is closed -/

/-- A call that succeeds at once is a run of two steps. -/
theorem run_call (o : OntologyTables) (waiting : List Started) {call : Call} {draws : Draws}
    {response : Response} (hm : m.Opens db.containerKey) (hclock : ∀ i, clock (draws.now i))
    (h : call.run P m db db draws = .ok (response, db')) :
    Run (Step P clock) ⟨⟨db, waiting⟩, o⟩ [.store (.start call)]
      ⟨⟨db, ⟨m, call, db⟩ :: waiting⟩, o⟩ ∧
    Step P clock ⟨⟨db, ⟨m, call, db⟩ :: waiting⟩, o⟩ (.store (.commit call response))
      ⟨⟨db', waiting⟩, o⟩ :=
  ⟨.cons (.start (.start m call hm)) (.nil _), .commit (l := []) (c := ⟨m, call, db⟩) hclock h⟩

/-- Calls that run one after the other are a run of a workspace, when its clock can show what they
are given. -/
theorem run_of_exec {calls : List (Call × Draws)} {responses : List Response} (o : OntologyTables)
    (hm : m.Opens db.containerKey) (hclock : ∀ c ∈ calls, ∀ i, clock (c.2.now i))
    (h : Package.exec P m calls db = .ok (responses, db')) :
    db'.containerKey = db.containerKey ∧
      ∃ events, Run (Step P clock) ⟨⟨db, []⟩, o⟩ events ⟨⟨db', []⟩, o⟩ := by
  induction calls generalizing db responses with
  | nil =>
      simp only [Package.exec, pure_ok, Prod.mk.injEq] at h
      obtain ⟨-, rfl⟩ := h
      exact ⟨rfl, [], .nil _⟩
  | cons head calls ih =>
      obtain ⟨call, draws⟩ := head
      obtain ⟨hfirst, hlater⟩ := List.forall_mem_cons.1 hclock
      simp only [Package.exec, bind_ok, Prod.exists, pure_ok, Prod.mk.injEq] at h
      obtain ⟨response, mid, hcall, rest, last, hrest, -, rfl⟩ := h
      have hkey := Package.containerKey_of_run hcall
      obtain ⟨hkey', events, hevents⟩ := ih (hkey.symm ▸ hm) hlater hrest
      obtain ⟨hstart, hcommit⟩ := run_call o [] hm hfirst hcall
      exact ⟨hkey'.trans hkey, _, (hstart.snoc hcommit).append hevents⟩

/-- Draws of a clock that shows a time after zero. -/
def lateDraws (n : Nat) : Draws := { Draws.numbered n with now := fun i => i + 1 }

/-- The late draws of the sample have a time after the start. -/
theorem lateDraws_now (n i : Nat) : 0 < (lateDraws n).now i := by
  show (0 : Int) < i + 1
  omega

/-- An import of a file. -/
def importOf (path session : Bytes) : Call := .importFile (.of [1, 2, 3]) path session .plain

/-- The session that begins when the sample session has ended. -/
def nextSession : Bytes := uniqueKey ((lateDraws 3).random 0) (ascii "session-")

/-- What is done before the sample session ends: it begins, and a file is imported in it. -/
def openingCalls : List (Call × Draws) :=
  [(Package.sampleBegin.1, lateDraws 0), (importOf (ascii "a") Package.sampleSession, lateDraws 1)]

/-- What is done afterwards: another session begins, and a file is imported in it. -/
def laterCalls : List (Call × Draws) :=
  [(Package.sampleBegin.1, lateDraws 3), (importOf (ascii "b") nextSession, lateDraws 4)]

/-- Nothing is recorded under the sample session when it has ended, though another session begins
afterwards and records a file. An import under the ended session is refused. -/
theorem closedSession_sample : ∃ (w w₁ w' : Workspace) (response : Response) (after : List Event),
    Step .reference (0 < ·) w (.store (.commit (.endSession Package.sampleSession) response)) w₁ ∧
    Run (Step .reference (0 < ·)) w₁ after w' ∧
    .store (.fail (importOf (ascii "c") Package.sampleSession)) ∈ after ∧
    (Call.run .reference .reference w'.package.tables w'.package.tables (lateDraws 5)
      (importOf (ascii "c") Package.sampleSession)).isOk = false ∧
    (∃ r ∈ w'.package.tables.revisions, r.sessionKey = nextSession) ∧
    RecordsNothing Package.sampleSession w₁ w' ∧
    ∃ row ended, w.package.tables.sessions.find Package.sampleSession = some row ∧
      w'.package.tables.sessions.find Package.sampleSession = some { row with ended } := by
  have hok : (do
      let mid ← Package.exec .reference .reference openingCalls (.fresh (ascii "c"))
      let closed ← Call.run .reference .reference mid.2 mid.2 (lateDraws 2)
        (.endSession Package.sampleSession)
      let last ← Package.exec .reference .reference laterCalls closed.2
      failIf ((Call.run .reference .reference last.2 last.2 (lateDraws 5)
        (importOf (ascii "c") Package.sampleSession)).isOk = true) "not refused"
      failIf (∀ r ∈ last.2.revisions.rows, r.sessionKey ≠ nextSession) "not recorded").isOk
      = true := by
    decide +kernel
  obtain ⟨_, h⟩ := exists_of_isOk hok
  simp only [bind_ok, Prod.exists, failIf_ok] at h
  obtain ⟨_, mid, hopening, response, closed, hend, _, last, hlater, _, hrefused, hrecorded⟩ := h
  have hclock {calls : List (Call × Draws)} (h : ∀ c ∈ calls, ∃ n, c.2 = lateDraws n) :
      ∀ c ∈ calls, ∀ i, 0 < c.2.now i := by
    intro c hc i
    obtain ⟨n, hn⟩ := h c hc
    rw [hn]
    exact lateDraws_now n i
  obtain ⟨hkey, before, hbefore⟩ := run_of_exec .empty Package.opens_reference
    (hclock (by simp [openingCalls])) hopening
  obtain ⟨hstart, hcommit⟩ := run_call .empty [] (hkey.symm ▸ Package.opens_reference)
    (lateDraws_now 2) hend
  have hkey' := (Package.containerKey_of_run hend).trans hkey
  obtain ⟨hkey'', after, hafter⟩ := run_of_exec .empty (hkey'.symm ▸ Package.opens_reference)
    (hclock (by simp [laterCalls])) hlater
  -- The refused import is one more call that starts, and fails.
  have hlast := hkey''.trans hkey'
  have hfail := (hafter.snoc (.start (.start .reference
    (importOf (ascii "c") Package.sampleSession) (hlast.symm ▸ Package.opens_reference)))).snoc
    (.fail (.fail (l := []) _))
  obtain ⟨hnothing, -, hrow, -⟩ :=
    closedSession (lt_irrefl 0) (hbefore.append hstart) hcommit hfail
  simp only [ne_eq, not_forall, not_not, exists_prop] at hrecorded
  exact ⟨_, _, _, response, _, hcommit, hfail, by simp, Bool.eq_false_iff.2 hrefused, hrecorded,
    hnothing, hrow⟩

end Workspace

end FileProvider
