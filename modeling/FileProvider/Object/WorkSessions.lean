import FileProvider.Library.CappedPages
import FileProvider.Object.Documents
import FileProvider.Object.Reachable

/-!
# Work sessions in pages

`ObjectStore::sessions` reads work sessions in the order of their sequence numbers and ends a page
early where the texts of its sessions would pass 16 MiB. No session that `beginSession` accepts is
as large by itself: each of its eight texts is bound to a statement, which refuses more than 2 MiB.
Every context that is stored was encoded, so it is read back; a page is therefore empty only where
no session is left.

The pages are those of `Library.CappedPages`, which asks only that each entry by itself fits. That
the context of a session is read back comes from `Object.Documents`, as each of them was encoded
when it was stored.
-/

namespace FileProvider

open Bytes Fallible Impl Relation

variable {P : Platform} {m : Impl} {db db' : ObjectTables} {container : Bytes}

/-! ## The reader -/

/-- A question for work sessions. `afterSequence` is a cursor. -/
structure ObjectSessionQuery where
  afterSequence : Int
  limit : Nat
  activeOnly : Bool

/-- A work session with its context. -/
structure WorkSessionRecord where
  sequence : Nat
  session : ObjectSession
  context : ObjectSessionContext

namespace ObjectStore

/-- The limit of a page of sessions. -/
def maximumSessionPage : Nat := 16 * 1024 * 1024

/-- The bytes of a session that count towards the limit of a page. -/
def sessionBytes (document : Bytes) (session : ObjectSession) : Nat :=
  document.length + session.author.profile.payload.length + session.author.displayName.length
    + session.device.length + session.description.length + session.author.origin.length
    + session.author.subject.length + session.key.length

/-- The rows of `work_sessions` joined with their sessions, or with those that have not ended. -/
def selectedSessions (db : ObjectTables) (activeOnly : Bool) : List WorkSessionRow :=
  db.workSessions.rows.filter fun w =>
    (db.sessions.find w.sessionKey).any fun s => !activeOnly || s.ended = 0

/-- The sessions of a page, as far as the limit of a page admits them. -/
def collectSessions (P : Platform) (db : ObjectTables) :
    Nat → List WorkSessionRow → Fallible (List WorkSessionRecord)
  | _, [] => pure []
  | bytes, w :: rows => do
      let session ← getSession db w.sessionKey false
      let amount := sessionBytes w.context session
      if maximumSessionPage < bytes + amount then pure [] else do
        let context ← MetadataCodec.decodeSessionContext P.json w.context
        let rest ← collectSessions P db (bytes + amount) rows
        pure (⟨w.sequence, session, context⟩ :: rest)

def sessions (P : Platform) (m : Impl) (db : ObjectTables) (query : ObjectSessionQuery) :
    Fallible (List WorkSessionRecord) := do
  failIf (query.afterSequence < 0 ∨ query.limit = 0 ∨ 128 < query.limit)
    "invalid work-session page"
  requireJournal m
  let rows := (selectedSessions db query.activeOnly).filter
    fun w => query.afterSequence < w.sequence
  collectSessions P db 0 ((Keyset.orderBy (·.sequence) rows).take query.limit)

end ObjectStore

open ObjectStore

/-! ## The invariant -/

/-- A row of `work_sessions` that can be read, as the record. -/
structure WorkSessionRow.Reads (P : Platform) (db : ObjectTables) (w : WorkSessionRow)
    (x : WorkSessionRecord) : Prop where
  sequence : x.sequence = w.sequence
  session : getSession db w.sessionKey false = .ok x.session
  context : MetadataCodec.decodeSessionContext P.json w.context = .ok x.context
  light : sessionBytes w.context x.session ≤ maximumSessionPage

/-- What holds of the work sessions of a package. -/
structure WorkSessionInvariant (P : Platform) (db : ObjectTables) : Prop where
  ascending : Keyset.Ascending (·.sequence) db.workSessions.rows
  bounds : ∀ w ∈ db.workSessions, 1 ≤ w.sequence ∧ w.sequence ≤ db.workSessionsSequence
  readable : ∀ w ∈ db.workSessions, ∃ x, w.Reads P db x
  covered : ∀ s ∈ db.sessions, db.workSessions.find s.sessionKey ≠ none

namespace WorkSessionInvariant

/-- A fresh package has no working sessions. -/
theorem fresh (P : Platform) (container : Bytes) : WorkSessionInvariant P (.fresh container) where
  ascending := .nil
  bounds _ h := absurd h (Table.not_mem_empty _)
  readable _ h := absurd h (Table.not_mem_empty _)
  covered _ h := absurd h (Table.not_mem_empty _)

/-- The texts of a session that was inserted are as short as a statement can bind. -/
theorem insertSession_bounds {row : SessionRow} (h : db.insertSession row = .ok db') :
    ∀ t ∈ [row.sessionKey, row.origin, row.subject, row.name, row.device, row.description,
      row.profileFormat, row.profile], t.length ≤ maximumText := by
  simp only [ObjectTables.insertSession, bind_ok, bindTexts_ok] at h
  exact h.choose_spec.1

/-- The context of a working session is within the limit of texts. -/
theorem insertWorkSession_bound {key context : Bytes}
    (h : db.insertWorkSession key context = .ok db') : context.length ≤ maximumText := by
  simp only [ObjectTables.insertWorkSession, bind_ok, bindTexts_ok] at h
  obtain ⟨-, hbound, -⟩ := h
  exact hbound context (by simp)

/-- **The texts that the statements bind fit into a page.** Seven texts of the row are counted
beside the context, and the limit of a page is eight times the bound of a text. -/
theorem light_of_bounds {row : SessionRow} {context : Bytes}
    (h : ∀ t ∈ [row.sessionKey, row.origin, row.subject, row.name, row.device, row.description,
      row.profileFormat, row.profile], t.length ≤ maximumText)
    (hcontext : context.length ≤ maximumText) :
    sessionBytes context (sessionOf row) ≤ maximumSessionPage := by
  simp only [List.forall_mem_cons] at h
  obtain ⟨hkey, horigin, hsubject, hname, hdevice, hdescription, -, hprofile, -⟩ := h
  show context.length + row.profile.length + row.name.length + row.device.length
    + row.description.length + row.origin.length + row.subject.length + row.sessionKey.length
    ≤ maximumSessionPage
  have hmaximum : maximumSessionPage = 8 * maximumText := by decide
  omega

/-- A session begins. -/
theorem beginSession {author : ObjectAuthor} {device description : Bytes}
    {context : ObjectSessionContext} {draws : Draws} {s : ObjectSession}
    (h : WorkSessionInvariant P db)
    (hcall : ObjectStore.beginSession P m db author device description context draws
      = .ok (s, db')) : WorkSessionInvariant P db' := by
  obtain ⟨row, mid, document, hencode, hmid, hlast⟩ := beginSession_ok hcall
  have hlight := light_of_bounds (insertSession_bounds hmid) (insertWorkSession_bound hlast)
  obtain ⟨hkey, sessions, hsessions, rfl⟩ := ObjectTables.insertSession_ok hmid
  obtain ⟨-, workSessions, hwork, rfl⟩ := ObjectTables.insertWorkSession_ok hlast
  obtain ⟨hfree, hfind⟩ := Table.find_insert hsessions
  have hmem : ∀ w, w ∈ workSessions ↔ w ∈ db.workSessions ∨
      w = ⟨db.workSessionsSequence + 1, row.sessionKey, document⟩ :=
    fun w => Table.mem_insert hwork
  refine ⟨?_, ?_, ?_, ?_⟩
  · show Keyset.Ascending (·.sequence) workSessions.rows
    rw [Table.rows_insert hwork, Keyset.Ascending, List.pairwise_append]
    refine ⟨h.ascending, List.pairwise_singleton _ _, fun a ha b hb => ?_⟩
    obtain rfl := List.mem_singleton.1 hb
    exact Nat.lt_succ_of_le (h.bounds a ha).2
  · intro w hw
    show 1 ≤ w.sequence ∧ w.sequence ≤ db.workSessionsSequence + 1
    rcases (hmem w).1 hw with hw | rfl
    · have hbounds := h.bounds w hw
      omega
    · exact ⟨Nat.succ_pos _, le_rfl⟩
  · intro w hw
    rcases (hmem w).1 hw with hw | rfl
    · obtain ⟨x, hx⟩ := h.readable w hw
      refine ⟨x, hx.sequence, ?_, hx.context, hx.light⟩
      obtain ⟨hbound, old, hold, hopen, hsession⟩ := getSession_ok.1 hx.session
      refine getSession_ok.2 ⟨hbound, old, ?_, hopen, hsession⟩
      show sessions.find w.sessionKey = some old
      rw [hfind, if_neg, hold]
      intro heq
      rw [← heq, hfree] at hold
      cases hold
    · refine ⟨⟨_, sessionOf row, context⟩, rfl, ?_,
        MetadataCodec.decodeSessionContext_of_encode hencode, hlight⟩
      refine getSession_ok.2 ⟨hkey, row, ?_, (fun hactive => by cases hactive), rfl⟩
      show sessions.find row.sessionKey = some row
      rw [hfind, if_pos rfl]
  · intro s hs
    show workSessions.find s.sessionKey ≠ none
    rw [(Table.find_insert hwork).2]
    split
    · exact Option.some_ne_none _
    · next hne =>
        refine h.covered s (((Table.mem_insert hsessions).1 hs).resolve_right ?_)
        rintro rfl
        exact hne rfl

/-- A session ends. -/
theorem setEnded {key : Bytes} {ended : Int} (h : WorkSessionInvariant P db)
    (hcall : db.setEnded key ended = .ok db') : WorkSessionInvariant P db' := by
  obtain rfl := ObjectTables.setEnded_ok hcall
  refine ⟨h.ascending, h.bounds, ?_, ?_⟩
  · intro w hw
    obtain ⟨x, hx⟩ := h.readable w hw
    obtain ⟨hbound, old, hold, -, hsession⟩ := getSession_ok.1 hx.session
    have hfind := Table.find_modify db.sessions key (fun s => { s with ended }) (fun _ => rfl)
      w.sessionKey
    rw [hold] at hfind
    have hlight := hx.light
    rw [← hsession] at hlight
    split at hfind
    · refine ⟨⟨w.sequence, sessionOf { old with ended }, x.context⟩, rfl, ?_, hx.context, hlight⟩
      exact getSession_ok.2 ⟨hbound, _, hfind, (fun hactive => by cases hactive), rfl⟩
    · refine ⟨⟨w.sequence, sessionOf old, x.context⟩, rfl, ?_, hx.context, hlight⟩
      exact getSession_ok.2 ⟨hbound, old, hfind, (fun hactive => by cases hactive), rfl⟩
  · intro s hs
    have hs : s ∈ db.sessions.modify key (fun s => { s with ended }) (fun _ => rfl) := hs
    obtain ⟨old, hold, hcase⟩ := Table.mem_modify.1 hs
    have hkey : s.sessionKey = old.sessionKey := by
      rw [← hcase]
      split <;> rfl
    rw [hkey]
    exact h.covered old hold

end WorkSessionInvariant

/-- A publication leaves the sessions as they are. -/
theorem Publication.sessions_eq (h : Publication P m db db') : db'.sessions = db.sessions ∧
    db'.workSessions = db.workSessions ∧
      db'.workSessionsSequence = db.workSessionsSequence := by
  cases h with
  | create hc =>
      obtain ⟨created, hins, hstores⟩ := hc.insert
      obtain ⟨-, -, -, objects, -, rfl⟩ := ObjectTables.insertObject_ok hins
      refine ⟨hc.sessions, ?_, ?_⟩ <;> rw [hc.publishes.rest, hstores.rest]
  | revise hr =>
      obtain ⟨_, _, -, -, -, hp⟩ := publish_ok hr.publish
      refine ⟨?_, ?_, ?_⟩ <;> rw [hp.rest, hr.stores.rest]

/-- A publication leaves the working sessions. -/
theorem WorkSessionInvariant.publication (h : WorkSessionInvariant P db)
    (hcall : Publication P m db db') : WorkSessionInvariant P db' := by
  obtain ⟨hsessions, hwork, hsequence⟩ := hcall.sessions_eq
  refine ⟨hwork ▸ h.ascending, ?_, ?_, ?_⟩
  · rw [hwork, hsequence]
    exact h.bounds
  · rw [hwork]
    intro w hw
    obtain ⟨x, hx⟩ := h.readable w hw
    have hsession := getSession_ok.1 hx.session
    rw [← hsessions] at hsession
    exact ⟨x, hx.sequence, getSession_ok.2 hsession, hx.context, hx.light⟩
  · rw [hsessions, hwork]
    exact h.covered

/-- So do several publications, by induction on them. -/
theorem WorkSessionInvariant.publications (h : WorkSessionInvariant P db)
    (hcall : ReflTransGen (Publication P m) db db') : WorkSessionInvariant P db' := by
  induction hcall with
  | refl => exact h
  | tail _ hpublication ih => exact ih.publication hpublication

/-- **Every call keeps the invariant.** A call begins a session, ends one, or is a sequence of
publications, which leave the sessions alone. -/
theorem WorkSessionInvariant.call {call : Call} {before : ObjectTables} {draws : Draws}
    {response : Response} (h : WorkSessionInvariant P db)
    (hcall : call.run P m before db draws = .ok (response, db')) : WorkSessionInvariant P db' := by
  rcases Call.run_cases hcall with ⟨_, _, _, _, _, hbegin⟩ | ⟨_, hend⟩ | hpublications
  · exact h.beginSession hbegin
  · exact h.setEnded (endSession_ok hend).2
  · exact h.publications hpublications

/-- The sessions of every reachable package can be read. -/
theorem Package.Step.workSessions {σ τ : Package} {e : Package.Event}
    (h : Package.Step P σ e τ) (hi : WorkSessionInvariant P σ.tables) :
    WorkSessionInvariant P τ.tables := by
  cases h with
  | start m call hm => exact hi
  | commit hrun => exact hi.call hrun
  | fail c => exact hi

/-! ## Pages -/

/-- A row of `work_sessions` read by itself. -/
def ObjectStore.readSession (P : Platform) (db : ObjectTables) (w : WorkSessionRow) :
    Fallible WorkSessionRecord := do
  let session ← getSession db w.sessionKey false
  let context ← MetadataCodec.decodeSessionContext P.json w.context
  pure ⟨w.sequence, session, context⟩

/-- A working session with its rows in place is read. -/
theorem WorkSessionRow.Reads.readSession {w : WorkSessionRow} {x : WorkSessionRecord}
    (h : w.Reads P db x) : ObjectStore.readSession P db w = .ok x := by
  simp only [ObjectStore.readSession, bind_ok, pure_ok]
  exact ⟨_, h.session, _, h.context, by rw [← h.sequence]⟩

/-- **A page is a first part of the rows that were selected**, and holds the first of them. The
first row fits, as each of them does by itself, and further ones are taken as long as the sum stays
within the limit. -/
theorem collectSessions_ok {f : WorkSessionRow → WorkSessionRecord} :
    ∀ (rows : List WorkSessionRow) (bytes : Nat), (∀ w ∈ rows, w.Reads P db (f w)) →
    ∃ k, collectSessions P db bytes rows = .ok ((rows.map f).take k) ∧
      (bytes = 0 → rows ≠ [] → k ≠ 0)
  | [], _, _ => ⟨0, rfl, fun _ hne => absurd rfl hne⟩
  | w :: rows, bytes, h => by
      have hw := h w List.mem_cons_self
      unfold collectSessions
      by_cases hcap : maximumSessionPage < bytes + sessionBytes w.context (f w).session
      · refine ⟨0, bind_ok.2 ⟨_, hw.session, ?_⟩, fun hzero => ?_⟩
        · rw [if_pos hcap]
          rfl
        · have hlight := hw.light
          omega
      · obtain ⟨k, hk, -⟩ := collectSessions_ok rows (bytes + sessionBytes w.context (f w).session)
          fun w' hw' => h w' (List.mem_cons_of_mem _ hw')
        refine ⟨k + 1, bind_ok.2 ⟨_, hw.session, ?_⟩, fun _ _ => Nat.succ_ne_zero k⟩
        rw [if_neg hcap, bind_ok]
        refine ⟨_, hw.context, bind_ok.2 ⟨_, hk, pure_ok.2 ?_⟩⟩
        rw [List.map_cons, List.take_succ_cons, ← hw.sequence]

/-- The cursor of a work session. -/
def WorkSessionRecord.cursor (x : WorkSessionRecord) : Int := x.sequence

/-- Reading work sessions in pages gives each of them, in a fixed state. -/
structure SessionPaging (P : Platform) (m : Impl) (db : ObjectTables) (activeOnly : Bool)
    (records : List WorkSessionRecord) : Prop where
  rows : (selectedSessions db activeOnly).mapM (readSession P db) = .ok records
  /-- The records are those of the sessions that were asked for, one for each. -/
  sessions : ∀ s : ObjectSession, (∃ x ∈ records, x.session = s) ↔
    ∃ row ∈ db.sessions, sessionOf row = s ∧ (activeOnly = true → row.ended = 0)
  distinct : (records.map (·.session.key)).Nodup
  ascending : Keyset.Ascending WorkSessionRecord.cursor records
  /-- A page is empty only where no session is left. -/
  page : ∀ (after : Int) (limit : Nat), 0 ≤ after → 1 ≤ limit → limit ≤ 128 →
    ∃ page, ObjectStore.sessions P m db ⟨after, limit, activeOnly⟩ = .ok page ∧
      (page = [] ↔ ∀ x ∈ records, x.cursor ≤ after)
  /-- Every page takes the reader at least one session further. -/
  enumerated : ∀ limits : List Nat, (∀ limit ∈ limits, 1 ≤ limit ∧ limit ≤ 128) →
    ∃ n, Keyset.readPages WorkSessionRecord.cursor
        (fun after limit => ObjectStore.sessions P m db ⟨after, limit, activeOnly⟩) 0 limits
      = .ok (records.take n) ∧ min limits.length records.length ≤ n

/-- What one page is. The rows past the cursor are filtered and ordered in the source, and the page
is a first part of them that is empty only if there are none. -/
theorem WorkSessionInvariant.fetch (h : WorkSessionInvariant P db) (hm : ¬ m.schema < 4)
    {f : WorkSessionRow → WorkSessionRecord} (hf : ∀ w ∈ db.workSessions, w.Reads P db (f w))
    (activeOnly : Bool) {after : Int} {limit : Nat} (hafter : 0 ≤ after) (hlimit : 1 ≤ limit)
    (hmax : limit ≤ 128) :
    ∃ k, ObjectStore.sessions P m db ⟨after, limit, activeOnly⟩
        = .ok ((Keyset.past WorkSessionRecord.cursor
          ((selectedSessions db activeOnly).map f) after).take k) ∧
      (Keyset.past WorkSessionRecord.cursor ((selectedSessions db activeOnly).map f) after ≠ [] →
        k ≠ 0) := by
  have hcursor : ∀ w ∈ db.workSessions, (f w).cursor = w.sequence := by
    intro w hw
    exact congrArg _ (hf w hw).sequence
  have hselected : ∀ w ∈ selectedSessions db activeOnly, w ∈ db.workSessions :=
    fun w hw => (List.mem_filter.1 hw).1
  have hpast : Keyset.past WorkSessionRecord.cursor ((selectedSessions db activeOnly).map f) after
      = ((selectedSessions db activeOnly).filter fun w => after < w.sequence).map f := by
    rw [Keyset.past, List.filter_map]
    refine congrArg _ (List.filter_congr fun w hw => ?_)
    show decide (after < (f w).cursor) = _
    rw [hcursor w (hselected w hw)]
  have hasc : Keyset.Ascending (·.sequence)
      ((selectedSessions db activeOnly).filter fun w => after < w.sequence) :=
    (h.ascending.sublist List.filter_sublist).sublist List.filter_sublist
  obtain ⟨k, hk, hne⟩ := collectSessions_ok
    (((selectedSessions db activeOnly).filter fun w => after < w.sequence).take limit) 0
    fun w hw => hf w (hselected w (List.mem_filter.1 (List.mem_of_mem_take hw)).1)
  refine ⟨min k limit, ?_, ?_⟩
  · unfold ObjectStore.sessions
    simp only [bind_ok, requireJournal, failIf_ok]
    refine ⟨(), by omega, (), hm, ?_⟩
    rw [Keyset.orderBy_eq_self hasc, hk, hpast, List.map_take, List.take_take]
  · rw [hpast]
    intro hpast hzero
    refine hne rfl ?_ (by omega)
    intro hnil
    rcases List.take_eq_nil_iff.1 hnil with hlimit' | hnil
    · omega
    · exact hpast (by rw [hnil]; rfl)

/-- The rows that were selected, as records. -/
theorem WorkSessionInvariant.selected (h : WorkSessionInvariant P db)
    {f : WorkSessionRow → WorkSessionRecord} (hf : ∀ w ∈ db.workSessions, w.Reads P db (f w))
    (activeOnly : Bool) (s : ObjectSession) :
    (∃ x ∈ (selectedSessions db activeOnly).map f, x.session = s) ↔
      ∃ row ∈ db.sessions, sessionOf row = s ∧ (activeOnly = true → row.ended = 0) := by
  constructor
  · rintro ⟨x, hx, rfl⟩
    obtain ⟨w, hw, rfl⟩ := List.mem_map.1 hx
    obtain ⟨hw, hany⟩ := List.mem_filter.1 hw
    obtain ⟨-, row, hrow, -, hsession⟩ := getSession_ok.1 (hf w hw).session
    rw [hrow, Option.any_some, Bool.or_eq_true, Bool.not_eq_true', decide_eq_true_eq] at hany
    refine ⟨row, Table.mem_of_find hrow, hsession, fun hactive => hany.resolve_left ?_⟩
    rw [hactive]
    exact Bool.noConfusion
  · rintro ⟨row, hrow, rfl, hopen⟩
    obtain ⟨w, hw⟩ := Option.ne_none_iff_exists'.1 (h.covered row hrow)
    obtain ⟨hmem, hkey⟩ := Table.find_eq_some.1 hw
    have hfind : db.sessions.find w.sessionKey = some row := hkey ▸ Table.mem_iff_find.1 hrow
    refine ⟨f w, List.mem_map_of_mem (List.mem_filter.2 ⟨hmem, ?_⟩), ?_⟩
    · rw [hfind, Option.any_some, Bool.or_eq_true, Bool.not_eq_true', decide_eq_true_eq]
      cases activeOnly with
      | true => exact .inr (hopen rfl)
      | false => exact .inl rfl
    · obtain ⟨-, row', hrow', -, hsession⟩ := getSession_ok.1 (hf w hmem).session
      rw [hfind, Option.some.injEq] at hrow'
      rw [← hsession, hrow']

/-- **Reading work sessions in pages gives each of them.** Each row gives its record, and pages that
are never empty before the end go through all of them. -/
theorem WorkSessionInvariant.paging (h : WorkSessionInvariant P db) (hm : ¬ m.schema < 4)
    (activeOnly : Bool) : ∃ records, SessionPaging P m db activeOnly records := by
  have hchoice : ∀ w : WorkSessionRow, ∃ x, w ∈ db.workSessions → w.Reads P db x := by
    intro w
    by_cases hw : w ∈ db.workSessions
    · exact (h.readable w hw).imp fun x hx _ => hx
    · exact ⟨⟨0, ⟨[], ⟨[], [], [], .unknown⟩, [], [], 0, 0⟩, .empty⟩, fun hmem => absurd hmem hw⟩
  choose f hf using hchoice
  have hmem : ∀ w ∈ selectedSessions db activeOnly, w ∈ db.workSessions :=
    fun w hw => (List.mem_filter.1 hw).1
  have hascending : Keyset.Ascending WorkSessionRecord.cursor
      ((selectedSessions db activeOnly).map f) := by
    rw [Keyset.Ascending, List.pairwise_map]
    refine (h.ascending.sublist List.filter_sublist).imp_of_mem fun {a b} ha hb hlt => ?_
    rw [WorkSessionRecord.cursor, WorkSessionRecord.cursor, (hf a (hmem a ha)).sequence,
      (hf b (hmem b hb)).sequence]
    exact Int.ofNat_lt.2 hlt
  refine ⟨(selectedSessions db activeOnly).map f, ?_, h.selected hf activeOnly, ?_, hascending,
    ?_, ?_⟩
  · rw [mapM_ok, List.map_map]
    exact List.map_congr_left fun w hw => (hf w (hmem w hw)).readSession
  · have hkeys : ((selectedSessions db activeOnly).map f).map (·.session.key)
        = (selectedSessions db activeOnly).map (·.sessionKey) := by
      rw [List.map_map]
      exact List.map_congr_left fun w hw => getSession_key (hf w (hmem w hw)).session
    rw [hkeys]
    exact db.workSessions.nodup.sublist (List.filter_sublist.map _)
  · intro after limit hafter hlimit hmax
    obtain ⟨k, hk, hne⟩ := h.fetch hm hf activeOnly hafter hlimit hmax
    exact ⟨_, hk, Keyset.take_past_eq_nil hne⟩
  · intro limits hlimits
    have hstart : ∀ x ∈ (selectedSessions db activeOnly).map f, (0 : Int) < x.cursor := by
      intro x hx
      obtain ⟨w, hw, rfl⟩ := List.mem_map.1 hx
      have hbounds := h.bounds w (hmem w hw)
      rw [WorkSessionRecord.cursor, (hf w (hmem w hw)).sequence]
      omega
    have hfetch : ∀ after : Int, 0 ≤ after → ∀ limit ∈ limits, _ :=
      fun after hafter limit hlimit => h.fetch hm hf activeOnly hafter (hlimits limit hlimit).1
        (hlimits limit hlimit).2
    obtain ⟨n, hn, hle⟩ := Keyset.readPages_progress hascending hfetch
    rw [Keyset.past_eq_self hstart] at hn hle
    exact ⟨n, hn, hle⟩

end FileProvider
