import FileProvider.Library.JsonReference
import FileProvider.Object.Calls

/-!
# Reachable packages

The changes keep the history invariant, so every package the stores reach from a freshly
created one satisfies it; and every change extends the package, so what a run finds stored it
finds stored ever after.

The rule for runs is that of `Library.Transition`, and `Sound` is the conjunction to which it is
applied. The end of the module has a platform and a store to compute with, for the samples of later
modules.
-/

namespace FileProvider

open Bytes Fallible Impl

variable {P : Platform} {m m' : Impl} {db db' stored : ObjectTables} {container : Bytes}

/-! ## Stores that are open on one package -/

/-- Whether a connection may write does not matter for validation. -/
theorem validateChain_readOnly (key : Bytes) (v : Nat) (a b : Bool) :
    validateChain P ⟨container, 5, a⟩ db key v = validateChain P ⟨container, 5, b⟩ db key v := by
  induction v with
  | zero => rfl
  | succ v ih =>
      rw [validateChain, validateChain, ih]
      rfl

/-- All stores open on a package agree on what is valid. -/
theorem Impl.Opens.validate_eq (h : m.Opens container) (h' : m'.Opens container) (key : Bytes)
    (v : Nat) (payload : Bool) :
    validate P m db key v payload = validate P m' db key v payload := by
  obtain ⟨c, s, a⟩ := m
  obtain ⟨c', s', b⟩ := m'
  obtain ⟨rfl, rfl⟩ := h
  obtain ⟨rfl, rfl⟩ := h'
  rw [validate, validate, validateChain_readOnly key v a b]

/-- A connection to a migrated package knows the journal. -/
theorem Impl.Opens.journal (h : m.Opens container) : ¬ m.schema < 4 := by
  rw [h.schema]
  decide

/-- The invariant does not depend on the connection. -/
theorem HistoryInvariant.of_opens (h : m.Opens container) (h' : m'.Opens container)
    (hi : HistoryInvariant P m db) : HistoryInvariant P m' db :=
  { hi with valid := fun o ho v hv hle => (h'.validate_eq h _ _ _).trans (hi.valid o ho v hv hle) }

/-! ## Changes -/

/-- Inserting a session extends the package. -/
theorem insertSession_extends {row : SessionRow} (h : db.insertSession row = .ok db') :
    Extends db db' := by
  obtain ⟨-, sessions, hins, rfl⟩ := ObjectTables.insertSession_ok h
  obtain ⟨hfree, hall⟩ := Table.find_insert hins
  refine { Extends.refl db with sessions := fun k s hs => ⟨s.ended, ?_⟩ }
  rw [hall, if_neg, hs]
  rintro rfl
  rw [hfree] at hs
  cases hs

/-- Inserting a working session extends the package. -/
theorem insertWorkSession_extends {key context : Bytes}
    (h : db.insertWorkSession key context = .ok db') : Extends db db' := by
  obtain ⟨-, workSessions, hins, rfl⟩ := ObjectTables.insertWorkSession_ok h
  obtain ⟨hfree, hall⟩ := Table.find_insert hins
  refine { Extends.refl db with workSessions := fun k w hw => ?_ }
  rw [hall, if_neg, hw]
  rintro rfl
  rw [hfree] at hw
  cases hw

/-- Ending a session extends the package. -/
theorem setEnded_extends {key : Bytes} {ended : Int} (h : db.setEnded key ended = .ok db') :
    Extends db db' := by
  obtain rfl := ObjectTables.setEnded_ok h
  refine { Extends.refl db with sessions := fun k s hs => ?_ }
  rw [Table.find_modify, hs]
  split
  · exact ⟨ended, rfl⟩
  · exact ⟨s.ended, rfl⟩

/-- **Every change extends the package.** -/
theorem Change.toExtends (h : Change P m db db') : Extends db db' := by
  cases h with
  | beginSession h h' => exact (insertSession_extends h).trans (insertWorkSession_extends h')
  | endSession h => exact setEnded_extends h
  | create h => exact h.toExtends
  | revise h => exact h.toExtends

/-- What a content comes from is intact in a package with the history invariant. What was ingested
is intact by its hash and size, and what was kept is that of a validated version. -/
theorem Sourced.intact {r : ObjectRecord} {parts : List Chunk} (h : Sourced P db stored r parts)
    (hi : HistoryInvariant P m db) (hext : Extends db stored) : Intact P stored r parts := by
  cases h with
  | ingested content hing hsha hsize hlive => exact hing.intact hlive hsize hsha
  | kept old hget hpos hparts hsha hsize hold hlive =>
      obtain ⟨row, o, -, hrow, ho, -, -, -, -⟩ := get_record hget
      obtain ⟨hmem, hkey⟩ := Table.find_eq_some.1 ho
      have hrange := (hi.versions o hmem old.version).1
        (by rw [hkey, hrow]; exact Option.some_ne_none _)
      have hvalid := hi.valid o hmem old.version hrange.1 hrange.2
      rw [hkey] at hvalid
      obtain ⟨-, -, -, hpayload⟩ := validate_iff.1 hvalid
      obtain ⟨old', parts', hget', hparts', hintact⟩ := hpayload rfl
      obtain rfl : old = old' := by simpa [hget] using hget'
      obtain rfl : parts = parts' := by simpa [hparts] using hparts'
      obtain ⟨hcount, content, hcontent, hlen, hhash⟩ := hintact.content hold
      refine ⟨fun hd => ?_, fun _ => ⟨hsize ▸ hcount, content, hext.content hcontent,
        hlen.trans hsize.symm, hhash.trans hsha.symm⟩⟩
      rw [hlive] at hd
      cases hd
  | erased hdeleted hnil =>
      refine ⟨fun _ => hnil, fun hlive => ?_⟩
      rw [hdeleted] at hlive
      cases hlive

/-- A created record can be taken as the first revision of its object. The row of the new object and
the chunks are put in before the publication, and both keep the invariant. -/
theorem Creation.publishable {r x : ObjectRecord} {s : ObjectSession} {parts : List Chunk}
    {document : Bytes} {now : Int} (h : Creation P m db stored r s parts document now x db')
    (hi : HistoryInvariant P m db) :
    HistoryInvariant P m stored ∧ (Published db → PublishedBut r.key stored) ∧
      Publishable P m stored r s parts := by
  obtain ⟨created, hins, hstores⟩ := h.insert
  obtain ⟨hcreated, -, hbut⟩ := hi.insertObject hins
  have hstored := hcreated.of_stores hstores
  have hobject := h.stored_object
  refine ⟨hstored, fun hpub o ho => hbut hpub o ?_, ⟨⟨_, hobject, rfl, h.version⟩, ?_, ?_, ?_, ?_,
    h.source.intact hi h.stored_extends⟩⟩
  · have hobjects : stored.objects = created.objects := by rw [hstores.rest]
    rwa [hobjects] at ho
  · rw [h.version, h.parent]
    exact .zero
  · intro p hp
    have hrange := (hstored.versions _ (Table.mem_of_find hobject) (r.version - 1)).1
      (by simp only [hp, ne_eq, reduceCtorEq, not_false_eq_true])
    simp only [Nat.le_zero] at hrange
    omega
  · rw [h.version]
    decide
  · have hs := h.session
    rw [getSession_ok, ← h.stored_sessions] at hs
    obtain ⟨hb, row, hrow, -, heq⟩ := hs
    exact getSession_ok.2 ⟨hb, row, hrow, fun h => absurd h (by decide), heq⟩

/-- A revised record follows the head of its object, which is validated. The head was required, so
that it is live, validated and at the expected version, and the stores in between keep all that. -/
theorem Revision.follows {old r x : ObjectRecord} {s : ObjectSession} {parts : List Chunk}
    {raw : Option Bytes} {now : Int} {expected : Nat}
    (h : Revision P m db stored expected old r s parts raw now x db') :
    (∃ o row, stored.objects.find r.key = some o ∧ o.indexKey = r.indexKey ∧
      r.version = o.head + 1 ∧ stored.revisions.find (r.key, o.head) = some row ∧
      row.deleted = false) ∧
    Validated P m stored r.key (r.version - 1) r.parentValidationKey ∧ r.version ≤ int64Max ∧
    getSession stored s.key false = .ok s := by
  obtain ⟨hget, hlive, hpos, hversion, hmax, hvalid⟩ := require_ok.1 h.require
  obtain ⟨row, o, owner, hrow, ho, -, hrecord, -, hhead⟩ := get_record hget
  rw [if_pos rfl] at hhead
  have hstores := h.stores
  have hobjects : stored.objects = db.objects := by rw [hstores.rest]
  have hrevisions : stored.revisions = db.revisions := by rw [hstores.rest]
  obtain ⟨hnz, -, ⟨k, hk⟩, -⟩ := validate_iff.1 hvalid
  obtain ⟨e, _, -, hreads, -, hkey⟩ := hk.last hnz
  have hold : Impl.get db r.key old.version = .ok (some old) := by
    have := get_ok.1 hget
    rw [get_ok, versionOf_pos hnz]
    refine ⟨this.1, ?_⟩
    rw [← this.2, hhead, versionOf, if_pos rfl, ho]
    rfl
  have hrecord' : e.record = old := by simpa [hreads.record] using hold
  rw [hrecord'] at hkey
  have hprevious : r.version - 1 = old.version := by rw [h.version]; rfl
  refine ⟨⟨o, row, hobjects ▸ ho, ?_, ?_, ?_, ?_⟩, ?_, ?_, ?_⟩
  · rw [h.indexKey, ← hrecord]
    rfl
  · rw [h.version, hhead]
  · rw [hrevisions, ← hhead]
    exact hrow
  · rw [← hlive, ← hrecord]
    rfl
  · rw [hprevious, h.parent, hkey]
    exact hstores.toExtends.validated hk
  · rw [h.version, hversion]
    omega
  · obtain ⟨hb, srow, hsrow, -, heq⟩ := getSession_ok.1 h.session
    have hsessions : stored.sessions = db.sessions := by rw [hstores.rest]
    exact getSession_ok.2 ⟨hb, srow, hsessions ▸ hsrow, fun h => absurd h (by decide), heq⟩

/-- A revised record can be taken as the next revision of its object. -/
theorem Revision.publishable {old r x : ObjectRecord} {s : ObjectSession} {parts : List Chunk}
    {raw : Option Bytes} {now : Int} {expected : Nat}
    (h : Revision P m db stored expected old r s parts raw now x db')
    (hi : HistoryInvariant P m db) : Publishable P m stored r s parts := by
  obtain ⟨⟨o, row, ho, hindex, hversion, hrow, hlive⟩, hparent, hrange, hsession⟩ := h.follows
  refine ⟨⟨o, ho, hindex, hversion⟩, hparent, fun p hp => ?_, hrange, hsession,
    h.source.intact hi h.stores.toExtends⟩
  rw [hversion, Nat.add_sub_cancel, hrow, Option.some.injEq] at hp
  rw [← hp]
  exact hlive

/-- **Every change keeps the history invariant**, and leaves no object without a head. -/
theorem Change.keeps (h : Change P m db db') (hm : ¬ m.schema < 4)
    (hi : HistoryInvariant P m db) (hpub : Published db) :
    HistoryInvariant P m db' ∧ Published db' := by
  cases h with
  | beginSession h h' =>
      have hext := (insertSession_extends h).trans (insertWorkSession_extends h')
      obtain ⟨-, sessions, -, rfl⟩ := ObjectTables.insertSession_ok h
      obtain ⟨-, workSessions, -, rfl⟩ := ObjectTables.insertWorkSession_ok h'
      exact ⟨hi.of_extends hext rfl rfl rfl rfl, hpub⟩
  | endSession h =>
      have hext := setEnded_extends h
      obtain rfl := ObjectTables.setEnded_ok h
      exact ⟨hi.of_extends hext rfl rfl rfl rfl, hpub⟩
  | create h =>
      obtain ⟨hstored, hbut, hready⟩ := h.publishable hi
      obtain ⟨hi', hpub'⟩ := hready.publish hm hstored h.publish
      exact ⟨hi', hpub' (hbut hpub)⟩
  | @revise stored _ _ _ _ _ _ _ _ _ h =>
      obtain ⟨hi', hpub'⟩ := (h.publishable hi).publish hm (hi.of_stores h.stores) h.publish
      refine ⟨hi', hpub' fun o ho hzero => ?_⟩
      have hobjects : stored.objects = db.objects := by rw [h.stores.rest]
      exact absurd hzero (hpub o (hobjects ▸ ho)).ne'

/-! ## Runs -/

namespace Package

variable {σ τ : Package} {events : List Event} {e : Event}

/-- What every package the stores reach has in common. -/
structure Sound (P : Platform) (container : Bytes) (σ : Package) : Prop where
  containerKey : σ.tables.containerKey = container
  history : ∀ m : Impl, m.Opens container → HistoryInvariant P m σ.tables
  published : Published σ.tables
  stores : ∀ c ∈ σ.started, c.store.Opens container

/-- A fresh package is sound. -/
theorem sound_fresh (P : Platform) (container : Bytes) : Sound P container (fresh container) where
  containerKey := rfl
  history m _ := .fresh P m container
  published _ ho := absurd ho (Table.not_mem_empty _)
  stores _ hc := absurd hc List.not_mem_nil

open Relation in
/-- A sequence of changes keeps the history invariant. -/
theorem changes_keep (hm : m.Opens container) (hi : HistoryInvariant P m db)
    (hpub : Published db) (h : ReflTransGen (Change P m) db db') :
    HistoryInvariant P m db' ∧ Published db' ∧ Extends db db' := by
  induction h with
  | refl => exact ⟨hi, hpub, .refl db⟩
  | tail _ hchange ih =>
      obtain ⟨hi', hpub', hext⟩ := ih
      obtain ⟨hi'', hpub''⟩ := hchange.keeps hm.journal hi' hpub'
      exact ⟨hi'', hpub'', hext.trans hchange.toExtends⟩

/-- **One step of the stores**: the package stays sound and is extended. A call that begins or fails
leaves the tables, and one that commits is a sequence of changes. -/
theorem Step.keeps (h : Step P σ e τ) (hs : Sound P container σ) :
    Sound P container τ ∧ Extends σ.tables τ.tables := by
  cases h with
  | start m call hm =>
      refine ⟨⟨hs.containerKey, hs.history, hs.published, fun c hc => ?_⟩, .refl _⟩
      rcases List.mem_cons.1 hc with rfl | hc
      · exact hs.containerKey ▸ hm
      · exact hs.stores c hc
  | @commit db db' l r c draws response hrun =>
      have hm := hs.stores c (by simp)
      obtain ⟨hi, hpub, hext⟩ := changes_keep hm (hs.history _ hm) hs.published
        (Call.run_changes hrun)
      refine ⟨⟨hext.containerKey.trans hs.containerKey, fun m hm' => hi.of_opens hm hm', hpub,
        fun c' hc' => hs.stores c' ?_⟩, hext⟩
      simp only [List.mem_append, List.mem_cons] at hc' ⊢
      tauto
  | @fail db l r c =>
      refine ⟨⟨hs.containerKey, hs.history, hs.published, fun c' hc' => hs.stores c' ?_⟩, .refl _⟩
      simp only [List.mem_append, List.mem_cons] at hc' ⊢
      tauto

/-- Every reachable package is sound. -/
theorem Reachable.sound (h : Reachable P container σ) : Sound P container σ := by
  obtain ⟨events, hrun⟩ := h
  exact hrun.invariant (fun hs hstep => (hstep.keeps hs).1) (sound_fresh P container)

/-- What a run from a sound package finds stored stays stored. -/
theorem Run.extends (h : Run (Step P) σ events τ) (hs : Sound P container σ) :
    Extends σ.tables τ.tables :=
  h.relates (R := fun σ τ => Extends σ.tables τ.tables) (fun _ => .refl _) Extends.trans
    (fun hs hstep => (hstep.keeps hs).1) (fun hs hstep => (hstep.keeps hs).2) hs

/-! ## Calls one after the other -/

/-- The responses of calls that run one after the other through one store, and the tables they
leave. -/
def exec (P : Platform) (m : Impl) :
    List (Call × Draws) → ObjectTables → Fallible (List Response × ObjectTables)
  | [], db => pure ([], db)
  | (call, draws) :: calls, db => do
      let (response, db) ← call.run P m db db draws
      let (responses, db) ← exec P m calls db
      pure (response :: responses, db)

/-- A call that succeeds at once is a run of two steps. -/
theorem run_call {call : Call} {draws : Draws} {response : Response} {waiting : List Started}
    (hm : m.Opens db.containerKey) (h : call.run P m db db draws = .ok (response, db')) :
    Run (Step P) ⟨db, waiting⟩ [.start call, .commit call response] ⟨db', waiting⟩ :=
  .cons (.start m call hm) (.cons (.commit (l := []) (c := ⟨m, call, db⟩) h) (.nil _))

/-- A call stays in its package. -/
theorem containerKey_of_run {before : ObjectTables} {call : Call} {draws : Draws}
    {response : Response} (h : call.run P m before db draws = .ok (response, db')) :
    db'.containerKey = db.containerKey := by
  refine Relation.ReflTransGen.head_induction_on (Call.run_changes h) rfl ?_
  intro a b hab _ hb
  exact hb.trans hab.toExtends.containerKey

/-- Calls that run one after the other are a run of the stores, in which no other call
commits. -/
theorem run_of_exec {calls : List (Call × Draws)} {responses : List Response}
    (hm : m.Opens db.containerKey) (h : exec P m calls db = .ok (responses, db')) :
    ∃ events, Run (Step P) ⟨db, []⟩ events ⟨db', []⟩ ∧
      ∀ call response, .commit call response ∈ events → call ∈ calls.map (·.1) := by
  induction calls generalizing db responses with
  | nil =>
      simp only [exec, pure_ok, Prod.mk.injEq] at h
      obtain ⟨-, rfl⟩ := h
      exact ⟨[], .nil _, fun _ _ hmem => absurd hmem List.not_mem_nil⟩
  | cons head calls ih =>
      obtain ⟨call, draws⟩ := head
      simp only [exec, bind_ok, Prod.exists, pure_ok, Prod.mk.injEq] at h
      obtain ⟨response, mid, hcall, rest, last, hrest, -, rfl⟩ := h
      obtain ⟨events, hevents, hcalls⟩ := ih ((containerKey_of_run hcall).symm ▸ hm) hrest
      refine ⟨_, (run_call hm hcall).append hevents, fun call' response' hmem => ?_⟩
      simp only [List.cons_append, List.nil_append, List.mem_cons, reduceCtorEq, false_or,
        Event.commit.injEq] at hmem
      rcases hmem with ⟨rfl, -⟩ | hmem
      · exact List.mem_cons_self
      · exact List.mem_cons_of_mem _ (hcalls call' response' hmem)

/-- Calls that run one after the other on a fresh package reach the tables they leave. -/
theorem reachable_of_exec {calls : List (Call × Draws)} {responses : List Response}
    (hm : m.Opens container) (h : exec P m calls (.fresh container) = .ok (responses, db)) :
    Reachable P container ⟨db, []⟩ := by
  have hm' : m.Opens (ObjectTables.fresh container).containerKey := hm
  obtain ⟨events, hrun, -⟩ := run_of_exec hm' h
  exact ⟨events, hrun⟩

end Package

/-! ## A store to compute with -/

/-- A platform to compute with: every string is its own hash. -/
def Platform.reference : Platform where
  hash := id
  json := JsonReference.library
  sqliteJson := JsonReference.parse
  sqliteArgument := JsonReference.parse
  sqliteText j := (j.dump JsonReference.realText).getD []

/-- A writer on the package `c`. -/
def Impl.reference : Impl := ⟨ascii "c", 5, false⟩

/-- Draws that differ from one number to the next. -/
def Draws.numbered (n : Nat) : Draws where
  random i j := (16 * n + 16 * i + j.val).toUInt8
  now i := i

/-- A file that is there and does not change. -/
def SourceFile.of (content : Bytes) : SourceFile where
  direct := true
  regular := true
  size := content.length
  opens := true
  content := content
  bad := false
  stable := true

/-- Options that ask for nothing. -/
def ObjectWriteOptions.plain : ObjectWriteOptions where
  authorship := none
  sourceStamp := []
  cancellation _ := false

namespace Package

/-- The session the sample calls begin. -/
def sampleSession : Bytes := uniqueKey ((Draws.numbered 0).random 0) (ascii "session-")

/-- A call that begins the sample session. -/
def sampleBegin : Call × Draws :=
  (.beginSession ⟨ascii "origin", ascii "subject", [], .unknown⟩ (ascii "device") [] .empty,
    .numbered 0)

/-- The object the sample calls create. -/
def sampleObject : Bytes := uniqueKey ((Draws.numbered 1).random 0) (ascii "object-")

/-- The sample calls: an object is imported, moved and erased. -/
def sampleCalls : List (Call × Draws) :=
  [sampleBegin,
    (.importFile (.of [1, 2, 3]) (ascii "a") sampleSession .plain, .numbered 1),
    (.move sampleObject (ascii "b") 1 sampleSession .plain, .numbered 2),
    (.erase sampleObject 2 sampleSession, .numbered 3)]

/-- The connection of the samples opens their package. -/
theorem opens_reference : Impl.reference.Opens (ascii "c") := ⟨rfl, rfl⟩

end Package

end FileProvider
