import FileProvider.Object.Documents
import FileProvider.Object.Histories

/-!
# Updates are not lost

A call that revises an object names the version it expects of it. The version is compared
inside the transaction that publishes the next one, so of any number of stores that expect the
same version of the same object one alone succeeds, whatever happens between their calls. A
call that expects another version than the live head, or acts in a session that is not open,
throws and changes no table.

The proof is in two parts. One call that succeeds found the version it expects as the live head, and
puts the next one there; and no step lowers a head. So a second call that expects the same version
does not find it any more.
-/

namespace FileProvider

open Bytes Fallible Impl

variable {P : Platform} {m : Impl} {db db' before stored : ObjectTables} {container : Bytes}

/-! ## What a call names -/

/-- The object a call revises and the version it expects of it. -/
def Call.expects : Call → Option (Bytes × Nat)
  | .reviseFile key _ expected _ _ => some (key, expected)
  | .reviseMetadata key _ expected _ => some (key, expected)
  | .move key _ expected _ _ => some (key, expected)
  | .erase key expected _ => some (key, expected)
  | _ => none

/-- The session a call acts in. -/
def Call.session : Call → Option Bytes
  | .beginSession .. => none
  | .endSession key => some key
  | .importFile _ _ session _ => some session
  | .importFiles _ session => some session
  | .wrapRaw _ _ _ session _ => some session
  | .importDocument _ _ _ session _ => some session
  | .reviseFile _ _ _ session _ => some session
  | .reviseMetadata _ _ _ session => some session
  | .move _ _ _ session _ => some session
  | .erase _ _ session => some session

/-- A call that succeeds publishes a revision, unless it restates the metadata of its
object. -/
def Call.publishes (db db' : ObjectTables) : Call → Prop
  | .reviseMetadata .. => db'.revisions ≠ db.revisions
  | _ => True

/-- The call an event is the end of. -/
def Package.Event.finished : Package.Event → Option Call
  | .start _ => none
  | .commit call _ => some call
  | .fail call => some call

/-- The head of an object is a live revision of this version. -/
def LiveHead (db : ObjectTables) (key : Bytes) (v : Nat) : Prop :=
  ∃ o r, db.objects.find key = some o ∧ o.head = v ∧ o.deleted = false ∧
    db.revisions.find (key, v) = some r ∧ r.deleted = false

/-- A session that was begun and has not ended. -/
def OpenSession (db : ObjectTables) (key : Bytes) : Prop :=
  ∃ s, db.sessions.find key = some s ∧ s.ended = 0

/-! ## One call -/

/-- The object a call revises has the version it expects, and the call publishes the next one
unless it has nothing new to say. -/
theorem Call.run_expects {call : Call} {key : Bytes} {expected : Nat} {draws : Draws}
    {response : Response} (hcall : call.expects = some (key, expected))
    (h : call.run P m before db draws = .ok (response, db')) :
    ∃ old, require P m db key expected = .ok old ∧
      ((¬ call.publishes db db' ∧ db' = db) ∨ ∃ stored r s parts raw now x, r.key = key ∧
        Revision P m db stored expected old r s parts raw now x db') := by
  cases call with
  | reviseFile k source e session options =>
      cases hcall
      simp only [Call.run, map_ok, Prod.exists, Response.ofRecord, Prod.mk.injEq] at h
      obtain ⟨x, db', h, -, rfl⟩ := h
      obtain ⟨old, r, s, parts, stored, hkey, -, hr, -⟩ := reviseFile_ok h
      exact ⟨old, hkey ▸ hr.require, .inr ⟨stored, r, s, parts, _, _, x, hkey, hr⟩⟩
  | reviseMetadata k metadata e session =>
      cases hcall
      simp only [Call.run, map_ok, Prod.exists, Response.ofRecord, Prod.mk.injEq] at h
      obtain ⟨x, db', h, -, rfl⟩ := h
      obtain ⟨old, s, _, _, _, hold, -, -, -, -, -, h⟩ := reviseMetadata_ok h
      rcases h with ⟨-, -, rfl⟩ | ⟨-, r, parts, hkey, -, hr, -⟩
      · exact ⟨old, hold, .inl ⟨fun hne => hne rfl, rfl⟩⟩
      · exact ⟨old, hold, .inr ⟨_, r, s, parts, _, _, x, hkey, hr⟩⟩
  | move k path e session options =>
      cases hcall
      simp only [Call.run, map_ok, Prod.exists, Response.ofRecord, Prod.mk.injEq] at h
      obtain ⟨x, db', h, -, rfl⟩ := h
      obtain ⟨old, r, s, parts, hkey, -, -, hr, -⟩ := move_ok h
      exact ⟨old, hkey ▸ hr.require, .inr ⟨_, r, s, parts, _, _, x, hkey, hr⟩⟩
  | erase k e session =>
      cases hcall
      simp only [Call.run, map_ok, Prod.exists, Response.ofRecord, Prod.mk.injEq] at h
      obtain ⟨x, db', h, -, rfl⟩ := h
      obtain ⟨old, r, s, hkey, -, hr, -⟩ := erase_ok h
      exact ⟨old, hkey ▸ hr.require, .inr ⟨_, r, s, [], _, _, x, hkey, hr⟩⟩
  | _ => cases hcall

/-- The session of a call that succeeds is open when its transaction begins. Each call that names a
session looks it up as an active one before it writes anything. -/
theorem Call.run_session {call : Call} {session : Bytes} {draws : Draws} {response : Response}
    (hcall : call.session = some session)
    (h : call.run P m before db draws = .ok (response, db')) : OpenSession db session := by
  have hopen : ∀ {s}, getSession db session true = .ok s → OpenSession db session := by
    intro s hs
    obtain ⟨-, row, hrow, hended, -⟩ := getSession_ok.1 hs
    exact ⟨row, hrow, hended rfl⟩
  cases call with
  | beginSession => cases hcall
  | endSession key =>
      cases hcall
      simp only [Call.run, map_ok, Prod.mk.injEq] at h
      obtain ⟨db', h, -, rfl⟩ := h
      obtain ⟨⟨s, hs⟩, -⟩ := endSession_ok h
      exact hopen hs
  | importFile source path session' options =>
      cases hcall
      simp only [Call.run, map_ok, Prod.exists, Response.ofRecord, Prod.mk.injEq] at h
      obtain ⟨x, db', h, -, rfl⟩ := h
      obtain ⟨_, _, _, _, hs, -⟩ := storeImportFile_ok h
      exact hopen hs
  | importFiles files session' =>
      cases hcall
      simp only [Call.run, map_ok, Prod.exists, Prod.mk.injEq] at h
      obtain ⟨x, db', h, -, rfl⟩ := h
      obtain ⟨_, _, hs, -⟩ := importFiles_ok h
      exact hopen hs
  | wrapRaw source path metadata session' options =>
      cases hcall
      simp only [Call.run, map_ok, Prod.exists, Response.ofRecord, Prod.mk.injEq] at h
      obtain ⟨x, db', h, -, rfl⟩ := h
      obtain ⟨_, _, _, _, _, _, -, -, hs, -⟩ := wrapRaw_ok h
      exact hopen hs
  | importDocument source path metadata session' options =>
      cases hcall
      simp only [Call.run, map_ok, Prod.exists, Prod.mk.injEq] at h
      obtain ⟨x, db', h, -, rfl⟩ := h
      obtain ⟨_, _, _, _, _, _, _, _, _, _, -, -, hs, -⟩ := importDocument_ok h
      exact hopen hs
  | reviseFile key source expected session' options =>
      cases hcall
      simp only [Call.run, map_ok, Prod.exists, Response.ofRecord, Prod.mk.injEq] at h
      obtain ⟨x, db', h, -, rfl⟩ := h
      obtain ⟨_, _, _, _, _, -, hs, -⟩ := reviseFile_ok h
      exact hopen hs
  | reviseMetadata key metadata expected session' =>
      cases hcall
      simp only [Call.run, map_ok, Prod.exists, Response.ofRecord, Prod.mk.injEq] at h
      obtain ⟨x, db', h, -, rfl⟩ := h
      obtain ⟨_, _, _, _, _, -, hs, -⟩ := reviseMetadata_ok h
      exact hopen hs
  | move key path expected session' options =>
      cases hcall
      simp only [Call.run, map_ok, Prod.exists, Response.ofRecord, Prod.mk.injEq] at h
      obtain ⟨x, db', h, -, rfl⟩ := h
      obtain ⟨_, _, _, _, -, hs, -⟩ := move_ok h
      exact hopen hs
  | erase key expected session' =>
      cases hcall
      simp only [Call.run, map_ok, Prod.exists, Response.ofRecord, Prod.mk.injEq] at h
      obtain ⟨x, db', h, -, rfl⟩ := h
      obtain ⟨_, _, _, -, hs, -⟩ := erase_ok h
      exact hopen hs

/-- What `require` found is the live head. -/
theorem HistoryInvariant.liveHead (hi : HistoryInvariant P m db) {key : Bytes} {expected : Nat}
    {old : ObjectRecord} (h : require P m db key expected = .ok old) :
    expected ≠ 0 ∧ LiveHead db key expected := by
  obtain ⟨hget, hlive, hpos, hversion, -, -⟩ := require_ok.1 h
  obtain ⟨r, o, s, hr, ho, -, hrecord, -, hhead⟩ := get_record hget
  rw [if_pos rfl] at hhead
  have hdeleted : r.deleted = false := by
    rw [← hlive, ← hrecord]
    rfl
  obtain ⟨hmem, hkey⟩ := Table.find_eq_some.1 ho
  rw [hversion] at hr hhead
  have hrow := hi.head o hmem r (by rw [hkey, ← hhead]; exact hr)
  exact ⟨hpos, o, r, ho, hhead.symm, hrow.2.trans hdeleted, hr, hdeleted⟩

/-- A revision raises the head of its object by one. -/
theorem Revision.raises {old r x : ObjectRecord} {s : ObjectSession} {parts : List Chunk}
    {raw : Option Bytes} {now : Int} {expected : Nat}
    (h : Revision P m db stored expected old r s parts raw now x db') :
    (∃ o, db'.objects.find r.key = some o ∧ o.head = expected + 1) ∧
      db'.revisions.find (r.key, expected + 1) ≠ none := by
  obtain ⟨_, _, -, -, hx, hp⟩ := publish_ok h.publish
  have hkey : x.key = r.key := by rw [hx]; rfl
  have hversion : x.version = expected + 1 := by
    rw [hx, ← (require_ok.1 h.require).2.2.2.1, ← h.version]
    rfl
  obtain ⟨o, ho⟩ := Option.ne_none_iff_exists'.1 hp.object
  constructor
  · refine ⟨{ o with head := x.version, path := x.path, deleted := x.deleted }, ?_, hversion⟩
    rw [hp.find_object, if_pos hkey.symm, ← hkey, ho, Option.map_some]
  · rw [hp.find_revision, if_pos (by rw [hkey, hversion])]
    exact Option.some_ne_none _

/-- A live head can be required at its own version. -/
theorem HistoryInvariant.require (hi : HistoryInvariant P m db) {key : Bytes} {expected : Nat}
    (h : LiveHead db key expected) (hmax : expected < int64Max) :
    ∃ old, Impl.require P m db key expected = .ok old ∧ old.version = expected := by
  obtain ⟨o, r, ho, hhead, -, hr, hlive⟩ := h
  obtain ⟨hmem, hkey⟩ := Table.find_eq_some.1 ho
  have hrange := (hi.versions o hmem expected).1 (by rw [hkey, hr]; exact Option.some_ne_none _)
  have hvalid := hi.valid o hmem expected hrange.1 hrange.2
  rw [hkey] at hvalid
  obtain ⟨hne, hle, ⟨k, hk⟩, -⟩ := validate_iff.1 hvalid
  obtain ⟨e, previous, -, hreads, hfits, -⟩ := hk.last hne
  have hget : Impl.get db key 0 = .ok (some e.record) := by
    have hrecord := get_ok.1 hreads.record
    rw [versionOf_pos hne] at hrecord
    rw [get_ok, versionOf, if_pos rfl, ho, Option.map_some, Option.getD_some, hhead]
    exact hrecord
  obtain ⟨r', o', s, hr', -, -, hrecord, -, -⟩ := get_record hget
  rw [hfits.version, hr, Option.some.injEq] at hr'
  have hdeleted : e.record.deleted = false := by
    rw [← hrecord, ← hr']
    exact hlive
  refine ⟨e.record, require_ok.2 ⟨hget, hdeleted, hne, hfits.version, hmax, ?_⟩, hfits.version⟩
  rw [hfits.version]
  exact validate_iff.2 ⟨hne, hle, ⟨k, hk⟩, fun h => absurd h (by decide)⟩

/-- Metadata that encodes to the stored document succeeds and changes nothing. -/
theorem reviseMetadata_same {key session : Bytes} {metadata : FileMetadata} {expected : Nat}
    {draws : Draws} {old : ObjectRecord} {s : ObjectSession} {document : Bytes}
    {raw : RawMetadata} (hm : ¬ m.schema < 4) (hwriter : m.readOnly = false)
    (hold : Impl.require P m db key expected = .ok old)
    (hs : getSession db session true = .ok s)
    (hdocument : m.rawDocument db key old.version = .ok document)
    (hraw : MetadataCodec.decodeRawMetadata P.json document = .ok raw)
    (hsame : MetadataCodec.encodeRawMetadata P.json { raw with annotations := metadata }
      = .ok document) :
    ObjectStore.reviseMetadata P m db key metadata expected session draws = .ok (old, db) := by
  have hne := MetadataCodec.encodeRawMetadata_ne_nil hsame
  simp only [ObjectStore.reviseMetadata, bind_ok, requireJournal, ObjectStore.beginImmediate,
    failIf_ok]
  refine ⟨(), hm, (), by simp [hwriter], old, hold, s, hs, document, hdocument, (), hne, raw,
    hraw, document, hsame, ?_⟩
  rw [if_pos rfl]
  rfl

/-! ## Any number of stores -/

namespace Package

variable {σ : Package}

/-- No update of a package is lost. -/
structure NoLostUpdate (P : Platform) (container : Bytes) (σ : Package) : Prop where
  /-- An update finds the version it expects as the live head, and raises it by one. -/
  head : ∀ {τ call response key expected}, Step P σ (.commit call response) τ →
    call.expects = some (key, expected) → call.publishes σ.tables τ.tables →
    LiveHead σ.tables key expected ∧
      ∃ o, τ.tables.objects.find key = some o ∧ o.head = expected + 1
  /-- No second update of the object that expects the same version ever succeeds. -/
  once : ∀ {τ σ' τ' call call' response response' key expected events},
    Step P σ (.commit call response) τ →
    call.expects = some (key, expected) → call.publishes σ.tables τ.tables →
    Run (Step P) τ events σ' → Step P σ' (.commit call' response') τ' →
    call'.expects = some (key, expected) → ¬ call'.publishes σ'.tables τ'.tables
  /-- A call that expects no version, or another one than the live head, throws. -/
  stale : ∀ {τ e call key expected}, Step P σ e τ → e.finished = some call →
    call.expects = some (key, expected) →
    expected = 0 ∨ ¬ LiveHead σ.tables key expected → e = .fail call ∧ τ.tables = σ.tables
  /-- A call in a session that is not open throws. -/
  closed : ∀ {τ e call session}, Step P σ e τ → e.finished = some call →
    call.session = some session → ¬ OpenSession σ.tables session →
    e = .fail call ∧ τ.tables = σ.tables
  /-- Restating the metadata of an object succeeds and publishes nothing. -/
  restated : ∀ {m : Impl} {before key metadata expected session draws s document raw},
    m.Opens container → m.readOnly = false → LiveHead σ.tables key expected →
    expected < int64Max → getSession σ.tables session true = .ok s →
    m.rawDocument σ.tables key expected = .ok document →
    MetadataCodec.decodeRawMetadata P.json document = .ok raw →
    MetadataCodec.encodeRawMetadata P.json { raw with annotations := metadata }
      = .ok document →
    ∃ old, old.version = expected ∧
      (Call.reviseMetadata key metadata expected session).run P m before σ.tables draws
        = .ok (.records [old], σ.tables)

/-- The call of a step that commits ran on the tables before it, through a store that is open
on the package. -/
theorem Sound.commit {τ : Package} {call : Call} {response : Response}
    (hs : Sound P container σ) (h : Step P σ (.commit call response) τ) :
    ∃ m before draws, m.Opens container ∧
      call.run P m before σ.tables draws = .ok (response, τ.tables) := by
  cases h with
  | @commit db db' l r c draws _ hrun =>
      exact ⟨c.store, c.before, draws, hs.stores c (by simp), hrun⟩

/-- An update finds its version as the live head, raises it by one, and leaves the next
revision behind. -/
theorem Sound.update {τ : Package} {call : Call} {response : Response} {key : Bytes}
    {expected : Nat} (hs : Sound P container σ) (h : Step P σ (.commit call response) τ)
    (hcall : call.expects = some (key, expected)) (hpub : call.publishes σ.tables τ.tables) :
    LiveHead σ.tables key expected ∧
      (∃ o, τ.tables.objects.find key = some o ∧ o.head = expected + 1) ∧
      τ.tables.revisions.find (key, expected + 1) ≠ none := by
  obtain ⟨m, before, draws, hm, hrun⟩ := hs.commit h
  obtain ⟨old, hold, ⟨hnot, -⟩ | ⟨_, _, _, _, _, _, _, rfl, hr⟩⟩ := Call.run_expects hcall hrun
  · exact absurd hpub hnot
  · exact ⟨((hs.history m hm).liveHead hold).2, hr.raises⟩

/-- A step that finishes a call without a commit is its failure. -/
theorem Step.failed {τ : Package} {e : Event} {call : Call} (h : Step P σ e τ)
    (he : e.finished = some call) (hnot : ∀ response, e ≠ .commit call response) :
    e = .fail call ∧ τ.tables = σ.tables := by
  cases h with
  | start => cases he
  | commit _ =>
      cases he
      exact absurd rfl (hnot _)
  | fail =>
      cases he
      exact ⟨rfl, rfl⟩

/-- **No update is lost**, in any state the stores reach and on any run from there, however the
beginnings and commits of calls are interleaved. An update succeeds only on the live head it expects
and raises it by one, and no second update with the same expectation ever succeeds; a call that
expects another version, or whose session is not open, throws and changes nothing; restating the
metadata of an object publishes nothing. -/
theorem Reachable.noLostUpdate (h : Reachable P container σ) :
    NoLostUpdate P container σ where
  head hstep hcall hpub := by
    obtain ⟨hhead, hraised, -⟩ := h.sound.update hstep hcall hpub
    exact ⟨hhead, hraised⟩
  once {τ σ' τ' call call' response response' key expected events} hstep hcall hpub hrun hstep'
      hcall' := by
    intro hpub'
    obtain ⟨-, -, hrevision⟩ := h.sound.update hstep hcall hpub
    have hτ : Sound P container τ := (hstep.keeps h.sound).1
    have hσ' : Sound P container σ' :=
      hrun.invariant (fun hs hstep => (hstep.keeps hs).1) hτ
    -- The revision of the first call is still there, so the head is past the version expected.
    have hkept := (Run.extends hrun hτ).revisions_ne_none hrevision
    obtain ⟨⟨o, r, ho, hhead, -⟩, -⟩ := hσ'.update hstep' hcall' hpub'
    obtain ⟨m, -, -, hm, -⟩ := hσ'.commit hstep'
    obtain ⟨o', ho', -, hle⟩ := ((hσ'.history m hm).versions_iff key (expected + 1)).1 hkept
    rw [ho, Option.some.injEq] at ho'
    subst ho'
    omega
  stale hstep hfinished hcall hstale := by
    refine hstep.failed hfinished fun response he => ?_
    subst he
    obtain ⟨m, before, draws, hm, hrun⟩ := h.sound.commit hstep
    obtain ⟨old, hold, -⟩ := Call.run_expects hcall hrun
    obtain ⟨hpos, hhead⟩ := (h.sound.history m hm).liveHead hold
    exact hstale.elim hpos fun hnot => hnot hhead
  closed hstep hfinished hcall hclosed := by
    refine hstep.failed hfinished fun response he => ?_
    subst he
    obtain ⟨m, before, draws, -, hrun⟩ := h.sound.commit hstep
    exact hclosed (Call.run_session hcall hrun)
  restated {m before key metadata expected session draws s document raw} hm hwriter hhead hmax
      hs hdocument hraw hsame := by
    obtain ⟨old, hold, hversion⟩ := (h.sound.history m hm).require hhead hmax
    rw [← hversion] at hdocument
    refine ⟨old, hversion, ?_⟩
    simp only [Call.run, map_ok, Prod.exists, Response.ofRecord, Prod.mk.injEq]
    exact ⟨old, σ.tables, reviseMetadata_same hm.journal hwriter hold hs hdocument hraw hsame,
      rfl, rfl⟩

/-- No update is lost after an import, a move and an erasure. -/
theorem Reachable.noLostUpdate_sample : ∃ responses db,
    exec .reference .reference sampleCalls (.fresh (ascii "c")) = .ok (responses, db) ∧
      NoLostUpdate .reference (ascii "c") ⟨db, []⟩ := by
  have hok : (exec .reference .reference sampleCalls (.fresh (ascii "c"))).isOk = true := by
    decide +kernel
  obtain ⟨⟨responses, db⟩, h⟩ := exists_of_isOk hok
  exact ⟨responses, db, h, Reachable.noLostUpdate (reachable_of_exec opens_reference h)⟩

end Package

end FileProvider
