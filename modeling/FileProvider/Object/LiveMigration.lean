import FileProvider.Object.Chains

/-!
# Readers across a live migration

A reader keeps the schema number it read when it was opened, and decides by it whether contexts
and RAW documents take part in a validation key. After a writer has migrated the package under a
reader of schema 3, the two read the same tables by different rules: they agree on a revision only
while no version up to it has a document of either kind. Readers of schema 4 and 5 agree with the
writer on every revision.

The reader is the same implementation with another schema number, so both are compared on one set of
tables. Where a version has documents, the strings that are hashed differ, and that a hash tells
them apart is a condition with a name.
-/

namespace FileProvider

open Bytes Fallible Impl

variable {P : Platform} {m m' : Impl} {db db' : ObjectTables} {container : Bytes}

/-- A reader answers about a revision what a writer answers on the same tables. -/
structure ReadersAgree (P : Platform) (m m' : Impl) (db : ObjectTables) (key : Bytes)
    (v : Nat) : Prop where
  validate : ∀ payload, validate P m db key v payload = validate P m' db key v payload
  extract : ∀ destination, (ObjectStore.extract P m db key v destination).isOk
    = (ObjectStore.extract P m' db key v destination).isOk

/-- The session of a version has an empty context, and the version has no RAW document. -/
def PlainVersion (db : ObjectTables) (key : Bytes) (v : Nat) : Prop :=
  ∀ r, db.revisions.find (key, v) = some r →
    (∀ w, db.workSessions.find r.sessionKey = some w → w.context = []) ∧
    ∀ d, db.rawRevisions.find (key, v) = some d → d.document = []

/-- A reading without the documents of schema 4. -/
def Evidence.plain (e : Evidence) : Evidence := { e with context := [], raw := [] }

/-- The hash tells what is hashed for a version from what is hashed without its documents. -/
def HashTellsDocuments (P : Platform) (m : Impl) (db : ObjectTables) (key : Bytes) (v : Nat) :
    Prop :=
  ∀ u e, 1 ≤ u → u ≤ v → Reads m db key u e →
    P.hash (e.hashed m.container) = P.hash (e.plain.hashed m.container) →
    e.hashed m.container = e.plain.hashed m.container

/-- Extraction asks the store about the schema in the validator alone. -/
theorem ReadersAgree.of_validate {key : Bytes} {v : Nat}
    (h : ∀ payload, Impl.validate P m db key v payload = Impl.validate P m' db key v payload) :
    ReadersAgree P m m' db key v where
  validate := h
  extract destination := by
    unfold ObjectStore.extract
    rw [h true]

/-! ## Reading a version with and without its documents -/

/-- A version is plain when a writer reads neither document. From schema 4 on the documents are read
from the tables, and a missing row reads as the empty text. -/
theorem Impl.Reads.plain_iff {key : Bytes} {v : Nat} {e : Evidence} (h : Reads m db key v e)
    (hm : ¬ m.schema < 4) (hpos : 1 ≤ v) :
    PlainVersion db key v ↔ e.context = [] ∧ e.raw = [] := by
  obtain ⟨-, hjoined⟩ := get_ok.1 h.record
  rw [versionOf_pos (Nat.one_le_iff_ne_zero.1 hpos)] at hjoined
  obtain ⟨r, o, s, hr, -, hs, hrecord⟩ := joined_eq_some.1 hjoined
  have hsession : e.record.sessionKey = r.sessionKey := by
    rw [← hrecord]
    rfl
  have hkey : e.session.key = r.sessionKey := (getSession_key h.session).trans hsession
  have hcontext := h.context
  have hraw := h.raw
  rw [context_ok, if_neg hm, hkey] at hcontext
  rw [rawDocument_ok, if_neg hm] at hraw
  obtain ⟨-, w, hw, hwcontext⟩ := hcontext
  obtain ⟨-, hdocument⟩ := hraw
  constructor
  · intro hplain
    obtain ⟨hcontexts, hdocuments⟩ := hplain r hr
    refine ⟨by rw [← hwcontext]; exact hcontexts w hw, ?_⟩
    cases hd : db.rawRevisions.find (key, v) with
    | none =>
        rw [hd] at hdocument
        exact hdocument.symm
    | some d =>
        rw [hd] at hdocument
        rw [← hdocument]
        exact hdocuments d hd
  · rintro ⟨hempty, hnone⟩ r' hr'
    obtain rfl : r = r' := Option.some.inj (hr.symm.trans hr')
    refine ⟨fun w' hw' => ?_, fun d hd => ?_⟩
    · obtain rfl : w = w' := Option.some.inj (hw.symm.trans hw')
      exact hwcontext.trans hempty
    · rw [hd] at hdocument
      exact hdocument.trans hnone

/-- A reader of schema 3 reads what a writer reads, less the documents. -/
theorem Impl.Reads.stale {key : Bytes} {v : Nat} {e : Evidence} (h : Reads m' db key v e)
    (hm : m.schema < 4) : Reads m db key v e.plain where
  record := h.record
  session := h.session
  context := context_ok.2 (by rw [if_pos hm]; rfl)
  raw := rawDocument_ok.2 (by rw [if_pos hm]; rfl)

/-- Where a version is plain, the two read the same. -/
theorem Impl.Reads.validateVersion_eq {key previous : Bytes} {v : Nat} {e : Evidence}
    (h : Reads m' db key v e) (hm : m.schema < 4) (hcontainer : m.container = m'.container)
    (hcontext : e.context = []) (hraw : e.raw = []) :
    validateVersion P m db key v previous = validateVersion P m' db key v previous := by
  refine validateVersion_congr hcontainer rfl (fun _ => rfl) fun x s hx hs => ?_
  have hrecord : e.record = x := by simpa [h.record] using hx
  have hsession := h.session
  rw [hrecord, hs] at hsession
  obtain rfl := Except.ok.inj hsession
  have hstale := h.stale hm
  rw [h.context, h.raw, hcontext, hraw]
  exact ⟨hstale.context, hstale.raw⟩

/-- A version both accept has no documents, if the hash can tell. -/
theorem plain_of_validated {key : Bytes} {v u : Nat} {k k' : Bytes}
    (hm : m.schema < 4) (hm' : ¬ m'.schema < 4) (hcontainer : m.container = m'.container)
    (hhash : HashTellsDocuments P m' db key v) (hk : Validated P m db key v k)
    (hk' : Validated P m' db key v k') (hpos : 1 ≤ u) (hle : u ≤ v) : PlainVersion db key u := by
  obtain ⟨l, hl⟩ := hk.prefix u hle
  obtain ⟨l', hl'⟩ := hk'.prefix u hle
  obtain ⟨e₀, previous₀, -, hreads₀, hfits₀, -⟩ := hl.last (by omega)
  obtain ⟨e, previous, -, hreads, hfits, -⟩ := hl'.last (by omega)
  obtain rfl := hreads₀.unique (hreads.stale hm)
  have hkeys : validationKey P e.plain.record e.plain.session m.container e.plain.context
      e.plain.raw = validationKey P e.record e.session m'.container e.context e.raw :=
    hfits₀.key.trans hfits.key.symm
  have hdigests := List.append_cancel_left hkeys
  rw [hcontainer] at hdigests
  have hhashed := hhash u e hpos hle hreads hdigests.symm
  obtain ⟨-, hagrees⟩ := Evidence.agrees_of_hashed hfits.hashable hfits₀.hashable hhashed
    fun _ => ⟨rfl, rfl⟩
  exact (hreads.plain_iff hm' hpos).2 ⟨hagrees.context, hagrees.raw⟩

/-! ## What was published after the migration -/

/-- Every version up to one a migrated package holds is read in full by a writer; an older one is
plain, and a later one is validated. -/
theorem Succeeds.version (h : Populated container db) (hv : db.userVersion < 4)
    (hs : Succeeds P container db db') (hm : m.Opens container) {key : Bytes} {v : Nat}
    (hstored : db'.revisions.find (key, v) ≠ none) :
    (∀ u, 1 ≤ u → u ≤ v → ∃ e, Reads m db' key u e) ∧
      ((∀ u, 1 ≤ u → u ≤ v → PlainVersion db' key u) ∨
        validate P m db' key v false = .ok true) := by
  obtain ⟨migrated, hmigrate, hext, -, hlater⟩ := hs.continues h hv
  have hi := h.olderInvariant
  have hmig := migrate_ok hmigrate
  have hrevisions : migrated.revisions = db.revisions := by rw [hmig.kept]
  obtain ⟨r, hr⟩ := Option.ne_none_iff_exists'.1 hstored
  have hid : r.id = (key, v) := Table.key_of_find hr
  obtain ⟨hrkey, hrversion⟩ := Prod.mk.inj hid
  cases hold : migrated.revisions.find r.id with
  | some row =>
      -- The version is older than the migration, and so are those before it.
      have hreads : ∀ u, 1 ≤ u → u ≤ v →
          ∃ e, Reads m db' key u e ∧ e.context = [] ∧ e.raw = [] := by
        intro u hpos hle
        rw [hrevisions] at hold
        have hcontiguous := hi.contiguous row (Table.mem_of_find hold) u hpos
        have hrow : row.id = (key, v) := (Table.key_of_find hold).trans hid
        obtain ⟨hrowKey, hrowVersion⟩ := Prod.mk.inj hrow
        rw [hrowKey, hrowVersion] at hcontiguous
        obtain ⟨ru, hru⟩ := Option.ne_none_iff_exists'.1 (hcontiguous hle)
        obtain ⟨o, s, ended, -, -, -, -, hreads⟩ := oldReads (m := m) hi hv hmig hext hm hru
        exact ⟨_, hreads, rfl, rfl⟩
      refine ⟨fun u hpos hle => ?_, .inl fun u hpos hle ru hru => ?_⟩
      · obtain ⟨e, he, -⟩ := hreads u hpos hle
        exact ⟨e, he⟩
      · obtain ⟨e, he, hcontext, hraw⟩ := hreads u hpos hle
        exact (he.plain_iff hm.journal hpos).2 ⟨hcontext, hraw⟩ ru hru
  | none =>
      have hvalid := (hlater r (Table.mem_of_find hr) hold).2 m hm
      rw [hrkey, hrversion] at hvalid
      obtain ⟨-, -, ⟨k, hk⟩, -⟩ := validate_iff.1 hvalid
      refine ⟨fun u hpos hle => ?_, .inr hvalid⟩
      obtain ⟨k', hk'⟩ := hk.prefix u hle
      obtain ⟨e, -, -, he, -⟩ := hk'.last (by omega)
      exact ⟨e, he⟩

/-! ## When a reader and a writer agree -/

/-- A reader that knows the documents of schema 4 agrees with every writer. -/
theorem readersAgree_of_journal {key : Bytes} {v : Nat} (hm : ¬ m.schema < 4)
    (hm' : ¬ m'.schema < 4) (hcontainer : m.container = m'.container) :
    ReadersAgree P m m' db key v := by
  refine .of_validate fun payload => validate_congr (fun u previous _ _ => ?_) rfl fun _ => rfl
  refine validateVersion_congr hcontainer rfl (fun _ => rfl) fun x s _ _ => ?_
  unfold Impl.context Impl.rawDocument
  rw [if_neg hm, if_neg hm, if_neg hm', if_neg hm']
  exact ⟨rfl, rfl⟩

/-- **A reader agrees with the writer** on a revision, whatever the stores did since the package
was migrated under it, when it was opened at schema 4 or later, or no version up to the revision
has a document; and, if the hash can tell, only then. -/
theorem Populated.readersAgree (P : Platform) (h : Populated container db)
    (hv : 3 ≤ db.userVersion) (hs : Succeeds P container db db') (hm : m.schema = db.userVersion)
    (hcontainer : m.container = container) (hm' : m'.Opens container) {key : Bytes} {v : Nat}
    (hstored : db'.revisions.find (key, v) ≠ none) :
    (4 ≤ m.schema ∨ (∀ u, 1 ≤ u → u ≤ v → PlainVersion db' key u) →
      ReadersAgree P m m' db' key v) ∧
    (HashTellsDocuments P m' db' key v → ReadersAgree P m m' db' key v →
      4 ≤ m.schema ∨ ∀ u, 1 ≤ u → u ≤ v → PlainVersion db' key u) := by
  have hcontainers : m.container = m'.container := hcontainer.trans hm'.container.symm
  constructor
  · intro hcondition
    rcases Nat.lt_or_ge m.schema 4 with hold | hnew
    · have hplain := hcondition.resolve_left (by omega)
      obtain ⟨hreads, -⟩ := hs.version h (by omega) hm' hstored
      refine .of_validate fun payload =>
        validate_congr (fun u previous hpos hle => ?_) rfl fun _ => rfl
      obtain ⟨e, he⟩ := hreads u hpos hle
      obtain ⟨hcontext, hraw⟩ := (he.plain_iff hm'.journal hpos).1 (hplain u hpos hle)
      exact he.validateVersion_eq hold hcontainers hcontext hraw
    · exact readersAgree_of_journal (by omega) hm'.journal hcontainers
  · intro hhash hagree
    rcases Nat.lt_or_ge m.schema 4 with hold | hnew
    · obtain ⟨-, hplain | hvalid⟩ := hs.version h (by omega) hm' hstored
      · exact .inr hplain
      · have hvalid₀ := (hagree.validate false).trans hvalid
        obtain ⟨-, -, ⟨k, hk⟩, -⟩ := validate_iff.1 hvalid₀
        obtain ⟨-, -, ⟨k', hk'⟩, -⟩ := validate_iff.1 hvalid
        exact .inr fun u hpos hle =>
          plain_of_validated hold hm'.journal hcontainers hhash hk hk' hpos hle
    · exact .inl hnew

/-! ## A stale reader -/

namespace Populated

/-- The calls of a writer that migrated a package: a session with a context, and an import. -/
def staleCalls : List (Call × Draws) :=
  [(.beginSession ⟨ascii "origin", ascii "subject", [], .unknown⟩ (ascii "device") []
      ⟨ascii "app", [], [], [], .empty⟩, .numbered 0),
    (.importFile (.of [1, 2, 3]) (ascii "a") Package.sampleSession .plain, .numbered 1)]

/-- A reader that was opened at schema 3. -/
def staleReader : Impl := ⟨ascii "c", 3, true⟩

/-- What the writer leaves, when the stale reader rejects the import and the writer accepts it. -/
def sampleStale : Fallible ObjectTables :=
  Package.exec .reference .reference staleCalls (.fresh (ascii "c")) >>= fun r =>
    validate .reference staleReader r.2 Package.sampleObject 1 false >>= fun stale =>
      validate .reference .reference r.2 Package.sampleObject 1 false >>= fun current =>
        failIf (stale = true ∨ current = false ∨
            r.2.revisions.find (Package.sampleObject, 1) = none) "" >>= fun _ =>
          pure r.2

/-- What the sample gives: a package that is migrated under an open reader, which then finds a new
revision invalid. -/
theorem sampleStale_ok (h : sampleStale = .ok db) :
    (∀ schema ≤ 5, Succeeds .reference (ascii "c") (.created schema (ascii "c")) db) ∧
      db.revisions.find (Package.sampleObject, 1) ≠ none ∧
      validate .reference staleReader db Package.sampleObject 1 false = .ok false ∧
      validate .reference .reference db Package.sampleObject 1 false = .ok true := by
  simp only [sampleStale, bind_ok, pure_ok, failIf_ok, not_or, Prod.exists] at h
  obtain ⟨responses, db', hexec, stale, hstale, current, hcurrent, -, ⟨hfalse, htrue, hfind⟩,
    rfl⟩ := h
  obtain ⟨events, hrun, -⟩ := Package.run_of_exec Package.opens_reference hexec
  rw [Bool.not_eq_true] at hfalse
  rw [Bool.not_eq_false] at htrue
  exact ⟨fun schema h => .intro (ObjectTables.migrate_created h _) hrun, hfind,
    hfalse ▸ hstale, htrue ▸ hcurrent⟩

/-- A reader of schema 3 calls a revision corrupt that the writer accepts. -/
theorem readersAgree_stale : ∃ db, Populated (ascii "c") (.created 3 (ascii "c")) ∧
    Succeeds .reference (ascii "c") (.created 3 (ascii "c")) db ∧
    db.revisions.find (Package.sampleObject, 1) ≠ none ∧
    ¬ ReadersAgree .reference staleReader .reference db Package.sampleObject 1 := by
  have hok : sampleStale.isOk = true := by decide +kernel
  obtain ⟨db, h⟩ := exists_of_isOk hok
  obtain ⟨hsucceeds, hfind, hstale, hcurrent⟩ := sampleStale_ok h
  refine ⟨db, .created 3 (by omega) (by omega), hsucceeds 3 (by omega), hfind, fun hagree => ?_⟩
  have heq := hagree.validate false
  rw [hstale, hcurrent] at heq
  cases heq

/-- A reader of schema 5 agrees about the import, and the stale one does only if it is plain. -/
theorem readersAgree_sample : ∃ db, db.revisions.find (Package.sampleObject, 1) ≠ none ∧
    ReadersAgree .reference ⟨ascii "c", 5, true⟩ .reference db Package.sampleObject 1 ∧
    (ReadersAgree .reference staleReader .reference db Package.sampleObject 1 →
      ∀ u, 1 ≤ u → u ≤ 1 → PlainVersion db Package.sampleObject u) := by
  have hok : sampleStale.isOk = true := by decide +kernel
  obtain ⟨db, h⟩ := exists_of_isOk hok
  obtain ⟨hsucceeds, hfind, -, -⟩ := sampleStale_ok h
  have hpopulated : ∀ schema, 1 ≤ schema → schema ≤ 5 →
      Populated (ascii "c") (.created schema (ascii "c")) := .created
  have hcurrent := Populated.readersAgree .reference (hpopulated 5 (by omega) le_rfl)
    (show 3 ≤ 5 by omega) (hsucceeds 5 le_rfl) (m := ⟨ascii "c", 5, true⟩) rfl rfl
    Package.opens_reference hfind
  have hiff := Populated.readersAgree .reference (hpopulated 3 (by omega) (by omega)) le_rfl
    (hsucceeds 3 (by omega)) (m := staleReader) rfl rfl Package.opens_reference hfind
  refine ⟨db, hfind, hcurrent.1 (.inl (show 4 ≤ 5 by omega)), fun hagree => ?_⟩
  exact (hiff.2 (fun _ _ _ _ _ h => h) hagree).resolve_left (by decide)

end Populated

end FileProvider
