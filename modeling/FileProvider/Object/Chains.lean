import FileProvider.Object.JournalOrder
import FileProvider.Object.Schemas
import FileProvider.Object.TamperEvidence

/-!
# Chains of the first schemas

Schemas 1 and 2 had neither contexts nor RAW documents, so a validation key of theirs is the hash
of its record alone. `ChainHolds` is what such a chain has to be, by its rows; after the migration
the validator accepts a version of it exactly then, and what is published later is a validated
continuation, in record format 2.

Versions of an older chain are compared with what the validator reads of the migrated package, where
every session has an empty context. What stores publish later is known from their history invariant,
so the two parts of a chain need different arguments, which meet at the last older version.
-/

namespace FileProvider

open Bytes Fallible Impl Relation

variable {P : Platform} {m : Impl} {db db' base migrated : ObjectTables} {container : Bytes}

/-! ## The chain by its rows -/

/-- The validation key of a version is the hash of its record under its own format, with neither
context nor RAW document, and its parent key is the validation key of the version before. -/
def LinkHolds (P : Platform) (container : Bytes) (db : ObjectTables) (key : Bytes) (v : Nat) :
    Prop :=
  ∃ r o s, db.revisions.find (key, v) = some r ∧ db.objects.find key = some o ∧
    db.sessions.find r.sessionKey = some s ∧
    r.validationKey = validationKey P (record r o s) (sessionOf s) container [] [] ∧
    r.parentKey = (storedKey db key (v - 1)).getD []

/-- The chain of an object up to a version. -/
def ChainHolds (P : Platform) (container : Bytes) (db : ObjectTables) (key : Bytes) (v : Nat) :
    Prop :=
  ∀ u, 1 ≤ u → u ≤ v → LinkHolds P container db key u

/-- What a migrated package knows about a version that is older than the migration. The migration
keeps the rows of the old tables, and every later step only adds to them, so that each read gives
what it gave. -/
theorem oldReads (hi : OlderInvariant container db) (hv : db.userVersion < 4)
    (hmig : Migrates db migrated) (hext : Extends migrated db') (hm : m.Opens container)
    {key : Bytes} {v : Nat} {r : RevisionRow} (hr : db.revisions.find (key, v) = some r) :
    ∃ o s ended, db.objects.find key = some o ∧ db.sessions.find r.sessionKey = some s ∧
      Attributed r s ∧ Impl.get db key v = .ok (some (record r o s)) ∧
      Reads m db' key v ⟨record r o s, sessionOf { s with ended }, [], []⟩ := by
  have hmem := Table.mem_of_find hr
  have hid : r.id = (key, v) := Table.key_of_find hr
  obtain ⟨hkey, hversion⟩ := Prod.mk.inj hid
  obtain ⟨s, hs, hattributed⟩ := hi.attributed r hmem
  obtain ⟨o, ho⟩ := Option.ne_none_iff_exists'.1 (hi.objects r hmem)
  rw [hkey] at ho
  have hbound : key.length ≤ maximumText := hkey ▸ hi.objectKeys r hmem
  have hsmem := Table.mem_of_find hs
  have hself : s.sessionKey = r.sessionKey := Table.key_of_find hs
  have hsbound : r.sessionKey.length ≤ maximumText := hself ▸ hi.sessionKeys s hsmem
  have hpos : v ≠ 0 := hversion ▸ (hi.bounds r hmem).1
  have hrows : migrated.revisions = db.revisions ∧ migrated.objects = db.objects ∧
      migrated.sessions = db.sessions ∧ migrated.rawRevisions = db.rawRevisions := by
    rw [hmig.kept]
    exact ⟨rfl, rfl, rfl, rfl⟩
  obtain ⟨hrevisions, hobjects, hsessions, hraw⟩ := hrows
  have hrow : migrated.revisions.find (key, v) = some r := by rw [hrevisions]; exact hr
  obtain ⟨o', ho', hindex⟩ := hext.objects key o (by rw [hobjects]; exact ho)
  obtain ⟨ended, hended⟩ := hext.sessions r.sessionKey s (by rw [hsessions]; exact hs)
  obtain ⟨w, hw, hcontext⟩ := hmig.context hi hv hsmem
  rw [hself] at hw
  refine ⟨o, s, ended, ho, hs, hattributed, ?_, ?_, ?_, ?_, ?_⟩
  · rw [get_ok, versionOf_pos hpos]
    exact ⟨hbound, joined_eq_some.2 ⟨r, o, s, hr, ho, hs, rfl⟩⟩
  · rw [get_ok, versionOf_pos hpos]
    refine ⟨hbound, joined_eq_some.2 ⟨r, o', _, hext.revisions _ _ hrow, ho', hended, ?_⟩⟩
    simp [record, hindex]
  · exact getSession_ok.2 ⟨hsbound, _, hended, fun h => absurd h (by decide), rfl⟩
  · rw [context_ok, if_neg hm.journal]
    show s.sessionKey.length ≤ maximumText ∧
      ∃ row, db'.workSessions.find s.sessionKey = some row ∧ _
    rw [hself]
    exact ⟨hsbound, w, hext.workSessions _ _ hw, hcontext⟩
  · rw [rawDocument_ok, if_neg hm.journal, hext.raw _ (by rw [hrow]; exact Option.some_ne_none _),
      hraw, find_of_rows_nil (hi.early hv).2]
    exact ⟨hbound, rfl⟩

/-- The validator's demands on a version that is older than the migration are its link. -/
theorem old_fits {r : RevisionRow} {o : ObjectRow} {s : SessionRow} {ended : Int} {v : Nat}
    {previous : Bytes} (hattributed : Attributed r s)
    (hformat : r.recordFormat = 1 ∨ r.recordFormat = 2) (hversion : r.version = v) :
    Evidence.Fits P container v previous ⟨record r o s, sessionOf { s with ended }, [], []⟩ ↔
      r.validationKey = validationKey P (record r o s) (sessionOf s) container [] [] ∧
        r.parentKey = previous := by
  constructor
  · intro h
    exact ⟨h.key.symm, h.parent⟩
  · rintro ⟨hkey, hparent⟩
    obtain ⟨horigin, hsubject, hname⟩ := hattributed.author
    have hschema : (record r o s).schemaVersion = r.recordFormat := by
      rcases hformat with hformat | hformat <;> simp [record, hformat]
    refine ⟨hschema ▸ hformat, fun h => ?_, hversion, hparent, ?_, hkey.symm⟩
    · exact hattributed.legacy (hschema ▸ h)
    · show ObjectAuthor.mk _ _ _ _ = ObjectAuthor.mk _ _ _ _
      rw [horigin, hsubject, hname]

/-- **What the validator accepts of an older chain**, by induction along it. The validator goes from
a version to the one before it, which is the induction, and below the first it ends with no key. -/
theorem oldValidated_iff (hi : OlderInvariant container db) (hv : db.userVersion < 4)
    (hmig : Migrates db migrated) (hext : Extends migrated db') (hm : m.Opens container)
    {key : Bytes} {v : Nat} (hstored : ∀ u, 1 ≤ u → u ≤ v → db.revisions.find (key, u) ≠ none)
    (k : Bytes) : Validated P m db' key v k ↔
      ChainHolds P container db key v ∧ k = (storedKey db key v).getD [] := by
  induction v generalizing k with
  | zero =>
      have hnone : storedKey db key 0 = none := by
        rw [storedKey, Option.map_eq_none_iff]
        by_contra hne
        obtain ⟨r, hr⟩ := Option.ne_none_iff_exists'.1 hne
        have hversion : r.version = 0 := congrArg Prod.snd (Table.key_of_find hr)
        exact (hi.bounds r (Table.mem_of_find hr)).1 hversion
      rw [hnone]
      constructor
      · intro h
        cases h
        exact ⟨fun u hpos hle => absurd hle (by omega), rfl⟩
      · rintro ⟨-, rfl⟩
        exact .zero
  | succ v ih =>
      have ih := ih fun u hpos hle => hstored u hpos (by omega)
      obtain ⟨r, hr⟩ := Option.ne_none_iff_exists'.1 (hstored (v + 1) (by omega) le_rfl)
      have hversion : r.version = v + 1 := congrArg Prod.snd (Table.key_of_find hr)
      have hkey : storedKey db key (v + 1) = some r.validationKey := by
        rw [storedKey, hr, Option.map_some]
      obtain ⟨o, s, ended, ho, hs, hattributed, -, hreads⟩ :=
        oldReads (m := m) hi hv hmig hext hm hr
      have hfits : ∀ previous, Evidence.Fits P m.container (v + 1) previous
          ⟨record r o s, sessionOf { s with ended }, [], []⟩ ↔
            r.validationKey = validationKey P (record r o s) (sessionOf s) m.container [] [] ∧
              r.parentKey = previous :=
        fun previous => old_fits hattributed (hi.formats r (Table.mem_of_find hr)) hversion
      constructor
      · intro h
        cases h with
        | @succ _ previous e hchain hreads' hfits' =>
            obtain ⟨hholds, hprevious⟩ := (ih previous).1 hchain
            rw [hreads'.unique hreads] at hfits' ⊢
            obtain ⟨hhash, hparent⟩ := (hfits previous).1 hfits'
            refine ⟨fun u hpos hle => ?_, by rw [hkey]; rfl⟩
            rcases Nat.lt_or_ge u (v + 1) with hlt | hge
            · exact hholds u hpos (by omega)
            · obtain rfl : u = v + 1 := by omega
              exact ⟨r, o, s, hr, ho, hs, hm.container ▸ hhash, hparent.trans hprevious⟩
      · rintro ⟨hholds, hk⟩
        obtain ⟨r', o', s', hr', ho', hs', hhash, hparent⟩ := hholds (v + 1) (by omega) le_rfl
        obtain rfl : r = r' := Option.some.inj (hr.symm.trans hr')
        obtain rfl : o = o' := Option.some.inj (ho.symm.trans ho')
        obtain rfl : s = s' := Option.some.inj (hs.symm.trans hs')
        have hchain := (ih ((storedKey db key v).getD [])).2
          ⟨fun u hpos hle => hholds u hpos (by omega), rfl⟩
        have hnext := hchain.succ hreads ((hfits _).2 ⟨hm.container.symm ▸ hhash, hparent⟩)
        rw [hk, hkey]
        exact hnext

/-! ## What is published later -/

/-- What the stores make of a migrated package: what it held is there, and every later revision is
of record format 2 and validated. -/
structure Continues (P : Platform) (container : Bytes) (base db : ObjectTables) : Prop where
  kept : Extends base db
  rawOwner : ∀ id, db.rawRevisions.find id ≠ none → db.revisions.find id ≠ none
  later : ∀ r ∈ db.revisions, base.revisions.find r.id = none → r.recordFormat = 2 ∧
    ∀ m : Impl, m.Opens container → validate P m db r.objectKey r.version false = .ok true

namespace Continues

/-- A change that writes neither a revision nor a RAW document. -/
theorem of_extends (h : Continues P container base db) (hext : Extends db db')
    (hrevisions : db'.revisions = db.revisions) (hraw : db'.rawRevisions = db.rawRevisions) :
    Continues P container base db' where
  kept := h.kept.trans hext
  rawOwner := by
    rw [hraw, hrevisions]
    exact h.rawOwner
  later r hr hnew := by
    rw [hrevisions] at hr
    obtain ⟨hformat, hvalid⟩ := h.later r hr hnew
    exact ⟨hformat, fun m hm => hext.validate (hvalid m hm)⟩

/-- A publication on a validated history. The chain of the object ends with the new revision, whose
parent is the version that was validated before. -/
theorem publish {r x : ObjectRecord} {s : ObjectSession} {parts : List Chunk}
    {raw : Option Bytes} {now : Int} {o : ObjectRow} (h : Continues P container base db)
    (hm : m.Opens container) (hp : Impl.publish P m db r s parts raw now = .ok (x, db'))
    (ho : db.objects.find r.key = some o) (hindex : o.indexKey = r.indexKey)
    (hs : getSession db s.key false = .ok s)
    (hparent : Validated P m db r.key (r.version - 1) r.parentValidationKey)
    (hrange : r.version ≤ int64Max) : Continues P container base db' := by
  obtain ⟨document, context, -, hcontext, hx, hp⟩ := publish_ok hp
  have hext := hp.toExtends
  have hrevision := hp.find_revision
  have hpos : r.version ≠ 0 := by
    have hpositive := hp.positive
    rw [hx] at hpositive
    exact hpositive
  have hnone : db.rawRevisions.find (r.key, r.version) = none := by
    by_contra hne
    have hfresh := hp.fresh
    rw [hx] at hfresh
    exact h.rawOwner _ hne hfresh
  have hvalid : validate P m db' r.key r.version false = .ok true := by
    rw [hx] at hp
    have hreads := hp.reads hm.journal ho hindex hs hnone hcontext
    exact validate_iff.2 ⟨hpos, hrange, hp.validated hreads hparent, fun h => by cases h⟩
  refine ⟨h.kept.trans hext, fun id hid => ?_, fun row hrow hnew => ?_⟩
  · rw [hp.find_raw] at hid
    rw [hrevision]
    split
    · exact Option.some_ne_none _
    · next hne =>
        rw [if_neg fun h => hne h.1] at hid
        exact h.rawOwner id hid
  · have hfind := Table.mem_iff_find.1 hrow
    rw [hrevision] at hfind
    split at hfind
    · obtain rfl := Option.some.inj hfind
      refine ⟨rfl, fun m' hm' => ?_⟩
      rw [hm'.validate_eq hm, hx]
      exact hvalid
    · obtain ⟨hformat, hvalid⟩ := h.later row (Table.mem_of_find hfind) hnew
      exact ⟨hformat, fun m' hm' => hext.validate (hvalid m' hm')⟩

/-- A change of the migrated package continues the chains. -/
theorem change (h : Continues P container base db) (hm : m.Opens container)
    (hc : Change P m db db') : Continues P container base db' := by
  cases hc with
  | beginSession hins hins' =>
      have hext := (insertSession_extends hins).trans (insertWorkSession_extends hins')
      obtain ⟨-, sessions, -, rfl⟩ := ObjectTables.insertSession_ok hins
      obtain ⟨-, workSessions, -, rfl⟩ := ObjectTables.insertWorkSession_ok hins'
      exact h.of_extends hext rfl rfl
  | endSession hended =>
      have hext := setEnded_extends hended
      obtain rfl := ObjectTables.setEnded_ok hended
      exact h.of_extends hext rfl rfl
  | @create stored _ r x s _ _ _ hcreation =>
      obtain ⟨created, hins, hstores⟩ := hcreation.insert
      obtain ⟨-, -, -, objects, -, rfl⟩ := ObjectTables.insertObject_ok hins
      have hrevisions : stored.revisions = db.revisions := by rw [hstores.rest]
      have hraw : stored.rawRevisions = db.rawRevisions := by rw [hstores.rest]
      have hstored := h.of_extends hcreation.stored_extends hrevisions hraw
      have hsession : getSession stored s.key false = .ok s := by
        have hactive := hcreation.session
        rw [getSession_ok, ← hcreation.stored_sessions] at hactive
        obtain ⟨hbound, row, hrow, -, heq⟩ := hactive
        exact getSession_ok.2 ⟨hbound, row, hrow, fun h => absurd h (by decide), heq⟩
      refine hstored.publish hm hcreation.publish hcreation.stored_object rfl hsession ?_ ?_
      · rw [hcreation.version, hcreation.parent]
        exact .zero
      · rw [hcreation.version]
        decide
  | @revise stored _ _ _ r x s _ _ _ hrevision =>
      have hstores := hrevision.stores
      have hrevisions : stored.revisions = db.revisions := by rw [hstores.rest]
      have hraw : stored.rawRevisions = db.rawRevisions := by rw [hstores.rest]
      have hstored := h.of_extends hstores.toExtends hrevisions hraw
      obtain ⟨⟨o, row, ho, hindex, -⟩, hparent, hrange, hsession⟩ := hrevision.follows
      exact hstored.publish hm hrevision.publish ho hindex hsession hparent hrange

/-- So do several changes, by induction on them. -/
theorem changes (h : Continues P container base db) (hm : m.Opens container)
    (hc : ReflTransGen (Change P m) db db') : Continues P container base db' := by
  induction hc with
  | refl => exact h
  | tail _ hchange ih => exact ih.change hm hchange

/-- One step of the stores. A call that begins opens the container it was given, and what it does
afterwards is a change of the migrated package. -/
theorem step {σ τ : Package} {e : Package.Event} (hs : Package.Step P σ e τ)
    (h : Continues P container base σ.tables ∧ σ.tables.containerKey = container ∧
      ∀ c ∈ σ.started, c.store.Opens container) :
    Continues P container base τ.tables ∧ τ.tables.containerKey = container ∧
      ∀ c ∈ τ.started, c.store.Opens container := by
  obtain ⟨h, hkey, hstores⟩ := h
  cases hs with
  | start m call hm =>
      refine ⟨h, hkey, fun c hc => ?_⟩
      rcases List.mem_cons.1 hc with rfl | hc
      · exact hkey ▸ hm
      · exact hstores c hc
  | @commit db db' l r c draws response hrun =>
      have hnext := h.changes (hstores c (by simp)) (Call.run_changes hrun)
      refine ⟨hnext, ?_, fun c' hc' => hstores c' ?_⟩
      · rw [← hkey]
        exact hnext.kept.containerKey.trans h.kept.containerKey.symm
      · simp only [List.mem_append, List.mem_cons] at hc' ⊢
        tauto
  | @fail db l r c =>
      refine ⟨h, hkey, fun c' hc' => hstores c' ?_⟩
      simp only [List.mem_append, List.mem_cons] at hc' ⊢
      tauto

/-- The migration itself continues the chains. -/
theorem of_migrates (hi : OlderInvariant container db) (hv : db.userVersion < 4)
    (hm : Migrates db migrated) : Continues P container migrated migrated where
  kept := .refl migrated
  rawOwner id hid := by
    have hraw : migrated.rawRevisions = db.rawRevisions := by rw [hm.kept]
    rw [hraw, find_of_rows_nil (hi.early hv).2] at hid
    exact absurd rfl hid
  later r hr hnew := by
    rw [Table.mem_iff_find.1 hr] at hnew
    cases hnew

end Continues

/-! ## Migration preserves meaning -/

/-- What a package of schema 1 or 2 is once it is migrated and used. -/
structure KeepsChains (P : Platform) (container : Bytes) (db db' : ObjectTables) : Prop where
  kept : ∀ r ∈ db.revisions, db'.revisions.find r.id = some r
  validates : ∀ m : Impl, m.Opens container → ∀ r ∈ db.revisions, ∀ payload,
    validate P m db' r.objectKey r.version payload = .ok true ↔
      ChainHolds P container db r.objectKey r.version ∧
        (payload = true → ∃ x, Impl.get db r.objectKey r.version = .ok (some x) ∧
          validatePayload P db' x r.objectKey r.version = .ok true)
  later : ∀ r ∈ db'.revisions, db.revisions.find r.id = none → r.recordFormat = 2 ∧
    (∀ m : Impl, m.Opens container →
      validate P m db' r.objectKey r.version false = .ok true) ∧
    (r.version = 1 ∧ r.parentKey = [] ∨
      ∃ p, db'.revisions.find (r.objectKey, r.version - 1) = some p ∧
        r.parentKey = p.validationKey)
  contexts : ∀ s ∈ db.sessions, ∃! w, w ∈ db'.workSessions ∧ w.sessionKey = s.sessionKey
  journal : ∀ r ∈ db.revisions, ∃! j, j ∈ db'.objectJournal ∧ j.id = r.id

/-- A revision the validator accepts names the validation key of the one before. The validator goes
from a version to the one before it, and the key it has found there is the one that the revision
names. -/
theorem parent_of_validate {r : RevisionRow} (hr : r ∈ db.revisions)
    (h : validate P m db r.objectKey r.version false = .ok true) :
    r.version = 1 ∧ r.parentKey = [] ∨
      ∃ p, db.revisions.find (r.objectKey, r.version - 1) = some p ∧
        r.parentKey = p.validationKey := by
  obtain ⟨hpos, -, ⟨k, hk⟩, -⟩ := validate_iff.1 h
  obtain ⟨e, previous, hchain, hreads, hfits, -⟩ := hk.last hpos
  obtain ⟨-, hjoined⟩ := get_ok.1 hreads.record
  rw [versionOf_pos hpos] at hjoined
  obtain ⟨row, o, s, hrow, -, -, hrecord⟩ := joined_eq_some.1 hjoined
  have hself : db.revisions.find (r.objectKey, r.version) = some r := Table.mem_iff_find.1 hr
  obtain rfl : r = row := Option.some.inj (hself.symm.trans hrow)
  have hparent : r.parentKey = previous := by
    rw [← hfits.parent, ← hrecord]
    rfl
  rcases Nat.eq_zero_or_pos (r.version - 1) with hzero | hprevious
  · rw [hzero] at hchain
    cases hchain
    exact .inl ⟨by omega, hparent⟩
  · have hstored := hchain.storedKey hprevious.ne'
    obtain ⟨p, hp, hkey⟩ := Option.map_eq_some_iff.1 hstored
    exact .inr ⟨p, hp, by rw [hparent, hkey]⟩

/-- What follows a migration continues the package it made. -/
theorem Succeeds.continues (h : Populated container db) (hv : db.userVersion < 4)
    (hs : Succeeds P container db db') :
    ∃ migrated, db.migrate container = .ok migrated ∧ Continues P container migrated db' := by
  have hi := h.olderInvariant
  obtain @⟨migrated, _, _, _, hmigrate, hrun⟩ := hs
  have hm := migrate_ok hmigrate
  have hcontinues := hrun.invariant
    (I := fun σ => Continues P container migrated σ.tables ∧ σ.tables.containerKey = container ∧
      ∀ c ∈ σ.started, c.store.Opens container)
    (fun hi hstep => Continues.step hstep hi)
    ⟨.of_migrates hi hv hm, by rw [hm.kept]; exact hi.containerKey,
      fun _ hc => absurd hc List.not_mem_nil⟩
  exact ⟨migrated, hmigrate, hcontinues.1⟩

/-- **The chains of schema 1 and 2 survive** a migration and whatever follows. The statement is put
together from the order of the journal, which the migration fills in, and from the chains that every
later change continues. -/
theorem Succeeds.keepsChains (h : Populated container db) (hv : db.userVersion < 3)
    (hs : Succeeds P container db db') : KeepsChains P container db db' := by
  obtain ⟨-, hjournal, hversion⟩ := hs.orderInvariant h
  obtain ⟨migrated, hmigrate, hext, -, hlater⟩ := hs.continues h (by omega)
  have hi := h.olderInvariant
  have hm := migrate_ok hmigrate
  have hrevisions : migrated.revisions = db.revisions := by rw [hm.kept]
  have hfind : ∀ {id r}, db.revisions.find id = some r → db'.revisions.find id = some r := by
    intro id r hr
    exact hext.revisions id r (by rw [hrevisions]; exact hr)
  exact {
    kept := fun r hr => hfind (Table.mem_iff_find.1 hr)
    validates := fun m hopens r hr payload => by
      have hself : db.revisions.find (r.objectKey, r.version) = some r := Table.mem_iff_find.1 hr
      obtain ⟨hpos, hmax⟩ := hi.bounds r hr
      have hchain := fun k => oldValidated_iff (P := P) (m := m) hi (by omega) hm hext hopens
        (hi.contiguous r hr) k
      have hvalidated : (∃ k, Validated P m db' r.objectKey r.version k) ↔
          ChainHolds P container db r.objectKey r.version :=
        ⟨fun ⟨k, hk⟩ => ((hchain k).1 hk).1, fun hholds => ⟨_, (hchain _).2 ⟨hholds, rfl⟩⟩⟩
      obtain ⟨o, s, ended, -, -, -, hget, hreads⟩ := oldReads (m := m) hi (by omega)
        hm hext hopens hself
      have hget' := hreads.record
      rw [validate_iff, hvalidated, hget, hget']
      constructor
      · rintro ⟨-, -, hholds, hpayload⟩
        refine ⟨hholds, fun hp => ?_⟩
        obtain ⟨x, parts, hx, hparts, hintact⟩ := hpayload hp
        exact ⟨x, hx, validatePayload_ok.2 ⟨parts, hparts, hintact⟩⟩
      · rintro ⟨hholds, hpayload⟩
        refine ⟨hpos, hmax, hholds, fun hp => ?_⟩
        obtain ⟨x, hx, hvalid⟩ := hpayload hp
        obtain ⟨parts, hparts, hintact⟩ := validatePayload_ok.1 hvalid
        exact ⟨x, parts, hx, hparts, hintact⟩
    later := fun r hr hnew => by
      obtain ⟨hformat, hvalid⟩ := hlater r hr (by rw [hrevisions]; exact hnew)
      exact ⟨hformat, hvalid, parent_of_validate hr (hvalid ⟨container, 5, true⟩ ⟨rfl, rfl⟩)⟩
    contexts := fun s hs => by
      obtain ⟨w, hw, -⟩ := hm.context hi (by omega) hs
      have hw := hext.workSessions _ _ hw
      refine ⟨w, ⟨Table.mem_of_find hw, Table.key_of_find hw⟩, ?_⟩
      rintro w' ⟨hmem, hkey⟩
      exact Table.eq_of_key_eq hmem (Table.mem_of_find hw) (hkey.trans (Table.key_of_find hw).symm)
    journal := fun r hr => by
      have hself := hfind (Table.mem_iff_find.1 hr)
      obtain ⟨j, hj⟩ := Option.ne_none_iff_exists'.1
        (hjournal.complete hversion r.id (by rw [hself]; exact Option.some_ne_none _))
      refine ⟨j, ⟨Table.mem_of_find hj, Table.key_of_find hj⟩, ?_⟩
      rintro j' ⟨hmem, hid⟩
      exact Table.eq_of_key_eq hmem (Table.mem_of_find hj) (hid.trans (Table.key_of_find hj).symm) }

/-- **Migration preserves meaning.** A writer can migrate every package of an older schema. From
schema 3 on, readers of the old schema and of the new one learn the same; and the chains of schema
1 and 2 are validated by their own formats, and continued. -/
theorem Populated.migrationPreserves (P : Platform) (h : Populated container db) :
    ∃ migrated, db.migrate container = .ok migrated ∧ migrated.userVersion = 5 ∧
      (3 ≤ db.userVersion → ∀ m m' : Impl, m.container = container →
        m.schema = db.userVersion → m'.Opens container → SameAnswers P m m' db migrated) ∧
      (db.userVersion < 3 → ∀ db', Succeeds P container db db' →
        KeepsChains P container db db') := by
  have hi := h.olderInvariant
  obtain ⟨migrated, hmigrate⟩ := (h.evolves (P := P)).indexInvariant.1.migrates hi.containerKey
  have hm := migrate_ok hmigrate
  have hversion := hi.version
  refine ⟨migrated, hmigrate, ?_, fun hv m m' hcontainer hschema hopens => ?_, fun hv db' hs => ?_⟩
  · rw [hm.version]
    omega
  · exact hm.sameAnswers hi hv hschema hopens.schema (hopens.container.trans hcontainer.symm)
  · exact hs.keepsChains h hv

/-- Two packages with two revisions each, of schema 2 and of schema 3, once they are migrated: the
chain of the first one is kept, and two readers of the second one learn the same. -/
theorem Populated.migrationPreserves_sample :
    (∃ db db', db.revisions.rows.length = 2 ∧ db.migrate (ascii "c") = .ok db' ∧
      KeepsChains .reference (ascii "c") db db') ∧
    ∃ db db', db.revisions.rows.length = 2 ∧ db.migrate (ascii "c") = .ok db' ∧
      SameAnswers .reference ⟨ascii "c", 3, true⟩ ⟨ascii "c", 5, true⟩ db db' := by
  constructor
  · have hok : (sampleOlder 2 20 10).isOk = true := by decide +kernel
    obtain ⟨db, h⟩ := exists_of_isOk hok
    obtain ⟨hpopulated, hschema, hrows⟩ := sampleOlder_ok (by omega) (by omega) h
    obtain ⟨migrated, hmigrated, -, -, hkeeps⟩ :=
      Populated.migrationPreserves .reference hpopulated
    exact ⟨db, migrated, by rw [hrows]; rfl, hmigrated,
      hkeeps (by omega) migrated (.intro hmigrated (.nil _))⟩
  · have hok : (sampleOlder 3 10 20).isOk = true := by decide +kernel
    obtain ⟨db, h⟩ := exists_of_isOk hok
    obtain ⟨hpopulated, hschema, hrows⟩ := sampleOlder_ok (by omega) (by omega) h
    obtain ⟨migrated, hmigrated, -, hsame, -⟩ :=
      Populated.migrationPreserves .reference hpopulated
    exact ⟨db, migrated, by rw [hrows]; rfl, hmigrated,
      hsame hschema.ge _ _ rfl hschema.symm ⟨rfl, rfl⟩⟩

end FileProvider
