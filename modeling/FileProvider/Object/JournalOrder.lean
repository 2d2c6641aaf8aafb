import FileProvider.Object.Older

/-!
# The order of the journal and the order of versions

A revision is journalled when it is published, so the journal lists the revisions of an object in
version order. The backfill of schema 4 lists the older ones by the time that was recorded with
them, and by the order of their rows where the times are equal. `Precedes` says what follows for
two rows: the version order holds unless both were backfilled and the clock went backwards between
them.

`OrderInvariant` serves packages that were migrated and those of this schema alike: it is told which
revisions the backfill journalled, of which a new package has none. The samples are a package of an
older writer, and one of a writer whose clock was set back.
-/

namespace FileProvider

open Bytes Fallible Impl Relation

variable {P : Platform} {m : Impl} {db db' : ObjectTables} {container : Bytes}

/-- The first of two revisions of one object has the smaller version. -/
def InVersionOrder (r r' : RevisionRow) : Prop :=
  r.objectKey = r'.objectKey → r.version < r'.version

/-! ## Packages of older schemas -/

/-- What holds of the revisions and the journal of a package whose writers published in version
order: both list the revisions of an object in that order. -/
structure VersionOrdered (db : ObjectTables) : Prop where
  revisions : db.revisions.rows.Pairwise InVersionOrder
  journal : db.objectJournal.rows.Pairwise
    fun j j' => j.objectKey = j'.objectKey → j.version < j'.version

namespace VersionOrdered

/-- A created package is in order. -/
theorem created (schema : Nat) (container : Bytes) :
    VersionOrdered (.created schema container) where
  revisions := .nil
  journal := .nil

/-- The order depends on revisions and journal alone. -/
theorem congr (h : VersionOrdered db) (hrevisions : db'.revisions = db.revisions)
    (hjournal : db'.objectJournal = db.objectJournal) : VersionOrdered db' where
  revisions := by rw [hrevisions]; exact h.revisions
  journal := by rw [hjournal]; exact h.journal

/-- A revision that is newer than the stored ones of its object is appended in order. It is put
behind the others, so that all pairs but those with the new row are pairs of before. -/
theorem insertRevision (h : VersionOrdered db) (hi : JournalInvariant db) {row : RevisionRow}
    (hins : db.insertRevision row = .ok db') (hnewest : Newest db row.id) : VersionOrdered db' := by
  obtain ⟨-, -, -, -, hrow, hjournals, -⟩ := ObjectTables.insertRevision_ok hins
  refine ⟨?_, ?_⟩
  · rw [Table.rows_insert hrow]
    refine List.pairwise_append.2 ⟨h.revisions, List.pairwise_singleton _ _, ?_⟩
    intro r hr new hnew hkey
    obtain rfl := List.mem_singleton.1 hnew
    exact hnewest r hr hkey
  · rcases Nat.lt_or_ge db.userVersion 4 with hv | hv
    · rw [(hjournals.skip hv).1]
      exact h.journal
    · rw [Table.rows_insert (hjournals.append hv).1]
      refine List.pairwise_append.2 ⟨h.journal, List.pairwise_singleton _ _, ?_⟩
      intro j hj new hnew hkey
      obtain rfl := List.mem_singleton.1 hnew
      obtain ⟨r, hr, -⟩ := hi.named j hj
      have hid : r.id = j.id := Table.key_of_find hr
      obtain ⟨hobject, hversion⟩ := Prod.mk.inj hid
      have hlt := hnewest r (Table.mem_of_find hr) (hobject.trans hkey)
      rw [hversion] at hlt
      exact hlt

/-- Each statement of an older program keeps the order. Only a revision is concerned, and an older
program writes one only if it is newer than those of its object. -/
theorem statement (h : VersionOrdered db) (hi : JournalInvariant db)
    (hs : OlderStatement db db') : VersionOrdered db' := by
  obtain ⟨hstatement, -, hrevision⟩ := hs
  cases hstatement with
  | session hins =>
      obtain ⟨-, sessions, -, rfl⟩ := ObjectTables.insertSession_ok hins
      exact h.congr rfl rfl
  | workSession hins =>
      obtain ⟨-, workSessions, -, rfl⟩ := ObjectTables.insertWorkSession_ok hins
      exact h.congr rfl rfl
  | ended hended =>
      obtain rfl := ObjectTables.setEnded_ok hended
      exact h.congr rfl rfl
  | object hins =>
      obtain ⟨-, -, -, objects, -, rfl⟩ := ObjectTables.insertObject_ok hins
      exact h.congr rfl rfl
  | chunks hstores =>
      rw [hstores.rest]
      exact h.congr rfl rfl
  | revision hins =>
      obtain ⟨-, -, -, -, hrow, -, -⟩ := ObjectTables.insertRevision_ok hins
      obtain ⟨hfresh, hfind⟩ := Table.find_insert hrow
      refine h.insertRevision hi hins (hrevision _ ?_ hfresh).newest
      rw [hfind]
      exact if_pos rfl
  | raw hins =>
      rw [(ObjectTables.insertRaw_ok hins).2]
      exact h.congr rfl rfl
  | part hins =>
      rw [(ObjectTables.insertRevisionChunk_ok hins).2.2.2]
      exact h.congr rfl rfl
  | head _ hupdate =>
      rw [updateHead_rest hupdate]
      exact h.congr rfl rfl

/-- So do several statements, by induction on them. -/
theorem statements (h : VersionOrdered db) (hi : JournalInvariant db)
    (hs : ReflTransGen OlderStatement db db') : VersionOrdered db' := by
  induction hs with
  | refl => exact h
  | tail hprev hstep ih =>
      exact ih.statement (hi.statements (OlderStatement.forget hprev)).1 hstep

end VersionOrdered

/-- A package that an older program filled is in order. -/
theorem Populated.versionOrdered (h : Populated container db) : VersionOrdered db := by
  induction h with
  | created schema _ _ => exact .created schema container
  | older hprev _ htransaction ih =>
      have hi := (hprev.evolves (P := .reference)).journalInvariant
      exact ih.statements hi htransaction.statements

/-! ## Packages of this schema -/

/-- What the order of two rows of one object in the journal says: the first has the smaller
version, or both were backfilled and the clock went forwards between them all the same. -/
def Precedes (backfilled : Bytes × Nat → Prop) (db : ObjectTables) (j j' : ObjectJournalRow) :
    Prop :=
  ∀ r r', db.revisions.find j.id = some r → db.revisions.find j'.id = some r' →
    r.objectKey = r'.objectKey →
      (r.version < r'.version ∧ (backfilled r'.id → r.atNs ≤ r'.atNs)) ∨
        (r'.version < r.version ∧ backfilled r.id ∧ r.atNs < r'.atNs)

/-- What holds of the order of the journal, after the backfill of some revisions. -/
structure OrderInvariant (backfilled : Bytes × Nat → Prop) (db : ObjectTables) : Prop where
  headed : Headed db
  stored : ∀ id, backfilled id → db.revisions.find id ≠ none
  order : db.objectJournal.rows.Pairwise (Precedes backfilled db)

/-- The rows of a list of revisions stand as the revisions do. -/
theorem journalRows_pairwise {R : RevisionRow → RevisionRow → Prop} {l : List RevisionRow}
    (h : l.Pairwise R) (n : Nat) : (journalRows n l).Pairwise fun j j' =>
      ∃ r ∈ l, ∃ r' ∈ l, r.id = j.id ∧ r'.id = j'.id ∧ R r r' := by
  have hnamed : ∀ (l : List RevisionRow) (n : Nat),
      ∀ j ∈ journalRows n l, ∃ r ∈ l, r.id = j.id := by
    intro l n j hj
    have hmem := List.mem_map_of_mem (f := fun j => (j.id, j.sessionKey)) hj
    rw [journalRows_ids] at hmem
    obtain ⟨r, hr, heq⟩ := List.mem_map.1 hmem
    exact ⟨r, hr, (Prod.mk.inj heq).1⟩
  induction l generalizing n with
  | nil => exact .nil
  | cons r l ih =>
      obtain ⟨hhead, hrest⟩ := List.pairwise_cons.1 h
      refine List.pairwise_cons.2 ⟨fun j' hj' => ?_, (ih hrest (n + 1)).imp ?_⟩
      · obtain ⟨r', hr', hid⟩ := hnamed l (n + 1) j' hj'
        exact ⟨r, List.mem_cons_self, r', List.mem_cons_of_mem _ hr', rfl, hid, hhead r' hr'⟩
      · rintro j j' ⟨a, ha, b, hb, hab⟩
        exact ⟨a, List.mem_cons_of_mem _ ha, b, List.mem_cons_of_mem _ hb, hab⟩

/-- The revisions a migration journals. -/
def Backfilled (db : ObjectTables) (id : Bytes × Nat) : Prop :=
  db.userVersion < 4 ∧ db.revisions.find id ≠ none

/-- The backfill lists the revisions by their times. The order of the backfill is by time and then
by row, which is why only the revisions present then are ordered by their times. -/
theorem VersionOrdered.migrate (h : VersionOrdered db) (hi : JournalInvariant db)
    (hheaded : Headed db) (hm : db.migrate container = .ok db') :
    OrderInvariant (Backfilled db) db' := by
  have hmig := migrate_ok hm
  have hrevisions : db'.revisions = db.revisions := by rw [hmig.kept]
  have hobjects : db'.objects = db.objects := by rw [hmig.kept]
  refine ⟨?_, fun id hid => by rw [hrevisions]; exact hid.2, ?_⟩
  · unfold Headed
    rw [hrevisions, hobjects]
    exact hheaded
  · rcases Nat.lt_or_ge db.userVersion 4 with hv | hv
    · rw [(hmig.journal hv (hi.older hv)).1]
      have hnodup : db.revisions.rows.Nodup := db.revisions.nodup.of_map
      have hstable : (Keyset.orderBy (·.atNs) db.revisions.rows).Pairwise _ :=
        Keyset.orderBy_stable hnodup h.revisions
      refine (journalRows_pairwise hstable _).imp ?_
      rintro j j' ⟨a, ha, b, hb, hja, hjb, hab⟩ r r' hr hr' hkey
      rw [hrevisions] at hr hr'
      have hmem : r ∈ db.revisions ∧ r' ∈ db.revisions :=
        ⟨Table.mem_of_find hr, Table.mem_of_find hr'⟩
      have ha' : a ∈ db.revisions := Keyset.mem_orderBy.1 ha
      have hb' : b ∈ db.revisions := Keyset.mem_orderBy.1 hb
      obtain rfl : a = r := Table.eq_of_key_eq ha' hmem.1 (hja.trans (Table.key_of_find hr).symm)
      obtain rfl : b = r' := Table.eq_of_key_eq hb' hmem.2 (hjb.trans (Table.key_of_find hr').symm)
      have hback : Backfilled db a.id ∧ Backfilled db b.id := by
        unfold Backfilled
        rw [Table.mem_iff_find.1 ha', Table.mem_iff_find.1 hb']
        exact ⟨⟨hv, Option.some_ne_none _⟩, hv, Option.some_ne_none _⟩
      rcases hab with hlt | ⟨heq, horder⟩
      · rcases Nat.lt_trichotomy a.version b.version with hversion | hversion | hversion
        · exact .inl ⟨hversion, fun _ => hlt.le⟩
        · -- Rows of one version are one row, which has one time.
          obtain rfl : a = b := Table.eq_of_key_eq ha' hb' (Prod.ext hkey hversion)
          exact absurd hlt (lt_irrefl _)
        · exact .inr ⟨hversion, hback.1, hlt⟩
      · exact .inl ⟨horder hkey, fun _ => heq.le⟩
    · rw [(hmig.filled hv).2.2.1]
      refine List.Pairwise.imp ?_ h.journal
      intro j j' hlt r r' hr hr' hkey
      have hj : r.id = j.id := Table.key_of_find hr
      have hj' : r'.id = j'.id := Table.key_of_find hr'
      obtain ⟨hobject, hversion⟩ := Prod.mk.inj hj
      obtain ⟨hobject', hversion'⟩ := Prod.mk.inj hj'
      refine .inl ⟨?_, fun hback => absurd hback.1 (by omega)⟩
      rw [hversion, hversion']
      exact hlt (hobject.symm.trans (hkey.trans hobject'))

namespace OrderInvariant

variable {backfilled : Bytes × Nat → Prop}

/-- The invariant is about the revisions, their rows and the heads of the objects. -/
theorem congr (h : OrderInvariant backfilled db) (hrevisions : db'.revisions = db.revisions)
    (hjournal : db'.objectJournal = db.objectJournal)
    (hobjects : ∀ k o, db.objects.find k = some o → db'.objects.find k = some o) :
    OrderInvariant backfilled db' where
  headed r hr := by
    rw [hrevisions] at hr
    obtain ⟨o, ho, hle⟩ := h.headed r hr
    exact ⟨o, hobjects _ o ho, hle⟩
  stored := by rw [hrevisions]; exact h.stored
  order := by
    unfold Precedes
    rw [hjournal, hrevisions]
    exact h.order

/-- A publication of a version newer than the stored ones is journalled after them. The row of the
new revision is the last of the journal, so that it stands behind those of the older versions. -/
theorem publishes (h : OrderInvariant backfilled db) (hi : JournalInvariant db)
    (hv : 4 ≤ db.userVersion) {x : ObjectRecord} {parts : List Chunk} {document : Bytes}
    (hp : Publishes db x parts document db') (hnewest : Newest db (x.key, x.version)) :
    OrderInvariant backfilled db' := by
  have hfresh := hp.fresh
  have hkept : ∀ id r, db.revisions.find id = some r → db'.revisions.find id = some r :=
    hp.toExtends.revisions
  refine ⟨fun r hr => ?_, fun id hid => hp.toExtends.revisions_ne_none (h.stored id hid), ?_⟩
  · rcases (Table.mem_insert hp.revisions).1 hr with hr | rfl
    · obtain ⟨o, ho, hle⟩ := h.headed r hr
      rw [hp.find_object, ho]
      split
      · next hkey =>
          have hlt := hnewest r hr hkey
          exact ⟨_, rfl, hlt.le⟩
      · exact ⟨o, rfl, hle⟩
    · obtain ⟨o, ho⟩ := Option.ne_none_iff_exists'.1 hp.object
      have hfind := hp.find_object x.key
      rw [if_pos rfl, ho] at hfind
      exact ⟨_, hfind, le_rfl⟩
  · rw [Table.rows_insert (hp.journal.append hv).1]
    refine List.pairwise_append.2 ⟨?_, List.pairwise_singleton _ _, ?_⟩
    · refine h.order.imp_of_mem fun {j j'} hj hj' horder r r' hr hr' hkey => ?_
      -- The revisions of old rows are old.
      obtain ⟨a, ha, -⟩ := hi.named j hj
      obtain ⟨a', ha', -⟩ := hi.named j' hj'
      rw [hkept _ _ ha, Option.some.injEq] at hr
      rw [hkept _ _ ha', Option.some.injEq] at hr'
      subst hr hr'
      exact horder a a' ha ha' hkey
    · intro j hj new hnew r r' hr hr' hkey
      obtain rfl := List.mem_singleton.1 hnew
      obtain ⟨a, ha, -⟩ := hi.named j hj
      rw [hkept _ _ ha, Option.some.injEq] at hr
      subst hr
      have hnewrow : db'.revisions.find (x.key, x.version) = some (revisionRow x) := by
        rw [hp.find_revision, if_pos rfl]
      have hr'eq : db'.revisions.find (x.key, x.version) = some r' := hr'
      rw [hnewrow, Option.some.injEq] at hr'eq
      subst hr'eq
      refine .inl ⟨hnewest a (Table.mem_of_find ha) hkey, fun hback => ?_⟩
      exact absurd hfresh (h.stored _ hback)

/-- A new object has no revisions yet. -/
theorem newest_of_absent (h : Headed db) {key : Bytes} (habsent : db.objects.find key = none)
    (v : Nat) : Newest db (key, v) := by
  intro r hr hkey
  obtain ⟨o, ho, -⟩ := h r hr
  rw [hkey, habsent] at ho
  cases ho

/-- A creation keeps the order: its row comes last. -/
theorem creation (h : OrderInvariant backfilled db) (hi : JournalInvariant db)
    (hv : 4 ≤ db.userVersion) {stored : ObjectTables} {r x : ObjectRecord} {s : ObjectSession}
    {parts : List Chunk} {document : Bytes} {now : Int}
    (hc : Creation P m db stored r s parts document now x db') : OrderInvariant backfilled db' := by
  obtain ⟨created, hins, hstores⟩ := hc.insert
  obtain ⟨-, -, -, objects, hrow, hcreated⟩ := ObjectTables.insertObject_ok hins
  obtain ⟨habsent, hfind⟩ := Table.find_insert hrow
  have hstored : stored.revisions = db.revisions ∧ stored.objectJournal = db.objectJournal ∧
      stored.objects = objects ∧ stored.userVersion = db.userVersion := by
    rw [hstores.rest, hcreated]
    exact ⟨rfl, rfl, rfl, rfl⟩
  obtain ⟨hrevisions, hjournal, hobjects, hversion⟩ := hstored
  have horder : OrderInvariant backfilled stored := by
    refine h.congr hrevisions hjournal fun k o ho => ?_
    rw [hobjects, hfind]
    split
    · next hkey =>
        subst hkey
        rw [habsent] at ho
        cases ho
    · exact ho
  have hjournalled : JournalInvariant stored :=
    ((hi.statement (.object hins)).1.statement (.chunks hstores)).1
  obtain ⟨key, hx⟩ := hc.record_eq
  have hid : (x.key, x.version) = (r.key, r.version) := by
    rw [hx]
    rfl
  refine horder.publishes hjournalled (by omega) hc.publishes ?_
  unfold Newest
  rw [hrevisions, hid]
  exact newest_of_absent h.headed habsent r.version

/-- A revision keeps the order: its row comes last. -/
theorem revision (h : OrderInvariant backfilled db) (hi : JournalInvariant db)
    (hv : 4 ≤ db.userVersion) {stored : ObjectTables} {expected : Nat} {old r x : ObjectRecord}
    {s : ObjectSession} {parts : List Chunk} {raw : Option Bytes} {now : Int}
    (hr : Revision P m db stored expected old r s parts raw now x db') :
    OrderInvariant backfilled db' := by
  have hstored : stored.revisions = db.revisions ∧ stored.objectJournal = db.objectJournal ∧
      stored.objects = db.objects ∧ stored.userVersion = db.userVersion := by
    rw [hr.stores.rest]
    exact ⟨rfl, rfl, rfl, rfl⟩
  obtain ⟨hrevisions, hjournal, hobjects, hversion⟩ := hstored
  have horder : OrderInvariant backfilled stored :=
    h.congr hrevisions hjournal fun k o ho => by rw [hobjects]; exact ho
  obtain ⟨_, _, -, -, hx, hp⟩ := publish_ok hr.publish
  have hid : (x.key, x.version) = (r.key, r.version) := by
    rw [hx]
    rfl
  refine horder.publishes (hi.statement (.chunks hr.stores)).1 (by omega) hp ?_
  -- The version after the head is newer than every stored one.
  obtain ⟨-, o, -, -, ho, -, -, -, hhead⟩ := get_record (require_ok.1 hr.require).1
  intro a ha hkey
  rw [hrevisions] at ha
  rw [hid] at hkey ⊢
  obtain ⟨o', ho', hle⟩ := h.headed a ha
  rw [hkey, ho, Option.some.injEq] at ho'
  subst ho'
  rw [if_pos rfl] at hhead
  have hversion' := hr.version
  show a.version < r.version
  omega

/-- Each change keeps the order. -/
theorem change (h : OrderInvariant backfilled db) (hi : JournalInvariant db)
    (hv : 4 ≤ db.userVersion) (hc : Change P m db db') : OrderInvariant backfilled db' := by
  cases hc with
  | beginSession hins hins' =>
      obtain ⟨-, sessions, -, rfl⟩ := ObjectTables.insertSession_ok hins
      obtain ⟨-, workSessions, -, rfl⟩ := ObjectTables.insertWorkSession_ok hins'
      exact h.congr rfl rfl fun _ _ ho => ho
  | endSession hended =>
      obtain rfl := ObjectTables.setEnded_ok hended
      exact h.congr rfl rfl fun _ _ ho => ho
  | create hcreation => exact h.creation hi hv hcreation
  | revise hrevision => exact h.revision hi hv hrevision

/-- So do several changes, by induction on them. -/
theorem changes (h : OrderInvariant backfilled db) (hi : JournalInvariant db)
    (hv : 4 ≤ db.userVersion) (hc : ReflTransGen (Change P m) db db') :
    OrderInvariant backfilled db' ∧ JournalInvariant db' ∧ 4 ≤ db'.userVersion := by
  induction hc with
  | refl => exact ⟨h, hi, hv⟩
  | tail _ hchange ih =>
      obtain ⟨h, hi, hv⟩ := ih
      obtain ⟨hi', hgrows⟩ := hi.statements hchange.statements
      exact ⟨h.change hi hv hchange, hi', hv.trans hgrows.version⟩

/-- Each step of a package keeps the order and what it rests on. -/
theorem step {σ τ : Package} {e : Package.Event} (hs : Package.Step P σ e τ)
    (h : OrderInvariant backfilled σ.tables ∧ JournalInvariant σ.tables ∧
      4 ≤ σ.tables.userVersion) :
    OrderInvariant backfilled τ.tables ∧ JournalInvariant τ.tables ∧ 4 ≤ τ.tables.userVersion := by
  cases hs with
  | start m call hm => exact h
  | commit hrun => exact h.1.changes h.2.1 h.2.2 (Call.run_changes hrun)
  | fail => exact h

end OrderInvariant

/-- A package that follows on one of an older writer keeps the order of its journal. -/
theorem Succeeds.orderInvariant (h : Populated container db) (hs : Succeeds P container db db') :
    OrderInvariant (Backfilled db) db' ∧ JournalInvariant db' ∧ 4 ≤ db'.userVersion := by
  obtain ⟨hm, hrun⟩ := hs
  have hi := (h.evolves (P := P)).journalInvariant
  have horder := h.versionOrdered.migrate hi h.headed hm
  have hversion : 4 ≤ max db.userVersion 5 := by omega
  rw [← (migrate_ok hm).version] at hversion
  exact hrun.invariant
    (I := fun σ => OrderInvariant (Backfilled db) σ.tables ∧ JournalInvariant σ.tables ∧
      4 ≤ σ.tables.userVersion)
    (fun hi hstep => OrderInvariant.step hstep hi) ⟨horder, (hi.migrate hm).1, hversion⟩

/-! ## The order of two rows -/

/-- Journal order agrees with version order, but for revisions an older writer left behind. A
package of schema 4 that no writer of this schema has opened lists the revisions of an object in
version order. So does one that a writer of this schema migrated and stores of this schema used,
except that the rows of two versions that the migration itself journalled stand in the order of
their recorded times. -/
theorem Populated.journalOrdered (P : Platform) (h : Populated container db) :
    (∀ j ∈ db.objectJournal, ∀ j' ∈ db.objectJournal, j.objectKey = j'.objectKey →
      j.version < j'.version → j.sequence < j'.sequence) ∧
    ∀ db', Succeeds P container db db' →
      ∀ j ∈ db'.objectJournal, ∀ j' ∈ db'.objectJournal,
        ∀ r ∈ db'.revisions, ∀ r' ∈ db'.revisions, r.id = j.id → r'.id = j'.id →
          j.objectKey = j'.objectKey → j.version < j'.version →
          (j.sequence < j'.sequence ↔ (Backfilled db j'.id → r.atNs ≤ r'.atNs)) := by
  have hi := (h.evolves (P := P)).journalInvariant
  have hordered := h.versionOrdered
  constructor
  · intro j hj j' hj' hkey hlt
    rcases Nat.lt_trichotomy j.sequence j'.sequence with hseq | hseq | hseq
    · exact hseq
    · obtain rfl := hi.row_unique hj hj' hseq
      exact absurd hlt (lt_irrefl _)
    · have hgt := hi.ascending.of_lt hordered.journal hj' hj hseq hkey.symm
      omega
  · intro db' hs j hj j' hj' r hr r' hr' hid hid' hkey hlt
    obtain ⟨horder, hi', -⟩ := hs.orderInvariant h
    have hfind : db'.revisions.find j.id = some r := hid ▸ Table.mem_iff_find.1 hr
    have hfind' : db'.revisions.find j'.id = some r' := hid' ▸ Table.mem_iff_find.1 hr'
    obtain ⟨hobject, hversion⟩ := Prod.mk.inj hid
    obtain ⟨hobject', hversion'⟩ := Prod.mk.inj hid'
    have hobjects : r.objectKey = r'.objectKey := by rw [hobject, hobject', hkey]
    have hversions : r.version < r'.version := by rw [hversion, hversion']; exact hlt
    rw [← hid']
    rcases Nat.lt_trichotomy j.sequence j'.sequence with hseq | hseq | hseq
    · refine ⟨fun _ => ?_, fun _ => hseq⟩
      rcases hi'.ascending.of_lt horder.order hj hj' hseq r r' hfind hfind' hobjects with
        ⟨-, htimes⟩ | ⟨hgt, -⟩
      · exact htimes
      · omega
    · obtain rfl := hi'.row_unique hj hj' hseq
      exact absurd hlt (lt_irrefl _)
    · refine ⟨fun hother => by omega, fun htimes => ?_⟩
      rcases hi'.ascending.of_lt horder.order hj' hj hseq r' r hfind' hfind hobjects.symm with
        ⟨hgt, -⟩ | ⟨-, hback, hback'⟩
      · omega
      · have hle := htimes hback
        omega

/-! ## A package of an older writer -/

/-- A session of an older writer. -/
def Populated.sampleSession : SessionRow :=
  ⟨ascii "session-1", ascii "society", ascii "1", ascii "User", ascii "device", [], 1, 0, [], []⟩

/-- A revision of an older writer at a time. -/
def Populated.sampleRevision (version : Nat) (atNs : Int) : RevisionRow where
  objectKey := ascii "object-1"
  version := version
  path := ascii "a"
  sha256 := []
  size := 0
  authorOrigin := ascii "society"
  authorSubject := ascii "1"
  authorName := ascii "User"
  sessionKey := ascii "session-1"
  atNs := atNs
  operation := ascii "revise"
  deleted := false
  parentKey := []
  validationKey := []
  metadataFormat := []
  metadata := []
  sourceStamp := []
  recordFormat := 1

open Populated in
/-- What an older writer leaves behind that creates an object and revises it, at two times. -/
def Populated.sampleOlder (schema : Nat) (first second : Int) : Fallible ObjectTables := do
  let db ← (ObjectTables.created schema (ascii "c")).insertSession sampleSession
  let (_, db) ← db.insertObject (ascii "object-1") (ascii "a")
  let db ← db.insertRevision (sampleRevision 1 first)
  let db ← db.updateHead 1 (ascii "a") false (ascii "object-1")
  let db ← db.insertRevision (sampleRevision 2 second)
  let db ← db.updateHead 2 (ascii "a") false (ascii "object-1")
  failIf (db.objects.rows.map (·.head) ≠ [2]
    ∨ (db.objects.find (ascii "object-1")).map (·.head) ≠ some 2) "unexpected"
  pure db

/-- A revision of the sample is one that a writer of any schema publishes in the sample session,
when the versions before it are there. -/
theorem Populated.sampleRevision_older {version : Nat} {atNs : Int} (hbound : version ≤ int64Max)
    (hsession : db.sessions.find (ascii "session-1") = some sampleSession)
    (hnext : ∀ v, db.revisions.find (ascii "object-1", v) ≠ none ↔ 1 ≤ v ∧ v < version) :
    OlderRevision db (sampleRevision version atNs) where
  bound := hbound
  next := hnext
  attributed := ⟨sampleSession, hsession, ⟨rfl, rfl, rfl⟩, fun _ => ⟨rfl, rfl, rfl⟩⟩

/-- It is one of the packages that a writer of this schema can find. -/
theorem Populated.sampleOlder_ok {schema : Nat} {first second : Int} (hlow : 1 ≤ schema)
    (hhigh : schema < 5) (h : sampleOlder schema first second = .ok db) :
    Populated (ascii "c") db ∧ db.userVersion = schema ∧
      db.revisions.rows = [sampleRevision 1 first, sampleRevision 2 second] := by
  simp only [sampleOlder, bind_ok, pure_ok, failIf_ok, Prod.exists, not_or, not_not] at h
  obtain ⟨db₁, h₁, indexKey, db₂, h₂, db₃, h₃, db₄, h₄, db₅, h₅, db₆, h₆, -,
    ⟨hheads, hhead⟩, rfl⟩ :=
    h
  obtain ⟨-, sessions, hsession, hdb₁⟩ := ObjectTables.insertSession_ok h₁
  obtain ⟨-, -, -, objects, -, hdb₂⟩ := ObjectTables.insertObject_ok h₂
  obtain ⟨-, -, -, -, hrow₃, -, hdb₃⟩ := ObjectTables.insertRevision_ok h₃
  obtain ⟨-, -, -, -, hrow₅, -, hdb₅⟩ := ObjectTables.insertRevision_ok h₅
  have hrest₄ := updateHead_rest h₄
  have hrest₆ := updateHead_rest h₆
  have hsession : sessions.find (ascii "session-1") = some sampleSession := by
    rw [(Table.find_insert hsession).2]
    exact if_pos rfl
  have hsessions₂ : db₂.sessions = sessions := by rw [hdb₂, hdb₁]
  have hrevisions₂ : db₂.revisions = .empty := by
    rw [hdb₂, hdb₁]
    rfl
  have hsessions₄ : db₄.sessions = sessions := by rw [hrest₄, hdb₃, hsessions₂]
  have hrevisions₄ : db₄.revisions = db₃.revisions := by rw [hrest₄]
  have hfind₃ : ∀ id, db₃.revisions.find id
      = if (ascii "object-1", 1) = id then some (sampleRevision 1 first) else none := by
    rw [hrevisions₂] at hrow₃
    exact (Table.find_insert hrow₃).2
  have hfind₅ : db₅.revisions.find (ascii "object-1", 2) = some (sampleRevision 2 second) := by
    rw [(Table.find_insert hrow₅).2]
    exact if_pos rfl
  have hrows₅ : db₅.revisions.rows = [sampleRevision 1 first, sampleRevision 2 second] := by
    rw [Table.rows_insert hrow₅, hrevisions₄, Table.rows_insert hrow₃, hrevisions₂]
    rfl
  have hrows₆ : db₆.revisions.rows = [sampleRevision 1 first, sampleRevision 2 second] := by
    rw [hrest₆]
    exact hrows₅
  have hmax : 2 ≤ int64Max := by
    unfold int64Max
    omega
  refine ⟨.older (.created schema hlow hhigh.le) hhigh ⟨?_, ?_, ?_⟩,
    by rw [hrest₆, hdb₅, hrest₄, hdb₃, hdb₂, hdb₁]; rfl, hrows₆⟩
  · have hrevision₁ : OlderRevision db₂ (sampleRevision 1 first) := by
      refine sampleRevision_older (le_trans (Nat.le_succ 1) hmax) (hsessions₂ ▸ hsession)
        fun v => ?_
      rw [hrevisions₂]
      exact iff_of_false (not_not.2 (Table.find_empty _)) fun hv => absurd hv.1 (Nat.not_le.2 hv.2)
    have hrevision₂ : OlderRevision db₄ (sampleRevision 2 second) := by
      refine sampleRevision_older hmax (hsessions₄ ▸ hsession) fun v => ?_
      rw [hrevisions₄, hfind₃]
      simp only [Prod.mk.injEq, true_and]
      split
      · next heq => exact ⟨fun _ => by omega, fun _ => Option.some_ne_none _⟩
      · next hne => exact ⟨fun hnone => absurd rfl hnone, fun hv => by omega⟩
    have hhead₃ : db₃.revisions.find (ascii "object-1", 1) = some (sampleRevision 1 first) := by
      rw [hfind₃]
      exact if_pos rfl
    have hmoved₄ : OlderStatement db₃ db₄ :=
      .of_frame (.head (r := sampleRevision 1 first) hhead₃ h₄) (by rw [hrest₄]) (by rw [hrest₄])
        (by rw [hrest₄])
    have hmoved₆ : OlderStatement db₅ db₆ :=
      .of_frame (.head (r := sampleRevision 2 second) hfind₅ h₆) (by rw [hrest₆]) (by rw [hrest₆])
        (by rw [hrest₆])
    refine .head (.of_frame (.session h₁) (by rw [hdb₁]) (by rw [hdb₁]) (by rw [hdb₁])) ?_
    refine .head (.of_frame (.object h₂) (by rw [hdb₂]) (by rw [hdb₂]) (by rw [hdb₂])) ?_
    refine .head (.of_revision h₃ hrevision₁) ?_
    exact .head hmoved₄ (.head (.of_revision h₅ hrevision₂) (.single hmoved₆))
  · intro o ho
    have hmem := List.mem_map_of_mem (f := (·.head)) ho
    rw [hheads, List.mem_singleton] at hmem
    omega
  · intro r hr
    obtain ⟨o, ho, hohead⟩ := Option.map_eq_some_iff.1 hhead
    rw [Table.mem_def, hrows₆, List.mem_cons, List.mem_singleton] at hr
    rcases hr with rfl | rfl
    · exact ⟨o, ho, by rw [hohead]; exact Nat.le_succ 1⟩
    · exact ⟨o, ho, hohead.ge⟩

/-- Draws of a clock that shows one time. -/
def Draws.at (n : Nat) (time : Int) : Draws := { Draws.numbered n with now := fun _ => time }

/-- The calls after the migration: another object is imported, and moved after the clock was set
back. -/
def Populated.laterCalls : List (Call × Draws) :=
  [Package.sampleBegin,
    (.importFile (.of [1, 2, 3]) (ascii "b") Package.sampleSession .plain, .at 1 50),
    (.move Package.sampleObject (ascii "d") 1 Package.sampleSession .plain, .at 2 40)]

/-- An older writer revised an object, and after the migration a store of this schema revised
another one at an earlier time than that of its first version. All rows stand in version order. -/
theorem Populated.journalOrdered_sample : ∃ db db', Populated (ascii "c") db ∧
    db.revisions.rows.length = 2 ∧ Succeeds .reference (ascii "c") db db' ∧
    db'.objectJournal.rows.length = 4 ∧
    (∃ r ∈ db'.revisions, ∃ r' ∈ db'.revisions, r.objectKey = r'.objectKey ∧
      r.version < r'.version ∧ r'.atNs < r.atNs) ∧
    ∀ j ∈ db'.objectJournal, ∀ j' ∈ db'.objectJournal, j.objectKey = j'.objectKey →
      j.version < j'.version → j.sequence < j'.sequence := by
  have hok : (do
      let db ← sampleOlder 2 10 20
      let migrated ← db.migrate (ascii "c")
      let last ← Package.exec .reference .reference laterCalls migrated
      failIf (last.2.objectJournal.rows.length ≠ 4) "unexpected journal"
      failIf (¬ ∃ r ∈ last.2.revisions.rows, ∃ r' ∈ last.2.revisions.rows,
        r.objectKey = r'.objectKey ∧ r.version < r'.version ∧ r'.atNs < r.atNs) "unexpected times"
      failIf (¬ ∀ r ∈ last.2.revisions.rows, ∀ r' ∈ last.2.revisions.rows,
        r.objectKey = r'.objectKey → r.version < r'.version →
          db.revisions.find r'.id ≠ none → r.atNs ≤ r'.atNs)
        "unexpected order").isOk = true := by
    decide +kernel
  obtain ⟨_, h⟩ := exists_of_isOk hok
  simp only [bind_ok, Prod.exists, failIf_ok, ne_eq, not_not] at h
  obtain ⟨db, holder, migrated, hmigrate, _, db', hexec, _, hlength, _, htimes, horder⟩ := h
  obtain ⟨hpopulated, -, hrows⟩ := sampleOlder_ok (by omega) (by omega) holder
  have hkey : migrated.containerKey = ascii "c" := by
    rw [(migrate_ok hmigrate).kept]
    exact hpopulated.olderInvariant.containerKey
  obtain ⟨events, hrun, -⟩ :=
    Package.run_of_exec (hkey.symm ▸ Package.opens_reference) hexec
  have hsucceeds : Succeeds .reference (ascii "c") db db' := .intro hmigrate hrun
  refine ⟨db, db', hpopulated, by rw [hrows]; rfl, hsucceeds, hlength, htimes, ?_⟩
  intro j hj j' hj' hobject hlt
  have hi := (hsucceeds.orderInvariant hpopulated).2.1
  obtain ⟨r, hr, -⟩ := hi.named j hj
  obtain ⟨r', hr', -⟩ := hi.named j' hj'
  have hid := Table.key_of_find hr
  have hid' := Table.key_of_find hr'
  refine ((Populated.journalOrdered .reference hpopulated).2 db' hsucceeds j hj j' hj'
    r (Table.mem_of_find hr) r' (Table.mem_of_find hr') hid hid' hobject hlt).2 fun hback => ?_
  obtain ⟨hkey, hversion⟩ := Prod.mk.inj hid
  obtain ⟨hkey', hversion'⟩ := Prod.mk.inj hid'
  exact horder r (Table.mem_of_find hr) r' (Table.mem_of_find hr')
    (by rw [hkey, hkey', hobject]) (by rw [hversion, hversion']; exact hlt)
    (by rw [hid']; exact hback.2)

/-! ## A clock that was set back -/

/-- The journal of a migrated package can list a version after the next one: the older writer's
clock was set back between them. -/
theorem Populated.journalOrdered_reversed : ∃ db db' j j', Populated (ascii "c") db ∧
    Succeeds .reference (ascii "c") db db' ∧ j ∈ db'.objectJournal ∧ j' ∈ db'.objectJournal ∧
      j.objectKey = j'.objectKey ∧ j.version < j'.version ∧ j'.sequence < j.sequence := by
  have hok : (do
      let db ← sampleOlder 2 20 10
      let db' ← db.migrate (ascii "c")
      failIf (db'.objectJournal.rows.map (fun j : ObjectJournalRow => (j.sequence, j.id))
        ≠ [(1, ascii "object-1", 2), (2, ascii "object-1", 1)]) "unexpected").isOk = true := by
    decide +kernel
  obtain ⟨_, h⟩ := exists_of_isOk hok
  simp only [bind_ok, failIf_ok, ne_eq, not_not] at h
  obtain ⟨db, holder, db', hm, hrows⟩ := h
  obtain ⟨hpopulated, -, -⟩ := sampleOlder_ok (by omega) (by omega) holder
  have hmem : ∀ x ∈ [(1, ascii "object-1", 2), (2, ascii "object-1", 1)],
      ∃ j ∈ db'.objectJournal, (j.sequence, j.id) = x := by
    intro x hx
    rw [← hrows] at hx
    exact List.mem_map.1 hx
  obtain ⟨j', hj', hid'⟩ := hmem (1, ascii "object-1", 2) List.mem_cons_self
  obtain ⟨j, hj, hid⟩ := hmem (2, ascii "object-1", 1) (List.mem_cons_of_mem _ List.mem_cons_self)
  obtain ⟨hsequence, hid⟩ := Prod.mk.inj hid
  obtain ⟨hsequence', hid'⟩ := Prod.mk.inj hid'
  obtain ⟨hkey, hversion⟩ := Prod.mk.inj hid
  obtain ⟨hkey', hversion'⟩ := Prod.mk.inj hid'
  refine ⟨db, db', j, j', hpopulated, .intro hm (.nil _), hj, hj', hkey.trans hkey'.symm, ?_, ?_⟩
  · omega
  · omega

end FileProvider
