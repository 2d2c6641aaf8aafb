import FileProvider.Object.Journal

/-!
# What writers of older schemas left behind

`Populated` are the packages a writer of this schema can find: one of an older schema created the
package and ran transactions on it. What such a transaction did is known by its statements, by the
tables its schema had, and by what a publication is: the next version of its object, under the
author of its session, named by the object row. `Succeeds` is everything that can follow: a writer
of this schema migrates the package, and stores of this schema run their calls on it.

Older writers are known by what their transactions could have done and not by their source, which is
not there. So `Populated` has more packages than they left behind, and what is proved of it holds of
theirs.
-/

namespace FileProvider

open Bytes Fallible Impl Relation

variable {P : Platform} {m : Impl} {db db' : ObjectTables} {container : Bytes}

/-! ## Transactions of older writers -/

/-- A revision is newer than every stored one of its object. -/
def Newest (db : ObjectTables) (id : Bytes × Nat) : Prop :=
  ∀ r ∈ db.revisions, r.objectKey = id.1 → r.version < id.2

/-- The author of a revision is that of its session, and a revision in the record format of
schema 1 has none of the documents schema 2 brought. -/
structure Attributed (r : RevisionRow) (s : SessionRow) : Prop where
  author : r.authorOrigin = s.origin ∧ r.authorSubject = s.subject ∧ r.authorName = s.name
  legacy : r.recordFormat = 1 → s.profile = [] ∧ r.metadata = [] ∧ r.sourceStamp = []

/-- A revision a writer of any schema publishes. -/
structure OlderRevision (db : ObjectTables) (r : RevisionRow) : Prop where
  bound : r.version ≤ int64Max
  next : ∀ v, db.revisions.find (r.objectKey, v) ≠ none ↔ 1 ≤ v ∧ v < r.version
  attributed : ∃ s, db.sessions.find r.sessionKey = some s ∧ Attributed r s

/-- A statement of a writer of the package's schema. -/
structure OlderStatement (db db' : ObjectTables) : Prop where
  statement : Statement db db'
  /-- Schema 4 brought the contexts and the RAW documents. -/
  tables : db.userVersion < 4 → db'.workSessions = db.workSessions ∧
    db'.rawRevisions = db.rawRevisions
  revision : ∀ r, db'.revisions.find r.id = some r → db.revisions.find r.id = none →
    OlderRevision db r

/-- The object row of every revision names one that is at least as new. -/
def Headed (db : ObjectTables) : Prop :=
  ∀ r ∈ db.revisions, ∃ o, db.objects.find r.objectKey = some o ∧ r.version ≤ o.head

/-- A transaction of a writer of the package's schema. -/
structure OlderTransaction (db db' : ObjectTables) : Prop where
  statements : ReflTransGen OlderStatement db db'
  published : Published db'
  headed : Headed db'

/-- The packages writers of the schemas up to this one leave behind before one of this schema
opens them. -/
inductive Populated (container : Bytes) : ObjectTables → Prop where
  | created (schema : Nat) : 1 ≤ schema → schema ≤ 5 →
      Populated container (.created schema container)
  | older {db db' : ObjectTables} : Populated container db → db.userVersion < 5 →
      OlderTransaction db db' → Populated container db'

/-- A package after a writer of this schema migrated it and stores of this schema used it. -/
inductive Succeeds (P : Platform) (container : Bytes) (db : ObjectTables) :
    ObjectTables → Prop where
  | intro {migrated db' : ObjectTables} {events : List Package.Event} {waiting : List Started} :
      db.migrate container = .ok migrated →
      Run (Package.Step P) ⟨migrated, []⟩ events ⟨db', waiting⟩ → Succeeds P container db db'

/-! ## Statements -/

/-- What the statements of an older writer are, whatever it kept to. -/
theorem OlderStatement.forget (h : ReflTransGen OlderStatement db db') :
    ReflTransGen Statement db db' :=
  h.lift id fun _ _ hs => hs.statement

/-- A statement that leaves the revisions, the contexts and the RAW documents as they are. -/
theorem OlderStatement.of_frame (h : Statement db db') (hrevisions : db'.revisions = db.revisions)
    (hcontexts : db'.workSessions = db.workSessions)
    (hraw : db'.rawRevisions = db.rawRevisions) : OlderStatement db db' where
  statement := h
  tables _ := ⟨hcontexts, hraw⟩
  revision r hr hnone := by
    rw [hrevisions, hnone] at hr
    cases hr

/-- The insertion of a newest revision is a statement of an older program. -/
theorem OlderStatement.of_revision {row : RevisionRow} (h : db.insertRevision row = .ok db')
    (hrow : OlderRevision db row) : OlderStatement db db' where
  statement := .revision h
  tables _ := by
    obtain ⟨-, -, -, -, -, -, hdb⟩ := ObjectTables.insertRevision_ok h
    rw [hdb]
    exact ⟨rfl, rfl⟩
  revision r hr hnone := by
    obtain ⟨-, -, -, -, hins, -, -⟩ := ObjectTables.insertRevision_ok h
    rw [(Table.find_insert hins).2] at hr
    split at hr
    · obtain rfl := Option.some.inj hr
      exact hrow
    · rw [hnone] at hr
      cases hr

/-- The revision of an older program is the newest of its object. -/
theorem OlderRevision.newest {r : RevisionRow} (h : OlderRevision db r) : Newest db r.id := by
  intro a ha hkey
  have hfind : db.revisions.find (r.objectKey, a.version) = some a := by
    have hself := Table.mem_iff_find.1 ha
    rw [← show a.objectKey = r.objectKey from hkey]
    exact hself
  have hne : db.revisions.find (r.objectKey, a.version) ≠ none := by
    rw [hfind]
    exact Option.some_ne_none _
  exact ((h.next a.version).1 hne).2

/-- A populated package has evolved from a created one. -/
theorem Populated.evolves (h : Populated container db) : Evolves P container db := by
  induction h with
  | created schema hmin hmax => exact .created schema hmin hmax
  | older _ hv htransaction ih =>
      exact .older ih hv (OlderStatement.forget htransaction.statements) htransaction.published

/-- The heads of a populated package are revisions of it. -/
theorem Populated.headed (h : Populated container db) : Headed db := by
  cases h with
  | created schema _ _ => exact fun r hr => absurd hr (Table.not_mem_empty _)
  | older _ _ htransaction => exact htransaction.headed

/-! ## What holds of a package of an older schema -/

/-- What holds of the tables of a package of an older schema. -/
structure OlderInvariant (container : Bytes) (db : ObjectTables) : Prop where
  containerKey : db.containerKey = container
  version : db.userVersion ≤ 5
  /-- Before schema 4 there are no contexts and no RAW documents. -/
  early : db.userVersion < 4 → db.workSessions.rows = [] ∧ db.rawRevisions.rows = []
  sessionKeys : ∀ s ∈ db.sessions, s.sessionKey.length ≤ maximumText
  objectKeys : ∀ r ∈ db.revisions, r.objectKey.length ≤ maximumText
  formats : ∀ r ∈ db.revisions, r.recordFormat = 1 ∨ r.recordFormat = 2
  objects : ∀ r ∈ db.revisions, db.objects.find r.objectKey ≠ none
  bounds : ∀ r ∈ db.revisions, r.version ≠ 0 ∧ r.version ≤ int64Max
  contiguous : ∀ r ∈ db.revisions, ∀ v, 1 ≤ v → v ≤ r.version →
    db.revisions.find (r.objectKey, v) ≠ none
  attributed : ∀ r ∈ db.revisions, ∃ s, db.sessions.find r.sessionKey = some s ∧ Attributed r s

namespace OlderInvariant

/-- A created package of an older schema satisfies the invariant. -/
theorem created {schema : Nat} (h : schema ≤ 5) (container : Bytes) :
    OlderInvariant container (.created schema container) where
  containerKey := rfl
  version := h
  early _ := ⟨rfl, rfl⟩
  sessionKeys _ hs := absurd hs (Table.not_mem_empty _)
  objectKeys _ hr := absurd hr (Table.not_mem_empty _)
  formats _ hr := absurd hr (Table.not_mem_empty _)
  objects _ hr := absurd hr (Table.not_mem_empty _)
  bounds _ hr := absurd hr (Table.not_mem_empty _)
  contiguous _ hr := absurd hr (Table.not_mem_empty _)
  attributed _ hr := absurd hr (Table.not_mem_empty _)

/-- A statement that writes no revision, and no session but to end it. It is the frame of the
invariant: what it reads of the tables is either the same or found as before. -/
theorem congr (h : OlderInvariant container db) (hcontainer : db'.containerKey = db.containerKey)
    (hversion : db'.userVersion = db.userVersion)
    (hearly : db.userVersion < 4 → db'.workSessions = db.workSessions ∧
      db'.rawRevisions = db.rawRevisions)
    (hrevisions : db'.revisions = db.revisions)
    (hobjects : ∀ k, db.objects.find k ≠ none → db'.objects.find k ≠ none)
    (hkeys : ∀ s ∈ db'.sessions, s.sessionKey.length ≤ maximumText)
    (hsessions : ∀ k s, db.sessions.find k = some s →
      ∃ ended, db'.sessions.find k = some { s with ended }) : OlderInvariant container db' where
  containerKey := hcontainer.trans h.containerKey
  version := hversion ▸ h.version
  early hv := by
    rw [hversion] at hv
    rw [(hearly hv).1, (hearly hv).2]
    exact h.early hv
  sessionKeys := hkeys
  objectKeys := by rw [hrevisions]; exact h.objectKeys
  formats := by rw [hrevisions]; exact h.formats
  objects r hr := by
    rw [hrevisions] at hr
    exact hobjects _ (h.objects r hr)
  bounds := by rw [hrevisions]; exact h.bounds
  contiguous := by rw [hrevisions]; exact h.contiguous
  attributed r hr := by
    rw [hrevisions] at hr
    obtain ⟨s, hs, hauthor⟩ := h.attributed r hr
    obtain ⟨ended, hended⟩ := hsessions _ _ hs
    exact ⟨_, hended, ⟨hauthor.author, hauthor.legacy⟩⟩

/-- The insertion of a newest revision keeps the invariant. The versions of an object stay without a
gap, as the new one is the next, and all other parts are about the rows one by one. -/
theorem insertRevision (h : OlderInvariant container db) {row : RevisionRow}
    (hins : db.insertRevision row = .ok db') (hrow : OlderRevision db row) :
    OlderInvariant container db' := by
  have hformat : row.recordFormat = 1 ∨ row.recordFormat = 2 := by
    simp only [ObjectTables.insertRevision, bind_ok, failIf_ok] at hins
    obtain ⟨-, -, -, -, -, hformat, -⟩ := hins
    omega
  obtain ⟨hkey, hpos, hobject, -, hrevisions, -, hdb⟩ := ObjectTables.insertRevision_ok hins
  have hmem := fun r => Table.mem_insert (s := r) hrevisions
  have hfind := (Table.find_insert hrevisions).2
  have hsessions : db'.sessions = db.sessions := by rw [hdb]
  have hobjects : db'.objects = db.objects := by rw [hdb]
  have hversion : db'.userVersion = db.userVersion := by rw [hdb]
  refine {
    containerKey := by rw [hdb]; exact h.containerKey
    version := hversion ▸ h.version
    early := fun hv => by rw [hdb]; exact h.early (hversion ▸ hv)
    sessionKeys := by rw [hsessions]; exact h.sessionKeys
    objectKeys := fun r hr => ?_
    formats := fun r hr => ?_
    objects := fun r hr => ?_
    bounds := fun r hr => ?_
    contiguous := fun r hr v hv hle => ?_
    attributed := fun r hr => ?_ }
  · rcases (hmem r).1 hr with hr | rfl
    · exact h.objectKeys r hr
    · exact hkey
  · rcases (hmem r).1 hr with hr | rfl
    · exact h.formats r hr
    · exact hformat
  · rw [hobjects]
    rcases (hmem r).1 hr with hr | rfl
    · exact h.objects r hr
    · exact hobject
  · rcases (hmem r).1 hr with hr | rfl
    · exact h.bounds r hr
    · exact ⟨hpos, hrow.bound⟩
  · rw [hfind]
    split
    · exact Option.some_ne_none _
    · next hne =>
        rcases (hmem r).1 hr with hr | rfl
        · exact h.contiguous r hr v hv hle
        · refine (hrow.next v).2 ⟨hv, lt_of_le_of_ne hle fun heq => ?_⟩
          exact hne (by rw [heq]; rfl)
  · rw [hsessions]
    rcases (hmem r).1 hr with hr | rfl
    · exact h.attributed r hr
    · exact hrow.attributed

/-- Each statement of an older program keeps the invariant. -/
theorem statement (h : OlderInvariant container db) (hs : OlderStatement db db') :
    OlderInvariant container db' := by
  obtain ⟨hstatement, hearly, hrevision⟩ := hs
  cases hstatement with
  | session hins =>
      obtain ⟨hkey, sessions, hrow, rfl⟩ := ObjectTables.insertSession_ok hins
      refine h.congr rfl rfl hearly rfl (fun _ ho => ho) (fun s hs => ?_) fun k s hs => ?_
      · rcases (Table.mem_insert hrow).1 hs with hs | rfl
        · exact h.sessionKeys s hs
        · exact hkey
      · refine ⟨s.ended, ?_⟩
        rw [(Table.find_insert hrow).2, if_neg, hs]
        rintro rfl
        rw [(Table.find_insert hrow).1] at hs
        cases hs
  | workSession hins =>
      obtain ⟨-, workSessions, -, rfl⟩ := ObjectTables.insertWorkSession_ok hins
      exact h.congr rfl rfl hearly rfl (fun _ ho => ho) h.sessionKeys fun k s hs => ⟨s.ended, hs⟩
  | @ended key ended hended =>
      obtain rfl := ObjectTables.setEnded_ok hended
      refine h.congr rfl rfl hearly rfl (fun _ ho => ho) (fun s hs => ?_) fun k s hs => ?_
      · obtain ⟨s', hs', rfl⟩ := (Table.mem_modify (f := fun s : SessionRow => { s with ended })
          (h := fun _ => rfl)).1 hs
        split
        · exact h.sessionKeys s' hs'
        · exact h.sessionKeys s' hs'
      · rw [Table.find_modify, hs]
        split
        · exact ⟨ended, rfl⟩
        · exact ⟨s.ended, rfl⟩
  | object hins =>
      obtain ⟨-, -, -, objects, hrow, rfl⟩ := ObjectTables.insertObject_ok hins
      refine h.congr rfl rfl hearly rfl (fun k hk => ?_) h.sessionKeys fun k s hs => ⟨s.ended, hs⟩
      rw [(Table.find_insert hrow).2]
      split
      · exact Option.some_ne_none _
      · exact hk
  | chunks hstores =>
      have hrest := hstores.rest
      rw [hrest] at hearly ⊢
      exact h.congr rfl rfl hearly rfl (fun _ ho => ho) h.sessionKeys fun k s hs => ⟨s.ended, hs⟩
  | revision hins =>
      obtain ⟨-, -, -, -, hrow, -, -⟩ := ObjectTables.insertRevision_ok hins
      obtain ⟨hfresh, hfind⟩ := Table.find_insert hrow
      refine h.insertRevision hins (hrevision _ ?_ hfresh)
      rw [hfind]
      exact if_pos rfl
  | raw hins =>
      have hrest := (ObjectTables.insertRaw_ok hins).2
      rw [hrest] at hearly ⊢
      exact h.congr rfl rfl hearly rfl (fun _ ho => ho) h.sessionKeys fun k s hs => ⟨s.ended, hs⟩
  | part hins =>
      have hrest := (ObjectTables.insertRevisionChunk_ok hins).2.2.2
      rw [hrest] at hearly ⊢
      exact h.congr rfl rfl hearly rfl (fun _ ho => ho) h.sessionKeys fun k s hs => ⟨s.ended, hs⟩
  | @head r hr hupdate =>
      have hmem := Table.mem_of_find hr
      obtain ⟨o, ho⟩ := Option.ne_none_iff_exists'.1 (h.objects r hmem)
      have hpos := Nat.pos_of_ne_zero (h.bounds r hmem).1
      obtain ⟨-, hdb⟩ := ObjectTables.updateHead_ok hupdate ho hpos hr
      rw [hdb] at hearly ⊢
      refine h.congr rfl rfl hearly rfl (fun k hk => ?_) h.sessionKeys fun k s hs => ⟨s.ended, hs⟩
      rw [Table.find_modify]
      obtain ⟨o', ho'⟩ := Option.ne_none_iff_exists'.1 hk
      rw [ho']
      split <;> exact Option.some_ne_none _

/-- So do several statements, by induction on them. -/
theorem statements (h : OlderInvariant container db) (hs : ReflTransGen OlderStatement db db') :
    OlderInvariant container db' := by
  induction hs with
  | refl => exact h
  | tail _ hstep ih => exact ih.statement hstep

end OlderInvariant

/-- Every populated package satisfies the invariant. -/
theorem Populated.olderInvariant (h : Populated container db) : OlderInvariant container db := by
  induction h with
  | created schema _ hmax => exact .created hmax container
  | older _ _ htransaction ih => exact ih.statements htransaction.statements

end FileProvider
