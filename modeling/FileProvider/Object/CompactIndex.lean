import FileProvider.Object.Migration

/-!
# The compact index

`current_index` is kept by a trigger on `objects` that reads `revisions`. It is the projection of
the objects joined with their head revisions after every statement, because the head of an object
is moved only to a revision that is there already, and a revision is inserted only under a version
no head points to. The row of a new object has head zero, which no revision has. Migration fills
the index with the same join. So `index` answers as `scan` does, and its pages enumerate the
objects.

The invariant is proved along statements and not along calls, so it holds inside a transaction and
on packages of any writer. A row of the index is found by its key, and the paging of the readers is
that of `Library.Keyset`.
-/

namespace FileProvider

open Bytes Fallible Impl Relation

variable {P : Platform} {m : Impl} {db db' : ObjectTables} {container : Bytes}

/-! ## The invariant -/

/-- The row is the projection of an object joined with its head revision. -/
def Projected (db : ObjectTables) (i : IndexRow) : Prop :=
  ∃ o ∈ db.objects, ∃ r, db.revisions.find (o.objectKey, o.head) = some r ∧
    i = ObjectTables.indexRow o r

/-- An object is projected to one row. -/
theorem Projected.unique {i i' : IndexRow} (h : Projected db i) (h' : Projected db i')
    (heq : i.objectKey = i'.objectKey) : i = i' := by
  obtain ⟨o, ho, r, hr, rfl⟩ := h
  obtain ⟨o', ho', r', hr', rfl⟩ := h'
  obtain rfl : o = o' := Table.eq_of_key_eq ho ho' heq
  rw [hr, Option.some.injEq] at hr'
  rw [hr']

/-- What holds of the compact index and of the tables it projects. -/
structure IndexInvariant (db : ObjectTables) : Prop where
  positive : ∀ id r, db.revisions.find id = some r → id.2 ≠ 0
  sessions : ∀ id r, db.revisions.find id = some r → db.sessions.find r.sessionKey ≠ none
  keys : ∀ o ∈ db.objects, 0 < o.indexKey ∧ o.indexKey ≤ db.objectsSequence
  distinct : ∀ o ∈ db.objects, ∀ o' ∈ db.objects, o.indexKey = o'.indexKey → o = o'
  heads : ∀ o ∈ db.objects, o.head ≠ 0 → ∃ r, db.revisions.find (o.objectKey, o.head) = some r ∧
    r.path = o.path ∧ r.deleted = o.deleted
  index : 3 ≤ db.userVersion → ∀ i, i ∈ db.currentIndex ↔ Projected db i

namespace IndexInvariant

/-- The index of a created package is empty, as it should be. -/
theorem created (schema : Nat) (container : Bytes) :
    IndexInvariant (.created schema container) where
  positive _ _ h := by cases h
  sessions _ _ h := by cases h
  keys _ ho := absurd ho (Table.not_mem_empty _)
  distinct _ ho := absurd ho (Table.not_mem_empty _)
  heads _ ho := absurd ho (Table.not_mem_empty _)
  index _ i := by
    refine ⟨fun hi => absurd hi (Table.not_mem_empty _), ?_⟩
    rintro ⟨o, ho, -⟩
    exact absurd ho (Table.not_mem_empty _)

/-- The invariant is about the objects, the revisions, the index and the keys of the sessions. -/
theorem congr (h : IndexInvariant db) (hobjects : db'.objects = db.objects)
    (hsequence : db'.objectsSequence = db.objectsSequence)
    (hrevisions : db'.revisions = db.revisions) (hindex : db'.currentIndex = db.currentIndex)
    (hversion : db'.userVersion = db.userVersion)
    (hsessions : ∀ k, db.sessions.find k ≠ none → db'.sessions.find k ≠ none) :
    IndexInvariant db' where
  positive := by rw [hrevisions]; exact h.positive
  sessions id r hr := by
    rw [hrevisions] at hr
    exact hsessions _ (h.sessions id r hr)
  keys := by rw [hobjects, hsequence]; exact h.keys
  distinct := by rw [hobjects]; exact h.distinct
  heads := by rw [hobjects, hrevisions]; exact h.heads
  index := by
    unfold Projected
    rw [hobjects, hrevisions, hindex, hversion]
    exact h.index

/-- The row of a new object projects to nothing. -/
theorem insertObject (h : IndexInvariant db) {key path : Bytes} {indexKey : Int}
    (hins : db.insertObject key path = .ok (indexKey, db')) : IndexInvariant db' := by
  obtain ⟨-, hkey, -, objects, hrow, rfl⟩ := ObjectTables.insertObject_ok hins
  have hmem := fun o => Table.mem_insert (s := o) hrow
  have hnone : ∀ key, db.revisions.find (key, 0) = none := by
    intro key
    by_contra hne
    obtain ⟨r, hr⟩ := Option.ne_none_iff_exists'.1 hne
    exact h.positive _ r hr rfl
  exact {
    positive := h.positive
    sessions := h.sessions
    keys := by
      intro o ho
      rcases (hmem o).1 ho with ho | rfl
      · obtain ⟨hpos, hle⟩ := h.keys o ho
        exact ⟨hpos, by simp only; omega⟩
      · simp only
        omega
    distinct := by
      intro o ho o' ho' heq
      rcases (hmem o).1 ho with ho | rfl <;> rcases (hmem o').1 ho' with ho' | rfl
      · exact h.distinct o ho o' ho' heq
      · have := (h.keys o ho).2
        simp only at heq
        omega
      · have := (h.keys o' ho').2
        simp only at heq
        omega
      · rfl
    heads := by
      intro o ho hne
      rcases (hmem o).1 ho with ho | rfl
      · exact h.heads o ho hne
      · exact absurd rfl hne
    index := by
      intro hv i
      rw [h.index hv i]
      constructor
      · rintro ⟨o, ho, hr⟩
        exact ⟨o, (hmem o).2 (.inl ho), hr⟩
      · rintro ⟨o, ho, r, hr, hi⟩
        rcases (hmem o).1 ho with ho | rfl
        · exact ⟨o, ho, r, hr, hi⟩
        · simp only [hnone, reduceCtorEq] at hr }

/-- A new revision is the head of no object. The head of an object has an older revision, as a new
version is one that was not there. -/
theorem insertRevision (h : IndexInvariant db) {row : RevisionRow}
    (hins : db.insertRevision row = .ok db') : IndexInvariant db' := by
  obtain ⟨-, hpos, -, hsession, hrow, -, hdb⟩ := ObjectTables.insertRevision_ok hins
  obtain ⟨hfresh, hfind⟩ := Table.find_insert hrow
  have hobjects : db'.objects = db.objects := by rw [hdb]
  have hsessions : db'.sessions = db.sessions := by rw [hdb]
  have hsequence : db'.objectsSequence = db.objectsSequence := by rw [hdb]
  have hindex : db'.currentIndex = db.currentIndex := by rw [hdb]
  have hversion : db'.userVersion = db.userVersion := by rw [hdb]
  -- The version of a head is taken, or zero.
  have hjoin : ∀ o ∈ db.objects, db'.revisions.find (o.objectKey, o.head)
      = db.revisions.find (o.objectKey, o.head) := by
    intro o ho
    rw [hfind]
    split
    · next heq =>
        have hne : o.head ≠ 0 := by
          have hhead := congrArg Prod.snd heq
          exact fun hzero => hpos (hhead.trans hzero)
        obtain ⟨r, hr, -⟩ := h.heads o ho hne
        rw [← heq, hfresh] at hr
        cases hr
    · rfl
  have hproject : ∀ i, Projected db' i ↔ Projected db i := by
    intro i
    unfold Projected
    rw [hobjects]
    constructor
    · rintro ⟨o, ho, r, hr, hi⟩
      exact ⟨o, ho, r, hjoin o ho ▸ hr, hi⟩
    · rintro ⟨o, ho, r, hr, hi⟩
      exact ⟨o, ho, r, (hjoin o ho).trans hr, hi⟩
  exact {
    positive := by
      intro id r hr
      rw [hfind] at hr
      split at hr
      · next heq =>
          rw [← heq]
          exact hpos
      · exact h.positive id r hr
    sessions := by
      intro id r hr
      rw [hsessions]
      rw [hfind] at hr
      split at hr
      · cases hr
        exact hsession
      · exact h.sessions id r hr
    keys := by rw [hobjects, hsequence]; exact h.keys
    distinct := by rw [hobjects]; exact h.distinct
    heads := by
      intro o ho hne
      rw [hobjects] at ho
      rw [hjoin o ho]
      exact h.heads o ho hne
    index := by
      intro hv i
      rw [hindex, hproject]
      exact h.index (hversion ▸ hv) i }

/-- **The trigger replaces the row of the object whose head is moved.** The other objects keep their
rows, and the row of this one has the path and the mark of the revision that becomes its head. -/
theorem updateHead (h : IndexInvariant db) {r : RevisionRow}
    (hr : db.revisions.find (r.objectKey, r.version) = some r)
    (hupdate : db.updateHead r.version r.path r.deleted r.objectKey = .ok db') :
    IndexInvariant db' := by
  have hpos : 0 < r.version := Nat.pos_of_ne_zero (h.positive _ r hr)
  cases hobject : db.objects.find r.objectKey with
  | none =>
      simp only [ObjectTables.updateHead, hobject, bind_ok, pure_ok] at hupdate
      obtain ⟨-, -, rfl⟩ := hupdate
      exact h
  | some o =>
      obtain ⟨-, hdb⟩ := ObjectTables.updateHead_ok hupdate hobject hpos hr
      obtain ⟨hmem, hkey⟩ := Table.find_eq_some.1 hobject
      let o₁ : ObjectRow := { o with head := r.version, path := r.path, deleted := r.deleted }
      have hobjects : db'.objects = db.objects.modify r.objectKey (fun o => { o with
          head := r.version, path := r.path, deleted := r.deleted }) (fun _ => rfl) := by
        rw [hdb]
      have hrevisions : db'.revisions = db.revisions := by rw [hdb]
      have hsessions : db'.sessions = db.sessions := by rw [hdb]
      have hsequence : db'.objectsSequence = db.objectsSequence := by rw [hdb]
      have hversion : db'.userVersion = db.userVersion := by rw [hdb]
      have hindex : db'.currentIndex = db.indexAfter o₁ r := by rw [hdb]
      -- The objects are the old ones but this one, and this one as it is now.
      have hcases : ∀ o', o' ∈ db'.objects ↔
          (o' ∈ db.objects ∧ o'.objectKey ≠ r.objectKey) ∨ o' = o₁ := by
        intro o'
        rw [hobjects, Table.mem_modify]
        constructor
        · rintro ⟨o'', ho'', rfl⟩
          split
          · next hk =>
              rw [Table.eq_of_key_eq ho'' hmem (hk.trans hkey.symm)]
              exact .inr rfl
          · next hk => exact .inl ⟨ho'', hk⟩
        · rintro (⟨ho', hne⟩ | rfl)
          · exact ⟨o', ho', if_neg hne⟩
          · exact ⟨o, hmem, if_pos hkey⟩
      have hother : ∀ o' ∈ db.objects, o'.objectKey ≠ r.objectKey → o'.indexKey ≠ o.indexKey := by
        intro o' ho' hne heq
        rw [h.distinct o' ho' o hmem heq] at hne
        exact hne hkey
      exact {
        positive := by rw [hrevisions]; exact h.positive
        sessions := by rw [hrevisions, hsessions]; exact h.sessions
        keys := by
          intro o' ho'
          rw [hsequence]
          rcases (hcases o').1 ho' with ⟨ho', -⟩ | rfl
          · exact h.keys o' ho'
          · exact h.keys o hmem
        distinct := by
          intro a ha b hb heq
          rcases (hcases a).1 ha with ⟨ha, hak⟩ | rfl <;>
            rcases (hcases b).1 hb with ⟨hb, hbk⟩ | rfl
          · exact h.distinct a ha b hb heq
          · exact absurd heq (hother a ha hak)
          · exact absurd heq.symm (hother b hb hbk)
          · rfl
        heads := by
          intro o' ho' hne
          rw [hrevisions]
          rcases (hcases o').1 ho' with ⟨ho', -⟩ | rfl
          · exact h.heads o' ho' hne
          · refine ⟨r, ?_, rfl, rfl⟩
            change db.revisions.find (o.objectKey, r.version) = some r
            have hok : o.objectKey = r.objectKey := hkey
            rw [hok]
            exact hr
        index := by
          intro hv i
          rw [hversion] at hv
          have hrow : ∀ i', i' ∈ (if 5 ≤ db.userVersion
              then db.currentIndex.filter (fun i => i.objectKey ≠ o₁.objectKey)
              else db.currentIndex) ∧ i'.indexKey ≠ o.indexKey ↔
              i' ∈ db.currentIndex ∧ i'.indexKey ≠ o.indexKey := by
            intro i'
            split
            · rw [Table.mem_filter]
              constructor
              · rintro ⟨⟨hi', -⟩, hne⟩
                exact ⟨hi', hne⟩
              · rintro ⟨hi', hne⟩
                refine ⟨⟨hi', decide_eq_true ?_⟩, hne⟩
                obtain ⟨o', ho', r', -, rfl⟩ := (h.index hv i').1 hi'
                intro hsame
                rw [Table.eq_of_key_eq ho' hmem hsame] at hne
                exact hne rfl
            · rfl
          rw [hindex, ObjectTables.indexAfter, if_pos hv, Table.mem_upsert]
          change (_ ∧ i.indexKey ≠ o.indexKey) ∨ _ ↔ _
          rw [hrow]
          constructor
          · rintro (⟨hi, hne⟩ | rfl)
            · obtain ⟨o', ho', r', hr', rfl⟩ := (h.index hv i).1 hi
              refine ⟨o', (hcases o').2 (.inl ⟨ho', fun hk => hne ?_⟩), r', hrevisions ▸ hr', rfl⟩
              rw [Table.eq_of_key_eq ho' hmem (hk.trans hkey.symm)]
              rfl
            · refine ⟨o₁, (hcases o₁).2 (.inr rfl), r, ?_, rfl⟩
              rw [hrevisions]
              change db.revisions.find (o.objectKey, r.version) = some r
              have hok : o.objectKey = r.objectKey := hkey
              rw [hok]
              exact hr
          · rintro ⟨o', ho', r', hr', rfl⟩
            rw [hrevisions] at hr'
            rcases (hcases o').1 ho' with ⟨ho', hk⟩ | rfl
            · exact .inl ⟨(h.index hv _).2 ⟨o', ho', r', hr', rfl⟩, hother o' ho' hk⟩
            · have hok : o₁.objectKey = r.objectKey := hkey
              rw [hok] at hr'
              rw [show (r.objectKey, o₁.head) = (r.objectKey, r.version) from rfl, hr,
                Option.some.injEq] at hr'
              subst hr'
              exact .inr rfl }

/-- **Every statement keeps the invariant.** Only the three statements about objects and revisions
concern the index, and the others leave what it is read from. -/
theorem statement (h : IndexInvariant db) (hs : Statement db db') : IndexInvariant db' := by
  cases hs with
  | session hins =>
      obtain ⟨-, sessions, hrow, rfl⟩ := ObjectTables.insertSession_ok hins
      refine h.congr rfl rfl rfl rfl rfl fun k hk => ?_
      rw [(Table.find_insert hrow).2]
      split
      · exact Option.some_ne_none _
      · exact hk
  | workSession hins =>
      obtain ⟨-, workSessions, -, rfl⟩ := ObjectTables.insertWorkSession_ok hins
      exact h.congr rfl rfl rfl rfl rfl fun _ hk => hk
  | ended hset =>
      obtain rfl := ObjectTables.setEnded_ok hset
      refine h.congr rfl rfl rfl rfl rfl fun k hk => ?_
      obtain ⟨s, hs⟩ := Option.ne_none_iff_exists'.1 hk
      rw [Table.find_modify, hs]
      split
      · exact Option.some_ne_none _
      · exact Option.some_ne_none _
  | object hins => exact h.insertObject hins
  | chunks hstores =>
      have hsessions : db'.sessions = db.sessions := by rw [hstores.rest]
      exact h.congr (by rw [hstores.rest]) (by rw [hstores.rest]) (by rw [hstores.rest])
        (by rw [hstores.rest]) (by rw [hstores.rest]) fun _ hk => hsessions ▸ hk
  | revision hins => exact h.insertRevision hins
  | raw hins =>
      obtain ⟨-, hdb⟩ := ObjectTables.insertRaw_ok hins
      have hsessions : db'.sessions = db.sessions := by rw [hdb]
      exact h.congr (by rw [hdb]) (by rw [hdb]) (by rw [hdb]) (by rw [hdb]) (by rw [hdb])
        fun _ hk => hsessions ▸ hk
  | part hins =>
      obtain ⟨-, -, -, hdb⟩ := ObjectTables.insertRevisionChunk_ok hins
      have hsessions : db'.sessions = db.sessions := by rw [hdb]
      exact h.congr (by rw [hdb]) (by rw [hdb]) (by rw [hdb]) (by rw [hdb]) (by rw [hdb])
        fun _ hk => hsessions ▸ hk
  | head hr hupdate => exact h.updateHead hr hupdate

/-- Every sequence of statements keeps the invariant. -/
theorem statements (h : IndexInvariant db) (hs : ReflTransGen Statement db db') :
    IndexInvariant db' := by
  induction hs with
  | refl => exact h
  | tail _ hstep ih => exact ih.statement hstep

end IndexInvariant

/-! ## Migration -/

/-- Rows that are inserted one after the other are the rows that are there. -/
theorem mem_of_inserts {l : List IndexRow} {t t' : Table IndexRow.indexKey}
    (h : l.foldlM (fun t row =>
      orFail "UNIQUE constraint failed: current_index.index_key" (t.insert row)) t = .ok t')
    (i : IndexRow) : i ∈ t' ↔ i ∈ t ∨ i ∈ l := by
  induction l generalizing t with
  | nil =>
      rw [List.foldlM_nil, pure_ok] at h
      simp [h]
  | cons row l ih =>
      obtain ⟨mid, hmid, h⟩ := foldlM_cons_ok.1 h
      rw [ih h, Table.mem_insert (orFail_ok.1 hmid), List.mem_cons, or_assoc]

/-- The rows to be indexed are those that are projected from the heads. -/
theorem mem_headRows {i : IndexRow} : i ∈ db.headRows ↔ Projected db i := by
  unfold ObjectTables.headRows Projected
  simp only [List.mem_filterMap, Option.map_eq_some_iff]
  constructor
  · rintro ⟨o, ho, r, hr, rfl⟩
    exact ⟨o, ho, r, hr, rfl⟩
  · rintro ⟨o, ho, r, hr, rfl⟩
    exact ⟨o, ho, r, hr, rfl⟩

/-- **Migration keeps the invariant**: the index it fills is the projection. It is filled from the
heads when it is made, and the steps of the migration change nothing that it is read from. -/
theorem IndexInvariant.migrate (h : IndexInvariant db)
    (hm : db.migrate container = .ok db') :
    IndexInvariant db' ∧ 3 ≤ db'.userVersion ∧ db'.objects = db.objects := by
  have hmig := migrate_ok hm
  have hobjects : db'.objects = db.objects := by rw [hmig.kept]
  have hrevisions : db'.revisions = db.revisions := by rw [hmig.kept]
  have hsequence : db'.objectsSequence = db.objectsSequence := by rw [hmig.kept]
  have hsessions : db'.sessions = db.sessions := by rw [hmig.kept]
  have hprojected : ∀ i, Projected db' i ↔ Projected db i := by
    intro i
    simp only [Projected, hobjects, hrevisions]
  have hversion := hmig.version
  refine ⟨?_, by omega, hobjects⟩
  exact {
    positive := by rw [hrevisions]; exact h.positive
    sessions := by rw [hrevisions, hsessions]; exact h.sessions
    keys := by rw [hobjects, hsequence]; exact h.keys
    distinct := by rw [hobjects]; exact h.distinct
    heads := by rw [hobjects, hrevisions]; exact h.heads
    index := fun _ i => by
      rw [hprojected]
      by_cases hv : 3 ≤ db.userVersion
      · rw [hmig.index hv]
        exact h.index hv i
      · rw [mem_of_inserts (hmig.indexed (by omega)), mem_headRows]
        exact ⟨fun hi => hi.resolve_left (Table.not_mem_empty _), .inr⟩ }

/-! ## Packages of any age -/

/-- A publication gives its object a head. -/
theorem Impl.Publishes.published {x : ObjectRecord} {parts : List Chunk} {document : Bytes}
    (hp : Publishes db x parts document db') (h : PublishedBut x.key db) : Published db' := by
  intro o ho
  rw [hp.objects, Table.mem_modify] at ho
  obtain ⟨o', ho', rfl⟩ := ho
  split
  · exact Nat.pos_of_ne_zero hp.positive
  · next hne => exact Nat.pos_of_ne_zero fun hzero => hne (h o' ho' hzero)

/-- A change leaves no object without a head. A new object has its first revision in the same
change, and a revision only moves the head on. -/
theorem Change.published (h : Change P m db db') (hp : Published db) : Published db' := by
  cases h with
  | beginSession h h' =>
      obtain ⟨-, sessions, -, rfl⟩ := ObjectTables.insertSession_ok h
      obtain ⟨-, workSessions, -, rfl⟩ := ObjectTables.insertWorkSession_ok h'
      exact hp
  | endSession h =>
      obtain rfl := ObjectTables.setEnded_ok h
      exact hp
  | @create stored _ r x _ _ _ _ h =>
      refine h.publishes.published fun o ho hzero => ?_
      obtain ⟨key, hx⟩ := h.record_eq
      obtain ⟨created, hins, hstores⟩ := h.insert
      obtain ⟨-, -, -, objects, hrow, rfl⟩ := ObjectTables.insertObject_ok hins
      have hobjects : stored.objects = objects := by rw [hstores.rest]
      rw [hobjects] at ho
      rcases (Table.mem_insert hrow).1 ho with ho | rfl
      · exact absurd hzero (hp o ho).ne'
      · rw [hx]
        rfl
  | @revise stored _ _ _ _ _ _ _ _ _ h =>
      obtain ⟨_, _, -, -, -, hpub⟩ := publish_ok h.publish
      refine hpub.published fun o ho hzero => ?_
      have hobjects : stored.objects = db.objects := by rw [h.stores.rest]
      rw [hobjects] at ho
      exact absurd hzero (hp o ho).ne'

/-- Every sequence of changes keeps the invariant. -/
theorem IndexInvariant.changes (h : ReflTransGen (Change P m) db db')
    (hi : IndexInvariant db ∧ Published db) : IndexInvariant db' ∧ Published db' := by
  induction h with
  | refl => exact hi
  | tail _ hchange ih => exact ⟨ih.1.statements hchange.statements, hchange.published ih.2⟩

/-- The stores keep the invariant. -/
theorem Package.Step.indexInvariant {σ τ : Package} {e : Package.Event}
    (h : Package.Step P σ e τ) (hi : IndexInvariant σ.tables ∧ Published σ.tables) :
    IndexInvariant τ.tables ∧ Published τ.tables := by
  cases h with
  | start m call hm => exact hi
  | commit hrun => exact IndexInvariant.changes (Call.run_changes hrun) hi
  | fail => exact hi

/-- Every package has the invariant, however old it is. -/
theorem Evolves.indexInvariant (h : Evolves P container db) :
    IndexInvariant db ∧ Published db := by
  induction h with
  | created schema _ _ =>
      exact ⟨.created schema container, fun _ ho => absurd ho (Table.not_mem_empty _)⟩
  | older _ _ hstatements hpublished ih => exact ⟨ih.1.statements hstatements, hpublished⟩
  | migrated _ hm ih =>
      obtain ⟨hi, -, hobjects⟩ := ih.1.migrate hm
      refine ⟨hi, fun o ho => ih.2 o ?_⟩
      rwa [hobjects] at ho
  | used _ _ hrun ih =>
      exact hrun.invariant (I := fun σ => IndexInvariant σ.tables ∧ Published σ.tables)
        (fun hi hstep => hstep.indexInvariant hi) ih

/-! ## Reading the index -/

/-- The compact fields of a record. -/
def ObjectRecord.compact (r : ObjectRecord) : ObjectIndexEntry where
  key := r.key
  indexKey := r.indexKey
  version := r.version
  path := r.path
  sha256 := r.sha256
  size := r.size
  validationKey := r.validationKey
  sessionKey := r.sessionKey
  deleted := r.deleted
  authorOrigin := r.author.origin
  authorSubject := r.author.subject

/-- What an enumeration of the index is to list. -/
def listed (deleted : Bool) (isDeleted : Bool) : Bool := deleted || !isDeleted

/-- The compact index of a package and what is read from it. -/
structure CompactIndex (db : ObjectTables) : Prop where
  /-- The rows are the projection of the objects joined with their head revisions. -/
  projection : ∀ i, i ∈ db.currentIndex ↔ Projected db i
  /-- An object has one row. -/
  one : ∀ i ∈ db.currentIndex, ∀ i' ∈ db.currentIndex, i.objectKey = i'.objectKey → i = i'
  /-- `index` answers what `scan` answers, in its compact fields. -/
  scan : ∀ after limit deleted, ObjectStore.index db after limit deleted
    = List.map ObjectRecord.compact <$> ObjectStore.scan db after limit deleted
  /-- The pages of `index` enumerate one listing, in which every object to be listed stands
  once. -/
  pages : ∀ deleted, ∃ l : List ObjectIndexEntry,
    (∀ limits : List Nat, (∀ n ∈ limits, n ≠ 0 ∧ n ≤ 10000) →
      Keyset.readPages (·.indexKey)
        (fun after limit => ObjectStore.index db after limit deleted) 0 limits
          = .ok (l.take limits.sum)) ∧
    Keyset.Ascending (·.indexKey) l ∧
    (l.map (·.key)).Perm
      ((db.objects.rows.filter (fun o => listed deleted o.deleted)).map (·.objectKey))

namespace IndexInvariant

variable (h : IndexInvariant db)
include h

/-- Objects have different index keys. -/
theorem nodup_indexKeys : (db.objects.rows.map (·.indexKey)).Nodup := by
  refine (db.objects.nodup.of_map).map_on ?_
  intro o ho o' ho' heq
  exact h.distinct o ho o' ho' heq

/-- The head record of an object in its compact fields. -/
theorem headRecord {o : ObjectRow} (ho : o ∈ db.objects) {r : RevisionRow}
    (hr : db.revisions.find (o.objectKey, o.head) = some r) :
    ∃ x, ObjectStore.headRecord db o = some x ∧
      x.compact = ObjectStore.indexEntry (ObjectTables.indexRow o r) := by
  obtain ⟨s, hs⟩ := Option.ne_none_iff_exists'.1 (h.sessions _ r hr)
  obtain ⟨r', hr', hpath, hdeleted⟩ := h.heads o ho (h.positive _ r hr)
  rw [hr, Option.some.injEq] at hr'
  subst hr'
  have hid : r.id = (o.objectKey, o.head) := Table.key_of_find hr
  obtain ⟨hkey, hversion⟩ := Prod.mk.inj hid
  have hhead : ObjectStore.headRecord db o = some (record r o s) := by
    simp only [ObjectStore.headRecord, hr, Option.bind_eq_bind, Option.bind_some, hs,
      Option.pure_def]
  refine ⟨record r o s, hhead, ?_⟩
  simp only [ObjectRecord.compact, record, ObjectStore.indexEntry, ObjectTables.indexRow, hkey,
    hversion, hpath, hdeleted]

/-- Reading the index or the heads lists the same entries. -/
theorem listing_eq (hv : 3 ≤ db.userVersion) (p : Int → Bool → Bool) :
    (Keyset.orderBy (·.indexKey) (db.currentIndex.rows.filter
        fun i => p i.indexKey i.deleted)).map ObjectStore.indexEntry =
      (Keyset.orderBy (·.indexKey) (db.objects.rows.filterMap fun o =>
        if p o.indexKey o.deleted then ObjectStore.headRecord db o else none)).map
          ObjectRecord.compact := by
  have hhead : ∀ o x, ObjectStore.headRecord db o = some x → x.indexKey = o.indexKey := by
    intro o x hx
    simp only [ObjectStore.headRecord, Option.bind_eq_bind, Option.bind_eq_some_iff,
      Option.pure_def, Option.some.injEq] at hx
    obtain ⟨r, -, s, -, rfl⟩ := hx
    rfl
  have hrows : (db.currentIndex.rows.filter fun i => p i.indexKey i.deleted).map (·.indexKey)
      |>.Nodup := db.currentIndex.nodup.sublist (List.filter_sublist.map _)
  have hrecords : ((db.objects.rows.filterMap fun o =>
      if p o.indexKey o.deleted then ObjectStore.headRecord db o else none).map
        (·.indexKey)).Nodup := by
    refine h.nodup_indexKeys.sublist (Keyset.filterMap_keys_sublist ?_ _)
    intro o x hx
    split at hx
    · exact hhead o x hx
    · cases hx
  have hleft := Keyset.ascending_orderBy hrows
  have hright := Keyset.ascending_orderBy hrecords
  have hleft' : Keyset.Ascending (·.indexKey) ((Keyset.orderBy (·.indexKey)
      (db.currentIndex.rows.filter fun i => p i.indexKey i.deleted)).map
        ObjectStore.indexEntry) := List.pairwise_map.2 hleft
  have hright' : Keyset.Ascending (·.indexKey) ((Keyset.orderBy (·.indexKey)
      (db.objects.rows.filterMap fun o =>
        if p o.indexKey o.deleted then ObjectStore.headRecord db o else none)).map
          ObjectRecord.compact) := List.pairwise_map.2 hright
  -- Both listings are ascending, so it is enough that they have the same entries.
  refine hleft'.eq_of_perm hright' ((List.perm_ext_iff_of_nodup
    (hleft'.nodup_keys.of_map) (hright'.nodup_keys.of_map)).2 fun e => ?_)
  simp only [List.mem_map, Keyset.mem_orderBy, List.mem_filter, List.mem_filterMap]
  constructor
  · rintro ⟨i, ⟨hi, hp⟩, rfl⟩
    obtain ⟨o, ho, r, hr, rfl⟩ := (h.index hv i).1 hi
    obtain ⟨x, hx, hcompact⟩ := h.headRecord ho hr
    exact ⟨x, ⟨o, ho, (if_pos hp).trans hx⟩, hcompact⟩
  · rintro ⟨x, ⟨o, ho, hx⟩, rfl⟩
    split at hx
    · next hp =>
        obtain ⟨r, hr⟩ : ∃ r, db.revisions.find (o.objectKey, o.head) = some r := by
          cases hr : db.revisions.find (o.objectKey, o.head) with
          | some r => exact ⟨r, rfl⟩
          | none => simp [ObjectStore.headRecord, hr] at hx
        obtain ⟨x', hx', hcompact⟩ := h.headRecord ho hr
        rw [hx, Option.some.injEq] at hx'
        subst hx'
        exact ⟨_, ⟨(h.index hv _).2 ⟨o, ho, r, hr, rfl⟩, hp⟩, hcompact.symm⟩
    · cases hx

omit h in
/-- A page of `index` is a page of the listing. The rows past the cursor are filtered, ordered and
cut in the source, and filtering and cutting come in either order. -/
theorem index_page {after : Int} (hafter : 0 ≤ after) {limit : Nat}
    (hlimit : limit ≠ 0 ∧ limit ≤ 10000) (deleted : Bool) :
    ObjectStore.index db after limit deleted = .ok (Keyset.page (·.indexKey)
      ((Keyset.orderBy (·.indexKey) (db.currentIndex.rows.filter
        fun i => listed deleted i.deleted)).map ObjectStore.indexEntry) after limit) := by
  have hguard : failIf (after < 0 ∨ limit = 0 ∨ 10000 < limit) "invalid object index page"
      = .ok () := failIf_ok.2 (by omega)
  have hnodup : (db.currentIndex.rows.map (·.indexKey)).Nodup := db.currentIndex.nodup
  have hfilter : (db.currentIndex.rows.filter
      fun i => after < i.indexKey ∧ (deleted ∨ i.deleted = false)) =
      ((db.currentIndex.rows.filter fun i => listed deleted i.deleted).filter
        fun i => after < i.indexKey) := by
    rw [List.filter_filter]
    refine List.filter_congr fun i _ => ?_
    unfold listed
    cases deleted <;> cases i.deleted <;> simp
  unfold ObjectStore.index
  rw [hguard]
  change Except.ok (((Keyset.orderBy (·.indexKey) (db.currentIndex.rows.filter
    fun i => after < i.indexKey ∧ (deleted ∨ i.deleted = false))).take limit).map
      ObjectStore.indexEntry) = Except.ok _
  rw [hfilter, Keyset.orderBy_filter (hnodup.sublist (List.filter_sublist.map _)),
    Keyset.page, Keyset.past, List.filter_map, List.map_take]
  rfl

/-- **The compact index refines the records.** Each row of the index is that of a head and each head
has its row, so that both list the same and count the same. -/
theorem compactIndex (hv : 3 ≤ db.userVersion) (hpub : Published db) : CompactIndex db where
  projection := h.index hv
  one := by
    intro i hi i' hi' heq
    exact ((h.index hv i).1 hi).unique ((h.index hv i').1 hi') heq
  scan := by
    intro after limit deleted
    have heq := h.listing_eq hv fun indexKey isDeleted =>
      decide (after < indexKey ∧ (deleted = true ∨ isDeleted = false))
    unfold ObjectStore.index ObjectStore.scan
    by_cases hguard : after < 0 ∨ limit = 0 ∨ 10000 < limit
    · rw [failIf, if_pos hguard]
      rfl
    · rw [failIf, if_neg hguard]
      change Except.ok _ = Except.ok _
      rw [List.map_take, heq, List.map_take]
      simp only [decide_eq_true_eq]
  pages := by
    intro deleted
    have hrows : ((db.currentIndex.rows.filter
        fun i => listed deleted i.deleted).map (·.indexKey)).Nodup :=
      db.currentIndex.nodup.sublist (List.filter_sublist.map _)
    have hasc : Keyset.Ascending (·.indexKey) ((Keyset.orderBy (·.indexKey)
        (db.currentIndex.rows.filter fun i => listed deleted i.deleted)).map
          ObjectStore.indexEntry) := List.pairwise_map.2 (Keyset.ascending_orderBy hrows)
    refine ⟨_, fun limits hlimits => ?_, hasc, ?_⟩
    · rw [Keyset.readPages_eq hasc fun after hafter limit hlimit =>
        index_page hafter (hlimits limit hlimit) deleted]
      -- Every index key is past the initial cursor.
      congr 2
      rw [Keyset.past, List.filter_eq_self]
      intro e he
      simp only [List.mem_map, Keyset.mem_orderBy, List.mem_filter] at he
      obtain ⟨i, ⟨hi, -⟩, rfl⟩ := he
      obtain ⟨o, ho, r, -, rfl⟩ := (h.index hv i).1 hi
      exact decide_eq_true (h.keys o ho).1
    · refine (List.perm_ext_iff_of_nodup ?_ ?_).2 fun k => ?_
      · refine (hasc.nodup_keys.of_map).map_on ?_
        intro e he e' he' heq
        simp only [List.mem_map, Keyset.mem_orderBy, List.mem_filter] at he he'
        obtain ⟨i, ⟨hi, -⟩, rfl⟩ := he
        obtain ⟨i', ⟨hi', -⟩, rfl⟩ := he'
        rw [((h.index hv i).1 hi).unique ((h.index hv i').1 hi') heq]
      · exact db.objects.nodup.sublist (List.filter_sublist.map _)
      · simp only [List.mem_map, Keyset.mem_orderBy, List.mem_filter]
        constructor
        · rintro ⟨_, ⟨i, ⟨hi, hp⟩, rfl⟩, rfl⟩
          obtain ⟨o, ho, r, -, rfl⟩ := (h.index hv i).1 hi
          exact ⟨o, ⟨ho, hp⟩, rfl⟩
        · rintro ⟨o, ⟨ho, hp⟩, rfl⟩
          obtain ⟨r, hr, -⟩ := h.heads o ho (hpub o ho).ne'
          exact ⟨_, ⟨_, ⟨(h.index hv _).2 ⟨o, ho, r, hr, rfl⟩, hp⟩, rfl⟩, rfl⟩

/-! ## Migrations succeed -/

omit h in
/-- Rows with different keys that are free can be inserted one after the other. -/
theorem inserts_ok {l : List IndexRow} {t : Table IndexRow.indexKey}
    (hnodup : (l.map (·.indexKey)).Nodup) (hfree : ∀ r ∈ l, t.find r.indexKey = none) :
    ∃ t', l.foldlM (fun t row =>
      orFail "UNIQUE constraint failed: current_index.index_key" (t.insert row)) t = .ok t' := by
  induction l generalizing t with
  | nil => exact ⟨t, rfl⟩
  | cons row l ih =>
      obtain ⟨hrow, hnodup⟩ := List.nodup_cons.1 hnodup
      have hins : t.insert row = some (t.insertNew row (hfree row List.mem_cons_self)) :=
        Table.insert_eq_some.2 ⟨_, rfl⟩
      have hrest : ∀ r ∈ l,
          (t.insertNew row (hfree row List.mem_cons_self)).find r.indexKey = none := by
        intro r hr
        rw [(Table.find_insert hins).2, hfree r (List.mem_cons_of_mem _ hr)]
        refine if_neg fun heq => hrow ?_
        show row.indexKey ∈ l.map (·.indexKey)
        rw [heq]
        exact List.mem_map_of_mem hr
      obtain ⟨t', ht'⟩ := ih hnodup hrest
      exact ⟨t', foldlM_cons_ok.2 ⟨_, orFail_ok.2 hins, ht'⟩⟩

/-- The step to schema 3 succeeds, and leaves the projection in the index. -/
theorem toSchema3 : ∃ db', db.toSchema3 = .ok db' ∧ db'.containerKey = db.containerKey ∧
    ∀ i, i ∈ db'.currentIndex ↔ Projected db i := by
  unfold ObjectTables.toSchema3
  split
  · have hnodup : (db.headRows.map (·.indexKey)).Nodup := by
      refine h.nodup_indexKeys.sublist (Keyset.filterMap_keys_sublist ?_ db.objects.rows)
      intro o i hi
      obtain ⟨r, -, rfl⟩ := Option.map_eq_some_iff.1 hi
      rfl
    obtain ⟨t, ht⟩ := inserts_ok hnodup fun r _ => Table.find_empty r.indexKey
    have hindex : db.backfillIndex = .ok t := ht
    refine ⟨{ db with currentIndex := t, userVersion := 3 }, ?_, rfl, fun i => ?_⟩
    · rw [hindex]
      rfl
    · show i ∈ t ↔ Projected db i
      rw [mem_of_inserts ht, mem_headRows]
      exact ⟨fun hi => hi.resolve_left (Table.not_mem_empty _), .inr⟩
  · next hv => exact ⟨db, rfl, rfl, h.index (by omega)⟩

/-- **A writer can migrate the package.** The index can be filled as the keys of the objects are
different, and nothing else of the migration can fail on a package of its own container. -/
theorem migrates (hcontainer : db.containerKey = container) :
    ∃ db', db.migrate container = .ok db' := by
  obtain ⟨db₃, h₃, -, hprojected⟩ := h.toSchema3
  have hindex : db₃.toSchema4.currentIndex = db₃.currentIndex := by
    obtain ⟨⟨w, n, j, k, h₄⟩, -⟩ := toSchema4_eq db₃
    rw [h₄]
  have hnodup : (db₃.toSchema4.currentIndex.rows.map (·.objectKey)).Nodup := by
    rw [hindex]
    refine (db₃.currentIndex.nodup.of_map).map_on ?_
    intro i hi i' hi' heq
    exact ((hprojected i).1 hi).unique ((hprojected i').1 hi') heq
  have h₅ : ∃ db', db₃.toSchema4.toSchema5 = .ok db' := by
    unfold ObjectTables.toSchema5
    split
    · refine ⟨{ db₃.toSchema4 with userVersion := 5 }, ?_⟩
      rw [failIf, if_neg (not_not_intro hnodup)]
      rfl
    · exact ⟨_, rfl⟩
  obtain ⟨db', h₅⟩ := h₅
  refine ⟨db', ?_⟩
  simp only [ObjectTables.migrate, bind_ok, failIf_ok]
  exact ⟨(), not_not_intro hcontainer, db₃, h₃, h₅⟩

end IndexInvariant

/-- **The compact index of every package refines its records**, from schema 3 on, however old the
package is and whatever failed on it: one row for each object, with the fields of its head, and no
other row. The package may have been created by an older program and been migrated; the triggers and
the backfill of the schema are what keeps the index. -/
theorem Evolves.refinesRecords (h : Evolves P container db) (hv : 3 ≤ db.userVersion) :
    CompactIndex db :=
  h.indexInvariant.1.compactIndex hv h.indexInvariant.2

/-- The index of the package that the sample calls leave refines its records. -/
theorem Evolves.refinesRecords_sample : ∃ responses db,
    Package.exec .reference .reference Package.sampleCalls (.fresh (ascii "c"))
      = .ok (responses, db) ∧ db.userVersion = 5 ∧ CompactIndex db := by
  have hok : (Package.exec .reference .reference Package.sampleCalls
    (.fresh (ascii "c"))).isOk = true := by decide +kernel
  obtain ⟨⟨responses, db⟩, h⟩ := exists_of_isOk hok
  obtain ⟨events, hrun, -⟩ := Package.run_of_exec Package.opens_reference h
  have hmigrated : Evolves .reference (ascii "c") (.fresh (ascii "c")) :=
    .migrated (.created 1 le_rfl (by omega)) (ObjectTables.migrate_created (by omega) _)
  have hversion : db.userVersion = 5 :=
    (Package.Run.extends hrun (Package.sound_fresh .reference (ascii "c"))).userVersion
  exact ⟨responses, db, h, hversion,
    Evolves.refinesRecords (.used hmigrated rfl hrun) (by omega)⟩

end FileProvider
