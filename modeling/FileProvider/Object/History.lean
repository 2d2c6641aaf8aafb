import FileProvider.Object.Ingest

/-!
# The history invariant

`HistoryInvariant` is what holds of the objects of a package between two calls and inside
their transactions: the versions of an object are the numbers up to its head, the object row
repeats its head revision, nothing follows a tombstone, live paths are unique, and the
validator accepts every version with its content. A publication keeps it when it is
`Publishable`; the row of an object whose first publication is still to come has head zero.

The invariant is stated with an exception for one object, whose row is inserted before its first
revision; `PublishedBut` is that form, and `publish` is the lemma that carries it over a
publication.
-/

namespace FileProvider

open Bytes Fallible Impl

variable {P : Platform} {m : Impl} {db db' : ObjectTables}

/-- What holds of the objects of a package. -/
structure HistoryInvariant (P : Platform) (m : Impl) (db : ObjectTables) : Prop where
  versions : ∀ o ∈ db.objects, ∀ v,
    db.revisions.find (o.objectKey, v) ≠ none ↔ 1 ≤ v ∧ v ≤ o.head
  owner : ∀ id, db.revisions.find id ≠ none → db.objects.find id.1 ≠ none
  rawOwner : ∀ id, db.rawRevisions.find id ≠ none → db.revisions.find id ≠ none
  partOwner : ∀ c ∈ db.revisionChunks, db.revisions.find (c.objectKey, c.version) ≠ none
  head : ∀ o ∈ db.objects, ∀ r, db.revisions.find (o.objectKey, o.head) = some r →
    o.path = r.path ∧ o.deleted = r.deleted
  last : ∀ k v r, db.revisions.find (k, v) = some r → r.deleted = true →
    db.revisions.find (k, v + 1) = none
  live : ∀ o ∈ db.objects, ∀ o' ∈ db.objects, o.deleted = false → o'.deleted = false →
    o.path = o'.path → o = o'
  valid : ∀ o ∈ db.objects, ∀ v, 1 ≤ v → v ≤ o.head →
    validate P m db o.objectKey v true = .ok true

namespace HistoryInvariant

/-- A fresh package satisfies the invariant. -/
theorem fresh (P : Platform) (m : Impl) (container : Bytes) :
    HistoryInvariant P m (.fresh container) where
  versions _ ho := absurd ho (Table.not_mem_empty _)
  owner _ h := absurd rfl h
  rawOwner _ h := absurd rfl h
  partOwner _ hc := absurd hc (Table.not_mem_empty _)
  head _ ho := absurd ho (Table.not_mem_empty _)
  last _ _ _ h := by cases h
  live _ ho := absurd ho (Table.not_mem_empty _)
  valid _ ho := absurd ho (Table.not_mem_empty _)

/-- The invariant is about the objects, their revisions and what these refer to: it stays when
an extension leaves those tables as they are. -/
theorem of_extends (h : HistoryInvariant P m db) (hext : Extends db db')
    (hobjects : db'.objects = db.objects) (hrevisions : db'.revisions = db.revisions)
    (hraw : db'.rawRevisions = db.rawRevisions)
    (hparts : db'.revisionChunks = db.revisionChunks) : HistoryInvariant P m db' where
  versions := by rw [hobjects, hrevisions]; exact h.versions
  owner := by rw [hobjects, hrevisions]; exact h.owner
  rawOwner := by rw [hraw, hrevisions]; exact h.rawOwner
  partOwner := by rw [hparts, hrevisions]; exact h.partOwner
  head := by rw [hobjects, hrevisions]; exact h.head
  last := by rw [hrevisions]; exact h.last
  live := by rw [hobjects]; exact h.live
  valid := by
    rw [hobjects]
    exact fun o ho v hv hle => hext.validate (h.valid o ho v hv hle)

/-- Storing chunks keeps the invariant. -/
theorem of_stores (h : HistoryInvariant P m db) (hs : Stores db db') :
    HistoryInvariant P m db' :=
  h.of_extends hs.toExtends (by rw [hs.rest]) (by rw [hs.rest]) (by rw [hs.rest])
    (by rw [hs.rest])

end HistoryInvariant

/-- Every object has a head revision, but for the one of a given key. -/
def PublishedBut (key : Bytes) (db : ObjectTables) : Prop :=
  ∀ o ∈ db.objects, o.head = 0 → o.objectKey = key

/-- Every object has a head revision. -/
def Published (db : ObjectTables) : Prop := ∀ o ∈ db.objects, 0 < o.head

/-! ## A new object -/

/-- What the row of a new object leaves in place. -/
theorem insertObject_extends {key path : Bytes} {indexKey : Int}
    (h : db.insertObject key path = .ok (indexKey, db')) : Extends db db' := by
  obtain ⟨-, -, -, objects, hins, rfl⟩ := ObjectTables.insertObject_ok h
  obtain ⟨hfree, hall⟩ := Table.find_insert hins
  exact {
    containerKey := rfl
    userVersion := rfl
    sessions := fun k s hs => ⟨s.ended, hs⟩
    objects := fun k o ho => by
      refine ⟨o, ?_, rfl⟩
      rw [hall, if_neg, ho]
      rintro rfl
      rw [hfree] at ho
      cases ho
    revisions := fun _ _ hr => hr
    workSessions := fun _ _ hw => hw
    chunks := fun _ _ hc => hc
    raw := fun _ _ => rfl
    parts := fun _ _ _ => rfl }

/-- The row of a new object keeps the invariant; only that object has no head yet. Everything the
invariant says of an object is about its versions, and this one has none yet. -/
theorem HistoryInvariant.insertObject (h : HistoryInvariant P m db) {key path : Bytes}
    {indexKey : Int} (hins : db.insertObject key path = .ok (indexKey, db')) :
    HistoryInvariant P m db' ∧
      db'.objects.find key = some ⟨indexKey, key, 0, path, false⟩ ∧
      (Published db → PublishedBut key db') := by
  have hext := insertObject_extends hins
  obtain ⟨-, -, hpath, objects, hrow, rfl⟩ := ObjectTables.insertObject_ok hins
  obtain ⟨hfree, hall⟩ := Table.find_insert hrow
  have hmem := fun o => Table.mem_insert (s := o) hrow
  have hnone : ∀ v, db.revisions.find (key, v) = none := by
    intro v
    by_contra hne
    exact h.owner (key, v) hne hfree
  refine ⟨?_, by rw [hall, if_pos rfl], fun hpub o ho hzero => ?_⟩
  · exact {
      versions := fun o ho v => by
        rcases (hmem o).1 ho with ho | rfl
        · exact h.versions o ho v
        · simp only [hnone]
          refine ⟨fun h => absurd rfl h, fun h => ?_⟩
          omega
      owner := fun id hid => by
        rw [hall]
        split
        · exact Option.some_ne_none _
        · exact h.owner id hid
      rawOwner := h.rawOwner
      partOwner := h.partOwner
      head := fun o ho r hr => by
        rcases (hmem o).1 ho with ho | rfl
        · exact h.head o ho r hr
        · rw [hnone] at hr
          cases hr
      last := h.last
      live := fun o ho o' ho' hd hd' hp => by
        rcases (hmem o).1 ho with ho | rfl <;> rcases (hmem o').1 ho' with ho' | rfl
        · exact h.live o ho o' ho' hd hd' hp
        · exact absurd ⟨o, ho, hp, hd⟩ hpath
        · exact absurd ⟨o', ho', hp.symm, hd'⟩ hpath
        · rfl
      valid := fun o ho v hv hle => by
        rcases (hmem o).1 ho with ho | rfl
        · exact hext.validate (h.valid o ho v hv hle)
        · exact absurd hle (by simp only; omega) }
  · rcases (hmem o).1 ho with ho | rfl
    · exact absurd hzero (hpub o ho).ne'
    · rfl

/-! ## Publication -/

/-- The published record is what a reader finds. -/
theorem Impl.Publishes.get {r : ObjectRecord} {s : ObjectSession} {parts : List Chunk}
    {document key : Bytes} {now : Int} {o : ObjectRow} {active : Bool}
    (hp : Publishes db ((r.stamped s now).withKey key) parts document db')
    (ho : db.objects.find r.key = some o) (hindex : o.indexKey = r.indexKey)
    (hs : getSession db s.key active = .ok s) :
    Impl.get db' r.key r.version = .ok (some ((r.stamped s now).withKey key)) := by
  obtain ⟨-, row, hrow, -, rfl⟩ := getSession_ok.1 hs
  have hpos : r.version ≠ 0 := hp.positive
  rw [get_ok, versionOf_pos hpos]
  refine ⟨hp.bound, joined_eq_some.2 ⟨revisionRow ((r.stamped (sessionOf row) now).withKey key),
    { o with head := r.version, path := r.path, deleted := r.deleted }, row, ?_, ?_, ?_, ?_⟩⟩
  · rw [hp.find_revision]
    exact if_pos rfl
  · rw [hp.find_object]
    exact (if_pos rfl).trans (by rw [show _ = _ from ho]; rfl)
  · rw [hp.sessions]
    exact hrow
  · simp [record, revisionRow, ObjectRecord.stamped, ObjectRecord.withKey, sessionOf, hindex]

/-- The evidence the validator will find about the published record. The record, its session, its
document and its context are read from the rows that the publication has put in. -/
theorem Impl.Publishes.reads {r : ObjectRecord} {s : ObjectSession} {parts : List Chunk}
    {document key context : Bytes} {now : Int} {o : ObjectRow}
    (hp : Publishes db ((r.stamped s now).withKey key) parts document db')
    (hm : ¬ m.schema < 4) (ho : db.objects.find r.key = some o) (hindex : o.indexKey = r.indexKey)
    (hs : getSession db s.key false = .ok s)
    (hnone : db.rawRevisions.find (r.key, r.version) = none)
    (hcontext : m.context db s.key = .ok context) :
    Reads m db' r.key r.version ⟨((r.stamped s now).withKey key), s, context, document⟩ where
  record := hp.get ho hindex hs
  session := by
    rw [getSession_ok] at hs ⊢
    rw [hp.sessions]
    exact hs
  context := hp.toExtends.context hcontext
  raw := by
    rw [rawDocument_ok, if_neg hm]
    refine ⟨hp.bound, ?_⟩
    rw [hp.find_raw]
    by_cases hd : document = []
    · rw [if_neg (by simp [hd]), hnone, hd]
      rfl
    · rw [if_pos ⟨rfl, hd⟩]
      rfl

/-- A published record continues the validated history it was published on. -/
theorem Impl.Publishes.validated {r : ObjectRecord} {s : ObjectSession} {parts : List Chunk}
    {document context : Bytes} {now : Int}
    (hp : Publishes db ((r.stamped s now).withKey
      (validationKey P (r.stamped s now) s m.container context document)) parts document db')
    (hreads : Reads m db' r.key r.version ⟨((r.stamped s now).withKey
      (validationKey P (r.stamped s now) s m.container context document)), s, context, document⟩)
    (hparent : Validated P m db r.key (r.version - 1) r.parentValidationKey) :
    ∃ k, Validated P m db' r.key r.version k := by
  have hchain := hp.toExtends.validated hparent
  have hpos : r.version ≠ 0 := hp.positive
  obtain ⟨v, hv⟩ := Nat.exists_eq_succ_of_ne_zero hpos
  rw [hv] at hreads hchain ⊢
  exact ⟨_, hchain.succ hreads ⟨.inr rfl, fun h => absurd (show 2 = 1 from h) (by decide), hv,
    rfl, rfl, rfl⟩⟩

/-- A record its object can take as the next revision. -/
structure Publishable (P : Platform) (m : Impl) (db : ObjectTables) (r : ObjectRecord)
    (s : ObjectSession) (parts : List Chunk) : Prop where
  object : ∃ o, db.objects.find r.key = some o ∧ o.indexKey = r.indexKey ∧
    r.version = o.head + 1
  parent : Validated P m db r.key (r.version - 1) r.parentValidationKey
  alive : ∀ p, db.revisions.find (r.key, r.version - 1) = some p → p.deleted = false
  range : r.version ≤ int64Max
  session : getSession db s.key false = .ok s
  intact : Intact P db r parts

namespace Publishable

variable {r x : ObjectRecord} {s : ObjectSession} {parts : List Chunk} {raw : Option Bytes}
  {now : Int}

/-- The evidence the validator will find about the published record. -/
theorem reads (h : Publishable P m db r s parts) {document key context : Bytes}
    (hm : ¬ m.schema < 4) (hi : HistoryInvariant P m db)
    (hcontext : m.context db s.key = .ok context)
    (hp : Publishes db ((r.stamped s now).withKey key) parts document db') :
    Reads m db' r.key r.version
      ⟨((r.stamped s now).withKey key), s, context, document⟩ := by
  obtain ⟨o, ho, hindex, -⟩ := h.object
  have hnone : db.rawRevisions.find (r.key, r.version) = none := by
    by_contra hne
    exact hi.rawOwner _ hne hp.fresh
  exact hp.reads hm ho hindex h.session hnone hcontext

/-- The published chunk list is the one given. No chunk list stood under the new version, so that
only its own rows are selected, in the order of their places. -/
theorem chunks (hi : HistoryInvariant P m db) {document : Bytes}
    (hp : Publishes db x parts document db') : Impl.chunks db' x.key x.version = .ok parts := by
  have hold : db.revisionChunks.rows.filter
      (fun c => c.objectKey = x.key ∧ c.version = x.version) = [] := by
    rw [List.filter_eq_nil_iff]
    intro c hc hmatch
    simp only [decide_eq_true_eq] at hmatch
    refine hi.partOwner c hc ?_
    rw [hmatch.1, hmatch.2]
    exact hp.fresh
  have hnew : (partRows x.key x.version parts 0).filter
      (fun c => c.objectKey = x.key ∧ c.version = x.version)
        = partRows x.key x.version parts 0 := by
    rw [List.filter_eq_self]
    intro c hc
    simpa using mem_partRows hc
  have hasc : Keyset.Ascending (·.ordinal) (partRows x.key x.version parts 0) := by
    rw [Keyset.Ascending, ← List.pairwise_map, partRows_ordinals]
    exact List.pairwise_lt_range'
  have hrows : chunkRows db' x.key x.version = partRows x.key x.version parts 0 := by
    rw [chunkRows, hp.revisionChunks, List.filter_append, hold, hnew, List.nil_append]
    exact Keyset.orderBy_eq_self hasc
  rw [chunks_ok, hrows]
  refine ⟨hp.bound, ?_, partRows_chunks _ _ _ _⟩
  have hlen : (partRows x.key x.version parts 0).length = parts.length := by
    rw [← List.length_map (f := (·.ordinal)), partRows_ordinals, List.length_range']
  rw [partRows_ordinals, hlen, List.range_eq_range']

/-- The validator accepts what was published. -/
theorem validate (h : Publishable P m db r s parts) (hm : ¬ m.schema < 4)
    (hi : HistoryInvariant P m db) {document context : Bytes}
    (hcontext : m.context db s.key = .ok context)
    (hp : Publishes db ((r.stamped s now).withKey
      (validationKey P (r.stamped s now) s m.container context document)) parts document db') :
    Impl.validate P m db' r.key r.version true = .ok true := by
  have hreads := h.reads hm hi hcontext hp
  have hparts := chunks hi hp
  have hpos : r.version ≠ 0 := hp.positive
  have hvalidated := hp.validated hreads h.parent
  have hintact := hp.toExtends.intact (P := P)
    (r := (r.stamped s now).withKey
      (validationKey P (r.stamped s now) s m.container context document))
    ⟨h.intact.erased, h.intact.content⟩
  exact validate_iff.2 ⟨hpos, h.range, hvalidated,
    fun _ => ⟨_, parts, hreads.record, hparts, hintact⟩⟩

/-- **A publication keeps the invariant**, and gives its object a head. The new version is validated
by its own evidence on top of the chain of the version before, and all other versions as before. -/
theorem publish (h : Publishable P m db r s parts) (hm : ¬ m.schema < 4)
    (hi : HistoryInvariant P m db)
    (hp : Impl.publish P m db r s parts raw now = .ok (x, db')) :
    HistoryInvariant P m db' ∧ (PublishedBut r.key db → Published db') := by
  obtain ⟨document, context, -, hcontext, hx, hp⟩ := publish_ok hp
  have hvalid : Impl.validate P m db' r.key r.version true = .ok true :=
    h.validate hm hi hcontext (hx ▸ hp)
  have hkey : x.key = r.key := by rw [hx]; rfl
  have hversion : x.version = r.version := by rw [hx]; rfl
  have hext := hp.toExtends
  have hrev := hp.find_revision
  obtain ⟨o, ho, -, hnext⟩ := h.object
  rw [hkey, hversion] at hrev
  obtain ⟨hmem, hokey⟩ := Table.find_eq_some.1 ho
  -- An object of the new package is an old one, or the published one with its new head.
  have hcases : ∀ o' ∈ db'.objects, (o' ∈ db.objects ∧ o'.objectKey ≠ r.key) ∨
      o' = { o with head := r.version, path := x.path, deleted := x.deleted } := by
    intro o' ho'
    rw [Table.mem_iff_find, hp.find_object, hkey] at ho'
    by_cases hk : o'.objectKey = r.key
    · rw [if_pos hk, hk, ho, Option.map_some, Option.some.injEq, hversion] at ho'
      exact .inr ho'.symm
    · rw [if_neg hk, ← Table.mem_iff_find] at ho'
      exact .inl ⟨ho', hk⟩
  have hother : ∀ {k : Bytes} (v : Nat), k ≠ r.key →
      db'.revisions.find (k, v) = db.revisions.find (k, v) := by
    intro k v hk
    rw [hrev, if_neg fun h => hk (congrArg Prod.fst h).symm]
  have hself : db'.revisions.find (r.key, r.version) = some (revisionRow x) := by
    rw [hrev, if_pos rfl]
  have hbelow : ∀ v, v ≠ r.version →
      (db'.revisions.find (r.key, v) = db.revisions.find (r.key, v)) := by
    intro v hv
    rw [hrev, if_neg fun h => hv (congrArg Prod.snd h).symm]
  have hrange : ∀ v, db.revisions.find (r.key, v) ≠ none ↔ 1 ≤ v ∧ v ≤ o.head := by
    intro v
    rw [← hokey]
    exact hi.versions o hmem v
  refine ⟨?_, fun hpub o' ho' => ?_⟩
  · exact {
      versions := fun o' ho' v => by
        rcases hcases o' ho' with ⟨hold, hne⟩ | rfl
        · rw [hother v hne]
          exact hi.versions o' hold v
        · rw [hokey]
          by_cases hv : v = r.version
          · subst hv
            simp only [hself, ne_eq, reduceCtorEq, not_false_eq_true, true_iff]
            omega
          · rw [hbelow v hv, hrange]
            simp only
            omega
      owner := fun id hid => by
        by_cases hk : id.1 = r.key
        · obtain ⟨o', ho', -⟩ := hext.objects _ _ ho
          rw [hk, ho']
          exact Option.some_ne_none _
        · rw [hp.find_object, hkey, if_neg hk]
          refine hi.owner id ?_
          rwa [← hother id.2 hk]
      rawOwner := fun id hid => by
        rw [hp.find_raw, hkey, hversion] at hid
        split at hid
        · next hc =>
            rw [← hc.1, hself]
            exact Option.some_ne_none _
        · exact hext.revisions_ne_none (hi.rawOwner id hid)
      partOwner := fun c hc => by
        rw [Table.mem_def, hp.revisionChunks, List.mem_append] at hc
        rcases hc with hc | hc
        · exact hext.revisions_ne_none (hi.partOwner c hc)
        · obtain ⟨hk, hv⟩ := mem_partRows hc
          rw [hk, hv, hkey, hversion, hself]
          exact Option.some_ne_none _
      head := fun o' ho' r' hr' => by
        rcases hcases o' ho' with ⟨hold, hne⟩ | rfl
        · rw [hother _ hne] at hr'
          exact hi.head o' hold r' hr'
        · rw [hokey, hself, Option.some.injEq] at hr'
          subst hr'
          exact ⟨rfl, rfl⟩
      last := fun k v r' hr' hd => by
        by_cases hk : k = r.key
        · subst hk
          by_contra hne
          have hnext' : v + 1 ≤ r.version := by
            by_cases hv : v + 1 = r.version
            · exact hv.le
            · rw [hbelow _ hv, ← ne_eq, hrange] at hne
              omega
          rw [hbelow v (by omega)] at hr'
          by_cases hv : v + 1 = r.version
          · rw [h.alive r' (by rw [← hv]; exact hr')] at hd
            cases hd
          · rw [hbelow _ hv] at hne
            exact hne (hi.last _ v r' hr' hd)
        · rw [hother _ hk] at hr' ⊢
          exact hi.last k v r' hr' hd
      live := fun o₁ h₁ o₂ h₂ hd₁ hd₂ hpath => by
        rcases hcases o₁ h₁ with ⟨h₁, hne₁⟩ | rfl <;> rcases hcases o₂ h₂ with ⟨h₂, hne₂⟩ | rfl
        · exact hi.live o₁ h₁ o₂ h₂ hd₁ hd₂ hpath
        · rw [hp.vacant hd₂ o₁ h₁ (hkey ▸ hne₁) hpath] at hd₁
          cases hd₁
        · rw [hp.vacant hd₁ o₂ h₂ (hkey ▸ hne₂) hpath.symm] at hd₂
          cases hd₂
        · rfl
      valid := fun o' ho' v hv hle => by
        rcases hcases o' ho' with ⟨hold, -⟩ | rfl
        · exact hext.validate (hi.valid o' hold v hv hle)
        · rw [hokey]
          by_cases hv' : v = r.version
          · rw [hv']
            exact hvalid
          · refine hext.validate ?_
            rw [← hokey]
            refine hi.valid o hmem v hv ?_
            simp only at hle
            omega }
  · rcases hcases o' ho' with ⟨hold, hne⟩ | rfl
    · exact Nat.pos_of_ne_zero fun hzero => hne (hpub o' hold hzero)
    · simp only
      omega

end Publishable

end FileProvider
