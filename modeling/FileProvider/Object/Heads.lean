import Mathlib.Logic.Function.Basic
import FileProvider.Object.Content

/-!
# Heads under their paths

`lookupPath` finds the head of the live object of a path, and there is one live object at most. A
publication that leaves an object where it is replaces what is found under its path, and nothing
else.

The results are those of the history invariant, that live paths are unique, put into the form in
which a call of the packager is compared with a function on paths.
-/

namespace FileProvider

open Bytes Fallible Impl

variable {P : Platform} {m : Impl} {db db' stored : ObjectTables} {x : ObjectRecord} {path : Bytes}

/-- What `lookupPath` finds under a path. -/
def ObjectStore.found (db : ObjectTables) (path : Bytes) : Option ObjectRecord :=
  (db.objects.rows.filter fun o => o.path = path ∧ o.deleted = false).findSome?
    (ObjectStore.headRecord db)

open ObjectStore (found headRecord)

/-- A lookup answers for a valid path with what is found under it. -/
theorem lookupPath_eq {r : Option ObjectRecord} :
    ObjectStore.lookupPath db path = .ok r ↔ pathValid path = .ok () ∧ found db path = r := by
  simp only [ObjectStore.lookupPath, bind_ok, pure_ok]
  constructor
  · rintro ⟨_, h⟩
    exact h
  · intro h
    exact ⟨(), h⟩

/-- A record is found under a path exactly when it is the head of a live object there. Two live
objects have different paths, so that the first one found is the only one. -/
theorem found_eq_some (hi : HistoryInvariant P m db) : found db path = some x ↔
    ∃ o ∈ db.objects, o.path = path ∧ o.deleted = false ∧ headRecord db o = some x := by
  constructor
  · intro h
    obtain ⟨o, ho, hrecord⟩ := List.exists_of_findSome?_eq_some h
    obtain ⟨hobject, ho⟩ := List.mem_filter.1 ho
    obtain ⟨hpath, hlive⟩ := of_decide_eq_true ho
    exact ⟨o, hobject, hpath, hlive, hrecord⟩
  · rintro ⟨o, ho, rfl, hlive, hrecord⟩
    have hmem : o ∈ db.objects.rows.filter fun o' => o'.path = o.path ∧ o'.deleted = false :=
      List.mem_filter.2 ⟨ho, decide_eq_true ⟨rfl, hlive⟩⟩
    cases h : found db o.path with
    | none =>
        have hnone := List.findSome?_eq_none_iff.1 h o hmem
        rw [hrecord] at hnone
        cases hnone
    | some y =>
        obtain ⟨o', ho', hrecord'⟩ := List.exists_of_findSome?_eq_some h
        obtain ⟨hobject, ho'⟩ := List.mem_filter.1 ho'
        obtain ⟨hpath, hlive'⟩ := of_decide_eq_true ho'
        obtain rfl := hi.live o' hobject o ho hlive' hlive hpath
        exact hrecord'.symm.trans hrecord

/-- The record under a path is one of that path. -/
theorem found_path (hi : HistoryInvariant P m db) (h : found db path = some x) :
    x.path = path ∧ x.deleted = false := by
  obtain ⟨o, ho, rfl, hlive, hrecord⟩ := (found_eq_some hi).1 h
  simp only [headRecord, Option.bind_eq_bind, Option.bind_eq_some_iff, Option.pure_def,
    Option.some.injEq] at hrecord
  obtain ⟨r, hr, s, -, rfl⟩ := hrecord
  obtain ⟨hpath, hdeleted⟩ := hi.head o ho r hr
  exact ⟨hpath.symm, hdeleted.symm.trans hlive⟩

/-- The heads after a publication at a path. -/
def publishHead (f : Bytes → Option ObjectRecord) (x : ObjectRecord) :
    Bytes → Option ObjectRecord :=
  Function.update f x.path (some x)

/-- The published record is found under its path, and what is under other paths is left. The
published record is a head after the step, and every object at another path is the same object with
the same head. -/
theorem found_publish (hi : HistoryInvariant P m db) (hi' : HistoryInvariant P m db')
    (hself : ∃ o ∈ db'.objects, o.path = x.path ∧ o.deleted = false ∧ headRecord db' o = some x)
    (hother : ∀ o, o.path ≠ x.path → (o ∈ db'.objects ↔ o ∈ db.objects) ∧
      (o ∈ db.objects → headRecord db' o = headRecord db o)) :
    found db' = publishHead (found db) x := by
  funext path
  by_cases hpath : path = x.path
  · subst hpath
    rw [publishHead, Function.update_self]
    exact (found_eq_some hi').2 hself
  · rw [publishHead, Function.update_of_ne hpath]
    refine Option.ext fun y => ?_
    rw [found_eq_some hi, found_eq_some hi']
    refine exists_congr fun o => ?_
    constructor
    · rintro ⟨ho, rfl, hlive, hrecord⟩
      obtain ⟨hobjects, hheads⟩ := hother o hpath
      exact ⟨hobjects.1 ho, rfl, hlive, (hheads (hobjects.1 ho)).symm.trans hrecord⟩
    · rintro ⟨ho, rfl, hlive, hrecord⟩
      obtain ⟨hobjects, hheads⟩ := hother o hpath
      exact ⟨hobjects.2 ho, rfl, hlive, (hheads ho).trans hrecord⟩

namespace Impl.Publishes

variable {parts : List Chunk} {document : Bytes}

/-- The published record is the head of its object. -/
theorem head (hp : Publishes stored x parts document db') (hlive : x.deleted = false)
    (hget : Impl.get db' x.key x.version = .ok (some x)) :
    ∃ o ∈ db'.objects, o.path = x.path ∧ o.deleted = false ∧ headRecord db' o = some x := by
  obtain ⟨o, ho⟩ := Option.ne_none_iff_exists'.1 hp.object
  have hfind := hp.find_object x.key
  rw [if_pos rfl, ho, Option.map_some] at hfind
  have hmem := Table.mem_of_find hfind
  refine ⟨_, hmem, rfl, hlive, ?_⟩
  have hkey : o.objectKey = x.key := Table.key_of_find ho
  obtain ⟨-, hjoined⟩ := get_ok.1 hget
  rw [versionOf_pos hp.positive] at hjoined
  rw [← joined_head hmem]
  dsimp only
  rw [hkey, versionOf, if_pos rfl, hfind]
  exact hjoined

/-- An object at another path is that of another record, and stays as it is. -/
theorem other (hp : Publishes stored x parts document db') (o : ObjectRow)
    (hpath : o.path ≠ x.path) :
    o ∈ db'.objects ↔ o.objectKey ≠ x.key ∧ o ∈ stored.objects := by
  rw [Table.mem_iff_find, Table.mem_iff_find, hp.find_object]
  by_cases hkey : o.objectKey = x.key
  · rw [if_pos hkey]
    refine ⟨fun h => ?_, fun h => absurd hkey h.1⟩
    obtain ⟨o', -, rfl⟩ := Option.map_eq_some_iff.1 h
    exact absurd rfl hpath
  · rw [if_neg hkey]
    exact ⟨fun h => ⟨hkey, h⟩, fun h => h.2⟩

/-- The head of another object stays as it is. -/
theorem headRecord_other (hp : Publishes stored x parts document db') {o : ObjectRow}
    (hkey : o.objectKey ≠ x.key) : headRecord db' o = headRecord stored o := by
  have hrevision : db'.revisions.find (o.objectKey, o.head)
      = stored.revisions.find (o.objectKey, o.head) := by
    rw [hp.find_revision, if_neg fun h => hkey (congrArg Prod.fst h).symm]
  unfold ObjectStore.headRecord
  rw [hrevision, hp.sessions]

end Impl.Publishes

/-- A creation is found under its path, which was vacant. No live object had that path, since the
insertion would have failed, and no other object changes its head. -/
theorem Creation.heads {r : ObjectRecord} {s : ObjectSession} {parts : List Chunk}
    {document : Bytes} {now : Int} (h : Creation P m db stored r s parts document now x db')
    (hi : HistoryInvariant P m db) (hi' : HistoryInvariant P m db') :
    ObjectStore.found db x.path = none ∧
      ObjectStore.found db' = publishHead (ObjectStore.found db) x := by
  have hp := h.publishes
  obtain ⟨created, hins, hstores⟩ := h.insert
  obtain ⟨-, -, hvacant, objects, hrow, hcreated⟩ := ObjectTables.insertObject_ok hins
  obtain ⟨hfree, -⟩ := Table.find_insert hrow
  obtain ⟨validation, hx⟩ := h.record_eq
  have hkey : r.key = x.key := by
    rw [hx]
    rfl
  have hpath : r.path = x.path := by
    rw [hx]
    rfl
  have hlive : x.deleted = false := by
    rw [hx]
    exact h.live
  have hobjects : stored.objects = objects := by rw [hstores.rest, hcreated]
  have hheads : ∀ o, headRecord stored o = headRecord db o := fun o => by
    rw [hstores.rest, hcreated]
    rfl
  refine ⟨?_, found_publish hi hi' (hp.head hlive h.get) fun o ho => ⟨?_, fun hmem => ?_⟩⟩
  · refine Option.eq_none_iff_forall_ne_some.2 fun y hy => hvacant ?_
    obtain ⟨o, ho, hopath, holive, -⟩ := (found_eq_some hi).1 hy
    exact ⟨o, ho, hopath.trans hpath.symm, holive⟩
  · rw [hp.other o ho, hobjects, Table.mem_insert hrow]
    constructor
    · rintro ⟨hne, hmem | rfl⟩
      · exact hmem
      · exact absurd hkey hne
    · intro hmem
      refine ⟨fun heq => ?_, .inl hmem⟩
      rw [hkey, ← heq, Table.mem_iff_find.1 hmem] at hfree
      cases hfree
  · rw [hp.headRecord_other fun heq => ?_, hheads]
    rw [hkey, ← heq, Table.mem_iff_find.1 hmem] at hfree
    cases hfree

/-- A revision that leaves a live object at its path is found there. The object keeps its path, and
the head that is found is now the new revision. -/
theorem Revision.heads {old r : ObjectRecord} {s : ObjectSession} {parts : List Chunk}
    {raw : Option Bytes} {now : Int} {expected : Nat}
    (h : Revision P m db stored expected old r s parts raw now x db')
    (hi : HistoryInvariant P m db) (hi' : HistoryInvariant P m db') (hlive : r.deleted = false)
    (hpath : r.path = old.path) :
    ObjectStore.found db' = publishHead (ObjectStore.found db) x := by
  obtain ⟨_, _, -, -, hx, hp⟩ := publish_ok h.publish
  have hkey : r.key = x.key := by
    rw [hx]
    rfl
  have hxlive : x.deleted = false := by
    rw [hx]
    exact hlive
  have hxpath : x.path = old.path := by
    rw [hx]
    exact hpath
  have hobjects : stored.objects = db.objects := by rw [h.stores.rest]
  have hheads : ∀ o, headRecord stored o = headRecord db o := fun o => by
    rw [h.stores.rest]
    rfl
  -- The object of the key is at the path of the record, as its head was.
  have hown : ∀ o ∈ db.objects, o.path ≠ x.path → o.objectKey ≠ x.key := by
    intro o ho hne heq
    obtain ⟨row, o', srow, hrow, ho', -, hrecord, -, hhead⟩ := get_record (require_ok.1 h.require).1
    rw [hkey, ← heq, Table.mem_iff_find.1 ho] at ho'
    obtain rfl := Option.some.inj ho'
    rw [if_pos rfl] at hhead
    rw [hhead, hkey, ← heq] at hrow
    refine hne ((hi.head o ho row hrow).1.trans ?_)
    rw [hxpath, ← hrecord]
    rfl
  refine found_publish hi hi' (hp.head hxlive (h.get hi)) fun o ho => ⟨?_, fun hmem => ?_⟩
  · rw [hp.other o ho, hobjects]
    exact ⟨fun h => h.2, fun hmem => ⟨hown o hmem ho, hmem⟩⟩
  · rw [hp.headRecord_other (hown o hmem ho), hheads]

end FileProvider
