import FileProvider.Object.Reachable

/-!
# The histories of a reachable package

What the history invariant says in the terms of the tables alone: the versions of every object
are complete and linked by their validation keys, the object row repeats its head revision,
and the validator accepts every version.

Nothing new is proved of calls here: the invariant of `Object.History` holds of every reachable
package, and what it says of one object is stated for a reader who knows the tables and the
validator only.
-/

namespace FileProvider

open Bytes Fallible Impl

variable {P : Platform} {m : Impl} {db : ObjectTables} {container : Bytes}

/-- The histories of a package are complete, linked and validated. -/
structure ValidHistories (P : Platform) (m : Impl) (db : ObjectTables) : Prop where
  versions : ∀ key v, db.revisions.find (key, v) ≠ none ↔
    ∃ o, db.objects.find key = some o ∧ 1 ≤ v ∧ v ≤ o.head
  first : ∀ key r, db.revisions.find (key, 1) = some r → r.parentKey = []
  next : ∀ key v r r', db.revisions.find (key, v) = some r →
    db.revisions.find (key, v + 1) = some r' → r'.parentKey = r.validationKey
  head : ∀ key o, db.objects.find key = some o → ∃ r,
    db.revisions.find (key, o.head) = some r ∧ o.path = r.path ∧ o.deleted = r.deleted
  last : ∀ key v w r, db.revisions.find (key, v) = some r → r.deleted = true → v < w →
    db.revisions.find (key, w) = none
  live : ∀ o ∈ db.objects, ∀ o' ∈ db.objects, o.deleted = false → o'.deleted = false →
    o.path = o'.path → o = o'
  valid : ∀ key o, db.objects.find key = some o → ∀ v, 1 ≤ v → v ≤ o.head →
    validate P m db key v true = .ok true

/-- The row the evidence about a version was read from. -/
theorem Impl.Reads.row {key : Bytes} {v : Nat} {e : Evidence} (h : Reads m db key (v + 1) e) :
    ∃ r, db.revisions.find (key, v + 1) = some r ∧ r.validationKey = e.record.validationKey ∧
      r.parentKey = e.record.parentValidationKey := by
  obtain ⟨-, hjoin⟩ := get_ok.1 h.record
  rw [versionOf_pos (Nat.succ_ne_zero v), joined_eq_some] at hjoin
  obtain ⟨r, o, s, hr, -, -, hrecord⟩ := hjoin
  refine ⟨r, hr, ?_, ?_⟩
  · rw [← hrecord]
    rfl
  · rw [← hrecord]
    rfl

namespace HistoryInvariant

variable (h : HistoryInvariant P m db)
include h

/-- The versions of an object are those from 1 to its head. -/
theorem versions_iff (key : Bytes) (v : Nat) : db.revisions.find (key, v) ≠ none ↔
    ∃ o, db.objects.find key = some o ∧ 1 ≤ v ∧ v ≤ o.head := by
  constructor
  · intro hne
    obtain ⟨o, ho⟩ := Option.ne_none_iff_exists'.1 (h.owner _ hne)
    obtain ⟨hmem, rfl⟩ := Table.find_eq_some.1 ho
    exact ⟨o, ho, (h.versions o hmem v).1 hne⟩
  · rintro ⟨o, ho, hrange⟩
    obtain ⟨hmem, rfl⟩ := Table.find_eq_some.1 ho
    exact (h.versions o hmem v).2 hrange

/-- The history of a stored revision is validated and ends in its key. -/
theorem validated {key : Bytes} {v : Nat} {r : RevisionRow}
    (hr : db.revisions.find (key, v + 1) = some r) : ∃ e previous,
      Validated P m db key v previous ∧ Reads m db key (v + 1) e ∧
      e.Fits P m.container (v + 1) previous ∧ r.parentKey = previous ∧
      Validated P m db key (v + 1) r.validationKey := by
  obtain ⟨o, ho, hpos, hle⟩ := (h.versions_iff key (v + 1)).1
    (by rw [hr]; exact Option.some_ne_none _)
  obtain ⟨hmem, rfl⟩ := Table.find_eq_some.1 ho
  obtain ⟨-, -, ⟨k, hk⟩, -⟩ := validate_iff.1 (h.valid o hmem (v + 1) hpos hle)
  obtain ⟨e, previous, hprevious, hreads, hfits, rfl⟩ := hk.last (Nat.succ_ne_zero v)
  obtain ⟨r', hr', hkey, hparent⟩ := hreads.row
  obtain rfl : r = r' := by simpa [hr] using hr'
  exact ⟨e, previous, hprevious, hreads, hfits, hparent.trans hfits.parent, hkey ▸ hk⟩

/-- Nothing follows a tombstone, at any distance. -/
theorem after_tombstone {key : Bytes} {v : Nat} {r : RevisionRow}
    (hr : db.revisions.find (key, v) = some r) (hd : r.deleted = true) {w : Nat} (hw : v < w) :
    db.revisions.find (key, w) = none := by
  have hnext := h.last key v r hr hd
  by_contra hne
  obtain ⟨o, ho, -, hle⟩ := (h.versions_iff key w).1 hne
  exact (h.versions_iff key (v + 1)).2 ⟨o, ho, by omega, by omega⟩ hnext

/-- A published package has valid histories. -/
theorem toValidHistories (hpub : Published db) : ValidHistories P m db where
  versions := h.versions_iff
  first key r hr := by
    obtain ⟨e, previous, hprevious, -, -, hparent, -⟩ := h.validated hr
    cases hprevious
    exact hparent
  next key v r r' hr hr' := by
    obtain ⟨e, previous, hprevious, -, -, hparent, -⟩ := h.validated hr'
    have hpos :=
      ((h.versions_iff key v).1 (by rw [hr]; exact Option.some_ne_none _)).choose_spec.2.1
    obtain ⟨w, rfl⟩ := Nat.exists_eq_succ_of_ne_zero (by omega : v ≠ 0)
    obtain ⟨-, -, -, -, -, -, hself⟩ := h.validated hr
    exact hparent.trans (hprevious.unique hself)
  head key o ho := by
    obtain ⟨hmem, rfl⟩ := Table.find_eq_some.1 ho
    obtain ⟨r, hr⟩ := Option.ne_none_iff_exists'.1
      ((h.versions o hmem o.head).2 ⟨hpub o hmem, le_rfl⟩)
    exact ⟨r, hr, h.head o hmem r hr⟩
  last key v w r hr hd hw := h.after_tombstone hr hd hw
  live := h.live
  valid key o ho v hv hle := by
    obtain ⟨hmem, rfl⟩ := Table.find_eq_some.1 ho
    exact h.valid o hmem v hv hle

end HistoryInvariant

/-- **Every package the stores reach has valid histories**, whichever store reads it: the versions
of an object are those from 1 to its head without a gap, each names the validation key of the one
before as its parent, nothing follows a tombstone, no two live objects have one path, and every
version validates with its content. A run may hold any calls, committed or failed, of any stores on
the package. -/
theorem Package.Reachable.validHistories {σ : Package} (h : Package.Reachable P container σ)
    (hm : m.Opens container) : ValidHistories P m σ.tables :=
  (h.sound.history m hm).toValidHistories h.sound.published

/-- The histories of the package that an import, a move and an erasure leave are valid. -/
theorem Package.Reachable.validHistories_sample : ∃ responses db,
    Package.exec .reference .reference Package.sampleCalls (.fresh (ascii "c"))
      = .ok (responses, db) ∧ ValidHistories .reference .reference db := by
  have hok : (Package.exec .reference .reference Package.sampleCalls
    (.fresh (ascii "c"))).isOk = true := by decide +kernel
  obtain ⟨⟨responses, db⟩, h⟩ := exists_of_isOk hok
  exact ⟨responses, db, h, Package.Reachable.validHistories
    (Package.reachable_of_exec Package.opens_reference h) Package.opens_reference⟩

end FileProvider
