import Mathlib.Data.List.Nodup
import Mathlib.Data.List.Perm.Basic

/-!
# Keyed tables

A table of rows with a key that is unique among them: the rows stand in the order of their
insertion, and the uniqueness is a field, so that a table that breaks it cannot be built.
The operations are those of the statements that write such a table: `insertNew` (an insert
of an absent key), `upsert` (insert or replace), `orInsert` (insert or ignore), `modify`
(an update of one row) and `filter` (a delete). Each has one lemma that says what `find`
answers after it.

A table finds at most one row for a key. `find` is a function, so two tables with the same rows in
another order find the same; where the order matters, as for the numbers a table gives out, the
lemmas speak of `rows`.
-/

/-- Rows with a unique key, in the order of their insertion. -/
@[ext] structure Table {ρ κ : Type} (key : ρ → κ) where
  rows : List ρ
  nodup : (rows.map key).Nodup

namespace Table

variable {ρ κ : Type} {key : ρ → κ}

/-- The table without rows. -/
def empty : Table key := ⟨[], .nil⟩

instance : Inhabited (Table key) := ⟨empty⟩

instance : Membership ρ (Table key) := ⟨fun t r => r ∈ t.rows⟩

/-- The rows of a table are its members. -/
theorem mem_def {t : Table key} {r : ρ} : r ∈ t ↔ r ∈ t.rows := Iff.rfl

@[simp] theorem not_mem_empty (r : ρ) : r ∉ (empty : Table key) := List.not_mem_nil

instance [DecidableEq ρ] (t : Table key) (r : ρ) : Decidable (r ∈ t) :=
  inferInstanceAs (Decidable (r ∈ t.rows))

/-- Rows of one key are one row. -/
theorem eq_of_key_eq {t : Table key} {r s : ρ} (hr : r ∈ t) (hs : s ∈ t) (h : key r = key s) :
    r = s :=
  List.inj_on_of_nodup_map t.nodup hr hs h

variable [DecidableEq κ]

/-- The row of a key. -/
def find (t : Table key) (k : κ) : Option ρ := t.rows.find? (fun r => key r = k)

@[simp] theorem find_empty (k : κ) : (empty : Table key).find k = none := rfl

/-- A row is found under a key exactly when it is in the table and has that key. -/
theorem find_eq_some {t : Table key} {k : κ} {r : ρ} : t.find k = some r ↔ r ∈ t ∧ key r = k := by
  constructor
  · intro h
    exact ⟨List.mem_of_find?_eq_some h, by simpa using List.find?_some h⟩
  · rintro ⟨hr, rfl⟩
    cases h : t.find (key r) with
    | none => exact absurd (List.find?_eq_none.1 h r hr) (by simp)
    | some s =>
        have hs : key s = key r := by simpa using List.find?_some h
        rw [eq_of_key_eq hr (List.mem_of_find?_eq_some h) hs.symm]

/-- Nothing is found under a key exactly when no row has it. -/
theorem find_eq_none {t : Table key} {k : κ} : t.find k = none ↔ ∀ r ∈ t, key r ≠ k := by
  simp only [find, List.find?_eq_none, decide_eq_true_eq, mem_def, ne_eq]

/-- A row is in the table exactly when it is found under its own key. -/
theorem mem_iff_find {t : Table key} {r : ρ} : r ∈ t ↔ t.find (key r) = some r := by
  simp [find_eq_some]

/-- What is found has the key. -/
theorem key_of_find {t : Table key} {k : κ} {r : ρ} (h : t.find k = some r) : key r = k :=
  (find_eq_some.1 h).2

/-- What is found is in the table. -/
theorem mem_of_find {t : Table key} {k : κ} {r : ρ} (h : t.find k = some r) : r ∈ t :=
  (find_eq_some.1 h).1

/-- Something is found under a key exactly when a row has it. -/
theorem find_isSome {t : Table key} {k : κ} : (t.find k).isSome ↔ ∃ r ∈ t, key r = k := by
  simp only [Option.isSome_iff_exists, find_eq_some]

/-! ## Writing -/

/-- The table with a row of a new key appended. -/
def insertNew (t : Table key) (r : ρ) (h : t.find (key r) = none) : Table key :=
  ⟨t.rows ++ [r], by
    rw [List.map_append, List.nodup_append]
    refine ⟨t.nodup, List.nodup_singleton _, ?_⟩
    rintro a ha b hb rfl
    obtain ⟨s, hs, rfl⟩ := List.mem_map.1 ha
    exact find_eq_none.1 h s hs (by simpa using hb)⟩

/-- An insert, which a row of the same key refuses. -/
def insert (t : Table key) (r : ρ) : Option (Table key) :=
  if h : t.find (key r) = none then some (t.insertNew r h) else none

/-- An insert that leaves the table as it is when the key is taken. -/
def orInsert (t : Table key) (r : ρ) : Table key :=
  if h : t.find (key r) = none then t.insertNew r h else t

/-- The table with the rows that satisfy `p`. -/
def filter (t : Table key) (p : ρ → Bool) : Table key :=
  ⟨t.rows.filter p, t.nodup.sublist ((List.filter_sublist).map key)⟩

omit [DecidableEq κ] in
@[simp] theorem mem_filter {t : Table key} {p : ρ → Bool} {r : ρ} :
    r ∈ t.filter p ↔ r ∈ t ∧ p r = true := List.mem_filter

omit [DecidableEq κ] in
/-- A delete that no row satisfies leaves the table as it is. -/
theorem filter_eq_self {t : Table key} {p : ρ → Bool} (h : ∀ r ∈ t, p r = true) :
    t.filter p = t :=
  Table.ext (List.filter_eq_self.2 h)

/-- Without the rows of a key nothing is found under it. -/
theorem find_filter_key_ne (t : Table key) (r : ρ) :
    (t.filter (fun s => key s ≠ key r)).find (key r) = none := by
  rw [find_eq_none]
  intro s hs
  simpa using (mem_filter.1 hs).2

/-- An insert that replaces the row of the same key. -/
def upsert (t : Table key) (r : ρ) : Table key :=
  (t.filter (fun s => key s ≠ key r)).insertNew r (t.find_filter_key_ne r)

/-- The table with the row of a key changed to one of the same key. -/
def modify (t : Table key) (k : κ) (f : ρ → ρ) (hf : ∀ r, key (f r) = key r) : Table key :=
  ⟨t.rows.map (fun r => if key r = k then f r else r), by
    rw [List.map_map, show key ∘ (fun r => if key r = k then f r else r) = key from ?_]
    · exact t.nodup
    · funext r
      simp only [Function.comp_apply]
      split
      · exact hf r
      · rfl⟩

@[simp] theorem mem_insertNew {t : Table key} {r s : ρ} {h : t.find (key r) = none} :
    s ∈ t.insertNew r h ↔ s ∈ t ∨ s = r := by
  simp [mem_def, insertNew]

/-- After an insertion the new row is found under its key, and the others as before. -/
theorem find_insertNew {t : Table key} {r : ρ} {h : t.find (key r) = none} (k : κ) :
    (t.insertNew r h).find k = if key r = k then some r else t.find k := by
  split
  · next hk => exact find_eq_some.2 ⟨mem_insertNew.2 (.inr rfl), hk⟩
  · next hk =>
      cases hf : t.find k with
      | some s =>
          obtain ⟨hs, hsk⟩ := find_eq_some.1 hf
          exact find_eq_some.2 ⟨mem_insertNew.2 (.inl hs), hsk⟩
      | none =>
          rw [find_eq_none] at hf ⊢
          intro s hs
          rcases mem_insertNew.1 hs with hs | rfl
          · exact hf s hs
          · exact hk

/-- An insertion succeeds exactly when nothing has the key. -/
theorem insert_eq_some {t t' : Table key} {r : ρ} :
    t.insert r = some t' ↔ ∃ h : t.find (key r) = none, t' = t.insertNew r h := by
  unfold insert
  split
  · next h => simp [h, eq_comm]
  · next h => simp [h]

/-- What a successful insert did: the key was free, and the row is the only change. -/
theorem find_insert {t t' : Table key} {r : ρ} (h : t.insert r = some t') :
    t.find (key r) = none ∧ ∀ k, t'.find k = if key r = k then some r else t.find k := by
  obtain ⟨hf, rfl⟩ := insert_eq_some.1 h
  exact ⟨hf, find_insertNew⟩

/-- An insertion adds one row. -/
theorem mem_insert {t t' : Table key} {r s : ρ} (h : t.insert r = some t') :
    s ∈ t' ↔ s ∈ t ∨ s = r := by
  obtain ⟨hf, rfl⟩ := insert_eq_some.1 h
  exact mem_insertNew

/-- A new row comes last. -/
theorem rows_insert {t t' : Table key} {r : ρ} (h : t.insert r = some t') :
    t'.rows = t.rows ++ [r] := by
  obtain ⟨hf, rfl⟩ := insert_eq_some.1 h
  rfl

/-- `INSERT OR IGNORE` keeps a row that has the key. -/
theorem find_orInsert (t : Table key) (r : ρ) (k : κ) :
    (t.orInsert r).find k = (t.find k).or (if key r = k then some r else none) := by
  unfold orInsert
  split
  · next h =>
      rw [find_insertNew]
      split
      · next hk => rw [← hk, h]; rfl
      · cases t.find k <;> rfl
  · next h =>
      split
      · next hk =>
          rw [hk] at h
          cases hf : t.find k with
          | none => exact absurd hf h
          | some s => rfl
      · cases t.find k <;> rfl

/-- `INSERT OR IGNORE` adds the row where nothing has the key. -/
theorem mem_orInsert {t : Table key} {r s : ρ} :
    s ∈ t.orInsert r ↔ s ∈ t ∨ (s = r ∧ t.find (key r) = none) := by
  unfold orInsert
  split
  · next h => simp [h]
  · next h => simp [h]

/-- Filtering filters what is found. -/
theorem find_filter (t : Table key) (p : ρ → Bool) (k : κ) :
    (t.filter p).find k = (t.find k).filter p := by
  cases hf : t.find k with
  | some r =>
      obtain ⟨hr, hk⟩ := find_eq_some.1 hf
      cases hp : p r with
      | true =>
          rw [Option.filter_some, if_pos hp]
          exact find_eq_some.2 ⟨mem_filter.2 ⟨hr, hp⟩, hk⟩
      | false =>
          rw [Option.filter_some, if_neg (by simp [hp]), find_eq_none]
          intro s hs hsk
          obtain ⟨hs, hps⟩ := mem_filter.1 hs
          rw [eq_of_key_eq hs hr (hsk.trans hk.symm), hp] at hps
          cases hps
  | none =>
      rw [Option.filter_none, find_eq_none]
      rw [find_eq_none] at hf
      exact fun s hs => hf s (mem_filter.1 hs).1

/-- An upsert takes the place of the row with its key. -/
theorem mem_upsert {t : Table key} {r s : ρ} :
    s ∈ t.upsert r ↔ (s ∈ t ∧ key s ≠ key r) ∨ s = r := by
  simp [upsert]

/-- After an upsert the row is found under its key, and the others as before. -/
theorem find_upsert (t : Table key) (r : ρ) (k : κ) :
    (t.upsert r).find k = if key r = k then some r else t.find k := by
  unfold upsert
  rw [find_insertNew]
  split
  · rfl
  · next hk =>
      rw [find_filter]
      cases hf : t.find k with
      | none => rfl
      | some s =>
          have hs := key_of_find hf
          rw [Option.filter_some, if_pos (by simpa [hs] using Ne.symm hk)]

/-- Modifying a row changes what is found under its key only. The change keeps the keys of the rows,
so that the table stays one with a single row for each key. -/
theorem find_modify (t : Table key) (k : κ) (f : ρ → ρ) (hf : ∀ r, key (f r) = key r) (k' : κ) :
    (t.modify k f hf).find k' = if k' = k then (t.find k').map f else t.find k' := by
  have mem : ∀ s, s ∈ t.modify k f hf ↔ ∃ r ∈ t, (if key r = k then f r else r) = s := by
    intro s
    simp [mem_def, modify]
  have some_case : ∀ r, t.find k' = some r →
      (t.modify k f hf).find k' = some (if key r = k then f r else r) := by
    intro r hr
    obtain ⟨hr, hk⟩ := find_eq_some.1 hr
    refine find_eq_some.2 ⟨(mem _).2 ⟨r, hr, rfl⟩, ?_⟩
    split
    · rw [hf, hk]
    · exact hk
  cases h : t.find k' with
  | some r =>
      rw [some_case r h, key_of_find h]
      split <;> rfl
  | none =>
      rw [Option.map_none, ite_self]
      rw [find_eq_none] at h ⊢
      intro s hs
      obtain ⟨r, hr, rfl⟩ := (mem s).1 hs
      split
      · rw [hf]; exact h r hr
      · exact h r hr

/-- The rows after a modification are those before, with the one of the key changed. -/
theorem mem_modify {t : Table key} {k : κ} {f : ρ → ρ} {h : ∀ r, key (f r) = key r} {s : ρ} :
    s ∈ t.modify k f h ↔ ∃ r ∈ t, (if key r = k then f r else r) = s := by
  simp [mem_def, modify]

end Table
