import FileProvider.Library.Table

/-!
# Tables with unique columns

A keyed table whose rows also differ in other columns. A write that would break the uniqueness of
a column is refused, so the uniqueness is a field of the table. What a write that succeeds did is
what the same write does to the keyed table.

The columns are a list of functions on rows with values in one type, and `findBy` finds a row by any
of them. A write checks the uniqueness again, and `ofTable` is the check.
-/

/-- A keyed table whose rows differ in each of the given columns. -/
structure UniqueTable {ρ κ γ : Type} (key : ρ → κ) (columns : List (ρ → γ)) extends
    Table key where
  unique : ∀ c ∈ columns, (rows.map c).Nodup

namespace UniqueTable

variable {ρ κ γ : Type} {key : ρ → κ} {columns : List (ρ → γ)} [DecidableEq κ] [DecidableEq γ]

/-- The table without rows. -/
def empty : UniqueTable key columns := ⟨.empty, fun _ _ => .nil⟩

instance : Membership ρ (UniqueTable key columns) := ⟨fun t r => r ∈ t.toTable⟩

omit [DecidableEq κ] [DecidableEq γ] in
/-- The members are those of the underlying table. -/
theorem mem_def {t : UniqueTable key columns} {r : ρ} : r ∈ t ↔ r ∈ t.toTable := Iff.rfl

/-- A keyed table that keeps the columns unique. -/
def ofTable (t : Table key) : Option (UniqueTable key columns) :=
  if h : ∀ c ∈ columns, (t.rows.map c).Nodup then some ⟨t, h⟩ else none

/-- The row of a key. -/
def find (t : UniqueTable key columns) (k : κ) : Option ρ := t.toTable.find k

/-- The row with a value in a column. -/
def findBy (t : UniqueTable key columns) (c : ρ → γ) (v : γ) : Option ρ :=
  t.rows.find? fun r => c r = v

/-- An insert, which a row that agrees in the key or in a column refuses. -/
def insert (t : UniqueTable key columns) (r : ρ) : Option (UniqueTable key columns) :=
  (t.toTable.insert r).bind ofTable

/-- An update of the row of a key, which another row that agrees in a column refuses. -/
def modify (t : UniqueTable key columns) (k : κ) (f : ρ → ρ) (hf : ∀ r, key (f r) = key r) :
    Option (UniqueTable key columns) :=
  ofTable (t.toTable.modify k f hf)

/-- An update of rows that leaves their keys and their unique columns. -/
def update (t : UniqueTable key columns) (f : ρ → ρ) (hkey : ∀ r, key (f r) = key r)
    (hcolumns : ∀ c ∈ columns, ∀ r, c (f r) = c r) : UniqueTable key columns where
  rows := t.rows.map f
  nodup := by
    rw [List.map_map, show key ∘ f = key from funext hkey]
    exact t.nodup
  unique c hc := by
    rw [List.map_map, show c ∘ f = c from funext (hcolumns c hc)]
    exact t.unique c hc

/-- The table without the rows of a key. -/
def erase (t : UniqueTable key columns) (k : κ) : UniqueTable key columns where
  toTable := t.toTable.filter fun r => key r ≠ k
  unique c hc := (t.unique c hc).sublist (List.filter_sublist.map c)

omit [DecidableEq κ] in
/-- A table whose columns are unique is kept as it is. -/
theorem ofTable_eq_some {t : Table key} {t' : UniqueTable key columns} (h : ofTable t = some t') :
    t'.toTable = t := by
  unfold ofTable at h
  split at h
  · rw [← Option.some.inj h]
  · cases h

omit [DecidableEq γ] in
@[simp] theorem find_empty (k : κ) : (empty : UniqueTable key columns).find k = none := rfl

omit [DecidableEq γ] in
/-- A row is found under a key exactly when it is there and has that key. -/
theorem find_eq_some {t : UniqueTable key columns} {k : κ} {r : ρ} :
    t.find k = some r ↔ r ∈ t ∧ key r = k :=
  Table.find_eq_some

omit [DecidableEq γ] in
/-- A row is there exactly when it is found under its own key. -/
theorem mem_iff_find {t : UniqueTable key columns} {r : ρ} : r ∈ t ↔ t.find (key r) = some r :=
  Table.mem_iff_find

omit [DecidableEq κ] [DecidableEq γ] in
/-- Rows that agree in a unique column are one row. -/
theorem eq_of_column_eq {t : UniqueTable key columns} {c : ρ → γ} (hc : c ∈ columns) {r s : ρ}
    (hr : r ∈ t) (hs : s ∈ t) (h : c r = c s) : r = s :=
  List.inj_on_of_nodup_map (t.unique c hc) hr hs h

omit [DecidableEq κ] in
/-- A row is found by a unique column exactly when it is there with that value. -/
theorem findBy_eq_some {t : UniqueTable key columns} {c : ρ → γ} (hc : c ∈ columns) {v : γ}
    {r : ρ} : t.findBy c v = some r ↔ r ∈ t ∧ c r = v := by
  constructor
  · intro h
    exact ⟨List.mem_of_find?_eq_some h, by simpa using List.find?_some h⟩
  · rintro ⟨hr, rfl⟩
    cases hf : t.findBy c (c r) with
    | none => exact absurd (List.find?_eq_none.1 hf r hr) (by simp)
    | some s =>
        have hs : c s = c r := by simpa using List.find?_some hf
        rw [eq_of_column_eq hc hr (List.mem_of_find?_eq_some hf) hs.symm]

omit [DecidableEq κ] in
/-- Nothing is found by a column exactly when no row has the value. -/
theorem findBy_eq_none {t : UniqueTable key columns} {c : ρ → γ} {v : γ} :
    t.findBy c v = none ↔ ∀ r ∈ t, c r ≠ v := by
  rw [findBy, List.find?_eq_none]
  exact forall₂_congr fun r _ => by rw [decide_eq_true_eq]

/-- What a successful insert did. -/
theorem insert_eq_some {t t' : UniqueTable key columns} {r : ρ} (h : t.insert r = some t') :
    t.toTable.insert r = some t'.toTable := by
  obtain ⟨u, hu, ht'⟩ := Option.bind_eq_some_iff.1 h
  rw [hu, ofTable_eq_some ht']

/-- An insert that no row stands against. -/
theorem exists_insert {t : UniqueTable key columns} {r : ρ} (hkey : t.find (key r) = none)
    (hcolumns : ∀ c ∈ columns, ∀ s ∈ t, c s ≠ c r) : ∃ t', t.insert r = some t' := by
  have hunique : ∀ c ∈ columns, (((t.toTable.insertNew r hkey).rows).map c).Nodup := by
    intro c hc
    show ((t.rows ++ [r]).map c).Nodup
    rw [List.map_append, List.nodup_append]
    refine ⟨t.unique c hc, List.nodup_singleton _, ?_⟩
    intro v hv w hw
    obtain ⟨s, hs, rfl⟩ := List.mem_map.1 hv
    rw [List.mem_singleton.1 hw]
    exact hcolumns c hc s hs
  refine ⟨⟨t.toTable.insertNew r hkey, hunique⟩, ?_⟩
  unfold insert
  rw [Table.insert_eq_some.2 ⟨hkey, rfl⟩, Option.bind_some]
  exact dif_pos hunique

/-- An insertion succeeds under a free key; then the row is found, and the others as before. -/
theorem find_insert {t t' : UniqueTable key columns} {r : ρ} (h : t.insert r = some t') :
    t.find (key r) = none ∧ ∀ k, t'.find k = if key r = k then some r else t.find k :=
  Table.find_insert (insert_eq_some h)

/-- An insertion adds one row. -/
theorem mem_insert {t t' : UniqueTable key columns} {r s : ρ} (h : t.insert r = some t') :
    s ∈ t' ↔ s ∈ t ∨ s = r :=
  Table.mem_insert (insert_eq_some h)

/-- What a successful update did. -/
theorem find_modify {t t' : UniqueTable key columns} {k : κ} {f : ρ → ρ}
    {hf : ∀ r, key (f r) = key r} (h : t.modify k f hf = some t') (k' : κ) :
    t'.find k' = if k' = k then (t.find k').map f else t.find k' := by
  unfold find
  rw [ofTable_eq_some h]
  exact Table.find_modify _ _ _ _ _

/-- The rows after a modification are those before, with the one of the key changed. -/
theorem mem_modify {t t' : UniqueTable key columns} {k : κ} {f : ρ → ρ}
    {hf : ∀ r, key (f r) = key r} (h : t.modify k f hf = some t') {s : ρ} :
    s ∈ t' ↔ ∃ r ∈ t, (if key r = k then f r else r) = s := by
  rw [mem_def, ofTable_eq_some h, Table.mem_modify]
  rfl

omit [DecidableEq γ] in
/-- An update of all rows changes what is found under each key. -/
theorem find_update {t : UniqueTable key columns} {f : ρ → ρ} {hkey : ∀ r, key (f r) = key r}
    {hcolumns : ∀ c ∈ columns, ∀ r, c (f r) = c r} (k : κ) :
    (t.update f hkey hcolumns).find k = (t.find k).map f := by
  show List.find? _ (t.rows.map f) = (List.find? _ t.rows).map f
  rw [List.find?_map]
  simp only [Function.comp_def, hkey]

omit [DecidableEq γ] in
/-- Erasing takes the row of one key away. -/
theorem mem_erase {t : UniqueTable key columns} {k : κ} {r : ρ} :
    r ∈ t.erase k ↔ r ∈ t ∧ key r ≠ k := by
  show r ∈ t.toTable.filter _ ↔ _
  rw [Table.mem_filter, decide_eq_true_eq]
  rfl

omit [DecidableEq γ] in
/-- After erasing nothing is found under the key, and the others as before. -/
theorem find_erase (t : UniqueTable key columns) (k k' : κ) :
    (t.erase k).find k' = if k' = k then none else t.find k' := by
  show (t.toTable.filter fun r => key r ≠ k).find k' = _
  rw [Table.find_filter]
  cases hf : t.toTable.find k' with
  | none =>
      rw [show t.find k' = none from hf, ite_self]
      rfl
  | some r =>
      have hk := Table.key_of_find hf
      rw [show t.find k' = some r from hf]
      split
      · next h => rw [Option.filter_some, if_neg (by simp [hk, h])]
      · next h => rw [Option.filter_some, if_pos (by simpa [hk] using h)]

end UniqueTable
