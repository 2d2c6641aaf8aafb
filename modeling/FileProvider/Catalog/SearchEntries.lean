import FileProvider.Catalog.Search
import FileProvider.Library.Table
import Mathlib.Data.List.Induction

/-!
# The entries of the search index

`upsert` adds what one source knows of a file to what others have said before. The first source that
has a classification settles the title, the key, the classification and whether it is pending; the
other columns take what comes last. A set in memory says which paths have a row.

The specification folds over the calls: `Impl` is the table with the set, and what a row is after
the calls is told by the first and the last of those that succeeded. The triggers keep the rows of
the search index beside the entries.
-/

namespace FileProvider

open Bytes Fallible

structure FileSearchEntry where
  path : Bytes
  title : Bytes
  fileKey : Bytes
  mimeType : Bytes
  classification : Bytes
  searchTerms : Bytes
  size : UInt64
  hasClassification : Bool
  hasPresentation : Bool
  metadataPending : Bool
deriving DecidableEq

namespace FileSearchIndex

/-- A row of `entries`. -/
structure EntryRow where
  id : Nat
  path : Bytes
  title : Bytes
  fileKey : Bytes
  mime : Bytes
  classification : Bytes
  size : Nat
  classified : Nat
  presented : Nat
  pending : Nat
  terms : Bytes
deriving DecidableEq

/-- A row of `search_index`. -/
structure IndexRow where
  rowid : Nat
  path : Bytes
  terms : Bytes
deriving DecidableEq

/-- `FileSearchIndex::Impl`: the tables in memory, and the paths that have a row. -/
structure Impl where
  entries : Table EntryRow.path
  searchIndex : List IndexRow
  indexed : List Bytes

def Impl.empty : Impl := ⟨.empty, [], []⟩

/-! ## The statement -/

/-- The row that is inserted for an entry. -/
def insertedRow (id : Nat) (e : FileSearchEntry) : EntryRow where
  id
  path := e.path
  title := e.title
  fileKey := e.fileKey
  mime := e.mimeType
  classification := e.classification
  size := min e.size.toNat (2 ^ 63 - 1)
  classified := e.hasClassification.toNat
  presented := e.hasPresentation.toNat
  pending := e.metadataPending.toNat
  terms := e.searchTerms

/-- `ON CONFLICT(path) DO UPDATE SET`. -/
def updatedRow (excluded entries : EntryRow) : EntryRow where
  id := entries.id
  path := entries.path
  title :=
    if entries.classified = 1 then entries.title
    else if excluded.classified = 1 then excluded.title
    else entries.title
  fileKey := if entries.classified = 1 then entries.fileKey else excluded.fileKey
  mime := if excluded.mime ≠ [] then excluded.mime else entries.mime
  classification :=
    if entries.classified = 1 then entries.classification else excluded.classification
  size := excluded.size
  classified := max entries.classified excluded.classified
  presented := max entries.presented excluded.presented
  pending := if entries.classified = 1 then entries.pending else excluded.pending
  terms := entries.terms ++ 32 :: excluded.terms

/-- The row of `search_index` that the triggers keep for a row of `entries`. -/
def indexRow (r : EntryRow) : IndexRow := ⟨r.id, r.path, r.terms⟩

/-- The number of a new row. -/
def nextId (entries : List EntryRow) : Nat := (entries.map (·.id)).foldr max 0 + 1

@[simp] theorem insertedRow_path (id : Nat) (e : FileSearchEntry) :
    (insertedRow id e).path = e.path := rfl

@[simp] theorem updatedRow_path (excluded r : EntryRow) :
    (updatedRow excluded r).path = r.path := rfl

/-- The statement of `upsert`, and the triggers. -/
def insertOrMerge (d : Impl) (e : FileSearchEntry) : Impl :=
  let row := insertedRow (nextId d.entries.rows) e
  match h : d.entries.find e.path with
  | none =>
      { d with
        entries := d.entries.insertNew row ((congrArg _ (insertedRow_path _ e)).trans h)
        searchIndex := d.searchIndex ++ [indexRow row] }
  | some old =>
      { d with
        entries := d.entries.modify e.path (updatedRow row) (updatedRow_path row)
        searchIndex := d.searchIndex.map fun r =>
          if r.rowid = old.id then indexRow (updatedRow row old) else r }

/-! ## The calls -/

/-- A field that cannot be bound. -/
def exceeds (e : FileSearchEntry) : Bool :=
  [e.path, e.title, e.fileKey, e.mimeType, e.classification, e.searchTerms].any
    fun field => 2 ^ 31 - 1 < field.length

/-- `upsert`; the database does the statement, or fails and leaves the tables. -/
def upsert (e : FileSearchEntry) (failure : Option String) (d : Impl) : Fallible Bool × Impl :=
  if e.path = [] ∨ 0 ∈ e.path then (.error "Search path is empty or contains NUL", d)
  else
    let created : Bool := e.path ∉ d.indexed
    let d := if created then { d with indexed := e.path :: d.indexed } else d
    match failure.or (if exceeds e then some "Search field exceeds SQLite limit" else none) with
    | some message =>
        (.error message,
          if created then { d with indexed := d.indexed.filter (· ≠ e.path) } else d)
    | none => (.ok created, insertOrMerge d e)

def contains (d : Impl) (path : Bytes) : Bool := path ∈ d.indexed

/-! ## Sequences of calls -/

/-- A call of `upsert`, and what the database fails with. -/
structure Call where
  entry : FileSearchEntry
  failure : Option String

/-- What a call was given, and what it has returned. -/
abbrev Returned : Type := FileSearchEntry × Fallible Bool

/-- A sequence of calls: what they return, and the index they leave. -/
def run (d : Impl) : List Call → List Returned × Impl
  | [] => ([], d)
  | c :: calls =>
      let (r, d) := upsert c.entry c.failure d
      let (history, d) := run d calls
      ((c.entry, r) :: history, d)

/-- The entries of a path whose calls succeeded, in their order. -/
def supplied (history : List Returned) (path : Bytes) : List FileSearchEntry :=
  (history.filter fun r => r.1.path = path && r.2.isOk).map (·.1)

/-- What a row holds of the entries that were supplied for its path. -/
structure Merges (s : List FileSearchEntry) (r : EntryRow) : Prop where
  settled : ∀ e, s.find? (·.hasClassification) = some e →
    r.title = e.title ∧ r.fileKey = e.fileKey ∧ r.classification = e.classification
      ∧ r.pending = e.metadataPending.toNat
  unsettled : s.find? (·.hasClassification) = none →
    (∀ e, s.head? = some e → r.title = e.title) ∧
      ∀ e, s.getLast? = some e → r.fileKey = e.fileKey ∧ r.classification = e.classification
        ∧ r.pending = e.metadataPending.toNat
  mime : r.mime = ((s.map (·.mimeType)).filter (· ≠ [])).getLastD []
  size : ∀ e, s.getLast? = some e → r.size = min e.size.toNat (2 ^ 63 - 1)
  classified : r.classified = (s.any (·.hasClassification)).toNat
  presented : r.presented = (s.any (·.hasPresentation)).toNat
  terms : r.terms = [32].intercalate (s.map (·.searchTerms))

/-! ## One row -/

variable {s : List FileSearchEntry} {r : EntryRow} {e : FileSearchEntry}

/-- A new row is what merging its entry alone gives. -/
theorem merges_inserted (id : Nat) (e : FileSearchEntry) : Merges [e] (insertedRow id e) where
  settled e' h := by
    obtain rfl : e = e' := List.mem_singleton.1 (List.mem_of_find?_eq_some h) |>.symm
    exact ⟨rfl, rfl, rfl, rfl⟩
  unsettled _ := by
    refine ⟨fun e' h => ?_, fun e' h => ?_⟩
    · rw [← Option.some.inj h]
      rfl
    · rw [← Option.some.inj h]
      exact ⟨rfl, rfl, rfl⟩
  mime := by
    unfold insertedRow
    by_cases h : e.mimeType = []
    · simp [h]
    · simp [h]
  size e' h := by
    rw [← Option.some.inj h]
    rfl
  classified := by simp [insertedRow]
  presented := by simp [insertedRow]
  terms := by simp [insertedRow]

/-- The terms of a list that goes on. -/
theorem intercalate_concat {l : List Bytes} (hl : l ≠ []) (b : Bytes) :
    [32].intercalate (l ++ [b]) = [32].intercalate l ++ 32 :: b := by
  induction l with
  | nil => exact absurd rfl hl
  | cons a l ih =>
      cases l with
      | nil => simp
      | cons a' l =>
          rw [List.cons_append, List.cons_append, List.intercalate_cons_cons,
            List.intercalate_cons_cons, ← List.cons_append, ih (List.cons_ne_nil _ _)]
          simp only [List.append_assoc]

/-- The disjunction of two flags is the maximum of their numbers. -/
theorem toNat_or (a b : Bool) : (a || b).toNat = max a.toNat b.toNat := by
  cases a <;> cases b <;> rfl

/-- An entry adds to a row what the source says of it. What the first entry with a classification
has settled stays, and the columns that take the last value take that of the entry. -/
theorem Merges.updated (h : Merges s r) (hs : s ≠ []) (id : Nat) (e : FileSearchEntry) :
    Merges (s ++ [e]) (updatedRow (insertedRow id e) r) where
  settled e' he' := by
    have hclassified := h.classified
    rw [List.find?_append] at he'
    unfold updatedRow insertedRow
    dsimp only
    cases hfind : s.find? (·.hasClassification) with
    | some first =>
        have hany : s.any (·.hasClassification) = true :=
          List.any_eq_true.2 ⟨first, List.mem_of_find?_eq_some hfind,
            List.find?_some (p := FileSearchEntry.hasClassification) hfind⟩
        obtain rfl : first = e' := by simpa [hfind] using he'
        rw [hclassified, hany]
        exact h.settled first hfind
    | none =>
        have hany : s.any (·.hasClassification) = false := by
          simpa using hfind
        rw [hfind, Option.none_or] at he'
        obtain rfl : e = e' := List.mem_singleton.1 (List.mem_of_find?_eq_some he') |>.symm
        have he : e.hasClassification = true := List.find?_some
          (p := FileSearchEntry.hasClassification) he'
        rw [hclassified, hany, he]
        exact ⟨rfl, rfl, rfl, rfl⟩
  unsettled hnone := by
    rw [List.find?_append, Option.or_eq_none_iff] at hnone
    have hany : s.any (·.hasClassification) = false := by
      simpa using hnone.1
    have he : e.hasClassification = false := by
      simpa using hnone.2
    unfold updatedRow insertedRow
    dsimp only
    rw [h.classified, hany, he]
    refine ⟨fun e' he' => ?_, fun e' he' => ?_⟩
    · rw [List.head?_append_of_ne_nil _ hs] at he'
      exact (h.unsettled hnone.1).1 e' he'
    · rw [List.getLast?_concat] at he'
      rw [← Option.some.inj he']
      exact ⟨rfl, rfl, rfl⟩
  mime := by
    unfold updatedRow insertedRow
    dsimp only
    rw [List.map_append, List.filter_append]
    by_cases hmime : e.mimeType = []
    · simpa [hmime] using h.mime
    · simp [hmime]
  size e' he' := by
    rw [List.getLast?_concat] at he'
    rw [← Option.some.inj he']
    rfl
  classified := by
    rw [List.any_append, toNat_or, ← h.classified]
    simp [updatedRow, insertedRow]
  presented := by
    rw [List.any_append, toNat_or, ← h.presented]
    simp [updatedRow, insertedRow]
  terms := by
    rw [List.map_append, List.map_singleton, intercalate_concat (by simpa using hs), ← h.terms]
    rfl

/-- Every term that was supplied is in those of the row. -/
theorem infix_intercalate {l : List Bytes} {b : Bytes} (h : b ∈ l) :
    b <:+: [32].intercalate l := by
  induction l using List.reverseRecOn with
  | nil => cases h
  | append_singleton l a ih =>
      rcases List.eq_nil_or_concat l with rfl | hl
      · rw [List.mem_singleton.1 h]
        simp
      · have hne : l ≠ [] := by
          obtain ⟨l', a', rfl⟩ := hl
          simp
        rw [intercalate_concat hne]
        rcases List.mem_append.1 h with h | h
        · exact (ih h).trans (List.prefix_append _ _).isInfix
        · rw [List.mem_singleton.1 h, List.append_cons]
          exact (List.suffix_append _ _).isInfix

/-! ## The statement and the table -/

variable {d : Impl}

/-- The next number is above all that are in use. -/
theorem lt_nextId {l : List EntryRow} (h : r ∈ l) : r.id < nextId l := by
  unfold nextId
  induction l with
  | nil => cases h
  | cons a l ih =>
      rw [List.map_cons, List.foldr_cons]
      rcases List.mem_cons.1 h with rfl | h
      · omega
      · have hlt := ih h
        omega

/-- The tables agree: each row of `entries` has its row in `search_index`, and the numbers of the
rows are distinct. -/
structure Mirrored (d : Impl) : Prop where
  searchIndex : d.searchIndex = d.entries.rows.map indexRow
  ids : (d.entries.rows.map (·.id)).Nodup

/-- The statement inserts the entry, or merges it into the row of its path, and leaves the other
paths. -/
theorem find_insertOrMerge (d : Impl) (e : FileSearchEntry) (p : Bytes) :
    (insertOrMerge d e).entries.find p =
      if p = e.path then
        match d.entries.find e.path with
        | none => some (insertedRow (nextId d.entries.rows) e)
        | some old => some (updatedRow (insertedRow (nextId d.entries.rows) e) old)
      else d.entries.find p := by
  unfold insertOrMerge
  dsimp only
  split
  · next h =>
      dsimp only
      rw [Table.find_insertNew, h]
      refine if_congr ?_ rfl rfl
      exact eq_comm
  · next old h =>
      dsimp only
      rw [Table.find_modify, h]
      split
      · next hp => rw [hp, h]
                   rfl
      · rfl

/-- The statement leaves the full-text index, which the caller writes. -/
theorem indexed_insertOrMerge (d : Impl) (e : FileSearchEntry) :
    (insertOrMerge d e).indexed = d.indexed := by
  unfold insertOrMerge
  dsimp only
  split <;> rfl

/-- The index mirrors the rows again after the statement of the caller. The triggers write the row
of the index in the statement that writes the entry, for a new row and for one that is merged. -/
theorem Mirrored.insertOrMerge (h : Mirrored d) (e : FileSearchEntry) :
    Mirrored (insertOrMerge d e) := by
  unfold FileSearchIndex.insertOrMerge
  dsimp only
  split
  · next hnone =>
      refine ⟨?_, ?_⟩
      · dsimp only [Table.insertNew]
        rw [List.map_append, h.searchIndex]
        rfl
      · dsimp only [Table.insertNew]
        rw [List.map_append, List.nodup_append]
        refine ⟨h.ids, List.nodup_singleton _, ?_⟩
        rintro a ha b hb rfl
        obtain ⟨r, hr, rfl⟩ := List.mem_map.1 ha
        have hid := List.mem_singleton.1 hb
        have hlt := lt_nextId hr
        rw [hid] at hlt
        exact Nat.lt_irrefl _ hlt
  · next old hold =>
      obtain ⟨hmem, hpath⟩ := Table.find_eq_some.1 hold
      refine ⟨?_, ?_⟩
      · dsimp only [Table.modify]
        rw [h.searchIndex, List.map_map, List.map_map]
        refine List.map_congr_left fun r hr => ?_
        show (if r.id = old.id then _ else indexRow r) = indexRow (if r.path = e.path then _ else r)
        by_cases hid : r.id = old.id
        · obtain rfl : r = old := List.inj_on_of_nodup_map h.ids hr hmem hid
          rw [if_pos rfl, if_pos hpath]
        · have hne : r.path ≠ e.path := by
            intro hp
            exact hid (congrArg _ (Table.eq_of_key_eq hr hmem (hp.trans hpath.symm)))
          rw [if_neg hid, if_neg hne]
      · dsimp only [Table.modify]
        rw [List.map_map]
        have hsame : (d.entries.rows.map ((·.id) ∘ fun r => if r.path = e.path then
            updatedRow (insertedRow (nextId d.entries.rows) e) r else r))
            = d.entries.rows.map (·.id) := by
          refine List.map_congr_left fun r _ => ?_
          dsimp only [Function.comp_apply]
          split <;> rfl
        rw [hsame]
        exact h.ids

/-! ## One call -/

/-- A call fails and leaves everything, or it succeeds: then the path is in the set, and the
statement is done. -/
theorem upsert_cases (e : FileSearchEntry) (failure : Option String) (d : Impl) :
    (∃ message, upsert e failure d = (.error message, d)) ∨
      upsert e failure d = (.ok (decide (e.path ∉ d.indexed)), insertOrMerge { d with
        indexed := if e.path ∈ d.indexed then d.indexed else e.path :: d.indexed } e) := by
  unfold upsert
  split
  · exact .inl ⟨_, rfl⟩
  · dsimp only
    generalize failure.or _ = failed
    cases failed with
    | none =>
        refine .inr ?_
        by_cases h : e.path ∈ d.indexed
        · simp [h]
        · simp [h]
    | some message =>
        refine .inl ⟨message, ?_⟩
        by_cases h : e.path ∈ d.indexed
        · simp [h]
        · have hfilter : (e.path :: d.indexed).filter (· ≠ e.path) = d.indexed := by
            rw [List.filter_cons_of_neg (by simp)]
            refine List.filter_eq_self.2 fun p hp => decide_eq_true ?_
            rintro rfl
            exact h hp
          simp only [h, not_false_eq_true, decide_true, if_true]
          rw [hfilter]

/-! ## Every sequence of calls -/

/-- What was supplied for a path is collected call by call. -/
theorem supplied_append (history more : List Returned) (p : Bytes) :
    supplied (history ++ more) p = supplied history p ++ supplied more p := by
  unfold supplied
  rw [List.filter_append, List.map_append]

/-- A call that failed has supplied nothing. -/
theorem supplied_error (e : FileSearchEntry) (message : String) (p : Bytes) :
    supplied [(e, .error message)] p = [] := by
  unfold supplied
  simp [Except.isOk, Except.toBool]

/-- A call that returned has supplied its entry for its own path. -/
theorem supplied_ok (e : FileSearchEntry) (b : Bool) (p : Bytes) :
    supplied [(e, .ok b)] p = if p = e.path then [e] else [] := by
  unfold supplied
  by_cases h : p = e.path
  · simp [h, Except.isOk, Except.toBool]
  · have hne : ¬ e.path = p := fun hp => h hp.symm
    simp [h, hne]

/-- What holds of the index behind a history. -/
structure Holds (d : Impl) (history : List Returned) : Prop where
  mirrored : Mirrored d
  indexed : ∀ p, p ∈ d.indexed ↔ supplied history p ≠ []
  rows : ∀ p, (d.entries.find p).isSome = true ↔ supplied history p ≠ []
  merges : ∀ p r, d.entries.find p = some r → Merges (supplied history p) r
  firsts : ∀ before e b after, history = before ++ (e, .ok b) :: after →
    (b = true ↔ supplied before e.path = [])

/-- An empty index holds what no call has supplied. -/
theorem holds_empty : Holds .empty [] where
  mirrored := ⟨rfl, .nil⟩
  indexed p := ⟨fun h => absurd h List.not_mem_nil, fun h => absurd rfl h⟩
  rows p := ⟨fun h => Bool.noConfusion h, fun h => absurd rfl h⟩
  merges p r h := by
    cases h
  firsts before e b after h := by simp at h

/-- What a history that goes on says of its successes. -/
theorem firsts_concat {history : List Returned} {e : FileSearchEntry} {r : Fallible Bool}
    (h : ∀ before e b after, history = before ++ (e, .ok b) :: after →
      (b = true ↔ supplied before e.path = []))
    (hr : ∀ b, r = .ok b → (b = true ↔ supplied history e.path = []))
    (before : List Returned) (e' : FileSearchEntry) (b : Bool) (after : List Returned)
    (heq : history ++ [(e, r)] = before ++ (e', .ok b) :: after) :
    b = true ↔ supplied before e'.path = [] := by
  rcases List.eq_nil_or_concat after with rfl | ⟨after', last, rfl⟩
  · obtain ⟨rfl, hlast⟩ := List.append_inj' heq rfl
    obtain ⟨rfl, rfl⟩ := Prod.mk.inj (List.cons.inj hlast).1
    exact hr b rfl
  · rw [List.concat_eq_append, ← List.cons_append, ← List.append_assoc] at heq
    exact h _ _ _ _ (List.append_inj' heq rfl).1

/-- Each call, returned or failed, keeps the index holding what was supplied. A call that fails has
rolled its statement back, so it counts for nothing in the history. -/
theorem Holds.upsert {history : List Returned} (h : Holds d history) (e : FileSearchEntry)
    (failure : Option String) :
    Holds (upsert e failure d).2 (history ++ [(e, (upsert e failure d).1)]) := by
  rcases upsert_cases e failure d with ⟨message, hrun⟩ | hrun
  · rw [hrun]
    have hsame : ∀ p, supplied (history ++ [(e, .error message)]) p = supplied history p := by
      intro p
      rw [supplied_append, supplied_error, List.append_nil]
    exact
      { mirrored := h.mirrored
        indexed := fun p => by rw [hsame]; exact h.indexed p
        rows := fun p => by rw [hsame]; exact h.rows p
        merges := fun p r hr => by rw [hsame]; exact h.merges p r hr
        firsts := firsts_concat h.firsts fun b hb => by cases hb }
  · rw [hrun]
    have hsame : ∀ p b, supplied (history ++ [(e, .ok b)]) p
        = supplied history p ++ if p = e.path then [e] else [] := by
      intro p b
      rw [supplied_append, supplied_ok]
    exact
      { mirrored := by
          refine Mirrored.insertOrMerge ?_ e
          exact ⟨h.mirrored.searchIndex, h.mirrored.ids⟩
        indexed := fun p => by
          rw [hsame, indexed_insertOrMerge]
          dsimp only
          have hp := h.indexed p
          by_cases hpath : p = e.path
          · subst hpath
            by_cases hin : e.path ∈ d.indexed
            · simp [hin]
            · simp [hin]
          · rw [if_neg hpath, List.append_nil, ← hp]
            split
            · exact Iff.rfl
            · simp [hpath]
        rows := fun p => by
          rw [hsame, find_insertOrMerge]
          by_cases hpath : p = e.path
          · rw [if_pos hpath, if_pos hpath]
            dsimp only
            cases d.entries.find e.path with
            | none => simp
            | some old => simp
          · rw [if_neg hpath, if_neg hpath, List.append_nil]
            exact h.rows p
        merges := fun p r hr => by
          rw [hsame]
          rw [find_insertOrMerge] at hr
          by_cases hpath : p = e.path
          · subst hpath
            rw [if_pos rfl] at hr ⊢
            dsimp only at hr
            have hrow := h.rows e.path
            cases hfind : d.entries.find e.path with
            | none =>
                rw [hfind] at hr hrow
                have hnil : supplied history e.path = [] := by
                  by_contra hne
                  exact Bool.false_ne_true (hrow.2 hne)
                rw [hnil, ← Option.some.inj hr]
                exact merges_inserted _ e
            | some old =>
                rw [hfind] at hr hrow
                rw [← Option.some.inj hr]
                exact (h.merges _ _ hfind).updated (hrow.1 rfl) _ e
          · rw [if_neg hpath] at hr ⊢
            rw [List.append_nil]
            exact h.merges p r hr
        firsts := firsts_concat h.firsts fun b hb => by
          rw [← Except.ok.inj hb, decide_eq_true_iff, h.indexed, not_not] }

/-- Any calls do so, by induction on them. -/
theorem Holds.run {history : List Returned} (h : Holds d history) (calls : List Call) :
    Holds (run d calls).2 (history ++ (run d calls).1) := by
  induction calls generalizing d history with
  | nil =>
      rw [FileSearchIndex.run, List.append_nil]
      exact h
  | cons c calls ih =>
      have hnext := ih (h.upsert c.entry c.failure)
      rw [List.append_assoc] at hnext
      exact hnext

/-- A run returns one answer for each of its calls. -/
theorem run_entries (d : Impl) (calls : List Call) :
    (run d calls).1.map (·.1) = calls.map (·.entry) := by
  induction calls generalizing d with
  | nil => rfl
  | cons c calls ih =>
      show c.entry :: (FileSearchIndex.run _ calls).1.map (·.1) = c.entry :: calls.map (·.entry)
      rw [ih]

/-- **The entries of the index**, behind every sequence of calls of which some may have failed: the
paths in the set are those that have a row and those whose calls have succeeded; the row holds what
the entries that were supplied come to; and a call gives true exactly when it is the first of its
path that succeeds. -/
theorem upsert_merges (calls : List Call) :
    (run .empty calls).1.map (·.1) = calls.map (·.entry) ∧
      (∀ p, contains (run .empty calls).2 p = true ↔
        ∃ r ∈ (run .empty calls).2.entries, r.path = p) ∧
      (∀ p, contains (run .empty calls).2 p = true ↔ supplied (run .empty calls).1 p ≠ []) ∧
      (∀ r ∈ (run .empty calls).2.entries, Merges (supplied (run .empty calls).1 r.path) r ∧
        ∀ e ∈ supplied (run .empty calls).1 r.path, e.searchTerms <:+: r.terms) ∧
      ∀ before e b after, (run .empty calls).1 = before ++ (e, .ok b) :: after →
        (b = true ↔ supplied before e.path = []) := by
  have h := holds_empty.run calls
  rw [List.nil_append] at h
  have hcontains : ∀ p, contains (run .empty calls).2 p = true ↔
      supplied (run .empty calls).1 p ≠ [] := by
    intro p
    rw [contains, decide_eq_true_iff]
    exact h.indexed p
  refine ⟨run_entries _ calls, fun p => ?_, hcontains, fun r hr => ?_, h.firsts⟩
  · rw [hcontains, ← h.rows, Table.find_isSome]
  · have hmerges := h.merges r.path r (Table.mem_iff_find.1 hr)
    refine ⟨hmerges, fun e he => ?_⟩
    rw [hmerges.terms]
    exact infix_intercalate (List.mem_map_of_mem he)

/-- What a source knows of the file `a`. -/
def sampleEntry (title terms : String) (hasClassification : Bool) : FileSearchEntry where
  path := ascii "a"
  title := ascii title
  fileKey := []
  mimeType := []
  classification := ascii title
  searchTerms := ascii terms
  size := 1
  hasClassification
  hasPresentation := false
  metadataPending := false

/-- Three sources of one file, between which a call fails; and a file of which no call succeeds. -/
def sampleUpserts : List Call :=
  [⟨sampleEntry "one" "x" false, none⟩, ⟨sampleEntry "lost" "y" true, some "disk I/O error"⟩,
    ⟨{ sampleEntry "b" "y" true with path := ascii "b" }, some "disk I/O error"⟩,
    ⟨sampleEntry "two" "z" true, none⟩, ⟨sampleEntry "three" "w" true, none⟩]

/-- The row of the file has the title of the first source with a classification and the terms of the
three calls that succeeded; the other file is not in the index. -/
theorem upsert_merges_sample :
    contains (run .empty sampleUpserts).2 (ascii "b") = false ∧
    ∃ r ∈ (run .empty sampleUpserts).2.entries, r.path = ascii "a" ∧ r.title = ascii "two" ∧
      r.terms = ascii "x z w" := by
  obtain ⟨-, hrows, hcontains, hmerges, -⟩ := upsert_merges sampleUpserts
  have hsupplied : supplied (run .empty sampleUpserts).1 (ascii "a")
      = [sampleEntry "one" "x" false, sampleEntry "two" "z" true,
        sampleEntry "three" "w" true] := by
    decide +kernel
  refine ⟨Bool.eq_false_iff.2 fun hthere => ?_, ?_⟩
  · exact (hcontains (ascii "b")).1 hthere (by decide +kernel)
  · have hthere : contains (run .empty sampleUpserts).2 (ascii "a") = true :=
      (hcontains (ascii "a")).2 (by rw [hsupplied]; exact List.cons_ne_nil _ _)
    obtain ⟨r, hr, hpath⟩ := (hrows (ascii "a")).1 hthere
    have hrow := (hmerges r hr).1
    rw [hpath, hsupplied] at hrow
    refine ⟨r, hr, hpath, (hrow.settled (sampleEntry "two" "z" true) rfl).1, ?_⟩
    rw [hrow.terms]
    decide

def largeEntry : FileSearchEntry :=
  ⟨[97], [97], [], [], [], [], 18446744073709551615, false, false, false⟩

/-- The size of a row is that of the last entry only up to the largest integer of the database. -/
theorem upsert_size_capped : ¬ ∀ (calls : List Call), ∀ r ∈ (run .empty calls).2.entries,
    ∀ e, (supplied (run .empty calls).1 r.path).getLast? = some e → r.size = e.size.toNat := by
  intro h
  have hrow := h [⟨largeEntry, none⟩] (insertedRow 1 largeEntry) (List.mem_singleton_self _)
    largeEntry rfl
  exact absurd hrow (by decide)

end FileSearchIndex

end FileProvider
