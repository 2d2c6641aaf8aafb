import Mathlib.Algebra.Ring.Nat
import Mathlib.Data.List.Basic
import Mathlib.Data.List.Sort
import Mathlib.Order.Basic
import FileProvider.Library.Outcome

/-!
# Keyset pages

A listing in strictly ascending key order is read in pages: a page holds the first rows past
a cursor, and the next cursor is the key of the page's last row. `follow_eq_take` says what a
reader sees who follows the cursors with any limits: the listing, from its start, each row
once, as far as the limits add up to.

`Collected` is the invariant of a reader between two pages, for a listing that can grow at its end
while it is read. `orderBy` is the order of a query's result, and `readPages` the loop of a reader
whose calls may throw.
-/

namespace Keyset

variable {α κ : Type} [LinearOrder κ] (key : α → κ)

/-- The rows of a listing past a cursor. -/
def past (l : List α) (after : κ) : List α := l.filter (fun r => after < key r)

/-- One page: at most `limit` rows past the cursor. -/
def page (l : List α) (after : κ) (limit : Nat) : List α := (past key l after).take limit

/-- The cursor after a page: the key of its last row, or the old cursor when it is empty. -/
def lastKey (rows : List α) (after : κ) : κ := (rows.getLast?.map key).getD after

/-- What a reader collects who follows the cursors with the given limits. -/
def follow (fetch : κ → Nat → List α) (after : κ) : List Nat → List α
  | [] => []
  | limit :: limits =>
      let rows := fetch after limit
      rows ++ follow fetch (lastKey key rows after) limits

/-- What a reader collects who follows the cursors of a query that may throw. -/
def readPages (fetch : κ → Nat → Fallible (List α)) (after : κ) : List Nat → Fallible (List α)
  | [] => pure []
  | limit :: limits => do
      let rows ← fetch after limit
      let rest ← readPages fetch (lastKey key rows after) limits
      pure (rows ++ rest)

/-- Strictly ascending keys. -/
abbrev Ascending (l : List α) : Prop := l.Pairwise (fun a b => key a < key b)

/-- The rows in the order of their keys. -/
def orderBy (l : List α) : List α := l.insertionSort (fun a b => key a ≤ key b)

variable {key}

/-! ## Ordering -/

/-- Ordering permutes. -/
theorem orderBy_perm (l : List α) : (orderBy key l).Perm l := List.perm_insertionSort _ l

@[simp] theorem mem_orderBy {l : List α} {r : α} : r ∈ orderBy key l ↔ r ∈ l :=
  (orderBy_perm l).mem_iff

instance total_key : Std.Total (fun a b : α => key a ≤ key b) := ⟨fun _ _ => le_total _ _⟩

instance isTrans_key : IsTrans α (fun a b => key a ≤ key b) := ⟨fun _ _ _ => le_trans⟩

/-- Rows of distinct keys are listed in strictly ascending order. -/
theorem ascending_orderBy {l : List α} (h : (l.map key).Nodup) : Ascending key (orderBy key l) := by
  have hle : (orderBy key l).Pairwise (fun a b => key a ≤ key b) := List.pairwise_insertionSort _ l
  have hne : (orderBy key l).Pairwise (fun a b => key a ≠ key b) := by
    rw [← List.pairwise_map (f := key) (R := (· ≠ ·)), ← List.nodup_iff_pairwise_ne]
    exact ((orderBy_perm l).map key).nodup_iff.2 h
  exact (hle.and hne).imp fun h => lt_of_le_of_ne h.1 h.2

/-- Two ascending listings of the same rows are equal. -/
theorem Ascending.eq_of_perm {l m : List α} (hl : Ascending key l) (hm : Ascending key m)
    (h : l.Perm m) : l = m :=
  h.eq_of_pairwise (fun _ _ _ _ hab hba => absurd hba hab.asymm) hl hm

/-- What is in order stays as it is. -/
theorem orderBy_eq_self {l : List α} (h : Ascending key l) : orderBy key l = l :=
  (h.imp fun h => h.le).insertionSort_eq

/-- Ascending keys are distinct. -/
theorem Ascending.nodup_keys {l : List α} (h : Ascending key l) : (l.map key).Nodup := by
  rw [List.nodup_iff_pairwise_ne, List.pairwise_map]
  exact h.imp fun hab => ne_of_lt hab

/-- Ordering and filtering commute. -/
theorem orderBy_filter {l : List α} (h : (l.map key).Nodup) (p : α → Bool) :
    orderBy key (l.filter p) = (orderBy key l).filter p := by
  have hsub : ((l.filter p).map key).Nodup := h.sublist (List.filter_sublist.map key)
  refine (ascending_orderBy hsub).eq_of_perm
    ((ascending_orderBy h).sublist List.filter_sublist) ?_
  exact (orderBy_perm _).trans ((orderBy_perm l).filter p).symm

/-- Rows of a listing stand in the order of their keys. -/
theorem Ascending.of_lt {l : List α} (h : Ascending key l) {r : α → α → Prop} (hr : l.Pairwise r)
    {a b : α} (ha : a ∈ l) (hb : b ∈ l) (hlt : key a < key b) : r a b := by
  induction l with
  | nil => cases ha
  | cons c l ih =>
      obtain ⟨hc, hl⟩ := List.pairwise_cons.1 h
      obtain ⟨hrc, hrl⟩ := List.pairwise_cons.1 hr
      rcases List.mem_cons.1 ha with rfl | hal
      · rcases List.mem_cons.1 hb with rfl | hbl
        · exact absurd hlt (lt_irrefl _)
        · exact hrc b hbl
      · rcases List.mem_cons.1 hb with rfl | hbl
        · exact absurd (hc a hal) hlt.asymm
        · exact ih hl hrl hal hbl

omit [LinearOrder κ] in
/-- Two rows of a list without repetition stand in one order only. -/
theorem not_sublist_swap {l : List α} (h : l.Nodup) {a b : α} (hab : [a, b].Sublist l) :
    ¬ [b, a].Sublist l := by
  intro hba
  induction l with
  | nil => cases hab
  | cons c l ih =>
      obtain ⟨hc, hl⟩ := List.nodup_cons.1 h
      cases hab with
      | cons _ hab =>
          cases hba with
          | cons _ hba => exact ih hl hab hba
          | cons_cons _ hba => exact hc (hab.subset (by simp))
      | cons_cons _ hab =>
          cases hba with
          | cons _ hba => exact hc (hba.subset (by simp))
          | cons_cons _ hba => exact hc (hba.subset (by simp))

/-- Ordering is stable: rows of one key stand in the order they stood in. Two rows of one key that
stood in an order are a part of the list in that order, and sorting keeps such a part. -/
theorem orderBy_stable {l : List α} (hl : l.Nodup) {r : α → α → Prop} (h : l.Pairwise r) :
    (orderBy key l).Pairwise fun a b => key a < key b ∨ (key a = key b ∧ r a b) := by
  have hle : (orderBy key l).Pairwise (fun a b => key a ≤ key b) := List.pairwise_insertionSort _ l
  rw [List.pairwise_iff_forall_sublist] at hle h ⊢
  intro a b hab
  rcases lt_or_eq_of_le (hle hab) with hlt | heq
  · exact .inl hlt
  · refine .inr ⟨heq, ?_⟩
    have hnodup : (orderBy key l).Nodup := (orderBy_perm l).nodup_iff.2 hl
    have hne : a ≠ b := (List.pairwise_iff_forall_sublist.1 hnodup) hab
    have ha : a ∈ l := mem_orderBy.1 (hab.subset (by simp))
    have hb : b ∈ l := mem_orderBy.1 (hab.subset (by simp))
    obtain ⟨s, t, rfl⟩ := List.append_of_mem ha
    rcases List.mem_append.1 hb with hs | ht
    · -- If the second row stood first, it would still stand first.
      have hba : [b, a].Sublist (s ++ a :: t) :=
        (List.singleton_sublist.2 hs).append (List.singleton_sublist.2 List.mem_cons_self)
      have hsorted := List.pair_sublist_insertionSort (r := fun a b => key a ≤ key b) heq.ge hba
      exact absurd hsorted (not_sublist_swap hnodup hab)
    · have hbt : b ∈ t := (List.mem_cons.1 ht).resolve_left hne.symm
      refine h ((List.nil_sublist s).append ?_)
      exact (List.singleton_sublist.2 hbt).cons_cons a

omit [LinearOrder κ] in
/-- What is picked out of a listing, each row giving at most one, has keys among those of the
listing. -/
theorem filterMap_keys_sublist {β : Type} {f : β → Option α} {source : β → κ}
    (h : ∀ b a, f b = some a → key a = source b) (l : List β) :
    ((l.filterMap f).map key).Sublist (l.map source) := by
  induction l with
  | nil => exact .slnil
  | cons b l ih =>
      rw [List.filterMap_cons]
      split
      · exact ih.cons _
      · next a ha =>
          rw [List.map_cons, h b a ha]
          exact ih.cons_cons _

/-! ## Pages -/

/-- What comes behind a key is in order. -/
theorem Ascending.past {l : List α} (h : Ascending key l) (after : κ) :
    Ascending key (past key l after) :=
  h.sublist List.filter_sublist

/-- Behind the later of two keys. -/
theorem past_past {l : List α} {a b : κ} (h : a ≤ b) :
    past key (past key l a) b = past key l b := by
  simp only [past, List.filter_filter]
  congr 1
  funext r
  rw [Bool.eq_iff_iff, Bool.and_eq_true, decide_eq_true_iff, decide_eq_true_iff]
  exact ⟨And.left, fun hb => ⟨hb, h.trans_lt hb⟩⟩

/-- Past the last row of a first part stands the rest. -/
theorem past_append {l r : List α} {x : α} (h : Ascending key (l ++ x :: r)) :
    past key (l ++ x :: r) (key x) = r := by
  obtain ⟨-, hr, hlr⟩ := List.pairwise_append.1 h
  obtain ⟨hxr, -⟩ := List.pairwise_cons.1 hr
  have hl : l.filter (fun y => key x < key y) = [] := by
    rw [List.filter_eq_nil_iff]
    intro y hy
    simpa using (hlr y hy x (by simp)).le
  have hr : r.filter (fun y => key x < key y) = r := by
    rw [List.filter_eq_self]
    intro y hy
    simpa using hxr y hy
  rw [past, List.filter_append, List.filter_cons, hl, hr]
  simp

/-- **The next cursor continues where the page ended.** Where the page is empty the cursor stays;
otherwise the last row of the page splits the rows behind the cursor. -/
theorem past_lastKey {l : List α} (h : Ascending key l) (after : κ) (limit : Nat) :
    past key l (lastKey key (page key l after limit) after) = (past key l after).drop limit := by
  rcases List.eq_nil_or_concat (page key l after limit) with hnil | ⟨init, x, hx⟩
  · rw [hnil]
    simp only [lastKey, List.getLast?_nil, Option.map_none, Option.getD_none]
    rcases List.take_eq_nil_iff.1 hnil with rfl | hn
    · rfl
    · rw [hn, List.drop_nil]
  · rw [List.concat_eq_append] at hx
    have hsplit : past key l after = init ++ x :: (past key l after).drop limit := by
      conv_lhs => rw [← List.take_append_drop limit (past key l after)]
      rw [show (past key l after).take limit = init ++ [x] from hx, List.append_assoc]
      rfl
    have hmem : x ∈ past key l after := by rw [hsplit]; simp
    have hlt : after < key x := by simpa [past] using (List.mem_filter.1 hmem).2
    rw [hx]
    simp only [lastKey, List.getLast?_append, List.getLast?_singleton, Option.some_or,
      Option.map_some, Option.getD_some]
    rw [← past_past hlt.le]
    have hasc := h.past after
    rw [hsplit] at hasc
    conv_lhs => rw [hsplit]
    exact past_append hasc

/-- **What a reader of pages sees.** Following the cursors from any start yields the rows
past it, in order and each once, as many as the limits add up to. -/
theorem follow_eq_take {l : List α} (h : Ascending key l) :
    ∀ (limits : List Nat) (after : κ),
      follow key (page key l) after limits = (past key l after).take limits.sum
  | [], _ => by simp [follow]
  | limit :: limits, after => by
      rw [follow, follow_eq_take h limits, past_lastKey h, List.sum_cons, List.take_add]
      rfl

/-- The next cursor is not before the last one. -/
theorem le_lastKey (l : List α) (after : κ) (limit : Nat) :
    after ≤ lastKey key (page key l after limit) after := by
  unfold lastKey
  cases hlast : (page key l after limit).getLast? with
  | none => exact le_rfl
  | some r =>
      have hmem := List.mem_of_mem_take (List.mem_of_getLast? hlast)
      have hlt : after < key r := by simpa [past] using (List.mem_filter.1 hmem).2
      exact hlt.le

/-- A page that is not empty ends past the cursor it was read with. -/
theorem lt_lastKey {l : List α} {after : κ} {limit : Nat} (h : page key l after limit ≠ []) :
    after < lastKey key (page key l after limit) after := by
  unfold lastKey
  cases hlast : (page key l after limit).getLast? with
  | none => exact absurd (List.getLast?_eq_none_iff.1 hlast) h
  | some r =>
      have hmem := List.mem_of_mem_take (List.mem_of_getLast? hlast)
      exact of_decide_eq_true (List.mem_filter.1 hmem).2

/-- **Reading the pages of a query that answers with pages of a listing.** The cursor never goes
back, so that the answer of every later call is again a page of the same listing. -/
theorem readPages_eq {fetch : κ → Nat → Fallible (List α)} {l : List α} (h : Ascending key l)
    {limits : List Nat} {start : κ} (hfetch : ∀ after, start ≤ after → ∀ limit ∈ limits,
      fetch after limit = .ok (page key l after limit)) :
    readPages key fetch start limits = .ok ((past key l start).take limits.sum) := by
  rw [← follow_eq_take h]
  induction limits generalizing start with
  | nil => rfl
  | cons limit limits ih =>
      have hpage := hfetch start le_rfl limit List.mem_cons_self
      have hrest : readPages key fetch (lastKey key (page key l start limit) start) limits
          = .ok (follow key (page key l) (lastKey key (page key l start limit) start) limits) :=
        ih fun after hle n hn => hfetch after ((le_lastKey l start limit).trans hle) n
          (List.mem_cons_of_mem _ hn)
      rw [readPages, hpage]
      change (readPages key fetch _ limits >>= fun rest => pure (_ ++ rest)) = _
      rw [hrest, follow]
      rfl

/-! ## Growing listings -/

variable (key) in
/-- What a reader of pages has collected since it started: with what is past its cursor, it is
what is past the start. The cursor is the start or the key of a row. -/
structure Collected (l : List α) (start cursor : κ) (rows : List α) : Prop where
  rest : rows ++ past key l cursor = past key l start
  cursor : cursor = start ∨ start < cursor ∧ ∃ r ∈ l, key r = cursor

namespace Collected

variable {l rows more : List α} {start cursor : κ}

/-- Before the first page nothing is collected. -/
theorem init (l : List α) (start : κ) : Collected key l start start [] := ⟨rfl, .inl rfl⟩

/-- Reading a page collects it. -/
theorem page (h : Collected key l start cursor rows) (hl : Ascending key l) (limit : Nat) :
    Collected key l start (lastKey key (page key l cursor limit) cursor)
      (rows ++ Keyset.page key l cursor limit) where
  rest := by
    rw [past_lastKey hl, List.append_assoc, Keyset.page, List.take_append_drop]
    exact h.rest
  cursor := by
    unfold lastKey
    cases hlast : (Keyset.page key l cursor limit).getLast? with
    | none => exact h.cursor
    | some r =>
        have hmem := List.mem_filter.1 (List.mem_of_mem_take (List.mem_of_getLast? hlast))
        have hlt : cursor < key r := of_decide_eq_true hmem.2
        refine .inr ⟨?_, r, hmem.1, rfl⟩
        rcases h.cursor with heq | hstart
        · exact heq ▸ hlt
        · exact hstart.1.trans hlt

/-- A listing that grows at its end leaves the reader what it collected. -/
theorem append (h : Collected key l start cursor rows) (hl : Ascending key (l ++ more)) :
    Collected key (l ++ more) start cursor rows where
  rest := by
    have hmore : past key more cursor = past key more start := by
      rcases h.cursor with heq | ⟨hstart, r, hr, hkey⟩
      · rw [heq]
      · -- Every new row is past the row of the cursor.
        refine List.filter_congr fun x hx => ?_
        have hlt : key r < key x := (List.pairwise_append.1 hl).2.2 r hr x hx
        rw [hkey] at hlt
        rw [decide_eq_true hlt, decide_eq_true (hstart.trans hlt)]
    rw [past, List.filter_append, ← List.append_assoc, past, List.filter_append]
    exact congrArg₂ (· ++ ·) h.rest hmore
  cursor := by
    refine h.cursor.imp_right ?_
    rintro ⟨hstart, r, hr, hkey⟩
    exact ⟨hstart, r, List.mem_append_left _ hr, hkey⟩

/-- What was collected is ascending, so no row was collected twice. -/
theorem ascending (h : Collected key l start cursor rows) (hl : Ascending key l) :
    Ascending key rows := by
  have hpast := hl.past start
  rw [← h.rest] at hpast
  exact (List.pairwise_append.1 hpast).1

/-- What is collected comes from the listing. -/
theorem subset (h : Collected key l start cursor rows) {r : α} (hr : r ∈ rows) : r ∈ l := by
  have hmem : r ∈ past key l start := h.rest ▸ List.mem_append_left _ hr
  exact (List.mem_filter.1 hmem).1

/-- A reader whose page is empty has collected every row past its start. -/
theorem complete (h : Collected key l start cursor rows) {limit : Nat} (hlimit : limit ≠ 0)
    (hempty : Keyset.page key l cursor limit = []) {r : α} (hr : r ∈ l) (hstart : start < key r) :
    r ∈ rows := by
  have hpast : past key l cursor = [] := (List.take_eq_nil_iff.1 hempty).resolve_left hlimit
  have hrest := h.rest
  rw [hpast, List.append_nil] at hrest
  rw [hrest]
  exact List.mem_filter.2 ⟨hr, decide_eq_true hstart⟩

end Collected

end Keyset
