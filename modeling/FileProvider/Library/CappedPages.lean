import FileProvider.Library.Keyset

/-!
# Pages that stop at a weight

A page of a listing may stop before its limit, where the weights of its rows would pass a cap. When
no row alone is heavier than the cap, a page is empty only where nothing is left, so every page
takes a reader at least one row further (`readPages_progress`).

`within` is the part of a list that fits, and the rows past a cursor are those of the keyset pages;
the weights and the cap are any natural numbers.
-/

namespace Keyset

variable {α κ : Type} [LinearOrder κ] {key : α → κ}

/-- The first rows of a list, as far as their weights and what was used before stay within a
cap. -/
def within (weight : α → Nat) (cap : Nat) : Nat → List α → List α
  | _, [] => []
  | used, r :: l => if cap < used + weight r then [] else r :: within weight cap (used + weight r) l

variable {weight : α → Nat} {cap : Nat}

variable (weight cap) in
/-- What stays within the cap is a first part of the list. -/
theorem within_eq_take (used : Nat) (l : List α) :
    ∃ k, within weight cap used l = l.take k := by
  induction l generalizing used with
  | nil => exact ⟨0, rfl⟩
  | cons r l ih =>
      unfold within
      split
      · exact ⟨0, rfl⟩
      · obtain ⟨k, hk⟩ := ih (used + weight r)
        exact ⟨k + 1, by rw [hk, List.take_succ_cons]⟩

/-- The first row stays within the cap if it is not too heavy by itself. -/
theorem within_ne_nil {l : List α} (hl : l ≠ []) (h : ∀ r ∈ l, weight r ≤ cap) :
    within weight cap 0 l ≠ [] := by
  obtain ⟨r, l, rfl⟩ := List.exists_cons_of_ne_nil hl
  have hr := h r List.mem_cons_self
  unfold within
  rw [if_neg (by omega)]
  exact List.cons_ne_nil _ _

/-- A page that stops at the cap is empty only where the listing ends. -/
theorem within_page {l : List α} (h : ∀ r ∈ l, weight r ≤ cap) (after : κ) {limit : Nat}
    (hlimit : limit ≠ 0) :
    ∃ k, within weight cap 0 (page key l after limit) = (past key l after).take k ∧
      (past key l after ≠ [] → k ≠ 0) := by
  obtain ⟨k, hk⟩ := within_eq_take weight cap 0 (page key l after limit)
  refine ⟨min k limit, ?_, ?_⟩
  · rw [hk, page, List.take_take]
  · intro hpast hzero
    have hpage : page key l after limit ≠ [] := by
      intro hnil
      rcases List.take_eq_nil_iff.1 hnil with hlimit' | hnil
      · exact hlimit hlimit'
      · exact hpast hnil
    have hlight : ∀ r ∈ page key l after limit, weight r ≤ cap :=
      fun r hr => h r (List.mem_filter.1 (List.mem_of_mem_take hr)).1
    refine within_ne_nil hpage hlight ?_
    rw [hk, show k = 0 by omega, List.take_zero]

/-- Nothing is past a cursor that no row passes. -/
theorem past_eq_nil {l : List α} {after : κ} : past key l after = [] ↔ ∀ r ∈ l, key r ≤ after := by
  simp only [past, List.filter_eq_nil_iff, decide_eq_true_eq, not_lt]

/-- Every row is past a cursor before all of them. -/
theorem past_eq_self {l : List α} {start : κ} (h : ∀ r ∈ l, start < key r) :
    past key l start = l :=
  List.filter_eq_self.2 fun r hr => decide_eq_true (h r hr)

/-- A page that holds a row where there is one is empty only where there is none. -/
theorem take_past_eq_nil {l : List α} {after : κ} {k : Nat}
    (hk : past key l after ≠ [] → k ≠ 0) :
    (past key l after).take k = [] ↔ ∀ r ∈ l, key r ≤ after := by
  rw [List.take_eq_nil_iff, ← past_eq_nil]
  constructor
  · rintro (hzero | hnil)
    · exact not_not.1 fun hne => hk hne hzero
    · exact hnil
  · exact .inr

/-- **Every page takes a reader at least one row further**, and none is left out, where a page is a
first part of what is past the cursor that is empty only if that is. -/
theorem readPages_progress {fetch : κ → Nat → Fallible (List α)} {l : List α}
    (h : Ascending key l) {limits : List Nat} {start : κ}
    (hfetch : ∀ after, start ≤ after → ∀ limit ∈ limits, ∃ k,
      fetch after limit = .ok ((past key l after).take k) ∧ (past key l after ≠ [] → k ≠ 0)) :
    ∃ n, readPages key fetch start limits = .ok ((past key l start).take n) ∧
      min limits.length (past key l start).length ≤ n := by
  induction limits generalizing start with
  | nil => exact ⟨0, rfl, Nat.min_le_left _ _⟩
  | cons limit limits ih =>
      obtain ⟨k, hpage, hk⟩ := hfetch start le_rfl limit List.mem_cons_self
      have hnext : past key l (lastKey key ((past key l start).take k) start)
          = (past key l start).drop k := past_lastKey h start k
      have hle : start ≤ lastKey key ((past key l start).take k) start := le_lastKey l start k
      obtain ⟨n, hrest, hn⟩ := ih fun after hafter limit hlimit =>
        hfetch after (hle.trans hafter) limit (List.mem_cons_of_mem _ hlimit)
      rw [hnext] at hrest hn
      refine ⟨k + n, ?_, ?_⟩
      · rw [readPages, hpage]
        show (readPages key fetch _ limits >>= fun rest => pure (_ ++ rest)) = _
        rw [hrest, List.take_add]
        rfl
      · rw [List.length_drop] at hn
        rw [List.length_cons]
        rcases Nat.eq_zero_or_pos (past key l start).length with hzero | hpos
        · omega
        · have hpos' := hk (List.length_pos_iff.1 hpos)
          omega

end Keyset
