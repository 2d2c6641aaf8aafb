import Mathlib.Data.List.Basic
import Mathlib.Data.List.Range

/-!
# Differences of lists by position

`changes l m` lists the positions at which two lists differ, with what stands there on either side;
`patch` replaces, appends and drops by position. `patch_changes` says that the changes turn the one
list into the other, `patch_reverse` that they turn it back, and `changes_eq_nil` that there are
none exactly between equal lists.

The changes are computed position by position up to the longer of the two lengths, so an element
that moves is a change at two positions.
-/

namespace ListDiff

variable {α : Type}

/-- What stands at a position before and after a change. -/
structure Change (α : Type) where
  position : Nat
  before : Option α
  after : Option α

/-- The change that takes another back. -/
def Change.reverse (c : Change α) : Change α := ⟨c.position, c.after, c.before⟩

/-- The change at a position, if there is one. -/
def changeAt [DecidableEq α] (l m : List α) (i : Nat) : Option (Change α) :=
  if l[i]? ≠ m[i]? then some ⟨i, l[i]?, m[i]?⟩ else none

/-- The positions at which two lists differ. -/
def changes [DecidableEq α] (l m : List α) : List (Change α) :=
  (List.range (max l.length m.length)).filterMap (changeAt l m)

/-- What stands at a position after some changes. -/
def patched (cs : List (Change α)) (l : List α) (i : Nat) : Option α :=
  match cs.find? (·.position = i) with
  | some c => c.after
  | none => l[i]?

/-- A number past the positions of a list and of its changes. -/
def bound (cs : List (Change α)) (l : List α) : Nat :=
  (cs.map fun c => c.position + 1).foldr max l.length

/-- A list with changes made at their positions, all at once. -/
def patch (cs : List (Change α)) (l : List α) : List α :=
  (List.range (bound cs l)).filterMap (patched cs l)

/-! ## Positions -/

/-- The bound is no less than the length. -/
theorem length_le_bound (cs : List (Change α)) (l : List α) : l.length ≤ bound cs l := by
  induction cs with
  | nil => exact le_rfl
  | cons c cs ih => exact ih.trans (le_max_right _ _)

/-- Each change lies below the bound. -/
theorem position_lt_bound {cs : List (Change α)} {l : List α} {c : Change α} (h : c ∈ cs) :
    c.position < bound cs l := by
  induction cs with
  | nil => cases h
  | cons d cs ih =>
      rcases List.mem_cons.1 h with rfl | h
      · exact (Nat.lt_succ_self _).trans_le (le_max_left _ _)
      · exact (ih h).trans_le (le_max_right _ _)

/-- Reading a list at the positions from its start on gives the list. -/
theorem filterMap_getElem? {n : Nat} (l : List α) (h : l.length ≤ n) :
    (List.range n).filterMap (fun i => l[i]?) = l := by
  induction l generalizing n with
  | nil => simp
  | cons a l ih =>
      obtain ⟨n, rfl⟩ : ∃ k, n = k + 1 := ⟨n - 1, by simp only [List.length_cons] at h; omega⟩
      rw [List.range_succ_eq_map, List.filterMap_cons_some (by rfl), List.filterMap_map]
      exact congrArg _ (ih (Nat.le_of_succ_le_succ h))

variable [DecidableEq α] {l m : List α}

/-- A change is reported exactly where two lists differ, with what they have there. -/
theorem mem_changes {c : Change α} : c ∈ changes l m ↔
    l[c.position]? ≠ m[c.position]? ∧ c.before = l[c.position]? ∧ c.after = m[c.position]? := by
  unfold changes changeAt
  rw [List.mem_filterMap]
  constructor
  · rintro ⟨i, -, hi⟩
    split at hi
    · next hne =>
        obtain rfl := Option.some.inj hi
        exact ⟨hne, rfl, rfl⟩
    · cases hi
  · rintro ⟨hne, hbefore, hafter⟩
    refine ⟨c.position, List.mem_range.2 ?_, ?_⟩
    · by_contra hle
      rw [Nat.not_lt, Nat.max_le] at hle
      rw [List.getElem?_eq_none hle.1, List.getElem?_eq_none hle.2] at hne
      exact hne rfl
    · rw [if_pos hne, ← hbefore, ← hafter]

/-- What stands at a position after the changes between two lists stands there in the second. -/
theorem patched_changes (l m : List α) (i : Nat) : patched (changes l m) l i = m[i]? := by
  unfold patched
  cases hfind : (changes l m).find? (·.position = i) with
  | some c =>
      have hposition : c.position = i := by simpa using List.find?_some hfind
      obtain ⟨-, -, hafter⟩ := mem_changes.1 (List.mem_of_find?_eq_some hfind)
      rw [← hposition]
      exact hafter
  | none =>
      by_contra hne
      have hmem : (⟨i, l[i]?, m[i]?⟩ : Change α) ∈ changes l m := mem_changes.2 ⟨hne, rfl, rfl⟩
      exact absurd (List.find?_eq_none.1 hfind _ hmem) (by simp)

/-- The bound reaches to the end of the other list. -/
theorem length_le_bound_changes (l m : List α) : m.length ≤ bound (changes l m) l := by
  rcases Nat.lt_or_ge l.length m.length with hlt | hge
  · obtain ⟨k, hk⟩ : ∃ k, m.length = k + 1 := ⟨m.length - 1, by omega⟩
    have hmem : (⟨k, l[k]?, m[k]?⟩ : Change α) ∈ changes l m := by
      refine mem_changes.2 ⟨?_, rfl, rfl⟩
      show l[k]? ≠ m[k]?
      rw [List.getElem?_eq_none (by omega), List.getElem?_eq_getElem (by omega)]
      exact (Option.some_ne_none _).symm
    rw [hk]
    exact position_lt_bound hmem
  · exact hge.trans (length_le_bound _ _)

/-- **The changes from one list to another turn it into the other.** At every place the patched list
has what the other list has there, and a list is determined by its places. -/
theorem patch_changes (l m : List α) : patch (changes l m) l = m := by
  unfold patch
  rw [show patched (changes l m) l = fun i => m[i]? from funext (patched_changes l m)]
  exact filterMap_getElem? m (length_le_bound_changes l m)

/-- Taken back, the changes are those from the other list. -/
theorem reverse_changes (l m : List α) :
    (changes l m).map Change.reverse = changes m l := by
  unfold changes
  rw [List.map_filterMap, max_comm]
  refine List.filterMap_congr fun i _ => ?_
  unfold changeAt
  by_cases h : l[i]? = m[i]?
  · rw [if_neg (not_not.2 h), if_neg (not_not.2 h.symm)]
    rfl
  · rw [if_pos h, if_pos (Ne.symm h)]
    rfl

/-- **Taken back, the changes turn the other list into the one.** The reversed changes are the
changes of the other direction, so that it is the same fact once more. -/
theorem patch_reverse (l m : List α) : patch ((changes l m).map Change.reverse) m = l := by
  rw [reverse_changes]
  exact patch_changes m l

/-- **There are no changes exactly between equal lists.** -/
theorem changes_eq_nil : changes l m = [] ↔ l = m := by
  constructor
  · intro h
    have hpatch := patch_changes l m
    rw [h, patch] at hpatch
    rw [← hpatch]
    exact (filterMap_getElem? l le_rfl).symm
  · rintro rfl
    refine List.eq_nil_iff_forall_not_mem.2 fun c hc => ?_
    exact (mem_changes.1 hc).1 rfl

/-- The changes stand in the order of their positions. -/
theorem changes_ascending (l m : List α) :
    (changes l m).Pairwise fun a b => a.position < b.position := by
  unfold changes
  refine List.Pairwise.filterMap _ ?_ List.pairwise_lt_range
  intro i j hij a ha b hb
  unfold changeAt at ha hb
  split at ha
  · split at hb
    · obtain rfl := Option.some.inj ha
      obtain rfl := Option.some.inj hb
      exact hij
    · cases hb
  · cases ha

end ListDiff
