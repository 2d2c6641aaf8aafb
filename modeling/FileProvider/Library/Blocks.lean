import Mathlib.Algebra.Order.Group.Nat
import Mathlib.Data.List.Basic

/-!
# Splitting into blocks

A sequence is split into blocks of `n` elements and a last one that may be shorter. The
blocks join to the sequence, none is empty, all but the last are full, and their number is
the length divided by `n`, rounded up. Facts about a split go from the rest behind the first
block to the whole (`Blocks.induction`).

The split is computed with the length of the sequence as its fuel, and `split_of_ne_nil` is the
equation that it satisfies; everything else goes by the induction that this equation gives.
-/

namespace Blocks

variable {α : Type}

/-- The blocks of a sequence, as far as the fuel goes. -/
def splitFuel (n : Nat) : Nat → List α → List (List α)
  | 0, _ => []
  | fuel + 1, l => if l.isEmpty then [] else l.take n :: splitFuel n fuel (l.drop n)

/-- The blocks of a sequence. -/
def split (n : Nat) (l : List α) : List (List α) := splitFuel n l.length l

variable {n : Nat}

/-- Any fuel from the number of elements on gives the same blocks. -/
theorem splitFuel_congr (hn : 0 < n) :
    ∀ (fuel fuel' : Nat) {l : List α}, l.length ≤ fuel → l.length ≤ fuel' →
      splitFuel n fuel l = splitFuel n fuel' l
  | 0, 0, _, _, _ => rfl
  | 0, _ + 1, [], _, _ => rfl
  | _ + 1, 0, [], _, _ => rfl
  | _ + 1, _ + 1, [], _, _ => rfl
  | fuel + 1, fuel' + 1, a :: l, h, h' => by
      have hdrop : ((a :: l).drop n).length ≤ l.length := by
        simp only [List.length_drop, List.length_cons]
        omega
      simp only [List.length_cons] at h h'
      simp only [splitFuel, List.isEmpty_cons]
      rw [splitFuel_congr hn fuel fuel' (by omega) (by omega)]

@[simp] theorem split_nil : split n ([] : List α) = [] := rfl

/-- The first block and the blocks of the rest. -/
theorem split_of_ne_nil (hn : 0 < n) {l : List α} (hl : l ≠ []) :
    split n l = l.take n :: split n (l.drop n) := by
  obtain ⟨a, l, rfl⟩ := List.exists_cons_of_ne_nil hl
  simp only [split, List.length_cons, splitFuel, List.isEmpty_cons, Bool.false_eq_true, if_false]
  rw [splitFuel_congr hn l.length ((a :: l).drop n).length ?_ le_rfl]
  simp only [List.length_drop, List.length_cons]
  omega

/-- From the rest behind the first block to the whole sequence. -/
theorem induction (hn : 0 < n) {motive : List α → Prop} (nil : motive [])
    (block : ∀ l, l ≠ [] → motive (l.drop n) → motive l) (l : List α) : motive l := by
  induction hk : l.length using Nat.strong_induction_on generalizing l with
  | _ k ih =>
      by_cases hl : l = []
      · exact hl ▸ nil
      · have hpos : 0 < l.length := List.length_pos_iff.2 hl
        refine block l hl (ih (l.drop n).length ?_ _ rfl)
        simp only [List.length_drop]
        omega

/-- The number of blocks. -/
theorem length_split (hn : 0 < n) (l : List α) :
    (split n l).length = l.length / n + if l.length % n ≠ 0 then 1 else 0 := by
  induction l using induction hn with
  | nil => simp
  | block l hl ih =>
      have hpos : 0 < l.length := List.length_pos_iff.2 hl
      rw [split_of_ne_nil hn hl, List.length_cons, ih, List.length_drop]
      rcases Nat.lt_or_ge l.length n with hlt | hge
      · rw [Nat.sub_eq_zero_of_le hlt.le, Nat.div_eq_of_lt hlt, Nat.mod_eq_of_lt hlt]
        simp [hpos.ne']
      · rw [← Nat.mod_eq_sub_mod hge, Nat.div_eq_sub_div hn hge]
        omega

/-- No block is empty or larger than `n`. -/
theorem length_mem_split (hn : 0 < n) (l : List α) :
    ∀ block ∈ split n l, block ≠ [] ∧ block.length ≤ n := by
  induction l using induction hn with
  | nil => simp
  | block l hl ih =>
      rw [split_of_ne_nil hn hl]
      intro b hb
      rcases List.mem_cons.1 hb with rfl | hb
      · exact ⟨by simp [hl, hn.ne'], List.length_take_le _ _⟩
      · exact ih b hb

/-- A block that another one follows is full. -/
theorem full_of_split_drop {l : List α} (h : split n (l.drop n) ≠ []) :
    (l.take n).length = n := by
  rw [List.length_take, Nat.min_eq_left]
  by_contra hlt
  rw [List.drop_eq_nil_of_le (by omega)] at h
  exact h rfl

end Blocks
