import Mathlib.Data.List.Nodup
import Mathlib.Logic.Function.Basic

/-!
# Reconciling a map with a list of sources

A source has a key and a rule for what becomes of the value under it: the rule gives a new value, or
none where the value stays. Where the new value is one that stays, a source that was reconciled is
settled, and the sources after it that have other keys leave it so.

The map is any function of the keys, and the sources are a list whose order is the order of the
work. `run_settled` is what makes a second run change nothing.
-/

namespace Reconcile

variable {κ σ β : Type} [DecidableEq κ] (key : σ → κ) (next : σ → Option β → Option β)

/-- What one source makes of the map. -/
def step (t : κ → Option β) (s : σ) : κ → Option β :=
  (next s (t (key s))).elim t fun b => Function.update t (key s) (some b)

/-- What a list of sources makes of the map, one after the other. -/
def run (t : κ → Option β) (l : List σ) : κ → Option β := l.foldl (step key next) t

variable {key next} {t : κ → Option β}

/-- Where there is nothing to do, nothing is done. -/
theorem step_of_none {s : σ} (h : next s (t (key s)) = none) : step key next t s = t := by
  rw [step, h]
  rfl

/-- Otherwise the entry of the key is replaced. -/
theorem step_of_some {s : σ} {b : β} (h : next s (t (key s)) = some b) :
    step key next t s = Function.update t (key s) (some b) := by
  rw [step, h]
  rfl

/-- A step leaves the other keys. -/
theorem step_other {s : σ} {k : κ} (hk : k ≠ key s) : step key next t s k = t k := by
  cases h : next s (t (key s)) with
  | none => rw [step_of_none h]
  | some b => rw [step_of_some h, Function.update_of_ne hk]

/-- A run leaves the keys that its sources do not have. -/
theorem run_other {l : List σ} {k : κ} (hk : k ∉ l.map key) : run key next t l k = t k := by
  induction l generalizing t with
  | nil => rfl
  | cons s l ih =>
      rw [List.map_cons, List.mem_cons, not_or] at hk
      exact (ih hk.2).trans (step_other hk.1)

/-- **Every source of a list is settled in the end**, if no two have one key. The sources before it
do not touch its key, those after it do not either, and its own step leaves nothing to be done. -/
theorem run_settled (hnext : ∀ s o b, next s o = some b → next s (some b) = none) {l : List σ}
    (hl : (l.map key).Nodup) {s : σ} (hs : s ∈ l) : next s (run key next t l (key s)) = none := by
  induction l generalizing t with
  | nil => cases hs
  | cons s' l ih =>
      obtain ⟨hnew, hl⟩ := List.nodup_cons.1 hl
      rcases List.mem_cons.1 hs with rfl | hs
      · have hrest : run key next t (s :: l) (key s) = step key next t s (key s) := run_other hnew
        rw [hrest]
        cases h : next s (t (key s)) with
        | none => rw [step_of_none h, h]
        | some b =>
            rw [step_of_some h, Function.update_self]
            exact hnext s _ b h
      · exact ih hl hs

end Reconcile
