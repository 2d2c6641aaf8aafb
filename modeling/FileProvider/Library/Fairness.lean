import Mathlib.Logic.Basic

/-!
# Behaviours and weak fairness

A behaviour is an infinite run of a labelled step relation. It is fair to some of the labels when
none of their steps stays possible for ever without one being taken. `Behaviour.eventually` is the
rule for what must happen in the end: a rank that no step raises, and that every step of the fair
labels lowers.

An invariant of the steps holds at every moment of a behaviour (`Behaviour.invariant`), so the rank
may be one that falls only in states that satisfy it.
-/

/-- An infinite run of a labelled step relation. -/
structure Behaviour {σ ε : Type} (step : σ → ε → σ → Prop) where
  state : Nat → σ
  event : Nat → ε
  steps : ∀ n, step (state n) (event n) (state (n + 1))

namespace Behaviour

variable {σ ε : Type} {step : σ → ε → σ → Prop}

/-- Some step of the labels is possible. -/
def Enabled (step : σ → ε → σ → Prop) (labels : ε → Prop) (s : σ) : Prop :=
  ∃ e t, labels e ∧ step s e t

/-- Weak fairness: from any moment on, a step of the labels is taken, or none is possible. -/
def Fair (b : Behaviour step) (labels : ε → Prop) : Prop :=
  ∀ n, ∃ m, n ≤ m ∧ (labels (b.event m) ∨ ¬ Enabled step labels (b.state m))

/-- An invariant that steps keep holds from any moment on. -/
theorem invariant (b : Behaviour step) {I : σ → Prop}
    (step_keeps : ∀ {s e t}, I s → step s e t → I t) {n : Nat} (h : I (b.state n)) {m : Nat}
    (hle : n ≤ m) : I (b.state m) := by
  induction hle with
  | refl => exact h
  | step _ ih => exact step_keeps ih (b.steps _)

/-- What is the case stays so, until what is waited for happens. -/
theorem stays (b : Behaviour step) {I : σ → Prop} {goal allowed : ε → Prop}
    (step_keeps : ∀ {s e t}, I s → step s e t → allowed e → goal e ∨ I t) {n : Nat}
    (h : I (b.state n)) (hallowed : ∀ m, n ≤ m → allowed (b.event m)) {m : Nat} (hle : n ≤ m) :
    (∃ k, n ≤ k ∧ k < m ∧ goal (b.event k)) ∨ I (b.state m) := by
  induction hle with
  | refl => exact .inr h
  | @step m hle ih =>
      rcases ih with ⟨k, hk, hlt, hgoal⟩ | hI
      · exact .inl ⟨k, hk, Nat.lt_succ_of_lt hlt, hgoal⟩
      · rcases step_keeps hI (b.steps m) (hallowed m hle) with hgoal | hI'
        · exact .inl ⟨m, hle, Nat.lt_succ_self m, hgoal⟩
        · exact .inr hI'

/-- **The rank rule.** Where no allowed step raises the rank, every step of the fair labels lowers
it, and one of them is always possible, what is waited for happens. -/
theorem eventually (b : Behaviour step) {labels goal allowed : ε → Prop} {I : Nat → σ → Prop}
    (hfair : b.Fair labels)
    (step_keeps : ∀ {r s e t}, I r s → step s e t → allowed e → goal e ∨ I r t)
    (step_lowers : ∀ {r s e t}, I r s → step s e t → allowed e → labels e →
      goal e ∨ ∃ r', r' < r ∧ I r' t)
    (enabled : ∀ {r s}, I r s → Enabled step labels s) {r n : Nat} (h : I r (b.state n))
    (hallowed : ∀ m, n ≤ m → allowed (b.event m)) : ∃ m, n ≤ m ∧ goal (b.event m) := by
  induction r using Nat.strongRecOn generalizing n with
  | _ r ih =>
      obtain ⟨m, hle, hm⟩ := hfair n
      rcases b.stays step_keeps h hallowed hle with ⟨k, hk, -, hgoal⟩ | hI
      · exact ⟨k, hk, hgoal⟩
      · have hlabel := hm.resolve_right (not_not_intro (enabled hI))
        rcases step_lowers hI (b.steps m) (hallowed m hle) hlabel with hgoal | ⟨r', hlt, hI'⟩
        · exact ⟨m, hle, hgoal⟩
        · have hlater : ∀ k, m + 1 ≤ k → allowed (b.event k) := fun k hk =>
            hallowed k (by omega)
          obtain ⟨k, hk, hgoal⟩ := ih r' hlt hI' hlater
          exact ⟨k, by omega, hgoal⟩

end Behaviour
