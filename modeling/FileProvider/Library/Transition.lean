import Mathlib.Logic.Basic

/-!
# Runs of a labelled transition system

A step relates a state, what happened, and the next state; a run is a list of events with the
steps that carry them. `Run.invariant`, `Run.relates` and `Run.history` are the induction rules:
what a step preserves, a run preserves; what relates the ends of a step relates the ends of a run;
and an invariant may speak of the events so far. `Run.of_isSome` and `Run.of_any` find a run by
following a step function. `Run.Once` says that a run passes through a state with a property.

Steps are a relation, so that a system may be nondeterministic, with an event that says what
happened. The rules for single executable runs are there for samples, which follow a step function
that is given its events.
-/

/-- A run of a labelled step relation. -/
inductive Run {σ ε : Type} (step : σ → ε → σ → Prop) : σ → List ε → σ → Prop where
  | nil (s : σ) : Run step s [] s
  | cons {s t u : σ} {e : ε} {events : List ε} :
      step s e t → Run step t events u → Run step s (e :: events) u

namespace Run

variable {σ ε : Type} {step : σ → ε → σ → Prop} {s t u : σ} {events more : List ε} {e : ε}

/-- Two runs one after the other are a run. -/
theorem append (h : Run step s events t) (h' : Run step t more u) :
    Run step s (events ++ more) u := by
  induction h with
  | nil => exact h'
  | cons hstep _ ih => exact .cons hstep (ih h')

/-- A run is prolonged by a step. -/
theorem snoc (h : Run step s events t) (h' : step t e u) : Run step s (events ++ [e]) u :=
  h.append (.cons h' (.nil _))

/-- A run can be cut anywhere. -/
theorem split (h : Run step s (events ++ more) u) :
    ∃ t, Run step s events t ∧ Run step t more u := by
  induction events generalizing s with
  | nil => exact ⟨s, .nil s, h⟩
  | cons e events ih =>
      cases h with
      | cons hstep hrest =>
          obtain ⟨t, h₁, h₂⟩ := ih hrest
          exact ⟨t, .cons hstep h₁, h₂⟩

/-- A run that starts with an event starts with a step that carries it. -/
theorem uncons (h : Run step s (e :: events) u) : ∃ t, step s e t ∧ Run step t events u := by
  cases h with
  | cons hstep hrest => exact ⟨_, hstep, hrest⟩

/-- **The invariant rule.** What every step preserves, a run preserves. The steps of this
development that need more than the state before, such as a condition on the event, carry it in the
relation. -/
theorem invariant {I : σ → Prop} (step_keeps : ∀ {s e t}, I s → step s e t → I t)
    (h : Run step s events t) (hs : I s) : I t := by
  induction h with
  | nil => exact hs
  | cons hstep _ ih => exact ih (step_keeps hs hstep)

/-- **The relation rule.** What relates the ends of every step from a good state, and is
reflexive and transitive, relates the ends of a run from a good state. -/
theorem relates {I : σ → Prop} {R : σ → σ → Prop} (refl : ∀ s, R s s)
    (trans : ∀ {s t u}, R s t → R t u → R s u)
    (step_keeps : ∀ {s e t}, I s → step s e t → I t)
    (step_relates : ∀ {s e t}, I s → step s e t → R s t)
    (h : Run step s events t) (hs : I s) : R s t := by
  induction h with
  | nil => exact refl _
  | cons hstep _ ih => exact trans (step_relates hs hstep) (ih (step_keeps hs hstep))

/-- **The history rule.** An invariant of what has happened so far together with the state it
led to. -/
theorem history {I : List ε → σ → Prop}
    (step_keeps : ∀ {before s e t}, I before s → step s e t → I (before ++ [e]) t)
    (h : Run step s events t) {before : List ε} (hs : I before s) : I (before ++ events) t := by
  induction h generalizing before with
  | nil => rwa [List.append_nil]
  | @cons s t u e events hstep _ ih =>
      have hnext := ih (step_keeps hs hstep)
      rwa [List.append_assoc] at hnext

/-- A run whose steps are all steps of another system is a run of that one. -/
theorem imp {step' : σ → ε → σ → Prop} (h : Run step s events t)
    (himp : ∀ {s e t}, e ∈ events → step s e t → step' s e t) : Run step' s events t := by
  induction h with
  | nil => exact .nil _
  | @cons s t u e events hstep _ ih =>
      refine .cons (himp List.mem_cons_self hstep) (ih fun he => himp ?_)
      exact List.mem_cons_of_mem _ he

/-- A run passes through a state that has a property. -/
def Once (step : σ → ε → σ → Prop) (s : σ) (events : List ε) (u : σ) (P : σ → Prop) : Prop :=
  ∃ before after t, events = before ++ after ∧ Run step s before t ∧ Run step t after u ∧ P t

/-- What holds at the end of a run held once. -/
theorem once {P : σ → Prop} (h : Run step s events t) (ht : P t) : Once step s events t P :=
  ⟨events, [], t, (List.append_nil _).symm, h, .nil t, ht⟩

/-- What a run has passed through, its continuation has. -/
theorem Once.snoc {P : σ → Prop} (h : Once step s events t P) (hstep : step t e u) :
    Once step s (events ++ [e]) u P := by
  obtain ⟨before, after, m, rfl, hbefore, hafter, hm⟩ := h
  exact ⟨before, after ++ [e], m, List.append_assoc .., hbefore, hafter.snoc hstep, hm⟩

/-- What following a step function leads to is the end of a run. -/
theorem of_foldlM {next : σ → ε → Option σ} (h : events.foldlM next s = some t) :
    Run (fun s e t => next s e = some t) s events t := by
  induction events generalizing s with
  | nil =>
      cases h
      exact .nil _
  | cons e events ih =>
      rw [List.foldlM_cons] at h
      cases hnext : next s e with
      | none =>
          rw [hnext] at h
          cases h
      | some u =>
          rw [hnext] at h
          exact .cons hnext (ih h)

/-- A run of a step function, found by following it. -/
theorem of_isSome {next : σ → ε → Option σ} (h : (events.foldlM next s).isSome) :
    ∃ t, Run (fun s e t => next s e = some t) s events t := by
  obtain ⟨t, ht⟩ := Option.isSome_iff_exists.1 h
  exact ⟨t, of_foldlM ht⟩

/-- A run of a step function to a state that is found to have a property. -/
theorem of_any {next : σ → ε → Option σ} {P : σ → Prop} [DecidablePred P]
    (h : (events.foldlM next s).any (decide <| P ·) = true) :
    ∃ t, Run (fun s e t => next s e = some t) s events t ∧ P t := by
  obtain ⟨t, ht, hP⟩ := (Option.any_eq_true ..).1 h
  exact ⟨t, of_foldlM ht, of_decide_eq_true hP⟩

end Run
