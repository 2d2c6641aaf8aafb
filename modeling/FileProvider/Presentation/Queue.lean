import FileProvider.Library.Fairness
import FileProvider.Library.Transition
import FileProvider.Presentation.Worker
import Mathlib.Data.List.Nodup

/-!
# The queue of the worker

What every step keeps of the queue, and what becomes of a call of `add`: its path is taken from the
queue after it, or a `cancel` that covers the path takes it away.

The worker and its callers are a step relation, and `Moves` says for one call what an event does to
it. That a path is taken in the end is shown under weak fairness, by the rule of `Library.Fairness`.
-/

namespace FileProvider

namespace Presentation

/-- A `cancel` that covers a path. -/
def Event.Covers : Event → Path → Prop
  | .cancel _ root, p => within p root = true
  | _, _ => False

/-- The path is taken for the call. -/
def Event.Takes (e : Event) (i : Nat) (p : Path) : Prop :=
  ∃ q, e = .take q ∧ q.path = p ∧ i ∈ q.adds

/-- The call of `add` with a path that begins. -/
def Event.begins (p : Path) : Event → Option Nat
  | .addCall i p' => if p' = p then some i else none
  | _ => none

/-- The call of `add` with a path that has its answer. -/
def Event.ends (p : Path) : Event → Option Nat
  | .add i p' => if p' = p then some i else none
  | _ => none

/-- Whether a path is taken from the queue. -/
def Event.isTake (p : Path) : Event → Bool
  | .take q => q.path = p
  | _ => false

namespace Worker

variable {w w' : Worker} {e : Event} {i : Nat} {p root : Path}

/-! ## What a step does -/

/-- What a step does to the queue. -/
inductive Effect (w : Worker) (w' : Worker) : Event → Prop where
  | still {e : Event} : (∀ q, e ≠ .take q) → w'.queue = w.queue → w'.queued = w.queued →
      Effect w w' e
  | coalesced {i : Nat} {p : Path} : p ∈ w.queued →
      w'.queue = (w.queue.map fun q => if q.path = p then ⟨q.path, q.adds ++ [i]⟩ else q) →
      w'.queued = w.queued → Effect w w' (.add i p)
  | pushed {i : Nat} {p : Path} : w.stopping = false → p ∉ w.queued →
      w.queue.length < maximumQueue →
      w'.queue = w.queue ++ [⟨p, [i]⟩] → w'.queued = insert p w.queued → w'.started = true →
      Effect w w' (.add i p)
  | erased {i : Nat} {root : Path} : w'.queue = (w.erase root).queue →
      w'.queued = (w.erase root).queued → Effect w w' (.cancel i root)
  | taken {q : Queued} : w.queue = q :: w'.queue → w'.queued = w.queued.erase q.path →
      w'.active = some (.intake q) → Effect w w' (.take q)

/-- Each kind of step does what `Effect` says of it, guards included; the invariants are read off
from this. -/
theorem step_effect (h : Step w e w') : Effect w w' e := by
  cases e with
  | add i p =>
      simp only [Step, step, Option.ite_none_right_eq_some, Option.some.injEq] at h
      obtain ⟨hadmits, rfl⟩ := h
      unfold enqueue
      split
      · exact .still nofun rfl rfl
      · next hstopping =>
          split
          · next hmem => exact .coalesced hmem rfl rfl
          · next hmem =>
              have hroom : w.queue.length < maximumQueue := by
                simp only [admits, hstopping, hmem, decide_false, Bool.false_or, Bool.or_eq_true,
                  Bool.and_eq_true, decide_eq_true_eq] at hadmits
                exact hadmits.elim (·.2) (·.2)
              exact .pushed (Bool.eq_false_iff.2 hstopping) hmem hroom rfl rfl rfl
  | cancel i root =>
      simp only [Step, step, Option.ite_none_right_eq_some, Option.some.injEq] at h
      obtain ⟨-, rfl⟩ := h
      exact .erased rfl rfl
  | take q =>
      simp only [Step, step] at h
      split at h
      · cases h
      · next first rest hqueue =>
          simp only [Option.ite_none_right_eq_some, Option.some.injEq] at h
          obtain ⟨⟨-, rfl⟩, rfl⟩ := h
          exact .taken hqueue rfl rfl
  | unwatch | stop =>
      obtain rfl := Option.some.inj h
      exact .still nofun rfl rfl
  | _ =>
      simp only [Step, step, Option.ite_none_right_eq_some, Option.some.injEq] at h
      obtain ⟨-, rfl⟩ := h
      exact .still nofun rfl rfl

/-- An event of another thread leaves the worker's thread where it is. -/
theorem step_thread (h : Step w e w') (hnot : ¬ e.ofThread) :
    w'.active = w.active ∧ w'.exited = w.exited := by
  cases e with
  | add i p =>
      simp only [Step, step, Option.ite_none_right_eq_some, Option.some.injEq] at h
      obtain ⟨-, rfl⟩ := h
      unfold enqueue
      split
      · exact ⟨rfl, rfl⟩
      · split
        · exact ⟨rfl, rfl⟩
        · exact ⟨rfl, rfl⟩
  | take | scan | finish | exit => exact absurd trivial hnot
  | unwatch | stop =>
      obtain rfl := Option.some.inj h
      exact ⟨rfl, rfl⟩
  | _ =>
      simp only [Step, step, Option.ite_none_right_eq_some, Option.some.injEq] at h
      obtain ⟨-, rfl⟩ := h
      exact ⟨rfl, rfl⟩

/-- A worker takes the first path of the queue when it has nothing to do. -/
theorem step_take {q : Queued} (h : Step w (.take q) w') :
    w.active = none ∧ w.queue = q :: w'.queue ∧ w'.active = some (.intake q) ∧
      w'.exited = w.exited := by
  simp only [Step, step] at h
  split at h
  · cases h
  · next first rest hqueue =>
      simp only [Option.ite_none_right_eq_some, Option.some.injEq] at h
      obtain ⟨⟨hready, rfl⟩, rfl⟩ := h
      simp only [ready, Bool.and_eq_true, Option.isNone_iff_eq_none] at hready
      exact ⟨hready.2, hqueue, rfl, rfl⟩

/-- A root is scanned when the queue is empty. -/
theorem step_scan (h : Step w (.scan root) w') :
    w.queue = [] ∧ w'.active = some (.scan root) ∧ w'.exited = w.exited := by
  simp only [Step, step, Option.ite_none_right_eq_some, Option.some.injEq] at h
  obtain ⟨⟨-, hempty, -⟩, rfl⟩ := h
  exact ⟨hempty, rfl, rfl⟩

/-- Finishing leaves the worker without a task and the queue as it is. -/
theorem step_finish (h : Step w .finish w') :
    w.active.isSome = true ∧ w'.active = none ∧ w'.queue = w.queue ∧ w'.exited = w.exited := by
  simp only [Step, step, Option.ite_none_right_eq_some, Option.some.injEq] at h
  obtain ⟨hactive, rfl⟩ := h
  exact ⟨hactive, rfl, rfl, rfl⟩

/-- The thread ends when it is stopping and nothing is queued. -/
theorem step_exit (h : Step w .exit w') :
    w.queue = [] ∧ w.stopping = true ∧ w'.active = w.active ∧ w'.queue = w.queue := by
  simp only [Step, step, Option.ite_none_right_eq_some, Option.some.injEq] at h
  obtain ⟨⟨-, hempty, hstopping⟩, rfl⟩ := h
  exact ⟨hempty, hstopping, rfl, rfl⟩

/-- What is set stays set. -/
theorem step_flags (h : Step w e w') :
    (w.started = true → w'.started = true) ∧ (w.stopping = true → w'.stopping = true) := by
  cases e with
  | add i p =>
      simp only [Step, step, Option.ite_none_right_eq_some, Option.some.injEq] at h
      obtain ⟨-, rfl⟩ := h
      unfold enqueue
      split
      · exact ⟨id, id⟩
      · split
        · exact ⟨id, id⟩
        · exact ⟨fun _ => rfl, id⟩
  | take q =>
      simp only [Step, step] at h
      split at h
      · cases h
      · simp only [Option.ite_none_right_eq_some, Option.some.injEq] at h
        obtain ⟨-, rfl⟩ := h
        exact ⟨id, id⟩
  | watch =>
      simp only [Step, step, Option.ite_none_right_eq_some, Option.some.injEq] at h
      obtain ⟨-, rfl⟩ := h
      exact ⟨fun _ => rfl, id⟩
  | unwatch =>
      obtain rfl := Option.some.inj h
      exact ⟨id, id⟩
  | stop =>
      obtain rfl := Option.some.inj h
      exact ⟨id, fun _ => rfl⟩
  | _ =>
      simp only [Step, step, Option.ite_none_right_eq_some, Option.some.injEq] at h
      obtain ⟨-, rfl⟩ := h
      exact ⟨id, id⟩

/-! ## The calls -/

/-- A call of `add` that has its answer. -/
def Answered (w : Worker) (i : Nat) (p : Path) : Prop :=
  w.calls i = some (.added p) ∨ w.calls i = some (.returned p)

/-- Recording where a call stands changes that call alone. -/
theorem call_calls (w : Worker) (i j : Nat) (c : Call) :
    (w.call i c).calls j = if j = i then some c else w.calls j := rfl

/-- Queueing a path changes no call. -/
theorem enqueue_calls (w : Worker) (i : Nat) (p : Path) : (w.enqueue i p).calls = w.calls := by
  unfold enqueue
  split
  · rfl
  · split
    · rfl
    · rfl

/-- What an event does to a call. -/
inductive Moves (j : Nat) : Event → Option Call → Option Call → Prop where
  | rest {e : Event} {c : Option Call} : Moves j e c c
  | addCall {p : Path} : Moves j (.addCall j p) none (some (.adding p))
  | block {p : Path} : Moves j (.block j p) (some (.adding p)) (some (.blocked p))
  | admitted {p : Path} : Moves j (.add j p) (some (.adding p)) (some (.added p))
  | woken {p : Path} : Moves j (.add j p) (some (.blocked p)) (some (.added p))
  | addReturn {p : Path} : Moves j (.addReturn j p) (some (.added p)) (some (.returned p))
  | cancelCall {root : Path} : Moves j (.cancelCall j root) none (some (.cancelling root))
  | cancel {root : Path} :
      Moves j (.cancel j root) (some (.cancelling root)) (some (.waiting root))
  | cancelReturn {root : Path} :
      Moves j (.cancelReturn j root) (some (.waiting root)) (some (.cancelled root))

/-- A call that is set. -/
theorem moves_call {c : Call} {j : Nat} (hcalls : w'.calls = w.calls)
    (hmoves : Moves i e (w.calls i) (some c)) : Moves j e (w.calls j) ((w'.call i c).calls j) := by
  rw [call_calls]
  split
  · next heq =>
      subst heq
      exact hmoves
  · rw [hcalls]
    exact .rest

/-- The step of `add` that queues is one of a call that is adding or was blocked. -/
theorem step_add (h : Step w (.add i p) w') :
    (w.calls i = some (.adding p) ∨ w.calls i = some (.blocked p)) ∧
      w' = (w.enqueue i p).call i (.added p) := by
  simp only [Step, step, Option.ite_none_right_eq_some, Option.some.injEq] at h
  obtain ⟨hadmits, rfl⟩ := h
  simp only [admits, Bool.or_eq_true, Bool.and_eq_true, decide_eq_true_eq] at hadmits
  rcases hadmits with ⟨hcall, -⟩ | ⟨hcall, -⟩
  · exact ⟨.inl hcall, rfl⟩
  · exact ⟨.inr hcall, rfl⟩

/-- Where a call may queue its path, the step that does it is enabled. -/
theorem add_step (h : w.admits i p = true) :
    Step w (.add i p) ((w.enqueue i p).call i (.added p)) := if_pos h

/-- What a step does to a call is one of the moves of `Moves`, with the event as their label. -/
theorem step_calls (h : Step w e w') (j : Nat) : Moves j e (w.calls j) (w'.calls j) := by
  cases e with
  | add i p =>
      obtain ⟨hcall | hcall, rfl⟩ := step_add h
      · exact moves_call (enqueue_calls w i p) (hcall ▸ .admitted)
      · exact moves_call (enqueue_calls w i p) (hcall ▸ .woken)
  | addCall i p =>
      simp only [Step, step, Option.ite_none_right_eq_some, Option.some.injEq] at h
      obtain ⟨hcall, rfl⟩ := h
      exact moves_call rfl (hcall ▸ .addCall)
  | block i p =>
      simp only [Step, step, Option.ite_none_right_eq_some, Option.some.injEq] at h
      obtain ⟨⟨hcall, -⟩, rfl⟩ := h
      exact moves_call rfl (hcall ▸ .block)
  | addReturn i p =>
      simp only [Step, step, Option.ite_none_right_eq_some, Option.some.injEq] at h
      obtain ⟨hcall, rfl⟩ := h
      exact moves_call rfl (hcall ▸ .addReturn)
  | cancelCall i root =>
      simp only [Step, step, Option.ite_none_right_eq_some, Option.some.injEq] at h
      obtain ⟨hcall, rfl⟩ := h
      exact moves_call rfl (hcall ▸ .cancelCall)
  | cancel i root =>
      simp only [Step, step, Option.ite_none_right_eq_some, Option.some.injEq] at h
      obtain ⟨hcall, rfl⟩ := h
      exact moves_call rfl (hcall ▸ .cancel)
  | cancelReturn i root =>
      simp only [Step, step, Option.ite_none_right_eq_some, Option.some.injEq] at h
      obtain ⟨⟨hcall, -⟩, rfl⟩ := h
      exact moves_call rfl (hcall ▸ .cancelReturn)
  | take q =>
      simp only [Step, step] at h
      split at h
      · cases h
      · simp only [Option.ite_none_right_eq_some, Option.some.injEq] at h
        obtain ⟨-, rfl⟩ := h
        exact .rest
  | unwatch | stop =>
      obtain rfl := Option.some.inj h
      exact .rest
  | _ =>
      simp only [Step, step, Option.ite_none_right_eq_some, Option.some.injEq] at h
      obtain ⟨-, rfl⟩ := h
      exact .rest

/-- A call that has queued its path stays one that has. -/
theorem Answered.step {j : Nat} (hj : Answered w j p) (h : Step w e w') : Answered w' j p := by
  have hmoves := step_calls h j
  unfold Answered at hj ⊢
  generalize w.calls j = c at hmoves hj
  generalize w'.calls j = c' at hmoves
  cases hmoves with
  | rest => exact hj
  | addReturn =>
      rcases hj with heq | heq
      · cases heq
        exact .inr rfl
      · cases heq
  | _ => rcases hj with heq | heq <;> cases heq

/-- The step that queues a path answers the call that asked for it. -/
theorem answered_add (h : Step w (.add i p) w') : Answered w' i p := by
  obtain ⟨-, rfl⟩ := step_add h
  refine .inl ?_
  rw [call_calls, if_pos rfl]

/-- A call is answered once: before the step that queues its path it was not. -/
theorem not_answered_add {q : Path} (h : Step w (.add i p) w') : ¬ Answered w i q := by
  obtain ⟨hcall, -⟩ := step_add h
  rintro (hanswered | hanswered)
  · rcases hcall with hcall | hcall <;> cases hcall.symm.trans hanswered
  · rcases hcall with hcall | hcall <;> cases hcall.symm.trans hanswered

/-! ## What every step keeps -/

/-- What every step of a worker keeps: the paths that are noted are those in the queue, each of them
once and no more than it holds, and each of them for calls of `add` that have their answer. -/
structure Sound (w : Worker) : Prop where
  queued : ∀ p, p ∈ w.queued ↔ p ∈ w.queue.map (·.path)
  nodup : (w.queue.map (·.path)).Nodup
  bounded : w.queue.length ≤ maximumQueue
  awake : w.queue ≠ [] → w.started = true ∧ w.exited = false
  exited : w.exited = true → w.stopping = true
  known : ∀ q ∈ w.queue, ∀ i ∈ q.adds, Answered w i q.path
  working : ∀ q, w.active = some (.intake q) → ∀ i ∈ q.adds, Answered w i q.path

namespace Sound

/-- The worker is sound before its first step. -/
theorem initial : Sound initial :=
  ⟨fun _ => ⟨nofun, nofun⟩, .nil, Nat.zero_le _, fun h => absurd rfl h, nofun, nofun, nofun⟩

/-- Adding a call to a path that is queued changes no path of the queue. -/
theorem coalesce (w : Worker) (i : Nat) (p : Path) :
    (w.queue.map fun q => if q.path = p then ⟨q.path, q.adds ++ [i]⟩ else q).map (·.path)
      = w.queue.map (·.path) := by
  rw [List.map_map]
  refine List.map_congr_left fun q _ => ?_
  dsimp only [Function.comp_apply]
  split
  · rfl
  · rfl

/-- What a cancellation erases are the queued paths within the root. -/
theorem mem_erased {q : Queued} :
    q.path ∈ ((w.queue.filter fun q => within q.path root).map (·.path)).toFinset ↔
      within q.path root = true ∧ q.path ∈ w.queue.map (·.path) := by
  rw [List.mem_toFinset, List.mem_map, List.mem_map]
  constructor
  · rintro ⟨r, hr, hpath⟩
    rw [List.mem_filter] at hr
    exact ⟨hpath ▸ hr.2, r, hr.1, hpath⟩
  · rintro ⟨hwithin, r, hr, hpath⟩
    exact ⟨r, List.mem_filter.2 ⟨hr, hpath ▸ hwithin⟩, hpath⟩

/-- The thread ends in no state other than one in which it is stopping. -/
theorem exited_step (hw : Sound w) (h : Step w e w') (hexited : w'.exited = true) :
    w'.stopping = true := by
  by_cases hthread : e.ofThread
  · cases e with
    | take q => exact (step_flags h).2 (hw.exited ((step_take h).2.2.2 ▸ hexited))
    | scan root => exact (step_flags h).2 (hw.exited ((step_scan h).2.2 ▸ hexited))
    | finish => exact (step_flags h).2 (hw.exited ((step_finish h).2.2.2 ▸ hexited))
    | exit => exact (step_flags h).2 (step_exit h).2.1
    | _ => exact hthread.elim
  · exact (step_flags h).2 (hw.exited ((step_thread h hthread).2 ▸ hexited))

/-- The calls of the path that is taken in are answered. The thread took the path with the calls
that wait for it, and only the thread moves on from it. -/
theorem working_step (hw : Sound w) (h : Step w e w') {q : Queued}
    (hactive : w'.active = some (.intake q)) {i : Nat} (hi : i ∈ q.adds) :
    Answered w' i q.path := by
  by_cases hthread : e.ofThread
  · cases e with
    | take r =>
        obtain ⟨-, hqueue, hnow, -⟩ := step_take h
        obtain rfl : r = q := by
          rw [hnow] at hactive
          cases hactive
          rfl
        have hmem : r ∈ w.queue := hqueue ▸ List.mem_cons_self
        exact (hw.known r hmem i hi).step h
    | scan root =>
        obtain ⟨-, hnow, -⟩ := step_scan h
        cases hnow.symm.trans hactive
    | finish =>
        obtain ⟨-, hnow, -⟩ := step_finish h
        cases hnow.symm.trans hactive
    | exit =>
        obtain ⟨-, -, hnow, -⟩ := step_exit h
        exact (hw.working q (hnow ▸ hactive) i hi).step h
    | _ => exact hthread.elim
  · exact (hw.working q ((step_thread h hthread).1 ▸ hactive) i hi).step h

/-- A queue with something in it has a thread that was started and has not ended. -/
theorem awake_step (hw : Sound w) (h : Step w e w') (hqueue : w.queue ≠ []) :
    w'.started = true ∧ w'.exited = false := by
  obtain ⟨hstarted, hexited⟩ := hw.awake hqueue
  refine ⟨(step_flags h).1 hstarted, ?_⟩
  by_cases hthread : e.ofThread
  · cases e with
    | take q => exact (step_take h).2.2.2.trans hexited
    | scan root => exact absurd (step_scan h).1 hqueue
    | finish => exact (step_finish h).2.2.2.trans hexited
    | exit => exact absurd (step_exit h).1 hqueue
    | _ => exact hthread.elim
  · exact (step_thread h hthread).2.trans hexited

/-- **Every step keeps what a worker keeps.** The cases are the effects of a step on the queue; the
calls that wait in it, and those that the thread works for, have their answer or keep their place.
-/
theorem step (hw : Sound w) (h : Step w e w') : Sound w' := by
  have hknown : ∀ q ∈ w.queue, ∀ i ∈ q.adds, Answered w' i q.path :=
    fun q hq i hi => (hw.known q hq i hi).step h
  have hexited := exited_step hw h
  have hworking := fun q hq i hi => working_step (q := q) (i := i) hw h hq hi
  cases step_effect h with
  | still _ hqueue hqueued =>
      refine ⟨?_, hqueue ▸ hw.nodup, hqueue ▸ hw.bounded, fun hne => ?_, hexited, ?_, hworking⟩
      · rw [hqueue, hqueued]
        exact hw.queued
      · exact awake_step hw h (hqueue ▸ hne)
      · rw [hqueue]
        exact hknown
  | @coalesced i p hmem hqueue hqueued =>
      have hpaths : w'.queue.map (·.path) = w.queue.map (·.path) := by
        rw [hqueue]
        exact coalesce w i p
      refine ⟨?_, hpaths ▸ hw.nodup, ?_, fun hne => ?_, hexited, fun q hq j hj => ?_, hworking⟩
      · rw [hpaths, hqueued]
        exact hw.queued
      · rw [hqueue, List.length_map]
        exact hw.bounded
      · refine awake_step hw h fun hnil => hne ?_
        rw [hqueue, hnil]
        rfl
      · rw [hqueue, List.mem_map] at hq
        obtain ⟨r, hr, rfl⟩ := hq
        split at hj
        · next hpath =>
            rw [if_pos hpath]
            rcases List.mem_append.1 hj with hj | hj
            · exact hknown r hr j hj
            · obtain rfl := List.mem_singleton.1 hj
              exact hpath ▸ answered_add h
        · next hpath =>
            rw [if_neg hpath]
            exact hknown r hr j hj
  | @pushed i p hstopping hmem hroom hqueue hqueued hstarted =>
      have hnew : p ∉ w.queue.map (·.path) := fun hp => hmem ((hw.queued p).2 hp)
      refine ⟨fun p' => ?_, ?_, ?_, fun _ => ⟨hstarted, ?_⟩, hexited, fun q hq j hj => ?_, hworking⟩
      · rw [hqueue, hqueued, List.map_append, Finset.mem_insert, List.mem_append, hw.queued,
          List.map_singleton, List.mem_singleton, or_comm]
      · rw [hqueue, List.map_append, List.nodup_append]
        refine ⟨hw.nodup, List.nodup_singleton p, ?_⟩
        rintro a ha b hb rfl
        have hpath : a = p := List.mem_singleton.1 hb
        exact hnew (hpath ▸ ha)
      · rw [hqueue, List.length_append, List.length_singleton]
        exact hroom
      · rw [(step_thread h id).2]
        refine Bool.eq_false_iff.2 fun htrue => ?_
        cases hstopping.symm.trans (hw.exited htrue)
      · rw [hqueue, List.mem_append, List.mem_singleton] at hq
        rcases hq with hq | rfl
        · exact hknown q hq j hj
        · obtain rfl := List.mem_singleton.1 hj
          exact answered_add h
  | @erased i root hqueue hqueued =>
      have hsub : w'.queue.Sublist w.queue := hqueue ▸ List.filter_sublist
      have hmem : ∀ q, q ∈ w'.queue ↔ q ∈ w.queue ∧ within q.path root = false := by
        intro q
        rw [hqueue]
        show q ∈ w.queue.filter _ ↔ _
        rw [List.mem_filter, Bool.not_eq_true']
      refine ⟨fun p => ?_, hw.nodup.sublist (hsub.map _), ?_, fun hne => ?_, hexited,
        fun q hq => hknown q (hsub.subset hq), hworking⟩
      · rw [hqueued]
        show p ∈ w.queued \ _ ↔ _
        rw [Finset.mem_sdiff, hw.queued]
        constructor
        · rintro ⟨hp, hnot⟩
          obtain ⟨q, hq, rfl⟩ := List.mem_map.1 hp
          refine List.mem_map.2 ⟨q, (hmem q).2 ⟨hq, ?_⟩, rfl⟩
          exact Bool.eq_false_iff.2 fun hwithin => hnot (mem_erased.2 ⟨hwithin, hp⟩)
        · rintro hp
          obtain ⟨q, hq, rfl⟩ := List.mem_map.1 hp
          obtain ⟨hq, hwithin⟩ := (hmem q).1 hq
          refine ⟨List.mem_map.2 ⟨q, hq, rfl⟩, fun hgone => ?_⟩
          cases hwithin.symm.trans (mem_erased.1 hgone).1
      · exact hsub.length_le.trans hw.bounded
      · exact awake_step hw h fun hnil => hne (List.eq_nil_of_subset_nil (hnil ▸ hsub.subset))
  | @taken q hqueue hqueued hactive =>
      have hnodup := hw.nodup
      rw [hqueue, List.map_cons, List.nodup_cons] at hnodup
      have hsub : ∀ r ∈ w'.queue, r ∈ w.queue := fun r hr => hqueue ▸ List.mem_cons_of_mem q hr
      refine ⟨fun p => ?_, hnodup.2, ?_, fun _ => ?_, hexited, fun r hr => hknown r (hsub r hr),
        hworking⟩
      · rw [hqueued, Finset.mem_erase, hw.queued, hqueue, List.map_cons, List.mem_cons]
        constructor
        · rintro ⟨hne, hp⟩
          exact hp.resolve_left hne
        · rintro hp
          exact ⟨fun heq => hnodup.1 (heq ▸ hp), .inr hp⟩
      · have hbounded := hw.bounded
        rw [hqueue, List.length_cons] at hbounded
        omega
      · exact awake_step hw h (by rw [hqueue]; exact nofun)

end Sound

/-! ## A path that waits for its turn -/

/-- A path in the queue for a call of `add`, and how many steps of the worker's thread it can wait
for at most. -/
def Awaits (i : Nat) (p : Path) (r : Nat) (w : Worker) : Prop :=
  Sound w ∧ ∃ before q after, w.queue = before ++ q :: after ∧ q.path = p ∧ i ∈ q.adds ∧
    2 * before.length + (if w.active.isSome = true then 1 else 0) = r

/-- A path stays in the queue, and no farther from its front, until it is taken. The cases are the
effects of a step on the queue: a new path comes behind the others, one that is there is given the
call, and taking the front moves the others up. -/
theorem queue_step (h : Step w e w') {before after : List Queued} {q : Queued}
    (hqueue : w.queue = before ++ q :: after) {i : Nat} (hi : i ∈ q.adds)
    (hcovers : ¬ e.Covers q.path) :
    e.Takes i q.path ∨ ∃ before' q' after', w'.queue = before' ++ q' :: after' ∧
      q'.path = q.path ∧ i ∈ q'.adds ∧ before'.length ≤ before.length ∧
      ∀ r, e = .take r → before'.length < before.length := by
  cases step_effect h with
  | still hnot hsame =>
      exact .inr ⟨before, q, after, hsame.trans hqueue, rfl, hi, le_rfl,
        fun r hr => absurd hr (hnot r)⟩
  | @coalesced j p hmem hsame =>
      rw [hqueue, List.map_append, List.map_cons] at hsame
      refine .inr ⟨_, _, _, hsame, ?_, ?_, (List.length_map _).le, nofun⟩
      · split
        · rfl
        · rfl
      · split
        · exact List.mem_append_left _ hi
        · exact hi
  | pushed _ _ _ hsame =>
      rw [hqueue, List.append_assoc, List.cons_append] at hsame
      exact .inr ⟨before, q, _, hsame, rfl, hi, le_rfl, nofun⟩
  | @erased j root hsame =>
      have hkept : within q.path root = false := Bool.eq_false_iff.2 hcovers
      change w'.queue = w.queue.filter _ at hsame
      rw [hqueue, List.filter_append, List.filter_cons_of_pos (by rw [hkept]; rfl)] at hsame
      exact .inr ⟨_, q, _, hsame, rfl, hi, List.length_filter_le _ _, nofun⟩
  | @taken r hsame =>
      rw [hqueue] at hsame
      cases before with
      | nil =>
          obtain ⟨rfl, -⟩ := List.cons.inj hsame
          exact .inl ⟨q, rfl, rfl, hi⟩
      | cons b before =>
          obtain ⟨rfl, hrest⟩ := List.cons.inj hsame
          exact .inr ⟨before, q, after, hrest.symm, rfl, hi, Nat.le_succ _,
            fun _ _ => Nat.lt_succ_self _⟩

/-- While a path waits, a step takes it, or it keeps waiting with a rank that does not grow and that
each step of the thread lowers. -/
theorem Awaits.step {r : Nat} (hw : Awaits i p r w) (h : Step w e w') (hcovers : ¬ e.Covers p) :
    e.Takes i p ∨ ∃ r', r' ≤ r ∧ (e.ofThread → r' < r) ∧ Awaits i p r' w' := by
  obtain ⟨hsound, before, q, after, hqueue, rfl, hi, rfl⟩ := hw
  have hne : w.queue ≠ [] := by
    rw [hqueue]
    exact List.append_ne_nil_of_right_ne_nil before nofun
  rcases queue_step h hqueue hi hcovers with htakes | hstays
  · exact .inl htakes
  obtain ⟨before', q', after', hqueue', hpath, hi', hle, hlt⟩ := hstays
  suffices hrank : 2 * before'.length + (if w'.active.isSome = true then 1 else 0)
      ≤ 2 * before.length + (if w.active.isSome = true then 1 else 0) ∧
      (e.ofThread → 2 * before'.length + (if w'.active.isSome = true then 1 else 0)
        < 2 * before.length + (if w.active.isSome = true then 1 else 0)) from
    .inr ⟨_, hrank.1, hrank.2, hsound.step h, before', q', after', hqueue', hpath, hi', rfl⟩
  by_cases hthread : e.ofThread
  · suffices hless : 2 * before'.length + (if w'.active.isSome = true then 1 else 0)
        < 2 * before.length + (if w.active.isSome = true then 1 else 0) from
      ⟨hless.le, fun _ => hless⟩
    cases e with
    | take r =>
        obtain ⟨hidle, -, hactive, -⟩ := step_take h
        have hfront := hlt r rfl
        rw [hidle, hactive]
        simp only [Option.isSome_some, Option.isSome_none, if_true, Bool.false_eq_true, if_false]
        omega
    | finish =>
        obtain ⟨hbusy, hactive, -, -⟩ := step_finish h
        rw [hbusy, hactive]
        simp only [Option.isSome_none, if_true, Bool.false_eq_true, if_false]
        omega
    | scan root => exact absurd (step_scan h).1 hne
    | exit => exact absurd (step_exit h).1 hne
    | _ => exact hthread.elim
  · rw [(step_thread h hthread).1]
    exact ⟨by omega, fun hnow => absurd hnow hthread⟩

/-- While a path waits, the worker's thread can go on. It takes the front of the queue if it is
idle, and otherwise it ends what it works for. -/
theorem Awaits.enabled {r : Nat} (hw : Awaits i p r w) :
    Behaviour.Enabled Step Event.ofThread w := by
  obtain ⟨hsound, before, q, after, hqueue, -, -, -⟩ := hw
  cases hactive : w.active with
  | some a =>
      refine ⟨.finish, { w with active := none }, trivial, ?_⟩
      unfold Step Worker.step
      rw [hactive]
      rfl
  | none =>
      obtain ⟨first, rest, hfirst⟩ : ∃ first rest, w.queue = first :: rest := by
        rw [hqueue]
        cases before with
        | nil => exact ⟨q, after, rfl⟩
        | cons b before => exact ⟨b, before ++ q :: after, rfl⟩
      obtain ⟨hstarted, hexited⟩ := hsound.awake (by rw [hfirst]; exact nofun)
      have hready : w.ready = true := by
        unfold ready
        rw [hstarted, hexited, hactive]
        rfl
      refine ⟨.take first, { w with
        queue := rest, queued := w.queued.erase first.path, active := some (.intake first) },
        trivial, ?_⟩
      unfold Step Worker.step
      rw [hfirst]
      exact if_pos ⟨hready, rfl⟩

/-- A path that is admitted waits for its turn. -/
theorem awaits_add (hw : Sound w) (h : Step w (.add i p) w') (hstopping : w.stopping = false) :
    ∃ r, Awaits i p r w' := by
  obtain ⟨-, hafter⟩ := step_add h
  have henqueue : w'.queue = (w.enqueue i p).queue := by
    rw [hafter]
    rfl
  unfold enqueue at henqueue
  rw [if_neg (by rw [hstopping]; exact nofun)] at henqueue
  split at henqueue
  · next hmem =>
      obtain ⟨q, hq, hpath⟩ := List.mem_map.1 ((hw.queued p).1 hmem)
      have hin : (⟨q.path, q.adds ++ [i]⟩ : Queued) ∈ w'.queue := by
        rw [henqueue]
        exact List.mem_map.2 ⟨q, hq, if_pos hpath⟩
      obtain ⟨before, after, hqueue⟩ := List.append_of_mem hin
      exact ⟨_, hw.step h, before, _, after, hqueue, hpath,
        List.mem_append_right _ (List.mem_singleton.2 rfl), rfl⟩
  · exact ⟨_, hw.step h, w.queue, ⟨p, [i]⟩, [], henqueue, rfl, List.mem_singleton.2 rfl, rfl⟩

/-! ## A path that has been taken away -/

/-- A call of `add` whose path is not in the queue for it any more. -/
def Gone (i : Nat) (p : Path) (w : Worker) : Prop :=
  Answered w i p ∧ ∀ q ∈ w.queue, i ∉ q.adds

/-- A path that a cancellation has cleared is taken by no later step for the calls that were
cleared. -/
theorem Gone.step (hw : Gone i p w) (h : Step w e w') : Gone i p w' ∧ ¬ e.Takes i p := by
  obtain ⟨hanswered, hnot⟩ := hw
  refine ⟨⟨hanswered.step h, fun q hq => ?_⟩, ?_⟩
  · cases step_effect h with
    | still _ hqueue => exact hnot q (hqueue ▸ hq)
    | @coalesced j p' hmem hqueue =>
        rw [hqueue, List.mem_map] at hq
        obtain ⟨r, hr, rfl⟩ := hq
        split
        · rintro hi
          rcases List.mem_append.1 hi with hi | hi
          · exact hnot r hr hi
          · obtain rfl := List.mem_singleton.1 hi
            exact not_answered_add h hanswered
        · exact hnot r hr
    | @pushed j p' _ _ _ hqueue =>
        rw [hqueue, List.mem_append, List.mem_singleton] at hq
        rcases hq with hq | rfl
        · exact hnot q hq
        · rintro hi
          obtain rfl := List.mem_singleton.1 hi
          exact not_answered_add h hanswered
    | erased hqueue =>
        rw [hqueue] at hq
        exact hnot q (List.mem_of_mem_filter hq)
    | taken hqueue => exact hnot q (hqueue ▸ List.mem_cons_of_mem _ hq)
  · rintro ⟨q, rfl, -, hi⟩
    exact hnot q ((step_take h).2.1 ▸ List.mem_cons_self) hi

/-- A `cancel` takes away what it covers. -/
theorem gone_cancel {k : Nat} (hw : Sound w) (hanswered : Answered w i p)
    (hwithin : within p root = true) (h : Step w (.cancel k root) w') : Gone i p w' := by
  refine ⟨hanswered.step h, fun q hq hi => ?_⟩
  simp only [Step, step, Option.ite_none_right_eq_some, Option.some.injEq] at h
  obtain ⟨-, rfl⟩ := h
  change q ∈ w.queue.filter _ at hq
  rw [List.mem_filter, Bool.not_eq_true'] at hq
  obtain ⟨hq, houtside⟩ := hq
  have hpath : q.path = p := by
    rcases hw.known q hq i hi with hcall | hcall
    · rcases hanswered with hcall' | hcall'
      · cases hcall.symm.trans hcall'
        rfl
      · cases hcall.symm.trans hcall'
    · rcases hanswered with hcall' | hcall'
      · cases hcall.symm.trans hcall'
      · cases hcall.symm.trans hcall'
        rfl
  cases (hpath ▸ hwithin).symm.trans houtside

/-! ## How often a path is taken -/

/-- What the events so far say about the calls and the queue. -/
structure Counted (p : Path) (events : List Event) (w : Worker) : Prop where
  sound : Sound w
  begun : ∀ i, w.calls i = some (.adding p) ∨ w.calls i = some (.blocked p) →
    i ∈ events.filterMap (·.begins p)
  ended : ∀ i ∈ events.filterMap (·.ends p), Answered w i p ∧ i ∈ events.filterMap (·.begins p)
  once : (events.filterMap (·.ends p)).Nodup
  taken : events.countP (·.isTake p) + w.queue.countP (·.path = p)
    ≤ (events.filterMap (·.ends p)).length

/-- The counts agree before the first step, when nothing was queued. -/
theorem Counted.initial (p : Path) : Counted p [] initial :=
  ⟨.initial, fun _ h => h.elim nofun nofun, nofun, .nil, le_rfl⟩

/-- Adding takes no path. -/
theorem isTake_add : (Event.add i root).isTake p = false := rfl

/-- Cancelling takes no path. -/
theorem isTake_cancel : (Event.cancel i root).isTake p = false := rfl

/-- Taking an entry takes its path. -/
theorem isTake_take {q : Queued} : (Event.take q).isTake p = decide (q.path = p) := rfl

/-- An added path ends the waiting of its own call. -/
theorem ends_add {p' : Path} : (Event.add i p').ends p = if p' = p then some i else none := rfl

/-- What one more event adds to the calls. -/
theorem filterMap_snoc (f : Event → Option Nat) (events : List Event) (e : Event) :
    (events ++ [e]).filterMap f = events.filterMap f ++ (f e).toList := by
  rw [List.filterMap_append]
  cases h : f e with
  | none => rw [List.filterMap_cons_none h, List.filterMap_nil, Option.toList_none]
  | some => rw [List.filterMap_cons_some h, List.filterMap_nil, Option.toList_some]

/-- A further event adds one to the count when it takes the path. -/
theorem countP_snoc (events : List Event) (e : Event) :
    (events ++ [e]).countP (·.isTake p)
      = events.countP (·.isTake p) + if e.isTake p = true then 1 else 0 := by
  rw [List.countP_append, List.countP_singleton]

/-- The queue and what has been taken from it grow by no more than the calls that have their
answer. -/
theorem taken_step {events : List Event} (hw : Counted p events w) (h : Step w e w') :
    (events ++ [e]).countP (·.isTake p) + w'.queue.countP (·.path = p)
      ≤ ((events ++ [e]).filterMap (·.ends p)).length := by
  have htaken := hw.taken
  rw [filterMap_snoc, countP_snoc, List.length_append]
  cases step_effect h with
  | still hnot hqueue =>
      have hno : e.isTake p = false := by
        cases e with
        | take q => exact absurd rfl (hnot q)
        | _ => rfl
      rw [hqueue, hno]
      simp only [Bool.false_eq_true, if_false]
      omega
  | @coalesced i p' hmem hqueue =>
      have hcount : w'.queue.countP (·.path = p) = w.queue.countP (·.path = p) := by
        rw [hqueue, List.countP_map]
        refine List.countP_congr fun q _ => ?_
        dsimp only [Function.comp_apply]
        split
        · exact Iff.rfl
        · exact Iff.rfl
      rw [hcount, isTake_add]
      simp only [Bool.false_eq_true, if_false]
      omega
  | @pushed i p' _ _ _ hqueue =>
      rw [hqueue, isTake_add, List.countP_append, List.countP_singleton, ends_add]
      simp only [Bool.false_eq_true, if_false, decide_eq_true_eq]
      by_cases hpath : p' = p
      · rw [if_pos hpath, if_pos hpath, Option.toList_some, List.length_singleton]
        omega
      · rw [if_neg hpath, if_neg hpath, Option.toList_none, List.length_nil]
        omega
  | @erased i root hqueue =>
      have hcount : w'.queue.countP (·.path = p) ≤ w.queue.countP (·.path = p) := by
        rw [hqueue]
        exact List.filter_sublist.countP_le
      rw [isTake_cancel]
      simp only [Bool.false_eq_true, if_false]
      omega
  | @taken q hqueue =>
      rw [hqueue, List.countP_cons] at htaken
      rw [isTake_take]
      omega

/-- Each step keeps the count: an entry that is queued is taken once or cleared once. The moves of
each call say whether the event begins it, ends it or leaves it, and the effect on the queue says
whether an entry is taken. -/
theorem Counted.step {events : List Event} (hw : Counted p events w) (h : Step w e w') :
    Counted p (events ++ [e]) w' := by
  have hbegun : ∀ i, w'.calls i = some (.adding p) ∨ w'.calls i = some (.blocked p) →
      i ∈ (events ++ [e]).filterMap (·.begins p) := by
    intro i hi
    rw [filterMap_snoc, List.mem_append]
    have hmoves := step_calls h i
    have hbefore := hw.begun i
    generalize w.calls i = c at hmoves hbefore
    generalize w'.calls i = c' at hmoves hi
    cases hmoves with
    | rest => exact .inl (hbefore hi)
    | @addCall p' =>
        refine .inr ?_
        have hpath : p' = p := by simpa using hi
        rw [Event.begins, if_pos hpath]
        exact List.mem_singleton.2 rfl
    | @block p' =>
        have hpath : p' = p := by simpa using hi
        exact .inl (hbefore (.inl (hpath ▸ rfl)))
    | _ => rcases hi with hi | hi <;> cases hi
  refine ⟨hw.sound.step h, hbegun, fun i hi => ?_, ?_, taken_step hw h⟩
  · rw [filterMap_snoc, List.mem_append] at hi
    rw [filterMap_snoc, List.mem_append]
    rcases hi with hi | hi
    · exact ⟨(hw.ended i hi).1.step h, .inl (hw.ended i hi).2⟩
    · cases e with
      | add j p' =>
          rw [Event.ends] at hi
          split at hi
          · next hpath =>
              obtain rfl := List.mem_singleton.1 hi
              subst hpath
              exact ⟨answered_add h, .inl (hw.begun i (step_add h).1)⟩
          · cases hi
      | _ => cases hi
  · rw [filterMap_snoc]
    cases e with
    | add j p' =>
        rw [Event.ends]
        split
        · rw [List.nodup_append]
          refine ⟨hw.once, List.nodup_singleton j, ?_⟩
          rintro a ha b hb rfl
          obtain rfl := List.mem_singleton.1 hb
          exact not_answered_add h (hw.ended a ha).1
        · rw [Option.toList_none, List.append_nil]
          exact hw.once
    | _ =>
        rw [show Event.ends p _ = none from rfl, Option.toList_none, List.append_nil]
        exact hw.once

/-! ## Whole runs -/

/-- The counts agree in every run from the start. -/
theorem counted_run {events : List Event} (h : Run Step initial events w) (p : Path) :
    Counted p events w :=
  h.history (I := Counted p) (fun hw hstep => hw.step hstep) (.initial p)

/-- Every state that a run reaches from the start is sound. -/
theorem sound_run {events : List Event} (h : Run Step initial events w) : Sound w :=
  h.invariant (fun hw hstep => hw.step hstep) .initial

/-- A call that has queued its path stays so in every run. -/
theorem answered_run {events : List Event} (h : Run Step w events w') (hw : Answered w i p) :
    Answered w' i p :=
  h.invariant (I := fun w => Answered w i p) (fun hw hstep => hw.step hstep) hw

/-- A call of `add` returns after it has queued its path. -/
theorem step_addReturn (h : Step w (.addReturn i p) w') : Answered w' i p := by
  simp only [Step, step, Option.ite_none_right_eq_some, Option.some.injEq] at h
  obtain ⟨-, rfl⟩ := h
  refine .inr ?_
  rw [call_calls, if_pos rfl]

/-- A cancellation returns when nothing within its root is queued or at work. -/
theorem step_cancelReturn {k : Nat} (h : Step w (.cancelReturn k root) w') :
    w.calls k = some (.waiting root) ∧ w.clear root = true ∧ w'.queue = w.queue ∧
      w'.active = w.active := by
  simp only [Step, step, Option.ite_none_right_eq_some, Option.some.injEq] at h
  obtain ⟨⟨hcall, hclear⟩, rfl⟩ := h
  exact ⟨hcall, hclear, rfl, rfl⟩

/-- A cancellation that begins stands at its first section. -/
theorem step_cancelCall {k : Nat} (h : Step w (.cancelCall k root) w') :
    w'.calls k = some (.cancelling root) := by
  simp only [Step, step, Option.ite_none_right_eq_some, Option.some.injEq] at h
  obtain ⟨-, rfl⟩ := h
  rw [call_calls, if_pos rfl]

/-- Between the beginning of a `cancel` and its end, it takes away what it covers. -/
theorem gone_run {events : List Event} {k : Nat} (h : Run Step w events w') (hw : Sound w)
    (hanswered : Answered w i p) (hwithin : within p root = true)
    (hcall : w.calls k = some (.cancelling root)) (hend : w'.calls k = some (.waiting root)) :
    Gone i p w' := by
  induction h with
  | nil => cases hcall.symm.trans hend
  | @cons w mid w' e events hstep hrest ih =>
      have hmoves := step_calls hstep k
      rw [hcall] at hmoves
      generalize hmid : mid.calls k = c at hmoves
      cases hmoves with
      | rest => exact ih (hw.step hstep) (hanswered.step hstep) hmid hend
      | cancel =>
          have hgone := gone_cancel hw hanswered hwithin hstep
          exact hrest.invariant (fun hg hnext => (hg.step hnext).1) hgone

/-- What was cleared is taken in no run that follows. -/
theorem not_taken_run {events : List Event} (h : Run Step w events w') (hw : Gone i p w) :
    ∀ e ∈ events, ¬ e.Takes i p := by
  induction h with
  | nil => exact nofun
  | cons hstep _ ih =>
      obtain ⟨hgone, hnot⟩ := hw.step hstep
      exact List.forall_mem_cons.2 ⟨hnot, ih hgone⟩

/-- A call that has its answer has had its turn. -/
theorem add_before (b : Behaviour Step) (hstart : b.state 0 = initial) {i : Nat} {p : Path}
    {m : Nat} (h : (b.state m).calls i = some (.added p)) : ∃ n, n < m ∧ b.event n = .add i p := by
  induction m with
  | zero =>
      rw [hstart] at h
      cases h
  | succ m ih =>
      have hmoves := step_calls (b.steps m) i
      generalize hc : (b.state m).calls i = c at hmoves
      generalize (b.state (m + 1)).calls i = c' at hmoves h
      generalize he : b.event m = e at hmoves
      cases hmoves with
      | rest =>
          obtain ⟨n, hlt, hn⟩ := ih (hc.trans h)
          exact ⟨n, Nat.lt_succ_of_lt hlt, hn⟩
      | admitted | woken =>
          cases h
          exact ⟨m, Nat.lt_succ_self m, he⟩
      | _ => cases h

/-- What a run leaves of the queue. -/
structure Kept (events : List Event) (w : Worker) : Prop where
  queued : ∀ p, p ∈ w.queued ↔ p ∈ w.queue.map (·.path)
  nodup : (w.queue.map (·.path)).Nodup
  bounded : w.queue.length ≤ maximumQueue
  often : ∀ p, events.countP (·.isTake p) ≤ (events.filterMap (·.begins p)).length

/-- Every run from the start keeps the record of its events. -/
theorem kept_run {events : List Event} (h : Run Step initial events w) : Kept events w := by
  have hsound := sound_run h
  refine ⟨hsound.queued, hsound.nodup, hsound.bounded, fun p => ?_⟩
  have hcounted := counted_run h p
  have hsub : (events.filterMap (·.ends p)).length ≤ (events.filterMap (·.begins p)).length :=
    (hcounted.once.subperm fun i hi => (hcounted.ended i hi).2).length_le
  have htaken := hcounted.taken
  omega

/-- **The worker's queue.** The paths that are noted are those in the queue, each once and no more
than it holds, and none is taken more often than it was added. Where the worker's thread is not
stopped from going on, an `add` that returns before the worker is stopped, and that no `cancel` of
the path follows, is followed by the path being taken for it. And when a `cancel` returns, no path
that it covers is in the queue or taken later for an `add` that had returned before, and none is
being processed. -/
theorem queue_intact :
    (∀ events w, Run Step initial events w → Kept events w) ∧
    (∀ b : Behaviour Step, b.state 0 = initial → b.Fair Event.ofThread → ∀ m i p,
      b.event m = .addReturn i p → (b.state m).stopping = false →
      ∃ n, n < m ∧ b.event n = .add i p ∧ ((∀ k, n < k → ¬ (b.event k).Covers p) →
        ∃ k, n < k ∧ (b.event k).Takes i p)) ∧
    ∀ before between after i k p root w w',
      Run Step initial (before ++ .addReturn i p :: between) w → within p root = true →
      ∀ u v events, Step w (.cancelCall k root) u → Run Step u events v →
        Step v (.cancelReturn k root) w' → ∀ w'', Run Step w' after w'' →
        (∀ q ∈ w'.queue, i ∉ q.adds) ∧ (∀ a, w'.active = some a → within a.path root = false) ∧
        ∀ e ∈ after, ¬ e.Takes i p := by
  refine ⟨fun events w h => kept_run h, fun b hstart hfair m i p hreturn hstopping => ?_, ?_⟩
  · have hcall : (b.state m).calls i = some (.added p) := by
      have hstep := b.steps m
      rw [hreturn] at hstep
      simp only [Step, step, Option.ite_none_right_eq_some] at hstep
      exact hstep.1
    obtain ⟨n, hlt, hadd⟩ := add_before b hstart hcall
    refine ⟨n, hlt, hadd, fun hcovers => ?_⟩
    have hsound : Sound (b.state n) :=
      b.invariant (fun hw hstep => hw.step hstep) (hstart ▸ Sound.initial) (Nat.zero_le n)
    have hrunning : (b.state n).stopping = false := by
      refine Bool.eq_false_iff.2 fun hstopped => ?_
      have hstill := b.invariant (I := fun w => w.stopping = true)
        (fun hw hstep => (step_flags hstep).2 hw) hstopped hlt.le
      cases hstopping.symm.trans hstill
    have hstep := b.steps n
    rw [hadd] at hstep
    obtain ⟨r, hawaits⟩ := awaits_add hsound hstep hrunning
    let I (r : Nat) (w : Worker) : Prop := ∃ r', r' ≤ r ∧ Awaits i p r' w
    have hkeeps : ∀ {r w e w'}, I r w → Step w e w' → ¬ e.Covers p → e.Takes i p ∨ I r w' := by
      rintro r w e w' ⟨r', hle, hw⟩ hstep hnot
      rcases hw.step hstep hnot with htakes | ⟨s, hs, -, hw'⟩
      · exact .inl htakes
      · exact .inr ⟨s, hs.trans hle, hw'⟩
    have hlowers : ∀ {r w e w'}, I r w → Step w e w' → ¬ e.Covers p → e.ofThread →
        e.Takes i p ∨ ∃ s, s < r ∧ I s w' := by
      rintro r w e w' ⟨r', hle, hw⟩ hstep hnot hthread
      rcases hw.step hstep hnot with htakes | ⟨s, -, hs, hw'⟩
      · exact .inl htakes
      · exact .inr ⟨s, (hs hthread).trans_le hle, s, le_rfl, hw'⟩
    have henabled : ∀ {r w}, I r w → Behaviour.Enabled Step Event.ofThread w := by
      rintro r w ⟨r', -, hw⟩
      exact hw.enabled
    obtain ⟨k, hk, htakes⟩ := b.eventually (I := I) hfair hkeeps hlowers henabled
      ⟨r, le_rfl, hawaits⟩ fun k hk => hcovers k hk
    exact ⟨k, hk, htakes⟩
  · intro before between after i k p root w w' hbefore hwithin u v events hcancel hduring hreturn
      w'' hafter
    obtain ⟨s, hfirst, hrest⟩ := hbefore.split
    obtain ⟨t, hreturned, hbetween⟩ := hrest.uncons
    have hanswered := answered_run hbetween (step_addReturn hreturned)
    have hsound := (sound_run hbefore).step hcancel
    obtain ⟨hend, hclear, hqueue, hactive⟩ := step_cancelReturn hreturn
    have hgone := gone_run hduring hsound (hanswered.step hcancel) hwithin
      (step_cancelCall hcancel) hend
    have hgone' := (hgone.step hreturn).1
    refine ⟨hgone'.2, fun a ha => ?_, not_taken_run hafter hgone'⟩
    unfold clear at hclear
    rw [← hactive, ha] at hclear
    simp only [Bool.and_eq_true, Bool.not_eq_true'] at hclear
    exact hclear.1

/-! ### A worker at work -/

/-- A path, added and processed. -/
def samplePath : Path := ⟨[], true, [[97]]⟩

def sampleEvent : Nat → Event
  | 0 => .addCall 0 samplePath
  | 1 => .add 0 samplePath
  | 2 => .addReturn 0 samplePath
  | 3 => .take ⟨samplePath, [0]⟩
  | 4 => .finish
  | _ => .idle true

def sampleQueued : Worker :=
  { initial.call 0 (.adding samplePath) with
    queue := [⟨samplePath, [0]⟩], queued := insert samplePath ∅, started := true }

def sampleReturned : Worker :=
  (sampleQueued.call 0 (.added samplePath)).call 0 (.returned samplePath)

def sampleDone : Worker :=
  { sampleReturned with
    queue := []
    queued := (insert samplePath ∅ : Finset Path).erase samplePath }

/-- The worker before each event of the sample. -/
def sampleState : Nat → Worker
  | 0 => initial
  | 1 => initial.call 0 (.adding samplePath)
  | 2 => sampleQueued.call 0 (.added samplePath)
  | 3 => sampleReturned
  | 4 => { sampleDone with active := some (.intake ⟨samplePath, [0]⟩) }
  | _ => sampleDone

/-- The sample goes on forever: each of its states leads to the next. -/
theorem sampleState_step (n : Nat) :
    Step (sampleState n) (sampleEvent n) (sampleState (n + 1)) := by
  match n with
  | 0 => rfl
  | 1 => exact add_step (w := initial.call 0 (.adding samplePath)) (by decide)
  | 2 => rfl
  | 3 => rfl
  | 4 => rfl
  | n + 5 => rfl

/-- The sample, which then stays idle. -/
def sampleBehaviour : Behaviour Step := ⟨sampleState, sampleEvent, sampleState_step⟩

/-- The sample is fair to the thread, whose steps occur again and again. -/
theorem sampleBehaviour_fair : sampleBehaviour.Fair Event.ofThread := by
  intro n
  refine ⟨n + 5, Nat.le_add_right n 5, .inr ?_⟩
  rintro ⟨e, w, hthread, hstep⟩
  change Step sampleDone e w at hstep
  cases e with
  | take q => cases (step_take hstep).2.1
  | scan root =>
      simp only [Step, step, Option.ite_none_right_eq_some] at hstep
      exact Finset.notMem_empty root hstep.1.2.2.2
  | finish => cases (step_finish hstep).1
  | exit => cases (step_exit hstep).2.1
  | _ => exact hthread

/-- The path is added. -/
def sampleAdded : List Event :=
  [.addCall 0 samplePath, .add 0 samplePath, .addReturn 0 samplePath]

/-- A `cancel` of the path is called, and returns. -/
def sampleCancelled : List Event :=
  [.cancelCall 1 samplePath, .cancel 1 samplePath, .cancelReturn 1 samplePath]

/-- The path is added once more, taken and processed. -/
def sampleAfter : List Event :=
  [.addCall 2 samplePath, .add 2 samplePath, .take ⟨samplePath, [2]⟩, .finish]

/-- The path of the sample is taken when nothing cancels it. After a `cancel` of it has returned, it
is taken for the call of `add` that comes then, and not for the one that had returned before. -/
theorem queue_intact_sample :
    Kept [.addCall 0 samplePath] (sampleState 1) ∧
    (∃ k, 1 < k ∧ (sampleBehaviour.event k).Takes 0 samplePath) ∧
    ∃ w' w'', Run Step initial (sampleAdded ++ sampleCancelled) w' ∧ Run Step w' sampleAfter w'' ∧
      (∃ e ∈ sampleAfter, e.Takes 2 samplePath) ∧ (∀ q ∈ w'.queue, 0 ∉ q.adds) ∧
      (∀ a, w'.active = some a → within a.path samplePath = false) ∧
      ∀ e ∈ sampleAfter, ¬ e.Takes 0 samplePath := by
  obtain ⟨hkept, htaken, hcancelled⟩ := queue_intact
  refine ⟨hkept _ _ (.cons (sampleState_step 0) (.nil _)), ?_, ?_⟩
  · obtain ⟨n, hlt, hadd, htakes⟩ := htaken sampleBehaviour rfl sampleBehaviour_fair 2 0 samplePath
      rfl rfl
    obtain rfl : n = 1 := by
      match n with
      | 0 => cases hadd
      | 1 => rfl
    refine htakes fun k hk hcovers => ?_
    match k with
    | 2 | 3 | 4 => exact hcovers
    | k + 5 => exact hcovers
  · obtain ⟨w'', hrun⟩ : ∃ w'',
        Run Step initial ((sampleAdded ++ sampleCancelled) ++ sampleAfter) w'' :=
      Run.of_isSome (by decide +kernel)
    obtain ⟨w', hbefore, hafter⟩ := hrun.split
    obtain ⟨w, hfirst, hrest⟩ := hbefore.split
    obtain ⟨u, hcall, hrest⟩ := hrest.uncons
    obtain ⟨v, hcancel, hrest⟩ := hrest.uncons
    obtain ⟨w₁, hreturn, hend⟩ := hrest.uncons
    cases hend
    refine ⟨w', w'', hbefore, hafter, ?_, ?_⟩
    · exact ⟨.take ⟨samplePath, [2]⟩, by simp [sampleAfter], ⟨samplePath, [2]⟩, rfl, rfl, by simp⟩
    · exact hcancelled [.addCall 0 samplePath, .add 0 samplePath] [] sampleAfter 0 1 samplePath
        samplePath w w' hfirst (by decide) u v [.cancel 1 samplePath] hcall
        (.cons hcancel (.nil _)) hreturn w'' hafter

end Worker

end Presentation

end FileProvider
