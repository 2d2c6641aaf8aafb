import Mathlib.Algebra.Ring.Nat
import Mathlib.Data.List.Basic
import Mathlib.Logic.Relation

/-!
# A pool of workers

Workers claim the tasks of a list through a shared counter. A task that fails stores its error and
then raises a flag, after which no worker claims another; those that were claimed are finished. Once
every worker has returned, the error of the first task that has one is thrown again. Since tasks are
claimed in their order, the first of them that fails is claimed under every schedule: the pool does
what a loop over the tasks does (`joined_eq`), and it always comes to its end (`joins`).

The invariant says which tasks were claimed and what became of each; what is to be done falls with
every step, so there is no schedule that goes on for ever. The tasks are the results of computations
that do not depend on one another.
-/

namespace WorkerPool

variable {ε α : Type}

/-! ## The pool -/

/-- Where a worker stands. -/
inductive Phase where
  /-- About to read the flag. -/
  | ready
  /-- About to claim the next task. -/
  | claiming
  | running (i : Nat)
  /-- About to raise the flag. -/
  | failing
  | finished
deriving DecidableEq

structure State (ε α : Type) where
  cursor : Nat
  failed : Bool
  workers : List Phase
  outcomes : Nat → Option (Except ε α)

def start (ε α : Type) (workers : Nat) : State ε α :=
  ⟨0, false, List.replicate workers .ready, fun _ => none⟩

/-- The worker after its task. -/
def Phase.after : Except ε α → Phase
  | .ok _ => .ready
  | .error _ => .failing

/-- One step of one worker. -/
inductive Step (tasks : List (Except ε α)) : State ε α → State ε α → Prop where
  | check {s : State ε α} {l r : List Phase} : s.workers = l ++ .ready :: r →
      Step tasks s
        { s with workers := l ++ (if s.failed then .finished else .claiming) :: r }
  | claim {s : State ε α} {l r : List Phase} : s.workers = l ++ .claiming :: r →
      Step tasks s { s with
        cursor := s.cursor + 1
        workers := l ++ (if s.cursor < tasks.length then .running s.cursor else .finished) :: r }
  | run {s : State ε α} {l r : List Phase} {i : Nat} {outcome : Except ε α} :
      s.workers = l ++ .running i :: r → tasks[i]? = some outcome →
      Step tasks s { s with
        outcomes := fun j => if j = i then some outcome else s.outcomes j
        workers := l ++ .after outcome :: r }
  | fail {s : State ε α} {l r : List Phase} : s.workers = l ++ .failing :: r →
      Step tasks s { s with failed := true, workers := l ++ .ready :: r }

/-- Every worker has returned. -/
def State.Joined (s : State ε α) : Prop := ∀ w ∈ s.workers, w = .finished

def rethrow : Option (Except ε α) → Except ε Unit
  | some (.error e) => .error e
  | _ => .ok ()

def value : Option (Except ε α) → Option α
  | some (.ok a) => some a
  | _ => none

/-- What the caller does once it has joined the workers. `prepared` are the results before a task
wrote its own. -/
def collect (n : Nat) (prepared : Nat → α) (outcomes : Nat → Option (Except ε α)) :
    Except ε (List α) := do
  (List.range n).forM fun i => rethrow (outcomes i)
  pure ((List.range n).map fun i => (value (outcomes i)).getD (prepared i))

/-! ## The invariant -/

variable {tasks : List (Except ε α)} {s t : State ε α}

structure Invariant (tasks : List (Except ε α)) (s : State ε α) : Prop where
  /-- A task that was claimed has its outcome or runs. -/
  claimed : ∀ i < s.cursor, i < tasks.length →
    s.outcomes i ≠ none ∨ .running i ∈ s.workers
  outcomes : ∀ i outcome, s.outcomes i = some outcome →
    tasks[i]? = some outcome ∧ i < s.cursor
  running : ∀ i, .running i ∈ s.workers → i < s.cursor ∧ i < tasks.length
  failed : s.failed = true ∨ .failing ∈ s.workers → ∃ i e, s.outcomes i = some (.error e)
  /-- A worker returns where the flag is raised or no task is left. -/
  finished : .finished ∈ s.workers → s.failed = true ∨ tasks.length ≤ s.cursor

/-- The invariant holds before the first worker moves. -/
theorem invariant_start (tasks : List (Except ε α)) (workers : Nat) :
    Invariant tasks (start ε α workers) where
  claimed _ h := absurd h (Nat.not_lt_zero _)
  outcomes _ _ h := nomatch h
  running _ h := nomatch List.eq_of_mem_replicate h
  failed h := by
    rcases h with h | h
    · cases h
    · cases List.eq_of_mem_replicate h
  finished h := nomatch List.eq_of_mem_replicate h

/-- One phase replaced by another in a list of workers. -/
theorem mem_replaced {l r : List Phase} {p q w : Phase} (h : w ∈ l ++ q :: r) :
    w = q ∨ w ∈ l ++ p :: r := by
  simp only [List.mem_append, List.mem_cons] at h ⊢
  tauto

/-- The other workers are kept when one of them moves. -/
theorem mem_kept {l r : List Phase} {p q w : Phase} (h : w ∈ l ++ p :: r) (hne : w ≠ p) :
    w ∈ l ++ q :: r := by
  simp only [List.mem_append, List.mem_cons] at h ⊢
  tauto

/-- **One step** keeps the invariant. -/
theorem Step.keeps (h : Step tasks s t) (hi : Invariant tasks s) : Invariant tasks t := by
  cases h with
  | @check l r hw =>
      have hold : ∀ w, w ∈ l ++ (if s.failed then Phase.finished else .claiming) :: r →
          w = (if s.failed then Phase.finished else .claiming) ∨ w ∈ s.workers :=
        fun w hmem => hw ▸ mem_replaced hmem
      refine ⟨?_, hi.outcomes, ?_, ?_, ?_⟩
      · intro i hlt hlen
        refine (hi.claimed i hlt hlen).imp_right fun hmem => ?_
        rw [hw] at hmem
        exact mem_kept hmem nofun
      · intro i hmem
        rcases hold _ hmem with heq | hmem
        · split at heq <;> cases heq
        · exact hi.running i hmem
      · intro hfailed
        refine hi.failed (hfailed.imp_right fun hmem => ?_)
        rcases hold _ hmem with heq | hmem
        · split at heq <;> cases heq
        · exact hmem
      · intro hmem
        rcases hold _ hmem with heq | hmem
        · split at heq
          · next hraised => exact .inl hraised
          · cases heq
        · exact hi.finished hmem
  | @claim l r hw =>
      have hold : ∀ w, w ∈ l ++ (if s.cursor < tasks.length then Phase.running s.cursor
          else .finished) :: r → w = (if s.cursor < tasks.length then Phase.running s.cursor
          else .finished) ∨ w ∈ s.workers := fun w hmem => hw ▸ mem_replaced hmem
      refine ⟨?_, ?_, ?_, ?_, ?_⟩
      · intro i hlt hlen
        rcases Nat.lt_succ_iff_lt_or_eq.1 hlt with hlt | rfl
        · refine (hi.claimed i hlt hlen).imp_right fun hmem => ?_
          rw [hw] at hmem
          exact mem_kept hmem nofun
        · refine .inr (List.mem_append_right _ ?_)
          rw [if_pos hlen]
          exact List.mem_cons_self
      · intro i outcome ho
        exact (hi.outcomes i outcome ho).imp_right Nat.lt_succ_of_lt
      · intro i hmem
        rcases hold _ hmem with heq | hmem
        · split at heq
          · next hlt =>
              obtain rfl := Phase.running.inj heq
              exact ⟨Nat.lt_succ_self _, hlt⟩
          · cases heq
        · exact (hi.running i hmem).imp_left Nat.lt_succ_of_lt
      · intro hfailed
        refine hi.failed (hfailed.imp_right fun hmem => ?_)
        rcases hold _ hmem with heq | hmem
        · split at heq <;> cases heq
        · exact hmem
      · intro hmem
        rcases hold _ hmem with heq | hmem
        · split at heq
          · cases heq
          · next hge => exact .inr (Nat.le_succ_of_le (Nat.not_lt.1 hge))
        · exact (hi.finished hmem).imp_right Nat.le_succ_of_le
  | @run l r i outcome hw htask =>
      have hold : ∀ w, w ∈ l ++ Phase.after outcome :: r → w = .after outcome ∨ w ∈ s.workers :=
        fun w hmem => hw ▸ mem_replaced hmem
      have hself : Phase.running i ∈ s.workers := by
        rw [hw]
        exact List.mem_append_right _ List.mem_cons_self
      refine ⟨?_, ?_, ?_, ?_, ?_⟩
      · intro j hlt hlen
        by_cases hj : j = i
        · exact .inl (by simp only [if_pos hj, ne_eq, reduceCtorEq, not_false_eq_true])
        · simp only [if_neg hj]
          refine (hi.claimed j hlt hlen).imp_right fun hmem => ?_
          rw [hw] at hmem
          exact mem_kept hmem fun heq => hj (Phase.running.inj heq)
      · intro j outcome' ho
        simp only at ho
        split at ho
        · next hj =>
            obtain rfl := Option.some.inj ho
            subst hj
            exact ⟨htask, (hi.running j hself).1⟩
        · exact hi.outcomes j outcome' ho
      · intro j hmem
        rcases hold _ hmem with heq | hmem
        · cases outcome <;> cases heq
        · exact hi.running j hmem
      · intro hfailed
        cases outcome with
        | error e => exact ⟨i, e, if_pos rfl⟩
        | ok a =>
            obtain ⟨j, e, hj⟩ := hi.failed (hfailed.imp_right fun hmem =>
              (hold _ hmem).resolve_left nofun)
            refine ⟨j, e, (if_neg ?_).trans hj⟩
            rintro rfl
            rw [(hi.outcomes j _ hj).1] at htask
            cases htask
      · intro hmem
        refine hi.finished ((hold _ hmem).resolve_left ?_)
        cases outcome <;> exact nofun
  | @fail l r hw =>
      have hold : ∀ w, w ∈ l ++ Phase.ready :: r → w = .ready ∨ w ∈ s.workers :=
        fun w hmem => hw ▸ mem_replaced hmem
      have hself : Phase.failing ∈ s.workers := by
        rw [hw]
        exact List.mem_append_right _ List.mem_cons_self
      refine ⟨?_, hi.outcomes, ?_, fun _ => hi.failed (.inr hself), fun _ => .inl rfl⟩
      · intro i hlt hlen
        refine (hi.claimed i hlt hlen).imp_right fun hmem => ?_
        rw [hw] at hmem
        exact mem_kept hmem nofun
      · intro i hmem
        exact hi.running i ((hold _ hmem).resolve_left nofun)

/-- The invariant of every run. -/
theorem invariant_of_steps {workers : Nat}
    (h : Relation.ReflTransGen (Step tasks) (start ε α workers) s) : Invariant tasks s := by
  induction h with
  | refl => exact invariant_start tasks workers
  | tail _ hstep ih => exact hstep.keeps ih

/-! ## The result -/

/-- Tasks succeed, or there is a first one that fails. -/
theorem exists_first (tasks : List (Except ε α)) : (∃ l : List α, tasks = l.map .ok) ∨
    ∃ (l : List α) (e : ε) (r : List (Except ε α)), tasks = l.map .ok ++ .error e :: r := by
  induction tasks with
  | nil => exact .inl ⟨[], rfl⟩
  | cons outcome tasks ih =>
      cases outcome with
      | error e => exact .inr ⟨[], e, tasks, rfl⟩
      | ok a =>
          rcases ih with ⟨l, rfl⟩ | ⟨l, e, r, rfl⟩
          · exact .inl ⟨a :: l, rfl⟩
          · exact .inr ⟨a :: l, e, r, rfl⟩

/-- Results without an error are collected. -/
theorem mapM_ok (l : List α) : (l.map (Except.ok (ε := ε))).mapM id = .ok l := by
  induction l with
  | nil => rfl
  | cons a l ih =>
      rw [List.map_cons, List.mapM_cons, ih]
      rfl

/-- The first error is the one that is thrown. -/
theorem mapM_error (l : List α) (e : ε) (r : List (Except ε α)) :
    (l.map Except.ok ++ Except.error e :: r).mapM id = Except.error e := by
  induction l with
  | nil => rfl
  | cons a l ih =>
      rw [List.map_cons, List.cons_append, List.mapM_cons, ih]
      rfl

/-- A loop whose rounds all succeed succeeds. -/
theorem forM_ok {f : Nat → Except ε Unit} {l : List Nat} (h : ∀ i ∈ l, f i = .ok ()) :
    l.forM f = .ok () := by
  induction l with
  | nil => rfl
  | cons i l ih =>
      show (f i >>= fun _ => l.forM f) = .ok ()
      rw [h i List.mem_cons_self]
      exact ih fun j hj => h j (List.mem_cons_of_mem _ hj)

/-- A loop ends with the first error. -/
theorem forM_error {f : Nat → Except ε Unit} {l r : List Nat} {i : Nat} {e : ε}
    (h : ∀ j ∈ l, f j = .ok ()) (hi : f i = .error e) : (l ++ i :: r).forM f = .error e := by
  induction l with
  | nil =>
      show (f i >>= fun _ => r.forM f) = .error e
      rw [hi]
      rfl
  | cons j l ih =>
      show (f j >>= fun _ => (l ++ i :: r).forM f) = .error e
      rw [h j List.mem_cons_self]
      exact ih fun k hk => h k (List.mem_cons_of_mem _ hk)

/-- The number of workers stays. -/
theorem Step.length (h : Step tasks s t) : t.workers.length = s.workers.length := by
  cases h with
  | check hw | claim hw | run hw _ | fail hw =>
      simp only [hw, List.length_append, List.length_cons]

/-- **A pool that was joined did what a loop over the tasks does**, under every schedule. Once every
worker has finished, either all tasks were done or one has failed, and the first failure of the list
is what both report. -/
theorem joined_eq {workers : Nat} (hworkers : workers ≠ 0) (prepared : Nat → α)
    (h : Relation.ReflTransGen (Step tasks) (start ε α workers) s) (hjoined : s.Joined) :
    collect tasks.length prepared s.outcomes = tasks.mapM id := by
  have hi := invariant_of_steps h
  have hlength : s.workers.length = workers := by
    clear hjoined hi
    induction h with
    | refl => exact List.length_replicate
    | tail _ hstep ih => exact hstep.length.trans ih
  have hworker : Phase.finished ∈ s.workers := by
    obtain ⟨w, hw⟩ := List.exists_mem_of_length_pos (hlength ▸ Nat.pos_of_ne_zero hworkers)
    exact hjoined w hw ▸ hw
  have hdone : ∀ i < s.cursor, i < tasks.length → s.outcomes i = tasks[i]? := by
    intro i hlt hlen
    rcases hi.claimed i hlt hlen with hne | hmem
    · obtain ⟨outcome, ho⟩ := Option.ne_none_iff_exists'.1 hne
      rw [ho, (hi.outcomes i outcome ho).1]
    · cases hjoined _ hmem
  have hfailed : (∀ i e, s.outcomes i ≠ some (.error e)) → tasks.length ≤ s.cursor := by
    intro hnone
    refine (hi.finished hworker).resolve_left fun hraised => ?_
    obtain ⟨i, e, he⟩ := hi.failed (.inl hraised)
    exact hnone i e he
  unfold collect
  rcases exists_first tasks with ⟨l, rfl⟩ | ⟨l, e, r, rfl⟩
  · -- No task fails, so every worker returned because no task was left.
    have hcursor := hfailed fun i e he => by
      have htask := (hi.outcomes i _ he).1
      rw [List.getElem?_map, Option.map_eq_some_iff] at htask
      obtain ⟨a, -, heq⟩ := htask
      cases heq
    have houtcome : ∀ i (hlt : i < l.length), s.outcomes i = some (.ok l[i]) := by
      intro i hlt
      have hlen : i < (l.map (Except.ok (ε := ε))).length := by rwa [List.length_map]
      rw [hdone i (Nat.lt_of_lt_of_le hlen hcursor) hlen, List.getElem?_map,
        List.getElem?_eq_getElem hlt]
      rfl
    rw [mapM_ok, List.length_map, forM_ok fun i hmem => ?_]
    · refine congrArg Except.ok (List.ext_getElem ?_ fun i hlt _ => ?_)
      · rw [List.length_map, List.length_range]
      · rw [List.length_map, List.length_range] at hlt
        rw [List.getElem_map, List.getElem_range, houtcome i hlt]
        rfl
    · rw [houtcome i (List.mem_range.1 hmem)]
      rfl
  · -- The first task that fails was claimed, and those before it succeeded.
    have hfirst : ∀ i, (∃ e, s.outcomes i = some (.error e)) → l.length ≤ i := by
      rintro i ⟨e', he⟩
      by_contra hlt
      have hlt := Nat.not_le.1 hlt
      have htask := (hi.outcomes i _ he).1
      rw [List.getElem?_append_left (by rwa [List.length_map]), List.getElem?_map,
        Option.map_eq_some_iff] at htask
      obtain ⟨a, -, heq⟩ := htask
      cases heq
    have hlen : l.length < (l.map Except.ok ++ Except.error e :: r).length := by
      rw [List.length_append, List.length_map, List.length_cons]
      omega
    have hcursor : l.length < s.cursor := by
      by_cases hnone : ∀ i e, s.outcomes i ≠ some (.error e)
      · exact Nat.lt_of_lt_of_le hlen (hfailed hnone)
      · simp only [not_forall, not_not] at hnone
        obtain ⟨i, e', he⟩ := hnone
        exact Nat.lt_of_le_of_lt (hfirst i ⟨e', he⟩) (hi.outcomes i _ he).2
    have hbefore : ∀ i ∈ List.range l.length, rethrow (s.outcomes i) = .ok () := by
      intro i hmem
      have hlt := List.mem_range.1 hmem
      cases ho : s.outcomes i with
      | none => rfl
      | some outcome =>
          cases outcome with
          | ok a => rfl
          | error e' => exact absurd (hfirst i ⟨e', ho⟩) (Nat.not_le.2 hlt)
    have herror : rethrow (s.outcomes l.length) = .error e := by
      rw [hdone _ hcursor hlen, List.getElem?_append_right (Nat.le_of_eq (List.length_map _)),
        List.length_map, Nat.sub_self]
      rfl
    have hrange : List.range (l.map Except.ok ++ Except.error e :: r).length
        = List.range l.length
          ++ l.length :: (List.range r.length).map fun i => l.length + 1 + i := by
      rw [List.length_append, List.length_map, List.length_cons, Nat.add_comm r.length,
        ← Nat.add_assoc, List.range_add, List.range_succ, List.append_assoc]
      rfl
    rw [mapM_error, hrange, forM_error hbefore herror]
    rfl

/-! ## The end of the pool -/

/-- The steps a worker still takes without claiming another task. -/
def Phase.weight : Phase → Nat
  | .finished => 0
  | .claiming => 1
  | .ready => 2
  | .failing => 3
  | .running _ => 4

/-- What every step lowers. -/
def State.remaining (tasks : List (Except ε α)) (s : State ε α) : Nat :=
  4 * (tasks.length - s.cursor) + (s.workers.map Phase.weight).sum

/-- Each step leaves less to do, so every run of the pool ends. -/
theorem Step.remaining_lt (h : Step tasks s t) : t.remaining tasks < s.remaining tasks := by
  unfold State.remaining
  cases h with
  | @check l r hw =>
      rw [hw]
      cases s.failed <;> simp [Phase.weight]
  | @claim l r hw =>
      rw [hw]
      split
      · simp [Phase.weight]
        omega
      · simp [Phase.weight]
        omega
  | @run l r i outcome hw _ =>
      rw [hw]
      cases outcome <;> simp [Phase.after, Phase.weight]
  | @fail l r hw =>
      rw [hw]
      simp [Phase.weight]

/-- A pool that is not joined can take a step. -/
theorem Invariant.step (hi : Invariant tasks s) (h : ¬ s.Joined) : ∃ t, Step tasks s t := by
  unfold State.Joined at h
  simp only [not_forall] at h
  obtain ⟨w, hw, hne⟩ := h
  obtain ⟨l, r, heq⟩ := List.append_of_mem hw
  cases w with
  | ready => exact ⟨_, .check heq⟩
  | claiming => exact ⟨_, .claim heq⟩
  | running i => exact ⟨_, .run heq (List.getElem?_eq_getElem (hi.running i hw).2)⟩
  | failing => exact ⟨_, .fail heq⟩
  | finished => exact absurd rfl hne

/-- **Every pool comes to its end.** As long as a worker runs there is a step, and each step uses up
some of the work that remains. -/
theorem joins {workers : Nat} (h : Relation.ReflTransGen (Step tasks) (start ε α workers) s) :
    ∃ t, Relation.ReflTransGen (Step tasks) s t ∧ t.Joined := by
  induction hn : s.remaining tasks using Nat.strongRecOn generalizing s with
  | _ n ih =>
      by_cases hjoined : s.Joined
      · exact ⟨s, .refl, hjoined⟩
      · obtain ⟨t, ht⟩ := (invariant_of_steps h).step hjoined
        obtain ⟨u, hu, hjoined⟩ := ih _ (hn ▸ ht.remaining_lt) (h.tail ht) rfl
        exact ⟨u, .head ht hu, hjoined⟩

end WorkerPool
