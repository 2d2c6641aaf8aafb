import Mathlib.Algebra.Order.Group.Nat
import Mathlib.Data.List.Dedup
import Mathlib.Data.List.Nodup
import Mathlib.Data.List.Perm.Basic
import Mathlib.Data.List.Sort
import Mathlib.Logic.Relation

/-!
# Recursive queries with an ordered queue

A recursive query keeps a queue of rows. It takes a row with the least key out of the queue, puts it
into the result, and puts the rows that follow it into the queue, each row once; it stops when the
queue is empty or the result is full. Which of several rows with the least key comes first is left
open (`Priority`). `run_exact` is what the result is: rows that can be reached, none twice, and with
a row every one of a smaller key; if it is not full, all of them.

With distances as keys the query is a breadth-first search: the pairs it extracts are the lengths of
paths, and the least length that it extracts for a node is the distance (`distance_of_extracted`),
also where the result is cut off.

The invariant `Queued` relates the rows taken out, the queue and the rows that were ever put into
it. The number of rows that can be reached may be infinite: the limit is what ends the run, and the
result is described as it is then.
-/

namespace RecursiveQuery

variable {ρ : Type}

/-- A choice of the next row, one with the least key. -/
structure Priority (key : ρ → Nat) where
  pop : List ρ → Option (ρ × List ρ)
  pop_nil : pop [] = none
  pop_cons : ∀ {queue}, queue ≠ [] → ∃ r rest, pop queue = some (r, rest) ∧
    queue.Perm (r :: rest) ∧ ∀ x ∈ rest, key r ≤ key x

variable {key : ρ → Nat}

/-- The order of rows and those of one key in the order in which they came. -/
def sorted (key : ρ → Nat) (queue : List ρ) : List ρ := queue.insertionSort (key · ≤ key ·)

/-- The priority that takes the first of the rows with the least key. -/
def Priority.fifo (key : ρ → Nat) : Priority key where
  pop queue := (sorted key queue).head?.map fun r => (r, (sorted key queue).tail)
  pop_nil := rfl
  pop_cons {queue} hne := by
    have hperm : (sorted key queue).Perm queue := List.perm_insertionSort _ queue
    have hsorted : (sorted key queue).Pairwise (fun a b => key a ≤ key b) := by
      have htotal : Std.Total (fun a b : ρ => key a ≤ key b) := ⟨fun _ _ => Nat.le_total _ _⟩
      have htrans : IsTrans ρ (fun a b => key a ≤ key b) := ⟨fun _ _ _ => Nat.le_trans⟩
      exact List.pairwise_insertionSort _ queue
    cases heq : sorted key queue with
    | nil => exact absurd (heq ▸ hperm).nil_eq.symm hne
    | cons r rest =>
        rw [heq] at hperm hsorted
        exact ⟨r, rest, rfl, hperm.symm, (List.pairwise_cons.1 hsorted).1⟩

variable [DecidableEq ρ]

/-- The rows that were not put into the queue before, each once. -/
def unseen (seen rows : List ρ) : List ρ := (rows.filter (· ∉ seen)).dedup

/-- At most `limit` rows of the result. `seen` are the rows that were put into the queue. -/
def run (p : Priority key) (step : ρ → List ρ) : Nat → List ρ → List ρ → List ρ
  | 0, _, _ => []
  | limit + 1, queue, seen =>
      match p.pop queue with
      | none => []
      | some (r, rest) =>
          let added := unseen seen (step r)
          r :: run p step limit (rest ++ added) (seen ++ added)

/-- The result of a query with one row to start from. -/
def extract (p : Priority key) (step : ρ → List ρ) (limit : Nat) (start : ρ) : List ρ :=
  run p step limit [start] [start]

/-! ## The invariant of the queue -/

section
omit [DecidableEq ρ]

/-- One row follows another. -/
def Follows (step : ρ → List ρ) (a b : ρ) : Prop := b ∈ step a

/-- Rows that can be reached from the start. -/
abbrev Reached (step : ρ → List ρ) (start r : ρ) : Prop :=
  Relation.ReflTransGen (Follows step) start r

end

/-- What holds between two rows: `done` were taken out of the queue. -/
structure Queued (step : ρ → List ρ) (start : ρ) (done queue seen : List ρ) : Prop where
  first : start ∈ done ∨ start ∈ queue
  closed : ∀ a ∈ done, ∀ b ∈ step a, b ∈ done ∨ b ∈ queue
  reached : ∀ a, a ∈ done ∨ a ∈ queue → Reached step start a
  nodup : (done ++ queue).Nodup
  seen : ∀ a, a ∈ seen ↔ a ∈ done ∨ a ∈ queue

variable {p : Priority key} {step : ρ → List ρ} {start : ρ} {done queue seen : List ρ}

/-- The unseen rows are those not seen before. -/
theorem mem_unseen {rows : List ρ} {a : ρ} : a ∈ unseen seen rows ↔ a ∈ rows ∧ a ∉ seen := by
  simp [unseen]

omit [DecidableEq ρ] in
/-- The queue begins with the first row. -/
theorem queued_start (step : ρ → List ρ) (start : ρ) :
    Queued step start [] [start] [start] where
  first := .inr List.mem_cons_self
  closed _ h := absurd h List.not_mem_nil
  reached a h := by
    obtain rfl := List.mem_singleton.1 (h.resolve_left List.not_mem_nil)
    exact .refl
  nodup := List.nodup_singleton _
  seen a := by simp

/-- Taking a row out of the queue. The row moves from the queue to the rows that are done, and the
new rows of its step enter the queue and what has been seen. -/
theorem Queued.pop (h : Queued step start done queue seen) {r : ρ} {rest : List ρ}
    (hperm : queue.Perm (r :: rest)) :
    Queued step start (done ++ [r]) (rest ++ unseen seen (step r))
      (seen ++ unseen seen (step r)) := by
  have hmem : ∀ a, a ∈ queue ↔ a = r ∨ a ∈ rest := fun a => hperm.mem_iff.trans List.mem_cons
  have hr : r ∈ queue := (hmem r).2 (.inl rfl)
  have hkept : ∀ a, a ∈ done ∨ a ∈ queue →
      a ∈ done ++ [r] ∨ a ∈ rest ++ unseen seen (step r) := by
    intro a ha
    rw [List.mem_append, List.mem_append, List.mem_singleton]
    rcases ha with ha | ha
    · exact .inl (.inl ha)
    · rcases (hmem a).1 ha with rfl | ha
      · exact .inl (.inr rfl)
      · exact .inr (.inl ha)
  refine ⟨hkept _ h.first, ?_, ?_, ?_, ?_⟩
  · intro a ha b hb
    rcases List.mem_append.1 ha with ha | ha
    · exact hkept b (h.closed a ha b hb)
    · obtain rfl := List.mem_singleton.1 ha
      by_cases hseen : b ∈ seen
      · exact hkept b ((h.seen b).1 hseen)
      · exact .inr (List.mem_append_right _ (mem_unseen.2 ⟨hb, hseen⟩))
  · intro a ha
    rw [List.mem_append, List.mem_append, List.mem_singleton] at ha
    rcases ha with (ha | rfl) | ha | ha
    · exact h.reached a (.inl ha)
    · exact h.reached a (.inr hr)
    · exact h.reached a (.inr ((hmem a).2 (.inr ha)))
    · exact (h.reached r (.inr hr)).tail (mem_unseen.1 ha).1
  · have hold : (done ++ (r :: rest)).Nodup :=
      (List.Perm.append_left done hperm).nodup_iff.1 h.nodup
    rw [← List.append_assoc, List.append_assoc done, List.singleton_append, List.nodup_append]
    refine ⟨hold, List.nodup_dedup _, ?_⟩
    rintro a ha b hb rfl
    refine (mem_unseen.1 hb).2 ((h.seen a).2 ?_)
    rw [hmem, ← List.mem_cons, ← List.mem_append]
    exact ha
  · intro a
    rw [List.mem_append, h.seen, hmem]
    simp only [List.mem_append, List.mem_singleton]
    tauto

omit [DecidableEq ρ] in
/-- A row that can be reached and whose key is smaller than those in the queue was taken out. -/
theorem Queued.mem_done (h : Queued step start done queue seen)
    (hkey : ∀ a, ∀ b ∈ step a, key a ≤ key b) {n : Nat} (hqueue : ∀ a ∈ queue, n ≤ key a) {x : ρ}
    (hx : Reached step start x) (hlt : key x < n) : x ∈ done := by
  have hout : ∀ a, a ∈ done ∨ a ∈ queue → key a < n → a ∈ done := by
    intro a ha hlt
    exact ha.resolve_right fun hmem => absurd (hqueue a hmem) (Nat.not_le.2 hlt)
  induction hx with
  | refl => exact hout _ h.first hlt
  | tail _ hstep ih => exact hout _ (h.closed _ (ih ((hkey _ _ hstep).trans_lt hlt)) _ hstep) hlt

omit [DecidableEq ρ] in
/-- Where the queue is empty every row that can be reached was taken out. -/
theorem Queued.mem_done_of_nil (h : Queued step start done [] seen) {x : ρ}
    (hx : Reached step start x) : x ∈ done := by
  induction hx with
  | refl => exact h.first.resolve_right List.not_mem_nil
  | tail _ hstep ih => exact (h.closed _ ih _ hstep).resolve_right List.not_mem_nil

/-! ## The result -/

/-- What the rest of the result is, after the rows that were taken out before. -/
structure Extracted (key : ρ → Nat) (step : ρ → List ρ) (start : ρ) (done rows : List ρ)
    (limit : Nat) : Prop where
  reached : ∀ x ∈ rows, Reached step start x
  nodup : (done ++ rows).Nodup
  /-- With a row every row of a smaller key was taken out. -/
  smaller : ∀ r ∈ rows, ∀ x, Reached step start x → key x < key r → x ∈ done ∨ x ∈ rows
  bound : rows.length ≤ limit
  /-- A result that is not full is complete. -/
  complete : rows.length < limit → ∀ x, Reached step start x → x ∈ done ∨ x ∈ rows

/-- Rows are extracted in the order of their keys up to the limit, by induction on it. The row that
is taken is least in the queue, and as a step never leads to a smaller key all rows extracted later
are at least as great. -/
theorem run_extracted (hkey : ∀ a, ∀ b ∈ step a, key a ≤ key b) :
    ∀ (limit : Nat) {done queue seen : List ρ}, Queued step start done queue seen →
      Extracted key step start done (run p step limit queue seen) limit
  | 0, done, queue, seen, h => by
      refine ⟨?_, ?_, ?_, le_rfl, ?_⟩
      · intro x hx
        cases hx
      · rw [run, List.append_nil]
        exact h.nodup.sublist (List.sublist_append_left _ _)
      · intro r hr
        cases hr
      · intro hlt
        cases hlt
  | limit + 1, done, queue, seen, h => by
      by_cases hnil : queue = []
      · subst hnil
        have hrun : run p step (limit + 1) [] seen = [] := by rw [run, p.pop_nil]
        rw [hrun]
        refine ⟨?_, ?_, ?_, Nat.zero_le _, ?_⟩
        · intro x hx
          cases hx
        · exact h.nodup
        · intro r hr
          cases hr
        · intro _ x hx
          exact .inl (h.mem_done_of_nil hx)
      · obtain ⟨r, rest, hpop, hperm, hleast⟩ := p.pop_cons hnil
        have hrun : run p step (limit + 1) queue seen
            = r :: run p step limit (rest ++ unseen seen (step r))
              (seen ++ unseen seen (step r)) := by rw [run, hpop]
        have hrest := run_extracted hkey limit (h.pop hperm)
        have hqueue : ∀ a ∈ queue, key r ≤ key a := by
          intro a ha
          rcases List.mem_cons.1 (hperm.mem_iff.1 ha) with rfl | ha
          · exact le_rfl
          · exact hleast a ha
        rw [hrun]
        generalize run p step limit (rest ++ unseen seen (step r))
          (seen ++ unseen seen (step r)) = rows at hrest
        have hsplit : ∀ x, x ∈ done ++ [r] ∨ x ∈ rows → x ∈ done ∨ x ∈ r :: rows := by
          intro x hx
          rw [List.mem_append, List.mem_singleton] at hx
          rw [List.mem_cons]
          tauto
        refine ⟨?_, ?_, ?_, Nat.succ_le_succ hrest.bound, ?_⟩
        · intro x hx
          rcases List.mem_cons.1 hx with rfl | hx
          · exact h.reached x (.inr (hperm.mem_iff.2 List.mem_cons_self))
          · exact hrest.reached x hx
        · have hnodup := hrest.nodup
          rwa [List.append_assoc, List.singleton_append] at hnodup
        · intro y hy x hx hlt
          rcases List.mem_cons.1 hy with rfl | hy
          · exact .inl (h.mem_done hkey hqueue hx hlt)
          · exact hsplit x (hrest.smaller y hy x hx hlt)
        · intro hlt x hx
          exact hsplit x (hrest.complete (Nat.lt_of_succ_lt_succ hlt) x hx)

/-- **What a recursive query extracts.** -/
theorem run_exact (p : Priority key) (hkey : ∀ a, ∀ b ∈ step a, key a ≤ key b) (limit : Nat) :
    Extracted key step start [] (extract p step limit start) limit :=
  run_extracted hkey limit (queued_start step start)

/-! ## Distances -/

section
variable {α : Type} {R : α → α → Prop}

/-- A path of a length. -/
inductive Path (R : α → α → Prop) (a : α) : Nat → α → Prop where
  | nil : Path R a 0 a
  | snoc {n : Nat} {b c : α} : Path R a n b → R b c → Path R a (n + 1) c

/-- The length of the shortest path. -/
structure Distance (R : α → α → Prop) (a b : α) (n : Nat) : Prop where
  path : Path R a n b
  least : ∀ m, Path R a m b → n ≤ m

/-- A distance is unique. -/
theorem Distance.unique {a b : α} {m n : Nat} (h : Distance R a b m) (h' : Distance R a b n) :
    m = n :=
  Nat.le_antisymm (h.least n h'.path) (h'.least m h.path)

/-- A path of nodes that stand for others. -/
theorem Path.map {β : Type} {S : β → β → Prop} {f : α → β} {a : α} {n : Nat} {y : β}
    (hf : ∀ b y, S (f b) y → ∃ c, y = f c ∧ R b c) (h : Path S (f a) n y) :
    ∃ b, y = f b ∧ Path R a n b := by
  induction h with
  | nil => exact ⟨a, rfl, .nil⟩
  | snoc _ hstep ih =>
      obtain ⟨b, rfl, hb⟩ := ih
      obtain ⟨c, rfl, hc⟩ := hf b _ hstep
      exact ⟨c, rfl, .snoc hb hc⟩

/-- A path is carried over by a map that respects its steps. -/
theorem Path.lift {β : Type} {S : β → β → Prop} {f : α → β} {a b : α} {n : Nat}
    (hf : ∀ b c, R b c → S (f b) (f c)) (h : Path R a n b) : Path S (f a) n (f b) := by
  induction h with
  | nil => exact .nil
  | snoc _ hstep ih => exact .snoc ih (hf _ _ hstep)

/-- The rows that follow a node at a depth: its neighbours at the next, as far as the bound. -/
def deeper (next : α → List α) (bound : Nat) (r : α × Nat) : List (α × Nat) :=
  if r.2 < bound then (next r.1).map fun b => (b, r.2 + 1) else []

variable {next : α → List α} {bound : Nat}

/-- The next rows are one step deeper, as long as the bound is not reached. -/
theorem mem_deeper {r s : α × Nat} :
    s ∈ deeper next bound r ↔ r.2 < bound ∧ s.1 ∈ next r.1 ∧ s.2 = r.2 + 1 := by
  obtain ⟨b, n⟩ := s
  unfold deeper
  split
  · next h =>
      simp only [List.mem_map, Prod.mk.injEq]
      constructor
      · rintro ⟨c, hc, rfl, rfl⟩
        exact ⟨h, hc, rfl⟩
      · rintro ⟨-, hc, hn⟩
        exact ⟨b, hc, rfl, hn.symm⟩
  · next h => simp [h]

/-- The next rows are no less deep. -/
theorem deeper_key (a : α × Nat) : ∀ b ∈ deeper next bound a, a.2 ≤ b.2 := by
  intro b hb
  rw [(mem_deeper.1 hb).2.2]
  exact Nat.le_succ _

/-- What a path within the bound leads to is reached at its depth. -/
theorem reached_of_path {a b : α} {n : Nat} (h : Path (fun b c => c ∈ next b) a n b)
    (hle : n ≤ bound) : Reached (deeper next bound) (a, 0) (b, n) := by
  induction h with
  | nil => exact .refl
  | snoc _ hmem ih => exact (ih (Nat.le_of_succ_le hle)).tail (mem_deeper.2 ⟨hle, hmem, rfl⟩)

/-- **The rows that can be reached are the paths within the bound.** A step goes to a neighbour and
counts one more, as long as the bound allows it, which makes a derivation a path and its length. -/
theorem reached_deeper {a : α} {r : α × Nat} :
    Reached (deeper next bound) (a, 0) r
      ↔ r.2 ≤ bound ∧ Path (fun b c => c ∈ next b) a r.2 r.1 := by
  constructor
  · intro h
    induction h with
    | refl => exact ⟨Nat.zero_le _, .nil⟩
    | @tail b c _ hstep ih =>
        obtain ⟨hlt, hmem, hdepth⟩ := mem_deeper.1 hstep
        rw [hdepth]
        exact ⟨hlt, .snoc ih.2 hmem⟩
  · rintro ⟨hle, hpath⟩
    exact reached_of_path hpath hle

variable [DecidableEq α] {p : Priority (Prod.snd : α × Nat → Nat)} {limit : Nat} {a b : α}

/-- **The least depth that was extracted for a node is its distance**, also where the result was cut
off. -/
theorem distance_of_extracted {n : Nat} (hn : (b, n) ∈ extract p (deeper next bound) limit (a, 0))
    (hleast : ∀ m, (b, m) ∈ extract p (deeper next bound) limit (a, 0) → n ≤ m) :
    n ≤ bound ∧ Distance (fun b c => c ∈ next b) a b n := by
  have hexact : Extracted Prod.snd (deeper next bound) (a, 0) []
      (extract p (deeper next bound) limit (a, 0)) limit := run_exact p deeper_key limit
  obtain ⟨hbound, hpath⟩ := reached_deeper.1 (hexact.reached _ hn)
  refine ⟨hbound, hpath, fun m hm => ?_⟩
  by_contra hlt
  have hlt : m < n := Nat.not_le.1 hlt
  have hm' : Reached (deeper next bound) (a, 0) (b, m) :=
    reached_deeper.2 ⟨hlt.le.trans hbound, hm⟩
  rcases hexact.smaller _ hn _ hm' hlt with hmem | hmem
  · cases hmem
  · exact absurd (hleast m hmem) (Nat.not_le.2 hlt)

/-- **A result that is not full has every node within the bound.** A node at that distance has a row
with it that can be reached, and a result that is not full misses no such row. -/
theorem extracted_of_distance (hlimit : (extract p (deeper next bound) limit (a, 0)).length < limit)
    {n : Nat} (hn : n ≤ bound) (h : Distance (fun b c => c ∈ next b) a b n) :
    (b, n) ∈ extract p (deeper next bound) limit (a, 0) := by
  have hexact : Extracted Prod.snd (deeper next bound) (a, 0) []
      (extract p (deeper next bound) limit (a, 0)) limit := run_exact p deeper_key limit
  have hreached : Reached (deeper next bound) (a, 0) (b, n) := reached_deeper.2 ⟨hn, h.path⟩
  exact (hexact.complete hlimit _ hreached).resolve_left List.not_mem_nil

end

end RecursiveQuery
