import Mathlib.Logic.Relation
import Mathlib.Data.List.Basic

/-!
# Reachability along a finite list of edges

`reach` computes the nodes that a list of edges leads to from some seeds, as a recursive
query does: it adds the targets of the edges that leave the set found so far, until none is
new. `mem_reach` is its meaning. The rest is about acyclic relations: when every edge that a
change adds starts outside of what its target reaches, the change keeps the relation acyclic.

The rounds of the query are bounded by the number of edges, since every round but the last finds the
target of an edge that was not found before; so the result is closed, and `mem_reach` follows by
induction on a path.
-/

namespace Reach

variable {α : Type}

/-- The relation a list of edges stands for. -/
def Edge (edges : List (α × α)) (a b : α) : Prop := (a, b) ∈ edges

section
variable [DecidableEq α]

/-- The targets of the edges that leave the set found so far. -/
def next (edges : List (α × α)) (seen : List α) : List α :=
  (edges.filter (fun e => e.1 ∈ seen ∧ e.2 ∉ seen)).map (·.2)

/-- At most `n` rounds of the recursive query. -/
def expand (edges : List (α × α)) : Nat → List α → List α
  | 0, seen => seen
  | n + 1, seen => expand edges n (seen ++ next edges seen)

/-- The nodes reached from the seeds. Every round but the last finds the target of an edge
that was not found before, so there are no more rounds than edges. -/
def reach (edges : List (α × α)) (seeds : List α) : List α := expand edges edges.length seeds

/-- The next members are those one edge away that were not seen. -/
theorem mem_next {edges : List (α × α)} {seen : List α} {b : α} :
    b ∈ next edges seen ↔ ∃ a ∈ seen, Edge edges a b ∧ b ∉ seen := by
  simp only [next, List.mem_map, List.mem_filter, Edge, decide_eq_true_eq]
  constructor
  · rintro ⟨⟨a, b⟩, ⟨he, ha, hb⟩, rfl⟩
    exact ⟨a, ha, he, hb⟩
  · rintro ⟨a, ha, he, hb⟩
    exact ⟨(a, b), ⟨he, ha, hb⟩, rfl⟩

/-- The closure keeps what was seen. -/
theorem expand_subset (edges : List (α × α)) :
    ∀ (n : Nat) (seen : List α), seen ⊆ expand edges n seen
  | 0, _ => List.Subset.refl _
  | n + 1, seen =>
      List.Subset.trans (List.subset_append_left _ _) (expand_subset edges n
        (seen ++ next edges seen))

/-- What the edges preserve holds throughout the closure, by induction on the rounds. -/
theorem expand_sound {edges : List (α × α)} {P : α → Prop}
    (step : ∀ a b, P a → Edge edges a b → P b) :
    ∀ (n : Nat) (seen : List α), (∀ a ∈ seen, P a) → ∀ a ∈ expand edges n seen, P a
  | 0, _, h => h
  | n + 1, seen, h => by
      refine expand_sound step n _ fun a ha => ?_
      rcases List.mem_append.1 ha with ha | ha
      · exact h a ha
      · obtain ⟨c, hc, hca, -⟩ := mem_next.1 ha
        exact step c a (h c hc) hca

/-- The edges whose target is not found yet. -/
def pending (edges : List (α × α)) (seen : List α) : Nat :=
  (edges.filter (fun e => e.2 ∉ seen)).length

/-- Each round that finds something leaves less to find. -/
theorem pending_append_lt {edges : List (α × α)} {seen : List α} (h : next edges seen ≠ []) :
    pending edges (seen ++ next edges seen) < pending edges seen := by
  obtain ⟨b, hb⟩ := List.exists_mem_of_ne_nil _ h
  obtain ⟨a, ha, hab, hbn⟩ := mem_next.1 hb
  have hsub : (edges.filter (fun e => e.2 ∉ seen ++ next edges seen)).Sublist
      (edges.filter (fun e => e.2 ∉ seen)) :=
    List.monotone_filter_right _ fun e => by
      simp only [List.mem_append, not_or, decide_eq_true_eq]
      exact fun h => h.1
  refine Nat.lt_of_le_of_ne hsub.length_le fun heq => ?_
  have hmem : (a, b) ∈ edges.filter (fun e => e.2 ∉ seen ++ next edges seen) := by
    rw [hsub.eq_of_length heq]
    exact List.mem_filter.2 ⟨hab, by simpa using hbn⟩
  have hnot := (List.mem_filter.1 hmem).2
  simp only [List.mem_append, not_or, decide_eq_true_eq] at hnot
  exact hnot.2 hb

/-- With as many rounds as there are edges to follow, the set is closed under them. A round that
finds nothing new has reached its fixed point, and every other one uses up an edge that was pending.
-/
theorem expand_closed {edges : List (α × α)} :
    ∀ (n : Nat) (seen : List α), pending edges seen ≤ n →
      ∀ a b, a ∈ expand edges n seen → Edge edges a b → b ∈ expand edges n seen
  | 0, seen, h, a, b, ha, hab => by
      by_contra hb
      have hbs : b ∉ seen := hb
      have hmem : (a, b) ∈ edges.filter (fun e => e.2 ∉ seen) :=
        List.mem_filter.2 ⟨hab, by simpa using hbs⟩
      exact absurd (List.length_pos_of_mem hmem) (by unfold pending at h; omega)
  | n + 1, seen, h, a, b, ha, hab => by
      by_cases hn : next edges seen = []
      · have hfix : ∀ m, expand edges m seen = seen := by
          intro m
          induction m with
          | zero => rfl
          | succ m ih => rw [expand, hn, List.append_nil, ih]
        rw [hfix] at ha ⊢
        by_contra hb
        exact absurd (mem_next.2 ⟨a, ha, hab, hb⟩) (by simp [hn])
      · exact expand_closed n _ (by have := pending_append_lt hn; omega) a b ha hab

/-- **The meaning of the recursive query.** It finds what a path of edges leads to from one
of the seeds. -/
theorem mem_reach {edges : List (α × α)} {seeds : List α} {x : α} :
    x ∈ reach edges seeds ↔ ∃ s ∈ seeds, Relation.ReflTransGen (Edge edges) s x := by
  constructor
  · exact expand_sound (P := fun x => ∃ s ∈ seeds, Relation.ReflTransGen (Edge edges) s x)
      (fun a b ⟨s, hs, hp⟩ hab => ⟨s, hs, hp.tail hab⟩) _ _ (fun a ha => ⟨a, ha, .refl⟩) x
  · rintro ⟨s, hs, hp⟩
    induction hp with
    | refl => exact expand_subset _ _ _ hs
    | tail _ hab ih =>
        exact expand_closed _ _ (List.length_filter_le _ _) _ _ ih hab

/-- **Following the edges backwards finds what following them leads from.** An edge of the reversed
list is one of the list the other way round, so that a path is turned round as a whole. -/
theorem mem_reach_swap {edges : List (α × α)} {seeds : List α} {x : α} :
    x ∈ reach edges seeds ↔ ∃ s ∈ seeds, s ∈ reach (edges.map Prod.swap) [x] := by
  have hedge : Edge (edges.map Prod.swap) = Function.swap (Edge edges) := by
    funext a b
    refine propext ?_
    unfold Edge Function.swap
    rw [List.mem_map]
    constructor
    · rintro ⟨⟨c, d⟩, hcd, heq⟩
      obtain ⟨rfl, rfl⟩ := Prod.mk.inj heq
      exact hcd
    · intro hba
      exact ⟨(b, a), hba, rfl⟩
  rw [mem_reach]
  refine exists_congr fun s => and_congr_right fun _ => ?_
  rw [mem_reach, hedge]
  simp only [List.mem_singleton, exists_eq_left]
  exact Relation.reflTransGen_swap.symm

/-- **Equal edges find equal nodes.** It is enough that the edges agree where the seeds can lead:
on nodes that have a property the seeds have and the edges keep. -/
theorem mem_reach_congr {edges edges' : List (α × α)} {seeds seeds' : List α} {P : α → Prop}
    (hP : ∀ a ∈ seeds, P a) (hclosed : ∀ a b, P a → Edge edges a b → P b)
    (hseeds : ∀ a, a ∈ seeds' ↔ a ∈ seeds)
    (hedges : ∀ a b, P a → (Edge edges' a b ↔ Edge edges a b)) {x : α} :
    x ∈ reach edges' seeds' ↔ x ∈ reach edges seeds := by
  have hpath : ∀ a b, P a →
      (Relation.ReflTransGen (Edge edges') a b ↔ Relation.ReflTransGen (Edge edges) a b) := by
    intro a b ha
    constructor
    · intro h
      induction h using Relation.ReflTransGen.head_induction_on with
      | refl => exact .refl
      | head hac _ ih =>
          have hac' := (hedges _ _ ha).1 hac
          exact .head hac' (ih (hclosed _ _ ha hac'))
    · intro h
      induction h using Relation.ReflTransGen.head_induction_on with
      | refl => exact .refl
      | head hac _ ih => exact .head ((hedges _ _ ha).2 hac) (ih (hclosed _ _ ha hac))
  rw [mem_reach, mem_reach]
  refine exists_congr fun s => ?_
  rw [hseeds]
  exact and_congr_right fun hs => hpath s x (hP s hs)

end

/-! ## Acyclic relations -/

/-- No path of at least one edge leads back to where it started. -/
def Acyclic (R : α → α → Prop) : Prop := ∀ x, ¬ Relation.TransGen R x x

/-- A relation is acyclic when no edge's target leads back to its source. -/
theorem acyclic_iff {R : α → α → Prop} :
    Acyclic R ↔ ∀ a b, R a b → ¬ Relation.ReflTransGen R b a := by
  constructor
  · exact fun h a b hab hba => h a (Relation.TransGen.head' hab hba)
  · intro h x hx
    obtain ⟨y, hxy, hyx⟩ := Relation.TransGen.head'_iff.1 hx
    exact h x y hxy hyx

/-- A path either lies in a smaller relation or takes an edge outside of it. -/
theorem transGen_or_new {R R₀ : α → α → Prop} {a b : α} (h : Relation.TransGen R a b) :
    Relation.TransGen R₀ a b ∨
      ∃ c d, Relation.ReflTransGen R a c ∧ R c d ∧ ¬ R₀ c d ∧ Relation.ReflTransGen R d b := by
  induction h with
  | @single b hab =>
      by_cases h₀ : R₀ a b
      · exact .inl (.single h₀)
      · exact .inr ⟨a, b, .refl, hab, h₀, .refl⟩
  | @tail b c hp hbc ih =>
      rcases ih with ih | ⟨d, e, had, hde, hn, heb⟩
      · by_cases h₀ : R₀ b c
        · exact .inl (ih.tail h₀)
        · exact .inr ⟨b, c, hp.to_reflTransGen, hbc, h₀, .refl⟩
      · exact .inr ⟨d, e, had, hde, hn, heb.tail hbc⟩

/-- **Checking the new edges is enough.** A relation that adds edges to an acyclic one is
acyclic when no added edge's target leads back to its source. -/
theorem acyclic_of_new {R R₀ : α → α → Prop} (old : Acyclic R₀)
    (new : ∀ a b, R a b → ¬ R₀ a b → ¬ Relation.ReflTransGen R b a) : Acyclic R := by
  intro x hx
  have h : Relation.TransGen R₀ x x ∨ _ := transGen_or_new hx
  rcases h with h₀ | ⟨c, d, hxc, hcd, hn, hdx⟩
  · exact old x h₀
  · exact new c d hcd hn (hdx.trans hxc)

end Reach
