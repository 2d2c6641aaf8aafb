import Mathlib.Data.List.Basic

/-!
# Maximal runs

The longest stretches of a list whose elements all have a property, in their order. `Runs` says
what they are; a list has exactly one such sequence, and `runsFrom` finds it in one pass that
carries the run it is in.

The words of a text are its runs of characters that are no separators, which is what the module is
used for; a gap in front of a text, or between two runs, does not matter for any of them.
-/

variable {α : Type}

/-- The maximal runs of a list: nonempty stretches of elements with the property, each up to an
element without it or to the end, with only such elements between them. -/
inductive Runs (p : α → Bool) : List α → List (List α) → Prop where
  | gap {g : List α} : (∀ a ∈ g, p a = false) → Runs p g []
  | run {g w rest : List α} {ws : List (List α)} : (∀ a ∈ g, p a = false) → w ≠ [] →
      (∀ a ∈ w, p a = true) → (∀ a ∈ rest.head?, p a = false) → Runs p rest ws →
      Runs p (g ++ (w ++ rest)) (w :: ws)

/-- The runs of a list behind the elements of a run that has begun. -/
def runsFrom (p : α → Bool) : List α → List α → List (List α)
  | word, [] => if word.isEmpty then [] else [word]
  | word, a :: l =>
      if p a then runsFrom p (word ++ [a]) l
      else if word.isEmpty then runsFrom p [] l
      else word :: runsFrom p [] l

namespace Runs

variable {p : α → Bool} {l : List α} {ws : List (List α)}

/-- A gap before the first word is passed over. -/
theorem runsFrom_gap {g : List α} (hg : ∀ a ∈ g, p a = false) :
    runsFrom p [] (g ++ l) = runsFrom p [] l := by
  induction g with
  | nil => rfl
  | cons a g ih =>
      rw [List.cons_append, runsFrom, hg a List.mem_cons_self]
      exact ih fun b hb => hg b (List.mem_cons_of_mem _ hb)

/-- The letters of a word are collected. -/
theorem runsFrom_run {u w : List α} (hw : ∀ a ∈ w, p a = true) :
    runsFrom p u (w ++ l) = runsFrom p (u ++ w) l := by
  induction w generalizing u with
  | nil => rw [List.nil_append, List.append_nil]
  | cons a w ih =>
      rw [List.cons_append, runsFrom, if_pos (hw a List.mem_cons_self),
        ih fun b hb => hw b (List.mem_cons_of_mem _ hb), List.append_assoc]
      rfl

/-- The runs are those that the pass finds. -/
theorem runsFrom_eq (h : Runs p l ws) : runsFrom p [] l = ws := by
  induction h with
  | gap hg =>
      have hnil := runsFrom_gap (l := []) hg
      rw [List.append_nil] at hnil
      exact hnil
  | @run g w rest ws hg hne hw hend _ ih =>
      rw [runsFrom_gap hg, runsFrom_run hw, List.nil_append]
      have hempty : w.isEmpty = false := List.isEmpty_eq_false_iff.2 hne
      cases rest with
      | nil =>
          obtain rfl : [] = ws := ih
          rw [runsFrom, hempty]
          rfl
      | cons a rest =>
          have ha : p a = false := hend a rfl
          rw [runsFrom, ha] at ih ⊢
          rw [hempty]
          exact congrArg (w :: ·) ih

/-- A gap in front of a text changes no word. -/
theorem cons_gap {a : α} (ha : p a = false) (h : Runs p l ws) : Runs p (a :: l) ws := by
  cases h with
  | gap hg => exact .gap (List.forall_mem_cons.2 ⟨ha, hg⟩)
  | @run g w rest ws hg hne hw hend hrest =>
      exact .run (g := a :: g) (List.forall_mem_cons.2 ⟨ha, hg⟩) hne hw hend hrest

/-- The loop collects the maximal words, by induction on the text. The word collected so far is
generalised: the next letter either joins it, or ends it and starts a gap. -/
theorem of_runsFrom (word : List α) (hword : ∀ a ∈ word, p a = true) :
    Runs p (word ++ l) (runsFrom p word l) := by
  induction l generalizing word with
  | nil =>
      cases word with
      | nil => exact .gap fun a ha => absurd ha List.not_mem_nil
      | cons a word =>
          exact .run (g := []) (fun b hb => absurd hb List.not_mem_nil) (List.cons_ne_nil _ _)
            hword (fun b hb => by cases hb) (.gap fun b hb => absurd hb List.not_mem_nil)
  | cons a l ih =>
      rw [runsFrom]
      cases ha : p a with
      | true =>
          have hlonger := ih (word ++ [a]) fun b hb => by
            rcases List.mem_append.1 hb with hb | hb
            · exact hword b hb
            · rw [List.mem_singleton.1 hb]
              exact ha
          rw [List.append_assoc] at hlonger
          exact hlonger
      | false =>
          have hrest : Runs p (a :: l) (runsFrom p [] l) :=
            (ih [] fun b hb => absurd hb List.not_mem_nil).cons_gap ha
          cases word with
          | nil => exact hrest
          | cons b word =>
              refine .run (g := []) (fun b hb => absurd hb List.not_mem_nil)
                (List.cons_ne_nil _ _) hword (fun c hc => ?_) hrest
              obtain rfl : a = c := Option.some.inj hc
              exact ha

/-- Every list has its runs, which the pass finds. -/
theorem exists_runs (p : α → Bool) (l : List α) : Runs p l (runsFrom p [] l) :=
  of_runsFrom [] fun _ hb => absurd hb List.not_mem_nil

/-- The elements of a run have the property. -/
theorem mem (h : Runs p l ws) {w : List α} (hw : w ∈ ws) {a : α} (ha : a ∈ w) :
    p a = true ∧ a ∈ l := by
  induction h with
  | gap _ => cases hw
  | run _ _ hall _ _ ih =>
      rcases List.mem_cons.1 hw with rfl | hw
      · exact ⟨hall a ha, by simp [ha]⟩
      · obtain ⟨hp, hmem⟩ := ih hw
        exact ⟨hp, by simp [hmem]⟩

end Runs
