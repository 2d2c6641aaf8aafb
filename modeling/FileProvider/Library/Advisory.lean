import Mathlib.Data.List.Basic

/-!
# Advisory locks

The locks on one file: who holds it and how, a list that shared holders may be on together and an
exclusive one only alone (`Compatible`). Taking a lock replaces the one its owner had, and is
granted only where no other holder stands against it.

The module is about the list alone: which file it belongs to, and what becomes of the locks of a
process that ends, is for the systems that use it to say. Each lemma is about one operation: what it
leaves in the list, and that it keeps the holders compatible.
-/

namespace Advisory

inductive Mode where
  | shared
  | exclusive
deriving DecidableEq

/-- The holders of a file. -/
abbrev Holders (α : Type) := List (α × Mode)

/-- Any two holders are different, and both of them shared. -/
def Compatible {α : Type} (l : Holders α) : Prop :=
  l.Pairwise fun x y => x.1 ≠ y.1 ∧ x.2 = .shared ∧ y.2 = .shared

section

variable {α : Type} {l : Holders α} {a b : α} {m m' : Mode}

/-- Two holders of one file are both shared. -/
theorem Compatible.shared (h : Compatible l) (ha : (a, m) ∈ l) (hb : (b, m') ∈ l) (hne : a ≠ b) :
    m = .shared ∧ m' = .shared := by
  induction l with
  | nil => cases ha
  | cons x l ih =>
      obtain ⟨hx, hl⟩ := List.pairwise_cons.1 h
      rcases List.mem_cons.1 ha with hxa | hal
      · subst hxa
        rcases List.mem_cons.1 hb with hxb | hbl
        · exact absurd (congrArg Prod.fst hxb).symm hne
        · exact (hx _ hbl).2
      · rcases List.mem_cons.1 hb with hxb | hbl
        · subst hxb
          exact (hx _ hal).2.symm
        · exact ih hl hal hbl

variable [DecidableEq α]

/-- A file without the lock of an owner. -/
def release (l : Holders α) (a : α) : Holders α := l.filter (·.1 ≠ a)

/-- No holder but the owner itself stands against a lock. -/
def Grants (l : Holders α) (a : α) (m : Mode) : Prop :=
  ∀ x ∈ release l a, m = .shared ∧ x.2 = .shared

instance (l : Holders α) (a : α) (m : Mode) : Decidable (Grants l a m) :=
  inferInstanceAs (Decidable (∀ x ∈ release l a, m = .shared ∧ x.2 = .shared))

/-- A file with the lock of an owner. -/
def take (l : Holders α) (a : α) (m : Mode) : Holders α := (a, m) :: release l a

/-- Releasing takes the locks of one holder away. -/
theorem mem_release {x : α × Mode} : x ∈ release l a ↔ x ∈ l ∧ x.1 ≠ a := by
  simp [release]

@[simp]
theorem mem_take_self : (a, m) ∈ take l a m := List.mem_cons_self

/-- Taking a lock leaves those of the others. -/
theorem mem_take {x : α × Mode} (hx : x.1 ≠ a) : x ∈ take l a m ↔ x ∈ l := by
  rw [take, List.mem_cons, mem_release]
  constructor
  · rintro (rfl | ⟨hmem, -⟩)
    · exact absurd rfl hx
    · exact hmem
  · exact fun hmem => .inr ⟨hmem, hx⟩

/-- Releasing keeps the locks compatible. -/
theorem Compatible.release (h : Compatible l) : Compatible (release l a) := h.filter _

/-- What is granted is compatible with what was held. -/
theorem Compatible.take (h : Compatible l) (hgrants : Grants l a m) : Compatible (take l a m) := by
  refine List.pairwise_cons.2 ⟨fun x hx => ⟨?_, hgrants x hx⟩, h.release⟩
  exact (mem_release.1 hx).2.symm

end

end Advisory
