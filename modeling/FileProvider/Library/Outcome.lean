import Mathlib.Logic.Basic

/-!
# Computations that may throw

`Fallible` is the result of code that throws an exception with a message, and `failIf` the
guard such code is written with. The inversion lemmas read a successful run back: a bind
that succeeds has a first half that succeeded, and a guard that succeeds was not taken.

The lemmas are equivalences tagged for `simp`, so that a hypothesis about a long `do` block is taken
apart from its end to its beginning in one step. For loops there are `foldlM` and `mapM`, with the
rule that what each round preserves is preserved by all of them.
-/

/-- The result of code that may throw, with the message of the exception. -/
abbrev Fallible := Except String

namespace Fallible

variable {α β : Type}

/-- Throws `message` when `c` holds. -/
def failIf (c : Prop) [Decidable c] (message : String) : Fallible Unit :=
  if c then .error message else .ok ()

/-- The value of an optional result, or the exception raised for its absence. -/
def orFail (message : String) : Option α → Fallible α
  | some a => .ok a
  | none => .error message

@[simp] theorem bind_ok {x : Fallible α} {f : α → Fallible β} {b : β} :
    (x >>= f) = .ok b ↔ ∃ a, x = .ok a ∧ f a = .ok b := by
  cases x with
  | error e => exact ⟨fun h => (by cases h), by rintro ⟨_, h, _⟩; cases h⟩
  | ok a => exact ⟨fun h => ⟨a, rfl, h⟩, by rintro ⟨_, h, h'⟩; cases h; exact h'⟩

/-- A value goes into what follows. -/
theorem ok_bind (a : α) (f : α → Fallible β) : (.ok a >>= f) = f a := rfl

@[simp] theorem map_ok {x : Fallible α} {f : α → β} {b : β} :
    (f <$> x) = .ok b ↔ ∃ a, x = .ok a ∧ f a = b := by
  cases x with
  | error e => exact ⟨fun h => (by cases h), by rintro ⟨_, h, _⟩; cases h⟩
  | ok a => exact ⟨fun h => ⟨a, rfl, Except.ok.inj h⟩, by rintro ⟨_, h, rfl⟩; cases h; rfl⟩

@[simp] theorem pure_ok {a b : α} : (pure a : Fallible α) = .ok b ↔ a = b :=
  ⟨Except.ok.inj, congrArg _⟩

@[simp] theorem failIf_ok {c : Prop} [Decidable c] {m : String} {u : Unit} :
    failIf c m = .ok u ↔ ¬ c := by
  unfold failIf
  split <;> simp_all

@[simp] theorem orFail_ok {m : String} {o : Option α} {a : α} :
    orFail m o = .ok a ↔ o = some a := by
  cases o <;> simp [orFail]

/-- A result has a value exactly when it is one. -/
theorem toOption_eq_some {x : Fallible α} {a : α} : x.toOption = some a ↔ x = .ok a := by
  cases x with
  | error e => exact ⟨nofun, nofun⟩
  | ok b => exact ⟨fun h => congrArg _ (Option.some.inj h), fun h => congrArg _ (Except.ok.inj h)⟩

/-- A call that returns has a value. -/
theorem exists_of_isOk {x : Fallible α} (h : x.isOk = true) : ∃ a, x = .ok a := by
  cases x with
  | error e => cases h
  | ok a => exact ⟨a, rfl⟩

/-- A loop over a list succeeds when its body does for every element. -/
theorem forM_ok {f : α → Fallible Unit} {l : List α} {u : Unit} :
    l.forM f = .ok u ↔ ∀ a ∈ l, f a = .ok () := by
  induction l with
  | nil => exact ⟨fun _ _ h => absurd h List.not_mem_nil, fun _ => rfl⟩
  | cons a l ih =>
      show (f a >>= fun _ => l.forM f) = .ok u ↔ _
      rw [bind_ok, List.forall_mem_cons]
      constructor
      · rintro ⟨v, hv, hl⟩
        exact ⟨hv, ih.1 hl⟩
      · rintro ⟨ha, hl⟩
        exact ⟨(), ha, ih.2 hl⟩

/-- A map over a list succeeds with the results of its elements, in their order. -/
theorem mapM_ok {f : α → Fallible β} {l : List α} {l' : List β} :
    l.mapM f = .ok l' ↔ l.map f = l'.map .ok := by
  induction l generalizing l' with
  | nil =>
      rw [List.mapM_nil, pure_ok, List.map_nil]
      constructor
      · rintro rfl
        rfl
      · intro h
        exact (List.map_eq_nil_iff.1 h.symm).symm
  | cons a l ih =>
      rw [List.mapM_cons, List.map_cons]
      simp only [bind_ok, pure_ok, ih]
      constructor
      · rintro ⟨b, hb, bs, hbs, rfl⟩
        rw [List.map_cons, hb, hbs]
      · intro h
        obtain ⟨b, bs, rfl, hb, hbs⟩ := List.map_eq_cons_iff.1 h.symm
        exact ⟨b, hb.symm, bs, hbs.symm, rfl⟩

/-- What a map over a list gave, another map takes back element by element. -/
theorem mapM_inverse {γ : Type} {f : α → Fallible β} {g : β → Fallible γ} {n : α → γ}
    {l : List α} {l' : List β} (h : l.mapM f = .ok l')
    (hg : ∀ a, ∀ b ∈ l', f a = .ok b → g b = .ok (n a)) : l'.mapM g = .ok (l.map n) := by
  induction l generalizing l' with
  | nil =>
      rw [List.mapM_nil, pure_ok] at h
      subst h
      rfl
  | cons a l ih =>
      rw [List.mapM_cons] at h
      simp only [bind_ok, pure_ok] at h
      obtain ⟨b, hb, bs, hbs, rfl⟩ := h
      rw [List.mapM_cons, hg a b List.mem_cons_self hb,
        ih hbs fun a b hmem => hg a b (List.mem_cons_of_mem _ hmem)]
      rfl

/-- Where a step that succeeds gives the value of a function, so does the list. -/
theorem mapM_eq_map {f : α → Fallible β} {n : α → β} {l : List α}
    {l' : List β} (h : l.mapM f = .ok l') (hn : ∀ a b, f a = .ok b → b = n a) : l' = l.map n := by
  induction l generalizing l' with
  | nil => exact (pure_ok.1 h).symm
  | cons a l ih =>
      rw [List.mapM_cons] at h
      simp only [bind_ok, pure_ok] at h
      obtain ⟨b, hb, bs, hbs, rfl⟩ := h
      rw [List.map_cons, ← hn a b hb, ← ih hbs]

/-- A map over a list whose elements are replaced by others of the same result. -/
theorem mapM_replace {f : α → Fallible β} {n : α → α} {l : List α} {l' : List β}
    (h : l.mapM f = .ok l') (hn : ∀ a b, f a = .ok b → f (n a) = .ok b) :
    (l.map n).mapM f = .ok l' := by
  rw [mapM_ok] at h ⊢
  rw [List.map_map, ← h]
  refine List.map_congr_left fun a ha => ?_
  obtain ⟨b, -, hb⟩ := List.mem_map.1 (h ▸ List.mem_map_of_mem ha)
  rw [Function.comp_apply, hn a b hb.symm, hb]

/-- A fold of throwing steps that succeeds on a list succeeded on its first element and on
the rest. -/
theorem foldlM_cons_ok {f : β → α → Fallible β} {a : α} {l : List α} {b b' : β} :
    (a :: l).foldlM f b = .ok b' ↔ ∃ c, f b a = .ok c ∧ l.foldlM f c = .ok b' := by
  rw [List.foldlM_cons, bind_ok]

/-- **The run rule of a fold of throwing steps.** What each step that succeeds preserves, a
run that succeeds preserves. -/
theorem foldlM_preserves {f : β → α → Fallible β} {motive : β → Prop}
    (step : ∀ b a b', motive b → f b a = .ok b' → motive b') :
    ∀ (l : List α) {b b' : β}, motive b → l.foldlM f b = .ok b' → motive b'
  | [], _, _, hb, h => by rw [List.foldlM_nil, pure_ok] at h; exact h ▸ hb
  | a :: l, _, _, hb, h => by
      obtain ⟨c, hc, h⟩ := foldlM_cons_ok.1 h
      exact foldlM_preserves step l (step _ a c hb hc) h

/-- The run rule for steps that know the element they take. -/
theorem foldlM_preserves_mem {f : β → α → Fallible β} {motive : β → Prop} {l : List α} {b b' : β}
    (step : ∀ a ∈ l, ∀ b b', motive b → f b a = .ok b' → motive b') (hb : motive b)
    (h : l.foldlM f b = .ok b') : motive b' := by
  induction l generalizing b with
  | nil =>
      rw [List.foldlM_nil, pure_ok] at h
      exact h ▸ hb
  | cons a l ih =>
      obtain ⟨c, hc, h⟩ := foldlM_cons_ok.1 h
      exact ih (fun x hx => step x (List.mem_cons_of_mem _ hx))
        (step a List.mem_cons_self b c hb hc) h

/-- The run rule for a relation between the states a step connects. -/
theorem foldlM_relates {f : β → α → Fallible β} {R : β → β → Prop} (refl : ∀ b, R b b)
    (trans : ∀ {a b c}, R a b → R b c → R a c) (step : ∀ b a b', f b a = .ok b' → R b b')
    (l : List α) {b b' : β} (h : l.foldlM f b = .ok b') : R b b' :=
  foldlM_preserves (motive := R b) (fun _ a _ hb hs => trans hb (step _ a _ hs)) l (refl b) h

end Fallible
