import Mathlib.Order.Defs.Unbundled

/-!
# Programs whose calls can fail

A program works on a state and calls something outside, whose answers it is given as a list; when
the list is at its end, every further answer is the default one. `Meets allowed p s Q` says that the
program `p`, started in `s`, ends with a result and a state that satisfy `Q`, whatever the answers
are, as long as each of them is allowed. The rules follow the program: `Meets.bind`, `Meets.call`,
`Meets.attempt`.

`Keeps` is for what a program does to its state whatever happens, also when it throws, and is proved
by composing the parts. `Over` says that a program on a larger state does on a part of it what
another one does, which is how a program with notes is compared with the one without.
-/

/-- A program over a state, with the answers it is given and those it leaves. -/
def Program (σ α ε β : Type) : Type := σ → List α → Except ε β × σ × List α

namespace Program

variable {σ α ε β γ : Type}

instance : Monad (Program σ α ε) where
  pure b := fun s l => (.ok b, s, l)
  bind p f := fun s l =>
    match p s l with
    | (.ok b, s', l') => f b s' l'
    | (.error e, s', l') => (.error e, s', l')

/-- A program that fails. -/
def fail (e : ε) : Program σ α ε β := fun s l => (.error e, s, l)

/-- A check. -/
def failIf (c : Prop) [Decidable c] (e : ε) : Program σ α ε Unit := if c then fail e else pure ()

/-- The state a program is in. -/
def state : Program σ α ε σ := fun s l => (.ok s, s, l)

/-- A change of the state that calls nothing. -/
def modify (f : σ → σ) : Program σ α ε Unit := fun s l => (.ok (), f s, l)

/-- A call, with its answer. -/
def call [Inhabited α] (f : α → σ → Except ε β × σ) : Program σ α ε β := fun s l =>
  let (r, s') := f (l.headD default) s
  (r, s', l.tail)

/-- A program whose failure is its result. -/
def attempt (p : Program σ α ε β) : Program σ α ε (Except ε β) := fun s l =>
  let (r, s', l') := p s l
  (.ok r, s', l')

/-- A computation that reads nothing of the state. -/
def lift (r : Except ε β) : Program σ α ε β := fun s l => (r, s, l)

/-- A program run on another state, which is dropped when it fails. -/
def within {τ : Type} (t : τ) (p : Program τ α ε β) : Program σ α ε (β × τ) := fun s l =>
  let (r, t', l') := p t l
  (r.map fun b => (b, t'), s, l')

/-- What a sequence does. -/
theorem bind_run (p : Program σ α ε β) (f : β → Program σ α ε γ) (s : σ) (l : List α) :
    (p >>= f) s l = match p s l with
      | (.ok b, s', l') => f b s' l'
      | (.error e, s', l') => (.error e, s', l') := rfl

/-- A call that is given no answer has the default one. -/
theorem call_run [Inhabited α] (f : α → σ → Except ε β × σ) (s : σ) :
    call f s [] = ((f default s).1, (f default s).2, []) := rfl

/-- A check that is passed. -/
theorem failIf_run {c : Prop} [Decidable c] (h : ¬ c) (e : ε) (s : σ) (l : List α) :
    failIf c e s l = (.ok (), s, l) := by
  rw [failIf, if_neg h]
  rfl

/-! ## What a program comes to -/

/-- Whatever allowed answers it is given, the program ends as `Q` says. -/
def Meets (allowed : α → Prop) (p : Program σ α ε β) (s : σ) (Q : Except ε β → σ → Prop) : Prop :=
  ∀ l, (∀ a ∈ l, allowed a) →
    Q (p s l).1 (p s l).2.1 ∧ ∀ a ∈ (p s l).2.2, allowed a

namespace Meets

variable {allowed : α → Prop} {p : Program σ α ε β} {s : σ} {Q Q' : Except ε β → σ → Prop}

/-- The postcondition may be weakened. -/
theorem imp (h : Meets allowed p s Q) (hQ : ∀ r s', Q r s' → Q' r s') : Meets allowed p s Q' :=
  fun l hl => ⟨hQ _ _ (h l hl).1, (h l hl).2⟩

/-- The rule for a value. -/
theorem pure {b : β} (h : Q (.ok b) s) : Meets allowed (Pure.pure b) s Q :=
  fun _ hl => ⟨h, hl⟩

/-- The rule for an exception. -/
theorem fail {e : ε} (h : Q (.error e) s) : Meets allowed (Program.fail e) s Q :=
  fun _ hl => ⟨h, hl⟩

/-- The rule for reading the state. -/
theorem state {Q : Except ε σ → σ → Prop} (h : Q (.ok s) s) : Meets allowed Program.state s Q :=
  fun _ hl => ⟨h, hl⟩

/-- The rule for changing the state. -/
theorem modify {f : σ → σ} {Q : Except ε Unit → σ → Prop} (h : Q (.ok ()) (f s)) :
    Meets allowed (Program.modify f) s Q :=
  fun _ hl => ⟨h, hl⟩

/-- The rule of sequences: what the first program comes to is where the second starts. -/
theorem bind {f : β → Program σ α ε γ} {Q : Except ε γ → σ → Prop}
    (h : Meets allowed p s fun r s' =>
      (∀ b, r = .ok b → Meets allowed (f b) s' Q) ∧ ∀ e, r = .error e → Q (.error e) s') :
    Meets allowed (p >>= f) s Q := by
  intro l hl
  obtain ⟨hQ, hrest⟩ := h l hl
  rw [bind_run]
  generalize p s l = ended at hQ hrest ⊢
  obtain ⟨r, s', l'⟩ := ended
  cases r with
  | ok b => exact hQ.1 b rfl l' hrest
  | error e => exact ⟨hQ.2 e rfl, hrest⟩

/-- The rule of sequences for given answers: the second program starts where the first has come to
with these answers. -/
theorem bind_given {f : β → Program σ α ε γ} {P : Except ε β → σ → Prop}
    {Q : Except ε γ → σ → Prop} (h : Meets allowed p s P) {l : List α} (hl : ∀ a ∈ l, allowed a)
    (hok : ∀ b s' rest, p s l = (.ok b, s', rest) → P (.ok b) s' → Meets allowed (f b) s' Q)
    (herror : ∀ e s', P (.error e) s' → Q (.error e) s') :
    Q ((p >>= f) s l).1 ((p >>= f) s l).2.1 := by
  obtain ⟨hP, hrest⟩ := h l hl
  rw [bind_run]
  cases hended : p s l with
  | mk r ended =>
      obtain ⟨s', rest⟩ := ended
      rw [hended] at hP hrest
      cases r with
      | ok b => exact (hok b s' rest hended hP rest hrest).1
      | error e => exact herror e s' hP

/-! Sequences that begin with something that keeps the state. -/

/-- The state is read, and the program goes on with it. -/
theorem bind_state {f : σ → Program σ α ε γ} {Q : Except ε γ → σ → Prop}
    (h : Meets allowed (f s) s Q) : Meets allowed (Program.state >>= f) s Q := h

/-- The state is changed, and the program goes on from there. -/
theorem bind_modify {g : σ → σ} {f : Unit → Program σ α ε γ} {Q : Except ε γ → σ → Prop}
    (h : Meets allowed (f ()) (g s) Q) : Meets allowed (Program.modify g >>= f) s Q := h

/-- A result without an effect: the program goes on with its value, or ends with its exception. -/
theorem bind_lift {r : Except ε β} {f : β → Program σ α ε γ} {Q : Except ε γ → σ → Prop}
    (hok : ∀ b, r = .ok b → Meets allowed (f b) s Q) (herror : ∀ e, r = .error e → Q (.error e) s) :
    Meets allowed (Program.lift r >>= f) s Q := by
  cases r with
  | ok b => exact hok b rfl
  | error e => exact fun l hl => ⟨herror e rfl, hl⟩

/-- A check: the program ends when it fails, and goes on knowing that it did not. -/
theorem bind_failIf {c : Prop} [Decidable c] {e : ε} {f : Unit → Program σ α ε γ}
    {Q : Except ε γ → σ → Prop} (hfail : c → Q (.error e) s)
    (hgo : ¬ c → Meets allowed (f ()) s Q) :
    Meets allowed (Program.failIf c e >>= f) s Q := by
  unfold Program.failIf
  split
  · next hc => exact fun l hl => ⟨hfail hc, hl⟩
  · next hc => exact hgo hc

/-- A check at the end of a program. -/
theorem failIf {c : Prop} [Decidable c] {e : ε} {Q : Except ε Unit → σ → Prop}
    (hfail : c → Q (.error e) s) (hgo : ¬ c → Q (.ok ()) s) :
    Meets allowed (Program.failIf c e) s Q := by
  unfold Program.failIf
  split
  · next hc => exact .fail (hfail hc)
  · next hc => exact .pure (hgo hc)

/-- A result without an effect at the end of a program. -/
theorem lift {r : Except ε β} (h : Q r s) : Meets allowed (Program.lift r) s Q :=
  fun _ hl => ⟨h, hl⟩

/-- The rule of programs on another state. -/
theorem within {τ : Type} {t : τ} {p : Program τ α ε β} {Q : Except ε (β × τ) → σ → Prop}
    (h : Meets allowed p t fun r t' => Q (r.map fun b => (b, t')) s) :
    Meets allowed (Program.within t p) s Q :=
  fun l hl => h l hl

/-- The rule of calls: one case for each answer. -/
theorem call [Inhabited α] {f : α → σ → Except ε β × σ} (hdefault : allowed default)
    (h : ∀ a, allowed a → Q (f a s).1 (f a s).2) : Meets allowed (Program.call f) s Q := by
  intro l hl
  refine ⟨?_, fun a ha => hl a (List.mem_of_mem_tail ha)⟩
  cases l with
  | nil => exact h default hdefault
  | cons a l => exact h a (hl a List.mem_cons_self)

/-- The rule of a failure that is looked at. -/
theorem attempt {Q : Except ε (Except ε β) → σ → Prop}
    (h : Meets allowed p s fun r s' => Q (.ok r) s') : Meets allowed (Program.attempt p) s Q :=
  fun l hl => h l hl

end Meets

/-! ## Programs that decide -/

/-- A program that calls nothing outside succeeds exactly if `C`, and then `Q` holds of the state it
leaves; otherwise it fails and leaves the state as it was. -/
def Decides (C : Prop) (Q : σ → Prop) (p : Program σ Empty ε β) (s : σ) : Prop :=
  (C → ∃ b s', p s [] = (.ok b, s', []) ∧ Q s') ∧ (¬ C → ∃ e, p s [] = (.error e, s, []))

/-- A program decides by `C` if `C` and `Q` hold wherever it succeeds, its failures change nothing,
and it does succeed where `C` holds. -/
theorem Meets.decides {C : Prop} {Q : σ → Prop} {p : Program σ Empty ε β} {s : σ}
    (h : Meets (fun _ => True) p s fun r s' =>
      (∀ b, r = .ok b → C ∧ Q s') ∧ ∀ e, r = .error e → s' = s)
    (hgoes : C → ∃ b, (p s []).1 = .ok b) : Decides C Q p s := by
  obtain ⟨hok, herror⟩ := (h [] (List.forall_mem_nil _)).1
  unfold Decides
  generalize p s [] = ended at hok herror hgoes
  obtain ⟨r, s', l⟩ := ended
  obtain rfl : l = [] := by
    cases l with
    | nil => rfl
    | cons answer _ => cases answer
  cases r with
  | ok b =>
      obtain ⟨hC, hQ⟩ := hok b rfl
      exact ⟨fun _ => ⟨b, s', rfl, hQ⟩, fun hnot => absurd hC hnot⟩
  | error e =>
      obtain rfl := herror e rfl
      refine ⟨fun hC => ?_, fun _ => ⟨e, rfl⟩⟩
      obtain ⟨b, hb⟩ := hgoes hC
      cases hb

/-! ## What a program keeps -/

/-- Whatever the answers are, the state a program ends in is related to the one it starts in, by
`R` in any case and by `S` when the program does not fail. -/
def Keeps (S R : σ → σ → Prop) (p : Program σ α ε β) : Prop :=
  ∀ s, Meets (fun _ => True) p s fun r s' => R s s' ∧ ∀ b, r = .ok b → S s s'

namespace Keeps

variable {S R : σ → σ → Prop} {p : Program σ α ε β}

/-- What a program keeps, it keeps in every run. -/
theorem run (h : Keeps S R p) (s : σ) (l : List α) : R s (p s l).2.1 :=
  (h s l fun _ _ => trivial).1.1

/-- Of a program that returns, the stronger of the two relations is kept. -/
theorem run_ok (h : Keeps S R p) {s : σ} {l : List α} {b : β} (hok : (p s l).1 = .ok b) :
    S s (p s l).2.1 :=
  (h s l fun _ _ => trivial).1.2 b hok

variable [IsPreorder σ S] [IsPreorder σ R]

/-- A value keeps everything. -/
theorem pure (b : β) : Keeps S R (Pure.pure b : Program σ α ε β) :=
  fun s => .pure ⟨refl_of R s, fun _ _ => refl_of S s⟩

omit [IsPreorder σ S] in
/-- An exception keeps everything. -/
theorem fail (e : ε) : Keeps S R (Program.fail e : Program σ α ε β) :=
  fun s => .fail ⟨refl_of R s, nofun⟩

/-- Reading the state keeps everything. -/
theorem state : Keeps S R (Program.state : Program σ α ε σ) :=
  fun s => .state ⟨refl_of R s, fun _ _ => refl_of S s⟩

/-- A check keeps everything. -/
theorem failIf (c : Prop) [Decidable c] (e : ε) :
    Keeps S R (Program.failIf c e : Program σ α ε Unit) :=
  fun s => .failIf (fun _ => ⟨refl_of R s, nofun⟩) fun _ => ⟨refl_of R s, fun _ _ => refl_of S s⟩

/-- Two programs one after the other keep what each of them keeps. -/
theorem bind {f : β → Program σ α ε γ} (h : Keeps S R p) (h' : ∀ b, Keeps S R (f b)) :
    Keeps S R (p >>= f) := by
  intro s
  refine .bind ((h s).imp fun r s' hs => ⟨fun b hb => ?_, fun e _ => ⟨hs.1, nofun⟩⟩)
  refine (h' b s').imp fun r' s'' hs' => ⟨trans_of R hs.1 hs'.1, fun c hc => ?_⟩
  exact trans_of S (hs.2 b hb) (hs'.2 c hc)

/-- A loop with an accumulator keeps what each round keeps. -/
theorem foldlM {δ : Type} {f : β → δ → Program σ α ε β} (h : ∀ b d, Keeps S R (f b d))
    (l : List δ) (b : β) : Keeps S R (l.foldlM f b) := by
  induction l generalizing b with
  | nil => exact .pure b
  | cons d l ih => exact .bind (h b d) ih

/-- A loop keeps what each round keeps. -/
theorem forM {δ : Type} {f : δ → Program σ α ε PUnit} (h : ∀ d, Keeps S R (f d)) (l : List δ) :
    Keeps S R (l.forM f) := by
  induction l with
  | nil => exact .pure _
  | cons d l ih => exact .bind (h d) fun _ => ih

end Keeps

/-! ## Programs with notes

What is noted beside the state of a program changes nothing of what the program does.
-/

/-- A program on the first of two states. -/
def beside {τ : Type} (p : Program σ α ε β) : Program (σ × τ) α ε β := fun t l =>
  let (r, s', l') := p t.1 l
  (r, (s', t.2), l')

/-- A program run beside another state leaves that state. -/
theorem beside_run {τ : Type} {p : Program σ α ε β} {s s' : σ} {l l' : List α} {r : Except ε β}
    (h : p s l = (r, s', l')) (t : τ) : beside p (s, t) l = (r, (s', t), l') := by
  unfold beside
  dsimp only
  rw [h]

/-- `p` does on a part of its state what `q` does. -/
def Over {τ : Type} (part : τ → σ) (p : Program τ α ε β) (q : Program σ α ε β) : Prop :=
  ∀ t l, q (part t) l = ((p t l).1, part (p t l).2.1, (p t l).2.2)

namespace Over

variable {τ : Type} {part : τ → σ} {p : Program τ α ε β} {q : Program σ α ε β}

/-- A program beside another state is the program on its own part. -/
theorem beside (q : Program σ α ε β) : Over (Prod.fst : σ × τ → σ) (Program.beside q) q :=
  fun _ _ => rfl

/-- A value is the same over both states. -/
theorem pure (b : β) : Over part (Pure.pure b : Program τ α ε β) (Pure.pure b) := fun _ _ => rfl

/-- A check is the same over both states. -/
theorem failIf (c : Prop) [Decidable c] (e : ε) :
    Over part (Program.failIf c e : Program τ α ε Unit) (Program.failIf c e) := by
  intro t l
  unfold Program.failIf
  split <;> rfl

/-- A note behind a program. -/
theorem modify {f : τ → τ} (hf : ∀ t, part (f t) = part t) {p : Program τ α ε β}
    (h : Over part p q) :
    Over part (p >>= fun b => Program.modify f >>= fun _ => Pure.pure b) q := by
  intro t l
  rw [h t l, bind_run]
  obtain ⟨r, t', l'⟩ := p t l
  cases r with
  | ok b => exact congrArg (fun s => (Except.ok b, s, l')) (hf t').symm
  | error e => rfl

/-- Programs that agree over a part agree one after the other. -/
theorem bind {f : β → Program τ α ε γ} {g : β → Program σ α ε γ} (h : Over part p q)
    (h' : ∀ b, Over part (f b) (g b)) : Over part (p >>= f) (q >>= g) := by
  intro t l
  rw [bind_run, bind_run, h t l]
  obtain ⟨r, t', l'⟩ := p t l
  cases r with
  | ok b => exact h' b t' l'
  | error e => rfl

/-- What a program does, from what it does with notes. -/
theorem run (h : Over part p q) {t t' : τ} {l l' : List α} {r : Except ε β}
    (hrun : p t l = (r, t', l')) : q (part t) l = (r, part t', l') := by
  rw [h t l, hrun]

end Over

/-- Sequences of three. -/
theorem bind_assoc {δ : Type} (p : Program σ α ε β) (f : β → Program σ α ε γ)
    (g : γ → Program σ α ε δ) : (p >>= f) >>= g = p >>= fun b => f b >>= g := by
  funext s l
  rw [bind_run, bind_run, bind_run]
  obtain ⟨r, s', l'⟩ := p s l
  cases r with
  | ok b => rfl
  | error e => rfl

end Program
