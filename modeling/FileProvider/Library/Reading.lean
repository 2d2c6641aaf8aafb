import FileProvider.Library.Bytes

/-!
# Programs that read a text of bytes

A `Reading` keeps the positions it has read, and has a fault where the program it stands for goes
wrong: a byte outside the text, arithmetic that leaves its width, a division by zero, a shift past
the width, a loop without an end. `Reads n s x Q` says that `x`, started with the positions `s`, has
no fault, reads nothing outside a text of `n` bytes and ends with `Q`. The rules follow the program.

`Fault` names what can go wrong, so that the absence of a fault is a statement and not an assumption
of the model. The positions only grow, and a rule for a later part of a program may use what an
earlier one has read.
-/

/-- What goes wrong in a program that reads a text. -/
inductive Fault where
  | outside
  | thrown
  | wrapped
  | zeroDivisor
  | shifted
  | endless
deriving DecidableEq

/-- A program that reads a text, with the positions it has read. -/
abbrev Reading (α : Type) := StateT (List Nat) (Except Fault) α

/-- A text that a program can hold, which has less than `2 ^ 63` bytes. -/
structure View where
  bytes : Bytes
  bounded : bytes.length < 2 ^ 63

namespace View

/-- How many bytes a text has. -/
def size (v : View) : Nat := v.bytes.length

/-- One byte. -/
def byteAt (v : View) (i : Nat) : Reading UInt8 := fun s =>
  match v.bytes[i]? with
  | some b => .ok (b, i :: s)
  | none => .error .outside

/-- At most `count` bytes from a position, which can be the end. -/
def substr (v : View) (i count : Nat) : Reading Bytes := fun s =>
  if i ≤ v.size then
    .ok ((v.bytes.drop i).take count, (List.range' i (min count (v.size - i))).reverse ++ s)
  else .error .thrown

end View

namespace Reading

/-! ## Arithmetic -/

/-- A sum of unsigned numbers. -/
def add (width a b : Nat) : Reading Nat :=
  if a + b < 2 ^ width then pure (a + b) else throw .wrapped

/-- A difference of unsigned numbers. -/
def sub (a b : Nat) : Reading Nat := if b ≤ a then pure (a - b) else throw .wrapped

/-- A product of unsigned numbers. -/
def mul (width a b : Nat) : Reading Nat :=
  if a * b < 2 ^ width then pure (a * b) else throw .wrapped

/-- A quotient of unsigned numbers. -/
def div (a b : Nat) : Reading Nat := if b = 0 then throw .zeroDivisor else pure (a / b)

/-- A shift of an unsigned number of 32 bits. -/
def shiftLeft (a : UInt32) (k : Nat) : Reading UInt32 :=
  if k < 32 then pure (a <<< k.toUInt32) else throw .shifted

/-! ## Programs without a fault -/

/-- Started with the positions `s`, the program has no fault, keeps to a text of `n` bytes and ends
with `Q`. -/
def Reads {α : Type} (n : Nat) (s : List Nat) (x : Reading α) (Q : α → List Nat → Prop) : Prop :=
  ∃ a t, x s = .ok (a, t) ∧ s ⊆ t ∧ (∀ i ∈ t, i ∈ s ∨ i < n) ∧ Q a t

namespace Reads

variable {α β : Type} {n : Nat} {s : List Nat} {x : Reading α} {Q R : α → List Nat → Prop}

/-- A value is read without looking at the bytes. -/
theorem pure {a : α} (h : Q a s) : Reads n s (Pure.pure a) Q :=
  ⟨a, s, rfl, List.Subset.refl _, fun _ hi => .inl hi, h⟩

/-- Two readings one after the other; the second knows what the first has seen. -/
theorem bind {f : α → Reading β} {Q' : β → List Nat → Prop} (h : Reads n s x Q)
    (hf : ∀ a t, s ⊆ t → Q a t → Reads n t (f a) Q') : Reads n s (x >>= f) Q' := by
  obtain ⟨a, t, hx, hsub, hin, ha⟩ := h
  obtain ⟨b, u, hrun, hsub', hin', hb⟩ := hf a t hsub ha
  refine ⟨b, u, ?_, List.Subset.trans hsub hsub', ?_, hb⟩
  · show (x s >>= fun p => f p.1 p.2) = .ok (b, u)
    rw [hx]
    exact hrun
  · intro i hi
    rcases hin' i hi with h | h
    · exact hin i h
    · exact .inr h

/-- What was read may be weakened. -/
theorem imp (h : Reads n s x Q) (hQ : ∀ a t, s ⊆ t → Q a t → R a t) : Reads n s x R := by
  obtain ⟨a, t, hx, hsub, hin, ha⟩ := h
  exact ⟨a, t, hx, hsub, hin, hQ a t hsub ha⟩

/-! ## The rules of the operations -/

/-- A byte within the view is read, and seen. -/
theorem byteAt {v : View} {i : Nat} (h : i < v.size) :
    Reads v.size s (v.byteAt i) fun b t => b = v.bytes.getD i 0 ∧ t = i :: s := by
  refine ⟨v.bytes.getD i 0, i :: s, ?_, List.subset_cons_self _ _, ?_, rfl, rfl⟩
  · unfold View.byteAt
    rw [List.getD_eq_getElem?_getD, List.getElem?_eq_getElem h]
    rfl
  · intro j hj
    rcases List.mem_cons.1 hj with rfl | hj
    · exact .inr h
    · exact .inl hj

/-- A part that begins within the view is read. -/
theorem substr {v : View} {i : Nat} (count : Nat) (h : i ≤ v.size) :
    Reads v.size s (v.substr i count) fun a _ => a = (v.bytes.drop i).take count := by
  refine ⟨_, _, if_pos h, List.subset_append_right _ _, ?_, rfl⟩
  intro j hj
  rcases List.mem_append.1 hj with hj | hj
  · rw [List.mem_reverse, List.mem_range'_1] at hj
    right
    omega
  · exact .inl hj

/-- A sum within its width is the sum. -/
theorem add {width a b : Nat} (h : a + b < 2 ^ width) :
    Reads n s (Reading.add width a b) fun c t => c = a + b ∧ t = s := by
  unfold Reading.add
  rw [if_pos h]
  exact pure ⟨rfl, rfl⟩

/-- A difference that is not negative is the difference. -/
theorem sub {a b : Nat} (h : b ≤ a) : Reads n s (Reading.sub a b) fun c t => c = a - b ∧ t = s := by
  unfold Reading.sub
  rw [if_pos h]
  exact pure ⟨rfl, rfl⟩

/-- A product within its width is the product. -/
theorem mul {width a b : Nat} (h : a * b < 2 ^ width) :
    Reads n s (Reading.mul width a b) fun c t => c = a * b ∧ t = s := by
  unfold Reading.mul
  rw [if_pos h]
  exact pure ⟨rfl, rfl⟩

/-- A quotient by something other than zero is the quotient. -/
theorem div {a b : Nat} (h : b ≠ 0) : Reads n s (Reading.div a b) fun c t => c = a / b ∧ t = s := by
  unfold Reading.div
  rw [if_neg h]
  exact pure ⟨rfl, rfl⟩

/-- A shift by less than the width is the shift. -/
theorem shiftLeft {a : UInt32} {k : Nat} (h : k < 32) :
    Reads n s (Reading.shiftLeft a k) fun c t => c = a <<< k.toUInt32 ∧ t = s := by
  unfold Reading.shiftLeft
  rw [if_pos h]
  exact pure ⟨rfl, rfl⟩

/-- A loop over the numbers below a bound keeps an invariant. -/
theorem range {k : Nat} {b : β} {f : β → Nat → Reading β} {I : Nat → β → List Nat → Prop}
    (begin : I 0 b s)
    (step : ∀ i b t, i < k → I i b t → Reads n t (f b i) (I (i + 1))) :
    Reads n s ((List.range k).foldlM f b) (I k) := by
  induction k with
  | zero => exact pure begin
  | succ k ih =>
      rw [List.range_succ, List.foldlM_append]
      refine bind (ih fun i b t hi => step i b t (hi.trans (Nat.lt_succ_self _))) ?_
      intro b t _ hb
      show Reads n t (f b k >>= Pure.pure) _
      rw [bind_pure]
      exact step k b t (Nat.lt_succ_self _) hb

end Reads

end Reading
