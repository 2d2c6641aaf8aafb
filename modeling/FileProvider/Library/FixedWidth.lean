import FileProvider.Library.Bytes
import Mathlib.Tactic.Ring

/-!
# Numbers of a fixed width

`places width n` is the number in as many decimal digits as the width says, with zeros before it.
Unlike decimal texts, texts of one width are in the order of the numbers they spell, also when a
text goes on after them (`order_field_lt`).

A number that does not fit loses its highest digits, so the lemmas ask for a bound.
`replicate_append_decimal` is the connection with decimal texts: what a program pads with zeros up
to the width is the number in that width.
-/

namespace Bytes

/-- The byte of a decimal digit. -/
def digit (n : Nat) : UInt8 := (48 + n).toUInt8

/-- The last digits of a number, as many as the width. -/
def places : Nat → Nat → Bytes
  | 0, _ => []
  | width + 1, n => places width (n / 10) ++ [digit (n % 10)]

/-- The byte of a digit. -/
theorem toNat_digit {n : Nat} (h : n < 10) : (digit n).toNat = 48 + n := by
  simp only [digit, Nat.toUInt8_eq, UInt8.toNat_ofNat']
  omega

@[simp] theorem length_places (width n : Nat) : (places width n).length = width := by
  induction width generalizing n with
  | zero => rfl
  | succ width ih => rw [places, List.length_append, ih, List.length_singleton]

/-- Every byte is one of a digit. -/
theorem digit_of_mem_places {width n : Nat} {c : UInt8} (h : c ∈ places width n) :
    ∃ d, d < 10 ∧ c = digit d := by
  induction width generalizing n with
  | zero => cases h
  | succ width ih =>
      rcases List.mem_append.1 h with hbefore | hlast
      · exact ih hbefore
      · exact ⟨n % 10, Nat.mod_lt n (by omega), List.mem_singleton.1 hlast⟩

/-! ## Zeros before a decimal text -/

/-- The character of a digit is its byte. -/
theorem toUInt8_digitChar {n : Nat} (h : n < 10) : n.digitChar.toNat.toUInt8 = digit n := by
  rw [Nat.toNat_digitChar_of_lt_ten h]
  rfl

/-- A number below ten is printed as its digit. -/
theorem decimal_of_lt {n : Nat} (h : n < 10) : decimal n = [digit n] := by
  rw [decimal, Nat.toDigits_of_lt_base h, List.map_singleton, toUInt8_digitChar h]

/-- The last digit of a number comes last. -/
theorem decimal_of_ge {n : Nat} (h : 10 ≤ n) :
    decimal n = decimal (n / 10) ++ [digit (n % 10)] := by
  rw [decimal, Nat.toDigits_of_base_le (by omega) h, List.map_append, List.map_singleton,
    toUInt8_digitChar (Nat.mod_lt n (by omega))]
  rfl

/-- Zero is printed as zeros. -/
theorem places_zero (width : Nat) : places width 0 = List.replicate width 48 := by
  induction width with
  | zero => rfl
  | succ width ih =>
      rw [places, Nat.zero_div, ih, List.replicate_succ']
      rfl

/-- **A decimal text with zeros before it is the number in the width.** The induction is on the
width, where a number of more than one digit is split into its last digit and the rest. -/
theorem replicate_append_decimal {width n : Nat} (hwidth : 0 < width) (h : n < 10 ^ width) :
    List.replicate (width - (decimal n).length) 48 ++ decimal n = places width n := by
  induction width generalizing n with
  | zero => omega
  | succ width ih =>
      rcases Nat.lt_or_ge n 10 with hlt | hge
      · rw [decimal_of_lt hlt, places, Nat.div_eq_of_lt hlt, Nat.mod_eq_of_lt hlt, places_zero]
        rfl
      · have hwidth' : 0 < width := by
          rcases Nat.eq_zero_or_pos width with rfl | hpos
          · omega
          · exact hpos
        have hdiv : n / 10 < 10 ^ width := by
          rw [pow_succ] at h
          omega
        rw [decimal_of_ge hge, List.length_append, List.length_singleton, Nat.add_sub_add_right,
          ← List.append_assoc, ih hwidth' hdiv, places]

/-! ## The order of the texts -/

/-- The order of texts goes byte by byte. -/
theorem order_append (s t : Bytes) : order (s ++ t) = order s ++ order t := List.map_append

/-- Of two prefixes of one length the first that differs decides. -/
theorem append_lt_of_length {s s' : List ℕ} (hlength : s.length = s'.length) (h : s < s')
    (t t' : List ℕ) : s ++ t < s' ++ t' := by
  induction s generalizing s' with
  | nil =>
      cases s' with
      | nil => exact absurd h (lt_irrefl _)
      | cons => cases hlength
  | cons x s ih =>
      cases s' with
      | nil => cases hlength
      | cons y s' =>
          rw [List.cons_append, List.cons_append]
          rcases List.cons_lt_cons_iff.1 h with hlt | ⟨rfl, hlt⟩
          · exact List.cons_lt_cons_iff.2 (.inl hlt)
          · exact List.cons_lt_cons_iff.2 (.inr ⟨rfl, ih (Nat.succ_injective hlength) hlt⟩)

/-- The texts of a width are in the order of the numbers. -/
theorem order_places_lt {width n n' : Nat} (hn' : n' < 10 ^ width) (h : n < n') :
    order (places width n) < order (places width n') := by
  induction width generalizing n n' with
  | zero =>
      rw [pow_zero] at hn'
      omega
  | succ width ih =>
      rw [places, places, order_append, order_append]
      rcases Nat.lt_or_ge (n / 10) (n' / 10) with hlt | hge
      · have hdiv : n' / 10 < 10 ^ width := by
          rw [pow_succ] at hn'
          omega
        exact append_lt_of_length (by simp [order]) (ih hdiv hlt) _ _
      · obtain heq : n / 10 = n' / 10 := by omega
        rw [heq]
        refine List.append_left_lt ?_
        rw [order, order, List.map_singleton, List.map_singleton,
          toNat_digit (Nat.mod_lt n (by omega)), toNat_digit (Nat.mod_lt n' (by omega))]
        exact List.cons_lt_cons_iff.2 (.inl (by omega))

/-- **Texts that begin with numbers of a width are in the order of the numbers, and of what
follows them.** -/
theorem order_field_lt {width n n' : Nat} {t t' : Bytes} (hn' : n' < 10 ^ width)
    (h : n < n' ∨ n = n' ∧ order t < order t') :
    order (places width n ++ t) < order (places width n' ++ t') := by
  rw [order_append, order_append]
  rcases h with hlt | ⟨rfl, hlt⟩
  · exact append_lt_of_length (by simp [order]) (order_places_lt hn' hlt) _ _
  · exact List.append_left_lt hlt

/-- A common first byte does not decide. -/
theorem order_cons_lt {c : UInt8} {t t' : Bytes} (h : order t < order t') :
    order (c :: t) < order (c :: t') :=
  List.cons_lt_cons_iff.2 (.inr ⟨rfl, h⟩)

end Bytes
