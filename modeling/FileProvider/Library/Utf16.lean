import Mathlib.Data.List.Basic

/-!
# UTF-16

Texts as sequences of 16-bit units: a scalar past the basic plane is a pair of surrogates.

The texts of the Qt library are such sequences. What is needed here is the text of some scalars and
what the scalars of a text are; a surrogate that is not paired ends the reading without a result.
-/

namespace Utf16

/-- The units of a scalar. -/
def units (c : Char) : List UInt16 :=
  if c.toNat < 0x10000 then [.ofNat c.toNat]
  else [.ofNat (0xD800 + (c.toNat - 0x10000) / 0x400),
    .ofNat (0xDC00 + (c.toNat - 0x10000) % 0x400)]

def encode (l : List Char) : List UInt16 := l.flatMap units

/-- The scalar of a pair of surrogates. -/
def pair (high low : UInt16) : Char :=
  Char.ofNat (0x10000 + (high.toNat - 0xD800) * 0x400 + (low.toNat - 0xDC00))

/-- The scalars of a text, which must pair its surrogates. -/
def scalars : List UInt16 → Option (List Char)
  | [] => some []
  | u :: rest =>
      if u.toNat < 0xD800 ∨ 0xDFFF < u.toNat then
        (scalars rest).map (Char.ofNat u.toNat :: ·)
      else if u.toNat ≤ 0xDBFF then
        match rest with
        | [] => none
        | v :: rest =>
            if 0xDC00 ≤ v.toNat ∧ v.toNat ≤ 0xDFFF then (scalars rest).map (pair u v :: ·) else none
      else none

/-- The rule for a unit that is no surrogate. -/
theorem scalars_basic {u : UInt16} {rest : List UInt16}
    (h : u.toNat < 0xD800 ∨ 0xDFFF < u.toNat) :
    scalars (u :: rest) = (scalars rest).map (Char.ofNat u.toNat :: ·) := by
  cases rest with
  | nil => conv_lhs => rw [scalars, if_pos h]
  | cons v rest => rw [scalars, if_pos h]

/-- The rule for a pair of surrogates. -/
theorem scalars_pair {u v : UInt16} {rest : List UInt16} (hu : 0xD800 ≤ u.toNat)
    (hu' : u.toNat ≤ 0xDBFF) (hv : 0xDC00 ≤ v.toNat ∧ v.toNat ≤ 0xDFFF) :
    scalars (u :: v :: rest) = (scalars rest).map (pair u v :: ·) := by
  rw [scalars, if_neg (by omega), if_pos hu', if_pos hv]

/-- A number of sixteen bits is kept in a unit. -/
theorem toNat_ofNat {n : Nat} (h : n < 0x10000) : (UInt16.ofNat n).toNat = n := by
  rw [UInt16.toNat_ofNat']
  omega

/-- What is written is read back. -/
theorem scalars_encode (l : List Char) : scalars (encode l) = some l := by
  induction l with
  | nil => rfl
  | cons c l ih =>
      have hc : c.toNat < 0xD800 ∨ (0xDFFF < c.toNat ∧ c.toNat < 0x110000) := c.valid
      show scalars (units c ++ encode l) = some (c :: l)
      unfold units
      split
      · next hsmall =>
          have hunit := toNat_ofNat hsmall
          rw [List.singleton_append, scalars_basic (by omega), ih, hunit, Char.ofNat_toNat]
          rfl
      · next hlarge =>
          have hhigh := toNat_ofNat (n := 0xD800 + (c.toNat - 0x10000) / 0x400) (by omega)
          have hlow := toNat_ofNat (n := 0xDC00 + (c.toNat - 0x10000) % 0x400) (by omega)
          rw [List.cons_append, List.singleton_append,
            scalars_pair (by omega) (by omega) (by omega), ih, pair, hhigh, hlow]
          have hsum : 0x10000 + (0xD800 + (c.toNat - 0x10000) / 0x400 - 0xD800) * 0x400
              + (0xDC00 + (c.toNat - 0x10000) % 0x400 - 0xDC00) = c.toNat := by omega
          rw [hsum, Char.ofNat_toNat]
          rfl

end Utf16
