import Mathlib.Data.List.Basic
import Mathlib.Data.List.Lex
import Mathlib.Data.Nat.Digits.Defs

/-!
# Byte strings and length-prefixed framing

Byte strings, the decimal texts of numbers, and the framing of a list of byte strings as one:
each string after its length in decimal and a colon. `frames_injective` says that the framing
loses nothing: the frames of different lists are different, whatever bytes the strings hold.

The decimal texts are those of the numbers without zeros before them, so two numbers never have the
same one, and none of them has a colon in it. A frame can therefore be read from its front: the
digits up to the colon say how many bytes belong to the string.
-/

/-- A string of bytes. -/
abbrev Bytes := List UInt8

namespace Bytes

/-- Whether a string is in a list of strings. -/
instance instDecidableMem (s : Bytes) (l : List Bytes) : Decidable (s ∈ l) :=
  List.instDecidableMemOfLawfulBEq s l

/-- The key byte strings are compared by: byte by byte, and a prefix first. -/
def order (s : Bytes) : List ℕ := s.map UInt8.toNat

/-- Texts that are ordered the same are equal. -/
theorem order_injective : Function.Injective order :=
  List.map_injective_iff.2 fun _ _ h => UInt8.toNat_inj.1 h

/-- The bytes of an ASCII text. -/
def ascii (s : String) : Bytes := s.toList.map (fun c => c.toNat.toUInt8)

/-- The decimal text of a number. -/
def decimal (n : Nat) : Bytes := (Nat.toDigits 10 n).map (fun c => c.toNat.toUInt8)

/-- The decimal text of an integer. -/
def decimalInt : Int → Bytes
  | .ofNat n => decimal n
  | .negSucc n => 45 :: decimal (n + 1)

/-- The two hexadecimal digits of a byte, in lower case. -/
def hexByte (b : UInt8) : Bytes :=
  let digit (n : Nat) : UInt8 := if n < 10 then (48 + n).toUInt8 else (87 + n).toUInt8
  [digit (b.toNat / 16), digit (b.toNat % 16)]

/-- The lower-case hexadecimal text of some bytes. -/
def hex (s : Bytes) : Bytes := s.flatMap hexByte

/-! ## Decimal texts -/

/-- The character of a digit fits a byte. -/
theorem toNat_toUInt8_of_isDigit {c : Char} (hc : c.isDigit) : c.toNat.toUInt8.toNat = c.toNat := by
  simp only [Char.isDigit, Bool.and_eq_true, decide_eq_true_eq] at hc
  have hle : c.toNat ≤ 57 := hc.2
  simp only [Nat.toUInt8_eq, UInt8.toNat_ofNat']
  omega

/-- The digits are read back from the bytes that spell them. -/
theorem map_ofNat_decimal (n : Nat) :
    (decimal n).map (fun b => Char.ofNat b.toNat) = Nat.toDigits 10 n := by
  rw [decimal, List.map_map]
  conv_rhs => rw [← List.map_id (Nat.toDigits 10 n)]
  refine List.map_congr_left fun c hc => ?_
  have hd := Nat.isDigit_of_mem_toDigits (by decide) (by decide) hc
  rw [Function.comp_apply, toNat_toUInt8_of_isDigit hd, Char.ofNat_toNat]
  rfl

/-- Two numbers are printed differently. -/
theorem decimal_injective : Function.Injective decimal := by
  intro m n h
  have hdig : Nat.toDigits 10 m = Nat.toDigits 10 n := by
    rw [← map_ofNat_decimal, h, map_ofNat_decimal]
  rw [← Nat.ofDigitChars_toDigits (b := 10) (n := m) (by decide) (by decide), hdig,
    Nat.ofDigitChars_toDigits (by decide) (by decide)]

/-- Every byte of a decimal text is a digit. -/
theorem digit_of_mem_decimal {n : Nat} {b : UInt8} (h : b ∈ decimal n) :
    48 ≤ b.toNat ∧ b.toNat ≤ 57 := by
  obtain ⟨c, hc, rfl⟩ := List.mem_map.1 h
  have hd := Nat.isDigit_of_mem_toDigits (by decide) (by decide) hc
  rw [toNat_toUInt8_of_isDigit hd]
  simp only [Char.isDigit, Bool.and_eq_true, decide_eq_true_eq] at hd
  exact ⟨hd.1, hd.2⟩

/-- A printed number is not empty. -/
theorem decimal_ne_nil (n : Nat) : decimal n ≠ [] := by
  simp [decimal, Nat.toDigits_ne_nil]

/-- A number below a power of ten has at most as many digits as the exponent. -/
theorem length_decimal {n k : Nat} (hk : 0 < k) (h : n < 10 ^ k) : (decimal n).length ≤ k := by
  rw [decimal, List.length_map]
  exact Nat.toDigits_length 10 n k hk h

/-- Two integers are printed differently. -/
theorem decimalInt_injective : Function.Injective decimalInt := by
  have minus : ∀ m k : Nat, decimal m ≠ 45 :: decimal k := by
    intro m k h
    have := digit_of_mem_decimal (n := m) (b := 45) (by rw [h]; simp)
    exact absurd this.1 (by decide)
  intro m n h
  cases m with
  | ofNat m =>
      cases n with
      | ofNat n => rw [decimal_injective h]
      | negSucc n => exact absurd h (minus _ _)
  | negSucc m =>
      cases n with
      | ofNat n => exact absurd h.symm (minus _ _)
      | negSucc n =>
          have := decimal_injective (List.cons.inj h).2
          rw [Nat.succ.inj this]

/-! ## Framing -/

/-- A byte string after its length in decimal and a colon. -/
def frame (s : Bytes) : Bytes := decimal s.length ++ 58 :: s

/-- The frames of a list of byte strings, one after the other. -/
def frames (l : List Bytes) : Bytes := l.flatMap frame

/-- A printed number holds no colon, so it can stand before one. -/
theorem colon_not_mem_decimal (n : Nat) : (58 : UInt8) ∉ decimal n := by
  intro h
  exact absurd (digit_of_mem_decimal h).2 (by decide)

/-- A part without a separator is read back from the front of what it separates. -/
theorem append_sep_inj {x y r u : Bytes} {c : UInt8} (hx : c ∉ x) (hy : c ∉ y)
    (h : x ++ c :: r = y ++ c :: u) : x = y ∧ r = u := by
  induction x generalizing y with
  | nil =>
      cases y with
      | nil => exact ⟨rfl, (List.cons.inj h).2⟩
      | cons b y =>
          obtain ⟨rfl, -⟩ := List.cons.inj h
          exact absurd (by simp) hy
  | cons a x ih =>
      cases y with
      | nil =>
          obtain ⟨rfl, -⟩ := List.cons.inj h
          exact absurd (by simp) hx
      | cons b y =>
          obtain ⟨rfl, hrest⟩ := List.cons.inj h
          simp only [List.mem_cons, not_or] at hx hy
          obtain ⟨rfl, hru⟩ := ih hx.2 hy.2 hrest
          exact ⟨rfl, hru⟩

/-- A frame is read back from the front of what begins with it. -/
theorem frame_append_inj {s t r u : Bytes} (h : frame s ++ r = frame t ++ u) : s = t ∧ r = u := by
  simp only [frame, List.append_assoc, List.cons_append] at h
  obtain ⟨hlen, hrest⟩ := append_sep_inj (colon_not_mem_decimal _) (colon_not_mem_decimal _) h
  exact List.append_inj hrest (decimal_injective hlen)

/-- A framed text is not empty. -/
theorem frame_ne_nil (s : Bytes) : frame s ≠ [] := by simp [frame]

/-- **The framing loses nothing.** The lists are taken apart together, one text after another, as a
frame determines where it ends. -/
theorem frames_injective : Function.Injective frames
  | [], [], _ => rfl
  | [], t :: l, h => absurd h.symm (by simp [frames, frame_ne_nil])
  | s :: l, [], h => absurd h (by simp [frames, frame_ne_nil])
  | s :: l, t :: m, h => by
      simp only [frames, List.flatMap_cons] at h
      obtain ⟨rfl, hrest⟩ := frame_append_inj h
      rw [frames_injective hrest]

end Bytes
