import FileProvider.Library.Blocks
import FileProvider.Library.Bytes

/-!
# SHA-256

The hash function of FIPS 180-4: its functions of words, its constants as the fractional parts of
roots of primes, the message schedule, the compression of a block and the padding of a message.
`absorb` compresses the blocks of a message one behind the other, and takes a message apart at every
block (`absorb_append`).

The constants are computed from the primes and not written down, so that a table in a program can be
compared with what the standard says they are. The definitions follow the text of the standard, with
words as 32-bit numbers and the schedule as a recursive function of the number of a word.
-/

namespace Fips180

open Bytes

/-! ## Functions of words -/

/-- `ROTR`. -/
def rotr (n : UInt32) (x : UInt32) : UInt32 := x >>> n ||| x <<< (32 - n)

def ch (x y z : UInt32) : UInt32 := (x &&& y) ^^^ (~~~x &&& z)

def maj (x y z : UInt32) : UInt32 := (x &&& y) ^^^ (x &&& z) ^^^ (y &&& z)

/-- The function Σ₀. -/
def bigSigma0 (x : UInt32) : UInt32 := rotr 2 x ^^^ rotr 13 x ^^^ rotr 22 x

/-- The function Σ₁. -/
def bigSigma1 (x : UInt32) : UInt32 := rotr 6 x ^^^ rotr 11 x ^^^ rotr 25 x

/-- The function σ₀. -/
def smallSigma0 (x : UInt32) : UInt32 := rotr 7 x ^^^ rotr 18 x ^^^ x >>> 3

/-- The function σ₁. -/
def smallSigma1 (x : UInt32) : UInt32 := rotr 17 x ^^^ rotr 19 x ^^^ x >>> 10

/-! ## Constants -/

/-- The whole root of a number, found bit by bit from the highest one on. -/
def root (k n : Nat) : Nat → Nat → Nat
  | 0, r => r
  | bits + 1, r => root k n bits (if (r + 2 ^ bits) ^ k ≤ n then r + 2 ^ bits else r)

/-- The first 64 primes. -/
def primes : List Nat :=
  [2, 3, 5, 7, 11, 13, 17, 19, 23, 29, 31, 37, 41, 43, 47, 53, 59, 61, 67, 71, 73, 79, 83, 89, 97,
    101, 103, 107, 109, 113, 127, 131, 137, 139, 149, 151, 157, 163, 167, 173, 179, 181, 191, 193,
    197, 199, 211, 223, 227, 229, 233, 239, 241, 251, 257, 263, 269, 271, 277, 281, 283, 293, 307,
    311]

/-- The first 32 bits of the fractional parts of the cube roots of the primes. -/
def constants : List UInt32 := primes.map fun p => (root 3 (p * 2 ^ 96) 36 0).toUInt32

/-- The working variables, and the words of a hash value. -/
structure State where
  a : UInt32
  b : UInt32
  c : UInt32
  d : UInt32
  e : UInt32
  f : UInt32
  g : UInt32
  h : UInt32
deriving DecidableEq

namespace State

def add (s t : State) : State :=
  ⟨s.a + t.a, s.b + t.b, s.c + t.c, s.d + t.d, s.e + t.e, s.f + t.f, s.g + t.g, s.h + t.h⟩

def words (s : State) : List UInt32 := [s.a, s.b, s.c, s.d, s.e, s.f, s.g, s.h]

end State

/-- The first 32 bits of the fractional part of the square root of a prime. -/
def squareRoot (p : Nat) : UInt32 := (root 2 (p * 2 ^ 64) 36 0).toUInt32

/-- The initial hash value. -/
def initial : State :=
  ⟨squareRoot 2, squareRoot 3, squareRoot 5, squareRoot 7, squareRoot 11, squareRoot 13,
    squareRoot 17, squareRoot 19⟩

/-! ## Compression -/

/-- A word of a block, the highest byte first. -/
def word (block : Bytes) (t : Nat) : UInt32 :=
  (block.getD (t * 4) 0).toUInt32 <<< 24 ||| (block.getD (t * 4 + 1) 0).toUInt32 <<< 16 |||
    (block.getD (t * 4 + 2) 0).toUInt32 <<< 8 ||| (block.getD (t * 4 + 3) 0).toUInt32

/-- The message schedule of a block. -/
def schedule (block : Bytes) (t : Nat) : UInt32 :=
  if t < 16 then word block t
  else smallSigma1 (schedule block (t - 2)) + schedule block (t - 7) +
    smallSigma0 (schedule block (t - 15)) + schedule block (t - 16)
termination_by t

/-- One round over the working variables. -/
def round (W : Nat → UInt32) (s : State) (t : Nat) : State :=
  let T₁ := s.h + bigSigma1 s.e + ch s.e s.f s.g + constants.getD t 0 + W t
  let T₂ := bigSigma0 s.a + maj s.a s.b s.c
  ⟨T₁ + T₂, s.a, s.b, s.c, s.d + T₁, s.e, s.f, s.g⟩

/-- The hash value after a block. -/
@[irreducible] def compress (s : State) (block : Bytes) : State :=
  ((List.range 64).foldl (round (schedule block)) s).add s

/-! ## Hash values -/

/-- The bytes of a number, the highest first. -/
def bigEndian (count n : Nat) : Bytes :=
  (List.range count).map fun i => (n / 256 ^ (count - 1 - i)).toUInt8

/-- What is written behind a message of `n` bytes: a bit, zeros, and the number of its bits. -/
def padding (n : Nat) : Bytes :=
  0x80 :: (List.replicate ((119 - n % 64) % 64) 0 ++ bigEndian 8 (8 * n))

/-- The hash value after the blocks of a message. -/
def absorb (s : State) (l : Bytes) : State := (Blocks.split 64 l).foldl compress s

/-- The message digest. -/
def sha256 (m : Bytes) : Bytes :=
  (absorb initial (m ++ padding m.length)).words.flatMap fun w => bigEndian 4 w.toNat

/-! ## Lemmas -/

section

variable {s : State} {block l l' : Bytes}

@[simp] theorem length_bigEndian (count n : Nat) : (bigEndian count n).length = count := by
  unfold bigEndian
  rw [List.length_map, List.length_range]

/-- The highest byte comes first. -/
theorem bigEndian_succ (count n : Nat) :
    bigEndian (count + 1) n = (n / 256 ^ count).toUInt8 :: bigEndian count n := by
  unfold bigEndian
  rw [List.range_succ_eq_map, List.map_cons, List.map_map]
  refine congrArg (_ :: ·) (List.map_congr_left fun i _ => ?_)
  show (n / 256 ^ (count + 1 - 1 - (i + 1))).toUInt8 = _
  rw [show count + 1 - 1 - (i + 1) = count - 1 - i by omega]

@[simp] theorem absorb_nil : absorb s [] = s := rfl

/-- Blocks are absorbed one by one. -/
theorem absorb_block (h : block.length = 64) :
    absorb s (block ++ l) = absorb (compress s block) l := by
  have hne : block ++ l ≠ [] := by
    intro hnil
    have hlength := congrArg List.length hnil
    rw [List.length_append, h, List.length_nil] at hlength
    omega
  unfold absorb
  rw [Blocks.split_of_ne_nil (by omega) hne, List.take_left' h, List.drop_left' h, List.foldl_cons]

/-- A message comes apart at every block. -/
theorem absorb_append (h : l.length % 64 = 0) : absorb s (l ++ l') = absorb (absorb s l) l' := by
  induction l using Blocks.induction (n := 64) (by omega) generalizing s with
  | nil => rfl
  | block l hne ih =>
      have hpos := List.length_pos_iff.2 hne
      have htake : (l.take 64).length = 64 := by
        rw [List.length_take]
        omega
      have hdrop : (l.drop 64).length % 64 = 0 := by
        rw [List.length_drop]
        omega
      calc absorb s (l ++ l') = absorb s (l.take 64 ++ (l.drop 64 ++ l')) := by
            rw [← List.append_assoc, List.take_append_drop]
        _ = absorb (absorb (compress s (l.take 64)) (l.drop 64)) l' := by
            rw [absorb_block htake, ih hdrop]
        _ = absorb (absorb s l) l' := by
            rw [← absorb_block htake, List.take_append_drop]

/-- The first sixteen words of the schedule are those of the block. -/
theorem schedule_of_lt {t : Nat} (h : t < 16) : schedule block t = word block t := by
  rw [schedule, if_pos h]

/-- The others are computed from four before them. -/
theorem schedule_of_ge {t : Nat} (h : 16 ≤ t) : schedule block t =
    smallSigma1 (schedule block (t - 2)) + schedule block (t - 7) +
      smallSigma0 (schedule block (t - 15)) + schedule block (t - 16) := by
  conv_lhs => rw [schedule, if_neg (by omega)]

end

end Fips180
