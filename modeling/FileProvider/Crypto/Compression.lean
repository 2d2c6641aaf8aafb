import FileProvider.Library.Fips180

/-!
# Compression functions

`ObjectHash::block` and `Sha256::transform` run the same loops, each over a table of its own.
`compressBlock_eq` says that the loops compress a block as the standard does.

The table is a parameter with the one condition that it is that of the standard. The schedule of a
block and the turns over it are each compared by induction over the loop that makes them.
-/

namespace FileProvider

open Bytes Fips180

namespace Crypto

/-! ## The loops -/

/-- `std::rotr`. -/
def rotr (x : UInt32) (n : UInt32) : UInt32 := x >>> n ||| x <<< (32 - n)

/-- The first sixteen words of a block. -/
def readWords (data : Bytes) : List UInt32 :=
  (List.range 16).foldl (fun w i => w.set i
    ((data.getD (i * 4) 0).toUInt32 <<< 24 ||| (data.getD (i * 4 + 1) 0).toUInt32 <<< 16 |||
      (data.getD (i * 4 + 2) 0).toUInt32 <<< 8 ||| (data.getD (i * 4 + 3) 0).toUInt32))
    (List.replicate 64 0)

/-- A further word, from those before it. -/
def nextWord (w : List UInt32) (i : Nat) : UInt32 :=
  let a := w.getD (i - 15) 0
  let b := w.getD (i - 2) 0
  w.getD (i - 16) 0 + (rotr a 7 ^^^ rotr a 18 ^^^ a >>> 3) + w.getD (i - 7) 0 +
    (rotr b 17 ^^^ rotr b 19 ^^^ b >>> 10)

/-- The words of a block. -/
def blockWords (data : Bytes) : List UInt32 :=
  (List.range' 16 48).foldl (fun w i => w.set i (nextWord w i)) (readWords data)

/-- One turn over the working variables. -/
def turn (k w : List UInt32) (s : State) (i : Nat) : State :=
  let t1 := s.h + (rotr s.e 6 ^^^ rotr s.e 11 ^^^ rotr s.e 25) +
    ((s.e &&& s.f) ^^^ (~~~s.e &&& s.g)) +
    k.getD i 0 + w.getD i 0
  let t2 := (rotr s.a 2 ^^^ rotr s.a 13 ^^^ rotr s.a 22) +
    ((s.a &&& s.b) ^^^ (s.a &&& s.c) ^^^ (s.b &&& s.c))
  ⟨t1 + t2, s.a, s.b, s.c, s.d + t1, s.e, s.f, s.g⟩

/-- The state after a block. -/
@[irreducible] def compressBlock (k : List UInt32) (state : State) (data : Bytes) : State :=
  state.add ((List.range 64).foldl (turn k (blockWords data)) state)

/-! ## The message schedule -/

/-- The rotation of the source is that of the standard. -/
theorem rotr_eq (x n : UInt32) : rotr x n = Fips180.rotr n x := rfl

/-- The words that are set so far. -/
def Scheduled (data : Bytes) (w : List UInt32) (n : Nat) : Prop :=
  w.length = 64 ∧ ∀ t < n, w.getD t 0 = schedule data t

/-- A further word of the schedule is set. -/
theorem Scheduled.set {data : Bytes} {w : List UInt32} {n : Nat} {x : UInt32}
    (h : Scheduled data w n) (hn : n < 64) (hx : x = schedule data n) :
    Scheduled data (w.set n x) (n + 1) := by
  refine ⟨by rw [List.length_set, h.1], fun t ht => ?_⟩
  rw [List.getD_eq_getElem?_getD, List.getElem?_set]
  by_cases heq : n = t
  · subst heq
    rw [if_pos rfl, if_pos (by rw [h.1]; exact hn), Option.getD_some, hx]
  · rw [if_neg heq, ← List.getD_eq_getElem?_getD]
    exact h.2 t (by omega)

/-- The first sixteen words are read from the block. -/
theorem scheduled_readWords (data : Bytes) : Scheduled data (readWords data) 16 := by
  have hloop : ∀ n, n ≤ 16 → Scheduled data ((List.range n).foldl (fun w i => w.set i
      ((data.getD (i * 4) 0).toUInt32 <<< 24 ||| (data.getD (i * 4 + 1) 0).toUInt32 <<< 16 |||
        (data.getD (i * 4 + 2) 0).toUInt32 <<< 8 ||| (data.getD (i * 4 + 3) 0).toUInt32))
      (List.replicate 64 0)) n := by
    intro n
    induction n with
    | zero => exact fun _ => ⟨List.length_replicate, fun t ht => absurd ht (Nat.not_lt_zero t)⟩
    | succ n ih =>
        intro hn
        rw [List.range_succ, List.foldl_append, List.foldl_cons, List.foldl_nil]
        exact (ih (by omega)).set (by omega) (schedule_of_lt (by omega)).symm
  exact hloop 16 (Nat.le_refl _)

/-- The word that is computed is the next one of the schedule. -/
theorem nextWord_eq {data : Bytes} {w : List UInt32} {n : Nat} (h : Scheduled data w n)
    (hn : 16 ≤ n) : nextWord w n = schedule data n := by
  unfold nextWord
  dsimp only
  rw [h.2 _ (show n - 16 < n by omega), h.2 _ (show n - 15 < n by omega),
    h.2 _ (show n - 7 < n by omega), h.2 _ (show n - 2 < n by omega), schedule_of_ge hn]
  unfold smallSigma0 smallSigma1
  simp only [rotr_eq]
  ac_rfl

/-- All words of the schedule are computed. -/
theorem scheduled_blockWords (data : Bytes) : Scheduled data (blockWords data) 64 := by
  have hloop : ∀ n, n ≤ 48 → Scheduled data ((List.range' 16 n).foldl
      (fun w i => w.set i (nextWord w i)) (readWords data)) (16 + n) := by
    intro n
    induction n with
    | zero =>
        intro _
        rw [List.range'_zero, List.foldl_nil]
        exact scheduled_readWords data
    | succ n ih =>
        intro hn
        have hbefore := ih (by omega)
        rw [List.range'_concat, List.foldl_append, Nat.one_mul, List.foldl_cons, List.foldl_nil]
        exact hbefore.set (by omega) (nextWord_eq hbefore (by omega))
  exact hloop 48 (Nat.le_refl _)

/-! ## Blocks -/

/-- **The loops compress a block as the standard does.** The induction is on the number of turns:
after each of them the variables of the source are those of the standard, as the word of the turn is
that of the schedule. -/
theorem compressBlock_eq {k : List UInt32} (hk : k = constants) (state : State) (data : Bytes) :
    compressBlock k state data = compress state data := by
  have hloop : ∀ n, n ≤ 64 → (List.range n).foldl (turn k (blockWords data)) state
      = (List.range n).foldl (Fips180.round (schedule data)) state := by
    intro n
    induction n with
    | zero =>
        intro _
        rw [List.range_zero, List.foldl_nil, List.foldl_nil]
    | succ n ih =>
        intro hn
        rw [List.range_succ, List.foldl_append, List.foldl_append, ih (by omega), List.foldl_cons,
          List.foldl_cons, List.foldl_nil, List.foldl_nil]
        unfold turn Fips180.round
        rw [(scheduled_blockWords data).2 n (by omega), hk]
        rfl
  unfold compressBlock compress
  rw [hloop 64 (Nat.le_refl _)]
  unfold State.add
  simp only [UInt32.add_comm]

end Crypto

end FileProvider
