import FileProvider.Crypto.Compression
import FileProvider.Library.Outcome

/-!
# Hash functions of packages and of the native library

`ObjectHash` and `Sha256` hash a message that comes in parts. Both keep the hash value of the whole
blocks so far and fill the next block; they differ in how they take a part in. `hashes_standard`
says that both give the SHA-256 of the message, however it is split.

What a hasher holds is one predicate on the message so far, which each update keeps for its part and
the end reads off; the two classes share it, and only their loops differ. A length of `2 ^ 61` bytes
is where the number of bits no longer fits into 64.
-/

namespace FileProvider

open Bytes Fips180 Fallible

namespace Crypto

/-! ## Hashers -/

/-- The data of `ObjectHash` and of `Sha256`: the hash value so far, the block that is filled, how
many bytes came in, and how many of them stand in the block. -/
structure Hasher where
  state : State
  pending : Bytes
  length : Nat
  used : Nat
  pending_size : pending.length = 64
  used_lt : used < 64
  length_lt : length < 2 ^ 61

/-- A block with a text copied to a place in it. -/
def fill (block : Bytes) (place : Nat) (s : Bytes) : Bytes :=
  block.take place ++ s ++ block.drop (place + s.length)

/-- Filling a part of a block keeps the length of the block. -/
theorem length_fill (block : Bytes) (place : Nat) (s : Bytes)
    (h : place + s.length ≤ block.length) :
    (fill block place s).length = block.length := by
  unfold fill
  rw [List.length_append, List.length_append, List.length_take, List.length_drop]
  omega

/-- The filled block begins with what was before the place, and the part behind it. -/
theorem take_fill (block : Bytes) (place : Nat) (s : Bytes) (h : place + s.length ≤ block.length) :
    (fill block place s).take (place + s.length) = block.take place ++ s := by
  unfold fill
  rw [List.take_left']
  rw [List.length_append, List.length_take]
  omega

/-- Filling up to the end replaces the rest of the block. -/
theorem fill_end (block : Bytes) (place : Nat) (s : Bytes) (h : place + s.length = block.length) :
    fill block place s = block.take place ++ s := by
  unfold fill
  rw [h, List.drop_length, List.append_nil]

/-- A block with zeros from a place on, up to another. -/
def clear (block : Bytes) (first last : Nat) : Bytes :=
  fill block first (List.replicate (last - first) 0)

/-- A block with the number of the bits of a message at its end. -/
def putLength (block : Bytes) (bits : Nat) : Bytes :=
  (List.range 8).foldl (fun block i => block.set (63 - i) (bits / 2 ^ (8 * i)).toUInt8) block

/-- The block that is filled, with a bit behind the message, and how far it is filled. -/
def Hasher.marked (h : Hasher) : Bytes := h.pending.set h.used 0x80

/-- The hash value of the whole message: the marked block is compressed by itself when the length
does not fit behind the mark. -/
def Hasher.lastState (transform : State → Bytes → State) (h : Hasher) : State :=
  let bits := h.length * 8
  if 56 < h.used + 1 then
    let block := clear h.marked (h.used + 1) 64
    transform (transform h.state block) (putLength (clear block 0 56) bits)
  else transform h.state (putLength (clear h.marked (h.used + 1) 56) bits)

/-- A hasher whose block was compressed. -/
def Hasher.flushed (h : Hasher) (state : State) (block : Bytes) (hsize : block.length = 64) :
    Hasher :=
  { h with
    state := state, pending := block, used := 0, pending_size := hsize, used_lt := by decide }

/-- A hasher with more bytes in its block. -/
def Hasher.filled (h : Hasher) (block : Bytes) (used : Nat) (hsize : block.length = 64)
    (hused : used < 64) : Hasher :=
  { h with pending := block, used := used, pending_size := hsize, used_lt := hused }

def digits : Bytes := ascii "0123456789abcdef"

/-- The sign of a number below 16. -/
def nibble (n : Nat) : UInt8 := digits.getD n 0

/-! ## `ObjectHash` -/

namespace ObjectHash

/-- The constants of `block`. -/
def k : List UInt32 :=
  [0x428a2f98, 0x71374491, 0xb5c0fbcf, 0xe9b5dba5, 0x3956c25b, 0x59f111f1, 0x923f82a4, 0xab1c5ed5,
    0xd807aa98, 0x12835b01, 0x243185be, 0x550c7dc3, 0x72be5d74, 0x80deb1fe, 0x9bdc06a7, 0xc19bf174,
    0xe49b69c1, 0xefbe4786, 0x0fc19dc6, 0x240ca1cc, 0x2de92c6f, 0x4a7484aa, 0x5cb0a9dc, 0x76f988da,
    0x983e5152, 0xa831c66d, 0xb00327c8, 0xbf597fc7, 0xc6e00bf3, 0xd5a79147, 0x06ca6351, 0x14292967,
    0x27b70a85, 0x2e1b2138, 0x4d2c6dfc, 0x53380d13, 0x650a7354, 0x766a0abb, 0x81c2c92e, 0x92722c85,
    0xa2bfe8a1, 0xa81a664b, 0xc24b8b70, 0xc76c51a3, 0xd192e819, 0xd6990624, 0xf40e3585, 0x106aa070,
    0x19a4c116, 0x1e376c08, 0x2748774c, 0x34b0bcb5, 0x391c0cb3, 0x4ed8aa4a, 0x5b9cca4f, 0x682e6ff3,
    0x748f82ee, 0x78a5636f, 0x84c87814, 0x8cc70208, 0x90befffa, 0xa4506ceb, 0xbef9a3f7, 0xc67178f2]

def block (state : State) (data : Bytes) : State := compressBlock k state data

/-- A new hasher. -/
def create : Hasher where
  state := ⟨0x6a09e667, 0xbb67ae85, 0x3c6ef372, 0xa54ff53a, 0x510e527f, 0x9b05688c, 0x1f83d9ab,
    0x5be0cd19⟩
  pending := List.replicate 64 0
  length := 0
  used := 0
  pending_size := List.length_replicate
  used_lt := by decide
  length_lt := by decide

/-- The loop of `update`. -/
def take (h : Hasher) (bytes : Bytes) : Hasher :=
  if hne : bytes = [] then h
  else
    have hpositive := List.length_pos_iff.2 hne
    have hused := h.used_lt
    have hsize :
        (fill h.pending h.used (bytes.take (min bytes.length (64 - h.used)))).length = 64 := by
      rw [length_fill _ _ _ ?_, h.pending_size]
      rw [List.length_take, h.pending_size]
      omega
    let n := min bytes.length (64 - h.used)
    let pending := fill h.pending h.used (bytes.take n)
    if hfull : h.used + n = 64 then
      take (h.flushed (block h.state pending) pending hsize) (bytes.drop n)
    else take (h.filled pending (h.used + n) hsize (by omega)) (bytes.drop n)
termination_by bytes.length
decreasing_by
  · rw [List.length_drop]
    omega
  · rw [List.length_drop]
    omega

def update (h : Hasher) (bytes : Bytes) : Fallible Hasher :=
  if hlarge : (2 ^ 64 - 1) / 8 - h.length < bytes.length then .error "SHA-256 input too large"
  else
    .ok (take { h with
      length := h.length + bytes.length
      length_lt := by have := h.length_lt; omega } bytes)

/-- The digits of a word. -/
def hexWord (word : UInt32) : Bytes :=
  [28, 24, 20, 16, 12, 8, 4, 0].map fun shift => nibble (word.toNat / 2 ^ shift % 16)

def finish (h : Hasher) : Bytes := (h.lastState block).words.flatMap hexWord

end ObjectHash

/-! ## `Sha256` -/

namespace Sha256

def constants : List UInt32 :=
  [0x428a2f98, 0x71374491, 0xb5c0fbcf, 0xe9b5dba5, 0x3956c25b, 0x59f111f1, 0x923f82a4,
    0xab1c5ed5, 0xd807aa98, 0x12835b01, 0x243185be, 0x550c7dc3, 0x72be5d74, 0x80deb1fe,
    0x9bdc06a7, 0xc19bf174, 0xe49b69c1, 0xefbe4786, 0x0fc19dc6, 0x240ca1cc, 0x2de92c6f,
    0x4a7484aa, 0x5cb0a9dc, 0x76f988da, 0x983e5152, 0xa831c66d, 0xb00327c8, 0xbf597fc7,
    0xc6e00bf3, 0xd5a79147, 0x06ca6351, 0x14292967, 0x27b70a85, 0x2e1b2138, 0x4d2c6dfc,
    0x53380d13, 0x650a7354, 0x766a0abb, 0x81c2c92e, 0x92722c85, 0xa2bfe8a1, 0xa81a664b,
    0xc24b8b70, 0xc76c51a3, 0xd192e819, 0xd6990624, 0xf40e3585, 0x106aa070, 0x19a4c116,
    0x1e376c08, 0x2748774c, 0x34b0bcb5, 0x391c0cb3, 0x4ed8aa4a, 0x5b9cca4f, 0x682e6ff3,
    0x748f82ee, 0x78a5636f, 0x84c87814, 0x8cc70208, 0x90befffa, 0xa4506ceb, 0xbef9a3f7,
    0xc67178f2]

def transform (state : State) (block : Bytes) : State := compressBlock constants state block

/-- A new hasher. -/
def create : Hasher where
  state := ⟨0x6a09e667, 0xbb67ae85, 0x3c6ef372, 0xa54ff53a, 0x510e527f, 0x9b05688c, 0x1f83d9ab,
    0x5be0cd19⟩
  pending := List.replicate 64 0
  length := 0
  used := 0
  pending_size := List.length_replicate
  used_lt := by decide
  length_lt := by decide

/-- The bytes that go on with a block, and what is left of the input. -/
def resume (h : Hasher) (input : Bytes) : Hasher × Bytes :=
  if h.used = 0 then (h, input)
  else
    have hused := h.used_lt
    have hsize :
        (fill h.pending h.used (input.take (min input.length (64 - h.used)))).length = 64 := by
      rw [length_fill _ _ _ ?_, h.pending_size]
      rw [List.length_take, h.pending_size]
      omega
    let n := min input.length (64 - h.used)
    let pending := fill h.pending h.used (input.take n)
    if hfull : h.used + n = 64 then
      (h.flushed (transform h.state pending) pending hsize, input.drop n)
    else (h.filled pending (h.used + n) hsize (by omega), input.drop n)

/-- The whole blocks of an input, and what is left of it. -/
def blocks (state : State) (input : Bytes) : State × { rest : Bytes // rest.length < 64 } :=
  if hsize : 64 ≤ input.length then blocks (transform state (input.take 64)) (input.drop 64)
  else (state, ⟨input, by omega⟩)
termination_by input.length
decreasing_by
  rw [List.length_drop]
  omega

/-- The rest of an input begins the next block, unless there is none. -/
def keep (h : Hasher) (state : State) (rest : { rest : Bytes // rest.length < 64 }) : Hasher :=
  if rest.val = [] then { h with state := state }
  else
    { h with
      state := state, pending := fill h.pending 0 rest.val, used := rest.val.length
      pending_size := by
        have hrest := rest.property
        rw [length_fill _ _ _ ?_, h.pending_size]
        rw [h.pending_size]
        omega
      used_lt := rest.property }

def update (h : Hasher) (input : Bytes) : Fallible Hasher :=
  if hlarge : (2 ^ 64 - 1) / 8 - h.length < input.length then
    .error "SHA-256 message exceeds its 64-bit bit length"
  else
    let h := { h with
      length := h.length + input.length
      length_lt := by have := h.length_lt; omega }
    let r := resume h input
    let b := blocks r.1.state r.2
    .ok (keep r.1 b.1 b.2)

/-- `digest`, which works on a copy of the hasher. -/
def digest (h : Hasher) : Bytes × Hasher :=
  ((h.lastState transform).words.flatMap fun word =>
    (List.range 4).map fun j => (word.toNat / 2 ^ (24 - 8 * j)).toUInt8, h)

def hexDigest (h : Hasher) : Bytes × Hasher :=
  let value := digest h
  (value.1.flatMap fun byte => [nibble (byte.toNat / 16), nibble (byte.toNat % 16)], value.2)

end Sha256

/-! ## What a hasher holds -/

section

variable {h : Hasher} {m part block tail : Bytes} {transform : State → Bytes → State}

/-- A hasher has compressed the whole blocks of a text, and holds the rest of it. -/
def Holds (h : Hasher) (m : Bytes) : Prop :=
  ∃ full, full.length % 64 = 0 ∧ h.state = absorb initial full ∧ m = full ++ h.pending.take h.used

/-- What is pending is the message beyond its whole blocks. -/
theorem Holds.length_mod (hm : Holds h m) : m.length % 64 = h.used := by
  obtain ⟨full, hfull, -, rfl⟩ := hm
  have hsize := h.pending_size
  have hused := h.used_lt
  rw [List.length_append, List.length_take]
  omega

/-- A hasher whose block is full compresses it. -/
theorem Holds.flushed {state : State} (hm : Holds h m) (hstate : state = compress h.state block)
    (hblock : block = h.pending.take h.used ++ tail) (hsize : block.length = 64) :
    Holds (h.flushed state block hsize) (m ++ tail) := by
  obtain ⟨full, hfull, hbefore, rfl⟩ := hm
  refine ⟨full ++ block, ?_, ?_, ?_⟩
  · rw [List.length_append]
    omega
  · show state = absorb initial (full ++ block)
    rw [absorb_append hfull, ← List.append_nil block, absorb_block hsize, absorb_nil, ← hbefore]
    exact hstate
  · show full ++ h.pending.take h.used ++ tail = full ++ block ++ block.take 0
    rw [List.take_zero, List.append_nil, hblock, List.append_assoc]

/-- A hasher whose block is not full keeps what is added to it. -/
theorem Holds.filled {used : Nat} (hm : Holds h m)
    (hblock : block.take used = h.pending.take h.used ++ tail) (hsize : block.length = 64)
    (hused : used < 64) : Holds (h.filled block used hsize hused) (m ++ tail) := by
  obtain ⟨full, hfull, hbefore, rfl⟩ := hm
  refine ⟨full, hfull, hbefore, ?_⟩
  show full ++ h.pending.take h.used ++ tail = full ++ block.take used
  rw [hblock, List.append_assoc]

/-- Flushing a block keeps the count of the bytes read. -/
theorem length_flushed (h : Hasher) (state : State) (block : Bytes) (hsize : block.length = 64) :
    (h.flushed state block hsize).length = h.length := rfl

/-- A flushed block is empty again. -/
theorem used_flushed (h : Hasher) (state : State) (block : Bytes) (hsize : block.length = 64) :
    (h.flushed state block hsize).used = 0 := rfl

/-- Filling a block keeps the count of the bytes read. -/
theorem length_filled (h : Hasher) (block : Bytes) (used : Nat) (hsize : block.length = 64)
    (hused : used < 64) : (h.filled block used hsize hused).length = h.length := rfl

/-! ## The end of a message -/

/-- The length is written from the end of the block on. The loop writes the bytes from the least
significant one backwards, and after `n` of its turns the last `n` bytes stand. -/
theorem putLength_eq (h : block.length = 64) (bits : Nat) :
    putLength block bits = block.take 56 ++ bigEndian 8 bits := by
  have hloop : ∀ n, n ≤ 8 → (List.range n).foldl
      (fun block i => block.set (63 - i) (bits / 2 ^ (8 * i)).toUInt8) block
        = block.take (64 - n) ++ bigEndian n bits := by
    intro n
    induction n with
    | zero =>
        intro _
        rw [Nat.sub_zero, ← h, List.take_length]
        exact (List.append_nil block).symm
    | succ n ih =>
        intro hn
        have htake : block.take (64 - n) = block.take (63 - n) ++ [block[63 - n]] := by
          rw [show 64 - n = 63 - n + 1 by omega, List.take_succ_eq_append_getElem (by omega)]
        have hlength : (block.take (63 - n)).length = 63 - n := by
          rw [List.length_take]
          omega
        rw [List.range_succ, List.foldl_append, ih (by omega), List.foldl_cons, List.foldl_nil,
          htake, List.append_assoc, List.set_append_right _ _ (by omega), hlength, Nat.sub_self,
          List.singleton_append, List.set_cons_zero, bigEndian_succ, Nat.pow_mul,
          show 64 - (n + 1) = 63 - n by omega]
  exact hloop 8 (Nat.le_refl _)

/-- The block with the end mark is a whole block. -/
theorem length_marked (h : Hasher) : h.marked.length = 64 := by
  unfold Hasher.marked
  rw [List.length_set, h.pending_size]

/-- The end mark stands behind what is pending. -/
theorem take_marked (h : Hasher) :
    h.marked.take (h.used + 1) = h.pending.take h.used ++ [0x80] := by
  have hsize := h.pending_size
  have hused := h.used_lt
  have hlength : (h.pending.take h.used).length = h.used := by
    rw [List.length_take]
    omega
  unfold Hasher.marked
  rw [List.set_eq_take_append_cons_drop, if_pos (by omega), List.append_cons, List.take_left']
  rw [List.length_append, hlength, List.length_singleton]

/-- Clearing sets the bytes between two places to zero. -/
theorem take_clear (block : Bytes) (first last : Nat) (hle : first ≤ last)
    (hlast : last ≤ block.length) :
    (clear block first last).take last = block.take first ++ List.replicate (last - first) 0 := by
  have hfill := take_fill block first
            (List.replicate (last - first) 0)
    (by rw [List.length_replicate]; omega)
  rw [List.length_replicate, show first + (last - first) = last by omega] at hfill
  exact hfill

/-- Clearing keeps the length of the block. -/
theorem length_clear (block : Bytes) (first last : Nat) (hle : first ≤ last)
    (hlast : last ≤ block.length) :
    (clear block first last).length = block.length := by
  refine length_fill _ _ _ ?_
  rw [List.length_replicate]
  omega

/-- The last hash value is that of the padded message. The cases are whether the mark and the length
fit into the pending block or need a further one, exactly as in the source. -/
theorem Holds.lastState (htransform : ∀ s block, transform s block = Fips180.compress s block)
    (hm : Holds h m) (hlength : h.length = m.length) :
    h.lastState transform = absorb initial (m ++ padding m.length) := by
  have hmod := hm.length_mod
  have hmarked := length_marked h
  have hused := h.used_lt
  obtain ⟨full, hfull, hstate, hsplit⟩ := hm
  have hbytes := length_bigEndian 8 (8 * m.length)
  have htail : (h.pending.take h.used).length = h.used := by
    rw [List.length_take, h.pending_size]
    omega
  unfold Hasher.lastState padding
  rw [hlength, hmod, Nat.mul_comm m.length 8]
  generalize 8 * m.length = bits at hbytes
  dsimp only
  split
  · next hlate =>
      have hclear := length_clear h.marked (h.used + 1) 64 (by omega)
        (by omega)
      have hfirst : clear h.marked (h.used + 1) 64
          = h.pending.take h.used ++ [0x80] ++ List.replicate (63 - h.used) 0 := by
        have htake := take_clear h.marked (h.used + 1) 64 (by omega)
          (by omega)
        rw [List.take_of_length_le (by omega), take_marked] at htake
        rw [htake, show 64 - (h.used + 1) = 63 - h.used by omega]
      have hsecond : putLength (clear (clear h.marked (h.used + 1) 64) 0 56) bits
          = List.replicate 56 0 ++ bigEndian 8 bits := by
        rw [putLength_eq (by rw [length_clear _ _ _ (by omega) (by omega)]; omega),
          take_clear _ _ _ (by omega) (by omega), List.take_zero, List.nil_append]
      rw [htransform, htransform, hsecond, hfirst, hstate, hsplit,
        show (119 - h.used) % 64 = 63 - h.used + 56 by omega, List.replicate_add]
      generalize hb : h.pending.take h.used ++ [0x80] ++ List.replicate (63 - h.used) 0 = b
      have hlast : (List.replicate 56 0 ++ bigEndian 8 bits).length = 64 := by
        rw [List.length_append, List.length_replicate, hbytes]
      calc Fips180.compress (Fips180.compress (absorb initial full) b)
            (List.replicate 56 0 ++ bigEndian 8 bits)
          = absorb (absorb initial full)
              (b ++ (List.replicate 56 0 ++ bigEndian 8 bits ++ [])) := by
            rw [absorb_block (by rw [← hb, ← hfirst]; omega), absorb_block hlast, absorb_nil]
        _ = _ := by
            rw [← absorb_append hfull, ← hb]
            simp only [List.append_assoc, List.append_nil, List.cons_append, List.nil_append]
  · next hearly =>
      have hblock : putLength (clear h.marked (h.used + 1) 56) bits
          = h.pending.take h.used ++ [0x80] ++
            List.replicate (55 - h.used) 0 ++ bigEndian 8 bits := by
        rw [putLength_eq (by rw [length_clear _ _ _ (by omega) (by omega)]; omega),
          take_clear _ _ _ (by omega) (by omega), take_marked,
          show 56 - (h.used + 1) = 55 - h.used by omega]
      have hsize : (h.pending.take h.used ++ [0x80] ++ List.replicate (55 - h.used) 0 ++
          bigEndian 8 bits).length = 64 := by
        simp only [List.length_append, List.length_replicate, List.length_singleton, htail, hbytes]
        omega
      rw [htransform, hblock, hstate, hsplit, show (119 - h.used) % 64 = 55 - h.used by omega]
      generalize hb : h.pending.take h.used ++ [0x80] ++ List.replicate (55 - h.used) 0 ++
        bigEndian 8 bits = b at hsize
      calc Fips180.compress (absorb initial full) b = absorb (absorb initial full) (b ++ []) := by
            rw [absorb_block hsize, absorb_nil]
        _ = _ := by
            rw [← absorb_append hfull, ← hb]
            simp only [List.append_assoc, List.append_nil, List.cons_append, List.nil_append]

/-! ## The tables -/

/-- The table of `ObjectHash` is that of the standard. -/
theorem objectHash_constants : ObjectHash.k = constants := by decide +kernel

/-- The table of `Sha256` is that of the standard. -/
theorem sha256_constants : Sha256.constants = constants := by decide +kernel

/-- The compression of `ObjectHash` is that of the standard. -/
theorem block_eq (state : State) (data : Bytes) :
    ObjectHash.block state data = Fips180.compress state data :=
  compressBlock_eq objectHash_constants state data

/-- The compression of `Sha256` is that of the standard. -/
theorem transform_eq (state : State) (block : Bytes) :
    Sha256.transform state block = Fips180.compress state block :=
  compressBlock_eq sha256_constants state block

/-- Both hashers begin with the initial state of the standard. -/
theorem create_state : ObjectHash.create.state = initial ∧ Sha256.create.state = initial := by
  decide +kernel

/-- A new hasher holds nothing. -/
theorem holds_create : Holds ObjectHash.create [] ∧ Holds Sha256.create [] :=
  ⟨⟨[], rfl, create_state.1, rfl⟩, ⟨[], rfl, create_state.2, rfl⟩⟩

/-! ## Parts of a message -/

/-- One round of `ObjectHash` takes the next part of the input and holds the message with it. A part
that fills the pending block is compressed at once, and one that does not is appended to it. -/
theorem holds_take (part : Bytes) (hm : Holds h m) :
    Holds (ObjectHash.take h part) (m ++ part) ∧ (ObjectHash.take h part).length = h.length := by
  fun_induction ObjectHash.take h part generalizing m with
  | case1 h =>
      rw [List.append_nil]
      exact ⟨hm, rfl⟩
  | case2 h bytes hne hpositive hused hsize n pending hfull =>
      rename_i ih
      have hn : (bytes.take n).length = n := by
        rw [List.length_take]
        omega
      have hpending : pending = h.pending.take h.used ++ bytes.take n :=
        fill_end _ _ _ (by rw [hn, h.pending_size]; exact hfull)
      have hnext := ih (hm.flushed (block_eq _ _) hpending hsize)
      rw [List.append_assoc, List.take_append_drop, length_flushed] at hnext
      exact hnext
  | case3 h bytes hne hpositive hused hsize n pending hfull =>
      rename_i ih
      have hn : (bytes.take n).length = n := by
        rw [List.length_take]
        omega
      have hpending : pending.take (h.used + n) = h.pending.take h.used ++ bytes.take n := by
        have htake := take_fill h.pending h.used
            (bytes.take n)
          (by rw [hn, h.pending_size]; omega)
        rw [hn] at htake
        exact htake
      have hnext := ih (hm.filled hpending hsize (by omega))
      rw [List.append_assoc, List.take_append_drop, length_filled] at hnext
      exact hnext

/-- The data of a hasher that has taken a text in. -/
def Reads (h : Hasher) (m : Bytes) : Prop := Holds h m ∧ h.length = m.length

/-- What a hasher holds does not depend on its count of bytes. -/
theorem Holds.of_length (hm : Holds h m) (n : Nat) (hn : n < 2 ^ 61) :
    Holds { h with length := n, length_lt := hn } m :=
  hm

/-- An update of `ObjectHash` below the limit of its counter reads the whole input. -/
theorem objectHash_update (hm : Reads h m) (bytes : Bytes)
    (hbytes : m.length + bytes.length < 2 ^ 61) :
    ∃ h', ObjectHash.update h bytes = .ok h' ∧ Reads h' (m ++ bytes) := by
  have hlength := hm.2
  unfold ObjectHash.update
  rw [dif_neg (by omega)]
  obtain ⟨hholds, htaken⟩ := holds_take bytes
    (hm.1.of_length (h.length + bytes.length) (by omega))
  refine ⟨_, rfl, hholds, htaken.trans ?_⟩
  rw [List.length_append, ← hlength]

/-- The first part of an update of `Sha256` fills the pending block, or takes all that there is.
After it nothing is pending or nothing is left, and that is what the loop over the whole blocks
starts from. -/
theorem holds_resume (bytes : Bytes) (hm : Holds h m) :
    ∃ part, bytes = part ++ (Sha256.resume h bytes).2 ∧
    Holds (Sha256.resume h bytes).1 (m ++ part) ∧ (Sha256.resume h bytes).1.length = h.length ∧
    ((Sha256.resume h bytes).2 = [] ∨ (Sha256.resume h bytes).1.used = 0) := by
  have hused := h.used_lt
  have hn : (bytes.take (min bytes.length (64 - h.used))).length
      = min bytes.length (64 - h.used) := by
    rw [List.length_take]
    omega
  unfold Sha256.resume
  split
  · next hnone => exact ⟨[], rfl, by rw [List.append_nil]; exact hm, rfl, .inr hnone⟩
  · dsimp only
    split
    · next hfull =>
        have hpending := fill_end h.pending h.used
            (bytes.take (min bytes.length (64 - h.used)))
          (by rw [hn, h.pending_size]; exact hfull)
        have hsize := length_fill h.pending h.used
            (bytes.take (min bytes.length (64 - h.used)))
          (by rw [hn, h.pending_size]; omega)
        refine ⟨bytes.take (min bytes.length (64 - h.used)), ?_, ?_, ?_, .inr ?_⟩
        · exact (List.take_append_drop _ _).symm
        · exact hm.flushed (transform_eq _ _) hpending (hsize.trans h.pending_size)
        · exact length_flushed _ _ _ _
        · exact used_flushed _ _ _ _
    · next hfull =>
        have hpending := take_fill h.pending h.used
            (bytes.take (min bytes.length (64 - h.used)))
          (by rw [hn, h.pending_size]; omega)
        rw [hn] at hpending
        refine ⟨bytes.take (min bytes.length (64 - h.used)), ?_, ?_, ?_, .inl ?_⟩
        · exact (List.take_append_drop _ _).symm
        · exact hm.filled hpending _ _
        · exact length_filled _ _ _ _ _
        · exact List.drop_eq_nil_of_le (by omega)

/-- The middle part absorbs the whole blocks of the input. -/
theorem absorb_blocks (state : State) (input : Bytes) : ∃ full, full.length % 64 = 0 ∧
    input = full ++ (Sha256.blocks state input).2.val ∧
    (Sha256.blocks state input).1 = absorb state full := by
  fun_induction Sha256.blocks state input with
  | case1 state input hsize ih =>
      obtain ⟨full, hfull, hinput, hstate⟩ := ih
      have htake : (input.take 64).length = 64 := by
        rw [List.length_take]
        omega
      refine ⟨input.take 64 ++ full, ?_, ?_, ?_⟩
      · rw [List.length_append]
        omega
      · rw [List.append_assoc, ← hinput, List.take_append_drop]
      · rw [hstate, absorb_block htake]
        exact congrArg (absorb · full) (transform_eq _ _)
  | case2 state input hsize => exact ⟨[], rfl, rfl, rfl⟩

/-- Where no byte is pending, the whole blocks of an input are compressed and the rest is kept. The
whole blocks are absorbed in order, and since no byte was pending their number keeps the length
divisible by 64. -/
theorem holds_keep {bytes : Bytes} (hm : Holds h m) (hwhole : bytes = [] ∨ h.used = 0) :
    Holds (Sha256.keep h (Sha256.blocks h.state bytes).1 (Sha256.blocks h.state bytes).2)
        (m ++ bytes) ∧
      (Sha256.keep h (Sha256.blocks h.state bytes).1 (Sha256.blocks h.state bytes).2).length
        = h.length := by
  obtain ⟨more, hmore, hbytes, hstate⟩ := absorb_blocks h.state bytes
  obtain ⟨full, hfull, hbefore, rfl⟩ := hm
  generalize (Sha256.blocks h.state bytes).1 = state at hstate ⊢
  generalize (Sha256.blocks h.state bytes).2 = rest at hbytes ⊢
  have hall : (full ++ more).length % 64 = 0 := by
    rw [List.length_append]
    omega
  have habsorbed : state = absorb initial (full ++ more) := by
    rw [hstate, hbefore, absorb_append hfull]
  unfold Sha256.keep
  split
  · next hrest =>
      rw [hrest, List.append_nil] at hbytes
      rcases hwhole with hnil | hnone
      · rw [hnil] at hbytes ⊢
        rw [← hbytes] at hstate
        exact ⟨⟨full, hfull, hstate.trans hbefore, by rw [List.append_nil]⟩, rfl⟩
      · refine ⟨⟨full ++ more, hall, habsorbed, ?_⟩, rfl⟩
        show full ++ h.pending.take h.used ++ bytes = full ++ more ++ h.pending.take h.used
        rw [hnone, List.take_zero, List.append_nil, List.append_nil, hbytes]
  · next hrest =>
      have hnone : h.used = 0 := by
        refine hwhole.resolve_left fun hnil => hrest ?_
        rw [hnil] at hbytes
        exact (List.append_eq_nil_iff.1 hbytes.symm).2
      refine ⟨⟨full ++ more, hall, habsorbed, ?_⟩, rfl⟩
      have htake := take_fill h.pending 0
            (rest.val)
        (by rw [h.pending_size]; have := rest.property; omega)
      rw [Nat.zero_add, List.take_zero, List.nil_append] at htake
      rw [hnone, List.take_zero, List.append_nil]
      show full ++ bytes = full ++ more ++ (fill h.pending 0 rest.val).take rest.val.length
      rw [htake, List.append_assoc, ← hbytes]

/-- An update of `Sha256` below the limit of its counter reads the whole input. -/
theorem sha256_update (hm : Reads h m) (bytes : Bytes) (hbytes : m.length + bytes.length < 2 ^ 61) :
    ∃ h', Sha256.update h bytes = .ok h' ∧ Reads h' (m ++ bytes) := by
  have hlength := hm.2
  unfold Sha256.update
  rw [dif_neg (by omega)]
  dsimp only
  obtain ⟨part, hpart, hresumed, hsame, hwhole⟩ := holds_resume bytes
    (hm.1.of_length (h.length + bytes.length) (by omega))
  obtain ⟨hkept, hlast⟩ := holds_keep hresumed hwhole
  rw [List.append_assoc, ← hpart] at hkept
  refine ⟨_, rfl, hkept, (hlast.trans hsame).trans ?_⟩
  rw [List.length_append, ← hlength]

/-! ## Texts of hash values -/

/-- A byte is printed as its two nibbles. -/
theorem hexByte_eq (b : UInt8) : hexByte b = [nibble (b.toNat / 16), nibble (b.toNat % 16)] := by
  have hall : ∀ n : Fin 16, nibble n.val =
      if n.val < 10 then (48 + n.val).toUInt8 else (87 + n.val).toUInt8 := by decide
  have hb := b.toNat_lt
  have hhigh := hall ⟨b.toNat / 16, by omega⟩
  have hlow := hall ⟨b.toNat % 16, by omega⟩
  dsimp only at hhigh hlow
  rw [hhigh, hlow]
  rfl

/-- The bytes of a word. -/
theorem bigEndian_word (n : Nat) : bigEndian 4 n =
    [(n / 16777216).toUInt8, (n / 65536).toUInt8, (n / 256).toUInt8, n.toUInt8] := by
  rw [bigEndian_succ, bigEndian_succ, bigEndian_succ, bigEndian_succ]
  simp only [Nat.reducePow, Nat.div_one]
  rfl

/-- A word is printed as its four bytes, the highest first. -/
theorem hexWord_eq (word : UInt32) :
    ObjectHash.hexWord word = (bigEndian 4 word.toNat).flatMap hexByte := by
  have htoNat : ∀ n : Nat, n.toUInt8.toNat = n % 256 := fun n => UInt8.toNat_ofNat'
  have hword := word.toNat_lt
  rw [bigEndian_word]
  simp only [List.flatMap_cons, List.flatMap_nil, hexByte_eq, htoNat, List.cons_append,
    List.nil_append, ObjectHash.hexWord, List.map_cons, List.map_nil, Nat.reducePow]
  generalize word.toNat = n at hword ⊢
  rw [show n / 16777216 % 256 / 16 = n / 268435456 % 16 by omega,
    show n / 16777216 % 256 % 16 = n / 16777216 % 16 by omega,
    show n / 65536 % 256 / 16 = n / 1048576 % 16 by omega,
    show n / 65536 % 256 % 16 = n / 65536 % 16 by omega,
    show n / 256 % 256 / 16 = n / 4096 % 16 by omega,
    show n / 256 % 256 % 16 = n / 256 % 16 by omega,
    show n % 256 / 16 = n / 16 % 16 by omega,
    show n % 256 % 16 = n / 1 % 16 by omega]

/-- `finish` prints the standard's hash of all that was read. -/
theorem finish_eq (hm : Reads h m) : ObjectHash.finish h = hex (sha256 m) := by
  unfold ObjectHash.finish
  rw [hm.1.lastState block_eq hm.2]
  unfold sha256 hex
  rw [List.flatMap_assoc]
  exact congrArg (fun f => List.flatMap f _) (funext hexWord_eq)

/-- `digest` gives the standard's hash of all that was read, and leaves the hasher as it is. -/
theorem digest_eq (hm : Reads h m) : Sha256.digest h = (sha256 m, h) := by
  unfold Sha256.digest
  rw [hm.1.lastState transform_eq hm.2]
  refine congrArg (·, h) (congrArg (fun f => List.flatMap f _) (funext fun word => ?_))
  unfold bigEndian
  refine List.map_congr_left fun j hj => ?_
  have hlt := List.mem_range.1 hj
  rw [show 24 - 8 * j = 8 * (4 - 1 - j) by omega, Nat.pow_mul]

/-- `hexDigest` prints the standard's hash, and leaves the hasher as it is. -/
theorem hexDigest_eq (hm : Reads h m) : Sha256.hexDigest h = (hex (sha256 m), h) := by
  unfold Sha256.hexDigest
  rw [digest_eq hm]
  unfold hex
  rw [funext hexByte_eq]

/-! ## Sessions -/

/-- A call of the native hasher. -/
inductive Call where
  | update (bytes : Bytes)
  | digest
deriving DecidableEq

/-- What a call takes in. -/
def Call.bytes : Call → Bytes
  | .update bytes => bytes
  | .digest => []

/-- The hash values that are asked for in the course of some calls. -/
def run (h : Hasher) : List Call → Fallible (Hasher × List Bytes)
  | [] => pure (h, [])
  | .update bytes :: calls => do
      let h ← Sha256.update h bytes
      run h calls
  | .digest :: calls => do
      let value := Sha256.hexDigest h
      let r ← run value.2 calls
      pure (r.1, value.1 :: r.2)

/-- The hash values of a message as far as it came in, at every call that asks for one. -/
def values (m : Bytes) : List Call → List Bytes
  | [] => []
  | .update bytes :: calls => values (m ++ bytes) calls
  | .digest :: calls => hex (sha256 m) :: values m calls

/-- Any calls of updates and digests read the updates one after the other; each digest is that of
what was read before, and the calls without the digests end the same. -/
theorem run_reads {calls : List Call} (hm : Reads h m)
    (hlength : m.length + (calls.flatMap Call.bytes).length < 2 ^ 61) :
    ∃ h', run h calls = .ok (h', values m calls) ∧ Reads h' (m ++ calls.flatMap Call.bytes) ∧
      run h (calls.filter (· ≠ .digest)) = .ok (h', []) := by
  induction calls generalizing h m with
  | nil => exact ⟨h, rfl, by rw [List.flatMap_nil, List.append_nil]; exact hm, rfl⟩
  | cons call calls ih =>
      rw [List.flatMap_cons, List.length_append] at hlength
      cases call with
      | update bytes =>
          obtain ⟨h₁, hupdate, hreads⟩ := sha256_update hm bytes
            (by change m.length + (bytes.length + _) < _ at hlength; omega)
          obtain ⟨h₂, hrun, hlast, hplain⟩ := ih hreads (by
            rw [List.length_append]
            change m.length + (bytes.length + _) < _ at hlength
            omega)
          refine ⟨h₂, ?_, ?_, ?_⟩
          · unfold run values
            rw [hupdate]
            exact hrun
          · rw [List.flatMap_cons, ← List.append_assoc]
            exact hlast
          · have hkept : decide (Call.update bytes ≠ Call.digest) = true :=
              decide_eq_true Call.noConfusion
            rw [List.filter_cons, if_pos hkept]
            unfold run
            rw [hupdate]
            exact hplain
      | digest =>
          obtain ⟨h₁, hrun, hlast, hplain⟩ := ih hm (by
            change m.length + (0 + _) < _ at hlength
            omega)
          refine ⟨h₁, ?_, hlast, ?_⟩
          · unfold run values
            rw [hexDigest_eq hm]
            dsimp only
            rw [hrun]
            rfl
          · rw [List.filter_cons_of_neg (by decide)]
            exact hplain

/-- Any list of updates reads its concatenation. -/
theorem updates_read {parts : List Bytes} (hm : Reads h m)
    (hlength : m.length + parts.flatten.length < 2 ^ 61) :
    ∃ h', parts.foldlM ObjectHash.update h = .ok h' ∧ Reads h' (m ++ parts.flatten) := by
  induction parts generalizing h m with
  | nil => exact ⟨h, rfl, by rw [List.flatten_nil, List.append_nil]; exact hm⟩
  | cons bytes parts ih =>
      rw [List.flatten_cons, List.length_append] at hlength
      obtain ⟨h₁, hupdate, hreads⟩ := objectHash_update hm bytes (by omega)
      obtain ⟨h₂, hrun, hlast⟩ := ih hreads (by rw [List.length_append]; omega)
      refine ⟨h₂, ?_, ?_⟩
      · rw [List.foldlM_cons, hupdate]
        exact hrun
      · rw [List.flatten_cons, ← List.append_assoc]
        exact hlast

end

/-- **Both hash functions are the standard's.** However an input below `2 ^ 61` bytes is split into
updates, `ObjectHash` ends with the SHA-256 of the whole; so does `Sha256`, each of whose digests in
between is that of what was read up to there, and which ends the same without them. -/
theorem hashes_standard (parts : List Bytes) (calls : List Call)
    (hparts : parts.flatten.length < 2 ^ 61)
    (hcalls : (calls.flatMap Call.bytes).length < 2 ^ 61) :
    (∃ h, parts.foldlM ObjectHash.update ObjectHash.create = .ok h ∧
      ObjectHash.finish h = hex (sha256 parts.flatten)) ∧
      ∃ h, run Sha256.create calls = .ok (h, values [] calls) ∧
        Sha256.hexDigest h = (hex (sha256 (calls.flatMap Call.bytes)), h) ∧
        run Sha256.create (calls.filter (· ≠ .digest)) = .ok (h, []) := by
  constructor
  · obtain ⟨h, hrun, hreads⟩ := updates_read (m := []) ⟨holds_create.1, rfl⟩
      (by rw [List.length_nil, Nat.zero_add]; exact hparts)
    exact ⟨h, hrun, finish_eq hreads⟩
  · obtain ⟨h, hrun, hreads, hplain⟩ := run_reads (m := []) ⟨holds_create.2, rfl⟩
      (by rw [List.length_nil, Nat.zero_add]; exact hcalls)
    exact ⟨h, hrun, hexDigest_eq hreads, hplain⟩

/-- `abc` in three parts, one of them empty, and a digest between two of them. -/
theorem hashes_standard_sample :
    (∃ h, [[97], [], [98, 99]].foldlM ObjectHash.update ObjectHash.create = .ok h ∧
      ObjectHash.finish h = hex (sha256 [97, 98, 99])) ∧
      ∃ h, run Sha256.create [.update [97], .digest, .update [], .update [98, 99]]
          = .ok (h, [hex (sha256 [97])]) ∧
        Sha256.hexDigest h = (hex (sha256 [97, 98, 99]), h) ∧
        run Sha256.create [.update [97], .update [], .update [98, 99]] = .ok (h, []) :=
  hashes_standard [[97], [], [98, 99]] [.update [97], .digest, .update [], .update [98, 99]]
    (by decide) (by decide)

/-- The native `sha256`. -/
def sha256Text (bytes : Bytes) : Fallible Bytes := do
  let h ← Sha256.update Sha256.create bytes
  pure (Sha256.hexDigest h).1

/-- The text of a hash is the standard's, for every input below the limit. -/
theorem sha256Text_eq {bytes : Bytes} (h : bytes.length < 2 ^ 61) :
    sha256Text bytes = .ok (hex (sha256 bytes)) := by
  obtain ⟨h', hupdate, hreads⟩ := sha256_update (m := []) ⟨holds_create.2, rfl⟩ bytes
    (by rw [List.length_nil, Nat.zero_add]; exact h)
  unfold sha256Text
  rw [hupdate]
  show Except.ok (Sha256.hexDigest h').1 = _
  rw [hexDigest_eq hreads]
  rfl

end Crypto

end FileProvider
