import FileProvider.Library.Bytes
import FileProvider.Library.Outcome
import FileProvider.Presentation.Previews

/-!
# Base64 texts of previews

`base64` writes three bytes as four signs. `unbase64` reads four signs at a time, refuses what is no
sign or stands behind padding, and at last compares the text with the one of the bytes it read:
`unbase64_ok` says that the accepted texts are those of `base64`.

The loops go by groups of four signs, and so do the proofs: one lemma for a group, and induction on
the groups. The comparison at the end is what excludes a second text for the same bytes.
-/

namespace FileProvider

open Bytes Fallible

namespace Presentation

/-! ## Writing -/

def alphabet : Bytes := ascii "ABCDEFGHIJKLMNOPQRSTUVWXYZabcdefghijklmnopqrstuvwxyz0123456789+/"

/-- The sign of the low six bits of a number. -/
def sign (n : Nat) : UInt8 := alphabet.getD (n % 64) 0

/-- The four signs of up to three bytes. -/
def signs (a : UInt8) (b c : Option UInt8) : Bytes :=
  let v := a.toNat * 65536 + b.elim 0 (fun b => b.toNat * 256) + c.elim 0 (fun c => c.toNat)
  [sign (v / 262144), sign (v / 4096), if b.isSome then sign (v / 64) else 61,
    if c.isSome then sign v else 61]

def base64 : Bytes → Bytes
  | [] => []
  | [a] => signs a none none
  | [a, b] => signs a (some b) none
  | a :: b :: c :: s => signs a (some b) (some c) ++ base64 s

/-- Three bytes take four signs, and so does a rest of one or two. -/
theorem length_base64 (s : Bytes) : (base64 s).length = (s.length + 2) / 3 * 4 := by
  fun_induction base64 s with
  | case1 => rfl
  | case2 a | case3 a b => simp only [signs, List.length_cons, List.length_nil]
  | case4 a b c s ih =>
      rw [List.length_append, ih]
      simp only [signs, List.length_cons, List.length_nil]
      omega

/-! ## Reading -/

/-- What was read of a group: the bits of its signs, and how many of them are padding. -/
structure Group where
  value : Nat
  padding : Nat

/-- A turn of the inner loop, for the sign at a place of a group. -/
def readSign (last : Bool) (g : Group) (i : Nat) (c : UInt8) : Fallible Group :=
  if c = 61 then do
    failIf (i < 2 ∨ last = false) "Invalid preview padding"
    pure ⟨g.value * 64, g.padding + 1⟩
  else
    match alphabet.idxOf? c with
    | none => .error "Invalid preview base64"
    | some n => do
        failIf (g.padding ≠ 0) "Invalid preview base64"
        pure ⟨g.value * 64 + n, g.padding⟩

/-- The inner loop from a place of a group on. -/
def readSigns (last : Bool) : Group → Nat → Bytes → Fallible Group
  | g, _, [] => pure g
  | g, i, c :: s => do
      let g ← readSign last g i c
      readSigns last g (i + 1) s

/-- The bytes of a group. -/
def Group.bytes (g : Group) : Bytes :=
  [(g.value / 65536).toUInt8] ++ (if g.padding < 2 then [(g.value / 256).toUInt8] else []) ++
    if g.padding = 0 then [g.value.toUInt8] else []

/-- The outer loop of `unbase64`. -/
def readGroups (input : Bytes) : Fallible Bytes :=
  if input = [] then pure []
  else do
    let g ← readSigns (input.length = 4) ⟨0, 0⟩ 0 (input.take 4)
    let out ← readGroups (input.drop 4)
    pure (g.bytes ++ out)
termination_by input.length
decreasing_by
  have := List.length_pos_iff.2 ‹input ≠ []›
  rw [List.length_drop]
  omega

def unbase64 (input : Bytes) : Fallible Bytes := do
  failIf (input.length % 4 ≠ 0 ∨ maximumDocumentBytes < input.length) "Invalid preview encoding"
  let out ← readGroups input
  failIf (base64 out ≠ input) "Noncanonical preview encoding"
  pure out

/-! ## Round trip -/

/-- The value of a sign is found in the alphabet. -/
theorem idxOf?_sign (n : Nat) : alphabet.idxOf? (sign n) = some (n % 64) := by
  have hall : ∀ i : Fin 64, alphabet.idxOf? (alphabet.getD i.val 0) = some i.val := by
    decide +kernel
  exact hall ⟨n % 64, Nat.mod_lt n (by decide)⟩

/-- No sign of the alphabet is the padding. -/
theorem sign_ne (n : Nat) : sign n ≠ 61 := by
  intro h
  have hnone : alphabet.idxOf? 61 = none := by decide +kernel
  have hsome := idxOf?_sign n
  rw [h, hnone] at hsome
  cases hsome

/-- The low byte of a number is taken. -/
theorem toUInt8_eq {b : UInt8} {n : Nat} (h : n % 256 = b.toNat) : n.toUInt8 = b := by
  refine UInt8.toNat_inj.1 ?_
  rw [← h]
  exact UInt8.toNat_ofNat'

section

variable {last : Bool} {v i n : Nat} {s : Bytes}

/-- A sign adds its six bits. -/
theorem readSigns_sign :
    readSigns last ⟨v, 0⟩ i (sign n :: s) = readSigns last ⟨v * 64 + n % 64, 0⟩ (i + 1) s := by
  have hread : readSign last ⟨v, 0⟩ i (sign n) = .ok ⟨v * 64 + n % 64, 0⟩ := by
    unfold readSign
    rw [if_neg (sign_ne n), idxOf?_sign]
    rfl
  rw [readSigns, hread]
  rfl

/-- A padding in its place counts and adds no bits. -/
theorem readSigns_padding {padding : Nat} (hi : 2 ≤ i) :
    readSigns true ⟨v, padding⟩ i (61 :: s) =
      readSigns true ⟨v * 64, padding + 1⟩ (i + 1) s := by
  have hread : readSign true ⟨v, padding⟩ i 61 = .ok ⟨v * 64, padding + 1⟩ := by
    have hplace : ¬ (i < 2 ∨ true = false) := by
      rintro (h | h)
      · omega
      · cases h
    unfold readSign failIf
    rw [if_pos rfl, if_neg hplace]
    rfl
  rw [readSigns, hread]
  rfl

end

/-- The signs of three bytes are read back. -/
theorem readSigns_three (last : Bool) (a b c : UInt8) :
    ∃ g, readSigns last ⟨0, 0⟩ 0 (signs a (some b) (some c)) = .ok g ∧ g.bytes = [a, b, c] := by
  have ha := a.toNat_lt
  have hb := b.toNat_lt
  have hc := c.toNat_lt
  unfold signs
  simp only [Option.isSome_some, Option.elim_some, if_true]
  generalize hv : a.toNat * 65536 + b.toNat * 256 + c.toNat = v
  rw [readSigns_sign, readSigns_sign, readSigns_sign, readSigns_sign]
  refine ⟨_, rfl, ?_⟩
  unfold Group.bytes
  dsimp only
  rw [if_pos (by decide), if_pos rfl, toUInt8_eq (b := a) (by omega),
    toUInt8_eq (b := b) (by omega), toUInt8_eq (b := c) (by omega)]
  rfl

/-- The signs of two bytes are read back. -/
theorem readSigns_two (a b : UInt8) :
    ∃ g, readSigns true ⟨0, 0⟩ 0 (signs a (some b) none) = .ok g ∧ g.bytes = [a, b] := by
  have ha := a.toNat_lt
  have hb := b.toNat_lt
  unfold signs
  dsimp only [Option.isSome, Option.elim]
  generalize hv : a.toNat * 65536 + b.toNat * 256 + 0 = v
  rw [if_pos rfl, if_neg Bool.false_ne_true]
  rw [readSigns_sign, readSigns_sign, readSigns_sign, readSigns_padding (by decide)]
  refine ⟨_, rfl, ?_⟩
  unfold Group.bytes
  dsimp only
  rw [if_pos (by decide), if_neg (by decide), toUInt8_eq (b := a) (by omega),
    toUInt8_eq (b := b) (by omega)]
  rfl

/-- The signs of a byte are read back. -/
theorem readSigns_one (a : UInt8) :
    ∃ g, readSigns true ⟨0, 0⟩ 0 (signs a none none) = .ok g ∧ g.bytes = [a] := by
  have ha := a.toNat_lt
  unfold signs
  dsimp only [Option.isSome, Option.elim]
  generalize hv : a.toNat * 65536 + 0 + 0 = v
  rw [if_neg Bool.false_ne_true, if_neg Bool.false_ne_true]
  rw [readSigns_sign, readSigns_sign, readSigns_padding (by decide), readSigns_padding (by decide)]
  refine ⟨_, rfl, ?_⟩
  unfold Group.bytes
  dsimp only
  rw [if_neg (by decide), if_neg (by decide), toUInt8_eq (b := a) (by omega)]
  rfl

/-- A group of signs is read before the rest. -/
theorem readGroups_append {group s out : Bytes} {g : Group} (hsize : group.length = 4)
    (hgroup : readSigns (s = []) ⟨0, 0⟩ 0 group = .ok g) (hrest : readGroups s = .ok out) :
    readGroups (group ++ s) = .ok (g.bytes ++ out) := by
  have hne : group ++ s ≠ [] := by
    intro h
    rw [(List.append_eq_nil_iff.1 h).1] at hsize
    cases hsize
  have hlast : decide ((group ++ s).length = 4) = decide (s = []) := by
    rw [decide_eq_decide, List.length_append, hsize, ← List.length_eq_zero_iff]
    omega
  rw [readGroups, if_neg hne, hlast, List.take_left' hsize, List.drop_left' hsize, hgroup, hrest]
  rfl

/-- Encoded bytes are read back, group by group. The induction is on groups of three bytes, and the
last group is one of the three with padding or none. -/
theorem readGroups_base64 (s : Bytes) : readGroups (base64 s) = .ok s := by
  have hnil : readGroups [] = .ok [] := by
    rw [readGroups, if_pos rfl]
    rfl
  fun_induction base64 s with
  | case1 => exact hnil
  | case2 a =>
      obtain ⟨g, hread, hbytes⟩ := readSigns_one a
      have hgroups := readGroups_append (s := []) rfl hread hnil
      rw [List.append_nil, List.append_nil, hbytes] at hgroups
      exact hgroups
  | case3 a b =>
      obtain ⟨g, hread, hbytes⟩ := readSigns_two a b
      have hgroups := readGroups_append (s := []) rfl hread hnil
      rw [List.append_nil, List.append_nil, hbytes] at hgroups
      exact hgroups
  | case4 a b c s ih =>
      obtain ⟨g, hread, hbytes⟩ := readSigns_three (base64 s = []) a b c
      rw [readGroups_append rfl hread ih, hbytes]
      rfl

/-- **Encoded bytes are decoded**, as long as they fit a document. The tests before the decoding are
on the length, which is a multiple of four, and on the limit. -/
theorem unbase64_base64 {s : Bytes} (h : (base64 s).length ≤ maximumDocumentBytes) :
    unbase64 (base64 s) = .ok s := by
  have hfour : (base64 s).length % 4 = 0 := by
    rw [length_base64, Nat.mul_mod_left]
  have hsize : ¬ ((base64 s).length % 4 ≠ 0 ∨ maximumDocumentBytes < (base64 s).length) := by
    rintro (hsize | hsize)
    · exact hsize hfour
    · omega
  simp only [unbase64, bind_ok, failIf_ok, pure_ok]
  exact ⟨(), hsize, s, readGroups_base64 s, (), not_not.2 rfl, rfl⟩

/-- A text that is read is the one that is written for its bytes. -/
theorem unbase64_ok {input out : Bytes} : unbase64 input = .ok out ↔
    input = base64 out ∧ (base64 out).length ≤ maximumDocumentBytes := by
  constructor
  · intro h
    unfold unbase64 at h
    simp only [bind_ok, failIf_ok, pure_ok] at h
    obtain ⟨-, hsize, out', -, -, hsame, rfl⟩ := h
    have hinput := not_not.1 hsame
    rw [hinput]
    exact ⟨rfl, not_lt.1 fun h => hsize (.inr h)⟩
  · rintro ⟨rfl, h⟩
    exact unbase64_base64 h

end Presentation

end FileProvider
