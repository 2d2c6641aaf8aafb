import FileProvider.Native.Times

/-!
# The owner written in a lock file

A lock file holds the identifier of its owner's process, the name of that process and its host, a
line each. `ownerOf` is what `dead_owner` reads of it. Its file may be read while the owner is still
writing, or after the owner crashed while it wrote: `ownerOf_of_prefix` says that an owner that is
read of any part of the metadata is the one the whole would give.

The proof rests on the end of the first line: a number that no line end follows is not taken for an
owner, and a first line that is complete is the same in the whole text and in a part of it.
-/

namespace FileProvider

open Bytes

namespace Compatibility

/-- `std::getline` on what is left of a stream: nothing once its end was met, and the end of the
stream also ends a line. -/
def getline : Option Bytes → Option (Bytes × Option Bytes)
  | none => none
  | some [] => none
  | some s => some (s.takeWhile (· != 10), (s.dropWhile (· != 10)).tail?)

/-- `std::from_chars` for a number of 64 bits, where it reads the whole text. -/
def fromChars (s : Bytes) : Option Nat :=
  if s ≠ [] ∧ s.all Native.isDigit = true ∧ Native.number s < 2 ^ 64 then some (Native.number s)
  else none

/-- What a constructed lock writes into its file. -/
def metadata (pid : Nat) (application host : Bytes) : Bytes :=
  decimal pid ++ [10] ++ application ++ [10] ++ host ++ [10, 10, 10]

/-- The part of `dead_owner` that reads: the process that owns a lock file with these contents, if
it is one of this host. -/
def ownerOf (host contents : Bytes) : Option Nat := do
  let (pidText, input) ← getline (some contents)
  let (_, input) ← getline input
  let (ownerHost, _) ← getline input
  if ownerHost ≠ host then none
  else
    let pid ← fromChars pidText
    if pid = 0 ∨ pid > 2 ^ 31 - 1 then none else some pid

example : ownerOf (ascii "mac") (metadata 812 (ascii "Editor") (ascii "mac")) = some 812 := by
  decide +kernel

/-- A number that is read is the number of the digits. -/
theorem eq_of_fromChars {s : Bytes} {n : Nat} (h : fromChars s = some n) : n = Native.number s := by
  unfold fromChars at h
  split at h
  · exact (Option.some.inj h).symm
  · cases h

/-- A line that was not the last is what stands before the first line break. The line is what
`takeWhile` gives, and the rest begins behind the first byte that is the line break. -/
theorem getline_more {s line rest : Bytes} (h : getline (some s) = some (line, some rest)) :
    s = line ++ 10 :: rest ∧ 10 ∉ line := by
  cases s with
  | nil => cases h
  | cons c s =>
      simp only [getline, Option.some.injEq, Prod.mk.injEq] at h
      obtain ⟨rfl, hrest⟩ := h
      have hsplit := List.takeWhile_append_dropWhile (p := (· != (10 : UInt8))) (l := c :: s)
      cases hdrop : (c :: s).dropWhile (· != 10) with
      | nil =>
          rw [hdrop] at hrest
          cases hrest
      | cons d tail =>
          rw [hdrop] at hrest hsplit
          cases hrest
          have hd : (d != 10) = false := by
            have := List.head?_dropWhile_not (· != (10 : UInt8)) (c :: s)
            rw [hdrop] at this
            simpa using this
          have hd' : d = 10 := by simpa using hd
          subst hd'
          refine ⟨hsplit.symm, fun hmem => ?_⟩
          have := List.all_eq_true.1 List.all_takeWhile _ hmem
          simp at this

/-- **A part of the metadata names no other owner.** The identifier is read once its line is
complete. -/
theorem ownerOf_of_prefix {host application host' contents : Bytes} {pid q : Nat}
    (hpart : contents <+: metadata pid application host') (h : ownerOf host contents = some q) :
    q = pid := by
  simp only [ownerOf, Option.bind_eq_bind, Option.bind_eq_some_iff] at h
  obtain ⟨⟨pidText, input⟩, hfirst, ⟨⟨name, input'⟩, hsecond, ⟨⟨ownerHost, input''⟩, -, h⟩⟩⟩ := h
  cases input with
  | none => cases hsecond
  | some rest =>
      obtain ⟨rfl, hline⟩ := getline_more hfirst
      obtain ⟨tail, htail⟩ := hpart
      have hpid : pidText = decimal pid := by
        have hbreak : (10 : UInt8) ∉ decimal pid := by
          intro hmem
          exact absurd (digit_of_mem_decimal hmem).1 (by decide)
        simp only [metadata, List.append_assoc, List.cons_append, List.nil_append] at htail
        exact (append_sep_inj hline hbreak htail).1
      split at h
      · cases h
      · simp only [Option.bind_eq_some_iff] at h
        obtain ⟨n, hn, h⟩ := h
        split at h
        · cases h
        · rw [← Option.some.inj h, eq_of_fromChars hn, hpid, Native.number_decimal]

end Compatibility

end FileProvider
