import FileProvider.Sql.Blobs
import Mathlib.Algebra.BigOperators.Group.List.Basic

/-!
# Ranges spliced into a value

What it means that ranges fit a value, and that a value is another with ranges spliced in, whatever
their order. Ranges that fit can be written one after another: none touches the bytes of another.

`Splices` speaks of each byte of the value by its place, so the order of the ranges does not come
into it. What a loop writes is compared with it by induction over the ranges.
-/

namespace FileProvider

open Bytes

namespace Sql

/-! ## Ranges -/

namespace BlobRangePatch

/-- The offset behind a range. -/
def stop (r : BlobRangePatch) : Nat := r.offset.toNat + r.after.length

/-- A byte of a value that is in a range. -/
def Covers (r : BlobRangePatch) (i : Nat) : Prop := r.offset.toNat ≤ i ∧ i < r.stop

/-- Ranges that have no byte in common. -/
def Apart (r s : BlobRangePatch) : Prop :=
  r.after = [] ∨ s.after = [] ∨ r.stop ≤ s.offset.toNat ∨ s.stop ≤ r.offset.toNat

/-- Being apart is symmetric. -/
theorem Apart.symm {r s : BlobRangePatch} (h : r.Apart s) : s.Apart r := by
  rcases h with h | h | h | h
  · exact .inr (.inl h)
  · exact .inl h
  · exact .inr (.inr (.inr h))
  · exact .inr (.inr (.inl h))

/-- Ranges that are apart cover no common byte. -/
theorem Apart.not_covers {r s : BlobRangePatch} (h : r.Apart s) {i : Nat} (hr : r.Covers i) :
    ¬ s.Covers i := by
  rintro hs
  obtain ⟨hr₁, hr₂⟩ := hr
  obtain ⟨hs₁, hs₂⟩ := hs
  have hempty : ∀ t : BlobRangePatch, t.after = [] → t.stop = t.offset.toNat := by
    intro t ht
    rw [stop, ht, List.length_nil, Nat.add_zero]
  rcases h with h | h | h | h
  · rw [hempty r h] at hr₂
    omega
  · rw [hempty s h] at hs₂
    omega
  · omega
  · omega

end BlobRangePatch

/-- Ranges that can be exchanged in a value, within a limit. -/
structure Acceptable (limit : Nat) (value : Bytes) (ranges : List BlobRangePatch) : Prop where
  count : ranges.length ≤ 65536 ∧ ranges.length ≤ limit / rangeSize
  sizes : ∀ r ∈ ranges, r.before.length = r.after.length
  total : (ranges.map (·.after.length)).sum ≤ limit
  inside : ∀ r ∈ ranges, r.stop ≤ value.length
  apart : ranges.Pairwise BlobRangePatch.Apart
  same : ∀ r ∈ ranges, (value.drop r.offset.toNat).take r.before.length = r.before

/-- A value with ranges spliced in. -/
structure Splices (value : Bytes) (ranges : List BlobRangePatch) (result : Bytes) : Prop where
  length : result.length = value.length
  covered : ∀ r ∈ ranges, ∀ i, r.Covers i → result[i]? = r.after[i - r.offset.toNat]?
  others : ∀ i, (∀ r ∈ ranges, ¬ r.Covers i) → result[i]? = value[i]?

/-- How many bytes differ. -/
def differing (before after : Bytes) : Nat := (before.zip after).countP fun b => b.1 ≠ b.2

/-! ## Bytes written over -/

/-- Overwriting changes the bytes of its range and no others. -/
theorem getElem?_overwrite (value : Bytes) (offset : Nat) (bytes : Bytes) (i : Nat) :
    (overwrite value offset bytes)[i]?
      = if offset ≤ i ∧ i < offset + bytes.length ∧ i < value.length then bytes[i - offset]?
        else value[i]? := by
  unfold overwrite
  rw [List.getElem?_mapIdx]
  by_cases hi : i < value.length
  · rw [List.getElem?_eq_getElem hi, Option.map_some]
    by_cases hoffset : offset ≤ i
    · rw [if_pos hoffset]
      by_cases hend : i < offset + bytes.length
      · have hget : i - offset < bytes.length := by omega
        rw [if_pos ⟨hoffset, hend, hi⟩, List.getD_eq_getElem?_getD, List.getElem?_eq_getElem hget,
          Option.getD_some]
      · have hget : bytes.length ≤ i - offset := by omega
        rw [if_neg fun h => hend h.2.1, List.getD_eq_getElem?_getD, List.getElem?_eq_none hget,
          Option.getD_none]
    · rw [if_neg hoffset, if_neg fun h => hoffset h.1]
  · rw [List.getElem?_eq_none (by omega), if_neg fun h => hi h.2.2, Option.map_none]

/-- Overwriting with nothing changes nothing. -/
theorem overwrite_nil (value : Bytes) (offset : Nat) : overwrite value offset [] = value := by
  refine List.ext_getElem? fun i => ?_
  rw [getElem?_overwrite, if_neg]
  simp only [List.length_nil, Nat.add_zero]
  omega

/-- Bytes written behind bytes that were written. -/
theorem overwrite_append (value : Bytes) (offset : Nat) (before after : Bytes) :
    overwrite (overwrite value offset before) (offset + before.length) after
      = overwrite value offset (before ++ after) := by
  refine List.ext_getElem? fun i => ?_
  rw [getElem?_overwrite, getElem?_overwrite, getElem?_overwrite, length_overwrite,
    List.length_append]
  by_cases hi : i < value.length
  · by_cases hlow : offset ≤ i
    · by_cases hmid : i < offset + before.length
      · rw [if_neg (by omega), if_pos ⟨hlow, hmid, hi⟩, if_pos ⟨hlow, by omega, hi⟩,
          List.getElem?_append_left (by omega)]
      · by_cases hhigh : i < offset + before.length + after.length
        · rw [if_pos ⟨by omega, hhigh, hi⟩, if_pos ⟨hlow, by omega, hi⟩,
            List.getElem?_append_right (by omega)]
          congr 1
          omega
        · rw [if_neg (by omega), if_neg (by omega), if_neg (by omega)]
    · rw [if_neg (by omega), if_neg (by omega), if_neg (by omega)]
  · rw [if_neg (by omega), if_neg (by omega), if_neg (by omega)]

/-- A byte that is written where it stands changes nothing. -/
theorem overwrite_same {value : Bytes} {offset : Nat} {byte : UInt8}
    (h : value[offset]? = some byte) : overwrite value offset [byte] = value := by
  refine List.ext_getElem? fun i => ?_
  rw [getElem?_overwrite]
  split
  · next hi =>
      simp only [List.length_singleton] at hi
      obtain rfl : i = offset := by omega
      rw [h, Nat.sub_self]
      rfl
  · rfl

/-! ## Ranges written one after another -/

/-- A range that fits beside those that are written, is written over the bytes of the value. The
bytes of the range are those of the value still, as no range that is written covers one of them. -/
theorem Splices.snoc {value result : Bytes} {ranges : List BlobRangePatch} {r : BlobRangePatch}
    (h : Splices value ranges result) (hinside : r.stop ≤ value.length)
    (hapart : ∀ s ∈ ranges, s.Apart r) :
    Splices value (ranges ++ [r]) (overwrite result r.offset.toNat r.after) := by
  have hcovers : ∀ i, r.Covers i ↔
      r.offset.toNat ≤ i ∧ i < r.offset.toNat + r.after.length ∧ i < result.length := by
    intro i
    rw [h.length]
    unfold BlobRangePatch.Covers BlobRangePatch.stop at *
    constructor
    · rintro ⟨hlow, hhigh⟩
      exact ⟨hlow, hhigh, by omega⟩
    · rintro ⟨hlow, hhigh, -⟩
      exact ⟨hlow, hhigh⟩
  refine ⟨(length_overwrite _ _ _).trans h.length, fun s hs i hi => ?_, fun i hi => ?_⟩
  · rw [getElem?_overwrite]
    rcases List.mem_append.1 hs with hs | hs
    · rw [if_neg fun hr => (hapart s hs).not_covers hi ((hcovers i).2 hr)]
      exact h.covered s hs i hi
    · obtain rfl := List.mem_singleton.1 hs
      rw [if_pos ((hcovers i).1 hi)]
  · rw [getElem?_overwrite,
      if_neg fun hr => hi r (by simp) ((hcovers i).2 hr)]
    exact h.others i fun s hs => hi s (List.mem_append_left _ hs)

/-- Without ranges the value is the result. -/
theorem Splices.nil (value : Bytes) : Splices value [] value :=
  ⟨rfl, nofun, fun _ _ => rfl⟩

/-- The order of the ranges does not matter, as they are apart. -/
theorem Splices.perm {value result : Bytes} {ranges ordered : List BlobRangePatch}
    (h : Splices value ordered result) (hperm : ordered.Perm ranges) :
    Splices value ranges result :=
  ⟨h.length, fun r hr => h.covered r (hperm.mem_iff.2 hr),
    fun i hi => h.others i fun r hr => hi r (hperm.mem_iff.1 hr)⟩

/-- The bytes of a range that fits beside those that are written are those of the value. -/
theorem Splices.unchanged {value result : Bytes} {ranges : List BlobRangePatch}
    {r : BlobRangePatch} (h : Splices value ranges result) (hapart : ∀ s ∈ ranges, s.Apart r)
    {k : Nat} (hk : k < r.after.length) :
    result[r.offset.toNat + k]? = value[r.offset.toNat + k]? := by
  have hcovers : r.Covers (r.offset.toNat + k) := ⟨by omega, by unfold BlobRangePatch.stop; omega⟩
  exact h.others _ fun s hs hcovers' => (hapart s hs).not_covers hcovers' hcovers

/-! ## Runs of bytes that differ -/

/-- A run of differing bytes lies within the replacement. -/
theorem runLength_le (before after : Bytes) : runLength before after ≤ after.length := by
  unfold runLength
  have htake := (List.takeWhile_prefix (l := before.zip after) fun b => b.1 ≠ b.2).length_le
  rw [List.length_zip] at htake
  omega

/-- The bytes that differ are those of the first run, and those behind it. -/
theorem differing_run (before after : Bytes) : differing before after
    = runLength before after + differing (before.drop (runLength before after))
      (after.drop (runLength before after)) := by
  have hcount : ∀ l : List (UInt8 × UInt8), l.countP (fun b => b.1 ≠ b.2)
      = (l.takeWhile fun b => b.1 ≠ b.2).length
        + (l.drop (l.takeWhile fun b => b.1 ≠ b.2).length).countP fun b => b.1 ≠ b.2 := by
    intro l
    induction l with
    | nil => rfl
    | cons b l ih =>
        by_cases hb : b.1 = b.2
        · rw [List.takeWhile_cons_of_neg (by simp [hb])]
          simp
        · rw [List.takeWhile_cons_of_pos (by simp [hb]), List.countP_cons_of_pos (by simp [hb]), ih,
            List.length_cons, List.drop_succ_cons]
          omega
  unfold differing runLength
  rw [hcount, List.zip, List.drop_zipWith]

/-- A run that starts with a byte that differs is not empty. -/
theorem runLength_pos {before after : Bytes} {start : Nat} (hbefore : start < before.length)
    (hafter : start < after.length) (h : before[start]? ≠ after[start]?) :
    0 < runLength (before.drop start) (after.drop start) := by
  rw [List.getElem?_eq_getElem hbefore, List.getElem?_eq_getElem hafter, ne_eq,
    Option.some.injEq] at h
  unfold runLength
  rw [List.drop_eq_getElem_cons hbefore, List.drop_eq_getElem_cons hafter, List.zip_cons_cons,
    List.takeWhile_cons_of_pos (by simpa using h)]
  exact Nat.succ_pos _

/-- An equal byte does not count as differing. -/
theorem differing_cons {before after : Bytes} {start : Nat} (hbefore : start < before.length)
    (hafter : start < after.length) (h : before[start]? = after[start]?) :
    differing (before.drop start) (after.drop start)
      = differing (before.drop (start + 1)) (after.drop (start + 1)) := by
  rw [List.getElem?_eq_getElem hbefore, List.getElem?_eq_getElem hafter, Option.some.injEq] at h
  unfold differing
  rw [List.drop_eq_getElem_cons hbefore, List.drop_eq_getElem_cons hafter, List.zip_cons_cons,
    List.countP_cons_of_neg (by simpa using h)]

end Sql

end FileProvider
