import FileProvider.Library.ListDiff
import FileProvider.Object.Content

/-!
# Chunk diffs are exact

`diff` compares the chunk lists of a version and of the one before it. It marks a side that has no
chunk at a position by a size of zero, which no stored chunk has, so its answer is the list of
changes between the two lists (`map_position_chunkChanges`). The chunks of a version are the blocks
of its content (`Content.parts_eq`): every chunk but the last is full, so an ordinal times the size
of a block is where the chunk begins, and versions with the same bytes have the same chunks.

The comparison of lists is from `Library.ListDiff`, and is instantiated at chunks, where a size of
zero stands for a chunk that is missing. The content enters only at the end, through the blocks it
is cut into.
-/

namespace FileProvider

open Bytes Fallible Impl

variable {P : Platform} {m : Impl} {db : ObjectTables} {container : Bytes}

/-! ## Changes as a patch -/

namespace ObjectChange

/-- The chunk before a change, if there is one. -/
def before (c : ObjectChange) : Option Chunk :=
  if c.beforeSize = 0 then none else some ⟨c.beforeHash, c.beforeSize⟩

/-- The chunk after a change, if there is one. -/
def after (c : ObjectChange) : Option Chunk :=
  if c.afterSize = 0 then none else some ⟨c.afterHash, c.afterSize⟩

/-- The ordinal of the chunk that a change is about. -/
def ordinal (c : ObjectChange) : Nat := c.offset / chunkBytes

/-- A change with its sides exchanged. -/
def reverse (c : ObjectChange) : ObjectChange :=
  ⟨c.offset, c.afterHash, c.beforeHash, c.afterSize, c.beforeSize⟩

/-- A change of chunks as a change of a list. -/
def position (c : ObjectChange) : ListDiff.Change Chunk := ⟨c.ordinal, c.before, c.after⟩

end ObjectChange

/-- Replaces, appends and drops chunks as the changes say. -/
def applyChanges (changes : List ObjectChange) (parts : List Chunk) : List Chunk :=
  ListDiff.patch (changes.map ObjectChange.position) parts

/-- **The changes that `diff` computes are the changes between the lists**, where no chunk is
empty. -/
theorem map_position_chunkChanges {before after : List Chunk}
    (hbefore : ∀ part ∈ before, part.size ≠ 0) (hafter : ∀ part ∈ after, part.size ≠ 0) :
    (ObjectStore.chunkChanges before after).map ObjectChange.position
      = ListDiff.changes before after := by
  unfold ObjectStore.chunkChanges ListDiff.changes
  rw [List.map_filterMap]
  refine List.filterMap_congr fun i _ => ?_
  have hordinal : i * chunkBytes / chunkBytes = i := Nat.mul_div_cancel i (by decide)
  simp only [ListDiff.changeAt, List.getD_eq_getElem?_getD]
  cases hb : before[i]? with
  | none =>
      cases ha : after[i]? with
      | none => simp
      | some b =>
          have hsize := hafter b (List.mem_of_getElem? ha)
          simp [ObjectChange.position, ObjectChange.ordinal, ObjectChange.before,
            ObjectChange.after, hordinal, hsize, Ne.symm hsize]
  | some a =>
      have hsize := hbefore a (List.mem_of_getElem? hb)
      cases ha : after[i]? with
      | none =>
          simp [ObjectChange.position, ObjectChange.ordinal, ObjectChange.before,
            ObjectChange.after, hordinal, hsize]
      | some b =>
          have hsize' := hafter b (List.mem_of_getElem? ha)
          have hne : (a.hash ≠ b.hash ∨ a.size ≠ b.size) ↔ some a ≠ some b := by
            cases a
            cases b
            simp only [ne_eq, Option.some.injEq, Chunk.mk.injEq]
            tauto
          simp only [Option.getD_some, hne]
          by_cases hab : some a = some b
          · rw [if_neg (not_not.2 hab), if_neg (not_not.2 hab)]
            rfl
          · rw [if_pos hab, if_pos hab]
            simp [ObjectChange.position, ObjectChange.ordinal, ObjectChange.before,
              ObjectChange.after, hordinal, hsize, hsize']

/-! ## The chunks of a content -/

namespace Impl.Content

variable {parts : List Chunk} {content : Bytes}

/-- A chunk list stands for one content. -/
theorem unique {content' : Bytes} (h : Content P db parts content)
    (h' : Content P db parts content') : content = content' := by
  have heq := (readChunks_ok.2 h).symm.trans (readChunks_ok.2 h')
  simpa using heq

/-- No chunk of a content is empty. -/
theorem size_ne_zero (h : Content P db parts content) : ∀ part ∈ parts, part.size ≠ 0 := by
  induction h with
  | nil => intro part hpart; cases hpart
  | cons _ hh _ ih =>
      intro part hpart
      rcases List.mem_cons.1 hpart with rfl | hpart
      · rw [← hh.size]
        exact fun hzero => hh.nonempty (List.eq_nil_of_length_eq_zero hzero)
      · exact ih part hpart

/-- Without chunks the content is empty. -/
theorem eq_nil_of_parts (h : Content P db [] content) : content = [] := by
  cases h
  rfl

/-- The chunks of a content are its blocks. All blocks but the last are full, which is what a
content has for its chunks. -/
theorem parts_eq (h : Content P db parts content) :
    parts = (Blocks.split chunkBytes content).map fun block => ⟨P.hash block, block.length⟩ := by
  have hpos : 0 < chunkBytes := by decide
  induction h with
  | nil => rfl
  | @cons part parts bytes rest hfull hh hc ih =>
      have hne : bytes ++ rest ≠ [] := fun h => hh.nonempty (List.append_eq_nil_iff.1 h).1
      have hpart : part = ⟨P.hash bytes, bytes.length⟩ := by rw [hh.digest, hh.size]
      -- a chunk is short only where it is the last, and then nothing follows
      have hcut : (bytes ++ rest).take chunkBytes = bytes ∧
          (bytes ++ rest).drop chunkBytes = rest := by
        cases parts with
        | nil =>
            obtain rfl := hc.eq_nil_of_parts
            rw [List.append_nil]
            exact ⟨List.take_of_length_le hh.atMost, List.drop_eq_nil_of_le hh.atMost⟩
        | cons next parts =>
            have hlength : bytes.length = chunkBytes :=
              hh.size.trans (hfull (List.cons_ne_nil _ _))
            rw [← hlength]
            exact ⟨List.take_left, List.drop_left⟩
      rw [Blocks.split_of_ne_nil hpos hne, hcut.1, hcut.2, List.map_cons, ← ih, hpart]

/-- **A chunk begins at its ordinal times the size of a block**: there the content has the bytes
of the chunk, and the chunks before it take up that many. -/
theorem at_ordinal (h : Content P db parts content) {i : Nat} {part : Chunk}
    (hi : parts[i]? = some part) :
    ((parts.take i).map (·.size)).sum = i * chunkBytes ∧
      Holds P db part ((content.drop (i * chunkBytes)).take part.size) := by
  induction h generalizing i with
  | nil => cases hi
  | @cons first parts bytes rest hfull hh hc ih =>
      cases i with
      | zero =>
          obtain rfl : first = part := Option.some.inj hi
          rw [Nat.zero_mul, List.drop_zero, ← hh.size, List.take_left]
          exact ⟨rfl, hh⟩
      | succ i =>
          have hi' : parts[i]? = some part := hi
          have hlength : bytes.length = chunkBytes := by
            refine hh.size.trans (hfull fun hnil => ?_)
            rw [hnil] at hi'
            cases hi'
          obtain ⟨hsum, hholds⟩ := ih hi'
          have hdrop : (bytes ++ rest).drop ((i + 1) * chunkBytes)
              = rest.drop (i * chunkBytes) := by
            rw [Nat.succ_mul, Nat.add_comm, ← List.drop_drop, ← hlength, List.drop_left]
          rw [hdrop, List.take_succ_cons, List.map_cons, List.sum_cons, hsum, ← hh.size, hlength]
          exact ⟨by rw [Nat.succ_mul, Nat.add_comm], hholds⟩

end Impl.Content

/-! ## The content of a version -/

/-- The chunks and the content of a version. Version zero and a tombstone are empty. -/
inductive VersionContent (P : Platform) (db : ObjectTables) (key : Bytes) :
    Nat → List Chunk → Bytes → Prop where
  | zero : VersionContent P db key 0 [] []
  | erased {v : Nat} {r : ObjectRecord} : v ≠ 0 → Impl.get db key v = .ok (some r) →
      r.deleted = true → Impl.chunks db key v = .ok [] → VersionContent P db key v [] []
  | live {v : Nat} {r : ObjectRecord} {parts : List Chunk} {content : Bytes} : v ≠ 0 →
      Impl.get db key v = .ok (some r) → r.deleted = false → Impl.chunks db key v = .ok parts →
      Content P db parts content → content.length = r.size → P.hash content = r.sha256 →
      VersionContent P db key v parts content

namespace VersionContent

variable {key : Bytes} {v : Nat} {parts : List Chunk} {bytes : Bytes}

/-- The content of a version is that of its chunks. -/
theorem content (h : VersionContent P db key v parts bytes) : Content P db parts bytes := by
  cases h with
  | zero => exact .nil
  | erased => exact .nil
  | live _ _ _ _ hcontent => exact hcontent

/-- The chunks that `diff` compares. -/
theorem chunks (h : VersionContent P db key v parts bytes) (hv : v ≠ 0) :
    Impl.chunks db key v = .ok parts := by
  cases h with
  | zero => exact absurd rfl hv
  | erased _ _ _ hchunks => exact hchunks
  | live _ _ _ hchunks => exact hchunks

/-- A version that validates has a content. -/
theorem of_validate (h : Impl.validate P m db key v true = .ok true) :
    ∃ parts content, VersionContent P db key v parts content := by
  obtain ⟨hpos, -, -, hpayload⟩ := validate_iff.1 h
  obtain ⟨r, parts, hget, hparts, hintact⟩ := hpayload rfl
  cases hdeleted : r.deleted with
  | true =>
      obtain rfl := hintact.erased hdeleted
      exact ⟨[], [], .erased hpos hget hdeleted hparts⟩
  | false =>
      obtain ⟨-, content, hcontent, hsize, hhash⟩ := hintact.content hdeleted
      exact ⟨parts, content, .live hpos hget hdeleted hparts hcontent hsize hhash⟩

end VersionContent

/-! ## The diff of two contents -/

/-- The changes between two chunk lists are exact, where the lists stand for two contents. -/
structure ExactDiff (P : Platform) (db : ObjectTables) (before after : List Chunk)
    (old new : Bytes) (changes : List ObjectChange) : Prop where
  forward : applyChanges changes before = after
  backward : applyChanges (changes.map ObjectChange.reverse) after = before
  /-- No change is about equal chunks, and there is one of them at most at an ordinal. -/
  different : ∀ c ∈ changes, c.before ≠ c.after
  ascending : changes.Pairwise fun c d => c.offset < d.offset
  /-- The chunk before a change stands at its offset in the old content. -/
  oldOffset : ∀ c ∈ changes, ∀ part, c.before = some part →
    before[c.ordinal]? = some part ∧ ((before.take c.ordinal).map (·.size)).sum = c.offset ∧
      Holds P db part ((old.drop c.offset).take part.size)
  /-- The chunk after a change stands at its offset in the new content. -/
  newOffset : ∀ c ∈ changes, ∀ part, c.after = some part →
    after[c.ordinal]? = some part ∧ ((after.take c.ordinal).map (·.size)).sum = c.offset ∧
      Holds P db part ((new.drop c.offset).take part.size)
  empty : changes = [] ↔ old = new

/-- Every change lies at a multiple of the size of a block. -/
theorem offset_chunkChanges {before after : List Chunk} {c : ObjectChange}
    (hc : c ∈ ObjectStore.chunkChanges before after) : c.ordinal * chunkBytes = c.offset := by
  obtain ⟨i, -, hi⟩ := List.mem_filterMap.1 hc
  dsimp only at hi
  split at hi
  · obtain rfl := Option.some.inj hi
    exact congrArg (· * chunkBytes) (Nat.mul_div_cancel i (by decide))
  · cases hi

/-- **The diff of two contents is exact.** -/
theorem exactDiff {before after : List Chunk} {old new : Bytes}
    (hbefore : Content P db before old) (hafter : Content P db after new) :
    ExactDiff P db before after old new (ObjectStore.chunkChanges before after) := by
  have hmap := map_position_chunkChanges hbefore.size_ne_zero hafter.size_ne_zero
  have hmem : ∀ c ∈ ObjectStore.chunkChanges before after,
      before[c.ordinal]? ≠ after[c.ordinal]? ∧ c.before = before[c.ordinal]? ∧
        c.after = after[c.ordinal]? := fun c hc =>
    ListDiff.mem_changes.1 (hmap ▸ List.mem_map_of_mem (f := ObjectChange.position) hc)
  refine ⟨?_, ?_, ?_, ?_, ?_, ?_, ?_⟩
  · unfold applyChanges
    rw [hmap]
    exact ListDiff.patch_changes before after
  · unfold applyChanges
    rw [List.map_map, show ObjectChange.position ∘ ObjectChange.reverse
      = ListDiff.Change.reverse ∘ ObjectChange.position from rfl, ← List.map_map, hmap]
    exact ListDiff.patch_reverse before after
  · intro c hc
    obtain ⟨hne, hb, ha⟩ := hmem c hc
    rw [hb, ha]
    exact hne
  · have hsorted := ListDiff.changes_ascending before after
    rw [← hmap, List.pairwise_map] at hsorted
    refine hsorted.imp_of_mem fun {c d} hc hd hlt => ?_
    rw [← offset_chunkChanges hc, ← offset_chunkChanges hd]
    exact Nat.mul_lt_mul_of_pos_right hlt (by decide)
  · intro c hc part hpart
    obtain ⟨-, hb, -⟩ := hmem c hc
    have hat := hbefore.at_ordinal (hb ▸ hpart)
    rw [offset_chunkChanges hc] at hat
    exact ⟨hb ▸ hpart, hat⟩
  · intro c hc part hpart
    obtain ⟨-, -, ha⟩ := hmem c hc
    have hat := hafter.at_ordinal (ha ▸ hpart)
    rw [offset_chunkChanges hc] at hat
    exact ⟨ha ▸ hpart, hat⟩
  · rw [← List.map_eq_nil_iff (f := ObjectChange.position), hmap, ListDiff.changes_eq_nil]
    constructor
    · rintro rfl
      exact hbefore.unique hafter
    · rintro rfl
      exact hbefore.parts_eq.trans hafter.parts_eq.symm

/-! ## Reachable packages -/

/-- What `diff` answers for a stored version. -/
theorem diff_ok {key : Bytes} {v : Nat} {r : ObjectRecord} {before after : List Chunk}
    {old new : Bytes} (hv : v ≠ 0) (hmax : v ≤ int64Max)
    (hget : Impl.get db key v = .ok (some r)) (hbefore : VersionContent P db key (v - 1) before old)
    (hafter : VersionContent P db key v after new) :
    ObjectStore.diff db key v = .ok (ObjectStore.chunkChanges before after) := by
  unfold ObjectStore.diff
  simp only [bind_ok, failIf_ok, orFail_ok]
  refine ⟨(), by omega, some r, hget, r, rfl, ?_⟩
  split
  · exact bind_ok.2 ⟨before, hbefore.chunks (by omega), bind_ok.2 ⟨after, hafter.chunks hv, rfl⟩⟩
  · obtain rfl : v = 1 := by omega
    obtain rfl : before = [] := by
      cases hbefore with
      | zero => rfl
      | erased hzero => exact absurd rfl hzero
      | live hzero => exact absurd rfl hzero
    exact bind_ok.2 ⟨[], rfl, bind_ok.2 ⟨after, hafter.chunks hv, rfl⟩⟩

namespace Package

variable {σ : Package}

/-- A stored version is one of its object. -/
theorem Sound.version_content (hs : Sound P container σ) {key : Bytes} {v : Nat}
    (hrow : σ.tables.revisions.find (key, v) ≠ none) :
    v ≤ int64Max ∧ (∃ parts content, VersionContent P σ.tables key v parts content) ∧
      ∃ parts content, VersionContent P σ.tables key (v - 1) parts content := by
  have hi := hs.history ⟨container, 5, false⟩ ⟨rfl, rfl⟩
  obtain ⟨o, ho, hpos, hle⟩ := (hi.versions_iff key v).1 hrow
  obtain ⟨hmem, rfl⟩ := Table.find_eq_some.1 ho
  have hvalid := hi.valid o hmem v hpos hle
  refine ⟨(validate_iff.1 hvalid).2.1, VersionContent.of_validate hvalid, ?_⟩
  rcases Nat.eq_zero_or_pos (v - 1) with hzero | hpos'
  · rw [hzero]
    exact ⟨[], [], .zero⟩
  · exact VersionContent.of_validate (hi.valid o hmem (v - 1) hpos' (by omega))

/-- **Chunk diffs are exact** in every package the stores reach: `diff` answers for each stored
version, and what it answers is exact between the chunks and the contents of the version before
and of this one. -/
theorem Reachable.diff_exact (h : Reachable P container σ) {key : Bytes} {v : Nat}
    {r : ObjectRecord} (hv : v ≠ 0) (hget : Impl.get σ.tables key v = .ok (some r)) :
    ∃ changes before after old new, ObjectStore.diff σ.tables key v = .ok changes ∧
      VersionContent P σ.tables key (v - 1) before old ∧
      VersionContent P σ.tables key v after new ∧
      ExactDiff P σ.tables before after old new changes := by
  obtain ⟨hmax, ⟨after, new, hafter⟩, before, old, hbefore⟩ :=
    h.sound.version_content (Extends.revision_of_get hv hget)
  exact ⟨_, before, after, old, new, diff_ok hv hmax hget hbefore hafter, hbefore, hafter,
    exactDiff hbefore.content hafter.content⟩

/-- An object is imported, revised and erased. -/
def diffCalls : List (Call × Draws) :=
  [sampleBegin,
    (.importFile (.of [1, 2, 3]) (ascii "a") sampleSession .plain, .numbered 1),
    (.reviseFile sampleObject (.of [4, 5]) 1 sampleSession .plain, .numbered 2),
    (.erase sampleObject 2 sampleSession, .numbered 3)]

/-- The versions of the object with the chunks that each of them adds, changes or drops. -/
def diffSides : List (Nat × List (Option Chunk × Option Chunk)) :=
  [(1, [(none, some ⟨[1, 2, 3], 3⟩)]), (2, [(some ⟨[1, 2, 3], 3⟩, some ⟨[4, 5], 2⟩)]),
    (3, [(some ⟨[4, 5], 2⟩, none)])]

/-- The diffs of an object are exact that adds a chunk with its first version, changes it with the
second one and drops it with the last. -/
theorem Reachable.diff_exact_sample : ∃ responses db,
    exec .reference .reference diffCalls (.fresh (ascii "c")) = .ok (responses, db) ∧
      ∀ x ∈ diffSides, ∃ changes before after old new,
        ObjectStore.diff db sampleObject x.1 = .ok changes ∧
        changes.map (fun c => (c.before, c.after)) = x.2 ∧
        VersionContent .reference db sampleObject (x.1 - 1) before old ∧
        VersionContent .reference db sampleObject x.1 after new ∧
        ExactDiff .reference db before after old new changes := by
  have hok : (exec .reference .reference diffCalls (.fresh (ascii "c")) >>= fun r =>
      diffSides.forM fun x => do
        failIf (x.1 = 0) "no version"
        let _ ← Impl.get r.2 sampleObject x.1 >>= orFail "missing"
        let changes ← ObjectStore.diff r.2 sampleObject x.1
        failIf (changes.map (fun c => (c.before, c.after)) ≠ x.2) "unexpected").isOk = true := by
    decide +kernel
  obtain ⟨_, h⟩ := exists_of_isOk hok
  obtain ⟨⟨responses, db⟩, hexec, h⟩ := bind_ok.1 h
  refine ⟨responses, db, hexec, fun x hx => ?_⟩
  have hx := forM_ok.1 h x hx
  simp only [bind_ok, failIf_ok, orFail_ok, ne_eq, not_not] at hx
  obtain ⟨-, hv, r, ⟨_, hget, rfl⟩, changes, hdiff, hsides⟩ := hx
  obtain ⟨changes', before, after, old, new, hdiff', hbefore, hafter, hexact⟩ :=
    Reachable.diff_exact (reachable_of_exec opens_reference hexec) hv hget
  obtain rfl := Except.ok.inj (hdiff.symm.trans hdiff')
  exact ⟨changes, before, after, old, new, hdiff, hsides, hbefore, hafter, hexact⟩

end Package

end FileProvider
