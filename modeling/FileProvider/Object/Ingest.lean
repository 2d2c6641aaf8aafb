import FileProvider.Object.Frame

/-!
# Storing content

`storeChunk` shares a chunk that is stored already, after comparing its bytes; so a chunk list
that was stored reads back as the bytes it was split from, whatever the hash does. The empty
content has no chunks, and a content of full blocks no short one.

The loops are inverted here once, so that later proofs know a content by its blocks and by the
chunks that hold them. Bytes that are compared make the result independent of collisions of the
hash.
-/

namespace FileProvider

open Bytes Fallible Impl

variable {P : Platform} {m : Impl} {db db' db'' : ObjectTables}

namespace Impl

/-- Only chunks are added. -/
structure Stores (db db' : ObjectTables) : Prop where
  chunks : ∀ h c, db.chunks.find h = some c → db'.chunks.find h = some c
  rest : db' = { db with chunks := db'.chunks }

namespace Stores

/-- Nothing is stored where nothing happens. -/
theorem refl (db : ObjectTables) : Stores db db := ⟨fun _ _ h => h, rfl⟩

/-- Storing is transitive: chunks are only added. -/
theorem trans (h : Stores db db') (h' : Stores db' db'') : Stores db db'' where
  chunks k c hc := h'.chunks k c (h.chunks k c hc)
  rest := by rw [h'.rest, h.rest]

/-- Storing chunks extends the package. -/
theorem toExtends (h : Stores db db') : Extends db db' := by
  have hrest := h.rest
  have hsessions : db'.sessions = db.sessions := by rw [hrest]
  have hobjects : db'.objects = db.objects := by rw [hrest]
  have hrevisions : db'.revisions = db.revisions := by rw [hrest]
  have hwork : db'.workSessions = db.workSessions := by rw [hrest]
  have hraw : db'.rawRevisions = db.rawRevisions := by rw [hrest]
  have hparts : db'.revisionChunks = db.revisionChunks := by rw [hrest]
  exact {
    containerKey := by rw [hrest]
    userVersion := by rw [hrest]
    sessions := fun k s hs => ⟨s.ended, hsessions ▸ hs⟩
    objects := fun k o ho => ⟨o, hobjects ▸ ho, rfl⟩
    revisions := fun id r hr => hrevisions ▸ hr
    workSessions := fun k w hw => hwork ▸ hw
    chunks := h.chunks
    raw := fun id _ => by rw [hraw]
    parts := fun k v _ => by rw [chunkRows, hparts, chunkRows] }

end Stores

/-- **What `storeChunk` does.** The chunk it returns reads back as the bytes. A chunk that is there
under the hash is compared with the bytes, and otherwise they are inserted. -/
theorem storeChunk_ok {bytes : Bytes} {part : Chunk}
    (h : storeChunk P db bytes = .ok (part, db')) (hne : bytes ≠ [])
    (hlen : bytes.length ≤ chunkBytes) :
    Stores db db' ∧ Holds P db' part bytes ∧ part.size = bytes.length := by
  simp only [storeChunk, bind_ok, bindTexts_ok, List.mem_singleton, forall_eq] at h
  obtain ⟨-, hbound, h⟩ := h
  cases hfind : db.chunks.find (P.hash bytes) with
  | some existing =>
      simp only [hfind, bind_ok, failIf_ok, pure_ok, Prod.mk.injEq, not_not] at h
      obtain ⟨-, hsame, rfl, rfl⟩ := h
      have hkey : existing.sha256 = P.hash bytes := Table.key_of_find hfind
      refine ⟨.refl _, ⟨hbound, ?_, rfl, hne, hlen, rfl⟩, rfl⟩
      rw [hfind, ← hkey, ← hsame]
  | none =>
      simp only [hfind, bind_ok, pure_ok, Prod.mk.injEq] at h
      obtain ⟨mid, hmid, rfl, rfl⟩ := h
      obtain ⟨-, chunks, hins, rfl⟩ := ObjectTables.insertChunk_ok hmid
      obtain ⟨hfree, hall⟩ := Table.find_insert hins
      refine ⟨⟨fun k c hc => ?_, rfl⟩, ⟨hbound, ?_, rfl, hne, hlen, rfl⟩, rfl⟩
      · rw [hall, if_neg, hc]
        rintro rfl
        rw [hfree] at hc
        cases hc
      · rw [hall, if_pos rfl]

/-- Chunks are not empty. -/
theorem chunkBytes_pos : 0 < chunkBytes := by decide

/-- The number of chunks is that of the parts a content is split into. -/
theorem chunkCount_eq (content : Bytes) :
    chunkCount content.length = (Blocks.split chunkBytes content).length :=
  (Blocks.length_split chunkBytes_pos content).symm

/-- **What the loop of an ingestion does.** The chunks it returns read back as the content. The
induction is on the blocks of the content, and a chunk that was stored is still there after the
later ones. -/
theorem storeBlocks_ok {cancellation : StopToken} {size : Nat} (content : Bytes) :
    ∀ {poll total : Nat} {db : ObjectTables} {parts : List Chunk},
      storeBlocks P cancellation size (Blocks.split chunkBytes content) poll total db
        = .ok (parts, db') →
      Stores db db' ∧ Content P db' parts content ∧
        parts.length = (Blocks.split chunkBytes content).length := by
  induction content using Blocks.induction chunkBytes_pos with
  | nil =>
      intro poll total db parts h
      simp only [Blocks.split_nil, storeBlocks, pure_ok, Prod.mk.injEq] at h
      obtain ⟨rfl, rfl⟩ := h
      exact ⟨.refl _, .nil, rfl⟩
  | block content hne ih =>
      intro poll total db parts h
      have hblock := Blocks.length_mem_split chunkBytes_pos content (content.take chunkBytes)
        (by rw [Blocks.split_of_ne_nil chunkBytes_pos hne]; exact List.mem_cons_self)
      rw [Blocks.split_of_ne_nil chunkBytes_pos hne] at h ⊢
      simp only [storeBlocks, bind_ok, Prod.exists, pure_ok, Prod.mk.injEq] at h
      obtain ⟨-, -, -, -, part, mid, hpart, rest, last, hrest, rfl, rfl⟩ := h
      obtain ⟨hstores, hholds, hsize⟩ := storeChunk_ok hpart hblock.1 hblock.2
      obtain ⟨hstores', hcontent, hlength⟩ := ih hrest
      refine ⟨hstores.trans hstores', ?_, by simp [hlength]⟩
      have hfull : rest ≠ [] → part.size = chunkBytes := by
        intro hparts
        rw [hsize]
        refine Blocks.full_of_split_drop fun hnil => hparts ?_
        rw [hnil] at hlength
        exact List.length_eq_zero_iff.1 hlength
      have hcons := Content.cons hfull (hstores'.toExtends.holds hholds) hcontent
      rwa [List.take_append_drop] at hcons

/-- The bytes a source delivers. -/
def ImportSource.content : ImportSource → Bytes
  | .file input => input.content
  | .prepared input => input.bytes

/-- A list of chunks that reads back as a content of which the record holds size and hash. -/
structure Ingested (P : Platform) (db : ObjectTables) (content : Bytes) (parts : List Chunk) :
    Prop where
  reads : Content P db parts content
  count : parts.length = chunkCount content.length

/-- **What an ingestion does**, from a stream or from bytes read ahead. -/
theorem ingestSource_ok {source : ImportSource} {r r' : ObjectRecord} {cancellation : StopToken}
    {parts : List Chunk}
    (h : ingestSource P db source r cancellation = .ok (parts, r', db')) :
    Stores db db' ∧ Ingested P db' source.content parts ∧
      r' = { r with sha256 := P.hash source.content, size := source.content.length } := by
  cases source with
  | file input =>
      simp only [ingestSource, ingest, bind_ok, Prod.exists, pure_ok, Prod.mk.injEq] at h
      obtain ⟨-, -, -, -, -, -, -, -, parts, last, hblocks, -, -, -, -, rfl, rfl, rfl⟩ := h
      obtain ⟨hstores, hcontent, hlength⟩ := storeBlocks_ok _ hblocks
      exact ⟨hstores, ⟨hcontent, hlength.trans (chunkCount_eq _).symm⟩, rfl⟩
  | prepared input =>
      simp only [ingestSource, ingestPrepared, bind_ok, Prod.exists, pure_ok, Prod.mk.injEq] at h
      obtain ⟨parts, last, hblocks, -, -, -, -, rfl, rfl, rfl⟩ := h
      obtain ⟨hstores, hcontent, hlength⟩ := storeBlocks_ok _ hblocks
      exact ⟨hstores, ⟨hcontent, hlength.trans (chunkCount_eq _).symm⟩, rfl⟩

/-- What was ingested is as a record says that holds its size and its hash. -/
theorem Ingested.intact {content : Bytes} {parts : List Chunk} (h : Ingested P db content parts)
    {r : ObjectRecord} (hlive : r.deleted = false) (hsize : r.size = content.length)
    (hhash : r.sha256 = P.hash content) : Intact P db r parts where
  erased hd := by rw [hlive] at hd; cases hd
  content _ := ⟨hsize ▸ h.count, content, h.reads, hsize.symm, hhash.symm⟩

end Impl

end FileProvider
