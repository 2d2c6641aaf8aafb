import FileProvider.Library.JsonReference
import FileProvider.Object.Codec

/-!
# RAW documents read back

What the codec encodes it decodes: the text of a canonical document parses to the document, and
its size limit is large enough for every document that is written.

Every part is read back by a lemma of its own, from the members up to the document, and a document
that is read is the one that would be written, as the decoder compares. The bounds on its length
come from the bounds on its parts.
-/

namespace FileProvider

open Bytes Fallible

variable {L : JsonLibrary}

/-! ## Maps -/

namespace StringMap

/-- Entries past those of a map are put in at its end. -/
theorem foldl_insert {l : List (Bytes × Bytes)} {m : StringMap}
    (h : Keyset.Ascending (fun e : Bytes × Bytes => order e.1) (m.entries ++ l)) :
    (l.foldl (fun m e => m.insert e.1 e.2) m).entries = m.entries ++ l := by
  induction l generalizing m with
  | nil => exact (List.append_nil _).symm
  | cons e l ih =>
      have hnext : (m.insert e.1 e.2).entries = m.entries ++ [e] := by
        obtain ⟨-, -, hpast⟩ := List.pairwise_append.1 h
        have hfilter : m.entries.filter (·.1 ≠ e.1) = m.entries := by
          rw [List.filter_eq_self]
          intro a ha
          refine decide_eq_true fun heq => ?_
          have hlt : order a.1 < order e.1 := hpast a ha e List.mem_cons_self
          rw [heq] at hlt
          exact lt_irrefl _ hlt
        have hsub : (m.entries ++ [e]).Sublist (m.entries ++ e :: l) :=
          (List.Sublist.cons_cons e (List.nil_sublist l)).append_left _
        show Keyset.orderBy _ ((e.1, e.2) :: m.entries.filter (·.1 ≠ e.1)) = _
        rw [hfilter]
        have hasc : Keyset.Ascending (fun e : Bytes × Bytes => order e.1) (m.entries ++ [e]) :=
          h.sublist hsub
        refine (hasc.eq_of_perm (Keyset.ascending_orderBy ?_) ?_).symm
        · exact ((List.perm_append_singleton e m.entries).map _).nodup_iff.1 hasc.nodup_keys
        · exact (List.perm_append_singleton e m.entries).trans (Keyset.orderBy_perm _).symm
      rw [List.foldl_cons, ih, hnext, List.append_assoc]
      · rfl
      · rw [hnext, List.append_assoc]
        exact h

@[simp] theorem ofList_entries (m : StringMap) : ofList m.entries = m := by
  have hentries := foldl_insert (m := empty) (l := m.entries) m.ascending
  cases m with
  | mk entries ascending =>
      unfold ofList
      generalize entries.foldl (fun m e => m.insert e.1 e.2) empty = n at hentries ⊢
      cases n with
      | mk entries' ascending' =>
          obtain rfl : entries' = entries := hentries
          rfl

end StringMap

namespace MetadataCodec

/-! ## Parts of a document -/

/-- A text that passes is within its limit. -/
theorem text_ok {s : Bytes} {limit : Nat} {required : Bool} {u : Unit}
    (h : text L s limit required = .ok u) : s.length ≤ limit := by
  simp only [text, bind_ok, failIf_ok, not_or, not_lt] at h
  obtain ⟨-, ⟨-, hlen, -⟩, -⟩ := h
  exact hlen

/-- Texts are read back from their array. -/
theorem getStrings_arr (l : List Bytes) : getStrings (.arr (l.map .str)) = .ok l := by
  show (l.map Json.str).mapM Json.getStr = .ok l
  rw [mapM_ok, List.map_map]
  rfl

/-- A map of texts is read back from its document. -/
theorem getStringMap_json (m : StringMap) : getStringMap m.json = .ok m := by
  have hentries : (m.entries.map fun e => (e.1, Json.str e.2)).mapM
      (fun m => do pure (m.1, ← m.2.getStr)) = .ok m.entries := by
    rw [mapM_ok, List.map_map]
    rfl
  simp only [getStringMap, bind_ok, pure_ok]
  exact ⟨_, rfl, _, hentries, StringMap.ofList_entries m⟩

/-- The document of a map is canonical. -/
theorem stringMap_canonical (m : StringMap) : m.json.Canonical := by
  refine ⟨?_, Json.canonicalMembers_iff.2 fun e he => ?_⟩
  · rw [Keyset.Ascending, List.pairwise_map]
    exact m.ascending
  · obtain ⟨e', -, rfl⟩ := List.mem_map.1 he
    trivial

/-- The document of a list of texts is canonical. -/
theorem strings_canonical (l : List Bytes) : (Json.arr (l.map .str)).Canonical := by
  refine Json.canonicalElements_iff.2 fun x hx => ?_
  obtain ⟨s, -, rfl⟩ := List.mem_map.1 hx
  trivial

/-! ## Classifications -/

/-- The members of the document of a classification. -/
def metadataFields (m : FileMetadata) : List (Bytes × Json) :=
  [(ascii "title", .str m.title), (ascii "description", .str m.description),
    (ascii "keywords", .arr (m.keywords.map .str)), (ascii "rating", .int m.rating),
    (ascii "color", .int m.color.code), (ascii "collections", .arr (m.collections.map .str)),
    (ascii "fields", m.fields.json)]

/-- The members of annotations are distinct. -/
theorem metadataFields_nodup (m : FileMetadata) : ((metadataFields m).map (·.1)).Nodup := by
  show [ascii "title", ascii "description", ascii "keywords", ascii "rating", ascii "color",
    ascii "collections", ascii "fields"].Nodup
  decide

/-- Annotations that have a document are rated within five and fit the limit of metadata. -/
theorem metadataJson_ok {m : FileMetadata} {j : Json} (h : metadataJson L m = .ok j) :
    j = .object (metadataFields m) ∧ m.rating ≤ 5 ∧
      ∃ t, L.dump j = .ok t ∧ t.length ≤ maximumMetadataBytes := by
  simp only [metadataJson, bind_ok, failIf_ok, pure_ok, not_or, not_lt] at h
  obtain ⟨-, -, -, -, -, -, -, -, -, ⟨hrating, -, -⟩, -, -, t, ht, -, hlen, rfl⟩ := h
  exact ⟨rfl, hrating, t, ht, hlen⟩

/-- The document of annotations is canonical. -/
theorem metadataJson_canonical {m : FileMetadata} {j : Json} (h : metadataJson L m = .ok j) :
    j.Canonical := by
  obtain ⟨rfl, hrating, -⟩ := metadataJson_ok h
  refine Json.canonical_object (metadataFields_nodup m) fun f hf => ?_
  have hcolor := m.color.code_le
  simp only [metadataFields, List.mem_cons, List.not_mem_nil, or_false] at hf
  rcases hf with rfl | rfl | rfl | rfl | rfl | rfl | rfl
  · trivial
  · trivial
  · exact strings_canonical _
  · exact ⟨by omega, by omega⟩
  · have hgray : ColorLabel.gray.code = 7 := rfl
    exact ⟨by omega, by omega⟩
  · exact strings_canonical _
  · exact stringMap_canonical _

/-- **A stored classification is read back.** -/
theorem parseMetadata_metadataJson {m : FileMetadata} {j : Json} (h : metadataJson L m = .ok j) :
    parseMetadata L j = .ok m := by
  obtain ⟨hj, hrating, -⟩ := metadataJson_ok h
  have hmember : ∀ f ∈ metadataFields m, j.member f.1 = .ok f.2 := by
    intro f hf
    rw [hj]
    exact Json.member_object (metadataFields_nodup m) hf
  have hsize : j.size = 7 := by
    rw [hj]
    exact (Keyset.orderBy_perm (metadataFields m)).length_eq
  have hobject : j.isObject = true := by
    rw [hj]
    rfl
  have hcolor := m.color.code_le
  have hgray : ColorLabel.gray.code = 7 := rfl
  simp only [metadataFields, List.forall_mem_cons, List.not_mem_nil, false_implies,
    implies_true, and_true] at hmember
  obtain ⟨htitle, hdescription, hkeywords, hrate, hcode, hcollections, hfields⟩ := hmember
  simp only [parseMetadata, bind_ok, failIf_ok, orFail_ok, pure_ok]
  refine ⟨(), by simp [hsize, hobject], _, htitle, _, rfl, _, hdescription, _, rfl, _, hkeywords,
    _, getStrings_arr _, _, hrate, m.rating, rfl, _, hcode, m.color.code, rfl, (), by omega, _,
    hfields, _, getStringMap_json _, _, hcollections, _, getStrings_arr _, j, ?_, ?_⟩
  · rw [ColorLabel.ofCode_code]
    exact h
  · rw [ColorLabel.ofCode_code]

/-! ## RAW documents -/

/-- The members of a RAW document. -/
def rawFields (raw : RawMetadata) (metadata : Json) : List (Bytes × Json) :=
  [(ascii "schemaVersion", .int 1), (ascii "originalName", .str raw.originalName),
    (ascii "mediaType", .str raw.mediaType), (ascii "metadata", metadata)]

/-- The members of a RAW document are distinct. -/
theorem rawFields_nodup (raw : RawMetadata) (metadata : Json) :
    ((rawFields raw metadata).map (·.1)).Nodup := by
  show [ascii "schemaVersion", ascii "originalName", ascii "mediaType", ascii "metadata"].Nodup
  decide

/-- A RAW document that is encoded is the text of its members, within the limits of the names. -/
theorem encodeRawMetadata_ok {raw : RawMetadata} {d : Bytes}
    (h : encodeRawMetadata L raw = .ok d) : raw.originalName.length ≤ 4096 ∧
      raw.mediaType.length ≤ 256 ∧ ∃ metadata, metadataJson L raw.annotations = .ok metadata ∧
      L.dump (.object (rawFields raw metadata)) = .ok d := by
  simp only [encodeRawMetadata, bind_ok] at h
  obtain ⟨u, hname, w, htype, -, -, metadata, hmetadata, hd⟩ := h
  exact ⟨text_ok hname, text_ok htype, metadata, hmetadata, hd⟩

/-- How long the values of a RAW document can be. -/
def rawBound (f : Bytes × Json) : Nat :=
  if f.1 = ascii "metadata" then maximumMetadataBytes
  else if f.1 = ascii "schemaVersion" then 1
  else if f.1 = ascii "originalName" then 6 * 4096 + 2
  else 6 * 256 + 2

/-- The decoder's limit admits every document that is written. -/
theorem encodeRawMetadata_length {raw : RawMetadata} {d : Bytes}
    (h : encodeRawMetadata L raw = .ok d) : d.length ≤ maximumMetadataBytes + 65536 := by
  obtain ⟨hname, htype, metadata, hmetadata, hd⟩ := encodeRawMetadata_ok h
  obtain ⟨-, -, t, ht, htext⟩ := metadataJson_ok hmetadata
  simp only [JsonLibrary.dump, orFail_ok] at hd ht
  -- The names take at most six bytes for each of theirs, and the classification has its limit.
  have hbound : ∀ f ∈ rawFields raw metadata, ∀ s, f.2.dump L.realText = some s →
      s.length ≤ rawBound f := by
    intro f hf s hs
    simp only [rawFields, List.mem_cons, List.not_mem_nil, or_false] at hf
    rcases hf with rfl | rfl | rfl | rfl
    · obtain rfl := Option.some.inj hs
      decide
    · have hle := Json.length_dumpString hs
      show s.length ≤ 6 * 4096 + 2
      omega
    · have hle := Json.length_dumpString hs
      show s.length ≤ 6 * 256 + 2
      omega
    · obtain rfl := Option.some.inj (ht.symm.trans hs)
      exact htext
  refine (Json.length_dump_object hd rawBound hbound).trans ?_
  show [6 * 13 + 4 + 1, 6 * 12 + 4 + (6 * 4096 + 2), 6 * 9 + 4 + (6 * 256 + 2),
    6 * 8 + 4 + maximumMetadataBytes].sum + 2 ≤ maximumMetadataBytes + 65536
  decide

/-- No RAW document is encoded as the empty text, which stands for none. -/
theorem encodeRawMetadata_ne_nil {raw : RawMetadata} {d : Bytes}
    (h : encodeRawMetadata L raw = .ok d) : d ≠ [] := by
  obtain ⟨-, -, metadata, -, hd⟩ := encodeRawMetadata_ok h
  exact Json.dump_obj_ne_nil (orFail_ok.1 hd)

/-- **A RAW document is read back.** The printed value is canonical, so that the text is parsed as
that value, whose members have different names. -/
theorem decodeRawMetadata_of_encode {raw : RawMetadata} {d : Bytes}
    (h : encodeRawMetadata L raw = .ok d) : decodeRawMetadata L d = .ok raw := by
  obtain ⟨-, -, metadata, hmetadata, hd⟩ := encodeRawMetadata_ok h
  have hcanonical : (Json.object (rawFields raw metadata)).Canonical := by
    refine Json.canonical_object (rawFields_nodup raw metadata) fun f hf => ?_
    simp only [rawFields, List.mem_cons, List.not_mem_nil, or_false] at hf
    rcases hf with rfl | rfl | rfl | rfl
    · exact ⟨by omega, by omega⟩
    · trivial
    · trivial
    · exact metadataJson_canonical hmetadata
  have hparse : parse L d = .ok (.object (rawFields raw metadata)) := by
    have hlimit := encodeRawMetadata_length h
    simp only [parse, bind_ok, failIf_ok]
    exact ⟨(), by omega, JsonLibrary.parseText_of_dump hcanonical hd⟩
  have hmember : ∀ f ∈ rawFields raw metadata,
      (Json.object (rawFields raw metadata)).member f.1 = .ok f.2 :=
    fun f hf => Json.member_object (rawFields_nodup raw metadata) hf
  have hsize : (Json.object (rawFields raw metadata)).size = 4 :=
    (Keyset.orderBy_perm (rawFields raw metadata)).length_eq
  have hobject : (Json.object (rawFields raw metadata)).isObject = true := rfl
  simp only [rawFields, List.forall_mem_cons, List.not_mem_nil, false_implies,
    implies_true, and_true] at hmember
  obtain ⟨hschema, hname, htype, hannotations⟩ := hmember
  simp only [decodeRawMetadata, bind_ok, failIf_ok, pure_ok]
  exact ⟨_, hparse, (), by simp [hsize, hobject], _, hschema, (), by decide, _, hname, _, rfl, _,
    htype, _, rfl, _, hannotations, _, parseMetadata_metadataJson hmetadata, _, h, (),
    fun hne => hne rfl, rfl⟩

/-! ## Session contexts -/

/-- The members of the document of a session context. -/
def contextFields (s : ObjectSessionContext) : List (Bytes × Json) :=
  [(ascii "schemaVersion", .int 1), (ascii "application", .str s.application),
    (ascii "applicationVersion", .str s.applicationVersion),
    (ascii "project", .str s.project), (ascii "document", .str s.document),
    (ascii "attributes", s.attributes.json)]

/-- The members of a context are distinct. -/
theorem contextFields_nodup (s : ObjectSessionContext) : ((contextFields s).map (·.1)).Nodup := by
  show [ascii "schemaVersion", ascii "application", ascii "applicationVersion", ascii "project",
    ascii "document", ascii "attributes"].Nodup
  decide

/-- A context is encoded as the empty text when it is empty, and as the text of its members
otherwise. -/
theorem encodeSessionContext_ok {s : ObjectSessionContext} {d : Bytes}
    (h : encodeSessionContext L s = .ok d) : (s = .empty ∧ d = []) ∨
      (L.dump (.object (contextFields s)) = .ok d ∧ d.length ≤ maximumMetadataBytes) := by
  simp only [encodeSessionContext, bind_ok] at h
  obtain ⟨-, -, -, -, -, -, -, -, -, -, -, -, h⟩ := h
  split at h
  · next hempty =>
      rw [pure_ok] at h
      exact .inl ⟨hempty, h.symm⟩
  · simp only [bind_ok, failIf_ok, pure_ok, not_lt] at h
    obtain ⟨result, hd, -, hlimit, rfl⟩ := h
    exact .inr ⟨hd, hlimit⟩

/-- **A session context is read back.** An empty context has the empty text; otherwise the printed
value is canonical and is parsed as itself. -/
theorem decodeSessionContext_of_encode {s : ObjectSessionContext} {d : Bytes}
    (h : encodeSessionContext L s = .ok d) : decodeSessionContext L d = .ok s := by
  rcases encodeSessionContext_ok h with ⟨rfl, rfl⟩ | ⟨hd, hlimit⟩
  · rfl
  have hcanonical : (Json.object (contextFields s)).Canonical := by
    refine Json.canonical_object (contextFields_nodup s) fun f hf => ?_
    simp only [contextFields, List.mem_cons, List.not_mem_nil, or_false] at hf
    rcases hf with rfl | rfl | rfl | rfl | rfl | rfl
    · exact ⟨by omega, by omega⟩
    · trivial
    · trivial
    · trivial
    · trivial
    · exact stringMap_canonical s.attributes
  have hparse : parse L d = .ok (.object (contextFields s)) := by
    simp only [parse, bind_ok, failIf_ok]
    exact ⟨(), by omega, JsonLibrary.parseText_of_dump hcanonical hd⟩
  have hmember : ∀ f ∈ contextFields s,
      (Json.object (contextFields s)).member f.1 = .ok f.2 :=
    fun f hf => Json.member_object (contextFields_nodup s) hf
  have hsize : (Json.object (contextFields s)).size = 6 :=
    (Keyset.orderBy_perm (contextFields s)).length_eq
  have hobject : (Json.object (contextFields s)).isObject = true := rfl
  have hne : d ≠ [] := Json.dump_obj_ne_nil (orFail_ok.1 hd)
  simp only [contextFields, List.forall_mem_cons, List.not_mem_nil, false_implies,
    implies_true, and_true] at hmember
  obtain ⟨hschema, happlication, hversion, hproject, hdocument, hattributes⟩ := hmember
  unfold decodeSessionContext
  rw [if_neg hne]
  simp only [bind_ok, failIf_ok, pure_ok]
  exact ⟨_, hparse, (), by simp [hsize, hobject], _, hschema, (), by decide, _, happlication, _,
    rfl, _, hversion, _, rfl, _, hproject, _, rfl, _, hdocument, _, rfl, _, hattributes, _,
    getStringMap_json _, _, h, (), fun hne => hne rfl, rfl⟩

/-! ## Documents and values -/

/-- A text that decodes as a RAW document is the text the document is encoded as. -/
theorem encode_of_decodeRawMetadata {raw : RawMetadata} {d : Bytes}
    (h : decodeRawMetadata L d = .ok raw) : encodeRawMetadata L raw = .ok d := by
  simp only [decodeRawMetadata, bind_ok, failIf_ok, pure_ok, not_not] at h
  obtain ⟨_, -, _, -, _, -, _, -, _, -, _, -, _, -, _, -, _, -, _, -, _, hencoded, _, rfl,
    rfl⟩ := h
  exact hencoded

/-- An accepted text is the one encoding of its value. -/
theorem decodeRawMetadata_iff {raw : RawMetadata} {d : Bytes} :
    decodeRawMetadata L d = .ok raw ↔ encodeRawMetadata L raw = .ok d :=
  ⟨encode_of_decodeRawMetadata, decodeRawMetadata_of_encode⟩

/-- The empty context is encoded as the empty text. -/
theorem encodeSessionContext_empty : encodeSessionContext L .empty = .ok [] := by
  rfl

/-- A text that decodes as a context is the text the context is encoded as. -/
theorem encode_of_decodeSessionContext {s : ObjectSessionContext} {d : Bytes}
    (h : decodeSessionContext L d = .ok s) : encodeSessionContext L s = .ok d := by
  unfold decodeSessionContext at h
  split at h
  · -- The empty text stands for the empty context.
    next hnil =>
      subst hnil
      rw [pure_ok] at h
      subst h
      exact encodeSessionContext_empty
  · simp only [bind_ok, failIf_ok, pure_ok, not_not] at h
    obtain ⟨_, -, _, -, _, -, _, -, _, -, _, -, _, -, _, -, _, -, _, -, _, -, _, -, _, -, _, -,
      _, hencoded, _, rfl, rfl⟩ := h
    exact hencoded

/-- Decoding and encoding of contexts are inverse to each other. -/
theorem decodeSessionContext_iff {s : ObjectSessionContext} {d : Bytes} :
    decodeSessionContext L d = .ok s ↔ encodeSessionContext L s = .ok d :=
  ⟨encode_of_decodeSessionContext, decodeSessionContext_of_encode⟩

/-- Two RAW documents with one text are equal. -/
theorem encodeRawMetadata_injective {raw raw' : RawMetadata} {d : Bytes}
    (h : encodeRawMetadata L raw = .ok d) (h' : encodeRawMetadata L raw' = .ok d) :
    raw = raw' :=
  Except.ok.inj ((decodeRawMetadata_of_encode h).symm.trans (decodeRawMetadata_of_encode h'))

/-- Two contexts with one text are equal. -/
theorem encodeSessionContext_injective {s s' : ObjectSessionContext} {d : Bytes}
    (h : encodeSessionContext L s = .ok d) (h' : encodeSessionContext L s' = .ok d) : s = s' :=
  Except.ok.inj ((decodeSessionContext_of_encode h).symm.trans (decodeSessionContext_of_encode h'))

/-- The revision of a document leaves it as it is exactly when the annotations are the old
ones. -/
theorem revised_eq_iff {raw : RawMetadata} {metadata : FileMetadata} {previous document : Bytes}
    (h : decodeRawMetadata L previous = .ok raw)
    (h' : encodeRawMetadata L { raw with annotations := metadata } = .ok document) :
    document = previous ↔ metadata = raw.annotations := by
  have hprevious := encode_of_decodeRawMetadata h
  constructor
  · rintro rfl
    have heq := encodeRawMetadata_injective h' hprevious
    exact congrArg RawMetadata.annotations heq
  · rintro rfl
    exact Except.ok.inj (h'.symm.trans hprevious)

/-- **Stored documents stand for their values.** For RAW documents and for session contexts a
text decodes to a value exactly when it is the value's encoding; so the decoder's limits refuse
nothing that was written, equal documents are those of equal values, and a revision is told
from no revision by its document. -/
theorem documents_exact (L : JsonLibrary) :
    (∀ raw d, encodeRawMetadata L raw = .ok d ↔ decodeRawMetadata L d = .ok raw) ∧
    (∀ s d, encodeSessionContext L s = .ok d ↔ decodeSessionContext L d = .ok s) ∧
    (∀ raw raw' d d', encodeRawMetadata L raw = .ok d → encodeRawMetadata L raw' = .ok d' →
      (d = d' ↔ raw = raw')) ∧
    (∀ s s' d d', encodeSessionContext L s = .ok d → encodeSessionContext L s' = .ok d' →
      (d = d' ↔ s = s')) ∧
    (∀ raw metadata previous document, decodeRawMetadata L previous = .ok raw →
      encodeRawMetadata L { raw with annotations := metadata } = .ok document →
      (document = previous ↔ metadata = raw.annotations)) := by
  refine ⟨fun raw d => decodeRawMetadata_iff.symm, fun s d => decodeSessionContext_iff.symm,
    fun raw raw' d d' h h' => ?_, fun s s' d d' h h' => ?_,
    fun raw metadata previous document h h' => revised_eq_iff h h'⟩
  · constructor
    · rintro rfl
      exact encodeRawMetadata_injective h h'
    · rintro rfl
      exact Except.ok.inj (h.symm.trans h')
  · constructor
    · rintro rfl
      exact encodeSessionContext_injective h h'
    · rintro rfl
      exact Except.ok.inj (h.symm.trans h')

/-- Annotations with a quote in their title, and fields whose names have the signs of pointers. -/
def sampleAnnotations (exposure : Bytes) : FileMetadata where
  title := ascii "a \"b\""
  description := []
  keywords := []
  rating := 3
  color := .blue
  fields := ⟨[(ascii "a/b", exposure), (ascii "m~n", ascii "1")],
    .cons (List.forall_mem_singleton.2
      (show (ascii "a/b").order < (ascii "m~n").order by decide)) (List.pairwise_singleton _ _)⟩
  collections := []

/-- A RAW document with these annotations. -/
def sampleRaw (exposure : Bytes) : RawMetadata :=
  ⟨ascii "a.raw", ascii "image/x-raw", sampleAnnotations exposure⟩

/-- The context of a session with an attribute that is empty. -/
def sampleContext : ObjectSessionContext :=
  ⟨ascii "app", ascii "1.0", [], [], ⟨[(ascii "k\\", [])], by decide⟩⟩

/-- A RAW document and a context are written and read back, and annotations with another field give
another document. -/
theorem documents_exact_sample : ∃ d d' t,
    encodeRawMetadata JsonReference.library (sampleRaw (ascii "1/30")) = .ok d ∧
    decodeRawMetadata JsonReference.library d = .ok (sampleRaw (ascii "1/30")) ∧
    encodeRawMetadata JsonReference.library (sampleRaw (ascii "1/60")) = .ok d' ∧ d' ≠ d ∧
    encodeSessionContext JsonReference.library sampleContext = .ok t ∧
    decodeSessionContext JsonReference.library t = .ok sampleContext := by
  have hok : ∀ exposure ∈ [ascii "1/30", ascii "1/60"],
      (encodeRawMetadata JsonReference.library (sampleRaw exposure)).isOk = true := by
    decide +kernel
  have hcontext : (encodeSessionContext JsonReference.library sampleContext).isOk = true := by
    decide +kernel
  obtain ⟨hraw, hsession, hdiffers, -, -⟩ := documents_exact JsonReference.library
  obtain ⟨d, hd⟩ := exists_of_isOk (hok (ascii "1/30") (by decide))
  obtain ⟨d', hd'⟩ := exists_of_isOk (hok (ascii "1/60") (by decide))
  obtain ⟨t, ht⟩ := exists_of_isOk hcontext
  refine ⟨d, d', t, hd, (hraw _ _).1 hd, hd', fun heq => ?_, ht, (hsession _ _).1 ht⟩
  have hsame := (hdiffers _ _ _ _ hd' hd).1 heq
  revert hsame
  decide

end MetadataCodec

end FileProvider
