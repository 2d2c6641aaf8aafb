import FileProvider.Catalog.Metadata
import FileProvider.Object.Documents
import Mathlib.Data.List.Dedup

/-!
# Classifications read back

A classification that went through `normalizeMetadata` goes through it again without a change, and
its JSON document is read back as it was. A companion that is accepted has the key, the revision
and the collections of a companion.

Normal forms are told by predicates (`Normal`, `CollectionsNormal`), each part of which is a
condition on one field, so that what is stored can be known without running the code again. The
bounds of the counts and of the lengths are among them.
-/

namespace FileProvider

open Bytes Fallible

namespace Catalog

variable {E : CatalogLibraries}

/-! ## Texts -/

/-- A text in its normal form is its own normal form. -/
theorem normalized_idem {text result : Bytes} {maximum : Nat} {required : Bool}
    (h : normalized E text maximum false required = .ok result) :
    normalized E result maximum false required = .ok result := by
  simp only [normalized, bind_ok, failIf_ok, orFail_ok, pure_ok, not_or] at h ⊢
  obtain ⟨_, ⟨hlong, hnul, hempty⟩, value, hvalue, _, hresult, _, hspace, rfl⟩ := h
  refine ⟨(), ⟨hresult, E.unicode.map_nul _ _ hvalue hnul, ?_⟩, value,
    E.unicode.map_idem _ _ hvalue, (), hresult, (), hspace, rfl⟩
  rintro ⟨hrequired, rfl⟩
  exact hspace ⟨hrequired, rfl⟩

/-- Terms that were kept are kept again. Composing a term again changes nothing, so the same terms
fold to the same texts in the second pass, and the same are kept. -/
theorem termsFrom_idem {input seen result : List Bytes}
    (h : termsFrom E false input seen = .ok result) :
    termsFrom E false result seen = .ok result ∧ result.length ≤ input.length := by
  induction input generalizing seen result with
  | nil =>
      obtain rfl : [] = result := pure_ok.1 h
      exact ⟨rfl, le_rfl⟩
  | cons value rest ih =>
      simp only [termsFrom, bind_ok] at h
      obtain ⟨display, hdisplay, term, hterm, h⟩ := h
      split at h
      · obtain ⟨hagain, hlength⟩ := ih h
        exact ⟨hagain, hlength.trans (Nat.le_succ _)⟩
      · next hseen =>
          simp only [bind_ok, pure_ok] at h
          obtain ⟨more, hmore, rfl⟩ := h
          obtain ⟨hagain, hlength⟩ := ih hmore
          refine ⟨?_, Nat.succ_le_succ hlength⟩
          simp only [termsFrom, bind_ok]
          refine ⟨display, normalized_idem hdisplay, term, hterm, ?_⟩
          rw [if_neg hseen]
          simp only [bind_ok, pure_ok]
          exact ⟨more, hagain, rfl⟩

/-- Terms that are normalised stay as they are. -/
theorem terms_idem {input result : List Bytes} (h : terms E input false = .ok result) :
    terms E result false = .ok result := by
  simp only [terms, bind_ok, failIf_ok, not_lt] at h ⊢
  obtain ⟨_, hlength, hfrom⟩ := h
  obtain ⟨hagain, hle⟩ := termsFrom_idem hfrom
  exact ⟨(), hle.trans hlength, hagain⟩

/-! ## Fields -/

/-- An entry whose texts are in normal form. -/
def FieldNormal (E : CatalogLibraries) (e : Bytes × Bytes) : Prop :=
  normalized E e.1 256 false true = .ok e.1 ∧
    normalized E e.2 (64 * 1024) false false = .ok e.2

/-- An entry is found in a map after an insertion when it is the new one, or one from before with
another key. -/
theorem mem_insert_entries {m : StringMap} {key value : Bytes} {e : Bytes × Bytes} :
    e ∈ (m.insert key value).entries ↔ e = (key, value) ∨ (e ∈ m.entries ∧ e.1 ≠ key) := by
  show e ∈ Keyset.orderBy _ ((key, value) :: m.entries.filter (·.1 ≠ key)) ↔ _
  simp

/-- An insertion adds at most one entry. -/
theorem length_insert_entries (m : StringMap) (key value : Bytes) :
    (m.insert key value).entries.length ≤ m.entries.length + 1 := by
  show (Keyset.orderBy _ ((key, value) :: m.entries.filter (·.1 ≠ key))).length ≤ _
  rw [(Keyset.orderBy_perm _).length_eq, List.length_cons]
  exact Nat.succ_le_succ (List.length_filter_le _ _)

/-- What the loop over the fields makes has its texts in normal form. A field is normalised before
it is put, so the invariant of the loop is about what was put so far and how many fields it took. -/
theorem normalizeFields_normal {l : List (Bytes × Bytes)} {m result : StringMap}
    (hm : ∀ e ∈ m.entries, FieldNormal E e) (h : l.foldlM (normalizeField E) m = .ok result) :
    (∀ e ∈ result.entries, FieldNormal E e) ∧
      result.entries.length ≤ m.entries.length + l.length := by
  induction l generalizing m with
  | nil =>
      obtain rfl : m = result := pure_ok.1 h
      exact ⟨hm, le_rfl⟩
  | cons e l ih =>
      obtain ⟨next, hnext, h⟩ := foldlM_cons_ok.1 h
      simp only [normalizeField, bind_ok, pure_ok] at hnext
      obtain ⟨key, hkey, value, hvalue, _, -, rfl⟩ := hnext
      have hnormal : ∀ e ∈ (m.insert key value).entries, FieldNormal E e := by
        intro e he
        rcases mem_insert_entries.1 he with rfl | ⟨he, -⟩
        · exact ⟨normalized_idem hkey, normalized_idem hvalue⟩
        · exact hm e he
      obtain ⟨hresult, hlength⟩ := ih hnormal h
      have hstep := length_insert_entries m key value
      refine ⟨hresult, ?_⟩
      rw [List.length_cons]
      omega

/-- The loop over entries in normal form puts them into the map. -/
theorem normalizeFields_eq {l : List (Bytes × Bytes)} {m : StringMap}
    (hl : ∀ e ∈ l, FieldNormal E e) (hnodup : (l.map (·.1)).Nodup)
    (hfree : ∀ e ∈ l, e.1 ∉ m.entries.map (·.1)) :
    l.foldlM (normalizeField E) m = .ok (l.foldl (fun m e => m.insert e.1 e.2) m) := by
  induction l generalizing m with
  | nil => rfl
  | cons e l ih =>
      obtain ⟨hkey, hvalue⟩ := hl e List.mem_cons_self
      rw [List.map_cons, List.nodup_cons] at hnodup
      refine foldlM_cons_ok.2 ⟨m.insert e.1 e.2, ?_, ?_⟩
      · simp only [normalizeField, bind_ok, failIf_ok, pure_ok]
        exact ⟨e.1, hkey, e.2, hvalue, (), hfree e List.mem_cons_self, rfl⟩
      · refine ih (fun a ha => hl a (List.mem_cons_of_mem _ ha)) hnodup.2 fun a ha hmem => ?_
        obtain ⟨b, hb, hba⟩ := List.mem_map.1 hmem
        rcases mem_insert_entries.1 hb with rfl | ⟨hb, -⟩
        · exact hnodup.1 (List.mem_map.2 ⟨a, ha, hba.symm⟩)
        · exact hfree a (List.mem_cons_of_mem _ ha) (List.mem_map.2 ⟨b, hb, hba⟩)

/-- Fields that are normalised stay as they are. -/
theorem normalizeFields_idem {l : List (Bytes × Bytes)} {result : StringMap}
    (h : l.foldlM (normalizeField E) .empty = .ok result) :
    result.entries.foldlM (normalizeField E) .empty = .ok result := by
  have hempty : ∀ e ∈ StringMap.empty.entries, FieldNormal E e := fun e he => by cases he
  obtain ⟨hnormal, -⟩ := normalizeFields_normal hempty h
  have hkeys : (result.entries.map (·.1)).Nodup := by
    have hnodup := result.ascending.nodup_keys
    rw [show (fun e : Bytes × Bytes => order e.1) = order ∘ (·.1) from rfl, ← List.map_map]
      at hnodup
    exact hnodup.of_map
  rw [normalizeFields_eq hnormal hkeys fun _ _ hmem => by cases hmem]
  exact congrArg Except.ok (StringMap.ofList_entries result)

/-! ## Classifications -/

/-- A sorted set is sorted. -/
theorem sortedSet_sorted (l : List Bytes) :
    Keyset.orderBy order (sortedSet l) = sortedSet l :=
  Keyset.orderBy_eq_self (Keyset.ascending_orderBy ((List.nodup_dedup l).map order_injective))

/-- Sorting without repetition keeps the members. -/
theorem mem_sortedSet {l : List Bytes} {s : Bytes} : s ∈ sortedSet l ↔ s ∈ l := by
  rw [sortedSet, Keyset.mem_orderBy, List.mem_dedup]

/-- A sorted set stays as it is. -/
theorem sortedSet_sortedSet (l : List Bytes) : sortedSet (sortedSet l) = sortedSet l := by
  have hnodup : (sortedSet l).Nodup := (Keyset.orderBy_perm l.dedup).nodup_iff.2 l.nodup_dedup
  conv_lhs => rw [sortedSet, hnodup.dedup]
  exact sortedSet_sorted l

/-- A classification whose parts are in normal form, whatever its collections. -/
structure Normal (E : CatalogLibraries) (m : FileMetadata) : Prop where
  rating : m.rating ≤ 5
  title : normalized E m.title 4096 false false = .ok m.title
  description : normalized E m.description (64 * 1024) false false = .ok m.description
  keywords : terms E m.keywords false = .ok m.keywords
  fields : m.fields.entries.foldlM (normalizeField E) .empty = .ok m.fields

/-- Collections in normal form: every key is, and they stand in order. -/
def CollectionsNormal (E : CatalogLibraries) (l : List Bytes) : Prop :=
  (∀ key ∈ l, normalized E key 128 false true = .ok key) ∧ sortedSet l = l

/-- Normal memberships are in order. -/
theorem CollectionsNormal.sorted {l : List Bytes} (h : CollectionsNormal E l) :
    Keyset.orderBy order l = l := by
  rw [← h.2]
  exact sortedSet_sorted l

/-- What `normalizeMetadata` returns is normal. -/
theorem normalizeMetadata_normal {m n : FileMetadata} (h : normalizeMetadata E m = .ok n) :
    Normal E n ∧ CollectionsNormal E n.collections := by
  simp only [normalizeMetadata, bind_ok, failIf_ok, not_lt, pure_ok] at h
  obtain ⟨_, hrating, title, htitle, description, hdescription, keywords, hkeywords, _, -, fields,
    hfields, memberships, hmemberships, text, -, _, -, rfl⟩ := h
  refine ⟨⟨hrating, normalized_idem htitle, normalized_idem hdescription, terms_idem hkeywords,
    normalizeFields_idem hfields⟩, fun key hkey => ?_, sortedSet_sortedSet memberships⟩
  have hmem : Except.ok key ∈ memberships.map (Except.ok (ε := String)) :=
    List.mem_map_of_mem (mem_sortedSet.1 hkey)
  rw [← mapM_ok.1 hmemberships] at hmem
  obtain ⟨k, -, hk⟩ := List.mem_map.1 hmem
  exact normalized_idem hk

/-- What is in normal form comes out as it went in, but for the collections. -/
theorem Normal.eq {m n : FileMetadata} (h : Normal E m) (hn : normalizeMetadata E m = .ok n) :
    n = { m with collections := n.collections } := by
  simp only [normalizeMetadata, bind_ok, pure_ok] at hn
  obtain ⟨_, -, title, htitle, description, hdescription, keywords, hkeywords, _, -, fields,
    hfields, memberships, -, text, -, _, -, rfl⟩ := hn
  obtain rfl := Except.ok.inj (htitle.symm.trans h.title)
  obtain rfl := Except.ok.inj (hdescription.symm.trans h.description)
  obtain rfl := Except.ok.inj (hkeywords.symm.trans h.keywords)
  obtain rfl := Except.ok.inj (hfields.symm.trans h.fields)
  rfl

/-- The memberships that are returned are the normalised keys in order, without repetition. -/
theorem normalizeMetadata_collections {m n : FileMetadata} (h : normalizeMetadata E m = .ok n) :
    ∃ memberships, m.collections.mapM (fun key => normalized E key 128 false true)
      = .ok memberships ∧ n.collections = sortedSet memberships := by
  simp only [normalizeMetadata, bind_ok, pure_ok] at h
  obtain ⟨_, -, title, -, description, -, keywords, -, _, -, fields, -, memberships, hmemberships,
    text, -, _, -, rfl⟩ := h
  exact ⟨memberships, hmemberships, rfl⟩

/-- Without memberships none are returned. -/
theorem normalizeMetadata_nil {m n : FileMetadata} (h : normalizeMetadata E m = .ok n)
    (hm : m.collections = []) : n.collections = [] := by
  obtain ⟨memberships, hmemberships, hn⟩ := normalizeMetadata_collections h
  rw [hm, List.mapM_nil, pure_ok] at hmemberships
  rw [hn, ← hmemberships]
  rfl

/-- **A classification in its normal form keeps it.** Its texts are composed, its terms distinct and
its collections in order, so each part of the normalisation gives back what it was given. -/
theorem normalizeMetadata_eq {m n : FileMetadata} (hm : Normal E m)
    (hcollections : CollectionsNormal E m.collections) (hn : normalizeMetadata E m = .ok n) :
    n = m := by
  obtain ⟨memberships, hmemberships, hkeys⟩ := normalizeMetadata_collections hn
  have hself : m.collections.mapM (fun key => normalized E key 128 false true)
      = .ok m.collections := by
    rw [mapM_ok]
    exact List.map_congr_left hcollections.1
  obtain rfl := Except.ok.inj (hmemberships.symm.trans hself)
  rw [hm.eq hn, hkeys, hcollections.2]

/-! ## Documents -/

/-- The members of the document of a classification. -/
def metadataFields (m : FileMetadata) : List (Bytes × Json) :=
  [(ascii "title", .str m.title), (ascii "description", .str m.description),
    (ascii "keywords", .arr (m.keywords.map .str)), (ascii "rating", .int m.rating),
    (ascii "color", .str (colorNames.getD m.color.code [])), (ascii "fields", m.fields.json),
    (ascii "collections", .arr (m.collections.map .str))]

/-- The members of metadata are distinct. -/
theorem metadataFields_nodup (m : FileMetadata) : ((metadataFields m).map (·.1)).Nodup := by
  show metadataKeys.Nodup
  decide

/-- The document of metadata with a rating in range is canonical. -/
theorem metadataJson_canonical {m : FileMetadata} (hrating : m.rating ≤ 5) :
    (metadataJson m).Canonical := by
  refine Json.canonical_object (metadataFields_nodup m) fun f hf => ?_
  simp only [List.mem_cons, List.not_mem_nil, or_false] at hf
  rcases hf with rfl | rfl | rfl | rfl | rfl | rfl | rfl
  · trivial
  · trivial
  · exact MetadataCodec.strings_canonical _
  · exact ⟨by omega, by omega⟩
  · trivial
  · exact MetadataCodec.stringMap_canonical _
  · exact MetadataCodec.strings_canonical _

/-- A member that is there is read, and not replaced by its default. -/
theorem valueOr_ok {α : Type} {j v : Json} {key : Bytes} {get : Json → Fallible α} {default : α}
    (h : j.member? key = some v) : valueOr j key get default = get v := by
  rw [valueOr, h]

/-- Each colour has a name. -/
theorem colorName_mem (c : ColorLabel) : colorNames.getD c.code [] ∈ colorNames := by
  cases c <;> decide

/-- A colour is read back from its name. -/
theorem ofCode_colorName (c : ColorLabel) :
    ColorLabel.ofCode (colorNames.idxOf (colorNames.getD c.code [])) = c := by
  cases c <;> decide

/-- A document of a classification is parsed as the classification it was made from. Each member is
found under its name, and the parser then normalises what it has read, as the writer's caller has
done. -/
theorem parseMetadata_metadataJson {m n : FileMetadata} (hrating : m.rating ≤ 5) :
    parseMetadata E (metadataJson m) = .ok n ↔ normalizeMetadata E m = .ok n := by
  have hmember : ∀ f ∈ metadataFields m, (metadataJson m).member? f.1 = some f.2 :=
    fun f hf => Json.member?_object (metadataFields_nodup m) hf
  simp only [metadataFields, List.forall_mem_cons, List.not_mem_nil, false_implies,
    implies_true, and_true] at hmember
  obtain ⟨htitle, hdescription, hkeywords, hrate, hcolor, hfields, hcollections⟩ := hmember
  have hknown : ¬ ((Keyset.orderBy (fun m => order m.1) (metadataFields m)).any
      fun e => e.1 ∉ metadataKeys) = true := by
    simp only [List.any_eq_true, Keyset.mem_orderBy, decide_eq_true_eq, not_exists, not_and,
      not_not]
    intro e he
    have hkeys : (metadataFields m).map (·.1) = metadataKeys := rfl
    rw [← hkeys]
    exact List.mem_map_of_mem he
  have hnumber : jsonInteger 5 (.int m.rating) = .ok m.rating := by
    simp only [jsonInteger, bind_ok, orFail_ok, failIf_ok, pure_ok]
    exact ⟨m.rating, rfl, (), by omega, rfl⟩
  simp only [parseMetadata, bind_ok, failIf_ok, valueOr_ok htitle, valueOr_ok hdescription,
    valueOr_ok hkeywords, valueOr_ok hrate, valueOr_ok hcolor, valueOr_ok hfields,
    valueOr_ok hcollections, MetadataCodec.getStrings_arr, MetadataCodec.getStringMap_json,
    hnumber, Json.getStr, Except.ok.injEq, exists_eq_left', ofCode_colorName]
  constructor
  · rintro ⟨_, -, _, -, _, -, _, -, h⟩
    exact h
  · intro h
    exact ⟨(), by simp [metadataJson, Json.object, Json.isObject], _, rfl, (), hknown, (),
      not_not.2 (colorName_mem m.color), h⟩

/-- What is written of a classification, without its collections, is read back. -/
theorem annotation_read {m n : FileMetadata} {text : Bytes} {j : Json} (hm : Normal E m)
    (htext : E.json.dump (metadataJson { m with collections := [] }) = .ok text)
    (hj : E.json.parseText text = .ok j) (hn : parseMetadata E j = .ok n) :
    n = { m with collections := [] } := by
  have hcanonical : (metadataJson { m with collections := [] }).Canonical :=
    metadataJson_canonical hm.rating
  have hread := JsonLibrary.parseText_of_dump hcanonical htext
  obtain rfl := Except.ok.inj (hj.symm.trans hread)
  have hnormal := (parseMetadata_metadataJson (m := { m with collections := [] }) hm.rating).1 hn
  have hparts : Normal E { m with collections := [] } :=
    ⟨hm.rating, hm.title, hm.description, hm.keywords, hm.fields⟩
  rw [hparts.eq hnormal, normalizeMetadata_nil hnormal rfl]

/-- What is parsed has been normalised. -/
theorem parseMetadata_normalized {j : Json} {m : FileMetadata} (h : parseMetadata E j = .ok m) :
    ∃ n, normalizeMetadata E n = .ok m := by
  simp only [parseMetadata, bind_ok] at h
  obtain ⟨_, -, _, -, _, -, _, -, _, -, _, -, _, -, _, -, _, -, _, -, _, -, h⟩ := h
  exact ⟨_, h⟩

/-! ## Companions -/

/-- A collection whose texts are in normal form. -/
structure CollectionNormal (E : CatalogLibraries) (c : FileCollection) : Prop where
  key : normalized E c.key 128 false true = .ok c.key
  name : normalized E c.name 512 false true = .ok c.name

/-- What is known of a companion that was accepted. -/
structure CompanionValid (E : CatalogLibraries) (j : Companion) : Prop where
  fileKey : fileKeyValid j.fileKey = true
  revision : j.revision ≠ 0
  metadata : ∃ m, normalizeMetadata E m = .ok j.metadata
  listed : j.collections.length = j.metadata.collections.length
  nodup : (j.collections.map (·.key)).Nodup
  normal : ∀ c ∈ j.collections, CollectionNormal E c
  known : ∀ c ∈ j.collections, c.key ∈ j.metadata.collections

/-- A collection read from a companion is normal. -/
theorem companionCollection_normal {v : Json} {c : FileCollection}
    (h : companionCollection E v = .ok c) : CollectionNormal E c := by
  simp only [companionCollection, bind_ok, pure_ok] at h
  obtain ⟨_, -, _, -, key, hkey, _, -, _, -, name, hname, rfl⟩ := h
  exact ⟨normalized_idem hkey, normalized_idem hname⟩

/-- A companion that is read has passed the checks of its members. The collections are listed with
their keys, as many as were read, and the metadata is in its normal form. -/
theorem companionOf_valid {v : Json} {j : Companion} (h : companionOf E v = .ok j) :
    CompanionValid E j := by
  simp only [companionOf, bind_ok, failIf_ok, orFail_ok, pure_ok, not_or, not_not] at h
  obtain ⟨_, -, _, -, _, -, _, -, _, -, _, -, key, -, _, hkey, _, -, revision, -, _,
    hrevision, _, -,
    metadata, hmetadata, _, -, listed, -, _, hlength, collections, hcollections, _,
    ⟨hnodup, hany⟩, rfl⟩ := h
  have hsame : collections.length = listed.length := by
    have hmap := congrArg List.length (mapM_ok.1 hcollections)
    rw [List.length_map, List.length_map] at hmap
    exact hmap.symm
  refine ⟨Bool.not_eq_false _ ▸ hkey, hrevision, parseMetadata_normalized hmetadata,
    hsame.trans hlength, hnodup, fun c hc => ?_, fun c hc => ?_⟩
  · have hmem : Except.ok c ∈ collections.map (Except.ok (ε := String)) :=
      List.mem_map_of_mem hc
    rw [← mapM_ok.1 hcollections] at hmem
    obtain ⟨e, -, he⟩ := List.mem_map.1 hmem
    exact companionCollection_normal he
  · by_contra hnot
    exact hany (List.any_eq_true.2 ⟨c, hc, decide_eq_true hnot⟩)

end Catalog

end FileProvider
