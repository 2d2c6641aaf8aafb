import FileProvider.Catalog.Readback

/-!
# What the statements of a catalog accept

A statement throws when a text is too long for it, when a row of its key is there, or when a row it
refers to is not. An annotation in normal form meets none of this: its texts are short, its terms
and its fields are distinct, and what was beside the row before is removed first.

The lemmas have one form: a statement whose texts fit and whose key is free gives tables in which
the new row is there and nothing else has changed. They are needed where a catalog is made anew, as
that has to succeed and not only to be right when it does.
-/

namespace FileProvider

open Bytes Fallible

namespace Catalog

variable {E : CatalogLibraries} {fs : FileSystem} {db db' : CatalogTables}

/-! ## Texts that can be bound -/

/-- Texts are bound exactly when each of them is within SQLite's limit here. -/
theorem bindTexts_ok {texts : List Bytes} :
    bindTexts texts = .ok () ↔ ∀ s ∈ texts, s.length ≤ maximumMetadataBytes + 65536 := by
  simp only [bindTexts, failIf_ok, not_exists, not_and, not_lt]

/-- A normalised text is within its limit. -/
theorem length_normalized_le {text result : Bytes} {maximum : Nat} {fold required : Bool}
    (h : Catalog.normalized E text maximum fold required = .ok result) :
    result.length ≤ maximum := by
  simp only [Catalog.normalized, bind_ok, failIf_ok, not_lt, pure_ok] at h
  obtain ⟨_, -, value, -, _, hle, _, -, rfl⟩ := h
  exact hle

/-! ## Terms -/

/-- Terms that were all kept have distinct folded texts. -/
theorem termsFrom_folded {input seen : List Bytes}
    (h : termsFrom E false input seen = .ok input) : ∃ folded,
      input.mapM (fun value => Catalog.normalized E value 512 true false) = .ok folded ∧
      folded.Nodup ∧ (∀ term ∈ folded, term ∉ seen) ∧ ∀ value ∈ input, value.length ≤ 512 := by
  induction input generalizing seen with
  | nil => exact ⟨[], rfl, .nil, by simp, by simp⟩
  | cons value rest ih =>
      simp only [termsFrom, bind_ok] at h
      obtain ⟨display, hdisplay, term, hterm, h⟩ := h
      split at h
      · -- A term that is left out makes the list shorter.
        obtain ⟨-, hlength⟩ := termsFrom_idem h
        rw [List.length_cons] at hlength
        omega
      · next hseen =>
          simp only [bind_ok, pure_ok] at h
          obtain ⟨more, hmore, heq⟩ := h
          rw [if_neg Bool.false_ne_true, List.cons.injEq] at heq
          obtain ⟨rfl, rfl⟩ := heq
          obtain ⟨folded, hfolded, hnodup, hfree, hshort⟩ := ih hmore
          refine ⟨term :: folded, ?_, List.nodup_cons.2 ⟨fun hmem => ?_, hnodup⟩, ?_, ?_⟩
          · rw [mapM_ok] at hfolded ⊢
            rw [List.map_cons, hfolded, hterm, List.map_cons]
          · exact hfree term hmem List.mem_cons_self
          · rw [List.forall_mem_cons]
            exact ⟨hseen, fun t ht hmem => hfree t ht (List.mem_cons_of_mem _ hmem)⟩
          · rw [List.forall_mem_cons]
            exact ⟨length_normalized_le hdisplay, hshort⟩

/-- The keywords of a classification in normal form. -/
theorem Normal.terms {m : FileMetadata} (h : Normal E m) : m.keywords.length ≤ 128 ∧
    (∀ value ∈ m.keywords, value.length ≤ 512) ∧ ∃ folded, folded.Nodup ∧
      m.keywords.mapM (fun value => Catalog.normalized E value 512 true false) = .ok folded := by
  have hterms := h.keywords
  simp only [Catalog.terms, bind_ok, failIf_ok, not_lt] at hterms
  obtain ⟨_, hlength, hfrom⟩ := hterms
  obtain ⟨folded, hfolded, hnodup, -, hshort⟩ := termsFrom_folded hfrom
  exact ⟨hlength, hshort, folded, hnodup, hfolded⟩

/-- The keys of a map are distinct. -/
theorem nodup_keys (m : StringMap) : (m.entries.map (·.1)).Nodup := by
  have hnodup := m.ascending.nodup_keys
  rw [show (fun e : Bytes × Bytes => order e.1) = order ∘ (·.1) from rfl, ← List.map_map]
    at hnodup
  exact hnodup.of_map

/-- The fields of a classification in normal form. -/
theorem Normal.entries {m : FileMetadata} (h : Normal E m) :
    ∀ e ∈ m.fields.entries, e.1.length ≤ 256 ∧ e.2.length ≤ 64 * 1024 := by
  have hempty : ∀ e ∈ StringMap.empty.entries, FieldNormal E e := fun e he => by cases he
  obtain ⟨hnormal, -⟩ := normalizeFields_normal hempty h.fields
  exact fun e he => ⟨length_normalized_le (hnormal e he).1, length_normalized_le (hnormal e he).2⟩

/-! ## Rows beside a file -/

/-- A short keyword that the file does not have is accepted. -/
theorem exists_insertKeyword {row : KeywordRow} (hshort : row.term.length ≤ 512)
    (hfree : row ∉ db.keywords) (hfile : db.files.find row.fileId ≠ none) :
    ∃ mid, db.insertKeyword row = .ok mid ∧ mid.files = db.files ∧
      ∀ k, k ∈ mid.keywords ↔ k ∈ db.keywords ∨ k = row := by
  have hnone : db.keywords.find row = none :=
    Table.find_eq_none.2 fun k hk heq => hfree (heq ▸ hk)
  have hbind : bindTexts [row.term] = .ok () := by
    rw [bindTexts_ok, List.forall_mem_singleton]
    exact hshort.trans (by decide)
  obtain ⟨keywords, hinsert⟩ : ∃ keywords, db.keywords.insert row = some keywords :=
    ⟨_, Table.insert_eq_some.2 ⟨hnone, rfl⟩⟩
  refine ⟨{ db with keywords }, ?_, rfl,
    fun k => Table.mem_insert hinsert⟩
  simp only [CatalogTables.insertKeyword, bind_ok, orFail_ok, failIf_ok, pure_ok]
  exact ⟨(), hbind, _, hinsert, (), hfile, rfl⟩

/-- A short field whose name the file does not have is accepted. -/
theorem exists_insertField {row : FieldRow}
    (hshort : row.name.length ≤ 256 ∧ row.value.length ≤ 64 * 1024)
    (hfree : ∀ k ∈ db.fields, k.id ≠ row.id) (hfile : db.files.find row.fileId ≠ none) :
    ∃ mid, db.insertField row = .ok mid ∧ mid.files = db.files ∧
      ∀ k, k ∈ mid.fields ↔ k ∈ db.fields ∨ k = row := by
  have hnone : db.fields.find row.id = none := Table.find_eq_none.2 hfree
  have hbind : bindTexts [row.name, row.value] = .ok () := by
    rw [bindTexts_ok, List.forall_mem_cons, List.forall_mem_singleton]
    exact ⟨hshort.1.trans (by decide), hshort.2.trans (by decide)⟩
  obtain ⟨fields, hinsert⟩ : ∃ fields, db.fields.insert row = some fields :=
    ⟨_, Table.insert_eq_some.2 ⟨hnone, rfl⟩⟩
  refine ⟨{ db with fields }, ?_, rfl,
    fun k => Table.mem_insert hinsert⟩
  simp only [CatalogTables.insertField, bind_ok, orFail_ok, failIf_ok, pure_ok]
  exact ⟨(), hbind, _, hinsert, (), hfile, rfl⟩

/-- A membership in a known collection that the file does not have is accepted. -/
theorem exists_insertMember {row : MemberRow} (hshort : row.collectionKey.length ≤ 128)
    (hfree : row ∉ db.members) (hfile : db.files.find row.fileId ≠ none)
    (hknown : db.collections.find row.collectionKey ≠ none) :
    ∃ mid, db.insertMember row = .ok mid ∧ mid.files = db.files ∧
      mid.collections = db.collections ∧ ∀ k, k ∈ mid.members ↔ k ∈ db.members ∨ k = row := by
  have hnone : db.members.find row = none :=
    Table.find_eq_none.2 fun k hk heq => hfree (heq ▸ hk)
  have hbind : bindTexts [row.collectionKey] = .ok () := by
    rw [bindTexts_ok, List.forall_mem_singleton]
    exact hshort.trans (by decide)
  obtain ⟨members, hinsert⟩ : ∃ members, db.members.insert row = some members :=
    ⟨_, Table.insert_eq_some.2 ⟨hnone, rfl⟩⟩
  refine ⟨{ db with members }, ?_, rfl, rfl,
    fun k => Table.mem_insert hinsert⟩
  simp only [CatalogTables.insertMember, bind_ok, orFail_ok, failIf_ok, pure_ok, not_or]
  exact ⟨(), hbind, _, hinsert, (), ⟨hfile, hknown⟩, rfl⟩

/-- Distinct keywords are accepted one by one, by induction on the list. Each of them is free when
it is inserted, as no one before it folds to the same term. -/
theorem exists_insertKeywords {id : Nat} {keywords folded : List Bytes}
    (hfolded : keywords.mapM (fun value => Catalog.normalized E value 512 true false) = .ok folded)
    (hnodup : folded.Nodup) (hfree : ∀ term ∈ folded, ⟨id, term⟩ ∉ db.keywords)
    (hfile : db.files.find id ≠ none) :
    ∃ db', keywords.foldlM (fun (db : CatalogTables) term => do
      db.insertKeyword ⟨id, ← Catalog.normalized E term 512 true false⟩) db = .ok db' := by
  induction keywords generalizing db folded with
  | nil => exact ⟨db, rfl⟩
  | cons value keywords ih =>
      rw [List.mapM_cons] at hfolded
      simp only [bind_ok, pure_ok] at hfolded
      obtain ⟨term, hterm, folded, hfolded, rfl⟩ := hfolded
      rw [List.nodup_cons] at hnodup
      rw [List.forall_mem_cons] at hfree
      obtain ⟨mid, hmid, hfiles, hkeywords⟩ :=
        exists_insertKeyword (length_normalized_le hterm) hfree.1 hfile
      have hrest : ∀ t ∈ folded, ⟨id, t⟩ ∉ mid.keywords := by
        intro t ht hmem
        rcases (hkeywords _).1 hmem with hmem | heq
        · exact hfree.2 t ht hmem
        · exact hnodup.1 ((KeywordRow.mk.inj heq).2 ▸ ht)
      obtain ⟨db', hdb'⟩ := ih hfolded hnodup.2 hrest (hfiles ▸ hfile)
      exact ⟨db', foldlM_cons_ok.2 ⟨mid, bind_ok.2 ⟨term, hterm, hmid⟩, hdb'⟩⟩

/-- Distinct fields are accepted one by one, by induction on the list. -/
theorem exists_insertFields {id : Nat} {fields : List (Bytes × Bytes)}
    (hshort : ∀ e ∈ fields, e.1.length ≤ 256 ∧ e.2.length ≤ 64 * 1024)
    (hnodup : (fields.map (·.1)).Nodup) (hfree : ∀ e ∈ fields, ∀ k ∈ db.fields, k.id ≠ (id, e.1))
    (hfile : db.files.find id ≠ none) :
    ∃ db', fields.foldlM (fun (db : CatalogTables) e => db.insertField ⟨id, e.1, e.2⟩) db
      = .ok db' := by
  induction fields generalizing db with
  | nil => exact ⟨db, rfl⟩
  | cons e fields ih =>
      rw [List.map_cons, List.nodup_cons] at hnodup
      rw [List.forall_mem_cons] at hshort hfree
      obtain ⟨mid, hmid, hfiles, hfields⟩ : ∃ mid, db.insertField ⟨id, e.1, e.2⟩ = .ok mid ∧
          mid.files = db.files ∧ ∀ k, k ∈ mid.fields ↔ k ∈ db.fields ∨ k = ⟨id, e.1, e.2⟩ :=
        exists_insertField hshort.1 hfree.1 hfile
      have hrest : ∀ a ∈ fields, ∀ k ∈ mid.fields, k.id ≠ (id, a.1) := by
        intro a ha k hk heq
        rcases (hfields k).1 hk with hk | rfl
        · exact hfree.2 a ha k hk heq
        · exact hnodup.1 (List.mem_map.2 ⟨a, ha, (Prod.mk.inj heq).2.symm⟩)
      obtain ⟨db', hdb'⟩ := ih hshort.2 hnodup.2 hrest (hfiles ▸ hfile)
      exact ⟨db', foldlM_cons_ok.2 ⟨mid, hmid, hdb'⟩⟩

/-- Distinct memberships are accepted one by one, by induction on the list. -/
theorem exists_insertMembers {id : Nat} {keys : List Bytes}
    (hshort : ∀ key ∈ keys, key.length ≤ 128) (hnodup : keys.Nodup)
    (hfree : ∀ key ∈ keys, ⟨id, key⟩ ∉ db.members) (hfile : db.files.find id ≠ none)
    (hknown : ∀ key ∈ keys, db.collections.find key ≠ none) :
    ∃ db', keys.foldlM (fun (db : CatalogTables) key => db.insertMember ⟨id, key⟩) db
      = .ok db' := by
  induction keys generalizing db with
  | nil => exact ⟨db, rfl⟩
  | cons key keys ih =>
      rw [List.nodup_cons] at hnodup
      rw [List.forall_mem_cons] at hshort hfree hknown
      obtain ⟨mid, hmid, hfiles, hcollections, hmembers⟩ :=
        exists_insertMember hshort.1 hfree.1 hfile hknown.1
      have hrest : ∀ k ∈ keys, ⟨id, k⟩ ∉ mid.members := by
        intro k hk hmem
        rcases (hmembers _).1 hmem with hmem | heq
        · exact hfree.2 k hk hmem
        · exact hnodup.1 ((MemberRow.mk.inj heq).2 ▸ hk)
      obtain ⟨db', hdb'⟩ :=
        ih hshort.2 hnodup.2 hrest (hfiles ▸ hfile) (hcollections ▸ hknown.2)
      exact ⟨db', foldlM_cons_ok.2 ⟨mid, hmid, hdb'⟩⟩

/-! ## Annotations -/

/-- The lines of the keywords in the full-text index. -/
theorem length_lines_le {keywords : List Bytes} (hlength : keywords.length ≤ 128)
    (hshort : ∀ value ∈ keywords, value.length ≤ 512) :
    (keywords.flatMap line).length ≤ 128 * 513 := by
  have hsum : (keywords.flatMap line).length ≤ keywords.length * 513 := by
    clear hlength
    induction keywords with
    | nil => exact Nat.zero_le _
    | cons value keywords ih =>
        rw [List.forall_mem_cons] at hshort
        have hvalue := hshort.1
        have hrest := ih hshort.2
        simp only [List.flatMap_cons, line, List.length_append, List.length_cons,
          List.length_nil] at hrest ⊢
        omega
  exact hsum.trans (Nat.mul_le_mul_right 513 hlength)

/-- The lines of the fields are as long as their names and values with their ends. -/
theorem length_fieldLines (entries : List (Bytes × Bytes)) :
    (entries.flatMap fun e => line e.1 ++ line e.2).length
      ≤ (entries.map fun e => (e.1.length + 2) + (e.2.length + 2)).sum := by
  induction entries with
  | nil => exact le_rfl
  | cons e entries ih =>
      simp only [List.flatMap_cons, List.map_cons, List.sum_cons, line, List.length_append,
        List.length_cons, List.length_nil] at ih ⊢
      omega

/-- The lines of the fields in the full-text index are shorter than the annotation. -/
theorem length_fieldLines_le {m : FileMetadata} {text : Bytes}
    (htext : E.json.dump (metadataJson m) = .ok text) :
    (m.fields.entries.flatMap fun e => line e.1 ++ line e.2).length ≤ text.length := by
  unfold JsonLibrary.dump at htext
  have hdump : Json.dump E.json.realText (Json.object (metadataFields m)) = some text :=
    orFail_ok.1 htext
  have hmember : (ascii "fields", m.fields.json) ∈ metadataFields m := by
    unfold metadataFields
    iterate 5 apply List.mem_cons_of_mem
    exact List.mem_cons_self
  obtain ⟨s, hs, hle⟩ := Json.dump_member hdump (Keyset.mem_orderBy.2 hmember)
  exact (length_fieldLines _).trans ((Json.length_strings_le hs).trans hle)

/-- An annotation that a catalog accepts. -/
structure Annotatable (E : CatalogLibraries) (db : CatalogTables) (m : FileMetadata)
    (text : Bytes) : Prop where
  normal : Normal E m
  dumped : E.json.dump (metadataJson { m with collections := [] }) = .ok text
  fits : text.length ≤ maximumMetadataBytes
  short : ∀ key ∈ m.collections, key.length ≤ 128
  nodup : m.collections.Nodup
  known : ∀ key ∈ m.collections, db.collections.find key ≠ none

/-- Normal metadata with a document within the limit are accepted for a row. -/
theorem exists_updateAnnotation {m : FileMetadata} {text : Bytes} (id : Nat) (hm : Normal E m)
    (hfits : text.length ≤ maximumMetadataBytes) :
    ∃ mid, db.updateAnnotation m text id = .ok mid := by
  have hbind : bindTexts [m.title, text] = .ok () := by
    rw [bindTexts_ok, List.forall_mem_cons, List.forall_mem_singleton]
    exact ⟨(length_normalized_le hm.title).trans (by decide), hfits.trans (Nat.le_add_right _ _)⟩
  simp only [CatalogTables.updateAnnotation, bind_ok, failIf_ok, pure_ok, not_lt]
  exact ⟨_, (), hbind, (), hm.rating, rfl⟩

/-- The search row of annotatable metadata is accepted. -/
theorem exists_replaceSearch {place text : Bytes} {m : FileMetadata} (id : Nat)
    (hm : Annotatable E db m text) (hplace : place.length ≤ 4096) (mid : CatalogTables) :
    ∃ db', mid.replaceSearch (searchRow id place m) = .ok db' := by
  obtain ⟨hcount, hshort, -⟩ := hm.normal.terms
  have hlimit : 128 * 513 ≤ maximumMetadataBytes + 65536 := by
    unfold maximumMetadataBytes
    omega
  have hplace' : place.length ≤ maximumMetadataBytes + 65536 := hplace.trans (by decide)
  have htitle : m.title.length ≤ maximumMetadataBytes + 65536 :=
    (length_normalized_le hm.normal.title).trans (by decide)
  have hdescription : m.description.length ≤ maximumMetadataBytes + 65536 :=
    (length_normalized_le hm.normal.description).trans (by decide)
  have hkeywords : (m.keywords.flatMap line).length ≤ maximumMetadataBytes + 65536 :=
    (length_lines_le hcount hshort).trans hlimit
  have hfields : (m.fields.entries.flatMap fun e => line e.1 ++ line e.2).length
      ≤ maximumMetadataBytes + 65536 :=
    ((length_fieldLines_le hm.dumped).trans hm.fits).trans (Nat.le_add_right _ _)
  have hbind : bindTexts [place, m.title, m.description, m.keywords.flatMap line,
      m.fields.entries.flatMap fun e => line e.1 ++ line e.2] = .ok () := by
    rw [bindTexts_ok]
    simp only [List.forall_mem_cons]
    exact ⟨hplace', htitle, hdescription, hkeywords, hfields, List.forall_mem_nil _⟩
  unfold CatalogTables.replaceSearch
  exact ⟨_, bind_ok.2 ⟨(), hbind, rfl⟩⟩

/-- What stood beside a row is gone once its annotation is removed. -/
theorem removeAnnotation_free (id : Nat) :
    (∀ term, ⟨id, term⟩ ∉ (db.removeAnnotation id).keywords) ∧
      (∀ name, ∀ k ∈ (db.removeAnnotation id).fields, k.id ≠ (id, name)) ∧
      ∀ key, ⟨id, key⟩ ∉ (db.removeAnnotation id).members := by
  refine ⟨fun term hmem => ?_, fun name k hk heq => ?_, fun key hmem => ?_⟩
  · exact of_decide_eq_true (Table.mem_filter.1 hmem).2 rfl
  · exact of_decide_eq_true (Table.mem_filter.1 hk).2 (Prod.mk.inj heq).1
  · exact of_decide_eq_true (Table.mem_filter.1 hmem).2 rfl

/-- The rows beside a file that is annotated. The rows that were there are removed first, so each of
the three loops begins with free keys. -/
theorem exists_sideRows {id : Nat} {text : Bytes} {m : FileMetadata} {mid : CatalogTables}
    (hm : Annotatable E db m text) (hfile : mid.files.find id ≠ none)
    (hcollections : mid.collections = db.collections) : ∃ d₁ d₂ d₃,
      m.keywords.foldlM (fun (db : CatalogTables) term => do
        db.insertKeyword ⟨id, ← Catalog.normalized E term 512 true false⟩)
          (mid.removeAnnotation id) = .ok d₁ ∧
      m.fields.entries.foldlM (fun (db : CatalogTables) e => db.insertField ⟨id, e.1, e.2⟩) d₁
        = .ok d₂ ∧
      m.collections.foldlM (fun (db : CatalogTables) key => db.insertMember ⟨id, key⟩) d₂
        = .ok d₃ ∧ d₃.files = mid.files := by
  obtain ⟨-, -, folded, hnodup, hfolded⟩ := hm.normal.terms
  obtain ⟨hterms, hfields, hmembers⟩ : (∀ term, ⟨id, term⟩ ∉ (mid.removeAnnotation id).keywords) ∧
      (∀ name, ∀ k ∈ (mid.removeAnnotation id).fields, k.id ≠ (id, name)) ∧
      ∀ key, ⟨id, key⟩ ∉ (mid.removeAnnotation id).members := removeAnnotation_free id
  have hfile₀ : (mid.removeAnnotation id).files.find id ≠ none := hfile
  obtain ⟨d₁, h₁⟩ := exists_insertKeywords hfolded hnodup (fun term _ => hterms term) hfile₀
  obtain ⟨keywords, hd₁⟩ := insertKeywords_ok h₁
  have hfile₁ : d₁.files.find id ≠ none := hd₁ ▸ hfile
  have hfields₁ : ∀ e ∈ m.fields.entries, ∀ k ∈ d₁.fields, k.id ≠ (id, e.1) := by
    rw [hd₁]
    exact fun e _ => hfields e.1
  obtain ⟨d₂, h₂⟩ := exists_insertFields hm.normal.entries (nodup_keys m.fields) hfields₁ hfile₁
  obtain ⟨fields, hd₂⟩ := insertFields_ok h₂
  have hfile₂ : d₂.files.find id ≠ none := by
    rw [hd₂]
    exact hfile₁
  have hmembers₂ : ∀ key ∈ m.collections, ⟨id, key⟩ ∉ d₂.members := by
    rw [hd₂, hd₁]
    exact fun key _ => hmembers key
  have hknown₂ : ∀ key ∈ m.collections, d₂.collections.find key ≠ none := by
    rw [hd₂, hd₁]
    exact fun key hkey => hcollections ▸ hm.known key hkey
  obtain ⟨d₃, h₃⟩ := exists_insertMembers hm.short hm.nodup hmembers₂ hfile₂ hknown₂
  obtain ⟨members, -, -, hd₃⟩ := insertMembers_ok h₃
  refine ⟨d₁, d₂, d₃, h₁, h₂, h₃, ?_⟩
  rw [hd₃, hd₂, hd₁]
  rfl

/-- **An annotation in normal form is accepted** for every row that is there. The row gets its
annotation, the rows beside it are replaced, and none of these statements is refused. -/
theorem exists_annotations {id : Nat} {place text : Bytes} {m : FileMetadata}
    (hm : Annotatable E db m text) (hplace : place.length ≤ 4096)
    (hfile : db.files.find id ≠ none) : ∃ db', annotations E db id place m = .ok db' := by
  obtain ⟨mid, hmid⟩ : ∃ mid, db.updateAnnotation m text id = .ok mid :=
    exists_updateAnnotation id hm.normal hm.fits
  obtain ⟨files, hfiles, hmid'⟩ := CatalogTables.updateAnnotation_ok hmid
  have hfile' : mid.files.find id ≠ none := by
    rw [hmid']
    show files.find id ≠ none
    rw [hfiles, ne_eq, Option.map_eq_none_iff]
    exact hfile
  have hcollections : mid.collections = db.collections := by rw [hmid']
  obtain ⟨d₁, d₂, d₃, h₁, h₂, h₃, hd₃⟩ := exists_sideRows hm hfile' hcollections
  obtain ⟨d₄, h₄⟩ := exists_replaceSearch id hm hplace d₃
  have hqueue : ∃ db', d₄.queue [id] = .ok db' := by
    have hfile₄ : d₄.files.find id ≠ none := by
      rw [CatalogTables.replaceSearch_ok h₄]
      show d₃.files.find id ≠ none
      rw [hd₃]
      exact hfile'
    simp only [CatalogTables.queue, bind_ok, failIf_ok, pure_ok, List.mem_singleton,
      exists_eq_left]
    exact ⟨_, (), hfile₄, rfl⟩
  obtain ⟨db', h₅⟩ := hqueue
  simp only [annotations, bind_ok]
  exact ⟨db', text, hm.dumped, mid, hmid, d₁, h₁, d₂, h₂, d₃, h₃, d₄, h₄, h₅⟩

end Catalog

end FileProvider
