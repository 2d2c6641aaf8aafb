import FileProvider.Catalog.Reference
import FileProvider.Catalog.Search
import FileProvider.Catalog.Soundness

/-!
# Saved filters

A filter is searched for in its normal form, and the document of that form is what its cursors are
known by and what is saved. The normal form keeps itself, and the document is read back as it was,
so a saved filter finds the pages of the filter it was saved from.

The module begins with the query of a search, which is stated as a set of rows and a listing in
pages. Then normal filters are told by a predicate, `FilterNormal`, from which the reading of a
document follows part by part.
-/

namespace FileProvider

open Bytes Fallible

/-! ## Searches -/

/-- A place in the listing of a search. -/
structure FileCursor where
  catalog : Bytes
  revision : Nat
  afterIndex : Int
  filter : Bytes
deriving DecidableEq

/-- What a search shows of a file. -/
structure CatalogFileSummary where
  key : Bytes
  index : Nat
  revision : Nat
  path : Bytes
  size : Nat
  modifiedAtNs : Int
  contentVersion : Bytes
  title : Bytes
  rating : Nat
  color : ColorLabel
  metadataPending : Bool
deriving DecidableEq

/-- A page of a search, and the place where the next one begins. -/
structure FilePage where
  files : List CatalogFileSummary
  next : Option FileCursor
deriving DecidableEq

/-- The libraries of a search: the categories of Unicode, and the full-text engine, which finds
the rows of an index that an expression asks for. -/
structure SearchLibraries where
  categories : UnicodeCategories
  matching : List SearchRow → Bytes → Fallible (List Nat)

namespace Catalog

variable (E : CatalogLibraries) (S : SearchLibraries)

/-- The files the words of a filter are found in, when it has words. -/
def matched (db : CatalogTables) (text : Bytes) : Fallible (Option (List Nat)) :=
  if text = [] then pure none else do
    some <$> S.matching db.search.rows (← matchExpression S.categories text)

/-- A path under a directory: it is the directory, or lies between what starts with its name and
a slash and what starts with the next letter. -/
def Under (directory path : Bytes) : Prop :=
  path = directory ∨
    (order (directory ++ [47]) ≤ order path ∧ order path < order (directory ++ [48]))

instance (directory path : Bytes) : Decidable (Under directory path) :=
  inferInstanceAs (Decidable (_ ∨ _ ∧ _))

/-- A value within bounds that may be missing. -/
def Within (least most : Option Nat) (n : Nat) : Prop :=
  (∀ m ∈ least, m ≤ n) ∧ ∀ m ∈ most, n ≤ m

instance (least most : Option Nat) (n : Nat) : Decidable (Within least most n) :=
  inferInstanceAs (Decidable (_ ∧ _))

/-- The conditions of the query of a search. -/
def Selects (db : CatalogTables) (f : FileFilter) (ids : Option (List Nat)) (r : FileRow) : Prop :=
  (∀ l ∈ ids, r.id ∈ l) ∧ (f.pathPrefix = [] ∨ Under f.pathPrefix r.path)
  ∧ Within f.minimumRating f.maximumRating r.rating ∧ Within f.minimumSize f.maximumSize r.size
  ∧ (∀ term ∈ f.allKeywords, ⟨r.id, term⟩ ∈ db.keywords.rows)
  ∧ (f.anyKeywords = [] ∨ ∃ term ∈ f.anyKeywords, ⟨r.id, term⟩ ∈ db.keywords.rows)
  ∧ (f.collections = [] ∨ ∃ key ∈ f.collections, ⟨r.id, key⟩ ∈ db.members.rows)
  ∧ (f.colors = [] ∨ ∃ c ∈ f.colors, r.color = c.code)
  ∧ ∀ e ∈ f.fields.entries, ⟨r.id, e.1, e.2⟩ ∈ db.fields.rows

instance (db : CatalogTables) (f : FileFilter) (ids : Option (List Nat)) (r : FileRow) :
    Decidable (Selects db f ids r) :=
  inferInstanceAs (Decidable (_ ∧ _))

/-- The rows of a search after an index, in their order. -/
def selected (db : CatalogTables) (f : FileFilter) (ids : Option (List Nat)) (after : Int) :
    List FileRow :=
  Keyset.orderBy FileRow.id (db.files.rows.filter fun r => after < r.id ∧ Selects db f ids r)

def summary (db : CatalogTables) (r : FileRow) : CatalogFileSummary :=
  ⟨r.key, r.id, r.revision, r.path, r.size, r.modified, r.stamp, r.title, r.rating,
    .ofCode r.color, db.pending.find r.id ≠ none⟩

/-- The page of what was found, with a cursor where there is more. -/
def filePage (db : CatalogTables) (signature : Bytes) (limit : Nat)
    (found : List CatalogFileSummary) : FilePage :=
  if limit < found.length then
    ⟨found.take limit,
      (found.take limit).getLast?.map fun f => ⟨db.catalogId, db.revision, f.index, signature⟩⟩
  else ⟨found, none⟩

/-- The check of a cursor: it is of this catalog as it stands, and of this filter. -/
def cursorValid (db : CatalogTables) (signature : Bytes) (cursor : Option FileCursor) :
    Fallible Unit :=
  failIf (∃ k ∈ cursor, k.catalog ≠ db.catalogId ∨ k.revision ≠ db.revision
    ∨ k.filter ≠ signature ∨ k.afterIndex < 0)
    "search cursor expired or belongs to another filter/catalog"

def search (c : Catalog) (input : FileFilter) (cursor : Option FileCursor) (limit : Nat) :
    Fallible FilePage := do
  failIf (limit = 0 ∨ maximumPage < limit) "search page exceeds limit"
  let filter ← normalizeFilter E input
  let signature ← E.json.dump (filterJson filter)
  intact c.fs
  cursorValid c.tables signature cursor
  let ids ← matched S c.tables filter.text
  filter.minimumRating.toList.forM integer
  filter.maximumRating.toList.forM integer
  filter.minimumSize.toList.forM integer
  filter.maximumSize.toList.forM integer
  let after := cursor.elim 0 (·.afterIndex)
  let rows := (selected c.tables filter ids after).take (limit + 1)
  pure (filePage c.tables signature limit (rows.map (summary c.tables)))

def searchSaved (c : Catalog) (key : Bytes) (cursor : Option FileCursor) (limit : Nat) :
    Fallible FilePage := do
  intact c.fs
  let saved ← orFail "saved filter does not exist" (← savedFilter E c.tables key)
  search E S c saved.filter cursor limit

/-! ## Normal filters -/

/-- A filter whose parts are in normal form, within the limits of a filter. -/
structure FilterNormal (E : CatalogLibraries) (f : FileFilter) : Prop where
  text : normalized E f.text 4096 false false = .ok f.text
  pathPrefix : relativePath E f.pathPrefix true = .ok f.pathPrefix
  allKeywords : terms E f.allKeywords true = .ok f.allKeywords
  anyKeywords : terms E f.anyKeywords true = .ok f.anyKeywords
  counts : ¬ (8 < f.colors.length ∨ 128 < f.collections.length ∨ 64 < f.fields.entries.length)
  collections : f.collections.mapM (fun c => normalized E c 128 false true) = .ok f.collections
  fields : f.fields.entries.foldlM (normalizeFilterField E) .empty = .ok f.fields
  ranges : rangesValid f = .ok ()
  minimumSize : f.minimumSize.toList.forM integer = .ok ()
  maximumSize : f.maximumSize.toList.forM integer = .ok ()
  document : ∃ t, E.json.dump (filterJson f) = .ok t ∧ t.length ≤ maximumMetadataBytes

variable {E}

/-- A filter in its normal form keeps it. -/
theorem FilterNormal.eq {f : FileFilter} (h : FilterNormal E f) : normalizeFilter E f = .ok f := by
  obtain ⟨t, ht, hlimit⟩ := h.document
  simp only [normalizeFilter, bind_ok, failIf_ok, pure_ok, not_lt]
  exact ⟨_, h.text, _, h.pathPrefix, _, h.allKeywords, _, h.anyKeywords, (), h.counts, _,
    h.collections, _, h.fields, (), h.ranges, (), h.minimumSize, (), h.maximumSize, t, ht, (),
    hlimit, rfl⟩

/-- What the code relies on where it folds the case of a text: what is folded is folded and
composed already, no NUL comes in, and what is only spaces was only spaces. -/
structure FoldStable (U : Unicode) : Prop where
  idem : ∀ s t, U.map true s = some t → U.map true t = some t
  composed : ∀ s t, U.map true s = some t → U.map false t = some t
  nul : ∀ s t, U.map true s = some t → 0 ∉ s → 0 ∉ t
  blank : ∀ s t, U.map true s = some t → t.all (fun c => c ∈ [32, 9, 13, 10]) = true →
    s.all (fun c => c ∈ [32, 9, 13, 10]) = true

/-! ### Terms -/

/-- A term that is searched for: it is composed and folded. -/
structure TermNormal (E : CatalogLibraries) (term : Bytes) : Prop where
  composed : normalized E term 512 false true = .ok term
  folded : normalized E term 512 true false = .ok term

/-- The text that a name folds to is a term. It is within the limit, and folding or composing it
again changes nothing, as the library's folding is assumed stable. -/
theorem TermNormal.of_folded (hU : FoldStable E.unicode) {value display term : Bytes}
    (hdisplay : normalized E value 512 false true = .ok display)
    (hterm : normalized E display 512 true false = .ok term) : TermNormal E term := by
  have hspaces : ¬ display.all (fun c => c ∈ [32, 9, 13, 10]) = true := by
    simp only [normalized, bind_ok, failIf_ok, pure_ok] at hdisplay
    obtain ⟨-, -, _, -, -, -, -, hspaces, rfl⟩ := hdisplay
    exact fun h => hspaces ⟨trivial, h⟩
  simp only [normalized, bind_ok, failIf_ok, orFail_ok, pure_ok, not_or] at hterm
  obtain ⟨-, ⟨-, hnul, -⟩, folded, hfolded, -, hlength, -, -, rfl⟩ := hterm
  have hstays := hU.nul _ _ hfolded hnul
  have hblank : ¬ folded.all (fun c => c ∈ [32, 9, 13, 10]) = true :=
    fun h => hspaces (hU.blank _ _ hfolded h)
  constructor
  · simp only [normalized, bind_ok, failIf_ok, orFail_ok, pure_ok, not_or]
    refine ⟨(), ⟨hlength, hstays, ?_⟩, folded, hU.composed _ _ hfolded, (), hlength, (),
      fun h => hblank h.2, rfl⟩
    rintro ⟨-, rfl⟩
    exact hblank rfl
  · simp only [normalized, bind_ok, failIf_ok, orFail_ok, pure_ok, not_or]
    exact ⟨(), ⟨hlength, hstays, fun h => Bool.false_ne_true h.1⟩, folded, hU.idem _ _ hfolded,
      (), hlength, (), fun h => Bool.false_ne_true h.1, rfl⟩

/-- The loop of `terms` keeps terms that differ from each other and from those before. A term is
kept if no one before it folds to the same text, which is what the list of seen terms is for. -/
theorem termsFrom_normal (hU : FoldStable E.unicode) {input seen result : List Bytes}
    (h : termsFrom E true input seen = .ok result) :
    (∀ t ∈ result, TermNormal E t ∧ t ∉ seen) ∧ result.Nodup ∧
      result.length ≤ input.length := by
  induction input generalizing seen result with
  | nil =>
      obtain rfl : [] = result := pure_ok.1 h
      exact ⟨by simp, .nil, le_rfl⟩
  | cons value rest ih =>
      simp only [termsFrom, bind_ok] at h
      obtain ⟨display, hdisplay, term, hterm, h⟩ := h
      split at h
      · obtain ⟨hnormal, hnodup, hlength⟩ := ih h
        exact ⟨hnormal, hnodup, hlength.trans (Nat.le_succ _)⟩
      · next hseen =>
          simp only [bind_ok, pure_ok] at h
          obtain ⟨more, hmore, rfl⟩ := h
          obtain ⟨hnormal, hnodup, hlength⟩ := ih hmore
          have hfresh : term ∉ more := fun hmem => (hnormal term hmem).2 List.mem_cons_self
          refine ⟨?_, List.nodup_cons.2 ⟨hfresh, hnodup⟩, Nat.succ_le_succ hlength⟩
          intro t ht
          rcases List.mem_cons.1 ht with rfl | ht
          · exact ⟨.of_folded hU hdisplay hterm, hseen⟩
          · obtain ⟨hterm, hnew⟩ := hnormal t ht
            exact ⟨hterm, fun hmem => hnew (List.mem_cons_of_mem _ hmem)⟩

/-- Such terms are kept as they are. -/
theorem termsFrom_eq {l seen : List Bytes} (hl : ∀ t ∈ l, TermNormal E t ∧ t ∉ seen)
    (hnodup : l.Nodup) : termsFrom E true l seen = .ok l := by
  induction l generalizing seen with
  | nil => rfl
  | cons t l ih =>
      obtain ⟨hnormal, hseen⟩ := hl t List.mem_cons_self
      obtain ⟨hfresh, hnodup⟩ := List.nodup_cons.1 hnodup
      have hrest : termsFrom E true l (t :: seen) = .ok l := by
        refine ih (fun s hs => ?_) hnodup
        obtain ⟨hs', hnew⟩ := hl s (List.mem_cons_of_mem _ hs)
        refine ⟨hs', fun hmem => ?_⟩
        rcases List.mem_cons.1 hmem with rfl | hmem
        · exact hfresh hs
        · exact hnew hmem
      simp only [termsFrom, bind_ok]
      refine ⟨t, hnormal.composed, t, hnormal.folded, ?_⟩
      rw [if_neg hseen, bind_ok]
      exact ⟨l, hrest, rfl⟩

/-- Terms that are normalised and folded stay as they are, for a folding that is stable. -/
theorem foldedTerms_idem (hU : FoldStable E.unicode) {input result : List Bytes}
    (h : terms E input true = .ok result) : terms E result true = .ok result := by
  simp only [terms, bind_ok, failIf_ok, not_lt] at h ⊢
  obtain ⟨_, hlength, hfrom⟩ := h
  obtain ⟨hnormal, hnodup, hle⟩ := termsFrom_normal hU hfrom
  exact ⟨(), hle.trans hlength, termsFrom_eq hnormal hnodup⟩

/-! ### Fields and paths -/

/-- The field of a filter is normalised as the field of a file. -/
theorem normalizeFilterField_ok {m m' : StringMap} {e : Bytes × Bytes} :
    normalizeFilterField E m e = .ok m' ↔ normalizeField E m e = .ok m' := by
  simp only [normalizeFilterField, normalizeField, bind_ok, failIf_ok, pure_ok]

/-- The fields of a filter go the way of those of a classification. -/
theorem normalizeFilterFields_ok {l : List (Bytes × Bytes)} {m m' : StringMap} :
    l.foldlM (normalizeFilterField E) m = .ok m' ↔ l.foldlM (normalizeField E) m = .ok m' := by
  induction l generalizing m with
  | nil => rfl
  | cons e l ih =>
      rw [foldlM_cons_ok, foldlM_cons_ok]
      simp only [normalizeFilterField_ok, ih]

/-- A path that is accepted is kept as it is. -/
theorem relativePath_self {text p : Bytes} (h : relativePath E text true = .ok p) : p = text := by
  simp only [relativePath, bind_ok] at h
  obtain ⟨-, -, h⟩ := h
  split at h
  · exact (pure_ok.1 h).symm
  · rw [bind_ok] at h
    obtain ⟨-, -, h⟩ := h
    exact (pure_ok.1 h).symm

/-- **What a filter is normalized to is in normal form.** The parts are normalised one by one, and
each of them by the same functions as a classification. -/
theorem normalizeFilter_normal (hU : FoldStable E.unicode) {f n : FileFilter}
    (h : normalizeFilter E f = .ok n) : FilterNormal E n := by
  simp only [normalizeFilter, bind_ok, failIf_ok, pure_ok, not_lt] at h
  obtain ⟨text, htext, path, hpath, all, hall, any, hany, _, hcounts, collections, hcollections,
    fields, hfields, _, hranges, _, hminimum, _, hmaximum, t, ht, _, hlimit, rfl⟩ := h
  obtain rfl := relativePath_self hpath
  rw [normalizeFilterFields_ok] at hfields
  have hempty : ∀ e ∈ StringMap.empty.entries, FieldNormal E e := fun e he => by cases he
  have hsame : ∀ c ∈ collections, normalized E c 128 false true = .ok c := by
    intro c hc
    have hmem : Except.ok c ∈ collections.map (Except.ok (ε := String)) := List.mem_map_of_mem hc
    rw [← mapM_ok.1 hcollections] at hmem
    obtain ⟨k, -, hk⟩ := List.mem_map.1 hmem
    exact normalized_idem hk
  have hcount : collections.length = f.collections.length := by
    have hlength := congrArg List.length (mapM_ok.1 hcollections)
    simpa using hlength.symm
  have hfew : fields.entries.length ≤ f.fields.entries.length := by
    obtain ⟨-, hlength⟩ := normalizeFields_normal hempty hfields
    have hnil : StringMap.empty.entries.length = 0 := rfl
    omega
  exact {
    text := normalized_idem htext
    pathPrefix := hpath
    allKeywords := foldedTerms_idem hU hall
    anyKeywords := foldedTerms_idem hU hany
    counts := by
      show ¬ (8 < f.colors.length ∨ 128 < collections.length ∨ 64 < fields.entries.length)
      omega
    collections := mapM_ok.2 (List.map_congr_left hsame)
    fields := normalizeFilterFields_ok.2 (normalizeFields_idem hfields)
    ranges := hranges
    minimumSize := hminimum
    maximumSize := hmaximum
    document := ⟨t, ht, hlimit⟩ }

/-! ## Saved documents -/

/-- The members of the document of a filter, with those that are left out. -/
def filterMembers (f : FileFilter) : List (Bytes × Option Json) :=
  [(ascii "text", some (.str f.text)), (ascii "pathPrefix", some (.str f.pathPrefix)),
    (ascii "allKeywords", some (.arr (f.allKeywords.map .str))),
    (ascii "anyKeywords", some (.arr (f.anyKeywords.map .str))),
    (ascii "colors", some (.arr (f.colors.map fun c => .int c.code))),
    (ascii "collections", some (.arr (f.collections.map .str))),
    (ascii "fields", some f.fields.json),
    (ascii "minimumRating", f.minimumRating.map fun n : Nat => .int n),
    (ascii "maximumRating", f.maximumRating.map fun n : Nat => .int n),
    (ascii "minimumSize", f.minimumSize.map fun n : Nat => .int n),
    (ascii "maximumSize", f.maximumSize.map fun n : Nat => .int n)]

/-- The members of a stored filter are distinct. -/
theorem filterMembers_nodup (f : FileFilter) : ((filterMembers f).map (·.1)).Nodup := by
  show [ascii "text", ascii "pathPrefix", ascii "allKeywords", ascii "anyKeywords",
    ascii "colors", ascii "collections", ascii "fields", ascii "minimumRating",
    ascii "maximumRating", ascii "minimumSize", ascii "maximumSize"].Nodup
  decide

/-- A filter is stored as its members with a value. -/
theorem filterJson_eq (f : FileFilter) :
    filterJson f = .object ((filterMembers f).filterMap fun m => m.2.map (Prod.mk m.1)) := by
  obtain ⟨text, path, all, any, colors, collections, minimumRating, maximumRating, minimumSize,
    maximumSize, fields⟩ := f
  cases minimumRating <;> cases maximumRating <;> cases minimumSize <;> cases maximumSize <;> rfl

/-- The numbers of a filter in normal form. -/
theorem FilterNormal.numbers {f : FileFilter} (h : FilterNormal E f) :
    (∀ n ∈ f.minimumRating, n ≤ 5) ∧ (∀ n ∈ f.maximumRating, n ≤ 5) ∧
      (∀ n ∈ f.minimumSize, n ≤ int64Max) ∧ ∀ n ∈ f.maximumSize, n ≤ int64Max := by
  have hranges := h.ranges
  simp only [rangesValid, failIf_ok, not_or, not_exists, not_and, not_lt] at hranges
  have hsizes := h.minimumSize
  have hsizes' := h.maximumSize
  simp only [forM_ok, integer, failIf_ok, not_lt, Option.mem_toList] at hsizes hsizes'
  exact ⟨hranges.1, hranges.2.1, hsizes, hsizes'⟩

/-- The document of a normal filter is canonical, so a library writes and reads it back. -/
theorem FilterNormal.canonical {f : FileFilter} (h : FilterNormal E f) :
    (filterJson f).Canonical := by
  obtain ⟨hleast, hmost, hsmall, hlarge⟩ := h.numbers
  have hmax : int64Max = 2 ^ 63 - 1 := rfl
  have hnumber : ∀ n : Nat, n ≤ int64Max → (Json.int n).Canonical := fun n hn =>
    ⟨by omega, by omega⟩
  have hoptional : ∀ (o : Option Nat), (∀ n ∈ o, n ≤ int64Max) →
      ∀ v, o.map (fun n : Nat => Json.int n) = some v → v.Canonical := by
    intro o ho v hv
    obtain ⟨n, hn, rfl⟩ := Option.map_eq_some_iff.1 hv
    exact hnumber n (ho n hn)
  have hcolors : (Json.arr (f.colors.map fun c => .int c.code)).Canonical := by
    refine Json.canonicalElements_iff.2 fun x hx => ?_
    obtain ⟨c, -, rfl⟩ := List.mem_map.1 hx
    have hcode := c.code_le
    have hgray : ColorLabel.gray.code = 7 := rfl
    exact hnumber c.code (by omega)
  have hvalues : ∀ m ∈ filterMembers f, ∀ v, m.2 = some v → v.Canonical := by
    simp only [filterMembers, List.forall_mem_cons, List.not_mem_nil, false_implies,
      implies_true, and_true, Option.some.injEq, forall_eq']
    exact ⟨trivial, trivial, MetadataCodec.strings_canonical _, MetadataCodec.strings_canonical _,
      hcolors, MetadataCodec.strings_canonical _, MetadataCodec.stringMap_canonical _,
      hoptional _ fun n hn => (hleast n hn).trans (by omega),
      hoptional _ fun n hn => (hmost n hn).trans (by omega),
      hoptional _ hsmall, hoptional _ hlarge⟩
  rw [filterJson_eq]
  refine Json.canonical_object ?_ fun m hm => ?_
  · refine (filterMembers_nodup f).sublist ?_
    exact Json.keys_optional (filterMembers f)
  · obtain ⟨e, he, hm⟩ := List.mem_filterMap.1 hm
    obtain ⟨v, hv, rfl⟩ := Option.map_eq_some_iff.1 hm
    exact hvalues e he v hv

/-- A colour is read back from its code. -/
theorem savedColor_code (c : ColorLabel) : savedColor (.int c.code) = .ok c := by
  cases c <;> rfl

/-- An optional number within its width is read back. -/
theorem optionalOf_ok (bits : Nat) {j : Json} {key : Bytes} {o : Option Nat}
    (h : j.member? key = o.map fun n : Nat => .int n) (ho : ∀ n ∈ o, n < 2 ^ bits) :
    optionalOf j key bits = .ok o := by
  cases o with
  | none =>
      rw [optionalOf, h]
      rfl
  | some n =>
      have hn := ho n rfl
      have hvalue : ((n : Int) % 2 ^ bits).toNat = n := by
        rw [Int.emod_eq_of_lt (by omega) (by exact_mod_cast hn), Int.toNat_natCast]
      rw [optionalOf, h]
      show some <$> Json.getUnsigned bits (.int n) = _
      rw [Json.getUnsigned, hvalue]
      rfl

/-- **A saved filter is read back.** Each member is found or missing as it was written, and the
normalisation that follows leaves it as it is. -/
theorem FilterNormal.parse {f : FileFilter} (h : FilterNormal E f) {t : Bytes}
    (ht : E.json.dump (filterJson f) = .ok t) : parseFilter E t = .ok f := by
  obtain ⟨hleast, hmost, hsmall, hlarge⟩ := h.numbers
  have hmax : int64Max = 2 ^ 63 - 1 := rfl
  have hread := JsonLibrary.parseText_of_dump h.canonical ht
  have hmember : ∀ m ∈ filterMembers f, (filterJson f).member? m.1 = m.2 := by
    intro m hm
    rw [filterJson_eq]
    exact Json.member?_optional (filterMembers_nodup f) hm
  simp only [filterMembers, List.forall_mem_cons, List.not_mem_nil, false_implies,
    implies_true, and_true] at hmember
  obtain ⟨htext, hpath, hall, hany, hcolors, hcollections, hfields, hleast', hmost', hsmall',
    hlarge'⟩ := hmember
  have hcolors := Json.member_of_member? hcolors
  have hlabels : (f.colors.map fun c => Json.int c.code).mapM savedColor = .ok f.colors := by
    rw [mapM_ok, List.map_map]
    exact List.map_congr_left fun c _ => savedColor_code c
  have hleast' := optionalOf_ok 32 hleast' fun n hn => by have := hleast n hn; omega
  have hmost' := optionalOf_ok 32 hmost' fun n hn => by have := hmost n hn; omega
  have hsmall' := optionalOf_ok 64 hsmall' fun n hn => by have := hsmall n hn; omega
  have hlarge' := optionalOf_ok 64 hlarge' fun n hn => by have := hlarge n hn; omega
  have hobject : (filterJson f).isObject = true := by
    rw [filterJson_eq]
    rfl
  generalize filterJson f = j at *
  simp only [parseFilter, bind_ok, failIf_ok]
  refine ⟨j, hread, (), by simp [hobject], ?_⟩
  simp only [valueOr_ok htext, valueOr_ok hpath, valueOr_ok hall, valueOr_ok hany,
    valueOr_ok hcollections, valueOr_ok hfields, MetadataCodec.getStrings_arr,
    MetadataCodec.getStringMap_json, Json.getStr, hcolors, hleast', hmost', hsmall', hlarge',
    Except.ok.injEq, exists_eq_left']
  exact ⟨_, hlabels, h.eq⟩

/-! ## Stored filters -/

variable {fs : FileSystem} {db db' : CatalogTables}

/-- What storing a filter did to the rows. -/
structure Stored (E : CatalogLibraries) (db : CatalogTables) (name : Bytes) (filter : FileFilter)
    (random : Fin 16 → UInt8) (saved : SavedFileFilter) (db' : CatalogTables) : Prop where
  answer : saved.filter = filter
  key : saved.key = newKey random "filter-" ∨ ∃ row ∈ db.savedFilters, row.key = saved.key
  row : ∃ row, db'.savedFilters.find saved.key = some row ∧ row.name = name ∧
    E.json.dump (filterJson filter) = .ok row.filter
  others : ∀ key, key ≠ saved.key → db'.savedFilters.find key = db.savedFilters.find key

/-- A filter is stored under a key that is new or that of the filter of this name. -/
theorem filterKey_ok {folded key : Bytes} {random : Fin 16 → UInt8}
    (h : filterKey db folded random = .ok key) :
    key = newKey random "filter-" ∨ ∃ row ∈ db.savedFilters, row.key = key := by
  unfold filterKey at h
  split at h
  · next row hrow =>
      have hmem := (UniqueTable.findBy_eq_some List.mem_cons_self).1 hrow
      exact .inr ⟨row, hmem.1, pure_ok.1 h⟩
  · simp only [bind_ok, pure_ok] at h
    obtain ⟨-, -, rfl⟩ := h
    exact .inl rfl

/-- A row is inserted or takes the place of the one with its key; the others stay. -/
theorem upsertFilter_ok {row : SavedFilterRow} (h : db.upsertFilter row = .ok db') :
    (∃ r, db'.savedFilters.find row.key = some r ∧ r.name = row.name ∧ r.filter = row.filter) ∧
      ∀ key, key ≠ row.key → db'.savedFilters.find key = db.savedFilters.find key := by
  simp only [CatalogTables.upsertFilter, bind_ok, orFail_ok, pure_ok] at h
  obtain ⟨-, -, savedFilters, hrows, rfl⟩ := h
  split at hrows
  · obtain ⟨-, hfind⟩ := UniqueTable.find_insert hrows
    refine ⟨⟨row, (hfind row.key).trans (if_pos rfl), rfl, rfl⟩, fun key hkey => ?_⟩
    exact (hfind key).trans (if_neg (Ne.symm hkey))
  · next hthere =>
      have hfind := UniqueTable.find_modify hrows
      refine ⟨?_, fun key hkey => (hfind key).trans (if_neg hkey)⟩
      obtain ⟨r, hr⟩ := Option.ne_none_iff_exists'.1 hthere
      refine ⟨{ r with name := row.name, folded := row.folded, filter := row.filter },
        (hfind row.key).trans ((if_pos rfl).trans ?_), rfl, rfl⟩
      rw [hr]
      rfl

/-- A call of `storeFilter` that returns has done what `Stored` says. -/
theorem storeFilter_stored {name : Bytes} {filter : FileFilter} {random : Fin 16 → UInt8}
    {saved : SavedFileFilter} (h : storeFilter E db name filter random = .ok (saved, db')) :
    Stored E db name filter random saved db' := by
  simp only [storeFilter, bind_ok, pure_ok, Prod.mk.injEq] at h
  obtain ⟨folded, -, key, hkey, text, htext, stored, hstored, bumped, hbump, rfl, rfl⟩ := h
  obtain ⟨⟨r, hr, hname, hfilter⟩, hothers⟩ := upsertFilter_ok hstored
  rw [CatalogTables.bump_ok hbump]
  exact ⟨rfl, filterKey_ok hkey, ⟨r, hr, hname, hfilter ▸ htext⟩, hothers⟩

/-- Dropping a filter keeps the others. -/
theorem dropFilter_kept {key other : Bytes} (h : dropFilter E db key = .ok db')
    (hother : normalized E key 128 false true ≠ .ok other) :
    db'.savedFilters.find other = db.savedFilters.find other := by
  simp only [dropFilter, bind_ok] at h
  obtain ⟨erased, herased, dropped, hdropped, hbump⟩ := h
  simp only [CatalogTables.eraseFilter, bind_ok, pure_ok] at hdropped
  obtain ⟨-, -, -, -, rfl⟩ := hdropped
  rw [CatalogTables.bump_ok hbump]
  refine (UniqueTable.find_erase db.savedFilters erased other).trans (if_neg ?_)
  rintro rfl
  exact hother herased

/-! ### Other steps -/

/-- Restoring collections leaves the filters. -/
theorem Restores.savedFilters (h : Restores db db') : db'.savedFilters = db.savedFilters := by
  obtain ⟨collections, rfl, -⟩ := h
  rfl

/-- Raising revisions leaves the filters. -/
theorem raiseRevisions_savedFilters {ids : List Nat} (h : db.raiseRevisions ids = .ok db') :
    db'.savedFilters = db.savedFilters := by
  obtain ⟨files, -, rfl⟩ := CatalogTables.raiseRevisions_ok h
  rfl

/-- Raising the catalog's revision leaves the filters. -/
theorem bump_savedFilters (h : db.bump = .ok db') : db'.savedFilters = db.savedFilters := by
  rw [CatalogTables.bump_ok h]

/-- Queueing leaves the filters. -/
theorem queue_savedFilters {ids : List Nat} (h : db.queue ids = .ok db') :
    db'.savedFilters = db.savedFilters := by
  rw [CatalogTables.queue_ok h]

/-- Describing a file leaves the filters. -/
theorem Described.savedFilters {mid : CatalogTables} {id : Nat} {p : Proposal}
    {file : CatalogFile} (h : Described E mid id p file db') :
    db'.savedFilters = mid.savedFilters := by
  obtain ⟨text, hannotated⟩ := h.annotated
  exact hannotated.savedFilters

/-- A registration leaves the filters, on each of its ways. -/
theorem Registers.savedFilters {r : FileRegistration} {draws : KeyDraws} {physical : Physical}
    {file : CatalogFile} {mutated : Bool}
    (h : Registers E fs db r draws physical file mutated db') :
    db'.savedFilters = db.savedFilters := by
  cases h with
  | unchanged _ hp => exact (refreshed_ok hp).1.savedFilters
  | refreshed _ hp _ hmid hdescribed =>
      obtain ⟨files, -, rfl⟩ := CatalogTables.updateFile_ok hmid
      exact hdescribed.savedFilters.trans (refreshed_ok hp).1.savedFilters
  | added _ hp hmid hdescribed =>
      obtain ⟨files, -, rfl⟩ := CatalogTables.insertFile_ok hmid
      exact hdescribed.savedFilters.trans (adopted_ok hp).1.savedFilters

/-- The call for one registration leaves the filters. -/
theorem registration_savedFilters {r : FileRegistration} {draws : KeyDraws} {file : CatalogFile}
    {mutated : Bool} (h : registration E fs db r draws = .ok (file, mutated, db')) :
    db'.savedFilters = db.savedFilters := by
  obtain ⟨physical, content, -, -, hregisters⟩ := registration_ok h
  exact hregisters.savedFilters

/-- A batch of registrations leaves the filters, by induction on its entries. -/
theorem registerBatch_savedFilters {entries : List FileRegistration} {draws : Nat → KeyDraws}
    {files : List CatalogFile} (h : registerBatch E fs db entries draws = .ok (files, db')) :
    db'.savedFilters = db.savedFilters := by
  obtain ⟨batch, hbatch, -, hbump⟩ := registerBatch_ok h
  have hfold : batch.tables.savedFilters = db.savedFilters := by
    refine foldlM_preserves (motive := fun b : Batch => b.tables.savedFilters = db.savedFilters)
      (fun b e b' hb hs => ?_) _ rfl hbatch
    simp only [registerEntry, bind_ok, pure_ok, Prod.exists] at hs
    obtain ⟨file, mutated, tables, hregistration, _, -, rfl⟩ := hs
    exact (registration_savedFilters hregistration).trans hb
  rcases hbump with ⟨-, hbump⟩ | ⟨-, rfl⟩
  · exact (bump_savedFilters hbump).trans hfold
  · exact hfold

/-- Inheriting a companion's collections leaves the filters. -/
theorem inherit_savedFilters {inherited : Option Companion} {m metadata : FileMetadata}
    (h : inherit E db inherited m = .ok (metadata, db')) : db'.savedFilters = db.savedFilters := by
  cases inherited with
  | none =>
      cases h
      rfl
  | some j => exact (restoreCollections_ok h).1.savedFilters

/-- The rows of saved filters are changed by the two calls for them alone. So what is saved under a
name is what the last call for it left, whatever the catalog did meanwhile. -/
theorem Step.savedFilters {c c' : Catalog} {e : Event} (h : Step E c e c') :
    c'.tables.savedFilters = c.tables.savedFilters ∨
    (∃ name filter random saved, e = .saveFilter saved.key ∧
      storeFilter E c.tables name filter random = .ok (saved, c'.tables)) ∨
    ∃ key, e = .removeFilter key ∧ dropFilter E c.tables key = .ok c'.tables := by
  cases h with
  | register h => exact .inl (registerBatch_savedFilters h)
  | create _ hprepared hregister =>
      obtain ⟨-, -, -, hinherit⟩ := prepared_ok hprepared
      simp only [Catalog.register, bind_ok, pure_ok, Prod.exists, Prod.mk.injEq] at hregister
      obtain ⟨file, mutated, d, hregistration, d', hbump, -, rfl⟩ := hregister
      have hmid := (registration_savedFilters hregistration).trans (inherit_savedFilters hinherit)
      exact .inl ((bump_savedFilters hbump).trans hmid)
  | update _ h =>
      obtain ⟨file, physical, raised, text, mid, -, -, -, -, -, hraised, hannotated, -, hbump⟩ :=
        update_ok h
      have hmid := hannotated.savedFilters.trans (raiseRevisions_savedFilters hraised)
      exact .inl ((bump_savedFilters hbump).trans hmid)
  | createCollection _ h =>
      simp only [addCollection, bind_ok, pure_ok, Prod.mk.injEq] at h
      obtain ⟨_, -, folded, -, mid, hmid, bumped, hbump, -, rfl⟩ := h
      obtain ⟨collections, -, rfl⟩ := CatalogTables.insertCollection_ok hmid
      exact .inl ((bump_savedFilters hbump).trans rfl)
  | renameCollection _ h =>
      simp only [rename, bind_ok] at h
      obtain ⟨folded, -, renamed, hrenamed, raised, hraised, queued, hqueued, _, -, hbump⟩ := h
      simp only [CatalogTables.updateCollection, bind_ok, pure_ok] at hrenamed
      obtain ⟨_, -, collections, -, _, -, rfl⟩ := hrenamed
      have hraised := raiseRevisions_savedFilters hraised
      exact .inl ((bump_savedFilters hbump).trans ((queue_savedFilters hqueued).trans hraised))
  | removeCollection h =>
      simp only [dissolve, bind_ok] at h
      obtain ⟨raised, hraised, queued, hqueued, removed, hremoved, hbump⟩ := h
      simp only [CatalogTables.removeCollection, bind_ok, pure_ok] at hremoved
      obtain ⟨_, -, _, -, rfl⟩ := hremoved
      have hraised := raiseRevisions_savedFilters hraised
      exact .inl ((bump_savedFilters hbump).trans ((queue_savedFilters hqueued).trans hraised))
  | saveFilter h => exact .inr (.inl ⟨_, _, _, _, rfl, h⟩)
  | removeFilter h => exact .inr (.inr ⟨_, rfl, h⟩)
  | publish => exact .inl rfl
  | interrupted => exact .inl rfl
  | unindexed => exact .inl rfl
  | directory => exact .inl rfl
  | staged => exact .inl rfl
  | present =>
      rw [prepare_tables]
      exact .inl rfl
  | outside => exact .inl rfl

/-- The keys of saved filters are in normal form. -/
def FilterKeys (E : CatalogLibraries) (db : CatalogTables) : Prop :=
  ∀ row ∈ db.savedFilters, normalized E row.key 128 false true = .ok row.key

/-- A filter is stored under a normal key. -/
theorem Stored.key_normal {name : Bytes} {filter : FileFilter} {random : Fin 16 → UInt8}
    {saved : SavedFileFilter} (h : Stored E db name filter random saved db')
    (hdb : FilterKeys E db) : normalized E saved.key 128 false true = .ok saved.key := by
  rcases h.key with hkey | ⟨row, hrow, hkey⟩
  · rw [hkey]
    exact normalized_newKey random (by decide +kernel) (by decide)
  · rw [← hkey]
    exact hdb row hrow

/-- Each step of a catalog keeps the keys of its filters normal. -/
theorem FilterKeys.step {c c' : Catalog} {e : Event} (hc : FilterKeys E c.tables)
    (h : Step E c e c') : FilterKeys E c'.tables := by
  intro row hrow
  have hfind := UniqueTable.mem_iff_find.1 hrow
  rcases h.savedFilters with hsame | ⟨name, filter, random, saved, -, hstore⟩ | ⟨key, -, hdrop⟩
  · rw [hsame] at hrow
    exact hc row hrow
  · have hstored := storeFilter_stored hstore
    by_cases hkey : row.key = saved.key
    · rw [hkey]
      exact hstored.key_normal hc
    · rw [hstored.others row.key hkey] at hfind
      exact hc row (UniqueTable.mem_iff_find.2 hfind)
  · simp only [dropFilter, bind_ok] at hdrop
    obtain ⟨_, -, dropped, hdropped, hbump⟩ := hdrop
    simp only [CatalogTables.eraseFilter, bind_ok, pure_ok] at hdropped
    obtain ⟨-, -, -, -, rfl⟩ := hdropped
    rw [bump_savedFilters hbump] at hrow
    exact hc row (UniqueTable.mem_erase.1 hrow).1

/-- The keys of filters are normal in every catalog that is reached. -/
theorem FilterKeys.reached {allowed : FileSystem → FileSystem → Prop} {c : Catalog}
    (h : Reached E allowed c) : FilterKeys E c.tables := by
  refine h.invariant (I := fun c => FilterKeys E c.tables) (fun id fs row hrow => ?_)
    fun hc hstep _ => hc.step hstep
  cases hrow

/-- A step that saves a filter under a key, or removes what is saved under it. -/
def Replaces (E : CatalogLibraries) (key : Bytes) : Event → Prop
  | .saveFilter other => other = key
  | .removeFilter other => normalized E other 128 false true = .ok key
  | _ => False

/-- A step that does not replace a filter keeps its row. -/
theorem find_kept {c c' : Catalog} {e : Event} {key : Bytes} (h : Step E c e c')
    (he : ¬ Replaces E key e) :
    c'.tables.savedFilters.find key = c.tables.savedFilters.find key := by
  rcases h.savedFilters with
    hsame | ⟨name, filter, random, saved, rfl, hstore⟩ | ⟨other, rfl, hdrop⟩
  · rw [hsame]
  · exact (storeFilter_stored hstore).others key fun hkey => he hkey.symm
  · exact dropFilter_kept hdrop he

/-- A run without a step that replaces a filter keeps its row. -/
theorem run_kept {c c' : Catalog} {events : List Event} {key : Bytes}
    (h : Run (Step E) c events c') (hevents : ∀ e ∈ events, ¬ Replaces E key e) :
    c'.tables.savedFilters.find key = c.tables.savedFilters.find key := by
  induction h with
  | nil => rfl
  | cons hstep _ ih =>
      rw [List.forall_mem_cons] at hevents
      exact (ih hevents.2).trans (find_kept hstep hevents.1)

/-! ## What a saved filter finds -/

/-- The normal form of a filter finds what the filter finds, by the same cursors. -/
theorem search_normal (hU : FoldStable E.unicode) {f n : FileFilter}
    (h : normalizeFilter E f = .ok n) (c : Catalog) (cursor : Option FileCursor) (limit : Nat) :
    search E S c n cursor limit = search E S c f cursor limit := by
  unfold search
  rw [h, (normalizeFilter_normal hU h).eq]

/-- Searching with a saved filter is searching with the filter that its row is read as, page by
page. -/
theorem searchSaved_row {c : Catalog} {key t : Bytes} {n : FileFilter} {row : SavedFilterRow}
    (hkey : normalized E key 128 false true = .ok key)
    (hrow : c.tables.savedFilters.find key = some row) (ht : row.filter = t)
    (hread : parseFilter E t = .ok n) (cursor : Option FileCursor) (limit : Nat)
    (page : FilePage) :
    searchSaved E S c key cursor limit = .ok page ↔ search E S c n cursor limit = .ok page := by
  subst ht
  have hsaved : savedFilter E c.tables key = .ok (some ⟨key, row.name, n⟩) := by
    unfold savedFilter
    rw [bind_ok]
    refine ⟨key, hkey, ?_⟩
    rw [hrow]
    simp only [bind_ok, pure_ok]
    exact ⟨n, hread, rfl⟩
  simp only [searchSaved, bind_ok, orFail_ok]
  constructor
  · rintro ⟨_, -, found, hfound, saved, rfl, h⟩
    obtain rfl := Option.some.inj (Except.ok.inj (hfound.symm.trans hsaved))
    exact h
  · intro h
    refine ⟨(), ?_, _, hsaved, _, rfl, h⟩
    simp only [search, bind_ok] at h
    obtain ⟨_, -, _, -, _, -, _, hintact, -⟩ := h
    exact hintact

/-- **Saved filters mean what was saved.** For every filter that is accepted, the document of its
normal form is read back as the normal form, which is its own normal form and finds the same
pages by the same cursors in every catalog. So what is saved under a key finds in every later
catalog, until the key is saved to again or removed, the pages that the filter finds. -/
theorem filters_faithful (hU : FoldStable E.unicode) :
    (∀ f n, normalizeFilter E f = .ok n →
      (∃ t, E.json.dump (filterJson n) = .ok t ∧ parseFilter E t = .ok n) ∧
      normalizeFilter E n = .ok n ∧
      ∀ c cursor limit, search E S c n cursor limit = search E S c f cursor limit) ∧
    ∀ allowed c name f random saved c', Reached E allowed c →
      saveFilter E c name f random = (.ok saved, c') →
      normalizeFilter E f = .ok saved.filter ∧
      ∀ events c'', Run (Step E) c' events c'' → (∀ e ∈ events, ¬ Replaces E saved.key e) →
      ∀ cursor limit page, searchSaved E S c'' saved.key cursor limit = .ok page ↔
        search E S c'' f cursor limit = .ok page := by
  refine ⟨fun f n h => ?_, ?_⟩
  · have hnormal := normalizeFilter_normal hU h
    obtain ⟨t, ht, -⟩ := hnormal.document
    exact ⟨⟨t, ht, hnormal.parse ht⟩, hnormal.eq, search_normal S hU h⟩
  · intro allowed c name f random saved c' hc h
    unfold saveFilter at h
    split at h
    · cases h
    · next heq =>
        obtain ⟨hsaved, hc'⟩ := Prod.mk.inj h
        obtain rfl := Except.ok.inj hsaved
        simp only [bind_ok] at heq
        obtain ⟨name', -, n, hn, _, -, hstore⟩ := heq
        have hstored := storeFilter_stored hstore
        have hnormal := normalizeFilter_normal hU hn
        obtain ⟨row, hrow, -, htext⟩ := hstored.row
        refine ⟨hstored.answer ▸ hn, fun events c'' hrun hevents cursor limit page => ?_⟩
        have hkept := run_kept hrun hevents
        rw [← hc'] at hkept
        have hkey := hstored.key_normal (.reached hc)
        rw [searchSaved_row S hkey (hkept.trans hrow) rfl (hnormal.parse htext),
          search_normal S hU hn]

/-- ASCII texts fold by their letters. The laws are checked for all bytes by computation, and go
over to texts byte by byte. -/
theorem foldStable_reference : FoldStable Unicode.reference := by
  have hlower : ∀ b : UInt8, lower (lower b) = lower b ∧ (b < 128 → lower b < 128) ∧
      (lower b = 0 → b = 0) ∧ (lower b ∈ ([32, 9, 13, 10] : Bytes)
        → b ∈ ([32, 9, 13, 10] : Bytes)) := by
    intro b
    have hbytes : ∀ n : Fin 256, lower (lower (.ofNat n)) = lower (.ofNat n) ∧
        ((.ofNat n : UInt8) < 128 → lower (.ofNat n) < 128) ∧
        (lower (.ofNat n) = 0 → (.ofNat n : UInt8) = 0) ∧
        (lower (.ofNat n) ∈ ([32, 9, 13, 10] : Bytes) →
          (.ofNat n : UInt8) ∈ ([32, 9, 13, 10] : Bytes)) := by
      decide +kernel
    have hb := hbytes ⟨b.toNat, b.toNat_lt⟩
    rwa [UInt8.ofNat_toNat] at hb
  have hfolded : ∀ s t, Unicode.reference.map true s = some t →
      t = s.map lower ∧ ∀ b ∈ t, b < 128 := by
    intro s t h
    simp only [Unicode.reference] at h
    split at h
    · next hs =>
        obtain rfl : s.map lower = t := Option.some.inj h
        refine ⟨rfl, fun b hb => ?_⟩
        obtain ⟨a, ha, rfl⟩ := List.mem_map.1 hb
        exact (hlower a).2.1 (of_decide_eq_true (List.all_eq_true.1 hs a ha))
    · cases h
  have hascii : ∀ (fold : Bool) (t : Bytes), (∀ b ∈ t, b < 128) → t.map lower = t →
      Unicode.reference.map fold t = some t := by
    intro fold t ht hlow
    have hall : t.all (· < 128) = true := List.all_eq_true.2 fun b hb => decide_eq_true (ht b hb)
    cases fold with
    | true =>
        show (if t.all (· < 128) then some (t.map lower) else none) = some t
        rw [if_pos hall, hlow]
    | false => exact if_pos hall
  have htwice : ∀ s : Bytes, (s.map lower).map lower = s.map lower := by
    intro s
    rw [List.map_map]
    exact List.map_congr_left fun b _ => (hlower b).1
  constructor
  · intro s t h
    obtain ⟨rfl, hbytes⟩ := hfolded s t h
    exact hascii true _ hbytes (htwice s)
  · intro s t h
    obtain ⟨rfl, hbytes⟩ := hfolded s t h
    exact hascii false _ hbytes (htwice s)
  · intro s t h hs hmem
    obtain ⟨rfl, -⟩ := hfolded s t h
    obtain ⟨b, hb, hzero⟩ := List.mem_map.1 hmem
    exact hs ((hlower b).2.2.1 hzero ▸ hb)
  · intro s t h hblank
    obtain ⟨rfl, -⟩ := hfolded s t h
    rw [List.all_eq_true] at hblank ⊢
    intro b hb
    have hspace := of_decide_eq_true (hblank (lower b) (List.mem_map_of_mem hb))
    exact decide_eq_true ((hlower b).2.2.2 hspace)

/-- A filter to save: a word, a directory, a keyword that is given twice, a colour and bounds. -/
def sampleFilter : FileFilter :=
  ⟨ascii "Holiday", ascii "trips", [ascii "Sea", ascii "SEA"], [], [.blue], [], some 2, none, none,
    some 4096, .empty⟩

/-- The categories of the ASCII letters and digits, and an engine that finds every row. -/
def sampleSearch : SearchLibraries where
  categories := .reference
  matching rows _ := pure (rows.map (·.rowid))

/-- Annotations that the sample filter asks for, but for their rating. -/
def rated (rating : Nat) : FileMetadata :=
  { FileMetadata.initial with title := ascii "Holiday", keywords := [ascii "SEA"], rating := rating,
                              color := .blue }

/-- A catalog with two files that the sample filter asks for, both with their companions pending. -/
def holiday : Catalog :=
  let create (c : Catalog) (name : String) (n : UInt8) : Catalog :=
    (createFile .reference c (ascii name) [n] (rated 3) (sampleDraws n)
      (.done ⟨samplePhysical name "v" 1, none⟩) (.failed "disk is full")).2
  create (create sample "trips/a" 1) "trips/b" 3

/-- The sample with one filter is reached. -/
theorem reached_holiday {allowed : FileSystem → FileSystem → Prop} :
    Reached .reference allowed holiday :=
  (Reached.called (.fresh (ascii "c") _) (.createFile _ _ _ _ _ _)).called
    (.createFile _ _ _ _ _ _)

/-- The sample filter is saved in a catalog with two files that it asks for. When one of them has
lost its rating, what is saved finds the other one, as the filter does. -/
theorem filters_faithful_sample : ∃ saved c' e c'' before after,
    saveFilter .reference holiday (ascii "Trips") sampleFilter (fun _ => 1) = (.ok saved, c') ∧
    normalizeFilter .reference sampleFilter = .ok saved.filter ∧
    searchSaved .reference sampleSearch c' saved.key none 10 = .ok before ∧
    before.files.length = 2 ∧ Step .reference c' e c'' ∧
    search .reference sampleSearch c'' sampleFilter none 10 = .ok after ∧
    after.files.length = 1 ∧
    searchSaved .reference sampleSearch c'' saved.key none 10 = .ok after := by
  have hok : (do
      let result := saveFilter .reference holiday (ascii "Trips") sampleFilter fun _ => 1
      let _ ← result.1
      let before ← search .reference sampleSearch result.2 sampleFilter none 10
      failIf (before.files.length ≠ 2) "unexpected"
      let metadata ← normalizeMetadata .reference (rated 1)
      let row ← orFail "no file" result.2.tables.files.rows.head?
      let db ← Catalog.update .reference result.2.fs result.2.tables row.key row.revision metadata
      let after ← search .reference sampleSearch ⟨result.2.fs, db⟩ sampleFilter none 10
      failIf (after.files.length ≠ 1) "unexpected").isOk = true := by
    decide +kernel
  obtain ⟨_, h⟩ := exists_of_isOk hok
  simp only [bind_ok, failIf_ok, orFail_ok, ne_eq, not_not] at h
  obtain ⟨saved, hsaved, before, hbefore, _, hcount, metadata, hmetadata, row, -, db,
    hupdate, after,
    hafter, hleft⟩ := h
  generalize hresult : saveFilter .reference holiday (ascii "Trips") sampleFilter
    (fun _ => 1) = result at hsaved hbefore hupdate hafter
  obtain ⟨answer, c'⟩ := result
  obtain rfl : answer = .ok saved := hsaved
  obtain ⟨hnormal, hpages⟩ := (filters_faithful sampleSearch foldStable_reference).2
    (fun _ _ => True) holiday _ _ _ _ _ reached_holiday hresult
  have hstep : Step .reference c' (.update row.key metadata) ⟨c'.fs, db⟩ :=
    .update hmetadata hupdate
  refine ⟨saved, c', _, _, before, after, rfl, hnormal, ?_, hcount, hstep, hafter, hleft, ?_⟩
  · exact (hpages [] c' (.nil c') (by simp) none 10 before).2 hbefore
  · exact (hpages [_] _ (.cons hstep (.nil _)) (by simp [Replaces]) none 10 after).2 hafter

end Catalog

end FileProvider
