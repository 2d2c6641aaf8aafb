import FileProvider.Catalog.SavedFilters
import FileProvider.Catalog.SideTables

/-!
# Pages of a search

A search is of what the annotations of the files say: `selects_iff` reads the conditions of its
query, which are on the tables beside the files, as conditions on the files. Its pages are read with
cursors while others commit, and `Reads` is that system: the pages a reader collects are the files
of one state.

What the full-text engine finds is a parameter (`Finds`): the rows that a word begins in. A page is
accepted only while the catalog has the revision of the first one (`Since`), which is what makes the
pages those of one state.
-/

namespace FileProvider

open Bytes Fallible

/-- What a search shows of a file. -/
def CatalogFile.summary (f : CatalogFile) : CatalogFileSummary :=
  ⟨f.key, f.index, f.revision, f.path, f.size, f.modifiedAtNs, f.contentVersion, f.metadata.title,
    f.metadata.rating, f.metadata.color, f.metadataPending⟩

/-- What a search shows of a file, but for whether its companion is pending: a publication takes
that away and is no change of the catalog. -/
def CatalogFileSummary.described (s : CatalogFileSummary) : CatalogFileSummary :=
  { s with metadataPending := false }

namespace Catalog

variable {E : CatalogLibraries} {S : SearchLibraries} {db db' : CatalogTables} {f : FileFilter}

/-! ## Paths below a directory -/

/-- A path is a directory, or stands in it. -/
def Below (directory path : Bytes) : Prop :=
  path = directory ∨ ∃ rest, path = directory ++ 47 :: rest

/-- What lies between two strings that differ in their last letter, by one, starts with the
first. -/
theorem between_iff (p q : List ℕ) (a : ℕ) :
    ¬ q < p ++ [a] ∧ q < p ++ [a + 1] ↔ ∃ r, q = p ++ a :: r := by
  induction p generalizing q with
  | nil =>
      cases q with
      | nil => simp
      | cons b q =>
          simp only [List.nil_append, List.cons_lt_cons_iff, List.not_lt_nil, and_false, or_false,
            List.cons.injEq, exists_and_left, exists_eq', and_true]
          omega
  | cons c p ih =>
      cases q with
      | nil => simp
      | cons b q =>
          simp only [List.cons_append, List.cons_lt_cons_iff, List.cons.injEq, exists_and_left,
            ← ih, not_or, not_and]
          constructor
          · rintro ⟨⟨hle, hrest⟩, hlt | ⟨rfl, hlt⟩⟩
            · exact absurd hlt hle
            · exact ⟨rfl, hrest rfl, hlt⟩
          · rintro ⟨rfl, hle, hlt⟩
            exact ⟨⟨lt_irrefl _, fun _ => hle⟩, .inr ⟨rfl, hlt⟩⟩

/-- **The two bounds of the query are those of a directory.** Texts between the directory with a
slash and the directory with the byte behind it are those that begin with the directory and a slash.
-/
theorem under_iff (directory path : Bytes) : Under directory path ↔ Below directory path := by
  refine or_congr_right ?_
  have hslash : order (directory ++ [47]) = order directory ++ [47] := List.map_append
  have hzero : order (directory ++ [48]) = order directory ++ [47 + 1] := List.map_append
  rw [hslash, hzero, ← not_lt, between_iff]
  constructor
  · rintro ⟨rest, hrest⟩
    obtain ⟨start, tail, rfl, hstart, htail⟩ := List.map_eq_append_iff.1 hrest
    obtain ⟨b, rest, rfl, hb, -⟩ := List.map_eq_cons_iff.1 htail
    obtain rfl := order_injective hstart
    obtain rfl : b = 47 := UInt8.toNat_inj.1 hb
    exact ⟨rest, rfl⟩
  · rintro ⟨rest, rfl⟩
    exact ⟨order rest, List.map_append⟩

/-! ## What a filter asks for -/

/-- What the full-text engine is taken to be: it finds the rows that an expression hits, each by
what the row says. -/
structure Finds (S : SearchLibraries) (hit : Bytes → SearchRow → Prop) : Prop where
  mem : ∀ rows expression ids, S.matching rows expression = .ok ids → ∀ id,
    id ∈ ids ↔ ∃ s ∈ rows, s.rowid = id ∧ hit expression s

/-- A file is what a filter asks for: each of its parts is without effect where it is empty. -/
structure Matches (E : CatalogLibraries) (S : SearchLibraries) (hit : Bytes → SearchRow → Prop)
    (f : FileFilter) (file : CatalogFile) : Prop where
  text : f.text = [] ∨ ∃ expression, matchExpression S.categories f.text = .ok expression ∧
    hit expression (searchRow file.index file.path file.metadata)
  path : f.pathPrefix = [] ∨ Below f.pathPrefix file.path
  rating : Within f.minimumRating f.maximumRating file.metadata.rating
  size : Within f.minimumSize f.maximumSize file.size
  allKeywords : ∀ term ∈ f.allKeywords, HasTerm E file.metadata term
  anyKeywords : f.anyKeywords = [] ∨ ∃ term ∈ f.anyKeywords, HasTerm E file.metadata term
  collections : f.collections = [] ∨ ∃ key ∈ f.collections, key ∈ file.metadata.collections
  colors : f.colors = [] ∨ file.metadata.color ∈ f.colors
  fields : ∀ e ∈ f.fields.entries, e ∈ file.metadata.fields.entries

/-- What the row of a file and the tables beside it say of it is what its annotation says. -/
theorem Indexes.entry {r : FileRow} {m : FileMetadata} {file : CatalogFile}
    (h : Indexes E db r m) (hfile : entry E db r = .ok file) :
    file.index = r.id ∧ file.path = r.path ∧ file.size = r.size ∧
      file.metadata = { m with collections := db.memberships r.id } := by
  obtain ⟨j, n, hj, hn, rfl⟩ := entry_ok hfile
  obtain rfl := annotation_read h.normal h.dumped hj hn
  exact ⟨rfl, rfl, rfl, rfl⟩

/-- A file is matched exactly when there is no text, or its search row is hit by the expression of
the text. -/
theorem matched_iff {hit : Bytes → SearchRow → Prop} (hS : Finds S hit) {r : FileRow}
    {m : FileMetadata} (hm : Indexes E db r m) {text : Bytes} {ids : Option (List Nat)}
    (h : matched S db text = .ok ids) : (∀ l ∈ ids, r.id ∈ l) ↔ text = [] ∨
      ∃ expression, matchExpression S.categories text = .ok expression ∧
        hit expression (searchRow r.id r.path m) := by
  unfold matched at h
  split at h
  · next hempty =>
      obtain rfl := pure_ok.1 h
      exact ⟨fun _ => .inl hempty, fun _ l hl => by cases hl⟩
  · next hwords =>
      simp only [bind_ok, map_ok] at h
      obtain ⟨expression, hexpression, l, hl, rfl⟩ := h
      have hfound := hS.mem _ _ _ hl r.id
      have hrow : ∀ s ∈ db.search.rows, s.rowid = r.id → s = searchRow r.id r.path m := by
        intro s hs hid
        exact Option.some.inj ((Table.find_eq_some.2 ⟨hs, hid⟩).symm.trans hm.search)
      simp only [Option.mem_some_iff, forall_eq', hwords, false_or, hfound]
      constructor
      · rintro ⟨s, hs, hid, hhit⟩
        exact ⟨expression, hexpression, hrow s hs hid ▸ hhit⟩
      · rintro ⟨expression', hexpression', hhit⟩
        obtain rfl := Except.ok.inj (hexpression.symm.trans hexpression')
        exact ⟨_, Table.mem_of_find hm.search, rfl, hhit⟩

/-- **A query selects the files that its filter asks for.** Each condition of the query is on the
row or on a table beside it, which says what the annotation of the file does. -/
theorem selects_iff {hit : Bytes → SearchRow → Prop} (hS : Finds S hit) (hdb : Indexed E db)
    {r : FileRow} (hr : r ∈ db.files) {file : CatalogFile} (hfile : entry E db r = .ok file)
    {ids : Option (List Nat)} (hids : matched S db f.text = .ok ids) :
    Selects db f ids r ↔ Matches E S hit f file := by
  obtain ⟨m, hm⟩ := hdb r hr
  obtain ⟨hindex, hpath, hsize, hmetadata⟩ := hm.entry hfile
  have hcolor : (∃ c ∈ f.colors, r.color = c.code) ↔ m.color ∈ f.colors := by
    rw [hm.color]
    constructor
    · rintro ⟨c, hc, hcode⟩
      have hsame := congrArg ColorLabel.ofCode hcode
      rw [ColorLabel.ofCode_code, ColorLabel.ofCode_code] at hsame
      exact hsame ▸ hc
    · exact fun hc => ⟨_, hc, rfl⟩
  have hmembers : ∀ key, ⟨r.id, key⟩ ∈ db.members.rows ↔ key ∈ db.memberships r.id :=
    fun key => CatalogTables.mem_memberships.symm
  have hterm : ∀ term, HasTerm E file.metadata term ↔ HasTerm E m term := by
    intro term
    rw [hmetadata]
    rfl
  have hrow : searchRow file.index file.path file.metadata = searchRow r.id r.path m := by
    rw [hindex, hpath, hmetadata]
    rfl
  simp only [Selects, matched_iff hS hm hids, under_iff, hm.keywords, hm.fields, hcolor, hmembers,
    hm.rating]
  constructor
  · rintro ⟨htext, hprefix, hrating, hsize', hall, hany, hcollections, hcolors, hfields⟩
    refine ⟨hrow.symm ▸ htext, hpath.symm ▸ hprefix, ?_, hsize.symm ▸ hsize', ?_, ?_, ?_, ?_, ?_⟩
    · rw [hmetadata]
      exact hrating
    · simpa only [hterm] using hall
    · simpa only [hterm] using hany
    · rw [hmetadata]
      exact hcollections
    · rw [hmetadata]
      exact hcolors
    · rw [hmetadata]
      exact hfields
  · rintro ⟨htext, hprefix, hrating, hsize', hall, hany, hcollections, hcolors, hfields⟩
    rw [hmetadata] at hrating hcollections hcolors hfields
    refine ⟨hrow ▸ htext, hpath ▸ hprefix, hrating, hsize ▸ hsize', ?_, ?_, hcollections, hcolors,
      hfields⟩
    · simpa only [hterm] using hall
    · simpa only [hterm] using hany

/-! ## Listings -/

/-- The files of a state that a filter asks for, in the order of their indices. -/
structure Listing (E : CatalogLibraries) (S : SearchLibraries) (hit : Bytes → SearchRow → Prop)
    (db : CatalogTables) (f : FileFilter) (files : List CatalogFile) : Prop where
  ascending : files.Pairwise fun a b => a.index < b.index
  mem : ∀ file, file ∈ files ↔
    (∃ r ∈ db.files, entry E db r = .ok file) ∧ Matches E S hit f file

/-- The index of a row, as a query compares it. -/
def rowIndex (r : FileRow) : Int := r.id

/-- Selected rows are distinct. -/
theorem selected_nodup (db : CatalogTables) (p : FileRow → Bool) :
    ((db.files.rows.filter p).map FileRow.id).Nodup :=
  db.files.nodup.sublist (List.filter_sublist.map FileRow.id)

/-- Selected rows come in the order of their index. -/
theorem selected_ascending (db : CatalogTables) (f : FileFilter) (ids : Option (List Nat))
    (after : Int) : Keyset.Ascending rowIndex (selected db f ids after) :=
  (Keyset.ascending_orderBy (selected_nodup db _)).imp fun h => Int.ofNat_lt.2 h

/-- The rows after an index are those of the whole listing that stand past it. -/
theorem selected_eq_past (db : CatalogTables) (f : FileFilter) (ids : Option (List Nat))
    {after : Int} (hafter : 0 ≤ after) :
    selected db f ids after = Keyset.past rowIndex (selected db f ids 0) after := by
  unfold selected Keyset.past
  rw [← Keyset.orderBy_filter (selected_nodup db _), List.filter_filter]
  refine congrArg _ (List.filter_congr fun r _ => ?_)
  have hiff : (after < r.id ∧ Selects db f ids r) ↔
      after < rowIndex r ∧ (0 : Int) < r.id ∧ Selects db f ids r :=
    ⟨fun h => ⟨h.1, hafter.trans_lt h.1, h.2⟩, fun h => ⟨h.1, h.2.2⟩⟩
  rw [← Bool.decide_and, decide_eq_decide]
  exact hiff

/-- From the start, the rows selected are those that the filter selects. -/
theorem mem_selected {r : FileRow} {ids : Option (List Nat)} (hdb : Indexed E db) :
    r ∈ selected db f ids 0 ↔ r ∈ db.files ∧ Selects db f ids r := by
  rw [selected, Keyset.mem_orderBy, List.mem_filter, decide_eq_true_eq]
  constructor
  · rintro ⟨hr, -, hselects⟩
    exact ⟨hr, hselects⟩
  · rintro ⟨hr, hselects⟩
    obtain ⟨m, hm⟩ := hdb r hr
    exact ⟨hr, Int.ofNat_lt.2 hm.numbered, hselects⟩

/-- Valid rows are read as entries, row by row. -/
theorem exists_entries (hdb : RowsValid E db) {rows : List FileRow}
    (hrows : ∀ r ∈ rows, r ∈ db.files) :
    ∃ files, List.Forall₂ (fun r file => entry E db r = .ok file) rows files := by
  induction rows with
  | nil => exact ⟨[], .nil⟩
  | cons r rows ih =>
      obtain ⟨hr, hrows⟩ := List.forall_mem_cons.1 hrows
      obtain ⟨files, hfiles⟩ := ih hrows
      obtain ⟨file, hfile⟩ := (hdb r hr).entry db
      exact ⟨file :: files, .cons hfile hfiles⟩

/-- The entries are those of the rows. -/
theorem mem_entries {rows : List FileRow} {files : List CatalogFile}
    (h : List.Forall₂ (fun r file => entry E db r = .ok file) rows files) (file : CatalogFile) :
    file ∈ files ↔ ∃ r ∈ rows, entry E db r = .ok file := by
  induction h with
  | nil => simp
  | cons hfile _ ih =>
      rw [List.mem_cons, List.exists_mem_cons_iff, ih, hfile, Except.ok.injEq, eq_comm]

/-- What a search shows of a row is what it shows of the file of the row. -/
theorem summary_entry (hdb : Indexed E db) {r : FileRow} (hr : r ∈ db.files) {file : CatalogFile}
    (hfile : entry E db r = .ok file) : summary db r = file.summary := by
  obtain ⟨m, hm⟩ := hdb r hr
  obtain ⟨-, -, -, hmetadata⟩ := hm.entry hfile
  obtain ⟨j, n, -, -, rfl⟩ := entry_ok hfile
  unfold CatalogFile.summary
  rw [hmetadata]
  unfold summary
  rw [hm.title, hm.rating, hm.color, ColorLabel.ofCode_code]

/-- **The rows a query selects are the listing of its filter.** They stand in the order of their
indices, each once, and each of them is shown as its row is. -/
theorem exists_listing {hit : Bytes → SearchRow → Prop} (hS : Finds S hit) (hdb : Indexed E db)
    (hrows : RowsValid E db) {ids : Option (List Nat)} (hids : matched S db f.text = .ok ids) :
    ∃ files, Listing E S hit db f files ∧
      (selected db f ids 0).map (fun r => (summary db r).described)
        = files.map fun file => file.summary.described := by
  have hmem : ∀ r ∈ selected db f ids 0, r ∈ db.files := fun r hr => ((mem_selected hdb).1 hr).1
  obtain ⟨files, hfiles⟩ := exists_entries hrows hmem
  have hindices : (selected db f ids 0).map FileRow.id = files.map (·.index) := by
    rw [← List.forall₂_eq_eq_eq, List.forall₂_map_left_iff, List.forall₂_map_right_iff]
    refine hfiles.imp fun r file hfile => ?_
    obtain ⟨_, _, -, -, rfl⟩ := entry_ok hfile
    rfl
  refine ⟨files, ⟨?_, fun file => ?_⟩, ?_⟩
  · rw [← List.pairwise_map (f := fun file : CatalogFile => file.index) (R := (· < ·)), ← hindices,
      List.pairwise_map]
    exact (selected_ascending db f ids 0).imp fun h => Int.ofNat_lt.1 h
  · rw [mem_entries hfiles]
    constructor
    · rintro ⟨r, hr, hentry⟩
      obtain ⟨hr, hselects⟩ := (mem_selected hdb).1 hr
      exact ⟨⟨r, hr, hentry⟩, (selects_iff hS hdb hr hentry hids).1 hselects⟩
    · rintro ⟨⟨r, hr, hentry⟩, hmatches⟩
      have hselects := (selects_iff hS hdb hr hentry hids).2 hmatches
      exact ⟨r, (mem_selected hdb).2 ⟨hr, hselects⟩, hentry⟩
  · rw [← List.forall₂_eq_eq_eq, List.forall₂_map_left_iff, List.forall₂_map_right_iff]
    exact ((List.forall₂_and_left _ _).2 ⟨hmem, hfiles⟩).imp fun r file h =>
      congrArg CatalogFileSummary.described (summary_entry hdb h.1 h.2)

/-! ## Pages -/

/-- A page of the rows past an index: what it holds, and where the next one begins. The query asks
for one row more than the limit, and that row tells whether there is a next page; the cursor carries
the last index shown. -/
theorem filePage_split {rows : List FileRow} (hrows : Keyset.Ascending rowIndex rows)
    (signature : Bytes) {after : Int} {limit : Nat} (hlimit : limit ≠ 0) {page : FilePage}
    (hpage : page = filePage db signature limit
      (((Keyset.past rowIndex rows after).take (limit + 1)).map (summary db))) :
    page.files = (Keyset.page rowIndex rows after limit).map (summary db) ∧
      (page.next = none → Keyset.page rowIndex rows after limit = Keyset.past rowIndex rows after) ∧
      ∀ k, page.next = some k → k = ⟨db.catalogId, db.revision, k.afterIndex, signature⟩ ∧
        0 ≤ k.afterIndex ∧ Keyset.past rowIndex rows k.afterIndex
          = (Keyset.past rowIndex rows after).drop limit := by
  subst hpage
  have htake : (((Keyset.past rowIndex rows after).take (limit + 1)).map (summary db)).take limit
      = (Keyset.page rowIndex rows after limit).map (summary db) := by
    rw [← List.map_take, List.take_take, Nat.min_eq_left (Nat.le_succ limit)]
    rfl
  unfold filePage
  split
  · rw [htake]
    refine ⟨rfl, fun hnone => ?_, fun k hk => ?_⟩
    · next hmore =>
        rw [List.length_map, List.length_take] at hmore
        have hnil := List.getLast?_eq_none_iff.1 (Option.map_eq_none_iff.1 hnone)
        rw [List.map_eq_nil_iff, Keyset.page, List.take_eq_nil_iff] at hnil
        rcases hnil with hzero | hempty
        · exact absurd hzero hlimit
        · rw [hempty, List.length_nil] at hmore
          omega
    · rw [List.getLast?_map, Option.map_map] at hk
      obtain ⟨r, hr, rfl⟩ := Option.map_eq_some_iff.1 hk
      refine ⟨rfl, Int.natCast_nonneg _, ?_⟩
      have hrest := Keyset.past_lastKey hrows after limit
      unfold Keyset.lastKey at hrest
      rw [hr] at hrest
      exact hrest
  · next hall =>
      rw [List.length_map, List.length_take] at hall
      have hshort : (Keyset.past rowIndex rows after).length ≤ limit := by omega
      refine ⟨?_, fun _ => ?_, fun k hk => by cases hk⟩
      · rw [Keyset.page, List.take_of_length_le hshort, List.take_of_length_le (by omega)]
      · rw [Keyset.page, List.take_of_length_le hshort]

/-- What a search found. -/
structure Found (E : CatalogLibraries) (S : SearchLibraries) (c : Catalog) (input : FileFilter)
    (cursor : Option FileCursor) (limit : Nat) (page : FilePage) (filter : FileFilter)
    (signature : Bytes) (ids : Option (List Nat)) : Prop where
  positive : limit ≠ 0
  normal : normalizeFilter E input = .ok filter
  valid : ∀ k ∈ cursor, k.revision = c.tables.revision ∧ 0 ≤ k.afterIndex
  matched : matched S c.tables filter.text = .ok ids
  page_eq : page = filePage c.tables signature limit
    (((selected c.tables filter ids (cursor.elim 0 (·.afterIndex))).take (limit + 1)).map
      (summary c.tables))

/-- A page that is returned has been found as `Found` says. -/
theorem search_ok {c : Catalog} {input : FileFilter} {cursor : Option FileCursor} {limit : Nat}
    {page : FilePage} (h : search E S c input cursor limit = .ok page) :
    ∃ filter signature ids, Found E S c input cursor limit page filter signature ids := by
  simp only [search, cursorValid, bind_ok, failIf_ok, pure_ok, not_or, not_exists, not_and,
    not_not, not_lt] at h
  obtain ⟨_, ⟨hlimit, -⟩, filter, hfilter, signature, -, _, -, _, hcursor, ids, hids, _, -,
    _, -, _, -, _, -, rfl⟩ := h
  refine ⟨filter, signature, ids, hlimit, hfilter, fun k hk => ?_, hids, rfl⟩
  obtain ⟨-, hrevision, -, hafter⟩ := hcursor k hk
  exact ⟨hrevision, hafter⟩

/-! ## Readers -/

/-- A reader of the pages of a search: the cursor it goes on with, and what it has. -/
structure Reader where
  cursor : Option FileCursor
  pages : List FilePage
  finished : Bool

namespace Reader

/-- A reader that has nothing yet. -/
def start : Reader := ⟨none, [], false⟩

/-- A reader with one more page. -/
def more (r : Reader) (page : FilePage) : Reader :=
  ⟨page.next, r.pages ++ [page], page.next.isNone⟩

/-- What the pages show, one file after the other. -/
def shown (r : Reader) : List CatalogFileSummary :=
  (r.pages.flatMap (·.files)).map (·.described)

/-- A reader has been shown the files of the next page too. -/
theorem shown_more (r : Reader) (page : FilePage) :
    (r.more page).shown = r.shown ++ page.files.map (·.described) := by
  simp [shown, more]

end Reader

/-- What a step of a catalog and a reader shows. -/
inductive ReadEvent where
  | work (e : Event)
  | page (limit : Nat)

/-- A reader goes through the pages of a search, and between them the catalog takes steps. -/
inductive Reads (E : CatalogLibraries) (S : SearchLibraries) (input : FileFilter) :
    Catalog × Reader → ReadEvent → Catalog × Reader → Prop where
  | work {c c' : Catalog} {e : Event} {r : Reader} : Step E c e c' →
      Reads E S input (c, r) (.work e) (c', r)
  | page {c : Catalog} {r : Reader} {limit : Nat} {page : FilePage} : r.finished = false →
      search E S c input r.cursor limit = .ok page →
      Reads E S input (c, r) (.page limit) (c, r.more page)

variable {input filter : FileFilter} {ids : Option (List Nat)} {first c c' : Catalog}
  {r r' : Reader}

/-- The rows of a search read what a listing reads. -/
theorem SameListing.selected (h : SameListing db db') (f : FileFilter) (ids : Option (List Nat))
    (after : Int) : Catalog.selected db' f ids after = Catalog.selected db f ids after := by
  have hselects : ∀ r, Selects db' f ids r ↔ Selects db f ids r := by
    intro r
    unfold Selects
    rw [h.keywords, h.fields, h.members]
  unfold Catalog.selected
  rw [h.files]
  simp only [hselects]

/-- A text matches the same files where tables list the same. -/
theorem SameListing.matched (h : SameListing db db') (text : Bytes) :
    Catalog.matched S db' text = Catalog.matched S db text := by
  unfold Catalog.matched
  rw [h.search]

/-- What a reader has since its first page: with what its cursor leaves, it is the listing of the
state of that page. -/
structure Since (first : Catalog) (filter : FileFilter) (ids : Option (List Nat)) (c : Catalog)
    (r : Reader) : Prop where
  references : c.tables.References
  follows : Follows first.tables c.tables
  shown : r.shown <+: (selected first.tables filter ids 0).map
    fun row => (summary first.tables row).described
  finished : r.finished = true → r.shown = (selected first.tables filter ids 0).map
    fun row => (summary first.tables row).described
  rest : r.finished = false → ∃ k, r.cursor = some k ∧ k.revision = first.tables.revision ∧
    r.shown ++ (Keyset.past rowIndex (selected first.tables filter ids 0) k.afterIndex).map
        (fun row => (summary first.tables row).described)
      = (selected first.tables filter ids 0).map fun row => (summary first.tables row).described

/-- **A page that a cursor is accepted for is of the state of the first page.** -/
theorem Since.same (h : Since first filter ids c r) (hr : r.finished = false) {limit : Nat}
    {page : FilePage} (hpage : search E S c input r.cursor limit = .ok page) :
    SameListing first.tables c.tables := by
  obtain ⟨k, hk, hrevision, -⟩ := h.rest hr
  obtain ⟨_, _, _, hfound⟩ := search_ok hpage
  have hcurrent := (hfound.valid k hk).1
  exact h.follows.same (hcurrent.symm.trans hrevision)

/-- What a reader has after a page that goes on where it is. -/
theorem Since.more (hfollows : Follows first.tables c.tables) (hdb : c.tables.References)
    {rows : List FileRow} (hrows : rows = selected first.tables filter ids 0) {after : Int}
    {signature : Bytes} {limit : Nat} (hlimit : limit ≠ 0) {page : FilePage}
    (hrevision : c.tables.revision = first.tables.revision)
    (hpage : page = filePage c.tables signature limit
      (((Keyset.past rowIndex rows after).take (limit + 1)).map (summary c.tables)))
    (hshown : r.shown ++ (Keyset.past rowIndex rows after).map
        (fun row => (summary first.tables row).described)
      = rows.map fun row => (summary first.tables row).described) :
    Since first filter ids c (r.more page) := by
  subst hrows
  have hasc := selected_ascending first.tables filter ids 0
  obtain ⟨hfiles, hlast, hnext⟩ := filePage_split hasc signature hlimit hpage
  have hmore : (r.more page).shown = r.shown ++ (Keyset.page rowIndex
      (selected first.tables filter ids 0) after limit).map
        fun row => (summary first.tables row).described := by
    rw [Reader.shown_more, hfiles, List.map_map]
    rfl
  have hsplit : (r.more page).shown ++ ((Keyset.past rowIndex
      (selected first.tables filter ids 0) after).drop limit).map
        (fun row => (summary first.tables row).described)
      = (selected first.tables filter ids 0).map
        fun row => (summary first.tables row).described := by
    rw [hmore, List.append_assoc, Keyset.page, ← List.map_append, List.take_append_drop]
    exact hshown
  refine ⟨hdb, hfollows, ⟨_, hsplit⟩, fun hfinished => ?_, fun hgoes => ?_⟩
  · have hnone : page.next = none := Option.isNone_iff_eq_none.1 hfinished
    rw [hmore, hlast hnone]
    exact hshown
  · have hnone : page.next.isNone = false := hgoes
    obtain ⟨k, hk⟩ := Option.ne_none_iff_exists'.1
      (Option.isNone_eq_false_iff.1 hnone |> Option.isSome_iff_ne_none.1)
    obtain ⟨hk', -, hrest⟩ := hnext k hk
    refine ⟨k, hk, ?_, ?_⟩
    · rw [hk']
      exact hrevision
    · rw [hrest]
      exact hsplit

/-- Each step keeps a reader on the listing of its first page, or ends its reading. A step of the
catalog leaves the reader, and a page goes on in the listing or is refused for its revision. -/
theorem Since.step {e : ReadEvent} (h : Since first filter ids c r)
    (hfilter : normalizeFilter E input = .ok filter)
    (hids : Catalog.matched S first.tables filter.text = .ok ids)
    (hstep : Reads E S input (c, r) e (c', r')) : Since first filter ids c' r' := by
  cases hstep with
  | work hstep =>
      exact ⟨(hstep.moves h.references).1, h.follows.trans (hstep.follows h.references), h.shown,
        h.finished, h.rest⟩
  | page hr hpage =>
      have hsame := h.same hr hpage
      obtain ⟨k, hk, hrevision, hshown⟩ := h.rest hr
      obtain ⟨filter', signature, ids', hfound⟩ := search_ok hpage
      obtain rfl := Except.ok.inj (hfilter.symm.trans hfound.normal)
      have hids' := hfound.matched
      rw [hsame.matched] at hids'
      obtain rfl := Except.ok.inj (hids.symm.trans hids')
      have hpage := hfound.page_eq
      rw [hk, Option.elim_some, hsame.selected,
        selected_eq_past _ _ _ (hfound.valid k hk).2] at hpage
      exact .more h.follows h.references rfl hfound.positive hsame.revision hpage hshown

/-- A reader that has a page has a first one. -/
theorem first_page {events : List ReadEvent}
    (h : Run (Reads E S input) (c, .start) events (c', r)) : r = .start ∨
      ∃ before after first limit page, events = before ++ .page limit :: after ∧
        Run (Reads E S input) (c, .start) before (first, .start) ∧
        search E S first input none limit = .ok page ∧
        Run (Reads E S input) (first, Reader.start.more page) after (c', r) := by
  induction events generalizing c with
  | nil =>
      cases h
      exact .inl rfl
  | cons e events ih =>
      obtain ⟨t, hstep, hrest⟩ := h.uncons
      cases hstep with
      | work hwork =>
          refine (ih hrest).imp_right ?_
          rintro ⟨before, after, first, limit, page, rfl, hbefore, hpage, hafter⟩
          exact ⟨.work _ :: before, after, first, limit, page, rfl, .cons (.work hwork) hbefore,
            hpage, hafter⟩
      | page hr hpage => exact .inr ⟨[], events, c, _, _, rfl, .nil _, hpage, hrest⟩

/-- A catalog that a reader works beside stays a reachable one. -/
theorem reached_beside {events : List ReadEvent} (h : Reached E (fun _ _ => True) c)
    (hrun : Run (Reads E S input) (c, r) events (c', r')) : Reached E (fun _ _ => True) c' := by
  refine hrun.invariant (I := fun s => Reached E (fun _ _ => True) s.1) ?_ h
  intro s e t hs hstep
  cases hstep with
  | work hstep =>
      obtain ⟨id, fs, before, hbefore, -⟩ := hs
      exact ⟨id, fs, _, hbefore.snoc hstep, fun _ _ _ => trivial⟩
  | page => exact hs

/-- What the catalog does beside a reader. -/
theorem reads_of_run {events : List Event} (h : Run (Step E) c events c') (r : Reader) :
    Run (Reads E S input) (c, r) (events.map .work) (c', r) := by
  induction h with
  | nil => exact .nil _
  | cons hstep _ ih => exact .cons (.work hstep) ih

/-- **A search is of one state.** However the catalog works between them, the pages that a reader
follows are the files of one state that the filter asks for, each once and in order, as far as the
reader got and all of them where it came to the end; and a cursor is refused once anything that a
search reads has changed. -/
theorem search_one_state {hit : Bytes → SearchRow → Prop} (hS : Finds S hit)
    (h : Reached E (fun _ _ => True) c) {events : List ReadEvent}
    (hrun : Run (Reads E S input) (c, .start) events (c', r)) (hpages : r.pages ≠ []) :
    ∃ before after first filter files, events = before ++ after ∧
      Run (Reads E S input) (c, .start) before (first, .start) ∧
      Run (Reads E S input) (first, .start) after (c', r) ∧
      normalizeFilter E input = .ok filter ∧ Listing E S hit first.tables filter files ∧
      r.shown <+: files.map (fun file => file.summary.described) ∧
      (r.finished = true → r.shown = files.map fun file => file.summary.described) ∧
      ∀ limit page, r.finished = false → search E S c' input r.cursor limit = .ok page →
        SameListing first.tables c'.tables := by
  rcases first_page hrun with rfl | ⟨before, after, first, limit, page, rfl, hbefore, hpage, hafter⟩
  · exact absurd rfl hpages
  have hfirst := reached_beside h hbefore
  obtain ⟨filter, signature, ids, hfound⟩ := search_ok hpage
  have hindexed := Indexed.reached hfirst
  obtain ⟨files, hlisting, hsame⟩ :=
    exists_listing hS hindexed (Readable.reached hfirst).2 hfound.matched
  have hstart : Since first filter ids first (Reader.start.more page) := by
    have hall := selected_eq_past first.tables filter ids le_rfl
    have hpage := hfound.page_eq
    rw [Option.elim_none, hall] at hpage
    refine .more (.refl _) (References.reached hfirst) rfl hfound.positive rfl hpage ?_
    rw [← hall]
    rfl
  have hsince := hafter.invariant (I := fun s : Catalog × Reader => Since first filter ids s.1 s.2)
    (fun hs hstep => hs.step hfound.normal hfound.matched hstep) hstart
  refine ⟨before, .page limit :: after, first, filter, files, rfl, hbefore,
    .cons (.page rfl hpage) hafter, hfound.normal, hlisting, ?_, ?_, ?_⟩
  · rw [← hsame]
    exact hsince.shown
  · rw [← hsame]
    exact hsince.finished
  · exact fun limit page hr hpage => hsince.same hr hpage

/-- Two pages of one file each, and between them the companions are published. Publishing changes
nothing that a search reads, so the cursor of the first page is accepted for the second. -/
theorem search_one_state_sample : ∃ (c' : Catalog) (r : Reader) (files : List CatalogFile)
    (first : Catalog) (events : List ReadEvent) (filter : FileFilter),
    Run (Reads .reference sampleSearch sampleFilter) (holiday, .start) events (c', r) ∧
      r.pages.length = 2 ∧
      Listing .reference sampleSearch (fun _ _ => True) first.tables filter files ∧
      r.shown = files.map fun file => file.summary.described := by
  have hok : (search .reference sampleSearch holiday sampleFilter none 1 >>= fun first =>
      search .reference sampleSearch (publishMetadata .reference holiday 2
          fun n => .done (samplePhysical "c" "w" n)).2 sampleFilter first.next 1 >>= fun second =>
        failIf (first.next = none ∨ second.next ≠ none) "unexpected").isOk = true := by
    decide +kernel
  obtain ⟨_, hok⟩ := exists_of_isOk hok
  obtain ⟨first, hfirst, hok⟩ := bind_ok.1 hok
  obtain ⟨second, hsecond, hok⟩ := bind_ok.1 hok
  rw [failIf_ok, not_or, not_not] at hok
  obtain ⟨hmore, hend⟩ := hok
  have hreach : Reached .reference (fun _ _ => True) holiday := reached_holiday
  obtain ⟨work, hwork, -⟩ := publishMetadata_leads (E := .reference) holiday 2
    fun n => .done (samplePhysical "c" "w" n)
  have hgoes : (Reader.start.more first).finished = false :=
    Option.isNone_eq_false_iff.2 (Option.isSome_iff_ne_none.2 hmore)
  have hrun : Run (Reads .reference sampleSearch sampleFilter) (holiday, .start) _
      (_, (Reader.start.more first).more second) :=
    (Run.cons (.page rfl hfirst) (reads_of_run hwork _)).snoc (.page hgoes hsecond)
  have hS : Finds sampleSearch fun _ _ => True := by
    refine ⟨fun rows expression ids hids id => ?_⟩
    obtain rfl := pure_ok.1 hids
    simp
  obtain ⟨_, _, state, filter, files, -, -, -, -, hlisting, -, hall, -⟩ :=
    search_one_state hS hreach hrun (by simp [Reader.more])
  have hfinished : ((Reader.start.more first).more second).finished = true :=
    Option.isNone_iff_eq_none.2 hend
  exact ⟨_, _, files, state, _, filter, hrun, rfl, hlisting, hall hfinished⟩

end Catalog

end FileProvider
