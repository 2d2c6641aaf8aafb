import FileProvider.Object.CompactIndex
import FileProvider.Ontology.Journal

/-!
# Queries of files

`OntologyFileSystem::queryFiles` selects rows of the compact index by the classes of a file, along
the children of the class that was asked for, and by its statements, and reads them in pages. Its
cursor carries the revision of the ontology and the end of the object journal, so a page is of the
state its cursor is of. `query_exact` says which files the pages give: those `hasType` is true of,
which goes from the classes of a file along their parents, and which have the statements.

A condition and a class each select a set of rows, and the query their intersection, in the order of
the index; `mem_selected` says of a row when it is selected. Pages are those of `Library.Keyset`.
-/

namespace FileProvider

open Bytes Fallible Ontology

variable {P : Platform} {L : JsonLibrary} {m : OntologyImpl} {objects : ObjectTables}
  {g : GraphTables} {o : OntologyTables} {query : OntologyQuery} {limit : Nat}

/-! ## The reader -/

structure OntologyCursor where
  revision : Nat
  fileSequence : Int
  afterIndexKey : Int
  fingerprint : Bytes
deriving DecidableEq

/-- The cursor of the first page. -/
def OntologyCursor.initial : OntologyCursor := ⟨0, 0, 0, []⟩

structure OntologyPage where
  revision : Nat
  fileSequence : Int
  files : List ObjectIndexEntry
  next : Option OntologyCursor

namespace OntologyFileSystem

/-- `SELECT coalesce(max(sequence),0) FROM object_journal`. -/
def fileSequence (objects : ObjectTables) : Int :=
  ((objects.objectJournal.rows.map (·.sequence)).max?.getD 0 : Nat)

/-- What the fingerprint of a cursor is the hash of. -/
def signed (m : OntologyImpl) (query : Bytes) : Bytes :=
  decimal m.container.length ++ [58] ++ m.container ++ query

/-- The state a page is of, as the cursors after its first page name it. -/
def currentCursor (P : Platform) (m : OntologyImpl) (objects : ObjectTables) (o : OntologyTables)
    (query : Bytes) : OntologyCursor :=
  ⟨o.revision, fileSequence objects, 0, P.hash (signed m query)⟩

/-- A cursor is the initial one, or of the current state and the same query. -/
def checkCursor (current cursor : OntologyCursor) : Fallible Unit := do
  failIf (cursor.afterIndexKey < 0 ∨ cursor.fileSequence < 0) "invalid ontology cursor"
  failIf (cursor ≠ .initial ∧ (cursor.revision ≠ current.revision
    ∨ cursor.fileSequence ≠ current.fileSequence ∨ cursor.fingerprint ≠ current.fingerprint))
    "stale or mismatched ontology cursor"

/-- The edges from each class to its children. -/
def childEdges (g : GraphTables) : List (Bytes × Bytes) :=
  g.parents.rows.map fun p => (p.parent, p.child)

/-- The class of a query, with its subclasses where they are included. -/
def selectedClasses (g : GraphTables) (query : OntologyQuery) : List Bytes :=
  if query.includeSubclasses then Reach.reach (childEdges g) [query.classKey]
  else [query.classKey]

/-- Whether the node of a type or a statement is that of a file. -/
def namesFile (g : GraphTables) (node key : Bytes) : Bool :=
  (g.nodes.find node).any fun n => n.objectKey = some key

/-- Whether a file has one of the classes. -/
def classSelects (g : GraphTables) (query : OntologyQuery) (key : Bytes) : Bool :=
  query.classKey = [] || g.types.rows.any fun t =>
    t.classKey ∈ selectedClasses g query && namesFile g t.resourceKey key

/-- A condition with the text of its value. -/
structure Selection where
  predicate : Bytes
  equals : Option (OntologyValueKind × Bytes)
deriving DecidableEq

def selection (L : JsonLibrary) (c : OntologyCondition) : Fallible Selection := do
  match c.equals with
  | none => pure ⟨c.propertyKey, none⟩
  | some v => do
      let value ← valueJson L v
      let dumped ← L.dump value
      pure ⟨c.propertyKey, some (v.kind, dumped)⟩

/-- The texts a condition binds. -/
def Selection.texts (c : Selection) : List Bytes := c.predicate :: (c.equals.map (·.2)).toList

/-- Whether a file has a statement of a condition. -/
def Selection.selects (c : Selection) (g : GraphTables) (key : Bytes) : Bool :=
  g.statements.rows.any fun s =>
    s.predicate = c.predicate && c.equals.all (fun v => s.kind = v.1 && s.value = v.2)
      && namesFile g s.subject key

/-- The rows a query selects. -/
def selected (objects : ObjectTables) (g : GraphTables) (query : OntologyQuery)
    (selections : List Selection) : List IndexRow :=
  objects.currentIndex.rows.filter fun i => (query.includeDeleted || i.deleted = false)
    && classSelects g query i.objectKey && selections.all (·.selects g i.objectKey)

/-- A page, from one row more than its limit. -/
def queryPage (current : OntologyCursor) (limit : Nat) (found : List ObjectIndexEntry) :
    OntologyPage :=
  if limit < found.length then
    ⟨current.revision, current.fileSequence, found.dropLast,
      found.dropLast.getLast?.map fun f => { current with afterIndexKey := f.indexKey }⟩
  else ⟨current.revision, current.fileSequence, found, none⟩

variable (P : Platform) (m : OntologyImpl) (objects : ObjectTables) (o : OntologyTables)

def files (query : OntologyQuery) (cursor : OntologyCursor) (limit : Nat) :
    Fallible OntologyPage := do
  pageLimit limit
  queryValid P.json objects o.graph query
  let encoded ← queryJson P.json query
  let dumped ← P.json.dump encoded
  let current := currentCursor P m objects o dumped
  checkCursor current cursor
  let selections ← query.conditions.mapM (selection P.json)
  bindTexts (query.classKey :: selections.flatMap (·.texts))
  let rows := (selected objects o.graph query selections).filter
    fun i => cursor.afterIndexKey < i.indexKey
  pure (queryPage current limit
    (((Keyset.orderBy (·.indexKey) rows).take (limit + 1)).map ObjectStore.indexEntry))

def queryFiles (query : OntologyQuery) (cursor : OntologyCursor) (limit : Nat)
    (cancellation : StopToken) : Fallible OntologyPage := do
  failIf (cancellation 0 = true) "ontology operation cancelled"
  let result ← files P m objects o query cursor limit
  failIf (cancellation 1 = true) "ontology operation cancelled"
  pure result

/-- What a reader collects who follows the cursors with the given limits, and the cursor it stops
at, unless it came to the end. -/
def followQuery (fetch : OntologyCursor → Nat → Fallible OntologyPage) :
    List Nat → OntologyCursor → Fallible (List ObjectIndexEntry × Option OntologyCursor)
  | [], cursor => pure ([], some cursor)
  | limit :: limits, cursor => do
      let page ← fetch cursor limit
      match page.next with
      | none => pure (page.files, none)
      | some next => do
          let (rest, stopped) ← followQuery fetch limits next
          pure (page.files ++ rest, stopped)

end OntologyFileSystem

open OntologyFileSystem

/-! ## What a query asks for -/

/-- A file has a class: by inheritance where subclasses are included, directly otherwise. -/
def HasClass (g : GraphTables) (query : OntologyQuery) (node : Bytes) : Prop :=
  if query.includeSubclasses then hasType g node query.classKey = true
  else query.classKey = [] ∨ ⟨node, query.classKey⟩ ∈ g.types

/-- A resource has a statement of a property, and of a value if one is given. -/
def OntologyCondition.Holds (L : JsonLibrary) (g : GraphTables) (c : OntologyCondition)
    (node : Bytes) : Prop :=
  ∃ s ∈ g.statements, s.subject = node ∧ s.predicate = c.propertyKey ∧
    ∀ v ∈ c.equals, s.kind = v.kind ∧
      ∃ stored : OntologyValue, stored.StoredAs L s.value ∧ stored.kind = s.kind ∧
        stored.normal = v.normal

/-- An object is one of the files a query asks for. -/
structure Matches (L : JsonLibrary) (g : GraphTables) (query : OntologyQuery) (row : ObjectRow) :
    Prop where
  live : query.includeDeleted = true ∨ row.deleted = false
  typed : HasClass g query (OntologyResource.mk .file row.objectKey).node
  conditions : ∀ c ∈ query.conditions, c.Holds L g (OntologyResource.mk .file row.objectKey).node

/-- The listing of a query: every file it asks for, once, in the order of the index. -/
structure Listing (L : JsonLibrary) (objects : ObjectTables) (g : GraphTables)
    (query : OntologyQuery) (listing : List ObjectIndexEntry) : Prop where
  mem : ∀ e, e ∈ listing ↔ ∃ row ∈ objects.objects, ∃ r,
    objects.revisions.find (row.objectKey, row.head) = some r ∧ Matches L g query row ∧
      e = ObjectStore.indexEntry (ObjectTables.indexRow row r)
  complete : ∀ row ∈ objects.objects, Matches L g query row →
    ∃ e ∈ listing, e.key = row.objectKey
  distinct : (listing.map (·.key)).Nodup
  ascending : Keyset.Ascending (·.indexKey) listing

/-! ## Classes and statements -/

/-- The edges to the children are those to the parents, turned round. -/
theorem childEdges_eq (g : GraphTables) : childEdges g = (parentEdges g).map Prod.swap := by
  unfold childEdges parentEdges
  rw [List.map_map]
  rfl

/-- **Going down from a class and going up from those of a resource meet.** -/
theorem hasType_iff {node classKey : Bytes} : hasType g node classKey = true ↔
    classKey = [] ∨ ∃ t ∈ g.types, t.resourceKey = node ∧
      t.classKey ∈ Reach.reach (childEdges g) [classKey] := by
  unfold hasType lineage
  rw [Bool.or_eq_true, decide_eq_true_eq, decide_eq_true_eq, Reach.mem_reach_swap,
    ← childEdges_eq]
  refine or_congr_right ?_
  constructor
  · rintro ⟨k, hk, hreach⟩
    obtain ⟨t, ht, rfl⟩ := List.mem_map.1 hk
    obtain ⟨hmem, hnode⟩ := List.mem_filter.1 ht
    exact ⟨t, hmem, of_decide_eq_true hnode, hreach⟩
  · rintro ⟨t, ht, hnode, hreach⟩
    exact ⟨t.classKey, List.mem_map_of_mem (List.mem_filter.2 ⟨ht, decide_eq_true hnode⟩), hreach⟩

/-- A node has the class of a query when the query asks for none, or one of its types is selected.
-/
theorem hasClass_iff {node : Bytes} : HasClass g query node ↔ query.classKey = [] ∨
    ∃ t ∈ g.types, t.resourceKey = node ∧ t.classKey ∈ selectedClasses g query := by
  unfold HasClass selectedClasses
  split
  · exact hasType_iff
  · refine or_congr_right ?_
    constructor
    · intro ht
      exact ⟨_, ht, rfl, List.mem_singleton_self _⟩
    · rintro ⟨t, ht, rfl, hclass⟩
      rw [← List.mem_singleton.1 hclass]
      exact ht

/-- The node of a type or a statement is that of a file if it is the file's. A node tells the kind
and the key of its resource, so that it is that of the file exactly if both are. -/
theorem GraphStorage.namesFile_iff (hg : GraphStorage L g) {node key : Bytes}
    (hnode : g.nodes.find node ≠ none) :
    namesFile g node key = true ↔ node = (OntologyResource.mk .file key).node := by
  obtain ⟨n, hn⟩ := Option.ne_none_iff_exists'.1 hnode
  unfold namesFile
  rw [hn, Option.any_some, decide_eq_true_eq]
  obtain ⟨hmem, rfl⟩ := Table.find_eq_some.1 hn
  rcases hg.nodes n hmem with ⟨k, rfl⟩ | ⟨k, hkey, hnone⟩
  · constructor
    · intro hsome
      rw [Option.some.inj hsome]
    · intro heq
      have heq : OntologyResource.mk .file k = .mk .file key := OntologyResource.node_injective heq
      exact congrArg some (OntologyResource.mk.inj heq).2
  · constructor
    · intro hsome
      rw [hnone] at hsome
      cases hsome
    · intro heq
      cases OntologyResource.node_injective (hkey.symm.trans heq)

/-- **The rows of a class are those of the files that have it.** The types of the file are looked at
one by one in either, and the node of each is in the graph. -/
theorem classSelects_iff (hg : GraphStorage L g) {key : Bytes} :
    classSelects g query key = true ↔ HasClass g query (OntologyResource.mk .file key).node := by
  unfold classSelects
  rw [hasClass_iff, Bool.or_eq_true, decide_eq_true_eq, List.any_eq_true]
  refine or_congr_right (exists_congr fun t => and_congr_right fun ht => ?_)
  rw [Bool.and_eq_true, decide_eq_true_eq, hg.namesFile_iff (hg.types t ht).1, and_comm]

/-- **A value's text selects the statements of an equal value.** Texts of one kind are equal exactly
if their values are, and the text of a statement is that of its value. -/
theorem GraphStorage.value_iff (hg : GraphStorage L g) {s : StatementRow} (hs : s ∈ g.statements)
    {v : OntologyValue} {t : Bytes} (hv : v.StoredAs L t) :
    (s.kind = v.kind ∧ s.value = t) ↔ s.kind = v.kind ∧
      ∃ stored : OntologyValue, stored.StoredAs L s.value ∧ stored.kind = s.kind ∧
        stored.normal = v.normal := by
  refine and_congr_right fun hkind => ?_
  constructor
  · rintro rfl
    obtain ⟨-, -, -, stored, hstored, hkind', -⟩ := hg.statements s hs
    exact ⟨stored, hstored, hkind', hstored.normal_eq hv (hkind'.trans hkind)⟩
  · rintro ⟨stored, ⟨j, hj, ht⟩, -, hnormal⟩
    obtain ⟨k, hk, hdumped⟩ := hv
    have hj' := valueJson_normal hj
    rw [hnormal, valueJson_normal hk] at hj'
    obtain rfl := Except.ok.inj hj'
    exact Except.ok.inj (ht.symm.trans hdumped)

/-- **The rows of a condition are those of the files that have its statement.** With a value the
statements with its text are those with an equal value, and without one every statement of the
property counts. -/
theorem selects_iff (hg : GraphStorage L g) {c : OntologyCondition} {x : Selection} {key : Bytes}
    (hx : selection L c = .ok x) :
    x.selects g key = true ↔ c.Holds L g (OntologyResource.mk .file key).node := by
  have hequals : ∀ s ∈ g.statements, x.predicate = c.propertyKey ∧
      (x.equals.all (fun v => s.kind = v.1 && s.value = v.2) = true ↔ ∀ v ∈ c.equals,
        s.kind = v.kind ∧ ∃ stored : OntologyValue, stored.StoredAs L s.value ∧
          stored.kind = s.kind ∧ stored.normal = v.normal) := by
    intro s hs
    unfold selection at hx
    cases hc : c.equals with
    | none =>
        rw [hc] at hx
        obtain rfl := pure_ok.1 hx
        exact ⟨rfl, iff_of_true rfl nofun⟩
    | some v =>
        rw [hc] at hx
        simp only [bind_ok, pure_ok] at hx
        obtain ⟨j, hj, t, ht, rfl⟩ := hx
        refine ⟨rfl, ?_⟩
        rw [Option.all_some, Bool.and_eq_true, decide_eq_true_eq, decide_eq_true_eq,
          hg.value_iff hs ⟨j, hj, ht⟩]
        simp only [Option.mem_def, Option.some.injEq, forall_eq']
  unfold Selection.selects OntologyCondition.Holds
  rw [List.any_eq_true]
  refine exists_congr fun s => and_congr_right fun hs => ?_
  obtain ⟨hpredicate, hvalue⟩ := hequals s hs
  rw [Bool.and_eq_true, Bool.and_eq_true, decide_eq_true_eq, hvalue, hpredicate,
    hg.namesFile_iff (hg.statements s hs).1]
  tauto

/-- **The rows a query selects are those of the files it asks for.** The index is the projection of
the heads, and each test of the query is compared with what it asks for. -/
theorem mem_selected (hg : GraphStorage L g) {selections : List Selection}
    (hselections : query.conditions.mapM (selection L) = .ok selections)
    (hindex : ∀ i, i ∈ objects.currentIndex ↔ Projected objects i) {i : IndexRow} :
    i ∈ selected objects g query selections ↔ ∃ row ∈ objects.objects, ∃ r,
      objects.revisions.find (row.objectKey, row.head) = some r ∧ Matches L g query row ∧
        i = ObjectTables.indexRow row r := by
  have hconditions : ∀ key, selections.all (·.selects g key) = true ↔
      ∀ c ∈ query.conditions, c.Holds L g (OntologyResource.mk .file key).node := by
    intro key
    have hmap := mapM_ok.1 hselections
    rw [List.all_eq_true]
    constructor
    · intro hall c hc
      obtain ⟨x, hx, heq⟩ := List.mem_map.1 (hmap ▸ List.mem_map_of_mem (f := selection L) hc)
      exact (selects_iff hg heq.symm).1 (hall x hx)
    · intro hall x hx
      obtain ⟨c, hc, heq⟩ := List.mem_map.1 (hmap.symm ▸ List.mem_map_of_mem (f := Except.ok) hx)
      exact (selects_iff hg heq).2 (hall c hc)
  have hmatches : ∀ row : ObjectRow, Matches L g query row ↔
      ((query.includeDeleted || row.deleted = false) && classSelects g query row.objectKey
        && selections.all (·.selects g row.objectKey)) = true := by
    intro row
    rw [Bool.and_eq_true, Bool.and_eq_true, Bool.or_eq_true, decide_eq_true_eq,
      classSelects_iff hg, hconditions]
    constructor
    · intro h
      exact ⟨⟨h.live, h.typed⟩, h.conditions⟩
    · rintro ⟨⟨hlive, htyped⟩, hholds⟩
      exact ⟨hlive, htyped, hholds⟩
  unfold selected
  rw [List.mem_filter]
  constructor
  · rintro ⟨hi, hselected⟩
    obtain ⟨row, hrow, r, hr, rfl⟩ := (hindex i).1 hi
    exact ⟨row, hrow, r, hr, (hmatches row).2 hselected, rfl⟩
  · rintro ⟨row, hrow, r, hr, hmatch, rfl⟩
    exact ⟨(hindex _).2 ⟨row, hrow, r, hr, rfl⟩, (hmatches row).1 hmatch⟩

/-! ## Pages -/

/-- The entries a query selects, in the order of the index. -/
def selectedEntries (objects : ObjectTables) (g : GraphTables) (query : OntologyQuery)
    (selections : List Selection) : List ObjectIndexEntry :=
  (Keyset.orderBy (·.indexKey) (selected objects g query selections)).map ObjectStore.indexEntry

/-- The selected entries come in the order of their index keys. -/
theorem selectedEntries_ascending (selections : List Selection) :
    Keyset.Ascending (·.indexKey) (selectedEntries objects g query selections) := by
  have hnodup : ((selected objects g query selections).map (·.indexKey)).Nodup :=
    objects.currentIndex.nodup.sublist (List.filter_sublist.map _)
  exact List.pairwise_map.2 (Keyset.ascending_orderBy hnodup)

/-- What a page is read from: the query is valid, and these are the cursors and the conditions of
its text. -/
structure Planned (P : Platform) (m : OntologyImpl) (objects : ObjectTables) (o : OntologyTables)
    (query : OntologyQuery) (current : OntologyCursor) (selections : List Selection) : Prop where
  valid : queryValid P.json objects o.graph query = .ok ()
  signed : ∃ encoded dumped, queryJson P.json query = .ok encoded ∧
    P.json.dump encoded = .ok dumped ∧ current = currentCursor P m objects o dumped
  conditions : query.conditions.mapM (selection P.json) = .ok selections
  bound : bindTexts (query.classKey :: selections.flatMap (·.texts)) = .ok ()

/-- **A page holds the entries past its cursor.** The rows past the cursor are filtered, ordered and
cut in the source, and filtering and cutting come in either order. -/
theorem files_ok {cursor : OntologyCursor} {page : OntologyPage} :
    files P m objects o query cursor limit = .ok page ↔ ∃ current selections,
      Planned P m objects o query current selections ∧ pageLimit limit = .ok () ∧
      checkCursor current cursor = .ok () ∧
      page = queryPage current limit ((Keyset.past (·.indexKey)
        (selectedEntries objects o.graph query selections) cursor.afterIndexKey).take
          (limit + 1)) := by
  have hrows : ∀ selections, ((Keyset.orderBy (·.indexKey)
      ((selected objects o.graph query selections).filter
        fun i => cursor.afterIndexKey < i.indexKey)).take (limit + 1)).map ObjectStore.indexEntry
      = (Keyset.past (·.indexKey) (selectedEntries objects o.graph query selections)
          cursor.afterIndexKey).take (limit + 1) := by
    intro selections
    have hnodup : ((selected objects o.graph query selections).map (·.indexKey)).Nodup :=
      objects.currentIndex.nodup.sublist (List.filter_sublist.map _)
    rw [Keyset.orderBy_filter hnodup, List.map_take, selectedEntries, Keyset.past, List.filter_map]
    rfl
  simp only [files, bind_ok, pure_ok, hrows]
  constructor
  · rintro ⟨_, hlimit, _, hvalid, encoded, hencoded, dumped, hdumped, _, hcursor, selections,
      hselections, _, hbound, rfl⟩
    exact ⟨_, selections, ⟨hvalid, ⟨encoded, dumped, hencoded, hdumped, rfl⟩, hselections, hbound⟩,
      hlimit, hcursor, rfl⟩
  · rintro ⟨_, selections, ⟨hvalid, ⟨encoded, dumped, hencoded, hdumped, rfl⟩, hselections,
      hbound⟩, hlimit, hcursor, rfl⟩
    exact ⟨(), hlimit, (), hvalid, encoded, hencoded, dumped, hdumped, (), hcursor, selections,
      hselections, (), hbound, rfl⟩

/-- A page is as long as its limit where there are more entries, and its cursor is its last
entry's. -/
theorem queryPage_take (current : OntologyCursor) (rest : List ObjectIndexEntry)
    (hlimit : limit ≠ 0) :
    (queryPage current limit (rest.take (limit + 1))).files = rest.take limit ∧
      ((queryPage current limit (rest.take (limit + 1))).next = none ↔ rest.length ≤ limit) ∧
      ∀ next, (queryPage current limit (rest.take (limit + 1))).next = some next →
        ∀ after, next = { current with
          afterIndexKey := Keyset.lastKey (·.indexKey) (rest.take limit) after } := by
  have hlength : limit < (rest.take (limit + 1)).length ↔ limit < rest.length := by
    rw [List.length_take]
    omega
  unfold queryPage
  by_cases hmore : limit < rest.length
  · have hdrop : (rest.take (limit + 1)).dropLast = rest.take limit := by
      rw [List.dropLast_eq_take, List.take_take, List.length_take]
      congr 1
      omega
    have hlast : (rest.take limit).getLast? ≠ none := by
      rw [Ne, List.getLast?_eq_none_iff, List.take_eq_nil_iff, not_or]
      exact ⟨hlimit, List.ne_nil_of_length_pos (by omega)⟩
    obtain ⟨f, hf⟩ := Option.ne_none_iff_exists'.1 hlast
    rw [if_pos (hlength.2 hmore), hdrop, hf]
    refine ⟨rfl, iff_of_false (Option.some_ne_none _) (Nat.not_le.2 hmore), ?_⟩
    intro next hnext after
    obtain rfl := Option.some.inj hnext
    rw [Keyset.lastKey, hf]
    rfl
  · rw [if_neg (mt hlength.1 hmore)]
    have hle : rest.length ≤ limit := Nat.not_lt.1 hmore
    refine ⟨?_, iff_of_true rfl hle, fun next hnext => by cases hnext⟩
    rw [List.take_of_length_le hle, List.take_of_length_le (hle.trans (Nat.le_succ _))]

/-- A cursor that a page of the current state answers to. -/
def Follows (current cursor : OntologyCursor) : Prop :=
  0 ≤ cursor.afterIndexKey ∧
    (cursor = .initial ∨ cursor = { current with afterIndexKey := cursor.afterIndexKey })

/-- A cursor that follows the current one passes the check. -/
theorem Follows.checked {current cursor : OntologyCursor} {selections : List Selection}
    (h : Follows current cursor) (hplan : Planned P m objects o query current selections) :
    checkCursor current cursor = .ok () := by
  obtain ⟨hafter, hcursor⟩ := h
  have hsequence : 0 ≤ current.fileSequence := by
    obtain ⟨_, dumped, -, -, rfl⟩ := hplan.signed
    exact Int.natCast_nonneg _
  simp only [checkCursor, bind_ok, failIf_ok]
  rcases hcursor with rfl | hcursor
  · exact ⟨(), by decide, fun h => h.1 rfl⟩
  · have hcurrent : cursor.revision = current.revision ∧
        cursor.fileSequence = current.fileSequence ∧
        cursor.fingerprint = current.fingerprint := by
      rw [hcursor]
      exact ⟨rfl, rfl, rfl⟩
    obtain ⟨hrevision, hfile, hfingerprint⟩ := hcurrent
    exact ⟨(), by omega, by simp [hrevision, hfile, hfingerprint]⟩

section
variable {fetch : OntologyCursor → Nat → Fallible OntologyPage} {cursor next : OntologyCursor}
  {page : OntologyPage} {limits : List Nat}

/-- The last page ends the reading. -/
theorem followQuery_last (hpage : fetch cursor limit = .ok page) (hnext : page.next = none) :
    followQuery fetch (limit :: limits) cursor = .ok (page.files, none) := by
  unfold followQuery
  refine bind_ok.2 ⟨page, hpage, ?_⟩
  rw [hnext]
  rfl

/-- A page with a cursor is followed by those behind it. -/
theorem followQuery_more (hpage : fetch cursor limit = .ok page) (hnext : page.next = some next)
    {rest : List ObjectIndexEntry} {stopped : Option OntologyCursor}
    (hrest : followQuery fetch limits next = .ok (rest, stopped)) :
    followQuery fetch (limit :: limits) cursor = .ok (page.files ++ rest, stopped) := by
  unfold followQuery
  refine bind_ok.2 ⟨page, hpage, ?_⟩
  rw [hnext]
  exact bind_ok.2 ⟨(rest, stopped), hrest, rfl⟩

end

/-- **Following the cursors of a query gives its entries.** Each page ends at its last entry, so
that the next one begins behind it, and a page without a cursor was the last. -/
theorem followQuery_eq {current : OntologyCursor} {listing : List ObjectIndexEntry}
    {fetch : OntologyCursor → Nat → Fallible OntologyPage}
    (hlisting : Keyset.Ascending (·.indexKey) listing)
    (hfetch : ∀ cursor limit, Follows current cursor → 1 ≤ limit → limit ≤ 1024 →
      fetch cursor limit = .ok (queryPage current limit
        ((Keyset.past (·.indexKey) listing cursor.afterIndexKey).take (limit + 1)))) :
    ∀ (limits : List Nat) {cursor : OntologyCursor}, Follows current cursor →
      (∀ limit ∈ limits, 1 ≤ limit ∧ limit ≤ 1024) → ∃ stopped,
        followQuery fetch limits cursor = .ok ((Keyset.past (·.indexKey) listing
          cursor.afterIndexKey).take limits.sum, stopped) ∧
        (stopped = none ↔ limits ≠ [] ∧
          (Keyset.past (·.indexKey) listing cursor.afterIndexKey).length ≤ limits.sum)
  | [], cursor, _, _ => ⟨some cursor, rfl, iff_of_false nofun fun h => h.1 rfl⟩
  | limit :: limits, cursor, hcursor, hlimits => by
      obtain ⟨hpos, hmax⟩ := hlimits limit List.mem_cons_self
      have hpage := hfetch cursor limit hcursor hpos hmax
      obtain ⟨hfiles, hnone, hnext⟩ := queryPage_take current
        (Keyset.past (·.indexKey) listing cursor.afterIndexKey) (Nat.one_le_iff_ne_zero.1 hpos)
      rw [List.sum_cons]
      generalize queryPage current limit ((Keyset.past (·.indexKey) listing
        cursor.afterIndexKey).take (limit + 1)) = page at hpage hfiles hnone hnext
      cases hend : page.next with
      | none =>
          have hle := hnone.1 hend
          refine ⟨none, ?_,
            iff_of_true rfl ⟨List.cons_ne_nil _ _, hle.trans (Nat.le_add_right _ _)⟩⟩
          rw [followQuery_last hpage hend, hfiles, List.take_of_length_le hle,
            List.take_of_length_le (hle.trans (Nat.le_add_right _ _))]
      | some next =>
          have hmore : limit < (Keyset.past (·.indexKey) listing cursor.afterIndexKey).length := by
            refine Nat.not_le.1 fun hle => ?_
            rw [hnone.2 hle] at hend
            cases hend
          have hcursor' := hnext next hend cursor.afterIndexKey
          have hafter : next.afterIndexKey = Keyset.lastKey (·.indexKey)
              (Keyset.page (·.indexKey) listing cursor.afterIndexKey limit)
              cursor.afterIndexKey := by
            rw [hcursor']
            rfl
          have hfollows : Follows current next := by
            refine ⟨?_, .inr (by rw [hcursor'])⟩
            rw [hafter]
            exact hcursor.1.trans (Keyset.le_lastKey _ _ _)
          obtain ⟨stopped, hrest, hstopped⟩ := followQuery_eq hlisting hfetch limits hfollows
            fun n hn => hlimits n (List.mem_cons_of_mem _ hn)
          rw [hafter, Keyset.past_lastKey hlisting] at hrest hstopped
          refine ⟨stopped, ?_, ?_⟩
          · rw [followQuery_more hpage hend hrest, hfiles, List.take_add]
          · rw [hstopped, List.length_drop]
            constructor
            · rintro ⟨-, hle⟩
              exact ⟨List.cons_ne_nil _ _, by omega⟩
            · rintro ⟨-, hle⟩
              refine ⟨?_, by omega⟩
              rintro rfl
              rw [List.sum_nil] at hle
              omega

/-! ## Reachable workspaces -/

namespace Workspace

variable {clock : Int → Prop} {w : Workspace} {container : Bytes}

/-- The index of every reachable workspace is the projection of its objects. -/
theorem Reachable.indexed (h : Reachable P clock container w) :
    IndexInvariant w.package.tables ∧ w.package.tables.userVersion = 5 := by
  obtain ⟨events, hrun⟩ := h
  have hall := hrun.invariant (I := fun w => Package.Sound P container w.package ∧
    IndexInvariant w.package.tables ∧ w.package.tables.userVersion = 5) ?_
    ⟨Package.sound_fresh P container, .created 5 container, rfl⟩
  · exact hall.2
  · intro w e w' ⟨hsound, hindex, hversion⟩ hstep
    obtain ⟨hsound', hext⟩ := hstep.keeps hsound
    refine ⟨hsound', ?_, hext.userVersion.trans hversion⟩
    rcases hstep.package with ⟨e', -, hpackage⟩ | hsame
    · exact (hpackage.indexInvariant ⟨hindex, hsound.published⟩).1
    · rw [hsame]
      exact hindex

/-- The entries a query selects are its listing. The entries are those of the index, which is the
projection of the heads, in the order of their keys. -/
theorem Reachable.listing (h : Reachable P clock container w) {selections : List Selection}
    (hselections : query.conditions.mapM (selection P.json) = .ok selections) :
    Listing P.json w.package.tables w.ontology.graph query
      (selectedEntries w.package.tables w.ontology.graph query selections) := by
  obtain ⟨hindex, hversion⟩ := h.indexed
  have hpublished := h.sound.package.published
  have hprojected := hindex.index (hversion ▸ by decide)
  have hmem := fun i => mem_selected (i := i) h.sound.ontology.storage hselections hprojected
  have hentry : ∀ e, e ∈ selectedEntries w.package.tables w.ontology.graph query selections ↔
      ∃ row ∈ w.package.tables.objects, ∃ r,
        w.package.tables.revisions.find (row.objectKey, row.head) = some r ∧
        Matches P.json w.ontology.graph query row ∧
        e = ObjectStore.indexEntry (ObjectTables.indexRow row r) := by
    intro e
    unfold selectedEntries
    simp only [List.mem_map, Keyset.mem_orderBy, hmem]
    constructor
    · rintro ⟨i, ⟨row, hrow, r, hr, hmatch, rfl⟩, rfl⟩
      exact ⟨row, hrow, r, hr, hmatch, rfl⟩
    · rintro ⟨row, hrow, r, hr, hmatch, rfl⟩
      exact ⟨_, ⟨row, hrow, r, hr, hmatch, rfl⟩, rfl⟩
  refine ⟨hentry, ?_, ?_, selectedEntries_ascending selections⟩
  · intro row hrow hmatch
    obtain ⟨r, hr, -⟩ := hindex.heads row hrow (hpublished row hrow).ne'
    exact ⟨_, (hentry _).2 ⟨row, hrow, r, hr, hmatch, rfl⟩, rfl⟩
  · refine ((selectedEntries_ascending selections).nodup_keys.of_map).map_on ?_
    intro e he e' he' heq
    obtain ⟨row, hrow, r, hr, -, rfl⟩ := (hentry e).1 he
    obtain ⟨row', hrow', r', hr', -, rfl⟩ := (hentry e').1 he'
    obtain rfl : row = row' := Table.eq_of_key_eq hrow hrow' heq
    rw [hr, Option.some.injEq] at hr'
    rw [hr']

/-- **Class queries agree with typing.** A node has a class when one of its types is that class or
inherits from it. The pages of a query, followed from the first by any limits, are the listing of
the files that the query selects, in the order of their index keys, each file once; the reading
stops with no cursor exactly when it has the whole listing. -/
theorem Reachable.query_exact (h : Reachable P clock container w) (m : OntologyImpl)
    (query : OntologyQuery) (cancellation : StopToken) :
    (∀ node classKey, hasType w.ontology.graph node classKey = true ↔ classKey = [] ∨
      ∃ t ∈ w.ontology.graph.types, t.resourceKey = node ∧
        t.classKey ∈ Reach.reach (childEdges w.ontology.graph) [classKey]) ∧
    ∀ limit page, queryFiles P m w.package.tables w.ontology query .initial limit cancellation
        = .ok page →
      ∃ listing, Listing P.json w.package.tables w.ontology.graph query listing ∧
        ∀ limits : List Nat, (∀ limit ∈ limits, 1 ≤ limit ∧ limit ≤ 1024) → ∃ stopped,
          followQuery (fun cursor limit => queryFiles P m w.package.tables w.ontology query cursor
            limit cancellation) limits .initial = .ok (listing.take limits.sum, stopped) ∧
          (stopped = none ↔ limits ≠ [] ∧ listing.length ≤ limits.sum) := by
  refine ⟨fun _ _ => hasType_iff, ?_⟩
  intro limit page hpage
  simp only [queryFiles, bind_ok, failIf_ok, pure_ok] at hpage
  obtain ⟨_, hstart, first, hfirst, _, hend, -⟩ := hpage
  obtain ⟨current, selections, hplan, -, -, -⟩ := files_ok.1 hfirst
  have hlisting := h.listing hplan.conditions
  obtain ⟨hindex, -⟩ := h.indexed
  have hpast : Keyset.past (·.indexKey) (selectedEntries w.package.tables w.ontology.graph query
      selections) OntologyCursor.initial.afterIndexKey
      = selectedEntries w.package.tables w.ontology.graph query selections := by
    refine List.filter_eq_self.2 fun e he => decide_eq_true ?_
    obtain ⟨row, hrow, r, -, -, rfl⟩ := (hlisting.mem e).1 he
    exact (hindex.keys row hrow).1
  have hfetch : ∀ cursor limit, Follows current cursor → 1 ≤ limit → limit ≤ 1024 →
      queryFiles P m w.package.tables w.ontology query cursor limit cancellation
        = .ok (queryPage current limit ((Keyset.past (·.indexKey) (selectedEntries
          w.package.tables w.ontology.graph query selections) cursor.afterIndexKey).take
            (limit + 1))) := by
    intro cursor limit hcursor hpos hmax
    have hlimit : ¬ (limit = 0 ∨ 1024 < limit) := by omega
    have hpage := files_ok.2 ⟨current, selections, hplan, failIf_ok.2 hlimit,
      hcursor.checked hplan, rfl⟩
    simp only [queryFiles, bind_ok, failIf_ok, pure_ok]
    exact ⟨(), hstart, _, hpage, (), hend, rfl⟩
  refine ⟨_, hlisting, fun limits hlimits => ?_⟩
  have hinitial : Follows current .initial := ⟨le_rfl, .inl rfl⟩
  have hfollow := followQuery_eq hlisting.ascending hfetch limits hinitial hlimits
  rwa [hpast] at hfollow

/-- A file of a class that has a parent, with a statement. -/
def sampleFile : List OntologyChange :=
  [.ontologyClass ⟨ascii "k", ascii "label", [], []⟩,
    .ontologyClass ⟨ascii "c", ascii "label", [], [ascii "k"]⟩,
    .ontologyProperty ⟨ascii "p", ascii "label", .text, [], [], false, false⟩,
    .typeAssignment ⟨⟨.file, Package.sampleObject⟩, ascii "c", true⟩,
    .assertion ⟨⟨.file, Package.sampleObject⟩, ascii "p", .text (ascii "t"), true⟩]

/-- The files of the parent with that statement. -/
def sampleQuery : OntologyQuery :=
  ⟨ascii "k", true, [⟨ascii "p", some (.text (ascii "t"))⟩], false⟩

/-- The sample object is found by the class its class inherits from. The batch is applied and the
page is read by computation, and the theorem says what the page is of. -/
theorem Reachable.query_exact_sample : ∃ (w : Workspace) (listing : List ObjectIndexEntry),
    Listing Platform.reference.json w.package.tables w.ontology.graph sampleQuery listing ∧
    ∃ stopped, followQuery (fun cursor limit => queryFiles .reference ⟨ascii "c", false⟩
      w.package.tables w.ontology sampleQuery cursor limit fun _ => false) [1] .initial
        = .ok (listing.take 1, stopped) ∧ (stopped = none ↔ listing.length ≤ 1) := by
  have hok : (Package.exec .reference .reference (Package.sampleCalls.take 2)
      (.fresh (ascii "c")) >>= fun x =>
        OntologyFileSystem.apply Platform.reference.json x.2 ⟨ascii "c", false⟩ .empty sampleFile 0
          Package.sampleSession (fun _ => false) 0 >>= fun y =>
            queryFiles .reference ⟨ascii "c", false⟩ x.2 y.2 sampleQuery .initial 1
              (fun _ => false)).isOk = true := by
    decide +kernel
  obtain ⟨page, h⟩ := exists_of_isOk hok
  obtain ⟨⟨responses, db⟩, hexec, h⟩ := bind_ok.1 h
  obtain ⟨⟨revision, o⟩, happly, hpage⟩ := bind_ok.1 h
  obtain ⟨listing, hlisting, hfollow⟩ := (Reachable.query_exact (Reachable.of_exec hexec happly)
    ⟨ascii "c", false⟩ sampleQuery fun _ => false).2 1 page hpage
  obtain ⟨stopped, heq, hiff⟩ := hfollow [1] (by decide)
  refine ⟨⟨⟨db, []⟩, o⟩, listing, hlisting, stopped, heq, ?_⟩
  rw [hiff]
  exact and_iff_right (List.cons_ne_nil _ _)

end Workspace

end FileProvider
