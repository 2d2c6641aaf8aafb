import Mathlib.Data.List.Perm.Subperm
import Mathlib.Data.Prod.Lex
import FileProvider.Library.RecursiveQuery
import FileProvider.Ontology.Journal

/-!
# Bounded traversal

`OntologyFileSystem::traverse` follows the statements of one property from a resource, breadth first
and to a bounded depth. The recursive query behind it extracts pairs of a node and a depth, so on a
cyclic graph a node comes back at many depths; it is cut off after 10000 pairs, and the page after
its limit. Neither cut changes a distance, and a walk that reports no cut is complete.

The recursive query is that of `Library.RecursiveQuery`. The distance of a resource is the length of
a shortest chain of statements, and a page gives each resource once, at the least of the depths at
which it was found.
-/

namespace FileProvider

open Bytes Fallible Ontology RecursiveQuery

variable {P : Platform} {L : JsonLibrary} {objects : ObjectTables} {g : GraphTables}

/-! ## The reader -/

inductive OntologyDirection where
  | outgoing
  | incoming
deriving DecidableEq

/-- A resource of a walk with its distance. -/
structure OntologyNeighbor where
  resource : OntologyResource
  depth : Nat
deriving DecidableEq

structure OntologyWalk where
  nodes : List OntologyNeighbor
  truncated : Bool

namespace OntologyFileSystem

/-- `OntologyFileSystem::maximumTraversalRows`. -/
def maximumTraversalRows : Nat := 10000

/-- The source and the target of a statement, as the direction has them. -/
def ends (s : StatementRow) : OntologyDirection → Option Bytes × Option Bytes
  | .outgoing => (some s.subject, s.objectKey)
  | .incoming => (s.objectKey, some s.subject)

/-- Whether a node is an entity or a file that is not deleted, or deleted files are included. -/
def admits (objects : ObjectTables) (deleted : Bool) (n : NodeRow) : Bool :=
  deleted || n.objectKey.all fun k => (objects.objects.find k).any (·.deleted = false)

/-- The nodes one step of the recursion leads to. -/
def neighbours (objects : ObjectTables) (g : GraphTables) (predicate : Bytes)
    (direction : OntologyDirection) (deleted : Bool) (key : Bytes) : List Bytes :=
  g.statements.rows.filterMap fun s =>
    if s.predicate = predicate ∧ s.kind = .resource ∧ (ends s direction).1 = some key then
      (ends s direction).2.filter fun t => (g.nodes.find t).any (admits objects deleted)
    else none

/-- The depths at which a node was extracted. -/
def depths (rows : List (Bytes × Nat)) (key : Bytes) : List Nat :=
  rows.filterMap fun r => if r.1 = key then some r.2 else none

/-- The nodes that were extracted, except the start, each with its least depth. -/
def nearest (rows : List (Bytes × Nat)) (start : Bytes) : List (Bytes × Nat) :=
  ((rows.map (·.1)).filter (· ≠ start)).dedup.map fun key =>
    (key, (depths rows key).min?.getD 0)

variable (L : JsonLibrary) (objects : ObjectTables) (g : GraphTables)

/-- The checks of a traversal. They give the key of its start. -/
def traversalStart (start : OntologyResource) (predicate : Bytes) (depth limit : Nat)
    (deleted : Bool) (cancellation : StopToken) : Fallible Bytes := do
  let key ← nodeKey L start
  text L predicate 1024 true
  pageLimit limit
  failIf (depth = 0 ∨ 32 < depth) "invalid ontology traversal bounds"
  failIf (cancellation 0 = true) "ontology operation cancelled"
  resourceExists L objects g start (!deleted)
  let definition ← getProperty L g predicate
  failIf (definition.all fun p => p.kind ≠ .resource)
    "ontology traversal requires a resource property"
  pure key

/-- The page of a walk, from one row more than its limit. -/
def walkPage (limit : Nat) (full : Bool) (nodes : List OntologyNeighbor) : OntologyWalk :=
  if limit < nodes.length then ⟨nodes.dropLast, true⟩ else ⟨nodes, full && !nodes.isEmpty⟩

/-- `priority` is the order in which rows of one depth leave the queue of the recursion. -/
def traverse (priority : Priority (Prod.snd : Bytes × Nat → Nat)) (start : OntologyResource)
    (predicate : Bytes) (direction : OntologyDirection) (depth limit : Nat) (deleted : Bool)
    (cancellation : StopToken) : Fallible OntologyWalk := do
  let key ← traversalStart L objects g start predicate depth limit deleted cancellation
  let rows := extract priority
    (deeper (neighbours objects g predicate direction deleted) depth) (maximumTraversalRows + 1)
    (key, 0)
  let found := (Keyset.orderBy (fun r => toLex (r.2, order r.1)) (nearest rows key)).take
    (limit + 1)
  let nodes ← found.mapM fun r => do
    let resource ← resourceKey r.1
    pure (⟨resource, r.2⟩ : OntologyNeighbor)
  failIf (cancellation 1 = true) "ontology operation cancelled"
  pure (walkPage limit (maximumTraversalRows < rows.length) nodes)

end OntologyFileSystem

open OntologyFileSystem

/-! ## Links between resources -/

/-- An entity, a live file, or any file where deleted ones are included. -/
def OntologyResource.Admitted (objects : ObjectTables) (deleted : Bool) (r : OntologyResource) :
    Prop :=
  r.kind = .file → deleted = true ∨ ∃ o, objects.objects.find r.key = some o ∧ o.deleted = false

/-- A statement of the property links a resource to one that a traversal passes. -/
def Links (objects : ObjectTables) (g : GraphTables) (predicate : Bytes)
    (direction : OntologyDirection) (deleted : Bool) (a b : OntologyResource) : Prop :=
  (∃ s ∈ g.statements, s.predicate = predicate ∧ s.kind = .resource ∧
    ends s direction = (some a.node, some b.node)) ∧ b.Admitted objects deleted

/-- A walk is exact: its resources have their distances and stand in their order, and where it is
not cut off they are all that are near enough. -/
structure ExactWalk (objects : ObjectTables) (g : GraphTables) (predicate : Bytes)
    (direction : OntologyDirection) (deleted : Bool) (start : OntologyResource) (depth limit : Nat)
    (walk : OntologyWalk) : Prop where
  near : ∀ n ∈ walk.nodes, n.resource ≠ start ∧ n.depth ≤ depth ∧
    Distance (Links objects g predicate direction deleted) start n.resource n.depth
  distinct : (walk.nodes.map (·.resource)).Nodup
  ordered : walk.nodes.Pairwise fun m n => m.depth < n.depth ∨
    (m.depth = n.depth ∧ order m.resource.node < order n.resource.node)
  bound : walk.nodes.length ≤ limit
  complete : walk.truncated = false → ∀ r d, r ≠ start → d ≤ depth →
    Distance (Links objects g predicate direction deleted) start r d → ⟨r, d⟩ ∈ walk.nodes

section
variable {predicate : Bytes} {direction : OntologyDirection} {deleted : Bool}
  {start : OntologyResource} {depth limit : Nat}

/-- A node stands for a resource. -/
theorem GraphStorage.resource_of_node (hg : GraphStorage L g) (objects : ObjectTables)
    (deleted : Bool) {n : NodeRow} {t : Bytes} (hn : g.nodes.find t = some n) :
    ∃ r : OntologyResource, t = r.node ∧
      (admits objects deleted n = true ↔ r.Admitted objects deleted) := by
  obtain ⟨hmem, rfl⟩ := Table.find_eq_some.1 hn
  rcases hg.nodes n hmem with ⟨k, rfl⟩ | ⟨k, hkey, hnone⟩
  · refine ⟨⟨.file, k⟩, rfl, ?_⟩
    simp only [admits, OntologyResource.Admitted, Option.all_some, Bool.or_eq_true,
      Option.any_eq_true, decide_eq_true_eq, true_implies]
  · refine ⟨⟨.entity, k⟩, hkey, ?_⟩
    simp [admits, OntologyResource.Admitted, hnone]

/-- The target of a statement has its node. -/
theorem GraphStorage.target_node (hg : GraphStorage L g) {s : StatementRow} {source : Option Bytes}
    {t : Bytes} (hs : s ∈ g.statements) (hends : ends s direction = (source, some t)) :
    g.nodes.find t ≠ none := by
  obtain ⟨hsubject, -, hobject, -⟩ := hg.statements s hs
  obtain ⟨-, htarget⟩ := Prod.mk.inj hends
  cases direction with
  | outgoing => exact hobject t htarget
  | incoming =>
      obtain rfl := Option.some.inj htarget
      exact hsubject

/-- **The neighbours of a resource's node are the nodes of those it is linked to.** Each statement
of the property gives its other end, in the direction that was asked for, and a stored graph has
only nodes of resources. -/
theorem mem_neighbours (hg : GraphStorage L g) {a : OntologyResource} {t : Bytes} :
    t ∈ neighbours objects g predicate direction deleted a.node ↔
      ∃ b, t = b.node ∧ Links objects g predicate direction deleted a b := by
  unfold neighbours
  rw [List.mem_filterMap]
  constructor
  · rintro ⟨s, hs, h⟩
    split at h
    · next hstatement =>
        obtain ⟨hpredicate, hkind, hsource⟩ := hstatement
        obtain ⟨htarget, hany⟩ := Option.filter_eq_some_iff.1 h
        obtain ⟨n, hn, hadmits⟩ := Option.any_eq_true _ _ |>.1 hany
        obtain ⟨b, rfl, hiff⟩ := hg.resource_of_node objects deleted hn
        exact ⟨b, rfl, ⟨s, hs, hpredicate, hkind, Prod.ext hsource htarget⟩, hiff.1 hadmits⟩
    · cases h
  · rintro ⟨b, rfl, ⟨s, hs, hpredicate, hkind, hends⟩, hadmitted⟩
    obtain ⟨n, hn⟩ := Option.ne_none_iff_exists'.1 (hg.target_node hs hends)
    obtain ⟨r, hr, hiff⟩ := hg.resource_of_node objects deleted hn
    obtain rfl := OntologyResource.node_injective hr
    refine ⟨s, hs, ?_⟩
    rw [if_pos ⟨hpredicate, hkind, congrArg Prod.fst hends⟩, congrArg Prod.snd hends]
    refine Option.filter_eq_some_iff.2 ⟨rfl, ?_⟩
    rw [hn, Option.any_some]
    exact hiff.2 hadmitted

/-- **Distances between nodes are distances between resources.** A step between nodes is a step
between resources, as the nodes tell the resources, so that paths correspond to paths. -/
theorem distance_iff (hg : GraphStorage L g) {t : Bytes} {d : Nat} :
    Distance (fun b c => c ∈ neighbours objects g predicate direction deleted b) start.node t d ↔
      ∃ r, t = r.node ∧ Distance (Links objects g predicate direction deleted) start r d := by
  have hlift : ∀ {r m}, Path (Links objects g predicate direction deleted) start m r →
      Path (fun b c => c ∈ neighbours objects g predicate direction deleted b) start.node m
        r.node := fun h => h.lift fun _ c hbc => (mem_neighbours hg).2 ⟨c, rfl, hbc⟩
  have hmap : ∀ {t m}, Path (fun b c => c ∈ neighbours objects g predicate direction deleted b)
      start.node m t → ∃ r, t = r.node ∧
        Path (Links objects g predicate direction deleted) start m r :=
    fun h => h.map fun _ _ hbc => (mem_neighbours hg).1 hbc
  constructor
  · intro h
    obtain ⟨r, rfl, hpath⟩ := hmap h.path
    exact ⟨r, rfl, hpath, fun m hm => h.least m (hlift hm)⟩
  · rintro ⟨r, rfl, h⟩
    refine ⟨hlift h.path, fun m hm => ?_⟩
    obtain ⟨r', hr, hpath⟩ := hmap hm
    obtain rfl := OntologyResource.node_injective hr
    exact h.least m hpath

/-! ## The nearest nodes -/

/-- The depths of a node are those of its rows. -/
theorem mem_depths {rows : List (Bytes × Nat)} {key : Bytes} {d : Nat} :
    d ∈ depths rows key ↔ (key, d) ∈ rows := by
  unfold depths
  rw [List.mem_filterMap]
  constructor
  · rintro ⟨r, hr, h⟩
    split at h
    · next hkey =>
        obtain rfl := Option.some.inj h
        rw [← hkey]
        exact hr
    · cases h
  · intro h
    exact ⟨(key, d), h, if_pos rfl⟩

/-- The nodes that were extracted have their least depths. -/
theorem mem_nearest {rows : List (Bytes × Nat)} {key t : Bytes} {d : Nat} :
    (t, d) ∈ nearest rows key ↔ t ≠ key ∧ (t, d) ∈ rows ∧ ∀ m, (t, m) ∈ rows → d ≤ m := by
  have hmin : ∀ {m}, (t, m) ∈ rows → ∃ d, (depths rows t).min? = some d ∧ (t, d) ∈ rows ∧
      ∀ m, (t, m) ∈ rows → d ≤ m := by
    intro m hm
    cases hd : (depths rows t).min? with
    | none =>
        rw [List.min?_eq_none_iff] at hd
        have hmem := mem_depths.2 hm
        rw [hd] at hmem
        cases hmem
    | some d =>
        obtain ⟨hmem, hle⟩ := List.min?_eq_some_iff.1 hd
        exact ⟨d, rfl, mem_depths.1 hmem, fun m hm => hle m (mem_depths.2 hm)⟩
  simp only [nearest, List.mem_map, List.mem_dedup, List.mem_filter, decide_eq_true_eq,
    Prod.mk.injEq]
  constructor
  · rintro ⟨k, ⟨⟨r, hr, rfl⟩, hne⟩, rfl, rfl⟩
    obtain ⟨d, hd, hmem, hle⟩ := hmin hr
    rw [hd, Option.getD_some]
    exact ⟨hne, hmem, hle⟩
  · rintro ⟨hne, hmem, hle⟩
    obtain ⟨d', hd', hmem', hle'⟩ := hmin hmem
    refine ⟨t, ⟨⟨(t, d), hmem, rfl⟩, hne⟩, rfl, ?_⟩
    rw [hd', Option.getD_some]
    exact Nat.le_antisymm (hle' d hmem) (hle d' hmem')

/-- Each node is listed once, at its smallest depth. -/
theorem nearest_nodup (rows : List (Bytes × Nat)) (key : Bytes) :
    ((nearest rows key).map (·.1)).Nodup := by
  rw [nearest, List.map_map]
  exact (List.map_id _).symm ▸ List.nodup_dedup _

/-- Where only the start was extracted there is one row for each depth at most. -/
theorem length_of_nearest_nil {rows : List (Bytes × Nat)} {key : Bytes} {depth : Nat}
    (hnodup : rows.Nodup) (hdepth : ∀ r ∈ rows, r.2 ≤ depth) (hnil : nearest rows key = []) :
    rows.length ≤ depth + 1 := by
  have hstart : ∀ r ∈ rows, r.1 = key := by
    intro r hr
    by_contra hne
    have hmem : r.1 ∈ ((rows.map (·.1)).filter (· ≠ key)).dedup :=
      List.mem_dedup.2 (List.mem_filter.2 ⟨List.mem_map_of_mem hr, decide_eq_true hne⟩)
    have hempty := List.map_eq_nil_iff.1 hnil
    rw [hempty] at hmem
    cases hmem
  have hdistinct : (rows.map (·.2)).Nodup := by
    refine hnodup.map_on fun r hr s hs heq => ?_
    exact Prod.ext ((hstart r hr).trans (hstart s hs).symm) heq
  have hsub : rows.map (·.2) ⊆ List.range (depth + 1) := by
    intro d hd
    obtain ⟨r, hr, rfl⟩ := List.mem_map.1 hd
    exact List.mem_range.2 (Nat.lt_succ_of_le (hdepth r hr))
  have hle := (List.subperm_of_subset hdistinct hsub).length_le
  rwa [List.length_map, List.length_range] at hle

/-! ## Walks -/

/-- The rows of a walk in the order of the page. -/
def walkRows (rows : List (Bytes × Nat)) (key : Bytes) : List (Bytes × Nat) :=
  Keyset.orderBy (fun r => toLex (r.2, order r.1)) (nearest rows key)

/-- Nodes as resources. -/
theorem mapM_resources {found : List (Bytes × Nat)}
    (h : ∀ r ∈ found, ∃ x : OntologyResource, r.1 = x.node) :
    ∃ nodes : List OntologyNeighbor,
      (found.mapM fun r => do
        let resource ← resourceKey r.1
        pure (⟨resource, r.2⟩ : OntologyNeighbor)) = .ok nodes ∧
      nodes.map (fun n => (n.resource.node, n.depth)) = found := by
  induction found with
  | nil => exact ⟨[], rfl, rfl⟩
  | cons r found ih =>
      obtain ⟨x, hx⟩ := h r List.mem_cons_self
      obtain ⟨nodes, hnodes, hmap⟩ := ih fun r hr => h r (List.mem_cons_of_mem _ hr)
      refine ⟨⟨x, r.2⟩ :: nodes, ?_, ?_⟩
      · rw [List.mapM_cons]
        refine bind_ok.2 ⟨⟨x, r.2⟩, ?_, bind_ok.2 ⟨nodes, hnodes, rfl⟩⟩
        exact bind_ok.2 ⟨x, hx ▸ resourceKey_node x, rfl⟩
      · rw [List.map_cons, hmap, ← hx]

/-- The rows come by depth, and by key within a depth. -/
theorem walkRows_ascending (rows : List (Bytes × Nat)) (key : Bytes) :
    Keyset.Ascending (fun r : Bytes × Nat => toLex (r.2, order r.1)) (walkRows rows key) := by
  refine Keyset.ascending_orderBy ?_
  have hnodup := nearest_nodup rows key
  rw [List.nodup_iff_pairwise_ne, List.pairwise_map] at hnodup ⊢
  refine hnodup.imp fun hne heq => hne ?_
  exact order_injective (Prod.mk.inj (toLex.injective heq)).2

section
variable {priority : Priority (Prod.snd : Bytes × Nat → Nat)}

/-- What the recursion behind a traversal extracts. -/
def walked (objects : ObjectTables) (g : GraphTables)
    (priority : Priority (Prod.snd : Bytes × Nat → Nat)) (start : OntologyResource)
    (predicate : Bytes) (direction : OntologyDirection) (depth : Nat) (deleted : Bool) :
    List (Bytes × Nat) :=
  extract priority (deeper (neighbours objects g predicate direction deleted) depth)
    (maximumTraversalRows + 1) (start.node, 0)

/-- **A row of a walk is a resource at its distance.** The least depth of a node that was extracted
is its distance, and the distance is carried over to resources. -/
theorem walkRows_distance (hg : GraphStorage L g) {r : Bytes × Nat}
    (hr : r ∈ walkRows (walked objects g priority start predicate direction depth deleted)
      start.node) :
    ∃ x : OntologyResource, r.1 = x.node ∧ x ≠ start ∧ r.2 ≤ depth ∧
      Distance (Links objects g predicate direction deleted) start x r.2 := by
  obtain ⟨hne, hmem, hleast⟩ := mem_nearest.1 (Keyset.mem_orderBy.1 hr)
  obtain ⟨hdepth, hdistance⟩ := distance_of_extracted hmem hleast
  obtain ⟨x, hx, hdistance⟩ := (distance_iff hg).1 hdistance
  refine ⟨x, hx, ?_, hdepth, hdistance⟩
  rintro rfl
  exact hne hx

/-- **A recursion that was not cut off has every resource that is near enough.** A result that is
not full misses no row within the bound, and the least one of a resource is at its distance. -/
theorem mem_walkRows (hg : GraphStorage L g) {x : OntologyResource} {d : Nat} (hne : x ≠ start)
    (hd : d ≤ depth) (hdistance : Distance (Links objects g predicate direction deleted) start x d)
    (hfull : (walked objects g priority start predicate direction depth deleted).length
      ≤ maximumTraversalRows) :
    (x.node, d) ∈ walkRows (walked objects g priority start predicate direction depth deleted)
      start.node := by
  have hnode := (distance_iff hg).2 ⟨x, rfl, hdistance⟩
  refine Keyset.mem_orderBy.2 (mem_nearest.2 ⟨?_, ?_, ?_⟩)
  · intro heq
    exact hne (OntologyResource.node_injective heq)
  · exact extracted_of_distance (Nat.lt_succ_of_le hfull) hd hnode
  · intro m hm
    have hexact : Extracted Prod.snd (deeper (neighbours objects g predicate direction deleted)
        depth) (start.node, 0) [] (walked objects g priority start predicate direction depth
        deleted) (maximumTraversalRows + 1) := run_exact priority deeper_key _
    exact hnode.least m (reached_deeper.1 (hexact.reached _ hm)).2

/-- A recursion that was cut off found another resource than the start. Otherwise it would have one
row for each depth at most, which is below the limit. -/
theorem length_walked_le (hdepth : depth ≤ 32)
    (hnil : walkRows (walked objects g priority start predicate direction depth deleted) start.node
      = []) :
    (walked objects g priority start predicate direction depth deleted).length
      ≤ maximumTraversalRows := by
  have hexact : Extracted Prod.snd (deeper (neighbours objects g predicate direction deleted)
      depth) (start.node, 0) [] (walked objects g priority start predicate direction depth
      deleted) (maximumTraversalRows + 1) := run_exact priority deeper_key _
  have hnearest : nearest (walked objects g priority start predicate direction depth deleted)
      start.node = [] := by
    have hperm : (walkRows (walked objects g priority start predicate direction depth deleted)
        start.node).Perm (nearest (walked objects g priority start predicate direction depth
          deleted) start.node) := Keyset.orderBy_perm _
    rw [hnil] at hperm
    exact hperm.nil_eq.symm
  have hnodup : (walked objects g priority start predicate direction depth deleted).Nodup :=
    hexact.nodup
  have hbound := length_of_nearest_nil hnodup
    (fun r hr => (reached_deeper.1 (hexact.reached r hr)).1) hnearest
  have hlarge : 32 + 1 ≤ maximumTraversalRows := by decide
  omega

/-- **The page of a walk is exact.** The rows are in the order of the page, so that the ones that
are shown come before the one that is cut off. -/
theorem walkPage_exact (hg : GraphStorage L g) (hdepth : depth ≤ 32)
    {nodes : List OntologyNeighbor}
    (hnodes : nodes.map (fun n => (n.resource.node, n.depth))
      = (walkRows (walked objects g priority start predicate direction depth deleted)
          start.node).take (limit + 1)) :
    ExactWalk objects g predicate direction deleted start depth limit
      (walkPage limit (maximumTraversalRows
        < (walked objects g priority start predicate direction depth deleted).length) nodes) := by
  have hascending := walkRows_ascending
    (walked objects g priority start predicate direction depth deleted) start.node
  have hmem : ∀ n ∈ nodes, (n.resource.node, n.depth)
      ∈ walkRows (walked objects g priority start predicate direction depth deleted)
        start.node := by
    intro n hn
    have hrow := List.mem_map_of_mem (f := fun n : OntologyNeighbor =>
      (n.resource.node, n.depth)) hn
    rw [hnodes] at hrow
    exact List.mem_of_mem_take hrow
  have hnear : ∀ n ∈ nodes, n.resource ≠ start ∧ n.depth ≤ depth ∧
      Distance (Links objects g predicate direction deleted) start n.resource n.depth := by
    intro n hn
    obtain ⟨x, hx, hne, hle, hdistance⟩ := walkRows_distance hg (hmem n hn)
    obtain rfl := OntologyResource.node_injective hx
    exact ⟨hne, hle, hdistance⟩
  have hordered : nodes.Pairwise fun m n => m.depth < n.depth ∨
      (m.depth = n.depth ∧ order m.resource.node < order n.resource.node) := by
    have hpairs : (nodes.map fun n => (n.resource.node, n.depth)).Pairwise
        fun r s : Bytes × Nat => toLex (r.2, order r.1) < toLex (s.2, order s.1) := by
      rw [hnodes]
      exact hascending.sublist (List.take_sublist _ _)
    rw [List.pairwise_map] at hpairs
    exact hpairs.imp fun hlt => Prod.Lex.toLex_lt_toLex.1 hlt
  have hdistinct : (nodes.map (·.resource)).Nodup := by
    rw [List.nodup_iff_pairwise_ne, List.pairwise_map]
    have hboth := hordered.and (List.pairwise_of_forall_mem_list
      fun m hm n hn => (⟨(hnear m hm).2.2, (hnear n hn).2.2⟩ :
        Distance (Links objects g predicate direction deleted) start m.resource m.depth ∧
        Distance (Links objects g predicate direction deleted) start n.resource n.depth))
    refine hboth.imp fun {m n} h heq => ?_
    obtain ⟨horder, hm, hn⟩ := h
    rw [heq] at hm horder
    rcases horder with hlt | ⟨-, hlt⟩
    · exact hlt.ne (hm.unique hn)
    · exact lt_irrefl _ hlt
  have hlength : nodes.length ≤ limit + 1 := by
    rw [← List.length_map (f := fun n : OntologyNeighbor => (n.resource.node, n.depth)), hnodes]
    exact List.length_take_le _ _
  unfold walkPage
  split
  · next hlimit =>
      -- The row past the limit is dropped, and the walk says so.
      have hsub := nodes.dropLast_sublist
      refine ⟨fun n hn => hnear n (hsub.subset hn), hdistinct.sublist (hsub.map _),
        hordered.sublist hsub, ?_, nofun⟩
      rw [List.length_dropLast]
      omega
  · next hlimit =>
      refine ⟨hnear, hdistinct, hordered, Nat.not_lt.1 hlimit, ?_⟩
      intro hfull r d hne hd hdistance
      have hwhole : nodes.map (fun n => (n.resource.node, n.depth))
          = walkRows (walked objects g priority start predicate direction depth deleted)
            start.node := by
        rw [hnodes]
        refine List.take_of_length_le ?_
        have hlen := congrArg List.length hnodes
        rw [List.length_map, List.length_take] at hlen
        omega
      have hcut : (walked objects g priority start predicate direction depth deleted).length
          ≤ maximumTraversalRows := by
        rw [Bool.and_eq_false_iff, decide_eq_false_iff_not, Bool.not_eq_false',
          List.isEmpty_iff] at hfull
        rcases hfull with hfull | rfl
        · exact Nat.not_lt.1 hfull
        · exact length_walked_le hdepth hwhole.symm
      have hrow := mem_walkRows hg hne hd hdistance hcut
      rw [← hwhole, List.mem_map] at hrow
      obtain ⟨⟨x, m⟩, hn, heq⟩ := hrow
      obtain ⟨hx, rfl⟩ := Prod.mk.inj heq
      obtain rfl := OntologyResource.node_injective hx
      exact hn

end

end

/-! ## Reachable workspaces -/

namespace Workspace

variable {clock : Int → Prop} {w : Workspace} {container : Bytes}

/-- A traversal that starts does so at the node of its resource, within the bound of the depth. -/
theorem traversalStart_ok {start : OntologyResource} {predicate key : Bytes} {depth limit : Nat}
    {deleted : Bool} {cancellation : StopToken}
    (h : traversalStart L objects g start predicate depth limit deleted cancellation = .ok key) :
    key = start.node ∧ depth ≤ 32 := by
  simp only [traversalStart, bind_ok, failIf_ok, pure_ok] at h
  obtain ⟨k, hk, -, -, -, -, -, hdepth, -, -, -, -, -, -, -, -, rfl⟩ := h
  exact ⟨nodeKey_ok hk, by omega⟩

/-- **Bounded traversal returns shortest distances.** In every workspace the stores and the semantic
filesystems reach, a traversal that returns gives resources at their exact distances, in their
order, and all of them unless it reports that it was cut off; and one whose arguments are admitted
returns unless it is cancelled. -/
theorem Reachable.traverse_exact (h : Reachable P clock container w)
    (priority : Priority (Prod.snd : Bytes × Nat → Nat)) (start : OntologyResource)
    (predicate : Bytes) (direction : OntologyDirection) (depth limit : Nat) (deleted : Bool)
    (cancellation : StopToken) :
    (∀ walk, traverse P.json w.package.tables w.ontology.graph priority start predicate direction
        depth limit deleted cancellation = .ok walk →
      ExactWalk w.package.tables w.ontology.graph predicate direction deleted start depth limit
        walk) ∧
    ∀ key, traversalStart P.json w.package.tables w.ontology.graph start predicate depth limit
        deleted cancellation = .ok key → cancellation 1 = false →
      ∃ walk, traverse P.json w.package.tables w.ontology.graph priority start predicate direction
        depth limit deleted cancellation = .ok walk := by
  have hg := h.sound.ontology.storage
  have hresources : ∀ r ∈ (walkRows (walked w.package.tables w.ontology.graph priority start
      predicate direction depth deleted) start.node).take (limit + 1),
      ∃ x : OntologyResource, r.1 = x.node := by
    intro r hr
    obtain ⟨x, hx, -⟩ := walkRows_distance hg (List.mem_of_mem_take hr)
    exact ⟨x, hx⟩
  obtain ⟨nodes, hnodes, hmap⟩ := mapM_resources hresources
  constructor
  · intro walk hwalk
    simp only [OntologyFileSystem.traverse, bind_ok, failIf_ok, pure_ok] at hwalk
    obtain ⟨key, hkey, found, hfound, -, -, rfl⟩ := hwalk
    obtain ⟨rfl, hdepth⟩ := traversalStart_ok hkey
    obtain rfl := Except.ok.inj (hnodes.symm.trans hfound)
    exact walkPage_exact hg hdepth hmap
  · intro key hkey hrunning
    obtain ⟨rfl, -⟩ := traversalStart_ok hkey
    refine ⟨_, bind_ok.2 ⟨_, hkey, bind_ok.2 ⟨nodes, hnodes, bind_ok.2 ⟨(), ?_, rfl⟩⟩⟩⟩
    refine failIf_ok.2 ?_
    rw [hrunning]
    exact Bool.false_ne_true

/-- Two entities that are linked to each other. -/
def sampleLinks : List OntologyChange :=
  [.ontologyProperty ⟨ascii "p", ascii "label", .resource, [], [], false, false⟩,
    .ontologyEntity ⟨ascii "a", ascii "label", []⟩,
    .ontologyEntity ⟨ascii "b", ascii "label", []⟩,
    .assertion ⟨⟨.entity, ascii "a"⟩, ascii "p", .resource ⟨.entity, ascii "b"⟩, true⟩,
    .assertion ⟨⟨.entity, ascii "b"⟩, ascii "p", .resource ⟨.entity, ascii "a"⟩, true⟩]

/-- Two entities are linked to each other, and a traversal starts from one. The batch is applied and
the traversal is run by computation, and the theorem says what the walk is. -/
theorem Reachable.traverse_exact_sample : ∃ (w : Workspace) (walk : OntologyWalk),
    walk.nodes ≠ [] ∧
    traverse Platform.reference.json w.package.tables w.ontology.graph (.fifo _)
      ⟨.entity, ascii "a"⟩ (ascii "p") .outgoing 3 2 false (fun _ => false) = .ok walk ∧
    ExactWalk w.package.tables w.ontology.graph (ascii "p") .outgoing false ⟨.entity, ascii "a"⟩
      3 2 walk := by
  have hok : (Package.exec .reference .reference [Package.sampleBegin] (.fresh (ascii "c")) >>=
      fun x => OntologyFileSystem.apply Platform.reference.json x.2 ⟨ascii "c", false⟩ .empty
        sampleLinks 0 Package.sampleSession (fun _ => false) 0 >>= fun y =>
          traverse Platform.reference.json x.2 y.2.graph (.fifo _) ⟨.entity, ascii "a"⟩
            (ascii "p") .outgoing 3 2 false (fun _ => false) >>= fun walk =>
              failIf (walk.nodes = []) "unexpected").isOk = true := by
    decide +kernel
  obtain ⟨u, h⟩ := exists_of_isOk hok
  obtain ⟨⟨responses, db⟩, hexec, h⟩ := bind_ok.1 h
  obtain ⟨⟨revision, o⟩, happly, h⟩ := bind_ok.1 h
  obtain ⟨walk, hwalk, hnodes⟩ := bind_ok.1 h
  have hexact := (Reachable.traverse_exact (Reachable.of_exec hexec happly) (.fifo _)
    ⟨.entity, ascii "a"⟩ (ascii "p") .outgoing 3 2 false fun _ => false).1 walk hwalk
  exact ⟨⟨⟨db, []⟩, o⟩, walk, failIf_ok.1 hnodes, hwalk, hexact⟩

end Workspace

end FileProvider
