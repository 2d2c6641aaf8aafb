import FileProvider.Object.Inventory
import Mathlib.Data.List.Flatten

/-!
# What an inventory covers

A walk reports nothing exactly where the directories are whole: listed to their end, and holding
nothing but files and directories. Such a walk lists the files that may be packaged, and the paths
it lists differ, whether it reports something or not; so an inventory without issues is exact.

A listing is a tree, and the lemmas about a walk follow its recursion. `Scanned` puts the walks of
several trees together, whose logical paths have to differ as well.
-/

namespace FileProvider

open Bytes Fallible

namespace ObjectPackager

variable {inspect : List Bytes → Fallible ObjectSourceIdentity} {concurrency : Nat} {stopped : Bool}
  {trees : List ObjectTree} {t : ObjectTreeMapping}

/-! ## What a walk lists -/

/-- A path below a directory of a tree may be packaged: no part of it is the provider's own, and it
is not below an excluded one. -/
structure Packable (t : ObjectTreeMapping) (directory relative : List Bytes) : Prop where
  top : ∀ name ∈ (directory ++ relative).head?, name ∉ t.excludedTopLevel
  parts : ∀ name ∈ relative, providerControl name = false

/-- The files of a tree that are packaged: regular files that may be, under directories that may
be. -/
def Payload (t : ObjectTree) (relative : List Bytes) : Prop :=
  t.listing.At relative .regular ∧ Packable t.toObjectTreeMapping [] relative

/-- A directory is listed to its end, and holds regular files and directories, but for what the
walk passes by. -/
def Whole (t : ObjectTreeMapping) (directory : List Bytes) : DirectoryListing → Prop
  | .done => True
  | .failed _ => False
  | .entry name status below rest =>
      (skips t (directory ++ [name]) = false → status = .ok .regular ∨
        status = .ok .directory ∧ Whole t (directory ++ [name]) below) ∧ Whole t directory rest

/-- A name is not skipped when it is none of the provider's own and, at the top, not excluded. -/
theorem skips_eq_false {directory : List Bytes} {name : Bytes} :
    skips t (directory ++ [name]) = false ↔ providerControl name = false ∧
      ∀ top ∈ (directory ++ [name]).head?, top ∉ t.excludedTopLevel := by
  rw [skips, List.getLast?_concat, Option.any_some, Bool.or_eq_false_iff]
  refine and_congr_right fun _ => ?_
  cases (directory ++ [name]).head? <;> simp

/-! ### Reports -/

/-- A walk that ends early says why. -/
def Walk.Reported (w : Walk) : Prop := w.issues = [] → w.ended = false

namespace Walk

variable {a b : Walk}

/-- Two parts of a listing have no issues when neither has. -/
theorem andThen_issues (ha : a.Reported) :
    (a.andThen b).issues = [] ↔ a.issues = [] ∧ b.issues = [] := by
  unfold andThen
  split
  · next hended =>
      constructor
      · intro h
        rw [ha h] at hended
        cases hended
      · exact And.left
  · exact List.append_eq_nil_iff

/-- Two parts that report are one that reports. -/
theorem Reported.andThen (ha : a.Reported) (hb : b.Reported) : (a.andThen b).Reported := by
  intro h
  obtain ⟨hissues, hissues'⟩ := (andThen_issues ha).1 h
  unfold Walk.andThen
  rw [ha hissues, if_neg Bool.false_ne_true]
  exact hb hissues'

/-- Where the first part has not ended the scan, the entries of both follow each other. -/
theorem andThen_entries (ha : a.ended = false) :
    (a.andThen b).entries = a.entries ++ b.entries := by
  unfold andThen
  rw [ha, if_neg Bool.false_ne_true]

/-- The entries of both parts are among those that each may have. -/
theorem andThen_sublist {l l' : List ObjectPackagingEntry} (ha : a.entries.Sublist l)
    (hb : b.entries.Sublist l') : (a.andThen b).entries.Sublist (l ++ l') := by
  unfold andThen
  split
  · exact ha.trans (List.sublist_append_left _ _)
  · exact ha.append hb

end Walk

/-- Visiting a file reports what it does not take. -/
theorem visit_reported (relative : List Bytes) (status : Fallible FileStatus) :
    (visit t relative status).Reported := by
  intro _
  rcases status with message | (_ | _ | _ | _) <;> rfl

/-- What is no regular file and no directory is reported. -/
theorem visit_issues (relative : List Bytes) (status : Fallible FileStatus) :
    (visit t relative status).issues = [] ↔ status = .ok .regular ∨ status = .ok .directory := by
  rcases status with message | (_ | _ | _ | _) <;> simp [visit, issueAt, Walk.nothing]

/-- Walking a directory reports what it does not take, by induction on the listing. -/
theorem walk_reported (l : DirectoryListing) (directory : List Bytes) :
    (walk t directory l).Reported := by
  induction l generalizing directory with
  | done => exact fun _ => rfl
  | failed message => exact fun h => absurd h (List.cons_ne_nil _ _)
  | entry name status below rest ihbelow ihrest =>
      rw [walk]
      split
      · exact ihrest directory
      · refine ((visit_reported _ _).andThen ?_).andThen (ihrest directory)
        split
        · exact ihbelow _
        · exact fun _ => rfl

/-- **A walk reports nothing where the directory is whole.** -/
theorem walk_issues (l : DirectoryListing) (directory : List Bytes) :
    (walk t directory l).issues = [] ↔ Whole t directory l := by
  induction l generalizing directory with
  | done => exact iff_of_true rfl trivial
  | failed message => exact iff_of_false (List.cons_ne_nil _ _) id
  | entry name status below rest ihbelow ihrest =>
      rw [walk, Whole, ← ihrest directory, ← ihbelow]
      cases hskips : skips t (directory ++ [name]) with
      | true => simp
      | false =>
          have hbelow : (if descends status then walk t (directory ++ [name]) below
              else .nothing).Reported := by
            split
            · exact walk_reported _ _
            · exact fun _ => rfl
          rw [if_neg Bool.false_ne_true,
            Walk.andThen_issues ((visit_reported _ _).andThen hbelow),
            Walk.andThen_issues (visit_reported _ _), visit_issues]
          rcases status with message | (_ | _ | _ | _) <;> simp [descends, Walk.nothing]

/-! ### Entries -/

/-- A file is packable when no name on its way is skipped. -/
theorem packable_cons {directory relative : List Bytes} {name : Bytes} :
    Packable t directory (name :: relative) ↔ skips t (directory ++ [name]) = false ∧
      Packable t (directory ++ [name]) relative := by
  have hhead : (directory ++ name :: relative).head? = (directory ++ [name]).head? := by
    cases directory <;> rfl
  have hhead' : (directory ++ [name] ++ relative).head? = (directory ++ [name]).head? := by
    cases directory <;> rfl
  rw [skips_eq_false]
  constructor
  · rintro ⟨htop, hparts⟩
    obtain ⟨hname, hparts⟩ := List.forall_mem_cons.1 hparts
    rw [hhead] at htop
    exact ⟨⟨hname, htop⟩, hhead' ▸ htop, hparts⟩
  · rintro ⟨⟨hname, htop⟩, -, hparts⟩
    exact ⟨hhead ▸ htop, List.forall_mem_cons.2 ⟨hname, hparts⟩⟩

/-- **A walk of a whole directory lists the files that may be packaged.** A file is either an entry
of the directory itself, or lies below one of its directories, which is the induction. -/
theorem mem_walk {l : DirectoryListing} {directory : List Bytes} (h : Whole t directory l)
    (e : ObjectPackagingEntry) : e ∈ (walk t directory l).entries ↔ ∃ relative,
      l.At relative .regular ∧ Packable t directory relative ∧
        e = entryAt t (directory ++ relative) := by
  induction l generalizing directory with
  | done =>
      refine iff_of_false List.not_mem_nil ?_
      rintro ⟨relative, hat, -⟩
      cases hat
  | failed message => exact absurd h id
  | entry name status below rest ihbelow ihrest =>
      obtain ⟨hstatus, hrest⟩ := h
      have hiff := ihrest hrest
      cases hskips : skips t (directory ++ [name]) with
      | true =>
          rw [walk, if_pos hskips, hiff]
          constructor
          · rintro ⟨relative, hat, hpackable, rfl⟩
            exact ⟨relative, .next hat, hpackable, rfl⟩
          · rintro ⟨relative, hat, hpackable, rfl⟩
            cases hat with
            | here =>
                rw [(packable_cons.1 hpackable).1] at hskips
                cases hskips
            | next hat => exact ⟨relative, hat, hpackable, rfl⟩
            | down hat =>
                rw [(packable_cons.1 hpackable).1] at hskips
                cases hskips
      | false =>
          rw [walk, if_neg (by rw [hskips]; exact Bool.false_ne_true)]
          rcases hstatus hskips with rfl | ⟨rfl, hbelow⟩
          · have hentries : (((visit t (directory ++ [name]) (.ok .regular)).andThen
                (if descends (.ok .regular) then walk t (directory ++ [name]) below
                  else .nothing)).andThen (walk t directory rest)).entries
                = entryAt t (directory ++ [name]) :: (walk t directory rest).entries := rfl
            rw [hentries, List.mem_cons, hiff]
            constructor
            · rintro (rfl | ⟨relative, hat, hpackable, rfl⟩)
              · refine ⟨[name], .here, packable_cons.2 ⟨hskips, ?_⟩, rfl⟩
                rw [skips_eq_false] at hskips
                exact ⟨by rw [List.append_nil]; exact hskips.2, by simp⟩
              · exact ⟨relative, .next hat, hpackable, rfl⟩
            · rintro ⟨relative, hat, hpackable, rfl⟩
              cases hat with
              | here => exact .inl rfl
              | next hat => exact .inr ⟨relative, hat, hpackable, rfl⟩
          · have hended := walk_reported (t := t) below (directory ++ [name])
              ((walk_issues _ _).2 hbelow)
            have hdown : (visit t (directory ++ [name]) (.ok .directory)).andThen
                (if descends (.ok .directory) then walk t (directory ++ [name]) below
                  else .nothing) = walk t (directory ++ [name]) below := rfl
            rw [hdown, Walk.andThen_entries hended, List.mem_append, ihbelow hbelow, hiff]
            constructor
            · rintro (⟨relative, hat, hpackable, rfl⟩ | ⟨relative, hat, hpackable, rfl⟩)
              · refine ⟨name :: relative, .down hat, packable_cons.2 ⟨hskips, hpackable⟩, ?_⟩
                rw [List.append_assoc]
                rfl
              · exact ⟨relative, .next hat, hpackable, rfl⟩
            · rintro ⟨relative, hat, hpackable, rfl⟩
              cases hat with
              | next hat => exact .inr ⟨relative, hat, hpackable, rfl⟩
              | down hat =>
                  refine .inl ⟨_, hat, (packable_cons.1 hpackable).2, ?_⟩
                  rw [List.append_assoc]
                  rfl

/-! ### Logical paths -/

/-- The paths of a directory that a walk can list. -/
def files : DirectoryListing → List (List Bytes)
  | .done => []
  | .failed _ => []
  | .entry name _ below rest => [name] :: (files below).map (name :: ·) ++ files rest

/-- A file of a listing lies under one of its names. -/
theorem mem_files {l : DirectoryListing} {path : List Bytes} (h : path ∈ files l) :
    ∃ name ∈ l.names, ∃ relative, path = name :: relative := by
  induction l with
  | done => cases h
  | failed message => cases h
  | entry name status below rest ihbelow ihrest =>
      rcases List.mem_append.1 h with h | h
      · rcases List.mem_cons.1 h with rfl | h
        · exact ⟨name, List.mem_cons_self, [], rfl⟩
        · obtain ⟨relative, -, rfl⟩ := List.mem_map.1 h
          exact ⟨name, List.mem_cons_self, relative, rfl⟩
      · obtain ⟨name', hname', hpath⟩ := ihrest h
        exact ⟨name', List.mem_cons_of_mem _ hname', hpath⟩

/-- A valid listing names each file once. The names in one directory are different, and files below
two of them differ in the first name. -/
theorem files_nodup {l : DirectoryListing} (h : l.Valid) : (files l).Nodup := by
  induction l with
  | done => exact .nil
  | failed message => exact .nil
  | entry name status below rest ihbelow ihrest =>
      obtain ⟨-, hname, hbelow, hrest⟩ := h
      rw [files, List.nodup_append]
      refine ⟨List.nodup_cons.2 ⟨?_, ?_⟩, ihrest hrest, ?_⟩
      · intro hmem
        obtain ⟨relative, hrelative, heq⟩ := List.mem_map.1 hmem
        obtain ⟨_, -, _, rfl⟩ := mem_files hrelative
        cases heq
      · exact (ihbelow hbelow).map fun _ _ h => (List.cons.inj h).2
      · -- Paths that begin with the name differ from those that begin with another.
        rintro path hpath path' hpath' rfl
        obtain ⟨name', hname', relative, rfl⟩ := mem_files hpath'
        rcases List.mem_cons.1 hpath with heq | hmem
        · exact hname ((List.cons.inj heq).1 ▸ hname')
        · obtain ⟨_, -, heq⟩ := List.mem_map.1 hmem
          exact hname ((List.cons.inj heq).1 ▸ hname')

/-- No name of a valid listing holds a separator. -/
theorem files_slash {l : DirectoryListing} (h : l.Valid) {path : List Bytes} (hp : path ∈ files l) :
    ∀ name ∈ path, 47 ∉ name := by
  induction l generalizing path with
  | done => cases hp
  | failed message => cases hp
  | entry name status below rest ihbelow ihrest =>
      obtain ⟨hname, -, hbelow, hrest⟩ := h
      rcases List.mem_append.1 hp with hp | hp
      · rcases List.mem_cons.1 hp with rfl | hp
        · simpa using hname
        · obtain ⟨relative, hrelative, rfl⟩ := List.mem_map.1 hp
          exact List.forall_mem_cons.2 ⟨hname, ihbelow hbelow hrelative⟩
      · exact ihrest hrest hp

/-- A visit takes at most the entry of its file. -/
theorem visit_sublist (relative : List Bytes) (status : Fallible FileStatus) :
    (visit t relative status).entries.Sublist [entryAt t relative] := by
  rcases status with message | (_ | _ | _ | _)
  · exact List.nil_sublist _
  · exact List.Sublist.refl _
  · exact List.nil_sublist _
  · exact List.nil_sublist _
  · exact List.nil_sublist _

/-- A walk takes at most the files of its listing, in their order. An entry that is passed over
takes nothing, and a file that is kept stands at its place. -/
theorem walk_sublist (l : DirectoryListing) (directory : List Bytes) :
    (walk t directory l).entries.Sublist
      ((files l).map fun relative => entryAt t (directory ++ relative)) := by
  induction l generalizing directory with
  | done => exact List.nil_sublist _
  | failed message => exact List.nil_sublist _
  | entry name status below rest ihbelow ihrest =>
      have hmap : (files (.entry name status below rest)).map
          (fun relative => entryAt t (directory ++ relative))
          = ([entryAt t (directory ++ [name])] ++ (files below).map
              fun relative => entryAt t (directory ++ [name] ++ relative))
            ++ (files rest).map fun relative => entryAt t (directory ++ relative) := by
        rw [files, List.map_append, List.map_cons, List.map_map]
        simp [Function.comp_def]
      rw [walk, hmap]
      split
      · exact (ihrest directory).trans (List.sublist_append_right _ _)
      · refine Walk.andThen_sublist (Walk.andThen_sublist (visit_sublist _ _) ?_) (ihrest directory)
        split
        · exact ihbelow _
        · exact List.nil_sublist _

/-- A text and the parts after it are read back from the text that slashes join them to. -/
theorem joined_inj {x y : Bytes} {p q : List Bytes} (hx : 47 ∉ x) (hy : 47 ∉ y)
    (hp : ∀ name ∈ p, 47 ∉ name) (hq : ∀ name ∈ q, 47 ∉ name)
    (h : x ++ p.flatMap (fun name => 47 :: name) = y ++ q.flatMap fun name => 47 :: name) :
    x = y ∧ p = q := by
  induction p generalizing x y q with
  | nil =>
      cases q with
      | nil => simpa using h
      | cons b q =>
          refine absurd ?_ hx
          rw [List.flatMap_nil, List.append_nil] at h
          rw [h]
          simp
  | cons a p ih =>
      obtain ⟨ha, hp⟩ := List.forall_mem_cons.1 hp
      cases q with
      | nil =>
          refine absurd ?_ hy
          rw [List.flatMap_nil, List.append_nil] at h
          rw [← h]
          simp
      | cons b q =>
          obtain ⟨hb, hq⟩ := List.forall_mem_cons.1 hq
          rw [List.flatMap_cons, List.flatMap_cons] at h
          obtain ⟨rfl, hrest⟩ := append_sep_inj hx hy h
          obtain ⟨rfl, rfl⟩ := ih ha hb hp hq hrest
          exact ⟨rfl, rfl⟩

/-! ## What a scan finds -/

/-- What the walks of some trees add to a scan. -/
structure Scanned (trees : List ObjectTree) (s s' : Scan) : Prop where
  entries : s'.entries = s.entries
    ++ trees.flatMap fun t => (walk t.toObjectTreeMapping [] t.listing).entries
  issues : s'.issues = s.issues
    ++ trees.flatMap fun t => (walk t.toObjectTreeMapping [] t.listing).issues
  prefixes : ∀ t ∈ trees, 47 ∉ t.treePrefix ∧ t.treePrefix ∉ s.prefixes
  distinct : (trees.map (·.treePrefix)).Nodup

/-- A valid name holds no separator. -/
theorem nameValid_slash {name : Bytes} (h : nameValid name = .ok ()) : 47 ∉ name := by
  simp only [nameValid, failIf_ok, not_or] at h
  exact fun hslash => h.2.2.2.1 ⟨47, hslash, by decide⟩

/-- All trees are scanned one after the other. -/
theorem traverse_all {s s' : Scan} (h : trees.foldlM traverse s = .ok s') : Scanned trees s s' := by
  induction trees generalizing s with
  | nil =>
      rw [List.foldlM_nil, pure_ok] at h
      subst h
      exact ⟨(List.append_nil _).symm, (List.append_nil _).symm, by simp, .nil⟩
  | cons t trees ih =>
      obtain ⟨mid, hmid, h⟩ := foldlM_cons_ok.1 h
      simp only [traverse, bind_ok, failIf_ok, pure_ok] at hmid
      obtain ⟨_, hname, _, hnew, _, -, _, -, _, -, rfl⟩ := hmid
      have hrest := ih h
      refine ⟨?_, ?_, ?_, ?_⟩
      · rw [hrest.entries, List.flatMap_cons, List.append_assoc]
      · rw [hrest.issues, List.flatMap_cons, List.append_assoc]
      · refine List.forall_mem_cons.2 ⟨⟨nameValid_slash hname, hnew⟩, fun t' ht' => ?_⟩
        obtain ⟨hslash, hnot⟩ := hrest.prefixes t' ht'
        exact ⟨hslash, fun hmem => hnot (List.mem_cons_of_mem _ hmem)⟩
      · rw [List.map_cons, List.nodup_cons]
        refine ⟨fun hmem => ?_, hrest.distinct⟩
        obtain ⟨t', ht', hsame⟩ := List.mem_map.1 hmem
        exact (hrest.prefixes t' ht').2 (hsame ▸ List.mem_cons_self)

/-- **No two files have one logical path.** Two files of one tree differ in their names, and two
trees have different prefixes, neither of which has a slash in it. -/
theorem Scanned.nodup {s : Scan} (h : Scanned trees ⟨[], [], [], []⟩ s)
    (hvalid : ∀ t ∈ trees, t.listing.Valid) : (s.entries.map (·.logicalPath)).Nodup := by
  have hlist : (s.entries.map (·.logicalPath)).Sublist
      (trees.flatMap fun t => (files t.listing).map (logical t.toObjectTreeMapping)) := by
    rw [h.entries, List.nil_append, List.map_flatMap]
    refine List.Sublist.flatMap_right trees fun t _ => ?_
    have hsub := (walk_sublist (t := t.toObjectTreeMapping) t.listing []).map
      (fun e : ObjectPackagingEntry => e.logicalPath)
    rwa [List.map_map] at hsub
  refine hlist.nodup (List.nodup_flatMap.2 ⟨fun t ht => ?_, ?_⟩)
  · refine (files_nodup (hvalid t ht)).map_on fun p hp q hq heq => ?_
    exact (joined_inj (h.prefixes t ht).1 (h.prefixes t ht).1 (files_slash (hvalid t ht) hp)
      (files_slash (hvalid t ht) hq) heq).2
  · have hpairs : trees.Pairwise fun t t' => t.treePrefix ≠ t'.treePrefix :=
      List.pairwise_map.1 h.distinct
    refine hpairs.imp_of_mem fun {t t'} ht ht' hne => ?_
    intro path hpath hpath'
    obtain ⟨p, hp, rfl⟩ := List.mem_map.1 hpath
    obtain ⟨q, hq, heq⟩ := List.mem_map.1 hpath'
    exact hne (joined_inj (h.prefixes t' ht').1 (h.prefixes t ht).1 (files_slash (hvalid t' ht') hq)
      (files_slash (hvalid t ht) hp) heq).1.symm

/-- What the loop over the inspected entries reports and counts. -/
theorem accounts_ok {l : List (ObjectPackagingEntry × String)} {issues : List ObjectPackagingIssue}
    {total : Nat} {result : List ObjectPackagingIssue × Nat}
    (h : l.foldlM account (issues, total) = .ok result) :
    (result.1 = [] ↔ issues = [] ∧ ∀ x ∈ l, x.2 = "") ∧
      ((∀ x ∈ l, x.2 = "") → result.2 = total + (l.map (·.1.identity.size)).sum) := by
  induction l generalizing issues total with
  | nil =>
      rw [List.foldlM_nil, pure_ok] at h
      subst h
      simp
  | cons x l ih =>
      obtain ⟨mid, hmid, h⟩ := foldlM_cons_ok.1 h
      unfold account at hmid
      split at hmid
      · next hfailed =>
          obtain rfl := pure_ok.1 hmid
          obtain ⟨hissues, -⟩ := ih h
          refine ⟨iff_of_false ?_ ?_, fun hall => absurd (hall x List.mem_cons_self) hfailed⟩
          · rw [hissues]
            exact fun hnone => List.append_ne_nil_of_right_ne_nil _ (List.cons_ne_nil _ _) hnone.1
          · exact fun hall => hfailed (hall.2 x List.mem_cons_self)
      · next hdone =>
          rw [ne_eq, not_not] at hdone
          simp only [bind_ok, pure_ok] at hmid
          obtain ⟨_, -, rfl⟩ := hmid
          obtain ⟨hissues, htotal⟩ := ih h
          constructor
          · rw [hissues, List.forall_mem_cons]
            exact and_congr_right fun _ => (and_iff_right hdone).symm
          · intro hall
            rw [htotal fun y hy => hall y (List.mem_cons_of_mem _ hy), List.map_cons, List.sum_cons,
              Nat.add_assoc]

/-- An inventory is a scan whose files were inspected. -/
theorem inventory_ok {I : ObjectInventory} (h : inventory inspect stopped trees = .ok I) :
    ∃ s, Scanned trees ⟨[], [], [], []⟩ s ∧
      I.entries = Keyset.orderBy (fun e => order e.logicalPath)
        (s.entries.map fun e => (inspected e (inspect e.source)).1) ∧
      (s.entries.map fun e => inspected e (inspect e.source)).foldlM account (s.issues, 0)
        = .ok (I.issues, I.totalBytes) := by
  simp only [inventory, scan, finish, bind_ok, pure_ok, Prod.exists] at h
  obtain ⟨s, ⟨_, -, hscan⟩, _, -, issues, total, haccount, rfl⟩ := h
  have hzip : List.zipWith inspected s.entries (s.entries.map fun e => inspect e.source)
      = s.entries.map fun e => inspected e (inspect e.source) := by
    rw [List.zipWith_map_right, List.zipWith_self]
  rw [hzip] at haccount
  refine ⟨s, traverse_all hscan, ?_, haccount⟩
  rw [hzip, List.map_map]
  rfl

/-- Inspecting an entry keeps its path. -/
theorem inspected_path (e : ObjectPackagingEntry) (outcome : Fallible ObjectSourceIdentity) :
    (inspected e outcome).1.logicalPath = e.logicalPath := by
  cases outcome <;> rfl

/-- An entry without a message was inspected. -/
theorem inspected_ok {e : ObjectPackagingEntry} {outcome : Fallible ObjectSourceIdentity}
    (hmessage : ∀ message, outcome = .error message → message ≠ "") :
    (inspected e outcome).2 = "" ↔ ∃ identity, outcome = .ok identity := by
  cases outcome with
  | ok identity => simp [inspected]
  | error message => simpa [inspected] using hmessage message rfl

/-- **An inventory is exact.** Its entries stand in the order of their logical paths, which differ.
It reports nothing exactly where every directory was listed to its end, nothing but files and
directories stood there and every file was inspected; and then it has an entry for each file that
may be packaged, with the identity of the file, and no other entry. -/
theorem inventory_exact (hvalid : ∀ t ∈ trees, t.listing.Valid)
    (hmessage : ∀ source message, inspect source = .error message → message ≠ "")
    {I : ObjectInventory} (h : Inventoried inspect concurrency stopped trees (.ok I)) :
    (I.entries.Pairwise fun a b => order a.logicalPath < order b.logicalPath) ∧
    (I.issues = [] ↔ ∀ t ∈ trees, Whole t.toObjectTreeMapping [] t.listing ∧
      ∀ relative, Payload t relative → ∃ identity, inspect (t.root ++ relative) = .ok identity) ∧
    (I.issues = [] → I.totalBytes = (I.entries.map (·.identity.size)).sum ∧
      ∀ e, e ∈ I.entries ↔ ∃ t ∈ trees, ∃ relative, Payload t relative ∧
        e.logicalPath = logical t.toObjectTreeMapping relative ∧ e.source = t.root ++ relative ∧
        inspect e.source = .ok e.identity) := by
  obtain ⟨s, hs, hentries, haccount⟩ := inventory_ok h.eq.symm
  obtain ⟨hissues, htotal⟩ := accounts_ok haccount
  have hscan : s.issues = [] ↔ ∀ t ∈ trees, Whole t.toObjectTreeMapping [] t.listing := by
    rw [hs.issues, List.nil_append, List.flatMap_eq_nil_iff]
    exact forall₂_congr fun t _ => walk_issues _ _
  have hmem : s.issues = [] → ∀ e, e ∈ s.entries ↔ ∃ t ∈ trees, ∃ relative, Payload t relative ∧
      e = entryAt t.toObjectTreeMapping relative := by
    intro hnone e
    rw [hs.entries, List.nil_append, List.mem_flatMap]
    refine exists_congr fun t => and_congr_right fun ht => ?_
    rw [mem_walk (hscan.1 hnone t ht)]
    exact exists_congr fun relative => (and_assoc (a := t.listing.At relative .regular)).symm
  have hinspected : (∀ x ∈ s.entries.map fun e => inspected e (inspect e.source), x.2 = "") ↔
      ∀ e ∈ s.entries, ∃ identity, inspect e.source = .ok identity := by
    rw [List.forall_mem_map]
    exact forall₂_congr fun e _ => inspected_ok (hmessage e.source)
  refine ⟨?_, ?_, fun hnone => ?_⟩
  · rw [hentries]
    refine Keyset.ascending_orderBy ?_
    rw [List.map_map]
    have hpaths : (s.entries.map fun e => order e.logicalPath).Nodup := by
      have hnodup := (hs.nodup hvalid).map order_injective
      rwa [List.map_map] at hnodup
    refine (List.map_congr_left fun e _ => ?_) ▸ hpaths
    exact congrArg order (inspected_path e _).symm
  · rw [hissues, hinspected, hscan]
    constructor
    · rintro ⟨hwhole, hall⟩ t ht
      refine ⟨hwhole t ht, fun relative hpayload => ?_⟩
      exact hall (entryAt t.toObjectTreeMapping relative)
        ((hmem (hscan.2 hwhole) _).2 ⟨t, ht, relative, hpayload, rfl⟩)
    · intro hall
      have hwhole : ∀ t ∈ trees, Whole t.toObjectTreeMapping [] t.listing :=
        fun t ht => (hall t ht).1
      refine ⟨hwhole, fun e he => ?_⟩
      obtain ⟨t, ht, relative, hpayload, rfl⟩ := (hmem (hscan.2 hwhole) e).1 he
      exact (hall t ht).2 relative hpayload
  · obtain ⟨hnone, hsilent⟩ := hissues.1 hnone
    constructor
    · refine (htotal hsilent).trans ?_
      rw [Nat.zero_add, hentries, ((Keyset.orderBy_perm _).map _).sum_eq, List.map_map,
        List.map_map]
      rfl
    · intro e
      rw [hentries, Keyset.mem_orderBy, List.mem_map]
      constructor
      · rintro ⟨e, he, rfl⟩
        obtain ⟨identity, hidentity⟩ := hinspected.1 hsilent e he
        obtain ⟨t, ht, relative, hpayload, rfl⟩ := (hmem hnone e).1 he
        rw [hidentity]
        exact ⟨t, ht, relative, hpayload, rfl, rfl, hidentity⟩
      · rintro ⟨t, ht, relative, hpayload, hpath, hsource, hidentity⟩
        refine ⟨_, (hmem hnone _).2 ⟨t, ht, relative, hpayload, rfl⟩, ?_⟩
        obtain ⟨logicalPath, source, identity⟩ := e
        obtain rfl : logicalPath = _ := hpath
        obtain rfl : source = _ := hsource
        have hidentity : inspect (t.root ++ relative) = .ok identity := hidentity
        show (inspected _ (inspect (t.root ++ relative))).1 = _
        rw [hidentity]
        rfl

/-- A tree with a file, a directory with another, and directories that are passed by. -/
def sampleTree : ObjectTree where
  treePrefix := ascii "photos"
  root := [ascii "home", ascii "photos"]
  excludedTopLevel := [ascii "cache"]
  direct := true
  listing :=
    .entry (ascii "b") (.ok .directory) (.entry (ascii "a") (.ok .regular) .done .done)
      (.entry (ascii "a") (.ok .regular) .done
        (.entry (ascii "cache") (.ok .directory) (.entry (ascii "c") (.ok .special) .done .done)
          (.entry (ascii ".iisacc-File-Provider") (.ok .directory) (.failed "permission denied")
            .done)))

/-- The inventory of the sample tree, by any number of workers. -/
theorem inventory_exact_sample : ∃ I : ObjectInventory,
    Inventoried (fun source => .ok ⟨source.flatten, source.length⟩) 8 false [sampleTree] (.ok I) ∧
      I.entries.length = 2 ∧ I.totalBytes = (I.entries.map (·.identity.size)).sum ∧
      ∀ e, e ∈ I.entries ↔ ∃ t ∈ [sampleTree], ∃ relative, Payload t relative ∧
        e.logicalPath = logical t.toObjectTreeMapping relative ∧ e.source = t.root ++ relative ∧
        (Except.ok ⟨e.source.flatten, e.source.length⟩ : Fallible _) = .ok e.identity := by
  have hok : (inventory (fun source => .ok ⟨source.flatten, source.length⟩) false [sampleTree]
      >>= fun I => failIf (I.issues ≠ [] ∨ I.entries.length ≠ 2) "unexpected").isOk = true := by
    decide +kernel
  obtain ⟨_, hok⟩ := exists_of_isOk hok
  obtain ⟨I, hI, hok⟩ := bind_ok.1 hok
  rw [failIf_ok, not_or, not_not, not_not] at hok
  obtain ⟨result, hresult⟩ := exists_inventoried
    (fun source => .ok ⟨source.flatten, source.length⟩) 8 false [sampleTree]
  obtain rfl := hresult.eq.trans hI
  have hvalid : ∀ t ∈ [sampleTree], t.listing.Valid := by
    simp only [List.forall_mem_singleton, sampleTree, DirectoryListing.Valid]
    decide
  obtain ⟨-, -, hexact⟩ := inventory_exact hvalid (fun _ _ h => by cases h) hresult
  exact ⟨I, hresult, hok.2, hexact hok.1⟩

end ObjectPackager

end FileProvider
