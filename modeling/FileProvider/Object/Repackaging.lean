import FileProvider.Library.Reconcile
import FileProvider.Object.Diffs
import FileProvider.Object.EntryByEntry

/-!
# Packaging a tree again

What a package is for: it keeps the files of a tree, each with its stamp and its authorship. Where
sources do not change and nothing fails, a call of `package` reconciles what is kept with the
sources: a new path is imported, an object with another stamp or authorship is revised, and the
others are left. The batches do not show. A second call finds everything settled.

The abstract side is `Library.Reconcile`: a map from paths to what is kept is brought up to date,
path by path. A package is such a map by what is found under its paths, and each step of the loop is
a step on the map.
-/

namespace FileProvider

open Bytes Fallible Impl
open ObjectStore (found)

variable {P : Platform} {m m' : Impl} {db db' : ObjectTables} {container : Bytes}

/-! ## The tree that is kept -/

/-- What is kept of a file. -/
@[ext] structure KeptFile where
  stamp : Bytes
  authorship : ObjectMetadata
  content : Bytes

/-- A file of a tree that does not change, and the authorship that is supplied for it. -/
structure TreeFile where
  path : Bytes
  stamp : Bytes
  content : Bytes
  supplied : Option ObjectMetadata

namespace TreeFile

/-- Nothing is to be done for a file that is kept like this. -/
def Settled (s : TreeFile) (f : KeptFile) : Prop :=
  f.stamp = s.stamp ∧ ∀ a ∈ s.supplied, a = f.authorship

instance (s : TreeFile) (f : KeptFile) : Decidable (s.Settled f) :=
  inferInstanceAs (Decidable (_ ∧ _))

/-- The file as it is kept, and the authorship where none is supplied. -/
def kept (s : TreeFile) (otherwise : ObjectMetadata) : KeptFile :=
  ⟨s.stamp, s.supplied.getD otherwise, s.content⟩

/-- What becomes of what is kept under its path. -/
def next (s : TreeFile) : Option KeptFile → Option KeptFile
  | none => some (s.kept .unknown)
  | some f => if s.Settled f then none else some (s.kept f.authorship)

/-- How that is counted. -/
def action (s : TreeFile) : Option KeptFile → PackagingAction
  | none => .imported
  | some f => if s.Settled f then .skipped else .revised

/-- A file that was kept is settled. -/
theorem settled_kept (s : TreeFile) (otherwise : ObjectMetadata) :
    s.Settled (s.kept otherwise) := by
  refine ⟨rfl, fun a ha => ?_⟩
  rw [kept, Option.mem_def.1 ha, Option.getD_some]

/-- What follows a kept file is stable: a second run keeps it. -/
theorem next_next (s : TreeFile) (o : Option KeptFile) (f : KeptFile) (h : s.next o = some f) :
    s.next (some f) = none := by
  have hsettled : s.Settled f := by
    cases o with
    | none =>
        cases h
        exact s.settled_kept _
    | some old =>
        simp only [next] at h
        split at h
        · cases h
        · cases h
          exact s.settled_kept _
  exact if_pos hsettled

end TreeFile

/-- What is kept once the files of a tree are reconciled with it. -/
def reconcile (t : Bytes → Option KeptFile) (files : List TreeFile) : Bytes → Option KeptFile :=
  Reconcile.run TreeFile.path TreeFile.next t files

/-- How the files are counted while that is done. -/
def reconcileActions : (Bytes → Option KeptFile) → List TreeFile → List PackagingAction
  | _, [] => []
  | t, s :: files =>
      s.action (t s.path) :: reconcileActions (Reconcile.step TreeFile.path TreeFile.next t s) files

/-- The counters of a report after some actions. -/
def ObjectPackagingReport.after (r : ObjectPackagingReport) (actions : List PackagingAction) :
    ObjectPackagingReport :=
  actions.foldl (fun r action => r.count 1 action) r

/-! ## The tree of a package -/

/-- The tables keep the files of a tree, and no other live object. -/
def KeepsTree (P : Platform) (db : ObjectTables) (t : Bytes → Option KeptFile) : Prop :=
  ∀ path, Option.Rel (fun x f => WrittenFrom P db x f.stamp f.authorship f.content)
    (found db path) (t path)

/-- A record was written from one stamp, one authorship and one content. -/
theorem WrittenFrom.unique {x : ObjectRecord} {stamp stamp' content content' : Bytes}
    {authorship authorship' : ObjectMetadata} (h : WrittenFrom P db x stamp authorship content)
    (h' : WrittenFrom P db x stamp' authorship' content') :
    stamp = stamp' ∧ authorship = authorship' ∧ content = content' := by
  obtain ⟨parts, hparts, hcontent⟩ := h.stored.chunks
  obtain ⟨parts', hparts', hcontent'⟩ := h'.stored.chunks
  obtain rfl := Except.ok.inj (hparts.symm.trans hparts')
  exact ⟨h.stamp.symm.trans h'.stamp, h.authorship.symm.trans h'.authorship,
    hcontent.unique hcontent'⟩

/-- Tables keep one tree at most. -/
theorem KeepsTree.unique {t t' : Bytes → Option KeptFile} (h : KeepsTree P db t)
    (h' : KeepsTree P db t') : t = t' := by
  funext path
  have hrel := h path
  have hrel' := h' path
  generalize found db path = o, t path = f, t' path = f' at hrel hrel' ⊢
  cases hrel with
  | none =>
      cases hrel'
      rfl
  | some hwritten =>
      cases hrel' with
      | some hwritten' =>
          obtain ⟨hstamp, hauthorship, hcontent⟩ := hwritten.unique hwritten'
          exact congrArg some (KeptFile.ext hstamp hauthorship hcontent)

/-- Where a path has a record, the tree has the file it was written from. -/
theorem KeepsTree.of_found {t : Bytes → Option KeptFile} (h : KeepsTree P db t) {path : Bytes}
    {x : ObjectRecord} (hx : found db path = some x) :
    ∃ f, t path = some f ∧ WrittenFrom P db x f.stamp f.authorship f.content := by
  have hrel := h path
  rw [hx] at hrel
  generalize t path = o at hrel ⊢
  cases hrel with
  | some hwritten => exact ⟨_, rfl, hwritten⟩

/-- Where the tree has a file, its path has the record written from it. -/
theorem KeepsTree.of_kept {t : Bytes → Option KeptFile} (h : KeepsTree P db t) {path : Bytes}
    {f : KeptFile} (hf : t path = some f) :
    ∃ x, found db path = some x ∧ WrittenFrom P db x f.stamp f.authorship f.content := by
  have hrel := h path
  rw [hf] at hrel
  generalize found db path = o at hrel ⊢
  cases hrel with
  | some hwritten => exact ⟨_, rfl, hwritten⟩

/-- Where a path has no record, the tree has no file. -/
theorem KeepsTree.of_vacant {t : Bytes → Option KeptFile} (h : KeepsTree P db t) {path : Bytes}
    (hvacant : found db path = none) : t path = none := by
  have hrel := h path
  rw [hvacant] at hrel
  generalize t path = o at hrel ⊢
  cases hrel
  rfl

/-- A head is written with its content. The head of a published object is validated with its
payload, which gives the content and its hash. -/
theorem exists_written (hi : HistoryInvariant P m db) (hpub : Published db) {path : Bytes}
    {x : ObjectRecord} (h : found db path = some x) :
    ∃ content, WrittenFrom P db x x.sourceStamp x.authorship content := by
  obtain ⟨o, ho, rfl, hlive, hhead⟩ := (found_eq_some hi).1 h
  obtain ⟨hkey, hversion, -, -⟩ := headRecord_ok hhead
  have hvalid := hi.valid o ho o.head (hpub o ho) le_rfl
  obtain ⟨hpositive, -, -, hpayload⟩ := validate_iff.1 hvalid
  obtain ⟨r, parts, hr, hparts, hintact⟩ := hpayload rfl
  obtain ⟨htext, hjoined⟩ := get_ok.1 hr
  have hversion' : versionOf db o.objectKey 0 = o.head := by
    rw [versionOf, if_pos rfl, Table.mem_iff_find.1 ho]
    rfl
  have hsame : r = x := by
    rw [versionOf_pos hpositive, ← hversion', joined_head ho, hhead] at hjoined
    exact (Option.some.inj hjoined).symm
  subst hsame
  have hrlive := (found_path hi h).2
  obtain ⟨-, content, hcontent, hlength, hhash⟩ := hintact.content hrlive
  rw [← hkey, ← hversion] at hr hparts
  exact ⟨content, rfl, rfl, hhash.symm, hlength.symm, hr, by omega, hrlive, parts, hparts,
    hcontent⟩

/-- Every sound package keeps a tree. -/
theorem exists_keepsTree (hi : HistoryInvariant P m db) (hpub : Published db) :
    ∃ t, KeepsTree P db t := by
  have hpath : ∀ path, ∃ o : Option KeptFile, Option.Rel
      (fun x (f : KeptFile) => WrittenFrom P db x f.stamp f.authorship f.content)
      (found db path) o := by
    intro path
    cases h : found db path with
    | none => exact ⟨none, .none⟩
    | some x =>
        obtain ⟨content, hwritten⟩ := exists_written hi hpub h
        exact ⟨some ⟨_, _, content⟩, .some hwritten⟩
  choose t ht using hpath
  exact ⟨t, ht⟩

/-! ## One entry -/

/-- The source of an entry does not change, and its authorship is always the same. -/
structure PackagingEntry.Steady (entry : PackagingEntry) (s : TreeFile) : Prop where
  outside : entry.below = false
  path : s.path = entry.logicalPath
  stamp : s.stamp = entry.identity.stamp
  inspect : ∀ round probe, entry.inspect round probe = .ok entry.identity
  authorship : ∀ round, entry.authorship round = .ok s.supplied
  capture : ∀ round, ∃ copy, entry.capture round = .ok (entry.identity, copy) ∧
    copy.content.take copy.size = s.content

section
variable {entry : PackagingEntry} {s : TreeFile} {t : Bytes → Option KeptFile}
  {σ τ : PackagingState}

/-- What is captured of a steady entry is its content. -/
theorem PackagingEntry.Steady.content (he : entry.Steady s) {round : Nat} {content : Bytes}
    (h : entry.Captured round content) : content = s.content := by
  obtain ⟨copy, hcopy, rfl⟩ := h
  obtain ⟨copy', hcopy', hcontent⟩ := he.capture round
  rw [hcopy] at hcopy'
  cases hcopy'
  exact hcontent

/-- What is supplied for a steady entry is its authorship. -/
theorem PackagingEntry.Steady.supplied (he : entry.Steady s) {round : Nat}
    {supplied : Option ObjectMetadata} (h : entry.authorship round = .ok supplied) :
    supplied = s.supplied :=
  Except.ok.inj (h.symm.trans (he.authorship round))

/-- Steady entries have the paths of their files. -/
theorem steady_paths {entries : List PackagingEntry} {files : List TreeFile}
    (h : List.Forall₂ PackagingEntry.Steady entries files) :
    files.map TreeFile.path = entries.map (·.logicalPath) := by
  induction h with
  | nil => rfl
  | cons he _ ih => rw [List.map_cons, List.map_cons, he.path, ih]

/-- Each steady entry has its file. -/
theorem steady_of_mem {entries : List PackagingEntry} {files : List TreeFile}
    (h : List.Forall₂ PackagingEntry.Steady entries files) (hmem : entry ∈ entries) :
    ∃ s ∈ files, entry.Steady s := by
  induction h with
  | nil => cases hmem
  | cons he _ ih =>
      rcases List.mem_cons.1 hmem with rfl | hmem
      · exact ⟨_, List.mem_cons_self, he⟩
      · obtain ⟨s, hs, hsteady⟩ := ih hmem
        exact ⟨s, List.mem_cons_of_mem _ hs, hsteady⟩

/-- Publishing a record of a file keeps the tree with that file. -/
theorem KeepsTree.publish {x : ObjectRecord} {f : KeptFile}
    (h : KeepsTree P db t) (hext : Extends db db')
    (hheads : found db' = publishHead (found db) x)
    (hx : WrittenFrom P db' x f.stamp f.authorship f.content) :
    KeepsTree P db' (Function.update t x.path (some f)) := by
  intro path
  rw [hheads, publishHead]
  by_cases hpath : path = x.path
  · subst hpath
    rw [Function.update_self, Function.update_self]
    exact .some hx
  · rw [Function.update_of_ne hpath, Function.update_of_ne hpath]
    have hrel := h path
    generalize found db path = o, t path = f' at hrel ⊢
    cases hrel with
    | none => exact .none
    | some hwritten => exact .some (hwritten.of_extends hext)

/-- What is kept under the path of an entry settles its file as the record does. -/
theorem settled_iff (he : entry.Steady s) {x : ObjectRecord} {f : KeptFile}
    (h : WrittenFrom P db x f.stamp f.authorship f.content) :
    s.Settled f ↔ entry.Skips s.supplied x := by
  rw [TreeFile.Settled, PackagingEntry.Skips, h.stamp, h.authorship, he.stamp]

/-- What the step of one entry did, if it did not fail. -/
structure Reconciles (P : Platform) (m : Impl) (t : Bytes → Option KeptFile) (s : TreeFile)
    (entry : PackagingEntry) (σ τ : PackagingState) : Prop where
  changes : Relation.ReflTransGen (Change P m) σ.db τ.db
  tree : KeepsTree P τ.db (Reconcile.step TreeFile.path TreeFile.next t s)
  report : τ.report = σ.report.count 1 (s.action (t s.path))
  path : pathValid entry.logicalPath = .ok ()

/-- **One entry reconciles its file**, if it does not fail. The cases are those of the handling; a
file that is skipped is the one in the tree already, and one that is written becomes the one in the
tree. -/
theorem Handles.reconciles (h : Handles P m entry σ τ) (hclean : τ.report.issues = [])
    (he : entry.Steady s) (hm : m.Opens container) (hi : HistoryInvariant P m σ.db)
    (hpub : Published σ.db) (ht : KeepsTree P σ.db t) : Reconciles P m t s entry σ τ := by
  cases h with
  | failed message =>
      exact absurd hclean (List.append_ne_nil_of_right_ne_nil _ (List.cons_ne_nil _ _))
  | @skipped round supplied x hlookup ha hskips =>
      obtain ⟨hvalid, hfound⟩ := lookupPath_eq.1 hlookup
      obtain rfl := he.supplied ha
      obtain ⟨f, hf, hwritten⟩ := ht.of_found (he.path.symm ▸ hfound)
      have hsettled : s.Settled f := (settled_iff he hwritten).2 hskips
      have hnext : s.next (t s.path) = none := by
        rw [hf]
        exact if_pos hsettled
      refine ⟨.refl, ?_, ?_, hvalid⟩
      · rw [Reconcile.step_of_none hnext]
        exact ht
      · rw [hf, TreeFile.action, if_pos hsettled]
        rfl
  | @imported db round supplied source session options random now x ha hcaptured hstamp
      hauthorship hsession himport =>
      obtain rfl := he.supplied ha
      obtain ⟨_, _, _, hc, -, hvalid, -⟩ := importFile_ok himport hsession
      obtain ⟨-, hpath, hwritten⟩ := importFile_written himport hsession hi
      have hchanges : Relation.ReflTransGen (Change P m) σ.db db := .single (.create hc)
      obtain ⟨hi', -, hext⟩ := Package.changes_keep hm hi hpub hchanges
      obtain ⟨hvacant, hheads⟩ := hc.heads hi hi'
      have hxpath : x.path = s.path := hpath.trans he.path.symm
      have hf : t s.path = none := ht.of_vacant (hxpath ▸ hvacant)
      have hnext : s.next (t s.path) = some (s.kept .unknown) := by
        rw [hf]
        rfl
      rw [hstamp, hauthorship, he.content hcaptured, ← he.stamp] at hwritten
      refine ⟨hchanges, ?_, ?_, hvalid⟩
      · rw [Reconcile.step_of_some hnext, ← hxpath]
        exact ht.publish hext hheads hwritten
      · rw [hf]
        rfl
  | @revised db round supplied copy session token draws old x hlookup ha hdiff hcapture hrevise =>
      obtain ⟨hvalid, hfound⟩ := lookupPath_eq.1 hlookup
      obtain rfl := he.supplied ha
      obtain ⟨_, r, _, _, _, -, -, hr, -, -, hrpath, hlive, -⟩ := reviseFile_ok hrevise
      obtain ⟨old', hrequire, -, -, -, hpath, hwhole, hwritten⟩ := reviseFile_written hrevise hi
      obtain rfl := PackagingRun.require_found hlookup hrequire
      have hchanges : Relation.ReflTransGen (Change P m) σ.db db := .single (.revise hr)
      obtain ⟨hi', -, hext⟩ := Package.changes_keep hm hi hpub hchanges
      have hheads := hr.heads hi hi' hlive hrpath
      have hxpath : x.path = s.path :=
        hpath.trans ((found_path hi hfound).1.trans he.path.symm)
      obtain ⟨f, hf, hold⟩ := ht.of_found (he.path.symm ▸ hfound)
      have hsettled : ¬ s.Settled f := fun hsettled => hdiff ((settled_iff he hold).1 hsettled)
      have hnext : s.next (t s.path) = some (s.kept f.authorship) := by
        rw [hf]
        exact if_neg hsettled
      rw [he.content (entry.captured_whole hcapture hwhole), ← he.stamp, hold.authorship]
        at hwritten
      refine ⟨hchanges, ?_, ?_, hvalid⟩
      · rw [Reconcile.step_of_some hnext, ← hxpath]
        exact ht.publish hext hheads hwritten
      · rw [hf, TreeFile.action, if_neg hsettled]
        rfl

/-! ## A whole call -/

/-- The issues of a run are added to those that were there. -/
theorem Packs.issues {entries : List PackagingEntry} (h : Packs P m entries σ τ)
    (hclean : τ.report.issues = []) : σ.report.issues = [] := by
  induction h with
  | nil => exact hclean
  | cons hentry _ ih =>
      have hmid := ih hclean
      cases hentry with
      | failed message =>
          exact absurd hmid (List.append_ne_nil_of_right_ne_nil _ (List.cons_ne_nil _ _))
      | skipped => exact hmid
      | imported => exact hmid
      | revised => exact hmid

/-- **Entries that are handled reconcile their files**, if none fails. The induction is on the
entries that were handled, where the tree reconciled so far is what the next file meets. -/
theorem Packs.reconciles {entries : List PackagingEntry} {files : List TreeFile}
    (h : Packs P m entries σ τ) (hclean : τ.report.issues = [])
    (he : List.Forall₂ PackagingEntry.Steady entries files) (hm : m.Opens container)
    (hi : HistoryInvariant P m σ.db) (hpub : Published σ.db) (ht : KeepsTree P σ.db t) :
    Relation.ReflTransGen (Change P m) σ.db τ.db ∧ KeepsTree P τ.db (reconcile t files) ∧
      τ.report = σ.report.after (reconcileActions t files) ∧
      ∀ entry ∈ entries, pathValid entry.logicalPath = .ok () := by
  induction h generalizing files t with
  | nil σ =>
      cases he
      exact ⟨.refl, ht, rfl, fun _ hmem => absurd hmem List.not_mem_nil⟩
  | cons hentry hrest ih =>
      cases he with
      | cons hs hes =>
          have hfirst := hentry.reconciles (hrest.issues hclean) hs hm hi hpub ht
          obtain ⟨hi', hpub', -⟩ := Package.changes_keep hm hi hpub hfirst.changes
          obtain ⟨hchanges, htree, hreport, hpaths⟩ := ih hclean hes hi' hpub' hfirst.tree
          refine ⟨hfirst.changes.trans hchanges, htree, ?_, ?_⟩
          · rw [hreport, hfirst.report]
            rfl
          · exact List.forall_mem_cons.2 ⟨hfirst.path, hpaths⟩

end

namespace PackagingRun

variable {run run' : PackagingRun} {inventory : PackagingInventory} {final final' : PackagingState}

/-- A call without issues is a run over the entries. -/
theorem package_packs (h : package P m run db inventory = .ok final)
    (hissues : inventory.issues = []) (hstops : ∀ round poll, run.stops round poll = false) :
    Packs P m inventory.entries ⟨db, ⟨0, 0, 0, [], false⟩, []⟩ final := by
  simp only [package, if_neg (not_not_intro hissues), bind_ok, pure_ok] at h
  obtain ⟨-, -, -, -, work, -, -, -, rfl⟩ := h
  rw [hissues]
  exact packageEntries_packs hstops le_rfl

/-- **Packaging reconciles the package with the tree.** Over the tables of any package, where the
sources do not change, nobody cancels and nothing fails, a call leaves exactly the files that
reconciling what was kept before with the files of the inventory gives, and counts them as that
does, whatever the size of its batches. -/
theorem package_reconciles {σ : Package} (hσ : Package.Reachable P container σ)
    (hm : m.Opens container) {files : List TreeFile} (hissues : inventory.issues = [])
    (hstops : ∀ round poll, run.stops round poll = false)
    (hsteady : List.Forall₂ PackagingEntry.Steady inventory.entries files)
    (h : package P m run σ.tables inventory = .ok final) (hclean : final.report.issues = []) :
    ∃ t, (∀ t', KeepsTree P σ.tables t' ↔ t' = t) ∧
      (∀ t', KeepsTree P final.db t' ↔ t' = reconcile t files) ∧
      final.report = ObjectPackagingReport.after ⟨0, 0, 0, [], false⟩
        (reconcileActions t files) := by
  have hi := hσ.sound.history m hm
  obtain ⟨t, ht⟩ := exists_keepsTree hi hσ.sound.published
  obtain ⟨-, htree, hreport, -⟩ := (package_packs h hissues hstops).reconciles hclean hsteady hm hi
    hσ.sound.published ht
  refine ⟨t, fun t' => ⟨fun ht' => ht'.unique ht, ?_⟩, fun t' => ⟨fun ht' => ht'.unique htree, ?_⟩,
    hreport⟩
  · rintro rfl
    exact ht
  · rintro rfl
    exact htree

/-- The files of the sample. -/
def sampleFiles : List TreeFile :=
  [⟨ascii "a", ascii "stamp", [1, 2, 3], none⟩, ⟨ascii "b", ascii "stamp", [4], none⟩]

/-- An inventory of the sample's files. -/
def steadyInventory : PackagingInventory :=
  ⟨[sampleEntry (ascii "a") [1, 2, 3], sampleEntry (ascii "b") [4]], []⟩

/-- The inventory of the sample is steady. -/
theorem steady_sample :
    List.Forall₂ PackagingEntry.Steady steadyInventory.entries sampleFiles := by
  have hsteady : ∀ path content, (sampleEntry path content).Steady
      ⟨path, ascii "stamp", content, none⟩ := fun path content =>
    ⟨rfl, rfl, rfl, fun _ _ => rfl, fun _ => rfl, fun _ => ⟨_, rfl, List.take_length⟩⟩
  exact .cons (hsteady _ _) (.cons (hsteady _ _) .nil)

/-- The sample's files are packaged, and the package keeps the tree that they are. -/
theorem package_reconciles_sample : ∃ (db : ObjectTables) (final : PackagingState),
    package .reference .reference sample db steadyInventory = .ok final ∧
    ∃ t, (∀ t', KeepsTree .reference db t' ↔ t' = t) ∧
      (∀ t', KeepsTree .reference final.db t' ↔ t' = reconcile t sampleFiles) := by
  have hok : (Package.exec .reference .reference [Package.sampleBegin] (.fresh (ascii "c"))
      >>= fun x => package .reference .reference sample x.2 steadyInventory >>= fun final =>
        failIf (final.report.issues ≠ []) "unexpected").isOk = true := by
    decide +kernel
  obtain ⟨_, h⟩ := exists_of_isOk hok
  obtain ⟨⟨responses, db⟩, hexec, h⟩ := bind_ok.1 h
  obtain ⟨final, hfinal, h⟩ := bind_ok.1 h
  obtain ⟨t, hbefore, hafter, -⟩ := package_reconciles
    (Package.reachable_of_exec Package.opens_reference hexec) Package.opens_reference rfl
    (fun _ _ => rfl) steady_sample hfinal (not_not.1 (failIf_ok.1 h))
  exact ⟨db, final, hfinal, t, hbefore, hafter⟩

/-! ## A second call -/

/-- The files that were reconciled are settled, if no two are at one path. -/
theorem settled_reconcile {t : Bytes → Option KeptFile} {files : List TreeFile}
    (hdistinct : (files.map TreeFile.path).Nodup) {s : TreeFile} (hs : s ∈ files) :
    ∃ f, reconcile t files s.path = some f ∧ s.Settled f := by
  have hnext : s.next (reconcile t files s.path) = none :=
    Reconcile.run_settled TreeFile.next_next hdistinct hs
  cases hf : reconcile t files s.path with
  | none =>
      rw [hf] at hnext
      cases hnext
  | some f =>
      refine ⟨f, rfl, by_contra fun hsettled => ?_⟩
      rw [hf, TreeFile.next, if_neg hsettled] at hnext
      cases hnext

/-- What is found under a path is valid. -/
theorem found_valid (hi : HistoryInvariant P m db) (hpub : Published db) {path : Bytes}
    {x : ObjectRecord} (h : found db path = some x) :
    Impl.validate P m db x.key x.version false = .ok true := by
  obtain ⟨o, ho, -, -, hhead⟩ := (found_eq_some hi).1 h
  obtain ⟨hkey, hversion, -, -⟩ := headRecord_ok hhead
  have hvalid := hi.valid o ho o.head (hpub o ho) le_rfl
  obtain ⟨hpositive, hrange, hchain, -⟩ := validate_iff.1 hvalid
  rw [hkey, hversion]
  exact validate_iff.2 ⟨hpositive, hrange, hchain, fun h => absurd h Bool.false_ne_true⟩

/-- What a call finds of an entry that it skips. -/
structure Current (P : Platform) (m : Impl) (db : ObjectTables) (entry : PackagingEntry)
    (x : ObjectRecord) : Prop where
  outside : entry.below = false
  inspect : ∀ round probe, entry.inspect round probe = .ok entry.identity
  found : ObjectStore.lookupPath db entry.logicalPath = .ok (some x)
  skips : ∃ supplied, (∀ round, entry.authorship round = .ok supplied) ∧ entry.Skips supplied x
  valid : Impl.validate P m db x.key x.version false = .ok true

/-- An entry that is current is skipped, and nothing is written. -/
theorem packageEntry_current {work : ObjectSession} {round : Nat} {entry : PackagingEntry}
    {entries : List PackagingEntry} {σ : PackagingState} {x : ObjectRecord}
    (h : Current P m σ.db entry x) : packageEntry P m run work round entry entries σ
      = .ok (entries, σ.publish σ.db .skipped [(entry, x)]) := by
  obtain ⟨supplied, ha, hskips⟩ := h.skips
  simp only [packageEntry, bind_ok, failIf_ok, not_not, Bool.not_eq_true]
  refine ⟨(), h.outside, _, h.inspect _ _, (), rfl, _, h.found, ?_⟩
  simp only [bind_ok]
  refine ⟨_, ha _, ?_⟩
  have hcondition : x.sourceStamp = entry.identity.stamp ∧ ∀ a ∈ supplied, a = x.authorship :=
    hskips
  rw [if_pos hcondition]
  simp only [bind_ok, failIf_ok, pure_ok]
  exact ⟨true, h.valid, (), Bool.noConfusion, trivial⟩

/-- The loop skips entries that are current, and leaves the tables as they are. Each round finds the
object of its entry, compares what was supplied with it, and goes on to the next. -/
theorem packageEntries_current (hstops : ∀ round poll, run.stops round poll = false)
    (work : ObjectSession) {rounds : Nat} (round : Nat) {entries : List PackagingEntry}
    {σ : PackagingState} (hrounds : entries.length ≤ rounds)
    (hall : ∀ entry ∈ entries, ∃ x, Current P m σ.db entry x) :
    (packageEntries P m run work rounds round entries σ).db = σ.db ∧
      (packageEntries P m run work rounds round entries σ).report
        = σ.report.count entries.length .skipped := by
  induction rounds generalizing round entries σ with
  | zero =>
      obtain rfl := List.eq_nil_of_length_eq_zero (Nat.le_zero.1 hrounds)
      exact ⟨rfl, rfl⟩
  | succ rounds ih =>
      cases entries with
      | nil => exact ⟨rfl, rfl⟩
      | cons entry entries =>
          obtain ⟨⟨x, hx⟩, hrest⟩ := List.forall_mem_cons.1 hall
          rw [packageEntries, hstops, if_neg Bool.false_ne_true, packageEntry_current hx]
          obtain ⟨hdb, hreport⟩ := ih (round + 1)
            (σ := σ.publish σ.db .skipped [(entry, x)]) (Nat.le_of_succ_le_succ hrounds) hrest
          refine ⟨hdb, ?_⟩
          dsimp only
          rw [hreport, List.length_cons, Nat.add_comm]
          simp only [PackagingState.publish, ObjectPackagingReport.count, List.length_singleton,
            Nat.add_assoc]

/-- **Packaging is idempotent.** After a call over sources that do not change, in which nothing
failed and no two entries have one path, another one skips every entry and leaves every table as
it is, through any store and with any size of batches. -/
theorem package_idempotent {σ : Package} (hσ : Package.Reachable P container σ)
    (hm : m.Opens container) (hm' : m'.Opens container) {files : List TreeFile}
    (hissues : inventory.issues = []) (hstops : ∀ round poll, run.stops round poll = false)
    (hstops' : ∀ round poll, run'.stops round poll = false)
    (hsteady : List.Forall₂ PackagingEntry.Steady inventory.entries files)
    (hdistinct : (inventory.entries.map (·.logicalPath)).Nodup)
    (h : package P m run σ.tables inventory = .ok final) (hclean : final.report.issues = [])
    (h' : package P m' run' final.db inventory = .ok final') :
    final'.db = final.db ∧
      final'.report = ⟨0, 0, inventory.entries.length, [], false⟩ := by
  have hi := hσ.sound.history m hm
  obtain ⟨t, ht⟩ := exists_keepsTree hi hσ.sound.published
  obtain ⟨hchanges, htree, -, hpaths⟩ := (package_packs h hissues hstops).reconciles hclean
    hsteady hm hi hσ.sound.published ht
  obtain ⟨hi', hpub', -⟩ := Package.changes_keep hm hi hσ.sound.published hchanges
  have hfiles : (files.map TreeFile.path).Nodup := by
    rw [steady_paths hsteady]
    exact hdistinct
  have hcurrent : ∀ entry ∈ inventory.entries, ∃ x, Current P m' final.db entry x := by
    intro entry hentry
    obtain ⟨s, hs, he⟩ := steady_of_mem hsteady hentry
    obtain ⟨f, hf, hsettled⟩ := settled_reconcile (t := t) hfiles hs
    obtain ⟨x, hfound, hwritten⟩ := htree.of_kept hf
    rw [he.path] at hfound
    refine ⟨x, he.outside, he.inspect, lookupPath_eq.2 ⟨hpaths entry hentry, hfound⟩,
      ⟨s.supplied, he.authorship, (settled_iff he hwritten).1 hsettled⟩, ?_⟩
    rw [hm'.validate_eq hm]
    exact found_valid hi' hpub' hfound
  simp only [package, if_neg (not_not_intro hissues), bind_ok, pure_ok] at h'
  obtain ⟨-, -, -, -, work, -, -, -, rfl⟩ := h'
  rw [hissues]
  obtain ⟨hdb, hreport⟩ := packageEntries_current (m := m')
    (σ := ⟨final.db, ⟨0, 0, 0, [], false⟩, []⟩) hstops' work 0 le_rfl hcurrent
  refine ⟨hdb, hreport.trans ?_⟩
  simp only [ObjectPackagingReport.count, Nat.zero_add]

/-- The sample's files are packaged again, one by one. -/
theorem package_idempotent_sample : ∃ (db : ObjectTables) (final : PackagingState),
    package .reference .reference { sample with maximumBatchFiles := 1 } db steadyInventory
      = .ok final ∧ final.db = db ∧ final.report = ⟨0, 0, 2, [], false⟩ := by
  have hok : (Package.exec .reference .reference [Package.sampleBegin] (.fresh (ascii "c"))
      >>= fun x => package .reference .reference sample x.2 steadyInventory >>= fun final =>
        failIf (final.report.issues ≠ []) "unexpected" >>= fun _ =>
          package .reference .reference { sample with maximumBatchFiles := 1 } final.db
            steadyInventory).isOk = true := by
    decide +kernel
  obtain ⟨_, h⟩ := exists_of_isOk hok
  obtain ⟨⟨responses, db⟩, hexec, h⟩ := bind_ok.1 h
  obtain ⟨final, hfinal, h⟩ := bind_ok.1 h
  obtain ⟨_, hclean, h'⟩ := bind_ok.1 h
  exact ⟨final.db, _, h', package_idempotent
    (Package.reachable_of_exec Package.opens_reference hexec) Package.opens_reference
    Package.opens_reference rfl (fun _ _ => rfl) (fun _ _ => rfl) steady_sample (by decide) hfinal
    (not_not.1 (failIf_ok.1 hclean)) h'⟩

end PackagingRun

end FileProvider
