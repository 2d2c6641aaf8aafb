import FileProvider.Catalog.Registration
import FileProvider.Library.Transition

/-!
# Catalogs at work

A call of a catalog is a short run of transactions and of writes to the native files, and it can be
cut between any two of them. `Step` has one constructor for each: what commits, what stands on disk
without a commit after a crash, and what others do with the files. `Called.run` says that every call
is a run of steps, whatever it answers.

A run of such steps is therefore what any number of catalogs and other programs leave behind, with
calls that were cut off anywhere. Invariants are proved of `Step`, once for each constructor, and
hold of `Reached` catalogs by the rule of `Library.Transition`.
-/

namespace FileProvider

open Bytes Fallible

namespace Catalog

/-- What a step shows. -/
inductive Event where
  | register (entries : List FileRegistration)
  | create (path : Bytes)
  | update (key : Bytes) (metadata : FileMetadata)
  | createCollection (key : Bytes)
  | renameCollection (key : Bytes)
  | removeCollection (key : Bytes)
  | saveFilter (key : Bytes)
  | removeFilter (key : Bytes)
  | publish (key : Bytes)
  | interrupted (key : Bytes)
  | native
  | outside (before after : FileSystem)

/-- The events that are not those of others. -/
def Event.own : Event → Bool
  | .outside _ _ => false
  | _ => true

/-- One step of a catalog, or of those it shares the files with. -/
inductive Step (E : CatalogLibraries) : Catalog → Event → Catalog → Prop where
  | register {fs : FileSystem} {db db' : CatalogTables} {entries : List FileRegistration}
      {draws : Nat → KeyDraws} {files : List CatalogFile} :
      registerBatch E fs db entries draws = .ok (files, db') →
      Step E ⟨fs, db⟩ (.register entries) ⟨fs, db'⟩
  | create {fs : FileSystem} {db mid db' : CatalogTables} {relative destination content : Bytes}
      {encoded : Fallible Bytes} {inherited : Option Companion} {m metadata : FileMetadata}
      {draws : KeyDraws} {file : NewFile} {f : CatalogFile} :
      (∀ j ∈ inherited, CompanionValid E j) →
      prepared E ⟨fs, db⟩ relative encoded inherited m = .ok (destination, content, metadata, mid) →
      Catalog.register E (fs.place destination content file) mid relative metadata draws
        = .ok (f, db') →
      Step E ⟨fs, db⟩ (.create relative) ⟨fs.place destination content file, db'⟩
  | update {fs : FileSystem} {db db' : CatalogTables} {key : Bytes} {expected : Nat}
      {input metadata : FileMetadata} :
      normalizeMetadata E input = .ok metadata →
      Catalog.update E fs db key expected metadata = .ok db' →
      Step E ⟨fs, db⟩ (.update key metadata) ⟨fs, db'⟩
  | createCollection {fs : FileSystem} {db db' : CatalogTables} {input name : Bytes}
      {random : Fin 16 → UInt8} {collection : FileCollection} :
      normalized E input 512 false true = .ok name →
      addCollection E db name random = .ok (collection, db') →
      Step E ⟨fs, db⟩ (.createCollection collection.key) ⟨fs, db'⟩
  | renameCollection {fs : FileSystem} {db db' : CatalogTables} {key input name : Bytes} :
      normalized E input 512 false true = .ok name →
      rename E db key name = .ok db' → Step E ⟨fs, db⟩ (.renameCollection key) ⟨fs, db'⟩
  | removeCollection {fs : FileSystem} {db db' : CatalogTables} {key : Bytes} :
      dissolve db key = .ok db' → Step E ⟨fs, db⟩ (.removeCollection key) ⟨fs, db'⟩
  | saveFilter {fs : FileSystem} {db db' : CatalogTables} {name : Bytes} {filter : FileFilter}
      {random : Fin 16 → UInt8} {saved : SavedFileFilter} :
      storeFilter E db name filter random = .ok (saved, db') →
      Step E ⟨fs, db⟩ (.saveFilter saved.key) ⟨fs, db'⟩
  | removeFilter {fs : FileSystem} {db db' : CatalogTables} {key : Bytes} :
      dropFilter E db key = .ok db' → Step E ⟨fs, db⟩ (.removeFilter key) ⟨fs, db'⟩
  | publish {c : Catalog} {key text : Bytes} {f : CatalogFile} {physical : Physical} :
      publication E c.fs c.tables key = .ok (some (f, text)) →
      Step E c (.publish key)
        { c.replaceCompanion f text physical with tables := c.tables.dequeue f.index }
  | interrupted {c : Catalog} {key text : Bytes} {f : CatalogFile} {physical : Physical} :
      publication E c.fs c.tables key = .ok (some (f, text)) →
      Step E c (.interrupted key) (c.replaceCompanion f text physical)
  | unindexed {c : Catalog} {mid : CatalogTables} {relative destination content : Bytes}
      {encoded : Fallible Bytes} {inherited : Option Companion} {m metadata : FileMetadata}
      {file : NewFile} :
      prepared E c relative encoded inherited m = .ok (destination, content, metadata, mid) →
      Step E c .native { c with fs := c.fs.place destination content file }
  | directory {c : Catalog} {p : Bytes} : c.fs.node p = none →
      Step E c .native { c with fs := c.fs.write p .directory }
  | staged {c : Catalog} {p content : Bytes} {physical : Physical} : c.fs.node p = none →
      Step E c .native { c with fs := c.fs.write p (.file physical content) }
  | present {c : Catalog} {relative : Bytes} {presented : Option NewFile} :
      Step E c .native (prepare E c relative presented)
  | outside {fs fs' : FileSystem} {db : CatalogTables} :
      Step E ⟨fs, db⟩ (.outside fs fs') ⟨fs', db⟩

variable {E : CatalogLibraries} {c c' : Catalog}

/-! ## Calls as runs -/

/-- A run of a catalog's own steps. -/
def Leads (E : CatalogLibraries) (c c' : Catalog) : Prop :=
  ∃ events, Run (Step E) c events c' ∧ ∀ e ∈ events, e.own = true

/-- A catalog leads to itself. -/
theorem Leads.refl (c : Catalog) : Leads E c c := ⟨[], .nil c, by simp⟩

/-- A step of its own leads a catalog on. -/
theorem Leads.single {e : Event} (h : Step E c e c') (he : e.own = true := by rfl) :
    Leads E c c' :=
  ⟨[e], .cons h (.nil _), by simpa using he⟩

/-- Leading is transitive. -/
theorem Leads.trans {c'' : Catalog} (h : Leads E c c') (h' : Leads E c' c'') : Leads E c c'' := by
  obtain ⟨events, hrun, hown⟩ := h
  obtain ⟨more, hrun', hown'⟩ := h'
  refine ⟨events ++ more, hrun.append hrun', fun e he => ?_⟩
  rcases List.mem_append.1 he with he | he
  · exact hown e he
  · exact hown' e he

/-- Publishing a companion is one step of the catalog's own, or none. -/
theorem publish_leads (c : Catalog) (key : Bytes) (w : NativeWrite Physical) :
    Leads E c (publish E c key w).2 := by
  unfold publish
  split
  · exact .refl c
  · exact .refl c
  · next f text h =>
      cases w with
      | failed => exact .refl c
      | torn physical => exact .single (.interrupted h)
      | done physical => exact .single (.publish h)

/-- So is publishing with its answer. -/
theorem publishResult_leads (c : Catalog) (key : Bytes) (w : NativeWrite Physical) :
    Leads E c (publishResult E c key w).2 :=
  publish_leads c key w

/-- Publishing several companions is a run of such steps, by induction on the keys. -/
theorem publishAll_leads (keys : List Bytes) (w : Nat → NativeWrite Physical) (c : Catalog) :
    Leads E c (publishAll E keys w c).2 := by
  induction keys generalizing w c with
  | nil => exact .refl c
  | cons key keys ih =>
      have hfirst := publish_leads (E := E) c key (w 0)
      unfold publishAll
      split
      · next h =>
          rw [h] at hfirst
          exact hfirst
      · next h =>
          rw [h] at hfirst
          exact hfirst.trans (ih _ _)

/-- So is the call that publishes what waits. -/
theorem publishMetadata_leads (c : Catalog) (limit : Nat) (w : Nat → NativeWrite Physical) :
    Leads E c (publishMetadata E c limit w).2 := by
  unfold publishMetadata
  split
  · exact .refl c
  · exact publishAll_leads _ w c

/-- Making directories is a run of steps, by induction on them. -/
theorem makeDirectories_leads (dirs : List Bytes) (fs : FileSystem) (db : CatalogTables) :
    Leads E ⟨fs, db⟩ ⟨fs.makeDirectories dirs, db⟩ := by
  induction dirs generalizing fs with
  | nil => exact .refl _
  | cons p rest ih =>
      unfold FileSystem.makeDirectories
      split
      · next h =>
          have hstep : Step E ⟨fs, db⟩ .native ⟨fs.write p .directory, db⟩ := .directory h
          exact (Leads.single hstep).trans (ih _)
      · exact ih fs
      · exact .refl _

/-- Making the parents of a path is a run of steps. -/
theorem makeParents_leads (c : Catalog) (relative : Bytes) :
    Leads E c { c with fs := makeParents E c.fs relative } := by
  unfold makeParents
  split
  · exact makeDirectories_leads _ c.fs c.tables
  · exact .refl c

/-- A place is vacant when nothing stands under it, nor under the names beside it. -/
theorem prepared_vacant {relative destination content : Bytes} {encoded : Fallible Bytes}
    {inherited : Option Companion} {m metadata : FileMetadata} {mid : CatalogTables}
    (h : prepared E c relative encoded inherited m = .ok (destination, content, metadata, mid)) :
    c.fs.node destination = none ∧ c.fs.node (companionPath destination) = none ∧
      c.fs.node (previewPath destination) = none := by
  simp only [prepared, bind_ok, pure_ok, Prod.exists, Prod.mk.injEq] at h
  obtain ⟨_, -, _, hvacant, _, -, _, _, -, rfl, -⟩ := h
  simpa [requireVacant] using hvacant

/-- A new file that is taken away again leaves the native files as they were. Nothing stood under
the path or under that of its preview, and these two are what is taken away. -/
theorem unplace_place {fs : FileSystem} {path content : Bytes} (file : NewFile)
    (hpath : fs.node path = none) (hpreview : fs.node (previewPath path) = none) :
    (fs.place path content file).unplace path = fs := by
  obtain ⟨intact, node⟩ := fs
  obtain ⟨physical, preview⟩ := file
  have hnode : ∀ p, ((FileSystem.place ⟨intact, node⟩ path content
      ⟨physical, preview⟩).unplace path).node p = node p := by
    intro p
    show (if p = previewPath path then none else if p = path then none else _) = _
    split
    · next hp => rw [hp]; exact hpreview.symm
    · next hp =>
        split
        · next hp' => rw [hp']; exact hpath.symm
        · next hp' =>
            cases preview with
            | none => exact if_neg hp'
            | some file => exact (if_neg hp).trans (if_neg hp')
  cases preview with
  | none => exact congrArg (FileSystem.mk intact) (funext hnode)
  | some file => exact congrArg (FileSystem.mk intact) (funext hnode)

/-- Adding a file is a run of steps, as far as it comes. It places the file and commits its row, and
then writes the companion; a call that ends between these steps has done a part of them. -/
theorem addFile_leads (c : Catalog) (relative : Bytes) (encoded : Fallible Bytes)
    {inherited : Option Companion} (hinherited : ∀ j ∈ inherited, CompanionValid E j)
    (metadata : FileMetadata) (draws : KeyDraws) (file : NativeWrite NewFile)
    (w : NativeWrite Physical) :
    Leads E c (addFile E c relative encoded inherited metadata draws file w).2 := by
  unfold addFile
  split
  · exact .refl c
  · next h =>
      cases file with
      | failed => exact .refl c
      | torn file => exact .single (.unindexed h)
      | done file =>
          dsimp only
          split
          · obtain ⟨hpath, -, hpreview⟩ := prepared_vacant h
            rw [unplace_place file hpath hpreview]
            exact .refl c
          · next hregister =>
              have hstep : Step E ⟨c.fs, c.tables⟩ _ _ := .create hinherited h hregister
              exact (Leads.single hstep).trans (publishResult_leads _ _ w)

/-- Registering files is a run of steps: one commit, and the companions one by one. -/
theorem registerFiles_leads (c : Catalog) (entries : List FileRegistration)
    (draws : Nat → KeyDraws) : Leads E c (registerFiles E c entries draws).2 := by
  unfold registerFiles
  split
  · exact .refl c
  · next h =>
      simp only [bind_ok] at h
      obtain ⟨_, -, _, -, _, -, hbatch⟩ := h
      exact .single (.register hbatch)

/-- The companion of a source was accepted. It is either the companion beside the source, which is
checked as it is read, or there is none. -/
theorem importMetadata_valid {source : FileSystem} {origin : Bytes} {input : Option FileMetadata}
    {metadata : FileMetadata} {inherited : Option Companion}
    (h : importMetadata E source origin input = .ok (metadata, inherited)) :
    ∀ j ∈ inherited, CompanionValid E j := by
  cases input with
  | some m' =>
      simp only [importMetadata, bind_ok, pure_ok, Prod.mk.injEq] at h
      obtain ⟨m, -, physical, -, -, rfl⟩ := h
      intro j hj
      cases hj
  | none =>
      simp only [importMetadata, bind_ok] at h
      obtain ⟨m, -, physical, -, found, hfound, h⟩ := h
      cases found with
      | none =>
          rw [pure_ok, Prod.mk.injEq] at h
          obtain ⟨-, rfl⟩ := h
          intro j hj
          cases hj
      | some j' =>
          rw [pure_ok, Prod.mk.injEq] at h
          obtain ⟨-, rfl⟩ := h
          intro j hj
          obtain rfl := Option.some.inj hj
          exact sidecar_valid hfound

/-! ## All calls -/

/-- What a writing call of a catalog leaves. -/
inductive Called (E : CatalogLibraries) (c : Catalog) : Catalog → Prop where
  | createFile (relative bytes : Bytes) (input : FileMetadata) (draws : KeyDraws)
      (file : NativeWrite NewFile) (w : NativeWrite Physical) :
      Called E c (Catalog.createFile E c relative bytes input draws file w).2
  | createFileWith (relative : Bytes) (encoded : Fallible Bytes) (input : FileMetadata)
      (draws : KeyDraws) (file : NativeWrite NewFile) (w : NativeWrite Physical) :
      Called E c (Catalog.createFileWith E c relative encoded input draws file w).2
  | importFile (source : FileSystem) (origin relative : Bytes) (input : Option FileMetadata)
      (draws : KeyDraws) (file : NativeWrite NewFile) (w : NativeWrite Physical) :
      Called E c (Catalog.importFile E c source origin relative input draws file w).2
  | registerFile (relative : Bytes) (metadata : Option FileMetadata) (presented : Option NewFile)
      (draws : KeyDraws) (w : NativeWrite Physical) :
      Called E c (Catalog.registerFile E c relative metadata presented draws w).2
  | registerFiles (entries : List FileRegistration) (draws : Nat → KeyDraws) :
      Called E c (Catalog.registerFiles E c entries draws).2
  | updateMetadata (key : Bytes) (expected : Nat) (input : FileMetadata)
      (w : NativeWrite Physical) :
      Called E c (Catalog.updateMetadata E c key expected input w).2
  | createCollection (name : Bytes) (random : Fin 16 → UInt8) :
      Called E c (Catalog.createCollection E c name random).2
  | renameCollection (key name : Bytes) : Called E c (Catalog.renameCollection E c key name).2
  | removeCollection (key : Bytes) (w : Nat → NativeWrite Physical) :
      Called E c (Catalog.removeCollection E c key w).2
  | saveFilter (name : Bytes) (filter : FileFilter) (random : Fin 16 → UInt8) :
      Called E c (Catalog.saveFilter E c name filter random).2
  | removeFilter (key : Bytes) : Called E c (Catalog.removeFilter E c key).2
  | publishMetadata (limit : Nat) (w : Nat → NativeWrite Physical) :
      Called E c (Catalog.publishMetadata E c limit w).2

/-- **Every call is a run of the catalog's own steps**, also one that throws. The proof is one case
for each call, in which the calls of the source are composed by the lemmas about single steps; an
exception only shortens the run. -/
theorem Called.run (h : Called E c c') : Leads E c c' := by
  have hcreate : ∀ relative encoded input draws file w,
      Leads E c (Catalog.createFileWith E c relative encoded input draws file w).2 := by
    intro relative encoded input draws file w
    unfold Catalog.createFileWith
    split
    · exact .refl c
    · exact (makeParents_leads c relative).trans (addFile_leads _ _ _ (by simp) _ _ _ _)
  cases h with
  | createFile relative bytes input draws file w => exact hcreate relative (.ok bytes) _ _ _ _
  | createFileWith relative encoded input draws file w => exact hcreate _ _ _ _ _ _
  | importFile source origin relative input draws file w =>
      unfold Catalog.importFile
      split
      · exact .refl c
      · next h =>
          simp only [bind_ok, pure_ok] at h
          obtain ⟨start, hstart, _, -, rfl⟩ := h
          exact (makeParents_leads c relative).trans
            (addFile_leads _ _ _ (importMetadata_valid hstart) _ _ _ _)
  | registerFile relative metadata presented draws w =>
      unfold Catalog.registerFile
      split
      · exact .refl c
      · have hprepare : Leads E c (prepare E c relative presented) := .single .present
        have hregister := registerFiles_leads (E := E) (prepare E c relative presented)
          [⟨relative, metadata⟩] fun _ => draws
        split
        · next h =>
            rw [h] at hregister
            exact (hprepare.trans hregister).trans (publishResult_leads _ _ w)
        · next h =>
            rw [h] at hregister
            exact hprepare.trans hregister
        · next h =>
            rw [h] at hregister
            exact hprepare.trans hregister
  | registerFiles entries draws => exact registerFiles_leads c entries draws
  | updateMetadata key expected input w =>
      unfold Catalog.updateMetadata
      split
      · exact .refl c
      · next h =>
          simp only [bind_ok] at h
          obtain ⟨metadata, hmetadata, _, -, hupdate⟩ := h
          have hstep : Step E ⟨c.fs, c.tables⟩ _ _ := .update hmetadata hupdate
          exact (Leads.single hstep).trans (publishResult_leads _ key w)
  | createCollection name random =>
      unfold Catalog.createCollection
      split
      · exact .refl c
      · next h =>
          simp only [bind_ok] at h
          obtain ⟨name, hname, _, -, hadd⟩ := h
          exact .single (.createCollection hname hadd)
  | renameCollection key name =>
      unfold Catalog.renameCollection
      split
      · exact .refl c
      · next h =>
          simp only [bind_ok] at h
          obtain ⟨name, hname, _, -, hrename⟩ := h
          exact .single (.renameCollection hname hrename)
  | removeCollection key w =>
      unfold Catalog.removeCollection
      split
      · exact .refl c
      · next h =>
          simp only [bind_ok] at h
          obtain ⟨_, -, hdissolve⟩ := h
          have hstep : Step E ⟨c.fs, c.tables⟩ _ _ := .removeCollection hdissolve
          exact (Leads.single hstep).trans (publishMetadata_leads _ 256 w)
  | saveFilter name filter random =>
      unfold Catalog.saveFilter
      split
      · exact .refl c
      · next h =>
          simp only [bind_ok] at h
          obtain ⟨_, -, _, -, _, -, hstore⟩ := h
          exact .single (.saveFilter hstore)
  | removeFilter key =>
      unfold Catalog.removeFilter
      split
      · exact .refl c
      · next h =>
          simp only [bind_ok] at h
          obtain ⟨_, -, hdrop⟩ := h
          exact .single (.removeFilter hdrop)
  | publishMetadata limit w => exact publishMetadata_leads c limit w

/-! ## Reachable catalogs -/

/-- The catalogs that a fresh one comes to, when others do with the files what is allowed. -/
def Reached (E : CatalogLibraries) (allowed : FileSystem → FileSystem → Prop) (c : Catalog) :
    Prop :=
  ∃ id fs events, Run (Step E) ⟨fs, .empty id⟩ events c ∧
    ∀ before after, .outside before after ∈ events → allowed before after

namespace Reached

variable {allowed : FileSystem → FileSystem → Prop}

/-- A fresh catalog is reached. -/
theorem fresh (id : Bytes) (fs : FileSystem) : Reached E allowed ⟨fs, .empty id⟩ :=
  ⟨id, fs, [], .nil _, by simp⟩

/-- Where a catalog is reached, what it leads to is reached. -/
theorem leads (h : Reached E allowed c) (h' : Leads E c c') : Reached E allowed c' := by
  obtain ⟨id, fs, events, hrun, houtside⟩ := h
  obtain ⟨more, hrun', hown⟩ := h'
  refine ⟨id, fs, events ++ more, hrun.append hrun', fun before after he => ?_⟩
  rcases List.mem_append.1 he with he | he
  · exact houtside before after he
  · cases hown _ he

/-- **Calls stay in the reachable catalogs.** -/
theorem called (h : Reached E allowed c) (h' : Called E c c') : Reached E allowed c' :=
  h.leads h'.run

/-- What others may do with the files leads to a reachable catalog. -/
theorem outside {fs' : FileSystem} (h : Reached E allowed c) (hallowed : allowed c.fs fs') :
    Reached E allowed ⟨fs', c.tables⟩ := by
  obtain ⟨id, fs, events, hrun, houtside⟩ := h
  obtain ⟨before, db⟩ := c
  refine ⟨id, fs, events ++ [.outside before fs'], hrun.snoc .outside, fun a b he => ?_⟩
  rcases List.mem_append.1 he with he | he
  · exact houtside a b he
  · obtain ⟨rfl, rfl⟩ := Event.outside.inj (List.mem_singleton.1 he)
    exact hallowed

/-- What holds of fresh catalogs and is kept by steps holds of reachable ones. -/
theorem invariant {I : Catalog → Prop} (hfresh : ∀ id fs, I ⟨fs, .empty id⟩)
    (hstep : ∀ {c e c'}, I c → Step E c e c' →
      (∀ before after, e = .outside before after → allowed before after) → I c')
    (h : Reached E allowed c) : I c := by
  obtain ⟨id, fs, events, hrun, houtside⟩ := h
  have hrun' : Run (fun s e t => Step E s e t ∧
      ∀ before after, e = .outside before after → allowed before after) ⟨fs, .empty id⟩ events c :=
    hrun.imp fun he hs => ⟨hs, fun before after heq => houtside before after (heq ▸ he)⟩
  exact hrun'.invariant (fun hs ht => hstep hs ht.1 ht.2) (hfresh id fs)

end Reached

end Catalog

end FileProvider
