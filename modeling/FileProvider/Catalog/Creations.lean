import FileProvider.Catalog.NewFiles
import FileProvider.Catalog.Observations
import FileProvider.Library.Program

/-!
# Creations step by step

A creation writes the file under a name of its own, links it to its place, removes the first name,
flushes the directory and commits the registration; any of these can fail. What `Stage` undoes is
its own name, and what a registration that fails undoes is the file in place: between the link and
the registration nothing takes the file away again.

`Creating` is a program that is given a failure or none for each step that can fail, and `Ends` says
how a part of it may end; there is one lemma for each part of the source, in its order. The steps
that are late are those after the link that the registration does not undo, and `allOrNothing_iff`
says that they are what a creation fails by.
-/

namespace FileProvider

open Bytes Fallible

namespace FileSystem

/-- A second name for what stands under a path. -/
def link (fs : FileSystem) (path destination : Bytes) : FileSystem :=
  { fs with node := fun p => if p = destination then fs.node path else fs.node p }

/-- The file system with a file presented, where there is one. -/
def prepare (fs : FileSystem) (path : Bytes) (file : NewFile) : FileSystem :=
  match fs.content path with
  | some content => fs.place path content file
  | none => fs

/-- Removing what was written where nothing was gives the file system of before. -/
theorem remove_write {fs : FileSystem} {p : Bytes} (n : Node) (h : fs.node p = none) :
    (fs.write p n).remove p = fs := by
  obtain ⟨intact, node⟩ := fs
  refine congrArg (FileSystem.mk intact) (funext fun q => ?_)
  show (if q = p then none else if q = p then some n else node q) = node q
  split
  · next hq =>
      rw [hq]
      exact h.symm
  · rfl

/-- Of two writes under a name the second counts. -/
theorem write_write (fs : FileSystem) (p : Bytes) (n n' : Node) :
    (fs.write p n).write p n' = fs.write p n' := by
  obtain ⟨intact, node⟩ := fs
  refine congrArg (FileSystem.mk intact) (funext fun q => ?_)
  show (if q = p then some n' else if q = p then some n else node q)
    = if q = p then some n' else node q
  split
  · rfl
  · rfl

/-- A file that was linked, and whose first name is removed, has moved. -/
theorem remove_link {fs : FileSystem} {p destination : Bytes} (n : Node) (h : fs.node p = none)
    (hne : destination ≠ p) :
    ((fs.write p n).link p destination).remove p = fs.write destination n := by
  obtain ⟨intact, node⟩ := fs
  refine congrArg (FileSystem.mk intact) (funext fun q => ?_)
  show (if q = p then none else if q = destination then (if p = p then some n else node p)
    else if q = p then some n else node q) = if q = destination then some n else node q
  rw [if_pos rfl]
  split
  · next hq =>
      rw [hq, if_neg hne.symm]
      exact h.symm
  · rfl

/-- Writing a file with its preparation is placing the file. -/
theorem prepare_write {fs : FileSystem} {p content : Bytes} {physical : Physical}
    (file : NewFile) :
    (fs.write p (.file physical content)).prepare p file = fs.place p content file := by
  unfold prepare
  rw [content_write_self]
  show ((fs.write p (.file physical content)).write p (.file file.physical content)).present p
    file.preview = _
  rw [write_write]
  rfl

/-- Missing directories are made where nothing stands. -/
theorem makeDirectories_node (dirs : List Bytes) (fs : FileSystem) (p : Bytes) :
    (fs.makeDirectories dirs).node p = fs.node p ∨
      fs.node p = none ∧ (fs.makeDirectories dirs).node p = some .directory := by
  induction dirs generalizing fs with
  | nil => exact .inl rfl
  | cons d rest ih =>
      unfold makeDirectories
      split
      · next hd =>
          by_cases hp : p = d
          · refine .inr ⟨hp ▸ hd, ?_⟩
            have hwritten : (fs.write d .directory).node p = some .directory := if_pos hp
            rcases ih (fs.write d .directory) with hsame | ⟨hnone, -⟩
            · rw [hsame, hwritten]
            · rw [hwritten] at hnone
              cases hnone
          · have hother : (fs.write d .directory).node p = fs.node p := if_neg hp
            rw [← hother]
            exact ih _
      · exact ih fs
      · exact .inl rfl

end FileSystem

namespace Catalog

variable {E : CatalogLibraries}

/-! ## The row of a new file -/

/-- The row of a description has the key of the file it ends with. -/
theorem Described.placed_row {mid db' : CatalogTables} {id : Nat} {p : Proposal}
    {file : CatalogFile} {row : FileRow} (h : Described E mid id p file db')
    (hrow : mid.files.find id = some row)
    (hkey : row.key = p.key) (hsound : fileKeyValid p.key = true) :
    ∃ row' ∈ db'.files, row'.path = row.path ∧ row'.key = file.key ∧
      fileKeyValid row'.key = true := by
  obtain ⟨text, hannotated⟩ := h.annotated
  obtain ⟨own, hown, hownKey, hentry⟩ := require_row h.required hsound
  have hnew := (UniqueTable.find_eq_some.1 (hannotated.row hrow)).1
  obtain ⟨_, _, -, -, rfl⟩ := entry_ok hentry
  exact ⟨_, hnew, rfl, hkey.trans hownKey.symm, hkey ▸ hsound⟩

/-- A file that is registered has a row under its path. The row is the one that was found, or the
new one; its key is valid in either case, which for a row that was there is known of sound tables.
-/
theorem Registers.placed_row {fs : FileSystem} {db db' : CatalogTables} {physical : Physical}
    {r : FileRegistration} {draws : KeyDraws} {file : CatalogFile} {mutated : Bool}
    (hdb : Sound E db) (h : Registers E fs db r draws physical file mutated db') :
    ∃ row ∈ db'.files, row.path = r.path ∧ row.key = file.key ∧ fileKeyValid row.key = true := by
  cases h with
  | unchanged hf hp hpath =>
      obtain ⟨own, hown, hentry, -⟩ := registered_ok hf
      obtain ⟨_, _, -, -, rfl⟩ := entry_ok hentry
      refine ⟨own, ?_, hpath, rfl, hdb.files own hown⟩
      rw [(refreshed_ok hp).1.rows.1]
      exact hown
  | @refreshed f _ p mid _ hf hp _ hmid hdescribed =>
      obtain ⟨own, hown, hkey, hfind⟩ := refreshed_row hf hp hmid
      exact hdescribed.placed_row hfind hkey.symm (hkey ▸ hdb.files own hown)
  | @added _ p id mid _ _ hp hmid hdescribed =>
      obtain ⟨-, hvalid⟩ := adopted_ok hp
      obtain ⟨files, hfiles, hmid'⟩ := CatalogTables.insertFile_ok hmid
      have hfind : mid.files.find id = some (.new id p.key r.path physical p.revision) := by
        rw [hmid']
        exact ((UniqueTable.find_insert hfiles).2 id).trans (if_pos rfl)
      exact hdescribed.placed_row hfind rfl hvalid

/-! ## The steps -/

/-- The steps of a creation that can fail. -/
inductive CreationStep where
  | reserve | write | begin | restore | flush | link | unlink | syncDirectory | register | commit
  | answer
deriving DecidableEq

/-- The steps after the link that are not part of the registration. -/
def CreationStep.late : CreationStep → Bool
  | .unlink | .syncDirectory | .answer => true
  | _ => false

/-- A step that fails: its message, and what it has written by then. -/
structure StepFailure where
  message : String
  written : Bytes

/-- A creation on its way: the catalog as it stands, the name of its stage, the native files it has
passed through, and the steps that failed. -/
structure Creation where
  catalog : Catalog
  stage : Option Bytes
  passed : List FileSystem
  failed : List CreationStep

/-- A creation, with a failure or none for each step that can fail. -/
abbrev Creating (β : Type) : Type := Program Creation (Option StepFailure) String β

namespace Creation

def start (c : Catalog) : Creation := ⟨c, none, [], []⟩

/-- The creation with the catalog in another state. -/
def put (s : Creation) (c : Catalog) : Creation :=
  { s with catalog := c, passed := c.fs :: s.passed }

/-- The creation with other native files. -/
def onFiles (f : FileSystem → FileSystem) (s : Creation) : Creation :=
  s.put { s.catalog with fs := f s.catalog.fs }

/-- A step that is done, or fails with something left. -/
def step (name : CreationStep) (done : Creation → Creation)
    (torn : StepFailure → Creation → Creation) : Creating Unit :=
  Program.call fun answer s =>
    match answer with
    | none => (.ok (), done s)
    | some f => (.error f.message, { torn f s with failed := name :: s.failed })

/-- A step that is done or not. -/
def whole (name : CreationStep) (done : Creation → Creation) : Creating Unit :=
  step name done fun _ s => s

/-- The constructor of `Stage`. -/
def reserve (stage : Bytes) (physical : Physical) : Creating Unit := do
  let s ← Program.state
  Program.failIf (s.catalog.fs.node stage ≠ none) "cannot reserve staged file"
  whole .reserve fun s => { s.onFiles (·.write stage (.file physical [])) with stage := some stage }

/-- The destructor of `Stage`. -/
def discard (s : Creation) : Creation :=
  match s.stage with
  | none => s
  | some path => { s.onFiles (·.remove path) with stage := none }

/-- What is done while there is a stage: a failure discards it. -/
def staged {β : Type} (body : Creating β) : Creating β := do
  match ← Program.attempt body with
  | .ok b => pure b
  | .error e => do
      Program.modify discard
      Program.fail e

/-- `Stage::publish` to a place that is to be vacant. -/
def publishStage (stage destination : Bytes) : Creating Unit := do
  whole .flush id
  let s ← Program.state
  Program.failIf (s.catalog.fs.node destination ≠ none)
    "exclusive publication failed or is unsupported on this filesystem"
  whole .link (onFiles (·.link stage destination))
  whole .unlink fun s => { s.onFiles (·.remove stage) with stage := none }
  whole .syncDirectory id

variable (E)

/-- What a creation does before the file is in place: the file is written to the stage, and the
transaction begins. -/
def fill (stage : Bytes) (physical : Physical) (destination : Bytes) (encoded : Fallible Bytes)
    (inherited : Option Companion) (metadata : FileMetadata) :
    Creating (FileMetadata × CatalogTables) := do
  let content ← Program.lift encoded
  step .write (onFiles (·.write stage (.file physical content)))
    fun f => onFiles (·.write stage (.file physical f.written))
  whole .begin id
  let s ← Program.state
  Program.lift (requireVacant s.catalog.fs destination)
  match inherited with
  | none => pure (metadata, s.catalog.tables)
  | some j => do
      whole .restore id
      Program.lift (restoreCollections E s.catalog.tables j)

/-- The registration of the file in place, which is taken away again when this fails. -/
def registerPlaced (destination relative : Bytes) (metadata : FileMetadata) (db : CatalogTables)
    (draws : KeyDraws) : Creating CatalogFile := do
  let registered ← Program.attempt do
    whole .register id
    let s ← Program.state
    let (f, db) ← Program.lift (Catalog.register E s.catalog.fs db relative metadata draws)
    whole .commit fun s => s.put { s.catalog with tables := db }
    pure f
  match registered with
  | .ok f => pure f
  | .error e => do
      Program.modify (onFiles (·.unplace destination))
      Program.fail e

/-- `publishResult`. -/
def answered (key : Bytes) (w : NativeWrite Physical) : Creating MetadataWrite := do
  let s ← Program.state
  let (result, c) := publish E s.catalog key w
  Program.modify (·.put c)
  whole .answer id
  let f ← Program.lift (Catalog.require E c.tables key)
  pure ⟨f, !f.metadataPending, errorOf result⟩

/-- What a creation is given besides what it is asked for: the random bytes of its stage, the state
of the staged file and of the file in place, and how far its companion gets. -/
structure Circumstances where
  draws : KeyDraws
  nonce : Fin 16 → UInt8
  staged : Physical
  file : NewFile
  companion : NativeWrite Physical

/-- The part of the creations after their own checks. -/
def create (relative : Bytes) (encoded : Fallible Bytes) (inherited : Option Companion)
    (metadata : FileMetadata) (w : Circumstances) : Creating MetadataWrite := do
  Program.modify fun s => s.onFiles (makeParents E · relative)
  let s ← Program.state
  let destination ← Program.lift (path E s.catalog.fs relative)
  Program.lift (requireVacant s.catalog.fs destination)
  let stage := stagePath destination (newKey w.nonce "")
  reserve stage w.staged
  let f ← staged do
    let (metadata, db) ← fill E stage w.staged destination encoded inherited metadata
    publishStage stage destination
    Program.modify (onFiles (·.prepare destination w.file))
    registerPlaced E destination relative metadata db w.draws
  answered E f.key w.companion

def createFileWith (relative : Bytes) (encoded : Fallible Bytes) (input : FileMetadata)
    (w : Circumstances) : Creating MetadataWrite := do
  let metadata ← Program.lift (normalizeMetadata E input)
  let s ← Program.state
  Program.lift (intact s.catalog.fs)
  create E relative encoded none metadata w

def createFile (relative bytes : Bytes) (input : FileMetadata) (w : Circumstances) :
    Creating MetadataWrite :=
  createFileWith E relative (.ok bytes) input w

def importFile (source : FileSystem) (origin relative : Bytes) (input : Option FileMetadata)
    (w : Circumstances) : Creating MetadataWrite := do
  let (metadata, inherited) ← Program.lift (importMetadata E source origin input)
  let s ← Program.state
  Program.lift (intact s.catalog.fs)
  create E relative (orFail "cannot open file import streams" (source.content origin)) inherited
    metadata w

/-! ## What each step comes to -/

/-- A late step has failed. -/
def Late (s : Creation) : Prop := ∃ name ∈ s.failed, name.late = true

/-- Whatever steps fail, the creation ends as `Q` says. -/
abbrev Ends {β : Type} (p : Creating β) (s : Creation) (Q : Fallible β → Creation → Prop) : Prop :=
  Program.Meets (fun _ => True) p s Q

variable {E}

/-- A step at the end of a creation succeeds, or fails and is noted among the failed ones. -/
theorem ends_last {name : CreationStep} {done : Creation → Creation}
    {torn : StepFailure → Creation → Creation} {s : Creation} {Q : Fallible Unit → Creation → Prop}
    (hdone : Q (.ok ()) (done s))
    (htorn : ∀ x, Q (.error x.message) { torn x s with failed := name :: s.failed }) :
    Ends (step name done torn) s Q := by
  refine .call trivial fun answer _ => ?_
  cases answer with
  | none => exact hdone
  | some x => exact htorn x

/-- A step succeeds and the creation goes on, or it fails and is noted among the failed ones. -/
theorem ends_step {β : Type} {name : CreationStep} {done : Creation → Creation}
    {torn : StepFailure → Creation → Creation} {f : Unit → Creating β} {s : Creation}
    {Q : Fallible β → Creation → Prop} (hdone : Ends (f ()) (done s) Q)
    (htorn : ∀ x, Q (.error x.message) { torn x s with failed := name :: s.failed }) :
    Ends (step name done torn >>= f) s Q := by
  refine .bind (ends_last ⟨fun b _ => hdone, fun e h => ?_⟩ fun x => ⟨fun b h => ?_, fun e h => ?_⟩)
  · cases h
  · cases h
  · cases h
    exact htorn x

/-- A step that is not late, in a creation where none has failed. -/
theorem not_late {s : Creation} {name : CreationStep} {c : Catalog} {stage : Option Bytes}
    {passed : List FileSystem} (hfailed : s.failed = []) (hname : name.late = false) :
    ¬ Late ⟨c, stage, passed, name :: s.failed⟩ := by
  rintro ⟨other, hother, hlate⟩
  rw [hfailed] at hother
  obtain rfl := List.mem_singleton.1 hother
  rw [hname] at hlate
  cases hlate

/-- Where no step has failed none that is late has. -/
theorem not_late_of_nil {s : Creation} (h : s.failed = []) : ¬ Late s := by
  rintro ⟨name, hname, -⟩
  rw [h] at hname
  cases hname

/-- Nothing but the stage has changed. -/
structure Unplaced (base : Catalog) (stage : Bytes) (s : Creation) : Prop where
  tables : s.catalog.tables = base.tables
  files : ∃ n, s.catalog.fs = base.fs.write stage n
  stage : s.stage = some stage

/-- Discarding takes the stage away and leaves the tables. -/
theorem discard_some {s : Creation} (stage : Bytes) (h : s.stage = some stage) :
    s.discard.catalog = ⟨s.catalog.fs.remove stage, s.catalog.tables⟩ := by
  unfold discard
  rw [h]
  rfl

/-- Without a stage nothing is discarded. -/
theorem discard_none {s : Creation} (h : s.stage = none) : s.discard = s := by
  unfold discard
  rw [h]

/-- A stage that is discarded before the link leaves everything as it was. -/
theorem Unplaced.discard {base : Catalog} {stage : Bytes} {s : Creation}
    (h : Unplaced base stage s) (hvacant : base.fs.node stage = none) :
    s.discard.catalog = base := by
  obtain ⟨n, hfs⟩ := h.files
  rw [discard_some stage h.stage, hfs, h.tables, FileSystem.remove_write n hvacant]

/-- Discarding notes no failure. -/
theorem discard_failed (s : Creation) : s.discard.failed = s.failed := by
  unfold discard
  split
  · rfl
  · rfl

/-- Discarding does not change whether a late step has failed. -/
theorem late_discard {s : Creation} : s.discard.Late ↔ s.Late := by
  unfold Late
  rw [discard_failed]

variable {base : Catalog} {stage destination relative content : Bytes} {physical : Physical}
  {encoded : Fallible Bytes} {inherited : Option Companion} {m metadata : FileMetadata}
  {s : Creation}

/-- Filling the stage ends with the content in it and the companion inherited, or without a trace
but the stage. -/
theorem fill_ends (hs : Unplaced base stage s) (hfailed : s.failed = []) :
    Ends (fill E stage physical destination encoded inherited m) s fun r s' =>
      Unplaced base stage s' ∧ ¬ s'.Late ∧ ∀ b, r = .ok b → s'.failed = [] ∧
        ∃ content, encoded = .ok content ∧
          s'.catalog.fs = base.fs.write stage (.file physical content) ∧
          requireVacant s'.catalog.fs destination = .ok () ∧
          inherit E base.tables inherited m = .ok b := by
  obtain ⟨n, hfs⟩ := hs.files
  have hwrite (content : Bytes) : s.catalog.fs.write stage (.file physical content)
      = base.fs.write stage (.file physical content) := by
    rw [hfs, FileSystem.write_write]
  have hwritten (content : Bytes) : Unplaced base stage
      (s.onFiles (·.write stage (.file physical content))) :=
    ⟨hs.tables, ⟨_, hwrite content⟩, hs.stage⟩
  have hnone {e : String} {Q : FileMetadata × CatalogTables → Prop} (b) :
      (Except.error e : Fallible (FileMetadata × CatalogTables)) = .ok b → Q b := by
    intro h
    cases h
  unfold fill
  refine .bind_lift (fun content hcontent => ?_)
    fun e _ => ⟨hs, not_late_of_nil hfailed, hnone⟩
  refine ends_step ?_ fun x => ⟨⟨hs.tables, ⟨_, hwrite x.written⟩, hs.stage⟩,
    not_late hfailed rfl, hnone⟩
  refine ends_step ?_ fun x => ⟨⟨hs.tables, ⟨_, hwrite content⟩, hs.stage⟩,
    not_late hfailed rfl, hnone⟩
  refine .bind_state (.bind_lift (fun _ hvacant => ?_)
    fun e _ => ⟨hwritten content, not_late_of_nil hfailed, hnone⟩)
  have hdb : s.catalog.tables = base.tables := hs.tables
  cases inherited with
  | none =>
      refine .pure ⟨hwritten content, not_late_of_nil hfailed, fun b hb =>
        ⟨hfailed, content, hcontent, hwrite content, hvacant, ?_⟩⟩
      obtain rfl := Except.ok.inj hb
      show (.ok (m, base.tables) : Fallible (FileMetadata × CatalogTables)) = _
      rw [← hdb]
      rfl
  | some j =>
      refine ends_step (.lift ⟨hwritten content, not_late_of_nil hfailed,
        fun b hb => ⟨hfailed, content, hcontent, hwrite content, hvacant, ?_⟩⟩) fun x =>
          ⟨⟨hs.tables, ⟨_, hwrite content⟩, hs.stage⟩, not_late hfailed rfl, hnone⟩
      rw [← hdb]
      exact hb

/-- The file is in place, and nothing is registered. -/
def Placed (base : Catalog) (destination content : Bytes) (physical : Physical) : Catalog :=
  ⟨base.fs.write destination (.file physical content), base.tables⟩

/-- Publishing the stage ends with the file in place, or with nothing in place, or with a late step
failed. -/
theorem publishStage_ends (htables : s.catalog.tables = base.tables)
    (hfs : s.catalog.fs = base.fs.write stage (.file physical content))
    (hstage : s.stage = some stage) (hfailed : s.failed = [])
    (hvacant : base.fs.node stage = none) (hne : destination ≠ stage) :
    Ends (publishStage stage destination) s fun r s' =>
      (∃ e, r = .error e ∧ Unplaced base stage s' ∧ ¬ s'.Late) ∨
      (∃ e, r = .error e ∧ s'.discard.catalog = Placed base destination content physical ∧
        s'.Late) ∨
      (r = .ok () ∧ s'.catalog = Placed base destination content physical ∧ s'.stage = none ∧
        s'.failed = []) := by
  have hunplaced {passed : List FileSystem} {failed : List CreationStep} :
      Unplaced base stage ⟨s.catalog, s.stage, passed, failed⟩ := ⟨htables, ⟨_, hfs⟩, hstage⟩
  have hmoved : (⟨(s.catalog.fs.link stage destination).remove stage, s.catalog.tables⟩ : Catalog)
      = Placed base destination content physical := by
    rw [hfs, htables, FileSystem.remove_link _ hvacant hne]
    rfl
  unfold publishStage
  refine ends_step (.bind_state (.bind_failIf (fun _ => .inl ⟨_, rfl, hunplaced,
    not_late_of_nil hfailed⟩) fun _ => ?_)) fun x => .inl ⟨_, rfl, hunplaced,
      not_late hfailed rfl⟩
  refine ends_step ?_ fun x => .inl ⟨_, rfl, hunplaced,
    not_late hfailed rfl⟩
  refine ends_step ?_ fun x => .inr (.inl ⟨_, rfl, ?_, .unlink, List.mem_cons_self, rfl⟩)
  · exact ends_last (.inr (.inr ⟨rfl, hmoved, rfl, hfailed⟩)) fun x =>
      .inr (.inl ⟨_, rfl, hmoved, .syncDirectory, List.mem_cons_self, rfl⟩)
  · refine (discard_some stage ?_).trans ?_
    · exact hstage
    · exact hmoved

/-- Registering the placed file ends with its row committed, or undone without a late failure. A
failure before the commit takes the placed file away again, and after the commit no step can fail
that is not late. -/
theorem registerPlaced_ends {place : FileSystem} {db : CatalogTables} {draws : KeyDraws}
    (hcatalog : s.catalog = ⟨place, base.tables⟩) (hundone : place.unplace destination = base.fs)
    (hstage : s.stage = none) (hfailed : s.failed = []) :
    Ends (registerPlaced E destination relative metadata db draws) s fun r s' => s'.stage = none ∧
      ((∃ e, r = .error e ∧ s'.catalog = base ∧ ¬ s'.Late) ∨
        ∃ f db', r = .ok f ∧ Catalog.register E place db relative metadata draws = .ok (f, db') ∧
          s'.catalog = ⟨place, db'⟩ ∧ s'.failed = []) := by
  have hbase : (⟨s.catalog.fs.unplace destination, s.catalog.tables⟩ : Catalog) = base := by
    rw [hcatalog]
    show (⟨place.unplace destination, base.tables⟩ : Catalog) = base
    rw [hundone]
  have hplace : s.catalog.fs = place := congrArg Catalog.fs hcatalog
  unfold registerPlaced
  -- what is attempted fails with nothing committed, or commits
  refine .bind (.attempt (.imp (Q := fun r s' => s'.stage = none ∧
    ((∃ e, r = .error e ∧ s'.catalog = s.catalog ∧ ¬ s'.Late) ∨
      ∃ f db', r = .ok f ∧ Catalog.register E place db relative metadata draws = .ok (f, db') ∧
        s'.catalog = ⟨place, db'⟩ ∧ s'.failed = [])) ?_ ?_))
  · refine ends_step ?_ fun x => ⟨hstage, .inl ⟨_, rfl, rfl,
      not_late hfailed rfl⟩⟩
    refine .bind_state (.bind_lift (fun b hb => ?_)
      fun e _ => ⟨hstage, .inl ⟨_, rfl, rfl, not_late_of_nil hfailed⟩⟩)
    obtain ⟨f, db'⟩ := b
    refine ends_step (.pure ⟨hstage, .inr ⟨f, db', rfl, ?_, ?_, hfailed⟩⟩) fun x =>
      ⟨hstage, .inl ⟨_, rfl, rfl, not_late hfailed rfl⟩⟩
    · rw [← hplace]
      exact hb
    · show (⟨s.catalog.fs, db'⟩ : Catalog) = _
      rw [hplace]
  · rintro r s' ⟨hstage',
      ⟨e, rfl, hcatalog', hlate⟩ | ⟨f, db', rfl, hregister, hcatalog', hfailed'⟩⟩
    · refine ⟨fun b hb => ?_, fun e' he' => ?_⟩
      · obtain rfl := Except.ok.inj hb
        refine .bind_modify (.fail ⟨hstage', .inl ⟨e, rfl, ?_, hlate⟩⟩)
        show (⟨s'.catalog.fs.unplace destination, s'.catalog.tables⟩ : Catalog) = base
        rw [hcatalog']
        exact hbase
      · cases he'
    · refine ⟨fun b hb => ?_, fun e' he' => ?_⟩
      · obtain rfl := Except.ok.inj hb
        exact .pure ⟨hstage', .inr ⟨f, db', rfl, hregister, hcatalog', hfailed'⟩⟩
      · cases he'

/-! ## How a creation ends -/

/-- How a creation can end: with everything as it was; with the file in place and not registered; or
with the file in place and registered, and its companion as far as it got. -/
inductive Ended (E : CatalogLibraries) (base : Catalog) (relative : Bytes)
    (encoded : Fallible Bytes) (inherited : Option Companion) (m : FileMetadata)
    (w : Circumstances) : Fallible MetadataWrite → Creation → Prop where
  | undone {e : String} {s : Creation} : s.catalog = base → ¬ s.Late →
      Ended E base relative encoded inherited m w (.error e) s
  | left {e : String} {s : Creation} {content : Bytes} {metadata : FileMetadata}
      {mid : CatalogTables} :
      prepared E base relative encoded inherited m = .ok (relative, content, metadata, mid) →
      s.catalog = Placed base relative content w.staged → s.Late →
      Ended E base relative encoded inherited m w (.error e) s
  | registered {r : Fallible MetadataWrite} {s : Creation} {content : Bytes}
      {metadata : FileMetadata} {mid db : CatalogTables} {f : CatalogFile} :
      prepared E base relative encoded inherited m = .ok (relative, content, metadata, mid) →
      Catalog.register E (base.fs.place relative content w.file) mid relative metadata w.draws
        = .ok (f, db) →
      s.catalog
        = (publishResult E ⟨base.fs.place relative content w.file, db⟩ f.key w.companion).2 →
      ((∃ e, r = .error e) ∧ s.Late ∨ s.failed = [] ∧
        r = (publishResult E ⟨base.fs.place relative content w.file, db⟩ f.key w.companion).1) →
      Ended E base relative encoded inherited m w r s

/-- The answer after the commit is that of the publication of the companion, unless a late step
fails. -/
theorem answered_ends {key : Bytes} {w : NativeWrite Physical} {c : Catalog}
    (hcatalog : s.catalog = c) (hfailed : s.failed = []) :
    Ends (answered E key w) s fun r s' => s'.catalog = (publishResult E c key w).2 ∧
      ((∃ e, r = .error e) ∧ s'.Late ∨ s'.failed = [] ∧ r = (publishResult E c key w).1) := by
  subst hcatalog
  unfold answered publishResult
  cases hpublish : publish E s.catalog key w with
  | mk result c =>
      refine .bind_state ?_
      rw [hpublish]
      dsimp only
      refine .bind_modify (ends_step (.bind_lift (fun f hf => ?_) fun e he => ?_) fun x => ?_)
      · exact .pure ⟨rfl, .inr ⟨hfailed, by rw [hf]; rfl⟩⟩
      · exact ⟨rfl, .inr ⟨hfailed, by rw [he]; rfl⟩⟩
      · exact ⟨rfl, .inl ⟨⟨_, rfl⟩, .answer, List.mem_cons_self, rfl⟩⟩

/-- What is put in place and registered while there is a stage. The steps go one after the other:
the stage is filled, published and removed, and the file is prepared and registered; each failure
says what it leaves. -/
theorem staged_ends {w : Circumstances} (hpath : path E base.fs relative = .ok relative)
    (hempty : requireVacant base.fs relative = .ok ()) (hs : Unplaced base stage s)
    (hfailed : s.failed = []) (hvacant : base.fs.node stage = none) :
    Ends (staged do
        let (metadata, db) ← fill E stage w.staged relative encoded inherited m
        publishStage stage relative
        Program.modify (onFiles (·.prepare relative w.file))
        registerPlaced E relative relative metadata db w.draws) s fun r s' =>
      (∃ e, r = .error e ∧ Ended E base relative encoded inherited m w (.error e) s') ∨
        ∃ content metadata mid f db, r = .ok f ∧
          prepared E base relative encoded inherited m = .ok (relative, content, metadata, mid) ∧
          Catalog.register E (base.fs.place relative content w.file) mid relative metadata w.draws
            = .ok (f, db) ∧ s'.catalog = ⟨base.fs.place relative content w.file, db⟩ ∧
          s'.failed = [] := by
  have hvacant' := hempty
  simp only [requireVacant, failIf_ok, not_or, not_not] at hvacant'
  obtain ⟨hnode, -, hpreview⟩ := hvacant'
  unfold staged
  -- the body fails with the stage there, or without it, or ends with the file registered
  refine .bind (.attempt (.imp (Q := fun r s' =>
    (∃ e, r = .error e ∧ Ended E base relative encoded inherited m w (.error e) s'.discard) ∨
      ∃ content metadata mid f db, r = .ok f ∧
        prepared E base relative encoded inherited m = .ok (relative, content, metadata, mid) ∧
        Catalog.register E (base.fs.place relative content w.file) mid relative metadata w.draws
          = .ok (f, db) ∧ s'.catalog = ⟨base.fs.place relative content w.file, db⟩ ∧
        s'.failed = []) ?_ ?_))
  · refine .bind ((fill_ends hs hfailed).imp fun r s₁ h₁ => ⟨fun b hb => ?_, fun e he => ?_⟩)
    · obtain ⟨hunplaced, -, hfilled⟩ := h₁
      obtain ⟨hfailed₁, content, hcontent, hfs, hempty₁, hinherit⟩ := hfilled b hb
      obtain ⟨metadata, mid⟩ := b
      -- the stage is not the place: the place is vacant while the stage is there
      have hne : relative ≠ stage := by
        rintro rfl
        simp only [requireVacant, failIf_ok, not_or, not_not] at hempty₁
        have hthere : s₁.catalog.fs.node relative = some (.file w.staged content) := by
          rw [hfs]
          exact if_pos rfl
        rw [hthere] at hempty₁
        cases hempty₁.1
      have hprepared : prepared E base relative encoded inherited m
          = .ok (relative, content, metadata, mid) := by
        simp only [prepared, bind_ok, pure_ok]
        exact ⟨relative, hpath, (), hempty, content, hcontent, (metadata, mid), hinherit, rfl⟩
      refine .bind ((publishStage_ends hunplaced.tables hfs hunplaced.stage hfailed₁ hvacant
        hne).imp fun r s₂ h₂ => ⟨fun _ hr => ?_, fun e he => ?_⟩)
      · rcases h₂ with ⟨e, he, -⟩ | ⟨e, he, -⟩ | ⟨-, hcatalog, hstage, hfailed₂⟩
        · rw [hr] at he
          cases he
        · rw [hr] at he
          cases he
        · have hplace : (s₂.onFiles (·.prepare relative w.file)).catalog
              = ⟨base.fs.place relative content w.file, base.tables⟩ := by
            show (⟨s₂.catalog.fs.prepare relative w.file, s₂.catalog.tables⟩ : Catalog) = _
            rw [hcatalog]
            exact congrArg (fun fs => (⟨fs, base.tables⟩ : Catalog))
              (FileSystem.prepare_write w.file)
          refine .bind_modify ((registerPlaced_ends hplace (unplace_place w.file hnode hpreview)
            hstage hfailed₂).imp fun r s₃ h₃ => ?_)
          obtain ⟨hstage₃,
            ⟨e, rfl, hundone, hlate⟩ | ⟨f, db, rfl, hregister, hdone, hfailed₃⟩⟩ := h₃
          · rw [discard_none hstage₃]
            exact .inl ⟨e, rfl, .undone hundone hlate⟩
          · exact .inr ⟨content, metadata, mid, f, db, rfl, hprepared, hregister, hdone, hfailed₃⟩
      · rcases h₂ with ⟨e', -, hunplaced₂, hlate⟩ | ⟨e', -, hplaced, hlate⟩ | ⟨hok, -⟩
        · exact .inl ⟨e, rfl, .undone (hunplaced₂.discard hvacant) (late_discard.not.2 hlate)⟩
        · exact .inl ⟨e, rfl, .left hprepared hplaced (late_discard.2 hlate)⟩
        · rw [he] at hok
          cases hok
    · obtain ⟨hunplaced, hlate, -⟩ := h₁
      exact .inl ⟨e, rfl, .undone (hunplaced.discard hvacant) (late_discard.not.2 hlate)⟩
  · intro r s' h
    refine ⟨fun b hb => ?_, fun e he => ?_⟩
    · obtain rfl := Except.ok.inj hb
      rcases h with ⟨e, rfl, hended⟩ | ⟨content, metadata, mid, f, db, rfl, hregistered⟩
      · exact .bind_modify (.fail (.inl ⟨e, rfl, hended⟩))
      · exact .pure (.inr ⟨content, metadata, mid, f, db, rfl, hregistered⟩)
    · cases he

/-- The whole creation ends as `Ended` says. Missing parents are made before anything else, which is
why the catalog it starts from has them, also in a call that fails. -/
theorem create_ends {c : Catalog} {w : Circumstances} (hcatalog : s.catalog = c)
    (hfailed : s.failed = []) :
    Ends (create E relative encoded inherited m w) s
      (Ended E ⟨makeParents E c.fs relative, c.tables⟩ relative encoded inherited m w) := by
  subst hcatalog
  obtain ⟨base, hbase⟩ : ∃ base : Catalog,
    base = ⟨makeParents E s.catalog.fs relative, s.catalog.tables⟩ := ⟨_, rfl⟩
  rw [← hbase]
  have hfs : base.fs = makeParents E s.catalog.fs relative := congrArg Catalog.fs hbase
  unfold create
  refine .bind_modify (.bind_state (.bind_lift (fun destination hpath => ?_) fun e _ =>
    .undone hbase.symm (not_late_of_nil hfailed)))
  obtain ⟨rfl, -⟩ := path_ok hpath
  refine .bind_lift (fun _ hempty => ?_) fun e _ => .undone hbase.symm (not_late_of_nil hfailed)
  refine .bind (.imp (Q := fun r s' => (∃ e, r = .error e ∧ s'.catalog = base ∧ ¬ s'.Late) ∨
    r = .ok () ∧ Unplaced base (stagePath destination (newKey w.nonce "")) s' ∧ s'.failed = [] ∧
      base.fs.node (stagePath destination (newKey w.nonce "")) = none) ?_ ?_)
  · -- the constructor of the stage
    unfold reserve
    refine .bind_state (.bind_failIf (fun _ => .inl ⟨_, rfl, hbase.symm, not_late_of_nil hfailed⟩)
      fun hvacant => ends_last (.inr ⟨rfl, ⟨?_, ⟨.file w.staged [], ?_⟩, rfl⟩, hfailed, ?_⟩)
        fun x => .inl ⟨_, rfl, hbase.symm, not_late hfailed rfl⟩)
    · exact (congrArg Catalog.tables hbase).symm
    · rw [hfs]
      rfl
    · rw [hfs]
      exact not_not.1 hvacant
  · rintro r s₁ (⟨e, rfl, hundone, hlate⟩ | ⟨rfl, hunplaced, hfailed₁, hvacant⟩)
    · refine ⟨fun b hb => ?_, fun e' he' => ?_⟩
      · cases hb
      · cases he'
        exact .undone hundone hlate
    · refine ⟨fun _ _ => ?_, fun e' he' => ?_⟩
      · have hpath' : path E base.fs destination = .ok destination := by
          rw [hfs]
          exact hpath
        have hempty' : requireVacant base.fs destination = .ok () := by
          rw [hfs]
          exact hempty
        refine .bind ((staged_ends hpath' hempty' hunplaced hfailed₁ hvacant).imp
          fun r s₂ h₂ => ⟨fun f hf => ?_, fun e he => ?_⟩)
        · rcases h₂ with ⟨e, he, -⟩ | ⟨content, metadata, mid, f', db, hr, hprepared, hregister,
            hdone, hfailed₂⟩
          · rw [hf] at he
            cases he
          · obtain rfl : f = f' := Except.ok.inj (hf.symm.trans hr)
            exact (answered_ends hdone hfailed₂).imp fun r s₃ h₃ =>
              .registered hprepared hregister h₃.1 h₃.2
        · rcases h₂ with ⟨e', he', hended⟩ | ⟨_, _, _, f', _, hr, -⟩
          · obtain rfl : e = e' := Except.error.inj (he.symm.trans he')
            exact hended
          · rw [he] at hr
            cases hr
      · cases he'

/-- **Every creation is a run of the catalog's own steps**, however it ends. What a failed one
leaves is a prefix of these steps, since its transactions have committed or have not happened. -/
theorem Ended.leads {w : Circumstances} {r : Fallible MetadataWrite}
    (hinherited : ∀ j ∈ inherited, CompanionValid E j)
    (h : Ended E base relative encoded inherited m w r s) : Leads E base s.catalog := by
  cases h with
  | undone hcatalog =>
      rw [hcatalog]
      exact .refl base
  | left hprepared hcatalog =>
      rw [hcatalog]
      have hstep : Step E base .native { base with
          fs := base.fs.place relative _ ⟨w.staged, none⟩ } := .unindexed hprepared
      exact .single hstep
  | registered hprepared hregister hcatalog =>
      rw [hcatalog]
      have hstep : Step E ⟨base.fs, base.tables⟩ _ _ := .create hinherited hprepared hregister
      exact (Leads.single hstep).trans (publishResult_leads _ _ w.companion)

/-- A publication leaves what is not a companion. -/
theorem publishResult_content {c : Catalog} {key : Bytes} {w : NativeWrite Physical}
    (h : relativePath E relative false = .ok relative) :
    (publishResult E c key w).2.fs.content relative = c.fs.content relative := by
  show (publish E c key w).2.fs.content relative = _
  unfold publish
  split
  · rfl
  · rfl
  · cases w with
    | failed => rfl
    | torn physical =>
        exact FileSystem.content_write_ne _ _ (ne_companionPath h _).symm
    | done physical =>
        exact FileSystem.content_write_ne _ _ (ne_companionPath h _).symm

/-! ## All or nothing -/

/-- What a creation is asked for. -/
inductive Request where
  | createFile (bytes : Bytes) (input : FileMetadata)
  | createFileWith (encoded : Fallible Bytes) (input : FileMetadata)
  | importFile (source : FileSystem) (origin : Bytes) (input : Option FileMetadata)

/-- What the new file is to hold: the bytes, what the encoder writes, or what is copied. -/
def Request.payload : Request → Fallible Bytes
  | .createFile bytes _ => .ok bytes
  | .createFileWith encoded _ => encoded
  | .importFile source origin _ => orFail "cannot open file import streams" (source.content origin)

/-- The call of a request. -/
def Request.call (E : CatalogLibraries) (relative : Bytes) (w : Circumstances) :
    Request → Creating MetadataWrite
  | .createFile bytes input => Creation.createFile E relative bytes input w
  | .createFileWith encoded input => Creation.createFileWith E relative encoded input w
  | .importFile source origin input => Creation.importFile E source origin relative input w

/-- A creation that throws leaves the tables and every native file, but for directories that were
missing. One that returns leaves the file with its content, and a row under its path. What stood
under the path before stands there in every state. -/
structure AllOrNothing (c : Catalog) (relative : Bytes) (content : Fallible Bytes)
    (r : Fallible MetadataWrite) (s : Creation) : Prop where
  throws : ∀ e, r = .error e → s.catalog.tables = c.tables ∧ ∀ p,
    s.catalog.fs.node p = c.fs.node p ∨
      c.fs.node p = none ∧ s.catalog.fs.node p = some .directory
  returns : ∀ write, r = .ok write →
    (∃ bytes, content = .ok bytes ∧ s.catalog.fs.content relative = some bytes) ∧
      ∃ row ∈ s.catalog.tables.files, row.path = relative ∧ row.key = write.file.key
  keeps : ∀ n, c.fs.node relative = some n → ∀ fs ∈ s.passed, fs.node relative = some n

/-- Making the parents adds directories where nothing was. -/
theorem makeParents_node (fs : FileSystem) (relative p : Bytes) :
    (makeParents E fs relative).node p = fs.node p ∨
      fs.node p = none ∧ (makeParents E fs relative).node p = some .directory := by
  unfold makeParents
  split
  · exact FileSystem.makeDirectories_node _ fs p
  · exact .inl rfl

/-- What is there stays as it is when the parents are made. -/
theorem makeParents_some {fs : FileSystem} {p : Bytes} {n : Node} (h : fs.node p = some n) :
    (makeParents E fs relative).node p = some n := by
  rcases makeParents_node (E := E) fs relative p with hsame | ⟨hnone, -⟩
  · rw [hsame, h]
  · rw [h] at hnone
    cases hnone

/-- The ways a call ends: its own checks fail, or its creation ends. A check that fails comes before
the first change, so the catalog is as it was. -/
theorem call_ends (c : Catalog) (relative : Bytes) (request : Request) (w : Circumstances) :
    Ends (request.call E relative w) (start c) fun r s =>
      ((∃ e, r = .error e) ∧ s.catalog = c ∧ ¬ s.Late) ∨ ∃ inherited m,
        (∀ j ∈ inherited, CompanionValid E j) ∧
          Ended E ⟨makeParents E c.fs relative, c.tables⟩ relative request.payload inherited m w
            r s := by
  have hcheck {e : String} {Q : Prop} : ((∃ e', (.error e : Fallible MetadataWrite) = .error e') ∧
      (start c).catalog = c ∧ ¬ (start c).Late) ∨ Q :=
    .inl ⟨⟨e, rfl⟩, rfl, not_late_of_nil rfl⟩
  have hcreate (encoded : Fallible Bytes) (input : FileMetadata) :
      Ends (Creation.createFileWith E relative encoded input w) (start c) fun r s =>
        ((∃ e, r = .error e) ∧ s.catalog = c ∧ ¬ s.Late) ∨ ∃ inherited m,
          (∀ j ∈ inherited, CompanionValid E j) ∧
            Ended E ⟨makeParents E c.fs relative, c.tables⟩ relative encoded inherited m w r s := by
    unfold Creation.createFileWith
    refine .bind_lift (fun m _ => .bind_state (.bind_lift (fun _ _ => ?_) fun e _ => hcheck))
      fun e _ => hcheck
    refine (create_ends rfl rfl).imp fun r s h => .inr ⟨none, m, fun j hj => ?_, h⟩
    cases hj
  cases request with
  | createFile bytes input => exact hcreate (.ok bytes) input
  | createFileWith encoded input => exact hcreate encoded input
  | importFile source origin input =>
      show Ends (Creation.importFile E source origin relative input w) _ _
      unfold Creation.importFile
      refine .bind_lift (fun b hb => ?_) fun e _ => hcheck
      obtain ⟨m, inherited⟩ := b
      refine .bind_state (.bind_lift (fun _ _ => ?_) fun e _ => hcheck)
      exact (create_ends rfl rfl).imp fun r s h => .inr ⟨inherited, m, importMetadata_valid hb, h⟩

/-- A file that was registered is read back under its key. -/
theorem publishResult_registered {c : Catalog} {key : Bytes} {w : NativeWrite Physical}
    {row : FileRow} (hread : RowsValid E (publishResult E c key w).2.tables)
    (hrow : row ∈ c.tables.files) (hkey : row.key = key) (hvalid : fileKeyValid row.key = true) :
    ∃ write, (publishResult E c key w).1 = .ok write ∧ write.file.key = row.key ∧
      row ∈ (publishResult E c key w).2.tables.files := by
  subst hkey
  have hrows := (publish_rows (E := E) c row.key w).1
  unfold publishResult at hread ⊢
  cases hpublish : publish E c row.key w with
  | mk result c' =>
      rw [hpublish] at hread hrows
      dsimp only at hread hrows ⊢
      have hrow' : row ∈ c'.tables.files := hrows ▸ hrow
      obtain ⟨f, hf⟩ := (hread row hrow').entry c'.tables
      rw [require_of_row hrow' (normalized_fileKey hvalid) hf]
      obtain ⟨_, _, -, -, rfl⟩ := entry_ok hf
      exact ⟨_, rfl, rfl, hrow'⟩

/-- What stands under the path of a new file stays there: the place has to be vacant. -/
theorem create_keeps {w : Circumstances} {n : Node} (hnode : s.catalog.fs.node relative = some n)
    (hpassed : ∀ fs ∈ s.passed, fs.node relative = some n) :
    Ends (create E relative encoded inherited m w) s
      fun _ s' => ∀ fs ∈ s'.passed, fs.node relative = some n := by
  have hparents : ∀ fs ∈ makeParents E s.catalog.fs relative :: s.passed,
      fs.node relative = some n :=
    List.forall_mem_cons.2 ⟨makeParents_some hnode, hpassed⟩
  unfold create
  refine .bind_modify (.bind_state (.bind_lift (fun destination hpath => ?_) fun e _ => hparents))
  obtain ⟨rfl, -⟩ := path_ok hpath
  refine .bind_lift (fun _ hempty => ?_) fun e _ => hparents
  simp only [requireVacant, failIf_ok, not_or, not_not] at hempty
  have hnone : (makeParents E s.catalog.fs destination).node destination = none := hempty.1
  rw [makeParents_some hnode] at hnone
  cases hnone

/-- What stands under the path before the call stands there at each of its steps. No step of a
creation replaces a file: it makes what is missing and takes away only what it has made itself. -/
theorem call_keeps {c : Catalog} (request : Request) (w : Circumstances) {n : Node}
    (hnode : c.fs.node relative = some n) : Ends (request.call E relative w) (start c)
      fun _ s' => ∀ fs ∈ s'.passed, fs.node relative = some n := by
  have hstart : ∀ fs ∈ (start c).passed, fs.node relative = some n := by
    intro fs hfs
    cases hfs
  have hcreate (encoded : Fallible Bytes) (input : FileMetadata) :
      Ends (Creation.createFileWith E relative encoded input w) (start c)
        fun _ s' => ∀ fs ∈ s'.passed, fs.node relative = some n := by
    unfold Creation.createFileWith
    exact .bind_lift (fun m _ => .bind_state (.bind_lift (fun _ _ => create_keeps hnode hstart)
      fun e _ => hstart)) fun e _ => hstart
  cases request with
  | createFile bytes input => exact hcreate (.ok bytes) input
  | createFileWith encoded input => exact hcreate encoded input
  | importFile source origin input =>
      show Ends (Creation.importFile E source origin relative input w) _ _
      unfold Creation.importFile
      refine .bind_lift (fun b _ => ?_) fun e _ => hstart
      obtain ⟨m, inherited⟩ := b
      exact .bind_state (.bind_lift (fun _ _ => create_keeps hnode hstart) fun e _ => hstart)

/-- The state a call ends in is one its rule speaks of. -/
theorem Ends.result {β : Type} {p : Creating β} {Q : Fallible β → Creation → Prop}
    (h : Ends p s Q) (answers : List (Option StepFailure)) :
    Q (p s answers).1 (p s answers).2.1 :=
  (h answers fun _ _ => trivial).1

/-- The file a creation put in place stands there, where nothing did. -/
theorem Ended.inPlace {w : Circumstances} {r : Fallible MetadataWrite}
    (h : Ended E base relative encoded inherited m w r s) :
    s.catalog = base ∧ ¬ s.Late ∧ (∃ e, r = .error e) ∨
      base.fs.node relative = none ∧
        ∃ bytes, encoded = .ok bytes ∧ s.catalog.fs.content relative = some bytes := by
  cases h with
  | undone hcatalog hlate => exact .inl ⟨hcatalog, hlate, _, rfl⟩
  | left hprepared hcatalog =>
      obtain ⟨-, -, hencoded, -⟩ := prepared_ok hprepared
      refine .inr ⟨(prepared_vacant hprepared).1, _, hencoded, ?_⟩
      rw [hcatalog]
      exact FileSystem.content_write_self _ _ _ _
  | registered hprepared _ hcatalog =>
      obtain ⟨-, hpath, hencoded, -⟩ := prepared_ok hprepared
      obtain ⟨-, hvalid⟩ := path_ok hpath
      refine .inr ⟨(prepared_vacant hprepared).1, _, hencoded, ?_⟩
      rw [hcatalog, publishResult_content hvalid]
      unfold FileSystem.content
      rw [place_node hvalid]

/-- Where a late step has failed, the creation throws. -/
theorem Ended.error_of_late {w : Circumstances} {r : Fallible MetadataWrite}
    (h : Ended E base relative encoded inherited m w r s) (hlate : s.Late) : ∃ e, r = .error e := by
  cases h with
  | undone _ hnone => exact absurd hlate hnone
  | left => exact ⟨_, rfl⟩
  | registered _ _ _ hanswer =>
      rcases hanswer with ⟨herror, -⟩ | ⟨hfailed, -⟩
      · exact herror
      · exact absurd hlate (not_late_of_nil hfailed)

/-- A creation that returns has registered the file. -/
theorem Ended.row {allowed : FileSystem → FileSystem → Prop} {w : Circumstances}
    {r : Fallible MetadataWrite} (hbase : Reached E allowed base)
    (hinherited : ∀ j ∈ inherited, CompanionValid E j)
    (h : Ended E base relative encoded inherited m w r s) (hlate : ¬ s.Late) :
    s.catalog = base ∨ ∃ write, r = .ok write ∧
      ∃ row ∈ s.catalog.tables.files, row.path = relative ∧ row.key = write.file.key := by
  have hread := Readable.reached (hbase.leads (h.leads hinherited))
  cases h with
  | undone hcatalog => exact .inl hcatalog
  | left _ _ hlate' => exact absurd hlate' hlate
  | registered hprepared hregister hcatalog hanswer =>
      obtain ⟨-, hpath, -, hinherit⟩ := prepared_ok hprepared
      rcases hanswer with ⟨-, hlate'⟩ | ⟨-, hresult⟩
      · exact absurd hlate' hlate
      simp only [Catalog.register, bind_ok, pure_ok, Prod.exists, Prod.mk.injEq] at hregister
      obtain ⟨f', mutated, d, hregistration, d', hbump, rfl, rfl⟩ := hregister
      obtain ⟨_, _, -, -, hregisters⟩ := registration_ok hregistration
      have hsound := inherit_sound (Readable.reached hbase).1 hinherited hinherit
      obtain ⟨row, hrow, hrowPath, hkey, hvalid⟩ := hregisters.placed_row hsound
      rw [hcatalog] at hread ⊢
      obtain ⟨write, hwrite, hwriteKey, hrow'⟩ := publishResult_registered hread.2
        (by rw [CatalogTables.bump_ok hbump]; exact hrow) hkey hvalid
      exact .inr ⟨write, hresult.trans hwrite, row, hrow', hrowPath, hwriteKey.symm⟩

/-- **A creation is all or nothing exactly if no step fails between the link and the registration,
nor after the commit.** A failure to remove the name of the stage or to flush the directory leaves
the file in place, and no row for it. -/
theorem allOrNothing_iff {allowed : FileSystem → FileSystem → Prop} {c : Catalog}
    (hc : Reached E allowed c) (relative : Bytes) (request : Request) (w : Circumstances)
    (answers : List (Option StepFailure)) :
    AllOrNothing c relative request.payload
        (request.call E relative w (start c) answers).1
        (request.call E relative w (start c) answers).2.1 ↔
      ¬ (request.call E relative w (start c) answers).2.1.Late := by
  have hends := (call_ends (E := E) c relative request w).result answers
  have hkeeps {n : Node} (hnode : c.fs.node relative = some n) :=
    (call_keeps (E := E) request w hnode).result answers
  generalize (request.call E relative w (start c) answers).1 = r at hends hkeeps ⊢
  generalize (request.call E relative w (start c) answers).2.1 = s at hends hkeeps ⊢
  have hnone (h : (makeParents E c.fs relative).node relative = none) :
      c.fs.node relative = none := by
    by_contra hsome
    obtain ⟨n, hn⟩ := Option.ne_none_iff_exists'.1 hsome
    rw [makeParents_some hn] at h
    cases h
  constructor
  · -- a late failure leaves a file where nothing stood
    intro h hlate
    rcases hends with ⟨-, -, hnot⟩ | ⟨inherited, m, -, hended⟩
    · exact hnot hlate
    · obtain ⟨e, rfl⟩ := hended.error_of_late hlate
      rcases hended.inPlace with ⟨-, hnot, -⟩ | ⟨hvacant, bytes, -, hcontent⟩
      · exact hnot hlate
      · obtain ⟨-, hnodes⟩ := h.throws e rfl
        unfold FileSystem.content at hcontent
        rcases hnodes relative with hsame | ⟨-, hdirectory⟩
        · rw [hsame, hnone hvacant] at hcontent
          cases hcontent
        · rw [hdirectory] at hcontent
          cases hcontent
  · intro hlate
    rcases hends with ⟨⟨e, rfl⟩, rfl, -⟩ | ⟨inherited, m, hinherited, hended⟩
    · refine ⟨fun _ _ => ⟨rfl, fun p => .inl rfl⟩, fun write hwrite => ?_, fun n => hkeeps⟩
      cases hwrite
    · rcases hended.inPlace with ⟨hcatalog, -, e, rfl⟩ | ⟨hvacant, bytes, hpayload, hcontent⟩
      · refine ⟨fun _ _ => ?_, fun write hwrite => ?_, fun n => hkeeps⟩
        · rw [hcatalog]
          exact ⟨rfl, makeParents_node c.fs relative⟩
        · cases hwrite
      · have hbase := hc.leads (makeParents_leads c relative)
        rcases hended.row hbase hinherited hlate with hcatalog | ⟨write, rfl, hrow⟩
        · unfold FileSystem.content at hcontent
          rw [hcatalog, hvacant] at hcontent
          cases hcontent
        · refine ⟨fun e he => ?_, fun write' hwrite => ?_, fun n => hkeeps⟩
          · cases he
          · obtain rfl := Except.ok.inj hwrite
            exact ⟨⟨bytes, hpayload, hcontent⟩, hrow⟩

/-! ## Samples -/

/-- The circumstances of the creation of a file with a native identity. -/
def sampleCircumstances : Circumstances :=
  ⟨sampleDraws 4, fun _ => 1, samplePhysical "n" "s" 1, ⟨samplePhysical "n" "x" 1, none⟩,
    .done (samplePhysical "k" "y" 1)⟩

/-- The creation of the file `b` in an empty catalog, with a failure or none for each step. -/
def createdSample (answers : List (Option StepFailure)) :
    Fallible MetadataWrite × Creation × List (Option StepFailure) :=
  (Request.createFile [2] .initial).call .reference (ascii "b") sampleCircumstances (start sample)
    answers

/-- The answers where one step fails after others are done. -/
def failsAfter (steps : Nat) : List (Option StepFailure) :=
  List.replicate steps none ++ [some ⟨"EIO", []⟩]

/-- The creation of the file `b` is all or nothing where no step fails, and where the link does,
which throws. It is not where the removal of the stage's name fails. -/
theorem allOrNothing_iff_sample :
    (∀ answers ∈ [[], failsAfter 4], AllOrNothing sample (ascii "b")
      (Request.createFile [2] .initial).payload (createdSample answers).1
      (createdSample answers).2.1) ∧
    (createdSample []).1.isOk = true ∧
    (createdSample (failsAfter 4)).1.isOk = false ∧
    (createdSample (failsAfter 4)).2.1.failed = [.link] ∧
    ¬ AllOrNothing sample (ascii "b") (Request.createFile [2] .initial).payload
      (createdSample (failsAfter 5)).1 (createdSample (failsAfter 5)).2.1 := by
  have hreached : Reached .reference (fun _ _ => True) sample := .fresh _ _
  have hall (answers : List (Option StepFailure)) :
      AllOrNothing sample (ascii "b") (Request.createFile [2] .initial).payload
        (createdSample answers).1 (createdSample answers).2.1 ↔
      ¬ (createdSample answers).2.1.Late := by
    unfold createdSample
    -- only the types of the pairs differ; the call is not to be run
    with_reducible exact allOrNothing_iff hreached (ascii "b") _ sampleCircumstances answers
  refine ⟨fun answers hanswers => (hall answers).2 fun hlate => ?_, by decide +kernel,
    by decide +kernel, by decide +kernel, fun hnothing => (hall _).1 hnothing ?_⟩
  · have hnone : ∀ answers ∈ [[], failsAfter 4],
        ∀ name ∈ (createdSample answers).2.1.failed, name.late = false := by decide +kernel
    obtain ⟨name, hname, hlate⟩ := hlate
    cases hlate.symm.trans (hnone answers hanswers name hname)
  · have hunlink : .unlink ∈ (createdSample (failsAfter 5)).2.1.failed := by decide +kernel
    exact ⟨.unlink, hunlink, rfl⟩

/-- A creation of the file `b` where one step fails, which throws and leaves the file without a
row. -/
structure Torn (answers : List (Option StepFailure)) (name : CreationStep) : Prop where
  single : (createdSample answers).2.1.failed = [name]
  throws : (createdSample answers).1.isOk = false
  placed : (createdSample answers).2.1.catalog.fs.content (ascii "b") = some [2]
  unregistered : (createdSample answers).2.1.catalog.tables.files.rows = []

/-- A torn creation is neither all nor nothing: the file is in place without a row. -/
theorem Torn.not_allOrNothing {answers : List (Option StepFailure)} {name : CreationStep}
    (h : Torn answers name) : ¬ AllOrNothing sample (ascii "b")
      (Request.createFile [2] .initial).payload (createdSample answers).1
      (createdSample answers).2.1 := by
  intro hall
  obtain ⟨-, hthrows, hplaced, -⟩ := h
  generalize createdSample answers = ended at hall hthrows hplaced
  obtain ⟨r, s, rest⟩ := ended
  cases r with
  | ok write => cases hthrows
  | error e =>
      unfold FileSystem.content at hplaced
      rcases (hall.throws e rfl).2 (ascii "b") with hsame | ⟨-, hdirectory⟩
      · rw [show sample.fs.node (ascii "b") = none from rfl] at hsame
        rw [hsame] at hplaced
        cases hplaced
      · rw [hdirectory] at hplaced
        cases hplaced

/-- The name of the stage cannot be removed, or the directory cannot be flushed. Either creation
throws after the link, which leaves the file in place and without a row. -/
theorem creation_torn :
    (Torn (failsAfter 5) .unlink ∧ ¬ AllOrNothing sample (ascii "b")
      (Request.createFile [2] .initial).payload (createdSample (failsAfter 5)).1
      (createdSample (failsAfter 5)).2.1) ∧
    (Torn (failsAfter 6) .syncDirectory ∧ ¬ AllOrNothing sample (ascii "b")
      (Request.createFile [2] .initial).payload (createdSample (failsAfter 6)).1
      (createdSample (failsAfter 6)).2.1) := by
  have hunlink : Torn (failsAfter 5) .unlink :=
    ⟨by decide +kernel, by decide +kernel, by decide +kernel, by decide +kernel⟩
  have hsync : Torn (failsAfter 6) .syncDirectory :=
    ⟨by decide +kernel, by decide +kernel, by decide +kernel, by decide +kernel⟩
  exact ⟨⟨hunlink, hunlink.not_allOrNothing⟩, hsync, hsync.not_allOrNothing⟩

end Creation

end Catalog

end FileProvider
