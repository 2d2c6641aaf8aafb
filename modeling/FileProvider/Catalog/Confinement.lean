import FileProvider.Catalog.NewFiles
import FileProvider.Catalog.Soundness

/-!
# Managed paths are confined

What `relativePath` accepts stays below the directory of the catalog, and is none of the paths that
the provider keeps for itself. Every registered path is one that it has accepted.

The module first says what a path means on a file system, as a walk from a directory, and what the
names of devices and of the provider are, without regard to the checks of the source; then it reads
the checks as these conditions. The paths of companions, previews, stages and of the database are
each shown to differ from every accepted path, in any case of letters.
-/

namespace FileProvider

open Bytes Fallible

namespace Catalog

/-! ## Ways down -/

/-- Where a path leads from a directory, part by part. -/
def walk (directory : List Bytes) (path : List Bytes) : List Bytes :=
  path.foldl (fun place part =>
    if part = [] ∨ part = ascii "." then place
    else if part = ascii ".." then place.dropLast
    else place ++ [part]) directory

/-- `operator/` of a root and a relative path. -/
def join (root text : Bytes) : Bytes :=
  if root = [] ∨ root.getLast? = some 47 then root ++ text else root ++ 47 :: text

/-- A part that leads down. -/
def Downward (part : Bytes) : Prop := part ≠ [] ∧ part ≠ ascii "." ∧ part ≠ ascii ".."

/-- A path is walked part by part. -/
theorem walk_append (directory l m : List Bytes) :
    walk directory (l ++ m) = walk (walk directory l) m := List.foldl_append

/-- Parts that lead downward are appended to the directory. -/
theorem walk_downward {directory l : List Bytes} (h : ∀ part ∈ l, Downward part) :
    walk directory l = directory ++ l := by
  induction l generalizing directory with
  | nil => exact (List.append_nil _).symm
  | cons part l ih =>
      obtain ⟨⟨hne, hdot, hdots⟩, hl⟩ := List.forall_mem_cons.1 h
      have hstep : walk directory (part :: l) = walk (directory ++ [part]) l := by
        unfold walk
        rw [List.foldl_cons, if_neg (not_or.2 ⟨hne, hdot⟩), if_neg hdots]
      rw [hstep, ih hl, List.append_assoc]
      rfl

/-- An empty part leads nowhere. -/
theorem walk_empty (directory : List Bytes) : walk directory [[]] = directory := by
  unfold walk
  rw [List.foldl_cons, if_pos (.inl rfl), List.foldl_nil]

/-- A separator separates the parts before it from those behind it. -/
theorem parts_separated (a b : Bytes) : parts (a ++ 47 :: b) = parts a ++ parts b :=
  List.splitOn_append_cons_self a b

/-- A path whose parts lead down stays strictly below every root. -/
theorem walk_join {text : Bytes} (h : ∀ part ∈ parts text, Downward part) (root : Bytes) :
    walk [] (parts (join root text)) = walk [] (parts root) ++ parts text := by
  unfold join
  split
  · next hroot =>
      rcases hroot with rfl | hroot
      · rw [List.nil_append, walk_downward h]
        rfl
      · obtain ⟨r, rfl⟩ := List.getLast?_eq_some_iff.1 hroot
        rw [List.append_assoc, List.singleton_append, parts_separated, parts_separated,
          walk_append, walk_append, walk_downward h]
        exact congrArg (· ++ _) (walk_empty _).symm
  · rw [parts_separated, walk_append, walk_downward h]

/-! ## Parts and letters -/

/-- Each byte of a path is a separator or lies in a part. The split into parts loses no other byte,
which is shown by induction on the text. -/
theorem mem_of_mem_parts {text : Bytes} {b : UInt8} (h : b ∈ text) :
    b = 47 ∨ ∃ part ∈ parts text, b ∈ part := by
  unfold parts
  induction text with
  | nil => cases h
  | cons a text ih =>
      rw [List.splitOn_cons_eq_if_modifyHead]
      split
      · next ha =>
          rcases List.mem_cons.1 h with rfl | h
          · exact .inl (beq_iff_eq.1 ha)
          · rcases ih h with hb | ⟨part, hpart, hb⟩
            · exact .inl hb
            · exact .inr ⟨part, List.mem_cons_of_mem _ hpart, hb⟩
      · cases hsplit : List.splitOn 47 text with
        | nil => exact absurd hsplit (List.splitOn_ne_nil _ _)
        | cons first rest =>
            rw [List.modifyHead_cons]
            rcases List.mem_cons.1 h with rfl | h
            · exact .inr ⟨b :: first, List.mem_cons_self, List.mem_cons_self⟩
            · rcases ih h with hb | ⟨part, hpart, hb⟩
              · exact .inl hb
              · rw [hsplit] at hpart
                rcases List.mem_cons.1 hpart with rfl | hpart
                · exact .inr ⟨a :: part, List.mem_cons_self, List.mem_cons_of_mem _ hb⟩
                · exact .inr ⟨part, List.mem_cons_of_mem _ hpart, hb⟩

/-- Folding neither makes nor takes away a separator. -/
theorem lower_eq_separator {b : UInt8} : lower b = 47 ↔ b = 47 := by
  unfold lower
  split
  · next h =>
      have hb : (b + 32).toNat = b.toNat + 32 := by
        rw [UInt8.toNat_add]
        show (b.toNat + 32) % 256 = _
        omega
      constructor
      · intro heq
        rw [heq] at hb
        have hb : 47 = b.toNat + 32 := hb
        omega
      · rintro rfl
        exact absurd h.1 (by decide)
  · exact Iff.rfl

/-- The parts of a folded path. -/
theorem parts_lower (text : Bytes) :
    parts (text.map lower) = (parts text).map (List.map lower) := by
  unfold parts
  induction text with
  | nil => rfl
  | cons a text ih =>
      rw [List.map_cons, List.splitOn_cons_eq_if_modifyHead, List.splitOn_cons_eq_if_modifyHead, ih]
      by_cases ha : a = 47
      · rw [if_pos (beq_iff_eq.2 (lower_eq_separator.2 ha)), if_pos (beq_iff_eq.2 ha)]
        rfl
      · rw [if_neg (mt beq_iff_eq.1 (mt lower_eq_separator.1 ha)), if_neg (mt beq_iff_eq.1 ha)]
        cases hsplit : List.splitOn 47 text with
        | nil => exact absurd hsplit (List.splitOn_ne_nil _ _)
        | cons first rest => rfl

/-! ## Device names -/

/-- The names of the native devices. -/
def deviceNames : List Bytes :=
  [ascii "con", ascii "prn", ascii "aux", ascii "nul", ascii "conin$", ascii "conout$"]
    ++ [ascii "com", ascii "lpt"].flatMap fun port =>
      ((List.range 9).map fun n => port ++ [(49 + n).toUInt8])
        ++ [[0xC2, 0xB9], [0xC2, 0xB2], [0xC2, 0xB3]].map (port ++ ·)

/-- A name that stands for a device, in any case, with spaces behind it and an extension or
without. -/
def IsDevice (name : Bytes) : Prop :=
  ∃ base spaces extension, name = base ++ (List.replicate spaces 32 ++ extension) ∧
    base.map lower ∈ deviceNames ∧ (extension = [] ∨ extension.head? = some 46)

/-- The names of devices hold no point and do not end in a space. -/
theorem deviceNames_plain :
    deviceNames.all (fun name => !name.contains 46 && !name.isEmpty && name.getLast? != some 32)
      = true := by decide +kernel

/-- The names of devices are reserved. -/
theorem deviceNames_reserved :
    deviceNames.all (fun name => reservedDevice name && deviceBase name == name) = true := by
  decide +kernel

/-- The base of a device name is the name of the device. The name of a device has no dot and no
space at its end, so what is cut off is the extension and the spaces alone. -/
theorem deviceBase_of_isDevice {name : Bytes} (h : IsDevice name) :
    deviceBase name ∈ deviceNames := by
  obtain ⟨base, spaces, extension, rfl, hbase, hextension⟩ := h
  have hplain := List.all_eq_true.1 deviceNames_plain _ hbase
  rw [Bool.and_eq_true, Bool.and_eq_true] at hplain
  obtain ⟨⟨hdot, hempty⟩, hlast⟩ := hplain
  have hstop : ∀ b ∈ base ++ List.replicate spaces 32, b ≠ 46 := by
    intro b hb
    rcases List.mem_append.1 hb with hb | hb
    · rintro rfl
      have hmem : lower 46 ∈ base.map lower := List.mem_map_of_mem hb
      rw [show lower 46 = 46 from rfl] at hmem
      simp [hmem] at hdot
    · rw [List.eq_of_mem_replicate hb]
      exact of_decide_eq_true rfl
  have htake : (base ++ (List.replicate spaces 32 ++ extension)).takeWhile (· ≠ 46)
      = base ++ List.replicate spaces 32 := by
    rw [← List.append_assoc, List.takeWhile_append_of_pos fun b hb => decide_eq_true (hstop b hb)]
    rcases hextension with rfl | hextension
    · exact List.append_nil _
    · obtain ⟨rest, rfl⟩ := List.head?_eq_some_iff.1 hextension
      rw [List.takeWhile_cons_of_neg (by simp)]
      exact List.append_nil _
  have hdrop : (List.replicate spaces (32 : UInt8) ++ base.reverse).dropWhile (· = 32)
      = base.reverse := by
    rw [List.dropWhile_append_of_pos fun b hb => by simp [List.eq_of_mem_replicate hb]]
    cases hreverse : base.reverse with
    | nil => rfl
    | cons b rest =>
        refine List.dropWhile_cons_of_neg ?_
        intro hb
        have hb : b = 32 := by simpa using hb
        have hgetLast : base.getLast? = some b := by
          rw [← List.head?_reverse, hreverse]
          rfl
        rw [List.getLast?_map, hgetLast, hb] at hlast
        exact Bool.false_ne_true hlast
  unfold deviceBase
  rw [htake, List.reverse_append, List.reverse_replicate, hdrop, List.reverse_reverse]
  exact hbase

/-- A name that Windows reads as a device is reserved. -/
theorem reservedDevice_of_isDevice {name : Bytes} (h : IsDevice name) :
    reservedDevice name = true := by
  have hall := List.all_eq_true.1 deviceNames_reserved _ (deviceBase_of_isDevice h)
  rw [Bool.and_eq_true, beq_iff_eq] at hall
  obtain ⟨hreserved, hbase⟩ := hall
  unfold reservedDevice at hreserved ⊢
  rwa [hbase] at hreserved

/-! ## What is accepted -/

variable {E : CatalogLibraries} {text : Bytes}

/-- A name that the provider keeps for itself, in any case. -/
def KeptName (name : Bytes) : Prop :=
  name.map lower = privateDirectory ∨ name.map lower = ascii ".iisacc-temporary.lock" ∨
    ascii ".iifile-stage-" <+: name.map lower ∨ ascii ".society-extract-" <+: name.map lower

/-- What a part of a managed path satisfies. -/
structure PartConfined (part : Bytes) : Prop where
  downward : Downward part
  kept : ¬ KeptName part
  device : ¬ IsDevice part
  printable : ∀ b ∈ part, 32 ≤ b.toNat

/-- What a managed path satisfies. -/
structure Confined (text : Bytes) : Prop where
  relative : text ≠ [] ∧ text.head? ≠ some 47
  normal : lexicallyNormal text = text
  bytes : 92 ∉ text ∧ 58 ∉ text ∧ ∀ b ∈ text, 32 ≤ b.toNat
  components : ∀ part ∈ parts text, PartConfined part
  companion : ¬ companionSuffix <:+ text.map lower
  preview : ¬ previewSuffix <:+ text.map lower

/-- The check for the program's own names accepts exactly the kept names. -/
theorem keptName_iff {name : Bytes} : providerControl name = true ↔ KeptName name := by
  unfold providerControl KeptName
  simp only [Bool.or_eq_true, decide_eq_true_eq, List.isPrefixOf_iff_prefix, or_assoc]

/-- A part that passes the check is confined: it leads downward, on every file system, and is no
kept name. -/
theorem partConfined_of_valid {part : Bytes} (h : partValid part = .ok ()) : PartConfined part := by
  simp only [partValid, bind_ok, failIf_ok, not_or] at h
  obtain ⟨_, ⟨hne, hcontrol, -, -, hdot, -, hprintable⟩, hdevice⟩ := h
  refine ⟨⟨hne, ?_, ?_⟩, fun hkept => hcontrol (keptName_iff.2 hkept), ?_, fun b hb => ?_⟩
  · rintro rfl
    exact hdot rfl
  · rintro rfl
    exact hdot rfl
  · exact fun hd => hdevice (reservedDevice_of_isDevice hd)
  · by_contra hlt
    refine hprintable (List.any_eq_true.2 ⟨b, hb, decide_eq_true ?_⟩)
    exact UInt8.lt_iff_toNat_lt.2 (by show b.toNat < 32; omega)

/-- **A managed path is confined.** -/
theorem confined_of_valid (h : pathValid text = .ok ()) : Confined text := by
  simp only [pathValid, bind_ok, failIf_ok, not_or, not_not, forM_ok] at h
  obtain ⟨_, ⟨hne, hhead, hbackslash, hcolon, -, hcompanion, hpreview⟩, _, hnormal, hparts⟩ := h
  have hall : ∀ part ∈ parts text, PartConfined part :=
    fun part hpart => partConfined_of_valid (hparts part hpart)
  refine ⟨⟨hne, hhead⟩, hnormal, ⟨hbackslash, hcolon, fun b hb => ?_⟩, hall, hcompanion, hpreview⟩
  rcases mem_of_mem_parts hb with rfl | ⟨part, hpart, hb⟩
  · show 32 ≤ 47
    omega
  · exact (hall part hpart).printable b hb

/-! ## The provider's own paths -/

/-- The path of the catalog. -/
def databasePath : Bytes := privateDirectory ++ 47 :: ascii "catalog.sqlite3"

/-- The directory of a path is empty or ends in a separator. -/
theorem directoryOf_cases (path : Bytes) :
    directoryOf path = [] ∨ ∃ d, directoryOf path = d ++ [47] := by
  unfold directoryOf
  cases h : path.reverse.dropWhile (· ≠ 47) with
  | nil => exact .inl rfl
  | cons b rest =>
      have hb : b = 47 := by
        have hhead := List.head_dropWhile_not (p := fun b : UInt8 => decide (b ≠ 47))
          (l := path.reverse) (by rw [h]; exact List.cons_ne_nil _ _)
        simp only [h, List.head_cons] at hhead
        simpa using hhead
      rw [hb, List.reverse_cons]
      exact .inr ⟨rest.reverse, rfl⟩

/-- A confined path differs from every path that has a kept name in it, also when case is ignored.
-/
theorem Confined.ne_of_kept_part {path part : Bytes} (h : Confined text) (hpart : part ∈ parts path)
    (hkept : KeptName part) : text.map lower ≠ path.map lower := by
  intro heq
  have hparts : (parts text).map (List.map lower) = (parts path).map (List.map lower) := by
    rw [← parts_lower, heq, parts_lower]
  have hmem : part.map lower ∈ (parts text).map (List.map lower) := by
    rw [hparts]
    exact List.mem_map_of_mem hpart
  obtain ⟨own, hown, hsame⟩ := List.mem_map.1 hmem
  refine (h.components own hown).kept ?_
  unfold KeptName at hkept ⊢
  rw [hsame]
  exact hkept

/-- The name of the private directory is in lower case. -/
theorem lower_privateDirectory : privateDirectory.map lower = privateDirectory := by decide

/-- A managed path is nothing in the private directory, nor that directory. -/
theorem Confined.ne_private (h : Confined text) (inner : Bytes) :
    text.map lower ≠ privateDirectory.map lower ∧
      text.map lower ≠ (privateDirectory ++ 47 :: inner).map lower := by
  have hplain : parts privateDirectory = [privateDirectory] := by decide
  refine ⟨h.ne_of_kept_part ?_ (.inl lower_privateDirectory),
    h.ne_of_kept_part ?_ (.inl lower_privateDirectory)⟩
  · rw [hplain]
    exact List.mem_cons_self
  · rw [parts_separated, hplain]
    exact List.mem_cons_self

/-- A confined path is that of no companion. -/
theorem Confined.ne_companion (h : Confined text) (path : Bytes) :
    text.map lower ≠ (companionPath path).map lower := by
  have hlower : companionSuffix.map lower = companionSuffix := by decide
  intro heq
  refine h.companion ⟨path.map lower, ?_⟩
  rw [heq, companionPath, List.map_append, hlower]

/-- A confined path is that of no preview. -/
theorem Confined.ne_preview (h : Confined text) (path : Bytes) :
    text.map lower ≠ (previewPath path).map lower := by
  have hlower : previewSuffix.map lower = previewSuffix := by decide
  intro heq
  refine h.preview ?_
  rw [heq, previewPath, List.map_append, hlower]
  exact List.suffix_append _ _

/-- A text without separators begins the first part. -/
theorem parts_stem {stem : Bytes} (h : 47 ∉ stem) (rest : Bytes) :
    parts (stem ++ rest) = (parts rest).modifyHead (stem ++ ·) := by
  induction stem with
  | nil => exact (congrFun List.modifyHead_id (parts rest)).symm
  | cons b stem ih =>
      rw [List.mem_cons, not_or] at h
      unfold parts at ih ⊢
      rw [List.cons_append, List.splitOn_cons_eq_if_modifyHead, ih h.2,
        if_neg fun hb => h.1 (beq_iff_eq.1 hb).symm, List.modifyHead_modifyHead]
      rfl

/-- A stem without a separator begins one of the parts. -/
theorem exists_part_of_stem {stem : Bytes} (h : 47 ∉ stem) (rest : Bytes) :
    ∃ part ∈ parts (stem ++ rest), stem <+: part := by
  rw [parts_stem h]
  cases hrest : parts rest with
  | nil => exact absurd hrest (List.splitOn_ne_nil _ _)
  | cons part l => exact ⟨stem ++ part, List.mem_cons_self, List.prefix_append _ _⟩

/-- A managed path is not one under which a file is written before it is published. -/
theorem Confined.ne_stage (h : Confined text) (path nonce : Bytes) :
    text.map lower ≠ (stagePath path nonce).map lower := by
  have hfirst : ∃ part ∈ parts (ascii ".iifile-stage-" ++ nonce), KeptName part := by
    have hlower : (ascii ".iifile-stage-").map lower = ascii ".iifile-stage-" := by decide
    have hplain : 47 ∉ ascii ".iifile-stage-" := by decide
    obtain ⟨part, hpart, hprefix⟩ := exists_part_of_stem hplain nonce
    refine ⟨part, hpart, .inr (.inr (.inl ?_))⟩
    rw [← hlower]
    exact hprefix.map lower
  obtain ⟨part, hpart, hkept⟩ := hfirst
  refine h.ne_of_kept_part (?_ : part ∈ parts (stagePath path nonce)) hkept
  unfold stagePath
  rcases directoryOf_cases path with hd | ⟨d, hd⟩
  · rw [hd]
    exact hpart
  · rw [hd, List.append_assoc, List.singleton_append, parts_separated]
    exact List.mem_append_right _ hpart

/-! ## Registered paths -/

variable {fs : FileSystem} {db db' : CatalogTables} {P : Bytes → Prop}

/-- Every registered path satisfies a property. -/
def PathsSatisfy (P : Bytes → Prop) (db : CatalogTables) : Prop := ∀ row ∈ db.files, P row.path

/-- Rows that are those of before with other columns written have their paths. -/
theorem PathsSatisfy.of_find {f : FileRow → FileRow} (hdb : PathsSatisfy P db)
    (hpath : ∀ r, (f r).path = r.path) (h : ∀ i, db'.files.find i = (db.files.find i).map f) :
    PathsSatisfy P db' := by
  intro row hrow
  rw [UniqueTable.mem_iff_find, h] at hrow
  obtain ⟨r, hr, rfl⟩ := Option.map_eq_some_iff.1 hrow
  rw [hpath]
  exact hdb r (UniqueTable.find_eq_some.1 hr).1

/-- Annotating changes no path. -/
theorem PathsSatisfy.annotated {id : Nat} {m : FileMetadata} {text : Bytes}
    (hdb : PathsSatisfy P db) (h : Annotated E db id m text db') : PathsSatisfy P db' := by
  refine hdb.of_find (fun r => ?_) h.files
  split <;> rfl

/-- Raising revisions changes no path. -/
theorem PathsSatisfy.raised {ids : List Nat} (hdb : PathsSatisfy P db)
    (h : db.raiseRevisions ids = .ok db') : PathsSatisfy P db' := by
  obtain ⟨files, hfiles, rfl⟩ := CatalogTables.raiseRevisions_ok h
  refine hdb.of_find (fun r => ?_) hfiles
  split <;> rfl

/-- Raising the catalog's revision changes no path. -/
theorem PathsSatisfy.bumped (hdb : PathsSatisfy P db) (h : db.bump = .ok db') :
    PathsSatisfy P db' := by
  rw [CatalogTables.bump_ok h]
  exact hdb

/-- Raising and queueing the members of a collection changes no path. -/
theorem PathsSatisfy.raises {key : Bytes} {mid : CatalogTables} (hdb : PathsSatisfy P db)
    (hraise : db.raiseRevisions (db.membersOf key) = .ok mid)
    (hqueue : mid.queue (mid.membersOf key) = .ok db') : PathsSatisfy P db' := by
  have hmid := hdb.raised hraise
  rw [CatalogTables.queue_ok hqueue]
  exact fun row hrow => hmid row hrow

/-- A registration writes the path that it was given. -/
theorem PathsSatisfy.registers {r : FileRegistration} {draws : KeyDraws} {physical : Physical}
    {file : CatalogFile} {mutated : Bool} (hdb : PathsSatisfy P db) (hpath : P r.path)
    (h : Registers E fs db r draws physical file mutated db') : PathsSatisfy P db' := by
  cases h with
  | unchanged _ hp =>
      unfold PathsSatisfy
      rw [(refreshed_ok hp).1.rows.1]
      exact hdb
  | refreshed _ hp _ hmid hdescribed =>
      obtain ⟨text, hannotated⟩ := hdescribed.annotated
      refine PathsSatisfy.annotated ?_ hannotated
      obtain ⟨files, hfiles, rfl⟩ := CatalogTables.updateFile_ok hmid
      intro row hrow
      obtain ⟨row', hrow', rfl⟩ := (UniqueTable.mem_modify hfiles).1 hrow
      rw [(refreshed_ok hp).1.rows.1] at hrow'
      split
      · exact hpath
      · exact hdb row' hrow'
  | added _ hp hmid hdescribed =>
      obtain ⟨text, hannotated⟩ := hdescribed.annotated
      refine PathsSatisfy.annotated ?_ hannotated
      obtain ⟨files, hfiles, rfl⟩ := CatalogTables.insertFile_ok hmid
      intro row hrow
      rcases (UniqueTable.mem_insert hfiles).1 hrow with hrow | rfl
      · rw [(adopted_ok hp).1.rows.1] at hrow
        exact hdb row hrow
      · exact hpath

/-- A path that `relativePath` has accepted. -/
def Managed (E : CatalogLibraries) (path : Bytes) : Prop := relativePath E path false = .ok path

/-- A registration stores a managed path. -/
theorem PathsSatisfy.registration {r : FileRegistration} {draws : KeyDraws} {file : CatalogFile}
    {mutated : Bool} (hdb : PathsSatisfy (Managed E) db)
    (h : Catalog.registration E fs db r draws = .ok (file, mutated, db')) :
    PathsSatisfy (Managed E) db' := by
  obtain ⟨physical, content, hplace, -, hregisters⟩ := registration_ok h
  exact hdb.registers (path_ok hplace).2 hregisters

/-- A batch of registrations stores managed paths, by induction on its entries. -/
theorem PathsSatisfy.registerBatch {entries : List FileRegistration} {draws : Nat → KeyDraws}
    {files : List CatalogFile} (hdb : PathsSatisfy (Managed E) db)
    (h : Catalog.registerBatch E fs db entries draws = .ok (files, db')) :
    PathsSatisfy (Managed E) db' := by
  obtain ⟨batch, hbatch, -, hbump⟩ := registerBatch_ok h
  have hentry : ∀ (b : Batch) (e : FileRegistration × KeyDraws) (b' : Batch),
      PathsSatisfy (Managed E) b.tables → registerEntry E fs b e = .ok b' →
      PathsSatisfy (Managed E) b'.tables := by
    intro b e b' hb hs
    simp only [registerEntry, bind_ok, pure_ok, Prod.exists] at hs
    obtain ⟨file, mutated, tables, hregistration, _, -, rfl⟩ := hs
    exact hb.registration hregistration
  have hfold : PathsSatisfy (Managed E) batch.tables :=
    foldlM_preserves (motive := fun b : Batch => PathsSatisfy (Managed E) b.tables)
      hentry _ hdb hbatch
  rcases hbump with ⟨-, hbump⟩ | ⟨-, rfl⟩
  · exact hfold.bumped hbump
  · exact hfold

/-- Inheriting a companion's collections changes no path. -/
theorem PathsSatisfy.inherit {inherited : Option Companion} {m metadata : FileMetadata}
    (hdb : PathsSatisfy P db) (h : Catalog.inherit E db inherited m = .ok (metadata, db')) :
    PathsSatisfy P db' := by
  cases inherited with
  | none =>
      cases h
      exact hdb
  | some j =>
      unfold PathsSatisfy
      rw [(restoreCollections_ok h).1.rows.1]
      exact hdb

/-- **Every step registers managed paths.** A path reaches the tables by a registration only, whose
path was checked; a renamed file is one that is registered under another path. -/
theorem PathsSatisfy.step {c c' : Catalog} {e : Event} (hc : PathsSatisfy (Managed E) c.tables)
    (h : Step E c e c') : PathsSatisfy (Managed E) c'.tables := by
  cases h with
  | register h => exact hc.registerBatch h
  | create _ hprepared hregister =>
      obtain ⟨-, -, -, hinherit⟩ := prepared_ok hprepared
      simp only [Catalog.register, bind_ok, pure_ok, Prod.exists, Prod.mk.injEq] at hregister
      obtain ⟨file, mutated, d, hregistration, d', hbump, -, rfl⟩ := hregister
      exact ((hc.inherit hinherit).registration hregistration).bumped hbump
  | update _ h =>
      obtain ⟨file, physical, raised, text, mid, -, -, -, -, -, hraised, hannotated, -, hbump⟩ :=
        update_ok h
      exact ((hc.raised hraised).annotated hannotated).bumped hbump
  | createCollection _ h =>
      simp only [addCollection, bind_ok, pure_ok, Prod.mk.injEq] at h
      obtain ⟨_, -, folded, -, mid, hmid, bumped, hbump, -, rfl⟩ := h
      refine PathsSatisfy.bumped ?_ hbump
      obtain ⟨collections, -, rfl⟩ := CatalogTables.insertCollection_ok hmid
      exact hc
  | renameCollection _ h =>
      simp only [rename, bind_ok] at h
      obtain ⟨folded, -, renamed, hrenamed, raised, hraised, queued, hqueued, _, -, hbump⟩ := h
      refine (PathsSatisfy.raises ?_ hraised hqueued).bumped hbump
      simp only [CatalogTables.updateCollection, bind_ok, orFail_ok, pure_ok] at hrenamed
      obtain ⟨_, -, collections, -, _, -, rfl⟩ := hrenamed
      exact hc
  | removeCollection h =>
      simp only [dissolve, bind_ok] at h
      obtain ⟨raised, hraised, queued, hqueued, removed, hremoved, hbump⟩ := h
      have hmid := hc.raises hraised hqueued
      refine PathsSatisfy.bumped ?_ hbump
      simp only [CatalogTables.removeCollection, bind_ok, pure_ok] at hremoved
      obtain ⟨_, -, _, -, rfl⟩ := hremoved
      exact fun row hrow => hmid row hrow
  | saveFilter h =>
      obtain ⟨_, rfl⟩ := storeFilter_ok h
      exact hc
  | removeFilter h =>
      obtain ⟨_, rfl⟩ := dropFilter_ok h
      exact hc
  | publish => exact hc
  | interrupted => exact hc
  | unindexed => exact hc
  | directory => exact hc
  | staged => exact hc
  | present => rwa [prepare_tables]
  | outside => exact hc

/-- Every path in a catalog that is reached is managed. -/
theorem PathsSatisfy.reached {allowed : FileSystem → FileSystem → Prop} {c : Catalog}
    (h : Reached E allowed c) : PathsSatisfy (Managed E) c.tables := by
  refine h.invariant (I := fun c => PathsSatisfy (Managed E) c.tables) (fun id fs row hrow => ?_)
    fun hc hstep _ => hc.step hstep
  cases hrow

/-- **Managed paths are confined.** A path that is accepted is the text that was given, in its
normal form; each of its parts leads down, so that behind every root it stays strictly below it.
Hence no registered path of a reachable catalog is, in any case, the catalog or anything else in
its private directory, the companion or the preview of a file, or a path under which a file is
written before it is published. -/
theorem managed_confined (E : CatalogLibraries) :
    (∀ text p, relativePath E text false = .ok p → p = text ∧ Confined text ∧
      parts text ≠ [] ∧
      (∀ directory n, walk directory ((parts text).take n) = directory ++ (parts text).take n) ∧
      ∀ root, walk [] (parts (join root text)) = walk [] (parts root) ++ parts text) ∧
    ∀ allowed c, Reached E allowed c → ∀ row ∈ c.tables.files,
      relativePath E row.path false = .ok row.path ∧
      row.path.map lower ≠ databasePath.map lower ∧
      row.path.map lower ≠ privateDirectory.map lower ∧
      (∀ inner, row.path.map lower ≠ (privateDirectory ++ 47 :: inner).map lower) ∧
      (∀ path, row.path.map lower ≠ (companionPath path).map lower ∧
        row.path.map lower ≠ (previewPath path).map lower) ∧
      ∀ path nonce, row.path.map lower ≠ (stagePath path nonce).map lower := by
  refine ⟨fun text p h => ?_, fun allowed c hreached row hrow => ?_⟩
  · obtain ⟨rfl, hvalid⟩ := relativePath_ok h
    have hconfined := confined_of_valid hvalid
    have hdown : ∀ part ∈ parts p, Downward part :=
      fun part hpart => (hconfined.components part hpart).downward
    refine ⟨rfl, hconfined, List.splitOn_ne_nil _ _, fun directory n => ?_, walk_join hdown⟩
    exact walk_downward fun part hpart => hdown part (List.mem_of_mem_take hpart)
  · have hmanaged := PathsSatisfy.reached hreached row hrow
    have hconfined := confined_of_valid (relativePath_ok hmanaged).2
    refine ⟨hmanaged, (hconfined.ne_private _).2, (hconfined.ne_private []).1,
      fun inner => (hconfined.ne_private inner).2,
      fun path => ⟨hconfined.ne_companion path, hconfined.ne_preview path⟩,
      hconfined.ne_stage⟩

/-- The path `notes/a.txt` is confined and walked within any root, and the path of the published
sample is that of no stage. -/
theorem managed_confined_sample :
    Confined (ascii "notes/a.txt") ∧
      (∀ root, walk [] (parts (join root (ascii "notes/a.txt")))
        = walk [] (parts root) ++ [ascii "notes", ascii "a.txt"]) ∧
      ∃ row ∈ published.tables.files, row.path = ascii "a" ∧
        ∀ path nonce, row.path.map lower ≠ (stagePath path nonce).map lower := by
  obtain ⟨hpaths, hcatalogs⟩ := managed_confined .reference
  have haccepted :
      relativePath .reference (ascii "notes/a.txt") false = .ok (ascii "notes/a.txt") :=
    toOption_eq_some.1 (by decide +kernel)
  obtain ⟨-, hconfined, -, -, hbelow⟩ := hpaths _ _ haccepted
  refine ⟨hconfined, hbelow, ?_⟩
  have hrow : ∃ row, row ∈ published.tables.files.rows ∧ row.path = ascii "a" := by
    have hrows : published.tables.files.rows.map (·.path) = [ascii "a"] := by decide +kernel
    obtain ⟨row, hrow, hpath⟩ := List.mem_map.1 (hrows ▸ List.mem_singleton_self (ascii "a"))
    exact ⟨row, hrow, hpath⟩
  obtain ⟨row, hrow, hpath⟩ := hrow
  obtain ⟨-, -, -, -, -, hstage⟩ := hcatalogs (fun _ _ => True) published reached_published row hrow
  exact ⟨row, hrow, hpath, hstage⟩

/-- The delete character is accepted in a path, as the check refuses only what is below the space.
-/
theorem control_accepted : ¬ ∀ text p, relativePath .reference text false = .ok p →
    ∀ b ∈ text, 32 ≤ b.toNat ∧ b.toNat ≠ 127 := by
  intro h
  have haccepted : relativePath .reference [97, 127] false = .ok [97, 127] :=
    toOption_eq_some.1 (by decide +kernel)
  exact (h _ _ haccepted 127 (List.mem_cons_of_mem _ List.mem_cons_self)).2 rfl

end Catalog

end FileProvider
