import FileProvider.Library.JsonDiff
import FileProvider.Object.Documents
import FileProvider.Object.Store

/-!
# Metadata diffs

The differences between the annotations of two RAW documents, as the store reports them: for each
a JSON pointer with the text of what stood there before and after. They are the changes between
the two documents, and written into one of them they make the other.

Annotations are values of JSON, so the module is an instance of `Library.JsonDiff`: a pointer is
formed of the keys that lead to a value, and is read back by the reader of that library.
-/

namespace FileProvider

open Bytes Fallible

/-- A difference between two documents. -/
structure MetadataChange where
  pointer : Bytes
  beforeJson : Option Bytes
  afterJson : Option Bytes
deriving DecidableEq

/-- A difference before its values are written as texts. -/
structure MetadataDifference where
  path : Bytes
  before : Option Json
  after : Option Json

namespace MetadataCodec

variable (L : JsonLibrary)

/-- A key in a JSON pointer. -/
def pointerToken (s : Bytes) : Bytes :=
  s.flatMap fun c => if c = 126 then ascii "~0" else if c = 47 then ascii "~1" else [c]

/-- The recursion of `differences`. A missing value is a null pointer in the source. -/
def differences (before after : Option Json) (path : Bytes) : List MetadataDifference :=
  match before, after with
  | some a, some b =>
      if a.equal b then []
      else if a.isObject && b.isObject then
        (Json.unionKeys a b).flatMap fun key =>
          differences (a.member? key) (b.member? key) (path ++ 47 :: pointerToken key)
      else [⟨path, some a, some b⟩]
  | none, _ => [⟨path, none, after⟩]
  | some a, none => [⟨path, some a, none⟩]
termination_by Json.weight before + Json.weight after
decreasing_by
  have ha := Json.weight_member? key a
  have hb := Json.weight_member? key b
  omega

/-- The text of a value that may be missing. -/
def dumpOptional : Option Json → Fallible (Option Bytes)
  | none => pure none
  | some j => some <$> L.dump j

/-- A difference as it is reported. -/
def dumpDifference (d : MetadataDifference) : Fallible MetadataChange := do
  let before ← dumpOptional L d.before
  let after ← dumpOptional L d.after
  pure ⟨d.path, before, after⟩

/-- The annotations of a RAW document, or an empty object where there is no document. -/
def annotations (document : Bytes) : Fallible Json :=
  if document = [] then pure (.obj []) else do
    let raw ← decodeRawMetadata L document
    metadataJson L raw.annotations

def metadataChanges (before after : Bytes) : Fallible (List MetadataChange) := do
  let a ← annotations L before
  let b ← annotations L after
  (differences (some a) (some b) []).mapM (dumpDifference L)

end MetadataCodec

/-- The RAW document of the revision before; it is empty when there is none. -/
def Impl.previousDocument (m : Impl) (db : ObjectTables) (key : Bytes) (version : Nat) :
    Fallible Bytes :=
  if 1 < version then Impl.rawDocument m db key (version - 1) else pure []

/-- `ObjectStore::metadataDiff`. -/
def ObjectStore.metadataDiff (P : Platform) (m : Impl) (db : ObjectTables) (key : Bytes)
    (version : Nat) : Fallible (List MetadataChange) := do
  failIf (version = 0 ∨ int64Max < version) "invalid RAW metadata diff revision"
  Impl.requireJournal m
  let valid ← Impl.validate P m db key version false
  failIf (valid = false) "RAW metadata chain is corrupt"
  let after ← Impl.rawDocument m db key version
  failIf (after = []) "object is not a RAW envelope"
  let before ← Impl.previousDocument m db key version
  MetadataCodec.metadataChanges P.json before after

/-! ## Annotations -/

namespace MetadataCodec

variable {L : JsonLibrary}

/-- The source's escaping of a token is that of RFC 6901. -/
theorem pointerToken_eq (s : Bytes) : pointerToken s = Json.escapeToken s := by
  have htilde : ascii "~0" = [126, 48] := by decide
  have hslash : ascii "~1" = [126, 49] := by decide
  rw [pointerToken, htilde, hslash]
  rfl

/-- The differences are the changes, each with the pointer of its place. -/
theorem differences_eq (before after : Option Json) (path : Bytes) :
    differences before after path =
      (Json.changes before after).map fun c =>
        ⟨path ++ Json.pointer c.keys, c.before, c.after⟩ := by
  induction before, after using Json.changes.induct generalizing path with
  | case1 a b hequal =>
      rw [differences, Json.changes, if_pos hequal, if_pos hequal]
      rfl
  | case2 a b hequal hobjects ih =>
      rw [differences, Json.changes, if_neg hequal, if_neg hequal, if_pos hobjects, if_pos hobjects,
        List.map_flatMap]
      refine List.flatMap_congr fun key _ => ?_
      rw [ih, List.map_map]
      refine List.map_congr_left fun c _ => ?_
      have hpointer : Json.pointer (key :: c.keys)
          = 47 :: (Json.escapeToken key ++ Json.pointer c.keys) :=
        List.flatMap_cons
      rw [pointerToken_eq, List.append_assoc, List.cons_append, ← hpointer]
      rfl
  | case3 a b hequal hobjects =>
      rw [differences, Json.changes, if_neg hequal, if_neg hequal, if_neg hobjects, if_neg hobjects,
        List.map_singleton, show Json.pointer [] = [] from rfl, List.append_nil]
  | case4 y =>
      rw [differences, Json.changes, List.map_singleton, show Json.pointer [] = [] from rfl,
        List.append_nil]
  | case5 a =>
      rw [differences, Json.changes, List.map_singleton, show Json.pointer [] = [] from rfl,
        List.append_nil]

/-- The document of annotations has exact numbers only. -/
theorem metadataJson_exact {m : FileMetadata} {j : Json} (h : metadataJson L m = .ok j) :
    j.Exact := by
  obtain ⟨rfl, -⟩ := metadataJson_ok h
  have htexts : ∀ l : List Bytes, (Json.arr (l.map .str)).Exact := by
    intro l
    refine Json.exactElements_iff.2 fun x hx => ?_
    obtain ⟨s, -, rfl⟩ := List.mem_map.1 hx
    trivial
  refine Json.exactMembers_iff.2 fun f hf => ?_
  rw [Keyset.mem_orderBy] at hf
  simp only [metadataFields, List.mem_cons, List.not_mem_nil, or_false] at hf
  rcases hf with rfl | rfl | rfl | rfl | rfl | rfl | rfl
  · trivial
  · trivial
  · exact htexts _
  · trivial
  · trivial
  · exact htexts _
  · refine Json.exactMembers_iff.2 fun e he => ?_
    obtain ⟨e', -, rfl⟩ := List.mem_map.1 he
    trivial

/-- Annotations are a plain object with a text. -/
theorem annotations_ok {document : Bytes} {j : Json} (h : annotations L document = .ok j) :
    j.Plain ∧ ∃ t, L.dump j = .ok t := by
  unfold annotations at h
  split at h
  · rw [pure_ok] at h
    subst h
    exact ⟨⟨⟨.nil, trivial⟩, trivial⟩, _, rfl⟩
  · rw [bind_ok] at h
    obtain ⟨raw, -, h⟩ := h
    obtain ⟨-, -, t, ht, -⟩ := metadataJson_ok h
    exact ⟨⟨metadataJson_canonical h, metadataJson_exact h⟩, t, ht⟩

/-- What stands at a place is missing, or it has the text that is reported. -/
def Shows (L : JsonLibrary) (value : Option Json) (text : Option Bytes) : Prop :=
  dumpOptional L value = .ok text

/-- A value that has a text is printed, and a missing one needs none. -/
theorem dumpOptional_ok {x : Option Json} (h : ∀ j ∈ x, ∃ t, L.dump j = .ok t) :
    ∃ text, dumpOptional L x = .ok text := by
  cases x with
  | none => exact ⟨none, rfl⟩
  | some j =>
      obtain ⟨t, ht⟩ := h j rfl
      refine ⟨some t, ?_⟩
      rw [dumpOptional, ht]
      rfl

/-- A value read from the text that is reported for it, if any. -/
def readOptional (L : JsonLibrary) : Option Bytes → Option Json
  | none => none
  | some t => L.parse t

/-- A text that shows a plain value is read back as it. -/
theorem readOptional_of_shows {x : Option Json} {text : Option Bytes}
    (hx : ∀ j ∈ x, j.Plain) (h : Shows L x text) : readOptional L text = x := by
  cases x with
  | none =>
      obtain rfl := Except.ok.inj h
      rfl
  | some j =>
      simp only [Shows, dumpOptional, map_ok] at h
      obtain ⟨t, ht, rfl⟩ := h
      exact orFail_ok.1 (JsonLibrary.parseText_of_dump (hx j rfl).canonical ht)

/-- The texts of two values are the same only if the values are. -/
theorem shows_injective {x y : Option Json} {s t : Option Bytes} (hx : ∀ j ∈ x, j.Plain)
    (hy : ∀ j ∈ y, j.Plain) (hs : Shows L x s) (ht : Shows L y t) (h : s = t) : x = y := by
  rw [← readOptional_of_shows hx hs, ← readOptional_of_shows hy ht, h]

/-! ## Patches -/

/-- A value with the reported texts written at their places, one after the other; a missing text
removes what is there. -/
def applyChanges (L : JsonLibrary) (pick : MetadataChange → Option Bytes)
    (changes : List MetadataChange) (x : Option Json) : Option Json :=
  changes.foldl (fun z c => (Json.readPointer c.pointer).elim z fun keys =>
    Json.setAt keys (readOptional L (pick c)) z) x

/-- A reported change is the change of its place. -/
structure Reports (L : JsonLibrary) (d : Json.Change) (c : MetadataChange) : Prop where
  pointer : c.pointer = Json.pointer d.keys
  before : Shows L d.before c.beforeJson
  after : Shows L d.after c.afterJson

/-- A difference is reported with its pointer and its two texts. -/
theorem dumpDifference_ok {d : Json.Change} {c : MetadataChange}
    (h : dumpDifference L ⟨[] ++ Json.pointer d.keys, d.before, d.after⟩ = .ok c) :
    Reports L d c := by
  simp only [dumpDifference, bind_ok, pure_ok] at h
  obtain ⟨before, hbefore, after, hafter, rfl⟩ := h
  exact ⟨rfl, hbefore, hafter⟩

/-- All differences are reported in their order. -/
theorem reports_of_mapM {ds : List Json.Change} {changes : List MetadataChange}
    (h : (ds.map fun c =>
        (⟨[] ++ Json.pointer c.keys, c.before, c.after⟩ : MetadataDifference)).mapM
      (dumpDifference L) = .ok changes) : List.Forall₂ (Reports L) ds changes := by
  induction ds generalizing changes with
  | nil =>
      rw [List.map_nil, List.mapM_nil, pure_ok] at h
      subst h
      exact .nil
  | cons d ds ih =>
      rw [List.map_cons, List.mapM_cons] at h
      simp only [bind_ok, pure_ok] at h
      obtain ⟨c, hc, cs, hcs, rfl⟩ := h
      exact .cons (dumpDifference_ok hc) (ih hcs)

/-- The patch of the reported texts is the patch of the changes. -/
theorem applyChanges_eq {pick : MetadataChange → Option Bytes} {value : Json.Change → Option Json}
    {ds : List Json.Change} {changes : List MetadataChange}
    (h : List.Forall₂ (Reports L) ds changes)
    (hread : ∀ d ∈ ds, ∀ c, Reports L d c → readOptional L (pick c) = value d) (x : Option Json) :
    applyChanges L pick changes x = Json.patch value ds x := by
  induction h generalizing x with
  | nil => rfl
  | @cons d c ds changes hc _ ih =>
      have hstep : (Json.readPointer c.pointer).elim x (fun keys =>
          Json.setAt keys (readOptional L (pick c)) x) = Json.setAt d.keys (value d) x := by
        rw [hc.pointer, Json.readPointer_pointer, hread d List.mem_cons_self c hc]
        rfl
      show applyChanges L pick changes ((Json.readPointer c.pointer).elim x fun keys =>
        Json.setAt keys (readOptional L (pick c)) x)
          = Json.patch value ds (Json.setAt d.keys (value d) x)
      rw [hstep]
      exact ih (fun e he => hread e (List.mem_cons_of_mem _ he)) _

/-- What is reported of the differences between two annotations. -/
structure ExactPatch (L : JsonLibrary) (a b : Json) (changes : List MetadataChange) : Prop where
  /-- Every pointer names a place, at which the documents differ as reported. -/
  places : ∀ c ∈ changes, ∃ keys, Json.readPointer c.pointer = some keys ∧
    c.pointer = Json.pointer keys ∧ Shows L (Json.valueAt keys (some a)) c.beforeJson ∧
    Shows L (Json.valueAt keys (some b)) c.afterJson ∧
    Json.valueAt keys (some a) ≠ Json.valueAt keys (some b) ∧ c.beforeJson ≠ c.afterJson
  /-- No place lies in another; in particular the pointers are distinct. -/
  apart : changes.Pairwise fun c d => c.pointer ≠ d.pointer ∧ ∀ ks ls,
    Json.readPointer c.pointer = some ks → Json.readPointer d.pointer = some ls → Json.Apart ks ls
  forward : applyChanges L MetadataChange.afterJson changes (some a) = some b
  back : applyChanges L MetadataChange.beforeJson changes (some b) = some a

/-- Each change that is reported is a difference. -/
theorem exists_reports {ds : List Json.Change} {changes : List MetadataChange}
    (h : List.Forall₂ (Reports L) ds changes) {c : MetadataChange} (hc : c ∈ changes) :
    ∃ d ∈ ds, Reports L d c := by
  induction h with
  | nil => cases hc
  | cons hr _ ih =>
      rcases List.mem_cons.1 hc with rfl | hc
      · exact ⟨_, List.mem_cons_self, hr⟩
      · obtain ⟨d, hd, hr⟩ := ih hc
        exact ⟨d, List.mem_cons_of_mem _ hd, hr⟩

/-- The pointers of places apart are distinct and name these places. -/
theorem pairwise_reports {ds : List Json.Change} {changes : List MetadataChange}
    (h : List.Forall₂ (Reports L) ds changes)
    (hapart : ds.Pairwise fun c d => Json.Apart c.keys d.keys) :
    changes.Pairwise fun c d => c.pointer ≠ d.pointer ∧ ∀ ks ls,
      Json.readPointer c.pointer = some ks → Json.readPointer d.pointer = some ls →
        Json.Apart ks ls := by
  induction h with
  | nil => exact .nil
  | @cons d c ds cs hr hrest ih =>
      obtain ⟨hfirst, hapart⟩ := List.pairwise_cons.1 hapart
      refine List.pairwise_cons.2 ⟨fun c' hc' => ?_, ih hapart⟩
      obtain ⟨d', hd', hr'⟩ := exists_reports hrest hc'
      rw [hr.pointer, hr'.pointer, Json.readPointer_pointer, Json.readPointer_pointer]
      refine ⟨fun hsame => ?_, fun ks ls hks hls => ?_⟩
      · have hkeys := congrArg Json.readPointer hsame
        rw [Json.readPointer_pointer, Json.readPointer_pointer] at hkeys
        have hplace := (hfirst d' hd').1
        rw [Option.some.inj hkeys] at hplace
        exact hplace (List.prefix_refl _)
      · rw [← Option.some.inj hks, ← Option.some.inj hls]
        exact hfirst d' hd'

/-- The reports of the changes between two plain values are an exact patch between them. The reports
stand for the changes one by one, so that each part of the statement is the fact about the changes,
which are read through the reports. -/
theorem exactPatch {a b : Json} {changes : List MetadataChange} (ha : a.Plain) (hb : b.Plain)
    (h : List.Forall₂ (Reports L) (Json.changes (some a) (some b)) changes) :
    ExactPatch L a b changes := by
  have hx : ∀ j ∈ some a, j.Plain := fun j hj => Option.some.inj hj ▸ ha
  have hy : ∀ j ∈ some b, j.Plain := fun j hj => Option.some.inj hj ▸ hb
  have hplaces : ∀ d ∈ Json.changes (some a) (some b),
      (∀ v ∈ d.before, v.Plain) ∧ ∀ v ∈ d.after, v.Plain := by
    intro d hd
    obtain ⟨hbefore, hafter⟩ := Json.valueAt_of_mem hd
    rw [← hbefore, ← hafter]
    exact ⟨Json.Plain.valueAt hx, Json.Plain.valueAt hy⟩
  refine ⟨fun c hc => ?_, pairwise_reports h (Json.changes_pairwise _ _), ?_, ?_⟩
  · obtain ⟨d, hd, hreport⟩ := exists_reports h hc
    obtain ⟨hbefore, hafter⟩ := Json.valueAt_of_mem hd
    have hne := Json.ne_of_mem (.inl (Option.some_ne_none a)) hd
    obtain ⟨hplainBefore, hplainAfter⟩ := hplaces d hd
    refine ⟨d.keys, ?_, hreport.pointer, ?_, ?_, ?_, fun hsame => hne ?_⟩
    · rw [hreport.pointer, Json.readPointer_pointer]
    · rw [hbefore]
      exact hreport.before
    · rw [hafter]
      exact hreport.after
    · rwa [hbefore, hafter]
    · exact shows_injective hplainBefore hplainAfter hreport.before hreport.after hsame
  · rw [applyChanges_eq h fun d hd c hr => readOptional_of_shows (hplaces d hd).2 hr.after]
    exact Json.patch_changes hx hy
  · rw [applyChanges_eq h fun d hd c hr => readOptional_of_shows (hplaces d hd).1 hr.before]
    exact Json.patch_changes_back hx hy

/-! ## Reports -/

/-- The differences of annotations can be reported. Either document has a text, so that every value
inside it has one, and only those are put into a report. -/
theorem exists_metadataChanges {before after : Bytes} {a b : Json}
    (ha : annotations L before = .ok a) (hb : annotations L after = .ok b) :
    ∃ changes, metadataChanges L before after = .ok changes := by
  obtain ⟨-, ta, hta⟩ := annotations_ok ha
  obtain ⟨-, tb, htb⟩ := annotations_ok hb
  have hdump : ∀ d ∈ differences (some a) (some b) [], ∃ c, dumpDifference L d = .ok c := by
    intro d hd
    rw [differences_eq] at hd
    obtain ⟨e, he, rfl⟩ := List.mem_map.1 hd
    obtain ⟨hbefore, hafter⟩ := Json.valueAt_of_mem he
    have htext : ∀ {j : Json} {t : Bytes} {ks : List Bytes}, L.dump j = .ok t →
        ∀ v ∈ Json.valueAt ks (some j), ∃ u, L.dump v = .ok u := by
      intro j t ks hj v hv
      obtain ⟨u, hu⟩ := Json.dump_valueAt ⟨t, orFail_ok.1 hj⟩ hv
      exact ⟨u, orFail_ok.2 hu⟩
    obtain ⟨s, hs⟩ := dumpOptional_ok (L := L) (x := e.before) (hbefore ▸ htext hta)
    obtain ⟨t, ht⟩ := dumpOptional_ok (L := L) (x := e.after) (hafter ▸ htext htb)
    refine ⟨⟨[] ++ Json.pointer e.keys, s, t⟩, ?_⟩
    simp only [dumpDifference, bind_ok, pure_ok]
    exact ⟨s, hs, t, ht, rfl⟩
  obtain ⟨changes, hchanges⟩ : ∃ changes,
      (differences (some a) (some b) []).mapM (dumpDifference L) = .ok changes := by
    generalize differences (some a) (some b) [] = ds at hdump
    induction ds with
    | nil => exact ⟨[], rfl⟩
    | cons d ds ih =>
        obtain ⟨c, hc⟩ := hdump d List.mem_cons_self
        obtain ⟨cs, hcs⟩ := ih fun e he => hdump e (List.mem_cons_of_mem _ he)
        refine ⟨c :: cs, ?_⟩
        rw [List.mapM_cons, hc, hcs]
        rfl
  refine ⟨changes, ?_⟩
  simp only [metadataChanges, bind_ok]
  exact ⟨a, ha, b, hb, hchanges⟩

/-- A diff that returns is an exact patch between the annotations of the two documents. -/
theorem metadataChanges_ok {before after : Bytes} {changes : List MetadataChange}
    (h : metadataChanges L before after = .ok changes) : ∃ a b,
      annotations L before = .ok a ∧ annotations L after = .ok b ∧ ExactPatch L a b changes := by
  simp only [metadataChanges, bind_ok] at h
  obtain ⟨a, ha, b, hb, h⟩ := h
  rw [differences_eq] at h
  exact ⟨a, b, ha, hb, exactPatch (annotations_ok ha).1 (annotations_ok hb).1 (reports_of_mapM h)⟩

/-- **A metadata diff is an exact patch.** Of any two RAW documents, the first of which may be
missing, the differences are reported; the places they name are distinct and none lies in another,
each pointer names its place whatever the field names are, and the annotations differ there as
reported. Written at these places the later texts turn the earlier annotations into the later ones,
and the earlier texts turn them back. What the store reports for a revision are these differences
between its document and the one before. -/
theorem diffs_exact (L : JsonLibrary) :
    (∀ before after a b, annotations L before = .ok a → annotations L after = .ok b →
      ∃ changes, metadataChanges L before after = .ok changes ∧ ExactPatch L a b changes) ∧
    (∀ (P : Platform) m db key version changes,
      ObjectStore.metadataDiff P m db key version = .ok changes →
      ∃ before after, Impl.rawDocument m db key version = .ok after ∧
        Impl.previousDocument m db key version = .ok before ∧
        metadataChanges P.json before after = .ok changes) := by
  refine ⟨fun before after a b ha hb => ?_, fun P m db key version changes h => ?_⟩
  · obtain ⟨changes, hchanges⟩ := exists_metadataChanges ha hb
    obtain ⟨a', b', ha', hb', hpatch⟩ := metadataChanges_ok hchanges
    obtain rfl := Except.ok.inj (ha.symm.trans ha')
    obtain rfl := Except.ok.inj (hb.symm.trans hb')
    exact ⟨changes, hchanges, hpatch⟩
  · simp only [ObjectStore.metadataDiff, bind_ok] at h
    obtain ⟨-, -, -, -, -, -, -, -, after, hafter, -, -, before, hbefore, h⟩ := h
    exact ⟨before, after, hafter, hbefore, h⟩

/-- One field of a document is changed, and its place is named by a pointer that escapes its name.
The diff turns the annotations of either document into those of the other. -/
theorem diffs_exact_sample : ∃ before after a b changes,
    encodeRawMetadata JsonReference.library (sampleRaw (ascii "1/30")) = .ok before ∧
    encodeRawMetadata JsonReference.library (sampleRaw (ascii "1/60")) = .ok after ∧
    annotations JsonReference.library before = .ok a ∧
    annotations JsonReference.library after = .ok b ∧
    metadataChanges JsonReference.library before after = .ok changes ∧
    changes = [⟨ascii "/fields/a~1b", some (ascii "\"1/30\""), some (ascii "\"1/60\"")⟩] ∧
    ExactPatch JsonReference.library a b changes := by
  have hok : (do
      let before ← encodeRawMetadata JsonReference.library (sampleRaw (ascii "1/30"))
      let after ← encodeRawMetadata JsonReference.library (sampleRaw (ascii "1/60"))
      let _ ← annotations JsonReference.library before
      let _ ← annotations JsonReference.library after
      let changes ← metadataChanges JsonReference.library before after
      failIf (changes ≠ [MetadataChange.mk (ascii "/fields/a~1b") (some (ascii "\"1/30\""))
        (some (ascii "\"1/60\""))]) "unexpected").isOk = true := by
    decide +kernel
  obtain ⟨_, h⟩ := exists_of_isOk hok
  simp only [bind_ok, failIf_ok, ne_eq, not_not] at h
  obtain ⟨before, hbefore, after, hafter, a, ha, b, hb, changes, hchanges, hfields⟩ := h
  obtain ⟨changes', hchanges', hexact⟩ :=
    (diffs_exact JsonReference.library).1 before after a b ha hb
  obtain rfl := Except.ok.inj (hchanges.symm.trans hchanges')
  exact ⟨before, after, a, b, changes, hbefore, hafter, ha, hb, hchanges, hfields, hexact⟩

end MetadataCodec

end FileProvider
