import FileProvider.Object.Content

/-!
# What a validation key commits to

The strings a validation key is the hash of, framed by their lengths, determine the record, its
session, the work-session context and the RAW document, whichever of the optional sections are
there, but for one thing: a record of format 1 has no section for the formats of its author
profile and of its authorship, and the validator demands of such a record only that the payloads
are empty. Along a history every validation key is among the strings of the next one, so the last
key commits to all versions in the same way, and to the content of the last one.

That a hash separates the strings that occur is the one assumption about it (`HashSeparates`); the
encoding of a version is shown to be injective without it. The induction goes along the history from
its last version to the first.
-/

namespace FileProvider

open Bytes Fallible Impl

variable {P : Platform} {m m' : Impl} {db db' : ObjectTables} {container : Bytes}

/-! ## One version -/

/-- Two readings of a version agree: all of the record but its own validation key, and of its
session the author, who stands in the record, the device, the description and the start. -/
structure Evidence.Agrees (e e' : Evidence) : Prop where
  record : e.record.withKey [] = e'.record.withKey []
  device : e.session.device = e'.session.device
  description : e.session.description = e'.session.description
  startedAtNs : e.session.startedAtNs = e'.session.startedAtNs
  context : e.context = e'.context
  raw : e.raw = e'.raw

/-- Two readings of a version name the same formats of the author profile and the
authorship. -/
def Evidence.SameFormats (e e' : Evidence) : Prop :=
  e.record.author.profile.format = e'.record.author.profile.format ∧
    e.record.authorship.format = e'.record.authorship.format

/-- The validator hashes a version: its format is known, and a record of format 1 has none of
the documents that came after it. -/
structure Evidence.Hashable (e : Evidence) : Prop where
  format : e.record.schemaVersion = 1 ∨ e.record.schemaVersion = 2
  legacy : e.record.schemaVersion = 1 → e.record.author.profile.payload = [] ∧
    e.record.authorship.payload = [] ∧ e.record.sourceStamp = []

/-- Evidence that fits has been hashed within the limit of the hash. -/
theorem Evidence.Fits.hashable {previous : Bytes} {v : Nat} {e : Evidence}
    (h : e.Fits P container v previous) : e.Hashable := ⟨h.format, h.legacy⟩

/-- The string the validator feeds to the hash for a version. -/
def Evidence.hashed (container : Bytes) (e : Evidence) : Bytes :=
  frames (validationFields e.record e.session container e.context e.raw)

/-- All format tags have one length. -/
theorem formatTag_length (v : Nat) : (formatTag v).length = 17 := by
  unfold formatTag
  split
  · decide
  · decide

/-- The tag tells the two formats apart. -/
theorem formatTag_inj {v w : Nat} (hv : v = 1 ∨ v = 2) (hw : w = 1 ∨ w = 2)
    (h : formatTag v = formatTag w) : v = w := by
  rcases hv with rfl | rfl <;> rcases hw with rfl | rfl
  · rfl
  · exact absurd h (by decide)
  · exact absurd h (by decide)
  · rfl

/-- An optional section: its tag and its document, unless the document is empty. -/
def optionalSection (tag document : Bytes) : List Bytes :=
  if document ≠ [] then [tag, document] else []

/-- Two optional sections with different tags are read back from what they are joined to. -/
theorem optionalSections_inj {t u c c' d d' : Bytes} (htu : t ≠ u)
    (h : optionalSection t c ++ optionalSection u d
      = optionalSection t c' ++ optionalSection u d') : c = c' ∧ d = d' := by
  unfold optionalSection at h
  by_cases hc : c = [] <;> by_cases hc' : c' = [] <;> by_cases hd : d = [] <;>
    by_cases hd' : d' = [] <;> simp_all

/-- The tag tells whether the revision is deleted. -/
theorem deletedTag_inj {a b : Bool}
    (h : (if a then ascii "deleted" else ascii "live")
      = (if b then ascii "deleted" else ascii "live")) : a = b := by
  cases a <;> cases b
  · rfl
  · exact absurd h (by decide)
  · exact absurd h (by decide)
  · rfl

/-- The fields every format holds. -/
def commonFields (r : ObjectRecord) (s : ObjectSession) (container : Bytes) : List Bytes :=
  [formatTag r.schemaVersion, container, r.key, decimalInt r.indexKey, decimal r.version,
    r.path, r.sha256, decimal r.size, r.author.origin, r.author.subject, r.author.displayName,
    r.sessionKey, decimalInt r.recordedAtNs, r.operation,
    if r.deleted then ascii "deleted" else ascii "live", r.parentValidationKey,
    s.device, s.description, decimalInt s.startedAtNs]

/-- The fields format 2 brought. -/
def addedFields (r : ObjectRecord) : List Bytes :=
  if r.schemaVersion = 2 then
    [r.author.profile.format, r.author.profile.payload,
      r.authorship.format, r.authorship.payload, r.sourceStamp]
  else []

/-- The fields of a key: the common ones, those of the formats, and the optional sections. -/
theorem validationFields_eq (r : ObjectRecord) (s : ObjectSession)
    (container context raw : Bytes) : validationFields r s container context raw =
      commonFields r s container ++ (addedFields r ++
        (optionalSection (ascii "iiFileProvider.WorkSession/1") context
          ++ optionalSection (ascii "iiFileProvider.RawEnvelope/1") raw)) := by
  simp only [validationFields, commonFields, addedFields, optionalSection, List.append_assoc]

/-- The headings of the two optional sections differ. -/
theorem workSession_ne_rawEnvelope :
    ascii "iiFileProvider.WorkSession/1" ≠ ascii "iiFileProvider.RawEnvelope/1" := by
  decide

/-- The string of a version determines its reading, up to the formats a record of format 1
does not hold. -/
theorem Evidence.agrees_of_hashed {container' : Bytes} {e e' : Evidence} (hf : e.Hashable)
    (hf' : e'.Hashable) (h : e.hashed container = e'.hashed container')
    (hformats : e.record.schemaVersion = 1 → e.SameFormats e') :
    container = container' ∧ e.Agrees e' := by
  have hfields := frames_injective h
  rw [validationFields_eq, validationFields_eq] at hfields
  obtain ⟨hcommon, hrest⟩ := List.append_inj hfields rfl
  simp only [commonFields, List.cons.injEq, and_true] at hcommon
  obtain ⟨htag, hcontainer, hkey, hindex, hversion, hpath, hsha, hsize, horigin, hsubject, hname,
    hsession, htime, hoperation, hdeleted, hparent, hdevice, hdescription, hstarted⟩ := hcommon
  have hschema := formatTag_inj hf.format hf'.format htag
  have hadded : (addedFields e.record).length = (addedFields e'.record).length := by
    unfold addedFields
    rw [hschema]
    split
    · rfl
    · rfl
  obtain ⟨hadd, hoptional⟩ := List.append_inj hrest hadded
  obtain ⟨hcontext, hraw⟩ := optionalSections_inj workSession_ne_rawEnvelope hoptional
  -- The author profile, the authorship and the stamp stand in format 2 and are empty in format 1.
  have hdocuments : e.record.author.profile = e'.record.author.profile ∧
      e.record.authorship = e'.record.authorship ∧
      e.record.sourceStamp = e'.record.sourceStamp := by
    rcases hf.format with h1 | h2
    · obtain ⟨hprofile, hauthorship, hstamp⟩ := hf.legacy h1
      obtain ⟨hprofile', hauthorship', hstamp'⟩ := hf'.legacy (hschema ▸ h1)
      obtain ⟨hformat, hformat'⟩ := hformats h1
      refine ⟨?_, ?_, hstamp.trans hstamp'.symm⟩
      · rw [ObjectMetadata.mk.injEq]
        exact ⟨hformat, hprofile.trans hprofile'.symm⟩
      · rw [ObjectMetadata.mk.injEq]
        exact ⟨hformat', hauthorship.trans hauthorship'.symm⟩
    · simp only [addedFields, if_pos h2, if_pos (hschema ▸ h2), List.cons.injEq,
        and_true] at hadd
      obtain ⟨hpf, hpp, haf, hap, hstamp⟩ := hadd
      refine ⟨?_, ?_, hstamp⟩
      · rw [ObjectMetadata.mk.injEq]
        exact ⟨hpf, hpp⟩
      · rw [ObjectMetadata.mk.injEq]
        exact ⟨haf, hap⟩
  obtain ⟨hprofile, hauthorship, hstamp⟩ := hdocuments
  refine ⟨hcontainer, ?_⟩
  exact {
    record := by
      have hauthor : e.record.author = e'.record.author := by
        rw [ObjectAuthor.mk.injEq]
        exact ⟨horigin, hsubject, hname, hprofile⟩
      rw [ObjectRecord.withKey, ObjectRecord.withKey, ObjectRecord.mk.injEq]
      exact ⟨hkey, decimalInt_injective hindex, decimal_injective hversion, hpath, hsha,
        decimal_injective hsize, hauthor, hsession, decimalInt_injective htime, hoperation,
        deletedTag_inj hdeleted, hparent, rfl, hauthorship, hstamp, hschema⟩
    device := hdevice
    description := hdescription
    startedAtNs := decimalInt_injective hstarted
    context := hcontext
    raw := hraw }

namespace Evidence.Agrees

variable {e e' : Evidence}

/-- Agreeing evidence is deleted or live together. -/
theorem deleted (h : e.Agrees e') : e.record.deleted = e'.record.deleted := by
  have heq := congrArg ObjectRecord.deleted h.record
  exact heq

/-- Agreeing evidence has one content hash. -/
theorem sha256 (h : e.Agrees e') : e.record.sha256 = e'.record.sha256 := by
  have heq := congrArg ObjectRecord.sha256 h.record
  exact heq

/-- Agreeing evidence has one parent. -/
theorem parent (h : e.Agrees e') :
    e.record.parentValidationKey = e'.record.parentValidationKey := by
  have heq := congrArg ObjectRecord.parentValidationKey h.record
  exact heq

/-- Agreeing evidence has the same formats. -/
theorem sameFormats (h : e.Agrees e') : e.SameFormats e' := by
  have hprofile := congrArg (fun r => r.author.profile.format) h.record
  have hauthorship := congrArg (fun r => r.authorship.format) h.record
  exact ⟨hprofile, hauthorship⟩

/-- Readings that agree are hashed to the same string. -/
theorem hashed (h : e.Agrees e') (container : Bytes) :
    e.hashed container = e'.hashed container := by
  have hfields : ∀ e : Evidence, e.hashed container
      = frames (validationFields (e.record.withKey []) e.session container e.context e.raw) :=
    fun _ => rfl
  rw [hfields, hfields, h.record, h.context, h.raw]
  unfold validationFields
  rw [h.device, h.description, h.startedAtNs]

end Evidence.Agrees

/-- **The string of a version is an injective encoding** of its reading, but for the formats a
record of format 1 does not hold. -/
theorem Evidence.hashed_iff {container' : Bytes} {e e' : Evidence} (hf : e.Hashable)
    (hf' : e'.Hashable) :
    (e.hashed container = e'.hashed container' ∧
      (e.record.schemaVersion = 1 → e.SameFormats e')) ↔
      container = container' ∧ e.Agrees e' := by
  constructor
  · rintro ⟨h, hformats⟩
    exact agrees_of_hashed hf hf' h hformats
  · rintro ⟨rfl, h⟩
    exact ⟨h.hashed container, fun _ => h.sameFormats⟩

/-! ## The history -/

/-- The reading of a version is the only one. -/
theorem Impl.Reads.unique {key : Bytes} {v : Nat} {e e' : Evidence} (h : Reads m db key v e)
    (h' : Reads m db key v e') : e = e' := by
  obtain ⟨r, s, c, d⟩ := e
  obtain ⟨r', s', c', d'⟩ := e'
  obtain ⟨hr, hs, hc, hd⟩ := h
  obtain ⟨hr', hs', hc', hd'⟩ := h'
  obtain rfl : r = r' := by simpa [hr] using hr'
  obtain rfl : s = s' := by simpa [hs] using hs'
  obtain rfl : c = c' := by simpa [hc] using hc'
  obtain rfl : d = d' := by simpa [hd] using hd'
  rfl

/-- A string the validator feeds to the hash, for a version up to `v` or for the content of
that version. -/
def Compared (P : Platform) (m : Impl) (db : ObjectTables) (key : Bytes) (v : Nat)
    (s : Bytes) : Prop :=
  (∃ w e, 1 ≤ w ∧ w ≤ v ∧ Reads m db key w e ∧ s = e.hashed m.container) ∨
    ∃ parts, chunks db key v = .ok parts ∧ readChunks P db parts = .ok (some s)

/-- The hash tells the strings apart that the validator compares in the two packages. -/
def HashSeparates (P : Platform) (m m' : Impl) (db db' : ObjectTables) (key : Bytes)
    (v : Nat) : Prop :=
  ∀ s t, Compared P m db key v s → Compared P m' db' key v t → P.hash s = P.hash t → s = t

/-- Two validation keys that are equal come from one string. -/
theorem hashed_of_validationKey {r r' : ObjectRecord} {s s' : ObjectSession}
    {c container' context context' raw raw' : Bytes}
    (h : validationKey P r s c context raw = validationKey P r' s' container' context' raw') :
    P.hash (frames (validationFields r s c context raw))
      = P.hash (frames (validationFields r' s' container' context' raw')) := by
  unfold validationKey at h
  rw [List.append_assoc, List.append_assoc] at h
  obtain ⟨-, hrest⟩ := List.append_inj h (by rw [formatTag_length, formatTag_length])
  exact (List.cons.inj hrest).2

/-- **Two histories with the same last key agree at every version**, if they agree on the
formats their records of format 1 name. -/
theorem Impl.Validated.agree {key k : Bytes} {v n : Nat} (h : Validated P m db key v k)
    (h' : Validated P m' db' key v k) (hn : v ≤ n) (hhash : HashSeparates P m m' db db' key n)
    (hformats : ∀ w e e', 1 ≤ w → w ≤ v → Reads m db key w e → Reads m' db' key w e' →
      e.record.schemaVersion = 1 → e.SameFormats e') :
    ∀ w, 1 ≤ w → w ≤ v → ∃ e e', Reads m db key w e ∧ Reads m' db' key w e' ∧ e.Agrees e' := by
  generalize hk : k = k' at h'
  induction h generalizing k' with
  | zero =>
      intro w hpos hle
      omega
  | @succ v previous e hprevious hreads hfits ih =>
      cases h' with
      | @succ _ previous' e' hprevious' hreads' hfits' =>
      have hhashed : e.hashed m.container = e'.hashed m'.container := by
        refine hhash _ _ (.inl ⟨v + 1, e, by omega, hn, hreads, rfl⟩)
          (.inl ⟨v + 1, e', by omega, hn, hreads', rfl⟩) (hashed_of_validationKey ?_)
        rw [hfits.key, hfits'.key, hk]
      obtain ⟨-, hagrees⟩ := Evidence.agrees_of_hashed hfits.hashable hfits'.hashable hhashed
        (hformats (v + 1) e e' (by omega) le_rfl hreads hreads')
      have hparent : previous = previous' := by
        rw [← hfits.parent, ← hfits'.parent, hagrees.parent]
      have hbelow := ih (by omega) (fun w e e' hpos hle => hformats w e e' hpos (by omega))
        _ hparent hprevious'
      intro w hpos hle
      rcases Nat.lt_or_ge w (v + 1) with hlt | hge
      · exact hbelow w hpos (by omega)
      · obtain rfl : w = v + 1 := by omega
        exact ⟨e, e', hreads, hreads', hagrees⟩

/-- Two packages agree on the history of an object up to a version and, when that version is
live, on its content. -/
structure HistoriesAgree (P : Platform) (m m' : Impl) (db db' : ObjectTables) (key : Bytes)
    (v : Nat) : Prop where
  versions : ∀ w, 1 ≤ w → w ≤ v →
    ∃ e e', Reads m db key w e ∧ Reads m' db' key w e' ∧ e.Agrees e'
  content : ∀ r, Impl.get db key v = .ok (some r) → r.deleted = false →
    ∃ parts parts' content, chunks db key v = .ok parts ∧ chunks db' key v = .ok parts' ∧
      readChunks P db parts = .ok (some content) ∧ readChunks P db' parts' = .ok (some content)

/-- The validation key that is stored for a version. -/
def storedKey (db : ObjectTables) (key : Bytes) (v : Nat) : Option Bytes :=
  (db.revisions.find (key, v)).map (·.validationKey)

/-- The key a validated history ends in is the one stored with its last version. -/
theorem Impl.Validated.storedKey {key k : Bytes} {v : Nat} (h : Validated P m db key v k)
    (hv : v ≠ 0) : FileProvider.storedKey db key v = some k := by
  obtain ⟨e, previous, -, hreads, -, rfl⟩ := h.last hv
  obtain ⟨w, rfl⟩ := Nat.exists_eq_succ_of_ne_zero hv
  obtain ⟨r, hr, hkey, -⟩ := hreads.row
  unfold FileProvider.storedKey
  rw [hr, Option.map_some, hkey]

/-- Two packages in which the validator accepts a version with the same key agree on the whole
history and on the content, exactly when they agree on the formats that their records of format 1
name. -/
theorem historiesAgree_iff {key : Bytes} {v : Nat}
    (hvalid : validate P m db key v true = .ok true)
    (hvalid' : validate P m' db' key v true = .ok true)
    (hkey : storedKey db key v = storedKey db' key v)
    (hhash : HashSeparates P m m' db db' key v) :
    HistoriesAgree P m m' db db' key v ↔
      ∀ w e e', 1 ≤ w → w ≤ v → Reads m db key w e → Reads m' db' key w e' →
        e.record.schemaVersion = 1 → e.SameFormats e' := by
  obtain ⟨hpos, -, ⟨k, hk⟩, hpayload⟩ := validate_iff.1 hvalid
  obtain ⟨-, -, ⟨k', hk'⟩, hpayload'⟩ := validate_iff.1 hvalid'
  rw [hk.storedKey hpos, hk'.storedKey hpos, Option.some.injEq] at hkey
  subst hkey
  constructor
  · intro h w e e' hw hle hreads hreads' _
    obtain ⟨a, a', ha, ha', hagrees⟩ := h.versions w hw hle
    rw [hreads.unique ha, hreads'.unique ha']
    exact hagrees.sameFormats
  · intro hformats
    have hversions := hk.agree hk' le_rfl hhash hformats
    refine ⟨hversions, fun r hr hlive => ?_⟩
    obtain ⟨x, parts, hx, hparts, hintact⟩ := hpayload rfl
    obtain ⟨x', parts', hx', hparts', hintact'⟩ := hpayload' rfl
    obtain rfl : r = x := by simpa [hr] using hx
    -- The two records hold the same hash of their contents.
    obtain ⟨e, e', hreads, hreads', hagrees⟩ := hversions v (by omega) le_rfl
    obtain rfl : e.record = r := by simpa [hreads.record] using hx
    obtain rfl : e'.record = x' := by simpa [hreads'.record] using hx'
    have hlive' : e'.record.deleted = false := by
      rw [← hagrees.deleted]
      exact hlive
    obtain ⟨-, content, hcontent, -, hsha⟩ := hintact.content hlive
    obtain ⟨-, content', hcontent', -, hsha'⟩ := hintact'.content hlive'
    have hread := readChunks_ok.2 hcontent
    have hread' := readChunks_ok.2 hcontent'
    obtain rfl : content = content' :=
      hhash _ _ (.inr ⟨parts, hparts, hread⟩) (.inr ⟨parts', hparts', hread'⟩)
        (by rw [hsha, hsha', hagrees.sha256])
    exact ⟨parts, parts', content, hparts, hparts', hread, hread'⟩

/-- **What the last validation key commits to.** Two valid histories with the same key at a version
agree in all their evidence exactly when the records of format 1 name the same formats, which is
what the key of such a record leaves out; the hash is assumed to separate the texts that occur. The
second half is about the text of one version, which is hashed: it determines the container and the
evidence, again but for these formats. -/
theorem validationKey_commits {key : Bytes} {v : Nat}
    (hvalid : validate P m db key v true = .ok true)
    (hvalid' : validate P m' db' key v true = .ok true)
    (hkey : storedKey db key v = storedKey db' key v)
    (hhash : HashSeparates P m m' db db' key v) :
    (HistoriesAgree P m m' db db' key v ↔
      ∀ w e e', 1 ≤ w → w ≤ v → Reads m db key w e → Reads m' db' key w e' →
        e.record.schemaVersion = 1 → e.SameFormats e') ∧
    ∀ (c c' : Bytes) (e e' : Evidence), e.Hashable → e'.Hashable →
      ((e.hashed c = e'.hashed c' ∧ (e.record.schemaVersion = 1 → e.SameFormats e')) ↔
        c = c' ∧ e.Agrees e') :=
  ⟨historiesAgree_iff hvalid hvalid' hkey hhash, fun _ _ _ _ he he' => Evidence.hashed_iff he he'⟩

/-! ## A record of format 1 -/

/-- The session of a record of format 1. -/
def legacySession (ended : Int) : SessionRow :=
  ⟨ascii "s", ascii "origin", ascii "subject", [], ascii "device", [], 0, ended, [], []⟩

/-- The object of a record of format 1. -/
def legacyObject : ObjectRow := ⟨1, ascii "k", 1, ascii "p", false⟩

/-- An empty file of record format 1, which names a format for the authorship it lacks. -/
def legacyRevision (metadataFormat : Bytes) : RevisionRow :=
  let r : RevisionRow :=
    ⟨ascii "k", 1, ascii "p", [], 0, ascii "origin", ascii "subject", [], ascii "s", 0,
      ascii "import", false, [], [], metadataFormat, [], [], 1⟩
  { r with
    validationKey := validationKey .reference (record r legacyObject (legacySession 0))
      (sessionOf (legacySession 0)) (ascii "c") [] [] }

/-- A package that holds one record of format 1. -/
def legacyTables (metadataFormat : Bytes) (ended : Int) : ObjectTables :=
  { ObjectTables.fresh (ascii "c") with
    sessions := Table.empty.upsert (legacySession ended)
    objects := Table.empty.upsert legacyObject
    workSessions := Table.empty.upsert ⟨1, ascii "s", []⟩
    revisions := Table.empty.upsert (legacyRevision metadataFormat) }

/-- A platform whose hash is injective tells all strings apart. -/
theorem hashSeparates_reference (key : Bytes) (v : Nat) :
    HashSeparates .reference m m' db db' key v := fun _ _ _ _ h => h

/-- The revision of format 1 validates, whatever its columns of formats and its end say. -/
theorem legacyTables_valid {metadataFormat : Bytes} {ended : Int}
    (h : metadataFormat = [] ∨ metadataFormat = ascii "x") (h' : ended = 0 ∨ ended = 7) :
    validate .reference .reference (legacyTables metadataFormat ended) (ascii "k") 1 true
      = .ok true := by
  rcases h with rfl | rfl <;> rcases h' with rfl | rfl <;> decide +kernel

/-- Two packages that differ only in the end of a session agree on their histories, as the last
validation keys promise. -/
theorem validationKey_commits_sample :
    HistoriesAgree .reference .reference .reference (legacyTables (ascii "x") 0)
      (legacyTables (ascii "x") 7) (ascii "k") 1 := by
  refine (validationKey_commits (legacyTables_valid (.inr rfl) (.inl rfl))
    (legacyTables_valid (.inr rfl) (.inr rfl)) rfl (hashSeparates_reference _ _)).1.2 ?_
  intro w e e' hw hle hreads hreads' _
  obtain rfl : w = 1 := by omega
  have hformats : ∀ {ended : Int} {e : Evidence},
      Reads .reference (legacyTables (ascii "x") ended) (ascii "k") 1 e →
        e.record.author.profile.format = [] ∧ e.record.authorship.format = ascii "x" := by
    intro ended e h
    have hrecord : Impl.get (legacyTables (ascii "x") ended) (ascii "k") 1 =
        .ok (some (record (legacyRevision (ascii "x")) legacyObject (legacySession ended))) := by
      rfl
    have heq := h.record.symm.trans hrecord
    simp only [Except.ok.injEq, Option.some.injEq] at heq
    rw [heq]
    exact ⟨rfl, rfl⟩
  obtain ⟨hp, ha⟩ := hformats hreads
  obtain ⟨hp', ha'⟩ := hformats hreads'
  exact ⟨hp.trans hp'.symm, ha.trans ha'.symm⟩

/-- Two packages that differ in the format a record of format 1 names have the same last
validation key, and do not agree. -/
theorem legacyFormat_not_committed :
    validate .reference .reference (legacyTables [] 0) (ascii "k") 1 true = .ok true ∧
    validate .reference .reference (legacyTables (ascii "x") 0) (ascii "k") 1 true = .ok true ∧
    storedKey (legacyTables [] 0) (ascii "k") 1
      = storedKey (legacyTables (ascii "x") 0) (ascii "k") 1 ∧
    HashSeparates .reference .reference .reference (legacyTables [] 0)
      (legacyTables (ascii "x") 0) (ascii "k") 1 ∧
    ¬ HistoriesAgree .reference .reference .reference (legacyTables [] 0)
      (legacyTables (ascii "x") 0) (ascii "k") 1 := by
  refine ⟨legacyTables_valid (.inl rfl) (.inl rfl), legacyTables_valid (.inr rfl) (.inl rfl), rfl,
    hashSeparates_reference _ _, fun h => ?_⟩
  obtain ⟨e, e', hreads, hreads', hagrees⟩ := h.versions 1 le_rfl le_rfl
  have hrecord : Impl.get (legacyTables [] 0) (ascii "k") 1 =
      .ok (some (record (legacyRevision []) legacyObject (legacySession 0))) := rfl
  have hrecord' : Impl.get (legacyTables (ascii "x") 0) (ascii "k") 1 =
      .ok (some (record (legacyRevision (ascii "x")) legacyObject (legacySession 0))) := rfl
  have heq := hreads.record.symm.trans hrecord
  have heq' := hreads'.record.symm.trans hrecord'
  simp only [Except.ok.injEq, Option.some.injEq] at heq heq'
  have hformat := hagrees.sameFormats.2
  rw [heq, heq'] at hformat
  exact absurd hformat (by decide)

end FileProvider
