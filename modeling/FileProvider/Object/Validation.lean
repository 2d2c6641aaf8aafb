import FileProvider.Object.Store

/-!
# What the validator accepts

`validate` re-reads a history version by version. `Evidence` is what it reads about one
version, `Fits` what it demands of that, and `Validated` the whole history up to a version.
`validate_iff` says that the validator returns true exactly on a validated history whose last
content, when it is asked about it, reads back.

The lemmas about the readers turn a call that succeeded into rows of the tables, and back.
`Validated` has one constructor for a version more, as the validator goes, so invariants about
histories are proved by induction on it.
-/

namespace FileProvider

open Bytes Fallible

/-- What the validator reads about one version. -/
structure Evidence where
  record : ObjectRecord
  session : ObjectSession
  context : Bytes
  raw : Bytes
deriving DecidableEq

namespace Impl

variable {P : Platform} {m : Impl} {db : ObjectTables}

@[simp] theorem bindTexts_ok {texts : List Bytes} {u : Unit} :
    bindTexts texts = .ok u ↔ ∀ s ∈ texts, s.length ≤ maximumText := by
  simp [bindTexts]

/-! ## Readers -/

/-- A version is answered with its joined row, where the key is within its limit. -/
theorem get_ok {key : Bytes} {version : Nat} {o : Option ObjectRecord} :
    get db key version = .ok o ↔
      key.length ≤ maximumText ∧ joined db key (versionOf db key version) = o := by
  simp [get]

/-- A version that is named is taken as it is named. -/
theorem versionOf_pos {key : Bytes} {v : Nat} (hv : v ≠ 0) : versionOf db key v = v := if_neg hv

/-- The joined row consists of a revision, its object and its session. -/
theorem joined_eq_some {key : Bytes} {v : Nat} {x : ObjectRecord} :
    joined db key v = some x ↔ ∃ r o s, db.revisions.find (key, v) = some r ∧
      db.objects.find key = some o ∧ db.sessions.find r.sessionKey = some s ∧
      record r o s = x := by
  simp only [joined, Option.bind_eq_bind, Option.bind_eq_some_iff, Option.pure_def,
    Option.some.injEq]
  constructor
  · rintro ⟨r, hr, o, ho, s, hs, h⟩
    have hk : r.objectKey = key := congrArg Prod.fst (Table.key_of_find hr)
    exact ⟨r, o, s, hr, hk ▸ ho, hs, h⟩
  · rintro ⟨r, o, s, hr, ho, hs, h⟩
    have hk : r.objectKey = key := congrArg Prod.fst (Table.key_of_find hr)
    exact ⟨r, hr, o, hk ▸ ho, s, hs, h⟩

/-- A session is answered from its row, and only an active one where that is asked for. -/
theorem getSession_ok {key : Bytes} {active : Bool} {s : ObjectSession} :
    getSession db key active = .ok s ↔ key.length ≤ maximumText ∧
      ∃ row, db.sessions.find key = some row ∧ (active = true → row.ended = 0) ∧
        sessionOf row = s := by
  simp only [getSession, bind_ok, bindTexts_ok, List.mem_singleton, forall_eq, exists_and_left,
    orFail_ok, failIf_ok, pure_ok, exists_const]
  grind

/-- A context is that of its working session, or empty before schema 4. -/
theorem context_ok {key c : Bytes} : m.context db key = .ok c ↔
    if m.schema < 4 then c = [] else key.length ≤ maximumText ∧
      ∃ row, db.workSessions.find key = some row ∧ row.context = c := by
  unfold context
  split
  · rw [pure_ok, eq_comm]
  · simp

/-- A RAW document is that of its row, or empty where there is none or before schema 4. -/
theorem rawDocument_ok {key d : Bytes} {v : Nat} : m.rawDocument db key v = .ok d ↔
    if m.schema < 4 then d = [] else key.length ≤ maximumText ∧
      ((db.rawRevisions.find (key, v)).map (·.document)).getD [] = d := by
  unfold rawDocument
  split
  · rw [pure_ok, eq_comm]
  · simp

/-- The chunks of a version are its rows in order, where their ordinals leave no gap. -/
theorem chunks_ok {key : Bytes} {v : Nat} {parts : List Chunk} :
    chunks db key v = .ok parts ↔ key.length ≤ maximumText ∧
      (chunkRows db key v).map (·.ordinal) = List.range (chunkRows db key v).length ∧
      (chunkRows db key v).map (fun c => ⟨c.sha256, c.size⟩) = parts := by
  simp [chunks]

/-! ## One version -/

/-- The reads of a version succeed with this evidence. -/
structure Reads (m : Impl) (db : ObjectTables) (key : Bytes) (v : Nat) (e : Evidence) : Prop where
  record : get db key v = .ok (some e.record)
  session : getSession db e.record.sessionKey false = .ok e.session
  context : m.context db e.session.key = .ok e.context
  raw : m.rawDocument db key v = .ok e.raw

end Impl

/-- The demands on the evidence of a version, after the validation key of the one before. -/
structure Evidence.Fits (P : Platform) (container : Bytes) (v : Nat) (previous : Bytes)
    (e : Evidence) : Prop where
  format : e.record.schemaVersion = 1 ∨ e.record.schemaVersion = 2
  legacy : e.record.schemaVersion = 1 → e.record.author.profile.payload = [] ∧
    e.record.authorship.payload = [] ∧ e.record.sourceStamp = []
  version : e.record.version = v
  parent : e.record.parentValidationKey = previous
  author : e.record.author = e.session.author
  key : validationKey P e.record e.session container e.context e.raw = e.record.validationKey

namespace Impl

variable {P : Platform} {m : Impl} {db : ObjectTables}

/-- A version validates exactly when its evidence fits the one before. -/
theorem validateVersion_ok {key : Bytes} {v : Nat} {previous k : Bytes} :
    validateVersion P m db key v previous = .ok (some k) ↔
      ∃ e, Reads m db key v e ∧ e.Fits P m.container v previous ∧ e.record.validationKey = k := by
  unfold validateVersion
  simp only [bind_ok]
  constructor
  · rintro ⟨o, hget, h⟩
    cases o with
    | none => simp at h
    | some r =>
        simp only [bind_ok] at h
        obtain ⟨s, hs, h⟩ := h
        split_ifs at h with h1 h2 h3 <;> simp only [bind_ok, pure_ok, reduceCtorEq] at h
        obtain ⟨c, hc, d, hd, h⟩ := h
        split_ifs at h with h4 <;> simp only [pure_ok, reduceCtorEq, Option.some.injEq] at h
        refine ⟨⟨r, s, c, d⟩, ⟨hget, hs, hc, hd⟩, ?_, h⟩
        push Not at h1 h2 h3 h4
        exact ⟨by tauto, fun h => by simpa using h2 h, h3.1, h3.2.1, h3.2.2, h4⟩
  · rintro ⟨e, hr, hf, rfl⟩
    refine ⟨some e.record, hr.record, ?_⟩
    simp only [bind_ok]
    refine ⟨e.session, hr.session, ?_⟩
    have hformat := hf.format
    rw [if_neg (by tauto), if_neg, if_neg, bind_ok]
    · refine ⟨e.context, hr.context, ?_⟩
      rw [bind_ok]
      refine ⟨e.raw, hr.raw, ?_⟩
      rw [if_neg (by simpa using hf.key)]
      rfl
    · simp [hf.version, hf.parent, hf.author]
    · rintro ⟨h1, h⟩
      obtain ⟨h2, h3, h4⟩ := hf.legacy h1
      simp [h2, h3, h4] at h

/-! ## The history -/

/-- The history of an object up to a version is validated, and ends in the validation key
`k`. -/
inductive Validated (P : Platform) (m : Impl) (db : ObjectTables) (key : Bytes) :
    Nat → Bytes → Prop where
  | zero : Validated P m db key 0 []
  | succ {v : Nat} {previous : Bytes} {e : Evidence} :
      Validated P m db key v previous → Reads m db key (v + 1) e →
      e.Fits P m.container (v + 1) previous →
      Validated P m db key (v + 1) e.record.validationKey

/-- A chain validates exactly when each version up to it does. -/
theorem validateChain_ok {key : Bytes} {v : Nat} {k : Bytes} :
    validateChain P m db key v = .ok (some k) ↔ Validated P m db key v k := by
  induction v generalizing k with
  | zero =>
      simp only [validateChain, pure_ok, Option.some.injEq]
      exact ⟨fun h => h ▸ .zero, fun h => by cases h; rfl⟩
  | succ v ih =>
      simp only [validateChain, bind_ok]
      constructor
      · rintro ⟨o, ho, h⟩
        cases o with
        | none => simp at h
        | some previous =>
            obtain ⟨e, hr, hf, rfl⟩ := validateVersion_ok.1 h
            exact .succ (ih.1 ho) hr hf
      · intro h
        cases h with
        | succ hv hr hf =>
            exact ⟨some _, ih.2 hv, validateVersion_ok.2 ⟨_, hr, hf, rfl⟩⟩

/-- A validated history has one last key. -/
theorem Validated.unique {key : Bytes} {v : Nat} {k k' : Bytes} (h : Validated P m db key v k)
    (h' : Validated P m db key v k') : k = k' := by
  have := (validateChain_ok.2 h).symm.trans (validateChain_ok.2 h')
  simpa using this

/-- The last key of a validated history is the one stored with its last version. -/
theorem Validated.last {key : Bytes} {v : Nat} {k : Bytes} (h : Validated P m db key v k)
    (hv : v ≠ 0) : ∃ e previous, Validated P m db key (v - 1) previous ∧ Reads m db key v e ∧
      e.Fits P m.container v previous ∧ e.record.validationKey = k := by
  cases h with
  | zero => exact absurd rfl hv
  | succ hp hr hf => exact ⟨_, _, hp, hr, hf, rfl⟩

/-- Every earlier part of a validated history is validated. -/
theorem Validated.prefix {key : Bytes} {v : Nat} {k : Bytes} (h : Validated P m db key v k) :
    ∀ w ≤ v, ∃ k', Validated P m db key w k' := by
  induction h with
  | zero => exact fun w hw => ⟨[], by obtain rfl : w = 0 := by omega
                                      exact .zero⟩
  | @succ v previous e hv hr hf ih =>
      intro w hw
      rcases Nat.lt_or_ge w (v + 1) with hlt | hge
      · exact ih w (by omega)
      · obtain rfl : w = v + 1 := by omega
        exact ⟨_, .succ hv hr hf⟩

/-! ## The content -/

/-- A stored chunk reads back as these bytes. -/
structure Holds (P : Platform) (db : ObjectTables) (part : Chunk) (bytes : Bytes) : Prop where
  bound : part.hash.length ≤ maximumText
  stored : db.chunks.find part.hash = some ⟨part.hash, bytes⟩
  size : bytes.length = part.size
  nonempty : bytes ≠ []
  atMost : bytes.length ≤ chunkBytes
  digest : P.hash bytes = part.hash

/-- A chunk's data are answered exactly when the package holds them. The size, the number of bytes
and the hash are compared, and nothing is answered if one of them differs. -/
theorem chunkData_ok {part : Chunk} {bytes : Bytes} :
    chunkData P db part = .ok (some bytes) ↔ Holds P db part bytes := by
  unfold chunkData
  simp only [bind_ok, bindTexts_ok, List.mem_singleton, forall_eq, exists_and_left]
  constructor
  · rintro ⟨hb, u, h⟩
    cases hf : db.chunks.find part.hash with
    | none => simp [hf] at h
    | some row =>
        simp only [hf] at h
        split_ifs at h with hbad <;> simp only [pure_ok, reduceCtorEq, Option.some.injEq] at h
        subst h
        push Not at hbad
        have hk : row.sha256 = part.hash := Table.key_of_find hf
        refine ⟨hb, ?_, hbad.1, hbad.2.1, hbad.2.2.1, hbad.2.2.2⟩
        rw [hf, ← hk]
  · intro h
    refine ⟨h.bound, (), ?_⟩
    simp only [h.stored]
    rw [if_neg]
    · rfl
    · have hatMost := h.atMost
      simp only [h.size, h.digest, h.nonempty, ne_eq, not_true_eq_false, or_false, false_or]
      rw [h.size] at hatMost
      omega

/-- A list of chunks reads back as the blocks: every block but the last is full. -/
inductive Content (P : Platform) (db : ObjectTables) : List Chunk → Bytes → Prop where
  | nil : Content P db [] []
  | cons {part : Chunk} {parts : List Chunk} {bytes rest : Bytes} :
      (parts ≠ [] → part.size = chunkBytes) → Holds P db part bytes → Content P db parts rest →
      Content P db (part :: parts) (bytes ++ rest)

/-- Chunks are read exactly when the package holds the content. -/
theorem readChunks_ok {parts : List Chunk} {content : Bytes} :
    readChunks P db parts = .ok (some content) ↔ Content P db parts content := by
  induction parts generalizing content with
  | nil =>
      simp only [readChunks, pure_ok, Option.some.injEq]
      exact ⟨fun h => h ▸ .nil, fun h => by cases h; rfl⟩
  | cons part parts ih =>
      rw [readChunks]
      constructor
      · intro h
        split_ifs at h with hfull
        · simp at h
        simp only [bind_ok] at h
        obtain ⟨o, ho, h⟩ := h
        cases o with
        | none => simp at h
        | some bytes =>
            simp only [bind_ok] at h
            obtain ⟨o', ho', h⟩ := h
            cases o' with
            | none => simp at h
            | some rest =>
                simp only [pure_ok, Option.some.injEq] at h
                subst h
                exact .cons (by tauto) (chunkData_ok.1 ho) (ih.1 ho')
      · intro h
        cases h with
        | cons hfull hh hc =>
            rw [if_neg (by tauto)]
            simp only [bind_ok]
            refine ⟨_, chunkData_ok.2 hh, ?_⟩
            simp only [bind_ok]
            exact ⟨_, ih.2 hc, rfl⟩

/-- The content of a revision is as its record says. -/
structure Intact (P : Platform) (db : ObjectTables) (r : ObjectRecord) (parts : List Chunk) :
    Prop where
  erased : r.deleted = true → parts = []
  content : r.deleted = false → parts.length = chunkCount r.size ∧
    ∃ content, Content P db parts content ∧ content.length = r.size ∧ P.hash content = r.sha256

/-- A payload validates exactly when the record is intact with the chunks of its version. The tests
are the number of the chunks, the size and the hash, and a deleted record may only have no chunks at
all. -/
theorem validatePayload_ok {r : ObjectRecord} {key : Bytes} {v : Nat} :
    validatePayload P db r key v = .ok true ↔
      ∃ parts, chunks db key v = .ok parts ∧ Intact P db r parts := by
  unfold validatePayload
  simp only [bind_ok]
  refine exists_congr fun parts => and_congr_right fun _ => ?_
  constructor
  · intro h
    split_ifs at h with hd hl
    · simp only [pure_ok, decide_eq_true_eq] at h
      exact ⟨fun _ => h, fun h => by simp [h] at hd⟩
    · simp at h
    · simp only [bind_ok] at h
      obtain ⟨o, ho, h⟩ := h
      cases o with
      | none => simp at h
      | some content =>
          simp only [pure_ok, decide_eq_true_eq] at h
          exact ⟨fun h => absurd h hd, fun _ => ⟨by tauto, content, readChunks_ok.1 ho, h⟩⟩
  · intro h
    cases hd : r.deleted with
    | true => simp [h.erased hd]
    | false =>
        obtain ⟨hlen, content, hc, hsize, hhash⟩ := h.content hd
        rw [if_neg (by simp), if_neg (by simpa using hlen), bind_ok]
        exact ⟨_, readChunks_ok.2 hc, by simp [hsize, hhash]⟩

/-- **What `validate` accepts.** The loop over the versions ends with the key of the last one, and
the payload is only looked at when it is asked for. -/
theorem validate_iff {key : Bytes} {v : Nat} {payload : Bool} :
    validate P m db key v payload = .ok true ↔ v ≠ 0 ∧ v ≤ int64Max ∧
      (∃ k, Validated P m db key v k) ∧
      (payload = true → ∃ r parts, get db key v = .ok (some r) ∧ chunks db key v = .ok parts ∧
        Intact P db r parts) := by
  unfold validate
  by_cases hrange : v = 0 ∨ int64Max < v
  · rw [if_pos hrange]
    simp only [pure_ok, Bool.false_eq_true, false_iff]
    rintro ⟨h0, hmax, -⟩
    omega
  rw [if_neg hrange]
  simp only [bind_ok]
  push Not at hrange
  constructor
  · rintro ⟨o, hchain, h⟩
    cases o with
    | none => simp at h
    | some k =>
        simp only [bind_ok] at h
        obtain ⟨o, hget, h⟩ := h
        cases o with
        | none => simp at h
        | some r =>
            refine ⟨hrange.1, hrange.2, ⟨k, validateChain_ok.1 hchain⟩, fun hp => ?_⟩
            subst hp
            obtain ⟨parts, hparts, hintact⟩ := validatePayload_ok.1 h
            exact ⟨r, parts, hget, hparts, hintact⟩
  · rintro ⟨h0, -, ⟨k, hk⟩, hp⟩
    obtain ⟨e, -, -, hr, -, -⟩ := hk.last h0
    refine ⟨some k, validateChain_ok.2 hk, ?_⟩
    simp only [bind_ok]
    refine ⟨some e.record, hr.record, ?_⟩
    cases payload with
    | false => simp
    | true =>
        obtain ⟨r, parts, hget, hparts, hintact⟩ := hp rfl
        obtain rfl : e.record = r := by simpa [hr.record] using hget
        exact validatePayload_ok.2 ⟨parts, hparts, hintact⟩

end Impl

end FileProvider
