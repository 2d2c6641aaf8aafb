import FileProvider.Object.CompactIndex
import FileProvider.Object.Older

/-!
# What a schema changes for a reader

A reader decides by the schema it was opened at whether the context of a session and the RAW
document of a revision take part in a validation key. `SameAnswers` says that a package read at
its old schema and the package a migration makes of it answer every question alike.

The comparison is of two readers, and goes through all the questions a reader can ask, at schema 3
and from there on. Below schema 3 the validation keys differ, which is the subject of
`Object.Chains`.
-/

namespace FileProvider

open Bytes Fallible Impl Relation

variable {P : Platform} {m m' : Impl} {db db' : ObjectTables} {container : Bytes}

/-! ## Readers that read the same rows -/

/-- Two readers that find the same additions to a version find the same about it. -/
theorem validateVersion_congr {key : Bytes} {v : Nat} {previous : Bytes}
    (hcontainer : m'.container = m.container)
    (hget : Impl.get db' key v = Impl.get db key v)
    (hsession : ∀ k, getSession db' k false = getSession db k false)
    (hadditions : ∀ x s, Impl.get db key v = .ok (some x) →
      getSession db x.sessionKey false = .ok s →
      m'.context db' s.key = m.context db s.key ∧
        m'.rawDocument db' key v = m.rawDocument db key v) :
    validateVersion P m' db' key v previous = validateVersion P m db key v previous := by
  unfold validateVersion
  rw [hget]
  cases hx : Impl.get db key v with
  | error e => rfl
  | ok o =>
      cases o with
      | none => rfl
      | some x =>
          show (getSession db' x.sessionKey false >>= fun s => _)
            = getSession db x.sessionKey false >>= fun s => _
          rw [hsession]
          cases hs : getSession db x.sessionKey false with
          | error e => rfl
          | ok s =>
              obtain ⟨hcontext, hraw⟩ := hadditions x s hx hs
              simp only [bind, Except.bind, hcontext, hraw, hcontainer]

/-- Two connections and tables that read the versions up to one in the same way validate it the
same. -/
theorem validate_congr {key : Bytes} {v : Nat} {payload : Bool}
    (hversion : ∀ u previous, 1 ≤ u → u ≤ v →
      validateVersion P m' db' key u previous = validateVersion P m db key u previous)
    (hget : Impl.get db' key v = Impl.get db key v)
    (hpayload : ∀ r, validatePayload P db' r key v = validatePayload P db r key v) :
    validate P m' db' key v payload = validate P m db key v payload := by
  have hchain : ∀ u ≤ v, validateChain P m' db' key u = validateChain P m db key u := by
    intro u
    induction u with
    | zero => exact fun _ => rfl
    | succ u ih =>
        intro hle
        rw [validateChain, validateChain, ih (by omega)]
        refine congrArg _ (funext fun o => ?_)
        cases o with
        | none => rfl
        | some previous => exact hversion (u + 1) previous (by omega) hle
  unfold validate
  rw [hchain v le_rfl, hget]
  simp only [hpayload]

/-- The content of a revision is read from the chunks alone. -/
theorem validatePayload_congr {r : ObjectRecord} {key : Bytes} {v : Nat}
    (hchunks : db'.chunks = db.chunks) (hparts : db'.revisionChunks = db.revisionChunks) :
    validatePayload P db' r key v = validatePayload P db r key v := by
  have hrows : chunks db' key v = chunks db key v := by
    unfold chunks chunkRows
    rw [hparts]
  have hread : ∀ parts, readChunks P db' parts = readChunks P db parts := by
    intro parts
    induction parts with
    | nil => rfl
    | cons part parts ih =>
        have hdata : chunkData P db' part = chunkData P db part := by
          unfold chunkData
          rw [hchunks]
        rw [readChunks, readChunks, hdata, ih]
  unfold validatePayload
  simp only [hrows, hread]

/-! ## The contexts of a migrated package -/

/-- A migration from before schema 4 gives every session an empty context. -/
theorem Migrates.context (h : Migrates db db') (hi : OlderInvariant container db)
    (hv : db.userVersion < 4) {s : SessionRow} (hs : s ∈ db.sessions) :
    ∃ w, db'.workSessions.find s.sessionKey = some w ∧ w.context = [] := by
  have hrows := h.contexts hv (hi.early hv).1
  have hkeys := contextRows_keys db.workSessionsSequence
    (Keyset.orderBy (·.started) db.sessions.rows)
  rw [← hrows] at hkeys
  have hlisted : s ∈ Keyset.orderBy (·.started) db.sessions.rows := Keyset.mem_orderBy.2 hs
  have hmem := List.mem_map_of_mem (f := fun s : SessionRow => (s.sessionKey, ([] : Bytes))) hlisted
  rw [← hkeys] at hmem
  obtain ⟨w, hw, heq⟩ := List.mem_map.1 hmem
  obtain ⟨hkey, hcontext⟩ := Prod.mk.inj heq
  refine ⟨w, ?_, hcontext⟩
  rw [← hkey]
  exact Table.mem_iff_find.1 hw

/-- What a reader of the old schema finds about a version, a reader of the migrated package
finds too. -/
theorem Migrates.additions (h : Migrates db db') (hi : OlderInvariant container db)
    (hm : m.schema = db.userVersion) (hm' : m'.schema = 5) {key : Bytes} {v : Nat}
    {x : ObjectRecord} {s : ObjectSession} (hx : Impl.get db key v = .ok (some x))
    (hs : getSession db x.sessionKey false = .ok s) :
    m'.context db' s.key = m.context db s.key ∧
      m'.rawDocument db' key v = m.rawDocument db key v := by
  have hraw : db'.rawRevisions = db.rawRevisions := by rw [h.kept]
  have hnew : ¬ m'.schema < 4 := by omega
  rcases Nat.lt_or_ge db.userVersion 4 with hv | hv
  · have hold : m.schema < 4 := by omega
    obtain ⟨hbound, row, hrow, -, rfl⟩ := getSession_ok.1 hs
    obtain ⟨w, hw, hcontext⟩ := h.context hi hv (Table.mem_of_find hrow)
    have hself : row.sessionKey = x.sessionKey := Table.key_of_find hrow
    have hkey : (sessionOf row).key = x.sessionKey := hself
    constructor
    · have hempty : m.context db (sessionOf row).key = .ok [] :=
        context_ok.2 (by rw [if_pos hold])
      rw [hempty, context_ok, if_neg hnew, hkey]
      rw [hself] at hw
      exact ⟨hbound, w, hw, hcontext⟩
    · have hempty : m.rawDocument db key v = .ok [] := rawDocument_ok.2 (by rw [if_pos hold])
      rw [hempty, rawDocument_ok, if_neg hnew, hraw, find_of_rows_nil (hi.early hv).2]
      exact ⟨(get_ok.1 hx).1, rfl⟩
  · have hold : ¬ m.schema < 4 := by omega
    unfold Impl.context Impl.rawDocument
    rw [if_neg hnew, if_neg hold, if_neg hnew, if_neg hold, hraw, (h.filled hv).1]
    exact ⟨rfl, rfl⟩

/-! ## Schema 3 and later -/

/-- Two packages of which two readers learn the same. -/
structure SameAnswers (P : Platform) (m m' : Impl) (db db' : ObjectTables) : Prop where
  lookup : ∀ key, ObjectStore.lookup db' key = ObjectStore.lookup db key
  lookupPath : ∀ path, ObjectStore.lookupPath db' path = ObjectStore.lookupPath db path
  scan : ∀ after limit deleted,
    ObjectStore.scan db' after limit deleted = ObjectStore.scan db after limit deleted
  index : ∀ after limit deleted,
    ObjectStore.index db' after limit deleted = ObjectStore.index db after limit deleted
  history : ∀ key after limit,
    ObjectStore.history db' key after limit = ObjectStore.history db key after limit
  diff : ∀ key version, ObjectStore.diff db' key version = ObjectStore.diff db key version
  validate : ∀ key version payload,
    Impl.validate P m' db' key version payload = Impl.validate P m db key version payload
  count : ∀ deleted, ObjectStore.count db' deleted = ObjectStore.count db deleted

/-- A migration changes no answer. The rows that the answers are read from are kept, and the new
tables are only read where the session or the version has a row there. -/
theorem Migrates.sameAnswers (h : Migrates db db') (hi : OlderInvariant container db)
    (hv : 3 ≤ db.userVersion) (hm : m.schema = db.userVersion) (hm' : m'.schema = 5)
    (hcontainer : m'.container = m.container) : SameAnswers P m m' db db' where
  lookup key := by rw [h.kept]; rfl
  lookupPath path := by rw [h.kept]; rfl
  scan after limit deleted := by rw [h.kept]; rfl
  index after limit deleted := by
    unfold ObjectStore.index
    rw [h.index hv]
  history key after limit := by rw [h.kept]; rfl
  diff key version := by rw [h.kept]; rfl
  validate key version payload := by
    have hget : ∀ u, Impl.get db' key u = Impl.get db key u := fun u => by rw [h.kept]; rfl
    have hsession : ∀ k, getSession db' k false = getSession db k false :=
      fun k => by rw [h.kept]; rfl
    have hpayload : ∀ r, validatePayload P db' r key version = validatePayload P db r key version :=
      fun r => validatePayload_congr (by rw [h.kept]) (by rw [h.kept])
    refine validate_congr (fun u previous _ _ => ?_) (hget version) hpayload
    exact validateVersion_congr hcontainer (hget u) hsession fun x s hx hs =>
      h.additions hi hm hm' hx hs
  count deleted := by rw [h.kept]; rfl

end FileProvider
