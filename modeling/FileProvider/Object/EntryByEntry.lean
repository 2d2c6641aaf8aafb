import FileProvider.Object.Accounting
import FileProvider.Object.Heads

/-!
# Packaging is done entry by entry

The loop of `package` takes entries in batches and tries again what a batch could not take. What it
does to the tables is a sequence of single steps, one for each entry in the order of the inventory:
`Handles` says what became of one entry, `Packs` that all of them were handled. The members of a
batch are handled one after the other, whether the batch is imported or rolled back.

They are stated without the batches, the buffers and the retries of the loop, which is what
`Object.Repackaging` starts from.
-/

namespace FileProvider

open Bytes Fallible Impl

variable {P : Platform} {m : Impl} {db db' : ObjectTables} {container : Bytes}

/-! ## Steps -/

/-- What a skipped entry has in common with the record under its path. -/
def PackagingEntry.Skips (entry : PackagingEntry) (supplied : Option ObjectMetadata)
    (x : ObjectRecord) : Prop :=
  x.sourceStamp = entry.identity.stamp ∧ ∀ a ∈ supplied, a = x.authorship

/-- What became of one entry. -/
inductive Handles (P : Platform) (m : Impl) (entry : PackagingEntry) (σ : PackagingState) :
    PackagingState → Prop where
  | failed (message : String) : Handles P m entry σ (σ.fail [entry] message)
  | skipped {round : Nat} {supplied : Option ObjectMetadata} {x : ObjectRecord} :
      ObjectStore.lookupPath σ.db entry.logicalPath = .ok (some x) →
      entry.authorship round = .ok supplied → entry.Skips supplied x →
      Handles P m entry σ (σ.publish σ.db .skipped [(entry, x)])
  | imported {db : ObjectTables} {round : Nat} {supplied : Option ObjectMetadata}
      {source : ImportSource} {s : ObjectSession} {options : ObjectWriteOptions}
      {random : Fin 16 → UInt8} {now : Int} {x : ObjectRecord} :
      entry.authorship round = .ok supplied → entry.Captured round source.content →
      options.sourceStamp = entry.identity.stamp → options.authorship = supplied →
      getSession σ.db s.key true = .ok s →
      Impl.importFile P m σ.db source entry.logicalPath s options [] random now = .ok (x, db) →
      Handles P m entry σ (σ.publish db .imported [(entry, x)])
  | revised {db : ObjectTables} {round : Nat} {supplied : Option ObjectMetadata}
      {copy : SourceFile} {session : Bytes} {token : StopToken} {draws : Draws}
      {old x : ObjectRecord} :
      ObjectStore.lookupPath σ.db entry.logicalPath = .ok (some old) →
      entry.authorship round = .ok supplied → ¬ entry.Skips supplied old →
      entry.capture round = .ok (entry.identity, copy) →
      ObjectStore.reviseFile P m σ.db old.key copy old.version session
        ⟨supplied, entry.identity.stamp, token⟩ draws = .ok (x, db) →
      Handles P m entry σ (σ.publish db .revised [(entry, x)])

/-- Entries that were handled one after the other. -/
inductive Packs (P : Platform) (m : Impl) :
    List PackagingEntry → PackagingState → PackagingState → Prop where
  | nil (σ : PackagingState) : Packs P m [] σ σ
  | cons {entry : PackagingEntry} {entries : List PackagingEntry} {σ τ υ : PackagingState} :
      Handles P m entry σ τ → Packs P m entries τ υ → Packs P m (entry :: entries) σ υ

/-- One entry that is handled is packed. -/
theorem Packs.single {entry : PackagingEntry} {σ τ : PackagingState}
    (h : Handles P m entry σ τ) : Packs P m [entry] σ τ := .cons h (.nil τ)

/-- Two parts of the inventory are packed one after the other. -/
theorem Packs.append {entries entries' : List PackagingEntry} {σ τ υ : PackagingState}
    (h : Packs P m entries σ τ) (h' : Packs P m entries' τ υ) :
    Packs P m (entries ++ entries') σ υ := by
  induction h with
  | nil => exact h'
  | cons hentry _ ih => exact .cons hentry (ih h')

namespace PackagingState

/-- Two publications of the same kind are one. -/
theorem publish_append (σ : PackagingState) (db db' : ObjectTables) (action : PackagingAction)
    (done done' : List (PackagingEntry × ObjectRecord)) :
    (σ.publish db action done).publish db' action done' = σ.publish db' action (done ++ done') := by
  cases action <;>
    simp only [publish, ObjectPackagingReport.count, List.map_append, List.append_assoc,
      List.length_append, Nat.add_assoc]

/-- Publishing nothing leaves the state. -/
theorem publish_nil (σ : PackagingState) (action : PackagingAction) :
    σ.publish σ.db action [] = σ := by
  cases action <;> simp only [publish, ObjectPackagingReport.count, List.map_nil, List.append_nil,
    List.length_nil, Nat.add_zero]

/-- Two failures with one message are one. -/
theorem fail_append (σ : PackagingState) (entries entries' : List PackagingEntry)
    (message : String) :
    (σ.fail entries message).fail entries' message = σ.fail (entries ++ entries') message := by
  simp only [fail, List.map_append, List.append_assoc]

/-- Failing nothing leaves the state. -/
theorem fail_nil (σ : PackagingState) (message : String) : σ.fail [] message = σ := by
  simp only [fail, List.map_nil, List.append_nil]

end PackagingState

/-- Entries that fail together fail one after the other. -/
theorem Packs.fail (P : Platform) (m : Impl) (entries : List PackagingEntry) (σ : PackagingState)
    (message : String) : Packs P m entries σ (σ.fail entries message) := by
  induction entries generalizing σ with
  | nil =>
      rw [σ.fail_nil]
      exact .nil σ
  | cons entry entries ih =>
      have hrest := ih (σ.fail [entry] message)
      rw [σ.fail_append, List.singleton_append] at hrest
      exact .cons (.failed message) hrest

namespace PackagingRun

variable {run : PackagingRun} {work : ObjectSession} {round : Nat}

/-! ## Batches -/

/-- The members of a batch are imported one after the other. The induction is on the members: each
is an import of its entry on the tables that those before it have left. -/
theorem packs_importPrepared {s : ObjectSession} {draws : Draws} {i : Nat}
    {imports : List PackagingImport} {copies : List SourceFile}
    {prepared : List PreparedObjectSource} {records : List ObjectRecord} {σ : PackagingState}
    (h : ObjectStore.importPrepared P m s draws
      ((List.zipWith (run.file round) imports copies).zip prepared) i σ.db = .ok (records, db'))
    (hprepared : ∀ i ∈ imports, Prepared run round i)
    (hcapture : (imports.map (request round)).mapM (·.capture) = .ok copies)
    (hread : (List.zipWith (run.file round) imports copies).mapM
      (fun f => do pure (⟨← f.read, f.unchanged⟩ : PreparedObjectSource)) = .ok prepared)
    (hs : getSession σ.db s.key true = .ok s) :
    Packs P m (imports.map (·.entry)) σ
      (σ.publish db' .imported ((imports.map (·.entry)).zip records)) := by
  induction imports generalizing copies prepared records σ i with
  | nil =>
      obtain rfl := pure_ok.1 hcapture
      obtain ⟨rfl, rfl⟩ := Prod.mk.inj (pure_ok.1 h)
      rw [List.map_nil, List.zip_nil_left, σ.publish_nil]
      exact .nil σ
  | cons member imports ih =>
      obtain ⟨⟨hidentity, supplied, ha, hoptions⟩, hrest⟩ := List.forall_mem_cons.1 hprepared
      rw [List.map_cons, List.mapM_cons] at hcapture
      simp only [bind_ok, pure_ok] at hcapture
      obtain ⟨copy, hcopy, copies, hcopies, rfl⟩ := hcapture
      rw [List.zipWith_cons_cons, List.mapM_cons] at hread
      simp only [bind_ok, pure_ok] at hread
      obtain ⟨input, ⟨bytes, hbytes, rfl⟩, inputs, hinputs, rfl⟩ := hread
      rw [List.zipWith_cons_cons, List.zip_cons_cons] at h
      simp only [ObjectStore.importPrepared, bind_ok, Prod.exists, pure_ok, Prod.mk.injEq] at h
      obtain ⟨-, -, x, mid, hx, rest, last, hlast, rfl, rfl⟩ := h
      obtain ⟨_, _, _, hc, -⟩ := importFile_ok hx hs
      have hpacks := ih (σ := σ.publish mid .imported [(member.entry, x)]) hlast hrest hcopies
        hinputs (hc.getSession hs)
      rw [σ.publish_append, List.singleton_append] at hpacks
      refine .cons ?_ hpacks
      simp only [request, bind_ok, Prod.exists, failIf_ok, pure_ok, not_not] at hcopy
      obtain ⟨_, copy, hcapture, -, rfl, rfl⟩ := hcopy
      rw [hidentity] at hcapture
      have hcaptured : member.entry.Captured round
          (ImportSource.prepared ⟨bytes, (run.file round member copy).unchanged⟩).content :=
        ⟨copy, hcapture, readSource_take hbytes⟩
      have hstamp : member.options.sourceStamp = member.entry.identity.stamp := by rw [hoptions]
      have hauthorship : member.options.authorship = supplied := by rw [hoptions]
      refine .imported ha hcaptured ?_ ?_ hs hx
      · exact hstamp
      · exact hauthorship

section
variable {entry : PackagingEntry} {entries rest : List PackagingEntry} {σ σ' : PackagingState}

/-- What a round takes of the entries is handled entry by entry. -/
def Rounds (P : Platform) (m : Impl) (entry : PackagingEntry) (entries : List PackagingEntry)
    (σ : PackagingState) (rest : List PackagingEntry) (σ' : PackagingState) : Prop :=
  ∃ taken, entries = taken ++ rest ∧ Packs P m (entry :: taken) σ σ'

/-- The members of a batch are imported one after the other, or they fail one after the other. The
two outcomes are those of the source, where one error is reported for every member. -/
theorem packageBatch_rounds
    (h : packageBatch P m run work round entry entries σ = .ok (rest, σ')) :
    Rounds P m entry entries σ rest σ' := by
  obtain ⟨taken, imports, htaken, hmembers, hall, h⟩ := packageBatch_ok h
  refine ⟨taken, htaken, ?_⟩
  rw [← hmembers]
  rcases h with ⟨records, db', himport, rfl⟩ | ⟨message, rfl⟩
  · simp only [importBatch, ObjectSnapshotBatch.capture, ObjectStore.importFiles,
      ObjectStore.readObjectBatch, bind_ok, Prod.exists, pure_ok, Prod.mk.injEq] at himport
    obtain ⟨copies, ⟨-, -, -, -, hcapture⟩, -, -, -, -, -, -, s, hs, -, -, prepared,
      ⟨-, -, -, -, hread⟩, _, _, hrecords, -, -, rfl, rfl⟩ := himport
    exact packs_importPrepared hrecords hall hcapture hread (getSession_self hs)
  · exact .fail P m _ σ _

/-- An entry by itself is handled. It is written as a new object or as a revision of the one that
was found, as the hypothesis says which of them there is. -/
theorem packageSingle_handles {existing : Option (ObjectRecord × Option ObjectMetadata)}
    (h : packageSingle P m run round entry entry.identity existing σ = .ok σ')
    (hexisting : ∀ old supplied, existing = some (old, supplied) →
      ObjectStore.lookupPath σ.db entry.logicalPath = .ok (some old) ∧
      entry.authorship round = .ok supplied ∧ ¬ entry.Skips supplied old) :
    Handles P m entry σ σ' := by
  simp only [packageSingle, bind_ok, Prod.exists, failIf_ok, not_not] at h
  obtain ⟨_, copy, hcapture, -, rfl, h⟩ := h
  cases existing with
  | none =>
      simp only [bind_ok, Prod.exists, pure_ok] at h
      obtain ⟨supplied, ha, -, -, x, db', hstore, rfl⟩ := h
      simp only [ObjectStore.importFile, bind_ok] at hstore
      obtain ⟨-, -, s, hs, himport⟩ := hstore
      have hingest := himport
      simp only [Impl.importFile, bind_ok, Prod.exists] at hingest
      obtain ⟨-, -, -, -, -, -, -, -, _, _, -, _, _, _, hing, -⟩ := hingest
      have hcaptured : entry.Captured round (ImportSource.file copy).content :=
        entry.captured_whole hcapture (ingest_whole hing)
      exact .imported ha hcaptured rfl rfl (getSession_self hs) himport
  | some existing =>
      obtain ⟨old, supplied⟩ := existing
      simp only [bind_ok, Prod.exists, pure_ok] at h
      obtain ⟨-, -, x, db', hrevise, rfl⟩ := h
      obtain ⟨hfound, ha, hdiff⟩ := hexisting old supplied rfl
      exact .revised hfound ha hdiff hcapture hrevise

/-- A round that succeeds handles what it takes. -/
theorem packageEntry_rounds
    (h : packageEntry P m run work round entry entries σ = .ok (rest, σ')) :
    Rounds P m entry entries σ rest σ' := by
  simp only [packageEntry, bind_ok, failIf_ok, not_not] at h
  obtain ⟨-, -, current, -, -, rfl, existing, hlookup, h⟩ := h
  cases existing with
  | some existing =>
      obtain ⟨supplied, ha, h⟩ := bind_ok.1 h
      split at h
      · next hsame =>
          simp only [bind_ok, failIf_ok, pure_ok, Prod.mk.injEq] at h
          obtain ⟨-, -, -, -, rfl, rfl⟩ := h
          exact ⟨[], rfl, .single (.skipped hlookup ha hsame)⟩
      · next hdiff =>
          simp only [bind_ok, pure_ok, Prod.mk.injEq] at h
          obtain ⟨-, -, _, hsingle, rfl, rfl⟩ := h
          refine ⟨[], rfl, .single (packageSingle_handles hsingle ?_)⟩
          rintro _ _ heq
          cases heq
          exact ⟨hlookup, ha, hdiff⟩
  | none =>
      obtain ⟨-, -, h⟩ := bind_ok.1 h
      split at h
      · exact packageBatch_rounds h
      · simp only [bind_ok, pure_ok, Prod.mk.injEq] at h
        obtain ⟨_, hsingle, rfl, rfl⟩ := h
        refine ⟨[], rfl, .single (packageSingle_handles hsingle ?_)⟩
        rintro _ _ heq
        cases heq

end

/-- **The loop handles the inventory entry by entry**, if nobody cancels it. Each round takes at
least the entry it began with, so that as many rounds as entries are enough. -/
theorem packageEntries_packs (hstops : ∀ round poll, run.stops round poll = false)
    {rounds : Nat} {entries : List PackagingEntry} {σ : PackagingState}
    (hrounds : entries.length ≤ rounds) :
    Packs P m entries σ (packageEntries P m run work rounds round entries σ) := by
  induction rounds generalizing round entries σ with
  | zero =>
      obtain rfl := List.eq_nil_of_length_eq_zero (Nat.le_zero.1 hrounds)
      exact .nil σ
  | succ rounds ih =>
      cases entries with
      | nil => exact .nil σ
      | cons entry entries =>
          rw [packageEntries, hstops, if_neg Bool.false_ne_true]
          cases hentry : packageEntry P m run work round entry entries σ with
          | ok result =>
              obtain ⟨rest, σ'⟩ := result
              obtain ⟨taken, rfl, htaken⟩ := packageEntry_rounds hentry
              have hleft : rest.length ≤ rounds := by
                rw [List.length_cons, List.length_append] at hrounds
                omega
              exact htaken.append (ih hleft)
          | error message =>
              dsimp only
              rw [hstops, if_neg Bool.false_ne_true]
              exact .cons (.failed message) (ih (Nat.le_of_succ_le_succ hrounds))

end PackagingRun

end FileProvider
