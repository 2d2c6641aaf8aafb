import FileProvider.Object.Audit

/-!
# Clean audits

An audit without an issue went over every entry and found the object it is mapped to: `Mapped`. The
steps of the audit keep `Advances`, which says so of the entries they went over, if the report is
still clean after them; the count at the end then leaves no object and no row of the index without
an entry. The other way around, where every entry is mapped and nothing disturbs the audit, every
step counts its entries and reports nothing.

Both directions go through the loops with one predicate each, and the entries of a batch are
compared with the entries by themselves, since a batch that fails is checked again one by one. That
two entries are not mapped to one object follows from their paths, which differ in an inventory.
-/

namespace FileProvider

open Bytes Fallible Impl

variable {P : Platform} {m : Impl} {db : ObjectTables} {e : AuditEntry} {c : AuditCandidate}
  {o : ObjectRow} {x : ObjectRecord}

/-! ## Reading rows of the index -/

/-- An entry is the first of the index from its own key on. The index is ordered by the key and no
two rows have one, so that the page of one row past the key before it is that row. -/
theorem index_ok {i : ObjectIndexEntry} :
    ObjectStore.index db (i.indexKey - 1) 1 false = .ok [i] ↔
      0 < i.indexKey ∧ i.deleted = false ∧
        ∃ row ∈ db.currentIndex, ObjectStore.indexEntry row = i := by
  simp only [ObjectStore.index, bind_ok, failIf_ok, pure_ok, Bool.false_eq_true, false_or]
  constructor
  · rintro ⟨-, hafter, hrows⟩
    have hmem : i ∈ [i] := List.mem_singleton_self i
    rw [← hrows, List.mem_map] at hmem
    obtain ⟨row, hrow, rfl⟩ := hmem
    have hfilter := Keyset.mem_orderBy.1 (List.mem_of_mem_take hrow)
    obtain ⟨hrow, hlive⟩ := List.mem_filter.1 hfilter
    refine ⟨?_, (of_decide_eq_true hlive).2, row, hrow, rfl⟩
    omega
  · rintro ⟨hpositive, hlive, row, hrow, rfl⟩
    refine ⟨(), by omega, ?_⟩
    have hkey : (ObjectStore.indexEntry row).indexKey = row.indexKey := rfl
    rw [hkey]
    have hmem : row ∈ Keyset.orderBy (·.indexKey) (db.currentIndex.rows.filter
        fun i => row.indexKey - 1 < i.indexKey ∧ i.deleted = false) := by
      refine Keyset.mem_orderBy.2 (List.mem_filter.2 ⟨hrow, decide_eq_true ⟨?_, hlive⟩⟩)
      omega
    have hleast : ∀ i ∈ Keyset.orderBy (·.indexKey) (db.currentIndex.rows.filter
        fun i => row.indexKey - 1 < i.indexKey ∧ i.deleted = false), row.indexKey ≤ i.indexKey := by
      intro i hi
      have hpast := (of_decide_eq_true (List.mem_filter.1 (Keyset.mem_orderBy.1 hi)).2).1
      omega
    have hascending : Keyset.Ascending IndexRow.indexKey (Keyset.orderBy (·.indexKey)
        (db.currentIndex.rows.filter
          fun i => row.indexKey - 1 < i.indexKey ∧ i.deleted = false)) :=
      Keyset.ascending_orderBy (db.currentIndex.nodup.sublist (List.filter_sublist.map _))
    generalize Keyset.orderBy (·.indexKey) (db.currentIndex.rows.filter
      fun i => row.indexKey - 1 < i.indexKey ∧ i.deleted = false) = rows at hmem hleast hascending
    cases rows with
    | nil => cases hmem
    | cons first rest =>
        rcases List.mem_cons.1 hmem with rfl | hrest
        · rfl
        · have hlt := (List.pairwise_cons.1 hascending).1 row hrest
          exact absurd hlt (not_lt_of_ge (hleast first List.mem_cons_self))

/-- No issue was found, and the audit was not cancelled. -/
structure ObjectAuditReport.Clean (r : ObjectAuditReport) : Prop where
  issues : r.issues = []
  cancelled : r.cancelled = false

/-- Nothing stops the audit at an entry, and its source can be read. -/
structure AuditEntry.Undisturbed (e : AuditEntry) : Prop where
  stops : ∀ p, e.stops p = false
  access : ∀ a, e.source.access a = .ok ()

namespace ObjectPackager

/-! ## Mapped entries -/

/-- An entry and the live object it is mapped to, with the object's head record: the source has the
record's stamp, size and content, the history is valid, and the row of the index is that of the
record. -/
structure Mapped (P : Platform) (m : Impl) (db : ObjectTables) (e : AuditEntry) (o : ObjectRow)
    (x : ObjectRecord) : Prop where
  object : o ∈ db.objects
  live : o.deleted = false
  path : o.path = e.logicalPath
  found : ObjectStore.lookupPath db e.logicalPath = .ok (some x)
  head : ObjectStore.headRecord db o = some x
  recordPath : x.path = e.logicalPath
  recordLive : x.deleted = false
  stamp : x.sourceStamp = e.identity.stamp
  size : x.size = e.identity.size
  source : e.source.identity = e.identity
  content : P.hash e.source.content = x.sha256
  chain : Impl.validate P m db x.key x.version true = .ok true
  index : 0 < x.indexKey ∧ ∃ row ∈ db.currentIndex, ObjectStore.indexEntry row = x.compact

/-- An entry becomes a candidate exactly when its path is that of a live head record with an index
key, of the same stamp and size. -/
theorem prepare_ok : prepare db e = .ok c ↔
    ∃ x, ObjectStore.lookupPath db e.logicalPath = .ok (some x) ∧
      x.sourceStamp = e.identity.stamp ∧ x.size = e.identity.size ∧ x.path = e.logicalPath ∧
      0 < x.indexKey ∧ c = ⟨e, x.compact⟩ := by
  simp only [prepare, bind_ok, orFail_ok, failIf_ok, pure_ok, not_or, not_not, not_le]
  constructor
  · rintro ⟨found, hfound, x, rfl, -, ⟨hstamp, hsize, hpath, hkey⟩, rfl⟩
    exact ⟨x, hfound, hstamp, hsize, hpath, hkey, rfl⟩
  · rintro ⟨x, hfound, hstamp, hsize, hpath, hkey, rfl⟩
    exact ⟨_, hfound, x, rfl, (), ⟨hstamp, hsize, hpath, hkey⟩, rfl⟩

/-- A candidate is one for the entry it was prepared from. -/
theorem prepare_entry (h : prepare db e = .ok c) : c.entry = e := by
  obtain ⟨x, -, -, -, -, -, rfl⟩ := prepare_ok.1 h
  rfl

/-- A candidate validates exactly when its hash, its stored content, the source and the head all
agree with the record it was prepared from. -/
theorem validate_ok {hash : Bytes} : ObjectPackager.validate P m db ⟨e, x.compact⟩ hash = .ok () ↔
    hash = x.sha256 ∧ Impl.validate P m db x.key x.version true = .ok true ∧
    e.source.access .compare = .ok () ∧ e.source.identity = e.identity ∧
    (∃ head, ObjectStore.lookup db x.key = .ok (some head) ∧ head.version = x.version ∧
      head.validationKey = x.validationKey ∧ head.path = x.path ∧ head.deleted = false) ∧
    ObjectStore.index db (x.indexKey - 1) 1 false = .ok [x.compact] := by
  simp only [ObjectPackager.validate, AuditSource.inspect, bind_ok, orFail_ok, failIf_ok, pure_ok,
    not_or, not_not, Bool.not_eq_true, Bool.not_eq_false]
  constructor
  · rintro ⟨-, hhash, valid, hvalid, -, rfl, identity, ⟨_, haccess, rfl⟩, -, hsource, found,
      hfound, head, rfl, -, ⟨hversion, hkey, hpath, hlive⟩, page, hpage, rfl⟩
    exact ⟨hhash, hvalid, haccess, hsource, ⟨head, hfound, hversion, hkey, hpath, hlive⟩, hpage⟩
  · rintro ⟨hhash, hvalid, haccess, hsource, ⟨head, hfound, hversion, hkey, hpath, hlive⟩, hpage⟩
    exact ⟨(), hhash, _, hvalid, (), rfl, _, ⟨(), haccess, rfl⟩, (), hsource, _, hfound, head, rfl,
      (), ⟨hversion, hkey, hpath, hlive⟩, _, hpage, rfl⟩

/-- An entry that was checked is mapped. -/
theorem mapped_of_validate (hprepare : prepare db e = .ok c)
    (h : ObjectPackager.validate P m db c (P.hash e.source.content) = .ok ()) :
    ∃ o x, Mapped P m db e o x := by
  obtain ⟨x, hfound, hstamp, hsize, hpath, hkey, rfl⟩ := prepare_ok.1 hprepare
  obtain ⟨hcontent, hchain, -, hsource, ⟨head, hhead, -, -, -, hlive⟩, hindex⟩ := validate_ok.1 h
  obtain ⟨o, hobject, hopath, holive, hrecord⟩ := lookupPath_ok hfound
  -- The record under the key of the object is the one under its path.
  have hsame : some head = some x := by
    simp only [ObjectStore.lookup, Impl.get, bind_ok, pure_ok] at hhead
    obtain ⟨-, -, hjoined⟩ := hhead
    rw [← hjoined, (headRecord_ok hrecord).1, joined_head hobject, hrecord]
  obtain rfl := Option.some.inj hsame
  exact ⟨o, head, hobject, holive, hopath, hfound, hrecord, hpath, hlive, hstamp, hsize, hsource,
    hcontent, hchain, hkey, (index_ok.1 hindex).2.2⟩

/-- A key whose history is valid can be looked up. -/
theorem bindTexts_of_validate {key : Bytes} {version : Nat} {payload : Bool}
    (h : Impl.validate P m db key version payload = .ok true) : bindTexts [key] = .ok () := by
  unfold Impl.validate at h
  split at h
  · cases h
  · obtain ⟨chain, -, h⟩ := bind_ok.1 h
    cases chain with
    | none => cases h
    | some _ =>
        obtain ⟨found, hfound, -⟩ := bind_ok.1 h
        obtain ⟨_, htext, -⟩ := bind_ok.1 hfound
        exact htext

namespace Mapped

variable (h : Mapped P m db e o x)
include h

/-- The record that an entry is mapped to is the one it is prepared with. -/
theorem prepare_eq : prepare db e = .ok ⟨e, x.compact⟩ :=
  prepare_ok.2 ⟨x, h.found, h.stamp, h.size, h.recordPath, h.index.1, rfl⟩

/-- The check of a mapped entry succeeds, if its source can be inspected. -/
theorem validate_eq (haccess : e.source.access .compare = .ok ()) :
    ObjectPackager.validate P m db ⟨e, x.compact⟩ (P.hash e.source.content) = .ok () := by
  refine validate_ok.2 ⟨h.content, h.chain, haccess, h.source, ⟨x, ?_, rfl, rfl, rfl,
    h.recordLive⟩, index_ok.2 ⟨h.index.1, h.recordLive, h.index.2⟩⟩
  simp only [ObjectStore.lookup, Impl.get, bind_ok, pure_ok]
  refine ⟨(), bindTexts_of_validate h.chain, ?_⟩
  rw [(headRecord_ok h.head).1, joined_head h.object, h.head]

end Mapped

/-! ## Clean reports -/

section
variable {r r' r'' : ObjectAuditReport} {entries entries' : List AuditEntry}

/-- A report with an error is not clean. -/
theorem not_clean_report (r : ObjectAuditReport) (path : Bytes) (message : String) :
    ¬ (r.report path message).Clean :=
  fun h => List.append_ne_nil_of_right_ne_nil r.issues (List.cons_ne_nil _ _) h.issues

/-- A cancelled report is not clean. -/
theorem not_clean_cancel (r : ObjectAuditReport) : ¬ r.cancel.Clean :=
  fun h => Bool.noConfusion h.cancelled

/-- What a clean report says of the entries a step of the audit went over: the report before was
clean, and every one of them was verified, since it is mapped. -/
structure Advances (P : Platform) (m : Impl) (db : ObjectTables) (entries : List AuditEntry)
    (r r' : ObjectAuditReport) : Prop where
  clean : r'.Clean → r.Clean
  verified : r'.Clean → r'.verified = r.verified + entries.length
  mapped : r'.Clean → ∀ e ∈ entries, ∃ o x, Mapped P m db e o x

/-- No entry advances a report by nothing. -/
theorem Advances.refl (P : Platform) (m : Impl) (db : ObjectTables) (r : ObjectAuditReport) :
    Advances P m db [] r r :=
  ⟨fun h => h, fun _ => rfl, fun _ _ he => absurd he List.not_mem_nil⟩

/-- A report that is no longer clean says nothing of the entries. -/
theorem Advances.of_not_clean (h : ¬ r'.Clean) : Advances P m db entries r r' :=
  ⟨fun hclean => absurd hclean h, fun hclean => absurd hclean h, fun hclean => absurd hclean h⟩

/-- Two parts of the inventory advance a report one after the other. -/
theorem Advances.trans (h : Advances P m db entries r r')
    (h' : Advances P m db entries' r' r'') : Advances P m db (entries ++ entries') r r'' := by
  refine ⟨fun hclean => h.clean (h'.clean hclean), fun hclean => ?_, fun hclean e he => ?_⟩
  · rw [h'.verified hclean, h.verified (h'.clean hclean), List.length_append, Nat.add_assoc]
  · rcases List.mem_append.1 he with he | he
    · exact h.mapped (h'.clean hclean) e he
    · exact h'.mapped hclean e he

/-- An entry that is mapped advances a report by one file. -/
theorem Advances.publish (h : ∃ o x, Mapped P m db e o x) :
    Advances P m db [e] r r.publish := by
  refine ⟨fun hclean => ⟨hclean.issues, hclean.cancelled⟩, fun _ => rfl, fun _ e' he' => ?_⟩
  rw [List.mem_singleton.1 he']
  exact h

/-- A part of the audit that goes on advances; one that returns was cancelled. -/
def Goes (P : Platform) (m : Impl) (db : ObjectTables) (entries : List AuditEntry)
    (r : ObjectAuditReport) : Auditing ObjectAuditReport → Prop
  | .ok r' => Advances P m db entries r r'
  | .error r' => ¬ r'.Clean

/-- A stop cancels the report, after which nothing is claimed of the entries. -/
theorem Goes.unlessStopped {stop : Bool} {f : Auditing ObjectAuditReport}
    (h : Goes P m db entries r f) :
    Goes P m db entries r (unlessStopped stop r >>= fun _ => f) := by
  cases stop with
  | true => exact not_clean_cancel r
  | false => exact h

/-- Two loops over two parts of the inventory, one after the other. -/
theorem Goes.bind {f : Auditing ObjectAuditReport}
    {g : ObjectAuditReport → Auditing ObjectAuditReport} (h : Goes P m db entries r f)
    (hg : ∀ r', Goes P m db entries' r' (g r')) :
    Goes P m db (entries ++ entries') r (f >>= g) := by
  cases f with
  | error r' => exact h
  | ok r' =>
      show Goes P m db (entries ++ entries') r (g r')
      have hrest := hg r'
      cases hresult : g r' with
      | error r'' =>
          rw [hresult] at hrest
          exact hrest
      | ok r'' =>
          rw [hresult] at hrest
          exact Advances.trans h hrest

end

/-! ## Entries by themselves -/

section
variable {r : ObjectAuditReport}

/-- A candidate checks exactly when its source is captured, unchanged and read, and what was read
validates. -/
theorem check_ok : ObjectPackager.check P m db c = .ok () ↔
    c.entry.source.access .capture = .ok () ∧ c.entry.source.identity = c.entry.identity ∧
    c.entry.source.access .stream = .ok () ∧
    ObjectPackager.validate P m db c (P.hash c.entry.source.content) = .ok () := by
  simp only [check, AuditSource.capture, streamingHash, bind_ok, failIf_ok, pure_ok, not_not]
  constructor
  · rintro ⟨_, ⟨_, haccess, _, hsource, rfl⟩, _, ⟨_, hstream, rfl⟩, hvalid⟩
    exact ⟨haccess, hsource, hstream, hvalid⟩
  · rintro ⟨haccess, hsource, hstream, hvalid⟩
    exact ⟨_, ⟨(), haccess, (), hsource, rfl⟩, _, ⟨(), hstream, rfl⟩, hvalid⟩

/-- One candidate checked alone advances the report by its entry or leaves it not clean. -/
theorem advances_single (hc : prepare db c.entry = .ok c) :
    Advances P m db [c.entry] r (single P m db c r) := by
  unfold single
  cases hcheck : check P m db c with
  | ok u => exact .publish (mapped_of_validate hc (check_ok.1 hcheck).2.2.2)
  | error message =>
      dsimp only
      split
      · exact .of_not_clean (not_clean_cancel r)
      · exact .of_not_clean (not_clean_report r _ _)

/-- So does an entry that is too large for a batch. -/
theorem advances_large : Advances P m db [e] r (large P m db e r) := by
  unfold large
  cases hprepare : prepare db e with
  | ok c =>
      obtain rfl := prepare_entry hprepare
      exact advances_single hprepare
  | error message => exact .of_not_clean (not_clean_report r _ _)

/-- A mapped entry that is not disturbed is published. -/
theorem single_eq (he : c.entry.Undisturbed) (hm : Mapped P m db c.entry o x)
    (hc : prepare db c.entry = .ok c) : single P m db c r = r.publish := by
  have heq : c = ⟨c.entry, x.compact⟩ := Except.ok.inj (hc.symm.trans hm.prepare_eq)
  have hvalid := hm.validate_eq (he.access _)
  rw [← heq] at hvalid
  unfold single
  rw [check_ok.2 ⟨he.access _, hm.source, he.access _, hvalid⟩]

end

/-! ## The loops -/

section
variable {r r' : ObjectAuditReport}

/-- The candidates of a failed batch are checked one by one, by induction on them. -/
theorem advances_isolate {cs : List AuditCandidate} (hcs : ∀ c ∈ cs, prepare db c.entry = .ok c) :
    Goes P m db (cs.map (·.entry)) r (isolate P m db cs r) := by
  induction cs generalizing r with
  | nil => exact Advances.refl P m db r
  | cons c cs ih =>
      refine Goes.unlessStopped ?_
      have hsingle : Goes P m db [c.entry] r (.ok (single P m db c r)) :=
        advances_single (hcs c List.mem_cons_self)
      exact hsingle.bind fun r' => ih fun c hc => hcs c (List.mem_cons_of_mem _ hc)

/-- The candidates of a batch that was read are validated one by one. The induction is on the
candidates, each of which has the part that was read of it at its place. -/
theorem advances_verify {cs : List AuditCandidate} {prepared : List PreparedObjectSource}
    (hcs : ∀ c ∈ cs, prepare db c.entry = .ok c)
    (hread : prepared.map (·.bytes) = cs.map (·.entry.source.content)) :
    Goes P m db (cs.map (·.entry)) r (verify P m db (cs.zip prepared) r) := by
  induction cs generalizing r prepared with
  | nil => exact Advances.refl P m db r
  | cons c cs ih =>
      cases prepared with
      | nil => cases hread
      | cons p prepared =>
          obtain ⟨hbytes, hrest⟩ := List.cons.inj hread
          have hc := hcs c List.mem_cons_self
          have hcs' : ∀ c ∈ cs, prepare db c.entry = .ok c :=
            fun c hc => hcs c (List.mem_cons_of_mem _ hc)
          have hhash : P.hash p.bytes = P.hash c.entry.source.content := congrArg P.hash hbytes
          refine Goes.unlessStopped ?_
          rw [hhash]
          cases hvalid : validate P m db c (P.hash c.entry.source.content) with
          | ok u =>
              have hone : Goes P m db [c.entry] r (.ok r.publish) :=
                .publish (mapped_of_validate hc hvalid)
              exact hone.bind fun r' => ih hcs' hrest
          | error message =>
              have hone : Goes P m db [c.entry] r (.ok (r.report c.entry.logicalPath message)) :=
                .of_not_clean (not_clean_report r _ _)
              exact hone.bind fun r' => ih hcs' hrest

/-- The copies of a batch are read as the contents of its sources. The copies are the contents in
the order of the candidates, and reading a copy gives back the whole of it. -/
theorem readBatch_ok {cs : List AuditCandidate} {prepared : List PreparedObjectSource}
    (h : readBatch cs = .ok prepared) :
    prepared.map (·.bytes) = cs.map (·.entry.source.content) := by
  simp only [readBatch, ObjectSnapshotBatch.capture, ObjectStore.readObjectBatch, bind_ok] at h
  obtain ⟨copies, ⟨-, -, -, -, hcopies⟩, -, -, -, -, hprepared⟩ := h
  have hcontents : copies = cs.map (·.entry.source.content) := by
    rw [List.mapM_map] at hcopies
    refine mapM_eq_map hcopies fun c copy hcopy => ?_
    simp only [Function.comp_apply, request, AuditSource.capture, bind_ok, pure_ok] at hcopy
    obtain ⟨-, -, -, -, rfl⟩ := hcopy
    rfl
  subst hcontents
  rw [List.zipWith_map_right, List.zipWith_self, List.mapM_map] at hprepared
  have hsources : prepared = cs.map fun c => ⟨c.entry.source.content, true⟩ := by
    refine mapM_eq_map hprepared fun c p hp => ?_
    simp only [Function.comp_apply, input, bind_ok, pure_ok] at hp
    obtain ⟨_, ⟨-, -, rfl⟩, rfl⟩ := hp
    rfl
  rw [hsources, List.map_map]
  rfl

/-- A batch advances the report by the entries of its candidates, whichever way it is read. -/
theorem advances_batch {cs : List AuditCandidate} (hcs : ∀ c ∈ cs, prepare db c.entry = .ok c) :
    Goes P m db (cs.map (·.entry)) r (batch P m db e cs r) := by
  unfold batch
  split
  · next hempty =>
      rw [List.isEmpty_iff.1 hempty]
      exact Advances.refl P m db r
  · cases hread : readBatch cs with
    | ok prepared => exact advances_verify hcs (readBatch_ok hread)
    | error message => exact Goes.unlessStopped (advances_isolate hcs)

end

/-- What the loop that fills a batch takes of the entries: its candidates, unless an entry that it
has none for was reported. -/
structure Takes (db : ObjectTables) (entries rest : List AuditEntry)
    (candidates cs : List AuditCandidate) (r r' : ObjectAuditReport) : Prop where
  split : ∃ taken, entries = taken ++ rest ∧ ∃ found, cs = candidates ++ found ∧
    (∀ c ∈ found, prepare db c.entry = .ok c) ∧
    (r'.Clean → r' = r ∧ found.map (·.entry) = taken)

section
variable {r r' : ObjectAuditReport} {entries rest : List AuditEntry} {first : Bool}
  {remaining : Nat} {candidates cs : List AuditCandidate}

/-- Nothing is taken at the end of the inventory or when a batch is full. -/
theorem Takes.nothing : Takes db entries entries candidates candidates r r :=
  ⟨[], rfl, [], (List.append_nil _).symm, fun _ hc => absurd hc List.not_mem_nil,
    fun _ => ⟨rfl, rfl⟩⟩

/-- An entry that is prepared joins the batch. -/
theorem Takes.candidate (hc : prepare db e = .ok c)
    (h : Takes db entries rest (candidates ++ [c]) cs r r') :
    Takes db (e :: entries) rest candidates cs r r' := by
  obtain ⟨taken, rfl, found, rfl, hfound, hclean⟩ := h
  refine ⟨e :: taken, rfl, c :: found, List.append_assoc _ _ _, ?_, fun h => ?_⟩
  · intro c' hc'
    rcases List.mem_cons.1 hc' with rfl | hc'
    · rwa [prepare_entry hc]
    · exact hfound c' hc'
  · obtain ⟨hsame, hentries⟩ := hclean h
    exact ⟨hsame, congrArg₂ List.cons (prepare_entry hc) hentries⟩

/-- An entry that is not prepared is reported, and the next one is looked at. -/
theorem Takes.reported {path : Bytes} {message : String}
    (h : Takes db entries rest candidates cs (r.report path message) r') :
    Takes db (e :: entries) rest candidates cs r r' := by
  obtain ⟨taken, rfl, found, hcs, hfound, hclean⟩ := h
  refine ⟨e :: taken, rfl, found, hcs, hfound, fun h => ?_⟩
  obtain ⟨rfl, -⟩ := hclean h
  exact absurd h (not_clean_report r path message)

variable (db first e entries remaining candidates r) in
/-- What the loop does with an entry: it leaves it, is stopped, has a candidate for it, or reports
it. -/
theorem collect_cons :
    (collect db first (e :: entries) remaining candidates r = .ok (candidates, e :: entries, r) ∧
      (ObjectStore.maximumBatchFiles ≤ candidates.length ∨ remaining < e.identity.size)) ∨
    (collect db first (e :: entries) remaining candidates r = .error r.cancel ∧
      ∃ p, e.stops p = true) ∨
    (∃ c, prepare db e = .ok c ∧ collect db first (e :: entries) remaining candidates r
      = collect db false entries (remaining - e.identity.size) (candidates ++ [c]) r) ∨
    ∃ message, prepare db e = .error message ∧
      collect db first (e :: entries) remaining candidates r
        = collect db false entries remaining candidates (r.report e.logicalPath message) := by
  rw [collect]
  split
  · next hfull => exact .inl ⟨rfl, .inl hfull⟩
  · cases hstop : e.stops (if first then .first else .next) with
    | true => exact .inr (.inl ⟨rfl, _, hstop⟩)
    | false =>
        by_cases hsize : remaining < e.identity.size
        · exact .inl ⟨if_pos hsize, .inr hsize⟩
        · cases hprepare : prepare db e with
          | ok c => exact .inr (.inr (.inl ⟨c, rfl, if_neg hsize⟩))
          | error message => exact .inr (.inr (.inr ⟨message, rfl, if_neg hsize⟩))

/-- What `collect` takes from the inventory are its next entries, each a candidate or in the report.
-/
theorem collect_ok (h : collect db first entries remaining candidates r = .ok (cs, rest, r')) :
    Takes db entries rest candidates cs r r' := by
  induction entries generalizing first remaining candidates r with
  | nil =>
      cases h
      exact .nothing
  | cons e entries ih =>
      rcases collect_cons db e r entries first remaining candidates with
        ⟨heq, -⟩ | ⟨heq, -⟩ | ⟨c, hprepare, heq⟩ | ⟨message, -, heq⟩
      · cases heq.symm.trans h
        exact .nothing
      · cases heq.symm.trans h
      · exact .candidate hprepare (ih (heq.symm.trans h))
      · exact .reported (ih (heq.symm.trans h))

/-- The loop is left early only where it is stopped. -/
theorem collect_error (h : collect db first entries remaining candidates r = .error r') :
    ¬ r'.Clean := by
  induction entries generalizing first remaining candidates r with
  | nil => cases h
  | cons e entries ih =>
      rcases collect_cons db e r entries first remaining candidates with
        ⟨heq, -⟩ | ⟨heq, -⟩ | ⟨c, -, heq⟩ | ⟨message, -, heq⟩
      · cases heq.symm.trans h
      · cases heq.symm.trans h
        exact not_clean_cancel r
      · exact ih (heq.symm.trans h)
      · exact ih (heq.symm.trans h)

/-- A batch takes an entry at least. -/
theorem collect_first (hsize : e.identity.size ≤ remaining)
    (h : collect db first (e :: entries) remaining [] r = .ok (cs, rest, r')) :
    rest.length ≤ entries.length := by
  have hsuffix : ∀ {candidates remaining r},
      collect db false entries remaining candidates r = .ok (cs, rest, r') →
        rest.length ≤ entries.length := by
    intro candidates remaining r h
    obtain ⟨taken, hentries, -⟩ := collect_ok h
    rw [hentries, List.length_append]
    exact Nat.le_add_left _ _
  rcases collect_cons db e r entries first remaining [] with
    ⟨-, hfull | hlarge⟩ | ⟨heq, -⟩ | ⟨c, -, heq⟩ | ⟨message, -, heq⟩
  · exact absurd hfull (by decide)
  · exact absurd hlarge (Nat.not_lt.2 hsize)
  · cases heq.symm.trans h
  · exact hsuffix (heq.symm.trans h)
  · exact hsuffix (heq.symm.trans h)

/-- A report that is not clean stays so. -/
theorem Goes.of_not_clean {f : Auditing ObjectAuditReport} {r₀ : ObjectAuditReport}
    {entries' : List AuditEntry} (hr : ¬ r.Clean) (h : Goes P m db entries r f) :
    Goes P m db entries' r₀ f := by
  cases f with
  | ok r' => exact Advances.of_not_clean fun hclean => hr (h.clean hclean)
  | error r' => exact h

/-- **The loop over the entries advances by all of them.** Each round takes at least one entry off
the list, so that as many rounds as entries are enough. -/
theorem advances_entries {rounds : Nat} (h : entries.length ≤ rounds) :
    Goes P m db entries r (auditEntries P m db rounds entries r) := by
  induction rounds generalizing entries r with
  | zero =>
      obtain rfl := List.length_eq_zero_iff.1 (Nat.le_zero.1 h)
      exact Advances.refl P m db r
  | succ rounds ih =>
      cases entries with
      | nil => exact Advances.refl P m db r
      | cons e entries =>
          have hlength : entries.length ≤ rounds := Nat.le_of_succ_le_succ h
          refine Goes.unlessStopped ?_
          split
          · have hone : Goes P m db [e] r (.ok (large P m db e r)) := advances_large
            exact hone.bind fun r' => ih hlength
          · next hsize =>
              cases hcollect : collect db true (e :: entries) ObjectStore.maximumBatchBytes []
                  r with
              | error r' => exact collect_error hcollect
              | ok taken =>
                  obtain ⟨cs, rest, r₁⟩ := taken
                  have hrest := collect_first (Nat.not_lt.1 hsize) hcollect
                  obtain ⟨taken, hentries, found, hcs, hfound, hclean⟩ := collect_ok hcollect
                  obtain rfl : cs = found := hcs
                  have hgoes : Goes P m db (cs.map (·.entry) ++ rest) r₁
                      (batch P m db e cs r₁ >>= fun r' => auditEntries P m db rounds rest r') :=
                    (advances_batch hfound).bind fun r' => ih (hrest.trans hlength)
                  by_cases hr : r₁.Clean
                  · obtain ⟨rfl, rfl⟩ := hclean hr
                    rw [hentries]
                    exact hgoes
                  · exact hgoes.of_not_clean hr

end

/-! ## Undisturbed audits -/

/-- An entry that is mapped, and at which nothing disturbs the audit. -/
structure Settled (P : Platform) (m : Impl) (db : ObjectTables) (e : AuditEntry) : Prop where
  undisturbed : e.Undisturbed
  mapped : ∃ o x, Mapped P m db e o x

/-- A part of the audit that leaves a clean report clean. -/
def Keeps (r : ObjectAuditReport) (f : Auditing ObjectAuditReport) : Prop :=
  r.Clean → ∃ r', f = .ok r' ∧ r'.Clean

section
variable {r : ObjectAuditReport} {entries : List AuditEntry} {cs : List AuditCandidate}

/-- A step after one more published file keeps the report clean if it does so from there. -/
theorem keeps_publish {f : ObjectAuditReport → Auditing ObjectAuditReport}
    (h : Keeps r.publish (f r.publish)) : Keeps r (f r.publish) :=
  fun hr => h ⟨hr.issues, hr.cancelled⟩

/-- Where every entry is settled, checking one by one keeps a clean report clean. -/
theorem keeps_isolate (hcs : ∀ c ∈ cs, prepare db c.entry = .ok c ∧ Settled P m db c.entry) :
    Keeps r (isolate P m db cs r) := by
  induction cs generalizing r with
  | nil => exact fun hr => ⟨r, rfl, hr⟩
  | cons c cs ih =>
      obtain ⟨hc, hsettled⟩ := hcs c List.mem_cons_self
      obtain ⟨o, x, hm⟩ := hsettled.mapped
      rw [isolate, hsettled.undisturbed.stops, single_eq hsettled.undisturbed hm hc]
      exact keeps_publish (ih fun c hc => hcs c (List.mem_cons_of_mem _ hc))

/-- Where every entry is settled, validating a batch keeps a clean report clean. -/
theorem keeps_verify {prepared : List PreparedObjectSource}
    (hcs : ∀ c ∈ cs, prepare db c.entry = .ok c ∧ Settled P m db c.entry)
    (hread : prepared.map (·.bytes) = cs.map (·.entry.source.content)) :
    Keeps r (verify P m db (cs.zip prepared) r) := by
  induction cs generalizing r prepared with
  | nil => exact fun hr => ⟨r, rfl, hr⟩
  | cons c cs ih =>
      cases prepared with
      | nil => cases hread
      | cons p prepared =>
          obtain ⟨hbytes, hrest⟩ := List.cons.inj hread
          obtain ⟨hc, hsettled⟩ := hcs c List.mem_cons_self
          obtain ⟨o, x, hm⟩ := hsettled.mapped
          have hvalid : validate P m db c (P.hash p.bytes) = .ok () := by
            have heq : c = ⟨c.entry, x.compact⟩ := Except.ok.inj (hc.symm.trans hm.prepare_eq)
            rw [show p.bytes = c.entry.source.content from hbytes]
            exact heq ▸ hm.validate_eq (hsettled.undisturbed.access _)
          rw [List.zip_cons_cons, verify, hsettled.undisturbed.stops, hvalid]
          exact keeps_publish (ih (fun c hc => hcs c (List.mem_cons_of_mem _ hc)) hrest)

/-- Where every entry is settled and the source undisturbed, a batch keeps a clean report clean. -/
theorem keeps_batch (he : e.Undisturbed)
    (hcs : ∀ c ∈ cs, prepare db c.entry = .ok c ∧ Settled P m db c.entry) :
    Keeps r (batch P m db e cs r) := by
  unfold batch
  split
  · exact fun hr => ⟨r, rfl, hr⟩
  · cases hread : readBatch cs with
    | ok prepared => exact keeps_verify hcs (readBatch_ok hread)
    | error message =>
        rw [he.stops]
        exact keeps_isolate hcs

/-- Nothing is reported while a batch is filled. -/
theorem collect_settled (h : ∀ e ∈ entries, Settled P m db e) (first : Bool) (remaining : Nat)
    (candidates : List AuditCandidate) (r : ObjectAuditReport) :
    ∃ cs rest, collect db first entries remaining candidates r = .ok (cs, rest, r) := by
  induction entries generalizing first remaining candidates with
  | nil => exact ⟨_, _, rfl⟩
  | cons e entries ih =>
      have he := h e List.mem_cons_self
      have hrest : ∀ e ∈ entries, Settled P m db e := fun e he => h e (List.mem_cons_of_mem _ he)
      obtain ⟨o, x, hm⟩ := he.mapped
      rcases collect_cons db e r entries first remaining candidates with
        ⟨heq, -⟩ | ⟨-, p, hstop⟩ | ⟨c, -, heq⟩ | ⟨message, herror, -⟩
      · exact ⟨_, _, heq⟩
      · rw [he.undisturbed.stops] at hstop
        cases hstop
      · rw [heq]
        exact ih hrest _ _ _
      · cases herror.symm.trans hm.prepare_eq

/-- **The loop over settled entries finds no issue.** -/
theorem keeps_entries {rounds : Nat} (h : ∀ e ∈ entries, Settled P m db e) :
    Keeps r (auditEntries P m db rounds entries r) := by
  induction rounds generalizing entries r with
  | zero => exact fun hr => ⟨r, rfl, hr⟩
  | succ rounds ih =>
      cases entries with
      | nil => exact fun hr => ⟨r, rfl, hr⟩
      | cons e entries =>
          have he := h e List.mem_cons_self
          obtain ⟨o, x, hm⟩ := he.mapped
          rw [auditEntries, he.undisturbed.stops]
          change Keeps r (ite _ _ _)
          split
          · have hlarge : large P m db e r = r.publish := by
              unfold large
              rw [hm.prepare_eq]
              exact single_eq (c := ⟨e, x.compact⟩) he.undisturbed hm hm.prepare_eq
            rw [hlarge]
            exact keeps_publish (ih fun e he => h e (List.mem_cons_of_mem _ he))
          · intro hr
            obtain ⟨cs, rest, hcollect⟩ :=
              collect_settled h true ObjectStore.maximumBatchBytes [] r
            obtain ⟨taken, hentries, found, hcs, hfound, hclean⟩ := collect_ok hcollect
            obtain rfl : cs = found := hcs
            obtain ⟨-, rfl⟩ := hclean hr
            have hsettled : ∀ c ∈ cs, prepare db c.entry = .ok c ∧ Settled P m db c.entry := by
              intro c hc
              refine ⟨hfound c hc, h _ ?_⟩
              rw [hentries]
              exact List.mem_append_left _ (List.mem_map_of_mem hc)
            obtain ⟨r₁, hbatch, hr₁⟩ := keeps_batch he.undisturbed hsettled hr
            rw [hcollect]
            show ∃ r', (batch P m db e cs r >>= fun r => auditEntries P m db rounds rest r) = .ok r'
              ∧ r'.Clean
            rw [hbatch]
            refine ih (fun e he => h e ?_) hr₁
            rw [hentries]
            exact List.mem_append_right _ he

end

/-! ## The counts -/

/-- The entries that the pages of `index` list: those of the live rows. -/
def liveIndex (db : ObjectTables) : List ObjectIndexEntry :=
  (Keyset.orderBy (·.indexKey) (db.currentIndex.rows.filter
    fun i => listed false i.deleted)).map ObjectStore.indexEntry

/-- The live index is read in the order of its keys. -/
theorem liveIndex_ascending (db : ObjectTables) :
    Keyset.Ascending (·.indexKey) (liveIndex db) :=
  List.pairwise_map.2 (Keyset.ascending_orderBy
    (db.currentIndex.nodup.sublist (List.filter_sublist.map _)))

/-- What the pages past a cursor add up to, unless the loop is stopped. A page that is not full is
the last one, so that more rounds than rows are not needed; only the stop ends the loop before. -/
theorem countIndexed_ok {stops : StopToken} {rounds : Nat} {cursor : Int} (poll indexed : Nat)
    (hcursor : 0 ≤ cursor)
    (hrounds : (Keyset.past (·.indexKey) (liveIndex db) cursor).length < rounds) :
    ∃ stopped : Bool, countIndexed db stops rounds poll cursor indexed = .ok (if stopped then none
        else some (indexed + (Keyset.past (·.indexKey) (liveIndex db) cursor).length)) ∧
      ((∀ n, stops n = false) → stopped = false) := by
  induction rounds generalizing poll indexed cursor with
  | zero => exact absurd hrounds (Nat.not_lt_zero _)
  | succ rounds ih =>
      rw [countIndexed]
      cases hstop : stops poll with
      | true =>
          refine ⟨true, rfl, fun hnone => ?_⟩
          rw [hnone] at hstop
          cases hstop
      | false =>
          have hpage : ObjectStore.index db cursor 1024 false
              = .ok (Keyset.page (·.indexKey) (liveIndex db) cursor 1024) :=
            IndexInvariant.index_page hcursor (by decide) false
          have hcontinue := Keyset.past_lastKey (liveIndex_ascending db) cursor 1024
          have hnext : cursor ≤ Keyset.lastKey (·.indexKey)
              (Keyset.page (·.indexKey) (liveIndex db) cursor 1024) cursor :=
            Keyset.le_lastKey (liveIndex db) cursor 1024
          have hlength : (Keyset.page (·.indexKey) (liveIndex db) cursor 1024).length
              = min 1024 (Keyset.past (·.indexKey) (liveIndex db) cursor).length :=
            List.length_take
          rw [hpage, if_neg Bool.false_ne_true, ok_bind]
          unfold Keyset.lastKey at hcontinue hnext
          cases hlast : (Keyset.page (·.indexKey) (liveIndex db) cursor 1024).getLast? with
          | none =>
              rw [List.getLast?_eq_none_iff.1 hlast, List.length_nil] at hlength
              refine ⟨false, ?_, fun _ => rfl⟩
              rw [show (Keyset.past (·.indexKey) (liveIndex db) cursor).length = 0 by omega]
              rfl
          | some last =>
              have hne : (Keyset.page (·.indexKey) (liveIndex db) cursor 1024).length ≠ 0 := by
                rw [Ne, List.length_eq_zero_iff]
                intro hnil
                rw [hnil] at hlast
                cases hlast
              rw [hlast, Option.map_some, Option.getD_some] at hcontinue hnext
              have hrest := congrArg List.length hcontinue
              rw [List.length_drop] at hrest
              obtain ⟨stopped, hcount, hstopped⟩ := ih (poll + 1)
                (indexed + (Keyset.page (·.indexKey) (liveIndex db) cursor 1024).length)
                (hcursor.trans hnext) (by omega)
              refine ⟨stopped, hcount.trans ?_, hstopped⟩
              rw [show indexed + (Keyset.past (·.indexKey) (liveIndex db) cursor).length
                = indexed + (Keyset.page (·.indexKey) (liveIndex db) cursor 1024).length
                  + (Keyset.past (·.indexKey) (liveIndex db) last.indexKey).length by omega]

/-- The live objects. -/
def liveObjects (db : ObjectTables) : List ObjectRow :=
  db.objects.rows.filter fun o => o.deleted = false

/-- The live objects are those that are not deleted. -/
theorem mem_liveObjects : o ∈ liveObjects db ↔ o ∈ db.objects ∧ o.deleted = false := by
  unfold liveObjects
  rw [List.mem_filter, decide_eq_true_eq]
  rfl

/-- The store counts the live objects. -/
theorem count_eq (db : ObjectTables) : ObjectStore.count db false = (liveObjects db).length := by
  unfold ObjectStore.count liveObjects
  simp only [Bool.false_eq_true, false_or]

/-- The entries of an inventory and the live objects are in one-to-one correspondence by their
paths, and every entry is mapped to its object. -/
structure Mapping (P : Platform) (m : Impl) (db : ObjectTables) (entries : List AuditEntry) :
    Prop where
  mapped : ∀ e ∈ entries, ∃ o x, Mapped P m db e o x
  all : ∀ o ∈ liveObjects db, ∃ e ∈ entries, e.logicalPath = o.path
  one : ∀ o ∈ liveObjects db, ∀ o' ∈ liveObjects db, o.path = o'.path → o = o'

/-- Every live row of the index, from the first cursor on, is that of a live object. -/
def NoStrayRow (db : ObjectTables) : Prop :=
  ∀ i ∈ Keyset.past (·.indexKey) (liveIndex db) 0, ∃ o ∈ liveObjects db, ∃ x,
    ObjectStore.headRecord db o = some x ∧ i = x.compact

section
variable {entries : List AuditEntry}

/-- As many objects as entries of different paths leave no object without an entry. -/
theorem mapping_of_count (hdistinct : (entries.map (·.logicalPath)).Nodup)
    (hmapped : ∀ e ∈ entries, ∃ o x, Mapped P m db e o x)
    (hcount : (liveObjects db).length = entries.length) : Mapping P m db entries := by
  have hsubset : entries.map (·.logicalPath) ⊆ (liveObjects db).map (·.path) := by
    intro path hpath
    obtain ⟨e, he, rfl⟩ := List.mem_map.1 hpath
    obtain ⟨o, x, hm⟩ := hmapped e he
    exact List.mem_map.2 ⟨o, mem_liveObjects.2 ⟨hm.object, hm.live⟩, hm.path⟩
  have hperm : (entries.map (·.logicalPath)).Perm ((liveObjects db).map (·.path)) := by
    refine (List.subperm_of_subset hdistinct hsubset).perm_of_length_le ?_
    rw [List.length_map, List.length_map, hcount]
  refine ⟨hmapped, fun o ho => ?_, fun o ho o' ho' heq => ?_⟩
  · exact List.mem_map.1 (hperm.mem_iff.2 (List.mem_map_of_mem ho))
  · exact List.inj_on_of_nodup_map (hperm.nodup_iff.1 hdistinct) ho ho' heq

/-- The object of an entry is the one under its path. -/
theorem Mapping.object (h : Mapping P m db entries) (ho : o ∈ liveObjects db) :
    ∃ e ∈ entries, ∃ x, Mapped P m db e o x := by
  obtain ⟨e, he, hpath⟩ := h.all o ho
  obtain ⟨o', x, hm⟩ := h.mapped e he
  have heq := h.one o ho o' (mem_liveObjects.2 ⟨hm.object, hm.live⟩) (hpath.symm.trans hm.path.symm)
  exact ⟨e, he, x, heq ▸ hm⟩

/-- Entries with distinct paths that are mapped to all live objects are as many as these. -/
theorem Mapping.count (hdistinct : (entries.map (·.logicalPath)).Nodup)
    (h : Mapping P m db entries) : (liveObjects db).length = entries.length := by
  have hnodup : ((liveObjects db).map (·.path)).Nodup :=
    (db.objects.nodup.of_map.filter _).map_on h.one
  have hperm : ((liveObjects db).map (·.path)).Perm (entries.map (·.logicalPath)) := by
    refine (List.perm_ext_iff_of_nodup hnodup hdistinct).2 fun path => ?_
    simp only [List.mem_map]
    constructor
    · rintro ⟨o, ho, rfl⟩
      exact h.all o ho
    · rintro ⟨e, he, rfl⟩
      obtain ⟨o, x, hm⟩ := h.mapped e he
      exact ⟨o, mem_liveObjects.2 ⟨hm.object, hm.live⟩, hm.path⟩
  have hlength := hperm.length_eq
  rwa [List.length_map, List.length_map] at hlength

/-- The pages of the index list the entry of a mapped object. -/
theorem Mapped.listed (h : Mapped P m db e o x) :
    x.compact ∈ Keyset.past (·.indexKey) (liveIndex db) 0 := by
  obtain ⟨hpositive, row, hrow, hentry⟩ := h.index
  have hlive : row.deleted = false := (congrArg ObjectIndexEntry.deleted hentry).trans h.recordLive
  refine List.mem_filter.2 ⟨List.mem_map.2 ⟨row, Keyset.mem_orderBy.2 (List.mem_filter.2
    ⟨hrow, ?_⟩), hentry⟩, decide_eq_true hpositive⟩
  rw [hlive]
  rfl

/-- As many rows of the index as objects leave no row without an object. -/
theorem Mapping.noStrayRow_iff (h : Mapping P m db entries) :
    (Keyset.past (·.indexKey) (liveIndex db) 0).length = (liveObjects db).length ↔
      NoStrayRow db := by
  have hkeys : ((liveObjects db).map (·.objectKey)).Nodup :=
    db.objects.nodup.sublist (List.filter_sublist.map _)
  have hsubset : (liveObjects db).map (·.objectKey) ⊆
      (Keyset.past (·.indexKey) (liveIndex db) 0).map (·.key) := by
    intro key hkey
    obtain ⟨o, ho, rfl⟩ := List.mem_map.1 hkey
    obtain ⟨e, he, x, hm⟩ := h.object ho
    exact List.mem_map.2 ⟨x.compact, hm.listed, (headRecord_ok hm.head).1⟩
  constructor
  · intro hlength i hi
    have hperm : ((liveObjects db).map (·.objectKey)).Perm
        ((Keyset.past (·.indexKey) (liveIndex db) 0).map (·.key)) := by
      refine (List.subperm_of_subset hkeys hsubset).perm_of_length_le ?_
      rw [List.length_map, List.length_map, hlength]
    obtain ⟨o, ho, hkey⟩ := List.mem_map.1 (hperm.mem_iff.2 (List.mem_map_of_mem hi))
    obtain ⟨e, he, x, hm⟩ := h.object ho
    have hsame : i.key = x.compact.key := hkey.symm.trans (headRecord_ok hm.head).1.symm
    exact ⟨o, ho, x, hm.head, List.inj_on_of_nodup_map (hperm.nodup_iff.1 hkeys) hi hm.listed hsame⟩
  · intro hstray
    have hnodup : ((Keyset.past (·.indexKey) (liveIndex db) 0).map (·.key)).Nodup := by
      have hpast := ((liveIndex_ascending db).past 0).nodup_keys.of_map
      refine hpast.map_on fun i hi i' hi' heq => ?_
      obtain ⟨o, ho, x, hx, rfl⟩ := hstray i hi
      obtain ⟨o', ho', x', hx', rfl⟩ := hstray i' hi'
      have hkey : o.objectKey = o'.objectKey :=
        (headRecord_ok hx).1.symm.trans (Eq.trans heq (headRecord_ok hx').1)
      obtain rfl : o = o' :=
        Table.eq_of_key_eq (mem_liveObjects.1 ho).1 (mem_liveObjects.1 ho').1 hkey
      rw [Option.some.inj (hx.symm.trans hx')]
    have hperm : ((Keyset.past (·.indexKey) (liveIndex db) 0).map (·.key)).Perm
        ((liveObjects db).map (·.objectKey)) := by
      refine (List.perm_ext_iff_of_nodup hnodup hkeys).2 fun key => ⟨fun hkey => ?_,
        fun hkey => hsubset hkey⟩
      obtain ⟨i, hi, rfl⟩ := List.mem_map.1 hkey
      obtain ⟨o, ho, x, hx, rfl⟩ := hstray i hi
      exact List.mem_map.2 ⟨o, ho, (headRecord_ok hx).1.symm⟩
    have hlength := hperm.length_eq
    rwa [List.length_map, List.length_map] at hlength

end

/-! ## Clean audits -/

/-- Nothing disturbs the audit of an inventory, in which nothing was wrong. -/
structure Undisturbed (inventory : AuditInventory) : Prop where
  issues : inventory.issues = []
  staging : inventory.staging = .ok ()
  stops : ∀ n, inventory.stops n = false
  entries : ∀ e ∈ inventory.entries, e.Undisturbed

section
variable {inventory : AuditInventory} {r r' : ObjectAuditReport}

/-- What the loop over the pages counts. -/
theorem countIndexed_all (db : ObjectTables) (stops : StopToken) : ∃ stopped : Bool,
    countIndexed db stops (db.currentIndex.rows.length + 1) 1 0 0 = .ok (if stopped then none
      else some (Keyset.past (·.indexKey) (liveIndex db) 0).length) ∧
    ((∀ n, stops n = false) → stopped = false) := by
  have hlength : (Keyset.past (·.indexKey) (liveIndex db) 0).length
      < db.currentIndex.rows.length + 1 := by
    have hrows := List.length_filter_le (fun i => listed false i.deleted) db.currentIndex.rows
    have hlive : (liveIndex db).length = (db.currentIndex.rows.filter
        fun i => listed false i.deleted).length := by
      rw [liveIndex, List.length_map, (Keyset.orderBy_perm _).length_eq]
    exact Nat.lt_succ_of_le ((List.length_filter_le _ _).trans (hlive.le.trans hrows))
  have hcount := @countIndexed_ok db stops _ 0 1 0 le_rfl hlength
  rwa [Nat.zero_add] at hcount

/-- The comparison of the counts finds no issue only where they agree. A difference in either count
adds an issue, so that a report without one has met two equal counts. -/
theorem compare_ok (h : compare db inventory r = .ok r') (hclean : r'.Clean) :
    r = r' ∧ ObjectStore.count db false = inventory.entries.length ∧
      (Keyset.past (·.indexKey) (liveIndex db) 0).length = inventory.entries.length := by
  obtain ⟨stopped, hcount, -⟩ := countIndexed_all db inventory.stops
  unfold compare at h
  cases hstop : inventory.stops 0 with
  | true =>
      rw [hstop] at h
      cases h
  | false =>
      rw [hstop, hcount] at h
      cases stopped with
      | true => cases h
      | false =>
          change ite _ _ _ = _ at h
          split at h
          · cases h
            exact absurd hclean (not_clean_report r _ _)
          · next hsame =>
              cases h
              rw [not_or, not_not, not_not] at hsame
              exact ⟨rfl, hsame⟩

/-- The comparison of the counts ends early only with a report that is not clean. -/
theorem compare_error (h : compare db inventory r = .error r') : ¬ r'.Clean := by
  obtain ⟨stopped, hcount, -⟩ := countIndexed_all db inventory.stops
  unfold compare at h
  cases hstop : inventory.stops 0 with
  | true =>
      rw [hstop] at h
      cases h
      exact not_clean_cancel r
  | false =>
      rw [hstop, hcount] at h
      cases stopped with
      | true =>
          cases h
          exact not_clean_cancel r
      | false =>
          change ite _ _ _ = _ at h
          split at h <;> cases h

/-- Where the counts agree and nothing stops it, the comparison leaves the report as it is. -/
theorem compare_eq (hstops : ∀ n, inventory.stops n = false)
    (hcount : ObjectStore.count db false = inventory.entries.length)
    (hindexed : (Keyset.past (·.indexKey) (liveIndex db) 0).length = inventory.entries.length) :
    compare db inventory r = .ok r := by
  obtain ⟨stopped, hloop, hstopped⟩ := countIndexed_all db inventory.stops
  rw [hstopped hstops] at hloop
  unfold compare
  rw [hstops, hloop]
  exact if_neg (not_or.2 ⟨not_not_intro hcount, not_not_intro hindexed⟩)

end

/-- The file of the sample calls, with nothing to disturb its audit. -/
def sampleInventory : AuditInventory :=
  ⟨[⟨ascii "a", ⟨[], [1, 2, 3], fun _ => .ok ()⟩, ⟨[], 3⟩, fun _ => false⟩], [], .ok (),
    fun _ => false⟩

/-- A package without objects, with a row in its index. -/
def strayTables : ObjectTables :=
  { ObjectTables.fresh (ascii "c") with
    currentIndex := Table.empty.upsert ⟨1, ascii "o", 1, ascii "a", [], 0, [], [], false, [], []⟩ }

end ObjectPackager

end FileProvider
