import FileProvider.Sql.Splices
import FileProvider.Sql.Transactions
import Mathlib.Data.List.Sort

/-!
# Compare and exchange of ranges

`compare_exchange_blob_ranges` exchanges ranges that fit the value, and no others. Where it fails,
the engine is as it was, or it has taken the whole transaction back, or the connection is given up.

The lemmas go through the source from the checks to the last write. What only reads leaves
everything as it was; what writes gives a content with some of the ranges written, until the
savepoint is taken back.
-/

namespace FileProvider

open Bytes

namespace Sql

open Program

variable {ρ β γ : Type} {allowed : Answer Failure → Prop} {c : Connection ρ}
  {e : Engine (Content ρ)} {place : BlobPlace} {value : Bytes} {A : Prop}

/-- No call of the engine fails by itself. -/
def OnlyDone (allowed : Answer Failure → Prop) : Prop := ∀ a, allowed a → a = .done

/-- What a call of the engine comes to. -/
theorem engine_meets {f : Engine (Content ρ) → Except String (β × Engine (Content ρ))}
    {Q : Except Error β → Connection ρ → Prop} (hdone : allowed .done) (he : c.handle = some e)
    (hok : ∀ b e', f e = .ok (b, e') → Q (.ok b) (c.withEngine e'))
    (hrefused : ∀ message, f e = .error message → Q (.error ⟨.failure, 1, message⟩) c)
    (hfailed : ¬ OnlyDone allowed → ∀ error, Q (.error error) c)
    (haborted : ¬ OnlyDone allowed → ∀ error, Q (.error error) (c.withEngine e.rollback)) :
    Meets allowed (engine f) c Q := by
  refine .call hdone fun a ha => ?_
  rw [he]
  cases a with
  | done =>
      dsimp only
      cases hresult : f e with
      | ok result => exact hok result.1 result.2 hresult
      | error message => exact hrefused message hresult
  | failed => exact hfailed (fun honly => by cases honly _ ha) _
  | aborted => exact haborted (fun honly => by cases honly _ ha) _

/-! ## What only reads -/

/-- A part that only reads leaves the connection as it is, and gives what `P` says. It fails when a
call of the engine does, or when what is asked for is not the case. -/
def Reads (allowed : Answer Failure → Prop) (c : Connection ρ) (e : Engine (Content ρ)) (A : Prop)
    (P : β → Prop) : Except Error β → Connection ρ → Prop
  | .ok b, c' => c' = c ∧ P b
  | .error _, c' => (c' = c ∨ c' = c.withEngine e.rollback) ∧ (OnlyDone allowed → ¬ A)

namespace Reads

variable {P : β → Prop}

/-- A part that only reads is followed by another; the second may use what the first has found. -/
theorem bind {p : Call ρ β} {f : β → Call ρ γ} {Q : γ → Prop}
    (h : Meets allowed p c (Reads allowed c e A P))
    (h' : ∀ b, P b → Meets allowed (f b) c (Reads allowed c e A Q)) :
    Meets allowed (p >>= f) c (Reads allowed c e A Q) := by
  refine .bind (h.imp fun r c' hr => ⟨fun b hb => ?_, fun error herror => ?_⟩)
  · subst hb
    obtain ⟨rfl, hP⟩ := hr
    exact h' b hP
  · subst herror
    exact hr

/-- A check passes when the condition of the call holds, and fails without an effect. -/
theorem failIf {cond : Prop} [Decidable cond] {error : Error} (h : A → ¬ cond) :
    Meets allowed (Program.failIf cond error) c (Reads allowed c e A fun _ => ¬ cond) :=
  .failIf (fun hcond => ⟨.inl rfl, fun _ hA => h hA hcond⟩) fun hcond => ⟨rfl, hcond⟩

/-- Returning a value reads nothing. -/
theorem pure {b : β} (h : P b) : Meets allowed (Pure.pure b) c (Reads allowed c e A P) :=
  .pure ⟨rfl, h⟩

/-- The state may be inspected without reading from the database. -/
theorem state {P : Connection ρ → Prop} (h : P c) :
    Meets allowed Program.state c (Reads allowed c e A P) := .state ⟨rfl, h⟩

/-- What a part has found may be weakened. -/
theorem imp {p : Call ρ β} {Q : β → Prop} (h : Meets allowed p c (Reads allowed c e A P))
    (hPQ : ∀ b, P b → Q b) : Meets allowed p c (Reads allowed c e A Q) := by
  refine h.imp fun r c' hr => ?_
  cases r with
  | ok b => exact ⟨hr.1, hPQ b hr.2⟩
  | error => exact hr

/-- A call of the engine that only reads. -/
theorem engine {f : Engine (Content ρ) → Except String (β × Engine (Content ρ))}
    (hdone : allowed .done) (he : c.handle = some e)
    (hok : ∃ b, f e = .ok (b, e) ∧ P b) :
    Meets allowed (Sql.engine f) c (Reads allowed c e A P) := by
  obtain ⟨b, hb, hP⟩ := hok
  have hsame : c.withEngine e = c := by
    obtain ⟨handle, serial, transaction, limit, readOnly, wrapped⟩ := c
    obtain rfl := he
    rfl
  refine engine_meets hdone he (fun b' e' h => ?_) (fun message h => ?_) ?_ ?_
  · rw [hb] at h
    cases h
    exact ⟨hsame, hP⟩
  · rw [hb] at h
    cases h
  · exact fun hnot error => ⟨.inl rfl, fun honly => absurd honly hnot⟩
  · exact fun hnot error => ⟨.inr rfl, fun honly => absurd honly hnot⟩

/-! ### Sizes and offsets -/

/-- Noting an arithmetic step that does not wrap has no effect. -/
theorem note {wraps : Prop} [Decidable wraps] (h : ¬ wraps) :
    Meets allowed (Sql.note wraps) c (Reads allowed c e A fun _ => True) := by
  refine .modify ⟨?_, trivial⟩
  exact if_neg h

/-- A checked sum within 64 bits is the sum. -/
theorem add64 {a b : Nat} (h : a + b < 2 ^ 64) :
    Meets allowed (Sql.add64 a b) c (Reads allowed c e A fun n => n = a + b) :=
  bind (note (by omega)) fun _ _ => pure (Nat.mod_eq_of_lt h)

/-- A checked difference that is not negative is the difference. -/
theorem sub64 {a b : Nat} (h : b ≤ a) (ha : a < 2 ^ 64) :
    Meets allowed (Sql.sub64 a b) c (Reads allowed c e A fun n => n = a - b) := by
  refine bind (note (by omega)) fun _ _ => pure ?_
  rw [Nat.mod_eq_of_lt (show b < 2 ^ 64 by omega)]
  omega

/-- A conversion within 31 bits keeps the value. -/
theorem toInt {a : Nat} (h : a < 2 ^ 31) :
    Meets allowed (Sql.toInt a) c (Reads allowed c e A fun i => i = (a : Int)) := by
  refine bind (note (by omega)) fun _ _ => pure ?_
  exact Int.bmod_eq_of_le (by omega) (by omega)

/-! ### Values -/

/-- Opening a blob of the database tells its length, or fails with an answer other than `done`. -/
theorem openBlob (hdone : allowed .done) (he : c.handle = some e)
    (hvalue : e.content.blobs place = some value) :
    Meets allowed (Sql.openBlob place) c (Reads allowed c e A fun n => n = value.length) := by
  refine engine hdone he ⟨value.length, ?_, rfl⟩
  rw [hvalue]

/-- Closing a blob reads nothing. -/
theorem closeBlob (hdone : allowed .done) (he : c.handle = some e) :
    Meets allowed Sql.closeBlob c (Reads allowed c e A fun _ => True) :=
  engine hdone he ⟨(), rfl, trivial⟩

/-- Reading within the blob gives its bytes at that place. -/
theorem readBlob (hdone : allowed .done) (he : c.handle = some e)
    (hvalue : e.content.blobs place = some value) {count offset : Nat}
    (h : offset + count ≤ value.length) :
    Meets allowed (Sql.readBlob place count offset) c
      (Reads allowed c e A fun b => b = (value.drop offset).take count) := by
  refine engine hdone he ⟨(value.drop offset).take count, ?_, rfl⟩
  rw [hvalue]
  dsimp only
  rw [if_neg (by omega)]
  rfl

end Reads

/-! ## The checks -/

/-- The loop over the sizes adds them up, and passes when each range keeps its length and the sum is
within the limit. -/
theorem compareSizes_reads {limit compared : Nat} {ranges : List BlobRangePatch}
    (hlimit : limit < 2 ^ 31) (hcompared : compared ≤ limit)
    (hA : A → (∀ r ∈ ranges, r.before.length = r.after.length) ∧
      compared + (ranges.map (·.after.length)).sum ≤ limit) :
    Meets allowed (ranges.foldlM (compareSizes limit) compared) c (Reads allowed c e A fun total =>
      total = compared + (ranges.map (·.after.length)).sum ∧ total ≤ limit ∧
        ∀ r ∈ ranges, r.before.length = r.after.length) := by
  induction ranges generalizing compared with
  | nil => exact Reads.pure ⟨rfl, hcompared, nofun⟩
  | cons r ranges ih =>
      simp only [List.forall_mem_cons, List.map_cons, List.sum_cons] at hA ⊢
      have hone : Meets allowed (compareSizes limit compared r) c (Reads allowed c e A fun total =>
          total = compared + r.after.length ∧ total ≤ limit ∧
            r.before.length = r.after.length) := by
        refine Reads.bind (Reads.failIf fun hA' hne => hne (hA hA').1.1) fun _ hsizes => ?_
        refine Reads.bind (Reads.sub64 hcompared (by omega)) fun rest hrest => ?_
        refine Reads.bind (Reads.failIf fun hA' => ?_) fun _ hfits => ?_
        · have hall := (hA hA').2
          omega
        · refine Reads.imp (Reads.add64 (by omega)) fun total htotal => ?_
          exact ⟨htotal, by omega, not_not.1 hsizes⟩
      refine Reads.bind hone fun total htotal => ?_
      obtain ⟨htotal, hle, hsizes⟩ := htotal
      refine Reads.imp (ih hle fun hA' => ⟨(hA hA').1.2, ?_⟩) fun sum hsum => ?_
      · have hall := (hA hA').2
        omega
      · exact ⟨by omega, hsum.2.1, hsizes, hsum.2.2⟩

/-- Ranges that are in the value, each behind those before it that are not empty. -/
def Fits (length : Nat) : Nat → List BlobRangePatch → Prop
  | _, [] => True
  | prior, r :: rest => r.stop ≤ length ∧ (r.after ≠ [] → prior ≤ r.offset.toNat) ∧
      Fits length (if r.after = [] then prior else r.stop) rest

/-- Some range changes something. -/
def changesAny (ranges : List BlobRangePatch) : Bool :=
  ranges.any fun r => r.after ≠ [] && r.before ≠ r.after

/-- The loop over the places passes exactly when each range begins behind the one before and ends
within the blob. -/
theorem checkRange_reads {length prior : Nat} {changes : Bool} {ordered : List BlobRangePatch}
    (hlength : length < 2 ^ 31) (hA : A → Fits length prior ordered) :
    Meets allowed (ordered.foldlM (checkRange length) (prior, changes)) c
      (Reads allowed c e A fun state => state.2 = (changes || changesAny ordered) ∧
        Fits length prior ordered) := by
  induction ordered generalizing prior changes with
  | nil => exact Reads.pure ⟨by simp [changesAny], trivial⟩
  | cons r rest ih =>
      have hone : Meets allowed (checkRange length (prior, changes) r) c
          (Reads allowed c e A fun state => state.1 = (if r.after = [] then prior else r.stop) ∧
            state.2 = (changes || (r.after ≠ [] && r.before ≠ r.after)) ∧ r.stop ≤ length ∧
            (r.after ≠ [] → prior ≤ r.offset.toNat)) := by
        refine Reads.bind (Reads.failIf fun hA' hout => ?_) fun _ hoffset => ?_
        · have hstop := (hA hA').1
          unfold BlobRangePatch.stop at hstop
          omega
        refine Reads.bind (Reads.sub64 (by omega) (by omega)) fun room hroom => ?_
        refine Reads.bind (Reads.failIf fun hA' hout => ?_) fun _ hfits => ?_
        · have hstop := (hA hA').1
          unfold BlobRangePatch.stop at hstop
          omega
        have hstop : r.stop ≤ length := by
          unfold BlobRangePatch.stop
          omega
        split
        · next hempty =>
            refine Reads.pure ⟨rfl, ?_, hstop, fun hne => absurd hempty hne⟩
            simp [hempty]
        · next hsome =>
            refine Reads.bind (Reads.failIf fun hA' hover => ?_) fun _ hbehind => ?_
            · have hprior := (hA hA').2.1 hsome
              dsimp only at hover
              omega
            · refine Reads.bind (Reads.add64 ?_) fun stop hstop' => Reads.pure ?_
              · unfold BlobRangePatch.stop at hstop
                omega
              · dsimp only at hbehind
                refine ⟨hstop', ?_, hstop, fun _ => by omega⟩
                simp [hsome]
      refine Reads.bind hone fun state hstate => ?_
      obtain ⟨prior', changes'⟩ := state
      obtain ⟨hprior, hchanges, hstop, hbehind⟩ := hstate
      refine Reads.imp (ih fun hA' => ?_) fun state hrest => ?_
      · rw [show prior' = _ from hprior]
        exact (hA hA').2.2
      · refine ⟨?_, hstop, hbehind, ?_⟩
        · rw [hrest.1, show changes' = _ from hchanges, Bool.or_assoc]
          rfl
        · rw [← show prior' = _ from hprior]
          exact hrest.2

/-! ## The comparison -/

/-- The bytes of a value where a range from a place in it on is. -/
theorem drop_take_split {value before : Bytes} {offset start count : Nat}
    (hstart : start + count ≤ before.length)
    (hpiece : (value.drop (offset + start)).take count = (before.drop start).take count)
    (hrest : (value.drop (offset + (start + count))).take (before.length - (start + count))
      = before.drop (start + count)) :
    (value.drop (offset + start)).take (before.length - start) = before.drop start := by
  have hlength : before.length - start = count + (before.length - (start + count)) := by omega
  rw [hlength, List.take_add, List.drop_drop, hpiece, ← Nat.add_assoc] at *
  rw [hrest, ← List.drop_drop, List.take_append_drop]

/-- The pieces of a range are compared one by one, and the comparison passes exactly when the blob
holds the expected bytes. -/
theorem compareRange_reads {range : BlobRangePatch} (hdone : allowed .done)
    (he : c.handle = some e) (hvalue : e.content.blobs place = some value)
    (hsizes : range.before.length = range.after.length) (hinside : range.stop ≤ value.length)
    (hA : A → (value.drop range.offset.toNat).take range.before.length = range.before)
    (fuel start : Nat) (hfuel : range.before.length - start ≤ fuel) :
    Meets allowed (compareRange place range fuel start) c (Reads allowed c e A fun _ =>
      (value.drop (range.offset.toNat + start)).take (range.before.length - start)
        = range.before.drop start) := by
  have hbound := e.content.bounded place value hvalue
  unfold BlobRangePatch.stop at hinside
  induction fuel generalizing start with
  | zero =>
      refine Reads.pure ?_
      rw [Nat.le_zero.1 hfuel, List.take_zero, List.drop_eq_nil_of_le (by omega)]
  | succ fuel ih =>
      unfold compareRange
      split
      · next hend =>
          refine Reads.pure ?_
          rw [Nat.sub_eq_zero_of_le hend, List.take_zero, List.drop_eq_nil_of_le hend]
      · next hmore =>
          have hcount : start + min 4096 (range.before.length - start) ≤ range.before.length := by
            omega
          refine Reads.bind (Reads.toInt (by omega)) fun count hcount' => ?_
          refine Reads.bind (Reads.add64 (by omega)) fun offset hoffset => ?_
          refine Reads.bind (Reads.toInt (by omega)) fun offset' hoffset' => ?_
          subst hcount' hoffset' hoffset
          refine Reads.bind (Reads.readBlob hdone he hvalue (by omega)) fun scratch hscratch => ?_
          refine Reads.bind (Reads.failIf fun hA' hne => hne ?_) fun _ hpiece => ?_
          · have hwhole := congrArg (List.drop start) (hA hA')
            rw [List.drop_take, List.drop_drop] at hwhole
            rw [hscratch, ← hwhole, List.take_take]
            congr 1
            omega
          · refine Reads.imp (ih _ (by omega)) fun _ hrest => ?_
            refine drop_take_split hcount ?_ hrest
            exact hscratch.symm.trans (not_not.1 hpiece)

/-! ## Ranges in order -/

/-- Sorted ranges that are apart and inside fit one behind the other. The induction is on the
ranges: the first one begins behind what is written, and the others behind its end. -/
theorem fits_of_apart {length prior : Nat} {ordered : List BlobRangePatch}
    (hsorted : ordered.Pairwise fun a b => a.offset ≤ b.offset)
    (hinside : ∀ r ∈ ordered, r.stop ≤ length) (hapart : ordered.Pairwise BlobRangePatch.Apart)
    (hprior : ∀ r ∈ ordered, r.after ≠ [] → prior ≤ r.offset.toNat) :
    Fits length prior ordered := by
  induction ordered generalizing prior with
  | nil => trivial
  | cons r rest ih =>
      obtain ⟨hfirst, hsorted⟩ := List.pairwise_cons.1 hsorted
      obtain ⟨hdisjoint, hapart⟩ := List.pairwise_cons.1 hapart
      obtain ⟨hin, hinside⟩ := List.forall_mem_cons.1 hinside
      obtain ⟨hbehind, hprior⟩ := List.forall_mem_cons.1 hprior
      refine ⟨hin, hbehind, ih hsorted hinside hapart fun s hs hsome => ?_⟩
      split
      · exact hprior s hs hsome
      · next hne =>
          have horder : r.offset.toNat ≤ s.offset.toNat := UInt64.le_iff_toNat_le.1 (hfirst s hs)
          have hpositive : 0 < s.after.length := List.length_pos_iff.2 hsome
          rcases hdisjoint s hs with h | h | h | h
          · exact absurd h hne
          · exact absurd h hsome
          · exact h
          · unfold BlobRangePatch.stop at h
            omega

/-- Ranges that fit one behind the other are apart and inside. -/
theorem apart_of_fits {length prior : Nat} {ordered : List BlobRangePatch}
    (h : Fits length prior ordered) : (∀ r ∈ ordered, r.stop ≤ length) ∧
      ordered.Pairwise BlobRangePatch.Apart ∧
      ∀ r ∈ ordered, r.after ≠ [] → prior ≤ r.offset.toNat := by
  induction ordered generalizing prior with
  | nil => exact ⟨nofun, .nil, nofun⟩
  | cons r rest ih =>
      obtain ⟨hin, hbehind, hrest⟩ := h
      obtain ⟨hinside, hapart, hprior⟩ := ih hrest
      refine ⟨List.forall_mem_cons.2 ⟨hin, hinside⟩,
        List.pairwise_cons.2 ⟨fun s hs => ?_, hapart⟩,
        List.forall_mem_cons.2 ⟨hbehind, fun s hs hsome => ?_⟩⟩
      · by_cases hempty : r.after = []
        · exact .inl hempty
        · by_cases hsome : s.after = []
          · exact .inr (.inl hsome)
          · have hstop := hprior s hs hsome
            rw [if_neg hempty] at hstop
            exact .inr (.inr (.inl hstop))
      · have hstop := hprior s hs hsome
        split at hstop
        · exact hstop
        · next hne =>
            have hfirst := hbehind hne
            unfold BlobRangePatch.stop at hstop
            omega

/-- What is to be the case for ranges to be exchanged: a database that is not read only, names that
are BLOB identifiers, and ranges that fit the value. -/
def Accepts (c : Connection ρ) (place : BlobPlace) (value : Bytes) (ranges : List BlobRangePatch) :
    Prop :=
  c.readOnly = false ∧ validBlobNames place = true ∧ Acceptable c.limit value ranges

/-- The part that only reads accepts the ranges that fit the value, and no others. The tests of the
source are taken in their order, and what has passed them is what makes the ranges acceptable. -/
theorem compareBlobRanges_reads {S : RangeSort} {ranges : List BlobRangePatch}
    (hdone : allowed .done) (he : c.handle = some e)
    (hvalue : e.content.blobs place = some value) (hopen : c.inTransaction = true) :
    Meets allowed (compareBlobRanges S place ranges) c
      (Reads allowed c e (Accepts c place value ranges) fun result =>
        Accepts c place value ranges ∧ result.1 = (ranges.map (·.after.length)).sum ∧
          result.2.1 = S.sort ranges ∧ result.2.2 = changesAny (S.sort ranges)) := by
  have hbound := e.content.bounded place value hvalue
  have hmem : ∀ r, r ∈ S.sort ranges ↔ r ∈ ranges := fun r => (S.perm ranges).mem_iff
  have hhandle : c.handle.isNone = false := by rw [he]; rfl
  refine Reads.bind (P := fun _ => True) ?_ fun _ _ => ?_
  · refine Reads.bind (Reads.state (P := fun c' => c' = c) rfl) fun c' hc' => ?_
    subst hc'
    exact Reads.imp (Reads.failIf fun _ => by rw [hhandle]; simp) fun _ _ => trivial
  refine Reads.bind (Reads.failIf fun hA => by rw [hA.2.1]; simp) fun _ hnames => ?_
  refine Reads.bind (Reads.state (P := fun c' => c' = c) rfl) fun c' hc' => ?_
  subst hc'
  refine Reads.bind (Reads.failIf fun hA => by rw [hA.1]; simp) fun _ hwritable => ?_
  refine Reads.bind (Reads.failIf fun _ => by rw [hopen]; simp) fun _ _ => ?_
  refine Reads.bind (Reads.failIf fun hA => ?_) fun _ hcount => ?_
  · have hboth := hA.2.2.count
    omega
  refine Reads.bind (compareSizes_reads c'.limit.isLt (Nat.zero_le _)
    fun hA => ⟨hA.2.2.sizes, by rw [Nat.zero_add]; exact hA.2.2.total⟩) fun total htotal => ?_
  rw [Nat.zero_add] at htotal
  obtain ⟨htotal, hlimit, hsizes⟩ := htotal
  refine Reads.bind (Reads.openBlob hdone he hvalue) fun length hlength => ?_
  subst hlength
  refine Reads.bind (checkRange_reads hbound fun hA => ?_) fun state hstate => ?_
  · refine fits_of_apart (S.sorted ranges) (fun r hr => hA.2.2.inside r ((hmem r).1 hr)) ?_
      fun r _ _ => Nat.zero_le _
    exact (S.perm ranges).symm.pairwise hA.2.2.apart fun h => h.symm
  obtain ⟨hchanges, hfits⟩ := hstate
  obtain ⟨hinside, hapart, -⟩ := apart_of_fits hfits
  have hcompare : ∀ l : List BlobRangePatch, (∀ r ∈ l, r ∈ ranges) →
      Meets allowed (l.forM fun range => compareRange place range range.before.length 0) c'
        (Reads allowed c' e (Accepts c' place value ranges) fun _ => ∀ r ∈ l,
          (value.drop r.offset.toNat).take r.before.length = r.before) := by
    intro l hl
    induction l with
    | nil => exact Reads.pure nofun
    | cons r l ih =>
        obtain ⟨hr, hl⟩ := List.forall_mem_cons.1 hl
        refine Reads.bind (compareRange_reads hdone he hvalue (hsizes r hr)
          (hinside r ((hmem r).2 hr)) (fun hA => hA.2.2.same r hr) _ 0 (by omega)) fun _ hsame => ?_
        exact Reads.imp (ih hl) fun _ hrest => List.forall_mem_cons.2 ⟨hsame, hrest⟩
  refine Reads.bind (hcompare _ fun r hr => (hmem r).1 hr) fun _ hsame => ?_
  refine Reads.bind (Reads.closeBlob hdone he) fun _ _ => Reads.pure
    ⟨⟨Bool.eq_false_iff.2 hwritable, Bool.eq_true_of_not_eq_false hnames, ?_, hsizes, ?_, ?_, ?_,
      ?_⟩, htotal, rfl, ?_⟩
  · omega
  · exact htotal ▸ hlimit
  · exact fun r hr => hinside r ((hmem r).2 hr)
  · exact (S.perm ranges).pairwise hapart fun h => h.symm
  · exact fun r hr => hsame r ((hmem r).2 hr)
  · rw [hchanges, Bool.false_or]

/-! ## What writes -/

/-- The connection while ranges are written: the engine has a savepoint with what was there. -/
def writing (c : Connection ρ) (e : Engine (Content ρ)) (w : Content ρ) : Connection ρ :=
  c.withEngine { e with content := w, savepoint := some e.content }

/-- A content that differs in one value. -/
structure Patched (before : Content ρ) (place : BlobPlace) (value : Bytes) (after : Content ρ) :
    Prop where
  rest : after.rest = before.rest
  others : ∀ p, p ≠ place → after.blobs p = before.blobs p
  value : after.blobs place = some value

/-- Writing to a patched blob patches it further and leaves the other blobs. -/
theorem Patched.write {before after : Content ρ} (h : Patched before place value after)
    (offset : Nat) (bytes : Bytes) :
    Patched before place (overwrite value offset bytes) (after.write place offset bytes) := by
  refine ⟨h.rest, fun p hp => ?_, ?_⟩
  · exact (if_neg hp).trans (h.others p hp)
  · show (if place = place then _ else _) = _
    rw [if_pos rfl, h.value, Option.map_some]

/-- A part that writes gives a content as `P` says. It fails when a call of the engine does, and
then leaves any content, or the engine has taken the whole transaction back. -/
def Writes (allowed : Answer Failure → Prop) (c : Connection ρ) (e : Engine (Content ρ))
    (P : β → Content ρ → Prop) : Except Error β → Connection ρ → Prop
  | .ok b, c' => ∃ w, c' = writing c e w ∧ P b w
  | .error _, c' => ((∃ w, c' = writing c e w) ∨ c' = c.withEngine e.rollback) ∧ ¬ OnlyDone allowed

namespace Writes

variable {P : β → Content ρ → Prop} {w : Content ρ}

/-- A part that writes is followed by another, which starts from what the first has written. -/
theorem bind {p : Call ρ β} {f : β → Call ρ γ} {Q : γ → Content ρ → Prop} {c₀ : Connection ρ}
    (h : Meets allowed p c₀ (Writes allowed c e P))
    (h' : ∀ b w, P b w → Meets allowed (f b) (writing c e w) (Writes allowed c e Q)) :
    Meets allowed (p >>= f) c₀ (Writes allowed c e Q) := by
  refine .bind (h.imp fun r c' hr => ⟨fun b hb => ?_, fun error herror => ?_⟩)
  · subst hb
    obtain ⟨w, rfl, hP⟩ := hr
    exact h' b w hP
  · subst herror
    exact hr

/-- Returning a value writes nothing. -/
theorem pure {b : β} (h : P b w) :
    Meets allowed (Pure.pure b) (writing c e w) (Writes allowed c e P) := .pure ⟨w, rfl, h⟩

/-- The whole transaction taken back, from where ranges are written. -/
theorem rollback_writing (hopen : e.number ≠ none) :
    (Engine.rollback { e with content := w, savepoint := some e.content }) = e.rollback := by
  unfold Engine.number at hopen
  unfold Engine.rollback
  cases hopened : e.opened with
  | none =>
      rw [hopened] at hopen
      exact absurd rfl hopen
  | some => rfl

/-- A part that only reads, between the writes. -/
theorem reads {p : Call ρ β} {P : β → Prop} (hopen : e.number ≠ none)
    (h : Meets allowed p (writing c e w)
      (Reads allowed (writing c e w) { e with content := w, savepoint := some e.content } True P)) :
    Meets allowed p (writing c e w) (Writes allowed c e fun b w' => w' = w ∧ P b) := by
  refine h.imp fun r c' hr => ?_
  cases r with
  | ok b => exact ⟨w, hr.1, rfl, hr.2⟩
  | error =>
      refine ⟨?_, fun honly => hr.2 honly trivial⟩
      rcases hr.1 with hsame | hback
      · exact .inl ⟨w, hsame⟩
      · refine .inr ?_
        rw [hback, rollback_writing hopen]
        rfl

/-- Writing within the blob overwrites its bytes at that place, or fails with an answer other than
`done`. -/
theorem writeBlob {bytes u : Bytes} {count offset : Nat} (hdone : allowed .done)
    (hopen : e.number ≠ none) (hw : Patched e.content place u w) (h : offset + count ≤ u.length) :
    Meets allowed (Sql.writeBlob place count offset bytes) (writing c e w)
      (Writes allowed c e fun _ w' => Patched e.content place (overwrite u offset bytes) w') := by
  refine .call hdone fun a ha => ?_
  cases a with
  | done =>
      dsimp only [writing, Connection.withEngine]
      rw [hw.value]
      dsimp only
      rw [if_neg (by omega)]
      exact ⟨_, rfl, hw.write offset bytes⟩
  | failed f => exact ⟨.inl ⟨_, rfl⟩, fun honly => by cases honly _ ha⟩
  | aborted f =>
      refine ⟨.inr ?_, fun honly => by cases honly _ ha⟩
      show (writing c e w).withEngine (Engine.rollback _) = _
      rw [rollback_writing hopen]
      rfl

/-- The writes of one range: its bytes are written over, and the number of those that differ is
given. -/
theorem writeRuns {before after u : Bytes} {offset : Nat} (hdone : allowed .done)
    (hopen : e.number ≠ none) (hlength : u.length < 2 ^ 31)
    (hsizes : before.length = after.length) (hinside : offset + after.length ≤ u.length)
    (hsame : ∀ k < after.length, u[offset + k]? = before[k]?) (fuel cursor written : Nat)
    (hcursor : cursor ≤ after.length) (hfuel : after.length - cursor ≤ fuel)
    (hw : Patched e.content place (overwrite u offset (after.take cursor)) w) :
    Meets allowed (Sql.writeRuns place offset before after fuel cursor written) (writing c e w)
      (Writes allowed c e fun n w' =>
        n = written + differing (before.drop cursor) (after.drop cursor) ∧
          Patched e.content place (overwrite u offset after) w') := by
  have hend : ∀ {cursor written : Nat} {w : Content ρ}, after.length ≤ cursor →
      Patched e.content place (overwrite u offset (after.take cursor)) w →
      Meets allowed (Pure.pure written) (writing c e w) (Writes allowed c e fun n w' =>
        n = written + differing (before.drop cursor) (after.drop cursor) ∧
          Patched e.content place (overwrite u offset after) w') := by
    intro cursor written w hle hw
    refine pure ⟨?_, ?_⟩
    · rw [List.drop_eq_nil_of_le hle, differing, List.zip_nil_right]
      rfl
    · rwa [List.take_of_length_le hle] at hw
  induction fuel generalizing cursor written w with
  | zero => exact hend (by omega) hw
  | succ fuel ih =>
      unfold Sql.writeRuns
      split
      · next hle => exact hend hle hw
      · next hmore =>
          have hlt : cursor < after.length := by omega
          split
          · next hequal =>
              -- the byte stands there already
              refine (ih (cursor + 1) written (by omega) (by omega) ?_).imp fun r c' hr => ?_
              · have hbyte : (overwrite u offset (after.take cursor))[offset + cursor]?
                    = some after[cursor] := by
                  rw [getElem?_overwrite, if_neg (by rw [List.length_take]; omega),
                    hsame cursor hlt, hequal, List.getElem?_eq_getElem hlt]
                have hnext := overwrite_same hbyte
                have hwritten : (after.take cursor).length = cursor := by
                  rw [List.length_take]
                  omega
                rw [List.take_succ_eq_append_getElem hlt, ← overwrite_append, hwritten, hnext]
                exact hw
              · rw [differing_cons (by omega) hlt hequal]
                exact hr
          · next hdiffers =>
              have hrun := runLength_le (before.drop cursor) (after.drop cursor)
              have hpositive := runLength_pos (by omega) hlt hdiffers
              rw [List.length_drop] at hrun
              have hwrittenLength := length_overwrite u offset (after.take cursor)
              refine bind (reads hopen (Reads.toInt (by omega))) fun count w₁ h₁ => ?_
              obtain ⟨rfl, rfl⟩ := h₁
              refine bind (reads hopen (Reads.add64 (by omega))) fun start w₂ h₂ => ?_
              obtain ⟨rfl, rfl⟩ := h₂
              refine bind (reads hopen (Reads.toInt (by omega))) fun start w₃ h₃ => ?_
              obtain ⟨rfl, rfl⟩ := h₃
              refine bind (writeBlob hdone hopen hw (by omega)) fun _ w₄ h₄ => ?_
              have hwritten : (after.take cursor).length = cursor := by
                rw [List.length_take]
                omega
              refine (ih _ _ (by omega) (by omega) ?_).imp fun r c' hr => ?_
              · rw [List.take_add, ← overwrite_append, hwritten]
                exact h₄
              · have hall := differing_run (before.drop cursor) (after.drop cursor)
                rw [List.drop_drop, List.drop_drop] at hall
                rw [hall, ← Nat.add_assoc]
                exact hr

/-- The writes of ranges that fit, behind those that are written. The induction is on the ranges
that are left, each of which is apart from those that are written. -/
theorem ranges {todo : List BlobRangePatch} (before : List BlobRangePatch) {u : Bytes}
    {written : Nat} (hdone : allowed .done) (hopen : e.number ≠ none)
    (hlength : value.length < 2 ^ 31)
    (hsizes : ∀ r ∈ todo, r.before.length = r.after.length)
    (hinside : ∀ r ∈ todo, r.stop ≤ value.length)
    (hsame : ∀ r ∈ todo, (value.drop r.offset.toNat).take r.before.length = r.before)
    (hapart : (before ++ todo).Pairwise BlobRangePatch.Apart) (hu : Splices value before u)
    (hw : Patched e.content place u w) :
    Meets allowed (todo.foldlM (fun written range => do
        let count ← Sql.writeRuns place range.offset.toNat range.before range.after
          range.after.length 0 0
        Pure.pure (written + count)) written) (writing c e w)
      (Writes allowed c e fun n w' =>
        n = written + (todo.map fun r => differing r.before r.after).sum ∧
          ∃ u', Splices value (before ++ todo) u' ∧ Patched e.content place u' w') := by
  induction todo generalizing before u w written with
  | nil => exact pure ⟨rfl, u, by rwa [List.append_nil], hw⟩
  | cons r todo ih =>
      obtain ⟨hsize, hsizes⟩ := List.forall_mem_cons.1 hsizes
      obtain ⟨hin, hinside⟩ := List.forall_mem_cons.1 hinside
      obtain ⟨heq, hsame⟩ := List.forall_mem_cons.1 hsame
      have hbeside : ∀ s ∈ before, s.Apart r := fun s hs =>
        (List.pairwise_append.1 hapart).2.2 s hs r List.mem_cons_self
      have hstop : r.offset.toNat + r.after.length ≤ u.length := by
        rw [hu.length]
        exact hin
      have hbytes : ∀ k < r.after.length, u[r.offset.toNat + k]? = r.before[k]? := by
        intro k hk
        rw [hu.unchanged hbeside hk, ← heq, List.getElem?_take_of_lt (by omega),
          List.getElem?_drop]
      have hstart : Patched e.content place (overwrite u r.offset.toNat (r.after.take 0)) w := by
        rw [List.take_zero, overwrite_nil]
        exact hw
      refine bind (P := fun n w' => n = written + differing r.before r.after ∧
        Patched e.content place (overwrite u r.offset.toNat r.after) w') ?_ fun n w₁ h₁ => ?_
      · refine bind (writeRuns hdone hopen (hu.length ▸ hlength) hsize hstop hbytes _ 0 0
          (Nat.zero_le _) (by omega) hstart) fun n w₁ h₁ => pure ⟨?_, h₁.2⟩
        rw [h₁.1, Nat.zero_add]
        rfl
      · obtain ⟨rfl, hw₁⟩ := h₁
        have hmore : (before ++ [r]) ++ todo = before ++ r :: todo := by
          rw [List.append_assoc, List.singleton_append]
        refine (ih (before ++ [r]) hsizes hinside hsame (hmore ▸ hapart)
          (hu.snoc hin hbeside) hw₁).imp fun n c' hr => ?_
        rw [hmore] at hr
        rw [List.map_cons, List.sum_cons, ← Nat.add_assoc]
        exact hr

end Writes

/-- The loop over the ranges writes each of them, so the blob ends as all of them say, by induction
on the ranges. -/
theorem writeRanges_writes {ordered : List BlobRangePatch} (hdone : allowed .done)
    (hopen : e.number ≠ none) (hvalue : e.content.blobs place = some value)
    (hsizes : ∀ r ∈ ordered, r.before.length = r.after.length)
    (hinside : ∀ r ∈ ordered, r.stop ≤ value.length)
    (hsame : ∀ r ∈ ordered, (value.drop r.offset.toNat).take r.before.length = r.before)
    (hapart : ordered.Pairwise BlobRangePatch.Apart) :
    Meets allowed (writeRanges place ordered) (writing c e e.content)
      (Writes allowed c e fun n w => n = (ordered.map fun r => differing r.before r.after).sum ∧
        ∃ u, Splices value ordered u ∧ Patched e.content place u w) := by
  have hbound := e.content.bounded place value hvalue
  refine Writes.bind (Writes.reads hopen (Reads.openBlob hdone rfl hvalue)) fun _ w h => ?_
  obtain ⟨rfl, -⟩ := h
  refine Writes.bind (Writes.ranges [] hdone hopen hbound hsizes hinside hsame hapart
    (.nil value) ⟨rfl, fun _ _ => rfl, hvalue⟩) fun n w h => ?_
  refine Writes.bind (Writes.reads hopen (Reads.closeBlob hdone rfl)) fun _ w' hw' => ?_
  obtain ⟨rfl, -⟩ := hw'
  refine Writes.pure ⟨?_, h.2⟩
  rw [h.1, Nat.zero_add]

/-! ## What becomes of a failure -/

/-- What a failure leaves: no connection, or the whole transaction taken back, or what was there. -/
inductive Disposed (e : Engine (Content ρ)) (c' : Connection ρ) : Prop where
  | invalidated : c'.handle = none → Disposed e c'
  | rolledBack {e' : Engine (Content ρ)} : c'.handle = some e' → e'.opened = none →
      some e'.content = e.opened.map (·.2) → Disposed e c'
  | restored {e' : Engine (Content ρ)} : c'.handle = some e' → e'.content = e.content →
      e'.opened = e.opened → Disposed e c'

/-- A connection whose writes are to be taken back. -/
inductive Unsettled (e : Engine (Content ρ)) (c' : Connection ρ) : Prop where
  | held {e' : Engine (Content ρ)} : c'.handle = some e' → e'.opened = e.opened →
      e'.savepoint = some e.content → Unsettled e c'
  | gone {e' : Engine (Content ρ)} : c'.handle = some e' → e'.opened = none →
      some e'.content = e.opened.map (·.2) → Unsettled e c'

/-- Whether an exchange is disposed of depends on the handle alone. -/
theorem Disposed.of_handle {c₁ c₂ : Connection ρ} (h : Disposed e c₁)
    (hhandle : c₂.handle = c₁.handle) : Disposed e c₂ := by
  cases h with
  | invalidated hnone => exact .invalidated (hhandle.trans hnone)
  | rolledBack he hopened hcontent => exact .rolledBack (hhandle.trans he) hopened hcontent
  | restored he hcontent hopened => exact .restored (hhandle.trans he) hcontent hopened

/-- Rolling back restores the content that the transaction began with. -/
theorem rolledBack_content (hopen : e.number ≠ none) {e' : Engine (Content ρ)}
    (hopened : e'.opened = e.opened) : some e'.rollback.content = e.opened.map (·.2) := by
  unfold Engine.number at hopen
  unfold Engine.rollback
  rw [hopened]
  cases h : e.opened with
  | none =>
      rw [h] at hopen
      exact absurd rfl hopen
  | some => rfl

/-- SQLite reports autocommit exactly when no transaction is open. -/
theorem autocommit_of_opened {c' : Connection ρ} {e' : Engine (Content ρ)}
    (he' : c'.handle = some e') : c'.autocommit = true ↔ e'.opened = none := by
  rw [autocommit_eq_true]
  unfold Connection.number
  rw [he']
  exact Option.map_eq_none_iff

/-- A `ROLLBACK` that succeeds rolls the engine back. -/
theorem run_rollback {e' e'' : Engine (Content ρ)} {u : Unit}
    (h : Statement.rollback.run e' = .ok (u, e'')) : e'' = e'.rollback := by
  have h : (if e'.number.isSome = true then .ok ((), e'.rollback)
    else .error "cannot rollback - no transaction is active" : Except String _) = .ok (u, e'') := h
  split at h
  · cases h
    rfl
  · cases h

/-- Rolling everything back disposes of an unsettled exchange, and does not throw. The rollback is
tried, and where it fails with the transaction still open the connection is invalidated. -/
theorem rollbackAll_disposes (hdone : allowed .done) (hopen : e.number ≠ none)
    {c' : Connection ρ} (h : Unsettled e c') :
    Meets allowed BlobSavepoint.rollbackAll c' fun r c'' =>
      (∃ b, r = .ok b) ∧ Disposed e c'' ∧ c''.wrapped = c'.wrapped := by
  have hend : ∀ {result : Except Error Unit} {c₁ : Connection ρ}, c₁.wrapped = c'.wrapped →
      (result.isOk = true ∨ c₁.autocommit = true → Disposed e c₁) →
      Meets allowed (do
        if result.isOk = true ∨ (← state).autocommit = true then do
          set fun c => { c with transaction := 0 }
          pure true
        else do
          set Connection.invalidate
          pure false) c₁ fun (r : Except Error Bool) c'' =>
            (∃ b, r = .ok b) ∧ Disposed e c'' ∧ c''.wrapped = c'.wrapped := by
    intro result c₁ hwrapped hdisposed
    refine .bind (.state ⟨fun c₂ hc₂ => ?_, nofun⟩)
    obtain rfl := Except.ok.inj hc₂
    split
    · next hback =>
        exact .bind (.modify ⟨fun _ _ =>
          .pure ⟨⟨true, rfl⟩, (hdisposed hback).of_handle rfl, hwrapped⟩, nofun⟩)
    · exact .bind (.modify ⟨fun _ _ =>
        .pure ⟨⟨false, rfl⟩, .invalidated rfl, hwrapped⟩, nofun⟩)
  refine .bind (.attempt ?_)
  cases h with
  | @held e' he' hopened hsavepoint =>
      have hnot : c'.autocommit ≠ true := by
        rw [ne_eq, autocommit_of_opened he', hopened]
        rintro hnone
        exact hopen (by unfold Engine.number; rw [hnone]; rfl)
      have hback := rolledBack_content hopen hopened
      have hsettled : Disposed e (c'.withEngine e'.rollback) := .rolledBack rfl rfl hback
      refine engine_meets hdone he' (fun b e'' hrun => ?_) (fun m _ => ?_) (fun _ error => ?_)
        (fun _ error => ?_)
      · refine ⟨fun result hresult => hend rfl fun _ => ?_, nofun⟩
        rw [run_rollback hrun]
        exact hsettled
      · refine ⟨fun result hresult => hend rfl fun hor => ?_, nofun⟩
        obtain rfl := Except.ok.inj hresult
        exact absurd (hor.resolve_left nofun) hnot
      · refine ⟨fun result hresult => hend rfl fun hor => ?_, nofun⟩
        obtain rfl := Except.ok.inj hresult
        exact absurd (hor.resolve_left nofun) hnot
      · exact ⟨fun result _ => hend rfl fun _ => hsettled, nofun⟩
  | @gone e' he' hopened hcontent =>
      have hsettled : Disposed e c' := .rolledBack he' hopened hcontent
      have hsame : e'.rollback.content = e'.content := by
        unfold Engine.rollback
        rw [hopened]
        rfl
      have hsettled' : Disposed e (c'.withEngine e'.rollback) :=
        .rolledBack rfl rfl (hsame ▸ hcontent)
      refine engine_meets hdone he' (fun b e'' hrun => ?_) (fun m _ => ?_) (fun _ error => ?_)
        (fun _ error => ?_)
      · refine ⟨fun result hresult => hend rfl fun _ => ?_, nofun⟩
        rw [run_rollback hrun]
        exact hsettled'
      · exact ⟨fun result _ => hend rfl fun _ => hsettled, nofun⟩
      · exact ⟨fun result _ => hend rfl fun _ => hsettled, nofun⟩
      · exact ⟨fun result _ => hend rfl fun _ => hsettled', nofun⟩

/-- What a rollback to the savepoint comes to. If the savepoint is released the transaction is as it
was, and a failure in between leaves it unsettled. -/
theorem undo_meets (hdone : allowed .done) (hopen : e.number ≠ none) {c' : Connection ρ}
    {e' : Engine (Content ρ)} (he' : c'.handle = some e') (hopened : e'.opened = e.opened)
    (hsavepoint : e'.savepoint = some e.content) :
    Meets allowed (do BlobSavepoint.rollbackTo; BlobSavepoint.release : Call ρ Unit) c'
      fun r c'' => c''.wrapped = c'.wrapped ∧
        ((r.isOk = true → Disposed e c'') ∧ (r.isOk = false → Unsettled e c'')) := by
  have hback : ∀ {e₁ : Engine (Content ρ)}, e₁.opened = e.opened →
      Unsettled e (c'.withEngine e₁.rollback) := fun h =>
    .gone rfl rfl (rolledBack_content hopen h)
  have hsome : e'.savepoint.isSome = true := by rw [hsavepoint]; rfl
  refine .bind (engine_meets hdone he' (fun u e₁ hrun => ⟨fun b _ => ?_, nofun⟩)
    (fun m hrun => ?_) (fun _ error => ?_) fun _ error => ?_)
  · rw [if_pos hsome] at hrun
    cases hrun
    have hcontent : e'.rollbackTo.content = e.content := by
      unfold Engine.rollbackTo
      rw [hsavepoint]
      rfl
    have hsome' : e'.rollbackTo.savepoint.isSome = true := hsome
    refine engine_meets hdone rfl (fun u e₂ hrun => ?_) (fun m hrun => ?_) (fun _ error => ?_)
      fun _ error => ?_
    · rw [if_pos hsome'] at hrun
      cases hrun
      exact ⟨rfl, fun _ => .restored rfl hcontent hopened, nofun⟩
    · rw [if_pos hsome'] at hrun
      cases hrun
    · exact ⟨rfl, nofun, fun _ => .held rfl hopened hsavepoint⟩
    · exact ⟨rfl, nofun, fun _ => .gone rfl rfl
        (rolledBack_content hopen hopened)⟩
  · rw [if_pos hsome] at hrun
    cases hrun
  · exact ⟨nofun, fun _ _ => ⟨rfl, nofun, fun _ => .held he' hopened hsavepoint⟩⟩
  · exact ⟨nofun, fun _ _ => ⟨rfl, nofun, fun _ => hback hopened⟩⟩

/-- **A rollback to the savepoint settles what was written.** -/
theorem rollback_disposes (hdone : allowed .done) (hopen : e.number ≠ none) {c' : Connection ρ}
    (h : Unsettled e c') : Meets allowed BlobSavepoint.rollback c' fun r c'' =>
      (∃ b, r = .ok b) ∧ Disposed e c'' ∧ c''.wrapped = c'.wrapped := by
  have hall : ∀ {c₁ : Connection ρ}, c₁.wrapped = c'.wrapped → Unsettled e c₁ →
      Meets allowed BlobSavepoint.rollbackAll c₁ fun r c'' =>
        (∃ b, r = .ok b) ∧ Disposed e c'' ∧ c''.wrapped = c'.wrapped := by
    intro c₁ hwrapped hunsettled
    refine (rollbackAll_disposes hdone hopen hunsettled).imp fun r c'' hr => ?_
    exact ⟨hr.1, hr.2.1, hr.2.2.trans hwrapped⟩
  refine .bind (.state ⟨fun c₁ hc₁ => ?_, nofun⟩)
  obtain rfl := Except.ok.inj hc₁
  split
  · next hauto =>
      -- the engine has taken the transaction back by itself
      refine .bind (.modify ⟨fun _ _ => .pure ⟨⟨true, rfl⟩, ?_, rfl⟩, nofun⟩)
      cases h with
      | held he' hopened _ =>
          have hnone := (autocommit_of_opened he').1 hauto
          rw [hopened] at hnone
          exact absurd (by unfold Engine.number; rw [hnone]; rfl) hopen
      | gone he' hopened hcontent => exact .rolledBack he' hopened hcontent
  · next hopened' =>
      cases h with
      | held he' hopened hsavepoint =>
          refine .bind (.attempt ((undo_meets hdone hopen he' hopened hsavepoint).imp
            fun r c₂ hr => ⟨fun undone hundone => ?_, nofun⟩))
          obtain rfl := Except.ok.inj hundone
          split
          · next hok => exact .pure ⟨⟨true, rfl⟩, hr.2.1 hok, hr.1⟩
          · next hfailed => exact hall hr.1 (hr.2.2 (Bool.eq_false_iff.2 hfailed))
      | gone he' hnone _ => exact absurd ((autocommit_of_opened he').2 hnone) hopened'

/-! ## The exchange -/

/-- What `compare_exchange_blob_ranges` comes to: with a result, the value with the ranges spliced
in; with an error, what is disposed of. -/
def Exchanges (allowed : Answer Failure → Prop) (c : Connection ρ) (e : Engine (Content ρ))
    (P : β → Content ρ → Prop) : Except Error β → Connection ρ → Prop
  | .ok b, c' => c'.wrapped = c.wrapped ∧ ∃ e', c'.handle = some e' ∧ e'.opened = e.opened ∧
      P b e'.content
  | .error _, c' => c'.wrapped = c.wrapped ∧ Disposed e c' ∧ ¬ OnlyDone allowed

/-- An exchange that throws while it writes is unsettled, and some answer was not `done`. -/
theorem Writes.unsettled {P : β → Content ρ → Prop} {error : Error} {c' : Connection ρ}
    (hopen : e.number ≠ none) (h : Writes allowed c e P (.error error) c') :
    Unsettled e c' ∧ c'.wrapped = c.wrapped ∧ ¬ OnlyDone allowed := by
  obtain ⟨⟨w, rfl⟩ | rfl, hnot⟩ := h
  · exact ⟨.held rfl rfl rfl, rfl, hnot⟩
  · exact ⟨.gone rfl rfl (rolledBack_content hopen rfl), rfl, hnot⟩

/-- The part between the savepoint and its release writes all ranges or leaves the exchange
unsettled. -/
theorem exchange_meets {ordered : List BlobRangePatch} (hdone : allowed .done)
    (hopen : e.number ≠ none) (hvalue : e.content.blobs place = some value)
    (hsizes : ∀ r ∈ ordered, r.before.length = r.after.length)
    (hinside : ∀ r ∈ ordered, r.stop ≤ value.length)
    (hsame : ∀ r ∈ ordered, (value.drop r.offset.toNat).take r.before.length = r.before)
    (hapart : ordered.Pairwise BlobRangePatch.Apart) :
    Meets allowed (exchange place ordered) (writing c e e.content)
      (Exchanges allowed c e fun n w => n = (ordered.map fun r => differing r.before r.after).sum ∧
        ∃ u, Splices value ordered u ∧ Patched e.content place u w) := by
  have hwrites := writeRanges_writes (c := c) hdone hopen hvalue hsizes hinside hsame hapart
  refine .bind (.attempt (hwrites.imp fun r c₁ hr => ⟨fun result hresult => ?_, nofun⟩))
  obtain rfl := Except.ok.inj hresult
  have hundo : ∀ {c₂ : Connection ρ} (f : Bool → Error), Unsettled e c₂ →
      c₂.wrapped = c.wrapped → ¬ OnlyDone allowed →
      Meets allowed (BlobSavepoint.rollback >>= fun undone => fail (f undone)) c₂
        (Exchanges allowed c e fun (n : Nat) w =>
          n = (ordered.map fun r => differing r.before r.after).sum ∧
            ∃ u, Splices value ordered u ∧ Patched e.content place u w) := by
    intro c₂ f hunsettled hwrapped hnot
    refine .bind ((rollback_disposes hdone hopen hunsettled).imp fun r c₃ hr => ?_)
    obtain ⟨-, hdisposed, hwrapped'⟩ := hr
    exact ⟨fun _ _ => .fail ⟨hwrapped'.trans hwrapped, hdisposed, hnot⟩,
      fun _ _ => ⟨hwrapped'.trans hwrapped, hdisposed, hnot⟩⟩
  cases r with
  | error error =>
      obtain ⟨hunsettled, hwrapped, hnot⟩ := hr.unsettled hopen
      exact hundo _ hunsettled hwrapped hnot
  | ok written =>
      obtain ⟨w, rfl, hP⟩ := hr
      refine .bind (.attempt (engine_meets
        (e := { e with content := w, savepoint := some e.content })
        hdone rfl (fun u e' hrun => ⟨fun result hresult => ?_, nofun⟩) (fun m hrun => ?_)
        (fun hnot error => ⟨fun result hresult => ?_, nofun⟩)
        fun hnot error => ⟨fun result hresult => ?_, nofun⟩))
      · obtain rfl := Except.ok.inj hresult
        cases hrun
        exact .pure ⟨rfl, _, rfl, rfl, hP⟩
      · cases hrun
      · obtain rfl := Except.ok.inj hresult
        exact hundo (fun _ => error) (.held rfl rfl rfl) rfl hnot
      · obtain rfl := Except.ok.inj hresult
        refine hundo (fun _ => error) (.gone rfl rfl ?_) rfl hnot
        exact rolledBack_content hopen rfl

/-- A text differs nowhere from itself. -/
theorem differing_self (bytes : Bytes) : differing bytes bytes = 0 := by
  unfold differing
  induction bytes with
  | nil => rfl
  | cons b bytes ih => simpa using ih

/-- Ranges of which none changes something leave the value as it is. -/
theorem splices_of_unchanged {ranges : List BlobRangePatch} {limit : Nat}
    (h : Acceptable limit value ranges) (hchanges : ∀ r ∈ ranges, r.before = r.after) :
    Splices value ranges value := by
  refine ⟨rfl, fun r hr i hi => ?_, fun _ _ => rfl⟩
  obtain ⟨hlow, hhigh⟩ := hi
  unfold BlobRangePatch.stop at hhigh
  have hsame := h.same r hr
  have hsizes := h.sizes r hr
  rw [hchanges r hr] at hsame
  have hbyte := congrArg (fun l : Bytes => l[i - r.offset.toNat]?) hsame
  rw [List.getElem?_take_of_lt (by omega), List.getElem?_drop] at hbyte
  rwa [Nat.add_sub_cancel' hlow] at hbyte

/-- Where no range changes a byte, the exchange would write what is there. -/
theorem unchanged_of_not_changesAny {ranges : List BlobRangePatch} {limit : Nat}
    (h : Acceptable limit value ranges) {ordered : List BlobRangePatch}
    (hperm : ordered.Perm ranges) (hnone : changesAny ordered = false) :
    ∀ r ∈ ranges, r.before = r.after := by
  intro r hr
  have hr' := List.any_eq_false.1 hnone r (hperm.mem_iff.2 hr)
  by_cases hempty : r.after = []
  · have hlength := h.sizes r hr
    rw [hempty] at hlength ⊢
    exact List.length_eq_zero_iff.1 hlength
  · simpa [hempty] using hr'

/-- What an exchange gives and leaves: the numbers of bytes, and the value with every range spliced
in, in a transaction that is otherwise as it was. -/
structure Exchanged (e : Engine (Content ρ)) (place : BlobPlace) (value : Bytes)
    (ranges : List BlobRangePatch) (statistics : BlobPatchStatistics) (c' : Connection ρ) :
    Prop where
  compared : statistics.bytesCompared = (ranges.map (·.after.length)).sum
  written : statistics.bytesWritten = (ranges.map fun r => differing r.before r.after).sum
  left : ∃ e' u, c'.handle = some e' ∧ e'.opened = e.opened ∧ Splices value ranges u ∧
    Patched e.content place u e'.content

/-- What a call does, for any sort of the ranges and any answers of SQLite: it succeeds with all
ranges exchanged where it accepts them, and otherwise it throws with the content as before. -/
theorem compareExchangeBlobRanges_meets (allowed : Answer Failure → Prop) (S : RangeSort)
    (ranges : List BlobRangePatch) (hdone : allowed .done) (he : c.handle = some e)
    (hvalue : e.content.blobs place = some value) (hopen : c.inTransaction = true) :
    Meets allowed (compareExchangeBlobRanges S place ranges) c fun r c' =>
      c'.wrapped = c.wrapped ∧
      (∀ statistics, r = .ok statistics → Accepts c place value ranges ∧
        Exchanged e place value ranges statistics c') ∧
      ∀ error, r = .error error → Disposed e c' ∧
        (OnlyDone allowed → ¬ Accepts c place value ranges) := by
  have hnumber : e.number ≠ none := by
    unfold Connection.inTransaction at hopen
    rw [he] at hopen
    exact Option.isSome_iff_ne_none.1 hopen
  have hkept : Disposed e c := .restored he rfl rfl
  have hback : Disposed e (c.withEngine e.rollback) :=
    .rolledBack rfl rfl (rolledBack_content hnumber rfl)
  have hperm := S.perm ranges
  have hsum : ((S.sort ranges).map fun r => differing r.before r.after).sum
      = (ranges.map fun r => differing r.before r.after).sum := (hperm.map _).sum_eq
  have hbegin : Meets allowed (beginExchange S place ranges) c fun r c' =>
      c'.wrapped = c.wrapped ∧
      (∀ result, r = .ok result → Accepts c place value ranges ∧
        result.1 = (ranges.map (·.after.length)).sum ∧ result.2.1 = S.sort ranges ∧
        result.2.2 = changesAny (S.sort ranges) ∧
        c' = if result.2.2 = true then writing c e e.content else c) ∧
      ∀ error, r = .error error → Disposed e c' ∧
        (OnlyDone allowed → ¬ Accepts c place value ranges) := by
    refine .bind ((compareBlobRanges_reads (S := S) hdone he hvalue hopen).imp fun r c' hr => ?_)
    refine ⟨fun result hresult => ?_, fun error herror => ?_⟩
    · subst hresult
      obtain ⟨rfl, hA, hcompared, hsorted, hchanges⟩ := hr
      split
      · next hsome =>
          refine .bind (engine_meets hdone he (fun u e' hrun => ⟨fun _ _ => ?_, nofun⟩)
            (fun m hrun => ?_) (fun hnot error => ?_) fun hnot error => ?_)
          · cases hrun
            refine .pure ⟨rfl, fun result' hresult' => ?_, nofun⟩
            obtain rfl := Except.ok.inj hresult'
            refine ⟨hA, hcompared, hsorted, hchanges, ?_⟩
            rw [if_pos hsome]
            rfl
          · cases hrun
          · exact ⟨nofun, fun _ _ => ⟨rfl, nofun, fun _ _ =>
              ⟨hkept, fun honly => absurd honly hnot⟩⟩⟩
          · exact ⟨nofun, fun _ _ => ⟨rfl, nofun, fun _ _ =>
              ⟨hback, fun honly => absurd honly hnot⟩⟩⟩
      · next hnone =>
          refine .pure ⟨rfl, fun result' hresult' => ?_, nofun⟩
          obtain rfl := Except.ok.inj hresult'
          exact ⟨hA, hcompared, hsorted, hchanges, (if_neg hnone).symm⟩
    · subst herror
      obtain ⟨rfl | rfl, hnot⟩ := hr
      · exact ⟨rfl, nofun, fun _ _ => ⟨hkept, hnot⟩⟩
      · exact ⟨rfl, nofun, fun _ _ => ⟨hback, hnot⟩⟩
  refine .bind (hbegin.imp fun r c' hr => ?_)
  obtain ⟨hwrapped, hok, herror⟩ := hr
  refine ⟨fun result hresult => ?_, fun error h => ⟨hwrapped, nofun, fun e' he' => herror _ h⟩⟩
  obtain ⟨hA, hcompared, hsorted, hchanges, hc'⟩ := hok result hresult
  obtain ⟨compared, ordered, changes⟩ := result
  change ordered = S.sort ranges at hsorted
  change changes = changesAny (S.sort ranges) at hchanges
  subst hsorted
  have hunchanged := unchanged_of_not_changesAny hA.2.2 hperm
  dsimp only
  split
  · next hnone =>
      subst hnone
      obtain rfl : c' = c := hc'
      have hequal := hunchanged hchanges.symm
      refine .pure ⟨rfl, fun statistics hstatistics => ⟨hA, ?_⟩, nofun⟩
      obtain rfl := Except.ok.inj hstatistics
      refine ⟨hcompared, ?_, e, value, he, rfl, splices_of_unchanged hA.2.2 hequal, rfl,
        fun _ _ => rfl, hvalue⟩
      symm
      refine List.sum_eq_zero fun n hn => ?_
      obtain ⟨r, hr, rfl⟩ := List.mem_map.1 hn
      rw [hequal r hr, differing_self]
  · next hsome =>
      rw [if_pos (Bool.eq_true_of_not_eq_false hsome)] at hc'
      subst hc'
      have hfits := hA.2.2
      have hordered : ∀ r ∈ S.sort ranges, r ∈ ranges := fun r => hperm.mem_iff.1
      refine .bind ((exchange_meets (c := c) hdone hnumber hvalue
        (fun r hr => hfits.sizes r (hordered r hr)) (fun r hr => hfits.inside r (hordered r hr))
        (fun r hr => hfits.same r (hordered r hr))
        (hperm.symm.pairwise hfits.apart fun h => h.symm)).imp fun r c' hr => ?_)
      cases r with
      | error error =>
          obtain ⟨hwrapped', hdisposed, hnot⟩ := hr
          exact ⟨nofun, fun _ _ => ⟨hwrapped', nofun, fun _ _ =>
            ⟨hdisposed, fun honly => absurd honly hnot⟩⟩⟩
      | ok written =>
          obtain ⟨hwrapped', e', he', hopened, hwritten, u, hsplices, hpatched⟩ := hr
          refine ⟨fun written' h => .pure ⟨hwrapped', fun statistics hstatistics => ⟨hA, ?_⟩,
            nofun⟩, nofun⟩
          obtain rfl := Except.ok.inj h
          obtain rfl := Except.ok.inj hstatistics
          exact ⟨hcompared, hwritten.trans hsum, e', u, he', hopened, hsplices.perm hperm,
            hpatched⟩

/-- **Compare and exchange of ranges is atomic.** Inside a transaction, ranges are exchanged only if
they fit the value, and if no call of the engine fails then whenever they do. An exchange gives the
number of bytes compared and of bytes that differ, and leaves the value with every range spliced in.
An error leaves what was there, or the whole transaction is taken back, or the connection is given
up. No computation with sizes or offsets wraps. -/
theorem compareExchangeBlobRanges_atomic (S : RangeSort) (c : Connection ρ)
    (e : Engine (Content ρ)) (place : BlobPlace) (value : Bytes) (ranges : List BlobRangePatch)
    (he : c.handle = some e) (hvalue : e.content.blobs place = some value)
    (hopen : c.inTransaction = true) (answers : List (Answer Failure)) :
    let ended := compareExchangeBlobRanges S place ranges c answers
    (∀ statistics, ended.1 = .ok statistics →
      Accepts c place value ranges ∧ Exchanged e place value ranges statistics ended.2.1) ∧
    (∀ error, ended.1 = .error error → Disposed e ended.2.1) ∧
    ((∀ a ∈ answers, a = .done) → (ended.1.isOk = true ↔ Accepts c place value ranges)) ∧
    ended.2.1.wrapped = c.wrapped := by
  intro ended
  obtain ⟨⟨hwrapped, hok, herror⟩, -⟩ := compareExchangeBlobRanges_meets (fun _ => True) S ranges
    trivial he hvalue hopen answers fun _ _ => trivial
  refine ⟨hok, fun error h => (herror error h).1, fun hdone => ?_, hwrapped⟩
  obtain ⟨⟨-, hok, herror⟩, -⟩ := compareExchangeBlobRanges_meets (· = .done) S ranges rfl
    he hvalue hopen answers hdone
  change (∀ statistics, ended.1 = .ok statistics → _) at hok
  change (∀ error, ended.1 = .error error → _) at herror
  generalize ended.1 = result at hok herror
  cases result with
  | ok statistics => exact ⟨fun _ => (hok statistics rfl).1, fun _ => rfl⟩
  | error error => exact ⟨nofun, fun hA => absurd hA ((herror error rfl).2 fun _ ha => ha)⟩

/-! ### An exchange -/

def insertionRanges : RangeSort where
  sort := List.insertionSort fun a b => a.offset ≤ b.offset
  perm := List.perm_insertionSort _
  sorted := List.pairwise_insertionSort _

def samplePlace : BlobPlace := ⟨[116], [118], 1⟩

def sampleContent : Content Unit where
  blobs p := if p = samplePlace then some [1, 2, 3, 4, 5] else none
  rest := ()
  bounded p value h := by
    split at h
    · cases h
      decide
    · cases h

def sampleEngine : Engine (Content Unit) := ⟨sampleContent, some (0, sampleContent), none, 1⟩

def sampleConnection : Connection Unit :=
  ⟨some sampleEngine, 1, 1, Fin.last 2147483647, false, false⟩

/-- The three ranges of a value of five bytes are exchanged: four bytes are compared and three of
them differ. -/
theorem compareExchangeBlobRanges_atomic_sample : ∃ statistics c' l,
    compareExchangeBlobRanges insertionRanges samplePlace
      [⟨3, [4, 5], [4, 9]⟩, ⟨3, [], []⟩, ⟨0, [1, 2], [8, 7]⟩] sampleConnection []
      = (.ok statistics, c', l) ∧ statistics = ⟨4, 3⟩ ∧ c'.wrapped = false := by
  obtain ⟨hok, -, hiff, hwrapped⟩ := compareExchangeBlobRanges_atomic insertionRanges
    sampleConnection sampleEngine samplePlace [1, 2, 3, 4, 5]
    [⟨3, [4, 5], [4, 9]⟩, ⟨3, [], []⟩, ⟨0, [1, 2], [8, 7]⟩] rfl rfl rfl []
  have hA : Accepts sampleConnection samplePlace [1, 2, 3, 4, 5]
      [⟨3, [4, 5], [4, 9]⟩, ⟨3, [], []⟩, ⟨0, [1, 2], [8, 7]⟩] := by
    refine ⟨rfl, by decide, ⟨by decide, by decide, by decide, by decide, ?_, by decide⟩⟩
    unfold BlobRangePatch.Apart BlobRangePatch.stop
    decide
  have hdone := (hiff nofun).2 hA
  generalize compareExchangeBlobRanges insertionRanges samplePlace
    [⟨3, [4, 5], [4, 9]⟩, ⟨3, [], []⟩, ⟨0, [1, 2], [8, 7]⟩] sampleConnection [] = ended at *
  obtain ⟨result, c', l⟩ := ended
  cases result with
  | error => cases hdone
  | ok statistics =>
      obtain ⟨-, hcompared, hwritten, -⟩ := hok statistics rfl
      refine ⟨statistics, c', l, rfl, ?_, hwrapped⟩
      obtain ⟨compared, written⟩ := statistics
      obtain rfl : compared = 4 := hcompared
      obtain rfl : written = 3 := hwritten
      rfl

/-- **A range that fits is not always exchanged.** A connection that only reads refuses it inside a
transaction, although every condition on the ranges holds and no call of the engine fails. -/
theorem compareExchangeBlobRanges_readOnly :
    ¬ ∀ (c : Connection Unit) (e : Engine (Content Unit)) (place : BlobPlace) (value : Bytes)
      (ranges : List BlobRangePatch), c.handle = some e → e.content.blobs place = some value →
      c.inTransaction = true →
      ((compareExchangeBlobRanges insertionRanges place ranges c []).1.isOk = true ↔
        Acceptable c.limit value ranges) := by
  intro h
  have hfits : Acceptable sampleConnection.limit [1, 2, 3, 4, 5] [⟨3, [4], [9]⟩] :=
    ⟨by decide, by decide, by decide, by decide, List.pairwise_singleton _ _, by decide⟩
  have hok := (h { sampleConnection with readOnly := true } sampleEngine samplePlace
    [1, 2, 3, 4, 5] [⟨3, [4], [9]⟩] rfl rfl rfl).2 hfits
  exact absurd hok (by decide)

end Sql

end FileProvider
