import FileProvider.Library.Spans
import FileProvider.Sql.Splices
import Mathlib.Data.List.TakeWhile

/-!
# What a patch writes

A patch of a value writes spans of its replacement, each where it belongs. Spans that cover every
byte that differs leave the replacement.

The spans are those of `Library.Spans`, and what is written is told without the engine; then the
engine is shown to do the same, one span after the other.
-/

namespace FileProvider

open Bytes

namespace Sql

variable {ρ : Type} {place : BlobPlace} {replacement value u : Bytes} {c : Connection ρ}
  {l m : List Span}

/-- The bytes of two values differ at a place. -/
def Differs (before after : Bytes) (i : Nat) : Prop := before[i]? ≠ after[i]?

/-- The bytes of a replacement in a span. -/
def spanBytes (replacement : Bytes) (s : Span) : Bytes := (replacement.drop s.first).take s.size

/-- How many places spans have. -/
def total (l : List Span) : Nat := (l.map Span.size).sum

@[simp] theorem total_nil : total [] = 0 := rfl

@[simp] theorem total_cons (s : Span) (l : List Span) : total (s :: l) = s.size + total l := by
  rw [total, List.map_cons, List.sum_cons, total]

@[simp] theorem total_append (l m : List Span) : total (l ++ m) = total l + total m := by
  rw [total, List.map_append, List.sum_append, total, total]

/-- Shifting spans does not change how many bytes they cover. -/
theorem total_shift (n : Nat) (l : List Span) : total (l.map (Span.shift n)) = total l := by
  rw [total, List.map_map, total]
  refine congrArg List.sum (List.map_congr_left fun s _ => ?_)
  exact Span.size_shift n s

/-! ## Spans written over a value -/

/-- A value with spans of a replacement written over it. -/
def writeSpans (replacement : Bytes) (l : List Span) (value : Bytes) : Bytes :=
  l.foldl (fun v s => overwrite v s.first (spanBytes replacement s)) value

/-- Writing spans keeps the length of a value, so a patch never resizes. -/
theorem length_writeSpans (replacement : Bytes) (l : List Span) (value : Bytes) :
    (writeSpans replacement l value).length = value.length := by
  induction l generalizing value with
  | nil => rfl
  | cons s l ih => exact (ih _).trans (length_overwrite _ _ _)

/-- A byte is that of the replacement where a span is, and stays elsewhere. -/
theorem getElem?_writeSpans (hlength : replacement.length = value.length)
    (hbounds : ∀ s ∈ l, s.first < s.last ∧ s.last ≤ value.length) (i : Nat) :
    (writeSpans replacement l value)[i]?
      = if ∃ s ∈ l, s.Covers i then replacement[i]? else value[i]? := by
  induction l generalizing value with
  | nil => simp [writeSpans]
  | cons s l ih =>
      obtain ⟨hs, hl⟩ := List.forall_mem_cons.1 hbounds
      have hsize : (spanBytes replacement s).length = s.size := by
        unfold spanBytes Span.size
        rw [List.length_take, List.length_drop]
        omega
      have hfirst : (overwrite value s.first (spanBytes replacement s))[i]?
          = if s.Covers i then replacement[i]? else value[i]? := by
        rw [getElem?_overwrite, hsize]
        by_cases hcovers : s.Covers i
        · have hlow := hcovers.1
          have hhigh := hcovers.2
          have hin : i - s.first < s.size := by
            unfold Span.size
            omega
          rw [if_pos hcovers, if_pos ⟨hlow, by omega, by omega⟩, spanBytes,
            List.getElem?_take_of_lt hin, List.getElem?_drop]
          congr 1
          omega
        · rw [if_neg hcovers, if_neg]
          rintro ⟨hlow, hhigh, -⟩
          unfold Span.size at hhigh
          exact hcovers ⟨hlow, by omega⟩
      show (writeSpans replacement l (overwrite value s.first _))[i]? = _
      rw [ih (by rw [length_overwrite, hlength]) (by rwa [length_overwrite]), hfirst]
      by_cases hrest : ∃ t ∈ l, t.Covers i
      · rw [if_pos hrest, if_pos]
        obtain ⟨t, ht, hcovers⟩ := hrest
        exact ⟨t, List.mem_cons_of_mem _ ht, hcovers⟩
      · rw [if_neg hrest]
        refine if_congr ⟨fun hcovers => ⟨s, List.mem_cons_self, hcovers⟩, ?_⟩ rfl rfl
        rintro ⟨t, ht, hcovers⟩
        rcases List.mem_cons.1 ht with rfl | ht
        · exact hcovers
        · exact absurd ⟨t, ht, hcovers⟩ hrest

/-- **Spans that cover what differs leave the replacement.** A place that no span covers does not
differ, so that both have the same byte there. -/
theorem writeSpans_eq {gap : Nat} (hlength : replacement.length = value.length)
    (h : Spans (Differs value replacement) gap 0 value.length l) :
    writeSpans replacement l value = replacement := by
  refine List.ext_getElem? fun i => ?_
  rw [getElem?_writeSpans hlength fun s hs => (h.bounds s hs).2]
  split
  · rfl
  · next hnot =>
      by_contra hdiffers
      by_cases hi : i < value.length
      · obtain ⟨s, hs, hcovers⟩ := h.covers i (Nat.zero_le i) hi hdiffers
        exact hnot ⟨s, hs, hcovers⟩
      · rw [List.getElem?_eq_none (by omega), List.getElem?_eq_none (by omega)] at hdiffers
        exact hdiffers rfl

/-! ## Spans written by the engine -/

namespace Connection

/-- The value that stands at a place. -/
def stored (c : Connection ρ) (place : BlobPlace) : Option Bytes :=
  c.handle.bind fun e => e.content.blobs place

/-- The connection with spans of a replacement written. -/
def patched (c : Connection ρ) (place : BlobPlace) (replacement : Bytes) (l : List Span) :
    Connection ρ :=
  { c with
    handle := c.handle.map fun e =>
      e.change fun w => l.foldl (fun w s => w.write place s.first (spanBytes replacement s)) w }

/-- Without spans nothing is patched. -/
theorem patched_nil : c.patched place replacement [] = c := by
  obtain ⟨handle, _, _, _, _, _⟩ := c
  cases handle with
  | none => rfl
  | some e => rfl

/-- Two lists of spans are patched one after the other. -/
theorem patched_append :
    (c.patched place replacement l).patched place replacement m
      = c.patched place replacement (l ++ m) := by
  obtain ⟨handle, _, _, _, _, _⟩ := c
  cases handle with
  | none => rfl
  | some e =>
      simp only [patched, Option.map_some, Engine.change, List.foldl_append]

/-- Writing the spans in the engine's content changes the blob of that place only, by all of them.
-/
theorem blobs_foldl (w : Content ρ) (p : BlobPlace) :
    (l.foldl (fun w s => w.write place s.first (spanBytes replacement s)) w).blobs p
      = if p = place then (w.blobs p).map (writeSpans replacement l) else w.blobs p := by
  induction l generalizing w with
  | nil =>
      show w.blobs p = _
      split
      · exact Option.map_id'.symm
      · rfl
  | cons s l ih =>
      rw [List.foldl_cons, ih]
      show (if p = place then ((if p = place then _ else _ : Option Bytes)).map _
        else if p = place then _ else _) = _
      split
      · rw [Option.map_map]
        rfl
      · rfl

/-- A patch changes what is stored in its place and nothing else. -/
theorem stored_patched (p : BlobPlace) : (c.patched place replacement l).stored p
    = if p = place then (c.stored p).map (writeSpans replacement l) else c.stored p := by
  obtain ⟨handle, _, _, _, _, _⟩ := c
  cases handle with
  | none =>
      show none = if p = place then none else none
      split <;> rfl
  | some e => exact blobs_foldl e.content p

/-- What is stored is shorter than 2^31, the limit of SQLite. -/
theorem length_lt_of_stored (h : c.stored place = some u) : u.length < 2 ^ 31 := by
  obtain ⟨e, -, he⟩ := Option.bind_eq_some_iff.1 h
  exact e.content.bounded place u he

end Connection

open Connection

/-- A conversion within its range gives the value and changes nothing. -/
theorem toInt_run {n : Nat} (h : n < 2 ^ 31) : toInt n c [] = (.ok (n : Int), c, []) := by
  have hbmod : (n : Int).bmod (2 ^ 32) = n := Int.bmod_eq_of_le (by omega) (by omega)
  unfold toInt
  rw [Program.bind_run]
  show (Except.ok ((n : Int).bmod (2 ^ 32)), (if 2 ^ 31 ≤ n then _ else c), _) = _
  rw [if_neg (by omega), hbmod]

/-- A sum within 64 bits gives the value and changes nothing. -/
theorem add64_run {a b : Nat} (h : a + b < 2 ^ 64) : add64 a b c [] = (.ok (a + b), c, []) := by
  unfold add64
  rw [Program.bind_run]
  show (Except.ok ((a + b) % 2 ^ 64), (if 2 ^ 64 ≤ a + b then _ else c), _) = _
  rw [if_neg (by omega), Nat.mod_eq_of_lt h]

/-- A span that is written. -/
theorem writeBlob_run (replacement : Bytes) {s : Span} (h : c.stored place = some u)
    (hspan : s.first ≤ s.last)
    (hinside : s.last ≤ u.length) :
    writeBlob place s.size s.first (spanBytes replacement s) c []
      = (.ok (), c.patched place replacement [s], []) := by
  obtain ⟨e, he, hu⟩ := Option.bind_eq_some_iff.1 h
  obtain ⟨handle, serial, transaction, limit, readOnly, wrapped⟩ := c
  obtain rfl : handle = some e := he
  have hfits : ¬ ((s.size : Int) < 0 ∨ (s.first : Int) < 0
      ∨ (u.length : Int) < (s.first : Int) + (s.size : Int)) := by
    unfold Span.size
    omega
  rw [writeBlob, Program.call_run, show (default : Answer Failure) = .done from rfl]
  dsimp only
  rw [show e.content.blobs place = some u from hu]
  dsimp only
  rw [if_neg hfits]
  rfl

/-- In its own place a patch writes its spans. -/
theorem stored_patched_self (replacement : Bytes) (l : List Span) (h : c.stored place = some u) :
    (c.patched place replacement l).stored place = some (writeSpans replacement l u) := by
  rw [stored_patched, if_pos rfl, h]
  rfl

/-- Reading within a stored blob gives its bytes. -/
theorem readBlob_run {offset count : Nat} (h : c.stored place = some u)
    (hinside : offset + count ≤ u.length) :
    readBlob place count offset c [] = (.ok ((u.drop offset).take count), c, []) := by
  obtain ⟨e, he, hu⟩ := Option.bind_eq_some_iff.1 h
  obtain ⟨handle, serial, transaction, limit, readOnly, wrapped⟩ := c
  obtain rfl : handle = some e := he
  rw [readBlob, engine, Program.call_run, show (default : Answer Failure) = .done from rfl]
  dsimp only
  rw [show e.content.blobs place = some u from hu]
  dsimp only
  rw [if_neg (by omega)]
  rfl

/-- Opening a stored blob gives its length. -/
theorem openBlob_run (h : c.stored place = some u) :
    openBlob place c [] = (.ok u.length, c, []) := by
  obtain ⟨e, he, hu⟩ := Option.bind_eq_some_iff.1 h
  obtain ⟨handle, serial, transaction, limit, readOnly, wrapped⟩ := c
  obtain rfl : handle = some e := he
  rw [openBlob, engine, Program.call_run, show (default : Answer Failure) = .done from rfl]
  dsimp only
  rw [show e.content.blobs place = some u from hu]
  rfl

/-- Closing the handle of a stored blob succeeds. -/
theorem closeBlob_run (h : c.stored place = some u) : closeBlob c [] = (.ok (), c, []) := by
  obtain ⟨e, he, -⟩ := Option.bind_eq_some_iff.1 h
  obtain ⟨handle, serial, transaction, limit, readOnly, wrapped⟩ := c
  obtain rfl : handle = some e := he
  rfl

/-! ## Windows -/

/-- The bytes of a window of a value. -/
def window (value : Bytes) (offset count : Nat) : Bytes := (value.drop offset).take count

/-- A window within the value has the length it was asked for. -/
theorem length_window {offset count : Nat} (h : offset + count ≤ value.length) :
    (window value offset count).length = count := by
  rw [window, List.length_take, List.length_drop]
  omega

/-- The bytes of a window are those of the value from its offset on. -/
theorem getElem?_window {offset count i : Nat} (h : i < count) :
    (window value offset count)[i]? = value[offset + i]? := by
  rw [window, List.getElem?_take_of_lt h, List.getElem?_drop]

/-- The spans of a window are spans of the value. -/
theorem spans_of_window {gap offset count : Nat}
    (h : Spans (Differs (window value offset count) (window replacement offset count))
      gap 0 count l) :
    Spans (Differs value replacement) gap offset (offset + count) (l.map (Span.shift offset)) := by
  have hsame := h.congr (q := fun i => Differs value replacement (offset + i)) fun i _ hi => by
    unfold Differs
    rw [getElem?_window hi, getElem?_window hi]
  exact hsame.shift

/-- Bytes of a window are bytes of the value. -/
theorem take_drop_window {offset count cursor k : Nat} (h : cursor + k ≤ count) :
    ((window replacement offset count).drop cursor).take k
      = (replacement.drop (offset + cursor)).take k := by
  unfold window
  rw [List.drop_take, List.take_take, List.drop_drop, Nat.min_eq_left (by omega)]

/-- What spans written before a place leave behind it. -/
theorem writeSpans_behind {p : Nat → Prop} {gap lo hi i : Nat} (h : Spans p gap lo hi l)
    (hlength : replacement.length = u.length) (hhi : hi ≤ u.length) (hi : hi ≤ i) :
    (writeSpans replacement l u)[i]? = u[i]? := by
  rw [getElem?_writeSpans hlength fun s hs => by
    have hbounds := h.bounds s hs
    omega, if_neg]
  rintro ⟨s, hs, -, hlast⟩
  have hbounds := h.bounds s hs
  omega

/-- A window of a value that has changed only before it. -/
theorem window_eq {offset : Nat} (hsame : ∀ i, offset ≤ i → u[i]? = value[i]?) (count : Nat) :
    (u.drop offset).take count = window value offset count := by
  refine List.ext_getElem? fun i => ?_
  rw [window, List.getElem?_take, List.getElem?_take, List.getElem?_drop, List.getElem?_drop,
    hsame (offset + i) (by omega)]

/-- Spans written in a window leave the value behind it. -/
theorem same_behind {p : Nat → Prop} {gap offset hi : Nat} (h : Spans p gap offset hi l)
    (hlength : replacement.length = u.length) (hhi : hi ≤ u.length)
    (hsame : ∀ i, offset ≤ i → u[i]? = value[i]?) (hle : offset ≤ hi) (i : Nat) (hi : hi ≤ i) :
    (writeSpans replacement l u)[i]? = value[i]? := by
  rw [writeSpans_behind h hlength hhi hi]
  exact hsame i (by omega)

end Sql

end FileProvider
