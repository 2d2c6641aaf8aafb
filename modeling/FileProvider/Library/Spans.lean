import Mathlib.Algebra.Ring.Nat
import Mathlib.Data.List.Pairwise
import Mathlib.Algebra.BigOperators.Group.List.Basic

/-!
# Spans of places

A pass over places notes those that satisfy a property in spans. A span begins and ends with such a
place, and a stretch of `gap` places without one ends it; with a gap of one place the spans hold
nothing else.

Spans are described by what they cover and by the gaps between them (`Spans`), and there is one such
sequence for each property and range. The number of places that satisfy the property is at most the
sum of the sizes, and with a gap of one it is that sum.
-/

/-- The places from `first` up to `last`, without `last`. -/
structure Span where
  first : Nat
  last : Nat
deriving DecidableEq

namespace Span

/-- How many places a span has. -/
def size (s : Span) : Nat := s.last - s.first

/-- A place in a span. -/
def Covers (s : Span) (i : Nat) : Prop := s.first ≤ i ∧ i < s.last

instance (s : Span) (i : Nat) : Decidable (s.Covers i) :=
  inferInstanceAs (Decidable (s.first ≤ i ∧ i < s.last))

/-- A span as far behind as `n`. -/
def shift (n : Nat) (s : Span) : Span := ⟨n + s.first, n + s.last⟩

@[simp] theorem size_shift (n : Nat) (s : Span) : (s.shift n).size = s.size := by
  unfold size shift
  dsimp only
  omega

end Span

/-- The spans of the places between `lo` and `hi` that satisfy `p`. -/
structure Spans (p : Nat → Prop) (gap lo hi : Nat) (l : List Span) : Prop where
  bounds : ∀ s ∈ l, lo ≤ s.first ∧ s.first < s.last ∧ s.last ≤ hi
  apart : l.Pairwise fun s t => s.last ≤ t.first
  ends : ∀ s ∈ l, p s.first ∧ p (s.last - 1)
  dense : ∀ s ∈ l, ∀ k, s.first ≤ k → k + gap ≤ s.last → ∃ j, k ≤ j ∧ j < k + gap ∧ p j
  covers : ∀ i, lo ≤ i → i < hi → p i → ∃ s ∈ l, s.Covers i

namespace Spans

variable {p : Nat → Prop} {gap lo hi : Nat} {l m : List Span}

/-- An empty range has no spans. -/
theorem nil (h : hi ≤ lo) : Spans p gap lo hi [] :=
  ⟨nofun, .nil, nofun, nofun, fun i hlo hhi => absurd hhi (by omega)⟩

/-- A place that does not satisfy the property is passed over. -/
theorem skip (h : Spans p gap (lo + 1) hi l) (hlo : ¬ p lo) : Spans p gap lo hi l where
  bounds s hs := by
    have hbounds := h.bounds s hs
    omega
  apart := h.apart
  ends := h.ends
  dense := h.dense
  covers i hi hlt hp := by
    have hne : i ≠ lo := by
      rintro rfl
      exact hlo hp
    exact h.covers i (by omega) hlt hp

/-- A span, and behind it places that do not satisfy the property. Since the places between the two
parts do not satisfy it, every place that does is in the span or behind it. -/
theorem cons {s : Span} {next : Nat} (h : Spans p gap next hi l) (hfirst : s.first = lo)
    (hlt : s.first < s.last) (hnext : s.last ≤ next) (hhi : next ≤ hi)
    (hends : p s.first ∧ p (s.last - 1))
    (hdense : ∀ k, s.first ≤ k → k + gap ≤ s.last → ∃ j, k ≤ j ∧ j < k + gap ∧ p j)
    (hgap : ∀ i, s.last ≤ i → i < next → ¬ p i) : Spans p gap lo hi (s :: l) where
  bounds t ht := by
    rcases List.mem_cons.1 ht with rfl | ht
    · exact ⟨by omega, hlt, by omega⟩
    · have hbounds := h.bounds t ht
      omega
  apart := by
    refine List.pairwise_cons.2 ⟨fun t ht => ?_, h.apart⟩
    have hbounds := h.bounds t ht
    omega
  ends t ht := by
    rcases List.mem_cons.1 ht with rfl | ht
    · exact hends
    · exact h.ends t ht
  dense t ht := by
    rcases List.mem_cons.1 ht with rfl | ht
    · exact hdense
    · exact h.dense t ht
  covers i hlo hlt' hp := by
    by_cases hin : i < s.last
    · exact ⟨s, List.mem_cons_self, by omega, hin⟩
    · by_cases hbefore : i < next
      · exact absurd hp (hgap i (by omega) hbefore)
      · obtain ⟨t, ht, hcovers⟩ := h.covers i (by omega) hlt' hp
        exact ⟨t, List.mem_cons_of_mem _ ht, hcovers⟩

/-- Spans depend on the marks within the range alone. -/
theorem congr {q : Nat → Prop} (h : Spans p gap lo hi l)
    (hpq : ∀ i, lo ≤ i → i < hi → (p i ↔ q i)) : Spans q gap lo hi l where
  bounds := h.bounds
  apart := h.apart
  ends s hs := by
    have hbounds := h.bounds s hs
    obtain ⟨hfirst, hlast⟩ := h.ends s hs
    exact ⟨(hpq _ (by omega) (by omega)).1 hfirst, (hpq _ (by omega) (by omega)).1 hlast⟩
  dense s hs k hk hlast := by
    have hbounds := h.bounds s hs
    obtain ⟨j, hkj, hjk, hp⟩ := h.dense s hs k hk hlast
    exact ⟨j, hkj, hjk, (hpq j (by omega) (by omega)).1 hp⟩
  covers i hlo hhi hq := h.covers i hlo hhi ((hpq i hlo hhi).2 hq)

/-- The spans of two stretches, one behind the other. Every place is in one of the stretches, so
that each part of the statement is looked at in the stretch it is about. -/
theorem append {mid : Nat} (h : Spans p gap lo mid l) (h' : Spans p gap mid hi m)
    (hlo : lo ≤ mid) (hhi : mid ≤ hi) : Spans p gap lo hi (l ++ m) where
  bounds s hs := by
    rcases List.mem_append.1 hs with hs | hs
    · have hbounds := h.bounds s hs
      omega
    · have hbounds := h'.bounds s hs
      omega
  apart := by
    refine List.pairwise_append.2 ⟨h.apart, h'.apart, fun s hs t ht => ?_⟩
    have hbounds := h.bounds s hs
    have hbounds' := h'.bounds t ht
    omega
  ends s hs := (List.mem_append.1 hs).elim (h.ends s) (h'.ends s)
  dense s hs := (List.mem_append.1 hs).elim (h.dense s) (h'.dense s)
  covers i hlo' hhi' hp := by
    by_cases hmid : i < mid
    · obtain ⟨s, hs, hcovers⟩ := h.covers i hlo' hmid hp
      exact ⟨s, List.mem_append_left _ hs, hcovers⟩
    · obtain ⟨s, hs, hcovers⟩ := h'.covers i (by omega) hhi' hp
      exact ⟨s, List.mem_append_right _ hs, hcovers⟩

/-- Spans of a property read from a place on. -/
theorem shift {n : Nat} (h : Spans (fun i => p (n + i)) gap lo hi l) :
    Spans p gap (n + lo) (n + hi) (l.map (Span.shift n)) where
  bounds s hs := by
    obtain ⟨t, ht, rfl⟩ := List.mem_map.1 hs
    have hbounds := h.bounds t ht
    unfold Span.shift
    dsimp only
    omega
  apart := by
    refine List.pairwise_map.2 (h.apart.imp fun hst => ?_)
    unfold Span.shift
    dsimp only
    omega
  ends s hs := by
    obtain ⟨t, ht, rfl⟩ := List.mem_map.1 hs
    obtain ⟨hfirst, hlast⟩ := h.ends t ht
    have hbounds := h.bounds t ht
    refine ⟨hfirst, ?_⟩
    rwa [show (t.shift n).last - 1 = n + (t.last - 1) from Nat.add_sub_assoc (by omega) n]
  dense s hs k hk hlast := by
    obtain ⟨t, ht, rfl⟩ := List.mem_map.1 hs
    unfold Span.shift at hk hlast
    dsimp only at hk hlast
    obtain ⟨j, hkj, hjk, hp⟩ := h.dense t ht (k - n) (by omega) (by omega)
    exact ⟨n + j, by omega, by omega, hp⟩
  covers i hlo hhi hp := by
    obtain ⟨j, rfl⟩ : ∃ j, i = n + j := ⟨i - n, by omega⟩
    obtain ⟨s, hs, hfirst, hlast⟩ := h.covers j (by omega) (by omega) hp
    refine ⟨s.shift n, List.mem_map_of_mem hs, ?_, ?_⟩
    · exact Nat.add_le_add_left hfirst n
    · exact Nat.add_lt_add_left hlast n

/-- With a gap of one place, spans hold only places that satisfy the property. -/
theorem all_of_gap_one (h : Spans p 1 lo hi l) {s : Span} (hs : s ∈ l) {i : Nat}
    (hi : s.Covers i) : p i := by
  obtain ⟨j, hij, hji, hp⟩ := h.dense s hs i hi.1 hi.2
  obtain rfl : j = i := by omega
  exact hp

end Spans

/-! ## How many places -/

namespace Spans

variable {p : Nat → Bool} {gap lo hi : Nat} {l : List Span}

/-- Behind the first span come the spans of the rest. -/
theorem tail {s : Span} (h : Spans (fun i => p i = true) gap lo hi (s :: l)) :
    Spans (fun i => p i = true) gap s.last hi l where
  bounds t ht := by
    have hbounds := h.bounds t (List.mem_cons_of_mem _ ht)
    have hapart := (List.pairwise_cons.1 h.apart).1 t ht
    omega
  apart := (List.pairwise_cons.1 h.apart).2
  ends t ht := h.ends t (List.mem_cons_of_mem _ ht)
  dense t ht := h.dense t (List.mem_cons_of_mem _ ht)
  covers i hlo hhi hp := by
    have hs := h.bounds s List.mem_cons_self
    obtain ⟨t, ht, hcovers⟩ := h.covers i (by omega) hhi hp
    rcases List.mem_cons.1 ht with rfl | ht
    · exact absurd hcovers.2 (by omega)
    · exact ⟨t, ht, hcovers⟩

/-- A range that is marked throughout counts in full. -/
theorem countP_of_all {n start : Nat} (h : ∀ i, start ≤ i → i < start + n → p i = true) :
    (List.range' start n).countP p = n := by
  rw [List.countP_eq_length.2, List.length_range']
  intro i hi
  rw [List.mem_range'_1] at hi
  exact h i hi.1 hi.2

/-- A range without marks does not count. -/
theorem countP_of_none {n start : Nat} (h : ∀ i, start ≤ i → i < start + n → p i = false) :
    (List.range' start n).countP p = 0 := by
  refine List.countP_eq_zero.2 fun i hi => ?_
  rw [List.mem_range'_1] at hi
  rw [h i hi.1 hi.2]
  exact Bool.false_ne_true

/-- With a gap of one place, the places of the spans are those that satisfy the property. The
induction is on the spans: the places of a span all satisfy the property, as the gap is one, and
those before it do not. -/
theorem sum_size (h : Spans (fun i => p i = true) 1 lo hi l) (hle : lo ≤ hi) :
    (l.map Span.size).sum = (List.range' lo (hi - lo)).countP p := by
  induction l generalizing lo with
  | nil =>
      rw [countP_of_none fun i hlo hhi => ?_]
      · rfl
      · refine Bool.eq_false_iff.2 fun hp => ?_
        obtain ⟨s, hs, -⟩ := h.covers i hlo (by omega) hp
        cases hs
  | cons s l ih =>
      obtain ⟨hfirst, hlt, hlast⟩ := h.bounds s List.mem_cons_self
      have hbefore : (List.range' lo (s.first - lo)).countP p = 0 := by
        refine countP_of_none fun i hlo hhi => Bool.eq_false_iff.2 fun hp => ?_
        obtain ⟨t, ht, hcovers⟩ := h.covers i hlo (by omega) hp
        have hcover := hcovers.1
        rcases List.mem_cons.1 ht with rfl | ht
        · omega
        · have hapart := (List.pairwise_cons.1 h.apart).1 t ht
          omega
      have hinside : (List.range' s.first s.size).countP p = s.size := by
        refine countP_of_all fun i hlo hhi => h.all_of_gap_one List.mem_cons_self ⟨hlo, ?_⟩
        unfold Span.size at hhi
        omega
      have hsplit : List.range' lo (hi - lo) = List.range' lo (s.first - lo)
          ++ (List.range' s.first s.size ++ List.range' s.last (hi - s.last)) := by
        have hmiddle : s.first + s.size = s.last := Nat.add_sub_cancel' (Nat.le_of_lt hlt)
        have hstart : lo + (s.first - lo) = s.first := Nat.add_sub_cancel' hfirst
        have hall : hi - lo = (s.first - lo) + (s.size + (hi - s.last)) := by omega
        rw [hall, ← List.range'_append_1, hstart, ← List.range'_append_1, hmiddle]
      rw [List.map_cons, List.sum_cons, ih h.tail hlast, hsplit, List.countP_append,
        List.countP_append, hbefore, hinside, Nat.zero_add]

end Spans

/-! ## A pass -/

section
variable (p : Nat → Bool) (gap count : Nat)

/-- Where a span ends that has begun, and where the pass goes on behind it: the span is taken up
again by a place that satisfies the property, until `gap` places have not. -/
def extendSpan : Nat → Nat → Nat → Nat × Nat
  | 0, index, last => (index, last)
  | fuel + 1, index, last =>
      if index + 1 < count ∧ index + 1 - last < gap then
        extendSpan fuel (index + 1) (if p (index + 1) = true then index + 2 else last)
      else (index + 1, last)

/-- The spans from a place on. -/
def spansFrom : Nat → Nat → List Span
  | 0, _ => []
  | fuel + 1, index =>
      if count ≤ index then []
      else if p index = true then
        let ended := extendSpan p gap count count index (index + 1)
        ⟨index, ended.2⟩ :: spansFrom fuel ended.1
      else spansFrom fuel (index + 1)

variable {p gap count}

/-- What has been seen of a span, up to a place: it ends with a place that satisfies the property,
and none behind it does. -/
structure SeenSpan (p : Nat → Bool) (gap first index last : Nat) : Prop where
  nonempty : first < last
  within : last ≤ index + 1
  ends : p (last - 1) = true
  dense : ∀ k, first ≤ k → k + gap ≤ last → ∃ j, k ≤ j ∧ j < k + gap ∧ p j = true
  others : ∀ i, last ≤ i → i < index + 1 → p i = false

/-- The inner loop extends a span up to the first gap, by induction on its fuel. What is seen of the
span is the invariant: it begins and ends at a place of the property and has no gap up to the place
that is read. -/
theorem extendSpan_ok {fuel index last first : Nat} (hgap : 0 < gap) (hfuel : count ≤ index + fuel)
    (hindex : index < count) (h : SeenSpan p gap first index last) :
    ∃ i, (extendSpan p gap count fuel index last).1 = i + 1 ∧ index ≤ i ∧ i + 1 ≤ count
      ∧ SeenSpan p gap first i (extendSpan p gap count fuel index last).2 := by
  induction fuel generalizing index last with
  | zero => omega
  | succ fuel ih =>
      rw [extendSpan]
      split
      · next hmore =>
          obtain ⟨hlt, hclose⟩ := hmore
          have hlast := h.within
          split
          · next hp =>
              have hnext : SeenSpan p gap first (index + 1) (index + 2) := by
                refine ⟨by have hfirst := h.nonempty; omega, Nat.le_refl _, hp, fun k hk hkl => ?_,
                  fun i hi hi' => ?_⟩
                · have hfirst := h.nonempty
                  by_cases hin : k + gap ≤ last
                  · exact h.dense k hk hin
                  · by_cases hnew : index + 1 < k + gap
                    · exact ⟨index + 1, by omega, hnew, hp⟩
                    · exact ⟨last - 1, by omega, by omega, h.ends⟩
                · omega
              obtain ⟨i, hi, hle, hcount, hext⟩ := ih (by omega) hlt hnext
              exact ⟨i, hi, by omega, hcount, hext⟩
          · next hp =>
              have hnext : SeenSpan p gap first (index + 1) last := by
                refine ⟨h.nonempty, by omega, h.ends, h.dense, fun i hi hi' => ?_⟩
                by_cases hat : i = index + 1
                · rw [hat]
                  exact Bool.eq_false_iff.2 hp
                · exact h.others i hi (by omega)
              obtain ⟨i, hi, hle, hcount, hext⟩ := ih (by omega) hlt hnext
              exact ⟨i, hi, by omega, hcount, hext⟩
      · exact ⟨index, rfl, Nat.le_refl _, hindex, h⟩

/-- What becomes of a span that begins at a place. -/
theorem extendSpan_begin {index : Nat} (hgap : 0 < gap) (hp : p index = true)
    (hindex : index < count) :
    ∃ i, (extendSpan p gap count count index (index + 1)).1 = i + 1 ∧ index ≤ i ∧ i + 1 ≤ count
      ∧ SeenSpan p gap index i (extendSpan p gap count count index (index + 1)).2 := by
  refine extendSpan_ok hgap (by omega) hindex ?_
  refine ⟨Nat.lt_succ_self _, Nat.le_refl _, hp, fun k hk hkl => ?_, fun i hi hi' => by omega⟩
  exact ⟨k, Nat.le_refl _, by omega, by rw [show k = index by omega]; exact hp⟩

/-- **A pass finds the spans.** Its induction is on the fuel, which is at least the number of places
left; a place of the property begins a span, which the inner loop extends. -/
theorem spansFrom_spans {fuel index : Nat} (hgap : 0 < gap) (hfuel : count ≤ index + fuel)
    (hindex : index ≤ count) :
    Spans (fun i => p i = true) gap index count (spansFrom p gap count fuel index) := by
  induction fuel generalizing index with
  | zero => exact .nil (by omega)
  | succ fuel ih =>
      rw [spansFrom]
      split
      · next hend => exact .nil hend
      · next hmore =>
          split
          · next hp =>
              obtain ⟨i, hi, hle, hcount, hext⟩ := extendSpan_begin hgap hp
                (show index < count by omega)
              dsimp only
              refine .cons (ih (by omega) (by omega)) rfl hext.nonempty ?_ ?_
                ⟨hp, hext.ends⟩ hext.dense
                fun j hj hj' => ?_
              · rw [hi]
                exact hext.within
              · omega
              · rw [hi] at hj'
                simp [hext.others j hj hj']
          · next hp => exact (ih (by omega) (by omega)).skip hp

end
