import FileProvider.Library.FixedWidth
import FileProvider.Native.Calendar
import Mathlib.Data.List.Induction
import Mathlib.Data.Rat.Cast.Order
import Mathlib.Tactic.FieldSimp
import Mathlib.Tactic.Linarith

/-!
# Instants

The instant a text of the native library denotes, and the text `timestamp` writes of it. `denoted`
says what a text denotes without the code: its day counted in the calendar, its time of day less the
offset, and the decimal value of its fraction. What `timestamp` reads is that instant to the
millisecond (`instantOf_denoted`). A text of a year of four digits is read back as the instant it
was written of, and such texts are in the order of their instants (`Moment.order_text`). An offset
can move an instant out of these years, and `timestamps_iff` says for which texts it does.
-/

namespace FileProvider

open Bytes Fallible

namespace Native

/-! ## Digits that are read back -/

/-- A printed digit is a digit. -/
theorem isDigit_digit {n : Nat} (h : n < 10) : isDigit (digit n) = true := by
  have hn := toNat_digit h
  simp only [isDigit, Bool.and_eq_true, decide_eq_true_eq, UInt8.le_iff_toNat_le, hn]
  refine ⟨?_, ?_⟩
  · show 48 ≤ 48 + n
    omega
  · show 48 + n ≤ 57
    omega

/-- A number printed with enough places is read back. -/
theorem number_places {width n : Nat} (h : n < 10 ^ width) : number (places width n) = n := by
  induction width generalizing n with
  | zero =>
      rw [pow_zero] at h
      obtain rfl : n = 0 := by omega
      rfl
  | succ width ih =>
      have hdiv : n / 10 < 10 ^ width := by
        rw [pow_succ] at h
        omega
      have hbefore := ih hdiv
      have hlast := toNat_digit (Nat.mod_lt n (show 10 > 0 by omega))
      unfold number at hbefore ⊢
      rw [places, List.foldl_append, hbefore, List.foldl_cons, List.foldl_nil, hlast]
      omega

/-- The same for the reader of the source, within its range. -/
theorem digits_places {w n : Nat} (hwidth : 0 < w) (h : n < 10 ^ w)
    (hint : n < 2 ^ 31) : digits (places w n) = .ok n := by
  have hne : places w n ≠ [] := by
    intro hnil
    have hlength := length_places w n
    rw [hnil] at hlength
    exact absurd hlength (Nat.ne_of_lt hwidth)
  have hdigits : (places w n).all isDigit = true := by
    refine List.all_eq_true.2 fun c hc => ?_
    obtain ⟨d, hd, rfl⟩ := digit_of_mem_places hc
    exact isDigit_digit hd
  unfold digits
  rw [bind_ok]
  refine ⟨(), require_ok.2 ⟨hne, hdigits, ?_⟩, ?_⟩
  · rwa [number_places h]
  · rw [number_places h]
    rfl

/-! ## Moments -/

/-- A millisecond of a day of the calendar. -/
structure Moment where
  year : Nat
  month : Nat
  day : Nat
  time : Nat

namespace Moment

def date (m : Moment) : YearMonthDay := ⟨m.year, m.month, m.day⟩

/-- A moment of the calendar whose year has four digits. -/
structure Valid (m : Moment) : Prop where
  year : m.year < 10000
  date : m.date.ok = true
  time : m.time < 86400000

def instant (m : Moment) : Int := m.date.sysDays * 86400000 + m.time

def text (m : Moment) : Bytes :=
  places 4 m.year ++ 45 :: (places 2 m.month ++ 45 :: (places 2 m.day ++ 84 ::
    (places 2 (m.time / 3600000) ++ 58 :: (places 2 (m.time / 60000 % 60) ++ 58 ::
      (places 2 (m.time / 1000 % 60) ++ 46 :: (places 3 (m.time % 1000) ++ [90]))))))

variable {m m' : Moment}

/-- The month of a valid moment is at most 12. -/
theorem Valid.month_le (h : m.Valid) : m.month ≤ 12 := (YearMonthDay.ok_iff.1 h.date).1.2

/-- The day of a valid moment is at most 31. -/
theorem Valid.day_le (h : m.Valid) : m.day ≤ 31 := by
  have hend := (YearMonthDay.ok_iff.1 h.date).2.2
  refine hend.trans ?_
  unfold lastDay
  split
  · split
    · omega
    · omega
  · split
    · omega
    · omega

/-- The text of a moment has the shape of a timestamp. -/
theorem timestampShape_text (m : Moment) : timestampShape m.text = true := by
  have hdigit (n : Nat) : isDigit (digit (n % 10)) = true := isDigit_digit (Nat.mod_lt n (by omega))
  have hzone : isDigit 90 = false := rfl
  simp [text, places, timestampShape, separator, endShape, zoneShape, hdigit, hzone]

/-- A fraction of three digits is its number of milliseconds. -/
theorem fraction_three {rest : Bytes} {n : Nat} (hspan : rest.takeWhile isDigit = places 3 n)
    (h : n < 1000) : fraction (46 :: rest) = .ok (n, rest.dropWhile isDigit) := by
  have hunfold : fraction (46 :: rest) = (do
      let ms ← digits (rest.takeWhile isDigit)
      pure (if (rest.takeWhile isDigit).length = 1 then ms * 100
        else if (rest.takeWhile isDigit).length = 2 then ms * 10 else ms,
        rest.dropWhile isDigit)) := rfl
  rw [hunfold, hspan, digits_places (by omega) h (by omega), length_places]
  rfl

/-- The fraction of a moment's text is its milliseconds. -/
theorem fraction_text (m : Moment) :
    fraction (m.text.drop 19) = .ok (m.time % 1000, [90]) := by
  have hdigit (n : Nat) : isDigit (digit (n % 10)) = true := isDigit_digit (Nat.mod_lt n (by omega))
  have hspan : (m.text.drop 20).takeWhile isDigit = places 3 (m.time % 1000) ∧
      (m.text.drop 20).dropWhile isDigit = [90] := by
    have hzone : isDigit 90 = false := rfl
    simp [text, places, hdigit, hzone]
  have hdrop : m.text.drop 19 = 46 :: m.text.drop 20 := rfl
  rw [hdrop, fraction_three hspan.1 (Nat.mod_lt _ (by omega)), hspan.2]

/-- **The text of a moment denotes its instant.** -/
theorem instantOf_text (h : m.Valid) : instantOf m.text = .ok m.instant := by
  have hyear : digits (substr m.text 0 4) = .ok m.year :=
    digits_places (w := 4) (by omega) h.year (by have := h.year; omega)
  have hmonth : digits (substr m.text 5 2) = .ok m.month :=
    digits_places (w := 2) (by omega) (by have := h.month_le; omega)
      (by have := h.month_le; omega)
  have hday : digits (substr m.text 8 2) = .ok m.day :=
    digits_places (w := 2) (by omega) (by have := h.day_le; omega)
      (by have := h.day_le; omega)
  have htime := h.time
  have hhour : digits (substr m.text 11 2) = .ok (m.time / 3600000) :=
    digits_places (w := 2) (by omega) (by omega) (by omega)
  have hminute : digits (substr m.text 14 2) = .ok (m.time / 60000 % 60) :=
    digits_places (w := 2) (by omega) (by omega) (by omega)
  have hsecond : digits (substr m.text 17 2) = .ok (m.time / 1000 % 60) :=
    digits_places (w := 2) (by omega) (by omega) (by omega)
  have hvalid : m.date.ok = true ∧ m.time / 3600000 < 24 ∧ m.time / 60000 % 60 < 60 ∧
      m.time / 1000 % 60 < 60 := ⟨h.date, by omega, by omega, by omega⟩
  have hzone : zone [90] = .ok 0 := rfl
  have hsum : (((m.date.sysDays * 24 + (m.time / 3600000 : Nat)) * 60
      + ((m.time / 60000 % 60 : Nat) - 0)) * 60 + (m.time / 1000 % 60 : Nat)) * 1000
      + (m.time % 1000 : Nat) = m.instant := by
    unfold instant
    omega
  unfold instantOf
  simp only [bind_ok, pure_ok]
  exact ⟨(), require_ok.2 (timestampShape_text m), _, hyear, _, hmonth, _, hday, _, hhour,
    _, hminute, _, hsecond, (), require_ok.2 hvalid, _, fraction_text m, _, hzone, hsum⟩

/-! ## Earlier moments -/

/-- The moments in their order. -/
def Earlier (m m' : Moment) : Prop :=
  m.date.Earlier m'.date ∨ m.date = m'.date ∧ m.time < m'.time

/-- **The texts of moments are in the order of the moments.** The parts stand in the text from the
year to the milliseconds, each with a fixed number of digits, so that the first part that differs
decides. -/
theorem order_text (h' : m'.Valid) (hearlier : m.Earlier m') : order m.text < order m'.text := by
  obtain ⟨year, month, day, time⟩ := m
  obtain ⟨year', month', day', time'⟩ := m'
  have hyear := h'.year
  have hmonth := h'.month_le
  have hday := h'.day_le
  have htime := h'.time
  dsimp only at hyear hmonth hday htime
  simp only [Earlier, YearMonthDay.Earlier, date, YearMonthDay.mk.injEq, Int.ofNat_lt,
    Int.ofNat_inj] at hearlier
  unfold text
  dsimp only
  refine order_field_lt (by omega) ?_
  rcases Nat.lt_or_ge year year' with hlt | hge
  · exact .inl hlt
  refine .inr ⟨by omega, order_cons_lt (order_field_lt (by omega) ?_)⟩
  rcases Nat.lt_or_ge month month' with hlt | hge
  · exact .inl hlt
  refine .inr ⟨by omega, order_cons_lt (order_field_lt (by omega) ?_)⟩
  rcases Nat.lt_or_ge day day' with hlt | hge
  · exact .inl hlt
  refine .inr ⟨by omega, order_cons_lt (order_field_lt (by omega) ?_)⟩
  have hlater : time < time' := by omega
  clear hearlier
  rcases Nat.lt_or_ge (time / 3600000) (time' / 3600000) with hlt | hge
  · exact .inl hlt
  refine .inr ⟨by omega, order_cons_lt (order_field_lt (by omega) ?_)⟩
  rcases Nat.lt_or_ge (time / 60000 % 60) (time' / 60000 % 60) with hlt | hge
  · exact .inl hlt
  refine .inr ⟨by omega, order_cons_lt (order_field_lt (by omega) ?_)⟩
  rcases Nat.lt_or_ge (time / 1000 % 60) (time' / 1000 % 60) with hlt | hge
  · exact .inl hlt
  refine .inr ⟨by omega, order_cons_lt (order_field_lt (by omega) ?_)⟩
  exact .inl (by omega)

/-- Earlier instants are of earlier moments. -/
theorem earlier_of_instant (h : m.Valid) (h' : m'.Valid) (hlt : m.instant < m'.instant) :
    m.Earlier m' := by
  have htime := h.time
  have htime' := h'.time
  unfold instant at hlt
  rcases YearMonthDay.earlier_or m.date m'.date with hdate | hdate | hdate
  · exact .inl hdate
  · rw [hdate] at hlt
    exact .inr ⟨hdate, by omega⟩
  · have hdays := YearMonthDay.sysDays_lt h'.date h.date hdate
    omega

end Moment

/-! ## Texts that are read back -/

/-- The instants of the years of four digits. -/
def Representable (instant : Int) : Prop :=
  YearMonthDay.sysDays ⟨0, 1, 1⟩ * 86400000 ≤ instant ∧
    instant < YearMonthDay.sysDays ⟨10000, 1, 1⟩ * 86400000

/-- The day of an instant. -/
def utc (instant : Int) : YearMonthDay := .ofSysDays (instant / 86400000)

/-- Padding with zeros is printing with a fixed number of places, as long as the number fits. -/
theorem padded_eq {width : Nat} {n : Nat} (hwidth : 0 < width) (h : n < 10 ^ width) :
    padded width n = places width n := by
  have hpos : ¬ (n : Int) < 0 := by omega
  unfold padded
  dsimp only
  rw [if_neg hpos]
  exact replicate_append_decimal hwidth h

/-- An instant is representable exactly when its year has at most four digits. The days of those
years lie between the first and the last of them, and the rest of the instant is less than a day. -/
theorem representable_iff (instant : Int) :
    Representable instant ↔ 0 ≤ (utc instant).year ∧ (utc instant).year < 10000 := by
  obtain ⟨hok, hdays⟩ := YearMonthDay.ofSysDays_ok (instant / 86400000)
  obtain ⟨hfirst, hlast⟩ := YearMonthDay.sysDays_within hok
  rw [hdays] at hfirst hlast
  change YearMonthDay.sysDays ⟨(utc instant).year, 1, 1⟩ ≤ _ at hfirst
  change _ < YearMonthDay.sysDays ⟨(utc instant).year + 1, 1, 1⟩ at hlast
  refine ⟨fun h => ⟨?_, ?_⟩, fun h => ⟨?_, ?_⟩⟩
  · by_contra hneg
    have hyears := YearMonthDay.sysDays_years (show (utc instant).year + 1 ≤ 0 by omega)
    have hbegin := h.1
    omega
  · by_contra hlarge
    have hyears := YearMonthDay.sysDays_years (show 10000 ≤ (utc instant).year by omega)
    have hend := h.2
    omega
  · have hyears := YearMonthDay.sysDays_years h.1
    omega
  · have hyears := YearMonthDay.sysDays_years (show (utc instant).year + 1 ≤ 10000 by omega)
    omega

/-- An instant of a year of four digits is that of a moment, whose text is written. -/
theorem exists_moment {instant : Int} (h : Representable instant) :
    ∃ m : Moment, m.Valid ∧ m.instant = instant ∧ timeText instant = m.text := by
  obtain ⟨hfirst, hlast⟩ := (representable_iff instant).1 h
  obtain ⟨hok, hdays⟩ := YearMonthDay.ofSysDays_ok (instant / 86400000)
  obtain ⟨year, hyear⟩ := Int.eq_ofNat_of_zero_le hfirst
  obtain ⟨time, htime⟩ : ∃ time : Nat, instant - instant / 86400000 * 86400000 = time :=
    ⟨(instant - instant / 86400000 * 86400000).toNat, by omega⟩
  let m : Moment := ⟨year, (utc instant).month, (utc instant).day, time⟩
  have hdate : m.date = utc instant := by
    show (⟨year, _, _⟩ : YearMonthDay) = _
    rw [← hyear]
  have hyear' : year < 10000 := by omega
  have htime' : time < 86400000 := by omega
  have hvalid : m.Valid := ⟨hyear', by rw [hdate]; exact hok, htime'⟩
  have hmonth : (utc instant).month ≤ 12 := hvalid.month_le
  have hday : (utc instant).day ≤ 31 := hvalid.day_le
  refine ⟨m, hvalid, ?_, ?_⟩
  · show m.date.sysDays * 86400000 + (time : Int) = instant
    rw [hdate]
    show YearMonthDay.sysDays (.ofSysDays (instant / 86400000)) * 86400000 + (time : Int) = instant
    rw [hdays]
    omega
  · have hhour : (time : Int) / 3600000 = (time / 3600000 : Nat) := rfl
    have hminute : (time : Int) / 60000 % 60 = (time / 60000 % 60 : Nat) := rfl
    have hsecond : (time : Int) / 1000 % 60 = (time / 1000 % 60 : Nat) := rfl
    have hms : (time : Int) % 1000 = (time % 1000 : Nat) := rfl
    unfold timeText
    dsimp only
    rw [htime, show YearMonthDay.ofSysDays (instant / 86400000) = utc instant from rfl, hyear,
      hhour, hminute, hsecond, hms, padded_eq (by omega) hyear',
      padded_eq (by omega) (by omega), padded_eq (by omega) (by omega),
      padded_eq (by omega) (by omega), padded_eq (by omega) (by omega),
      padded_eq (by omega) (by omega), padded_eq (by omega) (by omega)]
    simp only [List.append_assoc, List.cons_append]
    rfl

/-- The bytes between the numbers of a time, and the digits of these. -/
theorem separator_of_shape {raw : Bytes} {i : Nat} {c : UInt8} (h : timestampShape raw = true)
    (hi : i < 19) (hc : raw[i]? = some c) : (separator i).elim (isDigit c) (c = ·) = true := by
  unfold timestampShape at h
  simp only [Bool.and_eq_true] at h
  refine List.all_eq_true.1 h.1.2 (c, i) (List.mk_mem_zipIdx_iff_getElem?.2 ?_)
  rwa [List.getElem?_take_of_lt hi]

/-- A year of another number of digits is not read. The sign of a negative year stands where the
shape asks for a digit, and the fifth digit of a long one where it asks for a hyphen. -/
theorem representable_of_shape {instant : Int} (h : timestampShape (timeText instant) = true) :
    Representable instant := by
  rw [representable_iff]
  obtain ⟨rest, hrest⟩ : ∃ rest, timeText instant = padded 4 (utc instant).year ++ rest := by
    unfold timeText
    simp only [List.append_assoc]
    exact ⟨_, rfl⟩
  rw [hrest] at h
  refine ⟨?_, ?_⟩
  · by_contra hneg
    have hsign : (padded 4 (utc instant).year ++ rest)[0]? = some 45 := by
      unfold padded
      dsimp only
      rw [if_pos (by omega)]
      rfl
    have hdigit := separator_of_shape h (by omega) hsign
    cases hdigit
  · by_contra hlarge
    have hlong : 4 < (decimal (utc instant).year.natAbs).length := by
      by_contra hshort
      have hlt := (Nat.length_toDigits_le_iff (b := 10) (k := 4) (by omega) (by omega)).1
        (by simpa [decimal] using hshort)
      omega
    have hdecimal : padded 4 (utc instant).year = decimal (utc instant).year.natAbs := by
      unfold padded
      dsimp only
      rw [if_neg (by omega), Nat.sub_eq_zero_of_le hlong.le]
      rfl
    have hfifth : (padded 4 (utc instant).year ++ rest)[4]?
        = some ((decimal (utc instant).year.natAbs).get ⟨4, hlong⟩) := by
      rw [hdecimal, List.getElem?_append_left hlong]
      exact List.getElem?_eq_getElem hlong
    have hminus : (decimal (utc instant).year.natAbs).get ⟨4, hlong⟩ = 45 := by
      simpa [separator] using separator_of_shape h (by omega) hfifth
    have hdigit :=
      digit_of_mem_decimal (List.get_mem (decimal (utc instant).year.natAbs) ⟨4, hlong⟩)
    rw [hminus] at hdigit
    exact absurd hdigit.1 (by decide)

/-! ## What a text says -/

/-- The day a text is written with. -/
def written (raw : Bytes) : YearMonthDay :=
  ⟨number (substr raw 0 4), number (substr raw 5 2), number (substr raw 8 2)⟩

/-- The minutes of a text since the beginning of its day. -/
def minuteOfDay (raw : Bytes) : Nat := number (substr raw 11 2) * 60 + number (substr raw 14 2)

/-- The minutes a text is ahead of UTC: its last six bytes say them, if it does not end with `Z`. -/
def offset (raw : Bytes) : Int :=
  let last := raw.drop (raw.length - 6)
  if raw.getLast? = some 90 then 0
  else (number (substr last 1 2) * 60 + number (substr last 4 2)) *
    if last.head? = some 43 then 1 else -1

/-- The digits behind the point with which the end of a text begins, if there is one. -/
def decimals : Bytes → Bytes
  | 46 :: rest => rest.takeWhile isDigit
  | _ => []

/-- The value of digits behind a point. -/
def decimalValue (s : Bytes) : ℚ := number s / 10 ^ s.length

/-- The instant a text denotes, in seconds since 1970-01-01T00:00:00Z. The written day is counted in
the calendar, the offset is taken off the time of day, and the fraction is the decimal number that
its digits spell. -/
def denoted (raw : Bytes) : ℚ :=
  (written raw).counted * 86400 + (minuteOfDay raw - offset raw) * 60 +
    (number (substr raw 17 2) + decimalValue (decimals (raw.drop 19)))

/-- What is read as a number consists of digits and is their number. -/
theorem digits_ok {s : Bytes} {n : Nat} (h : digits s = .ok n) :
    n = number s ∧ s.all isDigit = true := by
  simp only [digits, bind_ok, require_ok, pure_ok] at h
  obtain ⟨_, ⟨-, hdigits, -⟩, hn⟩ := h
  exact ⟨hn.symm, hdigits⟩

/-- A number is below the power of ten of its length. -/
theorem number_lt {s : Bytes} (h : s.all isDigit = true) : number s < 10 ^ s.length := by
  induction s using List.reverseRecOn with
  | nil =>
      rw [List.length_nil, pow_zero]
      exact Nat.zero_lt_one
  | append_singleton s c ih =>
      rw [List.all_append, Bool.and_eq_true] at h
      have hbefore := ih h.1
      have hlast : c.toNat ≤ 57 := by
        have hdigit : isDigit c = true := by simpa using h.2
        simp only [isDigit, Bool.and_eq_true, decide_eq_true_eq, UInt8.le_iff_toNat_le] at hdigit
        exact hdigit.2
      unfold number at hbefore ⊢
      rw [List.foldl_append, List.foldl_cons, List.foldl_nil, List.length_append,
        List.length_singleton, pow_succ]
      omega

/-- A zone that is read is the offset written at the end of the text, of less than a day. The shapes
are the letter for none and a sign with hours and minutes, and what is read of either is what is
written there. -/
theorem zone_ok {rest : Bytes} {timezone : Int} (h : zoneShape rest = true)
    (hz : zone rest = .ok timezone) (before : Bytes) :
    timezone = offset (before ++ rest) ∧ -1440 < timezone ∧ timezone < 1440 := by
  unfold zoneShape at h
  split at h
  · next z =>
      obtain rfl : z = 90 := of_decide_eq_true h
      obtain rfl : (0 : Int) = timezone := Except.ok.inj hz
      have hlast : (before ++ [90]).getLast? = some 90 := List.getLast?_concat
      refine ⟨?_, by omega, by omega⟩
      unfold offset
      dsimp only
      rw [if_pos hlast]
  · next sign h₁ h₂ colon m₁ m₂ =>
      simp only [Bool.and_eq_true, Bool.or_eq_true, decide_eq_true_eq] at h
      obtain ⟨⟨⟨⟨⟨hsign, -⟩, -⟩, -⟩, -⟩, hdigit⟩ := h
      have hz90 : ¬ [sign, h₁, h₂, colon, m₁, m₂].head? = some 90 := by
        intro heq
        obtain rfl : sign = 90 := Option.some.inj heq
        rcases hsign with hplus | hminus
        · cases hplus
        · cases hminus
      have hlast : ¬ (before ++ [sign, h₁, h₂, colon, m₁, m₂]).getLast? = some 90 := by
        intro heq
        have hm : (before ++ [sign, h₁, h₂, colon, m₁, m₂]).getLast? = some m₂ := by simp
        rw [hm] at heq
        obtain rfl := Option.some.inj heq
        cases hdigit
      have hdrop : (before ++ [sign, h₁, h₂, colon, m₁, m₂]).drop
          ((before ++ [sign, h₁, h₂, colon, m₁, m₂]).length - 6)
            = [sign, h₁, h₂, colon, m₁, m₂] := by
        simp
      unfold zone at hz
      rw [if_neg hz90] at hz
      simp only [bind_ok, require_ok, pure_ok] at hz
      obtain ⟨hours, hhours, minutes, hminutes, _, ⟨hhour, hminute⟩, hsum⟩ := hz
      obtain ⟨hhours', -⟩ := digits_ok hhours
      obtain ⟨hminutes', -⟩ := digits_ok hminutes
      refine ⟨?_, ?_⟩
      · unfold offset
        dsimp only
        rw [if_neg hlast, hdrop, ← hhours', ← hminutes']
        exact hsum.symm
      · rw [← hsum]
        split
        · omega
        · omega
  · cases h

/-- Scaled by its number of digits, a fraction of at most three digits is its decimal value in
thousandths. -/
theorem scaled_decimals {s : Bytes} (hne : s ≠ []) (hdigits : s.all isDigit = true)
    (hlength : s.length ≤ 3) :
    let ms := if s.length = 1 then number s * 100 else if s.length = 2 then number s * 10
      else number s
    ms < 1000 ∧ (ms : ℚ) = decimalValue s * 1000 := by
  have hlt := number_lt hdigits
  have hpos := List.length_pos_iff.2 hne
  unfold decimalValue
  dsimp only
  split
  · next hone =>
      rw [hone] at hlt ⊢
      refine ⟨by omega, ?_⟩
      push_cast
      ring
  · split
    · next htwo =>
        rw [htwo] at hlt ⊢
        refine ⟨by omega, ?_⟩
        push_cast
        ring
    · have hthree : s.length = 3 := by omega
      rw [hthree] at hlt ⊢
      refine ⟨by omega, ?_⟩
      ring

/-- What `fraction` reads at the end of a text are the thousandths of its fraction, and the zone. A
fraction of one or two digits is filled with zeros up to three, which multiplies its value
accordingly. -/
theorem fraction_ok {s rest : Bytes} {ms : Nat} (h : endShape s = true)
    (hf : fraction s = .ok (ms, rest)) :
    zoneShape rest = true ∧ (∃ before, s = before ++ rest) ∧ ms < 1000 ∧
      (ms : ℚ) = decimalValue (decimals s) * 1000 := by
  unfold endShape at h
  split at h
  · next more =>
      simp only [Bool.and_eq_true, decide_eq_true_eq] at h
      obtain ⟨⟨hne, hlength⟩, hzone⟩ := h
      have hunfold : fraction (46 :: more) = (do
          let n ← digits (more.takeWhile isDigit)
          pure (if (more.takeWhile isDigit).length = 1 then n * 100
            else if (more.takeWhile isDigit).length = 2 then n * 10 else n,
            more.dropWhile isDigit)) := rfl
      rw [hunfold] at hf
      simp only [bind_ok, pure_ok, Prod.mk.injEq] at hf
      obtain ⟨n, hn, hms, rfl⟩ := hf
      obtain ⟨rfl, hdigits⟩ := digits_ok hn
      refine ⟨hzone, ⟨46 :: more.takeWhile isDigit, ?_⟩, ?_⟩
      · rw [List.cons_append, List.takeWhile_append_dropWhile]
      · rw [← hms]
        exact scaled_decimals hne hdigits hlength
  · next hdot =>
      have hunfold : fraction s = .ok (0, s) := by
        unfold fraction
        split
        · next more => exact absurd rfl (hdot more)
        · rfl
      have hdecimals : decimals s = [] := by
        unfold decimals
        split
        · next more => exact absurd rfl (hdot more)
        · rfl
      rw [hunfold] at hf
      obtain ⟨hms, hrest⟩ := Prod.mk.inj (Except.ok.inj hf)
      rw [← hms, ← hrest, hdecimals]
      refine ⟨h, ⟨[], rfl⟩, by omega, ?_⟩
      simp [decimalValue, number]

/-- What is read in an accepted text: a day of the calendar, a time of day, an offset of less than
a day, and the milliseconds of its seconds and their fraction. -/
structure Reads (raw : Bytes) (instant : Int) : Prop where
  date : (written raw).ok = true
  year : 0 ≤ (written raw).year ∧ (written raw).year < 10000
  minute : minuteOfDay raw < 1440
  offset : -1440 < offset raw ∧ offset raw < 1440
  parts : ∃ ms : Nat, (ms < 1000 ∧ (ms : ℚ) = decimalValue (decimals (raw.drop 19)) * 1000) ∧
    number (substr raw 17 2) < 60 ∧ instant = (written raw).sysDays * 86400000
      + (minuteOfDay raw - Native.offset raw) * 60000 + (number (substr raw 17 2) * 1000 + ms)

/-- **The instant of a text** is put together from the day, the time and the offset it is written
with. -/
theorem instantOf_ok {raw : Bytes} {instant : Int} (h : instantOf raw = .ok instant) :
    Reads raw instant := by
  simp only [instantOf, bind_ok, require_ok, pure_ok] at h
  obtain ⟨_, hshape, year, hyear, month, hmonth, day, hday, hour, hhour, minute, hminute, second,
    hsecond, _, ⟨hok, hhours, hminutes, hseconds⟩, parts, hfraction, timezone, hzone, hsum⟩ := h
  obtain ⟨ms, rest⟩ := parts
  obtain ⟨rfl, hdigits⟩ := digits_ok hyear
  obtain ⟨rfl, -⟩ := digits_ok hmonth
  obtain ⟨rfl, -⟩ := digits_ok hday
  obtain ⟨rfl, -⟩ := digits_ok hhour
  obtain ⟨rfl, -⟩ := digits_ok hminute
  obtain ⟨rfl, -⟩ := digits_ok hsecond
  unfold timestampShape at hshape
  simp only [Bool.and_eq_true] at hshape
  obtain ⟨hend, ⟨before, hbefore⟩, hms⟩ := fraction_ok hshape.2 hfraction
  have hraw : raw = raw.take 19 ++ before ++ rest := by
    rw [List.append_assoc, ← hbefore, List.take_append_drop]
  obtain ⟨hoffset, hahead⟩ := zone_ok hend hzone (raw.take 19 ++ before)
  rw [← hraw] at hoffset
  have hyear' : number (substr raw 0 4) < 10000 :=
    lt_of_lt_of_le (number_lt hdigits)
      (Nat.pow_le_pow_right (n := 10) (by omega) (List.length_take_le 4 _))
  refine ⟨hok, ⟨Int.natCast_nonneg _, Int.ofNat_lt.2 hyear'⟩, ?_, ?_, ms, hms, hseconds, ?_⟩
  · unfold minuteOfDay
    omega
  · rwa [← hoffset]
  · rw [← hsum, ← hoffset]
    unfold minuteOfDay written
    push_cast
    ring

/-- **An accepted text has the instant it denotes**, to the millisecond: what `timestamp` reads are
the thousandths of the denoted seconds, and nothing is rounded. -/
theorem instantOf_denoted {raw : Bytes} {instant : Int} (h : instantOf raw = .ok instant) :
    denoted raw = instant / 1000 := by
  have hread := instantOf_ok h
  obtain ⟨ms, ⟨-, hms⟩, -, rfl⟩ := hread.parts
  rw [denoted, ← YearMonthDay.sysDays_counted hread.date hread.year.1]
  push_cast
  rw [hms]
  ring

/-! ## The texts that stay in the calendar -/

/-- The texts whose instant in UTC has a year of four digits: all but those of the first day that
are further ahead of UTC than their time of day, and those of the last day that are further behind
than what is left of it. -/
structure InCalendar (raw : Bytes) : Prop where
  first : written raw = ⟨0, 1, 1⟩ → offset raw ≤ minuteOfDay raw
  last : written raw = ⟨9999, 12, 31⟩ → minuteOfDay raw - offset raw < 1440

/-- A day of a year of four digits is not before the first of them, nor after the last. -/
theorem YearMonthDay.sysDays_bounds {d : YearMonthDay} (hok : d.ok = true)
    (hyear : 0 ≤ d.year ∧ d.year < 10000) :
    (d = ⟨0, 1, 1⟩ ∨ sysDays ⟨0, 1, 1⟩ < d.sysDays) ∧
      (d = ⟨9999, 12, 31⟩ ∨ d.sysDays < sysDays ⟨9999, 12, 31⟩) := by
  obtain ⟨⟨hmonth, hmonth'⟩, hday, hday'⟩ := ok_iff.1 hok
  have hday31 : d.month = 12 → d.day ≤ 31 := by
    intro hdecember
    rw [hdecember] at hday'
    exact hday'
  refine ⟨?_, ?_⟩
  · rcases earlier_or ⟨0, 1, 1⟩ d with hlater | heq | hearlier
    · exact .inr (sysDays_lt rfl hok hlater)
    · exact .inl heq.symm
    · simp only [Earlier] at hearlier
      omega
  · rcases earlier_or d ⟨9999, 12, 31⟩ with hearlier | heq | hlater
    · exact .inr (sysDays_lt hok rfl hearlier)
    · exact .inl heq
    · simp only [Earlier] at hlater
      omega

/-- The instant of an accepted text is representable exactly when what it denotes lies within the
years 0 to 9999. -/
theorem representable_iff_inCalendar {raw : Bytes} {instant : Int}
    (h : instantOf raw = .ok instant) : Representable instant ↔ InCalendar raw := by
  have hread := instantOf_ok h
  have hminute := hread.minute
  have hoffset := hread.offset
  obtain ⟨ms, ⟨hms, -⟩, hsecond, rfl⟩ := hread.parts
  obtain ⟨hfirst, hlast⟩ := YearMonthDay.sysDays_bounds hread.date hread.year
  have hend : YearMonthDay.sysDays ⟨10000, 1, 1⟩ = YearMonthDay.sysDays ⟨9999, 12, 31⟩ + 1 := rfl
  refine ⟨fun hrep => ⟨fun heq => ?_, fun heq => ?_⟩, fun hin => ⟨?_, ?_⟩⟩
  · have hbegin := hrep.1
    rw [heq] at hbegin
    omega
  · have hstop := hrep.2
    rw [heq] at hstop
    omega
  · rcases hfirst with heq | hlt
    · have hle := hin.first heq
      rw [heq]
      omega
    · omega
  · rcases hlast with heq | hlt
    · have hle := hin.last heq
      rw [heq]
      omega
    · omega

/-! ## Timestamps -/

/-- An instant is read back only if its year has four digits. -/
theorem representable_of_read {instant again : Int}
    (h : instantOf (timeText instant) = .ok again) : Representable instant := by
  simp only [instantOf, bind_ok, require_ok] at h
  obtain ⟨_, hshape, -⟩ := h
  exact representable_of_shape hshape

/-- What is written of an instant whose year has four digits is read back as that instant. -/
theorem instantOf_timeText {instant : Int} (h : Representable instant) :
    instantOf (timeText instant) = .ok instant := by
  obtain ⟨m, hvalid, hinstant, htext⟩ := exists_moment h
  have hread := Moment.instantOf_text hvalid
  rwa [← htext, hinstant] at hread

/-- A timestamp of a text that is read back as itself, and denotes the instant of the text. -/
def Canonical (raw t : Bytes) : Prop := timestamp t = .ok t ∧ denoted t = denoted raw

/-- The timestamp of a text is canonical exactly if its instant has a year of four digits. -/
theorem canonical_iff {raw : Bytes} {instant : Int} (h : instantOf raw = .ok instant) :
    Canonical raw (timeText instant) ↔ Representable instant := by
  refine ⟨fun hcanonical => ?_, fun hrep => ?_⟩
  · obtain ⟨again, hread, -⟩ := timestamp_ok.1 hcanonical.1
    exact representable_of_read hread
  · have hread := instantOf_timeText hrep
    exact ⟨timestamp_ok.2 ⟨instant, hread, rfl⟩,
      (instantOf_denoted hread).trans (instantOf_denoted h).symm⟩

/-- **Timestamps are in the order of their instants.** -/
theorem order_timeText {instant instant' : Int} (h : Representable instant)
    (h' : Representable instant') (hlt : instant < instant') :
    order (timeText instant) < order (timeText instant') := by
  obtain ⟨m, hvalid, rfl, htext⟩ := exists_moment h
  obtain ⟨m', hvalid', rfl, htext'⟩ := exists_moment h'
  rw [htext, htext']
  exact Moment.order_text hvalid' (Moment.earlier_of_instant hvalid hvalid' hlt)

/-- Timestamps that compare as the instants do that texts denote. -/
def Compared (t t' : Bytes) (instant instant' : ℚ) : Prop :=
  (order t < order t' ↔ instant < instant') ∧ (t = t' ↔ instant = instant')

/-- The timestamps of instants in years of four digits compare as the instants. -/
theorem compared_timeText {instant instant' : Int} (h : Representable instant)
    (h' : Representable instant') :
    Compared (timeText instant) (timeText instant') (instant / 1000) (instant' / 1000) := by
  have hlt := order_timeText h h'
  have hgt := order_timeText h' h
  have hless : (instant : ℚ) / 1000 < instant' / 1000 ↔ instant < instant' := by
    rw [div_lt_div_iff_of_pos_right (by norm_num), Int.cast_lt]
  have hsame : (instant : ℚ) / 1000 = instant' / 1000 ↔ instant = instant' := by
    rw [div_left_inj' (by norm_num), Int.cast_inj]
  unfold Compared
  rw [hless, hsame]
  rcases lt_trichotomy instant instant' with hless | rfl | hgreater
  · have hne : timeText instant ≠ timeText instant' := fun heq => (hlt hless).ne (congrArg _ heq)
    exact ⟨⟨fun _ => hless, hlt⟩, ⟨fun heq => absurd heq hne, fun heq => absurd heq hless.ne⟩⟩
  · exact ⟨⟨fun hself => absurd hself (lt_irrefl _), fun hself => absurd hself (lt_irrefl _)⟩,
      ⟨fun _ => rfl, fun _ => rfl⟩⟩
  · have hne : timeText instant ≠ timeText instant' :=
      fun heq => (hgt hgreater).ne' (congrArg _ heq)
    exact ⟨⟨fun hless => absurd hless (not_lt_of_gt (hgt hgreater)),
        fun hless => absurd hless (not_lt_of_gt hgreater)⟩,
      ⟨fun heq => absurd heq hne, fun heq => absurd heq hgreater.ne'⟩⟩

/-- **Accepted texts have canonical and ordered timestamps exactly if they stay in the calendar.**
Then both timestamps are accepted again as themselves, denote the instants of the texts, and are in
the order of these. An offset that moves a text of the first day before the year 0, or one of the
last day into the year 10000, makes a timestamp that is not read back. -/
theorem timestamps_iff {raw raw' t t' : Bytes} (h : timestamp raw = .ok t)
    (h' : timestamp raw' = .ok t') :
    (Canonical raw t ∧ Canonical raw' t' ∧ Compared t t' (denoted raw) (denoted raw')) ↔
      InCalendar raw ∧ InCalendar raw' := by
  obtain ⟨instant, hread, rfl⟩ := timestamp_ok.1 h
  obtain ⟨instant', hread', rfl⟩ := timestamp_ok.1 h'
  rw [canonical_iff hread, canonical_iff hread', instantOf_denoted hread, instantOf_denoted hread',
    ← representable_iff_inCalendar hread, ← representable_iff_inCalendar hread']
  exact ⟨fun hall => ⟨hall.1, hall.2.1⟩,
    fun hrep => ⟨hrep.1, hrep.2, compared_timeText hrep.1 hrep.2⟩⟩

/-- A text of a leap day that its offset moves into March, and one half a second earlier: their
timestamps are canonical, and in their order. -/
theorem timestamps_sample :
    Canonical (ascii "2024-02-29T23:30:00.5-01:00") (ascii "2024-03-01T00:30:00.500Z") ∧
      Canonical (ascii "2024-03-01T00:30:00Z") (ascii "2024-03-01T00:30:00.000Z") ∧
        Compared (ascii "2024-03-01T00:30:00.500Z") (ascii "2024-03-01T00:30:00.000Z")
          (denoted (ascii "2024-02-29T23:30:00.5-01:00"))
          (denoted (ascii "2024-03-01T00:30:00Z")) := by
  refine (timestamps_iff (toOption_eq_some.1 (by decide +kernel))
    (toOption_eq_some.1 (by decide +kernel))).2 ⟨⟨fun h => ?_, fun h => ?_⟩,
      fun h => ?_, fun h => ?_⟩
  all_goals exact absurd h (by decide +kernel)

/-- Where the year 0 begins a minute ahead of UTC, its first timestamp is not read back; where the
year 9999 ends an hour behind UTC, its last one comes before those of earlier instants. -/
theorem timestamp_overflow :
    (timestamp (ascii "0000-01-01T00:00:00+00:01") = .ok (ascii "-001-12-31T23:59:00.000Z") ∧
      ∀ t, timestamp (ascii "-001-12-31T23:59:00.000Z") ≠ .ok t) ∧
    (timestamp (ascii "9999-12-31T23:59:59-01:00") = .ok (ascii "10000-01-01T00:59:59.000Z") ∧
      timestamp (ascii "9999-12-31T00:00:00Z") = .ok (ascii "9999-12-31T00:00:00.000Z") ∧
      order (ascii "10000-01-01T00:59:59.000Z") < order (ascii "9999-12-31T00:00:00.000Z") ∧
      denoted (ascii "9999-12-31T00:00:00Z") < denoted (ascii "9999-12-31T23:59:59-01:00")) := by
  have hlate : instantOf (ascii "9999-12-31T23:59:59-01:00") = .ok 253402304399000 :=
    toOption_eq_some.1 (by decide +kernel)
  have hearly : instantOf (ascii "9999-12-31T00:00:00Z") = .ok 253402214400000 :=
    toOption_eq_some.1 (by decide +kernel)
  refine ⟨⟨toOption_eq_some.1 (by decide +kernel), ?_⟩, toOption_eq_some.1 (by decide +kernel),
    toOption_eq_some.1 (by decide +kernel), by decide +kernel, ?_⟩
  · intro t h
    have hnone : (timestamp (ascii "-001-12-31T23:59:00.000Z")).toOption = none := by
      decide +kernel
    rw [h] at hnone
    cases hnone
  · rw [instantOf_denoted hlate, instantOf_denoted hearly]
    norm_num

end Native

end FileProvider
