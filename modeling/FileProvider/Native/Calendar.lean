import FileProvider.Native.Times
import Mathlib.Tactic.IntervalCases

/-!
# The calendar

`sysDays` counts the days of the Gregorian calendar: a month begins as many days after the one
before as that one has, and a year after its December. So the number that its closed formula gives
is the one found by counting years, months and days (`sysDays_counted`), later days have greater
numbers (`sysDays_lt`), and `ofSysDays` finds the day of a number again (`ofSysDays_ok`).

The closed formulas are the ones of `std::chrono`, with years that begin in March and cycles of 400
of them. `counted` is the calendar as people count it; the two are shown to agree by stepping
through months and years, and no more is used of the formulas afterwards.
-/

namespace FileProvider

namespace Native

/-- The source's test for leap years is the rule of the calendar. -/
theorem leapYear_iff {year : Int} :
    leapYear year = true ↔ year % 4 = 0 ∧ (year % 100 ≠ 0 ∨ year % 400 = 0) := by
  simp only [leapYear, Bool.and_eq_true, Bool.or_eq_true, decide_eq_true_eq]

namespace YearMonthDay

/-! ## Months and years -/

/-- The days before the first of March of a year, from that of the year 0. -/
def before (year : Int) : Int := 365 * year + year / 4 - year / 100 + year / 400

/-- The year of a day when years begin in March. -/
def marchYear (d : YearMonthDay) : Int := if d.month ≤ 2 then d.year - 1 else d.year

/-- The source's formula counts the days of the years before, from March on, and the days within the
year. -/
theorem sysDays_eq (d : YearMonthDay) : d.sysDays =
    before d.marchYear + ((153 * ((d.month + 9) % 12) + 2) / 5 + d.day - 1) - 719468 := by
  unfold sysDays before marchYear
  generalize (if d.month ≤ 2 then d.year - 1 else d.year) = year
  dsimp only
  omega

/-- The days before a year grow by its 365 or 366 days. -/
theorem before_succ (year : Int) :
    before (year + 1) = before year + 365 + if leapYear (year + 1) = true then 1 else 0 := by
  rw [before, before]
  split
  · next h =>
      rw [leapYear_iff] at h
      omega
  · next h =>
      rw [leapYear_iff] at h
      omega

/-- A month begins where the one before it ends. -/
theorem sysDays_month (year : Int) {month : Nat} (h : 1 ≤ month) (h' : month < 12) :
    sysDays ⟨year, month + 1, 1⟩ = sysDays ⟨year, month, 1⟩ + lastDay year month := by
  have hbefore := before_succ (year - 1)
  rw [sub_add_cancel] at hbefore
  rw [sysDays_eq, sysDays_eq]
  by_cases hleap : leapYear year = true
  · rw [if_pos hleap] at hbefore
    interval_cases month <;> norm_num [marchYear, lastDay, hleap] <;> omega
  · rw [if_neg hleap] at hbefore
    interval_cases month <;> norm_num [marchYear, lastDay, hleap] <;> omega

/-- A year begins where its December ends. -/
theorem sysDays_year (year : Int) :
    sysDays ⟨year + 1, 1, 1⟩ = sysDays ⟨year, 12, 1⟩ + lastDay year 12 := by
  rw [sysDays_eq, sysDays_eq]
  norm_num [marchYear, lastDay]
  omega

/-- Within a month the count follows the day. -/
theorem sysDays_day (year : Int) (month day : Nat) :
    sysDays ⟨year, month, day⟩ = sysDays ⟨year, month, 1⟩ + (day - 1) := by
  rw [sysDays_eq, sysDays_eq]
  simp only [marchYear]
  omega

/-- A date is accepted exactly when its month and day exist. -/
theorem ok_iff {d : YearMonthDay} : d.ok = true ↔
    (1 ≤ d.month ∧ d.month ≤ 12) ∧ 1 ≤ d.day ∧ d.day ≤ lastDay d.year d.month := by
  simp only [ok, Bool.and_eq_true, decide_eq_true_eq]
  tauto

/-! ## Later days -/

/-- Within a year the count grows with the month. -/
theorem sysDays_months (year : Int) {month month' : Nat} (h : 1 ≤ month) (hle : month ≤ month')
    (h' : month' ≤ 12) : sysDays ⟨year, month, 1⟩ ≤ sysDays ⟨year, month', 1⟩ := by
  induction month', hle using Nat.le_induction with
  | base => exact le_rfl
  | succ k hk ih =>
      rw [sysDays_month year (by omega) (by omega)]
      have hbefore := ih (by omega)
      omega

/-- The count grows with the year. -/
theorem sysDays_years {year year' : Int} (h : year ≤ year') :
    sysDays ⟨year, 1, 1⟩ ≤ sysDays ⟨year', 1, 1⟩ := by
  rw [sysDays_eq, sysDays_eq]
  norm_num [marchYear, before]
  omega

/-- A day is in its year. -/
theorem sysDays_within {d : YearMonthDay} (h : d.ok = true) :
    sysDays ⟨d.year, 1, 1⟩ ≤ d.sysDays ∧ d.sysDays < sysDays ⟨d.year + 1, 1, 1⟩ := by
  obtain ⟨⟨hfirst, hlast⟩, hday, hend⟩ := ok_iff.1 h
  have hsplit := sysDays_day d.year d.month d.day
  have hstart := sysDays_months d.year le_rfl hfirst hlast
  have hyear := sysDays_year d.year
  have hmonth : sysDays ⟨d.year, d.month, 1⟩ + lastDay d.year d.month
      ≤ sysDays ⟨d.year, 12, 1⟩ + lastDay d.year 12 := by
    rcases Nat.lt_or_ge d.month 12 with hlt | hge
    · rw [← sysDays_month d.year hfirst hlt]
      have hrest := sysDays_months d.year (show 1 ≤ d.month + 1 by omega) hlt le_rfl
      omega
    · obtain rfl' : d.month = 12 := by omega
      rw [rfl']
  have hself : d.sysDays = sysDays ⟨d.year, d.month, d.day⟩ := rfl
  omega

/-- The days of the calendar in their order. -/
def Earlier (d d' : YearMonthDay) : Prop :=
  d.year < d'.year ∨ d.year = d'.year ∧ (d.month < d'.month ∨ d.month = d'.month ∧ d.day < d'.day)

/-- **Later days have greater numbers.** Different years are apart since a year ends before the next
begins; within a year the months, and within a month the days, are added up. -/
theorem sysDays_lt {d d' : YearMonthDay} (h : d.ok = true) (h' : d'.ok = true)
    (hd : d.Earlier d') : d.sysDays < d'.sysDays := by
  obtain ⟨year, month, day⟩ := d
  obtain ⟨year', month', day'⟩ := d'
  rcases hd with hyear | ⟨hyear, hmonth | ⟨hmonth, hday⟩⟩
  · have hends := (sysDays_within h).2
    have hstarts := (sysDays_within h').1
    have hbetween := sysDays_years (show year + 1 ≤ year' from hyear)
    exact lt_of_lt_of_le hends (hbetween.trans hstarts)
  · obtain rfl : year = year' := hyear
    obtain ⟨⟨hfirst, -⟩, -, hend⟩ := ok_iff.1 h
    obtain ⟨⟨-, hlast'⟩, hday', -⟩ := ok_iff.1 h'
    have hnext := sysDays_month year hfirst (lt_of_lt_of_le hmonth hlast')
    have hlater := sysDays_months year (show 1 ≤ month + 1 by omega) hmonth hlast'
    rw [sysDays_day year month day, sysDays_day year month' day']
    dsimp only at hend hday' hnext hlater
    omega
  · obtain rfl : year = year' := hyear
    obtain rfl : month = month' := hmonth
    rw [sysDays_day year month day, sysDays_day year month day']
    dsimp only at hday
    omega

/-- Two dates are equal or one of them is earlier. -/
theorem earlier_or (d d' : YearMonthDay) : d.Earlier d' ∨ d = d' ∨ d'.Earlier d := by
  obtain ⟨year, month, day⟩ := d
  obtain ⟨year', month', day'⟩ := d'
  simp only [Earlier, YearMonthDay.mk.injEq]
  omega

/-! ## Counting -/

/-- The days of a year. -/
def daysOfYear (year : Nat) : Nat := if leapYear year = true then 366 else 365

/-- The days from the beginning of the year 0 to that of a year. -/
def daysBeforeYear (year : Nat) : Nat := ((List.range year).map daysOfYear).sum

/-- The days from the beginning of a year to that of a month. -/
def daysBeforeMonth (year : Int) (month : Nat) : Nat :=
  ((List.range' 1 (month - 1)).map (lastDay year)).sum

/-- The days from 1970-01-01 to a day of a year from 0 on, counted year by year, month by month and
day by day. -/
def counted (d : YearMonthDay) : Int :=
  daysBeforeYear d.year.toNat - daysBeforeYear 1970 + daysBeforeMonth d.year d.month + (d.day - 1)

/-- A year begins as many days after the year 0 as the years before it have. -/
theorem sysDays_daysBeforeYear (year : Nat) :
    sysDays ⟨year, 1, 1⟩ = sysDays ⟨0, 1, 1⟩ + daysBeforeYear year := by
  induction year with
  | zero => rfl
  | succ year ih =>
      have hnext : sysDays ⟨(year + 1 : Nat), 1, 1⟩
          = sysDays ⟨year, 1, 1⟩ + daysOfYear year := by
        have hbefore := before_succ ((year : Int) - 1)
        rw [sub_add_cancel] at hbefore
        rw [sysDays_eq, sysDays_eq]
        simp only [marchYear, daysOfYear, Nat.cast_succ, Nat.one_le_ofNat, if_true,
          add_sub_cancel_right, hbefore]
        split <;> push_cast <;> omega
      rw [hnext, ih, daysBeforeYear, daysBeforeYear, List.range_succ, List.map_append,
        List.sum_append, List.map_singleton, List.sum_singleton]
      push_cast
      omega

/-- A month begins as many days after its year as the months before it have. -/
theorem sysDays_daysBeforeMonth (year : Int) {month : Nat} (h : 1 ≤ month) (h' : month ≤ 12) :
    sysDays ⟨year, month, 1⟩ = sysDays ⟨year, 1, 1⟩ + daysBeforeMonth year month := by
  induction month, h using Nat.le_induction with
  | base =>
      rw [daysBeforeMonth, Nat.sub_self, List.range'_zero, List.map_nil, List.sum_nil,
        Nat.cast_zero, add_zero]
  | succ month h ih =>
      have hrange : List.range' 1 month = List.range' 1 (month - 1) ++ [month] := by
        obtain ⟨n, rfl⟩ := Nat.exists_eq_add_of_le' h
        rw [Nat.add_sub_cancel, List.range'_1_concat, Nat.add_comm 1 n]
      rw [sysDays_month year h (by omega), ih (by omega), daysBeforeMonth, daysBeforeMonth,
        Nat.add_sub_cancel, hrange, List.map_append, List.sum_append, List.map_singleton,
        List.sum_singleton]
      push_cast
      omega

/-- **The number of a day is its place in the calendar**: `sysDays` gives the days counted. The year
begins where the years before it end, and within the year both count the days of the months before.
-/
theorem sysDays_counted {d : YearMonthDay} (h : d.ok = true) (hyear : 0 ≤ d.year) :
    d.sysDays = d.counted := by
  obtain ⟨year, month, day⟩ := d
  obtain ⟨⟨hfirst, hlast⟩, -⟩ := ok_iff.1 h
  obtain ⟨year, rfl⟩ := Int.eq_ofNat_of_zero_le hyear
  have hstart := sysDays_daysBeforeYear 1970
  have hepoch : sysDays ⟨(1970 : Nat), 1, 1⟩ = 0 := rfl
  rw [sysDays_day, sysDays_daysBeforeMonth _ hfirst hlast, sysDays_daysBeforeYear, counted,
    Int.toNat_natCast]
  dsimp only
  omega

/-! ## Days of a cycle -/

/-- A day of a cycle of 400 years is one of a century, of four years and of a year in it. -/
theorem cycle_parts {doe : Int} (h : 0 ≤ doe) (h' : doe < 146097) : ∃ c q k r : Int,
    doe = 36524 * c + 1461 * q + 365 * k + r ∧ (0 ≤ c ∧ c ≤ 3) ∧ (0 ≤ q ∧ q ≤ 24) ∧
      (0 ≤ k ∧ k ≤ 3) ∧ (0 ≤ r ∧ r ≤ 365) ∧ (r = 365 → k = 3 ∧ (q = 24 → c = 3)) := by
  let c := min (doe / 36524) 3
  let rest := doe - 36524 * c
  let q := rest / 1461
  let more := rest - 1461 * q
  let k := min (more / 365) 3
  refine ⟨c, q, k, more - 365 * k, ?_, ?_, ?_, ?_, ?_, ?_⟩
  all_goals omega

/-- The formula for the year of an era, for a day given by its centuries, fours of years, years and
days. -/
theorem yearOfEra_eq {c q k r : Int} (hc : 0 ≤ c ∧ c ≤ 3) (hq : 0 ≤ q ∧ q ≤ 24)
    (hk : 0 ≤ k ∧ k ≤ 3) (hr : 0 ≤ r ∧ r ≤ 365) (hlast : r = 365 → k = 3 ∧ (q = 24 → c = 3))
    {doe : Int} (h : doe = 36524 * c + 1461 * q + 365 * k + r) :
    (doe - doe / 1460 + doe / 36524 - doe / 146096) / 365 = 100 * c + 4 * q + k := by
  have hcentury : doe / 36524 - doe / 146096 = c := by
    have hfull : 1461 * q + 365 * k + r ≤ 36524 := by omega
    by_cases hlast' : 1461 * q + 365 * k + r = 36524
    · have hc3 : c = 3 := by omega
      omega
    · have hfloor : doe / 36524 = c := by omega
      have hnone : doe / 146096 = 0 := by omega
      omega
  have hshort : doe / 1460 = 25 * c + q ∧ 24 * c + q + 365 * k + r < 1460 ∨
      doe / 1460 = 25 * c + q + 1 ∧ 1460 ≤ 24 * c + q + 365 * k + r := by omega
  rcases hshort with ⟨hleap, hsmall⟩ | ⟨hleap, hlarge⟩
  · have hsum : doe - doe / 1460 + doe / 36524 - doe / 146096
        = 365 * (100 * c + 4 * q + k) + r := by omega
    rw [hsum]
    have hr' : r ≤ 364 := by omega
    omega
  · have hsum : doe - doe / 1460 + doe / 36524 - doe / 146096
        = 365 * (100 * c + 4 * q + k) + (r - 1) := by omega
    rw [hsum]
    have hr' : 1 ≤ r := by omega
    omega

/-! ## Days of numbers -/

/-- The day of a number of days since the first of March of a year. -/
def ofDayOfYear (year r : Int) : YearMonthDay :=
  let monthOfYear := ((5 * r + 2) / 153).toNat
  let day := (r - (153 * monthOfYear + 2) / 5 + 1).toNat
  let month := if monthOfYear < 10 then monthOfYear + 3 else monthOfYear - 9
  ⟨year + if month ≤ 2 then 1 else 0, month, day⟩

/-- The formula for month and day, for a day of the year given by its month from March on. -/
theorem ofDayOfYear_eq {year r : Int} {m day : Nat} (hr : r = (153 * m + 2) / 5 + (day - 1))
    (hday : 1 ≤ day) (hm : (5 * r + 2) / 153 = m) : ofDayOfYear year r =
      ⟨year + if (if m < 10 then m + 3 else m - 9) ≤ 2 then 1 else 0,
        if m < 10 then m + 3 else m - 9, day⟩ := by
  have hmonth : ((5 * r + 2) / 153).toNat = m := by
    rw [hm]
    rfl
  have hday' : (r - (153 * (m : Int) + 2) / 5 + 1).toNat = day := by omega
  unfold ofDayOfYear
  rw [hmonth]
  dsimp only
  rw [hday']

/-- A day of a year that begins in March is in one of twelve months. -/
theorem monthOfYear_parts {r : Int} (h : 0 ≤ r ∧ r ≤ 365) : ∃ m day : Nat,
    (5 * r + 2) / 153 = m ∧ m ≤ 11 ∧ r = (153 * m + 2) / 5 + (day - 1) ∧ 1 ≤ day ∧
      r < (153 * (m + 1) + 2) / 5 := by
  refine ⟨((5 * r + 2) / 153).toNat, (r - (153 * ((5 * r + 2) / 153) + 2) / 5 + 1).toNat, ?_⟩
  have hm : 0 ≤ (5 * r + 2) / 153 ∧ (5 * r + 2) / 153 ≤ 11 := by omega
  rw [Int.toNat_of_nonneg hm.1]
  have hbounds : (153 * ((5 * r + 2) / 153) + 2) / 5 ≤ r ∧
      r < (153 * ((5 * r + 2) / 153 + 1) + 2) / 5 := by omega
  generalize (5 * r + 2) / 153 = m at hm hbounds
  refine ⟨rfl, by omega, ?_, by omega, hbounds.2⟩
  omega

/-- The months from March to January have the days between their beginnings. -/
theorem lastDay_of_le (year : Int) {m : Nat} (h : m ≤ 10) :
    (lastDay year (if m < 10 then m + 3 else m - 9) : Int)
      = (153 * (m + 1) + 2) / 5 - (153 * m + 2) / 5 := by
  interval_cases m <;> rfl

/-- The date of a day of the year exists, and counts back to that day. The years of the algorithm
begin in March, so that January and February belong to the next year; the last day is there in leap
years only. -/
theorem ofDayOfYear_ok {year r : Int} (h : 0 ≤ r ∧ r ≤ 365)
    (hlast : r = 365 → leapYear (year + 1) = true) : (ofDayOfYear year r).ok = true ∧
      (ofDayOfYear year r).sysDays = before year + r - 719468 := by
  obtain ⟨m, day, hm, hm11, hr, hday, hnext⟩ := monthOfYear_parts h
  rw [ofDayOfYear_eq hr hday hm, ok_iff, sysDays_eq]
  clear hm
  rcases Nat.lt_or_ge m 11 with hlt | hge
  · have hmonth : (((if m < 10 then m + 3 else m - 9) + 9) % 12) = m := by
      clear hr hnext
      split
      · omega
      · omega
    have hyear : marchYear
        ⟨year + if (if m < 10 then m + 3 else m - 9) ≤ 2 then 1 else 0,
          if m < 10 then m + 3 else m - 9, day⟩ = year := by
      unfold marchYear
      dsimp only
      split
      · omega
      · omega
    have hend := lastDay_of_le
      (year + if (if m < 10 then m + 3 else m - 9) ≤ 2 then 1 else 0) (Nat.le_of_lt_succ hlt)
    refine ⟨⟨?_, hday, ?_⟩, ?_⟩
    · dsimp only
      split
      · omega
      · omega
    · dsimp only
      omega
    · rw [hyear]
      dsimp only
      have hcast : ((((if m < 10 then m + 3 else m - 9 : Nat) : Int) + 9) % 12) = m := by
        exact_mod_cast hmonth
      rw [hcast, hr]
      omega
  · obtain rfl : m = 11 := by omega
    have hyear : marchYear ⟨year + 1, 2, day⟩ = year := by
      unfold marchYear
      dsimp only
      omega
    norm_num
    refine ⟨⟨hday, ?_⟩, ?_⟩
    · by_cases hleap : leapYear (year + 1) = true
      · norm_num [lastDay, hleap]
        omega
      · have hshort : r ≠ 365 := fun hr => hleap (hlast hr)
        norm_num [lastDay, hleap]
        omega
    · rw [hyear, hr]
      omega

/-- The days before the years of a cycle. -/
theorem before_parts {c q k era : Int} (hc : 0 ≤ c ∧ c ≤ 3) (hq : 0 ≤ q ∧ q ≤ 24)
    (hk : 0 ≤ k ∧ k ≤ 3) : before (100 * c + 4 * q + k + era * 400)
      = era * 146097 + 36524 * c + 1461 * q + 365 * k := by
  have hfour : (100 * c + 4 * q + k + era * 400) / 4 = 25 * c + q + 100 * era := by omega
  have hcentury : (100 * c + 4 * q + k + era * 400) / 100 = c + 4 * era := by omega
  have hera : (100 * c + 4 * q + k + era * 400) / 400 = era := by omega
  rw [before, hfour, hcentury, hera]
  ring

/-- **The day of a number is a day of the calendar, and has that number.** The number is divided
into eras, centuries, groups of four years and years, which is what the algorithm of the source
does. -/
theorem ofSysDays_ok (days : Int) :
    (ofSysDays days).ok = true ∧ (ofSysDays days).sysDays = days := by
  obtain ⟨era, hera⟩ : ∃ era, (days + 719468) / 146097 = era := ⟨_, rfl⟩
  obtain ⟨doe, hdoe⟩ : ∃ doe, days + 719468 - era * 146097 = doe := ⟨_, rfl⟩
  have hbounds : 0 ≤ doe ∧ doe < 146097 := by omega
  obtain ⟨c, q, k, r, hparts, hc, hq, hk, hr, hlast⟩ := cycle_parts hbounds.1 hbounds.2
  have hday : ofSysDays days = ofDayOfYear (100 * c + 4 * q + k + era * 400) r := by
    have hfour : (100 * c + 4 * q + k) / 4 = 25 * c + q := by omega
    have hcentury : (100 * c + 4 * q + k) / 100 = c := by omega
    have hrest : doe - (365 * (100 * c + 4 * q + k) + (25 * c + q) - c) = r := by
      rw [hparts]
      ring
    unfold ofSysDays
    dsimp only
    rw [hera, hdoe, yearOfEra_eq hc hq hk hr hlast hparts, hfour, hcentury, hrest]
    rfl
  have hleap : r = 365 → leapYear (100 * c + 4 * q + k + era * 400 + 1) = true := by
    intro hr
    obtain ⟨hk3, hq24⟩ := hlast hr
    clear hera hdoe hparts
    rw [leapYear_iff]
    refine ⟨by omega, ?_⟩
    rcases Int.lt_or_le q 24 with hlt | hge
    · exact .inl (by omega)
    · have hc3 := hq24 (by omega)
      exact .inr (by omega)
  obtain ⟨hok, hdays⟩ := ofDayOfYear_ok hr hleap
  rw [hday]
  refine ⟨hok, hdays.trans ?_⟩
  rw [before_parts hc hq hk]
  omega

end YearMonthDay

end Native

end FileProvider
