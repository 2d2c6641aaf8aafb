import FileProvider.Library.Bytes
import FileProvider.Library.Outcome

/-!
# Times of the native library

`timestamp` reads an ISO-8601 time and writes it in UTC with milliseconds. The calendar is the
proleptic Gregorian one of `std::chrono`, whose days are counted from 1970-01-01.

The source matches the shape of a time first and then reads the numbers from their places, which the
definitions do in the same order. `instantOf` is what is read and `timeText` what is written of it;
the days are computed with the formulas of the standard library.
-/

namespace FileProvider

open Bytes Fallible

namespace Native

/-- A check of persisted metadata. -/
def require (c : Prop) [Decidable c] : Fallible Unit :=
  failIf (¬ c) "Invalid persisted author metadata"

@[simp] theorem require_ok {c : Prop} [Decidable c] {u : Unit} : require c = .ok u ↔ c := by
  unfold require
  rw [failIf_ok, not_not]

/-- `std::isdigit`. -/
def isDigit (c : UInt8) : Bool := 48 ≤ c && c ≤ 57

/-- The number that decimal digits spell. -/
def number (s : Bytes) : Nat := s.foldl (fun n c => 10 * n + (c.toNat - 48)) 0

/-- The number that a decimal text spells. -/
theorem number_decimal (n : Nat) : number (decimal n) = n := by
  have hfold : ∀ (l : List Char) (m : Nat), (∀ c ∈ l, c.isDigit = true) →
      (l.map (fun c => c.toNat.toUInt8)).foldl (fun n c => 10 * n + (c.toNat - 48)) m
        = Nat.ofDigitChars 10 l m := by
    intro l
    induction l with
    | nil =>
        intro m _
        rw [Nat.ofDigitChars_nil]
        rfl
    | cons c l ih =>
        intro m hl
        rw [List.map_cons, List.foldl_cons, Nat.ofDigitChars_cons,
          toNat_toUInt8_of_isDigit (hl c List.mem_cons_self)]
        exact ih _ fun c hc => hl c (List.mem_cons_of_mem _ hc)
  rw [number, decimal, hfold _ _ fun c hc =>
    Nat.isDigit_of_mem_toDigits (by decide) (by decide) hc]
  exact Nat.ofDigitChars_toDigits (by decide) (by decide)

/-- `digits`. -/
def digits (s : Bytes) : Fallible Nat := do
  require (s ≠ [] ∧ s.all isDigit = true ∧ number s < 2 ^ 31)
  pure (number s)

/-- Some bytes of a text. -/
def substr (s : Bytes) (offset count : Nat) : Bytes := (s.drop offset).take count

/-! ## The shape of a time -/

/-- The byte between two numbers of a time, where there is one. -/
def separator (i : Nat) : Option UInt8 :=
  if i = 4 ∨ i = 7 then some 45
  else if i = 10 then some 84
  else if i = 13 ∨ i = 16 then some 58
  else none

/-- The time zone at the end of a time. -/
def zoneShape : Bytes → Bool
  | [z] => z = 90
  | [sign, h, h', colon, m, m'] =>
      (sign = 43 || sign = 45) && colon = 58 && isDigit h && isDigit h' && isDigit m && isDigit m'
  | _ => false

/-- What a time can end with: a fraction of at most three digits, and the time zone. -/
def endShape : Bytes → Bool
  | 46 :: rest =>
      let fraction := rest.takeWhile isDigit
      fraction ≠ [] && fraction.length ≤ 3 && zoneShape (rest.dropWhile isDigit)
  | rest => zoneShape rest

def timestampShape (raw : Bytes) : Bool :=
  20 ≤ raw.length && raw.length ≤ 29
    && (raw.take 19).zipIdx.all (fun e => (separator e.2).elim (isDigit e.1) (e.1 = ·))
    && endShape (raw.drop 19)

/-! ## The calendar -/

/-- A day of the calendar. -/
structure YearMonthDay where
  year : Int
  month : Nat
  day : Nat
deriving DecidableEq

def leapYear (year : Int) : Bool := year % 4 = 0 && (year % 100 ≠ 0 || year % 400 = 0)

/-- The last day of a month. -/
def lastDay (year : Int) (month : Nat) : Nat :=
  if month = 2 then if leapYear year then 29 else 28
  else if month ∈ [4, 6, 9, 11] then 30
  else 31

namespace YearMonthDay

/-- `year_month_day::ok`. -/
def ok (d : YearMonthDay) : Bool :=
  1 ≤ d.month && d.month ≤ 12 && 1 ≤ d.day && d.day ≤ lastDay d.year d.month

/-- `sys_days`: the days since 1970-01-01. The year is taken to begin in March. -/
def sysDays (d : YearMonthDay) : Int :=
  let year := if d.month ≤ 2 then d.year - 1 else d.year
  let era := year / 400
  let yearOfEra := year - era * 400
  let dayOfYear : Int := (153 * ((d.month + 9) % 12) + 2) / 5 + d.day - 1
  let dayOfEra := yearOfEra * 365 + yearOfEra / 4 - yearOfEra / 100 + dayOfYear
  era * 146097 + dayOfEra - 719468

/-- The day of a number of days since 1970-01-01. -/
def ofSysDays (days : Int) : YearMonthDay :=
  let shifted := days + 719468
  let era := shifted / 146097
  let dayOfEra := shifted - era * 146097
  let yearOfEra := (dayOfEra - dayOfEra / 1460 + dayOfEra / 36524 - dayOfEra / 146096) / 365
  let dayOfYear := dayOfEra - (365 * yearOfEra + yearOfEra / 4 - yearOfEra / 100)
  let monthOfYear := ((5 * dayOfYear + 2) / 153).toNat
  let day := (dayOfYear - (153 * monthOfYear + 2) / 5 + 1).toNat
  let month := if monthOfYear < 10 then monthOfYear + 3 else monthOfYear - 9
  ⟨yearOfEra + era * 400 + if month ≤ 2 then 1 else 0, month, day⟩

end YearMonthDay

/-! ## The text of a time -/

/-- The conversion `%0<width>lld`: the sign counts as a byte of the width. -/
def padded (width : Nat) (n : Int) : Bytes :=
  let fill (k : Nat) (s : Bytes) : Bytes := List.replicate (k - s.length) 48 ++ s
  if n < 0 then 45 :: fill (width - 1) (decimal n.natAbs) else fill width (decimal n.natAbs)

/-- The text of a number of milliseconds since 1970-01-01. -/
def timeText (instant : Int) : Bytes :=
  let date := instant / 86400000
  let time := instant - date * 86400000
  let utc := YearMonthDay.ofSysDays date
  padded 4 utc.year ++ 45 :: padded 2 utc.month ++ 45 :: padded 2 utc.day
    ++ 84 :: padded 2 (time / 3600000) ++ 58 :: padded 2 (time / 60000 % 60)
    ++ 58 :: padded 2 (time / 1000 % 60) ++ 46 :: padded 3 (time % 1000) ++ [90]

/-- The fraction of a time in milliseconds, and what comes after it. -/
def fraction (rest : Bytes) : Fallible (Nat × Bytes) :=
  match rest with
  | 46 :: rest => do
      let count := (rest.takeWhile isDigit).length
      let ms ← digits (rest.takeWhile isDigit)
      pure (if count = 1 then ms * 100 else if count = 2 then ms * 10 else ms,
        rest.dropWhile isDigit)
  | rest => pure (0, rest)

/-- The minutes a time zone is ahead. -/
def zone (rest : Bytes) : Fallible Int := do
  if rest.head? = some 90 then pure 0 else do
    let hours ← digits (substr rest 1 2)
    let minutes ← digits (substr rest 4 2)
    require (hours ≤ 23 ∧ minutes < 60)
    pure ((hours * 60 + minutes) * if rest.head? = some 43 then 1 else -1)

/-- What `timestamp` reads: the milliseconds of a text since 1970-01-01. -/
def instantOf (raw : Bytes) : Fallible Int := do
  require (timestampShape raw = true)
  let year ← digits (substr raw 0 4)
  let month ← digits (substr raw 5 2)
  let day ← digits (substr raw 8 2)
  let h ← digits (substr raw 11 2)
  let m ← digits (substr raw 14 2)
  let s ← digits (substr raw 17 2)
  let date : YearMonthDay := ⟨year, month, day⟩
  require (date.ok = true ∧ h < 24 ∧ m < 60 ∧ s < 60)
  let (ms, rest) ← fraction (raw.drop 19)
  let timezone ← zone rest
  let minutes : Int := (date.sysDays * 24 + h) * 60 + (m - timezone)
  pure ((minutes * 60 + s) * 1000 + ms)

/-- `timestamp`: what it reads, and then writes. -/
def timestamp (raw : Bytes) : Fallible Bytes := do
  let instant ← instantOf raw
  pure (timeText instant)

/-- A text has the timestamp that is written of its instant. -/
theorem timestamp_ok {raw t : Bytes} :
    timestamp raw = .ok t ↔ ∃ instant, instantOf raw = .ok instant ∧ timeText instant = t := by
  simp only [timestamp, bind_ok, pure_ok]

example : timestamp (ascii "2024-02-29T23:30:00.5-01:00")
    = .ok (ascii "2024-03-01T00:30:00.500Z") := by
  decide +kernel

end Native

end FileProvider
