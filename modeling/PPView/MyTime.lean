import Mathlib.Algebra.Ring.Int.Defs
import PPView.Fault

/-!
# Dates as strings

`MyTime.h`: a date is eight digits, a time of a day follows behind one other character. Strings
are byte strings, as in the source. The zone is a whole number of hours. Numbers do not overflow,
so the days behind the nineteenth of January 2038 are those of a wider `int`.
-/

namespace PPView

/-- `std::string`. -/
abbrev Str := List UInt8

namespace Str

def isDigit (c : UInt8) : Bool := 48 ≤ c && c ≤ 57

/-- `isspace` in the C locale. -/
def isSpace (c : UInt8) : Bool := c == 32 || (9 ≤ c && c ≤ 13)

/-- The value of a run of digits behind the value `n`. -/
def digitsVal (n : Nat) (ds : Str) : Nat := ds.foldl (fun n d => 10 * n + (d.toNat - 48)) n

/-- `strtol` to the base ten, with the rest of the string. -/
def strtol (s : Str) : Int × Str :=
  let t := s.dropWhile isSpace
  let (neg, t) : Bool × Str := match t with
    | 45 :: t => (true, t)
    | 43 :: t => (false, t)
    | t => (false, t)
  match t.takeWhile isDigit with
  | [] => (0, s)
  | ds => (if neg then -(digitsVal 0 ds : Int) else digitsVal 0 ds, t.dropWhile isDigit)

end Str

namespace MyTime

def mon_day : List Int := [31, 28, 31, 30, 31, 30, 31, 31, 30, 31, 30, 31]

/-- The days of the months before `month`. -/
def monthOffset (month : Int) : Res Int :=
  if month - 1 ≤ mon_day.length then pure (mon_day.take (month - 1).toNat).sum
  else .error .arrayBound

/-- The conversion of a date and a time of day to seconds. -/
def ofFields (year month day hour min zone : Int) : Res Int := do
  let leapYear := (year - 1969).tdiv 4
  let i := (year - 2001).tdiv 100
  let leapYear := leapYear - (i.tdiv 4 * 3 + i.tmod 4)
  let dayOffset ← monthOffset month
  let isLeap := (year.tmod 4 = 0 ∧ year.tmod 100 ≠ 0) ∨ year.tmod 400 = 0
  let dayOffset := if isLeap ∧ month > 2 then dayOffset + 1 else dayOffset
  let dayOffset := dayOffset + (day - 1)
  let dayOffset := dayOffset + ((year - 1970) * 365 + leapYear)
  pure (dayOffset * 86400 + (hour - zone) * 3600 + min * 60)

/-- `toTime`, on a string such as `20140708_18:40`. -/
def toTime (s : Str) (zone : Int := 8) : Res Int :=
  let (date, rest) := Str.strtol s
  let month := (date.tdiv 100).tmod 100
  let day := date.tmod 100
  let year := date.tdiv 10000
  match rest with
  | [] => ofFields year month day 0 0 zone
  | _ :: rest =>
    let (hour, rest) := Str.strtol rest
    match rest with
    | [] => ofFields year month day hour 0 zone
    | _ :: rest => ofFields year month day hour (Str.strtol rest).1 zone

/-- `_00:00`. -/
def midnight : Str := [95, 48, 48, 58, 48, 48]

/-- The days from the date `a` to the date `b`. -/
def compareDayStr (a b : Str) : Res Int :=
  if a = b then pure 0
  else do
    let aT ← toTime (a ++ midnight) 0
    let bT ← toTime (b ++ midnight) 0
    pure ((bT - aT).tdiv 86400)

/-- The year, month and day that begin `days` days after the first of January 1970. -/
def civil (days : Int) : Int × Int × Int :=
  let z := days + 719468
  let era := z / 146097
  let doe := z - era * 146097
  let yoe := (doe - doe / 1460 + doe / 36524 - doe / 146096) / 365
  let doy := doe - (365 * yoe + yoe / 4 - yoe / 100)
  let mp := (5 * doy + 2) / 153
  let month := if mp < 10 then mp + 3 else mp - 9
  (yoe + era * 400 + (if month ≤ 2 then 1 else 0), month, doy - (153 * mp + 2) / 5 + 1)

def decimal (n : ℕ) : Str := (Nat.toDigits 10 n).map fun c => UInt8.ofNat c.toNat

def twoDigits (n : ℕ) : Str := if n < 10 then 48 :: decimal n else decimal n

/-- The date of `toString` in the zone zero, from the year 0 on. -/
def dateString (t : Int) : Str :=
  let (year, month, day) := civil (t / 86400)
  decimal year.toNat ++ (twoDigits month.toNat ++ twoDigits day.toNat)

def datePlusOf (day : Str) (num : Int) : Res Str := do
  let dayTime ← toTime (day.take 8 ++ midnight) 0
  pure ((dateString (dayTime + num * 86400)).take 8)

end MyTime

end PPView
