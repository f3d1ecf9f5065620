import Mathlib.Data.List.TakeWhile
import Mathlib.Tactic.IntervalCases
import PPView.TimeIR.TimeIR

/-!
# Dates

The string of a date, and what `TimeIR` reads from it. The day of the week in the calendar is
counted from the year 0 on, and from 1970 on `getWeekByDate` agrees with it.
-/

namespace PPView

namespace Str

variable {s t : Str} {n k : ℕ}

theorem digitsVal_append : digitsVal n (s ++ t) = digitsVal (digitsVal n s) t := by
  rw [digitsVal, digitsVal, digitsVal, List.foldl_append]

theorem strtol_of_isDigit (hne : s ≠ []) (h : ∀ c ∈ s, isDigit c) :
    strtol s = ((digitsVal 0 s : Int), []) := by
  cases s with
  | nil => contradiction
  | cons c s =>
    have hc : isDigit c := h c (by simp)
    have hspace : isSpace c = false := by
      simp only [isDigit, isSpace, UInt8.le_iff_toNat_le, ← UInt8.toNat_inj, Bool.and_eq_true,
        decide_eq_true_eq, Bool.or_eq_false_iff, beq_eq_false_iff_ne, ne_eq,
        Bool.and_eq_false_iff, decide_eq_false_iff_not] at hc ⊢
      have := hc
      simp at this ⊢
      omega
    have hminus : c ≠ 45 := by rintro rfl; contradiction
    have hplus : c ≠ 43 := by rintro rfl; contradiction
    have htake : (c :: s).takeWhile isDigit = c :: s := List.takeWhile_eq_self_iff.mpr h
    have hdrop : (c :: s).dropWhile isDigit = [] := List.dropWhile_eq_nil_iff.mpr h
    simp [strtol, hspace, hminus, hplus, htake, hdrop]

end Str

namespace TimeIR

/-! ## Strings of dates -/

/-- A day of a year. Also the 31st of a shorter month is one. -/
structure Date where
  year : ℕ
  month : ℕ
  day : ℕ
  year_lt : year < 10000
  one_le_month : 1 ≤ month
  month_le : month ≤ 12
  one_le_day : 1 ≤ day
  day_le : day ≤ 31

def digit (n : ℕ) : UInt8 := UInt8.ofNat (48 + n % 10)

def twoDigits (n : ℕ) : Str := [digit (n / 10), digit n]

/-- The eight digits of a date. -/
def Date.str (date : Date) : Str :=
  twoDigits (date.year / 100) ++ (twoDigits date.year ++
    (twoDigits date.month ++ twoDigits date.day))

theorem toNat_digit (n : ℕ) : (digit n).toNat = 48 + n % 10 := by
  have := Nat.mod_lt n (by decide : 0 < 10)
  rw [digit, UInt8.toNat_ofNat']
  omega

theorem isDigit_digit (n : ℕ) : Str.isDigit (digit n) := by
  have := Nat.mod_lt n (by decide : 0 < 10)
  simp only [Str.isDigit, UInt8.le_iff_toNat_le, toNat_digit, Bool.and_eq_true, decide_eq_true_eq]
  simp
  omega

theorem charVal_digit (n : ℕ) : charVal (digit n) = 48 + (n % 10 : ℕ) := by
  have := Nat.mod_lt n (by decide : 0 < 10)
  rw [charVal, if_pos (by rw [UInt8.lt_iff_toNat_lt, toNat_digit]; simp; omega), toNat_digit]
  omega

theorem digitsVal_twoDigits (k n : ℕ) : Str.digitsVal k (twoDigits n) = 100 * k + n % 100 := by
  simp only [Str.digitsVal, twoDigits, List.foldl_cons, List.foldl_nil, toNat_digit]
  omega

variable (date : Date)

theorem isDigit_str : ∀ c ∈ date.str, Str.isDigit c := by
  simp [Date.str, twoDigits, isDigit_digit]

theorem digitsVal_str :
    Str.digitsVal 0 date.str = (date.year * 100 + date.month) * 100 + date.day := by
  have := date.year_lt
  have := date.month_le
  have := date.day_le
  simp only [Date.str, Str.digitsVal_append, digitsVal_twoDigits]
  omega

theorem monthDay_str : monthDay date.str = .ok (date.month * 100 + date.day) := by
  have := date.month_le
  have := date.day_le
  simp only [monthDay, Date.str, twoDigits, List.cons_append, List.nil_append, List.foldlM_cons,
    List.foldlM_nil, charAt, List.length_cons, List.length_nil]
  simp [charVal_digit, pure, Except.pure, bind, Except.bind]
  omega

/-! ## Days of the week -/

theorem toTime_str : MyTime.toTime date.str 0 =
    MyTime.ofFields date.year date.month date.day 0 0 0 := by
  have := date.year_lt
  have := date.month_le
  have := date.day_le
  have hne : date.str ≠ [] := by simp [Date.str, twoDigits]
  have hyear : ((((date.year * 100 + date.month) * 100 + date.day : ℕ) : Int).tdiv 10000) =
      date.year := by
    rw [Int.tdiv_eq_ediv_of_nonneg (by omega)]
    omega
  have hmonth : ((((date.year * 100 + date.month) * 100 + date.day : ℕ) : Int).tdiv 100).tmod 100 =
      date.month := by
    rw [Int.tdiv_eq_ediv_of_nonneg (by omega), Int.tmod_eq_emod_of_nonneg (by omega)]
    omega
  have hday : (((date.year * 100 + date.month) * 100 + date.day : ℕ) : Int).tmod 100 =
      date.day := by
    rw [Int.tmod_eq_emod_of_nonneg (by omega)]
    omega
  simp only [MyTime.toTime, Str.strtol_of_isDigit hne (isDigit_str date), digitsVal_str, hyear,
    hmonth, hday]

theorem monthOffset_month :
    MyTime.monthOffset date.month = .ok ((MyTime.mon_day.take (date.month - 1)).sum) := by
  have hle : (date.month : Int) - 1 ≤ MyTime.mon_day.length := by
    have := date.month_le
    simp [MyTime.mon_day]
    omega
  have hnat : ((date.month : Int) - 1).toNat = date.month - 1 := by omega
  rw [MyTime.monthOffset, if_pos hle, hnat]
  rfl

/-- A date has a day of the week. -/
theorem exists_getWeekByDate : ∃ w, getWeekByDate date.str = .ok w := by
  rw [getWeekByDate, toTime_str, MyTime.ofFields, monthOffset_month]
  exact ⟨_, rfl⟩

/-! ### The calendar -/

def isLeap (year : ℕ) : Bool := (year % 4 = 0 ∧ year % 100 ≠ 0) ∨ year % 400 = 0

def yearLength (year : ℕ) : ℕ := if isLeap year then 366 else 365

def monthLength (year : ℕ) : ℕ → ℕ
  | 2 => if isLeap year then 29 else 28
  | 4 | 6 | 9 | 11 => 30
  | _ => 31

/-- The days from the beginning of the year 0 to that of a year. -/
def daysBeforeYear : ℕ → ℕ
  | 0 => 0
  | year + 1 => daysBeforeYear year + yearLength year

/-- The days from the beginning of a year to that of a month. -/
def daysBeforeMonth (year : ℕ) : ℕ → ℕ
  | 0 | 1 => 0
  | month + 2 => daysBeforeMonth year (month + 1) + monthLength year (month + 1)

/-- The days from the first of January of the year 0. -/
def Date.dayNumber : ℕ :=
  daysBeforeYear date.year + daysBeforeMonth date.year date.month + (date.day - 1)

/-- From one for Monday. The first of January of the year 0 was a Saturday. -/
def Date.weekday : Int := (date.dayNumber + 5) % 7 + 1

/-- The first of January 1970. -/
def epoch : ℕ := 719528

/-- From 1970 on, and such that the seconds fit the `int` in which `toTime` computes them: until the
nineteenth of January 2038. -/
def Date.InTime : Prop := 1970 ≤ date.year ∧ (date.dayNumber - epoch) * 86400 < 2 ^ 31

instance : Decidable date.InTime := inferInstanceAs (Decidable (_ ∧ _))

/-- Every fourth year is a leap year, less the centuries that are none. -/
theorem daysBeforeYear_eq (year : ℕ) : daysBeforeYear year + (year + 99) / 100 =
    365 * year + (year + 3) / 4 + (year + 399) / 400 := by
  induction year with
  | zero => rfl
  | succ year ih =>
    have hleap : isLeap year ↔ (year % 4 = 0 ∧ year % 100 ≠ 0) ∨ year % 400 = 0 := by
      simp [isLeap]
    rw [daysBeforeYear, yearLength]
    by_cases hyear : isLeap year
    · have := hleap.mp hyear
      rw [if_pos hyear]
      omega
    · have := mt hleap.mpr hyear
      rw [if_neg hyear]
      omega

/-- `toTime` counts the leap years from 1970 on. -/
theorem daysBeforeYear_sub_epoch {year : ℕ} (h : 1970 ≤ year) :
    (daysBeforeYear year : Int) = epoch + (year - 1970) * 365 +
      (((year - 1969 : ℕ) / 4 : ℕ) -
        (((year - 2001) / 100 / 4 * 3 + (year - 2001) / 100 % 4 : ℕ) : Int)) := by
  have := daysBeforeYear_eq year
  rw [epoch]
  omega

/-- The table of the code has the lengths of the months, but for a leap day. -/
theorem daysBeforeMonth_eq (year : ℕ) {month : ℕ} (hone : 1 ≤ month) (htwelve : month ≤ 12) :
    (daysBeforeMonth year month : Int) =
      (MyTime.mon_day.take (month - 1)).sum + if isLeap year ∧ 2 < month then 1 else 0 := by
  cases hleap : isLeap year <;> interval_cases month <;>
    simp [daysBeforeMonth, monthLength, hleap, MyTime.mon_day]

theorem ofFields_eq (h : 1970 ≤ date.year) :
    MyTime.ofFields date.year date.month date.day 0 0 0 =
      .ok ((date.dayNumber - epoch) * 86400) := by
  have hquarter : ((date.year : Int) - 1969).tdiv 4 = ((date.year - 1969) / 4 : ℕ) := by
    rw [Int.tdiv_eq_ediv_of_nonneg (by omega)]
    omega
  have hcentury : ((date.year : Int) - 2001).tdiv 100 = ((date.year - 2001) / 100 : ℕ) := by
    by_cases hle : 2001 ≤ date.year
    · rw [Int.tdiv_eq_ediv_of_nonneg (by omega)]
      omega
    · rw [← Int.neg_neg ((date.year : Int) - 2001), Int.neg_tdiv,
        Int.tdiv_eq_ediv_of_nonneg (by omega)]
      omega
  have hleap : (((date.year : Int).tmod 4 = 0 ∧ (date.year : Int).tmod 100 ≠ 0) ∨
      (date.year : Int).tmod 400 = 0) ↔ isLeap date.year := by
    simp only [Int.tmod_eq_emod_of_nonneg (Int.natCast_nonneg _), isLeap, decide_eq_true_eq]
    omega
  have hfebruary : (date.month : Int) > 2 ↔ 2 < date.month := by omega
  have hyear := daysBeforeYear_sub_epoch h
  have hmonth := daysBeforeMonth_eq date.year date.one_le_month date.month_le
  have hday := date.one_le_day
  rw [MyTime.ofFields, hquarter, hcentury, monthOffset_month]
  simp only [hleap, hfebruary, bind, Except.bind, pure, Except.pure, Except.ok.injEq,
    Date.dayNumber, Nat.cast_add, hyear, hmonth]
  rw [Int.tdiv_eq_ediv_of_nonneg (Int.natCast_nonneg _),
    Int.tmod_eq_emod_of_nonneg (Int.natCast_nonneg _)]
  split_ifs <;> omega

/-- From 1970 on `getWeekByDate` is the day of the week in the calendar. -/
theorem getWeekByDate_eq (h : 1970 ≤ date.year) : getWeekByDate date.str = .ok date.weekday := by
  rw [getWeekByDate, toTime_str, ofFields_eq date h]
  simp only [tmWday, Date.weekday, bind, Except.bind, pure, Except.pure, Except.ok.injEq, epoch]
  omega

end TimeIR

end PPView
