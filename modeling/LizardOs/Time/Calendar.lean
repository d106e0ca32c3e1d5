import Mathlib.Tactic.NormNum
import Mathlib.Tactic.SplitIfs
import LizardOs.Lib.Bytes

/-!
# The calendar

`ktime.c` has two ways between seconds since 1970 and dates.  `rtc_to_timespec` counts days by a formula for the leap
years and a table of the months; `timespec_split` takes off years and months one by one, with a table of its own.

A date is determined by its seconds, which grow with it (`Calendar.seconds_lt`), and the two ways are inverse to each
other (`calendar_bijection`).
-/

namespace LizardOs.Time

/-- `struct time_spec`. -/
structure TimeSpec where
  sec : ℤ
  nsec : ℤ

/-- What `rtc_to_timespec` reads of `struct rtc_timer`. -/
structure RtcTimer where
  seconds : UInt8
  minutes : UInt8
  hours : UInt8
  day_of_month : UInt8
  month : UInt8
  year : UInt8

/-- What `timespec_split` gives. -/
structure Calendar where
  year : ℤ
  month : ℤ
  day : ℤ
  hour : ℤ
  min : ℤ
  sec : ℤ

/-- A number stored in an `int`. -/
def i32 (z : ℤ) : ℤ := Int.bmod z (2 ^ 32)

/-- A number stored in an `i64`. -/
def i64 (z : ℤ) : ℤ := Int.bmod z (2 ^ 64)

/-! ### From dates to seconds -/

/-- `is_leap_year`. -/
def isLeapYear (y : ℤ) : Bool :=
  decide (y.tmod 4 = 0 ∧ y.tmod 100 ≠ 0 ∨ y.tmod 400 = 0)

/-- `days_before_month`. -/
def daysBeforeMonth (leap : Bool) (m : ℕ) : ℕ :=
  if leap = true then [0, 31, 60, 91, 121, 152, 182, 213, 244, 274, 305, 335].getD m 0
  else [0, 31, 59, 90, 120, 151, 181, 212, 243, 273, 304, 334].getD m 0

/-- `days_before_year`. -/
def daysBeforeYear (y : ℤ) : UInt64 :=
  let years := UInt64.ofInt (y - 1970)
  years * 365 + (years + 1) / 4 - (years + 69) / 100 + (years + 369) / 400

/-- `rtc_to_timespec`. -/
def rtcToTimespec (t : RtcTimer) : TimeSpec :=
  let year : ℤ := 2000 + t.year.toNat
  let days := daysBeforeYear year + UInt64.ofNat (daysBeforeMonth (isLeapYear year) (t.month.toNat - 1)) +
    UInt64.ofInt (t.day_of_month.toNat - 1)
  let sec := days * 86400 + UInt64.ofNat t.hours.toNat * 3600 + UInt64.ofNat t.minutes.toNat * 60 +
    UInt64.ofNat t.seconds.toNat
  ⟨i64 sec.toNat, 0⟩

/-! ### From seconds to dates -/

/-- The loop over the years.  A round takes off 365 days at least. -/
def splitYear : ℕ → ℤ → ℤ → ℤ × ℤ
  | 0, y, days => (y, days)
  | n + 1, y, days =>
      let diy := if isLeapYear y = true then 366 else 365
      if days < diy then (y, days) else splitYear n (i32 (y + 1)) (days - diy)

/-- `mdays`, with the leap day. -/
def daysInMonth (leap : Bool) (m : ℕ) : ℤ :=
  [31, 28, 31, 30, 31, 30, 31, 31, 30, 31, 30, 31].getD m 0 + if m = 1 ∧ leap = true then 1 else 0

/-- The loop over the months. -/
def splitMonth (leap : Bool) : ℕ → ℕ → ℤ → ℕ × ℤ
  | 0, m, days => (m, days)
  | n + 1, m, days =>
      let dim := daysInMonth leap m
      if days < dim then (m, days) else splitMonth leap n (m + 1) (days - dim)

/-- `timespec_split`. -/
def timespecSplit (ts : TimeSpec) : Calendar :=
  let days := ts.sec.tdiv 86400
  let rem := ts.sec.tmod 86400
  let (days, rem) := if rem < 0 then (days - 1, rem + 86400) else (days, rem)
  let h := rem.tdiv 3600
  let rem := rem.tmod 3600
  let mi := rem.tdiv 60
  let se := rem.tmod 60
  let (y, days) := splitYear (days.toNat + 1) 1970 days
  let (m, days) := splitMonth (isLeapYear y) 12 0 days
  ⟨y, m + 1, i32 (days + 1), i32 h, i32 mi, i32 se⟩

/-! ### Dates -/

namespace Calendar

/-- The days of the month of a date. -/
def monthLength (c : Calendar) : ℤ := daysInMonth (isLeapYear c.year) (c.month - 1).toNat

/-- A date and a time of the day that there are, since 1970 and in years that fit in an `int`. -/
structure Valid (c : Calendar) : Prop where
  year : 1970 ≤ c.year ∧ c.year < 2 ^ 31
  month : 1 ≤ c.month ∧ c.month ≤ 12
  day : 1 ≤ c.day ∧ c.day ≤ c.monthLength
  hour : 0 ≤ c.hour ∧ c.hour < 24
  min : 0 ≤ c.min ∧ c.min < 60
  sec : 0 ≤ c.sec ∧ c.sec < 60

/-- The day of the year, from zero. -/
def dayOfYear (c : Calendar) : ℤ := daysBeforeMonth (isLeapYear c.year) (c.month - 1).toNat + c.day - 1

/-- The seconds of a date. -/
def seconds (c : Calendar) : ℤ :=
  (daysBeforeYear c.year).toNat * 86400 + c.dayOfYear * 86400 + c.hour * 3600 + c.min * 60 + c.sec

end Calendar

/-- The date that a reading of the clock stands for. -/
def RtcTimer.calendar (t : RtcTimer) : Calendar :=
  ⟨2000 + t.year.toNat, t.month.toNat, t.day_of_month.toNat, t.hours.toNat, t.minutes.toNat, t.seconds.toNat⟩

/-- A reading of two digits of the year and a date and time that there are. -/
structure RtcTimer.Valid (t : RtcTimer) : Prop where
  year : t.year.toNat ≤ 99
  calendar : t.calendar.Valid

/-! ### The formula -/

/-- How many days a year has. -/
def daysInYear (y : ℤ) : ℤ := if isLeapYear y = true then 366 else 365

theorem isLeapYear_eq {y : ℤ} (hy : 0 ≤ y) : isLeapYear y = decide (y % 4 = 0 ∧ y % 100 ≠ 0 ∨ y % 400 = 0) := by
  rw [isLeapYear, Int.tmod_eq_emod_of_nonneg hy, Int.tmod_eq_emod_of_nonneg hy, Int.tmod_eq_emod_of_nonneg hy]

/-- The leap days of the first `k` years, by the formula. -/
def leapDays (k : ℕ) : ℤ := ((k + 1) / 4 : ℕ) - ((k + 69) / 100 : ℕ) + ((k + 369) / 400 : ℕ)

/-- The formula counts the leap days. -/
theorem leapDays_succ (k : ℕ) :
    leapDays (k + 1) =
      leapDays k + if (1970 + k) % 4 = 0 ∧ (1970 + k) % 100 ≠ 0 ∨ (1970 + k) % 400 = 0 then 1 else 0 := by
  -- each quotient grows when its divisor divides the year
  have h4 : (k + 1 + 1) / 4 = (k + 1) / 4 + if (1970 + k) % 4 = 0 then 1 else 0 := by
    split <;> omega
  have h100 : (k + 1 + 69) / 100 = (k + 69) / 100 + if (1970 + k) % 100 = 0 then 1 else 0 := by
    split <;> omega
  have h400 : (k + 1 + 369) / 400 = (k + 369) / 400 + if (1970 + k) % 400 = 0 then 1 else 0 := by
    split <;> omega
  have hcentury : (1970 + k) % 400 = 0 → (1970 + k) % 100 = 0 := by omega
  have hfourth : (1970 + k) % 100 = 0 → (1970 + k) % 4 = 0 := by omega
  rw [leapDays, leapDays, h4, h100, h400]
  clear h4 h100 h400
  generalize (1970 + k) % 4 = a at *
  generalize (1970 + k) % 100 = b at *
  generalize (1970 + k) % 400 = c at *
  generalize (k + 1) / 4 = x
  generalize (k + 69) / 100 = y
  generalize (k + 369) / 400 = z
  split_ifs <;> omega

/-- Nothing wraps in the formula. -/
theorem daysBeforeYear_toNat {k : ℕ} (hk : k < 2 ^ 32) :
    ((daysBeforeYear (1970 + k)).toNat : ℤ) = 365 * k + leapDays k := by
  have hyears : (UInt64.ofInt ((1970 + k : ℤ) - 1970)).toNat = k := by
    rw [UInt64.ofInt, UInt64.toNat_ofNat']
    omega
  rw [daysBeforeYear]
  generalize UInt64.ofInt ((1970 + k : ℤ) - 1970) = years at hyears
  have hdays : (years * 365).toNat = k * 365 := by
    rw [UInt64.toNat_mul, hyears]
    exact Nat.mod_eq_of_lt (show k * 365 < 2 ^ 64 by omega)
  have hadd : ∀ a b : UInt64, b.toNat < 2 ^ 10 → ((years + b) / a).toNat = (k + b.toNat) / a.toNat := by
    intro a b hb
    rw [UInt64.toNat_div, UInt64.toNat_add, hyears, Nat.mod_eq_of_lt (by omega)]
  have h4 : ((years + 1) / 4).toNat = (k + 1) / 4 := hadd 4 1 (by decide)
  have h100 : ((years + 69) / 100).toNat = (k + 69) / 100 := hadd 100 69 (by decide)
  have h400 : ((years + 369) / 400).toNat = (k + 369) / 400 := hadd 400 369 (by decide)
  have hless : (k + 69) / 100 ≤ k * 365 + (k + 1) / 4 := by omega
  rw [UInt64.toNat_add, UInt64.toNat_sub, UInt64.toNat_add, hdays, h4, h100, h400, leapDays]
  have hx : (k + 1) / 4 < 2 ^ 32 := by omega
  have hy : (k + 69) / 100 < 2 ^ 32 := by omega
  have hz : (k + 369) / 400 < 2 ^ 32 := by omega
  generalize (k + 1) / 4 = x at *
  generalize (k + 69) / 100 = y at *
  generalize (k + 369) / 400 = z at *
  clear h4 h100 h400 hadd hyears hdays
  omega

/-- A year begins as many days after the one before as that has. -/
theorem daysBeforeYear_succ {y : ℤ} (hy : 1970 ≤ y) (hlt : y ≤ 2 ^ 31) :
    ((daysBeforeYear (y + 1)).toNat : ℤ) = (daysBeforeYear y).toNat + daysInYear y := by
  obtain ⟨k, rfl⟩ : ∃ k : ℕ, y = 1970 + k := ⟨(y - 1970).toNat, by omega⟩
  have hsucc : (1970 + (k : ℤ) + 1) = 1970 + ((k + 1 : ℕ) : ℤ) := by omega
  have hleap : daysInYear (1970 + k) =
      365 + if (1970 + k) % 4 = 0 ∧ (1970 + k) % 100 ≠ 0 ∨ (1970 + k) % 400 = 0 then 1 else 0 := by
    have hcast : isLeapYear (1970 + k) =
        decide ((1970 + k) % 4 = 0 ∧ (1970 + k) % 100 ≠ 0 ∨ (1970 + k) % 400 = 0) := by
      rw [isLeapYear_eq (by omega)]
      exact decide_eq_decide.mpr (by omega)
    rw [daysInYear, hcast]
    simp only [decide_eq_true_eq]
    split_ifs <;> rfl
  rw [hsucc, daysBeforeYear_toNat (by omega), daysBeforeYear_toNat (by omega), leapDays_succ, hleap]
  generalize leapDays k = l
  split_ifs <;> omega

theorem daysBeforeYear_first : ((daysBeforeYear 1970).toNat : ℤ) = 0 := rfl

/-- Later years begin later. -/
theorem daysBeforeYear_lt {y z : ℤ} (hy : 1970 ≤ y) (hlt : y < z) (hz : z ≤ 2 ^ 31) :
    (daysBeforeYear y).toNat + daysInYear y ≤ ((daysBeforeYear z).toNat : ℤ) := by
  have hall : ∀ d : ℕ, y + 1 + d ≤ 2 ^ 31 →
      (daysBeforeYear y).toNat + daysInYear y ≤ ((daysBeforeYear (y + 1 + d)).toNat : ℤ) := by
    intro d hd
    induction d with
    | zero =>
      rw [Nat.cast_zero, Int.add_zero] at hd ⊢
      rw [daysBeforeYear_succ hy (by omega)]
    | succ d ih =>
      have hsame : y + 1 + ((d + 1 : ℕ) : ℤ) = y + 1 + d + 1 := by omega
      rw [hsame] at hd ⊢
      have hprev := ih (by omega)
      have hnext := daysBeforeYear_succ (show 1970 ≤ y + 1 + d by omega) (by omega)
      have hpos : 0 ≤ daysInYear (y + 1 + d) := by
        rw [daysInYear]
        split
        · decide
        · decide
      rw [hnext]
      exact Int.le_trans hprev (Int.le_add_of_nonneg_right hpos)
  have hz' : y + 1 + ((z - y - 1).toNat : ℤ) = z := by omega
  have hlast := hall (z - y - 1).toNat
  rw [hz'] at hlast
  exact hlast hz

/-! ### The table -/

theorem daysBeforeMonth_succ (leap : Bool) {m : ℕ} (hm : m < 11) :
    (daysBeforeMonth leap (m + 1) : ℤ) = daysBeforeMonth leap m + daysInMonth leap m := by
  have hall : ∀ leap : Bool, ∀ m < 11,
      (daysBeforeMonth leap (m + 1) : ℤ) = daysBeforeMonth leap m + daysInMonth leap m := by
    decide
  exact hall leap m hm

theorem daysBeforeMonth_first (leap : Bool) : (daysBeforeMonth leap 0 : ℤ) = 0 := by
  cases leap with
  | false => rfl
  | true => rfl

theorem daysBeforeMonth_last (leap : Bool) :
    (daysBeforeMonth leap 11 : ℤ) + daysInMonth leap 11 = if leap = true then 366 else 365 := by
  cases leap with
  | false => rfl
  | true => rfl

/-- Later months begin later. -/
theorem daysBeforeMonth_lt (leap : Bool) {m k : ℕ} (hlt : m < k) (hk : k < 12) :
    daysBeforeMonth leap m + daysInMonth leap m ≤ (daysBeforeMonth leap k : ℤ) := by
  have hall : ∀ leap : Bool, ∀ k < 12, ∀ m < k,
      daysBeforeMonth leap m + daysInMonth leap m ≤ (daysBeforeMonth leap k : ℤ) := by
    decide
  exact hall leap k hk m hlt

/-- All months lie inside the year. -/
theorem daysBeforeMonth_le (leap : Bool) {m : ℕ} (hm : m < 12) :
    (daysBeforeMonth leap m : ℤ) + daysInMonth leap m ≤ if leap = true then 366 else 365 := by
  have hall : ∀ leap : Bool, ∀ m < 12,
      (daysBeforeMonth leap m : ℤ) + daysInMonth leap m ≤ if leap = true then 366 else 365 := by
    decide
  exact hall leap m hm

theorem daysInMonth_le (leap : Bool) (m : ℕ) : 0 ≤ daysInMonth leap m ∧ daysInMonth leap m ≤ 31 := by
  rcases Nat.lt_or_ge m 12 with hm | hm
  · have hall : ∀ leap : Bool, ∀ m < 12, 0 ≤ daysInMonth leap m ∧ daysInMonth leap m ≤ 31 := by decide
    exact hall leap m hm
  · have hout : daysInMonth leap m = 0 := by
      rw [daysInMonth, List.getD_eq_getElem?_getD, List.getElem?_eq_none hm, if_neg (by omega)]
      rfl
    omega

/-! ### The loops -/

/-- The seconds whose year fits in an `int`. -/
def YearFits (sec : ℤ) : Prop := sec / 86400 < (daysBeforeYear (2 ^ 31)).toNat

theorem i32_of_range {z : ℤ} (hlow : -2 ^ 31 ≤ z) (hhigh : z < 2 ^ 31) : i32 z = z :=
  Int.bmod_eq_of_le_mul_two (by omega) (by omega)

/-- The loop over the years ends in the year that a day belongs to. -/
theorem splitYear_spec (n : ℕ) (y days : ℤ) (hy : 1970 ≤ y) (hlt : y < 2 ^ 31) (hdays : 0 ≤ days) (hn : days < 365 * n)
    (hfits : (daysBeforeYear y).toNat + days < (daysBeforeYear (2 ^ 31)).toNat) :
    ∃ y' d, splitYear n y days = (y', d) ∧ 1970 ≤ y' ∧ y' < 2 ^ 31 ∧ 0 ≤ d ∧ d < daysInYear y' ∧
      (daysBeforeYear y').toNat + d = (daysBeforeYear y).toNat + days := by
  induction n generalizing y days with
  | zero => omega
  | succ n ih =>
    by_cases hin : days < daysInYear y
    · exact ⟨y, days, if_pos hin, hy, hlt, hdays, hin, rfl⟩
    · have hlength : 365 ≤ daysInYear y := by
        rw [daysInYear]
        split
        · decide
        · decide
      have hsucc := daysBeforeYear_succ hy (Int.le_of_lt hlt)
      have hnext : y + 1 < 2 ^ 31 := by
        by_contra hno
        obtain rfl : y = 2 ^ 31 - 1 := by omega
        rw [Int.sub_add_cancel] at hsucc
        omega
      obtain ⟨y', d, hrun, h₁, h₂, h₃, h₄, h₅⟩ :=
        ih (y + 1) (days - daysInYear y) (by omega) hnext (by omega) (by omega) (by omega)
      refine ⟨y', d, ?_, h₁, h₂, h₃, h₄, by omega⟩
      rw [← hrun]
      conv => rhs; rw [← i32_of_range (show -2 ^ 31 ≤ y + 1 by omega) hnext]
      exact if_neg hin

/-- The loop over the months ends in the month that a day of the year belongs to. -/
theorem splitMonth_spec (leap : Bool) (n m : ℕ) (days : ℤ) (hm : m + n = 11) (hdays : 0 ≤ days)
    (hin : daysBeforeMonth leap m + days < if leap = true then 366 else 365) :
    ∃ m' d, splitMonth leap (n + 1) m days = (m', d) ∧ m' < 12 ∧ 0 ≤ d ∧ d < daysInMonth leap m' ∧
      (daysBeforeMonth leap m' : ℤ) + d = daysBeforeMonth leap m + days := by
  induction n generalizing m days with
  | zero =>
    obtain rfl : m = 11 := hm
    have hlast := daysBeforeMonth_last leap
    have hlt : days < daysInMonth leap 11 := by omega
    exact ⟨11, days, if_pos hlt, by decide, hdays, hlt, rfl⟩
  | succ n ih =>
    by_cases hlt : days < daysInMonth leap m
    · exact ⟨m, days, if_pos hlt, by omega, hdays, hlt, rfl⟩
    · have hsucc := daysBeforeMonth_succ leap (show m < 11 by omega)
      obtain ⟨m', d, hrun, h₁, h₂, h₃, h₄⟩ := ih (m + 1) (days - daysInMonth leap m) (by omega) (by omega) (by omega)
      refine ⟨m', d, ?_, h₁, h₂, h₃, by omega⟩
      rw [← hrun]
      exact if_neg hlt

/-- **`timespec_split`** gives a date that there is, with those seconds. -/
theorem timespecSplit_spec {ts : TimeSpec} (hpos : 0 ≤ ts.sec) (hfits : YearFits ts.sec) :
    (timespecSplit ts).Valid ∧ (timespecSplit ts).seconds = ts.sec := by
  have hdiv : ts.sec.tdiv 86400 = ts.sec / 86400 := Int.tdiv_eq_ediv_of_nonneg hpos
  have hmod : ts.sec.tmod 86400 = ts.sec % 86400 := Int.tmod_eq_emod_of_nonneg hpos
  have hrem : 0 ≤ ts.sec % 86400 ∧ ts.sec % 86400 < 86400 := by omega
  have hday : ts.sec = ts.sec / 86400 * 86400 + ts.sec % 86400 := by omega
  have hdays : 0 ≤ ts.sec / 86400 := by omega
  have hlimit : (daysBeforeYear 1970).toNat + ts.sec / 86400 < ((daysBeforeYear (2 ^ 31)).toNat : ℤ) := by
    rw [daysBeforeYear_first, Int.zero_add]
    exact hfits
  generalize ts.sec / 86400 = days at hdiv hday hdays hlimit
  generalize ts.sec % 86400 = rem at hmod hday hrem
  obtain ⟨y, d, hyear, hy, hylt, hd, hdlt, hsum⟩ :=
    splitYear_spec (days.toNat + 1) 1970 days le_rfl (by norm_num) hdays (by omega) hlimit
  rw [daysBeforeYear_first, Int.zero_add] at hsum
  have hstart : (daysBeforeMonth (isLeapYear y) 0 : ℤ) + d < if isLeapYear y = true then 366 else 365 := by
    rw [daysBeforeMonth_first, Int.zero_add]
    exact hdlt
  obtain ⟨m, e, hmonth, hm, he, helt, hsum'⟩ := splitMonth_spec (isLeapYear y) 11 0 d rfl hd hstart
  rw [daysBeforeMonth_first, Int.zero_add] at hsum'
  have hle := (daysInMonth_le (isLeapYear y) m).2
  have hh : rem.tdiv 3600 = rem / 3600 := Int.tdiv_eq_ediv_of_nonneg hrem.1
  have hr : rem.tmod 3600 = rem % 3600 := Int.tmod_eq_emod_of_nonneg hrem.1
  have hmi : (rem % 3600).tdiv 60 = rem % 3600 / 60 := Int.tdiv_eq_ediv_of_nonneg (by omega)
  have hse : (rem % 3600).tmod 60 = rem % 3600 % 60 := Int.tmod_eq_emod_of_nonneg (by omega)
  have hsplit : timespecSplit ts = ⟨y, m + 1, e + 1, rem / 3600, rem % 3600 / 60, rem % 3600 % 60⟩ := by
    rw [timespecSplit]
    simp only [hdiv, hmod, if_neg (Int.not_lt.mpr hrem.1), hyear, hmonth, hh, hr, hmi, hse]
    rw [i32_of_range (by omega) (by omega), i32_of_range (by omega) (by omega), i32_of_range (by omega) (by omega),
      i32_of_range (by omega) (by omega)]
  have hindex : ((m : ℤ) + 1 - 1).toNat = m := by omega
  rw [hsplit]
  constructor
  · refine ⟨⟨hy, hylt⟩, ⟨?_, ?_⟩, ⟨?_, ?_⟩, ⟨?_, ?_⟩, ⟨?_, ?_⟩, ⟨?_, ?_⟩⟩
    all_goals simp only [Calendar.monthLength, hindex]
    all_goals omega
  · rw [Calendar.seconds, Calendar.dayOfYear]
    simp only [hindex]
    omega

/-! ### The order of dates -/

namespace Calendar

variable {c d : Calendar}

/-- An earlier date, by the year first. -/
def Before (c d : Calendar) : Prop :=
  c.year < d.year ∨ c.year = d.year ∧ (c.month < d.month ∨ c.month = d.month ∧ (c.day < d.day ∨ c.day = d.day ∧
    (c.hour < d.hour ∨ c.hour = d.hour ∧ (c.min < d.min ∨ c.min = d.min ∧ c.sec < d.sec))))

/-- The day of the year lies in the year. -/
theorem Valid.dayOfYear (h : c.Valid) : 0 ≤ c.dayOfYear ∧ c.dayOfYear < daysInYear c.year := by
  obtain ⟨hm, hm'⟩ := h.month
  obtain ⟨hd, hd'⟩ := h.day
  have hle := daysBeforeMonth_le (isLeapYear c.year) (show (c.month - 1).toNat < 12 by omega)
  rw [Calendar.monthLength] at hd'
  rw [Calendar.dayOfYear, daysInYear]
  omega

/-- **The seconds grow with the date.** -/
theorem seconds_lt (hc : c.Valid) (hd : d.Valid) (h : c.Before d) : c.seconds < d.seconds := by
  obtain ⟨hcday, hcday'⟩ := hc.dayOfYear
  obtain ⟨hdday, -⟩ := hd.dayOfYear
  obtain ⟨hch, hch'⟩ := hc.hour
  obtain ⟨hcm, hcm'⟩ := hc.min
  obtain ⟨hcs, hcs'⟩ := hc.sec
  obtain ⟨hdh, hdh'⟩ := hd.hour
  obtain ⟨hdm, hdm'⟩ := hd.min
  obtain ⟨hds, hds'⟩ := hd.sec
  rw [seconds, seconds]
  rcases h with hyear | ⟨hyear, h⟩
  · have hlater := daysBeforeYear_lt hc.year.1 hyear (Int.le_of_lt hd.year.2)
    omega
  · have hdays : c.dayOfYear < d.dayOfYear ∨ c.dayOfYear = d.dayOfYear ∧
        (c.hour < d.hour ∨ c.hour = d.hour ∧ (c.min < d.min ∨ c.min = d.min ∧ c.sec < d.sec)) := by
      rcases h with hmonth | ⟨hmonth, h⟩
      · have hlater := daysBeforeMonth_lt (isLeapYear c.year)
          (show (c.month - 1).toNat < (d.month - 1).toNat by have := hc.month; omega) (by have := hd.month; omega)
        have hcd := hc.day.2
        have hdd := hd.day.1
        rw [monthLength] at hcd
        rw [dayOfYear, dayOfYear, ← hyear]
        exact .inl (by omega)
      · rw [dayOfYear, dayOfYear, ← hyear, ← hmonth]
        omega
    rw [← hyear]
    omega

/-- A date is known by its seconds. -/
theorem eq_of_seconds (hc : c.Valid) (hd : d.Valid) (h : c.seconds = d.seconds) : c = d := by
  have hcd : ¬c.Before d := fun hlt => absurd (seconds_lt hc hd hlt) (by omega)
  have hdc : ¬d.Before c := fun hlt => absurd (seconds_lt hd hc hlt) (by omega)
  rw [Before] at hcd hdc
  clear h hc hd
  obtain ⟨y, m, e, h, mi, s⟩ := c
  obtain ⟨y', m', e', h', mi', s'⟩ := d
  simp only at hcd hdc
  obtain ⟨rfl, rfl, rfl, rfl, rfl, rfl⟩ : y = y' ∧ m = m' ∧ e = e' ∧ h = h' ∧ mi = mi' ∧ s = s' := by omega
  rfl

end Calendar

/-! ### There and back -/

theorem toNat_add_of_lt {a b : UInt64} (h : a.toNat + b.toNat < 2 ^ 64) : (a + b).toNat = a.toNat + b.toNat := by
  rw [UInt64.toNat_add, Nat.mod_eq_of_lt h]

theorem toNat_mul_of_lt {a b : UInt64} (h : a.toNat * b.toNat < 2 ^ 64) : (a * b).toNat = a.toNat * b.toNat := by
  rw [UInt64.toNat_mul, Nat.mod_eq_of_lt h]

/-- Nothing wraps in the seconds of the day. -/
theorem dayTime_toNat (days : UInt64) (h mi s : UInt8) (hdays : days.toNat < 2 ^ 32) :
    (days * 86400 + UInt64.ofNat h.toNat * 3600 + UInt64.ofNat mi.toNat * 60 + UInt64.ofNat s.toNat).toNat =
      days.toNat * 86400 + h.toNat * 3600 + mi.toNat * 60 + s.toNat := by
  have hbyte : ∀ b : UInt8, b.toNat < 256 ∧ (UInt64.ofNat b.toNat).toNat = b.toNat := by
    intro b
    have hb := b.toNat_lt
    exact ⟨hb, UInt64.toNat_ofNat_of_lt' (by rw [UInt64.size]; omega)⟩
  obtain ⟨hh, hh'⟩ := hbyte h
  obtain ⟨hmi, hmi'⟩ := hbyte mi
  obtain ⟨hs, hs'⟩ := hbyte s
  have h₁ : (days * 86400).toNat = days.toNat * 86400 :=
    toNat_mul_of_lt (show days.toNat * 86400 < 2 ^ 64 by omega)
  have h₂ : (UInt64.ofNat h.toNat * 3600).toNat = h.toNat * 3600 := by
    rw [toNat_mul_of_lt (by rw [hh']; exact show h.toNat * 3600 < 2 ^ 64 by omega), hh']
    rfl
  have h₃ : (UInt64.ofNat mi.toNat * 60).toNat = mi.toNat * 60 := by
    rw [toNat_mul_of_lt (by rw [hmi']; exact show mi.toNat * 60 < 2 ^ 64 by omega), hmi']
    rfl
  have h₄ : (days * 86400 + UInt64.ofNat h.toNat * 3600).toNat = days.toNat * 86400 + h.toNat * 3600 := by
    rw [toNat_add_of_lt (by omega), h₁, h₂]
  have h₅ : (days * 86400 + UInt64.ofNat h.toNat * 3600 + UInt64.ofNat mi.toNat * 60).toNat =
      days.toNat * 86400 + h.toNat * 3600 + mi.toNat * 60 := by
    rw [toNat_add_of_lt (by omega), h₄, h₃]
  rw [toNat_add_of_lt (by omega), h₅, hs']

/-- The seconds of a reading of the clock are those of its date. -/
theorem rtcToTimespec_sec {t : RtcTimer} (h : t.Valid) : (rtcToTimespec t).sec = t.calendar.seconds := by
  have hyear := h.year
  have hday : 1 ≤ ((t.day_of_month.toNat : ℕ) : ℤ) := h.calendar.day.1
  have hmonth : ((t.month.toNat : ℕ) : ℤ) ≤ 12 := h.calendar.month.2
  have hdm := t.day_of_month.toNat_lt
  have hcast : (2000 + t.year.toNat : ℤ) = 1970 + ((30 + t.year.toNat : ℕ) : ℤ) := by omega
  have hbefore : (daysBeforeYear (2000 + t.year.toNat)).toNat < 2 ^ 16 := by
    have hformula := daysBeforeYear_toNat (show 30 + t.year.toNat < 2 ^ 32 by omega)
    rw [← hcast, leapDays] at hformula
    omega
  have hindex : (((t.month.toNat : ℕ) : ℤ) - 1).toNat = t.month.toNat - 1 := by omega
  have htable : daysBeforeMonth (isLeapYear (2000 + t.year.toNat)) (t.month.toNat - 1) ≤ 366 := by
    have hle := daysBeforeMonth_le (isLeapYear (2000 + t.year.toNat)) (show t.month.toNat - 1 < 12 by omega)
    have hlength := (daysInMonth_le (isLeapYear (2000 + t.year.toNat)) (t.month.toNat - 1)).1
    split at hle
    · omega
    · omega
  rw [rtcToTimespec, Calendar.seconds, Calendar.dayOfYear]
  simp only [RtcTimer.calendar]
  rw [hindex]
  generalize daysBeforeYear (2000 + t.year.toNat) = D at hbefore ⊢
  generalize daysBeforeMonth (isLeapYear (2000 + t.year.toNat)) (t.month.toNat - 1) = M at htable ⊢
  have hM : (UInt64.ofNat M).toNat = M := UInt64.toNat_ofNat_of_lt' (by rw [UInt64.size]; omega)
  have hd : (UInt64.ofInt ((t.day_of_month.toNat : ℤ) - 1)).toNat = t.day_of_month.toNat - 1 := by
    rw [UInt64.ofInt, UInt64.toNat_ofNat']
    omega
  have hdays : (D + UInt64.ofNat M + UInt64.ofInt ((t.day_of_month.toNat : ℤ) - 1)).toNat =
      D.toNat + M + (t.day_of_month.toNat - 1) := by
    have hsum : (D + UInt64.ofNat M).toNat = D.toNat + M := by rw [toNat_add_of_lt (by omega), hM]
    rw [toNat_add_of_lt (by omega), hsum, hd]
  have hh := t.hours.toNat_lt
  have hmi := t.minutes.toNat_lt
  have hs := t.seconds.toNat_lt
  rw [dayTime_toNat _ _ _ _ (by omega), hdays, i64, Int.bmod_eq_of_le_mul_two (by omega) (by omega)]
  omega

/-- The seconds of a date are those of a year that fits. -/
theorem Calendar.Valid.fits {c : Calendar} (h : c.Valid) : 0 ≤ c.seconds ∧ YearFits c.seconds := by
  obtain ⟨hday, hday'⟩ := h.dayOfYear
  obtain ⟨hh, hh'⟩ := h.hour
  obtain ⟨hm, hm'⟩ := h.min
  obtain ⟨hs, hs'⟩ := h.sec
  have hend := daysBeforeYear_lt h.year.1 h.year.2 le_rfl
  have hdiv : c.seconds / 86400 = (daysBeforeYear c.year).toNat + c.dayOfYear := by
    rw [Calendar.seconds]
    omega
  constructor
  · rw [Calendar.seconds]
    omega
  · rw [YearFits, hdiv]
    exact Int.lt_of_lt_of_le (Int.add_lt_add_left hday' _) hend

/-- **The calendar.**  Of seconds since 1970 whose year fits in an `int`, `timespec_split` makes a date that there is,
with these seconds; and of what `rtc_to_timespec` makes of a date of the clock, it makes that date. -/
theorem calendar_bijection :
    (∀ ts : TimeSpec, 0 ≤ ts.sec → YearFits ts.sec →
        (timespecSplit ts).Valid ∧ (timespecSplit ts).seconds = ts.sec) ∧
      ∀ t : RtcTimer, t.Valid → timespecSplit (rtcToTimespec t) = t.calendar := by
  refine ⟨fun ts hpos hfits => timespecSplit_spec hpos hfits, fun t ht => ?_⟩
  have hsec := rtcToTimespec_sec ht
  obtain ⟨hpos, hfits⟩ := ht.calendar.fits
  rw [← hsec] at hpos hfits
  obtain ⟨hvalid, hsame⟩ := timespecSplit_spec hpos hfits
  exact Calendar.eq_of_seconds hvalid ht.calendar (hsame.trans hsec)

/-- The last second of 29 February 2024. -/
def leapDay2024 : RtcTimer := ⟨59, 59, 23, 29, 2, 24⟩

theorem leapDay2024_valid : leapDay2024.Valid :=
  ⟨by decide, ⟨by decide, by decide⟩, ⟨by decide, by decide⟩, ⟨by decide, by decide⟩, ⟨by decide, by decide⟩,
    ⟨by decide, by decide⟩, ⟨by decide, by decide⟩⟩

theorem calendar_bijection_2024 :
    ((timespecSplit ⟨1709251199, 0⟩).Valid ∧ (timespecSplit ⟨1709251199, 0⟩).seconds = 1709251199) ∧
      timespecSplit (rtcToTimespec leapDay2024) = leapDay2024.calendar :=
  ⟨calendar_bijection.1 ⟨1709251199, 0⟩ (by decide)
    (show (1709251199 : ℤ) / 86400 < (daysBeforeYear (2 ^ 31)).toNat by decide),
    calendar_bijection.2 leapDay2024 leapDay2024_valid⟩

end LizardOs.Time
