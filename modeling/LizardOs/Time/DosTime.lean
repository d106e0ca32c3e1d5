import LizardOs.Fat.Names
import LizardOs.Time.Calendar

/-!
# Dates of directory entries

`fat16_dos_now` packs the date and the time of the wall clock into two words of 16 bits, which have room for the years
1980 to 2107 and for every other second.  Inside these years nothing of the fields overlaps or is cut off, and the words
are in the order of the times (`dos_time`).
-/

namespace LizardOs.Time

open LizardOs.Fat

/-- `timespec_get_year`. -/
def timespecGetYear (ts : TimeSpec) : ℤ := (timespecSplit ts).year

/-- `timespec_get_month`. -/
def timespecGetMonth (ts : TimeSpec) : ℤ := (timespecSplit ts).month

/-- `timespec_get_day`. -/
def timespecGetDay (ts : TimeSpec) : ℤ := (timespecSplit ts).day

/-- `timespec_get_hour`. -/
def timespecGetHour (ts : TimeSpec) : ℤ := (timespecSplit ts).hour

/-- `timespec_get_min`. -/
def timespecGetMin (ts : TimeSpec) : ℤ := (timespecSplit ts).min

/-- `timespec_get_sec`. -/
def timespecGetSec (ts : TimeSpec) : ℤ := (timespecSplit ts).sec

/-- An `i32` as its bits. -/
def bits (z : ℤ) : BitVec 32 := BitVec.ofInt 32 z

/-- `(u16)((a << k) | (b << 5) | c)`. -/
def packWord (k : ℕ) (a b c : BitVec 32) : UInt16 := ⟨(a <<< k ||| b <<< 5 ||| c).setWidth 16⟩

/-- `fat16_dos_now`, for the time that `time_now` gives. -/
def fat16DosNow (now : TimeSpec) : DosStamp :=
  let y := timespecGetYear now
  let mo := timespecGetMonth now
  let d := timespecGetDay now
  let h := timespecGetHour now
  let mi := timespecGetMin now
  let s := timespecGetSec now
  let y := if y < 1980 then 1980 else y
  ⟨packWord 9 (bits (y - 1980)) (bits mo) (bits d), packWord 11 (bits h) (bits mi) ((bits s).sshiftRight 1)⟩

/-! ### What the words mean -/

/-- What the fields of the words say: the year in 7 bits since 1980, the month in 4 and the day in 5; the hour in 5
bits, the minute in 6 and the seconds by two in 5. -/
def decodeStamp (stamp : DosStamp) : Calendar :=
  ⟨1980 + stamp.date.toNat / 2 ^ 9, stamp.date.toNat / 2 ^ 5 % 2 ^ 4, stamp.date.toNat % 2 ^ 5,
    stamp.time.toNat / 2 ^ 11, stamp.time.toNat / 2 ^ 5 % 2 ^ 6, stamp.time.toNat % 2 ^ 5 * 2⟩

/-- A date with its seconds rounded down to an even number. -/
def Calendar.evenSeconds (c : Calendar) : Calendar := { c with sec := c.sec / 2 * 2 }

/-- The seconds of the years 1980 to 2107. -/
def FatEra (sec : ℤ) : Prop :=
  (daysBeforeYear 1980).toNat * 86400 ≤ sec ∧ sec < (daysBeforeYear 2108).toNat * 86400

/-- The words of two times, the date first. -/
def DosStamp.le (a b : DosStamp) : Prop :=
  a.date.toNat < b.date.toNat ∨ a.date.toNat = b.date.toNat ∧ a.time.toNat ≤ b.time.toNat

/-! ### Packing -/

theorem bits_toNat {n : ℕ} (hn : n < 2 ^ 32) : (bits n).toNat = n := by
  rw [bits, BitVec.toNat_ofInt]
  omega

/-- Fields that have room do not overlap. -/
theorem packWord_toNat {k : ℕ} {a b c : BitVec 32} (hc : c.toNat < 2 ^ 5)
    (hb : b.toNat * 2 ^ 5 + c.toNat < 2 ^ k) (ha : a.toNat * 2 ^ k + 2 ^ k ≤ 2 ^ 16) :
    (packWord k a b c).toNat = a.toNat * 2 ^ k + b.toNat * 2 ^ 5 + c.toNat := by
  have hlow : (b <<< 5 ||| c).toNat = b.toNat * 2 ^ 5 + c.toNat := by
    rw [BitVec.toNat_or, BitVec.toNat_shiftLeft, Nat.shiftLeft_eq, Nat.mod_eq_of_lt (by omega), ← Nat.shiftLeft_eq,
      ← Nat.shiftLeft_add_eq_or_of_lt hc, Nat.shiftLeft_eq]
  have hall : (a <<< k ||| (b <<< 5 ||| c)).toNat = a.toNat * 2 ^ k + (b.toNat * 2 ^ 5 + c.toNat) := by
    rw [BitVec.toNat_or, hlow, BitVec.toNat_shiftLeft, Nat.shiftLeft_eq, Nat.mod_eq_of_lt (by omega),
      ← Nat.shiftLeft_eq, ← Nat.shiftLeft_add_eq_or_of_lt hb, Nat.shiftLeft_eq]
  show ((a <<< k ||| b <<< 5 ||| c).setWidth 16).toNat = _
  rw [BitVec.or_assoc, BitVec.toNat_setWidth, hall]
  omega

/-- The words of a date, as numbers. -/
theorem fat16DosNow_toNat {ts : TimeSpec} {c : Calendar} (hc : c.Valid) (hsplit : timespecSplit ts = c)
    (hyear : 1980 ≤ c.year ∧ c.year ≤ 2107) :
    ((fat16DosNow ts).date.toNat : ℤ) = (c.year - 1980) * 2 ^ 9 + c.month * 2 ^ 5 + c.day ∧
      ((fat16DosNow ts).time.toNat : ℤ) = c.hour * 2 ^ 11 + c.min * 2 ^ 5 + c.sec / 2 := by
  obtain ⟨hmo, hmo'⟩ := hc.month
  obtain ⟨hd, hd'⟩ := hc.day
  obtain ⟨hh, hh'⟩ := hc.hour
  obtain ⟨hmi, hmi'⟩ := hc.min
  obtain ⟨hs, hs'⟩ := hc.sec
  have hlength := (daysInMonth_le (isLeapYear c.year) (c.month - 1).toNat).2
  rw [Calendar.monthLength] at hd'
  rw [fat16DosNow, timespecGetYear, timespecGetMonth, timespecGetDay, timespecGetHour, timespecGetMin, timespecGetSec,
    hsplit]
  simp only [if_neg (Int.not_lt.mpr hyear.1)]
  obtain ⟨y, mo, d, h, mi, s⟩ := c
  simp only at *
  -- none of the fields is negative
  obtain ⟨y, rfl⟩ : ∃ n : ℕ, y = 1980 + n := ⟨(y - 1980).toNat, by omega⟩
  obtain ⟨mo, rfl⟩ := Int.eq_ofNat_of_zero_le (show 0 ≤ mo by omega)
  obtain ⟨d, rfl⟩ := Int.eq_ofNat_of_zero_le (show 0 ≤ d by omega)
  obtain ⟨h, rfl⟩ := Int.eq_ofNat_of_zero_le hh
  obtain ⟨mi, rfl⟩ := Int.eq_ofNat_of_zero_le hmi
  obtain ⟨s, rfl⟩ := Int.eq_ofNat_of_zero_le hs
  have hy : bits (1980 + (y : ℤ) - 1980) = bits y := congrArg bits (by omega)
  have hyn : (bits (y : ℤ)).toNat = y := bits_toNat (by omega)
  have hmon : (bits (mo : ℤ)).toNat = mo := bits_toNat (by omega)
  have hdn : (bits (d : ℤ)).toNat = d := bits_toNat (by omega)
  have hhn : (bits (h : ℤ)).toNat = h := bits_toNat (by omega)
  have hmin : (bits (mi : ℤ)).toNat = mi := bits_toNat (by omega)
  have hsn : (bits (s : ℤ)).toNat = s := bits_toNat (by omega)
  have hhalf : ((bits (s : ℤ)).sshiftRight 1).toNat = s / 2 := by
    have hmsb : (bits (s : ℤ)).msb = false := by
      rw [BitVec.msb_eq_false_iff_two_mul_lt, hsn]
      omega
    rw [BitVec.toNat_sshiftRight_of_msb_false hmsb, hsn, Nat.shiftRight_eq_div_pow, pow_one]
  rw [hy]
  constructor
  · rw [packWord_toNat (by omega) (by omega) (by omega), hyn, hmon, hdn]
    omega
  · rw [packWord_toNat (by omega) (by omega) (by omega), hhn, hmin, hhalf]
    omega

/-- The year of a second of the era. -/
theorem year_of_fatEra {c : Calendar} (hc : c.Valid) (hera : FatEra c.seconds) : 1980 ≤ c.year ∧ c.year ≤ 2107 := by
  obtain ⟨hday, hday'⟩ := hc.dayOfYear
  obtain ⟨hh, hh'⟩ := hc.hour
  obtain ⟨hm, hm'⟩ := hc.min
  obtain ⟨hs, hs'⟩ := hc.sec
  obtain ⟨hstart, hend⟩ := hera
  rw [Calendar.seconds] at hstart hend
  constructor
  · by_contra hbefore
    have hle := daysBeforeYear_lt hc.year.1 (Int.not_le.mp hbefore) (by norm_num)
    omega
  · by_contra hafter
    have hle : ((daysBeforeYear 2108).toNat : ℤ) ≤ (daysBeforeYear c.year).toNat := by
      rcases Int.lt_or_eq_of_le (show 2108 ≤ c.year by omega) with hlt | heq
      · have h := daysBeforeYear_lt (by norm_num) hlt (Int.le_of_lt hc.year.2)
        have hlength : 0 ≤ daysInYear 2108 := by decide
        omega
      · rw [heq]
    omega

/-- The date of a second of the era. -/
theorem timespecSplit_of_fatEra {ts : TimeSpec} (hera : FatEra ts.sec) :
    (timespecSplit ts).Valid ∧ (timespecSplit ts).seconds = ts.sec ∧
      1980 ≤ (timespecSplit ts).year ∧ (timespecSplit ts).year ≤ 2107 := by
  have hfits : YearFits ts.sec := by
    have hlt := hera.2
    have hlarge : ((daysBeforeYear 2108).toNat : ℤ) ≤ (daysBeforeYear (2 ^ 31)).toNat := by decide
    rw [YearFits]
    generalize ((daysBeforeYear (2 ^ 31)).toNat : ℤ) = limit at hlarge ⊢
    omega
  obtain ⟨hvalid, hseconds⟩ := timespecSplit_spec (show 0 ≤ ts.sec by have := hera.1; omega) hfits
  exact ⟨hvalid, hseconds, year_of_fatEra hvalid (by rw [hseconds]; exact hera)⟩

/-- Every field but the year has room in its bits. -/
theorem Calendar.Valid.small {c : Calendar} (h : c.Valid) :
    0 ≤ c.month ∧ c.month < 2 ^ 4 ∧ 0 ≤ c.day ∧ c.day < 2 ^ 5 ∧ 0 ≤ c.hour ∧ c.hour < 2 ^ 5 ∧
      0 ≤ c.min ∧ c.min < 2 ^ 6 ∧ 0 ≤ c.sec ∧ c.sec < 2 ^ 6 := by
  have hmonth := h.month
  have hday := h.day
  have hhour := h.hour
  have hmin := h.min
  have hsec := h.sec
  have hlength := (daysInMonth_le (isLeapYear c.year) (c.month - 1).toNat).2
  rw [Calendar.monthLength] at hday
  omega

/-- The fields of the words say the date. -/
theorem decodeStamp_eq {ts : TimeSpec} {c : Calendar} (hc : c.Valid) (hsplit : timespecSplit ts = c)
    (hyear : 1980 ≤ c.year ∧ c.year ≤ 2107) : decodeStamp (fat16DosNow ts) = c.evenSeconds := by
  obtain ⟨hdate, htime⟩ := fat16DosNow_toNat hc hsplit hyear
  have hsmall := hc.small
  rw [decodeStamp, Calendar.evenSeconds]
  generalize ((fat16DosNow ts).date.toNat : ℤ) = date at hdate ⊢
  generalize ((fat16DosNow ts).time.toNat : ℤ) = time at htime ⊢
  clear hsplit hc
  obtain ⟨y, mo, d, h, mi, s⟩ := c
  simp only [Calendar.mk.injEq] at *
  omega

/-- An earlier date does not have greater words. -/
theorem le_of_not_before {ts ts' : TimeSpec} {c c' : Calendar} (hc : c.Valid) (hsplit : timespecSplit ts = c)
    (hyear : 1980 ≤ c.year ∧ c.year ≤ 2107) (hc' : c'.Valid) (hsplit' : timespecSplit ts' = c')
    (hyear' : 1980 ≤ c'.year ∧ c'.year ≤ 2107) (hno : ¬c'.Before c) :
    DosStamp.le (fat16DosNow ts) (fat16DosNow ts') := by
  obtain ⟨hdate, htime⟩ := fat16DosNow_toNat hc hsplit hyear
  obtain ⟨hdate', htime'⟩ := fat16DosNow_toNat hc' hsplit' hyear'
  have hsmall := hc.small
  have hsmall' := hc'.small
  rw [Calendar.Before] at hno
  rw [DosStamp.le]
  clear hsplit hsplit' hc hc'
  -- the date first, then the time of the day
  have hdates :
      (c.year - 1980) * 2 ^ 9 + c.month * 2 ^ 5 + c.day < (c'.year - 1980) * 2 ^ 9 + c'.month * 2 ^ 5 + c'.day ∨
        (c.year = c'.year ∧ c.month = c'.month ∧ c.day = c'.day) := by omega
  rcases hdates with hlt | ⟨hy, hm, hd⟩
  · exact .inl (by omega)
  · have htimes : c.hour * 2 ^ 11 + c.min * 2 ^ 5 + c.sec / 2 ≤ c'.hour * 2 ^ 11 + c'.min * 2 ^ 5 + c'.sec / 2 := by
      omega
    rw [hy, hm, hd] at hdate
    exact .inr ⟨by omega, by omega⟩

/-- **Dates of entries.**  For every second of the years 1980 to 2107, the words that `fat16_dos_now` packs say the date
and time of that second, with its seconds rounded down to an even number; and the words of an earlier second are not
behind those of a later one. -/
theorem dos_time :
    (∀ ts : TimeSpec, FatEra ts.sec → ∃ c : Calendar, c.Valid ∧ c.seconds = ts.sec ∧
        decodeStamp (fat16DosNow ts) = c.evenSeconds) ∧
      ∀ ts ts' : TimeSpec, FatEra ts.sec → FatEra ts'.sec → ts.sec ≤ ts'.sec →
        DosStamp.le (fat16DosNow ts) (fat16DosNow ts') := by
  constructor
  · intro ts hera
    obtain ⟨hvalid, hseconds, hyear⟩ := timespecSplit_of_fatEra hera
    exact ⟨timespecSplit ts, hvalid, hseconds, decodeStamp_eq hvalid rfl hyear⟩
  · intro ts ts' hera hera' hle
    obtain ⟨hvalid, hseconds, hyear⟩ := timespecSplit_of_fatEra hera
    obtain ⟨hvalid', hseconds', hyear'⟩ := timespecSplit_of_fatEra hera'
    refine le_of_not_before hvalid rfl hyear hvalid' rfl hyear' fun hbefore => ?_
    have hlt := Calendar.seconds_lt hvalid' hvalid hbefore
    omega

theorem dos_time_2024 :
    (∃ c : Calendar, c.Valid ∧ c.seconds = 1709251199 ∧ decodeStamp (fat16DosNow ⟨1709251199, 0⟩) = c.evenSeconds) ∧
      DosStamp.le (fat16DosNow ⟨1709251199, 0⟩) (fat16DosNow ⟨1709251200, 0⟩) :=
  ⟨dos_time.1 ⟨1709251199, 0⟩ ⟨by decide, by decide⟩,
    dos_time.2 ⟨1709251199, 0⟩ ⟨1709251200, 0⟩ ⟨by decide, by decide⟩ ⟨by decide, by decide⟩ (by decide)⟩

end LizardOs.Time
