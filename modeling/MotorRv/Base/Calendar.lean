import MotorRv.Base.Ids
import Mathlib.Order.Monotone.Basic
import Mathlib.Tactic.IntervalCases

/-!
# The serial number of a day

On the dates of the calendar `dayIndex` follows the order of the dates themselves: the days of a
month are numbered one after another, and each month starts where the month before it ends
(`monthStart_succ`). `fromDayIndex` reads the date back. Both count years from March, so that a leap
day is the last of its year; that the year of an era can be read off a day of the era is
`yearOfEra_eq`.

The argument is about three nested cycles. A date has an era of 400 years, a year within the era and
a day within the year, and `dayIndex_eq` says that the code's divisions find them. For the way back
the year has to be recovered from the day of the era, where the leap days are not evenly spread;
`yearOfEra_eq` is that step, and the only one in which the quotients of the code have to be
understood together.

`dayIndex_faithful` collects what the rest of the development uses: on dates of the calendar the
serial number is read back, follows the order of the `yyyymmdd` values, and increases by one from a
day to the next (`NextDay`). For other values, say the 31st of a short month, nothing is claimed.
-/

namespace MotorRv

namespace DateYmd

def year (d : DateYmd) : ℕ := d.toNat / 10000
def month (d : DateYmd) : ℕ := d.toNat / 100 % 100
def day (d : DateYmd) : ℕ := d.toNat % 100

end DateYmd

/-- The number of days of a month of a year. -/
def daysInMonth (year month : ℕ) : ℕ :=
  if month = 2 then
    if year % 4 = 0 ∧ (year % 100 ≠ 0 ∨ year % 400 = 0) then 29 else 28
  else if month = 4 ∨ month = 6 ∨ month = 9 ∨ month = 11 then 30
  else 31

/-- A date of the calendar. -/
structure IsCalendarDate (d : DateYmd) : Prop where
  month : 1 ≤ DateYmd.month d ∧ DateYmd.month d ≤ 12
  day : 1 ≤ DateYmd.day d ∧ DateYmd.day d ≤ daysInMonth (DateYmd.year d) (DateYmd.month d)

/-- The serial number of the day before a month, counted from January of year 0. The year starts in
March here, so that a leap day is the last of its year. -/
def monthStart (n : ℕ) : ℤ :=
  let y : ℤ := if n % 12 < 2 then n / 12 - 1 else n / 12
  let m : ℤ := if n % 12 < 2 then n % 12 + 10 else n % 12 - 2
  365 * y + y / 4 - y / 100 + y / 400 + (153 * m + 2) / 5 - 719469

/-- The start of a month in terms of its year and its place in the year, from 0. -/
theorem monthStart_add (q : ℕ) {r : ℕ} (hr : r < 12) :
    monthStart (12 * q + r) =
      let y : ℤ := if r < 2 then q - 1 else q
      let m : ℤ := if r < 2 then r + 10 else r - 2
      365 * y + y / 4 - y / 100 + y / 400 + (153 * m + 2) / 5 - 719469 := by
  have hmod : (12 * q + r) % 12 = r := by omega
  have hyear : ((12 * q + r : ℕ) : ℤ) / 12 = q := by omega
  have hmonth : ((12 * q + r : ℕ) : ℤ) % 12 = r := by omega
  simp only [monthStart, hmod, hyear, hmonth]

/-- A month ends where the next one begins. -/
theorem monthStart_succ (n : ℕ) :
    monthStart n + daysInMonth (n / 12) (n % 12 + 1) = monthStart (n + 1) := by
  obtain ⟨q, r, hr, rfl⟩ : ∃ q r, r < 12 ∧ n = 12 * q + r :=
    ⟨n / 12, n % 12, Nat.mod_lt _ (by norm_num), (Nat.div_add_mod n 12).symm⟩
  have hyear : (12 * q + r) / 12 = q := by omega
  have hmonth : (12 * q + r) % 12 = r := by omega
  rw [monthStart_add q hr, hyear, hmonth]
  obtain rfl | hlt : r = 11 ∨ r + 1 < 12 := by omega
  · -- December is followed by January of the next year
    rw [show 12 * q + 11 + 1 = 12 * (q + 1) + 0 by omega, monthStart_add _ (by decide)]
    norm_num [daysInMonth]
    omega
  · rw [Nat.add_assoc, monthStart_add _ hlt]
    obtain rfl | hfeb := eq_or_ne r 1
    · norm_num [daysInMonth]
      split_ifs <;> omega
    · interval_cases r
      all_goals
        simp [daysInMonth]
        omega

theorem monotone_monthStart : Monotone monthStart := by
  refine monotone_nat_of_le_succ fun n => ?_
  rw [← monthStart_succ n]
  omega

theorem toInt_ofInt {z : ℤ} (h0 : 0 ≤ z) (h1 : z < 2 ^ 31) : (Int32.ofInt z).toInt = z := by
  rw [Int32.toInt_ofInt]
  rw [Int.bmod_eq_of_le] <;> norm_num <;> omega

/-- No month has more than 31 days. -/
theorem daysInMonth_le (y m : ℕ) : daysInMonth y m ≤ 31 := by
  unfold daysInMonth
  split_ifs <;> norm_num

/-- The years before a date are cut into eras of 400 years, rounding down. -/
theorem era_eq {y : ℤ} (hy : -1 ≤ y) : (if 0 ≤ y then y else y - 399).tdiv 400 = y / 400 := by
  split_ifs with h
  · exact Int.tdiv_eq_ediv_of_nonneg h
  · obtain rfl : y = -1 := by omega
    rfl

/-- The serial number of a day of a month. -/
theorem dayIndex_eq {d : DateYmd} (h : IsCalendarDate d) :
    dayIndex d = monthStart (12 * DateYmd.year d + (DateYmd.month d - 1)) + DateYmd.day d := by
  obtain ⟨⟨hm1, hm12⟩, hd1, hd⟩ := h
  have hd31 := hd.trans (daysInMonth_le _ _)
  have hyear : (d.toNat / 10000 : ℤ) = DateYmd.year d := by simp [DateYmd.year]
  have hmonth : (d.toNat / 100 % 100 : ℤ) = DateYmd.month d := by simp [DateYmd.month]
  have hday : (d.toNat % 100 : ℤ) = DateYmd.day d := by simp [DateYmd.day]
  simp only [dayIndex, hyear, hmonth, hday]
  generalize DateYmd.year d = year at *
  generalize DateYmd.month d = month at *
  generalize DateYmd.day d = day at *
  clear hyear hmonth hday hd
  generalize hy : (if (month : ℤ) ≤ 2 then (year : ℤ) - 1 else year) = y
  have hy1 : -1 ≤ y := by split_ifs at hy <;> omega
  rw [era_eq hy1]
  generalize hmp : (month : ℤ) + (if 2 < (month : ℤ) then -3 else 9) = m
  have hm : 0 ≤ m ∧ m ≤ 11 := by split_ifs at hmp <;> (constructor <;> omega)
  have hdoy : (153 * m + 2).tdiv 5 = (153 * m + 2) / 5 := Int.tdiv_eq_ediv_of_nonneg (by omega)
  have hdoy' : ((153 * m + 2) / 5 + (day : ℤ) - 1) % 2 ^ 32 = (153 * m + 2) / 5 + (day : ℤ) - 1 :=
    Int.emod_eq_of_lt (by omega) (by omega)
  have hyoe : (y - y / 400 * 400) % 2 ^ 32 = y - y / 400 * 400 :=
    Int.emod_eq_of_lt (by omega) (by omega)
  rw [hdoy, hdoy', hyoe]
  rw [Int.emod_eq_of_lt (by omega) (by omega), toInt_ofInt (by omega) (by omega)]
  simp only [monthStart]
  have hmod : (12 * year + (month - 1)) % 12 = month - 1 := by omega
  have hdiv : (12 * year + (month - 1)) / 12 = year := by omega
  rw [show ((12 * year + (month - 1) : ℕ) : ℤ) / 12 = year by omega,
    show ((12 * year + (month - 1) : ℕ) : ℤ) % 12 = (month : ℤ) - 1 by omega, hmod]
  split_ifs at * <;> omega

/-- Later dates have greater numbers. -/
theorem dayIndex_lt {d d' : DateYmd} (h : IsCalendarDate d) (h' : IsCalendarDate d')
    (hlt : d < d') : dayIndex d < dayIndex d' := by
  rw [dayIndex_eq h, dayIndex_eq h']
  have hnat : d.toNat < d'.toNat := hlt
  have hm := h.month
  have hm' := h'.month
  have hd := h.day
  have hd' := h'.day
  by_cases hmonth : 12 * DateYmd.year d + (DateYmd.month d - 1) =
      12 * DateYmd.year d' + (DateYmd.month d' - 1)
  · -- in one month only the day differs
    rw [hmonth]
    simp only [DateYmd.year, DateYmd.month, DateYmd.day] at *
    omega
  · -- the month of `d` ends before that of `d'` starts
    have hlt : 12 * DateYmd.year d + (DateYmd.month d - 1) + 1 ≤
        12 * DateYmd.year d' + (DateYmd.month d' - 1) := by
      simp only [DateYmd.year, DateYmd.month, DateYmd.day] at *
      omega
    have hstart := monotone_monthStart hlt
    rw [← monthStart_succ, show (12 * DateYmd.year d + (DateYmd.month d - 1)) / 12 =
      DateYmd.year d by omega, show (12 * DateYmd.year d + (DateYmd.month d - 1)) % 12 + 1 =
      DateYmd.month d by omega] at hstart
    omega

/-- The index of a date is monotone. -/
theorem dayIndex_le {d d' : DateYmd} (h : IsCalendarDate d) (h' : IsCalendarDate d')
    (hle : d ≤ d') : dayIndex d ≤ dayIndex d' := by
  obtain rfl | hne := eq_or_ne d d'
  · exact le_rfl
  · exact (dayIndex_lt h h' (UInt32.lt_of_le_of_ne hle hne)).le

/-- No date is before the index of zero. -/
theorem dayIndex_zero_le {d : DateYmd} (h : IsCalendarDate d) : dayIndex 0 ≤ dayIndex d := by
  have hstart : monthStart 0 ≤ monthStart (12 * DateYmd.year d + (DateYmd.month d - 1)) :=
    monotone_monthStart (Nat.zero_le _)
  have hzero : dayIndex 0 ≤ monthStart 0 := by decide
  rw [dayIndex_eq h]
  omega

/-! ### The date of a serial number -/

/-- A result of signed arithmetic, if it fits: overflow is undefined. -/
def int32 (z : ℤ) : Option ℤ := if -2 ^ 31 ≤ z ∧ z < 2 ^ 31 then some z else none

theorem int32_eq {z : ℤ} (h0 : 0 ≤ z) (h1 : z < 2 ^ 31) : int32 z = some z := by
  rw [int32, if_pos (by omega)]

def fromYmd (y m d : ℤ) : Option DateYmd := do
  let y ← int32 (y * 10000)
  let ym ← int32 (y + m * 100)
  let ymd ← int32 (ym + d)
  some (UInt32.ofInt ymd)

/-- The date with a serial number. The arithmetic on the day of the era is unsigned. -/
def fromDayIndex (z : ℤ) : Option DateYmd := do
  let z ← int32 (z + 719468)
  let n ← int32 (if 0 ≤ z then z else z - 146096)
  let era := n.tdiv 146097
  let doe := (z - era * 146097) % 2 ^ 32
  let yoe := (doe - doe / 1460 + doe / 36524 - doe / 146096) % 2 ^ 32 / 365
  let y := yoe + era * 400
  let doy := (doe - (365 * yoe + yoe / 4 - yoe / 100)) % 2 ^ 32
  let mp := (5 * doy + 2) % 2 ^ 32 / 153
  let d := (doy - (153 * mp + 2) / 5 + 1) % 2 ^ 32
  let m := if mp < 10 then mp + 3 else mp - 9
  fromYmd (y + if m ≤ 2 then 1 else 0) m d

example : fromDayIndex 20698 = some 20260902 := by decide

/-- The year is read off a day of the era: the quotients take out the leap days before it. -/
theorem yearOfEra_eq {yoe doy doe : ℤ} (hyoe : 0 ≤ yoe ∧ yoe ≤ 399) (hdoy : 0 ≤ doy ∧ doy ≤ 365)
    (hleap : doy = 365 → (yoe + 1) % 4 = 0 ∧ ((yoe + 1) % 100 ≠ 0 ∨ yoe = 399))
    (hdoe : doe = 365 * yoe + yoe / 4 - yoe / 100 + doy) :
    (doe - doe / 1460 + doe / 36524 - doe / 146096) / 365 = yoe := by
  -- the year as a century, a leap cycle in it and a year of the cycle
  obtain ⟨c, q, r, hc, hq, hr, rfl⟩ : ∃ c q r : ℤ, (0 ≤ c ∧ c ≤ 3) ∧ (0 ≤ q ∧ q ≤ 24) ∧
      (0 ≤ r ∧ r ≤ 3) ∧ yoe = 100 * c + 4 * q + r :=
    ⟨yoe / 100, yoe % 100 / 4, yoe % 4, by omega, by omega, by omega, by omega⟩
  have hlast : doy = 365 → r = 3 ∧ (q ≠ 24 ∨ c = 3) := by
    intro h
    have := hleap h
    omega
  have hcycles : (100 * c + 4 * q + r) / 4 = 25 * c + q := by omega
  have hcenturies : (100 * c + 4 * q + r) / 100 = c := by omega
  rw [hcycles, hcenturies] at hdoe
  clear hleap hcycles hcenturies
  have hcentury : doe / 36524 = c ∨ doe = 146096 := by omega
  have hcycle : doe / 1460 = 25 * c + q ∨ doe / 1460 = 25 * c + q + 1 := by omega
  omega

/-- The fields are read off the era and the day of the era. -/
theorem fromDayIndex_of_era {e yoe doy doe mp day : ℤ} (he : 0 ≤ e ∧ e < 2 ^ 10)
    (hyoe : 0 ≤ yoe ∧ yoe ≤ 399) (hdoy : 0 ≤ doy ∧ doy ≤ 365)
    (hdoe : doe = 365 * yoe + yoe / 4 - yoe / 100 + doy) (hdoe' : doe ≤ 146096)
    (hyear : (doe - doe / 1460 + doe / 36524 - doe / 146096) / 365 = yoe)
    (hmonth : (5 * doy + 2) / 153 = mp) (hday : doy - (153 * mp + 2) / 5 + 1 = day) :
    fromDayIndex (146097 * e + doe - 719468) = fromYmd (yoe + e * 400 +
      if (if mp < 10 then mp + 3 else mp - 9) ≤ 2 then 1 else 0)
      (if mp < 10 then mp + 3 else mp - 9) day := by
  have hera : (146097 * e + doe).tdiv 146097 = e := by
    rw [Int.tdiv_eq_ediv_of_nonneg (by omega)]
    omega
  have hrest : (146097 * e + doe - e * 146097) % 2 ^ 32 = doe := by omega
  have hquot : (doe - doe / 1460 + doe / 36524 - doe / 146096) % 2 ^ 32 =
      doe - doe / 1460 + doe / 36524 - doe / 146096 :=
    Int.emod_eq_of_lt (by omega) (by omega)
  have hdoy' : (doe - (365 * yoe + yoe / 4 - yoe / 100)) % 2 ^ 32 = doy := by omega
  have hfive : (5 * doy + 2) % 2 ^ 32 = 5 * doy + 2 := by omega
  have hday' : (doy - (153 * mp + 2) / 5 + 1) % 2 ^ 32 = day := by omega
  simp only [fromDayIndex, sub_add_cancel, int32_eq (show 0 ≤ 146097 * e + doe by omega) (by omega),
    Option.bind_eq_bind, Option.bind_some, if_pos (show 0 ≤ 146097 * e + doe by omega), hera, hrest,
    hquot, hyear, hdoy', hfive, hmonth, hday']

/-- A day of a month, in a year that starts in March, is read back. -/
theorem fromDayIndex_eq {y mp day : ℤ} (hy : 0 ≤ y ∧ y < 2 ^ 18) (hmp : 0 ≤ mp ∧ mp ≤ 11)
    (hday : 1 ≤ day)
    (hlast : (153 * mp + 2) / 5 + day - 1 < if mp = 11 then 366 else (153 * (mp + 1) + 2) / 5)
    (hleap : (153 * mp + 2) / 5 + day - 1 = 365 →
      (y + 1) % 4 = 0 ∧ ((y + 1) % 100 ≠ 0 ∨ (y + 1) % 400 = 0)) :
    fromDayIndex (365 * y + y / 4 - y / 100 + y / 400 + (153 * mp + 2) / 5 - 719469 + day) =
      fromYmd (y + if 10 ≤ mp then 1 else 0) (if mp < 10 then mp + 3 else mp - 9) day := by
  -- years are counted from March, in eras of four hundred
  obtain ⟨e, yoe, he, hyoe, rfl⟩ : ∃ e yoe : ℤ, 0 ≤ e ∧ (0 ≤ yoe ∧ yoe ≤ 399) ∧
      y = 400 * e + yoe := ⟨y / 400, y % 400, by omega, by omega, by omega⟩
  generalize hdoy : (153 * mp + 2) / 5 + day - 1 = doy at *
  have hdoy0 : 0 ≤ doy ∧ doy ≤ 365 := by
    constructor
    · omega
    · split_ifs at hlast <;> omega
  have hleap' : doy = 365 → (yoe + 1) % 4 = 0 ∧ ((yoe + 1) % 100 ≠ 0 ∨ yoe = 399) := by
    intro h
    have := hleap h
    omega
  clear hleap
  -- the formula for the month, one case for each of the twelve
  have hmonth : (5 * doy + 2) / 153 = mp := by
    obtain ⟨hmp0, hmp1⟩ := hmp
    interval_cases mp <;> simp at hlast hdoy <;> omega
  have hyear := yearOfEra_eq hyoe hdoy0 hleap' rfl
  have h := fromDayIndex_of_era ⟨he, by omega⟩ hyoe hdoy0 rfl (by omega) hyear hmonth
    (show doy - (153 * mp + 2) / 5 + 1 = day by omega)
  have hz : 365 * (400 * e + yoe) + (400 * e + yoe) / 4 - (400 * e + yoe) / 100 +
      (400 * e + yoe) / 400 + (153 * mp + 2) / 5 - 719469 + day =
      146097 * e + (365 * yoe + yoe / 4 - yoe / 100 + doy) - 719468 := by
    rw [show (400 * e + yoe) / 4 = 100 * e + yoe / 4 by omega,
      show (400 * e + yoe) / 100 = 4 * e + yoe / 100 by omega,
      show (400 * e + yoe) / 400 = e by omega]
    omega
  rw [hz, h]
  congr 1
  split_ifs <;> omega

theorem ofInt_toNat (d : UInt32) : UInt32.ofInt d.toNat = d := by
  have h := d.toNat_lt
  rw [UInt32.ofInt, Int.emod_eq_of_lt (by omega) (by omega), Int.toNat_natCast, UInt32.ofNat_toNat]

/-- A date is made of its year, its month and its day. -/
theorem fields_eq (d : DateYmd) :
    (DateYmd.year d * 10000 + DateYmd.month d * 100 + DateYmd.day d : ℤ) = d.toNat := by
  simp only [DateYmd.year, DateYmd.month, DateYmd.day]
  omega

/-- A date is put together from its fields as long as it fits. -/
theorem fromYmd_of_sum {y m d n : ℤ} (hy : 0 ≤ y) (hm : 0 ≤ m) (hd : 0 ≤ d)
    (hsum : y * 10000 + m * 100 + d = n) (hn : n < 2 ^ 31) :
    fromYmd y m d = some (UInt32.ofInt n) := by
  have hyear : int32 (y * 10000) = some (y * 10000) := int32_eq (by omega) (by omega)
  have hmonth : int32 (y * 10000 + m * 100) = some (y * 10000 + m * 100) :=
    int32_eq (by omega) (by omega)
  have hday : int32 n = some n := int32_eq (by omega) (by omega)
  simp only [fromYmd, Option.bind_eq_bind, Option.bind_some, hyear, hmonth, hsum, hday]

/-- A date is put together again from its own fields. -/
theorem fromYmd_eq {d : DateYmd} (hd : d.toNat < 2 ^ 31) :
    fromYmd (DateYmd.year d) (DateYmd.month d) (DateYmd.day d) = some d := by
  rw [fromYmd_of_sum (by omega) (by omega) (by omega) (fields_eq d) (by omega), ofInt_toNat]

/-- The dates from year 1 on whose value is a signed integer. -/
def calendarDates : Set DateYmd :=
  {d | IsCalendarDate d ∧ 1 ≤ DateYmd.year d ∧ d.toNat < 2 ^ 31}

/-- The days before a month, in years that begin in March as the algorithm counts them. -/
theorem monthStart_month {year month : ℕ} (hm : 1 ≤ month ∧ month ≤ 12) :
    monthStart (12 * year + (month - 1)) =
      365 * (if month ≤ 2 then year - 1 else year : ℤ) +
        (if month ≤ 2 then year - 1 else year : ℤ) / 4 -
        (if month ≤ 2 then year - 1 else year : ℤ) / 100 +
        (if month ≤ 2 then year - 1 else year : ℤ) / 400 +
        (153 * (if month ≤ 2 then month + 9 else month - 3 : ℤ) + 2) / 5 - 719469 := by
  have hmod : (12 * year + (month - 1)) % 12 = month - 1 := by omega
  have hdiv : ((12 * year + (month - 1) : ℕ) : ℤ) / 12 = year := by omega
  have hmod' : ((12 * year + (month - 1) : ℕ) : ℤ) % 12 = month - 1 := by omega
  simp only [monthStart, hmod, hdiv, hmod']
  by_cases h : month ≤ 2
  · rw [if_pos (by omega), if_pos (by omega), if_pos h, if_pos h]
    rw [show (month : ℤ) - 1 + 10 = month + 9 by omega]
  · rw [if_neg (by omega), if_neg (by omega), if_neg h, if_neg h]
    rw [show (month : ℤ) - 1 - 2 = month - 3 by omega]

/-- **A date is found again from its index.** -/
theorem fromDayIndex_dayIndex {d : DateYmd} (hd : d ∈ calendarDates) :
    fromDayIndex (dayIndex d) = some d := by
  obtain ⟨h, hyear, hlt⟩ := hd
  have hlarge : DateYmd.year d < 2 ^ 18 := by
    simp only [DateYmd.year]
    omega
  rw [dayIndex_eq h, ← fromYmd_eq hlt]
  obtain ⟨hm, hd1, hdmax⟩ := h
  clear hlt
  generalize DateYmd.year d = year at *
  generalize DateYmd.month d = month at *
  generalize DateYmd.day d = day at *
  rw [monthStart_month hm, fromDayIndex_eq]
  · congr 1
    · split_ifs <;> omega
    · split_ifs <;> omega
  · split_ifs <;> omega
  · split_ifs <;> omega
  · omega
  · -- the months from March on have their lengths from one formula
    obtain ⟨hm1, hm12⟩ := hm
    interval_cases month <;> simp [daysInMonth] at hdmax ⊢ <;> (try split_ifs at hdmax) <;> omega
  · intro hlast
    obtain ⟨hm1, hm12⟩ := hm
    interval_cases month <;> simp [daysInMonth] at hdmax hlast ⊢ <;> (try split_ifs at hdmax) <;>
      omega

/-- `d'` is the day after `d`. -/
def NextDay (d d' : DateYmd) : Prop :=
  if DateYmd.day d < daysInMonth (DateYmd.year d) (DateYmd.month d) then
    DateYmd.year d' = DateYmd.year d ∧ DateYmd.month d' = DateYmd.month d ∧
      DateYmd.day d' = DateYmd.day d + 1
  else if DateYmd.month d < 12 then
    DateYmd.year d' = DateYmd.year d ∧ DateYmd.month d' = DateYmd.month d + 1 ∧ DateYmd.day d' = 1
  else DateYmd.year d' = DateYmd.year d + 1 ∧ DateYmd.month d' = 1 ∧ DateYmd.day d' = 1

/-- **The index of the next day is the next one.** -/
theorem dayIndex_nextDay {d d' : DateYmd} (h : IsCalendarDate d) (h' : IsCalendarDate d')
    (hnext : NextDay d d') : dayIndex d' = dayIndex d + 1 := by
  have hm := h.month
  have hd := h.day
  rw [dayIndex_eq h, dayIndex_eq h']
  unfold NextDay at hnext
  split_ifs at hnext with hlast hdecember
  · obtain ⟨hyear, hmonth, hday⟩ := hnext
    rw [hyear, hmonth, hday]
    push_cast
    omega
  all_goals
    -- the month is over, and the next one starts where it ends
    obtain ⟨hyear, hmonth, hday⟩ := hnext
    have hend := monthStart_succ (12 * DateYmd.year d + (DateYmd.month d - 1))
    rw [show (12 * DateYmd.year d + (DateYmd.month d - 1)) / 12 = DateYmd.year d by omega,
      show (12 * DateYmd.year d + (DateYmd.month d - 1)) % 12 + 1 = DateYmd.month d by omega,
      show 12 * DateYmd.year d + (DateYmd.month d - 1) + 1 =
        12 * DateYmd.year d' + (DateYmd.month d' - 1) by omega] at hend
    omega

/-- The serial number of a day is a faithful copy of the date: it is read back, it follows the order
of the values, and it counts the days of the calendar. -/
theorem dayIndex_faithful {d d' : DateYmd} (hd : d ∈ calendarDates) (hd' : d' ∈ calendarDates) :
    fromDayIndex (dayIndex d) = some d ∧ (d < d' → dayIndex d < dayIndex d') ∧
      (NextDay d d' → dayIndex d' = dayIndex d + 1) :=
  ⟨fromDayIndex_dayIndex hd, dayIndex_lt hd.1 hd'.1, dayIndex_nextDay hd.1 hd'.1⟩

/-- The last day of February of a leap year that ends a century. -/
theorem dayIndex_faithful_leap : fromDayIndex (dayIndex 20000228) = some 20000228 ∧
    dayIndex 20000229 = dayIndex 20000228 + 1 := by
  have h28 : (20000228 : DateYmd) ∈ calendarDates := ⟨⟨by decide, by decide⟩, by decide, by decide⟩
  have h29 : (20000229 : DateYmd) ∈ calendarDates := ⟨⟨by decide, by decide⟩, by decide, by decide⟩
  exact ⟨(dayIndex_faithful h28 h29).1, (dayIndex_faithful h28 h29).2.2 (by unfold NextDay; decide)⟩

end MotorRv
