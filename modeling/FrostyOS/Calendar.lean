import FrostyOS.MachineWord

/-! # The calendar of `time.c` and of the real time clock

`days_since_epoch` counts the years one by one, `GetWeekDay` is a closed formula. -/
namespace Calendar

def isLeapYear (year : ℤ) : Bool :=
  if year.tmod 4 ≠ 0 then false
  else if year.tmod 100 ≠ 0 then true
  else if year.tmod 400 ≠ 0 then false
  else true

def daySeekTable : List ℤ := [0, 31, 59, 90, 120, 151, 181, 212, 243, 273, 304, 334]

def dayOfYear (year month day : ℤ) : ℤ :=
  let month := if month < 1 then 1 else if 12 < month then 12 else month
  let yearDay := daySeekTable.getD (month - 1).toNat 0 + day - 1
  if isLeapYear year && decide (3 ≤ month) then yearDay + 1 else yearDay

/-- The loop over the years, `turns` of them from `i` on. -/
def addYears : ℕ → ℤ → ℤ → ℤ
  | 0, _, days => days
  | turns + 1, i, days =>
    let days := days + 365
    addYears turns (i + 1) (if isLeapYear i then days + 1 else days)

def yearsToDaysSinceEpoch (year : ℤ) : ℤ :=
  if year < 1970 then addYears (1970 - year).toNat year 0 * -1
  else addYears (year - 1970).toNat 1970 0

def daysSinceEpoch (year month day : ℤ) : ℤ :=
  yearsToDaysSinceEpoch year + dayOfYear year month day

/-- The year and the month are `uint16_t` and `uint8_t`. -/
def getWeekDay (y m d : ℕ) : ℕ :=
  let y' := if m < 3 then (y + (2 ^ 16 - 1)) % 2 ^ 16 else y
  let m' := if m < 3 then (m + 12) % 2 ^ 8 else m
  let K := y' % 100
  let J := y' / 100
  let h := (d + ((m' + 1) * 26) / 10 + K + K / 4 + J / 4 + 5 * J) % 7
  if h = 0 then 7 else h

def LeapYear (year : ℤ) : Prop := 4 ∣ year ∧ (¬ 100 ∣ year ∨ 400 ∣ year)

instance (year : ℤ) : Decidable (LeapYear year) := inferInstanceAs (Decidable (_ ∧ (_ ∨ _)))

def monthLength (year : ℤ) (month : ℕ) : ℕ :=
  if month = 2 then if LeapYear year then 29 else 28
  else if month ∈ [4, 6, 9, 11] then 30
  else 31

theorem one_le_monthLength (year : ℤ) (month : ℕ) : 1 ≤ monthLength year month := by
  unfold monthLength
  split_ifs <;> decide

structure Date where
  year : ℤ
  month : ℕ
  day : ℕ
  month_pos : 1 ≤ month
  month_le : month ≤ 12
  day_pos : 1 ≤ day
  day_le : day ≤ monthLength year month

namespace Date

def next (d : Date) : Date :=
  if hd : d.day < monthLength d.year d.month then
    ⟨d.year, d.month, d.day + 1, d.month_pos, d.month_le, Nat.le_add_left 1 _, hd⟩
  else if hm : d.month < 12 then
    ⟨d.year, d.month + 1, 1, Nat.le_add_left 1 _, hm, Nat.le_refl 1, one_le_monthLength _ _⟩
  else ⟨d.year + 1, 1, 1, Nat.le_refl 1, Nat.le_add_left 1 11, Nat.le_refl 1,
    one_le_monthLength _ _⟩

def daysSinceEpoch (d : Date) : ℤ := Calendar.daysSinceEpoch d.year d.month d.day

end Date

variable (year : ℤ)

theorem isLeapYear_iff : isLeapYear year ↔ LeapYear year := by
  simp only [isLeapYear, LeapYear, ← Int.dvd_iff_tmod_eq_zero, ne_eq]
  split_ifs <;> simp_all

/-- The days before the year, from the year zero on; the divisions round down. -/
def daysBefore : ℤ := 365 * year + (year - 1) / 4 - (year - 1) / 100 + (year - 1) / 400

theorem daysBefore_succ :
    daysBefore (year + 1) = daysBefore year + 365 + if LeapYear year then 1 else 0 := by
  unfold daysBefore LeapYear
  split_ifs <;> omega

theorem addYears_eq (turns : ℕ) (i days : ℤ) :
    addYears turns i days = days + (daysBefore (i + turns) - daysBefore i) := by
  induction turns generalizing i days with
  | zero => simp [addYears]
  | succ turns ih =>
    have hstep := daysBefore_succ i
    have hnext : i + 1 + turns = i + ↑(turns + 1) := by omega
    simp only [addYears, ih, hnext, isLeapYear_iff]
    split_ifs at hstep ⊢ <;> omega

theorem yearsToDaysSinceEpoch_eq :
    yearsToDaysSinceEpoch year = daysBefore year - daysBefore 1970 := by
  unfold yearsToDaysSinceEpoch
  split_ifs with h
  · have hend : year + ((1970 - year).toNat : ℤ) = 1970 := by omega
    rw [addYears_eq, hend]
    omega
  · have hend : 1970 + ((year - 1970).toNat : ℤ) = year := by omega
    rw [addYears_eq, hend]
    omega

theorem dayOfYear_eq {month : ℕ} (hpos : 1 ≤ month) (hle : month ≤ 12) (day : ℤ) :
    dayOfYear year month day = daySeekTable.getD (month - 1) 0 + day - 1 +
      if LeapYear year ∧ 3 ≤ month then 1 else 0 := by
  have hlow : ¬ (month : ℤ) < 1 := by omega
  have hhigh : ¬ 12 < (month : ℤ) := by omega
  have hindex : ((month : ℤ) - 1).toNat = month - 1 := by omega
  have hmarch : 3 ≤ (month : ℤ) ↔ 3 ≤ month := by omega
  simp only [dayOfYear, hlow, hhigh, if_false, hindex, Bool.and_eq_true, isLeapYear_iff,
    decide_eq_true_eq, hmarch]
  split_ifs <;> omega

theorem daySeekTable_succ : ∀ month < 12, 1 ≤ month → daySeekTable.getD month 0 =
    daySeekTable.getD (month - 1) 0 +
      if month = 2 then 28 else if month ∈ [4, 6, 9, 11] then 30 else 31 := by
  decide

theorem Date.daysSinceEpoch_next (d : Date) : d.next.daysSinceEpoch = d.daysSinceEpoch + 1 := by
  obtain ⟨year, month, day, hmonth, hmonth', hday, hday'⟩ := d
  unfold next
  dsimp only
  split_ifs with hd hm
  · simp only [Date.daysSinceEpoch, Calendar.daysSinceEpoch, dayOfYear_eq year hmonth hmonth']
    omega
  · have htable := daySeekTable_succ month hm hmonth
    obtain rfl : day = monthLength year month := Nat.le_antisymm hday' (Nat.not_lt.mp hd)
    simp only [Date.daysSinceEpoch, Calendar.daysSinceEpoch, dayOfYear_eq year hmonth hmonth',
      dayOfYear_eq year (Nat.le_add_left 1 month) hm, Nat.add_sub_cancel, htable, monthLength]
    by_cases hleap : LeapYear year <;>
      simp only [hleap, true_and, false_and, if_true, if_false] <;> split_ifs <;> omega
  · obtain rfl : month = 12 := Nat.le_antisymm hmonth' (Nat.not_lt.mp hm)
    obtain rfl : day = 31 := Nat.le_antisymm hday' (Nat.not_lt.mp hd)
    have hfirst : dayOfYear (year + 1) (1 : ℕ) (1 : ℕ) = 0 := by simp [dayOfYear, daySeekTable]
    have hlast : dayOfYear year 12 31 = 364 + if LeapYear year then 1 else 0 := by
      by_cases hleap : LeapYear year <;> simp [dayOfYear, daySeekTable, isLeapYear_iff, hleap]
    simp only [Date.daysSinceEpoch, Calendar.daysSinceEpoch, yearsToDaysSinceEpoch_eq,
      daysBefore_succ, Nat.cast_ofNat, hfirst, hlast]
    omega

/-- **Calendar arithmetic.** The epoch is day zero and each day is one more than the day before
it. The counts of the loop only grow, so none of them overflows if the last one fits. -/
theorem daysSinceEpoch_calendar : daysSinceEpoch 1970 1 1 = 0 ∧
    ∀ d : Date, d.next.daysSinceEpoch = d.daysSinceEpoch + 1 := by
  exact ⟨by decide, Date.daysSinceEpoch_next⟩

/-- A hundred years are five days more than a number of weeks, and a year is one more. -/
theorem daysBefore_century (z : ℕ) : daysBefore (z + 1) =
    365 + (z % 100 + z % 100 / 4 + z / 100 / 4 + 5 * (z / 100) : ℕ) +
      7 * (5217 * (z / 100 : ℕ) + 52 * (z % 100 : ℕ)) := by
  unfold daysBefore
  omega

theorem weekDay_of_sum {s : ℕ} {days : ℤ} (h : (days + 1 - s) % 7 = 0) :
    ((if s % 7 = 0 then 7 else s % 7 : ℕ) : ℤ) = days % 7 + 1 := by
  split_ifs <;> omega

theorem daySeekTable_late : ∀ month < 13, 3 ≤ month →
    (daySeekTable.getD (month - 1) 0 - ((month + 1) * 26 / 10 : ℕ)) % 7 = 0 := by
  decide

theorem daySeekTable_early : ∀ month < 3, 1 ≤ month →
    (daySeekTable.getD (month - 1) 0 + 1 - (((month + 12) % 2 ^ 8 + 1) * 26 / 10 : ℕ)) % 7 = 0 := by
  decide

/-- **Weekdays.** The closed formula names the weekday that the count of days does, with one
for Sunday. -/
theorem getWeekDay_eq (d : Date) (hpos : 1 ≤ d.year) (hle : d.year ≤ 65535) :
    (getWeekDay d.year.toNat d.month d.day : ℤ) = (d.daysSinceEpoch + 4) % 7 + 1 := by
  obtain ⟨year, month, day, hmonth, hmonth', hday, hday'⟩ := d
  dsimp only at hpos hle ⊢
  have hepoch : daysBefore 1970 = 719527 := by decide
  simp only [Date.daysSinceEpoch, daysSinceEpoch, yearsToDaysSinceEpoch_eq, hepoch,
    dayOfYear_eq _ hmonth hmonth']
  by_cases hm : month < 3
  · -- the first two months count with the year before
    obtain ⟨z, rfl⟩ : ∃ z : ℕ, year = z + 1 := ⟨(year - 1).toNat, by omega⟩
    have hz : (((z : ℤ) + 1).toNat + (2 ^ 16 - 1)) % 2 ^ 16 = z := by omega
    have hmarch : ¬ 3 ≤ month := by omega
    have htable := daySeekTable_early month hm hmonth
    simp only [getWeekDay, hm, if_true, hz, hmarch, and_false, if_false]
    apply weekDay_of_sum
    rw [daysBefore_century z]
    omega
  · obtain ⟨z, rfl⟩ := Int.eq_ofNat_of_zero_le (Int.le_trans Int.one_nonneg hpos)
    have hmarch : 3 ≤ month := by omega
    have htable := daySeekTable_late month (Nat.lt_succ_of_le hmonth') hmarch
    have hyear := daysBefore_succ z
    rw [daysBefore_century z] at hyear
    simp only [getWeekDay, hm, if_false, Int.toNat_natCast, hmarch, and_true]
    apply weekDay_of_sum
    omega

theorem getWeekDay_leapDay : (getWeekDay 2000 2 29 : ℤ) = (daysSinceEpoch 2000 2 29 + 4) % 7 + 1 :=
  getWeekDay_eq ⟨2000, 2, 29, by decide, by decide, by decide, by decide⟩ (by decide) (by decide)

end Calendar
