import Cpu32.Log.Timestamp
import Cpu32.Proofs.Log.Calendar

/-!
# Converting days to dates

The conversion finds the year of an era by dividing once by 365, after the leap days before it have
been taken out of the days.  A day of an era is described by its century, its group of four years,
the year in the group and the day of the year, all counted from zero; from these the outcome of each
division is read off.
-/

namespace Cpu32.Log

/-- A day of an era.  Years begin in March. -/
structure EraDay where
  century : Nat
  /-- The group of four years in the century. -/
  group : Nat
  /-- The year in the group. -/
  year : Nat
  day : Nat

namespace EraDay

def count (p : EraDay) : Nat :=
  36524 * p.century + 1461 * p.group + 365 * p.year + p.day

def yearOfEra (p : EraDay) : Nat :=
  100 * p.century + 4 * p.group + p.year

def date (p : EraDay) (era : Nat) : Date :=
  let fromMarch := Date.monthFromMarch p.day
  let month := if fromMarch < 10 then fromMarch + 3 else fromMarch - 9
  ⟨p.yearOfEra + 400 * era + (if month ≤ 2 then 1 else 0), month,
    p.day - (153 * fromMarch + 2) / 5 + 1⟩

/-- A leap day ends the last year of a group, but in the last group of a century only that of the
last century. -/
structure IsValid (p : EraDay) : Prop where
  century_le : p.century ≤ 3
  group_le : p.group ≤ 24
  year_le : p.year ≤ 3
  day_le : p.day ≤ 365
  leap : p.day = 365 → p.year = 3 ∧ (p.group = 24 → p.century = 3)

/-- The last century of an era has one day more. -/
theorem exists_century {n : Nat} (h : n < 146097) :
    ∃ century rest, n = 36524 * century + rest ∧ century ≤ 3 ∧ rest ≤ 36524 ∧
      (rest = 36524 → century = 3) := by
  by_cases hlast : n = 146096
  · exact ⟨3, 36524, by omega⟩
  · exact ⟨n / 36524, n % 36524, by omega⟩

/-- The last group of a century has one day less, except for the last century. -/
theorem exists_group {n : Nat} (h : n ≤ 36524) :
    ∃ group rest, n = 1461 * group + rest ∧ group ≤ 24 ∧ rest ≤ 1460 ∧
      (group = 24 → rest = 1460 → n = 36524) :=
  ⟨n / 1461, n % 1461, by omega⟩

/-- The last year of a group has one day more. -/
theorem exists_year {n : Nat} (h : n ≤ 1460) :
    ∃ year day, n = 365 * year + day ∧ year ≤ 3 ∧ day ≤ 365 ∧ (day = 365 → year = 3) := by
  by_cases hlast : n = 1460
  · exact ⟨3, 365, by omega⟩
  · exact ⟨n / 365, n % 365, by omega⟩

theorem exists_count {n : Nat} (h : n < Date.eraDays) :
    ∃ p : EraDay, p.IsValid ∧ p.count = n := by
  obtain ⟨century, inCentury, hn, hcentury, hrest, hlast⟩ := exists_century h
  obtain ⟨group, inGroup, hinCentury, hgroup, hrest', hcommon⟩ := exists_group hrest
  obtain ⟨year, day, hinGroup, hyear, hday, hleap⟩ := exists_year hrest'
  refine ⟨⟨century, group, year, day⟩, ⟨hcentury, hgroup, hyear, hday, ?_⟩, ?_⟩
  · intro hend
    have hyear := hleap hend
    refine ⟨hyear, fun hgroup => hlast (hcommon hgroup ?_)⟩
    simp only at hend hyear
    omega
  · simp only [count]
    omega

variable {p : EraDay}

/-- Dividing by four years without a leap day gives the groups of the era, or one more on days late
in the last year of a group. -/
theorem div_group (h : p.IsValid) :
    ∃ extra, p.count / 1460 = 25 * p.century + p.group + extra ∧ extra ≤ 1 ∧
      (extra = 1 → 0 < p.day) ∧ (p.day = 365 → extra = 1) := by
  obtain ⟨century, group, year, day⟩ := p
  obtain ⟨hcentury, hgroup, hyear, hday, hleap⟩ := h
  simp only [count] at *
  generalize hrest : 24 * century + group + 365 * year + day = rest
  have hcount : 36524 * century + 1461 * group + 365 * year + day =
      1460 * (25 * century + group) + rest := by
    omega
  rw [hcount, Nat.mul_add_div (by decide)]
  refine ⟨rest / 1460, rfl, by omega, by omega, fun hend => ?_⟩
  have hlast := (hleap hend).1
  omega

/-- The second quotient corrects the first on the last day of an era. -/
theorem div_century (h : p.IsValid) :
    p.count / 36524 = p.century + p.count / 146096 := by
  obtain ⟨century, group, year, day⟩ := p
  obtain ⟨hcentury, hgroup, hyear, hday, hleap⟩ := h
  simp only [count] at *
  -- On the last day the quotient is one too many; on any other the rest is less than a century.
  by_cases hlast : 36524 * century + 1461 * group + 365 * year + day = 146096
  · omega
  · have hrest : 1461 * group + 365 * year + day < 36524 := by
      by_cases hend : day = 365
      · have := hleap hend
        omega
      · omega
    omega

/-- With the leap days taken out every year has 365 days; a day that is taken out too early is not
the first of its year. -/
theorem commonDays_count (h : p.IsValid) :
    ∃ day ≤ 364, p.count - p.count / 1460 + p.count / 36524 - p.count / 146096 =
      365 * p.yearOfEra + day := by
  obtain ⟨extra, hgroup, hextra, hearly, hlate⟩ := p.div_group h
  have hcentury := p.div_century h
  have hday := h.day_le
  refine ⟨p.day - extra, by omega, ?_⟩
  rw [hgroup, hcentury]
  simp only [count, yearOfEra]
  omega

theorem yearOfEra_count (h : p.IsValid) : Date.yearOfEra p.count = p.yearOfEra := by
  obtain ⟨day, hday, hcommon⟩ := p.commonDays_count h
  rw [Date.yearOfEra, hcommon, Nat.mul_add_div (by decide), Nat.div_eq_of_lt (by omega),
    Nat.add_zero]

/-- The days of the era before a year. -/
theorem count_eq (h : p.IsValid) :
    p.count = 365 * p.yearOfEra + p.yearOfEra / 4 - p.yearOfEra / 100 + p.day := by
  obtain ⟨hcentury, hgroup, hyear, _, _⟩ := h
  simp only [count, yearOfEra]
  omega

theorem dayOfYear_count (h : p.IsValid) : Date.dayOfYear p.count = p.day := by
  have hcount := p.count_eq h
  simp only [Date.dayOfYear, p.yearOfEra_count h]
  omega

variable (era : Nat)

/-- The days before a year of an era are the days before the first of March. -/
theorem daysBeforeMarch_add (h : p.IsValid) :
    daysBeforeMarch (p.yearOfEra + 400 * era) + p.day = Date.eraDays * era + p.count := by
  obtain ⟨hcentury, hgroup, hyear, _, _⟩ := h
  simp only [daysBeforeMarch, Date.eraDays, count, yearOfEra]
  omega

/-- A year of 366 days ends in a leap year. -/
theorem leapDays_of_day (h : p.IsValid) (hday : p.day = 365) :
    leapDays (p.yearOfEra + 400 * era + 1) = 1 := by
  obtain ⟨hcentury, hgroup, hyear, _, hleap⟩ := h
  obtain ⟨hlast, hexcept⟩ := hleap hday
  rw [leapDays, if_pos]
  simp only [IsLeap, yearOfEra, hlast]
  omega

end EraDay

namespace Date

/-- Counted from March, the months but February have lengths that repeat every five months, 153
days. -/
theorem daysBeforeMonth_add (year : Nat) {month : Nat} (h : month ≤ 10) :
    daysBeforeMonth year (month + 3) = 59 + leapDays year + (153 * month + 2) / 5 := by
  interval_cases month <;> simp only [daysBeforeMonth, daysOfMonth] <;> omega

variable (year : Nat) {day : Nat}

theorem monthFromMarch_spec (day : Nat) :
    (153 * monthFromMarch day + 2) / 5 ≤ day ∧
      day < (153 * (monthFromMarch day + 1) + 2) / 5 := by
  rw [monthFromMarch]
  omega

/-- A day of a year that begins in March and is before January. -/
theorem isValid_of_lt (h : monthFromMarch day < 10) :
    let date : Date :=
      ⟨year, monthFromMarch day + 3, day - (153 * monthFromMarch day + 2) / 5 + 1⟩
    date.IsValid ∧ date.ordinal = daysBeforeMarch year + day + 60 := by
  obtain ⟨hfirst, hlast⟩ := monthFromMarch_spec day
  generalize monthFromMarch day = month at *
  have hjanuary := daysBeforeYear_add year
  have hmonth := daysBeforeMonth_add year (Nat.le_of_lt h)
  have hnext : daysBeforeMonth year (month + 3) + daysOfMonth year (month + 3) = _ :=
    daysBeforeMonth_add year (Nat.succ_le_of_lt h)
  have hrange : 1 ≤ month + 3 ∧ month + 3 ≤ 12 := by
    omega
  refine ⟨⟨hrange, Nat.le_add_left 1 _, ?_⟩, ?_⟩
  · simp only
    omega
  · simp only [ordinal]
    omega

/-- A day of January or February is in the second year of one that begins in March. -/
theorem isValid_of_le (h : 10 ≤ monthFromMarch day) (hday : day ≤ 365)
    (hleap : day = 365 → leapDays (year + 1) = 1) :
    let date : Date :=
      ⟨year + 1, monthFromMarch day - 9, day - (153 * monthFromMarch day + 2) / 5 + 1⟩
    date.IsValid ∧ date.ordinal = daysBeforeMarch year + day + 60 := by
  obtain ⟨hfirst, hlast⟩ := monthFromMarch_spec day
  generalize monthFromMarch day = month at *
  have hjanuary := daysBeforeYear_add year
  have hyear : daysBeforeYear (year + 1) = daysBeforeYear year + (365 + leapDays year) :=
    congrArg _ (daysOfYear_eq year)
  have hrange : 1 ≤ month - 9 ∧ month - 9 ≤ 12 := by
    omega
  have hmonth : (153 * month + 2) / 5 = daysBeforeMonth (year + 1) (month - 9) + 306 ∧
      day < (153 * month + 2) / 5 + daysOfMonth (year + 1) (month - 9) := by
    obtain rfl | rfl : month = 10 ∨ month = 11 := by
      omega
    · have hlength : daysOfMonth (year + 1) (10 - 9) = 31 := rfl
      exact ⟨rfl, by omega⟩
    · have hlength : daysOfMonth (year + 1) (11 - 9) = 28 + leapDays (year + 1) := rfl
      exact ⟨rfl, by omega⟩
  refine ⟨⟨hrange, Nat.le_add_left 1 _, ?_⟩, ?_⟩
  · simp only
    omega
  · simp only [ordinal]
    omega

end Date

namespace EraDay

variable {p : EraDay} (era : Nat)

theorem date_spec (h : p.IsValid) :
    (p.date era).IsValid ∧
      (p.date era).ordinal = daysBeforeMarch (p.yearOfEra + 400 * era) + p.day + 60 := by
  rw [date]
  by_cases hmonth : Date.monthFromMarch p.day < 10
  · have hlate : ¬ Date.monthFromMarch p.day + 3 ≤ 2 := by
      omega
    simp only [if_pos hmonth, if_neg hlate, Nat.add_zero]
    exact Date.isValid_of_lt _ hmonth
  · have hearly : Date.monthFromMarch p.day - 9 ≤ 2 := by
      have hlast := (Date.monthFromMarch_spec p.day).1
      have hday := h.day_le
      omega
    simp only [if_neg hmonth, if_pos hearly]
    exact Date.isValid_of_le _ (Nat.le_of_not_lt hmonth) h.day_le (p.leapDays_of_day era h)

end EraDay

namespace Date

theorem ofDays_eq (days : Nat) :
    ∃ p : EraDay, p.IsValid ∧ p.count = (days + epochOffset) % eraDays ∧
      ofDays days = p.date ((days + epochOffset) / eraDays) := by
  obtain ⟨p, hp, hcount⟩ :=
    EraDay.exists_count (Nat.mod_lt (days + epochOffset) (show 0 < eraDays by decide))
  refine ⟨p, hp, hcount, ?_⟩
  simp only [ofDays, EraDay.date, ← hcount, p.yearOfEra_count hp, p.dayOfYear_count hp]

/-- The conversion gives the date with so many days between it and the epoch. -/
theorem ofDays_spec (days : Nat) :
    (ofDays days).IsValid ∧ (ofDays days).ordinal = epoch.ordinal + days := by
  obtain ⟨p, hp, hcount, hdate⟩ := ofDays_eq days
  obtain ⟨hvalid, hordinal⟩ := p.date_spec ((days + epochOffset) / eraDays) hp
  rw [p.daysBeforeMarch_add _ hp, hcount, Nat.div_add_mod] at hordinal
  rw [hdate]
  refine ⟨hvalid, hordinal.trans ?_⟩
  rw [ordinal_epoch, epochOffset]
  omega

example : ofDays 47540 = ⟨2100, 2, 28⟩ ∧ ofDays 47541 = ⟨2100, 3, 1⟩ := by
  decide

end Date

end Cpu32.Log
