import Mathlib.Logic.Function.Iterate
import Mathlib.Order.Basic
import Mathlib.Tactic.IntervalCases
import Cpu32.Log.Date

/-!
# The Gregorian calendar

Which dates there are, and how many days lie before each of them.  Days are counted from the first
of January of the year 0.  A date is determined by its count, and the dates follow one another
without a gap.
-/

namespace Cpu32.Log

/-- Every fourth year is a leap year, but of the full centuries only every fourth. -/
def IsLeap (year : Nat) : Prop :=
  4 ∣ year ∧ (100 ∣ year → 400 ∣ year)

instance : DecidablePred IsLeap :=
  fun _ => inferInstanceAs (Decidable (_ ∧ _))

/-- The days that a year has more than 365. -/
def leapDays (year : Nat) : Nat :=
  if IsLeap year then 1 else 0

def daysOfMonth (year : Nat) : Nat → Nat
  | 2 => 28 + leapDays year
  | 4 | 6 | 9 | 11 => 30
  | 1 | 3 | 5 | 7 | 8 | 10 | 12 => 31
  | _ => 0

/-- The days of the year before the first of a month. -/
def daysBeforeMonth (year : Nat) : Nat → Nat
  | 0 => 0
  | month + 1 => daysBeforeMonth year month + daysOfMonth year month

/-- The days of the twelve months. -/
def daysOfYear (year : Nat) : Nat :=
  daysBeforeMonth year 13

/-- The days from the first of January of the year 0 to that of another year. -/
def daysBeforeYear : Nat → Nat
  | 0 => 0
  | year + 1 => daysBeforeYear year + daysOfYear year

/-- The days from the first of March of the year 0 to that of another year. -/
def daysBeforeMarch (year : Nat) : Nat :=
  365 * year + year / 4 - year / 100 + year / 400

theorem daysOfYear_eq (year : Nat) : daysOfYear year = 365 + leapDays year := by
  simp only [daysOfYear, daysBeforeMonth, daysOfMonth]
  omega

/-- A full century takes back the leap day of a fourth year, unless it is a fourth century. -/
theorem leapDays_add (year : Nat) :
    leapDays year + (if 100 ∣ year then 1 else 0) =
      (if 4 ∣ year then 1 else 0) + if 400 ∣ year then 1 else 0 := by
  have hfour : 100 ∣ year → 4 ∣ year := Nat.dvd_trans (by decide)
  have hhundred : 400 ∣ year → 100 ∣ year := Nat.dvd_trans (by decide)
  by_cases h : 100 ∣ year
  · simp only [leapDays, IsLeap, h, hfour h, forall_const, true_and, if_true]
    exact Nat.add_comm _ _
  · simp only [leapDays, IsLeap, h, mt hhundred h, false_imp_iff, and_true, if_false]

/-- From one March to the next a leap day is passed if the second year has one. -/
theorem daysBeforeMarch_succ (year : Nat) :
    daysBeforeMarch (year + 1) = daysBeforeMarch year + 365 + leapDays (year + 1) := by
  have hleap := leapDays_add (year + 1)
  have hcentury : (if 100 ∣ year + 1 then 1 else 0) ≤ 1 := by
    split <;> decide
  rw [daysBeforeMarch, daysBeforeMarch, Nat.succ_div, Nat.succ_div, Nat.succ_div]
  omega

/-- Sixty days lie between the first of January and the first of March, or 59 without a leap day. -/
theorem daysBeforeYear_add (year : Nat) :
    daysBeforeYear year + leapDays year = daysBeforeMarch year + 1 := by
  induction year with
  | zero => decide
  | succ year ih =>
      rw [daysBeforeYear, daysOfYear_eq, daysBeforeMarch_succ]
      omega

theorem daysBeforeYear_mono {year year' : Nat} (h : year ≤ year') :
    daysBeforeYear year ≤ daysBeforeYear year' := by
  induction h with
  | refl => exact Nat.le_refl _
  | step _ ih => exact Nat.le_trans ih (Nat.le_add_right _ _)

theorem daysBeforeMonth_mono (year : Nat) {month month' : Nat} (h : month ≤ month') :
    daysBeforeMonth year month ≤ daysBeforeMonth year month' := by
  induction h with
  | refl => exact Nat.le_refl _
  | step _ ih => exact Nat.le_trans ih (Nat.le_add_right _ _)

namespace Date

structure IsValid (date : Date) : Prop where
  month : 1 ≤ date.month ∧ date.month ≤ 12
  day : 1 ≤ date.day ∧ date.day ≤ daysOfMonth date.year date.month

/-- The days before a date. -/
def ordinal (date : Date) : Nat :=
  daysBeforeYear date.year + daysBeforeMonth date.year date.month + (date.day - 1)

/-- The date that days are converted from. -/
def epoch : Date := ⟨1970, 1, 1⟩

/-- The day after a date. -/
def next (date : Date) : Date :=
  if date.day < daysOfMonth date.year date.month then { date with day := date.day + 1 }
  else if date.month < 12 then ⟨date.year, date.month + 1, 1⟩
  else ⟨date.year + 1, 1, 1⟩

variable {date date' : Date}

/-- A date lies before the first of the next month. -/
theorem IsValid.ordinal_lt (h : date.IsValid) :
    date.ordinal < daysBeforeYear date.year + daysBeforeMonth date.year (date.month + 1) := by
  have hday := h.day
  rw [ordinal, daysBeforeMonth]
  omega

theorem IsValid.ordinal_lt_year (h : date.IsValid) :
    date.ordinal < daysBeforeYear (date.year + 1) := by
  refine Nat.lt_of_lt_of_le h.ordinal_lt (Nat.add_le_add_left ?_ _)
  exact daysBeforeMonth_mono _ (Nat.succ_le_succ h.month.2)

theorem year_le_of_ordinal (h : date.IsValid) (hle : date'.ordinal ≤ date.ordinal) :
    date'.year ≤ date.year := by
  by_contra hlt
  have hyear : daysBeforeYear (date.year + 1) ≤ daysBeforeYear date'.year :=
    daysBeforeYear_mono (Nat.lt_of_not_le hlt)
  have hbefore := h.ordinal_lt_year
  rw [ordinal] at hle
  omega

theorem month_le_of_ordinal (h : date.IsValid) (hyear : date'.year = date.year)
    (hle : date'.ordinal ≤ date.ordinal) : date'.month ≤ date.month := by
  by_contra hlt
  have hmonth : daysBeforeMonth date.year (date.month + 1) ≤
      daysBeforeMonth date.year date'.month :=
    daysBeforeMonth_mono _ (Nat.lt_of_not_le hlt)
  have hbefore := h.ordinal_lt
  rw [ordinal, hyear] at hle
  omega

/-- No two dates have the same number of days before them. -/
theorem ordinal_inj (h : date.IsValid) (h' : date'.IsValid)
    (heq : date.ordinal = date'.ordinal) : date = date' := by
  have hyear : date.year = date'.year :=
    Nat.le_antisymm (year_le_of_ordinal h' heq.le) (year_le_of_ordinal h heq.ge)
  have hmonth : date.month = date'.month :=
    Nat.le_antisymm (month_le_of_ordinal h' hyear heq.le)
      (month_le_of_ordinal h hyear.symm heq.ge)
  have hday : date.day = date'.day := by
    rw [ordinal, ordinal, hyear, hmonth] at heq
    have hfirst := h.day.1
    have hfirst' := h'.day.1
    omega
  obtain ⟨year, month, day⟩ := date
  obtain ⟨year', month', day'⟩ := date'
  cases hyear
  cases hmonth
  cases hday
  rfl

theorem one_le_daysOfMonth (year : Nat) {month : Nat} (h : 1 ≤ month ∧ month ≤ 12) :
    1 ≤ daysOfMonth year month := by
  obtain ⟨hfirst, hlast⟩ := h
  interval_cases month <;> simp only [daysOfMonth] <;> omega

theorem IsValid.next (h : date.IsValid) : date.next.IsValid := by
  rw [Date.next]
  split
  · rename_i hday
    exact ⟨h.month, Nat.le_add_left 1 _, hday⟩
  split
  · rename_i hmonth
    have hrange : 1 ≤ date.month + 1 ∧ date.month + 1 ≤ 12 := ⟨Nat.le_add_left 1 _, hmonth⟩
    exact ⟨hrange, Nat.le_refl 1, one_le_daysOfMonth _ hrange⟩
  · have hrange : 1 ≤ 1 ∧ 1 ≤ 12 := by
      decide
    exact ⟨hrange, Nat.le_refl 1, one_le_daysOfMonth _ hrange⟩

/-- Months and years are passed without a gap. -/
theorem IsValid.ordinal_next (h : date.IsValid) : date.next.ordinal = date.ordinal + 1 := by
  obtain ⟨hmonth, hday⟩ := h
  rw [Date.next]
  split
  · simp only [ordinal]
    omega
  have hlast : date.day = daysOfMonth date.year date.month := by
    omega
  split
  · simp only [ordinal, daysBeforeMonth]
    omega
  · have hdecember : date.month = 12 := by
      omega
    have hyear : daysBeforeMonth date.year 13 =
        daysBeforeMonth date.year 12 + daysOfMonth date.year 12 := rfl
    have hfirst : daysBeforeMonth (date.year + 1) 1 = 0 := rfl
    rw [hdecember] at hlast hday
    simp only [ordinal, daysBeforeYear, daysOfYear, hdecember, hyear, hfirst]
    omega

/-- Going on for some days counts them. -/
theorem IsValid.iterate_next (h : date.IsValid) (days : Nat) :
    (Date.next^[days] date).IsValid ∧ (Date.next^[days] date).ordinal = date.ordinal + days := by
  induction days with
  | zero => exact ⟨h, rfl⟩
  | succ days ih =>
      rw [Function.iterate_succ_apply']
      exact ⟨ih.1.next, by rw [ih.1.ordinal_next, ih.2, Nat.add_assoc]⟩

theorem isValid_epoch : epoch.IsValid :=
  ⟨by decide, by decide⟩

theorem ordinal_newYear (year : Nat) : ordinal ⟨year, 1, 1⟩ = daysBeforeYear year :=
  rfl

theorem ordinal_epoch : epoch.ordinal = 719528 := by
  have hleap : leapDays 1970 = 0 := rfl
  have hmarch : daysBeforeMarch 1970 = 719527 := rfl
  -- The years are summed up by the March count, since the recursion is as deep as the year.
  calc epoch.ordinal
    _ = daysBeforeYear 1970 := ordinal_newYear 1970
    _ = daysBeforeYear 1970 + leapDays 1970 := by rw [hleap, Nat.add_zero]
    _ = 719528 := by rw [daysBeforeYear_add, hmarch]

/-- The dates from the epoch on are those that are reached day by day. -/
theorem eq_iterate_next (h : date.IsValid) {days : Nat}
    (hdays : date.ordinal = epoch.ordinal + days) : date = Date.next^[days] epoch := by
  obtain ⟨hvalid, hordinal⟩ := isValid_epoch.iterate_next days
  exact ordinal_inj h hvalid (hdays.trans hordinal.symm)

end Date

end Cpu32.Log
