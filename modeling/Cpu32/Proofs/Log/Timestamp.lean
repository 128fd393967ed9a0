import Cpu32.Proofs.Log.Conversion

/-!
# Time stamps and the calendar

The conversion of days is done once more in machine words, where every sum, difference and product
has to fit its word: those of an era are unsigned, and those of the years and days of all eras
signed and of double width.  None of them fails, and the outcome is the same.
-/

namespace Cpu32.Log

/-- The number, if it is one of an unsigned word. -/
def unsigned? (n : Int) : Option Int :=
  if 0 ≤ n ∧ n < UInt32.size then some n else none

/-- The number, if it is one of a signed double word. -/
def signed? (n : Int) : Option Int :=
  if Int64.minValue.toInt ≤ n ∧ n ≤ Int64.maxValue.toInt then some n else none

theorem unsigned?_eq {i : Int} {n : Nat} (h : i = n) (hn : n < 4294967296) :
    unsigned? i = some (n : Int) := by
  have hsize : UInt32.size = 4294967296 := rfl
  rw [unsigned?, if_pos (by omega), h]

theorem signed?_eq {i : Int} {n : Nat} (h : i = n) (hn : n < 9223372036854775808) :
    signed? i = some (n : Int) := by
  have hleast : Int64.minValue.toInt = -9223372036854775808 := rfl
  have hlargest : Int64.maxValue.toInt = 9223372036854775807 := rfl
  rw [signed?, if_pos (by omega), h]

namespace Date

def yearOfEra? (dayOfEra : Int) : Option Int := do
  let days ← unsigned? (dayOfEra - dayOfEra / 1460)
  let days ← unsigned? (days + dayOfEra / 36524)
  let days ← unsigned? (days - dayOfEra / 146096)
  return days / 365

def dayOfYear? (dayOfEra year : Int) : Option Int := do
  let days ← unsigned? (365 * year)
  let days ← unsigned? (days + year / 4)
  let days ← unsigned? (days - year / 100)
  unsigned? (dayOfEra - days)

def monthFromMarch? (dayOfYear : Int) : Option Int := do
  let days ← unsigned? (5 * dayOfYear)
  let days ← unsigned? (days + 2)
  return days / 153

def dayOfMonth? (dayOfYear fromMarch : Int) : Option Int := do
  let days ← unsigned? (153 * fromMarch)
  let days ← unsigned? (days + 2)
  let day ← unsigned? (dayOfYear - days / 5)
  unsigned? (day + 1)

def month? (fromMarch : Int) : Option Int :=
  if fromMarch < 10 then unsigned? (fromMarch + 3) else unsigned? (fromMarch - 9)

def year? (era yearOfEra month : Int) : Option Int := do
  let years ← signed? (era * 400)
  let year ← signed? (yearOfEra + years)
  signed? (year + if month ≤ 2 then 1 else 0)

/-- The date so many days after the epoch, if all numbers on the way fit their words. -/
def ofDays? (days : Int) : Option Date := do
  let days ← signed? days
  let days ← signed? (days + 719468)
  let era ← signed? (days / 146097)
  let dayOfEra ← unsigned? (days % 146097)
  let yearOfEra ← yearOfEra? dayOfEra
  let dayOfYear ← dayOfYear? dayOfEra yearOfEra
  let fromMarch ← monthFromMarch? dayOfYear
  let day ← dayOfMonth? dayOfYear fromMarch
  let month ← month? fromMarch
  let year ← year? era yearOfEra month
  return ⟨year.toNat, month.toNat, day.toNat⟩

end Date

namespace EraDay

variable {p : EraDay}

theorem count_lt (h : p.IsValid) : p.count < 146097 := by
  obtain ⟨hcentury, hgroup, hyear, hday, hleap⟩ := h
  rw [count]
  omega

theorem yearOfEra?_count (h : p.IsValid) :
    Date.yearOfEra? p.count = some (p.yearOfEra : Int) := by
  obtain ⟨day, hday, hcommon⟩ := p.commonDays_count h
  have hcount := p.count_lt h
  have hcentury := p.div_century h
  generalize p.count = n at *
  have h₁ : unsigned? (n - n / 1460) = some ((n - n / 1460 : Nat) : Int) :=
    unsigned?_eq (by omega) (by omega)
  have h₂ : unsigned? ((n - n / 1460 : Nat) + n / 36524) =
      some ((n - n / 1460 + n / 36524 : Nat) : Int) :=
    unsigned?_eq (by omega) (by omega)
  have h₃ : unsigned? ((n - n / 1460 + n / 36524 : Nat) - n / 146096) =
      some ((365 * p.yearOfEra + day : Nat) : Int) :=
    unsigned?_eq (by omega) (by omega)
  rw [Date.yearOfEra?, h₁, Option.bind_eq_bind, Option.bind_some, h₂, Option.bind_some, h₃,
    Option.bind_some, Option.pure_def]
  exact congrArg some (by omega)

theorem dayOfYear?_count (h : p.IsValid) :
    Date.dayOfYear? p.count p.yearOfEra = some (p.day : Int) := by
  have hcount := p.count_eq h
  have hlt := p.count_lt h
  generalize p.count = n at *
  generalize p.yearOfEra = y at *
  have h₁ : unsigned? (365 * y) = some ((365 * y : Nat) : Int) :=
    unsigned?_eq (by omega) (by omega)
  have h₂ : unsigned? ((365 * y : Nat) + y / 4) = some ((365 * y + y / 4 : Nat) : Int) :=
    unsigned?_eq (by omega) (by omega)
  have h₃ : unsigned? ((365 * y + y / 4 : Nat) - y / 100) =
      some ((365 * y + y / 4 - y / 100 : Nat) : Int) :=
    unsigned?_eq (by omega) (by omega)
  have h₄ : unsigned? (n - (365 * y + y / 4 - y / 100 : Nat)) = some (p.day : Int) :=
    unsigned?_eq (by omega) (by omega)
  rw [Date.dayOfYear?, h₁, Option.bind_eq_bind, Option.bind_some, h₂, Option.bind_some, h₃,
    Option.bind_some, h₄]

end EraDay

namespace Date

variable {day month : Nat}

theorem monthFromMarch?_eq (h : day ≤ 365) :
    monthFromMarch? day = some (monthFromMarch day : Int) := by
  have h₁ : unsigned? (5 * day) = some ((5 * day : Nat) : Int) :=
    unsigned?_eq (by omega) (by omega)
  have h₂ : unsigned? ((5 * day : Nat) + 2) = some ((5 * day + 2 : Nat) : Int) :=
    unsigned?_eq (by omega) (by omega)
  rw [monthFromMarch?, h₁, Option.bind_eq_bind, Option.bind_some, h₂, Option.bind_some,
    Option.pure_def]
  rfl

/-- The first day of a month is not after any of its days. -/
theorem dayOfMonth?_eq (h : day ≤ 365) :
    dayOfMonth? day (monthFromMarch day) =
      some ((day - (153 * monthFromMarch day + 2) / 5 + 1 : Nat) : Int) := by
  obtain ⟨hfirst, _⟩ := monthFromMarch_spec day
  generalize monthFromMarch day = m at *
  have h₁ : unsigned? (153 * m) = some ((153 * m : Nat) : Int) :=
    unsigned?_eq (by omega) (by omega)
  have h₂ : unsigned? ((153 * m : Nat) + 2) = some ((153 * m + 2 : Nat) : Int) :=
    unsigned?_eq (by omega) (by omega)
  have h₃ : unsigned? (day - (153 * m + 2 : Nat) / 5) =
      some ((day - (153 * m + 2) / 5 : Nat) : Int) :=
    unsigned?_eq (by omega) (by omega)
  have h₄ : unsigned? ((day - (153 * m + 2) / 5 : Nat) + 1) =
      some ((day - (153 * m + 2) / 5 + 1 : Nat) : Int) :=
    unsigned?_eq (by omega) (by omega)
  rw [dayOfMonth?, h₁, Option.bind_eq_bind, Option.bind_some, h₂, Option.bind_some, h₃,
    Option.bind_some, h₄]

theorem month?_eq (h : month ≤ 11) :
    month? month = some ((if month < 10 then month + 3 else month - 9 : Nat) : Int) := by
  rw [month?]
  by_cases hlate : month < 10
  · rw [if_pos (by omega), if_pos hlate]
    exact unsigned?_eq (by omega) (by omega)
  · rw [if_neg (by omega), if_neg hlate]
    exact unsigned?_eq (by omega) (by omega)

theorem year?_eq {era year month : Nat} (hera : era < 2000000000000) (hyear : year < 400) :
    year? era year month =
      some ((year + 400 * era + (if month ≤ 2 then 1 else 0) : Nat) : Int) := by
  have h₁ : signed? (era * 400) = some ((400 * era : Nat) : Int) :=
    signed?_eq (by omega) (by omega)
  have h₂ : signed? (year + (400 * era : Nat)) = some ((year + 400 * era : Nat) : Int) :=
    signed?_eq (by omega) (by omega)
  rw [year?, h₁, Option.bind_eq_bind, Option.bind_some, h₂, Option.bind_some]
  by_cases hmonth : month ≤ 2
  · rw [if_pos (by omega), if_pos hmonth]
    exact signed?_eq (by omega) (by omega)
  · rw [if_neg (by omega), if_neg hmonth]
    exact signed?_eq (by omega) (by omega)

/-- No number on the way to the date leaves its word, so the outcome is the date. -/
theorem ofDays?_eq {days : Nat} (h : days * 86400 < UInt64.size) :
    ofDays? days = some (ofDays days) := by
  have hsize : UInt64.size = 18446744073709551616 := rfl
  have hera : (days + epochOffset) / eraDays < 2000000000000 := by
    rw [epochOffset, eraDays]
    omega
  -- The day of the era gives the exact value of each number of the era, and with it its bounds.
  obtain ⟨p, hp, hcount, hdate⟩ := ofDays_eq days
  have hday := hp.day_le
  have hlt := p.count_lt hp
  have hyear : p.yearOfEra < 400 := by
    have hcentury := hp.century_le
    have hgroup := hp.group_le
    have hyear := hp.year_le
    rw [EraDay.yearOfEra]
    omega
  have h₁ : signed? days = some (days : Int) := signed?_eq rfl (by omega)
  have h₂ : signed? (days + 719468) = some ((days + epochOffset : Nat) : Int) :=
    signed?_eq rfl (by rw [epochOffset]; omega)
  have h₃ : signed? ((days + epochOffset : Nat) / 146097) =
      some (((days + epochOffset) / eraDays : Nat) : Int) :=
    signed?_eq rfl (by omega)
  have h₄ : unsigned? ((days + epochOffset : Nat) % 146097) = some (p.count : Int) :=
    unsigned?_eq (by rw [hcount]; rfl) (by omega)
  have hmonth : monthFromMarch p.day ≤ 11 := by
    rw [monthFromMarch]
    omega
  rw [ofDays?, h₁, Option.bind_eq_bind, Option.bind_some, h₂, Option.bind_some, h₃,
    Option.bind_some, h₄, Option.bind_some, p.yearOfEra?_count hp, Option.bind_some,
    p.dayOfYear?_count hp, Option.bind_some, monthFromMarch?_eq hday, Option.bind_some,
    dayOfMonth?_eq hday, Option.bind_some, month?_eq hmonth, Option.bind_some,
    year?_eq hera hyear, Option.bind_some, hdate]
  rfl

end Date

namespace Timestamp

/-- A time stamp is the second that it is taken from: the date is the one of the calendar with so
many days between it and the epoch, its year cut to a word, and the time is the rest of the day. -/
theorem ofUnix_gregorian (seconds : UInt64) (millis : UInt32) :
    let t := ofUnix seconds millis
    let days := seconds.toNat / 86400
    (∃ year,
      let date : Date := ⟨year, t.month, t.day⟩
      t.year.toNat = year % UInt32.size ∧ date.IsValid ∧
        date.ordinal = Date.epoch.ordinal + days ∧ date = Date.next^[days] Date.epoch ∧
          Date.ofDays? days = some date) ∧
      days * 86400 + t.hour * 3600 + t.minute * 60 + t.second = seconds.toNat ∧
        t.hour < 24 ∧ t.minute < 60 ∧ t.second < 60 := by
  intro t days
  obtain ⟨hvalid, hordinal⟩ := Date.ofDays_spec days
  have hseconds : seconds.toNat < UInt64.size := seconds.toNat_lt
  have hyear : t.year.toNat = (Date.ofDays days).year % UInt32.size := UInt32.toNat_ofNat'
  refine ⟨⟨(Date.ofDays days).year, hyear, hvalid, hordinal, Date.eq_iterate_next hvalid hordinal,
    Date.ofDays?_eq (Nat.lt_of_le_of_lt (Nat.div_mul_le_self _ _) hseconds)⟩, ?_⟩
  simp only [t, days, ofUnix]
  omega

end Timestamp

end Cpu32.Log
