import Mathlib.Tactic.IntervalCases

/-!
# The Gregorian calendar

Days and seconds are counted from 1 January 1970. `Civil` is a second by its calendar fields; the fields that
no second has cannot be built. The order of seconds is that of the fields.
-/

namespace Calendar

def IsLeap (year : Int) : Prop := year % 4 = 0 ∧ (year % 100 ≠ 0 ∨ year % 400 = 0)

instance (year : Int) : Decidable (IsLeap year) := inferInstanceAs (Decidable (_ ∧ _))

def yearDays (year : Int) : Int := if IsLeap year then 366 else 365

/-- The days in front of a year. -/
def daysBeforeYear (year : Int) : Int :=
  365 * (year - 1970) + ((year - 1) / 4 - 492) - ((year - 1) / 100 - 19) + ((year - 1) / 400 - 4)

/-- The days of a month, which counts from 0. -/
def monthDays (year : Int) : Nat → Nat
  | 1 => if IsLeap year then 29 else 28
  | 3 | 5 | 8 | 10 => 30
  | _ => 31

/-- The days of a year in front of a month. -/
def daysBeforeMonth (year : Int) : Nat → Nat
  | 0 => 0
  | mon + 1 => daysBeforeMonth year mon + monthDays year mon

/-- A second of the calendar. The month counts from 0 and the day from 1. -/
structure Civil where
  year : Int
  mon : Nat
  mday : Nat
  hour : Nat
  min : Nat
  sec : Nat
  mon_lt : mon < 12
  mday_pos : 1 ≤ mday
  mday_le : mday ≤ monthDays year mon
  hour_lt : hour < 24
  min_lt : min < 60
  sec_lt : sec < 60

namespace Civil

def days (c : Civil) : Int := daysBeforeYear c.year + daysBeforeMonth c.year c.mon + (c.mday - 1)

/-- The second of the day. -/
def clock (c : Civil) : Nat := c.hour * 3600 + c.min * 60 + c.sec

def seconds (c : Civil) : Int := c.days * 86400 + c.clock

end Civil

/-! ## Years and months -/

theorem daysBeforeYear_succ (year : Int) :
    daysBeforeYear (year + 1) = daysBeforeYear year + yearDays year := by
  unfold daysBeforeYear yearDays
  split
  · rename_i h
    obtain ⟨h4, h100⟩ := h
    omega
  · rename_i h
    rw [IsLeap, not_and_or, not_or, not_not] at h
    omega

theorem yearDays_pos (year : Int) : 365 ≤ yearDays year := by
  unfold yearDays
  split <;> omega

theorem daysBeforeYear_lt {a b : Int} (h : a < b) :
    daysBeforeYear a + yearDays a ≤ daysBeforeYear b := by
  rw [← daysBeforeYear_succ]
  unfold daysBeforeYear
  omega

theorem daysBeforeMonth_twelve (year : Int) : (daysBeforeMonth year 12 : Int) = yearDays year := by
  unfold yearDays
  simp only [daysBeforeMonth, monthDays]
  split <;> rfl

theorem daysBeforeMonth_mono (year : Int) {a b : Nat} (h : a ≤ b) :
    daysBeforeMonth year a ≤ daysBeforeMonth year b := by
  induction h with
  | refl => exact Nat.le_refl _
  | step _ ih => exact Nat.le_trans ih (Nat.le_add_right ..)

theorem daysBeforeMonth_lt (year : Int) {a b : Nat} (h : a < b) :
    daysBeforeMonth year a + monthDays year a ≤ daysBeforeMonth year b :=
  daysBeforeMonth_mono year h

theorem monthDays_le (year : Int) (mon : Nat) : monthDays year mon ≤ 31 := by
  unfold monthDays
  split
  · split <;> omega
  all_goals omega

/-- A year that starts on 1 March has its months in a fixed pattern of days. -/
theorem daysBeforeMonth_march (year : Int) {k : Nat} (h : k < 10) :
    (daysBeforeMonth year (k + 2) : Int) + 306 = yearDays year + ((153 * k + 2) / 5 : Nat) ∧
      monthDays year (k + 2) + (153 * k + 2) / 5 = (153 * (k + 1) + 2) / 5 := by
  unfold yearDays
  interval_cases k <;> simp only [daysBeforeMonth, monthDays] <;> split <;> decide

/-- Year `m` of leap cycle `q` of century `c` of an era of 400 years. -/
theorem daysBeforeYear_march (e : Int) {c q m : Nat} (hc : c ≤ 3) (hq : q ≤ 24) (hm : m ≤ 3) :
    daysBeforeYear ((100 * c + 4 * q + m : Nat) + e * 400 + 1) =
      (36524 * c + 1461 * q + 365 * m : Nat) + 146097 * e - 719162 := by
  unfold daysBeforeYear
  have h4 : (((100 * c + 4 * q + m : Nat) : Int) + e * 400 + 1 - 1) / 4 = 25 * c + q + 100 * e := by
    omega
  have h100 : (((100 * c + 4 * q + m : Nat) : Int) + e * 400 + 1 - 1) / 100 = c + 4 * e := by omega
  have h400 : (((100 * c + 4 * q + m : Nat) : Int) + e * 400 + 1 - 1) / 400 = e := by omega
  rw [h4, h100, h400]
  omega

/-- The last year of a leap cycle, which is not that of a century but of the last one. -/
theorem isLeap_march (e : Int) {c q : Nat} (hq : q ≤ 24) (h : q = 24 → c = 3) :
    IsLeap ((100 * c + 4 * q + 3 : Nat) + e * 400 + 1) := by
  unfold IsLeap
  omega

/-- The date of a day of such a year: January and February belong to the next calendar year. -/
theorem march_date (e : Int) {c q m doy k : Nat} (hc : c ≤ 3) (hq : q ≤ 24) (hm : m ≤ 3)
    (hdoy : doy ≤ 364 ∨ doy = 365 ∧ m = 3 ∧ (q = 24 → c = 3)) (hk : k = (5 * doy + 2) / 153)
    {year : Int} {mon : Nat} (hmon : mon = if k < 10 then k + 2 else k - 10)
    (hyear : year = (100 * c + 4 * q + m : Nat) + e * 400 + if mon ≤ 1 then 1 else 0) :
    mon < 12 ∧ (153 * k + 2) / 5 ≤ doy ∧ doy - (153 * k + 2) / 5 + 1 ≤ monthDays year mon ∧
      daysBeforeYear year + daysBeforeMonth year mon + (doy - (153 * k + 2) / 5 : Nat) =
        (36524 * c + 1461 * q + 365 * m + doy : Nat) + 146097 * e - 719468 := by
  have hnext := daysBeforeYear_march e hc hq hm
  have hk11 : k ≤ 11 := by omega
  have hlow : (153 * k + 2) / 5 ≤ doy := by omega
  have hhigh : doy < (153 * (k + 1) + 2) / 5 := by omega
  by_cases hlt : k < 10
  · rw [if_pos hlt] at hmon
    rw [if_neg (by omega), add_zero] at hyear
    obtain ⟨hbefore, hdays⟩ := daysBeforeMonth_march year hlt
    rw [daysBeforeYear_succ, ← hyear] at hnext
    rw [hmon]
    exact ⟨by omega, hlow, by omega, by omega⟩
  · rw [if_neg hlt] at hmon
    rw [if_pos (by omega)] at hyear
    rw [← hyear] at hnext
    have hfeb : doy = 365 → monthDays year 1 = 29 := fun h => by
      obtain ⟨-, rfl, h3⟩ : doy = 365 ∧ m = 3 ∧ (q = 24 → c = 3) := by omega
      rw [monthDays, if_pos (hyear ▸ isLeap_march e hq h3)]
    have hfeb28 : 28 ≤ monthDays year 1 := by
      rw [monthDays]
      split <;> omega
    have hjan : monthDays year 0 = 31 ∧ daysBeforeMonth year 0 = 0 ∧ daysBeforeMonth year 1 = 31 :=
      ⟨rfl, rfl, rfl⟩
    obtain ⟨hk, rfl⟩ | ⟨hk, rfl⟩ : k = 10 ∧ mon = 0 ∨ k = 11 ∧ mon = 1 := by omega
    · rw [hjan.1, hjan.2.1]
      exact ⟨by decide, hlow, by omega, by omega⟩
    · rw [hjan.2.2]
      exact ⟨by decide, hlow, by omega, by omega⟩

/-- A day of an era by its century, its leap cycle and its year. -/
theorem era_split {doe yoe : Nat} (h : doe < 146097)
    (hy : yoe = (doe - doe / 1460 + doe / 36524 - doe / 146096) / 365) :
    ∃ c q m doy, c ≤ 3 ∧ q ≤ 24 ∧ m ≤ 3 ∧ doe = 36524 * c + 1461 * q + 365 * m + doy ∧
      yoe = 100 * c + 4 * q + m ∧ doe - (365 * yoe + yoe / 4 - yoe / 100) = doy ∧
      (doy ≤ 364 ∨ doy = 365 ∧ m = 3 ∧ (q = 24 → c = 3)) := by
  obtain ⟨c, hc⟩ : ∃ c, c = min (doe / 36524) 3 := ⟨_, rfl⟩
  obtain ⟨q, hq⟩ : ∃ q, q = (doe - 36524 * c) / 1461 := ⟨_, rfl⟩
  obtain ⟨w, hw⟩ : ∃ w, w = (doe - 36524 * c) % 1461 := ⟨_, rfl⟩
  obtain ⟨m, hm⟩ : ∃ m, m = min (w / 365) 3 := ⟨_, rfl⟩
  have hdoe : doe = 36524 * c + 1461 * q + w := by omega
  have hlast : q = 24 ∧ w = 1460 → c = 3 := by omega
  have hc3 : c ≤ 3 := hc ▸ Nat.min_le_right ..
  have hq24 : q ≤ 24 := by omega
  -- The divisions count the leap days, one too many at the end of a cycle.
  obtain ⟨δ, hδ⟩ : ∃ δ, δ = (24 * c + q + w) / 1460 := ⟨_, rfl⟩
  have hone : δ ≤ 1 ∧ (w < 1364 → δ = 0) ∧ (w = 1460 → δ = 1) := by omega
  have h1 : doe / 1460 = 25 * c + q + δ := by omega
  have h2 : doe / 36524 = c + doe / 146096 := by omega
  have hnum : doe - doe / 1460 + doe / 36524 - doe / 146096 = 365 * (100 * c + 4 * q) + (w - δ) := by
    rw [h1, h2]
    clear hc hq hw hm h1 h2
    omega
  have hyear : (w - δ) / 365 = m := by
    have hle : w ≤ 1460 := by omega
    clear hc hq hw hdoe hlast hδ h1 h2 hnum
    omega
  rw [hnum, Nat.mul_add_div (by decide), hyear] at hy
  clear hc hq hδ hone h1 h2 hnum hyear
  have h4 : yoe / 4 = 25 * c + q := by omega
  have h100 : yoe / 100 = c := by omega
  exact ⟨c, q, m, w - 365 * m, hc3, hq24, by omega, by omega, by omega, by omega, by omega⟩

/-! ## The order -/

namespace Civil

variable {a b : Civil}

theorem clock_lt (c : Civil) : c.clock < 86400 := by
  have := c.hour_lt
  have := c.min_lt
  have := c.sec_lt
  unfold clock
  omega

/-- A day lies in its year. -/
theorem days_mem (c : Civil) :
    daysBeforeYear c.year ≤ c.days ∧ c.days < daysBeforeYear c.year + yearDays c.year := by
  have h1 := daysBeforeMonth_lt c.year c.mon_lt
  have h2 := daysBeforeMonth_twelve c.year
  have h3 := c.mday_pos
  have h4 := c.mday_le
  unfold days
  omega

theorem days_lt_of_year (h : a.year < b.year) : a.days < b.days := by
  have h1 := a.days_mem
  have h2 := b.days_mem
  have h3 := daysBeforeYear_lt h
  omega

theorem days_lt_of_mon (hy : a.year = b.year) (h : a.mon < b.mon) : a.days < b.days := by
  have h1 := daysBeforeMonth_lt b.year h
  have h2 := a.mday_le
  have h3 := b.mday_pos
  unfold days
  rw [hy] at h2 ⊢
  omega

theorem days_lt_of_mday (hy : a.year = b.year) (hm : a.mon = b.mon) (h : a.mday < b.mday) :
    a.days < b.days := by
  unfold days
  rw [hy, hm]
  omega

theorem seconds_lt_of_days (h : a.days < b.days) : a.seconds < b.seconds := by
  have h1 := a.clock_lt
  unfold seconds
  omega

/-- The fields from the year down to the second, compared in this order. -/
def Before (a b : Civil) : Prop :=
  a.year < b.year ∨ a.year = b.year ∧ (a.mon < b.mon ∨ a.mon = b.mon ∧
    (a.mday < b.mday ∨ a.mday = b.mday ∧ a.clock < b.clock))

theorem seconds_lt (h : a.Before b) : a.seconds < b.seconds := by
  rcases h with hy | ⟨hy, hm | ⟨hm, hd | ⟨hd, hc⟩⟩⟩
  · exact seconds_lt_of_days (days_lt_of_year hy)
  · exact seconds_lt_of_days (days_lt_of_mon hy hm)
  · exact seconds_lt_of_days (days_lt_of_mday hy hm hd)
  · unfold seconds days
    rw [hy, hm, hd]
    omega

/-- A second lies behind the start of a year iff its year does. -/
theorem year_le_iff (c : Civil) (year : Int) :
    daysBeforeYear year * 86400 ≤ c.seconds ↔ year ≤ c.year := by
  have h1 := c.days_mem
  have h2 := c.clock_lt
  unfold seconds
  constructor
  · intro h
    by_contra hlt
    have := daysBeforeYear_lt (by omega : c.year < year)
    omega
  · intro h
    have hle : daysBeforeYear year ≤ daysBeforeYear c.year := by
      rcases (Int.le_iff_lt_or_eq.1 h) with h | h
      · have := daysBeforeYear_lt h
        have := yearDays_pos year
        omega
      · rw [h]
    omega

end Civil

end Calendar
