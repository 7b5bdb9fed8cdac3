import ItemStore.Time.Calendar
import Mathlib.Tactic.IntervalCases

/-
Days and dates are two ways to write the same count.

`Date.ofDays` and `Date.toDays` use closed formulas, and the one for the year of an era is
the only one that does not speak for itself: it divides by the length of a year after
taking away the leap days, which it has to estimate first. It is proved by writing a day of
an era as so many centuries, leap cycles, years and days. In these parts every quotient of
the formula is off by a known carry at most, and the carries cancel.
-/
set_option autoImplicit false

namespace ItemStore.Time

/-! ## The year of an era -/

/-- A day of an era of 400 years as centuries, cycles of four years, years and days. The 366th day
is the last of a fourth year, and of a century's last year only in the last century. Years begin
in March here, so a leap day is at the end of its year. -/
structure EraParts (day century cycle year rest : Int) : Prop where
  sum : day = 36524 * century + 1461 * cycle + 365 * year + rest
  century_nonneg : 0 ≤ century
  century_le : century ≤ 3
  cycle_nonneg : 0 ≤ cycle
  cycle_le : cycle ≤ 24
  year_nonneg : 0 ≤ year
  year_le : year ≤ 3
  rest_nonneg : 0 ≤ rest
  rest_le : rest ≤ 365
  leap : rest = 365 → year = 3 ∧ (cycle = 24 → century = 3)

/-- Every day of an era has its parts. -/
theorem exists_eraParts {day : Int} (h0 : 0 ≤ day) (h1 : day < 146097) :
    ∃ century cycle year rest, EraParts day century cycle year rest := by
  -- the last century is a day longer, and the last year of a cycle as well
  obtain ⟨c, r, hday, hc0, hc3, hr0, hr1, hlast⟩ : ∃ c r, day = 36524 * c + r ∧ 0 ≤ c ∧
      c ≤ 3 ∧ 0 ≤ r ∧ r ≤ 36524 ∧ (r = 36524 → c = 3) := by
    by_cases h : day < 3 * 36524
    · exact ⟨day / 36524, day % 36524, by omega, by omega, by omega, by omega, by omega,
        by omega⟩
    · exact ⟨3, day - 3 * 36524, by omega, by omega, by omega, by omega, by omega, by omega⟩
  obtain ⟨y, d, hcycle, hy0, hy3, hd0, hd1, hleap⟩ : ∃ y d, r % 1461 = 365 * y + d ∧ 0 ≤ y ∧
      y ≤ 3 ∧ 0 ≤ d ∧ d ≤ 365 ∧ (d = 365 → y = 3) := by
    by_cases h : r % 1461 < 3 * 365
    · exact ⟨r % 1461 / 365, r % 1461 % 365, by omega, by omega, by omega, by omega, by omega,
        by omega⟩
    · exact ⟨3, r % 1461 - 3 * 365, by omega, by omega, by omega, by omega, by omega, by omega⟩
  -- a century is whole cycles of four years and a rest that is shorter than one
  have hsum : day = 36524 * c + 1461 * (r / 1461) + 365 * y + d := by omega
  refine ⟨c, r / 1461, y, d, hsum, hc0, hc3, by omega, by omega, hy0, hy3, hd0, hd1, ?_⟩
  exact fun h => ⟨hleap h, fun hq => hlast (by omega)⟩

namespace EraParts

variable {day century cycle year rest : Int}

/-- The estimate of the year is the year. -/
theorem yearOfEra (h : EraParts day century cycle year rest) :
    (day - day / 1460 + day / 36524 - day / 146096) / 365 =
      100 * century + 4 * cycle + year := by
  obtain ⟨hsum, hc0, hc3, hq0, hq24, hy0, hy3, hd0, hd1, hleap⟩ := h
  -- only the last day of the era would count as one century more, and it is taken out again
  have hcentury : day / 36524 - day / 146096 = century := by
    by_cases hlast : day = 146096
    · omega
    · have hera : day / 146096 = 0 := by omega
      have hquotient : day / 36524 = century := by omega
      omega
  -- a cycle is taken for a day shorter than it is; the carry comes in its last year
  have hcycle : day / 1460 = 25 * century + cycle ∧ rest ≤ 364 ∨
      day / 1460 = 25 * century + cycle + 1 ∧ 1 ≤ rest := by
    by_cases hcarry : 24 * century + cycle + 365 * year + rest < 1460
    · left
      omega
    · right
      have hy : year = 3 := by omega
      have hd : 1 ≤ rest := by omega
      have hquotient : day / 1460 = 25 * century + cycle + 1 := by omega
      exact ⟨hquotient, hd⟩
  omega

/-- What is left of the day after its years are the days of the last one. -/
theorem dayOfYear (h : EraParts day century cycle year rest) :
    day - (365 * (100 * century + 4 * cycle + year) + (100 * century + 4 * cycle + year) / 4 -
      (100 * century + 4 * cycle + year) / 100) = rest := by
  obtain ⟨hsum, hc0, hc3, hq0, hq24, hy0, hy3, hd0, hd1, hleap⟩ := h
  omega

/-- The day after the last of February, where there is one, comes in a leap year. -/
theorem isLeapYear (h : EraParts day century cycle year rest) (hrest : rest = 365) (era : Int) :
    isLeapYear (100 * century + 4 * cycle + year + era * 400 + 1) = true := by
  obtain ⟨hsum, hc0, hc3, hq0, hq24, hy0, hy3, hd0, hd1, hleap⟩ := h
  obtain ⟨hy, hq⟩ := hleap hrest
  have hfour : (100 * century + 4 * cycle + year + era * 400 + 1) % 4 = 0 := by omega
  have hcentury : (100 * century + 4 * cycle + year + era * 400 + 1) % 100 ≠ 0 ∨
      (100 * century + 4 * cycle + year + era * 400 + 1) % 400 = 0 := by
    by_cases hcycle : cycle = 24
    · right
      have := hq hcycle
      omega
    · left
      omega
  simp only [Time.isLeapYear, hfour, decide_true, Bool.true_and, Bool.or_eq_true, bne_iff_ne,
    decide_eq_true_eq]
  exact hcentury

end EraParts

/-! ## Months -/

theorem daysInMonth_le (year : Int) (month : Nat) : daysInMonth year month ≤ 31 := by
  rw [daysInMonth]
  by_cases hfebruary : month = 2
  · rw [if_pos hfebruary]
    split <;> omega
  · rw [if_neg hfebruary]
    split <;> [omega; (split <;> omega)]

theorem daysInMonth_of_lt {month : Nat} (h : 12 < month) (year : Int) :
    daysInMonth year month = 0 := by
  rw [daysInMonth, if_neg (by omega), if_neg (by omega), if_neg (by omega)]

/-- The months before a month, and the days of the month, are the days of the year. The year
begins in March and `since` is the number of whole months since then. -/
theorem monthOfYear_spec {rest : Int} (h0 : 0 ≤ rest) (h1 : rest ≤ 365) {since day : Nat}
    (hsince : since = ((5 * rest + 2) / 153).toNat)
    (hday : day = (rest - (153 * (since : Int) + 2) / 5 + 1).toNat) :
    1 ≤ day ∧ (daysBeforeMonth ((since + 2) % 12 + 1) : Int) + day - 1 = rest ∧
      ∀ year, (rest = 365 → isLeapYear year = true) →
        day ≤ daysInMonth year ((since + 2) % 12 + 1) := by
  have hle : since ≤ 11 := by omega
  -- the sum of the months since March, without adding them up
  have hbefore : daysBeforeMonth ((since + 2) % 12 + 1) = (153 * since + 2) / 5 := by
    simp only [daysBeforeMonth]
    omega
  have hday1 : 1 ≤ day := by omega
  refine ⟨hday1, by omega, fun year hleap => ?_⟩
  by_cases hfebruary : since = 11
  · -- the one month whose length depends on the year is the last one
    subst hfebruary
    have hshort : day ≤ 28 ∨ day = 29 ∧ rest = 365 := by omega
    rcases hshort with hshort | ⟨hlong, hrest⟩
    · have hlength : 28 ≤ daysInMonth year 2 := by
        cases hyear : isLeapYear year <;> simp [daysInMonth, hyear]
      exact Nat.le_trans hshort hlength
    · rw [hlong]
      simp [daysInMonth, hleap hrest]
  · have hyear : daysInMonth year ((since + 2) % 12 + 1) =
        daysInMonth 0 ((since + 2) % 12 + 1) := by
      have hmonth : (since + 2) % 12 + 1 ≠ 2 := by omega
      simp only [daysInMonth, if_neg hmonth]
    rw [hyear]
    -- the other eleven months one by one
    interval_cases since <;> simp [daysInMonth] <;> omega

/-! ## Dates -/

/-- **Dates are days.** The date of a day is in the calendar, and it is that day's. Both halves
are for every count of days, before and after the epoch. -/
theorem ofDays_spec (days : Int) :
    (Date.ofDays days).isValid = true ∧ (Date.ofDays days).toDays = days := by
  obtain ⟨c, q, y, rest, hparts⟩ : ∃ c q y rest, EraParts ((days + 719468) % 146097) c q y rest :=
    exists_eraParts (by omega) (by omega)
  obtain ⟨since, hsince⟩ : ∃ since, since = ((5 * rest + 2) / 153).toNat := ⟨_, rfl⟩
  obtain ⟨day, hday⟩ : ∃ day, day = (rest - (153 * (since : Int) + 2) / 5 + 1).toNat := ⟨_, rfl⟩
  obtain ⟨hday1, hbefore, hlength⟩ :=
    monthOfYear_spec hparts.rest_nonneg hparts.rest_le hsince hday
  obtain ⟨march, hmarch⟩ : ∃ march : Int,
      march = 100 * c + 4 * q + y + (days + 719468) / 146097 * 400 := ⟨_, rfl⟩
  -- the formulas of the date, each replaced by the part that it computes
  have hdate : Date.ofDays days =
      ⟨if (since + 2) % 12 + 1 ≤ 2 then march + 1 else march, (since + 2) % 12 + 1, day⟩ := by
    simp only [Date.ofDays, hparts.yearOfEra, hparts.dayOfYear, ← hsince, ← hday, ← hmarch]
  -- the leap day is the last one, and the calendar year is then the next one
  have hleap : rest = 365 →
      isLeapYear (if (since + 2) % 12 + 1 ≤ 2 then march + 1 else march) = true := by
    intro hrest
    have hmonth : (since + 2) % 12 + 1 ≤ 2 := by omega
    rw [if_pos hmonth, hmarch]
    exact hparts.isLeapYear hrest _
  rw [hdate]
  refine ⟨?_, ?_⟩
  · simp only [Date.isValid, Bool.and_eq_true, decide_eq_true_eq]
    exact ⟨hday1, hlength _ hleap⟩
  · obtain ⟨hsum, hc0, hc3, hq0, hq24, hy0, hy3, hd0, hd1, -⟩ := hparts
    -- counting days goes back through the same era, year and day
    have hera : march / 400 = (days + 719468) / 146097 := by omega
    have hyearOfEra : march % 400 = 100 * c + 4 * q + y := by omega
    have hback : march / 400 * 146097 + (march % 400 * 365 + march % 400 / 4 -
        march % 400 / 100 + rest) - 719468 = days := by
      rw [hera, hyearOfEra]
      have hfour : (100 * c + 4 * q + y) / 4 = 25 * c + q := by omega
      have hcentury : (100 * c + 4 * q + y) / 100 = c := by omega
      rw [hfour, hcentury]
      omega
    by_cases hmonth : (since + 2) % 12 + 1 ≤ 2
    · simpa [Date.toDays, hmonth, hbefore] using hback
    · simpa [Date.toDays, hmonth, hbefore] using hback

end ItemStore.Time
