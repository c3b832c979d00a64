import Mathlib

/-!
The Gregorian calendar, extended to all years, and the numbering of its days.
The years are counted from March, so that the leap day is the last of its year;
an era is a cycle of four hundred such years.
-/

namespace SthCore.Lib

def IsLeapYear (y : ℤ) : Prop := y % 4 = 0 ∧ (y % 100 ≠ 0 ∨ y % 400 = 0)

instance : DecidablePred IsLeapYear := fun y =>
  inferInstanceAs (Decidable (y % 4 = 0 ∧ (y % 100 ≠ 0 ∨ y % 400 = 0)))

def monthLength (y m : ℤ) : ℤ :=
  if m = 2 then if IsLeapYear y then 29 else 28
  else if m = 4 ∨ m = 6 ∨ m = 9 ∨ m = 11 then 30 else 31

theorem monthLength_bounds (y m : ℤ) : 28 ≤ monthLength y m ∧ monthLength y m ≤ 31 := by
  unfold monthLength
  split_ifs <;> omega

/-- A date; one that is not in the calendar cannot be built. -/
@[ext]
structure Date where
  year : ℤ
  month : ℤ
  day : ℤ
  month_mem : 1 ≤ month ∧ month ≤ 12
  day_mem : 1 ≤ day ∧ day ≤ monthLength year month

namespace Date

/-- The day after. -/
def next (d : Date) : Date :=
  if hday : d.day < monthLength d.year d.month then
    ⟨d.year, d.month, d.day + 1, d.month_mem, by have := d.day_mem; omega⟩
  else if hmonth : d.month < 12 then
    ⟨d.year, d.month + 1, 1, by have := d.month_mem; omega,
      by have := monthLength_bounds d.year (d.month + 1); omega⟩
  else ⟨d.year + 1, 1, 1, by omega, by have := monthLength_bounds (d.year + 1) 1; omega⟩

end Date

/-- The place of a month in a year that starts with March. -/
def marchMonth (m : ℤ) : ℤ := if 2 < m then m - 3 else m + 9

/-- The year that starts with March and contains the month. -/
def marchYear (y m : ℤ) : ℤ := if m ≤ 2 then y - 1 else y

/-- Days from March 1 to a day of the year. -/
def dayOfYear (mp d : ℤ) : ℤ := (153 * mp + 2) / 5 + d - 1

/-- Days from the start of an era to a day of one of its years. -/
def dayOfEra (yoe doy : ℤ) : ℤ := yoe * 365 + yoe / 4 - yoe / 100 + doy

/-- The number of a day, where 1970-01-01 is day 0. -/
def dayNumber (y m d : ℤ) : ℤ :=
  marchYear y m / 400 * 146097 +
    dayOfEra (marchYear y m - marchYear y m / 400 * 400) (dayOfYear (marchMonth m) d) - 719468

/-- The year of an era that contains one of its days. -/
def yearOfEra (doe : ℤ) : ℤ := (doe - doe / 1460 + doe / 36524 - doe / 146096) / 365

/-- The leap day is the last day of its year. -/
def lastDay (yoe : ℤ) : ℤ := if IsLeapYear (yoe + 1) then 365 else 364

theorem yearOfEra_dayOfEra {yoe doy : ℤ} (hyoe : 0 ≤ yoe ∧ yoe < 400)
    (hdoy : 0 ≤ doy ∧ doy ≤ lastDay yoe) : yearOfEra (dayOfEra yoe doy) = yoe := by
  obtain ⟨c, q, r, hc, hq, hr, rfl⟩ : ∃ c q r : ℤ, (0 ≤ c ∧ c < 4) ∧ (0 ≤ q ∧ q < 25) ∧
      (0 ≤ r ∧ r < 4) ∧ yoe = 100 * c + 4 * q + r :=
    ⟨yoe / 100, yoe % 100 / 4, yoe % 4, by omega, by omega, by omega, by omega⟩
  have hdoe : dayOfEra (100 * c + 4 * q + r) doy =
      36524 * c + (1461 * q + 365 * r + doy) := by
    unfold dayOfEra
    omega
  have hplace : doy ≤ 364 ∨ doy = 365 ∧ r = 3 ∧ (q < 24 ∨ c = 3) := by
    obtain ⟨-, hlast⟩ := hdoy
    unfold lastDay at hlast
    split_ifs at hlast with hleap
    · unfold IsLeapYear at hleap
      omega
    · omega
  -- within its century, only the last day of the era is behind the last whole century
  have hcentury : (36524 * c + (1461 * q + 365 * r + doy)) / 36524 -
      (36524 * c + (1461 * q + 365 * r + doy)) / 146096 = c := by
    have hrest : 0 ≤ 1461 * q + 365 * r + doy ∧ (1461 * q + 365 * r + doy < 36524 ∨
        c = 3 ∧ 1461 * q + 365 * r + doy = 36524) := by
      have hfirst := hdoy.1
      omega
    generalize 1461 * q + 365 * r + doy = rest at hrest
    omega
  have hyears : (36524 * c + (1461 * q + 365 * r + doy)) / 1460 =
      25 * c + q + (24 * c + q + 365 * r + doy) / 1460 := by
    omega
  unfold yearOfEra
  rw [hdoe]
  omega

theorem dayOfYear_bounds {y m d : ℤ} (hm : 1 ≤ m ∧ m ≤ 12) (hd : 1 ≤ d ∧ d ≤ monthLength y m) :
    0 ≤ dayOfYear (marchMonth m) d ∧
      dayOfYear (marchMonth m) d ≤ lastDay (marchYear y m - marchYear y m / 400 * 400) ∧
      (5 * dayOfYear (marchMonth m) d + 2) / 153 = marchMonth m := by
  unfold dayOfYear marchMonth marchYear lastDay monthLength IsLeapYear at *
  obtain ⟨hm1, hm12⟩ := hm
  interval_cases m <;> norm_num at hd ⊢ <;> (try split_ifs at hd ⊢) <;> omega

/-- The year of a day number, and the place of the month and the day in a year from March. -/
def marchDate (n : ℤ) : ℤ × ℤ × ℤ :=
  let era := (n + 719468) / 146097
  let doe := (n + 719468) % 146097
  let yoe := yearOfEra doe
  let doy := doe - (365 * yoe + yoe / 4 - yoe / 100)
  let mp := (5 * doy + 2) / 153
  (yoe + era * 400, mp, doy - (153 * mp + 2) / 5 + 1)

namespace Date

/-- The number of a date. -/
def number (d : Date) : ℤ := dayNumber d.year d.month d.day

theorem marchDate_number (d : Date) :
    marchDate d.number = (marchYear d.year d.month, marchMonth d.month, d.day) := by
  obtain ⟨hfirst, hlast, hmonth⟩ := dayOfYear_bounds d.month_mem d.day_mem
  have hyoe : 0 ≤ marchYear d.year d.month - marchYear d.year d.month / 400 * 400 ∧
      marchYear d.year d.month - marchYear d.year d.month / 400 * 400 < 400 := by omega
  have hyear := yearOfEra_dayOfEra hyoe ⟨hfirst, hlast⟩
  have hbounds : 0 ≤ dayOfEra (marchYear d.year d.month - marchYear d.year d.month / 400 * 400)
        (dayOfYear (marchMonth d.month) d.day) ∧
      dayOfEra (marchYear d.year d.month - marchYear d.year d.month / 400 * 400)
        (dayOfYear (marchMonth d.month) d.day) < 146097 := by
    unfold lastDay IsLeapYear at hlast
    unfold dayOfEra
    split_ifs at hlast <;> omega
  have hdoy : dayOfEra (marchYear d.year d.month - marchYear d.year d.month / 400 * 400)
        (dayOfYear (marchMonth d.month) d.day) -
      (365 * (marchYear d.year d.month - marchYear d.year d.month / 400 * 400) +
        (marchYear d.year d.month - marchYear d.year d.month / 400 * 400) / 4 -
        (marchYear d.year d.month - marchYear d.year d.month / 400 * 400) / 100) =
      dayOfYear (marchMonth d.month) d.day := by
    unfold dayOfEra
    ring
  have hday : dayOfYear (marchMonth d.month) d.day - (153 * marchMonth d.month + 2) / 5 + 1 =
      d.day := by
    unfold dayOfYear
    ring
  have hera : (d.number + 719468) / 146097 = marchYear d.year d.month / 400 := by
    unfold number dayNumber
    omega
  have hdoe : (d.number + 719468) % 146097 =
      dayOfEra (marchYear d.year d.month - marchYear d.year d.month / 400 * 400)
        (dayOfYear (marchMonth d.month) d.day) := by
    unfold number dayNumber
    omega
  unfold marchDate
  dsimp only
  rw [hera, hdoe, hyear, hdoy, hmonth, hday, sub_add_cancel]

theorem number_injective : Function.Injective number := by
  intro d d' h
  have hsame := marchDate_number d
  rw [h, marchDate_number, Prod.mk.injEq, Prod.mk.injEq] at hsame
  obtain ⟨hyear, hmonth, hday⟩ := hsame
  have hm := d.month_mem
  have hm' := d'.month_mem
  have hsameMonth : d.month = d'.month := by
    unfold marchMonth at hmonth
    split_ifs at hmonth <;> omega
  rw [hsameMonth] at hyear
  have hsameYear : d.year = d'.year := by
    unfold marchYear at hyear
    split_ifs at hyear <;> omega
  exact Date.ext hsameYear hsameMonth hday.symm

/-- The day after has the next number. -/
theorem number_next (d : Date) : d.next.number = d.number + 1 := by
  obtain ⟨y, m, day, hm, hd⟩ := d
  have hday : ∀ y m d, dayNumber y m d = 365 * marchYear y m + marchYear y m / 4 -
      marchYear y m / 100 + marchYear y m / 400 + dayOfYear (marchMonth m) d - 719468 := by
    intro y m d
    unfold dayNumber dayOfEra
    omega
  unfold next number
  dsimp only
  split_ifs with hinside hyear
  · simp only [hday]
    unfold dayOfYear
    ring
  · simp only [hday]
    have hlast : day = monthLength y m := le_antisymm hd.2 (not_lt.mp hinside)
    rw [hlast]
    unfold dayOfYear marchMonth marchYear monthLength IsLeapYear
    obtain ⟨hm1, -⟩ := hm
    interval_cases m <;> norm_num <;> (try split_ifs) <;> omega
  · simp only [hday]
    have hlast : day = monthLength y m := le_antisymm hd.2 (not_lt.mp hinside)
    obtain rfl : m = 12 := le_antisymm hm.2 (not_lt.mp hyear)
    rw [hlast]
    unfold dayOfYear marchMonth marchYear monthLength
    norm_num
    omega

/-- The first day of 1970. -/
def epoch : Date := ⟨1970, 1, 1, by decide, by decide⟩

theorem number_epoch : epoch.number = 0 := by decide

/-- The same day of the year an era later. -/
def laterEra (d : Date) (k : ℤ) : Date where
  year := d.year + 400 * k
  month := d.month
  day := d.day
  month_mem := d.month_mem
  day_mem := by
    have hsame : monthLength (d.year + 400 * k) d.month = monthLength d.year d.month := by
      have hleap : IsLeapYear (d.year + 400 * k) ↔ IsLeapYear d.year := by
        unfold IsLeapYear
        omega
      unfold monthLength
      simp only [hleap]
    rw [hsame]
    exact d.day_mem

theorem number_laterEra (d : Date) (k : ℤ) : (d.laterEra k).number = d.number + 146097 * k := by
  have hyear : marchYear (d.year + 400 * k) d.month = marchYear d.year d.month + 400 * k := by
    unfold marchYear
    split_ifs <;> ring
  have hera : (marchYear d.year d.month + 400 * k) / 400 = marchYear d.year d.month / 400 + k := by
    omega
  unfold number dayNumber laterEra
  dsimp only
  rw [hyear, hera, show marchYear d.year d.month + 400 * k -
    (marchYear d.year d.month / 400 + k) * 400 =
      marchYear d.year d.month - marchYear d.year d.month / 400 * 400 by ring]
  ring

/-- Every number is the number of a date. -/
theorem number_surjective : Function.Surjective number := by
  have hnat : ∀ n : ℕ, ∃ d : Date, d.number = n := by
    intro n
    induction n with
    | zero => exact ⟨epoch, number_epoch⟩
    | succ n ih =>
        obtain ⟨d, hd⟩ := ih
        exact ⟨d.next, by rw [number_next, hd]; push_cast; rfl⟩
  intro n
  obtain ⟨d, hd⟩ := hnat (n % 146097).toNat
  refine ⟨d.laterEra (n / 146097), ?_⟩
  rw [number_laterEra, hd]
  omega

end Date

end SthCore.Lib
