import Mathlib.Algebra.Order.Group.Int

/-!
# The calendar

Days are numbered from the first day of the year 1, in both directions. A day number splits into
a year and a day of that year, and the year of a day is the only one that begins no later than the
day and ends after it.
-/

namespace AdDelivery.Calendar

def IsLeapYear (year : Int) : Prop := year % 4 = 0 ∧ (year % 100 ≠ 0 ∨ year % 400 = 0)

instance (year : Int) : Decidable (IsLeapYear year) := inferInstanceAs (Decidable (_ ∧ _))

def daysInYear (year : Int) : Int := if IsLeapYear year then 366 else 365

/-- The number of the first day of a year. -/
def yearStart (year : Int) : Int :=
  365 * (year - 1) + (year - 1) / 4 - (year - 1) / 100 + (year - 1) / 400

/-- The year of a day, by its periods of 400, 100, 4 and 1 years. The last period of 100 years in
one of 400, and the last year in one of 4, have one day more. -/
def yearOf (day : Int) : Int :=
  let n400 := day % 146097
  let c := min (n400 / 36524) 3
  let n100 := n400 - 36524 * c
  let n4 := n100 % 1461
  400 * (day / 146097) + 100 * c + 4 * (n100 / 1461) + min (n4 / 365) 3 + 1

def dayOfYear (day : Int) : Int := day - yearStart (yearOf day)

variable (year : Int)

theorem yearStart_succ : yearStart (year + 1) = yearStart year + daysInYear year := by
  unfold yearStart daysInYear
  by_cases h : IsLeapYear year
  · rw [if_pos h]
    unfold IsLeapYear at h
    omega
  · rw [if_neg h]
    unfold IsLeapYear at h
    omega

theorem daysInYear_cases : daysInYear year = 365 ∨ daysInYear year = 366 := by
  unfold daysInYear
  split
  · exact .inr rfl
  · exact .inl rfl

section

variable {a c b m : Int} (hc : 0 ≤ c ∧ c ≤ 3) (hb : 0 ≤ b ∧ b ≤ 24) (hm : 0 ≤ m ∧ m ≤ 3)
include hc hb hm

/-- The first day of a year, by the periods before it. -/
theorem yearStart_periods : yearStart (400 * a + 100 * c + 4 * b + m + 1) =
      146097 * a + 36524 * c + 1461 * b + 365 * m := by
  have h4 : (400 * a + 100 * c + 4 * b + m) / 4 = 100 * a + 25 * c + b := by omega
  have h100 : (400 * a + 100 * c + 4 * b + m) / 100 = 4 * a + c := by omega
  have h400 : (400 * a + 100 * c + 4 * b + m) / 400 = a := by omega
  unfold yearStart
  rw [add_sub_cancel_right]
  omega

/-- The last day of a period of 4 years belongs to its last year, that of a period of 400 years to
its last period of 100. -/
theorem yearLength_periods : daysInYear (400 * a + 100 * c + 4 * b + m + 1) =
      if m = 3 ∧ (b = 24 → c = 3) then 366 else 365 := by
  have hleap : IsLeapYear (400 * a + 100 * c + 4 * b + m + 1) ↔ m = 3 ∧ (b = 24 → c = 3) := by
    unfold IsLeapYear
    omega
  unfold daysInYear
  by_cases h : m = 3 ∧ (b = 24 → c = 3)
  · rw [if_pos h, if_pos (hleap.mpr h)]
  · rw [if_neg h, if_neg (mt hleap.mp h)]

end

variable (day : Int)

/-- A day lies in its year. -/
theorem yearOf_spec : yearStart (yearOf day) ≤ day ∧ day < yearStart (yearOf day + 1) := by
  rw [yearStart_succ]
  unfold yearOf
  dsimp only
  generalize hn : day % 146097 = n
  generalize hc : min (n / 36524) 3 = c
  generalize hb : (n - 36524 * c) / 1461 = b
  generalize hr : (n - 36524 * c) % 1461 = r
  generalize hm : min (r / 365) 3 = m
  have hc' : 0 ≤ c ∧ c ≤ 3 := by omega
  have hb' : 0 ≤ b ∧ b ≤ 24 := by omega
  have hm' : 0 ≤ m ∧ m ≤ 3 := by omega
  rw [yearStart_periods hc' hb' hm', yearLength_periods hc' hb' hm']
  split
  · omega
  · omega

theorem yearStart_add_le (k : ℕ) : yearStart year + 365 * k ≤ yearStart (year + k) := by
  induction k with
  | zero => simp
  | succ k ih =>
    have hstep := yearStart_succ (year + k)
    have hdays := daysInYear_cases (year + k)
    push_cast
    rw [← add_assoc]
    omega

theorem yearStart_mono {year year' : Int} (h : year ≤ year') :
    yearStart year ≤ yearStart year' := by
  obtain ⟨k, rfl⟩ := Int.le.dest h
  have hle := yearStart_add_le year k
  omega

/-- The year of a day is the only one it lies in. -/
theorem yearOf_eq {year day : Int} (hstart : yearStart year ≤ day)
    (hend : day < yearStart (year + 1)) : yearOf day = year := by
  obtain ⟨hstart', hend'⟩ := yearOf_spec day
  rcases lt_trichotomy (yearOf day) year with hlt | heq | hlt
  · have hle := yearStart_mono (show yearOf day + 1 ≤ year by omega)
    omega
  · exact heq
  · have hle := yearStart_mono (show year + 1 ≤ yearOf day by omega)
    omega

theorem dayOfYear_nonneg : 0 ≤ dayOfYear day := by
  have hspec := yearOf_spec day
  unfold dayOfYear
  omega

theorem dayOfYear_lt : dayOfYear day < daysInYear (yearOf day) := by
  have hspec := yearOf_spec day
  rw [yearStart_succ] at hspec
  unfold dayOfYear
  omega

/-- The day before a day that is not the first of its year. -/
theorem pred_of_pos {day : Int} (h : 0 < dayOfYear day) :
    yearOf (day - 1) = yearOf day ∧ dayOfYear (day - 1) = dayOfYear day - 1 := by
  have hspec := yearOf_spec day
  unfold dayOfYear at h ⊢
  have hyear : yearOf (day - 1) = yearOf day := yearOf_eq (by omega) (by omega)
  rw [hyear]
  exact ⟨rfl, by omega⟩

/-- The day before the first day of a year. -/
theorem pred_of_zero {day : Int} (h : dayOfYear day = 0) : yearOf (day - 1) = yearOf day - 1 ∧
      dayOfYear (day - 1) = daysInYear (yearOf day - 1) - 1 := by
  have hstep := yearStart_succ (yearOf day - 1)
  have hdays := daysInYear_cases (yearOf day - 1)
  rw [sub_add_cancel] at hstep
  unfold dayOfYear at h ⊢
  have hyear : yearOf (day - 1) = yearOf day - 1 := by
    refine yearOf_eq (by omega) ?_
    rw [sub_add_cancel]
    omega
  rw [hyear]
  exact ⟨rfl, by omega⟩

end AdDelivery.Calendar
