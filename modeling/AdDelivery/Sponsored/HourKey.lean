import AdDelivery.Core.Calendar
import AdDelivery.Core.Decimal
import AdDelivery.Sponsored.AuctionLog

/-!
# Hour keys

`gettimestr` names an hour by its year, its day of the year and its hour of the day, written one
after another. For an hour before the current one it borrows one day at most, and a borrowed year
has 365 days. So the key of an hour of the day before yesterday is never found, nor that of the
last day of a leap year on the first day of the next one.
-/

namespace AdDelivery.Sponsored

open List
open Calendar

/-- `gmtime_r`: the broken-down time of a number of seconds since the beginning of 1970. -/
def gmtime (current : Int) : Tm :=
  let day := current / 86400 + 719162
  { tmYear := yearOf day - 1900, tmYday := dayOfYear day, tmHour := current % 86400 / 3600 }

/-- What the fields of a broken-down time can be. -/
structure Tm.Valid (a : Tm) : Prop where
  tmYday_nonneg : 0 ≤ a.tmYday
  tmYday_le : a.tmYday ≤ 365
  tmHour_nonneg : 0 ≤ a.tmHour
  tmHour_lt : a.tmHour < 24

theorem valid_gmtime (t : Int) : (gmtime t).Valid := by
  have hlt := dayOfYear_lt (t / 86400 + 719162)
  have hdays := daysInYear_cases (yearOf (t / 86400 + 719162))
  refine ⟨dayOfYear_nonneg _, ?_, ?_, ?_⟩
  · change dayOfYear _ ≤ 365
    omega
  · change 0 ≤ t % 86400 / 3600
    omega
  · change t % 86400 / 3600 < 24
    omega

variable {i : ℕ}

/-- The hour `i` hours before, if it is on the same day. -/
theorem gmtime_sameDay {t : Int} (hi : (i : Int) ≤ (gmtime t).tmHour) :
    gmtime (t - 3600 * i) = { gmtime t with tmHour := (gmtime t).tmHour - i } := by
  unfold gmtime at hi ⊢
  dsimp only at hi ⊢
  have hday : (t - 3600 * i) / 86400 = t / 86400 := by omega
  have hhour : (t - 3600 * i) % 86400 / 3600 = t % 86400 / 3600 - i := by omega
  rw [hday, hhour]

/-- The hour `i` hours before, if it is on the day before. -/
theorem gmtime_dayBefore {t : Int} (hlt : (gmtime t).tmHour < i)
    (hi : (i : Int) ≤ (gmtime t).tmHour + 24) : gmtime (t - 3600 * i) =
      { tmYear := yearOf (t / 86400 + 719162 - 1) - 1900
        tmYday := dayOfYear (t / 86400 + 719162 - 1)
        tmHour := (gmtime t).tmHour - i + 24 } := by
  unfold gmtime at hlt hi ⊢
  dsimp only at hlt hi ⊢
  have hday : (t - 3600 * i) / 86400 + 719162 = t / 86400 + 719162 - 1 := by omega
  have hhour : (t - 3600 * i) % 86400 / 3600 = t % 86400 / 3600 - i + 24 := by omega
  rw [hday, hhour]

/-- The key of an hour. -/
def hourKey (a : Tm) : String := toString a.tmYear ++ toString a.tmYday ++ toString a.tmHour

theorem gettimestr_zero {a : Tm} (ha : a.Valid) : gettimestr a 0 = hourKey a := by
  obtain ⟨hday, hday', hhour, hhour'⟩ := ha
  unfold gettimestr hoursOfDay
  rw [add_zero]
  dsimp only
  rw [if_neg (not_lt.mpr hhour), if_neg (not_le.mpr hhour')]
  rw [if_neg (not_lt.mpr hday), if_neg (not_lt.mpr hday')]
  rfl

/-- A number that is not negative is written with digits only. -/
theorem toList_toString_of_nonneg {n : Int} (hn : 0 ≤ n) :
    (toString n).toList = Nat.toDigits 10 n.toNat := by
  rw [Int.toString_eq_repr, Int.repr_eq_if, if_pos hn, Nat.toList_repr]

theorem toList_toString_of_neg {n : Int} (hn : n < 0) :
    (toString n).toList = '-' :: Nat.toDigits 10 (-n).toNat := by
  rw [Int.toString_eq_repr, Int.repr_eq_if, if_neg (not_le.mpr hn), String.toList_append,
    Nat.toList_repr]
  rfl

theorem dash_notMem_toDigits (n : ℕ) : '-' ∉ Nat.toDigits 10 n := by
  intro hmem
  have hdigit := Nat.isDigit_of_mem_toDigits (by decide) (by decide) hmem
  cases hdigit

/-- Behind its first character a number has no dash. -/
theorem dash_notMem_tail (n : Int) : '-' ∉ (toString n).toList.tail := by
  rcases lt_or_ge n 0 with hn | hn
  · rw [toList_toString_of_neg hn]
    exact dash_notMem_toDigits _
  · rw [toList_toString_of_nonneg hn]
    exact fun hmem => dash_notMem_toDigits _ (mem_of_mem_tail hmem)

theorem toString_ne_nil (n : Int) : (toString n).toList ≠ [] := by
  rcases lt_or_ge n 0 with hn | hn
  · rw [toList_toString_of_neg hn]
    exact cons_ne_nil _ _
  · rw [toList_toString_of_nonneg hn]
    exact Nat.toDigits_ne_nil

theorem toString_injective {m n : Int} (h : toString m = toString n) : m = n := by
  have hlist := congrArg String.toList h
  rcases lt_or_ge m 0 with hm | hm <;> rcases lt_or_ge n 0 with hn | hn
  · rw [toList_toString_of_neg hm, toList_toString_of_neg hn] at hlist
    have heq := Decimal.toDigits_injective (List.cons.inj hlist).2
    omega
  · rw [toList_toString_of_neg hm, toList_toString_of_nonneg hn] at hlist
    exact absurd (hlist ▸ mem_cons_self) (dash_notMem_toDigits _)
  · rw [toList_toString_of_nonneg hm, toList_toString_of_neg hn] at hlist
    exact absurd (hlist ▸ mem_cons_self) (dash_notMem_toDigits _)
  · rw [toList_toString_of_nonneg hm, toList_toString_of_nonneg hn] at hlist
    have heq := Decimal.toDigits_injective hlist
    omega

theorem toList_hourKey (a : Tm) : (hourKey a).toList =
      (toString a.tmYear).toList ++ ((toString a.tmYday).toList ++ (toString a.tmHour).toList) := by
  rw [hourKey, String.toList_append, String.toList_append, append_assoc]

/-- The key of an hour with a negative hour of the day is no hour's key. -/
theorem hourKey_ne_of_neg {a b : Tm} (ha : a.tmHour < 0) (hb : b.Valid) :
    hourKey a ≠ hourKey b := by
  intro heq
  have hlist := congrArg (fun key => key.toList.tail) heq
  rw [toList_hourKey, toList_hourKey, tail_append_of_ne_nil (toString_ne_nil _),
    tail_append_of_ne_nil (toString_ne_nil _)] at hlist
  have hmem : '-' ∈ (toString a.tmYear).toList.tail ++
      ((toString a.tmYday).toList ++ (toString a.tmHour).toList) := by
    rw [toList_toString_of_neg ha]
    simp
  rw [hlist, mem_append, mem_append, toList_toString_of_nonneg hb.tmYday_nonneg,
    toList_toString_of_nonneg hb.tmHour_nonneg] at hmem
  rcases hmem with hmem | hmem | hmem
  · exact dash_notMem_tail _ hmem
  · exact dash_notMem_toDigits _ hmem
  · exact dash_notMem_toDigits _ hmem

/-- Only the days differ. -/
theorem hourKey_ne_of_tmYday {y d d' h : Int} (hne : d ≠ d') :
    hourKey ⟨y, d, h⟩ ≠ hourKey ⟨y, d', h⟩ := by
  intro heq
  have hlist := congrArg String.toList heq
  rw [toList_hourKey, toList_hourKey] at hlist
  have hday := append_cancel_right (append_cancel_left hlist)
  exact hne (toString_injective (String.toList_inj.mp hday))

/-- The borrow of `gettimestr` is enough: of days, and of the length of the year before. -/
def BorrowFits (now : Tm) (i : ℕ) : Prop :=
  (i : Int) ≤ now.tmHour + 24 ∧
    (now.tmHour < i → now.tmYday = 0 → ¬ IsLeapYear (now.tmYear + 1900 - 1))

theorem gettimestr_sameDay {now : Tm} (hnow : now.Valid) (hi : (i : Int) ≤ now.tmHour) :
    gettimestr now (0 - (i : Int)) = hourKey { now with tmHour := now.tmHour - i } := by
  obtain ⟨hday, hday', hhour, hhour'⟩ := hnow
  unfold gettimestr hoursOfDay
  rw [zero_sub, ← sub_eq_add_neg]
  dsimp only
  rw [if_neg (show ¬ now.tmHour - i < 0 by omega), if_neg (show ¬ 24 ≤ now.tmHour - i by omega)]
  rw [if_neg (not_lt.mpr hday), if_neg (not_lt.mpr hday')]
  rfl

/-- One day is borrowed, with a year where the day is the first one. -/
theorem gettimestr_borrow {now : Tm} (hnow : now.Valid) (hlt : now.tmHour < i) :
    gettimestr now (0 - (i : Int)) =
      if now.tmYday = 0 then hourKey ⟨now.tmYear - 1, 364, now.tmHour - i + 24⟩
      else hourKey ⟨now.tmYear, now.tmYday - 1, now.tmHour - i + 24⟩ := by
  obtain ⟨hday, hday', hhour, hhour'⟩ := hnow
  unfold gettimestr hoursOfDay
  rw [zero_sub, ← sub_eq_add_neg]
  dsimp only
  rw [if_pos (show now.tmHour - i < 0 by omega)]
  by_cases hzero : now.tmYday = 0
  · rw [hzero]
    rfl
  · rw [if_neg hzero, if_neg (show ¬ now.tmYday - 1 < 0 by omega),
      if_neg (show ¬ 365 < now.tmYday - 1 by omega)]
    rfl

/-- The key of an hour before the current one is the key it had when it was the current one exactly
where the borrow is enough. -/
theorem gettimestr_shift_iff (t : Int) (i : ℕ) :
    gettimestr (gmtime t) (0 - (i : Int)) = gettimestr (gmtime (t - 3600 * i)) 0 ↔
      BorrowFits (gmtime t) i := by
  rw [gettimestr_zero (valid_gmtime _)]
  have hnow := valid_gmtime t
  rcases le_or_gt (i : Int) (gmtime t).tmHour with hsame | hlt
  · rw [gettimestr_sameDay hnow hsame, gmtime_sameDay hsame]
    exact iff_of_true rfl ⟨by omega, fun hlt => absurd hlt (not_lt.mpr hsame)⟩
  rw [gettimestr_borrow hnow hlt]
  rcases le_or_gt (i : Int) ((gmtime t).tmHour + 24) with hday | hfar
  · rw [gmtime_dayBefore hlt hday]
    split
    · rename_i hzero
      obtain ⟨hyear, hyday⟩ := pred_of_zero hzero
      have hleap : ((gmtime t).tmYear + 1900 - 1) = yearOf (t / 86400 + 719162) - 1 := by
        change yearOf _ - 1900 + 1900 - 1 = _
        omega
      have hyear' : (gmtime t).tmYear - 1 = yearOf (t / 86400 + 719162) - 1 - 1900 := by
        omega
      rw [hyear, hyday, BorrowFits, hleap, hyear', daysInYear]
      by_cases h : IsLeapYear (yearOf (t / 86400 + 719162) - 1)
      · rw [if_pos h]
        exact iff_of_false (hourKey_ne_of_tmYday (by decide)) fun hfits => hfits.2 hlt hzero h
      · rw [if_neg h]
        exact iff_of_true rfl ⟨hday, fun _ _ => h⟩
    · rename_i hzero
      have hpos : 0 < dayOfYear (t / 86400 + 719162) :=
        lt_of_le_of_ne (dayOfYear_nonneg _) (Ne.symm hzero)
      obtain ⟨hyear, hyday⟩ := pred_of_pos hpos
      rw [hyear, hyday]
      exact iff_of_true rfl ⟨hday, fun _ h => absurd h hzero⟩
  · refine iff_of_false ?_ fun hfits => absurd hfits.1 (not_le.mpr hfar)
    have hneg : (gmtime t).tmHour - i + 24 < 0 := by omega
    split
    · exact hourKey_ne_of_neg hneg (valid_gmtime _)
    · exact hourKey_ne_of_neg hneg (valid_gmtime _)

end AdDelivery.Sponsored
