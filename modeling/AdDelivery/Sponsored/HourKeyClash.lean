import AdDelivery.Sponsored.HourKey

/-!
# Two hours with one key

The key of an hour writes its three numbers without a separator, so two hours have one key where a
digit of one number can be read as a digit of the number before it: the day of the year takes the
first digit of the hour, or the year takes the first digits of what follows it.
-/

namespace AdDelivery.Sponsored

open Decimal

/-- The day of the year and the hour of the day, written one after the other. -/
def Tm.tail (a : Tm) : Tail := Decimal.tail a.tmYday.toNat a.tmHour.toNat

/-- In the same year, the day of the one is the day of the other and the first digit of its hour. -/
def DayTakesDigit (a b : Tm) : Prop :=
  a.tmYear = b.tmYear ∧ 1 ≤ a.tmYday ∧ 10 ≤ a.tmHour ∧
    b.tmYday = 10 * a.tmYday + a.tmHour / 10 ∧ b.tmHour = a.tmHour % 10

/-- The year of the one is the year of the other and the first digits of what follows it. -/
def YearTakesDigits (a b : Tm) : Prop :=
  a.tmYear ≠ 0 ∧ b.tail.digits < a.tail.digits ∧
    b.tmYear = 10 ^ (a.tail.digits - b.tail.digits) * a.tmYear +
      a.tmYear.sign * (a.tail.value / 10 ^ b.tail.digits : ℕ) ∧
    b.tail.value = a.tail.value % 10 ^ b.tail.digits

instance (a b : Tm) : Decidable (DayTakesDigit a b) := inferInstanceAs (Decidable (_ ∧ _))

instance (a b : Tm) : Decidable (YearTakesDigits a b) := inferInstanceAs (Decidable (_ ∧ _))

/-- The digits of two hours can be taken for each other. -/
def DigitsMove (a b : Tm) : Prop :=
  DayTakesDigit a b ∨ DayTakesDigit b a ∨ YearTakesDigits a b ∨ YearTakesDigits b a

instance (a b : Tm) : Decidable (DigitsMove a b) := inferInstanceAs (Decidable (_ ∨ _))

theorem width_hour {h : ℕ} (hh : h < 24) : (h < 10 ∧ width h = 1) ∨ (10 ≤ h ∧ width h = 2) := by
  have h1 := width_le_iff (n := h) (k := 1) (by decide)
  have h2 := width_le_iff (n := h) (k := 2) (by decide)
  have hpos := width_pos h
  omega

theorem width_day {d : ℕ} (hd : d ≤ 365) :
    (d < 10 ∧ width d = 1) ∨ (10 ≤ d ∧ d < 100 ∧ width d = 2) ∨ (100 ≤ d ∧ width d = 3) := by
  have h1 := width_le_iff (n := d) (k := 1) (by decide)
  have h2 := width_le_iff (n := d) (k := 2) (by decide)
  have h3 := width_le_iff (n := d) (k := 3) (by decide)
  have hpos := width_pos d
  omega

/-- A day and an hour with the digits of another day and hour. -/
theorem tail_eq_iff {d h d' h' : ℕ} (hd : d ≤ 365) (hh : h < 24) (hd' : d' ≤ 365) (hh' : h' < 24) :
    Decimal.tail d h = Decimal.tail d' h' ↔
      (d = d' ∧ h = h') ∨ (1 ≤ d ∧ 10 ≤ h ∧ d' = 10 * d + h / 10 ∧ h' = h % 10) ∨
        (1 ≤ d' ∧ 10 ≤ h' ∧ d = 10 * d' + h' / 10 ∧ h = h' % 10) := by
  have hdays := width_day hd
  have hdays' := width_day hd'
  unfold Decimal.tail
  rw [Tail.mk.injEq]
  rcases width_hour hh with ⟨hlt, hwidth⟩ | ⟨hle, hwidth⟩ <;>
    rcases width_hour hh' with ⟨hlt', hwidth'⟩ | ⟨hle', hwidth'⟩ <;> rw [hwidth, hwidth']
  · omega
  · omega
  · omega
  · omega

/-- A number is written as its sign and its digits. -/
theorem toList_toString (n : Int) :
    (toString n).toList = (if n < 0 then ['-'] else []) ++ Nat.toDigits 10 n.natAbs := by
  rcases lt_or_ge n 0 with hn | hn
  · rw [toList_toString_of_neg hn, if_pos hn]
    congr 2
    omega
  · rw [toList_toString_of_nonneg hn, if_neg (not_lt.mpr hn)]
    congr 1
    omega

/-- Signs and digits are the same exactly when the signs are and the digits are. -/
theorem sign_append_eq_iff {m n : Int} (xs ys : List Char) :
    (if m < 0 then ['-'] else []) ++ (Nat.toDigits 10 m.natAbs ++ xs) =
        (if n < 0 then ['-'] else []) ++ (Nat.toDigits 10 n.natAbs ++ ys) ↔ (m < 0 ↔ n < 0) ∧
        Nat.toDigits 10 m.natAbs ++ xs = Nat.toDigits 10 n.natAbs ++ ys := by
  have hhead : ∀ (k : ℕ) (zs ws : List Char), '-' :: zs ≠ Nat.toDigits 10 k ++ ws := by
    intro k zs ws heq
    have hfirst := congrArg List.head? heq
    rw [List.head?_append_of_ne_nil _ Nat.toDigits_ne_nil] at hfirst
    exact dash_notMem_toDigits k (List.mem_of_head? hfirst.symm)
  by_cases hm : m < 0 <;> by_cases hn : n < 0
  · simp [hm, hn]
  · rw [if_pos hm, if_neg hn]
    exact iff_of_false (hhead _ _ _) fun h => hn (h.1.mp hm)
  · rw [if_neg hm, if_pos hn]
    exact iff_of_false (fun h => hhead _ _ _ h.symm) fun h => hm (h.1.mpr hn)
  · simp [hm, hn]

/-- A number with more digits has the sign of the number. -/
theorem eq_sign_mul_iff {m n : Int} {p q : ℕ} (hp : 0 < p) (hm : m ≠ 0) :
    n = p * m + m.sign * q ↔ (m < 0 ↔ n < 0) ∧ n.natAbs = p * m.natAbs + q := by
  rcases lt_or_gt_of_ne hm with hneg | hpos
  · obtain ⟨k, rfl⟩ : ∃ k : ℕ, m = -k := ⟨m.natAbs, by omega⟩
    have hpk : 0 < p * k := Nat.mul_pos hp (by omega)
    have hcast : (p : Int) * -(k : Int) = -((p * k : ℕ) : Int) := by
      push_cast
      ring
    rw [Int.sign_eq_neg_one_of_neg hneg, Int.natAbs_neg, Int.natAbs_natCast]
    omega
  · obtain ⟨k, rfl⟩ : ∃ k : ℕ, m = k := ⟨m.natAbs, by omega⟩
    have hcast : (p : Int) * (k : Int) = ((p * k : ℕ) : Int) := by rfl
    rw [Int.sign_eq_one_of_pos hpos, Int.natAbs_natCast]
    omega

theorem yearTakesDigits_iff {a b : Tm} :
    YearTakesDigits a b ↔ (a.tmYear < 0 ↔ b.tmYear < 0) ∧ 0 < a.tmYear.natAbs ∧
      Takes a.tmYear.natAbs a.tail b.tmYear.natAbs b.tail := by
  have hpow : 0 < 10 ^ (a.tail.digits - b.tail.digits) := Nat.pow_pos (by decide)
  have hpos : 0 < a.tmYear.natAbs ↔ a.tmYear ≠ 0 := Int.natAbs_pos
  have hcast : ((10 ^ (a.tail.digits - b.tail.digits) : ℕ) : Int) =
      10 ^ (a.tail.digits - b.tail.digits) := by rfl
  rw [hpos]
  constructor
  · rintro ⟨hzero, hlt, hyear, hvalue⟩
    obtain ⟨hsign, habs⟩ := (eq_sign_mul_iff hpow hzero).mp hyear
    exact ⟨hsign, hzero, hlt, habs, hvalue⟩
  · rintro ⟨hsign, hzero, hlt, habs, hvalue⟩
    refine ⟨hzero, hlt, ?_, hvalue⟩
    exact (eq_sign_mul_iff hpow hzero).mpr ⟨hsign, habs⟩

/-- The same year, and a day and an hour with the same digits. -/
theorem tmTail_eq_iff {a b : Tm} (ha : a.Valid) (hb : b.Valid) (hyear : a.tmYear = b.tmYear) :
    a.tail = b.tail ↔ a = b ∨ DayTakesDigit a b ∨ DayTakesDigit b a := by
  obtain ⟨y, d, h⟩ := a
  obtain ⟨y', d', h'⟩ := b
  obtain ⟨hd, hd', hh, hh'⟩ := ha
  obtain ⟨hd₂, hd₂', hh₂, hh₂'⟩ := hb
  obtain rfl : y = y' := hyear
  lift d to ℕ using hd
  lift h to ℕ using hh
  lift d' to ℕ using hd₂
  lift h' to ℕ using hh₂
  unfold Tm.tail DayTakesDigit
  dsimp only at *
  rw [Int.toNat_natCast, Int.toNat_natCast, Int.toNat_natCast, Int.toNat_natCast,
    tail_eq_iff (by omega) (by omega) (by omega) (by omega), Tm.mk.injEq]
  norm_cast
  simp only [true_and]

/-- An hour does not take digits from itself. -/
theorem DigitsMove.ne {a b : Tm} (h : DigitsMove a b) : a ≠ b := by
  rintro rfl
  rcases h with ⟨-, hday, hhour, heq, -⟩ | ⟨-, hday, hhour, heq, -⟩ | ⟨-, hlt, -⟩ | ⟨-, hlt, -⟩
  · omega
  · omega
  · exact lt_irrefl _ hlt
  · exact lt_irrefl _ hlt

/-- When two hours have one key. -/
theorem hourKey_eq_iff {a b : Tm} (ha : a.Valid) (hb : b.Valid) :
    hourKey a = hourKey b ↔ a = b ∨ DigitsMove a b := by
  have hyears : a.tmYear = b.tmYear ↔
      (a.tmYear < 0 ↔ b.tmYear < 0) ∧ a.tmYear.natAbs = b.tmYear.natAbs := by omega
  rw [← String.toList_inj, toList_hourKey, toList_hourKey, toList_toString a.tmYear,
    toList_toString b.tmYear, toList_toString_of_nonneg ha.tmYday_nonneg,
    toList_toString_of_nonneg ha.tmHour_nonneg, toList_toString_of_nonneg hb.tmYday_nonneg,
    toList_toString_of_nonneg hb.tmHour_nonneg, List.append_assoc, List.append_assoc,
    sign_append_eq_iff, toDigits_append_eq_iff]
  unfold DigitsMove
  rw [yearTakesDigits_iff, yearTakesDigits_iff]
  constructor
  · rintro ⟨hsign, ⟨hyear, htail⟩ | ⟨hpos, htakes⟩ | ⟨hpos, htakes⟩⟩
    · have hcases := (tmTail_eq_iff ha hb (hyears.mpr ⟨hsign, hyear⟩)).mp htail
      tauto
    · exact .inr (.inr (.inr (.inl ⟨hsign, hpos, htakes⟩)))
    · exact .inr (.inr (.inr (.inr ⟨hsign.symm, hpos, htakes⟩)))
  · rintro (rfl | hday | hday | ⟨hsign, hpos, htakes⟩ | ⟨hsign, hpos, htakes⟩)
    · exact ⟨Iff.rfl, .inl ⟨rfl, rfl⟩⟩
    · obtain ⟨hsign, hyear⟩ := hyears.mp hday.1
      exact ⟨hsign, .inl ⟨hyear, (tmTail_eq_iff ha hb hday.1).mpr (.inr (.inl hday))⟩⟩
    · obtain ⟨hsign, hyear⟩ := hyears.mp hday.1.symm
      exact ⟨hsign, .inl ⟨hyear, (tmTail_eq_iff ha hb hday.1.symm).mpr (.inr (.inr hday))⟩⟩
    · exact ⟨hsign, .inr (.inl ⟨hpos, htakes⟩)⟩
    · exact ⟨hsign.symm, .inr (.inr ⟨hpos, htakes⟩)⟩

/-- Two times of different hours have different keys exactly when no digits of the one hour can be
taken for those of the other. -/
theorem gettimestr_ne_iff {t₁ t₂ : Int} (hne : gmtime t₁ ≠ gmtime t₂) :
    gettimestr (gmtime t₁) 0 ≠ gettimestr (gmtime t₂) 0 ↔ ¬ DigitsMove (gmtime t₁) (gmtime t₂) := by
  rw [gettimestr_zero (valid_gmtime t₁), gettimestr_zero (valid_gmtime t₂), ne_eq,
    hourKey_eq_iff (valid_gmtime t₁) (valid_gmtime t₂)]
  exact not_congr (or_iff_right hne)

/-- 2014-06-10 05:00 and 06:00 UTC. -/
theorem gettimestr_ne_nextHour :
    gettimestr (gmtime 1402376400) 0 ≠ gettimestr (gmtime 1402380000) 0 :=
  (gettimestr_ne_iff (by decide)).mpr (by decide)

/-- 2014-01-02 11:00 and 2014-01-12 01:00 UTC: both keys are 114111. -/
theorem not_gettimestr_injective : ¬ ∀ t₁ t₂ : Int, gmtime t₁ ≠ gmtime t₂ →
      gettimestr (gmtime t₁) 0 ≠ gettimestr (gmtime t₂) 0 := by
  intro h
  exact h 1388660400 1389488400 (by decide) (by decide)

end AdDelivery.Sponsored
