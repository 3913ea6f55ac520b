import Mathlib.Data.List.Basic
import Mathlib.Tactic.IntervalCases
import Mathlib.Tactic.Ring

/-!
# Decimal digits written one after another

Numbers written without a separator can be read back in more than one way. A number in front of
others takes the first digits of the rest, and nothing else is possible: the digits of the whole
are those of one number.
-/

namespace AdDelivery.Decimal

open Nat List

/-- How many digits a number is written with. -/
def width (n : ℕ) : ℕ := (toDigits 10 n).length

theorem width_pos (n : ℕ) : 0 < width n := length_toDigits_pos

theorem width_le_iff {n k : ℕ} (hk : 0 < k) : width n ≤ k ↔ n < 10 ^ k :=
  length_toDigits_le_iff (by decide) hk

theorem lt_pow_width (n : ℕ) : n < 10 ^ width n := (width_le_iff (width_pos n)).mp le_rfl

theorem toDigits_injective {m n : ℕ} (h : toDigits 10 m = toDigits 10 n) : m = n := by
  have hvalue := congrArg (fun digits => ofDigitChars 10 digits 0) h
  simpa using hvalue

variable {n : ℕ}

/-- The digits of a positive number followed by those of another one. -/
theorem toDigits_append (hn : 0 < n) (m : ℕ) :
    toDigits 10 n ++ toDigits 10 m = toDigits 10 (10 ^ width m * n + m) := by
  induction m using base_induction 10 (by decide) with
  | single m hm =>
    have hwidth : width m = 1 := by
      rw [width, toDigits_of_lt_base hm, length_singleton]
    rw [toDigits_append_toDigits (by decide) hn hm, hwidth, pow_one]
  | digit m k hk hm ih =>
    have hdigits := toDigits_append_toDigits (b := 10) (by decide) hm hk
    have hwidth : width (10 * m + k) = width m + 1 := by
      rw [width, ← hdigits, length_append, toDigits_of_lt_base hk, length_singleton, width]
    have hpos : 0 < 10 ^ width m * n + m := by omega
    rw [← hdigits, ← append_assoc, ih, toDigits_append_toDigits (by decide) hpos hk,
      hwidth, pow_succ]
    congr 1
    ring

/-- Two numbers written one after the other, as one number and how many digits it takes. -/
structure Tail where
  value : ℕ
  digits : ℕ

def tail (d h : ℕ) : Tail := ⟨10 ^ width h * d + h, width d + width h⟩

theorem tail_lt (d h : ℕ) : (tail d h).value < 10 ^ (tail d h).digits := by
  have hd := lt_pow_width d
  have hh := lt_pow_width h
  change 10 ^ width h * d + h < 10 ^ (width d + width h)
  calc 10 ^ width h * d + h < 10 ^ width h * (d + 1) := by
        rw [mul_add, mul_one]
        omega
    _ ≤ 10 ^ width h * 10 ^ width d := mul_le_mul_left _ hd
    _ = 10 ^ (width d + width h) := by rw [pow_add, mul_comm]

/-- Three numbers one after another, the first of them positive. -/
theorem toDigits_append_tail (hn : 0 < n) (d h : ℕ) :
    toDigits 10 n ++ (toDigits 10 d ++ toDigits 10 h) =
      toDigits 10 (10 ^ (tail d h).digits * n + (tail d h).value) := by
  have hpos : 0 < 10 ^ width d * n + d := by
    have := Nat.mul_pos (Nat.pow_pos (show 0 < 10 by decide) : 0 < 10 ^ width d) hn
    omega
  rw [← List.append_assoc, toDigits_append hn, toDigits_append hpos]
  congr 1
  change _ = 10 ^ (width d + width h) * n + (10 ^ width h * d + h)
  ring

/-- The number in front takes the first digits of the tail. -/
def Takes (n : ℕ) (t : Tail) (n' : ℕ) (t' : Tail) : Prop :=
  t'.digits < t.digits ∧
    n' = 10 ^ (t.digits - t'.digits) * n + t.value / 10 ^ t'.digits ∧
    t'.value = t.value % 10 ^ t'.digits

section Cut

variable {n n' : ℕ} {t t' : Tail}

/-- The same number in front: the tails are the same. -/
theorem eq_of_front_eq (hn : 0 < n) (ht : t.value < 10 ^ t.digits) (ht' : t'.value < 10 ^ t'.digits)
    (h : 10 ^ t.digits * n + t.value = 10 ^ t'.digits * n + t'.value) : t = t' := by
  have key : ∀ {u u' : Tail}, u'.value < 10 ^ u'.digits →
      10 ^ u.digits * n + u.value = 10 ^ u'.digits * n + u'.value → u.digits ≤ u'.digits := by
    intro u u' hu' heq
    by_contra hlt
    have hle : 10 ^ (u'.digits + 1) ≤ 10 ^ u.digits := Nat.pow_le_pow_right (by decide) (by omega)
    have hmul : 10 ^ u'.digits * 10 * n ≤ 10 ^ u.digits * n :=
      Nat.mul_le_mul_right n (by rwa [pow_succ] at hle)
    have hn' : 10 ^ u'.digits ≤ 10 ^ u'.digits * n := Nat.le_mul_of_pos_right _ hn
    have hring : 10 ^ u'.digits * 10 * n = 10 * (10 ^ u'.digits * n) := by ring
    omega
  have hdigits : t.digits = t'.digits := le_antisymm (key ht' h) (key ht h.symm)
  obtain ⟨value, digits⟩ := t
  obtain ⟨value', digits'⟩ := t'
  obtain rfl : digits = digits' := hdigits
  obtain rfl : value = value' := add_left_cancel h
  rfl

/-- A longer tail gives its first digits away. -/
theorem takes_iff (hlt : t'.digits < t.digits) (ht' : t'.value < 10 ^ t'.digits) :
    Takes n t n' t' ↔ 10 ^ t.digits * n + t.value = 10 ^ t'.digits * n' + t'.value := by
  have hpow : 10 ^ t.digits = 10 ^ t'.digits * 10 ^ (t.digits - t'.digits) := by
    rw [← pow_add, add_sub_of_le hlt.le]
  have hdiv : 10 ^ t.digits * n + t.value =
      10 ^ t'.digits * (10 ^ (t.digits - t'.digits) * n + t.value / 10 ^ t'.digits) +
        t.value % 10 ^ t'.digits := by
    have hvalue := div_add_mod t.value (10 ^ t'.digits)
    rw [hpow, mul_add, mul_assoc]
    omega
  have hpos : 0 < 10 ^ t'.digits := Nat.pow_pos (by decide)
  constructor
  · rintro ⟨-, hn', hvalue⟩
    rw [hdiv, hn', hvalue]
  · intro heq
    have hmod := mod_lt t.value hpos
    rw [hdiv] at heq
    have hquot := congrArg (· / 10 ^ t'.digits) heq
    have hrem := congrArg (· % 10 ^ t'.digits) heq
    simp only [mul_add_div hpos, mul_add_mod, div_eq_of_lt hmod, div_eq_of_lt ht',
      mod_eq_of_lt hmod, mod_eq_of_lt ht', add_zero] at hquot hrem
    exact ⟨hlt, hquot.symm, hrem.symm⟩

/-- Two numbers in front of tails make up one number exactly when all is the same, or one of the two
takes digits of the other's tail. -/
theorem front_tail_iff (ht : t.value < 10 ^ t.digits) (ht' : t'.value < 10 ^ t'.digits) :
    10 ^ t.digits * n + t.value = 10 ^ t'.digits * n' + t'.value ↔
      (n = n' ∧ t = t') ∨ Takes n t n' t' ∨ Takes n' t' n t := by
  rcases lt_trichotomy t.digits t'.digits with hlt | heq | hlt
  · rw [eq_comm, ← takes_iff hlt ht]
    constructor
    · exact fun h => .inr (.inr h)
    · rintro (⟨-, rfl⟩ | h | h)
      · exact absurd hlt (lt_irrefl _)
      · exact absurd h.1 (by omega)
      · exact h
  · constructor
    · intro h
      rw [heq] at h ht
      have hdiv := congrArg (· / 10 ^ t'.digits) h
      have hpos : 0 < 10 ^ t'.digits := Nat.pow_pos (by decide)
      simp only [Nat.mul_add_div hpos, Nat.div_eq_of_lt ht, Nat.div_eq_of_lt ht', add_zero] at hdiv
      obtain ⟨value, digits⟩ := t
      obtain ⟨value', digits'⟩ := t'
      obtain rfl : digits = digits' := heq
      subst hdiv
      obtain rfl : value = value' := add_left_cancel h
      exact .inl ⟨rfl, rfl⟩
    · rintro (⟨rfl, rfl⟩ | h | h)
      · rfl
      · exact absurd h.1 (by omega)
      · exact absurd h.1 (by omega)
  · rw [← takes_iff hlt ht']
    constructor
    · exact fun h => .inr (.inl h)
    · rintro (⟨-, rfl⟩ | h | h)
      · exact absurd hlt (lt_irrefl _)
      · exact h
      · exact absurd h.1 (by omega)

end Cut

/-- The same tail: the same digits behind any number. -/
theorem append_eq_iff_tail_eq {d h d' h' : ℕ} :
    toDigits 10 d ++ toDigits 10 h = toDigits 10 d' ++ toDigits 10 h' ↔ tail d h = tail d' h' := by
  rw [← append_cancel_left_eq (toDigits 10 1), toDigits_append_tail one_pos,
    toDigits_append_tail one_pos]
  constructor
  · intro heq
    exact eq_of_front_eq one_pos (tail_lt d h) (tail_lt d' h') (toDigits_injective heq)
  · intro heq
    rw [heq]

/-- A positive number does not begin with a zero. -/
theorem head?_toDigits_ne (hn : 0 < n) : (toDigits 10 n).head? ≠ some '0' := by
  induction n using base_induction 10 (by decide) with
  | single m hm =>
    rw [toDigits_of_lt_base hm]
    interval_cases m <;> decide
  | digit m k hk hm ih =>
    rw [← toDigits_append_toDigits (by decide) hm hk, head?_append_of_ne_nil _
      toDigits_ne_nil]
    exact ih hm

theorem toDigits_zero_append_ne (hn : 0 < n) (xs ys : List Char) :
    toDigits 10 0 ++ xs ≠ toDigits 10 n ++ ys := by
  intro heq
  have hhead := congrArg head? heq
  rw [head?_append_of_ne_nil _ toDigits_ne_nil, head?_append_of_ne_nil _ toDigits_ne_nil] at hhead
  exact head?_toDigits_ne hn hhead.symm

/-- When three numbers are written with the same digits as three others. -/
theorem toDigits_append_eq_iff {n d h n' d' h' : ℕ} :
    toDigits 10 n ++ (toDigits 10 d ++ toDigits 10 h) =
        toDigits 10 n' ++ (toDigits 10 d' ++ toDigits 10 h') ↔
      (n = n' ∧ tail d h = tail d' h') ∨ (0 < n ∧ Takes n (tail d h) n' (tail d' h')) ∨
        (0 < n' ∧ Takes n' (tail d' h') n (tail d h)) := by
  rcases Nat.eq_zero_or_pos n with rfl | hn <;> rcases Nat.eq_zero_or_pos n' with rfl | hn'
  · rw [List.append_cancel_left_eq, append_eq_iff_tail_eq]
    simp
  · refine iff_of_false (toDigits_zero_append_ne hn' _ _) ?_
    rintro (⟨rfl, -⟩ | ⟨hfalse, -⟩ | ⟨-, -, hzero, -⟩)
    · exact absurd hn' (lt_irrefl 0)
    · exact absurd hfalse (lt_irrefl 0)
    · have hpos : 0 < 10 ^ ((tail d' h').digits - (tail d h).digits) * n' :=
        Nat.mul_pos (Nat.pow_pos (by decide)) hn'
      exact absurd hzero (Nat.add_pos_left hpos _).ne
  · refine iff_of_false (fun heq => toDigits_zero_append_ne hn _ _ heq.symm) ?_
    rintro (⟨rfl, -⟩ | ⟨-, -, hzero, -⟩ | ⟨hfalse, -⟩)
    · exact absurd hn (lt_irrefl 0)
    · have hpos : 0 < 10 ^ ((tail d h).digits - (tail d' h').digits) * n :=
        Nat.mul_pos (Nat.pow_pos (by decide)) hn
      exact absurd hzero (Nat.add_pos_left hpos _).ne
    · exact absurd hfalse (lt_irrefl 0)
  · rw [toDigits_append_tail hn, toDigits_append_tail hn']
    have hnumber : ∀ {a b : ℕ}, toDigits 10 a = toDigits 10 b ↔ a = b :=
      ⟨toDigits_injective, fun heq => heq ▸ rfl⟩
    rw [hnumber, front_tail_iff (tail_lt d h) (tail_lt d' h')]
    simp only [hn, hn', true_and]

end AdDelivery.Decimal
