import Mathlib.Algebra.GroupWithZero.Nat
import Mathlib.Algebra.Ring.Divisibility.Basic
import Mathlib.Algebra.Ring.Int.Defs

/-!
# 32-bit integers

What a machine word keeps of an integer, in two's complement, and when that is the
integer itself.
-/

namespace AdDelivery

/-- The integer is a value of a signed 32-bit word. -/
def FitsInt32 (n : ℤ) : Prop := -2 ^ 31 ≤ n ∧ n < 2 ^ 31

instance (n : ℤ) : Decidable (FitsInt32 n) := inferInstanceAs (Decidable (_ ∧ _))

/-- What is left of a number in two's complement. -/
def toInt32 (n : ℤ) : ℤ := n.bmod (2 ^ 32)

/-- A value of the word is kept. -/
theorem toInt32_eq {n : ℤ} (h : FitsInt32 n) : toInt32 n = n := by
  obtain ⟨hlow, hhigh⟩ := h
  exact Int.bmod_eq_of_le_mul_two (by omega) (by omega)

/-- What is kept is a value of the word. -/
theorem fitsInt32_toInt32 (n : ℤ) : FitsInt32 (toInt32 n) := by
  have hlow := Int.le_bmod (x := n) (m := 2 ^ 32) (by decide)
  have hhigh := Int.bmod_lt (x := n) (m := 2 ^ 32) (by decide)
  rw [FitsInt32, toInt32]
  omega

/-- A word keeps `k` of `n` exactly when `k` fits and differs by whole turns of the word. -/
theorem toInt32_eq_iff {n k : ℤ} : toInt32 n = k ↔ FitsInt32 k ∧ 2 ^ 32 ∣ n - k := by
  rw [toInt32, Int.bmod_eq_iff (by decide), FitsInt32, dvd_sub_comm, and_assoc]
  rfl

/-- Adding to a word is exact addition, then two's complement. -/
theorem toInt_add_ofInt (word : Int32) (n : ℤ) :
    (word + Int32.ofInt n).toInt = toInt32 (word.toInt + n) := by
  rw [Int32.toInt_add, Int32.toInt_ofInt, Int.add_bmod_bmod]
  rfl

end AdDelivery
