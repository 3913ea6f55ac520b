import AdDelivery.Core.Table
import AdDelivery.Core.Vector
import Mathlib.Algebra.BigOperators.Group.Finset.Basic
import Mathlib.Algebra.Ring.Int.Defs

/-!
# Totals

The value of a container is the sum of the values of its entries. Where the
default entry is worth nothing, growing a container does not change its value,
and a write changes it by what the written entry gains.
-/

namespace AdDelivery

open Table Finset

section Vector

variable {α : Type*} (f : α → Int)

/-- The sum of the values of a vector's entries. -/
def vectorTotal (xs : List α) : Int := (xs.map f).sum

theorem vectorTotal_growTo {d : α} (hd : f d = 0) (xs : List α) (n : Nat) :
    vectorTotal f (growTo xs n d) = vectorTotal f xs := by
  unfold vectorTotal growTo
  split
  · rename_i hlt
    rw [resize, List.take_of_length_le (by omega), List.map_append, List.sum_append,
      List.map_replicate, hd, List.sum_replicate, nsmul_zero, add_zero]
  · rfl

theorem vectorTotal_modify {g : α → α} {δ : Int} (hg : ∀ a, f (g a) = f a + δ) (xs : List α)
    {i : Nat} (hi : i < xs.length) : vectorTotal f (xs.modify i g) = vectorTotal f xs + δ := by
  induction xs generalizing i with
  | nil => exact absurd hi (Nat.not_lt_zero i)
  | cons x xs ih =>
    cases i with
    | zero =>
      simp only [vectorTotal, List.modify_zero_cons, List.map_cons, List.sum_cons, hg]
      omega
    | succ i =>
      have hrest := ih (Nat.lt_of_succ_lt_succ hi)
      simp only [vectorTotal, List.modify_succ_cons, List.map_cons, List.sum_cons] at hrest ⊢
      omega

end Vector

section Table

variable {κ ν : Type*} [DecidableEq κ] [Inhabited ν] (f : κ → ν → Int)

/-- The sum of the values of a table's entries; the value may depend on the key. -/
def tableTotal (m : Table κ ν) : Int := ∑ k ∈ m.keys, f k (get m k)

/-- A write changes the value of a table by what its entry gains. -/
theorem tableTotal_update (hf : ∀ k, f k default = 0) (m : Table κ ν) (k : κ) (g : ν → ν) :
    tableTotal f (update m k g) = tableTotal f m + (f k (g (get m k)) - f k (get m k)) := by
  have hother : ∀ k' ∈ m.keys.erase k,
      f k' (get (update m k g) k') = f k' (get m k') := by
    intro k' hk'
    rw [get_update_of_ne m g (ne_of_mem_erase hk')]
  have hself := get_update_self m k g
  unfold tableTotal
  rw [keys_update]
  by_cases hk : k ∈ m.keys
  · rw [insert_eq_of_mem hk, ← add_sum_erase _ _ hk, ← add_sum_erase _ _ hk,
      hself, sum_congr rfl hother]
    omega
  · have hget : get m k = default :=
      get_eq_default fun hmem => hk (Finmap.mem_keys.mpr hmem)
    rw [sum_insert hk, hself, hget, hf, ← erase_eq_of_notMem hk, sum_congr rfl hother]
    omega

end Table

end AdDelivery
