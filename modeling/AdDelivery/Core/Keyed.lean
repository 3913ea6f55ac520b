import Mathlib.Data.List.Basic
import Mathlib.Order.Lattice

/-!
# Replaying a log of keyed entries

Every entry of a log changes the value of its own key. What a key has at the end depends on its
own entries only, and a log may be cut into parts that hold the keys apart.
-/

namespace AdDelivery

open List

variable {κ ν β : Type*} [DecidableEq κ] {key : β → κ} {step : ν → β → ν}

/-- The values of all keys after the log. -/
def replay (key : β → κ) (step : ν → β → ν) (log : List β) (initial : κ → ν) : κ → ν :=
  log.foldl
    (fun values entry => Function.update values (key entry) (step (values (key entry)) entry))
    initial

/-- A key goes through its own entries. -/
theorem replay_apply (log : List β) (initial : κ → ν) (k : κ) : replay key step log initial k =
      (log.filter fun entry => decide (key entry = k)).foldl step (initial k) := by
  induction log generalizing initial with
  | nil => rfl
  | cons entry log ih =>
    rw [replay, foldl_cons, ← replay, ih]
    by_cases hk : key entry = k
    · rw [filter_cons_of_pos (by simpa using hk), foldl_cons, ← hk, Function.update_self]
    · rw [filter_cons_of_neg (by simpa using hk), Function.update_of_ne (Ne.symm hk)]

/-- Of the parts of a log, one has the entries that are looked for. -/
theorem flatMap_range_single {parts : ℕ → List β} {n i : ℕ} (hi : i < n)
    (hother : ∀ j < n, j ≠ i → parts j = []) : (List.range n).flatMap parts = parts i := by
  induction n with
  | zero => exact absurd hi (Nat.not_lt_zero i)
  | succ n ih =>
    rw [range_succ, flatMap_append, flatMap_singleton]
    rcases Nat.lt_succ_iff_lt_or_eq.mp hi with hlt | rfl
    · rw [hother n (Nat.lt_succ_self n) (Nat.ne_of_gt hlt), append_nil]
      exact ih hlt fun j hj => hother j (Nat.lt_succ_of_lt hj)
    · have hnil : (List.range i).flatMap parts = [] := by
        rw [flatMap_eq_nil_iff]
        intro j hj
        have hj := mem_range.mp hj
        exact hother j (Nat.lt_succ_of_lt hj) (Nat.ne_of_lt hj)
      rw [hnil, nil_append]

end AdDelivery
