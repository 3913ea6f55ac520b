import Mathlib.Data.List.Forall2
import Mathlib.Order.Nat

/-!
# Odometers

An odometer has a digit for each of its bases, the last one being the fastest. Advancing it
sets the digits at their last value to zero from the end on and counts up the one before
them. From any position it comes to every later one exactly once.
-/

namespace AdDelivery.Odometer

open Nat Option

/-- Count up; `none` if all digits are at their last value. -/
def advance : List ℕ → List ℕ → Option (List ℕ)
  | [], _ => none
  | _ :: _, [] => none
  | base :: bases, digit :: digits =>
    match advance bases digits with
    | some digits => some (digit :: digits)
    | none => if base - 1 ≤ digit then none else some ((digit + 1) :: digits.map fun _ => 0)

/-- The number of positions. A base without values counts as one with one value. -/
def total : List ℕ → ℕ
  | [] => 1
  | base :: bases => max 1 base * total bases

/-- The number of positions after this one. -/
def remaining : List ℕ → List ℕ → ℕ
  | [], _ => 0
  | _ :: _, [] => 0
  | base :: bases, digit :: digits => (base - 1 - digit) * total bases + remaining bases digits

/-- Every digit is below its base. -/
def Valid (bases digits : List ℕ) : Prop := List.Forall₂ (· < ·) digits bases

theorem remaining_lt_total (bases digits : List ℕ) : remaining bases digits < total bases := by
  induction bases generalizing digits with
  | nil => exact Nat.one_pos
  | cons base bases ih =>
    cases digits with
    | nil =>
      have hpos := Nat.zero_lt_of_lt (ih [])
      exact Nat.mul_pos (Nat.lt_of_lt_of_le Nat.one_pos (le_max_left _ _)) hpos
    | cons digit digits =>
      have hlt := ih digits
      have hle : (base - 1 - digit + 1) * total bases ≤ max 1 base * total bases :=
        mul_le_mul_right _ (by omega)
      rw [succ_mul] at hle
      rw [remaining, total]
      omega

theorem remaining_zeros {bases digits : List ℕ} (h : digits.length = bases.length) :
    remaining bases (digits.map fun _ => 0) + 1 = total bases := by
  induction bases generalizing digits with
  | nil => rfl
  | cons base bases ih =>
    obtain _ | ⟨digit, digits⟩ := digits
    · exact absurd h.symm (succ_ne_zero _)
    · have hrest := ih (succ.inj h)
      have hbase : base - 1 - 0 + 1 = max 1 base := by omega
      rw [List.map_cons, remaining, total, ← hbase, Nat.succ_mul, Nat.add_assoc, hrest]

variable {bases digits digits' : List ℕ}

/-- What counting up does to the first digit. -/
theorem advance_cons_cases {base digit : ℕ}
    (h : advance (base :: bases) (digit :: digits) = some digits') :
    (∃ rest, advance bases digits = some rest ∧ digits' = digit :: rest) ∨
      (advance bases digits = none ∧ digit < base - 1 ∧
        digits' = (digit + 1) :: digits.map fun _ => 0) := by
  rw [advance] at h
  cases hrest : advance bases digits with
  | some rest =>
    rw [hrest] at h
    exact .inl ⟨rest, rfl, (some.inj h).symm⟩
  | none =>
    rw [hrest] at h
    dsimp only at h
    split at h
    · exact absurd h.symm (some_ne_none _)
    · rename_i hlt
      exact .inr ⟨rfl, not_le.mp hlt, (some.inj h).symm⟩

/-- Counting up leaves fewer positions. -/
theorem remaining_advance_lt (h : advance bases digits = some digits') :
    remaining bases digits' < remaining bases digits := by
  induction bases generalizing digits digits' with
  | nil => exact absurd h.symm (some_ne_none _)
  | cons base bases ih =>
    obtain _ | ⟨digit, digits⟩ := digits
    · exact absurd h.symm (some_ne_none _)
    · obtain ⟨rest, hrest, rfl⟩ | ⟨-, hlt, rfl⟩ := advance_cons_cases h
      · exact Nat.add_lt_add_left (ih hrest) _
      · have hzeros := remaining_lt_total bases (digits.map fun _ => 0)
        have hstep : base - 1 - digit = (base - 1 - (digit + 1)) + 1 := by omega
        rw [remaining, remaining, hstep, succ_mul]
        omega

theorem valid_cons {base digit : ℕ} {bases digits : List ℕ} :
    Valid (base :: bases) (digit :: digits) ↔ digit < base ∧ Valid bases digits :=
  List.forall₂_cons

theorem Valid.zeros {bases digits : List ℕ} (h : Valid bases digits) :
    Valid bases (digits.map fun _ => 0) := by
  refine List.forall₂_map_left_iff.mpr (h.imp fun digit base hlt => ?_)
  exact zero_lt_of_lt hlt

/-- At the last position nothing remains. -/
theorem remaining_of_advance_none {bases digits : List ℕ} (hvalid : Valid bases digits)
    (h : advance bases digits = none) : remaining bases digits = 0 := by
  induction hvalid with
  | nil => rfl
  | @cons digit base digits bases hlt hvalid ih =>
    rw [advance] at h
    cases hrest : advance bases digits with
    | some rest =>
      rw [hrest] at h
      exact absurd h (some_ne_none _)
    | none =>
      rw [hrest] at h
      dsimp only at h
      split at h
      · have hlast : base - 1 - digit = 0 := by omega
        rw [remaining, ih hrest, hlast, Nat.zero_mul]
      · exact absurd h (Option.some_ne_none _)

/-- Counting up goes to the next position. -/
theorem remaining_advance (hvalid : Valid bases digits) (h : advance bases digits = some digits') :
    Valid bases digits' ∧ remaining bases digits' + 1 = remaining bases digits := by
  induction hvalid generalizing digits' with
  | nil => exact absurd h.symm (some_ne_none _)
  | @cons digit base digits bases hlt hvalid ih =>
    obtain ⟨rest, hrest, rfl⟩ | ⟨hnone, hdigit, rfl⟩ := advance_cons_cases h
    · obtain ⟨hvalid', hremaining⟩ := ih hrest
      refine ⟨valid_cons.mpr ⟨hlt, hvalid'⟩, ?_⟩
      rw [remaining, remaining, ← hremaining, Nat.add_assoc]
    · refine ⟨valid_cons.mpr ⟨by omega, Valid.zeros hvalid⟩, ?_⟩
      have hzeros := remaining_zeros (List.Forall₂.length_eq hvalid)
      have hend := remaining_of_advance_none hvalid hnone
      have hstep : base - 1 - digit = (base - 1 - (digit + 1)) + 1 := by omega
      rw [remaining, remaining, hstep, succ_mul]
      omega

/-- A position is known from what remains after it. -/
theorem remaining_inj (hvalid : Valid bases digits) (hvalid' : Valid bases digits')
    (h : remaining bases digits = remaining bases digits') : digits = digits' := by
  induction hvalid generalizing digits' with
  | nil => exact (List.forall₂_nil_right_iff.mp hvalid').symm
  | @cons digit base digits bases hlt hvalid ih =>
    obtain _ | @⟨digit', _, digits', _, hlt', hvalid'⟩ := hvalid'
    rw [remaining, remaining] at h
    have hsame : base - 1 - digit = base - 1 - digit' := by
      have hbound := remaining_lt_total bases digits
      have hbound' := remaining_lt_total bases digits'
      by_contra hne
      rcases lt_or_gt_of_ne hne with hless | hless
      · have hle := mul_le_mul_right (total bases) (succ_le_of_lt hless)
        rw [succ_mul] at hle
        omega
      · have hle := mul_le_mul_right (total bases) (succ_le_of_lt hless)
        rw [succ_mul] at hle
        omega
    rw [hsame] at h
    rw [ih hvalid' (Nat.add_left_cancel h), show digit = digit' by omega]

end AdDelivery.Odometer
