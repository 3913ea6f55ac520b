import Mathlib.Data.List.Basic

/-!
# Successions

From each of some lists one element is chosen, and neighbours have to be related. The choice can
be made from the first list on, each element after the one before it.
-/

namespace AdDelivery

open Nat

variable {α : Type*}

/-- One element of each list can be chosen so that neighbours are related. -/
def HasSuccession (R : ℕ → α → α → Prop) (lists : List (List α)) : Prop :=
  ∃ p : ℕ → α, (∀ i (h : i < lists.length), p i ∈ lists[i]) ∧
    ∀ i, i + 1 < lists.length → R i (p i) (p (i + 1))

/-- Behind an element, one element of each list can be chosen so that neighbours are related. -/
def Continues : List (List α) → (ℕ → α → α → Prop) → α → Prop
  | [], _, _ => True
  | l :: lists, R, a => ∃ b ∈ l, R 0 a b ∧ Continues lists (fun i => R (i + 1)) b

variable {R : ℕ → α → α → Prop} {lists : List (List α)} {a : α}

theorem continues_of_choice {p : ℕ → α} (h : ∀ i (hi : i < lists.length), p (i + 1) ∈ lists[i])
    (hR : ∀ i, i < lists.length → R i (p i) (p (i + 1))) : Continues lists R (p 0) := by
  induction lists generalizing p R with
  | nil => trivial
  | cons l lists ih =>
    refine ⟨p 1, h 0 (succ_pos _), hR 0 (succ_pos _), ?_⟩
    refine ih (p := fun i => p (i + 1)) (fun i hi => ?_) fun i hi => ?_
    · exact h (i + 1) (succ_lt_succ hi)
    · exact hR (i + 1) (succ_lt_succ hi)

theorem Continues.exists_choice (h : Continues lists R a) :
    ∃ p : ℕ → α, p 0 = a ∧ (∀ i (hi : i < lists.length), p (i + 1) ∈ lists[i]) ∧
      ∀ i, i < lists.length → R i (p i) (p (i + 1)) := by
  induction lists generalizing R a with
  | nil => exact ⟨fun _ => a, rfl, fun i hi => absurd hi (not_lt_zero i),
      fun i hi => absurd hi (not_lt_zero i)⟩
  | cons l lists ih =>
    obtain ⟨b, hb, hab, hrest⟩ := h
    obtain ⟨p, rfl, hmem, hR⟩ := ih hrest
    refine ⟨fun i => i.casesOn a p, rfl, fun i hi => ?_, fun i hi => ?_⟩
    · cases i with
      | zero => exact hb
      | succ i => exact hmem i (lt_of_succ_lt_succ hi)
    · cases i with
      | zero => exact hab
      | succ i => exact hR i (lt_of_succ_lt_succ hi)

/-- The elements can be chosen from the first list on. -/
theorem hasSuccession_cons {l : List α} :
    HasSuccession R (l :: lists) ↔ ∃ a ∈ l, Continues lists R a := by
  constructor
  · rintro ⟨p, hmem, hR⟩
    refine ⟨p 0, hmem 0 (succ_pos _), continues_of_choice (fun i hi => ?_) fun i hi => ?_⟩
    · exact hmem (i + 1) (succ_lt_succ hi)
    · exact hR i (succ_lt_succ hi)
  · rintro ⟨a, ha, hcontinues⟩
    obtain ⟨p, rfl, hmem, hR⟩ := hcontinues.exists_choice
    refine ⟨p, fun i hi => ?_, fun i hi => hR i (lt_of_succ_lt_succ hi)⟩
    cases i with
    | zero => exact ha
    | succ i => exact hmem i (lt_of_succ_lt_succ hi)

end AdDelivery
