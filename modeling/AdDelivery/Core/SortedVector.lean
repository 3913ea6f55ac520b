import Mathlib.Data.List.Sort
import Mathlib.Order.Bounds.Basic

/-!
# Bounds in sorted vectors

`std::lower_bound` and `std::upper_bound` look for the place where a predicate ends that holds of
the first keys of a sorted vector. At that place stands the least key without the property, and
before it the greatest key with it.
-/

namespace AdDelivery

open List Bool

variable {κ : Type*}

/-- The first position whose key does not have the property, or the length. -/
def partitionPoint (p : κ → Bool) (keys : List κ) : ℕ := keys.findIdx fun key => !p key

/-- `std::lower_bound`. -/
def lowerBound [LinearOrder κ] (keys : List κ) (key : κ) : ℕ :=
  partitionPoint (fun k => decide (k < key)) keys

/-- `std::upper_bound`. -/
def upperBound [LinearOrder κ] (keys : List κ) (key : κ) : ℕ :=
  partitionPoint (fun k => !decide (key < k)) keys

variable {p : κ → Bool} {keys : List κ} {k : κ}

theorem partitionPoint_le_length : partitionPoint p keys ≤ keys.length :=
  findIdx_le_length

theorem partitionPoint_eq_length :
    partitionPoint p keys = keys.length ↔ ∀ x ∈ keys, p x = true := by
  rw [partitionPoint, findIdx_eq_length]
  simp only [not_eq_false']

/-- The end is reached if all keys have the property. -/
theorem getElem?_partitionPoint_eq_none :
    keys[partitionPoint p keys]? = none ↔ ∀ x ∈ keys, p x = true := by
  rw [List.getElem?_eq_none_iff, ← partitionPoint_eq_length]
  exact ⟨partitionPoint_le_length.antisymm, fun h => h.ge⟩

theorem of_lt_partitionPoint {i : ℕ} (hi : i < partitionPoint p keys) (hk : keys[i]? = some k) :
    p k = true := by
  obtain ⟨hlt, rfl⟩ := List.getElem?_eq_some_iff.mp hk
  simpa using not_of_lt_findIdx hi

theorem not_at_partitionPoint (hk : keys[partitionPoint p keys]? = some k) : p k = false := by
  obtain ⟨hlt, rfl⟩ := List.getElem?_eq_some_iff.mp hk
  have hfail : (!p keys[partitionPoint p keys]) = true := findIdx_getElem (w := hlt)
  simpa only [not_eq_true'] using hfail

/-- There is a key before the point unless it is the beginning. -/
theorem exists_before_partitionPoint (hpos : partitionPoint p keys ≠ 0) :
    ∃ k, keys[partitionPoint p keys - 1]? = some k := by
  have hle : partitionPoint p keys ≤ keys.length := partitionPoint_le_length
  exact ⟨_, getElem?_eq_getElem (by omega)⟩

section Order

variable [LinearOrder κ]

/-- Keys that are listed once each are strictly ascending after `std::sort`. -/
theorem pairwise_lt_insertionSort (h : keys.Nodup) :
    (keys.insertionSort (· ≤ ·)).Pairwise (· < ·) := by
  have hnodup := (perm_insertionSort (· ≤ ·) keys).nodup_iff.mpr h
  exact (pairwise_insertionSort (· ≤ ·) keys).imp₂ (fun _ _ => lt_of_le_of_ne) hnodup

section

variable (hinc : keys.Pairwise (· < ·))
include hinc

/-- In a sorted vector a smaller key has a smaller position. -/
theorem index_le {i j : ℕ} {a b : κ} (ha : keys[i]? = some a) (hb : keys[j]? = some b) :
    a ≤ b ↔ i ≤ j := by
  obtain ⟨hi, rfl⟩ := List.getElem?_eq_some_iff.mp ha
  obtain ⟨hj, rfl⟩ := List.getElem?_eq_some_iff.mp hb
  have hlt := pairwise_iff_getElem.mp hinc
  rcases Nat.lt_trichotomy i j with h | rfl | h
  · exact ⟨fun _ => h.le, fun _ => (hlt i j hi hj h).le⟩
  · exact ⟨fun _ => le_rfl, fun _ => le_rfl⟩
  · exact ⟨fun hle => absurd (hlt j i hj hi h) hle.not_gt, fun hle => absurd hle h.not_ge⟩

theorem isLeast_head (hk : keys[0]? = some k) : IsLeast {x | x ∈ keys} k := by
  refine ⟨mem_of_getElem? hk, fun x hx => ?_⟩
  obtain ⟨i, hx⟩ := mem_iff_getElem?.mp hx
  exact (index_le hinc hk hx).mpr (Nat.zero_le i)

theorem isGreatest_last (hk : keys.getLast? = some k) : IsGreatest {x | x ∈ keys} k := by
  rw [getLast?_eq_getElem?] at hk
  refine ⟨mem_of_getElem? hk, fun x hx => ?_⟩
  obtain ⟨i, hx⟩ := mem_iff_getElem?.mp hx
  refine (index_le hinc hx hk).mpr ?_
  have := (List.getElem?_eq_some_iff.mp hx).1
  omega

/-- At the point stands the least key without the property. -/
theorem isLeast_partitionPoint (hk : keys[partitionPoint p keys]? = some k) :
    IsLeast {x ∈ keys | p x = false} k := by
  refine ⟨⟨mem_of_getElem? hk, not_at_partitionPoint hk⟩, fun x hx => ?_⟩
  obtain ⟨i, hi⟩ := mem_iff_getElem?.mp hx.1
  rw [index_le hinc hk hi]
  by_contra hlt
  exact absurd (of_lt_partitionPoint (not_le.mp hlt) hi) (by rw [hx.2]; exact false_ne_true)

end

section Lower

variable (hlower : ∀ x ∈ keys, ∀ y ∈ keys, x ≤ y → p y = true → p x = true)
include hlower

theorem index_lt_partitionPoint (hinc : keys.Pairwise (· < ·)) {i : ℕ} (hk : keys[i]? = some k)
    (hp : p k = true) : i < partitionPoint p keys := by
  by_contra hle
  have hi := (List.getElem?_eq_some_iff.mp hk).1
  have hpoint : partitionPoint p keys < keys.length := (not_lt.mp hle).trans_lt hi
  have hat := getElem?_eq_getElem hpoint
  have hpx := hlower _ (mem_of_getElem? hat) k (mem_of_getElem? hk)
    ((index_le hinc hat hk).mpr (not_lt.mp hle)) hp
  rw [not_at_partitionPoint hat] at hpx
  exact false_ne_true hpx

/-- The point is the beginning if no key has the property. -/
theorem partitionPoint_eq_zero (hinc : keys.Pairwise (· < ·)) :
    partitionPoint p keys = 0 ↔ ∀ x ∈ keys, p x = false := by
  constructor
  · intro hzero x hx
    obtain ⟨i, hi⟩ := mem_iff_getElem?.mp hx
    by_contra hp
    have := index_lt_partitionPoint hlower hinc hi (by simpa using hp)
    omega
  · intro hnone
    by_contra hpos
    have hlt : 0 < keys.length := (Nat.pos_of_ne_zero hpos).trans_le partitionPoint_le_length
    have hhead := getElem?_eq_getElem hlt
    have hp := of_lt_partitionPoint (Nat.pos_of_ne_zero hpos) hhead
    rw [hnone _ (mem_of_getElem? hhead)] at hp
    exact false_ne_true hp

/-- Before the point stands the greatest key with the property. -/
theorem isGreatest_before_partitionPoint (hinc : keys.Pairwise (· < ·))
    (hpos : partitionPoint p keys ≠ 0) (hk : keys[partitionPoint p keys - 1]? = some k) :
    IsGreatest {x ∈ keys | p x = true} k := by
  refine ⟨⟨mem_of_getElem? hk, of_lt_partitionPoint (by omega) hk⟩, fun x hx => ?_⟩
  obtain ⟨i, hi⟩ := mem_iff_getElem?.mp hx.1
  rw [index_le hinc hi hk]
  have := index_lt_partitionPoint hlower hinc hi hx.2
  omega

end Lower

section Bounds

variable {bound : κ}

theorem lowerBound_eq_zero (hinc : keys.Pairwise (· < ·)) :
    lowerBound keys bound = 0 ↔ ∀ x ∈ keys, bound ≤ x := by
  rw [lowerBound, partitionPoint_eq_zero (fun x _ y _ hle hlt =>
    decide_eq_true (hle.trans_lt (of_decide_eq_true hlt))) hinc]
  simp only [decide_eq_false_iff_not, not_lt]

theorem isLeast_lowerBound (hinc : keys.Pairwise (· < ·))
    (hk : keys[lowerBound keys bound]? = some k) : IsLeast {x ∈ keys | bound ≤ x} k := by
  have h := isLeast_partitionPoint hinc hk
  simpa only [decide_eq_false_iff_not, not_lt] using h

theorem lowerBound_le_length : lowerBound keys bound ≤ keys.length :=
  partitionPoint_le_length

theorem lt_of_lowerBound_eq_length (h : lowerBound keys bound = keys.length) :
    ∀ x ∈ keys, x < bound := fun x hx =>
  of_decide_eq_true (partitionPoint_eq_length.mp h x hx)

theorem exists_before_lowerBound (hpos : lowerBound keys bound ≠ 0) :
    ∃ k, keys[lowerBound keys bound - 1]? = some k :=
  exists_before_partitionPoint hpos

theorem isGreatest_before_lowerBound (hinc : keys.Pairwise (· < ·))
    (hpos : lowerBound keys bound ≠ 0) (hk : keys[lowerBound keys bound - 1]? = some k) :
    IsGreatest {x ∈ keys | x < bound} k := by
  have h := isGreatest_before_partitionPoint (fun x _ y _ hle hlt =>
    decide_eq_true (hle.trans_lt (of_decide_eq_true hlt))) hinc hpos hk
  simpa only [decide_eq_true_eq] using h

theorem upperBound_eq_zero (hinc : keys.Pairwise (· < ·)) :
    upperBound keys bound = 0 ↔ ∀ x ∈ keys, bound < x := by
  rw [upperBound, partitionPoint_eq_zero (fun x _ y _ hle hlt => ?_) hinc]
  · simp only [not_eq_false', decide_eq_true_eq]
  · simp only [not_eq_true', decide_eq_false_iff_not, not_lt] at hlt ⊢
    exact hle.trans hlt

theorem exists_before_upperBound (hpos : upperBound keys bound ≠ 0) :
    ∃ k, keys[upperBound keys bound - 1]? = some k :=
  exists_before_partitionPoint hpos

theorem isGreatest_before_upperBound (hinc : keys.Pairwise (· < ·))
    (hpos : upperBound keys bound ≠ 0) (hk : keys[upperBound keys bound - 1]? = some k) :
    IsGreatest {x ∈ keys | x ≤ bound} k := by
  have h := isGreatest_before_partitionPoint (fun x _ y _ hle hlt => ?_) hinc hpos hk
  · simpa only [not_eq_true', decide_eq_false_iff_not, not_lt] using h
  · simp only [not_eq_true', decide_eq_false_iff_not, not_lt] at hlt ⊢
    exact hle.trans hlt

end Bounds

end Order

end AdDelivery
