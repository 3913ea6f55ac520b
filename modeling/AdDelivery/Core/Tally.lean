import Mathlib.Algebra.BigOperators.Group.Finset.Piecewise

/-!
# Counters behind a truncating vector

A row of counters where every hit names a position, adds to it, and drops all
positions above it. The row records every hit exactly when the hit positions
never decrease: one lower position erases what was counted above it.
-/

namespace AdDelivery

open List

variable {σ ι : Type*}

/-- One valid hit: if it touches the row, its position may count it, lower ones stay
and higher ones are dropped. -/
structure TruncatingTally (hit : σ → ι → σ) (read : σ → Nat → Int) (valid : ι → Prop)
    (touches : ι → Bool) (pos : ι → Nat) (counted : ι → Bool) : Prop where
  read_hit : ∀ s x i, valid x → read (hit s x) i =
    if touches x then
      if i = pos x then read s i + (if counted x then 1 else 0)
      else if i < pos x then read s i else 0
    else read s i

namespace TruncatingTally

variable {hit : σ → ι → σ} {read : σ → Nat → Int} {valid : ι → Prop} {touches : ι → Bool}
  {pos : ι → Nat} {counted : ι → Bool}

private theorem countP_snoc (p : ι → Bool) (xs : List ι) (x : ι) :
    ((xs ++ [x]).countP p : Int) = xs.countP p + if p x then 1 else 0 := by
  rw [countP_append, countP_singleton]
  split <;> simp

/-- While positions never decrease, truncation drops only positions without hits. -/
theorem read_eq_countP (h : TruncatingTally hit read valid touches pos counted) {s : σ}
    (hs : ∀ i, read s i = 0) (xs : List ι) (hv : ∀ x ∈ xs, valid x)
    (hxs : (xs.map pos).Pairwise (· ≤ ·)) (i : Nat) : read (xs.foldl hit s) i =
      xs.countP (fun x => touches x && (decide (pos x = i) && counted x)) := by
  induction xs using List.reverseRecOn generalizing i with
  | nil => exact hs i
  | append_singleton xs x ih =>
    rw [map_append, pairwise_append] at hxs
    obtain ⟨hsorted, -, hle⟩ := hxs
    have hlast : ∀ y ∈ xs, pos y ≤ pos x := by
      intro y hy
      exact hle _ (mem_map_of_mem hy) _ (by simp)
    rw [foldl_append, foldl_cons, foldl_nil, h.read_hit _ _ _ (hv x (by simp)),
      countP_snoc, ih (fun y hy => hv y (mem_append_left _ hy)) hsorted i]
    by_cases ht : touches x
    · rcases Nat.lt_trichotomy i (pos x) with hi | hi | hi
      · simp [ht, hi, Nat.ne_of_lt hi, Nat.ne_of_gt hi]
      · subst hi
        simp [ht]
      · have hzero : xs.countP (fun x => touches x && (decide (pos x = i) && counted x)) = 0 := by
          rw [countP_eq_zero]
          intro y hy
          have := hlast y hy
          simp only [Bool.and_eq_true, decide_eq_true_eq, not_and]
          omega
        have hne : i ≠ pos x := by omega
        simp [ht, hne, hne.symm, hzero, Nat.not_lt_of_gt hi]
    · simp [ht]

/-- A read is never negative and never above the number of hits. -/
theorem read_bounds (h : TruncatingTally hit read valid touches pos counted) {s : σ}
    (hs : ∀ i, read s i = 0) (xs : List ι) (hv : ∀ x ∈ xs, valid x) (i : Nat) :
    0 ≤ read (xs.foldl hit s) i ∧ read (xs.foldl hit s) i ≤
        xs.countP (fun x => touches x && (decide (pos x = i) && counted x)) := by
  induction xs using List.reverseRecOn with
  | nil => simp [hs i]
  | append_singleton xs x ih =>
    have ih := ih fun y hy => hv y (mem_append_left _ hy)
    rw [foldl_append, foldl_cons, foldl_nil, h.read_hit _ _ _ (hv x (by simp)),
      countP_snoc]
    by_cases ht : touches x
    · by_cases hi : i = pos x
      · by_cases hc : counted x <;> simp [ht, hi, hc] at ih ⊢ <;> omega
      · have hne : pos x ≠ i := fun he => hi he.symm
        simp only [ht, hi, hne, decide_eq_true_eq, Bool.true_and, if_true, if_false,
          Bool.and_eq_true, false_and] at ih ⊢
        split <;> omega
    · simpa [ht] using ih

/-- When every hit is touched and counted, a complete record forces the order of the hits. -/
theorem read_eq_countP_iff
    (h : TruncatingTally hit read valid (fun _ => true) pos (fun _ => true)) {s : σ}
    (hs : ∀ i, read s i = 0) (xs : List ι) (hv : ∀ x ∈ xs, valid x) :
    (∀ i, read (xs.foldl hit s) i = xs.countP (fun x => decide (pos x = i))) ↔
      (xs.map pos).Pairwise (· ≤ ·) := by
  constructor
  · intro hread
    induction xs using List.reverseRecOn with
    | nil => exact List.Pairwise.nil
    | append_singleton xs x ih =>
      have hvx := hv x (by simp)
      have hvxs : ∀ y ∈ xs, valid y := fun y hy => hv y (mem_append_left _ hy)
      have hstep : ∀ i, read (hit (xs.foldl hit s) x) i =
          xs.countP (fun x => decide (pos x = i)) + if decide (pos x = i) then 1 else 0 := by
        intro i
        have hi := hread i
        rwa [foldl_append, foldl_cons, countP_snoc] at hi
      have hlast : ∀ y ∈ xs, pos y ≤ pos x := by
        intro y hy
        by_contra hlt
        have hi := hstep (pos y)
        rw [h.read_hit _ _ _ hvx] at hi
        have hpos : 0 < xs.countP (fun z => decide (pos z = pos y)) :=
          countP_pos_iff.mpr ⟨y, hy, by simp⟩
        have hne : pos y ≠ pos x := by omega
        simp only [if_true, hne, hne.symm, if_false, decide_eq_true_eq,
          show ¬ pos y < pos x by omega] at hi
        omega
      have hprev : ∀ i, read (xs.foldl hit s) i = xs.countP (fun x => decide (pos x = i)) := by
        intro i
        have hi := hstep i
        rw [h.read_hit _ _ _ hvx] at hi
        have hb := h.read_bounds hs xs hvxs i
        simp only [Bool.and_true, Bool.true_and] at hb
        rcases Nat.lt_trichotomy i (pos x) with hlt | heq | hgt
        · omega
        · subst heq
          simp at hi
          omega
        · simp only [if_true, Nat.ne_of_lt hgt, Nat.ne_of_gt hgt, if_false,
            Nat.not_lt_of_gt hgt, decide_eq_true_eq] at hi
          omega
      rw [map_append, pairwise_append]
      refine ⟨ih hvxs hprev, pairwise_singleton _ _, ?_⟩
      intro a ha b hb
      obtain ⟨y, hy, rfl⟩ := mem_map.mp ha
      obtain ⟨z, hz, rfl⟩ := mem_map.mp hb
      rw [mem_singleton.mp hz]
      exact hlast y hy
  · intro hsorted i
    simpa only [Bool.and_true, Bool.true_and] using h.read_eq_countP hs xs hv hsorted i

end TruncatingTally

/-- Counting key by key over a set that holds every key counts everything. -/
theorem sum_countP_key {κ : Type*} [DecidableEq κ] (key : ι → κ) (p : ι → Bool) (K : Finset κ)
    (xs : List ι) (h : ∀ x ∈ xs, key x ∈ K) :
    ∑ k ∈ K, (xs.countP (fun x => decide (key x = k) && p x) : Int) = xs.countP p := by
  induction xs with
  | nil => simp
  | cons x xs ih =>
    have hx := h x (by simp)
    have hcons : ∀ k, ((x :: xs).countP (fun x => decide (key x = k) && p x) : Int) =
        xs.countP (fun x => decide (key x = k) && p x) +
          if k = key x then (if p x then 1 else 0) else 0 := by
      intro k
      by_cases hk : key x = k
      · subst hk
        by_cases hp : p x <;> simp [hp]
      · simp [hk, Ne.symm hk]
    rw [Finset.sum_congr rfl fun k _ => hcons k, Finset.sum_add_distrib,
      ih fun y hy => h y (mem_cons_of_mem x hy), Finset.sum_ite_eq' K (key x),
      if_pos hx, countP_cons]
    split <;> simp

end AdDelivery
