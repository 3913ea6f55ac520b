import Mathlib.Data.List.Sort
import Mathlib.Data.Set.Basic

/-!
# The greatest elements of a list

A bounded queue keeps the `k` greatest elements it has been given. What it holds does not depend
on the order they came in, and a queue may be filled from queues of the same bound instead of
from all elements.
-/

namespace AdDelivery

section TopK

open List

variable {α : Type*} [LinearOrder α]

/-- The `k` greatest elements, the greatest first. -/
def topK (k : ℕ) (xs : List α) : List α := (xs.insertionSort (· ≥ ·)).take k

variable (k : ℕ)

theorem topK_nil : topK k ([] : List α) = [] := take_nil

theorem pairwise_topK (xs : List α) : (topK k xs).Pairwise (· ≥ ·) :=
  (pairwise_insertionSort _ xs).sublist (take_sublist k _)

theorem topK_perm {xs ys : List α} (h : xs.Perm ys) : topK k xs = topK k ys := by
  have hsort : xs.insertionSort (· ≥ ·) = ys.insertionSort (· ≥ ·) := by
    refine Perm.eq_of_pairwise' (pairwise_insertionSort _ xs)
      (pairwise_insertionSort _ ys) ?_
    exact ((perm_insertionSort _ xs).trans h).trans (perm_insertionSort _ ys).symm
  rw [topK, topK, hsort]

/-- Dropping what stands behind the first `k` does not change the first `k` after an insertion. -/
theorem take_orderedInsert_take (x : α) (k : ℕ) (l : List α) :
    ((l.take k).orderedInsert (· ≥ ·) x).take k = (l.orderedInsert (· ≥ ·) x).take k := by
  induction l generalizing k with
  | nil => rw [take_nil]
  | cons y l ih =>
    cases k with
    | zero => rw [take_zero, take_zero]
    | succ k =>
      rw [take_succ_cons, orderedInsert_cons, orderedInsert_cons]
      split
      · rw [take_succ_cons, take_succ_cons]
        cases k with
        | zero => rfl
        | succ k =>
          rw [take_succ_cons, take_succ_cons, take_take, Nat.min_eq_left (Nat.le_succ k)]
      · rw [take_succ_cons, take_succ_cons, ih]

/-- One element more. -/
theorem topK_cons (x : α) (xs : List α) :
    topK k (x :: xs) = ((topK k xs).orderedInsert (· ≥ ·) x).take k := by
  rw [topK, topK, insertionSort_cons, take_orderedInsert_take]

theorem topK_topK (xs : List α) : topK k (topK k xs) = topK k xs := by
  rw [topK, (pairwise_topK k xs).insertionSort_eq, topK, take_take, Nat.min_self]

variable (xs ys : List α)

/-- Only the greatest elements of a part count. -/
theorem topK_append_topK : topK k (xs ++ topK k ys) = topK k (xs ++ ys) := by
  induction xs with
  | nil => exact topK_topK k ys
  | cons x xs ih => rw [cons_append, cons_append, topK_cons, topK_cons, ih]

/-- Filling a queue, one element after another. -/
theorem foldl_orderedInsert_topK :
    xs.foldl (fun queue x => (queue.orderedInsert (· ≥ ·) x).take k) (topK k ys) =
      topK k (xs ++ ys) := by
  induction xs generalizing ys with
  | nil => rfl
  | cons x xs ih =>
    rw [foldl_cons, ← topK_cons, ih]
    exact topK_perm k perm_middle

/-- Filling a queue from another one of the same bound. -/
theorem foldl_orderedInsert_drain :
    (topK k xs).reverse.foldl (fun queue x => (queue.orderedInsert (· ≥ ·) x).take k)
      (topK k ys) = topK k (ys ++ xs) := by
  rw [foldl_orderedInsert_topK, ← topK_append_topK k ys xs]
  exact topK_perm k (((reverse_perm _).append_right ys).trans perm_append_comm)

theorem length_topK (xs : List α) : (topK k xs).length = min k xs.length := by
  rw [topK, length_take, length_insertionSort]

theorem countP_lt_eq_zero {x y : α} {l : List α} (h : ∀ z ∈ l, y ≥ z) (hxy : y ≤ x) :
    l.countP (fun z => decide (x < z)) = 0 := by
  rw [countP_eq_zero]
  intro z hz
  simpa using (h z hz).trans hxy

theorem getLast?_take_le_iff {l : List α} (hl : l.Pairwise (· ≥ ·)) {x : α} (hx : x ∈ l)
    (k : ℕ) {top : α} (htop : (l.take (k + 1)).getLast? = some top) :
    top ≤ x ↔ l.countP (fun z => decide (x < z)) < k + 1 := by
  induction k generalizing l with
  | zero =>
    cases l with
    | nil => cases hx
    | cons y l =>
      cases htop
      rw [pairwise_cons] at hl
      rw [countP_cons]
      constructor
      · intro hle
        rw [countP_lt_eq_zero hl.1 hle, if_neg (by simpa using hle)]
        exact Nat.one_pos
      · intro hcount
        by_contra hlt
        rw [if_pos (by simpa using hlt)] at hcount
        omega
  | succ k ih =>
    cases l with
    | nil => cases hx
    | cons y l =>
      rw [pairwise_cons] at hl
      rw [take_succ_cons, getLast?_cons] at htop
      cases hlast : (l.take (k + 1)).getLast? with
      | none =>
        have hnil : l = [] := by simpa [getLast?_eq_none_iff] using hlast
        subst hnil
        cases htop
        rw [mem_singleton] at hx
        subst hx
        simp
      | some last =>
        rw [hlast] at htop
        cases htop
        have hmem : last ∈ l := mem_of_mem_take (mem_of_getLast? hlast)
        rw [countP_cons]
        by_cases hyx : y ≤ x
        · -- no element is greater than `x`
          rw [countP_lt_eq_zero hl.1 hyx, if_neg (by simpa using hyx)]
          exact iff_of_true ((hl.1 last hmem).trans hyx) (by omega)
        · have hxl : x ∈ l := by
            rcases mem_cons.mp hx with rfl | hxl
            · exact absurd le_rfl hyx
            · exact hxl
          rw [if_pos (by simpa using hyx), ih hl.2 hxl hlast]
          omega

/-- An element of the list reaches the last one of the `k` greatest exactly when fewer than `k`
elements are greater than it. -/
theorem getLast?_topK_le_iff {k : ℕ} (hk : 0 < k) {xs : List α} {x top : α} (hx : x ∈ xs)
    (htop : (topK k xs).getLast? = some top) :
    top ≤ x ↔ xs.countP (fun z => decide (x < z)) < k := by
  obtain ⟨k, rfl⟩ := Nat.exists_eq_succ_of_ne_zero (Nat.ne_of_gt hk)
  have hperm := perm_insertionSort (· ≥ ·) xs
  rw [← hperm.countP_eq]
  exact getLast?_take_le_iff (pairwise_insertionSort _ xs) (hperm.mem_iff.mpr hx) k htop

theorem topK_eq_nil_iff {k : ℕ} (hk : 0 < k) {xs : List α} : topK k xs = [] ↔ xs = [] := by
  rw [← length_eq_zero_iff, length_topK, ← length_eq_zero_iff]
  omega

end TopK

/-! ## Keeping the best candidate

A search holds the best candidate met so far with its score, and replaces it when a strictly better
one comes along. Whatever the order of the search, what it ends with is as good as every candidate
it has met, and is one of them unless it is the one the search began with.
-/

section KeepBest

variable {ν α ι : Type*} [LinearOrder ν]

/-- The candidate held after the candidates of `met` have been met while `best` was held. -/
structure KeepsBest (met : Set (ν × α)) (best best' : ν × α) : Prop where
  le : best.1 ≤ best'.1
  le_of_met : ∀ c ∈ met, c.1 ≤ best'.1
  eq_or_met : best' = best ∨ best' ∈ met

namespace KeepsBest

variable {met met' : Set (ν × α)} {best best' best'' : ν × α}

theorem refl (best : ν × α) : KeepsBest ∅ best best where
  le := le_rfl
  le_of_met := fun _ hc => absurd hc (Set.notMem_empty _)
  eq_or_met := .inl rfl

theorem trans (h : KeepsBest met best best') (h' : KeepsBest met' best' best'') :
    KeepsBest (met ∪ met') best best'' where
  le := h.le.trans h'.le
  le_of_met := by
    rintro c (hc | hc)
    · exact (h.le_of_met c hc).trans h'.le
    · exact h'.le_of_met c hc
  eq_or_met := by
    rcases h'.eq_or_met with rfl | hmet
    · exact h.eq_or_met.imp_right .inl
    · exact .inr (.inr hmet)

/-- One comparison. -/
theorem compare (best c : ν × α) : KeepsBest {c} best (if best.1 < c.1 then c else best) := by
  split
  · rename_i hlt
    refine ⟨hlt.le, ?_, .inr rfl⟩
    rintro _ rfl
    exact le_rfl
  · rename_i hle
    refine ⟨le_rfl, ?_, .inl rfl⟩
    rintro _ rfl
    exact le_of_not_gt hle

/-- A candidate that is met only under a condition. -/
theorem ite {p : Prop} [Decidable p] (h : p → KeepsBest met best best') :
    KeepsBest {c | p ∧ c ∈ met} best (if p then best' else best) := by
  split
  · rename_i hp
    have hmet : {c | p ∧ c ∈ met} = met := by
      ext c
      simp [hp]
    rw [hmet]
    exact h hp
  · rename_i hp
    have hmet : {c | p ∧ c ∈ met} = ∅ := by
      ext c
      simp [hp]
    rw [hmet]
    exact refl best

/-- A loop whose every round keeps the best of what the round meets. -/
theorem foldl {step : ν × α → ι → ν × α} {met : ι → Set (ν × α)} {rounds : List ι}
    (hstep : ∀ i ∈ rounds, ∀ best, KeepsBest (met i) best (step best i)) (best : ν × α) :
    KeepsBest {c | ∃ i ∈ rounds, c ∈ met i} best (rounds.foldl step best) := by
  induction rounds generalizing best with
  | nil =>
    have hnone : {c | ∃ i ∈ ([] : List ι), c ∈ met i} = ∅ := by
      ext c
      simp
    rw [hnone]
    exact refl best
  | cons i rounds ih =>
    have hall : {c | ∃ j ∈ i :: rounds, c ∈ met j} = met i ∪ {c | ∃ j ∈ rounds, c ∈ met j} := by
      ext c
      simp
    rw [hall]
    exact (hstep i List.mem_cons_self best).trans
      (ih (fun j hj => hstep j (List.mem_cons_of_mem _ hj)) _)

end KeepsBest

end KeepBest

end AdDelivery
