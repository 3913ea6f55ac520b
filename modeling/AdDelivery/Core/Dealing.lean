import Mathlib.Algebra.GroupWithZero.Nat
import Mathlib.Data.List.Count
import Mathlib.Data.List.Nodup

/-!
# Dealing out a sequence

Elements of a sequence are dealt out by a test, and every receiver gets its elements with their
positions. Read with one cursor, its list shows at each position whether the next element is its
own.
-/

namespace AdDelivery.Scatter

open List List

variable {α : Type*} (p : α → Bool)

/-- The number of own elements in front of a position. -/
def seen (xs : List α) (i : ℕ) : ℕ := (xs.take i).countP p

variable (xs : List α)

@[simp] theorem seen_zero : seen p xs 0 = 0 := by simp [seen]

theorem seen_succ {xs : List α} {i : ℕ} {x : α} (h : xs[i]? = some x) :
    seen p xs (i + 1) = seen p xs i + if p x then 1 else 0 := by
  rw [seen, seen, take_add_one, h, Option.toList_some, countP_append, countP_singleton]

/-- What the cursor stands on is the first own element from the position on. -/
theorem filter_seen (i : ℕ) : (xs.filter p)[seen p xs i]? = ((xs.drop i).filter p).head? := by
  have hlength : ((xs.take i).filter p).length = seen p xs i := countP_eq_length_filter.symm
  have hsplit : xs.filter p = (xs.take i).filter p ++ (xs.drop i).filter p := by
    rw [← filter_append, take_append_drop]
  rw [hsplit, getElem?_append_right (Nat.le_of_eq hlength), hlength, Nat.sub_self,
    head?_eq_getElem?]

theorem filter_seen_of_own {xs : List α} {i : ℕ} {x : α} (h : xs[i]? = some x)
    (hp : p x = true) : (xs.filter p)[seen p xs i]? = some x := by
  obtain ⟨hi, rfl⟩ := List.getElem?_eq_some_iff.mp h
  rw [filter_seen, drop_eq_getElem_cons hi, filter_cons_of_pos hp, head?_cons]

/-- The elements with their positions. -/
def dealt (xs : List α) : List (α × ℕ) := xs.zipIdx.filter fun entry => p entry.1

theorem map_fst_dealt : (dealt p xs).map Prod.fst = xs.filter p := by
  have h := filter_map (f := Prod.fst) (p := p) (l := xs.zipIdx)
  rw [zipIdx_map_fst] at h
  exact h.symm

theorem seen_zipIdx (i : ℕ) : seen (fun entry => p entry.1) xs.zipIdx i = seen p xs i := by
  have h := countP_map (p := p) (f := Prod.fst) (l := xs.zipIdx.take i)
  rw [map_take, zipIdx_map_fst] at h
  exact h.symm

/-- The cursor stands on the position itself just where the element is an own one. -/
theorem dealt_seen {xs : List α} {i : ℕ} :
    ((dealt p xs)[seen p xs i]?).map Prod.snd = some i ↔ ∃ x, xs[i]? = some x ∧ p x = true := by
  constructor
  · intro h
    obtain ⟨⟨x, j⟩, hget, rfl⟩ := Option.map_eq_some_iff.mp h
    have hmem := mem_filter.mp (mem_of_getElem? hget)
    exact ⟨x, mem_zipIdx_iff_getElem?.mp hmem.1, hmem.2⟩
  · rintro ⟨x, hx, hp⟩
    have hentry : xs.zipIdx[i]? = some (x, i) := by rw [getElem?_zipIdx, hx]; simp
    rw [dealt, ← seen_zipIdx,
      filter_seen_of_own (fun entry => p entry.1) hentry hp, Option.map_some]

end AdDelivery.Scatter
