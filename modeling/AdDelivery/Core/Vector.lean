import Mathlib.Data.List.Basic

/-!
# Growable vectors

A `std::vector` is a list read through a default entry. The same three edits
recur in every table of the program: an unconditional `resize`, a `resize`
guarded by a size test, and an in-place write of one entry. Each edit is
characterised once by what every position reads afterwards.
-/

namespace AdDelivery

open List

variable {α : Type*}

/-- `resize(n, d)`: keep the first `n` entries and pad with `d` up to `n`. -/
def resize (xs : List α) (n : Nat) (d : α) : List α :=
  xs.take n ++ List.replicate (n - xs.length) d

variable (xs : List α)

@[simp] theorem length_resize (n : Nat) (d : α) : (resize xs n d).length = n := by
  simp only [resize, length_append, length_take, length_replicate]
  omega

theorem getElem?_resize (n i : Nat) (d : α) :
    (resize xs n d)[i]? = if i < n then some (xs.getD i d) else none := by
  by_cases hi : i < n
  · rw [if_pos hi, resize, getD_eq_getElem?_getD]
    by_cases hx : i < xs.length
    · rw [getElem?_append_left (by simp; omega)]
      simp [hi, hx]
    · have hlen : (xs.take n).length = xs.length := by simp; omega
      rw [getElem?_append_right (by omega), getElem?_replicate,
        getElem?_eq_none (by omega : xs.length ≤ i)]
      simp only [Option.getD_none, ite_eq_left_iff]
      omega
  · rw [if_neg hi, getElem?_eq_none (by simpa using hi)]

/-- Positions below the new size keep their entry; the others read the default. -/
theorem getD_resize (n i : Nat) (d : α) :
    (resize xs n d).getD i d = if i < n then xs.getD i d else d := by
  rw [getD_eq_getElem?_getD, getElem?_resize]
  split <;> rfl

variable {n : Nat}

/-- A `resize` to at least the current size changes no entry that is read. -/
theorem getD_resize_of_le {xs : List α} (h : xs.length ≤ n) (i : Nat) (d : α) :
    (resize xs n d).getD i d = xs.getD i d := by
  rw [getD_resize]
  split
  · rfl
  · rw [getD_eq_getElem?_getD, getElem?_eq_none (by omega), Option.getD_none]

theorem mem_resize {xs : List α} {d a : α} (h : a ∈ resize xs n d) : a ∈ xs ∨ a = d := by
  rcases mem_append.mp h with h | h
  · exact Or.inl (mem_of_mem_take h)
  · exact Or.inr (eq_of_mem_replicate h)

theorem map_resize {β : Type*} (f : α → β) (xs : List α) (n : Nat) (d : α) :
    (resize xs n d).map f = resize (xs.map f) n (f d) := by
  rw [resize, map_append, map_take, map_replicate, resize, List.length_map]

/-- The guarded form `if (n > size()) resize(n)`: the vector never shrinks. -/
def growTo (xs : List α) (n : Nat) (d : α) : List α :=
  if xs.length < n then resize xs n d else xs

@[simp] theorem getD_growTo (n i : Nat) (d : α) : (growTo xs n d).getD i d = xs.getD i d := by
  unfold growTo
  split
  · exact getD_resize_of_le (by omega) i d
  · rfl

theorem getElem?_growTo_of_lt {xs : List α} {i : Nat} (h : i < xs.length) (n : Nat) (d : α) :
    (growTo xs n d)[i]? = xs[i]? := by
  unfold growTo
  split
  · rw [getElem?_resize, if_pos (by omega), getD_eq_getElem?_getD,
      getElem?_eq_getElem h, Option.getD_some]
  · rfl

@[simp] theorem length_growTo (n : Nat) (d : α) : (growTo xs n d).length = max xs.length n := by
  unfold growTo
  split
  · rw [length_resize]; omega
  · omega

theorem mem_growTo {xs : List α} {d a : α} (h : a ∈ growTo xs n d) : a ∈ xs ∨ a = d := by
  unfold growTo at h
  split at h
  · exact mem_resize h
  · exact Or.inl h

/-- An in-range write changes exactly the written position. -/
theorem getD_modify (i j : Nat) (f : α → α) (d : α) (hi : i < xs.length) :
    (xs.modify i f).getD j d = if i = j then f (xs.getD j d) else xs.getD j d := by
  by_cases h : i = j
  · subst j
    simp [getElem?_eq_getElem hi]
  · simp [h]

theorem getD_modify_of_ne {i j : Nat} (h : i ≠ j) (xs : List α) (f : α → α) (d : α) :
    (xs.modify i f).getD j d = xs.getD j d := by
  rw [getD_eq_getElem?_getD, getElem?_modify_ne _ _ h, ← getD_eq_getElem?_getD]

section Edits

variable {β : Type*} (idx : β → Nat) (f : β → α → α)

theorem getElem?_foldl_modify_of_not_mem {i : Nat} {edits : List β} (hi : i ∉ edits.map idx)
    (xs : List α) : (edits.foldl (fun xs c => xs.modify (idx c) (f c)) xs)[i]? = xs[i]? := by
  induction edits generalizing xs with
  | nil => rfl
  | cons e edits ih =>
    rw [map_cons, mem_cons, not_or] at hi
    rw [foldl_cons, ih hi.2, getElem?_modify_ne _ _ (Ne.symm hi.1)]

/-- Edits of distinct positions do not meet. -/
theorem getElem?_foldl_modify {c : β} {edits : List β} (hnodup : (edits.map idx).Nodup)
    (hc : c ∈ edits) (xs : List α) :
    (edits.foldl (fun xs c => xs.modify (idx c) (f c)) xs)[idx c]? = xs[idx c]?.map (f c) := by
  induction edits generalizing xs with
  | nil => cases hc
  | cons e edits ih =>
    rw [map_cons, nodup_cons] at hnodup
    rw [foldl_cons]
    rcases mem_cons.mp hc with rfl | hc
    · rw [getElem?_foldl_modify_of_not_mem idx f hnodup.1, getElem?_modify_eq]
      rfl
    · have hne : idx e ≠ idx c := fun heq => hnodup.1 (heq ▸ mem_map_of_mem hc)
      rw [ih hnodup.2 hc, getElem?_modify_ne _ _ hne]

/-- Writes that agree on what a position gets. -/
theorem getElem?_foldl_set (value : β → α) (g : Nat → α) {writes : List β}
    (h : ∀ w ∈ writes, value w = g (idx w)) (xs : List α) (i : Nat) :
    (writes.foldl (fun xs w => xs.set (idx w) (value w)) xs)[i]? =
      if i ∈ writes.map idx then xs[i]?.map fun _ => g i else xs[i]? := by
  induction writes generalizing xs with
  | nil => rfl
  | cons w writes ih =>
    rw [foldl_cons, ih (fun w' hw' => h w' (mem_cons_of_mem w hw')), map_cons]
    by_cases hw : idx w = i
    · have hset : (xs.set (idx w) (value w))[i]? = xs[i]?.map fun _ => g i := by
        rw [hw, getElem?_set_self', h w mem_cons_self, hw]
        rfl
      have hmem : i ∈ idx w :: writes.map idx := hw ▸ mem_cons_self
      rw [if_pos hmem, hset, Option.map_map]
      exact ite_self _
    · rw [getElem?_set_ne hw]
      simp only [mem_cons, Ne.symm hw, false_or]

end Edits

/-- Reading one place after another, all of them within range. -/
theorem mapM_eq_some {ι κ : Type*} {f : ι → Option κ} {g : ι → κ} {places : List ι}
    (h : ∀ place ∈ places, f place = some (g place)) : places.mapM f = some (places.map g) := by
  induction places with
  | nil => rfl
  | cons place places ih =>
    obtain ⟨hplace, hplaces⟩ := forall_mem_cons.mp h
    rw [mapM_cons, hplace, ih hplaces]
    rfl

theorem drop_set_self {xs : List α} (h : n < xs.length) (x : α) :
    (xs.set n x).drop n = x :: xs.drop (n + 1) := by
  rw [set_eq_take_append_cons_drop, if_pos h, drop_left' (length_take_of_le (Nat.le_of_lt h))]

theorem take_set_self (n : Nat) (x : α) : (xs.set n x).take n = xs.take n :=
  take_set_of_le (Nat.le_refl n)

/-- `std::swap` of two entries. -/
def swapEntries (xs : List α) (i j : Nat) : List α :=
  match xs[i]?, xs[j]? with
  | some x, some y => (xs.set i y).set j x
  | _, _ => xs

theorem mem_of_mem_swapEntries {xs : List α} {i j : Nat} {a : α} (h : a ∈ swapEntries xs i j) :
    a ∈ xs := by
  rw [swapEntries] at h
  split at h
  · rename_i x y hx hy
    rcases mem_or_eq_of_mem_set h with h | rfl
    · rcases mem_or_eq_of_mem_set h with h | rfl
      · exact h
      · exact mem_of_getElem? hy
    · exact mem_of_getElem? hx
  · exact h

@[simp] theorem length_swapEntries (i j : Nat) : (swapEntries xs i j).length = xs.length := by
  rw [swapEntries]
  split
  · rw [length_set, length_set]
  · rfl

/-- Swapping an entry to the end of a part and leaving the end off removes the entry. -/
theorem perm_take_swapEntries {xs : List α} {i n : Nat} (hi : i ≤ n) (hn : n < xs.length)
    {x : α} (hx : xs[i]? = some x) : (x :: (swapEntries xs i n).take n).Perm (xs.take (n + 1)) := by
  have hy := getElem?_eq_getElem hn
  have hsucc : xs.take (n + 1) = xs.take n ++ [xs[n]] := take_succ_eq_append_getElem hn
  have hswap : swapEntries xs i n = (xs.set i xs[n]).set n x := by
    rw [swapEntries, hx, hy]
  rw [hswap, take_set_self, take_set, hsucc]
  rcases Nat.eq_or_lt_of_le hi with rfl | hlt
  · obtain rfl := Option.some.inj (hx.symm.trans hy)
    rw [set_eq_of_length_le (by rw [length_take]; omega)]
    exact (perm_append_singleton _ _).symm
  · have hlength : i < (xs.take n).length := by rw [length_take]; omega
    have hpart : xs.take n = (xs.take n).take i ++ x :: (xs.take n).drop (i + 1) := by
      have hget : (xs.take n)[i]? = some x := by rw [getElem?_take_of_lt hlt, hx]
      obtain ⟨_, hget⟩ := List.getElem?_eq_some_iff.mp hget
      rw [← hget, getElem_cons_drop, take_append_drop]
    rw [set_eq_take_append_cons_drop, if_pos hlength]
    conv_rhs => rw [hpart]
    refine (List.Perm.cons x perm_middle).trans ?_
    refine (List.Perm.swap _ _ _).trans ?_
    refine (List.Perm.cons _ perm_middle.symm).trans ?_
    exact (perm_append_singleton _ _).symm

theorem resize_of_le {xs : List α} (h : n ≤ xs.length) (d : α) : resize xs n d = xs.take n := by
  rw [resize, Nat.sub_eq_zero_of_le h, replicate_zero, append_nil]

end AdDelivery
