import Mathlib.Data.List.Basic
import Mathlib.Order.Lattice

/-!
# The union of two lists with ascending keys

Entries that share a key are combined, all others are kept. The union can be taken piece by
piece: a part of one list that stays below the other list can be moved to the result at once.
-/

namespace AdDelivery

open List

variable {κ ν : Type*} [LinearOrder κ] {f : ν → ν → ν} {l m : List (κ × ν)}

/-- The keys ascend strictly. -/
def KeysAscend (l : List (κ × ν)) : Prop := l.Pairwise fun a b => a.1 < b.1

/-- The union, with `f` for entries of one key. -/
def keyedUnion (f : ν → ν → ν) : List (κ × ν) → List (κ × ν) → List (κ × ν)
  | [], m => m
  | a :: l, [] => a :: l
  | a :: l, b :: m =>
    if a.1 < b.1 then a :: keyedUnion f l (b :: m)
    else if b.1 < a.1 then b :: keyedUnion f (a :: l) m
    else (a.1, f a.2 b.2) :: keyedUnion f l m
  termination_by l m => l.length + m.length

@[simp] theorem keyedUnion_nil_left (m : List (κ × ν)) : keyedUnion f [] m = m := by
  rw [keyedUnion]

@[simp] theorem keyedUnion_nil_right (l : List (κ × ν)) : keyedUnion f l [] = l := by
  cases l <;> rw [keyedUnion]

variable {a b : κ × ν}

theorem keyedUnion_cons_of_lt (h : a.1 < b.1) :
    keyedUnion f (a :: l) (b :: m) = a :: keyedUnion f l (b :: m) := by
  rw [keyedUnion, if_pos h]

theorem keyedUnion_cons_of_gt (h : b.1 < a.1) :
    keyedUnion f (a :: l) (b :: m) = b :: keyedUnion f (a :: l) m := by
  rw [keyedUnion, if_neg h.not_gt, if_pos h]

theorem keyedUnion_cons_of_eq (h : a.1 = b.1) :
    keyedUnion f (a :: l) (b :: m) = (a.1, f a.2 b.2) :: keyedUnion f l m := by
  rw [keyedUnion, if_neg (not_lt_of_ge h.ge), if_neg (not_lt_of_ge h.le)]

/-- The entries of the first list below the second one. -/
theorem keyedUnion_takeWhile_left (l : List (κ × ν)) (b : κ × ν) (m : List (κ × ν)) :
    keyedUnion f l (b :: m) = l.takeWhile (fun a => decide (a.1 < b.1)) ++
        keyedUnion f (l.dropWhile fun a => decide (a.1 < b.1)) (b :: m) := by
  induction l with
  | nil => rfl
  | cons a l ih =>
    by_cases h : a.1 < b.1
    · rw [keyedUnion_cons_of_lt h, ih, takeWhile_cons_of_pos (by simpa using h),
        dropWhile_cons_of_pos (by simpa using h), cons_append]
    · rw [takeWhile_cons_of_neg (by simpa using h),
        dropWhile_cons_of_neg (by simpa using h), nil_append]

/-- The entries of the second list below the first one. -/
theorem keyedUnion_takeWhile_right (a : κ × ν) (l m : List (κ × ν)) : keyedUnion f (a :: l) m =
      m.takeWhile (fun b => decide (b.1 < a.1)) ++
        keyedUnion f (a :: l) (m.dropWhile fun b => decide (b.1 < a.1)) := by
  induction m with
  | nil => rfl
  | cons b m ih =>
    by_cases h : b.1 < a.1
    · rw [keyedUnion_cons_of_gt h, ih, takeWhile_cons_of_pos (by simpa using h),
        dropWhile_cons_of_pos (by simpa using h), cons_append]
    · rw [takeWhile_cons_of_neg (by simpa using h),
        dropWhile_cons_of_neg (by simpa using h), nil_append]

theorem lookup_cons_eq_ite (a : κ × ν) (l : List (κ × ν)) (k : κ) :
    (a :: l).lookup k = if k = a.1 then some a.2 else l.lookup k := by
  rw [lookup_cons]
  by_cases h : k = a.1
  · rw [if_pos h, beq_iff_eq.mpr h]
  · rw [if_neg h, beq_eq_false_iff_ne.mpr h]

theorem KeysAscend.lookup_eq_none {a : κ × ν} (h : KeysAscend (a :: l)) {k : κ} (hk : k ≤ a.1) :
    l.lookup k = none := by
  rw [lookup_eq_none_iff]
  intro b hb
  have hlt := (pairwise_cons.mp h).1 b hb
  simpa using (hk.trans_lt hlt).ne

/-- Every key of the union is one of the two lists. -/
theorem exists_of_mem_keyedUnion {entry : κ × ν} (h : entry ∈ keyedUnion f l m) :
    (∃ a ∈ l, a.1 = entry.1) ∨ ∃ b ∈ m, b.1 = entry.1 := by
  induction l, m using keyedUnion.induct with
  | case1 m =>
    rw [keyedUnion_nil_left] at h
    exact Or.inr ⟨entry, h, rfl⟩
  | case2 a l =>
    rw [keyedUnion_nil_right] at h
    exact Or.inl ⟨entry, h, rfl⟩
  | case3 a l b m hlt ih =>
    rw [keyedUnion_cons_of_lt hlt] at h
    rcases mem_cons.mp h with rfl | h
    · exact Or.inl ⟨entry, mem_cons_self, rfl⟩
    · rcases ih h with ⟨a', ha', heq⟩ | hb
      · exact Or.inl ⟨a', mem_cons_of_mem a ha', heq⟩
      · exact Or.inr hb
  | case4 a l b m _ hgt ih =>
    rw [keyedUnion_cons_of_gt hgt] at h
    rcases mem_cons.mp h with rfl | h
    · exact Or.inr ⟨entry, mem_cons_self, rfl⟩
    · rcases ih h with ha | ⟨b', hb', heq⟩
      · exact Or.inl ha
      · exact Or.inr ⟨b', mem_cons_of_mem b hb', heq⟩
  | case5 a l b m hlt hgt ih =>
    rw [keyedUnion_cons_of_eq (le_antisymm (not_lt.mp hgt) (not_lt.mp hlt))] at h
    rcases mem_cons.mp h with rfl | h
    · exact Or.inl ⟨a, mem_cons_self, rfl⟩
    · rcases ih h with ⟨a', ha', heq⟩ | ⟨b', hb', heq⟩
      · exact Or.inl ⟨a', mem_cons_of_mem a ha', heq⟩
      · exact Or.inr ⟨b', mem_cons_of_mem b hb', heq⟩

theorem KeysAscend.keyedUnion (hl : KeysAscend l) (hm : KeysAscend m) :
    KeysAscend (keyedUnion f l m) := by
  induction l, m using keyedUnion.induct with
  | case1 m => rwa [keyedUnion_nil_left]
  | case2 a l => rwa [keyedUnion_nil_right]
  | case3 a l b m hlt ih =>
    rw [keyedUnion_cons_of_lt hlt]
    obtain ⟨hfirst, hrest⟩ := pairwise_cons.mp hl
    refine pairwise_cons.mpr ⟨fun entry hentry => ?_, ih hrest hm⟩
    rcases exists_of_mem_keyedUnion hentry with ⟨a', ha', heq⟩ | ⟨b', hb', heq⟩
    · exact heq ▸ hfirst a' ha'
    · rcases mem_cons.mp hb' with rfl | hb'
      · exact heq ▸ hlt
      · exact heq ▸ hlt.trans ((pairwise_cons.mp hm).1 b' hb')
  | case4 a l b m _ hgt ih =>
    rw [keyedUnion_cons_of_gt hgt]
    obtain ⟨hfirst, hrest⟩ := pairwise_cons.mp hm
    refine pairwise_cons.mpr ⟨fun entry hentry => ?_, ih hl hrest⟩
    rcases exists_of_mem_keyedUnion hentry with ⟨a', ha', heq⟩ | ⟨b', hb', heq⟩
    · rcases mem_cons.mp ha' with rfl | ha'
      · exact heq ▸ hgt
      · exact heq ▸ hgt.trans ((pairwise_cons.mp hl).1 a' ha')
    · exact heq ▸ hfirst b' hb'
  | case5 a l b m hlt hgt ih =>
    have hkey : a.1 = b.1 := le_antisymm (not_lt.mp hgt) (not_lt.mp hlt)
    rw [keyedUnion_cons_of_eq hkey]
    obtain ⟨hl', hrestl⟩ := pairwise_cons.mp hl
    obtain ⟨hm', hrestm⟩ := pairwise_cons.mp hm
    refine pairwise_cons.mpr ⟨fun entry hentry => ?_, ih hrestl hrestm⟩
    rcases exists_of_mem_keyedUnion hentry with ⟨a', ha', heq⟩ | ⟨b', hb', heq⟩
    · exact heq ▸ hl' a' ha'
    · exact heq ▸ hkey ▸ hm' b' hb'

/-- A key leads to what both lists have for it. -/
theorem KeysAscend.lookup_keyedUnion (hl : KeysAscend l) (hm : KeysAscend m) (k : κ) :
    (AdDelivery.keyedUnion f l m).lookup k = Option.merge f (l.lookup k) (m.lookup k) := by
  induction l, m using keyedUnion.induct with
  | case1 m => rw [keyedUnion_nil_left, lookup_nil, Option.merge_none_left]
  | case2 a l => rw [keyedUnion_nil_right, lookup_nil, Option.merge_none_right]
  | case3 a l b m hlt ih =>
    rw [keyedUnion_cons_of_lt hlt, lookup_cons_eq_ite, ih (pairwise_cons.mp hl).2 hm,
      lookup_cons_eq_ite a l]
    split
    · rename_i hk
      have hnone : (b :: m).lookup k = none := by
        rw [lookup_cons_eq_ite, if_neg (hk ▸ hlt.ne), hm.lookup_eq_none (hk ▸ hlt.le)]
      rw [hnone, Option.merge_none_right]
    · rfl
  | case4 a l b m _ hgt ih =>
    rw [keyedUnion_cons_of_gt hgt, lookup_cons_eq_ite, ih hl (pairwise_cons.mp hm).2,
      lookup_cons_eq_ite b m]
    split
    · rename_i hk
      have hnone : (a :: l).lookup k = none := by
        rw [lookup_cons_eq_ite, if_neg (hk ▸ hgt.ne), hl.lookup_eq_none (hk ▸ hgt.le)]
      rw [hnone, Option.merge_none_left]
    · rfl
  | case5 a l b m hlt hgt ih =>
    have hkey : a.1 = b.1 := le_antisymm (not_lt.mp hgt) (not_lt.mp hlt)
    rw [keyedUnion_cons_of_eq hkey, lookup_cons_eq_ite, lookup_cons_eq_ite a l,
      lookup_cons_eq_ite b m, ih (pairwise_cons.mp hl).2 (pairwise_cons.mp hm).2, ← hkey]
    split
    · rfl
    · rfl

end AdDelivery
