import AdDelivery.Core.Cutting
import AdDelivery.GroupManager.NumericMerge

/-!
# Counting numeric values by decade

Positive values are counted in the leaves of a segment tree. Each of its seven parts belongs to
a decade and has a hundred leaves; what lies above the last decade counts for its last leaf. The
counts above the leaves are filled in when a result is asked for, as sums of ten.
-/

namespace AdDelivery.GroupManager

open List Finset

/-- The bounds of the decades. -/
def bound : List ℕ :=
  [0, 1000, 10000, 100000, 1000000, 10000000, 100000000, 1000000000]

structure NumericRangeGroupCounter where
  property : String
  /-- The value of a document, if the property table has one. -/
  getInt32Value : BitVec 32 → Option Int32
  segmentTree : List UInt32 := List.replicate (111 * levelOneOfSegmentTree + 1) 0

/-- How many of the bounds the value reaches, from the first one that is looked at. -/
def boundsReached (value : ℕ) : List ℕ → ℕ
  | [] => 0
  | b :: bounds => if b ≤ value then boundsReached value bounds + 1 else 0

/-- The leaf of a value. -/
def leafOf (value : ℕ) : ℕ :=
  let exponent := 1 + boundsReached value (bound.drop 1)
  100 * (exponent - 1) + value / (bound.getD exponent 0 / 100)

/-- The positive value of a document, cut off above. -/
def positiveValue (getInt32Value : BitVec 32 → Option Int32) (doc : BitVec 32) : Option ℕ :=
  (getInt32Value doc).bind fun value =>
    if 0 < value.toInt then
      some (min value.toInt.toNat (bound.getD levelOneOfSegmentTree 0 - 1))
    else none

namespace NumericRangeGroupCounter

def addDoc (counter : NumericRangeGroupCounter) (doc : BitVec 32) : NumericRangeGroupCounter :=
  match positiveValue counter.getInt32Value doc with
  | none => counter
  | some value =>
    { counter with segmentTree := counter.segmentTree.modify (leafOf value) (· + 1) }

end NumericRangeGroupCounter

open NumericRangeGroupCounter

/-- The vector with the iterators of what is read and what is written. -/
structure SumCursor where
  cells : List UInt32
  source : ℕ
  target : ℕ

namespace SumCursor

def addNext (cursor : SumCursor) : SumCursor :=
  { cursor with
    cells := cursor.cells.modify cursor.target (· + cursor.cells.getD cursor.source 0)
    source := cursor.source + 1 }

/-- Add ten cells to one. -/
def addTen (cursor : SumCursor) : SumCursor :=
  let cursor := addNext^[10] cursor
  { cursor with target := cursor.target + 1 }

end SumCursor

open SumCursor

/-- Fill in all counts above the leaves. -/
def sumUp (cells : List UInt32) : List UInt32 :=
  let cursor : SumCursor := { cells, source := 0, target := 100 * levelOneOfSegmentTree }
  (addNext^[levelOneOfSegmentTree]
    (addTen^[levelOneOfSegmentTree * 11] cursor)).cells

theorem length_sumUp (cells : List UInt32) : (sumUp cells).length = cells.length := by
  have hnext (n : ℕ) (cursor : SumCursor) :
      (addNext^[n] cursor).cells.length = cursor.cells.length :=
    apply_iterate (f := fun cursor : SumCursor => cursor.cells.length)
      (fun cursor => length_modify _ _ _) n cursor
  have hten (n : ℕ) (cursor : SumCursor) :
      (addTen^[n] cursor).cells.length = cursor.cells.length := by
    have hstep (cursor : SumCursor) : cursor.addTen.cells.length = cursor.cells.length :=
      hnext 10 cursor
    exact apply_iterate (f := fun cursor : SumCursor => cursor.cells.length) hstep n cursor
  rw [sumUp, hnext, hten]

/-- The result of a counter, which loses its vector to it. Without the vector nothing can be
read. -/
def NumericRangeGroupCounter.getGroupRep (counter : NumericRangeGroupCounter)
    (groupRep : NumericRangeGroupRep) : Option (NumericRangeGroupRep × NumericRangeGroupCounter) :=
  if h : counter.segmentTree.length = 111 * levelOneOfSegmentTree + 1 then
    some (groupRep ++ [(counter.property,
        { cells := sumUp counter.segmentTree, length_cells := (length_sumUp _).trans h })],
      { counter with segmentTree := [] })
  else none

/-- The width of the values of a leaf. -/
def atomOf (i : ℕ) : ℕ := bound.getD (i + 1) 0 / 100

/-- Each value has its decade, and its leaf lies there. -/
theorem leafOf_cases {value : ℕ} (h : value < 1000000000) :
    (value < 1000 ∧ leafOf value = value / 10) ∨
      (1000 ≤ value ∧ value < 10000 ∧ leafOf value = 100 + value / 100) ∨
      (10000 ≤ value ∧ value < 100000 ∧ leafOf value = 200 + value / 1000) ∨
      (100000 ≤ value ∧ value < 1000000 ∧ leafOf value = 300 + value / 10000) ∨
      (1000000 ≤ value ∧ value < 10000000 ∧ leafOf value = 400 + value / 100000) ∨
      (10000000 ≤ value ∧ value < 100000000 ∧ leafOf value = 500 + value / 1000000) ∨
      (100000000 ≤ value ∧ leafOf value = 600 + value / 10000000) := by
  simp only [leafOf, bound, boundsReached, drop_succ_cons, drop_zero]
  split_ifs <;> simp <;> omega

/-- What a cell is to hold when the leaves hold `leaf`. -/
def treeValue (leaf : ℕ → ℕ) (i : ℕ) : ℕ :=
  if i < 700 then leaf i
  else if i < 770 then ∑ k ∈ range 10, leaf (10 * (i - 700) + k)
  else if i < 777 then
    ∑ j ∈ range 10, ∑ k ∈ range 10, leaf (10 * (10 * (i - 770) + j) + k)
  else ∑ i ∈ range 7, ∑ j ∈ range 10, ∑ k ∈ range 10,
    leaf (10 * (10 * i + j) + k)

variable {leaf : ℕ → ℕ}

theorem treeValue_level2 {q : ℕ} (hq : q < 70) :
    treeValue leaf (700 + q) = ∑ k ∈ Finset.range 10, treeValue leaf (10 * q + k) := by
  rw [treeValue, if_neg (by omega), if_pos (by omega), Nat.add_sub_cancel_left]
  refine sum_congr rfl fun k hk => ?_
  rw [Finset.mem_range] at hk
  rw [treeValue, if_pos (by omega)]

theorem treeValue_level1 {p : ℕ} (hp : p < 7) :
    treeValue leaf (770 + p) = ∑ j ∈ range 10, treeValue leaf (700 + (10 * p + j)) := by
  rw [treeValue, if_neg (by omega), if_neg (by omega), if_pos (by omega),
    Nat.add_sub_cancel_left]
  refine sum_congr rfl fun j hj => ?_
  rw [Finset.mem_range] at hj
  rw [treeValue, if_neg (by omega), if_pos (by omega), Nat.add_sub_cancel_left]

theorem treeValue_total : treeValue leaf 777 = ∑ p ∈ Finset.range 7, treeValue leaf (770 + p) := by
  rw [treeValue, if_neg (by omega), if_neg (by omega)]
  refine sum_congr rfl fun p hp => ?_
  rw [Finset.mem_range] at hp
  rw [treeValue, if_neg (by omega), if_neg (by omega), if_pos (by omega),
    Nat.add_sub_cancel_left]

/-- Blocks of equal length make up a sum. -/
theorem sum_blocks (f : ℕ → ℕ) (w n : ℕ) :
    ∑ i ∈ range n, ∑ k ∈ range w, f (w * i + k) = heldBefore f (w * n) := by
  induction n with
  | zero => rfl
  | succ n ih => rw [Finset.sum_range_succ, ih, Nat.mul_succ, heldBefore, heldBefore,
      sum_range_add]

theorem treeValue_total_eq : treeValue leaf 777 = heldBefore leaf 700 := by
  have hlevel1 : treeValue leaf 777 = ∑ q ∈ range (10 * 7),
      ∑ k ∈ range 10, leaf (10 * q + k) := by
    exact sum_blocks (fun q => ∑ k ∈ range 10, leaf (10 * q + k)) 10 7
  rw [hlevel1]
  exact sum_blocks leaf 10 70

/-- No cell holds more than all leaves together. -/
theorem treeValue_le {i : ℕ} (hi : i < 778) : treeValue leaf i ≤ heldBefore leaf 700 := by
  have hlevel1 {p : ℕ} (hp : p < 7) : treeValue leaf (770 + p) ≤ heldBefore leaf 700 := by
    rw [← treeValue_total_eq, treeValue_total]
    exact Finset.single_le_sum (f := fun p => treeValue leaf (770 + p))
      (fun _ _ => Nat.zero_le _) (Finset.mem_range.mpr hp)
  have hlevel2 {q : ℕ} (hq : q < 70) : treeValue leaf (700 + q) ≤ heldBefore leaf 700 := by
    have hp : q / 10 < 7 := by omega
    refine le_trans ?_ (hlevel1 hp)
    rw [treeValue_level1 hp]
    have hq' : q = 10 * (q / 10) + q % 10 := by omega
    conv_lhs => rw [hq']
    exact Finset.single_le_sum (f := fun j => treeValue leaf (700 + (10 * (q / 10) + j)))
      (fun _ _ => Nat.zero_le _) (Finset.mem_range.mpr (Nat.mod_lt q (by omega)))
  rcases Nat.lt_or_ge i 700 with hleaf | hinner
  · have hq : i / 10 < 70 := by omega
    refine le_trans ?_ (hlevel2 hq)
    rw [treeValue_level2 hq]
    have hi' : i = 10 * (i / 10) + i % 10 := by omega
    conv_lhs => rw [hi']
    exact Finset.single_le_sum (f := fun k => treeValue leaf (10 * (i / 10) + k))
      (fun _ _ => Nat.zero_le _) (Finset.mem_range.mpr (Nat.mod_lt i (by omega)))
  rcases Nat.lt_or_ge i 770 with hlt | hge
  · obtain ⟨q, rfl⟩ := Nat.exists_eq_add_of_le hinner
    exact hlevel2 (by omega)
  rcases Nat.lt_or_ge i 777 with hlt | hlast
  · obtain ⟨p, rfl⟩ := Nat.exists_eq_add_of_le hge
    exact hlevel1 (by omega)
  · obtain rfl : i = 777 := by omega
    exact treeValue_total_eq.le

namespace SumCursor

/-- Adding some cells to one, as long as the sum fits. -/
theorem addNext_iterate (n : ℕ) (cursor : SumCursor)
    (hsource : cursor.source + n ≤ cursor.target) (htarget : cursor.target < cursor.cells.length)
    (hfit : (cursor.cells.getD cursor.target 0).toNat +
      ∑ k ∈ range n, (cursor.cells.getD (cursor.source + k) 0).toNat < 2 ^ 32) :
    (addNext^[n] cursor).source = cursor.source + n ∧ (addNext^[n] cursor).target = cursor.target ∧
      (∀ i ≠ cursor.target, (addNext^[n] cursor).cells.getD i 0 = cursor.cells.getD i 0) ∧
      ((addNext^[n] cursor).cells.getD cursor.target 0).toNat =
        (cursor.cells.getD cursor.target 0).toNat +
          ∑ k ∈ range n, (cursor.cells.getD (cursor.source + k) 0).toNat := by
  induction n with
  | zero => exact ⟨rfl, rfl, fun _ _ => rfl, rfl⟩
  | succ n ih =>
    rw [Finset.sum_range_succ, ← Nat.add_assoc] at hfit ⊢
    obtain ⟨hsource', htarget', hother, hsum⟩ := ih (by omega) (by omega)
    rw [Function.iterate_succ_apply']
    have hlength : (addNext^[n] cursor).cells.length = cursor.cells.length :=
      apply_iterate (f := fun cursor : SumCursor => cursor.cells.length)
        (fun cursor => length_modify _ _ _) n cursor
    refine ⟨?_, htarget', fun i hi => ?_, ?_⟩
    · rw [addNext, hsource']
    · rw [addNext, htarget']
      exact (getD_modify_of_ne hi.symm _ _ _).trans (hother i hi)
    · rw [addNext, htarget', hsource', hother _ (by omega)]
      rw [getD_modify _ _ _ _ _ (by omega), if_pos rfl, UInt32.toNat_add, hsum,
        Nat.mod_eq_of_lt hfit, Nat.add_assoc]

/-- The cells of a tree are filled in up to a place. -/
structure FilledTo (leaf : ℕ → ℕ) (n : ℕ) (cells : List UInt32) : Prop where
  length : cells.length = 778
  filled : ∀ i < n, (cells.getD i 0).toNat = treeValue leaf i
  rest : ∀ i, n ≤ i → cells.getD i 0 = 0

/-- Filling in the next cell from what stands before it. -/
theorem FilledTo.next {leaf : ℕ → ℕ} (hleaf : heldBefore leaf 700 < 2 ^ 32) {cursor : SumCursor}
    {n w : ℕ} (hn : n < 778) (h : FilledTo leaf n cursor.cells) (htarget : cursor.target = n)
    (hsource : cursor.source + w ≤ n) (hsum : treeValue leaf n =
      ∑ k ∈ range w, treeValue leaf (cursor.source + k)) :
    (addNext^[w] cursor).source = cursor.source + w ∧
      (addNext^[w] cursor).target = n ∧ FilledTo leaf (n + 1) (addNext^[w] cursor).cells := by
  have hcells : ∑ k ∈ range w, (cursor.cells.getD (cursor.source + k) 0).toNat =
      treeValue leaf n := by
    rw [hsum]
    refine sum_congr rfl fun k hk => ?_
    rw [Finset.mem_range] at hk
    exact h.filled _ (by omega)
  have hzero : (cursor.cells.getD cursor.target 0).toNat = 0 := by
    rw [htarget, h.rest n (Nat.le_refl n)]
    rfl
  have hle : treeValue leaf n ≤ heldBefore leaf 700 := treeValue_le hn
  obtain ⟨hsource', htarget', hother, hvalue⟩ := addNext_iterate w cursor
    (htarget ▸ hsource) (by rw [htarget, h.length]; exact hn) (by omega)
  rw [hzero, hcells, Nat.zero_add, htarget] at hvalue
  rw [htarget] at hother
  refine ⟨hsource', htarget'.trans htarget, ⟨?_, fun i hi => ?_, fun i hi => ?_⟩⟩
  · rw [← h.length]
    exact apply_iterate (f := fun cursor : SumCursor => cursor.cells.length)
      (fun cursor => length_modify _ _ _) w cursor
  · rcases Nat.lt_succ_iff_lt_or_eq.mp hi with hlt | rfl
    · rw [hother i hlt.ne]
      exact h.filled i hlt
    · exact hvalue
  · rw [hother i (by omega)]
    exact h.rest i (by omega)

theorem addTen_iterate {leaf : ℕ → ℕ} (hleaf : heldBefore leaf 700 < 2 ^ 32) {cells : List UInt32}
    (h : FilledTo leaf 700 cells) {m : ℕ} (hm : m ≤ 77) :
    (addTen^[m] ⟨cells, 0, 700⟩).source = 10 * m ∧ (addTen^[m] ⟨cells, 0, 700⟩).target = 700 + m ∧
      FilledTo leaf (700 + m) (addTen^[m] ⟨cells, 0, 700⟩).cells := by
  induction m with
  | zero => exact ⟨rfl, rfl, h⟩
  | succ m ih =>
    obtain ⟨hsource, htarget, hfilled⟩ := ih (by omega)
    rw [Function.iterate_succ_apply']
    have hsum : treeValue leaf (700 + m) = ∑ k ∈ range 10,
        treeValue leaf ((addTen^[m] ⟨cells, 0, 700⟩).source + k) := by
      rw [hsource]
      rcases Nat.lt_or_ge m 70 with hlt | hge
      · exact treeValue_level2 hlt
      · obtain ⟨p, rfl⟩ := Nat.exists_eq_add_of_le hge
        have hplace (j : ℕ) : 10 * (70 + p) + j = 700 + (10 * p + j) := by omega
        have hp : p < 7 := by omega
        simp only [hplace]
        rw [← treeValue_level1 hp]
        congr 1
        omega
    obtain ⟨hsource', htarget', hfilled'⟩ :=
      hfilled.next hleaf (show 700 + m < 778 by omega) htarget (by omega) hsum
    exact ⟨by rw [addTen, hsource', hsource, Nat.mul_succ], by rw [addTen, htarget', Nat.add_assoc],
      hfilled'⟩

end SumCursor

/-- All cells hold what they are to hold. -/
theorem filledTo_sumUp (hleaf : heldBefore leaf 700 < 2 ^ 32) {cells : List UInt32}
    (h : FilledTo leaf 700 cells) : FilledTo leaf 778 (sumUp cells) := by
  obtain ⟨hsource, htarget, hfilled⟩ := addTen_iterate hleaf h (Nat.le_refl 77)
  have hsum : treeValue leaf 777 = ∑ k ∈ range 7,
      treeValue leaf ((addTen^[77] ⟨cells, 0, 700⟩).source + k) := by
    rw [hsource]
    exact treeValue_total
  exact (hfilled.next hleaf (Nat.lt_succ_self 777) htarget (by omega) hsum).2.2

theorem sum_map_range (f : ℕ → ℕ) (n : ℕ) : ((List.range n).map f).sum = ∑ k ∈ range n, f k := by
  induction n with
  | zero => rfl
  | succ n ih =>
    rfl

theorem SumCursor.FilledTo.consistentTree {cells : List UInt32}
    (h : FilledTo leaf 778 cells) : ConsistentTree cells := by
  constructor
  · intro q hq
    rw [h.filled _ (by omega), treeValue_level2 hq, sum_map_range]
    refine sum_congr rfl fun k hk => ?_
    rw [Finset.mem_range] at hk
    exact (h.filled _ (by omega)).symm
  · intro p hp
    rw [h.filled _ (by omega), treeValue_level1 hp, sum_map_range]
    refine sum_congr rfl fun k hk => ?_
    rw [Finset.mem_range] at hk
    exact (h.filled _ (by omega)).symm
  · rw [h.filled _ (by omega), treeValue_total, sum_map_range]
    refine sum_congr rfl fun k hk => ?_
    rw [Finset.mem_range] at hk
    exact (h.filled _ (by omega)).symm

section Documents

variable {getInt32Value : BitVec 32 → Option Int32} {docs : List (BitVec 32)}

theorem positiveValue_bounds {doc : BitVec 32} {value : ℕ}
    (h : positiveValue getInt32Value doc = some value) : 0 < value ∧ value < 1000000000 := by
  obtain ⟨raw, _, hraw⟩ := Option.bind_eq_some_iff.mp h
  split at hraw
  · rename_i hpos
    obtain rfl := Option.some.inj hraw
    have hbound : bound.getD levelOneOfSegmentTree 0 = 1000000000 := rfl
    omega
  · cases hraw

theorem leafOf_lt {value : ℕ} (h : value < 1000000000) : leafOf value < 700 := by
  have hcases := leafOf_cases h
  omega

/-- The documents with their value in a leaf. -/
def leafCount (getInt32Value : BitVec 32 → Option Int32) (docs : List (BitVec 32)) (k : ℕ) : ℕ :=
  docs.countP fun doc => decide ((positiveValue getInt32Value doc).map leafOf = some k)

/-- The documents with their value in some consecutive leaves. -/
theorem sum_leafCount (a b : ℕ) : ∑ k ∈ Ico a b, leafCount getInt32Value docs k =
      docs.countP fun doc => (positiveValue getInt32Value doc).any fun value =>
        decide (a ≤ leafOf value ∧ leafOf value < b) := by
  induction docs with
  | nil => exact sum_const_zero
  | cons doc docs ih =>
    have hcons (k : ℕ) : leafCount getInt32Value (doc :: docs) k =
        leafCount getInt32Value docs k +
          if (positiveValue getInt32Value doc).map leafOf = some k then 1 else 0 := by
      rw [leafCount, countP_cons]
      simp only [decide_eq_true_eq]
      rfl
    simp only [hcons]
    rw [sum_add_distrib, ih, countP_cons]
    cases positiveValue getInt32Value doc with
    | none => simp
    | some value => simp [sum_ite_eq]

theorem heldBefore_leafCount : heldBefore (leafCount getInt32Value docs) 700 =
      docs.countP fun doc => (positiveValue getInt32Value doc).isSome := by
  rw [heldBefore, ← Nat.Ico_zero_eq_range, sum_leafCount]
  congr 1
  funext doc
  cases hvalue : positiveValue getInt32Value doc with
  | none => rfl
  | some value => simp [leafOf_lt (positiveValue_bounds hvalue).2]

theorem leafCount_lt (hfit : docs.countP (fun doc => (positiveValue getInt32Value doc).isSome) <
    2 ^ 32) (k : ℕ) : leafCount getInt32Value docs k < 2 ^ 32 := by
  refine lt_of_le_of_lt (countP_mono_left fun doc _ hdoc => ?_) hfit
  obtain ⟨value, hvalue, _⟩ := Option.map_eq_some_iff.mp (of_decide_eq_true hdoc)
  rw [hvalue]
  rfl

theorem filledTo_foldl_addDoc (property : String)
    (hfit : docs.countP (fun doc => (positiveValue getInt32Value doc).isSome) < 2 ^ 32) :
    FilledTo (leafCount getInt32Value docs) 700
      (docs.foldl addDoc { property, getInt32Value }).segmentTree := by
  suffices hrun : ∀ docs (counter : NumericRangeGroupCounter),
      counter.getInt32Value = getInt32Value → counter.segmentTree.length = 778 →
      (docs.foldl addDoc counter).segmentTree.length = 778 ∧
        ∀ i, (docs.foldl addDoc counter).segmentTree.getD i 0 =
          counter.segmentTree.getD i 0 +
            UInt32.ofNat (leafCount getInt32Value docs i) by
    obtain ⟨hlength, hcells⟩ := hrun docs { property, getInt32Value } rfl length_replicate
    have hzero (i : ℕ) : (List.replicate (111 * levelOneOfSegmentTree + 1) (0 : UInt32)).getD i 0 =
        0 := by
      rw [getD_eq_getElem?_getD, getElem?_replicate]
      split <;> rfl
    refine ⟨hlength, fun i hi => ?_, fun i hi => ?_⟩
    · rw [hcells, hzero, UInt32.zero_add, treeValue, if_pos hi,
        UInt32.toNat_ofNat_of_lt' (leafCount_lt hfit i)]
    · have hnone : leafCount getInt32Value docs i = 0 := by
        rw [leafCount, countP_eq_zero]
        intro doc _ hdoc
        obtain ⟨value, hvalue, hleaf⟩ := Option.map_eq_some_iff.mp (of_decide_eq_true hdoc)
        have hlt := leafOf_lt (positiveValue_bounds hvalue).2
        omega
      rw [hcells, hzero, hnone]
      rfl
  intro docs
  induction docs with
  | nil =>
    intro counter _ hlength
    refine ⟨hlength, fun i => ?_⟩
    exact (UInt32.add_zero _).symm
  | cons doc docs ih =>
    intro counter hget hlength
    rw [foldl_cons]
    have hstep : (counter.addDoc doc).getInt32Value = getInt32Value ∧
        (counter.addDoc doc).segmentTree.length = 778 ∧
        ∀ i, (counter.addDoc doc).segmentTree.getD i 0 = counter.segmentTree.getD i 0 +
          if (positiveValue getInt32Value doc).map leafOf = some i then 1 else 0 := by
      rw [addDoc, hget]
      cases hvalue : positiveValue getInt32Value doc with
      | none => exact ⟨hget, hlength, fun i => (UInt32.add_zero _).symm⟩
      | some value =>
        have hleaf := leafOf_lt (positiveValue_bounds hvalue).2
        refine ⟨rfl, (length_modify _ _ _).trans hlength, fun i => ?_⟩
        simp only [Option.map_some, Option.some.injEq]
        rw [getD_modify _ _ _ _ _ (by omega)]
        split
        · rfl
        · exact (UInt32.add_zero _).symm
    obtain ⟨hget', hlength', hcells⟩ := hstep
    obtain ⟨hlength'', hcells'⟩ := ih _ hget' hlength'
    refine ⟨hlength'', fun i => ?_⟩
    rw [hcells', hcells, UInt32.add_assoc, leafCount, leafCount, countP_cons, Nat.add_comm,
      UInt32.ofNat_add]
    simp only [decide_eq_true_eq]
    split <;> rfl

theorem property_foldl_addDoc (docs : List (BitVec 32)) (counter : NumericRangeGroupCounter) :
    (docs.foldl addDoc counter).property = counter.property := by
  induction docs generalizing counter with
  | nil => rfl
  | cons doc docs ih =>
    rw [foldl_cons, ih, addDoc]
    split <;> rfl

/-- The tree of some documents. -/
theorem exists_getGroupRep (property : String)
    (hfit : docs.countP (fun doc => (positiveValue getInt32Value doc).isSome) < 2 ^ 32) :
    ∃ tree : SegmentTree, FilledTo (leafCount getInt32Value docs) 778 tree.cells ∧
      ∀ groupRep, ((docs.foldl addDoc
        { property, getInt32Value }).getGroupRep groupRep).map Prod.fst =
          some (groupRep ++ [(property, tree)]) := by
  have hfilled := filledTo_foldl_addDoc property hfit
  have hproperty := property_foldl_addDoc docs { property, getInt32Value }
  generalize docs.foldl addDoc { property, getInt32Value } = counter
    at hfilled hproperty ⊢
  have hleaf : heldBefore (leafCount getInt32Value docs) 700 < 2 ^ 32 := by
    rw [heldBefore_leafCount]
    exact hfit
  have hsum := filledTo_sumUp hleaf hfilled
  have hsize : 778 = 111 * levelOneOfSegmentTree + 1 := rfl
  refine ⟨⟨sumUp counter.segmentTree, hsum.length.trans hsize⟩, by simpa only using hsum,
    fun groupRep => ?_⟩
  rw [getGroupRep, dif_pos (hfilled.length.trans hsize),
    Option.map_some, hproperty]

end Documents

end AdDelivery.GroupManager
