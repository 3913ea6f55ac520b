import AdDelivery.GroupManager.NumericRanges
import Mathlib.Tactic.IntervalCases

/-!
# Ranges partition the documents

The ranges that are listed for a property cut the leaves of its tree from the first decade to the
last one. So they ascend, none is empty, and each counts the documents whose value lies in it.
-/

namespace AdDelivery.GroupManager

open List Prod Option Nat

section Split

variable {F : Type} (varianceReduce : ℕ → ℕ → F) (greater : F → F → Bool) {decades : List (ℕ × ℕ)}

/-- The best decade has documents for one more range. -/
theorem findBest_spec {varianceReduce : ℕ → ℕ → F} {greater : F → F → Bool} {i k : ℕ}
    {best : Option (ℕ × F)} (h : findBest varianceReduce greater i decades best = some k) :
    best.map fst = some k ∨ ∃ n e, k = i + n ∧ decades[n]? = some e ∧ e.2 < e.1 := by
  induction decades generalizing i best with
  | nil => exact Or.inl h
  | cons e decades ih =>
    have hskip {best : Option (ℕ × F)}
        (hrest : findBest varianceReduce greater (i + 1) decades best = some k) :
        best.map fst = some k ∨
          ∃ n e', k = i + n ∧ (e :: decades)[n]? = some e' ∧ e'.2 < e'.1 := by
      rcases ih hrest with hbest | ⟨n, e', hk, hget, hlt⟩
      · exact Or.inl hbest
      · exact Or.inr ⟨n + 1, e', by omega, hget, hlt⟩
    have htake {reduce : F} (hlt : ¬ e.1 ≤ e.2)
        (hrest : findBest varianceReduce greater (i + 1) decades (some (i, reduce)) = some k) :
        ∃ n e', k = i + n ∧ (e :: decades)[n]? = some e' ∧ e'.2 < e'.1 := by
      rcases hskip hrest with hbest | hmore
      · exact ⟨0, e, (some.inj hbest).symm, rfl, not_le.mp hlt⟩
      · exact hmore
    rw [findBest] at h
    split_ifs at h with hle
    · exact hskip h
    · cases best with
      | none => exact Or.inr (htake hle h)
      | some best =>
        simp only at h
        split_ifs at h
        · exact Or.inr (htake hle h)
        · exact hskip h

/-- The decades keep their documents, and just those with documents have ranges. -/
structure SplitsLevel1 (level1 : List ℕ) (decades : List (ℕ × ℕ)) : Prop where
  map_fst : decades.map fst = level1
  zero_iff : ∀ e ∈ decades, e.2 = 0 ↔ e.1 = 0

variable {level1 : List ℕ}

theorem SplitsLevel1.modify (h : SplitsLevel1 level1 decades) {k : ℕ} {e : ℕ × ℕ}
    (hget : decades[k]? = some e) (hlt : e.2 < e.1) :
    SplitsLevel1 level1 (decades.modify k fun e => (e.1, e.2 + 1)) := by
  constructor
  · rw [← h.map_fst]
    apply ext_getElem?
    intro n
    rw [getElem?_map, getElem?_map, getElem?_modify]
    cases decades[n]? with
    | none => rfl
    | some e => split <;> rfl
  · intro e' he'
    obtain ⟨n, hn⟩ := mem_iff_getElem?.mp he'
    rw [getElem?_modify] at hn
    obtain ⟨e'', hget', rfl⟩ := map_eq_some_iff.mp hn
    split
    · rename_i hkn
      subst hkn
      obtain rfl : e = e'' := some.inj (hget.symm.trans hget')
      omega
    · exact h.zero_iff _ (mem_of_getElem? hget')

theorem sum_map_snd_modify (decades : List (ℕ × ℕ)) (k : ℕ) :
    ((decades.modify k fun e => (e.1, e.2 + 1)).map snd).sum ≤ (decades.map snd).sum + 1 := by
  induction decades generalizing k with
  | nil => simp
  | cons e decades ih =>
    cases k with
    | zero => simp [modify_zero_cons]; omega
    | succ k =>
      have hrest := ih k
      simp only [modify_succ_cons, map_cons, sum_cons]
      omega

theorem splitMore_spec (h : SplitsLevel1 level1 decades) (rangeNumber : ℕ) :
    SplitsLevel1 level1 (splitMore varianceReduce greater rangeNumber decades) ∧
      ((splitMore varianceReduce greater rangeNumber decades).map snd).sum ≤
        (decades.map snd).sum + rangeNumber := by
  induction rangeNumber generalizing decades with
  | zero => exact ⟨h, le_refl _⟩
  | succ rangeNumber ih =>
    rw [splitMore]
    cases hbest : findBest varianceReduce greater 0 decades none with
    | none => exact ⟨h, le_add_right _ _⟩
    | some best =>
      rcases findBest_spec hbest with hnone | ⟨n, e, hn, hget, hlt⟩
      · cases hnone
      · rw [zero_add] at hn
        subst hn
        obtain ⟨hsplits, hsum⟩ := ih (h.modify hget hlt)
        have hmodify := sum_map_snd_modify decades best
        refine ⟨hsplits, hsum.trans ?_⟩
        omega

/-- At most seven ranges are given away. -/
theorem splitDecades_spec (hlength : level1.length = 7) :
    SplitsLevel1 level1 (splitDecades varianceReduce greater level1) ∧
      ((splitDecades varianceReduce greater level1).map snd).sum ≤ 7 := by
  have hinit : SplitsLevel1 level1
      (level1.map fun count => (count, if count = 0 then 0 else 1)) := by
    constructor
    · rw [List.map_map]
      exact map_id level1
    · intro e he
      obtain ⟨count, _, rfl⟩ := mem_map.mp he
      split <;> simp_all
  have hsum : ((level1.map fun count => (count, if count = 0 then 0 else 1)).map snd).sum =
      level1.countP fun count => decide (count ≠ 0) := by
    clear hinit hlength
    induction level1 with
    | nil => rfl
    | cons count level1 ih =>
      rw [map_cons, map_cons, sum_cons, ih, add_comm]
      by_cases hcount : count = 0 <;> simp [hcount]
  have hle : level1.countP (fun count => decide (count ≠ 0)) ≤ 7 := by
    rw [← hlength]
    exact countP_le_length
  obtain ⟨hsplits, hmore⟩ := splitMore_spec varianceReduce greater hinit
    (maxRangeNumber - level1.countP fun count => decide (count ≠ 0))
  have hmax : maxRangeNumber = 7 := rfl
  refine ⟨hsplits, hmore.trans ?_⟩
  omega

end Split

/-- The least value of a leaf. -/
def leafStart (k : ℕ) : ℕ := atomOf (k / 100) * (k % 100)

/-- The greatest value of a leaf. -/
def leafEnd (k : ℕ) : ℕ := atomOf (k / 100) * (k % 100 + 1) - 1

/-- The range of values of some leaves. -/
def leafRange (piece : Piece) : NumericRange where
  lower := leafStart piece.first
  upper := leafEnd piece.last
  docCount := piece.count

theorem leafRange_shift {i : ℕ} {piece : Piece} (hfirst : piece.first < 100)
    (hlast : piece.last < 100) :
    leafRange (piece.shift (100 * i)) = Decade.toRange (atomOf i) piece := by
  have hplace {k : ℕ} (hk : k < 100) : (100 * i + k) / 100 = i ∧ (100 * i + k) % 100 = k := by
    omega
  rw [leafRange, leafStart, leafEnd, Piece.shift, Decade.toRange]
  simp only [(hplace hfirst).1, (hplace hfirst).2, (hplace hlast).1, (hplace hlast).2]

section Decades

variable {leaf : ℕ → ℕ} {cells : List UInt32}

/-- What a filled tree says about a decade. -/
theorem SumCursor.FilledTo.decade (h : SumCursor.FilledTo leaf 778 cells)
    (hsmall : heldBefore leaf 700 < 2 ^ 28) {i : ℕ} (hi : i < 7) :
    Decade cells i fun k => leaf (100 * i + k) := by
  have hleaf {k : ℕ} (hk : k < 700) : treeValue leaf k = leaf k := by
    rw [treeValue, if_pos hk]
  have hrow {a : ℕ} (ha : a < 10) : treeValue leaf (700 + (10 * i + a)) =
      ∑ b ∈ Finset.range 10, leaf (100 * i + (10 * a + b)) := by
    rw [treeValue_level2 (by omega)]
    refine Finset.sum_congr rfl fun b hb => ?_
    rw [Finset.mem_range] at hb
    rw [hleaf (by omega)]
    congr 1
    omega
  have htotal : treeValue leaf (770 + i) = heldBefore (fun k => leaf (100 * i + k)) 100 := by
    rw [treeValue_level1 hi, ← sum_blocks (fun k => leaf (100 * i + k)) 10 10]
    refine Finset.sum_congr rfl fun a ha => ?_
    rw [Finset.mem_range] at ha
    exact hrow ha
  refine ⟨h.length, hi, fun k hk => ?_, fun a ha => ?_, ?_, ?_⟩
  · rw [h.filled _ (by omega), hleaf (by omega)]
  · rw [add_assoc, h.filled _ (by omega), hrow ha]
  · rw [h.filled _ (by omega), htotal]
  · rw [← htotal]
    exact (treeValue_le (by omega)).trans_lt hsmall

/-- The ranges of the decades from one on. -/
theorem allRanges_eq (hdecade : ∀ i < 7, Decade cells i fun k => leaf (100 * i + k))
    {decades : List (ℕ × ℕ)} {i : ℕ} (hi : i + decades.length = 7)
    (hsplit : ∀ n e, decades[n]? = some e →
      e.2 ≤ 7 ∧ (e.2 = 0 ↔ heldBefore (fun k => leaf (100 * (i + n) + k)) 100 = 0)) :
    ∃ pieces, allRanges cells i decades = some (pieces.map leafRange) ∧
      Cut leaf 700 (100 * i) pieces ∧ pieces.length ≤ (decades.map snd).sum ∧
      ∀ piece ∈ pieces, piece.first / 100 = piece.last / 100 := by
  induction decades generalizing i with
  | nil =>
    obtain rfl : i = 7 := hi
    exact ⟨[], rfl, ⟨le_refl _, rfl⟩, le_refl _, fun piece hpiece => nomatch hpiece⟩
  | cons decade decades ih =>
    rw [length_cons] at hi
    obtain ⟨hle, hzero⟩ := hsplit 0 decade rfl
    obtain ⟨pieces, hranges, hcut, hlength⟩ :=
      (hdecade i (by omega)).decadeRanges_eq hle hzero
    obtain ⟨rest, hrest, hcutRest, hlengthRest, hsameRest⟩ := ih (i := i + 1) (by omega)
      fun n e hget => by
        rw [add_assoc, add_comm 1 n]
        exact hsplit (n + 1) e hget
    have hshift : pieces.map (Decade.toRange (atomOf i)) =
        (pieces.map (Piece.shift (100 * i))).map leafRange := by
      rw [List.map_map]
      apply map_congr_left
      intro piece hpiece
      obtain ⟨_, hfirst, hlast, _⟩ := hcut.piece_spec hpiece
      exact (leafRange_shift (by omega) hlast).symm
    refine ⟨pieces.map (Piece.shift (100 * i)) ++ rest, ?_, ?_, ?_, ?_⟩
    · rw [allRanges, hranges, bind_some, hrest, map_some, hshift, map_append]
    · exact hcut.shift.append hcutRest (by omega)
    · rw [length_append, List.length_map, map_cons]
      exact Nat.add_le_add hlength hlengthRest
    · intro piece hpiece
      rcases mem_append.mp hpiece with hpiece | hpiece
      · obtain ⟨piece', hpiece', rfl⟩ := mem_map.mp hpiece
        obtain ⟨_, hfirst, hlast, _⟩ := hcut.piece_spec hpiece'
        simp only [Piece.shift]
        omega
      · exact hsameRest piece hpiece

/-- The ranges of a tree cut all of its leaves. -/
theorem treeRanges_eq {F : Type} (varianceReduce : ℕ → ℕ → F) (greater : F → F → Bool)
    {tree : SegmentTree} (h : SumCursor.FilledTo leaf 778 tree.cells)
    (hsmall : heldBefore leaf 700 < 2 ^ 28) :
    ∃ pieces, treeRanges varianceReduce greater tree = some (pieces.map leafRange) ∧
      Cut leaf 700 0 pieces ∧ pieces.length ≤ maxRangeNumber ∧
      ∀ piece ∈ pieces, piece.first / 100 = piece.last / 100 := by
  have hdecade (i : ℕ) (hi : i < 7) := h.decade hsmall hi
  have hlevel1 {n : ℕ} (hn : n < 7) :
      (((tree.cells.drop 770).take 7).map UInt32.toNat)[n]? =
        some (heldBefore (fun k => leaf (100 * n + k)) 100) := by
    rw [getElem?_map, getElem?_take_of_lt hn, getElem?_drop,
      ← (hdecade n hn).total, getD_eq_getElem?_getD, getElem?_eq_getElem (by rw [h.length]; omega)]
    rfl
  have hlength : (((tree.cells.drop 770).take 7).map UInt32.toNat).length = 7 := by
    rw [List.length_map, length_take, length_drop, h.length]
    rfl
  obtain ⟨hsplits, hsum⟩ :=
    splitDecades_spec varianceReduce greater hlength
  have hcount : (splitDecades varianceReduce greater
      (((tree.cells.drop 770).take 7).map UInt32.toNat)).length = 7 := by
    rw [← List.length_map (f := fst), hsplits.map_fst, hlength]
  obtain ⟨pieces, hranges, hcut, hle, hsame⟩ := allRanges_eq hdecade (i := 0)
    (by rw [hcount]) fun n e hget => by
      have hn : n < 7 := by
        rw [← hcount]
        exact (List.getElem?_eq_some_iff.mp hget).1
      have hmem := mem_of_getElem? hget
      have hfst : some e.1 = some (heldBefore (fun k => leaf (100 * n + k)) 100) := by
        rw [← hlevel1 hn, ← hsplits.map_fst, getElem?_map, hget]
        rfl
      rw [zero_add, hsplits.zero_iff e hmem, some.inj hfst]
      refine ⟨le_trans ?_ hsum, Iff.rfl⟩
      exact le_sum_of_mem (mem_map_of_mem hmem)
  exact ⟨pieces, hranges, hcut, hle.trans hsum, hsame⟩

end Decades

/-- A leaf that a value can have. -/
def IsValueLeaf (k : ℕ) : Prop := k < 100 ∨ 10 ≤ k % 100 ∧ k < 700

theorem isValueLeaf_leafOf {value : ℕ} (h : value < 1000000000) : IsValueLeaf (leafOf value) := by
  have hcases := leafOf_cases h
  unfold IsValueLeaf
  omega

/-- The decade of a leaf and its place there. -/
theorem IsValueLeaf.exists_place {k : ℕ} (hk : IsValueLeaf k) :
    ∃ i j, i < 7 ∧ j < 100 ∧ (i = 0 ∨ 10 ≤ j) ∧ k = 100 * i + j ∧
      leafStart k = atomOf i * j ∧ leafEnd k = atomOf i * (j + 1) - 1 := by
  unfold IsValueLeaf at hk
  exact ⟨k / 100, k % 100, by omega, by omega, by omega, by omega, rfl, rfl⟩

theorem leafOf_le_iff {value k : ℕ} (h : value < 1000000000) (hk : IsValueLeaf k) :
    leafOf value ≤ k ↔ value ≤ leafEnd k := by
  have hcases := leafOf_cases h
  obtain ⟨i, j, hi, hj, hten, rfl, _, hend⟩ := hk.exists_place
  rw [hend]
  interval_cases i <;> simp only [atomOf, bound] <;> simp <;> omega

theorem le_leafOf_iff {value k : ℕ} (h : value < 1000000000) (hk : IsValueLeaf k) :
    k ≤ leafOf value ↔ leafStart k ≤ value := by
  have hcases := leafOf_cases h
  obtain ⟨i, j, hi, hj, hten, rfl, hstart, _⟩ := hk.exists_place
  rw [hstart]
  interval_cases i <;> simp only [atomOf, bound] <;> simp <;> omega

theorem leafEnd_lt {k : ℕ} (hk : IsValueLeaf k) : leafEnd k < 1000000000 := by
  obtain ⟨i, j, hi, hj, _, rfl, _, hend⟩ := hk.exists_place
  rw [hend]
  interval_cases i <;> simp only [atomOf, bound] <;> simp <;> omega

/-- The values of later leaves are greater. -/
theorem leafEnd_lt_leafStart {k k' : ℕ} (hk : IsValueLeaf k) (hk' : IsValueLeaf k') (h : k < k') :
    leafEnd k < leafStart k' := by
  have hlt := leafEnd_lt hk
  have hle := (leafOf_le_iff hlt hk).mpr (le_refl _)
  rw [← not_le, ← le_leafOf_iff hlt hk']
  omega

section Documents

variable (getInt32Value : BitVec 32 → Option Int32) (docs : List (BitVec 32))

/-- The documents with a positive value. -/
def positiveDocs : ℕ := docs.countP fun doc => (positiveValue getInt32Value doc).isSome

/-- The documents with a value between two bounds. -/
def docsBetween (lower upper : ℕ) : ℕ :=
  docs.countP fun doc => (positiveValue getInt32Value doc).any fun value =>
    decide (lower ≤ value ∧ value ≤ upper)

/-- A few ascending ranges that no document with a positive value misses. -/
structure Partitions (ranges : List NumericRange) : Prop where
  length_le : ranges.length ≤ maxRangeNumber
  docCount_pos : ∀ range ∈ ranges, 0 < range.docCount
  ascending : ranges.Pairwise fun range range' => range.upper < range'.lower
  docCount_eq : ∀ range ∈ ranges,
    range.docCount = docsBetween getInt32Value docs range.lower range.upper
  sum_docCount : (ranges.map NumericRange.docCount).sum = positiveDocs getInt32Value docs

variable {getInt32Value docs}

theorem isValueLeaf_of_leafCount {k : ℕ} (h : leafCount getInt32Value docs k ≠ 0) :
    IsValueLeaf k := by
  obtain ⟨doc, _, hdoc⟩ := countP_pos_iff.mp (pos_of_ne_zero h)
  obtain ⟨value, hvalue, rfl⟩ := map_eq_some_iff.mp (of_decide_eq_true hdoc)
  exact isValueLeaf_leafOf (positiveValue_bounds hvalue).2

/-- The documents of some leaves are those with a value in their range. -/
theorem sum_leafCount_eq_docsBetween {first last : ℕ} (hfirst : IsValueLeaf first)
    (hlast : IsValueLeaf last) : ∑ k ∈ Finset.Ico first (last + 1), leafCount getInt32Value docs k =
      docsBetween getInt32Value docs (leafStart first) (leafEnd last) := by
  rw [sum_leafCount]
  congr 1
  funext doc
  cases hvalue : positiveValue getInt32Value doc with
  | none => rfl
  | some value =>
    have hlt := (positiveValue_bounds hvalue).2
    simp only [Option.any_some, Nat.lt_succ_iff, le_leafOf_iff hlt hfirst, leafOf_le_iff hlt hlast]

theorem partitions_of_cut {pieces : List Piece}
    (hcut : Cut (leafCount getInt32Value docs) 700 0 pieces)
    (hlength : pieces.length ≤ maxRangeNumber)
    (hsame : ∀ piece ∈ pieces, piece.first / 100 = piece.last / 100) :
    Partitions getInt32Value docs (pieces.map leafRange) := by
  have hfirst {piece : Piece} (hpiece : piece ∈ pieces) : IsValueLeaf piece.first :=
    isValueLeaf_of_leafCount (hcut.piece_spec hpiece).2.2.2.1
  have hlast {piece : Piece} (hpiece : piece ∈ pieces) : IsValueLeaf piece.last := by
    obtain ⟨_, hle, hlt, _⟩ := hcut.piece_spec hpiece
    have hvalid := hfirst hpiece
    have hdecade := hsame piece hpiece
    unfold IsValueLeaf at hvalid ⊢
    omega
  constructor
  · rw [List.length_map]
    exact hlength
  · intro range hrange
    obtain ⟨piece, hpiece, rfl⟩ := mem_map.mp hrange
    exact hcut.count_pos hpiece
  · rw [pairwise_map]
    refine hcut.pairwise.imp_of_mem fun hpiece hpiece' hlt => ?_
    exact leafEnd_lt_leafStart (hlast hpiece) (hfirst hpiece') hlt
  · intro range hrange
    obtain ⟨piece, hpiece, rfl⟩ := mem_map.mp hrange
    rw [leafRange, hcut.count_eq hpiece,
      sum_leafCount_eq_docsBetween (hfirst hpiece) (hlast hpiece)]
  · have hsum := hcut.sum_count
    rw [heldBefore_leafCount] at hsum
    rw [List.map_map, positiveDocs, ← hsum]
    exact (zero_add _).symm

end Documents

/-- What is counted for a property. -/
structure CountedProperty where
  property : String
  getInt32Value : BitVec 32 → Option Int32
  docs : List (BitVec 32)

namespace CountedProperty

def counter (counted : CountedProperty) : NumericRangeGroupCounter :=
  counted.docs.foldl NumericRangeGroupCounter.addDoc
    { property := counted.property, getInt32Value := counted.getInt32Value }

/-- The counters hand over their trees one after another. -/
def getGroupReps : List CountedProperty → NumericRangeGroupRep → Option NumericRangeGroupRep
  | [], groupRep => some groupRep
  | counted :: rest, groupRep =>
    (counted.counter.getGroupRep groupRep).bind fun next => getGroupReps rest next.1

end CountedProperty

open CountedProperty

/-- What a result has for a property. -/
structure ShownProperty where
  property : String
  tree : SegmentTree
  ranges : List NumericRange

namespace ShownProperty

variable {UString S : Type} [Zero S]

def items (utf8 : Utf8 UString) (shown : ShownProperty) : StringGroupRep UString S :=
  rangeRoot utf8 shown.property shown.tree :: shown.ranges.map (rangeItem utf8)

/-- The tree is consistent, and the ranges partition the documents that were counted. -/
structure Shows (counted : CountedProperty) (shown : ShownProperty) : Prop where
  property : shown.property = counted.property
  consistent : ConsistentTree shown.tree.cells
  partitions : Partitions counted.getInt32Value counted.docs shown.ranges

end ShownProperty

open ShownProperty

section List

variable {UString S F : Type} [Zero S] (utf8 : Utf8 UString) (varianceReduce : ℕ → ℕ → F)
  (greater : F → F → Bool)

/-- One property of a result. -/
theorem exists_shows {counted : CountedProperty}
    (hcount : positiveDocs counted.getInt32Value counted.docs < 2 ^ 28) :
    ∃ shown : ShownProperty, shown.Shows counted ∧
      treeRanges varianceReduce greater shown.tree = some shown.ranges ∧
      ∀ groupRep, (counted.counter.getGroupRep groupRep).map fst =
        some (groupRep ++ [(shown.property, shown.tree)]) := by
  have hheld : heldBefore (leafCount counted.getInt32Value counted.docs) 700 < 2 ^ 28 := by
    rw [heldBefore_leafCount]
    exact hcount
  obtain ⟨tree, hfilled, hrep⟩ := exists_getGroupRep counted.property
    (show counted.docs.countP (fun doc => (positiveValue counted.getInt32Value doc).isSome) <
      2 ^ 32 from hcount.trans (by decide))
  obtain ⟨pieces, hranges, hcut, hlength, hsame⟩ :=
    treeRanges_eq varianceReduce greater hfilled hheld
  refine ⟨⟨counted.property, tree, pieces.map leafRange⟩, ⟨rfl, hfilled.consistentTree, ?_⟩,
    hranges, hrep⟩
  exact partitions_of_cut hcut hlength hsame

theorem toOntologyRepItemList_eq {shown : List ShownProperty}
    (hranges : ∀ s ∈ shown, treeRanges varianceReduce greater s.tree = some s.ranges)
    (itemList : StringGroupRep UString S) : toOntologyRepItemList utf8 varianceReduce greater
      (shown.map fun s => (s.property, s.tree)) itemList =
        some (itemList ++ shown.flatMap (ShownProperty.items utf8)) := by
  induction shown generalizing itemList with
  | nil => simp [toOntologyRepItemList]
  | cons s shown ih =>
    rw [map_cons, toOntologyRepItemList, hranges s mem_cons_self, bind_some,
      ih fun s' hs' => hranges s' (mem_cons_of_mem s hs'), flatMap_cons, ← append_assoc]
    rfl

/-- For every property that is counted a consistent tree is built, and the list of the result has
the total of the tree and a few ranges that partition the documents. -/
theorem numericRanges_partition {counted : List CountedProperty}
    (hcount : ∀ c ∈ counted, positiveDocs c.getInt32Value c.docs < 2 ^ 28)
    (itemList : StringGroupRep UString S) :
    ∃ shown : List ShownProperty, List.Forall₂ Shows counted shown ∧
      ∃ groupRep, getGroupReps counted [] = some groupRep ∧
        groupRep = shown.map (fun s => (s.property, s.tree)) ∧
        toOntologyRepItemList utf8 varianceReduce greater groupRep itemList =
          some (itemList ++ shown.flatMap (ShownProperty.items utf8)) := by
  obtain ⟨shown, hshows, hranges, hrep⟩ : ∃ shown : List ShownProperty,
      List.Forall₂ Shows counted shown ∧
      (∀ s ∈ shown, treeRanges varianceReduce greater s.tree = some s.ranges) ∧
      ∀ groupRep, getGroupReps counted groupRep =
        some (groupRep ++ shown.map fun s => (s.property, s.tree)) := by
    induction counted with
    | nil =>
      refine ⟨[], List.Forall₂.nil, nofun, fun groupRep => ?_⟩
      rw [map_nil, append_nil]
      rfl
    | cons c counted ih =>
      obtain ⟨shown, hshows, hranges, hrep⟩ :=
        ih fun c' hc' => hcount c' (mem_cons_of_mem c hc')
      obtain ⟨s, hs, hrange, htree⟩ :=
        exists_shows varianceReduce greater (hcount c mem_cons_self)
      refine ⟨s :: shown, hshows.cons hs, ?_, fun groupRep => ?_⟩
      · rw [forall_mem_cons]
        exact ⟨hrange, hranges⟩
      · obtain ⟨next, hnext, hfst⟩ := map_eq_some_iff.mp (htree groupRep)
        rw [getGroupReps, hnext, bind_some, hrep, hfst, append_assoc]
        rfl
  exact ⟨shown, hshows, _, (hrep []).trans (congrArg some (nil_append _)), rfl,
    toOntologyRepItemList_eq utf8 varianceReduce greater hranges itemList⟩

end List

/-- Two prices in one decade. -/
def twoPrices : CountedProperty where
  property := "price"
  getInt32Value := fun doc => some (Int32.ofNat (100 * doc.toNat))
  docs := [1, 2]

theorem numericRanges_twoPrices :
    ∃ shown : List ShownProperty, List.Forall₂ Shows [twoPrices] shown ∧
      ∃ groupRep, getGroupReps [twoPrices] [] = some groupRep ∧
        groupRep = shown.map (fun s => (s.property, s.tree)) ∧
        toOntologyRepItemList plainText (fun count split => count * count / split / (split + 1))
          (fun a b => decide (b < a)) groupRep ([] : StringGroupRep String ℕ) =
          some ([] ++ shown.flatMap (ShownProperty.items plainText)) := by
  apply numericRanges_partition
  intro c hc
  obtain rfl := mem_singleton.mp hc
  exact countP_le_length.trans_lt (by decide)

end AdDelivery.GroupManager
