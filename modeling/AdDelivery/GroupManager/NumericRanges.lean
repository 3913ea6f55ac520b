import AdDelivery.GroupManager.NumericRangeGroupCounter
import AdDelivery.GroupManager.StringGroupCounter

/-!
# Numeric ranges

At most seven ranges are listed for a property. Every decade with documents gets one, and the
others go where they reduce the variance most. Within a decade two iterators walk over the leaves
that are not zero, and a range ends where the documents before come closest to its share.
-/

namespace AdDelivery.GroupManager

open List

def maxRangeNumber : ℕ := 7

/-- A range of values and its documents. -/
structure NumericRange where
  lower : ℕ
  upper : ℕ
  docCount : ℕ

section Split

variable {F : Type} (varianceReduce : ℕ → ℕ → F) (greater : F → F → Bool)

/-- The decade that gains most from one more range, among those with more documents than ranges.
The reduction of a variance is a floating point number. -/
def findBest : ℕ → List (ℕ × ℕ) → Option (ℕ × F) → Option ℕ
  | _, [], best => best.map Prod.fst
  | i, (count, split) :: rest, best =>
    if count ≤ split then findBest (i + 1) rest best
    else
      let reduce := varianceReduce count split
      match best with
      | none => findBest (i + 1) rest (some (i, reduce))
      | some (best, bestReduce) =>
        if greater reduce bestReduce then findBest (i + 1) rest (some (i, reduce))
        else findBest (i + 1) rest (some (best, bestReduce))

/-- Spend the ranges that are left. -/
def splitMore : ℕ → List (ℕ × ℕ) → List (ℕ × ℕ)
  | 0, decades => decades
  | rangeNumber + 1, decades =>
    match findBest varianceReduce greater 0 decades none with
    | none => decades
    | some best => splitMore rangeNumber (decades.modify best fun e => (e.1, e.2 + 1))

/-- The documents and the number of ranges of each decade. -/
def splitDecades (level1 : List ℕ) : List (ℕ × ℕ) :=
  splitMore varianceReduce greater (maxRangeNumber - level1.countP fun count => decide (count ≠ 0))
    (level1.map fun count => (count, if count = 0 then 0 else 1))

end Split

/-- The number of zeros that an iterator passes; it does not find the end of the vector. -/
def skipZeros : List UInt32 → Option ℕ
  | [] => none
  | cell :: cells => if cell = 0 then (skipZeros cells).map (· + 1) else some 0

/-- Go down from a place to a cell that is not zero. -/
def scanDown (cells : List UInt32) (base : ℕ) : ℕ → Option ℕ
  | 0 => cells[base]?.bind fun cell => if cell = 0 then none else some 0
  | a + 1 =>
    cells[base + (a + 1)]?.bind fun cell =>
      if cell = 0 then scanDown cells base a else some (a + 1)

/-- The place of the walk, as a pair and as an iterator, what has been counted, how far this is
from the share of the range, and the place that was counted last. -/
structure Walk where
  stop : ℕ × ℕ
  vit : ℕ
  tempCount : ℕ
  difference : ℤ
  tempStop : ℕ × ℕ

/-- On to the next cell of a row that is not zero, or behind the row, which has as many cells left
as the first argument says. -/
def nextInRow (cells : List UInt32) : ℕ → ℕ → ℕ → Option (ℕ × ℕ)
  | 0, second, vit => some (second + 1, vit)
  | left + 1, second, vit =>
    cells[vit + 1]?.bind fun cell =>
      if cell = 0 then nextInRow cells left (second + 1) (vit + 1) else some (second + 1, vit + 1)

/-- On to the next cell that is not zero, in this row or in a later one. -/
def nextCell (cells : List UInt32) (level3 level2 : ℕ) (stop : ℕ × ℕ) (vit : ℕ) :
    Option ((ℕ × ℕ) × ℕ) :=
  (nextInRow cells (9 - stop.2) stop.2 vit).bind fun next =>
    if next.1 = 10 then
      (skipZeros (cells.drop (level2 + (stop.1 + 1)))).bind fun rows =>
        let first := stop.1 + 1 + rows
        let vit := level3 + 10 * first
        (skipZeros (cells.drop vit)).map fun zeros => ((first, zeros), vit + zeros)
    else some ((stop.1, next.1), next.2)

/-- The numbers of an `int`. -/
def IsInt32 (n : ℤ) : Prop := -2 ^ 31 ≤ n ∧ n < 2 ^ 31

instance decidableIsInt32 (n : ℤ) : Decidable (IsInt32 n) := inferInstanceAs (Decidable (_ ∧ _))

/-- The loop of one range. An overflow of an `int` has no defined outcome. -/
def walk (cells : List UInt32) (level3 level2 total : ℕ) : ℕ → Walk → Option Walk
  | 0, _ => none
  | fuel + 1, w =>
    cells[w.vit]?.bind fun cell =>
      let newDifference := (w.difference + cell.toNat).bmod (2 ^ 32)
      if ¬ IsInt32 (newDifference + w.difference) then none
      else if 0 ≤ newDifference + w.difference then some w
      else
        let w :=
          if newDifference ≠ w.difference then
            { w with
              tempCount := (w.tempCount + cell.toNat) % 2 ^ 32
              difference := newDifference
              tempStop := w.stop }
          else w
        if w.tempCount = total then some w
        else
          (nextCell cells level3 level2 w.stop w.vit).bind fun next =>
            walk cells level3 level2 total fuel { w with stop := next.1, vit := next.2 }

/-- What the ranges up to this one should hold, less one. -/
def shareBefore (total split j : ℕ) : ℕ :=
  ((j + 1) * total % 2 ^ 32 + (2 ^ 32 - 1)) % 2 ^ 32 / split

/-- The ranges of a decade but the last one. -/
def walkRanges (cells : List UInt32) (level3 level2 total atom split : ℕ) :
    ℕ → ℕ → Walk → ℕ → Option (List NumericRange × Walk)
  | 0, _, w, _ => some ([], w)
  | left + 1, j, w, oldCount =>
    let difference := ((w.tempCount : ℤ) - shareBefore total split j - 1).bmod (2 ^ 32)
    let oldStop := w.stop
    (walk cells level3 level2 total 101 { w with difference, tempStop := (0, 0) }).bind fun w =>
      if oldCount ≠ w.tempCount then
        let range : NumericRange :=
          { lower := atom * (10 * oldStop.1 + oldStop.2)
            upper := atom * (10 * w.tempStop.1 + w.tempStop.2 + 1) - 1
            docCount := (w.tempCount + (2 ^ 32 - oldCount)) % 2 ^ 32 }
        if w.tempCount = total then some ([range], w)
        else
          (walkRanges cells level3 level2 total atom split left (j + 1) w w.tempCount).map
            fun rest => (range :: rest.1, rest.2)
      else walkRanges cells level3 level2 total atom split left (j + 1) w oldCount

/-- The ranges of a decade, given how many there may be. -/
def decadeRanges (cells : List UInt32) (i split : ℕ) : Option (List NumericRange) :=
  if split = 0 then some []
  else
    let level3 := 100 * i
    let level2 := 100 * levelOneOfSegmentTree + 10 * i
    let level1 := 110 * levelOneOfSegmentTree + i
    let atom := bound.getD (i + 1) 0 / 100
    cells[level1]?.bind fun total =>
      (scanDown cells level2 9).bind fun endFirst =>
      (scanDown cells (level3 + 10 * endFirst) 9).bind fun endSecond =>
      (skipZeros (cells.drop level2)).bind fun stopFirst =>
      (skipZeros (cells.drop (level3 + 10 * stopFirst))).bind fun stopSecond =>
      let w : Walk :=
        { stop := (stopFirst, stopSecond), vit := level3 + 10 * stopFirst + stopSecond
          tempCount := 0, difference := 0, tempStop := (0, 0) }
      (walkRanges cells level3 level2 total.toNat atom split (split - 1) 0 w 0).map fun walked =>
        if walked.2.tempCount ≠ total.toNat then
          walked.1 ++
            [{ lower := atom * (10 * walked.2.stop.1 + walked.2.stop.2)
               upper := atom * (10 * endFirst + endSecond + 1) - 1
               docCount := (total.toNat + (2 ^ 32 - walked.2.tempCount)) % 2 ^ 32 }]
        else walked.1

section List

variable {UString S F : Type} [Zero S] (utf8 : Utf8 UString) (varianceReduce : ℕ → ℕ → F)
  (greater : F → F → Bool)

/-- The loop over the decades. -/
def allRanges (cells : List UInt32) : ℕ → List (ℕ × ℕ) → Option (List NumericRange)
  | _, [] => some []
  | i, decade :: decades =>
    (decadeRanges cells i decade.2).bind fun ranges =>
      (allRanges cells (i + 1) decades).map (ranges ++ ·)

def treeRanges (tree : SegmentTree) : Option (List NumericRange) :=
  allRanges tree.cells 0 (splitDecades varianceReduce greater
    ((tree.cells.drop (110 * levelOneOfSegmentTree)).take levelOneOfSegmentTree
      |>.map UInt32.toNat))

/-- The item of a range is named by its bounds. -/
def rangeItem (range : NumericRange) : OntologyRepItem UString S where
  level := 1
  text := utf8.decode (toString range.lower ++ "-" ++ toString range.upper)
  id := 0
  docCount := UInt32.ofNat range.docCount
  score := 0

/-- The item of a property has the total of its tree. -/
def rangeRoot (name : String) (tree : SegmentTree) : OntologyRepItem UString S where
  level := 0
  text := utf8.decode name
  id := 0
  docCount := tree.cells.getD (tree.cells.length - 1) 0
  score := 0

def toOntologyRepItemList : NumericRangeGroupRep → StringGroupRep UString S →
    Option (StringGroupRep UString S)
  | [], itemList => some itemList
  | it :: groupRep, itemList =>
    (treeRanges varianceReduce greater it.2).bind fun ranges =>
      toOntologyRepItemList groupRep
        (itemList ++ rangeRoot utf8 it.1 it.2 :: ranges.map (rangeItem utf8))

end List

variable {cells : List UInt32}

theorem skipZeros_drop {start m : ℕ} (hzero : ∀ j < m, cells.getD (start + j) 0 = 0)
    (hne : cells.getD (start + m) 0 ≠ 0) : skipZeros (cells.drop start) = some m := by
  have hlt : start + m < cells.length := by
    by_contra hge
    exact hne (getD_eq_default _ _ (not_lt.mp hge))
  induction m generalizing start with
  | zero =>
    rw [Nat.add_zero] at hlt hne
    rw [getD_eq_getElem _ _ hlt] at hne
    rw [drop_eq_getElem_cons hlt, skipZeros, if_neg hne]
  | succ m ih =>
    have hstart : start < cells.length := by omega
    have hfirst := hzero 0 (Nat.succ_pos m)
    rw [Nat.add_zero, getD_eq_getElem _ _ hstart] at hfirst
    have hrest : skipZeros (cells.drop (start + 1)) = some m := by
      apply ih
      · intro j hj
        rw [Nat.add_right_comm]
        exact hzero (j + 1) (Nat.succ_lt_succ hj)
      · rw [Nat.add_right_comm]
        exact hne
      · omega
    rw [drop_eq_getElem_cons hstart, skipZeros, if_pos hfirst, hrest]
    rfl

theorem scanDown_eq {base a top : ℕ} (htop : a ≤ top) (hlength : base + top < cells.length)
    (hzero : ∀ j, a < j → j ≤ top → cells.getD (base + j) 0 = 0)
    (hne : cells.getD (base + a) 0 ≠ 0) : scanDown cells base top = some a := by
  induction top with
  | zero =>
    obtain rfl : a = 0 := by omega
    rw [getD_eq_getElem _ _ hlength] at hne
    rw [scanDown, getElem?_eq_getElem (by omega)]
    exact if_neg hne
  | succ top ih =>
    rw [scanDown, getElem?_eq_getElem hlength, Option.bind_some]
    rcases Nat.lt_or_eq_of_le htop with hlt | rfl
    · have hcell := hzero (top + 1) hlt (Nat.le_refl _)
      rw [getD_eq_getElem _ _ hlength] at hcell
      rw [if_pos hcell]
      exact ih (by omega) (by omega) fun j haj hj => hzero j haj (by omega)
    · rw [getD_eq_getElem _ _ hlength] at hne
      exact if_neg hne

/-- The next cell that is not zero is in the row. -/
theorem nextInRow_eq {left second vit d : ℕ} (hd : d < left) (hlength : vit + left < cells.length)
    (hzero : ∀ j < d, cells.getD (vit + 1 + j) 0 = 0) (hne : cells.getD (vit + 1 + d) 0 ≠ 0) :
    nextInRow cells left second vit = some (second + 1 + d, vit + 1 + d) := by
  induction left generalizing second vit d with
  | zero => cases hd
  | succ left ih =>
    rw [nextInRow, getElem?_eq_getElem (by omega), Option.bind_some]
    cases d with
    | zero =>
      rw [getD_eq_getElem _ _ (by omega)] at hne
      exact if_neg hne
    | succ d =>
      have hcell := hzero 0 (Nat.succ_pos d)
      rw [getD_eq_getElem _ _ (by omega)] at hcell
      have hrest : nextInRow cells left (second + 1) (vit + 1) =
          some (second + 1 + 1 + d, vit + 1 + 1 + d) := by
        apply ih
        · omega
        · omega
        · intro j hj
          rw [Nat.add_assoc (vit + 1), Nat.add_comm 1 j]
          exact hzero (j + 1) (Nat.succ_lt_succ hj)
        · rw [Nat.add_assoc (vit + 1), Nat.add_comm 1 d]
          exact hne
      rw [if_pos hcell, hrest]
      congr 2 <;> omega

/-- Nothing is left in the row. -/
theorem nextInRow_eq_end {left second vit : ℕ} (hlength : vit + left < cells.length)
    (hzero : ∀ j < left, cells.getD (vit + 1 + j) 0 = 0) :
    nextInRow cells left second vit = some (second + 1 + left, vit + left) := by
  induction left generalizing second vit with
  | zero => rfl
  | succ left ih =>
    have hcell := hzero 0 (Nat.succ_pos left)
    rw [getD_eq_getElem _ _ (by omega)] at hcell
    rw [nextInRow, getElem?_eq_getElem (by omega), Option.bind_some, if_pos hcell, ih]
    · congr 2 <;> omega
    · omega
    · intro j hj
      rw [Nat.add_assoc (vit + 1), Nat.add_comm 1 j]
      exact hzero (j + 1) (Nat.succ_lt_succ hj)

/-- The part of a tree that belongs to a decade, whose leaves hold `c`. -/
structure Decade (cells : List UInt32) (i : ℕ) (c : ℕ → ℕ) : Prop where
  length : cells.length = 778
  lt : i < 7
  leaf : ∀ k < 100, (cells.getD (100 * i + k) 0).toNat = c k
  row : ∀ a < 10, (cells.getD (700 + 10 * i + a) 0).toNat = ∑ b ∈ Finset.range 10, c (10 * a + b)
  total : (cells.getD (770 + i) 0).toNat = heldBefore c 100
  small : heldBefore c 100 < 2 ^ 28

/-- The walk stands at a cell that is not zero, and all cells before it have been counted. -/
structure Walk.At (w : Walk) (i : ℕ) (c : ℕ → ℕ) (p : ℕ) : Prop where
  lt : p < 100
  cell : c p ≠ 0
  stop : w.stop = (p / 10, p % 10)
  vit : w.vit = 100 * i + p
  tempCount : w.tempCount = heldBefore c p

namespace Decade

variable {cells : List UInt32} {i : ℕ} {c : ℕ → ℕ}

theorem leaf_eq_zero_iff (h : Decade cells i c) {k : ℕ} (hk : k < 100) :
    cells.getD (100 * i + k) 0 = 0 ↔ c k = 0 := by
  rw [← h.leaf k hk, ← UInt32.toNat_inj]
  rfl

theorem row_eq_zero_iff (h : Decade cells i c) {a : ℕ} (ha : a < 10) :
    cells.getD (700 + 10 * i + a) 0 = 0 ↔ ∀ b < 10, c (10 * a + b) = 0 := by
  rw [← UInt32.toNat_inj, h.row a ha, UInt32.toNat_zero, Finset.sum_eq_zero_iff]
  simp only [Finset.mem_range]

theorem row_ne_zero (h : Decade cells i c) {p : ℕ} (hp : p < 100) (hcell : c p ≠ 0) :
    cells.getD (700 + 10 * i + p / 10) 0 ≠ 0 := by
  rw [Ne, h.row_eq_zero_iff (by omega)]
  intro hall
  have hzero := hall (p % 10) (by omega)
  rw [Nat.div_add_mod] at hzero
  exact hcell hzero

variable {p p' : ℕ}

/-- The next cell that is not zero is in the same row. -/
theorem nextCell_of_row_eq (h : Decade cells i c) (hpp' : p < p') (hp' : p' < 100)
    (hrow : p' / 10 = p / 10) (hcell : c p' ≠ 0) (hzero : ∀ k, p < k → k < p' → c k = 0) :
    nextCell cells (100 * i) (700 + 10 * i) (p / 10, p % 10) (100 * i + p) =
      some ((p' / 10, p' % 10), 100 * i + p') := by
  have hlength := h.length
  have hi := h.lt
  have hnext : nextInRow cells (9 - p % 10) (p % 10) (100 * i + p) =
      some (p % 10 + 1 + (p' - p - 1), 100 * i + p + 1 + (p' - p - 1)) := by
    apply nextInRow_eq
    · omega
    · omega
    · intro j hj
      have hplace : 100 * i + p + 1 + j = 100 * i + (p + 1 + j) := by omega
      rw [hplace, h.leaf_eq_zero_iff (by omega)]
      exact hzero _ (by omega) (by omega)
    · have hplace : 100 * i + p + 1 + (p' - p - 1) = 100 * i + p' := by omega
      rw [hplace, Ne, h.leaf_eq_zero_iff hp']
      exact hcell
  rw [nextCell, hnext, Option.bind_some, if_neg (by omega)]
  congr 2
  · congr 1 <;> omega
  · omega

/-- It is in a later row, found by the counts of the rows. -/
theorem nextCell_of_row_lt (h : Decade cells i c) (hp' : p' < 100) (hrow : p / 10 < p' / 10)
    (hcell : c p' ≠ 0) (hzero : ∀ k, p < k → k < p' → c k = 0) :
    nextCell cells (100 * i) (700 + 10 * i) (p / 10, p % 10) (100 * i + p) =
      some ((p' / 10, p' % 10), 100 * i + p') := by
  have hlength := h.length
  have hi := h.lt
  have hnext : nextInRow cells (9 - p % 10) (p % 10) (100 * i + p) =
      some (p % 10 + 1 + (9 - p % 10), 100 * i + p + (9 - p % 10)) := by
    apply nextInRow_eq_end
    · omega
    · intro j hj
      have hplace : 100 * i + p + 1 + j = 100 * i + (p + 1 + j) := by omega
      rw [hplace, h.leaf_eq_zero_iff (by omega)]
      exact hzero _ (by omega) (by omega)
  have hfirst : p / 10 + 1 + (p' / 10 - p / 10 - 1) = p' / 10 := by omega
  have hrows : skipZeros (cells.drop (700 + 10 * i + (p / 10 + 1))) =
      some (p' / 10 - p / 10 - 1) := by
    apply skipZeros_drop
    · intro j hj
      rw [Nat.add_assoc, h.row_eq_zero_iff (by omega)]
      intro b hb
      exact hzero _ (by omega) (by omega)
    · rw [Nat.add_assoc, hfirst]
      exact h.row_ne_zero hp' hcell
  have hzeros : skipZeros (cells.drop (100 * i + 10 * (p' / 10))) = some (p' % 10) := by
    apply skipZeros_drop
    · intro j hj
      rw [Nat.add_assoc, h.leaf_eq_zero_iff (by omega)]
      exact hzero _ (by omega) (by omega)
    · have hdigits : 10 * (p' / 10) + p' % 10 = p' := by omega
      rw [Nat.add_assoc, hdigits, Ne, h.leaf_eq_zero_iff hp']
      exact hcell
  rw [nextCell, hnext, Option.bind_some, if_pos (by omega), hrows, Option.bind_some]
  simp only [hfirst]
  rw [hzeros, Option.map_some]
  congr 2
  omega

/-- The walk goes on to the next cell that is not zero. -/
theorem nextCell_eq (h : Decade cells i c) (hpp' : p < p') (hp' : p' < 100) (hcell : c p' ≠ 0)
    (hzero : ∀ k, p < k → k < p' → c k = 0) :
    nextCell cells (100 * i) (700 + 10 * i) (p / 10, p % 10) (100 * i + p) =
      some ((p' / 10, p' % 10), 100 * i + p') := by
  by_cases hrow : p' / 10 = p / 10
  · exact h.nextCell_of_row_eq hpp' hp' hrow hcell hzero
  · exact h.nextCell_of_row_lt hp' (by omega) hcell hzero

/-- How a walk from the cell `p` ends: at a later cell, or having counted everything. -/
def WalkEnds (i : ℕ) (c : ℕ → ℕ) (p : ℕ) (w w' : Walk) : Prop :=
  (∃ p', w'.At i c p' ∧ heldBefore c p' < heldBefore c 100 ∧
    (p' = p ∧ w' = w ∨ ∃ t, p ≤ t ∧ t < p' ∧ w'.tempStop = (t / 10, t % 10) ∧
      heldBefore c (t + 1) = heldBefore c p')) ∨
  (w'.tempCount = heldBefore c 100 ∧ ∃ t, p ≤ t ∧ t < 100 ∧ w'.tempStop = (t / 10, t % 10) ∧
    heldBefore c (t + 1) = heldBefore c 100)

theorem le_total (c : ℕ → ℕ) {p : ℕ} (hp : p < 100) : heldBefore c p + c p ≤ heldBefore c 100 := by
  rw [← heldBefore_succ]
  exact heldBefore_mono c hp

/-- With enough fuel a walk ends, without an overflow. -/
theorem walk_eq (h : Decade cells i c) {fuel p : ℕ} {w : Walk} (hw : w.At i c p)
    (hfuel : 100 - p < fuel) (hlo : -(heldBefore c 100 : ℤ) ≤ w.difference)
    (hhi : w.difference ≤ heldBefore c 100) (hleft : heldBefore c p < heldBefore c 100) :
    ∃ w', walk cells (100 * i) (700 + 10 * i) (heldBefore c 100) fuel w = some w' ∧
      WalkEnds i c p w w' := by
  have hsmall := h.small
  have hlength := h.length
  have hi := h.lt
  induction fuel generalizing p w with
  | zero => cases hfuel
  | succ fuel ih =>
    have hp := hw.lt
    have hle := le_total c hp
    have hpos := Nat.pos_of_ne_zero hw.cell
    have hget : cells[w.vit]? = some (cells.getD (100 * i + p) 0) := by
      rw [hw.vit, getD_eq_getElem _ _ (by omega), getElem?_eq_getElem (by omega)]
    have hmod : (w.difference + (c p : ℤ)).bmod (2 ^ 32) = w.difference + c p := by
      apply Int.bmod_eq_of_le <;> omega
    have hint : IsInt32 (w.difference + c p + w.difference) := by
      constructor <;> omega
    have hne : w.difference + (c p : ℤ) ≠ w.difference := by omega
    rw [walk, hget, Option.bind_some, h.leaf p hp, hmod]
    simp only [not_true_eq_false, if_false, hint, hne, ne_eq, not_false_eq_true, if_true]
    split
    · exact ⟨w, rfl, Or.inl ⟨p, hw, hleft, Or.inl ⟨rfl, rfl⟩⟩⟩
    · rename_i hneg
      have hcount : (w.tempCount + c p) % 2 ^ 32 = heldBefore c (p + 1) := by
        rw [hw.tempCount, heldBefore_succ]
        apply Nat.mod_eq_of_lt
        omega
      rw [hcount]
      split
      · rename_i htotal
        exact ⟨_, rfl, Or.inr ⟨htotal, p, Nat.le_refl p, hp, hw.stop, htotal⟩⟩
      · rename_i htotal
        have hlt : heldBefore c (p + 1) < heldBefore c 100 :=
          lt_of_le_of_ne (heldBefore_mono c hp) htotal
        obtain ⟨p', hpp', hp', hcell, hheld, hzero⟩ := exists_next hlt
        rw [hw.stop, hw.vit, h.nextCell_eq hpp' hp' hcell fun k hk hkp' => hzero k hk hkp']
        obtain ⟨w', hwalk, hends⟩ := ih (p := p')
          (w := { stop := (p' / 10, p' % 10), vit := 100 * i + p', tempCount := heldBefore c (p + 1)
                  difference := w.difference + c p, tempStop := (p / 10, p % 10) })
          ⟨hp', hcell, rfl, rfl, hheld.symm⟩ (by omega) (by simp only; omega) (by simp only; omega)
          (hheld.trans_lt hlt)
        refine ⟨w', hwalk, ?_⟩
        rcases hends with ⟨p'', hat, hleft', hplace⟩ | ⟨hall, t, ht, ht', hstop, hheld'⟩
        · refine Or.inl ⟨p'', hat, hleft', Or.inr ?_⟩
          rcases hplace with ⟨rfl, rfl⟩ | ⟨t, ht, ht', hstop, hheld'⟩
          · exact ⟨p, Nat.le_refl p, hpp', rfl, hheld.symm⟩
          · exact ⟨t, by omega, ht', hstop, hheld'⟩
        · exact Or.inr ⟨hall, t, by omega, ht', hstop, hheld'⟩

/-- The range of values that belongs to some leaves. -/
def toRange (atom : ℕ) (piece : Piece) : NumericRange where
  lower := atom * piece.first
  upper := atom * (piece.last + 1) - 1
  docCount := piece.count

theorem shareBefore_lt {total split j : ℕ} (hpos : 0 < total) (hsmall : total < 2 ^ 28)
    (hj : j + 1 ≤ split) (hsplit : split ≤ 7) : shareBefore total split j < total := by
  have hmul : (j + 1) * total ≤ split * total := Nat.mul_le_mul_right total hj
  have hmul' : split * total ≤ 7 * total := Nat.mul_le_mul_right total hsplit
  have hpos' : 0 < (j + 1) * total := Nat.mul_pos (Nat.succ_pos j) hpos
  rw [shareBefore, Nat.mod_eq_of_lt (show (j + 1) * total < 2 ^ 32 by omega)]
  have hmod : ((j + 1) * total + (2 ^ 32 - 1)) % 2 ^ 32 = (j + 1) * total - 1 := by omega
  rw [Nat.div_lt_iff_lt_mul (by omega), Nat.mul_comm total]
  omega

/-- The ranges of a decade but the last one cut the cells from `p` on, all of them or up to the
place where the walk stands. -/
theorem walkRanges_eq (h : Decade cells i c) (atom : ℕ) {split : ℕ} (hsplit : split ≤ 7)
    {left j p : ℕ} {w : Walk} (hj : j + left + 1 ≤ split) (hw : w.At i c p)
    (hleft : heldBefore c p < heldBefore c 100) :
    ∃ pieces w', walkRanges cells (100 * i) (700 + 10 * i) (heldBefore c 100) atom split left j w
        (heldBefore c p) = some (pieces.map (toRange atom), w') ∧ pieces.length ≤ left ∧
      ((∃ p', w'.At i c p' ∧ heldBefore c p' < heldBefore c 100 ∧ Cut c p' p pieces) ∨
        (w'.tempCount = heldBefore c 100 ∧ Cut c 100 p pieces)) := by
  have hsmall := h.small
  induction left generalizing j p w with
  | zero => exact ⟨[], w, rfl, Nat.le_refl 0, Or.inl ⟨p, hw, hleft, Nat.le_refl p, rfl⟩⟩
  | succ left ih =>
    have hshare := shareBefore_lt (j := j) (show 0 < heldBefore c 100 by omega) hsmall
      (show j + 1 ≤ split by omega) hsplit
    have hmod : ((w.tempCount : ℤ) - shareBefore (heldBefore c 100) split j - 1).bmod (2 ^ 32) =
        heldBefore c p - shareBefore (heldBefore c 100) split j - 1 := by
      rw [hw.tempCount]
      apply Int.bmod_eq_of_le <;> omega
    rw [walkRanges, hmod]
    have hpos := Nat.pos_of_ne_zero hw.cell
    have hfuel : 100 - p < 101 := by omega
    have hat : Walk.At
        { w with
          difference := heldBefore c p - shareBefore (heldBefore c 100) split j - 1
          tempStop := (0, 0) } i c p :=
      ⟨hw.lt, hw.cell, hw.stop, hw.vit, hw.tempCount⟩
    obtain ⟨w', hwalk, hends⟩ := h.walk_eq hat hfuel (by simp only; omega) (by simp only; omega)
      hleft
    rw [hwalk, Option.bind_some]
    have hdigits (k : ℕ) : 10 * (k / 10) + k % 10 = k := Nat.div_add_mod k 10
    rcases hends with ⟨p', hat', hleft', hplace⟩ | ⟨hall, t, hpt, ht, hstop, hheld⟩
    · rcases hplace with ⟨rfl, rfl⟩ | ⟨t, hpt, htp', hstop, hheld⟩
      · -- nothing has been counted
        rw [if_neg (not_not.mpr hat'.tempCount.symm)]
        obtain ⟨pieces, w', hrest, hlength, hends⟩ := ih (j := j + 1) (by omega) hat' hleft'
        exact ⟨pieces, w', hrest, hlength.trans (Nat.le_succ left), hends⟩
      · -- a range up to the cell `t`
        have hlt : heldBefore c p < heldBefore c p' := by
          have hle := heldBefore_mono c (show p + 1 ≤ t + 1 by omega)
          rw [heldBefore_succ] at hle
          omega
        have hcount : (heldBefore c p' + (2 ^ 32 - heldBefore c p)) % 2 ^ 32 =
            heldBefore c p' - heldBefore c p := by
          omega
        obtain ⟨pieces, w'', hrest, hlength, hends⟩ := ih (j := j + 1) (by omega) hat' hleft'
        refine ⟨⟨p, t, heldBefore c p' - heldBefore c p⟩ :: pieces, w'', ?_,
          Nat.succ_le_succ hlength, ?_⟩
        · rw [hat'.tempCount, if_pos hlt.ne, if_neg hleft'.ne, hrest, hw.stop, hstop]
          simp only [hdigits, hcount]
          rfl
        · rcases hends with ⟨p'', hat'', hleft'', hrest'⟩ | ⟨hall, hrest'⟩
          · exact Or.inl ⟨p'', hat'', hleft'', hrest'.cons hpt htp' hw.cell hheld⟩
          · exact Or.inr ⟨hall, hrest'.cons hpt htp' hw.cell hheld⟩
    · -- a range with all that is left
      have hcount : (heldBefore c 100 + (2 ^ 32 - heldBefore c p)) % 2 ^ 32 =
          heldBefore c 100 - heldBefore c p := by
        omega
      refine ⟨[⟨p, t, heldBefore c 100 - heldBefore c p⟩], w', ?_, by simp, Or.inr ⟨hall, ?_⟩⟩
      · rw [hall, if_pos hleft.ne, hw.stop, hstop]
        simp only [hdigits, hcount]
        rfl
      · have hnil : Cut c 100 100 [] := ⟨Nat.le_refl 100, rfl⟩
        exact hnil.cons hpt ht hw.cell hheld

/-- The scans for the first and the last cell that is not zero stay in the rows of the decade. -/
theorem scans_eq (h : Decade cells i c) (htotal : 0 < heldBefore c 100) :
    ∃ p e, p ≤ e ∧ e < 100 ∧ c p ≠ 0 ∧ heldBefore c p = 0 ∧
      heldBefore c (e + 1) = heldBefore c 100 ∧ scanDown cells (700 + 10 * i) 9 = some (e / 10) ∧
      scanDown cells (100 * i + 10 * (e / 10)) 9 = some (e % 10) ∧
      skipZeros (cells.drop (700 + 10 * i)) = some (p / 10) ∧
      skipZeros (cells.drop (100 * i + 10 * (p / 10))) = some (p % 10) := by
  have hlength := h.length
  have hi := h.lt
  obtain ⟨e, he, hlast, hheld, hafter⟩ := exists_last htotal
  obtain ⟨p, _, hp, hfirst, hheld', hbefore⟩ :=
    exists_next (show heldBefore c 0 < heldBefore c 100 from htotal)
  have hpe : p ≤ e := by
    by_contra hlt
    exact hlast (hbefore e (Nat.zero_le e) (not_le.mp hlt))
  have hdigits (k : ℕ) : 10 * (k / 10) + k % 10 = k := Nat.div_add_mod k 10
  refine ⟨p, e, hpe, he, hfirst, hheld', hheld, ?_, ?_, ?_, ?_⟩
  · apply scanDown_eq (by omega) (by omega)
    · intro a ha ha9
      rw [h.row_eq_zero_iff (by omega)]
      intro b hb
      exact hafter _ (by omega) (by omega)
    · exact h.row_ne_zero he hlast
  · apply scanDown_eq (by omega) (by omega)
    · intro b hb hb9
      rw [Nat.add_assoc, h.leaf_eq_zero_iff (by omega)]
      exact hafter _ (by omega) (by omega)
    · rw [Nat.add_assoc, hdigits, Ne, h.leaf_eq_zero_iff he]
      exact hlast
  · apply skipZeros_drop
    · intro a ha
      rw [h.row_eq_zero_iff (by omega)]
      intro b hb
      exact hbefore _ (Nat.zero_le _) (by omega)
    · exact h.row_ne_zero hp hfirst
  · apply skipZeros_drop
    · intro b hb
      rw [Nat.add_assoc, h.leaf_eq_zero_iff (by omega)]
      exact hbefore _ (Nat.zero_le _) (by omega)
    · rw [Nat.add_assoc, hdigits, Ne, h.leaf_eq_zero_iff hp]
      exact hfirst

/-- The ranges of a decade cut all of its leaves. -/
theorem decadeRanges_eq (h : Decade cells i c) {split : ℕ} (hsplit : split ≤ 7)
    (hzero : split = 0 ↔ heldBefore c 100 = 0) :
    ∃ pieces, decadeRanges cells i split = some (pieces.map (toRange (atomOf i))) ∧
      Cut c 100 0 pieces ∧ pieces.length ≤ split := by
  have hlength := h.length
  have hi := h.lt
  have hsmall := h.small
  rw [decadeRanges]
  split_ifs with hnone
  · exact ⟨[], rfl, ⟨Nat.zero_le _, (hzero.mp hnone).symm⟩, Nat.zero_le _⟩
  · have htotal : 0 < heldBefore c 100 := Nat.pos_of_ne_zero (mt hzero.mpr hnone)
    obtain ⟨p, e, hpe, he, hfirst, hbefore, hlast, hendFirst, hendSecond, hstopFirst,
      hstopSecond⟩ := h.scans_eq htotal
    have hget : cells[770 + i]? = some (cells.getD (770 + i) 0) := by
      rw [getD_eq_getElem _ _ (by omega), getElem?_eq_getElem]
    have hlevel1 : 110 * levelOneOfSegmentTree + i = 770 + i := rfl
    have hlevel2 : 100 * levelOneOfSegmentTree + 10 * i = 700 + 10 * i := rfl
    have hatom : bound.getD (i + 1) 0 / 100 = atomOf i := rfl
    have hat : Walk.At
        { stop := (p / 10, p % 10), vit := 100 * i + 10 * (p / 10) + p % 10, tempCount := 0
          difference := 0, tempStop := (0, 0) } i c p := by
      refine ⟨by omega, hfirst, rfl, ?_, hbefore.symm⟩
      rw [Nat.add_assoc, Nat.div_add_mod]
    obtain ⟨pieces, w', hwalk, hcount, hends⟩ := h.walkRanges_eq (atomOf i) hsplit
      (show 0 + (split - 1) + 1 ≤ split by omega) hat (by omega)
    rw [hbefore] at hwalk
    simp only [hlevel1, hlevel2, hatom, hget, hendFirst, hendSecond, hstopFirst, hstopSecond,
      Option.bind_some, h.total, hwalk, Option.map_some]
    have hcutFrom {q : ℕ} {pieces : List Piece} (hcut : Cut c q p pieces) : Cut c q 0 pieces :=
      hcut.of_le (Nat.zero_le p) hbefore.symm
    rcases hends with ⟨p', hat', hleft, hcut⟩ | ⟨hall, hcut⟩
    · -- the last range has what is left
      have hp'e : p' < e + 1 := by
        by_contra hge
        have hmono := heldBefore_mono c (not_lt.mp hge)
        omega
      have hnil : Cut c 100 100 [] := ⟨Nat.le_refl 100, rfl⟩
      have hrest := hnil.cons (Nat.le_of_lt_succ hp'e) he hat'.cell hlast
      refine ⟨pieces ++ [⟨p', e, heldBefore c 100 - heldBefore c p'⟩], ?_,
        hcutFrom (hcut.append hrest hat'.lt.le), ?_⟩
      · have hmod : (heldBefore c 100 + (2 ^ 32 - heldBefore c p')) % 2 ^ 32 =
            heldBefore c 100 - heldBefore c p' := by
          omega
        rw [hat'.tempCount, if_pos hleft.ne, hat'.stop, map_append]
        simp only [Nat.div_add_mod, hmod]
        rfl
      · rw [length_append, length_singleton]
        omega
    · -- nothing is left
      refine ⟨pieces, ?_, hcutFrom hcut, by omega⟩
      rw [if_neg (not_not.mpr hall)]

end Decade

end AdDelivery.GroupManager
