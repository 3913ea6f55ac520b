import AdDelivery.Core.KeyedUnion
import AdDelivery.Core.Vector
import Mathlib.Algebra.Order.BigOperators.Group.List
import Mathlib.Algebra.Order.Group.Nat
import Mathlib.Data.List.GetD
import Mathlib.Data.UInt

/-!
# Merging numeric facets

A numeric property lists its values in ascending order, each with a count; a property with
ranges has a segment tree of counts in one vector, the leaves first. Lists are merged in place by
a loop with three inner loops, trees cell by cell, but for the parts below a count of zero.
-/

namespace AdDelivery.GroupManager

open List Prod List Option Nat

variable {V : Type} [LinearOrder V]

section Props

variable {A : Type}

/-- The properties of two results, one after another. Behind the end of `other` nothing can be
read. -/
def mergeProps (merge : A → A → Option A) :
    List (String × A) → List (String × A) → Option (List (String × A))
  | [], _ => some []
  | _ :: _, [] => none
  | it :: rep, oit :: other =>
    (merge it.2 oit.2).bind fun merged =>
      (mergeProps merge rep other).map ((it.1, merged) :: ·)

/-- A result without properties takes those of the other one. -/
def mergeGroup (merge : A → A → Option A) (rep other : List (String × A)) :
    Option (List (String × A)) :=
  if other.isEmpty then some rep
  else if rep.isEmpty then some other
  else mergeProps merge rep other

/-- Something holds of what each property has in two results and in a third one. -/
def AllMerged (Merged : A → A → A → Prop) (rep other result : List (String × A)) : Prop :=
  result.length = rep.length ∧
    ∀ (i : ℕ) (name : String) (a b : A), rep[i]? = some (name, a) → other[i]? = some (name, b) →
      ∃ merged, result[i]? = some (name, merged) ∧ Merged a b merged

/-- Something holds of what each property has in two results. -/
def AllPairs (P : A → A → Prop) (rep other : List (String × A)) : Prop :=
  ∀ (i : ℕ) (name : String) (a b : A),
    rep[i]? = some (name, a) → other[i]? = some (name, b) → P a b

variable {merge : A → A → Option A} {sum : A → A → A} {rep other : List (String × A)}

section

variable (hmerge : ∀ a b, merge a b = some (sum a b)) (h : rep.map fst = other.map fst)
include hmerge h

theorem mergeProps_eq : mergeProps merge rep other =
      some (rep.zipWith (fun it oit => (it.1, sum it.2 oit.2)) other) := by
  induction rep generalizing other with
  | nil => rfl
  | cons it rep ih =>
    cases other with
    | nil => cases h
    | cons oit other =>
      rw [map_cons, map_cons, cons.injEq] at h
      rw [mergeProps, hmerge, ih h.2, bind_some, map_some, zipWith_cons_cons]

/-- Each property of the first result is merged with the one at its place in the second. -/
theorem mergeGroup_eq : mergeGroup merge rep other =
      some (rep.zipWith (fun it oit => (it.1, sum it.2 oit.2)) other) := by
  have hlength : rep.length = other.length := by
    simpa using congrArg length h
  rw [mergeGroup]
  split
  · rename_i hempty
    obtain rfl := isEmpty_iff.mp hempty
    obtain rfl := length_eq_zero_iff.mp hlength
    rfl
  · split
    · rename_i hne hempty
      obtain rfl := isEmpty_iff.mp hempty
      obtain rfl := length_eq_zero_iff.mp hlength.symm
      rfl
    · exact mergeProps_eq hmerge h

end

theorem allMerged_zipWith_iff {Merged : A → A → A → Prop} {P : A → A → Prop}
    (h : rep.map fst = other.map fst)
    (hiff : ∀ it ∈ rep, ∀ oit ∈ other, Merged it.2 oit.2 (sum it.2 oit.2) ↔ P it.2 oit.2) :
    AllMerged Merged rep other (rep.zipWith (fun it oit => (it.1, sum it.2 oit.2)) other) ↔
      AllPairs P rep other := by
  have hlength : rep.length = other.length := by
    simpa using congrArg length h
  constructor
  · rintro ⟨_, hmerged⟩ i name a b ha hb
    obtain ⟨merged, hget, hsum⟩ := hmerged i name a b ha hb
    rw [getElem?_zipWith, ha, hb] at hget
    obtain rfl := (mk.inj (some.inj hget)).2
    exact (hiff _ (mem_of_getElem? ha) _ (mem_of_getElem? hb)).mp hsum
  · intro hpairs
    refine ⟨?_, fun i name a b ha hb => ?_⟩
    · rw [length_zipWith, ← hlength, min_self]
    · refine ⟨sum a b, ?_, ?_⟩
      · rw [getElem?_zipWith, ha, hb]
      · apply (hiff _ (mem_of_getElem? ha) _ (mem_of_getElem? hb)).mpr
        exact hpairs i name a b ha hb

end Props

abbrev NumericGroupRep (V : Type) := List (String × List (V × UInt32))

/-- The last inner loop: while both lists go on with the same value. -/
def addEqual : List (V × UInt32) → List (V × UInt32) →
    List (V × UInt32) × List (V × UInt32) × List (V × UInt32)
  | a :: lit, b :: olit =>
    if a.1 = b.1 then
      let rest := addEqual lit olit
      ((a.1, a.2 + b.2) :: rest.1, rest.2)
    else ([], a :: lit, b :: olit)
  | lit, olit => ([], lit, olit)

/-- The loop over the values of one property. -/
def mergeValues : ℕ → List (V × UInt32) → List (V × UInt32) → Option (List (V × UInt32))
  | 0, _, _ => none
  | _ + 1, lit, [] => some lit
  | fuel + 1, lit, b :: olit =>
    let passed := lit.takeWhile fun a => decide (a.1 < b.1)
    match lit.dropWhile fun a => decide (a.1 < b.1) with
    | [] => some (passed ++ b :: olit)
    | a :: lit =>
      let inserted := (b :: olit).takeWhile fun b => decide (b.1 < a.1)
      let equal := addEqual (a :: lit) ((b :: olit).dropWhile fun b => decide (b.1 < a.1))
      (mergeValues fuel equal.2.1 equal.2.2).map (passed ++ inserted ++ equal.1 ++ ·)

def mergeNumericGroup (rep other : NumericGroupRep V) : Option (NumericGroupRep V) :=
  mergeGroup (fun lit olit => mergeValues (olit.length + 1) lit olit) rep other

variable (lit olit : List (V × UInt32))

theorem keyedUnion_addEqual : keyedUnion (· + ·) lit olit = (addEqual lit olit).1 ++
        keyedUnion (· + ·) (addEqual lit olit).2.1 (addEqual lit olit).2.2 := by
  induction lit generalizing olit with
  | nil => cases olit <;> rfl
  | cons a lit ih =>
    cases olit with
    | nil => rfl
    | cons b olit =>
      rw [addEqual]
      split
      · rename_i h
        rw [keyedUnion_cons_of_eq h, ih, cons_append]
      · rw [nil_append]

theorem length_addEqual_le : (addEqual lit olit).2.2.length ≤ olit.length := by
  induction lit generalizing olit with
  | nil => cases olit <;> exact le_refl _
  | cons a lit ih =>
    cases olit with
    | nil => exact le_refl _
    | cons b olit =>
      rw [addEqual]
      split
      · exact (ih olit).trans (le_succ _)
      · exact le_refl _

/-- Every round of the loop takes an entry of the second list. -/
theorem length_round_lt {a b : V × UInt32} (h : ¬ a.1 < b.1) (lit olit : List (V × UInt32)) :
    (addEqual (a :: lit) ((b :: olit).dropWhile fun b => decide (b.1 < a.1))).2.2.length <
      (b :: olit).length := by
  by_cases hlt : b.1 < a.1
  · rw [dropWhile_cons_of_pos (by simpa using hlt)]
    have hdrop := (olit.dropWhile_sublist fun b => decide (b.1 < a.1)).length_le
    have hadd := length_addEqual_le (a :: lit) (olit.dropWhile fun b => decide (b.1 < a.1))
    rw [length_cons]
    omega
  · have heq : a.1 = b.1 := le_antisymm (not_lt.mp hlt) (not_lt.mp h)
    rw [dropWhile_cons_of_neg (by simpa using hlt), addEqual, if_pos heq]
    exact lt_succ_of_le (length_addEqual_le lit olit)

/-- The loop ends and yields the union. -/
theorem mergeValues_eq {fuel : ℕ} {lit olit : List (V × UInt32)} (h : olit.length < fuel) :
    mergeValues fuel lit olit = some (keyedUnion (· + ·) lit olit) := by
  induction fuel generalizing lit olit with
  | zero => cases h
  | succ fuel ih =>
    cases olit with
    | nil => rw [mergeValues, keyedUnion_nil_right]
    | cons b olit =>
      rw [mergeValues, keyedUnion_takeWhile_left]
      cases hrest : lit.dropWhile fun a => decide (a.1 < b.1) with
      | nil => rw [keyedUnion_nil_left]
      | cons a lit' =>
        have hhead : ¬ a.1 < b.1 := by
          have hne : lit.dropWhile (fun a => decide (a.1 < b.1)) ≠ [] := by
            rw [hrest]
            exact cons_ne_nil _ _
          have hfalse := head_dropWhile_not (fun a : V × UInt32 => decide (a.1 < b.1)) hne
          simpa [hrest] using hfalse
        have hround := length_round_lt hhead lit' olit
        simp only
        rw [ih (by omega), keyedUnion_takeWhile_right, keyedUnion_addEqual (a :: lit'),
          map_some, append_assoc, append_assoc]

/-- The ascending union of the values, each with the sum of its counts. -/
def ValuesMerged (lit olit values : List (V × UInt32)) : Prop :=
  KeysAscend values ∧ ∀ value, (values.lookup value).map UInt32.toNat =
    merge (· + ·) ((lit.lookup value).map UInt32.toNat)
      ((olit.lookup value).map UInt32.toNat)

/-- The counts of every value add up to a number of 32 bits. -/
def ValuesFit (lit olit : List (V × UInt32)) : Prop :=
  ∀ value, ∀ a ∈ lit.lookup value, ∀ b ∈ olit.lookup value, a.toNat + b.toNat < 2 ^ 32

/-- Sums of words are sums of numbers as long as they fit. -/
theorem toNat_add_eq_iff (a b : UInt32) :
    (a + b).toNat = a.toNat + b.toNat ↔ a.toNat + b.toNat < 2 ^ 32 := by
  constructor
  · intro hsum
    rw [← hsum]
    exact Nat.mod_lt _ (Nat.two_pow_pos 32)
  · exact Nat.mod_eq_of_lt

theorem map_toNat_merge_iff (a b : Option UInt32) : (merge (· + ·) a b).map UInt32.toNat =
        merge (· + ·) (a.map UInt32.toNat) (b.map UInt32.toNat) ↔
      ∀ x ∈ a, ∀ y ∈ b, x.toNat + y.toNat < 2 ^ 32 := by
  cases a with
  | none => simp
  | some x =>
    cases b with
    | none => simp
    | some y =>
      simp only [merge_some_some, map_some, some.injEq, toNat_add_eq_iff, mem_def, forall_eq']

theorem valuesMerged_keyedUnion_iff {lit olit : List (V × UInt32)} (hlit : KeysAscend lit)
    (holit : KeysAscend olit) :
    ValuesMerged lit olit (keyedUnion (· + ·) lit olit) ↔ ValuesFit lit olit := by
  have hvalue (value : V) : ((keyedUnion (· + ·) lit olit).lookup value).map UInt32.toNat =
        merge (· + ·) ((lit.lookup value).map UInt32.toNat)
          ((olit.lookup value).map UInt32.toNat) ↔
      ∀ a ∈ lit.lookup value, ∀ b ∈ olit.lookup value, a.toNat + b.toNat < 2 ^ 32 := by
    rw [hlit.lookup_keyedUnion holit]
    exact map_toNat_merge_iff _ _
  constructor
  · intro hmerged value
    exact (hvalue value).mp (hmerged.2 value)
  · intro hfits
    exact ⟨hlit.keyedUnion holit, fun value => (hvalue value).mpr (hfits value)⟩

def levelOneOfSegmentTree : ℕ := 7

/-- A vector of counts: 700 leaves, 70 counts above them, 7 counts above these, and the total. -/
structure SegmentTree where
  cells : List UInt32
  length_cells : cells.length = 111 * levelOneOfSegmentTree + 1

abbrev NumericRangeGroupRep := List (String × SegmentTree)

/-- Add one cell of the other vector. -/
def addCell (ocells cells : List UInt32) (i : ℕ) : List UInt32 :=
  cells.modify i (· + ocells.getD i 0)

/-- The vector and the iterators, which stand at the same places in both vectors. -/
structure TreeCursor where
  cells : List UInt32
  level3 : ℕ
  level2 : ℕ
  level1 : ℕ

namespace TreeCursor

variable (ocells : List UInt32) (cursor : TreeCursor)

def addLevel3 : TreeCursor :=
  { cursor with
    cells := addCell ocells cursor.cells cursor.level3
    level3 := cursor.level3 + 1 }

/-- A round of the second loop. -/
def addLevel2 : TreeCursor :=
  let cursor :=
    if ocells.getD cursor.level2 0 ≠ 0 then
      let cursor := (addLevel3 ocells)^[10] cursor
      { cursor with cells := addCell ocells cursor.cells cursor.level2 }
    else { cursor with level3 := cursor.level3 + 10 }
  { cursor with level2 := cursor.level2 + 1 }

/-- A round of the first loop. -/
def addLevel1 : TreeCursor :=
  let cursor :=
    if ocells.getD cursor.level1 0 ≠ 0 then
      let cursor := (addLevel2 ocells)^[10] cursor
      { cursor with cells := addCell ocells cursor.cells cursor.level1 }
    else { cursor with level2 := cursor.level2 + 10, level3 := cursor.level3 + 100 }
  { cursor with level1 := cursor.level1 + 1 }

end TreeCursor

open TreeCursor

/-- Add a tree, whose last cell is its total. -/
def mergeCells (cells ocells : List UInt32) : List UInt32 :=
  if ocells.getD (ocells.length - 1) 0 = 0 then cells
  else
    let level2 := 100 * levelOneOfSegmentTree
    let level1 := level2 + 10 * levelOneOfSegmentTree
    let cursor : TreeCursor :=
      { cells := addCell ocells cells (cells.length - 1), level3 := 0, level2, level1 }
    ((addLevel1 ocells)^[levelOneOfSegmentTree] cursor).cells

/-- The cells at some places have been added, and no others. -/
structure Added (ocells cells cells' : List UInt32) (P : ℕ → Prop) : Prop where
  length : cells'.length = cells.length
  hit : ∀ i, P i → cells'.getD i 0 = cells.getD i 0 + ocells.getD i 0
  miss : ∀ i, ¬ P i → cells'.getD i 0 = cells.getD i 0

namespace Added

variable {ocells a b c : List UInt32} {P Q : ℕ → Prop}

theorem of_zero (h : ∀ i, P i → ocells.getD i 0 = 0) : Added ocells a a P where
  length := rfl
  hit i hi := by rw [h i hi, UInt32.add_zero]
  miss _ _ := rfl

theorem trans (hab : Added ocells a b P) (hbc : Added ocells b c Q)
    (hdisjoint : ∀ i, P i → ¬ Q i) : Added ocells a c fun i => P i ∨ Q i where
  length := hbc.length.trans hab.length
  hit i hi := by
    rcases hi with hP | hQ
    · rw [hbc.miss i (hdisjoint i hP), hab.hit i hP]
    · rw [hbc.hit i hQ, hab.miss i fun hP => hdisjoint i hP hQ]
  miss i hi := by
    rw [not_or] at hi
    rw [hbc.miss i hi.2, hab.miss i hi.1]

theorem congr (h : Added ocells a b P) (hPQ : ∀ i, P i ↔ Q i) : Added ocells a b Q where
  length := h.length
  hit i hi := h.hit i ((hPQ i).mpr hi)
  miss i hi := h.miss i fun hP => hi ((hPQ i).mp hP)

theorem cell (hlength : a.length = ocells.length) (i : ℕ) :
    Added ocells a (addCell ocells a i) (· = i) where
  length := length_modify _ _ _
  hit j hj := by
    subst hj
    rcases lt_or_ge j a.length with hlt | hge
    · rw [addCell, getD_modify _ _ _ _ _ hlt, if_pos rfl]
    · rw [addCell, getD_eq_default _ _ (by rwa [length_modify]),
        getD_eq_default _ _ hge, getD_eq_default _ _ (hlength ▸ hge)]
      rfl
  miss j hj := by
    rw [addCell, getD_modify_of_ne (Ne.symm hj)]

end Added

open Added

/-- Every count above the leaves is the sum of the ten counts below it, and the total that of the
counts at level 1. -/
structure ConsistentTree (cells : List UInt32) : Prop where
  level2 : ∀ q < 70, (cells.getD (700 + q) 0).toNat =
    ((range 10).map fun k => (cells.getD (10 * q + k) 0).toNat).sum
  level1 : ∀ p < 7, (cells.getD (770 + p) 0).toNat =
    ((range 10).map fun k => (cells.getD (700 + (10 * p + k)) 0).toNat).sum
  total : (cells.getD 777 0).toNat =
    ((range 7).map fun k => (cells.getD (770 + k) 0).toNat).sum

/-- Below a count of zero all counts are zero. -/
theorem eq_zero_of_sum {n : ℕ} {f : ℕ → UInt32} {top : UInt32} (hzero : top = 0)
    (hsum : top.toNat = ((range n).map fun k => (f k).toNat).sum) {k : ℕ} (hk : k < n) :
    f k = 0 := by
  rw [hzero] at hsum
  have hall := sum_eq_zero_iff.mp hsum.symm
  have hcell := hall _ (mem_map_of_mem (mem_range.mpr hk))
  exact UInt32.toNat_inj.mp hcell

/-- Below a zero at level 1, and there, all cells are zero. -/
theorem ConsistentTree.zero_of_level1 {cells : List UInt32} (h : ConsistentTree cells) {p : ℕ}
    (hp : p < 7) (hzero : cells.getD (770 + p) 0 = 0) : ∀ i, (100 * p ≤ i ∧ i < 100 * (p + 1) ∨
      700 + 10 * p ≤ i ∧ i < 700 + 10 * (p + 1) ∨ i = 770 + p) → cells.getD i 0 = 0 := by
  have hlevel2 {k : ℕ} (hk : k < 10) : cells.getD (700 + (10 * p + k)) 0 = 0 :=
    eq_zero_of_sum (f := fun k => cells.getD (700 + (10 * p + k)) 0) hzero (h.level1 p hp) hk
  rintro i (⟨hlo, hhi⟩ | ⟨hlo, hhi⟩ | rfl)
  · have hdiv : i = 10 * (i / 10) + i % 10 := by omega
    have hq : i / 10 = 10 * p + (i / 10 - 10 * p) := by omega
    rw [hdiv]
    refine eq_zero_of_sum (f := fun k => cells.getD (10 * (i / 10) + k) 0) ?_
      (h.level2 (i / 10) (by omega)) (by omega)
    rw [hq]
    exact hlevel2 (by omega)
  · have hk : i = 700 + (10 * p + (i - 700 - 10 * p)) := by omega
    rw [hk]
    exact hlevel2 (by omega)
  · exact hzero

/-- In a tree with the total zero all cells are zero. -/
theorem ConsistentTree.zero_of_total {cells : List UInt32} (h : ConsistentTree cells)
    (hzero : cells.getD 777 0 = 0) : ∀ i < 778, cells.getD i 0 = 0 := by
  have hlevel1 {p : ℕ} (hp : p < 7) : cells.getD (770 + p) 0 = 0 :=
    eq_zero_of_sum (f := fun p => cells.getD (770 + p) 0) hzero h.total hp
  intro i hi
  rcases lt_or_ge i 700 with hleaf | hinner
  · have hp : i / 100 < 7 := by omega
    apply h.zero_of_level1 hp (hlevel1 hp)
    omega
  rcases lt_or_ge i 770 with hlevel2 | hupper
  · have hp : (i - 700) / 10 < 7 := by omega
    apply h.zero_of_level1 hp (hlevel1 hp)
    omega
  · rcases lt_or_ge i 777 with hlt | hge
    · have hp : i - 770 < 7 := by omega
      apply h.zero_of_level1 hp (hlevel1 hp)
      omega
    · obtain rfl : i = 777 := by omega
      exact hzero

namespace TreeCursor

variable {ocells : List UInt32}

theorem addLevel3_iterate (n : ℕ) (cursor : TreeCursor)
    (hlength : cursor.cells.length = ocells.length) :
    ((addLevel3 ocells)^[n] cursor).level3 = cursor.level3 + n ∧
      ((addLevel3 ocells)^[n] cursor).level2 = cursor.level2 ∧
      ((addLevel3 ocells)^[n] cursor).level1 = cursor.level1 ∧
      Added ocells cursor.cells ((addLevel3 ocells)^[n] cursor).cells fun i =>
        cursor.level3 ≤ i ∧ i < cursor.level3 + n := by
  induction n with
  | zero => exact ⟨rfl, rfl, rfl, of_zero fun i hi => by omega⟩
  | succ n ih =>
    obtain ⟨h3, h2, h1, hadded⟩ := ih
    rw [Function.iterate_succ_apply']
    refine ⟨?_, h2, h1, ?_⟩
    · rw [addLevel3, h3, add_assoc]
    · refine (hadded.trans (cell (hadded.length.trans hlength) _) ?_).congr ?_
      · intro i hi
        omega
      · intro i
        omega

variable {cursor : TreeCursor}

section

variable (hconsistent : ConsistentTree ocells)
include hconsistent

/-- A round of the second loop, of which a zero skips nothing but zeros. -/
theorem addLevel2_spec {q : ℕ} (hq : q < 70) (hlength : cursor.cells.length = ocells.length)
    (h3 : cursor.level3 = 10 * q) (h2 : cursor.level2 = 700 + q) :
    (addLevel2 ocells cursor).level3 = 10 * (q + 1) ∧
      (addLevel2 ocells cursor).level2 = 700 + (q + 1) ∧
      (addLevel2 ocells cursor).level1 = cursor.level1 ∧
      Added ocells cursor.cells (addLevel2 ocells cursor).cells fun i =>
        10 * q ≤ i ∧ i < 10 * (q + 1) ∨ i = 700 + q := by
  rw [addLevel2]
  split
  · obtain ⟨h3', h2', h1', hadded⟩ := addLevel3_iterate 10 cursor hlength
    simp only
    refine ⟨by omega, by omega, h1', ?_⟩
    rw [h2', h2]
    refine (hadded.trans (cell (hadded.length.trans hlength) (700 + q)) ?_).congr ?_
    · intro i hi
      omega
    · intro i
      omega
  · rename_i hzero
    rw [not_not, h2] at hzero
    simp only
    refine ⟨by omega, by omega, trivial, of_zero ?_⟩
    rintro i (⟨hlo, hhi⟩ | rfl)
    · obtain ⟨k, rfl⟩ := Nat.exists_eq_add_of_le hlo
      exact eq_zero_of_sum (f := fun k => ocells.getD (10 * q + k) 0) hzero
        (hconsistent.level2 q hq) (by omega)
    · exact hzero

theorem addLevel2_iterate {q n : ℕ} (hq : q + n ≤ 70)
    (hlength : cursor.cells.length = ocells.length) (h3 : cursor.level3 = 10 * q)
    (h2 : cursor.level2 = 700 + q) : ((addLevel2 ocells)^[n] cursor).level3 = 10 * (q + n) ∧
      ((addLevel2 ocells)^[n] cursor).level2 = 700 + (q + n) ∧
      ((addLevel2 ocells)^[n] cursor).level1 = cursor.level1 ∧
      Added ocells cursor.cells ((addLevel2 ocells)^[n] cursor).cells fun i =>
        10 * q ≤ i ∧ i < 10 * (q + n) ∨ 700 + q ≤ i ∧ i < 700 + (q + n) := by
  induction n with
  | zero => exact ⟨h3, h2, rfl, of_zero fun i hi => by omega⟩
  | succ n ih =>
    obtain ⟨h3', h2', h1', hadded⟩ := ih (by omega)
    rw [Function.iterate_succ_apply']
    obtain ⟨h3'', h2'', h1'', hround⟩ := addLevel2_spec hconsistent (show q + n < 70 by omega)
      (hadded.length.trans hlength) h3' h2'
    refine ⟨by omega, by omega, h1''.trans h1', (hadded.trans hround ?_).congr ?_⟩
    · intro i hi
      omega
    · intro i
      omega

/-- A round of the first loop. -/
theorem addLevel1_spec {p : ℕ} (hp : p < 7) (hlength : cursor.cells.length = ocells.length)
    (h3 : cursor.level3 = 100 * p) (h2 : cursor.level2 = 700 + 10 * p)
    (h1 : cursor.level1 = 770 + p) : (addLevel1 ocells cursor).level3 = 100 * (p + 1) ∧
      (addLevel1 ocells cursor).level2 = 700 + 10 * (p + 1) ∧
      (addLevel1 ocells cursor).level1 = 770 + (p + 1) ∧
      Added ocells cursor.cells (addLevel1 ocells cursor).cells fun i =>
        100 * p ≤ i ∧ i < 100 * (p + 1) ∨
          700 + 10 * p ≤ i ∧ i < 700 + 10 * (p + 1) ∨ i = 770 + p := by
  rw [addLevel1]
  split
  · obtain ⟨h3', h2', h1', hadded⟩ := addLevel2_iterate hconsistent (n := 10)
      (show 10 * p + 10 ≤ 70 by omega) hlength (by omega) h2
    simp only
    refine ⟨by omega, by omega, by omega, ?_⟩
    rw [h1', h1]
    refine (hadded.trans (cell (hadded.length.trans hlength) (770 + p)) ?_).congr ?_
    · intro i hi
      omega
    · intro i
      omega
  · rename_i hzero
    rw [not_not, h1] at hzero
    simp only
    exact ⟨by omega, by omega, by omega, of_zero (hconsistent.zero_of_level1 hp hzero)⟩

theorem addLevel1_iterate {n : ℕ} (hn : n ≤ 7) (hlength : cursor.cells.length = ocells.length)
    (h3 : cursor.level3 = 0) (h2 : cursor.level2 = 700) (h1 : cursor.level1 = 770) :
    ((addLevel1 ocells)^[n] cursor).level3 = 100 * n ∧
      ((addLevel1 ocells)^[n] cursor).level2 = 700 + 10 * n ∧
      ((addLevel1 ocells)^[n] cursor).level1 = 770 + n ∧
      Added ocells cursor.cells ((addLevel1 ocells)^[n] cursor).cells fun i =>
        i < 100 * n ∨ 700 ≤ i ∧ i < 700 + 10 * n ∨ 770 ≤ i ∧ i < 770 + n := by
  induction n with
  | zero => exact ⟨h3, h2, h1, of_zero fun i hi => by omega⟩
  | succ n ih =>
    obtain ⟨h3', h2', h1', hadded⟩ := ih (by omega)
    rw [Function.iterate_succ_apply']
    obtain ⟨h3'', h2'', h1'', hround⟩ := addLevel1_spec hconsistent (show n < 7 by omega)
      (hadded.length.trans hlength) h3' h2' h1'
    refine ⟨h3'', h2'', h1'', (hadded.trans hround ?_).congr ?_⟩
    · intro i hi
      omega
    · intro i
      omega

end

end TreeCursor

/-- Although zeros are skipped, all cells are added. -/
theorem mergeCells_spec {cells ocells : List UInt32} (hlength : cells.length = 778)
    (hlength' : ocells.length = 778) (hconsistent : ConsistentTree ocells) :
    Added ocells cells (mergeCells cells ocells) (· < 778) := by
  rw [mergeCells, hlength, hlength']
  split
  · rename_i hzero
    exact of_zero (hconsistent.zero_of_total hzero)
  · have htotal := cell (hlength.trans hlength'.symm) 777
    have hstart : (TreeCursor.mk (addCell ocells cells 777) 0 700 770).cells.length =
        ocells.length := htotal.length.trans (hlength.trans hlength'.symm)
    obtain ⟨_, _, _, hadded⟩ :=
      addLevel1_iterate hconsistent (le_refl 7) hstart rfl rfl rfl
    refine (htotal.trans hadded ?_).congr ?_
    · intro i hi
      omega
    · intro i
      omega

/-! ### The merge of all properties -/

/-- What a step keeps is kept however often it is taken. -/
theorem apply_iterate {α β : Type*} {f : α → β} {step : α → α} (hstep : ∀ a, f (step a) = f a)
    (n : ℕ) (a : α) : f (step^[n] a) = f a := by
  induction n with
  | zero => rfl
  | succ n ih => rw [Function.iterate_succ_apply', hstep, ih]

theorem length_addCell (ocells cells : List UInt32) (i : ℕ) :
    (addCell ocells cells i).length = cells.length := length_modify _ _ _

variable (ocells : List UInt32)

theorem length_addLevel2 (cursor : TreeCursor) :
    (cursor.addLevel2 ocells).cells.length = cursor.cells.length := by
  rw [addLevel2]
  split
  · simp only [length_addCell]
    exact apply_iterate (f := fun cursor : TreeCursor => cursor.cells.length)
      (fun cursor => length_addCell ocells cursor.cells _) 10 cursor
  · rfl

theorem length_addLevel1 (cursor : TreeCursor) :
    (cursor.addLevel1 ocells).cells.length = cursor.cells.length := by
  rw [addLevel1]
  split
  · simp only [length_addCell]
    exact apply_iterate (f := fun cursor : TreeCursor => cursor.cells.length)
      (length_addLevel2 ocells) 10 cursor
  · rfl

theorem length_mergeCells (cells ocells : List UInt32) :
    (mergeCells cells ocells).length = cells.length := by
  rw [mergeCells]
  split
  · rfl
  · exact (apply_iterate (f := fun cursor : TreeCursor => cursor.cells.length)
      (length_addLevel1 ocells) _ _).trans (length_addCell _ _ _)

def SegmentTree.merge (tree other : SegmentTree) : SegmentTree where
  cells := mergeCells tree.cells other.cells
  length_cells := (length_mergeCells _ _).trans tree.length_cells

def mergeNumericRangeGroup (rep other : NumericRangeGroupRep) : Option NumericRangeGroupRep :=
  mergeGroup (fun tree otree => some (tree.merge otree)) rep other

/-- The sums of the counts at each place. -/
def CellsMerged (tree otree merged : SegmentTree) : Prop :=
  ∀ cell < 778, (merged.cells.getD cell 0).toNat =
    (tree.cells.getD cell 0).toNat + (otree.cells.getD cell 0).toNat

/-- The counts at every place add up to a number of 32 bits. -/
def CellsFit (tree otree : SegmentTree) : Prop :=
  ∀ cell < 778, (tree.cells.getD cell 0).toNat + (otree.cells.getD cell 0).toNat < 2 ^ 32

theorem cellsMerged_merge_iff (tree : SegmentTree) {otree : SegmentTree}
    (hconsistent : ConsistentTree otree.cells) :
    CellsMerged tree otree (tree.merge otree) ↔ CellsFit tree otree := by
  have hadded := mergeCells_spec tree.length_cells otree.length_cells hconsistent
  have hcell {cell : ℕ} (hlt : cell < 778) :
      ((tree.merge otree).cells.getD cell 0).toNat =
          (tree.cells.getD cell 0).toNat + (otree.cells.getD cell 0).toNat ↔
        (tree.cells.getD cell 0).toNat + (otree.cells.getD cell 0).toNat < 2 ^ 32 := by
    rw [SegmentTree.merge, hadded.hit cell hlt]
    exact toNat_add_eq_iff _ _
  exact forall₂_congr fun cell hlt => hcell hlt

/-- Two results with the same properties are merged, and what comes out is the sum exactly if
all sums fit in 32 bits. -/
theorem numericMerges_iff_fit : (∀ rep other : NumericGroupRep V, rep.map fst = other.map fst →
      (∀ it ∈ rep, KeysAscend it.2) → (∀ oit ∈ other, KeysAscend oit.2) →
        ∃ result, mergeNumericGroup rep other = some result ∧
          (AllMerged ValuesMerged rep other result ↔ AllPairs ValuesFit rep other)) ∧
      ∀ rep other : NumericRangeGroupRep, rep.map fst = other.map fst →
        (∀ it ∈ rep, ConsistentTree it.2.cells) → (∀ oit ∈ other, ConsistentTree oit.2.cells) →
          ∃ result, mergeNumericRangeGroup rep other = some result ∧
            (AllMerged CellsMerged rep other result ↔ AllPairs CellsFit rep other) := by
  constructor
  · intro rep other h hrep hother
    refine ⟨_, mergeGroup_eq (fun lit olit => mergeValues_eq (lt_succ_self _)) h, ?_⟩
    apply allMerged_zipWith_iff h
    intro it hit oit hoit
    exact valuesMerged_keyedUnion_iff (hrep it hit) (hother oit hoit)
  · intro rep other h _ hother
    refine ⟨_, mergeGroup_eq (fun _ _ => rfl) h, ?_⟩
    apply allMerged_zipWith_iff h
    intro it _ oit hoit
    exact cellsMerged_merge_iff it.2 (hother oit hoit)

/-- The tree of two documents with values of the last range. -/
def lastRange : SegmentTree :=
  ⟨(range 778).map fun i => if i = 699 ∨ i = 769 ∨ i = 776 ∨ i = 777 then 2 else 0, by simp; rfl⟩

theorem getD_lastRange (i : ℕ) : lastRange.cells.getD i 0 =
    if i = 699 ∨ i = 769 ∨ i = 776 ∨ i = 777 then 2 else 0 := by
  rw [lastRange, getD_eq_getElem?_getD, getElem?_map]
  by_cases hi : i < 778
  · rw [getElem?_range hi]
    rfl
  · rw [getElem?_eq_none (by simpa using hi), if_neg (by omega)]
    rfl

theorem consistent_lastRange : ConsistentTree lastRange.cells := by
  constructor <;> simp only [getD_lastRange] <;> decide

theorem numericMerges_price :
    (∃ result, mergeNumericGroup [("Price", [((1 : ℤ), 2), (3, 1)])] [("Price", [(3, 4)])] =
        some result ∧
      (AllMerged ValuesMerged [("Price", [(1, 2), (3, 1)])] [("Price", [(3, 4)])] result ↔
        AllPairs ValuesFit [("Price", [((1 : ℤ), 2), (3, 1)])] [("Price", [(3, 4)])])) ∧
      ∃ result, mergeNumericRangeGroup [("Price", lastRange)] [("Price", lastRange)] = some result ∧
        (AllMerged CellsMerged [("Price", lastRange)] [("Price", lastRange)] result ↔
          AllPairs CellsFit [("Price", lastRange)] [("Price", lastRange)]) := by
  obtain ⟨hvalues, hranges⟩ := numericMerges_iff_fit (V := ℤ)
  constructor
  · apply hvalues
    · rfl
    · intro it hit
      obtain rfl := mem_singleton.mp hit
      exact pairwise_pair.mpr (by decide)
    · intro oit hoit
      obtain rfl := mem_singleton.mp hoit
      exact pairwise_singleton _ _
  · apply hranges
    · rfl
    · intro it hit
      obtain rfl := mem_singleton.mp hit
      exact consistent_lastRange
    · intro oit hoit
      obtain rfl := mem_singleton.mp hoit
      exact consistent_lastRange

/-- Two workers with `2 ^ 31` documents of one price. -/
theorem not_merged_full_price :
    ∃ result, mergeNumericGroup [("Price", [((1 : ℤ), 2 ^ 31)])] [("Price", [(1, 2 ^ 31)])] =
        some result ∧
      ¬ AllMerged ValuesMerged [("Price", [((1 : ℤ), 2 ^ 31)])] [("Price", [(1, 2 ^ 31)])]
        result := by
  refine ⟨[("Price", [(1, 0)])], by decide, fun hmerged => ?_⟩
  obtain ⟨values, hget, _, hsum⟩ := hmerged.2 0 "Price" _ _ rfl rfl
  obtain rfl := (mk.inj (some.inj hget)).2
  exact absurd (hsum 1) (by decide)

end AdDelivery.GroupManager
