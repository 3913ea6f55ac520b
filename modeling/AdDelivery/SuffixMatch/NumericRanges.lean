import AdDelivery.SuffixMatch.FilterIds
import Mathlib.Data.Rat.Floor

/-!
# Ranges of numeric filters

The keys of a numeric property are numbers that were amplified and rounded down. A query is
amplified, too, before the keys are searched. Where no key is found below it, the first key is
compared with the query as it was.
-/

namespace AdDelivery.SuffixMatch

open List Option FilterManager

variable {UString : Type}

/-- The end of the build of one numeric property: its keys are sorted, its lists numbered. -/
def finishNumFilter (numFilterData : Table ℤ (List ℕ)) (propId : ℕ)
    (built : BuiltFilters UString) : BuiltFilters UString :=
  let mapped := mapNumericFilterToFilterId numFilterData
    (built.manager.numFilterIds.getD propId ∅) (built.filterList.getD propId [])
  { manager :=
      { built.manager with
        numKeySets := built.manager.numKeySets.modify propId (List.insertionSort (· ≤ ·))
        numFilterIds := built.manager.numFilterIds.set propId mapped.1 }
    filterList := built.filterList.set propId mapped.2 }

namespace FilterManager

variable (fm : FilterManager UString) (propId : ℕ) (numFilter : ℚ) (inclusive : Bool)

/-- A key is a 32-bit integer, and a number that is none is not converted. -/
def formatNumericFilter (tofloor : Bool) : Option ℤ :=
  let amplifier : ℚ := fm.numAmpList.getD propId 0
  let numKey := if tofloor then ⌊numFilter * amplifier⌋ else ⌈numFilter * amplifier⌉
  if -2 ^ 31 ≤ numKey ∧ numKey < 2 ^ 31 then some numKey else none

def getNumFilterIdRangeGreater : Option FilterIdRange := do
  let numKey ← fm.formatNumericFilter propId numFilter true
  let numKeySet := fm.numKeySets.getD propId []
  if numKeySet.length = 0 then some {}
  else idRangeGreater numKeySet (fm.numFilterIds.getD propId ∅) numKey inclusive

def getNumFilterIdRangeLess : Option FilterIdRange := do
  let numKey ← fm.formatNumericFilter propId numFilter false
  let numKeySet := fm.numKeySets.getD propId []
  if numKeySet.length = 0 then some {}
  else
    let it := if inclusive then upperBound numKeySet numKey else lowerBound numKeySet numKey
    -- the first key is compared with the number, not with its key
    if it = 0 ∧ (inclusive = false ∨ numFilter < numKeySet.getD it 0) then some {}
    else
      let it := if it ≠ 0 then it - 1 else it
      let key ← numKeySet[it]?
      idRangeUpTo numKeySet (fm.numFilterIds.getD propId ∅) key

end FilterManager

/-- Before the end of the build: the keys of the map are listed once each, none of its lists is
empty, and no ids were given yet. -/
structure UnfinishedNum (numFilterData : Table ℤ (List ℕ)) (propId : ℕ)
    (built : BuiltFilters UString) : Prop where
  nonempty : ∀ key, key ∈ numFilterData → Table.get numFilterData key ≠ []
  inRange : propId < built.manager.numKeySets.length
  keys_nodup : (built.manager.numKeySets.getD propId []).Nodup
  mem_iff : ∀ key, key ∈ built.manager.numKeySets.getD propId [] ↔ key ∈ numFilterData
  ids_empty : built.manager.numFilterIds[propId]? = some ∅
  hasLists : propId < built.filterList.length

section Build

variable {numFilterData : Table ℤ (List ℕ)} {propId : ℕ} {built : BuiltFilters UString}

theorem UnfinishedNum.indexed (h : UnfinishedNum numFilterData propId built) :
    (∀ key, key ∈ (finishNumFilter numFilterData propId built).manager.numKeySets.getD propId [] ↔
      key ∈ numFilterData) ∧ ∃ live base, Indexed (Table.get numFilterData) live
      ((finishNumFilter numFilterData propId built).manager.numKeySets.getD propId [])
      ((finishNumFilter numFilterData propId built).manager.numFilterIds.getD propId ∅)
      ((finishNumFilter numFilterData propId built).filterList.getD propId []) base := by
  have hkeys : (finishNumFilter numFilterData propId built).manager.numKeySets.getD propId [] =
      (built.manager.numKeySets.getD propId []).insertionSort (· ≤ ·) := by
    rw [finishNumFilter, getD_modify _ _ _ _ _ h.inRange, if_pos rfl]
  have hempty : built.manager.numFilterIds.getD propId ∅ = ∅ := by
    rw [getD_eq_getElem?_getD, h.ids_empty, getD_some]
  have hids : (finishNumFilter numFilterData propId built).manager.numFilterIds.getD propId ∅ =
      (mapFilterToFilterId numFilterData ∅ (built.filterList.getD propId [])).1 := by
    rw [finishNumFilter, getD_eq_getElem?_getD, getElem?_set_self', h.ids_empty, hempty]
    rfl
  have hlists : (finishNumFilter numFilterData propId built).filterList.getD propId [] =
      (mapFilterToFilterId numFilterData ∅ (built.filterList.getD propId [])).2 := by
    rw [finishNumFilter, getD_eq_getElem?_getD, getElem?_set_self h.hasLists, hempty]
    rfl
  have hmem (key : ℤ) : key ∈ (built.manager.numKeySets.getD propId []).insertionSort (· ≤ ·) ↔
      key ∈ numFilterData := by
    rw [mem_insertionSort]
    exact h.mem_iff key
  have hlive (key : ℤ) : key ∈ numFilterData.inOrder.map Prod.fst ↔
      Table.get numFilterData key ≠ [] := by
    rw [mem_map_inOrder]
    refine ⟨h.nonempty key, fun hdocs => ?_⟩
    by_contra habsent
    exact hdocs (Table.get_eq_default habsent)
  rw [hkeys, hids, hlists]
  refine ⟨hmem, numFilterData.inOrder.map Prod.fst, (built.filterList.getD propId []).length,
    pairwise_lt_insertionSort h.keys_nodup, numbered_mapFilterToFilterId h.nonempty _, hlive,
    fun key hkey => ?_⟩
  exact (hmem key).mpr (mem_map_inOrder.mp hkey)

end Build

section Lookups

variable {fm : FilterManager UString} {propId : ℕ} {numFilter : ℚ} {amplifier : ℤ}

/-- A number that stays within the range after it is amplified has a key. -/
theorem formatNumericFilter_eq (hamp : fm.numAmpList.getD propId 0 = amplifier)
    (hlow : -2 ^ 31 ≤ numFilter * amplifier) (hhigh : numFilter * amplifier ≤ 2 ^ 31 - 1)
    (tofloor : Bool) : fm.formatNumericFilter propId numFilter tofloor =
      some (if tofloor then ⌊numFilter * amplifier⌋ else ⌈numFilter * amplifier⌉) := by
  have hfloor : -2 ^ 31 ≤ ⌊numFilter * amplifier⌋ := Int.le_floor.mpr (by exact hlow)
  have hceil : ⌈numFilter * amplifier⌉ ≤ 2 ^ 31 - 1 :=
    Int.ceil_le.mpr (hhigh.trans_eq (by norm_num))
  have hle := Int.floor_le_ceil (numFilter * amplifier)
  rw [formatNumericFilter, hamp]
  refine if_pos ?_
  split
  · omega
  · omega

variable {docs : ℤ → List ℕ} {live : List ℤ} {filterList : List (List ℕ)} {base : ℕ}

/-- Where all keys have documents the ends of the ranges have, too. -/
theorem endsLive_of_forall {keys : List ℤ} (hlive : ∀ key ∈ keys, docs key ≠ [])
    {qualifies : ℤ → Prop} {lows highs : Set ℤ} (hlows : ∀ key ∈ lows, key ∈ keys)
    (hhighs : ∀ key ∈ highs, key ∈ keys) : EndsLive docs qualifies lows highs := fun _ =>
  ⟨fun a ha => hlive a (hlows a ha.1), fun b hb => hlive b (hhighs b hb.1)⟩

/-- The place where the less lookup begins its search. -/
theorem less_point {keys : List ℤ} (hinc : keys.Pairwise (· < ·)) (numKey : ℤ) (inclusive : Bool) :
    let it := if inclusive then upperBound keys numKey else lowerBound keys numKey
    (it = 0 → ∀ key ∈ keys, ¬isLess numKey inclusive key) ∧
      (it ≠ 0 → ∃ b, keys[it - 1]? = some b ∧
        IsGreatest {key ∈ {key | key ∈ keys} | isLess numKey inclusive key} b) := by
  cases inclusive with
  | true =>
    refine ⟨fun hit key hkey => ?_, fun hit => ?_⟩
    · exact ((upperBound_eq_zero hinc).mp hit key hkey).not_ge
    · obtain ⟨b, hb⟩ := exists_before_upperBound hit
      exact ⟨b, hb, isGreatest_before_upperBound hinc hit hb⟩
  | false =>
    refine ⟨fun hit key hkey => ?_, fun hit => ?_⟩
    · exact ((lowerBound_eq_zero hinc).mp hit key hkey).not_gt
    · obtain ⟨b, hb⟩ := exists_before_lowerBound hit
      exact ⟨b, hb, isGreatest_before_lowerBound hinc hit hb⟩

/-- A query below the first key is answered by the first key, if that is not above the number. -/
def Misses (keys : Set ℤ) (numFilter : ℚ) (numKey : ℤ) : Prop :=
  ∃ front, IsLeast keys front ∧ numKey < front ∧ (front : ℚ) ≤ numFilter

section

variable {numKey : ℤ}
    (h : Indexed docs live (fm.numKeySets.getD propId []) (fm.numFilterIds.getD propId ∅)
      filterList base)
    (hlive : ∀ key ∈ fm.numKeySets.getD propId [], docs key ≠ [])
    (hkey : fm.formatNumericFilter propId numFilter false = some numKey)
include h hlive hkey

/-- No key qualifies: the less lookup takes the first key if it is inclusive and that key is not
above the number, and nothing otherwise. -/
theorem Indexed.numLess_at_begin {inclusive : Bool} {front : ℤ}
    (hfront : (fm.numKeySets.getD propId [])[0]? = some front)
    (hit : (if inclusive then upperBound (fm.numKeySets.getD propId []) numKey
      else lowerBound (fm.numKeySets.getD propId []) numKey) = 0) :
    Answered docs (fm.numFilterIds.getD propId ∅) filterList (isLess numKey inclusive)
        (fm.getNumFilterIdRangeLess propId numFilter inclusive) ↔
      ¬(inclusive = true ∧ Misses {key | key ∈ fm.numKeySets.getD propId []} numFilter numKey) := by
  have hzero := (less_point h.sorted numKey inclusive).1 hit
  have hmem := mem_of_getElem? hfront
  have hleast := isLeast_head h.sorted hfront
  have hgetD : (fm.numKeySets.getD propId []).getD 0 0 = front := by
    rw [getD_eq_getElem?_getD, hfront, getD_some]
  rw [getNumFilterIdRangeLess, hkey]
  simp only [bind_eq_bind, bind_some]
  rw [if_neg (length_pos_of_mem hmem).ne']
  simp only [hit, hgetD, hfront, true_and, ne_eq, not_true_eq_false, if_false, bind_some]
  split
  · rename_i hout
    have hends : EndsLive docs (isLess numKey inclusive) ∅ ∅ :=
      endsLive_of_forall hlive (by simp) (by simp)
    refine iff_of_true ((h.answered_empty hzero).mpr hends) ?_
    rintro ⟨hinc, front', hleast', -, hle⟩
    rw [hleast'.unique hleast] at hle
    rw [hinc] at hout
    exact hle.not_gt (hout.resolve_left Bool.noConfusion)
  · rename_i hout
    obtain ⟨hinc, hle⟩ := not_or.mp hout
    rw [Bool.not_eq_false] at hinc
    have hbelow := hzero front hmem
    rw [h.overshoot hmem hbelow]
    refine iff_of_false (fun hempty => hlive front hmem hempty.1) (not_not.mpr ⟨hinc, ?_⟩)
    rw [hinc] at hbelow
    exact ⟨front, hleast, not_le.mp hbelow, not_lt.mp hle⟩

theorem Indexed.numLess (inclusive : Bool) :
    Answered docs (fm.numFilterIds.getD propId ∅) filterList (isLess numKey inclusive)
        (fm.getNumFilterIdRangeLess propId numFilter inclusive) ↔
      ¬(inclusive = true ∧ Misses {key | key ∈ fm.numKeySets.getD propId []} numFilter numKey) := by
  cases hfront : (fm.numKeySets.getD propId [])[0]? with
  | none =>
    have hnil : fm.numKeySets.getD propId [] = [] := by simpa using hfront
    have hends : EndsLive docs (isLess numKey inclusive) ∅ ∅ :=
      endsLive_of_forall hlive (by simp) (by simp)
    rw [getNumFilterIdRangeLess, hkey]
    simp only [bind_eq_bind, bind_some]
    rw [hnil, length_nil]
    rw [hnil] at h
    refine iff_of_true ((h.answered_empty (by simp)).mpr hends) ?_
    rintro ⟨-, front, hleast, -⟩
    exact not_mem_nil hleast.1
  | some front =>
    by_cases hit : (if inclusive then upperBound (fm.numKeySets.getD propId []) numKey
        else lowerBound (fm.numKeySets.getD propId []) numKey) = 0
    · exact h.numLess_at_begin hlive hkey hfront hit
    · obtain ⟨b, hb, hgreatest⟩ := (less_point h.sorted numKey inclusive).2 hit
      have hmem := mem_of_getElem? hfront
      rw [getNumFilterIdRangeLess, hkey]
      simp only [bind_eq_bind, bind_some]
      rw [if_neg (length_pos_of_mem hmem).ne']
      simp only [hit, false_and, if_false, ne_eq, not_false_eq_true, if_true, hb, bind_some]
      rw [h.upTo hgreatest]
      · refine iff_of_true (endsLive_of_forall hlive (fun _ => id) fun _ hkey => hkey.1) ?_
        rintro ⟨rfl, front', hleast', hlt, -⟩
        exact (hlt.trans_le (hleast'.2 hgreatest.1.1)).not_ge hgreatest.1.2
      · intro key _ hle
        have hless := hgreatest.1.2
        cases inclusive with
        | true => exact hle.trans hless
        | false => exact hle.trans_lt hless

end

/-- After the end of the build the lookup covers the lists of the keys that qualify. -/
def NumRangeExact (numFilterData : Table ℤ (List ℕ)) (propId : ℕ) (built : BuiltFilters UString)
    (qualifies : ℤ → Prop) (lookup : FilterManager UString → Option FilterIdRange) : Prop :=
  let finished := finishNumFilter numFilterData propId built
  Answered (Table.get numFilterData) (finished.manager.numFilterIds.getD propId ∅)
    (finished.filterList.getD propId []) qualifies (lookup finished.manager)

section Ranges

variable {numFilterData : Table ℤ (List ℕ)} {built : BuiltFilters UString}

section

variable (h : UnfinishedNum numFilterData propId built)
    (hamp : built.manager.numAmpList.getD propId 0 = amplifier)
    (hlow : -2 ^ 31 ≤ numFilter * amplifier) (hhigh : numFilter * amplifier ≤ 2 ^ 31 - 1)
    (inclusive : Bool)
include h hamp hlow hhigh inclusive

theorem numRangeExact_greater :
    NumRangeExact numFilterData propId built (isGreater ⌊numFilter * amplifier⌋ inclusive)
      fun fm => fm.getNumFilterIdRangeGreater propId numFilter inclusive := by
  obtain ⟨hmem, live, base, hindexed⟩ := h.indexed
  have hlive : ∀ key ∈ (finishNumFilter numFilterData propId built).manager.numKeySets.getD
      propId [], Table.get numFilterData key ≠ [] := fun key hkey =>
    h.nonempty key ((hmem key).mp hkey)
  have hkey : (finishNumFilter numFilterData propId built).manager.formatNumericFilter propId
      numFilter true = some ⌊numFilter * amplifier⌋ := formatNumericFilter_eq hamp hlow hhigh true
  have hgreater := (hindexed.greater ⌊numFilter * amplifier⌋ inclusive).mpr
    (endsLive_of_forall hlive (fun _ hkey => hkey.1) fun _ => id)
  rw [NumRangeExact, getNumFilterIdRangeGreater, hkey]
  simp only [bind_eq_bind, bind_some]
  split
  · rename_i hempty
    rw [length_eq_zero_iff.mp hempty] at hgreater
    exact hgreater
  · exact hgreater

theorem numRangeExact_less :
    NumRangeExact numFilterData propId built (isLess ⌈numFilter * amplifier⌉ inclusive)
        (fun fm => fm.getNumFilterIdRangeLess propId numFilter inclusive) ↔ ¬(inclusive = true ∧
        Misses {key | key ∈ numFilterData} numFilter ⌈numFilter * amplifier⌉) := by
  obtain ⟨hmem, live, base, hindexed⟩ := h.indexed
  simp only [← hmem]
  exact hindexed.numLess (fun key hkey => h.nonempty key ((hmem key).mp hkey))
    (formatNumericFilter_eq hamp hlow hhigh false) inclusive

end

/-- The greater lookup is right, and so is the less lookup, unless it is inclusive and the query
lies below the first key only after it is amplified. -/
theorem numRangeExact_iff (h : UnfinishedNum numFilterData propId built)
    (hamp : built.manager.numAmpList.getD propId 0 = amplifier)
    (hlow : -2 ^ 31 ≤ numFilter * amplifier) (hhigh : numFilter * amplifier ≤ 2 ^ 31 - 1)
    (inclusive : Bool) :
    NumRangeExact numFilterData propId built (isGreater ⌊numFilter * amplifier⌋ inclusive)
        (fun fm => fm.getNumFilterIdRangeGreater propId numFilter inclusive) ∧
      (NumRangeExact numFilterData propId built (isLess ⌈numFilter * amplifier⌉ inclusive)
          (fun fm => fm.getNumFilterIdRangeLess propId numFilter inclusive) ↔ ¬(inclusive = true ∧
          Misses {key | key ∈ numFilterData} numFilter ⌈numFilter * amplifier⌉)) :=
  ⟨numRangeExact_greater h hamp hlow hhigh inclusive,
    numRangeExact_less h hamp hlow hhigh inclusive⟩

end Ranges

end Lookups

/-- One key, half of a number below zero, in a property whose numbers are amplified by 100. -/
def halfBelowZero : Table ℤ (List ℕ) := Finmap.insert (-50) [1] ∅

def amplified : BuiltFilters (List Char) where
  manager := { numAmpList := [100], numKeySets := [[-50]], numFilterIds := [∅] }
  filterList := [[]]

theorem mem_halfBelowZero {key : ℤ} : key ∈ halfBelowZero ↔ key = -50 := by
  rw [halfBelowZero, Finmap.mem_insert]
  exact or_iff_left Finmap.notMem_empty

theorem unfinishedNum_halfBelowZero : UnfinishedNum halfBelowZero 0 amplified := by
  refine ⟨fun key hkey => ?_, by decide, by decide, fun key => ?_, rfl, by decide⟩
  · rw [mem_halfBelowZero.mp hkey, halfBelowZero, Table.get]
    exact cons_ne_nil 1 []
  · rw [mem_halfBelowZero]
    exact mem_singleton

theorem numAmp_amplified : amplified.manager.numAmpList.getD 0 0 = 100 := rfl

theorem numRangeExact_iff_halfBelowZero :
    NumRangeExact halfBelowZero 0 amplified (isGreater ⌊(-1 : ℚ) * (100 : ℤ)⌋ true)
        (fun fm => fm.getNumFilterIdRangeGreater 0 (-1) true) ∧
      (NumRangeExact halfBelowZero 0 amplified (isLess ⌈(-1 : ℚ) * (100 : ℤ)⌉ true)
          (fun fm => fm.getNumFilterIdRangeLess 0 (-1) true) ↔ ¬(true = true ∧
          Misses {key | key ∈ halfBelowZero} (-1) ⌈(-1 : ℚ) * (100 : ℤ)⌉)) :=
  numRangeExact_iff unfinishedNum_halfBelowZero numAmp_amplified (by norm_num) (by norm_num) true

/-- Of -1 and less there is nothing, but the range holds the key of -0.5. -/
theorem not_numRangeExact_less_halfBelowZero :
    ¬NumRangeExact halfBelowZero 0 amplified (isLess ⌈(-1 : ℚ) * (100 : ℤ)⌉ true)
      (fun fm => fm.getNumFilterIdRangeLess 0 (-1) true) := by
  rw [numRangeExact_less unfinishedNum_halfBelowZero numAmp_amplified (by norm_num) (by norm_num),
    not_not]
  refine ⟨rfl, -50, ⟨mem_halfBelowZero.mpr rfl, fun key hkey => ?_⟩, ?_, ?_⟩
  · exact (mem_halfBelowZero.mp hkey).ge
  · norm_num
  · norm_num

end AdDelivery.SuffixMatch
