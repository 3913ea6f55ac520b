import AdDelivery.AggregatorManager.MergeComparator
import AdDelivery.Core.KWayMerge
import Mathlib.Algebra.GroupWithZero.Nat
import Mathlib.Order.Lattice.Nat

/-!
# Merging typed results

The merger adds the counts of the workers, widens the range of their values, and merges their
documents by the heads of the lists. What belongs to a document is copied along with it.
-/

namespace AdDelivery.DistSearch

open List KWayMerge List SearchMerger
open SearchMerger (WorkerId DocId WDocId resize assign)

variable {F D S : Type} (format : FloatFormat F D)

abbrev WorkerResults (F D S : Type) := List (WorkerId × KeywordSearchResult F D S)

variable (results : WorkerResults F D S)

def workerId (i : ℕ) : WorkerId :=
  (results[i]?).elim 0 Prod.fst

def result (i : ℕ) : KeywordSearchResult F D S :=
  (results[i]?).elim (.new format) Prod.snd

def emptyWorkerResult (wresult : KeywordSearchResult F D S) : KeywordSearchResult F D S :=
  { wresult with
    totalCount := 0
    counterResults := ∅
    topKDocs := []
    topKWorkerIds := []
    topKRankScoreList := []
    topKCustomRankScoreList := []
    topKGeoDistanceList := [] }

/-- Only the results with the largest token number are needed. -/
def keepLargestTokenNum : WorkerResults F D S :=
  let largest := results.foldl (fun largest w => max largest w.2.distSearchInfo.majorTokenNum)
    (result format results 0).distSearchInfo.majorTokenNum
  results.map fun w =>
    if w.2.distSearchInfo.majorTokenNum < largest then (w.1, emptyWorkerResult w.2) else w

def mergePropertyRange : PropertyRange F :=
  results.foldl (fun range w =>
    { lowValue := if format.less w.2.propertyRange.lowValue range.lowValue then
        w.2.propertyRange.lowValue else range.lowValue
      highValue := if format.less range.highValue w.2.propertyRange.highValue then
        w.2.propertyRange.highValue else range.highValue })
    { lowValue := format.max, highValue := format.min }

def mergeCounterResults (counters : Table String UInt32) (results : WorkerResults F D S) :
    Table String UInt32 :=
  results.foldl (fun counters w => w.2.counterResults.inOrder.foldl
    (fun counters entry => counters.update entry.1 (· + entry.2)) counters) counters

/-- The conversion of an `int` to `size_t`. -/
def toSize (n : Int32) : ℕ := n.toInt64.toUInt64.toNat

def topKCount (roundDown : ℕ → Int32 → ℕ) (results : WorkerResults F D S) (start : ℕ)
    (topKNum : Int32) : ℕ :=
  let totalTopKCount := (results.map fun w => w.2.topKDocs.length).sum
  let topKStart := roundDown start topKNum
  min (toSize topKNum) (if topKStart < totalTopKCount then totalTopKCount - topKStart else 0)

/-- The document at a place of a result, as `Util::GetWDocId` packs it. -/
def wdocId (p : ℕ × ℕ) : WDocId :=
  (workerId results p.1, (result format results p.1).topKDocs.getD p.2 0)

section Merge

variable [LinearOrder S] [Inhabited S] (isNewerDocId : WDocId → WDocId → Bool)
  (roundDown : ℕ → Int32 → ℕ)

/-- Where each merged document stands: the number of the result, and the offset there. -/
def pageOffsetInWorker (results : WorkerResults F D S) (topKCount : ℕ) : List (ℕ × ℕ) :=
  merge (fun i => (result format results i).topKDocs.length)
    (fun p q => greaterThan format isNewerDocId p.2 (wdocId format results p) q.2
      (wdocId format results q) (documentComparator format (result format results p.1))
      (documentComparator format (result format results q.1)))
    results.length topKCount fun _ => 0

/-- Merge an optional list. A result without it leaves its places as they are. -/
def mergeOptional (list : KeywordSearchResult F D S → List F) (results : WorkerResults F D S)
    (offsets : List (ℕ × ℕ)) (topKCount : ℕ) (old : List F) : List F :=
  if results.any fun w => !(list w.2).isEmpty then
    assign (resize old topKCount format.zero) (offsets.map fun p =>
      if (list (result format results p.1)).isEmpty then none
      else some ((list (result format results p.1)).getD p.2 format.zero))
  else old

/-- The page and the size of the window are those of the first result. -/
def setBasicInfo (result0 mergeResult : KeywordSearchResult F D S) : KeywordSearchResult F D S :=
  { mergeResult with
    start := result0.start
    count := result0.count
    totalCount := 0
    TOP_K_NUM := result0.TOP_K_NUM }

/-- Everything from the counts on. -/
def mergeTopK (results : WorkerResults F D S) (mergeResult : KeywordSearchResult F D S) :
    KeywordSearchResult F D S :=
  let topKCount := topKCount roundDown results mergeResult.start mergeResult.TOP_K_NUM
  let offsets := pageOffsetInWorker format isNewerDocId results topKCount
  { mergeResult with
    totalCount := mergeResult.totalCount + (results.map fun w => w.2.totalCount).sum
    counterResults := mergeCounterResults mergeResult.counterResults results
    propertyRange := mergePropertyRange format results
    topKDocs := assign (resize mergeResult.topKDocs topKCount 0)
      (offsets.map fun p => some ((result format results p.1).topKDocs.getD p.2 0))
    topKWorkerIds := assign (resize mergeResult.topKWorkerIds topKCount 0)
      (offsets.map fun p => some (workerId results p.1))
    topKRankScoreList := assign (resize mergeResult.topKRankScoreList topKCount format.zero)
      (offsets.map fun p =>
        some ((result format results p.1).topKRankScoreList.getD p.2 format.zero))
    topKCustomRankScoreList := mergeOptional format KeywordSearchResult.topKCustomRankScoreList
      results offsets topKCount mergeResult.topKCustomRankScoreList
    topKGeoDistanceList := mergeOptional format KeywordSearchResult.topKGeoDistanceList
      results offsets topKCount mergeResult.topKGeoDistanceList }

def getDistSearchResult (workerResults : WorkerResults F D S)
    (mergeResult : KeywordSearchResult F D S) : KeywordSearchResult F D S :=
  if workerResults.length = 0 then { mergeResult with error := "empty worker." }
  else
    match workerResults.find? fun w => w.2.error ≠ "" with
    | some w => { mergeResult with error := w.2.error }
    | none =>
      let result0 := result format workerResults 0
      if workerResults.length = 1 then
        { result0 with
          topKWorkerIds :=
            resize result0.topKWorkerIds result0.topKDocs.length (workerId workerResults 0) }
      else
        mergeTopK format isNewerDocId roundDown (keepLargestTokenNum format workerResults)
          (setBasicInfo result0 mergeResult)

end Merge

section Spec

variable [LinearOrder S] (isNewerDocId : WDocId → WDocId → Bool)

/-- The order of the places of all results: by the sort properties, and newer documents first. -/
def Above (properties : List (String × Bool)) (results : WorkerResults F D S) :
    ℕ × ℕ → ℕ × ℕ → Prop :=
  aboveBy properties
    (fun p q => isNewerDocId (wdocId format results p) (wdocId format results q) = true)
    fun property p => sortValue format (result format results p.1) property p.2

def allPlaces (results : WorkerResults F D S) : List (ℕ × ℕ) :=
  places (fun i => (result format results i).topKDocs.length) (fun _ => 0) results.length

/-- Results that are all sorted by the same properties. A result without documents need not have
columns. -/
structure SortedResults (properties : List (String × Bool)) (type : String → SortType)
    (results : WorkerResults F D S) : Prop where
  error : ∀ w ∈ results, w.2.error = ""
  majorTokenNum : ∀ w ∈ results, ∀ w' ∈ results,
    w.2.distSearchInfo.majorTokenNum = w'.2.distSearchInfo.majorTokenNum
  columns : ∀ w ∈ results, w.2.topKDocs ≠ [] → HasColumns format properties type w.2
  rankScores : ∀ w ∈ results, w.2.topKRankScoreList.length = w.2.topKDocs.length
  customRankScores : ∀ w ∈ results, w.2.topKCustomRankScoreList = [] ∨
    w.2.topKCustomRankScoreList.length = w.2.topKDocs.length
  sorted : ∀ i j k, i < results.length → j < k → k < (result format results i).topKDocs.length →
    ¬ Above format isNewerDocId properties results (i, k) (i, j)

/-- The lists of `merged` belong to the first `topKCount` places of a ranking. -/
structure Aligned (results : WorkerResults F D S) (ranked : List (ℕ × ℕ)) (topKCount : ℕ)
    (merged : KeywordSearchResult F D S) : Prop where
  topKDocs_length : merged.topKDocs.length = topKCount
  topKWorkerIds_length : merged.topKWorkerIds.length = topKCount
  topKRankScoreList_length : merged.topKRankScoreList.length = topKCount
  topKCustomRankScoreList_length : merged.topKCustomRankScoreList.length =
    if results.any fun w => !w.2.topKCustomRankScoreList.isEmpty then topKCount else 0
  at_place : ∀ cnt, cnt < topKCount → ∃ i j w, ranked[cnt]? = some (i, j) ∧
    results[i]? = some w ∧ j < w.2.topKDocs.length ∧
    merged.topKDocs[cnt]? = w.2.topKDocs[j]? ∧
    merged.topKWorkerIds[cnt]? = some w.1 ∧
    merged.topKRankScoreList[cnt]? = w.2.topKRankScoreList[j]? ∧
    (w.2.topKCustomRankScoreList ≠ [] →
      merged.topKCustomRankScoreList[cnt]? = w.2.topKCustomRankScoreList[j]?)

end Spec

theorem get_mergeCounterResults (counters : Table String UInt32) (results : WorkerResults F D S)
    (name : String) : ((mergeCounterResults counters results).get name).toNat =
      ((counters.get name).toNat +
        (results.map fun w => (w.2.counterResults.get name).toNat).sum) % 2 ^ 32 := by
  induction results generalizing counters with
  | nil =>
    have := (counters.get name).toNat_lt
    simp only [mergeCounterResults, foldl_nil, map_nil, sum_nil]
    omega
  | cons w results ih =>
    have hadd : (w.2.counterResults.inOrder.foldl
        (fun counters entry => counters.update entry.1 (· + entry.2)) counters).get name =
        counters.get name + w.2.counterResults.get name := by
      have hget : w.2.counterResults.get name = (w.2.counterResults.lookup name).getD 0 := rfl
      rw [Table.get_foldl_inOrder, hget]
      cases w.2.counterResults.lookup name with
      | none => exact (UInt32.add_zero _).symm
      | some value => rfl
    rw [mergeCounterResults, foldl_cons, ← mergeCounterResults, ih, hadd, UInt32.toNat_add,
      map_cons, sum_cons]
    omega

variable {results : WorkerResults F D S}

theorem keepLargestTokenNum_eq (h : ∀ w ∈ results, ∀ w' ∈ results,
      w.2.distSearchInfo.majorTokenNum = w'.2.distSearchInfo.majorTokenNum) :
    keepLargestTokenNum format results = results := by
  cases results with
  | nil => rfl
  | cons w₀ rest =>
    have hfold : ∀ l : WorkerResults F D S, (∀ w ∈ l, w ∈ w₀ :: rest) →
        l.foldl (fun largest w => max largest w.2.distSearchInfo.majorTokenNum)
          w₀.2.distSearchInfo.majorTokenNum = w₀.2.distSearchInfo.majorTokenNum := by
      intro l hl
      induction l with
      | nil => rfl
      | cons w l ih =>
        rw [foldl_cons, h w (hl w mem_cons_self) w₀ mem_cons_self, max_self]
        exact ih fun w hw => hl w (mem_cons_of_mem _ hw)
    have hlargest := hfold (w₀ :: rest) fun w hw => hw
    refine (map_congr_left fun w hw => ?_).trans (map_id _)
    change (if w.2.distSearchInfo.majorTokenNum < (w₀ :: rest).foldl
      (fun largest w => max largest w.2.distSearchInfo.majorTokenNum)
      w₀.2.distSearchInfo.majorTokenNum then _ else w) = w
    rw [hlargest, h w hw w₀ mem_cons_self, if_neg (lt_irrefl _)]

variable {w : WorkerId × KeywordSearchResult F D S}

theorem result_eq {i : ℕ} (h : results[i]? = some w) :
    result format results i = w.2 := by rw [result, h, Option.elim_some]

theorem workerId_eq {i : ℕ} (h : results[i]? = some w) :
    workerId results i = w.1 := by rw [workerId, h, Option.elim_some]

theorem map_result (results : WorkerResults F D S) :
    (range results.length).map (result format results) = results.map Prod.snd := by
  refine ext_getElem (by simp) fun i hi hi' => ?_
  have h : i < results.length := by simpa using hi
  rw [getElem_map, getElem_range, getElem_map, result_eq format (getElem?_eq_getElem h)]

theorem length_allPlaces (results : WorkerResults F D S) :
    (allPlaces format results).length = (results.map fun w => w.2.topKDocs.length).sum := by
  have hmap := congrArg (map fun r => r.topKDocs.length) (map_result format results)
  rw [map_map, map_map] at hmap
  rw [allPlaces, places, length_flatMap]
  simp only [length_map, length_range', Nat.sub_zero]
  exact congrArg sum hmap

theorem topKCount_le (roundDown : ℕ → Int32 → ℕ) (results : WorkerResults F D S) (start : ℕ)
    (topKNum : Int32) :
    topKCount roundDown results start topKNum ≤ (allPlaces format results).length := by
  rw [length_allPlaces, topKCount]
  split <;> omega

/-- The place is in a list. -/
theorem exists_result {p : ℕ × ℕ} (hp : p.1 < results.length)
    (hp' : p.2 < (result format results p.1).topKDocs.length) :
    ∃ w ∈ results, results[p.1]? = some w ∧ p.2 < w.2.topKDocs.length := by
  refine ⟨results[p.1], getElem_mem hp, getElem?_eq_getElem hp, ?_⟩
  rwa [result_eq format (getElem?_eq_getElem hp)] at hp'

section Merge

variable [LinearOrder S] [Inhabited S] {isNewerDocId : WDocId → WDocId → Bool}
  (roundDown : ℕ → Int32 → ℕ)

omit [Inhabited S] in
theorem above_weak (hnewer : IsStrictTotalOrder WDocId fun a b => isNewerDocId a b = true)
    (properties : List (String × Bool)) (results : WorkerResults F D S) :
    IsStrictWeakOrder (ℕ × ℕ) (Above format isNewerDocId properties results) := by
  have hweak : IsStrictWeakOrder WDocId fun a b => isNewerDocId a b = true :=
    isStrictWeakOrder_of_isOrderConnected
  have hplaces : IsStrictWeakOrder (ℕ × ℕ) fun p q =>
      isNewerDocId (wdocId format results p) (wdocId format results q) = true :=
    inferInstanceAs (IsStrictWeakOrder (ℕ × ℕ)
      (Order.Preimage (wdocId format results) fun a b => isNewerDocId a b = true))
  exact aboveBy_weak properties _ _

variable {properties : List (String × Bool)} {type : String → SortType}

theorem greaterThan_iff_above {results : WorkerResults F D S}
    (h : ∀ w ∈ results, w.2.topKDocs ≠ [] → HasColumns format properties type w.2) {p q : ℕ × ℕ}
    (hp : p.1 < results.length) (hp' : p.2 < (result format results p.1).topKDocs.length)
    (hq : q.1 < results.length) (hq' : q.2 < (result format results q.1).topKDocs.length) :
    greaterThan format isNewerDocId p.2 (wdocId format results p) q.2 (wdocId format results q)
      (documentComparator format (result format results p.1))
      (documentComparator format (result format results q.1)) = true ↔
      Above format isNewerDocId properties results p q := by
  obtain ⟨w, hw, hget, hlt⟩ := exists_result format hp hp'
  obtain ⟨w', hw', hget', hlt'⟩ := exists_result format hq hq'
  have hcolumns : HasColumns format properties type (result format results p.1) := by
    rw [result_eq format hget]
    exact h w hw (ne_nil_of_length_pos (Nat.zero_lt_of_lt hlt))
  have hcolumns' : HasColumns format properties type (result format results q.1) := by
    rw [result_eq format hget']
    exact h w' hw' (ne_nil_of_length_pos (Nat.zero_lt_of_lt hlt'))
  refine greaterThan_iff format hcolumns hcolumns' hp' hq' ?left ?right ?newer
  case left => exact fun _ => rfl
  case right => exact fun _ => rfl
  case newer => exact Iff.rfl

/-- All places in the order of the merge. -/
def rankedPlaces (isNewerDocId : WDocId → WDocId → Bool) (results : WorkerResults F D S) :
    List (ℕ × ℕ) :=
  pageOffsetInWorker format isNewerDocId results (allPlaces format results).length

variable (results : WorkerResults F D S)

theorem rankedPlaces_perm :
    (rankedPlaces format isNewerDocId results).Perm (allPlaces format results) :=
  merge_perm_places _ _ _ _ (Nat.le_refl _)

theorem rankedPlaces_sorted (hnewer : IsStrictTotalOrder WDocId fun a b => isNewerDocId a b = true)
    {results : WorkerResults F D S}
    (h : SortedResults format isNewerDocId properties type results) :
    (rankedPlaces format isNewerDocId results).Pairwise fun p q =>
      ¬ Above format isNewerDocId properties results q p := by
  have hweak := above_weak format hnewer properties results
  exact merge_sorted
    (fun p q hp hp' hq hq' => greaterThan_iff_above format h.columns hp hp' hq hq')
    h.sorted _ _

theorem pageOffsetInWorker_eq_take {count : ℕ}
    (hcount : count ≤ (allPlaces format results).length) :
    pageOffsetInWorker format isNewerDocId results count =
      (rankedPlaces format isNewerDocId results).take count :=
  (merge_take _ _ _ _ hcount).symm

theorem length_pageOffsetInWorker {count : ℕ} (hcount : count ≤ (allPlaces format results).length) :
    (pageOffsetInWorker format isNewerDocId results count).length = count := by
  rw [pageOffsetInWorker_eq_take format results hcount, length_take,
    (rankedPlaces_perm format results).length_eq, Nat.min_eq_left hcount]

end Merge

variable {list : KeywordSearchResult F D S → List F}

theorem length_mergeOptional (offsets : List (ℕ × ℕ)) (count : ℕ) :
    (mergeOptional format list results offsets count []).length =
      if results.any fun w => !(list w.2).isEmpty then count else 0 := by
  rw [mergeOptional]
  split
  · rw [assign, length_mapIdx, length_resize]
  · rfl

/-- The value of a document whose worker has the optional list. -/
theorem getElem?_mergeOptional {offsets : List (ℕ × ℕ)} {count cnt : ℕ} (hcnt : cnt < count)
    {i j : ℕ} (hplace : offsets[cnt]? = some (i, j)) (hw : results[i]? = some w)
    (hne : list w.2 ≠ []) (hj : j < (list w.2).length) :
    (mergeOptional format list results offsets count [])[cnt]? = (list w.2)[j]? := by
  have hany : (results.any fun w => !(list w.2).isEmpty) = true :=
    any_eq_true.mpr ⟨w, mem_of_getElem? hw, by simpa using hne⟩
  have hold : cnt < (resize [] count format.zero).length := by
    rwa [length_resize]
  rw [mergeOptional, if_pos hany, assign, getElem?_mapIdx, getElem?_eq_getElem hold]
  simp [getD_eq_getElem?_getD, hplace, result_eq format hw, hne, hj]

section Merge

variable [LinearOrder S] [Inhabited S] {isNewerDocId : WDocId → WDocId → Bool}
  (roundDown : ℕ → Int32 → ℕ)

/-- The lists of the documents, and of what belongs to them. -/
theorem mergeTopK_aligned {properties : List (String × Bool)} {type : String → SortType}
    {results : WorkerResults F D S} (h : SortedResults format isNewerDocId properties type results)
    {mergeResult : KeywordSearchResult F D S} (hcustom : mergeResult.topKCustomRankScoreList = []) :
    Aligned results (rankedPlaces format isNewerDocId results)
      (topKCount roundDown results mergeResult.start mergeResult.TOP_K_NUM)
      (mergeTopK format isNewerDocId roundDown results mergeResult) := by
  have hle := topKCount_le format roundDown results mergeResult.start mergeResult.TOP_K_NUM
  rw [mergeTopK]
  generalize topKCount roundDown results mergeResult.start mergeResult.TOP_K_NUM = count at hle ⊢
  have hlength : (pageOffsetInWorker format isNewerDocId results count).length = count :=
    length_pageOffsetInWorker format results hle
  have htake : pageOffsetInWorker format isNewerDocId results count =
      (rankedPlaces format isNewerDocId results).take count :=
    pageOffsetInWorker_eq_take format results hle
  have hassign : ∀ {α : Type} (old : List α) (x : α) (f : ℕ × ℕ → α),
      assign (resize old count x)
        ((pageOffsetInWorker format isNewerDocId results count).map fun p => some (f p)) =
      (pageOffsetInWorker format isNewerDocId results count).map f := fun old x f =>
    assign_map_some f (by rw [hlength, length_resize])
  simp only [hassign, hcustom]
  refine ⟨?_, ?_, ?_, ?_, ?_⟩
  · rw [length_map, hlength]
  · rw [length_map, hlength]
  · rw [length_map, hlength]
  · exact length_mergeOptional format _ _
  · intro cnt hcnt
    have hoffset : cnt < (pageOffsetInWorker format isNewerDocId results count).length :=
      hcnt.trans_eq hlength.symm
    obtain ⟨⟨i, j⟩, hp⟩ : ∃ p,
        (pageOffsetInWorker format isNewerDocId results count)[cnt]? = some p :=
      ⟨_, getElem?_eq_getElem hoffset⟩
    have hranked : (rankedPlaces format isNewerDocId results)[cnt]? = some (i, j) := by
      rw [← hp, htake, getElem?_take_of_lt hcnt]
    obtain ⟨hi, -, hj⟩ := mem_places.mp
      ((rankedPlaces_perm format results).mem_iff.mp (mem_of_getElem? hranked))
    obtain ⟨w, hw, hget, hj⟩ := exists_result format hi hj
    have hscore : j < w.2.topKRankScoreList.length := by rwa [h.rankScores w hw]
    refine ⟨i, j, w, hranked, hget, hj, ?_, ?_, ?_, ?_⟩
    · simp [hp, result_eq format hget, hj]
    · simp [hp, workerId_eq hget]
    · simp [hp, result_eq format hget, hscore]
    · intro hne
      refine getElem?_mergeOptional format hcnt hp hget hne ?_
      rwa [(h.customRankScores w hw).resolve_left hne]

/-- The merger sorts what the workers sorted. -/
theorem getDistSearchResult_merges
    (hnewer : IsStrictTotalOrder WDocId fun a b => isNewerDocId a b = true)
    {properties : List (String × Bool)} {type : String → SortType}
    {results : WorkerResults F D S} (hworkers : 2 ≤ results.length)
    (h : SortedResults format isNewerDocId properties type results)
    {mergeResult : KeywordSearchResult F D S} (hcounter : mergeResult.counterResults = ∅)
    (hcustom : mergeResult.topKCustomRankScoreList = []) :
    let merged := getDistSearchResult format isNewerDocId roundDown results mergeResult
    let result0 := result format results 0
    (∃ ranked : List (ℕ × ℕ), ranked.Perm (allPlaces format results) ∧
      (ranked.Pairwise fun p q => ¬ Above format isNewerDocId properties results q p) ∧
      Aligned results ranked (topKCount roundDown results result0.start result0.TOP_K_NUM) merged) ∧
    merged.totalCount = (results.map fun w => w.2.totalCount).sum ∧
    ∀ name, (merged.counterResults.get name).toNat =
      (results.map fun w => (w.2.counterResults.get name).toNat).sum % 2 ^ 32 := by
  have hnone : (results.find? fun w => decide (w.2.error ≠ "")) = none := by
    refine find?_eq_none.mpr fun w hw => ?_
    simp [h.error w hw]
  have hmerged : getDistSearchResult format isNewerDocId roundDown results mergeResult =
      mergeTopK format isNewerDocId roundDown results
        (setBasicInfo (result format results 0) mergeResult) := by
    rw [getDistSearchResult, if_neg (by omega), hnone,
      keepLargestTokenNum_eq format h.majorTokenNum]
    exact if_neg (by omega)
  simp only [hmerged]
  refine ⟨⟨rankedPlaces format isNewerDocId results, ?_, ?_, ?_⟩, ?_, ?_⟩
  · exact rankedPlaces_perm format results
  · exact rankedPlaces_sorted format hnewer h
  · have hbasic : (setBasicInfo (result format results 0)
        mergeResult).topKCustomRankScoreList = [] := hcustom
    exact mergeTopK_aligned format roundDown h hbasic
  · exact Nat.zero_add _
  · intro name
    rw [mergeTopK]
    simp only [setBasicInfo, get_mergeCounterResults, hcounter, Table.get_empty]
    rw [show (default : UInt32).toNat = 0 from rfl, Nat.zero_add]

end Merge

/-- Floats that are whole numbers. -/
def wholeFormat : FloatFormat ℤ ℤ where
  zero := 0
  lowest := -100
  min := 1
  max := 100
  less v w := decide (v < w)
  near v w := decide (v = w)
  reread values := values

/-- A result sorted by price and title, with the window of two documents. -/
def pricedResult (docs : List (DocId × Int32 × String)) : KeywordSearchResult ℤ ℤ String :=
  { propertyRange := { highValue := 0, lowValue := 0 }
    distSearchInfo :=
      { sortPropertyList := [("Price", false), ("Title", true)]
        sortPropertyInt32DataList := [("Price", docs.map fun doc => doc.2.1)]
        sortPropertyStrDataList := [("Title", docs.map fun doc => doc.2.2)] }
    totalCount := docs.length
    topKDocs := docs.map Prod.fst
    topKRankScoreList := docs.map fun _ => 0
    TOP_K_NUM := 2 }

def pricedResults : WorkerResults ℤ ℤ String :=
  [(1, pricedResult [(7, 30, "pen"), (2, 10, "ink")]), (2, pricedResult [(4, 10, "cup")])]

def pricedType (property : String) : SortType := if property = "Price" then .int32 else .string

theorem pricedResult_columns (docs : List (DocId × Int32 × String)) :
    HasColumns wholeFormat [("Price", false), ("Title", true)] pricedType (pricedResult docs) where
  sortProperties_eq := rfl
  column := by
    intro property hproperty
    rcases mem_cons.mp hproperty with rfl | hproperty
    · exact ⟨.int32 (docs.map fun doc => doc.2.1), rfl, trivial,
        by simp [DataList.length, pricedResult]⟩
    · obtain rfl := mem_singleton.mp hproperty
      exact ⟨.string (docs.map fun doc => doc.2.2), rfl, trivial,
        by simp [DataList.length, pricedResult]⟩

theorem pricedResults_columns : ∀ w ∈ pricedResults, w.2.topKDocs ≠ [] →
    HasColumns wholeFormat [("Price", false), ("Title", true)] pricedType w.2 := by
  intro w hw _
  rcases mem_cons.mp hw with rfl | hw
  · exact pricedResult_columns _
  · obtain rfl := mem_singleton.mp hw
    exact pricedResult_columns _

theorem pricedResults_sorted : SortedResults wholeFormat newerByNumber
    [("Price", false), ("Title", true)] pricedType pricedResults where
  error := by decide
  majorTokenNum := by decide
  columns := pricedResults_columns
  rankScores := by decide
  customRankScores := by decide
  sorted := by
    intro i j k hi hjk hk
    have hj := hjk.trans hk
    intro habove
    have hgreater :=
      (greaterThan_iff_above wholeFormat pricedResults_columns hi hk hi hj).mpr habove
    -- only the first result has two documents
    obtain rfl | rfl : i = 0 ∨ i = 1 := by
      simp only [pricedResults, length_cons, length_nil] at hi
      omega
    · have hk' : k < 2 := hk
      obtain rfl : j = 0 := by omega
      obtain rfl : k = 1 := by omega
      cases hgreater
    · have hk' : k < 1 := hk
      omega

theorem getDistSearchResult_merges_priced :
    let merged := getDistSearchResult wholeFormat newerByNumber
      (fun start num => start - start % toSize num) pricedResults (.new wholeFormat)
    merged.topKDocs = [7, 4] ∧ merged.topKWorkerIds = [1, 2] ∧
    (∃ ranked : List (ℕ × ℕ), ranked.Perm (allPlaces wholeFormat pricedResults) ∧
      (ranked.Pairwise fun p q => ¬ Above wholeFormat newerByNumber
        [("Price", false), ("Title", true)] pricedResults q p) ∧
      Aligned pricedResults ranked 2 merged) ∧
    merged.totalCount = 3 := by
  have hcounter : (.new wholeFormat : KeywordSearchResult ℤ ℤ String).counterResults = ∅ := rfl
  have h := getDistSearchResult_merges wholeFormat (fun start num => start - start % toSize num)
    newerByNumber_total (by decide) pricedResults_sorted hcounter rfl
  exact ⟨by decide, by decide, h.1, h.2.1⟩

end AdDelivery.DistSearch
