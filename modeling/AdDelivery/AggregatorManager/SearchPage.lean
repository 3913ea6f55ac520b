import AdDelivery.AggregatorManager.DistSearchResult

/-!
# The page of the master

The master cuts the merged lists off in front of the window and asks every worker for its own
documents of the page.
-/

namespace AdDelivery.DistSearch

open List SearchMerger

structure PageInfo where
  start : ℕ
  count : ℕ
deriving DecidableEq, Repr

def roundDown (n step : ℕ) : ℕ := n - n % step

/-- The window begins at zero when its size does not come from the configuration. -/
def PageInfo.topKStart (pageInfo : PageInfo) (topKNum : ℕ) (topKFromConfig : Bool) : ℕ :=
  if topKFromConfig then roundDown pageInfo.start topKNum else 0

namespace KeywordSearchResult

variable {F D S : Type} (item : KeywordSearchResult F D S)

/-- The size of the window, as an operand beside offsets. -/
def topKNum : ℕ := toSize item.TOP_K_NUM

def setStartCount (pageInfo : PageInfo) : KeywordSearchResult F D S :=
  { item with start := pageInfo.start, count := pageInfo.count }

/-- A page ends with the last document. -/
def adjustStartCount (topKStart : ℕ) : KeywordSearchResult F D S :=
  let topKEnd := topKStart + item.topKDocs.length
  let start := if item.start > topKEnd then topKEnd else item.start
  { item with
    start := start
    count := if start + item.count > topKEnd then topKEnd - start else item.count }

/-- Remove the first `topKStart` entries, of every list but the worker ids. -/
def eraseFront (topKStart : ℕ) : KeywordSearchResult F D S :=
  if topKStart > 0 then
    { item with
      topKDocs := item.topKDocs.drop (min topKStart item.topKDocs.length)
      topKRankScoreList :=
        item.topKRankScoreList.drop (min topKStart item.topKRankScoreList.length)
      topKCustomRankScoreList :=
        item.topKCustomRankScoreList.drop (min topKStart item.topKCustomRankScoreList.length)
      topKGeoDistanceList :=
        item.topKGeoDistanceList.drop (min topKStart item.topKGeoDistanceList.length) }
  else
    item

theorem adjustStartCount_start (topKStart : ℕ) : (item.adjustStartCount topKStart).start =
      min item.start (topKStart + item.topKDocs.length) := by
  simp only [adjustStartCount]
  split <;> omega

theorem adjustStartCount_count (topKStart : ℕ) : (item.adjustStartCount topKStart).count =
      min item.count (topKStart + item.topKDocs.length -
        (item.adjustStartCount topKStart).start) := by
  have hstart := adjustStartCount_start item topKStart
  simp only [adjustStartCount] at hstart ⊢
  rw [hstart]
  split <;> omega

end KeywordSearchResult

/-- The part of a page that is asked from one worker. -/
structure WorkerPage where
  docsInPage : List DocId := []
  pageOffsetList : List ℕ := []
  count : ℕ := 0
deriving DecidableEq

instance : Inhabited WorkerPage := ⟨{}⟩

def WorkerPage.push (page : WorkerPage) (docId : DocId) (offset : ℕ) : WorkerPage :=
  { docsInPage := page.docsInPage ++ [docId]
    pageOffsetList := page.pageOffsetList ++ [offset]
    count := page.count + 1 }

variable {F D S : Type} (totalResult : KeywordSearchResult F D S)

/-- The documents of the page, each with the worker that is asked for it. -/
def docsInPage : List WDocId :=
  if totalResult.topKNum = 0 then []
  else
    ((totalResult.topKWorkerIds.zip totalResult.topKDocs).drop
      (totalResult.start % totalResult.topKNum)).take totalResult.count

/-- Deal the documents of the page out to their workers. -/
def splitSearchResultByWorkerid : Table WorkerId WorkerPage :=
  (docsInPage totalResult).zipIdx.foldl (fun resultMap entry =>
    resultMap.update entry.1.1 fun page => page.push entry.1.2 entry.2) ∅

/-- Every worker is asked for its own documents of the page, in the order of the page. -/
theorem splitSearchResultByWorkerid_get (worker : WorkerId) :
    (splitSearchResultByWorkerid totalResult).get worker =
      ((docsInPage totalResult).zipIdx.filter fun entry => entry.1.1 = worker).foldl
        (fun page entry => page.push entry.1.2 entry.2) {} := by
  have hfold : ∀ (entries : List (WDocId × ℕ)) (resultMap : Table WorkerId WorkerPage),
      (entries.foldl (fun resultMap entry => resultMap.update entry.1.1 fun page =>
        page.push entry.1.2 entry.2) resultMap).get worker =
      (entries.filter fun entry => entry.1.1 = worker).foldl
        (fun page entry => page.push entry.1.2 entry.2) (resultMap.get worker) := by
    intro entries
    induction entries with
    | nil => exact fun _ => rfl
    | cons entry entries ih =>
      intro resultMap
      rw [List.foldl_cons, ih, Table.get_update]
      by_cases hw : entry.1.1 = worker
      · rw [List.filter_cons_of_pos (by simpa using hw), List.foldl_cons, if_pos hw.symm]
      · rw [List.filter_cons_of_neg (by simpa using hw), if_neg (Ne.symm hw)]
  rw [splitSearchResultByWorkerid, hfold, Table.get_empty]
  rfl

end AdDelivery.DistSearch
