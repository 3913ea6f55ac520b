import AdDelivery.AggregatorManager.SearchPage
import Mathlib.Data.List.Sort

/-!
# Pages of a distributed search

The documents that match on all workers have one ranking. A page of a distributed search should
show the documents of its own ranks, with the worker and the score of each. On the first window it
does so as long as the merger compares the heads of the answers as the ranking does, which it need
not for floats that are close together, or for doubles, which it reads as floats. On a later
window it does so only where no document is left to show.
-/

namespace AdDelivery.DistSearch

open List Prod KWayMerge SearchMerger KeywordSearchResult

variable {F D S : Type}

/-- A ranking of all documents, with the scores that are shown. -/
structure Ranking (F : Type) where
  Above : WDocId → WDocId → Prop
  total : IsStrictTotalOrder WDocId Above
  decidable : DecidableRel Above
  rankScore : WDocId → F

instance {F : Type} (R : Ranking F) : DecidableRel R.Above := R.decidable

instance {F : Type} (R : Ranking F) : IsStrictTotalOrder WDocId R.Above := R.total

/-- Every worker with its own matching documents, in the order of the ranking. -/
structure Matches (R : Ranking F) where
  workers : List (WorkerId × List DocId)
  distributed : 2 ≤ workers.length
  workers_nodup : (workers.map fst).Nodup
  sorted : ∀ w ∈ workers, (w.2.map (Prod.mk w.1)).Pairwise R.Above

namespace Matches

variable {R : Ranking F} (M : Matches R)

/-- The matching documents of worker number `i`. -/
def own (i : ℕ) : List DocId := (M.workers.getD i default).2

/-- The document at a place of a worker's list. -/
def element (p : ℕ × ℕ) : WDocId := ((M.workers.getD p.1 default).1, (M.own p.1).getD p.2 0)

/-- The places of all matching documents. -/
def allPlaces : List (ℕ × ℕ) :=
  places (fun i => (M.own i).length) (fun _ => 0) M.workers.length

/-- The places of all matching documents by rank. -/
def rankedPlaces : List (ℕ × ℕ) :=
  M.allPlaces.insertionSort fun p q => ¬ R.Above (M.element q) (M.element p)

/-- All matching documents by rank. -/
def ranked : List WDocId := M.rankedPlaces.map M.element

theorem own_mem {i : ℕ} (hi : i < M.workers.length) :
    ((M.workers.getD i default).1, M.own i) ∈ M.workers := by
  rw [own, getD_eq_getElem _ _ hi]
  exact getElem_mem hi

theorem own_sorted {i j k : ℕ} (hi : i < M.workers.length) (hjk : j < k)
    (hk : k < (M.own i).length) : R.Above (M.element (i, j)) (M.element (i, k)) := by
  have hj : j < (M.own i).length := hjk.trans hk
  have h := pairwise_iff_getElem.mp (M.sorted _ (M.own_mem hi)) j k
    (by rw [length_map]; exact hj) (by rw [length_map]; exact hk) hjk
  rw [getElem_map, getElem_map] at h
  rw [element, element, getD_eq_getElem _ _ hj, getD_eq_getElem _ _ hk]
  exact h

theorem element_inj {p q : ℕ × ℕ} (hp : p.1 < M.workers.length) (hp' : p.2 < (M.own p.1).length)
    (hq : q.1 < M.workers.length) (hq' : q.2 < (M.own q.1).length)
    (h : M.element p = M.element q) : p = q := by
  obtain ⟨i, j⟩ := p
  obtain ⟨i', j'⟩ := q
  have hworker := congrArg fst h
  simp only [element, getD_eq_getElem _ _ hp, getD_eq_getElem _ _ hq] at hworker
  have hi : i = i' := by
    have hfst : (M.workers.map fst)[i]? = (M.workers.map fst)[i']? := by
      rw [getElem?_map, getElem?_map, getElem?_eq_getElem hp,
        getElem?_eq_getElem hq, Option.map_some, Option.map_some, hworker]
    exact (getElem?_inj (by rwa [length_map]) M.workers_nodup).mp hfst
  subst hi
  rcases lt_trichotomy j j' with hlt | rfl | hlt
  · exact absurd (h ▸ M.own_sorted hp hlt hq') (irrefl _)
  · rfl
  · exact absurd (h ▸ M.own_sorted hp hlt hp') (irrefl _)

theorem rankedPlaces_perm : M.rankedPlaces.Perm M.allPlaces := perm_insertionSort _ _

/-- A ranked place is one of a worker's list. -/
theorem place_of_mem {p : ℕ × ℕ} (h : p ∈ M.rankedPlaces) :
    p.1 < M.workers.length ∧ p.2 < (M.own p.1).length := by
  have hplace := mem_places.mp (M.rankedPlaces_perm.mem_iff.mp h)
  exact ⟨hplace.1, hplace.2.2⟩

theorem rankedPlaces_nodup : M.rankedPlaces.Nodup :=
  M.rankedPlaces_perm.nodup_iff.mpr (nodup_places ..)

theorem rankedPlaces_sorted :
    M.rankedPlaces.Pairwise fun p q => R.Above (M.element p) (M.element q) := by
  have : Std.Total fun p q : ℕ × ℕ => ¬ R.Above (M.element q) (M.element p) :=
    ⟨fun p q => by
      by_contra h
      obtain ⟨hqp, hpq⟩ := not_or.mp h
      exact asymm (not_not.mp hqp) (not_not.mp hpq)⟩
  have : IsTrans (ℕ × ℕ) fun p q => ¬ R.Above (M.element q) (M.element p) :=
    ⟨fun p q s hpq hqs hsp => by
      rcases trichotomous_of R.Above (M.element p) (M.element q) with h | h | h
      · exact hqs (IsTrans.trans _ _ _ hsp h)
      · exact hqs (h ▸ hsp)
      · exact hpq h⟩
  have hle : M.rankedPlaces.Pairwise fun p q => ¬ R.Above (M.element q) (M.element p) :=
    pairwise_insertionSort _ _
  refine (hle.and M.rankedPlaces_nodup).imp_of_mem ?_
  rintro p q hp hq ⟨hqp, hne⟩
  obtain ⟨hp1, hp2⟩ := M.place_of_mem hp
  obtain ⟨hq1, hq2⟩ := M.place_of_mem hq
  rcases trichotomous_of R.Above (M.element p) (M.element q) with h | h | h
  · exact h
  · exact absurd (M.element_inj hp1 hp2 hq1 hq2 h) hne
  · exact absurd h hqp

/-- Each worker's documents come in their own order. -/
theorem rankedPlaces_interleaved : Interleaved (fun _ => 0) M.rankedPlaces :=
  interleaved_of_pairwise (r := fun p q => R.Above (M.element p) (M.element q))
    (fun _ _ h => asymm h) (fun _ _ _ hi hjk hk => M.own_sorted hi hjk hk) M.rankedPlaces_perm
    M.rankedPlaces_sorted

/-- A list of places is known from its documents. -/
theorem map_element_inj {ps qs : List (ℕ × ℕ)}
    (hps : ∀ p ∈ ps, p.1 < M.workers.length ∧ p.2 < (M.own p.1).length)
    (hqs : ∀ q ∈ qs, q.1 < M.workers.length ∧ q.2 < (M.own q.1).length) :
    ps.map M.element = qs.map M.element ↔ ps = qs := by
  refine ⟨fun hmap => ?_, congrArg _⟩
  have hlength := congrArg length hmap
  rw [length_map, length_map] at hlength
  refine ext_getElem hlength fun i hi hi' => ?_
  have hget := getElem_of_eq hmap (show i < (ps.map M.element).length by rwa [length_map])
  rw [getElem_map, getElem_map] at hget
  obtain ⟨hp, hp'⟩ := hps _ (getElem_mem hi)
  obtain ⟨hq, hq'⟩ := hqs _ (getElem_mem hi')
  exact M.element_inj hp hp' hq hq' hget

theorem length_ranked : M.ranked.length = (M.workers.map fun w => w.2.length).sum := by
  have hown : (range M.workers.length).map (fun i => (M.own i).length) =
      M.workers.map fun w => w.2.length := by
    refine ext_getElem (by simp) fun i hi hi' => ?_
    have hlt : i < M.workers.length := by simpa using hi
    rw [getElem_map, getElem_range, getElem_map, own, getD_eq_getElem _ _ hlt]
  rw [ranked, length_map, M.rankedPlaces_perm.length_eq, allPlaces, places, length_flatMap, ← hown]
  simp

end Matches

open Matches

/-- The documents a worker returns: its first ones, as many as a window and all in front of the
page. -/
def returned (topKNum : ℕ) (page : PageInfo) (w : WorkerId × List DocId) : List WDocId :=
  (w.2.take (topKNum + page.start)).map (Prod.mk w.1)

/-- A worker's answer, with any data to sort by. The page is the one of the request, which is sent
with the result to be filled in. Only suffix search counts major tokens, and its windows begin at
zero. -/
structure Answers (R : Ranking F) (topKNum : Int32) (page : PageInfo) (w : WorkerId × List DocId)
    (answer : WorkerId × KeywordSearchResult F D S) : Prop where
  worker : answer.1 = w.1
  error : answer.2.error = ""
  start : answer.2.start = page.start
  count : answer.2.count = page.count
  TOP_K_NUM : answer.2.TOP_K_NUM = topKNum
  majorTokenNum : answer.2.distSearchInfo.majorTokenNum = 0
  topKDocs : answer.2.topKDocs = (returned (toSize topKNum) page w).map snd
  topKRankScoreList :
    answer.2.topKRankScoreList = (returned (toSize topKNum) page w).map R.rankScore

variable (format : FloatFormat F D) [LinearOrder S] [Inhabited S]
  (isNewerDocId : WDocId → WDocId → Bool)

/-- A search over all workers that the cache does not know, up to the request for the documents
of the page. `workerResults` is what the workers answer. -/
def getSearchResult (topKNum : Int32) (topKFromConfig : Bool) (pageInfo : PageInfo)
    (workerResults : WorkerResults F D S) : KeywordSearchResult F D S :=
  let topKStart := pageInfo.topKStart (toSize topKNum) topKFromConfig
  let distResultItem := setStartCount (.new format) pageInfo
  let distResultItem := getDistSearchResult format isNewerDocId
    (fun start topKNum => roundDown start (toSize topKNum)) workerResults distResultItem
  (distResultItem.eraseFront topKStart).adjustStartCount topKStart

section Spec

variable {R : Ranking F} (M : Matches R) (topKNum : ℕ) (page : PageInfo)
  (r : KeywordSearchResult F D S)

/-- A page of the documents of its own ranks. -/
structure PageRight : Prop where
  /-- From its place in the window on, the documents of its own ranks. -/
  window : ((r.topKWorkerIds.zip r.topKDocs).drop (page.start % topKNum)).take page.count =
    (M.ranked.drop page.start).take (min page.count (topKNum - page.start % topKNum))
  /-- These are the documents that the workers are asked for. -/
  shown : docsInPage r =
    (M.ranked.drop page.start).take (min page.count (topKNum - page.start % topKNum))
  /-- The lists agree on the document at each place. -/
  aligned : ∃ docs : List WDocId, r.topKDocs = docs.map Prod.snd ∧
    r.topKWorkerIds = docs.map fst ∧ r.topKRankScoreList = docs.map R.rankScore
  /-- A later window is not empty while documents are left. -/
  later : topKNum ≤ page.start → page.start < M.ranked.length → 0 < page.count →
    docsInPage r ≠ []

/-- In front of the page stand the documents of the ranks of the window. -/
def FrontRight : Prop :=
  (r.topKWorkerIds.zip r.topKDocs).take (page.start % topKNum) =
    (M.ranked.drop (roundDown page.start topKNum)).take (page.start % topKNum)

variable (results : WorkerResults F D S)

/-- The comparison of two heads. -/
def headGreater (p q : ℕ × ℕ) : Bool :=
  greaterThan format isNewerDocId p.2 (wdocId format results p) q.2 (wdocId format results q)
    (documentComparator format (result format results p.1))
    (documentComparator format (result format results q.1))

/-- The heads of all workers when the documents of the first `k` ranks are gone. -/
def headsAt (k : ℕ) : ℕ → ℕ := cursors (fun _ => 0) (M.rankedPlaces.take k)

/-- Among these heads, the scan keeps the document of rank `k`. -/
def KeepsRanked (k : ℕ) : Prop :=
  ∀ p, M.rankedPlaces[k]? = some p →
    bestAt (fun i => (M.own i).length) (headGreater format isNewerDocId results) M.workers.length
      (headsAt M k) = some p.1

end Spec

theorem le_roundDown {start topKNum : ℕ} (hpos : 0 < topKNum) (h : topKNum ≤ start) :
    topKNum ≤ roundDown start topKNum := by
  have hdiv := Nat.div_add_mod start topKNum
  have hone : 1 ≤ start / topKNum := (Nat.one_le_div_iff hpos).mpr h
  have hmul : topKNum * 1 ≤ topKNum * (start / topKNum) := Nat.mul_le_mul_left _ hone
  rw [roundDown]
  omega

theorem roundDown_of_lt {start topKNum : ℕ} (h : start < topKNum) :
    roundDown start topKNum = 0 := by
  rw [roundDown, Nat.mod_eq_of_lt h, Nat.sub_self]

section Answered

variable (format : FloatFormat F D) (isNewerDocId : WDocId → WDocId → Bool) {R : Ranking F}
  {M : Matches R} {topKNum : Int32} {page : PageInfo} {results : WorkerResults F D S}

/-- The number of documents all workers return. -/
def returnedCount (M : Matches R) (topKNum : ℕ) (page : PageInfo) : ℕ :=
  (M.workers.map fun w => min w.2.length (topKNum + page.start)).sum

theorem min_sum_min (workers : List (WorkerId × List DocId)) {count limit : ℕ} (h : count ≤ limit) :
    min count (workers.map fun w => min w.2.length limit).sum =
      min count (workers.map fun w => w.2.length).sum := by
  induction workers with
  | nil => rfl
  | cons w workers ih =>
    simp only [map_cons, sum_cons]
    omega

/-- The workers return enough for everything up to the end of a window behind the page. -/
theorem min_returnedCount (M : Matches R) (topKNum : ℕ) (page : PageInfo) {count : ℕ}
    (h : count ≤ topKNum + page.start) :
    min count (returnedCount M topKNum page) = min count M.ranked.length := by
  rw [M.length_ranked, returnedCount, min_sum_min M.workers h]

section

variable (h : List.Forall₂ (Answers R topKNum page) M.workers results)
include h

omit [LinearOrder S] [Inhabited S] in
/-- Every worker has its answer. -/
theorem exists_answer {i : ℕ} (hi : i < M.workers.length) :
    ∃ w, results[i]? = some w ∧ Answers R topKNum page (M.workers.getD i default) w := by
  have hi' : i < results.length := h.length_eq ▸ hi
  rw [getD_eq_getElem _ _ hi]
  exact ⟨results[i], getElem?_eq_getElem hi', h.get hi hi'⟩

omit [LinearOrder S] [Inhabited S] in
/-- Every answer is that of a worker. -/
theorem answers_of_mem {w : WorkerId × KeywordSearchResult F D S} (hw : w ∈ results) :
    ∃ w₀, Answers R topKNum page w₀ w := by
  obtain ⟨i, hi, rfl⟩ := getElem_of_mem hw
  obtain ⟨w, hget, ha⟩ := exists_answer h (i := i) (h.length_eq ▸ hi)
  obtain rfl := Option.some.inj ((getElem?_eq_getElem hi).symm.trans hget)
  exact ⟨_, ha⟩

omit [LinearOrder S] [Inhabited S] in
/-- The number of documents a worker returns, none when there is no such worker. -/
theorem length_topKDocs (i : ℕ) : (result format results i).topKDocs.length =
    min (M.own i).length (toSize topKNum + page.start) := by
  rcases Nat.lt_or_ge i M.workers.length with hi | hi
  · obtain ⟨w, hget, ha⟩ := exists_answer h hi
    rw [result_eq format hget, ha.topKDocs, returned, length_map, length_map, length_take, min_comm]
    rfl
  · rw [result, getElem?_eq_none (h.length_eq ▸ hi), own, getD_eq_default _ _ hi]
    exact (Nat.zero_min _).symm

omit [LinearOrder S] [Inhabited S] in
theorem sum_topKDocs : (results.map fun w => w.2.topKDocs.length).sum =
    returnedCount M (toSize topKNum) page := by
  have hmap : M.workers.map (fun w => min w.2.length (toSize topKNum + page.start)) =
      results.map fun w => w.2.topKDocs.length := by
    rw [← forall₂_eq_eq_eq, forall₂_map_left_iff, forall₂_map_right_iff]
    refine h.imp fun w answer ha => ?_
    rw [ha.topKDocs, returned, length_map, length_map, length_take, min_comm]
  rw [returnedCount, hmap]

omit [LinearOrder S] [Inhabited S] in
/-- What stands at a place of a worker's answer. -/
theorem read_answer {p : ℕ × ℕ} (hp : p.1 < M.workers.length)
    (hp' : p.2 < min (M.own p.1).length (toSize topKNum + page.start)) :
    workerId results p.1 = (M.element p).1 ∧
      (result format results p.1).topKDocs.getD p.2 0 = (M.element p).2 ∧
      (result format results p.1).topKRankScoreList.getD p.2 format.zero =
        R.rankScore (M.element p) := by
  obtain ⟨w, hget, ha⟩ := exists_answer h hp
  have hreturned : (returned (toSize topKNum) page (M.workers.getD p.1 default))[p.2]? =
      some (M.element p) := by
    have hlt : p.2 < (M.own p.1).length := by omega
    rw [own] at hlt
    rw [returned, getElem?_map, getElem?_take_of_lt (by omega), getElem?_eq_getElem hlt,
      element, own, getD_eq_getElem _ _ hlt]
    rfl
  rw [workerId_eq hget, result_eq format hget, ha.topKDocs, ha.topKRankScoreList]
  refine ⟨ha.worker, ?docs, ?scores⟩
  case docs =>
    rw [getD_eq_getElem?_getD, getElem?_map, hreturned]
    rfl
  case scores =>
    rw [getD_eq_getElem?_getD, getElem?_map, hreturned]
    rfl

/-- The merger never comes to the end of a list that a worker has cut off. -/
theorem pageOffsetInWorker_eq {count : ℕ} (hcount : count ≤ toSize topKNum + page.start) :
    pageOffsetInWorker format isNewerDocId results count =
      merge (fun i => (M.own i).length) (headGreater format isNewerDocId results)
        M.workers.length count fun _ => 0 := by
  have hlimit : ∀ i, (fun _ : ℕ => 0) i + count ≤ toSize topKNum + page.start := by
    simpa using hcount
  rw [← merge_min (fun p q _ _ _ _ => rfl) hlimit, h.length_eq]
  simp only [← length_topKDocs format h]
  rfl

/-- The documents of the merger are read at the places it has chosen. -/
theorem read_offset {count : ℕ} {p : ℕ × ℕ}
    (hp : p ∈ pageOffsetInWorker format isNewerDocId results count) :
    workerId results p.1 = (M.element p).1 ∧
      (result format results p.1).topKDocs.getD p.2 0 = (M.element p).2 ∧
      (result format results p.1).topKRankScoreList.getD p.2 format.zero =
        R.rankScore (M.element p) := by
  obtain ⟨hp1, hp2⟩ := mem_merge hp
  rw [← h.length_eq] at hp1
  exact read_answer format h hp1 (length_topKDocs format h p.1 ▸ hp2)

omit [LinearOrder S] [Inhabited S] in
/-- The length of the merged lists: what is left behind the beginning of the window, and at most a
window. -/
theorem topKCount_eq :
    topKCount (fun start topKNum => roundDown start (toSize topKNum)) results page.start topKNum =
      min (toSize topKNum) (returnedCount M (toSize topKNum) page -
        roundDown page.start (toSize topKNum)) := by
  rw [topKCount, sum_topKDocs h]
  split <;> omega

end

/-- The documents that are merged. -/
def mergedDocs (M : Matches R) (results : WorkerResults F D S) (count : ℕ) : List WDocId :=
  (pageOffsetInWorker format isNewerDocId results count).map M.element

variable {count : ℕ}

section

variable (h : List.Forall₂ (Answers R topKNum page) M.workers results)
include h

/-- As many documents are merged as are asked for, when the workers return so many. -/
theorem length_mergedDocs (hcount : count ≤ returnedCount M (toSize topKNum) page) :
    (mergedDocs format isNewerDocId M results count).length = count := by
  rw [mergedDocs, length_map, length_pageOffsetInWorker]
  rwa [length_allPlaces, sum_topKDocs h]

/-- The merged lists belong to the merged documents. -/
theorem mergeTopK_lists (mergeResult : KeywordSearchResult F D S)
    (hnum : mergeResult.TOP_K_NUM = topKNum) (hstart : mergeResult.start = page.start)
    (hcount : count = topKCount (fun start topKNum => roundDown start (toSize topKNum)) results
      page.start topKNum) {docs : List WDocId}
    (hdocs : docs = mergedDocs format isNewerDocId M results count) :
    let merged := mergeTopK format isNewerDocId
      (fun start topKNum => roundDown start (toSize topKNum)) results mergeResult
    merged.topKDocs = docs.map snd ∧ merged.topKWorkerIds = docs.map fst ∧
      merged.topKRankScoreList = docs.map R.rankScore := by
  have hlength : (pageOffsetInWorker format isNewerDocId results count).length = count := by
    refine length_pageOffsetInWorker format results ?_
    rw [hcount]
    exact topKCount_le format _ _ _ _
  simp only [mergeTopK, hnum, hstart, ← hcount]
  rw [hdocs, mergedDocs, List.map_map, List.map_map, List.map_map]
  refine ⟨?docs, ?workers, ?scores⟩
  case docs =>
    rw [assign_map_some _ (by rw [hlength, length_resize])]
    exact map_congr_left fun p hp => (read_offset format isNewerDocId h hp).2.1
  case workers =>
    rw [assign_map_some _ (by rw [hlength, length_resize])]
    exact map_congr_left fun p hp => (read_offset format isNewerDocId h hp).1
  case scores =>
    rw [assign_map_some _ (by rw [hlength, length_resize])]
    exact map_congr_left fun p hp => (read_offset format isNewerDocId h hp).2.2

/-- Without errors the answers are merged. -/
theorem getDistSearchResult_eq (roundDown : ℕ → Int32 → ℕ)
    (mergeResult : KeywordSearchResult F D S) :
    getDistSearchResult format isNewerDocId roundDown results mergeResult =
      mergeTopK format isNewerDocId roundDown results { mergeResult with
        start := page.start
        count := page.count
        totalCount := 0
        TOP_K_NUM := topKNum } := by
  have hlen : 2 ≤ results.length := h.length_eq ▸ M.distributed
  have hnone : (results.find? fun w => decide (w.2.error ≠ "")) = none := by
    rw [find?_eq_none]
    intro w hw
    obtain ⟨_, ha⟩ := answers_of_mem h hw
    simp [ha.error]
  have hkeep : keepLargestTokenNum format results = results := by
    refine keepLargestTokenNum_eq format fun w hw w' hw' => ?_
    obtain ⟨_, ha⟩ := answers_of_mem h hw
    obtain ⟨_, ha'⟩ := answers_of_mem h hw'
    rw [ha.majorTokenNum, ha'.majorTokenNum]
  obtain ⟨w, hget, ha⟩ := exists_answer h (i := 0) (Nat.lt_of_lt_of_le Nat.two_pos M.distributed)
  rw [getDistSearchResult, if_neg (by omega), hnone, hkeep]
  simp only [if_neg (show results.length ≠ 1 by omega), result_eq format hget, setBasicInfo,
    ha.start, ha.count, ha.TOP_K_NUM]

variable {r : KeywordSearchResult F D S}

/-- The lists of the master's result. The worker ids keep what stands in front of the window. -/
theorem getSearchResult_lists
    (hcount : count = topKCount (fun start topKNum => roundDown start (toSize topKNum)) results
      page.start topKNum) {docs : List WDocId}
    (hdocs : docs = mergedDocs format isNewerDocId M results count)
    (hr : r = getSearchResult format isNewerDocId topKNum true page results) :
    let topKStart := roundDown page.start (toSize topKNum)
    r.topKDocs = (docs.drop topKStart).map snd ∧ r.topKWorkerIds = docs.map fst ∧
      r.topKRankScoreList = (docs.drop topKStart).map R.rankScore := by
  have hdrop : ∀ {α : Type} (xs : List α) (n : ℕ), xs.drop (min n xs.length) = xs.drop n := by
    intro α xs n
    rw [drop_eq_drop_iff]
    omega
  rw [hr, getSearchResult, getDistSearchResult_eq format isNewerDocId h]
  obtain ⟨hd, hw, hs⟩ := mergeTopK_lists format isNewerDocId h
    { setStartCount (.new format) page with
      start := page.start, count := page.count, totalCount := 0, TOP_K_NUM := topKNum }
    rfl rfl hcount hdocs
  simp only [adjustStartCount, eraseFront, PageInfo.topKStart, if_true]
  split
  · simp only [hdrop, hd, hw, hs, map_drop]
    trivial
  · have hzero : roundDown page.start (toSize topKNum) = 0 := by omega
    simp only [hd, hw, hs, hzero, drop_zero]
    trivial

/-- The page of the master's result ends with its last document. -/
theorem getSearchResult_page
    (hr : r = getSearchResult format isNewerDocId topKNum true page results) :
    let topKStart := roundDown page.start (toSize topKNum)
    r.topKNum = toSize topKNum ∧ r.start = min page.start (topKStart + r.topKDocs.length) ∧
      r.count = min page.count (topKStart + r.topKDocs.length - r.start) := by
  rw [hr, getSearchResult, getDistSearchResult_eq format isNewerDocId h, adjustStartCount_count, adjustStartCount_start]
  simp only [eraseFront, PageInfo.topKStart, if_true]
  split <;> exact ⟨rfl, rfl, rfl⟩

/-- The merged documents begin like the ranking when every scan up to there keeps the next one. -/
theorem mergedDocs_take_iff {m : ℕ} (hm : m ≤ count) (hcount : count ≤ toSize topKNum + page.start)
    (hranked : m ≤ M.ranked.length) :
    (mergedDocs format isNewerDocId M results count).take m = M.ranked.take m ↔
      ∀ k, k < m → KeepsRanked format isNewerDocId M results k := by
  have hmerged : (mergedDocs format isNewerDocId M results count).take m =
      (merge (fun i => (M.own i).length) (headGreater format isNewerDocId results)
        M.workers.length m fun _ => 0).map M.element := by
    rw [mergedDocs, ← map_take, pageOffsetInWorker_eq format isNewerDocId h hcount,
      merge_take _ _ _ _ hm]
  have hlength : m ≤ M.rankedPlaces.length := by rwa [ranked, length_map] at hranked
  rw [hmerged, ranked, ← map_take, M.map_element_inj (fun p hp => mem_merge hp)
    (fun p hp => M.place_of_mem (mem_of_mem_take hp)),
    merge_eq_take_iff M.rankedPlaces_interleaved hlength]
  exact ⟨fun hall k hk p hp => hall k p hk hp, fun hall k p hk hp => hall k hk p hp⟩

section First

variable (hfirst : page.start < toSize topKNum)
include hfirst

/-- On the first window the merged list is the window. -/
theorem first_lists (hr : r = getSearchResult format isNewerDocId topKNum true page results)
    {docs : List WDocId} (hdocs : docs = mergedDocs format isNewerDocId M results
      (min (toSize topKNum) M.ranked.length)) :
    r.topKDocs = docs.map snd ∧ r.topKWorkerIds = docs.map fst ∧
      r.topKRankScoreList = docs.map R.rankScore ∧
      docs.length = min (toSize topKNum) M.ranked.length := by
  have hmin : min (toSize topKNum) (returnedCount M (toSize topKNum) page) =
      min (toSize topKNum) M.ranked.length :=
    min_returnedCount M (toSize topKNum) page (Nat.le_add_right _ _)
  have hcount : min (toSize topKNum) M.ranked.length =
      topKCount (fun start topKNum => roundDown start (toSize topKNum)) results page.start
        topKNum := by
    rw [topKCount_eq h, roundDown_of_lt hfirst, Nat.sub_zero, hmin]
  obtain ⟨hd, hw, hs⟩ := getSearchResult_lists format isNewerDocId h hcount hdocs hr
  rw [roundDown_of_lt hfirst, drop_zero] at hd hs
  refine ⟨hd, hw, hs, ?_⟩
  rw [hdocs, length_mergedDocs format isNewerDocId h (by omega)]

/-- A page of the first window is right when it shows the documents of its ranks. -/
theorem pageRight_first_iff {docs : List WDocId} (hdocs : docs =
      mergedDocs format isNewerDocId M results (min (toSize topKNum) M.ranked.length)) :
    PageRight M (toSize topKNum) page
        (getSearchResult format isNewerDocId topKNum true page results) ↔
      (docs.drop page.start).take page.count =
        (M.ranked.drop page.start).take (min page.count (toSize topKNum - page.start)) := by
  generalize hr : getSearchResult format isNewerDocId topKNum true page results = r
  obtain ⟨hd, hw, hs, hlen⟩ := first_lists format isNewerDocId h hfirst hr.symm hdocs
  obtain ⟨hnum, hstart, hcount⟩ := getSearchResult_page format isNewerDocId h hr.symm
  simp only [roundDown_of_lt hfirst, Nat.zero_add] at hstart hcount
  have hmod : page.start % toSize topKNum = page.start := Nat.mod_eq_of_lt hfirst
  have hzip : r.topKWorkerIds.zip r.topKDocs = docs := by
    rw [hd, hw]
    exact (zip_of_prod rfl rfl).symm
  have hshown : docsInPage r = (docs.drop page.start).take page.count := by
    have hlength : r.topKDocs.length = docs.length := by rw [hd, length_map]
    rw [docsInPage, if_neg (by omega), hzip, hnum]
    rcases Nat.le_total page.start docs.length with hle | hle
    · rw [hstart, hlength, Nat.min_eq_left hle, hmod, take_eq_take_iff, length_drop, hcount]
      omega
    · -- the page begins behind the last document
      rw [hstart, hlength, Nat.mod_eq_of_lt (by omega), drop_eq_nil_of_le (by omega),
        drop_eq_nil_of_le (by omega), take_nil, take_nil]
  constructor
  · intro hright
    have hwindow := hright.window
    rwa [hzip, hmod] at hwindow
  · intro hwindow
    refine ⟨?window, ?shown, ⟨docs, hd, hw, hs⟩, fun hle => absurd hfirst hle.not_gt⟩
    case window => rw [hzip, hmod, hwindow]
    case shown => rw [hshown, hmod, hwindow]

/-- On the first window the list in front of the page begins like the ranking. -/
theorem frontRight_first_iff {docs : List WDocId} (hdocs : docs =
      mergedDocs format isNewerDocId M results (min (toSize topKNum) M.ranked.length)) :
    FrontRight M (toSize topKNum) page
        (getSearchResult format isNewerDocId topKNum true page results) ↔
      docs.take page.start = M.ranked.take page.start := by
  generalize hr : getSearchResult format isNewerDocId topKNum true page results = r
  obtain ⟨hd, hw, -, -⟩ := first_lists format isNewerDocId h hfirst hr.symm hdocs
  have hzip : r.topKWorkerIds.zip r.topKDocs = docs := by
    rw [hd, hw]
    exact (zip_of_prod rfl rfl).symm
  rw [FrontRight, hzip, Nat.mod_eq_of_lt hfirst, roundDown_of_lt hfirst, drop_zero]

/-- A page of the first window and what is in front of it are right exactly when every scan up to
the end of the page keeps the next document of the ranking. -/
theorem first_iff : PageRight M (toSize topKNum) page
        (getSearchResult format isNewerDocId topKNum true page results) ∧
      FrontRight M (toSize topKNum) page
        (getSearchResult format isNewerDocId topKNum true page results) ↔
      ∀ k, k < min (page.start + page.count) (toSize topKNum) →
        KeepsRanked format isNewerDocId M results k := by
  generalize hdocs : mergedDocs format isNewerDocId M results
    (min (toSize topKNum) M.ranked.length) = docs
  obtain ⟨-, -, -, hlen⟩ := first_lists format isNewerDocId h hfirst rfl hdocs.symm
  rw [pageRight_first_iff format isNewerDocId h hfirst hdocs.symm,
    frontRight_first_iff format isNewerDocId h hfirst hdocs.symm]
  generalize hend : min (page.start + page.count) (toSize topKNum) = pageEnd
  -- both parts of the window together are its front up to the end of the page
  have hjoin : (docs.drop page.start).take page.count =
        (M.ranked.drop page.start).take (min page.count (toSize topKNum - page.start)) ∧
      docs.take page.start = M.ranked.take page.start ↔
      docs.take pageEnd = M.ranked.take pageEnd := by
    have hcut : pageEnd = page.start + min page.count (toSize topKNum - page.start) := by omega
    have hdocsTake : (docs.drop page.start).take page.count =
        (docs.drop page.start).take (min page.count (toSize topKNum - page.start)) := by
      rw [take_eq_take_iff, length_drop]
      omega
    rw [hdocsTake, hcut, take_add, take_add, and_comm]
    refine ⟨fun ⟨hfront, hpage⟩ => by rw [hfront, hpage], fun happend => ?_⟩
    refine append_inj happend ?_
    rw [length_take, length_take]
    omega
  have hshort : ∀ l : List WDocId, l.length ≤ M.ranked.length →
      l.take pageEnd = l.take (min pageEnd M.ranked.length) := by
    intro l hl
    rw [take_eq_take_iff]
    omega
  rw [hjoin, hshort docs (by omega), hshort M.ranked (Nat.le_refl _), ← hdocs,
    mergedDocs_take_iff format isNewerDocId h (by omega) (by omega) (by omega)]
  constructor
  · intro hkeeps k hk p hp
    have hlt := (List.getElem?_eq_some_iff.mp hp).1
    have hranked : M.rankedPlaces.length = M.ranked.length := by rw [ranked, length_map]
    exact hkeeps k (by omega) p hp
  · exact fun hkeeps k hk => hkeeps k (by omega)

end First

/-- Behind the last document there is nothing to merge. -/
theorem pageRight_behind (hpos : 0 < toSize topKNum)
    (hbehind : M.ranked.length ≤ roundDown page.start (toSize topKNum)) :
    PageRight M (toSize topKNum) page
        (getSearchResult format isNewerDocId topKNum true page results) ∧
      FrontRight M (toSize topKNum) page
        (getSearchResult format isNewerDocId topKNum true page results) := by
  generalize hr : getSearchResult format isNewerDocId topKNum true page results = r
  have hstart : roundDown page.start (toSize topKNum) ≤ page.start := Nat.sub_le _ _
  have hmin := min_returnedCount M (toSize topKNum) page (Nat.le_refl _)
  have hcount : 0 = topKCount (fun start topKNum => roundDown start (toSize topKNum)) results
      page.start topKNum := by
    rw [topKCount_eq h]
    omega
  obtain ⟨hd, hw, hs⟩ := getSearchResult_lists format isNewerDocId h hcount rfl hr.symm
  have hnil : mergedDocs format isNewerDocId M results 0 = [] := rfl
  simp only [hnil, drop_nil, map_nil] at hd hw hs
  have hranked : M.ranked.drop page.start = [] := drop_eq_nil_of_le (hbehind.trans hstart)
  refine ⟨⟨?window, ?shown, ⟨[], hd, hw, hs⟩, ?later⟩, ?front⟩
  case window => simp [hw, hranked]
  case shown => simp [docsInPage, hw, hranked]
  case later =>
    intro _ hlt
    exact absurd (hbehind.trans hstart) hlt.not_ge
  case front =>
    rw [FrontRight, hw, drop_eq_nil_of_le hbehind]
    simp

/-- A later window is cut off with everything in front of it, while the worker ids stay. -/
theorem not_pageRight_later (hpos : 0 < toSize topKNum) (hlater : toSize topKNum ≤ page.start)
    (hleft : roundDown page.start (toSize topKNum) < M.ranked.length) :
    ¬ PageRight M (toSize topKNum) page
      (getSearchResult format isNewerDocId topKNum true page results) := by
  generalize hr : getSearchResult format isNewerDocId topKNum true page results = r
  intro hright
  obtain ⟨hd, hw, -⟩ := getSearchResult_lists format isNewerDocId h rfl rfl hr.symm
  obtain ⟨docs, hd', hw', -⟩ := hright.aligned
  have hfull := le_roundDown hpos hlater
  have hle : roundDown page.start (toSize topKNum) + 1 ≤ toSize topKNum + page.start := by
    rw [roundDown]
    omega
  have hreturned := min_returnedCount M (toSize topKNum) page hle
  have hcount := topKCount_eq h
  have hlength := length_mergedDocs format isNewerDocId h (Nat.le_trans
    (hcount.trans_le (Nat.min_le_right _ _)) (Nat.sub_le _ _))
  have hlen := congrArg length (hd'.symm.trans hd)
  have hlen' := congrArg length (hw'.symm.trans hw)
  simp only [length_map, length_drop] at hlen hlen'
  omega

end

/-- A page of a distributed search shows the documents of its ranks, behind those in front of it
in its window, exactly where no document is ranked behind the beginning of the window, or on the
first window where the merger tells the heads of the answers apart as the ranking does. Other
windows are never right. -/
theorem pageRight_iff (h : List.Forall₂ (Answers R topKNum page) M.workers results)
    (hpos : 0 < toSize topKNum) :
    let r := getSearchResult format isNewerDocId topKNum true page results
    (PageRight M (toSize topKNum) page r ∧ FrontRight M (toSize topKNum) page r ↔
      M.ranked.length ≤ roundDown page.start (toSize topKNum) ∨
        page.start < toSize topKNum ∧ ∀ k, k < min (page.start + page.count) (toSize topKNum) →
          KeepsRanked format isNewerDocId M results k) ∧
    (PageRight M (toSize topKNum) page r →
      M.ranked.length ≤ roundDown page.start (toSize topKNum) ∨
        page.start < toSize topKNum) := by
  have hwindow : PageRight M (toSize topKNum) page
        (getSearchResult format isNewerDocId topKNum true page results) →
      M.ranked.length ≤ roundDown page.start (toSize topKNum) ∨ page.start < toSize topKNum := by
    intro hright
    by_contra hnot
    exact not_pageRight_later format isNewerDocId h hpos (by omega) (by omega) hright
  refine ⟨⟨fun hright => ?_, ?_⟩, hwindow⟩
  · rcases hwindow hright.1 with hbehind | hfirst
    · exact .inl hbehind
    · exact .inr ⟨hfirst, (first_iff format isNewerDocId h hfirst).mp hright⟩
  · rintro (hbehind | ⟨hfirst, hkeeps⟩)
    · exact pageRight_behind format isNewerDocId h hpos hbehind
    · exact (first_iff format isNewerDocId h hfirst).mpr hkeeps

/-- The head of a list whose cursor stands at it, when the documents of the first `k` ranks are
gone, has a rank from `k` on. -/
theorem exists_rank_of_head {k i : ℕ} (hi : i < M.workers.length)
    (hsize : headsAt M k i < (M.own i).length) :
    ∃ k', k ≤ k' ∧ M.rankedPlaces[k']? = some (i, headsAt M k i) := by
  have hmem : (i, headsAt M k i) ∈ M.rankedPlaces :=
    M.rankedPlaces_perm.mem_iff.mpr (mem_places.mpr ⟨hi, Nat.zero_le _, hsize⟩)
  obtain ⟨k', hget⟩ := getElem?_of_mem hmem
  refine ⟨k', ?_, hget⟩
  by_contra hlt
  have hle : k' + 1 ≤ k := Nat.lt_of_not_le hlt
  have hplace : headsAt M k i = headsAt M k' i := M.rankedPlaces_interleaved k' _ hget
  -- the place itself is gone by then
  have hgone : headsAt M (k' + 1) i = headsAt M k' i + 1 := by
    simp [headsAt, cursors, take_add_one, hget]
  have hsublist : (M.rankedPlaces.take (k' + 1)).Sublist (M.rankedPlaces.take k) :=
    (take_prefix_take_left hle).sublist
  have hmono : headsAt M (k' + 1) i ≤ headsAt M k i :=
    Nat.add_le_add_left (hsublist.countP_le) _
  omega

/-- The scan keeps the document of a rank when that is greater than all other heads. -/
theorem keepsRanked_of_greater {k : ℕ} (hgreater : ∀ p k' q, M.rankedPlaces[k]? = some p →
      M.rankedPlaces[k']? = some q → k < k' → p.1 ≠ q.1 → q.2 = headsAt M k q.1 →
      headGreater format isNewerDocId results p q = true ∧
        headGreater format isNewerDocId results q p = false) :
    KeepsRanked format isNewerDocId M results k := by
  intro p hp
  obtain ⟨hi, hj⟩ := M.place_of_mem (mem_of_getElem? hp)
  have hhead : p.2 = headsAt M k p.1 := M.rankedPlaces_interleaved k p hp
  have hother : ∀ i, i < M.workers.length → i ≠ p.1 → headsAt M k i < (M.own i).length →
      headGreater format isNewerDocId results p (i, headsAt M k i) = true ∧
        headGreater format isNewerDocId results (i, headsAt M k i) p = false := by
    intro i hi hne hsize
    obtain ⟨k', hle, hget⟩ := exists_rank_of_head hi hsize
    have hlt : k < k' := by
      refine Nat.lt_of_le_of_ne hle ?_
      rintro rfl
      exact hne (congrArg Prod.fst (Option.some.inj (hget.symm.trans hp)))
    exact hgreater p k' _ hp hget hlt (Ne.symm hne) rfl
  have hplace : (p.1, headsAt M k p.1) = p := Prod.ext rfl hhead.symm
  refine best_eq_some hi (decide_eq_true (hhead ▸ hj)) (fun i hlt hready => ?_)
    fun i hlt hi hready => ?_
  · rw [hplace]
    exact (hother i (Nat.lt_trans hlt ‹_›) (Nat.ne_of_lt hlt) (of_decide_eq_true hready)).1
  · rw [hplace]
    exact (hother i hi (Nat.ne_of_gt hlt) (of_decide_eq_true hready)).2

/-- Columns of integers and texts are compared by their values. -/
theorem headGreater_iff {properties : List (String × Bool)} {type : String → SortType}
    (hcolumns : ∀ w ∈ results, w.2.topKDocs ≠ [] → HasColumns format properties type w.2)
    {p q : ℕ × ℕ} (hp : p ∈ allPlaces format results) (hq : q ∈ allPlaces format results) :
    headGreater format isNewerDocId results p q = true ↔
      Above format isNewerDocId properties results p q := by
  obtain ⟨hp1, -, hp2⟩ := mem_places.mp hp
  obtain ⟨hq1, -, hq2⟩ := mem_places.mp hq
  exact greaterThan_iff_above format hcolumns hp1 hp2 hq1 hq2

/-- Columns that are compared exactly tell all heads apart, when the ranking is that of their
values. -/
theorem keepsRanked_of_columns (h : List.Forall₂ (Answers R topKNum page) M.workers results)
    {properties : List (String × Bool)} {type : String → SortType}
    (hcolumns : ∀ w ∈ results, w.2.topKDocs ≠ [] → HasColumns format properties type w.2)
    (hranking : ∀ p q, p ∈ allPlaces format results → q ∈ allPlaces format results →
      (Above format isNewerDocId properties results p q ↔ R.Above (M.element p) (M.element q)))
    {k : ℕ} (hk : k < toSize topKNum) : KeepsRanked format isNewerDocId M results k := by
  refine keepsRanked_of_greater format isNewerDocId fun p k' q hp hq hlt hne hhead => ?_
  -- neither of the two places is cut off
  have hcursor : ∀ i, headsAt M k i ≤ k := by
    intro i
    have hcount := countP_le_length (p := fun p : ℕ × ℕ => p.1 = i) (l := M.rankedPlaces.take k)
    rw [length_take] at hcount
    rw [headsAt, cursors]
    omega
  have hbound : ∀ s : ℕ × ℕ, s ∈ M.rankedPlaces → s.2 = headsAt M k s.1 →
      s ∈ allPlaces format results := by
    intro s hs heq
    obtain ⟨hi, hj⟩ := M.place_of_mem hs
    have := hcursor s.1
    refine mem_places.mpr ⟨h.length_eq ▸ hi, Nat.zero_le _, ?_⟩
    rw [length_topKDocs format h]
    omega
  have hp' := hbound p (mem_of_getElem? hp) (M.rankedPlaces_interleaved k p hp)
  have hq' := hbound q (mem_of_getElem? hq) hhead
  have habove : R.Above (M.element p) (M.element q) := by
    obtain ⟨hlt₁, hget₁⟩ := List.getElem?_eq_some_iff.mp hp
    obtain ⟨hlt₂, hget₂⟩ := List.getElem?_eq_some_iff.mp hq
    have hsorted := pairwise_iff_getElem.mp M.rankedPlaces_sorted k k' hlt₁ hlt₂ hlt
    rwa [hget₁, hget₂] at hsorted
  refine ⟨(headGreater_iff format isNewerDocId hcolumns hp' hq').mpr
    ((hranking p q hp' hq').mpr habove), ?_⟩
  rw [Bool.eq_false_iff, ne_eq, headGreater_iff format isNewerDocId hcolumns hq' hp',
    hranking q p hq' hp']
  exact asymm habove

end Answered

/-- Documents that are ranked by their numbers. -/
def byNumber : Ranking ℤ where
  Above a b := newerByNumber a b = true
  total := newerByNumber_total
  decidable := fun _ _ => inferInstanceAs (Decidable (_ = true))
  rankScore d := d.2

def twoWorkers : Matches byNumber where
  workers := [(1, [30, 10]), (2, [20])]
  distributed := by decide
  workers_nodup := by decide
  sorted := by decide

/-- The answers for windows of one document. -/
def twoAnswers (page : PageInfo) : WorkerResults ℤ ℤ String :=
  twoWorkers.workers.map fun w =>
    (w.1, { KeywordSearchResult.new wholeFormat with
      start := page.start
      count := page.count
      TOP_K_NUM := 1
      topKDocs := (returned 1 page w).map snd
      topKRankScoreList := (returned 1 page w).map byNumber.rankScore })

theorem twoAnswers_answers (page : PageInfo) :
    List.Forall₂ (Answers byNumber 1 page) twoWorkers.workers (twoAnswers page) := by
  rw [twoAnswers, forall₂_map_right_iff, forall₂_same]
  intro w _
  exact
    { worker := rfl
      error := rfl
      start := rfl
      count := rfl
      TOP_K_NUM := rfl
      majorTokenNum := rfl
      topKDocs := rfl
      topKRankScoreList := rfl }

theorem pageRight_first_of_two : PageRight twoWorkers 1 ⟨0, 1⟩
      (getSearchResult wholeFormat newerByNumber 1 true ⟨0, 1⟩ (twoAnswers ⟨0, 1⟩)) := by
  have hkeeps : ∀ k, k < 1 →
      KeepsRanked wholeFormat newerByNumber twoWorkers (twoAnswers ⟨0, 1⟩) k := by
    intro k hk p hp
    obtain rfl : k = 0 := by omega
    obtain rfl : (0, 0) = p := Option.some.inj hp
    decide
  exact ((pageRight_iff wholeFormat newerByNumber (twoAnswers_answers ⟨0, 1⟩) (by decide)).1.mpr
    (.inr ⟨by decide, hkeeps⟩)).1

/-- The second page is empty, although the second and the third document match. -/
theorem not_pageRight_second_of_two :
    List.Forall₂ (Answers byNumber 1 ⟨1, 1⟩) twoWorkers.workers (twoAnswers ⟨1, 1⟩) ∧
      twoWorkers.ranked = [(1, 30), (2, 20), (1, 10)] ∧
      docsInPage (getSearchResult wholeFormat newerByNumber 1 true ⟨1, 1⟩ (twoAnswers ⟨1, 1⟩)) =
        [] ∧
      ¬ PageRight twoWorkers 1 ⟨1, 1⟩
        (getSearchResult wholeFormat newerByNumber 1 true ⟨1, 1⟩ (twoAnswers ⟨1, 1⟩)) := by
  have hranked : twoWorkers.ranked = [(1, 30), (2, 20), (1, 10)] := by decide
  refine ⟨twoAnswers_answers ⟨1, 1⟩, hranked, by decide, ?_⟩
  exact not_pageRight_later wholeFormat newerByNumber (twoAnswers_answers ⟨1, 1⟩) (by decide)
    (by decide) (by decide)

end AdDelivery.DistSearch
