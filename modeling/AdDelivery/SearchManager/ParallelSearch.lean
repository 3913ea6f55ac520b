import AdDelivery.SearchManager.SearchThread
import Mathlib.Data.UInt

/-!
# Parallel and sequential search

What a search returns depends on the documents its threads have stepped on, not on their order
or on the thread. So a parallel search agrees with the plain one exactly when its threads
together step on every document of the query once and on nothing else, and that depends on where
the skip of each thread lands.
-/

namespace AdDelivery.SearchManager

open List
open DocumentIterator

variable {S : Type} [LinearOrder S] {σ : Type} [DocumentIterator σ]

/-- The documents that the loop steps on, filtered or not. -/
def visited (docIdEnd : ℕ) (it : σ) : List ℕ :=
  if docIdEnd ≤ doc it then []
  else doc it :: if (next it).1 then visited docIdEnd (next it).2 else []
termination_by size it
decreasing_by exact size_next it ‹_›

/-- Collect several documents. -/
def collectAll (operation : SearchKeywordOperation S) (r : SearchThreadParam S × List UInt32)
    (docs : List ℕ) : SearchThreadParam S × List UInt32 :=
  docs.foldl (fun r docId => collect operation r.1 r.2 docId) r

theorem doSearchLoop_eq (operation : SearchKeywordOperation S) (it : σ)
    (param : SearchThreadParam S) (counterValues : List UInt32) :
    doSearchLoop operation it param counterValues = collectAll operation (param, counterValues)
        ((visited param.docIdEnd it).filter operation.test) := by
  fun_induction doSearchLoop operation it param counterValues with
  | case1 it param counterValues hend =>
    rw [visited, if_pos hend]
    rfl
  | case2 it param counterValues hend r hnext ih =>
    rw [ih, visited.eq_1 param.docIdEnd it, if_neg hend, if_pos hnext]
    by_cases ht : operation.test (doc it)
    · rw [filter_cons_of_pos ht]
      have hr : r = collect operation param counterValues (doc it) := if_pos ht
      rw [hr]
      rfl
    · rw [filter_cons_of_neg ht]
      have hr : r = (param, counterValues) := if_neg ht
      rw [hr]
  | case3 it param counterValues hend r hnext =>
    rw [visited, if_neg hend, if_neg hnext]
    by_cases ht : operation.test (doc it)
    · rw [filter_cons_of_pos ht]
      exact if_pos ht
    · rw [filter_cons_of_neg ht]
      exact if_neg ht

section Report

variable (operation : SearchKeywordOperation S) (heapSize : ℕ)

def scoreDoc (docId : ℕ) : ScoreDoc S := { docId := docId, score := operation.evaluate docId }

/-- The value of a counter over some documents. -/
def counterTotal (docs : List ℕ) (name : String) : UInt32 :=
  (docs.map fun docId => (operation.getInt32Value name docId).getD 0).sum

/-- A thread, or the master after a merge, that has collected some documents. -/
structure Collected (docs : List ℕ) (param : SearchThreadParam S) : Prop where
  totalCount : param.totalCount = docs.length
  heapSize_eq : param.scoreItemQueue.heapSize = heapSize
  items : param.scoreItemQueue.items = topK heapSize (docs.map (scoreDoc operation))
  counters : ∀ name, param.counterResults.lookup name =
    if name ∈ operation.counterList then some (counterTotal operation docs name) else none

end Report

omit [LinearOrder S] in
theorem counterTotal_append (operation : SearchKeywordOperation S) (docs docs' : List ℕ)
    (name : String) : counterTotal operation (docs ++ docs') name =
      counterTotal operation docs name + counterTotal operation docs' name := by
  rw [counterTotal, map_append, sum_append]
  rfl

omit [LinearOrder S] in
open scoped UInt32.CommRing in
theorem counterTotal_perm (operation : SearchKeywordOperation S) {docs docs' : List ℕ}
    (h : docs.Perm docs') (name : String) :
    counterTotal operation docs name = counterTotal operation docs' name :=
  (h.map _).sum_eq

theorem collectAll_spec (operation : SearchKeywordOperation S) (param : SearchThreadParam S)
    (total : String → UInt32) (docs : List ℕ) :
    collectAll operation (param, operation.counterList.map total) docs = ({ param with
          totalCount := param.totalCount + docs.length
          scoreItemQueue :=
            (docs.map (scoreDoc operation)).foldl HitQueue.insert param.scoreItemQueue },
        operation.counterList.map fun name => total name + counterTotal operation docs name) := by
  induction docs generalizing param total with
  | nil => simp [collectAll, counterTotal]
  | cons d docs ih =>
    have hvalues : List.zipWith
        (fun name value => value + (operation.getInt32Value name d).getD 0)
        operation.counterList (operation.counterList.map total) =
        operation.counterList.map fun name =>
          total name + (operation.getInt32Value name d).getD 0 := by
      rw [zipWith_map_right, zipWith_self]
    rw [collectAll, foldl_cons, collect, hvalues]
    refine (ih _ _).trans ?_
    simp only [length_cons, map_cons, foldl_cons, Nat.add_assoc,
      Nat.add_comm 1, counterTotal, sum_cons, UInt32.add_assoc]
    rfl

/-- One thread collects the documents of its loop that pass the filter. -/
theorem collected_doSearch (operation : SearchKeywordOperation S) (it : σ)
    (param : SearchThreadParam S) (hcount : param.totalCount = 0)
    (hresults : param.counterResults = ∅) (hitems : param.scoreItemQueue.items = []) :
    Collected operation param.scoreItemQueue.heapSize
      ((visited param.docIdEnd (skipTo (param.docIdBegin % 2 ^ 32) it).2).filter operation.test)
      (doSearch operation it param) := by
  generalize hdocs : (visited param.docIdEnd (skipTo (param.docIdBegin % 2 ^ 32) it).2).filter
    operation.test = docs
  obtain ⟨hheap, hqueue⟩ := insert_items (docs.map (scoreDoc operation)) param.scoreItemQueue
  rw [doSearch, doSearchLoop_eq, hdocs, collectAll_spec operation param (fun _ => 0)]
  refine ⟨?totalCount, hheap, ?items, fun name => ?counters⟩
  case totalCount => simp [hcount]
  case items =>
    refine hqueue.trans ?_
    rw [hitems, ← topK_nil param.scoreItemQueue.heapSize, foldl_orderedInsert_topK, append_nil]
  case counters =>
    simp only [UInt32.zero_add]
    rw [← map_prod_left_eq_zip, foldl_map, Table.lookup_foldl_insert_value, hresults,
      Finmap.lookup_empty]

theorem get_foldl_update (names : List String) (hnames : names.Nodup) (value : String → UInt32)
    (results : Table String UInt32) (name : String) :
    (names.foldl (fun results n => results.update n (· + value n)) results).lookup name =
      if name ∈ names then some (results.get name + value name) else results.lookup name := by
  induction names generalizing results with
  | nil => rfl
  | cons n names ih =>
    obtain ⟨hn, hnames⟩ := nodup_cons.mp hnames
    rw [foldl_cons, ih hnames]
    by_cases hname : name = n
    · subst hname
      rw [if_neg hn, if_pos mem_cons_self, Table.update, Table.lookup_insert_eq, if_pos rfl]
    · rw [Table.get_update_of_ne _ _ hname, Table.update, Table.lookup_insert_eq]
      simp [hname]

variable {operation : SearchKeywordOperation S} {heapSize : ℕ}

/-- The master holds the documents of both after a merge. -/
theorem Collected.merge {docs docs' : List ℕ} {master param : SearchThreadParam S}
    (h : Collected operation heapSize docs master) (h' : Collected operation heapSize docs' param) :
    Collected operation heapSize (docs ++ docs') (mergeThreadParam master param) := by
  obtain ⟨hheap, hqueue⟩ := insert_items
    (param.scoreItemQueue.pops param.scoreItemQueue.size) master.scoreItemQueue
  refine ⟨?totalCount, hheap.trans h.heapSize_eq, ?items, fun name => ?counters⟩
  case totalCount =>
    rw [length_append, ← h.totalCount, ← h'.totalCount]
    rfl
  case items =>
    refine hqueue.trans ?_
    rw [pops_eq, HitQueue.size, take_of_length_le (by rw [length_reverse]),
      h.heapSize_eq, h.items, h'.items, foldl_orderedInsert_drain, map_append]
  case counters =>
    have hmem : name ∈ param.counterResults.keys.sort (· ≤ ·) ↔
        name ∈ operation.counterList := by
      rw [Finset.mem_sort, Finmap.mem_keys, ← Finmap.lookup_isSome, h'.counters name]
      split <;> simp_all
    rw [mergeThreadParam, get_foldl_update _ (Finset.sort_nodup _ _), h.counters name]
    by_cases hname : name ∈ operation.counterList
    · rw [if_pos (hmem.mpr hname), if_pos hname, Table.get, Table.get, h.counters name,
        h'.counters name, if_pos hname, if_pos hname, counterTotal_append]
      rfl
    · rw [if_neg fun hin => hname (hmem.mp hin), if_neg hname, if_neg hname]

variable {docs : List ℕ}

/-- The result lists the best documents from the offset on. -/
theorem Collected.topKDocs {param : SearchThreadParam S}
    (h : Collected operation heapSize docs param) (offset : ℕ) :
    (fetchSearchResult offset param).topKDocs =
        ((topK heapSize (docs.map (scoreDoc operation))).drop offset).map ScoreDoc.docId ∧
      (fetchSearchResult offset param).topKRankScoreList =
        ((topK heapSize (docs.map (scoreDoc operation))).drop offset).map ScoreDoc.score := by
  have hitems : (param.scoreItemQueue.pops
      (if offset < param.scoreItemQueue.size then param.scoreItemQueue.size - offset else 0)
      ).reverse = (topK heapSize (docs.map (scoreDoc operation))).drop offset := by
    rw [pops_eq, HitQueue.size, h.items, take_reverse, reverse_reverse]
    split
    · rw [Nat.sub_sub_self (by omega)]
    · rw [Nat.sub_zero, drop_length, drop_eq_nil_of_le (by omega)]
  simp only [fetchSearchResult, hitems, true_and]

/-- The order in which documents were collected cannot be read off the result. -/
theorem Collected.congr {docs docs' : List ℕ} {param param' : SearchThreadParam S}
    (h : Collected operation heapSize docs param) (h' : Collected operation heapSize docs' param')
    (hperm : docs.Perm docs') (offset : ℕ) :
    fetchSearchResult offset param = fetchSearchResult offset param' := by
  have hcounters : param.counterResults = param'.counterResults := by
    refine Finmap.ext_lookup fun name => ?_
    rw [h.counters name, h'.counters name, counterTotal_perm operation hperm name]
  obtain ⟨hdocs, hscores⟩ := h.topKDocs offset
  obtain ⟨hdocs', hscores'⟩ := h'.topKDocs offset
  rw [← topK_perm heapSize (hperm.map (scoreDoc operation))] at hdocs' hscores'
  have htotal : param.totalCount = param'.totalCount := by
    rw [h.totalCount, h'.totalCount, hperm.length_eq]
  rw [← hdocs] at hdocs'
  rw [← hscores] at hscores'
  simp only [fetchSearchResult, htotal, hcounters, KeywordSearchResult.mk.injEq, true_and]
  exact ⟨hdocs'.symm, hscores'.symm⟩

/-- The documents that all threads step on. -/
def visitedByAll (threadNum maxDoc : ℕ) (it : σ) : List ℕ :=
  (List.range threadNum).flatMap fun i =>
    visited ((i + 1) * averageDocNum threadNum maxDoc)
      (skipTo (i * averageDocNum threadNum maxDoc % 2 ^ 32) it).2

variable {params : List (SearchThreadParam S)} {parts : List (List ℕ)}

theorem collected_foldl (h : List.Forall₂ (Collected operation heapSize) parts params)
    {master : SearchThreadParam S} (hmaster : Collected operation heapSize docs master) :
    Collected operation heapSize (docs ++ parts.flatten)
      (params.foldl mergeThreadParam master) := by
  induction h generalizing docs master with
  | nil => rwa [flatten_nil, append_nil]
  | cons hparam _ ih =>
    rw [flatten_cons, ← append_assoc]
    exact ih (hmaster.merge hparam)

/-- The master's parameters after the merge hold the documents of all threads. -/
theorem mergeThreadParams_spec (h : List.Forall₂ (Collected operation heapSize) parts params)
    (hne : params ≠ []) : ∃ param, Collected operation heapSize parts.flatten param ∧
      mergeThreadParams params =
        if params.length = 1 ∨ ∀ p ∈ params, p.isSuccess = true then some param else none := by
  cases h with
  | nil => exact absurd rfl hne
  | @cons docs master parts params hmaster hrest =>
    refine ⟨params.foldl mergeThreadParam master, collected_foldl hrest hmaster, ?_⟩
    cases params with
    | nil => rfl
    | cons param params => simp [mergeThreadParams]

/-- A search fails, or returns what was collected from all documents its threads stepped on. -/
theorem search_spec (threadNum maxDoc : ℕ) (hpos : 0 < threadNum) (it : σ)
    (operation : SearchKeywordOperation S) (heapSize offset : ℕ) (succeeds : ℕ → Bool) :
    ∃ param, Collected operation heapSize
        ((visitedByAll threadNum maxDoc it).filter operation.test) param ∧
      search threadNum maxDoc it operation heapSize offset succeeds =
        if ∀ i < threadNum, succeeds i = true then some (fetchSearchResult offset param)
        else none := by
  generalize hparams : (prepareThreadParams threadNum maxDoc heapSize).map (fun param =>
    { doSearch operation it param with isSuccess := succeeds param.threadId }) = params
  have hlen : params.length = threadNum := by
    rw [← hparams, List.length_map, prepareThreadParams, List.length_map, length_range]
  have hsuccess : (∀ p ∈ params, p.isSuccess = true) ↔ ∀ i < threadNum, succeeds i = true := by
    rw [← hparams, prepareThreadParams]
    simp
  have hcollected : List.Forall₂ (Collected operation heapSize)
      ((List.range threadNum).map fun i => (visited ((i + 1) * averageDocNum threadNum maxDoc)
          (skipTo (i * averageDocNum threadNum maxDoc % 2 ^ 32) it).2).filter operation.test)
      params := by
    rw [← hparams, prepareThreadParams, List.map_map, forall₂_map_left_iff,
      forall₂_map_right_iff, forall₂_same]
    intro i _
    obtain ⟨hcount, hheap, hitems, hcounters⟩ := collected_doSearch operation it
      { threadId := i
        docIdBegin := i * averageDocNum threadNum maxDoc
        docIdEnd := (i + 1) * averageDocNum threadNum maxDoc
        scoreItemQueue := { heapSize := heapSize } } rfl rfl rfl
    exact ⟨hcount, hheap, hitems, hcounters⟩
  obtain ⟨param, hparam, hmerge⟩ := mergeThreadParams_spec hcollected
    (ne_nil_of_length_pos (by omega))
  refine ⟨param, ?_, ?_⟩
  · rw [visitedByAll, filter_flatMap]
    exact hparam
  · rw [search, hparams, hmerge]
    simp only [hsuccess, hlen]
    rcases Nat.lt_or_ge 1 threadNum with hmany | hone
    · have hne : threadNum ≠ 1 := by omega
      simp only [hne, decide_false, Bool.false_and, Bool.false_eq_true, if_false, false_or]
      split <;> rfl
    · obtain rfl : threadNum = 1 := by omega
      cases hs : succeeds 0 <;> simp [hs]

/-- The documents from `first` to the end of a range: what a thread steps on when its skip has
landed on `first`. -/
def stretch (docs : List ℕ) (first docIdEnd : ℕ) : List ℕ :=
  if first < docIdEnd then
    first :: docs.filter fun d => decide (first < d) && decide (d < docIdEnd)
  else
    []

theorem mem_stretch {first docIdEnd d : ℕ} : d ∈ stretch docs first docIdEnd ↔
      d < docIdEnd ∧ (d = first ∨ d ∈ docs ∧ first < d) := by
  rw [stretch]
  split
  · grind
  · simp only [not_mem_nil, false_iff]
    rintro ⟨hend, rfl | ⟨-, hlt⟩⟩ <;> omega

theorem stretch_increasing (h : docs.Pairwise (· < ·)) (first docIdEnd : ℕ) :
    (stretch docs first docIdEnd).Pairwise (· < ·) := by
  rw [stretch]
  split
  · refine pairwise_cons.mpr ⟨fun d hd => ?_, h.sublist filter_sublist⟩
    have hin := (mem_filter.mp hd).2
    rw [Bool.and_eq_true] at hin
    exact of_decide_eq_true hin.1
  · exact List.Pairwise.nil

/-- What follows a document is the stretch from the next one on. -/
theorem filter_eq_stretch (h : docs.Pairwise (· < ·)) {d d' docIdEnd : ℕ}
    (hleast : IsLeast {x | x ∈ docs ∧ d < x} d') :
    (docs.filter fun x => decide (d < x) && decide (x < docIdEnd)) = stretch docs d' docIdEnd := by
  obtain ⟨⟨hd', hdd'⟩, hmin⟩ := hleast
  refine (h.sublist filter_sublist).eq_of_mem_iff (stretch_increasing h d' docIdEnd) ?_
  intro x
  simp only [mem_stretch, mem_filter, Bool.and_eq_true, decide_eq_true_eq]
  constructor
  · rintro ⟨hx, hdx, hend⟩
    refine ⟨hend, ?_⟩
    rcases Nat.lt_or_eq_of_le (hmin ⟨hx, hdx⟩) with hlt | heq
    · exact .inr ⟨hx, hlt⟩
    · exact .inl heq.symm
  · rintro ⟨hend, rfl | ⟨hx, hlt⟩⟩
    · exact ⟨hd', hdd', hend⟩
    · exact ⟨hx, hdd'.trans hlt, hend⟩

/-- A query with its documents. `next` goes on to the following document, wherever a skip has
landed; and the documents are those of the plain loop, which begins with a skip to zero. -/
structure DocumentStream (σ : Type) [DocumentIterator σ] where
  fresh : σ
  docs : List ℕ
  maxDoc : ℕ
  increasing : docs.Pairwise (· < ·)
  le_max : ∀ d ∈ docs, d ≤ maxDoc
  /-- The states that a search can come to. -/
  Reached : σ → Prop
  reached_skipTo : ∀ target, Reached (skipTo target fresh).2
  reached_next : ∀ it, Reached it → (next it).1 = true → Reached (next it).2
  next_found : ∀ it, Reached it → (next it).1 = true →
    IsLeast {d | d ∈ docs ∧ doc it < d} (doc (next it).2)
  next_end : ∀ it, Reached it → (next it).1 = false → ∀ d ∈ docs, d ≤ doc it
  plain : stretch docs (doc (skipTo 0 fresh).2) (maxDoc + 1) = docs

namespace DocumentStream

variable (stream : DocumentStream σ) (threadNum : ℕ)

/-- Where the skip of a thread lands. -/
def firstDoc (i : ℕ) : ℕ :=
  doc (skipTo (i * averageDocNum threadNum stream.maxDoc % 2 ^ 32) stream.fresh).2

/-- The stretches from where each thread begins to the end of its range are together the
documents of the query, each of them once. -/
def Covers : Prop :=
  ((List.range threadNum).flatMap fun i => stretch stream.docs (stream.firstDoc threadNum i)
      ((i + 1) * averageDocNum threadNum stream.maxDoc)).Perm stream.docs

/-- Whatever is searched for, a search with this number of threads returns what the plain search
returns, with the best of all matching documents. -/
def ParallelAgrees : Prop :=
  ∀ (S : Type) [LinearOrder S] (operation : SearchKeywordOperation S) (heapSize offset : ℕ)
    (succeeds : ℕ → Bool) (r : KeywordSearchResult S),
    search threadNum stream.maxDoc stream.fresh operation heapSize offset succeeds = some r →
      search 1 stream.maxDoc stream.fresh operation heapSize offset (fun _ => true) = some r ∧
      r.totalCount = (stream.docs.filter operation.test).length ∧
      r.topKDocs = ((topK heapSize ((stream.docs.filter operation.test).map
        (scoreDoc operation))).drop offset).map ScoreDoc.docId

variable {stream threadNum}

/-- The loop steps on one stretch of the documents. -/
theorem visited_eq (docIdEnd : ℕ) (it : σ) (h : stream.Reached it) :
    visited docIdEnd it = stretch stream.docs (doc it) docIdEnd := by
  induction hsize : size it using Nat.strong_induction_on generalizing it with
  | _ n ih =>
    rw [visited, stretch]
    by_cases hend : docIdEnd ≤ doc it
    · rw [if_pos hend, if_neg hend.not_gt]
    rw [if_neg hend, if_pos (show doc it < docIdEnd by omega)]
    by_cases hnext : (next it).1 = true
    · rw [if_pos hnext, ih _ (hsize ▸ size_next it hnext) _ (stream.reached_next it h hnext) rfl,
        filter_eq_stretch stream.increasing (stream.next_found it h hnext)]
    · have hlast := stream.next_end it h (by simpa using hnext)
      rw [if_neg hnext, filter_eq_nil_iff.mpr]
      intro d hd
      have := hlast d hd
      simp only [Bool.and_eq_true, decide_eq_true_eq]
      omega

theorem visitedByAll_eq (stream : DocumentStream σ) (threadNum : ℕ) :
    visitedByAll threadNum stream.maxDoc stream.fresh =
      (List.range threadNum).flatMap fun i => stretch stream.docs (stream.firstDoc threadNum i)
        ((i + 1) * averageDocNum threadNum stream.maxDoc) := by
  refine congrArg (fun f => (List.range threadNum).flatMap f) (funext fun i => ?_)
  exact stream.visited_eq _ _ (stream.reached_skipTo _)

/-- The plain search steps on the documents of the query. -/
theorem visitedByAll_one : visitedByAll 1 stream.maxDoc stream.fresh = stream.docs := by
  rw [visitedByAll_eq]
  simpa [firstDoc, averageDocNum] using stream.plain

/-- Counting with a filter for one document shows how often the threads step on it. -/
theorem covers_of_parallelAgrees (hpos : 0 < threadNum)
    (h : stream.ParallelAgrees threadNum) : stream.Covers threadNum := by
  rw [Covers, ← visitedByAll_eq, perm_iff_count]
  intro d
  let operation : SearchKeywordOperation ℕ :=
    { test := fun docId => docId == d
      counterList := []
      getInt32Value := fun _ _ => none
      evaluate := fun docId => docId }
  obtain ⟨param, hparam, hsearch⟩ := search_spec threadNum stream.maxDoc hpos stream.fresh
    operation 0 0 fun _ => true
  rw [if_pos fun _ _ => rfl] at hsearch
  obtain ⟨-, htotal, -⟩ := h ℕ operation 0 0 (fun _ => true) _ hsearch
  have hcount : (fetchSearchResult 0 param).totalCount = _ := hparam.totalCount
  rw [hcount] at htotal
  rw [count_eq_length_filter, count_eq_length_filter]
  exact htotal

theorem parallelAgrees_of_covers (hpos : 0 < threadNum) (h : stream.Covers threadNum) :
    stream.ParallelAgrees threadNum := by
  intro S _ operation heapSize offset succeeds r hr
  rw [Covers, ← visitedByAll_eq] at h
  obtain ⟨param, hparam, hsearch⟩ := search_spec threadNum stream.maxDoc hpos stream.fresh
    operation heapSize offset succeeds
  obtain ⟨param', hparam', hsearch'⟩ := search_spec 1 stream.maxDoc Nat.one_pos stream.fresh
    operation heapSize offset fun _ => true
  rw [visitedByAll_one] at hparam'
  rw [hsearch] at hr
  split at hr
  case isFalse => cases hr
  case isTrue =>
    obtain rfl := Option.some.inj hr
    rw [hsearch', hparam.congr hparam' (h.filter _) offset]
    exact ⟨rfl, hparam'.totalCount, (hparam'.topKDocs offset).1⟩

/-- A parallel search returns what the plain search returns, whatever is searched for, exactly
when the stretches of its threads cover the documents. -/
theorem parallelAgrees_iff_covers (stream : DocumentStream σ) {threadNum : ℕ}
    (hpos : 0 < threadNum) : stream.ParallelAgrees threadNum ↔ stream.Covers threadNum :=
  ⟨covers_of_parallelAgrees hpos, parallelAgrees_of_covers hpos⟩

omit [DocumentIterator σ] in
theorem flatMap_ranges {docs : List ℕ} (h : docs.Pairwise (· < ·)) (average : ℕ) (n : ℕ) :
    ((List.range n).flatMap fun i => docs.filter fun d =>
      decide (i * average ≤ d) && decide (d < (i + 1) * average)) =
      docs.filter fun d => decide (d < n * average) := by
  induction n with
  | zero => simp
  | succ n ih =>
    rw [range_succ, flatMap_append, ih, flatMap_singleton]
    have hle : n * average ≤ (n + 1) * average := Nat.mul_le_mul_right _ (Nat.le_succ n)
    refine List.Pairwise.eq_of_mem_iff (r := (· < ·)) ?_ (h.sublist filter_sublist) ?_
    · refine pairwise_append.mpr ⟨h.sublist filter_sublist,
        h.sublist filter_sublist, fun d hd d' hd' => ?_⟩
      simp only [mem_filter, Bool.and_eq_true, decide_eq_true_eq] at hd hd'
      omega
    · intro d
      simp only [mem_append, mem_filter, Bool.and_eq_true, decide_eq_true_eq]
      grind

theorem lt_ranges (hpos : 0 < threadNum) (maxDoc : ℕ) :
    maxDoc < threadNum * averageDocNum threadNum maxDoc :=
  Nat.lt_mul_div_succ maxDoc hpos

theorem ranges_le (threadNum maxDoc : ℕ) :
    threadNum * averageDocNum threadNum maxDoc ≤ maxDoc + threadNum := by
  exact Nat.add_le_add_right (Nat.mul_div_le maxDoc threadNum) threadNum

/-- It is enough that every thread lands on the first document that is not below its range, or
behind its range when it has none. -/
theorem covers_of_lands (hpos : 0 < threadNum) (h : ∀ i < threadNum, ∀ d,
      d ∈ stretch stream.docs (stream.firstDoc threadNum i)
        ((i + 1) * averageDocNum threadNum stream.maxDoc) ↔
      d ∈ stream.docs ∧ i * averageDocNum threadNum stream.maxDoc ≤ d ∧
        d < (i + 1) * averageDocNum threadNum stream.maxDoc) : stream.Covers threadNum := by
  have hranges : ((List.range threadNum).flatMap fun i =>
      stretch stream.docs (stream.firstDoc threadNum i)
        ((i + 1) * averageDocNum threadNum stream.maxDoc)) = stream.docs := by
    rw [flatMap_congr (g := fun i => stream.docs.filter fun d =>
        decide (i * averageDocNum threadNum stream.maxDoc ≤ d) &&
          decide (d < (i + 1) * averageDocNum threadNum stream.maxDoc)),
      flatMap_ranges stream.increasing, filter_eq_self]
    · intro d hd
      exact decide_eq_true ((stream.le_max d hd).trans_lt (lt_ranges hpos stream.maxDoc))
    · intro i hi
      refine (stretch_increasing stream.increasing _ _).eq_of_mem_iff
        (stream.increasing.sublist filter_sublist) fun d => ?_
      rw [h i (mem_range.mp hi) d]
      simp
  rw [Covers, hranges]

end DocumentStream

open TermDocumentIterator

instance : DocumentIterator TermDocumentIterator where
  next := next
  doc := doc
  skipTo := skipTo
  size := weight
  size_next _ h := weight_next h
  skipTo_found target it := by
    rcases it.skipTo_cases target with ⟨hnone, -⟩ | ⟨hle, hlt, -⟩
    · exact .inl hnone
    · exact .inr ⟨hle, hlt⟩

namespace TermDocumentIterator

variable {docs : List ℕ} {maxDoc : ℕ}

/-- A started iterator over what is left of the list. -/
def Within (docs : List ℕ) (it : TermDocumentIterator) : Prop :=
  it.started = true ∧ IsUpperPart {d | d ∈ docs} {d | d ∈ it.docs}

variable {it : TermDocumentIterator}

theorem Within.next_found (h : Within docs it) (hnext : it.next.1 = true) :
    IsLeast {d | d ∈ docs ∧ it.doc < d} it.next.2.doc := by
  have hne : it.docs ≠ [] := by
    rintro hnil
    rw [next_fst, next_docs, hnil] at hnext
    simp at hnext
  obtain ⟨hmem, hfirst⟩ := isLeast_doc (next_docs_ne_nil hnext)
  have hstep := it.isUpperPart_next
  refine ⟨⟨h.2.subset (hstep.subset hmem), ?_⟩, ?_⟩
  · refine lt_of_le_of_ne ((isLeast_doc hne).2 (hstep.subset hmem)) fun heq => ?_
    have hinc := it.increasing
    rw [next_docs, if_pos h.1] at hmem
    unfold doc at heq
    cases hdocs : it.docs with
    | nil => exact hne hdocs
    | cons d rest =>
      rw [hdocs] at hinc heq
      have hin : it.next.2.doc ∈ rest := by
        have := hmem
        rwa [hdocs] at this
      exact absurd heq ((pairwise_cons.mp hinc).1 _ hin).ne
  · rintro d ⟨hd, hlt⟩
    have hin : d ∈ it.docs := h.2.upward _ (isLeast_doc hne).1 d hd hlt.le
    exact hfirst (mem_next_of_ne hin hlt.ne')

theorem Within.next_end (h : Within docs it) (hbelow : ∀ d ∈ docs, d < maxDocId)
    (hnext : it.next.1 = false) : ∀ d ∈ docs, d ≤ it.doc := by
  intro d hd
  rcases eq_or_ne it.docs [] with hnil | hne
  · have hdoc : it.doc = maxDocId := by
      unfold doc
      rw [hnil]
      rfl
    exact hdoc ▸ (hbelow d hd).le
  · by_contra hlt
    have hin : d ∈ it.docs := h.2.upward _ (isLeast_doc hne).1 d hd (not_le.mp hlt).le
    have hleft := mem_next_of_ne hin (not_le.mp hlt).ne'
    rw [next_fst] at hnext
    simp only [Bool.not_eq_false', List.isEmpty_iff] at hnext
    rw [hnext] at hleft
    cases hleft

theorem within_skipTo (target : ℕ) (h : it.docs = docs) : Within docs (it.skipTo target).2 := by
  refine ⟨rfl, ?_⟩
  have heq : {d | d ∈ (it.skipTo target).2.docs} = {d | d ∈ {d | d ∈ docs} ∧ target ≤ d} := by
    ext d
    rw [Set.mem_ofPred_eq, mem_skipTo, h]
    rfl
  rw [heq]
  exact IsUpperPart.sep _ _

/-- A skip of a fresh iterator steps on the documents from the target on. -/
theorem mem_stretch_skipTo {target docIdEnd : ℕ} (hend : docIdEnd ≤ maxDocId) (d : ℕ) :
    d ∈ stretch it.docs (it.skipTo target).2.doc docIdEnd ↔
      d ∈ it.docs ∧ target ≤ d ∧ d < docIdEnd := by
  rw [mem_stretch]
  rcases eq_or_ne (it.skipTo target).2.docs [] with hnil | hne
  · have hdoc : (it.skipTo target).2.doc = maxDocId := by
      unfold doc
      rw [hnil]
      rfl
    constructor
    · rintro ⟨hlt, rfl | ⟨hd, hgt⟩⟩
      · omega
      · omega
    · rintro ⟨hd, hle, hlt⟩
      have hin := (mem_skipTo target it d).mpr ⟨hd, hle⟩
      rw [hnil] at hin
      cases hin
  · obtain ⟨hmem, hmin⟩ := isLeast_doc hne
    obtain ⟨hin, hle⟩ := (mem_skipTo target it _).mp hmem
    constructor
    · rintro ⟨hlt, rfl | ⟨hd, hgt⟩⟩
      · exact ⟨hin, hle, hlt⟩
      · exact ⟨hd, hle.trans hgt.le, hlt⟩
    · rintro ⟨hd, hle', hlt⟩
      refine ⟨hlt, ?_⟩
      rcases (hmin ((mem_skipTo target it d).mpr ⟨hd, hle'⟩)).lt_or_eq with hgt | heq
      · exact .inr ⟨hd, hgt⟩
      · exact .inl heq.symm

/-- The query of one posting list. -/
def stream (it : TermDocumentIterator) (maxDoc : ℕ) (hle : ∀ d ∈ it.docs, d ≤ maxDoc)
    (hmax : maxDoc < maxDocId) : DocumentStream TermDocumentIterator where
  fresh := it
  docs := it.docs
  maxDoc := maxDoc
  increasing := it.increasing
  le_max := hle
  Reached := Within it.docs
  reached_skipTo target := within_skipTo target rfl
  reached_next s h _ := ⟨rfl, h.2.trans s.isUpperPart_next⟩
  next_found _ h hnext := h.next_found hnext
  next_end _ h hnext := h.next_end it.below hnext
  plain := by
    refine (stretch_increasing it.increasing _ _).eq_of_mem_iff it.increasing fun d => ?_
    refine (mem_stretch_skipTo hmax d).trans ⟨fun h => h.1, fun h => ?_⟩
    exact ⟨h, Nat.zero_le d, Nat.lt_succ_of_le (hle d h)⟩

/-- The skips of a posting list land where they should, as long as all ranges are below the last
document id. -/
theorem covers_stream (it : TermDocumentIterator) {maxDoc threadNum : ℕ}
    (hle : ∀ d ∈ it.docs, d ≤ maxDoc) (hmax : maxDoc < maxDocId) (hpos : 0 < threadNum)
    (hfit : maxDoc + threadNum ≤ maxDocId) : (it.stream maxDoc hle hmax).Covers threadNum := by
  refine DocumentStream.covers_of_lands hpos fun i hi d => ?_
  have hranges := DocumentStream.ranges_le threadNum maxDoc
  have hend : (i + 1) * averageDocNum threadNum maxDoc ≤ maxDocId :=
    ((Nat.mul_le_mul_right _ hi).trans hranges).trans hfit
  have hbegin : i * averageDocNum threadNum maxDoc < 2 ^ 32 := by
    have hlt : i * averageDocNum threadNum maxDoc ≤ (i + 1) * averageDocNum threadNum maxDoc :=
      Nat.mul_le_mul_right _ (Nat.le_succ i)
    simp only [maxDocId] at hend
    omega
  have hfirst : (it.stream maxDoc hle hmax).firstDoc threadNum i =
      (it.skipTo (i * averageDocNum threadNum maxDoc)).2.doc := by
    change (it.skipTo (i * averageDocNum threadNum maxDoc % 2 ^ 32)).2.doc = _
    rw [Nat.mod_eq_of_lt hbegin]
  rw [hfirst]
  exact mem_stretch_skipTo hend d

/-- A list of documents on both sides of the ranges of two threads. -/
def docs135 : TermDocumentIterator where
  docs := [1, 3, 5]
  started := false
  increasing := by decide
  below := by decide

theorem parallelAgrees_docs135 : (docs135.stream 5 (by decide) (by decide)).ParallelAgrees 2 :=
  (DocumentStream.parallelAgrees_iff_covers _ (by decide)).mpr
    (docs135.covers_stream (by decide) (by decide) (by decide) (by decide))

end TermDocumentIterator

end AdDelivery.SearchManager
