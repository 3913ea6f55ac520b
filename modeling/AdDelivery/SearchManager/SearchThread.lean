import AdDelivery.Core.BoundedQueue
import AdDelivery.Core.Table
import AdDelivery.Core.TopK
import AdDelivery.SearchManager.DocumentIterator
import Mathlib.Data.Finset.Sort
import Mathlib.Data.Prod.Lex

/-!
# Search threads

A search splits the document ids into ranges of one size and gives each to a thread. A thread
skips a fresh iterator to the beginning of its range and collects documents until the iterator
ends or leaves the range. The master adds up what the threads have counted, drains their queues
into its own and reads the documents from the low end of it.
-/

namespace AdDelivery.SearchManager

open DocumentIterator

variable {S : Type} [LinearOrder S]

/-- A document and what it has been ranked with. -/
structure ScoreDoc (S : Type) where
  docId : ℕ
  score : S
deriving DecidableEq

/-- Which scores the hit queue takes as the same: those less than epsilon apart. -/
structure Tolerance (S : Type) where
  near : S → S → Bool
  near_self : ∀ s, near s s
  near_comm : ∀ s t, near s t = near t s

/-- `ScoreSortedHitQueue::Queue_::lessThan`. -/
def ScoreSortedHitQueue.lessThan (tolerance : Tolerance S) (o1 o2 : ScoreDoc S) : Bool :=
  if tolerance.near o1.score o2.score then o1.docId < o2.docId else o1.score < o2.score

/-- By score, and documents with one score by id. -/
instance : LinearOrder (ScoreDoc S) :=
  LinearOrder.lift' (fun d => toLex (d.score, d.docId)) fun a b h => by
    obtain ⟨hscore, hdoc⟩ := Prod.mk.inj (toLex.injective h)
    cases a
    cases b
    congr

/-- Different scores that are taken as the same have the order of the ids. -/
def ToldApart (tolerance : Tolerance S) (D : Set (ScoreDoc S)) : Prop :=
  ∀ a ∈ D, ∀ b ∈ D, tolerance.near a.score b.score → a.score < b.score → a.docId < b.docId

/-- The comparison is the order by score where it tells the scores apart. -/
theorem lessThan_iff_lt {tolerance : Tolerance S} {D : Set (ScoreDoc S)}
    (hD : ToldApart tolerance D) {a b : ScoreDoc S} (ha : a ∈ D) (hb : b ∈ D) :
    ScoreSortedHitQueue.lessThan tolerance a b ↔ a < b := by
  have hlex : a < b ↔ a.score < b.score ∨ a.score = b.score ∧ a.docId < b.docId :=
    Prod.Lex.lt_iff
  rw [hlex, ScoreSortedHitQueue.lessThan]
  by_cases hnear : tolerance.near a.score b.score
  · have hnear' : tolerance.near b.score a.score := tolerance.near_comm _ _ ▸ hnear
    rw [if_pos hnear, decide_eq_true_iff]
    rcases lt_trichotomy a.score b.score with hlt | heq | hgt
    · exact ⟨fun _ => .inl hlt, fun _ => hD a ha b hb hnear hlt⟩
    · exact ⟨fun h => .inr ⟨heq, h⟩, fun h => (h.resolve_left heq.not_lt).2⟩
    · have hids := hD b hb a ha hnear' hgt
      refine ⟨fun h => absurd h hids.not_gt, ?_⟩
      rintro (hlt | ⟨heq, -⟩)
      · exact absurd hlt hgt.not_gt
      · exact absurd heq hgt.ne'
  · have hne : a.score ≠ b.score := fun heq => hnear (heq ▸ tolerance.near_self _)
    rw [if_neg hnear, decide_eq_true_iff]
    exact ⟨.inl, fun h => h.resolve_right fun heq => hne heq.1⟩

theorem ordersOn_lessThan {tolerance : Tolerance S} {D : Set (ScoreDoc S)}
    (hD : ToldApart tolerance D) :
    OrdersOn (fun a b => ScoreSortedHitQueue.lessThan tolerance a b) D where
  irrefl a ha := by
    rw [lessThan_iff_lt hD ha ha]
    exact lt_irrefl a
  asymm a ha b hb := by
    rw [lessThan_iff_lt hD ha hb, lessThan_iff_lt hD hb ha]
    exact fun h => h.not_gt
  trans a ha b hb c hc := by
    rw [lessThan_iff_lt hD ha hb, lessThan_iff_lt hD hb hc, lessThan_iff_lt hD ha hc]
    exact lt_trans
  total a ha b hb hne := by
    rw [lessThan_iff_lt hD ha hb, lessThan_iff_lt hD hb ha]
    exact lt_or_gt_of_ne hne

/-- A queue that keeps the `heapSize` best documents, here with the best in front, where the
comparison tells all scores apart. -/
structure HitQueue (S : Type) where
  heapSize : ℕ
  items : List (ScoreDoc S) := []
deriving DecidableEq

namespace HitQueue

def insert (queue : HitQueue S) (item : ScoreDoc S) : HitQueue S :=
  { queue with items := (queue.items.orderedInsert (· ≥ ·) item).take queue.heapSize }

def size (queue : HitQueue S) : ℕ := queue.items.length

/-- Take the lowest document out. -/
def pop (queue : HitQueue S) : Option (ScoreDoc S × HitQueue S) :=
  queue.items.getLast?.map fun item => (item, { queue with items := queue.items.dropLast })

/-- Take documents out one after another, the lowest first. -/
def pops : ℕ → HitQueue S → List (ScoreDoc S)
  | 0, _ => []
  | n + 1, queue =>
    match queue.pop with
    | none => []
    | some (item, queue') => item :: pops n queue'

end HitQueue

theorem insert_items (items : List (ScoreDoc S)) (queue : HitQueue S) :
    (items.foldl HitQueue.insert queue).heapSize = queue.heapSize ∧
      (items.foldl HitQueue.insert queue).items = items.foldl
        (fun items item => (items.orderedInsert (· ≥ ·) item).take queue.heapSize) queue.items := by
  induction items generalizing queue with
  | nil => exact ⟨rfl, rfl⟩
  | cons item items ih => exact ih (queue.insert item)

omit [LinearOrder S] in
theorem pops_eq (n : ℕ) (queue : HitQueue S) : queue.pops n = queue.items.reverse.take n := by
  induction n generalizing queue with
  | zero => rfl
  | succ n ih =>
    rw [HitQueue.pops, HitQueue.pop]
    rcases List.eq_nil_or_concat queue.items with hnil | ⟨items, item, hsnoc⟩
    · simp [hnil]
    · simp [hsnoc, ih]

/-- What a search asks of each document. The property tables give the bits of an `int32_t`. -/
structure SearchKeywordOperation (S : Type) where
  /-- `groupFilter->test`, or true without a group filter. -/
  test : ℕ → Bool
  counterList : List String
  getInt32Value : String → ℕ → Option UInt32
  evaluate : ℕ → S

structure SearchThreadParam (S : Type) where
  threadId : ℕ := 0
  docIdBegin : ℕ := 0
  docIdEnd : ℕ := 0
  totalCount : ℕ := 0
  counterResults : Table String UInt32 := ∅
  scoreItemQueue : HitQueue S
  isSuccess : Bool := false

/-- One document that passed the filter. -/
def collect (operation : SearchKeywordOperation S) (param : SearchThreadParam S)
    (counterValues : List UInt32) (docId : ℕ) : SearchThreadParam S × List UInt32 :=
  ({ param with
      totalCount := param.totalCount + 1
      scoreItemQueue :=
        param.scoreItemQueue.insert { docId := docId, score := operation.evaluate docId } },
    List.zipWith (fun name value => value + (operation.getInt32Value name docId).getD 0)
      operation.counterList counterValues)

/-- The loop of `doSearch_`. A filtered document still moves the iterator on. -/
def doSearchLoop {σ : Type} [DocumentIterator σ] (operation : SearchKeywordOperation S) (it : σ)
    (param : SearchThreadParam S) (counterValues : List UInt32) :
    SearchThreadParam S × List UInt32 :=
  if param.docIdEnd ≤ doc it then
    (param, counterValues)
  else
    let r := if operation.test (doc it) then collect operation param counterValues (doc it)
      else (param, counterValues)
    if (next it).1 then doSearchLoop operation (next it).2 r.1 r.2 else r
termination_by size it
decreasing_by exact size_next it ‹_›

/-- The target of the skip is a `docid_t`. Where the skip ends is not looked at. -/
def doSearch {σ : Type} [DocumentIterator σ] (operation : SearchKeywordOperation S) (it : σ)
    (param : SearchThreadParam S) : SearchThreadParam S :=
  let r := doSearchLoop operation (skipTo (param.docIdBegin % 2 ^ 32) it).2 param
    (operation.counterList.map fun _ => 0)
  { r.1 with
    counterResults := (operation.counterList.zip r.2).foldl
      (fun results entry => Finmap.insert entry.1 entry.2 results) r.1.counterResults }

def averageDocNum (threadNum maxDoc : ℕ) : ℕ := maxDoc / threadNum + 1

def prepareThreadParams (threadNum maxDoc heapSize : ℕ) : List (SearchThreadParam S) :=
  (List.range threadNum).map fun i =>
    { threadId := i
      docIdBegin := i * averageDocNum threadNum maxDoc
      docIdEnd := (i + 1) * averageDocNum threadNum maxDoc
      scoreItemQueue := { heapSize := heapSize } }

/-- Add the results of one more thread to those of the master. -/
def mergeThreadParam (master param : SearchThreadParam S) : SearchThreadParam S :=
  { master with
    totalCount := master.totalCount + param.totalCount
    scoreItemQueue := (param.scoreItemQueue.pops param.scoreItemQueue.size).foldl
      HitQueue.insert master.scoreItemQueue
    counterResults := (param.counterResults.keys.sort (· ≤ ·)).foldl
      (fun results name => results.update name (· + param.counterResults.get name))
      master.counterResults }

/-- The results of all threads, unless one of them has failed. A single thread needs no merge. -/
def mergeThreadParams : List (SearchThreadParam S) → Option (SearchThreadParam S)
  | [] => none
  | [param] => some param
  | master :: params =>
    if master.isSuccess && params.all fun param => param.isSuccess then
      some (params.foldl mergeThreadParam master)
    else
      none

structure KeywordSearchResult (S : Type) where
  totalCount : ℕ
  counterResults : Table String UInt32
  topKDocs : List ℕ
  topKRankScoreList : List S

/-- The documents are popped from the last place of the result to the first. -/
def fetchSearchResult (offset : ℕ) (param : SearchThreadParam S) : KeywordSearchResult S :=
  let queue := param.scoreItemQueue
  let count := if offset < queue.size then queue.size - offset else 0
  let items := (queue.pops count).reverse
  { totalCount := param.totalCount
    counterResults := param.counterResults
    topKDocs := items.map fun item => item.docId
    topKRankScoreList := items.map fun item => item.score }

/-- `NormalSearch::search`. All threads read fresh iterators of one query; `succeeds` says in
which threads the search does not end with an exception. -/
def search {σ : Type} [DocumentIterator σ] (threadNum maxDoc : ℕ) (it : σ)
    (operation : SearchKeywordOperation S) (heapSize offset : ℕ) (succeeds : ℕ → Bool) :
    Option (KeywordSearchResult S) :=
  let threadParams := (prepareThreadParams threadNum maxDoc heapSize).map fun param =>
    { doSearch operation it param with isSuccess := succeeds param.threadId }
  if threadNum = 1 && !succeeds 0 then none
  else (mergeThreadParams threadParams).map (fetchSearchResult offset)

end AdDelivery.SearchManager
