import AdDelivery.SearchManager.ParallelSearch

/-!
# All documents

A search for everything walks all document ids up to the last one. The skip of its iterator goes
one document past the target, so a search with several threads loses the first document of every
range but the first.
-/

namespace AdDelivery.SearchManager

open List

/-- The iterator of an index without deleted documents. It is on no document at first. -/
structure AllDocumentIterator where
  currDoc : ℕ
  maxDoc : ℕ
  below : maxDoc < maxDocId

namespace AllDocumentIterator

def next (it : AllDocumentIterator) : Bool × AllDocumentIterator :=
  (decide (it.currDoc + 1 ≤ it.maxDoc), { it with currDoc := it.currDoc + 1 })

def doc (it : AllDocumentIterator) : ℕ := it.currDoc

/-- The target is increased before it is taken. -/
def skipTo (target : ℕ) (it : AllDocumentIterator) : ℕ × AllDocumentIterator :=
  let currDoc := if it.currDoc > target then it.currDoc else target + 1
  (if currDoc > it.maxDoc then maxDocId else currDoc, { it with currDoc := currDoc })

instance : DocumentIterator AllDocumentIterator where
  next := next
  doc := doc
  skipTo := skipTo
  size it := it.maxDoc - it.currDoc
  size_next it h := by
    have hle : it.currDoc + 1 ≤ it.maxDoc := of_decide_eq_true h
    change it.maxDoc - (it.currDoc + 1) < it.maxDoc - it.currDoc
    omega
  skipTo_found target it := by
    have hbelow := it.below
    simp only [skipTo]
    generalize hcurr : (if it.currDoc > target then it.currDoc else target + 1) = currDoc
    have hle : target ≤ currDoc := by
      rw [← hcurr]
      split <;> omega
    split
    · exact .inl rfl
    · exact .inr ⟨hle, by omega⟩

variable {maxDoc threadNum : ℕ}

/-- The query for all documents. -/
def stream (maxDoc : ℕ) (hmax : maxDoc < maxDocId) : DocumentStream AllDocumentIterator where
  fresh := { currDoc := 0, maxDoc := maxDoc, below := hmax }
  docs := List.range' 1 maxDoc
  maxDoc := maxDoc
  increasing := pairwise_lt_range'
  le_max d hd := by
    have := mem_range'_1.mp hd
    omega
  Reached it := it.maxDoc = maxDoc
  reached_skipTo _ := rfl
  reached_next _ h _ := h
  next_found it h hnext := by
    have hle : it.currDoc + 1 ≤ it.maxDoc := of_decide_eq_true hnext
    refine ⟨⟨mem_range'_1.mpr ?_, Nat.lt_succ_self _⟩, fun d hd => hd.2⟩
    change 1 ≤ it.currDoc + 1 ∧ it.currDoc + 1 < 1 + maxDoc
    omega
  next_end it h hnext d hd := by
    have hlt : ¬ it.currDoc + 1 ≤ it.maxDoc := of_decide_eq_false hnext
    have hd' := mem_range'_1.mp hd
    change d ≤ it.currDoc
    omega
  plain := by
    have hinc : (List.range' 1 maxDoc).Pairwise (· < ·) := pairwise_lt_range'
    refine (stretch_increasing hinc _ _).eq_of_mem_iff hinc fun d => ?_
    rw [mem_stretch, mem_range'_1]
    change d < maxDoc + 1 ∧ (d = 1 ∨ (1 ≤ d ∧ d < 1 + maxDoc) ∧ 1 < d) ↔
      1 ≤ d ∧ d < 1 + maxDoc
    omega

variable (hmax : maxDoc < maxDocId)

theorem skipTo_fresh (target : ℕ) :
    (skipTo target (stream maxDoc hmax).fresh).2.currDoc = target + 1 := by
  change (if target < 0 then 0 else target + 1) = target + 1
  exact if_neg (Nat.not_lt_zero target)

theorem firstDoc_stream {i : ℕ} (hfit : i * averageDocNum threadNum maxDoc < 2 ^ 32) :
    (stream maxDoc hmax).firstDoc threadNum i = i * averageDocNum threadNum maxDoc + 1 := by
  change (skipTo (i * averageDocNum threadNum maxDoc % 2 ^ 32)
    (stream maxDoc hmax).fresh).2.currDoc = _
  rw [skipTo_fresh, Nat.mod_eq_of_lt hfit]

/-- The range of a thread ends below the ids that the threads fit into. -/
theorem range_fits {i : ℕ} (hi : i < threadNum) (hfit : maxDoc + threadNum ≤ maxDocId) :
    i * averageDocNum threadNum maxDoc < 2 ^ 32 := by
  have hle : i * averageDocNum threadNum maxDoc ≤ threadNum * averageDocNum threadNum maxDoc :=
    Nat.mul_le_mul_right _ hi.le
  have hranges := DocumentStream.ranges_le threadNum maxDoc
  simp only [maxDocId] at hfit
  omega

/-- No thread steps on the first document of the second range. -/
theorem notMem_stretch (hfit : maxDoc + threadNum ≤ maxDocId) {i : ℕ} (hi : i < threadNum) :
    averageDocNum threadNum maxDoc ∉
      stretch (List.range' 1 maxDoc) ((stream maxDoc hmax).firstDoc threadNum i)
        ((i + 1) * averageDocNum threadNum maxDoc) := by
  rw [mem_stretch, firstDoc_stream hmax (range_fits hi hfit)]
  rintro ⟨hend, hbegin⟩
  cases i with
  | zero =>
    rw [Nat.one_mul] at hend
    exact absurd hend (Nat.lt_irrefl _)
  | succ i =>
    rw [Nat.succ_mul] at hbegin
    omega

theorem averageDocNum_mem (hthreads : 2 ≤ threadNum) (hdocs : 1 ≤ maxDoc) :
    averageDocNum threadNum maxDoc ∈ List.range' 1 maxDoc := by
  have hhalf : maxDoc / threadNum ≤ maxDoc / 2 := Nat.div_le_div_left hthreads Nat.two_pos
  rw [mem_range'_1, averageDocNum]
  generalize maxDoc / threadNum = q at hhalf
  omega

theorem not_covers_stream (hfit : maxDoc + threadNum ≤ maxDocId) (hthreads : 2 ≤ threadNum)
    (hdocs : 1 ≤ maxDoc) : ¬ (stream maxDoc hmax).Covers threadNum := by
  intro hcovers
  obtain ⟨i, hi, hstretch⟩ := mem_flatMap.mp
    (hcovers.mem_iff.mpr (averageDocNum_mem hthreads hdocs))
  exact notMem_stretch hmax hfit (mem_range.mp hi) hstretch

theorem notMem_visitedByAll (hfit : maxDoc + threadNum ≤ maxDocId) :
    averageDocNum threadNum maxDoc ∉ visitedByAll threadNum maxDoc (stream maxDoc hmax).fresh := by
  have hvisited := (stream maxDoc hmax).visitedByAll_eq threadNum
  intro hin
  obtain ⟨i, hi, hstretch⟩ := mem_flatMap.mp (hvisited ▸ hin)
  exact notMem_stretch hmax hfit (mem_range.mp hi) hstretch

/-- The smallest index that is searched in parallel, with two threads: document 40001, the first
of the second range, is not found. -/
theorem not_parallelAgrees_all : 40001 ∈ (stream 80000 (by decide)).docs ∧
      40001 ∉ visitedByAll 2 80000 (stream 80000 (by decide)).fresh ∧
      ¬ (stream 80000 (by decide)).ParallelAgrees 2 := by
  have hfit : 80000 + 2 ≤ maxDocId := by decide
  have hmem : averageDocNum 2 80000 ∈ List.range' 1 80000 :=
    averageDocNum_mem le_rfl (by decide)
  refine ⟨hmem, notMem_visitedByAll _ hfit, fun h => ?_⟩
  exact not_covers_stream _ hfit le_rfl (by decide)
    (DocumentStream.covers_of_parallelAgrees (by decide) h)

end AllDocumentIterator

end AdDelivery.SearchManager
