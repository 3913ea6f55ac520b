import AdDelivery.SearchManager.AllDocumentIterator
import AdDelivery.SearchManager.Nested.ANDDocumentIterator
import AdDelivery.SearchManager.Nested.AllDocumentIterator
import AdDelivery.SearchManager.Nested.ORDocumentIterator
import AdDelivery.SearchManager.ORDocumentIterator

/-!
# Iterators over term lists

The iterators over any children do over term lists what the iterators over term lists do, and
without deleted documents all documents are walked the same way.
-/

namespace AdDelivery.SearchManager.Nested

open List TermDocumentIterator

namespace AllDocumentIterator

/-- No document has been deleted. -/
def ofFlat (it : SearchManager.AllDocumentIterator) : AllDocumentIterator :=
  ⟨none, 0, it.currDoc, it.maxDoc, it.below⟩

/-- Below the last id both go to the same document. -/
theorem next_ofFlat {it : SearchManager.AllDocumentIterator} (h : it.currDoc < maxDocId) :
    (ofFlat it).next = (it.next.1, ofFlat it.next.2) := by
  simp only [next, ofFlat, increment_eq h]
  rfl

theorem skipTo_ofFlat (it : SearchManager.AllDocumentIterator) {target : ℕ}
    (h : target < maxDocId) :
    (ofFlat it).skipTo target = some ((it.skipTo target).1, ofFlat (it.skipTo target).2) := by
  simp only [skipTo, ofFlat, past, increment_eq h]
  rfl

end AllDocumentIterator

/-- The loop over term lists comes to an end, and to the same one. -/
theorem leapfrog_terms (n target nMatch : ℕ) (docIterList : List TermDocumentIterator) :
    leapfrog n target nMatch docIterList =
      some (SearchManager.leapfrog n target nMatch docIterList) := by
  fun_induction SearchManager.leapfrog n target nMatch docIterList with
  | case1 target nMatch hmatch => rw [leapfrog.eq_def, if_pos hmatch]
  | case2 target nMatch hmatch front others hmax =>
    rw [leapfrog.eq_def, if_pos hmatch]
    exact if_pos hmax.ge
  | case3 target nMatch hmatch front others hmax hfound ih =>
    have hlt := (skipTo_found hmax).2.1
    rw [leapfrog.eq_def, if_pos hmatch, ← ih]
    exact (if_neg hlt.not_ge).trans (if_pos hfound)
  | case4 target nMatch hmatch front others hmax hfound habove ih =>
    have hlt := (skipTo_found hmax).2.1
    rw [leapfrog.eq_def, if_pos hmatch, ← ih]
    exact (if_neg hlt.not_ge).trans ((if_neg hfound).trans (if_pos habove))
  | case5 target nMatch hmatch front others hmax hfound habove =>
    have hle := (skipTo_found hmax).1
    exact absurd (lt_of_le_of_ne hle (Ne.symm hfound)) habove
  | case6 target nMatch docIterList hmatch => rw [leapfrog.eq_def, if_neg hmatch]

namespace ANDDocumentIterator

def ofFlat (s : SearchManager.ANDDocumentIterator) : ANDDocumentIterator TermDocumentIterator :=
  ⟨s.docIterList, s.currDoc⟩

theorem next_ofFlat (s : SearchManager.ANDDocumentIterator) :
    (ofFlat s).next = some (s.doNext.1, ofFlat s.doNext.2) := by
  obtain ⟨docIterList, currDoc⟩ := s
  cases docIterList with
  | nil => rfl
  | cons front others =>
    have hnext : SkipIterator.next front = some (front.next.1, front.next.2) := rfl
    simp only [ofFlat, next, SearchManager.ANDDocumentIterator.doNext, leapfrog_terms, hnext]
    cases front.next.1 with
    | false => rfl
    | true =>
      simp only [if_true]
      split
      · rfl
      · cases SearchManager.leapfrog (others.length + 1) front.next.2.doc 1
            (others ++ [front.next.2]) with
        | mk found docIterList => cases found <;> rfl

theorem skipTo_ofFlat (s : SearchManager.ANDDocumentIterator) (target : ℕ) :
    (ofFlat s).skipTo target = some ((s.doSkipTo target).1, ofFlat (s.doSkipTo target).2) := by
  simp only [ofFlat, skipTo, SearchManager.ANDDocumentIterator.doSkipTo, leapfrog_terms]
  cases SearchManager.leapfrog s.docIterList.length target 0 s.docIterList with
  | mk found docIterList => cases found <;> rfl

end ANDDocumentIterator

section Queue

def nestEntry (entry : SearchManager.QueueEntry) : QueueEntry TermDocumentIterator :=
  ⟨entry.iter, entry.current⟩

/-- The order of a queue of term lists. -/
def HeapOrder.toFlat (order : HeapOrder) : QueueOrder where
  adjust queue :=
    (order.adjust QueueEntry.doc (queue.map nestEntry)).map fun entry =>
      ⟨entry.iter, entry.current⟩
  perm queue := by
    have hperm := (order.perm QueueEntry.doc (queue.map nestEntry)).map fun entry =>
      SearchManager.QueueEntry.mk entry.iter entry.current
    rwa [map_map, map_id''] at hperm
    exact fun _ => rfl
  least queue top others h := by
    obtain ⟨top, rest, hadjust, rfl, rfl⟩ := map_eq_cons_iff.mp h
    exact forall_mem_map.mpr (order.least QueueEntry.doc _ top rest hadjust)

variable (order : HeapOrder) (queue : List SearchManager.QueueEntry)

theorem map_adjust : (order.toFlat.adjust queue).map nestEntry =
    order.adjust QueueEntry.doc (queue.map nestEntry) :=
  (map_map ..).trans (map_id'' (fun _ => rfl) _)

theorem setCurrent_nest (currDoc : ℕ) : setCurrent currDoc (queue.map nestEntry) =
    (SearchManager.setCurrent currDoc queue).map nestEntry := by
  rw [setCurrent, SearchManager.setCurrent, map_map, map_map]
  rfl

theorem passCurrent_nest : passCurrent order (queue.map nestEntry) =
    some ((SearchManager.passCurrent order.toFlat queue).map nestEntry) := by
  fun_induction SearchManager.passCurrent order.toFlat queue with
  | case1 => rw [map_nil, passCurrent.eq_def]
  | case2 top others hcurrent hnext ih =>
    have hfront : SkipIterator.next top.iter = some (true, top.iter.next.2) :=
      congrArg some (Prod.ext hnext rfl)
    rw [map_cons, passCurrent.eq_def, ← ih, map_adjust]
    simp only [nestEntry, if_pos hcurrent, hfront, map_cons]
  | case3 top others hcurrent hnext ih =>
    have hfront : SkipIterator.next top.iter = some (false, top.iter.next.2) :=
      congrArg some (Prod.ext (Bool.not_eq_true _ ▸ hnext) rfl)
    rw [map_cons, passCurrent.eq_def, ← ih, map_adjust]
    simp only [nestEntry, if_pos hcurrent, hfront]
  | case4 top others hcurrent =>
    rw [map_cons, passCurrent.eq_def]
    exact if_neg hcurrent

theorem skipTops_nest (target : ℕ) : skipTops order target (queue.map nestEntry) =
    some ((SearchManager.skipTops order.toFlat target queue).map nestEntry) := by
  fun_induction SearchManager.skipTops order.toFlat target queue with
  | case1 => rw [map_nil, skipTops.eq_def]
  | case2 top others hle =>
    rw [map_cons, skipTops.eq_def, ← setCurrent_nest]
    exact if_pos hle
  | case3 top others hle hfound ih =>
    rw [map_cons, skipTops.eq_def, ← ih, map_adjust]
    exact (if_neg hle).trans (if_pos hfound)
  | case4 top others hle hfound ih =>
    rw [map_cons, skipTops.eq_def, ← ih, map_adjust]
    exact (if_neg hle).trans (if_neg hfound)

theorem initDocIteratorQueue_nest (docIteratorList : List TermDocumentIterator) :
    initDocIteratorQueue order docIteratorList =
      some ((SearchManager.initDocIteratorQueue order.toFlat docIteratorList).map nestEntry) := by
  rw [SearchManager.initDocIteratorQueue, map_adjust, initDocIteratorQueue]
  apply Option.map_eq_some_iff.mpr ⟨_, ?_, rfl⟩
  induction docIteratorList with
  | nil => rfl
  | cons it docIteratorList ih =>
    have hnext : SkipIterator.next it = some (it.next.1, it.next.2) := rfl
    rw [startChildren, hnext, filterMap_cons]
    cases it.next.1 with
    | false => exact ih
    | true => exact congrArg (Option.map _) ih

end Queue

namespace ORDocumentIterator

variable {order : HeapOrder}

def ofFlat (s : SearchManager.ORDocumentIterator order.toFlat) :
    ORDocumentIterator order TermDocumentIterator :=
  ⟨s.docIteratorList, s.docIteratorQueue.map (·.map nestEntry), s.currDoc⟩

variable (s : SearchManager.ORDocumentIterator order.toFlat)
  {queue : List SearchManager.QueueEntry}

theorem goToTop_ofFlat (hok : QueueOk queue) : (ofFlat s).goToTop (queue.map nestEntry) =
    ((s.goToTop queue hok).1, ofFlat (s.goToTop queue hok).2) := by
  cases queue with
  | nil => rfl
  | cons top others =>
    rw [map_cons, goToTop, ← map_cons, setCurrent_nest]
    rfl

theorem next_ofFlat : (ofFlat s).next = some (s.doNext.1, ofFlat s.doNext.2) := by
  obtain ⟨docIteratorList, docIteratorQueue, currDoc, hunstarted, hok⟩ := s
  cases docIteratorQueue with
  | none =>
    cases docIteratorList with
    | nil => rfl
    | cons it docIteratorList =>
      change (initDocIteratorQueue order (it :: docIteratorList)).map _ = _
      rw [initDocIteratorQueue_nest]
      exact congrArg some (goToTop_ofFlat ⟨_, none, currDoc, hunstarted, hok⟩ _)
  | some queue =>
    change (passCurrent order (queue.map nestEntry)).map _ = _
    rw [passCurrent_nest]
    exact congrArg some (goToTop_ofFlat ⟨_, some queue, currDoc, hunstarted, hok⟩ _)

/-- What is found, and what is left in the queue. -/
theorem report_ofFlat (queue : List SearchManager.QueueEntry) :
    let found := ((queue.head?.map fun top => top.iter.doc).getD maxDocId)
    (ofFlat s).report (queue.map nestEntry) =
      (found, ⟨s.docIteratorList, some (queue.map nestEntry), found⟩) := by
  cases queue with
  | nil => rfl
  | cons top others => rfl

theorem skipTo_ofFlat (target : ℕ) :
    (ofFlat s).skipTo target = some ((s.doSkipTo target).1, ofFlat (s.doSkipTo target).2) := by
  obtain ⟨docIteratorList, docIteratorQueue, currDoc, hunstarted, hok⟩ := s
  cases docIteratorQueue with
  | none =>
    cases docIteratorList with
    | nil => rfl
    | cons it docIteratorList =>
      simp only [ofFlat, skipTo, Option.map_none, initDocIteratorQueue_nest, skipTops_nest]
      exact congrArg some (report_ofFlat ⟨_, none, currDoc, hunstarted, hok⟩ _)
  | some queue =>
    simp only [ofFlat, skipTo, Option.map_some, skipTops_nest]
    exact congrArg some (report_ofFlat ⟨_, some queue, currDoc, hunstarted, hok⟩ _)

end ORDocumentIterator

end AdDelivery.SearchManager.Nested
