import AdDelivery.Core.Run
import AdDelivery.SearchManager.NotQuery

/-!
# Walks of boolean iterators

A walk calls `next` and `skipTo` on an AND or OR iterator over lists of documents, with
any targets and whatever the calls report. Wherever it has come to a document, a skip to a
target from there on is right exactly when the first document of the positive part decides
what it has to report.
-/

namespace AdDelivery.SearchManager

open LawfulDocumentIterator

/-- An increasing list of document ids. -/
structure DocIdList where
  docs : List ℕ
  increasing : docs.Pairwise (· < ·)
  below : ∀ d ∈ docs, d < maxDocId

def DocIdList.iterator (list : DocIdList) : TermDocumentIterator :=
  ⟨list.docs, false, list.increasing, list.below⟩

inductive Connective
  | and
  | or

/-- An AND or an OR iterator with its NOT part. -/
inductive BooleanIterator (order : QueueOrder)
  | and (s : NotQuery ANDDocumentIterator (ORDocumentIterator order))
  | or (s : NotQuery (ORDocumentIterator order) (ORDocumentIterator order))

/-- The documents of the positive part. -/
def positiveDocs (positive : List DocIdList) : Connective → Set ℕ
  | .and => {x | positive ≠ [] ∧ ∀ list ∈ positive, x ∈ list.docs}
  | .or => {x | ∃ list ∈ positive, x ∈ list.docs}

def excludedDocs (excluded : List DocIdList) : Set ℕ := {x | ∃ list ∈ excluded, x ∈ list.docs}

open DocIdList

namespace BooleanIterator

variable {order : QueueOrder}

def orPart (order : QueueOrder) (lists : List DocIdList) (currDoc : ℕ) :
    ORDocumentIterator order where
  docIteratorList := lists.map iterator
  docIteratorQueue := none
  currDoc := currDoc
  unstarted _ it hit := by
    obtain ⟨list, -, rfl⟩ := List.mem_map.mp hit
    rfl
  queueOk queue h := absurd h.symm (Option.some_ne_none queue)

/-- A new iterator over the lists. The constructors leave `currDoc_` unset: `positiveDoc` and
`excludedDoc` are what is there. -/
def start (order : QueueOrder) (positive excluded : List DocIdList)
    (positiveDoc excludedDoc : ℕ) : Connective → BooleanIterator order
  | .and => .and ⟨⟨positive.map iterator, positiveDoc⟩, !excluded.isEmpty,
      orPart order excluded excludedDoc, maxDocId, false⟩
  | .or => .or ⟨orPart order positive positiveDoc, !excluded.isEmpty,
      orPart order excluded excludedDoc, maxDocId, false⟩

def next : BooleanIterator order → Bool × BooleanIterator order
  | .and s => (s.nextAND.1, .and s.nextAND.2)
  | .or s => (s.nextOR.1, .or s.nextOR.2)

def doc : BooleanIterator order → ℕ
  | .and s => s.currDoc
  | .or s => s.currDoc

def skipTo (target : ℕ) : BooleanIterator order → ℕ × BooleanIterator order
  | .and s => ((s.skipTo target).1, .and (s.skipTo target).2)
  | .or s => ((s.skipTo target).1, .or (s.skipTo target).2)

/-- What the exclusions have still to visit. -/
def excludedRest : BooleanIterator order → Set ℕ
  | .and s => rest s.notDocIterator
  | .or s => rest s.notDocIterator

end BooleanIterator

open BooleanIterator

/-- What the last call has reported. -/
inductive Report
  | fresh
  | found (d : ℕ)
  | nothing

inductive WalkCall
  | next
  | skipTo (target : ℕ)

structure Walk (order : QueueOrder) where
  iterator : BooleanIterator order
  report : Report

def Walk.call {order : QueueOrder} (w : Walk order) : WalkCall → Walk order
  | .next => ⟨w.iterator.next.2,
      if w.iterator.next.1 then .found w.iterator.next.2.doc else .nothing⟩
  | .skipTo target => ⟨(w.iterator.skipTo target).2,
      if (w.iterator.skipTo target).1 = maxDocId then .nothing
      else .found (w.iterator.skipTo target).1⟩

def WalkStep {order : QueueOrder} (w : Walk order) (c : WalkCall) (w' : Walk order) : Prop :=
  w' = w.call c

/-- The target is not below the current document. After a call that has reported nothing
there is none to compare with. -/
def Report.NotAbove (target : ℕ) : Report → Prop
  | .fresh => True
  | .found d => d ≤ target
  | .nothing => False

section Walks

variable {order : QueueOrder} {P N : Set ℕ}

/-- What the positive part has still to visit. -/
def BooleanIterator.positiveRest : BooleanIterator order → Set ℕ
  | .and s => rest s.positive
  | .or s => rest s.positive

def BooleanIterator.OnTrack (P N : Set ℕ) : BooleanIterator order → Prop
  | .and s => SearchManager.OnTrack P N s
  | .or s => SearchManager.OnTrack P N s

/-- The iterator is on track, and on the document that the last call has reported. -/
structure WalkOk (P N : Set ℕ) (w : Walk order) : Prop where
  onTrack : w.iterator.OnTrack P N
  fresh : w.report = .fresh → w.iterator.positiveRest = P
  found : ∀ d, w.report = .found d → IsLeast w.iterator.positiveRest d

variable {b : BooleanIterator order}

theorem BooleanIterator.next_spec (h : b.OnTrack P N) :
    b.next.2.OnTrack P N ∧ (b.next.1 = true → IsLeast b.next.2.positiveRest b.next.2.doc) := by
  cases b with
  | and s => exact ⟨(moved_nextAND h).onTrack, (moved_nextAND h).found⟩
  | or s => exact ⟨(moved_nextOR h).onTrack, (moved_nextOR h).found⟩

theorem BooleanIterator.skipTo_spec (h : b.OnTrack P N) (t : ℕ) : (b.skipTo t).2.OnTrack P N ∧
      ((b.skipTo t).1 ≠ maxDocId → IsLeast (b.skipTo t).2.positiveRest (b.skipTo t).1) := by
  cases b with
  | and s => exact SearchManager.skipTo_spec t h
  | or s => exact SearchManager.skipTo_spec t h

theorem walkOk_step (w : Walk order) (c : WalkCall) (w' : Walk order) (h : WalkOk P N w)
    (hstep : WalkStep w c w') : WalkOk P N w' := by
  subst hstep
  cases c with
  | next =>
    obtain ⟨htrack, hfound⟩ := next_spec h.onTrack
    unfold Walk.call
    cases hnext : w.iterator.next.1 with
    | false => exact ⟨htrack, Report.noConfusion, fun d => Report.noConfusion⟩
    | true =>
      refine ⟨htrack, Report.noConfusion, fun d hr => ?_⟩
      obtain rfl := Report.found.inj hr
      exact hfound hnext
  | skipTo target =>
    obtain ⟨htrack, hfound⟩ := BooleanIterator.skipTo_spec h.onTrack target
    unfold Walk.call
    dsimp only
    split
    · exact ⟨htrack, Report.noConfusion, fun d => Report.noConfusion⟩
    · rename_i hmax
      refine ⟨htrack, Report.noConfusion, fun d hr => ?_⟩
      obtain rfl := Report.found.inj hr
      exact hfound hmax

/-- From a target that is not below the current document on, nothing has been passed. -/
theorem WalkOk.sep_eq {w : Walk order} (h : WalkOk P N w) {t : ℕ} (ht : w.report.NotAbove t) :
    {x ∈ w.iterator.positiveRest | t ≤ x} = {x ∈ P | t ≤ x} := by
  have hpart : IsUpperPart P w.iterator.positiveRest := by
    have htrack := h.onTrack
    cases hit : w.iterator with
    | and s =>
      rw [hit] at htrack
      exact htrack.positive
    | or s =>
      rw [hit] at htrack
      exact htrack.positive
  cases hreport : w.report with
  | fresh => rw [h.fresh hreport]
  | found d =>
    rw [hreport] at ht
    exact hpart.sep_eq (h.found d hreport).1 ht
  | nothing =>
    rw [hreport] at ht
    exact ht.elim

theorem WalkOk.skipTo_first_iff {w : Walk order} (h : WalkOk P N w) {t : ℕ}
    (ht : w.report.NotAbove t) : FirstFrom (P \ N) maxDocId t (w.iterator.skipTo t).1 ↔
      FirstDecides P N w.iterator.excludedRest t := by
  have htrack := h.onTrack
  have hsep := h.sep_eq ht
  cases hit : w.iterator with
  | and s =>
    rw [hit] at htrack hsep
    exact SearchManager.skipTo_first_iff htrack hsep
  | or s =>
    rw [hit] at htrack hsep
    exact SearchManager.skipTo_first_iff htrack hsep

theorem rest_orPart (order : QueueOrder) (lists : List DocIdList) (currDoc : ℕ) :
    rest (orPart order lists currDoc) = excludedDocs lists := by
  ext x
  change (∃ it ∈ lists.map iterator, x ∈ it.docs) ↔ ∃ list ∈ lists, x ∈ list.docs
  simp only [List.mem_map, exists_exists_and_eq_and]
  rfl

theorem walkOk_start (order : QueueOrder) (connective : Connective)
    (positive excluded : List DocIdList) (positiveDoc excludedDoc : ℕ) :
    WalkOk (positiveDocs positive connective) (excludedDocs excluded)
      ⟨.start order positive excluded positiveDoc excludedDoc connective, .fresh⟩ := by
  have hexcluded := (rest_orPart order excluded excludedDoc).subset
  have hnone : (!excluded.isEmpty) = false → excludedDocs excluded = ∅ := by
    intro hempty
    obtain rfl : excluded = [] := by simpa using hempty
    ext x
    simp [excludedDocs]
  cases connective with
  | and =>
    have hrest : rest (⟨positive.map iterator, positiveDoc⟩ : ANDDocumentIterator) =
        positiveDocs positive .and := by
      ext x
      change (positive.map iterator ≠ [] ∧ ∀ it ∈ positive.map iterator,
        x ∈ it.docs) ↔ positive ≠ [] ∧ ∀ list ∈ positive, x ∈ list.docs
      rw [ne_eq, List.map_eq_nil_iff, List.forall_mem_map]
      rfl
    exact ⟨⟨hrest ▸ .refl _, hexcluded, hnone⟩, fun _ => hrest, fun d => Report.noConfusion⟩
  | or =>
    have hrest : rest (orPart order positive positiveDoc) =
        positiveDocs positive .or := rest_orPart order positive positiveDoc
    exact ⟨⟨hrest ▸ .refl _, hexcluded, hnone⟩, fun _ => hrest, fun d => Report.noConfusion⟩

/-- After any calls of `next` and `skipTo`, a skip to a target that is not below the current
document reports the first document of the query from there on exactly when the first
document of the positive part decides it. -/
theorem skipTo_first_iff_along (connective : Connective) (positive excluded : List DocIdList)
    (positiveDoc excludedDoc : ℕ) {calls : List WalkCall} {w : Walk order} (hrun : Run WalkStep
      ⟨.start order positive excluded positiveDoc excludedDoc connective, .fresh⟩ calls w)
    {t : ℕ} (ht : w.report.NotAbove t) :
    FirstFrom (positiveDocs positive connective \ excludedDocs excluded) maxDocId t
        (w.iterator.skipTo t).1 ↔
      FirstDecides (positiveDocs positive connective) (excludedDocs excluded)
        w.iterator.excludedRest t :=
  (hrun.invariant walkOk_step (walkOk_start order connective positive excluded positiveDoc
    excludedDoc)).skipTo_first_iff ht

end Walks

/-- A queue that is sorted by document. -/
def sortedQueue : QueueOrder where
  adjust := List.insertionSort fun a b => a.iter.doc ≤ b.iter.doc
  perm := List.perm_insertionSort _
  least queue top others h entry hentry := by
    have hsorted := List.pairwise_insertionSort
      (fun a b : QueueEntry => a.iter.doc ≤ b.iter.doc) queue
    rw [h] at hsorted
    exact (List.pairwise_cons.mp hsorted).1 entry hentry

def docs58 : DocIdList := ⟨[5, 8], by decide, by decide⟩

def docs5 : DocIdList := ⟨[5], by decide, by decide⟩

theorem isLeast_docs58 {t p : ℕ} (hp : p ∈ docs58.docs) (ht : t ≤ p)
    (hfirst : ∀ x ∈ docs58.docs, t ≤ x → p ≤ x) (connective : Connective) :
    IsLeast {x ∈ positiveDocs [docs58] connective | t ≤ x} p := by
  have hdocs : positiveDocs [docs58] connective = {x | x ∈ docs58.docs} := by
    ext x
    cases connective <;> simp [positiveDocs]
  rw [hdocs]
  exact ⟨⟨hp, ht⟩, fun x hx => hfirst x hx.1 hx.2⟩

/-- Above the excluded document the skip is right. -/
theorem skipTo_first_above_excluded : ∃ w : Walk sortedQueue,
      Run WalkStep ⟨.start sortedQueue [docs58] [docs5] 0 0 .or, .fresh⟩ [] w ∧
      w.report.NotAbove 6 ∧ FirstFrom (positiveDocs [docs58] .or \ excludedDocs [docs5]) maxDocId 6
        (w.iterator.skipTo 6).1 := by
  refine ⟨_, .nil _, trivial, (skipTo_first_iff_along .or [docs58] [docs5] 0 0
    (.nil _) trivial).mpr fun p hp => .inl ?_⟩
  obtain rfl : p = 8 := hp.unique (isLeast_docs58 (by decide) (by decide) (by decide) .or)
  simp [excludedDocs, docs5]

/-- On the excluded document the skip gives up, although the query has a document above. -/
theorem not_skipTo_first_excluded : ∃ w : Walk sortedQueue,
      Run WalkStep ⟨.start sortedQueue [docs58] [docs5] 0 0 .and, .fresh⟩ [] w ∧
      w.report.NotAbove 5 ∧
      ¬FirstFrom (positiveDocs [docs58] .and \ excludedDocs [docs5]) maxDocId 5
        (w.iterator.skipTo 5).1 := by
  have hok := walkOk_start sortedQueue .and [docs58] [docs5] 0 0
  refine ⟨_, .nil _, trivial, fun hfirst => ?_⟩
  have hdecides := (hok.skipTo_first_iff (t := 5) trivial).mp hfirst 5
    (isLeast_docs58 (by decide) (by decide) (by decide) .and)
  rcases hdecides with hnot | ⟨-, hall⟩
  · exact hnot (by simp [excludedDocs, docs5])
  · have h8 := hall 8 (by simp [positiveDocs, docs58]) (by decide)
    simp [excludedDocs, docs5] at h8

end AdDelivery.SearchManager
