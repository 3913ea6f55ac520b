import AdDelivery.SearchManager.Nested.ANDDocumentIterator
import AdDelivery.SearchManager.Nested.AllDocumentIterator
import AdDelivery.SearchManager.Nested.ORDocumentIterator
import AdDelivery.SearchManager.Nested.PhraseDocumentIterator

/-!
# Trees of iterators

Term, filter, phrase and all-document iterators, and AND and OR iterators over them to any depth.
Where a skip may leave its document follows from the leaves: a phrase is always left, and so is
the target by an iterator over all documents.
-/

namespace AdDelivery.SearchManager.Nested

open SkipIterator RestingIterator Prod Option

/-- An iterator of the one kind or the other. -/
instance {σ τ : Type} [RestingIterator σ] [RestingIterator τ] : RestingIterator (σ ⊕ τ) where
  next := Sum.elim (fun a => (next a).map (map id Sum.inl))
    fun b => (next b).map (map id Sum.inr)
  doc := Sum.elim doc doc
  skipTo t := Sum.elim (fun a => (skipTo t a).map (map id Sum.inl))
    fun b => (skipTo t b).map (map id Sum.inr)
  doc_skipTo {t r s s'} h hr := by
    cases s with
    | inl a =>
      obtain ⟨⟨found, a'⟩, hskip, heq⟩ := map_eq_some_iff.mp h
      obtain ⟨rfl, rfl⟩ := mk.inj heq
      exact doc_skipTo hskip hr
    | inr b =>
      obtain ⟨⟨found, b'⟩, hskip, heq⟩ := map_eq_some_iff.mp h
      obtain ⟨rfl, rfl⟩ := mk.inj heq
      exact doc_skipTo hskip hr
  At d := Sum.elim (At d) (At d)
  Rests t := Sum.elim (Rests t) (Rests t)
  at_next {s s'} h := by
    cases s with
    | inl a =>
      obtain ⟨⟨found, a'⟩, hnext, heq⟩ := map_eq_some_iff.mp h
      obtain ⟨rfl, rfl⟩ := mk.inj heq
      exact at_next hnext
    | inr b =>
      obtain ⟨⟨found, b'⟩, hnext, heq⟩ := map_eq_some_iff.mp h
      obtain ⟨rfl, rfl⟩ := mk.inj heq
      exact at_next hnext
  at_skipTo {t r s s'} h hr := by
    cases s with
    | inl a =>
      obtain ⟨⟨found, a'⟩, hskip, heq⟩ := map_eq_some_iff.mp h
      obtain ⟨rfl, rfl⟩ := mk.inj heq
      exact at_skipTo hskip hr
    | inr b =>
      obtain ⟨⟨found, b'⟩, hskip, heq⟩ := map_eq_some_iff.mp h
      obtain ⟨rfl, rfl⟩ := mk.inj heq
      exact at_skipTo hskip hr
  stays {d t s} hat hd ht hrests := by
    cases s with
    | inl a =>
      obtain ⟨a', hskip⟩ := stays (s := a) hat hd ht hrests
      exact ⟨.inl a', map_eq_some_iff.mpr ⟨_, hskip, rfl⟩⟩
    | inr b =>
      obtain ⟨b', hskip⟩ := stays (s := b) hat hd ht hrests
      exact ⟨.inr b', map_eq_some_iff.mpr ⟨_, hskip, rfl⟩⟩
  leaves {d t r s s'} hat hd ht hnot h := by
    cases s with
    | inl a =>
      obtain ⟨⟨found, a'⟩, hskip, heq⟩ := map_eq_some_iff.mp h
      obtain ⟨rfl, -⟩ := mk.inj heq
      exact leaves (s := a) hat hd ht hnot hskip
    | inr b =>
      obtain ⟨⟨found, b'⟩, hskip, heq⟩ := map_eq_some_iff.mp h
      obtain ⟨rfl, -⟩ := mk.inj heq
      exact leaves (s := b) hat hd ht hnot hskip

/-- Term and filter iterators are iterators over one list. -/
abbrev LeafIterator : Type := TermDocumentIterator ⊕ PhraseDocumentIterator ⊕ AllDocumentIterator

/-- Iterators with at most `n` AND and OR iterators above each other. -/
def Iterator (order : HeapOrder) : ℕ → Type
  | 0 => LeafIterator
  | n + 1 => LeafIterator ⊕ ANDDocumentIterator (Iterator order n) ⊕
      ORDocumentIterator order (Iterator order n)

instance restingIterator (order : HeapOrder) : (n : ℕ) → RestingIterator (Iterator order n)
  | 0 => inferInstanceAs (RestingIterator LeafIterator)
  | n + 1 =>
    let _ : RestingIterator (Iterator order n) := restingIterator order n
    inferInstanceAs (RestingIterator (LeafIterator ⊕ ANDDocumentIterator (Iterator order n) ⊕
      ORDocumentIterator order (Iterator order n)))

/-- Wherever `next` or `skipTo` has come to a document, a skip to a target that is not above
leaves the iterator there exactly when the iterator rests at the target. -/
theorem skipTo_stays_iff (order : HeapOrder) (n : ℕ) {d t : ℕ} {s : Iterator order n}
    (h : Positioned d s) (ht : t ≤ d) : Stays t d s ↔ Rests t s :=
  h.stays_iff ht

/-- A queue that is sorted by document. -/
def sortedHeap : HeapOrder where
  adjust doc := List.insertionSort fun a b => doc a ≤ doc b
  perm _ queue := List.perm_insertionSort _ queue
  least doc queue top others h entry hentry := by
    have hsorted := List.pairwise_insertionSort (fun a b => doc a ≤ doc b) queue
    rw [h] at hsorted
    exact (List.pairwise_cons.mp hsorted).1 entry hentry

/-- All documents up to 9, with the fourth one read last. -/
def all4 : AllDocumentIterator where
  delTermDocFreqs := none
  currDelDoc := 0
  currDoc := 4
  maxDoc := 9
  below := by decide

/-- An AND iterator with a single child comes to its next document. -/
theorem positioned_all4 : ∃ s : Iterator sortedHeap 1, Positioned 5 s ∧ ∀ t, Rests t s ↔ t < 5 := by
  have hnext : next (.inr (.inl ⟨[.inr (.inr all4)], 4⟩) : Iterator sortedHeap 1) =
      some (true, .inr (.inl ⟨[.inr (.inr { all4 with currDoc := 5 })], 5⟩)) := rfl
  refine ⟨_, ⟨by decide, .inl ⟨_, hnext, rfl⟩⟩, fun t => ?_⟩
  change (t < 5 ∧ ∀ del ∈ none, 0 ≤ t → 5 ∉ TermDocumentIterator.docs del) ∧ _ ↔ t < 5
  simp

/-- From a target below it stays on the document. -/
theorem skipTo_stays_below : ∃ s : Iterator sortedHeap 1, Positioned 5 s ∧ Stays 3 5 s := by
  obtain ⟨s, hpositioned, hrests⟩ := positioned_all4
  refine ⟨s, hpositioned, ?_⟩
  exact (skipTo_stays_iff sortedHeap 1 hpositioned (by decide)).mpr ((hrests 3).mpr (by decide))

/-- Skipping to the document itself leaves it. -/
theorem not_skipTo_stays : ∃ s : Iterator sortedHeap 1, Positioned 5 s ∧ ¬Stays 5 5 s := by
  obtain ⟨s, hpositioned, hrests⟩ := positioned_all4
  refine ⟨s, hpositioned, fun hstays => ?_⟩
  exact lt_irrefl 5 ((hrests 5).mp ((hpositioned.stays_iff le_rfl).mp hstays))

end AdDelivery.SearchManager.Nested
