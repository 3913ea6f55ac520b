import AdDelivery.SearchManager.DocumentIterator

/-!
# Skips to a target that is not above

An iterator that has come to a document stays there when it skips to a target that is not above
the document: so the callers of a skip expect. Not every iterator does. The classes say when one
does, and what it has to provide so that the iterators made of it can be judged as well. A call
may go on forever, so that the operations are partial.
-/

namespace AdDelivery.SearchManager.Nested

/-- The operations of an iterator. A call that does not come to an end has no result. -/
class SkipIterator (σ : Type) where
  next : σ → Option (Bool × σ)
  doc : σ → ℕ
  skipTo : ℕ → σ → Option (ℕ × σ)
  /-- A skip that finds a document is on it. -/
  doc_skipTo : ∀ {t r : ℕ} {s s' : σ}, skipTo t s = some (r, s') → r ≠ maxDocId → doc s' = r

/-- `At d s` says that the iterator has come to the document `d` with all that it is made of,
`Rests t s` that a skip to `t` leaves it there. -/
class RestingIterator (σ : Type) extends SkipIterator σ where
  At : ℕ → σ → Prop
  Rests : ℕ → σ → Prop
  at_next : ∀ {s s' : σ}, next s = some (true, s') → At (doc s') s'
  at_skipTo : ∀ {t r : ℕ} {s s' : σ}, skipTo t s = some (r, s') → r ≠ maxDocId → At r s'
  stays : ∀ {d t : ℕ} {s : σ}, At d s → d < maxDocId → t ≤ d → Rests t s →
    ∃ s', skipTo t s = some (d, s')
  leaves : ∀ {d t r : ℕ} {s s' : σ}, At d s → d < maxDocId → t ≤ d → ¬Rests t s →
    skipTo t s = some (r, s') → d < r

open SkipIterator RestingIterator

variable {σ : Type}

/-- A call of `next` or `skipTo` has come to the document. -/
def Positioned [SkipIterator σ] (d : ℕ) (s : σ) : Prop :=
  d < maxDocId ∧ ((∃ before : σ, next before = some (true, s) ∧ doc s = d) ∨
    ∃ (before : σ) (t : ℕ), skipTo t before = some (d, s))

/-- A skip to the target reports the document, and the iterator is still on it. -/
def Stays [SkipIterator σ] (t d : ℕ) (s : σ) : Prop :=
  ∃ s' : σ, skipTo t s = some (d, s') ∧ doc s' = d

theorem Positioned.at [RestingIterator σ] {d : ℕ} {s : σ} (h : Positioned d s) : At d s := by
  obtain ⟨hd, ⟨before, hnext, rfl⟩ | ⟨before, t, hskip⟩⟩ := h
  · exact at_next hnext
  · exact at_skipTo hskip hd.ne

/-- Up to the document, exactly the targets the iterator rests at leave it there. -/
theorem Positioned.stays_iff [RestingIterator σ] {d t : ℕ} {s : σ} (h : Positioned d s)
    (ht : t ≤ d) : Stays t d s ↔ Rests t s := by
  constructor
  · rintro ⟨s', hskip, -⟩
    by_contra hnot
    exact lt_irrefl d (leaves h.at h.1 ht hnot hskip)
  · intro hrests
    obtain ⟨s', hskip⟩ := stays h.at h.1 ht hrests
    exact ⟨s', hskip, doc_skipTo hskip h.1.ne⟩

end AdDelivery.SearchManager.Nested

namespace AdDelivery.SearchManager.TermDocumentIterator

/-- The iterator has been started, and the document is the first one left. -/
structure OnDoc (d : ℕ) (it : TermDocumentIterator) : Prop where
  started : it.started = true
  head : it.docs.head? = some d

variable {it : TermDocumentIterator} {d t : ℕ}

theorem OnDoc.doc_eq (h : it.OnDoc d) : it.doc = d := by
  rw [doc, List.headD_eq_head?_getD, h.head, Option.getD_some]

theorem onDoc_next (h : it.next.1 = true) : it.next.2.OnDoc it.next.2.doc := by
  refine ⟨rfl, ?_⟩
  unfold doc
  cases hdocs : it.next.2.docs with
  | nil => exact absurd hdocs (next_docs_ne_nil h)
  | cons d docs => rfl

theorem onDoc_skipTo (h : (it.skipTo t).1 ≠ maxDocId) : (it.skipTo t).2.OnDoc (it.skipTo t).1 :=
  ⟨rfl, (skipTo_found h).2.2⟩

/-- A skip to a target that is not above changes nothing. -/
theorem OnDoc.skipTo_eq (h : it.OnDoc d) (ht : t ≤ d) : it.skipTo t = (d, it) := by
  obtain ⟨docs, hdocs⟩ := List.head?_eq_some_iff.mp h.head
  have hdrop : it.docs.dropWhile (· < t) = it.docs := by
    rw [hdocs, List.dropWhile_cons_of_neg (by simpa using ht)]
  apply Prod.ext
  · change (it.docs.dropWhile (· < t)).headD maxDocId = d
    rw [hdrop, hdocs]
    rfl
  · change TermDocumentIterator.mk (it.docs.dropWhile (· < t)) true _ _ = it
    cases it
    congr
    exact h.started.symm

end AdDelivery.SearchManager.TermDocumentIterator

namespace AdDelivery.SearchManager.Nested

/-- An iterator over one list rests at every target. -/
instance : RestingIterator TermDocumentIterator where
  next it := some it.next
  doc := TermDocumentIterator.doc
  skipTo t it := some (it.skipTo t)
  doc_skipTo h _ := by
    obtain ⟨rfl, rfl⟩ := Prod.mk.inj (Option.some.inj h)
    rfl
  At := TermDocumentIterator.OnDoc
  Rests _ _ := True
  at_next {s s'} h := by
    have hnext := Option.some.inj h
    have hfound : s.next.1 = true := by rw [hnext]
    have hon := TermDocumentIterator.onDoc_next hfound
    rw [hnext] at hon
    exact hon
  at_skipTo {t r s s'} h hr := by
    have hskip := Option.some.inj h
    have hfound : (s.skipTo t).1 ≠ maxDocId := by
      rw [hskip]
      exact hr
    have hon := TermDocumentIterator.onDoc_skipTo hfound
    rw [hskip] at hon
    exact hon
  stays h _ ht _ := ⟨_, congrArg some (h.skipTo_eq ht)⟩
  leaves _ _ _ hnot _ := absurd trivial hnot

end AdDelivery.SearchManager.Nested
