import AdDelivery.Core.Cursor

/-!
# Document iterators

The iterators of boolean queries walk increasing lists of document ids, one by one or
with a skip to a target. The classes say what the operations of an iterator are and
what they do to the documents it has still to visit; the iterator of one list is the
leaf of every query.
-/

namespace AdDelivery.SearchManager

open List

/-- The document id that stands for none. -/
def maxDocId : ℕ := 0xFFFFFFFF

/-- The operations of a document iterator. The two laws bound the loops over it. -/
class DocumentIterator (σ : Type) where
  next : σ → Bool × σ
  doc : σ → ℕ
  skipTo : ℕ → σ → ℕ × σ
  /-- How often `next` can still find a document, at most. -/
  size : σ → ℕ
  size_next : ∀ s, (next s).1 = true → size (next s).2 < size s
  skipTo_found : ∀ t s, (skipTo t s).1 = maxDocId ∨
    (t ≤ (skipTo t s).1 ∧ (skipTo t s).1 < maxDocId)

/-- What the operations do to the documents that an iterator has still to visit, its current
one included. -/
class LawfulDocumentIterator (σ : Type) extends DocumentIterator σ where
  rest : σ → Set ℕ
  rest_next : ∀ s, IsUpperPart (rest s) (rest (next s).2)
  least_next : ∀ s, (next s).1 = true → IsLeast (rest (next s).2) (doc (next s).2)
  rest_skipTo : ∀ t s, rest (skipTo t s).2 = {x ∈ rest s | t ≤ x}
  first_skipTo : ∀ t s, FirstFrom (rest s) maxDocId t (skipTo t s).1

/-- An increasing list of document ids, from the current one on if `started`. -/
structure TermDocumentIterator where
  docs : List ℕ
  started : Bool
  increasing : docs.Pairwise (· < ·)
  below : ∀ d ∈ docs, d < maxDocId

namespace TermDocumentIterator

/-- The first call of `next` goes to the first document. -/
def next (it : TermDocumentIterator) : Bool × TermDocumentIterator :=
  let docs := if it.started then it.docs.tail else it.docs
  have hsub : docs.Sublist it.docs := by
    unfold docs
    split
    · exact tail_sublist it.docs
    · exact Sublist.refl it.docs
  (!docs.isEmpty, ⟨docs, true, it.increasing.sublist hsub, fun d hd => it.below d (hsub.subset hd)⟩)

def doc (it : TermDocumentIterator) : ℕ := it.docs.headD maxDocId

/-- A target that is not above the current document leaves the iterator where it is. -/
def skipTo (target : ℕ) (it : TermDocumentIterator) : ℕ × TermDocumentIterator :=
  let docs := it.docs.dropWhile (· < target)
  have hsub : docs.Sublist it.docs := dropWhile_sublist _
  (docs.headD maxDocId,
    ⟨docs, true, it.increasing.sublist hsub, fun d hd => it.below d (hsub.subset hd)⟩)

/-- The number of documents to come, the first position counted apart. -/
def weight (it : TermDocumentIterator) : ℕ := it.docs.length + if it.started then 0 else 1

theorem next_docs (it : TermDocumentIterator) :
    it.next.2.docs = if it.started then it.docs.tail else it.docs := rfl

theorem next_fst (it : TermDocumentIterator) : it.next.1 = !it.next.2.docs.isEmpty := rfl

variable {it : TermDocumentIterator}

theorem weight_of_started (h : it.started = true) : it.weight = it.docs.length := by
  rw [weight, h, if_pos rfl, Nat.add_zero]

theorem weight_next (h : it.next.1 = true) : it.next.2.weight < it.weight := by
  rw [next_fst] at h
  rw [weight_of_started rfl, weight]
  rw [next_docs] at h ⊢
  cases it.started with
  | false => simp
  | true =>
    cases hdocs : it.docs with
    | nil => simp [hdocs] at h
    | cons d docs => simp

theorem weight_next_le (it : TermDocumentIterator) : it.next.2.weight ≤ it.weight := by
  cases hnext : it.next.1 with
  | true => exact (weight_next hnext).le
  | false =>
    rw [next_fst, Bool.not_eq_false', List.isEmpty_iff] at hnext
    rw [weight_of_started rfl, hnext]
    exact Nat.zero_le _

variable (target : ℕ)

theorem mem_skipTo (it : TermDocumentIterator) (x : ℕ) :
    x ∈ (it.skipTo target).2.docs ↔ x ∈ it.docs ∧ target ≤ x :=
  mem_dropWhile_lt it.increasing target x

theorem weight_skipTo_le (it : TermDocumentIterator) : (it.skipTo target).2.weight ≤ it.weight := by
  have hle : (it.skipTo target).2.docs.length ≤ it.docs.length :=
    (dropWhile_sublist _).length_le
  rw [weight_of_started rfl, weight]
  omega

/-- Where a skip lands: nowhere, or on the first of the documents left. -/
theorem skipTo_cases (it : TermDocumentIterator) :
    ((it.skipTo target).1 = maxDocId ∧ (it.skipTo target).2.docs = []) ∨
      (target ≤ (it.skipTo target).1 ∧ (it.skipTo target).1 < maxDocId ∧
        (it.skipTo target).2.docs.head? = some (it.skipTo target).1) := by
  have hmem := mem_skipTo target it
  have hfound : (it.skipTo target).1 = (it.skipTo target).2.docs.headD maxDocId := rfl
  cases hdocs : (it.skipTo target).2.docs with
  | nil => exact .inl ⟨by rw [hfound, hdocs]; rfl, rfl⟩
  | cons d docs =>
    obtain ⟨hd, ht⟩ := (hmem d).mp (by rw [hdocs]; exact mem_cons_self)
    have hfound' : (it.skipTo target).1 = d := by rw [hfound, hdocs]; rfl
    rw [hfound']
    exact .inr ⟨ht, it.below d hd, rfl⟩

/-- A skip that lands is on the first of the documents left. -/
theorem skipTo_found {target : ℕ} (h : (it.skipTo target).1 ≠ maxDocId) :
    target ≤ (it.skipTo target).1 ∧ (it.skipTo target).1 < maxDocId ∧
      (it.skipTo target).2.docs.head? = some (it.skipTo target).1 :=
  (it.skipTo_cases target).resolve_left fun hnone => h hnone.1

theorem doc_le (it : TermDocumentIterator) : it.doc = maxDocId ∨ it.doc < maxDocId := by
  unfold doc
  cases hdocs : it.docs with
  | nil => exact .inl rfl
  | cons d docs => exact .inr (it.below d (by rw [hdocs]; exact mem_cons_self))

/-- A skip over the current document that finds another one. -/
theorem weight_skipTo_lt {target : ℕ} (hdoc : it.doc < target)
    (hfound : (it.skipTo target).1 ≠ maxDocId) : (it.skipTo target).2.weight < it.weight := by
  have hskip : (it.skipTo target).2.docs = it.docs.dropWhile (· < target) := rfl
  obtain ⟨-, -, hhead⟩ := skipTo_found hfound
  rw [weight_of_started rfl, weight]
  unfold doc at hdoc
  rw [hskip] at hhead ⊢
  cases hdocs : it.docs with
  | nil => simp [hdocs] at hhead
  | cons d docs =>
    rw [hdocs] at hdoc
    have hle := (dropWhile_sublist (l := docs) fun d => decide (d < target)).length_le
    rw [dropWhile_cons_of_pos (by simpa using hdoc), length_cons]
    omega

theorem isUpperPart_next (it : TermDocumentIterator) :
    IsUpperPart {x | x ∈ it.docs} {x | x ∈ it.next.2.docs} := by
  rw [next_docs]
  split
  · exact isUpperPart_tail it.increasing
  · exact .refl _

theorem next_docs_ne_nil (h : it.next.1 = true) : it.next.2.docs ≠ [] := by
  rw [next_fst] at h
  simpa using h

/-- `next` passes the current document at most. -/
theorem mem_next_of_ne {x : ℕ} (hx : x ∈ it.docs) (hne : x ≠ it.doc) : x ∈ it.next.2.docs := by
  rw [next_docs]
  unfold doc at hne
  split
  · cases hdocs : it.docs with
    | nil => rwa [hdocs] at hx
    | cons d docs =>
      rw [hdocs] at hx hne
      exact (mem_cons.mp hx).resolve_left hne
  · exact hx

theorem mem_next_iff {x : ℕ} (hx : x ≠ it.doc) : x ∈ it.next.2.docs ↔ x ∈ it.docs :=
  ⟨fun hmem => it.isUpperPart_next.subset hmem, fun hmem => mem_next_of_ne hmem hx⟩

theorem next_docs_eq_nil (h : ¬it.next.1 = true) : it.next.2.docs = [] := by
  rw [next_fst] at h
  simpa using h

theorem isLeast_doc (h : it.docs ≠ []) : IsLeast {x | x ∈ it.docs} it.doc := by
  have hinc := it.increasing
  unfold doc
  cases hdocs : it.docs with
  | nil => exact absurd hdocs h
  | cons d docs =>
    rw [hdocs] at hinc
    exact isLeast_cons hinc

theorem doc_lt_next (hstarted : it.started = true) (h : it.next.1 = true) :
    it.doc < it.next.2.doc := by
  have hinc := it.increasing
  have hmem : it.next.2.doc ∈ it.next.2.docs := (isLeast_doc (next_docs_ne_nil h)).1
  rw [next_docs, if_pos hstarted] at hmem
  unfold doc at hmem ⊢
  cases hdocs : it.docs with
  | nil =>
    rw [hdocs] at hmem
    cases hmem
  | cons d docs =>
    rw [hdocs] at hinc hmem
    exact (pairwise_cons.mp hinc).1 _ hmem

end TermDocumentIterator

end AdDelivery.SearchManager
