import AdDelivery.SearchManager.Nested.RestingIterator

/-!
# OR iterators over any children

The child on top of the queue is on the document. A skip to a target that is not above it moves
no child, so that it always stays there, whatever the children do.
-/

namespace AdDelivery.SearchManager.Nested

open SkipIterator

/-- A child in the queue and its `current_` flag. -/
structure QueueEntry (σ : Type) where
  iter : σ
  current : Bool

/-- The priority queue as its array: after every change it is put in an order in which an entry
with the least document comes first. -/
structure HeapOrder where
  adjust : {α : Type} → (α → ℕ) → List α → List α
  perm : ∀ {α : Type} (doc : α → ℕ) (queue : List α), (adjust doc queue).Perm queue
  least : ∀ {α : Type} (doc : α → ℕ) (queue : List α) (top : α) (others : List α),
    adjust doc queue = top :: others → ∀ entry ∈ others, doc top ≤ doc entry

variable {σ : Type}

def flagged (queue : List (QueueEntry σ)) : ℕ := queue.countP QueueEntry.current

theorem flagged_cons (entry : QueueEntry σ) (queue : List (QueueEntry σ)) :
    flagged (entry :: queue) = flagged queue + if entry.current then 1 else 0 :=
  List.countP_cons

section Operations

variable [SkipIterator σ]

def QueueEntry.doc (entry : QueueEntry σ) : ℕ := SkipIterator.doc entry.iter

/-- Flag the entries that are on the document. -/
def setCurrent (currDoc : ℕ) (queue : List (QueueEntry σ)) : List (QueueEntry σ) :=
  queue.map fun entry => ⟨entry.iter, entry.doc = currDoc⟩

def below (target : ℕ) (queue : List (QueueEntry σ)) : ℕ :=
  queue.countP fun entry => entry.doc < target

theorem below_cons (target : ℕ) (entry : QueueEntry σ) (queue : List (QueueEntry σ)) :
    below target (entry :: queue) = below target queue + if entry.doc < target then 1 else 0 := by
  rw [below, List.countP_cons]
  simp only [decide_eq_true_eq]
  rfl

theorem flagged_adjust (order : HeapOrder) (queue : List (QueueEntry σ)) :
    flagged (order.adjust QueueEntry.doc queue) = flagged queue :=
  (order.perm QueueEntry.doc queue).countP_eq _

theorem below_adjust (order : HeapOrder) (target : ℕ) (queue : List (QueueEntry σ)) :
    below target (order.adjust QueueEntry.doc queue) = below target queue :=
  (order.perm QueueEntry.doc queue).countP_eq _

/-- The loop of `do_next`: every child on top that is flagged goes on to its next document. -/
def passCurrent (order : HeapOrder) : List (QueueEntry σ) → Option (List (QueueEntry σ))
  | [] => some []
  | top :: others =>
    if top.current then
      match next top.iter with
      | none => none
      | some (true, iter) =>
        passCurrent order (order.adjust QueueEntry.doc (⟨iter, false⟩ :: others))
      | some (false, _) => passCurrent order (order.adjust QueueEntry.doc others)
    else some (top :: others)
termination_by queue => flagged queue
decreasing_by
  · rename_i hcurrent
    rw [flagged_adjust, flagged_cons, flagged_cons, if_pos hcurrent]
    exact Nat.lt_succ_self _
  · rename_i hcurrent
    rw [flagged_adjust, flagged_cons, if_pos hcurrent]
    exact Nat.lt_succ_self _

/-- The loop of `do_skipTo`: children on top that are below the target skip to it. The flags
are those of the last turn. -/
def skipTops (order : HeapOrder) (target : ℕ) : List (QueueEntry σ) → Option (List (QueueEntry σ))
  | [] => some []
  | top :: others =>
    if target ≤ top.doc then some (setCurrent top.doc (top :: others))
    else
      match _hskip : skipTo target top.iter with
      | none => none
      | some (found, iter) =>
        if found = maxDocId ∨ found < target then
          skipTops order target (order.adjust QueueEntry.doc others)
        else skipTops order target (order.adjust QueueEntry.doc (⟨iter, true⟩ :: others))
termination_by queue => below target queue
decreasing_by
  · rename_i hbelow _
    rw [below_adjust, below_cons, if_pos (not_le.mp hbelow)]
    exact Nat.lt_succ_self _
  · rename_i hbelow hfound
    have hdoc := doc_skipTo _hskip fun hmax => hfound (.inl hmax)
    have hiter : ¬QueueEntry.doc ⟨iter, true⟩ < target := by
      rw [QueueEntry.doc, hdoc]
      exact fun hlt => hfound (.inr hlt)
    rw [below_adjust, below_cons, below_cons, if_pos (not_le.mp hbelow), if_neg hiter]
    exact Nat.lt_succ_self _

/-- The queue and its iterator. Children that have left the queue are not used again. -/
structure ORDocumentIterator (order : HeapOrder) (σ : Type) where
  docIteratorList : List σ
  docIteratorQueue : Option (List (QueueEntry σ))
  currDoc : ℕ

/-- Start all children; those without any document stay out of the queue. -/
def startChildren : List σ → Option (List (QueueEntry σ))
  | [] => some []
  | it :: docIteratorList =>
    match next it with
    | none => none
    | some (true, it) => (startChildren docIteratorList).map (⟨it, false⟩ :: ·)
    | some (false, _) => startChildren docIteratorList

def initDocIteratorQueue (order : HeapOrder) (docIteratorList : List σ) :
    Option (List (QueueEntry σ)) :=
  (startChildren docIteratorList).map (order.adjust QueueEntry.doc)

namespace ORDocumentIterator

variable {order : HeapOrder}

/-- Go to the document on top of the queue. -/
def goToTop (s : ORDocumentIterator order σ) :
    List (QueueEntry σ) → Bool × ORDocumentIterator order σ
  | [] => (false, { s with docIteratorQueue := some [] })
  | top :: others => (true, { s with
      docIteratorQueue := some (setCurrent top.doc (top :: others))
      currDoc := top.doc })

def next (s : ORDocumentIterator order σ) : Option (Bool × ORDocumentIterator order σ) :=
  match s.docIteratorQueue with
  | none =>
    if s.docIteratorList.isEmpty then some (false, s)
    else (initDocIteratorQueue order s.docIteratorList).map s.goToTop
  | some queue => (passCurrent order queue).map s.goToTop

/-- What a skip reports on the children that are left. -/
def report (s : ORDocumentIterator order σ) : List (QueueEntry σ) → ℕ × ORDocumentIterator order σ
  | [] => (maxDocId, { s with docIteratorQueue := some [], currDoc := maxDocId })
  | top :: others => (top.doc, { s with
      docIteratorQueue := some (top :: others)
      currDoc := top.doc })

def skipTo (target : ℕ) (s : ORDocumentIterator order σ) :
    Option (ℕ × ORDocumentIterator order σ) :=
  match s.docIteratorQueue with
  | none =>
    if s.docIteratorList.isEmpty then some (maxDocId, { s with currDoc := maxDocId })
    else
      match initDocIteratorQueue order s.docIteratorList with
      | none => none
      | some queue => (skipTops order target queue).map s.report
  | some queue => (skipTops order target queue).map s.report

/-- The child on top of the queue is on the current document. -/
structure OnDoc (d : ℕ) (s : ORDocumentIterator order σ) : Prop where
  currDoc : s.currDoc = d
  top : ∃ top others, s.docIteratorQueue = some (top :: others) ∧ top.doc = d

theorem onDoc_goToTop {s : ORDocumentIterator order σ} {queue : List (QueueEntry σ)}
    (h : (s.goToTop queue).1 = true) : (s.goToTop queue).2.OnDoc (s.goToTop queue).2.currDoc := by
  cases queue with
  | nil => cases h
  | cons top others => exact ⟨rfl, _, _, rfl, rfl⟩

variable {s s' : ORDocumentIterator order σ}

theorem onDoc_next (h : s.next = some (true, s')) : s'.OnDoc s'.currDoc := by
  have hgoTo (queue : Option (List (QueueEntry σ)))
      (h : queue.map s.goToTop = some (true, s')) : s'.OnDoc s'.currDoc := by
    obtain ⟨queue, -, hgoTo⟩ := Option.map_eq_some_iff.mp h
    have hon : (s.goToTop queue).1 = true := by rw [hgoTo]
    have hon := onDoc_goToTop hon
    rw [hgoTo] at hon
    exact hon
  unfold next at h
  split at h
  · split at h
    · cases h
    · exact hgoTo _ h
  · exact hgoTo _ h

theorem skipTo_some {target r : ℕ} (h : s.skipTo target = some (r, s')) :
    r = maxDocId ∨ s'.OnDoc r := by
  have hreport (queue : Option (List (QueueEntry σ))) (h : queue.map s.report = some (r, s')) :
      r = maxDocId ∨ s'.OnDoc r := by
    obtain ⟨queue, -, hreport⟩ := Option.map_eq_some_iff.mp h
    obtain ⟨rfl, rfl⟩ := Prod.mk.inj hreport.symm
    cases queue with
    | nil => exact .inl rfl
    | cons top others => exact .inr ⟨rfl, top, others, rfl, rfl⟩
  unfold skipTo at h
  split at h
  · split at h
    · obtain ⟨rfl, -⟩ := Prod.mk.inj (Option.some.inj h)
      exact .inl rfl
    · split at h
      · cases h
      · exact hreport _ h
  · exact hreport _ h

/-- A target that is not above the child on top moves none. -/
theorem skipTo_of_le {d t : ℕ} {s : ORDocumentIterator order σ} (hon : s.OnDoc d) (ht : t ≤ d) :
    ∃ s', s.skipTo t = some (d, s') := by
  obtain ⟨top, others, hqueue, rfl⟩ := hon.top
  simp only [skipTo, hqueue]
  rw [skipTops, if_pos ht]
  exact ⟨_, rfl⟩

end ORDocumentIterator

end Operations

namespace ORDocumentIterator

/-- An OR iterator rests at every target. -/
instance [RestingIterator σ] {order : HeapOrder} :
    RestingIterator (ORDocumentIterator order σ) where
  next := next
  doc := currDoc
  skipTo := skipTo
  doc_skipTo h hr := ((skipTo_some h).resolve_left hr).currDoc
  At := OnDoc
  Rests _ _ := True
  at_next := onDoc_next
  at_skipTo h hr := (skipTo_some h).resolve_left hr
  stays hon _ ht _ := skipTo_of_le hon ht
  leaves _ _ _ hnot _ := absurd trivial hnot

end ORDocumentIterator

end AdDelivery.SearchManager.Nested
