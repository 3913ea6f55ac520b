import AdDelivery.SearchManager.DocumentIterator
import Mathlib.Algebra.BigOperators.Group.List.Basic
import Mathlib.Algebra.GroupWithZero.Nat

/-!
# The positive part of OR queries

An OR iterator keeps its children in a priority queue with the least document on top,
and a child that has come to its end leaves the queue. What it has still to visit are
the documents that any of its children has still to visit. The NOT part of a query
is an iterator of this kind too.
-/

namespace AdDelivery.SearchManager

open List TermDocumentIterator Option

/-- A child in the queue and its `current_` flag. -/
structure QueueEntry where
  iter : TermDocumentIterator
  current : Bool

/-- The priority queue as its array: after every change it is put in an order in which an
entry with the least document comes first. -/
structure QueueOrder where
  adjust : List QueueEntry → List QueueEntry
  perm : ∀ queue, (adjust queue).Perm queue
  least : ∀ queue top others, adjust queue = top :: others →
    ∀ entry ∈ others, top.iter.doc ≤ entry.iter.doc

/-- The sum that bounds the loops over the queue. -/
def queueWeight (queue : List QueueEntry) : ℕ :=
  (queue.map fun entry => entry.iter.weight + 1).sum

theorem queueWeight_cons (top : QueueEntry) (others : List QueueEntry) :
    queueWeight (top :: others) = top.iter.weight + 1 + queueWeight others := rfl

variable (order : QueueOrder) (queue : List QueueEntry)

theorem queueWeight_adjust : queueWeight (order.adjust queue) = queueWeight queue :=
  ((order.perm queue).map _).sum_eq

/-- Flag the entries that are on the document. -/
def setCurrent (currDoc : ℕ) (queue : List QueueEntry) : List QueueEntry :=
  queue.map fun entry => ⟨entry.iter, entry.iter.doc = currDoc⟩

/-- No entry is at its end, and an entry with the least document is on top. -/
structure QueueOk (queue : List QueueEntry) : Prop where
  ne_nil : ∀ entry ∈ queue, entry.iter.docs ≠ []
  least : ∀ top ∈ queue.head?, ∀ entry ∈ queue, top.iter.doc ≤ entry.iter.doc

/-- The documents that any entry has still to visit. -/
def queueDocs (queue : List QueueEntry) : Set ℕ := {x | ∃ entry ∈ queue, x ∈ entry.iter.docs}

theorem queueDocs_nil : queueDocs [] = ∅ := by
  ext x
  simp [queueDocs]

theorem queueDocs_cons (top : QueueEntry) (others : List QueueEntry) :
    queueDocs (top :: others) = {x | x ∈ top.iter.docs} ∪ queueDocs others := by
  ext x
  simp [queueDocs]

theorem queueOk_adjust {queue : List QueueEntry} (h : ∀ entry ∈ queue, entry.iter.docs ≠ []) :
    QueueOk (order.adjust queue) := by
  refine ⟨fun entry hentry => h entry ((order.perm queue).mem_iff.mp hentry), ?_⟩
  intro top htop entry hentry
  obtain ⟨others, hadjust⟩ := head?_eq_some_iff.mp htop
  rw [hadjust] at hentry
  rcases mem_cons.mp hentry with rfl | hentry
  · exact le_rfl
  · exact order.least queue top others hadjust entry hentry

theorem queueDocs_adjust : queueDocs (order.adjust queue) = queueDocs queue := by
  ext x
  unfold queueDocs
  simp only [(order.perm queue).mem_iff]

theorem queueDocs_setCurrent (currDoc : ℕ) (queue : List QueueEntry) :
    queueDocs (setCurrent currDoc queue) = queueDocs queue := by
  ext x
  simp [queueDocs, setCurrent]

theorem queueOk_setCurrent (currDoc : ℕ) {queue : List QueueEntry} (h : QueueOk queue) :
    QueueOk (setCurrent currDoc queue) := by
  obtain ⟨hne, hleast⟩ := h
  constructor
  · simpa [setCurrent] using hne
  · simpa [setCurrent] using hleast

theorem queueWeight_setCurrent (currDoc : ℕ) (queue : List QueueEntry) :
    queueWeight (setCurrent currDoc queue) = queueWeight queue := by
  unfold queueWeight setCurrent
  rw [List.map_map]
  rfl

theorem QueueOk.isLeast {top : QueueEntry} {others : List QueueEntry}
    (h : QueueOk (top :: others)) : IsLeast (queueDocs (top :: others)) top.iter.doc := by
  constructor
  · exact ⟨top, mem_cons_self, (isLeast_doc (h.ne_nil top mem_cons_self)).1⟩
  · rintro x ⟨entry, hentry, hx⟩
    exact (h.least top rfl entry hentry).trans
      ((isLeast_doc (h.ne_nil entry hentry)).2 hx)

/-- The loop of `do_next`: every child on top that is flagged goes on to its next document. -/
def passCurrent (order : QueueOrder) : List QueueEntry → List QueueEntry
  | [] => []
  | top :: others =>
    if top.current then
      if top.iter.next.1 then passCurrent order (order.adjust (⟨top.iter.next.2, false⟩ :: others))
      else passCurrent order (order.adjust others)
    else top :: others
termination_by queue => queueWeight queue
decreasing_by
  · have hweight := weight_next ‹_›
    rw [queueWeight_adjust, queueWeight_cons, queueWeight_cons]
    dsimp only
    omega
  · rw [queueWeight_adjust, queueWeight_cons]
    omega

/-- The loop of `do_skipTo`: children on top that are below the target skip to it. The flags
are those of the last turn. -/
def skipTops (order : QueueOrder) (target : ℕ) : List QueueEntry → List QueueEntry
  | [] => []
  | top :: others =>
    if target ≤ top.iter.doc then setCurrent top.iter.doc (top :: others)
    else if (top.iter.skipTo target).1 = maxDocId ∨ (top.iter.skipTo target).1 < target then
      skipTops order target (order.adjust others)
    else skipTops order target (order.adjust (⟨(top.iter.skipTo target).2, true⟩ :: others))
termination_by queue => queueWeight queue
decreasing_by
  · rw [queueWeight_adjust, queueWeight_cons]
    omega
  · rename_i hdoc hfound
    have hweight := weight_skipTo_lt (not_le.mp hdoc)
      fun hmax => hfound (.inl hmax)
    rw [queueWeight_adjust, queueWeight_cons, queueWeight_cons]
    dsimp only
    omega

theorem passCurrent_weight_le : queueWeight (passCurrent order queue) ≤ queueWeight queue := by
  fun_induction passCurrent order queue with
  | case1 => exact le_rfl
  | case2 top others hcurrent hnext ih =>
    have hweight := weight_next hnext
    rw [queueWeight_adjust, queueWeight_cons] at ih
    rw [queueWeight_cons]
    dsimp only at ih
    omega
  | case3 top others hcurrent hnext ih =>
    rw [queueWeight_adjust] at ih
    rw [queueWeight_cons]
    omega
  | case4 top others hcurrent => exact le_rfl

theorem passCurrent_weight_lt {top : QueueEntry} (others : List QueueEntry)
    (h : top.current = true) :
    queueWeight (passCurrent order (top :: others)) < queueWeight (top :: others) := by
  rw [passCurrent, if_pos h, queueWeight_cons]
  split
  · rename_i hnext
    have hweight := weight_next hnext
    have hle := passCurrent_weight_le order (order.adjust (⟨top.iter.next.2, false⟩ :: others))
    rw [queueWeight_adjust, queueWeight_cons] at hle
    dsimp only at hle
    omega
  · have hle := passCurrent_weight_le order (order.adjust others)
    rw [queueWeight_adjust] at hle
    omega

/-- Only documents that are least among those left are passed. -/
theorem passCurrent_spec (h : QueueOk queue) : QueueOk (passCurrent order queue) ∧
      IsUpperPart (queueDocs queue) (queueDocs (passCurrent order queue)) := by
  fun_induction passCurrent order queue with
  | case1 => exact ⟨h, .refl _⟩
  | case2 top others hcurrent hnext ih =>
    have hne : ∀ entry ∈ (⟨top.iter.next.2, false⟩ : QueueEntry) :: others,
        entry.iter.docs ≠ [] := by
      rw [forall_mem_cons]
      exact ⟨next_docs_ne_nil hnext,
        fun entry hentry => h.ne_nil entry (mem_cons_of_mem top hentry)⟩
    obtain ⟨hok, hpart⟩ := ih (queueOk_adjust order hne)
    rw [queueDocs_adjust] at hpart
    refine ⟨hok, (IsUpperPart.of_least h.isLeast ?_ fun x hx hxtop => ?_).trans hpart⟩
    · rw [queueDocs_cons, queueDocs_cons]
      exact Set.union_subset_union_left _ top.iter.isUpperPart_next.subset
    · rw [queueDocs_cons] at hx ⊢
      rcases hx with hx | hx
      · exact .inl (mem_next_of_ne hx hxtop)
      · exact .inr hx
  | case3 top others hcurrent hnext ih =>
    have hne : ∀ entry ∈ others, entry.iter.docs ≠ [] :=
      fun entry hentry => h.ne_nil entry (mem_cons_of_mem top hentry)
    have hend : top.iter.next.2.docs = [] := by
      rw [next_fst] at hnext
      simpa using hnext
    obtain ⟨hok, hpart⟩ := ih (queueOk_adjust order hne)
    rw [queueDocs_adjust] at hpart
    refine ⟨hok, (IsUpperPart.of_least h.isLeast ?_ fun x hx hxtop => ?_).trans hpart⟩
    · rw [queueDocs_cons]
      exact Set.subset_union_right
    · rw [queueDocs_cons] at hx
      refine hx.resolve_left fun hx => ?_
      have hmem := mem_next_of_ne hx hxtop
      rw [hend] at hmem
      exact not_mem_nil hmem
  | case4 top others hcurrent => exact ⟨h, .refl _⟩

/-- What is below the target is passed, and nothing else. -/
theorem skipTops_spec (target : ℕ) (queue : List QueueEntry) (h : QueueOk queue) :
    QueueOk (skipTops order target queue) ∧
      queueDocs (skipTops order target queue) = {x ∈ queueDocs queue | target ≤ x} := by
  fun_induction skipTops order target queue with
  | case1 =>
    refine ⟨h, ?_⟩
    rw [queueDocs_nil, Set.sep_empty]
  | case2 top others hle =>
    refine ⟨queueOk_setCurrent _ h, ?_⟩
    rw [queueDocs_setCurrent]
    exact (Set.sep_eq_self_iff_mem_true.mpr fun x hx => hle.trans (h.isLeast.2 hx)).symm
  | case3 top others hle hend ih =>
    have hne : ∀ entry ∈ others, entry.iter.docs ≠ [] :=
      fun entry hentry => h.ne_nil entry (mem_cons_of_mem top hentry)
    obtain ⟨hok, hdocs⟩ := ih (queueOk_adjust order hne)
    refine ⟨hok, ?_⟩
    obtain ⟨-, hskipped⟩ | ⟨hfound, hlt, -⟩ := top.iter.skipTo_cases target
    · rw [hdocs, queueDocs_adjust, queueDocs_cons]
      ext x
      constructor
      · rintro ⟨hx, ht⟩
        exact ⟨.inr hx, ht⟩
      · rintro ⟨hx, ht⟩
        refine ⟨hx.resolve_left fun hx => ?_, ht⟩
        have hmem := (mem_skipTo target top.iter x).mpr ⟨hx, ht⟩
        rw [hskipped] at hmem
        exact not_mem_nil hmem
    · omega
  | case4 top others hle hend ih =>
    have hne : ∀ entry ∈ (⟨(top.iter.skipTo target).2, true⟩ : QueueEntry) :: others,
        entry.iter.docs ≠ [] := by
      rw [forall_mem_cons]
      refine ⟨?_, fun entry hentry => h.ne_nil entry (mem_cons_of_mem top hentry)⟩
      obtain ⟨-, -, hhead⟩ := skipTo_found fun hnone => hend (.inl hnone)
      intro hnil
      rw [hnil] at hhead
      exact some_ne_none _ hhead.symm
    obtain ⟨hok, hdocs⟩ := ih (queueOk_adjust order hne)
    refine ⟨hok, ?_⟩
    rw [hdocs, queueDocs_adjust, queueDocs_cons, queueDocs_cons]
    ext x
    constructor
    · rintro ⟨hx | hx, ht⟩
      · exact ⟨.inl ((mem_skipTo target top.iter x).mp hx).1, ht⟩
      · exact ⟨.inr hx, ht⟩
    · rintro ⟨hx | hx, ht⟩
      · exact ⟨.inl ((mem_skipTo target top.iter x).mpr ⟨hx, ht⟩), ht⟩
      · exact ⟨.inr hx, ht⟩

/-- What is on top afterwards is flagged and not below the target. -/
theorem skipTops_top (target : ℕ) (queue : List QueueEntry) :
    ∀ top ∈ (skipTops order target queue).head?, top.current = true ∧ target ≤ top.iter.doc := by
  fun_induction skipTops order target queue with
  | case1 =>
    intro top htop
    exact absurd htop.symm (some_ne_none top)
  | case2 top others hle =>
    intro entry hentry
    obtain rfl := some.inj hentry
    exact ⟨decide_eq_true rfl, hle⟩
  | case3 top others hle hend ih => exact ih
  | case4 top others hle hend ih => exact ih

/-- The positive part of an OR query. Children that have left the queue are not used again,
so that only those in the queue matter once there is one. -/
structure ORDocumentIterator (order : QueueOrder) where
  docIteratorList : List TermDocumentIterator
  docIteratorQueue : Option (List QueueEntry)
  currDoc : ℕ
  /-- Before the queue is set up no child has been started. -/
  unstarted : docIteratorQueue = none → ∀ it ∈ docIteratorList, it.started = false
  /-- Between calls the entry on top is on the current document. -/
  queueOk : ∀ queue, docIteratorQueue = some queue →
    QueueOk queue ∧ ∀ top ∈ queue.head?, top.current = true

/-- Start all children; those without any document stay out of the queue. -/
def initDocIteratorQueue (order : QueueOrder) (docIteratorList : List TermDocumentIterator) :
    List QueueEntry :=
  order.adjust (docIteratorList.filterMap fun it =>
    if it.next.1 then some ⟨it.next.2, false⟩ else none)

variable (docIteratorList : List TermDocumentIterator)

theorem initDocIteratorQueue_ok : QueueOk (initDocIteratorQueue order docIteratorList) := by
  refine queueOk_adjust order fun entry hentry => ?_
  obtain ⟨it, -, hit⟩ := mem_filterMap.mp hentry
  split at hit
  · rename_i hnext
    obtain rfl := some.inj hit
    exact next_docs_ne_nil hnext
  · exact absurd hit.symm (some_ne_none entry)

theorem queueDocs_init {docIteratorList : List TermDocumentIterator}
    (h : ∀ it ∈ docIteratorList, it.started = false) :
    queueDocs (initDocIteratorQueue order docIteratorList) =
      {x | ∃ it ∈ docIteratorList, x ∈ it.docs} := by
  have hnext : ∀ it ∈ docIteratorList, it.next.2.docs = it.docs := by
    intro it hit
    rw [next_docs, h it hit, if_neg Bool.false_ne_true]
  rw [initDocIteratorQueue, queueDocs_adjust]
  ext x
  constructor
  · rintro ⟨entry, hentry, hx⟩
    obtain ⟨it, hit, hsome⟩ := mem_filterMap.mp hentry
    split at hsome
    · obtain rfl := some.inj hsome
      rw [hnext it hit] at hx
      exact ⟨it, hit, hx⟩
    · exact absurd hsome.symm (some_ne_none entry)
  · rintro ⟨it, hit, hx⟩
    have hstarted : it.next.1 = true := by
      rw [next_fst, hnext it hit]
      simp [ne_nil_of_mem hx]
    refine ⟨⟨it.next.2, false⟩, mem_filterMap.mpr ⟨it, hit, if_pos hstarted⟩, ?_⟩
    rw [hnext it hit]
    exact hx

theorem queueWeight_init_le : queueWeight (initDocIteratorQueue order docIteratorList) ≤
      (docIteratorList.map weight).sum := by
  rw [initDocIteratorQueue, queueWeight_adjust]
  induction docIteratorList with
  | nil => exact le_rfl
  | cons it docIteratorList ih =>
    rw [filterMap_cons, map_cons, sum_cons]
    cases hnext : it.next.1 with
    | false =>
      rw [if_neg Bool.false_ne_true]
      dsimp only
      omega
    | true =>
      have hweight := weight_next hnext
      rw [if_pos rfl]
      rw [queueWeight_cons]
      dsimp only
      omega

namespace ORDocumentIterator

variable {order : QueueOrder}

/-- The state after the queue has changed. -/
def withQueue (s : ORDocumentIterator order) (queue : List QueueEntry) (currDoc : ℕ)
    (hok : QueueOk queue) (htop : ∀ top ∈ queue.head?, top.current = true) :
    ORDocumentIterator order where
  docIteratorList := s.docIteratorList
  docIteratorQueue := some queue
  currDoc := currDoc
  unstarted h := absurd h (some_ne_none queue)
  queueOk queue' h := by
    obtain rfl := some.inj h
    exact ⟨hok, htop⟩

/-- Go to the document on top of the queue. -/
def goToTop (s : ORDocumentIterator order) (queue : List QueueEntry) (hok : QueueOk queue) :
    Bool × ORDocumentIterator order :=
  match queue with
  | [] => (false, s.withQueue [] s.currDoc hok fun _ h => absurd h.symm (some_ne_none _))
  | top :: others => (true, s.withQueue (setCurrent top.iter.doc (top :: others)) top.iter.doc
      (queueOk_setCurrent _ hok) fun entry hentry => by
        obtain rfl := some.inj hentry
        exact decide_eq_true rfl)

def doNext (s : ORDocumentIterator order) : Bool × ORDocumentIterator order :=
  match h : s.docIteratorQueue with
  | none =>
    if s.docIteratorList = [] then (false, s)
    else s.goToTop (initDocIteratorQueue order s.docIteratorList)
      (initDocIteratorQueue_ok order s.docIteratorList)
  | some queue => s.goToTop (passCurrent order queue)
      (passCurrent_spec order queue (s.queueOk queue h).1).1

/-- Skip to the target in a queue that is set up. -/
def skipIn (s : ORDocumentIterator order) (target : ℕ) (queue : List QueueEntry)
    (hok : QueueOk queue) : ℕ × ORDocumentIterator order :=
  let found := ((skipTops order target queue).head?.map fun top => top.iter.doc).getD maxDocId
  (found, s.withQueue (skipTops order target queue) found (skipTops_spec order target queue hok).1
    fun top htop => (skipTops_top order target queue top htop).1)

def doSkipTo (target : ℕ) (s : ORDocumentIterator order) : ℕ × ORDocumentIterator order :=
  match h : s.docIteratorQueue with
  | none =>
    if s.docIteratorList = [] then (maxDocId, { s with currDoc := maxDocId })
    else s.skipIn target (initDocIteratorQueue order s.docIteratorList)
      (initDocIteratorQueue_ok order s.docIteratorList)
  | some queue => s.skipIn target queue (s.queueOk queue h).1

/-- The documents that any child has still to visit. -/
def rest (s : ORDocumentIterator order) : Set ℕ :=
  match s.docIteratorQueue with
  | none => {x | ∃ it ∈ s.docIteratorList, x ∈ it.docs}
  | some queue => queueDocs queue

def size (s : ORDocumentIterator order) : ℕ :=
  match s.docIteratorQueue with
  | none => (s.docIteratorList.map weight).sum + 1
  | some queue => queueWeight queue

variable (s : ORDocumentIterator order) {queue : List QueueEntry} (hok : QueueOk queue)

theorem rest_goToTop : (s.goToTop queue hok).2.rest = queueDocs queue := by
  cases queue with
  | nil => rfl
  | cons top others => exact queueDocs_setCurrent _ _

theorem isLeast_goToTop (h : (s.goToTop queue hok).1 = true) :
    IsLeast (s.goToTop queue hok).2.rest (s.goToTop queue hok).2.currDoc := by
  rw [rest_goToTop]
  cases queue with
  | nil => cases h
  | cons top others => exact hok.isLeast

theorem size_goToTop : (s.goToTop queue hok).2.size = queueWeight queue := by
  cases queue with
  | nil => rfl
  | cons top others => exact queueWeight_setCurrent _ _

/-- What `do_next` does: there are no children, or it goes to the top of a queue that lacks
only documents that were least. -/
theorem doNext_cases : s.doNext = (false, s) ∨ ∃ queue hok, s.doNext = s.goToTop queue hok ∧
      IsUpperPart s.rest (queueDocs queue) ∧ (queue ≠ [] → queueWeight queue < s.size) := by
  unfold doNext
  split
  · rename_i hqueue
    split
    · exact .inl rfl
    · refine .inr ⟨_, initDocIteratorQueue_ok order s.docIteratorList, rfl, ?_, fun _ => ?_⟩
      · rw [queueDocs_init order (s.unstarted hqueue), rest, hqueue]
        exact .refl _
      · have hle := queueWeight_init_le order s.docIteratorList
        rw [size, hqueue]
        dsimp only
        omega
  · rename_i queue hqueue
    obtain ⟨hok, htop⟩ := s.queueOk queue hqueue
    obtain ⟨hok', hpart⟩ := passCurrent_spec order queue hok
    refine .inr ⟨_, hok', rfl, ?_, fun hne => ?_⟩
    · rw [rest, hqueue]
      exact hpart
    · rw [size, hqueue]
      cases queue with
      | nil => exact absurd (by rw [passCurrent]) hne
      | cons top others => exact passCurrent_weight_lt order others (htop top rfl)

theorem rest_skipIn (target : ℕ) (hok : QueueOk queue) :
    (s.skipIn target queue hok).2.rest = {x ∈ queueDocs queue | target ≤ x} :=
  (skipTops_spec order target queue hok).2

theorem first_skipIn (target : ℕ) (hok : QueueOk queue) :
    FirstFrom (queueDocs queue) maxDocId target (s.skipIn target queue hok).1 := by
  obtain ⟨hok', hdocs⟩ := skipTops_spec order target queue hok
  have hfound : (s.skipIn target queue hok).1 =
      ((skipTops order target queue).head?.map fun top => top.iter.doc).getD maxDocId := rfl
  cases hskip : skipTops order target queue with
  | nil =>
    rw [hfound, hskip, head?_nil, map_none, getD_none, FirstFrom]
    intro x hx
    by_contra hle
    have hmem : x ∈ queueDocs (skipTops order target queue) := hdocs ▸ ⟨hx, not_lt.mp hle⟩
    rw [hskip, queueDocs_nil] at hmem
    exact hmem
  | cons top others =>
    rw [hskip] at hok' hdocs
    have hlt : top.iter.doc ≠ maxDocId := by
      obtain ⟨entry, -, hmem⟩ := hok'.isLeast.1
      exact (entry.iter.below _ hmem).ne
    rw [hfound, hskip, head?_cons, map_some, getD_some, FirstFrom, if_neg hlt, ← hdocs]
    exact hok'.isLeast

/-- What `do_skipTo` does: there are no children, or it skips in a queue with all documents
that are left. -/
theorem doSkipTo_cases (target : ℕ) (s : ORDocumentIterator order) :
    (s.rest = ∅ ∧ s.doSkipTo target = (maxDocId, { s with currDoc := maxDocId })) ∨
      ∃ queue hok, s.doSkipTo target = s.skipIn target queue hok ∧ s.rest = queueDocs queue := by
  unfold doSkipTo
  split
  · rename_i hqueue
    split
    · rename_i hlist
      refine .inl ⟨?_, rfl⟩
      rw [rest, hqueue, hlist]
      ext x
      simp
    · refine .inr ⟨_, initDocIteratorQueue_ok order s.docIteratorList, rfl, ?_⟩
      rw [queueDocs_init order (s.unstarted hqueue), rest, hqueue]
  · rename_i queue hqueue
    refine .inr ⟨queue, (s.queueOk queue hqueue).1, rfl, ?_⟩
    rw [rest, hqueue]

instance : LawfulDocumentIterator (ORDocumentIterator order) where
  next := doNext
  doc := currDoc
  skipTo := doSkipTo
  size := size
  size_next s h := by
    obtain hnext | ⟨queue, hok, hnext, -, hweight⟩ := s.doNext_cases
    · rw [hnext] at h
      cases h
    · rw [hnext] at h ⊢
      rw [size_goToTop]
      refine hweight ?_
      rintro rfl
      exact Bool.false_ne_true h
  skipTo_found t s := by
    obtain ⟨-, hskip⟩ | ⟨queue, hok, hskip, -⟩ := doSkipTo_cases t s
    · rw [hskip]
      exact .inl rfl
    · rw [hskip]
      unfold skipIn
      dsimp only
      cases hqueue : (skipTops order t queue).head? with
      | none => exact .inl rfl
      | some top =>
        have hle := (skipTops_top order t queue top hqueue).2
        exact top.iter.doc_le.imp id fun hlt => ⟨hle, hlt⟩
  rest := rest
  rest_next s := by
    obtain hnext | ⟨queue, hok, hnext, hpart, -⟩ := s.doNext_cases
    · rw [hnext]
      exact .refl _
    · rw [hnext, rest_goToTop]
      exact hpart
  least_next s h := by
    obtain hnext | ⟨queue, hok, hnext, -, -⟩ := s.doNext_cases
    · rw [hnext] at h
      cases h
    · rw [hnext] at h ⊢
      exact isLeast_goToTop s hok h
  rest_skipTo t s := by
    obtain ⟨hempty, hskip⟩ | ⟨queue, hok, hskip, hrest⟩ := doSkipTo_cases t s
    · rw [hskip, hempty, Set.sep_empty]
      exact hempty
    · rw [hskip, hrest]
      exact rest_skipIn s t hok
  first_skipTo t s := by
    obtain ⟨hempty, hskip⟩ | ⟨queue, hok, hskip, hrest⟩ := doSkipTo_cases t s
    · rw [hskip, hempty, FirstFrom, if_pos rfl]
      exact fun x hx => absurd hx (Set.notMem_empty x)
    · rw [hskip, hrest]
      exact first_skipIn s t hok

end ORDocumentIterator

end AdDelivery.SearchManager
