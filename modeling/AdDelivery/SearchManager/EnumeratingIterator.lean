import AdDelivery.Core.Cursor
import AdDelivery.SearchManager.ANDDocumentIterator
import AdDelivery.SearchManager.ORDocumentIterator

/-!
# What `next` finds

Between calls the children of an AND iterator are on one document, and an OR iterator has
flagged exactly those of its children that are on the least document. So `next` passes that
document and no other one, in the positive part as in the exclusions.
-/

namespace AdDelivery.SearchManager

open List Option Set
open DocumentIterator LawfulDocumentIterator

/-- `Ahead s A` says that `next` has still to find exactly the documents of `A`. -/
class EnumeratingIterator (σ : Type) extends LawfulDocumentIterator σ where
  Ahead : σ → Set ℕ → Prop
  ahead_of_rest_empty : ∀ s, rest s = ∅ → Ahead s ∅
  rest_next_of_ahead : ∀ s A, Ahead s A → rest (next s).2 = A
  empty_of_not_next : ∀ s A, Ahead s A → (next s).1 = false → A = ∅
  ahead_next : ∀ s A, Ahead s A → (next s).1 = true →
    Ahead (next s).2 {x ∈ A | doc (next s).2 < x}

open EnumeratingIterator

theorem stillToCome_ahead (σ : Type) [EnumeratingIterator σ] :
    StillToCome (σ := σ) next doc Ahead where
  nothing s A h hnext := by
    have hA := empty_of_not_next s A h hnext
    exact ⟨hA, ahead_of_rest_empty _ ((rest_next_of_ahead s A h).trans hA)⟩
  found s A h hnext := by
    have hleast := least_next s hnext
    rw [rest_next_of_ahead s A h] at hleast
    exact ⟨hleast, ahead_next s A h hnext⟩

namespace TermDocumentIterator

variable {it : TermDocumentIterator}

/-- A child that was started passes its current document. -/
theorem mem_next_of_started (h : it.started = true) (x : ℕ) :
    x ∈ it.next.2.docs ↔ x ∈ it.docs ∧ it.doc < x := by
  have hinc := it.increasing
  rw [next_docs, if_pos h, doc]
  cases hdocs : it.docs with
  | nil => simp
  | cons d docs =>
    rw [hdocs] at hinc
    have hlt := (pairwise_cons.mp hinc).1
    rw [mem_cons]
    constructor
    · exact fun hx => ⟨.inr hx, hlt x hx⟩
    · rintro ⟨rfl | hx, hdx⟩
      · exact absurd hdx (lt_irrefl x)
      · exact hx

theorem doc_eq_of_head? {d : ℕ} (h : it.docs.head? = some d) : it.doc = d := by
  obtain ⟨docs, hdocs⟩ := head?_eq_some_iff.mp h
  rw [doc, hdocs, headD_cons]

end TermDocumentIterator

open TermDocumentIterator

/-- All children were started, none is below the document, and those on it are flagged. -/
def FlagsExact (d : ℕ) (queue : List QueueEntry) : Prop :=
  ∀ entry ∈ queue, entry.iter.started = true ∧ d ≤ entry.iter.doc ∧
    (entry.current = true ↔ entry.iter.doc = d)

def AllStarted (queue : List QueueEntry) : Prop := ∀ entry ∈ queue, entry.iter.started = true

variable (order : QueueOrder) {queue : List QueueEntry}

theorem AllStarted.adjust (h : AllStarted queue) : AllStarted (order.adjust queue) :=
  fun entry hentry => h entry ((order.perm queue).mem_iff.mp hentry)

theorem FlagsExact.adjust {d : ℕ} (h : FlagsExact d queue) : FlagsExact d (order.adjust queue) :=
  fun entry hentry => h entry ((order.perm queue).mem_iff.mp hentry)

theorem FlagsExact.allStarted {d : ℕ} (h : FlagsExact d queue) : AllStarted queue :=
  fun entry hentry => (h entry hentry).1

theorem flagsExact_setCurrent {top : QueueEntry} {others : List QueueEntry}
    (hok : QueueOk (top :: others)) (hstarted : AllStarted (top :: others)) :
    FlagsExact top.iter.doc (setCurrent top.iter.doc (top :: others)) := by
  intro entry hentry
  obtain ⟨old, hold, rfl⟩ := mem_map.mp hentry
  exact ⟨hstarted old hold, hok.least top rfl old hold, decide_eq_true_iff⟩

theorem allStarted_init (docIteratorList : List TermDocumentIterator) :
    AllStarted (initDocIteratorQueue order docIteratorList) := by
  refine AllStarted.adjust order fun entry hentry => ?_
  obtain ⟨it, -, hit⟩ := mem_filterMap.mp hentry
  split at hit
  · obtain rfl := some.inj hit
    rfl
  · exact absurd hit.symm (some_ne_none entry)

/-- With exact flags the loop passes the current document and no other one. -/
theorem passCurrent_ahead {d : ℕ} (queue : List QueueEntry) (hok : QueueOk queue)
    (hflags : FlagsExact d queue) :
    queueDocs (passCurrent order queue) = {x ∈ queueDocs queue | d < x} ∧
      AllStarted (passCurrent order queue) := by
  fun_induction passCurrent order queue with
  | case1 =>
    refine ⟨?_, forall_mem_nil _⟩
    rw [queueDocs_nil, sep_empty]
  | case2 top others hcurrent hnext ih =>
    obtain ⟨⟨hstarted, -, hflag⟩, hothers⟩ := forall_mem_cons.mp hflags
    have hdoc : top.iter.doc = d := hflag.mp hcurrent
    have hmem := mem_next_of_started hstarted
    have hne := next_docs_ne_nil hnext
    have hlt : d < top.iter.next.2.doc := by
      have hleast := (isLeast_doc hne).1
      rw [← hdoc]
      exact ((hmem _).mp hleast).2
    have hflags' : FlagsExact d (⟨top.iter.next.2, false⟩ :: others) := by
      refine forall_mem_cons.mpr ⟨⟨rfl, hlt.le, ?_⟩, hothers⟩
      exact iff_of_false Bool.false_ne_true hlt.ne'
    have hok' : QueueOk (order.adjust (⟨top.iter.next.2, false⟩ :: others)) := by
      refine queueOk_adjust order (forall_mem_cons.mpr ⟨hne, fun entry hentry => ?_⟩)
      exact hok.ne_nil entry (mem_cons_of_mem top hentry)
    obtain ⟨hdocs, hall⟩ := ih hok' (hflags'.adjust order)
    refine ⟨?_, hall⟩
    rw [hdocs, queueDocs_adjust, queueDocs_cons, queueDocs_cons]
    ext x
    constructor
    · rintro ⟨hx | hx, hd⟩
      · exact ⟨.inl ((hmem x).mp hx).1, hd⟩
      · exact ⟨.inr hx, hd⟩
    · rintro ⟨hx | hx, hd⟩
      · exact ⟨.inl ((hmem x).mpr ⟨hx, hdoc.trans_lt hd⟩), hd⟩
      · exact ⟨.inr hx, hd⟩
  | case3 top others hcurrent hnext ih =>
    obtain ⟨⟨hstarted, -, hflag⟩, hothers⟩ := forall_mem_cons.mp hflags
    have hdoc : top.iter.doc = d := hflag.mp hcurrent
    have hend : top.iter.next.2.docs = [] := by
      rw [next_fst] at hnext
      simpa using hnext
    have hok' : QueueOk (order.adjust others) :=
      queueOk_adjust order fun entry hentry => hok.ne_nil entry (mem_cons_of_mem top hentry)
    have hothers' : FlagsExact d others := hothers
    obtain ⟨hdocs, hall⟩ := ih hok' (hothers'.adjust order)
    refine ⟨?_, hall⟩
    rw [hdocs, queueDocs_adjust, queueDocs_cons]
    ext x
    constructor
    · rintro ⟨hx, hd⟩
      exact ⟨.inr hx, hd⟩
    · rintro ⟨hx | hx, hd⟩
      · have hmem := (mem_next_of_started hstarted x).mpr
          ⟨hx, hdoc.trans_lt hd⟩
        rw [hend] at hmem
        cases hmem
      · exact ⟨hx, hd⟩
  | case4 top others hcurrent =>
    -- no flag on top: no child is on the document any more
    obtain ⟨⟨-, hle, hflag⟩, -⟩ := forall_mem_cons.mp hflags
    have hlt : d < top.iter.doc := lt_of_le_of_ne hle fun heq => hcurrent (hflag.mpr heq.symm)
    refine ⟨(sep_eq_self_iff_mem_true.mpr fun x hx => ?_).symm, hflags.allStarted⟩
    exact hlt.trans_le (hok.isLeast.2 hx)

/-- After a skip the flags are exact again. -/
theorem flagsExact_skipTops (target : ℕ) (queue : List QueueEntry) (hok : QueueOk queue)
    (hstarted : AllStarted queue) : ∀ top ∈ (skipTops order target queue).head?,
      FlagsExact top.iter.doc (skipTops order target queue) := by
  fun_induction skipTops order target queue with
  | case1 =>
    intro top htop
    exact absurd htop.symm (some_ne_none top)
  | case2 top others hle =>
    have hflags := flagsExact_setCurrent hok hstarted
    intro entry hentry
    obtain rfl := some.inj hentry
    exact hflags
  | case3 top others hle hend ih =>
    refine ih (queueOk_adjust order fun entry hentry => ?_) (AllStarted.adjust order ?_)
    · exact hok.ne_nil entry (mem_cons_of_mem top hentry)
    · exact fun entry hentry => hstarted entry (mem_cons_of_mem top hentry)
  | case4 top others hle hend ih =>
    refine ih (queueOk_adjust order ?_) (AllStarted.adjust order ?_)
    · refine forall_mem_cons.mpr ⟨?_, fun entry hentry => ?_⟩
      · obtain ⟨-, -, hhead⟩ := skipTo_found fun hnone => hend (.inl hnone)
        intro hnil
        rw [hnil] at hhead
        exact some_ne_none _ hhead.symm
      · exact hok.ne_nil entry (mem_cons_of_mem top hentry)
    · refine forall_mem_cons.mpr ⟨rfl, fun entry hentry => ?_⟩
      exact hstarted entry (mem_cons_of_mem top hentry)

namespace ORDocumentIterator

variable {order : QueueOrder} {s : ORDocumentIterator order} {A : Set ℕ}

/-- All children are at their end, or none was started, or the flags are exact. -/
def Ahead (s : ORDocumentIterator order) (A : Set ℕ) : Prop :=
  (s.rest = ∅ ∧ A = ∅) ∨ (s.docIteratorQueue = none ∧ A = s.rest) ∨
    ∃ queue d, s.docIteratorQueue = some queue ∧ FlagsExact d queue ∧ A = {x ∈ s.rest | d < x}

theorem ahead_goToTop {queue : List QueueEntry} (hok : QueueOk queue)
    (hstarted : AllStarted queue) (hfound : (s.goToTop queue hok).1 = true) :
    Ahead (s.goToTop queue hok).2 {x ∈ queueDocs queue | (s.goToTop queue hok).2.currDoc < x} := by
  cases queue with
  | nil => cases hfound
  | cons top others =>
    refine .inr (.inr ⟨_, _, rfl, flagsExact_setCurrent hok hstarted, ?_⟩)
    rw [rest_goToTop]
    rfl

/-- `do_next` has nothing to find, or goes to the top of a queue that holds what is ahead. -/
theorem doNext_of_ahead (h : Ahead s A) :
    (s.doNext = (false, s) ∧ s.rest = ∅ ∧ A = ∅) ∨ ∃ queue hok, s.doNext = s.goToTop queue hok ∧
      queueDocs queue = A ∧ AllStarted queue := by
  obtain ⟨hrest, rfl⟩ | ⟨hqueue, rfl⟩ | ⟨queue, d, hqueue, hflags, rfl⟩ := h
  · obtain hnext | ⟨queue, hok, hnext, hpart, -⟩ := s.doNext_cases
    · exact .inl ⟨hnext, hrest, rfl⟩
    · have hdocs : queueDocs queue = ∅ := subset_empty_iff.mp (hrest ▸ hpart.subset)
      cases queue with
      | nil =>
        refine .inr ⟨[], hok, hnext, hdocs, ?_⟩
        exact forall_mem_nil _
      | cons top others => exact absurd (hdocs ▸ hok.isLeast.1) (notMem_empty _)
  · unfold doNext
    split
    · split
      · rename_i hlist
        have hrest : s.rest = ∅ := by
          rw [rest, hqueue, hlist]
          ext x
          simp
        exact .inl ⟨rfl, hrest, hrest⟩
      · refine .inr ⟨_, initDocIteratorQueue_ok order s.docIteratorList, rfl, ?_,
          allStarted_init order s.docIteratorList⟩
        rw [queueDocs_init order (s.unstarted hqueue), rest, hqueue]
    · rename_i queue hsome
      exact absurd (hqueue.symm.trans hsome).symm (some_ne_none queue)
  · unfold doNext
    split
    · rename_i hnone
      exact absurd (hqueue.symm.trans hnone) (some_ne_none queue)
    · rename_i queue' hsome
      obtain rfl := some.inj (hqueue.symm.trans hsome)
      obtain ⟨hok, -⟩ := s.queueOk queue hsome
      obtain ⟨hdocs, hstarted⟩ := passCurrent_ahead order queue hok hflags
      refine .inr ⟨_, (passCurrent_spec order queue hok).1, rfl, ?_, hstarted⟩
      rw [hdocs, rest, hqueue]

instance : EnumeratingIterator (ORDocumentIterator order) where
  Ahead := Ahead
  ahead_of_rest_empty s hrest := .inl ⟨hrest, rfl⟩
  rest_next_of_ahead s A h := by
    change s.doNext.2.rest = A
    obtain ⟨hnext, hrest, rfl⟩ | ⟨queue, hok, hnext, hdocs, -⟩ := doNext_of_ahead h
    · rw [hnext]
      exact hrest
    · rw [hnext, rest_goToTop, hdocs]
  empty_of_not_next s A h hfalse := by
    change s.doNext.1 = false at hfalse
    obtain ⟨-, -, rfl⟩ | ⟨queue, hok, hnext, hdocs, -⟩ := doNext_of_ahead h
    · rfl
    · rw [hnext] at hfalse
      rw [← hdocs]
      cases queue with
      | nil => exact queueDocs_nil
      | cons top others => exact absurd hfalse.symm Bool.false_ne_true
  ahead_next s A h hfound := by
    change s.doNext.1 = true at hfound
    change Ahead s.doNext.2 {x ∈ A | s.doNext.2.currDoc < x}
    obtain ⟨hnext, -, -⟩ | ⟨queue, hok, hnext, hdocs, hstarted⟩ := doNext_of_ahead h
    · rw [hnext] at hfound
      cases hfound
    · rw [hnext] at hfound ⊢
      rw [← hdocs]
      exact ahead_goToTop hok hstarted hfound

theorem ahead_skipIn (target : ℕ) {queue : List QueueEntry} (hok : QueueOk queue)
    (hstarted : AllStarted queue) : Ahead (s.skipIn target queue hok).2
      {x ∈ (s.skipIn target queue hok).2.rest | (s.skipIn target queue hok).1 < x} := by
  have hflags := flagsExact_skipTops order target queue hok hstarted
  have hrest : (s.skipIn target queue hok).2.rest = queueDocs (skipTops order target queue) := rfl
  have hfound : (s.skipIn target queue hok).1 =
      ((skipTops order target queue).head?.map fun top => top.iter.doc).getD maxDocId := rfl
  cases hskip : skipTops order target queue with
  | nil =>
    rw [hskip, queueDocs_nil] at hrest
    refine .inl ⟨hrest, ?_⟩
    rw [hrest, sep_empty]
  | cons top others =>
    rw [hskip] at hfound hflags
    refine .inr (.inr ⟨_, top.iter.doc, rfl, ?_, ?_⟩)
    · rw [hskip]
      exact hflags top rfl
    · rw [hfound]
      rfl

/-- After a skip, what is left beyond the document it has found is ahead. -/
theorem ahead_skipTo (target : ℕ) (h : Ahead s A) :
    Ahead (skipTo target s).2 {x ∈ rest (skipTo target s).2 | (skipTo target s).1 < x} := by
  change Ahead (s.doSkipTo target).2
    {x ∈ (s.doSkipTo target).2.rest | (s.doSkipTo target).1 < x}
  unfold doSkipTo
  split
  · rename_i hqueue
    split
    · rename_i hlist
      have hrest : s.rest = ∅ := by
        rw [rest, hqueue, hlist]
        ext x
        simp
      refine .inl ⟨hrest, subset_empty_iff.mp fun x hx => ?_⟩
      exact hrest ▸ hx.1
    · exact ahead_skipIn target _ (allStarted_init order s.docIteratorList)
  · rename_i queue hqueue
    refine ahead_skipIn target _ ?_
    obtain ⟨hrest, -⟩ | ⟨hnone, -⟩ | ⟨queue', d, hsome, hflags, -⟩ := h
    · rw [rest, hqueue] at hrest
      obtain ⟨hok, -⟩ := s.queueOk queue hqueue
      cases queue with
      | nil => exact forall_mem_nil _
      | cons top others =>
        change queueDocs (top :: others) = ∅ at hrest
        exact absurd (hrest ▸ hok.isLeast.1) (notMem_empty _)
    · exact absurd (hnone.symm.trans hqueue).symm (some_ne_none queue)
    · obtain rfl := some.inj (hqueue.symm.trans hsome)
      exact hflags.allStarted

end ORDocumentIterator

namespace ANDDocumentIterator

variable {s : ANDDocumentIterator} {A : Set ℕ}

/-- No common document is left, or no child was started, or all are on one document. -/
def Ahead (s : ANDDocumentIterator) (A : Set ℕ) : Prop :=
  (s.rest = ∅ ∧ A = ∅) ∨ ((∀ it ∈ s.docIterList, it.started = false) ∧ A = s.rest) ∨
    ∃ d, (∀ it ∈ s.docIterList, it.started = true ∧ it.docs.head? = some d) ∧
      A = {x ∈ s.rest | d < x}

/-- The first child takes the common documents to those that are ahead. -/
theorem mem_front_of_ahead {front : TermDocumentIterator} {others : List TermDocumentIterator}
    (hlist : s.docIterList = front :: others) (h : Ahead s A) (x : ℕ) :
    (∀ it ∈ front.next.2 :: others, x ∈ it.docs) ↔ x ∈ A := by
  have hrest : s.rest = {x | ∀ it ∈ front :: others, x ∈ it.docs} := by
    rw [rest_eq (by rw [hlist]; exact cons_ne_nil _ _), hlist]
  rw [forall_mem_cons]
  obtain ⟨hempty, rfl⟩ | ⟨hfresh, rfl⟩ | ⟨d, hon, rfl⟩ := h
  · refine iff_of_false (fun ⟨hx, hothers⟩ => ?_) (notMem_empty x)
    have hmem : x ∈ s.rest := by
      rw [hrest]
      exact forall_mem_cons.mpr ⟨front.isUpperPart_next.subset hx, hothers⟩
    exact notMem_empty x (hempty ▸ hmem)
  · rw [next_docs,
      hfresh front (hlist ▸ mem_cons_self), hrest]
    exact (forall_mem_cons (p := fun it : TermDocumentIterator => x ∈ it.docs)).symm
  · obtain ⟨hstarted, hhead⟩ := hon front (hlist ▸ mem_cons_self)
    rw [mem_next_of_started hstarted,
      doc_eq_of_head? hhead, hrest]
    constructor
    · rintro ⟨⟨hx, hlt⟩, hothers⟩
      exact ⟨forall_mem_cons.mpr ⟨hx, hothers⟩, hlt⟩
    · rintro ⟨hx, hlt⟩
      obtain ⟨hx, hothers⟩ := forall_mem_cons.mp hx
      exact ⟨⟨hx, hlt⟩, hothers⟩

theorem Ahead.subset_rest (h : Ahead s A) : A ⊆ s.rest := by
  obtain ⟨-, rfl⟩ | ⟨-, rfl⟩ | ⟨d, -, rfl⟩ := h
  · exact empty_subset _
  · exact subset_rfl
  · exact sep_subset _ _

theorem rest_eq_empty (hlist : s.docIterList = []) : s.rest = ∅ :=
  subset_empty_iff.mp fun _ hx => absurd hlist hx.1

theorem rest_doNext_of_ahead (h : Ahead s A) : s.doNext.2.rest = A := by
  obtain ⟨hlist, hnext⟩ | ⟨front, others, hlist, hfront, hnext⟩ |
    ⟨front, others, r, hlist, hfront, rfl, hnext⟩ := s.doNext_cases
  · rw [hnext]
    have hrest := rest_eq_empty hlist
    rw [hrest]
    exact (subset_empty_iff.mp (hrest ▸ h.subset_rest)).symm
  · rw [hnext, rest_eq (cons_ne_nil _ _)]
    ext x
    exact mem_front_of_ahead hlist h x
  · rw [hnext, rest_of_leapt (leapt_doNext others hfront) (by simp)]
    ext x
    refine Iff.trans ?_ (mem_front_of_ahead hlist h x)
    rw [← common_rotate]
    refine and_iff_left_of_imp fun hcommon => ?_
    have hx := hcommon front.next.2 (mem_append_right _ mem_cons_self)
    exact (isLeast_doc (ne_nil_of_mem hx)).2 hx

/-- A search that fails leaves nothing in common. -/
theorem rest_doNext_of_not_found (h : s.doNext.1 = false) : s.doNext.2.rest = ∅ := by
  obtain ⟨hlist, hnext⟩ | ⟨front, others, hlist, hfront, hnext⟩ |
    ⟨front, others, r, hlist, hfront, rfl, hnext⟩ := s.doNext_cases
  · rw [hnext]
    exact rest_eq_empty hlist
  · have hend : front.next.2.docs = [] := by
      rw [next_fst] at hfront
      simpa using hfront
    rw [hnext]
    refine subset_empty_iff.mp fun x hx => ?_
    have hmem := hx.2 front.next.2 mem_cons_self
    rw [hend] at hmem
    cases hmem
  · rw [hnext] at h ⊢
    have hnone := not_isSome_iff_eq_none.mp (Bool.not_eq_true _ ▸ h)
    obtain ⟨it, hit, hdocs⟩ := (leapt_doNext others hfront).missing hnone
    refine subset_empty_iff.mp fun x hx => ?_
    have hmem := hx.2 it hit
    rw [hdocs] at hmem
    cases hmem

theorem ahead_doNext (h : Ahead s A) (hfound : s.doNext.1 = true) :
    Ahead s.doNext.2 {x ∈ A | s.doNext.2.currDoc < x} := by
  have hrest := rest_doNext_of_ahead h
  obtain ⟨hlist, hnext⟩ | ⟨front, others, hlist, hfront, hnext⟩ |
    ⟨front, others, r, hlist, hfront, rfl, hnext⟩ := s.doNext_cases
  · rw [hnext] at hfound
    cases hfound
  · rw [hnext] at hfound
    cases hfound
  · rw [hnext] at hfound hrest ⊢
    obtain ⟨m, hm⟩ := isSome_iff_exists.mp hfound
    obtain ⟨-, hheads⟩ := (leapt_doNext others hfront).found m hm
    refine .inr (.inr ⟨m, hheads, ?_⟩)
    rw [hrest, hm, getD_some]

instance : EnumeratingIterator ANDDocumentIterator where
  Ahead := Ahead
  ahead_of_rest_empty _ hrest := .inl ⟨hrest, rfl⟩
  rest_next_of_ahead _ _ h := rest_doNext_of_ahead h
  empty_of_not_next _ _ h hfalse := (rest_doNext_of_ahead h).symm.trans
    (rest_doNext_of_not_found hfalse)
  ahead_next _ _ h hfound := ahead_doNext h hfound

end ANDDocumentIterator

end AdDelivery.SearchManager
