import AdDelivery.Core.Run
import AdDelivery.SearchManager.WANDEnumeration

/-!
# Skips of a WAND iterator

A skip clears the flags, so that the children on the current document stay there, and then calls
`next`, which reports nothing up to the current document. So a skip comes to the first candidate
above the current document, also when its target is not above it.
-/

namespace AdDelivery.SearchManager

open List Report

namespace WANDDocumentIterator

variable {s : WANDDocumentIterator}

/-- Without flags the loop over the flagged children has nothing to do. -/
theorem Ok.unflag (h : s.Ok) (hidle : ∀ entry ∈ s.idle, entry.Exhausted) :
    (s.flag fun _ => false).Passed ∧ Kept s (s.flag fun _ => false) := by
  have hexhausted : ∀ entry ∈ (s.flag fun _ => false).idle, entry.Exhausted :=
    forall_mem_map.mpr hidle
  refine ⟨⟨hexhausted, live_flag h.live _, forall_mem_map.mpr fun entry _ => rfl,
    h.limit.imp_right fun hfinished => ⟨hexhausted, hfinished.below.imp ?_ ?_⟩⟩,
    .of_bounds rfl rfl fun x _ => s.bounds_flag_all _ x⟩
  · exact map_eq_nil_iff.mpr
  · intro hle
    refine Eq.trans_le ?_ hle
    rw [sumUB, flag, map_map]
    rfl

/-- What a skip does to what is to come. -/
structure Skips (s : WANDDocumentIterator) (target : ℕ) (skipped : ℕ × WANDDocumentIterator) :
    Prop where
  ok : skipped.2.Ok
  first : FirstFrom s.toCome maxDocId target skipped.1
  toCome : skipped.2.toCome =
    if skipped.1 = maxDocId then ∅ else {x ∈ s.toCome | skipped.1 < x}

theorem Skips.of_finished {s s' : WANDDocumentIterator} {target : ℕ} (hok : s'.Ok)
    (h : s'.Finished) (hnone : {x ∈ s.toCome | target ≤ x} = ∅) :
    Skips s target (maxDocId, s') := by
  refine ⟨hok, ?_, ?_⟩
  · intro x hx
    by_contra hle
    have hmem : x ∈ {x ∈ s.toCome | target ≤ x} := ⟨hx, not_lt.mp hle⟩
    rw [hnone] at hmem
    exact hmem
  · exact h.toCome_eq

/-- At its end the iterator goes to the document that stands for none. -/
theorem Passed.skips_end {s s' : WANDDocumentIterator} {target : ℕ} (h : s'.Passed)
    (hfinished : s'.Finished) (hnone : {x ∈ s.toCome | target ≤ x} = ∅) :
    Skips s target (maxDocId, { s' with currDoc := maxDocId }) := by
  have hfinished' : Finished { s' with currDoc := maxDocId } :=
    ⟨hfinished.exhausted, hfinished.below⟩
  have hpassed : Passed { s' with currDoc := maxDocId } :=
    ⟨h.exhausted, h.live, h.unflagged, .inr hfinished'⟩
  exact .of_finished hpassed.ok hfinished' hnone

theorem Ok.skips (h : s.Ok) (target : ℕ) : Skips s target (s.doSkipTo target) := by
  obtain ⟨hok, hexhausted, hready⟩ := h.ready
  obtain ⟨hunflagged, hflag⟩ := hok.unflag hexhausted
  obtain ⟨hpassed, hrest⟩ := hunflagged.skipAll target
  rw [hflag.toCome, hready.toCome] at hrest
  unfold doSkipTo
  split
  · rename_i hempty
    have hnil : s.ready.sorter = [] := isEmpty_iff.mp hempty
    have hfinished : s.ready.Finished := ⟨hexhausted, .inl hnil⟩
    have hpassed : s.ready.Passed :=
      ⟨hexhausted, hok.live, by rw [hnil]; exact forall_mem_nil _, hok.limit⟩
    refine hpassed.skips_end hfinished ?_
    rw [← hready.toCome, hfinished.toCome_eq]
    exact Set.sep_empty _
  · generalize hskipped : (s.ready.flag fun _ => false).skipAll target = skipped at hpassed hrest
    have hprocess : (s.ready.flag fun _ => false).processPrePostings target =
        (!skipped.sorter.isEmpty, skipped) := by
      rw [← hskipped]
      rfl
    rw [hprocess]
    dsimp only
    cases hempty : skipped.sorter.isEmpty with
    | true =>
      have hfinished : skipped.Finished :=
        ⟨hpassed.exhausted, .inl (isEmpty_iff.mp hempty)⟩
      exact .of_finished hpassed.ok hfinished (hrest.symm.trans hfinished.toCome_eq)
    | false =>
      have hright := hpassed.ok.right_doNext
      cases hnext : skipped.doNext.1 with
      | false =>
        rw [hnext] at hright
        exact hright.passed.skips_end hright.finished (hrest.symm.trans hright.nothing)
      | true =>
        rw [hnext] at hright
        have hne := hright.below.ne
        refine ⟨hright.ok, ?_, ?_⟩
        · change FirstFrom s.toCome maxDocId target skipped.doNext.2.currDoc
          rw [FirstFrom, if_neg hne, ← hrest]
          exact hright.least
        · change skipped.doNext.2.toCome = if skipped.doNext.2.currDoc = maxDocId then ∅ else _
          have hleast := hright.least
          rw [hrest] at hleast
          rw [if_neg hne, hright.toCome, hrest]
          ext x
          constructor
          · rintro ⟨⟨hx, -⟩, hlt⟩
            exact ⟨hx, hlt⟩
          · rintro ⟨hx, hlt⟩
            exact ⟨⟨hx, hleast.1.2.trans hlt.le⟩, hlt⟩

end WANDDocumentIterator

/-- What the last call has reported is for the next calls the document to come from. -/
def Report.rest (C : Set ℕ) : Report → Set ℕ
  | .fresh => C
  | .found d => {x ∈ C | d < x}
  | .nothing => ∅

/-- The current document included. -/
def Report.ahead (C : Set ℕ) : Report → Set ℕ
  | .fresh => C
  | .found d => {x ∈ C | d ≤ x}
  | .nothing => ∅

structure WANDWalk where
  iterator : WANDDocumentIterator
  report : Report

def WANDWalk.call (w : WANDWalk) : WalkCall → WANDWalk
  | .next => ⟨w.iterator.doNext.2,
      if w.iterator.doNext.1 then .found w.iterator.doNext.2.currDoc else .nothing⟩
  | .skipTo target => ⟨(w.iterator.doSkipTo target).2,
      if (w.iterator.doSkipTo target).1 = maxDocId then .nothing
      else .found (w.iterator.doSkipTo target).1⟩

def WANDStep (w : WANDWalk) (c : WalkCall) (w' : WANDWalk) : Prop := w' = w.call c

/-- Of the candidates `C`, those above the document reported are to come. -/
structure WANDWalkOk (C : Set ℕ) (w : WANDWalk) : Prop where
  ok : w.iterator.Ok
  toCome : w.iterator.toCome = w.report.rest C
  found : ∀ d, w.report = .found d → d ∈ C

theorem Report.rest_subset (C : Set ℕ) (report : Report) : report.rest C ⊆ C := by
  cases report with
  | fresh => exact subset_rfl
  | found d => exact Set.sep_subset C _
  | nothing => exact Set.empty_subset C

variable {C : Set ℕ}

/-- Above what has been reported, all candidates are to come. -/
theorem Report.sep_rest {report : Report} {d : ℕ} (h : d ∈ report.rest C) :
    {x ∈ report.rest C | d < x} = {x ∈ C | d < x} := by
  ext x
  cases report with
  | fresh => rfl
  | found d' =>
    constructor
    · rintro ⟨⟨hx, -⟩, hlt⟩
      exact ⟨hx, hlt⟩
    · rintro ⟨hx, hlt⟩
      exact ⟨⟨hx, h.2.trans hlt⟩, hlt⟩
  | nothing => exact absurd h (Set.notMem_empty d)

theorem wandWalkOk_step (w : WANDWalk) (c : WalkCall) (w' : WANDWalk) (h : WANDWalkOk C w)
    (hstep : WANDStep w c w') : WANDWalkOk C w' := by
  subst hstep
  cases c with
  | next =>
    have hright := h.ok.right_doNext
    unfold WANDWalk.call
    cases hnext : w.iterator.doNext.1 with
    | false =>
      rw [hnext] at hright
      exact ⟨hright.passed.ok, hright.finished.toCome_eq, fun d => Report.noConfusion⟩
    | true =>
      rw [hnext] at hright
      have hleast := hright.least
      have htoCome := hright.toCome
      rw [h.toCome] at hleast htoCome
      refine ⟨hright.ok, htoCome.trans (sep_rest hleast.1), fun d hd => ?_⟩
      obtain rfl := found.inj hd
      exact rest_subset C w.report hleast.1
  | skipTo target =>
    have hskips := h.ok.skips target
    have hfirst := hskips.first
    have htoCome := hskips.toCome
    unfold WANDWalk.call
    dsimp only
    split at htoCome
    · rename_i hmax
      rw [if_pos hmax]
      exact ⟨hskips.ok, htoCome, fun d => Report.noConfusion⟩
    · rename_i hmax
      rw [if_neg hmax]
      have hleast := hfirst.isLeast hmax
      rw [h.toCome] at hleast htoCome
      refine ⟨hskips.ok, htoCome.trans (sep_rest hleast.1.1), fun d hd => ?_⟩
      obtain rfl := found.inj hd
      exact rest_subset C w.report hleast.1.1

/-- A skip is right exactly when its target is above the document that the last call has
reported. -/
theorem WANDWalkOk.skipTo_first_iff {w : WANDWalk} (h : WANDWalkOk C w) (target : ℕ) :
    FirstFrom (w.report.ahead C) maxDocId target (w.iterator.doSkipTo target).1 ↔
      ∀ d, w.report = .found d → d < target := by
  have hfirst := (h.ok.skips target).first
  rw [h.toCome] at hfirst
  have hfound := h.found
  cases hreport : w.report with
  | fresh =>
    rw [hreport] at hfirst
    exact iff_of_true hfirst fun _ => Report.noConfusion
  | nothing =>
    rw [hreport] at hfirst
    exact iff_of_true hfirst fun _ => Report.noConfusion
  | found d =>
    rw [hreport] at hfirst
    constructor
    · intro hahead d' hd'
      obtain rfl := found.inj hd'
      by_contra hle
      -- the current document is the first one, and the skip is above it
      have hd : d ∈ {x ∈ (Report.found d).ahead C | target ≤ x} :=
        ⟨⟨hfound d hreport, le_rfl⟩, not_lt.mp hle⟩
      by_cases hmax : (w.iterator.doSkipTo target).1 = maxDocId
      · rw [hmax] at hahead
        exact hle (hahead.below d hd.1)
      · exact ((hahead.isLeast hmax).2 hd).not_gt (hfirst.isLeast hmax).1.1.2
    · intro habove
      have hlt := habove d rfl
      refine (firstFrom_congr ?_).mp hfirst
      ext x
      constructor
      · rintro ⟨⟨hx, hdx⟩, ht⟩
        exact ⟨⟨hx, hdx.le⟩, ht⟩
      · rintro ⟨⟨hx, -⟩, ht⟩
        exact ⟨⟨hx, hlt.trans_le ht⟩, ht⟩

theorem wandWalkOk_start (lists : List PostingList) (threshold : ℚ) :
    WANDWalkOk (candidates lists threshold) ⟨.start lists threshold, .fresh⟩ :=
  ⟨WANDDocumentIterator.ok_start lists threshold, WANDDocumentIterator.toCome_start lists threshold,
    fun _ => Report.noConfusion⟩

/-- After any calls of `next` and `skipTo`, a skip comes to the first candidate from its target
on exactly when the target is above the current document. -/
theorem wandSkipTo_first_iff (lists : List PostingList) (threshold : ℚ) {calls : List WalkCall}
    {w : WANDWalk} (hrun : Run WANDStep ⟨.start lists threshold, .fresh⟩ calls w) (target : ℕ) :
    FirstFrom (w.report.ahead (candidates lists threshold)) maxDocId target
        (w.iterator.doSkipTo target).1 ↔ ∀ d, w.report = .found d → d < target :=
  (hrun.invariant wandWalkOk_step (wandWalkOk_start lists threshold)).skipTo_first_iff target

theorem increasing_one_five : [1, 5].Pairwise (· < ·) := by decide

theorem one_five_below : ∀ d ∈ [1, 5], d < maxDocId := by decide

/-- The documents 1 and 5, with the upper bound 1. -/
def postings15 : PostingList where
  docs := [1, 5]
  increasing := increasing_one_five
  below := one_five_below
  ub := 1
  ub_nonneg := zero_le_one
  positive := by decide

theorem candidates_postings15 : candidates [postings15] 0 = {x | x ∈ [1, 5]} := by
  ext x
  constructor
  · rintro ⟨⟨list, hlist, hx⟩, -⟩
    rw [mem_singleton.mp hlist] at hx
    exact hx
  · intro hx
    refine ⟨⟨postings15, mem_singleton_self _, hx⟩, ?_⟩
    have hmem : x ∈ postings15.docs := hx
    rw [filter_cons_of_pos (by simpa using hmem)]
    simp [postings15]

/-- The first call of `next` comes to document 1. -/
theorem report_next_postings15 :
    (WANDWalk.call ⟨.start [postings15] 0, .fresh⟩ .next).report = .found 1 := by
  have hok := wandWalkOk_start [postings15] 0
  have hright := hok.ok.right_doNext
  have htoCome := hok.toCome.trans candidates_postings15
  unfold WANDWalk.call
  cases hnext : (WANDDocumentIterator.start [postings15] 0).doNext.1 with
  | false =>
    rw [hnext] at hright
    have hempty := htoCome.symm.trans hright.nothing
    exact absurd hempty (Set.nonempty_iff_ne_empty.mp ⟨1, mem_cons_self⟩)
  | true =>
    rw [hnext] at hright
    have hleast := hright.least
    rw [htoCome] at hleast
    rw [if_pos rfl, hleast.unique (isLeast_cons increasing_one_five)]

/-- On document 1, a skip to document 5 comes there. -/
theorem wandSkipTo_first_above :
    ∃ w : WANDWalk, Run WANDStep ⟨.start [postings15] 0, .fresh⟩ [.next] w ∧
      FirstFrom (w.report.ahead (candidates [postings15] 0)) maxDocId 5
        (w.iterator.doSkipTo 5).1 := by
  have hrun : Run WANDStep ⟨.start [postings15] 0, .fresh⟩ [.next] _ := .cons rfl (.nil _)
  refine ⟨_, hrun, (wandSkipTo_first_iff [postings15] 0 hrun 5).mpr fun d hd => ?_⟩
  obtain rfl := found.inj (report_next_postings15.symm.trans hd)
  decide

/-- On document 1, a skip to document 1 leaves it. -/
theorem not_wandSkipTo_first_current :
    ∃ w : WANDWalk, Run WANDStep ⟨.start [postings15] 0, .fresh⟩ [.next] w ∧
      ¬FirstFrom (w.report.ahead (candidates [postings15] 0)) maxDocId 1
        (w.iterator.doSkipTo 1).1 := by
  have hrun : Run WANDStep ⟨.start [postings15] 0, .fresh⟩ [.next] _ := .cons rfl (.nil _)
  refine ⟨_, hrun, fun hfirst => ?_⟩
  have hok := hrun.invariant wandWalkOk_step (wandWalkOk_start [postings15] 0)
  exact lt_irrefl 1 ((hok.skipTo_first_iff 1).mp hfirst 1 report_next_postings15)

end AdDelivery.SearchManager
