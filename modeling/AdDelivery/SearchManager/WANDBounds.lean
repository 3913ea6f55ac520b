import AdDelivery.SearchManager.WANDDocumentIterator
import Mathlib.Algebra.BigOperators.Group.Multiset.Basic
import Mathlib.Algebra.Order.BigOperators.Group.List

/-!
# The children of a WAND iterator

A document is a candidate when the upper bounds of the children that have it still to visit sum
above the threshold. The lemmas say which of these bounds the loops over the children keep.
-/

namespace AdDelivery.SearchManager

open List TermDocumentIterator

/-- The upper bounds of the children that have the document still to visit. -/
def bounds (x : ℕ) (entries : List WANDEntry) : Multiset ℚ :=
  (entries.filter fun entry => x ∈ entry.iter.docs).map fun entry => entry.ub

/-- Some child has the document, and the upper bounds sum above the threshold. -/
def Candidate (threshold : ℚ) (ubs : Multiset ℚ) : Prop := ubs ≠ 0 ∧ threshold < ubs.sum

variable (x : ℕ)

theorem bounds_append (entries entries' : List WANDEntry) :
    bounds x (entries ++ entries') = bounds x entries + bounds x entries' := by
  rw [bounds, filter_append, map_append]
  rfl

theorem bounds_cons (entry : WANDEntry) (entries : List WANDEntry) :
    bounds x (entry :: entries) = bounds x [entry] + bounds x entries :=
  bounds_append x [entry] entries

theorem bounds_perm {entries entries' : List WANDEntry} (h : entries.Perm entries') (x : ℕ) :
    bounds x entries = bounds x entries' :=
  Multiset.coe_eq_coe.mpr ((h.filter _).map _)

theorem bounds_insertEntry (entry : WANDEntry) (sorter : List WANDEntry) :
    bounds x (insertEntry entry sorter) = bounds x [entry] + bounds x sorter :=
  (bounds_perm (perm_insertEntry entry sorter) x).trans (bounds_cons x entry sorter)

/-- Only the documents and the upper bound of a child count. -/
theorem bounds_singleton_congr {x : ℕ} {entry entry' : WANDEntry} (hub : entry.ub = entry'.ub)
    (hmem : x ∈ entry.iter.docs ↔ x ∈ entry'.iter.docs) : bounds x [entry] = bounds x [entry'] := by
  by_cases hx : x ∈ entry.iter.docs
  · rw [bounds, bounds, filter_cons_of_pos (by simpa using hx),
      filter_cons_of_pos (by simpa using hmem.mp hx)]
    simp [hub]
  · rw [bounds, bounds, filter_cons_of_neg (by simpa using hx),
      filter_cons_of_neg (by simpa [← hmem] using hx)]

variable {entries : List WANDEntry}

theorem bounds_eq_zero {x : ℕ} (h : ∀ entry ∈ entries, x ∉ entry.iter.docs) :
    bounds x entries = 0 := by
  rw [bounds, filter_eq_nil_iff.mpr (by simpa using h)]
  rfl

theorem bounds_ne_zero_iff {x : ℕ} :
    bounds x entries ≠ 0 ↔ ∃ entry ∈ entries, x ∈ entry.iter.docs := by
  constructor
  · intro hne
    by_contra hnone
    push Not at hnone
    exact hne (bounds_eq_zero hnone)
  · rintro ⟨entry, hentry, hx⟩ hzero
    have hmem : entry.ub ∈ bounds x entries :=
      Multiset.mem_coe.mpr (mem_map_of_mem (mem_filter.mpr ⟨hentry, by simpa using hx⟩))
    rw [hzero] at hmem
    exact Multiset.notMem_zero _ hmem

theorem sum_bounds_le (entries : List WANDEntry) : (bounds x entries).sum ≤ sumUB entries := by
  induction entries with
  | nil => exact le_rfl
  | cons entry entries ih =>
    rw [bounds_cons, Multiset.sum_add]
    refine add_le_add ?_ ih
    by_cases hx : x ∈ entry.iter.docs
    · rw [bounds, filter_cons_of_pos (by simpa using hx)]
      simp
    · rw [bounds, filter_cons_of_neg (by simpa using hx)]
      exact entry.ub_nonneg

theorem sum_bounds_eq {x : ℕ} (h : ∀ entry ∈ entries, x ∈ entry.iter.docs) :
    (bounds x entries).sum = sumUB entries := by
  rw [bounds, filter_eq_self.mpr (by simpa using h)]
  exact Multiset.sum_coe _

theorem sum_bounds_nonneg (entries : List WANDEntry) : 0 ≤ (bounds x entries).sum := by
  apply sum_nonneg
  intro ub hub
  obtain ⟨entry, -, rfl⟩ := mem_map.mp hub
  exact entry.ub_nonneg

/-- A child at its end. -/
def WANDEntry.Exhausted (entry : WANDEntry) : Prop := entry.iter.docs = []

/-- A child on a document. -/
structure WANDEntry.Live (entry : WANDEntry) : Prop where
  started : entry.iter.started = true
  some_doc : entry.iter.docs ≠ []

namespace WANDEntry

variable {entry : WANDEntry} {x : ℕ}

theorem Live.isLeast_doc (h : entry.Live) : IsLeast {x | x ∈ entry.iter.docs} entry.iter.doc :=
  TermDocumentIterator.isLeast_doc h.some_doc

theorem Exhausted.not_mem (h : entry.Exhausted) : x ∉ entry.iter.docs := by
  rw [show entry.iter.docs = [] from h]
  exact not_mem_nil

end WANDEntry

theorem bounds_exhausted (h : ∀ entry ∈ entries, entry.Exhausted) (x : ℕ) : bounds x entries = 0 :=
  bounds_eq_zero fun entry hentry => (h entry hentry).not_mem

variable {sorter : List WANDEntry}

theorem mem_insertEntry {entry other : WANDEntry} :
    other ∈ insertEntry entry sorter ↔ other = entry ∨ other ∈ sorter :=
  (perm_insertEntry entry sorter).mem_iff.trans mem_cons

theorem exhausted_passFlagged (sorter : List WANDEntry) :
    ∀ entry ∈ (passFlagged sorter).erased, entry.Exhausted := by
  fun_induction passFlagged sorter with
  | case1 => exact forall_mem_nil _
  | case2 front others hcurrent moved hnext ih => exact ih
  | case3 front others hcurrent moved hnext ih =>
    refine forall_mem_cons.mpr ⟨?_, ih⟩
    exact next_docs_eq_nil hnext
  | case4 front others hcurrent => exact forall_mem_nil _

variable (target : ℕ)

theorem exhausted_skipPre (sorter : List WANDEntry) :
    ∀ entry ∈ (skipPre target sorter).erased, entry.Exhausted := by
  fun_induction skipPre target sorter with
  | case1 => exact forall_mem_nil _
  | case2 front others hdoc moved hend ih =>
    refine forall_mem_cons.mpr ⟨?_, ih⟩
    rcases front.iter.skipTo_cases target with ⟨-, hnil⟩ | ⟨hle, hlt, -⟩
    · exact hnil
    · omega
  | case3 front others hdoc moved hend ih => exact ih
  | case4 front others hdoc => exact forall_mem_nil _

theorem live_passFlagged (h : ∀ entry ∈ sorter, entry.Live) :
    ∀ entry ∈ (passFlagged sorter).sorter, entry.Live := by
  fun_induction passFlagged sorter with
  | case1 => exact h
  | case2 front others hcurrent moved hnext ih =>
    refine ih fun entry hentry => ?_
    rcases mem_insertEntry.mp hentry with rfl | hentry
    · exact ⟨rfl, next_docs_ne_nil hnext⟩
    · exact h entry (mem_cons_of_mem front hentry)
  | case3 front others hcurrent moved hnext ih =>
    exact ih fun entry hentry => h entry (mem_cons_of_mem front hentry)
  | case4 front others hcurrent => exact h

theorem live_skipPre (h : ∀ entry ∈ sorter, entry.Live) :
    ∀ entry ∈ (skipPre target sorter).sorter, entry.Live := by
  fun_induction skipPre target sorter with
  | case1 => exact h
  | case2 front others hdoc moved hend ih =>
    exact ih fun entry hentry => h entry (mem_cons_of_mem front hentry)
  | case3 front others hdoc moved hend ih =>
    refine ih fun entry hentry => ?_
    rcases mem_insertEntry.mp hentry with rfl | hentry
    · refine ⟨rfl, fun hnil => ?_⟩
      obtain ⟨-, -, hhead⟩ := skipTo_found fun hmax => hend (.inl hmax)
      rw [show (front.iter.skipTo target).2.docs = [] from hnil] at hhead
      cases hhead
    · exact h entry (mem_cons_of_mem front hentry)
  | case4 front others hdoc => exact h

/-- Children on a document that is passed over leave every later one as it was. -/
theorem bounds_passFlagged {x : ℕ}
    (h : ∀ entry ∈ sorter, entry.current = true → entry.iter.doc < x) :
    bounds x (passFlagged sorter).erased + bounds x (passFlagged sorter).sorter =
      bounds x sorter := by
  fun_induction passFlagged sorter with
  | case1 => rfl
  | case2 front others hcurrent moved hnext ih =>
    have hdoc := h front mem_cons_self hcurrent
    have hmoved : bounds x [moved] = bounds x [front] :=
      bounds_singleton_congr rfl (mem_next_iff hdoc.ne')
    rw [ih, bounds_insertEntry, hmoved, ← bounds_cons]
    intro entry hentry hflag
    rcases mem_insertEntry.mp hentry with rfl | hentry
    · cases hflag
    · exact h entry (mem_cons_of_mem front hentry) hflag
  | case3 front others hcurrent moved hnext ih =>
    have hdoc := h front mem_cons_self hcurrent
    have hmoved : bounds x [moved] = bounds x [front] :=
      bounds_singleton_congr rfl (mem_next_iff hdoc.ne')
    dsimp only [Sorting.erase]
    rw [bounds_cons, hmoved, add_assoc, ih, ← bounds_cons]
    exact fun entry hentry => h entry (mem_cons_of_mem front hentry)
  | case4 front others hcurrent => exact zero_add (bounds x (front :: others))

theorem bounds_skipPre {target x : ℕ} (hx : target ≤ x) (sorter : List WANDEntry) :
    bounds x (skipPre target sorter).erased + bounds x (skipPre target sorter).sorter =
      bounds x sorter := by
  have hmoved (front : WANDEntry) : bounds x
      [{ front with iter := (front.iter.skipTo target).2 }] = bounds x [front] :=
    bounds_singleton_congr rfl ((front.iter.mem_skipTo target x).trans (and_iff_left hx))
  fun_induction skipPre target sorter with
  | case1 => rfl
  | case2 front others hdoc moved hend ih =>
    dsimp only [Sorting.erase]
    rw [bounds_cons, hmoved front, add_assoc, ih, ← bounds_cons]
  | case3 front others hdoc moved hend ih =>
    rw [ih, bounds_insertEntry, hmoved front, ← bounds_cons]
  | case4 front others hdoc => exact zero_add (bounds x (front :: others))

/-- In front of the target no child is left. -/
theorem le_doc_skipPre (h : SortedByDoc sorter) :
    ∀ entry ∈ (skipPre target sorter).sorter, target ≤ entry.iter.doc := by
  fun_induction skipPre target sorter with
  | case1 => exact forall_mem_nil _
  | case2 front others hdoc moved hend ih => exact ih (pairwise_cons.mp h).2
  | case3 front others hdoc moved hend ih =>
    exact ih (sortedByDoc_insertEntry _ (pairwise_cons.mp h).2)
  | case4 front others hdoc =>
    refine forall_mem_cons.mpr ⟨not_lt.mp hdoc, fun entry hentry => ?_⟩
    exact (not_lt.mp hdoc).trans ((pairwise_cons.mp h).1 entry hentry)

theorem skipPre_eq_self {target : ℕ} (h : ∀ entry ∈ sorter, target ≤ entry.iter.doc) :
    skipPre target sorter = ⟨sorter, []⟩ := by
  cases sorter with
  | nil => rw [skipPre]
  | cons front others => rw [skipPre, if_neg (h front mem_cons_self).not_gt]

/-- No child is flagged. -/
def Unflagged (sorter : List WANDEntry) : Prop := ∀ entry ∈ sorter, entry.current = false

/-- The flagged children are those on the document, and none is in front of it. -/
def FlaggedOn (doc : ℕ) (sorter : List WANDEntry) : Prop :=
  ∀ entry ∈ sorter, doc ≤ entry.iter.doc ∧ (entry.current = true ↔ entry.iter.doc = doc)

theorem passFlagged_eq_self (h : Unflagged sorter) : passFlagged sorter = ⟨sorter, []⟩ := by
  cases sorter with
  | nil => rw [passFlagged]
  | cons front others =>
    rw [passFlagged, if_neg]
    rw [h front mem_cons_self]
    exact Bool.false_ne_true

/-- The flagged children are all in front, and all of them move on. -/
theorem unflagged_passFlagged {doc : ℕ} (hsorted : SortedByDoc sorter)
    (hlive : ∀ entry ∈ sorter, entry.Live) (h : FlaggedOn doc sorter) :
    Unflagged (passFlagged sorter).sorter := by
  fun_induction passFlagged sorter with
  | case1 => exact forall_mem_nil _
  | case2 front others hcurrent moved hnext ih =>
    obtain ⟨hfront, hothers⟩ := forall_mem_cons.mp h
    have hmoved : moved.Live := ⟨rfl, next_docs_ne_nil hnext⟩
    refine ih (sortedByDoc_insertEntry _ (pairwise_cons.mp hsorted).2)
      (fun entry hentry => ?_) fun entry hentry => ?_
    · rcases mem_insertEntry.mp hentry with rfl | hentry
      · exact hmoved
      · exact hlive entry (mem_cons_of_mem front hentry)
    · rcases mem_insertEntry.mp hentry with rfl | hentry
      · have hlt : front.iter.doc < moved.iter.doc :=
          doc_lt_next (hlive front mem_cons_self).started hnext
        have hon := hfront.1.trans_lt hlt
        exact ⟨hon.le, iff_of_false Bool.false_ne_true hon.ne'⟩
      · exact hothers entry hentry
  | case3 front others hcurrent moved hnext ih =>
    exact ih (pairwise_cons.mp hsorted).2
      (fun entry hentry => hlive entry (mem_cons_of_mem front hentry))
      (forall_mem_cons.mp h).2
  | case4 front others hcurrent =>
    obtain ⟨hfront, hothers⟩ := forall_mem_cons.mp h
    have hlt : doc < front.iter.doc :=
      lt_of_le_of_ne hfront.1 fun heq => hcurrent (hfront.2.mpr heq.symm)
    refine forall_mem_cons.mpr ⟨Bool.eq_false_iff.mpr hcurrent, fun entry hentry => ?_⟩
    have hle := (pairwise_cons.mp hsorted).1 entry hentry
    exact Bool.eq_false_iff.mpr fun hflag =>
      (hlt.trans_le hle).ne' ((hothers entry hentry).2.mp hflag)

theorem sumUB_perm {sorter sorter' : List WANDEntry} (h : sorter.Perm sorter') :
    sumUB sorter = sumUB sorter' :=
  (h.map _).sum_eq

theorem sumUB_skipPre_le (sorter : List WANDEntry) :
    sumUB (skipPre target sorter).sorter ≤ sumUB sorter := by
  fun_induction skipPre target sorter with
  | case1 => exact le_rfl
  | case2 front others hdoc moved hend ih =>
    exact ih.trans (le_add_of_nonneg_left front.ub_nonneg)
  | case3 front others hdoc moved hend ih =>
    rw [sumUB_perm (perm_insertEntry moved others)] at ih
    exact ih
  | case4 front others hdoc => exact le_rfl

theorem unflagged_skipPre (h : Unflagged sorter) : Unflagged (skipPre target sorter).sorter := by
  fun_induction skipPre target sorter with
  | case1 => exact h
  | case2 front others hdoc moved hend ih => exact ih (forall_mem_cons.mp h).2
  | case3 front others hdoc moved hend ih =>
    obtain ⟨hfront, hothers⟩ := forall_mem_cons.mp h
    refine ih fun entry hentry => ?_
    rcases mem_insertEntry.mp hentry with rfl | hentry
    · exact hfront
    · exact hothers entry hentry
  | case4 front others hdoc => exact h

end AdDelivery.SearchManager
