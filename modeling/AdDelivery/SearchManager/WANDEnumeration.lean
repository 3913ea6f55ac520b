import AdDelivery.Core.Cursor
import AdDelivery.SearchManager.BooleanIterator
import AdDelivery.SearchManager.WANDBounds

/-!
# The documents of a WAND query

No turn of the loop passes a candidate: a child is moved past the current document, or up to a
pivot before which the upper bounds of all children do not reach the threshold. The calls of
`next` report the candidates of the lists one after another.
-/

namespace AdDelivery.SearchManager

open List TermDocumentIterator

namespace WANDDocumentIterator

/-- The candidates above the current document. -/
def toCome (s : WANDDocumentIterator) : Set ℕ :=
  {x | s.currDoc < x ∧ Candidate s.currThreshold (bounds x (s.idle ++ s.sorter))}

/-- No pivot is left. -/
structure Finished (s : WANDDocumentIterator) : Prop where
  exhausted : ∀ entry ∈ s.idle, entry.Exhausted
  below : s.sorter = [] ∨ sumUB s.sorter ≤ s.currThreshold

/-- What holds between the calls. -/
structure Ok (s : WANDDocumentIterator) : Prop where
  idle : ∀ entry ∈ s.idle, entry.iter.started = false ∨ entry.Exhausted
  exhausted : s.sorter ≠ [] → ∀ entry ∈ s.idle, entry.Exhausted
  live : ∀ entry ∈ s.sorter, entry.Live
  flags : Unflagged s.sorter ∨ FlaggedOn s.currDoc s.sorter
  limit : s.currDoc < maxDocId ∨ s.Finished

/-- What holds behind the loop over the flagged children. -/
structure Passed (s : WANDDocumentIterator) : Prop where
  exhausted : ∀ entry ∈ s.idle, entry.Exhausted
  live : ∀ entry ∈ s.sorter, entry.Live
  unflagged : Unflagged s.sorter
  limit : s.currDoc < maxDocId ∨ s.Finished

variable {s s' s'' : WANDDocumentIterator}

theorem Passed.ok (h : s.Passed) : s.Ok :=
  ⟨fun entry hentry => .inr (h.exhausted entry hentry), fun _ => h.exhausted, h.live,
    .inl h.unflagged, h.limit⟩

/-- Only the children in the sorter have documents. -/
theorem bounds_of_exhausted (h : ∀ entry ∈ s.idle, entry.Exhausted) (x : ℕ) :
    bounds x (s.idle ++ s.sorter) = bounds x s.sorter := by
  rw [bounds_append, bounds_exhausted h, zero_add]

theorem Finished.toCome_eq (h : s.Finished) : s.toCome = ∅ := by
  ext x
  refine iff_of_false ?_ (Set.notMem_empty x)
  rintro ⟨-, hne, hlt⟩
  rw [bounds_of_exhausted h.exhausted] at hne hlt
  rcases h.below with hnil | hle
  · rw [hnil] at hne
    exact hne rfl
  · exact (hlt.trans_le (sum_bounds_le x s.sorter)).not_ge hle

/-- Nothing is lost on the way from one state to the other. -/
structure Kept (s s' : WANDDocumentIterator) : Prop where
  currThreshold : s'.currThreshold = s.currThreshold
  toCome : s'.toCome = s.toCome

theorem Kept.trans (h : Kept s s') (h' : Kept s' s'') : Kept s s'' :=
  ⟨h'.currThreshold.trans h.currThreshold, h'.toCome.trans h.toCome⟩

/-- States with the same bounds above the current document. -/
theorem Kept.of_bounds (hthreshold : s'.currThreshold = s.currThreshold)
    (hdoc : s'.currDoc = s.currDoc)
    (h : ∀ x, s.currDoc < x → bounds x (s'.idle ++ s'.sorter) = bounds x (s.idle ++ s.sorter)) :
    Kept s s' := by
  refine ⟨hthreshold, ?_⟩
  ext x
  change s'.currDoc < x ∧ Candidate s'.currThreshold _ ↔ s.currDoc < x ∧ Candidate _ _
  rw [hthreshold, hdoc]
  apply and_congr_right
  intro hx
  rw [h x hx]

/-- Every child that is put into the sorter is on its next document, and not flagged. -/
theorem mem_startEntries {entry : WANDEntry} {idle sorter : List WANDEntry}
    (h : entry ∈ startEntries idle sorter) :
    entry ∈ sorter ∨ ∃ old ∈ idle, old.iter.next.1 = true ∧ entry.iter = old.iter.next.2 ∧
      entry.current = false := by
  induction idle generalizing sorter with
  | nil => exact .inl h
  | cons old idle ih =>
    rw [startEntries, foldl_cons] at h
    rcases ih h with hentry | ⟨old', hold', hnext, hiter⟩
    · split at hentry
      · rename_i hnext
        rcases mem_insertEntry.mp hentry with rfl | hentry
        · exact .inr ⟨old, mem_cons_self, hnext, rfl, rfl⟩
        · exact .inl hentry
      · exact .inl hentry
    · exact .inr ⟨old', mem_cons_of_mem old hold', hnext, hiter⟩

theorem bounds_startEntries (x : ℕ) {idle : List WANDEntry}
    (h : ∀ entry ∈ idle, entry.iter.started = false ∨ entry.Exhausted) (sorter : List WANDEntry) :
    bounds x (startEntries idle sorter) = bounds x idle + bounds x sorter := by
  induction idle generalizing sorter with
  | nil => exact (zero_add (bounds x sorter)).symm
  | cons entry idle ih =>
    obtain ⟨hentry, hidle⟩ := forall_mem_cons.mp h
    -- the first call of `next` passes no document
    have hdocs : entry.iter.next.2.docs = entry.iter.docs := by
      rw [next_docs]
      rcases hentry with hfresh | hnil
      · rw [hfresh, if_neg Bool.false_ne_true]
      · rw [show entry.iter.docs = [] from hnil, tail_nil, ite_self]
    rw [startEntries, foldl_cons, ← startEntries, ih hidle, bounds_cons x entry,
      add_comm (bounds x [entry]), add_assoc]
    congr 1
    split
    · rw [bounds_insertEntry]
      congr 1
      exact bounds_singleton_congr rfl (by rw [hdocs])
    · rename_i hnext
      have hnil := next_docs_eq_nil hnext
      have hzero : bounds x [entry] = 0 := by
        apply bounds_exhausted
        intro other hother
        rw [mem_singleton.mp hother]
        exact hdocs.symm.trans hnil
      rw [hzero, zero_add]

theorem Ok.ready (h : s.Ok) :
    s.ready.Ok ∧ (∀ entry ∈ s.ready.idle, entry.Exhausted) ∧ Kept s s.ready := by
  unfold WANDDocumentIterator.ready
  split
  · rename_i hempty
    have hnil : s.sorter = [] := List.isEmpty_iff.mp hempty
    have hmem : ∀ entry ∈ startEntries s.idle s.sorter, entry.Live ∧ entry.current = false ∧
        ∃ old ∈ s.idle, ¬old.Exhausted := by
      intro entry hentry
      rcases mem_startEntries hentry with hentry | ⟨old, hold, hnext, hiter, hcurrent⟩
      · rw [hnil] at hentry
        cases hentry
      · have hdocs := next_docs_ne_nil hnext
        refine ⟨⟨by rw [hiter]; rfl, by rw [hiter]; exact hdocs⟩, hcurrent, old, hold, ?_⟩
        intro hexhausted
        rw [next_docs] at hdocs
        rw [show old.iter.docs = [] from hexhausted, tail_nil, ite_self] at hdocs
        exact hdocs rfl
    refine ⟨⟨by simp [initDocIteratorSorter], fun _ => by simp [initDocIteratorSorter],
      fun entry hentry => (hmem entry hentry).1,
      .inl fun entry hentry => (hmem entry hentry).2.1, ?_⟩,
      by simp [initDocIteratorSorter], .of_bounds rfl rfl fun x _ => ?_⟩
    · refine h.limit.imp_right fun hfinished => ⟨by simp [initDocIteratorSorter], .inl ?_⟩
      refine eq_nil_iff_forall_not_mem.mpr fun entry hentry => ?_
      obtain ⟨-, -, old, hold, hsome⟩ := hmem entry hentry
      exact hsome (hfinished.exhausted old hold)
    · rw [bounds_append x s.idle, ← bounds_startEntries x h.idle]
      rfl
  · rename_i hne
    have hsome : s.sorter ≠ [] := by simpa using hne
    exact ⟨h, h.exhausted hsome, rfl, rfl⟩

/-- The loop over the flagged children passes the current document only. -/
theorem Ok.pass (h : s.Ok) (hidle : ∀ entry ∈ s.idle, entry.Exhausted) :
    s.pass.Passed ∧ Kept s s.pass := by
  have hunflagged : Unflagged (passFlagged s.sorter).sorter := by
    rcases h.flags with hflags | hflags
    · rw [passFlagged_eq_self hflags]
      exact hflags
    · exact unflagged_passFlagged s.sorted h.live hflags
  have hflagged : ∀ entry ∈ s.sorter, entry.current = true → entry.iter.doc = s.currDoc := by
    intro entry hentry hcurrent
    rcases h.flags with hflags | hflags
    · rw [hflags entry hentry] at hcurrent
      cases hcurrent
    · exact (hflags entry hentry).2.mp hcurrent
  have hexhausted : ∀ entry ∈ s.pass.idle, entry.Exhausted := by
    intro entry hentry
    rcases mem_append.mp hentry with hentry | hentry
    · exact exhausted_passFlagged s.sorter entry hentry
    · exact hidle entry hentry
  refine ⟨⟨hexhausted, live_passFlagged h.live, hunflagged, ?_⟩, .of_bounds rfl rfl fun x hx => ?_⟩
  · by_cases hdoc : s.currDoc < maxDocId
    · exact .inl hdoc
    · -- a child on a document is below the limit, so that none is flagged
      have hnone : Unflagged s.sorter := by
        intro entry hentry
        refine Bool.eq_false_iff.mpr fun hcurrent => hdoc ?_
        rw [← hflagged entry hentry hcurrent]
        exact entry.iter.below _ (h.live entry hentry).isLeast_doc.1
      have hsorter : s.pass.sorter = s.sorter :=
        congrArg Sorting.sorter (passFlagged_eq_self hnone)
      refine .inr ⟨hexhausted, ?_⟩
      rw [hsorter]
      exact (h.limit.resolve_left hdoc).below
  · have hpassed := bounds_passFlagged fun entry hentry hcurrent =>
      (hflagged entry hentry hcurrent).trans_lt hx
    rw [bounds_exhausted (exhausted_passFlagged s.sorter)] at hpassed
    rw [bounds_of_exhausted hexhausted, bounds_of_exhausted hidle]
    exact hpassed

/-- A skip of all children passes what is in front of the target. -/
theorem Passed.skipAll (h : s.Passed) (target : ℕ) :
    (s.skipAll target).Passed ∧ (s.skipAll target).toCome = {x ∈ s.toCome | target ≤ x} := by
  have hexhausted : ∀ entry ∈ (s.skipAll target).idle, entry.Exhausted := by
    intro entry hentry
    rcases mem_append.mp hentry with hentry | hentry
    · exact exhausted_skipPre target s.sorter entry hentry
    · exact h.exhausted entry hentry
  refine ⟨⟨hexhausted, live_skipPre target h.live, ?_, h.limit.imp_right ?_⟩, ?_⟩
  · exact unflagged_skipPre target h.unflagged
  · intro hfinished
    refine ⟨hexhausted, ?_⟩
    rcases hfinished.below with hnil | hle
    · left
      change (skipPre target s.sorter).sorter = []
      rw [hnil, skipPre]
    · exact .inr ((sumUB_skipPre_le target s.sorter).trans hle)
  · ext x
    change s.currDoc < x ∧ Candidate s.currThreshold _ ↔
      (s.currDoc < x ∧ Candidate s.currThreshold _) ∧ target ≤ x
    rw [bounds_of_exhausted hexhausted, bounds_of_exhausted h.exhausted]
    rcases le_or_gt target x with hx | hx
    · have hskip := bounds_skipPre hx s.sorter
      rw [bounds_exhausted (exhausted_skipPre target s.sorter)] at hskip
      rw [and_iff_left hx, ← hskip]
      rfl
    · refine iff_of_false ?_ fun hboth => hx.not_ge hboth.2
      rintro ⟨-, hne, -⟩
      obtain ⟨entry, hentry, hmem⟩ := bounds_ne_zero_iff.mp hne
      have hle := le_doc_skipPre target s.sorted entry hentry
      exact hx.not_ge (hle.trans ((live_skipPre target h.live entry hentry).isLeast_doc.2 hmem))

/-- Nothing is to come. -/
structure GivesNothing (s s' : WANDDocumentIterator) : Prop where
  passed : s'.Passed
  currThreshold : s'.currThreshold = s.currThreshold
  finished : s'.Finished
  nothing : s.toCome = ∅

/-- The first candidate to come is the current document. -/
structure Finds (s s' : WANDDocumentIterator) : Prop where
  ok : s'.Ok
  currThreshold : s'.currThreshold = s.currThreshold
  below : s'.currDoc < maxDocId
  least : IsLeast s.toCome s'.currDoc
  toCome : s'.toCome = {x ∈ s.toCome | s'.currDoc < x}

/-- What a turn has to lead to. -/
def Turn.Right (s : WANDDocumentIterator) : Turn → Prop
  | .done false s' => GivesNothing s s'
  | .done true s' => Finds s s'
  | .again s' => s'.Ok ∧ Kept s s'

theorem Kept.right (h : Kept s s') {t : Turn} (ht : t.Right s') : t.Right s := by
  cases t with
  | again s'' => exact ⟨ht.1, h.trans ht.2⟩
  | done found s'' =>
    cases found with
    | false =>
      exact ⟨ht.passed, ht.currThreshold.trans h.currThreshold, ht.finished,
        h.toCome.symm.trans ht.nothing⟩
    | true =>
      refine ⟨ht.ok, ht.currThreshold.trans h.currThreshold, ht.below, ?_, ?_⟩
      · rw [← h.toCome]
        exact ht.least
      · rw [← h.toCome]
        exact ht.toCome

/-- A skip up to a target that no candidate to come is in front of. -/
theorem Passed.right_skipAll (h : s.Passed) {target : ℕ} (htarget : ∀ x ∈ s.toCome, target ≤ x) :
    (Turn.of (s.processPrePostings target)).Right s := by
  obtain ⟨hpassed, htoCome⟩ := h.skipAll target
  have hkept : (s.skipAll target).toCome = s.toCome :=
    htoCome.trans (Set.sep_eq_self_iff_mem_true.mpr htarget)
  unfold Turn.of processPrePostings
  cases hempty : (s.skipAll target).sorter.isEmpty with
  | false => exact ⟨hpassed.ok, rfl, hkept⟩
  | true =>
    have hfinished : (s.skipAll target).Finished :=
      ⟨hpassed.exhausted, .inl (List.isEmpty_iff.mp hempty)⟩
    exact ⟨hpassed, rfl, hfinished, hkept.symm.trans hfinished.toCome_eq⟩

variable {front : WANDEntry} {others : List WANDEntry}

/-- No candidate to come is in front of the child in front. -/
theorem Passed.front_le (h : s.Passed) (hsorter : s.sorter = front :: others) {x : ℕ}
    (hx : x ∈ s.toCome) : front.iter.doc ≤ x := by
  obtain ⟨-, hne, -⟩ := hx
  rw [bounds_of_exhausted h.exhausted] at hne
  obtain ⟨entry, hentry, hmem⟩ := bounds_ne_zero_iff.mp hne
  have hle : entry.iter.doc ≤ x := (h.live entry hentry).isLeast_doc.2 hmem
  have hsorted := s.sorted
  rw [hsorter] at hsorted hentry
  rcases mem_cons.mp hentry with rfl | hentry
  · exact hle
  · exact ((pairwise_cons.mp hsorted).1 entry hentry).trans hle

/-- In front of the pivot the upper bounds do not sum above the threshold. -/
theorem Passed.pivot_le (h : s.Passed) {pivotDoc : ℕ} (hpivot : s.findPivot = some pivotDoc) {x : ℕ}
    (hx : x ∈ s.toCome) : pivotDoc ≤ x := by
  obtain ⟨before, entry, after, hsorter, rfl, -, hbefore⟩ := pivotFrom_eq_some hpivot
  obtain ⟨-, hne, hlt⟩ := hx
  rw [bounds_of_exhausted h.exhausted] at hne hlt
  by_contra hless
  have hafter : bounds x (entry :: after) = 0 := by
    refine bounds_eq_zero fun other hother hmem => ?_
    have hle : entry.iter.doc ≤ other.iter.doc := by
      have hsorted := s.sorted
      rw [hsorter] at hsorted
      have hpart := (pairwise_append.mp hsorted).2.1
      rcases mem_cons.mp hother with rfl | hother
      · exact le_rfl
      · exact (pairwise_cons.mp hpart).1 other hother
    have hlive := h.live other (by rw [hsorter]; exact mem_append_right before hother)
    exact hless (hle.trans (hlive.isLeast_doc.2 hmem))
  rw [hsorter, bounds_append, hafter, add_zero] at hne hlt
  have hsome : before ≠ [] := by
    rintro rfl
    exact hne rfl
  have hle := hbefore hsome
  rw [zero_add] at hle
  exact (hlt.trans_le (sum_bounds_le x before)).not_ge hle

/-- The pivot is a candidate when it is the document in front. -/
theorem Passed.candidate_pivot (h : s.Passed) (hsorter : s.sorter = front :: others)
    (hpivot : s.findPivot = some front.iter.doc) :
    Candidate s.currThreshold (bounds front.iter.doc (s.idle ++ s.sorter)) := by
  obtain ⟨before, entry, after, hsplit, hdoc, habove, -⟩ := pivotFrom_eq_some hpivot
  rw [append_cons] at hsplit
  have hsorted := s.sorted
  rw [bounds_of_exhausted h.exhausted]
  refine ⟨bounds_ne_zero_iff.mpr ⟨front, ?_, ?_⟩, ?_⟩
  · rw [hsorter]
    exact mem_cons_self
  · exact (h.live front (by rw [hsorter]; exact mem_cons_self)).isLeast_doc.1
  · -- all children up to the pivot are on the document in front
    have hon : ∀ other ∈ before ++ [entry], front.iter.doc ∈ other.iter.docs := by
      intro other hother
      have hmem : other ∈ s.sorter := by
        rw [hsplit]
        exact mem_append_left after hother
      have hlive := (h.live other hmem).isLeast_doc.1
      have hge : front.iter.doc ≤ other.iter.doc := by
        rw [hsorter] at hsorted hmem
        rcases mem_cons.mp hmem with rfl | hmem
        · exact le_rfl
        · exact (pairwise_cons.mp hsorted).1 other hmem
      have hle : other.iter.doc ≤ front.iter.doc := by
        rw [hsplit] at hsorted
        rw [← hdoc]
        rcases mem_append.mp hother with hbefore | hentry
        · exact (pairwise_append.mp (pairwise_append.mp hsorted).1).2.2 other hbefore
            entry (mem_singleton_self entry)
        · rw [mem_singleton.mp hentry]
      rw [← hle.antisymm hge]
      exact hlive
    calc s.currThreshold < sumUB (before ++ [entry]) := by
          rw [zero_add] at habove
          rw [sumUB_append, sumUB_cons, sumUB_nil, add_zero]
          exact habove
      _ = (bounds front.iter.doc (before ++ [entry])).sum := (sum_bounds_eq hon).symm
      _ ≤ (bounds front.iter.doc s.sorter).sum := by
          rw [hsplit, bounds_append _ (before ++ [entry]), Multiset.sum_add]
          exact le_add_of_nonneg_right (sum_bounds_nonneg front.iter.doc after)

theorem bounds_flag (flagOf : WANDEntry → Bool) (x : ℕ) (entries : List WANDEntry) :
    bounds x (entries.map fun entry => { entry with current := flagOf entry }) =
      bounds x entries := by
  induction entries with
  | nil => rfl
  | cons entry entries ih =>
    rw [map_cons, bounds_cons, bounds_cons x entry]
    congr 1
    exact bounds_singleton_congr rfl Iff.rfl

/-- A flag keeps all that counts for the bounds. -/
theorem bounds_flag_all (s : WANDDocumentIterator) (flagOf : WANDEntry → Bool) (x : ℕ) :
    bounds x ((s.flag flagOf).idle ++ (s.flag flagOf).sorter) = bounds x (s.idle ++ s.sorter) := by
  rw [bounds_append, bounds_append]
  exact congrArg₂ (· + ·) (bounds_flag flagOf x s.idle) (bounds_flag flagOf x s.sorter)

theorem live_flag {sorter : List WANDEntry} (h : ∀ entry ∈ sorter, entry.Live)
    (flagOf : WANDEntry → Bool) :
    ∀ entry ∈ sorter.map fun entry => { entry with current := flagOf entry }, entry.Live :=
  forall_mem_map.mpr fun entry hentry => ⟨(h entry hentry).1, (h entry hentry).2⟩

theorem skipAll_eq_self {target : ℕ} (h : ∀ entry ∈ s.sorter, target ≤ entry.iter.doc) :
    s.skipAll target = s := by
  simp only [skipAll, skipPre_eq_self h, nil_append]

/-- The children on the pivot are flagged, and none of them is skipped. -/
theorem Passed.finds (h : s.Passed) (hsorter : s.sorter = front :: others)
    (hpivot : s.findPivot = some front.iter.doc) (hdoc : s.currDoc < front.iter.doc) :
    Finds s ((({ s with currDoc := front.iter.doc } : WANDDocumentIterator).processPrePostings
      front.iter.doc).2.flag fun entry => entry.iter.doc = front.iter.doc) := by
  have hge : ∀ entry ∈ s.sorter, front.iter.doc ≤ entry.iter.doc := by
    have hsorted := s.sorted
    rw [hsorter] at hsorted ⊢
    exact forall_mem_cons.mpr ⟨le_rfl, (pairwise_cons.mp hsorted).1⟩
  have hlive : front.Live := h.live front (by rw [hsorter]; exact mem_cons_self)
  have hlimit : front.iter.doc < maxDocId := front.iter.below _ hlive.isLeast_doc.1
  have hself : (({ s with currDoc := front.iter.doc } : WANDDocumentIterator).processPrePostings
      front.iter.doc).2 = { s with currDoc := front.iter.doc } := skipAll_eq_self hge
  rw [hself]
  have hexhausted : ∀ entry ∈ s.idle.map fun entry =>
      { entry with current := entry.iter.doc = front.iter.doc }, entry.Exhausted :=
    forall_mem_map.mpr h.exhausted
  refine ⟨⟨fun entry hentry => .inr (hexhausted entry hentry), fun _ => hexhausted,
    live_flag h.live _, .inr ?_, .inl hlimit⟩, rfl, hlimit,
    ⟨⟨hdoc, h.candidate_pivot hsorter hpivot⟩, fun x hx => h.front_le hsorter hx⟩, ?_⟩
  · exact forall_mem_map.mpr fun entry hentry => ⟨hge entry hentry, decide_eq_true_iff⟩
  · ext x
    have hbounds := bounds_flag_all { s with currDoc := front.iter.doc }
      (fun entry => entry.iter.doc = front.iter.doc) x
    change front.iter.doc < x ∧ Candidate s.currThreshold _ ↔
      (s.currDoc < x ∧ Candidate s.currThreshold _) ∧ front.iter.doc < x
    rw [hbounds]
    constructor
    · rintro ⟨hx, hcandidate⟩
      exact ⟨⟨hdoc.trans hx, hcandidate⟩, hx⟩
    · rintro ⟨⟨-, hcandidate⟩, hx⟩
      exact ⟨hx, hcandidate⟩

theorem Passed.right_turnAt (h : s.Passed) {pivotDoc : ℕ} (hfront : s.sorter.head? = some front)
    (hpivot : s.findPivot = some pivotDoc) : (s.turnAt front.iter.doc pivotDoc).Right s := by
  obtain ⟨others, hsorter⟩ := head?_eq_some_iff.mp hfront
  unfold turnAt
  split
  · exact h.right_skipAll fun x hx => hx.1
  · split
    · rename_i hdoc heq
      subst heq
      exact h.finds hsorter hpivot (not_le.mp hdoc)
    · exact h.right_skipAll fun x hx => h.pivot_le hpivot hx

/-- Every turn keeps what is to come, or comes to the first of it, or finds that it is nothing. -/
theorem Ok.right_turn (h : s.Ok) : s.turn.Right s := by
  obtain ⟨hok, hexhausted, hready⟩ := h.ready
  obtain ⟨hpassed, hpass⟩ := hok.pass hexhausted
  obtain ⟨hnil, hturn⟩ | ⟨hnone, hturn⟩ | ⟨front, pivotDoc, hfront, hpivot, hturn⟩ := s.turn_cases
  · rw [hturn]
    have hfinished : s.ready.Finished := ⟨hexhausted, .inl hnil⟩
    have hpassed : s.ready.Passed :=
      ⟨hexhausted, hok.live, by rw [hnil]; exact forall_mem_nil _, hok.limit⟩
    exact ⟨hpassed, hready.currThreshold, hfinished, hready.toCome.symm.trans hfinished.toCome_eq⟩
  · rw [hturn]
    have hbelow := pivotFrom_eq_none.mp hnone
    rw [zero_add] at hbelow
    have hfinished : s.ready.pass.Finished := ⟨hpassed.exhausted, hbelow⟩
    have hkept := hready.trans hpass
    exact ⟨hpassed, hkept.currThreshold, hfinished, hkept.toCome.symm.trans hfinished.toCome_eq⟩
  · rw [hturn]
    exact (hready.trans hpass).right (hpassed.right_turnAt hfront hpivot)

/-- `next` comes to the first candidate to come, or finds that there is none. -/
theorem Ok.right_doNext (h : s.Ok) : (Turn.done s.doNext.1 s.doNext.2).Right s := by
  fun_induction doNext s with
  | case1 s found s' hturn =>
    have hright := h.right_turn
    rw [hturn] at hright
    exact hright
  | case2 s s' hturn ih =>
    have hright := h.right_turn
    rw [hturn] at hright
    exact hright.2.right (ih hright.1)

/-- The state is in order, and `S` is what is to come. -/
def Expects (s : WANDDocumentIterator) (S : Set ℕ) : Prop := s.Ok ∧ s.toCome = S

theorem stillToCome : StillToCome doNext currDoc Expects where
  nothing s S h hnext := by
    have hright := h.1.right_doNext
    rw [hnext] at hright
    exact ⟨h.2.symm.trans hright.nothing, hright.passed.ok, hright.finished.toCome_eq⟩
  found s S h hnext := by
    obtain ⟨hok, rfl⟩ := h
    have hright := hok.right_doNext
    rw [hnext] at hright
    exact ⟨hright.least, hright.ok, hright.toCome⟩

end WANDDocumentIterator

/-- A list of documents with the upper bound of what it adds to a score. Document ids start at
one. -/
structure PostingList extends DocIdList where
  ub : ℚ
  ub_nonneg : 0 ≤ ub
  positive : ∀ d ∈ docs, 0 < d

def PostingList.entry (list : PostingList) : WANDEntry :=
  ⟨list.iterator, list.ub, false, list.ub_nonneg⟩

/-- Over the lists that contain the document the upper bounds sum above the threshold. -/
def candidates (lists : List PostingList) (threshold : ℚ) : Set ℕ :=
  {x | (∃ list ∈ lists, x ∈ list.docs) ∧
    threshold < ((lists.filter fun list => x ∈ list.docs).map PostingList.ub).sum}

namespace WANDDocumentIterator

def start (lists : List PostingList) (threshold : ℚ) : WANDDocumentIterator :=
  ⟨lists.map PostingList.entry, [], 0, threshold, List.Pairwise.nil⟩

variable (lists : List PostingList) (threshold : ℚ)

theorem ok_start : (start lists threshold).Ok := by
  refine ⟨fun entry hentry => ?_, fun hne => absurd rfl hne, fun entry hentry => ?_,
    .inl fun entry hentry => ?_, .inl (Nat.zero_lt_of_lt (Nat.lt_succ_self _))⟩
  · obtain ⟨list, -, rfl⟩ := mem_map.mp hentry
    exact .inl rfl
  · cases hentry
  · cases hentry

theorem toCome_start : (start lists threshold).toCome = candidates lists threshold := by
  ext x
  have hbounds : bounds x (lists.map PostingList.entry ++ []) =
      ((lists.filter fun list => x ∈ list.docs).map PostingList.ub : Multiset ℚ) := by
    rw [append_nil, bounds, filter_map, List.map_map]
    rfl
  have hsome : bounds x (lists.map PostingList.entry ++ []) ≠ 0 ↔
      ∃ list ∈ lists, x ∈ list.docs := by
    rw [bounds_ne_zero_iff, append_nil]
    constructor
    · rintro ⟨entry, hentry, hx⟩
      obtain ⟨list, hlist, rfl⟩ := mem_map.mp hentry
      exact ⟨list, hlist, hx⟩
    · rintro ⟨list, hlist, hx⟩
      exact ⟨list.entry, mem_map_of_mem hlist, hx⟩
  change 0 < x ∧ Candidate threshold (bounds x (lists.map PostingList.entry ++ [])) ↔ _
  rw [Candidate, hsome, hbounds]
  refine and_iff_right_of_imp ?_
  rintro ⟨⟨list, -, hx⟩, -⟩
  exact list.positive x hx

theorem finite_candidates : (candidates lists threshold).Finite := by
  refine (lists.flatMap fun list => list.docs).finite_toSet.subset fun x hx => ?_
  obtain ⟨⟨list, hlist, hmem⟩, -⟩ := hx
  exact mem_flatMap.mpr ⟨list, hlist, hmem⟩

/-- The calls of `next` report the candidates upwards, and from then on nothing. -/
theorem next_enumerates (lists : List PostingList) (threshold : ℚ) :
    Enumerates doNext currDoc (candidates lists threshold) (start lists threshold) :=
  stillToCome.enumerates (finite_candidates lists threshold)
    ⟨ok_start lists threshold, toCome_start lists threshold⟩

end WANDDocumentIterator

end AdDelivery.SearchManager
