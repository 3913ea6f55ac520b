import AdDelivery.SearchManager.DocumentIterator
import Mathlib.Algebra.BigOperators.Group.List.Basic
import Mathlib.Algebra.GroupWithZero.Nat
import Mathlib.Algebra.Order.Ring.Rat

/-!
# WAND iterators

A WAND iterator keeps its children in a multimap by document. The pivot is the first document up
to which the upper bounds sum above the threshold. Children in front of the pivot skip to it, and
the pivot is reported once it is the document in front.
-/

namespace AdDelivery.SearchManager

open List TermDocumentIterator

/-- A child with its upper bound and its `current_` flag. -/
structure WANDEntry where
  iter : TermDocumentIterator
  ub : ℚ
  current : Bool
  ub_nonneg : 0 ≤ ub

/-- A multimap puts a child behind those on the same document. -/
def insertEntry (entry : WANDEntry) : List WANDEntry → List WANDEntry
  | [] => [entry]
  | front :: others =>
    if entry.iter.doc < front.iter.doc then entry :: front :: others
    else front :: insertEntry entry others

def SortedByDoc (sorter : List WANDEntry) : Prop :=
  sorter.Pairwise fun a b => a.iter.doc ≤ b.iter.doc

variable (entry : WANDEntry)

theorem perm_insertEntry (sorter : List WANDEntry) :
    (insertEntry entry sorter).Perm (entry :: sorter) := by
  induction sorter with
  | nil => exact Perm.refl _
  | cons front others ih =>
    rw [insertEntry]
    split
    · exact Perm.refl _
    · exact (ih.cons front).trans (List.Perm.swap entry front others)

variable {sorter : List WANDEntry}

theorem sortedByDoc_insertEntry (h : SortedByDoc sorter) :
    SortedByDoc (insertEntry entry sorter) := by
  induction sorter with
  | nil => exact pairwise_singleton _ _
  | cons front others ih =>
    obtain ⟨hfront, hothers⟩ := pairwise_cons.mp h
    rw [insertEntry]
    split
    · rename_i hlt
      refine pairwise_cons.mpr ⟨fun other hother => ?_, h⟩
      rcases mem_cons.mp hother with rfl | hother
      · exact hlt.le
      · exact hlt.le.trans (hfront other hother)
    · rename_i hge
      refine pairwise_cons.mpr ⟨fun other hother => ?_, ih hothers⟩
      rcases mem_cons.mp ((perm_insertEntry entry others).mem_iff.mp hother) with rfl | hother
      · exact not_lt.mp hge
      · exact hfront other hother

/-- Move the children on, those that come to their end to the erased ones. -/
structure Sorting where
  sorter : List WANDEntry
  erased : List WANDEntry

def Sorting.erase (entry : WANDEntry) (sorting : Sorting) : Sorting :=
  { sorting with erased := entry :: sorting.erased }

/-- The sum that bounds the loops. A child that is erased leaves the sorter for good. -/
def sorterWeight (sorter : List WANDEntry) : ℕ :=
  (sorter.map fun entry => entry.iter.weight + 2).sum

def idleWeight (idle : List WANDEntry) : ℕ :=
  (idle.map fun entry => entry.iter.weight + 1).sum

theorem idleWeight_cons (idle : List WANDEntry) :
    idleWeight (entry :: idle) = entry.iter.weight + 1 + idleWeight idle := rfl

theorem sorterWeight_cons (front : WANDEntry) (others : List WANDEntry) :
    sorterWeight (front :: others) = front.iter.weight + 2 + sorterWeight others := rfl

theorem sorterWeight_insertEntry (sorter : List WANDEntry) :
    sorterWeight (insertEntry entry sorter) = entry.iter.weight + 2 + sorterWeight sorter :=
  ((perm_insertEntry entry sorter).map _).sum_eq

/-- The loop of `do_next`: every child in front that is flagged goes on to its next document. -/
def passFlagged : List WANDEntry → Sorting
  | [] => ⟨[], []⟩
  | front :: others =>
    if front.current then
      let moved : WANDEntry := { front with iter := front.iter.next.2, current := false }
      if front.iter.next.1 then passFlagged (insertEntry moved others)
      else (passFlagged others).erase moved
    else ⟨front :: others, []⟩
termination_by sorter => sorterWeight sorter
decreasing_by
  · have hweight := weight_next ‹_›
    rw [sorterWeight_insertEntry, sorterWeight_cons]
    dsimp only
    omega
  · rw [sorterWeight_cons]
    omega

/-- The loop of `processPrePostings`: every child in front that is below the target skips to it. -/
def skipPre (target : ℕ) : List WANDEntry → Sorting
  | [] => ⟨[], []⟩
  | front :: others =>
    if front.iter.doc < target then
      let moved : WANDEntry := { front with iter := (front.iter.skipTo target).2 }
      if (front.iter.skipTo target).1 = maxDocId ∨ (front.iter.skipTo target).1 < target then
        (skipPre target others).erase moved
      else skipPre target (insertEntry moved others)
    else ⟨front :: others, []⟩
termination_by sorter => sorterWeight sorter
decreasing_by
  · rw [sorterWeight_cons]
    omega
  · rename_i hdoc hfound
    have hweight := weight_skipTo_lt hdoc fun hmax => hfound (.inl hmax)
    rw [sorterWeight_insertEntry, sorterWeight_cons]
    dsimp only
    omega

/-- The loop of `findPivot` behind children with the sum. -/
def pivotFrom (threshold : ℚ) : ℚ → List WANDEntry → Option ℕ
  | _, [] => none
  | sumUB, entry :: others =>
    if sumUB + entry.ub > threshold then some entry.iter.doc
    else pivotFrom threshold (sumUB + entry.ub) others

/-- The sum of the upper bounds. -/
def sumUB (sorter : List WANDEntry) : ℚ := (sorter.map fun entry => entry.ub).sum

@[simp] theorem sumUB_nil : sumUB [] = 0 := rfl

theorem sumUB_cons (others : List WANDEntry) :
    sumUB (entry :: others) = entry.ub + sumUB others := rfl

theorem sumUB_append (before after : List WANDEntry) :
    sumUB (before ++ after) = sumUB before + sumUB after := by
  rw [sumUB, map_append, sum_append]
  rfl

theorem sumUB_nonneg (sorter : List WANDEntry) : 0 ≤ sumUB sorter := by
  induction sorter with
  | nil => exact le_rfl
  | cons entry others ih => exact add_nonneg entry.ub_nonneg ih

/-- Up to the pivot the sum exceeds the threshold, and before it the sum does not. -/
theorem pivotFrom_eq_some {threshold sum : ℚ} {pivotDoc : ℕ}
    (h : pivotFrom threshold sum sorter = some pivotDoc) :
    ∃ before entry after, sorter = before ++ entry :: after ∧ entry.iter.doc = pivotDoc ∧
      threshold < sum + sumUB before + entry.ub ∧
      (before ≠ [] → sum + sumUB before ≤ threshold) := by
  induction sorter generalizing sum with
  | nil => cases h
  | cons first others ih =>
    rw [pivotFrom] at h
    split at h
    · rename_i habove
      refine ⟨[], first, others, rfl, Option.some.inj h, ?_, fun hne => absurd rfl hne⟩
      rw [sumUB_nil, add_zero]
      exact habove
    · rename_i hbelow
      obtain ⟨before, entry, after, rfl, hdoc, habove, hbefore⟩ := ih h
      refine ⟨first :: before, entry, after, rfl, hdoc, ?_, fun _ => ?_⟩
      · rw [sumUB_cons, ← add_assoc]
        exact habove
      · rw [sumUB_cons, ← add_assoc]
        cases before with
        | nil =>
          rw [sumUB_nil, add_zero]
          exact not_lt.mp hbelow
        | cons second before => exact hbefore (cons_ne_nil second before)

/-- Without a pivot the sum of all children does not exceed the threshold. -/
theorem pivotFrom_eq_none {threshold sum : ℚ} :
    pivotFrom threshold sum sorter = none ↔ sorter = [] ∨ sum + sumUB sorter ≤ threshold := by
  induction sorter generalizing sum with
  | nil => exact iff_of_true rfl (.inl rfl)
  | cons first others ih =>
    rw [pivotFrom, sumUB_cons, ← add_assoc]
    split
    · rename_i habove
      refine iff_of_false (Option.some_ne_none _) ?_
      rintro (hnil | hle)
      · exact cons_ne_nil _ _ hnil
      · exact (habove.trans_le (le_add_of_nonneg_right (sumUB_nonneg others))).not_ge hle
    · rename_i hbelow
      rw [ih, or_iff_right (cons_ne_nil first others)]
      refine or_iff_right_of_imp ?_
      rintro rfl
      rw [sumUB_nil, add_zero]
      exact not_lt.mp hbelow

theorem sortedByDoc_passFlagged (h : SortedByDoc sorter) :
    SortedByDoc (passFlagged sorter).sorter := by
  fun_induction passFlagged sorter with
  | case1 => exact List.Pairwise.nil
  | case2 front others hcurrent moved hnext ih =>
    exact ih (sortedByDoc_insertEntry _ (pairwise_cons.mp h).2)
  | case3 front others hcurrent moved hnext ih => exact ih (pairwise_cons.mp h).2
  | case4 front others hcurrent => exact h

theorem sortedByDoc_skipPre (target : ℕ) (h : SortedByDoc sorter) :
    SortedByDoc (skipPre target sorter).sorter := by
  fun_induction skipPre target sorter with
  | case1 => exact List.Pairwise.nil
  | case2 front others hdoc moved hend ih => exact ih (pairwise_cons.mp h).2
  | case3 front others hdoc moved hend ih =>
    exact ih (sortedByDoc_insertEntry _ (pairwise_cons.mp h).2)
  | case4 front others hdoc => exact h

theorem idleWeight_append (idle idle' : List WANDEntry) :
    idleWeight (idle ++ idle') = idleWeight idle + idleWeight idle' := by
  rw [idleWeight, map_append, sum_append]
  rfl

theorem weight_passFlagged_le (sorter : List WANDEntry) :
    idleWeight (passFlagged sorter).erased + sorterWeight (passFlagged sorter).sorter ≤
      sorterWeight sorter := by
  fun_induction passFlagged sorter with
  | case1 => exact le_rfl
  | case2 front others hcurrent moved hnext ih =>
    have hweight : moved.iter.weight < front.iter.weight := weight_next hnext
    rw [sorterWeight_insertEntry] at ih
    rw [sorterWeight_cons]
    omega
  | case3 front others hcurrent moved hnext ih =>
    have hweight := weight_next_le front.iter
    rw [sorterWeight_cons, Sorting.erase, idleWeight_cons]
    dsimp only [moved]
    omega
  | case4 front others hcurrent => exact (Nat.zero_add _).le

theorem weight_skipPre_le (target : ℕ) (sorter : List WANDEntry) :
    idleWeight (skipPre target sorter).erased + sorterWeight (skipPre target sorter).sorter ≤
      sorterWeight sorter := by
  fun_induction skipPre target sorter with
  | case1 => exact le_rfl
  | case2 front others hdoc moved hend ih =>
    have hweight := front.iter.weight_skipTo_le target
    rw [sorterWeight_cons, Sorting.erase, idleWeight_cons]
    dsimp only [moved]
    omega
  | case3 front others hdoc moved hend ih =>
    have hweight : moved.iter.weight ≤ front.iter.weight := front.iter.weight_skipTo_le target
    rw [sorterWeight_insertEntry] at ih
    rw [sorterWeight_cons]
    omega
  | case4 front others hdoc => exact (Nat.zero_add _).le

theorem weight_skipPre_lt {target : ℕ} {front : WANDEntry} (hfront : sorter.head? = some front)
    (hdoc : front.iter.doc < target) :
    idleWeight (skipPre target sorter).erased + sorterWeight (skipPre target sorter).sorter <
      sorterWeight sorter := by
  obtain ⟨others, rfl⟩ := head?_eq_some_iff.mp hfront
  rw [skipPre, if_pos hdoc, sorterWeight_cons]
  have hweight := front.iter.weight_skipTo_le target
  split
  · have hle := weight_skipPre_le target others
    rw [Sorting.erase, idleWeight_cons]
    dsimp only
    omega
  · rename_i hfound
    have hlt := weight_skipTo_lt hdoc fun hmax => hfound (.inl hmax)
    have hle := weight_skipPre_le target
      (insertEntry { front with iter := (front.iter.skipTo target).2 } others)
    rw [sorterWeight_insertEntry] at hle
    dsimp only at hle ⊢
    omega

/-- The children are in the sorter, or idle: not started yet, or at their end. The pivot is handed
on by `findPivot`. -/
structure WANDDocumentIterator where
  idle : List WANDEntry
  sorter : List WANDEntry
  currDoc : ℕ
  currThreshold : ℚ
  sorted : SortedByDoc sorter

namespace WANDDocumentIterator

/-- Every idle child goes on to its next document, and those without one are deleted. -/
def startEntries (idle sorter : List WANDEntry) : List WANDEntry :=
  idle.foldl (fun sorter entry =>
    if entry.iter.next.1 then
      insertEntry { entry with iter := entry.iter.next.2, current := false } sorter
    else sorter) sorter

theorem sortedByDoc_startEntries (idle : List WANDEntry) {sorter : List WANDEntry}
    (h : SortedByDoc sorter) : SortedByDoc (startEntries idle sorter) := by
  refine List.foldlRecOn (motive := SortedByDoc) idle _ h fun sorter hsorter entry _ => ?_
  split
  · exact sortedByDoc_insertEntry _ hsorter
  · exact hsorter

theorem sorterWeight_startEntries_le (idle sorter : List WANDEntry) :
    sorterWeight (startEntries idle sorter) ≤ idleWeight idle + sorterWeight sorter := by
  induction idle generalizing sorter with
  | nil => exact (Nat.zero_add _).ge
  | cons entry idle ih =>
    rw [startEntries, foldl_cons, idleWeight_cons]
    refine (ih _).trans ?_
    split
    · rename_i hnext
      have hweight := weight_next hnext
      rw [sorterWeight_insertEntry]
      dsimp only
      omega
    · omega

def initDocIteratorSorter (s : WANDDocumentIterator) : WANDDocumentIterator :=
  { s with
    idle := []
    sorter := startEntries s.idle s.sorter
    sorted := sortedByDoc_startEntries s.idle s.sorted }

/-- The sorter is made when it is empty. -/
def ready (s : WANDDocumentIterator) : WANDDocumentIterator :=
  if s.sorter.isEmpty then s.initDocIteratorSorter else s

def pass (s : WANDDocumentIterator) : WANDDocumentIterator :=
  { s with
    idle := (passFlagged s.sorter).erased ++ s.idle
    sorter := (passFlagged s.sorter).sorter
    sorted := sortedByDoc_passFlagged s.sorted }

def findPivot (s : WANDDocumentIterator) : Option ℕ := pivotFrom s.currThreshold 0 s.sorter

def skipAll (target : ℕ) (s : WANDDocumentIterator) : WANDDocumentIterator :=
  { s with
    idle := (skipPre target s.sorter).erased ++ s.idle
    sorter := (skipPre target s.sorter).sorter
    sorted := sortedByDoc_skipPre target s.sorted }

def processPrePostings (target : ℕ) (s : WANDDocumentIterator) : Bool × WANDDocumentIterator :=
  (!(s.skipAll target).sorter.isEmpty, s.skipAll target)

theorem sortedByDoc_flag (flagOf : WANDEntry → Bool) {sorter : List WANDEntry}
    (h : SortedByDoc sorter) :
    SortedByDoc (sorter.map fun entry => { entry with current := flagOf entry }) := by
  rw [SortedByDoc, pairwise_map]
  exact h

/-- Set the flags of all children. -/
def flag (flagOf : WANDEntry → Bool) (s : WANDDocumentIterator) : WANDDocumentIterator :=
  { s with
    idle := s.idle.map fun entry => { entry with current := flagOf entry }
    sorter := s.sorter.map fun entry => { entry with current := flagOf entry }
    sorted := sortedByDoc_flag flagOf s.sorted }

/-- What one turn of the loop in `do_next` leads to. -/
inductive Turn
  | done (found : Bool) (s : WANDDocumentIterator)
  | again (s : WANDDocumentIterator)

def Turn.of (processed : Bool × WANDDocumentIterator) : Turn :=
  if processed.1 then .again processed.2 else .done false processed.2

/-- The turn behind `findPivot`. -/
def turnAt (s : WANDDocumentIterator) (front pivotDoc : ℕ) : Turn :=
  if pivotDoc ≤ s.currDoc then .of (s.processPrePostings (s.currDoc + 1))
  else if front = pivotDoc then
    let s := { s with currDoc := pivotDoc }
    .done true ((s.processPrePostings pivotDoc).2.flag fun entry => entry.iter.doc = pivotDoc)
  else .of (s.processPrePostings pivotDoc)

def turn (s : WANDDocumentIterator) : Turn :=
  if s.ready.sorter.isEmpty then .done false s.ready
  else
    match s.ready.pass.sorter.head?, s.ready.pass.findPivot with
    | some front, some pivotDoc => s.ready.pass.turnAt front.iter.doc pivotDoc
    | _, _ => .done false s.ready.pass

def weight (s : WANDDocumentIterator) : ℕ := idleWeight s.idle + sorterWeight s.sorter

variable (s : WANDDocumentIterator)

theorem weight_ready_le : s.ready.weight ≤ s.weight := by
  unfold ready
  split
  · exact (Nat.zero_add _).trans_le (sorterWeight_startEntries_le s.idle s.sorter)
  · exact le_rfl

theorem weight_pass_le : s.pass.weight ≤ s.weight := by
  have hle := weight_passFlagged_le s.sorter
  rw [weight, weight, pass, idleWeight_append]
  dsimp only
  omega

theorem weight_skipAll_lt {s : WANDDocumentIterator} {target : ℕ} {front : WANDEntry}
    (hfront : s.sorter.head? = some front) (hdoc : front.iter.doc < target) :
    (s.skipAll target).weight < s.weight := by
  have hlt := weight_skipPre_lt hfront hdoc
  rw [weight, weight, skipAll, idleWeight_append]
  dsimp only
  omega

/-- The pivot is not before the child in front. -/
theorem front_le_pivot {s : WANDDocumentIterator} {front : WANDEntry} {pivotDoc : ℕ}
    (hfront : s.sorter.head? = some front) (hpivot : s.findPivot = some pivotDoc) :
    front.iter.doc ≤ pivotDoc := by
  obtain ⟨before, entry, after, hsorter, rfl, -⟩ := pivotFrom_eq_some hpivot
  have hsorted := s.sorted
  rw [hsorter] at hsorted hfront
  cases before with
  | nil =>
    obtain rfl := Option.some.inj hfront
    exact le_rfl
  | cons first before =>
    obtain rfl := Option.some.inj hfront
    exact (pairwise_cons.mp hsorted).1 entry (by simp)

/-- A turn finds no child, or no pivot, or it looks at the pivot. -/
theorem turn_cases : (s.ready.sorter = [] ∧ s.turn = .done false s.ready) ∨
      (s.ready.pass.findPivot = none ∧ s.turn = .done false s.ready.pass) ∨
      ∃ front pivotDoc, s.ready.pass.sorter.head? = some front ∧
        s.ready.pass.findPivot = some pivotDoc ∧
        s.turn = s.ready.pass.turnAt front.iter.doc pivotDoc := by
  unfold turn
  split
  · rename_i hempty
    exact .inl ⟨List.isEmpty_iff.mp hempty, rfl⟩
  · cases hpivot : s.ready.pass.findPivot with
    | none =>
      refine .inr (.inl ⟨rfl, ?_⟩)
      cases s.ready.pass.sorter.head? <;> rfl
    | some pivotDoc =>
      obtain ⟨before, entry, after, hsorter, -⟩ := pivotFrom_eq_some hpivot
      obtain ⟨front, hfront⟩ : ∃ front, s.ready.pass.sorter.head? = some front := by
        rw [hsorter]
        cases before with
        | nil => exact ⟨entry, rfl⟩
        | cons first before => exact ⟨first, rfl⟩
      refine .inr (.inr ⟨front, pivotDoc, hfront, rfl, ?_⟩)
      rw [hfront]

/-- Only a turn that moves the child in front is followed by another one. -/
theorem turnAt_again {s s' : WANDDocumentIterator} {front pivotDoc : ℕ} (hle : front ≤ pivotDoc)
    (h : s.turnAt front pivotDoc = .again s') :
    ∃ target, front < target ∧ s' = s.skipAll target := by
  have hof (target : ℕ) (hof : Turn.of (s.processPrePostings target) = .again s') :
      s' = s.skipAll target := by
    unfold Turn.of at hof
    split at hof
    · exact (Turn.again.inj hof).symm
    · cases hof
  unfold turnAt at h
  split at h
  · exact ⟨s.currDoc + 1, by omega, hof _ h⟩
  · split at h
    · cases h
    · exact ⟨pivotDoc, by omega, hof _ h⟩

theorem weight_turn_lt {s s' : WANDDocumentIterator} (h : s.turn = .again s') :
    s'.weight < s.weight := by
  obtain ⟨-, hturn⟩ | ⟨-, hturn⟩ | ⟨front, pivotDoc, hfront, hpivot, hturn⟩ := s.turn_cases
  · rw [hturn] at h
    cases h
  · rw [hturn] at h
    cases h
  · obtain ⟨target, hlt, rfl⟩ := turnAt_again (front_le_pivot hfront hpivot) (hturn.symm.trans h)
    calc (s.ready.pass.skipAll target).weight < s.ready.pass.weight := weight_skipAll_lt hfront hlt
      _ ≤ s.ready.weight := s.ready.weight_pass_le
      _ ≤ s.weight := s.weight_ready_le

/-- `do_next`. -/
def doNext (s : WANDDocumentIterator) : Bool × WANDDocumentIterator :=
  match _hturn : s.turn with
  | .done found s' => (found, s')
  | .again s' => doNext s'
termination_by s.weight
decreasing_by exact weight_turn_lt _hturn

/-- `do_skipTo`. -/
def doSkipTo (target : ℕ) (s : WANDDocumentIterator) : ℕ × WANDDocumentIterator :=
  if s.ready.sorter.isEmpty then (maxDocId, { s.ready with currDoc := maxDocId })
  else
    let processed := (s.ready.flag fun _ => false).processPrePostings target
    if processed.1 then
      let found := processed.2.doNext
      if found.1 then (found.2.currDoc, found.2)
      else (maxDocId, { found.2 with currDoc := maxDocId })
    else (maxDocId, processed.2)

end WANDDocumentIterator

end AdDelivery.SearchManager
