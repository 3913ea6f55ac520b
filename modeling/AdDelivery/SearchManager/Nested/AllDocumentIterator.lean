import AdDelivery.SearchManager.Nested.RestingIterator
import Mathlib.Algebra.GroupWithZero.Nat

/-!
# All documents but the deleted ones

The iterator walks all document ids, and the deleted ones beside them. Its skip increases the
target before it is taken, so that it leaves a document that is the target. A target below leads
into a loop without end if the document has been deleted.
-/

namespace AdDelivery.SearchManager.Nested

/-- `delTermDocFreqs` are the deleted documents, if there are any, and `currDelDoc` is the one
that has been read last. -/
structure AllDocumentIterator where
  delTermDocFreqs : Option TermDocumentIterator
  currDelDoc : ℕ
  currDoc : ℕ
  maxDoc : ℕ
  below : maxDoc < maxDocId

/-- `++` of a document id. -/
def increment (docId : ℕ) : ℕ := (docId + 1) % 2 ^ 32

theorem increment_eq {docId : ℕ} (h : docId < maxDocId) : increment docId = docId + 1 := by
  unfold maxDocId at h
  rw [increment, Nat.mod_eq_of_lt (by omega)]

/-- The ids that a document id still passes on its way up to the last one. -/
def idsUpTo (maxDoc docId : ℕ) : ℕ := if docId ≤ maxDoc then maxDoc - docId else maxDoc + 1

theorem idsUpTo_increment_lt {maxDoc docId : ℕ} (hbelow : maxDoc < maxDocId)
    (h : increment docId ≤ maxDoc) : idsUpTo maxDoc (increment docId) < idsUpTo maxDoc docId := by
  rw [idsUpTo, if_pos h, idsUpTo]
  split
  · rename_i hle
    rw [increment_eq (hle.trans_lt hbelow)] at h ⊢
    omega
  · omega

namespace AllDocumentIterator

/-- Both go on as long as the document is deleted. -/
def moveWithDel (del : TermDocumentIterator) (s : AllDocumentIterator) :
    Bool × AllDocumentIterator :=
  let s' := { s with
    currDoc := increment s.currDoc
    currDelDoc := if del.next.1 then del.next.2.doc else maxDocId
    delTermDocFreqs := some del.next.2 }
  if s'.currDoc = s'.currDelDoc ∧ s'.currDoc ≤ s'.maxDoc then moveWithDel del.next.2 s'
  else (decide (s'.currDoc ≤ s'.maxDoc), s')
termination_by idsUpTo s.maxDoc s.currDoc
decreasing_by
  rename_i hagain
  exact idsUpTo_increment_lt s.below hagain.2

def next (s : AllDocumentIterator) : Bool × AllDocumentIterator :=
  let s := { s with currDoc := increment s.currDoc }
  match s.delTermDocFreqs with
  | none => (decide (s.currDoc ≤ s.maxDoc), s)
  | some del =>
    if s.currDoc = s.currDelDoc then s.moveWithDel del
    else if s.currDoc < s.currDelDoc then (decide (s.currDoc ≤ s.maxDoc), s)
    else
      let s := { s with
        currDelDoc := (del.skipTo s.currDoc).1
        delTermDocFreqs := some (del.skipTo s.currDoc).2 }
      if s.currDoc = s.currDelDoc then s.moveWithDel (del.skipTo s.currDoc).2
      else (decide (s.currDoc ≤ s.maxDoc), s)

/-- What a skip reports. -/
def found (s : AllDocumentIterator) : ℕ := if s.maxDoc < s.currDoc then maxDocId else s.currDoc

/-- The document that a skip comes to first. -/
def past (target : ℕ) (s : AllDocumentIterator) : ℕ :=
  if target < s.currDoc then s.currDoc else increment target

/-- The loop for a target that is not below the deleted document read last. If the document is
above the target and deleted, the next turns are all the same. -/
def skipWithDel (target : ℕ) (del : TermDocumentIterator) (s : AllDocumentIterator) :
    Option (ℕ × AllDocumentIterator) :=
  let s' := { s with
    currDoc := s.past target
    currDelDoc := (del.skipTo (s.past target)).1
    delTermDocFreqs := some (del.skipTo (s.past target)).2 }
  if s'.currDoc = s'.currDelDoc ∧ s'.currDoc ≤ s'.maxDoc then
    if target < s.currDoc then none
    else skipWithDel (increment target) (del.skipTo (s.past target)).2 s'
  else some (s'.found, s')
termination_by idsUpTo s.maxDoc target
decreasing_by
  rename_i hagain habove
  have hle : s.past target ≤ s.maxDoc := hagain.2
  rw [past, if_neg habove] at hle
  exact idsUpTo_increment_lt s.below hle

/-- The loop for a target below it. -/
def passDel (del : TermDocumentIterator) (s : AllDocumentIterator) : AllDocumentIterator :=
  if s.currDoc = s.currDelDoc ∧ s.currDelDoc < maxDocId then
    passDel (del.skipTo s.currDoc).2 { s with
      currDoc := increment s.currDoc
      currDelDoc := (del.skipTo s.currDoc).1
      delTermDocFreqs := some (del.skipTo s.currDoc).2 }
  else s
termination_by maxDocId - s.currDoc
decreasing_by
  rename_i hdel
  have hlt : s.currDoc < maxDocId := hdel.1.trans_lt hdel.2
  rw [increment_eq hlt]
  omega

def skipTo (target : ℕ) (s : AllDocumentIterator) : Option (ℕ × AllDocumentIterator) :=
  match s.delTermDocFreqs with
  | none =>
    let s := { s with currDoc := s.past target }
    some (s.found, s)
  | some del =>
    if s.currDelDoc ≤ target then s.skipWithDel target del
    else
      let s := passDel del { s with currDoc := s.past target }
      some (s.found, s)

/-- The document is the current one, and not the deleted one read last. -/
structure OnDoc (d : ℕ) (s : AllDocumentIterator) : Prop where
  currDoc : s.currDoc = d
  le : d ≤ s.maxDoc
  ne : s.delTermDocFreqs ≠ none → d ≠ s.currDelDoc

variable {s : AllDocumentIterator} {del : TermDocumentIterator}

theorem onDoc_moveWithDel (h : (s.moveWithDel del).1 = true) :
    (s.moveWithDel del).2.OnDoc (s.moveWithDel del).2.currDoc := by
  fun_induction moveWithDel del s with
  | case1 del s s' hagain ih => exact ih h
  | case2 del s s' hend =>
    have hle := of_decide_eq_true h
    exact ⟨rfl, hle, fun _ heq => hend ⟨heq, hle⟩⟩

theorem onDoc_next (h : s.next.1 = true) : s.next.2.OnDoc s.next.2.currDoc := by
  cases hdel : s.delTermDocFreqs with
  | none =>
    simp only [next, hdel] at h ⊢
    exact ⟨rfl, of_decide_eq_true h, fun hne => absurd rfl hne⟩
  | some del =>
    simp only [next, hdel] at h ⊢
    split at h
    · rename_i heq
      rw [if_pos heq]
      exact onDoc_moveWithDel h
    · rename_i hne
      rw [if_neg hne]
      split at h
      · rename_i hlt
        rw [if_pos hlt]
        exact ⟨rfl, of_decide_eq_true h, fun _ => hne⟩
      · rename_i hge
        rw [if_neg hge]
        split at h
        · rename_i heq
          rw [if_pos heq]
          exact onDoc_moveWithDel h
        · rename_i hne
          rw [if_neg hne]
          exact ⟨rfl, of_decide_eq_true h, fun _ => hne⟩

theorem found_ne (h : s.found ≠ maxDocId) : s.found = s.currDoc ∧ s.currDoc ≤ s.maxDoc := by
  unfold found at h ⊢
  split at h
  · exact absurd rfl h
  · rename_i hle
    rw [if_neg hle]
    exact ⟨rfl, not_lt.mp hle⟩

theorem le_found {d : ℕ} (hd : d < maxDocId) (h : d < s.currDoc) : d < s.found := by
  unfold found
  split
  · exact hd
  · exact h

theorem found_eq (h : s.currDoc ≤ s.maxDoc) : s.found = s.currDoc :=
  if_neg h.not_gt

/-- The loop ends on a document that is not deleted, at or behind the one it begins with. -/
theorem skipWithDel_some {target r : ℕ} {s s' : AllDocumentIterator}
    (h : s.skipWithDel target del = some (r, s')) : r = s'.found ∧ s.past target ≤ s'.currDoc ∧
      (s'.currDoc ≤ s'.maxDoc → s'.currDoc ≠ s'.currDelDoc) := by
  fun_induction skipWithDel target del s with
  | case1 target del s s'' hagain habove => cases h
  | case2 target del s s'' hagain habove ih =>
    obtain ⟨hr, hle, hne⟩ := ih h
    refine ⟨hr, le_trans ?_ hle, hne⟩
    have hpast : s''.currDoc = increment target := if_neg habove
    have hlt : s''.currDoc < maxDocId := hagain.2.trans_lt s.below
    calc s.past target = s''.currDoc := rfl
      _ ≤ increment s''.currDoc := by
          rw [increment_eq hlt]
          exact Nat.le_succ _
      _ = s''.past (increment target) := by
          rw [past, if_neg hpast.not_gt, hpast]
  | case3 target del s s'' hend =>
    obtain ⟨rfl, rfl⟩ := Prod.mk.inj (Option.some.inj h)
    exact ⟨rfl, le_rfl, fun hle heq => hend ⟨heq, hle⟩⟩

theorem passDel_spec (del : TermDocumentIterator) (s : AllDocumentIterator) :
    s.currDoc ≤ (passDel del s).currDoc ∧ ((passDel del s).currDoc < maxDocId →
        (passDel del s).currDoc ≠ (passDel del s).currDelDoc) := by
  fun_induction passDel del s with
  | case1 del s hdel ih =>
    have hlt : s.currDoc < maxDocId := hdel.1.trans_lt hdel.2
    refine ⟨le_trans ?_ ih.1, ih.2⟩
    dsimp only
    rw [increment_eq hlt]
    omega
  | case2 del s hend => exact ⟨le_rfl, fun hlt heq => hend ⟨heq, heq ▸ hlt⟩⟩

theorem past_lt {target : ℕ} (h : target < s.currDoc) : s.past target = s.currDoc := if_pos h

/-- A skip ends on a document that is not deleted, at or behind the one it comes to first. -/
theorem skipTo_some {target r : ℕ} {s s' : AllDocumentIterator}
    (h : s.skipTo target = some (r, s')) : r = s'.found ∧ s.past target ≤ s'.currDoc ∧
      (s'.currDoc ≤ s'.maxDoc → s'.delTermDocFreqs ≠ none → s'.currDoc ≠ s'.currDelDoc) := by
  unfold skipTo at h
  split at h
  · rename_i hdel
    obtain ⟨rfl, rfl⟩ := Prod.mk.inj (Option.some.inj h)
    exact ⟨rfl, le_rfl, fun _ hne => absurd hdel hne⟩
  · rename_i del hdel
    split at h
    · obtain ⟨hr, hle, hne⟩ := skipWithDel_some h
      exact ⟨hr, hle, fun hdoc _ => hne hdoc⟩
    · obtain ⟨rfl, rfl⟩ := Prod.mk.inj (Option.some.inj h)
      obtain ⟨hle, hne⟩ := passDel_spec del { s with currDoc := s.past target }
      refine ⟨rfl, hle, fun hdoc _ => hne (hdoc.trans_lt ?_)⟩
      exact AllDocumentIterator.below _

/-- The target is below the document, and if it is not below the deleted document read last,
the document is not deleted. -/
def Rests (target : ℕ) (s : AllDocumentIterator) : Prop :=
  target < s.currDoc ∧ ∀ del ∈ s.delTermDocFreqs, s.currDelDoc ≤ target → s.currDoc ∉ del.docs

/-- The deleted documents skip to the current one exactly when it is one of them. -/
theorem skipTo_del_eq {d : ℕ} (hd : d < maxDocId) : d = (del.skipTo d).1 ↔ d ∈ del.docs := by
  rw [← (del.mem_skipTo d d).trans (and_iff_left le_rfl)]
  rcases del.skipTo_cases d with ⟨hmax, hnil⟩ | ⟨hle, -, hhead⟩
  · rw [hmax, hnil]
    exact iff_of_false hd.ne List.not_mem_nil
  · constructor
    · intro heq
      rw [← heq] at hhead
      exact List.mem_of_head? hhead
    · intro hmem
      obtain ⟨docs, hdocs⟩ := List.head?_eq_some_iff.mp hhead
      have hinc := (del.skipTo d).2.increasing
      rw [hdocs] at hinc hmem
      exact hle.antisymm ((isLeast_cons hinc).2 hmem)

theorem skipTo_of_rests {d t : ℕ} (hon : s.OnDoc d) (hrests : s.Rests t) :
    ∃ s', s.skipTo t = some (d, s') := by
  obtain ⟨hlt, hdel⟩ := hrests
  obtain ⟨hdoc, hle, hne⟩ := hon
  have hpast : s.past t = d := (past_lt hlt).trans hdoc
  rw [hdoc] at hdel
  cases hdocs : s.delTermDocFreqs with
  | none =>
    simp only [skipTo, hdocs, hpast]
    exact ⟨_, congrArg some (Prod.ext (found_eq hle) rfl)⟩
  | some del =>
    have hneDel : d ≠ s.currDelDoc := hne (by rw [hdocs]; exact Option.some_ne_none del)
    simp only [skipTo, hdocs, hpast]
    split
    · rename_i hread
      have hkept : d ≠ (del.skipTo d).1 := fun heq =>
        hdel del hdocs hread ((skipTo_del_eq (hle.trans_lt s.below)).mp heq)
      rw [skipWithDel]
      simp only [hpast]
      rw [if_neg fun hagain => hkept hagain.1]
      exact ⟨_, congrArg some (Prod.ext (found_eq hle) rfl)⟩
    · rw [passDel, if_neg fun hagain => hneDel hagain.1]
      exact ⟨_, congrArg some (Prod.ext (found_eq hle) rfl)⟩

/-- Above the target, a deleted document leads into a loop without end. -/
theorem skipTo_deleted {t : ℕ} (hle : s.currDoc ≤ s.maxDoc) (ht : t < s.currDoc)
    (hdel : s.delTermDocFreqs = some del) (hread : s.currDelDoc ≤ t) (hmem : s.currDoc ∈ del.docs) :
    s.skipTo t = none := by
  have hpast := past_lt ht
  have hdeleted := (skipTo_del_eq (hle.trans_lt s.below)).mpr hmem
  simp only [skipTo, hdel, if_pos hread]
  rw [skipWithDel]
  simp only [hpast]
  rw [if_pos ⟨hdeleted, hle⟩, if_pos ht]

instance : RestingIterator AllDocumentIterator where
  next s := some s.next
  doc := currDoc
  skipTo := skipTo
  doc_skipTo h hr := by
    obtain ⟨rfl, -⟩ := skipTo_some h
    exact (found_ne hr).1.symm
  At := OnDoc
  Rests := Rests
  at_next {s s'} h := by
    have hnext := Option.some.inj h
    have hfound : s.next.1 = true := by rw [hnext]
    have hon := onDoc_next hfound
    rw [hnext] at hon
    exact hon
  at_skipTo h hr := by
    obtain ⟨rfl, -, hne⟩ := skipTo_some h
    obtain ⟨heq, hle⟩ := found_ne hr
    rw [heq]
    exact ⟨rfl, hle, hne hle⟩
  stays hon _ _ hrests := skipTo_of_rests hon hrests
  leaves {d t r s s'} hon hd ht hnot h := by
    obtain ⟨rfl, hle, -⟩ := skipTo_some h
    have hdoc := hon.currDoc
    refine le_found hd (lt_of_lt_of_le ?_ hle)
    by_cases hlt : t < s.currDoc
    · exfalso
      refine hnot ⟨hlt, fun del hdel hread hmem => ?_⟩
      rw [skipTo_deleted (hdoc ▸ hon.le) hlt hdel hread hmem] at h
      cases h
    · -- the target is the document, and it is increased before it is taken
      obtain rfl : t = d := by omega
      rw [past, if_neg hlt, increment_eq hd]
      exact Nat.lt_succ_self t

end AllDocumentIterator

end AdDelivery.SearchManager.Nested
