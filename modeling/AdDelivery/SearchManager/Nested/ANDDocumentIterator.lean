import AdDelivery.SearchManager.ANDDocumentIterator
import AdDelivery.SearchManager.Nested.RestingIterator

/-!
# AND iterators over any children

On a document all children are on it. A skip to a target that is not above goes to the child in
front, and then with the document to the others: all of them have to rest.
-/

namespace AdDelivery.SearchManager.Nested

open List Option
open SkipIterator RestingIterator

variable {σ : Type}

/-- The loop of `do_next` and `do_skipTo`: the children skip in turn to the target, until `n` of
them in a row are on it. No document id is above the limit. -/
def leapfrog [SkipIterator σ] (n target nMatch : ℕ) (docIterList : List σ) :
    Option (Option ℕ × List σ) :=
  if nMatch < n then
    match docIterList with
    | [] => some (none, [])
    | front :: others =>
      match skipTo target front with
      | none => none
      | some (found, front) =>
        if maxDocId ≤ found then some (none, front :: others)
        else if found = target then leapfrog n target (nMatch + 1) (others ++ [front])
        else if target < found then leapfrog n found 1 (others ++ [front])
        else some (none, front :: others)
  else some (some target, docIterList)
termination_by (maxDocId - target, n - nMatch)
decreasing_by
  · exact Prod.Lex.right _ (by omega)
  · exact Prod.Lex.left _ _ (by omega)

structure ANDDocumentIterator (σ : Type) where
  docIterList : List σ
  currDoc : ℕ

namespace ANDDocumentIterator

def next [SkipIterator σ] (s : ANDDocumentIterator σ) : Option (Bool × ANDDocumentIterator σ) :=
  match s.docIterList with
  | [] => some (false, s)
  | front :: others =>
    match SkipIterator.next front with
    | none => none
    | some (false, front) => some (false, ⟨front :: others, s.currDoc⟩)
    | some (true, front) =>
      if others = [] then some (true, ⟨[front], doc front⟩)
      else
        match leapfrog (others.length + 1) (doc front) 1 (others ++ [front]) with
        | none => none
        | some (none, docIterList) => some (false, ⟨docIterList, s.currDoc⟩)
        | some (some target, docIterList) => some (true, ⟨docIterList, target⟩)

/-- Without children the loop is not entered, and nothing has been found. -/
def skipTo [SkipIterator σ] (target : ℕ) (s : ANDDocumentIterator σ) :
    Option (ℕ × ANDDocumentIterator σ) :=
  match leapfrog s.docIterList.length target 0 s.docIterList with
  | none => none
  | some (none, docIterList) => some (maxDocId, ⟨docIterList, maxDocId⟩)
  | some (some found, docIterList) =>
    some (if docIterList = [] then maxDocId else found, ⟨docIterList, found⟩)

end ANDDocumentIterator

section Loop

variable [RestingIterator σ] {n d target found nMatch m : ℕ} {front front' : σ}
  {others todo done docIterList list : List σ}

/-- The last `nMatch` children are on the document. -/
def LastAt (d nMatch : ℕ) (docIterList : List σ) : Prop :=
  ∃ todo done, docIterList = todo ++ done ∧ done.length = nMatch ∧ ∀ it ∈ done, At d it

theorem lastAt_single (others : List σ) (h : At d front) : LastAt d 1 (others ++ [front]) :=
  ⟨others, [front], rfl, rfl, forall_mem_singleton.mpr h⟩

theorem LastAt.rotate (h : LastAt d nMatch (front :: others))
    (hmatch : nMatch < (front :: others).length) (hfront : At d front') :
    LastAt d (nMatch + 1) (others ++ [front']) := by
  obtain ⟨todo, done, hsplit, hlength, hdone⟩ := h
  cases todo with
  | nil =>
    rw [nil_append] at hsplit
    rw [hsplit] at hmatch
    omega
  | cons it todo =>
    obtain ⟨rfl, rfl⟩ := List.cons.inj hsplit
    refine ⟨todo, done ++ [front'], append_assoc _ _ _, ?_, ?_⟩
    · rw [length_append, hlength, length_singleton]
    · rw [forall_mem_append, forall_mem_singleton]
      exact ⟨hdone, hfront⟩

theorem LastAt.all (h : LastAt d nMatch docIterList) (hmatch : docIterList.length ≤ nMatch) :
    ∀ it ∈ docIterList, At d it := by
  obtain ⟨todo, done, rfl, hlength, hdone⟩ := h
  rw [length_append] at hmatch
  obtain rfl : todo = [] := eq_nil_of_length_eq_zero (by omega)
  exact hdone

/-- The children are on the document that the loop has found, which is not below the target. -/
theorem leapfrog_some (hn : docIterList.length = n) (hlast : LastAt target nMatch docIterList)
    (h : leapfrog n target nMatch docIterList = some (some m, list)) :
    target ≤ m ∧ list.length = n ∧ ∀ it ∈ list, At m it := by
  fun_induction leapfrog n target nMatch docIterList with
  | case1 target nMatch hmatch => cases h
  | case2 target nMatch hmatch front others hskip => cases h
  | case3 target nMatch hmatch front others found front' hskip hmax => cases h
  | case4 nMatch hmatch front others target front' hmax hskip ih =>
    have hat := at_skipTo hskip (not_le.mp hmax).ne
    exact ih (by simpa using hn) (hlast.rotate (hn ▸ hmatch) hat) h
  | case5 target nMatch hmatch front others found front' hskip hmax hne hlt ih =>
    have hat := at_skipTo hskip (not_le.mp hmax).ne
    obtain ⟨hle, hrest⟩ := ih (by simpa using hn) (lastAt_single others hat) h
    exact ⟨hlt.le.trans hle, hrest⟩
  | case6 target nMatch hmatch front others found front' hskip hmax hne hlt => cases h
  | case7 target nMatch docIterList hmatch =>
    obtain ⟨hm, rfl⟩ := Prod.mk.inj (some.inj h)
    obtain rfl := some.inj hm
    exact ⟨le_rfl, hn, hlast.all (hn.trans_le (not_lt.mp hmatch))⟩

/-- The document that the first child finds is the target for the others. -/
theorem leapfrog_first (hn : 0 < n) (hskip : skipTo target front = some (found, front'))
    (hle : target ≤ found) (hmax : found < maxDocId) :
    leapfrog n target 0 (front :: others) = leapfrog n found 1 (others ++ [front']) := by
  rw [leapfrog.eq_def, if_pos hn]
  simp only [hskip, if_neg hmax.not_ge]
  by_cases heq : found = target
  · rw [if_pos heq, heq]
  · rw [if_neg heq, if_pos (lt_of_le_of_ne hle (Ne.symm heq))]

/-- The children that rest at the document stay on it. -/
theorem leapfrog_stays (hd : d < maxDocId) (hn : todo.length + nMatch = n)
    (htodo : ∀ it ∈ todo, At d it ∧ Rests d it) :
    ∃ list, leapfrog n d nMatch (todo ++ done) = some (some d, list) := by
  induction todo generalizing nMatch done with
  | nil =>
    rw [length_nil, Nat.zero_add] at hn
    rw [leapfrog.eq_def, if_neg hn.not_lt]
    exact ⟨done, rfl⟩
  | cons it todo ih =>
    obtain ⟨⟨hat, hrests⟩, htodo⟩ := forall_mem_cons.mp htodo
    obtain ⟨it', hskip⟩ := stays hat hd le_rfl hrests
    rw [length_cons] at hn
    rw [cons_append, leapfrog.eq_def, if_pos (by omega)]
    simp only [hskip, if_neg hd.not_ge, if_pos]
    rw [append_assoc]
    exact ih (by omega) htodo

/-- One child that does not rest takes them all above the document. -/
theorem leapfrog_leaves (hd : d < maxDocId) (hn : todo.length + done.length = n)
    (hmatch : done.length = nMatch) (htodo : ∀ it ∈ todo, At d it) (hnot : ∃ it ∈ todo, ¬Rests d it)
    (h : leapfrog n d nMatch (todo ++ done) = some (some m, list)) : d < m := by
  induction todo generalizing nMatch done with
  | nil =>
    obtain ⟨it, hit, -⟩ := hnot
    cases hit
  | cons it todo ih =>
    obtain ⟨hat, htodo⟩ := forall_mem_cons.mp htodo
    rw [length_cons] at hn
    rw [cons_append, leapfrog.eq_def, if_pos (by omega)] at h
    by_cases hrests : Rests d it
    · obtain ⟨it', hskip⟩ := stays hat hd le_rfl hrests
      simp only [hskip, if_neg hd.not_ge, if_pos] at h
      rw [append_assoc] at h
      refine ih ?_ ?_ htodo ?_ h
      · rw [length_append, length_singleton]
        omega
      · rw [length_append, length_singleton, hmatch]
      · obtain ⟨other, hother, hnot⟩ := hnot
        rcases mem_cons.mp hother with rfl | hother
        · exact absurd hrests hnot
        · exact ⟨other, hother, hnot⟩
    · cases hskip : skipTo d it with
      | none =>
        simp only [hskip] at h
        cases h
      | some skipped =>
        obtain ⟨found, it'⟩ := skipped
        have habove := leaves hat hd le_rfl hrests hskip
        simp only [hskip] at h
        split at h
        · cases h
        · rename_i hmax
          rw [if_neg habove.ne'] at h
          have hat' := at_skipTo hskip (not_le.mp hmax).ne
          have hlength : (todo ++ done ++ [it']).length = n := by
            simp only [length_append, length_singleton]
            omega
          exact habove.trans_le (leapfrog_some hlength (lastAt_single _ hat') h).1

/-- Unless all children rest, they come above the document or do not come to an end. -/
theorem lt_of_leapfrog {t : ℕ} (hd : d < maxDocId) (ht : t ≤ d)
    (hall : ∀ it ∈ front :: others, At d it) (hnot : ¬(Rests t front ∧ ∀ it ∈ others, Rests d it))
    (h : leapfrog (others.length + 1) t 0 (front :: others) = some (some m, list)) : d < m := by
  obtain ⟨hat, hothers⟩ := forall_mem_cons.mp hall
  by_cases hrests : Rests t front
  · obtain ⟨front', hskip⟩ := stays hat hd ht hrests
    rw [leapfrog_first (Nat.succ_pos _) hskip ht hd] at h
    refine leapfrog_leaves hd ?_ ?_ hothers ?_ h
    · rfl
    · rfl
    · by_contra hnone
      push Not at hnone
      exact hnot ⟨hrests, hnone⟩
  · cases hskip : skipTo t front with
    | none =>
      rw [leapfrog.eq_def] at h
      simp only [hskip] at h
      cases h
    | some skipped =>
      obtain ⟨found, front'⟩ := skipped
      have habove := leaves hat hd ht hrests hskip
      by_cases hmax : maxDocId ≤ found
      · rw [leapfrog.eq_def] at h
        simp only [hskip, if_pos hmax] at h
        cases h
      · rw [leapfrog_first (Nat.succ_pos _) hskip (ht.trans habove.le) (not_le.mp hmax)] at h
        have hat' := at_skipTo hskip (not_le.mp hmax).ne
        exact habove.trans_le (leapfrog_some (by simp) (lastAt_single others hat') h).1

end Loop

namespace ANDDocumentIterator

variable [RestingIterator σ]

/-- All children are on the current document. -/
structure OnDoc (d : ℕ) (s : ANDDocumentIterator σ) : Prop where
  currDoc : s.currDoc = d
  ne_nil : s.docIterList ≠ []
  all : ∀ it ∈ s.docIterList, At d it

/-- The child in front rests at the target, and the others at the document. -/
def Rests (target : ℕ) (s : ANDDocumentIterator σ) : Prop :=
  match s.docIterList with
  | [] => True
  | front :: others =>
    RestingIterator.Rests target front ∧ ∀ it ∈ others, RestingIterator.Rests s.currDoc it

variable {s s' : ANDDocumentIterator σ}

theorem onDoc_next (h : s.next = some (true, s')) : s'.OnDoc s'.currDoc := by
  unfold next at h
  split at h
  · cases h
  · rename_i front others hlist
    split at h
    · cases h
    · cases h
    · rename_i front' hnext
      have hat := at_next hnext
      split at h
      · obtain ⟨-, rfl⟩ := Prod.mk.inj (some.inj h)
        exact ⟨rfl, cons_ne_nil _ _, forall_mem_singleton.mpr hat⟩
      · split at h
        · cases h
        · cases h
        · rename_i target docIterList hleap
          obtain ⟨-, rfl⟩ := Prod.mk.inj (some.inj h)
          obtain ⟨-, hlength, hall⟩ :=
            leapfrog_some (by simp) (lastAt_single others hat) hleap
          exact ⟨rfl, ne_nil_of_length_eq_add_one hlength, hall⟩

theorem skipTo_some {target r : ℕ} (h : s.skipTo target = some (r, s')) :
    r = maxDocId ∨ r = s'.currDoc ∧ target ≤ r ∧ s'.OnDoc r := by
  unfold skipTo at h
  split at h
  · cases h
  · obtain ⟨rfl, -⟩ := Prod.mk.inj (some.inj h)
    exact .inl rfl
  · rename_i found docIterList hleap
    obtain ⟨rfl, rfl⟩ := Prod.mk.inj (some.inj h)
    split
    · exact .inl rfl
    · rename_i hne
      have hlast : LastAt target 0 s.docIterList :=
        ⟨s.docIterList, [], (append_nil _).symm, rfl, forall_mem_nil _⟩
      obtain ⟨hle, -, hall⟩ := leapfrog_some rfl hlast hleap
      exact .inr ⟨rfl, hle, rfl, hne, hall⟩

theorem skipTo_of_rests {d t : ℕ} {s : ANDDocumentIterator σ} (hon : s.OnDoc d)
    (hd : d < maxDocId) (ht : t ≤ d) (hrests : s.Rests t) : ∃ s', s.skipTo t = some (d, s') := by
  obtain ⟨hdoc, hne, hall⟩ := hon
  obtain ⟨docIterList, currDoc⟩ := s
  obtain rfl : currDoc = d := hdoc
  cases docIterList with
  | nil => exact absurd rfl hne
  | cons front others =>
    obtain ⟨hat, hothers⟩ := forall_mem_cons.mp hall
    obtain ⟨front', hskip⟩ := stays hat hd ht hrests.1
    obtain ⟨list, hleap⟩ := leapfrog_stays hd rfl fun it hit => ⟨hothers it hit, hrests.2 it hit⟩
    have hat' := at_skipTo hskip hd.ne
    obtain ⟨-, hlength, -⟩ := leapfrog_some (by simp) (lastAt_single others hat') hleap
    rw [← leapfrog_first (Nat.succ_pos _) hskip ht hd] at hleap
    refine ⟨⟨list, currDoc⟩, ?_⟩
    simp only [skipTo, length_cons, hleap]
    rw [if_neg (ne_nil_of_length_eq_add_one hlength)]

theorem lt_of_not_rests {d t r : ℕ} (hon : s.OnDoc d) (hd : d < maxDocId) (ht : t ≤ d)
    (hnot : ¬s.Rests t) (h : s.skipTo t = some (r, s')) : d < r := by
  obtain ⟨hdoc, hne, hall⟩ := hon
  obtain ⟨docIterList, currDoc⟩ := s
  obtain rfl : currDoc = d := hdoc
  cases docIterList with
  | nil => exact absurd rfl hne
  | cons front others =>
    unfold skipTo at h
    split at h
    · cases h
    · obtain ⟨rfl, -⟩ := Prod.mk.inj (some.inj h)
      exact hd
    · rename_i found list hleap
      obtain ⟨rfl, -⟩ := Prod.mk.inj (some.inj h)
      split
      · exact hd
      · exact lt_of_leapfrog hd ht hall hnot hleap

instance : RestingIterator (ANDDocumentIterator σ) where
  next := next
  doc := currDoc
  skipTo := skipTo
  doc_skipTo h hr := ((skipTo_some h).resolve_left hr).1.symm
  At := OnDoc
  Rests := Rests
  at_next := onDoc_next
  at_skipTo h hr := ((skipTo_some h).resolve_left hr).2.2
  stays := skipTo_of_rests
  leaves := lt_of_not_rests

end ANDDocumentIterator

end AdDelivery.SearchManager.Nested
