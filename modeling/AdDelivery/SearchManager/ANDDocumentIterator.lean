import AdDelivery.SearchManager.DocumentIterator
import Mathlib.Algebra.BigOperators.Group.List.Basic
import Mathlib.Algebra.GroupWithZero.Nat

/-!
# The positive part of AND queries

An AND iterator keeps its children in a list that it rotates while they leap over each
other to a common document. What it has still to visit are the documents that all
its children have still to visit.
-/

namespace AdDelivery.SearchManager

open List TermDocumentIterator Option

/-- The loop of `do_next` and `do_skipTo`: the children skip in turn to the target, which
moves up to the first document that one of them finds above it, until `n` of them in a row
are on it. -/
def leapfrog (n target nMatch : ℕ) (docIterList : List TermDocumentIterator) :
    Option ℕ × List TermDocumentIterator :=
  if nMatch < n then
    match docIterList with
    | [] => (none, [])
    | front :: others =>
      if (front.skipTo target).1 = maxDocId then (none, (front.skipTo target).2 :: others)
      else if (front.skipTo target).1 = target then
        leapfrog n target (nMatch + 1) (others ++ [(front.skipTo target).2])
      else if target < (front.skipTo target).1 then
        leapfrog n (front.skipTo target).1 1 (others ++ [(front.skipTo target).2])
      else (none, (front.skipTo target).2 :: others)
  else (some target, docIterList)
termination_by (maxDocId - target, n - nMatch)
decreasing_by
  · exact Prod.Lex.right _ (by omega)
  · obtain ⟨-, hlt, -⟩ := skipTo_found ‹_›
    exact Prod.Lex.left _ _ (by omega)

/-- The positive part of an AND query. -/
structure ANDDocumentIterator where
  docIterList : List TermDocumentIterator
  currDoc : ℕ

namespace ANDDocumentIterator

def doNext (s : ANDDocumentIterator) : Bool × ANDDocumentIterator :=
  match s.docIterList with
  | [] => (false, s)
  | front :: others =>
    if front.next.1 then
      if others = [] then (true, ⟨[front.next.2], front.next.2.doc⟩)
      else match leapfrog (others.length + 1) front.next.2.doc 1 (others ++ [front.next.2]) with
        | (some target, docIterList) => (true, ⟨docIterList, target⟩)
        | (none, docIterList) => (false, ⟨docIterList, s.currDoc⟩)
    else (false, ⟨front.next.2 :: others, s.currDoc⟩)

/-- Without children the loop is not entered, and nothing has been found. -/
def doSkipTo (target : ℕ) (s : ANDDocumentIterator) : ℕ × ANDDocumentIterator :=
  match leapfrog s.docIterList.length target 0 s.docIterList with
  | (some found, docIterList) =>
    (if docIterList = [] then maxDocId else found, ⟨docIterList, found⟩)
  | (none, docIterList) => (maxDocId, ⟨docIterList, maxDocId⟩)

end ANDDocumentIterator

/-- What the loop comes to: the children are on one document, or one of them is at its end;
of what they have in common nothing from the target on has been passed. -/
structure Leapt (target : ℕ) (docIterList : List TermDocumentIterator)
    (r : Option ℕ × List TermDocumentIterator) : Prop where
  length : r.2.length = docIterList.length
  common : ∀ x, (∀ it ∈ r.2, x ∈ it.docs) ↔ (∀ it ∈ docIterList, x ∈ it.docs) ∧ target ≤ x
  found : ∀ m, r.1 = some m →
    target ≤ m ∧ ∀ it ∈ r.2, it.started = true ∧ it.docs.head? = some m
  missing : r.1 = none → ∃ it ∈ r.2, it.docs = []

theorem le_of_head?_eq {it : TermDocumentIterator} {m x : ℕ} (h : it.docs.head? = some m)
    (hx : x ∈ it.docs) : m ≤ x := by
  have hinc := it.increasing
  obtain ⟨docs, hdocs⟩ := head?_eq_some_iff.mp h
  rw [hdocs] at hinc hx
  exact (isLeast_cons hinc).2 hx

/-- One turn of the loop: the child in front skips to the target. -/
theorem common_skipTo (target : ℕ) (front : TermDocumentIterator)
    (others : List TermDocumentIterator) (x : ℕ) :
    (∀ it ∈ (front.skipTo target).2 :: others, x ∈ it.docs) ↔
      (∀ it ∈ front :: others, x ∈ it.docs) ∧ target ≤ x := by
  rw [forall_mem_cons, forall_mem_cons, mem_skipTo]
  tauto

theorem common_rotate (front : TermDocumentIterator) (others : List TermDocumentIterator)
    (x : ℕ) : (∀ it ∈ others ++ [front], x ∈ it.docs) ↔ ∀ it ∈ front :: others, x ∈ it.docs := by
  rw [forall_mem_append, forall_mem_singleton, forall_mem_cons, and_comm]

theorem Leapt.of_rotate {target target' : ℕ} {front : TermDocumentIterator}
    {others : List TermDocumentIterator} {r : Option ℕ × List TermDocumentIterator}
    (h : Leapt target' (others ++ [(front.skipTo target).2]) r) (hle : target ≤ target')
    (hfirst : ∀ x ∈ (front.skipTo target).2.docs, target' ≤ x) :
    Leapt target (front :: others) r := by
  refine ⟨?_, fun x => ?_, fun m hm => ?_, h.missing⟩
  · rw [h.length, length_append, length_singleton, length_cons]
  · rw [h.common, common_rotate, common_skipTo]
    constructor
    · rintro ⟨⟨hcommon, ht⟩, -⟩
      exact ⟨hcommon, ht⟩
    · rintro ⟨hcommon, ht⟩
      refine ⟨⟨hcommon, ht⟩, hfirst x ?_⟩
      exact (mem_skipTo target front x).mpr
        ⟨hcommon front mem_cons_self, ht⟩
  · obtain ⟨hm, hheads⟩ := h.found m hm
    exact ⟨hle.trans hm, hheads⟩

variable (n target nMatch : ℕ) (docIterList : List TermDocumentIterator)

/-- The last `nMatch` children are on the target all along. -/
theorem leapfrog_spec (hn : docIterList.length = n) (hpos : 0 < n) :
    (∃ todo done, docIterList = todo ++ done ∧ done.length = nMatch ∧
      ∀ it ∈ done, it.started = true ∧ it.docs.head? = some target) →
    Leapt target docIterList (leapfrog n target nMatch docIterList) := by
  fun_induction leapfrog n target nMatch docIterList with
  | case1 target nMatch hmatch =>
    rw [length_nil] at hn
    omega
  | case2 target nMatch hmatch front others hmax =>
    intro _
    obtain ⟨-, hdocs⟩ | ⟨-, hlt, -⟩ := front.skipTo_cases target
    · refine ⟨rfl, common_skipTo target front others, ?_, fun _ => ?_⟩
      · intro m hm
        exact absurd hm (some_ne_none m).symm
      · exact ⟨_, mem_cons_self, hdocs⟩
    · omega
  | case3 target nMatch hmatch front others hmax hfound ih =>
    rintro ⟨todo, done, hsplit, hdone, hheads⟩
    obtain ⟨-, -, hhead⟩ := skipTo_found hmax
    rw [hfound] at hhead
    obtain _ | ⟨it, todo⟩ := todo
    · have := congrArg List.length hsplit
      rw [nil_append] at this
      omega
    have hlength : (others ++ [(front.skipTo target).2]).length = n := by simpa using hn
    obtain ⟨rfl, rfl⟩ := List.cons.inj hsplit
    refine (ih hlength ⟨todo, done ++ [(front.skipTo target).2], ?_, ?_, ?_⟩).of_rotate
      le_rfl fun x hx => le_of_head?_eq hhead hx
    · exact append_assoc _ _ _
    · rw [length_append, hdone, length_singleton]
    · rw [forall_mem_append, forall_mem_singleton]
      exact ⟨hheads, rfl, hhead⟩
  | case4 target nMatch hmatch front others hmax hne hlt ih =>
    intro _
    obtain ⟨-, -, hhead⟩ := skipTo_found hmax
    refine (ih (by simpa using hn) ⟨others, [(front.skipTo target).2], rfl, rfl, ?_⟩).of_rotate
      hlt.le fun x hx => le_of_head?_eq hhead hx
    rw [forall_mem_singleton]
    exact ⟨rfl, hhead⟩
  | case5 target nMatch hmatch front others hmax hne hlt =>
    obtain ⟨hle, -, -⟩ := skipTo_found hmax
    omega
  | case6 target nMatch docIterList hmatch =>
    rintro ⟨todo, done, hsplit, hdone, hheads⟩
    have hlength := congrArg List.length hsplit
    rw [length_append] at hlength
    obtain rfl : todo = [] := eq_nil_of_length_eq_zero (by omega)
    subst hsplit
    refine ⟨rfl, fun x => ⟨fun hcommon => ⟨hcommon, ?_⟩, fun h => h.1⟩, ?_, ?_⟩
    · obtain ⟨it, hit⟩ := exists_mem_of_length_pos (hn ▸ hpos)
      exact le_of_head?_eq (hheads it hit).2 (hcommon it hit)
    · intro m hm
      obtain rfl := some.inj hm
      exact ⟨le_rfl, hheads⟩
    · intro hnone
      exact absurd hnone (some_ne_none target)

theorem weight_leapfrog_le : ((leapfrog n target nMatch docIterList).2.map weight).sum ≤
      (docIterList.map weight).sum := by
  fun_induction leapfrog n target nMatch docIterList with
  | case1 target nMatch hmatch => exact le_rfl
  | case2 target nMatch hmatch front others hmax =>
    have hweight := front.weight_skipTo_le target
    simp only [map_cons, sum_cons]
    omega
  | case3 target nMatch hmatch front others hmax hfound ih =>
    have hweight := front.weight_skipTo_le target
    simp only [map_append, map_cons, map_nil, sum_append, sum_cons, sum_nil] at ih ⊢
    omega
  | case4 target nMatch hmatch front others hmax hne hlt ih =>
    have hweight := front.weight_skipTo_le target
    simp only [map_append, map_cons, map_nil, sum_append, sum_cons, sum_nil] at ih ⊢
    omega
  | case5 target nMatch hmatch front others hmax hne hlt =>
    have hweight := front.weight_skipTo_le target
    simp only [map_cons, sum_cons]
    omega
  | case6 target nMatch docIterList hmatch => exact le_rfl

namespace ANDDocumentIterator

def size (s : ANDDocumentIterator) : ℕ := (s.docIterList.map weight).sum

/-- The documents that all children have still to visit. -/
def rest (s : ANDDocumentIterator) : Set ℕ :=
  {x | s.docIterList ≠ [] ∧ ∀ it ∈ s.docIterList, x ∈ it.docs}

variable (s : ANDDocumentIterator)

/-- What `do_next` does: there are no children, the first one is at its end, or they leap
from its next document. A single child is on its own document. -/
theorem doNext_cases : (s.docIterList = [] ∧ s.doNext = (false, s)) ∨
      (∃ front others, s.docIterList = front :: others ∧ front.next.1 = false ∧
        s.doNext = (false, ⟨front.next.2 :: others, s.currDoc⟩)) ∨
      ∃ front others r, s.docIterList = front :: others ∧ front.next.1 = true ∧
        r = leapfrog (others.length + 1) front.next.2.doc 1 (others ++ [front.next.2]) ∧
        s.doNext = (r.1.isSome, ⟨r.2, r.1.getD s.currDoc⟩) := by
  cases hlist : s.docIterList with
  | nil =>
    refine .inl ⟨rfl, ?_⟩
    rw [doNext, hlist]
  | cons front others =>
    right
    cases hnext : front.next.1 with
    | false =>
      refine .inl ⟨front, others, rfl, hnext, ?_⟩
      rw [doNext, hlist]
      dsimp only
      rw [hnext, if_neg Bool.false_ne_true]
    | true =>
      refine .inr ⟨front, others, _, rfl, hnext, rfl, ?_⟩
      rw [doNext, hlist]
      dsimp only
      rw [hnext, if_pos rfl]
      by_cases hothers : others = []
      · subst hothers
        rw [if_pos rfl, leapfrog.eq_def]
        rfl
      · rw [if_neg hothers]
        rcases leapfrog (others.length + 1) front.next.2.doc 1 (others ++ [front.next.2]) with
          ⟨_ | target, docIterList⟩
        · rfl
        · rfl

theorem leapt_doNext {front : TermDocumentIterator} (others : List TermDocumentIterator)
    (h : front.next.1 = true) : Leapt front.next.2.doc (others ++ [front.next.2])
      (leapfrog (others.length + 1) front.next.2.doc 1 (others ++ [front.next.2])) := by
  refine leapfrog_spec _ _ _ _ (by simp) (Nat.succ_pos _) ⟨others, [front.next.2], rfl, rfl, ?_⟩
  refine forall_mem_singleton.mpr ⟨rfl, ?_⟩
  rw [doc]
  cases hdocs : front.next.2.docs with
  | nil => exact absurd hdocs (next_docs_ne_nil h)
  | cons d docs => rfl

theorem size_doNext (h : s.doNext.1 = true) : s.doNext.2.size < s.size := by
  obtain ⟨-, hnext⟩ | ⟨front, others, -, -, hnext⟩ | ⟨front, others, r, hlist, hfront, hr, hnext⟩ :=
    s.doNext_cases
  · rw [hnext] at h
    cases h
  · rw [hnext] at h
    cases h
  · have hfirst := weight_next hfront
    have hleap := weight_leapfrog_le (others.length + 1) front.next.2.doc 1
      (others ++ [front.next.2])
    rw [hnext, size, size, hlist]
    rw [← hr] at hleap
    simp only [map_append, map_cons, map_nil, sum_append, sum_cons, sum_nil] at hleap ⊢
    omega

variable {r : Option ℕ × List TermDocumentIterator} {docIterList : List TermDocumentIterator}

/-- What the children leap to from a target. -/
theorem rest_of_leapt {target : ℕ} (h : Leapt target docIterList r) (hne : docIterList ≠ [])
    (currDoc : ℕ) :
    rest ⟨r.2, currDoc⟩ = {x ∈ {x | ∀ it ∈ docIterList, x ∈ it.docs} | target ≤ x} := by
  have hne' : r.2 ≠ [] := by
    intro hnil
    have hlength := h.length
    rw [hnil, length_nil, eq_comm, length_eq_zero_iff] at hlength
    exact hne hlength
  ext x
  exact (and_iff_right hne').trans (h.common x)

theorem isLeast_of_leapt {target m : ℕ} (h : Leapt target docIterList r) (hne : docIterList ≠ [])
    (hm : r.1 = some m) (currDoc : ℕ) :
    IsLeast (rest ⟨r.2, currDoc⟩) m ∧ target ≤ m ∧ m < maxDocId := by
  obtain ⟨hle, hheads⟩ := h.found m hm
  have hlength : 0 < r.2.length := h.length ▸ length_pos_of_ne_nil hne
  obtain ⟨it, hit⟩ := exists_mem_of_length_pos hlength
  refine ⟨⟨⟨ne_nil_of_length_pos hlength, ?_⟩, ?_⟩, hle, ?_⟩
  · exact fun it hit => mem_of_head? (hheads it hit).2
  · exact fun x hx => le_of_head?_eq (hheads it hit).2 (hx.2 it hit)
  · exact it.below m (mem_of_head? (hheads it hit).2)

theorem rest_eq {s : ANDDocumentIterator} (h : s.docIterList ≠ []) :
    s.rest = {x | ∀ it ∈ s.docIterList, x ∈ it.docs} := by
  ext x
  exact and_iff_right h

/-- The first child goes on by itself. -/
theorem isUpperPart_front (front : TermDocumentIterator) (others : List TermDocumentIterator) :
    IsUpperPart {x | ∀ it ∈ front :: others, x ∈ it.docs}
      {x | ∀ it ∈ front.next.2 :: others, x ∈ it.docs} := by
  have hfront := front.isUpperPart_next
  constructor
  · intro x hx
    obtain ⟨hx, hothers⟩ := forall_mem_cons.mp hx
    exact forall_mem_cons.mpr ⟨hfront.subset hx, hothers⟩
  · intro x hx y hy hxy
    obtain ⟨hx, -⟩ := forall_mem_cons.mp hx
    obtain ⟨hy, hothers⟩ := forall_mem_cons.mp hy
    exact forall_mem_cons.mpr ⟨hfront.upward x hx y hy hxy, hothers⟩

theorem isUpperPart_doNext : IsUpperPart s.rest s.doNext.2.rest := by
  obtain ⟨-, hnext⟩ | ⟨front, others, hlist, hfront, hnext⟩ |
    ⟨front, others, r, hlist, hfront, hr, hnext⟩ := s.doNext_cases
  · rw [hnext]
    exact .refl _
  · rw [hnext, rest_eq (by rw [hlist]; exact cons_ne_nil _ _), hlist,
      rest_eq (cons_ne_nil _ _)]
    exact isUpperPart_front front others
  · subst hr
    rw [hnext, rest_of_leapt (leapt_doNext others hfront) (by simp),
      rest_eq (by rw [hlist]; exact cons_ne_nil _ _), hlist]
    simp only [common_rotate]
    exact (isUpperPart_front front others).trans (.sep _ _)

theorem isLeast_doNext (h : s.doNext.1 = true) : IsLeast s.doNext.2.rest s.doNext.2.currDoc := by
  obtain ⟨-, hnext⟩ | ⟨front, others, -, -, hnext⟩ | ⟨front, others, r, -, hfront, hr, hnext⟩ :=
    s.doNext_cases
  · rw [hnext] at h
    cases h
  · rw [hnext] at h
    cases h
  · rw [hnext] at h ⊢
    obtain ⟨m, hm⟩ := isSome_iff_exists.mp h
    rw [hm]
    subst hr
    exact (isLeast_of_leapt (leapt_doNext others hfront) (by simp) hm m).1

variable (target : ℕ)

/-- What `do_skipTo` does. -/
theorem doSkipTo_cases (s : ANDDocumentIterator) :
    (s.docIterList = [] ∧ s.doSkipTo target = (maxDocId, ⟨[], target⟩)) ∨
      ∃ r, s.docIterList ≠ [] ∧ Leapt target s.docIterList r ∧
        s.doSkipTo target = (r.1.getD maxDocId, ⟨r.2, r.1.getD maxDocId⟩) := by
  by_cases hlist : s.docIterList = []
  · refine .inl ⟨hlist, ?_⟩
    rw [doSkipTo, hlist, leapfrog.eq_def]
    rfl
  · have hleapt := leapfrog_spec s.docIterList.length target 0 s.docIterList rfl
      (length_pos_of_ne_nil hlist) ⟨s.docIterList, [], by simp, rfl, by simp⟩
    rw [doSkipTo]
    generalize leapfrog s.docIterList.length target 0 s.docIterList = r at hleapt
    refine .inr ⟨r, hlist, hleapt, ?_⟩
    obtain ⟨_ | found, docIterList⟩ := r
    · rfl
    · have hne : docIterList ≠ [] := by
        rintro rfl
        exact hlist (length_eq_zero_iff.mp hleapt.length.symm)
      dsimp only
      rw [if_neg hne]
      rfl

theorem rest_doSkipTo (s : ANDDocumentIterator) :
    (s.doSkipTo target).2.rest = {x ∈ s.rest | target ≤ x} := by
  obtain ⟨hlist, hskip⟩ | ⟨r, hne, hleapt, hskip⟩ := doSkipTo_cases target s
  · rw [hskip]
    ext x
    constructor
    · rintro ⟨hnil, -⟩
      exact absurd rfl hnil
    · rintro ⟨⟨hnil, -⟩, -⟩
      exact absurd hlist hnil
  · rw [hskip, rest_eq hne]
    exact rest_of_leapt hleapt hne _

theorem first_doSkipTo (s : ANDDocumentIterator) :
    FirstFrom s.rest maxDocId target (s.doSkipTo target).1 := by
  obtain ⟨hlist, hskip⟩ | ⟨r, hne, hleapt, hskip⟩ := doSkipTo_cases target s
  · rw [hskip, FirstFrom]
    rintro x ⟨hnil, -⟩
    exact absurd hlist hnil
  · have hrest := rest_of_leapt hleapt hne 0
    rw [rest_eq hne, hskip, FirstFrom]
    cases hr : r.1 with
    | none =>
      intro x hx
      by_contra hle
      obtain ⟨it, hit, hdocs⟩ := hleapt.missing hr
      have hmem := ((hleapt.common x).mpr ⟨hx, not_lt.mp hle⟩) it hit
      rw [hdocs] at hmem
      exact not_mem_nil hmem
    | some m =>
      obtain ⟨hleast, -, hlt⟩ := isLeast_of_leapt hleapt hne hr 0
      rw [getD_some, if_neg hlt.ne, ← hrest]
      exact hleast

instance : LawfulDocumentIterator ANDDocumentIterator where
  next := doNext
  doc := currDoc
  skipTo := doSkipTo
  size := size
  size_next := size_doNext
  skipTo_found t s := by
    obtain ⟨-, hskip⟩ | ⟨r, hne, hleapt, hskip⟩ := doSkipTo_cases t s
    · rw [hskip]
      exact .inl rfl
    · rw [hskip]
      cases hr : r.1 with
      | none => exact .inl rfl
      | some m => exact .inr (isLeast_of_leapt hleapt hne hr 0).2
  rest := rest
  rest_next := isUpperPart_doNext
  least_next := isLeast_doNext
  rest_skipTo := rest_doSkipTo
  first_skipTo := first_doSkipTo

end ANDDocumentIterator

end AdDelivery.SearchManager
