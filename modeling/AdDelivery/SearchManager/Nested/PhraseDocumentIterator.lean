import AdDelivery.SearchManager.Nested.RestingIterator
import Mathlib.Algebra.BigOperators.Group.List.Basic
import Mathlib.Algebra.GroupWithZero.Nat

/-!
# Phrase iterators

A phrase iterator lets the readers of its terms skip in turn until all of them are on one
document, and asks there whether the positions match. It has no skip of its own: the inherited
one calls `next` first, so that it always leaves the document.
-/

namespace AdDelivery.SearchManager.Nested

open TermDocumentIterator Nat Option

/-- `isQualified` is what the positions of the terms in a document come to, and `initialized`
what `init` returns. -/
structure PhraseDocumentIterator where
  isQualified : ℕ → Bool
  initialized : Bool
  inited : Bool
  hasNext : Bool
  termDocReaders : List TermDocumentIterator
  currDoc : ℕ

namespace PhraseDocumentIterator

/-- The loop of `do_next`: the readers skip in turn to the target, until all of them in a row are
on it. -/
def gather (target start nMatch : ℕ) (readers : List TermDocumentIterator) :
    Option ℕ × List TermDocumentIterator :=
  if nMatch < readers.length then
    match readers[start % readers.length]? with
    | none => (none, readers)
    | some reader =>
      let readers' := readers.set (start % readers.length) (reader.skipTo target).2
      if (reader.skipTo target).1 = maxDocId ∨ (reader.skipTo target).1 < target then
        (none, readers')
      else if (reader.skipTo target).1 = target then
        gather target (start + 1) (nMatch + 1) readers'
      else gather (reader.skipTo target).1 (start + 1) 1 readers'
  else (some target, readers)
termination_by (maxDocId - target, readers.length - nMatch)
decreasing_by
  · rw [List.length_set]
    exact Prod.Lex.right _ (by omega)
  · rename_i hfound hne
    obtain ⟨-, hlt, -⟩ := skipTo_found fun hmax => hfound (.inl hmax)
    exact Prod.Lex.left _ _ (by omega)

/-- The readers of the last `nMatch` turns are on the target. -/
structure Gathered (target start nMatch : ℕ) (readers : List TermDocumentIterator) : Prop where
  le : nMatch ≤ start
  on : ∀ k, start - nMatch ≤ k → k < start → ∀ reader ∈ readers[k % readers.length]?,
    reader.OnDoc target

/-- Two turns of the same reader are at least a whole round apart. -/
theorem mod_ne_of_lt {k start n : ℕ} (hlt : k < start) (hnear : start < k + n) :
    start % n ≠ k % n := by
  intro heq
  have hdvd : n ∣ start - k := dvd_of_mod_eq_zero (sub_mod_eq_zero_of_mod_eq heq)
  have hle := le_of_dvd (by omega) hdvd
  omega

variable {readers : List TermDocumentIterator} {reader : TermDocumentIterator}
    {target start nMatch : ℕ}

theorem Gathered.skip (h : Gathered target start nMatch readers)
    (hmatch : nMatch < readers.length) (hon : reader.OnDoc target) :
    Gathered target (start + 1) (nMatch + 1) (readers.set (start % readers.length) reader) := by
  refine ⟨succ_le_succ h.le, fun k hge hlt other hother => ?_⟩
  rw [List.length_set] at hother
  rcases Nat.lt_succ_iff_lt_or_eq.mp hlt with hlt | rfl
  · rw [List.getElem?_set_ne (mod_ne_of_lt hlt (by omega))] at hother
    exact h.on k (by omega) hlt other hother
  · rw [List.getElem?_set_self (mod_lt k (by omega))] at hother
    obtain rfl := some.inj hother
    exact hon

theorem gathered_single {target : ℕ} (start : ℕ) (hpos : 0 < readers.length)
    (hon : reader.OnDoc target) :
    Gathered target (start + 1) 1 (readers.set (start % readers.length) reader) := by
  refine ⟨succ_le_succ (zero_le start), fun k hge hlt other hother => ?_⟩
  obtain rfl : k = start := by omega
  rw [List.length_set, List.getElem?_set_self (mod_lt k hpos)] at hother
  obtain rfl := some.inj hother
  exact hon

/-- After a whole round the first reader is on the target. -/
theorem Gathered.front (h : Gathered target start nMatch readers)
    (hmatch : readers.length ≤ nMatch) : ∀ reader ∈ readers.head?, reader.OnDoc target := by
  intro reader hreader
  have hpos : 0 < readers.length := List.length_pos_of_mem (List.mem_of_head? hreader)
  have hmod := div_add_mod (start - 1) readers.length
  have hlt := mod_lt (start - 1) hpos
  have hle := h.le
  refine h.on (readers.length * ((start - 1) / readers.length)) (by omega) (by omega) reader ?_
  rw [mul_mod_right, ← List.head?_eq_getElem?]
  exact hreader

/-- The target only moves up, and in the end the first reader is on it. -/
theorem gather_spec {target start nMatch m : ℕ} {readers readers' : List TermDocumentIterator}
    (h : Gathered target start nMatch readers)
    (hgather : gather target start nMatch readers = (some m, readers')) :
    target ≤ m ∧ ∀ reader ∈ readers'.head?, reader.OnDoc m := by
  fun_induction gather target start nMatch readers with
  | case1 target start nMatch readers hmatch hnone => cases hgather
  | case2 target start nMatch readers hmatch reader hreader readers'' hfail => cases hgather
  | case3 target start nMatch readers hmatch reader hreader readers'' hfound heq ih =>
    have hon := onDoc_skipTo fun hmax => hfound (.inl hmax)
    rw [heq] at hon
    exact ih (h.skip hmatch hon) hgather
  | case4 target start nMatch readers hmatch reader hreader readers'' hfound hne ih =>
    have hon := onDoc_skipTo fun hmax => hfound (.inl hmax)
    obtain ⟨hle, hfront⟩ := ih (gathered_single start (by omega) hon) hgather
    exact ⟨by omega, hfront⟩
  | case5 target start nMatch readers hmatch =>
    obtain ⟨hm, rfl⟩ := Prod.mk.inj hgather
    obtain rfl := some.inj hm
    exact ⟨le_rfl, h.front (not_lt.mp hmatch)⟩

def readersWeight (readers : List TermDocumentIterator) : ℕ :=
  (readers.map weight).sum

theorem readersWeight_set_le {i : ℕ} {reader reader' : TermDocumentIterator}
    (hreader : readers[i]? = some reader) (hle : reader'.weight ≤ reader.weight) :
    readersWeight (readers.set i reader') ≤ readersWeight readers := by
  induction readers generalizing i with
  | nil => exact le_rfl
  | cons first readers ih =>
    cases i with
    | zero =>
      obtain rfl := Option.some.inj hreader
      exact Nat.add_le_add_right hle _
    | succ i => exact Nat.add_le_add_left (ih hreader) _

theorem readersWeight_gather_le (target start nMatch : ℕ) (readers : List TermDocumentIterator) :
    readersWeight (gather target start nMatch readers).2 ≤ readersWeight readers := by
  fun_induction gather target start nMatch readers with
  | case1 target start nMatch readers hmatch hnone => exact le_rfl
  | case2 target start nMatch readers hmatch reader hreader readers' hfail =>
    exact readersWeight_set_le hreader (reader.weight_skipTo_le target)
  | case3 target start nMatch readers hmatch reader hreader readers' hfound heq ih =>
    exact ih.trans (readersWeight_set_le hreader (reader.weight_skipTo_le target))
  | case4 target start nMatch readers hmatch reader hreader readers' hfound hne ih =>
    exact ih.trans (readersWeight_set_le hreader (reader.weight_skipTo_le target))
  | case5 target start nMatch readers hmatch => exact le_rfl

def doNext (s : PhraseDocumentIterator) : Bool × PhraseDocumentIterator :=
  match s.termDocReaders with
  | [] => (false, s)
  | front :: others =>
    if front.next.1 then
      match gather front.next.2.doc 1 1 (front.next.2 :: others) with
      | (some target, readers) => (true, { s with termDocReaders := readers, currDoc := target })
      | (none, readers) => (false, { s with termDocReaders := readers, currDoc := maxDocId })
    else (false, { s with termDocReaders := front.next.2 :: others, currDoc := maxDocId })

/-- The document is the current one, and the first reader is on it. -/
structure OnDoc (d : ℕ) (s : PhraseDocumentIterator) : Prop where
  inited : s.inited = true
  currDoc : s.currDoc = d
  front : ∀ reader ∈ s.termDocReaders.head?, reader.OnDoc d

variable {s : PhraseDocumentIterator}

/-- Every call of `do_next` that finds a document moves all readers on. -/
theorem doNext_found (h : s.doNext.1 = true) :
    ∃ front others readers target, s.termDocReaders = front :: others ∧ front.next.1 = true ∧
      gather front.next.2.doc 1 1 (front.next.2 :: others) = (some target, readers) ∧
      s.doNext.2 = { s with termDocReaders := readers, currDoc := target } := by
  cases hreaders : s.termDocReaders with
  | nil =>
    rw [doNext, hreaders] at h
    cases h
  | cons front others =>
    rw [doNext, hreaders] at h ⊢
    dsimp only at h ⊢
    cases hnext : front.next.1 with
    | false =>
      rw [hnext] at h
      cases h
    | true =>
      rw [hnext] at h
      cases hgather : gather front.next.2.doc 1 1 (front.next.2 :: others) with
      | mk found readers =>
        rw [hgather] at h
        cases found with
        | none => cases h
        | some target =>
          refine ⟨front, others, readers, target, rfl, hnext, hgather, ?_⟩
          rw [if_pos rfl]

def weight (s : PhraseDocumentIterator) : ℕ := readersWeight s.termDocReaders

theorem weight_doNext_lt (h : s.doNext.1 = true) : s.doNext.2.weight < s.weight := by
  obtain ⟨front, others, readers, target, hreaders, hnext, hgather, hs⟩ := doNext_found h
  have hle := readersWeight_gather_le front.next.2.doc 1 1 (front.next.2 :: others)
  have hlt := weight_next hnext
  rw [hgather] at hle
  rw [hs, weight, weight, hreaders]
  exact hle.trans_lt (Nat.add_lt_add_right hlt _)

/-- The loop of `next`, entered while there may be a document. -/
def nextQualified (s : PhraseDocumentIterator) : Bool × PhraseDocumentIterator :=
  if _hfound : s.doNext.1 then
    if s.isQualified s.doNext.2.currDoc then (true, { s.doNext.2 with hasNext := true })
    else nextQualified s.doNext.2
  else (false, { s.doNext.2 with hasNext := false })
termination_by s.weight
decreasing_by exact weight_doNext_lt _hfound

def init (s : PhraseDocumentIterator) : PhraseDocumentIterator :=
  if s.inited then s else { s with hasNext := s.initialized, inited := true }

def next (s : PhraseDocumentIterator) : Bool × PhraseDocumentIterator :=
  if s.init.hasNext then s.init.nextQualified else (false, s.init)

/-- What a call that finds a document does: it comes to the document, and it leaves any one that
the iterator was on. -/
structure Advances (s s' : PhraseDocumentIterator) : Prop where
  on : s'.OnDoc s'.currDoc
  above : ∀ d, s.OnDoc d → d < s'.currDoc
  weight : s'.weight < s.weight

theorem advances_doNext (hinited : s.inited = true) (h : s.doNext.1 = true) :
    Advances s s.doNext.2 := by
  have hweight := weight_doNext_lt h
  obtain ⟨front, others, readers, target, hreaders, hnext, hgather, hs⟩ := doNext_found h
  have hfront := onDoc_next hnext
  have hgathered : Gathered front.next.2.doc 1 1 (front.next.2 :: others) :=
    @gathered_single (front.next.2 :: others) _ _ 0 (succ_pos _) hfront
  obtain ⟨hle, hon⟩ := gather_spec hgathered hgather
  rw [hs] at hweight ⊢
  refine ⟨⟨hinited, rfl, hon⟩, fun d hd => ?_, hweight⟩
  have hd := hd.front front (by rw [hreaders]; exact rfl)
  calc d = front.doc := hd.doc_eq.symm
    _ < front.next.2.doc := doc_lt_next hd.started hnext
    _ ≤ target := hle

theorem Advances.trans {s s' s'' : PhraseDocumentIterator} (h : Advances s s')
    (h' : Advances s' s'') : Advances s s'' :=
  ⟨h'.on, fun d hd => (h.above d hd).trans (h'.above _ h.on), h'.weight.trans h.weight⟩

theorem advances_nextQualified (hinited : s.inited = true) (h : s.nextQualified.1 = true) :
    Advances s s.nextQualified.2 := by
  fun_induction nextQualified s with
  | case1 s hfound hqualified =>
    have hadvances := advances_doNext hinited hfound
    exact ⟨⟨hadvances.on.inited, rfl, hadvances.on.front⟩, hadvances.above, hadvances.weight⟩
  | case2 s hfound hqualified ih =>
    have hadvances := advances_doNext hinited hfound
    exact hadvances.trans (ih hadvances.on.inited h)
  | case3 s hfound => cases h

theorem advances_next (h : s.next.1 = true) : Advances s s.next.2 := by
  have hinit : s.init.inited = true := by
    unfold init
    split
    · assumption
    · rfl
  have hreaders : s.init.termDocReaders = s.termDocReaders := by
    unfold init
    split <;> rfl
  have hdoc : s.init.currDoc = s.currDoc := by
    unfold init
    split <;> rfl
  unfold next at h ⊢
  split at h
  · rename_i hnext
    rw [if_pos hnext]
    have hadvances := advances_nextQualified hinit h
    refine ⟨hadvances.on, fun d hd => hadvances.above d ⟨hinit, ?_, ?_⟩, ?_⟩
    · rw [hdoc]
      exact hd.currDoc
    · rw [hreaders]
      exact hd.front
    · have hweight : s.init.weight = s.weight := by rw [weight, hreaders, weight]
      exact hadvances.weight.trans_eq hweight
  · cases h

/-- The skip that is inherited: `next` until the target is not above. -/
def skipTo (target : ℕ) (s : PhraseDocumentIterator) : ℕ × PhraseDocumentIterator :=
  if _hfound : s.next.1 then
    if s.next.2.currDoc < target then skipTo target s.next.2
    else (s.next.2.currDoc, s.next.2)
  else (maxDocId, s.next.2)
termination_by s.weight
decreasing_by exact (advances_next _hfound).weight

/-- A skip gives up, or it goes on to a document of its own. -/
theorem skipTo_cases (target : ℕ) (s : PhraseDocumentIterator) : (s.skipTo target).1 = maxDocId ∨
      (s.skipTo target).1 = (s.skipTo target).2.currDoc ∧ Advances s (s.skipTo target).2 := by
  fun_induction skipTo target s with
  | case1 s hfound hlt ih =>
    refine ih.imp_right fun hadvances => ⟨hadvances.1, ?_⟩
    exact (advances_next hfound).trans hadvances.2
  | case2 s hfound hle => exact .inr ⟨rfl, advances_next hfound⟩
  | case3 s hfound => exact .inl rfl

/-- A phrase iterator never rests. -/
instance : RestingIterator PhraseDocumentIterator where
  next s := some s.next
  doc := currDoc
  skipTo t s := some (s.skipTo t)
  doc_skipTo {t r s s'} h hr := by
    have hskip := some.inj h
    have hcases := skipTo_cases t s
    rw [hskip] at hcases
    exact (hcases.resolve_left hr).1.symm
  At := OnDoc
  Rests _ _ := False
  at_next {s s'} h := by
    have hnext := some.inj h
    have hfound : s.next.1 = true := by rw [hnext]
    have hon := (advances_next hfound).on
    rw [hnext] at hon
    exact hon
  at_skipTo {t r s s'} h hr := by
    have hskip := some.inj h
    have hcases := skipTo_cases t s
    rw [hskip] at hcases
    obtain ⟨hr, hadvances⟩ := hcases.resolve_left hr
    rw [show r = s'.currDoc from hr]
    exact hadvances.on
  stays _ _ _ h := h.elim
  leaves {d t r s s'} hon hd _ _ h := by
    have hskip := some.inj h
    have hcases := skipTo_cases t s
    rw [hskip] at hcases
    rcases hcases with hmax | ⟨hr, hadvances⟩
    · rw [show r = maxDocId from hmax]
      exact hd
    · rw [show r = s'.currDoc from hr]
      exact hadvances.above d hon

end PhraseDocumentIterator

end AdDelivery.SearchManager.Nested
