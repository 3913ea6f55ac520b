import AdDelivery.SearchManager.ANDDocumentIterator
import AdDelivery.SearchManager.ORDocumentIterator

/-!
# Boolean queries with exclusions

An AND or OR iterator with NOT children walks its positive part and, beside it, an
iterator over the excluded documents. `next` moves both until the positive part is on a
document that is not excluded. `skipTo` moves each of them to the target and gives up when
both come to one document: the documents after it are never looked at.
-/

namespace AdDelivery.SearchManager

open DocumentIterator LawfulDocumentIterator DocumentIterator

/-- The fields of an AND or OR iterator, its positive part in one of them. -/
structure NotQuery (α β : Type) where
  positive : α
  hasNot : Bool
  notDocIterator : β
  currDocOfNOTIter : ℕ
  initNOTIterator : Bool

namespace NotQuery

variable {α β : Type} [DocumentIterator α] [DocumentIterator β] (s : NotQuery α β)

def currDoc : ℕ := doc s.positive

def doNext : Bool × NotQuery α β :=
  ((next s.positive).1, { s with positive := (next s.positive).2 })

/-- Take the exclusions one document further. -/
def nextNot : NotQuery α β :=
  { s with
    notDocIterator := (next s.notDocIterator).2
    currDocOfNOTIter :=
      if (next s.notDocIterator).1 then doc (next s.notDocIterator).2 else maxDocId }

def skipNot (target : ℕ) (s : NotQuery α β) : NotQuery α β :=
  { s with
    notDocIterator := (skipTo target s.notDocIterator).2
    currDocOfNOTIter := (skipTo target s.notDocIterator).1 }

/-- The exclusions are started by the first `next`, even if a skip has done so before. -/
def initNot : NotQuery α β :=
  if s.initNOTIterator then s else nextNot { s with initNOTIterator := true }

/-- `move_together_with_not` of the AND iterator. -/
def moveTogetherAND (s : NotQuery α β) : Bool × NotQuery α β :=
  if s.doNext.1 then
    let s' := s.doNext.2.nextNot
    if s'.currDoc < s'.currDocOfNOTIter then (true, s')
    else if s'.currDoc = s'.currDocOfNOTIter then moveTogetherAND s'
    else
      let s'' := s'.skipNot s'.currDoc
      if s''.currDoc = s''.currDocOfNOTIter then moveTogetherAND s'' else (true, s'')
  else (false, s.doNext.2)
termination_by size s.positive
decreasing_by
  · exact size_next s.positive ‹_›
  · exact size_next s.positive ‹_›

/-- `move_together_with_not` of the OR iterator. -/
def moveTogetherOR (s : NotQuery α β) : Bool × NotQuery α β :=
  let s' := s.doNext.2.nextNot
  if s.doNext.1 ∧ s'.currDoc = s'.currDocOfNOTIter then moveTogetherOR s' else (s.doNext.1, s')
termination_by size s.positive
decreasing_by
  exact size_next s.positive (And.left ‹_›)

/-- `next` of the AND iterator. -/
def nextAND (s : NotQuery ANDDocumentIterator β) : Bool × NotQuery ANDDocumentIterator β :=
  if !s.hasNot then s.doNext
  else if s.positive.docIterList = [] then (false, s)
  else
    let r := s.initNot.doNext
    if r.2.currDoc = r.2.currDocOfNOTIter then moveTogetherAND r.2
    else if r.2.currDoc < r.2.currDocOfNOTIter then r
    else
      let s' := r.2.skipNot r.2.currDoc
      if s'.currDoc = s'.currDocOfNOTIter then moveTogetherAND s' else (r.1, s')

/-- `next` of the OR iterator. -/
def nextOR : Bool × NotQuery α β :=
  if !s.hasNot then s.doNext
  else
    let r := s.initNot.doNext
    let s' := if r.2.currDocOfNOTIter < r.2.currDoc then r.2.skipNot r.2.currDoc else r.2
    if s'.currDoc = s'.currDocOfNOTIter then moveTogetherOR s' else (r.1, s')

def doSkipTo (target : ℕ) (s : NotQuery α β) : ℕ × NotQuery α β :=
  ((skipTo target s.positive).1, { s with positive := (skipTo target s.positive).2 })

/-- The loop of `skipTo`, the same in both iterators. -/
def skipPast (currentDoc : ℕ) (s : NotQuery α β) : ℕ × NotQuery α β :=
  let nFoundId := (s.doSkipTo currentDoc).1
  let s' := (s.doSkipTo currentDoc).2.skipNot currentDoc
  if nFoundId ≠ maxDocId ∧ nFoundId = currentDoc ∧ s'.currDocOfNOTIter = currentDoc then
    (maxDocId, s')
  else if nFoundId ≠ maxDocId ∧ nFoundId = s'.currDocOfNOTIter then skipPast nFoundId s'
  else (nFoundId, s')
termination_by maxDocId - currentDoc
decreasing_by
  rename_i hexcluded hmore
  obtain hnone | ⟨hle, hlt⟩ := skipTo_found currentDoc s.positive
  · exact absurd hnone hmore.1
  · have hne : (skipTo currentDoc s.positive).1 ≠ currentDoc :=
      fun heq => hexcluded ⟨hmore.1, heq, hmore.2.symm.trans heq⟩
    change maxDocId - (skipTo currentDoc s.positive).1 < maxDocId - currentDoc
    omega

/-- `skipTo` of both iterators. -/
def skipTo (target : ℕ) (s : NotQuery α β) : ℕ × NotQuery α β :=
  if s.hasNot then s.skipPast target else s.doSkipTo target

end NotQuery

open NotQuery

/-- Nothing of the positive part `P` has been passed out of order, what the exclusions have
still to visit is in `N`, and without a NOT part nothing is. -/
structure OnTrack {α β : Type} [LawfulDocumentIterator α] [LawfulDocumentIterator β]
    (P N : Set ℕ) (s : NotQuery α β) : Prop where
  positive : IsUpperPart P (rest s.positive)
  excluded : rest s.notDocIterator ⊆ N
  hasNot : s.hasNot = false → N = ∅

namespace OnTrack

variable {α β : Type} [LawfulDocumentIterator α] [LawfulDocumentIterator β] {P N : Set ℕ}
  {s : NotQuery α β}

theorem doNext (h : OnTrack P N s) : OnTrack P N s.doNext.2 :=
  ⟨h.positive.trans (rest_next s.positive), h.excluded, h.hasNot⟩

theorem nextNot (h : OnTrack P N s) : OnTrack P N s.nextNot :=
  ⟨h.positive, (rest_next s.notDocIterator).subset.trans h.excluded, h.hasNot⟩

theorem skipNot (h : OnTrack P N s) (target : ℕ) : OnTrack P N (s.skipNot target) := by
  refine ⟨h.positive, Set.Subset.trans ?_ h.excluded, h.hasNot⟩
  exact (rest_skipTo target s.notDocIterator).trans_subset (IsUpperPart.sep _ _).subset

theorem initNot (h : OnTrack P N s) : OnTrack P N s.initNot := by
  unfold NotQuery.initNot
  split
  · exact h
  · exact nextNot ⟨h.positive, h.excluded, h.hasNot⟩

theorem doSkipTo (h : OnTrack P N s) (target : ℕ) : OnTrack P N (s.doSkipTo target).2 := by
  refine ⟨h.positive.trans ?_, h.excluded, h.hasNot⟩
  exact (rest_skipTo target s.positive).symm ▸ .sep _ _

end OnTrack

/-- A call of `next` that found a document left the positive part on it. -/
structure Moved {α β : Type} [LawfulDocumentIterator α] [LawfulDocumentIterator β]
    (P N : Set ℕ) (r : Bool × NotQuery α β) : Prop where
  onTrack : OnTrack P N r.2
  found : r.1 = true → IsLeast (rest r.2.positive) r.2.currDoc

section Next

variable {α β : Type} [LawfulDocumentIterator α] [LawfulDocumentIterator β] {P N : Set ℕ}
  {s : NotQuery α β}

theorem moved_doNext (h : OnTrack P N s) : Moved P N s.doNext :=
  ⟨h.doNext, least_next s.positive⟩

theorem Moved.skipNot {b : Bool} (h : Moved P N (b, s)) (target : ℕ) :
    Moved P N (b, s.skipNot target) :=
  ⟨h.onTrack.skipNot target, h.found⟩

theorem moved_moveTogetherAND (s : NotQuery α β) (h : OnTrack P N s) :
    Moved P N s.moveTogetherAND := by
  fun_induction moveTogetherAND s with
  | case1 s hnext s' hlt => exact ⟨h.doNext.nextNot, fun _ => (moved_doNext h).found hnext⟩
  | case2 s hnext s' hlt heq ih => exact ih h.doNext.nextNot
  | case3 s hnext s' hlt heq s'' hexcluded ih => exact ih (h.doNext.nextNot.skipNot _)
  | case4 s hnext s' hlt heq s'' hexcluded =>
    exact ⟨h.doNext.nextNot.skipNot _, fun _ => (moved_doNext h).found hnext⟩
  | case5 s hnext => exact ⟨h.doNext, fun hfalse => absurd hfalse Bool.false_ne_true⟩

theorem moved_moveTogetherOR (s : NotQuery α β) (h : OnTrack P N s) :
    Moved P N s.moveTogetherOR := by
  fun_induction moveTogetherOR s with
  | case1 s s' hexcluded ih => exact ih h.doNext.nextNot
  | case2 s s' hexcluded => exact ⟨h.doNext.nextNot, (moved_doNext h).found⟩

theorem moved_nextOR (h : OnTrack P N s) : Moved P N s.nextOR := by
  unfold nextOR
  split
  · exact moved_doNext h
  have hmoved := moved_doNext h.initNot
  dsimp only
  split
  · split
    · exact moved_moveTogetherOR _ (hmoved.onTrack.skipNot _)
    · exact hmoved.skipNot _
  · split
    · exact moved_moveTogetherOR _ hmoved.onTrack
    · exact hmoved

theorem moved_nextAND {s : NotQuery ANDDocumentIterator β} (h : OnTrack P N s) :
    Moved P N s.nextAND := by
  unfold nextAND
  split
  · exact moved_doNext h
  split
  · exact ⟨h, fun hfalse => absurd hfalse Bool.false_ne_true⟩
  have hmoved := moved_doNext h.initNot
  dsimp only
  split
  · exact moved_moveTogetherAND _ hmoved.onTrack
  split
  · exact hmoved
  split
  · exact moved_moveTogetherAND _ (hmoved.onTrack.skipNot _)
  · exact hmoved.skipNot _

end Next

/-- A skip that reports a document leaves the iterator on it. -/
theorem isLeast_skipTo {σ : Type} [LawfulDocumentIterator σ] (t : ℕ) (it : σ)
    (h : (skipTo t it).1 ≠ maxDocId) : IsLeast (rest (skipTo t it).2) (skipTo t it).1 :=
  (rest_skipTo t it).symm ▸ (first_skipTo t it).isLeast h

/-- A skip to the document that a skip has found stays there. -/
theorem skipTo_again {σ : Type} [LawfulDocumentIterator σ] (it : σ) {t d : ℕ}
    (hd : (skipTo t it).1 = d) (hmax : d ≠ maxDocId) : (skipTo d (skipTo t it).2).1 = d := by
  have hleast : IsLeast (rest (skipTo t it).2) d := by
    subst hd
    exact isLeast_skipTo t it hmax
  have hagain := first_skipTo d (skipTo t it).2
  by_cases hend : (skipTo d (skipTo t it).2).1 = maxDocId
  · rw [hend] at hagain
    exact absurd (hagain.below d hleast.1) (lt_irrefl d)
  · obtain ⟨⟨-, hle⟩, hfirst⟩ := hagain.isLeast hend
    exact le_antisymm (hfirst ⟨hleast.1, le_rfl⟩) hle

section Skip

variable {α β : Type} [LawfulDocumentIterator α] [LawfulDocumentIterator β] {P N : Set ℕ}
  {s : NotQuery α β}

theorem skipPast_spec (currentDoc : ℕ) (s : NotQuery α β) (h : OnTrack P N s) :
    OnTrack P N (s.skipPast currentDoc).2 ∧ ((s.skipPast currentDoc).1 ≠ maxDocId →
        IsLeast (rest (s.skipPast currentDoc).2.positive) (s.skipPast currentDoc).1) := by
  fun_induction skipPast currentDoc s with
  | case1 currentDoc s nFoundId s' hexcluded =>
    exact ⟨(h.doSkipTo _).skipNot _, fun hmax => absurd rfl hmax⟩
  | case2 currentDoc s nFoundId s' hexcluded hmore ih => exact ih ((h.doSkipTo _).skipNot _)
  | case3 currentDoc s nFoundId s' hexcluded hmore =>
    exact ⟨(h.doSkipTo _).skipNot _, isLeast_skipTo currentDoc s.positive⟩

theorem skipTo_spec (target : ℕ) (h : OnTrack P N s) : OnTrack P N (s.skipTo target).2 ∧
      ((s.skipTo target).1 ≠ maxDocId →
        IsLeast (rest (s.skipTo target).2.positive) (s.skipTo target).1) := by
  unfold NotQuery.skipTo
  split
  · exact skipPast_spec target s h
  · exact ⟨h.doSkipTo target, isLeast_skipTo target s.positive⟩

/-- A skip gives up where both parts come to one document, in its second turn at the latest. -/
theorem skipPast_eq_max {t found : ℕ} (hmax : found ≠ maxDocId)
    (hfound : (skipTo t s.positive).1 = found) (hnot : (skipTo t s.notDocIterator).1 = found) :
    (s.skipPast t).1 = maxDocId := by
  have hfound₁ : (s.doSkipTo t).1 = found := hfound
  have hnot₁ : ((s.doSkipTo t).2.skipNot t).currDocOfNOTIter = found := hnot
  have hfound₂ : (((s.doSkipTo t).2.skipNot t).doSkipTo found).1 = found :=
    skipTo_again s.positive hfound hmax
  have hnot₂ : ((((s.doSkipTo t).2.skipNot t).doSkipTo found).2.skipNot
      found).currDocOfNOTIter = found := skipTo_again s.notDocIterator hnot hmax
  rw [skipPast, hfound₁, hnot₁]
  by_cases htarget : found = t
  · rw [if_pos ⟨hmax, htarget, htarget⟩]
  · rw [if_neg (fun h => htarget h.2.1), if_pos ⟨hmax, rfl⟩, skipPast, hfound₂, hnot₂,
      if_pos ⟨hmax, rfl, rfl⟩]

/-- Elsewhere it reports what the positive part has found. -/
theorem skipPast_eq_found {t : ℕ} (h : ¬((skipTo t s.positive).1 ≠ maxDocId ∧
      (skipTo t s.positive).1 = (skipTo t s.notDocIterator).1)) :
    (s.skipPast t).1 = (skipTo t s.positive).1 := by
  rw [skipPast, if_neg, if_neg]
  · rfl
  · exact h
  · rintro ⟨hmax, hfound, hnot⟩
    exact h ⟨hmax, hfound.trans hnot.symm⟩

/-- The first document of the positive part from the target on is not excluded; or the
exclusions come to it first, and all others are excluded as well. -/
def FirstDecides (P N R : Set ℕ) (t : ℕ) : Prop :=
  ∀ p, IsLeast {x ∈ P | t ≤ x} p →
    p ∉ N ∨ (IsLeast {x ∈ R | t ≤ x} p ∧ ∀ x ∈ P, t ≤ x → x ∈ N)

section

variable {t : ℕ} (h : OnTrack P N s) (hP : {x ∈ rest s.positive | t ≤ x} = {x ∈ P | t ≤ x})
include h hP

/-- When a skip past the exclusions reports the right document. -/
theorem skipPast_first_iff : FirstFrom (P \ N) maxDocId t (s.skipPast t).1 ↔
      FirstDecides P N (rest s.notDocIterator) t := by
  have hpos := (firstFrom_congr hP).mp (first_skipTo t s.positive)
  have hnot := first_skipTo t s.notDocIterator
  by_cases hmax : (skipTo t s.positive).1 = maxDocId
  · -- nothing from the target on
    rw [hmax] at hpos
    rw [skipPast_eq_found (fun h => h.1 hmax), hmax, FirstFrom]
    refine iff_of_true (fun x hx => hpos.below x hx.1) fun p hp => ?_
    exact absurd (hpos.below p hp.1.1) (not_lt.mpr hp.1.2)
  have hleast := hpos.isLeast hmax
  have hdecides : FirstDecides P N (rest s.notDocIterator) t ↔
      (skipTo t s.positive).1 ∉ N ∨
        (IsLeast {x ∈ rest s.notDocIterator | t ≤ x} (skipTo t s.positive).1 ∧
          ∀ x ∈ P, t ≤ x → x ∈ N) := by
    constructor
    · exact fun hfirst => hfirst _ hleast
    · intro hfirst p hp
      rwa [hp.unique hleast]
  rw [hdecides]
  by_cases heq : (skipTo t s.notDocIterator).1 =
      (skipTo t s.positive).1
  · -- both parts come to one document: the skip gives up
    rw [heq] at hnot
    have hexcluded := hnot.isLeast hmax
    rw [skipPast_eq_max hmax rfl heq, FirstFrom]
    constructor
    · intro hbelow
      refine .inr ⟨hexcluded, fun x hx ht => ?_⟩
      by_contra hN
      exact absurd (hbelow x ⟨hx, hN⟩) (not_lt.mpr ht)
    · rintro (hN | ⟨-, hall⟩) x ⟨hx, hxN⟩
      · exact absurd (h.excluded hexcluded.1.1) hN
      · by_contra ht
        exact hxN (hall x hx (not_lt.mp ht))
  · -- the skip reports what the positive part has found
    rw [skipPast_eq_found (fun h => heq h.2.symm), FirstFrom, if_neg hmax]
    constructor
    · exact fun hanswer => .inl hanswer.1.1.2
    · rintro (hN | ⟨hexcluded, -⟩)
      · exact ⟨⟨⟨hleast.1.1, hN⟩, hleast.1.2⟩, fun x hx => hleast.2 ⟨hx.1.1, hx.2⟩⟩
      · refine absurd ?_ heq
        by_cases hend : (skipTo t s.notDocIterator).1 = maxDocId
        · rw [hend] at hnot
          exact absurd (hnot.below _ hexcluded.1.1) (not_lt.mpr hexcluded.1.2)
        · exact (hnot.isLeast hend).unique hexcluded

theorem skipTo_first_iff : FirstFrom (P \ N) maxDocId t (s.skipTo t).1 ↔
      FirstDecides P N (rest s.notDocIterator) t := by
  unfold NotQuery.skipTo
  split
  · exact skipPast_first_iff h hP
  · rename_i hhasNot
    rw [h.hasNot (Bool.not_eq_true _ ▸ hhasNot), Set.sdiff_empty]
    refine iff_of_true ((firstFrom_congr hP).mp (first_skipTo t s.positive)) ?_
    exact fun p _ => .inl (Set.notMem_empty p)

end

end Skip

end AdDelivery.SearchManager
