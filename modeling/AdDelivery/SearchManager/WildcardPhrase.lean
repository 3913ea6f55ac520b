import AdDelivery.Core.Cursor
import AdDelivery.Core.Succession
import Mathlib.Algebra.Order.Ring.Nat

/-!
# Phrases with wildcards

A question mark stands for one position between two terms, and an asterisk for any number of
them. The terms between two asterisks are a segment, at fixed distances from its first term. The
matcher takes the leftmost place of each segment behind the one before and never comes back to a
segment, since a place further to the right leaves less to the segments behind.
-/

namespace AdDelivery.SearchManager

open List

/-- A phrase with the places of its wildcards: each is the index of the term behind it. -/
structure WildcardPhraseDocumentIterator where
  asteriskPositions : List ℕ
  questionMarkPositions : List ℕ

namespace WildcardPhraseDocumentIterator

/-- A term behind the first one: whether an asterisk stands before it, how many question marks
do, and what is left of its positions from its cursor on. -/
structure PhraseTerm where
  asterisk : Bool
  questionMarks : ℕ
  offsets : List ℕ

/-- What a round of the matcher comes to: it may have found the end of a segment, and goes on
with the term behind the asterisk. -/
inductive Round
  | matched
  | ended
  | next (terms : List PhraseTerm)
  | segment (offsets : List ℕ) (terms : List PhraseTerm)

/-- The terms behind the first one of a segment. -/
def checkTerms (start : ℕ) : ℕ → List PhraseTerm → Round
  | _, [] => .matched
  | offset, term :: terms =>
    match term.offsets.dropWhile (· < start + (offset + term.questionMarks)) with
    | [] => .ended
    | q :: offsets =>
      if term.asterisk then .segment (q :: offsets) terms
      else if q = start + (offset + term.questionMarks) then
        match checkTerms start (offset + term.questionMarks + 1) terms with
        | .matched => .matched
        | .ended => .ended
        | .next terms => .next ({ term with offsets := q :: offsets } :: terms)
        | .segment offsets terms => .segment offsets terms
      else .next ({ term with offsets := q :: offsets } :: terms)

/-- A round keeps the terms of its segment, or leaves them behind. -/
def Round.Shrinks (n : ℕ) : Round → Prop
  | .matched => True
  | .ended => True
  | .next terms => terms.length = n
  | .segment _ terms => terms.length < n

theorem shrinks_checkTerms (start offset : ℕ) (terms : List PhraseTerm) :
    (checkTerms start offset terms).Shrinks terms.length := by
  induction terms generalizing offset with
  | nil => trivial
  | cons term terms ih =>
    rw [checkTerms]
    cases term.offsets.dropWhile (· < start + (offset + term.questionMarks)) with
    | nil => trivial
    | cons q offsets =>
      dsimp only
      split
      · exact Nat.lt_succ_self _
      · split
        · have hrest := ih (offset + term.questionMarks + 1)
          cases hround : checkTerms start (offset + term.questionMarks + 1) terms with
          | matched => trivial
          | ended => trivial
          | next terms' =>
            rw [hround] at hrest
            exact congrArg Nat.succ hrest
          | segment offsets' terms' =>
            rw [hround] at hrest
            exact Nat.lt_succ_of_lt hrest
        · rfl

/-- One round for each position of the first term of a segment. -/
def search (offsets : List ℕ) (terms : List PhraseTerm) : Bool :=
  match offsets with
  | [] => false
  | start :: offsets =>
    match _hround : checkTerms start 1 terms with
    | .matched => true
    | .ended => false
    | .next terms' => search offsets terms'
    | .segment offsets' terms' => search offsets' terms'
termination_by (terms.length, offsets.length)
decreasing_by
  · have hshrinks := shrinks_checkTerms start 1 terms
    rw [_hround] at hshrinks
    rw [show terms'.length = terms.length from hshrinks]
    exact Prod.Lex.right _ (Nat.lt_succ_self _)
  · have hshrinks := shrinks_checkTerms start 1 terms
    rw [_hround] at hshrinks
    exact Prod.Lex.left _ _ hshrinks

variable (it : WildcardPhraseDocumentIterator)

def asteriskMask (i : ℕ) : Bool := i ∈ it.asteriskPositions

def questionMarkCount (i : ℕ) : ℕ :=
  it.questionMarkPositions.count i

def isQualified : List (List ℕ) → Bool
  | [] => false
  | offsets :: terms =>
    search offsets (terms.mapIdx fun i offsets =>
      ⟨it.asteriskMask (i + 1), it.questionMarkCount (i + 1), offsets⟩)

/-- The distance that the wildcards before the next term allow. -/
def Spaced (i p q : ℕ) : Prop :=
  if it.asteriskMask (i + 1) then p + 1 + it.questionMarkCount (i + 1) ≤ q
  else q = p + 1 + it.questionMarkCount (i + 1)

/-- The terms can be found from `place` on. -/
def Follows : List PhraseTerm → ℕ → Prop
  | [], _ => True
  | term :: terms, place =>
    ∃ q ∈ term.offsets, (if term.asterisk then place + term.questionMarks ≤ q
      else q = place + term.questionMarks) ∧ Follows terms (q + 1)

/-- The cursors have passed no position that matters from `place` on. -/
def CaughtUp : ℕ → List PhraseTerm → List PhraseTerm → Prop
  | _, [], [] => True
  | place, cursor :: cursors, term :: terms =>
    cursor = { term with offsets := cursor.offsets } ∧
      cursor.offsets.dropWhile (· < place + term.questionMarks) =
        term.offsets.dropWhile (· < place + term.questionMarks) ∧
      CaughtUp (place + term.questionMarks + 1) cursors terms
  | _, _, _ => False

theorem caughtUp_refl (place : ℕ) (terms : List PhraseTerm) : CaughtUp place terms terms := by
  induction terms generalizing place with
  | nil => trivial
  | cons term terms ih => exact ⟨rfl, rfl, ih _⟩

variable {cursors terms : List PhraseTerm}

theorem CaughtUp.mono {place place' : ℕ} (h : CaughtUp place cursors terms) (hle : place ≤ place') :
    CaughtUp place' cursors terms := by
  induction terms generalizing cursors place place' with
  | nil =>
    cases cursors with
    | nil => trivial
    | cons cursor cursors => exact h.elim
  | cons term terms ih =>
    cases cursors with
    | nil => exact h.elim
    | cons cursor cursors =>
      obtain ⟨hcursor, hdrop, hrest⟩ := h
      have hle' : place + term.questionMarks ≤ place' + term.questionMarks := by omega
      refine ⟨hcursor, ?_, ih hrest (Nat.succ_le_succ hle')⟩
      rw [← dropWhile_dropWhile_lt _ hle', hdrop, dropWhile_dropWhile_lt _ hle']

/-- What a round says about the whole lists of positions. The end of a segment serves every later
place of the segment as well. -/
def Round.Tells (terms : List PhraseTerm) (place : ℕ) : Round → Prop
  | .matched => Follows terms place
  | .ended => ∀ place', place ≤ place' → ¬Follows terms place'
  | .next cursors => ¬Follows terms place ∧ CaughtUp place cursors terms
  | .segment starts cursors => ∃ others, others <:+ terms ∧ starts.Pairwise (· < ·) ∧
      (∀ start ∈ starts, CaughtUp (start + 1) cursors others) ∧
      ((∃ start ∈ starts, Follows others (start + 1)) → Follows terms place) ∧
      ∀ place', place ≤ place' → Follows terms place' →
        ∃ start ∈ starts, Follows others (start + 1)

section Term

variable {term : PhraseTerm} {terms cursors : List PhraseTerm} {place : ℕ}

/-- Without an asterisk the term has one place. -/
theorem follows_cons_iff (hterm : ¬term.asterisk = true) :
    Follows (term :: terms) place ↔ place + term.questionMarks ∈ term.offsets ∧
      Follows terms (place + term.questionMarks + 1) := by
  constructor
  · rintro ⟨q, hq, hfits, hrest⟩
    rw [if_neg hterm] at hfits
    subst hfits
    exact ⟨hq, hrest⟩
  · rintro ⟨hq, hrest⟩
    exact ⟨_, hq, if_neg hterm ▸ rfl, hrest⟩

/-- A term without a position left is not found any more. -/
theorem not_follows_of_passed
    (h : term.offsets.dropWhile (· < place + term.questionMarks) = []) {place' : ℕ}
    (hle : place ≤ place') : ¬Follows (term :: terms) place' := by
  rw [dropWhile_lt_eq_nil] at h
  rintro ⟨q, hq, hfits, -⟩
  have hlt := h q hq
  split at hfits <;> omega

/-- The cursor of a term may be put to the first position that matters. -/
theorem CaughtUp.cons (hrest : CaughtUp (place + term.questionMarks + 1) cursors terms) :
    CaughtUp place
      ({ term with offsets := term.offsets.dropWhile (· < place + term.questionMarks) } :: cursors)
      (term :: terms) :=
  ⟨rfl, dropWhile_dropWhile_lt _ le_rfl, hrest⟩

/-- Behind an asterisk every position left begins the next segment. -/
theorem tells_segment (hterm : term.asterisk = true) (hoffsets : term.offsets.Pairwise (· < ·))
    (hrest : CaughtUp (place + term.questionMarks + 1) cursors terms) :
    (Round.segment (term.offsets.dropWhile (· < place + term.questionMarks)) cursors).Tells
      (term :: terms) place := by
  have hmem := mem_dropWhile_lt hoffsets (place + term.questionMarks)
  refine ⟨terms, suffix_cons term terms, hoffsets.sublist (dropWhile_sublist _),
    fun s hs => hrest.mono (Nat.succ_le_succ ((hmem s).mp hs).2), ?_, ?_⟩
  · rintro ⟨s, hs, hfollows⟩
    refine ⟨s, ((hmem s).mp hs).1, ?_, hfollows⟩
    rw [if_pos hterm]
    exact ((hmem s).mp hs).2
  · rintro place' hle ⟨s, hs, hfits, hfollows⟩
    rw [if_pos hterm] at hfits
    exact ⟨s, (hmem s).mpr ⟨hs, by omega⟩, hfollows⟩

end Term

theorem tells_checkTerms {start offset : ℕ} (hinc : ∀ term ∈ terms, term.offsets.Pairwise (· < ·))
    (h : CaughtUp (start + offset) cursors terms) :
    (checkTerms start offset cursors).Tells terms (start + offset) := by
  induction terms generalizing offset cursors with
  | nil =>
    cases cursors with
    | nil => trivial
    | cons cursor cursors => exact h.elim
  | cons term terms ih =>
    cases cursors with
    | nil => exact h.elim
    | cons cursor cursors =>
      obtain ⟨hcursor, hdrop, hrest⟩ := h
      obtain ⟨hoffsets, hterms⟩ := forall_mem_cons.mp hinc
      obtain ⟨asterisk, questionMarks, left⟩ := cursor
      obtain ⟨rfl, rfl⟩ : asterisk = term.asterisk ∧ questionMarks = term.questionMarks := by
        simpa using hcursor
      rw [checkTerms, ← Nat.add_assoc]
      rw [hdrop]
      cases hleft : term.offsets.dropWhile (· < start + offset + term.questionMarks) with
      | nil => exact fun place' hle => not_follows_of_passed hleft hle
      | cons q offsets =>
        have hq := isLeast_of_dropWhile_lt hoffsets hleft
        dsimp only
        rw [← hleft]
        split
        · exact tells_segment ‹_› hoffsets hrest
        · rename_i hterm
          split
          · rename_i hexact
            have hnext : start + (offset + term.questionMarks + 1) =
                start + offset + term.questionMarks + 1 := by omega
            have hplace : start + offset + term.questionMarks ∈ term.offsets := hexact ▸ hq.1.1
            have htells := ih hterms (hnext ▸ hrest)
            rw [hnext] at htells
            cases hround : checkTerms start (offset + term.questionMarks + 1) cursors with
            | matched =>
              rw [hround] at htells
              exact (follows_cons_iff hterm).mpr ⟨hplace, htells⟩
            | ended =>
              rw [hround] at htells
              intro place' hle hplace'
              exact htells _ (by omega) ((follows_cons_iff hterm).mp hplace').2
            | next cursors' =>
              rw [hround] at htells
              exact ⟨fun hplace' => htells.1 ((follows_cons_iff hterm).mp hplace').2, htells.2.cons⟩
            | segment starts' cursors' =>
              rw [hround] at htells
              obtain ⟨others, hsuffix, hstarts, hcaught, hfound, hlater⟩ := htells
              refine ⟨others, hsuffix.trans (suffix_cons term terms), hstarts, hcaught,
                fun hothers => (follows_cons_iff hterm).mpr ⟨hplace, hfound hothers⟩, ?_⟩
              intro place' hle hplace'
              exact hlater _ (by omega) ((follows_cons_iff hterm).mp hplace').2
          · rename_i hexact
            refine ⟨fun hplace' => hexact ?_, hrest.cons⟩
            have hmem := ((follows_cons_iff hterm).mp hplace').1
            exact (hq.2 ⟨hmem, le_rfl⟩).antisymm hq.1.2

theorem search_iff {starts : List ℕ} (hinc : ∀ term ∈ terms, term.offsets.Pairwise (· < ·))
    (hstarts : starts.Pairwise (· < ·)) (h : ∀ start ∈ starts, CaughtUp (start + 1) cursors terms) :
    search starts cursors = true ↔ ∃ start ∈ starts, Follows terms (start + 1) := by
  fun_induction search starts cursors generalizing terms with
  | case1 cursors => simp
  | case2 cursors start starts hround =>
    have htells := tells_checkTerms hinc (h start mem_cons_self)
    rw [hround] at htells
    exact iff_of_true rfl ⟨start, mem_cons_self, htells⟩
  | case3 cursors start starts hround =>
    have htells := tells_checkTerms hinc (h start mem_cons_self)
    rw [hround] at htells
    refine iff_of_false Bool.false_ne_true ?_
    rintro ⟨start', hstart', hfollows⟩
    refine htells (start' + 1) (Nat.succ_le_succ ?_) hfollows
    exact (isLeast_cons hstarts).2 hstart'
  | case4 cursors start starts cursors' hround ih =>
    have htells := tells_checkTerms hinc (h start mem_cons_self)
    rw [hround] at htells
    obtain ⟨hnone, hcaught⟩ := htells
    obtain ⟨hlt, hstarts⟩ := pairwise_cons.mp hstarts
    rw [ih hinc hstarts fun start' hstart' =>
      hcaught.mono (Nat.succ_le_succ (hlt start' hstart').le), exists_mem_cons_iff]
    exact (or_iff_right hnone).symm
  | case5 cursors start starts starts' cursors' hround ih =>
    have htells := tells_checkTerms hinc (h start mem_cons_self)
    rw [hround] at htells
    obtain ⟨others, hsuffix, hstarts', hcaught, hfound, hlater⟩ := htells
    rw [ih (fun term hterm => hinc term (hsuffix.subset hterm)) hstarts' hcaught]
    constructor
    · exact fun hothers => ⟨start, mem_cons_self, hfound hothers⟩
    · rintro ⟨start', hstart', hfollows⟩
      refine hlater (start' + 1) (Nat.succ_le_succ ?_) hfollows
      exact (isLeast_cons hstarts).2 hstart'

theorem follows_iff (mask : ℕ → Bool) (count : ℕ → ℕ) (terms : List (List ℕ)) (p : ℕ) :
    Follows (terms.mapIdx fun i offsets => ⟨mask i, count i, offsets⟩) (p + 1) ↔
      Continues terms (fun i p q => if mask i then p + 1 + count i ≤ q else q = p + 1 + count i)
        p := by
  induction terms generalizing mask count p with
  | nil => exact Iff.rfl
  | cons offsets terms ih =>
    rw [mapIdx_cons]
    refine exists_congr fun q => and_congr_right fun _ => and_congr_right fun _ => ?_
    exact ih (fun i => mask (i + 1)) (fun i => count (i + 1)) q

/-- A match is found exactly when there is one. -/
theorem isQualified_iff_spaced (it : WildcardPhraseDocumentIterator) {offsets : List (List ℕ)}
    (hne : offsets ≠ []) (hinc : ∀ positions ∈ offsets, positions.Pairwise (· < ·)) :
    it.isQualified offsets = true ↔ HasSuccession it.Spaced offsets := by
  obtain ⟨first, terms, rfl⟩ := exists_cons_of_ne_nil hne
  obtain ⟨hfirst, hterms⟩ := forall_mem_cons.mp hinc
  rw [isQualified, search_iff ?sorted hfirst fun start _ => caughtUp_refl _ _, hasSuccession_cons]
  case sorted =>
    intro term hterm
    obtain ⟨i, hi, rfl⟩ := mem_mapIdx.mp hterm
    exact hterms _ (getElem_mem hi)
  refine exists_congr fun start => and_congr_right fun _ => ?_
  exact follows_iff (fun i => it.asteriskMask (i + 1)) (fun i => it.questionMarkCount (i + 1))
    terms start

/-- `A?B*C`: the first place of `A?B` fails, the second one leaves a `C` behind it. -/
theorem isQualified_iff_segments :
    (⟨[2], [1]⟩ : WildcardPhraseDocumentIterator).isQualified [[1, 4], [2, 6], [3, 9]] = true ↔
      HasSuccession (⟨[2], [1]⟩ : WildcardPhraseDocumentIterator).Spaced [[1, 4], [2, 6], [3, 9]] :=
  isQualified_iff_spaced _ (cons_ne_nil _ _) (by decide)

end WildcardPhraseDocumentIterator

end AdDelivery.SearchManager
