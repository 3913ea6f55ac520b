import AdDelivery.Core.Cursor
import AdDelivery.Core.Succession
import Mathlib.Algebra.Group.Nat.Defs

/-!
# Nearby phrases

A document qualifies for a nearby phrase if its terms can be found in order, each within a range
of the one before. The matcher searches depth first, but the terms share one cursor each that a
branch which fails leaves where it came to. What the cursors have passed then is below every
position that can still be asked for, or it has no continuation.
-/

namespace AdDelivery.SearchManager.NearbyPhraseDocumentIterator

open List

/-- The second loop of `findMatch`: the occurrences up to a bound are tried in turn. Each list is
what is left of the positions of a term from its cursor on. -/
def tryEach (findNext : ℕ → List (List ℕ) → Bool × List (List ℕ)) (bound : ℕ) :
    List ℕ → List (List ℕ) → Bool × List (List ℕ)
  | [], terms => (false, [] :: terms)
  | q :: offsets, terms =>
    if q ≤ bound then
      match findNext q terms with
      | (true, terms) => (true, (q :: offsets) :: terms)
      | (false, terms) => tryEach findNext bound offsets terms
    else (false, (q :: offsets) :: terms)

/-- The first argument counts the terms from this one on. -/
def findMatch (range : ℕ) : ℕ → ℕ → List (List ℕ) → Bool × List (List ℕ)
  | 0, _, terms => (true, terms)
  | _ + 1, _, [] => (false, [])
  | n + 1, off, offsets :: terms =>
    tryEach (findMatch range n) ((off + range) % 2 ^ 32) (offsets.dropWhile (· < off)) terms

/-- The loop over the occurrences of the first term. -/
def search (range n : ℕ) : List ℕ → List (List ℕ) → Bool
  | [], _ => false
  | off :: offsets, terms =>
    match findMatch range n off terms with
    | (true, _) => true
    | (false, terms) => search range n offsets terms

def isQualified (range : ℕ) : List (List ℕ) → Bool
  | [] => false
  | offsets :: terms => search range terms.length offsets terms

def Within (range : ℕ) (_ p q : ℕ) : Prop := p ≤ q ∧ q ≤ p + range

/-- From `off` on, the cursors have passed only positions without a continuation. -/
def NothingLost (range : ℕ) : ℕ → List (List ℕ) → List (List ℕ) → Prop
  | _, [], [] => True
  | off, cursor :: cursors, offsets :: terms =>
    cursor.Sublist offsets ∧
      (∀ q ∈ offsets, off ≤ q → q ∉ cursor → ¬Continues terms (Within range) q) ∧
      ∀ q ∈ cursor, NothingLost range q cursors terms
  | _, _, _ => False

variable {range off : ℕ} {cursors terms : List (List ℕ)}

theorem nothingLost_refl (range off : ℕ) (terms : List (List ℕ)) :
    NothingLost range off terms terms := by
  induction terms generalizing off with
  | nil => trivial
  | cons offsets terms ih =>
    exact ⟨Sublist.refl offsets, fun q hq _ hpassed => absurd hq hpassed, fun q _ => ih q⟩

theorem NothingLost.mono {off' : ℕ} (h : NothingLost range off cursors terms) (hle : off ≤ off') :
    NothingLost range off' cursors terms := by
  cases cursors with
  | nil =>
    cases terms with
    | nil => trivial
    | cons offsets terms => exact h.elim
  | cons cursor cursors =>
    cases terms with
    | nil => exact h.elim
    | cons offsets terms =>
      obtain ⟨hsub, hpassed, hrest⟩ := h
      exact ⟨hsub, fun q hq hoff => hpassed q hq (hle.trans hoff), hrest⟩

/-- What a search over the terms says: the first position has a continuation, or it has none and
nothing is lost. -/
def Finds (range off : ℕ) (terms : List (List ℕ)) (found : Bool × List (List ℕ)) : Prop :=
  (found.1 = true ∧ Continues terms (Within range) off) ∨
    (found.1 = false ∧ ¬Continues terms (Within range) off ∧ NothingLost range off found.2 terms)

theorem finds_tryEach {findNext : ℕ → List (List ℕ) → Bool × List (List ℕ)} {offsets : List ℕ}
    (hnext : ∀ q ∈ offsets, ∀ cursors, NothingLost range q cursors terms →
      Finds range q terms (findNext q cursors)) {cursor : List ℕ}
    (hinc : cursor.Pairwise (· < ·)) (hoff : ∀ q ∈ cursor, off ≤ q)
    (h : NothingLost range off (cursor :: cursors) (offsets :: terms)) :
    Finds range off (offsets :: terms) (tryEach findNext (off + range) cursor cursors) := by
  induction cursor generalizing cursors with
  | nil =>
    refine .inr ⟨rfl, ?_, h⟩
    rintro ⟨q, hq, ⟨hle, -⟩, hcontinues⟩
    exact h.2.1 q hq hle not_mem_nil hcontinues
  | cons q cursor ih =>
    obtain ⟨hsub, hpassed, hrest⟩ := h
    obtain ⟨hlt, hinc⟩ := pairwise_cons.mp hinc
    have hq : q ∈ offsets := hsub.subset mem_cons_self
    rw [tryEach]
    split
    · rename_i hbound
      obtain ⟨htrue, hcontinues⟩ | ⟨hfalse, hnone, hlost⟩ :=
        hnext q hq cursors (hrest q mem_cons_self)
      · rw [show findNext q cursors = (true, (findNext q cursors).2) from Prod.ext htrue rfl]
        exact .inl ⟨rfl, q, hq, ⟨hoff q mem_cons_self, hbound⟩, hcontinues⟩
      · rw [show findNext q cursors = (false, (findNext q cursors).2) from Prod.ext hfalse rfl]
        refine ih hinc (fun x hx => hoff x (mem_cons_of_mem q hx))
          ⟨(sublist_cons_self q cursor).trans hsub, fun x hx hle hx' => ?_, fun x hx => ?_⟩
        · by_cases hxq : x = q
          · rw [hxq]
            exact hnone
          · refine hpassed x hx hle fun hmem => ?_
            exact hx' ((mem_cons.mp hmem).resolve_left hxq)
        · exact hlost.mono (hlt x hx).le
    · rename_i hbound
      refine .inr ⟨rfl, ?_, hsub, hpassed, hrest⟩
      rintro ⟨x, hx, ⟨hle, hx'⟩, hcontinues⟩
      refine hpassed x hx hle (fun hmem => ?_) hcontinues
      rcases mem_cons.mp hmem with rfl | hmem
      · exact hbound hx'
      · exact hbound ((hlt x hmem).le.trans hx')

section

variable (hinc : ∀ offsets ∈ terms, offsets.Pairwise (· < ·))
    (hfit : ∀ offsets ∈ terms, ∀ p ∈ offsets, p + range < 2 ^ 32)
include hinc hfit

theorem finds_findMatch (hoff : off + range < 2 ^ 32) (h : NothingLost range off cursors terms) :
    Finds range off terms (findMatch range terms.length off cursors) := by
  induction terms generalizing off cursors with
  | nil => exact .inl ⟨rfl, trivial⟩
  | cons offsets terms ih =>
    cases cursors with
    | nil => exact h.elim
    | cons cursor cursors =>
      obtain ⟨hsub, hpassed, hrest⟩ := h
      obtain ⟨hoffsets, hterms⟩ := forall_mem_cons.mp hinc
      obtain ⟨hfits, hfit⟩ := forall_mem_cons.mp hfit
      have hcursor : cursor.Pairwise (· < ·) := hoffsets.sublist hsub
      have hmem := mem_dropWhile_lt hcursor off
      have hdrop : (cursor.dropWhile (· < off)).Sublist cursor := dropWhile_sublist _
      rw [length_cons, findMatch, Nat.mod_eq_of_lt hoff]
      refine finds_tryEach (fun q hq cursors => ih hterms hfit (hfits q hq))
        (hcursor.sublist hdrop) (fun q hq => ((hmem q).mp hq).2)
        ⟨hdrop.trans hsub, fun q hq hle hq' => ?_, fun q hq => hrest q (hdrop.subset hq)⟩
      exact hpassed q hq hle fun hcur => hq' ((hmem q).mpr ⟨hcur, hle⟩)

theorem search_iff {starts : List ℕ} (hstarts : starts.Pairwise (· < ·))
    (hfits : ∀ p ∈ starts, p + range < 2 ^ 32)
    (h : ∀ off ∈ starts, NothingLost range off cursors terms) :
    search range terms.length starts cursors = true ↔
      ∃ off ∈ starts, Continues terms (Within range) off := by
  induction starts generalizing cursors with
  | nil => simp [search]
  | cons off starts ih =>
    obtain ⟨hlt, hstarts⟩ := pairwise_cons.mp hstarts
    obtain ⟨hoff, hrest⟩ := forall_mem_cons.mp h
    obtain ⟨hfitOff, hfits⟩ := forall_mem_cons.mp hfits
    rw [search]
    obtain ⟨htrue, hcontinues⟩ | ⟨hfalse, hnone, hlost⟩ :=
      finds_findMatch hinc hfit hfitOff hoff
    · rw [show findMatch range terms.length off cursors =
        (true, (findMatch range terms.length off cursors).2) from Prod.ext htrue rfl]
      exact iff_of_true rfl ⟨off, mem_cons_self, hcontinues⟩
    · rw [show findMatch range terms.length off cursors =
        (false, (findMatch range terms.length off cursors).2) from Prod.ext hfalse rfl]
      rw [ih hstarts hfits fun off' hoff' => hlost.mono (hlt off' hoff').le, exists_mem_cons_iff]
      exact (or_iff_right hnone).symm

end

/-- With the shared cursors a match is found exactly when there is one. -/
theorem isQualified_iff_within {offsets : List (List ℕ)} (hne : offsets ≠ [])
    (hinc : ∀ positions ∈ offsets, positions.Pairwise (· < ·))
    (hfit : ∀ positions ∈ offsets, ∀ p ∈ positions, p + range < 2 ^ 32) :
    isQualified range offsets = true ↔ HasSuccession (Within range) offsets := by
  obtain ⟨first, terms, rfl⟩ := exists_cons_of_ne_nil hne
  obtain ⟨hfirst, hterms⟩ := forall_mem_cons.mp hinc
  obtain ⟨hfits, hfit⟩ := forall_mem_cons.mp hfit
  rw [hasSuccession_cons]
  exact search_iff hterms hfit hfirst hfits fun off _ => nothingLost_refl range off terms

/-- The branch from position 1 fails, and takes the cursor of the second term with it. -/
theorem isQualified_iff_branches : isQualified 2 [[1, 4], [2, 5], [7]] = true ↔
      HasSuccession (Within 2) [[1, 4], [2, 5], [7]] :=
  isQualified_iff_within (cons_ne_nil _ _) (by decide) (by decide)

end AdDelivery.SearchManager.NearbyPhraseDocumentIterator
