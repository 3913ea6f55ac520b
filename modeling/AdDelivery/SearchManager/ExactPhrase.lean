import AdDelivery.Core.Cursor
import AdDelivery.Core.Succession
import Mathlib.Order.Lattice.Nat

/-!
# Exact phrases

A document qualifies for an exact phrase if its terms can be found at positions each of which
repeats the one before or is the next one. The matcher tries the positions of the first term in
turn, and takes for each later term the first position that is not below the one before. It never
goes back to the other position that was admissible, so it only finds the choices that repeat a
position wherever they can.
-/

namespace AdDelivery.SearchManager.ExactPhraseDocumentIterator

open List

/-- What a round of the matcher comes to. -/
inductive Round
  | matched
  | ended
  | next (offsets : List (List ℕ))

/-- The terms behind the first one. Each list is what is left of the positions of a term from its
cursor on; a term without a position left ends the search. -/
def checkTerms : ℕ → List (List ℕ) → Round
  | _, [] => .matched
  | start, offsets :: terms =>
    match offsets.dropWhile (· < start) with
    | [] => .ended
    | q :: offsets =>
      if start + 1 < q then .next ((q :: offsets) :: terms)
      else
        match checkTerms q terms with
        | .matched => .matched
        | .ended => .ended
        | .next terms => .next ((q :: offsets) :: terms)

/-- One round for each position of the first term. The cursors of the others stay where they are. -/
def search : List ℕ → List (List ℕ) → Bool
  | [], _ => false
  | start :: offsets, terms =>
    match checkTerms start terms with
    | .matched => true
    | .ended => false
    | .next terms => search offsets terms

def isQualified : List (List ℕ) → Bool
  | [] => false
  | offsets :: terms =>
    if (offsets :: terms).any isEmpty then false else search offsets terms

/-- The adjacency rule. -/
def Adjacent (p q : ℕ) : Prop := p ≤ q ∧ q ≤ p + 1

/-- From `start` on, the first position of each term that is not below the one before is
adjacent to it. -/
def MatchesFrom : List (List ℕ) → ℕ → Prop
  | [], _ => True
  | offsets :: terms, start =>
    ∃ q, IsLeast {x ∈ offsets | start ≤ x} q ∧ q ≤ start + 1 ∧ MatchesFrom terms q

/-- The cursors have passed no position that matters from `start` on. -/
def CaughtUp : ℕ → List (List ℕ) → List (List ℕ) → Prop
  | _, [], [] => True
  | start, cursor :: cursors, offsets :: terms =>
    cursor.dropWhile (· < start) = offsets.dropWhile (· < start) ∧
      ∀ q, IsLeast {x ∈ offsets | start ≤ x} q → CaughtUp q cursors terms
  | _, _, _ => False

theorem caughtUp_refl (start : ℕ) (terms : List (List ℕ)) : CaughtUp start terms terms := by
  induction terms generalizing start with
  | nil => trivial
  | cons offsets terms ih => exact ⟨rfl, fun q _ => ih q⟩

variable {offsets : List ℕ}

theorem isLeast_mono {start start' q q' : ℕ} (hle : start ≤ start')
    (hq : IsLeast {x ∈ offsets | start ≤ x} q) (hq' : IsLeast {x ∈ offsets | start' ≤ x} q') :
    q ≤ q' :=
  hq.2 ⟨hq'.1.1, hle.trans hq'.1.2⟩

/-- A later start finds what an earlier one finds, or something behind it. -/
theorem exists_isLeast_of_le {start start' q' : ℕ} (hle : start ≤ start')
    (hq' : IsLeast {x ∈ offsets | start' ≤ x} q') : ∃ q, IsLeast {x ∈ offsets | start ≤ x} q :=
  ⟨_, Nat.sInf_mem ⟨q', hq'.1.1, hle.trans hq'.1.2⟩, fun _ hx => Nat.sInf_le hx⟩

variable {cursors terms : List (List ℕ)}

theorem CaughtUp.mono {start start' : ℕ} (h : CaughtUp start cursors terms) (hle : start ≤ start') :
    CaughtUp start' cursors terms := by
  induction terms generalizing cursors start start' with
  | nil =>
    cases cursors with
    | nil => trivial
    | cons cursor cursors => exact h.elim
  | cons offsets terms ih =>
    cases cursors with
    | nil => exact h.elim
    | cons cursor cursors =>
      obtain ⟨hdrop, hrest⟩ := h
      refine ⟨?_, fun q' hq' => ?_⟩
      · rw [← dropWhile_dropWhile_lt cursor hle, hdrop, dropWhile_dropWhile_lt offsets hle]
      · obtain ⟨q, hq⟩ := exists_isLeast_of_le hle hq'
        exact ih (hrest q hq) (isLeast_mono hle hq hq')

/-- What a round says about the whole lists of positions. -/
def Round.Tells (terms : List (List ℕ)) (start : ℕ) : Round → Prop
  | .matched => MatchesFrom terms start
  | .ended => ∀ start', start ≤ start' → ¬MatchesFrom terms start'
  | .next cursors => ¬MatchesFrom terms start ∧ CaughtUp start cursors terms

theorem tells_checkTerms {start : ℕ} (hinc : ∀ offsets ∈ terms, offsets.Pairwise (· < ·))
    (h : CaughtUp start cursors terms) : (checkTerms start cursors).Tells terms start := by
  induction terms generalizing start cursors with
  | nil =>
    cases cursors with
    | nil => trivial
    | cons cursor cursors => exact h.elim
  | cons offsets terms ih =>
    cases cursors with
    | nil => exact h.elim
    | cons cursor cursors =>
      obtain ⟨hdrop, hrest⟩ := h
      obtain ⟨hoffsets, hterms⟩ := forall_mem_cons.mp hinc
      rw [checkTerms]
      cases hcursor : cursor.dropWhile (· < start) with
      | nil =>
        rw [hdrop, dropWhile_lt_eq_nil] at hcursor
        rintro start' hle ⟨q, ⟨⟨hq, hstart⟩, -⟩, -⟩
        exact absurd (hcursor q hq) (not_lt.mpr (hle.trans hstart))
      | cons q rest =>
        have hq := isLeast_of_dropWhile_lt hoffsets (hdrop ▸ hcursor)
        have hcaught : CaughtUp start ((q :: rest) :: cursors) (offsets :: terms) := by
          refine ⟨?_, hrest⟩
          rw [← hcursor, dropWhile_dropWhile_lt cursor le_rfl, hdrop]
        dsimp only
        split
        · rename_i hfar
          refine ⟨?_, hcaught⟩
          rintro ⟨q', hq', hnear, -⟩
          rw [hq'.unique hq] at hnear
          exact absurd hnear (not_le.mpr hfar)
        · rename_i hnear
          have htells := ih hterms (hrest q hq)
          cases hround : checkTerms q cursors with
          | matched =>
            rw [hround] at htells
            exact ⟨q, hq, not_lt.mp hnear, htells⟩
          | ended =>
            rw [hround] at htells
            rintro start' hle ⟨q', hq', -, hmatches⟩
            exact htells q' (isLeast_mono hle hq hq') hmatches
          | next cursors' =>
            rw [hround] at htells
            obtain ⟨hmatches, hcaught'⟩ := htells
            refine ⟨?_, hcaught.1, fun q' hq' => ?_⟩
            · rintro ⟨q', hq', -, hmatches'⟩
              rw [hq'.unique hq] at hmatches'
              exact hmatches hmatches'
            · rw [hq'.unique hq]
              exact hcaught'

theorem search_iff {terms : List (List ℕ)} (hinc : ∀ offsets ∈ terms, offsets.Pairwise (· < ·))
    {starts : List ℕ} (hstarts : starts.Pairwise (· < ·)) {cursors : List (List ℕ)}
    (h : ∀ start ∈ starts, CaughtUp start cursors terms) :
    search starts cursors = true ↔ ∃ start ∈ starts, MatchesFrom terms start := by
  induction starts generalizing cursors with
  | nil => simp [search]
  | cons start starts ih =>
    obtain ⟨hlt, hstarts⟩ := pairwise_cons.mp hstarts
    obtain ⟨hstart, hrest⟩ := forall_mem_cons.mp h
    have htells := tells_checkTerms hinc hstart
    rw [search]
    cases hround : checkTerms start cursors with
    | matched =>
      rw [hround] at htells
      exact iff_of_true rfl ⟨start, mem_cons_self, htells⟩
    | ended =>
      rw [hround] at htells
      refine iff_of_false Bool.false_ne_true ?_
      rintro ⟨start', hstart', hmatches⟩
      rcases mem_cons.mp hstart' with rfl | hstart'
      · exact htells start' le_rfl hmatches
      · exact htells start' (hlt start' hstart').le hmatches
    | next cursors' =>
      rw [hround] at htells
      obtain ⟨hmatches, hcaught⟩ := htells
      rw [ih hstarts fun start' hstart' => hcaught.mono (hlt start' hstart').le,
        exists_mem_cons_iff]
      exact (or_iff_right hmatches).symm

/-- Of the two adjacent positions, the one that repeats `p` is taken if the term has it. -/
def Leftmost (offsets : List (List ℕ)) (i p q : ℕ) : Prop :=
  Adjacent p q ∧ (p ∈ offsets.getD (i + 1) [] → q = p)

theorem isLeast_adjacent_iff {p q : ℕ} : (IsLeast {x ∈ offsets | p ≤ x} q ∧ q ≤ p + 1) ↔
      q ∈ offsets ∧ Adjacent p q ∧ (p ∈ offsets → q = p) := by
  constructor
  · rintro ⟨⟨⟨hq, hle⟩, hleast⟩, hnear⟩
    exact ⟨hq, ⟨hle, hnear⟩, fun hp => le_antisymm (hleast ⟨hp, le_rfl⟩) hle⟩
  · rintro ⟨hq, ⟨hle, hnear⟩, hrepeat⟩
    refine ⟨⟨⟨hq, hle⟩, fun x hx => ?_⟩, hnear⟩
    rcases hx.2.eq_or_lt with rfl | hlt
    · exact (hrepeat hx.1).le
    · exact hnear.trans hlt

theorem matchesFrom_iff (terms : List (List ℕ)) (offsets : List ℕ) (start : ℕ) :
    MatchesFrom terms start ↔ Continues terms (Leftmost (offsets :: terms)) start := by
  induction terms generalizing offsets start with
  | nil => exact Iff.rfl
  | cons next terms ih =>
    refine exists_congr fun q => ?_
    rw [← and_assoc, isLeast_adjacent_iff, ih next, and_assoc]
    rfl

/-- The matcher finds the choices that repeat a position wherever they can. -/
theorem isQualified_iff_leftmost {offsets : List (List ℕ)} (hne : offsets ≠ [])
    (hnonempty : ∀ positions ∈ offsets, positions ≠ [])
    (hinc : ∀ positions ∈ offsets, positions.Pairwise (· < ·)) :
    isQualified offsets = true ↔ HasSuccession (Leftmost offsets) offsets := by
  obtain ⟨first, terms, rfl⟩ := exists_cons_of_ne_nil hne
  have hany : ¬(first :: terms).any isEmpty = true := by
    rw [any_eq_true]
    rintro ⟨positions, hpositions, hempty⟩
    exact hnonempty positions hpositions (isEmpty_iff.mp hempty)
  obtain ⟨hfirst, hterms⟩ := forall_mem_cons.mp hinc
  rw [isQualified, if_neg hany, search_iff hterms hfirst fun start _ => caughtUp_refl start terms,
    hasSuccession_cons]
  exact exists_congr fun start => and_congr_right fun _ =>
    matchesFrom_iff terms first start

/-- A match is found exactly when there is none, or one that repeats a position wherever a term
has it. -/
theorem isQualified_adjacent_iff {offsets : List (List ℕ)} (hne : offsets ≠ [])
    (hnonempty : ∀ positions ∈ offsets, positions ≠ [])
    (hinc : ∀ positions ∈ offsets, positions.Pairwise (· < ·)) :
    (isQualified offsets = true ↔ HasSuccession (fun _ => Adjacent) offsets) ↔
      (HasSuccession (fun _ => Adjacent) offsets → HasSuccession (Leftmost offsets) offsets) := by
  rw [isQualified_iff_leftmost hne hnonempty hinc]
  refine ⟨Iff.mpr, fun h => ⟨?_, h⟩⟩
  rintro ⟨p, hmem, hleft⟩
  exact ⟨p, hmem, fun i hi => (hleft i hi).1⟩

theorem isQualified_adjacent_repeated : (isQualified [[1, 5], [5], [6]] = true ↔
      HasSuccession (fun _ => Adjacent) [[1, 5], [5], [6]]) ↔
      (HasSuccession (fun _ => Adjacent) [[1, 5], [5], [6]] →
        HasSuccession (Leftmost [[1, 5], [5], [6]]) [[1, 5], [5], [6]]) :=
  isQualified_adjacent_iff (cons_ne_nil _ _) (by decide) (by decide)

/-- The second term repeats position 1, and the third one is then too far. -/
theorem not_isQualified_adjacent : ¬(isQualified [[1], [1, 2], [3]] = true ↔
      HasSuccession (fun _ => Adjacent) [[1], [1, 2], [3]]) := by
  intro h
  have hmatch : HasSuccession (fun _ => Adjacent) [[1], [1, 2], [3]] :=
    hasSuccession_cons.mpr ⟨1, by decide, 2, by decide, ⟨by decide, by decide⟩, 3, by decide,
      ⟨by decide, by decide⟩, trivial⟩
  exact absurd (h.mpr hmatch) (by decide)

end AdDelivery.SearchManager.ExactPhraseDocumentIterator
