import Mathlib.Algebra.BigOperators.Intervals
import Mathlib.Algebra.Order.BigOperators.Group.Finset

/-!
# Cutting a row of counts into pieces

A row of counts is cut into pieces one after another. Cells outside of all pieces are empty, and
each piece knows how much there is in it. Pieces that are cut so ascend, and together they hold
what the row holds.
-/

namespace AdDelivery

open Nat Finset

/-- From the cell `first` to the cell `last`, both included. -/
structure Piece where
  first : ℕ
  last : ℕ
  count : ℕ
  deriving DecidableEq

/-- The piece so many cells further on. -/
def Piece.shift (d : ℕ) (piece : Piece) : Piece :=
  { piece with first := d + piece.first, last := d + piece.last }

/-- What the cells before `n` hold. -/
def heldBefore (c : ℕ → ℕ) (n : ℕ) : ℕ := ∑ k ∈ range n, c k

/-- The pieces cut the cells from `a` up to `b`. -/
def Cut (c : ℕ → ℕ) (b : ℕ) : ℕ → List Piece → Prop
  | a, [] => a ≤ b ∧ heldBefore c a = heldBefore c b
  | a, piece :: pieces =>
    a ≤ piece.first ∧ heldBefore c piece.first = heldBefore c a ∧
      piece.first ≤ piece.last ∧ piece.last < b ∧ c piece.first ≠ 0 ∧
      heldBefore c (piece.last + 1) = heldBefore c piece.first + piece.count ∧
      Cut c b (piece.last + 1) pieces

variable {c : ℕ → ℕ} {a b n : ℕ} {pieces : List Piece}

theorem heldBefore_succ (c : ℕ → ℕ) (n : ℕ) : heldBefore c (n + 1) = heldBefore c n + c n :=
  sum_range_succ c n

theorem heldBefore_mono (c : ℕ → ℕ) {m n : ℕ} (h : m ≤ n) : heldBefore c m ≤ heldBefore c n :=
  sum_le_sum_of_subset (range_mono h)

theorem heldBefore_eq_of_zero {m n : ℕ} (hmn : m ≤ n) (h : ∀ k, m ≤ k → k < n → c k = 0) :
    heldBefore c m = heldBefore c n := by
  induction n, hmn using le_induction with
  | base => rfl
  | succ n hmn ih =>
    rw [heldBefore_succ, h n hmn (lt_succ_self n)]
    apply ih
    intro k hmk hkn
    exact h k hmk (hkn.trans (lt_succ_self n))

/-- Where something is left, there is a next cell that is not empty. -/
theorem exists_next {m n : ℕ} (h : heldBefore c m < heldBefore c n) :
    ∃ k, m ≤ k ∧ k < n ∧ c k ≠ 0 ∧ heldBefore c k = heldBefore c m ∧
      ∀ i, m ≤ i → i < k → c i = 0 := by
  have hex : ∃ k, m ≤ k ∧ c k ≠ 0 := by
    by_contra hnone
    rcases le_total m n with hmn | hnm
    · refine h.ne (heldBefore_eq_of_zero hmn fun k hmk _ => ?_)
      by_contra hk
      exact hnone ⟨k, hmk, hk⟩
    · exact absurd (heldBefore_mono c hnm) (not_le_of_gt h)
  classical
  obtain ⟨hmk, hk⟩ := Nat.find_spec hex
  have hzero : ∀ i, m ≤ i → i < Nat.find hex → c i = 0 := by
    intro i hmi hi
    by_contra hne
    exact Nat.find_min hex hi ⟨hmi, hne⟩
  have hheld := heldBefore_eq_of_zero hmk hzero
  refine ⟨Nat.find hex, hmk, ?_, hk, hheld.symm, hzero⟩
  by_contra hnk
  have hle := heldBefore_mono c (not_lt.mp hnk)
  omega

/-- The last cell before `n` that is not empty. -/
theorem exists_last (h : 0 < heldBefore c n) :
    ∃ k < n, c k ≠ 0 ∧ heldBefore c (k + 1) = heldBefore c n ∧ ∀ i, k < i → i < n → c i = 0 := by
  induction n with
  | zero => exact absurd h (lt_irrefl 0)
  | succ n ih =>
    by_cases hn : c n = 0
    · have hheld : heldBefore c (n + 1) = heldBefore c n := by
        rw [heldBefore_succ, hn, add_zero]
      obtain ⟨k, hkn, hk, hlast, hzero⟩ := ih (hheld ▸ h)
      refine ⟨k, hkn.trans (Nat.lt_succ_self n), hk, hlast.trans hheld.symm, fun i hki hi => ?_⟩
      rcases Nat.lt_succ_iff_lt_or_eq.mp hi with hlt | rfl
      · exact hzero i hki hlt
      · exact hn
    · exact ⟨n, lt_succ_self n, hn, rfl, fun i hni hi => absurd hi (not_lt_of_ge hni)⟩

namespace Cut

theorem append {rest : List Piece} (h : Cut c b a pieces) (hrest : Cut c n b rest)
    (hbn : b ≤ n) : Cut c n a (pieces ++ rest) := by
  induction pieces generalizing a with
  | nil =>
    obtain ⟨hab, hheld⟩ := h
    cases rest with
    | nil => exact ⟨hab.trans hrest.1, hheld.trans hrest.2⟩
    | cons piece rest =>
      obtain ⟨hfirst, hheld', htail⟩ := hrest
      exact ⟨hab.trans hfirst, hheld'.trans hheld.symm, htail⟩
  | cons piece pieces ih =>
    obtain ⟨hfirst, hheld, hle, hlast, hne, hcount, htail⟩ := h
    exact ⟨hfirst, hheld, hle, hlast.trans_le hbn, hne, hcount, ih htail⟩

/-- Empty cells before the pieces do not matter. -/
theorem of_le {a' : ℕ} (h : Cut c b a' pieces) (hle : a ≤ a')
    (hheld : heldBefore c a = heldBefore c a') : Cut c b a pieces := by
  cases pieces with
  | nil => exact ⟨hle.trans h.1, hheld.trans h.2⟩
  | cons piece pieces =>
    obtain ⟨hfirst, hheld', htail⟩ := h
    exact ⟨hle.trans hfirst, hheld'.trans hheld.symm, htail⟩

theorem le (h : Cut c b a pieces) : a ≤ b := by
  induction pieces generalizing a with
  | nil => exact h.1
  | cons piece pieces ih =>
    obtain ⟨hfirst, _, hle, hlast, _⟩ := h
    omega

/-- One more piece in front, with all that lies before the others. -/
theorem cons {a' t : ℕ} (h : Cut c b a' pieces) (hat : a ≤ t) (hta' : t < a') (hne : c a ≠ 0)
    (hheld : heldBefore c (t + 1) = heldBefore c a') :
    Cut c b a (⟨a, t, heldBefore c a' - heldBefore c a⟩ :: pieces) := by
  have hmono := heldBefore_mono c (hat.trans hta'.le)
  have hcount : heldBefore c (t + 1) =
      heldBefore c a + (heldBefore c a' - heldBefore c a) := by
    omega
  exact ⟨le_refl a, rfl, hat, hta'.trans_le h.le, hne, hcount, h.of_le hta' hheld⟩

/-- A part of a longer row is cut. -/
theorem shift {d : ℕ} (h : Cut (fun k => c (d + k)) b a pieces) :
    Cut c (d + b) (d + a) (pieces.map (Piece.shift d)) := by
  have hheld (n : ℕ) : heldBefore c (d + n) = heldBefore c d + heldBefore (fun k => c (d + k)) n :=
    sum_range_add c d n
  induction pieces generalizing a with
  | nil =>
    refine ⟨Nat.add_le_add_left h.1 d, ?_⟩
    rw [hheld, hheld, h.2]
  | cons piece pieces ih =>
    obtain ⟨hfirst, hbefore, hle, hlast, hne, hcount, htail⟩ := h
    refine ⟨Nat.add_le_add_left hfirst d, ?_, Nat.add_le_add_left hle d,
      Nat.add_lt_add_left hlast d, hne, ?_, ih htail⟩
    · rw [Piece.shift, hheld, hheld, hbefore]
    · simp only [Piece.shift]
      rw [add_assoc, hheld, hheld, hcount, add_assoc]

/-- The pieces hold all that there is. -/
theorem sum_count (h : Cut c b a pieces) :
    heldBefore c a + (pieces.map Piece.count).sum = heldBefore c b := by
  induction pieces generalizing a with
  | nil => exact h.2
  | cons piece pieces ih =>
    obtain ⟨_, hheld, _, _, _, hcount, htail⟩ := h
    rw [List.map_cons, List.sum_cons, ← ih htail, hcount, hheld, add_assoc]

variable {piece : Piece}

theorem piece_spec (h : Cut c b a pieces) (hpiece : piece ∈ pieces) :
    a ≤ piece.first ∧ piece.first ≤ piece.last ∧ piece.last < b ∧ c piece.first ≠ 0 ∧
      heldBefore c (piece.last + 1) = heldBefore c piece.first + piece.count := by
  induction pieces generalizing a with
  | nil => cases hpiece
  | cons head pieces ih =>
    obtain ⟨hfirst, _, hle, hlast, hne, hcount, htail⟩ := h
    rcases List.mem_cons.mp hpiece with rfl | hpiece
    · exact ⟨hfirst, hle, hlast, hne, hcount⟩
    · obtain ⟨hfirst', hrest⟩ := ih htail hpiece
      exact ⟨by omega, hrest⟩

/-- No piece is empty. -/
theorem count_pos (h : Cut c b a pieces) (hpiece : piece ∈ pieces) : 0 < piece.count := by
  obtain ⟨_, hle, _, hne, hcount⟩ := h.piece_spec hpiece
  have hmono := heldBefore_mono c (succ_le_succ hle)
  rw [hcount, heldBefore_succ] at hmono
  omega

theorem pairwise (h : Cut c b a pieces) :
    pieces.Pairwise fun piece piece' => piece.last < piece'.first := by
  induction pieces generalizing a with
  | nil => exact List.Pairwise.nil
  | cons piece pieces ih =>
    obtain ⟨_, _, _, _, _, _, htail⟩ := h
    refine List.pairwise_cons.mpr ⟨fun piece' hpiece' => ?_, ih htail⟩
    exact (htail.piece_spec hpiece').1

/-- A piece counts what lies in its cells. -/
theorem count_eq (h : Cut c b a pieces) (hpiece : piece ∈ pieces) :
    piece.count = ∑ k ∈ Ico piece.first (piece.last + 1), c k := by
  obtain ⟨_, hle, _, _, hcount⟩ := h.piece_spec hpiece
  have hsum := sum_range_add_sum_Ico c (show piece.first ≤ piece.last + 1 by omega)
  exact add_left_cancel (hcount.symm.trans hsum.symm)

end Cut

end AdDelivery
