import Mathlib.Data.List.TakeWhile
import Mathlib.Data.Set.Finite.Basic
import Mathlib.Order.Bounds.Basic
import Mathlib.Order.Nat

/-!
# Cursors over ordered sets

A cursor walks a set upwards. What it has still to visit is an upper part of the
set, and a skip to a target finds the first element of that part which is not below
the target, or a limit that lies above all elements. The list lemmas are for
cursors that keep what is left as an increasing list.

A call takes a state to another one and says whether it has found an element, which is read
off the new state. To enumerate a set is to report its elements upwards, and from then on
nothing. An invariant that says what is still to come gives the enumeration.
-/

namespace AdDelivery

open List

section Order

variable {α : Type*} [LinearOrder α]

/-- `R` is what is left of `S` after some of its least elements have been passed. -/
structure IsUpperPart (S R : Set α) : Prop where
  subset : R ⊆ S
  upward : ∀ x ∈ R, ∀ y ∈ S, x ≤ y → y ∈ R

/-- `r` is the first element of `S` that is not below `t`, or the limit if there is none. -/
def FirstFrom (S : Set α) (limit t r : α) : Prop :=
  if r = limit then ∀ x ∈ S, x < t else IsLeast {x ∈ S | t ≤ x} r

namespace IsUpperPart

variable {S R T : Set α}

theorem refl (S : Set α) : IsUpperPart S S := ⟨subset_rfl, fun _ _ _ hy _ => hy⟩

theorem trans (h : IsUpperPart S R) (h' : IsUpperPart R T) : IsUpperPart S T := by
  refine ⟨h'.subset.trans h.subset, fun x hx y hy hxy => ?_⟩
  exact h'.upward x hx y (h.upward x (h'.subset hx) y hy hxy) hxy

theorem sep (S : Set α) (t : α) : IsUpperPart S {x ∈ S | t ≤ x} :=
  ⟨fun _ hx => hx.1, fun _ hx _ hy hxy => ⟨hy, hx.2.trans hxy⟩⟩

/-- Nothing but the least element was passed. -/
theorem of_least {a : α} (ha : IsLeast S a) (hsub : R ⊆ S) (h : ∀ x ∈ S, x ≠ a → x ∈ R) :
    IsUpperPart S R := by
  refine ⟨hsub, fun x hx y hy hxy => ?_⟩
  by_cases hya : y = a
  · obtain rfl : x = y := le_antisymm hxy (hya ▸ ha.2 (hsub hx))
    exact hx
  · exact h y hy hya

/-- From the first remaining element on, nothing of the set has been passed. -/
theorem sep_eq {a t : α} (h : IsUpperPart S R) (ha : a ∈ R) (hat : a ≤ t) :
    {x ∈ R | t ≤ x} = {x ∈ S | t ≤ x} := by
  ext x
  constructor
  · rintro ⟨hx, ht⟩
    exact ⟨h.subset hx, ht⟩
  · rintro ⟨hx, ht⟩
    exact ⟨h.upward a ha x hx (hat.trans ht), ht⟩

end IsUpperPart

theorem FirstFrom.isLeast {S : Set α} {limit t r : α} (h : FirstFrom S limit t r)
    (hr : r ≠ limit) : IsLeast {x ∈ S | t ≤ x} r := by
  rwa [FirstFrom, if_neg hr] at h

theorem FirstFrom.below {S : Set α} {limit t : α} (h : FirstFrom S limit t limit) :
    ∀ x ∈ S, x < t := by
  rwa [FirstFrom, if_pos rfl] at h

theorem firstFrom_congr {S T : Set α} {limit t r : α} (h : {x ∈ S | t ≤ x} = {x ∈ T | t ≤ x}) :
    FirstFrom S limit t r ↔ FirstFrom T limit t r := by
  have hbelow : (∀ x ∈ S, x < t) ↔ ∀ x ∈ T, x < t := by
    have hmem : ∀ x, (x ∈ S ∧ t ≤ x) ↔ (x ∈ T ∧ t ≤ x) := fun x => Set.ext_iff.mp h x
    constructor
    · intro hS x hx
      by_contra hle
      exact hle (hS x ((hmem x).mpr ⟨hx, not_lt.mp hle⟩).1)
    · intro hT x hx
      by_contra hle
      exact hle (hT x ((hmem x).mp ⟨hx, not_lt.mp hle⟩).1)
  unfold FirstFrom
  rw [hbelow, h]

end Order

section Lists

variable {l : List ℕ}

/-- Dropping what is below the target leaves the elements that are not. -/
theorem mem_dropWhile_lt (h : l.Pairwise (· < ·)) (t x : ℕ) :
    x ∈ l.dropWhile (· < t) ↔ x ∈ l ∧ t ≤ x := by
  induction l with
  | nil => simp
  | cons a l ih =>
    obtain ⟨ha, hl⟩ := pairwise_cons.mp h
    by_cases hat : a < t
    · rw [dropWhile_cons_of_pos (by simpa using hat), ih hl, mem_cons]
      constructor
      · rintro ⟨hx, ht⟩
        exact ⟨.inr hx, ht⟩
      · rintro ⟨rfl | hx, ht⟩
        · omega
        · exact ⟨hx, ht⟩
    · rw [dropWhile_cons_of_neg (by simpa using hat), mem_cons]
      refine ⟨fun hx => ⟨hx, ?_⟩, fun hx => hx.1⟩
      rcases hx with rfl | hx
      · omega
      · have := ha x hx
        omega

/-- To drop up to a target is also to drop up to a later one in two steps. -/
theorem dropWhile_dropWhile_lt (l : List ℕ) {t t' : ℕ} (h : t ≤ t') :
    (l.dropWhile (· < t)).dropWhile (· < t') = l.dropWhile (· < t') := by
  induction l with
  | nil => rfl
  | cons a l ih =>
    by_cases ha : a < t
    · rw [dropWhile_cons_of_pos (by simpa using ha), ih,
        dropWhile_cons_of_pos (by simpa using ha.trans_le h)]
    · rw [dropWhile_cons_of_neg (by simpa using ha)]

theorem dropWhile_lt_eq_nil {t : ℕ} : l.dropWhile (· < t) = [] ↔ ∀ x ∈ l, x < t := by
  rw [dropWhile_eq_nil_iff]
  exact forall₂_congr fun x _ => decide_eq_true_iff

/-- What is left begins with the first element that is not below the target. -/
theorem isLeast_of_dropWhile_lt {l rest : List ℕ} (h : l.Pairwise (· < ·)) {t q : ℕ}
    (hdrop : l.dropWhile (· < t) = q :: rest) : IsLeast {x ∈ l | t ≤ x} q := by
  have hmem := mem_dropWhile_lt h t
  have hinc : (q :: rest).Pairwise (· < ·) := hdrop ▸ h.sublist (dropWhile_sublist _)
  rw [hdrop] at hmem
  refine ⟨(hmem q).mp mem_cons_self, fun x hx => ?_⟩
  rcases mem_cons.mp ((hmem x).mpr hx) with rfl | hx
  · exact le_rfl
  · exact ((pairwise_cons.mp hinc).1 x hx).le

theorem isLeast_cons {a : ℕ} (h : (a :: l).Pairwise (· < ·)) : IsLeast {x | x ∈ a :: l} a := by
  refine ⟨mem_cons_self, fun x hx => ?_⟩
  rcases mem_cons.mp hx with rfl | hx
  · exact le_rfl
  · exact ((pairwise_cons.mp h).1 x hx).le

theorem isUpperPart_tail (h : l.Pairwise (· < ·)) : IsUpperPart {x | x ∈ l} {x | x ∈ l.tail} := by
  cases l with
  | nil => exact .refl _
  | cons a l =>
    refine .of_least (isLeast_cons h) (fun x hx => mem_cons_of_mem a hx) fun x hx hxa => ?_
    exact (mem_cons.mp hx).resolve_left hxa

end Lists

variable {σ α : Type*}

/-- The calls report the listed elements one after another, and from then on nothing. -/
def Yields (next : σ → Bool × σ) (doc : σ → α) : List α → σ → Prop
  | [], s => ∀ n, (next ((fun s => (next s).2)^[n] s)).1 = false
  | x :: xs, s => (next s).1 = true ∧ doc (next s).2 = x ∧ Yields next doc xs (next s).2

variable {next : σ → Bool × σ} {doc : σ → α} [LinearOrder α]

/-- The calls report the elements of the set upwards, and from then on nothing. -/
def Enumerates (next : σ → Bool × σ) (doc : σ → α) (S : Set α) (s : σ) : Prop :=
  ∃ xs : List α, xs.Pairwise (· < ·) ∧ (∀ x, x ∈ xs ↔ x ∈ S) ∧ Yields next doc xs s

/-- `I s S` says that `S` is still to come. -/
structure StillToCome (next : σ → Bool × σ) (doc : σ → α) (I : σ → Set α → Prop) : Prop where
  nothing : ∀ s S, I s S → (next s).1 = false → S = ∅ ∧ I (next s).2 ∅
  found : ∀ s S, I s S → (next s).1 = true →
    IsLeast S (doc (next s).2) ∧ I (next s).2 {x ∈ S | doc (next s).2 < x}

namespace StillToCome

variable {I : σ → Set α → Prop} {s : σ}

theorem not_found_of_empty (hI : StillToCome next doc I) (h : I s ∅) : (next s).1 = false := by
  cases hnext : (next s).1 with
  | false => rfl
  | true => exact absurd (hI.found s ∅ h hnext).1.1 (Set.notMem_empty _)

theorem yields_nil (hI : StillToCome next doc I) (h : I s ∅) : Yields next doc [] s := by
  intro n
  refine hI.not_found_of_empty ?_
  induction n generalizing s with
  | zero => exact h
  | succ n ih => exact ih (hI.nothing s ∅ h (hI.not_found_of_empty h)).2

/-- Whatever is still to come is enumerated. -/
theorem enumerates (hI : StillToCome next doc I) {S : Set α} (hfin : S.Finite) (h : I s S) :
    Enumerates next doc S s := by
  lift S to Finset α using hfin
  induction S using Finset.strongInduction generalizing s with
  | H S ih =>
    cases hnext : (next s).1 with
    | false =>
      obtain ⟨hempty, -⟩ := hI.nothing s S h hnext
      rw [hempty] at h ⊢
      exact ⟨[], List.Pairwise.nil, fun x => by simp, hI.yields_nil h⟩
    | true =>
      obtain ⟨hleast, hrest⟩ := hI.found s S h hnext
      have hcoe : {x ∈ (S : Set α) | doc (next s).2 < x} = ↑(S.filter (doc (next s).2 < ·)) := by
        rw [Finset.coe_filter]
        rfl
      rw [hcoe] at hrest
      have hsmaller : S.filter (doc (next s).2 < ·) ⊂ S :=
        Finset.filter_ssubset.mpr ⟨_, hleast.1, lt_irrefl _⟩
      obtain ⟨xs, hsorted, hmem, hyields⟩ := ih _ hsmaller hrest
      refine ⟨doc (next s).2 :: xs, ?_, fun x => ?_, hnext, rfl, hyields⟩
      · refine List.pairwise_cons.mpr ⟨fun x hx => ?_, hsorted⟩
        exact (Finset.mem_filter.mp ((hmem x).mp hx)).2
      · rw [List.mem_cons, hmem, Finset.mem_coe, Finset.mem_filter]
        constructor
        · rintro (rfl | ⟨hx, -⟩)
          · exact hleast.1
          · exact hx
        · intro hx
          rcases (hleast.2 hx).eq_or_lt with heq | hlt
          · exact .inl heq.symm
          · exact .inr ⟨hx, hlt⟩

end StillToCome

end AdDelivery
