import AdDelivery.Core.Plane
import Mathlib.Data.List.Chain

/-!
# The stack of a hull scan

The points in front of a corner are met in the order of their angles around it. Each one is pushed
on a stack, after all those have been popped at which the boundary would turn right. What is kept is
that all points met so far lie on the left of every edge on the stack. For the edges that stay this
follows from the turns between neighbours, for the new edge from those of the popped points.
-/

namespace AdDelivery.Plane

open List

variable {K : Type*} [Field K] [LinearOrder K]

/-- A boundary, the last point on top, with all points of `met` on its left. -/
structure LeftBoundary (b : Point K) (met : Set (Point K)) (stack : List (Point K)) : Prop where
  bottom : stack.getLast? = some b
  front : ∀ p ∈ met, p = b ∨ Less b p
  sub : ∀ p ∈ stack, p ∈ met
  sorted : stack.Pairwise fun t s => Before b s t
  left : stack.IsChain fun t s => ∀ r ∈ met, 0 ≤ orient s t r

/-- The boundary after all points of `met` have been pushed. -/
structure HullStack (b : Point K) (met : Set (Point K)) (stack : List (Point K)) : Prop extends
    LeftBoundary b met stack where
  top : ∀ t, stack.head? = some t → ∀ p ∈ met, p = t ∨ Before b p t

/-- The boundary while points are popped before `q` is pushed. -/
structure Popping (b : Point K) (met : Set (Point K)) (q : Point K) (stack : List (Point K)) :
    Prop extends LeftBoundary b met stack where
  next : Less b q
  last : ∀ p ∈ met, Before b p q
  seen : ∀ c, stack.head? = some c → ∀ r ∈ met, Before b c r → 0 ≤ orient c q r

variable {b : Point K} {met : Set (Point K)} {q : Point K} {stack : List (Point K)}

theorem hullStack_singleton (b : Point K) : HullStack b {b} [b] where
  bottom := rfl
  front := fun _ hp => .inl hp
  sub := fun _ hp => mem_singleton.mp hp
  sorted := pairwise_singleton _ _
  left := isChain_singleton _
  top := by
    rintro t ⟨⟩ p hp
    exact .inl hp

section Neighbours

variable {t c a : Point K} {rest : List (Point K)}

theorem LeftBoundary.before (h : LeftBoundary b met (t :: c :: rest)) : Before b c t :=
  rel_of_pairwise_cons h.sorted mem_cons_self

theorem LeftBoundary.mem_top (h : LeftBoundary b met (t :: rest)) : t ∈ met :=
  h.sub t mem_cons_self

theorem LeftBoundary.left_top (h : LeftBoundary b met (t :: c :: rest)) :
    ∀ r ∈ met, 0 ≤ orient c t r :=
  (isChain_cons_cons.mp h.left).1

theorem LeftBoundary.tail (h : LeftBoundary b met (t :: c :: rest)) :
    LeftBoundary b met (c :: rest) where
  bottom := by
    have hbottom := h.bottom
    rwa [getLast?_cons_cons] at hbottom
  front := h.front
  sub := fun p hp => h.sub p (mem_cons_of_mem t hp)
  sorted := h.sorted.of_cons
  left := (isChain_cons_cons.mp h.left).2

/-- A single point on the stack is the corner. -/
theorem LeftBoundary.eq_corner (h : LeftBoundary b met [c]) : c = b := by
  have hbottom := h.bottom
  rwa [getLast?_singleton, Option.some.injEq] at hbottom

end Neighbours

section Pop

variable [IsStrictOrderedRing K] {t c : Point K} {rest : List (Point K)}

/-- Only the bottom of the stack is the corner. -/
theorem LeftBoundary.top_front (h : LeftBoundary b met (t :: c :: rest)) : Less b t := by
  rcases h.front t h.mem_top with rfl | hfront
  · exact absurd h.before (not_before_base _ c)
  · exact hfront

theorem HullStack.popping (h : HullStack b met stack) (hnext : Less b q)
    (hlast : ∀ p ∈ met, Before b p q) : Popping b met q stack where
  toLeftBoundary := h.toLeftBoundary
  next := hnext
  last := hlast
  seen := by
    intro c hc r hr hbefore
    rcases h.top c hc r hr with rfl | hafter
    · exact absurd hbefore hbefore.asymm
    · exact absurd hafter hbefore.asymm

section

variable (h : Popping b met q (t :: c :: rest)) (hturn : orient c t q < 0)
include h hturn

/-- Seen from a point of the stack, a right turn above it is not on its own ray. -/
theorem Popping.turn_pos : 0 < orient b c t := by
  refine lt_of_le_of_ne h.before.nonneg fun hzero => ?_
  rcases h.front c h.tail.mem_top with rfl | hfront
  · exact absurd (h.last t h.mem_top).nonneg (not_le.mpr hturn)
  · obtain ⟨factor, hfactor, hray⟩ := h.before.exists_onRay_gt hfront h.top_front hzero.symm
    rw [hray.orient_eq] at hturn
    have hnonneg := mul_nonneg (sub_nonneg.mpr hfactor.le) (h.last c h.tail.mem_top).nonneg
    exact absurd hnonneg (not_le.mpr hturn)

/-- At a right turn the top is popped. -/
theorem Popping.pop : Popping b met q (c :: rest) where
  toLeftBoundary := h.tail
  next := h.next
  last := h.last
  seen := by
    rintro _ ⟨⟩ r hr hbefore
    have hleft := h.left_top r hr
    have hq := (h.last c h.tail.mem_top).nonneg
    have hr' := hbefore.nonneg
    have hprod : orient b c t * orient c q r =
        orient b c r * -orient c t q + orient b c q * orient c t r := by
      unfold orient
      ring
    refine nonneg_of_mul_nonneg_right ?_ (h.turn_pos hturn)
    rw [hprod]
    exact add_nonneg (mul_nonneg hr' (neg_nonneg.mpr hturn.le)) (mul_nonneg hq hleft)

/-- A popped point is not the greatest one. -/
theorem Popping.exists_less : ∃ p ∈ insert q met, Less t p := by
  by_contra hgreatest
  push Not at hgreatest
  have hmem := h.tail.mem_top
  have hbehind : ∀ p ∈ insert q met, p ≠ t → Less p t := by
    intro p hp hne
    rcases less_trichotomy p t with hless | heq | hless
    · exact hless
    · exact absurd heq hne
    · exact absurd hless (hgreatest p hp)
  have hq : Less q t := hbehind q (Set.mem_insert _ _) fun heq =>
    (heq ▸ h.last t h.mem_top : Before b q q).asymm (heq ▸ h.last t h.mem_top)
  have hc : Less c t := hbehind c (Set.mem_insert_of_mem _ hmem) fun heq =>
    (heq ▸ h.before : Before b t t).asymm (heq ▸ h.before)
  -- seen from `t`, the corner lies between `q` and `c`
  have hqb : 0 ≤ orient t q b := by
    rw [orient_rotate]
    exact (h.last t h.mem_top).nonneg
  have hbc : 0 ≤ orient t b c := by
    rw [← orient_rotate]
    exact h.before.nonneg
  have hqc := orient_trans_behind hq h.top_front hc hqb hbc
  rw [orient_rotate] at hqc
  exact absurd hqc (not_le.mpr hturn)

end

end Pop

section Push

variable [IsStrictOrderedRing K] {t c a : Point K} {rest : List (Point K)}

/-- A point on the left of an edge is on the left of the edge below, when both edges turn left. -/
theorem left_of_lower {a c t : Point K} (ha : a = b ∨ Less b a) (hc : Less b c) (ht : Less b t)
    (hac : Before b a c) (hct : Before b c t) (hcq : Before b c q) (hturn : 0 ≤ orient a c t)
    (hleft : 0 ≤ orient c t q) : 0 ≤ orient a c q := by
  have hprod : orient b c t * orient a c q =
      orient b c q * orient a c t + orient b a c * orient c t q := by
    unfold orient
    ring
  rcases hct.nonneg.lt_or_eq with hpos | hzero
  · refine nonneg_of_mul_nonneg_right ?_ hpos
    rw [hprod]
    exact add_nonneg (mul_nonneg hcq.nonneg hturn) (mul_nonneg hac.nonneg hleft)
  · -- the two edges are on one ray, and the lower one reaches `c` along it
    obtain ⟨factor, hfactor, hray⟩ := hct.exists_onRay_gt hc ht hzero.symm
    have hback : orient a c t = -((factor - 1) * orient b a c) := by
      rw [← orient_rotate, hray.orient_eq, orient_swap b a c]
      ring
    have hzero' : orient b a c = 0 := by
      rw [hback, neg_nonneg] at hturn
      exact le_antisymm (nonpos_of_mul_nonpos_right hturn (sub_pos.mpr hfactor)) hac.nonneg
    obtain ⟨share, hshare, hray'⟩ := hac.exists_onRay_lt ha hc hzero'
    have hfinal : orient a c q = (1 - share) * orient b c q := by
      rw [orient_swap_left, hray'.orient_eq]
      ring
    rw [hfinal]
    exact mul_nonneg (sub_nonneg.mpr hshare.le) hcq.nonneg

/-- What lies before the top of the stack is on the left of the new edge. -/
theorem Popping.left_of_before (h : Popping b met q (c :: a :: rest)) (hturn : 0 ≤ orient a c q)
    {r : Point K} (hr : r ∈ met) (hbefore : Before b r c) : 0 ≤ orient c q r := by
  have hleft := h.left_top r hr
  have hcq := (h.last c h.mem_top).nonneg
  have hcr : 0 ≤ -orient b c r := by
    rw [← orient_swap]
    exact hbefore.nonneg
  have hprod : orient b a c * orient c q r =
      orient a c r * orient b c q + orient a c q * -orient b c r := by
    unfold orient
    ring
  rcases h.before.nonneg.lt_or_eq with hpos | hzero
  · refine nonneg_of_mul_nonneg_right ?_ hpos
    rw [hprod]
    exact add_nonneg (mul_nonneg hleft hcq) (mul_nonneg hturn hcr)
  · -- the edge below lies on the ray of `c`, and so does `r`
    obtain ⟨share, hshare, hray⟩ :=
      h.before.exists_onRay_lt (h.front a h.tail.mem_top) h.top_front hzero.symm
    have hedge : orient a c r = (1 - share) * orient b c r := by
      rw [orient_swap_left, hray.orient_eq]
      ring
    have hline : orient b r c = 0 := by
      rw [hedge] at hleft
      have hnonneg := nonneg_of_mul_nonneg_right hleft (sub_pos.mpr hshare)
      rw [orient_swap]
      linarith
    obtain ⟨share', hshare', hray'⟩ :=
      hbefore.exists_onRay_lt (h.front r hr) h.top_front hline
    have hfinal : orient c q r = (1 - share') * orient b c q := by
      rw [orient_swap, hray'.orient_eq]
      ring
    rw [hfinal]
    exact mul_nonneg (sub_nonneg.mpr hshare'.le) hcq

/-- The new edge has all points met so far on its left. -/
theorem Popping.left_of_new (h : Popping b met q (c :: rest))
    (hturn : ∀ a, rest.head? = some a → 0 ≤ orient a c q) : ∀ r ∈ met, 0 ≤ orient c q r := by
  intro r hr
  have hcfront := h.front c h.mem_top
  rcases before_trichotomy hcfront (h.front r hr) with hafter | rfl | hbefore
  · exact h.seen c rfl r hr hafter
  · exact (orient_self_outer c q).ge
  · cases rest with
    | nil =>
      obtain rfl := h.eq_corner
      exact absurd hbefore (not_before_base c r)
    | cons a rest => exact h.left_of_before (hturn a rfl) hr hbefore

/-- The new point as well is on the left of every edge that stays. -/
theorem left_of_edges (hstack : LeftBoundary b met (c :: rest)) (hlast : ∀ p ∈ met, Before b p q)
    (hturn : ∀ a, rest.head? = some a → 0 ≤ orient a c q) :
    (c :: rest).IsChain fun t s => ∀ r ∈ insert q met, 0 ≤ orient s t r := by
  induction rest generalizing c with
  | nil => exact isChain_singleton _
  | cons a rest ih =>
    refine isChain_cons_cons.mpr ⟨?_, ih hstack.tail ?_⟩
    · rintro r (rfl | hr)
      · exact hturn a rfl
      · exact hstack.left_top r hr
    · intro a' ha'
      cases rest with
      | nil => cases ha'
      | cons a'' rest =>
        obtain rfl : a'' = a' := Option.some.inj ha'
        have htail := hstack.tail
        exact left_of_lower (htail.front a'' htail.tail.mem_top) htail.top_front
          hstack.top_front htail.before hstack.before (hlast a htail.mem_top)
          (htail.left_top c hstack.mem_top) (hturn a rfl)

/-- Pushing the next point where the boundary does not turn right. -/
theorem Popping.push (h : Popping b met q (c :: rest))
    (hturn : ∀ a, rest.head? = some a → 0 ≤ orient a c q) :
    HullStack b (insert q met) (q :: c :: rest) where
  bottom := by
    exact h.bottom
  front := by
    rintro p (rfl | hp)
    · exact .inr h.next
    · exact h.front p hp
  sub := by
    intro p hp
    rcases mem_cons.mp hp with rfl | hp
    · exact .inl rfl
    · exact .inr (h.sub p hp)
  sorted := pairwise_cons.mpr ⟨fun s hs => h.last s (h.sub s hs), h.sorted⟩
  left := by
    refine isChain_cons_cons.mpr ⟨?_, left_of_edges h.toLeftBoundary h.last hturn⟩
    rintro r (rfl | hr)
    · exact (orient_self_right c r).ge
    · exact h.left_of_new hturn r hr
  top := by
    rintro _ ⟨⟩ p (rfl | hp)
    · exact .inl rfl
    · exact .inr (h.last p hp)

end Push

section Around

variable [IsStrictOrderedRing K] {t s a : Point K} {rest : List (Point K)}

/-- Where the boundary does not rise any more, it runs to the left. -/
theorem LeftBoundary.x_lt_of_not_less (h : LeftBoundary b met (t :: s :: rest))
    (hfall : ¬ Less s t) : t.x < s.x := by
  have hbefore := h.before
  rcases less_trichotomy s t with hless | rfl | hless
  · exact absurd hless hfall
  · exact absurd hbefore hbefore.asymm
  · rcases hless with hx | ⟨hx, hy⟩
    · exact hx
    · have hs : Less b s := by
        rcases h.front s h.tail.mem_top with rfl | hs
        · exact absurd (h.top_front.trans (.inr ⟨hx, hy⟩)) (Less.irrefl _)
        · exact hs
      have hturn : orient b s t = (s.x - b.x) * (t.y - s.y) := by
        unfold orient
        rw [hx]
        ring
      have hsx : s.x - b.x = 0 := by
        have hnonneg := hbefore.nonneg
        rw [hturn] at hnonneg
        have hle := nonpos_of_mul_nonneg_left hnonneg (sub_neg.mpr hy)
        exact le_antisymm hle (sub_nonneg.mpr hs.le_x)
      rw [hsx, zero_mul] at hturn
      obtain ⟨factor, hfactor, hray⟩ := hbefore.exists_onRay_gt hs h.top_front hturn
      have hsy : 0 < s.y - b.y := by
        rcases hs with hs | ⟨-, hs⟩
        · exact absurd hsx (sub_pos.mpr hs).ne'
        · exact sub_pos.mpr hs
      have hty := hray.2
      nlinarith

/-- Once the boundary runs to the left, it goes on to the left. -/
theorem LeftBoundary.x_lt_of_x_lt (h : LeftBoundary b met (t :: s :: a :: rest))
    (hfall : s.x < a.x) : t.x < s.x := by
  by_contra hright
  rw [not_lt] at hright
  have hs := h.tail.top_front
  have hst := h.before
  have has := h.tail.before
  have hturn := h.tail.left_top t h.mem_top
  have hprod : orient b s t * (a.x - s.x) =
      -(orient b a s * (t.x - s.x) + orient a s t * (s.x - b.x)) := by
    unfold orient
    ring
  have hzero : orient b s t = 0 := by
    refine le_antisymm ?_ hst.nonneg
    refine nonpos_of_mul_nonpos_left ?_ (sub_pos.mpr hfall)
    rw [hprod, neg_nonpos]
    exact add_nonneg (mul_nonneg has.nonneg (sub_nonneg.mpr hright))
      (mul_nonneg hturn (sub_nonneg.mpr hs.le_x))
  -- `t` is on the ray of `s`, so `a` is on it as well, and nearer
  obtain ⟨factor, hfactor, hray⟩ := hst.exists_onRay_gt hs h.top_front hzero
  have hback : orient a s t = -((factor - 1) * orient b a s) := by
    rw [← orient_rotate, hray.orient_eq, orient_swap b a s]
    ring
  have hzero' : orient b a s = 0 := by
    rw [hback, neg_nonneg] at hturn
    exact le_antisymm (nonpos_of_mul_nonpos_right hturn (sub_pos.mpr hfactor)) has.nonneg
  obtain ⟨share, hshare, hray'⟩ :=
    has.exists_onRay_lt (h.front a h.tail.tail.mem_top) hs hzero'
  have hax := hray'.1
  nlinarith [hs.le_x]

end Around

end AdDelivery.Plane
