import Mathlib.Algebra.Order.Field.Basic
import Mathlib.Tactic.LinearCombination
import Mathlib.Tactic.Linarith
import Mathlib.Tactic.Ring

/-!
# Points of the plane, seen from a corner

The turn from one point over a second to a third is the sign of a determinant. All points that lie
to the right of a base point, or straight above it, are ordered by their angle around it, the nearer
first where the angles agree. On such points turns compose: what is left of a left turn is left.
-/

namespace AdDelivery.Plane

@[ext] structure Point (K : Type*) where
  x : K
  y : K
deriving DecidableEq

variable {K : Type*}

/-- The order by `x`, then by `y`. -/
def Less [LT K] (p q : Point K) : Prop := p.x < q.x ∨ p.x = q.x ∧ p.y < q.y

section Less

variable [LinearOrder K] {p q r : Point K}

theorem Less.trans (hpq : Less p q) (hqr : Less q r) : Less p r := by
  rcases hpq with hpq | ⟨hpq, hpq'⟩
  · rcases hqr with hqr | ⟨hqr, -⟩
    · exact .inl (hpq.trans hqr)
    · exact .inl (hqr ▸ hpq)
  · rcases hqr with hqr | ⟨hqr, hqr'⟩
    · exact .inl (hpq ▸ hqr)
    · exact .inr ⟨hpq.trans hqr, hpq'.trans hqr'⟩

theorem Less.irrefl (p : Point K) : ¬ Less p p := by
  rintro (h | ⟨-, h⟩)
  · exact lt_irrefl _ h
  · exact lt_irrefl _ h

theorem less_trichotomy (p q : Point K) : Less p q ∨ p = q ∨ Less q p := by
  rcases lt_trichotomy p.x q.x with hx | hx | hx
  · exact .inl (.inl hx)
  · rcases lt_trichotomy p.y q.y with hy | hy | hy
    · exact .inl (.inr ⟨hx, hy⟩)
    · exact .inr (.inl (Point.ext hx hy))
    · exact .inr (.inr (.inr ⟨hx.symm, hy⟩))
  · exact .inr (.inr (.inl hx))

theorem Less.le_x (h : Less p q) : p.x ≤ q.x := by
  rcases h with h | ⟨h, -⟩
  · exact h.le
  · exact h.le

end Less

section Turn

variable [CommRing K]

/-- Twice the area of the triangle `p q r`, positive if its corners are in counterclockwise
order. -/
def orient (p q r : Point K) : K := (q.x - p.x) * (r.y - p.y) - (q.y - p.y) * (r.x - p.x)

def sqDist (p q : Point K) : K := (q.x - p.x) ^ 2 + (q.y - p.y) ^ 2

@[simp] theorem orient_self_left (p r : Point K) : orient p p r = 0 := by
  unfold orient
  ring

@[simp] theorem orient_self_right (p q : Point K) : orient p q q = 0 := by
  unfold orient
  ring

@[simp] theorem orient_self_outer (p q : Point K) : orient p q p = 0 := by
  unfold orient
  ring

theorem orient_swap (p q r : Point K) : orient p r q = -orient p q r := by
  unfold orient
  ring

theorem orient_swap_left (p q r : Point K) : orient p q r = -orient q p r := by
  unfold orient
  ring

theorem orient_rotate (p q r : Point K) : orient q r p = orient p q r := by
  unfold orient
  ring

/-- Seen from `b`, the point `q` is `p` stretched by a factor. -/
def OnRay (b p q : Point K) (factor : K) : Prop :=
  q.x - b.x = factor * (p.x - b.x) ∧ q.y - b.y = factor * (p.y - b.y)

variable {b p q : Point K} {factor : K}

theorem OnRay.sqDist_eq (h : OnRay b p q factor) : sqDist b q = factor ^ 2 * sqDist b p := by
  unfold sqDist
  rw [h.1, h.2]
  ring

/-- The turn at a point of the ray. -/
theorem OnRay.orient_eq (h : OnRay b p q factor) (r : Point K) :
    orient p q r = (factor - 1) * orient b p r := by
  unfold orient
  linear_combination (r.y - p.y) * h.1 - (r.x - p.x) * h.2

theorem OnRay.orient_base (h : OnRay b p q factor) (r : Point K) :
    orient b q r = factor * orient b p r := by
  unfold orient
  linear_combination (r.y - b.y) * h.1 - (r.x - b.x) * h.2

end Turn

variable [Field K] [LinearOrder K]

/-- The order by the angle around `b`, then by the distance from it. -/
def Before (b p q : Point K) : Prop :=
  0 < orient b p q ∨ orient b p q = 0 ∧ sqDist b p < sqDist b q

theorem Before.nonneg {b p q : Point K} (h : Before b p q) : 0 ≤ orient b p q := by
  rcases h with h | ⟨h, -⟩
  · exact h.le
  · exact h.ge

section Front

variable [IsStrictOrderedRing K] {b p q r : Point K}

/-- Turns around a corner compose, when all points are in front of it. -/
theorem orient_trans (hp : Less b p) (hq : Less b q) (hr : Less b r) (hpq : 0 ≤ orient b p q)
    (hqr : 0 ≤ orient b q r) : 0 ≤ orient b p r := by
  have hx : (q.x - b.x) * orient b p r =
      (p.x - b.x) * orient b q r + (r.x - b.x) * orient b p q := by
    unfold orient
    ring
  have hp' : 0 ≤ p.x - b.x := sub_nonneg.mpr hp.le_x
  have hr' : 0 ≤ r.x - b.x := sub_nonneg.mpr hr.le_x
  rcases hq with hq | ⟨hq, hqy⟩
  · have hq' : 0 < q.x - b.x := sub_pos.mpr hq
    refine nonneg_of_mul_nonneg_right ?_ hq'
    rw [hx]
    exact add_nonneg (mul_nonneg hp' hqr) (mul_nonneg hr' hpq)
  · -- `q` is straight above the corner, so `r` is as well
    have hturn : orient b q r = -((q.y - b.y) * (r.x - b.x)) := by
      unfold orient
      rw [← hq]
      ring
    rw [hturn, neg_nonneg] at hqr
    have hrx : r.x - b.x = 0 :=
      le_antisymm (nonpos_of_mul_nonpos_right hqr (sub_pos.mpr hqy)) hr'
    have hry : b.y < r.y := by
      rcases hr with hr | ⟨-, hr⟩
      · exact absurd hrx (sub_pos.mpr hr).ne'
      · exact hr
    have hfinal : orient b p r = (p.x - b.x) * (r.y - b.y) := by
      unfold orient
      rw [hrx]
      ring
    rw [hfinal]
    exact mul_nonneg hp' (sub_pos.mpr hry).le

/-- The same behind a corner. -/
theorem orient_trans_behind (hp : Less p b) (hq : Less q b) (hr : Less r b)
    (hpq : 0 ≤ orient b p q) (hqr : 0 ≤ orient b q r) : 0 ≤ orient b p r := by
  let mirror : Point K → Point K := fun p => ⟨2 * b.x - p.x, 2 * b.y - p.y⟩
  have hfront : ∀ {p : Point K}, Less p b → Less b (mirror p) := by
    rintro p (hp | ⟨hp, hpy⟩)
    · left
      linarith
    · right
      exact ⟨by linarith, by linarith⟩
  have hturn : ∀ p q : Point K, orient b (mirror p) (mirror q) = orient b p q := by
    intro p q
    simp only [orient, mirror]
    ring
  rw [← hturn] at hpq hqr ⊢
  exact orient_trans (hfront hp) (hfront hq) (hfront hr) hpq hqr

/-- Points in front of the corner that make no turn around it are on one ray. -/
theorem exists_onRay (hp : Less b p) (hq : Less b q) (hpq : orient b p q = 0) :
    ∃ factor, 0 < factor ∧ OnRay b p q factor := by
  unfold orient at hpq
  rcases hp with hp | ⟨hp, hpy⟩
  · have hp' : 0 < p.x - b.x := sub_pos.mpr hp
    have hq' : 0 < q.x - b.x := by
      rcases hq with hq | ⟨hq, hqy⟩
      · exact sub_pos.mpr hq
      · exfalso
        rw [← hq, sub_self, mul_zero, sub_zero] at hpq
        exact (mul_pos hp' (sub_pos.mpr hqy)).ne' hpq
    refine ⟨(q.x - b.x) / (p.x - b.x), div_pos hq' hp', ?_, ?_⟩
    · rw [div_mul_cancel₀ _ hp'.ne']
    · rw [div_mul_eq_mul_div, eq_div_iff hp'.ne']
      linear_combination hpq
  · have hpy' : 0 < p.y - b.y := sub_pos.mpr hpy
    have hqx : q.x - b.x = 0 := by
      rw [← hp, sub_self, zero_mul, zero_sub, neg_eq_zero] at hpq
      exact (mul_eq_zero.mp hpq).resolve_left hpy'.ne'
    have hqy : 0 < q.y - b.y := by
      rcases hq with hq | ⟨-, hqy⟩
      · exact absurd hqx (sub_pos.mpr hq).ne'
      · exact sub_pos.mpr hqy
    refine ⟨(q.y - b.y) / (p.y - b.y), div_pos hqy hpy', ?_, ?_⟩
    · rw [hqx, ← hp, sub_self, mul_zero]
    · rw [div_mul_cancel₀ _ hpy'.ne']

theorem sqDist_pos (hp : Less b p) : 0 < sqDist b p := by
  unfold sqDist
  rcases hp with hp | ⟨-, hp⟩
  · positivity
  · positivity

/-- On one ray the farther point comes later. -/
theorem OnRay.one_lt_iff {factor : K} (h : OnRay b p q factor) (hfactor : 0 < factor)
    (hp : Less b p) : sqDist b p < sqDist b q ↔ 1 < factor := by
  rw [h.sqDist_eq, lt_mul_iff_one_lt_left (sqDist_pos hp), one_lt_sq_iff₀ hfactor.le]

theorem before_base (hp : Less b p) : Before b b p := by
  refine .inr ⟨orient_self_left b p, ?_⟩
  have hzero : sqDist b b = 0 := by
    unfold sqDist
    ring
  rw [hzero]
  exact sqDist_pos hp

theorem not_before_base (b p : Point K) : ¬ Before b p b := by
  rintro (h | ⟨-, h⟩)
  · rw [orient_self_outer] at h
    exact lt_irrefl _ h
  · unfold sqDist at h
    nlinarith [sq_nonneg (p.x - b.x), sq_nonneg (p.y - b.y)]

/-- Two points in front of the corner, or the corner itself. -/
theorem before_trichotomy (hp : p = b ∨ Less b p) (hq : q = b ∨ Less b q) :
    Before b p q ∨ p = q ∨ Before b q p := by
  rcases hp with rfl | hp
  · rcases hq with rfl | hq
    · exact .inr (.inl rfl)
    · exact .inl (before_base hq)
  · rcases hq with rfl | hq
    · exact .inr (.inr (before_base hp))
    · rcases lt_trichotomy (orient b p q) 0 with hturn | hturn | hturn
      · right; right; left
        rw [orient_swap]
        exact neg_pos.mpr hturn
      · obtain ⟨factor, hfactor, hray⟩ := exists_onRay hp hq hturn
        rcases lt_trichotomy (sqDist b p) (sqDist b q) with hdist | hdist | hdist
        · exact .inl (.inr ⟨hturn, hdist⟩)
        · right; left
          rw [hray.sqDist_eq, eq_comm, mul_eq_right₀ (sqDist_pos hp).ne',
            pow_eq_one_iff_of_nonneg hfactor.le two_ne_zero] at hdist
          have hx := hray.1
          have hy := hray.2
          rw [hdist, one_mul, sub_left_inj] at hx hy
          exact Point.ext hx.symm hy.symm
        · right; right; right
          rw [orient_swap, hturn, neg_zero]
          exact ⟨rfl, hdist⟩
      · exact .inl (.inl hturn)

/-- A point before `q` on its ray is nearer. -/
theorem Before.exists_onRay_lt (h : Before b p q) (hp : p = b ∨ Less b p) (hq : Less b q)
    (hturn : orient b p q = 0) : ∃ factor < 1, OnRay b q p factor := by
  rcases hp with rfl | hp
  · refine ⟨0, one_pos, ?_, ?_⟩
    · rw [sub_self, zero_mul]
    · rw [sub_self, zero_mul]
  · have hturn' : orient b q p = 0 := by rw [orient_swap, hturn, neg_zero]
    obtain ⟨factor, hfactor, hray⟩ := exists_onRay hq hp hturn'
    refine ⟨factor, ?_, hray⟩
    rcases h with h | ⟨-, hdist⟩
    · exact absurd hturn h.ne'
    · rw [hray.sqDist_eq, mul_lt_iff_lt_one_left (sqDist_pos hq)] at hdist
      exact (sq_lt_one_iff₀ hfactor.le).mp hdist

/-- A point after `p` on its ray is farther. -/
theorem Before.exists_onRay_gt (h : Before b p q) (hp : Less b p) (hq : Less b q)
    (hturn : orient b p q = 0) : ∃ factor, 1 < factor ∧ OnRay b p q factor := by
  obtain ⟨factor, hfactor, hray⟩ := exists_onRay hp hq hturn
  refine ⟨factor, ?_, hray⟩
  rcases h with h | ⟨-, hdist⟩
  · exact absurd hturn h.ne'
  · exact (hray.one_lt_iff hfactor hp).mp hdist

theorem Before.trans (hpq : Before b p q) (hqr : Before b q r) (hp : Less b p) (hq : Less b q)
    (hr : Less b r) : Before b p r := by
  rcases (orient_trans hp hq hr hpq.nonneg hqr.nonneg).lt_or_eq with hturn | hturn
  · exact .inl hturn
  · -- all three are on one ray
    obtain ⟨factor, hfactor, hray⟩ := exists_onRay hp hr hturn.symm
    have hback : orient b q r = -(factor * orient b p q) := by
      rw [orient_swap, hray.orient_base]
    have hzero : orient b p q = 0 := by
      have hnonneg := hqr.nonneg
      rw [hback, neg_nonneg] at hnonneg
      exact le_antisymm (nonpos_of_mul_nonpos_right hnonneg hfactor) hpq.nonneg
    rw [hzero, mul_zero, neg_zero] at hback
    rcases hpq with hpq | ⟨-, hpq⟩
    · exact absurd hzero hpq.ne'
    · rcases hqr with hqr | ⟨-, hqr⟩
      · exact absurd hback hqr.ne'
      · exact .inr ⟨hturn.symm, hpq.trans hqr⟩

theorem Before.asymm (h : Before b p q) : ¬ Before b q p := by
  rintro (h' | ⟨h', hdist'⟩)
  · rw [orient_swap] at h'
    have := h.nonneg
    linarith
  · rcases h with h | ⟨-, hdist⟩
    · rw [orient_swap] at h'
      linarith
    · exact lt_asymm hdist hdist'

end Front

end AdDelivery.Plane
