import AdDelivery.Core.HullStack

/-!
# The upper hull

A boundary that has been scanned around the leftmost and lowest point rises to the greatest point
and then runs back to the left. The part that runs back is the upper hull. It starts at the last
point scanned, so the edge from the corner to that point belongs in front of it, and an edge from an
origin that lies to the left of all points.
-/

namespace AdDelivery.Plane

open List LeftBoundary

variable {K : Type*} [Field K] [LinearOrder K]

/-- The height of the line through `u` and `v`. -/
def heightAt (u v : Point K) (x : K) : K := u.y + (v.y - u.y) * (x - u.x) / (v.x - u.x)

/-- A polyline from the origin over some of the points that no point is above. -/
structure UpperHull (o : Point K) (points : Set (Point K)) (chain : List (Point K)) : Prop where
  origin : chain.head? = some o
  ascending : chain.Pairwise fun u v => u.x < v.x
  sub : ∀ p ∈ chain, p = o ∨ p ∈ points
  leftmost : ∀ p ∈ points, (∀ q ∈ points, p.x < q.x ∨ p.x = q.x ∧ q.y ≤ p.y) → p ∈ chain
  rightmost : ∀ p ∈ points, (∀ q ∈ points, q.x < p.x ∨ q.x = p.x ∧ q.y ≤ p.y) → p ∈ chain
  below : ∀ p ∈ points, ∃ u v, [u, v] <:+: chain ∧ u.x ≤ p.x ∧ p.x ≤ v.x ∧ p.y ≤ heightAt u v p.x

section WayBack

omit [Field K] in
/-- Behind a boundary that starts to the left of a point and ends to its right there is an edge. -/
theorem exists_edge {x : K} {u : Point K} {chain : List (Point K)} (hchain : chain ≠ [])
    (hleft : u.x ≤ x) (hright : ∀ m, chain.getLast? = some m → x ≤ m.x) :
    ∃ s t, [s, t] <:+: u :: chain ∧ s.x ≤ x ∧ x ≤ t.x := by
  induction chain generalizing u with
  | nil => exact absurd rfl hchain
  | cons v chain ih =>
    by_cases hv : x ≤ v.x
    · exact ⟨u, v, ⟨[], chain, rfl⟩, hleft, hv⟩
    · cases chain with
      | nil => exact absurd (hright v rfl) hv
      | cons w chain =>
        have hv' : v.x ≤ x := (not_le.mp hv).le
        rw [getLast?_cons_cons] at hright
        obtain ⟨s, t, hst, hs, ht⟩ := ih (cons_ne_nil w chain) hv' hright
        exact ⟨s, t, hst.trans (suffix_cons u _).isInfix, hs, ht⟩

omit [Field K] [LinearOrder K] in
theorem rel_of_edge {R : Point K → Point K → Prop} {chain : List (Point K)} {u v : Point K}
    (h : chain.IsChain R) (huv : [u, v] <:+: chain) : R u v := by
  obtain ⟨before, after, rfl⟩ := huv
  exact isChain_pair.mp h.left_of_append.right_of_append

variable {chain : List (Point K)}

/-- Where a boundary has come to run to the left, it goes on to the left. -/
def TurnsBackOnce (chain : List (Point K)) : Prop :=
  (∀ s t, [s, t] <:+: chain → ¬ Less s t → t.x < s.x) ∧
    ∀ a s t, [a, s, t] <:+: chain → s.x < a.x → t.x < s.x

omit [Field K] in
theorem TurnsBackOnce.of_cons {p : Point K} (h : TurnsBackOnce (p :: chain)) :
    TurnsBackOnce chain where
  left := fun s t hst => h.1 s t (hst.trans (suffix_cons p chain).isInfix)
  right := fun a s t hast => h.2 a s t (hast.trans (suffix_cons p chain).isInfix)

omit [Field K] in
/-- Behind a first step to the left there are only such steps. -/
theorem TurnsBackOnce.descending {p q : Point K} (h : TurnsBackOnce (p :: q :: chain))
    (hfall : q.x < p.x) : (p :: q :: chain).IsChain fun s t => t.x < s.x := by
  induction chain generalizing p q with
  | nil => exact isChain_pair.mpr hfall
  | cons r chain ih =>
    refine isChain_cons_cons.mpr ⟨hfall, ih h.of_cons ?_⟩
    exact h.2 p q r ⟨[], chain, rfl⟩ hfall

variable {b : Point K} {met : Set (Point K)} {stack : List (Point K)}

theorem LeftBoundary.of_suffix {above : List (Point K)} {c : Point K}
    (h : LeftBoundary b met (above ++ c :: stack)) : LeftBoundary b met (c :: stack) := by
  induction above with
  | nil => exact h
  | cons t above ih =>
    refine ih ?_
    cases above with
    | nil => exact tail h
    | cons s above => exact tail h

variable [IsStrictOrderedRing K]

theorem LeftBoundary.turnsBackOnce (h : LeftBoundary b met stack) :
    TurnsBackOnce stack.reverse := by
  constructor
  · rintro s t hst hfall
    rw [← reverse_infix, reverse_reverse] at hst
    obtain ⟨above, rest, rfl⟩ := hst
    rw [append_assoc] at h
    have hsuffix : LeftBoundary b met (t :: s :: rest) := of_suffix h
    exact hsuffix.x_lt_of_not_less hfall
  · rintro a s t hast hfall
    rw [← reverse_infix, reverse_reverse] at hast
    obtain ⟨above, rest, rfl⟩ := hast
    rw [append_assoc] at h
    have hsuffix : LeftBoundary b met (t :: s :: a :: rest) := of_suffix h
    exact hsuffix.x_lt_of_x_lt hfall

end WayBack

section Chain

variable {K : Type*} [LinearOrder K]

/-- The point the upper hull starts with: the last one scanned if it is straight above the
corner. -/
def upperStart (b top : Point K) : Point K := if b.x = top.x then top else b

/-- The corner, in front of the upper hull if that does not start straight above it. -/
def cornerPoint (b top : Point K) : List (Point K) := if b.x = top.x then [] else [b]

/-- The origin, the corner and the part of the stack down to the greatest point. -/
def upperChain (o b top : Point K) (upper : List (Point K)) : List (Point K) :=
  o :: (cornerPoint b top ++ top :: upper)

theorem head?_cornerPoint (b top : Point K) (upper : List (Point K)) :
    (cornerPoint b top ++ top :: upper).head? = some (upperStart b top) := by
  unfold cornerPoint upperStart
  split
  · rfl
  · rfl

theorem upperStart_x (b top : Point K) : (upperStart b top).x = b.x := by
  unfold upperStart
  split
  · rename_i htop
    exact htop.symm
  · rfl

theorem getLast?_upperChain (o b top : Point K) (upper : List (Point K)) :
    (upperChain o b top upper).getLast? = (top :: upper).getLast? := by
  unfold upperChain
  rw [← cons_append, getLast?_append_cons]

end Chain

section Above

variable {o b top p : Point K} {met : Set (Point K)} {stack upper lower : List (Point K)}

theorem HullStack.mem_corner (h : HullStack b met stack) : b ∈ met :=
  h.sub b (mem_of_getLast? h.bottom)

theorem HullStack.corner_le (h : HullStack b met stack) (hp : p ∈ met) : b.x ≤ p.x := by
  rcases h.front p hp with rfl | hless
  · exact le_rfl
  · exact hless.le_x

theorem HullStack.corner_le_y (h : HullStack b met stack) (hp : p ∈ met) (hx : p.x = b.x) :
    b.y ≤ p.y := by
  rcases h.front p hp with rfl | hless | ⟨-, hy⟩
  · exact le_rfl
  · exact absurd hx hless.ne'
  · exact hy.le

theorem HullStack.orient_top (h : HullStack b met (top :: stack)) (hp : p ∈ met) :
    0 ≤ orient b p top := by
  rcases h.top top rfl p hp with rfl | hbefore
  · exact (orient_self_right b p).ge
  · exact hbefore.nonneg

theorem HullStack.mem_of_mem_upper (h : HullStack b met (top :: upper ++ lower))
    (hp : p ∈ cornerPoint b top ++ top :: upper) : p ∈ met := by
  rcases mem_append.mp hp with hp | hp
  · unfold cornerPoint at hp
    split at hp
    · cases hp
    · rw [mem_singleton.mp hp]
      exact h.mem_corner
  · exact h.sub p (mem_append_left lower hp)

theorem HullStack.ascending (h : HullStack b met (top :: upper ++ lower))
    (ho : ∀ r ∈ met, o.x < r.x) (hupper : (top :: upper).Pairwise fun u v => u.x < v.x) :
    (upperChain o b top upper).Pairwise fun u v => u.x < v.x := by
  refine pairwise_cons.mpr ⟨fun v hv => ho v (h.mem_of_mem_upper hv), ?_⟩
  unfold cornerPoint
  split
  · exact hupper
  · rename_i htop
    have htop' : b.x < top.x := (h.corner_le (h.sub top mem_cons_self)).lt_of_ne htop
    refine pairwise_cons.mpr ⟨fun v hv => ?_, hupper⟩
    rcases mem_cons.mp hv with rfl | hv
    · exact htop'
    · exact htop'.trans (rel_of_pairwise_cons hupper hv)

variable [IsStrictOrderedRing K]

/-- Nothing is above the start. -/
theorem HullStack.le_upperStart (h : HullStack b met (top :: stack)) (hp : p ∈ met)
    (hx : p.x = b.x) : p.y ≤ (upperStart b top).y := by
  unfold upperStart
  split
  · rename_i htop
    rcases h.top top rfl p hp with rfl | hturn | ⟨-, hdist⟩
    · exact le_rfl
    · unfold orient at hturn
      rw [hx, htop, sub_self, zero_mul, mul_zero, sub_zero] at hturn
      exact absurd hturn (lt_irrefl 0)
    · unfold sqDist at hdist
      rw [hx, htop] at hdist
      have hsq : (p.y - b.y) ^ 2 < (top.y - b.y) ^ 2 := by linarith
      have htopy : b.y ≤ top.y := h.corner_le_y (h.sub top mem_cons_self) htop.symm
      have hlt := lt_of_pow_lt_pow_left₀ 2 (sub_nonneg.mpr htopy) hsq
      linarith
  · rename_i htop
    by_contra hy
    have hy' : 0 < p.y - b.y := sub_pos.mpr (not_le.mp hy)
    have htopx : 0 < top.x - b.x :=
      sub_pos.mpr ((h.corner_le (h.sub top mem_cons_self)).lt_of_ne htop)
    have hturn : orient b p top = -((p.y - b.y) * (top.x - b.x)) := by
      unfold orient
      rw [hx]
      ring
    have hnonneg := h.orient_top hp
    have hpos := mul_pos hy' htopx
    linarith

/-- No point is above an edge that it does not lie behind. -/
theorem HullStack.edges (h : HullStack b met (top :: upper ++ lower)) (ho : ∀ r ∈ met, o.x < r.x) :
    (upperChain o b top upper).IsChain fun u v => ∀ r ∈ met, r.x ≤ v.x → orient u v r ≤ 0 := by
  have hupper : (top :: upper).IsChain fun u v => ∀ r ∈ met, r.x ≤ v.x → orient u v r ≤ 0 := by
    refine h.left.left_of_append.imp fun u v hleft r hr _ => ?_
    rw [orient_swap_left]
    exact neg_nonpos.mpr (hleft r hr)
  have hcorner : (cornerPoint b top ++ top :: upper).IsChain
      fun u v => ∀ r ∈ met, r.x ≤ v.x → orient u v r ≤ 0 := by
    unfold cornerPoint
    split
    · exact hupper
    · refine isChain_cons_cons.mpr ⟨fun r hr _ => ?_, hupper⟩
      rw [orient_swap]
      exact neg_nonpos.mpr (h.orient_top hr)
  refine hcorner.cons fun v hv r hr hx => ?_
  rw [head?_cornerPoint, Option.mem_some_iff] at hv
  subst hv
  -- `r` can only lie at the end of this edge
  rw [upperStart_x] at hx
  have hrx : r.x = b.x := le_antisymm hx (h.corner_le hr)
  have hy := h.le_upperStart hr hrx
  have hturn : orient o (upperStart b top) r =
      -((b.x - o.x) * ((upperStart b top).y - r.y)) := by
    unfold orient
    rw [upperStart_x, hrx]
    ring
  rw [hturn, neg_nonpos]
  exact mul_nonneg (sub_pos.mpr (ho b h.mem_corner)).le (sub_nonneg.mpr hy)

theorem le_heightAt {u v r : Point K} (huv : u.x < v.x) (hturn : orient u v r ≤ 0) :
    r.y ≤ heightAt u v r.x := by
  unfold heightAt
  unfold orient at hturn
  rw [← sub_le_iff_le_add', le_div_iff₀ (sub_pos.mpr huv)]
  linarith

section

variable (h : HullStack b met (top :: upper ++ lower))
include h

theorem HullStack.leftmost_mem (hp : p ∈ met)
    (hleft : ∀ q ∈ met, p.x < q.x ∨ p.x = q.x ∧ q.y ≤ p.y) : p ∈ upperChain o b top upper := by
  have hstart : upperStart b top ∈ cornerPoint b top ++ top :: upper :=
    mem_of_head? (head?_cornerPoint b top upper)
  have hp' : p = upperStart b top := by
    rcases hleft _ (h.mem_of_mem_upper hstart) with hx | ⟨hx, hy⟩
    · rw [upperStart_x] at hx
      exact absurd hx (not_lt.mpr (h.corner_le hp))
    · refine Point.ext hx (le_antisymm (h.le_upperStart hp ?_) hy)
      rw [hx, upperStart_x]
  rw [hp']
  exact mem_cons_of_mem o hstart

theorem HullStack.exists_below (ho : ∀ r ∈ met, o.x < r.x)
    (hupper : (top :: upper).Pairwise fun u v => u.x < v.x)
    (hgreatest : ∀ m, (top :: upper).getLast? = some m → ∀ r ∈ met, r = m ∨ Less r m)
    (hp : p ∈ met) : ∃ u v, [u, v] <:+: upperChain o b top upper ∧ u.x ≤ p.x ∧ p.x ≤ v.x ∧
      p.y ≤ heightAt u v p.x := by
  have hne : cornerPoint b top ++ top :: upper ≠ [] := append_ne_nil_of_right_ne_nil _ nofun
  obtain ⟨u, v, huv, hu, hv⟩ := exists_edge hne (ho p hp).le fun m hm => by
    rw [getLast?_append_cons] at hm
    rcases hgreatest m hm p hp with rfl | hless
    · exact le_rfl
    · exact hless.le_x
  have hturn := rel_of_edge (h.edges ho) huv
  have hlt := rel_of_edge (h.ascending ho hupper).isChain huv
  exact ⟨u, v, huv, hu, hv, le_heightAt hlt (hturn p hp hv)⟩

/-- The upper hull of all points met, under which they lie. -/
theorem HullStack.upperHull (ho : ∀ r ∈ met, o.x < r.x)
    (hupper : (top :: upper).Pairwise fun u v => u.x < v.x)
    (hgreatest : ∀ m, (top :: upper).getLast? = some m → ∀ r ∈ met, r = m ∨ Less r m) :
    UpperHull o met (upperChain o b top upper) where
  origin := rfl
  ascending := h.ascending ho hupper
  sub := by
    intro p hp
    rcases mem_cons.mp hp with rfl | hp
    · exact .inl rfl
    · exact .inr (h.mem_of_mem_upper hp)
  leftmost := fun p hp hleft => h.leftmost_mem hp hleft
  rightmost := by
    intro p hp hright
    have hlast : (upperChain o b top upper).getLast? =
        some ((top :: upper).getLast (cons_ne_nil top upper)) := by
      rw [getLast?_upperChain, getLast?_eq_some_getLast]
    have hm := mem_of_getLast? hlast
    have hmet := h.sub _
      (mem_append_left lower (getLast_mem (cons_ne_nil top upper)))
    rcases hgreatest _ (getLast?_eq_some_getLast _) p hp with heq | hless
    · rwa [heq]
    · rcases hless with hless | ⟨hx, hy⟩
      · rcases hright _ hmet with hx | ⟨hx, -⟩
        · exact absurd hx hless.asymm
        · exact absurd hx hless.ne'
      · rcases hright _ hmet with hx' | ⟨-, hy'⟩
        · exact absurd hx hx'.ne'
        · exact absurd hy' (not_le.mpr hy)
  below := fun p hp => h.exists_below ho hupper hgreatest hp

end

end Above

end AdDelivery.Plane
