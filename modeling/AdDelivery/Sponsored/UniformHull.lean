import AdDelivery.Core.UpperHull
import AdDelivery.Sponsored.UniformBid

/-!
# The hull of the landscape

The predicates of the scan are those of the plane, so the stack of the scan is the boundary of the
points met, and the greatest point stays on it. Walking along the boundary as long as it rises ends
at that point, and what is behind it is the upper hull backwards.
-/

namespace AdDelivery.Sponsored

open List Table
open Plane

section UniformHull

theorem pointLess_iff {p q : CostPoint} : pointLess p q = true ↔ Less p q := by
  unfold pointLess Less
  rw [Bool.or_eq_true, Bool.and_eq_true, decide_eq_true_iff, decide_eq_true_iff, beq_iff_eq,
    sub_eq_zero]

variable (p0 p1 p2 : CostPoint)

/-- The direction of the turn is the sign of the orientation. -/
theorem turnDirection_eq : turnDirection p0 p1 p2 =
      if 0 < orient p0 p1 p2 then 1 else if orient p0 p1 p2 < 0 then -1 else 0 := by
  have htmp : (p2.x - p0.x) * (p1.y - p0.y) - (p2.y - p0.y) * (p1.x - p0.x) =
      -orient p0 p1 p2 := by
    unfold orient
    ring
  simp only [turnDirection, htmp, neg_lt_zero, neg_pos]

theorem turnDirection_neg_iff : turnDirection p0 p1 p2 < 0 ↔ orient p0 p1 p2 < 0 := by
  rw [turnDirection_eq]
  split_ifs with hleft hright
  · exact iff_of_false (by decide) hleft.asymm
  · exact iff_of_true (by decide) hright
  · exact iff_of_false (by decide) hright

theorem turnDirection_pos_iff : 0 < turnDirection p0 p1 p2 ↔ 0 < orient p0 p1 p2 := by
  rw [turnDirection_eq]
  split_ifs with hleft hright
  · exact iff_of_true (by decide) hleft
  · exact iff_of_false (by decide) hleft
  · exact iff_of_false (by decide) hleft

theorem anglePredicate_iff {base p q : CostPoint} :
    anglePredicate base p q = true ↔ Before base p q := by
  have hdist : ∀ r : CostPoint, (r.x - base.x) * (r.x - base.x) + (r.y - base.y) * (r.y - base.y) =
      sqDist base r := by
    intro r
    unfold sqDist
    ring
  have hzero : turnDirection base p q = 0 ↔ orient base p q = 0 := by
    rw [le_antisymm_iff, le_antisymm_iff, ← not_lt, ← not_lt, ← not_lt, ← not_lt,
      turnDirection_pos_iff, turnDirection_neg_iff]
  unfold anglePredicate Before
  simp only [hdist, Bool.or_eq_true, Bool.and_eq_true, decide_eq_true_iff, beq_iff_eq,
    turnDirection_pos_iff, hzero]

theorem climb_spec {ch : List CostPoint} (hne : ch ≠ []) (h : TurnsBackOnce ch) :
    ∃ m back, ch.drop (climb ch) = m :: back ∧ (m :: back).Pairwise (fun s t => t.x < s.x) ∧
      ∀ p ∈ ch, p = m ∨ Less p m := by
  induction ch with
  | nil => exact absurd rfl hne
  | cons p ch ih =>
    cases ch with
    | nil =>
      refine ⟨p, [], rfl, pairwise_singleton _ p, fun r hr => ?_⟩
      exact .inl (mem_singleton.mp hr)
    | cons q ch =>
      by_cases hrise : pointLess p q = true
      · obtain ⟨m, back, hdrop, hback, hgreatest⟩ := ih (cons_ne_nil q ch) h.of_cons
        refine ⟨m, back, ?_, hback, fun r hr => ?_⟩
        · rw [climb, if_pos hrise]
          exact hdrop
        · rcases mem_cons.mp hr with rfl | hr
          · right
            rcases hgreatest q mem_cons_self with rfl | hless
            · exact pointLess_iff.mp hrise
            · exact (pointLess_iff.mp hrise).trans hless
          · exact hgreatest r hr
      · have hfall : q.x < p.x := h.1 p q ⟨[], ch, rfl⟩ (mt pointLess_iff.mpr hrise)
        have hback : (p :: q :: ch).Pairwise fun s t => t.x < s.x := by
          exact isChain_iff_pairwise.mp (h.descending hfall)
        refine ⟨p, q :: ch, ?_, hback, fun r hr => ?_⟩
        · rw [climb, if_neg hrise, drop_zero]
        · rcases mem_cons.mp hr with rfl | hr
          · exact .inl rfl
          · exact .inr (.inl (rel_of_pairwise_cons hback hr))

section AroundBase

variable {base : CostPoint}

/-- The order of points in front of the base, which the predicate makes total. -/
abbrev NotAfter (base : CostPoint) (p q : {p : CostPoint // Less base p}) : Prop :=
  ¬ Before base q.1 p.1

instance : Std.Total (NotAfter base) where
  total p q := by
    by_cases hqp : Before base q.1 p.1
    · exact .inr hqp.asymm
    · exact .inl hqp

instance : IsTrans {p : CostPoint // Less base p} (NotAfter base) where
  trans p q r hqp hrq hrp := by
    rcases before_trichotomy (.inr q.2) (.inr p.2) with hlt | heq | hlt
    · exact hqp hlt
    · exact hrq (heq ▸ hrp)
    · exact hrq (hrp.trans hlt r.2 p.2 q.2)

theorem perm_sortAround (base : CostPoint) (points : List CostPoint) :
    (sortAround base points).Perm points :=
  perm_insertionSort _ points

/-- Different points in front of the base are sorted by the angle around it. -/
theorem pairwise_sortAround {points : List CostPoint} (hfront : ∀ p ∈ points, Less base p)
    (hnodup : points.Nodup) : (sortAround base points).Pairwise (Before base) := by
  classical
  have hsort : sortAround base points =
      ((points.attachWith (Less base) hfront).insertionSort (NotAfter base)).map Subtype.val := by
    rw [map_insertionSort (NotAfter base) (fun p q => !anglePredicate base q p)]
    · rw [attachWith_map_subtype_val]
      rfl
    · intro p _ q _
      rw [Bool.not_eq_true', ← Bool.not_eq_true, anglePredicate_iff]
  have hnotAfter : (sortAround base points).Pairwise fun p q => ¬ Before base q p := by
    rw [hsort, pairwise_map]
    exact pairwise_insertionSort (NotAfter base) _
  have hne := (perm_sortAround base points).nodup_iff.mpr hnodup
  refine (hnotAfter.and hne).imp_of_mem fun hp hq h => ?_
  have hpfront := hfront _ ((perm_sortAround base points).mem_iff.mp hp)
  have hqfront := hfront _ ((perm_sortAround base points).mem_iff.mp hq)
  rcases before_trichotomy (.inr hpfront) (.inr hqfront) with hlt | heq | hlt
  · exact hlt
  · exact absurd heq h.2
  · exact absurd hlt h.1

end AroundBase

/-- The stack of the scan, from which the greatest point is never popped. -/
structure Scanned (b : CostPoint) (met : Set CostPoint) (stack : List CostPoint) : Prop extends
    HullStack b met stack where
  greatest : ∀ m ∈ met, (∀ p ∈ met, ¬ Less m p) → m ∈ stack

section Scan

variable {b q m : CostPoint} {met : Set CostPoint} {stack : List CostPoint}

/-- What is left on the stack ends at a boundary that can be extended. -/
theorem popping_popRightTurns (h : Popping b met q stack) :
    HullStack b (insert q met) (q :: popRightTurns q stack) := by
  fun_induction popRightTurns q stack with
  | case1 p1 p0 ch hturn ih => exact ih (h.pop ((turnDirection_neg_iff p0 p1 q).mp hturn))
  | case2 p1 p0 ch hturn =>
    refine h.push fun a ha => ?_
    obtain rfl := Option.some.inj ha
    exact not_lt.mp (mt (turnDirection_neg_iff p0 p1 q).mpr hturn)
  | case3 ch hshort =>
    cases ch with
    | nil => exact absurd h.bottom nofun
    | cons c rest =>
      cases rest with
      | nil => exact h.push nofun
      | cons a rest => exact absurd rfl (hshort c a rest)

theorem mem_popRightTurns (h : Popping b met q stack) (hgreatest : ∀ p ∈ insert q met, ¬ Less m p)
    (hm : m ∈ stack) : m ∈ popRightTurns q stack := by
  fun_induction popRightTurns q stack with
  | case1 p1 p0 ch hturn ih =>
    have hright := (turnDirection_neg_iff p0 p1 q).mp hturn
    refine ih (h.pop hright) ?_
    rcases mem_cons.mp hm with rfl | hm
    · obtain ⟨p, hp, hless⟩ := h.exists_less hright
      exact absurd hless (hgreatest p hp)
    · exact hm
  | case2 p1 p0 ch hturn => exact hm
  | case3 ch hshort => exact hm

theorem Scanned.push (h : Scanned b met stack) (hq : Less b q) (hlast : ∀ p ∈ met, Before b p q) :
    Scanned b (insert q met) (q :: popRightTurns q stack) where
  toHullStack := popping_popRightTurns (h.popping hq hlast)
  greatest := by
    rintro m (rfl | hm) hgreatest
    · exact mem_cons_self
    · refine mem_cons_of_mem q (mem_popRightTurns (h.popping hq hlast) hgreatest ?_)
      exact h.greatest m hm fun p hp => hgreatest p (Set.mem_insert_of_mem q hp)

theorem Scanned.foldl (h : Scanned b met stack) {points : List CostPoint}
    (hfront : ∀ p ∈ points, Less b p) (hsorted : points.Pairwise (Before b))
    (hlast : ∀ p ∈ met, ∀ q ∈ points, Before b p q) : Scanned b (met ∪ {p | p ∈ points})
      (points.foldl (fun ch next => next :: popRightTurns next ch) stack) := by
  induction points generalizing met stack with
  | nil =>
    have hmet : met ∪ {p | p ∈ ([] : List CostPoint)} = met := by
      ext p
      simp
    rw [hmet]
    exact h
  | cons q points ih =>
    have hmet : met ∪ {p | p ∈ q :: points} = insert q met ∪ {p | p ∈ points} := by
      ext p
      simp only [Set.mem_union, Set.mem_ofPred_eq, mem_cons, Set.mem_insert_iff]
      tauto
    rw [hmet]
    refine ih (h.push (hfront q mem_cons_self) fun p hp => hlast p hp q mem_cons_self)
      (fun p hp => hfront p (mem_cons_of_mem q hp)) hsorted.of_cons ?_
    rintro p (rfl | hp) r hr
    · exact rel_of_pairwise_cons hsorted hr
    · exact hlast p hp r (mem_cons_of_mem q hr)

theorem grahamScan_cons (b : CostPoint) (points : List CostPoint) : grahamScan (b :: points) =
      points.foldl (fun ch next => next :: popRightTurns next ch) [b] := by
  cases points with
  | nil => rfl
  | cons p points => rfl

/-- The scan of points that are sorted around the base. -/
theorem scanned_grahamScan {points : List CostPoint} (hfront : ∀ p ∈ points, Less b p)
    (hsorted : points.Pairwise (Before b)) :
    Scanned b {p | p ∈ b :: points} (grahamScan (b :: points)) := by
  have hstart : Scanned b {b} [b] :=
    { toHullStack := hullStack_singleton b
      greatest := fun m hm _ => mem_singleton.mpr hm }
  have hmet : {p | p ∈ b :: points} = {b} ∪ {p | p ∈ points} := by
    ext p
    simp
  rw [grahamScan_cons, hmet]
  refine hstart.foldl hfront hsorted ?_
  rintro _ rfl q hq
  exact before_base (hfront q hq)

end Scan

/-- The points of some entries that cost something and bring clicks. -/
def paidEntries (entries : List (Int × CostPoint)) : List CostPoint :=
  (entries.filter fun entry => 0 < entry.2.y ∧ 0 < entry.2.x).map Prod.snd

/-- The candidates are `points`, and the least of them is known. -/
structure Candidates (points : List CostPoint) (found : CandidatePoints) : Prop where
  allPoints : found.allPoints = points
  empty : found.minP = none → points = []
  least : ∀ p, found.minP = some p → points[found.minI]? = some p ∧ ∀ q ∈ points, ¬ Less q p

variable {points : List CostPoint} {found : CandidatePoints}

theorem Candidates.addCandidate (h : Candidates points found) (entry : Int × CostPoint) :
    Candidates (points ++ paidEntries [entry]) (addCandidate found entry) := by
  unfold Sponsored.addCandidate
  by_cases hpaid : 0 < entry.2.y ∧ 0 < entry.2.x
  · have hentry : paidEntries [entry] = [entry.2] := by
      unfold paidEntries
      rw [filter_singleton, decide_eq_true hpaid]
      rfl
    rw [if_pos hpaid, hentry, h.allPoints]
    by_cases hleast : found.minP.all (fun minP => pointLess entry.2 minP) = true
    · rw [if_pos hleast]
      refine ⟨rfl, nofun, ?_⟩
      rintro _ ⟨⟩
      refine ⟨?_, fun q hq hless => ?_⟩
      · simp
      · rcases mem_append.mp hq with hq | hq
        · cases hmin : found.minP with
          | none =>
            rw [h.empty hmin] at hq
            cases hq
          | some p =>
            rw [hmin] at hleast
            exact (h.least p hmin).2 q hq (hless.trans (pointLess_iff.mp hleast))
        · rw [mem_singleton.mp hq] at hless
          exact Less.irrefl _ hless
    · rw [if_neg hleast]
      refine ⟨rfl, fun hnone => ?_, fun p hp => ?_⟩
      · have hnone' : found.minP = none := hnone
        rw [hnone'] at hleast
        exact absurd rfl hleast
      · have hp' : found.minP = some p := hp
        obtain ⟨hget, hmin⟩ := h.least p hp'
        refine ⟨?_, fun q hq hless => ?_⟩
        · rw [getElem?_append_left]
          · exact hget
          · exact (List.getElem?_eq_some_iff.mp hget).1
        · rcases mem_append.mp hq with hq | hq
          · exact hmin q hq hless
          · rw [mem_singleton.mp hq] at hless
            rw [hp'] at hleast
            exact hleast (pointLess_iff.mpr hless)
  · have hentry : paidEntries [entry] = [] := by
      unfold paidEntries
      rw [filter_singleton, decide_eq_false hpaid]
      rfl
    rw [if_neg hpaid, hentry, append_nil]
    exact h

theorem Candidates.foldl (h : Candidates points found) (entries : List (Int × CostPoint)) :
    Candidates (points ++ paidEntries entries) (entries.foldl Sponsored.addCandidate found) := by
  induction entries generalizing points found with
  | nil => rwa [paidEntries, filter_nil, map_nil, append_nil]
  | cons entry entries ih =>
    have hpoints : points ++ paidEntries (entry :: entries) =
        points ++ paidEntries [entry] ++ paidEntries entries := by
      unfold paidEntries
      rw [append_assoc, ← map_append, ← filter_append, singleton_append]
    rw [hpoints]
    exact ih (h.addCandidate entry)

theorem candidates_foldl (entries : List (Int × CostPoint)) :
    Candidates (paidEntries entries) (entries.foldl addCandidate {}) := by
  have hstart : Candidates [] {} :=
    { allPoints := rfl
      empty := fun _ => rfl
      least := fun p hp => by cases hp }
  exact hstart.foldl entries

/-- The swap brings a point to the front. -/
theorem swapAt_zero {j : ℕ} {p : CostPoint} (hp : points[j]? = some p) :
    ∃ rest, swapAt points 0 j = p :: rest ∧ (p :: rest).Perm points := by
  cases points with
  | nil => cases hp
  | cons a points =>
    cases j with
    | zero =>
      obtain rfl := Option.some.inj hp
      exact ⟨points, rfl, Perm.refl _⟩
    | succ j =>
      have hp' : points[j]? = some p := hp
      have hswap : swapAt (a :: points) 0 (j + 1) = p :: points.set j a := by
        simp only [swapAt, hp, getElem?_cons_zero, set_cons_zero, set_cons_succ]
      obtain ⟨hj, hget⟩ := List.getElem?_eq_some_iff.mp hp'
      refine ⟨points.set j a, hswap, ?_⟩
      have hpoints : points = points.take j ++ p :: points.drop (j + 1) := by
        rw [← hget, cons_getElem_drop_succ, take_append_drop]
      rw [set_eq_take_append_cons_drop, if_pos hj]
      have hperm : (p :: (points.take j ++ a :: points.drop (j + 1))).Perm
          (a :: (points.take j ++ p :: points.drop (j + 1))) :=
        (perm_middle.cons p).trans
          ((List.Perm.swap a p _).trans (perm_middle.symm.cons a))
      rwa [← hpoints] at hperm

variable {landscape : Table Int CostPoint}

/-- Every click at a price costs that price. -/
theorem lookup_foldl_addToLandscape (h : ∀ cpc p, landscape.lookup cpc = some p → p.x = cpc * p.y)
    (entries : List (Int × ℚ)) :
    ∀ cpc p, (entries.foldl addToLandscape landscape).lookup cpc = some p → p.x = cpc * p.y := by
  induction entries generalizing landscape with
  | nil => exact h
  | cons entry entries ih =>
    refine ih fun cpc p hp => ?_
    rw [addToLandscape, update, lookup_insert_eq] at hp
    split at hp
    · rename_i hcpc
      obtain rfl := Option.some.inj hp
      have hcur : (get landscape entry.1).x = entry.1 * (get landscape entry.1).y := by
        cases hget : landscape.lookup entry.1 with
        | none =>
          rw [Table.get, hget]
          exact (mul_zero _).symm
        | some curP =>
          rw [Table.get, hget]
          exact h entry.1 curP hget
      simp only [hcur, hcpc]
      ring
    · exact h cpc p hp

theorem lookup_foldl_landscape (h : ∀ cpc p, landscape.lookup cpc = some p → p.x = cpc * p.y)
    (qsInfos : List AdQueryStatisticInfo) : ∀ cpc p, (qsInfos.foldl (fun landscape info =>
      (info.cpc.zip info.ctr).foldl addToLandscape landscape) landscape).lookup cpc = some p →
        p.x = cpc * p.y := by
  induction qsInfos generalizing landscape with
  | nil => exact h
  | cons info qsInfos ih => exact ih (lookup_foldl_addToLandscape h _)

theorem lookup_aggregateLandscape (qsInfos : List AdQueryStatisticInfo) (cpc : Int)
    (p : CostPoint) (hp : (aggregateLandscape qsInfos).lookup cpc = some p) : p.x = cpc * p.y := by
  refine lookup_foldl_landscape (fun cpc p hp => ?_) qsInfos cpc p hp
  cases hp

/-- The points of the landscape that cost something and bring clicks. -/
def paidPoints (qsInfos : List AdQueryStatisticInfo) : Set CostPoint :=
  {p | (∃ cpc, (aggregateLandscape qsInfos).lookup cpc = some p) ∧ 0 < p.x ∧ 0 < p.y}

section Entries

variable {qsInfos : List AdQueryStatisticInfo} {entries : List (Int × CostPoint)}

theorem mem_paidEntries (h : entries.Perm (aggregateLandscape qsInfos).inOrder) (p : CostPoint) :
    p ∈ paidEntries entries ↔ p ∈ paidPoints qsInfos := by
  unfold paidEntries paidPoints
  rw [mem_map]
  constructor
  · rintro ⟨⟨cpc, p⟩, hmem, rfl⟩
    obtain ⟨hmem, hpaid⟩ := mem_filter.mp hmem
    have hpaid' := of_decide_eq_true hpaid
    exact ⟨⟨cpc, Table.mem_inOrder.mp (h.mem_iff.mp hmem)⟩, hpaid'.2, hpaid'.1⟩
  · rintro ⟨⟨cpc, hlookup⟩, hx, hy⟩
    refine ⟨(cpc, p), mem_filter.mpr ⟨?_, decide_eq_true ⟨hy, hx⟩⟩, rfl⟩
    exact h.mem_iff.mpr (Table.mem_inOrder.mpr hlookup)

/-- Different prices have different points. -/
theorem nodup_paidEntries (h : entries.Perm (aggregateLandscape qsInfos).inOrder) :
    (paidEntries entries).Nodup := by
  have hnodup : entries.Nodup := by
    refine h.nodup_iff.mpr (Nodup.of_map Prod.fst ?_)
    exact (pairwise_inOrder _).imp ne_of_lt
  refine Nodup.map_on ?_ (hnodup.filter _)
  rintro ⟨cpc, p⟩ hp ⟨cpc', q⟩ hq heq
  obtain rfl : p = q := heq
  obtain ⟨hp, hpaid⟩ := mem_filter.mp hp
  obtain ⟨hq, -⟩ := mem_filter.mp hq
  have hcost := lookup_aggregateLandscape qsInfos cpc p (mem_inOrder.mp (h.mem_iff.mp hp))
  have hcost' := lookup_aggregateLandscape qsInfos cpc' p (mem_inOrder.mp (h.mem_iff.mp hq))
  have hy : p.y ≠ 0 := (of_decide_eq_true hpaid).1.ne'
  have hcpc : (cpc : ℚ) = cpc' := mul_right_cancel₀ hy (hcost.symm.trans hcost')
  rw [Int.cast_inj.mp hcpc]

end Entries

theorem candidateChain_eq {top b m : CostPoint} {stack back : List CostPoint} {ch : List CostPoint}
    (hch : ch = (top :: stack).reverse) (hbottom : (top :: stack).getLast? = some b)
    (hdrop : ch.drop (climb ch) = m :: back) {upper : List CostPoint}
    (hupper : (m :: back).reverse = top :: upper) :
    candidateChain ch = upperChain default b top upper := by
  have hfirst : ch.headD default = b := by
    rw [hch, headD_eq_head?_getD, head?_reverse, hbottom]
    rfl
  have hlast : ch.getLastD default = top := by
    rw [hch, getLastD_eq_getLast?, getLast?_reverse]
    rfl
  unfold candidateChain upperChain cornerPoint
  simp only [hfirst, hlast, hdrop, hupper]
  by_cases htop : b.x = top.x
  · rw [if_pos htop, if_neg fun h => h.2 (sub_eq_zero.mpr htop)]
  · have hlen : 2 ≤ ch.length := by
      cases stack with
      | nil =>
        obtain rfl := Option.some.inj hbottom
        exact absurd rfl htop
      | cons s stack =>
        rw [hch, length_reverse, length_cons, length_cons]
        omega
    rw [if_neg htop, if_pos ⟨hlen, sub_ne_zero.mpr htop⟩]

/-- The boundary of the points met gives their upper hull. -/
theorem Scanned.upperHull_candidateChain {b : CostPoint} {met : Set CostPoint}
    {stack : List CostPoint} (h : Scanned b met stack) (hmet : ∀ p ∈ met, 0 < p.x)
    (hfinite : ∃ m ∈ met, ∀ p ∈ met, p = m ∨ Less p m) :
    UpperHull default met (candidateChain stack.reverse) := by
  obtain ⟨m₀, hm₀, hgreatest₀⟩ := hfinite
  cases stack with
  | nil => exact absurd h.bottom nofun
  | cons top stack =>
    have hne : (top :: stack).reverse ≠ [] := by simp
    obtain ⟨m, back, hdrop, hback, hgreatest⟩ :=
      climb_spec hne h.toLeftBoundary.turnsBackOnce
    have hm : m = m₀ := by
      have hmem : m₀ ∈ (top :: stack).reverse := by
        rw [mem_reverse]
        refine h.greatest m₀ hm₀ fun p hp hless => ?_
        rcases hgreatest₀ p hp with rfl | hless'
        · exact Less.irrefl _ hless
        · exact Less.irrefl _ (hless.trans hless')
      have hmet' : m ∈ met := by
        refine h.sub m ?_
        rw [← mem_reverse]
        exact mem_of_mem_drop (hdrop ▸ mem_cons_self)
      rcases hgreatest m₀ hmem with heq | hless
      · exact heq.symm
      · rcases hgreatest₀ m hmet' with heq | hless'
        · exact heq
        · exact absurd (hless.trans hless') (Less.irrefl _)
    obtain ⟨head, upper, hupper⟩ := exists_cons_of_ne_nil
      (fun hnil => cons_ne_nil m back (reverse_eq_nil_iff.mp hnil))
    have hsplit : top :: stack =
        head :: upper ++ ((top :: stack).reverse.take (climb (top :: stack).reverse)).reverse := by
      rw [← hupper, ← hdrop, ← reverse_append, take_append_drop, reverse_reverse]
    obtain rfl : top = head := head_eq_of_cons_eq hsplit
    rw [candidateChain_eq rfl h.bottom hdrop hupper]
    rw [hsplit] at h
    refine h.toHullStack.upperHull hmet ?_ fun m' hm' p hp => ?_
    · rw [← hupper, pairwise_reverse]
      exact hback
    · rw [← hupper, getLast?_reverse] at hm'
      obtain rfl := Option.some.inj hm'
      exact hm ▸ hgreatest₀ p hp

/-- There is a greatest point. -/
theorem exists_greatest (hne : points ≠ []) : ∃ m ∈ points, ∀ p ∈ points, p = m ∨ Less p m := by
  induction points with
  | nil => exact absurd rfl hne
  | cons q points ih =>
    cases points with
    | nil => exact ⟨q, mem_cons_self, fun p hp => .inl (mem_singleton.mp hp)⟩
    | cons r points =>
      obtain ⟨m, hm, hgreatest⟩ := ih (cons_ne_nil r points)
      rcases less_trichotomy q m with hless | heq | hless
      · refine ⟨m, mem_cons_of_mem q hm, fun p hp => ?_⟩
        rcases mem_cons.mp hp with rfl | hp
        · exact .inr hless
        · exact hgreatest p hp
      · refine ⟨m, mem_cons_of_mem q hm, fun p hp => ?_⟩
        rcases mem_cons.mp hp with rfl | hp
        · exact .inl heq
        · exact hgreatest p hp
      · refine ⟨q, mem_cons_self, fun p hp => ?_⟩
        rcases mem_cons.mp hp with rfl | hp
        · exact .inl rfl
        · rcases hgreatest p hp with rfl | hless'
          · exact .inr hless
          · exact .inr (hless'.trans hless)

variable {entries : List (Int × CostPoint)}

theorem pos_of_mem_paidEntries {p : CostPoint} (hp : p ∈ paidEntries entries) : 0 < p.x := by
  obtain ⟨entry, hmem, rfl⟩ := mem_map.mp hp
  exact (of_decide_eq_true (mem_filter.mp hmem).2).2

theorem canch_eq_none (hnil : paidEntries entries = []) : canch entries = none := by
  have hall := (candidates_foldl entries).allPoints
  rw [hnil] at hall
  simp only [canch, hall]
  rfl

/-- The candidate chain is the upper hull of the points kept, when these are different. -/
theorem upperHull_canch (hnodup : (paidEntries entries).Nodup) (hne : paidEntries entries ≠ []) :
    ∃ chain, canch entries = some chain ∧
      UpperHull default {p | p ∈ paidEntries entries} chain := by
  have hcandidates := candidates_foldl entries
  generalize hfound : entries.foldl addCandidate {} = found at hcandidates
  cases hmin : found.minP with
  | none => exact absurd (hcandidates.empty hmin) hne
  | some base =>
    obtain ⟨hget, hleast⟩ := hcandidates.least base hmin
    rw [← hcandidates.allPoints] at hget
    obtain ⟨rest, hswap, hperm⟩ := swapAt_zero hget
    rw [hcandidates.allPoints] at hperm
    have hnodup' := nodup_cons.mp (hperm.nodup_iff.mpr hnodup)
    have hfront : ∀ p ∈ rest, Less base p := by
      intro p hp
      rcases less_trichotomy base p with hless | rfl | hless
      · exact hless
      · exact absurd hp hnodup'.1
      · exact absurd hless (hleast p (hperm.mem_iff.mp (mem_cons_of_mem base hp)))
    have hsortfront : ∀ p ∈ sortAround base rest, Less base p := fun p hp =>
      hfront p ((perm_sortAround base rest).mem_iff.mp hp)
    have hscan := scanned_grahamScan hsortfront (pairwise_sortAround hfront hnodup'.2)
    have hsorted : (base :: sortAround base rest).Perm (paidEntries entries) :=
      ((perm_sortAround base rest).cons base).trans hperm
    have hmet : {p | p ∈ base :: sortAround base rest} = {p | p ∈ paidEntries entries} := by
      ext p
      exact hsorted.mem_iff
    rw [hmet] at hscan
    refine ⟨candidateChain (grahamScan (base :: sortAround base rest)).reverse, ?_, ?_⟩
    · simp only [canch, hfound, hswap, hmin, Option.getD_some]
    · exact hscan.upperHull_candidateChain (fun p hp => pos_of_mem_paidEntries hp)
        (exists_greatest hne)

/-- The candidate chain of a landscape is the upper hull of its points that cost something and bring
clicks, whatever the order of the entries. -/
theorem canch_upperHull (qsInfos : List AdQueryStatisticInfo) (entries : List (Int × CostPoint))
    (hentries : entries.Perm (aggregateLandscape qsInfos).inOrder)
    (hpaid : (paidPoints qsInfos).Nonempty) :
    ∃ chain, canch entries = some chain ∧ UpperHull default (paidPoints qsInfos) chain := by
  have hpoints : {p | p ∈ paidEntries entries} = paidPoints qsInfos := by
    ext p
    exact mem_paidEntries hentries p
  rw [← hpoints] at hpaid ⊢
  obtain ⟨p, hp⟩ := hpaid
  exact upperHull_canch (nodup_paidEntries hentries) (ne_nil_of_mem hp)

/-- Three prices. -/
theorem canch_upperHull_three_prices :
    let qsInfos : List AdQueryStatisticInfo := [{ cpc := [1, 2, 3], ctr := [1, 3, 2] }]
    ∃ chain, canch (aggregateLandscape qsInfos).inOrder = some chain ∧
      UpperHull default (paidPoints qsInfos) chain :=
  canch_upperHull _ _ (Perm.refl _) ⟨⟨1, 1⟩, ⟨1, by decide +kernel⟩, one_pos, one_pos⟩

/-- Clicks at no cost are above the chain, which has only points that cost something. -/
theorem free_clicks_above_chain :
    let qsInfos : List AdQueryStatisticInfo := [{ cpc := [0, 1], ctr := [1, 1] }]
    ∃ chain, canch (aggregateLandscape qsInfos).inOrder = some chain ∧
      (paidPoints qsInfos).Nonempty ∧
      ¬ UpperHull default {p | ∃ cpc, (aggregateLandscape qsInfos).lookup cpc = some p} chain := by
  refine ⟨[⟨0, 0⟩, ⟨1, 1⟩], by decide +kernel, ?_, fun h => ?_⟩
  · exact ⟨⟨1, 1⟩, ⟨1, by decide +kernel⟩, one_pos, one_pos⟩
  · obtain ⟨u, v, hinfix, hu, hv, hy⟩ := h.below ⟨0, 1⟩ ⟨0, by decide +kernel⟩
    obtain ⟨rfl, rfl⟩ : u = ⟨0, 0⟩ ∧ v = ⟨1, 1⟩ := by
      have heq := hinfix.eq_of_length rfl
      simpa using heq
    norm_num [heightAt] at hy

end UniformHull

/-! ## Mixing two bids for a budget

When the budget of one impression falls between two neighbours of the candidate chain, the search
finds exactly these two. The share of the budget beyond the first of them becomes the probability of
the first bid, where it would have to be that of the second, so the expected cost is the budget
mirrored at the midpoint.
-/

/-- Two bids whose probabilities make up a distribution with the budget as its expected cost. -/
def BudgetExact (u v : CostPoint) (budget : ℚ) (bids : List (Int × ℚ)) : Prop :=
  ∃ first second, bids = [first, second] ∧ (0 ≤ first.2 ∧ first.2 ≤ 1) ∧
    (0 ≤ second.2 ∧ second.2 ≤ 1) ∧ first.2 + second.2 = 1 ∧
    first.2 * u.x + second.2 * v.x = budget

/-- The search ends at the first point beyond the budget. -/
theorem findIdx_xsmall {before after : List CostPoint} {v : CostPoint} {budget : ℚ}
    (hbefore : ∀ p ∈ before, p.x ≤ budget) (hv : budget < v.x) :
    (before ++ v :: after).findIdx (fun p => xsmall ⟨budget, 0⟩ p) = before.length := by
  induction before with
  | nil =>
    have hfound : xsmall ⟨budget, 0⟩ v = true := decide_eq_true hv
    rw [nil_append, findIdx_cons, hfound]
    rfl
  | cons p before ih =>
    have hskip : xsmall ⟨budget, 0⟩ p = false :=
      decide_eq_false (not_lt.mpr (hbefore p mem_cons_self))
    rw [cons_append, findIdx_cons, hskip, ih fun q hq => hbefore q (mem_cons_of_mem p hq)]
    rfl

section Mixture

variable {u v : CostPoint} {chain : List CostPoint} {budget : Int}

/-- Between two neighbours of an ascending chain, these two are mixed. -/
theorem mixBids_between (minBid : Int) (hchain : chain.Pairwise fun p q => p.x < q.x)
    (huv : [u, v] <:+: chain) (hu : u.x < budget) (hv : budget < v.x) :
    ∃ prebid lastbid, mixBids minBid budget chain =
      [(prebid, (budget - u.x) / (v.x - u.x)), (lastbid, 1 - (budget - u.x) / (v.x - u.x))] := by
  obtain ⟨before, after, hsplit⟩ := huv
  have hsplit' : chain = (before ++ [u]) ++ v :: after := by
    rw [← hsplit, append_assoc, append_assoc]
    rfl
  have hleft : ∀ p ∈ before ++ [u], p.x ≤ budget := by
    intro p hp
    rcases mem_append.mp hp with hp | hp
    · rw [hsplit'] at hchain
      have hpu : p.x < u.x := (pairwise_append.mp (pairwise_append.mp hchain).1).2.2 p hp
        u mem_cons_self
      exact (hpu.trans hu).le
    · rw [mem_singleton.mp hp]
      exact hu.le
  have hidx : ((before ++ [u]) ++ v :: after).findIdx (fun p => xsmall ⟨budget, 0⟩ p) =
      (before ++ [u]).length := findIdx_xsmall hleft hv
  have hlast : ((before ++ [u]) ++ v :: after)[(before ++ [u]).length]? = some v := by
    rw [getElem?_append_right le_rfl, Nat.sub_self]
    rfl
  have hpre : ((before ++ [u]) ++ v :: after).getD ((before ++ [u]).length - 1) default = u := by
    rw [length_append, length_singleton, Nat.add_sub_cancel, getD_eq_getElem?_getD,
      append_assoc, getElem?_append_right le_rfl, Nat.sub_self]
    rfl
  have hne : u.x - budget ≠ 0 := sub_ne_zero.mpr hu.ne
  rw [hsplit', mixBids]
  simp only [hidx, hlast, hpre, if_neg hne]
  exact ⟨_, _, rfl⟩

/-- What two neighbours of the chain are mixed to is exact at their midpoint only. -/
theorem budgetExact_iff {prebid lastbid : Int} (hu : u.x < budget) (hv : budget < v.x) :
    BudgetExact u v budget
      [(prebid, (budget - u.x) / (v.x - u.x)), (lastbid, 1 - (budget - u.x) / (v.x - u.x))] ↔
      2 * (budget : ℚ) = u.x + v.x := by
  have hwidth : 0 < v.x - u.x := sub_pos.mpr (hu.trans hv)
  have hcost : (budget - u.x) / (v.x - u.x) * u.x + (1 - (budget - u.x) / (v.x - u.x)) * v.x =
      u.x + v.x - budget := by
    have hshare : (budget - u.x) / (v.x - u.x) * (v.x - u.x) = budget - u.x :=
      div_mul_cancel₀ _ hwidth.ne'
    linear_combination -hshare
  constructor
  · rintro ⟨first, second, hbids, -, -, -, hexact⟩
    obtain ⟨rfl, rfl⟩ : (prebid, (budget - u.x) / (v.x - u.x)) = first ∧
        (lastbid, 1 - (budget - u.x) / (v.x - u.x)) = second := by
      simpa using hbids
    rw [hcost] at hexact
    linarith
  · intro hmid
    have hnonneg : 0 ≤ (budget - u.x) / (v.x - u.x) := div_nonneg (sub_pos.mpr hu).le hwidth.le
    have hle : (budget - u.x) / (v.x - u.x) ≤ 1 := by
      rw [div_le_one hwidth]
      linarith
    refine ⟨_, _, rfl, ⟨hnonneg, hle⟩, ⟨sub_nonneg.mpr hle, ?_⟩, ?_, ?_⟩
    · exact sub_le_self 1 hnonneg
    · exact add_sub_cancel _ _
    · rw [hcost]
      linarith

end Mixture

/-- Mixed for a budget between two neighbours of the candidate chain, the bids are exact if and only
if the budget is the midpoint of the two. -/
theorem convexUniformBid_exact_iff (qsInfos : List AdQueryStatisticInfo)
    (entries : List (Int × CostPoint)) (budget : Int) (chain : List CostPoint) (u v : CostPoint)
    (hinfos : qsInfos ≠ []) (hentries : entries.Perm (aggregateLandscape qsInfos).inOrder)
    (hcanch : canch entries = some chain) (huv : [u, v] <:+: chain)
    (hu : u.x < singleBudget qsInfos budget) (hv : singleBudget qsInfos budget < v.x) :
    BudgetExact u v (singleBudget qsInfos budget) (convexUniformBid entries qsInfos budget) ↔
      2 * (singleBudget qsInfos budget : ℚ) = u.x + v.x := by
  have hne : paidEntries entries ≠ [] := fun hnil => by
    rw [canch_eq_none hnil] at hcanch
    cases hcanch
  obtain ⟨chain', hcanch', hhull⟩ := upperHull_canch (nodup_paidEntries hentries) hne
  obtain rfl : chain = chain' := Option.some.inj (hcanch.symm.trans hcanch')
  cases qsInfos with
  | nil => exact absurd rfl hinfos
  | cons first qsInfos =>
    obtain ⟨prebid, lastbid, hmix⟩ := mixBids_between first.minBid hhull.ascending huv hu hv
    have hbids : convexUniformBid entries (first :: qsInfos) budget =
        mixBids first.minBid (singleBudget (first :: qsInfos) budget) chain := by
      simp only [convexUniformBid, hcanch]
    rw [hbids, hmix]
    exact budgetExact_iff hu hv

/-- Two prices, and a budget in the middle between their costs. -/
theorem convexUniformBid_exact_midpoint :
    let qsInfos : List AdQueryStatisticInfo :=
      [{ cpc := [1, 3], ctr := [1, 1], impression := 1 }]
    let bids := convexUniformBid (aggregateLandscape qsInfos).inOrder qsInfos 2
    BudgetExact ⟨1, 1⟩ ⟨3, 1⟩ (singleBudget qsInfos 2) bids :=
  (convexUniformBid_exact_iff _ _ 2 [⟨0, 0⟩, ⟨1, 1⟩, ⟨3, 1⟩] _ _ (cons_ne_nil _ _)
    (Perm.refl _) (by decide +kernel) ⟨[⟨0, 0⟩], [], rfl⟩ (by decide +kernel)
    (by decide +kernel)).mpr (by decide +kernel)

/-- A budget near the lower cost. The higher price, which costs four, gets the probability of two
thirds that the lower one should have. -/
theorem convexUniformBid_swapped :
    let qsInfos : List AdQueryStatisticInfo :=
      [{ cpc := [1, 4], ctr := [1, 1], impression := 1 }]
    let entries := (aggregateLandscape qsInfos).inOrder
    canch entries = some [⟨0, 0⟩, ⟨1, 1⟩, ⟨4, 1⟩] ∧ singleBudget qsInfos 2 = 2 ∧
      convexUniformBid entries qsInfos 2 = [(1, 1 / 3), (4, 2 / 3)] ∧
      ¬ BudgetExact ⟨1, 1⟩ ⟨4, 1⟩ 2 (convexUniformBid entries qsInfos 2) := by
  intro qsInfos entries
  have hbids : convexUniformBid entries qsInfos 2 = [(1, 1 / 3), (4, 2 / 3)] := by
    decide +kernel
  refine ⟨by decide +kernel, by decide +kernel, hbids, ?_⟩
  rw [hbids]
  rintro ⟨first, second, heq, -, -, -, hexact⟩
  obtain ⟨rfl, rfl⟩ : (1, 1 / 3) = first ∧ (4, 2 / 3) = second := by simpa using heq
  norm_num at hexact

end AdDelivery.Sponsored
