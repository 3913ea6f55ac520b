import AdDelivery.Core.Plane
import AdDelivery.Core.Table
import AdDelivery.Sponsored.Search

/-!
# Uniform bids

For each price some keyword has been bought at, the landscape adds up what a share of the
impressions costs there and how many clicks it brings. The strategy takes the upper boundary of the
convex hull of these points, seen from the origin, and mixes two of its points so that the cost of
one impression meets the budget for it. Numbers of type `double` are exact here, so `isZero` is a
comparison with zero, and the greatest `double` with which the search for a minimum starts is an
empty option.
-/

namespace AdDelivery.Sponsored

open Plane

/-- A point of the landscape: the cost of the clicks, and the clicks. -/
abbrev CostPoint := Point ℚ

instance : Inhabited CostPoint := ⟨⟨0, 0⟩⟩

/-- Add one position of one keyword. -/
def addToLandscape (landscape : Table Int CostPoint) (entry : Int × ℚ) : Table Int CostPoint :=
  Table.update landscape entry.1 fun curP => ⟨curP.x + entry.1 * entry.2, curP.y + entry.2⟩

/-- Add up cost and clicks for each price. -/
def aggregateLandscape (qsInfos : List AdQueryStatisticInfo) : Table Int CostPoint :=
  qsInfos.foldl (fun landscape info => (info.cpc.zip info.ctr).foldl addToLandscape landscape) ∅

/-- `operator<` of the points. -/
def pointLess (p1 p2 : CostPoint) : Bool :=
  decide (p1.x < p2.x) || (p1.x - p2.x == 0 && decide (p1.y < p2.y))

def xsmall (p1 p2 : CostPoint) : Bool := decide (p1.x < p2.x)

/-- The points that cost something and bring clicks, with the least of them and its index. -/
structure CandidatePoints where
  allPoints : List CostPoint := []
  minP : Option CostPoint := none
  minI : ℕ := 0

def addCandidate (found : CandidatePoints) (entry : Int × CostPoint) : CandidatePoints :=
  if 0 < entry.2.y ∧ 0 < entry.2.x then
    let allPoints := found.allPoints ++ [entry.2]
    if found.minP.all fun minP => pointLess entry.2 minP then
      ⟨allPoints, some entry.2, allPoints.length - 1⟩
    else { found with allPoints := allPoints }
  else found

/-- `std::swap` of two entries of a vector. -/
def swapAt (points : List CostPoint) (i j : ℕ) : List CostPoint :=
  match points[i]?, points[j]? with
  | some p, some q => (points.set i q).set j p
  | _, _ => points

/-- Left is `1`, right is `-1`, straight on is `0`. -/
def turnDirection (p0 p1 p2 : CostPoint) : Int :=
  let tmp := (p2.x - p0.x) * (p1.y - p0.y) - (p2.y - p0.y) * (p1.x - p0.x)
  if tmp < 0 then 1 else if 0 < tmp then -1 else 0

/-- `AnglePredicate`: the order of two points around a base. -/
def anglePredicate (base p1 p2 : CostPoint) : Bool :=
  let tmp := turnDirection base p1 p2
  decide (0 < tmp) || (tmp == 0 &&
    decide ((p1.x - base.x) * (p1.x - base.x) + (p1.y - base.y) * (p1.y - base.y) <
      (p2.x - base.x) * (p2.x - base.x) + (p2.y - base.y) * (p2.y - base.y)))

/-- All points but the base, around it. Where the predicate is a strict order, as it is for points
in front of the base, this is what `std::sort` makes of them. -/
def sortAround (base : CostPoint) (points : List CostPoint) : List CostPoint :=
  points.insertionSort fun p q => !anglePredicate base q p

/-- Pop while the boundary turns right at its last point. The stack has its top in front. -/
def popRightTurns (next : CostPoint) : List CostPoint → List CostPoint
  | p1 :: p0 :: ch =>
    if turnDirection p0 p1 next < 0 then popRightTurns next (p0 :: ch) else p1 :: p0 :: ch
  | ch => ch

/-- Graham's scan: the first two points, then every other one. The result has the last point in
front. -/
def grahamScan (allPoints : List CostPoint) : List CostPoint :=
  (allPoints.drop 2).foldl (fun ch next => next :: popRightTurns next ch)
    (allPoints.take 2).reverse

/-- The index of the first point of the hull that is not followed by a greater one. -/
def climb : List CostPoint → ℕ
  | p :: q :: ch => if pointLess p q then climb (q :: ch) + 1 else 0
  | _ => 0

/-- The candidates for the bid: the origin, the first point of the hull if the last one is not
straight above it, and the upper part of the hull backwards. -/
def candidateChain (ch : List CostPoint) : List CostPoint :=
  let first := ch.headD default
  let last := ch.getLastD default
  default :: ((if 2 ≤ ch.length ∧ first.x - last.x ≠ 0 then [first] else []) ++
    (ch.drop (climb ch)).reverse)

/-- The candidate chain of a landscape, whose entries are met in some order. There is none without
a point that costs something and brings clicks. -/
def canch (entries : List (Int × CostPoint)) : Option (List CostPoint) :=
  let found := entries.foldl addCandidate {}
  match swapAt found.allPoints 0 found.minI with
  | [] => none
  | base :: rest =>
    some (candidateChain (grahamScan (base :: sortAround (found.minP.getD default) rest)).reverse)

/-- The budget for one impression. -/
def singleBudget (qsInfos : List AdQueryStatisticInfo) (budget : Int) : Int :=
  let least : Int := qsInfos.foldl (fun least info => min info.minBid least) 1000000000
  let totalImpression : Int := qsInfos.foldl (fun total info => total + info.impression) 0
  if 0 < totalImpression then
    max least (truncate ((budget : ℚ) / (totalImpression / (qsInfos.length : ℚ))))
  else least

/-- The bid of a candidate point: its price, the cost of one click there. -/
def pointBid (p : CostPoint) : Int := if p.y = 0 then 0 else truncate (p.x / p.y)

/-- Choose bids and probabilities for the budget of one impression. -/
def mixBids (minBid budget : Int) (chain : List CostPoint) : List (Int × ℚ) :=
  -- `std::upper_bound`: the first point beyond the budget, in a chain that ascends
  let uit := chain.findIdx fun p => xsmall ⟨budget, 0⟩ p
  match chain[uit]? with
  | none => [(max minBid budget, 1 / 2), (max minBid budget, 1 / 2)]
  | some u =>
    let pre := chain.getD (uit - 1) default
    if pre.x - budget = 0 then
      let mybid := max minBid (pointBid pre)
      [(mybid, 1 / 2), (mybid, 1 / 2)]
    else
      let p := (budget - pre.x) / (u.x - pre.x)
      let prebid := pointBid pre
      let prebid := if 0 < prebid then max prebid minBid else prebid
      let lastbid := max (truncate (u.x / u.y)) minBid
      [(prebid, p), (lastbid, 1 - p)]

/-- Two bids with their probabilities, for a landscape whose entries are met in some order. -/
def convexUniformBid (entries : List (Int × CostPoint)) (qsInfos : List AdQueryStatisticInfo)
    (budget : Int) : List (Int × ℚ) :=
  match qsInfos with
  | [] => [(0, 0), (0, 0)]
  | first :: _ =>
    match canch entries with
    | none => [(first.minBid, 1 / 2), (first.minBid, 1 / 2)]
    | some chain => mixBids first.minBid (singleBudget qsInfos budget) chain

end AdDelivery.Sponsored
