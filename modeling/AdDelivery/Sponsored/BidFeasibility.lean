import AdDelivery.Core.Int32
import AdDelivery.Sponsored.Evolution
import AdDelivery.Sponsored.UniformBid

/-!
# The budget of the genetic strategy

Keywords with a predefined bid take their cost from the budget first. For the others one of
three solvers, chosen by the size of the problem, answers a vector of positions, which is then
converted to bids. Whichever solver it is, and whatever numbers are drawn, the vector has an
entry for each of these keywords and its expected cost is within what is left of the budget.
One budget is too great for the test of the size, whose sum is taken in 32 bits.
-/

namespace AdDelivery.Sponsored.Genetic

open List
open AdDelivery.Random

variable (qsInfos : List AdQueryStatisticInfo) (elite : EliteOrder) (entries : List (ℤ × CostPoint))

/-- The keywords without a predefined bid. -/
def openKeywords : List AdQueryStatisticInfo :=
  qsInfos.filter fun info => info.bid = -1

/-- The cost of a predefined bid is that of the first position it pays for. -/
def availableBudget (budget : ℤ) : ℤ :=
  qsInfos.foldl (fun tmpBudget info =>
    if info.bid = -1 then tmpBudget
    else
      match info.cpc.findIdx? fun cpc => cpc ≤ info.bid with
      | none => tmpBudget
      | some i =>
        truncate (tmpBudget - info.cpc.getD i 0 * info.ctr.getD i 0 * info.impression)) budget

/-- The rows of `W` and `V`. -/
def adRow (info : AdQueryStatisticInfo) : AdRow :=
  info.cpc.zipIdx.map fun entry =>
    { weight := entry.1 * info.impression * info.ctr.getD entry.2 0
      value := info.impression * info.ctr.getD entry.2 0 }

def maxLoopNum : ℕ := 10000000000

def maxDPSpace : ℤ := 100000000

/-- The number of vectors to try, or one that is too great already. -/
def timeCP : List AdRow → ℕ → ℕ
  | [], product => product
  | row :: rows, product =>
    let product := product * (row.length + 1)
    if maxLoopNum < product then product else timeCP rows product

/-- Whether enumeration is short enough to be tried. -/
def Enumerable (rows : List AdRow) : Prop := timeCP rows 1 < maxLoopNum

instance (rows : List AdRow) : Decidable (Enumerable rows) := inferInstanceAs (Decidable (_ < _))

/-- The choice among the solvers. Where `AvaiableBudget + 1` wraps, the tables of the dynamic
program would have a negative size, and no vector is answered. -/
def solvePositions (rows : List AdRow) (available : ℤ) : Random (Option KPSolution) :=
  if Enumerable rows then pure (some (enumKP rows available.toNat))
  else if rows.length * toInt32 (available + 1) ≤ maxDPSpace then
    if toInt32 (available + 1) < 0 then failure
    else pure (some (dpKP rows available.toNat))
  else evolutionarySearch elite rows available

def predefinedBids : List ℤ :=
  qsInfos.map fun info => if info.bid = -1 then 0 else info.bid

def convertIndexToBid : List AdQueryStatisticInfo → KPSolution → List ℤ
  | [], _ => []
  | info :: qsInfos, bidindex =>
    if info.bid ≠ -1 then info.bid :: convertIndexToBid qsInfos bidindex
    else
      (match bidindex.headD none with
        | some j => info.cpc.getD j 0
        | none => 0) :: convertIndexToBid qsInfos bidindex.tail

/-- Bids below the lowest allowed are raised to it. Where nothing is bid, the uniform bid for the
landscape takes the place of all bids. -/
def checkGABid (qsInfos : List AdQueryStatisticInfo) (budget : ℤ) (bid : List ℤ) : List ℤ :=
  if bid.any fun price => 0 < price then
    List.zipWith (fun info price => if 0 < price ∧ price < info.minBid then info.minBid else price)
      qsInfos bid
  else
    let minBid := (qsInfos.headD {}).minBid
    let ubid := convexUniformBid entries qsInfos budget
    let front := ubid.headD (0, 0)
    let back := ubid.getLastD (0, 0)
    let lastBid := max (truncate (front.1 * front.2 + back.1 * back.2)) minBid
    bid.map fun _ => lastBid

/-- The bids, and the vector that they were converted from. -/
structure GeneticBid where
  bid : List ℤ
  bidindex : Option KPSolution

def geneticBid (qsInfos : List AdQueryStatisticInfo) (budget : ℤ) : Random GeneticBid :=
  let available := availableBudget qsInfos budget
  if openKeywords qsInfos = [] ∨ available ≤ 0 then
    pure { bid := predefinedBids qsInfos, bidindex := none }
  else do
    let bidindex ← solvePositions elite ((openKeywords qsInfos).map adRow) available
    let bid :=
      match bidindex with
      | none => predefinedBids qsInfos
      | some sol => convertIndexToBid qsInfos sol
    pure { bid := checkGABid entries qsInfos budget bid, bidindex := bidindex }

/-- Each solver answers a feasible vector, where the test of the size does not wrap. -/
theorem solvePositions_always (rows : List AdRow) {available : ℤ} (hpos : 0 < available)
    (hsize : Enumerable rows ∨ available + 1 < 2 ^ 31) :
    Always (solvePositions elite rows available) fun found =>
      (∀ sol, found = some sol → KPFeasible rows available sol) ∧
        ((∀ row ∈ rows, ∀ position ∈ row, 0 ≤ position.value) → found.isSome) := by
  have hcast : ((available.toNat : ℕ) : ℚ) = available := by
    exact_mod_cast Int.toNat_of_nonneg hpos.le
  have hnonneg : (0 : ℚ) ≤ available := by exact_mod_cast hpos.le
  refine always_ite (fun _ => always_pure ⟨fun sol hsol => ?enum, fun _ => rfl⟩) fun hlong => ?_
  case enum =>
    rw [← Option.some.inj hsol, ← hcast]
    exact enumKP_feasible rows available.toNat
  have hfits : toInt32 (available + 1) = available + 1 :=
    toInt32_eq ⟨by omega, hsize.resolve_left hlong⟩
  rw [hfits, if_neg (show ¬available + 1 < 0 by omega)]
  refine always_ite (fun _ => always_pure ⟨fun sol hsol => ?dp, fun _ => rfl⟩) fun _ => ?_
  case dp =>
    rw [← Option.some.inj hsol, ← hcast]
    exact dpKP_feasible rows available.toNat
  exact evolutionarySearch_always elite rows hnonneg

/-- What a choice is expected to cost. -/
def expectedCost (info : AdQueryStatisticInfo) (choice : Option ℕ) : ℚ :=
  match choice with
  | none => 0
  | some j => info.cpc.getD j 0 * info.impression * info.ctr.getD j 0

/-- One entry for each keyword without a predefined bid, none or a position of the keyword, and
within what the others leave of the budget. -/
structure BudgetFeasible (qsInfos : List AdQueryStatisticInfo) (budget : ℤ) (sol : KPSolution) :
    Prop where
  length_eq : sol.length = (openKeywords qsInfos).length
  positions : List.Forall₂ (fun info choice => ∀ j, choice = some j → j < info.cpc.length)
    (openKeywords qsInfos) sol
  cost_le : (List.zipWith expectedCost (openKeywords qsInfos) sol).sum ≤
    availableBudget qsInfos budget

variable {info : AdQueryStatisticInfo}

theorem weightOf_adRow {choice : Option ℕ} (h : IsChoice (adRow info) choice) :
    weightOf (adRow info) choice = expectedCost info choice := by
  cases choice with
  | none => rfl
  | some j =>
    have hlt : j < info.cpc.length := by
      have hj := h j rfl
      rwa [adRow, List.length_map, length_zipIdx] at hj
    have hcpc : info.cpc[j]? = some (info.cpc.getD j 0) := by
      rw [getD_eq_getElem?_getD, getElem?_eq_getElem hlt, Option.getD_some]
    have hposition : (adRow info)[j]? = some
        { weight := info.cpc.getD j 0 * info.impression * info.ctr.getD j 0
          value := info.impression * info.ctr.getD j 0 } := by
      rw [adRow, getElem?_map, getElem?_zipIdx, hcpc, Nat.zero_add]
      rfl
    rw [weightOf_some hposition]
    rfl

theorem totalWeight_adRows {infos : List AdQueryStatisticInfo} {sol : KPSolution}
    (h : List.Forall₂ (fun info choice => IsChoice (adRow info) choice) infos sol) :
    totalWeight (infos.map adRow) sol = (List.zipWith expectedCost infos sol).sum := by
  induction h with
  | nil => rfl
  | cons hposition _ ih =>
    rw [map_cons, totalWeight_cons, zipWith_cons_cons, sum_cons, weightOf_adRow hposition, ih]

theorem budgetFeasible_of_feasible {qsInfos : List AdQueryStatisticInfo} {budget : ℤ}
    {sol : KPSolution}
    (h : KPFeasible ((openKeywords qsInfos).map adRow) (availableBudget qsInfos budget) sol) :
    BudgetFeasible qsInfos budget sol := by
  have hvalid := forall₂_map_left_iff.mp h.valid
  refine ⟨hvalid.length_eq.symm, hvalid.imp fun info choice hposition j hj => ?_, ?_⟩
  · have hlt := hposition j hj
    rwa [adRow, List.length_map, length_zipIdx] at hlt
  · rw [← totalWeight_adRows hvalid]
    exact h.weight_le

/-- Statistics as they are counted: no cost, rate or number of impressions is negative. -/
structure NonNegative (info : AdQueryStatisticInfo) : Prop where
  cpc : ∀ cpc ∈ info.cpc, 0 ≤ cpc
  ctr : ∀ ctr ∈ info.ctr, 0 ≤ ctr
  impression : 0 ≤ info.impression

theorem NonNegative.value (h : NonNegative info) : ∀ position ∈ adRow info, 0 ≤ position.value := by
  intro position hposition
  obtain ⟨entry, -, rfl⟩ := mem_map.mp hposition
  have hctr : 0 ≤ info.ctr.getD entry.2 0 := by
    rw [getD_eq_getElem?_getD]
    rcases hget : info.ctr[entry.2]? with _ | ctr
    · exact le_rfl
    · exact h.ctr ctr (mem_of_getElem? hget)
  have himpression : (0 : ℚ) ≤ info.impression := by exact_mod_cast h.impression
  exact mul_nonneg himpression hctr

/-- What is left of the budget is not the greatest `int`, or the keywords are so few that all
vectors are tried. -/
def SizeFits (qsInfos : List AdQueryStatisticInfo) (budget : ℤ) : Prop :=
  Enumerable ((openKeywords qsInfos).map adRow) ∨ availableBudget qsInfos budget + 1 < 2 ^ 31

instance (budget : ℤ) : Decidable (SizeFits qsInfos budget) := inferInstanceAs (Decidable (_ ∨ _))

/-- From every source of random numbers the strategy answers; in particular no repair loop draws
from no keywords. A vector is converted to bids if there is a keyword to bid for and a budget, and
it is within the budget. -/
theorem geneticBid_budgetFeasible
    {qsInfos : List AdQueryStatisticInfo} (h : ∀ info ∈ qsInfos, NonNegative info) (budget : ℤ)
    (hsize : SizeFits qsInfos budget) (source : Stream' ℕ) :
    ∃ result rest, geneticBid elite entries qsInfos budget source = some (result, rest) ∧
      (result.bidindex.isSome ↔ openKeywords qsInfos ≠ [] ∧ 0 < availableBudget qsInfos budget) ∧
      ∀ sol, result.bidindex = some sol → BudgetFeasible qsInfos budget sol := by
  have hall : Always (geneticBid elite entries qsInfos budget) fun result =>
      (result.bidindex.isSome ↔ openKeywords qsInfos ≠ [] ∧ 0 < availableBudget qsInfos budget) ∧
      ∀ sol, result.bidindex = some sol → BudgetFeasible qsInfos budget sol := by
    refine always_ite (fun hnothing => always_pure ⟨?nothing, fun sol hsol => nomatch hsol⟩)
      fun hsomething => ?solve
    case nothing =>
      refine iff_of_false Bool.false_ne_true ?_
      rintro ⟨hne, hpos⟩
      exact hnothing.elim hne (not_le.mpr hpos)
    case solve =>
      obtain ⟨hne, hpos⟩ := not_or.mp hsomething
      have hpos := not_le.mp hpos
      refine (solvePositions_always elite _ hpos hsize).bind fun found hfound => always_pure ?_
      obtain ⟨hfeasible, hsome⟩ := hfound
      refine ⟨iff_of_true (hsome fun row hrow => ?_) ⟨hne, hpos⟩,
        fun sol hsol => budgetFeasible_of_feasible (hfeasible sol hsol)⟩
      obtain ⟨info, hinfo, rfl⟩ := mem_map.mp hrow
      exact (h info (mem_of_mem_filter hinfo)).value
  exact hall source

def shoes : AdQueryStatisticInfo where
  cpc := [3, 2]
  ctr := [1 / 2, 1 / 4]
  impression := 10

theorem geneticBid_budgetFeasible_shoes :
    ∃ result rest, geneticBid EliteOrder.stable [] [shoes] 20 (fun _ => 0) = some (result, rest) ∧
      (result.bidindex.isSome ↔ openKeywords [shoes] ≠ [] ∧ 0 < availableBudget [shoes] 20) ∧
      ∀ sol, result.bidindex = some sol → BudgetFeasible [shoes] 20 sol :=
  geneticBid_budgetFeasible EliteOrder.stable []
    (forall_mem_singleton.mpr ⟨by decide, by decide +kernel, by decide⟩) 20 (.inl (by decide))
    fun _ => 0

/-- Each of these keywords alone costs more than a budget of 2999999. -/
def dearKeywords : List AdQueryStatisticInfo :=
  List.replicate 34 { cpc := [3000000], ctr := [1], impression := 1 }

/-- The first keyword is chosen, and no other one. -/
def firstOnly : Stream' ℕ := fun n => if n = 0 then 1 else 0

/-- A vector of the search may lose all its keywords, so that its repair ends with `aN` zero. -/
theorem not_repairLoop_early : ¬Enumerable (dearKeywords.map adRow) ∧
      maxDPSpace < (dearKeywords.map adRow).length * toInt32 (2999999 + 1) ∧
      ¬∀ sol rest ended rest', randomVector (dearKeywords.map adRow) firstOnly = some (sol, rest) →
        repairLoop (dearKeywords.map adRow) 2999999 sol rest = some (ended, rest') →
          0 < ended.1 := by
  refine ⟨by decide +kernel, by decide +kernel, fun h => ?_⟩
  have hended : ((randomVector (dearKeywords.map adRow) firstOnly).bind fun drawn =>
      (repairLoop (dearKeywords.map adRow) 2999999 drawn.1 drawn.2).map fun ended =>
        ended.1.1) = some 0 := by
    decide +kernel
  obtain ⟨⟨sol, rest⟩, hsol, hrepair⟩ := Option.bind_eq_some_iff.mp hended
  obtain ⟨⟨ended, rest'⟩, hloop, hzero⟩ := Option.map_eq_some_iff.mp hrepair
  exact (h sol rest ended rest' hsol hloop).ne' hzero

end AdDelivery.Sponsored.Genetic
