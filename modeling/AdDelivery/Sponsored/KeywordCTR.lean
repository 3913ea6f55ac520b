import AdDelivery.Sponsored.AuctionLog
import Mathlib.Data.Rat.Cast.Order

/-!
# The click rates of a keyword

`getKeywordCTR` answers the click rate of a keyword at one slot or at all slots, and
`getKeywordStatData` answers the rates at all slots beside the costs. The answer for one slot
divides as a `double`, the two others divide the integers and drop the fraction. They agree
where the number of searches divides the number of clicks.
-/

namespace AdDelivery.Sponsored

/-- Fewer searches than these say nothing about a rate. -/
def minSearchNum : Int := 1000

def defaultAdCTR : ℚ := 3 / 1000

def defaultClickCost : Int := 50

/-- Divisions of `int` drop the fraction. -/
def getDefaultCostForSlot (slot : ℕ) : Int :=
  (defaultClickCost * ((maxAdSlot : Int) - slot)).tdiv maxAdSlot

def getDefaultCTRForSlot (slot : ℕ) : ℚ := defaultAdCTR * (maxAdSlot - slot * (3 / 2)) / maxAdSlot

/-- An `int` as a `std::size_t`. -/
def sizeOfInt (n : Int) : ℕ := if n < 0 then (2 ^ 64 + n).toNat else n.toNat

/-- The average cost of the clicks in one cell. -/
def averageCost (slot : ℕ) (cell : KeywordViewSlotInfo) : Int :=
  let totalCost := (cell.costList.inOrder.map fun entry => entry.1 * entry.2).sum
  let totalNum := (cell.costList.inOrder.map Prod.snd).sum
  if totalNum < 1 then getDefaultCostForSlot slot else totalCost.tdiv totalNum

/-- The rates at all slots, as the quotients of two `int`. -/
def ctrList (info : KeywordViewInfo) : List ℚ :=
  info.viewInfo.map fun cell => ((cell.clickNum.tdiv info.searchedNum : Int) : ℚ)

/-- The clicks at a slot, none behind the last one. -/
def clickedNum (info : KeywordViewInfo) (slot : ℕ) : ℕ :=
  match info.viewInfo[slot]? with
  | none => 0
  | some cell => sizeOfInt cell.clickNum

namespace AdAuctionLogMgr

/-- `getKeywordCTR` for all slots. -/
def getKeywordCTRList (s : AdAuctionLogMgr) (kid : String) : List ℚ :=
  match s.keywordHistoryStatData.lookup kid with
  | none => []
  | some info => if info.searchedNum < minSearchNum then [] else ctrList info

/-- `getKeywordCTR` for one slot. -/
def getKeywordCTR (s : AdAuctionLogMgr) (kid : String) (slot : ℕ) : ℚ :=
  match s.keywordHistoryStatData.lookup kid with
  | none => getDefaultCTRForSlot slot
  | some info =>
    let clicked := clickedNum info slot
    if clicked < 1 ∨ info.searchedNum < minSearchNum then getDefaultCTRForSlot slot
    else (clicked : ℚ) / info.searchedNum

/-- The average daily impression, the costs and the rates. -/
def getKeywordStatData (s : AdAuctionLogMgr) (kid : String) : Int × List Int × List ℚ :=
  match s.keywordHistoryStatData.lookup kid with
  | none => (0, [], [])
  | some info =>
    let avgImpression := info.searchedNum.tdiv ((historyHours : Int).tdiv hoursOfDay)
    if info.searchedNum < minSearchNum then (avgImpression, [], [])
    else (avgImpression, info.viewInfo.zipIdx.map fun entry => averageCost entry.2 entry.1,
      ctrList info)

/-- The three answers for one slot are the number of clicks over the number of searches. -/
structure CTRPathsAgree (s : AdAuctionLogMgr) (kid : String) (slot : ℕ) (rate : ℚ) : Prop where
  one : s.getKeywordCTR kid slot = rate
  all : (s.getKeywordCTRList kid)[slot]? = some rate
  statData : (s.getKeywordStatData kid).2.2[slot]? = some rate

end AdAuctionLogMgr

open AdAuctionLogMgr

/-- A division that drops the fraction is exact for multiples only. -/
theorem cast_tdiv_eq_div_iff {a b : Int} (ha : 0 ≤ a) (hb : 0 < b) :
    ((a.tdiv b : Int) : ℚ) = a / b ↔ b ∣ a := by
  have hb' : (b : ℚ) ≠ 0 := by exact_mod_cast hb.ne'
  rw [Int.tdiv_eq_ediv_of_nonneg ha, eq_div_iff hb']
  constructor
  · intro heq
    have hmul : a / b * b = a := by exact_mod_cast heq
    exact ⟨a / b, by rw [mul_comm, hmul]⟩
  · intro hdvd
    have hmul : a / b * b = a := Int.ediv_mul_cancel hdvd
    exact_mod_cast hmul

section Slot

variable {s : AdAuctionLogMgr} {kid : String} {info : KeywordViewInfo}
  {slot : ℕ} {cell : KeywordViewSlotInfo}

/-- The answer for one slot is exact. -/
theorem getKeywordCTR_eq (hinfo : s.keywordHistoryStatData.lookup kid = some info)
    (hsearched : minSearchNum ≤ info.searchedNum) (hcell : info.viewInfo[slot]? = some cell)
    (hclick : 1 ≤ cell.clickNum) : s.getKeywordCTR kid slot = cell.clickNum / info.searchedNum := by
  have hclicked : clickedNum info slot = cell.clickNum.toNat := by
    rw [clickedNum, hcell]
    exact if_neg (by omega)
  have hcast : ((cell.clickNum.toNat : ℕ) : ℚ) = cell.clickNum := by
    exact_mod_cast Int.toNat_of_nonneg (show 0 ≤ cell.clickNum by omega)
  have hnot : ¬ (cell.clickNum.toNat < 1 ∨ info.searchedNum < minSearchNum) := by omega
  rw [getKeywordCTR, hinfo]
  dsimp only
  rw [hclicked, if_neg hnot, hcast]

/-- The answers for all slots hold the quotient of the integers. -/
theorem getElem?_ctrList (hcell : info.viewInfo[slot]? = some cell) :
    (ctrList info)[slot]? = some ((cell.clickNum.tdiv info.searchedNum : Int) : ℚ) := by
  rw [ctrList, List.getElem?_map, hcell, Option.map_some]

theorem getKeywordCTRList_eq (hinfo : s.keywordHistoryStatData.lookup kid = some info)
    (hsearched : minSearchNum ≤ info.searchedNum) :
    s.getKeywordCTRList kid = ctrList info ∧ (s.getKeywordStatData kid).2.2 = ctrList info := by
  have hnot : ¬ info.searchedNum < minSearchNum := not_lt.mpr hsearched
  rw [getKeywordCTRList, getKeywordStatData, hinfo]
  dsimp only
  rw [if_neg hnot, if_neg hnot]
  exact ⟨rfl, rfl⟩

/-- For a keyword with enough searches and a slot with a click, the answers for one slot and for
all slots are the rate exactly when the searches divide the clicks. -/
theorem ctrPathsAgree_iff (hinfo : s.keywordHistoryStatData.lookup kid = some info)
    (hsearched : minSearchNum ≤ info.searchedNum) (hcell : info.viewInfo[slot]? = some cell)
    (hclick : 1 ≤ cell.clickNum) : s.CTRPathsAgree kid slot (cell.clickNum / info.searchedNum) ↔
      info.searchedNum ∣ cell.clickNum := by
  have hpos : 0 < info.searchedNum := lt_of_lt_of_le (by decide) hsearched
  obtain ⟨hlist, hstat⟩ := getKeywordCTRList_eq hinfo hsearched
  rw [← cast_tdiv_eq_div_iff (by omega) hpos]
  constructor
  · intro hagree
    have hall := hagree.all
    rw [hlist, getElem?_ctrList hcell] at hall
    exact Option.some.inj hall
  · intro hexact
    refine ⟨getKeywordCTR_eq hinfo hsearched hcell hclick, ?_, ?_⟩
    · rw [hlist, getElem?_ctrList hcell, hexact]
    · rw [hstat, getElem?_ctrList hcell, hexact]

end Slot

/-- A history with one keyword that was searched for 1000 times, with clicks on its first slot. -/
def oneSlotHistory (clicks : Int) : AdAuctionLogMgr :=
  { keywordHistoryStatData :=
      Finmap.insert "phone" { searchedNum := 1000, viewInfo := [{ clickNum := clicks }] } ∅ }

theorem lookup_oneSlotHistory (clicks : Int) :
    (oneSlotHistory clicks).keywordHistoryStatData.lookup "phone" =
      some { searchedNum := 1000, viewInfo := [{ clickNum := clicks }] } :=
  Finmap.lookup_insert _

/-- As many clicks as searches. -/
theorem ctrPathsAgree_everyClick :
    (oneSlotHistory 1000).CTRPathsAgree "phone" 0 ((1000 : Int) / (1000 : Int)) := by
  have hsearched : minSearchNum ≤ 1000 := le_rfl
  have hcell : ([{ clickNum := 1000 }] : List KeywordViewSlotInfo)[0]? =
      some { clickNum := 1000 } := rfl
  have hclick : (1 : Int) ≤ 1000 := by decide
  exact (ctrPathsAgree_iff (lookup_oneSlotHistory 1000) hsearched hcell hclick).mpr
    (dvd_refl (1000 : Int))

/-- One click in a thousand searches: the answers for all slots are 0. -/
theorem not_ctrPathsAgree_oneClick :
    ¬ (oneSlotHistory 1).CTRPathsAgree "phone" 0 ((1 : Int) / (1000 : Int)) := by
  intro hagree
  have hsearched : minSearchNum ≤ 1000 := le_rfl
  have hall := hagree.all
  have hdvd := (cast_tdiv_eq_div_iff (by decide) (by decide)).mp (Option.some.inj hall)
  exact absurd hdvd (by decide)

end AdDelivery.Sponsored
