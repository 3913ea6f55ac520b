import AdDelivery.Core.Vector
import AdDelivery.Core.Table

/-!
# Auction log

The statistics kept by `AdAuctionLogMgr`: for every ad, every bid keyword and
the whole site, one record per hour key, each with one cell per ad slot. A click
updates the three stores one after another, and the first event of an hour key
recomputes the history record of its ad, of its keyword or of the site from the
forty-eight hours before.
-/

namespace AdDelivery.Sponsored

open Table

/-- The last slot a click or an impression may carry. -/
def maxAdSlot : Nat := 20

/-- How many past hours the history records cover. -/
def historyHours : Nat := 48

def hoursOfDay : Int := 24

/-- The broken-down time fields that the hour key reads. -/
structure Tm where
  tmYear : Int
  tmYday : Int
  tmHour : Int
deriving DecidableEq, Repr

/-- The hour key `hours` after the broken-down time `current`: the carry goes
from the hour to the day of the year, and from there to the year. -/
def gettimestr (current : Tm) (hours : Int) : String :=
  let tmHour := current.tmHour + hours
  let (tmHour, tmYday) :=
    if tmHour < 0 then (tmHour + hoursOfDay, current.tmYday - 1)
    else if hoursOfDay ≤ tmHour then (tmHour - hoursOfDay, current.tmYday + 1)
    else (tmHour, current.tmYday)
  let (tmYday, tmYear) :=
    if tmYday < 0 then (tmYday + 365, current.tmYear - 1)
    else if 365 < tmYday then (tmYday - 365, current.tmYear + 1)
    else (tmYday, current.tmYear)
  toString tmYear ++ toString tmYday ++ toString tmHour

/-- Clicks counted by their cost, in units of 0.01 yuan. -/
abbrev CostList := Table Int Int

/-- Count `num` more clicks at `cost`; the first of them inserts the entry. -/
def addCost (costs : CostList) (cost num : Int) : CostList :=
  match costs.lookup cost with
  | none => Finmap.insert cost num costs
  | some old => Finmap.insert cost (old + num) costs

variable (costs : CostList) (cost num cost' : Int)

theorem lookup_addCost : (addCost costs cost num).lookup cost' =
      if cost' = cost then some (Table.get costs cost + num) else costs.lookup cost' := by
  unfold addCost Table.get
  cases h : costs.lookup cost with
  | none => simp [Table.lookup_insert_eq]
  | some old => simp [lookup_insert_eq]

theorem get_addCost : Table.get (addCost costs cost num) cost' =
      Table.get costs cost' + if cost' = cost then num else 0 := by
  rw [Table.get, lookup_addCost]
  split
  · rename_i h
    subst h
    rfl
  · rw [add_zero, Table.get]

private theorem addCost_comm (c₁ n₁ c₂ n₂ : Int) :
    addCost (addCost costs c₁ n₁) c₂ n₂ = addCost (addCost costs c₂ n₂) c₁ n₁ := by
  apply Finmap.ext_lookup
  intro c
  simp only [lookup_addCost, get_addCost]
  by_cases h₁ : c = c₁ <;> by_cases h₂ : c = c₂ <;> by_cases h₃ : c₁ = c₂ <;> grind

/-- Fold every entry of `other` into `costs`. -/
def mergeCosts (costs other : CostList) : CostList :=
  other.foldl addCost addCost_comm costs

/-- One slot of one ad. -/
structure AdViewSlotInfo where
  impressionNum : Int := 0
  clickNum : Int := 0
  keywordCpc : CostList := ∅
deriving Inhabited

/-- One slot of one bid keyword. -/
structure KeywordViewSlotInfo where
  clickNum : Int := 0
  costList : CostList := ∅
deriving Inhabited

/-- One bid keyword in one period. -/
structure KeywordViewInfo where
  searchedNum : Int := 0
  viewInfo : List KeywordViewSlotInfo := []
deriving Inhabited

/-- The whole site in one period. -/
structure GlobalInfo where
  clickNumList : List Int := []
deriving Inhabited

abbrev AdViewInfo := List AdViewSlotInfo
abbrev AdViewInfoPeriodList := Table String AdViewInfo
abbrev KeywordViewInfoPeriodList := Table String KeywordViewInfo
abbrev GlobalInfoPeriodList := Table String GlobalInfo

structure AdAuctionLogMgr where
  adStatData : Table String AdViewInfoPeriodList := ∅
  keywordStatData : Table String KeywordViewInfoPeriodList := ∅
  globalStatData : GlobalInfoPeriodList := ∅
  adHistoryStatData : Table String AdViewInfo := ∅
  keywordHistoryStatData : Table String KeywordViewInfo := ∅
  globalHistoryStatData : GlobalInfo := {}
deriving Inhabited

/-- Add the cells of one period to a history vector, which first grows to hold them. -/
def mergeSlots {α : Type*} (d : α) (merge : α → α → α) (history period : List α) : List α :=
  period.zipIdx.foldl (fun acc cell => acc.modify cell.2 (merge · cell.1))
    (growTo history period.length d)

def mergeAdSlot (history cell : AdViewSlotInfo) : AdViewSlotInfo where
  impressionNum := history.impressionNum + cell.impressionNum
  clickNum := history.clickNum + cell.clickNum
  keywordCpc := mergeCosts history.keywordCpc cell.keywordCpc

def mergeKeywordSlot (history cell : KeywordViewSlotInfo) : KeywordViewSlotInfo where
  clickNum := history.clickNum + cell.clickNum
  costList := mergeCosts history.costList cell.costList

def mergeKeywordView (history period : KeywordViewInfo) : KeywordViewInfo where
  searchedNum := history.searchedNum + period.searchedNum
  viewInfo := mergeSlots {} mergeKeywordSlot history.viewInfo period.viewInfo

def mergeGlobalInfo (history period : GlobalInfo) : GlobalInfo where
  clickNumList := mergeSlots 0 (· + ·) history.clickNumList period.clickNumList

/-- Sum the recorded periods of the `historyHours` hours before `now`. -/
def recentHistory {ν : Type*} (merge : ν → ν → ν) (init : ν) (now : Tm)
    (periods : Table String ν) : ν :=
  (List.range' 1 historyHours).foldl (fun history (i : Nat) =>
    match periods.lookup (gettimestr now (0 - (i : Int))) with
    | none => history
    | some period => merge history period) init

variable (s : AdAuctionLogMgr) (now : Tm)

def updateHistoryAdLogData (adid : String)
    (adPeriodInfo : AdViewInfoPeriodList) : AdAuctionLogMgr :=
  { s with
    adHistoryStatData := Finmap.insert adid
      (recentHistory (mergeSlots {} mergeAdSlot) [] now adPeriodInfo) s.adHistoryStatData }

def updateHistoryKeywordLogData (kid : String)
    (keywordPeriodInfo : KeywordViewInfoPeriodList) : AdAuctionLogMgr :=
  { s with
    keywordHistoryStatData := Finmap.insert kid
      (recentHistory mergeKeywordView {} now keywordPeriodInfo) s.keywordHistoryStatData }

def updateHistoryGlobalLogData : AdAuctionLogMgr :=
  { s with globalHistoryStatData := recentHistory mergeGlobalInfo {} now s.globalStatData }

/-- One click in an ad's cell. -/
def AdViewSlotInfo.click (cost : Int) (cell : AdViewSlotInfo) : AdViewSlotInfo :=
  { cell with clickNum := cell.clickNum + 1, keywordCpc := addCost cell.keywordCpc cost 1 }

/-- One click in a keyword's cell. -/
def KeywordViewSlotInfo.click (cost : Int) (cell : KeywordViewSlotInfo) : KeywordViewSlotInfo where
  clickNum := cell.clickNum + 1
  costList := addCost cell.costList cost 1

/-- The record of one ad in the hour of a valid click: the slot vector only grows. -/
def clickAdView (cost : Int) (slot : Nat) (view : AdViewInfo) : AdViewInfo :=
  (growTo view (slot + 1) {}).modify slot (AdViewSlotInfo.click cost)

/-- The record of one keyword in the hour of a click: the slot vector is resized to
end at the clicked slot. -/
def clickKeywordView (cost : Int) (slot : Nat) (view : KeywordViewInfo) : KeywordViewInfo :=
  { view with
    viewInfo := (resize view.viewInfo (slot + 1) {}).modify slot
      (KeywordViewSlotInfo.click cost) }

/-- The site's record in the hour of a click, resized in the same way. -/
def clickGlobalInfo (slot : Nat) (info : GlobalInfo) : GlobalInfo where
  clickNumList := (resize info.clickNumList (slot + 1) 0).modify slot (· + 1)

/-- Touch the ad's record for this hour. A slot above `maxAdSlot` leaves the record
empty-handed, but the entry of the hour has been created by then. -/
def logAdClick (adId : String) (cost : Int) (slot : Nat) : AdAuctionLogMgr :=
  let timestr := gettimestr now 0
  let adStat := get s.adStatData adId
  let s := if timestr ∈ adStat then s else updateHistoryAdLogData s now adId adStat
  let view := if maxAdSlot < slot then id else clickAdView cost slot
  { s with adStatData := update s.adStatData adId (update · timestr view) }

def logKeywordClick (keywordStr : String) (cost : Int) (slot : Nat) : AdAuctionLogMgr :=
  let timestr := gettimestr now 0
  let keyStat := get s.keywordStatData keywordStr
  let s := if timestr ∈ keyStat then s else updateHistoryKeywordLogData s now keywordStr keyStat
  { s with
    keywordStatData := update s.keywordStatData keywordStr
      (update · timestr (clickKeywordView cost slot)) }

def logGlobalClick (slot : Nat) : AdAuctionLogMgr :=
  let timestr := gettimestr now 0
  let s := if timestr ∈ s.globalStatData then s else updateHistoryGlobalLogData s now
  { s with globalStatData := update s.globalStatData timestr (clickGlobalInfo slot) }

/-- Record one click. An invalid slot returns after the ad's store was touched. -/
def AdAuctionLogMgr.updateAuctionLogData
    (adId keywordStr : String) (clickCostInFen : Int) (clickSlot : Nat) : AdAuctionLogMgr :=
  let s := logAdClick s now adId clickCostInFen clickSlot
  if maxAdSlot < clickSlot then s
  else logGlobalClick (logKeywordClick s now keywordStr clickCostInFen clickSlot) now clickSlot

/-- One impression of an ad at a valid slot. -/
def viewAdView (slot : Nat) (view : AdViewInfo) : AdViewInfo :=
  (growTo view (slot + 1) {}).modify slot
    fun cell => { cell with impressionNum := cell.impressionNum + 1 }

/-- Record one impression per ranked ad, by its rank. The loop gives up at the first
rank beyond `maxAdSlot`, and then no keyword search is counted either. -/
def logImpressions (s : AdAuctionLogMgr) (now : Tm) : List String → Nat → AdAuctionLogMgr × Bool
  | [], _ => (s, true)
  | adId :: rest, slot =>
    let timestr := gettimestr now 0
    let adStat := get s.adStatData adId
    let s := if timestr ∈ adStat then s else updateHistoryAdLogData s now adId adStat
    let view := if maxAdSlot < slot then id else viewAdView slot
    let s := { s with
      adStatData := update s.adStatData adId (update · timestr view) }
    if maxAdSlot < slot then (s, false) else logImpressions s now rest (slot + 1)

def logKeywordSearch (keyword : String) : AdAuctionLogMgr :=
  let timestr := gettimestr now 0
  let keyStat := get s.keywordStatData keyword
  let s := if timestr ∈ keyStat then s else updateHistoryKeywordLogData s now keyword keyStat
  { s with
    keywordStatData := update s.keywordStatData keyword
      (update · timestr fun view => { view with searchedNum := view.searchedNum + 1 }) }

/-- Update the impression statistics after a search: `keywordList` is the set of hit
bid phrases in its order. -/
def AdAuctionLogMgr.updateAdSearchStat (keywordList rankedAdList : List String) : AdAuctionLogMgr :=
  match logImpressions s now rankedAdList 0 with
  | (s, false) => s
  | (s, true) => keywordList.foldl (logKeywordSearch · now ·) s

end AdDelivery.Sponsored
