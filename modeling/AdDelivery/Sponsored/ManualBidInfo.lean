import AdDelivery.Core.Table

/-!
# Manual bid prices and budgets

`AdManualBidInfoMgr` keeps what advertisers set by hand: the price of a phrase
of an ad, filed under its campaign, and the daily budget of a campaign.
-/

namespace AdDelivery.Sponsored

structure AdManualBidInfoMgr where
  adCampaignBudgetList : Table String Int := ∅
  manualBidpriceList : Table String (Table String Int) := ∅
deriving Inhabited

namespace AdManualBidInfoMgr

/-- The budget of a campaign for which none was set. -/
def defaultAdBudget : Int := 100

variable (m : AdManualBidInfoMgr) (campaignName : String) (adid : Nat)

def getManualKeyForAd (bidstr : String) : String :=
  toString adid ++ "-" ++ bidstr

def removeManualBidPrice (keyList : List String) : AdManualBidInfoMgr :=
  { m with
    manualBidpriceList := Table.update m.manualBidpriceList campaignName fun v =>
      keyList.foldl (fun v key => v.erase (getManualKeyForAd adid key)) v }

/-- Price the keys in turn; a price of zero removes the key again. The two parallel
vectors of the source are one list of pairs. -/
def setManualBidPrice (keyPriceList : List (String × Int)) : AdManualBidInfoMgr :=
  { m with
    manualBidpriceList := Table.update m.manualBidpriceList campaignName fun v =>
      keyPriceList.foldl (fun v keyPrice =>
        let k := getManualKeyForAd adid keyPrice.1
        let v := Finmap.insert k keyPrice.2 v
        if keyPrice.2 = 0 then v.erase k else v) v }

/-- The manual price of a phrase, zero when it has none. -/
def getManualBidPrice (bidstr : String) : Int :=
  match m.manualBidpriceList.lookup campaignName with
  | none => 0
  | some v => (v.lookup (getManualKeyForAd adid bidstr)).getD 0

def hasManualBidPrice : Bool :=
  match m.manualBidpriceList.lookup campaignName with
  | none => false
  | some v => v.keys ≠ ∅

def setBidBudget (budget : Int) : AdManualBidInfoMgr :=
  { m with adCampaignBudgetList := Finmap.insert campaignName budget m.adCampaignBudgetList }

def getBidBudget (campaign : String) : Int :=
  (m.adCampaignBudgetList.lookup campaign).getD defaultAdBudget

end AdManualBidInfoMgr

end AdDelivery.Sponsored
