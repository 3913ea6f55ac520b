import AdDelivery.Core.Int32
import AdDelivery.Core.Run
import AdDelivery.Core.Vector
import AdDelivery.Sponsored.AuctionLog
import AdDelivery.Sponsored.BidPhrase
import AdDelivery.Sponsored.ManualBidInfo
import Mathlib.Data.Finset.Sort

/-!
# The sponsored ad manager

`AdSponsoredMgr` keeps, in parallel vectors indexed by ad or by campaign, the
bid phrases of every ad, the texts they came from, the campaign of every ad and
what each campaign has spent. Mining rebuilds the vectors for a range of ads;
the other calls edit them in place. Where the code indexes a vector without a
test, the model returns `none` when the index is out of range.
-/

namespace AdDelivery.Sponsored

/-- What one keyword looks like to the bid strategies. -/
structure AdQueryStatisticInfo where
  cpc : List Int := []
  ctr : List ℚ := []
  impression : Int := 0
  minBid : Int := 1
  bid : Int := -1

abbrev BidAuctionLandscape := List (Int × ℚ)

inductive BidStrategyType
  | uniformBid
  | geneticBid
  | realtimeBid
  | unknown
deriving DecidableEq

/-- The statistics and strategies that the manager consults, as they answer during
one call. -/
structure BidEngine where
  getAdCTR : AdAuctionLogMgr → String → ℚ
  getKeywordBidLandscape : AdAuctionLogMgr → Table String BidAuctionLandscape
  getKeywordStatData : AdAuctionLogMgr → String → Int × List Int × List ℚ
  getKeywordCurrentImpression : AdAuctionLogMgr → String → Int
  convexUniformBid : List AdQueryStatisticInfo → Int → List (Int × ℚ)
  geneticBid : List AdQueryStatisticInfo → Int → List Int
  realtimeBidWithRevenueMax : AdQueryStatisticInfo → Int → Int → Int
  /-- `budget / left_ratio` at an hour of the day: a quotient of doubles, cut to an `int`. -/
  overLeftRatio : Int → Int → Int

/-- What the code around the manager answers during one call. -/
structure World where
  /-- The id manager: the document id of an ad's string id. -/
  getAdIdFromAdStrId : String → Option Nat
  /-- The document manager: the string id of a document. -/
  getAdStrIdFromAdId : Nat → Option String
  /-- The document manager: one property of a document. -/
  getPropertyValue : Nat → String → Option String
  now : Tm
  engine : BidEngine

/-- `boost::split` at any of the given separators. -/
structure Splitter where
  split : String → String → List String
  /-- No piece has a separator in it. -/
  clean : ∀ separators str, ∀ piece ∈ split separators str, ∀ c ∈ piece.toList,
    c ∉ separators.toList

/-- What is fixed when the manager is set up. -/
structure Config where
  tk : TitlePCA
  adTitleProp : String
  adBidphraseProp : String
  adCampaignProp : String
  /-- A price text in units of 0.01 yuan, if it is a number. -/
  priceInFen : String → Option Int
  splitter : Splitter

structure AdSponsoredMgr where
  adBidphraseList : List BidPhraseList := []
  adOrigBidstrList : List (List String) := []
  adStatusBitmap : List Bool := []
  adCtrList : List ℚ := []
  /-- `keyword_id_value_list_` and `keyword_value_id_list_`. -/
  keywords : Dictionary String := {}
  adBudgetUsedList : List Int32 := []
  /-- `ad_campaign_name_list_` and `ad_campaign_name_id_list_`. -/
  campaigns : Dictionary String := {}
  adCampaignBelongList : List Nat := []
  adCampaignBidPhraseList : List (Finset String) := []
  adLogMgr : AdAuctionLogMgr := {}
  bidStrategyType : BidStrategyType := .uniformBid
  adBidPriceList : List (Table String Int) := []
  adUniformBidPriceList : List (List (Int × ℚ)) := []
  manualBidinfoMgr : AdManualBidInfoMgr := {}

def lowestClickCost : Int := 40

/-- A `std::set` of strings filled from a list, in its iteration order. -/
def sortedSet (texts : List String) : List String := texts.dedup.insertionSort (· ≤ ·)

@[simp] theorem mem_sortedSet {texts : List String} {text : String} :
    text ∈ sortedSet texts ↔ text ∈ texts := by
  rw [sortedSet, List.mem_insertionSort, List.mem_dedup]

namespace AdSponsoredMgr

/-- One record per phrase of a campaign, in the order of the set. -/
def getBidStatisticalData (engine : BidEngine) (s : AdSponsoredMgr) (bidstrList : Finset String) :
    List AdQueryStatisticInfo :=
  (bidstrList.sort (· ≤ ·)).map fun bidstr =>
    let searchedNum := (Table.get s.adLogMgr.keywordHistoryStatData bidstr).searchedNum
    let landscape := Table.get (engine.getKeywordBidLandscape s.adLogMgr) bidstr
    { cpc := landscape.map Prod.fst
      ctr := landscape.map Prod.snd
      impression := searchedNum.tdiv (historyHours / hoursOfDay)
      minBid := lowestClickCost }

/-- The budget of a campaign less what it has used, as an `int`. -/
def leftBudget (s : AdSponsoredMgr) (campaign : String) (used : Int32) : Int :=
  toInt32 (s.manualBidinfoMgr.getBidBudget campaign - used.toInt)

variable (s : AdSponsoredMgr) (cfg : Config) (w : World)

/-- The budget of one campaign, scaled to what is left of the day. -/
def adDailyBudget (s : AdSponsoredMgr) (campaign : String) (campaignId : Nat) : Int :=
  w.engine.overLeftRatio (s.leftBudget campaign (s.adBudgetUsedList.getD campaignId 0)) w.now.tmHour

/-- The campaigns that bid automatically, with their ids and phrases. A campaign without a
phrase set ends the loop. -/
def autoCampaigns : List (String × Nat × Finset String) :=
  ((s.campaigns.idValueList.zipIdx.zip s.adCampaignBidPhraseList).filter fun c =>
    !s.manualBidinfoMgr.hasManualBidPrice c.1.1).map fun c => (c.1.1, c.1.2, c.2)

/-- Uniform bids: a distribution over prices for each automatic campaign. -/
def uniformBidPrices (s : AdSponsoredMgr) : List (List (Int × ℚ)) :=
  s.autoCampaigns.foldl (fun prices c =>
    prices.set c.2.1 (w.engine.convexUniformBid (getBidStatisticalData w.engine s c.2.2)
      (s.adDailyBudget w c.1 c.2.1)))
    (List.replicate s.campaigns.idValueList.length [])

/-- Genetic bids. The iterator over the phrases is never advanced, so each price is
written to the first phrase and the last one stays. -/
def geneticBidPrices (s : AdSponsoredMgr) : List (Table String Int) :=
  s.autoCampaigns.foldl (fun prices c =>
    match c.2.2.sort (· ≤ ·) with
    | [] => prices
    | bidstr :: _ =>
      let bids := w.engine.geneticBid (getBidStatisticalData w.engine s c.2.2)
        (s.adDailyBudget w c.1 c.2.1)
      prices.modify c.2.1 fun table => bids.foldl (fun t bid => Finmap.insert bidstr bid t) table)
    (List.replicate s.campaigns.idValueList.length ∅)

/-- Give every campaign a budget entry and recompute click rates and automatic bids. -/
def resetDailyLogStatisticalData (s : AdSponsoredMgr) (resetUsed : Bool) : AdSponsoredMgr :=
  let used := if resetUsed then [] else s.adBudgetUsedList
  let s := { s with adBudgetUsedList := resize used s.campaigns.idValueList.length 0 }
  let ctrs := (List.range s.adBidphraseList.length).map fun adid =>
    match w.getAdStrIdFromAdId adid with
    | none => 0
    | some adStrid => w.engine.getAdCTR s.adLogMgr adStrid
  match s.bidStrategyType with
  | .uniformBid =>
    { s with
      adCtrList := ctrs, adBidPriceList := [], adUniformBidPriceList := uniformBidPrices w s }
  | .geneticBid =>
    { s with
      adCtrList := ctrs, adBidPriceList := geneticBidPrices w s, adUniformBidPriceList := [] }
  | _ => { s with adCtrList := ctrs, adBidPriceList := [], adUniformBidPriceList := [] }

/-- Store the phrases made from `texts` as those of the ad `adid`. -/
def storePhrases (adid : Nat) (texts : List String)
    (phrases : List (BidPhrase × String)) (keywords : Dictionary String) : AdSponsoredMgr :=
  { s with
    keywords := keywords
    adBidphraseList := s.adBidphraseList.set adid (phrases.map Prod.fst)
    adOrigBidstrList := s.adOrigBidstrList.set adid texts }

/-- What mining reads from one ad document. -/
structure AdCreative where
  campaign : String
  /-- The bid phrase texts, or the title alone. -/
  texts : List String
  hasBidstr : Bool
  /-- The prices of the texts, when the document gives any. -/
  priceList : Option (List Int)

/-- Read the properties of one ad. One value is reused for all of them, so a missing
property reads as the one read before it. -/
def readCreative (adid : Nat) : AdCreative :=
  let bidstr := (w.getPropertyValue adid cfg.adBidphraseProp).getD ""
  let campaign := (w.getPropertyValue adid cfg.adCampaignProp).getD bidstr
  let docStrid := (w.getPropertyValue adid "DOCID").getD campaign
  let campaign := if campaign.isEmpty then docStrid else campaign
  if bidstr.isEmpty then
    let adTitle := (w.getPropertyValue adid cfg.adTitleProp).getD docStrid
    { campaign, texts := [adTitle], hasBidstr := false, priceList := none }
  else
    let texts := cfg.splitter.split ",;" bidstr
    let bidpriceStr := (w.getPropertyValue adid "KeywordsPrice").getD docStrid
    let pricestrList := resize
      (if bidpriceStr.isEmpty then [] else cfg.splitter.split "," bidpriceStr) texts.length ""
    let priceintList := pricestrList.map fun pricestr =>
      if pricestr.isEmpty then 0 else (cfg.priceInFen pricestr).getD 0
    { campaign, texts, hasBidstr := true
      priceList := if bidpriceStr.isEmpty then none else some priceintList }

/-- File one mined ad under its campaign. -/
def fileAd (m : AdSponsoredMgr) (adid : Nat) (campaign : String) (bidstrs : List String) :
    AdSponsoredMgr :=
  let (campaignId, campaigns) := m.campaigns.intern campaign
  { m with
    campaigns := campaigns
    adCampaignBelongList := (growTo m.adCampaignBelongList (adid + 1) 0).set adid campaignId
    adCampaignBidPhraseList := (growTo m.adCampaignBidPhraseList (campaignId + 1) ∅).modify
      campaignId (· ∪ bidstrs.toFinset) }

/-- Mine one ad into the new tables. -/
def mineAd (m : AdSponsoredMgr) (adid : Nat) : AdSponsoredMgr :=
  let ad := readCreative cfg w adid
  let (phrases, keywords) := generateBidPhrases cfg.tk true ad.texts [] m.keywords
  let bidstrs := phrases.map Prod.snd
  let orig := if ad.hasBidstr then ad.texts
    else getBidPhraseStrList keywords (phrases.map Prod.fst)
  let manual := match ad.priceList with
    | none => m.manualBidinfoMgr
    | some prices => m.manualBidinfoMgr.setManualBidPrice ad.campaign adid (bidstrs.zip prices)
  let m := { m with manualBidinfoMgr := manual }.storePhrases adid orig phrases keywords
  fileAd m adid ad.campaign bidstrs

/-- The tables mining starts from: the ads below `startId` are kept. -/
def miningStart (startId endId : Nat) : AdSponsoredMgr :=
  let copyNum := if s.adBidphraseList.length < startId then s.adBidphraseList.length else startId
  { s with
    adBidphraseList := resize (s.adBidphraseList.take copyNum) (endId + 1) []
    adOrigBidstrList := resize (s.adOrigBidstrList.take copyNum) (endId + 1) []
    adStatusBitmap := resize s.adStatusBitmap (endId + 1) false }

/-- Mine the ads `startId .. endId` on copies of the tables, then swap the copies in. -/
def miningAdCreatives (s : AdSponsoredMgr) (startId endId : Nat) : AdSponsoredMgr :=
  let m := (List.range' startId (endId + 1 - startId)).foldl (mineAd cfg w)
    (s.miningStart startId endId)
  m.resetDailyLogStatisticalData w false

/-- Add phrases to an ad and price them. The answer is whether the ad was found. -/
def updateAdBidPhrase (s : AdSponsoredMgr) (adStrid : String)
    (bidPhraseList : List String) (priceList : List Int) : Option (Bool × AdSponsoredMgr) :=
  match w.getAdIdFromAdStrId adStrid with
  | none => some (false, s)
  | some adid =>
    if s.adOrigBidstrList.length ≤ adid then some (false, s)
    else do
      let orig ← s.adOrigBidstrList[adid]?
      let campaignId ← s.adCampaignBelongList[adid]?
      let campaignName ← s.campaigns.idValueList[campaignId]?
      guard (bidPhraseList.length ≤ priceList.length)
      guard (adid < s.adBidphraseList.length)
      let diffBidstrList := sortedSet (orig ++ bidPhraseList)
      let priceMap : Table String Int := (bidPhraseList.zip priceList).foldl
        (fun prices keyPrice => Finmap.insert keyPrice.1 keyPrice.2 prices) ∅
      let (phrases, keywords) := generateBidPhrases cfg.tk true diffBidstrList [] s.keywords
      let changed := (diffBidstrList.zip phrases).filterMap fun entry =>
        (priceMap.lookup entry.1).map fun price => (entry.2.2, price)
      let s := s.storePhrases adid diffBidstrList phrases keywords
      pure (true, { s with
        manualBidinfoMgr := s.manualBidinfoMgr.setManualBidPrice campaignName adid changed })

/-- Remove phrases from an ad, with their manual prices. The deleted texts are analysed
with a phrase variable that is not cleared between them. -/
def delAdBidPhrase (s : AdSponsoredMgr) (adStrid : String)
    (bidPhraseList : List String) : Option (Bool × AdSponsoredMgr) :=
  match w.getAdIdFromAdStrId adStrid with
  | none => some (false, s)
  | some adid =>
    if s.adOrigBidstrList.length ≤ adid then some (false, s)
    else do
      let orig ← s.adOrigBidstrList[adid]?
      if orig.isEmpty then pure (true, s)
      else
        let campaignId ← s.adCampaignBelongList[adid]?
        let campaignName ← s.campaigns.idValueList[campaignId]?
        guard (adid < s.adBidphraseList.length)
        let diffBidstrList := sortedSet (orig.filter (· ∉ bidPhraseList))
        let (deleted, keywords) := generateBidPhrases cfg.tk false bidPhraseList [] s.keywords
        let (phrases, keywords) := generateBidPhrases cfg.tk true diffBidstrList [] keywords
        let s := s.storePhrases adid diffBidstrList phrases keywords
        pure (true, { s with
          manualBidinfoMgr := s.manualBidinfoMgr.removeManualBidPrice campaignName adid
            (deleted.map Prod.snd) })

/-- Replace all phrases of an ad; the phrase variable is carried from text to text. -/
def replaceAdBidPhrase (s : AdSponsoredMgr) (adid : Nat)
    (bidPhraseList : List String) : Option AdSponsoredMgr := do
  guard (adid < s.adBidphraseList.length)
  guard (adid < s.adOrigBidstrList.length)
  let (phrases, keywords) := generateBidPhrases cfg.tk false bidPhraseList [] s.keywords
  pure (s.storePhrases adid bidPhraseList phrases keywords)

def getBidKeywordIdFromStrWithInsert (keyword : String) : AdSponsoredMgr :=
  { s with keywords := (s.keywords.intern keyword).2 }

/-- Set or clear the offline bit of every ad that is found. -/
def setOnlineStatus (w : World) : List (String × Bool) → AdSponsoredMgr → Option AdSponsoredMgr
  | [], s => some s
  | (adStrid, isOnline) :: rest, s =>
    match w.getAdIdFromAdStrId adStrid with
    | none => setOnlineStatus w rest s
    | some adid =>
      if adid < s.adStatusBitmap.length then
        setOnlineStatus w rest { s with adStatusBitmap := s.adStatusBitmap.set adid (!isOnline) }
      else none

def updateAdOnlineStatus (s : AdSponsoredMgr) (adStridList : List String)
    (isOnlineList : List Bool) : Option (Bool × AdSponsoredMgr) :=
  if adStridList.length ≠ isOnlineList.length then some (false, s)
  else (setOnlineStatus w (adStridList.zip isOnlineList) s).map (true, ·)

def changeDailyBudget (adCampaignName : String) (dailybudget : Int) : AdSponsoredMgr :=
  { s with manualBidinfoMgr := s.manualBidinfoMgr.setBidBudget adCampaignName dailybudget }

/-- Charge a click to the campaign of its ad, if the campaign has a budget entry. -/
def consumeBudget (adid : Nat) (cost : Int) : AdSponsoredMgr :=
  match s.adCampaignBelongList[adid]? with
  | none => s
  | some campaignId =>
    if s.adBudgetUsedList.length ≤ campaignId then s
    else { s with adBudgetUsedList := s.adBudgetUsedList.modify campaignId (· + Int32.ofInt cost) }

/-- Log a click, then charge it when its ad is known. -/
def updateAuctionLogData (cfg : Config) (w : World) (s : AdSponsoredMgr)
    (adStrid hitOrigBidstr : String) (clickCostInFen : Int) (clickSlot : Nat) : AdSponsoredMgr :=
  let hitBidstr := preprocessBidPhraseStr cfg.tk hitOrigBidstr
  let s := { s with
    adLogMgr := s.adLogMgr.updateAuctionLogData w.now adStrid hitBidstr clickCostInFen clickSlot }
  match w.getAdIdFromAdStrId adStrid with
  | none => s
  | some adid => s.consumeBudget adid clickCostInFen

end AdSponsoredMgr

/-- A range of documents to mine; the task builder runs only over ranges that are not empty. -/
structure DocRange where
  startId : Nat
  endId : Nat
  le : startId ≤ endId

inductive ManagerCall
  | miningAdCreatives (range : DocRange)
  | updateAdBidPhrase (adStrid : String) (bidPhraseList : List String) (priceList : List Int)
  | delAdBidPhrase (adStrid : String) (bidPhraseList : List String)
  | replaceAdBidPhrase (adid : Nat) (bidPhraseList : List String)
  | getBidKeywordIdFromStrWithInsert (keyword : String)
  | updateAdOnlineStatus (adStridList : List String) (isOnlineList : List Bool)
  | changeDailyBudget (adCampaignName : String) (dailybudget : Int)
  | updateAuctionLogData (adStrid hitOrigBidstr : String) (clickCostInFen : Int) (clickSlot : Nat)
  | resetDailyLogStatisticalData (resetUsed : Bool)

/-- The state after one call, if no access of it is out of range. -/
def AdSponsoredMgr.step (cfg : Config) (s : AdSponsoredMgr) (w : World) :
    ManagerCall → Option AdSponsoredMgr
  | .miningAdCreatives range => some (s.miningAdCreatives cfg w range.startId range.endId)
  | .updateAdBidPhrase adStrid bidPhraseList priceList =>
    (s.updateAdBidPhrase cfg w adStrid bidPhraseList priceList).map Prod.snd
  | .delAdBidPhrase adStrid bidPhraseList =>
    (s.delAdBidPhrase cfg w adStrid bidPhraseList).map Prod.snd
  | .replaceAdBidPhrase adid bidPhraseList => s.replaceAdBidPhrase cfg adid bidPhraseList
  | .getBidKeywordIdFromStrWithInsert keyword => some (s.getBidKeywordIdFromStrWithInsert keyword)
  | .updateAdOnlineStatus adStridList isOnlineList =>
    (s.updateAdOnlineStatus w adStridList isOnlineList).map Prod.snd
  | .changeDailyBudget adCampaignName dailybudget =>
    some (s.changeDailyBudget adCampaignName dailybudget)
  | .updateAuctionLogData adStrid hitOrigBidstr clickCostInFen clickSlot =>
    some (s.updateAuctionLogData cfg w adStrid hitOrigBidstr clickCostInFen clickSlot)
  | .resetDailyLogStatisticalData resetUsed => some (s.resetDailyLogStatisticalData w resetUsed)

/-- One call of a run, with what the surroundings answer to it. -/
structure ManagerEvent where
  world : World
  call : ManagerCall

def ManagerStep (cfg : Config) (s : AdSponsoredMgr) (e : ManagerEvent) (s' : AdSponsoredMgr) :
    Prop :=
  s.step cfg e.world e.call = some s'

/-- Strategies that never bid, over empty statistics. -/
def idleEngine : BidEngine where
  getAdCTR _ _ := 0
  getKeywordBidLandscape _ := ∅
  getKeywordStatData _ _ := (0, [], [])
  getKeywordCurrentImpression _ _ := 0
  convexUniformBid _ _ := []
  geneticBid _ _ := []
  realtimeBidWithRevenueMax _ _ _ := 0
  overLeftRatio budget hour := (budget * 24).tdiv (24 - hour)

/-- Every piece between two separators, the empty ones included. -/
def splitOn : Splitter where
  split separators str :=
    (str.toList.splitOnP fun c => separators.toList.contains c).map String.ofList
  clean separators str piece hpiece c hc := by
    obtain ⟨chars, hchars, rfl⟩ := List.mem_map.mp hpiece
    rw [String.toList_ofList] at hc
    simpa using not_sep_of_mem_splitOnP hchars c hc

def shopConfig : Config where
  tk := blankPCA
  adTitleProp := "Title"
  adBidphraseProp := "Keywords"
  adCampaignProp := "Campaign"
  priceInFen _ := none
  splitter := splitOn

/-- One ad of one campaign, with one bid phrase. -/
def shopWorld : World where
  getAdIdFromAdStrId adStrid := if adStrid = "ad1" then some 1 else none
  getAdStrIdFromAdId adid := if adid = 1 then some "ad1" else none
  getPropertyValue
    | 1, "Keywords" => some "red phone"
    | 1, "Campaign" => some "phones"
    | 1, "DOCID" => some "ad1"
    | 1, "KeywordsPrice" => some ""
    | _, _ => none
  now := ⟨113, 100, 9⟩
  engine := idleEngine

/-- The state after the ad is mined. -/
def shopMgr : AdSponsoredMgr := ({} : AdSponsoredMgr).miningAdCreatives shopConfig shopWorld 1 1

theorem run_shopMgr :
    Run (ManagerStep shopConfig) {} [⟨shopWorld, .miningAdCreatives ⟨1, 1, Nat.le_refl 1⟩⟩]
      shopMgr :=
  .cons rfl (.nil _)

end AdDelivery.Sponsored
