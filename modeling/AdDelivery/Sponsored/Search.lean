import AdDelivery.Sponsored.TableInvariant

/-!
# Sponsored search

A query is cut into known keywords, the searcher proposes ads, and an ad stays if
one of its phrases has only keywords of the query and its campaign has budget
left. The loop indexes the text and campaign tables without tests: each such
access is made explicit here as a fault, and no run of the manager can reach the
faults of those two tables.
-/

namespace AdDelivery.Sponsored

open List

/-- The unchecked accesses of a search. -/
inductive Fault
  /-- `ad_status_bitmap_.test(docId)` -/
  | statusBitmap
  /-- `ad_orig_bidstr_list_[docId][best_match_index]` -/
  | origBidstr
  /-- `ad_campaign_name_list_[campaign_id]` -/
  | campaignName
deriving DecidableEq

/-- An unchecked subscript. -/
def access {α : Type*} (fault : Fault) (xs : List α) (i : Nat) : Except Fault α :=
  match xs[i]? with
  | some a => .ok a
  | none => .error fault

/-- A double converted to `int`. -/
def truncate (x : ℚ) : Int := x.num.tdiv x.den

/-- One ad that a search may show. -/
structure ScoreSponsoredAdDoc where
  docId : Nat
  score : ℚ
  qscore : ℚ
  hitBidstr : String
  hitOrigBidstr : String

namespace AdSponsoredMgr

/-- What is left of the budget of an ad's campaign. -/
def getBudgetLeft (s : AdSponsoredMgr) (adid : Nat) : Except Fault Int :=
  match s.adCampaignBelongList[adid]? with
  | none => .ok 0
  | some campaignId => do
    let campaignName ← access .campaignName s.campaigns.idValueList campaignId
    match s.adBudgetUsedList[campaignId]? with
    | none => pure 0
    | some used => pure (s.leftBudget campaignName used)

/-- Draw a price from the distribution of a campaign with the random number `r`. -/
def drawUniformBid (r : Int) : List (Int × ℚ) → Int → Int → Int
  | [], _, price => price
  | (bid, share) :: rest, possible, price =>
    let possible := possible + truncate (share * 10000)
    if r ≤ possible then bid else drawUniformBid r rest possible price

/-- The price that the strategy gives when there is no manual one. -/
def getAutoBidPrice (w : World) (rand : Nat) (s : AdSponsoredMgr) (adid campaignId : Nat)
    (hitBidstr : String) (price : Int) : Int :=
  match s.bidStrategyType with
  | .realtimeBid =>
    match s.adBidphraseList[adid]?, s.adBudgetUsedList[campaignId]?,
      s.campaigns.idValueList[campaignId]? with
    | some _, some used, some campaignName =>
      let (impression, cpc, ctr) := w.engine.getKeywordStatData s.adLogMgr hitBidstr
      let current := w.engine.getKeywordCurrentImpression s.adLogMgr hitBidstr
      let info : AdQueryStatisticInfo :=
        { cpc, ctr, impression := impression - current, minBid := lowestClickCost }
      max price (w.engine.realtimeBidWithRevenueMax info used.toInt (s.leftBudget campaignName used))
    | _, _, _ => price
  | .uniformBid =>
    match s.adUniformBidPriceList[campaignId]? with
    | none => price
    | some bidList => drawUniformBid (rand % 10000 : Nat) bidList 0 price
  | .geneticBid =>
    match s.adBidPriceList[campaignId]?, s.adBidphraseList[adid]? with
    | some bidList, some _ => (bidList.lookup hitBidstr).getD price
    | _, _ => price
  | .unknown => price

/-- The price an ad bids for a phrase: the manual price if there is one. -/
def getAdBidPrice (w : World) (rand : Nat) (s : AdSponsoredMgr) (adid : Nat)
    (hitBidstr : String) : Except Fault Int :=
  match s.adCampaignBelongList[adid]? with
  | none => .ok 0
  | some campaignId => do
    let campaignName ← access .campaignName s.campaigns.idValueList campaignId
    let price := s.manualBidinfoMgr.getManualBidPrice campaignName adid hitBidstr
    if 0 < price then pure price
    else pure (s.getAutoBidPrice w rand adid campaignId hitBidstr price)

end AdSponsoredMgr

/-- The bit set of the query's keyword ids, offset by the smallest of them. -/
def hitSet (firstKid lastKid : Nat) (queryKidList : List BidKeywordId) : List Bool :=
  queryKidList.foldl (fun bits kid => bits.set (kid - firstKid) true)
    (replicate (lastKid - firstKid + 1) false)

/-- Whether a keyword id is one of the query's, given in ascending order. -/
def isHit (queryKidList : List BidKeywordId) (kid : BidKeywordId) : Bool :=
  let firstKid := queryKidList.headD 0
  let lastKid := queryKidList.getLastD 0
  !(decide (kid < firstKid) || decide (lastKid < kid) ||
    !(hitSet firstKid lastKid queryKidList).getD (kid - firstKid) false)

/-- Take the phrase at `entry` over the best so far, if it is longer and all its keywords hit. -/
def betterMatch (hit : BidKeywordId → Bool) (best : Option Nat × Nat) (entry : BidPhrase × Nat) :
    Option Nat × Nat :=
  if entry.1.length ≤ best.2 then best
  else if entry.1.all hit then (some entry.2, entry.1.length) else best

/-- The first of the longest phrases whose keywords all hit. -/
def bestMatchIndex (hit : BidKeywordId → Bool) (bidphraseList : BidPhraseList) : Option Nat :=
  (bidphraseList.zipIdx.foldl (betterMatch hit) (none, 0)).1

private theorem betterMatch_foldl_lt (hit : BidKeywordId → Bool) (n : Nat)
    (entries : List (BidPhrase × Nat)) (hentries : ∀ entry ∈ entries, entry.2 < n)
    (best : Option Nat × Nat) (hbest : ∀ j, best.1 = some j → j < n) (j : Nat)
    (h : (entries.foldl (betterMatch hit) best).1 = some j) : j < n := by
  induction entries generalizing best with
  | nil => exact hbest j h
  | cons entry entries ih =>
    refine ih (fun e he => hentries e (mem_cons_of_mem _ he)) _ ?_ h
    intro i hi
    unfold betterMatch at hi
    split at hi
    · exact hbest i hi
    · split at hi
      · injection hi with hi
        rw [← hi]
        exact hentries entry mem_cons_self
      · exact hbest i hi

/-- A best match is one of the phrases. -/
theorem bestMatchIndex_lt {hit : BidKeywordId → Bool} {bidphraseList : BidPhraseList} {j : Nat}
    (h : bestMatchIndex hit bidphraseList = some j) : j < bidphraseList.length := by
  refine betterMatch_foldl_lt hit _ _ ?_ _ ?_ j h
  · intro entry hentry
    obtain ⟨-, hlt, -⟩ := mem_zipIdx hentry
    simpa using hlt
  · intro i hi
    cases hi

namespace AdSponsoredMgr

/-- The click rate of an ad, zero for an ad without one. -/
def getAdCTR (s : AdSponsoredMgr) (adid : Nat) : ℚ := s.adCtrList.getD adid 0

/-- Price the matched phrase of an ad whose campaign has budget left. -/
def priceMatch (w : World) (rand : Nat) (s : AdSponsoredMgr) (docId : Nat)
    (bidphraseList : BidPhraseList) (best : Nat) : Except Fault (Option ScoreSponsoredAdDoc) := do
  let leftbudget ← s.getBudgetLeft docId
  if leftbudget ≤ 0 then return none
  let texts ← access .origBidstr s.adOrigBidstrList docId
  let hitOrigBidstr ← access .origBidstr texts best
  let bidphrase := bidphraseList.getD best []
  let hitBidstr := getBidPhraseStr s.keywords bidphrase
  let bidprice ← s.getAdBidPrice w rand docId hitBidstr
  let qscore := s.getAdCTR docId * bidphrase.length
  let score := (max lowestClickCost bidprice : Int) * qscore
  return some { docId, score, qscore, hitBidstr, hitOrigBidstr }

/-- Decide whether one proposed ad stays, and price it. -/
def matchAd (w : World) (rand : Nat) (s : AdSponsoredMgr) (hit : BidKeywordId → Bool)
    (docId : Nat) : Except Fault (Option ScoreSponsoredAdDoc) := do
  let offline ← access .statusBitmap s.adStatusBitmap docId
  if offline then return none
  match s.adBidphraseList[docId]? with
  | none => return none
  | some bidphraseList =>
    match bestMatchIndex hit bidphraseList with
    | none => return none
    | some best => s.priceMatch w rand docId bidphraseList best

/-- The ads of a result list that stay, in its order; each draws its own random number. -/
def matchAds (w : World) (s : AdSponsoredMgr) (hit : BidKeywordId → Bool) :
    List (Nat × Nat) → Except Fault (List ScoreSponsoredAdDoc)
  | [] => .ok []
  | (docId, rand) :: rest => do
    let item ← s.matchAd w rand hit docId
    let items ← s.matchAds w hit rest
    return item.toList ++ items

/-- The ads that a query reaches, before they are ranked. `search` answers the query of
known keywords with documents, each paired with the random number it will draw. -/
def sponsoredAdSearch (cfg : Config) (w : World) (s : AdSponsoredMgr)
    (search : String → List (Nat × Nat)) (query : String) :
    Except Fault (List ScoreSponsoredAdDoc) :=
  let known := (cfg.tk.generateBidTokens query).filterMap fun keyword =>
    (getBidKeywordIdFromStr s.keywords keyword).map fun kid => (keyword, kid)
  if known.isEmpty then .ok []
  else
    let queryKidList := (known.map Prod.snd).insertionSort (· ≤ ·)
    s.matchAds w (isHit queryKidList) (search (joinKeywords (known.map Prod.fst)))

end AdSponsoredMgr

open AdSponsoredMgr

section InRange

variable {tk : TitlePCA} {s : AdSponsoredMgr}

/-- What the unchecked reads behind the status bits rely on: as many texts as phrases, and a name
for every campaign. -/
structure SearchTables (s : AdSponsoredMgr) : Prop where
  counts : s.adBidphraseList.map length = s.adOrigBidstrList.map length
  campaign_lt : ∀ c ∈ s.adCampaignBelongList, c < s.campaigns.idValueList.length

theorem TablesOk.searchTables (h : TablesOk tk s) : SearchTables s where
  counts := h.counts
  campaign_lt := h.campaign_lt

theorem access_ok {α : Type*} (fault : Fault) (xs : List α) {i : Nat} (h : i < xs.length) :
    ∃ a, access fault xs i = .ok a := by
  refine ⟨xs[i], ?_⟩
  rw [access, getElem?_eq_getElem h]

theorem SearchTables.campaignName_ok (h : SearchTables s) {adid campaignId : Nat}
    (hadid : s.adCampaignBelongList[adid]? = some campaignId) :
    ∃ name, access .campaignName s.campaigns.idValueList campaignId = .ok name :=
  access_ok _ _ (h.campaign_lt campaignId (mem_of_getElem? hadid))

theorem SearchTables.getBudgetLeft_ok (h : SearchTables s) (adid : Nat) :
    ∃ left, s.getBudgetLeft adid = .ok left := by
  unfold getBudgetLeft
  split
  · exact ⟨0, rfl⟩
  · rename_i campaignId hadid
    obtain ⟨name, hname⟩ := h.campaignName_ok hadid
    rw [hname]
    cases s.adBudgetUsedList[campaignId]? with
    | none => exact ⟨0, rfl⟩
    | some used => exact ⟨_, rfl⟩

theorem SearchTables.getAdBidPrice_ok (h : SearchTables s) (w : World) (rand adid : Nat)
    (hitBidstr : String) : ∃ price, s.getAdBidPrice w rand adid hitBidstr = .ok price := by
  unfold getAdBidPrice
  split
  · exact ⟨0, rfl⟩
  · rename_i campaignId hadid
    obtain ⟨name, hname⟩ := h.campaignName_ok hadid
    rw [hname]
    dsimp only [bind, Except.bind]
    split
    · exact ⟨_, rfl⟩
    · exact ⟨_, rfl⟩

variable {bidphraseList : BidPhraseList}

/-- The text of a matched phrase exists: texts and phrases are equally many. -/
theorem SearchTables.origBidstr_ok (h : SearchTables s) {docId best : Nat}
    (hlist : s.adBidphraseList[docId]? = some bidphraseList) (hbest : best < bidphraseList.length) :
    ∃ texts text, access .origBidstr s.adOrigBidstrList docId = .ok texts ∧
      access .origBidstr texts best = .ok text := by
  have hcounts : (s.adOrigBidstrList[docId]?).map length = some bidphraseList.length := by
    rw [← getElem?_map, ← h.counts, getElem?_map, hlist, Option.map_some]
  obtain ⟨texts, htexts, hlen⟩ := Option.map_eq_some_iff.mp hcounts
  obtain ⟨text, htext⟩ := access_ok .origBidstr texts (hlen ▸ hbest)
  exact ⟨texts, text, by rw [access, htexts], htext⟩

theorem matchAd_eq (w : World) (rand : Nat) (s : AdSponsoredMgr) (hit : BidKeywordId → Bool)
    (docId : Nat) : s.matchAd w rand hit docId = (do
      let offline ← access .statusBitmap s.adStatusBitmap docId
      if offline then return none
      match s.adBidphraseList[docId]? with
      | none => return none
      | some bidphraseList =>
        match bestMatchIndex hit bidphraseList with
        | none => return none
        | some best => s.priceMatch w rand docId bidphraseList best) :=
  rfl

variable {docId : Nat} {w : World}

/-- An item that was priced is the ad itself, under the string of its best phrase, with the score
that its bid makes. -/
theorem priceMatch_item {rand : Nat} {s : AdSponsoredMgr} {best : Nat} {item : ScoreSponsoredAdDoc}
    (h : s.priceMatch w rand docId bidphraseList best = .ok (some item)) : item.docId = docId ∧
      item.hitBidstr = getBidPhraseStr s.keywords (bidphraseList.getD best []) ∧
      ∃ bidprice, s.getAdBidPrice w rand docId item.hitBidstr = .ok bidprice ∧
        item.score = (max lowestClickCost bidprice : Int) * item.qscore := by
  unfold priceMatch at h
  cases hleft : s.getBudgetLeft docId with
  | error f =>
    rw [hleft] at h
    cases h
  | ok left =>
    rw [hleft] at h
    dsimp only [bind, Except.bind] at h
    split at h
    · cases h
    · cases htexts : access .origBidstr s.adOrigBidstrList docId with
      | error f =>
        rw [htexts] at h
        cases h
      | ok texts =>
        rw [htexts] at h
        dsimp only at h
        cases htext : access .origBidstr texts best with
        | error f =>
          rw [htext] at h
          cases h
        | ok text =>
          rw [htext] at h
          dsimp only at h
          split at h
          · cases h
          · rename_i bidprice hprice
            obtain rfl := Option.some.inj (Except.ok.inj h)
            exact ⟨rfl, rfl, bidprice, hprice, rfl⟩

/-- A matched phrase is priced without a fault. -/
theorem SearchTables.priceMatch_ok (h : SearchTables s) (w : World) (rand : Nat)
    (hlist : s.adBidphraseList[docId]? = some bidphraseList) {best : Nat}
    (hbest : best < bidphraseList.length) :
    ∃ item, s.priceMatch w rand docId bidphraseList best = .ok item := by
  obtain ⟨left, hleft⟩ := h.getBudgetLeft_ok docId
  obtain ⟨texts, text, htexts, htext⟩ := h.origBidstr_ok hlist hbest
  obtain ⟨price, hprice⟩ := h.getAdBidPrice_ok w rand docId
    (getBidPhraseStr s.keywords (bidphraseList.getD best []))
  unfold priceMatch
  rw [hleft]
  dsimp only [bind, Except.bind]
  split
  · exact ⟨none, rfl⟩
  · simp only [htexts, htext, hprice]
    exact ⟨_, rfl⟩

/-- One ad faults only if it has no status bit. -/
theorem SearchTables.matchAd_ok (h : SearchTables s) (w : World) (rand : Nat)
    (hit : BidKeywordId → Bool) (hlt : docId < s.adStatusBitmap.length) :
    ∃ item, s.matchAd w rand hit docId = .ok item := by
  rw [matchAd_eq, access, getElem?_eq_getElem hlt]
  dsimp only [bind, Except.bind]
  split
  · exact ⟨none, rfl⟩
  · split
    · exact ⟨none, rfl⟩
    · rename_i bidphraseList hlist
      split
      · exact ⟨none, rfl⟩
      · rename_i best hbest
        exact h.priceMatch_ok w rand hlist (bestMatchIndex_lt hbest)

variable {hit : BidKeywordId → Bool}

theorem SearchTables.matchAd_fault (h : SearchTables s) {rand : Nat} {fault : Fault}
    (hfault : s.matchAd w rand hit docId = .error fault) : fault = .statusBitmap := by
  by_cases hlt : docId < s.adStatusBitmap.length
  · obtain ⟨item, hitem⟩ := h.matchAd_ok w rand hit hlt
    rw [hitem] at hfault
    cases hfault
  · rw [matchAd_eq, access, getElem?_eq_none (Nat.le_of_not_lt hlt)] at hfault
    injection hfault with hfault
    exact hfault.symm

theorem SearchTables.matchAds_fault (h : SearchTables s) {results : List (Nat × Nat)}
    {fault : Fault} (hfault : s.matchAds w hit results = .error fault) : fault = .statusBitmap := by
  induction results with
  | nil => cases hfault
  | cons result results ih =>
    obtain ⟨docId, rand⟩ := result
    rw [matchAds] at hfault
    cases hitem : s.matchAd w rand hit docId with
    | error f =>
      rw [hitem] at hfault
      injection hfault with hfault
      exact hfault ▸ h.matchAd_fault hitem
    | ok item =>
      rw [hitem] at hfault
      cases hrest : s.matchAds w hit results with
      | error f =>
        rw [hrest] at hfault
        injection hfault with hfault
        exact ih (hrest.trans (congrArg Except.error hfault))
      | ok items =>
        rw [hrest] at hfault
        cases hfault

end InRange

/-- The relation between the tables on which the searches rely. -/
structure TablesInRange (s : AdSponsoredMgr) : Prop where
  lists_length : s.adBidphraseList.length = s.adOrigBidstrList.length
  phrases_length : ∀ (adid : Nat) phrases texts, s.adBidphraseList[adid]? = some phrases →
    s.adOrigBidstrList[adid]? = some texts → phrases.length = texts.length
  belong_lt : ∀ adid < s.adBidphraseList.length, adid < s.adCampaignBelongList.length
  campaign_lt : ∀ campaignId ∈ s.adCampaignBelongList, campaignId < s.campaigns.idValueList.length
  campaigns_inverse : s.campaigns.Inverse
  keywords_inverse : s.keywords.Inverse
  keyword_lt : ∀ bidphraseList ∈ s.adBidphraseList, ∀ bidphrase ∈ bidphraseList,
    ∀ kid ∈ bidphrase, kid < s.keywords.idValueList.length

theorem TablesOk.inRange {tk : TitlePCA} {s : AdSponsoredMgr} (h : TablesOk tk s) :
    TablesInRange s where
  lists_length := h.length_eq
  phrases_length := by
    intro adid phrases texts hphrases htexts
    have hcounts := congrArg (·[adid]?) h.counts
    simp only [getElem?_map, hphrases, htexts, Option.map_some, Option.some.injEq] at hcounts
    exact hcounts
  belong_lt := fun adid hadid => Nat.lt_of_lt_of_le hadid h.belong
  campaign_lt := h.campaign_lt
  campaigns_inverse := h.campaigns
  keywords_inverse := h.keywords
  keyword_lt := fun l hl p hp => (h.phrases l hl p hp).lt_length

/-- In every state that a run of the manager reaches, the tables stay in step, the
searches never read a text or a campaign name out of range, and neither does an edit
of an ad that brings a price for every phrase. -/
theorem searches_stay_in_range (cfg : Config) (events : List ManagerEvent) (s : AdSponsoredMgr)
    (hrun : Run (ManagerStep cfg) {} events s) : TablesInRange s ∧
      (∀ adid, ∃ left, s.getBudgetLeft adid = .ok left) ∧
      (∀ w rand adid hitBidstr, ∃ price, s.getAdBidPrice w rand adid hitBidstr = .ok price) ∧
      (∀ w search query fault, s.sponsoredAdSearch cfg w search query = .error fault →
        fault ≠ .origBidstr ∧ fault ≠ .campaignName) ∧
      (∀ w adStrid bidPhraseList (priceList : List Int), bidPhraseList.length ≤ priceList.length →
        (s.updateAdBidPhrase cfg w adStrid bidPhraseList priceList).isSome) ∧
      ∀ w adStrid bidPhraseList, (s.delAdBidPhrase cfg w adStrid bidPhraseList).isSome := by
  have h := tablesOk_of_run hrun
  refine ⟨h.inRange, h.searchTables.getBudgetLeft_ok, h.searchTables.getAdBidPrice_ok, ?_,
    fun _ adStrid _ _ hprice => h.updateAdBidPhrase_isSome adStrid hprice,
    fun _ => h.delAdBidPhrase_isSome⟩
  intro w search query fault hfault
  unfold sponsoredAdSearch at hfault
  dsimp only at hfault
  split at hfault
  · cases hfault
  · rw [h.searchTables.matchAds_fault hfault]
    exact ⟨by decide, by decide⟩

/-- The tables of the small shop are in step, and its ad has budget left. -/
theorem searches_stay_in_range_shop :
    TablesInRange shopMgr ∧ ∃ left, shopMgr.getBudgetLeft 1 = .ok left :=
  have h := searches_stay_in_range shopConfig _ shopMgr run_shopMgr
  ⟨h.1, h.2.1 1⟩

end AdDelivery.Sponsored
