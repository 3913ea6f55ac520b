import AdDelivery.Core.Total
import AdDelivery.Sponsored.ClickLedger
import AdDelivery.Sponsored.Manager

/-!
# Budget and log as double entry

A click is charged to the budget of its campaign and recorded in the log of its
ad. The log turns away slots above the last one, after the fact and without a
word, while the budget takes every click, and it is kept in 32-bit integers. Over
a sequence of clicks the two books agree exactly when, campaign by campaign, the
clicks on such slots cost nothing in sum, up to whole turns of an integer, and
what the other clicks cost still fits into the budget's entry.
-/

namespace AdDelivery.Sponsored

open AdViewSlotInfo AdSponsoredMgr

/-- The money recorded in one slot of one ad. -/
def AdViewSlotInfo.recorded (cell : AdViewSlotInfo) : Int :=
  tableTotal (fun cost num => cost * num) cell.keywordCpc

/-- The money recorded for one ad, over all hours and slots. -/
def recordedOfAd (periods : AdViewInfoPeriodList) : Int :=
  tableTotal (fun _ view => vectorTotal recorded view) periods

/-- The campaign of an ad, by the ad's string id. -/
def AdSponsoredMgr.campaignOf (s : AdSponsoredMgr) (w : World) (adStrid : String) : Option Nat :=
  (w.getAdIdFromAdStrId adStrid).bind fun adid => s.adCampaignBelongList[adid]?

/-- The money recorded for the ads of one campaign. -/
def AdSponsoredMgr.recordedOfCampaign (s : AdSponsoredMgr) (w : World) (campaignId : Nat) : Int :=
  tableTotal (fun adStrid periods =>
    if s.campaignOf w adStrid = some campaignId then recordedOfAd periods else 0)
    s.adLogMgr.adStatData

theorem addCost_eq_update (costs : CostList) (cost num : Int) :
    addCost costs cost num = Table.update costs cost (· + num) := by
  unfold addCost Table.update Table.get
  cases costs.lookup cost with
  | none => simp
  | some old => rfl

theorem recorded_click (cost : Int) (cell : AdViewSlotInfo) :
    (cell.click cost).recorded = cell.recorded + cost := by
  unfold recorded click
  rw [addCost_eq_update, tableTotal_update _ (fun cost => Int.mul_zero cost), Int.mul_add,
    Int.mul_one, add_sub_cancel_left]

private theorem recorded_default : recorded {} = 0 := rfl

/-- A click on a valid slot is recorded at its cost. -/
theorem recorded_clickAdView (cost : Int) (slot : Nat) (view : AdViewInfo) :
    vectorTotal recorded (clickAdView cost slot view) = vectorTotal recorded view + cost := by
  rw [clickAdView, vectorTotal_modify _ (recorded_click cost) _ (by simp),
    vectorTotal_growTo _ recorded_default]

/-- The ad store after any click: an invalid slot only creates the entry of the hour. -/
theorem adStatData_click (s : AdAuctionLogMgr) (c : ClickCall) :
    (s.click c).adStatData = Table.update s.adStatData c.adId (Table.update · (gettimestr c.now 0)
        (if maxAdSlot < c.clickSlot then id else clickAdView c.clickCostInFen c.clickSlot)) := by
  unfold AdAuctionLogMgr.click AdAuctionLogMgr.updateAuctionLogData logGlobalClick logKeywordClick
    logAdClick updateHistoryGlobalLogData updateHistoryKeywordLogData updateHistoryAdLogData
  dsimp only
  split_ifs <;> rfl

theorem recordedOfAd_update (periods : AdViewInfoPeriodList) (hour : String) (cost : Int)
    (slot : Nat) : recordedOfAd (Table.update periods hour
      (if maxAdSlot < slot then id else clickAdView cost slot)) =
      recordedOfAd periods + if maxAdSlot < slot then 0 else cost := by
  unfold recordedOfAd
  rw [tableTotal_update _ (fun _ => rfl)]
  split
  · simp
  · rw [recorded_clickAdView]
    omega

/-- The call that a click on an ad makes of the manager. -/
def AdSponsoredMgr.clickAd (cfg : Config) (w : World) (s : AdSponsoredMgr) (c : ClickCall) :
    AdSponsoredMgr :=
  s.updateAuctionLogData cfg { w with now := c.now } c.adId c.keywordStr c.clickCostInFen
    c.clickSlot

section Click

variable (cfg : Config) (w : World) (s : AdSponsoredMgr) (c : ClickCall)

/-- A click changes the log and the used budgets. -/
theorem clickAd_eq : ∃ used, s.clickAd cfg w c = { s with
      adLogMgr :=
        s.adLogMgr.click { c with keywordStr := preprocessBidPhraseStr cfg.tk c.keywordStr }
      adBudgetUsedList := used } := by
  unfold clickAd updateAuctionLogData consumeBudget
  dsimp only
  split
  · exact ⟨_, rfl⟩
  · split
    · exact ⟨_, rfl⟩
    · split
      · exact ⟨_, rfl⟩
      · exact ⟨_, rfl⟩

theorem belong_clickAd : (s.clickAd cfg w c).adCampaignBelongList = s.adCampaignBelongList := by
  obtain ⟨_, heq⟩ := clickAd_eq cfg w s c
  rw [heq]

theorem log_clickAd : (s.clickAd cfg w c).adLogMgr =
    s.adLogMgr.click { c with keywordStr := preprocessBidPhraseStr cfg.tk c.keywordStr } := by
  obtain ⟨_, heq⟩ := clickAd_eq cfg w s c
  rw [heq]

/-- The log of a campaign gains the cost of a click of its own on a valid slot. -/
theorem recordedOfCampaign_clickAd (campaignId : Nat) :
    (s.clickAd cfg w c).recordedOfCampaign w campaignId = s.recordedOfCampaign w campaignId +
      if s.campaignOf w c.adId = some campaignId ∧ ¬ maxAdSlot < c.clickSlot
      then c.clickCostInFen else 0 := by
  have hcampaign : ∀ ad, (s.clickAd cfg w c).campaignOf w ad = s.campaignOf w ad := by
    intro ad
    rw [campaignOf, belong_clickAd, campaignOf]
  unfold recordedOfCampaign
  simp only [hcampaign]
  rw [log_clickAd, adStatData_click, tableTotal_update _ (fun ad => by split <;> rfl)]
  by_cases hc : s.campaignOf w c.adId = some campaignId
  · rw [if_pos hc, recordedOfAd_update]
    split_ifs <;> simp_all
  · simp [hc]

/-- A click on a known ad with an allocated budget is charged to its campaign alone. -/
theorem used_clickAd {campaignId : Nat} (hknown : s.campaignOf w c.adId = some campaignId)
    (hbudget : campaignId < s.adBudgetUsedList.length) : (s.clickAd cfg w c).adBudgetUsedList =
      s.adBudgetUsedList.modify campaignId (· + Int32.ofInt c.clickCostInFen) := by
  obtain ⟨adid, hid, hbelong⟩ := Option.bind_eq_some_iff.mp hknown
  unfold clickAd updateAuctionLogData consumeBudget
  simp only [hid, hbelong]
  rw [if_neg (by omega)]

end Click

/-- Take clicks one after another; the id manager answers the same all along. -/
def AdSponsoredMgr.clickAds (cfg : Config) (w : World) (s : AdSponsoredMgr)
    (cs : List ClickCall) : AdSponsoredMgr :=
  cs.foldl (clickAd cfg w) s

/-- The ad of the click is known and its campaign has a budget entry. -/
def Chargeable (w : World) (s : AdSponsoredMgr) (c : ClickCall) : Prop :=
  ∃ campaignId, s.campaignOf w c.adId = some campaignId ∧ campaignId < s.adBudgetUsedList.length

/-- The cost of those clicks of one campaign whose slot is above the last one, or is not. -/
def costOf (w : World) (s : AdSponsoredMgr) (cs : List ClickCall) (campaignId : Nat)
    (above : Bool) : Int :=
  ((cs.filter fun c => decide (s.campaignOf w c.adId = some campaignId) &&
    (decide (maxAdSlot < c.clickSlot) == above)).map ClickCall.clickCostInFen).sum

/-- The cost of the clicks of one campaign on slots that the log turns away. -/
def costTurnedAway (w : World) (s : AdSponsoredMgr) (cs : List ClickCall) (campaignId : Nat) :
    Int :=
  costOf w s cs campaignId true

/-- The cost of the clicks of one campaign on slots that the log knows. -/
def costOnSlots (w : World) (s : AdSponsoredMgr) (cs : List ClickCall) (campaignId : Nat) : Int :=
  costOf w s cs campaignId false

/-- The first click of a sequence has a share in one of the two costs of its campaign. -/
theorem costOf_cons (w : World) (s : AdSponsoredMgr) (c : ClickCall) (cs : List ClickCall)
    (campaignId : Nat) (above : Bool) : costOf w s (c :: cs) campaignId above =
      (if s.campaignOf w c.adId = some campaignId ∧ (maxAdSlot < c.clickSlot ↔ above = true)
        then c.clickCostInFen else 0) + costOf w s cs campaignId above := by
  have hslot : (decide (maxAdSlot < c.clickSlot) == above) = true ↔
      (maxAdSlot < c.clickSlot ↔ above = true) := by
    rw [beq_iff_eq, Bool.eq_iff_iff, decide_eq_true_iff]
  unfold costOf
  rw [List.filter_cons]
  by_cases hc : s.campaignOf w c.adId = some campaignId ∧ (maxAdSlot < c.clickSlot ↔ above = true)
  · rw [if_pos (by simpa only [Bool.and_eq_true, decide_eq_true_iff, hslot] using hc), if_pos hc,
      List.map_cons, List.sum_cons]
  · rw [if_neg (by simpa only [Bool.and_eq_true, decide_eq_true_iff, hslot] using hc), if_neg hc,
      zero_add]

/-- The campaign of an ad is the same after a click. -/
theorem campaignOf_clickAd (cfg : Config) (w : World) (s : AdSponsoredMgr) (c : ClickCall)
    (ad : String) : (s.clickAd cfg w c).campaignOf w ad = s.campaignOf w ad := by
  rw [campaignOf, belong_clickAd, campaignOf]

theorem costOf_clickAd (cfg : Config) (w : World) (s : AdSponsoredMgr) (c : ClickCall)
    (cs : List ClickCall) (campaignId : Nat) (above : Bool) :
    costOf w (s.clickAd cfg w c) cs campaignId above = costOf w s cs campaignId above := by
  simp only [costOf, campaignOf_clickAd]

/-- The log of a campaign gains what the clicks on its slots cost. -/
theorem recordedOfCampaign_clickAds (cfg : Config) (w : World) (s : AdSponsoredMgr)
    (cs : List ClickCall) (campaignId : Nat) :
    (s.clickAds cfg w cs).recordedOfCampaign w campaignId =
      s.recordedOfCampaign w campaignId + costOnSlots w s cs campaignId := by
  induction cs generalizing s with
  | nil => exact (add_zero _).symm
  | cons c cs ih =>
    have hstep := ih (s.clickAd cfg w c)
    rw [recordedOfCampaign_clickAd, costOnSlots, costOf_clickAd] at hstep
    change ((s.clickAd cfg w c).clickAds cfg w cs).recordedOfCampaign w campaignId = _
    rw [hstep, costOnSlots, costOf_cons, ← add_assoc]
    simp only [Bool.false_eq_true, iff_false]

/-- The entry of a campaign gains what all its clicks cost. -/
theorem used_clickAds (cfg : Config) (w : World) (s : AdSponsoredMgr) (cs : List ClickCall)
    (hcs : ∀ c ∈ cs, Chargeable w s c) (campaignId : Nat) :
    (s.clickAds cfg w cs).adBudgetUsedList.getD campaignId 0 =
      s.adBudgetUsedList.getD campaignId 0 +
        Int32.ofInt (costOnSlots w s cs campaignId + costTurnedAway w s cs campaignId) := by
  induction cs generalizing s with
  | nil => exact (Int32.add_zero _).symm
  | cons c cs ih =>
    obtain ⟨own, hown, hlt⟩ := hcs c List.mem_cons_self
    have hused := used_clickAd cfg w s c hown hlt
    have hrest : ∀ c' ∈ cs, Chargeable w (s.clickAd cfg w c) c' := by
      intro c' hc'
      obtain ⟨own', hown', hlt'⟩ := hcs c' (List.mem_cons_of_mem c hc')
      refine ⟨own', (campaignOf_clickAd ..).trans hown', ?_⟩
      rw [hused, List.length_modify]
      exact hlt'
    have hstep := ih (s.clickAd cfg w c) hrest
    have hcost : costOnSlots w s (c :: cs) campaignId + costTurnedAway w s (c :: cs) campaignId =
        (if own = campaignId then c.clickCostInFen else 0) +
          (costOnSlots w s cs campaignId + costTurnedAway w s cs campaignId) := by
      rw [costOnSlots, costTurnedAway, costOf_cons, costOf_cons, hown]
      by_cases hslot : maxAdSlot < c.clickSlot <;> by_cases hc : own = campaignId <;>
        simp [hslot, hc, costOnSlots, costTurnedAway] <;> omega
    rw [costOnSlots, costTurnedAway, costOf_clickAd, costOf_clickAd, hused,
      getD_modify _ _ _ _ _ hlt] at hstep
    change ((s.clickAd cfg w c).clickAds cfg w cs).adBudgetUsedList.getD campaignId 0 = _
    rw [hstep, hcost, costOnSlots, costTurnedAway]
    split_ifs
    · rw [Int32.ofInt_add c.clickCostInFen, Int32.add_assoc]
    · rw [zero_add]

/-- Over every sequence of clicks on known ads with allocated budgets, the budget of each
campaign grows by exactly what its log records if and only if, campaign by campaign, the clicks
on slots above the last one cost nothing in sum, up to whole turns of a 32-bit integer, and the
entry has room for what the other clicks cost. -/
theorem budget_matches_log_iff (cfg : Config) (w : World) (s : AdSponsoredMgr)
    (cs : List ClickCall) (hcs : ∀ c ∈ cs, Chargeable w s c) : (∀ campaignId,
      ((s.clickAds cfg w cs).adBudgetUsedList.getD campaignId 0).toInt -
          (s.adBudgetUsedList.getD campaignId 0).toInt =
        (s.clickAds cfg w cs).recordedOfCampaign w campaignId - s.recordedOfCampaign w campaignId) ↔
      ∀ campaignId, 2 ^ 32 ∣ costTurnedAway w s cs campaignId ∧
        FitsInt32 ((s.adBudgetUsedList.getD campaignId 0).toInt +
          costOnSlots w s cs campaignId) := by
  apply forall_congr'
  intro campaignId
  have hbooks : ∀ before after recorded logged : Int,
      (after - before = recorded - logged ↔ after = before + (recorded - logged)) := by omega
  rw [hbooks, used_clickAds cfg w s cs hcs, recordedOfCampaign_clickAds, add_sub_cancel_left,
    toInt_add_ofInt, toInt32_eq_iff, ← add_assoc, add_sub_cancel_left, and_comm]

/-- A click of the shop's ad on the given slot. -/
def shopClick (slot : Nat) : ClickCall := ⟨⟨113, 100, 9⟩, "ad1", "red phone", 50, slot⟩

theorem chargeable_shopClick (slot : Nat) : Chargeable shopWorld shopMgr (shopClick slot) :=
  ⟨0, show shopMgr.campaignOf shopWorld "ad1" = some 0 by decide +kernel, by decide +kernel⟩

/-- A click on the last valid slot enters both books. -/
theorem budget_matches_log_shop :
    ((shopMgr.clickAds shopConfig shopWorld [shopClick 20]).adBudgetUsedList.getD 0 0).toInt -
        (shopMgr.adBudgetUsedList.getD 0 0).toInt =
      (shopMgr.clickAds shopConfig shopWorld [shopClick 20]).recordedOfCampaign shopWorld 0 -
        shopMgr.recordedOfCampaign shopWorld 0 :=
  (budget_matches_log_iff shopConfig shopWorld shopMgr [shopClick 20]
    (fun c hc => by rw [List.mem_singleton.mp hc]; exact chargeable_shopClick 20)).mpr
    (fun campaignId => by
      have hentry : shopMgr.adBudgetUsedList.getD campaignId 0 = 0 := by
        rw [show shopMgr.adBudgetUsedList = [0] by decide +kernel]
        cases campaignId <;> rfl
      have haway : costTurnedAway shopWorld shopMgr [shopClick 20] campaignId = 0 := by
        simp [costTurnedAway, costOf, shopClick, maxAdSlot]
      have honSlots : costOnSlots shopWorld shopMgr [shopClick 20] campaignId = 0 ∨
          costOnSlots shopWorld shopMgr [shopClick 20] campaignId = 50 := by
        rw [costOnSlots, costOf_cons]
        by_cases hown : shopMgr.campaignOf shopWorld (shopClick 20).adId = some campaignId ∧
            (maxAdSlot < (shopClick 20).clickSlot ↔ false = true)
        · exact .inr (by rw [if_pos hown]; rfl)
        · exact .inl (by rw [if_neg hown]; rfl)
      rw [hentry, haway]
      rcases honSlots with h | h <;> rw [h] <;> decide) 0

/-- A click one slot further is charged to the campaign and not recorded. -/
theorem budget_ahead_of_log_shop :
    ((shopMgr.clickAds shopConfig shopWorld [shopClick 21]).adBudgetUsedList.getD 0 0).toInt -
        (shopMgr.adBudgetUsedList.getD 0 0).toInt ≠
      (shopMgr.clickAds shopConfig shopWorld [shopClick 21]).recordedOfCampaign shopWorld 0 -
        shopMgr.recordedOfCampaign shopWorld 0 := by
  have hused := used_clickAds shopConfig shopWorld shopMgr [shopClick 21]
    (fun c hc => by rw [List.mem_singleton.mp hc]; exact chargeable_shopClick 21) 0
  have honSlots : costOnSlots shopWorld shopMgr [shopClick 21] 0 = 0 := by decide +kernel
  have haway : costTurnedAway shopWorld shopMgr [shopClick 21] 0 = 50 := by decide +kernel
  have hzero : shopMgr.adBudgetUsedList.getD 0 0 = 0 := by decide +kernel
  rw [recordedOfCampaign_clickAds, hused, honSlots, haway, hzero]
  simp

end AdDelivery.Sponsored
