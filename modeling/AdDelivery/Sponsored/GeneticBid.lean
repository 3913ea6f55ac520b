import AdDelivery.Sponsored.Manager

/-!
# One genetic bid for each phrase

The genetic strategy answers one bid per phrase, in the order of the phrase set. The loop that
stores the bids advances only the index into them, not the iterator over the phrases, so all of
them are written to the first phrase. A campaign gets its bids as computed if it has no more than
one phrase.
-/

namespace AdDelivery

open List Finmap

namespace Sponsored

/-- The table has exactly the given phrases as keys, and the phrase at each position of the set has
the bid at that position. -/
structure PricedByPosition (phrases : Finset String) (bids : List Int) (table : Table String Int) :
    Prop where
  keys : table.keys = phrases
  price : ∀ (j : ℕ) (bidstr : String), (phrases.sort (· ≤ ·))[j]? = some bidstr →
    table.lookup bidstr = bids[j]?

namespace AdSponsoredMgr

/-- What a reset does to the budgets before any bid is computed. -/
def withBudgets (s : AdSponsoredMgr) (resetUsed : Bool) : AdSponsoredMgr :=
  { s with
    adBudgetUsedList := resize (if resetUsed then [] else s.adBudgetUsedList)
      s.campaigns.idValueList.length 0 }

/-- The bids that the genetic strategy computes for a campaign during a reset. -/
def geneticBidsOf (w : World) (s : AdSponsoredMgr) (campaign : String) (campaignId : ℕ)
    (phrases : Finset String) : List Int :=
  w.engine.geneticBid (getBidStatisticalData w.engine s phrases)
    (s.adDailyBudget w campaign campaignId)

/-- The store loop of one campaign. -/
def storeBids (phrases : Finset String) (bids : List Int) (table : Table String Int) :
    Table String Int :=
  match phrases.sort (· ≤ ·) with
  | [] => table
  | bidstr :: _ => bids.foldl (fun t bid => insert bidstr bid t) table

variable {s : AdSponsoredMgr} {w : World}

theorem adBidPriceList_reset (hstrategy : s.bidStrategyType = .geneticBid) (resetUsed : Bool) :
    (s.resetDailyLogStatisticalData w resetUsed).adBidPriceList =
      geneticBidPrices w (s.withBudgets resetUsed) := by
  simp only [resetDailyLogStatisticalData, hstrategy]
  rfl

theorem geneticBidPrices_eq (w : World) (s : AdSponsoredMgr) :
    geneticBidPrices w s = s.autoCampaigns.foldl (fun prices c =>
      prices.modify c.2.1 (storeBids c.2.2 (geneticBidsOf w s c.1 c.2.1 c.2.2)))
      (List.replicate s.campaigns.idValueList.length ∅) := by
  rw [geneticBidPrices]
  congr 1
  ext1 prices
  ext1 c
  unfold storeBids
  cases c.2.2.sort (· ≤ ·) with
  | nil => exact (modify_id _ _).symm
  | cons bidstr rest => rfl

variable {phrases : Finset String}

/-- A campaign without manual prices is bid for automatically. -/
theorem mem_autoCampaigns {campaign : String} {campaignId : ℕ}
    (hcampaign : s.campaigns.idValueList[campaignId]? = some campaign)
    (hphrases : s.adCampaignBidPhraseList[campaignId]? = some phrases)
    (hauto : s.manualBidinfoMgr.hasManualBidPrice campaign = false) :
    (campaign, campaignId, phrases) ∈ s.autoCampaigns := by
  refine mem_map.mpr ⟨((campaign, campaignId), phrases), mem_filter.mpr ⟨?_, ?_⟩, rfl⟩
  · refine mem_of_getElem? (i := campaignId) ?_
    rw [getElem?_zip_eq_some]
    refine ⟨?_, hphrases⟩
    rw [getElem?_zipIdx, hcampaign, Option.map_some, Nat.zero_add]
  · rw [hauto]
    rfl

theorem nodup_autoCampaigns (s : AdSponsoredMgr) : (s.autoCampaigns.map (·.2.1)).Nodup := by
  have hids : (s.campaigns.idValueList.zipIdx.zip s.adCampaignBidPhraseList).map (·.1.2) =
      List.range (min s.campaigns.idValueList.length s.adCampaignBidPhraseList.length) := by
    apply ext_getElem
    · simp
    · intro i _ _
      simp
  rw [autoCampaigns, List.map_map]
  refine (filter_sublist.map _).nodup ?_
  change (List.map (fun c : (String × ℕ) × Finset String => c.1.2) _).Nodup
  rw [hids]
  exact nodup_range

/-- The prices of a campaign without manual prices after a reset. -/
theorem adBidPriceList_of_auto {campaign : String} {campaignId : ℕ} (resetUsed : Bool)
    (hstrategy : s.bidStrategyType = .geneticBid)
    (hcampaign : s.campaigns.idValueList[campaignId]? = some campaign)
    (hphrases : s.adCampaignBidPhraseList[campaignId]? = some phrases)
    (hauto : s.manualBidinfoMgr.hasManualBidPrice campaign = false) :
    (s.resetDailyLogStatisticalData w resetUsed).adBidPriceList[campaignId]? =
      some (storeBids phrases
        (geneticBidsOf w (s.withBudgets resetUsed) campaign campaignId phrases) ∅) := by
  have hmem : (campaign, campaignId, phrases) ∈ (s.withBudgets resetUsed).autoCampaigns :=
    mem_autoCampaigns hcampaign hphrases hauto
  have hlt : campaignId < (s.withBudgets resetUsed).campaigns.idValueList.length :=
    (List.getElem?_eq_some_iff.mp hcampaign).1
  rw [adBidPriceList_reset hstrategy, geneticBidPrices_eq]
  refine (getElem?_foldl_modify (·.2.1) _ (nodup_autoCampaigns _) hmem _).trans ?_
  rw [getElem?_replicate, if_pos hlt, Option.map_some]

theorem length_geneticBidsOf
    (hlength : ∀ qsInfos budget, (w.engine.geneticBid qsInfos budget).length = qsInfos.length)
    (campaign : String) (campaignId : ℕ) (phrases : Finset String) :
    (geneticBidsOf w s campaign campaignId phrases).length = phrases.card := by
  rw [geneticBidsOf, hlength, getBidStatisticalData, List.length_map, Finset.length_sort]

end AdSponsoredMgr

open AdSponsoredMgr

/-- All bids go to one key, and the last one stays. -/
theorem foldl_insert_same (bidstr : String) (bids : List Int) (table : Table String Int) :
    bids.foldl (fun t bid => insert bidstr bid t) table =
      match bids.getLast? with
      | none => table
      | some bid => insert bidstr bid table := by
  induction bids using List.reverseRecOn with
  | nil => rfl
  | append_singleton bids bid ih =>
    rw [foldl_append, ih, getLast?_concat]
    cases bids.getLast? with
    | none => rfl
    | some last => exact insert_insert _

/-- The loop stores one bid for each phrase exactly if there is at most one phrase. -/
theorem pricedByPosition_storeBids_iff {phrases : Finset String} {bids : List Int}
    (hlength : bids.length = phrases.card) :
    PricedByPosition phrases bids (storeBids phrases bids ∅) ↔ phrases.card ≤ 1 := by
  have hsort : (phrases.sort (· ≤ ·)).length = phrases.card := Finset.length_sort _
  unfold storeBids
  cases hphrases : phrases.sort (· ≤ ·) with
  | nil =>
    rw [hphrases, length_nil] at hsort
    refine iff_of_true ⟨?_, ?_⟩ (by omega)
    · rw [Finset.card_eq_zero.mp hsort.symm]
      rfl
    · intro j bidstr hj
      rw [hphrases] at hj
      simp at hj
  | cons first rest =>
    rw [hphrases, length_cons] at hsort
    obtain ⟨bids, last, rfl⟩ := eq_nil_or_concat' bids |>.resolve_left fun hnil => by
      rw [hnil, length_nil] at hlength
      omega
    have hstored : (bids ++ [last]).foldl (fun t bid => insert first bid t) ∅ =
        (insert first last ∅ : Table String Int) := by
      rw [foldl_insert_same, getLast?_concat]
    dsimp only
    rw [hstored]
    constructor
    · rintro ⟨hkeys, -⟩
      rw [← hkeys, Table.keys_insert]
      exact Finset.card_le_one.mpr (by simp)
    · intro hone
      obtain rfl : rest = [] := length_eq_zero_iff.mp (by omega)
      obtain rfl : bids = [] := length_eq_zero_iff.mp (by
        rw [length_append, length_singleton] at hlength
        omega)
      refine ⟨?_, ?_⟩
      · ext bidstr
        rw [Table.keys_insert, ← Finset.mem_sort (· ≤ ·) (s := phrases), hphrases]
        simp
      · intro j bidstr hj
        rw [hphrases] at hj
        obtain ⟨hlt, rfl⟩ := List.getElem?_eq_some_iff.mp hj
        obtain rfl : j = 0 := Nat.lt_one_iff.mp hlt
        exact Finmap.lookup_insert _

/-- A campaign without manual prices gets the bid of each phrase under that phrase exactly if it
has at most one phrase. -/
theorem geneticBid_pricedByPosition_iff {w : World} {s : AdSponsoredMgr} {campaign : String}
    {campaignId : ℕ} {phrases : Finset String} (resetUsed : Bool)
    (hlength : ∀ qsInfos budget, (w.engine.geneticBid qsInfos budget).length = qsInfos.length)
    (hstrategy : s.bidStrategyType = .geneticBid)
    (hcampaign : s.campaigns.idValueList[campaignId]? = some campaign)
    (hphrases : s.adCampaignBidPhraseList[campaignId]? = some phrases)
    (hauto : s.manualBidinfoMgr.hasManualBidPrice campaign = false) :
    (∃ table, (s.resetDailyLogStatisticalData w resetUsed).adBidPriceList[campaignId]? =
        some table ∧ PricedByPosition phrases
          (geneticBidsOf w (s.withBudgets resetUsed) campaign campaignId phrases) table) ↔
      phrases.card ≤ 1 := by
  rw [adBidPriceList_of_auto resetUsed hstrategy hcampaign hphrases hauto]
  rw [← pricedByPosition_storeBids_iff (length_geneticBidsOf hlength campaign campaignId phrases)]
  constructor
  · rintro ⟨table, htable, hpriced⟩
    rw [Option.some.inj htable]
    exact hpriced
  · exact fun hpriced => ⟨_, rfl, hpriced⟩

/-- One automatic campaign, for which nothing has been logged. -/
def gadgetMgr (phrases : Finset String) : AdSponsoredMgr where
  campaigns := (({} : Dictionary String).intern "gadgets").2
  adCampaignBidPhraseList := [phrases]
  bidStrategyType := .geneticBid

/-- Without statistics the genetic strategy falls back to the lowest bid for every phrase. -/
def lowestBidWorld : World :=
  { shopWorld with
    engine := { idleEngine with
      geneticBid := fun qsInfos _ => qsInfos.map fun _ => lowestClickCost } }

theorem length_geneticBid_lowestBid (qsInfos : List AdQueryStatisticInfo) (budget : Int) :
    (lowestBidWorld.engine.geneticBid qsInfos budget).length = qsInfos.length :=
  List.length_map _

theorem geneticBid_pricedByPosition_onePhrase :
    (∃ table, ((gadgetMgr {"phone "}).resetDailyLogStatisticalData lowestBidWorld
        false).adBidPriceList[0]? = some table ∧ PricedByPosition {"phone "}
          (geneticBidsOf lowestBidWorld ((gadgetMgr {"phone "}).withBudgets false) "gadgets" 0
            {"phone "}) table) ↔ ({"phone "} : Finset String).card ≤ 1 :=
  geneticBid_pricedByPosition_iff false length_geneticBid_lowestBid rfl rfl rfl rfl

/-- With two phrases, the second one has no price. -/
theorem not_geneticBid_pricedByPosition_twoPhrases :
    ¬ ∃ table, ((gadgetMgr {"phone ", "tablet "}).resetDailyLogStatisticalData lowestBidWorld
        false).adBidPriceList[0]? = some table ∧ PricedByPosition {"phone ", "tablet "}
          (geneticBidsOf lowestBidWorld ((gadgetMgr {"phone ", "tablet "}).withBudgets false)
            "gadgets" 0 {"phone ", "tablet "}) table := by
  rintro ⟨table, htable, hpriced⟩
  rw [adBidPriceList_of_auto false rfl rfl rfl rfl] at htable
  rw [← Option.some.inj htable, pricedByPosition_storeBids_iff
    (length_geneticBidsOf length_geneticBid_lowestBid _ _ _)] at hpriced
  exact absurd hpriced (by decide)

end Sponsored

end AdDelivery
