import AdDelivery.Sponsored.Manager

/-!
# The tables of the manager stay in step

Phrases and their texts run in parallel, campaign ids and keyword ids point into
their dictionaries, and every mined ad has a campaign. Each call keeps this; while
a range is being mined the vectors are longer than the campaign vector, so the
entries are followed through the loop on their own and the length at its end.
-/

namespace AdDelivery.Sponsored

open List AdSponsoredMgr PhraseOk

/-- What holds of the entries of the tables, also in the middle of mining. -/
structure EntriesOk (tk : TitlePCA) (s : AdSponsoredMgr) : Prop where
  counts : s.adBidphraseList.map List.length = s.adOrigBidstrList.map List.length
  campaign_lt : ∀ c ∈ s.adCampaignBelongList, c < s.campaigns.idValueList.length
  campaigns : s.campaigns.Inverse
  keywords : s.keywords.Inverse
  phrases : ∀ bidphraseList ∈ s.adBidphraseList, ∀ bidphrase ∈ bidphraseList,
    PhraseOk tk s.keywords bidphrase

/-- What holds of the tables between two calls. -/
structure TablesOk (tk : TitlePCA) (s : AdSponsoredMgr) : Prop extends EntriesOk tk s where
  belong : s.adBidphraseList.length ≤ s.adCampaignBelongList.length

section Entries

variable {tk : TitlePCA} {s s' : AdSponsoredMgr}

theorem EntriesOk.length_eq (h : EntriesOk tk s) :
    s.adBidphraseList.length = s.adOrigBidstrList.length := by
  simpa only [List.length_map] using congrArg List.length h.counts

/-- An ad with texts has phrases. -/
theorem EntriesOk.lt_of_texts (h : EntriesOk tk s) {adid : Nat} {orig : List String}
    (horig : s.adOrigBidstrList[adid]? = some orig) : adid < s.adBidphraseList.length := by
  rw [h.length_eq]
  exact (List.getElem?_eq_some_iff.mp horig).1

/-- The invariant reads only the phrase, text, campaign and keyword tables. -/
theorem EntriesOk.of_eq (h : EntriesOk tk s) (hphrase : s'.adBidphraseList = s.adBidphraseList)
    (horig : s'.adOrigBidstrList = s.adOrigBidstrList)
    (hbelong : s'.adCampaignBelongList = s.adCampaignBelongList)
    (hcampaigns : s'.campaigns = s.campaigns) (hkeywords : s'.keywords = s.keywords) :
    EntriesOk tk s' where
  counts := by rw [hphrase, horig]; exact h.counts
  campaign_lt := by rw [hbelong, hcampaigns]; exact h.campaign_lt
  campaigns := by rw [hcampaigns]; exact h.campaigns
  keywords := by rw [hkeywords]; exact h.keywords
  phrases := by rw [hphrase, hkeywords]; exact h.phrases

theorem TablesOk.of_eq (h : TablesOk tk s) (hphrase : s'.adBidphraseList = s.adBidphraseList)
    (horig : s'.adOrigBidstrList = s.adOrigBidstrList)
    (hbelong : s'.adCampaignBelongList = s.adCampaignBelongList)
    (hcampaigns : s'.campaigns = s.campaigns) (hkeywords : s'.keywords = s.keywords) :
    TablesOk tk s' where
  toEntriesOk := h.toEntriesOk.of_eq hphrase horig hbelong hcampaigns hkeywords
  belong := by rw [hphrase, hbelong]; exact h.belong

theorem tablesOk_empty : TablesOk tk {} where
  counts := rfl
  campaign_lt := nofun
  campaigns := Dictionary.inverse_empty
  keywords := Dictionary.inverse_empty
  phrases := nofun
  belong := Nat.le_refl _

/-- A larger keyword dictionary leaves the entries in order. -/
theorem EntriesOk.extendKeywords (h : EntriesOk tk s) {keywords : Dictionary String}
    (hinv : keywords.Inverse) (hext : s.keywords.Extends keywords) :
    EntriesOk tk { s with keywords := keywords } where
  counts := h.counts
  campaign_lt := h.campaign_lt
  campaigns := h.campaigns
  keywords := hinv
  phrases := fun l hl p hp => (h.phrases l hl p hp).mono hext

/-- Storing as many phrases as texts leaves the entries in order. -/
theorem EntriesOk.storePhrases (h : EntriesOk tk s) {texts : List String}
    {r : List (BidPhrase × String) × Dictionary String} (hr : PhrasesSpec tk s.keywords texts r)
    (adid : Nat) {orig : List String} (horig : orig.length = texts.length) :
    EntriesOk tk (s.storePhrases adid orig r.1 r.2) where
  counts := by
    simp only [AdSponsoredMgr.storePhrases, map_set, List.length_map, h.counts, hr.length_eq, horig]
  campaign_lt := h.campaign_lt
  campaigns := h.campaigns
  keywords := hr.inverse
  phrases := by
    intro l hl p hp
    rcases mem_or_eq_of_mem_set hl with hl | rfl
    · exact (h.phrases l hl p hp).mono hr.extends_
    · obtain ⟨q, hq, rfl⟩ := mem_map.mp hp
      exact (hr.ok q hq).1

/-- Filing an ad leaves the entries in order: new campaign ids are given out before
they are stored, and the padding id exists once any campaign does. -/
theorem EntriesOk.fileAd (h : EntriesOk tk s) (adid : Nat) (campaign : String)
    (bidstrs : List String) : EntriesOk tk (s.fileAd adid campaign bidstrs) where
  counts := h.counts
  campaign_lt := by
    have hlt := h.campaigns.intern_lt_length campaign
    have hle := (s.campaigns.extends_intern campaign).length_le
    intro c hc
    change c < (s.campaigns.intern campaign).2.idValueList.length
    rcases mem_or_eq_of_mem_set hc with hc | rfl
    · rcases mem_growTo hc with hc | rfl
      · exact Nat.lt_of_lt_of_le (h.campaign_lt c hc) hle
      · omega
    · exact hlt
  campaigns := h.campaigns.intern campaign
  keywords := h.keywords
  phrases := h.phrases

/-- Mining one ad stores its phrases, with as many texts, and files it. -/
theorem mineAd_eq (cfg : Config) (w : World) (s : AdSponsoredMgr) (adid : Nat) :
    let ad := readCreative cfg w adid
    let r := generateBidPhrases cfg.tk true ad.texts [] s.keywords
    ∃ manual orig, (orig = ad.texts ∨ orig.length = r.1.length) ∧
      s.mineAd cfg w adid = ({ s with manualBidinfoMgr := manual }.storePhrases adid orig r.1
        r.2).fileAd adid ad.campaign (r.1.map Prod.snd) := by
  intro ad r
  refine ⟨_, _, ?_, rfl⟩
  split
  · exact .inl rfl
  · right
    rw [getBidPhraseStrList, List.length_map, List.length_map]

theorem EntriesOk.mineAd {cfg : Config} (h : EntriesOk cfg.tk s) (w : World) (adid : Nat) :
    EntriesOk cfg.tk (s.mineAd cfg w adid) := by
  have hr := generateBidPhrases_spec cfg.tk true
    (readCreative cfg w adid).texts h.keywords nil
  obtain ⟨manual, orig, horig, heq⟩ := mineAd_eq cfg w s adid
  have hlen : orig.length = (readCreative cfg w adid).texts.length := by
    rcases horig with rfl | horig
    · rfl
    · rw [horig, hr.length_eq]
  have hmanual : EntriesOk cfg.tk { s with manualBidinfoMgr := manual } :=
    h.of_eq rfl rfl rfl rfl rfl
  rw [heq]
  exact (hmanual.storePhrases hr adid hlen).fileAd adid _ _

/-- The tables that mining starts from are in order, up to the campaign vector. -/
theorem EntriesOk.miningStart (h : EntriesOk tk s) (startId endId : Nat) :
    EntriesOk tk (s.miningStart startId endId) where
  counts := by
    simp only [AdSponsoredMgr.miningStart, map_resize, map_take, h.counts, length_nil]
  campaign_lt := h.campaign_lt
  campaigns := h.campaigns
  keywords := h.keywords
  phrases := by
    intro l hl p hp
    rcases mem_resize hl with hl | rfl
    · exact h.phrases l (mem_of_mem_take hl) p hp
    · cases hp

end Entries

section Mining

variable (cfg : Config) (w : World) (s : AdSponsoredMgr)

theorem length_belong_mineAd (adid : Nat) : (s.mineAd cfg w adid).adCampaignBelongList.length =
      max s.adCampaignBelongList.length (adid + 1) := by
  simp [mineAd, fileAd, storePhrases]

theorem length_phrases_mineAd (adid : Nat) :
    (s.mineAd cfg w adid).adBidphraseList.length = s.adBidphraseList.length := by
  simp [mineAd, fileAd, storePhrases]

/-- The loop keeps the entries in order and the number of ads, and gives a campaign
to every ad it visits. -/
theorem mineAds_spec (adids : List Nat) {s : AdSponsoredMgr} (h : EntriesOk cfg.tk s) :
    EntriesOk cfg.tk (adids.foldl (mineAd cfg w) s) ∧
      (adids.foldl (mineAd cfg w) s).adBidphraseList.length = s.adBidphraseList.length ∧
      ∀ adid ∈ adids, adid < (adids.foldl (mineAd cfg w) s).adCampaignBelongList.length := by
  induction adids using List.reverseRecOn with
  | nil => exact ⟨h, rfl, nofun⟩
  | append_singleton adids last ih =>
    obtain ⟨hok, hlen, hlt⟩ := ih
    rw [foldl_append, foldl_cons, foldl_nil]
    refine ⟨hok.mineAd w last, (length_phrases_mineAd cfg w _ last).trans hlen, ?_⟩
    intro adid hadid
    rw [length_belong_mineAd]
    rcases mem_append.mp hadid with hadid | hadid
    · have := hlt adid hadid
      omega
    · rw [mem_singleton.mp hadid]
      omega

/-- The daily statistics read the tables and leave them alone. -/
theorem tables_resetDaily (resetUsed : Bool) :
    (s.resetDailyLogStatisticalData w resetUsed).adBidphraseList = s.adBidphraseList ∧
      (s.resetDailyLogStatisticalData w resetUsed).adOrigBidstrList = s.adOrigBidstrList ∧
      (s.resetDailyLogStatisticalData w resetUsed).adCampaignBelongList = s.adCampaignBelongList ∧
      (s.resetDailyLogStatisticalData w resetUsed).campaigns = s.campaigns ∧
      (s.resetDailyLogStatisticalData w resetUsed).keywords = s.keywords ∧
      (s.resetDailyLogStatisticalData w resetUsed).adCampaignBidPhraseList =
        s.adCampaignBidPhraseList := by
  unfold resetDailyLogStatisticalData
  cases s.bidStrategyType <;> exact ⟨rfl, rfl, rfl, rfl, rfl, rfl⟩

theorem TablesOk.resetDaily {s : AdSponsoredMgr} (h : TablesOk cfg.tk s) (resetUsed : Bool) :
    TablesOk cfg.tk (s.resetDailyLogStatisticalData w resetUsed) := by
  obtain ⟨hphrase, horig, hbelong, hcampaigns, hkeywords, -⟩ := tables_resetDaily w s resetUsed
  exact h.of_eq hphrase horig hbelong hcampaigns hkeywords

theorem TablesOk.miningAdCreatives {s : AdSponsoredMgr} (h : TablesOk cfg.tk s)
    {startId endId : Nat} (hle : startId ≤ endId) :
    TablesOk cfg.tk (s.miningAdCreatives cfg w startId endId) := by
  obtain ⟨hok, hlen, hlt⟩ := mineAds_spec cfg w (List.range' startId (endId + 1 - startId))
    (h.toEntriesOk.miningStart startId endId)
  have hend := hlt endId (by rw [mem_range'_1]; omega)
  have hnum : (s.miningStart startId endId).adBidphraseList.length = endId + 1 :=
    length_resize _ _ _
  apply TablesOk.resetDaily
  refine ⟨hok, ?_⟩
  rw [hlen, hnum]
  exact hend

end Mining

section Edits

variable {cfg : Config} {w : World} {s s' : AdSponsoredMgr} {bidPhraseList : List String}

/-- An update that returns either finds no ad and changes nothing, or stores the
phrases of the enlarged set of texts. -/
theorem updateAdBidPhrase_cases {adStrid : String} {priceList : List Int} {found : Bool}
    (h : s.updateAdBidPhrase cfg w adStrid bidPhraseList priceList = some (found, s')) :
    (s' = s ∧ ∀ adid, w.getAdIdFromAdStrId adStrid = some adid → s.adOrigBidstrList.length ≤ adid) ∨
      ∃ adid orig, w.getAdIdFromAdStrId adStrid = some adid ∧
        s.adOrigBidstrList[adid]? = some orig ∧ ∃ manual, s' =
          { s.storePhrases adid (sortedSet (orig ++ bidPhraseList))
              (generateBidPhrases cfg.tk true (sortedSet (orig ++ bidPhraseList)) [] s.keywords).1
              (generateBidPhrases cfg.tk true (sortedSet (orig ++ bidPhraseList)) [] s.keywords).2
            with manualBidinfoMgr := manual } := by
  unfold updateAdBidPhrase at h
  cases hid : w.getAdIdFromAdStrId adStrid with
  | none =>
    rw [hid] at h
    injection h with h
    injection h with _ h
    exact .inl ⟨h.symm, fun adid hadid => by cases hadid⟩
  | some adid =>
    simp only [hid] at h
    split at h
    · rename_i hlen
      injection h with h
      injection h with _ h
      refine .inl ⟨h.symm, ?_⟩
      rintro adid' ⟨⟩
      exact hlen
    · simp only [Option.bind_eq_bind, Option.bind_eq_some_iff, Option.pure_def] at h
      obtain ⟨orig, horig, campaignId, -, campaignName, -, -, -, -, -, h⟩ := h
      injection h with h
      injection h with _ h
      exact .inr ⟨adid, orig, rfl, horig, _, h.symm⟩

/-- A deletion that returns either changes nothing, or stores the phrases of the texts
that are left; the deleted texts have been interned by then. -/
theorem delAdBidPhrase_cases {adStrid : String} {found : Bool}
    (h : s.delAdBidPhrase cfg w adStrid bidPhraseList = some (found, s')) :
    (s' = s ∧ ∀ adid orig, w.getAdIdFromAdStrId adStrid = some adid →
        s.adOrigBidstrList[adid]? = some orig → orig = []) ∨
      ∃ adid orig, w.getAdIdFromAdStrId adStrid = some adid ∧
        s.adOrigBidstrList[adid]? = some orig ∧ orig ≠ [] ∧ ∃ manual, s' =
          { s.storePhrases adid (sortedSet (orig.filter (· ∉ bidPhraseList)))
              (generateBidPhrases cfg.tk true (sortedSet (orig.filter (· ∉ bidPhraseList))) []
                (generateBidPhrases cfg.tk false bidPhraseList [] s.keywords).2).1
              (generateBidPhrases cfg.tk true (sortedSet (orig.filter (· ∉ bidPhraseList))) []
                (generateBidPhrases cfg.tk false bidPhraseList [] s.keywords).2).2
            with manualBidinfoMgr := manual } := by
  unfold delAdBidPhrase at h
  cases hid : w.getAdIdFromAdStrId adStrid with
  | none =>
    rw [hid] at h
    injection h with h
    injection h with _ h
    exact .inl ⟨h.symm, fun adid _ hadid => by cases hadid⟩
  | some adid =>
    simp only [hid] at h
    split at h
    · rename_i hlen
      injection h with h
      injection h with _ h
      refine .inl ⟨h.symm, ?_⟩
      rintro adid' orig ⟨⟩ horig
      rw [getElem?_eq_none hlen] at horig
      cases horig
    · simp only [Option.bind_eq_bind, Option.bind_eq_some_iff, Option.pure_def] at h
      obtain ⟨orig, horig, h⟩ := h
      split at h
      · rename_i hempty
        injection h with h
        injection h with _ h
        refine .inl ⟨h.symm, ?_⟩
        rintro adid' orig' ⟨⟩ horig'
        rw [horig] at horig'
        injection horig' with horig'
        rw [← horig']
        exact List.isEmpty_iff.mp hempty
      · rename_i hempty
        simp only [Option.bind_eq_some_iff] at h
        obtain ⟨campaignId, -, campaignName, -, -, -, h⟩ := h
        injection h with h
        injection h with _ h
        exact .inr ⟨adid, orig, rfl, horig, fun ho => hempty (by rw [ho]; rfl), _, h.symm⟩

/-- The phrases a deletion stores are those of the texts that are left, although the
deleted texts went into the dictionary before them. -/
theorem phrasesSpec_afterDelete (tk : TitlePCA) {keywords : Dictionary String}
    (h : keywords.Inverse) (deleted texts : List String) : PhrasesSpec tk keywords texts
      (generateBidPhrases tk true texts []
        (generateBidPhrases tk false deleted [] keywords).2) := by
  have hdel := generateBidPhrases_spec tk false deleted h nil
  have hkept := generateBidPhrases_spec tk true texts hdel.inverse nil
  exact hkept.of_extends hdel.extends_

theorem replaceAdBidPhrase_cases {adid : Nat}
    (h : s.replaceAdBidPhrase cfg adid bidPhraseList = some s') : adid < s.adBidphraseList.length ∧
      s' = s.storePhrases adid bidPhraseList
        (generateBidPhrases cfg.tk false bidPhraseList [] s.keywords).1
        (generateBidPhrases cfg.tk false bidPhraseList [] s.keywords).2 := by
  simp only [AdSponsoredMgr.replaceAdBidPhrase, Option.bind_eq_bind, Option.bind_eq_some_iff,
    Option.pure_def, Option.guard_eq_some'] at h
  obtain ⟨-, hadid, -, -, h⟩ := h
  injection h with h
  exact ⟨hadid, h.symm⟩

/-- Bringing ads on line or off line touches the status bits alone. -/
theorem setOnlineStatus_cases (entries : List (String × Bool))
    (h : setOnlineStatus w entries s = some s') :
    ∃ bitmap, s' = { s with adStatusBitmap := bitmap } := by
  induction entries generalizing s with
  | nil =>
    injection h with h
    exact ⟨s.adStatusBitmap, h.symm⟩
  | cons entry entries ih =>
    rw [setOnlineStatus] at h
    split at h
    · exact ih h
    · split at h
      · obtain ⟨bitmap, rfl⟩ := ih h
        exact ⟨bitmap, rfl⟩
      · cases h

theorem updateAdOnlineStatus_cases {adStridList : List String} {isOnlineList : List Bool}
    {done : Bool} (h : s.updateAdOnlineStatus w adStridList isOnlineList = some (done, s')) :
    ∃ bitmap, s' = { s with adStatusBitmap := bitmap } := by
  unfold updateAdOnlineStatus at h
  split at h
  · injection h with h
    injection h with _ h
    exact ⟨s.adStatusBitmap, h.symm⟩
  · obtain ⟨t, ht, hpair⟩ := Option.map_eq_some_iff.mp h
    injection hpair with _ hpair
    subst hpair
    exact setOnlineStatus_cases _ ht

/-- A click touches the log and the budget alone. -/
theorem updateAuctionLogData_cases (cfg : Config) (w : World) (s : AdSponsoredMgr)
    (adStrid hitOrigBidstr : String) (cost : Int) (slot : Nat) :
    ∃ log used, s.updateAuctionLogData cfg w adStrid hitOrigBidstr cost slot =
      { s with adLogMgr := log, adBudgetUsedList := used } := by
  unfold updateAuctionLogData consumeBudget
  dsimp only
  split
  · exact ⟨_, s.adBudgetUsedList, rfl⟩
  · split
    · exact ⟨_, s.adBudgetUsedList, rfl⟩
    · split
      · exact ⟨_, s.adBudgetUsedList, rfl⟩
      · exact ⟨_, _, rfl⟩

theorem TablesOk.storePhrases {tk : TitlePCA} (h : TablesOk tk s) {texts : List String}
    {r : List (BidPhrase × String) × Dictionary String} (hr : PhrasesSpec tk s.keywords texts r)
    (adid : Nat) : TablesOk tk (s.storePhrases adid texts r.1 r.2) where
  toEntriesOk := h.toEntriesOk.storePhrases hr adid rfl
  belong := by
    simp only [AdSponsoredMgr.storePhrases, length_set]
    exact h.belong

end Edits

variable {cfg : Config} {s : AdSponsoredMgr}

/-- With tables in order, an update with a price for every phrase reads in range. -/
theorem TablesOk.updateAdBidPhrase_isSome {w : World} (h : TablesOk cfg.tk s) (adStrid : String)
    {bidPhraseList : List String} {priceList : List Int}
    (hprice : bidPhraseList.length ≤ priceList.length) :
    (s.updateAdBidPhrase cfg w adStrid bidPhraseList priceList).isSome := by
  unfold AdSponsoredMgr.updateAdBidPhrase
  split
  · rfl
  · rename_i adid _
    split
    · rfl
    · rename_i hlt
      have hphrases : adid < s.adBidphraseList.length := by rw [h.length_eq]; omega
      have hbelong := Nat.lt_of_lt_of_le hphrases h.belong
      have hname := h.campaign_lt _ (getElem_mem hbelong)
      simp [getElem?_eq_getElem (Nat.lt_of_not_le hlt), getElem?_eq_getElem hbelong,
        getElem?_eq_getElem hname, guard, hprice, hphrases]

/-- With tables in order, a deletion always reads in range. -/
theorem TablesOk.delAdBidPhrase_isSome {w : World} (h : TablesOk cfg.tk s) (adStrid : String)
    (bidPhraseList : List String) : (s.delAdBidPhrase cfg w adStrid bidPhraseList).isSome := by
  unfold AdSponsoredMgr.delAdBidPhrase
  split
  · rfl
  · rename_i adid _
    split
    · rfl
    · rename_i hlt
      have hphrases : adid < s.adBidphraseList.length := by rw [h.length_eq]; omega
      have hbelong := Nat.lt_of_lt_of_le hphrases h.belong
      have hname := h.campaign_lt _ (getElem_mem hbelong)
      simp only [getElem?_eq_getElem (Nat.lt_of_not_le hlt), Option.bind_eq_bind, Option.bind_some]
      split
      · rfl
      · simp [getElem?_eq_getElem hbelong, getElem?_eq_getElem hname, guard, hphrases]

/-- Every call keeps the tables in order. -/
theorem tablesOk_step (s : AdSponsoredMgr) (e : ManagerEvent) (s' : AdSponsoredMgr)
    (h : TablesOk cfg.tk s) (hstep : ManagerStep cfg s e s') : TablesOk cfg.tk s' := by
  obtain ⟨w, call⟩ := e
  cases call with
  | miningAdCreatives range =>
    injection hstep with hstep
    subst hstep
    exact h.miningAdCreatives cfg w range.le
  | updateAdBidPhrase adStrid bidPhraseList priceList =>
    obtain ⟨⟨found, t⟩, hcall, rfl⟩ := Option.map_eq_some_iff.mp hstep
    rcases updateAdBidPhrase_cases hcall with ⟨rfl, -⟩ | ⟨adid, orig, -, -, manual, rfl⟩
    · exact h
    · have hr := generateBidPhrases_spec cfg.tk true (sortedSet (orig ++ bidPhraseList))
        h.keywords nil
      exact (h.storePhrases hr adid).of_eq rfl rfl rfl rfl rfl
  | delAdBidPhrase adStrid bidPhraseList =>
    obtain ⟨⟨found, t⟩, hcall, rfl⟩ := Option.map_eq_some_iff.mp hstep
    rcases delAdBidPhrase_cases hcall with ⟨rfl, -⟩ | ⟨adid, orig, -, -, -, manual, rfl⟩
    · exact h
    · have hr := phrasesSpec_afterDelete cfg.tk h.keywords bidPhraseList
        (sortedSet (orig.filter (· ∉ bidPhraseList)))
      exact (h.storePhrases hr adid).of_eq rfl rfl rfl rfl rfl
  | replaceAdBidPhrase adid bidPhraseList =>
    rw [(replaceAdBidPhrase_cases hstep).2]
    exact h.storePhrases
      (generateBidPhrases_spec cfg.tk false bidPhraseList h.keywords nil) adid
  | getBidKeywordIdFromStrWithInsert keyword =>
    injection hstep with hstep
    subst hstep
    exact ⟨h.toEntriesOk.extendKeywords (h.keywords.intern keyword)
      (s.keywords.extends_intern keyword), h.belong⟩
  | updateAdOnlineStatus adStridList isOnlineList =>
    obtain ⟨⟨done, t⟩, hcall, rfl⟩ := Option.map_eq_some_iff.mp hstep
    obtain ⟨bitmap, rfl⟩ := updateAdOnlineStatus_cases hcall
    exact h.of_eq rfl rfl rfl rfl rfl
  | changeDailyBudget adCampaignName dailybudget =>
    injection hstep with hstep
    subst hstep
    exact h.of_eq rfl rfl rfl rfl rfl
  | updateAuctionLogData adStrid hitOrigBidstr clickCostInFen clickSlot =>
    injection hstep with hstep
    subst hstep
    obtain ⟨log, used, heq⟩ := updateAuctionLogData_cases cfg w s adStrid
      hitOrigBidstr clickCostInFen clickSlot
    rw [heq]
    exact h.of_eq rfl rfl rfl rfl rfl
  | resetDailyLogStatisticalData resetUsed =>
    injection hstep with hstep
    subst hstep
    exact h.resetDaily cfg w resetUsed

/-- The tables are in order wherever a run from the empty manager ends. -/
theorem tablesOk_of_run {events : List ManagerEvent} (h : Run (ManagerStep cfg) {} events s) :
    TablesOk cfg.tk s :=
  h.invariant tablesOk_step tablesOk_empty

end AdDelivery.Sponsored
