import AdDelivery.Core.Files
import AdDelivery.Sponsored.CampaignPhrases

/-!
# Saving and loading the manager

`save` writes the tables of the manager, of its log and of its manual prices to
three files. `load` reads them back in the order of writing, and half way through
it rebuilds the phrase set of every campaign from the phrases just read, under
the keyword dictionary of the object, which at that point is still the old one.
On a fresh object that dictionary is empty, so a phrase is filed as blanks.
-/

namespace AdDelivery.Sponsored

open List AdSponsoredMgr

/-- How each container type of the three files is serialised. -/
structure Serialization (Image : Type) where
  bidphraseLists : Codec Image (List BidPhraseList)
  bidstrLists : Codec Image (List (List String))
  strings : Codec Image (List String)
  strIdMap : Codec Image (Table String Nat)
  ids : Codec Image (List Nat)
  bidPrices : Codec Image (List (Table String Int))
  uniformBidPrices : Codec Image (List (List (Int × ℚ)))
  string : Codec Image String
  ints : Codec Image (List Int32)
  adStat : Codec Image (Table String AdViewInfoPeriodList)
  keywordStat : Codec Image (Table String KeywordViewInfoPeriodList)
  globalStat : Codec Image GlobalInfoPeriodList
  manualPrices : Codec Image (Table String (Table String Int))
  budgets : Codec Image (Table String Int)

/-- The three files. -/
structure DataFiles (Image : Type) where
  /-- `sponsored_ad.data` -/
  sponsoredAd : List Image
  /-- `sponsored_ad_auction.data` -/
  auction : List Image
  /-- `ad_manual_bidinfo.data` -/
  manualBidinfo : List Image

section Files

variable {Image : Type} (io : Serialization Image)

/-- The history records are not saved. -/
def AdAuctionLogMgr.save (s : AdAuctionLogMgr) : List Image :=
  [io.adStat.write s.adStatData, io.keywordStat.write s.keywordStatData,
    io.globalStat.write s.globalStatData]

def AdAuctionLogMgr.load (file : List Image) (s : AdAuctionLogMgr) : Option AdAuctionLogMgr := do
  let (adStatData, file) ← io.adStat.readBlock file
  let (keywordStatData, file) ← io.keywordStat.readBlock file
  let (globalStatData, _) ← io.globalStat.readBlock file
  pure { s with adStatData, keywordStatData, globalStatData }

def AdManualBidInfoMgr.save (s : AdManualBidInfoMgr) : List Image :=
  [io.manualPrices.write s.manualBidpriceList, io.budgets.write s.adCampaignBudgetList]

def AdManualBidInfoMgr.load (file : List Image) : Option AdManualBidInfoMgr := do
  let (manualBidpriceList, file) ← io.manualPrices.readBlock file
  let (adCampaignBudgetList, _) ← io.budgets.readBlock file
  pure { manualBidpriceList, adCampaignBudgetList }

namespace AdSponsoredMgr

def save (s : AdSponsoredMgr) : DataFiles Image where
  sponsoredAd :=
    [io.bidphraseLists.write s.adBidphraseList, io.bidstrLists.write s.adOrigBidstrList,
      io.strings.write s.campaigns.idValueList, io.strIdMap.write s.campaigns.valueIdList,
      io.ids.write s.adCampaignBelongList, io.bidPrices.write s.adBidPriceList,
      io.uniformBidPrices.write s.adUniformBidPriceList,
      io.string.write (bitsToString s.adStatusBitmap), io.strings.write s.keywords.idValueList,
      io.strIdMap.write s.keywords.valueIdList, io.ints.write s.adBudgetUsedList]
  auction := s.adLogMgr.save io
  manualBidinfo := s.manualBidinfoMgr.save io

/-- File the phrases of one loaded ad under its campaign. -/
def fileLoadedAd (s : AdSponsoredMgr) (sets : List (Finset String)) (entry : BidPhraseList × Nat) :
    Option (List (Finset String)) := do
  let campaignId ← s.adCampaignBelongList[entry.2]?
  guard (campaignId < sets.length)
  pure (sets.modify campaignId (· ∪ (getBidPhraseStrList s.keywords entry.1).toFinset))

/-- The phrase sets that loading derives from the tables read so far. -/
def loadCampaignPhrases (s : AdSponsoredMgr) : Option (List (Finset String)) :=
  s.adBidphraseList.zipIdx.foldlM s.fileLoadedAd
    (resize s.adCampaignBidPhraseList s.campaigns.valueIdList.keys.card ∅)

/-- The first five blocks: phrases, texts and campaigns. -/
def loadAdTables (file : List Image) (s : AdSponsoredMgr) :
    Option (AdSponsoredMgr × List Image) := do
  let (adBidphraseList, file) ← io.bidphraseLists.readBlock file
  let (adOrigBidstrList, file) ← io.bidstrLists.readBlock file
  let (campaignNameList, file) ← io.strings.readBlock file
  let (campaignNameIdList, file) ← io.strIdMap.readBlock file
  let (adCampaignBelongList, file) ← io.ids.readBlock file
  pure ({ s with
    adBidphraseList, adOrigBidstrList, adCampaignBelongList
    campaigns := ⟨campaignNameList, campaignNameIdList⟩ }, file)

/-- The next three blocks: automatic prices and status bits. -/
def loadPricesAndStatus (file : List Image) (s : AdSponsoredMgr) :
    Option (AdSponsoredMgr × List Image) := do
  let (adBidPriceList, file) ← io.bidPrices.readBlock file
  let (adUniformBidPriceList, file) ← io.uniformBidPrices.readBlock file
  let (tmpstr, file) ← io.string.readBlock file
  pure ({ s with
    adBidPriceList, adUniformBidPriceList, adStatusBitmap := bitsOfString tmpstr }, file)

/-- The last three blocks: the keyword dictionary and the spent budgets. -/
def loadKeywordsAndBudget (file : List Image) (s : AdSponsoredMgr) : Option AdSponsoredMgr := do
  let (keywordIdValueList, file) ← io.strings.readBlock file
  let (keywordValueIdList, file) ← io.strIdMap.readBlock file
  let (adBudgetUsedList, _) ← io.ints.readBlock file
  pure { s with keywords := ⟨keywordIdValueList, keywordValueIdList⟩, adBudgetUsedList }

/-- Read the files into the object `s`, block by block. The phrase sets are derived
before the keyword blocks are read. -/
def load (files : DataFiles Image) (s : AdSponsoredMgr) : Option AdSponsoredMgr := do
  let (s, file) ← s.loadAdTables io files.sponsoredAd
  let adCampaignBidPhraseList ← s.loadCampaignPhrases
  let s := { s with adCampaignBidPhraseList }
  let (s, file) ← s.loadPricesAndStatus io file
  let s ← s.loadKeywordsAndBudget io file
  let adLogMgr ← s.adLogMgr.load io files.auction
  pure { s with adLogMgr }

end AdSponsoredMgr

end Files

/-- Saving `s` and loading into a fresh object restores every saved table, and makes each
campaign's phrase set the set of strings that its ads bid on in `s`. -/
structure RoundTrips {Image : Type} (io : Serialization Image) (s : AdSponsoredMgr) : Prop where
  manual : AdManualBidInfoMgr.load io (s.save io).manualBidinfo = some s.manualBidinfoMgr
  restored : ∃ t, load io (s.save io) {} = some t ∧
    t.adBidphraseList = s.adBidphraseList ∧ t.adOrigBidstrList = s.adOrigBidstrList ∧
    t.campaigns = s.campaigns ∧ t.adCampaignBelongList = s.adCampaignBelongList ∧
    t.adBidPriceList = s.adBidPriceList ∧ t.adUniformBidPriceList = s.adUniformBidPriceList ∧
    t.adStatusBitmap = s.adStatusBitmap ∧ t.keywords = s.keywords ∧
    t.adBudgetUsedList = s.adBudgetUsedList ∧
    t.adLogMgr.adStatData = s.adLogMgr.adStatData ∧
    t.adLogMgr.keywordStatData = s.adLogMgr.keywordStatData ∧
    t.adLogMgr.globalStatData = s.adLogMgr.globalStatData ∧
    ∀ campaignId key, key ∈ t.adCampaignBidPhraseList.getD campaignId ∅ ↔ s.Live campaignId key

section Rebuild

variable {tk : TitlePCA} {s : AdSponsoredMgr}

/-- Filing entries whose campaigns are all in range succeeds and adds their strings. -/
theorem fileLoadedAds_spec (entries : List (BidPhraseList × Nat)) (sets : List (Finset String))
    (hentries : ∀ entry ∈ entries, ∃ c, s.adCampaignBelongList[entry.2]? = some c ∧
      c < sets.length) :
    ∃ sets', entries.foldlM s.fileLoadedAd sets = some sets' ∧ ∀ c key,
      key ∈ sets'.getD c ∅ ↔ key ∈ sets.getD c ∅ ∨ ∃ entry ∈ entries,
        s.adCampaignBelongList[entry.2]? = some c ∧
        key ∈ getBidPhraseStrList s.keywords entry.1 := by
  induction entries generalizing sets with
  | nil => exact ⟨sets, rfl, fun c key => by simp⟩
  | cons entry entries ih =>
    obtain ⟨own, hown, hlt⟩ := hentries entry mem_cons_self
    set sets₁ := sets.modify own (· ∪ (getBidPhraseStrList s.keywords entry.1).toFinset) with h₁
    have hstep : s.fileLoadedAd sets entry = some sets₁ := by
      simp [fileLoadedAd, hown, guard, hlt, h₁]
    obtain ⟨sets', hrest, hmem⟩ := ih sets₁ (by
      intro e he
      rw [length_modify]
      exact hentries e (mem_cons_of_mem _ he))
    refine ⟨sets', ?_, ?_⟩
    · rw [foldlM_cons, hstep]
      exact hrest
    · intro c key
      rw [hmem, getD_modify _ _ _ _ _ hlt]
      by_cases hc : own = c
      · subst hc
        simp only [if_true, Finset.mem_union, mem_toFinset, mem_cons]
        constructor
        · rintro ((hin | hin) | ⟨e, he, hbelong, hin⟩)
          · exact .inl hin
          · exact .inr ⟨entry, .inl rfl, hown, hin⟩
          · exact .inr ⟨e, .inr he, hbelong, hin⟩
        · rintro (hin | ⟨e, rfl | he, hbelong, hin⟩)
          · exact .inl (.inl hin)
          · exact .inl (.inr hin)
          · exact .inr ⟨e, he, hbelong, hin⟩
      · simp only [hc, if_false, mem_cons]
        constructor
        · rintro (hin | ⟨e, he, hbelong, hin⟩)
          · exact .inl hin
          · exact .inr ⟨e, .inr he, hbelong, hin⟩
        · rintro (hin | ⟨e, rfl | he, hbelong, hin⟩)
          · exact .inl hin
          · rw [hown] at hbelong
            exact absurd (Option.some.inj hbelong) hc
          · exact .inr ⟨e, he, hbelong, hin⟩

theorem card_campaigns (h : TablesOk tk s) :
    s.campaigns.valueIdList.keys.card = s.campaigns.idValueList.length := by
  have hkeys : s.campaigns.valueIdList.keys = s.campaigns.idValueList.toFinset := by
    ext name
    rw [Finmap.mem_keys, Finmap.mem_iff, mem_toFinset, mem_iff_getElem?]
    exact exists_congr (h.campaigns name)
  rw [hkeys, toFinset_card_of_nodup h.campaigns.nodup]

/-- An object without phrase sets derives them from its tables, under its own dictionary. -/
theorem loadCampaignPhrases_spec (h : TablesOk tk s) (keywords : Dictionary String) :
    ∃ sets, loadCampaignPhrases
        { s with keywords := keywords, adCampaignBidPhraseList := [] } = some sets ∧
      ∀ c key, key ∈ sets.getD c ∅ ↔ ∃ adid, s.adCampaignBelongList[adid]? = some c ∧
        key ∈ getBidPhraseStrList keywords (s.adBidphraseList.getD adid []) := by
  obtain ⟨sets, hload, hmem⟩ := fileLoadedAds_spec
    (s := { s with keywords := keywords, adCampaignBidPhraseList := [] })
    s.adBidphraseList.zipIdx
    (resize [] s.campaigns.valueIdList.keys.card ∅) (by
      intro entry hentry
      obtain ⟨-, hlt, -⟩ := mem_zipIdx hentry
      have hbelong : entry.2 < s.adCampaignBelongList.length :=
        Nat.lt_of_lt_of_le (by simpa using hlt) h.belong
      refine ⟨_, getElem?_eq_getElem hbelong, ?_⟩
      rw [length_resize, card_campaigns h]
      exact h.campaign_lt _ (getElem_mem hbelong))
  refine ⟨sets, hload, ?_⟩
  intro c key
  rw [hmem, getD_resize]
  constructor
  · rintro (hin | ⟨⟨phrases, adid⟩, hentry, hbelong, hin⟩)
    · simp at hin
    · refine ⟨adid, hbelong, ?_⟩
      rw [getD_eq_getElem?_getD, mem_zipIdx_iff_getElem?.mp hentry]
      exact hin
  · rintro ⟨adid, hbelong, hin⟩
    rw [getD_eq_getElem?_getD] at hin
    cases hphrases : s.adBidphraseList[adid]? with
    | none =>
      rw [hphrases] at hin
      cases hin
    | some phrases =>
      rw [hphrases] at hin
      exact .inr ⟨(phrases, adid), mem_zipIdx_iff_getElem?.mpr hphrases, hbelong, hin⟩

end Rebuild

private theorem toList_foldl_join (words : List String) (str : String) :
    (words.foldl (fun str word => str ++ (word ++ " ")) str).toList =
      str.toList ++ words.flatMap fun word => word.toList ++ [' '] := by
  induction words generalizing str with
  | nil => simp
  | cons word words ih =>
    rw [foldl_cons, ih, String.toList_append, String.toList_append, append_assoc]
    rfl

theorem toList_joinKeywords (words : List String) :
    (joinKeywords words).toList = words.flatMap fun word => word.toList ++ [' '] := by
  rw [joinKeywords, toList_foldl_join, String.toList_empty, nil_append]

/-- Under the empty dictionary every keyword of a phrase reads as nothing. -/
theorem getBidPhraseStr_empty (bidphrase : BidPhrase) :
    getBidPhraseStr {} bidphrase = joinKeywords (bidphrase.map fun _ => "") :=
  rfl

variable {bidphrase : BidPhrase}

theorem mem_blanks {c : Char} (h : c ∈ (getBidPhraseStr {} bidphrase).toList) : c = ' ' := by
  rw [getBidPhraseStr_empty, toList_joinKeywords] at h
  obtain ⟨word, hword, hc⟩ := mem_flatMap.mp h
  obtain ⟨id, -, rfl⟩ := mem_map.mp hword
  simpa using hc

/-- A phrase whose string is all blanks has only empty keywords, if keywords have no blanks. -/
theorem keyword_empty_of_blanks {d : Dictionary String}
    (hblank : ∀ id ∈ bidphrase, ' ' ∉ (getBidKeywordStrFromId d id).toList)
    (h : ∀ c ∈ (getBidPhraseStr d bidphrase).toList, c = ' ') :
    ∀ id ∈ bidphrase, getBidKeywordStrFromId d id = "" := by
  intro id hid
  have hnone : ∀ c, c ∉ (getBidKeywordStrFromId d id).toList := by
    intro c hc
    have hmem : c ∈ (getBidPhraseStr d bidphrase).toList := by
      rw [getBidPhraseStr, toList_joinKeywords]
      exact mem_flatMap.mpr ⟨_, mem_map_of_mem hid, mem_append_left _ hc⟩
    rw [h c hmem] at hc
    exact hblank id hid hc
  exact String.toList_eq_nil_iff.mp (eq_nil_iff_forall_not_mem.mpr hnone)

section RoundTrip

variable {Image : Type} (io : Serialization Image) {cfg : Config} {s : AdSponsoredMgr}

/-- Every keyword id that occurs in a stored phrase denotes the empty string. -/
def OnlyEmptyKeywords (s : AdSponsoredMgr) : Prop :=
  ∀ bidphraseList ∈ s.adBidphraseList, ∀ bidphrase ∈ bidphraseList, ∀ kid ∈ bidphrase,
    getBidKeywordStrFromId s.keywords kid = ""

/-- A fresh object after the first five blocks. -/
def loadedTables (s : AdSponsoredMgr) : AdSponsoredMgr where
  adBidphraseList := s.adBidphraseList
  adOrigBidstrList := s.adOrigBidstrList
  campaigns := s.campaigns
  adCampaignBelongList := s.adCampaignBelongList

/-- What loading into a fresh object yields: the saved tables, and phrase sets of blanks. -/
theorem load_save (h : TablesOk cfg.tk s) : ∃ sets, load io (s.save io) {} = some
        { s with
          adCampaignBidPhraseList := sets
          adCtrList := []
          bidStrategyType := .uniformBid
          manualBidinfoMgr := {}
          adLogMgr := { s.adLogMgr with
            adHistoryStatData := ∅, keywordHistoryStatData := ∅, globalHistoryStatData := {} } } ∧
      ∀ c key, key ∈ sets.getD c ∅ ↔ ∃ adid, s.adCampaignBelongList[adid]? = some c ∧
        key ∈ getBidPhraseStrList {} (s.adBidphraseList.getD adid []) := by
  obtain ⟨sets, hsets, hmem⟩ := loadCampaignPhrases_spec h {}
  refine ⟨sets, ?_, hmem⟩
  have htables : ∀ rest, loadAdTables io
      (io.bidphraseLists.write s.adBidphraseList :: io.bidstrLists.write s.adOrigBidstrList ::
        io.strings.write s.campaigns.idValueList :: io.strIdMap.write s.campaigns.valueIdList ::
        io.ids.write s.adCampaignBelongList :: rest) {} = some (loadedTables s, rest) := by
    intro rest
    simp only [loadAdTables, Codec.readBlock_write, Option.bind_eq_bind,
      Option.bind_some, Option.pure_def]
    rfl
  have hphrases : (loadedTables s).loadCampaignPhrases = some sets := hsets
  simp only [load, save, htables, hphrases, Option.bind_eq_bind,
    Option.bind_some, loadPricesAndStatus, loadKeywordsAndBudget,
    AdAuctionLogMgr.load, AdAuctionLogMgr.save, Codec.readBlock_write, Option.pure_def,
    bitsOfString_bitsToString]
  rfl

/-- A phrase set restored as it should be leaves no room for a keyword. -/
theorem onlyEmptyKeywords_of_roundTrips (h : TablesOk cfg.tk s)
    (htoken : ∀ word, cfg.tk.IsToken word → ' ' ∉ word.toList) (hround : RoundTrips io s) :
    OnlyEmptyKeywords s := by
  obtain ⟨sets, hload, hmem⟩ := load_save io h
  obtain ⟨t, ht, -, -, -, -, -, -, -, -, -, -, -, -, hlive⟩ := hround.restored
  rw [hload] at ht
  injection ht with ht
  subst ht
  intro phrases hphrases p hp
  obtain ⟨adid, hadid⟩ := mem_iff_getElem?.mp hphrases
  have hbelong := Nat.lt_of_lt_of_le (List.getElem?_eq_some_iff.mp hadid).1 h.belong
  have hkey : s.Live s.adCampaignBelongList[adid] (getBidPhraseStr s.keywords p) := by
    refine ⟨adid, getElem?_eq_getElem hbelong, ?_⟩
    rw [adKeys, getD_eq_getElem?_getD, hadid]
    exact mem_map_of_mem hp
  obtain ⟨a, -, hin⟩ := (hmem _ _).mp ((hlive _ _).mpr hkey)
  obtain ⟨q, -, hq⟩ := mem_map.mp hin
  apply keyword_empty_of_blanks
  · intro kid hkid
    obtain ⟨word, hword, hIsToken⟩ := h.phrases phrases hphrases p hp kid hkid
    rw [getBidKeywordStrFromId_eq hword]
    exact htoken word hIsToken
  · intro c hc
    rw [← hq] at hc
    exact mem_blanks hc

/-- Phrases of empty keywords are filed as blanks anyway. -/
theorem roundTrips_of_onlyEmptyKeywords (h : TablesOk cfg.tk s) (hempty : OnlyEmptyKeywords s) :
    RoundTrips io s := by
  obtain ⟨sets, hload, hmem⟩ := load_save io h
  refine ⟨?_, _, hload, rfl, rfl, rfl, rfl, rfl, rfl, rfl, rfl, rfl, rfl, rfl, rfl, ?_⟩
  · simp only [AdManualBidInfoMgr.load, save, AdManualBidInfoMgr.save,
      Codec.readBlock_write, Option.bind_eq_bind, Option.bind_some, Option.pure_def]
  · intro c key
    rw [hmem]
    apply exists_congr
    intro adid
    have hstrs : getBidPhraseStrList {} (s.adBidphraseList.getD adid []) = s.adKeys adid := by
      refine strs_eq_adKeys adid fun phrases hphrases p hp => ?_
      rw [getBidPhraseStr]
      congr 1
      apply map_congr_left
      intro kid hkid
      exact (hempty phrases hphrases p hp kid hkid).symm
    rw [hstrs]

/-- In every state that a run reaches, saving and loading into a fresh object restores the
tables and the live phrases if and only if every keyword in use is the empty string,
provided that the analyser never yields a word with a blank in it. -/
theorem roundTrips_iff_onlyEmptyKeywords {Image : Type} (io : Serialization Image) (cfg : Config)
    (events : List ManagerEvent) (s : AdSponsoredMgr) (hrun : Run (ManagerStep cfg) {} events s)
    (htoken : ∀ word, cfg.tk.IsToken word → ' ' ∉ word.toList) :
    RoundTrips io s ↔ OnlyEmptyKeywords s :=
  ⟨onlyEmptyKeywords_of_roundTrips io (tablesOk_of_run hrun) htoken,
    roundTrips_of_onlyEmptyKeywords io (tablesOk_of_run hrun)⟩

end RoundTrip

/-- Images that carry their container with a tag for its type. -/
inductive TaggedImage
  | bidphraseLists (v : List BidPhraseList)
  | bidstrLists (v : List (List String))
  | strings (v : List String)
  | strIdMap (v : Table String Nat)
  | ids (v : List Nat)
  | bidPrices (v : List (Table String Int))
  | uniformBidPrices (v : List (List (Int × ℚ)))
  | string (v : String)
  | ints (v : List Int32)
  | adStat (v : Table String AdViewInfoPeriodList)
  | keywordStat (v : Table String KeywordViewInfoPeriodList)
  | globalStat (v : GlobalInfoPeriodList)
  | manualPrices (v : Table String (Table String Int))
  | budgets (v : Table String Int)

def taggedSerialization : Serialization TaggedImage where
  bidphraseLists := ⟨.bidphraseLists, fun | .bidphraseLists v => v | _ => [], fun _ => rfl⟩
  bidstrLists := ⟨.bidstrLists, fun | .bidstrLists v => v | _ => [], fun _ => rfl⟩
  strings := ⟨.strings, fun | .strings v => v | _ => [], fun _ => rfl⟩
  strIdMap := ⟨.strIdMap, fun | .strIdMap v => v | _ => ∅, fun _ => rfl⟩
  ids := ⟨.ids, fun | .ids v => v | _ => [], fun _ => rfl⟩
  bidPrices := ⟨.bidPrices, fun | .bidPrices v => v | _ => [], fun _ => rfl⟩
  uniformBidPrices := ⟨.uniformBidPrices, fun | .uniformBidPrices v => v | _ => [], fun _ => rfl⟩
  string := ⟨.string, fun | .string v => v | _ => "", fun _ => rfl⟩
  ints := ⟨.ints, fun | .ints v => v | _ => [], fun _ => rfl⟩
  adStat := ⟨.adStat, fun | .adStat v => v | _ => ∅, fun _ => rfl⟩
  keywordStat := ⟨.keywordStat, fun | .keywordStat v => v | _ => ∅, fun _ => rfl⟩
  globalStat := ⟨.globalStat, fun | .globalStat v => v | _ => ∅, fun _ => rfl⟩
  manualPrices := ⟨.manualPrices, fun | .manualPrices v => v | _ => ∅, fun _ => rfl⟩
  budgets := ⟨.budgets, fun | .budgets v => v | _ => ∅, fun _ => rfl⟩

/-- A document without any property. -/
def blankWorld : World := { shopWorld with getPropertyValue := fun _ _ => none }

/-- The state after mining it: one ad with one phrase that has no keywords. -/
def blankMgr : AdSponsoredMgr := ({} : AdSponsoredMgr).miningAdCreatives shopConfig blankWorld 1 1

/-- An ad without keywords survives the round trip. -/
theorem roundTrips_blank : RoundTrips taggedSerialization blankMgr :=
  (roundTrips_iff_onlyEmptyKeywords taggedSerialization shopConfig
    [⟨blankWorld, .miningAdCreatives ⟨1, 1, Nat.le_refl 1⟩⟩] blankMgr (.cons rfl (.nil _))
    (fun _ => no_blank_of_isToken)).mpr (by
      have hphrases : blankMgr.adBidphraseList = [[], [[]]] := by decide +kernel
      unfold OnlyEmptyKeywords
      rw [hphrases]
      simp)

/-- The phrase "red phone" of the shop's ad does not. -/
theorem not_roundTrips_shop : ¬ RoundTrips taggedSerialization shopMgr := by
  intro hround
  have hempty := onlyEmptyKeywords_of_roundTrips taggedSerialization
    (tablesOk_of_run run_shopMgr) (fun _ => no_blank_of_isToken) hround
  have hphrase : [[0, 1]] ∈ shopMgr.adBidphraseList := by decide +kernel
  have hkeyword : getBidKeywordStrFromId shopMgr.keywords 0 = "red" := by decide +kernel
  have hred := hempty [[0, 1]] hphrase [0, 1] (by simp) 0 (by simp)
  rw [hkeyword] at hred
  exact absurd hred (by decide)

end AdDelivery.Sponsored
