import AdDelivery.Sponsored.TableInvariant

/-!
# The phrase set of a campaign

For every campaign the manager keeps the set of phrase strings that its ads bid
on, so that the daily statistics can price them. Mining adds to the set and
nothing ever takes from it; the calls that edit one ad do not touch it. The set
is the set of live phrases all along a run exactly when every step of the run
changes no campaign's live phrases, except that mining may add some.
-/

namespace AdDelivery.Sponsored

open List AdSponsoredMgr PhraseOk AdSponsoredMgr

/-- The strings of an ad's phrases. -/
def AdSponsoredMgr.adKeys (s : AdSponsoredMgr) (adid : Nat) : List String :=
  getBidPhraseStrList s.keywords (s.adBidphraseList.getD adid [])

/-- Some ad of the campaign bids on the phrase string. -/
def AdSponsoredMgr.Live (s : AdSponsoredMgr) (campaignId : Nat) (key : String) : Prop :=
  ∃ adid, s.adCampaignBelongList[adid]? = some campaignId ∧ key ∈ s.adKeys adid

/-- Every campaign's phrase set holds exactly its live phrases. -/
def CampaignPhrasesLive (s : AdSponsoredMgr) : Prop :=
  ∀ campaignId key, key ∈ s.adCampaignBidPhraseList.getD campaignId ∅ ↔ s.Live campaignId key

/-- Giving the ad the phrase strings `keys` in place of its own leaves the live phrases
of its campaign as they are. -/
def EditKeeps (s : AdSponsoredMgr) (adid : Nat) (keys : List String) : Prop :=
  ∀ campaignId, s.adCampaignBelongList[adid]? = some campaignId →
    (∀ key ∈ keys, s.Live campaignId key) ∧
      ∀ key ∈ s.adKeys adid, key ∈ keys ∨ ∃ other, other ≠ adid ∧
        s.adCampaignBelongList[other]? = some campaignId ∧ key ∈ s.adKeys other

section Edit

variable {tk : TitlePCA} {s s' : AdSponsoredMgr} {keywords : Dictionary String}

/-- An ad's strings are the same under a dictionary that spells its phrases alike. -/
theorem strs_eq_adKeys (adid : Nat) (h : ∀ phrases ∈ s.adBidphraseList, ∀ p ∈ phrases,
      getBidPhraseStr keywords p = getBidPhraseStr s.keywords p) :
    getBidPhraseStrList keywords (s.adBidphraseList.getD adid []) = s.adKeys adid := by
  apply map_congr_left
  intro p hp
  rw [getD_eq_getElem?_getD] at hp
  cases hl : s.adBidphraseList[adid]? with
  | none =>
    rw [hl] at hp
    cases hp
  | some phrases =>
    rw [hl] at hp
    exact h phrases (mem_of_getElem? hl) p hp

/-- Such as a larger one. -/
theorem strs_of_extends (h : EntriesOk tk s) (hext : s.keywords.Extends keywords) (adid : Nat) :
    getBidPhraseStrList keywords (s.adBidphraseList.getD adid []) = s.adKeys adid :=
  strs_eq_adKeys adid fun phrases hphrases p hp => (h.phrases phrases hphrases p hp).str_eq hext

variable {r : List (BidPhrase × String) × Dictionary String}

/-- Storing phrases changes the strings of that ad alone. -/
theorem adKeys_storePhrases (h : EntriesOk tk s) {texts : List String}
    (hr : PhrasesSpec tk s.keywords texts r) (adid : Nat) (orig : List String) (a : Nat) :
    (s.storePhrases adid orig r.1 r.2).adKeys a =
      if a = adid ∧ adid < s.adBidphraseList.length then r.1.map Prod.snd else s.adKeys a := by
  have hother := strs_of_extends h hr.extends_ a
  unfold adKeys at hother ⊢
  simp only [storePhrases, getD_eq_getElem?_getD, getElem?_set] at hother ⊢
  by_cases ha : adid = a
  · subst ha
    by_cases hlt : adid < s.adBidphraseList.length
    · simp only [hlt, and_self, if_true, Option.getD_some]
      exact hr.strs_eq
    · simp [hlt, getBidPhraseStrList]
  · simp only [ha, Ne.symm ha, false_and, if_false]
    exact hother

/-- An edit of one ad keeps the phrase sets right exactly when it changes no live phrase. -/
theorem campaignPhrasesLive_edit_iff (h : CampaignPhrasesLive s) (adid : Nat) (keys : List String)
    (hkeys : ∀ a, s'.adKeys a = if a = adid then keys else s.adKeys a)
    (hbelong : s'.adCampaignBelongList = s.adCampaignBelongList)
    (hsets : s'.adCampaignBidPhraseList = s.adCampaignBidPhraseList) :
    CampaignPhrasesLive s' ↔ EditKeeps s adid keys := by
  have hself : s'.adKeys adid = keys := by rw [hkeys, if_pos rfl]
  have hother : ∀ a, a ≠ adid → s'.adKeys a = s.adKeys a := by
    intro a ha
    rw [hkeys, if_neg ha]
  unfold CampaignPhrasesLive
  simp only [hsets, h _ _]
  constructor
  · intro hsame campaignId hc
    refine ⟨?_, ?_⟩
    · intro key hkey
      exact (hsame campaignId key).mpr ⟨adid, by rw [hbelong]; exact hc, by rw [hself]; exact hkey⟩
    · intro key hkey
      obtain ⟨a, ha, hmem⟩ := (hsame campaignId key).mp ⟨adid, hc, hkey⟩
      by_cases had : a = adid
      · subst had
        rw [hself] at hmem
        exact .inl hmem
      · rw [hother a had] at hmem
        rw [hbelong] at ha
        exact .inr ⟨a, had, ha, hmem⟩
  · intro hkeep campaignId key
    constructor
    · rintro ⟨a, ha, hmem⟩
      by_cases had : a = adid
      · subst had
        rcases (hkeep campaignId ha).2 key hmem with hin | ⟨b, hb, hcamp, hin⟩
        · exact ⟨a, by rw [hbelong]; exact ha, by rw [hself]; exact hin⟩
        · exact ⟨b, by rw [hbelong]; exact hcamp, by rw [hother b hb]; exact hin⟩
      · exact ⟨a, by rw [hbelong]; exact ha, by rw [hother a had]; exact hmem⟩
    · rintro ⟨a, ha, hmem⟩
      rw [hbelong] at ha
      by_cases had : a = adid
      · subst had
        rw [hself] at hmem
        exact (hkeep campaignId ha).1 key hmem
      · rw [hother a had] at hmem
        exact ⟨a, ha, hmem⟩

/-- The same for the phrases that a loop over texts made. -/
theorem campaignPhrasesLive_store_iff (hok : EntriesOk tk s) (h : CampaignPhrasesLive s)
    {texts : List String} (hr : PhrasesSpec tk s.keywords texts r) {adid : Nat}
    (hadid : adid < s.adBidphraseList.length) (orig : List String) {manual : AdManualBidInfoMgr}
    {keys : List String} (hkeys : r.1.map Prod.snd = keys) :
    CampaignPhrasesLive { s.storePhrases adid orig r.1 r.2 with manualBidinfoMgr := manual } ↔
      EditKeeps s adid keys := by
  refine campaignPhrasesLive_edit_iff h adid keys ?_ rfl rfl
  intro a
  have hstore := adKeys_storePhrases hok hr adid orig a
  rw [hkeys] at hstore
  simp only [hadid, and_true] at hstore
  exact hstore

end Edit

/-- The strings of the phrases that mining makes for a document. -/
def minedKeys (cfg : Config) (w : World) (adid : Nat) : List String :=
  (readCreative cfg w adid).texts.map (phraseKey cfg.tk)

/-- The campaign under which mining files a document. -/
def minedCampaign (cfg : Config) (w : World) (adid : Nat) : String :=
  (readCreative cfg w adid).campaign

/-- Every phrase of an ad that mining replaces or drops is still bid on in its campaign,
by an ad that is kept or by one that is mined. -/
def MiningKeeps (cfg : Config) (w : World) (s : AdSponsoredMgr) (range : DocRange) : Prop :=
  ∀ adid campaignId key, range.startId ≤ adid →
    s.adCampaignBelongList[adid]? = some campaignId → key ∈ s.adKeys adid →
    (∃ other < range.startId, s.adCampaignBelongList[other]? = some campaignId ∧
      key ∈ s.adKeys other) ∨
    ∃ mined, range.startId ≤ mined ∧ mined ≤ range.endId ∧
      s.campaigns.idValueList[campaignId]? = some (minedCampaign cfg w mined) ∧
      key ∈ minedKeys cfg w mined

section Mining

variable {cfg : Config} {w : World} {s : AdSponsoredMgr}

/-- What one mined ad changes, table by table. -/
theorem mineAd_effect (w : World) (h : EntriesOk cfg.tk s) (adid : Nat) :
    let m := s.mineAd cfg w adid
    let campaignId := (s.campaigns.intern (minedCampaign cfg w adid)).1
    m.campaigns = (s.campaigns.intern (minedCampaign cfg w adid)).2 ∧
      (∀ a, m.adKeys a = if a = adid ∧ adid < s.adBidphraseList.length
        then minedKeys cfg w adid else s.adKeys a) ∧
      m.adCampaignBelongList = (growTo s.adCampaignBelongList (adid + 1) 0).set adid campaignId ∧
      ∀ c key, key ∈ m.adCampaignBidPhraseList.getD c ∅ ↔
        key ∈ s.adCampaignBidPhraseList.getD c ∅ ∨ c = campaignId ∧ key ∈ minedKeys cfg w adid := by
  intro m campaignId
  have hr := generateBidPhrases_spec cfg.tk true
    (readCreative cfg w adid).texts h.keywords PhraseOk.nil
  have hkeys := generateBidPhrases_keys cfg.tk
    (readCreative cfg w adid).texts h.keywords PhraseOk.nil
  obtain ⟨manual, orig, -, heq⟩ := mineAd_eq cfg w s adid
  have hmanual : EntriesOk cfg.tk { s with manualBidinfoMgr := manual } :=
    h.of_eq rfl rfl rfl rfl rfl
  refine ⟨congrArg campaigns heq, ?_,
    congrArg adCampaignBelongList heq, ?_⟩
  · intro a
    have hstore := adKeys_storePhrases hmanual hr adid orig a
    rw [hkeys] at hstore
    exact (congrArg (adKeys · a) heq).trans hstore
  · intro c key
    have hlist : m.adCampaignBidPhraseList = (growTo s.adCampaignBidPhraseList (campaignId + 1)
        ∅).modify campaignId (· ∪ (minedKeys cfg w adid).toFinset) := by
      have hfiled := congrArg adCampaignBidPhraseList heq
      rw [hkeys] at hfiled
      exact hfiled
    rw [hlist, getD_modify _ _ _ _ _ (by simp), getD_growTo]
    by_cases hc : campaignId = c
    · rw [if_pos hc, Finset.mem_union, mem_toFinset]
      simp only [hc, true_and]
    · rw [if_neg hc]
      simp only [Ne.symm hc, false_and, or_false]

/-- The tables after some ads were mined, told by the ads. -/
structure MinedFrom (cfg : Config) (w : World) (s : AdSponsoredMgr) (adids : List Nat)
    (m : AdSponsoredMgr) : Prop where
  entries : EntriesOk cfg.tk m
  campaigns : s.campaigns.Extends m.campaigns
  named : ∀ a ∈ adids, minedCampaign cfg w a ∈ m.campaigns.idValueList
  length_eq : m.adBidphraseList.length = s.adBidphraseList.length
  keys : ∀ a, m.adKeys a = if a ∈ adids ∧ a < s.adBidphraseList.length
    then minedKeys cfg w a else s.adKeys a
  belong_mined : ∀ a ∈ adids, ∀ c, m.adCampaignBelongList[a]? = some c ↔
    m.campaigns.idValueList[c]? = some (minedCampaign cfg w a)
  belong_kept : ∀ a ∉ adids, a < s.adCampaignBelongList.length →
    m.adCampaignBelongList[a]? = s.adCampaignBelongList[a]?
  belong_length : s.adCampaignBelongList.length ≤ m.adCampaignBelongList.length
  sets : ∀ c key, key ∈ m.adCampaignBidPhraseList.getD c ∅ ↔
    key ∈ s.adCampaignBidPhraseList.getD c ∅ ∨ ∃ a ∈ adids,
      m.campaigns.idValueList[c]? = some (minedCampaign cfg w a) ∧ key ∈ minedKeys cfg w a

theorem minedFrom_nil (h : EntriesOk cfg.tk s) : MinedFrom cfg w s [] s where
  entries := h
  campaigns := .refl _
  named := by simp
  length_eq := rfl
  keys := by simp
  belong_mined := by simp
  belong_kept := fun _ _ _ => rfl
  belong_length := Nat.le_refl _
  sets := by simp

/-- Mining one more ad extends the account by that ad. -/
theorem MinedFrom.snoc {adids : List Nat} {m : AdSponsoredMgr} (h : MinedFrom cfg w s adids m)
    (last : Nat) : MinedFrom cfg w s (adids ++ [last]) (m.mineAd cfg w last) := by
  obtain ⟨hcampaigns, hkeys, hbelong, hsets⟩ := mineAd_effect w h.entries last
  have hext : m.campaigns.Extends (m.mineAd cfg w last).campaigns := by
    exact m.campaigns.extends_intern _
  have hinv : (m.mineAd cfg w last).campaigns.Inverse := (h.entries.mineAd w last).campaigns
  have hid_iff : ∀ c, c = (m.campaigns.intern (minedCampaign cfg w last)).1 ↔
      (m.mineAd cfg w last).campaigns.idValueList[c]? = some (minedCampaign cfg w last) := by
    intro c
    exact h.entries.campaigns.intern_eq_iff _ c
  have hold : ∀ a ∈ adids, ∀ c, (m.mineAd cfg w last).campaigns.idValueList[c]? =
      some (minedCampaign cfg w a) ↔ m.campaigns.idValueList[c]? = some (minedCampaign cfg w a) :=
    fun a ha c => hinv.getElem?_iff_of_extends hext (h.named a ha) c
  have hbelong_ne : ∀ a, a ≠ last → a < m.adCampaignBelongList.length →
      (m.mineAd cfg w last).adCampaignBelongList[a]? = m.adCampaignBelongList[a]? := by
    intro a ha hlt
    rw [hbelong, getElem?_set_ne (Ne.symm ha), getElem?_growTo_of_lt hlt]
  have hbelong_last : (m.mineAd cfg w last).adCampaignBelongList[last]? =
      some (m.campaigns.intern (minedCampaign cfg w last)).1 := by
    rw [hbelong, getElem?_set_self (by simp)]
  have hlen := length_belong_mineAd cfg w m last
  refine ⟨h.entries.mineAd w last, h.campaigns.trans hext, ?_,
    (length_phrases_mineAd cfg w m last).trans h.length_eq, ?_, ?_, ?_, ?_, ?_⟩
  · intro a ha
    rcases mem_append.mp ha with ha | ha
    · exact IsPrefix.subset hext (h.named a ha)
    · rw [mem_singleton.mp ha]
      exact mem_of_getElem? ((hid_iff _).mp rfl)
  · intro a
    rw [hkeys, h.keys, h.length_eq]
    by_cases ha : a = last
    · subst ha
      by_cases hlt : a < s.adBidphraseList.length <;> simp [hlt]
    · simp [ha]
  · intro a ha c
    by_cases hlast : a = last
    · subst hlast
      rw [hbelong_last, Option.some.injEq, eq_comm]
      exact hid_iff c
    · have hmem : a ∈ adids := by simpa [hlast] using ha
      have hlt : a < m.adCampaignBelongList.length := by
        obtain ⟨i, hi⟩ := mem_iff_getElem?.mp (h.named a hmem)
        exact (List.getElem?_eq_some_iff.mp ((h.belong_mined a hmem i).mpr hi)).1
      rw [hbelong_ne a hlast hlt, h.belong_mined a hmem c, hold a hmem c]
  · intro a ha hlt
    rw [mem_append, mem_singleton, not_or] at ha
    rw [hbelong_ne a ha.2 (Nat.lt_of_lt_of_le hlt h.belong_length), h.belong_kept a ha.1 hlt]
  · rw [hlen]
    exact Nat.le_trans h.belong_length (Nat.le_max_left _ _)
  · intro c key
    rw [hsets, h.sets]
    constructor
    · rintro ((hin | ⟨a, ha, hc, hin⟩) | ⟨hc, hin⟩)
      · exact .inl hin
      · exact .inr ⟨a, mem_append_left _ ha, (hold a ha c).mpr hc, hin⟩
      · exact .inr ⟨last, by simp, (hid_iff c).mp hc, hin⟩
    · rintro (hin | ⟨a, ha, hc, hin⟩)
      · exact .inl (.inl hin)
      · rcases mem_append.mp ha with ha | ha
        · exact .inl (.inr ⟨a, ha, (hold a ha c).mp hc, hin⟩)
        · rw [mem_singleton.mp ha] at hc hin
          exact .inr ⟨(hid_iff c).mpr hc, hin⟩

theorem minedFrom_foldl (w : World) (h : EntriesOk cfg.tk s) (adids : List Nat) :
    MinedFrom cfg w s adids (adids.foldl (mineAd cfg w) s) := by
  induction adids using List.reverseRecOn with
  | nil => exact minedFrom_nil h
  | append_singleton adids last ih =>
    rw [foldl_append, foldl_cons]
    exact ih.snoc last

/-- Mining starts from the ads below the range, with the strings they had. -/
theorem adKeys_miningStart (s : AdSponsoredMgr) {startId endId : Nat} (hle : startId ≤ endId)
    (a : Nat) : (s.miningStart startId endId).adKeys a =
      if a < startId then s.adKeys a else [] := by
  have hcopy : (if s.adBidphraseList.length < startId then s.adBidphraseList.length else startId) =
      min s.adBidphraseList.length startId := by
    split <;> omega
  unfold adKeys miningStart
  simp only [hcopy]
  rw [getD_resize]
  by_cases ha : a < startId
  · rw [if_pos (by omega), getD_eq_getElem?_getD, getElem?_take,
      getD_eq_getElem?_getD]
    split
    · rfl
    · rw [getElem?_eq_none (by omega)]
  · split
    · rw [getD_eq_getElem?_getD, getElem?_eq_none]
      · rfl
      · rw [length_take]
        omega
    · rfl

/-- After mining a range, a phrase is live if an ad below the range that was kept or a
mined ad bids on it. -/
theorem live_mining_iff (h : TablesOk cfg.tk s) (range : DocRange) (c : Nat) (key : String)
    {m : AdSponsoredMgr} (hm : MinedFrom cfg w (s.miningStart range.startId range.endId)
      (List.range' range.startId (range.endId + 1 - range.startId)) m) : m.Live c key ↔
      (∃ a < range.startId, s.adCampaignBelongList[a]? = some c ∧ key ∈ s.adKeys a) ∨
      ∃ a, (range.startId ≤ a ∧ a ≤ range.endId) ∧
        m.campaigns.idValueList[c]? = some (minedCampaign cfg w a) ∧ key ∈ minedKeys cfg w a := by
  have hmem : ∀ a, a ∈ List.range' range.startId (range.endId + 1 - range.startId) ↔
      range.startId ≤ a ∧ a ≤ range.endId := by
    intro a
    rw [mem_range'_1]
    omega
  have hlen : (s.miningStart range.startId range.endId).adBidphraseList.length =
      range.endId + 1 := length_resize _ _ _
  have hin : ∀ a, range.startId ≤ a ∧ a ≤ range.endId → m.adKeys a = minedKeys cfg w a := by
    intro a ha
    rw [hm.keys, if_pos ⟨(hmem a).mpr ha, by omega⟩]
  have hout : ∀ a, ¬ (range.startId ≤ a ∧ a ≤ range.endId) →
      m.adKeys a = if a < range.startId then s.adKeys a else [] := by
    intro a ha
    rw [hm.keys, if_neg (fun hand => ha ((hmem a).mp hand.1)), adKeys_miningStart s range.le]
  constructor
  · rintro ⟨a, hbelong, hkey⟩
    by_cases ha : range.startId ≤ a ∧ a ≤ range.endId
    · rw [hin a ha] at hkey
      exact .inr ⟨a, ha, (hm.belong_mined a ((hmem a).mpr ha) c).mp hbelong, hkey⟩
    · rw [hout a ha] at hkey
      split at hkey
      · rename_i hlt
        have hphrases : a < s.adBidphraseList.length := by
          by_contra hge
          rw [adKeys, getD_eq_getElem?_getD, getElem?_eq_none (by omega)] at hkey
          cases hkey
        have hkept := hm.belong_kept a (fun h => ha ((hmem a).mp h))
          (Nat.lt_of_lt_of_le hphrases h.belong)
        exact .inl ⟨a, hlt, hkept.symm.trans hbelong, hkey⟩
      · cases hkey
  · rintro (⟨a, hlt, hbelong, hkey⟩ | ⟨a, ha, hc, hkey⟩)
    · have ha : ¬ (range.startId ≤ a ∧ a ≤ range.endId) := by omega
      have hblen := (List.getElem?_eq_some_iff.mp hbelong).1
      refine ⟨a, (hm.belong_kept a (fun h => ha ((hmem a).mp h)) hblen).trans hbelong, ?_⟩
      rw [hout a ha, if_pos hlt]
      exact hkey
    · refine ⟨a, (hm.belong_mined a ((hmem a).mpr ha) c).mpr hc, ?_⟩
      rw [hin a ha]
      exact hkey

/-- Mining keeps the phrase sets right exactly when no phrase dies with it. -/
theorem campaignPhrasesLive_mining_iff (h : TablesOk cfg.tk s) (hlive : CampaignPhrasesLive s)
    (range : DocRange) : CampaignPhrasesLive (s.miningAdCreatives cfg w range.startId range.endId) ↔
      MiningKeeps cfg w s range := by
  have hm := minedFrom_foldl w
    (h.toEntriesOk.miningStart range.startId range.endId)
    (List.range' range.startId (range.endId + 1 - range.startId))
  set m := (List.range' range.startId (range.endId + 1 - range.startId)).foldl
    (mineAd cfg w) (s.miningStart range.startId range.endId) with hmdef
  have hreset : CampaignPhrasesLive (s.miningAdCreatives cfg w range.startId range.endId) ↔
      CampaignPhrasesLive m := by
    obtain ⟨hphrase, -, hbelong, -, hkeywords, hsets⟩ := tables_resetDaily w m false
    simp only [CampaignPhrasesLive, Live, adKeys,
      miningAdCreatives, ← hmdef, hphrase, hbelong, hkeywords, hsets]
  have hsets : ∀ c key, key ∈ m.adCampaignBidPhraseList.getD c ∅ ↔
      s.Live c key ∨ ∃ a, (range.startId ≤ a ∧ a ≤ range.endId) ∧
        m.campaigns.idValueList[c]? = some (minedCampaign cfg w a) ∧
        key ∈ minedKeys cfg w a := by
    intro c key
    rw [hm.sets, ← hlive]
    simp only [mem_range'_1, show ∀ a, (range.startId ≤ a ∧
      a < range.startId + (range.endId + 1 - range.startId)) ↔
      (range.startId ≤ a ∧ a ≤ range.endId) from fun a => by omega]
    exact Iff.rfl
  have hname : ∀ a c, s.adCampaignBelongList[a]? = some c →
      m.campaigns.idValueList[c]? = s.campaigns.idValueList[c]? :=
    fun a c ha => hm.campaigns.getElem? (h.campaign_lt c (mem_of_getElem? ha))
  rw [hreset]
  unfold CampaignPhrasesLive
  simp only [hsets, live_mining_iff h range _ _ hm]
  constructor
  · intro hall a c key hstart hbelong hkey
    rcases (hall c key).mp (.inl ⟨a, hbelong, hkey⟩) with hkept | ⟨b, hb, hc, hin⟩
    · exact .inl hkept
    · rw [hname a c hbelong] at hc
      exact .inr ⟨b, hb.1, hb.2, hc, hin⟩
  · intro hkeep c key
    constructor
    · rintro (⟨a, hbelong, hkey⟩ | hmined)
      · by_cases hstart : range.startId ≤ a
        · rcases hkeep a c key hstart hbelong hkey with hkept | ⟨b, hb, hb', hc, hin⟩
          · exact .inl hkept
          · rw [← hname a c hbelong] at hc
            exact .inr ⟨b, ⟨hb, hb'⟩, hc, hin⟩
        · exact .inl ⟨a, by omega, hbelong, hkey⟩
      · exact .inr hmined
    · rintro (⟨a, -, hbelong, hkey⟩ | hmined)
      · exact .inl ⟨a, hbelong, hkey⟩
      · exact .inr hmined

end Mining

/-- What a call must meet so that the phrase sets stay right. A call on an ad that is not
found, or a deletion from an ad without texts, changes nothing. -/
def PhraseStepOk (cfg : Config) (s : AdSponsoredMgr) (e : ManagerEvent) : Prop :=
  match e.call with
  | .miningAdCreatives range => MiningKeeps cfg e.world s range
  | .updateAdBidPhrase adStrid bidPhraseList _ => ∀ adid orig,
    e.world.getAdIdFromAdStrId adStrid = some adid → s.adOrigBidstrList[adid]? = some orig →
    EditKeeps s adid ((orig ++ bidPhraseList).map (phraseKey cfg.tk))
  | .delAdBidPhrase adStrid bidPhraseList => ∀ adid orig,
    e.world.getAdIdFromAdStrId adStrid = some adid → s.adOrigBidstrList[adid]? = some orig →
    orig ≠ [] →
    EditKeeps s adid ((orig.filter (· ∉ bidPhraseList)).map (phraseKey cfg.tk))
  | .replaceAdBidPhrase adid bidPhraseList => EditKeeps s adid (carriedKeys cfg.tk bidPhraseList "")
  | _ => True

section Runs

variable {cfg : Config}

/-- Only the set of the new strings matters. -/
theorem editKeeps_congr {s : AdSponsoredMgr} {adid : Nat} {keys keys' : List String}
    (h : ∀ key, key ∈ keys ↔ key ∈ keys') : EditKeeps s adid keys ↔ EditKeeps s adid keys' := by
  simp only [EditKeeps, h]

private theorem mem_map_sortedSet (f : String → String) (texts : List String) (key : String) :
    key ∈ (sortedSet texts).map f ↔ key ∈ texts.map f := by
  simp only [mem_map, mem_sortedSet]

variable {s s' : AdSponsoredMgr}

/-- A call that leaves the phrase, campaign and keyword tables alone keeps the sets right. -/
theorem campaignPhrasesLive_of_eq (h : CampaignPhrasesLive s)
    (hkeys : ∀ a, s'.adKeys a = s.adKeys a)
    (hbelong : s'.adCampaignBelongList = s.adCampaignBelongList)
    (hsets : s'.adCampaignBidPhraseList = s.adCampaignBidPhraseList) : CampaignPhrasesLive s' := by
  intro c key
  rw [hsets, h c key]
  simp only [Live, hkeys, hbelong]

variable {bidPhraseList : List String}

/-- An update of one ad keeps the sets right exactly when its new texts do. -/
theorem campaignPhrasesLive_update_iff {w : World} (hok : TablesOk cfg.tk s)
    (h : CampaignPhrasesLive s) {adStrid : String} {priceList : List Int} {found : Bool}
    (hcall : s.updateAdBidPhrase cfg w adStrid bidPhraseList priceList = some (found, s')) :
    CampaignPhrasesLive s' ↔
      PhraseStepOk cfg s ⟨w, .updateAdBidPhrase adStrid bidPhraseList priceList⟩ := by
  rcases updateAdBidPhrase_cases hcall with ⟨rfl, hnone⟩ | ⟨adid, orig, hid, horig, manual, rfl⟩
  · refine iff_of_true h ?_
    intro adid orig hid horig
    have := (List.getElem?_eq_some_iff.mp horig).1
    have := hnone adid hid
    omega
  · have hr := generateBidPhrases_spec cfg.tk true (sortedSet (orig ++ bidPhraseList))
      hok.keywords nil
    rw [campaignPhrasesLive_store_iff hok.toEntriesOk h hr (hok.lt_of_texts horig) _
      (generateBidPhrases_keys _ _ hok.keywords nil), editKeeps_congr (mem_map_sortedSet _ _)]
    constructor
    · intro hkeep adid' orig' hid' horig'
      obtain rfl := Option.some.inj (hid.symm.trans hid')
      obtain rfl := Option.some.inj (horig.symm.trans horig')
      exact hkeep
    · intro hall
      exact hall adid orig hid horig

/-- A deletion from one ad keeps the sets right exactly when the texts that are left do. -/
theorem campaignPhrasesLive_del_iff {w : World} (hok : TablesOk cfg.tk s)
    (h : CampaignPhrasesLive s) {adStrid : String} {found : Bool}
    (hcall : s.delAdBidPhrase cfg w adStrid bidPhraseList = some (found, s')) :
    CampaignPhrasesLive s' ↔ PhraseStepOk cfg s ⟨w, .delAdBidPhrase adStrid bidPhraseList⟩ := by
  rcases delAdBidPhrase_cases hcall with
    ⟨rfl, hnone⟩ | ⟨adid, orig, hid, horig, hne, manual, rfl⟩
  · refine iff_of_true h ?_
    intro adid orig hid horig hne
    exact absurd (hnone adid orig hid horig) hne
  · have hdel := generateBidPhrases_spec cfg.tk false bidPhraseList hok.keywords nil
    have hr := phrasesSpec_afterDelete cfg.tk hok.keywords bidPhraseList
      (sortedSet (orig.filter (· ∉ bidPhraseList)))
    rw [campaignPhrasesLive_store_iff hok.toEntriesOk h hr (hok.lt_of_texts horig) _
      (generateBidPhrases_keys _ _ hdel.inverse nil), editKeeps_congr (mem_map_sortedSet _ _)]
    constructor
    · intro hkeep adid' orig' hid' horig' _
      obtain rfl := Option.some.inj (hid.symm.trans hid')
      obtain rfl := Option.some.inj (horig.symm.trans horig')
      exact hkeep
    · intro hall
      exact hall adid orig hid horig hne

theorem campaignPhrasesLive_step_iff (s : AdSponsoredMgr) (e : ManagerEvent) (s' : AdSponsoredMgr)
    (hok : TablesOk cfg.tk s) (h : CampaignPhrasesLive s) (hstep : ManagerStep cfg s e s') :
    CampaignPhrasesLive s' ↔ PhraseStepOk cfg s e := by
  obtain ⟨w, call⟩ := e
  cases call with
  | miningAdCreatives range =>
    injection hstep with hstep
    subst hstep
    exact campaignPhrasesLive_mining_iff hok h range
  | updateAdBidPhrase adStrid bidPhraseList priceList =>
    obtain ⟨⟨found, t⟩, hcall, rfl⟩ := Option.map_eq_some_iff.mp hstep
    exact campaignPhrasesLive_update_iff hok h hcall
  | delAdBidPhrase adStrid bidPhraseList =>
    obtain ⟨⟨found, t⟩, hcall, rfl⟩ := Option.map_eq_some_iff.mp hstep
    exact campaignPhrasesLive_del_iff hok h hcall
  | replaceAdBidPhrase adid bidPhraseList =>
    obtain ⟨hadid, rfl⟩ := replaceAdBidPhrase_cases hstep
    have hr := generateBidPhrases_spec cfg.tk false bidPhraseList hok.keywords nil
    exact campaignPhrasesLive_store_iff hok.toEntriesOk h hr hadid _
      (generateBidPhrases_carried _ _ hok.keywords nil)
  | getBidKeywordIdFromStrWithInsert keyword =>
    injection hstep with hstep
    subst hstep
    have hkeys := strs_of_extends hok.toEntriesOk (s.keywords.extends_intern keyword)
    exact iff_of_true (campaignPhrasesLive_of_eq h hkeys rfl rfl) trivial
  | updateAdOnlineStatus adStridList isOnlineList =>
    obtain ⟨⟨done, t⟩, hcall, rfl⟩ := Option.map_eq_some_iff.mp hstep
    obtain ⟨bitmap, rfl⟩ := updateAdOnlineStatus_cases hcall
    exact iff_of_true (campaignPhrasesLive_of_eq h (fun _ => rfl) rfl rfl) trivial
  | changeDailyBudget adCampaignName dailybudget =>
    injection hstep with hstep
    subst hstep
    exact iff_of_true (campaignPhrasesLive_of_eq h (fun _ => rfl) rfl rfl) trivial
  | updateAuctionLogData adStrid hitOrigBidstr clickCostInFen clickSlot =>
    injection hstep with hstep
    subst hstep
    obtain ⟨log, used, heq⟩ := updateAuctionLogData_cases cfg w s adStrid
      hitOrigBidstr clickCostInFen clickSlot
    rw [heq]
    exact iff_of_true (campaignPhrasesLive_of_eq h (fun _ => rfl) rfl rfl) trivial
  | resetDailyLogStatisticalData resetUsed =>
    injection hstep with hstep
    subst hstep
    obtain ⟨hphrase, -, hbelong, -, hkeywords, hsets⟩ := tables_resetDaily w s resetUsed
    refine iff_of_true (campaignPhrasesLive_of_eq h ?_ hbelong hsets) trivial
    intro a
    rw [adKeys, hphrase, hkeywords, adKeys]

/-- Along every run from the empty manager, the phrase sets hold exactly the live phrases
in all states reached if and only if every step meets its condition. -/
theorem campaignPhrasesLive_along_iff (cfg : Config) (events : List ManagerEvent) :
    HoldsAlong (ManagerStep cfg) CampaignPhrasesLive {} events ↔
      StepsMeet (ManagerStep cfg) (PhraseStepOk cfg) {} events := by
  refine holdsAlong_iff_stepsMeet tablesOk_step campaignPhrasesLive_step_iff tablesOk_empty ?_
    events
  intro c key
  simp [Live]

end Runs

/-- After the shop's ad is mined and given a second phrase, that phrase is live but not
in the set of its campaign. -/
theorem not_campaignPhrasesLive_updated : ∃ s, Run (ManagerStep shopConfig) {}
      [⟨shopWorld, .miningAdCreatives ⟨1, 1, Nat.le_refl 1⟩⟩,
        ⟨shopWorld, .updateAdBidPhrase "ad1" ["case"] [50]⟩] s ∧ ¬ CampaignPhrasesLive s := by
  have hsome : ((shopMgr.step shopConfig shopWorld (.updateAdBidPhrase "ad1" ["case"] [50])).map
      fun s => decide (s.adCampaignBelongList[1]? = some 0 ∧ "case " ∈ s.adKeys 1 ∧
        "case " ∉ s.adCampaignBidPhraseList.getD 0 ∅)) = some true := by
    decide +kernel
  obtain ⟨s, hs, hfacts⟩ := Option.map_eq_some_iff.mp hsome
  obtain ⟨hbelong, hkey, hset⟩ := of_decide_eq_true hfacts
  refine ⟨s, .cons rfl (.cons hs (.nil s)), ?_⟩
  intro hlive
  exact hset ((hlive 0 "case ").mpr ⟨1, hbelong, hkey⟩)

end AdDelivery.Sponsored
