import AdDelivery.Sponsored.TableInvariant

/-!
# What the deletion of phrases leaves

Phrases are deleted by their texts, manual prices by the keys of the texts. The phrase variable is
carried from one deleted text to the next, so an empty text repeats the key before it. Hence a
deletion takes the price of every phrase that shares a key with a deleted text, and an empty text
that comes later in the list keeps its own.
-/

namespace AdDelivery.Sponsored

open List AdManualBidInfoMgr

theorem getManualKeyForAd_inj {adid : ℕ} {key key' : String} :
    getManualKeyForAd adid key = getManualKeyForAd adid key' ↔ key = key' := by
  constructor
  · exact String.append_right_inj _ |>.mp
  · exact congrArg _

theorem lookup_foldl_erase (adid : ℕ) (keyList : List String) (v : Table String Int)
    (key : String) : (keyList.foldl (fun v key => v.erase (getManualKeyForAd adid key)) v).lookup
        (getManualKeyForAd adid key) =
      if key ∈ keyList then none
      else v.lookup (getManualKeyForAd adid key) := by
  induction keyList generalizing v with
  | nil => rfl
  | cons first keyList ih =>
    rw [foldl_cons, ih]
    by_cases hrest : key ∈ keyList
    · rw [if_pos hrest, if_pos (mem_cons_of_mem _ hrest)]
    · rw [if_neg hrest]
      by_cases hfirst : key = first
      · subst hfirst
        rw [Finmap.lookup_erase, if_pos mem_cons_self]
      · rw [if_neg (by simp [hfirst, hrest]),
          Finmap.lookup_erase_ne fun heq => hfirst (getManualKeyForAd_inj.mp heq)]

/-- Exactly the prices of the given keys are gone. -/
theorem getManualBidPrice_remove (m : AdManualBidInfoMgr) (campaignName : String) (adid : ℕ)
    (keyList : List String) (key : String) :
    (m.removeManualBidPrice campaignName adid keyList).getManualBidPrice campaignName adid key =
      if key ∈ keyList then 0 else m.getManualBidPrice campaignName adid key := by
  unfold removeManualBidPrice getManualBidPrice Table.update
  simp only [Finmap.lookup_insert, lookup_foldl_erase]
  split
  · rfl
  · rw [Table.get]
    cases m.manualBidpriceList.lookup campaignName with
    | none => rfl
    | some v => rfl

/-- The price just set, unless it is zero. -/
theorem getManualBidPrice_set (campaignName : String) (adid : ℕ) (key : String) {price : Int}
    (hprice : price ≠ 0) : (({} : AdManualBidInfoMgr).setManualBidPrice campaignName adid
      [(key, price)]).getManualBidPrice campaignName adid key = price := by
  simp [setManualBidPrice, getManualBidPrice, Table.update, hprice]

/-- The keys that a deletion of these texts erases. -/
def ErasedKey (tk : TitlePCA) (deleted : List String) (key : String) : Prop :=
  (∃ text ∈ deleted, text ≠ "" ∧ phraseKey tk text = key) ∨ (deleted.head? = some "" ∧ key = "")

theorem mem_carriedKeys_iff {tk : TitlePCA} {texts : List String} {carry key : String} :
    key ∈ carriedKeys tk texts carry ↔ (∃ text ∈ texts, text ≠ "" ∧ phraseKey tk text = key) ∨
        (texts.head? = some "" ∧ key = carry) := by
  induction texts generalizing carry with
  | nil => simp [carriedKeys]
  | cons text texts ih =>
    rw [carriedKeys, mem_cons, ih, head?_cons]
    by_cases hempty : text = ""
    · subst hempty
      have htrue : "".isEmpty = true := rfl
      simp only [htrue, if_true, mem_cons, exists_eq_or_imp, ne_eq, not_true_eq_false,
        false_and, false_or, true_and]
      constructor
      · rintro (hkey | hrest | ⟨-, hkey⟩)
        · exact .inr hkey
        · exact .inl hrest
        · exact .inr hkey
      · rintro (hrest | hkey)
        · exact .inr (.inl hrest)
        · exact .inl hkey
    · have hfalse : text.isEmpty = false := by simpa using hempty
      simp only [hfalse, Bool.false_eq_true, if_false, mem_cons, exists_eq_or_imp, ne_eq,
        hempty, not_false_eq_true, true_and, Option.some.injEq, false_and, or_false]
      constructor
      · rintro (rfl | hrest | ⟨-, rfl⟩)
        · exact .inl rfl
        · exact .inr hrest
        · exact .inl rfl
      · rintro (rfl | hrest)
        · exact .inl rfl
        · exact .inr (.inl hrest)

/-- The manual price of a text of an ad. -/
def priceOfText (tk : TitlePCA) (s : AdSponsoredMgr) (campaignName : String) (adid : ℕ)
    (text : String) : Int :=
  s.manualBidinfoMgr.getManualBidPrice campaignName adid (phraseKey tk text)

/-- What a deletion should leave: the texts that were not deleted, with their phrases and prices,
and no price for a deleted text unless a text that is left has the same key. -/
structure DeletesOnly (tk : TitlePCA) (s s' : AdSponsoredMgr) (campaignName : String) (adid : ℕ)
    (orig deleted : List String) : Prop where
  texts : ∃ texts phrases, s'.adOrigBidstrList[adid]? = some texts ∧ texts.Nodup ∧
    (∀ text, text ∈ texts ↔ text ∈ orig ∧ text ∉ deleted) ∧
    s'.adBidphraseList[adid]? = some phrases ∧
    getBidPhraseStrList s'.keywords phrases = texts.map (phraseKey tk)
  kept : ∀ text ∈ orig, text ∉ deleted →
    priceOfText tk s' campaignName adid text = priceOfText tk s campaignName adid text
  gone : ∀ text ∈ orig, text ∈ deleted →
    (∀ other ∈ orig, other ∉ deleted → phraseKey tk other ≠ phraseKey tk text) →
    priceOfText tk s' campaignName adid text = 0

/-- No priced text that is left has an erased key, and a priced empty text that is to go has one,
unless its key is shared. -/
structure NoKeyClash (tk : TitlePCA) (s : AdSponsoredMgr) (campaignName : String) (adid : ℕ)
    (orig deleted : List String) : Prop where
  left : ∀ text ∈ orig, text ∉ deleted → priceOfText tk s campaignName adid text ≠ 0 →
    ¬ ErasedKey tk deleted (phraseKey tk text)
  empty : "" ∈ orig → "" ∈ deleted → priceOfText tk s campaignName adid "" ≠ 0 →
    (∀ other ∈ orig, other ∉ deleted → phraseKey tk other ≠ "") → ErasedKey tk deleted ""

theorem priceOfText_remove (tk : TitlePCA) (s s' : AdSponsoredMgr) (campaignName : String)
    (adid : ℕ) (deleted : List String) (text : String) (hprices : s'.manualBidinfoMgr =
      s.manualBidinfoMgr.removeManualBidPrice campaignName adid (carriedKeys tk deleted "")) :
    (priceOfText tk s' campaignName adid text = 0 ∧ ErasedKey tk deleted (phraseKey tk text)) ∨
      (priceOfText tk s' campaignName adid text = priceOfText tk s campaignName adid text ∧
        ¬ ErasedKey tk deleted (phraseKey tk text)) := by
  rw [priceOfText, hprices, getManualBidPrice_remove]
  by_cases herased : phraseKey tk text ∈ carriedKeys tk deleted ""
  · exact .inl ⟨if_pos herased, mem_carriedKeys_iff.mp herased⟩
  · exact .inr ⟨if_neg herased, fun h => herased (mem_carriedKeys_iff.mpr h)⟩

/-- A state whose prices are those left by the removal meets both price clauses exactly if no keys
clash. -/
theorem prices_iff_noKeyClash (tk : TitlePCA) (s s' : AdSponsoredMgr) (campaignName : String)
    (adid : ℕ) (orig deleted : List String) (hprices : s'.manualBidinfoMgr =
      s.manualBidinfoMgr.removeManualBidPrice campaignName adid (carriedKeys tk deleted "")) :
    ((∀ text ∈ orig, text ∉ deleted →
        priceOfText tk s' campaignName adid text = priceOfText tk s campaignName adid text) ∧
      (∀ text ∈ orig, text ∈ deleted →
        (∀ other ∈ orig, other ∉ deleted → phraseKey tk other ≠ phraseKey tk text) →
        priceOfText tk s' campaignName adid text = 0)) ↔
      NoKeyClash tk s campaignName adid orig deleted := by
  have hprice := fun text => priceOfText_remove tk s s' campaignName adid deleted text hprices
  constructor
  · rintro ⟨hkept, hgone⟩
    refine ⟨?_, ?_⟩
    · intro text horig hleft hpriced herased
      rcases hprice text with ⟨hzero, -⟩ | ⟨-, hnot⟩
      · exact hpriced ((hkept text horig hleft).symm.trans hzero)
      · exact hnot herased
    · intro horig hdeleted hpriced hunshared
      rcases hprice "" with ⟨-, herased⟩ | ⟨hsame, -⟩
      · exact herased
      · exact absurd (hsame.symm.trans (hgone "" horig hdeleted hunshared)) hpriced
  · rintro ⟨hleft, hempty⟩
    refine ⟨?_, ?_⟩
    · intro text horig hnot
      rcases hprice text with ⟨hzero, herased⟩ | ⟨hsame, -⟩
      · by_contra hchanged
        exact hleft text horig hnot (fun h => hchanged (hzero.trans h.symm)) herased
      · exact hsame
    · intro text horig hdeleted hunshared
      rcases hprice text with ⟨hzero, -⟩ | ⟨hsame, hnot⟩
      · exact hzero
      · by_cases htext : text = ""
        · subst htext
          by_contra hpriced
          rw [hsame] at hpriced
          exact hnot (hempty horig hdeleted hpriced hunshared)
        · exact absurd (.inl ⟨text, hdeleted, htext, rfl⟩) hnot

/-- What a deletion makes of the tables of an ad that has texts. -/
theorem delAdBidPhrase_eq {cfg : Config} {w : World} {s : AdSponsoredMgr} (hok : TablesOk cfg.tk s)
    {adStrid : String} {adid : ℕ} {orig : List String} {campaignId : ℕ} {campaignName : String}
    (hadid : w.getAdIdFromAdStrId adStrid = some adid)
    (horig : s.adOrigBidstrList[adid]? = some orig) (hne : orig ≠ [])
    (hbelong : s.adCampaignBelongList[adid]? = some campaignId)
    (hcampaign : s.campaigns.idValueList[campaignId]? = some campaignName) (deleted : List String) :
    ∃ s' phrases, s.delAdBidPhrase cfg w adStrid deleted = some (true, s') ∧
      s'.adOrigBidstrList = s.adOrigBidstrList.set adid (sortedSet (orig.filter (· ∉ deleted))) ∧
      s'.adBidphraseList = s.adBidphraseList.set adid phrases ∧
      getBidPhraseStrList s'.keywords phrases =
        (sortedSet (orig.filter (· ∉ deleted))).map (phraseKey cfg.tk) ∧
      s'.manualBidinfoMgr = s.manualBidinfoMgr.removeManualBidPrice campaignName adid
        (carriedKeys cfg.tk deleted "") := by
  have hinverse := (generateBidPhrases_spec cfg.tk false deleted hok.keywords .nil).inverse
  have hlt : ¬ s.adOrigBidstrList.length ≤ adid :=
    Nat.not_le.mpr (List.getElem?_eq_some_iff.mp horig).1
  have hnonempty : orig.isEmpty = false := by simpa using hne
  have hguard : (guard (adid < s.adBidphraseList.length) : Option Unit) = some () := by
    rw [guard, if_pos (hok.lt_of_texts horig)]
    rfl
  have hcarried : (generateBidPhrases cfg.tk false deleted [] s.keywords).1.map Prod.snd =
      carriedKeys cfg.tk deleted "" := generateBidPhrases_carried cfg.tk deleted hok.keywords .nil
  simp only [AdSponsoredMgr.delAdBidPhrase, hadid, if_neg hlt, horig, hnonempty, hbelong,
    hcampaign, hguard, Option.bind_eq_bind, Option.bind_some, Option.pure_def, hcarried,
    Bool.false_eq_true, if_false]
  exact ⟨_, _, rfl, rfl, rfl, (phrasesSpec_afterDelete cfg.tk hok.keywords deleted _).strs_eq.trans
    (generateBidPhrases_keys cfg.tk _ hinverse .nil), rfl⟩

/-- A deletion leaves exactly the other phrases with their prices, and no price for a phrase it
takes, if and only if no keys clash. -/
theorem delAdBidPhrase_deletesOnly_iff {cfg : Config} {w : World} {s : AdSponsoredMgr}
    (hok : TablesOk cfg.tk s) {adStrid : String} {adid : ℕ} {orig : List String} {campaignId : ℕ}
    {campaignName : String} (hadid : w.getAdIdFromAdStrId adStrid = some adid)
    (horig : s.adOrigBidstrList[adid]? = some orig)
    (hbelong : s.adCampaignBelongList[adid]? = some campaignId)
    (hcampaign : s.campaigns.idValueList[campaignId]? = some campaignName) (deleted : List String) :
    ∃ s', s.delAdBidPhrase cfg w adStrid deleted = some (true, s') ∧
      (DeletesOnly cfg.tk s s' campaignName adid orig deleted ↔
        NoKeyClash cfg.tk s campaignName adid orig deleted) := by
  by_cases hne : orig = []
  · subst hne
    have hlt : ¬ s.adOrigBidstrList.length ≤ adid :=
      Nat.not_le.mpr (List.getElem?_eq_some_iff.mp horig).1
    refine ⟨s, ?_, ?_⟩
    · simp only [AdSponsoredMgr.delAdBidPhrase, hadid, if_neg hlt, horig, Option.bind_eq_bind,
        Option.bind_some, isEmpty_nil, if_true, Option.pure_def]
    · have hphrases := getElem?_eq_getElem (hok.lt_of_texts horig)
      have hcount := congrArg (·[adid]?) hok.counts
      simp only [getElem?_map, horig, hphrases, Option.map_some, Option.some.injEq,
        length_nil, length_eq_zero_iff] at hcount
      rw [hcount] at hphrases
      refine iff_of_true ⟨⟨[], [], horig, nodup_nil, by simp, hphrases, rfl⟩, ?_, ?_⟩ ⟨?_, ?_⟩
      all_goals simp
  · obtain ⟨s', phrases, hcall, htexts, hphrases, hkeys, hprices⟩ :=
      delAdBidPhrase_eq hok hadid horig hne hbelong hcampaign deleted
    refine ⟨s', hcall, ?_⟩
    rw [← prices_iff_noKeyClash _ _ _ _ _ _ _ hprices]
    constructor
    · exact fun h => ⟨h.kept, h.gone⟩
    · rintro ⟨hkept, hgone⟩
      refine ⟨⟨_, phrases, ?_, ?_, ?_, ?_, hkeys⟩, hkept, hgone⟩
      · rw [htexts, getElem?_set_self (List.getElem?_eq_some_iff.mp horig).1]
      · exact (perm_insertionSort _ _).nodup_iff.mpr (nodup_dedup _)
      · intro text
        simp
      · rw [hphrases, getElem?_set_self (hok.lt_of_texts horig)]

def casedTexts : List String := ["Red Phone", "red phone"]

/-- One ad with two texts that differ in case only; their common key is priced. -/
def casedMgr : AdSponsoredMgr :=
  let phrases := generateBidPhrases blankPCA true casedTexts [] {}
  AdSponsoredMgr.storePhrases
    { adBidphraseList := [[], []]
      adOrigBidstrList := [[], []]
      adCampaignBelongList := [0, 0]
      campaigns := (({} : Dictionary String).intern "phones").2
      manualBidinfoMgr := ({} : AdManualBidInfoMgr).setManualBidPrice "phones" 1
        [(phraseKey blankPCA "red phone", 50)] }
    1 casedTexts phrases.1 phrases.2

theorem tablesOk_casedMgr : TablesOk blankPCA casedMgr := by
  have hphrases := generateBidPhrases_spec blankPCA true casedTexts Dictionary.inverse_empty .nil
  refine ⟨EntriesOk.storePhrases ⟨rfl, ?_, ?_, ?_, ?_⟩ hphrases 1 rfl, ?_⟩
  · intro c hc
    simp only [mem_cons, not_mem_nil, or_false, or_self] at hc
    rw [hc]
    decide
  · exact Dictionary.inverse_empty.intern "phones"
  · exact Dictionary.inverse_empty
  · intro l hl p hp
    simp only [mem_cons, not_mem_nil, or_false, or_self] at hl
    rw [hl] at hp
    cases hp
  · rfl

theorem delAdBidPhrase_deletesOnly_cased :
    ∃ s', casedMgr.delAdBidPhrase shopConfig shopWorld "ad1" ["Red Phone"] = some (true, s') ∧
      (DeletesOnly shopConfig.tk casedMgr s' "phones" 1 casedTexts ["Red Phone"] ↔
        NoKeyClash shopConfig.tk casedMgr "phones" 1 casedTexts ["Red Phone"]) :=
  delAdBidPhrase_deletesOnly_iff tablesOk_casedMgr rfl rfl rfl rfl ["Red Phone"]

/-- The spelling that is left is priced under the key of the deleted one. -/
theorem not_noKeyClash_cased :
    ¬ NoKeyClash blankPCA casedMgr "phones" 1 casedTexts ["Red Phone"] := by
  have hkey : phraseKey blankPCA "Red Phone" = "red phone " := by decide +kernel
  have hkey' : phraseKey blankPCA "red phone" = "red phone " := by decide +kernel
  have hpriced : priceOfText blankPCA casedMgr "phones" 1 "red phone" = 50 :=
    getManualBidPrice_set "phones" 1 _ (by decide)
  have hdeleted : "red phone" ∉ ["Red Phone"] := by decide +kernel
  intro hclash
  apply hclash.left "red phone" (mem_cons_of_mem _ (mem_singleton_self _)) hdeleted
    (by rw [hpriced]; decide)
  left
  exact ⟨"Red Phone", mem_singleton_self _, by decide +kernel,
    hkey.trans hkey'.symm⟩

/-- Deleting one spelling takes the price of the other. -/
theorem not_delAdBidPhrase_deletesOnly_cased :
    ¬ ∃ s', casedMgr.delAdBidPhrase shopConfig shopWorld "ad1" ["Red Phone"] = some (true, s') ∧
      DeletesOnly shopConfig.tk casedMgr s' "phones" 1 casedTexts ["Red Phone"] := by
  have hadid : shopWorld.getAdIdFromAdStrId "ad1" = some 1 := rfl
  obtain ⟨after, -, heq, -, -, -, hprices⟩ := @delAdBidPhrase_eq shopConfig shopWorld casedMgr
    tablesOk_casedMgr "ad1" 1 casedTexts 0 "phones" hadid rfl (by decide) rfl rfl ["Red Phone"]
  rintro ⟨s', hcall, hdeletes⟩
  obtain rfl : s' = after := (Prod.mk.inj (Option.some.inj (hcall.symm.trans heq))).2
  exact not_noKeyClash_cased ((prices_iff_noKeyClash _ _ _ _ _ _ _ hprices).mp
    ⟨hdeletes.kept, hdeletes.gone⟩)

end AdDelivery.Sponsored
