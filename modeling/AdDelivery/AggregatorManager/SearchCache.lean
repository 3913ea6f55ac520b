import AdDelivery.AggregatorManager.SearchInput
import AdDelivery.QueryManager.QueryIdentity

/-!
# The cache of search results

A worker looks the identity of a request up in its cache before it searches. Two requests with the
same identity are read alike exactly if they agree on the fields that the identity leaves out.
-/

namespace AdDelivery.AggregatorManager

open QueryManager QueryIdentity EngineInput

variable {PropertyValue : Type}

/-- The fields that an identity has in every mode. -/
structure SharedKey (PropertyValue : Type) where
  query : String
  querySource : String
  userId : String
  searchingMode : SearchingModeInfo
  isSynonym : Bool
  sortInfo : List (String × Bool)
  filterTree : ConditionsNode PropertyValue
  groupParam : GroupParam
  geoLocation : ℚ × ℚ
  strExp : String
  paramConstValueMap : Table String ℚ
  paramPropertyValueMap : Table String String
  isRandomRank : Bool

/-- The fields that an identity has in the default branch only. -/
structure DefaultKey where
  rankingType : TextRankingType
  laInfo : LanguageAnalyzerInfo
  removeDuplicatedDocs : Bool
  rangeProperty : String

def identitySharedKey (identity : QueryIdentity PropertyValue) : SharedKey PropertyValue where
  query := identity.query
  querySource := identity.querySource
  userId := identity.userId
  searchingMode := identity.searchingMode
  isSynonym := identity.isSynonym
  sortInfo := identity.sortInfo
  filterTree := identity.filterTree
  groupParam := { identity.groupParam with isAttrToken := false }
  geoLocation := identity.geoLocation
  strExp := identity.strExp
  paramConstValueMap := identity.paramConstValueMap
  paramPropertyValueMap := identity.paramPropertyValueMap
  isRandomRank := identity.isRandomRank

def sharedKey (item : KeywordSearchActionItem PropertyValue) : SharedKey PropertyValue where
  query := item.env.queryString
  querySource := item.env.querySource
  userId := item.env.userID
  searchingMode := item.searchingMode
  isSynonym := item.languageAnalyzerInfo.synonymExtension
  sortInfo := item.sortPriorityList
  filterTree := item.filterTree
  groupParam := { item.groupParam with isAttrToken := false }
  geoLocation := item.geoLocation
  strExp := item.strExp
  paramConstValueMap := item.paramConstValueMap
  paramPropertyValueMap := item.paramPropertyValueMap
  isRandomRank := item.isRandomRank

def identityDefaultKey (identity : QueryIdentity PropertyValue) : DefaultKey where
  rankingType := identity.rankingType
  laInfo := identity.laInfo
  removeDuplicatedDocs := identity.removeDuplicatedDocs
  rangeProperty := identity.rangeProperty

def defaultKey (item : KeywordSearchActionItem PropertyValue) : DefaultKey where
  rankingType := item.rankingType
  laInfo := item.languageAnalyzerInfo
  removeDuplicatedDocs := item.removeDuplicatedDocs
  rangeProperty := item.rangePropertyName

section Identity

variable (docLevel : Bool) (item : KeywordSearchActionItem PropertyValue) (distActionType : ℤ)
  (start : ℕ)

/-- Only the ranking type of the request changes. -/
theorem makeQueryIdentity_item : ∃ rankingType,
    (makeQueryIdentity docLevel item distActionType start).2 =
      { item with rankingType := rankingType } := by
  unfold makeQueryIdentity
  split
  · exact ⟨item.rankingType, rfl⟩
  · exact ⟨item.rankingType, rfl⟩
  · by_cases hplm : docLevel ∧ item.rankingType = .plm
    · exact ⟨.bm25, by simp only [if_pos hplm]⟩
    · exact ⟨item.rankingType, by simp only [if_neg hplm]⟩

theorem makeQueryIdentity_sharedKey :
    identitySharedKey (makeQueryIdentity docLevel item distActionType start).1 =
      sharedKey (makeQueryIdentity docLevel item distActionType start).2 := by
  unfold makeQueryIdentity
  split
  · rfl
  · rfl
  · by_cases hplm : docLevel ∧ item.rankingType = .plm
    · simp only [if_pos hplm]
      rfl
    · simp only [if_neg hplm]
      rfl

theorem makeQueryIdentity_defaultKey (hsuffix : item.searchingMode.mode ≠ .suffixMatch)
    (hzambezi : item.searchingMode.mode ≠ .zambezi) :
    identityDefaultKey (makeQueryIdentity docLevel item distActionType start).1 =
      defaultKey (makeQueryIdentity docLevel item distActionType start).2 := by
  unfold makeQueryIdentity
  split
  · contradiction
  · contradiction
  · rfl

theorem makeQueryIdentity_isAnalyzeResult (hmode : item.searchingMode.mode = .suffixMatch) :
    (makeQueryIdentity docLevel item distActionType start).1.isAnalyzeResult =
      (makeQueryIdentity docLevel item distActionType start).2.isAnalyzeResult := by
  simp only [makeQueryIdentity, hmode]

theorem makeQueryIdentity_properties (hmode : item.searchingMode.mode = .zambezi) :
    (makeQueryIdentity docLevel item distActionType start).1.properties =
      (makeQueryIdentity docLevel item distActionType start).2.searchPropertyList := by
  simp only [makeQueryIdentity, hmode]

end Identity

section Equal

variable [DecidableEq PropertyValue] {identity identity' : QueryIdentity PropertyValue}

theorem identitySharedKey_eq (h : identity.eq identity' = true) :
    identitySharedKey identity = identitySharedKey identity' := by
  rw [(eq_iff _ _).mp h]
  rfl

theorem identityDefaultKey_eq (h : identity.eq identity' = true) :
    identityDefaultKey identity = identityDefaultKey identity' := by
  rw [(eq_iff _ _).mp h]
  rfl

end Equal

section Parts

variable {a b : KeywordSearchActionItem PropertyValue}

theorem sorterInput_eq_iff (h : sharedKey a = sharedKey b) :
    sorterInput a = sorterInput b ↔ a.geoLocationProperty = b.geoLocationProperty := by
  have hsorter (item : KeywordSearchActionItem PropertyValue) : sorterInput item =
    ⟨(sharedKey item).sortInfo, (sharedKey item).strExp, (sharedKey item).paramConstValueMap,
      (sharedKey item).paramPropertyValueMap, item.geoLocationProperty,
      (sharedKey item).geoLocation⟩ := rfl
  rw [hsorter, hsorter, h]
  simp

theorem groupParam_eq_iff (h : sharedKey a = sharedKey b) :
    a.groupParam = b.groupParam ↔ a.groupParam.isAttrToken = b.groupParam.isAttrToken := by
  have hgroup (item : KeywordSearchActionItem PropertyValue) : item.groupParam =
    { (sharedKey item).groupParam with isAttrToken := item.groupParam.isAttrToken } := rfl
  rw [hgroup a, hgroup b, h]
  simp

theorem scorerInput_eq_iff (h : sharedKey a = sharedKey b) : scorerInput a = scorerInput b ↔
    a.env.normalizedQueryString = b.env.normalizedQueryString ∧
      a.groupParam.isAttrToken = b.groupParam.isAttrToken := by
  have hquery : a.env.queryString = b.env.queryString := congrArg SharedKey.query h
  have hsource : a.env.querySource = b.env.querySource := congrArg SharedKey.querySource h
  simp only [scorerInput, ScorerInput.mk.injEq, hquery, hsource, true_and, groupParam_eq_iff h]

theorem queryTreeInput_eq_iff (h : sharedKey a = sharedKey b)
    (hdefault : defaultKey a = defaultKey b) :
    queryTreeInput a = queryTreeInput b ↔ a.env.encodingType = b.env.encodingType ∧
      a.env.expandedQueryString = b.env.expandedQueryString ∧
      a.searchPropertyList = b.searchPropertyList := by
  have hquery : a.env.queryString = b.env.queryString := congrArg SharedKey.query h
  have hla : a.languageAnalyzerInfo = b.languageAnalyzerInfo := congrArg DefaultKey.laInfo hdefault
  simp only [queryTreeInput, QueryTreeInput.mk.injEq, hquery, hla, true_and]

theorem suffixInput_eq_iff (h : sharedKey a = sharedKey b) : suffixInput a = suffixInput b ↔
    a.isAnalyzeResult = b.isAnalyzeResult ∧
      a.env.normalizedQueryString = b.env.normalizedQueryString ∧
      a.groupParam.isAttrToken = b.groupParam.isAttrToken ∧
      a.geoLocationProperty = b.geoLocationProperty := by
  have hsynonym : a.languageAnalyzerInfo.synonymExtension =
    b.languageAnalyzerInfo.synonymExtension := congrArg SharedKey.isSynonym h
  have hfilter : a.filterTree = b.filterTree := congrArg SharedKey.filterTree h
  simp only [suffixInput, SuffixInput.mk.injEq, hsynonym, hfilter, true_and, scorerInput_eq_iff h,
    sorterInput_eq_iff h, and_assoc]

theorem sharedKey_copy (h : sharedKey a = sharedKey b) : sharedKey a.copy = sharedKey b.copy := by
  have hcopy (item : KeywordSearchActionItem PropertyValue) : sharedKey item.copy =
    { sharedKey item with geoLocation := (0, 0) } := rfl
  rw [hcopy, hcopy, h]

/-- A copy has no place to sort by. -/
theorem suffixInput_copy_eq_iff (h : sharedKey a = sharedKey b) :
    suffixInput a.copy = suffixInput b.copy ↔ a.isAnalyzeResult = b.isAnalyzeResult ∧
      a.env.normalizedQueryString = b.env.normalizedQueryString ∧
      a.groupParam.isAttrToken = b.groupParam.isAttrToken := by
  rw [suffixInput_eq_iff (sharedKey_copy h)]
  simp [KeywordSearchActionItem.copy]

theorem remoteAction_eq_iff (h : sharedKey a = sharedKey b) (hdefault : defaultKey a = defaultKey b)
    (searchColl : String) : remoteAction searchColl a = remoteAction searchColl b ↔
      a.env = b.env ∧ a.refinedQueryString = b.refinedQueryString ∧ a.pageInfo = b.pageInfo ∧
        a.disableGetDocs = b.disableGetDocs ∧ a.searchPropertyList = b.searchPropertyList ∧
        a.displayPropertyList = b.displayPropertyList ∧
        a.groupParam.isAttrToken = b.groupParam.isAttrToken ∧
        a.requireRelatedQueries = b.requireRelatedQueries ∧
        a.isAnalyzeResult = b.isAnalyzeResult := by
  have hremote (item : KeywordSearchActionItem PropertyValue) : remoteAction searchColl item =
    { env := item.env
      refinedQueryString := item.refinedQueryString
      collectionName := searchColl
      rankingType := (defaultKey item).rankingType
      searchingMode := { (sharedKey item).searchingMode with mode := .suffixMatch }
      pageInfo := item.pageInfo
      disableGetDocs := item.disableGetDocs
      languageAnalyzerInfo := (defaultKey item).laInfo
      searchPropertyList := item.searchPropertyList
      removeDuplicatedDocs := (defaultKey item).removeDuplicatedDocs
      displayPropertyList := item.displayPropertyList
      sortPriorityList := (sharedKey item).sortInfo
      filterTree := (sharedKey item).filterTree
      rangePropertyName := (defaultKey item).rangeProperty
      groupParam := { (sharedKey item).groupParam with
        attrIterDocNum := 0
        isAttrToken := item.groupParam.isAttrToken }
      strExp := (sharedKey item).strExp
      paramConstValueMap := (sharedKey item).paramConstValueMap
      paramPropertyValueMap := (sharedKey item).paramPropertyValueMap
      isRandomRank := (sharedKey item).isRandomRank
      requireRelatedQueries := item.requireRelatedQueries
      isAnalyzeResult := item.isAnalyzeResult } := rfl
  rw [hremote, hremote, h, hdefault]
  simp

theorem env_eq_iff (h : sharedKey a = sharedKey b) : a.env = b.env ↔
    a.env.isLogging = b.env.isLogging ∧ a.env.encodingType = b.env.encodingType ∧
      a.env.expandedQueryString = b.env.expandedQueryString ∧
      a.env.normalizedQueryString = b.env.normalizedQueryString ∧
      a.env.ipAddress = b.env.ipAddress := by
  have hquery : a.env.queryString = b.env.queryString := congrArg SharedKey.query h
  have hsource : a.env.querySource = b.env.querySource := congrArg SharedKey.querySource h
  have huser : a.env.userID = b.env.userID := congrArg SharedKey.userId h
  rw [RequesterEnvironment.ext_iff]
  simp [hquery, hsource, huser]

end Parts

section Search

variable {a b : KeywordSearchActionItem PropertyValue}

theorem searchInput_eq_iff_engine (h : sharedKey a = sharedKey b) (remote : Bool)
    (searchColl : String) : searchInput remote searchColl a = searchInput remote searchColl b ↔
      a.collectionName = b.collectionName ∧ a.env.encodingType = b.env.encodingType ∧
        a.env.normalizedQueryString = b.env.normalizedQueryString ∧
        engineInput remote searchColl a = engineInput remote searchColl b := by
  have huser : a.env.userID = b.env.userID := congrArg SharedKey.userId h
  have hmode : a.searchingMode = b.searchingMode := congrArg SharedKey.searchingMode h
  have hsort : a.sortPriorityList = b.sortPriorityList := congrArg SharedKey.sortInfo h
  have hrandom : a.isRandomRank = b.isRandomRank := congrArg SharedKey.isRandomRank h
  simp only [searchInput, SearchInput.mk.injEq, huser, hmode, hsort, hrandom, true_and]

/-- `doLocalSearch` caches in all modes but two. -/
def disableCache (item : KeywordSearchActionItem PropertyValue) : Bool :=
  item.searchingMode.mode == .adRecommend || item.searchingMode.mode == .sponsoredAdSearch

/-- What two requests with the same identity have in common. -/
structure SameKey (a b : KeywordSearchActionItem PropertyValue) : Prop where
  shared : sharedKey a = sharedKey b
  suffix : a.searchingMode.mode = .suffixMatch → a.isAnalyzeResult = b.isAnalyzeResult
  zambezi : a.searchingMode.mode = .zambezi → a.searchPropertyList = b.searchPropertyList
  default : a.searchingMode.mode ≠ .suffixMatch → a.searchingMode.mode ≠ .zambezi →
    defaultKey a = defaultKey b

/-- Requests that share their keys are read alike when they agree on the rest. -/
theorem SameKey.searchInput_eq_iff (hkey : SameKey a b) (hcached : disableCache a = false)
    (remote : Bool) (searchColl : String) :
    searchInput remote searchColl a = searchInput remote searchColl b ↔ SameRest remote a b := by
  obtain ⟨h, hsuffix, hzambezi, hdefault⟩ := hkey
  have hmode : a.searchingMode = b.searchingMode := congrArg SharedKey.searchingMode h
  have hfilter : a.filterTree = b.filterTree := congrArg SharedKey.filterTree h
  have hlabels : a.groupParam.groupLabels = b.groupParam.groupLabels :=
    congrArg (fun key => key.groupParam.groupLabels) h
  have hattrs : a.groupParam.attrLabels = b.groupParam.attrLabels :=
    congrArg (fun key => key.groupParam.attrLabels) h
  rw [searchInput_eq_iff_engine h]
  refine and_congr_right fun _ => and_congr_right fun hencoding => and_congr_right fun hquery => ?_
  have htree := queryTreeInput_eq_iff h
  simp only [hencoding, true_and] at htree
  have hscorer := scorerInput_eq_iff h
  simp only [hquery, true_and] at hscorer
  simp only [engineInput, ← hmode]
  cases hm : a.searchingMode.mode
  case suffixMatch =>
    simp only [suffixMatch.injEq, suffixInput_eq_iff h, hsuffix hm, hquery, true_and]
    exact and_comm
  case zambezi =>
    simp only [zambezi.injEq, hzambezi hm, hfilter, hscorer, sorterInput_eq_iff h, true_and]
    exact and_comm
  case adRecommend => simp [disableCache, hm] at hcached
  case sponsoredAdSearch => simp [disableCache, hm] at hcached
  case adIndex =>
    have hdefault := hdefault (by simp [hm]) (by simp [hm])
    cases remote
    · simp only [adLocal.injEq, suffixInput_copy_eq_iff h, htree hdefault, hquery,
        Bool.false_eq_true, if_false, false_implies, true_and, and_true]
      exact ⟨fun ⟨⟨he, hp⟩, ha, ht⟩ => ⟨hp, he, ha, ht⟩, fun ⟨hp, he, ha, ht⟩ => ⟨⟨he, hp⟩, ha, ht⟩⟩
    · simp only [adRemote.injEq, remoteAction_eq_iff h hdefault, env_eq_iff h,
        htree hdefault, hencoding, hquery, if_true, true_implies, true_and]
      constructor
      · rintro ⟨⟨he, hp⟩, ⟨hl, -, hi⟩, hr, hpage, hd, -, hdisplay, ht, hrelated, ha⟩
        exact ⟨hp, he, ha, ht, hl, hi, hr, hpage, hd, hdisplay, hrelated⟩
      · rintro ⟨hp, he, ha, ht, hl, hi, hr, hpage, hd, hdisplay, hrelated⟩
        exact ⟨⟨he, hp⟩, ⟨hl, he, hi⟩, hr, hpage, hd, hp, hdisplay, ht, hrelated, ha⟩
  case sponsoredAdSearchSuffix =>
    have hdefault := hdefault (by simp [hm]) (by simp [hm])
    simp only [sponsoredSuffix.injEq, hlabels, hattrs, htree hdefault, and_true]
    exact ⟨fun ⟨⟨he, hp⟩, ha⟩ => ⟨hp, he, ha⟩, fun ⟨hp, he, ha⟩ => ⟨⟨he, hp⟩, ha⟩⟩
  all_goals
    have hdefault := hdefault (by simp [hm]) (by simp [hm])
    have hranking : a.rankingType = b.rankingType := congrArg DefaultKey.rankingType hdefault
    have hrange : a.rangePropertyName = b.rangePropertyName :=
      congrArg DefaultKey.rangeProperty hdefault
    simp only [normal.injEq, hfilter, hranking, hrange, htree hdefault, hscorer,
      sorterInput_eq_iff h, true_and]
    exact ⟨fun ⟨⟨he, hp⟩, ht, hg, hc⟩ => ⟨hp, he, hc, hg, ht⟩,
      fun ⟨hp, he, hc, hg, ht⟩ => ⟨⟨he, hp⟩, ht, hg, hc⟩⟩

end Search

/-- A request as `doLocalSearch` gets it, with the place where its documents begin. -/
structure SearchRequest (PropertyValue : Type) where
  item : KeywordSearchActionItem PropertyValue
  distActionType : ℤ := 0
  topKStart : ℕ := 0

namespace SearchRequest

def identity (docLevel : Bool) (request : SearchRequest PropertyValue) :
    QueryIdentity PropertyValue :=
  (makeQueryIdentity docLevel request.item request.distActionType request.topKStart).1

/-- The request after its identity was made. -/
def searched (docLevel : Bool) (request : SearchRequest PropertyValue) :
    KeywordSearchActionItem PropertyValue :=
  (makeQueryIdentity docLevel request.item request.distActionType request.topKStart).2

variable {docLevel : Bool} {a b : SearchRequest PropertyValue}

theorem searched_mode (docLevel : Bool) (request : SearchRequest PropertyValue) :
    (request.searched docLevel).searchingMode = request.item.searchingMode := by
  obtain ⟨rankingType, hitem⟩ := makeQueryIdentity_item docLevel request.item
    request.distActionType request.topKStart
  rw [searched, hitem]

theorem sameRest_searched (docLevel remote : Bool) (a b : SearchRequest PropertyValue) :
    SameRest remote (a.searched docLevel) (b.searched docLevel) ↔
      SameRest remote a.item b.item := by
  obtain ⟨rankingType, ha⟩ := makeQueryIdentity_item docLevel a.item a.distActionType a.topKStart
  obtain ⟨rankingType', hb⟩ := makeQueryIdentity_item docLevel b.item b.distActionType b.topKStart
  rw [searched, searched, ha, hb]
  exact Iff.rfl

theorem sharedKey_searched_eq [DecidableEq PropertyValue]
    (h : (a.identity docLevel).eq (b.identity docLevel) = true) :
    sharedKey (a.searched docLevel) = sharedKey (b.searched docLevel) := by
  rw [searched, searched, ← makeQueryIdentity_sharedKey, ← makeQueryIdentity_sharedKey]
  exact identitySharedKey_eq h

theorem searchingMode_eq [DecidableEq PropertyValue]
    (h : (a.identity docLevel).eq (b.identity docLevel) = true) :
    a.item.searchingMode = b.item.searchingMode := by
  rw [← a.searched_mode docLevel, ← b.searched_mode docLevel]
  exact congrArg SharedKey.searchingMode (sharedKey_searched_eq h)

theorem sameKey_searched [DecidableEq PropertyValue]
    (h : (a.identity docLevel).eq (b.identity docLevel) = true) :
    SameKey (a.searched docLevel) (b.searched docLevel) := by
  have hmode := searchingMode_eq h
  have heq := (eq_iff _ _).mp h
  refine ⟨sharedKey_searched_eq h, fun hm => ?_, fun hm => ?_, fun hm hm' => ?_⟩
  · rw [searched_mode] at hm
    have hanalyze := congrArg isAnalyzeResult heq
    rwa [identity, identity, makeQueryIdentity_isAnalyzeResult _ _ _ _ hm,
      makeQueryIdentity_isAnalyzeResult _ _ _ _ (hmode ▸ hm)] at hanalyze
  · rw [searched_mode] at hm
    have hproperties := congrArg properties heq
    rwa [identity, identity, makeQueryIdentity_properties _ _ _ _ hm,
      makeQueryIdentity_properties _ _ _ _ (hmode ▸ hm)] at hproperties
  · rw [searched_mode] at hm hm'
    have hdefault := identityDefaultKey_eq h
    rwa [identity, identity, makeQueryIdentity_defaultKey _ _ _ _ hm hm',
      makeQueryIdentity_defaultKey _ _ _ _ (hmode ▸ hm) (hmode ▸ hm')] at hdefault

theorem disableCache_searched (docLevel : Bool) (request : SearchRequest PropertyValue) :
    disableCache (request.searched docLevel) = disableCache request.item := by
  rw [disableCache, disableCache, searched_mode]

/-- Two cached requests with the same identity are read alike exactly if they agree on the fields
that the identity leaves out. -/
theorem searchInput_eq_iff_sameRest [DecidableEq PropertyValue] (remote : Bool)
    (searchColl : String) (hcached : disableCache a.item = false)
    (h : (a.identity docLevel).eq (b.identity docLevel) = true) :
    searchInput remote searchColl (a.searched docLevel) =
        searchInput remote searchColl (b.searched docLevel) ↔ SameRest remote a.item b.item := by
  rw [← disableCache_searched docLevel] at hcached
  rw [(sameKey_searched h).searchInput_eq_iff hcached, sameRest_searched]

end SearchRequest

section Nearby

/-- A search for products near a place. -/
def nearby (geoLocationProperty : String) : SearchRequest String where
  item :=
    { env := { queryString := "coffee" }
      searchingMode := { mode := .suffixMatch }
      sortPriorityList := [("geo_rank", true)]
      geoLocation := (31, 121)
      geoLocationProperty := geoLocationProperty }

/-- Requests that differ in the page they show. -/
theorem SearchRequest.searchInput_eq_iff_sameRest_page :
    searchInput false "" ((nearby "Shop").searched false) = searchInput false ""
          (SearchRequest.searched false
            { item := { (nearby "Shop").item with pageInfo := ⟨20, 10⟩ } }) ↔
      SameRest false (nearby "Shop").item { (nearby "Shop").item with pageInfo := ⟨20, 10⟩ } :=
  SearchRequest.searchInput_eq_iff_sameRest (a := nearby "Shop")
    (b := { item := { (nearby "Shop").item with pageInfo := ⟨20, 10⟩ } }) false "" rfl
    ((eq_iff _ _).mpr rfl)

/-- Places of shops and of stores are sorted by different distances, under one identity. -/
theorem not_searchInput_eq_geoLocationProperty :
    ¬ ∀ a b : SearchRequest String, disableCache a.item = false → a.topKStart = b.topKStart →
      (a.identity false).eq (b.identity false) = true →
      searchInput false "" (a.searched false) = searchInput false "" (b.searched false) := by
  intro h
  have hread := h (nearby "Shop") (nearby "Store") rfl rfl ((eq_iff _ _).mpr rfl)
  have hengine := congrArg SearchInput.engine hread
  have hsuffix := suffixMatch.inj hengine
  have hproperty := congrArg (fun suffix => suffix.sorter.geoLocationProperty) hsuffix
  exact absurd hproperty (by decide)

end Nearby

end AdDelivery.AggregatorManager
