import AdDelivery.QueryManager.ActionItem

/-!
# Identities of queries

The cache of search results is keyed by an identity that is assembled from the request, in three
ways that depend on the searching mode. In the default one, the texts of properties and counters
are sorted and the expanded query is copied, but `operator==` does not compare it.
-/

namespace AdDelivery.QueryManager

variable {PropertyValue : Type}

structure QueryIdentity (PropertyValue : Type) where
  query : String := ""
  expandedQueryString : String := ""
  userId : String := ""
  searchingMode : SearchingModeInfo := {}
  rankingType : TextRankingType := .defaultTextRanker
  laInfo : LanguageAnalyzerInfo := {}
  properties : List String := []
  counterList : List String := []
  sortInfo : List (String × Bool) := []
  filterTree : ConditionsNode PropertyValue := .empty
  groupParam : GroupParam := {}
  geoLocation : ℚ × ℚ := (0, 0)
  removeDuplicatedDocs : Bool := false
  rangeProperty : String := ""
  strExp : String := ""
  paramConstValueMap : Table String ℚ := ∅
  paramPropertyValueMap : Table String String := ∅
  simHash : List UInt64 := []
  start : ℕ := 0
  distActionType : ℤ := 0
  isRandomRank : Bool := false
  isSynonym : Bool := false
  isAnalyzeResult : Bool := false
  querySource : String := ""

/-- `operator==`. -/
def QueryIdentity.eq [DecidableEq PropertyValue] (a b : QueryIdentity PropertyValue) : Bool :=
  a.rankingType == b.rankingType &&
    a.searchingMode == b.searchingMode &&
    a.simHash == b.simHash &&
    a.query == b.query &&
    a.userId == b.userId &&
    a.laInfo == b.laInfo &&
    a.properties == b.properties &&
    a.counterList == b.counterList &&
    a.sortInfo == b.sortInfo &&
    a.filterTree.eq b.filterTree &&
    a.groupParam.eq b.groupParam &&
    a.geoLocation == b.geoLocation &&
    a.removeDuplicatedDocs == b.removeDuplicatedDocs &&
    a.rangeProperty == b.rangeProperty &&
    a.strExp == b.strExp &&
    a.paramConstValueMap == b.paramConstValueMap &&
    a.paramPropertyValueMap == b.paramPropertyValueMap &&
    a.start == b.start &&
    a.distActionType == b.distActionType &&
    a.isRandomRank == b.isRandomRank &&
    a.isSynonym == b.isSynonym &&
    a.isAnalyzeResult == b.isAnalyzeResult &&
    a.querySource == b.querySource

/-- Identities compare equal when they differ in what `operator==` leaves out at most. -/
theorem QueryIdentity.eq_iff [DecidableEq PropertyValue] (a b : QueryIdentity PropertyValue) :
    a.eq b = true ↔ a = { b with
      expandedQueryString := a.expandedQueryString
      groupParam := { b.groupParam with isAttrToken := a.groupParam.isAttrToken } } := by
  cases a
  simp only [QueryIdentity.eq, Bool.and_eq_true, beq_iff_eq, ConditionsNode.eq_iff,
    GroupParam.eq_iff, mk.injEq]
  tauto

/-- The identity of a request. Without positions in the index, `PLM` is replaced by `BM25`, in
the request as well. -/
def makeQueryIdentity (docLevel : Bool) (item : KeywordSearchActionItem PropertyValue)
    (distActionType : ℤ) (start : ℕ) :
    QueryIdentity PropertyValue × KeywordSearchActionItem PropertyValue :=
  let identity : QueryIdentity PropertyValue :=
    { userId := item.env.userID
      start := start
      searchingMode := item.searchingMode
      isSynonym := item.languageAnalyzerInfo.synonymExtension }
  match item.searchingMode.mode with
  | .suffixMatch =>
    ({ identity with
        query := item.env.queryString
        properties := item.searchPropertyList
        filterTree := item.filterTree
        sortInfo := item.sortPriorityList
        strExp := item.strExp
        paramConstValueMap := item.paramConstValueMap
        paramPropertyValueMap := item.paramPropertyValueMap
        groupParam := item.groupParam
        geoLocation := item.geoLocation
        isRandomRank := item.isRandomRank
        querySource := item.env.querySource
        distActionType := distActionType
        isAnalyzeResult := item.isAnalyzeResult }, item)
  | .zambezi =>
    ({ identity with
        query := item.env.queryString
        properties := item.searchPropertyList
        filterTree := item.filterTree
        sortInfo := item.sortPriorityList
        strExp := item.strExp
        paramConstValueMap := item.paramConstValueMap
        paramPropertyValueMap := item.paramPropertyValueMap
        groupParam := item.groupParam
        geoLocation := item.geoLocation
        isRandomRank := item.isRandomRank
        querySource := item.env.querySource
        distActionType := distActionType }, item)
  | _ =>
    let item :=
      if docLevel ∧ item.rankingType = .plm then { item with rankingType := .bm25 } else item
    ({ identity with
        query := item.env.queryString
        expandedQueryString := item.env.expandedQueryString
        rankingType := item.rankingType
        laInfo := item.languageAnalyzerInfo
        properties := item.searchPropertyList.insertionSort (· ≤ ·)
        counterList := item.counterList.insertionSort (· ≤ ·)
        sortInfo := item.sortPriorityList
        filterTree := item.filterTree
        groupParam := item.groupParam
        geoLocation := item.geoLocation
        removeDuplicatedDocs := item.removeDuplicatedDocs
        rangeProperty := item.rangePropertyName
        strExp := item.strExp
        paramConstValueMap := item.paramConstValueMap
        paramPropertyValueMap := item.paramPropertyValueMap
        distActionType := distActionType
        isRandomRank := item.isRandomRank
        querySource := item.env.querySource }, item)

end AdDelivery.QueryManager
