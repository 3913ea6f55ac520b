import AdDelivery.QueryManager.ActionItem

/-!
# What a search reads of a request

A worker dispatches a request to an engine by its searching mode, and each engine reads its own
fields. The search for ads hands a copy of the request in suffix mode to another worker, here or
elsewhere. Some of the fields are not part of the identity that the cache is keyed by.
-/

namespace AdDelivery.AggregatorManager

open QueryManager

variable {PropertyValue : Type}

/-- The part of `prepareSorter`. -/
structure SorterInput where
  sortPriorityList : List (String × Bool)
  strExp : String
  paramConstValueMap : Table String ℚ
  paramPropertyValueMap : Table String String
  geoLocationProperty : String
  geoLocation : ℚ × ℚ

/-- The part of `createProductScorer`, the group filter and the custom ranks. -/
structure ScorerInput where
  normalizedQueryString : String
  queryString : String
  querySource : String
  groupParam : GroupParam

/-- The part of `buildQueryTree`. The parser gets the expanded query to write it, and it clears it
only if the language analyser is applied. -/
structure QueryTreeInput where
  encodingType : String
  queryString : String
  expandedQueryString : String
  applyLA : Bool
  synonymExtension : Bool
  searchPropertyList : List String

/-- The part of `GetSuffixMatch`. -/
structure SuffixInput (PropertyValue : Type) where
  synonymExtension : Bool
  filterTree : ConditionsNode PropertyValue
  isAnalyzeResult : Bool
  scorer : ScorerInput
  sorter : SorterInput

/-- The part of the engine that a searching mode dispatches to. -/
inductive EngineInput (PropertyValue : Type)
  | normal (query : QueryTreeInput) (rankingType : TextRankingType)
      (filterTree : ConditionsNode PropertyValue) (scorer : ScorerInput) (sorter : SorterInput)
      (rangePropertyName : String) (counterList : List String)
  | suffixMatch (suffix : SuffixInput PropertyValue)
  | zambezi (searchPropertyList : List String) (filterTree : ConditionsNode PropertyValue)
      (scorer : ScorerInput) (sorter : SorterInput)
  | adLocal (query : QueryTreeInput) (suffix : SuffixInput PropertyValue)
  | adRemote (query : QueryTreeInput) (action : KeywordSearchActionItem PropertyValue)
  | sponsoredSuffix (query : QueryTreeInput) (isAnalyzeResult : Bool)
      (groupLabels : Table String (List (List String))) (attrLabels : Table String (List String))
  | notCached

/-- All that is read for a result that is cached. The page is not: it is set again on a hit. -/
structure SearchInput (PropertyValue : Type) where
  collectionName : String
  encodingType : String
  normalizedQueryString : String
  userID : String
  searchingMode : SearchingModeInfo
  sortPriorityList : List (String × Bool)
  isRandomRank : Bool
  engine : EngineInput PropertyValue

variable (item : KeywordSearchActionItem PropertyValue) (remote : Bool) (searchColl : String)

def sorterInput : SorterInput where
  sortPriorityList := item.sortPriorityList
  strExp := item.strExp
  paramConstValueMap := item.paramConstValueMap
  paramPropertyValueMap := item.paramPropertyValueMap
  geoLocationProperty := item.geoLocationProperty
  geoLocation := item.geoLocation

def scorerInput : ScorerInput where
  normalizedQueryString := item.env.normalizedQueryString
  queryString := item.env.queryString
  querySource := item.env.querySource
  groupParam := item.groupParam

def queryTreeInput : QueryTreeInput where
  encodingType := item.env.encodingType
  queryString := item.env.queryString
  expandedQueryString := item.env.expandedQueryString
  applyLA := item.languageAnalyzerInfo.applyLA
  synonymExtension := item.languageAnalyzerInfo.synonymExtension
  searchPropertyList := item.searchPropertyList

def suffixInput : SuffixInput PropertyValue where
  synonymExtension := item.languageAnalyzerInfo.synonymExtension
  filterTree := item.filterTree
  isAnalyzeResult := item.isAnalyzeResult
  scorer := scorerInput item
  sorter := sorterInput item

/-- The request as it is sent to a search service elsewhere: a copy in suffix mode. The number of
documents for attributes is not sent. -/
def remoteAction (item : KeywordSearchActionItem PropertyValue) :
    KeywordSearchActionItem PropertyValue :=
  { item.copy with
    collectionName := searchColl
    searchingMode := { item.searchingMode with mode := .suffixMatch }
    groupParam := { item.groupParam with attrIterDocNum := 0 } }

/-- `getSearchResult_`, up to the engines. `remote` says whether there is a search service for ads
on other nodes, for the collection `searchColl`. -/
def engineInput (item : KeywordSearchActionItem PropertyValue) : EngineInput PropertyValue :=
  match item.searchingMode.mode with
  | .suffixMatch => .suffixMatch (suffixInput item)
  | .zambezi =>
    .zambezi item.searchPropertyList item.filterTree (scorerInput item) (sorterInput item)
  | .adIndex =>
    if remote then .adRemote (queryTreeInput item) (remoteAction searchColl item)
    else .adLocal (queryTreeInput item) (suffixInput item.copy)
  | .sponsoredAdSearchSuffix =>
    .sponsoredSuffix (queryTreeInput item) item.isAnalyzeResult item.groupParam.groupLabels
      item.groupParam.attrLabels
  | .adRecommend => .notCached
  | .sponsoredAdSearch => .notCached
  | _ =>
    .normal (queryTreeInput item) item.rankingType item.filterTree (scorerInput item)
      (sorterInput item) item.rangePropertyName item.counterList

def searchInput (item : KeywordSearchActionItem PropertyValue) : SearchInput PropertyValue where
  collectionName := item.collectionName
  encodingType := item.env.encodingType
  normalizedQueryString := item.env.normalizedQueryString
  userID := item.env.userID
  searchingMode := item.searchingMode
  sortPriorityList := item.sortPriorityList
  isRandomRank := item.isRandomRank
  engine := engineInput remote searchColl item

/-- The fields that a search in the mode of the request reads and its identity does not have. -/
def SameRest (a b : KeywordSearchActionItem PropertyValue) : Prop :=
  a.collectionName = b.collectionName ∧ a.env.encodingType = b.env.encodingType ∧
    a.env.normalizedQueryString = b.env.normalizedQueryString ∧
    match a.searchingMode.mode with
    | .suffixMatch =>
      a.geoLocationProperty = b.geoLocationProperty ∧
        a.groupParam.isAttrToken = b.groupParam.isAttrToken
    | .zambezi =>
      a.geoLocationProperty = b.geoLocationProperty ∧
        a.groupParam.isAttrToken = b.groupParam.isAttrToken
    | .adIndex =>
      a.searchPropertyList = b.searchPropertyList ∧
        a.env.expandedQueryString = b.env.expandedQueryString ∧
        a.isAnalyzeResult = b.isAnalyzeResult ∧
        a.groupParam.isAttrToken = b.groupParam.isAttrToken ∧
        (remote = true → a.env.isLogging = b.env.isLogging ∧ a.env.ipAddress = b.env.ipAddress ∧
          a.refinedQueryString = b.refinedQueryString ∧ a.pageInfo = b.pageInfo ∧
          a.disableGetDocs = b.disableGetDocs ∧ a.displayPropertyList = b.displayPropertyList ∧
          a.requireRelatedQueries = b.requireRelatedQueries)
    | .sponsoredAdSearchSuffix =>
      a.searchPropertyList = b.searchPropertyList ∧
        a.env.expandedQueryString = b.env.expandedQueryString ∧
        a.isAnalyzeResult = b.isAnalyzeResult
    | .adRecommend => True
    | .sponsoredAdSearch => True
    | _ =>
      a.searchPropertyList = b.searchPropertyList ∧
        a.env.expandedQueryString = b.env.expandedQueryString ∧
        a.counterList = b.counterList ∧
        a.geoLocationProperty = b.geoLocationProperty ∧
        a.groupParam.isAttrToken = b.groupParam.isAttrToken

end AdDelivery.AggregatorManager
