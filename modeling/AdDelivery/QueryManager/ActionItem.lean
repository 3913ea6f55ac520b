import AdDelivery.Core.Table
import Mathlib.Data.Rat.Init

/-!
# Search requests

A request of a search with all that the search and its cache read of it. Floating point numbers
stand for their values. A request holds no parsed ranker: it would repeat the expression and its
parameters, and the ranker of distances is never set.
-/

namespace AdDelivery.QueryManager

inductive SearchingModeType
  | defaultSearchingMode
  | or
  | wand
  | verbose
  | suffixMatch
  | zambezi
  | adIndex
  | adRecommend
  | sponsoredAdSearch
  | sponsoredAdSearchSuffix
  | notUseSearchingMode
  deriving DecidableEq

inductive SuffixMatchFilterMode
  | orFilter
  | andFilter
  | endFilter
  deriving DecidableEq

inductive TextRankingType
  | defaultTextRanker
  | bm25
  | kl
  | plm
  | notUseTextRanker
  deriving DecidableEq

structure PageInfo where
  start : ℕ := 0
  count : ℕ := 0
  deriving DecidableEq

structure LanguageAnalyzerInfo where
  applyLA : Bool := false
  useOriginalKeyword : Bool := false
  synonymExtension : Bool := false
  deriving DecidableEq

structure SearchingModeInfo where
  mode : SearchingModeType := .defaultSearchingMode
  threshold : ℚ := 0
  useFuzzyThreshold : Bool := false
  fuzzyThreshold : ℚ := 1 / 2
  tokensThreshold : ℚ := 1 / 2
  lucky : UInt32 := 1
  useOriginalQuery : Bool := true
  usefuzzy : Bool := false
  filtermode : SuffixMatchFilterMode := .orFilter
  useQueryPrune : Bool := true
  algorithm : ℤ := 0
  usePivilegeQuery : Bool := false
  privilegeQuery : String := ""
  privilegeWeight : ℚ := 1 / 10
  deriving DecidableEq

inductive FilteringOperation
  | nullOperator
  | equal
  | notEqual
  | include
  | exclude
  | greaterThan
  | greaterThanEqual
  | lessThan
  | lessThanEqual
  | range
  | startsWith
  | endsWith
  | subString
  | maxOperator
  deriving DecidableEq

inductive InterFilteringLogic
  | and
  | or
  deriving DecidableEq

structure FilteringType (PropertyValue : Type) where
  operation : FilteringOperation := .nullOperator
  property : String := ""
  logic : InterFilteringLogic := .and
  values : List PropertyValue := []
  deriving DecidableEq

/-- A node of the filter tree, with its leaves and its inner nodes. -/
inductive ConditionsNode (PropertyValue : Type)
  | node (relation : String) (conditionLeafList : List (FilteringType PropertyValue))
      (conditionsNodeList : List (ConditionsNode PropertyValue))

namespace ConditionsNode

variable {PropertyValue : Type} [DecidableEq PropertyValue]

def empty : ConditionsNode PropertyValue := node "and" [] []

mutual

/-- `operator==` of a node, and of the lists below it. -/
def eq : ConditionsNode PropertyValue → ConditionsNode PropertyValue → Bool
  | node relation leafs nodes, node relation' leafs' nodes' =>
    relation == relation' && leafs == leafs' && eqList nodes nodes'

def eqList : List (ConditionsNode PropertyValue) → List (ConditionsNode PropertyValue) → Bool
  | [], [] => true
  | tree :: trees, tree' :: trees' => eq tree tree' && eqList trees trees'
  | _, _ => false

end

mutual

/-- Trees that compare equal are equal. -/
theorem eq_iff (tree tree' : ConditionsNode PropertyValue) :
    eq tree tree' = true ↔ tree = tree' := by
  obtain ⟨relation, leafs, nodes⟩ := tree
  obtain ⟨relation', leafs', nodes'⟩ := tree'
  rw [eq, Bool.and_eq_true, Bool.and_eq_true, beq_iff_eq, beq_iff_eq, eqList_iff nodes nodes',
    node.injEq, and_assoc]

theorem eqList_iff (trees trees' : List (ConditionsNode PropertyValue)) :
    eqList trees trees' = true ↔ trees = trees' := by
  match trees, trees' with
  | [], [] => simp [eqList]
  | [], _ :: _ => simp [eqList]
  | _ :: _, [] => simp [eqList]
  | tree :: trees, tree' :: trees' =>
    rw [eqList, Bool.and_eq_true, eq_iff tree tree', eqList_iff trees trees', List.cons.injEq]

end

end ConditionsNode

structure GroupPropParam where
  property : String := ""
  subProperty : String := ""
  isRange : Bool := false
  unit : String := ""
  groupTop : ℤ := 0
  deriving DecidableEq

structure GroupParam where
  groupProps : List GroupPropParam := []
  groupLabels : Table String (List (List String)) := ∅
  autoSelectLimits : Table String ℤ := ∅
  boostGroupLabels : List (List String) := []
  isAttrGroup : Bool := false
  attrGroupNum : ℤ := 0
  attrIterDocNum : ℤ := 0
  attrLabels : Table String (List String) := ∅
  searchMode : SearchingModeType := .defaultSearchingMode
  isAttrToken : Bool := false

/-- `operator==` leaves out whether attributes are weighted by the tokens of the query. -/
def GroupParam.eq (a b : GroupParam) : Bool :=
  a.groupProps == b.groupProps &&
    a.groupLabels == b.groupLabels &&
    a.autoSelectLimits == b.autoSelectLimits &&
    a.boostGroupLabels == b.boostGroupLabels &&
    a.isAttrGroup == b.isAttrGroup &&
    a.attrGroupNum == b.attrGroupNum &&
    a.attrIterDocNum == b.attrIterDocNum &&
    a.attrLabels == b.attrLabels &&
    a.searchMode == b.searchMode

theorem GroupParam.eq_iff (a b : GroupParam) :
    a.eq b = true ↔ a = { b with isAttrToken := a.isAttrToken } := by
  obtain ⟨_, _, _, _, _, _, _, _, _, _⟩ := a
  simp [GroupParam.eq, and_assoc]

structure DisplayProperty where
  isSnippetOn : Bool := false
  isSummaryOn : Bool := false
  summarySentenceNum : ℕ := 0
  summaryPropertyAlias : String := ""
  isHighlightOn : Bool := false
  isSplitPropertyValue : Bool := false
  isSubDocPropertyValue : Bool := false
  propertyString : String := ""
  deriving DecidableEq

@[ext]
structure RequesterEnvironment where
  isLogging : Bool := false
  encodingType : String := ""
  queryString : String := ""
  expandedQueryString : String := ""
  normalizedQueryString : String := ""
  userID : String := ""
  ipAddress : String := ""
  querySource : String := ""
  deriving DecidableEq

structure KeywordSearchActionItem (PropertyValue : Type) where
  env : RequesterEnvironment := {}
  refinedQueryString : String := ""
  collectionName : String := ""
  rankingType : TextRankingType := .defaultTextRanker
  searchingMode : SearchingModeInfo := {}
  pageInfo : PageInfo := {}
  disableGetDocs : Bool := false
  languageAnalyzerInfo : LanguageAnalyzerInfo := {}
  searchPropertyList : List String := []
  removeDuplicatedDocs : Bool := false
  displayPropertyList : List DisplayProperty := []
  sortPriorityList : List (String × Bool) := []
  filterTree : ConditionsNode PropertyValue := .empty
  counterList : List String := []
  rangePropertyName : String := ""
  groupParam : GroupParam := {}
  strExp : String := ""
  paramConstValueMap : Table String ℚ := ∅
  paramPropertyValueMap : Table String String := ∅
  adSearchPropertyValue : List (String × String) := []
  geoLocation : ℚ × ℚ := (0, 0)
  geoLocationProperty : String := ""
  isRandomRank : Bool := false
  requireRelatedQueries : Bool := false
  isAnalyzeResult : Bool := false

/-- The copy constructor leaves out counters, values of ads and places. -/
def KeywordSearchActionItem.copy {PropertyValue : Type}
    (item : KeywordSearchActionItem PropertyValue) : KeywordSearchActionItem PropertyValue :=
  { item with
    counterList := []
    adSearchPropertyValue := []
    geoLocation := (0, 0)
    geoLocationProperty := "" }

end AdDelivery.QueryManager
