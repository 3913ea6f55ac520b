import AdDelivery.AggregatorManager.SearchMerger
import AdDelivery.Core.SortKeys
import Mathlib.Data.Int.ConditionallyCompleteOrder
import Mathlib.Data.Sum.Order
import Mathlib.Order.ConditionallyCompleteLattice.Basic

/-!
# Comparing documents by typed columns

A worker sends the values of the sort properties along with its documents, one list for every
property in the lists of its type. The merger takes the lists by name and compares documents by
their places in them.
-/

namespace AdDelivery.DistSearch

open SearchMerger (WorkerId DocId WDocId)

/-- The floats, `F`, and what the list of a double property, `D`, shows when it is read as floats.
`near` is a difference up to `epsilon()`. -/
structure FloatFormat (F D : Type) where
  zero : F
  lowest : F
  min : F
  max : F
  less : F → F → Bool
  near : F → F → Bool
  reread : List D → List F

structure PropertyRange (F : Type) where
  highValue : F
  lowValue : F

structure DistKeywordSearchInfo (F D S : Type) where
  /-- With `true` for the reverse order. -/
  sortPropertyList : List (String × Bool) := []
  sortPropertyInt32DataList : List (String × List Int32) := []
  sortPropertyInt64DataList : List (String × List Int64) := []
  sortPropertyFloatDataList : List (String × List F) := []
  sortPropertyDoubleDataList : List (String × List D) := []
  sortPropertyStrDataList : List (String × List S) := []
  majorTokenNum : ℤ := 0

/-- What is searched and merged, but for facets and texts. -/
structure KeywordSearchResult (F D S : Type) where
  error : String := ""
  distSearchInfo : DistKeywordSearchInfo F D S := {}
  totalCount : ℕ := 0
  counterResults : Table String UInt32 := ∅
  topKDocs : List DocId := []
  topKWorkerIds : List WorkerId := []
  topKRankScoreList : List F := []
  topKCustomRankScoreList : List F := []
  topKGeoDistanceList : List F := []
  propertyRange : PropertyRange F
  start : ℕ := 0
  count : ℕ := 0
  TOP_K_NUM : Int32 := 0

variable {F D S : Type} (format : FloatFormat F D)

/-- What the constructor makes. -/
def KeywordSearchResult.new : KeywordSearchResult F D S :=
  { propertyRange := { highValue := format.zero, lowValue := format.zero } }

/-- A list with its data type. -/
inductive DataList (F S : Type)
  | int32 (values : List Int32)
  | int64 (values : List Int64)
  | float (values : List F)
  | string (values : List S)

structure SortPropertyData (F S : Type) where
  reverse : Bool
  dataList : DataList F S

def DataList.length : DataList F S → ℕ
  | .int32 values => values.length
  | .int64 values => values.length
  | .float values => values.length
  | .string values => values.length

/-- The scan of one type goes on behind a hit. -/
def lastNamed {α : Type} (lists : List (String × List α)) (property : String) : Option (List α) :=
  (lists.reverse.find? fun list => list.1 = property).map Prod.snd

variable (result : KeywordSearchResult F D S)

def dataList (property : String) : Option (DataList F S) :=
  let info := result.distSearchInfo
  if property = "RANK" then some (.float result.topKRankScoreList)
  else if property = "CUSTOM_RANK" then some (.float result.topKCustomRankScoreList)
  else if property = "GEO_DIST" then some (.float result.topKGeoDistanceList)
  else
    ((lastNamed info.sortPropertyInt32DataList property).map .int32).or <|
    ((lastNamed info.sortPropertyInt64DataList property).map .int64).or <|
    ((lastNamed info.sortPropertyFloatDataList property).map .float).or <|
    ((lastNamed info.sortPropertyDoubleDataList property).map (.float ∘ format.reread)).or <|
    (lastNamed info.sortPropertyStrDataList property).map .string

/-- An empty vector has no data. -/
def propertyComparator (property : String × Bool) : Option (SortPropertyData F S) :=
  ((dataList format result property.1).filter fun list => list.length ≠ 0).map fun list =>
    { reverse := property.2, dataList := list }

/-- A property without data is left out. -/
def documentComparator : List (SortPropertyData F S) :=
  (SearchMerger.sortProperties result.distSearchInfo.sortPropertyList).filterMap
    (propertyComparator format result)

/-- `none` where the loop goes on. -/
def decideBy {α : Type} (equal less : α → α → Bool) (reverse : Bool) (v₁ v₂ : α) : Option Bool :=
  if equal v₁ v₂ then none
  else some (if reverse then less v₁ v₂ else less v₂ v₁)

variable [LinearOrder S] [Inhabited S]

def SortPropertyData.compare (property₁ property₂ : SortPropertyData F S) (idx₁ idx₂ : ℕ) :
    Option Bool :=
  match property₁.dataList, property₂.dataList with
  | .int32 list₁, .int32 list₂ =>
    decideBy (· == ·) (fun v w => decide (v < w)) property₁.reverse
      (list₁.getD idx₁ 0) (list₂.getD idx₂ 0)
  | .int64 list₁, .int64 list₂ =>
    decideBy (· == ·) (fun v w => decide (v < w)) property₁.reverse
      (list₁.getD idx₁ 0) (list₂.getD idx₂ 0)
  | .float list₁, .float list₂ =>
    decideBy format.near format.less property₁.reverse
      (list₁.getD idx₁ format.zero) (list₂.getD idx₂ format.zero)
  | .string list₁, .string list₂ =>
    decideBy (fun v w => decide (v = w)) (fun v w => decide (v < w)) property₁.reverse
      (list₁.getD idx₁ default) (list₂.getD idx₂ default)
  -- another type is passed over
  | _, _ => none

/-- The loop ends where one of the comparators does. -/
def greaterThan (isNewerDocId : WDocId → WDocId → Bool) (idx₁ : ℕ) (left : WDocId) (idx₂ : ℕ)
    (right : WDocId) : List (SortPropertyData F S) → List (SortPropertyData F S) → Bool
  | property₁ :: comp₁, property₂ :: comp₂ =>
    (property₁.compare format property₂ idx₁ idx₂).getD
      (greaterThan isNewerDocId idx₁ left idx₂ right comp₁ comp₂)
  | _, _ => isNewerDocId left right

/-- A value that is compared exactly. -/
abbrev SortValue (S : Type) := ℤ ⊕ₗ S

/-- The types whose values are compared exactly. -/
inductive SortType
  | int32
  | int64
  | string
deriving DecidableEq

def DataList.hasType : DataList F S → SortType → Prop
  | .int32 _, .int32 => True
  | .int64 _, .int64 => True
  | .string _, .string => True
  | _, _ => False

def intValue (v : ℤ) : WithBot (SortValue S) := (Sum.inlₗ v : SortValue S)

def strValue (v : S) : WithBot (SortValue S) := (Sum.inrₗ v : SortValue S)

def DataList.value : DataList F S → ℕ → WithBot (SortValue S)
  | .int32 values, idx => (values[idx]?).elim ⊥ fun v => intValue v.toInt
  | .int64 values, idx => (values[idx]?).elim ⊥ fun v => intValue v.toInt
  | .float _, _ => ⊥
  | .string values, idx => (values[idx]?).elim ⊥ strValue

/-- What a result says about a property of its document at a place. -/
def sortValue (property : String) (idx : ℕ) : WithBot (SortValue S) :=
  (dataList format result property).elim ⊥ fun list => list.value idx

/-- Greater values come first, but in the reverse order. -/
def precedes {β : Type*} [LT β] (reverse : Bool) (v w : β) : Prop :=
  if reverse then v < w else w < v

instance precedes_weak {α β : Type*} [LinearOrder β] (reverse : Bool) (value : α → β) :
    IsStrictWeakOrder α fun a b => precedes reverse (value a) (value b) := by
  have hlt : IsStrictWeakOrder β (· < ·) := isStrictWeakOrder_of_isOrderConnected
  have hgt : IsStrictWeakOrder β (· > ·) := isStrictWeakOrder_of_isOrderConnected
  cases reverse with
  | true => exact inferInstanceAs (IsStrictWeakOrder α (Order.Preimage value (· < ·)))
  | false => exact inferInstanceAs (IsStrictWeakOrder α (Order.Preimage value (· > ·)))

/-- A result with a full column for each property by which it is sorted, and what the types of
these are. -/
structure HasColumns (properties : List (String × Bool)) (type : String → SortType)
    (result : KeywordSearchResult F D S) : Prop where
  sortProperties_eq :
    SearchMerger.sortProperties result.distSearchInfo.sortPropertyList = properties
  column : ∀ property ∈ properties, ∃ list, dataList format result property.1 = some list ∧
    list.hasType (type property.1) ∧ list.length = result.topKDocs.length

omit [Inhabited S] in
@[simp] theorem intValue_lt (v w : ℤ) :
    (intValue v : WithBot (SortValue S)) < intValue w ↔ v < w := by
  rw [intValue, intValue, WithBot.coe_lt_coe, Sum.Lex.inl_lt_inl_iff]

omit [LinearOrder S] [Inhabited S] in
@[simp] theorem intValue_inj (v w : ℤ) :
    (intValue v : WithBot (SortValue S)) = intValue w ↔ v = w := by
  rw [intValue, intValue, WithBot.coe_inj]
  exact toLex_inj.trans Sum.inl_injective.eq_iff

omit [Inhabited S] in
@[simp] theorem strValue_lt (v w : S) : strValue v < strValue w ↔ v < w := by
  rw [strValue, strValue, WithBot.coe_lt_coe, Sum.Lex.inr_lt_inr_iff]

omit [LinearOrder S] [Inhabited S] in
@[simp] theorem strValue_inj (v w : S) : strValue v = strValue w ↔ v = w := by
  rw [strValue, strValue, WithBot.coe_inj]
  exact toLex_inj.trans Sum.inr_injective.eq_iff

omit [LinearOrder S] [Inhabited S] in
theorem decideBy_getD {α β : Type} [LinearOrder β] (value : α → β) (equal less : α → α → Bool)
    (hequal : ∀ v w, equal v w = true ↔ value v = value w)
    (hless : ∀ v w, less v w = true ↔ value v < value w) (reverse rest : Bool) (v w : α) :
    (decideBy equal less reverse v w).getD rest = true ↔ precedes reverse (value v) (value w) ∨
        ¬ precedes reverse (value w) (value v) ∧ rest = true := by
  unfold decideBy precedes
  by_cases h : equal v w = true
  · rw [if_pos h, (hequal v w).mp h]
    simp
  · rw [if_neg h]
    have hne := lt_or_gt_of_ne fun heq => h ((hequal v w).mpr heq)
    cases reverse with
    | true =>
      simp only [if_true, Option.getD_some, hless]
      grind
    | false =>
      simp only [Bool.false_eq_true, if_false, Option.getD_some, hless]
      grind

open DataList

/-- Lists of one type are compared by their values. -/
theorem compare_getD {type : SortType} {list₁ list₂ : DataList F S} (h₁ : list₁.hasType type)
    (h₂ : list₂.hasType type) {idx₁ idx₂ : ℕ} (hidx₁ : idx₁ < list₁.length)
    (hidx₂ : idx₂ < list₂.length) (reverse reverse₂ rest : Bool) :
    (SortPropertyData.compare format ⟨reverse, list₁⟩ ⟨reverse₂, list₂⟩ idx₁ idx₂).getD rest =
        true ↔ precedes reverse (list₁.value idx₁) (list₂.value idx₂) ∨
        ¬ precedes reverse (list₂.value idx₂) (list₁.value idx₁) ∧ rest = true := by
  cases type with
  | int32 =>
    cases list₁ <;> cases list₂ <;> simp only [hasType] at h₁ h₂
    rename_i values₁ values₂
    simp only [length] at hidx₁ hidx₂
    have h := decideBy_getD (fun v : Int32 => (intValue v.toInt : WithBot (SortValue S)))
      (· == ·) (fun v w => decide (v < w)) (by simp [Int32.toInt_inj])
      (by simp [Int32.lt_iff_toInt_lt]) reverse rest values₁[idx₁] values₂[idx₂]
    simpa [SortPropertyData.compare, value, hidx₁, hidx₂] using h
  | int64 =>
    cases list₁ <;> cases list₂ <;> simp only [hasType] at h₁ h₂
    rename_i values₁ values₂
    simp only [length] at hidx₁ hidx₂
    have h := decideBy_getD (fun v : Int64 => (intValue v.toInt : WithBot (SortValue S)))
      (· == ·) (fun v w => decide (v < w)) (by simp [Int64.toInt_inj])
      (by simp [Int64.lt_iff_toInt_lt]) reverse rest values₁[idx₁] values₂[idx₂]
    simpa [SortPropertyData.compare, value, hidx₁, hidx₂] using h
  | string =>
    cases list₁ <;> cases list₂ <;> simp only [hasType] at h₁ h₂
    rename_i values₁ values₂
    simp only [length] at hidx₁ hidx₂
    have h := decideBy_getD strValue (fun v w => decide (v = w)) (fun v w => decide (v < w))
      (by simp) (by simp) reverse rest values₁[idx₁] values₂[idx₂]
    simpa [SortPropertyData.compare, value, hidx₁, hidx₂] using h

/-- The order by some properties: the first one that separates decides. -/
def aboveBy {α : Type*} (properties : List (String × Bool)) (newer : α → α → Prop)
    (value : String → α → WithBot (SortValue S)) : α → α → Prop :=
  SortKeys.lexBy newer (properties.map fun property a b =>
    precedes property.2 (value property.1 a) (value property.1 b))

omit [Inhabited S] in
theorem aboveBy_weak {α : Type*} (properties : List (String × Bool)) (newer : α → α → Prop)
    (value : String → α → WithBot (SortValue S)) [IsStrictWeakOrder α newer] :
    IsStrictWeakOrder α (aboveBy properties newer value) := by
  refine SortKeys.lexBy_weak fun r hr => ?_
  obtain ⟨property, -, rfl⟩ := List.mem_map.mp hr
  exact precedes_weak property.2 (value property.1)

/-- The comparators of two results compare by the properties that these share. -/
theorem greaterThan_iff {α : Type*} {properties : List (String × Bool)}
    {type : String → SortType} {newer : α → α → Prop}
    {value : String → α → WithBot (SortValue S)} {result₁ result₂ : KeywordSearchResult F D S}
    (h₁ : HasColumns format properties type result₁)
    (h₂ : HasColumns format properties type result₂) {idx₁ idx₂ : ℕ}
    (hidx₁ : idx₁ < result₁.topKDocs.length) (hidx₂ : idx₂ < result₂.topKDocs.length) {a b : α}
    (ha : ∀ property, value property a = sortValue format result₁ property idx₁)
    (hb : ∀ property, value property b = sortValue format result₂ property idx₂)
    {isNewerDocId : WDocId → WDocId → Bool} {left right : WDocId}
    (hnewer : isNewerDocId left right = true ↔ newer a b) :
    greaterThan format isNewerDocId idx₁ left idx₂ right (documentComparator format result₁)
      (documentComparator format result₂) = true ↔ aboveBy properties newer value a b := by
  rw [documentComparator, documentComparator, h₁.sortProperties_eq, h₂.sortProperties_eq]
  have hcolumn₁ := h₁.column
  have hcolumn₂ := h₂.column
  clear h₁ h₂
  induction properties with
  | nil => exact hnewer
  | cons property properties ih =>
    obtain ⟨list₁, hlist₁, htype₁, hlength₁⟩ := hcolumn₁ property List.mem_cons_self
    obtain ⟨list₂, hlist₂, htype₂, hlength₂⟩ := hcolumn₂ property List.mem_cons_self
    have hsome₁ : propertyComparator format result₁ property = some ⟨property.2, list₁⟩ := by
      have hne : list₁.length ≠ 0 := by omega
      simp [propertyComparator, hlist₁, hne]
    have hsome₂ : propertyComparator format result₂ property = some ⟨property.2, list₂⟩ := by
      have hne : list₂.length ≠ 0 := by omega
      simp [propertyComparator, hlist₂, hne]
    have hva : value property.1 a = list₁.value idx₁ := by simp [ha, sortValue, hlist₁]
    have hvb : value property.1 b = list₂.value idx₂ := by simp [hb, sortValue, hlist₂]
    have hrest := ih (fun p hp => hcolumn₁ p (List.mem_cons_of_mem property hp))
      fun p hp => hcolumn₂ p (List.mem_cons_of_mem property hp)
    rw [List.filterMap_cons_some hsome₁, List.filterMap_cons_some hsome₂, greaterThan,
      compare_getD format htype₁ htype₂ (by omega) (by omega), ← hva, ← hvb]
    exact or_congr_right (and_congr_right fun _ => hrest)

end AdDelivery.DistSearch
