import AdDelivery.Core.PartialKeys
import AdDelivery.SearchManager.Sorter

/-!
# When the sorter orders documents

Every comparator reads one value of a document, no value, or nothing because the document is
beyond its table. Documents with values are ordered lexicographically. A set of documents is
ordered exactly when no two of them have to be told apart by a value that both lack, and no three
of them go round because one is beyond a table.
-/

namespace AdDelivery.PropertySort

open List BoundedQueue
open PropertyTables SortKeys

/-- What there is to compare of a document. -/
inductive Reading (V : Type)
  | beyond
  | missing
  | value (v : V)

namespace Reading

variable {V : Type} [LinearOrder V]

def compare : Reading V → Reading V → Int32
  | beyond, _ => 0
  | _, beyond => 0
  | missing, _ => -1
  | value _, missing => 1
  | value x, value y => if x < y then -1 else if y < x then 1 else 0

/-- No value comes before every value. -/
def Below : Reading V → Reading V → Prop
  | missing, value _ => True
  | value x, value y => x < y
  | _, _ => False

/-- The reading of an entry of a table. -/
def ofEntry (invalidValue : V) (size docId : ℕ) (v : V) : Reading V :=
  if size ≤ docId then beyond else if v = invalidValue then missing else value v

theorem compare_ofEntry (invalidValue : V) (size lhs rhs : ℕ) (lv rv : V) :
    compare (ofEntry invalidValue size lhs lv) (ofEntry invalidValue size rhs rv) =
      if size ≤ lhs ∨ size ≤ rhs then 0 else compareEntries invalidValue lv rv := by
  unfold ofEntry compareEntries
  by_cases hlhs : size ≤ lhs
  · simp [hlhs, compare]
  by_cases hrhs : size ≤ rhs
  · by_cases hlv : lv = invalidValue
    · simp [hlhs, hrhs, hlv, compare]
    · simp [hlhs, hrhs, hlv, compare]
  by_cases hlv : lv = invalidValue
  · by_cases hrv : rv = invalidValue
    · simp [hlhs, hrhs, hlv, hrv, compare]
    · simp [hlhs, hrhs, hlv, hrv, compare]
  · by_cases hrv : rv = invalidValue
    · simp [hlhs, hrhs, hlv, hrv, compare]
    · simp [hlhs, hrhs, hlv, hrv, compare]

theorem compare_of_missing : compare (missing : Reading V) missing = -1 := rfl

/-- Apart from two missing values a comparison is that of the values. -/
theorem compare_spec {x y : Reading V} (h : ¬ (x = missing ∧ y = missing)) :
    (Below x y ∧ compare x y = -1) ∨ (Below y x ∧ compare x y = 1) ∨
      (¬ Below x y ∧ ¬ Below y x ∧ compare x y = 0) := by
  cases x with
  | beyond => exact .inr (.inr ⟨id, by cases y <;> exact id, rfl⟩)
  | missing =>
    cases y with
    | beyond => exact .inr (.inr ⟨id, id, rfl⟩)
    | missing => exact absurd ⟨rfl, rfl⟩ h
    | value v => exact .inl ⟨trivial, rfl⟩
  | value v =>
    cases y with
    | beyond => exact .inr (.inr ⟨id, id, rfl⟩)
    | missing => exact .inr (.inl ⟨trivial, rfl⟩)
    | value w =>
      rcases lt_trichotomy v w with hlt | heq | hgt
      · exact .inl ⟨hlt, if_pos hlt⟩
      · subst heq
        refine .inr (.inr ⟨lt_irrefl v, lt_irrefl v, ?_⟩)
        rw [compare, if_neg (lt_irrefl v), if_neg (lt_irrefl v)]
      · refine .inr (.inl ⟨hgt, ?_⟩)
        rw [compare, if_neg hgt.asymm, if_pos hgt]

end Reading

open Reading

variable {F : Type} [LinearOrder F]

namespace SortPropertyComparator

/-- The type of the values that are compared. -/
def Value : SortPropertyComparator F → Type
  | ofNumericTable propData => propData.Value
  | ofRTypeStringTable _ => Bytes
  | _ => F

instance valueOrder : (comparator : SortPropertyComparator F) → LinearOrder comparator.Value
  | default => inferInstanceAs (LinearOrder F)
  | ofNumericTable propData => propData.order
  | ofRTypeStringTable _ => inferInstanceAs (LinearOrder Bytes)
  | ofType _ => inferInstanceAs (LinearOrder F)

def read : (comparator : SortPropertyComparator F) → ScoreDoc F → Reading comparator.Value
  | default, doc => .value doc.score
  | ofNumericTable propData, doc =>
    .ofEntry propData.invalidValue_ propData.size doc.docId
      (propData.data_.getD doc.docId propData.invalidValue_)
  | ofRTypeStringTable propData, doc =>
    .ofEntry [] (propData.maxDocId_ + 1).toNat doc.docId (propData.dataInMem_.getD doc.docId [])
  | ofType .UNKNOWN, doc => .value doc.score
  | ofType .CUSTOM_RANKING, doc => .value doc.custom_score
  | ofType .GEOLOCATION, doc => .value doc.geo_dist
  | ofType _, _ => .beyond

theorem compareImplNumeric_eq (propData : NumericPropertyTableBase) (doc1 doc2 : ScoreDoc F) :
    (ofNumericTable propData).compareImplNumeric doc1 doc2 =
      Reading.compare ((ofNumericTable propData).read doc1) ((ofNumericTable propData).read doc2) :=
  (compare_ofEntry _ _ _ _ _ _).symm

theorem compareImplRTypeString_eq (propData : RTypeStringPropTable) (doc1 doc2 : ScoreDoc F) :
    (ofRTypeStringTable propData).compareImplRTypeString doc1 doc2 =
      Reading.compare ((ofRTypeStringTable propData).read doc1)
        ((ofRTypeStringTable propData).read doc2) := by
  refine Eq.trans ?_ (compare_ofEntry _ _ _ _ _ _).symm
  rw [compareImplRTypeString]
  by_cases hsize : (propData.maxDocId_ + 1).toNat ≤ doc1.docId ∨
      (propData.maxDocId_ + 1).toNat ≤ doc2.docId
  · rw [if_pos hsize]
    exact if_pos hsize
  · have hmax : ¬ (propData.maxDocId_.toNat < doc1.docId ∨
        propData.maxDocId_.toNat < doc2.docId) := by
      have hwrap := UInt32.toNat_add propData.maxDocId_ 1
      rw [UInt32.toNat_one] at hwrap
      omega
    rw [if_neg hsize]
    refine (if_neg hsize).trans ?_
    rw [RTypeStringPropTable.compareValues, if_neg hmax]
    rfl

theorem compare_eq (comparator : SortPropertyComparator F) (doc1 doc2 : ScoreDoc F) :
    comparator.compare doc1 doc2 =
      Reading.compare (comparator.read doc1) (comparator.read doc2) := by
  cases comparator with
  | default => rfl
  | ofNumericTable propData =>
    rw [← compareImplNumeric_eq]
    have hnumeric := propData.numeric
    have htype : (ofNumericTable propData : SortPropertyComparator F).type_ = propData.type_ := rfl
    rw [compare, htype]
    cases htype : propData.type_ with
    | INT8 | INT16 | INT32 | INT64 | FLOAT | DOUBLE | DATETIME => rfl
    | STRING | UNKNOWN | CUSTOM_RANKING | GEOLOCATION | other =>
      rw [htype] at hnumeric
      cases hnumeric
  | ofRTypeStringTable propData =>
    rw [← compareImplRTypeString_eq]
    rfl
  | ofType dataType =>
    cases dataType with
    | UNKNOWN | CUSTOM_RANKING | GEOLOCATION | other => rfl
    | STRING => simp [compare, type_, compareImplRTypeString, size_, read, Reading.compare]
    | INT8 | INT16 | INT32 | INT64 | FLOAT | DOUBLE | DATETIME =>
      simp [compare, type_, compareImplNumeric, size_, read, Reading.compare]

end SortPropertyComparator

namespace ComparedProperty

def read (property : ComparedProperty F) (doc : ScoreDoc F) : Reading property.comparator.Value :=
  property.comparator.read doc

variable (property : ComparedProperty F) (a b : ScoreDoc F)

/-- The document has a value. -/
def HasValue (doc : ScoreDoc F) : Prop :=
  ∃ v, property.read doc = .value v

/-- Both documents are in the table and neither has a value. -/
def BothMissing : Prop :=
  property.read a = .missing ∧ property.read b = .missing

/-- The order of the readings, or the opposite one. -/
def Before : Prop :=
  if property.reverse_ then (property.read b).Below (property.read a)
  else (property.read a).Below (property.read b)

/-- The property as a sort key. A document beyond the table does not have it. -/
def key : Key (ScoreDoc F) where
  has doc := property.read doc ≠ .beyond
  below := property.Before

/-- The property says nothing about the two documents. -/
def Ties : Prop :=
  property.key.Tied a b ∧ ¬ property.BothMissing a b

def reverseMul : Int32 := if property.reverse_ then -1 else 1

end ComparedProperty

open ComparedProperty

theorem Reading.Below.has {V : Type} [LinearOrder V] {x y : Reading V} (h : x.Below y) :
    x ≠ .beyond ∧ y ≠ .beyond := by
  cases x <;> cases y <;> first | exact h.elim | exact ⟨nofun, nofun⟩

theorem Reading.Below.asymm {V : Type} [LinearOrder V] {x y : Reading V} (h : x.Below y) :
    ¬ y.Below x := by
  cases x <;> cases y <;> first | exact id | exact h.elim | exact lt_asymm h

theorem Reading.Below.split {V : Type} [LinearOrder V] {x y z : Reading V} (h : x.Below z)
    (hy : y ≠ .beyond) : x.Below y ∨ y.Below z := by
  cases y with
  | beyond => exact absurd rfl hy
  | missing =>
    cases z with
    | value w => exact .inr trivial
    | beyond | missing => cases x <;> exact h.elim
  | value v =>
    cases x with
    | beyond => exact h.elim
    | missing => exact .inl trivial
    | value u =>
      cases z with
      | beyond | missing => exact h.elim
      | value w =>
        rcases lt_or_ge u v with huv | hvu
        · exact .inl huv
        · exact .inr (lt_of_le_of_lt hvu h)

theorem ComparedProperty.ordered_key (property : ComparedProperty F) : property.key.Ordered := by
  obtain ⟨comparator, reverse⟩ := property
  cases reverse with
  | false => exact ⟨fun h => h.has.1, fun h => h.has.2, fun h => h.asymm, fun h hb => h.split hb⟩
  | true =>
    exact ⟨fun h => h.has.2, fun h => h.has.1, fun h => h.asymm, fun h hb => (h.split hb).symm⟩

section LessThan

variable {property : ComparedProperty F} {properties : List (ComparedProperty F)}
  {a b c : ScoreDoc F}

/-- `lessThan` of a sorter whose comparators have been made. -/
def lessThanBy (properties : List (ComparedProperty F)) (a b : ScoreDoc F) : Prop :=
  Sorter.lessThanLoop (properties.zip (properties.map reverseMul)) a b

def idBelow (a b : ScoreDoc F) : Prop := a.docId < b.docId

instance : IsStrictOrder (ScoreDoc F) idBelow where
  irrefl a := Nat.lt_irrefl a.docId
  trans _ _ _ := Nat.lt_trans

def keys (properties : List (ComparedProperty F)) : List (Key (ScoreDoc F)) :=
  properties.map key

theorem lessThanBy_nil : lessThanBy [] a b ↔ idBelow a b := decide_eq_true_iff

theorem lessThanBy_cons_eq : Sorter.lessThanLoop ((property :: properties).zip
        ((property :: properties).map reverseMul)) a b =
      if (property.read a).compare (property.read b) ≠ 0 then
        decide ((property.read a).compare (property.read b) ^^^ property.reverseMul ≠ 0)
      else
        Sorter.lessThanLoop (properties.zip (properties.map reverseMul)) a b := by
  rw [map_cons, zip_cons_cons, Sorter.lessThanLoop,
    SortPropertyComparator.compare_eq property.comparator a b]
  rfl

omit [LinearOrder F] in
/-- The first document comes before the second, unless the property is reversed. -/
theorem neg_one_xor (property : ComparedProperty F) :
    decide (-1 ^^^ property.reverseMul ≠ 0) = !property.reverse_ := by
  unfold reverseMul
  cases property.reverse_ <;> rfl

omit [LinearOrder F] in
theorem one_xor (property : ComparedProperty F) :
    decide (1 ^^^ property.reverseMul ≠ 0) = property.reverse_ := by
  unfold reverseMul
  cases property.reverse_ <;> rfl

/-- Neither document has a value: the property decides for the first one, or for none if it is
reversed. -/
theorem lessThanBy_of_bothMissing (h : property.BothMissing a b) :
    lessThanBy (property :: properties) a b ↔ property.reverse_ = false := by
  rw [lessThanBy, lessThanBy_cons_eq, h.1, h.2, compare_of_missing, if_pos (by decide),
    neg_one_xor, Bool.not_eq_true']

theorem lessThanBy_cons (h : ¬ property.BothMissing a b) : lessThanBy (property :: properties) a b ↔
      thenBy property.key.below (lessThanBy properties) a b := by
  rw [lessThanBy, lessThanBy_cons_eq, thenBy, key]
  simp only [Before]
  rcases compare_spec h with ⟨hbelow, hc⟩ | ⟨habove, hc⟩ | ⟨hbelow, habove, hc⟩
  · rw [hc, neg_one_xor]
    cases property.reverse_ <;> simp [hbelow, hbelow.asymm]
  · rw [hc, one_xor]
    cases property.reverse_ <;> simp [habove, habove.asymm]
  · rw [hc]
    cases property.reverse_ <;> simp [hbelow, habove, lessThanBy]

/-- The documents lack the value that would tell them apart: `property` is the first one that is
not tied at them, and neither has a value. -/
def MeetAt (properties : List (ComparedProperty F)) (property : ComparedProperty F)
    (a b : ScoreDoc F) : Prop :=
  ∃ pre post, properties = pre ++ property :: post ∧ (∀ other ∈ pre, other.Ties a b) ∧
    property.BothMissing a b

theorem meetAt_cons {other : ComparedProperty F} : MeetAt (other :: properties) property a b ↔
      (other = property ∧ property.BothMissing a b) ∨
        (other.Ties a b ∧ MeetAt properties property a b) := by
  constructor
  · rintro ⟨pre, post, hsplit, hpre, hmissing⟩
    cases pre with
    | nil => exact .inl ⟨(List.cons.inj hsplit).1, hmissing⟩
    | cons other' pre =>
      obtain ⟨rfl, hrest⟩ := List.cons.inj hsplit
      refine .inr ⟨hpre other mem_cons_self, pre, post, hrest, ?_, hmissing⟩
      exact fun other' hmem => hpre other' (mem_cons_of_mem other hmem)
  · rintro (⟨rfl, hmissing⟩ | ⟨hties, pre, post, rfl, hpre, hmissing⟩)
    · exact ⟨[], properties, rfl, by simp, hmissing⟩
    · refine ⟨other :: pre, post, rfl, ?_, hmissing⟩
      exact forall_mem_cons.mpr ⟨hties, hpre⟩

theorem MeetAt.symm (h : MeetAt properties property a b) : MeetAt properties property b a := by
  obtain ⟨pre, post, hsplit, hpre, hmissing⟩ := h
  refine ⟨pre, post, hsplit, ?_, hmissing.symm⟩
  intro other hmem
  obtain ⟨htied, hnot⟩ := hpre other hmem
  exact ⟨htied.symm, fun hmissing => hnot hmissing.symm⟩

theorem lessThanBy_of_meetAt (h : MeetAt properties property a b) :
    lessThanBy properties a b ↔ property.reverse_ = false := by
  induction properties with
  | nil =>
    obtain ⟨pre, post, hsplit, -⟩ := h
    simp at hsplit
  | cons other properties ih =>
    rcases meetAt_cons.mp h with ⟨rfl, hmissing⟩ | ⟨hties, hrest⟩
    · exact lessThanBy_of_bothMissing hmissing
    · rw [lessThanBy_cons hties.2, thenBy_of_tied hties.1]
      exact ih hrest

/-- Elsewhere the comparison is that of the keys. -/
theorem lessThanBy_iff (h : ∀ property, ¬ MeetAt properties property a b) :
    lessThanBy properties a b ↔ lexByKeys idBelow (keys properties) a b := by
  induction properties with
  | nil => exact lessThanBy_nil
  | cons other properties ih =>
    have hmissing : ¬ other.BothMissing a b := fun hmissing =>
      h other (meetAt_cons.mpr (.inl ⟨rfl, hmissing⟩))
    rw [lessThanBy_cons hmissing, keys, map_cons, lexByKeys_cons]
    by_cases hab : other.key.below a b
    · exact iff_of_true (.inl hab) (.inl hab)
    by_cases hba : other.key.below b a
    · exact iff_of_false (fun h => h.elim hab fun h => h.1 hba) fun h => h.elim hab fun h => h.1 hba
    have hties : other.Ties a b := ⟨⟨hab, hba⟩, hmissing⟩
    rw [thenBy_of_tied hties.1, thenBy_of_tied hties.1]
    exact ih fun property hmeet => h property (meetAt_cons.mpr (.inr ⟨hties, hmeet⟩))

/-- The first property with different values decides, and the id where there is none. -/
def Lexicographic : List (ComparedProperty F) → ScoreDoc F → ScoreDoc F → Prop
  | [], a, b => a.docId < b.docId
  | property :: properties, a, b =>
    property.Before a b ∨ property.read a = property.read b ∧ Lexicographic properties a b

theorem lessThanBy_lexicographic (ha : ∀ property ∈ properties, property.HasValue a)
    (hb : ∀ property ∈ properties, property.HasValue b) :
    lessThanBy properties a b ↔ Lexicographic properties a b := by
  induction properties with
  | nil => exact lessThanBy_nil
  | cons property properties ih =>
    obtain ⟨v, hv⟩ := ha property mem_cons_self
    obtain ⟨w, hw⟩ := hb property mem_cons_self
    have hmissing : ¬ property.BothMissing a b := by
      rintro ⟨h, -⟩
      rw [hv] at h
      cases h
    have hrest := ih (fun other hmem => ha other (mem_cons_of_mem property hmem))
      fun other hmem => hb other (mem_cons_of_mem property hmem)
    rw [lessThanBy_cons hmissing, Lexicographic, ← hrest]
    change property.Before a b ∨ ¬ property.Before b a ∧ _ ↔ _
    by_cases hab : property.Before a b
    · exact iff_of_true (.inl hab) (.inl hab)
    rw [or_iff_right hab, or_iff_right hab]
    refine and_congr_left fun _ => ?_
    -- two values that are not below one another are equal
    have hequal : property.read a = property.read b ↔ v = w := by
      rw [hv, hw]
      exact ⟨fun h => by cases h; rfl, fun h => by rw [h]⟩
    rw [hequal]
    simp only [Before, hv, hw, Below] at hab ⊢
    split at hab
    · rename_i hreverse
      rw [if_pos hreverse]
      exact ⟨fun h => le_antisymm (not_lt.mp hab) (not_lt.mp h), fun h => h ▸ lt_irrefl _⟩
    · rename_i hreverse
      rw [if_neg hreverse]
      exact ⟨fun h => le_antisymm (not_lt.mp h) (not_lt.mp hab), fun h => h ▸ lt_irrefl _⟩

/-- A set of documents that the properties can order. -/
structure Separable (properties : List (ComparedProperty F)) (D : Set (ScoreDoc F)) : Prop where
  /-- The first value that a document lacks is one of a reversed property. -/
  reversed : ∀ a ∈ D, ∀ property, MeetAt properties property a a → property.reverse_
  /-- No two documents lack the value that would tell them apart. -/
  apart : ∀ a ∈ D, ∀ b ∈ D, a ≠ b → ∀ property, ¬ MeetAt properties property a b
  /-- No three documents go round because one is beyond a table that orders the others. -/
  straight : ∀ a ∈ D, ∀ b ∈ D, ∀ c ∈ D, ¬ Crossed idBelow (keys properties) a b c

theorem ordered_keys (properties : List (ComparedProperty F)) :
    ∀ key ∈ keys properties, key.Ordered := by
  intro key hmem
  obtain ⟨property, -, rfl⟩ := mem_map.mp hmem
  exact property.ordered_key

theorem lexByKeys_keys_asymm :
    lexByKeys idBelow (keys properties) a b → ¬ lexByKeys idBelow (keys properties) b a :=
  lexByKeys_asymm (ordered_keys properties) Nat.lt_asymm

section OrdersOn

variable {D : Set (ScoreDoc F)}

omit [LinearOrder F] in
theorem idBelow_or_idBelow (hids : ∀ a ∈ D, ∀ b ∈ D, a.docId = b.docId → a = b) :
    ∀ a ∈ D, ∀ b ∈ D, a ≠ b → idBelow a b ∨ idBelow b a := by
  intro a ha b hb hne
  exact Nat.lt_or_gt_of_ne fun h => hne (hids a ha b hb h)

/-- Documents that meet are below one another both ways or not at all. -/
theorem not_meetAt_of_ordersOn (h : OrdersOn (lessThanBy properties) D) (ha : a ∈ D) (hb : b ∈ D)
    (hne : a ≠ b) : ¬ MeetAt properties property a b := by
  intro hmeet
  have hab := lessThanBy_of_meetAt hmeet
  have hba := lessThanBy_of_meetAt hmeet.symm
  cases hreverse : property.reverse_ with
  | false => exact h.asymm a ha b hb (hab.mpr hreverse) (hba.mpr hreverse)
  | true =>
    have hnot : ¬ property.reverse_ = false := by simp [hreverse]
    exact (h.total a ha b hb hne).elim (mt hab.mp hnot) (mt hba.mp hnot)

theorem separable_of_ordersOn (hids : ∀ a ∈ D, ∀ b ∈ D, a.docId = b.docId → a = b)
    (h : OrdersOn (lessThanBy properties) D) : Separable properties D := by
  have hapart : ∀ a ∈ D, ∀ b ∈ D, a ≠ b → ∀ property, ¬ MeetAt properties property a b :=
    fun a ha b hb hne property => not_meetAt_of_ordersOn h ha hb hne
  refine ⟨?_, hapart, ?_⟩
  · intro a ha property hmeet
    rw [← Bool.not_eq_false, ← lessThanBy_of_meetAt hmeet]
    exact h.irrefl a ha
  · apply (transitive_iff_not_crossed (idBelow_or_idBelow hids) (ordered_keys properties)).mp
    intro a ha b hb c hc hab hbc
    have hne {a b : ScoreDoc F} (h : lexByKeys idBelow (keys properties) a b) : a ≠ b := by
      rintro rfl
      exact lexByKeys_keys_asymm h h
    have hac : a ≠ c := by
      rintro rfl
      exact lexByKeys_keys_asymm hab hbc
    rw [← lessThanBy_iff (hapart a ha b hb (hne hab))] at hab
    rw [← lessThanBy_iff (hapart b hb c hc (hne hbc))] at hbc
    rw [← lessThanBy_iff (hapart a ha c hc hac)]
    exact h.trans a ha b hb c hc hab hbc

namespace Separable

theorem irrefl (h : Separable properties D) (ha : a ∈ D) : ¬ lessThanBy properties a a := by
  intro hlt
  by_cases hmeet : ∃ property, MeetAt properties property a a
  · obtain ⟨property, hmeet⟩ := hmeet
    have hreverse := (lessThanBy_of_meetAt hmeet).mp hlt
    rw [h.reversed a ha property hmeet] at hreverse
    cases hreverse
  · have hkeys := (lessThanBy_iff (not_exists.mp hmeet)).mp hlt
    exact lexByKeys_keys_asymm hkeys hkeys

theorem asymm (h : Separable properties D) (ha : a ∈ D) (hb : b ∈ D)
    (hab : lessThanBy properties a b) : ¬ lessThanBy properties b a := by
  intro hba
  by_cases heq : a = b
  · exact h.irrefl ha (heq ▸ hab)
  · exact lexByKeys_keys_asymm ((lessThanBy_iff (h.apart a ha b hb heq)).mp hab)
      ((lessThanBy_iff (h.apart b hb a ha (Ne.symm heq))).mp hba)

theorem ordersOn (h : Separable properties D) (hids : ∀ a ∈ D, ∀ b ∈ D, a.docId = b.docId → a = b) :
    OrdersOn (lessThanBy properties) D := by
  refine ⟨fun a ha => h.irrefl ha, fun a ha b hb => h.asymm ha hb, ?_, ?_⟩
  · intro a ha b hb c hc hab hbc
    have hne {a b : ScoreDoc F} (ha : a ∈ D) (hlt : lessThanBy properties a b) : a ≠ b := by
      rintro rfl
      exact h.irrefl ha hlt
    have hac : a ≠ c := by
      rintro rfl
      exact h.asymm ha hb hab hbc
    rw [lessThanBy_iff (h.apart a ha b hb (hne ha hab))] at hab
    rw [lessThanBy_iff (h.apart b hb c hc (hne hb hbc))] at hbc
    rw [lessThanBy_iff (h.apart a ha c hc hac)]
    exact (transitive_iff_not_crossed (idBelow_or_idBelow hids) (ordered_keys properties)).mpr
      h.straight a ha b hb c hc hab hbc
  · intro a ha b hb hne
    rw [lessThanBy_iff (h.apart a ha b hb hne), lessThanBy_iff (h.apart b hb a ha hne.symm)]
    exact lexByKeys_connected (idBelow_or_idBelow hids a ha b hb hne)

end Separable

theorem ordersOn_iff_separable (hids : ∀ a ∈ D, ∀ b ∈ D, a.docId = b.docId → a = b) :
    OrdersOn (lessThanBy properties) D ↔ Separable properties D :=
  ⟨separable_of_ordersOn hids, fun h => h.ordersOn hids⟩

end OrdersOn

end LessThan

theorem lessThan_of_created {sorter sorter' : Sorter F}
    (h : sorter.createComparators = some sorter') (a b : ScoreDoc F) :
    sorter'.lessThan a b ↔ lessThanBy sorter'.ppSortProperties_ a b := by
  obtain ⟨properties, -, rfl⟩ := Option.map_eq_some_iff.mp h
  rfl

/-- The comparison orders a set of documents, those with values lexicographically, and a bounded
queue of any size returns the greatest documents in order. -/
structure SortsRight (sorter : Sorter F) (D : Set (ScoreDoc F))
    (queue : BoundedQueue (ScoreDoc F)) : Prop where
  orders : OrdersOn (fun a b => sorter.lessThan a b) D
  lexicographic : ∀ a ∈ D, ∀ b ∈ D,
    (∀ property ∈ sorter.ppSortProperties_, property.HasValue a) →
    (∀ property ∈ sorter.ppSortProperties_, property.HasValue b) →
    (sorter.lessThan a b ↔ Lexicographic sorter.ppSortProperties_ a b)
  topK : ∀ (size : ℕ) (docs : List (ScoreDoc F)), (∀ doc ∈ docs, doc ∈ D) → docs.Nodup →
    IsTop (fun a b => sorter.lessThan a b) size docs (queue.results size docs)

/-- A sorter whose comparators have been made sorts documents with distinct ids right exactly when
its properties can separate them. The queue is only known to work for comparisons that are
orders. -/
theorem sortsRight_iff_separable {sorter sorter' : Sorter F}
    (hcreate : sorter.createComparators = some sorter') {D : Set (ScoreDoc F)}
    (hids : ∀ a ∈ D, ∀ b ∈ D, a.docId = b.docId → a = b) {queue : BoundedQueue (ScoreDoc F)}
    (hqueue : OrdersOn (fun a b => sorter'.lessThan a b) D → ∃ contents capacity,
      queue.Keeps (fun a b => sorter'.lessThan a b) D contents capacity) :
    SortsRight sorter' D queue ↔ Separable sorter'.ppSortProperties_ D := by
  have hlessThan : (fun a b => (sorter'.lessThan a b : Prop)) =
      lessThanBy sorter'.ppSortProperties_ := by
    funext a b
    exact propext (lessThan_of_created hcreate a b)
  constructor
  · intro h
    have horders := h.orders
    rw [hlessThan] at horders
    exact (ordersOn_iff_separable hids).mp horders
  · intro h
    have horders : OrdersOn (fun a b => (sorter'.lessThan a b : Prop)) D := by
      rw [hlessThan]
      exact (ordersOn_iff_separable hids).mpr h
    refine ⟨horders, ?_, ?_⟩
    · intro a _ b _ ha hb
      rw [lessThan_of_created hcreate]
      exact lessThanBy_lexicographic ha hb
    · intro size docs hdocs hnodup
      obtain ⟨contents, capacity, hkeeps⟩ := hqueue horders
      exact isTop_results hkeeps horders hdocs hnodup

/-- Documents 1 and 2 have no price. -/
def priceTable : NumericPropertyTableBase where
  Value := ℤ
  type_ := .INT32
  invalidValue_ := 2147483647
  data_ := [2147483647, 2147483647, 2147483647, 20, 10]
  numeric := rfl

def priceSorter : Sorter ℤ where
  numericTableBuilder_ := some fun _ => some priceTable
  rtypeStringPropBuilder_ := none
  sortProperties_ := [⟨"Price", .INT32, .AUTO, false, none⟩]

def createdPriceSorter : Sorter ℤ where
  numericTableBuilder_ := some fun _ => some priceTable
  rtypeStringPropBuilder_ := none
  sortProperties_ := [⟨"Price", .INT32, .AUTO, false, some (.ofNumericTable priceTable)⟩]
  ppSortProperties_ := [⟨.ofNumericTable priceTable, false⟩]
  reverseMul_ := [1]

theorem sortsRight_iff_separable_priced :
    SortsRight createdPriceSorter {doc | doc ∈ [⟨3, 0, 0, 0⟩, ⟨4, 0, 0, 0⟩, ⟨9, 0, 0, 0⟩]}
        (listQueue createdPriceSorter.lessThan) ↔
      Separable createdPriceSorter.ppSortProperties_
        {doc | doc ∈ [⟨3, 0, 0, 0⟩, ⟨4, 0, 0, 0⟩, ⟨9, 0, 0, 0⟩]} := by
  have hcreate : priceSorter.createComparators = some createdPriceSorter := rfl
  refine sortsRight_iff_separable hcreate ?_ ?_
  · simp
  · intro h
    exact ⟨_, _, listQueue_keeps fun _ _ => least_spec h⟩

/-- Of two documents without a price each comes before the other. -/
theorem unpriced_not_ordered : ¬ ∀ (sorter sorter' : Sorter ℤ) (D : Set (ScoreDoc ℤ)),
      sorter.createComparators = some sorter' → (∀ a ∈ D, ∀ b ∈ D, a.docId = b.docId → a = b) →
      OrdersOn (fun a b => sorter'.lessThan a b) D := by
  intro h
  have horders := h priceSorter createdPriceSorter
    {doc | doc ∈ [⟨1, 0, 0, 0⟩, ⟨2, 0, 0, 0⟩]} rfl (by simp)
  exact horders.asymm ⟨1, 0, 0, 0⟩ (by simp) ⟨2, 0, 0, 0⟩ (by simp) (by decide) (by decide)

end AdDelivery.PropertySort
