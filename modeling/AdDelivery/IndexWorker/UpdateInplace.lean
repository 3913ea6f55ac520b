import AdDelivery.Common.NumericRangePropertyTable
import AdDelivery.IndexWorker.SCDDoc
import Mathlib.Algebra.Ring.Int.Defs

/-!
# Updates in place

An update in place is a list of items, each of which adds to the value of one property. Every item
is computed from the stored value, and the results go into one document that is handed to the
common update. Of several items for one property the last one decides.
-/

namespace AdDelivery.IndexWorker

open List Finmap Option
open Common (Bytes)
open PropertyTables (Text IntType intText decimalOf decimalConversions)

/-- The types of properties, in so far as the update tells them apart. -/
inductive PropertyDataType
  | int8
  | int16
  | int32
  | int64
  | datetime
  | float
  | double
  | other
  deriving DecidableEq

inductive InplaceType
  | integer
  | float
  | double
  deriving DecidableEq

def PropertyDataType.inplaceType : PropertyDataType → Option InplaceType
  | .int8 | .int16 | .int32 | .int64 | .datetime => some .integer
  | .float => some .float
  | .double => some .double
  | .other => none

structure InplaceProperty where
  propertyType : PropertyDataType
  bRange : Bool := false

/-- An item with the keys that it has. -/
structure InplaceItem where
  property : Option String
  op : Option Text
  opvalue : Option Text

/-- A request; without a list there is nothing to update. -/
structure InplaceRequest where
  docid : Text
  update : Option (List InplaceItem)

/-- What the update reads: the ids, the stored values, the schema of the index. The casts are left
open; `lexicalCastInt64` and `addReal` are none where a cast throws. -/
structure InplaceWorker (ω : Type*) where
  isValid : Bool
  getDocIdByDocName : Text → Option ℕ
  getPropertyValue : ℕ → String → Option (PropertyValue ω)
  indexSchema : String → Option InplaceProperty
  propstrToStr : Bytes → Text
  lexicalCastInt64 : Text → Option ℤ
  addReal : InplaceType → Text → Text → Option Text

/-- An item is refused, or ends the update by an exception that is not caught. -/
inductive InplaceFailure
  | refused
  | badGet
  deriving DecidableEq

/-- The update returns false, is left by an exception, or goes on with a document. -/
inductive InplaceOutcome
  | refused
  | badGet
  | updateDocument (newDocument : Table String Text)

/-- The sum of two numbers of 64 bits. -/
def wrapInt64 (v : ℤ) : ℤ := (v + 9223372036854775808) % 18446744073709551616 - 9223372036854775808

namespace InplaceWorker

variable {ω : Type*} (worker : InplaceWorker ω)

def add (inplaceType : InplaceType) (oldvalue opvalue : Text) : Option Text :=
  match inplaceType with
  | .integer => do
    let old ← worker.lexicalCastInt64 oldvalue
    let op ← worker.lexicalCastInt64 opvalue
    return intText (wrapInt64 (old + op))
  | _ => worker.addReal inplaceType oldvalue opvalue

/-- A number that is not there counts as zero. -/
def oldvalueStr (value : Bytes) : Text :=
  if worker.propstrToStr value = [] then ['0'] else worker.propstrToStr value

/-- How a property is updated, unless it does not support that. -/
def inplaceTypeOf (propname : String) : Option InplaceType :=
  match worker.indexSchema propname with
  | none => none
  | some property => if property.bRange then none else property.propertyType.inplaceType

/-- The entry that one item makes. -/
def itemEntry (docid : ℕ) (item : InplaceItem) : Except InplaceFailure (String × Text) :=
  match item.property, item.op, item.opvalue with
  | some propname, some op, some opvalue =>
    match worker.getPropertyValue docid propname with
    | none => .error .refused
    | some oldvalue =>
      match worker.inplaceTypeOf propname with
      | none => .error .refused
      | some inplaceType =>
        match oldvalue.getPropertyStrValue with
        | none => .error .badGet
        | some value =>
          if op = ['a', 'd', 'd'] then
            match worker.add inplaceType (worker.oldvalueStr value) opvalue with
            | none => .error .refused
            | some newPropvalue => .ok (propname, newPropvalue)
          else .error .refused
  | _, _, _ => .error .refused

/-- The loop over the items. -/
def updateItems (docid : ℕ) (items : List InplaceItem) (newDocument : Table String Text) :
    Except InplaceFailure (Table String Text) :=
  items.foldlM (fun newDocument item => do
    let entry ← worker.itemEntry docid item
    return newDocument.insert entry.1 entry.2) newDocument

def updateDocumentInplace (request : InplaceRequest) : InplaceOutcome :=
  if !worker.isValid then .refused
  else
    match worker.getDocIdByDocName request.docid with
    | none => .refused
    | some docid =>
      match request.update with
      | none => .refused
      | some [] => .refused
      | some (item :: items) =>
        match worker.updateItems docid (item :: items)
            (insert "DOCID" request.docid ∅) with
        | .error .refused => .refused
        | .error .badGet => .badGet
        | .ok newDocument => .updateDocument newDocument

/-- The stored number of a property. -/
def oldNumber (docid : ℕ) (propname : String) : Option ℤ :=
  ((worker.getPropertyValue docid propname).bind PropertyValue.getPropertyStrValue).bind
    fun value => worker.lexicalCastInt64 (worker.oldvalueStr value)

/-- The numbers that the items give for a property. -/
def opvalues (items : List InplaceItem) (propname : String) : List ℤ :=
  items.filterMap fun item =>
    if item.property = some propname then item.opvalue.bind worker.lexicalCastInt64 else none

/-- A property with its stored number, that the items name, with a sum in the range. -/
structure Summed (docid : ℕ) (items : List InplaceItem) (propname : String) (old : ℤ) : Prop where
  named : ∃ item ∈ items, item.property = some propname
  integer : worker.inplaceTypeOf propname = some .integer
  stored : worker.oldNumber docid propname = some old
  inRange : IntType.int64.InRange (old + (worker.opvalues items propname).sum)

/-- The update is refused, or hands over the sums and nothing else. -/
def AddsUp (request : InplaceRequest) : Prop :=
  match worker.updateDocumentInplace request with
  | .refused => True
  | .badGet => False
  | .updateDocument newDocument =>
    ∀ docid items, worker.getDocIdByDocName request.docid = some docid →
      request.update = some items →
      (∀ propname old, worker.Summed docid items propname old →
        newDocument.lookup propname = some (intText (old + (worker.opvalues items propname).sum))) ∧
      ∀ propname ∈ newDocument,
        propname = "DOCID" ∨ ∃ item ∈ items, item.property = some propname

variable {worker} {docid : ℕ} {item : InplaceItem} {entry : String × Text}

theorem itemEntry_eq_ok (h : worker.itemEntry docid item = .ok entry) :
    item.property = some entry.1 ∧ ∃ opvalue inplaceType value,
        item.opvalue = some opvalue ∧ worker.inplaceTypeOf entry.1 = some inplaceType ∧
        (worker.getPropertyValue docid entry.1).bind PropertyValue.getPropertyStrValue =
          some value ∧
        worker.add inplaceType (worker.oldvalueStr value) opvalue = some entry.2 := by
  rw [itemEntry] at h
  split at h
  · next propname op opvalue hproperty hop hopvalue =>
    split at h
    · cases h
    · next oldvalue hold =>
      split at h
      · cases h
      · next inplaceType htype =>
        split at h
        · cases h
        · next value hvalue =>
          split at h
          · split at h
            · cases h
            · next newPropvalue hadd =>
              cases h
              refine ⟨hproperty, opvalue, inplaceType, value, hopvalue, htype, ?_, hadd⟩
              rw [hold]
              exact hvalue
          · cases h
  · cases h

variable {propname : String}

theorem itemEntry_of_add {opvalue newPropvalue : Text} {inplaceType : InplaceType} {value : Bytes}
    (hstored : worker.getPropertyValue docid propname = some (.str value))
    (htype : worker.inplaceTypeOf propname = some inplaceType)
    (hadd : worker.add inplaceType (worker.oldvalueStr value) opvalue = some newPropvalue) :
    worker.itemEntry docid ⟨some propname, some ['a', 'd', 'd'], some opvalue⟩ =
      .ok (propname, newPropvalue) := by
  simp [itemEntry, hstored, htype, PropertyValue.getPropertyStrValue, hadd]

/-- For a number, the entry is the sum of what is stored and what the item gives. -/
theorem itemEntry_integer (h : worker.itemEntry docid item = .ok entry)
    (hinteger : worker.inplaceTypeOf entry.1 = some .integer) :
    ∃ old op, worker.oldNumber docid entry.1 = some old ∧
      item.opvalue.bind worker.lexicalCastInt64 = some op ∧
      entry.2 = intText (wrapInt64 (old + op)) := by
  obtain ⟨-, opvalue, inplaceType, value, hopvalue, htype, hvalue, hadd⟩ := itemEntry_eq_ok h
  obtain rfl := some.inj (hinteger.symm.trans htype)
  obtain ⟨old, hold, hrest⟩ := bind_eq_some_iff.mp hadd
  obtain ⟨op, hop, hsum⟩ := bind_eq_some_iff.mp hrest
  refine ⟨old, op, ?_, ?_, (some.inj hsum).symm⟩
  · rw [oldNumber, hvalue, bind_some, hold]
  · rw [hopvalue, bind_some, hop]

/-- The first item that makes no entry ends the loop. -/
def Fails (worker : InplaceWorker ω) (docid : ℕ) (items : List InplaceItem)
    (failure : InplaceFailure) : Prop :=
  ∃ before item after, items = before ++ item :: after ∧
    (∀ other ∈ before, ∃ entry, worker.itemEntry docid other = .ok entry) ∧
    worker.itemEntry docid item = .error failure

theorem updateItems_cons_ok (hentry : worker.itemEntry docid item = .ok entry)
    (items : List InplaceItem) (newDocument : Table String Text) :
    worker.updateItems docid (item :: items) newDocument =
      worker.updateItems docid items (newDocument.insert entry.1 entry.2) := by
  rw [updateItems, foldlM_cons, hentry]
  rfl

variable {failure : InplaceFailure}

theorem updateItems_cons_error (hentry : worker.itemEntry docid item = .error failure)
    (items : List InplaceItem) (newDocument : Table String Text) :
    worker.updateItems docid (item :: items) newDocument = .error failure := by
  rw [updateItems, foldlM_cons, hentry]
  rfl

theorem Fails.cons (hentry : worker.itemEntry docid item = .ok entry) {items : List InplaceItem} :
    worker.Fails docid (item :: items) failure ↔ worker.Fails docid items failure := by
  constructor
  · rintro ⟨before, other, after, heq, hbefore, hother⟩
    cases before with
    | nil =>
      obtain ⟨rfl, rfl⟩ := List.cons.inj heq
      rw [hentry] at hother
      cases hother
    | cons first before =>
      obtain ⟨rfl, rfl⟩ := List.cons.inj heq
      exact ⟨before, other, after, rfl, fun other hmem => hbefore other (by simp [hmem]), hother⟩
  · rintro ⟨before, other, after, rfl, hbefore, hother⟩
    refine ⟨item :: before, other, after, rfl, ?_, hother⟩
    rw [forall_mem_cons]
    exact ⟨⟨entry, hentry⟩, hbefore⟩

theorem updateItems_eq_error_iff {items : List InplaceItem} (newDocument : Table String Text) :
    worker.updateItems docid items newDocument = .error failure ↔
      worker.Fails docid items failure := by
  induction items generalizing newDocument with
  | nil =>
    constructor
    · intro h
      cases h
    · rintro ⟨before, item, after, heq, -⟩
      exact absurd heq (by simp)
  | cons item items ih =>
    cases hentry : worker.itemEntry docid item with
    | error found =>
      rw [updateItems_cons_error hentry]
      constructor
      · intro h
        cases h
        exact ⟨[], item, items, rfl, nofun, hentry⟩
      · rintro ⟨before, other, after, heq, hbefore, hother⟩
        cases before with
        | nil =>
          obtain ⟨rfl, rfl⟩ := List.cons.inj heq
          rw [hentry] at hother
          cases hother
          rfl
        | cons first before =>
          obtain ⟨rfl, rfl⟩ := List.cons.inj heq
          obtain ⟨entry, hok⟩ := hbefore item mem_cons_self
          rw [hentry] at hok
          cases hok
    | ok entry =>
      rw [updateItems_cons_ok hentry, ih]
      exact (Fails.cons hentry).symm

/-- A loop that goes to its end has entered what the items make, one after another. -/
theorem updateItems_eq_ok {items : List InplaceItem} {newDocument result : Table String Text}
    (h : worker.updateItems docid items newDocument = .ok result) :
    ∃ entries, List.Forall₂ (fun item entry => worker.itemEntry docid item = .ok entry) items
        entries ∧ result = entries.foldl (fun d entry => insert entry.1 entry.2 d) newDocument := by
  induction items generalizing newDocument with
  | nil =>
    cases h
    exact ⟨[], .nil, rfl⟩
  | cons item items ih =>
    cases hentry : worker.itemEntry docid item with
    | error failure =>
      rw [updateItems_cons_error hentry] at h
      cases h
    | ok entry =>
      rw [updateItems_cons_ok hentry] at h
      obtain ⟨entries, hentries, rfl⟩ := ih h
      exact ⟨entry :: entries, .cons hentry hentries, rfl⟩

/-- The texts that are entered for a property, in their order. -/
def textsOf (entries : List (String × Text)) (propname : String) : List Text :=
  (entries.filter fun entry => entry.1 = propname).map Prod.snd

/-- The last text stays. -/
theorem lookup_foldl_insert_texts (entries : List (String × Text)) (propname : String)
    (newDocument : Table String Text) :
    (entries.foldl (fun d entry => insert entry.1 entry.2 d) newDocument).lookup propname =
      (textsOf entries propname).getLast?.or (newDocument.lookup propname) :=
  Table.lookup_foldl_insert_getLast? entries newDocument propname

variable {items : List InplaceItem} {entries : List (String × Text)}
  (hentries : List.Forall₂ (fun item entry => worker.itemEntry docid item = .ok entry) items
    entries)
include hentries

theorem textsOf_eq {old : ℤ} (hinteger : worker.inplaceTypeOf propname = some .integer)
    (hold : worker.oldNumber docid propname = some old) : textsOf entries propname =
      (worker.opvalues items propname).map fun op => intText (wrapInt64 (old + op)) := by
  induction hentries with
  | nil => rfl
  | @cons item entry items entries hentry _ ih =>
    obtain ⟨hproperty, -⟩ := itemEntry_eq_ok hentry
    by_cases hname : entry.1 = propname
    · subst hname
      obtain ⟨old', op, hold', hop, htext⟩ := itemEntry_integer hentry hinteger
      obtain rfl := some.inj (hold.symm.trans hold')
      have htexts : textsOf (entry :: entries) entry.1 =
          entry.2 :: textsOf entries entry.1 := by simp [textsOf]
      have hopvalues : worker.opvalues (item :: items) entry.1 =
          op :: worker.opvalues items entry.1 := by
        simp [opvalues, hproperty, hop]
      rw [htexts, hopvalues, map_cons, ih, htext]
    · have htexts : textsOf (entry :: entries) propname = textsOf entries propname := by
        simp [textsOf, hname]
      have hopvalues :
          worker.opvalues (item :: items) propname = worker.opvalues items propname := by
        simp [opvalues, hproperty, hname]
      rw [htexts, hopvalues, ih]

theorem mem_entries_iff :
    (∃ entry ∈ entries, entry.1 = propname) ↔ ∃ item ∈ items, item.property = some propname := by
  induction hentries with
  | nil => simp
  | @cons item entry items entries hentry _ ih =>
    obtain ⟨hproperty, -⟩ := itemEntry_eq_ok hentry
    simp only [exists_mem_cons_iff, hproperty, some.injEq, ih]

/-- A property that is named has an entry for each of its items. -/
theorem opvalues_ne_nil {old : ℤ} (hinteger : worker.inplaceTypeOf propname = some .integer)
    (hold : worker.oldNumber docid propname = some old)
    (hnamed : ∃ item ∈ items, item.property = some propname) :
    worker.opvalues items propname ≠ [] := by
  obtain ⟨entry, hmem, hname⟩ := (mem_entries_iff hentries).mpr hnamed
  intro hnil
  have htexts := textsOf_eq hentries hinteger hold
  rw [hnil, map_nil, textsOf, map_eq_nil_iff, filter_eq_nil_iff] at htexts
  exact htexts entry hmem (decide_eq_true hname)

omit hentries in
theorem intText_injective {v w : ℤ} (h : intText v = intText w) : v = w := by
  have hdecimal := congrArg decimalOf h
  rwa [PropertyTables.decimalOf_intText, PropertyTables.decimalOf_intText, some.injEq]
    at hdecimal

omit hentries in
/-- The sum with the last number alone is the whole sum if the other ones vanish. -/
theorem wrapInt64_eq_iff {old others last : ℤ}
    (hrange : IntType.int64.InRange (old + (others + last))) :
    wrapInt64 (old + last) = old + (others + last) ↔ 18446744073709551616 ∣ others := by
  have hlow : -9223372036854775808 ≤ old + (others + last) := hrange.1
  have hhigh : old + (others + last) ≤ 9223372036854775807 := hrange.2
  rw [wrapInt64]
  omega

/-- What is handed over for a property is its sum if and only if all its numbers but the last one
add up to zero. -/
theorem lookup_eq_sum_iff {old : ℤ} (newDocument : Table String Text)
    (hsummed : worker.Summed docid items propname old) :
    (entries.foldl (fun d entry => insert entry.1 entry.2 d) newDocument).lookup propname =
        some (intText (old + (worker.opvalues items propname).sum)) ↔
      18446744073709551616 ∣ (worker.opvalues items propname).dropLast.sum := by
  have hne := opvalues_ne_nil hentries hsummed.integer hsummed.stored hsummed.named
  have hrange := hsummed.inRange
  have hsum : (worker.opvalues items propname).sum =
      (worker.opvalues items propname).dropLast.sum +
        (worker.opvalues items propname).getLast hne := by
    conv_lhs => rw [← dropLast_append_getLast hne]
    rw [sum_append, sum_singleton]
  rw [hsum] at hrange ⊢
  rw [lookup_foldl_insert_texts, textsOf_eq hentries hsummed.integer hsummed.stored,
    getLast?_map, getLast?_eq_some_getLast hne, map_some, some_or, some.injEq]
  constructor
  · intro h
    exact (wrapInt64_eq_iff hrange).mp (intText_injective h)
  · intro h
    rw [(wrapInt64_eq_iff hrange).mpr h]

/-- Nothing but the DOCID and what the items name is handed over. -/
theorem mem_foldl_insert {docidText : Text} (hmem : propname ∈ entries.foldl
      (fun (d : Table String Text) entry => insert entry.1 entry.2 d)
      (insert "DOCID" docidText ∅)) :
    propname = "DOCID" ∨ ∃ item ∈ items, item.property = some propname := by
  obtain ⟨text, htext⟩ := mem_iff.mp hmem
  rw [lookup_foldl_insert_texts, or_eq_some_iff] at htext
  rcases htext with htext | ⟨-, htext⟩
  · right
    obtain ⟨entry, hentry, -⟩ := mem_map.mp (mem_of_getLast? htext)
    obtain ⟨hentry, hname⟩ := mem_filter.mp hentry
    exact (mem_entries_iff hentries).mp ⟨entry, hentry, of_decide_eq_true hname⟩
  · left
    rw [Table.lookup_insert_eq] at htext
    by_contra hne
    rw [if_neg hne] at htext
    cases htext

end InplaceWorker

namespace InplaceWorker

variable {ω : Type*} (worker : InplaceWorker ω)

/-- The update returns false before it looks at an item. -/
def RefusesRequest (request : InplaceRequest) : Prop :=
  worker.isValid = false ∨ worker.getDocIdByDocName request.docid = none ∨
    request.update = none ∨ request.update = some []

/-- The first item that makes no entry is one that is refused, or all items make an entry and for
each property, all its numbers but the last one add up to zero. -/
def LastDecides (request : InplaceRequest) : Prop :=
  ∀ docid items, worker.getDocIdByDocName request.docid = some docid →
    request.update = some items →
    worker.Fails docid items .refused ∨
      ¬worker.Fails docid items .badGet ∧
        ∀ propname old, worker.Summed docid items propname old →
          18446744073709551616 ∣ (worker.opvalues items propname).dropLast.sum

variable {worker} {docid : ℕ} {request : InplaceRequest}

theorem not_refusesRequest (h : ¬worker.RefusesRequest request) :
    ∃ docid item items, worker.isValid = true ∧
      worker.getDocIdByDocName request.docid = some docid ∧
      request.update = some (item :: items) := by
  simp only [RefusesRequest, not_or, Bool.not_eq_false] at h
  obtain ⟨hvalid, hdocid, hnone, hnil⟩ := h
  obtain ⟨docid, hdocid⟩ := ne_none_iff_exists'.mp hdocid
  obtain ⟨update, hupdate⟩ := ne_none_iff_exists'.mp hnone
  cases update with
  | nil => exact absurd hupdate hnil
  | cons item items => exact ⟨docid, item, items, hvalid, hdocid, hupdate⟩

theorem updateDocumentInplace_eq {item : InplaceItem} {items : List InplaceItem}
    (hvalid : worker.isValid = true) (hdocid : worker.getDocIdByDocName request.docid = some docid)
    (hupdate : request.update = some (item :: items)) : worker.updateDocumentInplace request =
      match worker.updateItems docid (item :: items) (insert "DOCID" request.docid ∅) with
      | .error .refused => .refused
      | .error .badGet => .badGet
      | .ok newDocument => .updateDocument newDocument := by
  simp only [updateDocumentInplace, hvalid, hdocid, hupdate, Bool.not_true, Bool.false_eq_true,
    if_false]

theorem updateDocumentInplace_of_refuses (h : worker.RefusesRequest request) :
    worker.updateDocumentInplace request = .refused := by
  rw [updateDocumentInplace]
  rcases h with hvalid | hdocid | hupdate | hupdate
  · simp [hvalid]
  · simp [hdocid]
  all_goals
    simp only [hupdate]
    split
    · rfl
    · split <;> rfl

/-- Updates in place add up if and only if the request is refused, or the last number of each
property is the only one that counts. -/
theorem addsUp_iff (worker : InplaceWorker ω) (request : InplaceRequest) :
    worker.AddsUp request ↔ worker.RefusesRequest request ∨ worker.LastDecides request := by
  by_cases hrefuses : worker.RefusesRequest request
  · rw [AddsUp, updateDocumentInplace_of_refuses hrefuses]
    exact iff_of_true trivial (.inl hrefuses)
  · obtain ⟨docid, item, items, hvalid, hdocid, hupdate⟩ := not_refusesRequest hrefuses
    have hlast : worker.LastDecides request ↔
        worker.Fails docid (item :: items) .refused ∨
          ¬worker.Fails docid (item :: items) .badGet ∧
            ∀ propname old, worker.Summed docid (item :: items) propname old →
              18446744073709551616 ∣ (worker.opvalues (item :: items) propname).dropLast.sum := by
      simp only [LastDecides, hdocid, hupdate, some.injEq, forall_eq', forall_apply_eq_imp_iff]
    have hno {failure failure' : InplaceFailure}
        (herror : worker.Fails docid (item :: items) failure) (hne : failure ≠ failure') :
        ¬worker.Fails docid (item :: items) failure' := by
      intro herror'
      have heq := ((updateItems_eq_error_iff ∅).mpr herror).symm.trans
        ((updateItems_eq_error_iff ∅).mpr herror')
      exact hne (Except.error.inj heq)
    rw [AddsUp, updateDocumentInplace_eq hvalid hdocid hupdate, hlast, or_iff_right hrefuses]
    cases hitems : worker.updateItems docid (item :: items)
        (insert "DOCID" request.docid ∅) with
    | error failure =>
      have hfails := (updateItems_eq_error_iff _).mp hitems
      cases failure with
      | refused => exact iff_of_true trivial (.inl hfails)
      | badGet =>
        refine iff_of_false not_false ?_
        rintro (hrefused | ⟨hnot, -⟩)
        · exact hno hrefused (by decide) hfails
        · exact hnot hfails
    | ok newDocument =>
      obtain ⟨entries, hentries, rfl⟩ := updateItems_eq_ok hitems
      have hnever (failure : InplaceFailure) :
          ¬worker.Fails docid (item :: items) failure := by
        intro hfails
        have herror := (updateItems_eq_error_iff (insert "DOCID" request.docid ∅)).mpr hfails
        rw [hitems] at herror
        cases herror
      rw [or_iff_right (hnever _), and_iff_right (hnever _)]
      constructor
      · intro h propname old hsummed
        exact (lookup_eq_sum_iff hentries _ hsummed).mp
          ((h docid (item :: items) hdocid hupdate).1 propname old hsummed)
      · intro h docid' items' hdocid' hupdate'
        obtain rfl := some.inj (hdocid.symm.trans hdocid')
        obtain rfl := some.inj (hupdate.symm.trans hupdate')
        exact ⟨fun propname old hsummed =>
          (lookup_eq_sum_iff hentries _ hsummed).mpr (h propname old hsummed),
          fun propname hmem => mem_foldl_insert hentries hmem⟩

/-- One document with one number, which is ten. -/
def tenWorker : InplaceWorker ℕ where
  isValid := true
  getDocIdByDocName _ := some 1
  getPropertyValue _ propname := if propname = "Count" then some (.str [49, 48]) else none
  indexSchema _ := some { propertyType := .int32 }
  propstrToStr bytes := bytes.map fun byte => Char.ofNat byte.toNat
  lexicalCastInt64 := decimalConversions.lexicalCast .int64
  addReal _ _ _ := none

/-- Add one, then add two. -/
def threeItems : List InplaceItem :=
  [⟨some "Count", some ['a', 'd', 'd'], some ['1']⟩,
    ⟨some "Count", some ['a', 'd', 'd'], some ['2']⟩]

/-- The result is twelve, and not thirteen. -/
theorem not_addsUp_twice :
    ¬∀ (worker : InplaceWorker ℕ) (request : InplaceRequest), worker.AddsUp request := by
  intro h
  have hone : tenWorker.itemEntry 1 ⟨some "Count", some ['a', 'd', 'd'], some ['1']⟩ =
      .ok ("Count", ['1', '1']) :=
    itemEntry_of_add rfl rfl (by decide)
  have htwo : tenWorker.itemEntry 1 ⟨some "Count", some ['a', 'd', 'd'], some ['2']⟩ =
      .ok ("Count", ['1', '2']) :=
    itemEntry_of_add rfl rfl (by decide)
  have hrun : tenWorker.updateDocumentInplace ⟨['a'], some threeItems⟩ =
      .updateDocument (insert "Count" ['1', '2']
        (insert "Count" ['1', '1'] (insert "DOCID" ['a'] ∅))) := by
    rw [updateDocumentInplace_eq rfl rfl rfl, updateItems_cons_ok hone,
      updateItems_cons_ok htwo]
    rfl
  have htwice := h tenWorker ⟨['a'], some threeItems⟩
  have hsummed : tenWorker.Summed 1 threeItems "Count" 10 := by
    refine ⟨⟨_, mem_cons_self, rfl⟩, rfl, by decide, by decide⟩
  have hcount := (htwice 1 threeItems rfl rfl).1 "Count" 10 hsummed
  exact absurd hcount (by decide)

end InplaceWorker

end AdDelivery.IndexWorker
