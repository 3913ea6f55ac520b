import AdDelivery.AttrManager.AttrCounter
import AdDelivery.GroupManager.StringGroupCounter

/-!
# Labels and counters of a request

A filter tests each document against the labels of a request. A document that satisfies all of
them is counted everywhere; one that fails a single label is still counted for the property or
the attribute name of this label, so that what is selected there does not change what it lists.
-/

namespace AdDelivery.GroupManager

open List
open AttrManager (AttrTable AttrLabel AttrCounter)

/-- The virtual functions of a counter for a property. -/
class GroupCounter (C : Type) where
  addDoc : C → BitVec 32 → C

/-- The virtual functions of a counter for attributes. -/
class AttrCounts (D : Type) where
  addDoc : D → BitVec 32 → D
  addAttrDoc : D → ℕ → BitVec 32 → D

variable {UString Param C D E : Type} [Inhabited UString]

instance groupCounterString : GroupCounter (StringGroupCounter UString) where
  addDoc := StringGroupCounter.addDoc

instance attrCountsCounter : AttrCounts (AttrCounter UString) where
  addDoc := AttrCounter.addDoc
  addAttrDoc := AttrCounter.addAttrDoc

open AttrCounts

instance attrCountsSum [AttrCounts D] [AttrCounts E] : AttrCounts (D ⊕ E) where
  addDoc counter doc := counter.map (addDoc · doc) (addDoc · doc)
  addAttrDoc counter nId doc :=
    counter.map (addAttrDoc · nId doc) (addAttrDoc · nId doc)

/-- A label points to the counter of its property, if there is one. -/
structure GroupLabel where
  test : BitVec 32 → Bool
  counter : Option String := none

/-- Counters are found by the property that they were made for. -/
structure LabelFilter (C D UString : Type) [Inhabited UString] where
  groupLabels : List GroupLabel := []
  groupCounters : List (String × C) := []
  attrLabels : List (AttrLabel UString) := []
  attrCounter : Option D := none

/-- A loop over labels. It begins with the index of the label that failed before, if one did,
and ends early, without a result, at the second failure. -/
def labelLoop {α : Type} (test : α → Bool) : ℕ → List α → Option ℕ → Option (Option ℕ)
  | _, [], failIndex => some failIndex
  | i, label :: labels, failIndex =>
    if test label then labelLoop test (i + 1) labels failIndex
    else
      match failIndex with
      | some _ => none
      | none => labelLoop test (i + 1) labels (some i)

namespace LabelFilter

/-- Add a document to the counters of some properties. -/
def addGroupDoc [GroupCounter C] (filter : LabelFilter C D UString) (counts : String → Bool)
    (doc : BitVec 32) : LabelFilter C D UString :=
  { filter with
    groupCounters := filter.groupCounters.map fun entry =>
      if counts entry.1 then (entry.1, GroupCounter.addDoc entry.2 doc) else entry }

def test [GroupCounter C] [AttrCounts D] (filter : LabelFilter C D UString) (doc : BitVec 32) :
    Bool × LabelFilter C D UString :=
  match labelLoop (·.test doc) 0 filter.groupLabels none with
  | none => (false, filter)
  | some groupFail =>
    match labelLoop (·.test doc) 0 filter.attrLabels groupFail with
    | none => (false, filter)
    | some none =>
      let filter := filter.addGroupDoc (fun _ => true) doc
      (true, { filter with attrCounter := filter.attrCounter.map (addDoc · doc) })
    | some (some failIndex) =>
      if groupFail.isNone then
        -- fail in attr label
        match filter.attrLabels[failIndex]? with
        | none => (false, filter)
        | some label =>
          (false, { filter with
            attrCounter := filter.attrCounter.map
              (addAttrDoc · label.attrNameId doc) })
      else
        -- fail in group label
        match filter.groupLabels[failIndex]?.bind (·.counter) with
        | none => (false, filter)
        | some propName => (false, filter.addGroupDoc (fun name => decide (name = propName)) doc)

/-- Tests of documents, one after another. -/
def run [GroupCounter C] [AttrCounts D] (filter : LabelFilter C D UString) :
    List (BitVec 32) → List Bool × LabelFilter C D UString
  | [] => ([], filter)
  | doc :: docs =>
    let tested := filter.test doc
    let rest := run tested.2 docs
    (tested.1 :: rest.1, rest.2)

end LabelFilter

/-- The parameters of a request and what its labels and counters are made from. -/
structure LabelRequest (Param C E UString : Type) [Inhabited UString] where
  property : Param → String
  createGroupCounter : Param → Option C
  createGroupLabel : String × List (List String) → Option (BitVec 32 → Bool)
  groupProps : List Param
  groupLabels : Table String (List (List String))
  attrTable : AttrTable UString
  /-- The counter that sorts attributes by scores, where the request asks for it. -/
  attrScoreCounter : Option E := none
  isAttrGroup : Bool
  attrIterDocNum : ℤ := 0
  attrLabels : Table String (List String)

namespace LabelRequest

variable (request : LabelRequest Param C E UString)

/-- Counters are made once for each property. -/
def initCounters : List Param → List (String × C) → Option (List (String × C))
  | [], groupCounters => some groupCounters
  | prop :: groupProps, groupCounters =>
    let propName := request.property prop
    if groupCounters.any fun entry => decide (entry.1 = propName) then
      initCounters groupProps groupCounters
    else
      match request.createGroupCounter prop with
      | none => none
      | some counter => initCounters groupProps (groupCounters ++ [(propName, counter)])

/-- Labels point to the counters of their properties. -/
def initLabels (groupCounters : List (String × C)) :
    List (String × List (List String)) → Option (List GroupLabel)
  | [] => some []
  | labelParam :: labelParams =>
    match request.createGroupLabel labelParam with
    | none => none
    | some test =>
      let counter :=
        if groupCounters.any fun entry => decide (entry.1 = labelParam.1) then some labelParam.1
        else none
      (initLabels groupCounters labelParams).map ({ test, counter } :: ·)

def initGroup : Option (List (String × C) × List GroupLabel) :=
  (request.initCounters request.groupProps []).bind fun groupCounters =>
    (request.initLabels groupCounters request.groupLabels.inOrder).map fun groupLabels =>
      (groupCounters, groupLabels)

def initAttrCounter : Option (AttrCounter UString ⊕ E) :=
  if request.isAttrGroup then
    match request.attrScoreCounter with
    | some counter => some (.inr counter)
    | none => some (.inl { attrTable := request.attrTable, maxIterCount := request.attrIterDocNum })
  else none

def attrLabel [DecidableEq UString] (utf8 : Utf8 UString) (labelParam : String × List String) :
    AttrLabel UString :=
  AttrLabel.create request.attrTable (utf8.decode labelParam.1) (labelParam.2.map utf8.decode)

/-- The filter, if all counters and labels can be made. -/
def init [DecidableEq UString] (utf8 : Utf8 UString) :
    Option (LabelFilter C (AttrCounter UString ⊕ E) UString) :=
  request.initGroup.map fun group =>
    { groupCounters := group.1
      groupLabels := group.2
      attrCounter := request.initAttrCounter
      attrLabels := request.attrLabels.inOrder.map (request.attrLabel utf8) }

end LabelRequest

section LabelLoop

variable {α : Type} {test : α → Bool}

/-- The labels that a document fails. -/
def fails (test : α → Bool) (labels : List α) : List α := labels.filter fun label => !test label

variable {labels : List α}

theorem fails_eq_nil_iff : fails test labels = [] ↔ labels.all test = true := by
  rw [fails]
  simp

theorem all_eq_false_of_fails (h : fails test labels ≠ []) : labels.all test = false := by
  rw [← Bool.not_eq_true, ← fails_eq_nil_iff]
  exact h

theorem fails_ne_nil_of_two_le (h : 2 ≤ (fails test labels).length) : fails test labels ≠ [] := by
  apply ne_nil_of_length_pos
  omega

/-- A label may fail if it is excepted. -/
theorem all_or_eq_all_fails (except : α → Bool) (labels : List α) :
    (labels.all fun label => except label || test label) = (fails test labels).all except := by
  induction labels with
  | nil => rfl
  | cons label labels ih =>
    rw [fails, filter_cons, all_cons, ih]
    cases htest : test label with
    | true => rw [Bool.or_true]; rfl
    | false => rw [Bool.or_false]; rfl

theorem exists_of_two_le_length {l : List α} (h : 2 ≤ l.length) :
    ∃ a b rest, l = a :: b :: rest := by
  obtain ⟨a, rest, rfl⟩ := exists_cons_of_length_pos (Nat.lt_of_lt_of_le Nat.zero_lt_two h)
  obtain ⟨b, rest, rfl⟩ := exists_cons_of_length_pos (Nat.le_of_succ_le_succ h)
  exact ⟨a, b, rest, rfl⟩

theorem labelLoop_some (i : ℕ) (labels : List α) (failIndex : ℕ) :
    labelLoop test i labels (some failIndex) =
      if labels.all test then some (some failIndex) else none := by
  induction labels generalizing i with
  | nil => rfl
  | cons label labels ih =>
    rw [labelLoop, all_cons]
    cases htest : test label with
    | true => rw [if_pos rfl, ih, Bool.true_and]
    | false => rfl

/-- Which label has failed, if it is the only one. -/
theorem labelLoop_none (test : α → Bool) (i : ℕ) (labels : List α) :
    (labels.all test = true ∧ labelLoop test i labels none = some none) ∨
      (∃ (k : ℕ) (label : α), labels[k]? = some label ∧ fails test labels = [label] ∧
        labelLoop test i labels none = some (some (i + k))) ∨
      (2 ≤ (fails test labels).length ∧ labelLoop test i labels none = none) := by
  induction labels generalizing i with
  | nil => exact Or.inl ⟨rfl, rfl⟩
  | cons label labels ih =>
    rw [labelLoop, all_cons, fails, filter_cons]
    cases htest : test label with
    | true =>
      rw [if_pos rfl]
      rcases ih (i + 1) with hall | ⟨k, failed, hk, hfails, hloop⟩ | hmany
      · exact Or.inl hall
      · refine Or.inr (Or.inl ⟨k + 1, failed, hk, hfails, ?_⟩)
        rw [hloop, Nat.add_assoc, Nat.add_comm 1 k]
      · exact Or.inr (Or.inr hmany)
    | false =>
      simp only [Bool.false_and, Bool.false_eq_true, false_and, false_or, Bool.not_false, if_true,
        if_false]
      rw [labelLoop_some]
      split
      · rename_i hall
        refine Or.inl ⟨0, label, rfl, ?_, by rw [Nat.add_zero]⟩
        exact congrArg (label :: ·) (fails_eq_nil_iff.mpr hall)
      · rename_i hall
        refine Or.inr ⟨?_, rfl⟩
        exact Nat.succ_le_succ (length_pos_of_ne_nil fun hnil => hall (fails_eq_nil_iff.mp hnil))

end LabelLoop

namespace LabelFilter

/-- The document satisfies all labels. -/
def passes (filter : LabelFilter C D UString) (doc : BitVec 32) : Bool :=
  filter.groupLabels.all (·.test doc) && filter.attrLabels.all (·.test doc)

/-- The document satisfies all labels but those that point to the counter of the property. -/
def othersPass (filter : LabelFilter C D UString) (propName : String) (doc : BitVec 32) : Bool :=
  (filter.groupLabels.all fun label => decide (label.counter = some propName) || label.test doc) &&
    filter.attrLabels.all (·.test doc)

/-- How the document is counted for attributes: for all names, or for the one of the only label
that it fails. -/
def attrCall (filter : LabelFilter C D UString) (doc : BitVec 32) : Option (Option ℕ) :=
  if filter.groupLabels.all (·.test doc) then
    match fails (·.test doc) filter.attrLabels with
    | [] => some none
    | [label] => some (some label.attrNameId)
    | _ => none
  else none

/-- No two labels point to the same counter. -/
def DistinctCounters (filter : LabelFilter C D UString) : Prop :=
  (filter.groupLabels.filterMap (·.counter)).Nodup

@[simp] theorem addGroupDoc_false [GroupCounter C] (filter : LabelFilter C D UString)
    (doc : BitVec 32) : filter.addGroupDoc (fun _ => false) doc = filter := by
  simp [addGroupDoc]

variable {filter : LabelFilter C D UString} {doc : BitVec 32}

/-- Where one label has failed, the property it points to is the only one to be counted. -/
theorem othersPass_of_fails {failed : GroupLabel}
    (hfails : fails (·.test doc) filter.groupLabels = [failed]) (propName : String) :
    filter.othersPass propName doc =
      (decide (failed.counter = some propName) && filter.attrLabels.all (·.test doc)) := by
  rw [othersPass, all_or_eq_all_fails, hfails, all_cons, all_nil, Bool.and_true]

/-- Where two labels have failed, one of them points elsewhere. -/
theorem othersPass_of_two_fails (hdistinct : filter.DistinctCounters)
    (hfails : 2 ≤ (fails (·.test doc) filter.groupLabels).length) (propName : String) :
    filter.othersPass propName doc = false := by
  have hnodup : ((fails (·.test doc) filter.groupLabels).filterMap (·.counter)).Nodup :=
    hdistinct.sublist (filter_sublist.filterMap _)
  rw [othersPass, all_or_eq_all_fails]
  obtain ⟨a, b, rest, hlist⟩ := exists_of_two_le_length hfails
  rw [hlist] at hnodup ⊢
  by_cases ha : a.counter = some propName
  · by_cases hb : b.counter = some propName
    · rw [filterMap_cons_some ha, filterMap_cons_some hb] at hnodup
      exact absurd mem_cons_self (nodup_cons.mp hnodup).1
    · rw [all_cons, all_cons, decide_eq_false hb, Bool.false_and, Bool.and_false, Bool.false_and]
  · rw [all_cons, decide_eq_false ha, Bool.false_and, Bool.false_and]

variable [GroupCounter C] [AttrCounts D]

/-- A call of the counter for attributes. -/
def callAttr (counter : D) (nId? : Option ℕ) (doc : BitVec 32) : D :=
  match nId? with
  | none => addDoc counter doc
  | some nId => addAttrDoc counter nId doc

/-- What is counted after the test of a document. -/
def counted (filter : LabelFilter C D UString) (doc : BitVec 32) : LabelFilter C D UString :=
  { filter.addGroupDoc (filter.othersPass · doc) doc with
    attrCounter := filter.attrCounter.map fun counter =>
      match filter.attrCall doc with
      | none => counter
      | some nId? => callAttr counter nId? doc }

/-- A document that is counted nowhere. -/
theorem counted_eq_self (hothers : ∀ propName, filter.othersPass propName doc = false)
    (hattr : filter.attrCall doc = none) : filter.counted doc = filter := by
  rw [counted, funext hothers, hattr]
  cases filter with
  | mk groupLabels groupCounters attrLabels attrCounter => simp

omit [GroupCounter C] [AttrCounts D] in
theorem othersPass_of_attr {filter : LabelFilter C D UString} {doc : BitVec 32}
    (hattr : filter.attrLabels.all (·.test doc) = false) (propName : String) :
    filter.othersPass propName doc = false := by
  rw [othersPass, hattr, Bool.and_false]

omit [GroupCounter C] [AttrCounts D] in
theorem attrCall_of_group {filter : LabelFilter C D UString} {doc : BitVec 32}
    (hgroup : filter.groupLabels.all (·.test doc) = false) : filter.attrCall doc = none := by
  rw [attrCall, hgroup]
  rfl

omit [GroupCounter C] [AttrCounts D] in
theorem attrCall_of_two_fails {filter : LabelFilter C D UString} {doc : BitVec 32}
    (hfails : 2 ≤ (fails (·.test doc) filter.attrLabels).length) : filter.attrCall doc = none := by
  obtain ⟨a, b, rest, hlist⟩ := exists_of_two_le_length hfails
  rw [attrCall, hlist]
  split <;> rfl

/-- The labels of the properties are satisfied. -/
theorem test_of_groupLabels (hgroup : filter.groupLabels.all (·.test doc) = true)
    (hloop : labelLoop (·.test doc) 0 filter.groupLabels none = some none) :
    filter.test doc = (filter.passes doc, filter.counted doc) := by
  rw [test, passes, hloop, hgroup, Bool.true_and]
  simp only
  rcases labelLoop_none (·.test doc) 0 filter.attrLabels with
    ⟨hattr, hloop'⟩ | ⟨k, failed, hk, hfails, hloop'⟩ | ⟨hmany, hloop'⟩
  · -- the document satisfies all labels
    have hothers (propName : String) : filter.othersPass propName doc = true := by
      rw [othersPass, hattr, Bool.and_true, all_eq_true]
      intro label hlabel
      rw [all_eq_true.mp hgroup label hlabel, Bool.or_true]
    have hcall : filter.attrCall doc = some none := by
      rw [attrCall, if_pos hgroup, fails_eq_nil_iff.mpr hattr]
    rw [hloop', hattr, counted, funext hothers, hcall]
    rfl
  · -- it fails one label of an attribute
    have hattr : filter.attrLabels.all (·.test doc) = false :=
      all_eq_false_of_fails (hfails ▸ cons_ne_nil _ _)
    have hcall : filter.attrCall doc = some (some failed.attrNameId) := by
      rw [attrCall, if_pos hgroup, hfails]
    rw [hloop', hattr, counted, funext (othersPass_of_attr hattr), addGroupDoc_false, hcall,
      Nat.zero_add]
    simp only [Option.isNone_none, if_true, hk]
    rfl
  · have hattr : filter.attrLabels.all (·.test doc) = false :=
      all_eq_false_of_fails (fails_ne_nil_of_two_le hmany)
    rw [hloop', hattr, counted_eq_self (othersPass_of_attr hattr) (attrCall_of_two_fails hmany)]

/-- One label of a property fails. -/
theorem test_of_groupLabel_fails {k : ℕ} {failed : GroupLabel}
    (hk : filter.groupLabels[k]? = some failed)
    (hfails : fails (·.test doc) filter.groupLabels = [failed])
    (hloop : labelLoop (·.test doc) 0 filter.groupLabels none = some (some k)) :
    filter.test doc = (filter.passes doc, filter.counted doc) := by
  have hgroup : filter.groupLabels.all (·.test doc) = false :=
    all_eq_false_of_fails (hfails ▸ cons_ne_nil _ _)
  have hcall := attrCall_of_group hgroup
  rw [test, passes, hloop, hgroup, Bool.false_and]
  simp only [labelLoop_some]
  cases hattr : filter.attrLabels.all (·.test doc) with
  | false => rw [counted_eq_self (othersPass_of_attr hattr) hcall]; rfl
  | true =>
    have hothers := othersPass_of_fails hfails
    rw [hattr] at hothers
    simp only [if_true, Option.isNone_some, Bool.false_eq_true, if_false, hk, Option.bind_some]
    cases hcounter : failed.counter with
    | none =>
      rw [counted_eq_self (fun propName => ?_) hcall]
      rw [hothers, hcounter]
      rfl
    | some propName =>
      have hname (name : String) :
          filter.othersPass name doc = decide (name = propName) := by
        rw [hothers, hcounter, Bool.and_true]
        exact decide_eq_decide.mpr (Option.some.injEq propName name ▸ eq_comm)
      rw [counted, funext hname, hcall]
      simp [addGroupDoc]

theorem test_eq (hdistinct : filter.DistinctCounters) (doc : BitVec 32) :
    filter.test doc = (filter.passes doc, filter.counted doc) := by
  rcases labelLoop_none (·.test doc) 0 filter.groupLabels with
    ⟨hgroup, hloop⟩ | ⟨k, failed, hk, hfails, hloop⟩ | ⟨hmany, hloop⟩
  · exact test_of_groupLabels hgroup hloop
  · rw [Nat.zero_add] at hloop
    exact test_of_groupLabel_fails hk hfails hloop
  · have hgroup : filter.groupLabels.all (·.test doc) = false :=
      all_eq_false_of_fails (fails_ne_nil_of_two_le hmany)
    rw [test, passes, hloop, hgroup, Bool.false_and,
      counted_eq_self (othersPass_of_two_fails hdistinct hmany) (attrCall_of_group hgroup)]

theorem run_eq (hdistinct : filter.DistinctCounters) (docs : List (BitVec 32)) :
    filter.run docs = (docs.map filter.passes, { filter with
        groupCounters := filter.groupCounters.map fun entry =>
          (entry.1, (docs.filter (filter.othersPass entry.1)).foldl GroupCounter.addDoc entry.2)
        attrCounter := filter.attrCounter.map fun counter =>
          (docs.filterMap fun doc => (filter.attrCall doc).map fun nId? => (nId?, doc)).foldl
            (fun counter call => callAttr counter call.1 call.2) counter }) := by
  suffices hrun : ∀ docs (filter' : LabelFilter C D UString),
      filter'.groupLabels = filter.groupLabels → filter'.attrLabels = filter.attrLabels →
      filter'.run docs = (docs.map filter.passes, { filter with
          groupCounters := filter'.groupCounters.map fun entry =>
            (entry.1, (docs.filter (filter.othersPass entry.1)).foldl GroupCounter.addDoc entry.2)
          attrCounter := filter'.attrCounter.map fun counter =>
            (docs.filterMap fun doc => (filter.attrCall doc).map fun nId? => (nId?, doc)).foldl
              (fun counter call => callAttr counter call.1 call.2) counter }) from
    hrun docs filter rfl rfl
  intro docs
  induction docs with
  | nil =>
    rintro ⟨groupLabels, groupCounters, attrLabels, attrCounter⟩ hgroup hattr
    cases hgroup
    cases hattr
    simp [run]
  | cons doc docs ih =>
    intro filter' hgroup hattr
    have hpasses : filter'.passes = filter.passes := by
      ext doc
      rw [passes, passes, hgroup, hattr]
    have hothers : filter'.othersPass = filter.othersPass := by
      funext propName doc
      rw [othersPass, othersPass, hgroup, hattr]
    have hcall : filter'.attrCall = filter.attrCall := by
      ext doc
      rw [attrCall, attrCall, hgroup, hattr]
    have hdistinct' : filter'.DistinctCounters := by
      rw [DistinctCounters, hgroup]
      exact hdistinct
    rw [run, test_eq hdistinct', hpasses]
    rw [ih (filter'.counted doc) hgroup hattr]
    simp only [counted, addGroupDoc, hothers, hcall, List.map_map, Option.map_map, map_cons]
    congr 2
    · refine map_congr_left fun entry _ => ?_
      rw [Function.comp_apply, filter_cons]
      split <;> rfl
    · congr 1
      ext counter
      rw [filterMap_cons]
      cases filter.attrCall doc <;> rfl

end LabelFilter

open LabelFilter

namespace LabelRequest

variable (request : LabelRequest Param C E UString)

def groupTest (doc : BitVec 32) (labelParam : String × List (List String)) : Bool :=
  match request.createGroupLabel labelParam with
  | none => false
  | some test => test doc

section Attr

variable [DecidableEq UString] (utf8 : Utf8 UString)

def attrTest (doc : BitVec 32) (labelParam : String × List String) : Bool :=
  (request.attrLabel utf8 labelParam).test doc

/-- The document satisfies all labels. -/
def satisfied (doc : BitVec 32) : Bool :=
  request.groupLabels.inOrder.all (request.groupTest doc) &&
    request.attrLabels.inOrder.all (request.attrTest utf8 doc)

/-- The document satisfies every label on other properties. -/
def othersSatisfied (propName : String) (doc : BitVec 32) : Bool :=
  (request.groupLabels.inOrder.all fun labelParam =>
      decide (labelParam.1 = propName) || request.groupTest doc labelParam) &&
    request.attrLabels.inOrder.all (request.attrTest utf8 doc)

/-- The document satisfies every label on other attribute names. -/
def attrOthersSatisfied (attrName : String) (doc : BitVec 32) : Bool :=
  request.groupLabels.inOrder.all (request.groupTest doc) &&
    request.attrLabels.inOrder.all fun labelParam =>
      decide (labelParam.1 = attrName) || request.attrTest utf8 doc labelParam

/-- The document satisfies all labels but at most one on an attribute name. -/
def attrCalled (doc : BitVec 32) : Bool :=
  request.groupLabels.inOrder.all (request.groupTest doc) &&
    decide ((fails (request.attrTest utf8 doc) request.attrLabels.inOrder).length ≤ 1)

/-- The documents that attributes are taken from. -/
def attrDocs (docs : List (BitVec 32)) : List (BitVec 32) :=
  if request.attrIterDocNum = 0 then docs
  else (docs.filter (request.attrCalled utf8)).take request.attrIterDocNum.toNat

end Attr

variable {request}

theorem initLabels_eq {groupCounters : List (String × C)}
    {labelParams : List (String × List (List String))} {groupLabels : List GroupLabel}
    (h : request.initLabels groupCounters labelParams = some groupLabels) :
    groupLabels = labelParams.map fun labelParam =>
      { test := fun doc => request.groupTest doc labelParam
        counter :=
          if groupCounters.any fun entry => decide (entry.1 = labelParam.1) then
            some labelParam.1
          else none } := by
  induction labelParams generalizing groupLabels with
  | nil =>
    obtain rfl := Option.some.inj h
    rfl
  | cons labelParam labelParams ih =>
    rw [initLabels] at h
    cases hcreate : request.createGroupLabel labelParam with
    | none =>
      rw [hcreate] at h
      cases h
    | some test =>
      rw [hcreate] at h
      obtain ⟨rest, hrest, rfl⟩ := Option.map_eq_some_iff.mp h
      have htest : (fun doc => request.groupTest doc labelParam) = test := by
        ext doc
        rw [groupTest, hcreate]
      rw [map_cons, ← ih hrest, htest]

/-- Every property gets a counter. -/
theorem mem_of_initCounters {groupProps : List Param} {groupCounters result : List (String × C)}
    (h : request.initCounters groupProps groupCounters = some result) :
    (∀ entry ∈ groupCounters, entry ∈ result) ∧
      ∀ prop ∈ groupProps, ∃ counter, (request.property prop, counter) ∈ result := by
  induction groupProps generalizing groupCounters with
  | nil =>
    obtain rfl := Option.some.inj h
    exact ⟨fun _ => id, nofun⟩
  | cons prop groupProps ih =>
    rw [initCounters] at h
    split at h
    · rename_i hany
      obtain ⟨hkept, hprops⟩ := ih h
      refine ⟨hkept, fun prop' hprop' => ?_⟩
      rcases mem_cons.mp hprop' with rfl | hprop'
      · obtain ⟨⟨name, counter⟩, hentry, hname⟩ := any_eq_true.mp hany
        obtain rfl := of_decide_eq_true hname
        exact ⟨counter, hkept _ hentry⟩
      · exact hprops prop' hprop'
    · split at h
      · cases h
      · rename_i counter hcreate
        obtain ⟨hkept, hprops⟩ := ih h
        refine ⟨fun entry hentry => hkept entry (mem_append_left _ hentry), fun prop' hprop' => ?_⟩
        rcases mem_cons.mp hprop' with rfl | hprop'
        · exact ⟨counter, hkept _ (mem_append_right _ (mem_singleton_self _))⟩
        · exact hprops prop' hprop'

section Init

variable [DecidableEq UString] {utf8 : Utf8 UString}
  {filter : LabelFilter C (AttrCounter UString ⊕ E) UString}

section

variable (h : request.init utf8 = some filter)
include h

/-- What a filter is made of. -/
theorem init_eq : request.initCounters request.groupProps [] = some filter.groupCounters ∧
      request.initLabels filter.groupCounters request.groupLabels.inOrder =
        some filter.groupLabels ∧ filter.attrCounter = request.initAttrCounter ∧
      filter.attrLabels = request.attrLabels.inOrder.map (request.attrLabel utf8) := by
  obtain ⟨group, hgroup, rfl⟩ := Option.map_eq_some_iff.mp h
  obtain ⟨groupCounters, hcounters, hrest⟩ := Option.bind_eq_some_iff.mp hgroup
  obtain ⟨groupLabels, hlabels, rfl⟩ := Option.map_eq_some_iff.mp hrest
  exact ⟨hcounters, hlabels, rfl, rfl⟩

theorem distinctCounters_init : filter.DistinctCounters := by
  rw [DistinctCounters, initLabels_eq (init_eq h).2.1, filterMap_map]
  have hkeys : (request.groupLabels.inOrder.map Prod.fst).Nodup :=
    (Table.pairwise_inOrder _).imp ne_of_lt
  refine Nodup.sublist ?_ hkeys
  induction request.groupLabels.inOrder with
  | nil => exact Sublist.refl _
  | cons labelParam labelParams ih =>
    rw [filterMap_cons]
    by_cases hany : filter.groupCounters.any fun entry => decide (entry.1 = labelParam.1)
    · simp only [Function.comp_apply, hany, if_true]
      exact ih.cons_cons _
    · simp only [Function.comp_apply, hany]
      exact ih.cons _

theorem all_attrLabels (doc : BitVec 32) : filter.attrLabels.all (·.test doc) =
      request.attrLabels.inOrder.all (request.attrTest utf8 doc) := by
  rw [(init_eq h).2.2.2, all_map]
  rfl

theorem all_groupLabels (doc : BitVec 32) : filter.groupLabels.all (·.test doc) =
      request.groupLabels.inOrder.all (request.groupTest doc) := by
  rw [initLabels_eq (init_eq h).2.1, all_map]
  rfl

theorem passes_eq : filter.passes = request.satisfied utf8 := by
  ext doc
  rw [passes, satisfied, all_groupLabels h, all_attrLabels h]

theorem othersPass_eq {entry : String × C} (hentry : entry ∈ filter.groupCounters) :
    filter.othersPass entry.1 = request.othersSatisfied utf8 entry.1 := by
  ext doc
  rw [othersPass, all_attrLabels h, initLabels_eq (init_eq h).2.1,
    all_map]
  congr 1
  refine all_congr rfl fun labelParam => ?_
  have hcounter : (if filter.groupCounters.any fun entry => decide (entry.1 = labelParam.1) then
      some labelParam.1 else none) = some entry.1 ↔ labelParam.1 = entry.1 := by
    constructor
    · intro hsome
      split at hsome
      · exact Option.some.inj hsome
      · cases hsome
    · intro hname
      rw [if_pos, hname]
      exact any_eq_true.mpr ⟨entry, hentry, decide_eq_true hname.symm⟩
  rw [Function.comp_apply, decide_eq_decide.mpr hcounter]

end

variable {attrName : String}

/-- A known attribute name is told from all others by its id. -/
theorem attrNameId_attrLabel_iff (hwf : request.attrTable.WellFormed)
    (hknown : request.attrTable.nameId (utf8.decode attrName) ≠ 0)
    (labelParam : String × List String) : (request.attrLabel utf8 labelParam).attrNameId =
        request.attrTable.nameId (utf8.decode attrName) ↔ labelParam.1 = attrName := by
  constructor
  · intro hid
    have hfound {name : UString} {id : ℕ} (hname : request.attrTable.nameId name = id)
        (hne : id ≠ 0) : request.attrTable.nameStrVec[id]? = some name := by
      rw [AttrTable.nameId] at hname
      cases hlookup : request.attrTable.nameStrMap.lookup name with
      | none =>
        rw [hlookup] at hname
        exact absurd hname.symm hne
      | some id' =>
        rw [hlookup] at hname
        obtain rfl : id' = id := hname
        exact ((hwf.names name id').mp hlookup).2
    have hsame := (hfound hid hknown).symm.trans (hfound rfl hknown)
    rw [← utf8.convertString_decode labelParam.1, Option.some.inj hsame, utf8.convertString_decode]
  · rintro rfl
    rfl

theorem fails_attrLabels (h : request.init utf8 = some filter) (doc : BitVec 32) :
    fails (·.test doc) filter.attrLabels =
      (fails (request.attrTest utf8 doc) request.attrLabels.inOrder).map
        (request.attrLabel utf8) := by
  rw [(init_eq h).2.2.2, fails, filter_map]
  rfl

theorem isSome_attrCall (h : request.init utf8 = some filter) (doc : BitVec 32) :
    (filter.attrCall doc).isSome = request.attrCalled utf8 doc := by
  rw [attrCall, attrCalled, all_groupLabels h, fails_attrLabels h]
  cases request.groupLabels.inOrder.all (request.groupTest doc) with
  | false => rfl
  | true =>
    generalize fails (request.attrTest utf8 doc) request.attrLabels.inOrder = failed
    cases failed with
    | nil => rfl
    | cons a rest =>
      cases rest with
      | nil => rfl
      | cons b rest => simp

/-- For a known name, the document is counted if it satisfies the labels on other names. -/
theorem reaches_attrCall (hwf : request.attrTable.WellFormed) (h : request.init utf8 = some filter)
    (hknown : request.attrTable.nameId (utf8.decode attrName) ≠ 0) (doc : BitVec 32) :
    ((filter.attrCall doc).any fun nId? =>
        AttrCounter.reaches nId? (request.attrTable.nameId (utf8.decode attrName))) =
      request.attrOthersSatisfied utf8 attrName doc := by
  rw [attrCall, attrOthersSatisfied, all_groupLabels h, fails_attrLabels h,
    all_or_eq_all_fails]
  cases request.groupLabels.inOrder.all (request.groupTest doc) with
  | false => rfl
  | true =>
    have hkeys : (fails (request.attrTest utf8 doc) request.attrLabels.inOrder).Pairwise
        fun a b => a.1 ≠ b.1 :=
      ((pairwise_map.mp (Table.pairwise_inOrder _)).imp ne_of_lt).sublist
        filter_sublist
    rw [if_pos rfl, Bool.true_and]
    generalize fails (request.attrTest utf8 doc) request.attrLabels.inOrder = failed at hkeys ⊢
    cases failed with
    | nil => rfl
    | cons a rest =>
      cases rest with
      | nil =>
        rw [all_cons, all_nil, Bool.and_true, map_singleton, Option.any_some,
          Bool.eq_iff_iff, AttrCounter.reaches_some_iff, decide_eq_true_iff, eq_comm]
        exact attrNameId_attrLabel_iff hwf hknown a
      | cons b rest =>
        have hne : a.1 ≠ b.1 := (pairwise_cons.mp hkeys).1 b mem_cons_self
        rw [map_cons, map_cons, Option.any_none, all_cons, all_cons]
        by_cases ha : a.1 = attrName
        · have hb : ¬ b.1 = attrName := fun hb => hne (ha.trans hb.symm)
          rw [decide_eq_false hb, Bool.false_and, Bool.and_false]
        · rw [decide_eq_false ha, Bool.false_and]

/-- What is chosen under an excepted name does not matter. -/
theorem all_insert_inOrder {ν : Type} (m : Table String ν) (name : String) (v : ν)
    (test : String × ν → Bool) : ((Table.inOrder (Finmap.insert name v m)).all fun entry =>
        decide (entry.1 = name) || test entry) =
      m.inOrder.all fun entry => decide (entry.1 = name) || test entry := by
  rw [Bool.eq_iff_iff, all_eq_true, all_eq_true]
  simp only [Prod.forall, Table.mem_inOrder, Table.lookup_insert_eq]
  refine forall_congr' fun name' => ?_
  by_cases hname : name' = name
  · simp [hname]
  · rw [if_neg hname]

theorem othersSatisfied_insert (propName : String) (paths : List (List String)) : { request with
      groupLabels := Finmap.insert propName paths request.groupLabels }.othersSatisfied utf8
        propName = request.othersSatisfied utf8 propName := by
  ext doc
  rw [othersSatisfied]
  congr 1
  exact all_insert_inOrder request.groupLabels propName paths (request.groupTest doc)

theorem attrOthersSatisfied_insert (attrName : String) (values : List String) : { request with
      attrLabels := Finmap.insert attrName values request.attrLabels }.attrOthersSatisfied utf8
        attrName = request.attrOthersSatisfied utf8 attrName := by
  ext doc
  rw [attrOthersSatisfied]
  congr 1
  exact all_insert_inOrder request.attrLabels attrName values (request.attrTest utf8 doc)

/-- What a run of tests answers and counts. There is a plain attribute counter, from the first test
to the last, exactly where the request asks for one. The documents that are counted for a property
do not depend on what is chosen for it, nor do those for an attribute name when all documents are
taken. -/
structure MultiSelects (request : LabelRequest Param C E UString) (utf8 : Utf8 UString)
    [GroupCounter C] [AttrCounts E]
    (filter : LabelFilter C (AttrCounter UString ⊕ E) UString) (docs : List (BitVec 32)) :
    Prop where
  results : (filter.run docs).1 = docs.map (request.satisfied utf8)
  counters : ∀ prop ∈ request.groupProps, ∃ counter,
    (request.property prop, counter) ∈ filter.groupCounters
  groupCounts : (filter.run docs).2.groupCounters = filter.groupCounters.map fun entry =>
    (entry.1,
      (docs.filter (request.othersSatisfied utf8 entry.1)).foldl GroupCounter.addDoc entry.2)
  hasAttrCounter : (∃ counter, (filter.run docs).2.attrCounter = some (.inl counter)) ↔
    request.isAttrGroup = true ∧ request.attrScoreCounter.isNone = true
  attrCounts : ∀ counter, (filter.run docs).2.attrCounter = some (.inl counter) →
    ∀ attrName, request.attrTable.nameId (utf8.decode attrName) ≠ 0 →
      AttrCounter.Counted request.attrTable counter
        (request.attrTable.nameId (utf8.decode attrName))
        ((request.attrDocs utf8 docs).filter (request.attrOthersSatisfied utf8 attrName))
  ownLabel : ∀ propName paths,
    { request with
      groupLabels := Finmap.insert propName paths request.groupLabels }.othersSatisfied utf8
        propName = request.othersSatisfied utf8 propName
  ownAttrLabel : request.attrIterDocNum = 0 → ∀ attrName values,
    ({ request with
        attrLabels := Finmap.insert attrName values request.attrLabels }.attrDocs utf8 docs).filter
          ({ request with
            attrLabels := Finmap.insert attrName values
              request.attrLabels }.attrOthersSatisfied utf8 attrName) =
      (request.attrDocs utf8 docs).filter (request.attrOthersSatisfied utf8 attrName)

omit [DecidableEq UString] in
theorem foldl_callAttr_inl [AttrCounts E] (calls : List (Option ℕ × BitVec 32))
    (counter : AttrCounter UString) :
    calls.foldl (fun counter call => callAttr counter call.1 call.2)
        (.inl counter : AttrCounter UString ⊕ E) =
      .inl (calls.foldl (fun counter call => counter.call call.1 call.2) counter) := by
  induction calls generalizing counter with
  | nil => rfl
  | cons call calls ih =>
    rw [foldl_cons, foldl_cons, ← ih]
    congr 1
    cases call.1 <;> rfl

omit [DecidableEq UString] in
theorem foldl_callAttr_inr [AttrCounts E] (calls : List (Option ℕ × BitVec 32))
    (scoreCounter : E) (counter : AttrCounter UString) :
    calls.foldl (fun counter call => callAttr counter call.1 call.2)
        (.inr scoreCounter : AttrCounter UString ⊕ E) ≠ .inl counter := by
  induction calls generalizing scoreCounter with
  | nil => exact Sum.inr_ne_inl
  | cons call calls ih =>
    rw [foldl_cons]
    cases call.1 with
    | none => exact ih _
    | some nId => exact ih _

theorem filterMap_eq_map_filter {α β : Type*} (f : α → Option (Option β)) (l : List α) :
    (l.filterMap fun a => (f a).map fun b => (b, a)) =
      (l.filter fun a => (f a).isSome).map fun a => ((f a).join, a) := by
  induction l with
  | nil => rfl
  | cons a l ih =>
    rw [filterMap_cons, filter_cons]
    cases hfa : f a with
    | none => exact ih
    | some b =>
      simp only [Option.map_some, Option.isSome_some, if_true, map_cons, hfa, Option.join_some, ih]

/-- The documents that are counted for a known attribute name. -/
theorem filter_taken (hwf : request.attrTable.WellFormed) (h : request.init utf8 = some filter)
    (hknown : request.attrTable.nameId (utf8.decode attrName) ≠ 0) (docs : List (BitVec 32)) :
    ((({ attrTable := request.attrTable, maxIterCount := request.attrIterDocNum } :
        AttrCounter UString).taken (docs.filter fun doc => (filter.attrCall doc).isSome)).filter
        fun doc => AttrCounter.reaches (filter.attrCall doc).join
          (request.attrTable.nameId (utf8.decode attrName))) =
      (request.attrDocs utf8 docs).filter (request.attrOthersSatisfied utf8 attrName) := by
  have hsome : (fun doc => (filter.attrCall doc).isSome) = request.attrCalled utf8 :=
    funext (isSome_attrCall h)
  have hreaches {doc : BitVec 32} (hdoc : (filter.attrCall doc).isSome) :
      AttrCounter.reaches (filter.attrCall doc).join
          (request.attrTable.nameId (utf8.decode attrName)) =
        request.attrOthersSatisfied utf8 attrName doc := by
    rw [← reaches_attrCall hwf h hknown]
    obtain ⟨nId?, hcall⟩ := Option.isSome_iff_exists.mp hdoc
    rw [hcall]
    rfl
  rw [attrDocs, AttrCounter.taken]
  by_cases hzero : request.attrIterDocNum = 0
  · rw [if_pos hzero, if_pos hzero, filter_filter]
    refine filter_congr fun doc _ => ?_
    by_cases hdoc : (filter.attrCall doc).isSome
    · rw [hreaches hdoc, hdoc, Bool.and_true]
    · rw [← reaches_attrCall hwf h hknown, Option.not_isSome_iff_eq_none.mp hdoc]
      rfl
  · rw [if_neg hzero, if_neg hzero, ← hsome, sub_zero]
    refine filter_congr fun doc hdoc => hreaches ?_
    exact (mem_filter.mp (mem_of_mem_take hdoc)).2

/-- Every filter of a request answers which documents satisfy all labels, and counts for each
property and each known attribute name the documents that satisfy the labels elsewhere. -/
theorem multiSelects_of_init [GroupCounter C] [AttrCounts E]
    (hwf : request.attrTable.WellFormed) (h : request.init utf8 = some filter)
    (docs : List (BitVec 32)) : MultiSelects request utf8 filter docs := by
  have hrun := run_eq (distinctCounters_init h) docs
  constructor
  · rw [hrun, passes_eq h]
  · exact (mem_of_initCounters (init_eq h).1).2
  · rw [hrun]
    refine map_congr_left fun entry hentry => ?_
    rw [othersPass_eq h hentry]
  · rw [hrun, (init_eq h).2.2.1, initAttrCounter]
    cases request.isAttrGroup with
    | false => simp
    | true =>
      cases request.attrScoreCounter with
      | none => simp [foldl_callAttr_inl]
      | some scoreCounter =>
        refine iff_of_false ?_ (fun hasked => nomatch hasked.2)
        rintro ⟨counter, hcounter⟩
        exact foldl_callAttr_inr _ scoreCounter counter (Option.some.inj hcounter)
  · intro counter hcounter attrName hknown
    rw [hrun, (init_eq h).2.2.1, initAttrCounter] at hcounter
    split at hcounter
    · split at hcounter
      · rename_i scoreCounter _
        rw [Option.map_some, Option.some.injEq] at hcounter
        exact absurd hcounter (foldl_callAttr_inr _ scoreCounter counter)
      · rw [Option.map_some, foldl_callAttr_inl, Option.some.injEq, Sum.inl.injEq] at hcounter
        rw [← hcounter, filterMap_eq_map_filter, ← filter_taken hwf h hknown docs]
        exact AttrCounter.counted_foldl_call _ _ _ _ _
    · cases hcounter
  · exact othersSatisfied_insert
  · intro hzero attrName values
    rw [attrOthersSatisfied_insert, attrDocs, attrDocs, if_pos hzero, if_pos hzero]

end Init

/-- Two documents that are red, one of size M and one of size S. -/
def sizeColorTable : AttrTable String :=
  let table := ((({} : AttrTable String).open_ {}).insertNameId "color").1
  let table := (table.insertNameId "size").1
  let table := (table.insertValueId 1 "red").1
  let table := (table.insertValueId 1 "blue").1
  let table := (table.insertValueId 2 "S").1
  let table := (table.insertValueId 2 "M").1
  { table with
    valueIdTable :=
      { indexTable := [0, 0x80000000, 0x80000003], multiValueTable := [2, 1, 4, 2, 1, 3] } }

theorem wellFormed_sizeColorTable : sizeColorTable.WellFormed := by
  have hstart : (({} : AttrTable String).open_ {}).WellFormed :=
    AttrManager.AttrSession.sound_start.wellFormed
  have hcolor := hstart.of_insertNameId ⟨by decide, by decide⟩ "color"
  have hsize := hcolor.of_insertNameId ⟨by decide, by decide⟩ "size"
  have hred := hsize.of_insertValueId ⟨by decide, by decide⟩ (show 1 < _ by decide) "red"
  have hblue := hred.of_insertValueId ⟨by decide, by decide⟩ (show 1 < _ by decide) "blue"
  have hS := hblue.of_insertValueId ⟨by decide, by decide⟩ (show 2 < _ by decide) "S"
  have hM := hS.of_insertValueId ⟨by decide, by decide⟩ (show 2 < _ by decide) "M"
  exact ⟨hM.names, hM.values, hM.maps, hM.nameIds, hM.range, hM.namePos, hM.valuePos⟩

/-- Size S is selected, and attributes are counted for a number of documents. -/
def sizeRequest (attrIterDocNum : ℤ) :
    LabelRequest String (StringGroupCounter String) (AttrCounter String) String where
  property := id
  createGroupCounter _ := none
  createGroupLabel _ := none
  groupProps := []
  groupLabels := ∅
  attrTable := sizeColorTable
  isAttrGroup := true
  attrIterDocNum := attrIterDocNum
  attrLabels := Finmap.singleton "size" ["S"]

theorem multiSelects_sizeRequest :
    ∃ filter, (sizeRequest 0).init ⟨id, id, fun _ => rfl⟩ = some filter ∧
      (sizeRequest 0).MultiSelects ⟨id, id, fun _ => rfl⟩ filter [1, 2] := by
  have hsome : ((sizeRequest 0).init ⟨id, id, fun _ => rfl⟩).isSome := by decide
  obtain ⟨filter, hinit⟩ := Option.isSome_iff_exists.mp hsome
  exact ⟨filter, hinit, multiSelects_of_init wellFormed_sizeColorTable hinit [1, 2]⟩

/-- The count of the color after the two documents. -/
def colorCount (request : LabelRequest String (StringGroupCounter String) (AttrCounter String)
    String) : Option ℤ :=
  (request.init plainText).bind fun filter =>
    (filter.run [1, 2]).2.attrCounter.bind fun counter =>
      counter.getLeft?.map fun counter => counter.nameCount 1

/-- With a limit of one document, the first document takes it for its size, and the second one,
of size S, is not counted for its color. Were blue selected, too, it would be. -/
theorem not_counted_sizeRequest :
    (∃ filter counter, (sizeRequest 1).init ⟨id, id, fun _ => rfl⟩ = some filter ∧
      (filter.run [1, 2]).2.attrCounter = some (.inl counter) ∧
      ¬ AttrCounter.Counted sizeColorTable counter 1 ([1, 2].filter
          ((sizeRequest 1).attrOthersSatisfied ⟨id, id, fun _ => rfl⟩ "color"))) ∧
      colorCount (sizeRequest 1) ≠ colorCount { sizeRequest 1 with
          attrLabels := Finmap.insert "color" ["blue"] (Finmap.singleton "size" ["S"]) } := by
  have hcount : colorCount (sizeRequest 1) = some 0 := by decide
  refine ⟨?_, by decide⟩
  obtain ⟨filter, hinit, hrest⟩ := Option.bind_eq_some_iff.mp hcount
  obtain ⟨counter, hcounter, hleft⟩ := Option.bind_eq_some_iff.mp hrest
  cases counter with
  | inr counter => cases hleft
  | inl counter =>
    refine ⟨filter, counter, hinit, hcounter, fun hcounted => ?_⟩
    have hdocs : ([1, 2].filter
        ((sizeRequest 1).attrOthersSatisfied ⟨id, id, fun _ => rfl⟩ "color")).countP
          (sizeColorTable.hasName 1) = 1 := by decide
    have hzero : counter.nameCount 1 = 0 := Option.some.inj hleft
    have hname := hcounted.name
    rw [hzero] at hname
    cases hname

end LabelRequest

end AdDelivery.GroupManager
