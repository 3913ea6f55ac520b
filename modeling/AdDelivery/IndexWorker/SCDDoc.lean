import AdDelivery.Core.Vector
import AdDelivery.IndexWorker.Worker

/-!
# Documents as SCD records

A record of an SCD is a vector of names and values, the DOCID first. Both conversions resize a
vector that may hold something else, and count the places as they go. The place of a property
whose value is not a string is counted but not written.
-/

namespace AdDelivery.IndexWorker

open List Nat
open Common (Bytes)

/-- A record, as it is written to an SCD. -/
abbrev SCDDoc := List (String × Bytes)

/-- The value of a property is a string, or something else such as the blocks of a summary. -/
inductive PropertyValue (ω : Type*)
  | str (value : Bytes)
  | other (value : ω)

/-- None stands for `bad_get`. -/
def PropertyValue.getPropertyStrValue {ω : Type*} : PropertyValue ω → Option Bytes
  | .str value => some value
  | .other _ => none

structure SCDDocState where
  scddoc : SCDDoc
  propertyId : ℕ := 1

def isDocid (name : String) : Bool := iequals name "DOCID"

namespace SCDDocState

/-- Writing outside of the vector is undefined. -/
def write (state : SCDDocState) (insertto : ℕ) (entry : String × Bytes) : Option SCDDocState :=
  if insertto < state.scddoc.length then
    some { state with scddoc := state.scddoc.set insertto entry }
  else none

def countUp (state : SCDDocState) : SCDDocState := { state with propertyId := state.propertyId + 1 }

def countDown (state : SCDDocState) : SCDDocState :=
  { state with propertyId := state.propertyId - 1 }

/-- One round of the loop. A value that is not a string throws before anything is done with it. -/
def insertProperty (state : SCDDocState) (property : String × Option Bytes) : Option SCDDocState :=
  match property.2 with
  | none => some state.countUp
  | some value =>
    if isDocid property.1 then (state.countDown.write 0 (property.1, value)).map countUp
    else (state.write state.propertyId (property.1, value)).map countUp

end SCDDocState

open SCDDocState

/-- The loop over all properties, in a vector of as many entries. -/
def insertProperties (properties : List (String × Option Bytes)) (scddoc : SCDDoc) :
    Option SCDDoc :=
  (properties.foldlM insertProperty
    { scddoc := resize scddoc properties.length ("", []) }).map SCDDocState.scddoc

/-- How the members of a JSON object become strings. -/
structure ValueConversions (V : Type*) where
  asString : V → Bytes
  strToPropstr : Bytes → Bytes

section Conversions

variable {V ω : Type*}

/-- The members of an object as properties. -/
def ValueConversions.properties (conversions : ValueConversions V)
    (objectValue : List (String × V)) : List (String × Option Bytes) :=
  objectValue.map fun member =>
    (member.1, some (conversions.strToPropstr (conversions.asString member.2)))

def value2SCDDoc (conversions : ValueConversions V) (objectValue : List (String × V))
    (scddoc : SCDDoc) : Option SCDDoc :=
  insertProperties (conversions.properties objectValue) scddoc

/-- The properties of a document, in the order of the iteration. -/
def strProperties (document : List (String × PropertyValue ω)) : List (String × Option Bytes) :=
  document.map fun property => (property.1, property.2.getPropertyStrValue)

def document2SCDDoc (document : List (String × PropertyValue ω)) (scddoc : SCDDoc) :
    Option SCDDoc :=
  insertProperties (strProperties document) scddoc

end Conversions

/-- The properties whose values are strings. -/
def stringEntries (properties : List (String × Option Bytes)) : SCDDoc :=
  properties.filterMap fun property => property.2.map fun value => (property.1, value)

/-- Nothing was written outside of the vector, which has the DOCID in front and each of the other
properties once. -/
def IsRecordOf (properties : List (String × Option Bytes)) (result : Option SCDDoc) : Prop :=
  ∃ before name value after rest,
    properties = before ++ (name, some value) :: after ∧ isDocid name = true ∧
    result = some ((name, value) :: rest) ∧ rest.Perm (stringEntries (before ++ after))

namespace SCDDocState

/-- Properties other than the DOCID are written one after the other. -/
theorem foldlM_insertProperty {properties : List (String × Option Bytes)} {entries : SCDDoc}
    (hentries : properties = entries.map fun entry => (entry.1, some entry.2))
    (hdocid : ∀ entry ∈ entries, isDocid entry.1 = false) (state : SCDDocState)
    (hroom : state.propertyId + entries.length ≤ state.scddoc.length) :
    properties.foldlM insertProperty state =
      some
        { scddoc := state.scddoc.take state.propertyId ++ entries ++
            state.scddoc.drop (state.propertyId + entries.length)
          propertyId := state.propertyId + entries.length } := by
  subst hentries
  induction entries generalizing state with
  | nil => simp
  | cons entry entries ih =>
    have hentry := hdocid entry mem_cons_self
    rw [length_cons] at hroom
    have hlt : state.propertyId < state.scddoc.length := by omega
    have hstep : insertProperty state (entry.1, some entry.2) =
        some
          { scddoc := state.scddoc.set state.propertyId entry
            propertyId := state.propertyId + 1 } := by
      simp [insertProperty, hentry, write, hlt, countUp]
    rw [map_cons, foldlM_cons, hstep]
    have hrest := ih (fun entry hmem => hdocid entry (mem_cons_of_mem _ hmem))
      { scddoc := state.scddoc.set state.propertyId entry, propertyId := state.propertyId + 1 }
      (by
        rw [length_set]
        dsimp only
        omega)
    have htake : (state.scddoc.set state.propertyId entry).take (state.propertyId + 1) =
        state.scddoc.take state.propertyId ++ [entry] := by
      rw [take_succ_eq_append_getElem (by rwa [length_set]), take_set_self,
        getElem_set_self]
    have hdrop : (state.scddoc.set state.propertyId entry).drop
        (state.propertyId + 1 + entries.length) =
        state.scddoc.drop (state.propertyId + 1 + entries.length) := by
      rw [drop_set, if_pos (by omega)]
    rw [htake, hdrop] at hrest
    simpa [add_assoc, add_comm 1] using hrest

variable {state next : SCDDocState}

/-- What one round can do. -/
theorem insertProperty_eq_some {property : String × Option Bytes}
    (h : insertProperty state property = some next) : (property.2 = none ∧ next = state.countUp) ∨
      ∃ value, property.2 = some value ∧ ((isDocid property.1 = true ∧ next =
              { scddoc := state.scddoc.set 0 (property.1, value)
                propertyId := state.propertyId - 1 + 1 }) ∨ (isDocid property.1 = false ∧ next =
              { scddoc := state.scddoc.set state.propertyId (property.1, value)
                propertyId := state.propertyId + 1 })) := by
  rw [insertProperty] at h
  cases hvalue : property.2 with
  | none =>
    rw [hvalue] at h
    exact .inl ⟨rfl, (Option.some.inj h).symm⟩
  | some value =>
    rw [hvalue] at h
    dsimp only at h
    refine .inr ⟨value, rfl, ?_⟩
    cases hdocid : isDocid property.1 with
    | true =>
      rw [if_pos hdocid] at h
      obtain ⟨mid, hmid, rfl⟩ := Option.map_eq_some_iff.mp h
      obtain ⟨-, hmid⟩ := Option.ite_none_right_eq_some.mp hmid
      obtain rfl := Option.some.inj hmid
      exact .inl ⟨rfl, rfl⟩
    | false =>
      rw [if_neg (by simp [hdocid])] at h
      obtain ⟨mid, hmid, rfl⟩ := Option.map_eq_some_iff.mp h
      obtain ⟨-, hmid⟩ := Option.ite_none_right_eq_some.mp hmid
      obtain rfl := Option.some.inj hmid
      exact .inr ⟨rfl, rfl⟩

/-- The vector keeps its length. -/
theorem length_of_foldlM {properties : List (String × Option Bytes)}
    (h : properties.foldlM insertProperty state = some next) :
    next.scddoc.length = state.scddoc.length := by
  induction properties generalizing state with
  | nil =>
    obtain rfl := Option.some.inj h
    rfl
  | cons property properties ih =>
    obtain ⟨mid, hmid, hrest⟩ := Option.bind_eq_some_iff.mp h
    rw [ih hrest]
    rcases insertProperty_eq_some hmid with ⟨-, rfl⟩ | ⟨value, -, ⟨-, rfl⟩ | ⟨-, rfl⟩⟩
    · rfl
    · exact length_set ..
    · exact length_set ..

/-- Whether a property takes a place behind the DOCID. -/
def takesPlace (property : String × Option Bytes) : Bool :=
  !(isDocid property.1 && property.2.isSome)

/-- Behind the places that are counted, nothing is written. -/
theorem getElem?_of_foldlM {properties : List (String × Option Bytes)}
    (h : properties.foldlM insertProperty state = some next) (hpos : 0 < state.propertyId) {i : ℕ}
    (hi : state.propertyId + properties.countP takesPlace ≤ i) :
    next.scddoc[i]? = state.scddoc[i]? := by
  induction properties generalizing state with
  | nil =>
    obtain rfl := Option.some.inj h
    rfl
  | cons property properties ih =>
    obtain ⟨mid, hmid, hrest⟩ := Option.bind_eq_some_iff.mp h
    rw [countP_cons] at hi
    rcases insertProperty_eq_some hmid with
      ⟨hvalue, rfl⟩ | ⟨value, hvalue, ⟨hdocid, rfl⟩ | ⟨hdocid, rfl⟩⟩
    · have htakes : takesPlace property = true := by simp [takesPlace, hvalue]
      rw [if_pos htakes] at hi
      have hsame := ih hrest (succ_pos _) (by simp only [countUp]; omega)
      exact hsame
    · have htakes : takesPlace property = false := by simp [takesPlace, hvalue, hdocid]
      rw [ih hrest (succ_pos _) (by dsimp only; omega)]
      exact getElem?_set_ne (by omega)
    · have htakes : takesPlace property = true := by simp [takesPlace, hdocid]
      rw [if_pos htakes] at hi
      rw [ih hrest (succ_pos _) (by dsimp only; omega)]
      exact getElem?_set_ne (by omega)

end SCDDocState

variable {properties : List (String × Option Bytes)}

theorem length_of_insertProperties {scddoc result : SCDDoc}
    (h : insertProperties properties scddoc = some result) : result.length = properties.length := by
  obtain ⟨next, hnext, rfl⟩ := Option.map_eq_some_iff.mp h
  rw [length_of_foldlM hnext, length_resize]

theorem length_stringEntries_le (properties : List (String × Option Bytes)) :
    (stringEntries properties).length ≤ properties.length :=
  length_filterMap_le _ _

/-- A property without a string leaves fewer entries than places. -/
theorem forall_isSome_of_length (hlength : (stringEntries properties).length = properties.length) :
    ∀ property ∈ properties, property.2.isSome = true := by
  induction properties with
  | nil => simp
  | cons property properties ih =>
    have hle := length_stringEntries_le properties
    cases hvalue : property.2 with
    | none =>
      have hcons : stringEntries (property :: properties) = stringEntries properties := by
        simp [stringEntries, hvalue]
      rw [hcons, length_cons] at hlength
      omega
    | some value =>
      have hcons : stringEntries (property :: properties) =
          (property.1, value) :: stringEntries properties := by
        simp [stringEntries, hvalue]
      rw [hcons] at hlength
      rw [forall_mem_cons, hvalue]
      exact ⟨rfl, ih (succ.inj hlength)⟩

theorem stringEntries_append (left right : List (String × Option Bytes)) :
    stringEntries (left ++ right) = stringEntries left ++ stringEntries right :=
  filterMap_append

/-- A record has as many entries as there are properties, so each of these is a string. -/
theorem IsRecordOf.forall_isSome {scddoc : SCDDoc}
    (h : IsRecordOf properties (insertProperties properties scddoc)) :
    ∀ property ∈ properties, property.2.isSome = true := by
  obtain ⟨before, name, value, after, rest, rfl, -, hresult, hperm⟩ := h
  have hlength := length_of_insertProperties hresult
  apply forall_isSome_of_length
  have hcons : stringEntries ((name, some value) :: after) =
      (name, value) :: stringEntries after := rfl
  have hrest := hperm.length_eq
  rw [stringEntries_append, length_append] at hrest
  rw [stringEntries_append, hcons]
  simp only [length_append, length_cons] at hlength ⊢
  omega

theorem eq_map_stringEntries (hsome : ∀ property ∈ properties, property.2.isSome = true) :
    properties = (stringEntries properties).map fun entry => (entry.1, some entry.2) := by
  induction properties with
  | nil => rfl
  | cons property properties ih =>
    obtain ⟨hproperty, hrest⟩ := forall_mem_cons.mp hsome
    obtain ⟨value, hvalue⟩ := Option.isSome_iff_exists.mp hproperty
    have hcons : stringEntries (property :: properties) =
        (property.1, value) :: stringEntries properties := by
      simp [stringEntries, hvalue]
    rw [hcons, map_cons, ← ih hrest, ← hvalue]

theorem isDocid_of_mem_stringEntries
    (hnone : properties.countP (fun property => isDocid property.1) = 0) :
    ∀ entry ∈ stringEntries properties, isDocid entry.1 = false := by
  intro entry hmem
  obtain ⟨property, hproperty, hentry⟩ := mem_filterMap.mp hmem
  obtain ⟨value, -, rfl⟩ := Option.map_eq_some_iff.mp hentry
  exact Bool.eq_false_iff.mpr (countP_eq_zero.mp hnone property hproperty)

/-- The rounds in one go: the part before the DOCID, the DOCID, the part after it. -/
theorem insertProperties_split {name : String} {value : Bytes} (hdocid : isDocid name = true)
    {before after : SCDDoc} (hbefore : ∀ entry ∈ before, isDocid entry.1 = false)
    (hafter : ∀ entry ∈ after, isDocid entry.1 = false) (scddoc : SCDDoc) :
    insertProperties ((before.map fun entry => (entry.1, some entry.2)) ++
        (name, some value) :: after.map fun entry => (entry.1, some entry.2)) scddoc =
      some ((name, value) :: (before ++ after)) := by
  rw [insertProperties]
  generalize hstart : resize scddoc _ ("", []) = start
  have hlength : start.length = before.length + after.length + 1 := by
    rw [← hstart, length_resize, length_append, length_cons, List.length_map,
      List.length_map]
    omega
  obtain ⟨first, places, rfl⟩ := exists_cons_of_length_eq_add_one hlength
  rw [length_cons] at hlength
  have hfirst := foldlM_insertProperty rfl hbefore { scddoc := first :: places }
    (by dsimp only [length_cons]; omega)
  rw [foldlM_append, hfirst]
  have hdocidStep : insertProperty
      { scddoc := first :: (before ++ places.drop before.length)
        propertyId := 1 + before.length } (name, some value) =
      some
        { scddoc := (name, value) :: (before ++ places.drop before.length)
          propertyId := 1 + before.length } := by
    simp [insertProperty, hdocid, write, countUp,
      countDown, add_comm]
  have hlast := foldlM_insertProperty rfl hafter
    { scddoc := (name, value) :: (before ++ places.drop before.length)
      propertyId := 1 + before.length }
    (by
      simp only [length_cons, length_append, length_drop]
      omega)
  have htake : ((name, value) :: (before ++ places.drop before.length)).take (1 + before.length) =
      (name, value) :: before := by
    rw [add_comm, take_succ_cons, take_left]
  have hdrop : ((name, value) :: (before ++ places.drop before.length)).drop
      (1 + before.length + after.length) = [] := by
    apply drop_eq_nil_of_le
    simp only [length_cons, length_append, length_drop]
    omega
  have hmiddle : (first :: places).take 1 ++ before ++ (first :: places).drop (1 + before.length) =
      first :: (before ++ places.drop before.length) := by
    rw [add_comm]
    rfl
  rw [htake, hdrop] at hlast
  rw [hmiddle]
  simp only [Option.bind_eq_bind, Option.bind_some, foldlM_cons, hdocidStep, hlast,
    Option.map_some, append_nil, cons_append]

/-- With strings only, and one DOCID among them, the loop does what it is for. -/
theorem isRecordOf_insertProperties (hsome : ∀ property ∈ properties, property.2.isSome = true)
    (hone : properties.countP (fun property => isDocid property.1) = 1) (scddoc : SCDDoc) :
    IsRecordOf properties (insertProperties properties scddoc) := by
  have hpos : 0 < properties.countP fun property => isDocid property.1 := by omega
  obtain ⟨⟨name, option⟩, hmem, hdocid⟩ := countP_pos_iff.mp hpos
  obtain ⟨before, after, rfl⟩ := append_of_mem hmem
  obtain ⟨value, rfl⟩ := Option.isSome_iff_exists.mp (hsome _ hmem)
  have hcons : ((name, some value) :: after).countP (fun property => isDocid property.1) =
      after.countP (fun property => isDocid property.1) + 1 :=
    countP_cons_of_pos (by exact hdocid)
  rw [countP_append] at hone
  have hbefore : before.countP (fun property => isDocid property.1) = 0 := by omega
  have hafter : after.countP (fun property => isDocid property.1) = 0 := by omega
  refine ⟨before, name, value, after, stringEntries (before ++ after), rfl, hdocid, ?_, Perm.refl _⟩
  have hstringsBefore := eq_map_stringEntries fun property (h : property ∈ before) =>
    hsome property (mem_append_left _ h)
  have hstringsAfter := eq_map_stringEntries fun property (h : property ∈ after) =>
    hsome property (mem_append_right _ (mem_cons_of_mem _ h))
  rw [stringEntries_append, ← insertProperties_split hdocid
    (isDocid_of_mem_stringEntries hbefore) (isDocid_of_mem_stringEntries hafter) scddoc,
    ← hstringsBefore, ← hstringsAfter]

/-- If the loop does what it is for in any vector, then there is one DOCID. -/
theorem countP_eq_one_of_isRecordOf
    (h : ∀ scddoc, IsRecordOf properties (insertProperties properties scddoc)) :
    properties.countP (fun property => isDocid property.1) = 1 := by
  -- an entry that is longer than any string of the properties
  let junk : String × Bytes :=
    ("", List.replicate (((stringEntries properties).map Prod.snd).flatten.length + 1) 0)
  have hjunk : junk ∉ stringEntries properties := by
    intro hmem
    have hle := (sublist_flatten_of_mem (mem_map_of_mem (f := Prod.snd) hmem)).length_le
    rw [length_replicate] at hle
    omega
  have hrecord := h (List.replicate properties.length junk)
  have hsome := hrecord.forall_isSome
  obtain ⟨before, name, value, after, rest, heq, hdocid, hresult, hperm⟩ := hrecord
  have hentries : ∀ entry ∈ (name, value) :: rest, entry ∈ stringEntries properties := by
    have hcons : stringEntries ((name, some value) :: after) =
        (name, value) :: stringEntries after := rfl
    rw [heq, stringEntries_append, hcons, forall_mem_cons]
    refine ⟨by simp, fun entry hmem => ?_⟩
    have hmem' := hperm.subset hmem
    rw [stringEntries_append, mem_append] at hmem'
    exact mem_append.mpr (hmem'.imp_right (mem_cons_of_mem _))
  have hpos : 0 < properties.countP fun property => isDocid property.1 :=
    countP_pos_iff.mpr ⟨(name, some value), by simp [heq], hdocid⟩
  by_contra hne
  -- with two of them, the last place is counted by nobody
  have hplaces : properties.countP takesPlace +
      properties.countP (fun property => isDocid property.1) = properties.length := by
    have hnot : properties.countP takesPlace =
        properties.countP fun property => !isDocid property.1 := by
      apply countP_congr
      intro property hmem
      simp [takesPlace, hsome property hmem]
    have hlength := length_eq_countP_add_countP (fun property => isDocid property.1)
      (l := properties)
    simp only [Bool.not_eq_true, Bool.decide_eq_false] at hlength
    rw [hnot, hlength, add_comm]
  obtain ⟨next, hnext, hscddoc⟩ := Option.map_eq_some_iff.mp hresult
  have hlast := getElem?_of_foldlM hnext one_pos
    (i := properties.length - 1) (by dsimp only; omega)
  rw [hscddoc, getElem?_resize, if_pos (by omega), getD_eq_getElem?_getD,
    getElem?_replicate, if_pos (by omega)] at hlast
  exact hjunk (hentries junk (mem_of_getElem? hlast))

section Conversions

variable {V ω : Type*}

theorem isRecordOf_value2SCDDoc (conversions : ValueConversions V) {objectValue : List (String × V)}
    (hone : objectValue.countP (fun member => isDocid member.1) = 1) (scddoc : SCDDoc) :
    IsRecordOf (conversions.properties objectValue)
      (value2SCDDoc conversions objectValue scddoc) := by
  refine isRecordOf_insertProperties ?_ ?_ scddoc
  · intro property hmem
    obtain ⟨member, -, rfl⟩ := mem_map.mp hmem
    rfl
  · rw [ValueConversions.properties, countP_map]
    exact hone

theorem isRecordOf_document2SCDDoc_iff (document : List (String × PropertyValue ω)) :
    (∀ scddoc, IsRecordOf (strProperties document) (document2SCDDoc document scddoc)) ↔
      document.countP (fun property => isDocid property.1) = 1 ∧
        ∀ property ∈ document, ∃ value, property.2 = .str value := by
  have hcount : (strProperties document).countP (fun property => isDocid property.1) =
      document.countP fun property => isDocid property.1 := by
    rw [strProperties, countP_map]
    rfl
  have hsome : (∀ property ∈ strProperties document, property.2.isSome = true) ↔
      ∀ property ∈ document, ∃ value, property.2 = .str value := by
    rw [strProperties, forall_mem_map]
    refine forall₂_congr fun property _ => ?_
    cases hvalue : property.2 <;> simp [PropertyValue.getPropertyStrValue]
  constructor
  · intro h
    exact ⟨hcount ▸ countP_eq_one_of_isRecordOf h, hsome.mp (h []).forall_isSome⟩
  · rintro ⟨hone, hstrings⟩ scddoc
    exact isRecordOf_insertProperties (hsome.mpr hstrings) (hcount.trans hone) scddoc

/-- An object becomes a record of its members. A document becomes a record of its properties if
and only if all of them are strings, and one of them is the DOCID. -/
theorem scd_conversion (conversions : ValueConversions V) (objectValue : List (String × V))
    (document : List (String × PropertyValue ω))
    (hone : objectValue.countP (fun member => isDocid member.1) = 1) :
    (∀ scddoc, IsRecordOf (conversions.properties objectValue)
      (value2SCDDoc conversions objectValue scddoc)) ∧
    ((∀ scddoc, IsRecordOf (strProperties document) (document2SCDDoc document scddoc)) ↔
      document.countP (fun property => isDocid property.1) = 1 ∧
        ∀ property ∈ document, ∃ value, property.2 = .str value) :=
  ⟨isRecordOf_value2SCDDoc conversions hone, isRecordOf_document2SCDDoc_iff document⟩

/-- A request with a title, and the document that is stored for it. -/
theorem scd_conversion_title : IsRecordOf [("Title", some [65]), ("DOCID", some [66])]
      (value2SCDDoc ⟨fun value : Bytes => value, fun value => value⟩
        [("Title", [65]), ("DOCID", [66])] [("Price", [49]), ("", []), ("", [])]) :=
  (scd_conversion ⟨fun value : Bytes => value, fun value => value⟩
    [("Title", [65]), ("DOCID", [66])] (ω := ℕ) [] (by decide)).1 _

/-- The blocks of a summary are stored beside the text. They are no string, and what the request
has left in their place remains. -/
theorem not_scd_conversion_blocks :
    ¬∀ (document : List (String × PropertyValue (List ℕ))) (scddoc : SCDDoc),
      document.countP (fun property => isDocid property.1) = 1 →
      IsRecordOf (strProperties document) (document2SCDDoc document scddoc) := by
  intro h
  have hblocks := h
    [("Content", .str [65]), ("Content.blocks", .other [0, 1]), ("DOCID", .str [66]),
      ("Title", .str [67])]
    [("DOCID", [66]), ("Content", [65]), ("Title", [67])] (by decide)
  have hstring := hblocks.forall_isSome ("Content.blocks", none) (by simp [strProperties,
    PropertyValue.getPropertyStrValue])
  exact Bool.noConfusion hstring

end Conversions

end AdDelivery.IndexWorker
