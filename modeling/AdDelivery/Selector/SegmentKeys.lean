import AdDelivery.Core.Concatenations
import AdDelivery.Core.Odometer
import AdDelivery.Core.Table
import AdDelivery.Core.Words
import Mathlib.Data.List.GetD

/-!
# The keys of segments

A segment is given by a value for some of the features. Its key puts the values together in
the order of the features, each with a linker behind it. The selector computes the keys of
all segments in advance, and looks up those of a user or an ad by expanding its features.
A value does not say which feature it belongs to, so that two segments can share a key.

Names are kept as strings, values and keys as lists of their characters.
-/

namespace AdDelivery.Selector

open List Finmap Odometer List.Forall₂

def linker : List Char := ['-']

def unknownStr : List Char := "Unknown".toList

/-- `FeatureT`: features with one value each. -/
abbrev Feature := List (String × List Char)

/-- `FeatureMapT`: the values of each feature, in the order of their names. -/
abbrev FeatureMap := List (String × List (List Char))

/-- The segment that the counters stand for, and its key. -/
def segmentOf : FeatureMap → List ℕ → List Char × Feature
  | [], _ => ([], [])
  | _ :: _, [] => ([], [])
  | (name, values) :: segments, index :: counter =>
    let value := values.getD index []
    let (key, segmentData) := segmentOf segments counter
    if value ≠ unknownStr then (value ++ linker ++ key, (name, value) :: segmentData)
    else (key, segmentData)

def bases (segments : FeatureMap) : List ℕ := segments.map fun segment => segment.2.length

/-- The outer loop: store a segment and advance the counters, until the first one is through. -/
def collectKeys (segments : FeatureMap) (counter : List ℕ) (allKeys : Table (List Char) Feature) :
    Table (List Char) Feature :=
  let (key, segmentData) := segmentOf segments counter
  let allKeys := insert key segmentData allKeys
  match _h : advance (bases segments) counter with
  | none => allKeys
  | some counter => collectKeys segments counter allKeys
termination_by remaining (bases segments) counter
decreasing_by exact remaining_advance_lt ‹_›

/-- Without counters the loop is not entered. -/
def getAllPossibleSegStr (segments : FeatureMap) (segmentsCounter : List ℕ)
    (allKeys : Table (List Char) Feature) : Table (List Char) Feature :=
  if segmentsCounter = [] then allKeys else collectKeys segments segmentsCounter allKeys

/-- Expand every key by the values of every feature; the first value is written in place, the
others at the end of the list. A feature without values is passed over. -/
def expandSegmentStr (segStrList : List (List Char)) (featureList : FeatureMap) :
    List (List Char) :=
  featureList.foldl (fun segStrList feature =>
    match feature.2 with
    | [] => segStrList
    | [value] => segStrList.map fun segStr => segStr ++ (value ++ linker)
    | value :: values => (segStrList.map fun segStr => segStr ++ (value ++ linker)) ++
        segStrList.flatMap fun segStr => values.map fun value => segStr ++ (value ++ linker))
    segStrList

/-- A segment table: the features in order, each with `Unknown` among its values. -/
structure SegmentTable where
  segments : FeatureMap
  sorted : segments.Pairwise fun a b => a.1 < b.1
  unknown : ∀ segment ∈ segments, unknownStr ∈ segment.2

/-- The initial counters are zero. -/
def SegmentTable.allKeys (t : SegmentTable) : Table (List Char) Feature :=
  getAllPossibleSegStr t.segments (t.segments.map fun _ => 0) ∅

/-- One value for each feature. -/
def IsChoice (segments : FeatureMap) (choice : Feature) : Prop :=
  List.Forall₂ (fun feature segment => feature.1 = segment.1 ∧ feature.2 ∈ segment.2)
    choice segments

/-- The features that are known. -/
def known (choice : Feature) : Feature := choice.filter fun feature => feature.2 ≠ unknownStr

def segKey (features : Feature) : List Char := features.flatMap fun feature => feature.2 ++ linker

/-- The features have only known values of the table. -/
structure OccursIn (features segments : FeatureMap) : Prop where
  sorted : features.Pairwise fun a b => a.1 < b.1
  values : ∀ feature ∈ features, ∃ segment ∈ segments, segment.1 = feature.1 ∧
    ∀ value ∈ feature.2, value ∈ segment.2 ∧ value ≠ unknownStr

/-- The keys computed are those of all choices, among them all expanded ones, and a key
stands for one choice of features only. -/
structure SegmentTable.KeysAgree (t : SegmentTable) : Prop where
  keys : ∀ key, key ∈ t.allKeys ↔ ∃ choice, IsChoice t.segments choice ∧ segKey (known choice) = key
  expanded : ∀ features, OccursIn features t.segments →
    ∀ segStr ∈ expandSegmentStr [[]] features, segStr ∈ t.allKeys
  unambiguous : ∀ key features, t.allKeys.lookup key = some features →
    ∀ choice, IsChoice t.segments choice → segKey (known choice) = key → known choice = features

/-- What a feature can put into a key. -/
def options (segment : String × List (List Char)) : Set (List Char) :=
  {word | word = [] ∨ ∃ value ∈ segment.2, value ≠ unknownStr ∧ word = value ++ linker}

/-- The values that the counters stand for. -/
def select (segments : FeatureMap) (counter : List ℕ) : Feature :=
  List.zipWith (fun segment index => (segment.1, segment.2.getD index [])) segments counter

theorem known_cons (feature : String × List Char) (choice : Feature) : known (feature :: choice) =
      if feature.2 ≠ unknownStr then feature :: known choice else known choice := by
  rw [known, filter_cons]
  simp only [decide_eq_true_eq]
  rfl

theorem segmentOf_eq (segments : FeatureMap) (counter : List ℕ) : segmentOf segments counter =
      (segKey (known (select segments counter)), known (select segments counter)) := by
  induction segments generalizing counter with
  | nil => rfl
  | cons segment segments ih =>
    obtain ⟨name, values⟩ := segment
    cases counter with
    | nil => rfl
    | cons index counter =>
      have hselect : select ((name, values) :: segments) (index :: counter) =
          (name, values.getD index []) :: select segments counter := rfl
      rw [segmentOf, ih, hselect, known_cons]
      dsimp only
      split
      · rfl
      · rfl

variable (t : SegmentTable)

theorem select_zeros_valid : Odometer.Valid (bases t.segments) (t.segments.map fun _ => 0) := by
  refine forall₂_map_left_iff.mpr (forall₂_map_right_iff.mpr ?_)
  refine forall₂_same.mpr fun segment hsegment => ?_
  exact length_pos_of_mem (t.unknown segment hsegment)

variable {segments : FeatureMap}

/-- Valid counters select choices. -/
theorem isChoice_select {counter : List ℕ} (h : Odometer.Valid (bases segments) counter) :
    IsChoice segments (select segments counter) := by
  induction segments generalizing counter with
  | nil => exact nil
  | cons segment segments ih =>
    obtain _ | @⟨index, _, counter, _, hlt, h⟩ := h
    refine cons ⟨rfl, ?_⟩ (ih h)
    dsimp only
    rw [getD_eq_getElem _ _ hlt]
    exact getElem_mem hlt

variable {choice : Feature}

/-- Every choice is selected by some counters. -/
theorem exists_select_of_isChoice (h : IsChoice segments choice) :
    ∃ counter, Odometer.Valid (bases segments) counter ∧ select segments counter = choice := by
  induction h with
  | nil => exact ⟨[], nil, rfl⟩
  | @cons feature segment choice segments hfeature _ ih =>
    obtain ⟨counter, hvalid, rfl⟩ := ih
    obtain ⟨hname, hvalue⟩ := hfeature
    obtain ⟨index, hlt, hget⟩ := getElem_of_mem hvalue
    refine ⟨index :: counter, valid_cons.mpr ⟨hlt, hvalid⟩, ?_⟩
    rw [select, zipWith_cons_cons, getD_eq_getElem _ _ hlt, hget, ← hname]
    rfl

/-- The table after the segment of the counters was stored. -/
def stored (segments : FeatureMap) (counter : List ℕ) (allKeys : Table (List Char) Feature) :
    Table (List Char) Feature :=
  insert (segKey (known (select segments counter))) (known (select segments counter)) allKeys

theorem collectKeys_eq (segments : FeatureMap) (counter : List ℕ)
    (allKeys : Table (List Char) Feature) : collectKeys segments counter allKeys =
      match advance (bases segments) counter with
      | none => stored segments counter allKeys
      | some counter' => collectKeys segments counter' (stored segments counter allKeys) := by
  rw [collectKeys, segmentOf_eq]
  dsimp only
  split
  · rename_i hadvance
    rw [hadvance]
    rfl
  · rename_i counter' hadvance
    rw [hadvance]
    rfl

theorem mem_stored_iff (segments : FeatureMap) (counter : List ℕ)
    (allKeys : Table (List Char) Feature) (key : List Char) :
    key ∈ stored segments counter allKeys ↔
      key = segKey (known (select segments counter)) ∨ key ∈ allKeys :=
  mem_insert

theorem lookup_stored {counter : List ℕ} {allKeys : Table (List Char) Feature} {key : List Char}
    {features : Feature} (h : (stored segments counter allKeys).lookup key = some features) :
    allKeys.lookup key = some features ∨ segKey (known (select segments counter)) = key ∧
        known (select segments counter) = features := by
  rw [stored, Table.lookup_insert_eq] at h
  split at h
  · rename_i hkey
    exact .inr ⟨hkey.symm, Option.some.inj h⟩
  · exact .inl h

/-- From valid counters on, exactly the keys of the positions that remain are stored, each
with one of their segments. The induction is on the number of these positions. -/
theorem collectKeys_spec (segments : FeatureMap) (n : ℕ) :
    ∀ counter allKeys, Odometer.Valid (bases segments) counter →
      remaining (bases segments) counter = n →
      (∀ key, key ∈ collectKeys segments counter allKeys ↔ key ∈ allKeys ∨
        ∃ counter', Odometer.Valid (bases segments) counter' ∧
          remaining (bases segments) counter' ≤ n ∧
          segKey (known (select segments counter')) = key) ∧
      ∀ key features, (collectKeys segments counter allKeys).lookup key = some features →
        allKeys.lookup key = some features ∨ ∃ counter', Odometer.Valid (bases segments) counter' ∧
            segKey (known (select segments counter')) = key ∧
            known (select segments counter') = features := by
  induction n with
  | zero =>
    intro counter allKeys hvalid hremaining
    have hnone : advance (bases segments) counter = none := by
      cases hadvance : advance (bases segments) counter with
      | none => rfl
      | some counter' =>
        have hlt := remaining_advance_lt hadvance
        omega
    rw [collectKeys_eq, hnone]
    refine ⟨fun key => ?_, fun key features hlookup => ?_⟩
    · rw [mem_stored_iff, or_comm]
      refine or_congr_right ⟨?_, ?_⟩
      · rintro rfl
        exact ⟨counter, hvalid, hremaining.le, rfl⟩
      · rintro ⟨counter', hvalid', hle, rfl⟩
        rw [remaining_inj hvalid' hvalid (by omega)]
    · exact (lookup_stored hlookup).imp_right fun hsame => ⟨counter, hvalid, hsame⟩
  | succ n ih =>
    intro counter allKeys hvalid hremaining
    cases hadvance : advance (bases segments) counter with
    | none =>
      have hzero := remaining_of_advance_none hvalid hadvance
      omega
    | some counter' =>
      obtain ⟨hvalid', hnext⟩ := remaining_advance hvalid hadvance
      obtain ⟨hmem, hfeatures⟩ := ih counter' (stored segments counter allKeys) hvalid' (by omega)
      rw [collectKeys_eq, hadvance]
      refine ⟨fun key => ?_, fun key features hlookup => ?_⟩
      · rw [hmem, mem_stored_iff]
        constructor
        · rintro ((rfl | hkey) | ⟨later, hlater, hle, rfl⟩)
          · exact .inr ⟨counter, hvalid, hremaining.le, rfl⟩
          · exact .inl hkey
          · exact .inr ⟨later, hlater, by omega, rfl⟩
        · rintro (hkey | ⟨later, hlater, hle, rfl⟩)
          · exact .inl (.inr hkey)
          · rcases Nat.lt_or_ge n (remaining (bases segments) later) with hlt | hle'
            · have hsame := remaining_inj hlater hvalid (by omega)
              exact .inl (.inl (by rw [hsame]))
            · exact .inr ⟨later, hlater, hle', rfl⟩
      · obtain hold | hlater := hfeatures key features hlookup
        · exact (lookup_stored hold).imp_right fun hsame => ⟨counter, hvalid, hsame⟩
        · exact .inr hlater

/-- The counters start at zero, from where all positions remain. -/
theorem allKeys_spec (hne : t.segments ≠ []) : (∀ key, key ∈ t.allKeys ↔
      ∃ choice, IsChoice t.segments choice ∧ segKey (known choice) = key) ∧
    ∀ key features, t.allKeys.lookup key = some features →
      ∃ choice, IsChoice t.segments choice ∧ segKey (known choice) = key ∧
        known choice = features := by
  have hvalid := select_zeros_valid t
  obtain ⟨hmem, hfeatures⟩ := collectKeys_spec t.segments _ _ ∅ hvalid rfl
  have hkeys : t.allKeys = collectKeys t.segments (t.segments.map fun _ => 0) ∅ :=
    if_neg (by simpa using hne)
  have hall : ∀ counter, remaining (bases t.segments) counter ≤
      remaining (bases t.segments) (t.segments.map fun _ => 0) := by
    intro counter
    have hlt := remaining_lt_total (bases t.segments) counter
    have hzeros : remaining (bases t.segments) ((bases t.segments).map fun _ => 0) + 1 =
        total (bases t.segments) := remaining_zeros rfl
    have hsame : (bases t.segments).map (fun _ => 0) = t.segments.map fun _ => 0 := by
      rw [bases, List.map_map]
      rfl
    rw [hsame] at hzeros
    omega
  rw [hkeys]
  refine ⟨fun key => (hmem key).trans ?_, fun key features hlookup => ?_⟩
  · rw [or_iff_right (notMem_empty)]
    constructor
    · rintro ⟨counter, hcounter, -, hkey⟩
      exact ⟨_, isChoice_select hcounter, hkey⟩
    · rintro ⟨choice, hchoice, hkey⟩
      obtain ⟨counter, hcounter, rfl⟩ := exists_select_of_isChoice hchoice
      exact ⟨counter, hcounter, hall counter, hkey⟩
  · obtain hempty | ⟨counter, hcounter, hkey, hknown⟩ := hfeatures key features hlookup
    · exact absurd hempty.symm (Option.some_ne_none features)
    · exact ⟨_, isChoice_select hcounter, hkey, hknown⟩

/-- Every key that expanding produces puts one value of each feature behind a key it began
with. -/
theorem mem_expandSegmentStr {featureList : FeatureMap} {segStrList : List (List Char)}
    {segStr : List Char} (h : segStr ∈ expandSegmentStr segStrList featureList) :
    ∃ start ∈ segStrList, ∃ words, segStr = start ++ List.flatten words ∧
      List.Forall₂ (fun word (feature : String × List (List Char)) =>
        word = [] ∨ ∃ value ∈ feature.2, word = value ++ linker) words featureList := by
  induction featureList generalizing segStrList with
  | nil => exact ⟨segStr, h, [], (append_nil _).symm, nil⟩
  | cons feature featureList ih =>
    obtain ⟨start, hstart, words, rfl, hwords⟩ := ih h
    have hword : ∃ start' ∈ segStrList, ∃ word, start = start' ++ word ∧
        (word = [] ∨ ∃ value ∈ feature.2, word = value ++ linker) := by
      revert hstart
      dsimp only
      split
      · intro hstart
        exact ⟨start, hstart, [], (append_nil _).symm, .inl rfl⟩
      · rename_i value hvalues
        intro hstart
        obtain ⟨start', hstart', rfl⟩ := mem_map.mp hstart
        exact ⟨start', hstart', _, rfl, .inr ⟨value, hvalues ▸ mem_cons_self, rfl⟩⟩
      · rename_i value values _ hvalues
        intro hstart
        rcases mem_append.mp hstart with hstart | hstart
        · obtain ⟨start', hstart', rfl⟩ := mem_map.mp hstart
          exact ⟨start', hstart', _, rfl, .inr ⟨value, hvalues ▸ mem_cons_self, rfl⟩⟩
        · obtain ⟨start', hstart', hstart⟩ := mem_flatMap.mp hstart
          obtain ⟨value', hvalue', rfl⟩ := mem_map.mp hstart
          exact ⟨start', hstart', _, rfl,
            .inr ⟨value', hvalues ▸ mem_cons_of_mem value hvalue', rfl⟩⟩
    obtain ⟨start', hstart', word, rfl, hword⟩ := hword
    exact ⟨start', hstart', word :: words, append_assoc _ _ _, cons hword hwords⟩

theorem OccursIn.tail {feature : String × List (List Char)} {features segments : FeatureMap}
    (h : OccursIn (feature :: features) segments) : OccursIn features segments :=
  ⟨h.sorted.tail, fun other hother => h.values other (mem_cons_of_mem feature hother)⟩

/-- Features with names above the first one of the table are in the rest of it. -/
theorem OccursIn.rest {segment : String × List (List Char)} {features segments : FeatureMap}
    (h : OccursIn features (segment :: segments))
    (habove : ∀ feature ∈ features, segment.1 < feature.1) : OccursIn features segments := by
  refine ⟨h.sorted, fun feature hfeature => ?_⟩
  obtain ⟨other, hother, hname, hvalues⟩ := h.values feature hfeature
  rcases mem_cons.mp hother with rfl | hother
  · exact absurd hname (habove feature hfeature).ne
  · exact ⟨other, hother, hname, hvalues⟩

variable {words : List (List Char)}

/-- The words that expanding puts together are those of a choice. -/
theorem exists_choice_of_words (hsorted : segments.Pairwise fun a b => a.1 < b.1)
    (hunknown : ∀ segment ∈ segments, unknownStr ∈ segment.2) {features : FeatureMap}
    (h : OccursIn features segments)
    (hwords : List.Forall₂ (fun word (feature : String × List (List Char)) =>
      word = [] ∨ ∃ value ∈ feature.2, word = value ++ linker) words features) :
    ∃ choice, IsChoice segments choice ∧ segKey (known choice) = words.flatten := by
  induction segments generalizing features words with
  | nil =>
    obtain _ | ⟨hword, hwords⟩ := hwords
    · exact ⟨[], nil, rfl⟩
    · obtain ⟨segment, hsegment, -⟩ := h.values _ mem_cons_self
      cases hsegment
  | cons segment segments ih =>
    obtain ⟨habove, hpairwise⟩ := pairwise_cons.mp hsorted
    obtain ⟨hsegment, hrest⟩ := forall_mem_cons.mp hunknown
    -- where the first feature of the table is not named, its value is unknown
    have hskip : OccursIn features segments →
        ∃ choice, IsChoice (segment :: segments) choice ∧
          segKey (known choice) = words.flatten := by
      intro hoccurs
      obtain ⟨choice, hchoice, hkey⟩ := ih hpairwise hrest hoccurs hwords
      refine ⟨(segment.1, unknownStr) :: choice, cons ⟨rfl, hsegment⟩ hchoice, ?_⟩
      rw [known_cons, if_neg (not_not.mpr rfl), hkey]
    obtain _ | @⟨word, feature, words, features, hword, hwords⟩ := hwords
    · exact hskip (h.rest nofun)
    obtain ⟨other, hother, hname, hvalues⟩ := h.values feature mem_cons_self
    obtain ⟨hlater, -⟩ := pairwise_cons.mp h.sorted
    rcases mem_cons.mp hother with rfl | hother
    · -- the first feature of the table is named
      obtain ⟨choice, hchoice, hkey⟩ := ih hpairwise hrest
        (h.tail.rest fun other hother => hname ▸ hlater other hother) hwords
      rcases hword with rfl | ⟨value, hvalue, rfl⟩
      · refine ⟨(other.1, unknownStr) :: choice, cons ⟨rfl, hsegment⟩ hchoice, ?_⟩
        rw [known_cons, if_neg (not_not.mpr rfl), hkey]
        rfl
      · obtain ⟨hmem, hknown⟩ := hvalues value hvalue
        refine ⟨(other.1, value) :: choice, cons ⟨rfl, hmem⟩ hchoice, ?_⟩
        rw [known_cons, if_pos hknown, segKey, flatten_cons, ← hkey]
        rfl
    · refine hskip (h.rest fun later hlater' => ?_)
      have hlt : segment.1 < feature.1 := hname ▸ habove other hother
      rcases mem_cons.mp hlater' with rfl | hlater'
      · exact hlt
      · exact hlt.trans (hlater later hlater')

/-- What a value puts into the key. -/
def wordOf (feature : String × List Char) : List Char :=
  if feature.2 ≠ unknownStr then feature.2 ++ linker else []

theorem flatten_words (choice : Feature) : (choice.map wordOf).flatten = segKey (known choice) := by
  induction choice with
  | nil => rfl
  | cons feature choice ih =>
    rw [map_cons, flatten_cons, ih, known_cons, wordOf]
    split
    · rfl
    · rfl

theorem wordOf_injective {value value' : List Char} {name name' : String}
    (h : wordOf (name, value) = wordOf (name', value')) : value = value' := by
  unfold wordOf at h
  split at h
  · split at h
    · exact append_cancel_right h
    · exact absurd h (append_ne_nil_of_right_ne_nil _ (cons_ne_nil _ _))
  · rename_i hvalue
    split at h
    · exact absurd h.symm (append_ne_nil_of_right_ne_nil _ (cons_ne_nil _ _))
    · rename_i hvalue'
      exact (not_not.mp hvalue).trans (not_not.mp hvalue').symm

theorem picks_words (h : IsChoice segments choice) :
    Picks (choice.map wordOf) (segments.map options) := by
  refine forall₂_map_left_iff.mpr (forall₂_map_right_iff.mpr (h.imp ?_))
  rintro ⟨name, value⟩ segment ⟨-, hvalue⟩
  unfold wordOf
  split
  · rename_i hknown
    exact .inr ⟨value, hvalue, hknown, rfl⟩
  · exact .inl rfl

theorem exists_choice_of_picks (hunknown : ∀ segment ∈ segments, unknownStr ∈ segment.2)
    (h : Picks words (segments.map options)) :
    ∃ choice, IsChoice segments choice ∧ choice.map wordOf = words := by
  induction segments generalizing words with
  | nil =>
    obtain rfl := forall₂_nil_right_iff.mp h
    exact ⟨[], nil, rfl⟩
  | cons segment segments ih =>
    obtain _ | @⟨word, _, words, _, hword, hwords⟩ := h
    obtain ⟨hsegment, hunknown⟩ := forall_mem_cons.mp hunknown
    obtain ⟨choice, hchoice, rfl⟩ := ih hunknown hwords
    rcases hword with rfl | ⟨value, hvalue, hknown, rfl⟩
    · refine ⟨(segment.1, unknownStr) :: choice, cons ⟨rfl, hsegment⟩ hchoice, ?_⟩
      rw [map_cons, wordOf, if_neg (not_not.mpr rfl)]
    · refine ⟨(segment.1, value) :: choice, cons ⟨rfl, hvalue⟩ hchoice, ?_⟩
      rw [map_cons, wordOf, if_pos hknown]

/-- Choices with the same words are the same. -/
theorem choice_eq_of_words {choice choice' : Feature} (h : IsChoice segments choice)
    (h' : IsChoice segments choice') (hwords : choice.map wordOf = choice'.map wordOf) :
    choice = choice' := by
  induction h generalizing choice' with
  | nil => exact (forall₂_nil_right_iff.mp h').symm
  | @cons feature segment choice segments hfeature _ ih =>
    obtain _ | @⟨feature', _, choice', _, hfeature', hchoice'⟩ := h'
    obtain ⟨hword, hrest⟩ := List.cons.inj hwords
    rw [ih hchoice' hrest, Prod.ext (hfeature.1.trans hfeature'.1.symm) (wordOf_injective hword)]

theorem exists_segment_of_mem (h : IsChoice segments choice) {feature : String × List Char}
    (hmem : feature ∈ choice) : ∃ segment ∈ segments, feature.1 = segment.1 := by
  induction h with
  | nil => cases hmem
  | @cons head segment choice segments hhead _ ih =>
    rcases mem_cons.mp hmem with rfl | hmem
    · exact ⟨segment, mem_cons_self, hhead.1⟩
    · obtain ⟨other, hother, hname⟩ := ih hmem
      exact ⟨other, mem_cons_of_mem segment hother, hname⟩

/-- Choices with the same known features are the same. -/
theorem choice_eq_of_known (hsorted : segments.Pairwise fun a b => a.1 < b.1)
    {choice choice' : Feature} (h : IsChoice segments choice) (h' : IsChoice segments choice')
    (hknown : known choice = known choice') : choice = choice' := by
  induction h generalizing choice' with
  | nil => exact (forall₂_nil_right_iff.mp h').symm
  | @cons feature segment choice segments hfeature hchoice ih =>
    obtain _ | @⟨feature', _, choice', _, hfeature', hchoice'⟩ := h'
    obtain ⟨habove, hpairwise⟩ := pairwise_cons.mp hsorted
    have hname := hfeature.1.trans hfeature'.1.symm
    -- a later feature does not have the name of the first one
    have hlater : ∀ {c : Feature} {f : String × List Char}, IsChoice segments c →
        f.1 = segment.1 → f ∉ known c := by
      intro c f hc hf hmem
      obtain ⟨other, hother, heq⟩ := exists_segment_of_mem hc (mem_of_mem_filter hmem)
      exact absurd (hf.symm.trans heq) (habove other hother).ne
    rw [known_cons, known_cons] at hknown
    split at hknown
    · split at hknown
      · obtain ⟨rfl, hrest⟩ := List.cons.inj hknown
        rw [ih hpairwise hchoice' hrest]
      · exact absurd (hknown ▸ mem_cons_self) (hlater hchoice' hfeature.1)
    · rename_i hvalue
      split at hknown
      · exact absurd (hknown ▸ mem_cons_self) (hlater hchoice hfeature'.1)
      · rename_i hvalue'
        rw [ih hpairwise hchoice' hknown,
          Prod.ext hname ((not_not.mp hvalue).trans (not_not.mp hvalue').symm)]

/-- A key stands for one choice of features exactly when the options are separated. -/
theorem known_eq_iff_separated :
    (∀ choice choice', IsChoice t.segments choice → IsChoice t.segments choice' →
      segKey (known choice) = segKey (known choice') → known choice = known choice') ↔
      Separated (t.segments.map options) := by
  have hnonempty : ∀ language ∈ t.segments.map options, language.Nonempty := by
    rw [forall_mem_map]
    exact fun segment _ => ⟨[], .inl rfl⟩
  rw [← flatten_injective_iff hnonempty]
  constructor
  · intro hkeys words words' h h' heq
    obtain ⟨choice, hchoice, rfl⟩ := exists_choice_of_picks t.unknown h
    obtain ⟨choice', hchoice', rfl⟩ := exists_choice_of_picks t.unknown h'
    rw [flatten_words, flatten_words] at heq
    rw [choice_eq_of_known t.sorted hchoice hchoice' (hkeys _ _ hchoice hchoice' heq)]
  · intro hinj choice choice' h h' heq
    rw [← flatten_words, ← flatten_words] at heq
    rw [choice_eq_of_words h h' (hinj _ _ (picks_words h) (picks_words h') heq)]

/-- All keys agree and are unambiguous exactly when there is a feature and the options of the
features are separated. -/
theorem keysAgree_iff (t : SegmentTable) :
    t.KeysAgree ↔ t.segments ≠ [] ∧ Separated (t.segments.map options) := by
  rw [← known_eq_iff_separated]
  constructor
  · intro h
    have hne : t.segments ≠ [] := by
      intro hnil
      have hkey : ([] : List Char) ∈ t.allKeys := by
        refine (h.keys []).mpr ⟨[], ?_, rfl⟩
        rw [hnil]
        exact nil
      rw [SegmentTable.allKeys, getAllPossibleSegStr, hnil, map_nil] at hkey
      exact notMem_empty hkey
    refine ⟨hne, fun choice choice' hchoice hchoice' heq => ?_⟩
    have hkey := (h.keys _).mpr ⟨choice, hchoice, rfl⟩
    obtain ⟨features, hfeatures⟩ := mem_iff.mp hkey
    rw [h.unambiguous _ features hfeatures choice hchoice rfl,
      h.unambiguous _ features hfeatures choice' hchoice' heq.symm]
  · rintro ⟨hne, hunique⟩
    obtain ⟨hmem, hfeatures⟩ := allKeys_spec t hne
    refine ⟨hmem, fun features hoccurs segStr hsegStr => ?_, ?_⟩
    · obtain ⟨start, hstart, words, rfl, hwords⟩ := mem_expandSegmentStr hsegStr
      obtain rfl := mem_singleton.mp hstart
      obtain ⟨choice, hchoice, hkey⟩ :=
        exists_choice_of_words t.sorted t.unknown hoccurs hwords
      exact (hmem _).mpr ⟨choice, hchoice, hkey⟩
    · intro key features hlookup choice hchoice hkey
      obtain ⟨choice', hchoice', hkey', rfl⟩ := hfeatures key features hlookup
      exact hunique choice choice' hchoice hchoice' (hkey.trans hkey'.symm)

def ageSize : SegmentTable where
  segments := [("Age", ["Unknown".toList, "20".toList]), ("Size", ["Unknown".toList, "20".toList])]
  sorted := by decide
  unknown := by decide

/-- The key `20-` is that of an age and of a size. -/
theorem not_keysAgree_ageSize : ¬ageSize.KeysAgree := by
  intro h
  have hage : IsChoice ageSize.segments [("Age", "20".toList), ("Size", "Unknown".toList)] :=
    .cons ⟨rfl, by decide⟩ (.cons ⟨rfl, by decide⟩ .nil)
  have hsize : IsChoice ageSize.segments [("Age", "Unknown".toList), ("Size", "20".toList)] :=
    .cons ⟨rfl, by decide⟩ (.cons ⟨rfl, by decide⟩ .nil)
  have hkey := (h.keys _).mpr ⟨_, hage, rfl⟩
  obtain ⟨features, hfeatures⟩ := mem_iff.mp hkey
  have hsame := (h.unambiguous _ features hfeatures _ hage rfl).trans
    (h.unambiguous _ features hfeatures _ hsize (by decide)).symm
  exact absurd hsame (by decide)

end AdDelivery.Selector
