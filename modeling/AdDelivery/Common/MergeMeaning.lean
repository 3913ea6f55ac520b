import AdDelivery.Common.PairwiseScdMerger
import AdDelivery.Core.Keyed
import AdDelivery.Core.KeyedUnion
import Mathlib.Data.List.DropRight

/-!
# What a list of records means

Records that are applied one after another leave a document or none for each DOCID. The merger
folds the records of a DOCID into one value, which keeps properties over a deletion. It means the
same as the records exactly if no property is left over.
-/

namespace AdDelivery.Common

open List Finmap Option

/-- What a record does to the document of its DOCID. -/
def applyRecord (found : Option Document) (value : ValueType) : Option Document :=
  match value.type with
  | some .insert => some value.doc
  | some .update | some .rtype => some (copyProperties (found.getD ∅) value.doc)
  | some .delete => none
  | none => found

/-- The documents after all records. -/
def meaning (log : List ValueType) : Bytes → Option Document :=
  replay (fun value => docid value.doc) applyRecord log fun _ => none

/-- The records of a DOCID. -/
def recordsOf (log : List ValueType) (id : Bytes) : List ValueType :=
  log.filter fun value => decide (docid value.doc = id)

variable (log : List ValueType)

theorem meaning_apply (id : Bytes) : meaning log id = (recordsOf log id).foldl applyRecord none :=
  replay_apply log _ id

/-- The last insert with what follows it, or all records if there is none. -/
def sinceInsert (log : List ValueType) : List ValueType :=
  (log.rdropWhile fun value => value.type != some .insert).getLast?.toList ++
    log.rtakeWhile fun value => value.type != some .insert

/-- What follows the last deletion of these. -/
def sinceDelete (log : List ValueType) : List ValueType :=
  (sinceInsert log).rtakeWhile fun value => value.type != some .delete

/-- No property is left over from before a deletion: if records follow the last deletion, without
an insert, then they bring all properties that were there before. -/
def NoLeftover (log : List ValueType) : Prop :=
  sinceDelete log ≠ [] → ∀ value ∈ sinceInsert log, ∀ property ∈ value.doc,
    ∃ value' ∈ sinceDelete log, property ∈ value'.doc

variable (value : ValueType)

theorem sinceInsert_concat : sinceInsert (log ++ [value]) =
      if value.type = some .insert then [value] else sinceInsert log ++ [value] := by
  rw [sinceInsert]
  by_cases hinsert : value.type = some .insert
  · simp [hinsert]
  · simp [hinsert, sinceInsert]

theorem sinceDelete_concat : sinceDelete (log ++ [value]) =
      if value.type = some .insert then [value]
      else if value.type = some .delete then [] else sinceDelete log ++ [value] := by
  rw [sinceDelete, sinceInsert_concat]
  by_cases hinsert : value.type = some .insert
  · simp [hinsert, rtakeWhile]
  · rw [if_neg hinsert, if_neg hinsert, rtakeWhile_concat, ← sinceDelete]
    by_cases hdelete : value.type = some .delete
    · simp [hdelete]
    · simp [hdelete]

/-- The value that the merger makes of records. -/
def mergeAll (log : List ValueType) : ValueType := log.foldl defaultMerge {}

theorem mergeAll_concat : mergeAll (log ++ [value]) = defaultMerge (mergeAll log) value := by
  rw [mergeAll, foldl_append]
  rfl

/-- How the merged value relates to the document that the records leave. -/
structure Merged (log : List ValueType) (merged : ValueType) (found : Option Document) : Prop where
  carried : ∀ property, property ∈ merged.doc ↔ ∃ value ∈ sinceInsert log, property ∈ value.doc
  none_iff : found = none ↔ sinceDelete log = []
  present : ∀ doc, found = some doc → ∀ property,
    property ∈ doc ↔ ∃ value ∈ sinceDelete log, property ∈ value.doc
  agree : ∀ doc, found = some doc → ∀ property ∈ doc,
    merged.doc.lookup property = doc.lookup property
  type_none : found = none → merged.type = none ∨ merged.type = some .delete
  type_some : found ≠ none → merged.type ≠ none ∧ merged.type ≠ some .delete

namespace Merged

variable {log : List ValueType} {merged value : ValueType} {found : Option Document}

theorem nil : Merged [] {} none where
  carried property := by simpa [sinceInsert] using notMem_empty
  none_iff := by simp [sinceDelete, sinceInsert]
  present _ h := absurd h (by simp)
  agree _ h := absurd h (by simp)
  type_none _ := .inl rfl
  type_some h := absurd rfl h

theorem insert (hvalue : value.type = some .insert) :
    Merged (log ++ [value]) value (some value.doc) where
  carried property := by rw [sinceInsert_concat, if_pos hvalue]; simp
  none_iff := by rw [sinceDelete_concat, if_pos hvalue]; simp
  present doc h property := by
    obtain rfl := some.inj h
    rw [sinceDelete_concat, if_pos hvalue]
    simp
  agree doc h property _ := by
    obtain rfl := some.inj h
    rfl
  type_none h := absurd h (by simp)
  type_some _ := by simp [hvalue]

theorem mem_copyProperties {doc other : Document} {property : String} :
    property ∈ copyProperties doc other ↔ property ∈ doc ∨ property ∈ other := by
  rw [copyProperties, mem_union, or_comm]

/-- What records carry that end with one that is no insert. -/
theorem carried_concat (h : Merged log merged found) (hvalue : value.type ≠ some .insert)
    (property : String) : property ∈ copyProperties merged.doc value.doc ↔
      ∃ value' ∈ sinceInsert (log ++ [value]), property ∈ value'.doc := by
  rw [sinceInsert_concat, if_neg hvalue, mem_copyProperties, h.carried]
  simp [or_and_right, exists_or]

theorem delete (h : Merged log merged found) (hvalue : value.type = some .delete) :
    Merged (log ++ [value]) ⟨copyProperties merged.doc value.doc, value.type⟩ none where
  carried := h.carried_concat (by simp [hvalue])
  none_iff := by
    rw [sinceDelete_concat, if_neg (by simp [hvalue]), if_pos hvalue]
    simp
  present _ hnone := absurd hnone (by simp)
  agree _ hnone := absurd hnone (by simp)
  type_none _ := .inr hvalue
  type_some hnone := absurd rfl hnone

/-- A value of a type that is neither an insert nor a deletion. -/
theorem update (h : Merged log merged found) (hinsert : value.type ≠ some .insert)
    (hdelete : value.type ≠ some .delete) (htype : value.type ≠ none) : Merged (log ++ [value])
      ⟨copyProperties merged.doc value.doc,
        if merged.type ≠ some .insert then value.type else merged.type⟩
      (some (copyProperties (found.getD ∅) value.doc)) where
  carried := h.carried_concat hinsert
  none_iff := by
    rw [sinceDelete_concat, if_neg hinsert, if_neg hdelete]
    simp
  present doc hdoc property := by
    obtain rfl := some.inj hdoc
    rw [sinceDelete_concat, if_neg hinsert, if_neg hdelete, mem_copyProperties]
    have hfound : property ∈ found.getD ∅ ↔ ∃ value' ∈ sinceDelete log, property ∈ value'.doc := by
      cases found with
      | none =>
        rw [h.none_iff.mp rfl]
        simpa using notMem_empty
      | some doc => exact h.present doc rfl property
    rw [hfound]
    simp [or_and_right, exists_or]
  agree doc hdoc property hmem := by
    obtain rfl := some.inj hdoc
    rw [copyProperties, copyProperties]
    by_cases hvalue : property ∈ value.doc
    · rw [lookup_union_left hvalue, lookup_union_left hvalue]
    · rw [lookup_union_right hvalue, lookup_union_right hvalue]
      have hfound := (mem_copyProperties.mp hmem).resolve_right hvalue
      cases found with
      | none => exact absurd hfound notMem_empty
      | some doc => exact h.agree doc rfl property hfound
  type_none hnone := absurd hnone (by simp)
  type_some _ := by
    split
    · exact ⟨htype, hdelete⟩
    · rename_i hmerged
      rw [not_not.mp hmerged]
      simp

end Merged

theorem merged_mergeAll {log : List ValueType} (htyped : ∀ value ∈ log, value.type ≠ none) :
    Merged log (mergeAll log) (log.foldl applyRecord none) := by
  induction log using reverseRecOn with
  | nil => exact Merged.nil
  | append_singleton log value ih =>
    have ih := ih fun value' hvalue' => htyped value' (mem_append_left _ hvalue')
    rw [mergeAll_concat, foldl_append, foldl_cons, defaultMerge, applyRecord]
    cases htype : value.type with
    | none => exact absurd htype (htyped value (mem_append_right _ mem_cons_self))
    | some type =>
      have hnone : value.type ≠ none := htype ▸ some_ne_none type
      cases type with
      | insert => exact Merged.insert htype
      | delete =>
        have hdelete := ih.delete htype
        rwa [htype] at hdelete
      | update =>
        have hupdate := ih.update (htype ▸ by simp) (htype ▸ by simp) hnone
        rwa [htype] at hupdate
      | rtype =>
        have hupdate := ih.update (htype ▸ by simp) (htype ▸ by simp) hnone
        rwa [htype] at hupdate

/-- The merged value means what the records mean exactly if nothing is left over. -/
theorem applyRecord_mergeAll_iff {log : List ValueType}
    (htyped : ∀ value ∈ log, value.type ≠ none) :
    applyRecord none (mergeAll log) = log.foldl applyRecord none ↔ NoLeftover log := by
  have h := merged_mergeAll htyped
  generalize mergeAll log = merged at h ⊢
  generalize log.foldl applyRecord none = found at h ⊢
  cases found with
  | none =>
    have hmerged : applyRecord none merged = none := by
      rcases h.type_none rfl with htype | htype <;> rw [applyRecord, htype]
    exact iff_of_true hmerged fun hne => absurd (h.none_iff.mp rfl) hne
  | some doc =>
    obtain ⟨hsome, hdelete⟩ := h.type_some (by simp)
    have hmerged : applyRecord none merged = some merged.doc := by
      rw [applyRecord]
      cases htype : merged.type with
      | none => exact absurd htype hsome
      | some type =>
        cases type with
        | insert => rfl
        | delete => exact absurd htype hdelete
        | update => simp [copyProperties]
        | rtype => simp [copyProperties]
    rw [hmerged, some.injEq]
    constructor
    · rintro rfl - value hvalue property hproperty
      exact (h.present _ rfl property).mp ((h.carried property).mpr ⟨value, hvalue, hproperty⟩)
    · intro hclean
      have hne : sinceDelete log ≠ [] := fun hnil => some_ne_none doc (h.none_iff.mpr hnil)
      apply ext_lookup
      intro property
      by_cases hmem : property ∈ doc
      · exact h.agree doc rfl property hmem
      · have hcarried : property ∉ merged.doc := by
          intro hcarried
          obtain ⟨value, hvalue, hproperty⟩ := (h.carried property).mp hcarried
          exact hmem ((h.present doc rfl property).mpr (hclean hne value hvalue property hproperty))
        rw [lookup_eq_none.mpr hmem, lookup_eq_none.mpr hcarried]

end AdDelivery.Common
