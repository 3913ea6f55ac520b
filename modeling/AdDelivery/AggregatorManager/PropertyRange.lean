import AdDelivery.AggregatorManager.DistSearchResult
import AdDelivery.SearchManager.SearchThreadMaster
import Mathlib.Algebra.Order.Ring.Rat

/-!
# The range of a property

The threads of a worker and then the workers report the least and the greatest value of a
property among their documents. A part without any value reports zero, and the merger starts
from the smallest positive float.
-/

namespace AdDelivery.RangeAggregation

open List Set
open DistSearch SearchThreadMaster
open SearchMerger (WorkerId WDocId)

section Bounds

variable {F : Type} [LinearOrder F] {S : Set F} {a v : F}

theorem isLeast_insert_iff (h : IsLeast (insert a S) v) : IsLeast S v ↔ ∃ w ∈ S, w ≤ a := by
  constructor
  · exact fun hS => ⟨v, hS.1, h.2 (mem_insert a S)⟩
  · rintro ⟨w, hw, hle⟩
    refine ⟨?_, fun x hx => h.2 (mem_insert_of_mem a hx)⟩
    rcases h.1 with rfl | hv
    · rwa [le_antisymm hle (h.2 (mem_insert_of_mem v hw))] at hw
    · exact hv

theorem isGreatest_insert_iff (h : IsGreatest (insert a S) v) :
    IsGreatest S v ↔ ∃ w ∈ S, a ≤ w :=
  isLeast_insert_iff (F := Fᵒᵈ) h

variable {b : F}

theorem isLeast_insert_min (h : IsLeast (insert (min b a) S) v) :
    IsLeast (insert a (insert b S)) v := by
  have hmin := h.2 (mem_insert (min b a) S)
  refine ⟨?_, ?_⟩
  · rcases h.1 with rfl | hv
    · rcases min_choice b a with hmin | hmin
      · exact Or.inr (Or.inl hmin)
      · exact Or.inl hmin
    · exact Or.inr (Or.inr hv)
  · rintro x (rfl | rfl | hx)
    · exact hmin.trans (min_le_right _ _)
    · exact hmin.trans (min_le_left _ _)
    · exact h.2 (mem_insert_of_mem _ hx)

theorem isGreatest_insert_max (h : IsGreatest (insert (max a b) S) v) :
    IsGreatest (insert a (insert b S)) v := by
  rw [insert_comm]
  exact isLeast_insert_min (F := Fᵒᵈ) h

theorem isLeast_insert_union {T : Set F} (h : IsLeast (insert a (insert b S)) v)
    (hb : IsLeast T b) : IsLeast (insert a (T ∪ S)) v := by
  refine ⟨?_, ?_⟩
  · rcases h.1 with rfl | rfl | hv
    · exact Or.inl rfl
    · exact Or.inr (Or.inl hb.1)
    · exact Or.inr (Or.inr hv)
  · rintro x (rfl | hx | hx)
    · exact h.2 (Or.inl rfl)
    · exact (h.2 (Or.inr (Or.inl rfl))).trans (hb.2 hx)
    · exact h.2 (Or.inr (Or.inr hx))

theorem isGreatest_insert_union {T : Set F} (h : IsGreatest (insert a (insert b S)) v)
    (hb : IsGreatest T b) : IsGreatest (insert a (T ∪ S)) v :=
  isLeast_insert_union (F := Fᵒᵈ) h hb

end Bounds

variable {F D S : Type} [LinearOrder F] {format : FloatFormat F D}

/-- The floats are the finite ones: `max` is the greatest, and `min` a positive one. -/
structure Ordered (format : FloatFormat F D) : Prop where
  less_iff : ∀ v w, format.less v w = true ↔ v < w
  lowest_le : ∀ v, format.lowest ≤ v
  le_max : ∀ v, v ≤ format.max
  zero_lt_min : format.zero < format.min

/-- The range is exactly from the least to the greatest of the values. -/
def IsRange (values : Set F) (range : PropertyRange F) : Prop :=
  IsLeast values range.lowValue ∧ IsGreatest values range.highValue

variable {range : PropertyRange F}

theorem IsRange.le {values : Set F} (h : IsRange values range) :
    range.lowValue ≤ range.highValue := h.2.2 h.1.1

/-- The values among the documents of a thread. -/
def valuesOf (thread : List (Option F)) : Set F := {v | some v ∈ thread}

/-- What a thread shows: zero when it has no value. -/
def shown (format : FloatFormat F D) (thread : List (Option F)) : Set F :=
  {v | some v ∈ thread ∨ (∀ w, some w ∉ thread) ∧ v = format.zero}

/-- What some threads show. -/
def shownBy (format : FloatFormat F D) (threads : List (List (Option F))) : Set F :=
  {v | ∃ thread ∈ threads, v ∈ shown format thread}

omit [LinearOrder F] in
theorem shownBy_cons (format : FloatFormat F D) (thread : List (Option F))
    (threads : List (List (Option F))) :
    shownBy format (thread :: threads) = shown format thread ∪ shownBy format threads := by
  ext v
  simp [shownBy]

omit [LinearOrder F] in
theorem shownBy_append (format : FloatFormat F D) (threads threads' : List (List (Option F))) :
    shownBy format (threads ++ threads') = shownBy format threads ∪ shownBy format threads' := by
  ext v
  simp [shownBy, or_and_right, exists_or]

theorem ite_less_min (h : Ordered format) (v w : F) :
    (if format.less v w = true then v else w) = min v w := by
  simp only [h.less_iff]
  rcases lt_or_ge v w with hlt | hge
  · rw [if_pos hlt, min_eq_left hlt.le]
  · rw [if_neg hge.not_gt, min_eq_right hge]

theorem ite_less_max (h : Ordered format) (v w : F) :
    (if format.less v w = true then w else v) = max v w := by
  simp only [h.less_iff]
  rcases lt_or_ge v w with hlt | hge
  · rw [if_pos hlt, max_eq_right hlt.le]
  · rw [if_neg hge.not_gt, max_eq_left hge]

theorem narrow_spec (h : Ordered format) (range : PropertyRange F) (thread : List (Option F)) :
    IsLeast (insert range.lowValue (valuesOf thread)) (narrow format range thread).lowValue ∧
      IsGreatest (insert range.highValue (valuesOf thread))
        (narrow format range thread).highValue := by
  induction thread generalizing range with
  | nil => simp [narrow, valuesOf]
  | cons value thread ih =>
    cases value with
    | none =>
      have hvalues : valuesOf (none :: thread) = valuesOf thread := by simp [valuesOf]
      rw [hvalues]
      exact ih range
    | some value =>
      have hvalues : valuesOf (some value :: thread) = insert value (valuesOf thread) := by
        ext v
        simp [valuesOf, eq_comm]
      rw [narrow, ite_less_min h, ite_less_max h, hvalues]
      obtain ⟨hlow, hhigh⟩ := ih
        { lowValue := min value range.lowValue, highValue := max range.highValue value }
      exact ⟨isLeast_insert_min hlow, isGreatest_insert_max hhigh⟩

theorem zeroRange_isRange (format : FloatFormat F D) :
    IsRange {format.zero} (zeroRange format) := ⟨isLeast_singleton, isGreatest_singleton⟩

/-- A thread reports the range of what it shows. -/
theorem doSearchRange_isRange (h : Ordered format) (thread : List (Option F)) :
    IsRange (shown format thread) (doSearchRange format (zeroRange format) thread) := by
  obtain ⟨hlow, hhigh⟩ :=
    narrow_spec h { lowValue := format.max, highValue := format.lowest } thread
  rw [doSearchRange]
  by_cases hvalue : ∃ v, some v ∈ thread
  · obtain ⟨v, hv⟩ := hvalue
    have hshown : shown format thread = valuesOf thread := by
      ext w
      exact or_iff_left fun hnone => hnone.1 v hv
    have hrange : IsRange (valuesOf thread)
        (narrow format { lowValue := format.max, highValue := format.lowest } thread) :=
      ⟨(isLeast_insert_iff hlow).mpr ⟨v, hv, h.le_max v⟩,
        (isGreatest_insert_iff hhigh).mpr ⟨v, hv, h.lowest_le v⟩⟩
    rw [if_neg, hshown]
    · exact hrange
    · rw [h.less_iff]
      exact hrange.le.not_gt
  · have hnone : ∀ v, some v ∉ thread := fun v hv => hvalue ⟨v, hv⟩
    have hvalues : valuesOf thread = ∅ := eq_empty_of_forall_notMem hnone
    have hshown : shown format thread = {format.zero} := by
      ext w
      exact (or_iff_right (hnone w)).trans (and_iff_right hnone)
    rw [hvalues, insert_empty_eq] at hlow hhigh
    have hlow' := hlow.1
    have hhigh' := hhigh.1
    rw [if_pos, hshown]
    · exact zeroRange_isRange format
    · rw [h.less_iff, hlow', hhigh']
      exact ((h.lowest_le _).trans_lt h.zero_lt_min).trans_le (h.le_max _)

theorem mergeRange_isRange (h : Ordered format) {values values' : Set F}
    {range range' : PropertyRange F} (hrange : IsRange values range)
    (hrange' : IsRange values' range') :
    IsRange (values ∪ values') (mergeRange format range range') := by
  rw [mergeRange, if_neg (by rw [h.less_iff]; exact hrange'.le.not_gt), ite_less_min h,
    ite_less_max h]
  rw [max_comm]
  exact ⟨hrange.1.union hrange'.1, hrange.2.union hrange'.2⟩

theorem foldl_mergeRange_isRange (h : Ordered format) {values : Set F}
    (hrange : IsRange values range) (threads : List (List (Option F))) :
    IsRange (values ∪ shownBy format threads)
      ((threads.map (doSearchRange format (zeroRange format))).foldl (mergeRange format)
        range) := by
  induction threads generalizing values range with
  | nil => simpa [shownBy] using hrange
  | cons thread threads ih =>
    rw [shownBy_cons, ← union_assoc]
    exact ih (mergeRange_isRange h hrange (doSearchRange_isRange h thread))

/-- Every thread succeeds, with the range of its values. -/
def rangeSearch (format : FloatFormat F D) (threads : List (List (Option F))) : ThreadSearch F :=
  fun i => (true, doSearchRange format (zeroRange format) (threads.getD i []))

/-- The range of the first thread after the merge. -/
def mergedRange (format : FloatFormat F D) (attrGroupNum : ℤ) (threads : List (List (Option F))) :
    PropertyRange F :=
  let (threadParams, attrGroupNum) :=
    prepareThreadParams format threads.length attrGroupNum
  let (_, threadParams) := runThreadParams (rangeSearch format threads) threadParams
  (mergeThreadParams format threadParams attrGroupNum).2.1.elim (zeroRange format)
    SearchThreadParam.propertyRange

omit [LinearOrder F] in
theorem mergedRange_eq (format : FloatFormat F D) (attrGroupNum : ℤ) (thread : List (Option F))
    (threads : List (List (Option F))) : mergedRange format attrGroupNum (thread :: threads) =
      (threads.map (doSearchRange format (zeroRange format))).foldl (mergeRange format)
        (doSearchRange format (zeroRange format) thread) := by
  cases threads with
  | nil => simp [mergedRange, prepareThreadParams, runThreadParams, mergeThreadParams, rangeSearch]
  | cons thread' threads =>
    have hlength : 1 < (thread :: thread' :: threads).length := by simp
    have hall := (all_ranParams (rangeSearch format (thread :: thread' :: threads)) attrGroupNum
      (thread :: thread' :: threads).length).mpr fun _ _ => rfl
    have helim : ∀ merged : Option (SearchThreadParam F),
        merged.elim (zeroRange format) SearchThreadParam.propertyRange =
          (merged.map SearchThreadParam.propertyRange).getD (zeroRange format) := by
      rintro (_ | param) <;> rfl
    rw [mergedRange]
    simp only [run_prepare format _ attrGroupNum hlength, helim]
    rw [length_cons, ranParams_succ] at hall ⊢
    rw [mergeThreadParams_propertyRange format (by simp) _ hall, Option.getD_some, List.map_map]
    have hranges : (List.range (thread' :: threads).length).map
        (SearchThreadParam.propertyRange ∘ fun i =>
          ranParam (rangeSearch format (thread :: thread' :: threads)) attrGroupNum (i + 1)) =
        (thread' :: threads).map (doSearchRange format (zeroRange format)) := by
      refine ext_getElem (by simp) fun i hi hi' => ?_
      have hi'' : i < (thread' :: threads).length := by simpa using hi
      rw [getElem_map, getElem_map, getElem_range, Function.comp_apply, ranParam,
        rangeSearch, getD_cons_succ, getD_eq_getElem _ _ hi'']
    rw [hranges]
    rfl

variable {threads : List (List (Option F))}

/-- The range that a worker reports is that of what its threads show. -/
theorem mergedRange_isRange (h : Ordered format) (attrGroupNum : ℤ) (hthreads : threads ≠ []) :
    IsRange (shownBy format threads) (mergedRange format attrGroupNum threads) := by
  obtain ⟨thread, threads, rfl⟩ := exists_cons_of_ne_nil hthreads
  rw [mergedRange_eq, shownBy_cons]
  exact foldl_mergeRange_isRange h (doSearchRange_isRange h thread) threads

/-- The results report the ranges of the workers. -/
structure Reports (format : FloatFormat F D) (attrGroupNum : ℤ)
    (workers : List (List (List (Option F)))) (results : WorkerResults F D S) : Prop where
  propertyRange : results.map (fun w => w.2.propertyRange) =
    workers.map (mergedRange format attrGroupNum)
  error : ∀ w ∈ results, w.2.error = ""
  majorTokenNum : ∀ w ∈ results, ∀ w' ∈ results,
    w.2.distSearchInfo.majorTokenNum = w'.2.distSearchInfo.majorTokenNum

theorem mergePropertyRange_eq (h : Ordered format) (results : WorkerResults F D S) :
    mergePropertyRange format results =
      (results.map fun w => w.2.propertyRange).foldl (fun merged range =>
        { lowValue := min range.lowValue merged.lowValue
          highValue := max merged.highValue range.highValue })
        { lowValue := format.max, highValue := format.min } := by
  rw [mergePropertyRange, foldl_map]
  simp only [ite_less_min h, ite_less_max h]

/-- The least and the greatest value of what the workers show, and the bounds the merger starts
from. -/
theorem foldl_bounds (h : Ordered format) (attrGroupNum : ℤ)
    {workers : List (List (List (Option F)))} (hworkers : ∀ threads ∈ workers, threads ≠ [])
    (merged : PropertyRange F) :
    let range := (workers.map (mergedRange format attrGroupNum)).foldl (fun merged range =>
      { lowValue := min range.lowValue merged.lowValue
        highValue := max merged.highValue range.highValue }) merged
    IsLeast (insert merged.lowValue (shownBy format workers.flatten)) range.lowValue ∧
      IsGreatest (insert merged.highValue (shownBy format workers.flatten)) range.highValue := by
  induction workers generalizing merged with
  | nil => simp [shownBy]
  | cons threads workers ih =>
    have hrange := mergedRange_isRange h attrGroupNum (hworkers threads mem_cons_self)
    obtain ⟨hlow, hhigh⟩ := ih (fun w hw => hworkers w (mem_cons_of_mem _ hw))
      { lowValue := min (mergedRange format attrGroupNum threads).lowValue merged.lowValue
        highValue := max merged.highValue (mergedRange format attrGroupNum threads).highValue }
    rw [flatten_cons, shownBy_append]
    exact ⟨isLeast_insert_union (isLeast_insert_min hlow) hrange.1,
      isGreatest_insert_union (isGreatest_insert_max hhigh) hrange.2⟩

/-- The values among all documents of some threads. -/
def valuesIn (threads : List (List (Option F))) : Set F := {v | ∃ thread ∈ threads, some v ∈ thread}

/-- Every thread has a document with a value. -/
def AllHaveValues (threads : List (List (Option F))) : Prop :=
  ∀ thread ∈ threads, ∃ v, some v ∈ thread

omit [LinearOrder F] in
theorem shownBy_of_all {threads : List (List (Option F))} (h : AllHaveValues threads) :
    shownBy format threads = valuesIn threads := by
  ext v
  refine exists_congr fun thread => and_congr_right fun hthread => ?_
  obtain ⟨w, hw⟩ := h thread hthread
  exact or_iff_left fun hnone => hnone.1 w hw

omit [LinearOrder F] in
theorem shownBy_of_not_all {threads : List (List (Option F))} (h : ¬ AllHaveValues threads) :
    shownBy format threads = insert format.zero (valuesIn threads) := by
  simp only [AllHaveValues, not_forall] at h
  obtain ⟨empty, hempty, hnone⟩ := h
  ext v
  constructor
  · rintro ⟨thread, hthread, hv | ⟨-, rfl⟩⟩
    · exact Or.inr ⟨thread, hthread, hv⟩
    · exact Or.inl rfl
  · rintro (rfl | ⟨thread, hthread, hv⟩)
    · exact ⟨empty, hempty, Or.inr ⟨fun w hw => hnone ⟨w, hw⟩, rfl⟩⟩
    · exact ⟨thread, hthread, Or.inl hv⟩

/-- Either no thread is without values, or zero is between the values. -/
def ZeroFits (format : FloatFormat F D) (threads : List (List (Option F))) : Prop :=
  AllHaveValues threads ∨
    (∃ v ∈ valuesIn threads, v ≤ format.zero) ∧ ∃ v ∈ valuesIn threads, format.zero ≤ v

theorem isRange_iff_zeroFits (h : IsRange (shownBy format threads) range) :
    IsRange (valuesIn threads) range ↔ ZeroFits format threads := by
  by_cases hall : AllHaveValues threads
  · rw [shownBy_of_all hall] at h
    exact iff_of_true h (Or.inl hall)
  · rw [shownBy_of_not_all hall] at h
    rw [IsRange, isLeast_insert_iff h.1, isGreatest_insert_iff h.2]
    exact (or_iff_right hall).symm

section Workers

variable [LinearOrder S] [Inhabited S] {isNewerDocId : WDocId → WDocId → Bool}
  {roundDown : ℕ → Int32 → ℕ} {attrGroupNum : ℤ} {workers : List (List (List (Option F)))}
  {results : WorkerResults F D S}

omit [LinearOrder F] [LinearOrder S] [Inhabited S] in
theorem find?_error (h : ∀ w ∈ results, w.2.error = "") :
    (results.find? fun w => decide (w.2.error ≠ "")) = none := by
  refine find?_eq_none.mpr fun w hw => ?_
  simp [h w hw]

omit [LinearOrder F] in
/-- A single result is copied. -/
theorem propertyRange_single {w : WorkerId × KeywordSearchResult F D S} (h : w.2.error = "")
    (mergeResult : KeywordSearchResult F D S) :
    (getDistSearchResult format isNewerDocId roundDown [w] mergeResult).propertyRange =
      w.2.propertyRange := by
  rw [getDistSearchResult, if_neg (by simp), find?_error (by simpa using h)]
  rfl

omit [LinearOrder F] in
theorem propertyRange_several (herror : ∀ w ∈ results, w.2.error = "")
    (htoken : ∀ w ∈ results, ∀ w' ∈ results,
      w.2.distSearchInfo.majorTokenNum = w'.2.distSearchInfo.majorTokenNum)
    (hlength : 2 ≤ results.length) (mergeResult : KeywordSearchResult F D S) :
    (getDistSearchResult format isNewerDocId roundDown results mergeResult).propertyRange =
      mergePropertyRange format results := by
  rw [getDistSearchResult, if_neg (by omega), find?_error herror,
    keepLargestTokenNum_eq format htoken]
  simp only [if_neg (show ¬ results.length = 1 by omega)]
  rfl

/-- Several workers: the merger also shows the smallest positive float. -/
theorem isRange_several_iff (h : Ordered format) (hthreads : ∀ threads ∈ workers, threads ≠ [])
    (hreports : Reports format attrGroupNum workers results) (hlength : 2 ≤ workers.length)
    (mergeResult : KeywordSearchResult F D S) : IsRange (valuesIn workers.flatten)
      (getDistSearchResult format isNewerDocId roundDown results mergeResult).propertyRange ↔
      ZeroFits format workers.flatten ∧ ∃ v ∈ valuesIn workers.flatten, format.min ≤ v := by
  have hresults : results.length = workers.length := by
    have := congrArg List.length hreports.propertyRange
    rwa [List.length_map, List.length_map] at this
  obtain ⟨hlow, hhigh⟩ := foldl_bounds h attrGroupNum hthreads
    { lowValue := format.max, highValue := format.min }
  rw [propertyRange_several hreports.error hreports.majorTokenNum (by omega),
    mergePropertyRange_eq h, hreports.propertyRange]
  rw [IsRange]
  by_cases hall : AllHaveValues workers.flatten
  · rw [shownBy_of_all hall] at hlow hhigh
    obtain ⟨threads, hmem⟩ := exists_mem_of_length_pos (by omega : 0 < workers.length)
    obtain ⟨thread, hthread⟩ := exists_mem_of_ne_nil _ (hthreads threads hmem)
    have hflatten := mem_flatten.mpr ⟨threads, hmem, hthread⟩
    obtain ⟨v, hv⟩ := hall thread hflatten
    have hleast := (isLeast_insert_iff hlow).mpr ⟨v, ⟨thread, hflatten, hv⟩, h.le_max v⟩
    rw [and_iff_right hleast, isGreatest_insert_iff hhigh,
      and_iff_right (show ZeroFits format workers.flatten from Or.inl hall)]
  · rw [shownBy_of_not_all hall] at hlow hhigh
    have hleast := (isLeast_insert_iff hlow).mpr ⟨_, mem_insert _ _, h.le_max _⟩
    rw [insert_comm] at hhigh
    have hgreatest := (isGreatest_insert_iff hhigh).mpr
      ⟨_, mem_insert _ _, h.zero_lt_min.le⟩
    rw [isLeast_insert_iff hleast, isGreatest_insert_iff hgreatest]
    constructor
    · rintro ⟨hle, v, hv, hmin⟩
      exact ⟨Or.inr ⟨hle, v, hv, h.zero_lt_min.le.trans hmin⟩, v, hv, hmin⟩
    · rintro ⟨hzero, hmin⟩
      exact ⟨(hzero.resolve_left hall).1, hmin⟩

variable (isNewerDocId) (roundDown) in
/-- The reported ranges are exact just where no part is without values or zero is among them,
and, for several workers, where some value is as great as the smallest positive float. -/
theorem propertyRange_exact_iff (h : Ordered format) (attrGroupNum : ℤ) :
    (∀ threads : List (List (Option F)), threads ≠ [] →
      (IsRange (valuesIn threads) (mergedRange format attrGroupNum threads) ↔
        ZeroFits format threads)) ∧
    ∀ (workers : List (List (List (Option F)))) (results : WorkerResults F D S)
      (mergeResult : KeywordSearchResult F D S), workers ≠ [] →
      (∀ threads ∈ workers, threads ≠ []) → Reports format attrGroupNum workers results →
      (IsRange (valuesIn workers.flatten)
          (getDistSearchResult format isNewerDocId roundDown results mergeResult).propertyRange ↔
        ZeroFits format workers.flatten ∧
          (workers.length = 1 ∨ ∃ v ∈ valuesIn workers.flatten, format.min ≤ v)) := by
  constructor
  · intro threads hthreads
    exact isRange_iff_zeroFits (mergedRange_isRange h attrGroupNum hthreads)
  · intro workers results mergeResult hworkers hthreads hreports
    rcases Nat.lt_or_ge 1 workers.length with hlength | hlength
    · rw [isRange_several_iff h hthreads hreports hlength, or_iff_right (by omega)]
    · obtain ⟨threads, rfl⟩ : ∃ threads, workers = [threads] :=
        length_eq_one_iff.mp (Nat.le_antisymm hlength (length_pos_iff.mpr hworkers))
      have hmap := hreports.propertyRange
      obtain ⟨w, rfl⟩ : ∃ w, results = [w] := by
        have hone := congrArg List.length hmap
        rw [List.length_map, List.length_map] at hone
        exact length_eq_one_iff.mp hone
      have hrange : w.2.propertyRange = mergedRange format attrGroupNum threads := by
        simpa using hmap
      rw [propertyRange_single (hreports.error w mem_cons_self), hrange,
        flatten_singleton, and_iff_left (Or.inl length_singleton)]
      exact isRange_iff_zeroFits
        (mergedRange_isRange h attrGroupNum (hthreads threads mem_cons_self))

end Workers

/-- The greatest float. -/
def floatMax : ℤ := (2 ^ 24 - 1) * 2 ^ 104

/-- The numbers between the lowest and the greatest float. -/
abbrev Number := {v : ℚ // -floatMax ≤ v ∧ v ≤ floatMax}

def number (n : ℤ) (h : -99 ≤ n ∧ n ≤ 99 := by decide) : Number :=
  ⟨n, by norm_cast; unfold floatMax; omega⟩

def numbers : FloatFormat Number Unit where
  zero := number 0
  lowest := ⟨-floatMax, le_rfl, by decide +kernel⟩
  min := ⟨1 / 2 ^ 126, by decide +kernel⟩
  max := ⟨floatMax, by decide +kernel, le_rfl⟩
  less v w := decide (v < w)
  near v w := decide (v = w)
  reread _ := []

theorem numbers_ordered : Ordered numbers where
  less_iff _ _ := decide_eq_true_iff
  lowest_le v := v.2.1
  le_max v := v.2.2
  zero_lt_min := by decide +kernel

/-- The results of some workers that report a range and nothing else. -/
def rangeResults (workers : List (List (List (Option Number)))) :
    WorkerResults Number Unit String :=
  workers.map fun threads => (1, { propertyRange := mergedRange numbers 0 threads })

theorem rangeResults_reports (workers : List (List (List (Option Number)))) :
    Reports numbers 0 workers (rangeResults workers) where
  propertyRange := by simp [rangeResults]
  error := by simp [rangeResults]
  majorTokenNum := by
    intro w hw w' hw'
    obtain ⟨threads, -, rfl⟩ := mem_map.mp hw
    obtain ⟨threads', -, rfl⟩ := mem_map.mp hw'
    rfl

/-- Two threads with values. -/
def twoThreads : List (List (Option Number)) := [[some (number 9)], [none, some (number 5)]]

theorem allHaveValues_twoThreads : AllHaveValues twoThreads := by
  simp [AllHaveValues, twoThreads, -Subtype.exists]

theorem propertyRange_exact_of_values :
    IsRange (valuesIn twoThreads) (mergedRange numbers 0 twoThreads) ∧
      IsRange (valuesIn [twoThreads, twoThreads].flatten)
        (getDistSearchResult numbers (fun _ _ => false) (fun start _ => start)
          (rangeResults [twoThreads, twoThreads]) (.new numbers)).propertyRange := by
  have h := @propertyRange_exact_iff Number Unit String _ numbers _ _ (fun _ _ => false)
    (fun start _ => start) numbers_ordered 0
  refine ⟨(h.1 _ (cons_ne_nil _ _)).mpr (Or.inl allHaveValues_twoThreads), ?_⟩
  refine (h.2 _ _ _ (cons_ne_nil _ _) ?_ (rangeResults_reports _)).mpr
    ⟨Or.inl ?_, Or.inr ⟨number 9, ?_, by decide +kernel⟩⟩
  · simp [twoThreads]
  · simpa [AllHaveValues, or_imp, forall_and] using allHaveValues_twoThreads
  · simp [valuesIn, twoThreads]

/-- A thread without a value reports zero, and the merger never reports a highest value below
zero. -/
theorem propertyRange_wrong :
    ¬ IsRange (valuesIn [[some (number 9)], []])
        (mergedRange numbers 0 [[some (number 9)], []]) ∧
      ¬ IsRange (valuesIn [[some (number (-2))], [some (number (-1))]])
        (getDistSearchResult numbers (fun _ _ => false) (fun start _ => start)
          (rangeResults [[[some (number (-2))]], [[some (number (-1))]]])
          (.new numbers)).propertyRange := by
  constructor
  · intro h
    have hlow : (mergedRange numbers 0 [[some (number 9)], []]).lowValue = number 0 := by
      decide +kernel
    have hmem := h.1.1
    rw [hlow] at hmem
    simp [valuesIn, number] at hmem
  · intro h
    have hhigh : (getDistSearchResult numbers (fun _ _ => false) (fun start _ => start)
        (rangeResults [[[some (number (-2))]], [[some (number (-1))]]])
        (.new numbers)).propertyRange.highValue = numbers.min := by decide +kernel
    have hno : numbers.min ≠ number (-2) ∧ numbers.min ≠ number (-1) := by decide +kernel
    have hmem := h.2.1
    rw [hhigh] at hmem
    simp [valuesIn, hno] at hmem

end AdDelivery.RangeAggregation
