import AdDelivery.AggregatorManager.MergeComparator

/-!
# The threads of a search

A search is split over threads by document id. Each thread has its own parameters, and the first
one takes in those of the others. While several threads run, the request asks for all attributes
instead of the wanted number, which is put back when the threads are merged.
-/

namespace AdDelivery.SearchThreadMaster

open List
open DistSearch (FloatFormat PropertyRange)

variable {F D : Type} (format : FloatFormat F D)

/-- The members besides the documents, counts and facets of a thread. -/
structure SearchThreadParam (F : Type) where
  propertyRange : PropertyRange F
  originAttrGroupNum : ℤ := 0
  isSuccess : Bool := false

/-- What the constructor of a range makes. -/
def zeroRange : PropertyRange F := { highValue := format.zero, lowValue := format.zero }

/-- The loop of `doSearch_` over the values of the range property. `none` stands for a document
without a value. -/
def narrow (range : PropertyRange F) : List (Option F) → PropertyRange F
  | [] => range
  | none :: values => narrow range values
  | some value :: values =>
    narrow
      { lowValue := if format.less value range.lowValue then value else range.lowValue
        highValue := if format.less range.highValue value then value else range.highValue }
      values

/-- The range is written when a value was seen. -/
def doSearchRange (range : PropertyRange F) (values : List (Option F)) : PropertyRange F :=
  let found := narrow format { lowValue := format.max, highValue := format.lowest } values
  if format.less found.highValue found.lowValue then range else found

/-- Whether threads are used, and how many the processor has. -/
structure ThreadInfo where
  isParallelEnabled : Bool
  maxDocId : ℕ
  cpuNum : ℕ

def PARALLEL_THRESHOLD : ℕ := 80000

def getThreadNum (info : ThreadInfo) (isOptionGatherInfo : Bool) : ℕ :=
  if !info.isParallelEnabled || info.maxDocId < PARALLEL_THRESHOLD || isOptionGatherInfo then 1
  else info.cpuNum

/-- With more than one thread the field of the request changes places with the first thread's. -/
def prepareThreadParams (threadNum : ℕ) (attrGroupNum : ℤ) : List (SearchThreadParam F) × ℤ :=
  let threadParams := List.replicate threadNum { propertyRange := zeroRange format }
  if threadNum > 1 then
    (threadParams.mapIdx fun i param =>
      if i = 0 then { param with originAttrGroupNum := attrGroupNum } else param, 0)
  else (threadParams, attrGroupNum)

/-- What the search of a thread returns, and the range it leaves in its parameters. -/
abbrev ThreadSearch (F : Type) := ℕ → Bool × PropertyRange F

/-- Threads always return true, and a single one what its search does. -/
def runThreadParams (search : ThreadSearch F) (threadParams : List (SearchThreadParam F)) :
    Bool × List (SearchThreadParam F) :=
  if threadParams.length = 1 then
    ((search 0).1, threadParams.map fun param => { param with propertyRange := (search 0).2 })
  else
    (true, threadParams.mapIdx fun i param =>
      { param with isSuccess := (search i).1, propertyRange := (search i).2 })

/-- `std::max` and `std::min` of a range that is not upside down. -/
def mergeRange (master range : PropertyRange F) : PropertyRange F :=
  if format.less range.highValue range.lowValue then master
  else
    { highValue := if format.less range.highValue master.highValue then master.highValue
        else range.highValue
      lowValue := if format.less master.lowValue range.lowValue then master.lowValue
        else range.lowValue }

/-- The loop ends at a thread that failed. -/
def mergeOthers (master : SearchThreadParam F) :
    List (SearchThreadParam F) → Bool × SearchThreadParam F
  | [] => (true, master)
  | param :: threadParams =>
    if !param.isSuccess then (false, master)
    else
      mergeOthers
        { master with propertyRange := mergeRange format master.propertyRange param.propertyRange }
        threadParams

/-- The merged parameters of the first thread, and the field of the request. -/
def mergeThreadParams (threadParams : List (SearchThreadParam F)) (attrGroupNum : ℤ) :
    Bool × Option (SearchThreadParam F) × ℤ :=
  match threadParams with
  | [] => (false, none, attrGroupNum)
  | [param] => (true, some param, attrGroupNum)
  | master :: others =>
    if !master.isSuccess then (false, some master, attrGroupNum)
    else
      let (merged, master) := mergeOthers format master others
      if !merged then (false, some master, attrGroupNum)
      else
        (true, some { master with originAttrGroupNum := attrGroupNum }, master.originAttrGroupNum)

/-- What is left after a search: the range of the result, and the field of the request. -/
structure Searched (F : Type) where
  result : Bool
  propertyRange : PropertyRange F
  attrGroupNum : ℤ

/-- `NormalSearch::search`. `fetched` says whether the sort properties could be read. -/
def search (info : ThreadInfo) (noError isOptionGatherInfo fetched : Bool)
    (threadSearch : ThreadSearch F) (propertyRange : PropertyRange F) (attrGroupNum : ℤ) :
    Searched F :=
  if !noError then { result := false, propertyRange, attrGroupNum }
  else
    let (threadParams, attrGroupNum) :=
      prepareThreadParams format (getThreadNum info isOptionGatherInfo) attrGroupNum
    let (run, threadParams) := runThreadParams threadSearch threadParams
    if !run then { result := false, propertyRange, attrGroupNum }
    else if isOptionGatherInfo then { result := true, propertyRange, attrGroupNum }
    else
      match mergeThreadParams format threadParams attrGroupNum with
      | (true, some master, attrGroupNum) =>
        { result := fetched, propertyRange := master.propertyRange, attrGroupNum }
      | (_, _, attrGroupNum) => { result := false, propertyRange, attrGroupNum }

variable (master : SearchThreadParam F)

open SearchThreadParam

theorem mergeOthers_fst (others : List (SearchThreadParam F)) :
    (mergeOthers format master others).1 = others.all isSuccess := by
  induction others generalizing master with
  | nil => rfl
  | cons param others ih =>
    rw [mergeOthers, all_cons]
    cases param.isSuccess with
    | false => rfl
    | true => exact ih _

theorem mergeOthers_originAttrGroupNum (others : List (SearchThreadParam F)) :
    (mergeOthers format master others).2.originAttrGroupNum = master.originAttrGroupNum := by
  induction others generalizing master with
  | nil => rfl
  | cons param others ih =>
    rw [mergeOthers]
    cases param.isSuccess with
    | false => rfl
    | true => exact ih _

variable {others : List (SearchThreadParam F)}

theorem mergeOthers_propertyRange (h : others.all isSuccess = true) :
    (mergeOthers format master others).2.propertyRange =
      (others.map propertyRange).foldl (mergeRange format)
        master.propertyRange := by
  induction others generalizing master with
  | nil => rfl
  | cons param others ih =>
    obtain ⟨hparam, hothers⟩ := Bool.and_eq_true_iff.mp (all_cons.symm.trans h)
    rw [mergeOthers, hparam, map_cons]
    exact ih _ hothers

/-- Threads are merged when all of them succeeded, and only then the field changes places again. -/
theorem mergeThreadParams_eq (hothers : others ≠ []) (attrGroupNum : ℤ) :
    (mergeThreadParams format (master :: others) attrGroupNum).1 =
        (master :: others).all isSuccess ∧
      (mergeThreadParams format (master :: others) attrGroupNum).2.2 =
        if (master :: others).all isSuccess then master.originAttrGroupNum
        else attrGroupNum := by
  obtain ⟨param, others, rfl⟩ := exists_cons_of_ne_nil hothers
  have hmerged := mergeOthers_fst format master (param :: others)
  have horigin := mergeOthers_originAttrGroupNum format master (param :: others)
  rw [mergeThreadParams.eq_3 _ _ _ _ (by simp), all_cons]
  cases master.isSuccess with
  | false => exact ⟨rfl, rfl⟩
  | true =>
    rw [← hmerged]
    cases h : (mergeOthers format master (param :: others)).1 with
    | false => simp [h]
    | true => simp [h, horigin]

/-- The range of the first thread takes in those of the others. -/
theorem mergeThreadParams_propertyRange {master : SearchThreadParam F} (hothers : others ≠ [])
    (attrGroupNum : ℤ) (h : (master :: others).all isSuccess = true) :
    (mergeThreadParams format (master :: others) attrGroupNum).2.1.map
        propertyRange =
      some ((others.map propertyRange).foldl (mergeRange format)
        master.propertyRange) := by
  obtain ⟨param, others, rfl⟩ := exists_cons_of_ne_nil hothers
  obtain ⟨hmaster, hall⟩ := Bool.and_eq_true_iff.mp (all_cons.symm.trans h)
  have hmerged := (mergeOthers_fst format master (param :: others)).trans hall
  have hrange := mergeOthers_propertyRange format master hall
  rw [mergeThreadParams.eq_3 _ _ _ _ (by simp), hmaster]
  simp [hmerged, hrange]

/-- The parameters of thread `i` after its search. -/
def ranParam (threadSearch : ThreadSearch F) (attrGroupNum : ℤ) (i : ℕ) : SearchThreadParam F :=
  { propertyRange := (threadSearch i).2
    originAttrGroupNum := if i = 0 then attrGroupNum else 0
    isSuccess := (threadSearch i).1 }

/-- The parameters of all threads after their searches. -/
def ranParams (threadSearch : ThreadSearch F) (attrGroupNum : ℤ) (threadNum : ℕ) :
    List (SearchThreadParam F) :=
  (List.range threadNum).map (ranParam threadSearch attrGroupNum)

theorem run_prepare (threadSearch : ThreadSearch F) (attrGroupNum : ℤ) {threadNum : ℕ}
    (h : 1 < threadNum) :
    runThreadParams threadSearch (prepareThreadParams format threadNum attrGroupNum).1 =
      (true, ranParams threadSearch attrGroupNum threadNum) := by
  rw [prepareThreadParams, if_pos h, runThreadParams, if_neg (by simp; omega)]
  refine Prod.ext rfl (ext_getElem (by simp [ranParams]) fun i hi hi' => ?_)
  by_cases hzero : i = 0 <;> simp [ranParams, ranParam, hzero]

theorem ranParams_succ (threadSearch : ThreadSearch F) (attrGroupNum : ℤ) (threadNum : ℕ) :
    ranParams threadSearch attrGroupNum (threadNum + 1) = ranParam threadSearch attrGroupNum 0 ::
        (List.range threadNum).map fun i => ranParam threadSearch attrGroupNum (i + 1) := by
  rw [ranParams, range_succ_eq_map, map_cons, List.map_map]
  rfl

theorem all_ranParams (threadSearch : ThreadSearch F) (attrGroupNum : ℤ) (threadNum : ℕ) :
    (ranParams threadSearch attrGroupNum threadNum).all isSuccess = true ↔
      ∀ i, i < threadNum → (threadSearch i).1 = true := by
  simp [ranParams, ranParam]

variable (info : ThreadInfo) (noError isOptionGatherInfo fetched : Bool)
  (threadSearch : ThreadSearch F) (propertyRange : PropertyRange F) (attrGroupNum : ℤ)

theorem getThreadNum_gatherInfo (h : isOptionGatherInfo = true) :
    getThreadNum info isOptionGatherInfo = 1 := by simp [getThreadNum, h]

/-- At most one thread leaves the field alone. -/
theorem search_attrGroupNum_single (h : getThreadNum info isOptionGatherInfo ≤ 1) :
    (search format info noError isOptionGatherInfo fetched threadSearch propertyRange
      attrGroupNum).attrGroupNum = attrGroupNum := by
  have hprepare : (prepareThreadParams format (getThreadNum info isOptionGatherInfo)
      attrGroupNum).2 = attrGroupNum := by
    rw [prepareThreadParams, if_neg (by omega)]
  have hmerge : ∀ threadParams : List (SearchThreadParam F), threadParams.length ≤ 1 →
      (mergeThreadParams format threadParams attrGroupNum).2.2 = attrGroupNum := by
    intro threadParams hlength
    match threadParams, hlength with
    | [], _ => rfl
    | [_], _ => rfl
  have hlength : (runThreadParams threadSearch
      (prepareThreadParams format (getThreadNum info isOptionGatherInfo)
        attrGroupNum).1).2.length ≤ 1 := by
    rw [prepareThreadParams, if_neg (by omega), runThreadParams]
    split <;> simpa using h
  have hattr := hmerge _ hlength
  unfold search
  simp only [hprepare]
  split
  case isTrue => rfl
  case isFalse =>
    split
    case isTrue => rfl
    case isFalse =>
      split
      case isTrue => rfl
      case isFalse =>
        split
        case h_1 heq => exact (congrArg (fun merged => merged.2.2) heq).symm.trans hattr
        case h_2 heq => exact (congrArg (fun merged => merged.2.2) heq).symm.trans hattr

/-- Several threads lose the field unless all of them succeed. -/
theorem search_attrGroupNum_multi (h : 1 < getThreadNum info isOptionGatherInfo) :
    (search format info true isOptionGatherInfo fetched threadSearch propertyRange
      attrGroupNum).attrGroupNum =
        if ∀ i, i < getThreadNum info isOptionGatherInfo → (threadSearch i).1 = true
        then attrGroupNum else 0 := by
  have hgather : isOptionGatherInfo = false := by
    by_contra hgather
    have := getThreadNum_gatherInfo info _ (Bool.not_eq_false _ ▸ hgather)
    omega
  subst hgather
  generalize hnum : getThreadNum info false = threadNum at h ⊢
  obtain ⟨n, rfl⟩ : ∃ n, threadNum = n + 2 := ⟨threadNum - 2, by omega⟩
  have hprepare : (prepareThreadParams format (n + 2) attrGroupNum).2 = 0 := by
    rw [prepareThreadParams, if_pos h]
  have hothers : ((List.range (n + 1)).map fun i =>
      ranParam threadSearch attrGroupNum (i + 1)) ≠ [] := by simp
  have hmerged :=
    (mergeThreadParams_eq format (ranParam threadSearch attrGroupNum 0) hothers 0).2
  rw [← ranParams_succ] at hmerged
  simp only [all_ranParams] at hmerged
  have hsearch : (search format info true false fetched threadSearch propertyRange
      attrGroupNum).attrGroupNum =
      (mergeThreadParams format (ranParams threadSearch attrGroupNum (n + 2)) 0).2.2 := by
    simp only [search, hnum, hprepare, run_prepare format threadSearch attrGroupNum h]
    simp only [Bool.not_true, Bool.false_eq_true, if_false]
    split
    case h_1 heq => exact (congrArg (fun merged => merged.2.2) heq).symm
    case h_2 heq => exact (congrArg (fun merged => merged.2.2) heq).symm
  rw [hsearch, hmerged]
  rfl

/-- After a search the request is as it was, unless one of several threads failed. -/
theorem search_restores_iff :
    (search format info noError isOptionGatherInfo fetched threadSearch propertyRange
      attrGroupNum).attrGroupNum = attrGroupNum ↔
      noError = false ∨ getThreadNum info isOptionGatherInfo ≤ 1 ∨
        (∀ i, i < getThreadNum info isOptionGatherInfo → (threadSearch i).1 = true) ∨
        attrGroupNum = 0 := by
  cases noError with
  | false => exact iff_of_true rfl (Or.inl rfl)
  | true =>
    by_cases hnum : getThreadNum info isOptionGatherInfo ≤ 1
    · exact iff_of_true (search_attrGroupNum_single format info true _ fetched _ _ _ hnum)
        (Or.inr (Or.inl hnum))
    · rw [search_attrGroupNum_multi format info isOptionGatherInfo fetched threadSearch
        propertyRange attrGroupNum (by omega)]
      split
      case isTrue hall => exact iff_of_true rfl (Or.inr (Or.inr (Or.inl hall)))
      case isFalse hall =>
        constructor
        · exact fun hzero => Or.inr (Or.inr (Or.inr hzero.symm))
        · rintro (h | h | h | h)
          · cases h
          · exact absurd h hnum
          · exact absurd h hall
          · exact h.symm

/-- Floats with a single value. -/
def zeroFormat : FloatFormat Unit Unit where
  zero := ()
  lowest := ()
  min := ()
  max := ()
  less _ _ := false
  near _ _ := true
  reread _ := []

/-- The second of two threads fails, and the next search finds no limit. -/
theorem search_loses_attrGroupNum :
    (search zeroFormat { isParallelEnabled := true, maxDocId := 80000, cpuNum := 2 } true false true
      (fun i => (decide (i = 0), zeroRange zeroFormat)) (zeroRange zeroFormat) 5).attrGroupNum ≠
      5 := by decide

end AdDelivery.SearchThreadMaster
