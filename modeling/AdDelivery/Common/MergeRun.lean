import AdDelivery.Common.MergeMeaning

/-!
# A run of the merger

The passes of a run write, for each DOCID, the value that its records are merged into, or the
records themselves if only one of the two lists has them. So a run means the same as its records
exactly if the records of no DOCID leave a property over.
-/

namespace AdDelivery.Common

open List Finmap

namespace PairwiseScdMerger

variable (merger : PairwiseScdMerger) (cache : CacheType) (state : MergeState) (id : ℕ)

/-- What both loops do to the cache. -/
def mergeInto (cache : CacheType) (value : ValueType) : CacheType :=
  match cache.lookup (merger.getDocId value.doc) with
  | none => cache
  | some cached => cache.insert (merger.getDocId value.doc) (defaultMerge cached value)

variable (value : ValueType)

theorem lookup_mergeInto :
    (merger.mergeInto cache value).lookup id = (cache.lookup id).map fun cached =>
      if merger.getDocId value.doc = id then defaultMerge cached value else cached := by
  rw [mergeInto]
  cases hcached : cache.lookup (merger.getDocId value.doc) with
  | none =>
    by_cases hid : merger.getDocId value.doc = id
    · rw [← hid, hcached, Option.map_none]
    · simp [hid]
  | some cached =>
    rw [Table.lookup_insert_eq]
    by_cases hid : merger.getDocId value.doc = id
    · rw [if_pos hid.symm, ← hid, hcached, Option.map_some, if_pos rfl]
    · simp [hid, Ne.symm hid]

theorem mem_mergeInto : id ∈ merger.mergeInto cache value ↔ id ∈ cache := by
  rw [← lookup_isSome, ← lookup_isSome, lookup_mergeInto, Option.isSome_map]

/-- A cached value takes in the records of its id. -/
theorem lookup_foldl_mergeInto (values : List ValueType) :
    (values.foldl merger.mergeInto cache).lookup id = (cache.lookup id).map fun cached =>
      (values.filter fun value => decide (merger.getDocId value.doc = id)).foldl
        defaultMerge cached := by
  induction values generalizing cache with
  | nil => simp
  | cons value values ih =>
    rw [foldl_cons, ih, lookup_mergeInto, Option.map_map]
    congr 1
    funext cached
    by_cases hid : merger.getDocId value.doc = id
    · simp [hid]
    · simp [hid]

theorem mem_foldl_mergeInto (values : List ValueType) :
    id ∈ values.foldl merger.mergeInto cache ↔ id ∈ cache := by
  rw [← lookup_isSome, ← lookup_isSome, lookup_foldl_mergeInto, Option.isSome_map]

theorem processE_eq : merger.processE state value =
    { cache := merger.mergeInto state.cache value
      outputs := state.outputs ++
        [(value, if merger.getDocId value.doc ∈ state.cache then .old else .exist)] } := by
  rw [processE, mergeInto]
  cases hcached : state.cache.lookup (merger.getDocId value.doc) with
  | none => simp [output, lookup_eq_none.mp hcached]
  | some cached => simp [output, mem_of_lookup_eq_some hcached]

theorem process_eq : merger.process state value =
    { cache := merger.mergeInto state.cache value
      outputs := state.outputs ++
        if merger.getDocId value.doc ∈ state.cache then [] else [(value, .new)] } := by
  rw [process, mergeInto]
  cases hcached : state.cache.lookup (merger.getDocId value.doc) with
  | none => simp [output, lookup_eq_none.mp hcached]
  | some cached => simp [mem_of_lookup_eq_some hcached]

theorem foldl_processE (existing : List ValueType) : existing.foldl merger.processE state =
    { cache := existing.foldl merger.mergeInto state.cache
      outputs := state.outputs ++ existing.map fun value =>
        (value, if merger.getDocId value.doc ∈ state.cache then .old else .exist) } := by
  induction existing generalizing state with
  | nil => simp
  | cons value existing ih =>
    rw [foldl_cons, ih, processE_eq]
    simp only [mem_mergeInto, foldl_cons, map_cons, append_assoc,
      singleton_append]

variable (new : List ValueType)

theorem foldl_process : new.foldl merger.process state =
    { cache := new.foldl merger.mergeInto state.cache
      outputs := state.outputs ++
        (new.filter fun value => decide (merger.getDocId value.doc ∉ state.cache)).map fun value =>
          (value, .new) } := by
  induction new generalizing state with
  | nil => simp
  | cons value new ih =>
    rw [foldl_cons, ih, process_eq]
    simp only [mem_mergeInto, foldl_cons, filter_cons, append_assoc]
    by_cases hmem : merger.getDocId value.doc ∈ state.cache
    · simp [hmem]
    · simp [hmem]

theorem foldl_preprocess_outputs : (new.foldl merger.preprocess state).outputs = state.outputs := by
  induction new generalizing state with
  | nil => rfl
  | cons value new ih => exact ih _

theorem lookup_foldl_preprocess : (new.foldl merger.preprocess state).cache.lookup id =
      if ∃ value ∈ new, merger.getDocId value.doc = id then some {} else state.cache.lookup id := by
  induction new generalizing state with
  | nil => simp
  | cons value new ih =>
    rw [foldl_cons, ih, preprocess]
    by_cases hnew : ∃ value ∈ new, merger.getDocId value.doc = id
    · simp [hnew]
    · by_cases hid : merger.getDocId value.doc = id
      · simp [hid]
      · simp [hnew, hid, Ne.symm hid]

section Pass

variable (eScdList scdList : List ScdFile) (m index : ℕ)

/-- The records of a pass. -/
def existingOf : List ValueType := (records eScdList).filter (merger.validM m index)

def newOf : List ValueType := (records scdList).filter (merger.validM m index)

/-- The cache at the end of a pass. -/
def passCache : CacheType :=
  (merger.newOf scdList m index).foldl merger.mergeInto
    ((merger.existingOf eScdList m index).foldl merger.mergeInto
      ((merger.newOf scdList m index).foldl merger.preprocess {}).cache)

theorem entries_empty : merger.entries ∅ = [] := by
  rw [eq_nil_iff_forall_not_mem]
  rintro ⟨id, value⟩ hmem
  rw [merger.mem_entries] at hmem
  exact Option.some_ne_none value hmem.symm

/-- Without existing files the new records are written. -/
theorem pass_nil (outputs : List (ValueType × Status)) :
    merger.pass [] scdList m { outputs := outputs } index =
      { outputs := outputs ++ (merger.newOf scdList m index).map fun value => (value, .new) } := by
  have hempty (new : List ValueType) : new.foldl merger.mergeInto ∅ = ∅ := by
    apply ext_lookup
    intro id
    rw [lookup_foldl_mergeInto, lookup_empty, Option.map_none]
  have hnew : (records scdList).filter (merger.validM m index) = merger.newOf scdList m index := rfl
  simp only [pass, ne_eq, not_true_eq_false, if_false, records, flatMap_nil, filter_nil,
    foldl_nil, foldl_process, mEnd, hempty, entries_empty, map_nil, append_nil]
  rw [← records, hnew]
  simp [notMem_empty]

theorem mem_preprocessed (id : ℕ) (outputs : List (ValueType × Status)) :
    id ∈ ((merger.newOf scdList m index).foldl merger.preprocess { outputs := outputs }).cache ↔
      ∃ value ∈ merger.newOf scdList m index, merger.getDocId value.doc = id := by
  rw [← lookup_isSome, lookup_foldl_preprocess]
  split
  · rename_i h
    simpa using h
  · rename_i h
    simpa using h

/-- The cache does not depend on what was written before. -/
theorem preprocessed_cache (outputs : List (ValueType × Status)) :
    ((merger.newOf scdList m index).foldl merger.preprocess { outputs := outputs }).cache =
      ((merger.newOf scdList m index).foldl merger.preprocess {}).cache := by
  apply ext_lookup
  intro id
  rw [lookup_foldl_preprocess, lookup_foldl_preprocess]

/-- With existing files, those of other ids are written, and what the cache holds. -/
theorem pass_of_ne_nil (hne : eScdList ≠ []) (outputs : List (ValueType × Status)) :
    merger.pass eScdList scdList m { outputs := outputs } index =
      { outputs := outputs ++
          ((merger.existingOf eScdList m index).map fun value =>
            (value, if ∃ new ∈ merger.newOf scdList m index,
              merger.getDocId new.doc = merger.getDocId value.doc then .old else .exist)) ++
          (merger.entries (merger.passCache eScdList scdList m index)).map fun entry =>
            (entry.2, .replace) } := by
  have hexisting : (records eScdList).filter (merger.validM m index) =
    merger.existingOf eScdList m index := rfl
  have hnew : (records scdList).filter (merger.validM m index) = merger.newOf scdList m index := rfl
  have hmem := merger.mem_preprocessed scdList m index
  -- every new record finds its id in the cache
  have hcached : ((merger.newOf scdList m index).filter fun value =>
      decide (merger.getDocId value.doc ∉
        (merger.existingOf eScdList m index).foldl merger.mergeInto
          ((merger.newOf scdList m index).foldl merger.preprocess {}).cache)) = [] := by
    rw [filter_eq_nil_iff]
    intro value hvalue
    rw [decide_eq_true_iff, not_not, mem_foldl_mergeInto, hmem]
    exact ⟨value, hvalue, rfl⟩
  simp only [pass, if_pos hne, hexisting, hnew, foldl_process, foldl_processE, mEnd, hmem,
    foldl_preprocess_outputs, preprocessed_cache, hcached, map_nil, append_nil, passCache]

/-- What the cache holds at the end. -/
theorem lookup_passCache (id : ℕ) : (merger.passCache eScdList scdList m index).lookup id =
    if ∃ value ∈ merger.newOf scdList m index, merger.getDocId value.doc = id then
      some (mergeAll ((merger.existingOf eScdList m index ++ merger.newOf scdList m index).filter
        fun value => decide (merger.getDocId value.doc = id)))
    else none := by
  rw [passCache, lookup_foldl_mergeInto, lookup_foldl_mergeInto, lookup_foldl_preprocess]
  split
  · rw [filter_append, mergeAll, foldl_append]
    rfl
  · rfl

end Pass

/-- What the files hold: the new records have DOCIDs, and different DOCIDs have different ids. -/
structure Files (eScdList scdList : List ScdFile) : Prop where
  docids : ∀ value ∈ records scdList, docid value.doc ≠ []
  inj : ∀ value ∈ records eScdList ++ records scdList,
    ∀ value' ∈ records eScdList ++ records scdList,
      merger.getDocId value.doc = merger.getDocId value'.doc → docid value.doc = docid value'.doc

end PairwiseScdMerger

/-- A list with distinct keys has one entry of a key. -/
theorem filter_fst_eq {α : Type*} {l : List (ℕ × α)} {k : ℕ} {v : α}
    (hnodup : (l.map Prod.fst).Nodup) (hmem : (k, v) ∈ l) :
    (l.filter fun entry => decide (entry.1 = k)) = [(k, v)] := by
  induction l with
  | nil => cases hmem
  | cons entry l ih =>
    rw [map_cons, nodup_cons] at hnodup
    rcases mem_cons.mp hmem with rfl | hmem
    · have hrest : (l.filter fun entry => decide (entry.1 = k)) = [] := by
        rw [filter_eq_nil_iff]
        intro entry hentry heq
        obtain rfl := of_decide_eq_true heq
        exact hnodup.1 (mem_map.mpr ⟨entry, hentry, rfl⟩)
      rw [filter_cons_of_pos (by simp), hrest]
    · have hne : ¬ entry.1 = k := fun heq =>
        hnodup.1 (mem_map.mpr ⟨(k, v), hmem, heq.symm⟩)
      rw [filter_cons_of_neg (by simpa using hne), ih hnodup.2 hmem]

theorem type_ne_none {scdList : List ScdFile} {value : ValueType} (h : value ∈ records scdList) :
    value.type ≠ none := by
  obtain ⟨scdFile, -, hvalue⟩ := mem_flatMap.mp h
  obtain ⟨doc, -, rfl⟩ := mem_map.mp hvalue
  exact Option.some_ne_none scdFile.type

/-- A merged value has the DOCID of its records. -/
theorem docid_mergeAll {log : List ValueType} {id : Bytes} (hne : log ≠ []) (hid : id ≠ [])
    (hlog : ∀ value ∈ log, docid value.doc = id ∧ value.type ≠ none) :
    docid (mergeAll log).doc = id := by
  obtain ⟨before, value, rfl⟩ := eq_nil_or_concat' log |>.resolve_left hne
  obtain ⟨hdocid, htype⟩ := hlog value (mem_append_right _ mem_cons_self)
  have hlookup : value.doc.lookup "DOCID" = some id := by
    rw [docid] at hdocid
    cases hfound : value.doc.lookup "DOCID" with
    | none =>
      rw [hfound] at hdocid
      exact absurd hdocid.symm hid
    | some text =>
      rw [hfound] at hdocid
      exact congrArg some hdocid
  have hcopy (doc : Document) : docid (copyProperties doc value.doc) = id := by
    rw [docid, copyProperties, lookup_union_left (mem_of_lookup_eq_some hlookup), hlookup]
    rfl
  rw [mergeAll_concat, defaultMerge]
  cases hvalue : value.type with
  | none => exact absurd hvalue htype
  | some type =>
    cases type with
    | insert => exact hdocid
    | delete => exact hcopy _
    | update => exact hcopy _
    | rtype => exact hcopy _

namespace PairwiseScdMerger.Files

variable {merger : PairwiseScdMerger} {eScdList scdList : List ScdFile}
  (h : merger.Files eScdList scdList) (m index : ℕ)

include h

/-- The records of an id are those of its DOCID. -/
theorem filter_getDocId {value : ValueType} (hvalue : value ∈ merger.newOf scdList m index) :
    ((merger.existingOf eScdList m index ++ merger.newOf scdList m index).filter fun value' =>
        decide (merger.getDocId value'.doc = merger.getDocId value.doc)) =
      recordsOf (records eScdList ++ records scdList) (docid value.doc) := by
  obtain ⟨hmem, hvalid⟩ := mem_filter.mp hvalue
  rw [existingOf, newOf, ← filter_append, filter_filter]
  apply filter_congr
  intro value' hvalue'
  rw [Bool.eq_iff_iff, Bool.and_eq_true, decide_eq_true_iff, decide_eq_true_iff]
  constructor
  · rintro ⟨hid, -⟩
    exact h.inj value' hvalue' value (mem_append_right _ hmem) hid
  · intro hdocid
    have hid : merger.getDocId value'.doc = merger.getDocId value.doc :=
      congrArg merger.genId hdocid
    rw [validM] at hvalid ⊢
    exact ⟨hid, hid ▸ hvalid⟩

/-- What the cache holds is merged from the records of a new record's DOCID. -/
theorem of_mem_entries {id : ℕ} {value : ValueType}
    (hentry : (id, value) ∈ merger.entries (merger.passCache eScdList scdList m index)) :
    ∃ new ∈ merger.newOf scdList m index, merger.getDocId new.doc = id ∧
      value = mergeAll (recordsOf (records eScdList ++ records scdList) (docid new.doc)) ∧
      docid value.doc = docid new.doc := by
  rw [merger.mem_entries, lookup_passCache] at hentry
  obtain ⟨⟨new, hnew, rfl⟩, hvalue⟩ := Option.ite_none_right_eq_some.mp hentry
  rw [Option.some.injEq, h.filter_getDocId m index hnew] at hvalue
  refine ⟨new, hnew, rfl, hvalue.symm, ?_⟩
  have hmem := (mem_filter.mp hnew).1
  rw [← hvalue]
  refine docid_mergeAll ?_ (h.docids new hmem) fun value' hvalue' => ?_
  · exact ne_nil_of_mem
      (mem_filter.mpr ⟨mem_append_right _ hmem, decide_eq_true rfl⟩)
  · obtain ⟨hmem', hdocid⟩ := mem_filter.mp hvalue'
    refine ⟨of_decide_eq_true hdocid, ?_⟩
    rcases mem_append.mp hmem' with hmem' | hmem'
    · exact type_ne_none hmem'
    · exact type_ne_none hmem'

/-- The values of the cache, by DOCID. -/
theorem recordsOf_entries (id : Bytes) :
    recordsOf ((merger.entries (merger.passCache eScdList scdList m index)).map Prod.snd) id =
      if ∃ value ∈ merger.newOf scdList m index, docid value.doc = id then
        [mergeAll (recordsOf (records eScdList ++ records scdList) id)]
      else [] := by
  rw [recordsOf, filter_map]
  split
  · rename_i hex
    obtain ⟨new, hnew, rfl⟩ := hex
    have hmem : (merger.getDocId new.doc,
        mergeAll (recordsOf (records eScdList ++ records scdList) (docid new.doc))) ∈
          merger.entries (merger.passCache eScdList scdList m index) := by
      rw [merger.mem_entries, lookup_passCache, if_pos ⟨new, hnew, rfl⟩,
        h.filter_getDocId m index hnew]
    have hkey : ∀ entry ∈ merger.entries (merger.passCache eScdList scdList m index),
        ((fun value : ValueType => decide (docid value.doc = docid new.doc)) ∘ Prod.snd) entry =
          decide (entry.1 = merger.getDocId new.doc) := by
      rintro ⟨id, value⟩ hentry
      obtain ⟨new', hnew', rfl, -, hdocid⟩ := h.of_mem_entries m index hentry
      rw [Function.comp_apply, hdocid, decide_eq_decide]
      constructor
      · exact fun hsame => congrArg merger.genId hsame
      · exact h.inj new' (mem_append_right _ (mem_filter.mp hnew').1) new
          (mem_append_right _ (mem_filter.mp hnew).1)
    rw [filter_congr hkey, filter_fst_eq (merger.nodup_entries _) hmem]
    rfl
  · rename_i hex
    rw [map_eq_nil_iff, filter_eq_nil_iff]
    rintro ⟨id', value⟩ hentry hdocid
    obtain ⟨new, hnew, -, -, hsame⟩ := h.of_mem_entries m index hentry
    exact hex ⟨new, hnew, hsame.symm.trans (of_decide_eq_true hdocid)⟩

end PairwiseScdMerger.Files

theorem written_append (outputs outputs' : List (ValueType × Status)) :
    written (outputs ++ outputs') = written outputs ++ written outputs' := by
  rw [written, filter_append, map_append]
  rfl

theorem recordsOf_append (log log' : List ValueType) (id : Bytes) :
    recordsOf (log ++ log') id = recordsOf log id ++ recordsOf log' id :=
  filter_append log log'

/-- Outputs of one status that is not old are all written. -/
theorem written_map (log : List ValueType) {status : Status} (hstatus : status ≠ .old) :
    written (log.map fun value => (value, status)) = log := by
  rw [written, filter_eq_self.mpr, List.map_map]
  · exact map_id log
  · intro output houtput
    obtain ⟨value, -, rfl⟩ := mem_map.mp houtput
    simpa using hstatus

/-- Old records are not written. -/
theorem written_old (log : List ValueType) (p : ValueType → Prop) [DecidablePred p] :
    written (log.map fun value => (value, if p value then .old else .exist)) =
      log.filter fun value => decide (¬ p value) := by
  induction log with
  | nil => rfl
  | cons value log ih =>
    rw [map_cons, ← singleton_append, written_append, ih]
    by_cases hp : p value
    · simp [hp, written]
    · simp [hp, written]

namespace PairwiseScdMerger

variable {merger : PairwiseScdMerger} {eScdList scdList : List ScdFile} {m index : ℕ}

theorem recordsOf_filter_validM (log : List ValueType) (id : Bytes) :
    recordsOf (log.filter (merger.validM m index)) id =
      if merger.genId id % m = index then recordsOf log id else [] := by
  have hvalid : ∀ value ∈ log, (decide (docid value.doc = id) && merger.validM m index value) =
      (decide (merger.genId id % m = index) && decide (docid value.doc = id)) := by
    intro value _
    by_cases hdocid : docid value.doc = id
    · rw [validM, getDocId, hdocid]
      simp [Bool.beq_eq_decide_eq]
    · simp [hdocid]
  rw [recordsOf, filter_filter, filter_congr hvalid]
  split
  · rename_i hindex
    simp [hindex, recordsOf]
  · rename_i hindex
    simp [hindex]

theorem exists_newOf {id : Bytes} : (∃ value ∈ merger.newOf scdList m index, docid value.doc = id) ↔
    merger.genId id % m = index ∧ ∃ value ∈ records scdList, docid value.doc = id := by
  constructor
  · rintro ⟨value, hvalue, rfl⟩
    obtain ⟨hmem, hvalid⟩ := mem_filter.mp hvalue
    exact ⟨by simpa [validM, getDocId] using hvalid, value, hmem, rfl⟩
  · rintro ⟨hindex, value, hmem, rfl⟩
    exact ⟨value, mem_filter.mpr ⟨hmem, by simpa [validM, getDocId] using hindex⟩, rfl⟩

/-- What is written for a DOCID in all. -/
def resultOf (eScdList scdList : List ScdFile) (id : Bytes) : List ValueType :=
  if eScdList = [] then recordsOf (records scdList) id
  else if ∃ value ∈ records scdList, docid value.doc = id then
    [mergeAll (recordsOf (records eScdList ++ records scdList) id)]
  else recordsOf (records eScdList) id

/-- What a pass adds. -/
def passOutputs (merger : PairwiseScdMerger) (eScdList scdList : List ScdFile) (m index : ℕ) :
    List (ValueType × Status) :=
  (merger.pass eScdList scdList m {} index).outputs

theorem pass_eq (outputs : List (ValueType × Status)) :
    merger.pass eScdList scdList m { outputs := outputs } index =
      { outputs := outputs ++ merger.passOutputs eScdList scdList m index } := by
  rw [passOutputs]
  by_cases hnil : eScdList = []
  · subst hnil
    rw [pass_nil, pass_nil, nil_append]
  · rw [pass_of_ne_nil _ _ _ _ _ hnil, pass_of_ne_nil _ _ _ _ _ hnil, nil_append, append_assoc]

variable (indices : List ℕ)

theorem foldl_pass (outputs : List (ValueType × Status)) :
    indices.foldl (merger.pass eScdList scdList m) { outputs := outputs } =
      { outputs := outputs ++ indices.flatMap (merger.passOutputs eScdList scdList m) } := by
  induction indices generalizing outputs with
  | nil => simp
  | cons index indices ih =>
    rw [foldl_cons, pass_eq, ih, flatMap_cons, append_assoc]

/-- The existing records that a pass writes. -/
theorem Files.recordsOf_exist (h : merger.Files eScdList scdList) (m index : ℕ) (id : Bytes) :
    recordsOf ((merger.existingOf eScdList m index).filter fun value =>
        decide (¬ ∃ new ∈ merger.newOf scdList m index,
          merger.getDocId new.doc = merger.getDocId value.doc)) id =
      if ∃ value ∈ merger.newOf scdList m index, docid value.doc = id then []
      else recordsOf (merger.existingOf eScdList m index) id := by
  have hsame : ∀ value ∈ merger.existingOf eScdList m index, docid value.doc = id →
      ((∃ new ∈ merger.newOf scdList m index, merger.getDocId new.doc = merger.getDocId value.doc) ↔
        ∃ new ∈ merger.newOf scdList m index, docid new.doc = id) := by
    rintro value hvalue rfl
    have hmem := (mem_filter.mp hvalue).1
    constructor
    · rintro ⟨new, hnew, hid⟩
      exact ⟨new, hnew, h.inj new (mem_append_right _ (mem_filter.mp hnew).1) value
        (mem_append_left _ hmem) hid⟩
    · rintro ⟨new, hnew, hdocid⟩
      exact ⟨new, hnew, congrArg merger.genId hdocid⟩
  split
  · rename_i hex
    rw [recordsOf, filter_eq_nil_iff]
    intro value hvalue hdocid
    obtain ⟨hvalue, hnone⟩ := mem_filter.mp hvalue
    exact of_decide_eq_true hnone ((hsame value hvalue (of_decide_eq_true hdocid)).mpr hex)
  · rename_i hex
    rw [recordsOf, filter_filter]
    apply filter_congr
    intro value hvalue
    by_cases hdocid : docid value.doc = id
    · simp only [hdocid, hsame value hvalue hdocid, hex, not_false_eq_true, decide_true,
        Bool.and_self]
    · simp [hdocid]

/-- One pass writes what is written for a DOCID. -/
theorem Files.recordsOf_passOutputs (h : merger.Files eScdList scdList) (m index : ℕ) (id : Bytes) :
    recordsOf (written (merger.passOutputs eScdList scdList m index)) id =
      if merger.genId id % m = index then resultOf eScdList scdList id else [] := by
  rw [passOutputs, resultOf]
  by_cases hnil : eScdList = []
  · subst hnil
    rw [pass_nil, if_pos rfl, nil_append, written_map _ (by simp), newOf,
      recordsOf_filter_validM]
  rw [pass_of_ne_nil _ _ _ _ _ hnil, if_neg hnil, nil_append, written_append, written_old,
    recordsOf_append]
  have hentries : written ((merger.entries (merger.passCache eScdList scdList m index)).map
      fun entry => (entry.2, .replace)) =
        (merger.entries (merger.passCache eScdList scdList m index)).map Prod.snd := by
    have hreplace : Status.replace ≠ .old := by simp
    have hmap := written_map ((merger.entries (merger.passCache eScdList scdList m index)).map
      Prod.snd) hreplace
    rwa [List.map_map] at hmap
  rw [hentries, h.recordsOf_entries, h.recordsOf_exist, existingOf, recordsOf_filter_validM]
  by_cases hindex : merger.genId id % m = index
  · by_cases hex : ∃ value ∈ records scdList, docid value.doc = id
    · rw [if_pos (exists_newOf.mpr ⟨hindex, hex⟩), if_pos (exists_newOf.mpr ⟨hindex, hex⟩),
        if_pos hindex, if_pos hex, nil_append]
    · rw [if_neg (fun hnew => hex (exists_newOf.mp hnew).2),
        if_neg (fun hnew => hex (exists_newOf.mp hnew).2), if_pos hindex, if_pos hindex, if_neg hex,
        append_nil]
  · rw [if_neg (fun hnew => hindex (exists_newOf.mp hnew).1),
      if_neg (fun hnew => hindex (exists_newOf.mp hnew).1), if_neg hindex, if_neg hindex,
      append_nil]

theorem written_flatMap (outputs : ℕ → List (ValueType × Status)) :
    written (indices.flatMap outputs) = indices.flatMap fun index => written (outputs index) := by
  induction indices with
  | nil => rfl
  | cons index indices ih => rw [flatMap_cons, flatMap_cons, written_append, ih]

theorem recordsOf_flatMap (logs : ℕ → List ValueType) (id : Bytes) :
    recordsOf (indices.flatMap logs) id = indices.flatMap fun index => recordsOf (logs index) id :=
  filter_flatMap

/-- What a run writes for a DOCID. -/
theorem Files.recordsOf_run (h : merger.Files eScdList scdList) (hne : scdList ≠ []) (m : ℕ)
    (id : Bytes) :
    recordsOf (written (merger.run eScdList scdList m)) id = resultOf eScdList scdList id := by
  rw [run, if_neg hne]
  simp only
  have hpos : 0 < if m = 0 then genM scdList else m := by
    split
    · exact Nat.succ_pos _
    · rename_i hm
      exact Nat.pos_of_ne_zero hm
  generalize (if m = 0 then genM scdList else m) = m at hpos ⊢
  have hrun := @foldl_pass merger eScdList scdList m (List.range m) []
  rw [hrun, nil_append, written_flatMap, recordsOf_flatMap]
  have hmod : merger.genId id % m < m := Nat.mod_lt _ hpos
  rw [flatMap_range_single hmod, h.recordsOf_passOutputs, if_pos rfl]
  intro index _ hindex
  rw [h.recordsOf_passOutputs, if_neg (Ne.symm hindex)]

/-- A run means the same as its records exactly if, with existing files, no DOCID of a new record
leaves a property over. -/
theorem meaning_run_iff (h : merger.Files eScdList scdList) (hne : scdList ≠ []) (m : ℕ) :
    meaning (written (merger.run eScdList scdList m)) =
        meaning (records eScdList ++ records scdList) ↔ (eScdList ≠ [] → ∀ value ∈ records scdList,
        NoLeftover (recordsOf (records eScdList ++ records scdList) (docid value.doc))) := by
  have htyped (id : Bytes) : ∀ value ∈ recordsOf (records eScdList ++ records scdList) id,
      value.type ≠ none := by
    intro value hvalue
    rcases mem_append.mp (mem_filter.mp hvalue).1 with hvalue | hvalue
    · exact type_ne_none hvalue
    · exact type_ne_none hvalue
  by_cases hnil : eScdList = []
  · refine iff_of_true ?_ fun hnot => absurd hnil hnot
    funext id
    rw [meaning_apply, meaning_apply, h.recordsOf_run hne, resultOf, hnil]
    rfl
  constructor
  · intro hmeaning _ value hvalue
    have hid := congrFun hmeaning (docid value.doc)
    rw [meaning_apply, meaning_apply, h.recordsOf_run hne, resultOf, if_neg hnil,
      if_pos ⟨value, hvalue, rfl⟩] at hid
    exact (applyRecord_mergeAll_iff (htyped _)).mp hid
  · intro hclean
    funext id
    rw [meaning_apply, meaning_apply, h.recordsOf_run hne, resultOf, if_neg hnil]
    split
    · rename_i hex
      obtain ⟨value, hvalue, rfl⟩ := hex
      exact (applyRecord_mergeAll_iff (htyped _)).mpr (hclean hnil value hvalue)
    · rename_i hex
      have hnone : recordsOf (records scdList) id = [] := by
        rw [recordsOf, filter_eq_nil_iff]
        exact fun value hvalue hdocid => hex ⟨value, hvalue, of_decide_eq_true hdocid⟩
      rw [recordsOf_append, hnone, append_nil]

/-- A merger that reads a DOCID as a number and its cache in the order of the ids. -/
def byNumber : PairwiseScdMerger where
  md5ToUint128 docid := docid.foldl (fun number byte => number * 256 + byte.toNat) 0
  entries := Table.inOrder
  nodup_entries cache := cache.pairwise_inOrder.imp ne_of_lt
  mem_entries _ _ _ := Table.mem_inOrder

/-! The existing documents have a price, the update of the first one only a title. -/

def pricedFirst : Document := (∅ : Document).insert "DOCID" [97] |>.insert "Price" [49]
def pricedSecond : Document := (∅ : Document).insert "DOCID" [98] |>.insert "Price" [50]
def titledFirst : Document := (∅ : Document).insert "DOCID" [97] |>.insert "Title" [51]
def namedFirst : Document := (∅ : Document).insert "DOCID" [97]

def existingFiles : List ScdFile := [⟨.insert, [pricedFirst, pricedSecond]⟩]

/-- The first document is deleted, and then it gets a title. -/
def newFiles : List ScdFile := [⟨.delete, [namedFirst]⟩, ⟨.update, [titledFirst]⟩]

theorem files_newFiles : byNumber.Files existingFiles newFiles where
  docids := by decide
  inj := by decide

theorem meaning_run_iff_newFiles : meaning (written (byNumber.run existingFiles newFiles 2)) =
        meaning (records existingFiles ++ records newFiles) ↔
      (existingFiles ≠ [] → ∀ value ∈ records newFiles,
        NoLeftover (recordsOf (records existingFiles ++ records newFiles) (docid value.doc))) :=
  meaning_run_iff files_newFiles (by simp [newFiles]) 2

/-- The price from before the deletion is back. -/
theorem not_meaning_run_newFiles :
    ¬ ∀ (merger : PairwiseScdMerger) (eScdList scdList : List ScdFile) (m : ℕ), 0 < m →
      scdList ≠ [] → merger.Files eScdList scdList →
      meaning (written (merger.run eScdList scdList m)) =
        meaning (records eScdList ++ records scdList) := by
  intro hall
  have hmeaning := hall byNumber existingFiles newFiles 2 (by simp) (by simp [newFiles])
    files_newFiles
  have hfirst := congrFun hmeaning [97]
  have hprice := congrArg (fun found => found.bind fun doc => doc.lookup "Price") hfirst
  revert hprice
  decide

end PairwiseScdMerger

end AdDelivery.Common
