import AdDelivery.Core.Vector
import AdDelivery.GroupManager.TopGroups

/-!
# Facets of a parallel search

Every thread cuts its own list down before the lists are added up, so a group keeps its whole
count only if no thread that counted it has dropped it. The facets of a parallel search are
those of a single thread exactly when every group of a thread is among the greatest ones of the
thread just in case it is among the greatest ones of all documents.
-/

namespace AdDelivery.GroupManager

open List MergePlan UInt32 Option FacetRequest

variable {UString S : Type}

/-- The master takes the results one after another. -/
def masterPlan (rep : List (GroupRoot UString S)) (reps : List (List (GroupRoot UString S))) :
    MergePlan UString S :=
  reps.foldl (fun plan rep => .merge plan (.worker rep)) (.worker rep)

variable (rep : List (GroupRoot UString S)) (reps : List (List (GroupRoot UString S)))

theorem workers_masterPlan : (masterPlan rep reps).workers = rep :: reps := by
  have hfold (plan : MergePlan UString S) :
      (reps.foldl (fun plan rep => merge plan (.worker rep)) plan).workers =
        plan.workers ++ reps := by
    induction reps generalizing plan with
    | nil => exact (append_nil _).symm
    | cons rep reps ih =>
      rw [foldl_cons, ih, workers, workers, append_assoc, singleton_append]
  exact hfold (.worker rep)

theorem run_masterPlan [LinearOrder UString] :
    (masterPlan rep reps).run = mergeThreadParams ((rep :: reps).map rootItems) := by
  have hfold (plan : MergePlan UString S) :
      (reps.foldl (fun plan rep => merge plan (.worker rep)) plan).run =
        (reps.map rootItems).foldl mergeStringGroup plan.run := by
    induction reps generalizing plan with
    | nil => rfl
    | cons rep reps ih =>
      rw [foldl_cons, ih, map_cons]
      rfl
  exact hfold (.worker rep)

variable {ι : Type*}

theorem sum_map_filter (parts : List ι) (c : ι → Prop) [DecidablePred c] (m : ι → ℕ) :
    ((parts.filter fun part => decide (c part)).map m).sum =
      (parts.map fun part => if c part then m part else 0).sum := by
  rw [List.sum_map_ite]
  simp

variable {path : List UString}

/-- The total of a path that the parts with `c` list. -/
theorem totalAt_map [LinearOrder UString] {parts : List ι} {rep : ι → List (GroupRoot UString S)}
    {i : ℕ} {c : ι → Prop} [DecidablePred c] {m : ι → ℕ}
    (hcount : ∀ part ∈ parts, countAt (rep part) i path =
      if c part then some (ofNat (m part)) else none)
    (hlt : ∀ part ∈ parts, m part < 2 ^ 32) : totalAt (parts.map rep) i path =
      if ∃ part ∈ parts, c part then
        some (parts.map fun part => if c part then m part else 0).sum
      else none := by
  have hcounts : (parts.map rep).filterMap (fun rep => countAt rep i path) =
      (parts.filter fun part => decide (c part)).map fun part => ofNat (m part) := by
    rw [filterMap_map, ← filterMap_eq_map, filterMap_filter]
    refine filterMap_congr fun part hpart => ?_
    rw [Function.comp_apply, hcount part hpart]
    simp
  have hnats : ((parts.filter fun part => decide (c part)).map fun part =>
      ofNat (m part)).map toNat =
        (parts.filter fun part => decide (c part)).map m := by
    rw [List.map_map]
    refine map_congr_left fun part hpart => ?_
    exact toNat_ofNat_of_lt' (hlt part (mem_of_mem_filter hpart))
  simp only [totalAt, hcounts, hnats, sum_map_filter]
  by_cases hany : ∃ part ∈ parts, c part
  · rw [if_pos hany, if_neg]
    obtain ⟨part, hpart, hc⟩ := hany
    rw [map_eq_nil_iff, filter_eq_nil_iff]
    exact fun hnone => hnone part hpart (decide_eq_true hc)
  · rw [if_neg hany, if_pos]
    rw [map_eq_nil_iff, filter_eq_nil_iff]
    exact fun part hpart hc => hany ⟨part, hpart, of_decide_eq_true hc⟩

/-- A path that no part lists has no total. -/
theorem totalAt_eq_none [LinearOrder UString] {parts : List ι}
    {rep : ι → List (GroupRoot UString S)} {i : ℕ}
    (hcount : ∀ part ∈ parts, countAt (rep part) i path = none) :
    totalAt (parts.map rep) i path = none := by
  rw [totalAt_map (c := fun _ => False) (m := fun _ => 0) (fun part hpart => ?_)
    fun _ _ => Nat.two_pow_pos 32]
  · simp
  · rw [hcount part hpart, if_neg not_false]

theorem isSome_of_mapM {ι κ : Type*} {f : ι → Option κ} {parts : List ι}
    (h : (parts.mapM f).isSome) : ∀ part ∈ parts, (f part).isSome := by
  induction parts with
  | nil => exact nofun
  | cons part parts ih =>
    rw [mapM_cons] at h
    cases hpart : f part with
    | none =>
      rw [hpart] at h
      cases h
    | some y =>
      cases hparts : parts.mapM f with
      | none =>
        rw [hpart, hparts] at h
        cases h
      | some ys =>
        intro part' hpart'
        rcases mem_cons.mp hpart' with rfl | hpart'
        · rw [hpart]
          rfl
        · exact ih (by rw [hparts]; rfl) part' hpart'

section Threads

variable [Inhabited UString] [LinearOrder UString] [Zero S] {utf8 : Utf8 UString}
  {request : FacetRequest UString} {docs : List (BitVec 32)}
  {threads : List (List (BitVec 32))}

omit [Zero S] in
theorem groupCountsFit_thread (hdocs : threads.flatten.Perm docs)
    (hfit : request.GroupCountsFit docs) {part : List (BitVec 32)} (hpart : part ∈ threads) :
    request.GroupCountsFit part := fun table htable =>
  ⟨(docCount_thread_le table hdocs hpart 0).trans_lt (hfit table htable).1, fun group hgroup =>
    (docCount_thread_le table hdocs hpart group.2).trans_lt ((hfit table htable).2 group hgroup)⟩

/-- The trees that the threads list. -/
def threadRoots (utf8 : Utf8 UString) (request : FacetRequest UString)
    (part : List (BitVec 32)) : List (GroupRoot UString S) :=
  request.tables.map (request.threadRoot utf8 part)

theorem comparable_threads (utf8 : Utf8 UString)
    (hfit : ∀ part ∈ threads, request.GroupCountsFit part) :
    Comparable (threads.map (threadRoots (S := S) utf8 request)) := by
  refine ⟨?_, ?_, ?_⟩
  · intro rep hrep rep' hrep'
    obtain ⟨part, _, rfl⟩ := mem_map.mp hrep
    obtain ⟨part', _, rfl⟩ := mem_map.mp hrep'
    exact sameRoots_threads part'
  · intro rep hrep
    obtain ⟨part, hpart, rfl⟩ := mem_map.mp hrep
    exact sortedRoots_thread (hfit part hpart)
  · refine pairwise_of_forall_mem_list fun rep hrep rep' _ i path hcount _ => ?_
    obtain ⟨part, hpart, rfl⟩ := mem_map.mp hrep
    by_cases hpath : path = []
    · subst hpath
      simp
    · cases htable : request.tables[i]? with
      | none =>
        rw [threadRoots, countAt, getElem?_map, htable] at hcount
        cases hcount
      | some table =>
        obtain ⟨pvId, hpvId⟩ := countAt_thread_isSome (hfit part hpart) htable hpath hcount
        have hmem := mem_of_getElem? htable
        exact request.levelsFit table hmem pvId path
          ((request.wellFormed table hmem).propValuePath_eq_iff.mpr hpvId)

/-- The merged trees have the totals of the threads. -/
theorem exists_merged (utf8 : Utf8 UString) (docs : List (BitVec 32)) (hthreads : threads ≠ [])
    (hfit : ∀ part ∈ threads, request.GroupCountsFit part) : ∃ roots : List (GroupRoot UString S),
      mergeThreadParams ((threads.map (threadRoots utf8 request)).map rootItems) =
        rootItems roots ∧ SortedRoots roots ∧ SameRoots roots (threadRoots utf8 request docs) ∧
      ∀ i path, countAt roots i path =
        (totalAt (threads.map (threadRoots (S := S) utf8 request)) i path).map
          ofNat := by
  obtain ⟨part, parts, rfl⟩ := exists_cons_of_ne_nil hthreads
  have hworkers := workers_masterPlan (threadRoots (S := S) utf8 request part)
    (parts.map (threadRoots utf8 request))
  have hcomparable := comparable_threads (S := S) utf8 hfit
  rw [map_cons, ← hworkers] at hcomparable
  obtain ⟨hrun, hsorted, hsame, hcount⟩ := run_spec _ hcomparable
  rw [hworkers] at hsame hcount
  refine ⟨_, ?_, hsorted, ?_, hcount⟩
  · rw [← hrun, run_masterPlan]
    rfl
  · exact (hsame _ (mem_cons_self ..)).trans (sameRoots_threads docs)

/-- A group is kept by a thread that counts it just in case it is kept by a single thread. -/
def TrimsAgree (request : FacetRequest UString) (docs : List (BitVec 32))
    (threads : List (List (BitVec 32))) : Prop :=
  ∀ table ∈ request.tables, ∀ part ∈ threads, ∀ group ∈ table.groups,
    table.docCount part group.2 ≠ 0 →
      (table.rank part group.2 < request.limit table ↔
        table.rank docs group.2 < request.limit table)

variable {table : PropValueTable UString} {pvId group : ℕ} {text : UString}

/-- The total of a value over the threads that keep its group. -/
theorem totalAt_threads (hfit : ∀ part ∈ threads, request.GroupCountsFit part) {i : ℕ}
    (htable : request.tables[i]? = some table) {path : List UString}
    (hpath : PathOf table.keys pvId (text :: path)) (hgroup : PathOf table.keys group [text])
    (hle : ∀ docs, table.docCount docs pvId ≤ table.docCount docs group) :
    totalAt (threads.map (threadRoots (S := S) utf8 request)) i (text :: path) =
      if ∃ part ∈ threads, table.rank part group < request.limit table ∧
          table.docCount part pvId ≠ 0 then
        some (threads.map fun part =>
          if table.rank part group < request.limit table ∧ table.docCount part pvId ≠ 0 then
            table.docCount part pvId
          else 0).sum
      else none := by
  have hmem := mem_of_getElem? htable
  refine totalAt_map (fun part hpart => ?_) fun part hpart => ?_
  · exact countAt_thread_of_pathOf (hfit part hpart) htable hpath hgroup (hle part)
  · exact docCount_lt (request.wellFormed table hmem) (hfit part hpart table hmem).1
      (hfit part hpart table hmem).2 pvId

/-- The threads that have counted a value keep its group just in case a single thread does. -/
theorem TrimsAgree.kept (htrims : TrimsAgree request docs threads) (hmem : table ∈ request.tables)
    (hgroup : PathOf table.keys group [text])
    (hle : ∀ docs, table.docCount docs pvId ≤ table.docCount docs group) {part : List (BitVec 32)}
    (hpart : part ∈ threads) (hpos : table.docCount part pvId ≠ 0) :
    table.rank part group < request.limit table ↔ table.rank docs group < request.limit table := by
  refine htrims table hmem part hpart (text, group)
    ((pathOf_group_iff (request.wellFormed table hmem)).mp hgroup) ?_
  exact Nat.ne_of_gt (Nat.lt_of_lt_of_le (Nat.pos_of_ne_zero hpos) (hle part))

/-- A value whose group is kept has its whole count. -/
theorem totalAt_kept (hdocs : threads.flatten.Perm docs)
    (hfit : ∀ part ∈ threads, request.GroupCountsFit part)
    (htrims : TrimsAgree request docs threads) {i : ℕ} (htable : request.tables[i]? = some table)
    {path : List UString} (hpath : PathOf table.keys pvId (text :: path))
    (hgroup : PathOf table.keys group [text])
    (hle : ∀ docs, table.docCount docs pvId ≤ table.docCount docs group) :
    totalAt (threads.map (threadRoots (S := S) utf8 request)) i (text :: path) =
      if table.rank docs group < request.limit table ∧ table.docCount docs pvId ≠ 0 then
        some (table.docCount docs pvId)
      else none := by
  have hkept {part : List (BitVec 32)} (hpart : part ∈ threads) :=
    htrims.kept (mem_of_getElem? htable) hgroup hle hpart
  rw [totalAt_threads hfit htable hpath hgroup hle]
  by_cases hrank : table.rank docs group < request.limit table
  · have hsum : (threads.map fun part =>
        if table.rank part group < request.limit table ∧ table.docCount part pvId ≠ 0 then
          table.docCount part pvId
        else 0).sum = table.docCount docs pvId := by
      rw [docCount_threads table hdocs]
      congr 1
      refine map_congr_left fun part hpart => ?_
      by_cases hzero : table.docCount part pvId = 0
      · simp [hzero]
      · rw [if_pos ⟨(hkept hpart hzero).mpr hrank, hzero⟩]
    by_cases hzero : table.docCount docs pvId = 0
    · rw [if_neg, if_neg fun h => h.2 hzero]
      rintro ⟨part, hpart, _, hpos⟩
      have hle' := docCount_thread_le table hdocs hpart pvId
      omega
    · rw [hsum, if_pos, if_pos ⟨hrank, hzero⟩]
      by_contra hnone
      apply hzero
      rw [docCount_threads table hdocs, sum_eq_zero_iff]
      intro count hcount
      obtain ⟨part, hpart, rfl⟩ := mem_map.mp hcount
      by_contra hpos
      exact hnone ⟨part, hpart, (hkept hpart hpos).mpr hrank, hpos⟩
  · rw [if_neg, if_neg fun h => hrank h.1]
    rintro ⟨part, hpart, hpartrank, hpos⟩
    exact hrank ((hkept hpart hpos).mp hpartrank)

/-- The roots have the counts of all documents. -/
theorem countAt_merged_root (hdocs : threads.flatten.Perm docs) (hthreads : threads ≠ [])
    (hfit : request.GroupCountsFit docs) {i : ℕ} (htable : request.tables[i]? = some table) :
    (totalAt (threads.map (threadRoots (S := S) utf8 request)) i []).map ofNat =
      countAt (threadRoots (S := S) utf8 request docs) i [] := by
  have hparts : ∀ part ∈ threads, request.GroupCountsFit part :=
    fun part hpart => groupCountsFit_thread hdocs hfit hpart
  obtain ⟨part, hpart⟩ := exists_mem_of_ne_nil _ hthreads
  have hcount (docs : List (BitVec 32)) (hfit : request.GroupCountsFit docs) :
      countAt (threadRoots (S := S) utf8 request docs) i [] =
        some (ofNat (table.docCount docs 0)) := by
    rw [threadRoots, countAt_thread hfit, htable, bind_some, if_pos rfl]
  rw [totalAt_map (c := fun _ => True) (m := fun part => table.docCount part 0)
    (fun part hpart => by rw [hcount part (hparts part hpart), if_pos trivial])
    fun part hpart => (hparts part hpart table (mem_of_getElem? htable)).1,
    if_pos ⟨part, hpart, trivial⟩, hcount docs hfit, docCount_threads table hdocs]
  simp

/-- Where the threads keep the same groups, nothing is lost. -/
theorem countAt_merged (hdocs : threads.flatten.Perm docs) (hthreads : threads ≠ [])
    (hfit : request.GroupCountsFit docs) (htrims : TrimsAgree request docs threads) (i : ℕ)
    (path : List UString) :
    (totalAt (threads.map (threadRoots (S := S) utf8 request)) i path).map ofNat =
      countAt (threadRoots (S := S) utf8 request docs) i path := by
  have hparts : ∀ part ∈ threads, request.GroupCountsFit part :=
    fun part hpart => groupCountsFit_thread hdocs hfit hpart
  cases htable : request.tables[i]? with
  | none =>
    have hnone (docs : List (BitVec 32)) :
        countAt (threadRoots (S := S) utf8 request docs) i path = none := by
      rw [threadRoots, countAt, getElem?_map, htable]
      rfl
    rw [totalAt_eq_none fun part _ => hnone part, hnone, map_none]
  | some table =>
    cases path with
    | nil => exact countAt_merged_root hdocs hthreads hfit htable
    | cons text path =>
      by_cases hvalue : ∃ pvId, PathOf table.keys pvId (text :: path)
      · obtain ⟨pvId, hpath⟩ := hvalue
        obtain ⟨group, hgroup, hle⟩ :=
          exists_group (request.wellFormed table (mem_of_getElem? htable)) hpath
        rw [totalAt_kept hdocs hparts htrims htable hpath hgroup hle, threadRoots,
          countAt_thread_of_pathOf hfit htable hpath hgroup (hle docs)]
        split <;> rfl
      · -- there is no such value
        have hnone (docs : List (BitVec 32)) (hfit : request.GroupCountsFit docs) :
            countAt (threadRoots (S := S) utf8 request docs) i (text :: path) = none := by
          rw [← not_isSome_iff_eq_none]
          exact fun hsome => hvalue
            (countAt_thread_isSome hfit htable (cons_ne_nil text path) hsome)
        rw [totalAt_eq_none fun part hpart => hnone part (hparts part hpart), hnone docs hfit,
          map_none]

/-- Where the counts are right, the threads keep the same groups. -/
theorem trimsAgree_of_countAt (utf8 : Utf8 UString) (hdocs : threads.flatten.Perm docs)
    (hfit : request.GroupCountsFit docs) (h : ∀ i path,
      (totalAt (threads.map (threadRoots (S := S) utf8 request)) i path).map ofNat =
        countAt (threadRoots (S := S) utf8 request docs) i path) :
    TrimsAgree request docs threads := by
  have hparts : ∀ part ∈ threads, request.GroupCountsFit part :=
    fun part hpart => groupCountsFit_thread hdocs hfit hpart
  rintro table hmem part hpart ⟨text, group⟩ hgroup hcounted
  obtain ⟨i, htable⟩ := mem_iff_getElem?.mp hmem
  have hpath : PathOf table.keys group [text] :=
    (pathOf_group_iff (request.wellFormed table hmem)).mpr hgroup
  have hpos : table.docCount docs group ≠ 0 := by
    have hle := docCount_thread_le table hdocs hpart group
    simp only at hcounted
    omega
  have hcount := h i [text]
  rw [totalAt_threads hparts htable hpath hpath fun _ => Nat.le_refl _, threadRoots,
    countAt_thread_of_pathOf hfit htable hpath hpath (Nat.le_refl _)] at hcount
  constructor
  · intro hrank
    rw [if_pos ⟨part, hpart, hrank, hcounted⟩] at hcount
    by_contra hnot
    rw [if_neg fun h => hnot h.1] at hcount
    cases hcount
  · intro hrank
    have hkept : table.rank docs group < request.limit table ∧ table.docCount docs group ≠ 0 :=
      ⟨hrank, hpos⟩
    by_contra hnot
    -- the master's count would lack what this thread has counted
    have hlt : (threads.map fun part =>
        if table.rank part group < request.limit table ∧ table.docCount part group ≠ 0 then
          table.docCount part group
        else 0).sum < table.docCount docs group := by
      rw [docCount_threads table hdocs]
      refine sum_lt_sum _ _ (fun part' _ => ?_) ⟨part, hpart, ?_⟩
      · split
        · exact Nat.le_refl _
        · exact Nat.zero_le _
      · rw [if_neg fun h => hnot h.1]
        exact Nat.pos_of_ne_zero hcounted
    have hbound := docCount_lt (request.wellFormed table hmem) (hfit table hmem).1
      (hfit table hmem).2 group
    split at hcount
    · rw [map_some, some.injEq] at hcount
      have hnat := congrArg toNat hcount
      rw [toNat_ofNat_of_lt' (hlt.trans hbound), toNat_ofNat_of_lt' hbound] at hnat
      exact absurd hnat hlt.ne
    · cases hcount

variable (S utf8 request)

/-- The facets of a single thread and of a parallel search are the greatest groups of all
documents, with their counts over all of them. -/
def FacetsAgree (docs : List (BitVec 32)) (threads : List (List (BitVec 32))) : Prop :=
  (request.threadRep (S := S) utf8 docs).map (List.map facetOf) =
      some (request.report utf8 docs) ∧
    (request.parallelRep (S := S) utf8 threads).map (List.map facetOf) =
      some (request.report utf8 docs)

/-- Every thread has counted a group of every property but the last one. -/
def ThreadsCountGroups (threads : List (List (BitVec 32))) : Prop :=
  ∀ part ∈ threads, ∀ table ∈ request.tables.dropLast, ∃ group ∈ table.groups,
    table.docCount part group.2 ≠ 0

variable {S utf8 request}

omit [Zero S] in
theorem threadReadable_of_fit (hfit : request.GroupCountsFit docs) :
    request.ThreadReadable docs ↔ ∀ table ∈ request.tables.dropLast, ∃ group ∈ table.groups,
      table.docCount docs group.2 ≠ 0 := by
  refine forall₂_congr fun table htable => exists_congr fun group => and_congr_right fun _ => ?_
  rw [counted_iff hfit (mem_of_mem_dropLast htable), decide_eq_true_eq]

theorem parallelRep_of_readable (hread : ∀ part ∈ threads, request.ThreadReadable part) :
    request.parallelRep (S := S) utf8 threads =
      some (mergeThreadParams ((threads.map (threadRoots utf8 request)).map rootItems)) := by
  rw [parallelRep, mapM_eq_some fun part hpart =>
    threadRep_of_readable utf8 (hread part hpart), List.map_map]
  rfl

theorem threadRep_isSome_iff :
    (request.threadRep (S := S) utf8 docs).isSome ↔ request.ThreadReadable docs := by
  constructor
  · intro h
    by_contra hnot
    rw [threadRep_eq_none utf8 hnot] at h
    cases h
  · intro h
    rw [threadRep_of_readable utf8 h]
    rfl

/-- What a parallel search reports, once every thread has its list. -/
theorem facetsAgree_of_trimsAgree (hdocs : threads.flatten.Perm docs) (hthreads : threads ≠ [])
    (hread : ThreadsCountGroups request threads) (hfit : request.GroupCountsFit docs)
    (htrims : TrimsAgree request docs threads) : FacetsAgree S utf8 request docs threads := by
  have hparts : ∀ part ∈ threads, request.GroupCountsFit part :=
    fun part hpart => groupCountsFit_thread hdocs hfit hpart
  have hreads : ∀ part ∈ threads, request.ThreadReadable part :=
    fun part hpart => (threadReadable_of_fit (hparts part hpart)).mpr (hread part hpart)
  have hall : request.ThreadReadable docs := by
    obtain ⟨part, hpart⟩ := exists_mem_of_ne_nil _ hthreads
    refine (threadReadable_of_fit hfit).mpr fun table htable => ?_
    obtain ⟨group, hgroup, hpos⟩ := hread part hpart table htable
    have hle := docCount_thread_le table hdocs hpart group.2
    exact ⟨group, hgroup, by omega⟩
  refine ⟨?_, ?_⟩
  · rw [threadRep_of_readable utf8 hall, map_some, map_facetOf_thread hfit]
  · obtain ⟨roots, hrun, hsorted, hsame, hcount⟩ :=
      exists_merged (S := S) utf8 docs hthreads hparts
    rw [parallelRep_of_readable hreads, map_some, hrun, ← map_facetOf_thread (S := S) hfit]
    congr 1
    refine map_facetOf_of_map_nodeOf (map_nodeOf_rootItems hsame hsorted
      (sortedRoots_thread hfit) fun i path => ?_)
    rw [hcount]
    exact countAt_merged hdocs hthreads hfit htrims i path

theorem trimsAgree_of_facetsAgree (hthreads : threads ≠ []) (hdocs : threads.flatten.Perm docs)
    (h : FacetsAgree S utf8 request docs threads) :
    ThreadsCountGroups request threads ∧ request.GroupCountsFit docs ∧
      TrimsAgree request docs threads := by
  obtain ⟨hsingle, hparallel⟩ := h
  obtain ⟨single, _, hreport⟩ := map_eq_some_iff.mp hsingle
  have hfit := groupCountsFit_of_report hreport
  have hparts : ∀ part ∈ threads, request.GroupCountsFit part :=
    fun part hpart => groupCountsFit_thread hdocs hfit hpart
  have hreads : ∀ part ∈ threads, request.ThreadReadable part := by
    obtain ⟨reps, hreps, _⟩ := map_eq_some_iff.mp hparallel
    obtain ⟨_, hmapM, _⟩ := map_eq_some_iff.mp hreps
    exact fun part hpart => threadRep_isSome_iff.mp
      (isSome_of_mapM (by rw [hmapM]; rfl) part hpart)
  refine ⟨fun part hpart => (threadReadable_of_fit (hparts part hpart)).mp
    (hreads part hpart), hfit, trimsAgree_of_countAt (S := S) utf8 hdocs hfit ?_⟩
  obtain ⟨roots, hrun, hsorted, hsame, hcount⟩ :=
    exists_merged (S := S) utf8 docs hthreads hparts
  rw [parallelRep_of_readable hreads, map_some, hrun, some.injEq,
    ← map_facetOf_thread (S := S) hfit] at hparallel
  intro i path
  rw [← hcount]
  exact countAt_eq_of_map_nodeOf (map_nodeOf_of_map_facetOf hparallel) i path

/-- The facets of a parallel search are those of a single thread, which are the greatest groups
of all documents, exactly when every thread counts a group of every property after which another
one is listed, the counts have 32 bits, and a thread keeps a group that it counts just in case
a single thread keeps it. -/
theorem facetsAgree_iff_trimsAgree (utf8 : Utf8 UString) (request : FacetRequest UString)
    (docs : List (BitVec 32)) (threads : List (List (BitVec 32))) (hthreads : threads ≠ [])
    (hdocs : threads.flatten.Perm docs) : FacetsAgree S utf8 request docs threads ↔
      ThreadsCountGroups request threads ∧ request.GroupCountsFit docs ∧
        TrimsAgree request docs threads := by
  constructor
  · exact trimsAgree_of_facetsAgree hthreads hdocs
  · rintro ⟨hread, hfit, htrims⟩
    exact facetsAgree_of_trimsAgree hdocs hthreads hread hfit htrims

end Threads

theorem length_le_of_pathOf [Inhabited UString] [DecidableEq UString]
    {table : PropValueTable UString} (h : table.WellFormed) {pvId : ℕ}
    (hpath : PathOf table.keys pvId path) : path.length ≤ pvId := by
  induction hpath with
  | root => exact Nat.le_refl 0
  | child _ hid hkey ih =>
    have hlt := h.key_parent_lt _ _ _ hid hkey
    rw [length_append, length_singleton]
    omega

/-- Brand 1 is `acme` and brand 2 is `zeta`; the documents 1 and 2 have the first brand, the
documents 3, 4 and 5 the second one. -/
def brandTable : PropValueTable String :=
  { PropValueTable.insertAll {} [["acme"], ["zeta"]] with
    propName := "Brand", valueIdTable := { indexTable := [0, 1, 1, 2, 2, 2] } }

theorem wellFormed_brandTable : brandTable.WellFormed := by
  obtain ⟨h, _⟩ := PropValueTable.insertAll_spec [["acme"], ["zeta"]]
    (PropValueTable.wellFormed_empty : ({} : PropValueTable String).WellFormed)
  exact ⟨h.parents, h.maps, h.pos, h.le, h.index, h.parent_lt⟩

theorem levelsFit_brandTable : brandTable.LevelsFit := by
  intro pvId path hpath
  have hpathOf := wellFormed_brandTable.propValuePath_eq_iff.mp hpath
  have hle := length_le_of_pathOf wellFormed_brandTable hpathOf
  cases hpathOf with
  | root => exact Nat.one_lt_two_pow (by omega)
  | child _ _ hkey =>
    have hlt := wellFormed_brandTable.lt_of_key hkey
    have hnum : brandTable.propValueNum = 3 := by decide
    omega

/-- One brand is asked for. -/
def brandRequest : FacetRequest String where
  groupProps := [⟨"Brand", 1⟩]
  tables := [brandTable]
  limited := by decide
  named := by decide
  wellFormed := forall_mem_singleton.mpr wellFormed_brandTable
  levelsFit := forall_mem_singleton.mpr levelsFit_brandTable

def sameUtf8 : Utf8 String := ⟨id, id, fun _ => rfl⟩

/-- The first thread drops `acme`, which a single thread drops, too. -/
theorem facetsAgree_dropped :
    FacetsAgree ℕ sameUtf8 brandRequest [1, 3, 4, 5] [[1, 3, 4], [5]] := by
  refine (facetsAgree_iff_trimsAgree sameUtf8 brandRequest [1, 3, 4, 5] [[1, 3, 4], [5]]
    (by decide) (Perm.refl _)).mpr ⟨?_, ?_, ?_⟩
  · unfold ThreadsCountGroups
    decide
  · unfold FacetRequest.GroupCountsFit
    decide
  · unfold TrimsAgree
    decide

/-- Two documents of three have `acme` in the first thread, but `zeta` is the greatest group. -/
theorem not_facetsAgree_kept :
    ¬ FacetsAgree ℕ sameUtf8 brandRequest [1, 2, 3, 4, 5] [[1, 2, 3], [4, 5]] := by
  intro h
  have hdocs : ([[1, 2, 3], [4, 5]] : List (List (BitVec 32))).flatten.Perm [1, 2, 3, 4, 5] :=
    Perm.refl _
  obtain ⟨_, _, htrims⟩ := trimsAgree_of_facetsAgree (cons_ne_nil _ _) hdocs h
  have hzeta := htrims brandTable (mem_singleton_self _) [1, 2, 3]
    (mem_cons_self ..) ("zeta", 2) (by decide) (by decide)
  exact absurd (hzeta.mpr (by decide)) (by decide)

end AdDelivery.GroupManager
