import AdDelivery.GroupManager.ParentIdSet
import AdDelivery.GroupManager.TopGroups

/-!
# Counts of values and counts of documents

A counter is incremented for every value of a document, and the counts are pushed up to all
values above. A document with two values below one value is so counted twice there. The list has
the counts of the documents exactly as far as no document has further values in a subtree beyond
its first one, up to what 32 bits can tell.
-/

namespace AdDelivery.GroupManager

open List Nat Forest StringGroupCounter

variable {UString S : Type}

/-- Over the ids of a list that has no id twice, occurrences are summed up one by one. -/
theorem sum_mul_count {ids : List ℕ} (hids : ids.Nodup) (f : ℕ → ℕ) {values : List ℕ}
    (h : ∀ value ∈ values, value ∈ ids) :
    (ids.map fun i => f i * values.count i).sum = (values.map f).sum := by
  induction values with
  | nil => simp
  | cons value values ih =>
    have hone : (ids.map fun i => f i * if value = i then 1 else 0).sum = f value := by
      have hperm := perm_cons_erase (h value mem_cons_self)
      rw [(hperm.map _).sum_eq, map_cons, sum_cons, if_pos rfl, mul_one]
      have hrest : ∀ n ∈ (ids.erase value).map fun i => f i * if value = i then 1 else 0,
          n = 0 := by
        intro n hn
        obtain ⟨i, hi, rfl⟩ := mem_map.mp hn
        have hne : i ≠ value := ((hids.mem_erase_iff).mp hi).1
        rw [if_neg (Ne.symm hne), mul_zero]
      rw [sum_eq_zero hrest, add_zero]
    simp only [count_cons, beq_iff_eq, mul_add, sum_map_add]
    rw [ih fun value' hvalue => h value' (mem_cons_of_mem value hvalue), hone,
      map_cons, sum_cons, add_comm]

theorem sum_map_ite {α : Type*} (values : List α) (p : α → Prop) [DecidablePred p] :
    (values.map fun value => if p value then 1 else 0).sum =
      values.countP fun value => decide (p value) := by
  induction values with
  | nil => rfl
  | cons value values ih =>
    rw [map_cons, sum_cons, ih, countP_cons, add_comm]
    simp only [decide_eq_true_eq]

namespace PropValueTable

variable [Inhabited UString] (table : PropValueTable UString) (docs : List (BitVec 32))

/-- The number of values that a document has at or below `pvId`. -/
def valuesBelow (doc : BitVec 32) (pvId : ℕ) : ℕ :=
  (table.getPropIdList doc).toList.countP fun id => decide (pvId ∈ table.getParentIds id.toNat)

/-- The number of documents that have a value at or below `pvId`, and for the root that have any
value. -/
def docsBelow (pvId : ℕ) : ℕ :=
  docs.countP fun doc =>
    if pvId = 0 then decide ((table.getPropIdList doc).size ≠ 0)
    else decide (table.valuesBelow doc pvId ≠ 0)

/-- The number of values at or below `pvId` that documents have beyond their first one there. -/
def surplus (pvId : ℕ) : ℕ :=
  (docs.map fun doc => table.valuesBelow doc pvId - 1).sum

/-- The lists of the documents are lists of values of the table. -/
def ValuesOf : Prop :=
  ∀ doc ∈ docs, ∀ id ∈ (table.getPropIdList doc).toList,
    0 < id.toNat ∧ id.toNat < table.propValueNum

section Counts

variable [DecidableEq UString] {table : PropValueTable UString}

/-- The way up passes every value at most once. -/
theorem WellFormed.count_getParentIds (h : table.WellFormed) {id : ℕ}
    (hid : id < table.propValueNum) (above : ℕ) :
    (table.getParentIds id).count above = if above ∈ table.getParentIds id then 1 else 0 := by
  induction id using Nat.strong_induction_on with
  | h id ih =>
    rcases Nat.eq_zero_or_pos id with rfl | hpos
    · rw [getParentIds_zero]
      rfl
    · obtain ⟨parent, hparent⟩ : ∃ parent, table.parentIdVec[id]? = some parent :=
        ⟨_, getElem?_eq_getElem (h.parents.symm ▸ hid)⟩
      have hlt := h.parent_lt id parent hpos hparent
      have hrest := ih parent hlt (hlt.trans hid)
      rw [h.getParentIds_eq hpos hparent, count_cons, hrest]
      by_cases hself : id = above
      · subst hself
        have hnot : id ∉ table.getParentIds parent := fun hmem =>
          absurd (h.le_of_mem_getParentIds (hlt.trans hid) hmem) (not_le.mpr hlt)
        simp [hnot]
      · simp [hself, Ne.symm hself]

omit [DecidableEq UString] in
theorem zero_notMem_getParentIds (table : PropValueTable UString) (id : ℕ) :
    0 ∉ table.getParentIds id := by
  have hfrom (fuel id : ℕ) : 0 ∉ parentIdsFrom table.parentIdVec fuel id := by
    induction fuel generalizing id with
    | zero => cases id <;> exact not_mem_nil
    | succ fuel ih =>
      cases id with
      | zero => exact not_mem_nil
      | succ id =>
        rw [parentIdsFrom, mem_cons]
        rintro (heq | hmem)
        · exact absurd heq.symm (succ_ne_zero id)
        · exact ih _ hmem
  exact hfrom _ _

omit [DecidableEq UString] in
theorem valuesBelow_zero (table : PropValueTable UString) (doc : BitVec 32) :
    table.valuesBelow doc 0 = 0 := by
  rw [valuesBelow, countP_eq_zero]
  intro id _
  simpa using table.zero_notMem_getParentIds id.toNat

/-- One document adds one to a value for each of its own values at or below it. -/
theorem WellFormed.docCount_singleton (h : table.WellFormed) {doc : BitVec 32}
    (hvalues : table.ValuesOf [doc]) (pvId : ℕ) : table.docCount [doc] pvId =
      if pvId = 0 then if (table.getPropIdList doc).size ≠ 0 then 1 else 0
      else table.valuesBelow doc pvId := by
  have hids := hvalues doc (mem_singleton_self doc)
  by_cases hsize : (table.getPropIdList doc).size = 0
  · -- no values
    have hnone : (table.getPropIdList doc).toList = [] := by
      rw [PropIdList.toList, hsize]
      rfl
    have hraw (i : ℕ) : table.rawCount [doc] i = 0 := by
      simp [rawCount, hits, hsize]
    simp [docCount, hraw, hsize, valuesBelow, hnone]
  · have hhits : table.hits doc =
        (table.getPropIdList doc).toList.map BitVec.toNat ++ [0] := if_neg hsize
    have hraw (i : ℕ) (hi : 0 < i) : table.rawCount [doc] i =
        ((table.getPropIdList doc).toList.map BitVec.toNat).count i := by
      rw [rawCount, flatMap_singleton, hhits, count_append,
        count_singleton, if_neg (by simpa using hi.ne), add_zero]
    have hbelow : ((List.range' 1 (table.propValueNum - 1)).map fun i =>
        (table.getParentIds i).count pvId * table.rawCount [doc] i).sum =
          table.valuesBelow doc pvId := by
      have hcongr : ((List.range' 1 (table.propValueNum - 1)).map fun i =>
          (table.getParentIds i).count pvId * table.rawCount [doc] i) =
          (List.range' 1 (table.propValueNum - 1)).map fun i =>
            (if pvId ∈ table.getParentIds i then 1 else 0) *
              ((table.getPropIdList doc).toList.map BitVec.toNat).count i := by
        refine map_congr_left fun i hi => ?_
        rw [mem_range'_1] at hi
        rw [h.count_getParentIds (by omega), hraw i (by omega)]
      rw [hcongr, sum_mul_count nodup_range' (fun i =>
        if pvId ∈ table.getParentIds i then 1 else 0), List.map_map]
      · exact sum_map_ite _ _
      · intro value hvalue
        obtain ⟨id, hid, rfl⟩ := mem_map.mp hvalue
        rw [mem_range'_1]
        have := hids id hid
        omega
    rw [docCount, hbelow]
    by_cases hzero : pvId = 0
    · subst hzero
      have hroot : table.rawCount [doc] 0 = 1 := by
        rw [rawCount, flatMap_singleton, hhits, count_append,
          count_singleton_self, count_eq_zero_of_not_mem]
        intro hmem
        obtain ⟨id, hid, heq⟩ := mem_map.mp hmem
        exact absurd (hids id hid).1 (by omega)
      rw [if_pos rfl, if_pos rfl, if_pos hsize, hroot, table.valuesBelow_zero]
    · rw [if_neg hzero, if_neg hzero, zero_add]

/-- A count is the number of the documents and their surplus. -/
theorem WellFormed.docCount_eq (h : table.WellFormed) {docs : List (BitVec 32)}
    (hvalues : table.ValuesOf docs) (pvId : ℕ) :
    table.docCount docs pvId = table.docsBelow docs pvId + table.surplus docs pvId := by
  induction docs with
  | nil => simp [docsBelow, surplus]
  | cons doc docs ih =>
    have hrest : table.ValuesOf docs := fun doc' hdoc' =>
      hvalues doc' (mem_cons_of_mem _ hdoc')
    have hone : table.ValuesOf [doc] := fun doc' hdoc' =>
      hvalues doc' (mem_singleton.mp hdoc' ▸ mem_cons_self)
    have hdocs : table.docsBelow (doc :: docs) pvId = table.docsBelow docs pvId +
        if (if pvId = 0 then decide ((table.getPropIdList doc).size ≠ 0)
          else decide (table.valuesBelow doc pvId ≠ 0)) then 1 else 0 := countP_cons
    have hsurplus : table.surplus (doc :: docs) pvId =
        (table.valuesBelow doc pvId - 1) + table.surplus docs pvId := sum_cons
    rw [← singleton_append, docCount_append, ih hrest, h.docCount_singleton hone,
      singleton_append, hdocs, hsurplus]
    by_cases hzero : pvId = 0
    · subst hzero
      rw [table.valuesBelow_zero]
      simp only [if_true, decide_eq_true_eq]
      omega
    · simp only [if_neg hzero, decide_eq_true_eq]
      split <;> omega

end Counts

end PropValueTable

open PropValueTable

/-- The level of an item is a byte. -/
def toByte (facet : ℕ × UString × ℕ) : ℕ × UString × ℕ := (facet.1 % 2 ^ 8, facet.2)

theorem facets_ofRow_filter (level : ℕ) (p : ℕ → Bool) (count : ℕ → ℕ)
    (entries : List (UString × ℕ × Forest UString ℕ)) :
    facets level (((ofRow entries).filter p).map count) = entries.flatMap fun entry =>
        if p entry.2.1 then
          (level, entry.1, count entry.2.1) :: facets (level + 1) ((entry.2.2.filter p).map count)
        else [] := by
  induction entries with
  | nil => rfl
  | cons entry entries ih =>
    rw [Forest.ofRow, Forest.filter, flatMap_cons]
    split
    · rw [Forest.map, facets, ih, cons_append]
    · rw [ih, nil_append]

theorem StringGroupCounter.length_addCountForParentId [Inhabited UString]
    (counter : StringGroupCounter UString) :
    counter.addCountForParentId.countTable.length = counter.countTable.length := by
  have hfold (ids : List ℕ) (newCountTable : List UInt32) :
      (ids.foldl (fun newCountTable i =>
        if counter.countTable.getD i 0 = 0 then newCountTable
        else (counter.propValueTable.getParentIds i).foldl
          (fun newCountTable it => newCountTable.modify it (· + counter.countTable.getD i 0))
          newCountTable) newCountTable).length = newCountTable.length := by
    induction ids generalizing newCountTable with
    | nil => rfl
    | cons i ids ih =>
      rw [foldl_cons, ih]
      split
      · rfl
      · exact length_foldl_modify _ _ _
  by_cases hzero : counter.countTable.length = 0
  · rw [addCountForParentId, if_pos hzero]
  · simp only [addCountForParentId, if_neg hzero]
    exact (hfold _ _).trans (by rw [length_set, length_replicate])

section Listing

variable [LinearOrder UString] [Zero S]

/-- The values with a count are listed in preorder. -/
theorem map_facetOf_appendGroupRep (childMapTable : List (Table UString ℕ))
    (countTable : List UInt32) (fuel pvId level : ℕ) (valueStr : UString) :
    (appendGroupRep (S := S) childMapTable countTable (fuel + 1) pvId level valueStr).map facetOf =
      ((level, valueStr, (countTable.getD pvId 0).toNat) ::
        facets (level + 1) (((valueForest childMapTable fuel pvId).filter
          fun id => decide ((countTable.getD id 0).toNat ≠ 0)).map
            fun id => (countTable.getD id 0).toNat)).map toByte := by
  have hcounted (id : ℕ) : countTable.getD id 0 ≠ 0 ↔ (countTable.getD id 0).toNat ≠ 0 :=
    not_congr UInt32.toNat_inj.symm
  induction fuel generalizing pvId level valueStr with
  | zero =>
    have hnil : (Table.inOrder (childMapTable.getD pvId ∅)).flatMap
        (fun _ => ([] : StringGroupRep UString S)) = [] :=
      flatMap_eq_nil_iff.mpr fun _ _ => rfl
    simp only [appendGroupRep, ite_self, hnil]
    rfl
  | succ fuel ih =>
    rw [appendGroupRep, valueForest, map_cons, map_cons,
      facets_ofRow_filter, map_flatMap, map_flatMap, flatMap_map]
    congr 1
    refine flatMap_congr fun it _ => ?_
    simp only [hcounted, decide_eq_true_eq]
    split
    · exact ih it.2 (level + 1) it.1
    · rfl

variable [Inhabited UString] {table : PropValueTable UString}

/-- What 32 bits hold of a count. -/
def shownCount (table : PropValueTable UString) (docs : List (BitVec 32)) (pvId : ℕ) : ℕ :=
  table.docCount docs pvId % 2 ^ 32

/-- The tree of the values that have a count other than 0. -/
def countedTree (table : PropValueTable UString) (count : ℕ → ℕ) : Forest UString ℕ :=
  (table.values.filter fun pvId => decide (count pvId ≠ 0)).map count

theorem map_facetOf_getGroupRep (h : table.WellFormed) (utf8 : Utf8 UString)
    (docs : List (BitVec 32)) : ((ofDocs table docs).getGroupRep (S := S) utf8 []).map facetOf =
      (rootFacets (utf8.decode table.propName) (shownCount table docs 0)
        (countedTree table (shownCount table docs))).map toByte := by
  have hpos : 0 < table.propValueNum := h.pos
  have htable : (ofDocs table docs).addCountForParentId.propValueTable =
      table := by
    unfold addCountForParentId
    simp only [length_ofDocs, if_neg hpos.ne', propValueTable_ofDocs]
  have hshown (pvId : ℕ) :
      ((ofDocs table docs).addCountForParentId.countTable.getD pvId 0).toNat =
        shownCount table docs pvId := by
    rcases lt_or_ge pvId table.propValueNum with hid | hid
    · rw [getD_addCountForParentId table docs hid]
      exact UInt32.toNat_ofNat'
    · rw [shownCount, docCount_eq_zero h docs hid, getD_eq_default]
      · rfl
      · rwa [length_addCountForParentId, length_ofDocs]
  obtain ⟨fuel, hfuel⟩ : ∃ n, table.propValueNum = n + 1 := ⟨table.propValueNum - 1, by omega⟩
  unfold getGroupRep
  simp only [htable, hfuel, nil_append]
  rw [map_facetOf_appendGroupRep]
  simp only [hshown]
  rw [countedTree, values, hfuel]
  rfl

/-- The list shows a tree, its rows in the order of their texts, that has the paths of exactly the
values at or below which a document has a value, each with the number of these documents. -/
def CountsDocuments (utf8 : Utf8 UString) (table : PropValueTable UString)
    (docs : List (BitVec 32)) (rep : StringGroupRep UString S) : Prop :=
  ∃ children : Forest UString ℕ, children.Sorted ∧
    (∀ path count, children.find path = some count ↔ path ≠ [] ∧ count ≠ 0 ∧
      ∃ pvId, PathOf table.keys pvId path ∧ count = table.docsBelow docs pvId) ∧
    rep.map facetOf =
      rootFacets (utf8.decode table.propName) (table.docsBelow docs 0) children

/-- No value has a surplus, and the numbers fit their types: a count has 32 bits, and a level has
8. -/
structure NoSurplus (table : PropValueTable UString) (docs : List (BitVec 32)) : Prop where
  surplus : ∀ pvId, 2 ^ 32 ∣ table.surplus docs pvId
  docs_lt : table.docsBelow docs 0 < 2 ^ 32
  levels : ∀ pvId path, PathOf table.keys pvId path → table.docsBelow docs pvId ≠ 0 →
    path.length < 2 ^ 8

variable {docs : List (BitVec 32)}

theorem PropValueTable.WellFormed.docsBelow_eq_zero_iff (h : table.WellFormed)
    (hvalues : table.ValuesOf docs) (pvId : ℕ) :
    table.docsBelow docs pvId = 0 ↔ table.docCount docs pvId = 0 := by
  rw [h.docCount_eq hvalues]
  constructor
  · intro hzero
    have hsurplus : table.surplus docs pvId = 0 := by
      rw [surplus, sum_eq_zero_iff]
      intro n hn
      obtain ⟨doc, hdoc, rfl⟩ := mem_map.mp hn
      by_cases hroot : pvId = 0
      · rw [hroot, table.valuesBelow_zero, Nat.zero_sub]
      · have hnone := countP_eq_zero.mp hzero doc hdoc
        rw [if_neg hroot, decide_eq_true_eq, not_not] at hnone
        rw [hnone, Nat.zero_sub]
    rw [hzero, hsurplus]
  · omega

/-- The tree of the documents is the only one that the list may show. -/
theorem PropValueTable.WellFormed.find_countedTree (h : table.WellFormed)
    (hvalues : table.ValuesOf docs) (path : List UString) (count : ℕ) :
    (countedTree table (table.docsBelow docs)).find path = some count ↔ path ≠ [] ∧ count ≠ 0 ∧
      ∃ pvId, PathOf table.keys pvId path ∧ count = table.docsBelow docs pvId := by
  have hhereditary : table.values.Hereditary
      (fun pvId => decide (table.docsBelow docs pvId ≠ 0)) True := by
    simp only [ne_eq, h.docsBelow_eq_zero_iff hvalues]
    exact hereditary_docCount h docs
  rw [countedTree, find_map, find_filter table.sorted_values hhereditary]
  by_cases hpath : path = []
  · simp [hpath]
  · rw [Option.map_eq_some_iff]
    constructor
    · rintro ⟨pvId, hfind, rfl⟩
      obtain ⟨hfind, hcounted⟩ := Option.filter_eq_some_iff.mp hfind
      exact ⟨hpath, of_decide_eq_true hcounted, pvId, (h.find_values hpath).mp hfind, rfl⟩
    · rintro ⟨_, hcount, pvId, hkey, rfl⟩
      refine ⟨pvId, Option.filter_eq_some_iff.mpr ⟨?_, decide_eq_true hcount⟩, rfl⟩
      exact (h.find_values hpath).mpr hkey

omit [Zero S] in
theorem countsDocuments_iff_countedTree (h : table.WellFormed) {docs : List (BitVec 32)}
    (hvalues : table.ValuesOf docs) (utf8 : Utf8 UString) (rep : StringGroupRep UString S) :
    CountsDocuments utf8 table docs rep ↔
      rep.map facetOf = rootFacets (utf8.decode table.propName) (table.docsBelow docs 0)
        (countedTree table (table.docsBelow docs)) := by
  have hsorted : (countedTree table (table.docsBelow docs)).Sorted :=
    table.sorted_values.filter.map _
  constructor
  · rintro ⟨children, hchildren, hfind, hrep⟩
    have htree : children = countedTree table (table.docsBelow docs) := by
      refine ext_find hchildren hsorted fun path => Option.ext fun count => ?_
      rw [hfind, h.find_countedTree hvalues]
    rw [hrep, htree]
  · intro hrep
    exact ⟨_, hsorted, h.find_countedTree hvalues, hrep⟩

omit [Zero S] [Inhabited UString] in
/-- The nodes of a list are those at the paths of its tree. -/
theorem exists_mem_facets_iff {f : Forest UString ℕ} (hf : f.Sorted) {level l id : ℕ} :
    (∃ text, (l, text, id) ∈ facets level f) ↔
      ∃ path, f.find path = some id ∧ l + 1 = level + path.length := by
  induction f generalizing level with
  | nil => simp [facets, find]
  | node label value children siblings ihc ihs =>
    obtain ⟨hchildren, hsiblings, habove⟩ := hf
    simp only [facets, mem_cons, mem_append, Prod.mk.injEq]
    constructor
    · rintro ⟨text, ⟨rfl, rfl, rfl⟩ | hmem | hmem⟩
      · exact ⟨[text], find_node_self _ _ _ _, rfl⟩
      · obtain ⟨path, hfind, hl⟩ := (ihc hchildren).mp ⟨text, hmem⟩
        have hne : path ≠ [] := by
          rintro rfl
          rw [find_empty] at hfind
          cases hfind
        refine ⟨label :: path, ?_, ?_⟩
        · rwa [find_node_child _ _ _ _ hne]
        · rw [length_cons]
          omega
      · obtain ⟨path, hfind, hl⟩ := (ihs hsiblings).mp ⟨text, hmem⟩
        cases path with
        | nil =>
          rw [find_empty] at hfind
          cases hfind
        | cons x path =>
          refine ⟨x :: path, ?_, hl⟩
          by_cases hx : x = label
          · rw [find_eq_none_of_above hsiblings habove hx.le] at hfind
            cases hfind
          · rwa [find_node_of_ne hx]
    · rintro ⟨path, hfind, hl⟩
      cases path with
      | nil => cases hfind
      | cons x path =>
        by_cases hx : x = label
        · subst hx
          cases path with
          | nil =>
            rw [find_node_self] at hfind
            exact ⟨x, Or.inl ⟨succ.inj hl, rfl, (Option.some.inj hfind).symm⟩⟩
          | cons y path =>
            rw [find_node_child _ _ _ _ (cons_ne_nil y path)] at hfind
            rw [length_cons] at hl
            obtain ⟨text, hmem⟩ := (ihc hchildren).mpr
              ⟨y :: path, hfind, (by omega : l + 1 = level + 1 + (y :: path).length)⟩
            exact ⟨text, Or.inr (Or.inl hmem)⟩
        · rw [find_node_of_ne hx] at hfind
          obtain ⟨text, hmem⟩ := (ihs hsiblings).mpr ⟨x :: path, hfind, hl⟩
          exact ⟨text, Or.inr (Or.inr hmem)⟩

omit [Zero S] [Inhabited UString] in
/-- Two counts of one tree are listed alike just in case they agree at all of its nodes, whose
levels fit a byte. -/
theorem map_toByte_facets_iff {f : Forest UString ℕ} (hf : f.Sorted) (count count' : ℕ → ℕ) :
    (facets 1 (f.map count)).map toByte = facets 1 (f.map count') ↔
      ∀ path id, f.find path = some id → path.length < 2 ^ 8 ∧ count id = count' id := by
  rw [← map_facets, ← map_facets, List.map_map, map_inj_left]
  constructor
  · intro h path id hfind
    obtain ⟨text, hmem⟩ := (exists_mem_facets_iff hf).mpr
      ⟨path, hfind, add_comm path.length 1⟩
    have hbyte := h _ hmem
    simp only [Function.comp_apply, toByte, Prod.mk.injEq, true_and] at hbyte
    exact ⟨by omega, hbyte.2⟩
  · rintro h ⟨l, text, id⟩ hmem
    obtain ⟨path, hfind, hl⟩ := (exists_mem_facets_iff hf).mp ⟨text, hmem⟩
    obtain ⟨hlevel, hcount⟩ := h path id hfind
    have hbyte : l % 2 ^ 8 = l := mod_eq_of_lt (by omega)
    simp only [Function.comp_apply, toByte, hbyte, hcount]

theorem PropValueTable.WellFormed.exists_pathOf (h : table.WellFormed) {pvId : ℕ}
    (hid : pvId < table.propValueNum) : ∃ path, PathOf table.keys pvId path := by
  induction pvId using Nat.strong_induction_on with
  | h pvId ih =>
    rcases Nat.eq_zero_or_pos pvId with rfl | hpos
    · exact ⟨[], .root⟩
    · have hlt : pvId < table.keys.length := by
        rw [h.length_keys]
        exact hid
      obtain ⟨⟨parent, text⟩, hkey⟩ : ∃ key, table.keys[pvId]? = some key :=
        ⟨_, getElem?_eq_getElem hlt⟩
      have hless := h.key_parent_lt pvId parent text hpos hkey
      obtain ⟨path, hpath⟩ := ih parent hless (hless.trans hid)
      exact ⟨path ++ [text], hpath.child hpos hkey⟩

omit [LinearOrder UString] [Zero S] in
theorem docsBelow_le_root (table : PropValueTable UString) (docs : List (BitVec 32)) (pvId : ℕ) :
    table.docsBelow docs pvId ≤ table.docsBelow docs 0 := by
  refine countP_mono_left fun doc _ hdoc => ?_
  rw [if_pos rfl, decide_eq_true_eq]
  intro hsize
  split at hdoc
  · exact of_decide_eq_true hdoc hsize
  · refine of_decide_eq_true hdoc ?_
    have hnone : (table.getPropIdList doc).toList = [] := by
      rw [PropIdList.toList, hsize]
      rfl
    rw [valuesBelow, hnone]
    rfl

section

variable (h : table.WellFormed) (hvalues : table.ValuesOf docs)
include h hvalues

/-- 32 bits show the number of the documents if the surplus vanishes in them. -/
theorem shownCount_eq_iff (pvId : ℕ) : shownCount table docs pvId = table.docsBelow docs pvId ↔
      table.docsBelow docs pvId < 2 ^ 32 ∧ 2 ^ 32 ∣ table.surplus docs pvId := by
  rw [shownCount, h.docCount_eq hvalues]
  omega

theorem PropValueTable.WellFormed.exists_pathOf_of_docsBelow {pvId : ℕ}
    (hcount : table.docsBelow docs pvId ≠ 0) : ∃ path, PathOf table.keys pvId path := by
  refine h.exists_pathOf (not_le.mp fun hid => hcount ?_)
  rw [h.docsBelow_eq_zero_iff hvalues, docCount_eq_zero h docs hid]

/-- The tree of the values that documents have. -/
theorem PropValueTable.WellFormed.find_filter_docsBelow (path : List UString) (pvId : ℕ) :
    (table.values.filter fun pvId => decide (table.docsBelow docs pvId ≠ 0)).find path = some pvId ↔
      path ≠ [] ∧ PathOf table.keys pvId path ∧ table.docsBelow docs pvId ≠ 0 := by
  have hhereditary : table.values.Hereditary
      (fun pvId => decide (table.docsBelow docs pvId ≠ 0)) True := by
    simp only [ne_eq, h.docsBelow_eq_zero_iff hvalues]
    exact hereditary_docCount h docs
  rw [find_filter table.sorted_values hhereditary, Option.filter_eq_some_iff]
  by_cases hpath : path = []
  · simp [hpath]
  · simp only [h.find_values hpath, decide_eq_true_eq, ne_eq, hpath, not_false_eq_true, true_and]

/-- The root and the values of the documents decide. -/
theorem countsDocuments_iff_shownCount (utf8 : Utf8 UString) : CountsDocuments utf8 table docs
        ((ofDocs table docs).getGroupRep (S := S) utf8 []) ↔
      shownCount table docs 0 = table.docsBelow docs 0 ∧
        ∀ pvId path, path ≠ [] → PathOf table.keys pvId path → table.docsBelow docs pvId ≠ 0 →
          path.length < 2 ^ 8 ∧ shownCount table docs pvId = table.docsBelow docs pvId := by
  let shown : ℕ → Bool := fun pvId => decide (shownCount table docs pvId ≠ 0)
  let lists : ℕ → Bool := fun pvId => decide (table.docsBelow docs pvId ≠ 0)
  have hweaker (pvId : ℕ) (hpvId : shown pvId) : lists pvId := by
    refine decide_eq_true fun hzero => of_decide_eq_true hpvId ?_
    rw [shownCount, (h.docsBelow_eq_zero_iff hvalues pvId).mp hzero, zero_mod]
  have hsorted : (table.values.filter lists).Sorted := table.sorted_values.filter
  have hfind (path : List UString) (pvId : ℕ) :
      (table.values.filter lists).find path = some pvId ↔
        path ≠ [] ∧ PathOf table.keys pvId path ∧ table.docsBelow docs pvId ≠ 0 :=
    h.find_filter_docsBelow hvalues path pvId
  rw [countsDocuments_iff_countedTree h hvalues, map_facetOf_getGroupRep h, rootFacets,
    rootFacets, map_cons, List.cons.injEq]
  have hroot : toByte (0, utf8.decode table.propName, shownCount table docs 0) =
      (0, utf8.decode table.propName, table.docsBelow docs 0) ↔
        shownCount table docs 0 = table.docsBelow docs 0 := by
    simp [toByte]
  rw [hroot]
  refine and_congr_right fun hzero => ?_
  constructor
  · intro hlist pvId path hpath hkey hcount
    -- a list of equal length shows as many nodes, so it shows the same nodes
    have hsize := congrArg List.length hlist
    rw [List.length_map, length_facets, length_facets, countedTree, countedTree, size_map,
      size_map] at hsize
    have htree : table.values.filter shown = table.values.filter lists :=
      filter_eq_of_size hweaker hsize
    change (facets 1 ((table.values.filter shown).map _)).map toByte = _ at hlist
    rw [htree] at hlist
    exact (map_toByte_facets_iff hsorted _ _).mp hlist path pvId
      ((hfind path pvId).mpr ⟨hpath, hkey, hcount⟩)
  · intro hall
    have hsame : shown = lists := by
      funext pvId
      by_cases hcount : table.docsBelow docs pvId = 0
      · rw [Bool.eq_iff_iff]
        exact iff_of_false (fun hshown => of_decide_eq_true (hweaker pvId hshown) hcount)
          fun hlists => of_decide_eq_true hlists hcount
      · have hshown : shownCount table docs pvId = table.docsBelow docs pvId := by
          obtain ⟨path, hkey⟩ := h.exists_pathOf_of_docsBelow hvalues hcount
          by_cases hpath : path = []
          · rw [hpath, pathOf_nil_iff] at hkey
            rw [hkey, hzero]
          · exact (hall pvId path hpath hkey hcount).2
        simp only [shown, lists, hshown]
    change (facets 1 ((table.values.filter shown).map _)).map toByte = _
    rw [hsame]
    refine (map_toByte_facets_iff hsorted _ _).mpr fun path pvId hpath => ?_
    obtain ⟨hne, hkey, hcount⟩ := (hfind path pvId).mp hpath
    exact hall pvId path hne hkey hcount

end

/-- The list of a counter counts documents just in case no value has a surplus. -/
theorem countsDocuments_iff (h : table.WellFormed) {docs : List (BitVec 32)}
    (hvalues : table.ValuesOf docs) (utf8 : Utf8 UString) : CountsDocuments utf8 table docs
        ((ofDocs table docs).getGroupRep (S := S) utf8 []) ↔
      NoSurplus table docs := by
  rw [countsDocuments_iff_shownCount h hvalues]
  simp only [shownCount_eq_iff h hvalues]
  constructor
  · rintro ⟨⟨hlt, hroot⟩, hall⟩
    refine ⟨fun pvId => ?_, hlt, fun pvId path hkey hcount => ?_⟩
    · by_cases hcount : table.docsBelow docs pvId = 0
      · have heq := h.docCount_eq hvalues pvId
        have hzero := (h.docsBelow_eq_zero_iff hvalues pvId).mp hcount
        have hsurplus : table.surplus docs pvId = 0 := by omega
        rw [hsurplus]
        exact dvd_zero _
      · obtain ⟨path, hkey⟩ := h.exists_pathOf_of_docsBelow hvalues hcount
        by_cases hpath : path = []
        · rw [hpath, pathOf_nil_iff] at hkey
          rwa [hkey]
        · exact (hall pvId path hpath hkey hcount).2.2
    · by_cases hpath : path = []
      · rw [hpath]
        exact Nat.two_pow_pos 8
      · exact (hall pvId path hpath hkey hcount).1
  · rintro ⟨hsurplus, hlt, hlevels⟩
    refine ⟨⟨hlt, hsurplus 0⟩, fun pvId path _ hkey hcount => ⟨hlevels pvId path hkey hcount, ?_⟩⟩
    exact ⟨(docsBelow_le_root table docs pvId).trans_lt hlt, hsurplus pvId⟩

end Listing

/-- Document 1 is "red" and document 2 is "blue", both below "color". -/
def twoColorTable : PropValueTable String :=
  { insertAll {} [["color", "red"], ["color", "blue"]] with
    valueIdTable := { indexTable := [0, 2, 3] } }

theorem wellFormed_colors : (insertAll ({} : PropValueTable String)
      [["color", "red"], ["color", "blue"]]).WellFormed :=
  (PropValueTable.insertAll_spec _ PropValueTable.wellFormed_empty).1

theorem wellFormed_twoColorTable : twoColorTable.WellFormed :=
  ⟨wellFormed_colors.1, wellFormed_colors.2, wellFormed_colors.3, wellFormed_colors.4,
    wellFormed_colors.5, wellFormed_colors.6⟩

theorem valuesOf_twoColorTable : twoColorTable.ValuesOf [1, 2] := by
  have hred : (twoColorTable.getPropIdList 1#32).toList = [2] := by decide
  have hblue : (twoColorTable.getPropIdList 2#32).toList = [3] := by decide
  have hnum : twoColorTable.propValueNum = 4 := by decide
  simp [ValuesOf, hred, hblue, hnum]

theorem countsDocuments_iff_twoColorTable : CountsDocuments plainText twoColorTable [1, 2]
        ((ofDocs twoColorTable [1, 2]).getGroupRep (S := ℕ) plainText []) ↔
      NoSurplus twoColorTable [1, 2] :=
  countsDocuments_iff wellFormed_twoColorTable valuesOf_twoColorTable plainText

theorem wellFormed_colorTable : colorTable.WellFormed :=
  ⟨wellFormed_colors.1, wellFormed_colors.2, wellFormed_colors.3, wellFormed_colors.4,
    wellFormed_colors.5, wellFormed_colors.6⟩

theorem valuesOf_colorTable : colorTable.ValuesOf [1] := by
  have hcolors : (colorTable.getPropIdList 1#32).toList = [2, 3] := by decide
  have hnum : colorTable.propValueNum = 4 := by decide
  simp [ValuesOf, hcolors, hnum]

/-- Document 1 is "red" and "blue": it is counted twice below "color". -/
theorem not_countsDocuments_colorTable : ¬ CountsDocuments plainText colorTable [1]
      ((ofDocs colorTable [1]).getGroupRep (S := ℕ) plainText []) := by
  rw [countsDocuments_iff_shownCount wellFormed_colorTable valuesOf_colorTable]
  rintro ⟨_, hall⟩
  have hpath : PathOf colorTable.keys 1 ["color"] :=
    PathOf.root.child one_pos (by decide)
  have hcount := (hall 1 ["color"] (by decide) hpath (by decide)).2
  cases hcount

end AdDelivery.GroupManager
