import AdDelivery.SuffixMatch.GroupRanges

/-!
# The build of the group filters

Every property is built at its own position. The passes for the other properties leave its ids and
lists alone and take only deleted documents from what was loaded for it, so that after the build
its ranges are those of its own pass.
-/

namespace AdDelivery.SuffixMatch

open List Table Option
open GroupManager (PropValueTable)

variable {CharT : Type} [LinearOrder CharT]

/-- Maps compare their names by the order. -/
local instance (priority := 2000) decidableEqBuiltName : DecidableEq (List CharT) :=
  LinearOrder.toDecidableEq

namespace GroupSource

variable (source : GroupSource CharT)

/-- The documents of the loop. -/
def docIds : List ℕ := List.range' 1 source.maxDocId.toNat

/-- The documents behind `firstDocId` that are not deleted. -/
def Covers (firstDocId docId : ℕ) : Prop :=
  firstDocId < docId ∧ docId ≤ source.maxDocId.toNat ∧ source.isDeleted docId = false

/-- The documents that were indexed before: up to `lastDocId` the lists are right, but for
documents that are deleted. -/
structure Entered (table : PropValueTable (List CharT)) (firstDocId lastDocId : ℕ)
    (data : Table (List CharT) (List ℕ)) : Prop where
  first_le : firstDocId ≤ lastDocId
  docs : ∀ docId, source.isDeleted docId = false → ∀ name,
    docId ∈ get data name ↔ firstDocId < docId ∧ docId ≤ lastDocId ∧
      docId ≤ source.maxDocId.toNat ∧ ∃ groupPath ∈ valuePaths table docId,
        groupPath ≠ [] ∧ groupStr source.separator groupPath = name

end GroupSource

section Documents

variable {source : GroupSource CharT} {table : PropValueTable (List CharT)}
  {firstDocId lastDocId docId : ℕ} {data : Table (List CharT) (List ℕ)}

omit [LinearOrder CharT] in
theorem mem_docIds : docId ∈ source.docIds ↔ 0 < docId ∧ docId ≤ source.maxDocId.toNat := by
  rw [GroupSource.docIds, mem_range'_1]
  omega

/-- Nothing was indexed before. -/
theorem entered_empty (table : PropValueTable (List CharT)) (firstDocId : ℕ) :
    source.Entered table firstDocId firstDocId ∅ := by
  refine ⟨le_rfl, fun docId _ name => iff_of_false not_mem_nil ?_⟩
  rintro ⟨hlt, hle, _⟩
  omega

/-- The prefixes of a value are values. -/
theorem isGroup_of_prefix (h : table.WellFormed) {pvId : ℕ} {g groupPath : List (List CharT)}
    (hpath : table.propValuePath pvId = some groupPath) (hpre : g <+: groupPath) (hne : g ≠ []) :
    IsGroup table g := by
  rw [h.propValuePath_eq_iff] at hpath
  obtain ⟨rest, rfl⟩ := hpre
  suffices hall : ∃ pvId, PathOf table.keys pvId g by
    obtain ⟨pvId, hpvId⟩ := hall
    exact ⟨hne, pvId, h.propValuePath_eq_iff.mpr hpvId⟩
  induction rest using List.reverseRecOn generalizing pvId with
  | nil =>
    rw [append_nil] at hpath
    exact ⟨pvId, hpath⟩
  | append_singleton rest value ih =>
    rw [← append_assoc, pathOf_append_iff] at hpath
    obtain ⟨_, parent, _, hparent⟩ := hpath
    exact ih hparent

theorem isGroup_of_isNode (h : table.WellFormed) {docIds : List ℕ} {g : List (List CharT)}
    (hnode : IsNode table docIds g) : IsGroup table g := by
  obtain ⟨hne, docId, _, groupPath, hpath, hpre⟩ := hnode
  obtain ⟨pvId, _, hpvId⟩ := mem_filterMap.mp hpath
  exact isGroup_of_prefix h hpvId hpre hne

variable {filters filters' : Forest (List CharT) Unit × Table (List CharT) (List ℕ)}

/-- A loop that ends has passed the last document. -/
theorem maxDocId_ne_of_addDocuments
    (h : addDocuments source.separator table lastDocId source.maxDocId filters = some filters') :
    source.maxDocId ≠ BitVec.allOnes 32 := by
  intro hmax
  rw [addDocuments, if_pos hmax] at h
  cases h

theorem addDocuments_eq (hmax : source.maxDocId ≠ BitVec.allOnes 32)
    (hread : Readable table source.docIds) (lastDocId : ℕ)
    (filters : Forest (List CharT) Unit × Table (List CharT) (List ℕ)) :
    addDocuments source.separator table lastDocId source.maxDocId filters =
      some ((docPaths table source.docIds).foldl
        (fun filters entry => addGroupPath source.separator lastDocId entry.1 filters entry.2)
        filters) :=
  (if_neg hmax).trans (foldlM_addDocument hread filters)

/-- Documents that are not deleted stay in all lists. -/
theorem mem_get_eraseDeleted {isDeleted : ℕ → Bool} {data : Table (List CharT) (List ℕ)}
    {name : List CharT} {docId : ℕ} : docId ∈ get (eraseDeleted isDeleted data) name ↔
      docId ∈ get data name ∧ isDeleted docId = false := by
  rw [get_eraseDeleted, liveDocs, mem_filter, Bool.not_eq_true']

section

variable (hread : Readable table source.docIds)
    (hpart : PartOf source.separator table source.docIds filters.1)
include hread hpart

/-- The loop completes the tree. -/
theorem treeOf_addDocuments
    (h : addDocuments source.separator table lastDocId source.maxDocId filters = some filters') :
    TreeOf source.separator table source.docIds filters'.1 := by
  rw [addDocuments_eq (maxDocId_ne_of_addDocuments h) hread] at h
  obtain rfl := some.inj h
  obtain ⟨hpaths, _⟩ := foldl_addGroupPath_spec source.separator lastDocId
    (docPaths table source.docIds) filters
  refine ⟨sorted_foldl_addGroupPath _ hpart.sorted, fun names => ?_⟩
  rw [hpaths]
  constructor
  · rintro (hmem | ⟨entry, hentry, hne, hpre⟩)
    · exact hpart.paths names hmem
    · obtain ⟨hdocId, hpath⟩ := mem_docPaths.mp hentry
      obtain ⟨g, hg, hgpre, rfl⟩ := (prefix_nodeNames_iff hne).mp hpre
      exact ⟨g, ⟨hg, entry.1, hdocId, entry.2, hpath, hgpre⟩, rfl⟩
  · rintro ⟨g, ⟨hg, docId, hdocId, groupPath, hpath, hpre⟩, rfl⟩
    have hne : nodeNames source.separator g ≠ [] := nodeNames_ne_nil hg
    exact Or.inr ⟨(docId, groupPath), mem_docPaths.mpr ⟨hdocId, hpath⟩, hne,
      (prefix_nodeNames_iff hne).mpr ⟨g, hg, hpre, rfl⟩⟩

/-- The loop completes the lists. -/
theorem filled_addDocuments (hentered : source.Entered table firstDocId lastDocId filters.2)
    (h : addDocuments source.separator table lastDocId source.maxDocId filters = some filters') :
    Filled source.separator table source.docIds (source.Covers firstDocId) filters'.1
      (eraseDeleted source.isDeleted filters'.2) := by
  refine ⟨treeOf_addDocuments hread hpart h, fun name docId => ?_⟩
  rw [addDocuments_eq (maxDocId_ne_of_addDocuments h) hread] at h
  obtain rfl := some.inj h
  obtain ⟨_, hdata⟩ := foldl_addGroupPath_spec source.separator lastDocId
    (docPaths table source.docIds) filters
  rw [mem_get_eraseDeleted, hdata]
  constructor
  · rintro ⟨hmem | ⟨entry, hentry, hlt, rfl, hne, hstr⟩, hlive⟩
    · obtain ⟨hlt, _, hle, hpath⟩ := (hentered.docs docId hlive name).mp hmem
      exact ⟨⟨hlt, hle, hlive⟩, hpath⟩
    · obtain ⟨hdocId, hpath⟩ := mem_docPaths.mp hentry
      have hfirst := hentered.first_le
      exact ⟨⟨by omega, (mem_docIds.mp hdocId).2, hlive⟩, entry.2, hpath, hne, hstr⟩
  · rintro ⟨⟨hlt, hle, hlive⟩, groupPath, hpath, hne, hstr⟩
    refine ⟨?_, hlive⟩
    by_cases hold : docId ≤ lastDocId
    · exact Or.inl ((hentered.docs docId hlive name).mpr
        ⟨hlt, hold, hle, groupPath, hpath, hne, hstr⟩)
    · have hdocId : docId ∈ source.docIds := mem_docIds.mpr ⟨by omega, hle⟩
      exact Or.inr ⟨(docId, groupPath), mem_docPaths.mpr ⟨hdocId, hpath⟩, by omega, rfl, hne,
        hstr⟩

end

end Documents

/-- A pass for another property: the ids, lists and node of a property are kept, and so is whatever
holds of its data without depending on deleted documents. -/
structure Keeps (isDeleted : ℕ → Bool) (j propId : ℕ) (nodeName : List CharT)
    (state state' : GroupBuild CharT) : Prop where
  propIdMap_eq : state'.built.manager.propIdMap = state.built.manager.propIdMap
  ids_eq : state'.built.manager.strFilterIds[propId]? = state.built.manager.strFilterIds[propId]?
  lists_eq : state'.built.filterList[propId]? = state.built.filterList[propId]?
  root_eq : get state'.groupRoot nodeName = get state.groupRoot nodeName
  length_eq : state'.groupFilterData.length = state.groupFilterData.length
  data : ∀ p : Table (List CharT) (List ℕ) → Prop, (∀ m, p m → p (eraseDeleted isDeleted m)) →
    p (state.groupFilterData.getD j ∅) → p (state'.groupFilterData.getD j ∅)

section Properties

variable {source : GroupSource CharT} {groups : GroupTables CharT} {lastDocIdList : List ℕ}
  {state state' state'' : GroupBuild CharT} {entry : String × ℕ} {j propId : ℕ}
  {nodeName : List CharT}

theorem Keeps.refl (isDeleted : ℕ → Bool) (j propId : ℕ) (nodeName : List CharT)
    (state : GroupBuild CharT) : Keeps isDeleted j propId nodeName state state :=
  ⟨rfl, rfl, rfl, rfl, rfl, fun _ _ hp => hp⟩

theorem Keeps.trans {isDeleted : ℕ → Bool} (h : Keeps isDeleted j propId nodeName state state')
    (h' : Keeps isDeleted j propId nodeName state' state'') :
    Keeps isDeleted j propId nodeName state state'' :=
  ⟨h'.propIdMap_eq.trans h.propIdMap_eq, h'.ids_eq.trans h.ids_eq, h'.lists_eq.trans h.lists_eq,
    h'.root_eq.trans h.root_eq, h'.length_eq.trans h.length_eq, fun p herase hp =>
      h'.data p herase (h.data p herase hp)⟩

/-- What a pass can do. -/
theorem buildGroupProperty_cases
    (h : buildGroupProperty source groups lastDocIdList state entry = some state') :
    (source.isUnchangedProperty entry.1 = true ∨ groups.getPropValueTable entry.1 = none) ∧
        state' = { state with
          groupRoot := update state.groupRoot (source.utf8 entry.1) id } ∨
      ∃ table filters, source.isUnchangedProperty entry.1 = false ∧
        groups.getPropValueTable entry.1 = some table ∧
        addDocuments source.separator table
            (startOf groups entry.1 (lastDocIdList.getD entry.2 0)
              (state.groupFilterData.getD entry.2 ∅)).1 source.maxDocId
            (get state.groupRoot (source.utf8 entry.1),
              (startOf groups entry.1 (lastDocIdList.getD entry.2 0)
                (state.groupFilterData.getD entry.2 ∅)).2) = some filters ∧
        state' = numberGroups source
          { state with groupRoot := update state.groupRoot (source.utf8 entry.1) id }
          entry.2 (get state.built.manager.propIdMap entry.1) (source.utf8 entry.1)
          filters := by
  rw [buildGroupProperty] at h
  have hget : get (update state.groupRoot (source.utf8 entry.1) id)
      (source.utf8 entry.1) = get state.groupRoot (source.utf8 entry.1) := by
    rw [get_update, if_pos rfl]
    rfl
  by_cases hunchanged : source.isUnchangedProperty entry.1 = true
  · rw [if_pos hunchanged] at h
    exact Or.inl ⟨Or.inl hunchanged, (some.inj h).symm⟩
  · rw [if_neg hunchanged] at h
    cases htable : groups.getPropValueTable entry.1 with
    | none =>
      rw [htable] at h
      exact Or.inl ⟨Or.inr rfl, (some.inj h).symm⟩
    | some table =>
      simp only [htable, hget] at h
      obtain ⟨filters, hfilters, rfl⟩ := map_eq_some_iff.mp h
      exact Or.inr ⟨table, filters, by simpa using hunchanged, rfl, hfilters, rfl⟩

theorem get_update_id (m : Table (List CharT) (Forest (List CharT) Unit))
    (name name' : List CharT) : get (update m name' id) name = get m name := by
  rw [get_update]
  split
  · rename_i heq
    rw [id]
  · rfl

/-- Numbering one property takes only deleted documents from the data of another. -/
theorem data_numberGroups {k : ℕ} (hk : k ≠ j)
    (filters : Forest (List CharT) Unit × Table (List CharT) (List ℕ))
    {p : Table (List CharT) (List ℕ) → Prop}
    (herase : ∀ m, p m → p (eraseDeleted source.isDeleted m))
    (hp : p (state.groupFilterData.getD j ∅)) :
    p ((numberGroups source state k propId nodeName filters).groupFilterData.getD j ∅) := by
  rw [getD_eq_getElem?_getD] at hp
  rw [numberGroups, getD_eq_getElem?_getD, getElem?_map, getElem?_set_ne hk]
  cases hdata : state.groupFilterData[j]? with
  | none =>
    rw [hdata] at hp
    exact hp
  | some data =>
    rw [hdata] at hp
    exact herase data hp

theorem keeps_buildGroupProperty
    (h : buildGroupProperty source groups lastDocIdList state entry = some state')
    (hj : entry.2 ≠ j) (hid : get state.built.manager.propIdMap entry.1 ≠ propId)
    (hname : source.utf8 entry.1 ≠ nodeName) :
    Keeps source.isDeleted j propId nodeName state state' := by
  rcases buildGroupProperty_cases h with ⟨_, rfl⟩ | ⟨table, filters, _, _, _, rfl⟩
  · exact ⟨rfl, rfl, rfl, get_update_id _ _ _, rfl, fun _ _ hp => hp⟩
  · refine ⟨rfl, getElem?_set_ne hid, getElem?_set_ne hid, ?_, ?_, ?_⟩
    · rw [Table.get, numberGroups, Finmap.lookup_insert_of_ne _ (Ne.symm hname), ← Table.get,
        get_update_id]
    · rw [numberGroups, List.length_map, length_set]
    · exact fun p herase hp => data_numberGroups hj filters herase hp

variable {entries : List (String × ℕ)}

/-- The passes for other properties. -/
theorem keeps_foldlM {propIdMap : Table String ℕ} (hmap : state.built.manager.propIdMap = propIdMap)
    (h : entries.foldlM (buildGroupProperty source groups lastDocIdList) state = some state')
    (hj : ∀ entry ∈ entries, entry.2 ≠ j) (hid : ∀ entry ∈ entries, get propIdMap entry.1 ≠ propId)
    (hname : ∀ entry ∈ entries, source.utf8 entry.1 ≠ nodeName) :
    Keeps source.isDeleted j propId nodeName state state' := by
  induction entries generalizing state with
  | nil =>
    obtain rfl := some.inj h
    exact .refl _ _ _ _ _
  | cons entry entries ih =>
    obtain ⟨next, hnext, hrest⟩ := bind_eq_some_iff.mp h
    obtain ⟨hj', hjs⟩ := forall_mem_cons.mp hj
    obtain ⟨hid', hids⟩ := forall_mem_cons.mp hid
    obtain ⟨hname', hnames⟩ := forall_mem_cons.mp hname
    have hkeeps := keeps_buildGroupProperty hnext hj' (hmap ▸ hid') hname'
    exact hkeeps.trans (ih (hkeeps.propIdMap_eq.trans hmap) hrest hjs hids hnames)

variable (lastDocIdList) in
/-- Where all values can be read, every pass comes to its end. -/
theorem exists_foldlM (hmax : source.maxDocId ≠ BitVec.allOnes 32)
    (hread : ∀ entry ∈ entries, ∀ table, groups.getPropValueTable entry.1 = some table →
      Readable table source.docIds) (state : GroupBuild CharT) :
    ∃ state', entries.foldlM (buildGroupProperty source groups lastDocIdList) state =
      some state' := by
  induction entries generalizing state with
  | nil => exact ⟨state, rfl⟩
  | cons entry entries ih =>
    obtain ⟨hentry, hrest⟩ := forall_mem_cons.mp hread
    have hstep : ∃ next, buildGroupProperty source groups lastDocIdList state entry =
        some next := by
      rw [buildGroupProperty]
      by_cases hunchanged : source.isUnchangedProperty entry.1 = true
      · exact ⟨_, if_pos hunchanged⟩
      · rw [if_neg hunchanged]
        cases htable : groups.getPropValueTable entry.1 with
        | none => exact ⟨_, rfl⟩
        | some table =>
          exact ⟨_, congrArg (Option.map _) (addDocuments_eq hmax (hentry table htable) _ _)⟩
    obtain ⟨next, hnext⟩ := hstep
    obtain ⟨last, hlast⟩ := ih hrest next
    refine ⟨last, ?_⟩
    rw [foldlM_cons, hnext]
    exact hlast

/-- Before the last pass of a property: it may have been built before, so its node has a part of
its tree and its ids are ids of nodes. Of what was loaded for the last pass only deleted documents
are missing. -/
structure Started (source : GroupSource CharT) (table : PropValueTable (List CharT))
    (propIdMap : Table String ℕ) (property : String) (j n : ℕ)
    (loaded : Table (List CharT) (List ℕ)) (state : GroupBuild CharT) : Prop where
  propIdMap_eq : state.built.manager.propIdMap = propIdMap
  ids : ∃ ids, state.built.manager.strFilterIds[get propIdMap property]? = some ids ∧
    IdsOfNodes source.separator table source.docIds (source.utf8 property) ids
  hasLists : get propIdMap property < state.built.filterList.length
  part : PartOf source.separator table source.docIds
    (get state.groupRoot (source.utf8 property))
  length_eq : state.groupFilterData.length = n
  data : ∀ p : Table (List CharT) (List ℕ) → Prop,
    (∀ m, p m → p (eraseDeleted source.isDeleted m)) → p loaded →
      p (state.groupFilterData.getD j ∅)

section Passes

variable {propIdMap : Table String ℕ} {property : String} {table : PropValueTable (List CharT)}
  {loaded : Table (List CharT) (List ℕ)} {n : ℕ}

section

variable (h : Started source table propIdMap property j n loaded state)
include h

theorem Started.of_keeps
    (hkeeps : Keeps source.isDeleted j (get propIdMap property) (source.utf8 property) state
      state') : Started source table propIdMap property j n loaded state' := by
  obtain ⟨ids, hids, hnodes⟩ := h.ids
  refine ⟨hkeeps.propIdMap_eq.trans h.propIdMap_eq, ⟨ids, hkeeps.ids_eq.trans hids, hnodes⟩, ?_,
    ?_, hkeeps.length_eq.trans h.length_eq, fun p herase hp =>
      hkeeps.data p herase (h.data p herase hp)⟩
  · have hlists := hkeeps.lists_eq.trans (getElem?_eq_getElem h.hasLists)
    exact (List.getElem?_eq_some_iff.mp hlists).1
  · rw [hkeeps.root_eq]
    exact h.part

/-- A pass for the same property at another place of the list. -/
theorem Started.again {k : ℕ} (hk : k ≠ j) (htable : groups.getPropValueTable property = some table)
    (hread : Readable table source.docIds)
    (hpass : buildGroupProperty source groups lastDocIdList state (property, k) = some state') :
    Started source table propIdMap property j n loaded state' := by
  obtain ⟨ids, hids, hnodes⟩ := h.ids
  rcases buildGroupProperty_cases hpass with
    ⟨_, rfl⟩ | ⟨table', filters, _, htable', hfilters, rfl⟩
  · refine ⟨h.propIdMap_eq, ⟨ids, hids, hnodes⟩, h.hasLists, ?_, h.length_eq, h.data⟩
    rw [get_update_id]
    exact h.part
  · obtain rfl : table = table' := some.inj (htable.symm.trans htable')
    have htree := treeOf_addDocuments hread h.part hfilters
    obtain rfl := h.propIdMap_eq
    have hlen := (List.getElem?_eq_some_iff.mp hids).1
    refine ⟨rfl, ⟨_, getElem?_set_self hlen, htree.idsOfNodes ?_⟩, ?_, ?_, ?_,
      fun p herase hp => ?_⟩
    · rw [getD_eq_getElem?_getD, hids]
      exact hnodes
    · rw [numberGroups, length_set]
      exact h.hasLists
    · rw [Table.get, numberGroups, Finmap.lookup_insert]
      exact htree.partOf
    · rw [numberGroups, List.length_map, length_set]
      exact h.length_eq
    · exact data_numberGroups hk filters herase (h.data p herase hp)

theorem started_foldlM {entries : List (String × ℕ)}
    (htable : groups.getPropValueTable property = some table)
    (hread : Readable table source.docIds) (hj : ∀ entry ∈ entries, entry.2 ≠ j)
    (hother : ∀ entry ∈ entries, entry.1 ≠ property →
      get propIdMap entry.1 ≠ get propIdMap property ∧ source.utf8 entry.1 ≠ source.utf8 property)
    (hfold : entries.foldlM (buildGroupProperty source groups lastDocIdList) state = some state') :
    Started source table propIdMap property j n loaded state' := by
  induction entries generalizing state with
  | nil =>
    obtain rfl := some.inj hfold
    exact h
  | cons entry entries ih =>
    obtain ⟨next, hnext, hrest⟩ := bind_eq_some_iff.mp hfold
    obtain ⟨hj', hjs⟩ := forall_mem_cons.mp hj
    obtain ⟨hother', hothers⟩ := forall_mem_cons.mp hother
    refine ih ?_ hjs hothers hrest
    by_cases hproperty : entry.1 = property
    · obtain ⟨property', k⟩ := entry
      obtain rfl : property' = property := hproperty
      exact h.again hj' htable hread hnext
    · obtain ⟨hid, hname⟩ := hother' hproperty
      rw [← h.propIdMap_eq] at hid
      have hkeeps := keeps_buildGroupProperty hnext hj' hid hname
      rw [h.propIdMap_eq] at hkeeps
      exact h.of_keeps hkeeps

end

end Passes

/-- Before the build: the property is not skipped, no other has its name or its position, the pass
for `j` is the last one for it, all values can be read, and no ids were given yet. -/
structure Unbuilt (source : GroupSource CharT) (groups : GroupTables CharT)
    (propertyList : List String) (built : BuiltFilters (List CharT)) (j : ℕ) (property : String)
    (table : PropValueTable (List CharT)) : Prop where
  property_eq : propertyList[j]? = some property
  last : ∀ k, j < k → propertyList[k]? ≠ some property
  name_ne : ∀ property' ∈ propertyList, property' ≠ property →
    source.utf8 property' ≠ source.utf8 property
  id_ne : ∀ property' ∈ propertyList, property' ≠ property →
    get built.manager.propIdMap property' ≠ get built.manager.propIdMap property
  changed : source.isUnchangedProperty property = false
  table_eq : groups.getPropValueTable property = some table
  wellFormed : table.WellFormed
  readable : ∀ property' ∈ propertyList, ∀ table', groups.getPropValueTable property' =
    some table' → Readable table' source.docIds
  ids_empty : built.manager.strFilterIds[get built.manager.propIdMap property]? = some ∅
  hasLists : get built.manager.propIdMap property < built.filterList.length

/-- The ids and the lists of a property after its last pass. -/
structure BuiltOf (source : GroupSource CharT) (table : PropValueTable (List CharT))
    (firstDocId propId : ℕ) (root : List CharT) (built : BuiltFilters (List CharT)) : Prop where
  maxDocId_ne : source.maxDocId ≠ BitVec.allOnes 32
  numbered : ∃ f data ids lists,
    Filled source.separator table source.docIds (source.Covers firstDocId) f data ∧
    IdsOfNodes source.separator table source.docIds root ids ∧
    built.manager.strFilterIds.getD propId ∅ =
      (mapGroupFilterToFilterId ⟨root, f⟩ data ids lists).1 ∧
    built.filterList.getD propId [] = (mapGroupFilterToFilterId ⟨root, f⟩ data ids lists).2

section Build

variable {propertyList : List String} {groupFilterData : List (Table (List CharT) (List ℕ))}
  {built : BuiltFilters (List CharT)} {property : String} {table : PropValueTable (List CharT)}
  {loaded : Table (List CharT) (List ℕ)} {firstDocId n : ℕ}

theorem Unbuilt.readable_self (h : Unbuilt source groups propertyList built j property table) :
    Readable table source.docIds :=
  h.readable property (mem_of_getElem? h.property_eq) table h.table_eq

/-- A property that is not skipped is numbered with what the loop over the documents filled. -/
theorem exists_numberGroups
    (h : buildGroupProperty source groups lastDocIdList state (property, j) = some state')
    (hchanged : source.isUnchangedProperty property = false)
    (htable : groups.getPropValueTable property = some table) :
    ∃ filters, addDocuments source.separator table
        (startOf groups property (lastDocIdList.getD j 0) (state.groupFilterData.getD j ∅)).1
        source.maxDocId (get state.groupRoot (source.utf8 property),
          (startOf groups property (lastDocIdList.getD j 0)
            (state.groupFilterData.getD j ∅)).2) = some filters ∧ state' = numberGroups source
        { state with groupRoot := update state.groupRoot (source.utf8 property) id } j
        (get state.built.manager.propIdMap property) (source.utf8 property) filters := by
  rcases buildGroupProperty_cases h with
    ⟨hskip, _⟩ | ⟨table', filters, _, htable', hfilters, hstate⟩
  · rw [hchanged, htable] at hskip
    simp at hskip
  obtain rfl : table = table' := some.inj (htable.symm.trans htable')
  exact ⟨filters, hfilters, hstate⟩

/-- The lists of the property itself, without the deleted documents. -/
theorem getD_set_map_eraseDeleted {data : List (Table (List CharT) (List ℕ))}
    (hj : j < data.length) (isDeleted : ℕ → Bool) (lists : Table (List CharT) (List ℕ)) :
    ((data.set j lists).map (eraseDeleted isDeleted)).getD j ∅ = eraseDeleted isDeleted lists := by
  rw [getD_eq_getElem?_getD, getElem?_map, getElem?_set_self hj, map_some, getD_some]

/-- Only the documents that are not deleted matter. -/
theorem entered_startOf {data data' : Table (List CharT) (List ℕ)} {lastDocId : ℕ}
    (hdocs : ∀ name docId, source.isDeleted docId = false →
      (docId ∈ get data' name ↔ docId ∈ get data name))
    (h : source.Entered table firstDocId (startOf groups property lastDocId data).1
      (startOf groups property lastDocId data).2) :
    source.Entered table firstDocId (startOf groups property lastDocId data').1
      (startOf groups property lastDocId data').2 := by
  by_cases hrebuild : groups.isRebuildProp property = true
  · rw [startOf, if_pos hrebuild] at h ⊢
    exact h
  · rw [startOf, if_neg hrebuild] at h ⊢
    refine ⟨h.first_le, fun docId hlive name => ?_⟩
    rw [hdocs name docId hlive]
    exact h.docs docId hlive name

theorem Started.mem_iff {propIdMap : Table String ℕ}
    (h : Started source table propIdMap property j n loaded state) {name : List CharT}
    {docId : ℕ} (hlive : source.isDeleted docId = false) :
    docId ∈ get (state.groupFilterData.getD j ∅) name ↔ docId ∈ get loaded name := by
  refine h.data (fun m => docId ∈ get m name ↔ docId ∈ get loaded name)
    (fun m hm => ?_) Iff.rfl
  rw [mem_get_eraseDeleted, hm]
  exact and_iff_left hlive

/-- The last pass of the property. -/
theorem builtOf_buildGroupProperty (h : Unbuilt source groups propertyList built j property table)
    (hstarted : Started source table built.manager.propIdMap property j n loaded state) (hj : j < n)
    (hentered : source.Entered table firstDocId
      (startOf groups property (lastDocIdList.getD j 0) loaded).1
      (startOf groups property (lastDocIdList.getD j 0) loaded).2)
    (hpass : buildGroupProperty source groups lastDocIdList state (property, j) = some state') :
    BuiltOf source table firstDocId (Table.get built.manager.propIdMap property)
      (source.utf8 property) state'.built := by
  obtain ⟨filters, hfilters, rfl⟩ := exists_numberGroups hpass h.changed h.table_eq
  obtain ⟨ids, hids, hnodes⟩ := hstarted.ids
  have hfilled := filled_addDocuments h.readable_self hstarted.part
    (entered_startOf (fun name docId hlive => hstarted.mem_iff hlive) hentered) hfilters
  have hlen : j < state.groupFilterData.length := hstarted.length_eq ▸ hj
  have hdata := getD_set_map_eraseDeleted hlen source.isDeleted filters.2
  have hids' : state.built.manager.strFilterIds.getD
      (get built.manager.propIdMap property) ∅ = ids := by
    rw [getD_eq_getElem?_getD, hids, Option.getD_some]
  have hlt := (List.getElem?_eq_some_iff.mp hids).1
  refine ⟨maxDocId_ne_of_addDocuments hfilters, filters.1,
    eraseDeleted source.isDeleted filters.2, ids,
    state.built.filterList.getD (get built.manager.propIdMap property) [], hfilled, hnodes, ?_, ?_⟩
  · rw [numberGroups, hstarted.propIdMap_eq, getD_eq_getElem?_getD,
      getElem?_set_self hlt, getD_some, hdata, hids']
  · rw [numberGroups, hstarted.propIdMap_eq, getD_eq_getElem?_getD,
      getElem?_set_self hstarted.hasLists, getD_some, hdata, hids']

theorem BuiltOf.of_keeps {root : List CharT} {isDeleted : ℕ → Bool}
    (h : BuiltOf source table firstDocId propId root state.built)
    (hkeeps : Keeps isDeleted j propId nodeName state state') :
    BuiltOf source table firstDocId propId root state'.built := by
  obtain ⟨f, data, ids, lists, hfilled, hnodes, hids, hlists⟩ := h.numbered
  refine ⟨h.maxDocId_ne, f, data, ids, lists, hfilled, hnodes, ?_, ?_⟩
  · rw [getD_eq_getElem?_getD, hkeeps.ids_eq, ← getD_eq_getElem?_getD, hids]
  · rw [getD_eq_getElem?_getD, hkeeps.lists_eq, ← getD_eq_getElem?_getD, hlists]

theorem buildGroupProperty_propIdMap
    (h : buildGroupProperty source groups lastDocIdList state entry = some state') :
    state'.built.manager.propIdMap = state.built.manager.propIdMap := by
  rcases buildGroupProperty_cases h with ⟨_, rfl⟩ | ⟨_, _, _, _, _, rfl⟩
  · rfl
  · rfl

variable (groupFilterData) in
theorem Unbuilt.started (h : Unbuilt source groups propertyList built j property table) :
    Started source table built.manager.propIdMap property j propertyList.length
      (groupFilterData.getD j ∅)
      { groupFilterData := resize groupFilterData propertyList.length ∅, built } := by
  have hlt : j < propertyList.length := (List.getElem?_eq_some_iff.mp h.property_eq).1
  refine ⟨rfl, ⟨∅, h.ids_empty, idsOfNodes_empty⟩, h.hasLists, partOf_nil, length_resize _ _ _,
    fun p _ hp => ?_⟩
  rw [getD_resize, if_pos hlt]
  exact hp

variable (groupFilterData) in
/-- The last pass of a property, with what the passes before leave to it and those behind keep. -/
theorem exists_pass (h : Unbuilt source groups propertyList built j property table)
    (hfold : propertyList.zipIdx.foldlM (buildGroupProperty source groups lastDocIdList)
      { groupFilterData := resize groupFilterData propertyList.length ∅, built } = some state) :
    ∃ first next,
      Started source table built.manager.propIdMap property j propertyList.length
          (groupFilterData.getD j ∅) first ∧
        buildGroupProperty source groups lastDocIdList first (property, j) = some next ∧
        Keeps source.isDeleted j (get built.manager.propIdMap property)
          (source.utf8 property) next state := by
  have hmem : (property, j) ∈ propertyList.zipIdx :=
    mem_zipIdx_iff_getElem?.mpr h.property_eq
  obtain ⟨before, after, hsplit⟩ := append_of_mem hmem
  have hentry {entry : String × ℕ} (hentry : entry ∈ before ++ (property, j) :: after) :
      propertyList[entry.2]? = some entry.1 := by
    rw [← hsplit] at hentry
    exact mem_zipIdx_iff_getElem?.mp hentry
  -- the indices ascend
  have hindex : (propertyList.zipIdx.map Prod.snd).Pairwise (· < ·) := by
    rw [zipIdx_map_snd]
    exact pairwise_lt_range' 1
  rw [hsplit, pairwise_map, pairwise_append, pairwise_cons] at hindex
  obtain ⟨_, ⟨hafter, _⟩, hbefore⟩ := hindex
  have hother (entry : String × ℕ) (hmem : entry ∈ before ++ (property, j) :: after)
      (hne : entry.1 ≠ property) :
      get built.manager.propIdMap entry.1 ≠ get built.manager.propIdMap property ∧
        source.utf8 entry.1 ≠ source.utf8 property := by
    have hproperty := mem_of_getElem? (hentry hmem)
    exact ⟨h.id_ne entry.1 hproperty hne, h.name_ne entry.1 hproperty hne⟩
  have hlast (entry : String × ℕ) (hmem : entry ∈ after) : entry.1 ≠ property := by
    rintro heq
    refine h.last entry.2 (hafter entry hmem) ?_
    rw [hentry (by simp [hmem]), heq]
  rw [hsplit, foldlM_append] at hfold
  obtain ⟨first, hfirst, hfold⟩ := bind_eq_some_iff.mp hfold
  rw [foldlM_cons] at hfold
  obtain ⟨next, hnext, hrest⟩ := bind_eq_some_iff.mp hfold
  have hstarted := started_foldlM (h.started groupFilterData) h.table_eq h.readable_self
    (fun entry hmem => (hbefore entry hmem _ mem_cons_self).ne)
    (fun entry hmem => hother entry (mem_append_left _ hmem)) hfirst
  have hmap : next.built.manager.propIdMap = built.manager.propIdMap :=
    (buildGroupProperty_propIdMap hnext).trans hstarted.propIdMap_eq
  refine ⟨first, next, hstarted, hnext, ?_⟩
  refine keeps_foldlM hmap hrest (fun entry hmem => (hafter entry hmem).ne') ?_ ?_
  · exact fun entry hmem => (hother entry (by simp [hmem]) (hlast entry hmem)).1
  · exact fun entry hmem => (hother entry (by simp [hmem]) (hlast entry hmem)).2

theorem builtOf_foldlM (h : Unbuilt source groups propertyList built j property table)
    (hentered : source.Entered table firstDocId
      (startOf groups property (lastDocIdList.getD j 0) (groupFilterData.getD j ∅)).1
      (startOf groups property (lastDocIdList.getD j 0) (groupFilterData.getD j ∅)).2)
    (hfold : propertyList.zipIdx.foldlM (buildGroupProperty source groups lastDocIdList)
      { groupFilterData := resize groupFilterData propertyList.length ∅, built } = some state) :
    BuiltOf source table firstDocId (get built.manager.propIdMap property)
      (source.utf8 property) state.built := by
  obtain ⟨first, next, hstarted, hnext, hkeeps⟩ := exists_pass groupFilterData h hfold
  have hlt : j < propertyList.length := (List.getElem?_eq_some_iff.mp h.property_eq).1
  exact (builtOf_buildGroupProperty h hstarted hlt hentered hnext).of_keeps hkeeps

end Build

end Properties

end AdDelivery.SuffixMatch
