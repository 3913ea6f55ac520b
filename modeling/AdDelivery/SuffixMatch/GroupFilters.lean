import AdDelivery.GroupManager.DocumentCounts
import AdDelivery.SuffixMatch.FinishStringFilters
import AdDelivery.SuffixMatch.GroupNames

/-!
# Building the group filters

The tree of a property is built from the first document on. Every value of a document brings the
nodes on the way down to it, and a document that was not indexed before is listed under the name of
the last one. Then the deleted documents leave the lists and the nodes get their ids.
-/

namespace AdDelivery.SuffixMatch

open List
open GroupManager (PropValueTable)

variable {CharT : Type} [LinearOrder CharT]

/-- Maps compare their names by the order. -/
local instance (priority := 2000) decidableEqName : DecidableEq (List CharT) :=
  LinearOrder.toDecidableEq

/-- What is read of the group manager. -/
structure GroupTables (CharT : Type) where
  getPropValueTable : String → Option (PropValueTable (List CharT))
  isRebuildProp : String → Bool := fun _ => false

/-- What else the build reads. Names of properties are read as UTF-8, and `separator` is `'>'`. -/
structure GroupSource (CharT : Type) where
  separator : CharT
  utf8 : String → List CharT
  isDeleted : ℕ → Bool := fun _ => false
  isUnchangedProperty : String → Bool := fun _ => false
  maxDocId : BitVec 32

/-- The children of the root are the nodes of the properties. -/
structure GroupBuild (CharT : Type) where
  groupRoot : Table (List CharT) (Forest (List CharT) Unit) := ∅
  groupFilterData : List (Table (List CharT) (List ℕ))
  built : BuiltFilters (List CharT)

section Loops

variable (separator : CharT) (table : PropValueTable (List CharT)) (lastDocId : ℕ)

/-- The nodes of one value, and the document in the list of the last one. -/
def addGroupPath (docId : ℕ) (filters : Forest (List CharT) Unit × Table (List CharT) (List ℕ))
    (groupPath : List (List CharT)) : Forest (List CharT) Unit × Table (List CharT) (List ℕ) :=
  if groupPath = [] then filters
  else
    (Forest.insertPath () (nodeNames separator groupPath) filters.1,
      if docId ≤ lastDocId then filters.2
      else Table.update filters.2 (groupStr separator groupPath) (· ++ [docId]))

def addPropValue (docId : ℕ)
    (filters : Forest (List CharT) Unit × Table (List CharT) (List ℕ)) (pvId : BitVec 32) :
    Option (Forest (List CharT) Unit × Table (List CharT) (List ℕ)) :=
  (table.propValuePath pvId.toNat).map (addGroupPath separator lastDocId docId filters)

def addDocument (filters : Forest (List CharT) Unit × Table (List CharT) (List ℕ))
    (docId : ℕ) : Option (Forest (List CharT) Unit × Table (List CharT) (List ℕ)) :=
  (table.getPropIdList (BitVec.ofNat 32 docId)).toList.foldlM
    (addPropValue separator table lastDocId docId) filters

/-- `none` if the counter, which has 32 bits, never passes `maxDocId`. -/
def addDocuments (maxDocId : BitVec 32)
    (filters : Forest (List CharT) Unit × Table (List CharT) (List ℕ)) :
    Option (Forest (List CharT) Unit × Table (List CharT) (List ℕ)) :=
  if maxDocId = BitVec.allOnes 32 then none
  else (List.range' 1 maxDocId.toNat).foldlM (addDocument separator table lastDocId) filters

end Loops

section Build

variable (source : GroupSource CharT) (groups : GroupTables CharT)

/-- The documents that are indexed and their lists, which are dropped for a rebuild. -/
def startOf (property : String) (lastDocId : ℕ) (data : Table (List CharT) (List ℕ)) :
    ℕ × Table (List CharT) (List ℕ) :=
  if groups.isRebuildProp property then (0, ∅) else (lastDocId, data)

/-- Delete, number, and list the names for the lookups. -/
def numberGroups (state : GroupBuild CharT) (j propId : ℕ) (nodeName : List CharT)
    (filters : Forest (List CharT) Unit × Table (List CharT) (List ℕ)) : GroupBuild CharT :=
  let groupFilterData :=
    (state.groupFilterData.set j filters.2).map (eraseDeleted source.isDeleted)
  let manager := state.built.manager
  let mapped := mapGroupFilterToFilterId ⟨nodeName, filters.1⟩ (groupFilterData.getD j ∅)
    (manager.strFilterIds.getD propId ∅) (state.built.filterList.getD propId [])
  { groupRoot := Finmap.insert nodeName filters.1 state.groupRoot
    groupFilterData
    built :=
      { manager :=
          { manager with
            strFilterIds := manager.strFilterIds.set propId mapped.1
            propFilterStrList :=
              manager.propFilterStrList.set propId ([] :: mapped.1.sortedKeys) }
        filterList := state.built.filterList.set propId mapped.2 } }

/-- One pass of the loop over the properties. -/
def buildGroupProperty (lastDocIdList : List ℕ) (state : GroupBuild CharT)
    (entry : String × ℕ) : Option (GroupBuild CharT) :=
  let propId := Table.get state.built.manager.propIdMap entry.1
  let nodeName := source.utf8 entry.1
  let state := { state with groupRoot := Table.update state.groupRoot nodeName id }
  if source.isUnchangedProperty entry.1 then some state
  else
    match groups.getPropValueTable entry.1 with
    | none => some state
    | some table =>
      let start := startOf groups entry.1 (lastDocIdList.getD entry.2 0)
        (state.groupFilterData.getD entry.2 ∅)
      (addDocuments source.separator table start.1 source.maxDocId
        (Table.get state.groupRoot nodeName, start.2)).map
        (numberGroups source state entry.2 propId nodeName)

/-- The lists are kept to be saved. -/
def buildGroupFilters (groupManager : Option (GroupTables CharT)) (lastDocIdList : List ℕ)
    (propertyList : List String) (groupFilterData : List (Table (List CharT) (List ℕ)))
    (built : BuiltFilters (List CharT)) :
    Option (List (Table (List CharT) (List ℕ)) × BuiltFilters (List CharT)) :=
  match groupManager with
  | none => some (groupFilterData, built)
  | some groups =>
    (propertyList.zipIdx.foldlM (buildGroupProperty source groups lastDocIdList)
      { groupFilterData := resize groupFilterData propertyList.length ∅, built }).map
      fun state => (state.groupFilterData, state.built)

end Build

variable (table : PropValueTable (List CharT))

/-- The paths of the values of a document. -/
def valuePaths (docId : ℕ) : List (List (List CharT)) :=
  (table.getPropIdList (BitVec.ofNat 32 docId)).toList.filterMap fun pvId =>
    table.propValuePath pvId.toNat

/-- All values of a list of documents. -/
def docPaths (docIds : List ℕ) : List (ℕ × List (List CharT)) :=
  docIds.flatMap fun docId => (valuePaths table docId).map (docId, ·)

/-- The ids of the documents can be read: the way up from each ends. -/
def Readable (docIds : List ℕ) : Prop :=
  ∀ docId ∈ docIds, ∀ pvId ∈ (table.getPropIdList (BitVec.ofNat 32 docId)).toList,
    (table.propValuePath pvId.toNat).isSome

section Spec

variable {separator : CharT} {table : PropValueTable (List CharT)} {lastDocId : ℕ}
  {filters : Forest (List CharT) Unit × Table (List CharT) (List ℕ)}

theorem foldlM_addPropValue {pvIds : List (BitVec 32)} {docId : ℕ}
    (hread : ∀ pvId ∈ pvIds, (table.propValuePath pvId.toNat).isSome)
    (filters : Forest (List CharT) Unit × Table (List CharT) (List ℕ)) :
    pvIds.foldlM (addPropValue separator table lastDocId docId) filters =
      some ((pvIds.filterMap fun pvId => table.propValuePath pvId.toNat).foldl
        (addGroupPath separator lastDocId docId) filters) := by
  induction pvIds generalizing filters with
  | nil => rfl
  | cons pvId pvIds ih =>
    obtain ⟨hpath, hrest⟩ := forall_mem_cons.mp hread
    obtain ⟨groupPath, hgroupPath⟩ := Option.isSome_iff_exists.mp hpath
    have hcons : (pvId :: pvIds).filterMap (fun pvId => table.propValuePath pvId.toNat) =
        groupPath :: pvIds.filterMap fun pvId => table.propValuePath pvId.toNat :=
      filterMap_cons_some hgroupPath
    rw [foldlM_cons, addPropValue, hgroupPath, hcons]
    exact ih hrest _

/-- Reading the values of the documents does not depend on what is built. -/
theorem foldlM_addDocument {docIds : List ℕ} (hread : Readable table docIds)
    (filters : Forest (List CharT) Unit × Table (List CharT) (List ℕ)) :
    docIds.foldlM (addDocument separator table lastDocId) filters =
      some ((docPaths table docIds).foldl
        (fun filters entry => addGroupPath separator lastDocId entry.1 filters entry.2)
        filters) := by
  induction docIds generalizing filters with
  | nil => rfl
  | cons docId docIds ih =>
    obtain ⟨hdoc, hrest⟩ := forall_mem_cons.mp hread
    have hpaths : docPaths table (docId :: docIds) =
        (valuePaths table docId).map (docId, ·) ++ docPaths table docIds := rfl
    rw [foldlM_cons, addDocument, foldlM_addPropValue hdoc, hpaths, foldl_append, foldl_map]
    exact ih hrest _

variable (separator lastDocId) in
/-- What one value of a document brings. -/
theorem addGroupPath_spec (docId : ℕ) (groupPath : List (List CharT))
    (filters : Forest (List CharT) Unit × Table (List CharT) (List ℕ)) :
    (∀ names, names ∈ (addGroupPath separator lastDocId docId filters groupPath).1.paths ↔
        names ∈ filters.1.paths ∨ names ≠ [] ∧ names <+: nodeNames separator groupPath) ∧
      ∀ key docId', docId' ∈
          Table.get (addGroupPath separator lastDocId docId filters groupPath).2 key ↔
        docId' ∈ Table.get filters.2 key ∨ lastDocId < docId ∧ docId' = docId ∧ groupPath ≠ [] ∧
            groupStr separator groupPath = key := by
  rw [addGroupPath]
  split
  · rename_i hempty
    subst hempty
    refine ⟨fun names => ?_, fun key docId' => ?_⟩
    · rw [nodeNames, prefix_nil]
      simp
    · simp
  · rename_i hne
    refine ⟨fun names => Forest.mem_paths_insertPath, fun key docId' => ?_⟩
    split
    · rename_i hle
      simp [hle.not_gt]
    · rename_i hlt
      rw [Table.get_update]
      by_cases hkey : key = groupStr separator groupPath
      · simp [hkey, hne, Nat.lt_of_not_le hlt]
      · simp [hkey, Ne.symm hkey]

variable (separator lastDocId) in
theorem foldl_addGroupPath_spec (entries : List (ℕ × List (List CharT)))
    (filters : Forest (List CharT) Unit × Table (List CharT) (List ℕ)) :
    (∀ names, names ∈ (entries.foldl (fun filters entry =>
          addGroupPath separator lastDocId entry.1 filters entry.2) filters).1.paths ↔
        names ∈ filters.1.paths ∨
          ∃ entry ∈ entries, names ≠ [] ∧ names <+: nodeNames separator entry.2) ∧
      ∀ key docId, docId ∈ Table.get (entries.foldl (fun filters entry =>
          addGroupPath separator lastDocId entry.1 filters entry.2) filters).2 key ↔
        docId ∈ Table.get filters.2 key ∨
          ∃ entry ∈ entries, lastDocId < entry.1 ∧ docId = entry.1 ∧ entry.2 ≠ [] ∧
            groupStr separator entry.2 = key := by
  induction entries generalizing filters with
  | nil => simp
  | cons entry entries ih =>
    obtain ⟨hpaths, hdata⟩ := addGroupPath_spec separator lastDocId
      entry.1 entry.2 filters
    obtain ⟨hpaths', hdata'⟩ := ih (addGroupPath separator lastDocId entry.1 filters entry.2)
    rw [foldl_cons]
    refine ⟨fun names => ?_, fun key docId => ?_⟩
    · rw [hpaths', hpaths, or_assoc, exists_mem_cons_iff]
    · rw [hdata', hdata, or_assoc, exists_mem_cons_iff]

theorem sorted_foldl_addGroupPath (entries : List (ℕ × List (List CharT)))
    (hsorted : filters.1.Sorted) : (entries.foldl (fun filters entry =>
      addGroupPath separator lastDocId entry.1 filters entry.2) filters).1.Sorted := by
  induction entries generalizing filters with
  | nil => exact hsorted
  | cons entry entries ih =>
    have hstep : (addGroupPath separator lastDocId entry.1 filters entry.2).1.Sorted := by
      rw [addGroupPath]
      split
      · exact hsorted
      · exact hsorted.insertPath _
    exact ih hstep

omit [LinearOrder CharT] in
theorem mem_docPaths {docIds : List ℕ} {entry : ℕ × List (List CharT)} :
    entry ∈ docPaths table docIds ↔ entry.1 ∈ docIds ∧ entry.2 ∈ valuePaths table entry.1 := by
  rw [docPaths, mem_flatMap]
  constructor
  · rintro ⟨docId, hdocId, hentry⟩
    obtain ⟨groupPath, hpath, rfl⟩ := mem_map.mp hentry
    exact ⟨hdocId, hpath⟩
  · rintro ⟨hdocId, hpath⟩
    exact ⟨entry.1, hdocId, mem_map.mpr ⟨entry.2, hpath, rfl⟩⟩

end Spec

end AdDelivery.SuffixMatch
