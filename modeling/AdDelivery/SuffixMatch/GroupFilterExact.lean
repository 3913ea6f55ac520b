import AdDelivery.SuffixMatch.GroupFilterBuild

/-!
# When the group filters are exact

A group is looked up by the text of its path. Groups whose paths have one text share one range, and
a group that is called like the property has a range that ends with the tree.
-/

namespace AdDelivery.SuffixMatch

open List
open GroupManager (PropValueTable)

variable {CharT : Type} [LinearOrder CharT]

/-- Maps compare their names by the order. -/
local instance (priority := 2000) decidableEqExactName : DecidableEq (List CharT) :=
  LinearOrder.toDecidableEq

/-- An unknown name has the empty range. -/
def FilterManager.getStrFilterIdRangeExact (fm : FilterManager (List CharT)) (propId : ℕ)
    (strFilter : List CharT) : FilterIdRange :=
  ((fm.strFilterIds.getD propId ∅).lookup strFilter).getD {}

section Exact

variable {source : GroupSource CharT} {groups : GroupTables CharT} {lastDocIdList : List ℕ}
  {propertyList : List String} {groupFilterData : List (Table (List CharT) (List ℕ))}
  {built : BuiltFilters (List CharT)} {property : String} {table : PropValueTable (List CharT)}
  {firstDocId j propId : ℕ}

/-- The range of every group that occurs in the table has the documents of the group. -/
def GroupRangesExact (source : GroupSource CharT) (table : PropValueTable (List CharT))
    (firstDocId propId : ℕ) (built : BuiltFilters (List CharT)) : Prop :=
  ∀ g, IsGroup table g → ∀ docId,
    InRange (built.filterList.getD propId [])
        (built.manager.getStrFilterIdRangeExact propId (groupStr source.separator g)) docId ↔
      source.Covers firstDocId docId ∧ HasGroup table docId g

theorem BuiltOf.groupRangesExact_iff {root : List CharT} (hwf : table.WellFormed)
    (h : BuiltOf source table firstDocId propId root built) :
    GroupRangesExact source table firstDocId propId built ↔
      NamesTellGroups source.separator table (source.Covers firstDocId) ∧
        RootTellsGroup source.separator table source.docIds (source.Covers firstDocId) root := by
  obtain ⟨f, data, ids, lists, hfilled, hnodes, hids, hlists⟩ := h.numbered
  rw [GroupRangesExact, hlists]
  simp only [FilterManager.getStrFilterIdRangeExact, hids]
  refine hfilled.inRange_iff lists (fun docId hcovered => ?_)
    (fun g hnode => isGroup_of_isNode hwf hnode) hnodes
  obtain ⟨hfirst, hle, _⟩ := hcovered
  exact mem_docIds.mpr ⟨by omega, hle⟩

/-- A build with exact ranges has come to its end, and the names tell the groups. -/
theorem tells_of_exact (h : Unbuilt source groups propertyList built j property table)
    (hentered : source.Entered table firstDocId
      (startOf groups property (lastDocIdList.getD j 0) (groupFilterData.getD j ∅)).1
      (startOf groups property (lastDocIdList.getD j 0) (groupFilterData.getD j ∅)).2)
    (hexact : ∃ result, buildGroupFilters source (some groups) lastDocIdList propertyList
        groupFilterData built = some result ∧
      GroupRangesExact source table firstDocId (Table.get built.manager.propIdMap property)
        result.2) : source.maxDocId ≠ BitVec.allOnes 32 ∧
      NamesTellGroups source.separator table (source.Covers firstDocId) ∧
      RootTellsGroup source.separator table source.docIds (source.Covers firstDocId)
        (source.utf8 property) := by
  obtain ⟨result, hresult, hexact⟩ := hexact
  obtain ⟨state, hfold, rfl⟩ := Option.map_eq_some_iff.mp hresult
  have hbuilt := builtOf_foldlM h hentered hfold
  exact ⟨hbuilt.maxDocId_ne, (hbuilt.groupRangesExact_iff h.wellFormed).mp hexact⟩

/-- The build comes to its end with exact ranges for the groups of a property just when the
counter passes the last document and the names tell the groups of the property. -/
theorem buildGroupFilters_exact_iff (h : Unbuilt source groups propertyList built j property table)
    (hentered : source.Entered table firstDocId
      (startOf groups property (lastDocIdList.getD j 0) (groupFilterData.getD j ∅)).1
      (startOf groups property (lastDocIdList.getD j 0) (groupFilterData.getD j ∅)).2) :
    (∃ result, buildGroupFilters source (some groups) lastDocIdList propertyList groupFilterData
        built = some result ∧
      GroupRangesExact source table firstDocId (Table.get built.manager.propIdMap property)
        result.2) ↔ source.maxDocId ≠ BitVec.allOnes 32 ∧
        NamesTellGroups source.separator table (source.Covers firstDocId) ∧
        RootTellsGroup source.separator table source.docIds (source.Covers firstDocId)
          (source.utf8 property) := by
  constructor
  · exact tells_of_exact h hentered
  · rintro ⟨hmax, htell⟩
    have hread : ∀ entry ∈ propertyList.zipIdx, ∀ table',
        groups.getPropValueTable entry.1 = some table' → Readable table' source.docIds := by
      intro entry hentry
      exact h.readable entry.1 (mem_of_getElem? (mem_zipIdx_iff_getElem?.mp hentry))
    obtain ⟨state, hfold⟩ := exists_foldlM lastDocIdList hmax hread
      { groupFilterData := resize groupFilterData propertyList.length ∅, built }
    have hbuilt := builtOf_foldlM h hentered hfold
    exact ⟨_, congrArg (Option.map _) hfold, (hbuilt.groupRangesExact_iff h.wellFormed).mpr htell⟩

end Exact

section Examples

/-- Two documents, and one property of this name. -/
def twoDocuments : GroupSource Char where
  separator := '>'
  utf8 := String.toList
  maxDocId := 2

def oneTable (table : PropValueTable (List Char)) : GroupTables Char where
  getPropValueTable := fun _ => some table

/-- A manager for one property before the first build. -/
def oneProperty (property : String) : BuiltFilters (List Char) where
  manager :=
    { propIdMap := Finmap.singleton property 0
      propFilterStrList := [[]]
      strFilterIds := [∅] }
  filterList := [[]]

/-- Document 1 has the group `b` and document 2 the group `c`. -/
def nameTable : PropValueTable (List Char) :=
  { PropValueTable.insertAll {} [[['b']], [['c']]] with
    valueIdTable := { indexTable := [0, 1, 2] } }

/-- Document 1 has the group `a>b` and document 2 the group `b` below `a`. -/
def separatorTable : PropValueTable (List Char) :=
  { PropValueTable.insertAll {} [[['a', '>', 'b']], [['a'], ['b']]] with
    valueIdTable := { indexTable := [0, 1, 3] } }

variable {table : PropValueTable (List Char)}

theorem unbuilt_oneProperty (hwf : table.WellFormed) (hread : Readable table twoDocuments.docIds)
    (property : String) :
    Unbuilt twoDocuments (oneTable table) [property] (oneProperty property) 0 property table := by
  have hid : Table.get (oneProperty property).manager.propIdMap property = 0 := by
    rw [Table.get, oneProperty, Finmap.lookup_singleton_eq, Option.getD_some]
  refine ⟨rfl, fun k hk => ?_, ?_, ?_, rfl, rfl, hwf, ?_, ?_, ?_⟩
  · rw [getElem?_eq_none hk]
    exact (Option.some_ne_none property).symm
  · exact fun property' hmem hne => absurd (mem_singleton.mp hmem) hne
  · exact fun property' hmem hne => absurd (mem_singleton.mp hmem) hne
  · intro property' _ table' htable'
    obtain rfl := Option.some.inj htable'
    exact hread
  · rw [hid]
    rfl
  · rw [hid]
    exact Nat.one_pos

/-- The single values of the documents can be read. -/
theorem readable_twoDocuments {pvId pvId' : BitVec 32}
    (hone : (table.getPropIdList 1#32).toList = [pvId])
    (htwo : (table.getPropIdList 2#32).toList = [pvId'])
    (hpath : (table.propValuePath pvId.toNat).isSome)
    (hpath' : (table.propValuePath pvId'.toNat).isSome) : Readable table twoDocuments.docIds := by
  refine forall_mem_cons.mpr ⟨fun id hid => ?_, forall_mem_singleton.mpr fun id hid => ?_⟩
  · obtain rfl := mem_singleton.mp (hone ▸ hid)
    exact hpath
  · obtain rfl := mem_singleton.mp (htwo ▸ hid)
    exact hpath'

theorem unbuilt_nameTable :
    Unbuilt twoDocuments (oneTable nameTable) ["b"] (oneProperty "b") 0 "b" nameTable := by
  have hspec := (PropValueTable.insertAll_spec [[['b']], [['c']]] PropValueTable.wellFormed_empty).1
  have hone : (nameTable.getPropIdList 1#32).toList = [1#32] := by decide
  have htwo : (nameTable.getPropIdList 2#32).toList = [2#32] := by decide
  refine unbuilt_oneProperty ?_ (readable_twoDocuments hone htwo (by decide) (by decide)) "b"
  exact ⟨hspec.1, hspec.2, hspec.3, hspec.4, hspec.5, hspec.6⟩

theorem unbuilt_separatorTable :
    Unbuilt twoDocuments (oneTable separatorTable) ["p"] (oneProperty "p") 0 "p"
      separatorTable := by
  have hspec := (PropValueTable.insertAll_spec [[['a', '>', 'b']], [['a'], ['b']]]
    PropValueTable.wellFormed_empty).1
  have hone : (separatorTable.getPropIdList 1#32).toList = [1#32] := by decide
  have htwo : (separatorTable.getPropIdList 2#32).toList = [3#32] := by decide
  refine unbuilt_oneProperty ?_ (readable_twoDocuments hone htwo (by decide) (by decide)) "p"
  exact ⟨hspec.1, hspec.2, hspec.3, hspec.4, hspec.5, hspec.6⟩

theorem valuePaths_examples :
    valuePaths nameTable 1 = [[['b']]] ∧ valuePaths nameTable 2 = [[['c']]] ∧
      valuePaths separatorTable 1 = [[['a', '>', 'b']]] ∧
      valuePaths separatorTable 2 = [[['a'], ['b']]] := by
  decide

theorem buildGroupFilters_exact_iff_nameTable :
    (∃ result, buildGroupFilters twoDocuments (some (oneTable nameTable)) [0] ["b"] []
        (oneProperty "b") = some result ∧ GroupRangesExact twoDocuments nameTable 0
        (Table.get (oneProperty "b").manager.propIdMap "b") result.2) ↔
      twoDocuments.maxDocId ≠ BitVec.allOnes 32 ∧
        NamesTellGroups '>' nameTable (twoDocuments.Covers 0) ∧
        RootTellsGroup '>' nameTable twoDocuments.docIds (twoDocuments.Covers 0) "b".toList :=
  buildGroupFilters_exact_iff unbuilt_nameTable (entered_empty nameTable 0)

/-- The range of `b` goes to the end of the tree and holds document 2. The range of `a>b` is that
of the group below `a`, and has not document 1. -/
theorem not_groupRangesExact_names :
    (¬ ∃ result, buildGroupFilters twoDocuments (some (oneTable nameTable)) [0] ["b"] []
        (oneProperty "b") = some result ∧ GroupRangesExact twoDocuments nameTable 0
        (Table.get (oneProperty "b").manager.propIdMap "b") result.2) ∧
    ¬ ∃ result, buildGroupFilters twoDocuments (some (oneTable separatorTable)) [0] ["p"] []
        (oneProperty "p") = some result ∧ GroupRangesExact twoDocuments separatorTable 0
        (Table.get (oneProperty "p").manager.propIdMap "p") result.2 := by
  obtain ⟨hname₁, hname₂, hsep₁, hsep₂⟩ := valuePaths_examples
  refine ⟨fun hexact => ?_, fun hexact => ?_⟩
  · obtain ⟨_, _, hroot⟩ := tells_of_exact unbuilt_nameTable (entered_empty _ 0) hexact
    have hcovers : twoDocuments.Covers 0 2 := ⟨by decide, by decide, rfl⟩
    have hhas := hroot [['b']] ⟨by decide, 1, by decide⟩ (by decide) 2 hcovers [['c']]
      (by decide) (by decide) ?_
    · obtain ⟨groupPath, hpath, hpre⟩ := hhas
      rw [hname₂, mem_singleton] at hpath
      subst hpath
      exact absurd hpre (by decide)
    · -- the only nodes are `b` and `c`
      rintro node ⟨hne, docId, hdocId, groupPath, hpath, hpre⟩ _ hlt
      have hvalue : groupPath = [['b']] ∨ groupPath = [['c']] := by
        rcases mem_cons.mp hdocId with rfl | hdocId
        · exact Or.inl (mem_singleton.mp hpath)
        · obtain rfl := mem_singleton.mp hdocId
          exact Or.inr (mem_singleton.mp hpath)
      have hle := lt_of_lt_of_le hlt (not_lt.mp (List.not_lt.mpr hpre.le))
      rcases hvalue with rfl | rfl
      · exact absurd hle (by decide)
      · exact absurd hle (by decide)
  · obtain ⟨_, htell, _⟩ := tells_of_exact unbuilt_separatorTable (entered_empty _ 0) hexact
    have hcovers : twoDocuments.Covers 0 1 := ⟨by decide, by decide, rfl⟩
    have hhas := (htell [['a', '>', 'b']] [['a'], ['b']] ⟨by decide, 1, by decide⟩
      ⟨by decide, 3, by decide⟩ (by decide) 1 hcovers).mp ?_
    · obtain ⟨groupPath, hpath, hpre⟩ := hhas
      rw [hsep₁, mem_singleton] at hpath
      subst hpath
      exact absurd hpre (by decide)
    · exact ⟨_, by exact mem_singleton.mpr rfl, prefix_refl _⟩

end Examples

end AdDelivery.SuffixMatch
