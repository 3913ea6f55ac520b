import AdDelivery.SuffixMatch.GroupFilters

/-!
# Ranges of group filters

The range of a group is looked up by the name of its path. It holds the documents of the group as
far as the names tell groups apart: groups with one name share one range, and the range under the
name of the property is begun by a node within the tree and ended by the root.
-/

namespace AdDelivery.SuffixMatch

open Option

open GroupManager (PropValueTable)

variable {CharT : Type} [LinearOrder CharT]

/-- Maps compare their names by the order. -/
local instance (priority := 2000) decidableEqGroupName : DecidableEq (List CharT) :=
  LinearOrder.toDecidableEq

section Groups

variable (separator : CharT) (table : PropValueTable (List CharT)) (docIds : List ℕ)
  (covered : ℕ → Prop)

/-- One of the values of the document is the group or lies below it. -/
def HasGroup (docId : ℕ) (g : List (List CharT)) : Prop :=
  ∃ groupPath ∈ valuePaths table docId, g <+: groupPath

/-- A group path that occurs in the table. -/
def IsGroup (g : List (List CharT)) : Prop :=
  g ≠ [] ∧ ∃ pvId, table.propValuePath pvId = some g

/-- A group path that a document brings into the tree. -/
def IsNode (g : List (List CharT)) : Prop :=
  g ≠ [] ∧ ∃ docId ∈ docIds, HasGroup table docId g

/-- Groups with one name have the same documents. -/
def NamesTellGroups : Prop :=
  ∀ g g', IsGroup table g → IsGroup table g' → groupStr separator g = groupStr separator g' →
    ∀ docId, covered docId → (HasGroup table docId g ↔ HasGroup table docId g')

/-- A group with the name of the root has all documents that have a value which is not before any
node of this name. -/
def RootTellsGroup (root : List CharT) : Prop :=
  ∀ g, IsGroup table g → groupStr separator g = root → ∀ docId, covered docId →
    ∀ groupPath ∈ valuePaths table docId, groupPath ≠ [] →
      (∀ node, IsNode table docIds node → groupStr separator node = root → ¬ groupPath < node) →
        HasGroup table docId g

/-- The tree has the nodes of all documents. -/
structure TreeOf (f : Forest (List CharT) Unit) : Prop where
  sorted : f.Sorted
  paths : ∀ names, names ∈ f.paths ↔ ∃ g, IsNode table docIds g ∧ names = nodeNames separator g

/-- Only nodes of documents are there yet. -/
structure PartOf (f : Forest (List CharT) Unit) : Prop where
  sorted : f.Sorted
  paths : ∀ names ∈ f.paths, ∃ g, IsNode table docIds g ∧ names = nodeNames separator g

/-- The lists have the covered documents under the names of their values. -/
structure Filled (f : Forest (List CharT) Unit) (data : Table (List CharT) (List ℕ)) : Prop
    extends TreeOf separator table docIds f where
  docs : ∀ name docId, docId ∈ Table.get data name ↔
    covered docId ∧ ∃ groupPath ∈ valuePaths table docId,
      groupPath ≠ [] ∧ groupStr separator groupPath = name

/-- Ids are given to the root and to nodes of the tree only. -/
def IdsOfNodes (root : List CharT) (ids : Table (List CharT) FilterIdRange) : Prop :=
  ∀ name, name ≠ root → (∀ node, IsNode table docIds node → groupStr separator node ≠ name) →
    ids.lookup name = none

end Groups

section Ranges

variable {separator : CharT} {table : PropValueTable (List CharT)} {docIds : List ℕ}
  {covered : ℕ → Prop} {f : Forest (List CharT) Unit} {data : Table (List CharT) (List ℕ)}
  {root : List CharT} {ids : Table (List CharT) FilterIdRange} {lists : List (List ℕ)}
  {docId : ℕ} {g : List (List CharT)}

omit [LinearOrder CharT] in
theorem HasGroup.of_prefix (h : HasGroup table docId g) {g' : List (List CharT)}
    (hpre : g' <+: g) : HasGroup table docId g' := by
  obtain ⟨groupPath, hpath, hg⟩ := h
  exact ⟨groupPath, hpath, hpre.trans hg⟩

omit [LinearOrder CharT] in
theorem hasGroup_self (h : g ∈ valuePaths table docId) : HasGroup table docId g :=
  ⟨g, h, List.prefix_refl g⟩

theorem lt_of_prefix_of_lt {l l' l'' : List (List CharT)} (hpre : l <+: l') (hlt : l' < l'') :
    l < l'' :=
  lt_of_le_of_lt (not_lt.mp (List.not_lt.mpr hpre.le)) hlt

theorem partOf_nil : PartOf separator table docIds (.nil : Forest (List CharT) Unit) :=
  ⟨trivial, nofun⟩

theorem idsOfNodes_empty : IdsOfNodes separator table docIds root ∅ :=
  fun name _ _ => Finmap.lookup_empty name

namespace TreeOf

variable (h : TreeOf separator table docIds f)

include h

theorem partOf : PartOf separator table docIds f :=
  ⟨h.sorted, fun names hnames => (h.paths names).mp hnames⟩

theorem namesDiffer : NamesDiffer f := by
  intro path hpath
  obtain ⟨g, _, rfl⟩ := (h.paths path).mp hpath
  exact nodup_nodeNames separator g

theorem mem_paths (hg : IsNode table docIds g) : nodeNames separator g ∈ f.paths :=
  (h.paths _).mpr ⟨g, hg, rfl⟩

variable {p : List (List CharT) → Prop}

/-- The nodes with a property of paths of names are those of groups with it. -/
theorem exists_mem_paths : (∃ names ∈ f.paths, p names) ↔
      ∃ g, IsNode table docIds g ∧ p (nodeNames separator g) := by
  constructor
  · rintro ⟨names, hnames, hp⟩
    obtain ⟨g, hg, rfl⟩ := (h.paths names).mp hnames
    exact ⟨g, hg, hp⟩
  · rintro ⟨g, hg, hp⟩
    exact ⟨nodeNames separator g, h.mem_paths hg, hp⟩

theorem forall_mem_paths : (∀ names ∈ f.paths, p names) ↔
      ∀ g, IsNode table docIds g → p (nodeNames separator g) := by
  constructor
  · exact fun hall g hg => hall _ (h.mem_paths hg)
  · intro hall names hnames
    obtain ⟨g, hg, rfl⟩ := (h.paths names).mp hnames
    exact hall g hg

theorem idsOfNodes (hids : IdsOfNodes separator table docIds root ids) :
    IdsOfNodes separator table docIds root
      (mapGroupFilterToFilterId ⟨root, f⟩ data ids lists).1 := by
  intro name hname hnone
  rcases inRange_lookup_of_ne data ids lists h.sorted h.namesDiffer hname with
    ⟨_, hlookup⟩ | ⟨names, hnames, hnamed, _⟩
  · rw [hlookup]
    exact hids name hname hnone
  · obtain ⟨node, hnode, rfl⟩ := (h.paths names).mp hnames
    rw [getLast?_nodeNames hnode.1] at hnamed
    exact absurd (some.inj hnamed) (hnone node hnode)

/-- Of the groups with one name the tree has a greatest. -/
theorem exists_greatest_node {name : List CharT}
    (hnode : ∃ node, IsNode table docIds node ∧ groupStr separator node = name) :
    ∃ node, IsNode table docIds node ∧ groupStr separator node = name ∧
      ∀ node', IsNode table docIds node' → groupStr separator node' = name → ¬ node < node' := by
  have hnamed : ∃ names ∈ f.paths, names.getLast? = some name := by
    obtain ⟨node, hnode, rfl⟩ := hnode
    exact ⟨_, h.mem_paths hnode, getLast?_nodeNames hnode.1⟩
  obtain ⟨names, hnames, hlast, hgreat⟩ :=
    exists_greatest_named h.sorted h.namesDiffer hnamed
  obtain ⟨node, hnode, rfl⟩ := (h.paths names).mp hnames
  rw [getLast?_nodeNames hnode.1] at hlast
  refine ⟨node, hnode, some.inj hlast, fun node' hnode' heq hlt => ?_⟩
  refine hgreat _ (h.mem_paths hnode') ?_ (nodeNames_lt_iff.mpr hlt)
  rw [getLast?_nodeNames hnode'.1, heq]

end TreeOf

namespace Filled

variable (h : Filled separator table docIds covered f data)

include h

theorem listedAt_iff (hg : g ≠ []) : ListedAt data docId (nodeNames separator g) ↔
      covered docId ∧ ∃ groupPath ∈ valuePaths table docId,
        groupPath ≠ [] ∧ groupStr separator groupPath = groupStr separator g := by
  rw [ListedAt, getLast?_nodeNames hg, ← h.docs]
  simp

variable (ids lists) in
/-- A name within the tree has the range of one node with it, and other names keep theirs. -/
theorem inRange_of_ne {name : List CharT} (hname : name ≠ root) :
    (∀ node, IsNode table docIds node → groupStr separator node ≠ name) ∧
        (mapGroupFilterToFilterId ⟨root, f⟩ data ids lists).1.lookup name = ids.lookup name ∨
      ∃ node, IsNode table docIds node ∧ groupStr separator node = name ∧
        ∃ range, (mapGroupFilterToFilterId ⟨root, f⟩ data ids lists).1.lookup name = some range ∧
        ∀ docId, InRange (mapGroupFilterToFilterId ⟨root, f⟩ data ids lists).2 range docId ↔
          covered docId ∧ ∃ node', IsNode table docIds node' ∧ node <+: node' ∧
            ∃ groupPath ∈ valuePaths table docId, groupPath ≠ [] ∧
              groupStr separator groupPath = groupStr separator node' := by
  rcases inRange_lookup_of_ne data ids lists h.sorted h.namesDiffer hname with
    ⟨hnone, hlookup⟩ | ⟨names, hnames, hnamed, range, hlookup, hrange⟩
  · refine Or.inl ⟨fun node hnode heq => ?_, hlookup⟩
    refine h.forall_mem_paths.mp hnone node hnode ?_
    rw [getLast?_nodeNames hnode.1, heq]
  · obtain ⟨node, hnode, rfl⟩ := (h.paths names).mp hnames
    rw [getLast?_nodeNames hnode.1] at hnamed
    refine Or.inr ⟨node, hnode, some.inj hnamed, range, hlookup, fun docId => ?_⟩
    rw [hrange, h.exists_mem_paths]
    constructor
    · rintro ⟨node', hnode', hpre, hlisted⟩
      obtain ⟨hdoc, hpath⟩ := (h.listedAt_iff hnode'.1).mp hlisted
      exact ⟨hdoc, node', hnode', (nodeNames_prefix_iff hnode.1 hnode'.1).mp hpre, hpath⟩
    · rintro ⟨hdoc, node', hnode', hpre, hpath⟩
      exact ⟨node', hnode', (nodeNames_prefix_iff hnode.1 hnode'.1).mpr hpre,
        (h.listedAt_iff hnode'.1).mpr ⟨hdoc, hpath⟩⟩

variable (root ids lists) in
/-- The root has the range from the last node of its name on. -/
theorem inRange_root (hcovered : ∀ docId, covered docId → docId ∈ docIds) :
    ∃ range, (mapGroupFilterToFilterId ⟨root, f⟩ data ids lists).1.lookup root = some range ∧
      ∀ docId, InRange (mapGroupFilterToFilterId ⟨root, f⟩ data ids lists).2 range docId ↔
        covered docId ∧ ∃ node', IsNode table docIds node' ∧
          (∀ node, IsNode table docIds node → groupStr separator node = root → ¬ node' < node) ∧
          ∃ groupPath ∈ valuePaths table docId, groupPath ≠ [] ∧
            groupStr separator groupPath = groupStr separator node' := by
  have hroot : ∀ docId ∈ Table.get data root, ∃ names ∈ f.paths, names.getLast? = some root := by
    intro docId hmem
    obtain ⟨hdoc, groupPath, hpath, hne, hstr⟩ := (h.docs root docId).mp hmem
    have hnode : IsNode table docIds groupPath :=
      ⟨hne, docId, hcovered docId hdoc, hasGroup_self hpath⟩
    refine ⟨nodeNames separator groupPath, h.mem_paths hnode, ?_⟩
    rw [getLast?_nodeNames hne, hstr]
  obtain ⟨range, hlookup, hrange⟩ :=
    inRange_lookup_root data ids lists h.sorted h.namesDiffer hroot
  refine ⟨range, hlookup, fun docId => ?_⟩
  have hlast (node' : List (List CharT)) :
      (∀ names ∈ f.paths, names.getLast? = some root → ¬ nodeNames separator node' < names) ↔
        ∀ node, IsNode table docIds node → groupStr separator node = root → ¬ node' < node := by
    rw [h.forall_mem_paths]
    refine forall_congr' fun node => imp_congr_right fun hnode => ?_
    rw [getLast?_nodeNames hnode.1, nodeNames_lt_iff, some.injEq]
  rw [hrange, h.exists_mem_paths]
  constructor
  · rintro ⟨node', hnode', hgreat, hlisted⟩
    obtain ⟨hdoc, hpath⟩ := (h.listedAt_iff hnode'.1).mp hlisted
    exact ⟨hdoc, node', hnode', (hlast node').mp hgreat, hpath⟩
  · rintro ⟨hdoc, node', hnode', hgreat, hpath⟩
    exact ⟨node', hnode', (hlast node').mpr hgreat, (h.listedAt_iff hnode'.1).mpr ⟨hdoc, hpath⟩⟩

section Exact

variable (hcovered : ∀ docId, covered docId → docId ∈ docIds)
  (hgroup : ∀ g, IsNode table docIds g → IsGroup table g)

include hcovered

omit h [LinearOrder CharT] in
theorem isNode_of_hasGroup (hdoc : covered docId) (hne : g ≠ []) (hhas : HasGroup table docId g) :
    IsNode table docIds g :=
  ⟨hne, docId, hcovered docId hdoc, hhas⟩

include hgroup

omit h [LinearOrder CharT] in
/-- A node with the name of a value has the documents of the value. -/
theorem hasGroup_of_value (htell : NamesTellGroups separator table covered)
    (hdoc : covered docId) {node groupPath : List (List CharT)}
    (hnode : IsNode table docIds node) (hpath : groupPath ∈ valuePaths table docId)
    (hne : groupPath ≠ []) (hstr : groupStr separator groupPath = groupStr separator node) :
    HasGroup table docId node := by
  have hvalue : IsNode table docIds groupPath :=
    isNode_of_hasGroup hcovered hdoc hne (hasGroup_self hpath)
  exact (htell groupPath node (hgroup _ hvalue) (hgroup node hnode) hstr docId hdoc).mp
    (hasGroup_self hpath)

/-- The range of a name within the tree, where names tell groups apart. -/
theorem inRange_of_ne_iff (hids : IdsOfNodes separator table docIds root ids)
    (htell : NamesTellGroups separator table covered)
    (hg : IsGroup table g) (hname : groupStr separator g ≠ root) (docId : ℕ) :
    InRange (mapGroupFilterToFilterId ⟨root, f⟩ data ids lists).2
        (((mapGroupFilterToFilterId ⟨root, f⟩ data ids lists).1.lookup
          (groupStr separator g)).getD {}) docId ↔ covered docId ∧ HasGroup table docId g := by
  rcases h.inRange_of_ne ids lists hname with
    ⟨hnone, hlookup⟩ | ⟨node, hnode, heq, range, hlookup, hin⟩
  · rw [hlookup, hids _ hname hnone]
    refine iff_of_false ?_ ?_
    · rintro ⟨id, _, _, hlt, _⟩
      exact absurd hlt (Nat.not_lt_zero id)
    · rintro ⟨hdoc, hhas⟩
      exact hnone g (isNode_of_hasGroup hcovered hdoc hg.1 hhas) rfl
  · rw [hlookup, getD_some, hin]
    refine and_congr_right fun hdoc => ?_
    rw [← htell node g (hgroup node hnode) hg heq docId hdoc]
    constructor
    · rintro ⟨node', hnode', hpre, groupPath, hpath, hne, hstr⟩
      have hhas := hasGroup_of_value hcovered hgroup htell hdoc hnode' hpath hne hstr
      exact hhas.of_prefix hpre
    · rintro ⟨groupPath, hpath, hpre⟩
      have hne := hpre.ne_nil hnode.1
      exact ⟨groupPath, isNode_of_hasGroup hcovered hdoc hne (hasGroup_self hpath), hpre,
        groupPath, hpath, hne, rfl⟩

/-- The range of the root, where also its name tells its groups. -/
theorem inRange_root_iff (htell : NamesTellGroups separator table covered)
    (hroot : RootTellsGroup separator table docIds covered root) (hg : IsGroup table g)
    (hname : groupStr separator g = root) (docId : ℕ) :
    InRange (mapGroupFilterToFilterId ⟨root, f⟩ data ids lists).2
        (((mapGroupFilterToFilterId ⟨root, f⟩ data ids lists).1.lookup
          (groupStr separator g)).getD {}) docId ↔ covered docId ∧ HasGroup table docId g := by
  obtain ⟨range, hlookup, hin⟩ := h.inRange_root root ids lists hcovered
  rw [hname, hlookup, getD_some, hin]
  refine and_congr_right fun hdoc => ?_
  constructor
  · rintro ⟨node', hnode', hgreat, groupPath, hpath, hne, hstr⟩
    obtain ⟨groupPath', hpath', hpre⟩ :=
      hasGroup_of_value hcovered hgroup htell hdoc hnode' hpath hne hstr
    refine hroot g hg hname docId hdoc groupPath' hpath' (hpre.ne_nil hnode'.1) ?_
    intro node hnode heq hlt
    exact hgreat node hnode heq (lt_of_prefix_of_lt hpre hlt)
  · intro hhas
    have hnode := isNode_of_hasGroup hcovered hdoc hg.1 hhas
    obtain ⟨node, hnode, heq, hgreat⟩ := h.exists_greatest_node ⟨g, hnode, hname⟩
    -- a value below the greatest node with the name is not before any of them
    obtain ⟨groupPath, hpath, hpre⟩ :=
      (htell node g (hgroup node hnode) hg (heq.trans hname.symm) docId hdoc).mpr hhas
    have hne := hpre.ne_nil hnode.1
    refine ⟨groupPath, isNode_of_hasGroup hcovered hdoc hne (hasGroup_self hpath), ?_,
      groupPath, hpath, hne, rfl⟩
    intro other hother heq' hlt
    exact hgreat other hother heq' (lt_of_prefix_of_lt hpre hlt)

variable (lists) in
/-- The ranges are right exactly when the names tell the groups. -/
theorem inRange_iff (hids : IdsOfNodes separator table docIds root ids) :
    (∀ g, IsGroup table g → ∀ docId, InRange (mapGroupFilterToFilterId ⟨root, f⟩ data ids lists).2
          (((mapGroupFilterToFilterId ⟨root, f⟩ data ids lists).1.lookup
            (groupStr separator g)).getD {}) docId ↔ covered docId ∧ HasGroup table docId g) ↔
      NamesTellGroups separator table covered ∧
        RootTellsGroup separator table docIds covered root := by
  constructor
  · intro hexact
    refine ⟨fun g g' hg hg' heq docId hdoc => ?_, ?_⟩
    · -- one name, one range
      have hrange := hexact g hg docId
      rw [heq, hexact g' hg' docId, and_congr_right_iff] at hrange
      exact (hrange hdoc).symm
    · intro g hg hname docId hdoc groupPath hpath hne hgreat
      have hrange := hexact g hg docId
      obtain ⟨range, hlookup, hin⟩ := h.inRange_root root ids lists hcovered
      rw [hname, hlookup, getD_some, hin] at hrange
      have hnode := isNode_of_hasGroup hcovered hdoc hne (hasGroup_self hpath)
      exact (hrange.mp ⟨hdoc, groupPath, hnode, hgreat, groupPath, hpath, hne, rfl⟩).2
  · rintro ⟨htell, hroot⟩ g hg docId
    by_cases hname : groupStr separator g = root
    · exact h.inRange_root_iff hcovered hgroup htell hroot hg hname docId
    · exact h.inRange_of_ne_iff hcovered hgroup hids htell hg hname docId

end Exact

end Filled

end Ranges

end AdDelivery.SuffixMatch
