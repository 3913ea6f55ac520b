import AdDelivery.Core.PreorderPaths
import AdDelivery.SuffixMatch.FilterIds

/-!
# Numbering the filters of a group

A node of the group tree has a name, and the ids of its range are given on the way through the
tree: the start when the node is entered and the end when it is left. The ranges are kept by name
alone. When no node has the name of a node above it, the range of a name belongs to the last node
that has it. Only the root has the name of the property, and a node within the tree with that name
moves the start of its range.
-/

namespace AdDelivery.SuffixMatch

open List Table Forest

/-- The children of a node are a map by their names, which are full paths from the root. -/
structure GroupNode (κ : Type) where
  nodeName : κ
  childNodes : Forest κ Unit := .nil

variable {κ : Type} [LinearOrder κ]

/-- The range of the node begins, and its documents take the next id. -/
def enterNode (groupFilterData : Table κ (List ℕ)) (name : κ)
    (mapped : Table κ FilterIdRange × List (List ℕ)) : Table κ FilterIdRange × List (List ℕ) :=
  (update mapped.1 name fun range => { range with start := mapped.2.length },
    match groupFilterData.lookup name with
    | some docs => mapped.2 ++ [docs]
    | none => mapped.2)

/-- The range of the node ends. -/
def leaveNode (name : κ) (mapped : Table κ FilterIdRange × List (List ℕ)) :
    Table κ FilterIdRange × List (List ℕ) :=
  (update mapped.1 name fun range => { range with end_ := mapped.2.length }, mapped.2)

/-- The loop over the children of a node. -/
def mapChildren (groupFilterData : Table κ (List ℕ)) :
    Forest κ Unit → Table κ FilterIdRange × List (List ℕ) → Table κ FilterIdRange × List (List ℕ)
  | .nil, mapped => mapped
  | .node name _ children siblings, mapped =>
    mapChildren groupFilterData siblings
      (leaveNode name
        (mapChildren groupFilterData children (enterNode groupFilterData name mapped)))

def mapGroupFilterToFilterId (node : GroupNode κ) (groupFilterData : Table κ (List ℕ))
    (filterids : Table κ FilterIdRange) (filterList : List (List ℕ)) :
    Table κ FilterIdRange × List (List ℕ) :=
  leaveNode node.nodeName
    (mapChildren groupFilterData node.childNodes
      (enterNode groupFilterData node.nodeName (filterids, filterList)))

/-- The list that a node of this name appends, if any. -/
def listOf (groupFilterData : Table κ (List ℕ)) (name : κ) : List (List ℕ) :=
  (groupFilterData.lookup name).toList

/-- The list that the node at the end of a path of names appends. -/
def listAt (groupFilterData : Table κ (List ℕ)) (path : List κ) : List (List ℕ) :=
  path.getLast?.toList.flatMap (listOf groupFilterData)

variable {groupFilterData : Table κ (List ℕ)} {name : κ}
  {mapped : Table κ FilterIdRange × List (List ℕ)}

theorem listAt_singleton : listAt groupFilterData [name] = listOf groupFilterData name := by
  simp [listAt]

theorem listAt_cons {path : List κ} (hpath : path ≠ []) :
    listAt groupFilterData (name :: path) = listAt groupFilterData path := by
  obtain ⟨x, rest, rfl⟩ := exists_cons_of_ne_nil hpath
  rw [listAt, getLast?_cons_cons, listAt]

theorem flatMap_listAt_map_cons {paths : List (List κ)} (hpaths : ∀ path ∈ paths, path ≠ []) :
    (paths.map (name :: ·)).flatMap (listAt groupFilterData) =
      paths.flatMap (listAt groupFilterData) := by
  rw [flatMap_map]
  exact flatMap_congr fun path hpath => listAt_cons (hpaths path hpath)

theorem enterNode_snd :
    (enterNode groupFilterData name mapped).2 = mapped.2 ++ listOf groupFilterData name := by
  rw [enterNode, listOf]
  cases groupFilterData.lookup name with
  | none => exact (append_nil _).symm
  | some docs => rfl

theorem leaveNode_snd : (leaveNode name mapped).2 = mapped.2 := rfl

/-- The lists are appended in preorder. -/
theorem mapChildren_snd (f : Forest κ Unit) (mapped : Table κ FilterIdRange × List (List ℕ)) :
    (mapChildren groupFilterData f mapped).2 =
      mapped.2 ++ f.paths.flatMap (listAt groupFilterData) := by
  induction f generalizing mapped with
  | nil => exact (append_nil _).symm
  | node name b children siblings ihc ihs =>
    rw [mapChildren, ihs, leaveNode_snd, ihc, enterNode_snd, paths, flatMap_cons,
      flatMap_append, listAt_singleton,
      flatMap_listAt_map_cons fun path hpath => ne_nil_of_mem_paths hpath]
    simp only [append_assoc]

/-- No node has the name of a node above it. -/
def NamesDiffer (f : Forest κ Unit) : Prop := ∀ path ∈ f.paths, path.Nodup

omit [LinearOrder κ] in
theorem NamesDiffer.children {b : Unit} {children siblings : Forest κ Unit}
    (h : NamesDiffer (.node name b children siblings)) : NamesDiffer children :=
  fun path hpath => (nodup_cons.mp
    (h (name :: path) (mem_paths_node.mpr (Or.inl ⟨path, rfl, Or.inr hpath⟩)))).2

omit [LinearOrder κ] in
theorem NamesDiffer.siblings {b : Unit} {children siblings : Forest κ Unit}
    (h : NamesDiffer (.node name b children siblings)) : NamesDiffer siblings :=
  fun path hpath => h path (mem_paths_node.mpr (Or.inr hpath))

omit [LinearOrder κ] in
/-- No node below has the name of the first node. -/
theorem NamesDiffer.notMem_children {b : Unit} {children siblings : Forest κ Unit}
    (h : NamesDiffer (.node name b children siblings)) {path : List κ}
    (hpath : path ∈ children.paths) : name ∉ path :=
  (nodup_cons.mp (h (name :: path) (mem_paths_node.mpr (Or.inl ⟨path, rfl, Or.inr hpath⟩)))).1

/-- The last node of a name in a forest, with the ids of its range from `base` on. -/
structure LastNamed (groupFilterData : Table κ (List ℕ)) (f : Forest κ Unit) (name : κ)
    (base : ℕ) (range : FilterIdRange) (before : List (List κ)) (path : List κ)
    (below after : List (List κ)) : Prop where
  splitAt : f.SplitAt before path below after
  named : path.getLast? = some name
  last : ∀ path' ∈ after, path'.getLast? ≠ some name
  start_eq : range.start = base + (before.flatMap (listAt groupFilterData)).length
  end_eq : range.end_ = range.start + ((path :: below).flatMap (listAt groupFilterData)).length

namespace LastNamed

variable {f : Forest κ Unit} {a : κ} {b : Unit} {base : ℕ} {range : FilterIdRange}
  {before below after : List (List κ)} {path : List κ}

theorem child {siblings : Forest κ Unit} (h : LastNamed groupFilterData f name
      (base + (listOf groupFilterData a).length) range before path below after)
    (hf : (node a b f siblings).Sorted)
    (hlast : ∀ path' ∈ siblings.paths, path'.getLast? ≠ some name) :
    LastNamed groupFilterData (.node a b f siblings) name base range
      ([a] :: before.map (a :: ·)) (a :: path) (below.map (a :: ·))
      (after.map (a :: ·) ++ siblings.paths) := by
  have hmem {path' : List κ} (hpath' : path' ∈ before ++ path :: (below ++ after)) :
      path' ≠ [] := by
    rw [← h.splitAt.paths_eq] at hpath'
    exact ne_nil_of_mem_paths hpath'
  refine ⟨h.splitAt.child hf, ?_, fun path' hpath' => ?_, ?_, ?_⟩
  · rw [getLast?_cons_of_ne_nil (hmem (by simp))]
    exact h.named
  · rcases mem_append.mp hpath' with hpath' | hpath'
    · obtain ⟨rest, hrest, rfl⟩ := mem_map.mp hpath'
      rw [getLast?_cons_of_ne_nil (hmem (by simp [hrest]))]
      exact h.last rest hrest
    · exact hlast path' hpath'
  · rw [h.start_eq, flatMap_cons, listAt_singleton,
      flatMap_listAt_map_cons fun path' hpath' => hmem (by simp [hpath']), length_append,
      Nat.add_assoc]
  · have hmap : (a :: path) :: below.map (a :: ·) = (path :: below).map (a :: ·) := rfl
    rw [hmap, flatMap_listAt_map_cons]
    · exact h.end_eq
    · intro path' hpath'
      exact hmem (mem_append_right before (mem_append_left after hpath'))

theorem sibling {children : Forest κ Unit} (h : LastNamed groupFilterData f name
      (base + (listOf groupFilterData a).length +
        (children.paths.flatMap (listAt groupFilterData)).length) range before path below after)
    (hf : (node a b children f).Sorted) :
    LastNamed groupFilterData (.node a b children f) name base range
      ([a] :: (children.paths.map (a :: ·) ++ before)) path below after := by
  refine ⟨h.splitAt.sibling hf, h.named, h.last, ?_, h.end_eq⟩
  rw [h.start_eq, flatMap_cons, listAt_singleton, flatMap_append,
    flatMap_listAt_map_cons fun path' hpath' => ne_nil_of_mem_paths hpath',
    length_append, length_append]
  omega

end LastNamed

theorem lookup_enterNode (other : κ) : (enterNode groupFilterData name mapped).1.lookup other =
      if other = name then
        some { get mapped.1 name with start := mapped.2.length }
      else mapped.1.lookup other :=
  lookup_insert_eq _ _ _ _

theorem lookup_leaveNode (other : κ) : (leaveNode name mapped).1.lookup other =
      if other = name then some { get mapped.1 name with end_ := mapped.2.length }
      else mapped.1.lookup other :=
  lookup_insert_eq _ _ _ _

variable (groupFilterData) in
/-- A name that occurs gets the range of its last node, and other names keep their ranges. -/
theorem lookup_mapChildren {f : Forest κ Unit} (hf : f.Sorted) (hnames : NamesDiffer f)
    (name : κ) (mapped : Table κ FilterIdRange × List (List ℕ)) :
    (∀ path ∈ f.paths, path.getLast? ≠ some name) ∧
        (mapChildren groupFilterData f mapped).1.lookup name = mapped.1.lookup name ∨
      ∃ range before path below after,
        (mapChildren groupFilterData f mapped).1.lookup name = some range ∧
        LastNamed groupFilterData f name mapped.2.length range before path below after := by
  induction f generalizing mapped with
  | nil =>
    refine Or.inl ⟨fun path hpath => ?_, rfl⟩
    cases hpath
  | node a b children siblings ihc ihs =>
    rw [mapChildren]
    have henter : (enterNode groupFilterData a mapped).2.length =
        mapped.2.length + (listOf groupFilterData a).length := by
      rw [enterNode_snd, length_append]
    have hleave : (leaveNode a (mapChildren groupFilterData children
        (enterNode groupFilterData a mapped))).2.length =
        mapped.2.length + (listOf groupFilterData a).length +
          (children.paths.flatMap (listAt groupFilterData)).length := by
      rw [leaveNode_snd, mapChildren_snd, length_append, henter]
    rcases ihs hf.2.1 hnames.siblings (leaveNode a (mapChildren groupFilterData children
        (enterNode groupFilterData a mapped))) with
      ⟨hsiblings, hlookup⟩ | ⟨range, before, path, below, after, hlookup, hlast⟩
    · rw [hlookup, lookup_leaveNode]
      rcases ihc hf.1 hnames.children (enterNode groupFilterData a mapped) with
        ⟨hchildren, hlookup'⟩ | ⟨range, before, path, below, after, hlookup', hlast⟩
      · by_cases hname : name = a
        · subst hname
          refine Or.inr ⟨_, _, _, _, _, if_pos rfl, Forest.splitAt_node hf, rfl, hsiblings, ?_, ?_⟩
          · rw [Table.get, hlookup', lookup_enterNode, if_pos rfl]
            rfl
          · rw [Table.get, hlookup', lookup_enterNode, if_pos rfl, mapChildren_snd,
              flatMap_cons, listAt_singleton, flatMap_listAt_map_cons fun path' hpath' =>
                Forest.ne_nil_of_mem_paths hpath', length_append, henter, length_append]
            exact Nat.add_assoc _ _ _
        · refine Or.inl ⟨fun path hpath => ?_, ?_⟩
          · rcases mem_paths_node.mp hpath with ⟨rest, rfl, rfl | hrest⟩ | hpath
            · rw [getLast?_singleton]
              exact fun heq => hname (Option.some.inj heq).symm
            · rw [getLast?_cons_of_ne_nil (ne_nil_of_mem_paths hrest)]
              exact hchildren rest hrest
            · exact hsiblings path hpath
          · rw [if_neg hname, hlookup', lookup_enterNode, if_neg hname]
      · have hname : name ≠ a := by
          rintro rfl
          exact hnames.notMem_children hlast.splitAt.mem_paths (mem_of_getLast? hlast.named)
        rw [henter] at hlast
        rw [if_neg hname, hlookup']
        exact Or.inr ⟨range, _, _, _, _, rfl, hlast.child hf hsiblings⟩
    · rw [hleave] at hlast
      exact Or.inr ⟨range, _, _, _, _, hlookup, hlast.sibling hf⟩

/-- The document is in a list whose id is in the range. -/
def InRange (filterList : List (List ℕ)) (range : FilterIdRange) (docId : ℕ) : Prop :=
  ∃ id docs, range.start ≤ id ∧ id < range.end_ ∧ filterList[id]? = some docs ∧ docId ∈ docs

theorem inRange_append {front lists back : List (List ℕ)} {range : FilterIdRange}
    (hstart : range.start = front.length) (hend : range.end_ = front.length + lists.length)
    (docId : ℕ) :
    InRange (front ++ (lists ++ back)) range docId ↔ ∃ docs ∈ lists, docId ∈ docs := by
  constructor
  · rintro ⟨id, docs, hle, hlt, hdocs, hmem⟩
    rw [hstart] at hle
    rw [getElem?_append_right hle, getElem?_append_left (by omega)] at hdocs
    exact ⟨docs, mem_of_getElem? hdocs, hmem⟩
  · rintro ⟨docs, hdocs, hmem⟩
    obtain ⟨i, hi, rfl⟩ := mem_iff_getElem.mp hdocs
    refine ⟨front.length + i, lists[i], by omega, by omega, ?_, hmem⟩
    rw [getElem?_append_right (Nat.le_add_right _ i), Nat.add_sub_cancel_left,
      getElem?_append_left hi, getElem?_eq_getElem hi]

theorem inRange_to_end {front lists : List (List ℕ)} {range : FilterIdRange}
    (hstart : range.start = front.length) (hend : range.end_ = (front ++ lists).length)
    (docId : ℕ) : InRange (front ++ lists) range docId ↔ ∃ docs ∈ lists, docId ∈ docs := by
  rw [length_append] at hend
  rw [← inRange_append hstart hend, append_nil]

/-- The document is listed under the name of the node at the end of the path. -/
def ListedAt (groupFilterData : Table κ (List ℕ)) (docId : ℕ) (path : List κ) : Prop :=
  ∃ name, path.getLast? = some name ∧ docId ∈ get groupFilterData name

theorem exists_mem_listOf {docId : ℕ} : (∃ docs ∈ listOf groupFilterData name, docId ∈ docs) ↔
      docId ∈ Table.get groupFilterData name := by
  rw [listOf, Table.get]
  cases groupFilterData.lookup name with
  | none =>
    refine iff_of_false ?_ not_mem_nil
    rintro ⟨_, hdocs, _⟩
    exact not_mem_nil hdocs
  | some docs => simp

theorem exists_mem_flatMap_listAt {paths : List (List κ)} {docId : ℕ} :
    (∃ docs ∈ paths.flatMap (listAt groupFilterData), docId ∈ docs) ↔
      ∃ path ∈ paths, ListedAt groupFilterData docId path := by
  constructor
  · rintro ⟨docs, hdocs, hmem⟩
    obtain ⟨path, hpath, hdocs⟩ := mem_flatMap.mp hdocs
    obtain ⟨name, hname, hdocs⟩ := mem_flatMap.mp hdocs
    exact ⟨path, hpath, name, Option.mem_toList.mp hname, exists_mem_listOf.mp ⟨docs, hdocs, hmem⟩⟩
  · rintro ⟨path, hpath, name, hname, hmem⟩
    obtain ⟨docs, hdocs, hmem⟩ := exists_mem_listOf.mpr hmem
    refine ⟨docs, mem_flatMap.mpr ⟨path, hpath, ?_⟩, hmem⟩
    exact mem_flatMap.mpr ⟨name, Option.mem_toList.mpr hname, hdocs⟩

/-- No later node has the name, so the node of the range is the greatest with it. -/
theorem LastNamed.not_lt {f : Forest κ Unit} {base : ℕ} {range : FilterIdRange}
    {before below after : List (List κ)} {path path' : List κ}
    (h : LastNamed groupFilterData f name base range before path below after)
    (hf : f.Sorted) (hnames : NamesDiffer f) (hpath' : path' ∈ f.paths)
    (hnamed : path'.getLast? = some name) : ¬ path < path' := by
  intro hlt
  have hbehind := (h.splitAt.mem_cons_append_iff hf).mpr ⟨hpath', hlt.not_gt⟩
  rcases mem_cons.mp hbehind with rfl | hbehind
  · exact lt_irrefl _ hlt
  rcases mem_append.mp hbehind with hbelow | hafter
  · -- the name would stand twice on the way down to `path'`
    obtain ⟨rest, rfl⟩ := h.splitAt.below_prefix path' hbelow
    have hrest : rest ≠ [] := by
      rintro rfl
      rw [append_nil] at hlt
      exact lt_irrefl _ hlt
    rw [getLast?_append_of_ne_nil _ hrest] at hnamed
    exact disjoint_of_nodup_append (hnames _ hpath') (mem_of_getLast? h.named)
      (mem_of_getLast? hnamed)
  · exact h.last path' hafter hnamed

/-- Of the nodes with one name one is the greatest. -/
theorem exists_greatest_named {f : Forest κ Unit} (hf : f.Sorted) (hnames : NamesDiffer f)
    (h : ∃ path ∈ f.paths, path.getLast? = some name) :
    ∃ path ∈ f.paths, path.getLast? = some name ∧
      ∀ path' ∈ f.paths, path'.getLast? = some name → ¬ path < path' := by
  rcases lookup_mapChildren ∅ hf hnames name (∅, []) with
    ⟨hnone, _⟩ | ⟨range, before, path, below, after, _, hlast⟩
  · obtain ⟨path, hpath, hnamed⟩ := h
    exact absurd hnamed (hnone path hpath)
  · refine ⟨path, hlast.splitAt.mem_paths, hlast.named, fun path' hpath' hnamed => ?_⟩
    exact hlast.not_lt hf hnames hpath' hnamed

section Numbered

variable {f : Forest κ Unit} {root : κ} {ids : Table κ FilterIdRange} {lists : List (List ℕ)}

theorem mapGroupFilterToFilterId_snd :
    (mapGroupFilterToFilterId ⟨root, f⟩ groupFilterData ids lists).2 =
      lists ++ (listOf groupFilterData root ++ f.paths.flatMap (listAt groupFilterData)) := by
  rw [mapGroupFilterToFilterId, leaveNode_snd, mapChildren_snd, enterNode_snd, append_assoc]

variable (groupFilterData ids lists) in
/-- The range of a name within the tree holds the documents of one node of the name and of the
nodes below it. A name that does not occur gets no range. -/
theorem inRange_lookup_of_ne (hf : f.Sorted) (hnames : NamesDiffer f) (hname : name ≠ root) :
    (∀ path ∈ f.paths, path.getLast? ≠ some name) ∧
        (mapGroupFilterToFilterId ⟨root, f⟩ groupFilterData ids lists).1.lookup name =
          ids.lookup name ∨ ∃ path ∈ f.paths, path.getLast? = some name ∧
        ∃ range, (mapGroupFilterToFilterId ⟨root, f⟩ groupFilterData ids lists).1.lookup name =
          some range ∧
        ∀ docId, InRange (mapGroupFilterToFilterId ⟨root, f⟩ groupFilterData ids lists).2 range
            docId ↔ ∃ path' ∈ f.paths, path <+: path' ∧ ListedAt groupFilterData docId path' := by
  rw [mapGroupFilterToFilterId_snd, mapGroupFilterToFilterId, lookup_leaveNode, if_neg hname]
  rcases lookup_mapChildren groupFilterData hf hnames name
      (enterNode groupFilterData root (ids, lists)) with
    ⟨hnone, hlookup⟩ | ⟨range, before, path, below, after, hlookup, hlast⟩
  · rw [hlookup, lookup_enterNode, if_neg hname]
    exact Or.inl ⟨hnone, rfl⟩
  · refine Or.inr ⟨path, hlast.splitAt.mem_paths, hlast.named, range, hlookup, fun docId => ?_⟩
    have hlists : lists ++ (listOf groupFilterData root ++
          f.paths.flatMap (listAt groupFilterData)) =
        (lists ++ listOf groupFilterData root ++ before.flatMap (listAt groupFilterData)) ++
          ((path :: below).flatMap (listAt groupFilterData) ++
            after.flatMap (listAt groupFilterData)) := by
      rw [hlast.splitAt.paths_eq, ← cons_append, flatMap_append, flatMap_append]
      simp only [append_assoc]
    have hstart : range.start =
        (lists ++ listOf groupFilterData root ++
          before.flatMap (listAt groupFilterData)).length := by
      rw [hlast.start_eq, enterNode_snd, ← length_append]
    have hend : range.end_ =
        (lists ++ listOf groupFilterData root ++ before.flatMap (listAt groupFilterData)).length +
          ((path :: below).flatMap (listAt groupFilterData)).length := by
      rw [hlast.end_eq, hstart]
    rw [hlists, inRange_append hstart hend, exists_mem_flatMap_listAt]
    simp only [hlast.splitAt.mem_cons_below_iff, and_assoc]

variable (groupFilterData ids lists) in
/-- The range of the root holds the documents of all nodes from the last one on that has its name,
and all documents if there is none. -/
theorem inRange_lookup_root (hf : f.Sorted) (hnames : NamesDiffer f)
    (hroot : ∀ docId ∈ get groupFilterData root, ∃ path ∈ f.paths, path.getLast? = some root) :
    ∃ range, (mapGroupFilterToFilterId ⟨root, f⟩ groupFilterData ids lists).1.lookup root =
        some range ∧
      ∀ docId, InRange (mapGroupFilterToFilterId ⟨root, f⟩ groupFilterData ids lists).2 range
          docId ↔
        ∃ path' ∈ f.paths, (∀ path ∈ f.paths, path.getLast? = some root → ¬ path' < path) ∧
          ListedAt groupFilterData docId path' := by
  rw [mapGroupFilterToFilterId_snd, mapGroupFilterToFilterId, lookup_leaveNode, if_pos rfl,
    mapChildren_snd, enterNode_snd, append_assoc]
  refine ⟨_, rfl, fun docId => ?_⟩
  rcases lookup_mapChildren groupFilterData hf hnames root
      (enterNode groupFilterData root (ids, lists)) with
    ⟨hnone, hlookup⟩ | ⟨range, before, path, below, after, hlookup, hlast⟩
  · have hempty : docId ∉ get groupFilterData root := by
      intro hmem
      obtain ⟨path, hpath, hnamed⟩ := hroot docId hmem
      exact hnone path hpath hnamed
    have hget := congrArg (Option.getD · default) (hlookup.trans (lookup_enterNode root))
    rw [if_pos rfl] at hget
    rw [Table.get, hget, inRange_to_end rfl rfl]
    simp only [mem_append, or_and_right, exists_or, exists_mem_listOf, hempty, false_or,
      exists_mem_flatMap_listAt]
    refine exists_congr fun path' => and_congr_right fun _ => ?_
    exact (and_iff_right fun path hpath hnamed => absurd hnamed (hnone path hpath)).symm
  · have hlists : lists ++ (listOf groupFilterData root ++
          f.paths.flatMap (listAt groupFilterData)) =
        (lists ++ listOf groupFilterData root ++ before.flatMap (listAt groupFilterData)) ++
          (path :: (below ++ after)).flatMap (listAt groupFilterData) := by
      rw [hlast.splitAt.paths_eq, flatMap_append]
      simp only [append_assoc]
    have hstart : range.start =
        (lists ++ listOf groupFilterData root ++
          before.flatMap (listAt groupFilterData)).length := by
      rw [hlast.start_eq, enterNode_snd, ← length_append]
    rw [Table.get, hlookup, Option.getD_some, hlists]
    refine (inRange_to_end ?_ rfl docId).trans ?_
    · exact hstart
    rw [exists_mem_flatMap_listAt]
    simp only [hlast.splitAt.mem_cons_append_iff hf, and_assoc]
    refine exists_congr fun path' => and_congr_right fun _ => and_congr_left fun _ => ?_
    constructor
    · intro hle other hother hnamed hlt
      rcases lt_trichotomy other path with hbefore | rfl | hafter
      · exact hle (hlt.trans hbefore)
      · exact hle hlt
      · exact hlast.not_lt hf hnames hother hnamed hafter
    · exact fun hall => hall path hlast.splitAt.mem_paths hlast.named

end Numbered

end AdDelivery.SuffixMatch
