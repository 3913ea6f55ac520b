import AdDelivery.Core.Pruning
import AdDelivery.GroupManager.GroupLimit
import AdDelivery.GroupManager.GroupRep
import AdDelivery.GroupManager.ValueTree

/-!
# Facets of a request

A filter has a counter for each group property. It lists the counters one after another, and
cuts the list down when the request has limits. The threads of a search count their own
documents with a filter each, and the master adds the lists of the others to its own.
-/

namespace AdDelivery.GroupManager

open List Forest StringGroupCounter

/-! ## Preorder lists determine their trees

The levels in a preorder list say where every row ends, so that the list has one reading as a
list of trees.
-/

section Preorder

variable {UString Score α : Type}

/-- The nodes of a forest in preorder, its rows at `level`. -/
def facets (level : ℕ) : Forest UString α → List (ℕ × UString × α)
  | .nil => []
  | .node text count children siblings =>
    (level, text, count) :: (facets (level + 1) children ++ facets level siblings)

theorem map_facets {β : Type} (h : α → β) (level : ℕ) (f : Forest UString α) :
    (facets level f).map (fun facet => (facet.1, facet.2.1, h facet.2.2)) =
      facets level (f.map h) := by
  induction f generalizing level with
  | nil => rfl
  | node text count children siblings ihc ihs =>
    rw [facets, map_cons, map_append, ihc, ihs]
    rfl

theorem facets_eq_nodes (level : ℕ) (f : Forest UString UInt32) :
    facets level f = nodes level f := by
  induction f generalizing level with
  | nil => rfl
  | node text count children siblings ihc ihs => rw [facets, ihc, ihs, nodes]

theorem length_facets (level : ℕ) (f : Forest UString α) : (facets level f).length = f.size := by
  induction f generalizing level with
  | nil => rfl
  | node text count children siblings ihc ihs =>
    rw [facets, length_cons, length_append, ihc, ihs, size]

variable {level : ℕ}

theorem mem_facets_of_row {f : Forest UString α} {text : UString} {count : α}
    (h : (text, count) ∈ f.row) : (level, text, count) ∈ facets level f := by
  induction f with
  | nil => cases h
  | node text' count' children siblings _ ih =>
    rw [row, mem_cons] at h
    rw [facets, mem_cons, mem_append]
    rcases h with heq | h
    · cases heq
      exact Or.inl rfl
    · exact Or.inr (Or.inr (ih h))

/-- A list that is empty or begins below a level. -/
def FacetsEndBelow (level : ℕ) (rest : List (ℕ × UString × α)) : Prop :=
  ∀ facet ∈ rest.head?, facet.1 < level

theorem FacetsEndBelow.facets_append {rest : List (ℕ × UString × α)}
    (h : FacetsEndBelow level rest) (f : Forest UString α) :
    FacetsEndBelow (level + 1) (facets level f ++ rest) := by
  cases f with
  | nil => exact fun facet hfacet => Nat.lt_succ_of_lt (h facet hfacet)
  | node text count children siblings =>
    rintro facet ⟨⟩
    exact Nat.lt_succ_self level

/-- A row is read up to the first item below it. -/
theorem facets_append_inj {f g : Forest UString α} {rest rest' : List (ℕ × UString × α)}
    (hrest : FacetsEndBelow level rest) (hrest' : FacetsEndBelow level rest')
    (h : facets level f ++ rest = facets level g ++ rest') : f = g ∧ rest = rest' := by
  induction f generalizing level g rest rest' with
  | nil =>
    cases g with
    | nil => exact ⟨rfl, h⟩
    | node text count children siblings =>
      rw [facets, nil_append] at h
      exact absurd (hrest (level, text, count) (h ▸ rfl)) (Nat.lt_irrefl level)
  | node text count children siblings ihc ihs =>
    cases g with
    | nil =>
      rw [facets, nil_append] at h
      exact absurd (hrest' (level, text, count) (h ▸ rfl)) (Nat.lt_irrefl level)
    | node text' count' children' siblings' =>
      rw [facets, facets, cons_append, cons_append, List.cons.injEq, append_assoc,
        append_assoc] at h
      obtain ⟨hhead, htail⟩ := h
      obtain ⟨hchildren, hsiblings⟩ := ihc (hrest.facets_append siblings)
        (hrest'.facets_append siblings') htail
      obtain ⟨hrow, heq⟩ := ihs hrest hrest' hsiblings
      cases hhead
      exact ⟨by rw [hchildren, hrow], heq⟩

/-- What is listed of a property. -/
def rootFacets (text : UString) (count : α) (children : Forest UString α) :
    List (ℕ × UString × α) :=
  (0, text, count) :: facets 1 children

variable (roots : List (GroupRoot UString Score))

theorem map_nodeOf_rootItems_eq : (rootItems roots).map nodeOf = roots.flatMap fun root =>
      rootFacets root.text root.value.docCount (root.children.map GroupValue.docCount) := by
  rw [rootItems, map_flatMap]
  refine flatMap_congr fun root _ => ?_
  rw [map_cons, map_nodeOf_items, rootFacets, facets_eq_nodes]
  rfl

theorem facetsEndBelow_roots : FacetsEndBelow 1 ((rootItems roots).map nodeOf) := by
  cases roots with
  | nil => exact nofun
  | cons root roots =>
    rintro facet ⟨⟩
    exact Nat.one_pos

/-- Results with the same list have the same counts. -/
theorem countAt_eq_of_map_nodeOf [LinearOrder UString]
    {roots others : List (GroupRoot UString Score)}
    (h : (rootItems roots).map nodeOf = (rootItems others).map nodeOf) (i : ℕ)
    (path : List UString) : countAt roots i path = countAt others i path := by
  induction roots generalizing others i with
  | nil =>
    cases others with
    | nil => rfl
    | cons other others => cases h
  | cons root roots ih =>
    cases others with
    | nil => cases h
    | cons other others =>
      have hcons (root : GroupRoot UString Score) (roots : List (GroupRoot UString Score)) :
          (rootItems (root :: roots)).map nodeOf =
            (0, root.text, root.value.docCount) ::
              (facets 1 (root.children.map GroupValue.docCount) ++
                (rootItems roots).map nodeOf) := by
        rw [map_nodeOf_rootItems_eq, flatMap_cons, ← map_nodeOf_rootItems_eq]
        rfl
      rw [hcons, hcons, List.cons.injEq] at h
      obtain ⟨hhead, htail⟩ := h
      obtain ⟨hchildren, hrest⟩ := facets_append_inj (facetsEndBelow_roots roots)
        (facetsEndBelow_roots others) htail
      cases i with
      | succ i => exact ih hrest i
      | zero =>
        simp only [countAt, getElem?_cons_zero, Option.bind_some]
        split
        · rw [Prod.mk.injEq, Prod.mk.injEq] at hhead
          rw [hhead.2.2]
        · rw [← find_map, ← find_map, hchildren]

end Preorder

section GroupFilter

variable {UString S : Type}

structure GroupPropParam where
  property : String
  groupTop : Int32

structure GroupFilter (UString : Type) [Inhabited UString] where
  groupProps : List GroupPropParam
  groupCounters : List (StringGroupCounter UString)

/-- The last limit that the request has for each property. -/
def grouptopForProps (groupProps : List GroupPropParam) : Table String ℤ :=
  groupProps.foldl (fun limits prop => Finmap.insert prop.property prop.groupTop.toInt limits) ∅

namespace GroupFilter

variable [Inhabited UString]

/-- A document that passes all labels. -/
def addDoc (filter : GroupFilter UString) (doc : BitVec 32) : GroupFilter UString :=
  { filter with groupCounters := filter.groupCounters.map (·.addDoc doc) }

variable [LinearOrder UString] [Zero S]

def getGroupRep (utf8 : Utf8 UString) (filter : GroupFilter UString)
    (groupRep : StringGroupRep UString S) : Option (StringGroupRep UString S) :=
  let groupRep := filter.groupCounters.foldl
    (fun groupRep counter => counter.getGroupRep utf8 groupRep) groupRep
  let needResize := filter.groupProps.any fun prop => 0 < prop.groupTop.toInt
  if needResize then resizeTo utf8 (grouptopForProps filter.groupProps) groupRep
  else some groupRep

end GroupFilter

/-- Add the results of the other threads to the result of the first one. -/
def mergeThreadParams [LinearOrder UString] :
    List (StringGroupRep UString S) → StringGroupRep UString S
  | [] => []
  | masterGroupRep :: reps => reps.foldl mergeStringGroup masterGroupRep

/-- A request in which every group property has a limit, and the tables of its properties. -/
structure FacetRequest (UString : Type) [Inhabited UString] [LinearOrder UString] where
  groupProps : List GroupPropParam
  tables : List (PropValueTable UString)
  limited : ∀ prop ∈ groupProps, 0 < prop.groupTop.toInt
  named : ∀ table ∈ tables, ∃ prop ∈ groupProps, prop.property = table.propName
  wellFormed : ∀ table ∈ tables, table.WellFormed
  levelsFit : ∀ table ∈ tables, table.LevelsFit

namespace FacetRequest

variable [Inhabited UString] [LinearOrder UString] [Zero S]

/-- The facets of the documents that one thread matches. -/
def threadRep (utf8 : Utf8 UString) (request : FacetRequest UString) (docs : List (BitVec 32)) :
    Option (StringGroupRep UString S) :=
  let filter : GroupFilter UString :=
    { groupProps := request.groupProps
      groupCounters := request.tables.map create }
  (docs.foldl GroupFilter.addDoc filter).getGroupRep utf8 []

/-- The facets of a parallel search. -/
def parallelRep (utf8 : Utf8 UString) (request : FacetRequest UString)
    (threads : List (List (BitVec 32))) : Option (StringGroupRep UString S) :=
  (threads.mapM (request.threadRep utf8)).map mergeThreadParams

def limit (request : FacetRequest UString) (table : PropValueTable UString) : ℕ :=
  toSizeT (((grouptopForProps request.groupProps).lookup table.propName).getD 0)

end FacetRequest

namespace PropValueTable

variable [Inhabited UString] [LinearOrder UString]

/-- How many groups have more documents than a value. -/
def rank (table : PropValueTable UString) (docs : List (BitVec 32)) (pvId : ℕ) : ℕ :=
  table.groups.countP fun group =>
    decide (table.docCount docs pvId < table.docCount docs group.2)

/-- The `k` greatest groups, and all that have as many documents as the last of them, with the
values below them that were counted. -/
def topGroups (table : PropValueTable UString) (k : ℕ) (docs : List (BitVec 32)) :
    Forest UString ℕ :=
  ((table.values.filter fun pvId => decide (table.docCount docs pvId ≠ 0)).filterRow
    fun pvId => decide (table.rank docs pvId < k)).map (table.docCount docs)

end PropValueTable

namespace FacetRequest

variable [Inhabited UString] [LinearOrder UString] [Zero S]

/-- The facets of the documents: every property, and its greatest groups, with their counts
over all of them. -/
def report (utf8 : Utf8 UString) (request : FacetRequest UString) (docs : List (BitVec 32)) :
    List (ℕ × UString × ℕ) :=
  request.tables.flatMap fun table =>
    rootFacets (utf8.decode table.propName) (table.docCount docs 0)
      (table.topGroups (request.limit table) docs)

end FacetRequest

/-- What is reported of an item. -/
def facetOf (item : OntologyRepItem UString S) : ℕ × UString × ℕ :=
  (item.level, item.text, item.docCount.toNat)

theorem map_facetOf_rootItems (roots : List (GroupRoot UString S)) :
    (rootItems roots).map facetOf = roots.flatMap fun root =>
      rootFacets root.text root.value.docCount.toNat
        (root.children.map fun value => value.docCount.toNat) := by
  have hfacet : (facetOf : OntologyRepItem UString S → ℕ × UString × ℕ) =
      (fun facet => (facet.1, facet.2.1, facet.2.2.toNat)) ∘ nodeOf := rfl
  rw [hfacet, ← List.map_map, map_nodeOf_rootItems_eq, map_flatMap]
  refine flatMap_congr fun root _ => ?_
  rw [rootFacets, map_cons, map_facets, Forest.map_map, rootFacets]

theorem facetOf_injective : Function.Injective
    fun facet : ℕ × UString × UInt32 => (facet.1, facet.2.1, facet.2.2.toNat) := by
  rintro ⟨level, text, count⟩ ⟨level', text', count'⟩ h
  simp only [Prod.mk.injEq, UInt32.toNat_inj] at h
  obtain ⟨rfl, rfl, rfl⟩ := h
  rfl

variable {rep rep' : StringGroupRep UString S}

theorem map_nodeOf_of_map_facetOf (h : rep.map facetOf = rep'.map facetOf) :
    rep.map nodeOf = rep'.map nodeOf := by
  refine map_injective_iff.mpr facetOf_injective ?_
  rw [List.map_map, List.map_map]
  exact h

theorem map_facetOf_of_map_nodeOf (h : rep.map nodeOf = rep'.map nodeOf) :
    rep.map facetOf = rep'.map facetOf := by
  have hmap := congrArg (List.map fun facet : ℕ × UString × UInt32 =>
    (facet.1, facet.2.1, facet.2.2.toNat)) h
  rw [List.map_map, List.map_map] at hmap
  exact hmap

theorem lookup_grouptopForProps {groupProps : List GroupPropParam} {propName : String}
    (h : ∃ prop ∈ groupProps, prop.property = propName) :
    ∃ prop ∈ groupProps, (grouptopForProps groupProps).lookup propName =
      some prop.groupTop.toInt := by
  induction groupProps using List.reverseRecOn with
  | nil =>
    obtain ⟨prop, hprop, _⟩ := h
    cases hprop
  | append_singleton groupProps last ih =>
    have hfold : grouptopForProps (groupProps ++ [last]) =
        Finmap.insert last.property last.groupTop.toInt (grouptopForProps groupProps) := by
      rw [grouptopForProps, foldl_append]
      rfl
    rw [hfold, Table.lookup_insert_eq]
    by_cases hlast : propName = last.property
    · exact ⟨last, mem_append_right _ (mem_singleton_self last), if_pos hlast⟩
    · obtain ⟨prop, hprop, hname⟩ := h
      rcases mem_append.mp hprop with hprop | hprop
      · obtain ⟨prop', hprop', hlookup⟩ := ih ⟨prop, hprop, hname⟩
        refine ⟨prop', mem_append_left _ hprop', ?_⟩
        rw [if_neg hlast]
        exact hlookup
      · rw [mem_singleton] at hprop
        rw [hprop] at hname
        exact absurd hname.symm hlast

namespace FacetRequest

variable [Inhabited UString] [LinearOrder UString] [Zero S] {table : PropValueTable UString}

theorem limit_spec (request : FacetRequest UString) (h : table ∈ request.tables) : ∃ grouptop,
      (grouptopForProps request.groupProps).lookup table.propName = some grouptop ∧
        request.limit table = toSizeT grouptop ∧ 0 < request.limit table := by
  obtain ⟨prop, hprop, hlookup⟩ := lookup_grouptopForProps (request.named table h)
  have hpos := request.limited prop hprop
  have hlt := Int32.toInt_lt prop.groupTop
  refine ⟨_, hlookup, by rw [limit, hlookup, Option.getD_some], ?_⟩
  rw [limit, hlookup, Option.getD_some, toSizeT]
  omega

/-- What a thread lists of one property. -/
def threadRoot (utf8 : Utf8 UString) (request : FacetRequest UString) (docs : List (BitVec 32))
    (table : PropValueTable UString) : GroupRoot UString S :=
  trimRoot (request.limit table) (countRoot utf8 table docs)

variable {request : FacetRequest UString}

theorem rootLimit_countRoot {utf8 : Utf8 UString} (h : table ∈ request.tables)
    (docs : List (BitVec 32)) (roots : List (GroupRoot UString S)) :
    rootLimit utf8 (grouptopForProps request.groupProps) roots (countRoot utf8 table docs) =
      request.limit table := by
  obtain ⟨grouptop, hlookup, hlimit, _⟩ := request.limit_spec h
  rw [rootLimit, limitOf, countRoot, utf8.convertString_decode, hlookup, hlimit, Option.getD_some]

omit [LinearOrder UString] in
theorem foldl_addDoc (docs : List (BitVec 32)) (filter : GroupFilter UString) :
    docs.foldl GroupFilter.addDoc filter = { filter with
        groupCounters := filter.groupCounters.map fun counter =>
          docs.foldl addDoc counter } := by
  induction docs generalizing filter with
  | nil => simp
  | cons doc docs ih => simp [ih, GroupFilter.addDoc]

variable (utf8 : Utf8 UString)

theorem foldl_getGroupRep (docs : List (BitVec 32)) {tables : List (PropValueTable UString)}
    (hwf : ∀ table ∈ tables, table.WellFormed) (hlevels : ∀ table ∈ tables, table.LevelsFit)
    (groupRep : StringGroupRep UString S) : (tables.map fun table => ofDocs table docs).foldl
      (fun groupRep counter => counter.getGroupRep utf8 groupRep) groupRep =
        groupRep ++ rootItems (tables.map fun table => countRoot utf8 table docs) := by
  induction tables generalizing groupRep with
  | nil => exact (append_nil groupRep).symm
  | cons table tables ih =>
    have hlist := getGroupRep_ofDocs (hwf table (mem_cons_self ..))
      (hlevels table (mem_cons_self ..)) utf8 docs groupRep
    rw [map_cons, foldl_cons, hlist, ih (fun table' h => hwf table' (mem_cons_of_mem _ h))
        fun table' h => hlevels table' (mem_cons_of_mem _ h)]
    simp [rootItems]

/-- Every property after which another one begins has a counted group. -/
def ThreadReadable (request : FacetRequest UString) (docs : List (BitVec 32)) : Prop :=
  ∀ table ∈ request.tables.dropLast, ∃ group ∈ table.groups, counted table docs group.2

theorem row_countRoot {utf8 : Utf8 UString} (h : table.WellFormed) (docs : List (BitVec 32)) :
    (countRoot (S := S) utf8 table docs).children.row =
      (table.groups.filter fun group => counted table docs group.2).map
        fun group => (group.1, countValue (table.docCount docs group.2)) := by
  rw [countRoot, row_map, row_filter, PropValueTable.row_values h]

variable {docs : List (BitVec 32)}

theorem threadReadable_iff {utf8 : Utf8 UString} {roots : List (GroupRoot UString S)} :
    Readable (rootLimit utf8 (grouptopForProps request.groupProps) roots)
        (request.tables.map fun table => countRoot (S := S) utf8 table docs) ↔
      request.ThreadReadable docs := by
  have hrow : ∀ table ∈ request.tables,
      ((countRoot (S := S) utf8 table docs).children.row ≠ [] ↔
        ∃ group ∈ table.groups, counted table docs group.2) := by
    intro table htable
    rw [row_countRoot (request.wellFormed table htable), Ne, map_eq_nil_iff]
    simp
  constructor
  · intro h table htable
    refine (hrow table (mem_of_mem_dropLast htable)).mp (h.1 _ ?_)
    rw [← map_dropLast]
    exact mem_map_of_mem htable
  · intro h
    constructor
    · intro root hroot
      rw [← map_dropLast] at hroot
      obtain ⟨table, htable, rfl⟩ := mem_map.mp hroot
      exact (hrow table (mem_of_mem_dropLast htable)).mpr (h table htable)
    · intro root hroot hzero
      obtain ⟨table, htable, rfl⟩ := mem_map.mp hroot
      obtain ⟨_, _, _, hpos⟩ := request.limit_spec htable
      rw [rootLimit_countRoot htable] at hzero
      omega

/-- The list before it is cut down. -/
theorem threadRep_eq_getGroupRep (request : FacetRequest UString) (docs : List (BitVec 32)) :
    request.threadRep (S := S) utf8 docs =
      if request.groupProps.any fun prop => 0 < prop.groupTop.toInt then
        resizeTo utf8 (grouptopForProps request.groupProps)
          (rootItems (request.tables.map fun table => countRoot utf8 table docs))
      else some (rootItems (request.tables.map fun table => countRoot utf8 table docs)) := by
  have hcounters : (request.tables.map create).map
      (fun counter => docs.foldl addDoc counter) =
        request.tables.map fun table => StringGroupCounter.ofDocs table docs := by
    rw [List.map_map]
    rfl
  unfold threadRep
  simp only [foldl_addDoc, GroupFilter.getGroupRep, hcounters,
    foldl_getGroupRep utf8 docs request.wellFormed request.levelsFit, nil_append]

/-- A thread lists the trees of its counters, trimmed. -/
theorem threadRep_of_readable (h : request.ThreadReadable docs) :
    request.threadRep (S := S) utf8 docs =
      some (rootItems (request.tables.map (request.threadRoot utf8 docs))) := by
  rw [threadRep_eq_getGroupRep]
  by_cases hneed : request.groupProps.any fun prop => 0 < prop.groupTop.toInt
  · rw [if_pos hneed, resizeTo_of_readable (threadReadable_iff.mpr h), List.map_map]
    congr 2
    refine map_congr_left fun table htable => ?_
    rw [Function.comp_apply, rootLimit_countRoot htable, threadRoot]
  · -- without a group property there is no counter
    have hnone : request.tables = [] := by
      rw [eq_nil_iff_forall_not_mem]
      intro table htable
      obtain ⟨prop, hprop, _⟩ := request.named table htable
      exact hneed (any_eq_true.mpr ⟨prop, hprop, by simpa using request.limited prop hprop⟩)
    rw [if_neg hneed, hnone]
    rfl

theorem threadRep_eq_none (h : ¬ request.ThreadReadable docs) :
    request.threadRep (S := S) utf8 docs = none := by
  have htable : ∃ table, table ∈ request.tables := by
    by_contra hnone
    refine h fun table htable => ?_
    exact absurd ⟨table, mem_of_mem_dropLast htable⟩ hnone
  obtain ⟨table, htable⟩ := htable
  obtain ⟨prop, hprop, _⟩ := request.named table htable
  have hneed : request.groupProps.any fun prop => 0 < prop.groupTop.toInt :=
    any_eq_true.mpr ⟨prop, hprop, by simpa using request.limited prop hprop⟩
  rw [threadRep_eq_getGroupRep, if_pos hneed]
  exact resizeTo_eq_none fun hread => h (threadReadable_iff.mp hread)

end FacetRequest

end GroupFilter

end AdDelivery.GroupManager
