import AdDelivery.GroupManager.GroupFilter
import Mathlib.Data.List.MinMax

/-!
# The greatest groups

A value has at most the count of the group it lies in, so 32 bits hold all counts as soon as
they hold those of the groups. Then a thread lists exactly the groups that fewer groups exceed
than the limit says, with everything below them that was counted.
-/

namespace AdDelivery.GroupManager

open List PropValueTable Forest UInt32

variable {UString S : Type}

section Counts

variable [Inhabited UString] {docs : List (BitVec 32)} {threads : List (List (BitVec 32))}

theorem docCount_threads (table : PropValueTable UString) (h : threads.flatten.Perm docs)
    (pvId : ℕ) :
    table.docCount docs pvId = (threads.map fun part => table.docCount part pvId).sum := by
  rw [← table.docCount_perm h, table.docCount_flatten]

theorem docCount_thread_le (table : PropValueTable UString) (h : threads.flatten.Perm docs)
    {part : List (BitVec 32)} (hpart : part ∈ threads) (pvId : ℕ) :
    table.docCount part pvId ≤ table.docCount docs pvId := by
  rw [docCount_threads table h]
  exact single_le_sum (fun _ _ => Nat.zero_le _) _
    (mem_map_of_mem (f := fun part => table.docCount part pvId) hpart)

variable [LinearOrder UString] {table : PropValueTable UString}

theorem docCount_eq_zero (h : table.WellFormed) (docs : List (BitVec 32)) {pvId : ℕ}
    (hid : table.propValueNum ≤ pvId) : table.docCount docs pvId = 0 := by
  have hpos : 0 < table.propValueNum := h.pos
  rw [docCount, if_neg (by omega), Nat.zero_add, sum_eq_zero_iff]
  intro count hcount
  obtain ⟨i, hi, rfl⟩ := mem_map.mp hcount
  rw [mem_range'_1] at hi
  have hnot : pvId ∉ table.getParentIds i := by
    intro hmem
    have hle := h.le_of_mem_getParentIds (by omega) hmem
    omega
  rw [count_eq_zero_of_not_mem hnot, Nat.zero_mul]

/-- If the property and its groups have counts of 32 bits, then so have all values. -/
theorem docCount_lt (h : table.WellFormed) {bound : ℕ} (hroot : table.docCount docs 0 < bound)
    (hgroups : ∀ group ∈ table.groups, table.docCount docs group.2 < bound) (pvId : ℕ) :
    table.docCount docs pvId < bound := by
  rcases Nat.lt_or_ge pvId table.propValueNum with hid | hid
  · induction pvId using Nat.strong_induction_on with
    | h pvId ih =>
      rcases Nat.eq_zero_or_pos pvId with rfl | hpos
      · exact hroot
      · have hlt : pvId < table.keys.length := by
          rw [h.length_keys]
          exact hid
        obtain ⟨⟨parent, text⟩, hkey⟩ : ∃ key, table.keys[pvId]? = some key :=
          ⟨_, getElem?_eq_getElem hlt⟩
        have hless := h.key_parent_lt pvId parent text hpos hkey
        rcases Nat.eq_zero_or_pos parent with rfl | hparent
        · exact hgroups (text, pvId) (h.mem_children.mpr ⟨hpos, hkey⟩)
        · have hle := h.docCount_le hpos (parent_of_key hkey) hparent docs
          exact hle.trans_lt (ih parent hless (hless.trans hid))
  · rw [docCount_eq_zero h docs hid]
    omega

variable {path : List UString} {text : UString}

section

variable (h : table.WellFormed)
include h

/-- The group that a value lies in has at least the count of the value. -/
theorem exists_group {pvId : ℕ} (hpath : PathOf table.keys pvId (text :: path)) :
    ∃ group, PathOf table.keys group [text] ∧
      ∀ docs, table.docCount docs pvId ≤ table.docCount docs group := by
  induction path using List.reverseRecOn generalizing pvId with
  | nil => exact ⟨pvId, hpath, fun _ => Nat.le_refl _⟩
  | append_singleton path last ih =>
    rw [← cons_append, pathOf_append_iff] at hpath
    obtain ⟨hid, parent, hkey, hparent⟩ := hpath
    obtain ⟨group, hgroup, hle⟩ := ih hparent
    have hpos : 0 < parent := by
      refine Nat.pos_of_ne_zero ?_
      rintro rfl
      exact cons_ne_nil _ _ (pathOf_root_iff.mp hparent)
    refine ⟨group, hgroup, fun docs => ?_⟩
    exact (h.docCount_le hid (parent_of_key hkey) hpos docs).trans (hle docs)

theorem pathOf_group_iff {group : ℕ} :
    PathOf table.keys group [text] ↔ (text, group) ∈ table.groups := by
  rw [groups, h.mem_children, ← nil_append [text], pathOf_append_iff]
  constructor
  · rintro ⟨hpos, parent, hkey, hparent⟩
    obtain rfl := pathOf_nil_iff.mp hparent
    exact ⟨hpos, hkey⟩
  · rintro ⟨hpos, hkey⟩
    exact ⟨hpos, 0, hkey, .root⟩

theorem hereditary_docCount (docs : List (BitVec 32)) :
    table.values.Hereditary (fun pvId => decide (table.docCount docs pvId ≠ 0)) True := by
  refine h.hereditary_valueForest ?_ (fun _ _ _ _ => trivial) _
  intro child parent hchild hparent hpos hcount
  have hle := h.docCount_le hchild hparent hpos docs
  simp only [decide_eq_true_eq] at hcount ⊢
  omega

theorem find_topGroups (k : ℕ) (docs : List (BitVec 32)) {pvId group : ℕ}
    (hpath : PathOf table.keys pvId (text :: path)) (hgroup : PathOf table.keys group [text])
    (hle : table.docCount docs pvId ≤ table.docCount docs group) :
    (table.topGroups k docs).find (text :: path) =
      if table.rank docs group < k ∧ table.docCount docs pvId ≠ 0 then
        some (table.docCount docs pvId)
      else none := by
  have hsorted := table.sorted_values
  have hfind := (h.find_values (cons_ne_nil text path)).mpr hpath
  have hfindgroup := (h.find_values (cons_ne_nil text [])).mpr hgroup
  rw [topGroups, find_map, find_filterRow hsorted.filter,
    find_filter hsorted (hereditary_docCount h docs),
    find_filter hsorted (hereditary_docCount h docs), hfind, hfindgroup]
  by_cases hrank : table.rank docs group < k
  · by_cases hzero : table.docCount docs pvId = 0
    · simp [Option.filter, hzero]
    · have hgroupzero : table.docCount docs group ≠ 0 := by omega
      simp [Option.filter, hrank, hzero, hgroupzero]
  · by_cases hzero : table.docCount docs group = 0
    · simp [Option.filter, hrank, hzero]
    · simp [Option.filter, hrank, hzero]

theorem pathOf_of_find_topGroups {k : ℕ} (hpath : path ≠ [])
    (hfind : ((table.topGroups k docs).find path).isSome) :
    ∃ pvId, PathOf table.keys pvId path := by
  have hsorted := table.sorted_values
  obtain ⟨text, rest, rfl⟩ := exists_cons_of_ne_nil hpath
  rw [topGroups, find_map, find_filterRow hsorted.filter,
    find_filter hsorted (hereditary_docCount h docs),
    find_filter hsorted (hereditary_docCount h docs)] at hfind
  cases hvalue : table.values.find (text :: rest) with
  | none =>
    rw [hvalue] at hfind
    simp at hfind
  | some pvId => exact ⟨pvId, (h.find_values hpath).mp hvalue⟩

end

theorem sorted_topGroups (table : PropValueTable UString) (k : ℕ) (docs : List (BitVec 32)) :
    (table.topGroups k docs).Sorted :=
  table.sorted_values.filter.filterRow.map _

end Counts

section Thread

variable [Inhabited UString] [LinearOrder UString] [Zero S] {utf8 : Utf8 UString}
  {request : FacetRequest UString} {docs : List (BitVec 32)}

/-- The counts of all properties and of their groups have 32 bits. -/
def FacetRequest.GroupCountsFit (request : FacetRequest UString) (docs : List (BitVec 32)) : Prop :=
  ∀ table ∈ request.tables, table.docCount docs 0 < 2 ^ 32 ∧
    ∀ group ∈ table.groups, table.docCount docs group.2 < 2 ^ 32

variable {table : PropValueTable UString}

theorem toNat_ofNat_docCount (hfit : request.GroupCountsFit docs)
    (htable : table ∈ request.tables) (pvId : ℕ) :
    (ofNat (table.docCount docs pvId)).toNat = table.docCount docs pvId :=
  toNat_ofNat_of_lt' (docCount_lt (request.wellFormed table htable)
    (hfit table htable).1 (hfit table htable).2 pvId)

theorem counted_iff (hfit : request.GroupCountsFit docs) (htable : table ∈ request.tables)
    (pvId : ℕ) : counted table docs pvId = decide (table.docCount docs pvId ≠ 0) := by
  refine decide_eq_decide.mpr (not_congr ?_)
  rw [← UInt32.toNat_inj, toNat_ofNat_docCount hfit htable]
  rfl

theorem countP_groupCounts (utf8 : Utf8 UString) (hfit : request.GroupCountsFit docs)
    (htable : table ∈ request.tables) (pvId : ℕ) :
    (groupCounts (countRoot (S := S) utf8 table docs)).countP
        (fun count => decide (ofNat (table.docCount docs pvId) < count)) =
      table.rank docs pvId := by
  rw [groupCounts, FacetRequest.row_countRoot (request.wellFormed table htable), List.map_map,
    countP_map, countP_filter]
  refine countP_congr fun group _ => ?_
  simp only [Function.comp_apply, countValue, lt_iff_toNat_lt,
    toNat_ofNat_docCount hfit htable, counted_iff hfit htable, Bool.and_eq_true, decide_eq_true_eq]
  omega

/-- With counts of 32 bits, a thread lists the greatest groups of its documents. -/
theorem children_threadRoot (hfit : request.GroupCountsFit docs) (htable : table ∈ request.tables) :
    (request.threadRoot (S := S) utf8 docs table).children =
      (table.topGroups (request.limit table) docs).map countValue := by
  have hcounted : counted table docs = fun pvId => decide (table.docCount docs pvId ≠ 0) :=
    funext (counted_iff hfit htable)
  have hrank (pvId : ℕ) : decide ((groupCounts (countRoot (S := S) utf8 table docs)).countP
      (fun count => decide ((countValue (S := S) (table.docCount docs pvId)).docCount <
        count)) < request.limit table) =
        decide (table.rank docs pvId < request.limit table) := by
    rw [← countP_groupCounts (S := S) utf8 hfit htable]
    rfl
  rw [FacetRequest.threadRoot, trimRoot]
  simp only [countRoot, hcounted]
  rw [Forest.map_filterRow, PropValueTable.topGroups, Forest.map_map]
  congr 1
  refine Forest.filterRow_congr fun entry _ => ?_
  rw [← hrank]
  simp only [countRoot, hcounted]

/-- With counts of 32 bits, the facets of a thread are the right ones for its documents. -/
theorem map_facetOf_thread (hfit : request.GroupCountsFit docs) :
    (rootItems (request.tables.map (request.threadRoot (S := S) utf8 docs))).map facetOf =
      request.report utf8 docs := by
  rw [map_facetOf_rootItems, flatMap_map]
  refine flatMap_congr fun table htable => ?_
  have hmap : ((table.topGroups (request.limit table) docs).map
      (countValue (S := S))).map (fun value => value.docCount.toNat) =
        table.topGroups (request.limit table) docs := by
    rw [Forest.map_map, PropValueTable.topGroups, Forest.map_map]
    congr 1
    funext pvId
    exact toNat_ofNat_docCount hfit htable pvId
  rw [children_threadRoot hfit htable, FacetRequest.threadRoot]
  congr 1
  exact toNat_ofNat_docCount hfit htable 0

omit [Zero S] in
/-- Where the facets of a thread are the right ones, all counts have 32 bits. -/
theorem groupCountsFit_of_report {rep : StringGroupRep UString S}
    (h : rep.map facetOf = request.report utf8 docs) : request.GroupCountsFit docs := by
  have hlt : ∀ facet ∈ request.report utf8 docs, facet.2.2 < 2 ^ 32 := by
    intro facet hfacet
    rw [← h] at hfacet
    obtain ⟨item, _, rfl⟩ := mem_map.mp hfacet
    exact item.docCount.toNat_lt
  intro table htable
  have hmem : ∀ facet ∈ rootFacets (utf8.decode table.propName) (table.docCount docs 0)
      (table.topGroups (request.limit table) docs), facet.2.2 < 2 ^ 32 :=
    fun facet hfacet => hlt facet (mem_flatMap.mpr ⟨table, htable, hfacet⟩)
  refine ⟨hmem _ (mem_cons_self ..), fun group hgroup => ?_⟩
  -- no group has a greater count than the one that is reported first
  obtain ⟨best, hbest, hmax⟩ : ∃ best ∈ table.groups, ∀ other ∈ table.groups,
      table.docCount docs other.2 ≤ table.docCount docs best.2 := by
    cases hbest : table.groups.argmax fun group => table.docCount docs group.2 with
    | none =>
      rw [argmax_eq_none] at hbest
      rw [hbest] at hgroup
      cases hgroup
    | some best =>
      exact ⟨best, argmax_mem hbest, fun other hother =>
        le_of_mem_argmax (f := fun group => table.docCount docs group.2) hother hbest⟩
  refine (hmax group hgroup).trans_lt ?_
  by_cases hzero : table.docCount docs best.2 = 0
  · rw [hzero]
    exact Nat.two_pow_pos 32
  · have hrank : table.rank docs best.2 = 0 := by
      rw [rank, countP_eq_zero]
      intro other hother
      simpa using hmax other hother
    obtain ⟨_, _, _, hpos⟩ := request.limit_spec htable
    have hrow : (best.1, table.docCount docs best.2) ∈
        (table.topGroups (request.limit table) docs).row := by
      rw [topGroups, row_map, row_filterRow, row_filter,
        row_values (request.wellFormed table htable)]
      refine mem_map.mpr ⟨best, ?_, rfl⟩
      simp [hbest, hzero, hrank, hpos]
    exact hmem _ (mem_cons_of_mem _ (mem_facets_of_row hrow))

section

variable (hfit : request.GroupCountsFit docs)
include hfit

/-- The count of every path in the list of a thread. -/
theorem countAt_thread (i : ℕ) (path : List UString) :
    countAt (request.tables.map (request.threadRoot (S := S) utf8 docs)) i path =
      request.tables[i]?.bind fun table =>
        if path = [] then some (ofNat (table.docCount docs 0))
        else ((table.topGroups (request.limit table) docs).find path).map ofNat := by
  rw [countAt, getElem?_map]
  cases htable : request.tables[i]? with
  | none => rfl
  | some table =>
    rw [Option.map_some, Option.bind_some,
      children_threadRoot hfit (mem_of_getElem? htable), Forest.find_map, Option.map_map]
    rfl

theorem countAt_thread_of_pathOf {i : ℕ} (htable : request.tables[i]? = some table)
    {pvId group : ℕ} {text : UString} {path : List UString}
    (hpath : PathOf table.keys pvId (text :: path)) (hgroup : PathOf table.keys group [text])
    (hle : table.docCount docs pvId ≤ table.docCount docs group) :
    countAt (request.tables.map (request.threadRoot (S := S) utf8 docs)) i (text :: path) =
      if table.rank docs group < request.limit table ∧ table.docCount docs pvId ≠ 0 then
        some (ofNat (table.docCount docs pvId))
      else none := by
  have hwf := request.wellFormed table (mem_of_getElem? htable)
  rw [countAt_thread hfit, htable, Option.bind_some, if_neg (cons_ne_nil text path),
    find_topGroups hwf _ docs hpath hgroup hle]
  split <;> rfl

theorem countAt_thread_isSome {i : ℕ} (htable : request.tables[i]? = some table)
    {path : List UString} (hpath : path ≠ [])
    (hcount : (countAt (request.tables.map (request.threadRoot (S := S) utf8 docs)) i
      path).isSome) : ∃ pvId, PathOf table.keys pvId path := by
  rw [countAt_thread hfit, htable, Option.bind_some, if_neg hpath, Option.isSome_map] at hcount
  exact pathOf_of_find_topGroups (request.wellFormed table (mem_of_getElem? htable)) hpath
    hcount

theorem sortedRoots_thread :
    SortedRoots (request.tables.map (request.threadRoot (S := S) utf8 docs)) := by
  intro root hroot
  obtain ⟨table, htable, rfl⟩ := mem_map.mp hroot
  rw [children_threadRoot hfit htable]
  exact (sorted_topGroups table _ docs).map _

end

theorem sameRoots_threads (docs' : List (BitVec 32)) :
    SameRoots (request.tables.map (request.threadRoot (S := S) utf8 docs))
      (request.tables.map (request.threadRoot (S := S) utf8 docs')) := by
  rw [SameRoots, List.map_map, List.map_map]
  rfl

end Thread

end AdDelivery.GroupManager
