import AdDelivery.GroupManager.StringGroupCounter

/-!
# The tree of the values

The maps of a table span a tree over its values. A counter lists this tree without the values
that were not counted; since a value is counted at most as often as its parent, only these
values are missing.
-/

namespace AdDelivery.GroupManager

open List Table Forest StringGroupCounter

variable {UString S : Type}

namespace PropValueTable

/-- The values below `pvId`, each with its id. -/
def valueForest [LinearOrder UString] (childMapTable : List (Table UString ℕ)) :
    ℕ → ℕ → Forest UString ℕ
  | 0, _ => .nil
  | fuel + 1, pvId =>
    .ofRow ((inOrder (childMapTable.getD pvId ∅)).map fun it =>
      (it.1, it.2, valueForest childMapTable fuel it.2))

variable [Inhabited UString] [LinearOrder UString] (table : PropValueTable UString)

/-- All values. -/
def values : Forest UString ℕ :=
  valueForest table.childMapTable (table.propValueNum - 1) 0

/-- The values at the top, which are the groups of a result. -/
def groups : List (UString × ℕ) :=
  inOrder (table.childMapTable.getD 0 ∅)

/-- The level of every value fits a byte, and so does the one below it. -/
def LevelsFit : Prop :=
  ∀ pvId path, table.propValuePath pvId = some path → path.length + 1 < 2 ^ 8

omit [Inhabited UString] in
theorem sorted_valueForest (childMapTable : List (Table UString ℕ)) (fuel pvId : ℕ) :
    (valueForest childMapTable fuel pvId).Sorted := by
  induction fuel generalizing pvId with
  | zero => trivial
  | succ fuel ih =>
    rw [valueForest]
    refine sorted_ofRow ?_ ?_
    · rw [List.map_map]
      exact pairwise_inOrder _
    · intro entry hentry
      obtain ⟨it, _, rfl⟩ := mem_map.mp hentry
      exact ih it.2

theorem sorted_values : table.values.Sorted :=
  sorted_valueForest _ _ _

section WellFormed

variable {table : PropValueTable UString}

theorem WellFormed.mem_children (h : table.WellFormed) {pvId child : ℕ} {text : UString} :
    (text, child) ∈ inOrder (table.childMapTable.getD pvId ∅) ↔
      0 < child ∧ table.keys[child]? = some (pvId, text) := by
  rw [mem_inOrder]
  exact h.index (pvId, text) child

theorem WellFormed.lt_of_key (h : table.WellFormed) {child : ℕ} {key : ℕ × UString}
    (hkey : table.keys[child]? = some key) : child < table.propValueNum := by
  have hlt := (List.getElem?_eq_some_iff.mp hkey).1
  rwa [h.length_keys] at hlt

omit [LinearOrder UString] in
theorem parent_of_key {child pvId : ℕ} {text : UString}
    (hkey : table.keys[child]? = some (pvId, text)) : table.parentIdVec[child]? = some pvId :=
  (getElem?_zip_eq_some.mp hkey).1

theorem row_values (h : table.WellFormed) : table.values.row = table.groups := by
  rw [values]
  cases hfuel : table.propValueNum - 1 with
  | zero =>
    -- the only id is 0, so there is no group
    rw [valueForest, row, eq_comm, eq_nil_iff_forall_not_mem]
    rintro ⟨text, child⟩ hmem
    obtain ⟨hchild, hkey⟩ := h.mem_children.mp hmem
    have hlt := h.lt_of_key hkey
    omega
  | succ fuel =>
    rw [valueForest, row_ofRow, List.map_map]
    exact map_id _

/-- The tree is complete: every path of strings leads to the same value as in the maps. -/
theorem WellFormed.find_valueForest (h : table.WellFormed) {fuel pvId : ℕ}
    (hfuel : table.propValueNum ≤ fuel + pvId + 1) {path : List UString} (hpath : path ≠ []) :
    (valueForest table.childMapTable fuel pvId).find path =
      descend (findIn table.childMapTable) pvId path := by
  induction fuel generalizing pvId path with
  | zero =>
    obtain ⟨text, path, rfl⟩ := exists_cons_of_ne_nil hpath
    rw [valueForest, descend]
    cases hfind : findIn table.childMapTable (pvId, text) with
    | none => rfl
    | some child =>
      obtain ⟨hchild, hkey⟩ := (h.index _ _).mp hfind
      have hlt := h.lt_of_key hkey
      have hless := h.key_parent_lt _ _ _ hchild hkey
      omega
  | succ fuel ih =>
    obtain ⟨text, path, rfl⟩ := exists_cons_of_ne_nil hpath
    have hfind : (inOrder (table.childMapTable.getD pvId ∅)).find?
        (fun it => decide (it.1 = text)) =
        (findIn table.childMapTable (pvId, text)).map fun child => (text, child) :=
      find?_inOrder _ text
    rw [valueForest, find_ofRow, descend, find?_map, Function.comp_def, hfind]
    cases hchild : findIn table.childMapTable (pvId, text) with
    | none => rfl
    | some child =>
      obtain ⟨hpos, hkey⟩ := (h.index _ _).mp hchild
      have hless := h.key_parent_lt _ _ _ hpos hkey
      rw [Option.map_some, Option.map_some, Option.bind_some]
      by_cases hrest : path = []
      · subst hrest
        rfl
      · rw [if_neg hrest]
        exact ih (by omega) hrest

theorem WellFormed.find_values (h : table.WellFormed) {path : List UString} (hpath : path ≠ [])
    {pvId : ℕ} : table.values.find path = some pvId ↔ PathOf table.keys pvId path := by
  rw [values, h.find_valueForest (by omega) hpath]
  exact descend_eq_some_iff h.index

/-- No value that passes lies below one that fails, if this holds for values and parents. -/
theorem WellFormed.hereditary_valueForest (h : table.WellFormed) {p : ℕ → Bool}
    (hp : ∀ child parent, 0 < child → table.parentIdVec[child]? = some parent → 0 < parent →
      p child → p parent) {ok : Prop} {pvId : ℕ}
    (hok : ∀ child, 0 < child → table.parentIdVec[child]? = some pvId → p child → ok) (fuel : ℕ) :
    (valueForest table.childMapTable fuel pvId).Hereditary p ok := by
  induction fuel generalizing ok pvId with
  | zero => trivial
  | succ fuel ih =>
    refine hereditary_ofRow fun entry hentry => ?_
    obtain ⟨⟨text, child⟩, hmem, rfl⟩ := mem_map.mp hentry
    obtain ⟨hchild, hkey⟩ := h.mem_children.mp hmem
    refine ⟨hok child hchild (parent_of_key hkey), ih fun below hbelow hparent => ?_⟩
    exact hp below child hbelow hparent hchild

end WellFormed

end PropValueTable

theorem items_ofRow_filter [LinearOrder UString] (level : ℕ) (p : ℕ → Bool)
    (value : ℕ → GroupValue S) (entries : List (UString × ℕ × Forest UString ℕ)) :
    items level (((ofRow entries).filter p).map value) = entries.flatMap fun entry =>
        if p entry.2.1 then
          toItem level entry.1 (value entry.2.1) ::
            items (level + 1) ((entry.2.2.filter p).map value)
        else [] := by
  induction entries with
  | nil => rfl
  | cons entry entries ih =>
    rw [Forest.ofRow, Forest.filter, flatMap_cons]
    split
    · rw [Forest.map, items, ih, cons_append]
    · rw [ih, nil_append]

section Listing

variable [Inhabited UString] [LinearOrder UString] [Zero S] {table : PropValueTable UString}

/-- What a value is listed with. -/
def countValue (count : ℕ) : GroupValue S := ⟨0, UInt32.ofNat count, 0⟩

/-- The value was counted, as far as 32 bits can tell. -/
def counted (table : PropValueTable UString) (docs : List (BitVec 32)) (pvId : ℕ) : Bool :=
  decide (UInt32.ofNat (table.docCount docs pvId) ≠ 0)

/-- The tree that is listed for a property after some documents. -/
def countRoot (utf8 : Utf8 UString) (table : PropValueTable UString) (docs : List (BitVec 32)) :
    GroupRoot UString S :=
  { text := utf8.decode table.propName
    value := countValue (table.docCount docs 0)
    children := (table.values.filter (counted table docs)).map
      fun pvId => countValue (table.docCount docs pvId) }

theorem appendGroupRep_eq (h : table.WellFormed) (hlevels : table.LevelsFit)
    {countTable : List UInt32} {docs : List (BitVec 32)} (hcount : ∀ pvId < table.propValueNum,
      countTable.getD pvId 0 = UInt32.ofNat (table.docCount docs pvId))
    (fuel : ℕ) {pvId : ℕ} {path : List UString} (hpath : PathOf table.keys pvId path)
    (hid : pvId < table.propValueNum) (valueStr : UString) :
    appendGroupRep (S := S) table.childMapTable countTable (fuel + 1) pvId path.length
        valueStr =
      toItem path.length valueStr (countValue (table.docCount docs pvId)) ::
        items (path.length + 1)
          (((PropValueTable.valueForest table.childMapTable fuel pvId).filter
            (counted table docs)).map fun pvId => countValue (table.docCount docs pvId)) := by
  have hlevel : path.length % 2 ^ 8 = path.length := by
    refine Nat.mod_eq_of_lt ?_
    have hlt := hlevels pvId path (h.propValuePath_eq_iff.mpr hpath)
    omega
  induction fuel generalizing pvId path valueStr with
  | zero =>
    rw [appendGroupRep, hlevel, hcount pvId hid]
    have hnil : (inOrder (table.childMapTable.getD pvId ∅)).flatMap
        (fun _ => ([] : StringGroupRep UString S)) = [] :=
      flatMap_eq_nil_iff.mpr fun _ _ => rfl
    simp only [appendGroupRep, ite_self, hnil]
    rfl
  | succ fuel ih =>
    rw [appendGroupRep, hlevel, hcount pvId hid, PropValueTable.valueForest, items_ofRow_filter,
      flatMap_map]
    congr 1
    refine flatMap_congr fun it hit => ?_
    obtain ⟨text, child⟩ := it
    obtain ⟨hchild, hkey⟩ := h.mem_children.mp hit
    have hlt := h.lt_of_key hkey
    have hbelow : PathOf table.keys child (path ++ [text]) := .child hpath hchild hkey
    have hdepth : (path ++ [text]).length = path.length + 1 := length_append
    have hlevel' : (path ++ [text]).length % 2 ^ 8 = (path ++ [text]).length := by
      refine Nat.mod_eq_of_lt ?_
      have hfit := hlevels child _ (h.propValuePath_eq_iff.mpr hbelow)
      omega
    have hrest := ih hbelow hlt text hlevel'
    rw [hdepth] at hrest
    simp only [hcount child hlt, hrest, counted, decide_eq_true_eq]

/-- A counter lists its tree. -/
theorem getGroupRep_ofDocs (h : table.WellFormed) (hlevels : table.LevelsFit)
    (utf8 : Utf8 UString) (docs : List (BitVec 32)) (itemList : StringGroupRep UString S) :
    (ofDocs table docs).getGroupRep utf8 itemList =
      itemList ++ rootItems [countRoot utf8 table docs] := by
  have hpos : 0 < table.propValueNum := h.pos
  have htable : (ofDocs table docs).addCountForParentId.propValueTable =
      table := by
    unfold addCountForParentId
    simp only [length_ofDocs, if_neg hpos.ne', propValueTable_ofDocs]
  obtain ⟨fuel, hfuel⟩ : ∃ n, table.propValueNum = n + 1 := ⟨table.propValueNum - 1, by omega⟩
  have hlist := appendGroupRep_eq (S := S) h hlevels
    (fun pvId hlt => getD_addCountForParentId table docs hlt) fuel
    .root hpos (utf8.decode table.propName)
  unfold getGroupRep
  simp only [htable, hfuel]
  rw [length_nil] at hlist
  rw [hlist, rootItems, flatMap_singleton, countRoot, PropValueTable.values, hfuel]
  rfl

end Listing

end AdDelivery.GroupManager
