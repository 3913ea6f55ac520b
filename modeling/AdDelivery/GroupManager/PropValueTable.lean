import AdDelivery.Core.Containers
import AdDelivery.Core.KeyIndex
import AdDelivery.GroupManager.PropIdTable

/-!
# Value trees

The values of a property form a tree. Every value has an id; the vectors give its string and
the id of its parent, and a map for each value leads from a string to the child with it. Only
the two vectors are saved: `open_` derives the maps from them.
-/

namespace AdDelivery.GroupManager

open List

variable {UString : Type}

/-- Id 0 stands for no value, so all vectors begin with one unused entry. -/
structure PropValueTable (UString : Type) [Inhabited UString] where
  propName : String := ""
  propStrVec : List UString := [default]
  savePropStrNum : ℕ := 0
  parentIdVec : List ℕ := [0]
  saveParentIdNum : ℕ := 0
  childMapTable : List (Table UString ℕ) := [∅]
  valueIdTable : PropIdTable 32 := {}
  saveIndexNum : ℕ := 0
  saveValueNum : ℕ := 0

/-- The files of one property. -/
structure PropValueDir (UString : Type) where
  propStr : Option (List UString) := none
  parentId : Option (List ℕ) := none
  indexId : Option (List (BitVec 32)) := none
  valueId : Option (List (BitVec 32)) := none

namespace PropValueTable

variable [Inhabited UString] [DecidableEq UString]

/-- The loop of `insertPropValueId` from the value `pvId` on. What was inserted before an
overflow stays. -/
def insertPath (table : PropValueTable UString) (pvId : ℕ) :
    List UString → PropValueTable UString × Except MiningException ℕ
  | [] => (table, .ok pvId)
  | pathNode :: path =>
    match findIn table.childMapTable (pvId, pathNode) with
    | some child => table.insertPath child path
    | none =>
      let child := table.propStrVec.length % 2 ^ 32
      if child ≠ 0 then
        insertPath
          { table with
            childMapTable := putIn table.childMapTable (pvId, pathNode) child ++ [∅]
            propStrVec := table.propStrVec ++ [pathNode]
            parentIdVec := table.parentIdVec ++ [pvId] }
          child path
      else
        (table, .error ⟨table.propName ++ ": property value count is out of range",
          table.propStrVec.length, "PropValueTable::insertPropValueId"⟩)

def insertPropValueId (table : PropValueTable UString) (path : List UString) :
    PropValueTable UString × Except MiningException ℕ :=
  table.insertPath 0 path

/-- 0 for a path that was not inserted. -/
def propValueId (table : PropValueTable UString) (path : List UString) : ℕ :=
  (descend (findIn table.childMapTable) 0 path).getD 0

/-- The strings on the way up, then reversed. A walk that ends passes every id at most once. -/
def propValuePath (table : PropValueTable UString) (pvId : ℕ) : Option (List UString) :=
  (climb (table.parentIdVec.zip table.propStrVec) table.propStrVec.length pvId).map List.reverse

/-- The maps are built for as many values as an `unsigned int` can count. -/
def open_ (table : PropValueTable UString) (dir : PropValueDir UString) :
    Bool × PropValueTable UString :=
  let (propStrVec, savePropStrNum) := loadContainer dir.propStr table.propStrVec
  let (parentIdVec, saveParentIdNum) := loadContainer dir.parentId table.parentIdVec
  let (indexTable, saveIndexNum) := loadContainer dir.indexId table.valueIdTable.indexTable
  let (multiValueTable, saveValueNum) :=
    loadContainer dir.valueId table.valueIdTable.multiValueTable
  let table := { table with
    propStrVec, savePropStrNum, parentIdVec, saveParentIdNum, saveIndexNum, saveValueNum
    valueIdTable := { indexTable, multiValueTable } }
  let valueNum := propStrVec.length % 2 ^ 32
  if valueNum ≠ parentIdVec.length then
    (false, table)
  else
    (true, { table with
      childMapTable := mapsOf valueNum ((parentIdVec.zip propStrVec).take valueNum) 1 })

/-- Write the containers that have grown since they were last saved or loaded. The text file
that lists the values is never read. -/
def flush (table : PropValueTable UString) (dir : PropValueDir UString) :
    Bool × PropValueTable UString × PropValueDir UString :=
  if table.propStrVec.length % 2 ^ 32 ≠ table.parentIdVec.length then
    (false, table, dir)
  else
    let (propStr, savePropStrNum) :=
      saveContainer dir.propStr table.propStrVec table.savePropStrNum
    let (parentId, saveParentIdNum) :=
      saveContainer dir.parentId table.parentIdVec table.saveParentIdNum
    let (indexId, saveIndexNum) :=
      saveContainer dir.indexId table.valueIdTable.indexTable table.saveIndexNum
    let (valueId, saveValueNum) :=
      saveContainer dir.valueId table.valueIdTable.multiValueTable table.saveValueNum
    (true, { table with savePropStrNum, saveParentIdNum, saveIndexNum, saveValueNum },
      { propStr, parentId, indexId, valueId })

/-- The parent and the string of every value. -/
def keys (table : PropValueTable UString) : List (ℕ × UString) :=
  table.parentIdVec.zip table.propStrVec

/-- The maps are the inverse of the vectors, and a value comes after its parent. -/
structure WellFormed (table : PropValueTable UString) : Prop where
  parents : table.parentIdVec.length = table.propStrVec.length
  maps : table.childMapTable.length = table.propStrVec.length
  pos : 0 < table.propStrVec.length
  le : table.propStrVec.length ≤ 2 ^ 32
  index : Indexes (findIn table.childMapTable) table.keys 1
  parent_lt : ∀ id parent, 0 < id → table.parentIdVec[id]? = some parent → parent < id

/-- Whatever is kept of a table when values are inserted. -/
structure Extends (table table' : PropValueTable UString) : Prop where
  keys : table.keys <+: table'.keys
  savePropStrNum : table'.savePropStrNum = table.savePropStrNum
  saveParentIdNum : table'.saveParentIdNum = table.saveParentIdNum

omit [DecidableEq UString] in
theorem Extends.refl (table : PropValueTable UString) : table.Extends table :=
  ⟨prefix_refl _, rfl, rfl⟩

omit [DecidableEq UString] in
theorem Extends.trans {table₁ table₂ table₃ : PropValueTable UString}
    (h : table₁.Extends table₂) (h' : table₂.Extends table₃) : table₁.Extends table₃ :=
  ⟨h.keys.trans h'.keys, h'.savePropStrNum.trans h.savePropStrNum,
    h'.saveParentIdNum.trans h.saveParentIdNum⟩

variable {table : PropValueTable UString}

theorem WellFormed.length_keys (h : table.WellFormed) :
    table.keys.length = table.propStrVec.length := by
  rw [PropValueTable.keys, length_zip, h.parents, Nat.min_self]

theorem WellFormed.key_parent_lt (h : table.WellFormed) (id parent : ℕ) (label : UString)
    (hid : 0 < id) (hkey : table.keys[id]? = some (parent, label)) : parent < id :=
  h.parent_lt id parent hid (getElem?_zip_eq_some.mp hkey).1

theorem wellFormed_empty : ({} : PropValueTable UString).WellFormed := by
  refine ⟨rfl, rfl, Nat.one_pos, Nat.one_le_two_pow, ?_, ?_⟩
  · intro key i
    have hnone : findIn ([∅] : List (Table UString ℕ)) key = none := findIn_replicate 1 key
    rw [hnone]
    simp only [reduceCtorEq, false_iff, not_and]
    intro hi
    rw [getElem?_eq_none hi]
    exact nofun
  · intro id parent hid hparent
    rw [getElem?_eq_none hid] at hparent
    cases hparent

/-- A new value below `pvId`. -/
def addChild (table : PropValueTable UString) (pvId : ℕ) (pathNode : UString) :
    PropValueTable UString :=
  { table with
    childMapTable :=
      putIn table.childMapTable (pvId, pathNode) table.propStrVec.length ++ [∅]
    propStrVec := table.propStrVec ++ [pathNode]
    parentIdVec := table.parentIdVec ++ [pvId] }

section AddChild

variable {table : PropValueTable UString} {pvId : ℕ} {pathNode : UString}

theorem keys_addChild (h : table.WellFormed) (pvId : ℕ) (pathNode : UString) :
    (table.addChild pvId pathNode).keys = table.keys ++ [(pvId, pathNode)] :=
  zip_append h.parents

theorem WellFormed.addChild (h : table.WellFormed) (hlt : table.propStrVec.length < 2 ^ 32)
    (hid : pvId < table.propStrVec.length)
    (hnew : findIn table.childMapTable (pvId, pathNode) = none) :
    (table.addChild pvId pathNode).WellFormed := by
  refine ⟨?_, ?_, ?_, ?_, ?_, ?_⟩
  · simp [PropValueTable.addChild, h.parents]
  · simp [PropValueTable.addChild, h.maps]
  · simp [PropValueTable.addChild]
  · rw [PropValueTable.addChild, length_append]
    exact hlt
  · rw [keys_addChild h]
    refine h.index.push (by rw [h.length_keys]; exact h.pos) hnew fun key' => ?_
    rw [h.length_keys, PropValueTable.addChild, findIn_push]
    exact findIn_putIn (by rw [h.maps]; exact hid) _ key'
  · intro id parent hpos hparent
    rw [PropValueTable.addChild, getElem?_append] at hparent
    split at hparent
    · exact h.parent_lt id parent hpos hparent
    · rename_i hge
      rw [getElem?_singleton] at hparent
      split at hparent
      · have hle := h.parents
        cases hparent
        omega
      · cases hparent

end AddChild

/-- Inserting a path keeps the invariant, only adds values, and leads to the returned id. -/
theorem insertPath_spec (path : List UString) {pvId : ℕ} (h : table.WellFormed)
    (hid : pvId < table.propStrVec.length) : (table.insertPath pvId path).1.WellFormed ∧
      table.Extends (table.insertPath pvId path).1 ∧ ∀ id, (table.insertPath pvId path).2 = .ok id →
        descend (findIn (table.insertPath pvId path).1.childMapTable) pvId path = some id := by
  induction path generalizing table pvId with
  | nil =>
    refine ⟨h, .refl table, fun id hok => ?_⟩
    cases hok
    rfl
  | cons pathNode path ih =>
    have hstep (table' : PropValueTable UString) (child : ℕ) (hwf' : table'.WellFormed)
        (hchild : 0 < child) (hkey : table'.keys[child]? = some (pvId, pathNode)) :
        descend (findIn table'.childMapTable) pvId (pathNode :: path) =
          descend (findIn table'.childMapTable) child path := by
      rw [descend, (hwf'.index _ _).mpr ⟨hchild, hkey⟩, Option.bind_some]
    have hkept {table₁ table₂ : PropValueTable UString} (hext : table₁.Extends table₂)
        {child : ℕ} (hkey : table₁.keys[child]? = some (pvId, pathNode)) :
        table₂.keys[child]? = some (pvId, pathNode) := by
      obtain ⟨tail, htail⟩ := hext.keys
      rw [← htail, getElem?_append_left (List.getElem?_eq_some_iff.mp hkey).1]
      exact hkey
    cases hfind : findIn table.childMapTable (pvId, pathNode) with
    | some child =>
      obtain ⟨hpos, hkey⟩ := (h.index _ _).mp hfind
      have hlt : child < table.propStrVec.length := by
        rw [← h.length_keys]
        exact h.index.lt_length hfind
      obtain ⟨hwf', hext, hdescend⟩ := ih h hlt
      simp only [insertPath, hfind]
      refine ⟨hwf', hext, fun id hok => ?_⟩
      rw [hstep _ child hwf' hpos (hkept hext hkey)]
      exact hdescend id hok
    | none =>
      rcases Nat.lt_or_ge table.propStrVec.length (2 ^ 32) with hlt | hfull
      · have hmod : table.propStrVec.length % 2 ^ 32 = table.propStrVec.length :=
          Nat.mod_eq_of_lt hlt
        have hpos := h.pos
        have hwf₁ : (table.addChild pvId pathNode).WellFormed := h.addChild hlt hid hfind
        have hext₁ : table.Extends (table.addChild pvId pathNode) := by
          refine ⟨?_, rfl, rfl⟩
          rw [keys_addChild h]
          exact prefix_append _ _
        have hlt₁ : table.propStrVec.length <
            (table.addChild pvId pathNode).propStrVec.length := by
          simp [addChild]
        obtain ⟨hwf', hext, hdescend⟩ := ih hwf₁ hlt₁
        have hkey : (table.addChild pvId pathNode).keys[table.propStrVec.length]? =
            some (pvId, pathNode) := by
          rw [keys_addChild h, ← h.length_keys, getElem?_concat_length]
        have hinsert : table.insertPath pvId (pathNode :: path) =
            (table.addChild pvId pathNode).insertPath table.propStrVec.length path := by
          simp only [insertPath, hfind, hmod]
          rw [if_pos (by omega)]
          rfl
        rw [hinsert]
        refine ⟨hwf', hext₁.trans hext, fun id hok => ?_⟩
        rw [hstep _ _ hwf' hpos (hkept hext hkey)]
        exact hdescend id hok
      · -- all ids are taken: the table stays as it is
        have hmod : table.propStrVec.length % 2 ^ 32 = 0 := by
          have := h.le
          have heq : table.propStrVec.length = 2 ^ 32 := by omega
          rw [heq, Nat.mod_self]
        simp only [insertPath, hfind, hmod]
        refine ⟨h, .refl table, fun id hok => ?_⟩
        cases hok

theorem WellFormed.propValueId_eq_iff (h : table.WellFormed) {path : List UString} {id : ℕ}
    (hid : 0 < id) : table.propValueId path = id ↔ PathOf table.keys id path := by
  rw [← descend_eq_some_iff h.index, propValueId]
  cases hdescend : descend (findIn table.childMapTable) 0 path with
  | none =>
    simp only [Option.getD_none, reduceCtorEq, iff_false]
    omega
  | some id' => simp

theorem WellFormed.propValuePath_eq_iff (h : table.WellFormed) {path : List UString} {id : ℕ} :
    table.propValuePath id = some path ↔ PathOf table.keys id path := by
  have hclimb {labels : List UString} (hid : id ≤ table.propStrVec.length) :
      climb table.keys table.propStrVec.length id = some labels ↔
        PathOf table.keys id labels.reverse :=
    climb_eq_some_iff h.key_parent_lt hid
  rw [propValuePath, Option.map_eq_some_iff]
  by_cases hid : id ≤ table.propStrVec.length
  · constructor
    · rintro ⟨labels, hlabels, rfl⟩
      exact (hclimb hid).mp hlabels
    · intro hpath
      refine ⟨path.reverse, (hclimb hid).mpr ?_, reverse_reverse path⟩
      rw [reverse_reverse]
      exact hpath
  · -- there is no such id: neither walk takes a first step
    have hnone : table.keys[id]? = none := by
      apply getElem?_eq_none
      rw [h.length_keys]
      omega
    obtain ⟨id, rfl⟩ : ∃ n, id = n + 1 := ⟨id - 1, by omega⟩
    refine iff_of_false ?_ ?_
    · rintro ⟨labels, hlabels, _⟩
      cases hlen : table.propStrVec.length with
      | zero =>
        rw [hlen] at hlabels
        cases hlabels
      | succ n =>
        rw [hlen, climb, ← PropValueTable.keys, hnone] at hlabels
        cases hlabels
    · intro hpath
      cases hpath with
      | child _ _ hkey =>
        rw [hnone] at hkey
        cases hkey

/-- All the calls, one after another. -/
def insertAll (table : PropValueTable UString) (calls : List (List UString)) :
    PropValueTable UString :=
  calls.foldl (fun table path => (table.insertPropValueId path).1) table

theorem insertAll_spec (calls : List (List UString)) (h : table.WellFormed) :
    (table.insertAll calls).WellFormed ∧ table.Extends (table.insertAll calls) := by
  induction calls generalizing table with
  | nil => exact ⟨h, .refl table⟩
  | cons path calls ih =>
    obtain ⟨hwf, hext, _⟩ := insertPath_spec path h h.pos
    obtain ⟨hwf', hext'⟩ := ih hwf
    exact ⟨hwf', hext.trans hext'⟩

/-- A table that was never saved is loaded with its vectors, and with maps that find the same. -/
theorem WellFormed.reopen (h : table.WellFormed) (hlt : table.propStrVec.length < 2 ^ 32)
    (hstr : table.savePropStrNum = 0) (hparent : table.saveParentIdNum = 0)
    (dir : PropValueDir UString) (fresh : PropValueTable UString) :
    (table.flush dir).1 = true ∧ (fresh.open_ (table.flush dir).2.2).1 = true ∧
      (fresh.open_ (table.flush dir).2.2).2.propStrVec = table.propStrVec ∧
      (fresh.open_ (table.flush dir).2.2).2.parentIdVec = table.parentIdVec ∧
      ∀ key, findIn (fresh.open_ (table.flush dir).2.2).2.childMapTable key =
        findIn table.childMapTable key := by
  have hmod : table.propStrVec.length % 2 ^ 32 = table.propStrVec.length := Nat.mod_eq_of_lt hlt
  have hpos := h.pos
  have hsaved {α : Type} (file : Option (List α)) (container : List α)
      (hlen : container.length = table.propStrVec.length) :
      (saveContainer file container 0).1 = some container := by
    rw [saveContainer, hlen, if_neg (by omega)]
  have hflush : (table.flush dir).1 = true ∧
      (table.flush dir).2.2.propStr = some table.propStrVec ∧
      (table.flush dir).2.2.parentId = some table.parentIdVec := by
    rw [flush, hmod, h.parents, if_neg (by simp), hstr, hparent]
    exact ⟨rfl, hsaved _ _ rfl, hsaved _ _ h.parents⟩
  obtain ⟨hdone, hpropStr, hparentId⟩ := hflush
  have hopen : (fresh.open_ (table.flush dir).2.2).1 = true ∧
      (fresh.open_ (table.flush dir).2.2).2.propStrVec = table.propStrVec ∧
      (fresh.open_ (table.flush dir).2.2).2.parentIdVec = table.parentIdVec ∧
      (fresh.open_ (table.flush dir).2.2).2.childMapTable =
        mapsOf table.propStrVec.length (table.keys.take table.propStrVec.length) 1 := by
    simp only [open_, hpropStr, hparentId, loadContainer, Option.getD_some, hmod, h.parents, keys]
    simp
  obtain ⟨hopened, hstrs, hparents, hmaps⟩ := hopen
  refine ⟨hdone, hopened, hstrs, hparents, fun key => ?_⟩
  rw [hmaps, take_of_length_le (Nat.le_of_eq h.length_keys)]
  refine Indexes.congr (indexes_mapsOf ?_ ?_ ?_) h.index key
  · intro i j k hi hj hki hkj
    exact h.index.unique hi hj hki hkj
  · intro i parent label hi hkey
    have hlt : i < table.propStrVec.length := by
      rw [← h.length_keys]
      exact (List.getElem?_eq_some_iff.mp hkey).1
    exact (h.key_parent_lt i parent label hi hkey).trans hlt
  · rw [h.length_keys]
    exact hpos

/-- In every state that insertions lead to from an empty table: paths and ids determine each
other, an inserted path leads to the id that was returned, ids keep their paths however the
insertions go on, parents come before their children, and a table below the id limit finds the
same ids after it was saved and opened again. -/
theorem dictionary_of_insertAll (calls later : List (List UString))
    (table table' : PropValueTable UString) (htable : table = insertAll {} calls)
    (htable' : table' = insertAll table later) : (∀ path id, path ≠ [] → 0 < id →
      (table.propValueId path = id ↔ table.propValuePath id = some path)) ∧
    (∀ path id, (table.insertPropValueId path).2 = .ok id →
      (table.insertPropValueId path).1.propValueId path = id) ∧
    (∀ path id, 0 < id → table.propValuePath id = some path →
      table'.propValuePath id = some path ∧ table'.propValueId path = id) ∧
    (∀ id parent, 0 < id → table.parentIdVec[id]? = some parent → parent < id) ∧
    (table.propStrVec.length < 2 ^ 32 → ∀ dir, (table.flush dir).1 = true ∧
      (open_ {} (table.flush dir).2.2).1 = true ∧
      ∀ path, (open_ {} (table.flush dir).2.2).2.propValueId path = table.propValueId path) := by
  obtain ⟨hwf, hext⟩ := insertAll_spec calls
    (wellFormed_empty : ({} : PropValueTable UString).WellFormed)
  rw [← htable] at hwf hext
  obtain ⟨hwf', hext'⟩ := insertAll_spec later hwf
  rw [← htable'] at hwf' hext'
  refine ⟨?_, ?_, ?_, hwf.parent_lt, ?_⟩
  · intro path id _ hid
    rw [hwf.propValueId_eq_iff hid, hwf.propValuePath_eq_iff]
  · intro path id hok
    obtain ⟨_, _, hdescend⟩ := insertPath_spec path hwf hwf.pos
    have hfound := hdescend id hok
    rw [propValueId, insertPropValueId, hfound, Option.getD_some]
  · intro path id hid hpath
    have hpath' : PathOf table'.keys id path :=
      (hwf.propValuePath_eq_iff.mp hpath).extend hext'.keys
    exact ⟨hwf'.propValuePath_eq_iff.mpr hpath', (hwf'.propValueId_eq_iff hid).mpr hpath'⟩
  · intro hlt dir
    obtain ⟨hflush, hopen, _, _, hmaps⟩ :=
      hwf.reopen hlt hext.savePropStrNum hext.saveParentIdNum dir {}
    refine ⟨hflush, hopen, fun path => ?_⟩
    rw [propValueId, propValueId, funext hmaps]

/-- Two values that share their first node, and a table with one more root. -/
theorem dictionary_of_insertAll_colors :
    (insertAll {} [["color", "red"], ["color", "blue"]] : PropValueTable String).propValueId
        ["color", "blue"] = 3 ∧ (insertAll {} [["color", "red"], ["color", "blue"], ["size"]] :
        PropValueTable String).propValuePath 3 = some ["color", "blue"] := by
  have hdict := dictionary_of_insertAll [["color", "red"], ["color", "blue"]] [["size"]]
    (insertAll {} [["color", "red"], ["color", "blue"]] : PropValueTable String) _ rfl rfl
  have hid : (insertAll {} [["color", "red"], ["color", "blue"]] :
      PropValueTable String).propValueId ["color", "blue"] = 3 := by decide
  have hpath := (hdict.1 ["color", "blue"] 3 (by decide) (by decide)).mp hid
  exact ⟨hid, (hdict.2.2.1 _ 3 (by decide) hpath).1⟩

end PropValueTable

end AdDelivery.GroupManager
