import AdDelivery.Core.Containers
import AdDelivery.Core.KeyIndex
import AdDelivery.Core.Run
import AdDelivery.GroupManager.PropIdTable

/-!
# Attribute names and values

Names and values of attributes get ids, a value within its name: the same value under two names
has two ids. The vectors that lead from ids to strings are saved; the maps that lead from
strings to ids are derived from them whenever the table is opened.
-/

namespace AdDelivery.AttrManager

open List Nat
open GroupManager (PropIdTable MiningException)

variable {UString : Type}

/-- Id 0 is reserved, so the vectors begin with one entry for it. -/
structure AttrTable (UString : Type) [Inhabited UString] where
  nameStrVec : List UString := [default]
  saveNameStrNum : ℕ := 0
  nameStrMap : Table UString ℕ := ∅
  valueStrVec : List UString := [default]
  saveValueStrNum : ℕ := 0
  nameIdVec : List ℕ := [0]
  saveNameIdNum : ℕ := 0
  valueStrTable : List (Table UString ℕ) := []
  valueIdTable : PropIdTable 32 := {}
  saveIndexNum : ℕ := 0
  saveValueNum : ℕ := 0

/-- The files of one table. -/
structure AttrDir (UString : Type) where
  nameStr : Option (List UString) := none
  valueStr : Option (List UString) := none
  nameId : Option (List ℕ) := none
  indexId : Option (List (BitVec 32)) := none
  valueId : Option (List (BitVec 32)) := none

namespace AttrTable

variable [Inhabited UString] [DecidableEq UString]

/-- The map that the vector of names determines. -/
def namesOf (nameStrVec : List UString) : Table UString ℕ :=
  ((nameStrVec.drop 0).zipIdx 0).foldl (fun map entry => Finmap.insert entry.1 entry.2 map) ∅

variable (table : AttrTable UString)

def open_ (dir : AttrDir UString) : AttrTable UString :=
  let (nameStrVec, saveNameStrNum) := loadContainer dir.nameStr table.nameStrVec
  let (valueStrVec, saveValueStrNum) := loadContainer dir.valueStr table.valueStrVec
  let (nameIdVec, saveNameIdNum) := loadContainer dir.nameId table.nameIdVec
  let (indexTable, saveIndexNum) := loadContainer dir.indexId table.valueIdTable.indexTable
  let (multiValueTable, saveValueNum) :=
    loadContainer dir.valueId table.valueIdTable.multiValueTable
  { nameStrVec, saveNameStrNum, valueStrVec, saveValueStrNum, nameIdVec, saveNameIdNum,
    saveIndexNum, saveValueNum
    nameStrMap := namesOf nameStrVec
    valueStrTable := mapsOf nameStrVec.length (nameIdVec.zip valueStrVec) 0
    valueIdTable := { indexTable, multiValueTable } }

/-- Nothing is written when the numbers of names disagree. The text file that lists names and
values is never read. -/
def flush (dir : AttrDir UString) : Bool × AttrTable UString × AttrDir UString :=
  if table.valueStrTable.length % 2 ^ 32 ≠ table.nameStrVec.length then
    (false, table, dir)
  else
    let (nameStr, saveNameStrNum) :=
      saveContainer dir.nameStr table.nameStrVec table.saveNameStrNum
    let (valueStr, saveValueStrNum) :=
      saveContainer dir.valueStr table.valueStrVec table.saveValueStrNum
    let (nameId, saveNameIdNum) := saveContainer dir.nameId table.nameIdVec table.saveNameIdNum
    let (indexId, saveIndexNum) :=
      saveContainer dir.indexId table.valueIdTable.indexTable table.saveIndexNum
    let (valueId, saveValueNum) :=
      saveContainer dir.valueId table.valueIdTable.multiValueTable table.saveValueNum
    (true, { table with
        saveNameStrNum, saveValueStrNum, saveNameIdNum, saveIndexNum, saveValueNum },
      { nameStr, valueStr, nameId, indexId, valueId })

/-- The map is written before the new id is tested. -/
def insertNameId (name : UString) : AttrTable UString × Except MiningException ℕ :=
  let nameId := table.nameStrVec.length % 2 ^ 32
  match table.nameStrMap.lookup name with
  | some nameId => (table, .ok nameId)
  | none =>
    let table := { table with nameStrMap := Finmap.insert name nameId table.nameStrMap }
    if nameId ≠ 0 then
      ({ table with
        nameStrVec := table.nameStrVec ++ [name]
        valueStrTable := table.valueStrTable ++ [∅] }, .ok nameId)
    else
      (table, .error ⟨"attribute name count is out of range", table.nameStrVec.length,
        "AttrTable::nameId"⟩)

def nameId (name : UString) : ℕ :=
  (table.nameStrMap.lookup name).getD 0

/-- The name has to be one of the table. -/
def insertValueId (nameId : ℕ) (value : UString) : AttrTable UString × Except MiningException ℕ :=
  let valueId := table.valueStrVec.length % 2 ^ 32
  match findIn table.valueStrTable (nameId, value) with
  | some valueId => (table, .ok valueId)
  | none =>
    let table :=
      { table with valueStrTable := putIn table.valueStrTable (nameId, value) valueId }
    if valueId ≠ 0 then
      ({ table with
        valueStrVec := table.valueStrVec ++ [value]
        nameIdVec := table.nameIdVec ++ [nameId] }, .ok valueId)
    else
      (table, .error ⟨"attribute value count is out of range", table.valueStrVec.length,
        "AttrTable::valueId"⟩)

def valueId (nameId : ℕ) (value : UString) : ℕ :=
  (findIn table.valueStrTable (nameId, value)).getD 0

def nameStr (nameId : ℕ) : Option UString := table.nameStrVec[nameId]?

def valueStr (valueId : ℕ) : Option UString :=
  table.valueStrVec[valueId]?

def valueId2NameId (valueId : ℕ) : Option ℕ :=
  table.nameIdVec[valueId]?

end AttrTable

open AttrTable

inductive AttrCall (UString : Type)
  | insertNameId (name : UString)
  | insertValueId (nameId : ℕ) (value : UString)
  | reload (fresh : Bool)

/-- The table, its files, and all ids that were handed out so far. -/
structure AttrSession (UString : Type) [Inhabited UString] where
  table : AttrTable UString
  dir : AttrDir UString
  names : List (UString × ℕ) := []
  values : List ((ℕ × UString) × ℕ) := []

open AttrSession

section Session

variable [Inhabited UString] [DecidableEq UString]

/-- A table that was opened on an empty directory. -/
def AttrSession.start : AttrSession UString := { table := open_ {} {}, dir := {} }

/-- One call. A value is only inserted under a name of the table. A reload writes the files and
opens them, in the same object or in a new one. -/
inductive AttrStep :
    AttrSession UString → AttrCall UString → AttrSession UString → Prop
  | name {session : AttrSession UString} {name : UString} {id : ℕ}
      (hok : (session.table.insertNameId name).2 = .ok id) :
      AttrStep session (.insertNameId name)
        { session with
          table := (session.table.insertNameId name).1
          names := (name, id) :: session.names }
  | value {session : AttrSession UString} {nameId : ℕ} {value : UString} {id : ℕ}
      (hname : nameId < session.table.valueStrTable.length)
      (hok : (session.table.insertValueId nameId value).2 = .ok id) :
      AttrStep session (.insertValueId nameId value)
        { session with
          table := (session.table.insertValueId nameId value).1
          values := ((nameId, value), id) :: session.values }
  | reload {session : AttrSession UString} {fresh : Bool} :
      AttrStep session (.reload fresh)
        { session with
          table := (if fresh then {} else (session.table.flush session.dir).2.1).open_
            (session.table.flush session.dir).2.2
          dir := (session.table.flush session.dir).2.2 }

/-- The name and the string of every value. -/
def AttrTable.keys (table : AttrTable UString) : List (ℕ × UString) :=
  table.nameIdVec.zip table.valueStrVec

/-- Maps and vectors are inverse to each other, and values belong to names of the table. -/
structure AttrTable.WellFormed (table : AttrTable UString) : Prop where
  names : Indexes table.nameStrMap.lookup table.nameStrVec 0
  values : Indexes (findIn table.valueStrTable) table.keys 0
  maps : table.valueStrTable.length = table.nameStrVec.length
  nameIds : table.nameIdVec.length = table.valueStrVec.length
  range : ∀ (i nameId : ℕ) (value : UString), table.keys[i]? = some (nameId, value) →
    nameId < table.nameStrVec.length
  namePos : 0 < table.nameStrVec.length
  valuePos : 0 < table.valueStrVec.length

/-- Fewer than `2 ^ 31` names and values. -/
def AttrTable.Small (table : AttrTable UString) : Prop :=
  table.nameStrVec.length < 2 ^ 31 ∧ table.valueStrVec.length < 2 ^ 31

/-- The files hold the vectors as far as they were counted. -/
structure AttrSession.FilesMatch (session : AttrSession UString) : Prop where
  nameStr : Saved session.dir.nameStr session.table.nameStrVec session.table.saveNameStrNum
    [default]
  valueStr : Saved session.dir.valueStr session.table.valueStrVec session.table.saveValueStrNum
    [default]
  nameId : Saved session.dir.nameId session.table.nameIdVec session.table.saveNameIdNum [0]

/-- Every id that was handed out leads back to what it was handed out for. -/
structure AttrSession.Meaningful (session : AttrSession UString) : Prop where
  names : ∀ entry ∈ session.names, session.table.nameStrVec[entry.2]? = some entry.1
  values : ∀ entry ∈ session.values, session.table.keys[entry.2]? = some entry.1

structure AttrSession.Sound (session : AttrSession UString) : Prop where
  wellFormed : session.table.WellFormed
  small : session.table.Small
  files : session.FilesMatch
  meaningful : session.Meaningful

omit [Inhabited UString] in
theorem indexes_namesOf {nameStrVec : List UString}
    (huniq : ∀ (i j : ℕ) (name : UString), nameStrVec[i]? = some name →
      nameStrVec[j]? = some name → i = j) :
    Indexes (namesOf nameStrVec).lookup nameStrVec 0 := by
  refine @indexes_rebuild UString _ (Table UString ℕ) (fun map name => map.lookup name)
    (fun map name i => Finmap.insert name i map) (fun _ => True) nameStrVec 0 ?_ ?_ ∅ trivial ?_
    (zero_le _)
  · intro map i name _ _ _
    exact ⟨trivial, fun name' => Table.lookup_insert_eq map name name' i⟩
  · intro i j name _ _ hi hj
    exact huniq i j name hi hj
  · intro name
    exact Finmap.lookup_empty name

section Insert

variable {table : AttrTable UString}

section

variable (h : table.WellFormed)
include h

theorem AttrTable.WellFormed.length_keys : table.keys.length = table.valueStrVec.length := by
  rw [keys, length_zip, h.nameIds, min_self]

/-- Inserting a name finds its id or appends it. -/
theorem AttrTable.WellFormed.insertNameId (hsmall : table.Small) (name : UString) :
    ∃ id, (table.insertNameId name).2 = .ok id ∧
      (table.insertNameId name).1.nameStrVec[id]? = some name ∧
      ((table.insertNameId name).1 = table ∨ (table.insertNameId name).1.WellFormed ∧
          (table.insertNameId name).1 = { table with
              nameStrMap := Finmap.insert name table.nameStrVec.length table.nameStrMap
              nameStrVec := table.nameStrVec ++ [name]
              valueStrTable := table.valueStrTable ++ [∅] }) := by
  have hmod : table.nameStrVec.length % 2 ^ 32 = table.nameStrVec.length := by
    have := hsmall.1
    exact mod_eq_of_lt (by omega)
  have hpos := h.namePos
  cases hlookup : table.nameStrMap.lookup name with
  | some id =>
    have hinsert : table.insertNameId name = (table, .ok id) := by
      simp [AttrTable.insertNameId, hlookup]
    rw [hinsert]
    exact ⟨id, rfl, ((h.names name id).mp hlookup).2, Or.inl rfl⟩
  | none =>
    have hinsert : table.insertNameId name =
        ({ table with
          nameStrMap := Finmap.insert name table.nameStrVec.length table.nameStrMap
          nameStrVec := table.nameStrVec ++ [name]
          valueStrTable := table.valueStrTable ++ [∅] }, .ok table.nameStrVec.length) := by
      simp only [AttrTable.insertNameId, hlookup, hmod]
      rw [if_pos (by omega)]
    rw [hinsert]
    refine ⟨_, rfl, getElem?_concat_length, Or.inr ⟨⟨?_, ?_, ?_, h.nameIds, ?_, ?_, ?_⟩, rfl⟩⟩
    · exact h.names.push (zero_le _) hlookup fun name' =>
        Table.lookup_insert_eq table.nameStrMap name name' _
    · intro key i
      rw [findIn_push]
      exact h.values key i
    · simp [h.maps]
    · intro i nameId value hkey
      have := h.range i nameId value hkey
      rw [length_append]
      exact Nat.lt_add_right 1 this
    · simp
    · exact h.valuePos

/-- Inserting a value under a name of the table finds its id or appends it. -/
theorem AttrTable.WellFormed.insertValueId (hsmall : table.Small) {nameId : ℕ}
    (hname : nameId < table.valueStrTable.length) (value : UString) :
    ∃ id, (table.insertValueId nameId value).2 = .ok id ∧
      (table.insertValueId nameId value).1.keys[id]? = some (nameId, value) ∧
      ((table.insertValueId nameId value).1 = table ∨
        (table.insertValueId nameId value).1.WellFormed ∧ (table.insertValueId nameId value).1 =
            { table with
              valueStrTable := putIn table.valueStrTable (nameId, value) table.valueStrVec.length
              valueStrVec := table.valueStrVec ++ [value]
              nameIdVec := table.nameIdVec ++ [nameId] }) := by
  have hmod : table.valueStrVec.length % 2 ^ 32 = table.valueStrVec.length := by
    have := hsmall.2
    exact mod_eq_of_lt (by omega)
  have hpos := h.valuePos
  cases hlookup : findIn table.valueStrTable (nameId, value) with
  | some id =>
    have hinsert : table.insertValueId nameId value = (table, .ok id) := by
      simp [AttrTable.insertValueId, hlookup]
    rw [hinsert]
    exact ⟨id, rfl, ((h.values _ id).mp hlookup).2, Or.inl rfl⟩
  | none =>
    have hinsert : table.insertValueId nameId value =
        ({ table with
          valueStrTable := putIn table.valueStrTable (nameId, value) table.valueStrVec.length
          valueStrVec := table.valueStrVec ++ [value]
          nameIdVec := table.nameIdVec ++ [nameId] }, .ok table.valueStrVec.length) := by
      simp only [AttrTable.insertValueId, hlookup, hmod]
      rw [if_pos (by omega)]
    have hkeys : (table.nameIdVec ++ [nameId]).zip (table.valueStrVec ++ [value]) =
        table.keys ++ [(nameId, value)] := zip_append h.nameIds
    rw [hinsert]
    refine ⟨_, rfl, ?_, Or.inr ⟨⟨h.names, ?_, ?_, ?_, ?_, h.namePos, ?_⟩, rfl⟩⟩
    · rw [keys, hkeys, ← h.length_keys, getElem?_concat_length]
    · rw [keys, hkeys]
      refine h.values.push (zero_le _) hlookup fun key' => ?_
      rw [h.length_keys]
      exact findIn_putIn hname _ key'
    · simp [h.maps]
    · simp [h.nameIds]
    · intro i nameId' value' hkey
      rw [keys, hkeys, getElem?_append] at hkey
      split at hkey
      · exact h.range i nameId' value' hkey
      · rw [getElem?_singleton] at hkey
        split at hkey
        · cases hkey
          rw [← h.maps]
          exact hname
        · cases hkey
    · simp

theorem AttrTable.WellFormed.of_insertNameId (hsmall : table.Small) (name : UString) :
    (table.insertNameId name).1.WellFormed := by
  obtain ⟨_, _, _, heq | ⟨hwf, _⟩⟩ := h.insertNameId hsmall name
  · rw [heq]
    exact h
  · exact hwf

theorem AttrTable.WellFormed.of_insertValueId (hsmall : table.Small) {nameId : ℕ}
    (hname : nameId < table.valueStrTable.length) (value : UString) :
    (table.insertValueId nameId value).1.WellFormed := by
  obtain ⟨_, _, _, heq | ⟨hwf, _⟩⟩ := h.insertValueId hsmall hname value
  · rw [heq]
    exact h
  · exact hwf

/-- Opening files that hold the vectors of a good table gives a good table with them. -/
theorem AttrTable.WellFormed.open_ {old : AttrTable UString} {dir : AttrDir UString}
    (hname : (loadContainer dir.nameStr old.nameStrVec).1 = table.nameStrVec)
    (hvalue : (loadContainer dir.valueStr old.valueStrVec).1 = table.valueStrVec)
    (hid : (loadContainer dir.nameId old.nameIdVec).1 = table.nameIdVec) :
    (old.open_ dir).WellFormed ∧ (old.open_ dir).nameStrVec = table.nameStrVec ∧
      (old.open_ dir).keys = table.keys := by
  have hnames : (old.open_ dir).nameStrVec = table.nameStrVec := hname
  have hvalues : (old.open_ dir).valueStrVec = table.valueStrVec := hvalue
  have hids : (old.open_ dir).nameIdVec = table.nameIdVec := hid
  have hkeys : (old.open_ dir).keys = table.keys := by
    rw [keys, hids, hvalues, keys]
  have hmap : (old.open_ dir).nameStrMap = namesOf (old.open_ dir).nameStrVec := rfl
  have htable : (old.open_ dir).valueStrTable =
      mapsOf (old.open_ dir).nameStrVec.length (old.open_ dir).keys 0 := rfl
  refine ⟨⟨?_, ?_, ?_, ?_, ?_, ?_, ?_⟩, hnames, hkeys⟩
  · rw [hmap, hnames]
    refine indexes_namesOf fun i j name hi hj => ?_
    exact h.names.unique (zero_le i) (zero_le j) hi hj
  · rw [htable, hnames, hkeys]
    refine indexes_mapsOf ?_ ?_ (zero_le _)
    · intro i j key hi hj hki hkj
      exact h.values.unique hi hj hki hkj
    · intro i nameId value _ hkey
      exact h.range i nameId value hkey
  · rw [htable, length_mapsOf]
  · rw [hids, hvalues, h.nameIds]
  · rw [hnames, hkeys]
    exact h.range
  · rw [hnames]
    exact h.namePos
  · rw [hvalues]
    exact h.valuePos

end

end Insert

/-- A reload brings back the vectors, and the counts match the files again. -/
theorem AttrSession.Sound.reload {session : AttrSession UString} (h : session.Sound)
    (old : AttrTable UString) (hold : old = {} ∨ old = (session.table.flush session.dir).2.1) :
    (session.table.flush session.dir).1 = true ∧ Sound { session with
          table := old.open_ (session.table.flush session.dir).2.2
          dir := (session.table.flush session.dir).2.2 } := by
  obtain ⟨hwf, hsmall, hfiles, hmean⟩ := h
  have hnameLt : session.table.nameStrVec.length < 2 ^ 32 := by
    have := hsmall.1
    omega
  have hvalueLt : session.table.valueStrVec.length < 2 ^ 32 := by
    have := hsmall.2
    omega
  have hidLt : session.table.nameIdVec.length < 2 ^ 32 := hwf.nameIds ▸ hvalueLt
  have hflush : session.table.flush session.dir = (true, (session.table.flush session.dir).2) ∧
      (session.table.flush session.dir).2.2.nameStr = (saveContainer session.dir.nameStr
        session.table.nameStrVec session.table.saveNameStrNum).1 ∧
      (session.table.flush session.dir).2.2.valueStr = (saveContainer session.dir.valueStr
        session.table.valueStrVec session.table.saveValueStrNum).1 ∧
      (session.table.flush session.dir).2.2.nameId = (saveContainer session.dir.nameId
        session.table.nameIdVec session.table.saveNameIdNum).1 ∧
      (session.table.flush session.dir).2.1.nameStrVec = session.table.nameStrVec ∧
      (session.table.flush session.dir).2.1.valueStrVec = session.table.valueStrVec ∧
      (session.table.flush session.dir).2.1.nameIdVec = session.table.nameIdVec := by
    rw [flush, hwf.maps, mod_eq_of_lt hnameLt, if_neg (by simp)]
    exact ⟨rfl, rfl, rfl, rfl, rfl, rfl, rfl⟩
  obtain ⟨hdone, hnameFile, hvalueFile, hidFile, hnameVec, hvalueVec, hidVec⟩ := hflush
  have hname := hfiles.nameStr.save hnameLt
  have hvalue := hfiles.valueStr.save hvalueLt
  have hid := hfiles.nameId.save hidLt
  rw [← hnameFile] at hname
  rw [← hvalueFile] at hvalue
  rw [← hidFile] at hid
  have holdName : old.nameStrVec = [default] ∨ old.nameStrVec = session.table.nameStrVec :=
    hold.imp (fun heq => by rw [heq]) fun heq => by rw [heq, hnameVec]
  have holdValue : old.valueStrVec = [default] ∨ old.valueStrVec = session.table.valueStrVec :=
    hold.imp (fun heq => by rw [heq]) fun heq => by rw [heq, hvalueVec]
  have holdId : old.nameIdVec = [0] ∨ old.nameIdVec = session.table.nameIdVec :=
    hold.imp (fun heq => by rw [heq]) fun heq => by rw [heq, hidVec]
  obtain ⟨hwf', hnames, hkeys⟩ := hwf.open_ (loadContainer_of_getD hname holdName)
    (loadContainer_of_getD hvalue holdValue) (loadContainer_of_getD hid holdId)
  have hvalues : (old.open_ (session.table.flush session.dir).2.2).valueStrVec =
      session.table.valueStrVec := loadContainer_of_getD hvalue holdValue
  refine ⟨congrArg Prod.fst hdone, hwf', ?_, ?_, ?_⟩
  · exact ⟨hnames.symm ▸ hsmall.1, hvalues.symm ▸ hsmall.2⟩
  · exact ⟨saved_loadContainer hname hnameLt holdName,
      saved_loadContainer hvalue hvalueLt holdValue, saved_loadContainer hid hidLt holdId⟩
  · refine ⟨fun entry hentry => ?_, fun entry hentry => ?_⟩
    · rw [hnames]
      exact hmean.names entry hentry
    · rw [hkeys]
      exact hmean.values entry hentry

theorem AttrSession.sound_start : (start : AttrSession UString).Sound := by
  have hzero (i : ℕ) (a : UString) (hi : ([default] : List UString)[i]? = some a) : i = 0 := by
    have := (List.getElem?_eq_some_iff.mp hi).1
    simpa using this
  have hzero' (i : ℕ) (a : ℕ × UString) (hi : ([(0, default)] : List (ℕ × UString))[i]? = some a) :
      i = 0 := by
    have := (List.getElem?_eq_some_iff.mp hi).1
    simpa using this
  refine ⟨⟨?_, ?_, ?_, rfl, ?_, one_pos, one_pos⟩, ?_, ?_, ?_⟩
  · refine indexes_namesOf fun i j name hi hj => ?_
    rw [hzero i name hi, hzero j name hj]
  · refine indexes_mapsOf ?_ ?_ (zero_le _)
    · intro i j key _ _ hi hj
      rw [hzero' i key hi, hzero' j key hj]
    · intro i nameId value _ hkey
      rw [hzero' i _ hkey] at hkey
      cases hkey
      exact one_pos
  · exact length_mapsOf ..
  · intro i nameId value hkey
    rw [hzero' i _ hkey] at hkey
    cases hkey
    exact one_pos
  · have hone : 1 < 2 ^ 31 := by decide
    exact ⟨hone, hone⟩
  · exact ⟨⟨le_refl 1, rfl⟩, ⟨le_refl 1, rfl⟩, ⟨le_refl 1, rfl⟩⟩
  · exact ⟨nofun, nofun⟩

omit [Inhabited UString] [DecidableEq UString] in
theorem getElem?_append_of_some {α : Type} {xs ys : List α} {i : ℕ} {a : α}
    (h : xs[i]? = some a) : (xs ++ ys)[i]? = some a := by
  rw [getElem?_append_left (List.getElem?_eq_some_iff.mp h).1]
  exact h

/-- One call keeps the table sound as long as it is small. -/
theorem AttrStep.sound {session session' : AttrSession UString} {call : AttrCall UString}
    (hstep : AttrStep session call session') (h : session.Sound)
    (hsmall : session'.table.Small) : session'.Sound := by
  cases hstep with
  | @name name id hok =>
    obtain ⟨id', hok', hstr, hcases⟩ := h.wellFormed.insertNameId h.small name
    rw [hok] at hok'
    cases hok'
    rcases hcases with hsame | ⟨hwf, hnew⟩
    · simp only [hsame] at hstr ⊢
      refine ⟨h.wellFormed, h.small, ?_, ?_, h.meaningful.values⟩
      · exact ⟨h.files.nameStr, h.files.valueStr, h.files.nameId⟩
      · exact forall_mem_cons.mpr ⟨hstr, h.meaningful.names⟩
    · rw [hnew] at hstr
      refine ⟨hwf, hsmall, ?_, ⟨?_, ?_⟩⟩
      · simp only [hnew]
        exact ⟨h.files.nameStr.push name, h.files.valueStr, h.files.nameId⟩
      · simp only [hnew]
        refine forall_mem_cons.mpr ⟨hstr, fun entry hentry => ?_⟩
        exact getElem?_append_of_some (h.meaningful.names entry hentry)
      · simp only [hnew]
        exact h.meaningful.values
  | @value nameId value id hname hok =>
    obtain ⟨id', hok', hkey, hcases⟩ := h.wellFormed.insertValueId h.small hname value
    rw [hok] at hok'
    cases hok'
    rcases hcases with hsame | ⟨hwf, hnew⟩
    · simp only [hsame] at hkey ⊢
      refine ⟨h.wellFormed, h.small, ?_, h.meaningful.names, ?_⟩
      · exact ⟨h.files.nameStr, h.files.valueStr, h.files.nameId⟩
      · exact forall_mem_cons.mpr ⟨hkey, h.meaningful.values⟩
    · have hkeys : (session.table.insertValueId nameId value).1.keys =
          session.table.keys ++ [(nameId, value)] := by
        rw [hnew]
        exact zip_append h.wellFormed.nameIds
      refine ⟨hwf, hsmall, ?_, ⟨?_, ?_⟩⟩
      · simp only [hnew]
        exact ⟨h.files.nameStr, h.files.valueStr.push value, h.files.nameId.push nameId⟩
      · simp only [hnew]
        exact h.meaningful.names
      · simp only [hkeys]
        rw [hkeys] at hkey
        refine forall_mem_cons.mpr ⟨hkey, fun entry hentry => ?_⟩
        exact getElem?_append_of_some (h.meaningful.values entry hentry)
  | @reload fresh =>
    refine (h.reload _ ?_).2
    cases fresh with
    | true => exact Or.inl rfl
    | false => exact Or.inr rfl

/-- A step after which the table is still small. -/
def SmallStep (session : AttrSession UString) (call : AttrCall UString)
    (session' : AttrSession UString) : Prop :=
  AttrStep session call session' ∧ session'.table.Small

/-- Over all insertions and reloads, ids and strings determine each other, every id handed out
keeps its meaning, and no further insertion or save fails. -/
theorem dictionary_across_reloads (calls : List (AttrCall UString))
    (session : AttrSession UString) (hrun : Run SmallStep .start calls session) :
    (∀ entry ∈ session.names, ∀ entry' ∈ session.names, entry.1 = entry'.1 ↔ entry.2 = entry'.2) ∧
    (∀ entry ∈ session.values, ∀ entry' ∈ session.values, entry.1 = entry'.1 ↔ entry.2 = entry'.2) ∧
    (∀ entry ∈ session.names, session.table.nameStr entry.2 = some entry.1 ∧
      session.table.nameId entry.1 = entry.2) ∧
    (∀ entry ∈ session.values, session.table.valueId2NameId entry.2 = some entry.1.1 ∧
      session.table.valueStr entry.2 = some entry.1.2 ∧
      session.table.valueId entry.1.1 entry.1.2 = entry.2) ∧
    (∀ name, ∃ id, (session.table.insertNameId name).2 = .ok id) ∧
    (∀ nameId value, nameId < session.table.valueStrTable.length →
      ∃ id, (session.table.insertValueId nameId value).2 = .ok id) ∧
    (session.table.flush session.dir).1 = true := by
  have hsound : session.Sound :=
    hrun.invariant (fun _ _ _ hs hstep => hstep.1.sound hs hstep.2) sound_start
  obtain ⟨hwf, hsmall, hfiles, hmean⟩ := hsound
  refine ⟨?_, ?_, ?_, ?_, ?_, ?_, ?_⟩
  · intro entry hentry entry' hentry'
    have hi := hmean.names entry hentry
    have hi' := hmean.names entry' hentry'
    constructor
    · intro heq
      rw [← heq] at hi'
      exact hwf.names.unique (zero_le _) (zero_le _) hi hi'
    · intro heq
      rw [← heq, hi] at hi'
      exact Option.some.inj hi'
  · intro entry hentry entry' hentry'
    have hi := hmean.values entry hentry
    have hi' := hmean.values entry' hentry'
    constructor
    · intro heq
      rw [← heq] at hi'
      exact hwf.values.unique (zero_le _) (zero_le _) hi hi'
    · intro heq
      rw [← heq, hi] at hi'
      exact Option.some.inj hi'
  · intro entry hentry
    have hi := hmean.names entry hentry
    refine ⟨hi, ?_⟩
    have hlookup : session.table.nameStrMap.lookup entry.1 = some entry.2 :=
      (hwf.names _ _).mpr ⟨zero_le _, hi⟩
    rw [nameId, hlookup, Option.getD_some]
  · intro entry hentry
    have hi := hmean.values entry hentry
    have hzip := getElem?_zip_eq_some.mp hi
    refine ⟨hzip.1, hzip.2, ?_⟩
    rw [valueId, (hwf.values _ _).mpr ⟨zero_le _, hi⟩, Option.getD_some]
  · intro name
    obtain ⟨id, hok, _⟩ := hwf.insertNameId hsmall name
    exact ⟨id, hok⟩
  · intro nameId value hname
    obtain ⟨id, hok, _⟩ := hwf.insertValueId hsmall hname value
    exact ⟨id, hok⟩
  · have hreload := Sound.reload ⟨hwf, hsmall, hfiles, hmean⟩ {} (Or.inl rfl)
    exact hreload.1

/-- A name and a value, a reload into a new object, and the same value again. -/
def brandCalls : List (AttrCall String) :=
  [.insertNameId "brand", .insertValueId 1 "acme", .reload true, .insertValueId 1 "acme"]

theorem dictionary_across_reloads_brand :
    ∃ session : AttrSession String, Run SmallStep .start brandCalls session ∧
      session.values = [((1, "acme"), 1), ((1, "acme"), 1)] ∧
      session.table.valueStr 1 = some "acme" := by
  have hsmall {t : AttrTable String} (hn : t.nameStrVec.length = 2)
      (hv : t.valueStrVec.length ≤ 2) : t.Small := by
    have hpow : 2 < 2 ^ 31 := by decide
    exact ⟨hn ▸ hpow, hv.trans_lt hpow⟩
  have hrun : Run SmallStep .start brandCalls _ :=
    .cons ⟨.name (by rfl), hsmall (by rfl) (by decide)⟩ <|
      .cons ⟨.value (by decide) (by rfl), hsmall (by rfl) (by decide)⟩ <|
        .cons ⟨.reload, hsmall (by rfl) (by decide)⟩ <|
          .cons ⟨.value (by decide) (by rfl), hsmall (by rfl) (by decide)⟩ (.nil _)
  refine ⟨_, hrun, rfl, ?_⟩
  have hdict := dictionary_across_reloads brandCalls _ hrun
  exact (hdict.2.2.2.1 ((1, "acme"), 1) (by decide)).2.1

end Session

end AdDelivery.AttrManager
