import AdDelivery.Core.Files
import AdDelivery.Core.Table
import AdDelivery.Core.Vector
import Mathlib.Data.Finset.Sort
import Mathlib.Data.List.GetD
import Mathlib.Order.Lattice.Nat
import Mathlib.Tactic.IntervalCases

/-!
# The filter ids of suffix matching

Every filter property has a position in parallel vectors: the map from filter keys to id
ranges, the keys themselves, the amplifier of a numeric property. `saveFilterId` writes the
list of properties and one id file for each. `loadFilterId` skips the properties whose file
is missing and numbers the others without gaps, but it stores each map at the position the
property had when it was saved.
-/

namespace AdDelivery.SuffixMatch

open List Finmap Prod

inductive FilterType
  | groupAttrFilter
  | strFilter
  | numFilter
deriving DecidableEq, Repr

structure FilterIdRange where
  start : ℕ := 0
  end_ : ℕ := 0
deriving DecidableEq, Repr, Inhabited

/-- The members that are saved, loaded, or read by a lookup. Keys are texts or numbers. -/
structure FilterManager (UString : Type) where
  propIdMap : Table String ℕ := ∅
  propList : List (FilterType × String) := []
  numAmpList : List ℤ := []
  numAmpMap : Table String ℤ := ∅
  propFilterStrList : List (List UString) := []
  strFilterIds : List (Table UString FilterIdRange) := []
  numFilterIds : List (Table ℤ FilterIdRange) := []
  strKeySets : List (List UString) := []
  numKeySets : List (List ℤ) := []
  rebuildAll : Bool := false

/-- What stands in an id file, one value after another. -/
inductive Field
  | size (n : ℕ)
  | chars (text : String)
  | num (key : ℤ)
  | range (idrange : FilterIdRange)
deriving DecidableEq

/-- The files of the manager: `prop_list.txt`, and `filterid.` followed by a property. The
names of properties are single words, so the list of properties is read as it was written. -/
structure DataRoot where
  propList : Option (List (FilterType × String)) := none
  filterid : String → Option (List Field) := fun _ => none

def saveArray (arr : String) : List Field := [.size arr.length, .chars arr]

/-- A read that fails leaves its variable as it was. -/
def loadArray : List Field → String × List Field
  | .size _ :: .chars arr :: file => (arr, file)
  | file => ("", file)

def readSize : List Field → ℕ × List Field
  | .size n :: file => (n, file)
  | file => (0, file)

def readNum : List Field → ℤ × List Field
  | .num key :: file => (key, file)
  | file => (0, file)

def readRange : List Field → FilterIdRange × List Field
  | .range idrange :: file => (idrange, file)
  | file => ({}, file)

section Ids

variable {κ : Type} [LinearOrder κ]

/-- The entries of a map in the order of its keys, behind their number. -/
def saveIds (writeKey : κ → List Field) (ids : Table κ FilterIdRange) : List Field :=
  .size ids.keys.card ::
    (ids.keys.sort (· ≤ ·)).flatMap fun key => writeKey key ++ [.range (Table.get ids key)]

/-- Read `num` entries into a map, and list their keys. -/
def loadIds (readKey : List Field → κ × List Field) :
    ℕ → List Field → Table κ FilterIdRange → Table κ FilterIdRange × List κ
  | 0, _, ids => (ids, [])
  | num + 1, file, ids =>
    let (key, file) := readKey file
    let (idrange, file) := readRange file
    let loaded := loadIds readKey num file (insert key idrange ids)
    (loaded.1, key :: loaded.2)

variable {readKey : List Field → κ × List Field} {writeKey : κ → List Field}

/-- Entries that were written are read back one by one. -/
theorem loadIds_flatMap (hkey : ∀ key file, readKey (writeKey key ++ file) = (key, file))
    (range : κ → FilterIdRange) (keys : List κ) (ids : Table κ FilterIdRange) :
    loadIds readKey keys.length (keys.flatMap fun key => writeKey key ++ [.range (range key)]) ids =
      (keys.foldl (fun ids key => insert key (range key) ids) ids, keys) := by
  induction keys generalizing ids with
  | nil => rfl
  | cons key keys ih =>
    rw [length_cons, loadIds, flatMap_cons, append_assoc, hkey]
    simp only [singleton_append, readRange]
    rw [ih, foldl_cons]

/-- A map that was saved is loaded with its keys. -/
theorem loadIds_saveIds (hkey : ∀ key file, readKey (writeKey key ++ file) = (key, file))
    (ids : Table κ FilterIdRange) :
    loadIds readKey (readSize (saveIds writeKey ids)).1 (readSize (saveIds writeKey ids)).2 ∅ =
      (ids, ids.keys.sort (· ≤ ·)) := by
  have hload := loadIds_flatMap hkey (Table.get ids) (ids.keys.sort (· ≤ ·)) ∅
  rw [Finset.length_sort] at hload
  rw [saveIds, readSize, hload]
  congr 1
  apply ext_lookup
  intro key
  rw [Table.lookup_foldl_insert_value]
  by_cases hmem : key ∈ ids
  · obtain ⟨idrange, hlookup⟩ := Finmap.mem_iff.mp hmem
    rw [if_pos (by simpa [Finmap.mem_keys] using hmem), Table.get, hlookup, Option.getD_some]
  · rw [if_neg (by simpa [Finmap.mem_keys] using hmem), Finmap.lookup_empty,
      Finmap.lookup_eq_none.mpr hmem]

end Ids

section Text

variable {UString : Type} (utf8 : Codec String UString)

def writeText (key : UString) : List Field := saveArray (utf8.write key)

def readText (file : List Field) : UString × List Field :=
  let array := loadArray file
  (utf8.read array.1, array.2)

theorem readText_writeText (key : UString) (file : List Field) :
    readText utf8 (writeText utf8 key ++ file) = (key, file) := by
  simp [readText, writeText, saveArray, loadArray, utf8.read_write]

end Text

theorem readNum_num (key : ℤ) (file : List Field) : readNum ([.num key] ++ file) = (key, file) :=
  rfl

open FilterManager

section Persistence

variable {UString : Type} [LinearOrder UString] (utf8 : Codec String UString)
  (fm : FilterManager UString) (dir : DataRoot)

/-- The id file of the property of one type at one position. -/
def FilterManager.idFile (i : ℕ) : FilterType → List Field
  | .groupAttrFilter => saveIds (writeText utf8) (fm.strFilterIds.getD i ∅)
  | .strFilter => saveIds (writeText utf8) (fm.strFilterIds.getD i ∅)
  | .numFilter => saveIds (fun key => [.num key]) (fm.numFilterIds.getD i ∅)

/-- Write the id file of one property, unless the file cannot be opened. -/
def FilterManager.saveProperty (opens : String → Bool)
    (dir : DataRoot) (entry : (FilterType × String) × ℕ) : DataRoot :=
  if opens entry.1.2 then
    { dir with
      filterid := Function.update dir.filterid entry.1.2
        (some (fm.idFile utf8 entry.2 entry.1.1)) }
  else
    dir

def FilterManager.saveFilterId (opens : String → Bool) (dir : DataRoot) : DataRoot :=
  if fm.propList.isEmpty then
    dir
  else
    fm.propList.zipIdx.foldl (fm.saveProperty utf8 opens)
      { dir with propList := some fm.propList }

/-- Some id files get lost. -/
def DataRoot.remove (missing : String → Bool) : DataRoot :=
  { dir with filterid := fun property => if missing property then none else dir.filterid property }

/-- The property takes the next free number, and its vectors grow to its old position `i`. -/
def FilterManager.loadProperty (fm : FilterManager UString)
    (entry : (FilterType × String) × ℕ) : FilterManager UString :=
  let ((type, property), i) := entry
  match dir.filterid property with
  | none => { fm with rebuildAll := true }
  | some file =>
    let fm := { fm with
      propList := fm.propList ++ [(type, property)]
      propIdMap := insert property fm.propList.length fm.propIdMap }
    let (num, ids) := readSize file
    match type with
    | .groupAttrFilter =>
      let strFilterIds := resize fm.strFilterIds (i + 1) ∅
      let loaded := loadIds (readText utf8) num ids (strFilterIds.getD i ∅)
      { fm with
        strFilterIds := strFilterIds.set i loaded.1
        propFilterStrList :=
          (resize fm.propFilterStrList (i + 1) []).set i (utf8.read "" :: loaded.2) }
    | .strFilter =>
      let strFilterIds := resize fm.strFilterIds (i + 1) ∅
      let loaded := loadIds (readText utf8) num ids (strFilterIds.getD i ∅)
      { fm with
        strFilterIds := strFilterIds.set i loaded.1
        strKeySets := (resize fm.strKeySets (i + 1) []).set i loaded.2 }
    | .numFilter =>
      let numFilterIds := resize fm.numFilterIds (i + 1) ∅
      let loaded := loadIds readNum num ids (numFilterIds.getD i ∅)
      let numAmpList : List ℤ := resize fm.numAmpList (i + 1) 1
      { fm with
        numFilterIds := numFilterIds.set i loaded.1
        numKeySets := (resize fm.numKeySets (i + 1) []).set i loaded.2
        numAmpList := match fm.numAmpMap.lookup property with
          | some amp => numAmpList.set i amp
          | none => numAmpList }

def FilterManager.loadFilterId : FilterManager UString :=
  match dir.propList with
  | none => fm
  | some propList => propList.zipIdx.foldl (loadProperty utf8 dir) fm

def FilterType.isNum : FilterType → Bool
  | .numFilter => true
  | _ => false

/-- The number of present properties before position `i`: the id the loader gives. -/
def loadedId (propList : List (FilterType × String)) (present : String → Bool) (i : ℕ) : ℕ :=
  (propList.take i).countP fun entry => present entry.2

/-- The map at slot `j` of the string or of the numeric vector: the map that was saved from
there, when the property of that position is present and of that kind. -/
def slotAt {κ : Type} (propList : List (FilterType × String)) (present : String → Bool)
    (isNum : Bool) (ids : List (Table κ FilterIdRange)) (j : ℕ) : Table κ FilterIdRange :=
  match propList[j]? with
  | some (type, property) =>
    if type.isNum = isNum ∧ present property = true then ids.getD j ∅ else ∅
  | none => ∅

/-- What one vector of maps holds once the first `n` properties are loaded. -/
structure Stored {κ : Type} (propList : List (FilterType × String)) (present : String → Bool)
    (isNum : Bool) (ids loaded : List (Table κ FilterIdRange)) (n : ℕ) : Prop where
  slot : ∀ j, loaded.getD j ∅ = if j < n then slotAt propList present isNum ids j else ∅
  length_le : loaded.length ≤ n
  inRange : ∀ i type property, i < n → propList[i]? = some (type, property) →
    type.isNum = isNum → present property = true → i < loaded.length

section Stored

variable {κ : Type} {propList : List (FilterType × String)} {present : String → Bool}
  {isNum : Bool} {ids loaded : List (Table κ FilterIdRange)} {n : ℕ} {type : FilterType}
  {property : String}

section

variable (h : Stored propList present isNum ids loaded n)
    (hentry : propList[n]? = some (type, property))
include h hentry

/-- A property of the other kind, or one without a file, leaves the vector alone. -/
theorem Stored.skip (hskip : ¬ (type.isNum = isNum ∧ present property = true)) :
    Stored propList present isNum ids loaded (n + 1) := by
  refine ⟨fun j => ?_, Nat.le_succ_of_le h.length_le, ?_⟩
  · rw [h.slot j]
    by_cases hj : j < n
    · rw [if_pos hj, if_pos (by omega)]
    · by_cases hjn : j = n
      · subst hjn
        simp [slotAt, hentry, hskip]
      · rw [if_neg hj, if_neg (by omega)]
  · intro i type' property' hi hentry' hkind hpresent
    rcases Nat.lt_succ_iff_lt_or_eq.mp hi with hi | rfl
    · exact h.inRange i type' property' hi hentry' hkind hpresent
    · rw [hentry] at hentry'
      cases hentry'
      exact absurd ⟨hkind, hpresent⟩ hskip

/-- A property of the kind, with its file, grows the vector to its old position. -/
theorem Stored.put (hkind : type.isNum = isNum) (hpresent : present property = true) :
    Stored propList present isNum ids ((resize loaded (n + 1) ∅).set n (ids.getD n ∅)) (n + 1) := by
  have hlen : ((resize loaded (n + 1) ∅).set n (ids.getD n ∅)).length = n + 1 := by simp
  refine ⟨fun j => ?_, hlen.le, ?_⟩
  · by_cases hj : j = n
    · subst hj
      rw [slotAt, hentry]
      simp [hkind, hpresent]
    · have hset : ((resize loaded (n + 1) ∅).set n (ids.getD n ∅)).getD j ∅ = loaded.getD j ∅ := by
        rw [getD_eq_getElem?_getD, getElem?_set_ne (Ne.symm hj),
          ← getD_eq_getElem?_getD, getD_resize_of_le (Nat.le_succ_of_le h.length_le)]
      rw [hset, h.slot j]
      by_cases hlt : j < n
      · rw [if_pos hlt, if_pos (by omega)]
      · rw [if_neg hlt, if_neg (by omega)]
  · intro i _ _ hi _ _ _
    rw [hlen]
    exact hi

end

end Stored

theorem loadedId_succ {propList : List (FilterType × String)} {n : ℕ} {type : FilterType}
    {property : String} (hentry : propList[n]? = some (type, property)) (present : String → Bool) :
    loadedId propList present (n + 1) =
      loadedId propList present n + if present property = true then 1 else 0 := by
  rw [loadedId, take_add_one, hentry, loadedId]
  simp

theorem loadedId_le (propList : List (FilterType × String)) (present : String → Bool) (i : ℕ) :
    loadedId propList present i ≤ i :=
  countP_le_length.trans (length_take_le i propList)

section Load

variable {utf8} {saved fm : FilterManager UString} {dir : DataRoot} {type : FilterType}
  {property : String} {i : ℕ}

/-- What the loader adds for one property whose id file is there, apart from the maps. -/
theorem loadProperty_number (fm : FilterManager UString)
    (hfile : dir.filterid property = some (saved.idFile utf8 i type)) :
    (fm.loadProperty utf8 dir ((type, property), i)).propList = fm.propList ++ [(type, property)] ∧
      (fm.loadProperty utf8 dir ((type, property), i)).propIdMap =
        insert property fm.propList.length fm.propIdMap := by
  cases type <;> simp [loadProperty, hfile]

theorem loadProperty_absent (hfile : dir.filterid property = none) :
    fm.loadProperty utf8 dir ((type, property), i) = { fm with rebuildAll := true } := by
  simp [loadProperty, hfile]

section

variable (fm : FilterManager UString)
    (hfile : dir.filterid property = some (saved.idFile utf8 i type))
include hfile

/-- The map of a property is read back into the slot of its old position. -/
theorem loadProperty_str (htype : type.isNum = false) (hlen : fm.strFilterIds.length ≤ i) :
    (fm.loadProperty utf8 dir ((type, property), i)).strFilterIds =
        (resize fm.strFilterIds (i + 1) ∅).set i (saved.strFilterIds.getD i ∅) ∧
      (fm.loadProperty utf8 dir ((type, property), i)).numFilterIds = fm.numFilterIds ∧
      (fm.loadProperty utf8 dir ((type, property), i)).numKeySets = fm.numKeySets ∧
      (fm.loadProperty utf8 dir ((type, property), i)).numAmpList = fm.numAmpList := by
  have hslot : (resize fm.strFilterIds (i + 1) ∅).getD i ∅ = ∅ := by
    rw [getD_resize_of_le (by omega), getD_eq_default _ _ hlen]
  have hload := loadIds_saveIds (readText_writeText utf8) (saved.strFilterIds.getD i ∅)
  cases type with
  | groupAttrFilter =>
    simp only [loadProperty, hfile, idFile, hslot, hload, and_self]
  | strFilter =>
    simp only [loadProperty, hfile, idFile, hslot, hload, and_self]
  | numFilter => cases htype

theorem loadProperty_num (htype : type.isNum = true) (hlen : fm.numFilterIds.length ≤ i) :
    (fm.loadProperty utf8 dir ((type, property), i)).numFilterIds =
        (resize fm.numFilterIds (i + 1) ∅).set i (saved.numFilterIds.getD i ∅) ∧
      (fm.loadProperty utf8 dir ((type, property), i)).strFilterIds = fm.strFilterIds ∧
      (fm.loadProperty utf8 dir ((type, property), i)).numKeySets.length = i + 1 ∧
      (fm.loadProperty utf8 dir ((type, property), i)).numAmpList.length = i + 1 := by
  have hslot : (resize fm.numFilterIds (i + 1) ∅).getD i ∅ = ∅ := by
    rw [getD_resize_of_le (by omega), getD_eq_default _ _ hlen]
  have hload := loadIds_saveIds readNum_num (saved.numFilterIds.getD i ∅)
  cases type with
  | groupAttrFilter => cases htype
  | strFilter => cases htype
  | numFilter =>
    simp only [loadProperty, hfile, idFile, hslot, hload]
    refine ⟨trivial, trivial, by simp, ?_⟩
    split <;> simp

end

/-- The state of the loader once the first `n` properties are done. -/
structure Loaded (saved : FilterManager UString) (present : String → Bool)
    (fm : FilterManager UString) (n : ℕ) : Prop where
  count : fm.propList.length = loadedId saved.propList present n
  id : ∀ i type property, i < n → saved.propList[i]? = some (type, property) →
    present property = true →
    fm.propIdMap.lookup property = some (loadedId saved.propList present i)
  str : Stored saved.propList present false saved.strFilterIds fm.strFilterIds n
  num : Stored saved.propList present true saved.numFilterIds fm.numFilterIds n
  keys : ∀ i type property, i < n → saved.propList[i]? = some (type, property) →
    type.isNum = true → present property = true →
    i < fm.numKeySets.length ∧ i < fm.numAmpList.length

variable {present : String → Bool} {n : ℕ}

theorem Loaded.step_absent (h : Loaded saved present fm n)
    (hentry : saved.propList[n]? = some (type, property)) (habsent : present property = false)
    (hfile : dir.filterid property = none) :
    Loaded saved present (fm.loadProperty utf8 dir ((type, property), n)) (n + 1) := by
  have hskip (isNum : Bool) : ¬ (type.isNum = isNum ∧ present property = true) := by
    simp [habsent]
  have hbefore (i : ℕ) (type' : FilterType) (property' : String) (hi : i < n + 1)
      (hentry' : saved.propList[i]? = some (type', property'))
      (hpresent : present property' = true) : i < n := by
    rcases Nat.lt_succ_iff_lt_or_eq.mp hi with hi | rfl
    · exact hi
    · rw [hentry] at hentry'
      cases hentry'
      rw [habsent] at hpresent
      cases hpresent
  rw [loadProperty_absent hfile]
  refine ⟨?_, ?_, h.str.skip hentry (hskip false), h.num.skip hentry (hskip true), ?_⟩
  · rw [loadedId_succ hentry, habsent, h.count]
    rfl
  · intro i type' property' hi hentry' hpresent
    exact h.id i type' property' (hbefore i type' property' hi hentry' hpresent) hentry' hpresent
  · intro i type' property' hi hentry' hkind hpresent
    exact h.keys i type' property' (hbefore i type' property' hi hentry' hpresent) hentry' hkind
      hpresent

theorem Loaded.step_present (h : Loaded saved present fm n)
    (hnodup : (saved.propList.map snd).Nodup)
    (hentry : saved.propList[n]? = some (type, property)) (hpresent : present property = true)
    (hfile : dir.filterid property = some (saved.idFile utf8 n type)) :
    Loaded saved present (fm.loadProperty utf8 dir ((type, property), n)) (n + 1) := by
  obtain ⟨hlist, hmap⟩ := loadProperty_number fm hfile
  have hcount : (fm.loadProperty utf8 dir ((type, property), n)).propList.length =
      loadedId saved.propList present (n + 1) := by
    rw [hlist, length_append, h.count, loadedId_succ hentry, if_pos hpresent]
    rfl
  have hid : ∀ i type' property', i < n + 1 → saved.propList[i]? = some (type', property') →
      present property' = true →
      (fm.loadProperty utf8 dir ((type, property), n)).propIdMap.lookup property' =
        some (loadedId saved.propList present i) := by
    intro i type' property' hi hentry' hpresent'
    rw [hmap, Table.lookup_insert_eq]
    rcases Nat.lt_succ_iff_lt_or_eq.mp hi with hi | rfl
    · -- two positions with one name would break `hnodup`
      have hne : property' ≠ property := by
        rintro rfl
        have hi' : (saved.propList.map snd)[i]? = some property' := by simp [hentry']
        have hn' : (saved.propList.map snd)[n]? = some property' := by simp [hentry]
        have hlt : i < (saved.propList.map snd).length :=
          (List.getElem?_eq_some_iff.mp hi').1
        exact hi.ne ((getElem?_inj hlt hnodup).mp (hi'.trans hn'.symm))
      rw [if_neg hne]
      exact h.id i type' property' hi hentry' hpresent'
    · rw [hentry] at hentry'
      cases hentry'
      rw [if_pos rfl, h.count]
  cases htype : type.isNum with
  | false =>
    obtain ⟨hstr, hnum, hkeys, hamp⟩ := loadProperty_str fm hfile htype h.str.length_le
    refine ⟨hcount, hid, ?_, ?_, ?_⟩
    · rw [hstr]
      exact h.str.put hentry htype hpresent
    · rw [hnum]
      exact h.num.skip hentry (by simp [htype])
    · intro i type' property' hi hentry' hkind hpresent'
      rw [hkeys, hamp]
      rcases Nat.lt_succ_iff_lt_or_eq.mp hi with hi | rfl
      · exact h.keys i type' property' hi hentry' hkind hpresent'
      · rw [hentry] at hentry'
        cases hentry'
        rw [htype] at hkind
        cases hkind
  | true =>
    obtain ⟨hnum, hstr, hkeys, hamp⟩ := loadProperty_num fm hfile htype h.num.length_le
    refine ⟨hcount, hid, ?_, ?_, ?_⟩
    · rw [hstr]
      exact h.str.skip hentry (by simp [htype])
    · rw [hnum]
      exact h.num.put hentry htype hpresent
    · intro i _ _ hi _ _ _
      rw [hkeys, hamp]
      exact ⟨hi, hi⟩

/-- The loader goes through the saved list from position `n` on. -/
theorem Loaded.foldl (hnodup : (saved.propList.map snd).Nodup)
    (hdir : ∀ i type property, saved.propList[i]? = some (type, property) → dir.filterid property =
        if present property = true then some (saved.idFile utf8 i type) else none)
    (rest : List (FilterType × String)) {fm : FilterManager UString} {n : ℕ}
    (hrest : saved.propList.drop n = rest) (h : Loaded saved present fm n) :
    Loaded saved present ((rest.zipIdx n).foldl (loadProperty utf8 dir) fm)
      (n + rest.length) := by
  induction rest generalizing fm n with
  | nil => exact h
  | cons entry rest ih =>
    obtain ⟨type, property⟩ := entry
    have hentry : saved.propList[n]? = some (type, property) := by
      rw [← Nat.add_zero n, ← getElem?_drop, hrest]
      rfl
    have hfile := hdir n type property hentry
    have hstep : Loaded saved present (fm.loadProperty utf8 dir ((type, property), n)) (n + 1) := by
      cases hpresent : present property with
      | false => exact h.step_absent hentry hpresent (by simpa [hpresent] using hfile)
      | true => exact h.step_present hnodup hentry hpresent (by simpa [hpresent] using hfile)
    have hnext : saved.propList.drop (n + 1) = rest := by
      rw [← drop_drop, hrest]
      rfl
    rw [zipIdx_cons, length_cons, Nat.add_comm rest.length, ← Nat.add_assoc]
    exact ih hnext hstep

end Load

section Save

variable {saved : FilterManager UString} {opens : String → Bool}

theorem propList_foldl_saveProperty (entries : List ((FilterType × String) × ℕ)) (dir : DataRoot) :
    (entries.foldl (saved.saveProperty utf8 opens) dir).propList = dir.propList := by
  induction entries generalizing dir with
  | nil => rfl
  | cons entry entries ih =>
    rw [foldl_cons, ih, saveProperty]
    split <;> rfl

variable {entries : List ((FilterType × String) × ℕ)}

theorem filterid_foldl_of_notMem {property : String}
    (hmem : property ∉ entries.map fun entry => entry.1.2) (dir : DataRoot) :
    (entries.foldl (saved.saveProperty utf8 opens) dir).filterid property =
      dir.filterid property := by
  induction entries generalizing dir with
  | nil => rfl
  | cons entry entries ih =>
    rw [map_cons, mem_cons, not_or] at hmem
    rw [foldl_cons, ih hmem.2, saveProperty]
    split
    · exact Function.update_of_ne hmem.1 _ _
    · rfl

/-- With one name for each property no file is written over. -/
theorem filterid_foldl_of_mem (hnodup : (entries.map fun entry => entry.1.2).Nodup)
    {entry : (FilterType × String) × ℕ} (hmem : entry ∈ entries) (hopens : opens entry.1.2 = true)
    (dir : DataRoot) : (entries.foldl (saved.saveProperty utf8 opens) dir).filterid entry.1.2 =
      some (saved.idFile utf8 entry.2 entry.1.1) := by
  induction entries generalizing dir with
  | nil => cases hmem
  | cons first entries ih =>
    rw [map_cons, nodup_cons] at hnodup
    rw [foldl_cons]
    rcases mem_cons.mp hmem with rfl | hmem
    · rw [filterid_foldl_of_notMem utf8 hnodup.1, saveProperty, if_pos hopens]
      exact Function.update_self _ _ _
    · exact ih hnodup.2 hmem _

variable {missing : String → Bool}

/-- After a save, and the loss of some files, a property has its own id file or none. -/
theorem filterid_remove_saveFilterId (hnodup : (saved.propList.map snd).Nodup)
    (hopens : ∀ property, opens property = false → missing property = true) (dir : DataRoot)
    {i : ℕ} {type : FilterType} {property : String}
    (hentry : saved.propList[i]? = some (type, property)) :
    ((saved.saveFilterId utf8 opens dir).remove missing).filterid property =
      if (!missing property) = true then some (saved.idFile utf8 i type) else none := by
  cases hmissing : missing property with
  | true => simp [DataRoot.remove, hmissing]
  | false =>
    have hopen : opens property = true := by
      by_contra hclosed
      rw [hopens property (by simpa using hclosed)] at hmissing
      cases hmissing
    have hne : saved.propList.isEmpty = false := by
      cases hlist : saved.propList with
      | nil => simp [hlist] at hentry
      | cons _ _ => rfl
    have hmem : ((type, property), i) ∈ saved.propList.zipIdx :=
      mem_zipIdx_iff_getElem?.mpr hentry
    have hnames : (saved.propList.zipIdx.map fun entry => entry.1.2).Nodup := by
      have hmap : (saved.propList.zipIdx.map fun entry => entry.1.2) =
          (saved.propList.zipIdx.map fst).map snd := by
        rw [List.map_map]
        rfl
      rw [hmap, zipIdx_map_fst]
      exact hnodup
    have hfile : (saved.propList.zipIdx.foldl (saved.saveProperty utf8 opens)
        { dir with propList := some saved.propList }).filterid property =
          some (saved.idFile utf8 i type) :=
      filterid_foldl_of_mem utf8 hnames hmem hopen _
    simpa [DataRoot.remove, hmissing, saveFilterId, hne] using hfile

theorem propList_remove_saveFilterId (dir : DataRoot) (hne : saved.propList ≠ []) :
    ((saved.saveFilterId utf8 opens dir).remove missing).propList = some saved.propList := by
  have hempty : saved.propList.isEmpty = false := by simpa using hne
  simp [DataRoot.remove, saveFilterId, hempty, propList_foldl_saveProperty]

end Save

/-- The lists of a manager: one position for each name, and a map for every property. -/
structure FilterManager.WellFormed (fm : FilterManager UString) : Prop where
  nodup : (fm.propList.map snd).Nodup
  str : ∀ i type property, fm.propList[i]? = some (type, property) → type.isNum = false →
    i < fm.strFilterIds.length
  num : ∀ i type property, fm.propList[i]? = some (type, property) → type.isNum = true →
    i < fm.numFilterIds.length

/-- A manager that has been constructed: only the amplifiers are known. -/
def FilterManager.fresh (numAmpMap : Table String ℤ) (numAmpList : List ℤ) :
    FilterManager UString :=
  { numAmpMap := numAmpMap, numAmpList := numAmpList }

/-- The property at position `i` of `saved` is found again: its id leads to the map that was
saved, and the vectors that a lookup subscripts without a test reach that far. -/
def Restored (saved loaded : FilterManager UString) (i : ℕ) (type : FilterType)
    (property : String) : Prop :=
  ∃ p, loaded.propIdMap.lookup property = some p ∧
    if type.isNum = true then
      loaded.numFilterIds[p]? = saved.numFilterIds[i]? ∧
        p < loaded.numKeySets.length ∧ p < loaded.numAmpList.length
    else
      loaded.strFilterIds[p]? = saved.strFilterIds[i]?

/-- Every property whose id file is present is found again after a save and a load. -/
def FilterIdsRestored (saved : FilterManager UString) (dir : DataRoot) (opens : String → Bool)
    (missing : String → Bool) (numAmpMap : Table String ℤ) (numAmpList : List ℤ) : Prop :=
  ∀ i type property, saved.propList[i]? = some (type, property) → missing property = false →
    Restored saved
      ((fresh numAmpMap numAmpList).loadFilterId utf8
        ((saved.saveFilterId utf8 opens dir).remove missing)) i type property

/-- The slot that the loader's numbering assigns to a present property holds the same map as
the position the property was saved from. -/
def SlotsAgree (saved : FilterManager UString) (missing : String → Bool) : Prop :=
  ∀ i type property, saved.propList[i]? = some (type, property) → missing property = false →
    let present := fun property => !missing property
    let p := loadedId saved.propList present i
    if type.isNum = true then
      slotAt saved.propList present true saved.numFilterIds p = saved.numFilterIds.getD i ∅
    else
      slotAt saved.propList present false saved.strFilterIds p = saved.strFilterIds.getD i ∅

section RoundTrip

variable {saved : FilterManager UString} {opens missing : String → Bool}

theorem loaded_loadFilterId (hwf : saved.WellFormed)
    (hopens : ∀ property, opens property = false → missing property = true) (dir : DataRoot)
    (hne : saved.propList ≠ []) (numAmpMap : Table String ℤ) (numAmpList : List ℤ) :
    Loaded saved (fun property => !missing property)
      ((fresh numAmpMap numAmpList).loadFilterId utf8
        ((saved.saveFilterId utf8 opens dir).remove missing)) saved.propList.length := by
  have hinit : Loaded saved (fun property => !missing property)
      (fresh numAmpMap numAmpList) 0 := by
    refine ⟨rfl, ?_, ⟨fun j => rfl, Nat.le_refl 0, ?_⟩, ⟨fun j => rfl, Nat.le_refl 0, ?_⟩, ?_⟩ <;>
      · intro i _ _ hi
        cases hi
  have hall := Loaded.foldl hwf.nodup
    (fun i type property hentry => filterid_remove_saveFilterId utf8 hwf.nodup hopens dir hentry)
    saved.propList drop_zero hinit
  rw [Nat.zero_add] at hall
  rw [loadFilterId, propList_remove_saveFilterId utf8 dir hne]
  exact hall

/-- One property is found again exactly when its new slot holds its old map. -/
theorem restored_iff (hwf : saved.WellFormed)
    (hopens : ∀ property, opens property = false → missing property = true) (dir : DataRoot)
    (numAmpMap : Table String ℤ) (numAmpList : List ℤ) {i : ℕ} {type : FilterType}
    {property : String} (hentry : saved.propList[i]? = some (type, property))
    (hpresent : missing property = false) : Restored saved
        ((fresh numAmpMap numAmpList).loadFilterId utf8
          ((saved.saveFilterId utf8 opens dir).remove missing)) i type property ↔
      if type.isNum = true then
        slotAt saved.propList (fun property => !missing property) true saved.numFilterIds
            (loadedId saved.propList (fun property => !missing property) i) =
          saved.numFilterIds.getD i ∅
      else
        slotAt saved.propList (fun property => !missing property) false saved.strFilterIds
            (loadedId saved.propList (fun property => !missing property) i) =
          saved.strFilterIds.getD i ∅ := by
  have hi : i < saved.propList.length := (List.getElem?_eq_some_iff.mp hentry).1
  have hne : saved.propList ≠ [] := ne_nil_of_length_pos (by omega)
  have hloaded := loaded_loadFilterId utf8 hwf hopens dir hne numAmpMap numAmpList
  generalize (fresh numAmpMap numAmpList).loadFilterId utf8
    ((saved.saveFilterId utf8 opens dir).remove missing) = loaded at hloaded ⊢
  have hp : (!missing property) = true := by simp [hpresent]
  have hid := hloaded.id i type property hi hentry hp
  have hle : loadedId saved.propList (fun property => !missing property) i ≤ i :=
    loadedId_le _ _ i
  unfold Restored
  simp only [hid, Option.some.injEq, exists_eq_left']
  generalize loadedId saved.propList (fun property => !missing property) i = p at hle ⊢
  cases htype : type.isNum with
  | false =>
    have hrange := hloaded.str.inRange i type property hi hentry htype hp
    have hslot := hloaded.str.slot p
    rw [if_pos (by omega)] at hslot
    simp only [Bool.false_eq_true, if_false]
    rw [getElem?_eq_getElem (by omega : p < loaded.strFilterIds.length),
      getElem?_eq_getElem (hwf.str i type property hentry htype), Option.some_inj, ← hslot,
      getD_eq_getElem _ _ (by omega : p < loaded.strFilterIds.length),
      getD_eq_getElem _ _ (hwf.str i type property hentry htype)]
  | true =>
    have hrange := hloaded.num.inRange i type property hi hentry htype hp
    have hkeys := hloaded.keys i type property hi hentry htype hp
    have hslot := hloaded.num.slot p
    rw [if_pos (by omega)] at hslot
    rw [getElem?_eq_getElem (by omega : p < loaded.numFilterIds.length),
      getElem?_eq_getElem (hwf.num i type property hentry htype), Option.some_inj, ← hslot,
      getD_eq_getElem _ _ (by omega : p < loaded.numFilterIds.length),
      getD_eq_getElem _ _ (hwf.num i type property hentry htype)]
    exact and_iff_left ⟨by omega, by omega⟩

/-- Filter ids survive a save and a load exactly when every present property finds its own
map at the slot of its new number. -/
theorem filterIdsRestored_iff_slotsAgree (hwf : saved.WellFormed)
    (hopens : ∀ property, opens property = false → missing property = true) (dir : DataRoot)
    (numAmpMap : Table String ℤ) (numAmpList : List ℤ) :
    FilterIdsRestored utf8 saved dir opens missing numAmpMap numAmpList ↔
      SlotsAgree saved missing := by
  constructor
  · intro hrestored i type property hentry hpresent
    exact (restored_iff utf8 hwf hopens dir numAmpMap numAmpList hentry hpresent).mp
      (hrestored i type property hentry hpresent)
  · intro hagree i type property hentry hpresent
    exact (restored_iff utf8 hwf hopens dir numAmpMap numAmpList hentry hpresent).mpr
      (hagree i type property hentry hpresent)

end RoundTrip

end Persistence

theorem id_id_text (text : String) : id (id text) = text := rfl

def plainText : Codec String String := ⟨id, id, id_id_text⟩

/-- `Category` is grouped, `Price` is a number and `Brand` a text. -/
def shopFilters : FilterManager String where
  propList := [(.groupAttrFilter, "Category"), (.numFilter, "Price"), (.strFilter, "Brand")]
  strFilterIds := [singleton "phone" ⟨1, 2⟩, ∅, singleton "acme" ⟨5, 6⟩]
  numFilterIds := [∅, singleton 100 ⟨3, 4⟩, ∅]

theorem wellFormed_shopFilters : shopFilters.WellFormed := by
  refine ⟨by decide, ?_, ?_⟩
  · intro i type property hentry _
    exact (List.getElem?_eq_some_iff.mp hentry).1
  · intro i type property hentry _
    exact (List.getElem?_eq_some_iff.mp hentry).1

/-- When the file of `Category` is lost, `Price` is numbered 0 and its map stays at 1. -/
theorem not_filterIdsRestored_without_category :
    ¬ FilterIdsRestored plainText shopFilters {} (fun _ => true) (· = "Category") ∅ [] := by
  intro hrestored
  have hprice := (restored_iff plainText wellFormed_shopFilters (by simp) {} ∅ []
    (by rfl : shopFilters.propList[1]? = some (.numFilter, "Price")) (by decide)).mp
    (hrestored 1 .numFilter "Price" rfl (by decide))
  have hkey := congrArg (Finmap.lookup 100) hprice
  revert hkey
  decide

/-- Losing the last file leaves the other two properties in place. -/
theorem filterIdsRestored_without_brand :
    FilterIdsRestored plainText shopFilters {} (fun _ => true) (· = "Brand") ∅ [] := by
  refine (filterIdsRestored_iff_slotsAgree plainText wellFormed_shopFilters (by simp) {} ∅ []).mpr
    ?_
  intro i type property hentry hpresent
  have hi : i < 3 := (List.getElem?_eq_some_iff.mp hentry).1
  interval_cases i
  · cases hentry
    rfl
  · cases hentry
    rfl
  · cases hentry
    cases hpresent

end AdDelivery.SuffixMatch
