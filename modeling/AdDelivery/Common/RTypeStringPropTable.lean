import AdDelivery.Core.Run
import AdDelivery.Core.Table
import AdDelivery.Core.Vector

/-!
# Columns of strings

The values of a string property stand in an array file, in the slot of their document. Slot 0
has the maximum id. Sorting loads the column into memory, and an update writes both copies. A
deletion only reaches the file, so the columns agree exactly until a stored value is deleted.
-/

namespace AdDelivery.PropertyTables

open List Finmap Option

/-- The types of a property. -/
inductive PropertyDataType
  | STRING
  | INT8
  | INT16
  | INT32
  | INT64
  | FLOAT
  | DOUBLE
  | DATETIME
  | UNKNOWN
  | CUSTOM_RANKING
  | GEOLOCATION
  | other
deriving DecidableEq

def PropertyDataType.isNumeric : PropertyDataType → Bool
  | .INT8 | .INT16 | .INT32 | .INT64 | .FLOAT | .DOUBLE | .DATETIME => true
  | _ => false

/-- The bytes of a `std::string`. -/
abbrev Bytes := List (Fin 256)

/-- Two entries as every property table compares them. Nothing comes before a value. -/
def compareEntries {V : Type} [LinearOrder V] (invalidValue lv rv : V) : Int32 :=
  if lv = invalidValue then -1
  else if rv = invalidValue then 1
  else if lv < rv then -1
  else if rv < lv then 1
  else 0

/-- The stored column and its copy in memory. -/
structure RTypeStringPropTable where
  data_ : Table UInt32 Bytes := ∅
  dataInMem_ : List Bytes := []
  sortEnabled_ : Bool := false
  maxDocId_ : UInt32 := 0

/-- The four bytes of an `unsigned int`, the lowest first. -/
def bytesOfUInt (n : UInt32) : Bytes :=
  [Fin.ofNat 256 n.toNat, Fin.ofNat 256 (n.toNat / 256), Fin.ofNat 256 (n.toNat / 256 ^ 2),
    Fin.ofNat 256 (n.toNat / 256 ^ 3)]

/-- The number that is read from bytes. -/
def uintOfBytes (bytes : Bytes) : UInt32 :=
  UInt32.ofNat (bytes.foldr (fun byte n => byte.val + 256 * n) 0)

namespace RTypeStringPropTable

/-- Opening a file. A file without the maximum id leaves it at zero. -/
def init (data : Table UInt32 Bytes) : RTypeStringPropTable × Bool :=
  match data.lookup 0 with
  | none => ({ data_ := data }, false)
  | some bytes =>
    if bytes.length ≠ 4 then ({ data_ := data }, false)
    else ({ data_ := data, maxDocId_ := uintOfBytes bytes }, true)

variable (table : RTypeStringPropTable) (docId : UInt32)

def flush : RTypeStringPropTable :=
  { table with data_ := insert 0 (bytesOfUInt table.maxDocId_) table.data_ }

/-- The stored value of a document. -/
def getRTypeString : Option Bytes :=
  (table.data_.lookup docId).bind fun value => if value.length = 0 then none else some value

/-- The copy in memory keeps the value. -/
def delRTypeString : RTypeStringPropTable × Bool :=
  ({ table with data_ := table.data_.erase docId }, (table.data_.lookup docId).isSome)

/-- With the greatest id the size wraps to zero and the loop has no end. -/
def load_ : Option RTypeStringPropTable :=
  if table.maxDocId_ + 1 = 0 then none
  else some { table with
    dataInMem_ := (List.range (table.maxDocId_ + 1).toNat).map fun docId =>
      (table.getRTypeString (UInt32.ofNat docId)).getD [] }

/-- Load the copy that is sorted by. -/
def enableSort : Option RTypeStringPropTable :=
  if table.sortEnabled_ then some table else load_ { table with sortEnabled_ := true }

/-- The write to the copy in memory, none when it would be out of range. -/
def writeInMem (value : Bytes) : Option RTypeStringPropTable :=
  if table.sortEnabled_ then
    let dataInMem :=
      if table.dataInMem_.length ≤ docId.toNat then
        resize table.dataInMem_ (docId + 1).toNat []
      else table.dataInMem_
    if docId.toNat < dataInMem.length then
      some { table with dataInMem_ := dataInMem.set docId.toNat value }
    else none
  else some table

/-- Store a value, and write it to the copy. -/
def updateRTypeString (value : Bytes) : Option (RTypeStringPropTable × Bool) :=
  if value.length = 0 then some (table, false)
  else
    (table.writeInMem docId value).map fun table =>
      ({ table with
          maxDocId_ := if table.maxDocId_.toNat < docId.toNat then docId else table.maxDocId_
          data_ := insert docId value table.data_ }, true)

/-- Give a document the value of another. -/
def copyValue (docIdFrom docIdTo : UInt32) : Option (RTypeStringPropTable × Bool) :=
  match table.getRTypeString docIdFrom with
  | some value => table.updateRTypeString docIdTo value
  | none => some (table, false)

/-- Compare two documents by the copy. -/
def compareValues (lhs rhs : ℕ) : Int32 :=
  if table.maxDocId_.toNat < lhs ∨ table.maxDocId_.toNat < rhs then -1
  else compareEntries [] (table.dataInMem_.getD lhs []) (table.dataInMem_.getD rhs [])

end RTypeStringPropTable

/-- The calls that touch the column. -/
inductive ColumnCall
  | updateRTypeString (docId : UInt32) (value : Bytes)
  | copyValue (docIdFrom docIdTo : UInt32)
  | delRTypeString (docId : UInt32)
  | enableSort
  | reopen

namespace RTypeStringPropTable

/-- What a call makes of the table. -/
def call (table : RTypeStringPropTable) : ColumnCall → Option RTypeStringPropTable
  | .updateRTypeString docId value => (table.updateRTypeString docId value).map Prod.fst
  | .copyValue docIdFrom docIdTo => (table.copyValue docIdFrom docIdTo).map Prod.fst
  | .delRTypeString docId => some (table.delRTypeString docId).1
  | .enableSort => table.enableSort
  | .reopen => some (init table.flush.data_).1

variable (s : Option RTypeStringPropTable)

/-- A write out of range stops the table. -/
def Step (call : ColumnCall) (s' : Option RTypeStringPropTable) : Prop :=
  s' = s.bind fun table => table.call call

/-- The current value of a document, empty without one. -/
def current (table : RTypeStringPropTable) (docId : UInt32) : Bytes :=
  (table.getRTypeString docId).getD []

/-- The copy in memory has what is stored. -/
structure Mirrors (table : RTypeStringPropTable) : Prop where
  length_le : table.maxDocId_.toNat + 1 ≤ table.dataInMem_.length
  entry : ∀ docId : UInt32, docId ≠ 0 → docId.toNat ≤ table.maxDocId_.toNat →
    table.dataInMem_.getD docId.toNat [] = table.current docId

/-- Documents are compared by what is stored for them. -/
def ComparesCurrent (table : RTypeStringPropTable) : Prop :=
  ∀ lhs rhs : UInt32, lhs ≠ 0 → rhs ≠ 0 →
    lhs.toNat ≤ table.maxDocId_.toNat → rhs.toNat ≤ table.maxDocId_.toNat →
    table.compareValues lhs.toNat rhs.toNat =
      compareEntries [] (table.current lhs) (table.current rhs)

/-- A table that sorts by what it stores. -/
def Agrees (table : RTypeStringPropTable) : Prop :=
  table.sortEnabled_ → table.Mirrors ∧ table.ComparesCurrent

/-- The table has not stopped and agrees with its file. -/
def InStep : Prop := ∃ table, s = some table ∧ table.Agrees

/-- While the column is in memory no stored value is deleted and nothing is written for the
greatest id. The column is not loaded when that id has been written. -/
def CallFits (table : RTypeStringPropTable) : ColumnCall → Prop
  | .updateRTypeString docId value => table.sortEnabled_ → value ≠ [] → docId + 1 ≠ 0
  | .copyValue docIdFrom docIdTo =>
    table.sortEnabled_ → (table.getRTypeString docIdFrom).isSome → docIdTo + 1 ≠ 0
  | .delRTypeString docId => table.sortEnabled_ → docId ≠ 0 → docId ∉ table.data_
  | .enableSort => ¬ table.sortEnabled_ → table.maxDocId_ + 1 ≠ 0
  | .reopen => True

def Fits (call : ColumnCall) : Prop :=
  ∀ table, s = some table → table.CallFits call

/-- Only values are stored, and only for documents up to the maximum id. -/
structure WellFormed (table : RTypeStringPropTable) : Prop where
  nonempty : ∀ docId value, table.data_.lookup docId = some value → value ≠ []
  le_max : ∀ docId ∈ table.data_, docId.toNat ≤ table.maxDocId_.toNat
  length_le : table.dataInMem_.length ≤ table.maxDocId_.toNat + 1
  length_lt : table.dataInMem_.length < 2 ^ 32

variable {table : RTypeStringPropTable} {docId : UInt32} {value : Bytes}

theorem toNat_add_one (h : docId + 1 ≠ 0) : (docId + 1).toNat = docId.toNat + 1 := by
  have hlt := docId.toNat_lt
  have hne : ¬ (docId + 1).toNat = 0 := fun h0 => h (UInt32.toNat_inj.mp h0)
  rw [UInt32.toNat_add, UInt32.toNat_one] at hne ⊢
  omega

theorem toNat_eq_of_add_one (h : docId + 1 = 0) : docId.toNat + 1 = 2 ^ 32 := by
  have hlt := docId.toNat_lt
  have h0 : (docId + 1).toNat = 0 := by rw [h]; rfl
  rw [UInt32.toNat_add, UInt32.toNat_one] at h0
  omega

theorem uintOfBytes_bytesOfUInt (n : UInt32) : uintOfBytes (bytesOfUInt n) = n := by
  have hlt := n.toNat_lt
  apply UInt32.toNat_inj.mp
  simp only [uintOfBytes, bytesOfUInt, foldr_cons, foldr_nil, Fin.val_ofNat, UInt32.toNat_ofNat']
  omega

theorem getRTypeString_eq (h : table.WellFormed) (docId : UInt32) :
    table.getRTypeString docId = table.data_.lookup docId := by
  rw [getRTypeString]
  cases hlookup : table.data_.lookup docId with
  | none => rfl
  | some value =>
    exact if_neg (mt length_eq_zero_iff.mp (h.nonempty docId value hlookup))

theorem current_eq (h : table.WellFormed) (docId : UInt32) :
    table.current docId = (table.data_.lookup docId).getD [] := by
  rw [current, getRTypeString_eq h]

theorem current_of_max_lt (h : table.WellFormed)
    (hlt : table.maxDocId_.toNat < docId.toNat) : table.current docId = [] := by
  have hnot : docId ∉ table.data_ := fun hmem => absurd (h.le_max docId hmem) (by omega)
  rw [current_eq h, lookup_eq_none.mpr hnot, getD_none]

theorem call_reopen (table : RTypeStringPropTable) : table.call .reopen =
      some { data_ := table.flush.data_, maxDocId_ := table.maxDocId_ } := by
  have hlookup : table.flush.data_.lookup 0 = some (bytesOfUInt table.maxDocId_) :=
    lookup_insert _
  simp only [call, init, hlookup, uintOfBytes_bytesOfUInt]
  rfl

theorem writeInMem_of_sort (hsort : table.sortEnabled_) (h : docId + 1 ≠ 0) :
    table.writeInMem docId value = some { table with
      dataInMem_ := (growTo table.dataInMem_ (docId.toNat + 1) []).set docId.toNat value } := by
  have hgrow : (if table.dataInMem_.length ≤ docId.toNat then
      resize table.dataInMem_ (docId + 1).toNat [] else table.dataInMem_) =
        growTo table.dataInMem_ (docId.toNat + 1) [] := by
    rw [toNat_add_one h]
    unfold growTo
    split <;> split <;> first | rfl | omega
  have hlt : docId.toNat < (growTo table.dataInMem_ (docId.toNat + 1) ([] : Bytes)).length := by
    rw [length_growTo]
    omega
  rw [writeInMem, if_pos hsort]
  simp only [hgrow]
  rw [if_pos hlt]

theorem writeInMem_eq_none (hsort : table.sortEnabled_) (h : docId + 1 = 0)
    (hlength : table.dataInMem_.length < 2 ^ 32) : table.writeInMem docId value = none := by
  have hdocId := toNat_eq_of_add_one h
  have hle : table.dataInMem_.length ≤ docId.toNat := by omega
  rw [writeInMem, if_pos hsort]
  simp only [h, if_pos hle]
  rw [if_neg]
  rw [length_resize, UInt32.toNat_zero]
  omega

theorem writeInMem_of_not_sort (hsort : ¬ table.sortEnabled_) :
    table.writeInMem docId value = some table :=
  if_neg hsort

/-- The table after the write to memory has been made. -/
def stored (table : RTypeStringPropTable) (docId : UInt32) (value : Bytes)
    (dataInMem : List Bytes) : RTypeStringPropTable :=
  { table with
    dataInMem_ := dataInMem
    maxDocId_ := if table.maxDocId_.toNat < docId.toNat then docId else table.maxDocId_
    data_ := insert docId value table.data_ }

theorem updateRTypeString_of_sort (hvalue : value ≠ []) (hsort : table.sortEnabled_)
    (h : docId + 1 ≠ 0) : table.updateRTypeString docId value = some (table.stored docId value
      ((growTo table.dataInMem_ (docId.toNat + 1) []).set docId.toNat value), true) := by
  rw [updateRTypeString, if_neg (mt length_eq_zero_iff.mp hvalue), writeInMem_of_sort hsort h]
  rfl

theorem updateRTypeString_eq_none (hvalue : value ≠ []) (hsort : table.sortEnabled_)
    (h : docId + 1 = 0) (hlength : table.dataInMem_.length < 2 ^ 32) :
    table.updateRTypeString docId value = none := by
  rw [updateRTypeString, if_neg (mt length_eq_zero_iff.mp hvalue),
    writeInMem_eq_none hsort h hlength]
  rfl

theorem updateRTypeString_of_not_sort (hvalue : value ≠ []) (hsort : ¬ table.sortEnabled_) :
    table.updateRTypeString docId value =
      some (table.stored docId value table.dataInMem_, true) := by
  rw [updateRTypeString, if_neg (mt length_eq_zero_iff.mp hvalue), writeInMem_of_not_sort hsort]
  rfl

theorem toNat_maxDocId_stored (dataInMem : List Bytes) :
    (table.stored docId value dataInMem).maxDocId_.toNat =
      max table.maxDocId_.toNat docId.toNat := by
  rw [stored]
  dsimp only
  split <;> omega

theorem WellFormed.stored (h : table.WellFormed) (hvalue : value ≠ []) {dataInMem : List Bytes}
    (hle : dataInMem.length ≤ max table.dataInMem_.length (docId.toNat + 1))
    (hlt : dataInMem.length < 2 ^ 32) : (table.stored docId value dataInMem).WellFormed where
  nonempty docId' value' hlookup := by
    have hlookup' := (Table.lookup_insert_eq table.data_ docId docId' value).symm.trans hlookup
    split at hlookup'
    · rwa [← some.inj hlookup']
    · exact h.nonempty docId' value' hlookup'
  le_max docId' hmem := by
    rw [toNat_maxDocId_stored]
    rcases mem_insert.mp hmem with rfl | hmem
    · exact le_max_right _ _
    · exact (h.le_max docId' hmem).trans (le_max_left _ _)
  length_le := by
    have hlength := h.length_le
    rw [toNat_maxDocId_stored]
    change dataInMem.length ≤ _
    omega
  length_lt := hlt

/-- A write changes one document. -/
theorem current_stored (hvalue : value ≠ []) (dataInMem : List Bytes) (docId' : UInt32) :
    (table.stored docId value dataInMem).current docId' =
      if docId' = docId then value else table.current docId' := by
  have hlookup : (table.stored docId value dataInMem).data_.lookup docId' =
      if docId' = docId then some value else table.data_.lookup docId' :=
    Table.lookup_insert_eq table.data_ docId docId' value
  rw [current, getRTypeString, hlookup]
  split
  · simp [hvalue]
  · rfl

/-- A write to both copies keeps them equal. -/
theorem Mirrors.stored (h : table.Mirrors) (hform : table.WellFormed) (hvalue : value ≠ []) :
    (table.stored docId value
      ((growTo table.dataInMem_ (docId.toNat + 1) []).set docId.toNat value)).Mirrors where
  length_le := by
    have hlength := h.length_le
    rw [toNat_maxDocId_stored]
    change _ ≤ ((growTo _ _ _).set _ _).length
    rw [length_set, length_growTo]
    omega
  entry docId' hne hle := by
    rw [current_stored hvalue]
    change ((growTo _ _ _).set _ _).getD _ _ = _
    rw [getD_eq_getElem?_getD, getElem?_set, length_growTo]
    by_cases heq : docId' = docId
    · subst heq
      rw [if_pos rfl, if_pos (by omega), if_pos rfl, Option.getD_some]
    · have hneq : ¬ docId.toNat = docId'.toNat := fun h => heq (UInt32.toNat_inj.mp h.symm)
      rw [if_neg hneq, if_neg heq, ← getD_eq_getElem?_getD, getD_growTo]
      by_cases hmax : docId'.toNat ≤ table.maxDocId_.toNat
      · exact h.entry docId' hne hmax
      · have hbeyond := hform.length_le
        rw [getD_eq_getElem?_getD, getElem?_eq_none (by omega), getD_none,
          current_of_max_lt hform (by omega)]

theorem compareValues_of_mirrors (h : table.Mirrors) : table.ComparesCurrent := by
  intro lhs rhs hlhs hrhs hlhsMax hrhsMax
  rw [compareValues, if_neg (by omega), h.entry lhs hlhs hlhsMax, h.entry rhs hrhs hrhsMax]

theorem agrees_iff : table.Agrees ↔ (table.sortEnabled_ → table.Mirrors) :=
  forall_congr' fun _ => and_iff_left_of_imp compareValues_of_mirrors

theorem inStep_some : InStep (some table) ↔ table.Agrees := by
  constructor
  · rintro ⟨table', htable, hagrees⟩
    cases htable
    exact hagrees
  · intro hagrees
    exact ⟨table, rfl, hagrees⟩

theorem not_inStep_none : ¬ InStep none := by
  rintro ⟨table, htable, -⟩
  cases htable

/-- What is known in any state. -/
def Known : Prop := ∀ table, s = some table → table.WellFormed

theorem known_none : Known none := by
  intro table htable
  cases htable

theorem known_some (h : table.WellFormed) : Known (some table) := by
  intro table' htable
  cases htable
  exact h

theorem update_known (h : table.WellFormed) :
    Known ((table.updateRTypeString docId value).map Prod.fst) := by
  by_cases hvalue : value = []
  · subst hvalue
    exact known_some h
  by_cases hsort : table.sortEnabled_
  · by_cases hdocId : docId + 1 = 0
    · rw [updateRTypeString_eq_none hvalue hsort hdocId h.length_lt]
      exact known_none
    · have hlt := (docId + 1).toNat_lt
      have hlength := h.length_lt
      rw [toNat_add_one hdocId] at hlt
      rw [updateRTypeString_of_sort hvalue hsort hdocId]
      refine known_some (h.stored hvalue ?_ ?_)
      · rw [length_set, length_growTo]
      · rw [length_set, length_growTo]
        exact max_lt hlength hlt
  · rw [updateRTypeString_of_not_sort hvalue hsort]
    exact known_some (h.stored hvalue (le_max_left _ _) h.length_lt)

theorem update_inStep_iff (h : table.WellFormed) (hagrees : table.Agrees) :
    InStep ((table.updateRTypeString docId value).map Prod.fst) ↔
      (table.sortEnabled_ → value ≠ [] → docId + 1 ≠ 0) := by
  by_cases hvalue : value = []
  · subst hvalue
    exact iff_of_true (inStep_some.mpr hagrees) (fun _ hne => absurd rfl hne)
  by_cases hsort : table.sortEnabled_
  · by_cases hdocId : docId + 1 = 0
    · rw [updateRTypeString_eq_none hvalue hsort hdocId h.length_lt]
      exact iff_of_false not_inStep_none (fun hfits => hfits hsort hvalue hdocId)
    · rw [updateRTypeString_of_sort hvalue hsort hdocId]
      refine iff_of_true (inStep_some.mpr (agrees_iff.mpr fun _ => ?_)) (fun _ _ => hdocId)
      exact (hagrees hsort).1.stored h hvalue
  · rw [updateRTypeString_of_not_sort hvalue hsort]
    exact iff_of_true (inStep_some.mpr fun hsort' => absurd hsort' hsort)
      (fun hsort' => absurd hsort' hsort)

theorem lookup_erase (table : RTypeStringPropTable) (docId docId' : UInt32) :
    (table.delRTypeString docId).1.data_.lookup docId' =
      if docId' = docId then none else table.data_.lookup docId' := by
  split
  · rename_i heq
    subst heq
    exact Finmap.lookup_erase _ _
  · exact Finmap.lookup_erase_ne ‹_›

theorem WellFormed.delRTypeString (h : table.WellFormed) (docId : UInt32) :
    (table.delRTypeString docId).1.WellFormed where
  nonempty docId' value' hlookup := by
    rw [lookup_erase] at hlookup
    split at hlookup
    · cases hlookup
    · exact h.nonempty docId' value' hlookup
  le_max docId' hmem := h.le_max docId' (mem_erase.mp hmem).2
  length_le := h.length_le
  length_lt := h.length_lt

theorem current_delRTypeString (h : table.WellFormed) (docId docId' : UInt32) :
    (table.delRTypeString docId).1.current docId' =
      if docId' = docId then [] else table.current docId' := by
  rw [current_eq (h.delRTypeString docId), lookup_erase, current_eq h]
  split <;> rfl

theorem del_inStep_iff (h : table.WellFormed) (hagrees : table.Agrees) :
    InStep (some (table.delRTypeString docId).1) ↔
      (table.sortEnabled_ → docId ≠ 0 → docId ∉ table.data_) := by
  rw [inStep_some, agrees_iff]
  refine forall_congr' fun hsort => ?_
  have hmirrors := (hagrees hsort).1
  constructor
  · -- the entry in memory has outlived the value
    intro hdel hne hmem
    obtain ⟨value, hlookup⟩ := mem_iff.mp hmem
    have hold := hmirrors.entry docId hne (h.le_max docId hmem)
    have hnew : table.dataInMem_.getD docId.toNat [] = _ :=
      hdel.entry docId hne (h.le_max docId hmem)
    rw [current_delRTypeString h, if_pos rfl] at hnew
    rw [hnew, current_eq h, hlookup] at hold
    exact h.nonempty docId value hlookup hold.symm
  · intro hnot
    refine ⟨hmirrors.length_le, ?_⟩
    intro docId' hne hle
    rw [current_delRTypeString h]
    refine (hmirrors.entry docId' hne hle).trans ?_
    split
    · rename_i heq
      subst heq
      rw [current_eq h, lookup_eq_none.mpr (hnot hne), getD_none]
    · rfl

theorem enableSort_of_not_sort (hsort : ¬ table.sortEnabled_) (hmax : table.maxDocId_ + 1 ≠ 0) :
    table.enableSort = some { table with
      sortEnabled_ := true
      dataInMem_ := (List.range (table.maxDocId_.toNat + 1)).map fun docId =>
        table.current (UInt32.ofNat docId) } := by
  rw [enableSort, if_neg hsort, load_, if_neg hmax, toNat_add_one hmax]
  rfl

theorem enableSort_eq_none (hsort : ¬ table.sortEnabled_) (hmax : table.maxDocId_ + 1 = 0) :
    table.enableSort = none := by
  rw [enableSort, if_neg hsort, load_, if_pos hmax]

theorem enableSort_known (h : table.WellFormed) : Known table.enableSort := by
  by_cases hsort : table.sortEnabled_
  · rw [enableSort, if_pos hsort]
    exact known_some h
  by_cases hmax : table.maxDocId_ + 1 = 0
  · rw [enableSort_eq_none hsort hmax]
    exact known_none
  · have hlt := (table.maxDocId_ + 1).toNat_lt
    rw [toNat_add_one hmax] at hlt
    rw [enableSort_of_not_sort hsort hmax]
    refine known_some ⟨h.nonempty, h.le_max, ?_, ?_⟩
    · rw [List.length_map, length_range]
    · rw [List.length_map, length_range]
      exact hlt

theorem enableSort_inStep_iff (hagrees : table.Agrees) :
    InStep table.enableSort ↔ (¬ table.sortEnabled_ → table.maxDocId_ + 1 ≠ 0) := by
  by_cases hsort : table.sortEnabled_
  · rw [enableSort, if_pos hsort]
    exact iff_of_true (inStep_some.mpr hagrees) (fun hnot => absurd hsort hnot)
  by_cases hmax : table.maxDocId_ + 1 = 0
  · rw [enableSort_eq_none hsort hmax]
    exact iff_of_false not_inStep_none (fun hne => hne hsort hmax)
  · rw [enableSort_of_not_sort hsort hmax]
    refine iff_of_true (inStep_some.mpr (agrees_iff.mpr fun _ => ⟨?_, ?_⟩)) (fun _ => hmax)
    · rw [List.length_map, length_range]
    · intro docId _ hle
      have hget : (List.range (table.maxDocId_.toNat + 1))[docId.toNat]? = some docId.toNat :=
        getElem?_range (Nat.lt_succ_of_le hle)
      rw [getD_eq_getElem?_getD, getElem?_map, hget, Option.map_some, UInt32.ofNat_toNat]
      rfl

theorem reopen_wellFormed (h : table.WellFormed) :
    WellFormed { data_ := table.flush.data_, maxDocId_ := table.maxDocId_ } where
  nonempty docId value hlookup := by
    have hlookup' := (Table.lookup_insert_eq table.data_ 0 docId _).symm.trans hlookup
    split at hlookup'
    · rw [← some.inj hlookup']
      exact cons_ne_nil _ _
    · exact h.nonempty docId value hlookup'
  le_max docId hmem := by
    rcases mem_insert.mp hmem with rfl | hmem
    · exact Nat.zero_le _
    · exact h.le_max docId hmem
  length_le := Nat.zero_le _
  length_lt := Nat.two_pow_pos 32

theorem call_known (h : table.WellFormed) (call : ColumnCall) : Known (table.call call) := by
  cases call with
  | updateRTypeString docId value => exact update_known h
  | copyValue docIdFrom docIdTo =>
    rw [RTypeStringPropTable.call, copyValue]
    cases table.getRTypeString docIdFrom with
    | none => exact known_some h
    | some value => exact update_known h
  | delRTypeString docId => exact known_some (h.delRTypeString docId)
  | enableSort => exact enableSort_known h
  | reopen =>
    rw [call_reopen]
    exact known_some (reopen_wellFormed h)

/-- A call keeps the columns equal exactly when it fits. -/
theorem call_inStep_iff (h : table.WellFormed) (hagrees : table.Agrees) (call : ColumnCall) :
    InStep (table.call call) ↔ table.CallFits call := by
  cases call with
  | updateRTypeString docId value => exact update_inStep_iff h hagrees
  | copyValue docIdFrom docIdTo =>
    rw [RTypeStringPropTable.call, copyValue, CallFits]
    cases hfrom : table.getRTypeString docIdFrom with
    | none => simp [inStep_some, hagrees]
    | some value =>
      have hvalue : value ≠ [] :=
        h.nonempty docIdFrom value ((getRTypeString_eq h docIdFrom).symm.trans hfrom)
      have hupdate : InStep ((table.updateRTypeString docIdTo value).map Prod.fst) ↔
          (table.sortEnabled_ → value ≠ [] → docIdTo + 1 ≠ 0) := update_inStep_iff h hagrees
      simpa [hvalue] using hupdate
  | delRTypeString docId => exact del_inStep_iff h hagrees
  | enableSort => exact enableSort_inStep_iff hagrees
  | reopen =>
    rw [call_reopen]
    refine iff_of_true (inStep_some.mpr fun hsort => ?_) trivial
    cases hsort

/-- Once sorting is enabled the copy in memory is the stored column all along a run exactly when
no call deletes a value that is in memory, and none needs an entry for the greatest id. -/
theorem column_inStep_iff (calls : List ColumnCall) :
    HoldsAlong Step InStep (some {}) calls ↔ StepsMeet Step Fits (some {}) calls := by
  refine holdsAlong_iff_stepsMeet (Q := Known) ?_ ?_ ?_ ?_ calls
  · rintro s call s' hknown rfl
    cases s with
    | none => exact known_none
    | some table => exact call_known (hknown table rfl) call
  · rintro s call s' hknown ⟨table, rfl, hagrees⟩ rfl
    rw [bind_some, call_inStep_iff (hknown table rfl) hagrees]
    constructor
    · rintro hfits table' htable
      cases htable
      exact hfits
    · intro hfits
      exact hfits table rfl
  · exact known_some ⟨fun _ _ hlookup => by simp at hlookup, fun _ hmem => absurd hmem
      notMem_empty, Nat.zero_le _, Nat.two_pow_pos 32⟩
  · exact inStep_some.mpr fun hsort => by cases hsort

/-- A deleted value goes on being sorted by. -/
theorem deleted_value_sorted :
    ¬ ∀ calls : List ColumnCall, HoldsAlong Step InStep (some {}) calls := by
  intro h
  have hrun : Run Step (some {})
      [.updateRTypeString 1 [97], .enableSort, .delRTypeString 1]
      (some { data_ := (insert 1 [97] ∅ : Table UInt32 Bytes).erase 1
              dataInMem_ := [[], [97]]
              sortEnabled_ := true
              maxDocId_ := 1 }) := by
    refine .cons rfl (.cons rfl (.cons ?_ (.nil _)))
    rfl
  obtain ⟨table, htable, hagrees⟩ := h _ _ [] _ (append_nil _) hrun
  cases htable
  exact absurd ((hagrees rfl).1.entry 1 (by decide) (by decide)) (by decide)

end RTypeStringPropTable

end AdDelivery.PropertyTables
