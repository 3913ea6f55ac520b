import AdDelivery.Core.Run
import AdDelivery.Core.Vector
import Mathlib.Data.Nat.Bitwise
import Mathlib.Tactic.Ring

/-!
# Value ids of documents

A document without a value, or with one, needs a single word: the id itself. The lists of all
other documents stand in one array that only grows, each behind its length, and the word holds
the offset with its highest bit set. The length is stored as a value id, so a list has to be
shorter than the number of value ids there can be.
-/

namespace AdDelivery.GroupManager

open List BitVec Function

/-- `w` is the width of a value id, 16 or 32; the index words have 32 bits. -/
structure PropIdTable (w : ℕ) where
  indexTable : List (BitVec 32) := [0]
  multiValueTable : List (BitVec w) := []

def indexMsb : BitVec 32 := 1#32 <<< 31

def indexMask : BitVec 32 := ~~~indexMsb

/-- A view of one list. The iterator is the part of the array that begins at it. -/
structure PropIdList (w : ℕ) where
  size : BitVec w := 0
  singleValueId : BitVec w := 0
  multiValueIter : List (BitVec w) := []

structure MiningException where
  what : String
  value : ℕ
  source : String

/-- How a call ends. An exception leaves a table behind; writing outside of the index table
has no defined outcome. -/
inductive Outcome (w : ℕ)
  | returned (table : PropIdTable w)
  | thrown (error : MiningException) (table : PropIdTable w)
  | undefined

variable {w : ℕ}

namespace PropIdList

/-- The subscript operator. -/
def get (list : PropIdList w) (i : ℕ) : BitVec w :=
  if list.size.toNat ≤ i then 0
  else if list.size.toNat = 1 then list.singleValueId
  else list.multiValueIter.getD i 0

/-- What a loop over all positions reads. -/
def toList (list : PropIdList w) : List (BitVec w) := (List.range list.size.toNat).map list.get

end PropIdList

namespace PropIdTable

def getIdList (table : PropIdTable w) (docId : BitVec 32) : PropIdList w :=
  if table.indexTable.length ≤ docId.toNat then {}
  else
    let index := table.indexTable.getD docId.toNat 0
    if index &&& indexMsb ≠ 0 then
      let it := table.multiValueTable.drop (index &&& indexMask).toNat
      { size := it.headD 0, multiValueIter := it.tail }
    else if index ≠ 0 then { size := 1, singleValueId := index.setWidth w }
    else {}

def getIdCount (table : PropIdTable w) (docId : BitVec 32) : ℕ :=
  if table.indexTable.length ≤ docId.toNat then 0
  else
    let index := table.indexTable.getD docId.toNat 0
    if index &&& indexMsb ≠ 0 then
      (table.multiValueTable.getD (index &&& indexMask).toNat 0).toNat
    else if index ≠ 0 then 1
    else 0

/-- The size `docId + 1` is computed in the 32 bits of a document id. -/
def setIdList (table : PropIdTable w) (docId : BitVec 32) (idContainer : List (BitVec w)) :
    Outcome w :=
  let indexTable :=
    if table.indexTable.length ≤ docId.toNat then resize table.indexTable (docId + 1).toNat 0
    else table.indexTable
  if indexTable.length ≤ docId.toNat then .undefined
  else
    match idContainer with
    | [] => .returned { table with indexTable := indexTable.set docId.toNat 0 }
    | [inputId] =>
      if indexMsb.toNat ≤ inputId.toNat then
        .thrown ⟨"property value id is out of range", inputId.toNat, "PropIdTable::setIdList"⟩
          { table with indexTable := indexTable }
      else
        .returned { table with indexTable := indexTable.set docId.toNat (inputId.setWidth 32) }
    | _ =>
      let valueTableSize := table.multiValueTable.length
      if indexMsb.toNat ≤ valueTableSize then
        .thrown ⟨"property value count is out of range", valueTableSize, "PropIdTable::setIdList"⟩
          { table with indexTable := indexTable }
      else
        .returned {
          indexTable :=
            indexTable.set docId.toNat (indexMsb ||| BitVec.ofNat 32 valueTableSize)
          multiValueTable :=
            table.multiValueTable ++ BitVec.ofNat w idContainer.length :: idContainer }

end PropIdTable

@[simp] theorem toNat_indexMsb : indexMsb.toNat = 2 ^ 31 := by decide

@[simp] theorem toNat_indexMask : indexMask.toNat = 2 ^ 31 - 1 := by decide

variable (index : BitVec 32)

theorem toNat_and_indexMask : (index &&& indexMask).toNat = index.toNat % 2 ^ 31 := by
  rw [toNat_and, toNat_indexMask, Nat.and_two_pow_sub_one_eq_mod]

theorem and_indexMsb_ne_zero_iff : index &&& indexMsb ≠ 0 ↔ 2 ^ 31 ≤ index.toNat := by
  have hand : (index &&& indexMsb).toNat = (index.toNat.testBit 31).toNat * 2 ^ 31 := by
    rw [toNat_and, toNat_indexMsb, Nat.and_two_pow]
  have hmsb : index.toNat.testBit 31 = decide (2 ^ 31 ≤ index.toNat) :=
    msb_eq_decide index
  rw [Ne, ← toNat_inj, hand, hmsb]
  simp

theorem toNat_indexMsb_or {offset : ℕ} (h : offset < 2 ^ 31) :
    (indexMsb ||| BitVec.ofNat 32 offset).toNat = 2 ^ 31 + offset := by
  have hadd := Nat.two_pow_add_eq_or_of_lt h 1
  rw [Nat.mul_one] at hadd
  rw [toNat_or, toNat_indexMsb, toNat_ofNat, Nat.mod_eq_of_lt (by omega), hadd]

/-- The list that an index word stands for. -/
def decode (values : List (BitVec w)) (index : BitVec 32) : PropIdList w :=
  if 2 ^ 31 ≤ index.toNat then
    { size := values.getD (index.toNat % 2 ^ 31) 0
      multiValueIter := values.drop (index.toNat % 2 ^ 31 + 1) }
  else if index ≠ 0 then { size := 1, singleValueId := index.setWidth w }
  else {}

/-- The list of an index word lies within the array. -/
def InArray (values : List (BitVec w)) (index : BitVec 32) : Prop :=
  2 ^ 31 ≤ index.toNat →
    index.toNat % 2 ^ 31 + 1 + (values.getD (index.toNat % 2 ^ 31) 0).toNat ≤ values.length

variable (table : PropIdTable w) (docId : BitVec 32)

theorem getIdList_eq_decode : table.getIdList docId =
      decode table.multiValueTable (table.indexTable.getD docId.toNat 0) := by
  unfold PropIdTable.getIdList decode
  by_cases hrange : table.indexTable.length ≤ docId.toNat
  · rw [getD_eq_default _ _ hrange]
    simp
  · rw [if_neg hrange]
    simp only [and_indexMsb_ne_zero_iff, toNat_and_indexMask]
    rw [headD_eq_head?_getD, head?_drop, ← getD_eq_getElem?_getD, tail_drop]

theorem getIdCount_eq_size (hw : 0 < w) (table : PropIdTable w) (docId : BitVec 32) :
    table.getIdCount docId = (table.getIdList docId).size.toNat := by
  have hone : (1 : BitVec w).toNat = 1 := toNat_one hw
  rw [getIdList_eq_decode]
  unfold PropIdTable.getIdCount decode
  by_cases hrange : table.indexTable.length ≤ docId.toNat
  · rw [getD_eq_default _ _ hrange]
    simp
  · rw [if_neg hrange]
    simp only [and_indexMsb_ne_zero_iff, toNat_and_indexMask]
    split
    · rfl
    · split
      · exact hone.symm
      · simp

@[simp] theorem length_toList (list : PropIdList w) : list.toList.length = list.size.toNat := by
  simp [PropIdList.toList]

@[simp] theorem toList_empty : ({} : PropIdList w).toList = [] := by
  simp [PropIdList.toList]

variable {values : List (BitVec w)}

/-- What lies behind the list of an index word is never read. -/
theorem decode_append {index : BitVec 32} (h : InArray values index) (extra : List (BitVec w)) :
    (decode (values ++ extra) index).toList = (decode values index).toList := by
  unfold decode
  split
  · rename_i hmulti
    have hrange := h hmulti
    have hsize : (values ++ extra).getD (index.toNat % 2 ^ 31) 0 =
        values.getD (index.toNat % 2 ^ 31) 0 := by
      rw [getD_append]
      omega
    rw [PropIdList.toList]
    simp only [hsize]
    apply map_congr_left
    intro i hi
    rw [mem_range] at hi
    unfold PropIdList.get
    have hdrop : (values ++ extra).drop (index.toNat % 2 ^ 31 + 1) =
        values.drop (index.toNat % 2 ^ 31 + 1) ++ extra := by
      rw [drop_append_of_le_length (by omega)]
    rw [hdrop, getD_append]
    rw [length_drop]
    omega
  · rfl

theorem InArray.append {index : BitVec 32} (h : InArray values index) (extra : List (BitVec w)) :
    InArray (values ++ extra) index := by
  intro hmulti
  have hrange := h hmulti
  rw [getD_append _ _ _ _ (by omega), length_append]
  omega

/-- The word for a list and what is appended to the array for it. -/
inductive Encodes (values : List (BitVec w)) :
    List (BitVec w) → BitVec 32 → List (BitVec w) → Prop
  | none : Encodes values [] 0 []
  | single {id : BitVec w} (h : id.toNat < 2 ^ 31) : Encodes values [id] (id.setWidth 32) []
  | multi {ids : List (BitVec w)} (hids : 2 ≤ ids.length) (h : values.length < 2 ^ 31) :
      Encodes values ids (indexMsb ||| BitVec.ofNat 32 values.length)
        (BitVec.ofNat w ids.length :: ids)

section Encodes

variable {values ids extra : List (BitVec w)} {index : BitVec 32}

theorem Encodes.inArray (h : Encodes values ids index extra) : InArray (values ++ extra) index := by
  intro hmulti
  cases h with
  | none => simp at hmulti
  | single h =>
    rw [BitVec.toNat_setWidth] at hmulti
    omega
  | multi hids h =>
    have hmod : (2 ^ 31 + values.length) % 2 ^ 31 = values.length := by omega
    rw [toNat_indexMsb_or h, hmod, getD_append_right _ _ _ _ (Nat.le_refl _), Nat.sub_self,
      getD_cons_zero, BitVec.toNat_ofNat, length_append, length_cons]
    have := Nat.mod_le ids.length (2 ^ w)
    omega

theorem Encodes.length_le_one (h : Encodes values ids index extra)
    (hfull : 2 ^ 31 ≤ values.length) : ids.length ≤ 1 := by
  cases h with
  | none => exact Nat.zero_le 1
  | single _ => exact Nat.le_refl 1
  | multi _ hvalues => omega

/-- A list is read back exactly when its length fits a value id. -/
theorem Encodes.toList_eq_iff (hw : 0 < w) (hnonzero : ∀ id ∈ ids, id ≠ 0)
    (h : Encodes values ids index extra) :
    (decode (values ++ extra) index).toList = ids ↔ ids.length < 2 ^ w := by
  have hpow : 0 < 2 ^ w := Nat.two_pow_pos w
  cases h with
  | none => exact iff_of_true toList_empty hpow
  | @single id h =>
    have hone : 1 < 2 ^ w := Nat.one_lt_two_pow (by omega)
    have hword : (id.setWidth 32).toNat = id.toNat := by
      rw [BitVec.toNat_setWidth, Nat.mod_eq_of_lt (by omega)]
    have hne : id.setWidth 32 ≠ 0 := by
      intro hzero
      apply hnonzero id (mem_singleton_self id)
      apply eq_of_toNat_eq
      rw [← hword, hzero]
      simp
    have hback : (id.setWidth 32).setWidth w = id := by
      apply eq_of_toNat_eq
      rw [toNat_setWidth, hword, Nat.mod_eq_of_lt id.isLt]
    rw [decode, if_neg (by omega), if_pos hne, hback]
    refine iff_of_true ?_ hone
    have hsize : (1 : BitVec w).toNat = 1 := toNat_one hw
    rw [PropIdList.toList, hsize, range_one, map_singleton, PropIdList.get]
    simp only [hsize]
    rfl
  | multi hids h =>
    have hmod : (2 ^ 31 + values.length) % 2 ^ 31 = values.length := by omega
    have hsize : (values ++ BitVec.ofNat w ids.length :: ids).getD values.length 0 =
        BitVec.ofNat w ids.length := by
      rw [getD_append_right _ _ _ _ (Nat.le_refl _), Nat.sub_self, getD_cons_zero]
    rw [decode, if_pos (by rw [toNat_indexMsb_or h]; omega), toNat_indexMsb_or h, hmod, hsize]
    constructor
    · intro hlist
      have hlength := congrArg List.length hlist
      rw [length_toList] at hlength
      exact hlength ▸ Nat.mod_lt _ hpow
    · intro hlt
      apply ext_getElem
      · simp [Nat.mod_eq_of_lt hlt]
      · intro i hi hi'
        have hdrop : (values ++ BitVec.ofNat w ids.length :: ids).drop (values.length + 1) =
            ids := by
          simp
        have hget : ids.getD i 0 = ids[i] := getD_eq_getElem _ _ hi'
        simp only [PropIdList.toList, PropIdList.get, getElem_map, getElem_range,
          toNat_ofNat, Nat.mod_eq_of_lt hlt, hdrop, hget]
        rw [if_neg (by omega), if_neg (by omega)]

end Encodes

/-- The index table once it reaches the document. -/
def grown (table : PropIdTable w) (docId : BitVec 32) : PropIdTable w :=
  { table with indexTable := growTo table.indexTable (docId.toNat + 1) 0 }

theorem getIdList_grown (docId docId' : BitVec 32) :
    (grown table docId).getIdList docId' = table.getIdList docId' := by
  rw [getIdList_eq_decode, getIdList_eq_decode, grown, getD_growTo]

/-- All that a call can do. -/
theorem setIdList_cases (ids : List (BitVec w)) (hlen : table.indexTable.length < 2 ^ 32) :
    (docId.toNat + 1 = 2 ^ 32 ∧ table.setIdList docId ids = .undefined) ∨
      (docId.toNat + 1 < 2 ^ 32 ∧
        ((∃ error, table.setIdList docId ids = .thrown error (grown table docId) ∧
            (ids.length = 1 ∨ 2 ^ 31 ≤ table.multiValueTable.length)) ∨
          (∃ index extra, Encodes table.multiValueTable ids index extra ∧
            table.setIdList docId ids = .returned
              { indexTable := (grown table docId).indexTable.set docId.toNat index
                multiValueTable := table.multiValueTable ++ extra }))) := by
  by_cases hmax : docId.toNat + 1 = 2 ^ 32
  · left
    have hsucc : (docId + 1).toNat = 0 := by
      simp
      omega
    refine ⟨hmax, ?_⟩
    have hempty : (if table.indexTable.length ≤ docId.toNat then
          resize table.indexTable (docId + 1).toNat 0
        else table.indexTable).length ≤ docId.toNat := by
      rw [if_pos (by omega), length_resize]
      omega
    exact if_pos hempty
  · right
    refine ⟨by omega, ?_⟩
    have hsucc : (docId + 1).toNat = docId.toNat + 1 := by
      simp
      omega
    have hgrow : (if table.indexTable.length ≤ docId.toNat then
          resize table.indexTable (docId + 1).toNat 0
        else table.indexTable) = (grown table docId).indexTable := by
      rw [hsucc, grown, growTo]
      simp only [Nat.lt_succ_iff]
    have hrange : ¬ (grown table docId).indexTable.length ≤ docId.toNat := by
      simp [grown]
    unfold PropIdTable.setIdList
    simp only [hgrow, if_neg hrange, toNat_indexMsb]
    match ids with
    | [] =>
      refine Or.inr ⟨0, [], .none, ?_⟩
      simp
    | [id] =>
      by_cases hid : 2 ^ 31 ≤ id.toNat
      · exact Or.inl ⟨_, if_pos hid, Or.inl rfl⟩
      · refine Or.inr ⟨id.setWidth 32, [], .single (by omega), ?_⟩
        rw [append_nil]
        exact if_neg hid
    | id :: id' :: ids =>
      by_cases hvalues : 2 ^ 31 ≤ table.multiValueTable.length
      · exact Or.inl ⟨_, if_pos hvalues, Or.inr hvalues⟩
      · exact Or.inr ⟨_, _, .multi (by simp) (by omega), if_neg hvalues⟩

/-- A call with ids that are not zero. -/
structure SetIdListCall (w : ℕ) where
  docId : BitVec 32
  ids : List (BitVec w)
  nonzero : ∀ id ∈ ids, id ≠ 0

/-- A table together with the list that was last set for each document. -/
structure Session (w : ℕ) where
  table : PropIdTable w := {}
  lastSet : BitVec 32 → List (BitVec w) := fun _ => []

/-- A call that throws sets no list; after an undefined write there is no state. -/
def Session.call (session : Session w) (call : SetIdListCall w) : Option (Session w) :=
  match session.table.setIdList call.docId call.ids with
  | .returned table =>
    some { table := table, lastSet := update session.lastSet call.docId call.ids }
  | .thrown _ table => some { session with table := table }
  | .undefined => none

def Calls (session : Option (Session w)) (call : SetIdListCall w)
    (session' : Option (Session w)) : Prop :=
  session.bind (·.call call) = session'

/-- Every document reads the list last set for it. -/
def Session.ReadsLastSet (session : Session w) : Prop :=
  ∀ docId, (session.table.getIdList docId).toList = session.lastSet docId ∧
    session.table.getIdCount docId = (session.lastSet docId).length

def ReadsLastSet (session : Option (Session w)) : Prop := ∃ s, session = some s ∧ s.ReadsLastSet

/-- The document is not the last one there can be, and the length of the list fits a value id
or is refused because the array is full. -/
def CallFits (session : Option (Session w)) (call : SetIdListCall w) : Prop :=
  ∀ s, session = some s → call.docId.toNat + 1 < 2 ^ 32 ∧
    (call.ids.length < 2 ^ w ∨ 2 ^ 31 ≤ s.table.multiValueTable.length)

/-- What holds of every table, whatever was written to it. -/
structure PropIdTable.WellFormed (table : PropIdTable w) : Prop where
  length_lt : table.indexTable.length < 2 ^ 32
  inArray : ∀ d, InArray table.multiValueTable (table.indexTable.getD d 0)

theorem wellFormed_grown {table : PropIdTable w} (h : table.WellFormed) {docId : BitVec 32}
    (hdoc : docId.toNat + 1 < 2 ^ 32) : (grown table docId).WellFormed := by
  refine ⟨?_, fun d => ?_⟩
  · have := h.length_lt
    simp only [grown, length_growTo]
    omega
  · rw [grown, getD_growTo]
    exact h.inArray d

theorem getD_set_grown (docId : BitVec 32) (index : BitVec 32) (d : ℕ) :
    ((grown table docId).indexTable.set docId.toNat index).getD d 0 =
      if d = docId.toNat then index else table.indexTable.getD d 0 := by
  have hrange : docId.toNat < (grown table docId).indexTable.length := by simp [grown]
  rw [getD_eq_getElem?_getD, getElem?_set]
  by_cases hd : docId.toNat = d
  · subst hd
    simp [hrange]
  · rw [if_neg hd, if_neg (Ne.symm hd), ← getD_eq_getElem?_getD, grown, getD_growTo]

theorem wellFormed_set {table : PropIdTable w} (h : table.WellFormed) {docId : BitVec 32}
    (hdoc : docId.toNat + 1 < 2 ^ 32) {ids extra : List (BitVec w)} {index : BitVec 32}
    (henc : Encodes table.multiValueTable ids index extra) :
    (⟨(grown table docId).indexTable.set docId.toNat index, table.multiValueTable ++ extra⟩ :
      PropIdTable w).WellFormed := by
  refine ⟨?_, fun d => ?_⟩
  · have := (wellFormed_grown h hdoc).length_lt
    simpa using this
  · rw [getD_set_grown]
    split
    · exact henc.inArray
    · exact (h.inArray d).append extra

/-- Writing one list leaves what other documents read. -/
theorem getIdList_set {table : PropIdTable w} (h : table.WellFormed) (docId : BitVec 32)
    {extra : List (BitVec w)} (index : BitVec 32) (docId' : BitVec 32) :
    ((⟨(grown table docId).indexTable.set docId.toNat index, table.multiValueTable ++ extra⟩ :
        PropIdTable w).getIdList docId').toList =
      if docId' = docId then (decode (table.multiValueTable ++ extra) index).toList
      else (table.getIdList docId').toList := by
  rw [getIdList_eq_decode, getD_set_grown]
  by_cases hd : docId' = docId
  · subst hd
    simp
  · have hne : docId'.toNat ≠ docId.toNat := fun heq => hd (eq_of_toNat_eq heq)
    rw [if_neg hne, if_neg hd, decode_append (h.inArray _), getIdList_eq_decode]

theorem Session.call_cases (session : Session w) (call : SetIdListCall w)
    (hwf : session.table.WellFormed) :
    (call.docId.toNat + 1 = 2 ^ 32 ∧ session.call call = none) ∨
      (call.docId.toNat + 1 < 2 ^ 32 ∧
        ((session.call call = some { session with table := grown session.table call.docId } ∧
            (call.ids.length = 1 ∨ 2 ^ 31 ≤ session.table.multiValueTable.length)) ∨
          (∃ index extra, Encodes session.table.multiValueTable call.ids index extra ∧
            session.call call = some
              { table :=
                  { indexTable :=
                      (grown session.table call.docId).indexTable.set call.docId.toNat index
                    multiValueTable := session.table.multiValueTable ++ extra }
                lastSet := update session.lastSet call.docId call.ids }))) := by
  rcases setIdList_cases session.table call.docId call.ids hwf.length_lt with
    ⟨hmax, hset⟩ | ⟨hdoc, ⟨error, hset, hwhy⟩ | ⟨index, extra, henc, hset⟩⟩
  · exact Or.inl ⟨hmax, by rw [Session.call, hset]⟩
  · exact Or.inr ⟨hdoc, Or.inl ⟨by rw [Session.call, hset], hwhy⟩⟩
  · exact Or.inr ⟨hdoc, Or.inr ⟨index, extra, henc, by rw [Session.call, hset]⟩⟩

theorem Session.wellFormed_call {session session' : Session w} {call : SetIdListCall w}
    (hwf : session.table.WellFormed) (h : session.call call = some session') :
    session'.table.WellFormed := by
  rcases session.call_cases call hwf with
    ⟨_, hcall⟩ | ⟨hdoc, ⟨hcall, _⟩ | ⟨index, extra, henc, hcall⟩⟩
  · rw [hcall] at h
    cases h
  · rw [hcall] at h
    cases h
    exact wellFormed_grown hwf hdoc
  · rw [hcall] at h
    cases h
    exact wellFormed_set hwf hdoc henc

theorem readsLastSet_iff (hw : 0 < w) (session : Session w) : session.ReadsLastSet ↔
      ∀ docId, (session.table.getIdList docId).toList = session.lastSet docId := by
  constructor
  · intro h docId
    exact (h docId).1
  · intro h docId
    refine ⟨h docId, ?_⟩
    rw [getIdCount_eq_size hw, ← length_toList, h docId]

/-- Out of a state that reads right, a call leads to one that reads right exactly when it
fits. -/
theorem readsLastSet_call_iff (hw : 0 < w) {session : Session w} (call : SetIdListCall w)
    (hwf : session.table.WellFormed) (h : session.ReadsLastSet) :
    ReadsLastSet (session.call call) ↔ CallFits (some session) call := by
  have hread := (readsLastSet_iff hw session).mp h
  rcases session.call_cases call hwf with
    ⟨hmax, hcall⟩ | ⟨hdoc, ⟨hcall, hwhy⟩ | ⟨index, extra, henc, hcall⟩⟩
  · rw [hcall]
    refine iff_of_false ?_ ?_
    · rintro ⟨_, hnone, _⟩
      cases hnone
    · intro hfits
      have := (hfits session rfl).1
      omega
  · rw [hcall]
    refine iff_of_true ⟨_, rfl, ?_⟩ ?_
    · rw [readsLastSet_iff hw]
      intro docId
      rw [getIdList_grown]
      exact hread docId
    · intro s hs
      cases hs
      refine ⟨hdoc, hwhy.imp_left fun hone => ?_⟩
      rw [hone]
      exact Nat.one_lt_two_pow hw.ne'
  · rw [hcall]
    have hlist := henc.toList_eq_iff hw call.nonzero
    have hnew : ReadsLastSet (some (⟨⟨(grown session.table call.docId).indexTable.set
          call.docId.toNat index, session.table.multiValueTable ++ extra⟩,
          update session.lastSet call.docId call.ids⟩ : Session w)) ↔
        (decode (session.table.multiValueTable ++ extra) index).toList = call.ids := by
      constructor
      · rintro ⟨s, hs, hreads⟩
        cases hs
        have hself := (hreads call.docId).1
        rw [getIdList_set hwf, if_pos rfl] at hself
        rw [hself]
        simp only [update_self]
      · intro hself
        refine ⟨_, rfl, (readsLastSet_iff hw _).mpr fun docId => ?_⟩
        rw [getIdList_set hwf]
        by_cases hd : docId = call.docId
        · rw [if_pos hd, hself, hd]
          simp only [update_self]
        · rw [if_neg hd, hread docId]
          simp only [update_of_ne hd]
    rw [hnew, hlist]
    constructor
    · intro hlt s hs
      cases hs
      exact ⟨hdoc, Or.inl hlt⟩
    · intro hfits
      -- a list that was stored was not refused, so only its length can have been checked
      rcases (hfits session rfl).2 with hlt | hfull
      · exact hlt
      · exact (henc.length_le_one hfull).trans_lt (Nat.one_lt_two_pow hw.ne')

theorem wellFormed_empty : ({} : PropIdTable w).WellFormed := by
  refine ⟨by simp, fun d => ?_⟩
  have hzero : ([0] : List (BitVec 32)).getD d 0 = 0 := by
    cases d <;> rfl
  intro hmulti
  simp at hmulti

theorem readsLastSet_empty (hw : 0 < w) : ({} : Session w).ReadsLastSet := by
  rw [readsLastSet_iff hw]
  intro docId
  have hzero : ([0] : List (BitVec 32)).getD docId.toNat 0 = 0 := by
    cases docId.toNat <;> rfl
  rw [getIdList_eq_decode, hzero]
  exact toList_empty

/-- Along a sequence of calls on an empty table every document reads the list that was last
set for it, in every state, exactly when all the calls fit. -/
theorem readsLastSet_along_iff_callsFit (hw : 0 < w) (calls : List (SetIdListCall w)) :
    HoldsAlong Calls ReadsLastSet (some {}) calls ↔ StepsMeet Calls CallFits (some {}) calls := by
  refine holdsAlong_iff_stepsMeet (Q := fun s => ∀ session, s = some session →
    session.table.WellFormed) ?_ ?_ ?_ ⟨_, rfl, readsLastSet_empty hw⟩ calls
  · rintro (_ | session) call s' hwf hcall session' rfl
    · cases hcall
    · exact Session.wellFormed_call (hwf session rfl) hcall
  · rintro _ call s' hwf ⟨session, rfl, hreads⟩ rfl
    exact readsLastSet_call_iff hw call (hwf session rfl) hreads
  · rintro session hs
    cases hs
    exact wellFormed_empty

/-- Two documents, the second set again, with ids of 16 bits. -/
def rewrittenCalls : List (SetIdListCall 16) :=
  [⟨1, [7], by simp⟩, ⟨2, [3, 4], by simp⟩, ⟨2, [65535], by simp⟩]

theorem readsLastSet_along_rewrittenCalls :
    HoldsAlong Calls ReadsLastSet (some {}) rewrittenCalls := by
  refine (readsLastSet_along_iff_callsFit (by decide) _).mpr ?_
  intro as₁ call as₂ s₁ s₂ has _ _ s _
  have hmem : call ∈ rewrittenCalls := by
    rw [← has]
    simp
  simp only [rewrittenCalls, mem_cons, not_mem_nil, or_false] at hmem
  rcases hmem with rfl | rfl | rfl
  · exact ⟨by decide, Or.inl (by decide)⟩
  · exact ⟨by decide, Or.inl (by decide)⟩
  · exact ⟨by decide, Or.inl (by decide)⟩

/-- A list of 65536 ids of 16 bits. -/
def longCall : SetIdListCall 16 where
  docId := 1
  ids := List.replicate 65536 1
  nonzero := by
    intro id hid
    rw [eq_of_mem_replicate hid]
    decide

/-- The length of the long list is stored as 0. -/
theorem not_readsLastSet_along_longCall : ¬ HoldsAlong Calls ReadsLastSet (some {}) [longCall] := by
  intro hall
  have hreads : ReadsLastSet (({} : Session 16).call longCall) :=
    hall [longCall] [] _ (append_nil _) (.cons rfl (.nil _))
  rw [readsLastSet_call_iff (by decide) _ wellFormed_empty (readsLastSet_empty (by decide))]
    at hreads
  rcases (hreads {} rfl).2 with hlt | hfull
  · rw [longCall, length_replicate] at hlt
    omega
  · simp at hfull

end AdDelivery.GroupManager
