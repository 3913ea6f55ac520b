import AdDelivery.Core.Pruning
import AdDelivery.GroupManager.GroupRep
import AdDelivery.GroupManager.PropValueTable

/-!
# Counters of a string property

A counter has one entry for each value of its property. A document increments the entries of
its values; before the result is listed, every count is added to the counts of the values above
it. The list is the tree of the values that were counted, in preorder.
-/

namespace AdDelivery.GroupManager

open List Nat UInt32

open scoped UInt32.CommRing

variable {UString S : Type}

/-- The conversions between the strings of requests and of documents. -/
structure Utf8 (UString : Type) where
  decode : String → UString
  convertString : UString → String
  convertString_decode : ∀ str, convertString (decode str) = str

theorem id_id_string (str : String) : id (id str) = str := rfl

/-- Documents that have the strings of requests. -/
def plainText : Utf8 String := ⟨id, id, id_id_string⟩

namespace PropValueTable

variable [Inhabited UString]

def propValueNum (table : PropValueTable UString) : ℕ := table.propStrVec.length

def getPropIdList (table : PropValueTable UString) (docId : BitVec 32) : PropIdList 32 :=
  table.valueIdTable.getIdList docId

/-- The loop of `getParentIds`. -/
def parentIdsFrom (parentIdVec : List ℕ) : ℕ → ℕ → List ℕ
  | _, 0 => []
  | 0, _ + 1 => []
  | fuel + 1, pvId + 1 =>
    (pvId + 1) :: parentIdsFrom parentIdVec fuel (parentIdVec.getD (pvId + 1) 0)

/-- The value and all values above it. A walk that ends passes every id at most once. -/
def getParentIds (table : PropValueTable UString) (pvId : ℕ) : List ℕ :=
  parentIdsFrom table.parentIdVec table.parentIdVec.length pvId

end PropValueTable

/-- An entry for each value; entry 0 counts the documents that have any value. -/
structure StringGroupCounter (UString : Type) [Inhabited UString] where
  propValueTable : PropValueTable UString
  countTable : List UInt32

/-- The items of the string properties that were listed so far. -/
abbrev StringGroupRep (UString S : Type) := List (OntologyRepItem UString S)

/-- List the value `pvId` and, through the map of its children, everything below it that was
counted. A value comes after its parent, so their number bounds the `fuel` that is needed. -/
def appendGroupRep [LinearOrder UString] [Zero S] (childMapTable : List (Table UString ℕ))
    (countTable : List UInt32) : ℕ → ℕ → ℕ → UString → StringGroupRep UString S
  | 0, _, _, _ => []
  | fuel + 1, pvId, level, valueStr =>
    { level := level % 2 ^ 8, text := valueStr, id := 0, docCount := countTable.getD pvId 0,
      score := 0 } ::
      (Table.inOrder (childMapTable.getD pvId ∅)).flatMap fun it =>
        if countTable.getD it.2 0 ≠ 0 then
          appendGroupRep childMapTable countTable fuel it.2 (level + 1) it.1
        else []

namespace StringGroupCounter

variable [Inhabited UString]

def create (pvTable : PropValueTable UString) : StringGroupCounter UString :=
  { propValueTable := pvTable, countTable := List.replicate pvTable.propValueNum 0 }

def addDoc (counter : StringGroupCounter UString) (doc : BitVec 32) : StringGroupCounter UString :=
  let propIdList := counter.propValueTable.getPropIdList doc
  if propIdList.size = 0 then counter
  else
    let countTable := propIdList.toList.foldl
      (fun countTable id => countTable.modify id.toNat (· + 1)) counter.countTable
    -- total doc count for this property
    { counter with countTable := countTable.modify 0 (· + 1) }

def addCountForParentId (counter : StringGroupCounter UString) : StringGroupCounter UString :=
  let totalIdNum := counter.countTable.length
  if totalIdNum = 0 then counter
  else
    let newCountTable := (List.replicate totalIdNum 0).set 0 (counter.countTable.getD 0 0)
    { counter with
      countTable := (List.range' 1 (totalIdNum - 1)).foldl
        (fun newCountTable i =>
          let count := counter.countTable.getD i 0
          if count = 0 then newCountTable
          else
            (counter.propValueTable.getParentIds i).foldl
              (fun newCountTable it => newCountTable.modify it (· + count)) newCountTable)
        newCountTable }

/-- Start from id 0 at level 0. -/
def getGroupRep [LinearOrder UString] [Zero S] (utf8 : Utf8 UString)
    (counter : StringGroupCounter UString) (itemList : StringGroupRep UString S) :
    StringGroupRep UString S :=
  let counter := counter.addCountForParentId
  let propName := utf8.decode counter.propValueTable.propName
  itemList ++ appendGroupRep counter.propValueTable.childMapTable counter.countTable
    counter.propValueTable.propValueNum 0 0 propName

/-- The counter of a property after some documents. -/
def ofDocs (pvTable : PropValueTable UString) (docs : List (BitVec 32)) :
    StringGroupCounter UString :=
  docs.foldl addDoc (create pvTable)

end StringGroupCounter

namespace PropValueTable

variable [Inhabited UString]

/-- The entries that a document increments. -/
def hits (table : PropValueTable UString) (doc : BitVec 32) : List ℕ :=
  if (table.getPropIdList doc).size = 0 then []
  else (table.getPropIdList doc).toList.map BitVec.toNat ++ [0]

def rawCount (table : PropValueTable UString) (docs : List (BitVec 32)) (pvId : ℕ) : ℕ :=
  (docs.flatMap table.hits).count pvId

/-- The count of a value over all documents: what the documents have added to it and to the
values below it. -/
def docCount (table : PropValueTable UString) (docs : List (BitVec 32)) (pvId : ℕ) : ℕ :=
  (if pvId = 0 then table.rawCount docs 0 else 0) +
    ((List.range' 1 (table.propValueNum - 1)).map fun i =>
      (table.getParentIds i).count pvId * table.rawCount docs i).sum

variable (table : PropValueTable UString) (docs docs' : List (BitVec 32)) (pvId : ℕ)

theorem rawCount_append :
    table.rawCount (docs ++ docs') pvId = table.rawCount docs pvId + table.rawCount docs' pvId := by
  rw [rawCount, flatMap_append, count_append, rawCount, rawCount]

theorem docCount_append :
    table.docCount (docs ++ docs') pvId = table.docCount docs pvId + table.docCount docs' pvId := by
  have hsum (ids : List ℕ) :
      (ids.map fun i => (table.getParentIds i).count pvId * table.rawCount (docs ++ docs') i).sum =
        (ids.map fun i => (table.getParentIds i).count pvId * table.rawCount docs i).sum +
          (ids.map fun i => (table.getParentIds i).count pvId * table.rawCount docs' i).sum := by
    rw [← sum_map_add]
    simp only [rawCount_append, mul_add]
  rw [docCount, docCount, docCount, hsum, rawCount_append]
  split <;> omega

@[simp] theorem docCount_nil : table.docCount [] pvId = 0 := by
  simp [docCount, rawCount]

/-- The parts of the documents are counted independently. -/
theorem docCount_flatten (threads : List (List (BitVec 32))) (pvId : ℕ) :
    table.docCount threads.flatten pvId =
      (threads.map fun docs => table.docCount docs pvId).sum := by
  induction threads with
  | nil => exact docCount_nil table pvId
  | cons docs threads ih =>
    rw [flatten_cons, docCount_append, ih, map_cons, sum_cons]

theorem docCount_perm {docs docs' : List (BitVec 32)} (h : docs.Perm docs') (pvId : ℕ) :
    table.docCount docs pvId = table.docCount docs' pvId := by
  have hraw (i : ℕ) : table.rawCount docs i = table.rawCount docs' i :=
    (h.flatMap_right table.hits).count_eq i
  simp only [docCount, hraw]

theorem parentIdsFrom_fuel {parentIdVec : List ℕ}
    (hparent : ∀ id parent, 0 < id → parentIdVec[id]? = some parent → parent < id)
    {fuel fuel' id : ℕ} (hfuel : id ≤ fuel) (hfuel' : id ≤ fuel') :
    parentIdsFrom parentIdVec fuel id = parentIdsFrom parentIdVec fuel' id := by
  induction fuel generalizing fuel' id with
  | zero =>
    obtain rfl : id = 0 := le_zero.mp hfuel
    cases fuel' <;> rfl
  | succ fuel ih =>
    cases id with
    | zero => cases fuel' <;> rfl
    | succ id =>
      obtain ⟨fuel', rfl⟩ : ∃ n, fuel' = n + 1 := ⟨fuel' - 1, by omega⟩
      rw [parentIdsFrom, parentIdsFrom]
      have hle : parentIdVec.getD (id + 1) 0 ≤ id := by
        rw [getD_eq_getElem?_getD]
        cases hget : parentIdVec[id + 1]? with
        | none => exact zero_le id
        | some parent => exact le_of_lt_succ (hparent _ _ (succ_pos id) hget)
      rw [ih (by omega) (by omega : _ ≤ fuel')]

theorem getParentIds_zero : table.getParentIds 0 = [] := by
  rw [getParentIds]
  cases table.parentIdVec.length <;> rfl

variable [DecidableEq UString]

section

variable {table : PropValueTable UString} (h : table.WellFormed)
include h

theorem WellFormed.getParentIds_eq {id parent : ℕ} (hid : 0 < id)
    (hparent : table.parentIdVec[id]? = some parent) :
    table.getParentIds id = id :: table.getParentIds parent := by
  have hlt : id < table.parentIdVec.length := (List.getElem?_eq_some_iff.mp hparent).1
  have hless := h.parent_lt id parent hid hparent
  obtain ⟨id, rfl⟩ : ∃ n, id = n + 1 := ⟨id - 1, by omega⟩
  obtain ⟨fuel, hfuel⟩ : ∃ n, table.parentIdVec.length = n + 1 :=
    ⟨table.parentIdVec.length - 1, by omega⟩
  have hget : table.parentIdVec.getD (id + 1) 0 = parent := by
    rw [getD_eq_getElem?_getD, hparent, Option.getD_some]
  rw [getParentIds, getParentIds, hfuel, parentIdsFrom, hget,
    parentIdsFrom_fuel h.parent_lt (by omega : parent ≤ fuel) (by omega : parent ≤ fuel + 1)]

theorem WellFormed.le_of_mem_getParentIds {id pvId : ℕ} (hid : id < table.propValueNum)
    (hmem : pvId ∈ table.getParentIds id) : pvId ≤ id := by
  induction id using Nat.strong_induction_on with
  | h id ih =>
    rcases Nat.eq_zero_or_pos id with rfl | hpos
    · rw [getParentIds_zero] at hmem
      cases hmem
    · obtain ⟨parent, hparent⟩ : ∃ parent, table.parentIdVec[id]? = some parent :=
        ⟨_, getElem?_eq_getElem (h.parents.symm ▸ hid)⟩
      have hlt := h.parent_lt id parent hpos hparent
      rw [h.getParentIds_eq hpos hparent, mem_cons] at hmem
      rcases hmem with rfl | hmem
      · exact le_refl _
      · exact (ih parent hlt (hlt.trans hid) hmem).trans hlt.le

/-- Whatever lies below a value lies below its parent. -/
theorem WellFormed.count_getParentIds_le {child parent : ℕ} (hchild : 0 < child)
    (hkey : table.parentIdVec[child]? = some parent) (hparent : 0 < parent) {id : ℕ}
    (hid : id < table.propValueNum) :
    (table.getParentIds id).count child ≤ (table.getParentIds id).count parent := by
  induction id using Nat.strong_induction_on with
  | h id ih =>
    rcases Nat.eq_zero_or_pos id with rfl | hpos
    · rw [getParentIds_zero]
      exact le_refl 0
    · obtain ⟨above, habove⟩ : ∃ above, table.parentIdVec[id]? = some above :=
        ⟨_, getElem?_eq_getElem (h.parents.symm ▸ hid)⟩
      have hlt := h.parent_lt id above hpos habove
      have hrest := ih above hlt (hlt.trans hid)
      rw [h.getParentIds_eq hpos habove, count_cons, count_cons]
      by_cases hself : id = child
      · subst hself
        obtain rfl : above = parent := Option.some.inj (habove.symm.trans hkey)
        -- the walk from the parent begins with it and never comes back to the child
        have hnot : id ∉ table.getParentIds above := by
          intro hmem
          exact absurd (h.le_of_mem_getParentIds (hlt.trans hid) hmem) (not_le.mpr hlt)
        obtain ⟨top, htop⟩ : ∃ top, table.parentIdVec[above]? = some top :=
          ⟨_, getElem?_eq_getElem (h.parents.symm ▸ hlt.trans hid)⟩
        have hhead : above ∈ table.getParentIds above := by
          rw [h.getParentIds_eq hparent htop]
          exact mem_cons_self ..
        have hone := count_pos_iff.mpr hhead
        rw [count_eq_zero_of_not_mem hnot]
        simp only [beq_self_eq_true, if_true]
        omega
      · have hne : (id == child) = false := by simpa using hself
        rw [hne]
        simp only [Bool.false_eq_true, if_false]
        omega

/-- A value is counted at most as often as its parent. -/
theorem WellFormed.docCount_le {child parent : ℕ} (hchild : 0 < child)
    (hkey : table.parentIdVec[child]? = some parent) (hparent : 0 < parent)
    (docs : List (BitVec 32)) : table.docCount docs child ≤ table.docCount docs parent := by
  rw [docCount, docCount, if_neg hchild.ne', if_neg hparent.ne', zero_add, zero_add]
  refine sum_le_sum fun i hi => mul_le_mul_right _ ?_
  refine h.count_getParentIds_le hchild hkey hparent ?_
  rw [mem_range'_1] at hi
  omega

end

end PropValueTable

/-- Adding a number to the entries of a list of ids. -/
theorem getD_foldl_modify (ids : List ℕ) (count : UInt32) {countTable : List UInt32} {pvId : ℕ}
    (h : pvId < countTable.length) :
    (ids.foldl (fun countTable id => countTable.modify id (· + count)) countTable).getD pvId 0 =
      countTable.getD pvId 0 + ofNat (ids.count pvId) * count := by
  induction ids generalizing countTable with
  | nil => simp
  | cons id ids ih =>
    rw [foldl_cons, ih (by rwa [length_modify]), count_cons]
    by_cases hid : id < countTable.length
    · rw [getD_modify _ _ _ _ _ hid]
      by_cases heq : id = pvId
      · subst heq
        have hone : ofNat 1 = 1 := rfl
        simp only [if_true, beq_self_eq_true, ofNat_add, hone]
        ring
      · simp [heq]
    · have hne : id ≠ pvId := fun heq => hid (heq ▸ h)
      simp [hne]

theorem length_foldl_modify (ids : List ℕ) (count : UInt32) (countTable : List UInt32) :
    (ids.foldl (fun countTable id => countTable.modify id (· + count)) countTable).length =
      countTable.length := by
  induction ids generalizing countTable with
  | nil => rfl
  | cons id ids ih => rw [foldl_cons, ih, length_modify]

namespace StringGroupCounter

variable [Inhabited UString] (counter : StringGroupCounter UString)

theorem addDoc_eq (doc : BitVec 32) : counter.addDoc doc = { counter with
        countTable := (counter.propValueTable.hits doc).foldl
          (fun countTable id => countTable.modify id (· + 1)) counter.countTable } := by
  unfold addDoc PropValueTable.hits
  by_cases hsize : (counter.propValueTable.getPropIdList doc).size = 0
  · simp only [if_pos hsize, foldl_nil]
  · simp only [if_neg hsize, foldl_append, foldl_map, foldl_cons, foldl_nil]

variable (docs : List (BitVec 32))

theorem foldl_addDoc : docs.foldl addDoc counter = { counter with
        countTable := (docs.flatMap counter.propValueTable.hits).foldl
          (fun countTable id => countTable.modify id (· + 1)) counter.countTable } := by
  induction docs generalizing counter with
  | nil => rfl
  | cons doc docs ih => rw [foldl_cons, ih, addDoc_eq, flatMap_cons, foldl_append]

variable (pvTable : PropValueTable UString)

@[simp] theorem propValueTable_ofDocs (docs : List (BitVec 32)) :
    (ofDocs pvTable docs).propValueTable = pvTable := by
  rw [ofDocs, foldl_addDoc]
  rfl

@[simp] theorem length_ofDocs (docs : List (BitVec 32)) :
    (ofDocs pvTable docs).countTable.length = pvTable.propValueNum := by
  rw [ofDocs, foldl_addDoc, length_foldl_modify, create, length_replicate]

variable {pvId : ℕ}

theorem getD_ofDocs (docs : List (BitVec 32)) (h : pvId < pvTable.propValueNum) :
    (ofDocs pvTable docs).countTable.getD pvId 0 = ofNat (pvTable.rawCount docs pvId) := by
  rw [ofDocs, foldl_addDoc, getD_foldl_modify _ _ (by rwa [create, length_replicate]), create]
  simp [PropValueTable.rawCount]

/-- Adding the counts of some values to the values above them. -/
theorem getD_foldl_parents (table : PropValueTable UString) (counts : ℕ → UInt32) (ids : List ℕ)
    {newCountTable : List UInt32} (h : pvId < newCountTable.length) : (ids.foldl
      (fun newCountTable i =>
        if counts i = 0 then newCountTable
        else (table.getParentIds i).foldl
          (fun newCountTable it => newCountTable.modify it (· + counts i)) newCountTable)
      newCountTable).getD pvId 0 = newCountTable.getD pvId 0 +
        (ids.map fun i => ofNat ((table.getParentIds i).count pvId) * counts i).sum := by
  induction ids generalizing newCountTable with
  | nil => simp
  | cons i ids ih =>
    rw [foldl_cons, map_cons, sum_cons]
    by_cases hzero : counts i = 0
    · rw [if_pos hzero, ih h, hzero, mul_zero, zero_add]
    · rw [if_neg hzero, ih (by rwa [length_foldl_modify]), getD_foldl_modify _ _ h, add_assoc]

theorem ofNat_sum (xs : List ℕ) : ofNat xs.sum = (xs.map ofNat).sum := by
  induction xs with
  | nil => rfl
  | cons x xs ih => rw [sum_cons, ofNat_add, ih, map_cons, sum_cons]

/-- Before the result is listed, every entry has the count of its value, in 32 bits. -/
theorem getD_addCountForParentId (docs : List (BitVec 32)) (h : pvId < pvTable.propValueNum) :
    (ofDocs pvTable docs).addCountForParentId.countTable.getD pvId 0 =
      ofNat (pvTable.docCount docs pvId) := by
  have hpos : 0 < pvTable.propValueNum := zero_lt_of_lt h
  unfold addCountForParentId
  simp only [length_ofDocs, propValueTable_ofDocs, if_neg hpos.ne']
  rw [getD_foldl_parents pvTable (fun i => (ofDocs pvTable docs).countTable.getD i 0) _
    (by rwa [length_set, length_replicate]), PropValueTable.docCount, ofNat_add,
    ofNat_sum, List.map_map]
  congr 1
  · rw [getD_eq_getElem?_getD, getElem?_set, getD_ofDocs _ _ hpos]
    by_cases hzero : pvId = 0
    · subst hzero
      simp [hpos]
    · rw [if_neg fun heq => hzero heq.symm, if_neg hzero, ← getD_eq_getElem?_getD,
        getD_replicate _ h]
      rfl
  · congr 1
    refine map_congr_left fun i hi => ?_
    rw [mem_range'_1] at hi
    rw [Function.comp_apply, ofNat_mul, getD_ofDocs _ _ (by omega)]

end StringGroupCounter

end AdDelivery.GroupManager
