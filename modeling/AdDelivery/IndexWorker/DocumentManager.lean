import AdDelivery.Common.PairwiseScdMerger

/-!
# The document manager

Documents are stored under their ids. A removed document is only marked: it stays in the store,
and a forced read still finds it. Nothing is stored above the largest id.
-/

namespace AdDelivery.IndexWorker

structure Document where
  id : ℕ := 0
  properties : Common.Document := ∅

structure DocumentManager where
  propertyValueTable : Table ℕ Document := ∅
  maxDocId : ℕ := 0
  delfilter : Finset ℕ := ∅
  le_maxDocId : ∀ id ∈ propertyValueTable, id ≤ maxDocId := by
    exact fun id h => absurd h Finmap.notMem_empty

namespace DocumentManager

variable (dm : DocumentManager) (id : ℕ)

def isDeleted : Bool := id != 0 && id ∈ dm.delfilter

def getDocument (forceget : Bool) : Option Document :=
  if (forceget || !dm.isDeleted id) && id ≤ dm.maxDocId then dm.propertyValueTable.lookup id
  else none

/-- Storing succeeds. -/
def insertDocument (document : Document) : DocumentManager where
  propertyValueTable := dm.propertyValueTable.insert document.id document
  maxDocId := max document.id dm.maxDocId
  delfilter := dm.delfilter
  le_maxDocId id h := by
    rcases Finmap.mem_insert.mp h with rfl | h
    · exact le_max_left _ _
    · exact (dm.le_maxDocId id h).trans (le_max_right _ _)

def updateDocument (document : Document) : DocumentManager :=
  if h : document.id ≤ dm.maxDocId then
    { dm with
      propertyValueTable := dm.propertyValueTable.insert document.id document
      le_maxDocId := by
        intro id hid
        rcases Finmap.mem_insert.mp hid with rfl | hid
        · exact h
        · exact dm.le_maxDocId id hid }
  else dm

def removeDocument : DocumentManager :=
  if id = 0 then dm else { dm with delfilter := insert id dm.delfilter }

/-- The document that is stored under an id, removed or not. -/
def stored : Option Document := dm.getDocument id true

theorem stored_eq : dm.stored id = dm.propertyValueTable.lookup id := by
  rw [stored, getDocument, Bool.true_or]
  split
  · rfl
  · rename_i hid
    have hnot : id ∉ dm.propertyValueTable :=
      fun hmem => hid (decide_eq_true (dm.le_maxDocId id hmem))
    exact (Finmap.lookup_eq_none.mpr hnot).symm

theorem getDocument_false :
    dm.getDocument id false = if dm.isDeleted id then none else dm.stored id := by
  rw [stored, getDocument, getDocument]
  cases dm.isDeleted id <;> simp

variable (document : Document)

theorem stored_insertDocument : (dm.insertDocument document).stored id =
      if id = document.id then some document else dm.stored id := by
  rw [stored_eq, stored_eq]
  exact Table.lookup_insert_eq ..

@[simp] theorem delfilter_insertDocument :
    (dm.insertDocument document).delfilter = dm.delfilter := rfl

@[simp] theorem maxDocId_insertDocument :
    (dm.insertDocument document).maxDocId = max document.id dm.maxDocId := rfl

@[simp] theorem stored_removeDocument (removed id : ℕ) :
    (dm.removeDocument removed).stored id = dm.stored id := by
  rw [stored_eq, stored_eq, removeDocument]
  split <;> rfl

@[simp] theorem maxDocId_removeDocument (removed : ℕ) :
    (dm.removeDocument removed).maxDocId = dm.maxDocId := by
  rw [removeDocument]
  split <;> rfl

theorem delfilter_removeDocument {removed : ℕ} (h : removed ≠ 0) :
    (dm.removeDocument removed).delfilter = insert removed dm.delfilter := by
  rw [removeDocument, if_neg h]

/-- Two stores with the same documents and the same marks show the same documents. -/
theorem getDocument_congr {dm dm' : DocumentManager} (hstored : dm.stored = dm'.stored)
    (hdeleted : dm.delfilter = dm'.delfilter) (id : ℕ) :
    dm.getDocument id false = dm'.getDocument id false := by
  rw [getDocument_false, getDocument_false, hstored, isDeleted, isDeleted, hdeleted]

end DocumentManager

end AdDelivery.IndexWorker
