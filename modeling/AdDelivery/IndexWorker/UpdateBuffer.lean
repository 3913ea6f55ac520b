import AdDelivery.IndexWorker.Worker

/-!
# Entries of the update buffer

An entry tells which document it stores and which calls the index gets for it. An immediate change
is what a flush does with its entry. A flush goes through the entries in the order of their ids, so
what one step of it keeps holds after it, with an empty buffer.
-/

namespace AdDelivery.IndexWorker

open List DocumentManager
open Common (Bytes ScdType copyProperties)

variable {σ τ : Type*}

def merged (oldDoc document : Document) : Document where
  id := document.id
  properties := copyProperties oldDoc.properties document.properties

/-- The documents after an entry. -/
def applyEntry (documents : DocumentManager) (data : UpdateBufferData) : DocumentManager :=
  match data.updateType with
  | .insert => documents.insertDocument data.document
  | .general =>
    match documents.stored data.oldId with
    | none => documents
    | some oldDoc =>
      (documents.removeDocument data.oldId).insertDocument (merged oldDoc data.document)
  | .replace =>
    match documents.stored data.oldId with
    | none => documents
    | some oldDoc => documents.updateDocument (merged oldDoc data.document)
  | _ => documents

/-- The calls for an entry. -/
def callsFor (documents : DocumentManager) (data : UpdateBufferData) : List IndexCall :=
  match data.updateType with
  | .insert => [.insertDocument data.document data.timestamp]
  | .general =>
    match documents.stored data.oldId with
    | none => []
    | some oldDoc =>
      [.updateDocument oldDoc data.oldRtypeDoc (merged oldDoc data.document) data.updateType
        data.timestamp]
  | .replace =>
    match documents.stored data.oldId with
    | none => [.updateDocument {} data.oldRtypeDoc data.document data.updateType data.timestamp]
    | some oldDoc =>
      [.updateDocument oldDoc data.oldRtypeDoc (merged oldDoc data.document) data.updateType
        data.timestamp]
  | _ =>
    [.updateDocument ((documents.stored data.oldId).getD {}) data.oldRtypeDoc data.document
      data.updateType data.timestamp]

namespace IndexState

variable (state : IndexState σ τ) (data : UpdateBufferData)

theorem flushEntry_eq : state.flushEntry data = { state with
      documents := applyEntry state.documents data
      index := state.index ++ callsFor state.documents data } := by
  obtain ⟨updateType, document, oldId, timestamp, oldRtypeDoc⟩ := data
  cases updateType with
  | unknown | insert | rtype => rfl
  | general | replace =>
    simp only [flushEntry, mergeDocument, applyEntry, callsFor, stored]
    cases state.documents.getDocument oldId true <;> simp [indexed, merged]

@[simp] theorem flushEntry_documents :
    (state.flushEntry data).documents = applyEntry state.documents data := by
  rw [flushEntry_eq]

@[simp] theorem flushEntry_index :
    (state.flushEntry data).index = state.index ++ callsFor state.documents data := by
  rw [flushEntry_eq]

/-- An update of a buffered entry does what a flush does, except for an insertion. -/
theorem doUpdateDoc_eq_flushEntry (h : data.updateType ≠ .insert) :
    state.doUpdateDoc data.oldId data.document data.oldRtypeDoc data.updateType data.timestamp =
      state.flushEntry data := by
  obtain ⟨updateType, document, oldId, timestamp, oldRtypeDoc⟩ := data
  cases updateType with
  | insert => exact absurd rfl h
  | unknown | general | replace | rtype => rfl

/-- An update of a buffered insertion leaves the documents as they are. -/
theorem doUpdateDoc_insert_documents (oldId : ℕ) (document : Document)
    (oldRtypeDoc : Common.Document) (timestamp : ℤ) :
    (state.doUpdateDoc oldId document oldRtypeDoc .insert timestamp).documents =
      state.documents := rfl

end IndexState

section Types

variable {documents : DocumentManager} {data : UpdateBufferData}

theorem applyEntry_insert (h : data.updateType = .insert) :
    applyEntry documents data = documents.insertDocument data.document := by
  rw [applyEntry, h]

theorem applyEntry_rtype (h : data.updateType = .rtype) :
    applyEntry documents data = documents := by
  rw [applyEntry, h]

theorem applyEntry_general_none (h : data.updateType = .general)
    (hold : documents.stored data.oldId = none) : applyEntry documents data = documents := by
  rw [applyEntry, h, hold]

theorem applyEntry_general_some {oldDoc : Document} (h : data.updateType = .general)
    (hold : documents.stored data.oldId = some oldDoc) : applyEntry documents data =
      (documents.removeDocument data.oldId).insertDocument (merged oldDoc data.document) := by
  rw [applyEntry, h, hold]

/-- What an entry stores at its own id. -/
def storedBy (documents documents' : DocumentManager) (data : UpdateBufferData) : Option Document :=
  match data.updateType with
  | .insert => some data.document
  | .general => (documents'.stored data.oldId).map fun oldDoc => merged oldDoc data.document
  | _ => documents.stored data.document.id

/-- The types that come from records. -/
def FromRecord (data : UpdateBufferData) : Prop :=
  data.updateType = .insert ∨ data.updateType = .general ∨ data.updateType = .rtype

theorem stored_applyEntry_of_ne (h : FromRecord data) {id : ℕ} (hid : id ≠ data.document.id) :
    (applyEntry documents data).stored id = documents.stored id := by
  rcases h with h | h | h
  · rw [applyEntry_insert h, stored_insertDocument, if_neg hid]
  · cases hold : documents.stored data.oldId with
    | none => rw [applyEntry_general_none h hold]
    | some oldDoc =>
      rw [applyEntry_general_some h hold, stored_insertDocument, stored_removeDocument]
      exact if_neg hid
  · rw [applyEntry_rtype h]

theorem stored_applyEntry_self (h : FromRecord data)
    (hfresh : data.updateType = .general → documents.stored data.document.id = none) :
    (applyEntry documents data).stored data.document.id = storedBy documents documents data := by
  rw [storedBy]
  rcases h with h | h | h
  · rw [applyEntry_insert h, stored_insertDocument, if_pos rfl, h]
  · rw [h]
    cases hold : documents.stored data.oldId with
    | none => rw [applyEntry_general_none h hold, hfresh h, Option.map_none]
    | some oldDoc =>
      rw [applyEntry_general_some h hold, stored_insertDocument]
      exact if_pos rfl
  · rw [applyEntry_rtype h, h]

/-- The mark that an entry sets. -/
def removedBy (documents : DocumentManager) (data : UpdateBufferData) (id : ℕ) : Prop :=
  data.updateType = .general ∧ data.oldId = id ∧ documents.stored id ≠ none

theorem mem_delfilter_applyEntry (h : FromRecord data)
    (hpos : data.updateType = .general → data.oldId ≠ 0) (id : ℕ) :
    id ∈ (applyEntry documents data).delfilter ↔
      id ∈ documents.delfilter ∨ removedBy documents data id := by
  rw [removedBy]
  rcases h with h | h | h
  · simp [applyEntry_insert h, h]
  · cases hold : documents.stored data.oldId with
    | none =>
      rw [applyEntry_general_none h hold]
      refine (or_iff_left ?_).symm
      rintro ⟨_, rfl, hstored⟩
      exact hstored hold
    | some oldDoc =>
      rw [applyEntry_general_some h hold, delfilter_insertDocument,
        delfilter_removeDocument _ (hpos h), Finset.mem_insert, or_comm]
      refine or_congr_right ⟨?_, fun hremoved => hremoved.2.1.symm⟩
      rintro rfl
      exact ⟨h, rfl, by simp [hold]⟩
  · simp [applyEntry_rtype h, h]

/-- An entry with a small id does not reach a larger one. -/
theorem le_maxDocId_applyEntry (h : FromRecord data) {id : ℕ} (hid : data.document.id < id) :
    id ≤ (applyEntry documents data).maxDocId ↔ id ≤ documents.maxDocId := by
  have hmax (max' : ℕ) : id ≤ max data.document.id max' ↔ id ≤ max' := by omega
  rcases h with h | h | h
  · rw [applyEntry_insert h, maxDocId_insertDocument, hmax]
  · cases hold : documents.stored data.oldId with
    | none => rw [applyEntry_general_none h hold]
    | some oldDoc =>
      rw [applyEntry_general_some h hold, maxDocId_insertDocument, maxDocId_removeDocument]
      exact hmax _
  · rw [applyEntry_rtype h]

end Types

def IndexCall.docId : IndexCall → ℕ
  | insertDocument document _ => document.id
  | updateDocument _ _ document _ _ => document.id

def callsOf (id : ℕ) (index : List IndexCall) : List IndexCall :=
  index.filter fun call => call.docId == id

theorem callsOf_append (id : ℕ) (index index' : List IndexCall) :
    callsOf id (index ++ index') = callsOf id index ++ callsOf id index' :=
  filter_append ..

variable {data : UpdateBufferData}

theorem docId_of_mem_callsFor {documents : DocumentManager} {call : IndexCall}
    (h : call ∈ callsFor documents data) : call.docId = data.document.id := by
  obtain ⟨updateType, document, oldId, timestamp, oldRtypeDoc⟩ := data
  rw [callsFor] at h
  cases updateType with
  | unknown | insert | rtype => rw [mem_singleton.mp h]; rfl
  | general | replace =>
    cases hold : documents.stored oldId <;> simp only [hold, not_mem_nil] at h
    all_goals rw [mem_singleton.mp h]; rfl

variable (documents : DocumentManager)

theorem callsOf_callsFor_self (data : UpdateBufferData) :
    callsOf data.document.id (callsFor documents data) = callsFor documents data :=
  filter_eq_self.mpr fun _ hcall => beq_iff_eq.mpr (docId_of_mem_callsFor hcall)

theorem callsOf_callsFor_of_ne {id : ℕ} (h : id ≠ data.document.id) :
    callsOf id (callsFor documents data) = [] := by
  refine filter_eq_nil_iff.mpr fun call hcall hid => h ?_
  rw [← docId_of_mem_callsFor hcall, beq_iff_eq.mp hid]

/-- The calls depend on the old document only. -/
theorem callsFor_congr {documents documents' : DocumentManager}
    (h : data.updateType ≠ .insert → documents.stored data.oldId = documents'.stored data.oldId) :
    callsFor documents data = callsFor documents' data := by
  obtain ⟨updateType, document, oldId, timestamp, oldRtypeDoc⟩ := data
  simp only [callsFor]
  cases updateType with
  | insert => rfl
  | unknown | general | replace | rtype => rw [h (by simp)]

/-- What is buffered for each document. -/
abbrev Pending := ℕ → Option UpdateBufferData

section Flush

variable {P : Pending → IndexState σ τ → Prop}
  (hpop : ∀ pending state id data, pending id = some data → (∀ id' < id, pending id' = none) →
    P pending state → P (Function.update pending id none) (state.flushEntry data))

include hpop

variable {state : IndexState σ τ}

theorem foldl_flushEntry {entries : List (ℕ × UpdateBufferData)} {pending : Pending}
    (hsorted : (entries.map Prod.fst).Pairwise (· < ·))
    (hentries : ∀ id data, pending id = some data ↔ (id, data) ∈ entries) (h : P pending state) :
    P (fun _ => none) (entries.foldl (fun state entry => state.flushEntry entry.2) state) := by
  induction entries generalizing pending state with
  | nil =>
    have hnone : pending = fun _ => none := by
      ext id data
      exact iff_of_false (fun hdata => not_mem_nil ((hentries id data).mp hdata)) (by simp)
    exact hnone ▸ h
  | cons entry entries ih =>
    obtain ⟨id, data⟩ := entry
    rw [map_cons, pairwise_cons] at hsorted
    obtain ⟨hfirst, hsorted⟩ := hsorted
    have hlt {id' : ℕ} {data' : UpdateBufferData} (hmem : (id', data') ∈ entries) : id < id' :=
      hfirst id' (mem_map_of_mem hmem)
    have hbelow : ∀ id' < id, pending id' = none := by
      intro id' hid'
      refine Option.eq_none_iff_forall_ne_some.mpr fun data' hdata' => ?_
      rcases mem_cons.mp ((hentries id' data').mp hdata') with heq | hmem
      · exact hid'.ne (congrArg Prod.fst heq)
      · exact (hlt hmem).not_gt hid'
    have hnext := hpop pending state id data ((hentries id data).mpr mem_cons_self) hbelow h
    refine ih hsorted ?_ hnext
    intro id' data'
    rw [Function.update_apply]
    split
    · rename_i heq
      subst heq
      exact iff_of_false (by simp) fun hmem => (hlt hmem).false
    · rename_i hne
      rw [hentries, mem_cons, Prod.mk.injEq]
      exact or_iff_right fun heq => hne heq.1

/-- What every entry keeps, the one with the smallest id first, a flush keeps. -/
theorem IndexState.flush_induction (hbuffer : ∀ pending (state : IndexState σ τ) buffer,
      P pending state → P pending { state with updateBuffer := buffer })
    (h : P state.updateBuffer.lookup state) :
    P state.flushUpdateBuffer.updateBuffer.lookup state.flushUpdateBuffer := by
  have hflushed := foldl_flushEntry hpop state.updateBuffer.pairwise_inOrder
    (fun id data => Table.mem_inOrder.symm) h
  have hempty : state.flushUpdateBuffer.updateBuffer.lookup = fun _ => none := by
    ext id data
    rw [flushUpdateBuffer, Finmap.lookup_empty]
  exact hbuffer _ _ _ hflushed

end Flush

end AdDelivery.IndexWorker
