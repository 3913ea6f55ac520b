import AdDelivery.IndexWorker.Lockstep

/-!
# Buffered and immediate changes

As long as no entry is lost, the immediate run has all documents and all calls that a flush of the
buffer would bring.
-/

namespace AdDelivery.IndexWorker

open IndexState Function

open Common (Bytes ScdType copyProperties)

variable {σ τ : Type*}

/-- The entry for a record. An insertion keeps no values from before. -/
def entryFor (updateType : UpdateType) (oldId docId : ℕ) (prepared : PreparedDocument) :
    UpdateBufferData where
  updateType := updateType
  document := { id := docId, properties := prepared.properties }
  oldId := oldId
  timestamp := prepared.timestamp
  oldRtypeDoc := if updateType = .insert then ∅ else prepared.oldRtypeDoc

namespace Worker

variable (worker : Worker σ τ) (state : IndexState σ τ) (doc : ScdDoc) {ids : σ}

/-- The entry for a record, and the state once it has its id. -/
def entryOf (updateType : UpdateType) (oldId docId : ℕ) : UpdateBufferData :=
  entryFor updateType oldId docId
    (worker.prepareDocument doc oldId docId updateType state.rtypeValues).1

def received (ids : σ) (updateType : UpdateType) (oldId docId : ℕ) : IndexState σ τ :=
  { state with
    ids := ids
    rtypeValues := (worker.prepareDocument doc oldId docId updateType state.rtypeValues).2 }

theorem indexDoc_passed {immediately : Bool}
    (h : worker.prepareDocIdAndUpdateType state.ids state.documents doc = (none, ids)) :
    worker.indexDoc immediately state doc = { state with ids := ids } := by
  rw [indexDoc, h]

/-- At once, the entry is done. -/
theorem indexDoc_insert {docId : ℕ} (h : worker.prepareDocIdAndUpdateType state.ids state.documents
      doc = (some (.insert, 0, docId), ids)) :
    worker.indexDoc true state doc = (worker.received state doc ids .insert 0 docId).flushEntry
      (worker.entryOf state doc .insert 0 docId) := by
  rw [indexDoc, h]
  simp only [or_true, if_true, insertDoc]
  rfl

variable {updateType : UpdateType}

theorem indexDoc_update {oldId docId : ℕ}
    (h : worker.prepareDocIdAndUpdateType state.ids state.documents doc =
      (some (updateType, oldId, docId), ids)) (hscd : doc.scdType ≠ .insert) (hold : oldId ≠ 0)
    (htype : updateType ≠ .insert) : worker.indexDoc true state doc =
      (worker.received state doc ids updateType oldId docId).flushEntry
        (worker.entryOf state doc updateType oldId docId) := by
  rw [indexDoc, h, ← doUpdateDoc_eq_flushEntry _ _ htype]
  simp only [hscd, hold, or_false, if_false, updateDoc, htype, if_true, entryOf, entryFor]
  rfl

/-- Through the buffer, it becomes an entry. -/
theorem indexDoc_bufferInsert {docId : ℕ}
    (h : worker.prepareDocIdAndUpdateType state.ids state.documents doc =
      (some (.insert, 0, docId), ids)) (hnew : state.updateBuffer.lookup docId = none) :
    worker.indexDoc false state doc = { worker.received state doc ids .insert 0 docId with
        updateBuffer := state.updateBuffer.insert docId
          (worker.entryOf state doc .insert 0 docId) }.flushIfFull := by
  rw [indexDoc, h]
  simp only [or_true, if_true, insertDoc, hnew, Option.getD_none, entryOf, entryFor,
    Bool.false_eq_true, if_false]
  rfl

/-- What was buffered for the document is done first. -/
def beforeUpdate (state : IndexState σ τ) (docId : ℕ) : IndexState σ τ :=
  match state.updateBuffer.lookup docId with
  | none => state
  | some data =>
    state.doUpdateDoc data.oldId data.document data.oldRtypeDoc data.updateType data.timestamp

theorem indexDoc_bufferUpdate {oldId docId : ℕ}
    (h : worker.prepareDocIdAndUpdateType state.ids state.documents doc =
      (some (updateType, oldId, docId), ids)) (hscd : doc.scdType ≠ .insert) (hold : oldId ≠ 0)
    (htype : updateType ≠ .insert) : worker.indexDoc false state doc =
      { beforeUpdate (worker.received state doc ids updateType oldId docId) docId with
        updateBuffer :=
          (beforeUpdate (worker.received state doc ids updateType oldId docId)
            docId).updateBuffer.insert
              docId (worker.entryOf state doc updateType oldId docId) }.flushIfFull := by
  rw [indexDoc, h]
  simp only [hscd, hold, or_false, if_false, updateDoc, htype, Bool.false_eq_true,
    entryOf, entryFor]
  rfl

end Worker

/-- What a flush would add to the documents and calls of the first run, the second one has. -/
structure Synced (pending : Pending) (documents documents' : DocumentManager)
    (index index' : List IndexCall) : Prop where
  stored : ∀ id, documents'.stored id = (pending id).elim (documents.stored id)
    (storedBy documents documents')
  delfilter : ∀ id, id ∈ documents'.delfilter ↔
    id ∈ documents.delfilter ∨
      ∃ other data, pending other = some data ∧ removedBy documents' data id
  calls : ∀ id, callsOf id index' =
    callsOf id index ++ (pending id).elim [] (callsFor documents')

namespace Synced

variable {manager : IdManager σ} {ids : σ} {pending : Pending}
  {documents documents' : DocumentManager} {index index' : List IndexCall} {id : ℕ}
  {data : UpdateBufferData}

theorem storedBy_congr {documents₁ documents₂ documents₁' documents₂' : DocumentManager}
    (hold : data.updateType = .general →
      documents₁'.stored data.oldId = documents₂'.stored data.oldId)
    (hself : data.updateType = .rtype →
      documents₁.stored data.document.id = documents₂.stored data.document.id)
    (hrecord : FromRecord data) :
    storedBy documents₁ documents₁' data = storedBy documents₂ documents₂' data := by
  rw [storedBy, storedBy]
  rcases hrecord with htype | htype | htype
  · simp only [htype]
  · simp only [htype, hold htype]
  · simp only [htype, hself htype]

theorem removedBy_congr (hold : data.updateType ≠ .insert →
      documents.stored data.oldId = documents'.stored data.oldId) (other : ℕ) :
    removedBy documents data other ↔ removedBy documents' data other := by
  refine and_congr_right fun htype => and_congr_right ?_
  rintro rfl
  rw [hold (by simp [htype])]

section

variable (h : Synced pending documents documents' index index')
    (hin : InStep manager ids pending documents documents')
include h hin

/-- An entry becomes pending on one side and is done on the other. -/
theorem push (hnone : pending id = none) (hentry : EntryOk manager ids documents' id data)
    (hkeep : ∀ other data', update pending id (some data) other = some data' →
      data'.updateType ≠ .insert →
        (applyEntry documents' data).stored data'.oldId = documents'.stored data'.oldId) :
    Synced (update pending id (some data)) documents (applyEntry documents' data) index
      (index' ++ callsFor documents' data) where
  stored other := by
    by_cases hother : other = id
    · subst hother
      rw [update_self, hentry.applyEntry_id]
      refine storedBy_congr (fun htype => ?_) (fun htype => ?_) hentry.fromRecord
      · exact (hkeep other data (update_self ..) (by simp [htype])).symm
      · rw [hentry.document_id, h.stored other, hnone, Option.elim_none]
    · rw [update_of_ne hother, hentry.applyEntry_of_ne hother, h.stored other]
      cases hdata' : pending other with
      | none => rfl
      | some data' =>
        refine storedBy_congr (fun htype => ?_) (fun _ => rfl)
          (hin.entries other data' hdata').fromRecord
        have hpending : update pending id (some data) other = some data' := by
          rw [update_of_ne hother, hdata']
        exact (hkeep other data' hpending (by simp [htype])).symm
  delfilter other := by
    rw [hentry.mem_delfilter, h.delfilter other, or_assoc]
    refine or_congr_right ⟨?_, ?_⟩
    · rintro (⟨id', data', hdata', hremoved⟩ | hremoved)
      · have hne : id' ≠ id := fun heq => by simp [heq, hnone] at hdata'
        have hpending : update pending id (some data) id' = some data' := by
          rw [update_of_ne hne, hdata']
        exact ⟨id', data', hpending,
          (removedBy_congr (hkeep id' data' hpending) other).mpr hremoved⟩
      · have hpending := update_self id (some data) pending
        exact ⟨id, data, hpending, (removedBy_congr (hkeep id data hpending) other).mpr hremoved⟩
    · rintro ⟨id', data', hpending, hremoved⟩
      rw [removedBy_congr (hkeep id' data' hpending) other] at hremoved
      rw [update_apply] at hpending
      split at hpending
      · obtain rfl := Option.some.inj hpending
        exact .inr hremoved
      · exact .inl ⟨id', data', hpending, hremoved⟩
  calls other := by
    rw [callsOf_append, h.calls other, List.append_assoc]
    congr 1
    by_cases hother : other = id
    · subst hother
      have hself := callsOf_callsFor_self documents' data
      rw [hentry.document_id] at hself
      rw [hnone, Option.elim_none, hself, update_self]
      exact (callsFor_congr (hkeep other data (update_self ..))).symm
    · rw [callsOf_callsFor_of_ne _ (hentry.document_id ▸ hother), List.append_nil,
        update_of_ne hother]
      cases hdata' : pending other with
      | none => rfl
      | some data' =>
        have hpending : update pending id (some data) other = some data' := by
          rw [update_of_ne hother, hdata']
        exact (callsFor_congr (hkeep other data' hpending)).symm

/-- A pending entry is done. -/
theorem pop (hdata : pending id = some data) (hold : data.updateType = .general →
      documents.stored data.oldId = documents'.stored data.oldId) :
    Synced (update pending id none) (applyEntry documents data) documents'
      (index ++ callsFor documents data) index' := by
  have hentry := hin.entries id data hdata
  have hself : documents'.stored id = storedBy documents documents' data := by
    rw [h.stored id, hdata, Option.elim_some]
  have hsame : data.updateType ≠ .insert →
      documents.stored data.oldId = documents'.stored data.oldId := by
    intro hinsert
    rcases hentry.fromRecord with htype | htype | htype
    · exact absurd htype hinsert
    · exact hold htype
    · rw [hentry.rtype htype, hself, storedBy, htype, hentry.document_id]
  refine ⟨fun other => ?_, fun other => ?_, fun other => ?_⟩
  · by_cases hother : other = id
    · subst hother
      rw [update_self, hentry.applyEntry_id, hself]
      exact storedBy_congr (fun htype => (hold htype).symm) (fun _ => rfl) hentry.fromRecord
    · rw [update_of_ne hother, h.stored other]
      cases hdata' : pending other with
      | none => rw [Option.elim_none, Option.elim_none, hentry.applyEntry_of_ne hother]
      | some data' =>
        have hentry' := hin.entries other data' hdata'
        refine storedBy_congr (fun _ => rfl) (fun _ => ?_) hentry'.fromRecord
        rw [hentry'.document_id, hentry.applyEntry_of_ne hother]
  · rw [h.delfilter other, hentry.mem_delfilter, or_assoc]
    refine or_congr_right ⟨?_, ?_⟩
    · rintro ⟨id', data', hdata', hremoved⟩
      by_cases hid : id' = id
      · subst hid
        obtain rfl := Option.some.inj (hdata.symm.trans hdata')
        exact .inl ((removedBy_congr hsame other).mpr hremoved)
      · exact .inr ⟨id', data', InStep.update_eq_some.mpr ⟨hid, hdata'⟩, hremoved⟩
    · rintro (hremoved | ⟨id', data', hdata', hremoved⟩)
      · exact ⟨id, data, hdata, (removedBy_congr hsame other).mp hremoved⟩
      · exact ⟨id', data', (InStep.update_eq_some.mp hdata').2, hremoved⟩
  · rw [callsOf_append, h.calls other, List.append_assoc]
    congr 1
    by_cases hother : other = id
    · subst hother
      have hcalls := callsOf_callsFor_self documents data
      rw [hentry.document_id] at hcalls
      rw [hdata, hcalls, update_self, Option.elim_none, List.append_nil]
      exact (callsFor_congr hsame).symm
    · rw [callsOf_callsFor_of_ne _ (hentry.document_id ▸ hother), List.nil_append,
        update_of_ne hother]

/-- A document that the first run has stored, the second one has too. -/
theorem stored_eq (hstored : documents.stored id ≠ none) :
    documents'.stored id = documents.stored id := by
  rw [h.stored id]
  cases hdata : pending id with
  | none => rfl
  | some data =>
    have hentry := hin.entries id data hdata
    have htype : data.updateType = .rtype := by
      by_contra hne
      exact hstored (hentry.fresh hne)
    rw [Option.elim_some, storedBy, htype, hentry.document_id]

end

/-- With nothing pending the runs have the same. -/
theorem of_none (h : Synced (fun _ => none) documents documents' index index') :
    documents.stored = documents'.stored ∧ documents.delfilter = documents'.delfilter ∧
      ∀ id, callsOf id index = callsOf id index' := by
  refine ⟨?_, ?_, fun id => ?_⟩
  · ext1 id
    exact (h.stored id).symm
  · ext id
    simp [h.delfilter id]
  · simp [h.calls id]

end Synced

/-- The document of an id is stored, or a flush will store it. -/
inductive Arrives (documents : DocumentManager) (pending : Pending) : ℕ → Prop
  | stored {id : ℕ} (h : documents.stored id ≠ none) : Arrives documents pending id
  | inserted {id : ℕ} {data : UpdateBufferData} (h : pending id = some data)
      (htype : data.updateType = .insert) : Arrives documents pending id
  | updated {id : ℕ} {data : UpdateBufferData} (h : pending id = some data)
      (htype : data.updateType = .general) (hold : Arrives documents pending data.oldId) :
      Arrives documents pending id

namespace Arrives

variable {manager : IdManager σ} {ids : σ} {pending pending' : Pending}
  {documents documents' : DocumentManager} {index index' : List IndexCall} {id : ℕ}
  {data : UpdateBufferData}

/-- In synchronized runs these are the documents that the second one has. -/
theorem iff_stored (h : Synced pending documents documents' index index')
    (hin : InStep manager ids pending documents documents') :
    Arrives documents pending id ↔ documents'.stored id ≠ none := by
  constructor
  · intro harrives
    induction harrives with
    | stored hstored => rwa [h.stored_eq hin hstored]
    | inserted hdata htype => simp [h.stored, hdata, storedBy, htype]
    | updated hdata htype _ ih => simpa [h.stored, hdata, storedBy, htype] using ih
  · induction id using Nat.strong_induction_on with
    | _ id ih =>
      intro hstored
      have hid := h.stored id
      cases hdata : pending id with
      | none =>
        rw [hdata, Option.elim_none] at hid
        exact .stored (hid ▸ hstored)
      | some data =>
        have hentry := hin.entries id data hdata
        rw [hdata, Option.elim_some, storedBy] at hid
        rcases hentry.fromRecord with htype | htype | htype
        · exact .inserted hdata htype
        · refine .updated hdata htype (ih _ (hentry.general htype).2.1 fun hnone => hstored ?_)
          rw [hid, htype]
          simp only [hnone, Option.map_none]
        · simp only [htype, hentry.document_id] at hid
          exact .stored (hid ▸ hstored)

/-- Nothing arrives that did not before, if nothing new is pending and what is stored arrives. -/
theorem of_sub (hstored : ∀ id, documents'.stored id ≠ none → Arrives documents pending id)
    (hsub : ∀ id data, pending' id = some data → data.updateType ≠ .rtype → pending id = some data)
    (h : Arrives documents' pending' id) : Arrives documents pending id := by
  induction h with
  | stored h => exact hstored _ h
  | inserted h htype => exact .inserted (hsub _ _ h (by simp [htype])) htype
  | updated h htype _ ih => exact .updated (hsub _ _ h (by simp [htype])) htype ih

variable {other : ℕ}

theorem of_applyEntry (hentry : EntryOk manager ids documents id data)
    (hdata : pending id = some data) (h : (applyEntry documents data).stored other ≠ none) :
    Arrives documents pending other := by
  by_cases hother : other = id
  · subst hother
    rw [hentry.applyEntry_id, storedBy] at h
    rcases hentry.fromRecord with htype | htype | htype
    · exact .inserted hdata htype
    · refine .updated hdata htype (.stored ?_)
      simpa [htype] using h
    · rw [htype, hentry.document_id] at h
      exact .stored h
  · rw [hentry.applyEntry_of_ne hother] at h
    exact .stored h

/-- Doing an entry lets nothing else arrive. -/
theorem of_pop (hentry : EntryOk manager ids documents id data) (hdata : pending id = some data)
    (h : Arrives (applyEntry documents data) (update pending id none) other) :
    Arrives documents pending other := by
  refine of_sub (fun _ hstored => of_applyEntry hentry hdata hstored)
    (fun id' data' hdata' _ => ?_) h
  exact (InStep.update_eq_some.mp hdata').2

/-- A new entry lets nothing arrive but its own document. -/
theorem of_push (hin : InStep manager ids pending documents documents')
    (hnew : manager.issued ids < id)
    (h : Arrives documents (update pending id (some data)) other) :
    other = id ∨ Arrives documents pending other := by
  induction h with
  | stored h => exact .inr (.stored h)
  | @inserted other data' h htype =>
    by_cases hother : other = id
    · exact .inl hother
    · rw [update_of_ne hother] at h
      exact .inr (.inserted h htype)
  | @updated other data' h htype _ ih =>
    by_cases hother : other = id
    · exact .inl hother
    · rw [update_of_ne hother] at h
      have hentry := hin.entries other data' h
      have hlt := (hentry.general htype).2.1.trans_le hentry.le_issued |>.trans hnew
      exact .inr (.updated h htype (ih.resolve_left hlt.ne))

end Arrives

end AdDelivery.IndexWorker
