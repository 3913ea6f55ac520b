import AdDelivery.IndexWorker.UpdateBuffer

/-!
# Two runs in step

The ids that records get depend on the documents in two ways: whether the current document of a
DOCID is removed, and whether a new id is above all stored ones. A run through the buffer and one
without it agree on both, so they hand out the same ids.
-/

namespace AdDelivery.IndexWorker

open Function DocumentManager

open Common (Bytes ScdType copyProperties)

variable {σ τ : Type*}

/-- What a record can be: passed over, with or without a new id, or one of the three types. -/
inductive Decision (manager : IdManager σ) (ids : σ) (documents : DocumentManager) (doc : ScdDoc) :
    Option (UpdateType × ℕ × ℕ) → σ → Prop
  | passed : Decision manager ids documents doc none ids
  | passedNew (h : ∀ id, manager.getDocIdByDocName ids doc.docid = some id →
      id ∈ documents.delfilter) :
      Decision manager ids documents doc none (manager.updateDocIdByDocName ids doc.docid).1
  | insert (h : ∀ id, manager.getDocIdByDocName ids doc.docid = some id →
      id ∈ documents.delfilter) :
      Decision manager ids documents doc
        (some (.insert, 0, (manager.updateDocIdByDocName ids doc.docid).2))
        (manager.updateDocIdByDocName ids doc.docid).1
  | general {oldId : ℕ} (h : manager.getDocIdByDocName ids doc.docid = some oldId)
      (hscd : doc.scdType ≠ .insert) :
      Decision manager ids documents doc
        (some (.general, oldId, (manager.updateDocIdByDocName ids doc.docid).2))
        (manager.updateDocIdByDocName ids doc.docid).1
  | rtype {oldId : ℕ} (h : manager.getDocIdByDocName ids doc.docid = some oldId)
      (hscd : doc.scdType ≠ .insert) (hdeleted : oldId ∉ documents.delfilter) :
      Decision manager ids documents doc (some (.rtype, oldId, oldId)) ids

theorem isDeleted_iff {documents : DocumentManager} {id : ℕ} (h : 0 < id) :
    documents.isDeleted id = true ↔ id ∈ documents.delfilter := by
  simp [isDeleted, h.ne']

namespace Worker

variable (worker : Worker σ τ) (ids : σ) (documents : DocumentManager) (doc : ScdDoc)

theorem decision_insert (hscd : doc.scdType = .insert) : Decision worker.idManager ids documents doc
      (worker.prepareDocIdAndUpdateType ids documents doc).1
      (worker.prepareDocIdAndUpdateType ids documents doc).2 := by
  rw [prepareDocIdAndUpdateType, if_neg (not_not.mpr hscd), createInsertDocId]
  by_cases hknown : (worker.idManager.getDocIdByDocName ids doc.docid).any
      fun docId => !documents.isDeleted docId
  · rw [if_pos hknown]
    exact .passed
  · have hdeleted : ∀ id, worker.idManager.getDocIdByDocName ids doc.docid = some id →
        id ∈ documents.delfilter := by
      intro id hid
      refine (isDeleted_iff (worker.idManager.pos_of_get ids doc.docid id hid)).mp ?_
      simpa [hid] using hknown
    rw [if_neg hknown]
    by_cases hmax : (worker.idManager.updateDocIdByDocName ids doc.docid).2 ≤ documents.maxDocId
    · simp only [hmax, if_true]
      exact .passedNew hdeleted
    · simp only [hmax, if_false]
      exact .insert hdeleted

theorem decision_update (hscd : doc.scdType ≠ .insert) : Decision worker.idManager ids documents doc
      (worker.prepareDocIdAndUpdateType ids documents doc).1
      (worker.prepareDocIdAndUpdateType ids documents doc).2 := by
  rw [prepareDocIdAndUpdateType, if_pos hscd, checkUpdateType]
  cases hget : worker.idManager.getDocIdByDocName ids doc.docid with
  | none =>
    have hdeleted : ∀ id, worker.idManager.getDocIdByDocName ids doc.docid = some id →
        id ∈ documents.delfilter := by simp [hget]
    by_cases hrtype : doc.scdType = .rtype
    · simp only [hrtype, true_and, if_true]
      exact .passedNew hdeleted
    · simp only [hrtype, and_false, if_false, reduceCtorEq, false_and]
      exact .insert hdeleted
  | some oldId =>
    have hrtype : Decision worker.idManager ids documents doc
        (if documents.isDeleted oldId then (none, ids)
          else (some (.rtype, oldId, oldId), ids) : Option (UpdateType × ℕ × ℕ) × σ).1
        (if documents.isDeleted oldId then (none, ids)
          else (some (.rtype, oldId, oldId), ids) : Option (UpdateType × ℕ × ℕ) × σ).2 := by
      split
      · exact .passed
      · rename_i hdeleted
        rw [isDeleted_iff (worker.idManager.pos_of_get ids doc.docid oldId hget)] at hdeleted
        exact .rtype hget hscd hdeleted
    by_cases htype : doc.scdType = .rtype
    · simpa only [htype, if_true, reduceCtorEq, false_and, if_false, true_and] using hrtype
    by_cases hgeneral : doc.fields.any worker.isGeneralField
    · simp only [htype, hgeneral, if_true, if_false, reduceCtorEq, false_and, and_false]
      exact .general hget hscd
    · simpa only [htype, hgeneral, if_true, if_false, reduceCtorEq, false_and, and_false, true_and]
        using hrtype

/-- What a record is. -/
theorem decision : Decision worker.idManager ids documents doc
    (worker.prepareDocIdAndUpdateType ids documents doc).1
    (worker.prepareDocIdAndUpdateType ids documents doc).2 := by
  by_cases hscd : doc.scdType = .insert
  · exact worker.decision_insert ids documents doc hscd
  · exact worker.decision_update ids documents doc hscd

end Worker

/-- An entry of the buffer. Its old document is no longer the current one of its DOCID. -/
structure EntryOk (manager : IdManager σ) (ids : σ) (documents : DocumentManager) (id : ℕ)
    (data : UpdateBufferData) : Prop where
  document_id : data.document.id = id
  le_issued : id ≤ manager.issued ids
  fromRecord : FromRecord data
  fresh : data.updateType ≠ .rtype → documents.stored id = none
  general : data.updateType = .general → 0 < data.oldId ∧ data.oldId < id ∧
    ∀ name, manager.getDocIdByDocName ids name ≠ some data.oldId
  rtype : data.updateType = .rtype → data.oldId = id

/-- Nothing is known of ids that are not handed out. -/
structure Unissued (manager : IdManager σ) (ids : σ) (documents : DocumentManager) : Prop where
  stored : ∀ id, manager.issued ids < id → documents.stored id = none
  delfilter : ∀ id, manager.issued ids < id → id ∉ documents.delfilter

/-- The buffer and the documents of one run, and the documents of the other. -/
structure InStep (manager : IdManager σ) (ids : σ) (pending : Pending)
    (documents documents' : DocumentManager) : Prop where
  entries : ∀ id data, pending id = some data → EntryOk manager ids documents id data
  unissued : Unissued manager ids documents
  unissued' : Unissued manager ids documents'
  delfilter : ∀ name id, manager.getDocIdByDocName ids name = some id →
    (id ∈ documents.delfilter ↔ id ∈ documents'.delfilter)
  maxDocId : ∀ id, manager.issued ids < id → (id ≤ documents.maxDocId ↔ id ≤ documents'.maxDocId)

section Parts

variable {manager : IdManager σ} {ids : σ} {documents documents' : DocumentManager}
  {pending : Pending} {id : ℕ} {data : UpdateBufferData}

theorem EntryOk.applyEntry_id (h : EntryOk manager ids documents id data) :
    (applyEntry documents data).stored id = storedBy documents documents data := by
  rw [← h.document_id]
  refine stored_applyEntry_self h.fromRecord fun htype => ?_
  rw [h.document_id]
  exact h.fresh (by simp [htype])

variable {other : ℕ}

section

variable (h : EntryOk manager ids documents id data)
include h

theorem EntryOk.applyEntry_of_ne (hne : other ≠ id) :
    (applyEntry documents data).stored other = documents.stored other :=
  stored_applyEntry_of_ne h.fromRecord (h.document_id ▸ hne)

theorem EntryOk.mem_delfilter (other : ℕ) : other ∈ (applyEntry documents data).delfilter ↔
      other ∈ documents.delfilter ∨ removedBy documents data other :=
  mem_delfilter_applyEntry h.fromRecord (fun htype => (h.general htype).1.ne') other

/-- An entry does not reach ids that are not handed out. -/
theorem EntryOk.unissued (hdocuments : Unissued manager ids documents) :
    Unissued manager ids (applyEntry documents data) where
  stored other hother := by
    rw [h.applyEntry_of_ne (h.le_issued.trans_lt hother).ne']
    exact hdocuments.stored other hother
  delfilter other hother := by
    rw [h.mem_delfilter]
    rintro (hmem | ⟨_, _, hstored⟩)
    · exact hdocuments.delfilter other hother hmem
    · exact hstored (hdocuments.stored other hother)

/-- Nor does it remove the current document of a DOCID. -/
theorem EntryOk.mem_delfilter_current {name other : ℕ}
    (hget : manager.getDocIdByDocName ids name = some other) :
    other ∈ (applyEntry documents data).delfilter ↔ other ∈ documents.delfilter := by
  rw [h.mem_delfilter]
  refine or_iff_left ?_
  rintro ⟨htype, rfl, _⟩
  exact (h.general htype).2.2 name hget

theorem EntryOk.le_maxDocId (hother : manager.issued ids < other) :
    other ≤ (applyEntry documents data).maxDocId ↔ other ≤ documents.maxDocId :=
  le_maxDocId_applyEntry h.fromRecord (h.document_id ▸ h.le_issued.trans_lt hother)

/-- Other entries stay in order when one is done. -/
theorem EntryOk.applyEntry {data' : UpdateBufferData}
    (h' : EntryOk manager ids documents other data') (hne : other ≠ id) :
    EntryOk manager ids (applyEntry documents data) other data' where
  document_id := h'.document_id
  le_issued := h'.le_issued
  fromRecord := h'.fromRecord
  fresh htype := by rw [h.applyEntry_of_ne hne, h'.fresh htype]
  general := h'.general
  rtype := h'.rtype

end

end Parts

namespace InStep

variable {manager : IdManager σ} {ids : σ} {pending : Pending}
  {documents documents' : DocumentManager} {id : ℕ} {data : UpdateBufferData}

/-- Entries may be dropped. -/
theorem mono (h : InStep manager ids pending documents documents') {pending' : Pending}
    (hsub : ∀ id data, pending' id = some data → pending id = some data) :
    InStep manager ids pending' documents documents' where
  entries id data hdata := h.entries id data (hsub id data hdata)
  unissued := h.unissued
  unissued' := h.unissued'
  delfilter := h.delfilter
  maxDocId := h.maxDocId

theorem update_eq_some {pending : Pending} {id other : ℕ} {data : UpdateBufferData} :
    update pending id none other = some data ↔ other ≠ id ∧ pending other = some data := by
  rw [update_apply]
  split
  · rename_i heq
    simp [heq]
  · rename_i hne
    simp [hne]

/-- An entry is done. -/
theorem pop (h : InStep manager ids pending documents documents') (hdata : pending id = some data) :
    InStep manager ids (update pending id none) (applyEntry documents data)
      documents' where
  entries other data' hdata' := by
    obtain ⟨hne, hdata'⟩ := update_eq_some.mp hdata'
    exact (h.entries id data hdata).applyEntry (h.entries other data' hdata') hne
  unissued := (h.entries id data hdata).unissued h.unissued
  unissued' := h.unissued'
  delfilter name other hget := by
    rw [(h.entries id data hdata).mem_delfilter_current hget, h.delfilter name other hget]
  maxDocId other hother := by
    rw [(h.entries id data hdata).le_maxDocId hother, h.maxDocId other hother]

/-- An entry is put into the buffer on one side, and done on the other. -/
theorem push (h : InStep manager ids pending documents documents')
    (hentry : EntryOk manager ids documents id data)
    (hentry' : EntryOk manager ids documents' id data) :
    InStep manager ids (update pending id (some data)) documents
      (applyEntry documents' data) where
  entries other data' hdata' := by
    rw [update_apply] at hdata'
    split at hdata'
    · rename_i heq
      obtain rfl := Option.some.inj hdata'
      exact heq ▸ hentry
    · exact h.entries other data' hdata'
  unissued := h.unissued
  unissued' := hentry'.unissued h.unissued'
  delfilter name other hget := by
    rw [hentry'.mem_delfilter_current hget, h.delfilter name other hget]
  maxDocId other hother := by
    rw [hentry'.le_maxDocId hother, h.maxDocId other hother]

theorem lt_issued_update (name : ℕ) :
    manager.issued ids < manager.issued (manager.updateDocIdByDocName ids name).1 := by
  rw [manager.issued_update]
  exact manager.issued_lt ids name

theorem unissued_update (h : Unissued manager ids documents) (name : ℕ) :
    Unissued manager (manager.updateDocIdByDocName ids name).1 documents where
  stored other hother := h.stored other ((lt_issued_update name).trans hother)
  delfilter other hother := h.delfilter other ((lt_issued_update name).trans hother)

theorem update (h : InStep manager ids pending documents documents') (name : ℕ) :
    InStep manager (manager.updateDocIdByDocName ids name).1 pending documents documents' where
  entries other data hdata := by
    have hentry := h.entries other data hdata
    refine ⟨hentry.document_id, hentry.le_issued.trans (lt_issued_update name).le,
      hentry.fromRecord, hentry.fresh, fun htype => ?_, hentry.rtype⟩
    obtain ⟨hpos, hlt, hcurrent⟩ := hentry.general htype
    refine ⟨hpos, hlt, fun name' => ?_⟩
    rw [manager.get_update]
    split
    · have hnew := hlt.trans_le hentry.le_issued |>.trans (manager.issued_lt ids name)
      exact fun heq => hnew.ne' (Option.some.inj heq)
    · exact hcurrent name'
  unissued := unissued_update h.unissued name
  unissued' := unissued_update h.unissued' name
  delfilter name' other hget := by
    rw [manager.get_update] at hget
    split at hget
    · obtain rfl := Option.some.inj hget
      exact iff_of_false (h.unissued.delfilter _ (manager.issued_lt ids name))
        (h.unissued'.delfilter _ (manager.issued_lt ids name))
    · exact h.delfilter name' other hget
  maxDocId other hother := h.maxDocId other ((lt_issued_update name).trans hother)

end InStep

/-- Runs in step decide alike. -/
theorem Worker.prepare_congr (worker : Worker σ τ) {ids : σ} {pending : Pending}
    {documents documents' : DocumentManager}
    (h : InStep worker.idManager ids pending documents documents') (doc : ScdDoc) :
    worker.prepareDocIdAndUpdateType ids documents doc =
      worker.prepareDocIdAndUpdateType ids documents' doc := by
  have hdeleted : ∀ id, worker.idManager.getDocIdByDocName ids doc.docid = some id →
      documents.isDeleted id = documents'.isDeleted id := by
    intro id hget
    rw [isDeleted, isDeleted, decide_eq_decide.mpr
      (h.delfilter doc.docid id hget)]
  have hmax := h.maxDocId _ (worker.idManager.issued_lt ids doc.docid)
  rw [prepareDocIdAndUpdateType, prepareDocIdAndUpdateType, createInsertDocId, createInsertDocId,
    checkUpdateType]
  simp only [hmax]
  cases hget : worker.idManager.getDocIdByDocName ids doc.docid with
  | none => simp
  | some id =>
    simp only [Option.any_some, hdeleted id hget]
    split
    · by_cases htype : doc.scdType = .rtype
      · simp [htype, hdeleted id hget]
      by_cases hgeneral : doc.fields.any worker.isGeneralField
      · simp [htype, hgeneral]
      · simp [htype, hgeneral, hdeleted id hget]
    · rfl

end AdDelivery.IndexWorker
