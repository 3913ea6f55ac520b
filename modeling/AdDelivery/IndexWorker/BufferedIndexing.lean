import AdDelivery.IndexWorker.BufferSync
import AdDelivery.Core.Run

/-!
# Indexing through the buffer

A run through the buffer leaves the documents of an immediate run exactly if no change of outside
properties meets an entry that cannot be done yet: an insertion, or an update whose old document is
itself still in the buffer. Such an entry is overwritten, and its document never comes back.
-/

namespace AdDelivery.IndexWorker

open IndexState Worker Option Function Synced Arrives DocumentManager

open Common (Bytes ScdType copyProperties)

variable {σ τ : Type*} (worker : Worker σ τ)

/-- The run through the buffer follows the immediate one. -/
structure Follows (pending : Pending) (b m : IndexState σ τ) : Prop where
  ids : b.ids = m.ids
  rtypeValues : b.rtypeValues = m.rtypeValues
  inStep : InStep worker.idManager m.ids pending b.documents m.documents

def SyncedRuns (pending : Pending) (b m : IndexState σ τ) : Prop :=
  Synced pending b.documents m.documents b.index m.index

/-- The states after a record, before a full buffer is flushed. -/
inductive RecordStep (b m : IndexState σ τ) (doc : ScdDoc) :
    IndexState σ τ → IndexState σ τ → Prop
  | passed (hprepare : (worker.prepareDocIdAndUpdateType b.ids b.documents doc).1 = none) :
      RecordStep b m doc b m
  | passedNew (hprepare : (worker.prepareDocIdAndUpdateType b.ids b.documents doc).1 = none)
      (hnew : ∀ id, worker.idManager.getDocIdByDocName m.ids doc.docid = some id →
        id ∈ m.documents.delfilter) :
      RecordStep b m doc
        { b with ids := (worker.idManager.updateDocIdByDocName m.ids doc.docid).1 }
        { m with ids := (worker.idManager.updateDocIdByDocName m.ids doc.docid).1 }
  | fresh {data : UpdateBufferData} {rtypeValues : τ}
      (hprepare : (worker.prepareDocIdAndUpdateType b.ids b.documents doc).1 =
        some (data.updateType, data.oldId, data.document.id))
      (hid : data.document.id = (worker.idManager.updateDocIdByDocName m.ids doc.docid).2)
      (htype : (data.updateType = .insert ∧
          ∀ id, worker.idManager.getDocIdByDocName m.ids doc.docid = some id →
            id ∈ m.documents.delfilter) ∨ (data.updateType = .general ∧
          worker.idManager.getDocIdByDocName m.ids doc.docid = some data.oldId)) :
      RecordStep b m doc
        { b with
          ids := (worker.idManager.updateDocIdByDocName m.ids doc.docid).1
          rtypeValues := rtypeValues
          updateBuffer := b.updateBuffer.insert data.document.id data }
        (flushEntry { m with
            ids := (worker.idManager.updateDocIdByDocName m.ids doc.docid).1
            rtypeValues := rtypeValues } data)
  | rtype {data : UpdateBufferData} {rtypeValues : τ}
      (hprepare : (worker.prepareDocIdAndUpdateType b.ids b.documents doc).1 =
        some (.rtype, data.oldId, data.document.id))
      (hget : worker.idManager.getDocIdByDocName m.ids doc.docid = some data.document.id)
      (hdeleted : data.document.id ∉ m.documents.delfilter)
      (htype : data.updateType = .rtype) (hold : data.oldId = data.document.id) :
      RecordStep b m doc
        { beforeUpdate { b with ids := m.ids, rtypeValues := rtypeValues }
            data.document.id with
          updateBuffer := b.updateBuffer.insert data.document.id data }
        (flushEntry { m with rtypeValues := rtypeValues } data)

variable (state : IndexState σ τ)

theorem IndexState.doUpdateDoc_frame (oldId : ℕ) (document : Document)
    (oldRtypeDoc : Common.Document) (updateType : UpdateType) (timestamp : ℤ) :
    (state.doUpdateDoc oldId document oldRtypeDoc updateType timestamp).ids = state.ids ∧
    (state.doUpdateDoc oldId document oldRtypeDoc updateType timestamp).rtypeValues =
      state.rtypeValues ∧
    (state.doUpdateDoc oldId document oldRtypeDoc updateType timestamp).updateBuffer =
      state.updateBuffer := by
  cases updateType with
  | unknown | insert | rtype => exact ⟨rfl, rfl, rfl⟩
  | general | replace =>
    simp only [doUpdateDoc]
    cases state.mergeDocument oldId document <;> exact ⟨rfl, rfl, rfl⟩

theorem beforeUpdate_frame (docId : ℕ) : (beforeUpdate state docId).ids = state.ids ∧
    (beforeUpdate state docId).rtypeValues = state.rtypeValues ∧
    (beforeUpdate state docId).updateBuffer = state.updateBuffer := by
  rw [beforeUpdate]
  split
  · exact ⟨rfl, rfl, rfl⟩
  · exact state.doUpdateDoc_frame ..

theorem beforeUpdate_of_none {docId : ℕ} (h : state.updateBuffer.lookup docId = none) :
    beforeUpdate state docId = state := by
  rw [beforeUpdate, h]

theorem IndexState.flushIfFull_cases :
    state.flushIfFull = state ∨ state.flushIfFull = state.flushUpdateBuffer := by
  rw [flushIfFull]
  split
  · exact .inr rfl
  · exact .inl rfl

/-- The decision of a record, taken in both runs. -/
theorem exists_recordStep {b m : IndexState σ τ} (h : Follows worker b.updateBuffer.lookup b m)
    (doc : ScdDoc) : ∃ b', RecordStep worker b m doc b' (worker.indexDoc true m doc) ∧
      (worker.indexDoc false b doc = b' ∨ worker.indexDoc false b doc = b'.flushUpdateBuffer) := by
  have hids := h.ids
  have hvalues := h.rtypeValues
  have hdecision := worker.decision m.ids m.documents doc
  have hprepare : worker.prepareDocIdAndUpdateType b.ids b.documents doc =
      worker.prepareDocIdAndUpdateType m.ids m.documents doc := by
    rw [hids]
    exact worker.prepare_congr h.inStep doc
  generalize hresult : (worker.prepareDocIdAndUpdateType m.ids m.documents doc).1 = result
    at hdecision
  generalize hids' : (worker.prepareDocIdAndUpdateType m.ids m.documents doc).2 = ids' at hdecision
  have hm : worker.prepareDocIdAndUpdateType m.ids m.documents doc = (result, ids') := by
    rw [← hresult, ← hids']
  have hb := hprepare.trans hm
  have hb₁ := congrArg Prod.fst hb
  have hbuffered {b' : IndexState σ τ}
      (hstep : RecordStep worker b m doc b' (worker.indexDoc true m doc))
      (hindex : worker.indexDoc false b doc = b'.flushIfFull) :
      ∃ b', RecordStep worker b m doc b' (worker.indexDoc true m doc) ∧
        (worker.indexDoc false b doc = b' ∨ worker.indexDoc false b doc = b'.flushUpdateBuffer) :=
    ⟨b', hstep, hindex ▸ b'.flushIfFull_cases⟩
  have hlookup : b.updateBuffer.lookup (worker.idManager.updateDocIdByDocName m.ids doc.docid).2 =
      none := by
    refine eq_none_iff_forall_ne_some.mpr fun data hdata => ?_
    exact (h.inStep.entries _ data hdata).le_issued.not_gt (worker.idManager.issued_lt ..)
  cases hdecision with
  | passed =>
    refine ⟨b, ?_, .inl ?_⟩
    · rw [worker.indexDoc_passed m doc hm]
      exact .passed hb₁
    · rw [worker.indexDoc_passed b doc hb, ← hids]
  | passedNew hnew =>
    refine ⟨_, ?_, .inl (worker.indexDoc_passed b doc hb)⟩
    rw [worker.indexDoc_passed m doc hm]
    exact .passedNew hb₁ hnew
  | insert hnew =>
    refine hbuffered ?_ (worker.indexDoc_bufferInsert b doc hb hlookup)
    rw [worker.indexDoc_insert m doc hm, received, entryOf, hvalues]
    exact @RecordStep.fresh _ _ worker b m doc (entryFor .insert 0 _ _) _ hb₁ rfl (.inl ⟨rfl, hnew⟩)
  | @general oldId hget hscd =>
    have hpos := (worker.idManager.pos_of_get _ _ _ hget).ne'
    have hindex := worker.indexDoc_bufferUpdate b doc hb hscd hpos (by simp)
    have hbefore : beforeUpdate (worker.received b doc
        (worker.idManager.updateDocIdByDocName m.ids doc.docid).1 .general oldId
          (worker.idManager.updateDocIdByDocName m.ids doc.docid).2)
          (worker.idManager.updateDocIdByDocName m.ids doc.docid).2 = _ :=
      beforeUpdate_of_none _ hlookup
    rw [hbefore] at hindex
    refine hbuffered ?_ hindex
    rw [worker.indexDoc_update m doc hm hscd hpos (by simp), received,
      entryOf, hvalues]
    exact @RecordStep.fresh _ _ worker b m doc (entryFor .general oldId _ _) _ hb₁ rfl
      (.inr ⟨rfl, hget⟩)
  | @rtype oldId hget hscd hdeleted =>
    have hpos := (worker.idManager.pos_of_get _ _ _ hget).ne'
    refine hbuffered ?_ (worker.indexDoc_bufferUpdate b doc hb hscd hpos (by simp))
    rw [worker.indexDoc_update m doc hm hscd hpos (by simp), received,
      entryOf, hvalues, (beforeUpdate_frame _ _).2.2]
    exact @RecordStep.rtype _ _ worker b m doc (entryFor .rtype oldId oldId _) _ hb₁ hget hdeleted
      rfl rfl

section Step

variable {worker} {b m b' m' : IndexState σ τ} {doc : ScdDoc} {pending : Pending}

theorem lookup_insert_buffer (buffer : Table ℕ UpdateBufferData) (id : ℕ)
    (data : UpdateBufferData) :
    (buffer.insert id data).lookup = update buffer.lookup id (some data) := by
  ext1 other
  rw [Table.lookup_insert_eq, update_apply]

variable {data : UpdateBufferData} {manager : IdManager σ} {documents : DocumentManager} {ids : σ}

theorem entryOk_fresh {name : ℕ} (hunissued : Unissued manager ids documents)
    (hid : data.document.id = (manager.updateDocIdByDocName ids name).2)
    (htype : data.updateType = .insert ∨ (data.updateType = .general ∧
      manager.getDocIdByDocName ids name = some data.oldId)) :
    EntryOk manager (manager.updateDocIdByDocName ids name).1 documents data.document.id data where
  document_id := rfl
  le_issued := by rw [hid, manager.issued_update]
  fromRecord := htype.imp_right fun hgeneral => .inl hgeneral.1
  fresh _ := by
    rw [hid]
    exact hunissued.stored _ (manager.issued_lt ids name)
  general hgeneral := by
    have hget : manager.getDocIdByDocName ids name = some data.oldId := by
      rcases htype with hinsert | hgeneral
      · simp [hinsert] at hgeneral
      · exact hgeneral.2
    have hlt : data.oldId < data.document.id := by
      rw [hid]
      exact (manager.le_issued ids name _ hget).trans_lt (manager.issued_lt ids name)
    refine ⟨manager.pos_of_get ids name _ hget, hlt, fun name' => ?_⟩
    rw [manager.get_update]
    split
    · exact fun heq => hlt.ne' (hid.trans (some.inj heq))
    · rename_i hne
      exact fun hget' => hne (manager.get_inj ids name' name _ hget' hget)
  rtype hrtype := by
    rcases htype with hinsert | hgeneral
    · simp [hinsert] at hrtype
    · simp [hgeneral.1] at hrtype

theorem entryOk_rtype (documents : DocumentManager) {name : ℕ}
    (hget : manager.getDocIdByDocName ids name = some data.document.id)
    (htype : data.updateType = .rtype) (hold : data.oldId = data.document.id) :
    EntryOk manager ids documents data.document.id data where
  document_id := rfl
  le_issued := manager.le_issued ids name _ hget
  fromRecord := .inr (.inr htype)
  fresh hne := absurd htype hne
  general hgeneral := by simp [htype] at hgeneral
  rtype _ := hold

/-- What is buffered for a document is done, unless it is an insertion: that one is dropped. -/
theorem beforeUpdate_cases (state : IndexState σ τ) (docId : ℕ) :
    ((beforeUpdate state docId).documents = state.documents ∧
      ((state.updateBuffer.lookup docId = none ∧ (beforeUpdate state docId).index = state.index) ∨
        ∃ data, state.updateBuffer.lookup docId = some data ∧ data.updateType = .insert)) ∨
    ∃ data, state.updateBuffer.lookup docId = some data ∧ data.updateType ≠ .insert ∧
      (beforeUpdate state docId).documents = applyEntry state.documents data ∧
      (beforeUpdate state docId).index = state.index ++ callsFor state.documents data := by
  rw [beforeUpdate]
  cases hdata : state.updateBuffer.lookup docId with
  | none => exact .inl ⟨rfl, .inl ⟨rfl, rfl⟩⟩
  | some data =>
    by_cases htype : data.updateType = .insert
    · refine .inl ⟨?_, .inr ⟨data, rfl, htype⟩⟩
      simp only [htype]
      exact state.doUpdateDoc_insert_documents ..
    · refine .inr ⟨data, rfl, htype, ?_, ?_⟩ <;> simp only
      · rw [state.doUpdateDoc_eq_flushEntry data htype, state.flushEntry_documents]
      · rw [state.doUpdateDoc_eq_flushEntry data htype, state.flushEntry_index]

theorem InStep.beforeUpdate {documents' : DocumentManager}
    (h : InStep manager ids b.updateBuffer.lookup b.documents documents') (docId : ℕ) :
    InStep manager ids (Function.update b.updateBuffer.lookup docId none)
      (Worker.beforeUpdate b docId).documents documents' := by
  rcases beforeUpdate_cases b docId with ⟨hdocuments, _⟩ | ⟨data, hdata, _, hdocuments, _⟩
  · rw [hdocuments]
    exact h.mono fun id data hdata => (InStep.update_eq_some.mp hdata).2
  · rw [hdocuments]
    exact h.pop hdata

/-- A record keeps the runs in step. -/
theorem Follows.record (h : Follows worker b.updateBuffer.lookup b m)
    (hstep : RecordStep worker b m doc b' m') : Follows worker b'.updateBuffer.lookup b' m' := by
  cases hstep with
  | passed => exact h
  | passedNew => exact ⟨rfl, h.rtypeValues, h.inStep.update _⟩
  | @fresh data rtypeValues hprepare hid htype =>
    have htype' := htype.imp And.left id
    refine ⟨by rw [flushEntry_eq], by rw [flushEntry_eq], ?_⟩
    rw [lookup_insert_buffer, flushEntry_eq]
    exact (h.inStep.update doc.docid).push (entryOk_fresh h.inStep.unissued hid htype')
      (entryOk_fresh h.inStep.unissued' hid htype')
  | @rtype data rtypeValues hprepare hget hdeleted htype hold =>
    obtain ⟨hids, hvalues, -⟩ :=
      beforeUpdate_frame { b with ids := m.ids, rtypeValues := rtypeValues } data.document.id
    refine ⟨by rw [flushEntry_eq]; exact hids,
      by rw [flushEntry_eq]; exact hvalues, ?_⟩
    rw [lookup_insert_buffer, flushEntry_eq, ← update_idem]
    have hbefore : InStep worker.idManager m.ids _ _ m.documents := InStep.beforeUpdate
      (b := { b with ids := m.ids, rtypeValues := rtypeValues }) h.inStep data.document.id
    exact hbefore.push (entryOk_rtype _ hget htype hold) (entryOk_rtype _ hget htype hold)

/-- A record of outside properties does not meet an entry that cannot be done yet. -/
def KeepsDocument (worker : Worker σ τ) (state : IndexState σ τ) : Worker.BufferEvent → Prop
  | .flush => True
  | .record doc => ∀ oldId docId data,
      (worker.prepareDocIdAndUpdateType state.ids state.documents doc).1 =
        some (.rtype, oldId, docId) →
      state.updateBuffer.lookup docId = some data →
        data.updateType ≠ .insert ∧ (data.updateType = .general →
          Arrives state.documents state.updateBuffer.lookup data.oldId →
            state.documents.stored data.oldId ≠ none)

theorem oldId_ne_of_fresh {data data' : UpdateBufferData} {other : ℕ}
    (htype : data.updateType ≠ .rtype) (hissued : manager.issued ids = data.document.id)
    (hentry : EntryOk manager ids documents other data')
    (hpending : update pending data.document.id (some data) other = some data')
    (hinsert : data'.updateType ≠ .insert) : data'.oldId ≠ data.document.id := by
  rcases hentry.fromRecord with hrecord | hrecord | hrecord
  · exact absurd hrecord hinsert
  · exact ((hentry.general hrecord).2.1.trans_le (hissued ▸ hentry.le_issued)).ne
  · rw [hentry.rtype hrecord]
    rintro rfl
    rw [update_self] at hpending
    obtain rfl := some.inj hpending
    exact htype hrecord

theorem syncedRuns_record (hf : Follows worker b.updateBuffer.lookup b m)
    (h : SyncedRuns b.updateBuffer.lookup b m) (hstep : RecordStep worker b m doc b' m')
    (hkeeps : KeepsDocument worker b (.record doc)) : SyncedRuns b'.updateBuffer.lookup b' m' := by
  cases hstep with
  | passed => exact h
  | passedNew => exact h
  | @fresh data rtypeValues hprepare hid htype =>
    have htype' := htype.imp And.left id
    have hentry := entryOk_fresh hf.inStep.unissued' hid htype'
    have hin := hf.inStep.update doc.docid
    have hpushed := hin.push (entryOk_fresh hf.inStep.unissued hid htype') hentry
    have hnone : b.updateBuffer.lookup data.document.id = none := by
      refine eq_none_iff_forall_ne_some.mpr fun data' hdata' => ?_
      exact (hf.inStep.entries _ data' hdata').le_issued.not_gt
        (hid ▸ worker.idManager.issued_lt m.ids doc.docid)
    have hne : data.updateType ≠ .rtype := by rcases htype with htype | htype <;> simp [htype.1]
    rw [lookup_insert_buffer, flushEntry_eq]
    refine push h hin hnone hentry fun other data' hpending hinsert => ?_
    refine hentry.applyEntry_of_ne (oldId_ne_of_fresh hne ?_ (hpushed.entries other data' hpending)
      hpending hinsert)
    rw [hid, worker.idManager.issued_update]
  | @rtype data rtypeValues hprepare hget hdeleted htype hold =>
    have hin : InStep worker.idManager m.ids
        (update b.updateBuffer.lookup data.document.id none)
        (beforeUpdate { b with ids := m.ids, rtypeValues := rtypeValues }
          data.document.id).documents m.documents :=
      InStep.beforeUpdate (b := { b with ids := m.ids, rtypeValues := rtypeValues }) hf.inStep
        data.document.id
    rw [lookup_insert_buffer, flushEntry_eq, ← update_idem]
    refine push ?_ hin (update_self ..) (entryOk_rtype _ hget htype hold) ?_
    · rcases beforeUpdate_cases { b with ids := m.ids, rtypeValues := rtypeValues }
        data.document.id with ⟨hdocuments, ⟨hnone, hindex⟩ | ⟨data', hdata', hinsert⟩⟩ |
          ⟨data', hdata', hinsert, hdocuments, hindex⟩
      · rw [hdocuments, hindex, update_eq_self_iff.mpr hnone.symm]
        exact h
      · exact absurd hinsert (hkeeps _ _ _ hprepare hdata').1
      · rw [hdocuments, hindex]
        refine pop h hf.inStep hdata' fun hgeneral => ?_
        have hstored := (hkeeps _ _ _ hprepare hdata').2 hgeneral
        by_cases hb : b.documents.stored data'.oldId = none
        · have harrives := mt hstored (not_not.mpr hb)
          rw [iff_stored h hf.inStep, not_not] at harrives
          rw [hb, harrives]
        · exact (stored_eq h hf.inStep hb).symm
    · intro other data' _ _
      rw [applyEntry_rtype htype]

/-- A document that the immediate run shows, and that never arrives in the other one. -/
structure Missing (worker : Worker σ τ) (pending : Pending) (b m : IndexState σ τ) (name id : ℕ) :
    Prop where
  current : worker.idManager.getDocIdByDocName m.ids name = some id
  stored : m.documents.stored id ≠ none
  shown : id ∉ m.documents.delfilter
  notArrives : ¬ Arrives b.documents pending id

/-- The entry of a document that is not stored becomes a change of outside properties. -/
theorem not_arrives_rtype {id : ℕ} (hstored : documents.stored id = none)
    (htype : data.updateType = .rtype) :
    ¬ Arrives documents (update pending id (some data)) id := by
  have hself := update_self id (some data) pending
  intro harrives
  cases harrives with
  | stored h => exact h hstored
  | inserted h htype' =>
    obtain rfl := some.inj (hself.symm.trans h)
    simp [htype] at htype'
  | updated h htype' _ =>
    obtain rfl := some.inj (hself.symm.trans h)
    simp [htype] at htype'

section

variable (hf : Follows worker b.updateBuffer.lookup b m)
    (h : SyncedRuns b.updateBuffer.lookup b m)
include hf h

/-- A buffered entry that cannot be done yet: the immediate run has its document. -/
theorem stored_of_undone {docId : ℕ} (hdata : b.updateBuffer.lookup docId = some data)
    (hbad : data.updateType = .insert ∨ (data.updateType = .general ∧
      Arrives b.documents b.updateBuffer.lookup data.oldId ∧
        b.documents.stored data.oldId = none)) :
    b.documents.stored docId = none ∧ m.documents.stored docId ≠ none := by
  have hstored := stored h docId
  simp only [hdata, elim_some, storedBy] at hstored
  rcases hbad with htype | ⟨htype, harrives, _⟩
  · refine ⟨(hf.inStep.entries docId data hdata).fresh (by simp [htype]), ?_⟩
    simp [hstored, htype]
  · refine ⟨(hf.inStep.entries docId data hdata).fresh (by simp [htype]), ?_⟩
    simpa [hstored, htype] using (iff_stored h hf.inStep).mp harrives

theorem missing_record (hstep : RecordStep worker b m doc b' m')
    (hnot : ¬ KeepsDocument worker b (.record doc)) :
    ∃ name id, Missing worker b'.updateBuffer.lookup b' m' name id := by
  simp only [KeepsDocument, not_forall] at hnot
  obtain ⟨oldId, docId, data, hrtype, hdata, hbad⟩ := hnot
  have hbad : data.updateType = .insert ∨ (data.updateType = .general ∧
      Arrives b.documents b.updateBuffer.lookup data.oldId ∧
        b.documents.stored data.oldId = none) := by
    by_cases hinsert : data.updateType = .insert
    · exact .inl hinsert
    · simpa [hinsert] using hbad
  obtain ⟨hnone, hstored⟩ := stored_of_undone hf h hdata hbad
  cases hstep with
  | passed hprepare => simp [hprepare] at hrtype
  | passedNew hprepare => simp [hprepare] at hrtype
  | fresh hprepare _ htype =>
    have hprepared := some.inj (hprepare.symm.trans hrtype)
    rcases htype with htype | htype <;> simp [htype.1] at hprepared
  | @rtype entry rtypeValues hprepare hget hdeleted htype hold =>
    have hid : entry.document.id = docId :=
      congrArg (fun prepared => prepared.2.2) (some.inj (hprepare.symm.trans hrtype))
    subst hid
    refine ⟨doc.docid, entry.document.id, ?_, ?_, ?_, ?_⟩
    · rw [flushEntry_eq]
      exact hget
    · rw [flushEntry_documents, applyEntry_rtype htype]
      exact hstored
    · rw [flushEntry_documents, applyEntry_rtype htype]
      exact hdeleted
    · rw [lookup_insert_buffer]
      refine not_arrives_rtype ?_ htype
      have hstored {documents documents' : DocumentManager} (heq : documents = documents')
          (hnone' : documents'.stored entry.document.id = none) :
          documents.stored entry.document.id = none := by rw [heq, hnone']
      rcases beforeUpdate_cases { b with ids := m.ids, rtypeValues := rtypeValues }
        entry.document.id with ⟨hdocuments, _⟩ | ⟨data', hdata', hinsert, hdocuments, _⟩
      · exact hstored hdocuments hnone
      · obtain rfl := some.inj (hdata.symm.trans hdata')
        obtain ⟨hgeneral, _, hold'⟩ := hbad.resolve_left hinsert
        rw [applyEntry_general_none hgeneral hold'] at hdocuments
        exact hstored hdocuments hnone

end

variable {rtypeValues rtypeValues' : τ}

/-- An update of a missing document is lost, because it lacks its old document. -/
theorem Missing.update {id : ℕ} (hf : Follows worker b.updateBuffer.lookup b m)
    (h : Missing worker b.updateBuffer.lookup b m doc.docid id)
    (hid : data.document.id = (worker.idManager.updateDocIdByDocName m.ids doc.docid).2)
    (hgeneral : data.updateType = .general) (hold : data.oldId = id) :
    Missing worker (b.updateBuffer.insert data.document.id data).lookup { b with
        ids := (worker.idManager.updateDocIdByDocName m.ids doc.docid).1
        rtypeValues := rtypeValues
        updateBuffer := b.updateBuffer.insert data.document.id data }
      (flushEntry { m with
          ids := (worker.idManager.updateDocIdByDocName m.ids doc.docid).1
          rtypeValues := rtypeValues' } data) doc.docid data.document.id := by
  subst hold
  have hentry := entryOk_fresh hf.inStep.unissued' hid (.inr ⟨hgeneral, h.current⟩)
  have hissued : worker.idManager.issued m.ids < data.document.id :=
    hid ▸ worker.idManager.issued_lt m.ids doc.docid
  have hne : data.oldId ≠ data.document.id :=
    ((worker.idManager.le_issued _ _ _ h.current).trans_lt hissued).ne
  refine ⟨?_, ?_, ?_, ?_⟩
  · rw [flushEntry_eq]
    rw [worker.idManager.get_update, if_pos rfl, hid]
  · rw [flushEntry_documents, hentry.applyEntry_id, storedBy, hgeneral]
    simpa using h.stored
  · rw [flushEntry_documents, hentry.mem_delfilter]
    rintro (hmem | ⟨_, hold, _⟩)
    · exact hf.inStep.unissued'.delfilter _ hissued hmem
    · exact hne hold
  · rw [lookup_insert_buffer]
    have hself := update_self data.document.id (some data) b.updateBuffer.lookup
    intro harrives
    cases harrives with
    | stored hstored => exact hstored (hf.inStep.unissued.stored _ hissued)
    | inserted hdata htype =>
      obtain rfl := some.inj (hself.symm.trans hdata)
      simp [hgeneral] at htype
    | updated hdata _ hold =>
      obtain rfl := some.inj (hself.symm.trans hdata)
      exact h.notArrives ((of_push hf.inStep hissued hold).resolve_left hne)

variable {name id : ℕ}

section

variable (hf : Follows worker b.updateBuffer.lookup b m)
    (h : Missing worker b.updateBuffer.lookup b m name id)
include hf h

/-- The records of other names do not bring a missing document back. -/
theorem Missing.fresh_of_ne
    (hid : data.document.id = (worker.idManager.updateDocIdByDocName m.ids doc.docid).2)
    (htype : data.updateType = .insert ∨ (data.updateType = .general ∧
      worker.idManager.getDocIdByDocName m.ids doc.docid = some data.oldId))
    (hname : name ≠ doc.docid) : Missing worker (b.updateBuffer.insert data.document.id data).lookup
      { b with
        ids := (worker.idManager.updateDocIdByDocName m.ids doc.docid).1
        rtypeValues := rtypeValues
        updateBuffer := b.updateBuffer.insert data.document.id data }
      (flushEntry { m with
          ids := (worker.idManager.updateDocIdByDocName m.ids doc.docid).1
          rtypeValues := rtypeValues' } data) name id := by
  have hentry := entryOk_fresh hf.inStep.unissued' hid htype
  have hissued : worker.idManager.issued m.ids < data.document.id :=
    hid ▸ worker.idManager.issued_lt m.ids doc.docid
  have hne : id ≠ data.document.id :=
    ((worker.idManager.le_issued _ _ _ h.current).trans_lt hissued).ne
  refine ⟨?_, ?_, ?_, ?_⟩
  · rw [flushEntry_eq]
    rw [worker.idManager.get_update, if_neg hname, h.current]
  · rw [flushEntry_documents, hentry.applyEntry_of_ne hne]
    exact h.stored
  · rw [flushEntry_documents, hentry.mem_delfilter]
    rintro (hmem | ⟨hgeneral, rfl, _⟩)
    · exact h.shown hmem
    · obtain ⟨_, hget⟩ := htype.resolve_left fun hinsert => by simp [hgeneral] at hinsert
      exact hname (worker.idManager.get_inj _ _ _ _ h.current hget)
  · rw [lookup_insert_buffer]
    exact fun harrives => h.notArrives
      ((of_push hf.inStep hissued harrives).resolve_left hne)

/-- A change of outside properties does not bring a missing document back. -/
theorem Missing.rtype (htype : data.updateType = .rtype) :
    Missing worker (b.updateBuffer.insert data.document.id data).lookup
      { beforeUpdate { b with ids := m.ids, rtypeValues := rtypeValues }
          data.document.id with
        updateBuffer := b.updateBuffer.insert data.document.id data }
      (flushEntry { m with rtypeValues := rtypeValues' } data) name id := by
  refine ⟨?_, ?_, ?_, ?_⟩
  · rw [flushEntry_eq]
    exact h.current
  · rw [flushEntry_documents, applyEntry_rtype htype]
    exact h.stored
  · rw [flushEntry_documents, applyEntry_rtype htype]
    exact h.shown
  · rw [lookup_insert_buffer]
    refine fun harrives => h.notArrives (of_sub (fun other hother => ?_) ?_ harrives)
    · rcases beforeUpdate_cases { b with ids := m.ids, rtypeValues := rtypeValues }
        data.document.id with ⟨hdocuments, _⟩ | ⟨data', hdata', hinsert, hdocuments, _⟩
      · exact .stored (hdocuments ▸ hother)
      · refine of_applyEntry (hf.inStep.entries _ data' hdata') hdata' ?_
        exact hdocuments ▸ hother
    · intro other data' hdata' hne
      rw [update_apply] at hdata'
      split at hdata'
      · obtain rfl := some.inj hdata'
        exact absurd htype hne
      · exact hdata'

/-- A missing document stays missing, under the id of its last record. -/
theorem Missing.record (hstep : RecordStep worker b m doc b' m') :
    ∃ id', Missing worker b'.updateBuffer.lookup b' m' name id' := by
  cases hstep with
  | passed => exact ⟨id, h⟩
  | passedNew _ hnew =>
    refine ⟨id, ?_, h.stored, h.shown, h.notArrives⟩
    rw [worker.idManager.get_update, if_neg, h.current]
    rintro rfl
    exact h.shown (hnew id h.current)
  | @fresh data rtypeValues hprepare hid htype =>
    by_cases hname : name = doc.docid
    · subst hname
      obtain ⟨hgeneral, hget⟩ := htype.resolve_left fun hinsert =>
        h.shown (hinsert.2 id h.current)
      have hold : data.oldId = id := some.inj (hget.symm.trans h.current)
      exact ⟨data.document.id, h.update hf hid hgeneral hold⟩
    · exact ⟨id, h.fresh_of_ne hf hid (htype.imp And.left (fun h => h)) hname⟩
  | rtype _ _ _ htype _ => exact ⟨id, h.rtype hf htype⟩

end

theorem Follows.pop (h : Follows worker pending b m) {id : ℕ} (hdata : pending id = some data) :
    Follows worker (update pending id none) (b.flushEntry data) m := by
  refine ⟨?_, ?_, ?_⟩
  · rw [flushEntry_eq]
    exact h.ids
  · rw [flushEntry_eq]
    exact h.rtypeValues
  · rw [flushEntry_documents]
    exact h.inStep.pop hdata

theorem Follows.flush (h : Follows worker b.updateBuffer.lookup b m) :
    Follows worker b.flushUpdateBuffer.updateBuffer.lookup b.flushUpdateBuffer m := by
  refine flush_induction (P := fun pending state => Follows worker pending state m)
    ?_ ?_ h
  · intro pending state id data hdata _ h
    exact h.pop hdata
  · exact fun pending state buffer h => ⟨h.ids, h.rtypeValues, h.inStep⟩

/-- The entry with the smallest id finds its old document stored. -/
theorem syncedRuns_flush (hf : Follows worker b.updateBuffer.lookup b m)
    (h : SyncedRuns b.updateBuffer.lookup b m) :
    SyncedRuns b.flushUpdateBuffer.updateBuffer.lookup b.flushUpdateBuffer m := by
  have hboth := flush_induction
    (P := fun pending state => Follows worker pending state m ∧ SyncedRuns pending state m)
    ?_ ?_ ⟨hf, h⟩
  · exact hboth.2
  · rintro pending state id data hdata hbelow ⟨hf, h⟩
    refine ⟨hf.pop hdata, ?_⟩
    rw [SyncedRuns, flushEntry_documents, flushEntry_index]
    refine pop h hf.inStep hdata fun hgeneral => ?_
    have hlt := ((hf.inStep.entries id data hdata).general hgeneral).2.1
    rw [stored h data.oldId, hbelow _ hlt, elim_none]
  · exact fun pending state buffer h => ⟨⟨h.1.ids, h.1.rtypeValues, h.1.inStep⟩, h.2⟩

theorem Missing.flush (hf : Follows worker b.updateBuffer.lookup b m)
    (h : Missing worker b.updateBuffer.lookup b m name id) :
    Missing worker b.flushUpdateBuffer.updateBuffer.lookup b.flushUpdateBuffer m name id := by
  have hboth := flush_induction
    (P := fun pending state => Follows worker pending state m ∧
      Missing worker pending state m name id) ?_ ?_ ⟨hf, h⟩
  · exact hboth.2
  · rintro pending state id' data hdata _ ⟨hf, h⟩
    refine ⟨hf.pop hdata, h.current, h.stored, h.shown, ?_⟩
    rw [flushEntry_documents]
    exact fun harrives => h.notArrives
      (of_pop (hf.inStep.entries id' data hdata) hdata harrives)
  · exact fun pending state buffer h => ⟨⟨h.1.ids, h.1.rtypeValues, h.1.inStep⟩, h.2.current,
      h.2.stored, h.2.shown, h.2.notArrives⟩

end Step

/-- The same documents are shown, with the same properties, and each got the same calls. -/
structure IndexedAlike (b m : IndexState σ τ) : Prop where
  documents : ∀ id, b.documents.getDocument id false = m.documents.getDocument id false
  rtypeValues : b.rtypeValues = m.rtypeValues
  calls : ∀ id, m.documents.getDocument id false ≠ none → callsOf id b.index = callsOf id m.index

/-- A state with nothing in the buffer, whose documents got their ids from the id manager. -/
structure Settled (state : IndexState σ τ) : Prop where
  updateBuffer : state.updateBuffer = ∅
  unissued : Unissued worker.idManager state.ids state.documents

section Run

variable {worker} {b m : IndexState σ τ}

theorem Settled.follows (h : Settled worker b) : Follows worker b.updateBuffer.lookup b b := by
  refine ⟨rfl, rfl, ?_, h.unissued, h.unissued, fun _ _ _ => Iff.rfl, fun _ _ => Iff.rfl⟩
  simp [h.updateBuffer]

theorem Settled.syncedRuns (h : Settled worker b) : SyncedRuns b.updateBuffer.lookup b b := by
  refine ⟨fun _ => ?_, fun _ => ?_, fun _ => ?_⟩ <;> simp [h.updateBuffer]

theorem indexedAlike_of_synced (hf : Follows worker b.updateBuffer.lookup b m)
    (h : SyncedRuns b.updateBuffer.lookup b m) : IndexedAlike b.flushUpdateBuffer m := by
  have hflushed := syncedRuns_flush hf h
  have hempty : b.flushUpdateBuffer.updateBuffer.lookup = fun _ => none := by
    ext1 id
    rw [flushUpdateBuffer, Finmap.lookup_empty]
  obtain ⟨hstored, hdelfilter, hcalls⟩ := of_none hflushed
  exact ⟨getDocument_congr hstored hdelfilter, hf.flush.rtypeValues,
    fun id _ => hcalls id⟩

theorem not_indexedAlike_of_missing {name id : ℕ} (hf : Follows worker b.updateBuffer.lookup b m)
    (h : Missing worker b.updateBuffer.lookup b m name id) :
    ¬ IndexedAlike b.flushUpdateBuffer m := by
  intro halike
  have hdeleted : m.documents.isDeleted id = false := by
    rw [← Bool.not_eq_true, isDeleted_iff (worker.idManager.pos_of_get _ _ _ h.current)]
    exact h.shown
  have hid := halike.documents id
  rw [getDocument_false, getDocument_false, hdeleted] at hid
  have hnone : b.flushUpdateBuffer.documents.stored id = none := by
    by_contra hstored
    exact (h.flush hf).notArrives (.stored hstored)
  rw [hnone, ite_self] at hid
  exact h.stored hid.symm

variable (events : List Worker.BufferEvent)

/-- A missing document is missing in the end. -/
theorem not_indexedAlike_run {name id : ℕ} (hf : Follows worker b.updateBuffer.lookup b m)
    (h : Missing worker b.updateBuffer.lookup b m name id) :
    ¬ IndexedAlike (worker.runBuffered b events) (worker.runImmediately m events) := by
  induction events generalizing b m id with
  | nil => exact not_indexedAlike_of_missing hf h
  | cons event events ih =>
    cases event with
    | flush => exact ih hf.flush (h.flush hf)
    | record doc =>
      obtain ⟨b', hstep, hb'⟩ := exists_recordStep worker hf doc
      obtain ⟨id', h'⟩ := h.record hf hstep
      have hf' := hf.record hstep
      rcases hb' with hb' | hb'
      · exact ih (b := worker.indexDoc false b doc) (hb' ▸ hf') (hb' ▸ h')
      · exact ih (b := worker.indexDoc false b doc) (hb' ▸ hf'.flush) (hb' ▸ h'.flush hf')

theorem indexedAlike_run_iff (hf : Follows worker b.updateBuffer.lookup b m)
    (h : SyncedRuns b.updateBuffer.lookup b m) :
    IndexedAlike (worker.runBuffered b events) (worker.runImmediately m events) ↔
      StepsMeet (fun s event s' => s' = worker.bufferStep s event) (KeepsDocument worker) b
        events := by
  induction events generalizing b m with
  | nil => exact iff_of_true (indexedAlike_of_synced hf h) (stepsMeet_nil _)
  | cons event events ih =>
    rw [stepsMeet_cons_iff]
    cases event with
    | flush =>
      have hkeeps : KeepsDocument worker b .flush := trivial
      rw [and_iff_right hkeeps]
      exact ih hf.flush (syncedRuns_flush hf h)
    | record doc =>
      obtain ⟨b', hstep, hb'⟩ := exists_recordStep worker hf doc
      have hf' := hf.record hstep
      by_cases hkeeps : KeepsDocument worker b (.record doc)
      · rw [and_iff_right hkeeps]
        have h' := syncedRuns_record hf h hstep hkeeps
        rcases hb' with hb' | hb'
        · exact ih (b := worker.indexDoc false b doc) (hb' ▸ hf') (hb' ▸ h')
        · exact ih (b := worker.indexDoc false b doc) (hb' ▸ hf'.flush)
            (hb' ▸ syncedRuns_flush hf' h')
      · refine iff_of_false ?_ fun hmeet => hkeeps hmeet.1
        obtain ⟨name, id, h'⟩ := missing_record hf h hstep hkeeps
        rcases hb' with hb' | hb'
        · exact not_indexedAlike_run events (b := worker.indexDoc false b doc) (hb' ▸ hf')
            (hb' ▸ h')
        · exact not_indexedAlike_run events (b := worker.indexDoc false b doc) (hb' ▸ hf'.flush)
            (hb' ▸ h'.flush hf')

/-- Records run through the buffer leave what they leave one by one exactly if no change of
outside properties meets an entry that cannot be done yet. -/
theorem indexedAlike_iff_keepsDocuments {state : IndexState σ τ} (h : Settled worker state)
    (events : List Worker.BufferEvent) :
    IndexedAlike (worker.runBuffered state events) (worker.runImmediately state events) ↔
      StepsMeet (fun s event s' => s' = worker.bufferStep s event) (KeepsDocument worker) state
        events :=
  indexedAlike_run_iff events h.follows h.syncedRuns

end Run

/-- Names and their ids, counted from one. -/
structure NameTable where
  ids : Table ℕ ℕ := ∅
  lastId : ℕ := 0
  pos : ∀ name id, ids.lookup name = some id → 0 < id := by simp
  le_lastId : ∀ name id, ids.lookup name = some id → id ≤ lastId := by simp
  inj : ∀ name name' id, ids.lookup name = some id → ids.lookup name' = some id →
    name = name' := by simp

def NameTable.handOut (table : NameTable) (name : ℕ) : NameTable where
  ids := table.ids.insert name (table.lastId + 1)
  lastId := table.lastId + 1
  pos name' id h := by
    rw [Table.lookup_insert_eq] at h
    split at h
    · exact some.inj h ▸ Nat.succ_pos _
    · exact table.pos name' id h
  le_lastId name' id h := by
    rw [Table.lookup_insert_eq] at h
    split at h
    · exact (some.inj h).ge
    · exact (table.le_lastId name' id h).trans (Nat.le_succ _)
  inj name₁ name₂ id h₁ h₂ := by
    rw [Table.lookup_insert_eq] at h₁ h₂
    split at h₁ <;> split at h₂
    · rename_i heq₁ heq₂
      rw [heq₁, heq₂]
    · have hle := table.le_lastId _ _ h₂
      have hid := some.inj h₁
      omega
    · have hle := table.le_lastId _ _ h₁
      have hid := some.inj h₂
      omega
    · exact table.inj name₁ name₂ id h₁ h₂

def countedIds : IdManager NameTable where
  getDocIdByDocName table name := table.ids.lookup name
  updateDocIdByDocName table name := (table.handOut name, table.lastId + 1)
  issued := NameTable.lastId
  pos_of_get table := table.pos
  le_issued table := table.le_lastId
  get_inj table := table.inj
  issued_lt _ _ := Nat.lt_succ_self _
  issued_update _ _ := rfl
  get_update _ _ _ := Table.lookup_insert_eq ..

/-- Titles are searched, prices are kept outside the documents. -/
def shopWorker : Worker NameTable (Table ℕ Bytes) where
  idManager := countedIds
  findIndexProperty name :=
    if name = "Title" then some ⟨false, true, true, false, true⟩
    else if name = "Price" then some ⟨false, true, false, true, false⟩
    else none
  prepareDocument doc _ docId _ prices :=
    let title := doc.fields.find? fun field => field.1 == "Title"
    let price := doc.fields.find? fun field => field.1 == "Price"
    ({ properties := title.elim ∅ fun field => (∅ : Common.Document).insert field.1 field.2
       oldRtypeDoc := ∅
       timestamp := doc.timestamp }, price.elim prices fun field => prices.insert docId field.2)

def emptyShop : IndexState NameTable (Table ℕ Bytes) where
  ids := {}
  documents := {}
  rtypeValues := ∅

theorem settled_emptyShop : Settled shopWorker emptyShop := by
  refine ⟨rfl, fun id _ => ?_, fun id _ => by simp [emptyShop]⟩
  rw [DocumentManager.stored_eq]
  exact Finmap.lookup_empty id

def titleRecord : ScdDoc := ⟨7, [("Title", [97])], .update, 0⟩
def priceRecord : ScdDoc := ⟨7, [("Price", [53])], .update, 0⟩

theorem indexedAlike_iff_keepsDocuments_title :
    IndexedAlike (shopWorker.runBuffered emptyShop [.record titleRecord, .record titleRecord])
        (shopWorker.runImmediately emptyShop [.record titleRecord, .record titleRecord]) ↔
      StepsMeet (fun s event s' => s' = shopWorker.bufferStep s event) (KeepsDocument shopWorker)
        emptyShop [.record titleRecord, .record titleRecord] :=
  indexedAlike_iff_keepsDocuments settled_emptyShop [.record titleRecord, .record titleRecord]

/-- The new document is lost when its price comes. -/
theorem not_indexedAlike_priceRecord :
    ¬ ∀ (worker : Worker NameTable (Table ℕ Bytes)) (state : IndexState NameTable (Table ℕ Bytes))
        (events : List Worker.BufferEvent), Settled worker state →
      IndexedAlike (worker.runBuffered state events) (worker.runImmediately state events) := by
  intro hall
  have hdocuments := (hall shopWorker emptyShop [.record titleRecord, .record priceRecord]
    settled_emptyShop).documents 1
  have hproperty := congrArg (fun document => document.map Document.id) hdocuments
  revert hproperty
  decide

end AdDelivery.IndexWorker
