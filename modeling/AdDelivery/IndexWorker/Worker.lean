import AdDelivery.IndexWorker.DocumentManager

/-!
# The index worker

A record gets its document id from the id manager, and becomes an insertion, an update under a new
id, or a change of properties that are kept outside the document. The worker does this at once, or
puts it into its update buffer, from where it is done later in the order of the document ids.
-/

namespace AdDelivery.IndexWorker

open Common (Bytes ScdType copyProperties)

inductive UpdateType
  | unknown
  | insert
  | general
  | replace
  | rtype
  deriving DecidableEq

/-- What the worker asks about a property of the schema. -/
structure PropertyConfig where
  isRTypeString : Bool
  isIndex : Bool
  isAnalyzed : Bool
  isFilter : Bool
  isString : Bool

/-- A record, with the type and the time of its file. -/
structure ScdDoc where
  docid : ℕ
  fields : List (String × Bytes)
  scdType : ScdType
  timestamp : ℤ

/-- What `prepareDocument_` makes of a record. -/
structure PreparedDocument where
  properties : Common.Document
  oldRtypeDoc : Common.Document
  timestamp : ℤ

/-- What the index is told. -/
inductive IndexCall
  | insertDocument (document : Document) (timestamp : ℤ)
  | updateDocument (oldDoc : Document) (oldRtypeDoc : Common.Document) (document : Document)
      (updateType : UpdateType) (timestamp : ℤ)

/-- The id manager names the current document id of a DOCID, and hands out ids in order. -/
structure IdManager (σ : Type*) where
  getDocIdByDocName : σ → ℕ → Option ℕ
  updateDocIdByDocName : σ → ℕ → σ × ℕ
  /-- The last id that was handed out. -/
  issued : σ → ℕ
  pos_of_get : ∀ ids name id, getDocIdByDocName ids name = some id → 0 < id
  le_issued : ∀ ids name id, getDocIdByDocName ids name = some id → id ≤ issued ids
  get_inj : ∀ ids name name' id, getDocIdByDocName ids name = some id →
    getDocIdByDocName ids name' = some id → name = name'
  issued_lt : ∀ ids name, issued ids < (updateDocIdByDocName ids name).2
  issued_update : ∀ ids name,
    issued (updateDocIdByDocName ids name).1 = (updateDocIdByDocName ids name).2
  get_update : ∀ ids name name', getDocIdByDocName (updateDocIdByDocName ids name).1 name' =
    if name' = name then some (updateDocIdByDocName ids name).2
    else getDocIdByDocName ids name'

/-- The surroundings of the worker: the id manager, the schema, and how a record becomes a
document. That reads and changes the values `τ` of the properties outside the documents. -/
structure Worker (σ τ : Type*) where
  idManager : IdManager σ
  findIndexProperty : String → Option PropertyConfig
  prepareDocument : ScdDoc → ℕ → ℕ → UpdateType → τ → PreparedDocument × τ

structure UpdateBufferData where
  updateType : UpdateType := .unknown
  document : Document := {}
  oldId : ℕ := 0
  timestamp : ℤ := 0
  oldRtypeDoc : Common.Document := ∅

def updateBufferCapacity : ℕ := 8192

structure IndexState (σ τ : Type*) where
  ids : σ
  documents : DocumentManager
  rtypeValues : τ
  updateBuffer : Table ℕ UpdateBufferData := ∅
  index : List IndexCall := []

variable {σ τ : Type*}

def iequals (a b : String) : Bool :=
  a.toList.map Char.toLower == b.toList.map Char.toLower

namespace Worker

variable (worker : Worker σ τ)

/-- Whether a field makes an update a general one. -/
def isGeneralField (field : String × Bytes) : Bool :=
  if iequals field.1 "DOCID" || field.2.isEmpty then false
  else
    match worker.findIndexProperty field.1 with
    | none => false
    | some config =>
      if config.isRTypeString then false
      else if config.isIndex then config.isAnalyzed || !(config.isFilter && !config.isString)
      else true

/-- The type, the old id and the id of an update. -/
def checkUpdateType (ids : σ) (doc : ScdDoc) : UpdateType × ℕ × ℕ × σ :=
  match worker.idManager.getDocIdByDocName ids doc.docid with
  | none =>
    let (ids, docId) := worker.idManager.updateDocIdByDocName ids doc.docid
    (.insert, 0, docId, ids)
  | some oldId =>
    if doc.scdType = .rtype then (.rtype, oldId, oldId, ids)
    else if doc.fields.any worker.isGeneralField then
      let (ids, docId) := worker.idManager.updateDocIdByDocName ids doc.docid
      (.general, oldId, docId, ids)
    else (.rtype, oldId, oldId, ids)

/-- The id of an inserted document, unless its DOCID has a document that is not removed. -/
def createInsertDocId (ids : σ) (documents : DocumentManager) (docid : ℕ) : Option ℕ × σ :=
  if (worker.idManager.getDocIdByDocName ids docid).any fun docId => !documents.isDeleted docId
  then (none, ids)
  else
    let (ids, docId) := worker.idManager.updateDocIdByDocName ids docid
    if docId ≤ documents.maxDocId then (none, ids) else (some docId, ids)

/-- The type, the old id and the id of a record, unless it is to be passed over. -/
def prepareDocIdAndUpdateType (ids : σ) (documents : DocumentManager) (doc : ScdDoc) :
    Option (UpdateType × ℕ × ℕ) × σ :=
  if doc.scdType ≠ .insert then
    let (updateType, oldId, docId, ids) := worker.checkUpdateType ids doc
    if updateType = .insert ∧ doc.scdType = .rtype then (none, ids)
    else if updateType = .rtype ∧ documents.isDeleted oldId then (none, ids)
    else (some (updateType, oldId, docId), ids)
  else
    let (docId, ids) := worker.createInsertDocId ids documents doc.docid
    (docId.map fun docId => (.insert, 0, docId), ids)

end Worker

namespace IndexState

variable (state : IndexState σ τ)

/-- The document on top of the old one, unless that is not stored. -/
def mergeDocument (oldId : ℕ) (document : Document) : Option Document :=
  (state.documents.getDocument oldId true).map fun oldDoc =>
    { id := document.id
      properties := copyProperties oldDoc.properties document.properties }

def indexed (call : IndexCall) : IndexState σ τ := { state with index := state.index ++ [call] }

def doInsertDoc (document : Document) (timestamp : ℤ) : IndexState σ τ :=
  { state with documents := state.documents.insertDocument document }.indexed
    (.insertDocument document timestamp)

def doUpdateDoc (oldId : ℕ) (document : Document) (oldRtypeDoc : Common.Document)
    (updateType : UpdateType) (timestamp : ℤ) : IndexState σ τ :=
  let oldDoc := (state.documents.getDocument oldId true).getD {}
  match updateType with
  | .general =>
    match state.mergeDocument oldId document with
    | none => state
    | some document =>
      { state with
        documents := (state.documents.removeDocument oldId).insertDocument document }.indexed
          (.updateDocument oldDoc oldRtypeDoc document updateType timestamp)
  | .replace =>
    match state.mergeDocument oldId document with
    | none => state.indexed (.updateDocument oldDoc oldRtypeDoc document updateType timestamp)
    | some document =>
      { state with documents := state.documents.updateDocument document }.indexed
        (.updateDocument oldDoc oldRtypeDoc document updateType timestamp)
  | _ => state.indexed (.updateDocument oldDoc oldRtypeDoc document updateType timestamp)

/-- What a flush does with an entry of the buffer. -/
def flushEntry (data : UpdateBufferData) : IndexState σ τ :=
  let oldDoc := (state.documents.getDocument data.oldId true).getD {}
  match data.updateType with
  | .insert =>
    { state with documents := state.documents.insertDocument data.document }.indexed
      (.insertDocument data.document data.timestamp)
  | .general =>
    match state.mergeDocument data.oldId data.document with
    | none => state
    | some document =>
      { state with
        documents := (state.documents.removeDocument data.oldId).insertDocument document }.indexed
          (.updateDocument oldDoc data.oldRtypeDoc document data.updateType data.timestamp)
  | .replace =>
    match state.mergeDocument data.oldId data.document with
    | none =>
      state.indexed
        (.updateDocument oldDoc data.oldRtypeDoc data.document data.updateType data.timestamp)
    | some document =>
      { state with documents := state.documents.updateDocument document }.indexed
        (.updateDocument oldDoc data.oldRtypeDoc document data.updateType data.timestamp)
  | _ =>
    state.indexed
      (.updateDocument oldDoc data.oldRtypeDoc data.document data.updateType data.timestamp)

def flushUpdateBuffer : IndexState σ τ :=
  { state.updateBuffer.inOrder.foldl (fun state entry => state.flushEntry entry.2) state with
    updateBuffer := ∅ }

def flushIfFull : IndexState σ τ :=
  if state.updateBuffer.keys.card ≥ updateBufferCapacity then state.flushUpdateBuffer else state

def insertDoc (document : Document) (timestamp : ℤ) (immediately : Bool) : IndexState σ τ :=
  if immediately then state.doInsertDoc document timestamp
  else
    -- a new entry starts with the default data
    let data := (state.updateBuffer.lookup document.id).getD {}
    { state with
      updateBuffer := state.updateBuffer.insert document.id
        { data with
          updateType := .insert
          document := document
          oldId := 0
          timestamp := timestamp } }.flushIfFull

def updateDoc (oldId : ℕ) (document : Document) (oldRtypeDoc : Common.Document) (timestamp : ℤ)
    (updateType : UpdateType) (immediately : Bool) : IndexState σ τ :=
  if updateType = .insert then state.insertDoc document timestamp immediately
  else if immediately then state.doUpdateDoc oldId document oldRtypeDoc updateType timestamp
  else
    -- what is buffered for the document is done before it is overwritten
    let state :=
      match state.updateBuffer.lookup document.id with
      | none => state
      | some data =>
        state.doUpdateDoc data.oldId data.document data.oldRtypeDoc data.updateType data.timestamp
    { state with
      updateBuffer := state.updateBuffer.insert document.id
        { updateType := updateType
          document := document
          oldId := oldId
          timestamp := timestamp
          oldRtypeDoc := oldRtypeDoc } }.flushIfFull

end IndexState

namespace Worker

variable (worker : Worker σ τ)

/-- What `insertOrUpdateSCD_` and the index threads do with a record. -/
def indexDoc (immediately : Bool) (state : IndexState σ τ) (doc : ScdDoc) : IndexState σ τ :=
  match worker.prepareDocIdAndUpdateType state.ids state.documents doc with
  | (none, ids) => { state with ids := ids }
  | (some (updateType, oldId, docId), ids) =>
    let (prepared, rtypeValues) :=
      worker.prepareDocument doc oldId docId updateType state.rtypeValues
    let document := { id := docId, properties := prepared.properties }
    let state := { state with ids := ids, rtypeValues := rtypeValues }
    if doc.scdType = .insert ∨ oldId = 0 then
      state.insertDoc document prepared.timestamp immediately
    else
      state.updateDoc oldId document prepared.oldRtypeDoc prepared.timestamp updateType immediately

/-- A record, or a flush of the buffer. -/
inductive BufferEvent
  | record (doc : ScdDoc)
  | flush

def BufferEvent.record? : BufferEvent → Option ScdDoc
  | record doc => some doc
  | flush => none

variable (state : IndexState σ τ)

def bufferStep : BufferEvent → IndexState σ τ
  | .record doc => worker.indexDoc false state doc
  | .flush => state.flushUpdateBuffer

/-- All records through the buffer, which is flushed in the end. -/
def runBuffered (events : List BufferEvent) : IndexState σ τ :=
  (events.foldl worker.bufferStep state).flushUpdateBuffer

/-- The same records one by one. -/
def runImmediately (events : List BufferEvent) : IndexState σ τ :=
  (events.filterMap BufferEvent.record?).foldl (worker.indexDoc true) state

end Worker

end AdDelivery.IndexWorker
