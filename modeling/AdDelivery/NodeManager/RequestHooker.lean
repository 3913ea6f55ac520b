import AdDelivery.NodeManager.RequestLog

/-!
# The request hooker

A worker hooks a write request, prepares it in the request log, and reports to the node manager
when its own part is done. The node manager calls back when the other replicas are done too, and
then the request is logged or rolled back. A forced exit ends the process: the functions that may
exit return `none`.
-/

namespace AdDelivery.NodeManager

inductive ReqLogType
  | none
  | noAdditionDataReq
  | noAdditionDataNeedBackupReq
  | noAdditionDataNoRollback
  | cronJob
  | callback
  | withTimestamp
  | index
  | createOrUpdateDoc
  | product
  | updateConfig
  | recommendIndex
  | rebuildFromSCD
  deriving DecidableEq

def ReqLogType.code : ReqLogType → UInt32
  | .none => 0
  | .noAdditionDataReq => 1
  | .noAdditionDataNeedBackupReq => 2
  | .noAdditionDataNoRollback => 3
  | .cronJob => 4
  | .callback => 5
  | .withTimestamp => 6
  | .index => 7
  | .createOrUpdateDoc => 8
  | .product => 9
  | .updateConfig => 10
  | .recommendIndex => 11
  | .rebuildFromSCD => 12

/-- Where a request comes from: the queue, another shard, the primary worker or the log. -/
inductive CallType
  | fromDistribute
  | fromOtherShard
  | fromPrimaryWorker
  | fromLog
  deriving DecidableEq

inductive ChainStatus
  | noChain
  | chainBegin
  | chainMiddle
  | chainEnd
  | chainStop
  | unknown
  deriving DecidableEq

def ChainStatus.code : ChainStatus → ℕ
  | .noChain => 0
  | .chainBegin => 1
  | .chainMiddle => 2
  | .chainEnd => 3
  | .chainStop => 4
  | .unknown => 5

/-- The states of a node that takes part in writing. -/
inductive NodeStateType
  | started
  | running
  | waitReplicaFinishProcess
  | waitReplicaFinishLog
  | waitReplicaAbort
  | waitPrimary
  | waitPrimaryAbort
  deriving DecidableEq

/-- A request as the handlers see it. -/
structure ReqData extends CommonReqData where
  reqJsonData : Bytes := []

/-- The serialisation of a request. It has fields of a fixed size, so it is not empty. -/
structure ReqCodec where
  packReqLogData : ReqData → Bytes
  unpackReqLogData : Bytes → Option ReqData
  pack_ne_nil : ∀ reqdata, packReqLogData reqdata ≠ []

/-- What the surroundings answer during a call: whether the flag of the writing node can be set,
the last backup after a new one (if that works), whether the rollback flag and the log can be
written, whether this node is the primary, whether a replica may abort, and the log directory
after a rollback (if that works). -/
structure Answers where
  setWrittingNodeData : Bool := true
  backup : Option UInt32 := some 0
  rollbackFile : Bool := true
  dataGood : Bool := true
  headGood : Bool := true
  isPrimary : Bool := true
  canAbortRequest : Bool := true
  rollback : Option ReqLogDir := some {}

/-- How far the worker is with the request: it has none, a handler processes it, or its own part
is over and the node manager has to call back. -/
inductive HookPhase
  | idle
  | processing
  | waiting
  deriving DecidableEq

/-- The hooker with the log manager, the rollback flag and the state of its node. The last four
fields are a record of the run: the requests that were prepared, logged and finished (with
success or not), and whether an assertion failed. -/
structure RequestHooker where
  currentReq : Bytes := []
  type : ReqLogType := .none
  hookType : Option CallType := none
  chainStatus : ChainStatus := .noChain
  lastBackupId : UInt32 := 0
  reqLogMgr : ReqLogMgr := {}
  reqLogDir : ReqLogDir := {}
  rollbackFlag : Option UInt32 := none
  nodeState : NodeStateType := .started
  phase : HookPhase := .idle
  prepared : List CommonReqData := []
  logged : List CommonReqData := []
  finished : List (CommonReqData × Bool) := []
  assertFailed : Bool := false

namespace RequestHooker

variable (codec : ReqCodec) (answers : Answers) (hooker : RequestHooker)

def isHooked : Bool := hooker.hookType.isSome && !hooker.currentReq.isEmpty

/-- The request is one that a primary worker has to prepare. -/
def isFromMaster : Bool :=
  hooker.hookType = some .fromDistribute ∨ hooker.hookType = some .fromOtherShard

/-- The chain has not gone beyond its begin. -/
def isChainStart : Bool := hooker.chainStatus = .noChain ∨ hooker.chainStatus = .chainBegin

def setHook (calltype : CallType) (additionData : Bytes) : RequestHooker :=
  { hooker with hookType := some calltype, currentReq := additionData }

/-- Dropping the hook by force, prepared or not. -/
def clearHook : RequestHooker :=
  { hooker with currentReq := [], hookType := none, chainStatus := .noChain }

/-- A chain only goes forward; an older status is refused. -/
def setChainStatus (status : ChainStatus) : RequestHooker :=
  if !hooker.isHooked then hooker
  else if status.code < hooker.chainStatus.code then hooker
  else { hooker with chainStatus := status }

def updateReqLogData (updatedPreparedata : ReqData) : RequestHooker :=
  { hooker with currentReq := codec.packReqLogData updatedPreparedata }

/-- A flag that is already there means that the last rollback is not finished. -/
def setRollbackFlag (incId : UInt32) : Option (Bool × RequestHooker) :=
  if hooker.rollbackFlag.isSome then none
  else if answers.rollbackFile then
    some (true, { hooker with rollbackFlag := some incId })
  else some (false, hooker)

/-- Without a flag there is nothing to roll back. -/
def rollbackLastFail : Option RequestHooker :=
  if hooker.rollbackFlag.isNone then some hooker
  else
    match answers.rollback with
    | none => none
    | some dir =>
      match ReqLogMgr.init dir with
      | (.ok _, reqLogMgr, reqLogDir) =>
        some { hooker with reqLogMgr, reqLogDir, rollbackFlag := none }
      | (.error _, _) => none

def processLocalBegin : RequestHooker :=
  if !hooker.isHooked then hooker
  else if hooker.hookType = some .fromLog ∨ hooker.hookType = some .fromPrimaryWorker then hooker
  else if !hooker.isChainStart then hooker
  else { hooker with nodeState := .running }

/-- A request that ends before it was prepared is ignored, on a primary. -/
def processFinishedBeforePrepare (finishsuccess : Bool) : Option (Bool × RequestHooker) :=
  if !hooker.isHooked then some (false, hooker)
  else if !finishsuccess && hooker.hookType = some .fromLog then none
  else if hooker.reqLogMgr.preparedReq.isNone then
    if hooker.isFromMaster then some (true, { hooker.clearHook with nodeState := .started })
    else none
  else some (false, hooker)

variable (type : ReqLogType) (preparedReq : ReqData)

/-- The data of the request, from the hook or from what the primary packed. -/
def readPreparedReq : Option ReqData :=
  if hooker.isFromMaster && type ≠ .callback then
    if hooker.isChainStart then some { preparedReq with reqJsonData := hooker.currentReq }
    else some preparedReq
  else
    (codec.unpackReqLogData hooker.currentReq).filter fun reqdata => type.code = reqdata.reqtype

/-- The request gets its place in the log. -/
def prepareReqLog (preparedReq : ReqData) : Option (Bool × ReqData × RequestHooker) :=
  if !hooker.isChainStart then some (true, preparedReq, hooker)
  else if hooker.isFromMaster && !answers.setWrittingNodeData then
    (hooker.processFinishedBeforePrepare false).map fun result => (false, preparedReq, result.2)
  else
    match hooker.reqLogMgr.prepareReqLog preparedReq.toCommonReqData hooker.isFromMaster with
    | (true, reqdata, reqLogMgr) =>
      some (true, { preparedReq with toCommonReqData := reqdata },
        { hooker with reqLogMgr, prepared := hooker.prepared ++ [reqdata] })
    | (false, _) =>
      if !hooker.isFromMaster then none
      else
        (hooker.processFinishedBeforePrepare false).map fun result => (false, preparedReq, result.2)

/-- The prepared data of a primary is what the replicas will get. -/
def packPreparedReq : RequestHooker :=
  if !hooker.isFromMaster then hooker
  else if (type = .noAdditionDataNeedBackupReq ∨ type = .noAdditionDataReq ∨
      type = .noAdditionDataNoRollback) ∧ !hooker.isChainStart then hooker
  else { hooker with currentReq := codec.packReqLogData preparedReq }

/-- A backup now and then, and the flag for a rollback. -/
def prepareRollback : Option (Bool × RequestHooker) :=
  let needBackup := preparedReq.incId > hooker.lastBackupId + 1 ∧
    (preparedReq.incId - hooker.lastBackupId) % 250000 = 0
  if needBackup ∧ answers.backup.isNone then
    if hooker.isFromMaster then some (false, hooker) else none
  else
    let lastBackupId := if needBackup then answers.backup.getD 0 else hooker.lastBackupId
    let hooker := { hooker with lastBackupId }
    if type = .noAdditionDataNoRollback then some (true, hooker)
    else
      match hooker.setRollbackFlag answers preparedReq.incId with
      | none => none
      | some (true, hooker) => some (true, hooker)
      | some (false, hooker) => if hooker.isFromMaster then some (false, hooker) else none

def prepare : Option (Bool × RequestHooker) :=
  if !hooker.isHooked then some (true, hooker)
  else if hooker.chainStatus = .chainStop then some (false, hooker)
  else
    match hooker.readPreparedReq codec type preparedReq with
    | none => none
    | some preparedReq =>
      let preparedReq := { preparedReq with reqtype := type.code }
      match { hooker with type }.prepareReqLog answers preparedReq with
      | none => none
      | some (false, _, hooker) => some (false, hooker)
      | some (true, preparedReq, hooker) =>
        let hooker := hooker.packPreparedReq codec type preparedReq
        if !hooker.isChainStart then some (true, hooker)
        else hooker.prepareRollback answers type preparedReq

/-- An assertion on the chain that a debug build makes; a release build goes on. -/
def assertChain : RequestHooker :=
  { hooker with
    assertFailed := hooker.assertFailed ||
      !(hooker.chainStatus = .chainEnd ∨ hooker.chainStatus = .noChain) }

/-- The prepared request leaves the log manager and the hook. -/
def dropPrepared (success : Bool) : RequestHooker :=
  { hooker with
    reqLogMgr := hooker.reqLogMgr.delPreparedReqLog
    finished := hooker.finished ++
      (hooker.reqLogMgr.preparedReq.map fun reqdata => (reqdata, success)).toList }.clearHook

def finish (success : Bool) : Option RequestHooker :=
  let hooker := hooker.assertChain
  if hooker.hookType = some .fromLog ∧ !success then none
  else if success then
    let hooker' := { hooker.dropPrepared true with rollbackFlag := none }
    if hooker.type = .noAdditionDataNeedBackupReq then
      answers.backup.map fun lastBackupId => { hooker' with lastBackupId }
    else some hooker'
  else (hooker.dropPrepared false).rollbackLastFail answers

def writeLocalLog : Option RequestHooker :=
  if !hooker.isHooked then some hooker
  else
    let hooker := hooker.assertChain
    match hooker.reqLogMgr.appendReqData hooker.reqLogDir hooker.currentReq answers.dataGood
      answers.headGood with
    | (true, reqLogMgr, reqLogDir) =>
      { hooker with
        reqLogMgr
        reqLogDir
        logged := hooker.logged ++ hooker.reqLogMgr.preparedReq.toList }.finish answers true
    | (false, _) => none

/-- A primary tells its replicas, a replica only aborts as long as it is allowed to. -/
def abortRequest : Option RequestHooker :=
  if !hooker.isHooked then some hooker
  else if hooker.hookType = some .fromLog then none
  else if hooker.chainStatus = .chainStop then some hooker
  else if answers.isPrimary then
    some { hooker with chainStatus := .chainStop, nodeState := .waitReplicaAbort }
  else if !answers.canAbortRequest then none
  else some { hooker with chainStatus := .chainStop, nodeState := .waitPrimaryAbort }

def finishLocalReqProcess : RequestHooker :=
  { hooker with
    nodeState := if answers.isPrimary then .waitReplicaFinishProcess else .waitPrimary }

def processLocalFinished (finishsuccess : Bool) : Option RequestHooker :=
  if !hooker.isHooked then some hooker
  else
    match hooker.processFinishedBeforePrepare finishsuccess with
    | none => none
    | some (true, hooker) => some hooker
    | some (false, hooker) =>
      if !finishsuccess then hooker.abortRequest answers
      else if hooker.chainStatus ≠ .noChain ∧ hooker.chainStatus ≠ .chainEnd then some hooker
      else if hooker.hookType = some .fromLog then hooker.writeLocalLog answers
      else if hooker.type = .noAdditionDataNoRollback then
        -- the flag is set after the primary finished, even for this type
        match hooker.setRollbackFlag answers (hooker.reqLogMgr.preparedReq.getD {}).incId with
        | some (true, hooker) => some (hooker.finishLocalReqProcess answers)
        | _ => none
      else some (hooker.finishLocalReqProcess answers)

/-- The callback for a commit, on a primary or on a replica. -/
def commitCallback : Option RequestHooker := hooker.writeLocalLog answers

/-- The callback for an abort, on a primary or on a replica. -/
def abortCallback : Option RequestHooker :=
  if !hooker.isHooked then some hooker else hooker.finish answers false

end RequestHooker

/-- What is called on the hooker: a new request is hooked, its handler calls, or the node manager
reacts to the other nodes. -/
inductive HookCall
  | hookCurrentReq (calltype : CallType) (reqdata : Bytes)
  | processLocalBegin
  | setChainStatus (status : ChainStatus)
  | prepare (type : ReqLogType) (preparedReq : ReqData)
  | updateReqLogData (updatedPreparedata : ReqData)
  | processFinishedBeforePrepare (finishsuccess : Bool)
  | processLocalFinished (finishsuccess : Bool)
  | replicasFinishedProcess
  | replicaAborted
  | replicasFinishedLog
  | replicasFinishedAbort
  | primaryFinished
  | primaryAborted

namespace RequestHooker

variable (codec : ReqCodec) (answers : Answers) (hooker : RequestHooker)

/-- The request is over when its hook is gone; it goes on in the phase otherwise. -/
def enter (phase : HookPhase) : RequestHooker :=
  { hooker with phase := if hooker.hookType.isNone then .idle else phase }

/-- The request is over on this node. -/
def ready : RequestHooker := { hooker with nodeState := .started, phase := .idle }

/-- The phase after `processLocalFinished`: a success in the middle of a chain is not the end. -/
def phaseAfter (finishsuccess : Bool) : HookPhase :=
  if finishsuccess ∧ (hooker.chainStatus = .chainBegin ∨ hooker.chainStatus = .chainMiddle) then
    .processing
  else .waiting

def call : HookCall → Option RequestHooker
  | .hookCurrentReq calltype reqdata =>
    let nodeState := if calltype = .fromPrimaryWorker then .running else hooker.nodeState
    if hooker.phase = .idle then
      some { hooker.setHook calltype reqdata with nodeState, phase := .processing }
    else none
  | .processLocalBegin =>
    if hooker.phase = .processing then some hooker.processLocalBegin else none
  | .setChainStatus status =>
    if hooker.phase = .processing then some (hooker.setChainStatus status) else none
  | .prepare type preparedReq =>
    if hooker.phase = .processing then
      (hooker.prepare codec answers type preparedReq).map fun result => result.2.enter .processing
    else none
  | .updateReqLogData updatedPreparedata =>
    if hooker.phase = .processing then some (hooker.updateReqLogData codec updatedPreparedata)
    else none
  | .processFinishedBeforePrepare finishsuccess =>
    if hooker.phase = .processing then
      (hooker.processFinishedBeforePrepare finishsuccess).map fun result =>
        result.2.enter .processing
    else none
  | .processLocalFinished finishsuccess =>
    if hooker.phase = .processing then
      (hooker.processLocalFinished answers finishsuccess).map fun hooker' =>
        hooker'.enter (hooker.phaseAfter finishsuccess)
    else none
  | .replicasFinishedProcess =>
    if hooker.nodeState = .waitReplicaFinishProcess then
      some { hooker with nodeState := .waitReplicaFinishLog }
    else none
  | .replicaAborted =>
    if hooker.nodeState = .waitReplicaFinishProcess ∨ hooker.nodeState = .waitReplicaFinishLog then
      some { hooker with nodeState := .waitReplicaAbort }
    else none
  | .replicasFinishedLog =>
    if hooker.nodeState = .waitReplicaFinishLog then (hooker.commitCallback answers).map ready
    else none
  | .replicasFinishedAbort =>
    if hooker.nodeState = .waitReplicaAbort then (hooker.abortCallback answers).map ready
    else none
  | .primaryFinished =>
    if hooker.nodeState = .waitPrimary then (hooker.commitCallback answers).map ready else none
  | .primaryAborted =>
    if hooker.nodeState = .waitPrimary ∨ hooker.nodeState = .waitPrimaryAbort then
      (hooker.abortCallback answers).map ready
    else none

def Step (hooker : RequestHooker) (call : HookCall × Answers) (hooker' : RequestHooker) : Prop :=
  hooker.call codec call.2 call.1 = some hooker'

end RequestHooker

end AdDelivery.NodeManager
