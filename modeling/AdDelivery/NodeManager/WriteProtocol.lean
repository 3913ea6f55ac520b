import AdDelivery.NodeManager.RequestHooker

/-!
# The replicated write protocol

A write request is processed by the primary first and by its replicas after it. Every node
publishes its state where all the others can read it; a change of a node that somebody watches
raises a notification, which is handled at some later time and may stand for several changes.
This is the synchronous mode, with nodes that are neither lost nor elected: a step that would end
the process of a replica is not there.

A request is known by its number among those that the primary has begun. What a handler does is
its outcome. A node that handles a notification holds its mutex, so a check ends before the next
one starts, but the other nodes go on between two reads of the check.
-/

namespace AdDelivery.NodeManager

/-- The decision of a primary that has read the states of its replicas. -/
inductive SecondaryCheck
  | ready
  | wait
  | abort
  deriving DecidableEq

/-- The loop over the replicas stops at the first one that is not ready. -/
def checkSecondary (unfinished aborted : NodeStateType → Bool) : List NodeStateType → SecondaryCheck
  | [] => .ready
  | state :: states =>
    if unfinished state then .wait
    else if aborted state then .abort
    else checkSecondary unfinished aborted states

def checkSecondaryReqProcess : List NodeStateType → SecondaryCheck :=
  checkSecondary (fun state => state = .running ∨ state = .started) (· = .waitPrimaryAbort)

def checkSecondaryReqFinishLog : List NodeStateType → SecondaryCheck :=
  checkSecondary (· = .waitPrimary) (· = .waitPrimaryAbort)

/-- A replica in its first state has nothing to abort. -/
def checkSecondaryReqAbort : List NodeStateType → SecondaryCheck :=
  checkSecondary
    (fun state => state = .waitPrimary ∨ state = .waitPrimaryAbort ∨ state = .running)
    fun _ => false

/-- An abort is refused once as many nodes are done as are not; the primary is done. -/
def canAbortRequest (states : List NodeStateType) : Bool :=
  let ready := 1 + states.countP (· = .waitPrimary)
  let waiting := states.countP fun state => state = .started ∨ state = .running
  ready < waiting

/-- In the first step of a slow write only the top half of the nodes starts. The primary is the
first node. -/
def isTopHalf (self : ℕ) (states : List NodeStateType) : Bool :=
  let counts := fun state : NodeStateType => decide (state = .waitPrimary ∨ state = .started ∨
    state = .running ∨ state = .waitPrimaryAbort)
  let total := 1 + states.countP counts
  let myselfPos := 1 + (states.take self).countP counts
  myselfPos ≤ total - myselfPos

/-- What a replica is in the middle of: a check that has read the state of the primary, one that
has read its request and reads the states of the replicas, the callback that gets the request, the
handler, the question whether it may abort (with the states read so far), the abort. -/
inductive ReplicaPhase
  | idle
  | sawPrimary (primaryState : NodeStateType)
  | sawRequest (reqdata : Option ℕ) (states : List NodeStateType)
  | began (reqdata : Option ℕ)
  | processing
  | askingAbort (states : List NodeStateType)
  | aborting
  deriving DecidableEq

/-- A replica with its published state. The last three fields are a record of the requests that it
took, logged and aborted. -/
structure ReplicaNode where
  nodeState : NodeStateType := .started
  processingStep : ℕ := 0
  phase : ReplicaPhase := .idle
  currentReq : Option ℕ := none
  taken : List ℕ := []
  log : List ℕ := []
  aborted : List ℕ := []

namespace ReplicaNode

variable (replica : ReplicaNode)

def endCheck : ReplicaNode := { replica with phase := .idle }

/-- The data of a node that starts anew is reset. -/
def updateNodeStateToNewState (newState : NodeStateType) : ReplicaNode :=
  { replica with
    nodeState := newState
    processingStep := if newState = .started then 0 else replica.processingStep
    phase := .idle }

/-- The callback of a replica that waited for its primary: without a hook it does nothing. -/
def writeLocalLog : ReplicaNode :=
  { replica with
    log := replica.log ++ replica.currentReq.toList
    currentReq := none }

def finishAborted : ReplicaNode :=
  { replica with
    aborted := replica.aborted ++ replica.currentReq.toList
    currentReq := none }

/-- The callback for a new request. Data that cannot be unpacked is refused. -/
def onRequestFromPrimary (packedReqdata : Option ℕ) : ReplicaNode :=
  match packedReqdata with
  | some reqid =>
    { replica with
      phase := .processing
      currentReq := some reqid
      taken := replica.taken ++ [reqid] }
  | none => { replica with phase := .askingAbort [] }

def processLocalFinished (finishsuccess : Bool) : ReplicaNode :=
  if finishsuccess then replica.updateNodeStateToNewState .waitPrimary
  else { replica with phase := .askingAbort [] }

end ReplicaNode

/-- What a primary is in the middle of: reading the states of the replicas (and whether its own
change was the cause), asking whether the request could still be aborted, the abort. -/
inductive PrimaryPhase
  | idle
  | checking (selfChanged : Bool) (states : List NodeStateType)
  | checkingStep (selfChanged : Bool) (states : List NodeStateType)
  | aborting
  deriving DecidableEq

/-- A primary with what it has published: its state, the data of the request and the step.
`reqid` is the number of the request that it works on, or of the next one. Packed data that is not
small does not go into the node. The last two fields are a record. -/
structure PrimaryNode where
  nodeState : NodeStateType := .started
  processingStep : ℕ := 0
  savedPackedReqdata : Option ℕ := none
  savedSmall : Bool := true
  nodeReqdata : Option ℕ := none
  nodeStep : ℕ := 0
  phase : PrimaryPhase := .idle
  reqid : ℕ := 0
  log : List ℕ := []
  aborted : List ℕ := []

/-- How the request ended on the primary: processed (in a slow write or not, with small data or
not), failed, or failed before it was prepared. -/
inductive LocalOutcome
  | finished (slowWrite small : Bool)
  | failed
  | failedBeforePrepare

namespace PrimaryNode

variable (primary : PrimaryNode)

/-- A node that starts anew forgets the request. -/
def resetStarted : PrimaryNode :=
  if primary.nodeState = .started then
    { primary with processingStep := 0, savedPackedReqdata := none }
  else primary

/-- The data of the request that the node will have. -/
def requestData : Option ℕ :=
  if primary.processingStep = 0 then none
  else if primary.nodeState = .waitReplicaFinishProcess ∧ primary.savedSmall then
    primary.savedPackedReqdata
  else primary.nodeReqdata

def setSf1rNodeData : PrimaryNode :=
  { primary.resetStarted with
    nodeReqdata := primary.resetStarted.requestData
    nodeStep := primary.resetStarted.processingStep }

def updateNodeStateToNewState (newState : NodeStateType) : PrimaryNode :=
  { primary with nodeState := newState, phase := .idle }.setSf1rNodeData

def finishLocalReqProcess (slowWrite small : Bool) : PrimaryNode :=
  { primary with
    nodeState := .waitReplicaFinishProcess
    savedPackedReqdata := some primary.reqid
    savedSmall := small
    processingStep := if slowWrite then 50 else 100 }.setSf1rNodeData

/-- The request is over, and the primary is ready for the next one. -/
def restart : PrimaryNode :=
  { primary with reqid := primary.reqid + 1 }.updateNodeStateToNewState .started

def writeLocalLog : PrimaryNode := { primary with log := primary.log ++ [primary.reqid] }

def finishAborted : PrimaryNode := { primary with aborted := primary.aborted ++ [primary.reqid] }

end PrimaryNode

/-- A primary with `n` replicas, in the order of their registration, and the notifications that
have not been handled. -/
structure WriteWorld (n : ℕ) where
  primary : PrimaryNode := {}
  replicas : Fin n → ReplicaNode := fun _ => {}
  primaryNotified : Bool := false
  replicaNotified : Fin n → Bool := fun _ => false

/-- What can happen: a new request, its end on the primary, a notification, the read of the next
state in a check, the end of a check or of an abort; the same for a replica, which also gets the
running request from the primary (if it answers) and has its own outcome. -/
inductive WriteEvent (n : ℕ)
  | beginReqProcess
  | primaryFinished (outcome : LocalOutcome)
  | primaryDataChanged (selfChanged : Bool)
  | primaryReads
  | primaryActs
  | replicaDataChanged (i : Fin n)
  | replicaReads (i : Fin n)
  | replicaActs (i : Fin n)
  | replicaGetsRequest (i : Fin n) (answered : Bool)
  | replicaFinished (i : Fin n) (finishsuccess : Bool)

namespace WriteWorld

variable {n : ℕ} (w : WriteWorld n)

def setReplica (i : Fin n) (replica : ReplicaNode) : WriteWorld n :=
  { w with replicas := Function.update w.replicas i replica }

/-- The primary watches its replicas. -/
def publishReplica (i : Fin n) (replica : ReplicaNode) : WriteWorld n :=
  { w.setReplica i replica with primaryNotified := true }

/-- All nodes watch the primary, itself included. -/
def publishPrimary (primary : PrimaryNode) : WriteWorld n :=
  { w with primary, primaryNotified := true, replicaNotified := fun _ => true }

/-- The state of the next replica in the order of the registration. -/
def nextState (states : List NodeStateType) : Option NodeStateType :=
  if h : states.length < n then some (w.replicas ⟨states.length, h⟩).nodeState else none

def beginReqProcess : Option (WriteWorld n) :=
  if w.primary.nodeState = .started then
    some (w.publishPrimary (w.primary.updateNodeStateToNewState .running))
  else none

def primaryFinished (outcome : LocalOutcome) : Option (WriteWorld n) :=
  if w.primary.nodeState = .running then
    some (w.publishPrimary (match outcome with
      | .finished slowWrite small => w.primary.finishLocalReqProcess slowWrite small
      | .failed => w.primary.updateNodeStateToNewState .waitReplicaAbort
      | .failedBeforePrepare => w.primary.restart))
  else none

/-- Only in the three states that wait for the replicas there is something to check; while the
primary aborts, the mutex is free. -/
def primaryDataChanged (selfChanged : Bool) : Option (WriteWorld n) :=
  if !w.primaryNotified then none
  else
    let w := { w with primaryNotified := false }
    match w.primary.phase with
    | .idle =>
      if w.primary.nodeState = .waitReplicaFinishProcess ∨
          w.primary.nodeState = .waitReplicaFinishLog ∨
          w.primary.nodeState = .waitReplicaAbort then
        some { w with primary := { w.primary with phase := .checking selfChanged [] } }
      else some w
    | .aborting => some w
    | _ => none

def primaryReads : Option (WriteWorld n) :=
  match w.primary.phase with
  | .checking selfChanged states =>
    (w.nextState states).map fun state =>
      { w with primary := { w.primary with phase := .checking selfChanged (states ++ [state]) } }
  | .checkingStep selfChanged states =>
    (w.nextState states).map fun state =>
      { w with
        primary := { w.primary with phase := .checkingStep selfChanged (states ++ [state]) } }
  | _ => none

/-- The node is written again, which makes the replicas look at it once more. -/
def updateSelfPrimaryNodeState (selfChanged : Bool) (primary : PrimaryNode) : WriteWorld n :=
  if selfChanged then { w with primary } else w.publishPrimary primary.setSf1rNodeData

/-- The end of a check, by the state of the primary. -/
def checkSecondaryState (selfChanged : Bool) (states : List NodeStateType) :
    Option (WriteWorld n) :=
  match w.primary.nodeState with
  | .waitReplicaFinishProcess =>
    match checkSecondaryReqProcess states with
    | .ready =>
      some (w.publishPrimary (w.primary.updateNodeStateToNewState .waitReplicaFinishLog))
    | .wait =>
      some { w with primary := { w.primary with phase := .checkingStep selfChanged [] } }
    | .abort =>
      some (w.publishPrimary { w.primary.updateNodeStateToNewState .waitReplicaAbort with
          phase := .checkingStep selfChanged [] })
  | .waitReplicaFinishLog =>
    match checkSecondaryReqFinishLog states with
    | .ready => some (w.publishPrimary w.primary.writeLocalLog.restart)
    | .wait => some (w.updateSelfPrimaryNodeState selfChanged { w.primary with phase := .idle })
    | .abort =>
      -- the source writes the node twice in a row, as the watchers may see it once
      some (w.publishPrimary (w.primary.updateNodeStateToNewState .waitReplicaAbort))
  | .waitReplicaAbort =>
    match checkSecondaryReqAbort states with
    | .ready => some { w with primary := { w.primary with phase := .aborting } }
    | _ => some (w.updateSelfPrimaryNodeState selfChanged { w.primary with phase := .idle })
  | _ => none

/-- Once more than half of the nodes are done, the other half starts as well. -/
def updateProcessingStep (selfChanged : Bool) (states : List NodeStateType) : WriteWorld n :=
  let processingStep :=
    if !canAbortRequest states ∧ w.primary.nodeState ≠ .waitReplicaAbort then 100
    else w.primary.processingStep
  w.updateSelfPrimaryNodeState selfChanged { w.primary with processingStep, phase := .idle }

def primaryActs : Option (WriteWorld n) :=
  match w.primary.phase with
  | .checking selfChanged states =>
    if states.length < n then none else w.checkSecondaryState selfChanged states
  | .checkingStep selfChanged states =>
    if states.length < n then none else some (w.updateProcessingStep selfChanged states)
  | .aborting => some (w.publishPrimary w.primary.finishAborted.restart)
  | .idle => none

variable (i : Fin n)

/-- A replica that runs or aborts takes no notice. -/
def replicaDataChanged : Option (WriteWorld n) :=
  if !w.replicaNotified i then none
  else
    let w := { w with replicaNotified := Function.update w.replicaNotified i false }
    match (w.replicas i).phase with
    | .idle =>
      some (w.setReplica i { w.replicas i with phase := .sawPrimary w.primary.nodeState })
    | .processing => some w
    | .askingAbort _ => some w
    | .aborting => some w
    | _ => none

def replicaReads : Option (WriteWorld n) :=
  match (w.replicas i).phase with
  | .sawRequest reqdata states =>
    (w.nextState states).map fun state =>
      w.setReplica i { w.replicas i with phase := .sawRequest reqdata (states ++ [state]) }
  | .askingAbort states =>
    (w.nextState states).map fun state =>
      w.setReplica i { w.replicas i with phase := .askingAbort (states ++ [state]) }
  | _ => none

/-- The state of the primary was read before; its request is read now. -/
def checkPrimaryForStartNewWrite (primaryState : NodeStateType) : WriteWorld n :=
  if primaryState = .waitReplicaFinishProcess then
    w.setReplica i
      { w.replicas i with
        processingStep := w.primary.nodeStep
        phase := .sawRequest w.primary.nodeReqdata [] }
  else w.setReplica i (w.replicas i).endCheck

def checkPrimaryForFinishWrite (primaryState : NodeStateType) : WriteWorld n :=
  match primaryState with
  | .waitReplicaFinishLog =>
    w.publishReplica i ((w.replicas i).writeLocalLog.updateNodeStateToNewState .started)
  | .waitReplicaAbort => w.setReplica i { w.replicas i with phase := .aborting }
  | .waitReplicaFinishProcess =>
    if (w.replicas i).processingStep = 100 then w.setReplica i (w.replicas i).endCheck
    else
      let replica := { (w.replicas i).endCheck with processingStep := w.primary.nodeStep }
      if replica.processingStep = 100 then w.publishReplica i replica else w.setReplica i replica
  | _ => w.setReplica i (w.replicas i).endCheck

def checkPrimaryForAbortWrite (primaryState : NodeStateType) : WriteWorld n :=
  if primaryState = .waitReplicaAbort then
    w.setReplica i { w.replicas i with phase := .aborting }
  else w.setReplica i (w.replicas i).endCheck

def checkPrimaryState (primaryState : NodeStateType) : WriteWorld n :=
  match (w.replicas i).nodeState with
  | .waitPrimary => w.checkPrimaryForFinishWrite i primaryState
  | .waitPrimaryAbort => w.checkPrimaryForAbortWrite i primaryState
  | .started => w.checkPrimaryForStartNewWrite i primaryState
  | _ => w.setReplica i (w.replicas i).endCheck

/-- A request that is taken up makes the replica busy, whatever the primary does meanwhile. -/
def startNewWrite (reqdata : Option ℕ) (states : List NodeStateType) : Option (WriteWorld n) :=
  let replica := w.replicas i
  if replica.processingStep < 100 ∧ states.length < n then none
  else if replica.processingStep < 100 ∧ !isTopHalf i states then
    some (w.setReplica i replica.endCheck)
  else
    some (w.publishReplica i
      { replica.updateNodeStateToNewState .running with phase := .began reqdata })

/-- Without the permission to abort, the process of the replica would end. -/
def abortRequest (states : List NodeStateType) : Option (WriteWorld n) :=
  if states.length < n ∨ !canAbortRequest states then none
  else some (w.publishReplica i ((w.replicas i).updateNodeStateToNewState .waitPrimaryAbort))

def replicaActs : Option (WriteWorld n) :=
  match (w.replicas i).phase with
  | .sawPrimary primaryState => some (w.checkPrimaryState i primaryState)
  | .sawRequest reqdata states => w.startNewWrite i reqdata states
  | .askingAbort states => w.abortRequest i states
  | .aborting =>
    some (w.publishReplica i ((w.replicas i).finishAborted.updateNodeStateToNewState .started))
  | _ => none

/-- The request that the primary runs now or, when it does not answer, the data from its node. -/
def getCurrentRunningReqLog (answered : Bool) (reqdata : Option ℕ) : Option ℕ :=
  if answered then w.primary.savedPackedReqdata else reqdata

def replicaGetsRequest (answered : Bool) : Option (WriteWorld n) :=
  match (w.replicas i).phase with
  | .began reqdata =>
    some (w.setReplica i
      ((w.replicas i).onRequestFromPrimary (w.getCurrentRunningReqLog answered reqdata)))
  | _ => none

/-- A request that the driver refuses ends like one that fails. -/
def replicaFinished (finishsuccess : Bool) : Option (WriteWorld n) :=
  match (w.replicas i).phase with
  | .processing => some (w.publishReplica i ((w.replicas i).processLocalFinished finishsuccess))
  | _ => none

end WriteWorld

def WriteWorld.step {n : ℕ} (w : WriteWorld n) : WriteEvent n → Option (WriteWorld n)
  | .beginReqProcess => w.beginReqProcess
  | .primaryFinished outcome => w.primaryFinished outcome
  | .primaryDataChanged selfChanged => w.primaryDataChanged selfChanged
  | .primaryReads => w.primaryReads
  | .primaryActs => w.primaryActs
  | .replicaDataChanged i => w.replicaDataChanged i
  | .replicaReads i => w.replicaReads i
  | .replicaActs i => w.replicaActs i
  | .replicaGetsRequest i answered => w.replicaGetsRequest i answered
  | .replicaFinished i finishsuccess => w.replicaFinished i finishsuccess

/-- The event `event` can take the nodes from `w` to `w'`. -/
def WriteStep {n : ℕ} (w : WriteWorld n) (event : WriteEvent n) (w' : WriteWorld n) : Prop :=
  w.step event = some w'

end AdDelivery.NodeManager
