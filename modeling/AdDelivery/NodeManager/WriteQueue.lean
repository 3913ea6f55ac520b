import AdDelivery.Core.Run

/-!
# The write queue

Write requests wait as ZooKeeper nodes with ascending sequence numbers. The primary master of
the shard caches the first of them, pops its cache and deletes the node of what it pops. A
deletion that fails while the connection is up is ignored, and a cache may outlive the role.
-/

namespace AdDelivery.NodeManager

/-- A master of the shard. `delivered` has what other masters delivered since this one filled its
cache. -/
structure Master where
  connected : Bool := true
  writePrepared : Bool := false
  cachedWriteReqlist : List ℕ := []
  delivered : List ℕ := []

/-- The queue with its masters. There is at most one primary, and `delivered` has all requests
that were delivered to a worker, in this order. -/
structure WriteQueue (ι : Type*) where
  writeReqQueue : List ℕ := []
  nextSequence : ℕ := 0
  writePrepareNode : Option ι := none
  primary : Option ι := none
  master : ι → Master := fun _ => {}
  delivered : List ℕ := []

/-- What becomes of the deletion of a node: an answer, or a connection that is lost before or
after the node is deleted. -/
inductive DeleteAnswer
  | answered
  | lost (applied : Bool)

inductive WriteQueueCall (ι : Type*)
  | pushWriteReq
  | notifyChangedPrimary (m : ι) (isNewPrimary : Bool)
  | checkForWriteReq (m : ι)
  | prepareWriteReq (m : ι)
  | popWriteReq (m : ι) (answer : DeleteAnswer)
  | endPreparedWrite (m : ι)
  | endWriteReq (m : ι)
  | connectionLost (m : ι) (expired : Bool)
  | reconnected (m : ι)

namespace WriteQueue

variable {ι : Type*} [DecidableEq ι] (queue : WriteQueue ι)

def setMaster (m : ι) (master : Master) : WriteQueue ι :=
  { queue with master := Function.update queue.master m master }

@[simp] theorem setMaster_self (m : ι) (master : Master) :
    (queue.setMaster m master).master m = master :=
  Function.update_self _ _ _

theorem setMaster_of_ne {m m' : ι} (master : Master) (h : m' ≠ m) :
    (queue.setMaster m master).master m' = queue.master m' :=
  Function.update_of_ne h _ _

def isMinePrimary (m : ι) : Bool := (queue.master m).connected ∧ queue.primary = some m

/-- At most 1000 requests are cached, and only by a master that has none in its cache. -/
def cacheNewWriteFromZNode (m : ι) : WriteQueue ι :=
  if (queue.master m).cachedWriteReqlist ≠ [] then queue
  else if !(queue.master m).connected then queue
  else
    queue.setMaster m
      { queue.master m with
        cachedWriteReqlist := queue.writeReqQueue.take 1000
        delivered := [] }

/-- The node of a prepared write is deleted by the master that created it. -/
def endWriteReq (m : ι) : WriteQueue ι :=
  if (queue.master m).connected ∧ queue.writePrepareNode = some m then
    { queue with writePrepareNode := none }
  else queue

/-- A request goes to a worker. The other masters do not hear of it. -/
def deliver (m : ι) (request : ℕ) : WriteQueue ι :=
  { queue with
    master := fun m' =>
      if m' = m then queue.master m'
      else { queue.master m' with delivered := (queue.master m').delivered ++ [request] }
    delivered := queue.delivered ++ [request] }

@[simp] theorem deliver_self (m : ι) (request : ℕ) :
    (queue.deliver m request).master m = queue.master m :=
  if_pos rfl

theorem deliver_of_ne {m m' : ι} (request : ℕ) (h : m' ≠ m) : (queue.deliver m request).master m' =
      { queue.master m' with delivered := (queue.master m').delivered ++ [request] } :=
  if_neg h

/-- The pop of a request, with the connection as the deletion finds it. -/
def popFront (m : ι) (answer : DeleteAnswer) : WriteQueue ι :=
  match (queue.master m).cachedWriteReqlist with
  | [] => queue
  | front :: rest =>
    if !(queue.master m).connected then queue
    else
      match answer with
      | .answered =>
        ({ queue with writeReqQueue := queue.writeReqQueue.erase front }.setMaster m
          { queue.master m with cachedWriteReqlist := rest }).deliver m front
      | .lost applied =>
        { queue with
          writeReqQueue :=
            if applied then queue.writeReqQueue.erase front else queue.writeReqQueue }.setMaster m
          { queue.master m with connected := false }

/-- Only a prepared write is popped. -/
def popWriteReq (m : ι) (answer : DeleteAnswer) : Option (WriteQueue ι) :=
  if (queue.master m).writePrepared ∧ queue.primary = some m then
    some ((queue.cacheNewWriteFromZNode m).popFront m answer)
  else none

variable (asyncEnabled : Bool)

def prepareWriteReq (m : ι) : WriteQueue ι :=
  if !queue.isMinePrimary m then queue
  else if asyncEnabled then queue.setMaster m { queue.master m with writePrepared := true }
  else if queue.writePrepareNode = none then
    { queue with writePrepareNode := some m }.setMaster m
      { queue.master m with writePrepared := true }
  else queue

/-- A master that is not the primary clears its cache, when it hears of its connection. -/
def checkForWriteReq (m : ι) : WriteQueue ι :=
  if !queue.isMinePrimary m then
    if (queue.master m).connected then
      queue.setMaster m { queue.master m with cachedWriteReqlist := [] }
    else queue
  else if (queue.master m).writePrepared then queue
  else if !asyncEnabled && (queue.endWriteReq m).writePrepareNode.isSome then queue.endWriteReq m
  else (queue.endWriteReq m).cacheNewWriteFromZNode m

/-- The cache of a new primary is kept if it is not empty. -/
def notifyChangedPrimary (m : ι) (isNewPrimary : Bool) : Option (WriteQueue ι) :=
  if isNewPrimary then
    if queue.primary = none ∨ queue.primary = some m then
      some ({ queue with primary := some m }.cacheNewWriteFromZNode m)
    else none
  else
    let queue := queue.endWriteReq m
    some { queue with primary := if queue.primary = some m then none else queue.primary }

def call : WriteQueueCall ι → Option (WriteQueue ι)
  | .pushWriteReq =>
    some
      { queue with
        writeReqQueue := queue.writeReqQueue ++ [queue.nextSequence]
        nextSequence := queue.nextSequence + 1 }
  | .notifyChangedPrimary m isNewPrimary => queue.notifyChangedPrimary m isNewPrimary
  | .checkForWriteReq m => some (queue.checkForWriteReq asyncEnabled m)
  | .prepareWriteReq m => some (queue.prepareWriteReq asyncEnabled m)
  | .popWriteReq m answer => queue.popWriteReq m answer
  | .endPreparedWrite m =>
    some (queue.setMaster m { queue.master m with writePrepared := false })
  | .endWriteReq m => some (queue.endWriteReq m)
  | .connectionLost m expired =>
    some
      ({ queue with
        writePrepareNode :=
          if expired ∧ queue.writePrepareNode = some m then none
          else queue.writePrepareNode }.setMaster m { queue.master m with connected := false })
  | .reconnected m => some (queue.setMaster m { queue.master m with connected := true })

def Step (queue : WriteQueue ι) (call : WriteQueueCall ι) (queue' : WriteQueue ι) : Prop :=
  queue.call asyncEnabled call = some queue'

end WriteQueue

end AdDelivery.NodeManager
