import AdDelivery.Core.Table

/-!
# Synchronisation of a producer with its consumers

A producer publishes what it has to hand out under a node of ZooKeeper and watches for the nodes of
consumers beside it. Each consumer writes its result to its own node. The producer goes through its
consumers whenever something changes, counts those that have finished, and ends the synchronisation
with a callback when there is none left.

Every answer of ZooKeeper and of the file system is an argument of the step that asks. Consumers
write to the node of a path, whoever has created it, because the paths are given out again after the
node above them has been deleted. So a result carries the synchronisation in which its writer has
registered.
-/

namespace AdDelivery.NodeManager

inductive SynchroDataType
  | scdIndex
  | totalCommentScd
  | other
deriving DecidableEq

/-- A call of `produce` with what the file system and ZooKeeper will make of it. -/
structure ProduceCall where
  dfsEnabled : Bool
  dataType : SynchroDataType
  copied : Bool
  published : Bool
  hasCallback : Bool

inductive ProduceAnswer
  | isSynchronizing
  | copyFailed
  | publishFailed
  | produced
deriving DecidableEq

/-- What ZooKeeper answers during one step: whether the children can be listed, whether the data of
a node can be read, whether a node that is there is found, whether a node is deleted after its
result has been got, and which nodes the deletion at the end removes. -/
structure ZkAnswers where
  children : Bool := true
  data : ℕ → Bool := fun _ => true
  found : ℕ → Bool := fun _ => true
  deleted : ℕ → Bool := fun _ => true
  ended : ℕ → Bool := fun _ => true
  endedProducer : Bool := true

/-- The node of a consumer with the result in it, and the synchronisation its writer belongs to. -/
structure ConsumerNode where
  path : ℕ
  result : Option Bool := none
  reporter : ℕ := 0
deriving DecidableEq

structure SynchroProducer where
  isSynchronizing : Bool := false
  watchedConsumer : Bool := false
  /-- For each path whether the result has been got, and the result. -/
  consumersMap : Table ℕ (Bool × Bool) := ∅
  consumedCount : ℕ := 0
  callbackOnConsumed : Bool := false
  resultOnConsumed : Bool := false

/-- A result that has been counted, or a consumer that has been lost. -/
structure CountedResult where
  path : ℕ
  round : ℕ
  result : Option Bool
  reporter : ℕ
deriving DecidableEq

/-- A call of the callback with the consumers there were. -/
structure CallbackCall where
  round : ℕ
  result : Bool
  consumers : List ℕ
deriving DecidableEq

/-- The producer, the nodes, and what has happened. Synchronisations are numbered by `round`. -/
structure SynchroWorld where
  producer : SynchroProducer := {}
  producerNode : Bool := false
  nodes : List ConsumerNode := []
  round : ℕ := 0
  registered : List (ℕ × ℕ) := []
  produces : List (ProduceAnswer × Bool) := []
  counted : List CountedResult := []
  callbacks : List CallbackCall := []

namespace SynchroWorld

variable (answers : ZkAnswers) (w : SynchroWorld) (call : ProduceCall)

def endSynchroning : SynchroWorld :=
  { w with
    nodes := w.nodes.filter fun node => !answers.ended node.path
    producerNode := w.producerNode && !answers.endedProducer
    producer := { w.producer with isSynchronizing := false } }

/-- A path that is new is watched. -/
def watchConsumer (consumersMap : Table ℕ (Bool × Bool)) (path : ℕ) : Table ℕ (Bool × Bool) :=
  if path ∈ consumersMap then consumersMap else Finmap.insert path (false, false) consumersMap

/-- The transfer of the data changes the status in a node, not the result. -/
def watchConsumers : SynchroWorld :=
  if w.producer.isSynchronizing then
    let consumers := if answers.children then w.nodes.map ConsumerNode.path else []
    let producers := if answers.children && w.producerNode then 1 else 0
    if 1 < consumers.length + producers then
      { w with producer := { w.producer with
          watchedConsumer := true
          consumersMap := consumers.foldl watchConsumer w.producer.consumersMap } }
    else w
  else w

/-- The result of a consumer has been got, or the consumer has been lost. -/
def gotResult (counted : CountedResult) : SynchroWorld :=
  { w with
    producer := { w.producer with
      consumersMap := Finmap.insert counted.path (true, counted.result.getD false)
        w.producer.consumersMap
      consumedCount := w.producer.consumedCount + 1 }
    counted := w.counted ++ [counted] }

def deleteNode (path : ℕ) (w : SynchroWorld) : SynchroWorld :=
  if answers.deleted path then
    { w with nodes := w.nodes.filter fun node => !decide (node.path = path) }
  else w

/-- One consumer of the map, as it was when the loop began. -/
def checkConsumer (consumer : ℕ × Bool × Bool) : SynchroWorld :=
  if consumer.2.1 then w
  else
    let found := w.nodes.find? fun node => decide (node.path = consumer.1)
    match if answers.data consumer.1 then found else none with
    | some node =>
      match node.result with
      | some result =>
        (w.gotResult ⟨consumer.1, w.round, some result, node.reporter⟩).deleteNode answers
          consumer.1
      | none => w
    | none =>
      if found.isSome && answers.found consumer.1 then w
      else w.gotResult ⟨consumer.1, w.round, none, w.round⟩

/-- The end of `checkConsumers`. -/
def finishConsumers : SynchroWorld :=
  if w.producer.consumedCount = 0 then w
  else if w.producer.consumersMap.keys.card ≤ w.producer.consumedCount then
    let result := w.producer.consumersMap.inOrder.all fun consumer => consumer.2.2
    endSynchroning answers
      { w with
        producer := { w.producer with resultOnConsumed := result }
        callbacks :=
          if w.producer.callbackOnConsumed then
            w.callbacks ++ [⟨w.round, result, w.producer.consumersMap.sortedKeys⟩]
          else w.callbacks }
  else w

def checkConsumers : SynchroWorld :=
  if w.producer.isSynchronizing then
    finishConsumers answers (w.producer.consumersMap.inOrder.foldl (checkConsumer answers) w)
  else w

/-- The files have to be copied to the distributed file system, and that fails. -/
def CopyFails : Prop :=
  call.dfsEnabled = true ∧ call.dataType ≠ .other ∧ call.copied = false

instance : Decidable (CopyFails call) :=
  inferInstanceAs
    (Decidable (call.dfsEnabled = true ∧ call.dataType ≠ .other ∧ call.copied = false))

/-- Note what `produce` returns, and the flag it leaves. -/
def returns (answer : ProduceAnswer) (w : SynchroWorld) : SynchroWorld :=
  { w with produces := w.produces ++ [(answer, w.producer.isSynchronizing)] }

def produce (answers : ZkAnswers) (w : SynchroWorld) : SynchroWorld :=
  if w.producer.isSynchronizing then w.returns .isSynchronizing
  else
    -- `init` resets everything else
    let w := { w with
      producer := { isSynchronizing := true }
      round := w.round + 1 }
    if CopyFails call then w.returns .copyFailed
    else if call.published then
      let w := { w with
        producerNode := true
        producer := { w.producer with callbackOnConsumed := call.hasCallback } }
      ((w.watchConsumers answers).checkConsumers answers).returns .produced
    else (w.endSynchroning answers).returns .publishFailed

/-- `wait` gives up, after a time without a consumer or without a connection. -/
def waitEnds : SynchroWorld :=
  if w.producer.isSynchronizing then w.endSynchroning answers else w

/-- A consumer registers with a node of its own. -/
def arrive (path : ℕ) (w : SynchroWorld) : SynchroWorld :=
  if w.nodes.any fun node => decide (node.path = path) then w
  else
    { w with
      nodes := w.nodes ++ [{ path := path }]
      registered := w.registered ++ [(path, w.round)] }

/-- A consumer writes its result to the path it has registered with. -/
def report (path round : ℕ) (result : Bool) (w : SynchroWorld) : SynchroWorld :=
  if (path, round) ∈ w.registered then
    { w with nodes := w.nodes.map fun node =>
        if node.path = path then ⟨path, some result, round⟩ else node }
  else w

def vanish (path : ℕ) (w : SynchroWorld) : SynchroWorld :=
  { w with nodes := w.nodes.filter fun node => !decide (node.path = path) }

end SynchroWorld

inductive SynchroEvent
  | produce (call : ProduceCall) (answers : ZkAnswers)
  | waitEnds (answers : ZkAnswers)
  | arrive (path : ℕ)
  | report (path round : ℕ) (result : Bool)
  | vanish (path : ℕ)
  | producerVanish
  | connected (answers : ZkAnswers)
  | expired (answers : ZkAnswers)
  | nodeDeleted (path : ℕ) (answers : ZkAnswers)
  | dataChanged (path : ℕ) (answers : ZkAnswers)
  | childrenChanged (answers : ZkAnswers)

namespace SynchroWorld

/-- `onNodeDeleted` and `onDataChanged`. -/
def consumerChanged (path : ℕ) (answers : ZkAnswers) (w : SynchroWorld) : SynchroWorld :=
  if path ∈ w.producer.consumersMap then w.checkConsumers answers else w

def step (w : SynchroWorld) : SynchroEvent → SynchroWorld
  | .produce call answers => w.produce call answers
  | .waitEnds answers => w.waitEnds answers
  | .arrive path => w.arrive path
  | .report path round result => w.report path round result
  | .vanish path => w.vanish path
  | .producerVanish => { w with producerNode := false }
  | .connected answers => (w.watchConsumers answers).checkConsumers answers
  | .expired answers => w.endSynchroning answers
  | .nodeDeleted path answers => w.consumerChanged path answers
  | .dataChanged path answers => w.consumerChanged path answers
  | .childrenChanged answers => (w.watchConsumers answers).checkConsumers answers

end SynchroWorld

end AdDelivery.NodeManager
