import AdDelivery.NodeManager.WriteProtocol

/-!
# The two-step release of a write

A slow write starts on the top half of the active nodes only. The primary releases the other half
once the request can no longer be aborted. Both decisions count over the same list of registered
nodes, but they do not count the same states.
-/

namespace AdDelivery.NodeManager

open List

/-- All states of a node. -/
inductive NodeState
  | init
  | starting
  | startingWaitRetry
  | started
  | processingReqRunning
  | processingReqWaitReplicaAbort
  | processingReqWaitReplicaFinishProcess
  | processingReqWaitReplicaFinishLog
  | processingReqWaitPrimary
  | processingReqWaitPrimaryAbort
  | electing
  | recoverRunning
  | recoverWaitPrimary
  | recoverWaitReplicaFinish
  | recoverFinishing
  | aborting
  | unknown
  deriving DecidableEq

/-- What one node does in a slow write: its own state, the step it has read or set, and the step
that the others can read in its node. -/
structure NodeManagerBase where
  nodeState : NodeState
  processingStep : ℕ
  nodeStep : ℕ

namespace NodeManagerBase

variable {P : Type*} [DecidableEq P]

section Loops

variable (currPrimaryPath : P) (getNodeState : P → NodeState)

structure ReadyCount where
  ready : ℕ := 0
  waiting : ℕ := 0

/-- The primary has finished before any other node can process. -/
def countReady (count : ReadyCount) (node : P) : ReadyCount :=
  if node = currPrimaryPath then { count with ready := count.ready + 1 }
  else
    match getNodeState node with
    | .processingReqWaitPrimary => { count with ready := count.ready + 1 }
    | .started => { count with waiting := count.waiting + 1 }
    | .processingReqRunning => { count with waiting := count.waiting + 1 }
    | _ => count

def canAbortRequest (enableAsync isPrimary : Bool) (nodeList : List P) : Bool :=
  if enableAsync then isPrimary
  else
    let count := nodeList.foldl (countReady currPrimaryPath getNodeState) {}
    !(count.ready ≥ count.waiting)

/-- The states of the replicas that take part in a write. -/
def isActive : NodeState → Bool
  | .processingReqWaitPrimary => true
  | .started => true
  | .processingReqRunning => true
  | .processingReqWaitPrimaryAbort => true
  | _ => false

structure TopHalfCount where
  total : ℕ := 0
  myselfPos : ℕ := 0

def countTopHalf (selfPrimaryPath : P) (count : TopHalfCount) (node : P) : TopHalfCount :=
  if node = currPrimaryPath then { count with total := count.total + 1 }
  else
    let myselfPos := if node = selfPrimaryPath then count.total else count.myselfPos
    { total := if isActive (getNodeState node) then count.total + 1 else count.total
      myselfPos }

/-- The part of `checkPrimaryForStartNewWrite` that decides whether the replica starts now. -/
def canStartNewWrite (selfPrimaryPath : P) (processingStep : ℕ) (nodeList : List P) : Bool :=
  if processingStep < 100 then
    let count := nodeList.foldl (countTopHalf currPrimaryPath getNodeState selfPrimaryPath) {}
    !(count.myselfPos > count.total - count.myselfPos)
  else true

/-- The loop over the nodes stops at the first one that is not ready. -/
def checkNodeList : List P → SecondaryCheck
  | [] => .ready
  | node :: nodeList =>
    if node = currPrimaryPath then checkNodeList nodeList
    else
      match getNodeState node with
      | .processingReqRunning => .wait
      | .started => .wait
      | .unknown => .wait
      | .processingReqWaitPrimaryAbort => .abort
      | _ => checkNodeList nodeList

end Loops

/-- The node is written with the step. -/
def updateSelfPrimaryNodeState (node : NodeManagerBase) : NodeManagerBase :=
  { node with nodeStep := node.processingStep }

def updateNodeStateToNewState (node : NodeManagerBase) (newState : NodeState) : NodeManagerBase :=
  { node with nodeState := newState }.updateSelfPrimaryNodeState

/-- The last part of the check, for a node that is not ready. -/
def updateProcessingStep (node : NodeManagerBase) (canAbort selfChanged : Bool) : NodeManagerBase :=
  let node :=
    if !canAbort && node.nodeState ≠ .processingReqWaitReplicaAbort then
      { node with processingStep := 100 }
    else node
  if selfChanged then node else node.updateSelfPrimaryNodeState

/-- The check of a primary whose replicas are to process the request. The callback for the end of
the processing is not part of the node. Without any children the connection may be lost. -/
def checkSecondaryReqProcess (currPrimaryPath : P) (getNodeState : P → NodeState)
    (node : NodeManagerBase) (nodeList : List P) (selfChanged : Bool) : NodeManagerBase :=
  if node.nodeState ≠ .processingReqWaitReplicaFinishProcess then node
  else
    let canAbort := canAbortRequest currPrimaryPath getNodeState false true nodeList
    match checkNodeList currPrimaryPath getNodeState nodeList with
    | .ready =>
      if nodeList = [] then node.updateProcessingStep canAbort selfChanged
      else node.updateNodeStateToNewState .processingReqWaitReplicaFinishLog
    | .wait => node.updateProcessingStep canAbort selfChanged
    | .abort =>
      (node.updateNodeStateToNewState .processingReqWaitReplicaAbort).updateProcessingStep
        canAbort selfChanged

end NodeManagerBase

/-- The registered nodes of a group, the primary first. No two of them have one path. -/
structure PrimaryChildren (P : Type*) where
  currPrimaryPath : P
  replicas : List P
  nodup : (currPrimaryPath :: replicas).Nodup

namespace PrimaryChildren

open NodeManagerBase

variable {P : Type*} (children : PrimaryChildren P)

def nodeList : List P := children.currPrimaryPath :: children.replicas

theorem ne_primary {node : P} (hmem : node ∈ children.replicas) :
    node ≠ children.currPrimaryPath := by
  rintro rfl
  exact (nodup_cons.mp children.nodup).1 hmem

variable [DecidableEq P] (getNodeState : P → NodeState)

/-- The states that make a replica ready, or keep it waiting, in the count of an abort. -/
def isReady (state : NodeState) : Bool := state = .processingReqWaitPrimary

def isWaiting (state : NodeState) : Bool := state = .started ∨ state = .processingReqRunning

theorem foldl_countReady {curr : P} (count : ReadyCount) (nodes : List P)
    (hne : ∀ node ∈ nodes, node ≠ curr) : nodes.foldl (countReady curr getNodeState) count =
      { ready := count.ready + nodes.countP fun node => isReady (getNodeState node)
        waiting := count.waiting + nodes.countP fun node => isWaiting (getNodeState node) } := by
  induction nodes generalizing count with
  | nil => rfl
  | cons node nodes ih =>
    have hnode : node ≠ curr := hne node mem_cons_self
    rw [foldl_cons, ih _ fun node hmem => hne node (mem_cons_of_mem _ hmem),
      countP_cons, countP_cons, countReady, if_neg hnode]
    cases getNodeState node <;> simp [isReady, isWaiting, Nat.add_assoc, Nat.add_comm]

theorem foldl_countTopHalf_of_ne {curr self : P} (count : TopHalfCount) (nodes : List P)
    (hne : ∀ node ∈ nodes, node ≠ curr) (hself : self ∉ nodes) :
    nodes.foldl (countTopHalf curr getNodeState self) count = { count with
        total := count.total + nodes.countP fun node => isActive (getNodeState node) } := by
  induction nodes generalizing count with
  | nil => rfl
  | cons node nodes ih =>
    have hnode : node ≠ curr := hne node mem_cons_self
    have hnodeSelf : node ≠ self := fun heq => hself (heq ▸ mem_cons_self)
    rw [foldl_cons, ih _ (fun node hmem => hne node (mem_cons_of_mem _ hmem))
      fun hmem => hself (mem_cons_of_mem _ hmem), countP_cons, countTopHalf,
      if_neg hnode, if_neg hnodeSelf]
    split <;> simp [Nat.add_assoc, Nat.add_comm]

/-- The replicas that are active. -/
def active : ℕ := children.replicas.countP fun node => isActive (getNodeState node)

theorem canAbortRequest_eq :
    NodeManagerBase.canAbortRequest children.currPrimaryPath getNodeState false true
        children.nodeList =
      decide (1 + (children.replicas.countP fun node => isReady (getNodeState node)) <
        children.replicas.countP fun node => isWaiting (getNodeState node)) := by
  have hfold := foldl_countReady getNodeState { ready := 1 } children.replicas
    fun node hmem => children.ne_primary hmem
  rw [NodeManagerBase.canAbortRequest, nodeList, foldl_cons, countReady, if_pos rfl]
  simp only [Bool.false_eq_true, if_false, Nat.zero_add]
  rw [hfold]
  simp only [ge_iff_le, ← Nat.not_lt, decide_not, Bool.not_not, Nat.zero_add]

variable {children getNodeState}

/-- A replica has as many active nodes before it as there are up to it, the primary included. -/
theorem canStartNewWrite_iff {before after : List P} {self : P}
    (hreplicas : children.replicas = before ++ self :: after) {processingStep : ℕ}
    (hstep : processingStep < 100) (hactive : isActive (getNodeState self) = true) :
    canStartNewWrite children.currPrimaryPath getNodeState self processingStep
        children.nodeList = true ↔
      2 * (1 + before.countP fun node => isActive (getNodeState node)) ≤
        1 + children.active getNodeState := by
  have hnodup : (before ++ self :: after).Nodup := by
    rw [← hreplicas]
    exact (nodup_cons.mp children.nodup).2
  have hne : ∀ node ∈ before ++ self :: after, node ≠ children.currPrimaryPath := by
    intro node hmem
    exact children.ne_primary (hreplicas ▸ hmem)
  have hbefore : self ∉ before := fun hmem =>
    (nodup_append.mp hnodup).2.2 self hmem self mem_cons_self rfl
  have hafter : self ∉ after := (nodup_cons.mp (nodup_append.mp hnodup).2.1).1
  have hfold : children.nodeList.foldl
      (countTopHalf children.currPrimaryPath getNodeState self) {} =
      { total := 1 + children.active getNodeState
        myselfPos := 1 + before.countP fun node => isActive (getNodeState node) } := by
    rw [nodeList, foldl_cons, hreplicas, foldl_append, foldl_countTopHalf_of_ne
      getNodeState _ before (fun node hmem => hne node (mem_append_left _ hmem)) hbefore,
      foldl_cons, foldl_countTopHalf_of_ne getNodeState _ after
      (fun node hmem => hne node (by simp [hmem])) hafter]
    have hself : self ≠ children.currPrimaryPath := hne self (by simp)
    simp only [countTopHalf, if_true, if_neg hself, hactive, active, hreplicas,
      countP_append, countP_cons, TopHalfCount.mk.injEq, and_true]
    omega
  rw [canStartNewWrite, if_pos hstep]
  simp only [hfold, Bool.not_eq_true', decide_eq_false_iff_not, gt_iff_lt, Nat.not_lt]
  omega

end PrimaryChildren

/-- If the first `m` of the counted elements are done, then so many are done. -/
theorem min_le_countP_of_first {α : Type*} (counted done : α → Bool) (l : List α) (m : ℕ)
    (hdone : ∀ before x after, l = before ++ x :: after → counted x = true →
      before.countP counted < m → done x = true) :
    min (l.countP counted) m ≤ l.countP fun x => counted x && done x := by
  induction l generalizing m with
  | nil => simp
  | cons x l ih =>
    cases hx : counted x with
    | false =>
      have hrest : min (l.countP counted) m ≤ l.countP fun x => counted x && done x := by
        refine ih m fun before y after heq hy hlt => ?_
        refine hdone (x :: before) y after (by rw [heq, cons_append]) hy ?_
        rwa [countP_cons_of_neg (by simp [hx])]
      rw [countP_cons_of_neg (by simp [hx]), countP_cons_of_neg (by simp [hx])]
      exact hrest
    | true =>
      rcases Nat.eq_zero_or_pos m with rfl | hpos
      · simp
      have hxdone : done x = true := hdone [] x l rfl hx hpos
      have hrest : min (l.countP counted) (m - 1) ≤ l.countP fun x => counted x && done x := by
        refine ih (m - 1) fun before y after heq hy hlt => ?_
        refine hdone (x :: before) y after (by rw [heq, cons_append]) hy ?_
        rw [countP_cons_of_pos hx]
        omega
      rw [countP_cons_of_pos hx, countP_cons_of_pos (by simp [hx, hxdone])]
      omega

namespace PrimaryChildren

open NodeManagerBase

variable {P : Type*} {children : PrimaryChildren P} {getNodeState : P → NodeState}

theorem countP_isActive (nodes : List P)
    (hnoabort : ∀ node ∈ nodes, getNodeState node ≠ .processingReqWaitPrimaryAbort) :
    (nodes.countP fun node => isActive (getNodeState node)) =
      (nodes.countP fun node => isReady (getNodeState node)) +
        nodes.countP fun node => isWaiting (getNodeState node) := by
  induction nodes with
  | nil => rfl
  | cons node nodes ih =>
    have hnode := hnoabort node mem_cons_self
    rw [countP_cons, countP_cons, countP_cons,
      ih fun node hmem => hnoabort node (mem_cons_of_mem _ hmem)]
    cases hstate : getNodeState node <;> simp [isActive, isReady, isWaiting] <;>
      first | omega | exact hnode hstate

variable [DecidableEq P]

/-- Once the replicas that could start are done, the request can no longer be aborted. -/
theorem canAbortRequest_eq_false
    (hnoabort : ∀ node ∈ children.replicas, getNodeState node ≠ .processingReqWaitPrimaryAbort)
    (hfinished : ∀ node ∈ children.replicas, isActive (getNodeState node) = true →
      canStartNewWrite children.currPrimaryPath getNodeState node 50 children.nodeList = true →
      getNodeState node = .processingReqWaitPrimary) :
    NodeManagerBase.canAbortRequest children.currPrimaryPath getNodeState false true
      children.nodeList = false := by
  have hready := min_le_countP_of_first (fun node => isActive (getNodeState node))
    (fun node => isReady (getNodeState node)) children.replicas
    ((1 + children.active getNodeState) / 2) (by
      intro before node after heq hactive hlt
      have hstart : canStartNewWrite children.currPrimaryPath getNodeState node 50
          children.nodeList = true := (canStartNewWrite_iff heq (by omega) hactive).mpr (by omega)
      simp [isReady, hfinished node (by simp [heq]) hactive hstart])
  have hactive := countP_isActive children.replicas hnoabort
  have hle : (children.replicas.countP fun node =>
      isActive (getNodeState node) && isReady (getNodeState node)) ≤
      children.replicas.countP fun node => isReady (getNodeState node) := by
    apply countP_mono_left
    intro node _ hboth
    exact (Bool.and_eq_true _ _ ▸ hboth).2
  rw [canAbortRequest_eq, decide_eq_false_iff_not]
  simp only [active] at hready hactive
  omega

theorem checkNodeList_ne_abort {curr : P} (nodes : List P) (hnoabort : ∀ node ∈ nodes, node ≠ curr →
      getNodeState node ≠ .processingReqWaitPrimaryAbort) :
    checkNodeList curr getNodeState nodes ≠ .abort := by
  induction nodes with
  | nil => exact SecondaryCheck.noConfusion
  | cons node nodes ih =>
    have hrest := ih fun node hmem => hnoabort node (mem_cons_of_mem _ hmem)
    rw [checkNodeList]
    split
    · exact hrest
    · next hne =>
      split <;> simp_all

/-- A check that finds no abort either goes on to the logs or raises the step, unless the request
can still be aborted. -/
theorem checkSecondaryReqProcess_of_not_canAbort {node : NodeManagerBase}
    (hstate : node.nodeState = .processingReqWaitReplicaFinishProcess)
    (hnoabort : ∀ node ∈ children.replicas, getNodeState node ≠ .processingReqWaitPrimaryAbort)
    (hdeny : NodeManagerBase.canAbortRequest children.currPrimaryPath getNodeState false true
      children.nodeList = false) (selfChanged : Bool) :
    let next := node.checkSecondaryReqProcess children.currPrimaryPath getNodeState
      children.nodeList selfChanged
    next.nodeState = .processingReqWaitReplicaFinishLog ∨
      next.nodeState = node.nodeState ∧ next.processingStep = 100 := by
  have hcheck : checkNodeList children.currPrimaryPath getNodeState children.nodeList ≠
      .abort := by
    refine checkNodeList_ne_abort _ fun node hmem hne => ?_
    exact hnoabort node ((mem_cons.mp hmem).resolve_left hne)
  have hnil : children.nodeList ≠ [] := cons_ne_nil _ _
  intro next
  simp only [next, NodeManagerBase.checkSecondaryReqProcess, hstate, ne_eq, not_true, if_false,
    hdeny]
  cases hcases : checkNodeList children.currPrimaryPath getNodeState children.nodeList with
  | ready =>
    left
    rfl
  | wait =>
    right
    cases selfChanged <;>
      simp [NodeManagerBase.updateProcessingStep, updateSelfPrimaryNodeState, hstate]
  | abort => exact absurd hcases hcheck

/-- The release does not stall. If every active replica that may start at the first step has
finished, and the other ones have not begun, the request can no longer be aborted and the check
goes on or raises the step. At any moment at which this does not happen, a replica that has not
finished may start. -/
theorem two_step_release (children : PrimaryChildren P) (getNodeState : P → NodeState)
    (node : NodeManagerBase) (selfChanged : Bool)
    (hstate : node.nodeState = .processingReqWaitReplicaFinishProcess)
    (hnoabort : ∀ replica ∈ children.replicas,
      getNodeState replica ≠ .processingReqWaitPrimaryAbort) :
    let passes := fun replica =>
      canStartNewWrite children.currPrimaryPath getNodeState replica 50 children.nodeList = true
    let released :=
      NodeManagerBase.canAbortRequest children.currPrimaryPath getNodeState false true
          children.nodeList = false ∧
        let next := node.checkSecondaryReqProcess children.currPrimaryPath getNodeState
          children.nodeList selfChanged
        next.nodeState = .processingReqWaitReplicaFinishLog ∨
          next.nodeState = node.nodeState ∧ next.processingStep = 100
    ((∀ replica ∈ children.replicas, isActive (getNodeState replica) = true → passes replica →
        getNodeState replica = .processingReqWaitPrimary) →
      (∀ replica ∈ children.replicas, isActive (getNodeState replica) = true →
        ¬passes replica → getNodeState replica = .started) → released) ∧
    (released ∨ ∃ replica ∈ children.replicas, passes replica ∧
      (getNodeState replica = .started ∨ getNodeState replica = .processingReqRunning)) := by
  intro passes released
  have hreleased (hfinished : ∀ replica ∈ children.replicas,
      isActive (getNodeState replica) = true → passes replica →
      getNodeState replica = .processingReqWaitPrimary) : released := by
    have hdeny := canAbortRequest_eq_false hnoabort hfinished
    exact ⟨hdeny, checkSecondaryReqProcess_of_not_canAbort hstate hnoabort hdeny selfChanged⟩
  refine ⟨fun hfinished _ => hreleased hfinished, ?_⟩
  by_cases hsome : ∃ replica ∈ children.replicas, passes replica ∧
      (getNodeState replica = .started ∨ getNodeState replica = .processingReqRunning)
  · exact .inr hsome
  · refine .inl (hreleased fun replica hmem hactive hpasses => ?_)
    cases hreplica : getNodeState replica <;> simp_all [isActive]

/-- Three replicas: the first two may start, and have finished. -/
theorem two_step_release_three :
    ∃ (children : PrimaryChildren ℕ) (getNodeState : ℕ → NodeState) (node : NodeManagerBase),
      children.replicas = [1, 2, 3] ∧ node.processingStep = 50 ∧
      NodeManagerBase.canAbortRequest children.currPrimaryPath getNodeState false true
        children.nodeList = false ∧
      (node.checkSecondaryReqProcess children.currPrimaryPath getNodeState children.nodeList
        false).processingStep = 100 :=
  let children : PrimaryChildren ℕ := ⟨0, [1, 2, 3], by decide⟩
  let getNodeState : ℕ → NodeState := fun node =>
    if node = 3 then .started else .processingReqWaitPrimary
  let node : NodeManagerBase := ⟨.processingReqWaitReplicaFinishProcess, 50, 50⟩
  ⟨children, getNodeState, node, rfl, rfl,
    ((two_step_release children getNodeState node false rfl (by decide)).1 (by decide)
      (by decide)).1, rfl⟩

end PrimaryChildren

end AdDelivery.NodeManager
