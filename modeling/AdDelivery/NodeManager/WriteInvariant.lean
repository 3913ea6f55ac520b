import AdDelivery.NodeManager.WriteProtocol

/-!
# The invariant of the replicated write protocol

What a replica is in the middle of says where its primary can be: a replica with a request holds
the primary at that request, and a decision that it has seen is not taken back. While the primary
waits for the logs, every replica waits for the primary or has logged the request. Each move of a
node keeps this for the node and its primary.
-/

namespace AdDelivery.NodeManager

section Check

variable {unfinished aborted : NodeStateType → Bool} {states : List NodeStateType}

theorem checkSecondary_ready (h : checkSecondary unfinished aborted states = .ready) :
    ∀ state ∈ states, unfinished state = false ∧ aborted state = false := by
  induction states with
  | nil => simp
  | cons state states ih =>
    rw [checkSecondary] at h
    split_ifs at h with hunfinished haborted
    intro state' hmem
    rcases List.mem_cons.mp hmem with rfl | hmem
    · exact ⟨by simpa using hunfinished, by simpa using haborted⟩
    · exact ih h state' hmem

theorem checkSecondary_abort (h : checkSecondary unfinished aborted states = .abort) :
    ∃ state ∈ states, aborted state = true := by
  induction states with
  | nil => simp [checkSecondary] at h
  | cons state states ih =>
    rw [checkSecondary] at h
    split_ifs at h with hunfinished haborted
    · exact ⟨state, List.mem_cons_self, haborted⟩
    · obtain ⟨state', hmem, haborted'⟩ := ih h
      exact ⟨state', List.mem_cons_of_mem _ hmem, haborted'⟩

end Check

namespace PrimaryNode

variable (primary : PrimaryNode)

/-- The request with this number is before the replicas. -/
def IsSent (reqid : ℕ) : Prop :=
  reqid = primary.reqid ∧
    (primary.nodeState = .waitReplicaFinishProcess ∨ primary.nodeState = .waitReplicaFinishLog ∨
      primary.nodeState = .waitReplicaAbort)

/-- A decision of the primary that has been seen still stands. -/
def StillAt (state : NodeStateType) : Prop :=
  (state = .waitReplicaFinishLog → primary.nodeState = .waitReplicaFinishLog) ∧
    (state = .waitReplicaAbort → primary.nodeState = .waitReplicaAbort)

/-- What holds of a primary by itself. -/
structure Sound (primary : PrimaryNode) : Prop where
  log : ∀ reqid ∈ primary.log, reqid < primary.reqid
  aborted : ∀ reqid ∈ primary.aborted, reqid < primary.reqid ∧ reqid ∉ primary.log
  saved : ∀ reqid ∈ primary.savedPackedReqdata, primary.IsSent reqid
  node : ∀ reqid ∈ primary.nodeReqdata, primary.IsSent reqid
  step : primary.nodeState = .started ∨ primary.nodeState = .running → primary.processingStep = 0
  aborting : primary.phase = .aborting → primary.nodeState = .waitReplicaAbort
  busy : primary.phase ≠ .idle → primary.nodeState ≠ .started ∧ primary.nodeState ≠ .running

end PrimaryNode

namespace ReplicaNode

variable (primary : PrimaryNode) (replica : ReplicaNode)

/-- Where a replica can stand, by what it is in the middle of. While the primary waits for the
logs, every replica waits for the primary or is through with the request. -/
def Stands : Prop :=
  match replica.phase with
  | .idle =>
    (replica.nodeState = .started ∧ replica.currentReq = none) ∨
      (replica.nodeState = .waitPrimary ∧ replica.currentReq.isSome) ∨
      (replica.nodeState = .waitPrimaryAbort ∧ primary.nodeState ≠ .waitReplicaFinishLog)
  | .sawPrimary state =>
    (replica.nodeState = .started ∧ replica.currentReq = none ∧
        (primary.nodeState = .waitReplicaFinishLog → state ≠ .waitReplicaFinishProcess)) ∨
      (replica.nodeState = .waitPrimary ∧ replica.currentReq.isSome ∧ primary.StillAt state) ∨
      (replica.nodeState = .waitPrimaryAbort ∧ primary.nodeState ≠ .waitReplicaFinishLog ∧
        (replica.currentReq.isSome → primary.StillAt state))
  | .sawRequest reqdata _ =>
    replica.nodeState = .started ∧ replica.currentReq = none ∧
      primary.nodeState ≠ .waitReplicaFinishLog ∧
      ∀ reqid ∈ reqdata, reqid < primary.reqid ∨ primary.IsSent reqid
  | .began reqdata =>
    replica.nodeState = .running ∧ replica.currentReq = none ∧
      primary.nodeState ≠ .waitReplicaFinishLog ∧
      ∀ reqid ∈ reqdata, reqid < primary.reqid ∨ primary.IsSent reqid
  | .processing =>
    replica.nodeState = .running ∧ replica.currentReq.isSome ∧
      primary.nodeState ≠ .waitReplicaFinishLog
  | .askingAbort _ => replica.nodeState = .running ∧ primary.nodeState ≠ .waitReplicaFinishLog
  | .aborting =>
    (replica.nodeState = .waitPrimary ∧ replica.currentReq.isSome ∨
        replica.nodeState = .waitPrimaryAbort) ∧
      primary.nodeState ≠ .waitReplicaFinishLog ∧
      (replica.currentReq.isSome → primary.nodeState = .waitReplicaAbort)

/-- The log that a replica has to have. -/
def expectedLog : List ℕ :=
  if primary.nodeState = .waitReplicaFinishLog ∧ replica.nodeState = .started then
    primary.log ++ [primary.reqid]
  else primary.log

/-- What holds of a replica and its primary. -/
structure Fits (primary : PrimaryNode) (replica : ReplicaNode) : Prop where
  stands : replica.Stands primary
  current : ∀ reqid ∈ replica.currentReq, primary.IsSent reqid
  taken : ∀ reqid ∈ replica.taken,
    reqid ∈ replica.log ∨ reqid ∈ replica.aborted ∨ replica.currentReq = some reqid
  log : replica.log = replica.expectedLog primary
  aborted : ∀ reqid ∈ replica.aborted, reqid ∉ primary.log ∧
    (reqid < primary.reqid ∨ reqid = primary.reqid ∧ primary.nodeState = .waitReplicaAbort)

end ReplicaNode

namespace WriteWorld

variable {n : ℕ} (w : WriteWorld n)

/-- The states that a check has read. While the primary waits for the requests to be processed,
only a replica that waits as well stays as it is; while it waits for the logs, only one that is
through. -/
def ReadsFit (primary : PrimaryNode) (i : Fin n) (replica : ReplicaNode) : Prop :=
  ∀ selfChanged states state, primary.phase = .checking selfChanged states →
    states[i.val]? = some state →
    (primary.nodeState = .waitReplicaFinishProcess →
      state = .started ∨ state = .running ∨ state = .waitPrimaryAbort ∨
        state = .waitPrimary ∧ replica.nodeState = .waitPrimary) ∧
    (primary.nodeState = .waitReplicaFinishLog →
      state = .waitPrimary ∨ state = .started ∧ replica.nodeState = .started)

structure Sound (w : WriteWorld n) : Prop where
  primary : w.primary.Sound
  fits : ∀ i, (w.replicas i).Fits w.primary
  reads : ∀ i, ReadsFit w.primary i (w.replicas i)
  length : ∀ selfChanged states, w.primary.phase = .checking selfChanged states →
    states.length ≤ n

end WriteWorld

namespace PrimaryNode

variable {primary : PrimaryNode}

theorem resetStarted_eq : primary.resetStarted = { primary with
      processingStep := if primary.nodeState = .started then 0 else primary.processingStep
      savedPackedReqdata :=
        if primary.nodeState = .started then none else primary.savedPackedReqdata } := by
  rw [resetStarted]
  split <;> rfl

@[simp]
theorem setSf1rNodeData_nodeState : primary.setSf1rNodeData.nodeState = primary.nodeState := by
  rw [setSf1rNodeData, resetStarted_eq]

@[simp]
theorem setSf1rNodeData_reqid : primary.setSf1rNodeData.reqid = primary.reqid := by
  rw [setSf1rNodeData, resetStarted_eq]

@[simp]
theorem setSf1rNodeData_phase : primary.setSf1rNodeData.phase = primary.phase := by
  rw [setSf1rNodeData, resetStarted_eq]

@[simp]
theorem setSf1rNodeData_log : primary.setSf1rNodeData.log = primary.log := by
  rw [setSf1rNodeData, resetStarted_eq]

/-- A primary that publishes itself is sound if it was but for the data of the node, which come
from the saved ones. -/
theorem sound_setSf1rNodeData (hlog : ∀ reqid ∈ primary.log, reqid < primary.reqid)
    (haborted : ∀ reqid ∈ primary.aborted, reqid < primary.reqid ∧ reqid ∉ primary.log)
    (hsaved : primary.nodeState ≠ .started →
      ∀ reqid ∈ primary.savedPackedReqdata, primary.IsSent reqid)
    (hnode : primary.nodeState ≠ .started → primary.processingStep ≠ 0 →
      ∀ reqid ∈ primary.nodeReqdata, primary.IsSent reqid)
    (hstep : primary.nodeState = .running → primary.processingStep = 0)
    (hidle : primary.phase = .idle) : primary.setSf1rNodeData.Sound := by
  rw [setSf1rNodeData, requestData, resetStarted_eq]
  refine ⟨hlog, haborted, ?_, ?_, ?_, by simp [hidle], by simp [hidle]⟩
  · intro reqid hmem
    by_cases hstarted : primary.nodeState = .started
    · simp [hstarted] at hmem
    · simp only [hstarted, if_false] at hmem
      exact hsaved hstarted reqid hmem
  · intro reqid hmem
    by_cases hstarted : primary.nodeState = .started
    · simp [hstarted] at hmem
    · simp only [hstarted, if_false] at hmem
      split_ifs at hmem with hzero
      · simp at hmem
      · exact hsaved hstarted reqid hmem
      · exact hnode hstarted hzero reqid hmem
  · intro hstate
    by_cases hstarted : primary.nodeState = .started
    · simp [hstarted]
    · have hrunning : primary.nodeState = .running := hstate.resolve_left hstarted
      simp [hrunning, hstep hrunning]

variable (newState : NodeStateType)

@[simp]
theorem updateNodeStateToNewState_nodeState :
    (primary.updateNodeStateToNewState newState).nodeState = newState := by
  simp [updateNodeStateToNewState]

@[simp]
theorem updateNodeStateToNewState_phase :
    (primary.updateNodeStateToNewState newState).phase = .idle := by
  simp [updateNodeStateToNewState]

@[simp]
theorem updateNodeStateToNewState_reqid :
    (primary.updateNodeStateToNewState newState).reqid = primary.reqid := by
  simp [updateNodeStateToNewState]

@[simp]
theorem updateNodeStateToNewState_log :
    (primary.updateNodeStateToNewState newState).log = primary.log := by
  simp [updateNodeStateToNewState]

variable (slowWrite small : Bool)

@[simp]
theorem finishLocalReqProcess_nodeState :
    (primary.finishLocalReqProcess slowWrite small).nodeState = .waitReplicaFinishProcess := by
  simp [finishLocalReqProcess]

@[simp]
theorem finishLocalReqProcess_phase :
    (primary.finishLocalReqProcess slowWrite small).phase = primary.phase := by
  simp [finishLocalReqProcess]

@[simp]
theorem finishLocalReqProcess_reqid :
    (primary.finishLocalReqProcess slowWrite small).reqid = primary.reqid := by
  simp [finishLocalReqProcess]

@[simp]
theorem finishLocalReqProcess_log :
    (primary.finishLocalReqProcess slowWrite small).log = primary.log := by
  simp [finishLocalReqProcess]

@[simp]
theorem restart_nodeState : primary.restart.nodeState = .started := by simp [restart]

@[simp]
theorem restart_phase : primary.restart.phase = .idle := by simp [restart]

@[simp]
theorem restart_reqid : primary.restart.reqid = primary.reqid + 1 := by simp [restart]

@[simp]
theorem restart_log : primary.restart.log = primary.log := by simp [restart]

/-- A new state under which what was sent is still sent. -/
theorem Sound.updateNodeStateToNewState (h : primary.Sound) {newState : NodeStateType}
    (hsent : ∀ reqid, primary.IsSent reqid →
      newState = .waitReplicaFinishProcess ∨ newState = .waitReplicaFinishLog ∨
        newState = .waitReplicaAbort) (hstep : newState = .running → primary.processingStep = 0) :
    (primary.updateNodeStateToNewState newState).Sound := by
  refine sound_setSf1rNodeData h.log h.aborted ?_ ?_ hstep rfl
  · intro _ reqid hmem
    have hold : primary.IsSent reqid := h.saved reqid hmem
    exact ⟨hold.1, hsent reqid hold⟩
  · intro _ _ reqid hmem
    have hold : primary.IsSent reqid := h.node reqid hmem
    exact ⟨hold.1, hsent reqid hold⟩

theorem sound_restart (hlog : ∀ reqid ∈ primary.log, reqid < primary.reqid + 1)
    (haborted : ∀ reqid ∈ primary.aborted, reqid < primary.reqid + 1 ∧ reqid ∉ primary.log) :
    primary.restart.Sound :=
  sound_setSf1rNodeData hlog haborted (fun hstarted => absurd rfl hstarted)
    (fun hstarted => absurd rfl hstarted) (by simp) rfl

/-- A sound primary in another phase that fits its state. -/
theorem Sound.setPhase (h : primary.Sound) {phase : PrimaryPhase}
    (haborting : phase = .aborting → primary.nodeState = .waitReplicaAbort)
    (hbusy : phase ≠ .idle → primary.nodeState ≠ .started ∧ primary.nodeState ≠ .running) :
    ({ primary with phase } : PrimaryNode).Sound where
  log := h.log
  aborted := h.aborted
  saved := h.saved
  node := h.node
  step := h.step
  aborting := haborting
  busy := hbusy

/-- A state in which the replicas have no request. -/
theorem not_isSent (hstate : primary.nodeState = .started ∨ primary.nodeState = .running)
    (reqid : ℕ) : ¬primary.IsSent reqid := by
  rintro ⟨-, hsent⟩
  rcases hstate with hstate | hstate <;> simp [hstate] at hsent

end PrimaryNode

namespace ReplicaNode

variable {primary primary' : PrimaryNode} {replica : ReplicaNode}

/-- Where a replica stands is not touched by a primary that does not start to wait for the logs,
forgets no request that was sent, and takes no decision back as long as the replica is at work. -/
theorem Stands.mono (h : replica.Stands primary)
    (hlogs : primary'.nodeState = .waitReplicaFinishLog → primary.nodeState = .waitReplicaFinishLog)
    (hstill : replica.currentReq.isSome → ∀ state, primary.StillAt state → primary'.StillAt state)
    (hsent : ∀ reqid, reqid < primary.reqid ∨ primary.IsSent reqid →
      reqid < primary'.reqid ∨ primary'.IsSent reqid) : replica.Stands primary' := by
  have hnot : primary.nodeState ≠ .waitReplicaFinishLog →
      primary'.nodeState ≠ .waitReplicaFinishLog := mt hlogs
  unfold Stands at h ⊢
  cases hphase : replica.phase with
  | idle =>
    simp only [hphase] at h ⊢
    exact h.imp id (.imp id fun habort => ⟨habort.1, hnot habort.2⟩)
  | sawPrimary state =>
    simp only [hphase] at h ⊢
    rcases h with ⟨hstate, hcurrent, hsaw⟩ | ⟨hstate, hcurrent, hsaw⟩ | ⟨hstate, hlog, hsaw⟩
    · exact .inl ⟨hstate, hcurrent, fun hlog => hsaw (hlogs hlog)⟩
    · exact .inr (.inl ⟨hstate, hcurrent, hstill hcurrent state hsaw⟩)
    · exact .inr (.inr ⟨hstate, hnot hlog, fun hcurrent => hstill hcurrent state (hsaw hcurrent)⟩)
  | sawRequest reqdata states =>
    simp only [hphase] at h ⊢
    obtain ⟨hstate, hcurrent, hlog, hdata⟩ := h
    exact ⟨hstate, hcurrent, hnot hlog, fun reqid hmem => hsent reqid (hdata reqid hmem)⟩
  | began reqdata =>
    simp only [hphase] at h ⊢
    obtain ⟨hstate, hcurrent, hlog, hdata⟩ := h
    exact ⟨hstate, hcurrent, hnot hlog, fun reqid hmem => hsent reqid (hdata reqid hmem)⟩
  | processing =>
    simp only [hphase] at h ⊢
    exact ⟨h.1, h.2.1, hnot h.2.2⟩
  | askingAbort states =>
    simp only [hphase] at h ⊢
    exact ⟨h.1, hnot h.2⟩
  | aborting =>
    simp only [hphase] at h ⊢
    obtain ⟨hstate, hlog, habort⟩ := h
    refine ⟨hstate, hnot hlog, fun hcurrent => ?_⟩
    have hstands : primary.StillAt .waitReplicaAbort := ⟨by simp, fun _ => habort hcurrent⟩
    exact (hstill hcurrent _ hstands).2 rfl

section

variable (h : replica.Fits primary)
include h

theorem Fits.mono (hlogs : primary'.nodeState = .waitReplicaFinishLog →
      primary.nodeState = .waitReplicaFinishLog)
    (hstill : replica.currentReq.isSome → ∀ state, primary.StillAt state → primary'.StillAt state)
    (hcurrent : ∀ reqid ∈ replica.currentReq, primary.IsSent reqid → primary'.IsSent reqid)
    (hsent : ∀ reqid, reqid < primary.reqid ∨ primary.IsSent reqid →
      reqid < primary'.reqid ∨ primary'.IsSent reqid)
    (hexpected : replica.expectedLog primary' = replica.expectedLog primary)
    (haborted : ∀ reqid, reqid ∉ primary.log → reqid < primary.reqid ∨
        reqid = primary.reqid ∧ primary.nodeState = .waitReplicaAbort →
      reqid ∉ primary'.log ∧ (reqid < primary'.reqid ∨
        reqid = primary'.reqid ∧ primary'.nodeState = .waitReplicaAbort)) :
    replica.Fits primary' where
  stands := h.stands.mono hlogs hstill hsent
  current reqid hmem := hcurrent reqid hmem (h.current reqid hmem)
  taken := h.taken
  log := by rw [hexpected, h.log]
  aborted reqid hmem := haborted reqid (h.aborted reqid hmem).1 (h.aborted reqid hmem).2

/-- A primary that is where it was. -/
theorem Fits.of_same (hstate : primary'.nodeState = primary.nodeState)
    (hreqid : primary'.reqid = primary.reqid) (hlog : primary'.log = primary.log) :
    replica.Fits primary' := by
  have hsent : ∀ reqid, primary.IsSent reqid → primary'.IsSent reqid := by
    intro reqid hold
    rw [PrimaryNode.IsSent, hstate, hreqid]
    exact hold
  refine h.mono (by rw [hstate]; exact id) ?_ (fun reqid _ => hsent reqid) ?_ ?_ ?_
  · intro _ state hstill
    rw [PrimaryNode.StillAt, hstate]
    exact hstill
  · intro reqid hold
    rw [hreqid]
    exact hold.imp id (hsent reqid)
  · rw [expectedLog, expectedLog, hstate, hlog, hreqid]
  · intro reqid hnot hold
    rw [hlog, hreqid, hstate]
    exact ⟨hnot, hold⟩

/-- A primary that goes on while the replica has no request: to a request that it has not sent
yet, or to the next one. -/
theorem Fits.of_free (hfree : replica.currentReq = none)
    (hlogs : primary'.nodeState ≠ .waitReplicaFinishLog) (hreqid : primary'.reqid = primary.reqid ∧
        (primary.nodeState = .started ∨ primary.nodeState = .running) ∨
      primary'.reqid = primary.reqid + 1) (hexpected : replica.expectedLog primary = primary'.log)
    (haborted : ∀ reqid, reqid ∉ primary.log → reqid < primary.reqid ∨
        reqid = primary.reqid ∧ primary.nodeState = .waitReplicaAbort → reqid ∉ primary'.log) :
    replica.Fits primary' := by
  have hpast : ∀ reqid, reqid ≤ primary.reqid → primary'.reqid = primary.reqid + 1 →
      reqid < primary'.reqid := by
    intro reqid hle hnext
    omega
  refine h.mono (fun hlog => absurd hlog hlogs) ?_ ?_ ?_ ?_ ?_
  · simp [hfree]
  · simp [hfree]
  · intro reqid hold
    rcases hreqid with ⟨hsame, hstate⟩ | hnext
    · rw [hsame]
      exact .inl (hold.resolve_right (PrimaryNode.not_isSent hstate reqid))
    · rcases hold with hlt | hsent
      · exact .inl (hpast reqid hlt.le hnext)
      · exact .inl (hpast reqid hsent.1.le hnext)
  · rw [hexpected, expectedLog, if_neg fun hthrough => hlogs hthrough.1]
  · intro reqid hnot hold
    refine ⟨haborted reqid hnot hold, .inl ?_⟩
    rcases hreqid with ⟨hsame, hstate⟩ | hnext
    · rw [hsame]
      refine hold.resolve_right fun habort => ?_
      rcases hstate with hstate | hstate <;> simp [hstate] at habort
    · rcases hold with hlt | ⟨heq, -⟩
      · exact hpast reqid hlt.le hnext
      · exact hpast reqid heq.le hnext

/-- The abort of a request that the replicas may be at work on. -/
theorem Fits.of_abort (hstate : primary.nodeState = .waitReplicaFinishProcess)
    (hstate' : primary'.nodeState = .waitReplicaAbort) (hreqid : primary'.reqid = primary.reqid)
    (hlog : primary'.log = primary.log) : replica.Fits primary' := by
  have hsent : ∀ reqid, primary.IsSent reqid → primary'.IsSent reqid := fun reqid hold =>
    ⟨hold.1.trans hreqid.symm, .inr (.inr hstate')⟩
  refine h.mono (by simp [hstate']) ?_ (fun reqid _ => hsent reqid) ?_ ?_ ?_
  · intro _ state hstill
    refine ⟨fun hfinish => ?_, fun _ => hstate'⟩
    have := hstill.1 hfinish
    simp [hstate] at this
  · intro reqid hold
    rw [hreqid]
    exact hold.imp id (hsent reqid)
  · simp [expectedLog, hstate, hstate', hlog]
  · intro reqid hnot hold
    rw [hlog, hreqid]
    exact ⟨hnot, hold.imp id fun habort => ⟨habort.1, hstate'⟩⟩

/-- All replicas wait for the primary, which asks for the logs. -/
theorem Fits.of_waiting (hwait : replica.nodeState = .waitPrimary)
    (hstate : primary.nodeState = .waitReplicaFinishProcess)
    (hstate' : primary'.nodeState = .waitReplicaFinishLog)
    (hreqid : primary'.reqid = primary.reqid) (hlog : primary'.log = primary.log) :
    replica.Fits primary' where
  stands := by
    have hstands := h.stands
    unfold Stands at hstands ⊢
    cases hphase : replica.phase with
    | idle =>
      simp only [hphase, hwait] at hstands ⊢
      simpa using hstands
    | sawPrimary state =>
      simp only [hphase, hwait] at hstands ⊢
      have hsome : replica.currentReq.isSome ∧ primary.StillAt state := by simpa using hstands
      refine .inr (.inl ⟨trivial, hsome.1, fun _ => hstate', fun habort => ?_⟩)
      have := hsome.2.2 habort
      simp [hstate] at this
    | aborting =>
      simp only [hphase, hwait] at hstands
      simp [hstate] at hstands
      simp [hstands.2] at hstands
    | _ => simp [hphase, hwait] at hstands
  current reqid hmem := ⟨(h.current reqid hmem).1.trans hreqid.symm, .inr (.inl hstate')⟩
  taken := h.taken
  log := by
    rw [h.log]
    simp [expectedLog, hstate, hwait, hlog]
  aborted reqid hmem := by
    obtain ⟨hnot, hold⟩ := h.aborted reqid hmem
    rw [hlog, hreqid]
    exact ⟨hnot, .inl (hold.resolve_right (by simp [hstate]))⟩

end

end ReplicaNode

namespace ReplicaNode

variable {primary : PrimaryNode} {replica : ReplicaNode}

/-- What a replica can be found in, by its published state alone. -/
theorem Stands.nodeState_cases (h : replica.Stands primary) :
    replica.nodeState = .started ∨ replica.nodeState = .running ∨
      replica.nodeState = .waitPrimary ∨ replica.nodeState = .waitPrimaryAbort := by
  unfold Stands at h
  cases hphase : replica.phase <;> simp only [hphase] at h <;> tauto

/-- While the primary waits for the logs, a replica waits for it or is through. -/
theorem Stands.of_finishLog (h : replica.Stands primary)
    (hstate : primary.nodeState = .waitReplicaFinishLog) :
    replica.nodeState = .waitPrimary ∨ replica.nodeState = .started := by
  unfold Stands at h
  cases hphase : replica.phase <;> simp only [hphase] at h <;> tauto

theorem Stands.free (h : replica.Stands primary) (hstate : replica.nodeState = .started) :
    replica.currentReq = none := by
  unfold Stands at h
  cases hphase : replica.phase <;> simp only [hphase, hstate] at h <;> simp_all

/-- A replica that has the same requests as before and waits for no log. -/
theorem Fits.of_stands {replica' : ReplicaNode} (h : replica.Fits primary)
    (hstands : replica'.Stands primary) (hcurrent : replica'.currentReq = replica.currentReq)
    (htaken : replica'.taken = replica.taken) (hlog : replica'.log = replica.log)
    (haborted : replica'.aborted = replica.aborted)
    (hexpected : replica'.nodeState = replica.nodeState ∨
      primary.nodeState ≠ .waitReplicaFinishLog) : replica'.Fits primary where
  stands := hstands
  current := by
    rw [hcurrent]
    exact h.current
  taken := by
    rw [hcurrent, htaken, hlog, haborted]
    exact h.taken
  log := by
    rw [hlog, h.log, expectedLog, expectedLog]
    rcases hexpected with hsame | hnot
    · rw [hsame]
    · simp [hnot]
  aborted := by
    rw [haborted]
    exact h.aborted

theorem Fits.sawPrimary (h : replica.Fits primary) (hphase : replica.phase = .idle) :
    ({ replica with phase := .sawPrimary primary.nodeState } : ReplicaNode).Fits primary := by
  refine h.of_stands ?_ rfl rfl rfl rfl (.inl rfl)
  have hstands := h.stands
  have hstill : primary.StillAt primary.nodeState := ⟨id, id⟩
  simp only [Stands, hphase] at hstands ⊢
  rcases hstands with ⟨hstate, hcurrent⟩ | ⟨hstate, hcurrent⟩ | ⟨hstate, hlog⟩
  · exact .inl ⟨hstate, hcurrent, fun hlog => by simp [hlog]⟩
  · exact .inr (.inl ⟨hstate, hcurrent, hstill⟩)
  · exact .inr (.inr ⟨hstate, hlog, fun _ => hstill⟩)

/-- The end of a check that had no effect, but perhaps on the step. -/
theorem Fits.endCheck (h : replica.Fits primary)
    (hphase : (∃ state, replica.phase = .sawPrimary state) ∨
      ∃ reqdata states, replica.phase = .sawRequest reqdata states) (processingStep : ℕ) :
    ({ replica with processingStep, phase := .idle } : ReplicaNode).Fits primary := by
  refine h.of_stands ?_ rfl rfl rfl rfl (.inl rfl)
  have hstands := h.stands
  unfold Stands at hstands ⊢
  rcases hphase with ⟨state, hphase⟩ | ⟨reqdata, states, hphase⟩ <;>
    simp only [hphase] at hstands ⊢ <;> tauto

theorem Fits.sawRequest (h : replica.Fits primary) (hsound : primary.Sound)
    (hphase : replica.phase = .sawPrimary .waitReplicaFinishProcess)
    (hstate : replica.nodeState = .started) : ({ replica with
      processingStep := primary.nodeStep
      phase := .sawRequest primary.nodeReqdata [] } : ReplicaNode).Fits primary := by
  refine h.of_stands ?_ rfl rfl rfl rfl (.inl rfl)
  have hstands := h.stands
  simp only [Stands, hphase, hstate] at hstands ⊢
  have hfree : replica.currentReq = none ∧ primary.nodeState ≠ .waitReplicaFinishLog := by
    simpa using hstands
  exact ⟨trivial, hfree.1, hfree.2, fun reqid hmem => .inr (hsound.node reqid hmem)⟩

variable {states : List NodeStateType} {reqdata : Option ℕ}

section

variable (h : replica.Fits primary)
include h

theorem Fits.begin (hphase : replica.phase = .sawRequest reqdata states) :
    ({ replica.updateNodeStateToNewState .running with phase := .began reqdata } :
      ReplicaNode).Fits primary := by
  have hstands := h.stands
  simp only [Stands, hphase] at hstands
  obtain ⟨-, hcurrent, hlog, hdata⟩ := hstands
  exact h.of_stands ⟨rfl, hcurrent, hlog, hdata⟩ rfl rfl rfl rfl (.inr hlog)

/-- The replica gets a request that is before the replicas, or none. -/
theorem Fits.onRequestFromPrimary (hphase : replica.phase = .began reqdata)
    {packedReqdata : Option ℕ} (hsent : ∀ reqid ∈ packedReqdata, primary.IsSent reqid) :
    (replica.onRequestFromPrimary packedReqdata).Fits primary := by
  have hstands := h.stands
  simp only [Stands, hphase] at hstands
  obtain ⟨hstate, hcurrent, hlog, -⟩ := hstands
  cases packedReqdata with
  | none => exact h.of_stands ⟨hstate, hlog⟩ rfl rfl rfl rfl (.inl rfl)
  | some reqid =>
    refine ⟨⟨hstate, rfl, hlog⟩, hsent, ?_, h.log, h.aborted⟩
    intro reqid' hmem
    rcases List.mem_append.mp hmem with hmem | hmem
    · have hold := h.taken reqid' hmem
      rw [hcurrent] at hold
      rcases hold with hold | hold | hold
      · exact .inl hold
      · exact .inr (.inl hold)
      · simp at hold
    · rw [List.mem_singleton.mp hmem]
      exact .inr (.inr rfl)

theorem Fits.processLocalFinished (hphase : replica.phase = .processing) (finishsuccess : Bool) :
    (replica.processLocalFinished finishsuccess).Fits primary := by
  have hstands := h.stands
  simp only [Stands, hphase] at hstands
  obtain ⟨hstate, hcurrent, hlog⟩ := hstands
  cases finishsuccess with
  | true => exact h.of_stands (.inr (.inl ⟨rfl, hcurrent⟩)) rfl rfl rfl rfl (.inr hlog)
  | false => exact h.of_stands ⟨hstate, hlog⟩ rfl rfl rfl rfl (.inl rfl)

theorem Fits.abortRequest (hphase : replica.phase = .askingAbort states) :
    (replica.updateNodeStateToNewState .waitPrimaryAbort).Fits primary := by
  have hstands := h.stands
  simp only [Stands, hphase] at hstands
  exact h.of_stands (.inr (.inr ⟨rfl, hstands.2⟩)) rfl rfl rfl rfl (.inr hstands.2)

theorem Fits.startAbort (hphase : replica.phase = .sawPrimary .waitReplicaAbort)
    (hstate : replica.nodeState = .waitPrimary ∨ replica.nodeState = .waitPrimaryAbort) :
    ({ replica with phase := .aborting } : ReplicaNode).Fits primary := by
  refine h.of_stands ?_ rfl rfl rfl rfl (.inl rfl)
  have hstands := h.stands
  simp only [Stands, hphase] at hstands ⊢
  rcases hstands with ⟨hstarted, -⟩ | ⟨hwait, hcurrent, hstill⟩ | ⟨hwait, hlog, hstill⟩
  · simp [hstarted] at hstate
  · have habort : primary.nodeState = .waitReplicaAbort := hstill.2 rfl
    exact ⟨.inl ⟨hwait, hcurrent⟩, by simp [habort], fun _ => habort⟩
  · exact ⟨.inr hwait, hlog, fun hcurrent => (hstill hcurrent).2 rfl⟩

/-- The replica logs what the primary is about to log. -/
theorem Fits.writeLocalLog (hphase : replica.phase = .sawPrimary .waitReplicaFinishLog)
    (hstate : replica.nodeState = .waitPrimary) :
    (replica.writeLocalLog.updateNodeStateToNewState .started).Fits primary := by
  have hstands := h.stands
  simp only [Stands, hphase, hstate] at hstands
  have hwait : replica.currentReq.isSome ∧ primary.StillAt .waitReplicaFinishLog := by
    simpa using hstands
  obtain ⟨reqid, hcurrent⟩ := Option.isSome_iff_exists.mp hwait.1
  have hfinish : primary.nodeState = .waitReplicaFinishLog := hwait.2.1 rfl
  have hreqid : reqid = primary.reqid := (h.current reqid hcurrent).1
  have hlog : replica.log = primary.log := by
    rw [h.log]
    simp [expectedLog, hstate]
  refine ⟨.inl ⟨rfl, rfl⟩, by simp [updateNodeStateToNewState, ReplicaNode.writeLocalLog], ?_, ?_,
    h.aborted⟩
  · intro reqid' hmem
    simp only [updateNodeStateToNewState, ReplicaNode.writeLocalLog, hcurrent]
    rcases h.taken reqid' hmem with hold | hold | hold
    · exact .inl (List.mem_append_left _ hold)
    · exact .inr (.inl hold)
    · rw [hcurrent] at hold
      exact .inl (by simp [Option.some.inj hold])
  · simp [updateNodeStateToNewState, ReplicaNode.writeLocalLog, expectedLog, hcurrent, hfinish,
      hlog, hreqid]

theorem Fits.finishAborted (hsound : primary.Sound) (hphase : replica.phase = .aborting) :
    (replica.finishAborted.updateNodeStateToNewState .started).Fits primary := by
  have hstands := h.stands
  simp only [Stands, hphase] at hstands
  obtain ⟨-, hlog, habort⟩ := hstands
  refine ⟨.inl ⟨rfl, rfl⟩, by simp [updateNodeStateToNewState, ReplicaNode.finishAborted], ?_, ?_,
    ?_⟩
  · intro reqid hmem
    simp only [updateNodeStateToNewState, ReplicaNode.finishAborted]
    rcases h.taken reqid hmem with hold | hold | hold
    · exact .inl hold
    · exact .inr (.inl (List.mem_append_left _ hold))
    · exact .inr (.inl (by simp [hold]))
  · have hold := h.log
    simpa [updateNodeStateToNewState, ReplicaNode.finishAborted, expectedLog, hlog] using hold
  · intro reqid hmem
    rcases List.mem_append.mp hmem with hmem | hmem
    · exact h.aborted reqid hmem
    · have hcurrent : replica.currentReq = some reqid := by simpa using hmem
      obtain ⟨rfl, -⟩ := h.current reqid hcurrent
      exact ⟨fun hmem => lt_irrefl _ (hsound.log _ hmem), .inr ⟨rfl, habort (by simp [hcurrent])⟩⟩

end

end ReplicaNode

end AdDelivery.NodeManager
