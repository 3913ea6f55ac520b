import AdDelivery.Core.Run
import AdDelivery.NodeManager.WriteInvariant

/-!
# Agreement on the replicated writes

A replica takes up a request on a state of the primary that it read before, and the primary ends
an abort on states of the replicas that it read before. Where neither of the two reads is out of
date in a way that matters, all nodes log the same requests; otherwise a replica works on a request
that its primary has aborted, and logs it with the next one.
-/

namespace AdDelivery.NodeManager

open List Option PrimaryNode Nat ReplicaNode

namespace WriteWorld

variable {n : ℕ} (w : WriteWorld n)

/-- What a node has logged: the primary, or a replica. -/
def log : Option (Fin n) → List ℕ
  | none => w.primary.log
  | some i => (w.replicas i).log

def aborted : Option (Fin n) → List ℕ
  | none => w.primary.aborted
  | some i => (w.replicas i).aborted

/-- What the protocol is for: no request is logged by one node and aborted by another; a request
that the primary is through with is logged or aborted on every replica that took it; when the
primary is ready again, all logs are equal. -/
structure Agreement (w : WriteWorld n) : Prop where
  notAborted : ∀ node node', ∀ reqid ∈ w.log node, reqid ∉ w.aborted node'
  finished : ∀ i, ∀ reqid < w.primary.reqid, (w.replicas i).currentReq ≠ some reqid ∧
    (reqid ∈ (w.replicas i).taken → reqid ∈ (w.replicas i).log ∨ reqid ∈ (w.replicas i).aborted)
  logs : w.primary.nodeState = .started → ∀ i, (w.replicas i).log = w.primary.log

/-- The reads are recent enough: a replica does not take a request that its primary is through
with, and no replica has taken the request by the time the primary ends its abort. -/
def StepOk (w : WriteWorld n) : WriteEvent n → Prop
  | .replicaGetsRequest i answered =>
    ∀ reqdata, (w.replicas i).phase = .began reqdata →
      ∀ reqid ∈ w.getCurrentRunningReqLog answered reqdata, w.primary.reqid ≤ reqid
  | .primaryActs =>
    w.primary.phase = .aborting → ∀ i, (w.replicas i).currentReq ≠ some w.primary.reqid
  | _ => True

end WriteWorld

open WriteWorld

section Agreement

variable {n : ℕ} {w : WriteWorld n} {primary : PrimaryNode}

theorem PrimaryNode.IsSent.reqid_not_lt {reqid : ℕ} (h : primary.IsSent reqid) :
    ¬reqid < primary.reqid := by
  rw [h.1]
  exact lt_irrefl _

theorem ReplicaNode.Fits.reqid_of_mem_log {replica : ReplicaNode} (h : replica.Fits primary)
    {reqid : ℕ} (hmem : reqid ∈ replica.log) : reqid ∈ primary.log ∨
      reqid = primary.reqid ∧ primary.nodeState = .waitReplicaFinishLog := by
  rw [h.log, expectedLog] at hmem
  split_ifs at hmem with hthrough
  · rcases mem_append.mp hmem with hmem | hmem
    · exact .inl hmem
    · exact .inr ⟨mem_singleton.mp hmem, hthrough.1⟩
  · exact .inl hmem

namespace WriteWorld.Sound

variable (h : w.Sound)
include h

variable (node : Option (Fin n))

/-- What a node has logged is logged by the primary, or about to be. -/
theorem logged {reqid : ℕ} (hmem : reqid ∈ w.log node) : reqid ∈ w.primary.log ∨
      reqid = w.primary.reqid ∧ w.primary.nodeState = .waitReplicaFinishLog := by
  cases node with
  | none => exact .inl hmem
  | some i => exact (h.fits i).reqid_of_mem_log hmem

/-- What a node has aborted is not logged by the primary, and the primary is through with it or
aborts it as well. -/
theorem not_logged {reqid : ℕ} (hmem : reqid ∈ w.aborted node) :
    reqid ∉ w.primary.log ∧ (reqid < w.primary.reqid ∨
      reqid = w.primary.reqid ∧ w.primary.nodeState = .waitReplicaAbort) := by
  cases node with
  | none =>
    obtain ⟨hlt, hlog⟩ := h.primary.aborted reqid hmem
    exact ⟨hlog, .inl hlt⟩
  | some i => exact (h.fits i).aborted reqid hmem

theorem agreement : w.Agreement where
  notAborted := by
    intro node node' reqid hlogged haborted
    obtain ⟨hlog, hthrough⟩ := h.not_logged node' haborted
    rcases h.logged node hlogged with hmem | ⟨rfl, hstate⟩
    · exact hlog hmem
    · rcases hthrough with hlt | ⟨-, hstate'⟩
      · exact lt_irrefl _ hlt
      · rw [hstate] at hstate'
        exact NodeStateType.noConfusion hstate'
  finished := by
    intro i reqid hlt
    have hcurrent : (w.replicas i).currentReq ≠ some reqid := fun heq =>
      ((h.fits i).current reqid heq).reqid_not_lt hlt
    refine ⟨hcurrent, fun htaken => ?_⟩
    rcases (h.fits i).taken reqid htaken with hlog | haborted | heq
    · exact .inl hlog
    · exact .inr haborted
    · exact absurd heq hcurrent
  logs := by
    intro hstarted i
    rw [(h.fits i).log, expectedLog]
    rw [hstarted]
    simp

end WriteWorld.Sound

end Agreement

namespace WriteWorld

variable {n : ℕ} {w w' : WriteWorld n}

/-- A primary that is not reading the states of its replicas. -/
theorem sound_of_phase (hprimary : w.primary.Sound)
    (hphase : ∀ selfChanged states, w.primary.phase ≠ .checking selfChanged states)
    (hfits : ∀ i, (w.replicas i).Fits w.primary) : w.Sound where
  primary := hprimary
  fits := hfits
  reads := fun _ selfChanged states _ h => absurd h (hphase selfChanged states)
  length := fun selfChanged states h => absurd h (hphase selfChanged states)

namespace Sound

section

variable (h : w.Sound)
include h

theorem free (hstate : w.primary.nodeState = .started ∨ w.primary.nodeState = .running)
    (i : Fin n) : (w.replicas i).currentReq = none := by
  by_contra hcurrent
  obtain ⟨reqid, hcurrent⟩ := ne_none_iff_exists'.mp hcurrent
  exact not_isSent hstate reqid ((h.fits i).current reqid hcurrent)

/-! ### Steps of the primary -/

/-- A primary that publishes its old state, and perhaps a new step. -/
theorem updateSelfPrimaryNodeState (selfChanged : Bool) (processingStep : ℕ)
    (hstep : w.primary.nodeState = .running → processingStep = 0)
    (hstarted : w.primary.nodeState ≠ .started) : (w.updateSelfPrimaryNodeState selfChanged
      { w.primary with processingStep, phase := .idle }).Sound := by
  have hsound : ({ w.primary with processingStep, phase := .idle } : PrimaryNode).Sound :=
    { log := h.primary.log
      aborted := h.primary.aborted
      saved := h.primary.saved
      node := h.primary.node
      step := fun hstate => hstep (hstate.resolve_left hstarted)
      aborting := by simp
      busy := by simp }
  unfold WriteWorld.updateSelfPrimaryNodeState
  split
  · exact sound_of_phase hsound (by simp) fun i => (h.fits i).of_same rfl rfl rfl
  · refine sound_of_phase ?_ ?_ fun i => (h.fits i).of_same ?_ ?_ ?_
    · exact sound_setSf1rNodeData hsound.log hsound.aborted
        (fun _ => hsound.saved) (fun _ _ => hsound.node) hstep rfl
    all_goals simp [publishPrimary]

/-- While no replica has a request and none is about to be logged, the primary may go on to a
request that it has not sent yet, or to the next one. -/
theorem publishFree {primary : PrimaryNode} (hsound : primary.Sound)
    (hidle : primary.phase = .idle) (hfree : ∀ i, (w.replicas i).currentReq = none)
    (hold : w.primary.nodeState ≠ .waitReplicaFinishLog)
    (hnew : primary.nodeState ≠ .waitReplicaFinishLog) (hreqid : primary.reqid = w.primary.reqid ∧
        (w.primary.nodeState = .started ∨ w.primary.nodeState = .running) ∨
      primary.reqid = w.primary.reqid + 1) (hlog : primary.log = w.primary.log) :
    (w.publishPrimary primary).Sound := by
  refine sound_of_phase hsound ?_ fun i => (h.fits i).of_free (hfree i) hnew hreqid ?_ ?_
  · simp [publishPrimary, hidle]
  · simp [publishPrimary, expectedLog, hold, hlog]
  · intro reqid hnot _
    simpa [publishPrimary, hlog] using hnot

theorem beginReqProcess (hstep : w.beginReqProcess = some w') : w'.Sound := by
  unfold WriteWorld.beginReqProcess at hstep
  split_ifs at hstep with hstate
  cases hstep
  have hsound : (w.primary.updateNodeStateToNewState .running).Sound :=
    h.primary.updateNodeStateToNewState
      (fun reqid hsent => absurd hsent (not_isSent (.inl hstate) reqid))
      fun _ => h.primary.step (.inl hstate)
  exact h.publishFree hsound (by simp) (h.free (.inl hstate)) (by simp [hstate]) (by simp)
    (.inl ⟨by simp, .inl hstate⟩) (by simp)

/-- The request ends on the primary, which nobody else has seen. -/
theorem primaryFinished {outcome : LocalOutcome} (hstep : w.primaryFinished outcome = some w') :
    w'.Sound := by
  unfold WriteWorld.primaryFinished at hstep
  split_ifs at hstep with hstate
  cases hstep
  have hfree := h.free (.inr hstate)
  have hsent := not_isSent (.inr hstate)
  have hold : w.primary.nodeState ≠ .waitReplicaFinishLog := by simp [hstate]
  cases outcome with
  | finished slowWrite small =>
    have hidle : w.primary.phase = .idle := by
      by_contra hbusy
      exact (h.primary.busy hbusy).2 hstate
    have hsound : (w.primary.finishLocalReqProcess slowWrite small).Sound := by
      refine sound_setSf1rNodeData h.primary.log h.primary.aborted ?_ ?_ (by simp)
        hidle
      · intro _ reqid hmem
        exact ⟨(some.inj hmem).symm, .inl rfl⟩
      · intro _ _ reqid hmem
        exact absurd (h.primary.node reqid hmem) (hsent reqid)
    exact h.publishFree hsound (by simp [hidle]) hfree hold (by simp)
      (.inl ⟨by simp, .inr hstate⟩) (by simp)
  | failed =>
    have hsound : (w.primary.updateNodeStateToNewState .waitReplicaAbort).Sound :=
      h.primary.updateNodeStateToNewState (fun reqid hmem => absurd hmem (hsent reqid)) (by simp)
    exact h.publishFree hsound (by simp) hfree hold (by simp) (.inl ⟨by simp, .inr hstate⟩)
      (by simp)
  | failedBeforePrepare =>
    have hsound : w.primary.restart.Sound := by
      refine sound_restart ?_ ?_
      · exact fun reqid hmem => (h.primary.log reqid hmem).trans (lt_succ_self _)
      · intro reqid hmem
        obtain ⟨hlt, hnot⟩ := h.primary.aborted reqid hmem
        exact ⟨hlt.trans (lt_succ_self _), hnot⟩
    exact h.publishFree hsound (by simp) hfree hold (by simp) (.inr (by simp)) (by simp)

theorem primaryDataChanged {selfChanged : Bool}
    (hstep : w.primaryDataChanged selfChanged = some w') : w'.Sound := by
  unfold WriteWorld.primaryDataChanged at hstep
  split_ifs at hstep
  cases hphase : w.primary.phase <;> simp only [hphase] at hstep
  · split_ifs at hstep with hstate
    · cases hstep
      refine ⟨?_, fun i => (h.fits i).of_same rfl rfl rfl, fun i => ?_, ?_⟩
      · refine h.primary.setPhase (by simp) fun _ => ?_
        rcases hstate with hstate | hstate | hstate <;> simp [hstate]
      · intro selfChanged' states state hchecking hget
        cases hchecking
        simp at hget
      · intro selfChanged' states hchecking
        cases hchecking
        exact zero_le _
    · cases hstep
      exact ⟨h.primary, h.fits, h.reads, h.length⟩
  · simp at hstep
  · simp at hstep
  · cases hstep
    exact ⟨h.primary, h.fits, h.reads, h.length⟩

theorem primaryReads (hstep : w.primaryReads = some w') : w'.Sound := by
  unfold WriteWorld.primaryReads at hstep
  cases hphase : w.primary.phase with
  | idle => simp [hphase] at hstep
  | aborting => simp [hphase] at hstep
  | checkingStep selfChanged states =>
    simp only [hphase, map_eq_some_iff] at hstep
    obtain ⟨state, -, rfl⟩ := hstep
    exact sound_of_phase
      (h.primary.setPhase (by simp) fun _ => h.primary.busy (by simp [hphase])) (by simp)
      fun i => (h.fits i).of_same rfl rfl rfl
  | checking selfChanged states =>
    simp only [hphase, map_eq_some_iff] at hstep
    obtain ⟨state, hread, rfl⟩ := hstep
    obtain ⟨hnext, hread⟩ : ∃ hnext, (w.replicas ⟨states.length, hnext⟩).nodeState = state := by
      rw [nextState] at hread
      split_ifs at hread with hnext
      exact ⟨hnext, some.inj hread⟩
    refine ⟨h.primary.setPhase (by simp) fun _ => h.primary.busy (by simp [hphase]),
      fun i => (h.fits i).of_same rfl rfl rfl, fun i => ?_, ?_⟩
    swap
    · intro selfChanged' states' hchecking
      cases hchecking
      rw [length_append]
      exact hnext
    intro selfChanged' states' state' hchecking hget
    cases hchecking
    rcases lt_or_ge i.val states.length with hlt | hge
    · rw [getElem?_append_left hlt] at hget
      exact h.reads i selfChanged states state' hphase hget
    · -- the state read last is the one that the replica has now
      obtain ⟨hlength, rfl⟩ : i.val = states.length ∧ state' = state := by
        rw [getElem?_append_right hge] at hget
        have hlt : i.val - states.length < 1 := by
          simpa using (List.getElem?_eq_some_iff.mp hget).1
        have hlength : i.val = states.length := by omega
        rw [hlength, Nat.sub_self] at hget
        exact ⟨hlength, (Option.some.inj hget).symm⟩
      have hstate : (w.replicas i).nodeState = state' := by
        have heq : i = ⟨states.length, hnext⟩ := Fin.ext hlength
        rw [heq]
        exact hread
      have hstands := (h.fits i).stands
      refine ⟨fun _ => ?_, fun hfinish => ?_⟩
      · rcases hstands.nodeState_cases with hcase | hcase | hcase | hcase <;>
          simp [← hstate, hcase]
      · rcases hstands.of_finishLog hfinish with hcase | hcase <;> simp [← hstate, hcase]

end

variable {states : List NodeStateType}

/-- What a check of all replicas has read of each of them. -/
theorem state_of_check (hall : ¬states.length < n) (i : Fin n) :
    ∃ state, states[i.val]? = some state ∧ state ∈ states := by
  have hlt : i.val < states.length := i.isLt.trans_le (not_lt.mp hall)
  exact ⟨states[i.val], getElem?_eq_getElem hlt, getElem_mem hlt⟩

section Check

variable {selfChanged : Bool} {states : List NodeStateType} (h : w.Sound)
  (hphase : w.primary.phase = .checking selfChanged states) (hall : ¬states.length < n)
include h hphase hall

theorem waitPrimary_of_ready (hstate : w.primary.nodeState = .waitReplicaFinishProcess)
    (hready : checkSecondaryReqProcess states = .ready) (i : Fin n) :
    (w.replicas i).nodeState = .waitPrimary := by
  obtain ⟨state, hget, hmem⟩ := state_of_check hall i
  obtain ⟨hunfinished, haborted⟩ := checkSecondary_ready hready state hmem
  rcases (h.reads i selfChanged states state hphase hget).1 hstate with
    rfl | rfl | rfl | ⟨-, hwait⟩
  · simp at hunfinished
  · simp at hunfinished
  · simp at haborted
  · exact hwait

theorem started_of_ready (hstate : w.primary.nodeState = .waitReplicaFinishLog)
    (hready : checkSecondaryReqFinishLog states = .ready) (i : Fin n) :
    (w.replicas i).nodeState = .started := by
  obtain ⟨state, hget, hmem⟩ := state_of_check hall i
  obtain ⟨hunfinished, -⟩ := checkSecondary_ready hready state hmem
  rcases (h.reads i selfChanged states state hphase hget).2 hstate with rfl | ⟨-, hstarted⟩
  · simp at hunfinished
  · exact hstarted

omit hall in
/-- While the primary waits for the logs, no replica asks for an abort. -/
theorem not_abort (hstate : w.primary.nodeState = .waitReplicaFinishLog) :
    checkSecondaryReqFinishLog states ≠ .abort := by
  intro habort
  obtain ⟨state, hmem, haborted⟩ := checkSecondary_abort habort
  obtain ⟨i, hi, hget⟩ := mem_iff_getElem.mp hmem
  have hlt : i < n := hi.trans_le (h.length selfChanged states hphase)
  have hget' : states[(⟨i, hlt⟩ : Fin n).val]? = some state := by
    rw [← hget]
    exact getElem?_eq_getElem hi
  rcases (h.reads ⟨i, hlt⟩ selfChanged states state hphase hget').2 hstate with
    rfl | ⟨rfl, -⟩ <;> simp at haborted

end Check

/-- All replicas have processed the request. -/
theorem finishLog (h : w.Sound) (hstate : w.primary.nodeState = .waitReplicaFinishProcess)
    (hwait : ∀ i, (w.replicas i).nodeState = .waitPrimary) :
    (w.publishPrimary (w.primary.updateNodeStateToNewState .waitReplicaFinishLog)).Sound := by
  refine sound_of_phase ?_ (by simp [publishPrimary]) fun i =>
    (h.fits i).of_waiting (hwait i) hstate ?_ ?_ ?_
  · exact h.primary.updateNodeStateToNewState (fun _ _ => .inr (.inl rfl)) (by simp)
  all_goals simp [publishPrimary]

/-- A replica has failed to process the request. -/
theorem startAbort (h : w.Sound) (hstate : w.primary.nodeState = .waitReplicaFinishProcess)
    (selfChanged : Bool) :
    (w.publishPrimary { w.primary.updateNodeStateToNewState .waitReplicaAbort with
      phase := .checkingStep selfChanged [] }).Sound := by
  have hsound : (w.primary.updateNodeStateToNewState .waitReplicaAbort).Sound :=
    h.primary.updateNodeStateToNewState (fun _ _ => .inr (.inr rfl)) (by simp)
  refine sound_of_phase ?_ (by simp [publishPrimary]) fun i =>
    (h.fits i).of_abort hstate ?_ ?_ ?_
  · exact hsound.setPhase (by simp) (by simp)
  all_goals simp [publishPrimary]

/-- All nodes have logged the request. -/
theorem finishedLog (h : w.Sound) (hstate : w.primary.nodeState = .waitReplicaFinishLog)
    (hstarted : ∀ i, (w.replicas i).nodeState = .started) :
    (w.publishPrimary w.primary.writeLocalLog.restart).Sound := by
  refine sound_of_phase ?_ (by simp [publishPrimary]) fun i =>
    (h.fits i).of_free ((h.fits i).stands.free (hstarted i)) ?_ (.inr ?_) ?_ ?_
  · refine sound_restart ?_ ?_
    · intro reqid hmem
      rcases mem_append.mp hmem with hmem | hmem
      · exact (h.primary.log reqid hmem).trans (lt_succ_self _)
      · rw [mem_singleton.mp hmem]
        exact lt_succ_self _
    · intro reqid hmem
      obtain ⟨hlt, hnot⟩ := h.primary.aborted reqid hmem
      refine ⟨hlt.trans (lt_succ_self _), fun hlog => ?_⟩
      rcases mem_append.mp hlog with hlog | hlog
      · exact hnot hlog
      · exact hlt.ne (mem_singleton.mp hlog)
  · simp [publishPrimary]
  · simp [publishPrimary, PrimaryNode.writeLocalLog]
  · simp [publishPrimary, PrimaryNode.writeLocalLog, expectedLog, hstate, hstarted i]
  · intro reqid hnot hold
    have hlt : reqid < w.primary.reqid := hold.resolve_right (by simp [hstate])
    simpa [publishPrimary, PrimaryNode.writeLocalLog] using ⟨hnot, hlt.ne⟩

/-- The abort ends while no replica is at work on the request. -/
theorem finishedAbort (h : w.Sound) (hphase : w.primary.phase = .aborting)
    (hfree : ∀ i, (w.replicas i).currentReq ≠ some w.primary.reqid) :
    (w.publishPrimary w.primary.finishAborted.restart).Sound := by
  have hstate : w.primary.nodeState = .waitReplicaAbort := h.primary.aborting hphase
  have hnone : ∀ i, (w.replicas i).currentReq = none := by
    intro i
    by_contra hcurrent
    obtain ⟨reqid, hcurrent⟩ := ne_none_iff_exists'.mp hcurrent
    have hreqid : reqid = w.primary.reqid := ((h.fits i).current reqid hcurrent).1
    exact hfree i (hreqid ▸ hcurrent)
  have hsound : w.primary.finishAborted.restart.Sound := by
    refine sound_restart ?_ ?_
    · exact fun reqid hmem => (h.primary.log reqid hmem).trans (lt_succ_self _)
    · intro reqid hmem
      rcases mem_append.mp hmem with hmem | hmem
      · obtain ⟨hlt, hnot⟩ := h.primary.aborted reqid hmem
        exact ⟨hlt.trans (lt_succ_self _), hnot⟩
      · rw [mem_singleton.mp hmem]
        exact ⟨lt_succ_self _, fun hlog => lt_irrefl _ (h.primary.log _ hlog)⟩
  exact h.publishFree hsound (by simp) hnone (by simp [hstate]) (by simp)
    (.inr (by simp [PrimaryNode.finishAborted])) (by simp [PrimaryNode.finishAborted])

theorem checkSecondaryState (h : w.Sound) {selfChanged : Bool}
    (hphase : w.primary.phase = .checking selfChanged states) (hall : ¬states.length < n)
    (hstep : w.checkSecondaryState selfChanged states = some w') : w'.Sound := by
  unfold WriteWorld.checkSecondaryState at hstep
  have hbusy : w.primary.phase ≠ .idle := by simp [hphase]
  split at hstep
  case h_1 hstate =>
    cases hcheck : checkSecondaryReqProcess states <;> simp only [hcheck] at hstep <;> cases hstep
    · exact h.finishLog hstate (h.waitPrimary_of_ready hphase hall hstate hcheck)
    · exact sound_of_phase (h.primary.setPhase (by simp) fun _ => h.primary.busy hbusy) (by simp)
        fun i => (h.fits i).of_same rfl rfl rfl
    · exact h.startAbort hstate selfChanged
  case h_2 hstate =>
    cases hcheck : checkSecondaryReqFinishLog states <;> simp only [hcheck] at hstep <;>
      cases hstep
    · exact h.finishedLog hstate (h.started_of_ready hphase hall hstate hcheck)
    · exact h.updateSelfPrimaryNodeState selfChanged _ (by simp [hstate]) (by simp [hstate])
    · exact absurd hcheck (h.not_abort hphase hstate)
  case h_3 hstate =>
    cases hcheck : checkSecondaryReqAbort states <;> simp only [hcheck] at hstep <;> cases hstep
    · exact sound_of_phase
        (h.primary.setPhase (fun _ => hstate) fun _ => h.primary.busy hbusy) (by simp)
        fun i => (h.fits i).of_same rfl rfl rfl
    all_goals
      exact h.updateSelfPrimaryNodeState selfChanged _ (by simp [hstate]) (by simp [hstate])
  case h_4 => simp at hstep

theorem primaryActs (h : w.Sound) (hok : w.StepOk .primaryActs)
    (hstep : w.primaryActs = some w') : w'.Sound := by
  unfold WriteWorld.primaryActs at hstep
  cases hphase : w.primary.phase with
  | idle => simp [hphase] at hstep
  | aborting =>
    simp only [hphase] at hstep
    cases hstep
    exact h.finishedAbort hphase (hok hphase)
  | checking selfChanged states =>
    simp only [hphase] at hstep
    split_ifs at hstep with hall
    exact h.checkSecondaryState hphase hall hstep
  | checkingStep selfChanged states =>
    simp only [hphase] at hstep
    split_ifs at hstep with hall
    cases hstep
    have hbusy := h.primary.busy (by simp [hphase])
    exact h.updateSelfPrimaryNodeState selfChanged _ (fun hrunning => absurd hrunning hbusy.2)
      hbusy.1

/-! ### Steps of a replica -/

section Replica

variable {i : Fin n} {replica : ReplicaNode}

/-- One replica moves. If it waits for the primary while the requests are processed, it stays;
if it is through while the logs are written, it stays as well. -/
theorem setReplica (h : w.Sound) (hfits : replica.Fits w.primary)
    (hwait : w.primary.nodeState = .waitReplicaFinishProcess →
      (w.replicas i).nodeState = .waitPrimary → replica.nodeState = .waitPrimary)
    (hthrough : w.primary.nodeState = .waitReplicaFinishLog →
      (w.replicas i).nodeState = .started → replica.nodeState = .started) :
    (w.setReplica i replica).Sound := by
  have hreplica : ∀ j, (w.setReplica i replica).replicas j =
      if j = i then replica else w.replicas j := by
    intro j
    exact Function.update_apply w.replicas i replica j
  refine ⟨h.primary, fun j => ?_, fun j => ?_, h.length⟩
  · rw [hreplica]
    split_ifs
    · exact hfits
    · exact h.fits j
  · rw [hreplica]
    split_ifs with heq
    · subst heq
      intro selfChanged states state hphase hget
      obtain ⟨hprocess, hlog⟩ := h.reads j selfChanged states state hphase hget
      refine ⟨fun hstate => ?_, fun hstate => ?_⟩
      · refine (hprocess hstate).imp id (.imp id (.imp id ?_))
        exact fun hboth => ⟨hboth.1, hwait hstate hboth.2⟩
      · exact (hlog hstate).imp id fun hboth => ⟨hboth.1, hthrough hstate hboth.2⟩
    · exact h.reads j

theorem publishReplica (h : (w.setReplica i replica).Sound) : (w.publishReplica i replica).Sound :=
  ⟨h.primary, h.fits, h.reads, h.length⟩

/-- The replica keeps its state. -/
theorem setReplica_of_same (h : w.Sound) (hfits : replica.Fits w.primary)
    (hsame : replica.nodeState = (w.replicas i).nodeState) : (w.setReplica i replica).Sound :=
  h.setReplica hfits (fun _ hstate => hsame.trans hstate) fun _ hstate => hsame.trans hstate

/-- The replica was at work. -/
theorem setReplica_of_running (h : w.Sound) (hfits : replica.Fits w.primary)
    (hrunning : (w.replicas i).nodeState = .running) : (w.setReplica i replica).Sound :=
  h.setReplica hfits (by simp [hrunning]) (by simp [hrunning])

theorem replicaDataChanged (h : w.Sound) (hstep : w.replicaDataChanged i = some w') : w'.Sound := by
  unfold WriteWorld.replicaDataChanged at hstep
  split_ifs at hstep
  have hsame : ({ w with
      replicaNotified := Function.update w.replicaNotified i false } : WriteWorld n).Sound :=
    ⟨h.primary, h.fits, h.reads, h.length⟩
  dsimp only at hstep
  split at hstep <;> cases hstep
  case h_1 hphase => exact hsame.setReplica_of_same ((h.fits i).sawPrimary hphase) rfl
  all_goals exact hsame

theorem replicaReads (h : w.Sound) (hstep : w.replicaReads i = some w') : w'.Sound := by
  unfold WriteWorld.replicaReads at hstep
  have hstands := (h.fits i).stands
  split at hstep
  case h_1 reqdata states hphase =>
    obtain ⟨state, -, rfl⟩ := map_eq_some_iff.mp hstep
    refine h.setReplica_of_same ((h.fits i).of_stands ?_ rfl rfl rfl rfl (.inl rfl)) rfl
    simpa only [Stands, hphase] using hstands
  case h_2 states hphase =>
    obtain ⟨state, -, rfl⟩ := map_eq_some_iff.mp hstep
    refine h.setReplica_of_same ((h.fits i).of_stands ?_ rfl rfl rfl rfl (.inl rfl)) rfl
    simpa only [Stands, hphase] using hstands
  case h_3 => simp at hstep

section Check

variable {primaryState : NodeStateType}

section

variable (h : w.Sound) (hphase : (w.replicas i).phase = .sawPrimary primaryState)
include h hphase

theorem endCheck : (w.setReplica i (w.replicas i).endCheck).Sound :=
  h.setReplica_of_same ((h.fits i).endCheck (.inl ⟨_, hphase⟩) _) rfl

theorem checkPrimaryForStartNewWrite (hstate : (w.replicas i).nodeState = .started) :
    (w.checkPrimaryForStartNewWrite i primaryState).Sound := by
  unfold WriteWorld.checkPrimaryForStartNewWrite
  split_ifs with hprimary
  · rw [hprimary] at hphase
    exact h.setReplica_of_same ((h.fits i).sawRequest h.primary hphase hstate) rfl
  · exact h.endCheck hphase

theorem checkPrimaryForFinishWrite (hstate : (w.replicas i).nodeState = .waitPrimary) :
    (w.checkPrimaryForFinishWrite i primaryState).Sound := by
  unfold WriteWorld.checkPrimaryForFinishWrite
  split
  · -- the replica has seen that the primary asks for the logs, which it still does
    have hfinish : w.primary.nodeState = .waitReplicaFinishLog := by
      have hstands := (h.fits i).stands
      simp only [Stands, hphase, hstate] at hstands
      have hstill : (w.replicas i).currentReq.isSome ∧
          w.primary.StillAt .waitReplicaFinishLog := by simpa using hstands
      exact hstill.2.1 rfl
    exact publishReplica (h.setReplica ((h.fits i).writeLocalLog hphase hstate)
      (by simp [hfinish]) fun _ _ => rfl)
  · exact h.setReplica_of_same ((h.fits i).startAbort hphase (.inl hstate)) rfl
  · dsimp only
    split_ifs
    · exact h.endCheck hphase
    · exact publishReplica
        (h.setReplica_of_same ((h.fits i).endCheck (.inl ⟨_, hphase⟩) _) rfl)
    · exact h.setReplica_of_same ((h.fits i).endCheck (.inl ⟨_, hphase⟩) _) rfl
  · exact h.endCheck hphase

theorem checkPrimaryForAbortWrite (hstate : (w.replicas i).nodeState = .waitPrimaryAbort) :
    (w.checkPrimaryForAbortWrite i primaryState).Sound := by
  unfold WriteWorld.checkPrimaryForAbortWrite
  split_ifs with habort
  · rw [habort] at hphase
    exact h.setReplica_of_same ((h.fits i).startAbort hphase (.inr hstate)) rfl
  · exact h.endCheck hphase

theorem checkPrimaryState : (w.checkPrimaryState i primaryState).Sound := by
  unfold WriteWorld.checkPrimaryState
  split
  · exact h.checkPrimaryForFinishWrite hphase ‹_›
  · exact h.checkPrimaryForAbortWrite hphase ‹_›
  · exact h.checkPrimaryForStartNewWrite hphase ‹_›
  · exact h.endCheck hphase

end

end Check

theorem startNewWrite (h : w.Sound) {reqdata : Option ℕ} {states : List NodeStateType}
    (hphase : (w.replicas i).phase = .sawRequest reqdata states)
    (hstep : w.startNewWrite i reqdata states = some w') : w'.Sound := by
  have hstands := (h.fits i).stands
  simp only [Stands, hphase] at hstands
  obtain ⟨hstarted, -, hlog, -⟩ := hstands
  unfold WriteWorld.startNewWrite at hstep
  dsimp only at hstep
  split_ifs at hstep <;> cases hstep
  · exact h.setReplica_of_same ((h.fits i).endCheck (.inr ⟨_, _, hphase⟩) _) rfl
  · exact publishReplica (h.setReplica ((h.fits i).begin hphase) (by simp [hstarted])
      fun hfinish => absurd hfinish hlog)

theorem replicaActs (h : w.Sound) (hstep : w.replicaActs i = some w') : w'.Sound := by
  have hstands := (h.fits i).stands
  unfold WriteWorld.replicaActs at hstep
  split at hstep
  case h_1 primaryState hphase =>
    cases hstep
    exact h.checkPrimaryState hphase
  case h_2 reqdata states hphase => exact h.startNewWrite hphase hstep
  case h_3 states hphase =>
    unfold abortRequest at hstep
    split_ifs at hstep
    cases hstep
    simp only [Stands, hphase] at hstands
    exact publishReplica (h.setReplica_of_running ((h.fits i).abortRequest hphase) hstands.1)
  case h_4 hphase =>
    cases hstep
    simp only [Stands, hphase] at hstands
    obtain ⟨hwait, hlog, habort⟩ := hstands
    refine publishReplica (h.setReplica ((h.fits i).finishAborted h.primary hphase)
      (fun hprocess hstate => ?_) fun hfinish => absurd hfinish hlog)
    -- a replica that waits with a request aborts it only together with the primary
    rcases hwait with ⟨-, hcurrent⟩ | hstate'
    · have := habort hcurrent
      simp [hprocess] at this
    · simp [hstate] at hstate'
  case h_5 => simp at hstep

theorem replicaGetsRequest (h : w.Sound) {answered : Bool}
    (hok : w.StepOk (.replicaGetsRequest i answered))
    (hstep : w.replicaGetsRequest i answered = some w') : w'.Sound := by
  have hstands := (h.fits i).stands
  unfold WriteWorld.replicaGetsRequest at hstep
  split at hstep
  case h_1 reqdata hphase =>
    cases hstep
    simp only [Stands, hphase] at hstands
    obtain ⟨hrunning, -, -, hdata⟩ := hstands
    refine h.setReplica_of_running ((h.fits i).onRequestFromPrimary hphase ?_) hrunning
    intro reqid hmem
    have hle : w.primary.reqid ≤ reqid := hok reqdata hphase reqid hmem
    cases answered with
    | true => exact h.primary.saved reqid hmem
    | false => exact (hdata reqid hmem).resolve_left hle.not_gt
  case h_2 => simp at hstep

theorem replicaFinished (h : w.Sound) {finishsuccess : Bool}
    (hstep : w.replicaFinished i finishsuccess = some w') : w'.Sound := by
  have hstands := (h.fits i).stands
  unfold WriteWorld.replicaFinished at hstep
  split at hstep
  case h_1 hphase =>
    cases hstep
    simp only [Stands, hphase] at hstands
    exact publishReplica (h.setReplica_of_running
      ((h.fits i).processLocalFinished hphase finishsuccess) hstands.1)
  case h_2 => simp at hstep

end Replica

end Sound

variable {event : WriteEvent n}

/-- A step whose reads are recent enough keeps the invariant. -/
theorem Sound.step (h : w.Sound) (hok : w.StepOk event) (hstep : WriteStep w event w') :
    w'.Sound := by
  cases event with
  | beginReqProcess => exact h.beginReqProcess hstep
  | primaryFinished outcome => exact h.primaryFinished hstep
  | primaryDataChanged selfChanged => exact h.primaryDataChanged hstep
  | primaryReads => exact h.primaryReads hstep
  | primaryActs => exact h.primaryActs hok hstep
  | replicaDataChanged i => exact h.replicaDataChanged hstep
  | replicaReads i => exact h.replicaReads hstep
  | replicaActs i => exact h.replicaActs hstep
  | replicaGetsRequest i answered => exact h.replicaGetsRequest hok hstep
  | replicaFinished i finishsuccess => exact h.replicaFinished hstep

theorem sound_init : ({} : WriteWorld n).Sound := by
  refine sound_of_phase ?_ (by simp) fun i => ?_
  · exact
      { log := by simp
        aborted := by simp
        saved := by simp
        node := by simp
        step := fun _ => rfl
        aborting := by simp
        busy := by simp }
  · exact
      { stands := .inl ⟨rfl, rfl⟩
        current := by simp
        taken := by simp
        log := rfl
        aborted := by simp }

/-- A step that leaves the nodes in agreement had reads that were recent enough. -/
theorem stepOk_of_agreement (hstep : WriteStep w event w') (h : w'.Agreement) : w.StepOk event := by
  cases event with
  | primaryActs =>
    intro hphase i hcurrent
    have hw' : w' = w.publishPrimary w.primary.finishAborted.restart := by
      unfold WriteStep step WriteWorld.primaryActs at hstep
      simp only [hphase] at hstep
      exact (Option.some.inj hstep).symm
    have hlt : w.primary.reqid < w'.primary.reqid := by
      simp [hw', publishPrimary, PrimaryNode.finishAborted]
    refine (h.finished i _ hlt).1 ?_
    rw [hw']
    exact hcurrent
  | replicaGetsRequest i answered =>
    intro reqdata hphase reqid hmem
    by_contra hlt
    have hw' : w' = w.setReplica i ((w.replicas i).onRequestFromPrimary (some reqid)) := by
      unfold WriteStep step WriteWorld.replicaGetsRequest at hstep
      simp only [hphase, mem_def.mp hmem] at hstep
      exact (some.inj hstep).symm
    refine (h.finished i reqid ?_).1 ?_
    · rw [hw']
      exact Nat.lt_of_not_le hlt
    · simp [hw', setReplica, onRequestFromPrimary]
  | _ => trivial

end WriteWorld

/-- However the requests, their outcomes and the steps of the nodes are put in order: the nodes
agree all along exactly when every read that decides something is recent enough. -/
theorem agreement_along_iff {n : ℕ} (events : List (WriteEvent n)) :
    HoldsAlong WriteStep Agreement {} events ↔
      StepsMeet WriteStep StepOk {} events := by
  constructor
  · exact stepsMeet_of_holdsAlong fun w event w' hstep => stepOk_of_agreement hstep
  · exact holdsAlong_of_stepsMeet (fun w event w' hsound hok hstep => hsound.step hok hstep)
      (fun w hsound => hsound.agreement) sound_init

/-- Replica 1 reads that there is a request, replica 0 fails to process it, and the primary finds
both of them in their first state. Only then replica 1 starts. It waits for its primary until the
next request is logged. -/
def lateStart : List (WriteEvent 2) :=
  [.beginReqProcess, .primaryFinished (.finished false true), .replicaDataChanged 1,
    -- replica 0 fails
    .replicaDataChanged 0, .replicaActs 0, .replicaActs 0, .replicaGetsRequest 0 true,
    .replicaFinished 0 false, .replicaReads 0, .replicaReads 0, .replicaActs 0,
    -- the primary decides to abort
    .primaryDataChanged false, .primaryReads, .primaryReads, .primaryActs,
    .primaryReads, .primaryReads, .primaryActs,
    .replicaActs 1, .replicaDataChanged 0, .replicaActs 0, .replicaActs 0,
    -- it reads that both replicas are ready, and replica 1 starts
    .primaryDataChanged false, .primaryReads, .primaryReads,
    .replicaActs 1, .replicaGetsRequest 1 true, .primaryActs, .primaryActs, .replicaFinished 1 true,
    -- the next request
    .beginReqProcess, .primaryFinished (.finished false true),
    .replicaDataChanged 0, .replicaActs 0, .replicaActs 0, .replicaGetsRequest 0 true,
    .replicaFinished 0 true, .primaryDataChanged false, .primaryReads, .primaryReads, .primaryActs,
    .replicaDataChanged 1, .replicaActs 1, .replicaDataChanged 0, .replicaActs 0,
    .primaryDataChanged false, .primaryReads, .primaryReads, .primaryActs]

theorem run_of_foldlM {n : ℕ} {w w' : WriteWorld n} {events : List (WriteEvent n)}
    (h : events.foldlM step w = some w') : Run WriteStep w events w' := by
  induction events generalizing w with
  | nil =>
    cases h
    exact .nil _
  | cons event events ih =>
    obtain ⟨w₁, hstep, hrest⟩ := bind_eq_some_iff.mp h
    exact .cons hstep (ih hrest)

/-- After the run above, replica 1 has logged the request that replica 0 has aborted. -/
theorem not_agreement_along_lateStart : ¬∀ (n : ℕ) (events : List (WriteEvent n)),
      HoldsAlong WriteStep Agreement {} events := by
  intro hall
  have hlate : ((lateStart.foldlM step {}).any fun w =>
      0 ∈ w.log (some 1) ∧ 0 ∈ w.aborted (some 0)) = true := by decide +kernel
  obtain ⟨w, hfold, hboth⟩ := (any_eq_true _ _).mp hlate
  have hlogged : 0 ∈ w.log (some 1) ∧ 0 ∈ w.aborted (some 0) := by simpa using hboth
  have hagree : w.Agreement :=
    hall 2 lateStart lateStart [] w (append_nil _) (run_of_foldlM hfold)
  exact hagree.notAborted (some 1) (some 0) 0 hlogged.1 hlogged.2

end AdDelivery.NodeManager
