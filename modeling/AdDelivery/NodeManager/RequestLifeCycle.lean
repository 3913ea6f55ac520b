import AdDelivery.NodeManager.RequestHooker

/-!
# The life cycle of a request

A prepared request is finished once and leaves the hooker clean. What a debug build asserts of
the chain holds exactly as long as no request is rolled back that this worker aborted itself: an
abort stops the chain, and `finish` asserts that the chain is at its end. A handler that sets a
status beyond the end stops the request for good.
-/

namespace AdDelivery.NodeManager

open Prod Option ReqLogMgr RequestHooker

/-- The node manager will call back. -/
def NodeStateType.awaits : NodeStateType → Bool
  | .started | .running => false
  | _ => true

namespace RequestHooker

/-- Nothing is left of a request. -/
structure Clean (hooker : RequestHooker) : Prop where
  hookType : hooker.hookType = none
  currentReq : hooker.currentReq = []
  chainStatus : hooker.chainStatus = .noChain
  preparedReq : hooker.reqLogMgr.preparedReq = none

/-- The assertions held, every prepared request but the present one was finished once, the logged
ones are those that were finished with success, the hooker is clean between two requests, and a
request whose local part is over waits for a callback. -/
structure LifeCycleOk (hooker : RequestHooker) : Prop where
  asserts : hooker.assertFailed = false
  once : hooker.prepared = hooker.finished.map fst ++ hooker.reqLogMgr.preparedReq.toList
  logged : hooker.logged = (hooker.finished.filter snd).map fst
  clean : hooker.phase = .idle → hooker.Clean
  ends : hooker.phase = .waiting → hooker.nodeState.awaits = true

/-- The handler ends with a request that is hooked and does not stop the chain itself, and no
request is rolled back that this worker aborted. -/
def CallOk (hooker : RequestHooker) (call : HookCall × Answers) : Prop :=
  match call.1 with
  | .processLocalFinished finishsuccess =>
    hooker.isHooked ∧ (hooker.reqLogMgr.preparedReq.isSome → hooker.chainStatus ≠ .chainStop ∧
      (finishsuccess → hooker.chainStatus ≠ .unknown))
  | .replicasFinishedAbort | .primaryAborted => hooker.chainStatus ≠ .chainStop
  | _ => True

/-- The record of the run. -/
structure Ledger (assertFailed : Bool) (hooker : RequestHooker) : Prop where
  asserts : hooker.assertFailed = assertFailed
  once : hooker.prepared = hooker.finished.map fst ++ hooker.reqLogMgr.preparedReq.toList
  logged : hooker.logged = (hooker.finished.filter snd).map fst

/-- A request is over. -/
structure Over (assertFailed : Bool) (hooker : RequestHooker) : Prop extends
    Ledger assertFailed hooker where
  clean : hooker.Clean
  quiet : hooker.nodeState.awaits = false

/-- A handler processes a request. -/
structure Processing (assertFailed : Bool) (hooker : RequestHooker) : Prop extends
    Ledger assertFailed hooker where
  hooked : hooker.hookType.isSome
  quiet : hooker.nodeState.awaits = false
  unhooked : hooker.isHooked = false → hooker.chainStatus = .noChain

/-- The chain of a request whose local part is over. -/
def ChainDone (hooker : RequestHooker) : Prop :=
  hooker.chainStatus = .noChain ∨ hooker.chainStatus = .chainEnd ∨
    hooker.chainStatus = .chainStop ∧
      (hooker.nodeState = .waitReplicaAbort ∨ hooker.nodeState = .waitPrimaryAbort)

/-- The local part of a request is over. -/
structure Waiting (assertFailed : Bool) (hooker : RequestHooker) : Prop extends
    Ledger assertFailed hooker where
  hooked : hooker.hookType.isSome
  done : hooker.nodeState.awaits = true →
    hooker.isHooked ∧ hooker.hookType ≠ some .fromLog ∧
      hooker.reqLogMgr.preparedReq.isSome ∧ hooker.ChainDone

/-- What holds in each phase. -/
def LifeInv (hooker : RequestHooker) : Prop :=
  match hooker.phase with
  | .idle => hooker.Over hooker.assertFailed
  | .processing => hooker.Processing hooker.assertFailed
  | .waiting => hooker.Waiting hooker.assertFailed

variable {codec : ReqCodec} {answers : Answers} {hooker hooker' : RequestHooker}
  {assertFailed : Bool}

theorem LifeInv.ledger (h : hooker.LifeInv) : hooker.Ledger hooker.assertFailed := by
  unfold LifeInv at h
  split at h
  · exact h.toLedger
  · exact h.toLedger
  · exact h.toLedger

theorem processFinishedBeforePrepare_cases {finishsuccess result : Bool}
    (h : hooker.Processing assertFailed)
    (heq : hooker.processFinishedBeforePrepare finishsuccess = some (result, hooker')) :
    (result = true ∧ hooker'.Over assertFailed ∧ hooker.reqLogMgr.preparedReq = none) ∨
      (result = false ∧ hooker' = hooker ∧
        (hooker.isHooked → hooker.reqLogMgr.preparedReq.isSome)) := by
  unfold processFinishedBeforePrepare at heq
  split_ifs at heq with hhooked hlog hnone hmaster
  · obtain ⟨rfl, rfl⟩ := Prod.mk.inj (Option.some.inj heq)
    refine .inr ⟨rfl, rfl, fun hyes => ?_⟩
    rw [hyes] at hhooked
    cases hhooked
  · obtain ⟨rfl, rfl⟩ := Prod.mk.inj (Option.some.inj heq)
    have hnone := Option.isNone_iff_eq_none.mp hnone
    exact .inl ⟨rfl, ⟨⟨h.asserts, h.once, h.logged⟩, ⟨rfl, rfl, rfl, hnone⟩, rfl⟩, hnone⟩
  · obtain ⟨rfl, rfl⟩ := Prod.mk.inj (Option.some.inj heq)
    refine .inr ⟨rfl, rfl, fun _ => ?_⟩
    rwa [Option.isNone_iff_eq_none, ← Option.not_isSome_iff_eq_none, not_not] at hnone

/-- A handler call leaves the request processed or over. -/
def Continues (assertFailed : Bool) (hooker' : RequestHooker) : Prop :=
  hooker'.Over assertFailed ∨ hooker'.Processing assertFailed

theorem continues_processFinishedBeforePrepare {finishsuccess result : Bool}
    (h : hooker.Processing assertFailed)
    (heq : hooker.processFinishedBeforePrepare finishsuccess = some (result, hooker')) :
    hooker'.Continues assertFailed := by
  rcases processFinishedBeforePrepare_cases h heq with ⟨-, hover, -⟩ | ⟨-, rfl, -⟩
  · exact .inl hover
  · exact .inr h

/-- A request is only prepared if no other one is. -/
theorem prepareReqLog_ledger {mgr mgr' : ReqLogMgr} {reqdata reqdata' : CommonReqData}
    {isprimary : Bool} (heq : mgr.prepareReqLog reqdata isprimary = (true, reqdata', mgr')) :
    mgr.preparedReq = none ∧ mgr'.preparedReq = some reqdata' := by
  unfold ReqLogMgr.prepareReqLog at heq
  split_ifs at heq with hsome hprimary hlt
  · exact absurd (congrArg Prod.fst heq) Bool.false_ne_true
  · obtain ⟨-, rfl, rfl⟩ := by simpa only [mk.injEq] using heq
    exact ⟨not_isSome_iff_eq_none.mp hsome, rfl⟩
  · exact absurd (congrArg fst heq) Bool.false_ne_true
  · obtain ⟨-, rfl, rfl⟩ := by simpa only [mk.injEq] using heq
    exact ⟨not_isSome_iff_eq_none.mp hsome, rfl⟩

variable {result : Bool}

theorem continues_prepareReqLog {preparedReq preparedReq' : ReqData}
    (h : hooker.Processing assertFailed)
    (heq : hooker.prepareReqLog answers preparedReq = some (result, preparedReq', hooker')) :
    hooker'.Continues assertFailed ∧ (result = true → hooker'.Processing assertFailed) := by
  have hfinished {r : Bool × RequestHooker}
      (hr : hooker.processFinishedBeforePrepare false = some r) : r.2.Continues assertFailed :=
    continues_processFinishedBeforePrepare h hr
  unfold prepareReqLog at heq
  split at heq
  · obtain ⟨rfl, -, rfl⟩ := by simpa only [some.injEq, mk.injEq] using heq
    exact ⟨.inr h, fun _ => h⟩
  split at heq
  · obtain ⟨r, hr, hresult⟩ := map_eq_some_iff.mp heq
    obtain ⟨rfl, -, rfl⟩ := by simpa only [mk.injEq] using hresult
    exact ⟨hfinished hr, fun h => absurd h (by decide)⟩
  split at heq
  · rename_i reqdata reqLogMgr hprepare
    obtain ⟨rfl, -, rfl⟩ := by simpa only [some.injEq, mk.injEq] using heq
    obtain ⟨hnone, hsome⟩ := prepareReqLog_ledger hprepare
    have hprepared : Processing assertFailed
        { hooker with reqLogMgr, prepared := hooker.prepared ++ [reqdata] } := by
      refine ⟨⟨h.asserts, ?_, h.logged⟩, h.hooked, h.quiet, h.unhooked⟩
      have honce := h.once
      rw [hnone, toList_none, List.append_nil] at honce
      simp only [hsome, toList_some, honce]
    exact ⟨.inr hprepared, fun _ => hprepared⟩
  · split at heq
    · cases heq
    · obtain ⟨r, hr, hresult⟩ := map_eq_some_iff.mp heq
      obtain ⟨rfl, -, rfl⟩ := by simpa only [mk.injEq] using hresult
      exact ⟨hfinished hr, fun h => absurd h (by decide)⟩

/-- What is packed is not empty, so the request is hooked. -/
theorem Processing.updateReqLogData (h : hooker.Processing assertFailed)
    (updatedPreparedata : ReqData) :
    (hooker.updateReqLogData codec updatedPreparedata).Processing assertFailed := by
  refine ⟨⟨h.asserts, h.once, h.logged⟩, h.hooked, h.quiet, fun hunhooked => ?_⟩
  have hhooked : (hooker.updateReqLogData codec updatedPreparedata).isHooked = true := by
    simp [RequestHooker.updateReqLogData, isHooked, h.hooked, codec.pack_ne_nil]
  rw [hhooked] at hunhooked
  exact absurd hunhooked.symm Bool.false_ne_true

theorem Processing.packPreparedReq (h : hooker.Processing assertFailed) (type : ReqLogType)
    (preparedReq : ReqData) :
    (hooker.packPreparedReq codec type preparedReq).Processing assertFailed := by
  unfold RequestHooker.packPreparedReq
  split_ifs
  · exact h
  · exact h
  · exact h.updateReqLogData preparedReq

theorem setRollbackFlag_eq {incId : UInt32}
    (heq : hooker.setRollbackFlag answers incId = some (result, hooker')) :
    ∃ rollbackFlag, hooker' = { hooker with rollbackFlag } := by
  unfold setRollbackFlag at heq
  split_ifs at heq
  · exact ⟨some incId, (Prod.mk.inj (Option.some.inj heq)).2.symm⟩
  · exact ⟨hooker.rollbackFlag, (Prod.mk.inj (Option.some.inj heq)).2.symm⟩

/-- The rollback flag has no part in it. -/
theorem Processing.setRollbackFlag {incId : UInt32} (h : hooker.Processing assertFailed)
    (heq : hooker.setRollbackFlag answers incId = some (result, hooker')) :
    hooker'.Processing assertFailed := by
  obtain ⟨rollbackFlag, rfl⟩ := setRollbackFlag_eq heq
  exact ⟨⟨h.asserts, h.once, h.logged⟩, h.hooked, h.quiet, h.unhooked⟩

variable {preparedReq : ReqData}

/-- Only the backup and the rollback flag change. -/
theorem prepareRollback_eq {type : ReqLogType}
    (heq : hooker.prepareRollback answers type preparedReq = some (result, hooker')) :
    ∃ lastBackupId rollbackFlag, hooker' = { hooker with lastBackupId, rollbackFlag } := by
  simp only [prepareRollback] at heq
  split at heq
  · split at heq
    · obtain ⟨-, rfl⟩ := Prod.mk.inj (Option.some.inj heq)
      exact ⟨hooker.lastBackupId, hooker.rollbackFlag, rfl⟩
    · cases heq
  · split at heq
    · obtain ⟨-, rfl⟩ := Prod.mk.inj (Option.some.inj heq)
      exact ⟨_, hooker.rollbackFlag, rfl⟩
    · split at heq
      · cases heq
      · rename_i hflag
        obtain ⟨-, rfl⟩ := Prod.mk.inj (Option.some.inj heq)
        obtain ⟨rollbackFlag, rfl⟩ := setRollbackFlag_eq hflag
        exact ⟨_, rollbackFlag, rfl⟩
      · rename_i hflag
        split at heq
        · obtain ⟨-, rfl⟩ := Prod.mk.inj (Option.some.inj heq)
          obtain ⟨rollbackFlag, rfl⟩ := setRollbackFlag_eq hflag
          exact ⟨_, rollbackFlag, rfl⟩
        · cases heq

/-- The backup has no part in it either. -/
theorem Processing.prepareRollback {type : ReqLogType} (h : hooker.Processing assertFailed)
    (heq : hooker.prepareRollback answers type preparedReq = some (result, hooker')) :
    hooker'.Processing assertFailed := by
  obtain ⟨lastBackupId, rollbackFlag, rfl⟩ := prepareRollback_eq heq
  exact ⟨⟨h.asserts, h.once, h.logged⟩, h.hooked, h.quiet, h.unhooked⟩

theorem continues_prepare {type : ReqLogType} (h : hooker.Processing assertFailed)
    (heq : hooker.prepare codec answers type preparedReq = some (result, hooker')) :
    hooker'.Continues assertFailed := by
  have htype : Processing assertFailed { hooker with type } :=
    ⟨⟨h.asserts, h.once, h.logged⟩, h.hooked, h.quiet, h.unhooked⟩
  simp only [prepare] at heq
  split at heq
  · obtain ⟨-, rfl⟩ := Prod.mk.inj (Option.some.inj heq)
    exact .inr h
  split at heq
  · obtain ⟨-, rfl⟩ := Prod.mk.inj (Option.some.inj heq)
    exact .inr h
  split at heq
  · cases heq
  split at heq
  · cases heq
  · rename_i hlog
    obtain ⟨-, rfl⟩ := Prod.mk.inj (Option.some.inj heq)
    exact (continues_prepareReqLog htype hlog).1
  · rename_i logged hooked hlog
    have hpacked : (hooked.packPreparedReq codec type logged).Processing assertFailed :=
      ((continues_prepareReqLog htype hlog).2 rfl).packPreparedReq type logged
    split at heq
    · obtain ⟨-, rfl⟩ := Prod.mk.inj (Option.some.inj heq)
      exact .inr hpacked
    · exact .inr (hpacked.prepareRollback heq)

/-- The chain is where a debug build wants it to be. -/
def chainAtEnd (hooker : RequestHooker) : Bool :=
  hooker.chainStatus = .chainEnd ∨ hooker.chainStatus = .noChain

/-- A request is finished: the hooker is clean, and the ledger has one entry more. -/
structure Finished (hooker : RequestHooker) (success : Bool) (hooker' : RequestHooker) : Prop where
  clean : hooker'.Clean
  prepared : hooker'.prepared = hooker.prepared
  logged : hooker'.logged = hooker.logged
  finished : hooker'.finished = hooker.finished ++
    (hooker.reqLogMgr.preparedReq.map fun reqdata => (reqdata, success)).toList
  asserts : hooker'.assertFailed = (hooker.assertFailed || !hooker.chainAtEnd)
  nodeState : hooker'.nodeState = hooker.nodeState

theorem init_preparedReq {dir dir' : ReqLogDir} {mgr : ReqLogMgr} {result : Except String Unit}
    (heq : init dir = (result, mgr, dir')) : mgr.preparedReq = none := by
  have hmgr : mgr = (init dir).2.1 := by rw [heq]
  rw [hmgr, init, loadLastData]
  split
  · split
    · rfl
    · simp only
      split_ifs <;> rfl
  · rfl

theorem finished_dropPrepared (hooker : RequestHooker) (success : Bool) :
    hooker.Finished success (hooker.assertChain.dropPrepared success) :=
  ⟨⟨rfl, rfl, rfl, rfl⟩, rfl, rfl, rfl, rfl, rfl⟩

/-- What is restored has no prepared request. -/
theorem Finished.rollbackLastFail {success : Bool} {dropped : RequestHooker}
    (h : hooker.Finished success dropped)
    (heq : dropped.rollbackLastFail answers = some hooker') : hooker.Finished success hooker' := by
  unfold RequestHooker.rollbackLastFail at heq
  split at heq
  · rw [← some.inj heq]
    exact h
  split at heq
  · cases heq
  split at heq
  · rename_i hinit
    rw [← some.inj heq]
    exact ⟨⟨h.clean.hookType, h.clean.currentReq, h.clean.chainStatus, init_preparedReq hinit⟩,
      h.prepared, h.logged, h.finished, h.asserts, h.nodeState⟩
  · cases heq

theorem finished_finish {success : Bool} (heq : hooker.finish answers success = some hooker') :
    hooker.Finished success hooker' := by
  have hdropped := hooker.finished_dropPrepared success
  simp only [finish] at heq
  split at heq
  · cases heq
  cases success with
  | false => exact hdropped.rollbackLastFail heq
  | true =>
    simp only [if_true] at heq
    split at heq
    · obtain ⟨lastBackupId, -, rfl⟩ := map_eq_some_iff.mp heq
      exact ⟨⟨rfl, rfl, rfl, rfl⟩, rfl, rfl, rfl, rfl, rfl⟩
    · rw [← some.inj heq]
      exact ⟨⟨rfl, rfl, rfl, rfl⟩, rfl, rfl, rfl, rfl, rfl⟩

/-- The entry of a request that fails is not logged. -/
theorem Finished.ledger {ledger : RequestHooker} {success : Bool}
    (hfinished : hooker.Finished success hooker') (h : ledger.Ledger assertFailed)
    (hprepared : hooker.prepared = ledger.prepared)
    (hreq : hooker.reqLogMgr.preparedReq = ledger.reqLogMgr.preparedReq)
    (hdone : hooker.finished = ledger.finished) (hlogged : hooker.logged = ledger.logged ++
      if success then ledger.reqLogMgr.preparedReq.toList else []) :
    hooker'.Ledger (hooker.assertFailed || !hooker.chainAtEnd) := by
  refine ⟨hfinished.asserts, ?_, ?_⟩
  · rw [hfinished.prepared, hprepared, hfinished.finished, hfinished.clean.preparedReq, h.once,
      hreq, hdone]
    cases ledger.reqLogMgr.preparedReq with
    | none => simp
    | some reqdata => simp
  · rw [hfinished.logged, hlogged, hfinished.finished, hreq, hdone, h.logged]
    cases ledger.reqLogMgr.preparedReq with
    | none => cases success <;> simp
    | some reqdata => cases success <;> simp

theorem preparedReq_appendReqData {mgr mgr' : ReqLogMgr} {dir dir' : ReqLogDir}
    {reqPackedData : Bytes} {dataGood headGood : Bool}
    (heq : mgr.appendReqData dir reqPackedData dataGood headGood = (true, mgr', dir')) :
    mgr'.preparedReq = mgr.preparedReq := by
  unfold appendReqData at heq
  split at heq
  · exact absurd (congrArg fst heq) Bool.false_ne_true
  · split at heq
    · exact absurd (congrArg fst heq) Bool.false_ne_true
    · obtain ⟨-, rfl, -⟩ := by simpa only [mk.injEq] using heq
      rfl

/-- A request that is logged leaves the hooker clean. -/
theorem writeLocalLog_ledger (h : hooker.Ledger assertFailed) (hhooked : hooker.isHooked)
    (heq : hooker.writeLocalLog answers = some hooker') :
    hooker'.Clean ∧ hooker'.Ledger (assertFailed || !hooker.chainAtEnd) ∧
      hooker'.nodeState = hooker.nodeState := by
  simp only [writeLocalLog, hhooked, Bool.not_true, Bool.false_eq_true, if_false] at heq
  split at heq
  · rename_i reqLogMgr reqLogDir happend
    have hfinished := finished_finish heq
    have hledger := hfinished.ledger h rfl (preparedReq_appendReqData happend) rfl rfl
    refine ⟨hfinished.clean, ⟨?_, hledger.once, hledger.logged⟩, hfinished.nodeState⟩
    -- the chain is asserted twice
    rw [hledger.asserts, ← h.asserts]
    change ((hooker.assertFailed || !hooker.chainAtEnd) || !hooker.chainAtEnd) = _
    rw [Bool.or_assoc, Bool.or_self]
  · cases heq

/-- A request that is rolled back leaves the hooker clean. -/
theorem finish_false_ledger (h : hooker.Ledger assertFailed)
    (heq : hooker.finish answers false = some hooker') :
    hooker'.Clean ∧ hooker'.Ledger (assertFailed || !hooker.chainAtEnd) := by
  have hfinished := finished_finish heq
  have hledger := hfinished.ledger h rfl rfl rfl (List.append_nil _).symm
  exact ⟨hfinished.clean, h.asserts ▸ hledger⟩

theorem abortRequest_cases (h : hooker.Processing assertFailed) (hhooked : hooker.isHooked)
    (hprepared : hooker.reqLogMgr.preparedReq.isSome)
    (heq : hooker.abortRequest answers = some hooker') :
    (hooker' = hooker ∧ hooker.chainStatus = .chainStop) ∨
      (hooker'.Waiting assertFailed ∧ hooker'.nodeState.awaits ∧
        hooker.chainStatus ≠ .chainStop) := by
  simp only [abortRequest, hhooked, Bool.not_true, Bool.false_eq_true, if_false] at heq
  split at heq
  · cases heq
  rename_i hlog
  split at heq
  · rename_i hstop
    exact .inl ⟨(Option.some.inj heq).symm, hstop⟩
  rename_i hstop
  split at heq
  · rw [← some.inj heq]
    exact .inr ⟨⟨⟨h.asserts, h.once, h.logged⟩, h.hooked,
      fun _ => ⟨hhooked, hlog, hprepared, .inr (.inr ⟨rfl, .inl rfl⟩)⟩⟩, rfl, hstop⟩
  split at heq
  · cases heq
  · rw [← Option.some.inj heq]
    exact .inr ⟨⟨⟨h.asserts, h.once, h.logged⟩, h.hooked,
      fun _ => ⟨hhooked, hlog, hprepared, .inr (.inr ⟨rfl, .inr rfl⟩)⟩⟩, rfl, hstop⟩

theorem chainAtEnd_iff {hooker : RequestHooker} :
    hooker.chainAtEnd ↔ hooker.chainStatus = .chainEnd ∨ hooker.chainStatus = .noChain := by
  exact decide_eq_true_iff

/-- A request whose chain is at its end waits for the other nodes. -/
theorem Processing.finishLocalReqProcess (h : hooker.Processing assertFailed)
    (hhooked : hooker.isHooked) (hlog : hooker.hookType ≠ some .fromLog)
    (hprepared : hooker.reqLogMgr.preparedReq.isSome) (hchain : hooker.chainAtEnd) :
    (hooker.finishLocalReqProcess answers).Waiting assertFailed ∧
      (hooker.finishLocalReqProcess answers).nodeState.awaits := by
  refine ⟨⟨⟨h.asserts, h.once, h.logged⟩, h.hooked, fun _ => ⟨hhooked, hlog, hprepared, ?_⟩⟩, ?_⟩
  · rcases chainAtEnd_iff.mp hchain with hend | hno
    · exact .inr (.inl hend)
    · exact .inl hno
  · unfold RequestHooker.finishLocalReqProcess
    split <;> rfl

variable {finishsuccess : Bool}

/-- What the local end of a request comes to: the request is over, it goes on, or it waits. -/
theorem processLocalFinished_cases (h : hooker.Processing assertFailed) (hhooked : hooker.isHooked)
    (heq : hooker.processLocalFinished answers finishsuccess = some hooker') :
    (hooker'.Over assertFailed ∧ (hooker.reqLogMgr.preparedReq.isSome → hooker.chainAtEnd)) ∨
      (hooker' = hooker ∧ hooker.reqLogMgr.preparedReq.isSome ∧
        if finishsuccess then hooker.chainAtEnd = false else hooker.chainStatus = .chainStop) ∨
      (hooker'.Waiting assertFailed ∧ hooker'.nodeState.awaits ∧
        if finishsuccess then hooker.chainAtEnd = true
        else hooker.chainStatus ≠ .chainStop) := by
  simp only [processLocalFinished, hhooked, Bool.not_true, Bool.false_eq_true, if_false] at heq
  split at heq
  · cases heq
  · rename_i hbefore
    rw [← Option.some.inj heq]
    rcases processFinishedBeforePrepare_cases h hbefore with ⟨-, hover, hnone⟩ | ⟨hfalse, -⟩
    · refine .inl ⟨hover, fun hsome => ?_⟩
      rw [hnone] at hsome
      cases hsome
    · cases hfalse
  rename_i hbefore
  obtain ⟨htrue, -⟩ | ⟨-, hsame, hprepared⟩ := processFinishedBeforePrepare_cases h hbefore
  · cases htrue
  replace hsame := hsame.symm
  subst hsame
  replace hprepared := hprepared hhooked
  cases finishsuccess with
  | false =>
    rcases abortRequest_cases h hhooked hprepared heq with ⟨rfl, hstop⟩ | ⟨hwaits, hawaits, hne⟩
    · exact .inr (.inl ⟨rfl, hprepared, hstop⟩)
    · exact .inr (.inr ⟨hwaits, hawaits, hne⟩)
  | true =>
    simp only [Bool.not_true, Bool.false_eq_true, if_false] at heq
    split at heq
    · rename_i hchain
      refine .inr (.inl ⟨(Option.some.inj heq).symm, hprepared, ?_⟩)
      rw [← Bool.not_eq_true, chainAtEnd_iff, not_or]
      exact ⟨hchain.2, hchain.1⟩
    rename_i hchain
    have hend : hooker.chainAtEnd := by
      rw [chainAtEnd_iff]
      by_contra hnot
      exact hchain (not_or.mp hnot).symm
    split at heq
    · obtain ⟨hclean, hledger, hstate⟩ := writeLocalLog_ledger h.toLedger hhooked heq
      rw [hend, Bool.not_true, Bool.or_false] at hledger
      exact .inl ⟨⟨hledger, hclean, hstate ▸ h.quiet⟩, fun _ => hend⟩
    rename_i hlog
    split at heq
    · split at heq
      · rename_i hflag
        rw [← Option.some.inj heq]
        obtain ⟨rollbackFlag, rfl⟩ := setRollbackFlag_eq hflag
        obtain ⟨hwaits, hawaits⟩ :=
          (h.setRollbackFlag hflag).finishLocalReqProcess hhooked hlog hprepared hend
        exact .inr (.inr ⟨hwaits, hawaits, hend⟩)
      · cases heq
    · rw [← Option.some.inj heq]
      obtain ⟨hwaits, hawaits⟩ := h.finishLocalReqProcess hhooked hlog hprepared hend
      exact .inr (.inr ⟨hwaits, hawaits, hend⟩)

/-- After the chain is done, it is at its end or was stopped by an abort. -/
theorem ChainDone.chainAtEnd_iff (h : hooker.ChainDone) :
    hooker.chainAtEnd ↔ hooker.chainStatus ≠ .chainStop := by
  rw [RequestHooker.chainAtEnd_iff]
  rcases h with hno | hend | ⟨hstop, -⟩
  · simp [hno]
  · simp [hend]
  · simp [hstop]

theorem LifeInv.waiting (h : hooker.LifeInv) (hawaits : hooker.nodeState.awaits = true) :
    hooker.Waiting hooker.assertFailed := by
  unfold LifeInv at h
  split at h
  · rw [h.quiet] at hawaits
    cases hawaits
  · rw [h.quiet] at hawaits
    cases hawaits
  · exact h

theorem LifeInv.processing (h : hooker.LifeInv) (hphase : hooker.phase = .processing) :
    hooker.Processing hooker.assertFailed := by
  rw [LifeInv, hphase] at h
  exact h

theorem lifeInv_ready (hclean : hooker.Clean) (hledger : hooker.Ledger assertFailed) :
    hooker.ready.LifeInv :=
  show hooker.ready.Over hooker.ready.assertFailed from
    ⟨⟨rfl, hledger.once, hledger.logged⟩,
      ⟨hclean.hookType, hclean.currentReq, hclean.chainStatus, hclean.preparedReq⟩, rfl⟩

/-- What a call comes to that does not end the local part: no assertion, and no waiting. -/
structure Handled (assertFailed : Bool) (hooker' : RequestHooker) : Prop where
  inv : hooker'.LifeInv
  asserts : hooker'.assertFailed = assertFailed
  phase : hooker'.phase ≠ .waiting

theorem Processing.handled (h : hooker.Processing assertFailed)
    (hphase : hooker.phase = .processing) : hooker.Handled assertFailed := by
  refine ⟨?_, h.asserts, ?_⟩
  · rw [LifeInv, hphase]
    exact ⟨⟨rfl, h.once, h.logged⟩, h.hooked, h.quiet, h.unhooked⟩
  · rw [hphase]
    exact HookPhase.noConfusion

theorem Over.handled (h : hooker.Over assertFailed) (hphase : hooker.phase = .idle) :
    hooker.Handled assertFailed := by
  refine ⟨?_, h.asserts, ?_⟩
  · rw [LifeInv, hphase]
    exact ⟨⟨rfl, h.once, h.logged⟩, h.clean, h.quiet⟩
  · rw [hphase]
    exact HookPhase.noConfusion

/-- The phase has no part in what holds of a request. -/
theorem Over.enter (h : hooker.Over assertFailed) (phase : HookPhase) :
    (hooker.enter phase).Over assertFailed :=
  ⟨⟨h.asserts, h.once, h.logged⟩,
    ⟨h.clean.hookType, h.clean.currentReq, h.clean.chainStatus, h.clean.preparedReq⟩, h.quiet⟩

theorem Over.handled_enter (h : hooker.Over assertFailed) (phase : HookPhase) :
    (hooker.enter phase).Handled assertFailed :=
  (h.enter phase).handled (if_pos (isNone_iff_eq_none.mpr h.clean.hookType))

theorem phase_enter (hhooked : hooker.hookType.isSome) (phase : HookPhase) :
    (hooker.enter phase).phase = phase := by
  obtain ⟨calltype, hcalltype⟩ := isSome_iff_exists.mp hhooked
  simp [enter, hcalltype]

theorem Processing.handled_enter (h : hooker.Processing assertFailed) :
    (hooker.enter .processing).Handled assertFailed :=
  Processing.handled ⟨⟨h.asserts, h.once, h.logged⟩, h.hooked, h.quiet, h.unhooked⟩
    (phase_enter h.hooked .processing)

theorem Continues.handled_enter (h : hooker.Continues assertFailed) :
    (hooker.enter .processing).Handled assertFailed :=
  h.elim (fun hover => hover.handled_enter .processing) Processing.handled_enter

theorem Processing.handled_processLocalBegin (h : hooker.Processing assertFailed)
    (hphase : hooker.phase = .processing) : hooker.processLocalBegin.Handled assertFailed := by
  unfold processLocalBegin
  split_ifs
  · exact h.handled hphase
  · exact h.handled hphase
  · exact h.handled hphase
  · exact Processing.handled ⟨⟨h.asserts, h.once, h.logged⟩, h.hooked, rfl, h.unhooked⟩ hphase

theorem Processing.handled_setChainStatus (h : hooker.Processing assertFailed)
    (hphase : hooker.phase = .processing) (status : ChainStatus) :
    (hooker.setChainStatus status).Handled assertFailed := by
  unfold setChainStatus
  split_ifs with hunhooked
  · exact h.handled hphase
  · exact h.handled hphase
  · refine Processing.handled ⟨⟨h.asserts, h.once, h.logged⟩, h.hooked, h.quiet, fun hnot => ?_⟩
      hphase
    exact absurd (congrArg (! ·) hnot) hunhooked

theorem Over.handled_hook (h : hooker.Over assertFailed) (calltype : CallType) (reqdata : Bytes) :
    Handled assertFailed { hooker.setHook calltype reqdata with
        nodeState := if calltype = .fromPrimaryWorker then .running else hooker.nodeState
        phase := .processing } := by
  refine Processing.handled
    ⟨⟨h.asserts, h.once, h.logged⟩, rfl, ?_, fun _ => h.clean.chainStatus⟩ rfl
  split
  · rfl
  · exact h.quiet

/-- The calls that do not end the local part of a request. -/
def isHandlerCall : HookCall → Bool
  | .hookCurrentReq .. | .processLocalBegin | .setChainStatus _ | .prepare .. |
    .updateReqLogData _ | .processFinishedBeforePrepare _ => true
  | _ => false

theorem handled_call {call : HookCall} (h : hooker.LifeInv) (hcall : isHandlerCall call)
    (heq : hooker.call codec answers call = some hooker') :
    hooker'.Handled hooker.assertFailed := by
  cases call with
  | hookCurrentReq calltype reqdata =>
    simp only [call] at heq
    split at heq
    · rename_i hphase
      rw [LifeInv, hphase] at h
      rw [← some.inj heq]
      exact h.handled_hook calltype reqdata
    · cases heq
  | processLocalBegin =>
    obtain ⟨hphase, hcall⟩ := ite_none_right_eq_some.mp heq
    rw [← some.inj hcall]
    exact (h.processing hphase).handled_processLocalBegin hphase
  | setChainStatus status =>
    obtain ⟨hphase, hcall⟩ := ite_none_right_eq_some.mp heq
    rw [← some.inj hcall]
    exact (h.processing hphase).handled_setChainStatus hphase status
  | prepare type preparedReq =>
    obtain ⟨hphase, hcall⟩ := ite_none_right_eq_some.mp heq
    obtain ⟨result, hprepare, rfl⟩ := map_eq_some_iff.mp hcall
    exact (continues_prepare (h.processing hphase) hprepare).handled_enter
  | updateReqLogData updatedPreparedata =>
    obtain ⟨hphase, hcall⟩ := ite_none_right_eq_some.mp heq
    rw [← some.inj hcall]
    exact ((h.processing hphase).updateReqLogData updatedPreparedata).handled hphase
  | processFinishedBeforePrepare finishsuccess =>
    obtain ⟨hphase, hcall⟩ := ite_none_right_eq_some.mp heq
    obtain ⟨result, hfinished, rfl⟩ := map_eq_some_iff.mp hcall
    exact (continues_processFinishedBeforePrepare (h.processing hphase) hfinished).handled_enter
  | _ => cases hcall

/-- A callback that ends the request; only the assertion may fail. -/
theorem handled_ready {finished : RequestHooker} {asserts : Bool} (hclean : finished.Clean)
    (hledger : finished.Ledger asserts) : finished.ready.Handled asserts :=
  ⟨lifeInv_ready hclean hledger, hledger.asserts, HookPhase.noConfusion⟩

theorem handled_commitCallback (h : hooker.LifeInv) (hawaits : hooker.nodeState.awaits = true)
    (heq : (hooker.commitCallback answers).map ready = some hooker') :
    hooker'.Handled (hooker.assertFailed || !hooker.chainAtEnd) := by
  have hwaiting := h.waiting hawaits
  obtain ⟨finished, hlog, rfl⟩ := map_eq_some_iff.mp heq
  obtain ⟨hclean, hledger, -⟩ :=
    writeLocalLog_ledger hwaiting.toLedger (hwaiting.done hawaits).1 hlog
  exact handled_ready hclean hledger

theorem handled_abortCallback (h : hooker.LifeInv) (hawaits : hooker.nodeState.awaits = true)
    (heq : (hooker.abortCallback answers).map ready = some hooker') :
    hooker'.Handled (hooker.assertFailed || !hooker.chainAtEnd) := by
  have hwaiting := h.waiting hawaits
  obtain ⟨finished, habort, rfl⟩ := map_eq_some_iff.mp heq
  have hhooked := (hwaiting.done hawaits).1
  simp only [abortCallback, hhooked, Bool.not_true, Bool.false_eq_true, if_false] at habort
  obtain ⟨hclean, hledger⟩ := finish_false_ledger hwaiting.toLedger habort
  exact handled_ready hclean hledger

/-- While the primary waits for its replicas, the chain is at its end. -/
theorem Waiting.chainAtEnd (h : hooker.Waiting assertFailed)
    (hstate : hooker.nodeState = .waitReplicaFinishProcess ∨
      hooker.nodeState = .waitReplicaFinishLog ∨ hooker.nodeState = .waitPrimary) :
    hooker.chainAtEnd := by
  have hawaits : hooker.nodeState.awaits = true := by
    rcases hstate with hstate | hstate | hstate <;> rw [hstate] <;> rfl
  rw [chainAtEnd_iff]
  rcases (h.done hawaits).2.2.2 with hno | hend | ⟨-, habort⟩
  · exact .inr hno
  · exact .inl hend
  · rcases hstate with hstate | hstate | hstate <;> simp [hstate] at habort

/-- The other replicas are done, or one of them aborts. -/
theorem Waiting.nodeState (h : hooker.Waiting assertFailed) {nodeState : NodeStateType}
    (hstate : hooker.nodeState = .waitReplicaFinishProcess ∨
      hooker.nodeState = .waitReplicaFinishLog) :
    Waiting assertFailed { hooker with nodeState } := by
  have hawaits : hooker.nodeState.awaits = true := by
    rcases hstate with hstate | hstate <;> rw [hstate] <;> rfl
  obtain ⟨hhooked, hlog, hprepared, -⟩ := h.done hawaits
  have hend := h.chainAtEnd (hstate.imp_right .inl)
  refine ⟨⟨h.asserts, h.once, h.logged⟩, h.hooked, fun _ => ⟨hhooked, hlog, hprepared, ?_⟩⟩
  rcases chainAtEnd_iff.mp hend with hend | hno
  · exact .inr (.inl hend)
  · exact .inl hno

theorem lifeCycleOk_iff (h : hooker.LifeInv) : hooker.LifeCycleOk ↔ hooker.assertFailed = false ∧
      (hooker.phase = .waiting → hooker.nodeState.awaits = true) := by
  refine ⟨fun hok => ⟨hok.asserts, hok.ends⟩, fun ⟨hasserts, hends⟩ => ?_⟩
  refine ⟨hasserts, h.ledger.once, h.ledger.logged, fun hphase => ?_, hends⟩
  rw [LifeInv, hphase] at h
  exact h.clean

theorem Handled.lifeCycleOk_iff (h : hooker.Handled assertFailed) :
    hooker.LifeCycleOk ↔ assertFailed = false := by
  rw [RequestHooker.lifeCycleOk_iff h.inv, h.asserts]
  exact and_iff_left fun hphase => absurd hphase h.phase

/-- What holds after a step, and when the step is a good one. -/
def StepOk (hooker : RequestHooker) (call : HookCall × Answers) (hooker' : RequestHooker) : Prop :=
  hooker'.LifeInv ∧ (hooker.LifeCycleOk → (hooker'.LifeCycleOk ↔ hooker.CallOk call))

variable {call : HookCall × Answers}

theorem Handled.stepOk (h : hooker'.Handled hooker.assertFailed) (hcall : hooker.CallOk call) :
    hooker.StepOk call hooker' :=
  ⟨h.inv, fun hok => iff_of_true (h.lifeCycleOk_iff.mpr hok.asserts) hcall⟩

/-- A callback that asserts the chain. -/
theorem Handled.stepOk_of_chain (h : hooker'.Handled (hooker.assertFailed || !hooker.chainAtEnd))
    (hcall : hooker.CallOk call ↔ hooker.chainAtEnd) : hooker.StepOk call hooker' := by
  refine ⟨h.inv, fun hok => ?_⟩
  rw [h.lifeCycleOk_iff, hok.asserts, hcall, Bool.false_or, Bool.not_eq_false']

theorem Waiting.lifeInv (h : hooker.Waiting assertFailed) (hphase : hooker.phase = .waiting) :
    hooker.LifeInv := by
  rw [LifeInv, hphase]
  exact ⟨⟨rfl, h.once, h.logged⟩, h.hooked, h.done⟩

/-- A request that waits for a callback, or for none. -/
theorem Waiting.stepOk (h : hooker'.Waiting hooker.assertFailed)
    (hcall : hooker.CallOk call ↔ hooker'.nodeState.awaits = true) :
    hooker.StepOk call (hooker'.enter .waiting) := by
  have hphase : (hooker'.enter .waiting).phase = .waiting := phase_enter h.hooked .waiting
  have hinv : (hooker'.enter .waiting).LifeInv :=
    Waiting.lifeInv ⟨⟨h.asserts, h.once, h.logged⟩, h.hooked, h.done⟩ hphase
  refine ⟨hinv, fun hok => ?_⟩
  rw [lifeCycleOk_iff hinv, hcall, hphase]
  exact ⟨fun hends => hends.2 rfl, fun hawaits => ⟨h.asserts.trans hok.asserts, fun _ => hawaits⟩⟩

/-- A handler that is done with a request that does not await anything. -/
theorem Processing.waiting (h : hooker.Processing assertFailed) : hooker.Waiting assertFailed := by
  refine ⟨h.toLedger, h.hooked, fun hawaits => ?_⟩
  rw [h.quiet] at hawaits
  cases hawaits

theorem phaseAfter_eq_waiting (h : finishsuccess = true →
      hooker.chainStatus ≠ .chainBegin ∧ hooker.chainStatus ≠ .chainMiddle) :
    hooker.phaseAfter finishsuccess = .waiting :=
  if_neg fun hmiddle => hmiddle.2.elim (h hmiddle.1).1 (h hmiddle.1).2

section

variable (h : hooker.LifeInv)
include h

theorem stepOk_processLocalFinished
    (heq : hooker.call codec answers (.processLocalFinished finishsuccess) = some hooker') :
    hooker.StepOk (.processLocalFinished finishsuccess, answers) hooker' := by
  obtain ⟨hphase, hcall⟩ := ite_none_right_eq_some.mp heq
  obtain ⟨finished, hfinished, rfl⟩ := map_eq_some_iff.mp hcall
  have hprocessing := h.processing hphase
  by_cases hhooked : hooker.isHooked
  · rcases processLocalFinished_cases hprocessing hhooked hfinished with
      ⟨hover, hend⟩ | ⟨hsame, hprepared, hstuck⟩ | ⟨hwaiting, hawaits, hchain⟩
    · refine (hover.handled_enter _).stepOk ⟨hhooked, fun hprepared => ?_⟩
      rcases chainAtEnd_iff.mp (hend hprepared) with hend | hno
      · simp [hend]
      · simp [hno]
    · subst hsame
      by_cases hmiddle : finishsuccess = true ∧
          (finished.chainStatus = .chainBegin ∨ finished.chainStatus = .chainMiddle)
      · rw [show finished.phaseAfter finishsuccess = .processing from if_pos hmiddle]
        refine hprocessing.handled_enter.stepOk ⟨hhooked, fun _ => ?_⟩
        rcases hmiddle.2 with hbegin | hmiddle
        · simp [hbegin]
        · simp [hmiddle]
      · -- the chain is beyond its end: nobody will call back
        rw [show finished.phaseAfter finishsuccess = .waiting from if_neg hmiddle]
        refine hprocessing.waiting.stepOk (iff_of_false (fun hcallOk => ?_) ?_)
        · obtain ⟨hstop, hunknown⟩ := hcallOk.2 hprepared
          cases finishsuccess with
          | false => exact hstop hstuck
          | true =>
            have hnot : ¬ (finished.chainStatus = .chainEnd ∨ finished.chainStatus = .noChain) := by
              rw [← chainAtEnd_iff, Bool.not_eq_true]
              exact hstuck
            cases hstatus : finished.chainStatus <;> simp_all
        · rw [hprocessing.quiet]
          exact Bool.false_ne_true
    · have hphase : hooker.phaseAfter finishsuccess = .waiting := by
        refine phaseAfter_eq_waiting fun hsuccess => ?_
        rw [if_pos hsuccess] at hchain
        rcases chainAtEnd_iff.mp hchain with hend | hno
        · simp [hend]
        · simp [hno]
      rw [hphase]
      refine hwaiting.stepOk (iff_of_true ⟨hhooked, fun _ => ?_⟩ hawaits)
      cases finishsuccess with
      | false => exact ⟨hchain, fun h => absurd h Bool.false_ne_true⟩
      | true =>
        rcases chainAtEnd_iff.mp hchain with hend | hno
        · simp [hend]
        · simp [hno]
  · have hsame : hooker = finished := by simpa [processLocalFinished, hhooked] using hfinished
    subst hsame
    have hno := hprocessing.unhooked (Bool.not_eq_true _ ▸ hhooked)
    rw [phaseAfter_eq_waiting fun _ => by simp [hno]]
    refine hprocessing.waiting.stepOk (iff_of_false (fun hcallOk => hhooked hcallOk.1) ?_)
    rw [hprocessing.quiet]
    exact Bool.false_ne_true

theorem LifeInv.phase_eq_waiting (hawaits : hooker.nodeState.awaits = true) :
    hooker.phase = .waiting := by
  cases hphase : hooker.phase with
  | waiting => rfl
  | idle =>
    rw [LifeInv, hphase] at h
    exact absurd (h.quiet.symm.trans hawaits) Bool.false_ne_true
  | processing =>
    rw [LifeInv, hphase] at h
    exact absurd (h.quiet.symm.trans hawaits) Bool.false_ne_true

/-- The primary goes from one waiting state to another. -/
theorem stepOk_nodeState {nodeState : NodeStateType}
    (hstate : hooker.nodeState = .waitReplicaFinishProcess ∨
      hooker.nodeState = .waitReplicaFinishLog) (hnext : nodeState.awaits = true)
    (hcall : hooker.CallOk call) : hooker.StepOk call { hooker with nodeState } := by
  have hawaits : hooker.nodeState.awaits = true := by
    rcases hstate with hstate | hstate <;> rw [hstate] <;> rfl
  have hphase := h.phase_eq_waiting hawaits
  have hinv : LifeInv { hooker with nodeState } :=
    ((h.waiting hawaits).nodeState hstate).lifeInv hphase
  refine ⟨hinv, fun hok => iff_of_true ?_ hcall⟩
  exact (lifeCycleOk_iff hinv).mpr ⟨hok.asserts, fun _ => hnext⟩

/-- The node manager does not call back before the end of a chain, but for an abort. -/
theorem stepOk_callback {call : HookCall} (hcall : ¬ isHandlerCall call)
    (hend : ∀ finishsuccess, call ≠ .processLocalFinished finishsuccess)
    (heq : hooker.call codec answers call = some hooker') :
    hooker.StepOk (call, answers) hooker' := by
  cases call with
  | replicasFinishedProcess =>
    obtain ⟨hstate, hcall⟩ := ite_none_right_eq_some.mp heq
    rw [← some.inj hcall]
    exact stepOk_nodeState h (.inl hstate) rfl trivial
  | replicaAborted =>
    obtain ⟨hstate, hcall⟩ := ite_none_right_eq_some.mp heq
    rw [← some.inj hcall]
    exact stepOk_nodeState h hstate rfl trivial
  | replicasFinishedLog =>
    obtain ⟨hstate, hcall⟩ := ite_none_right_eq_some.mp heq
    have hawaits : hooker.nodeState.awaits = true := hstate ▸ rfl
    have hchain := (h.waiting hawaits).chainAtEnd (.inr (.inl hstate))
    exact (handled_commitCallback h hawaits hcall).stepOk_of_chain (iff_of_true trivial hchain)
  | primaryFinished =>
    obtain ⟨hstate, hcall⟩ := ite_none_right_eq_some.mp heq
    have hawaits : hooker.nodeState.awaits = true := hstate ▸ rfl
    have hchain := (h.waiting hawaits).chainAtEnd (.inr (.inr hstate))
    exact (handled_commitCallback h hawaits hcall).stepOk_of_chain (iff_of_true trivial hchain)
  | replicasFinishedAbort =>
    obtain ⟨hstate, hcall⟩ := ite_none_right_eq_some.mp heq
    have hawaits : hooker.nodeState.awaits = true := hstate ▸ rfl
    have hdone := ((h.waiting hawaits).done hawaits).2.2.2
    exact (handled_abortCallback h hawaits hcall).stepOk_of_chain hdone.chainAtEnd_iff.symm
  | primaryAborted =>
    obtain ⟨hstate, hcall⟩ := ite_none_right_eq_some.mp heq
    have hawaits : hooker.nodeState.awaits = true := by
      rcases hstate with hstate | hstate <;> rw [hstate] <;> rfl
    have hdone := ((h.waiting hawaits).done hawaits).2.2.2
    exact (handled_abortCallback h hawaits hcall).stepOk_of_chain hdone.chainAtEnd_iff.symm
  | processLocalFinished finishsuccess => exact absurd rfl (hend finishsuccess)
  | _ => exact absurd rfl hcall

theorem stepOk_step (hstep : hooker.Step codec call hooker') : hooker.StepOk call hooker' := by
  obtain ⟨call, answers⟩ := call
  by_cases hhandler : isHandlerCall call
  · refine (handled_call h hhandler hstep).stepOk ?_
    cases call <;> trivial
  by_cases hend : ∃ finishsuccess, call = .processLocalFinished finishsuccess
  · obtain ⟨finishsuccess, rfl⟩ := hend
    exact stepOk_processLocalFinished h hstep
  · exact stepOk_callback h hhandler (not_exists.mp hend) hstep

end

theorem lifeInv_start : ({} : RequestHooker).LifeInv :=
  show ({} : RequestHooker).Over false from ⟨⟨rfl, rfl, rfl⟩, ⟨rfl, rfl, rfl, rfl⟩, rfl⟩

end RequestHooker

/-- Requests live and end as they should all along a run exactly when no handler stops its chain
and no request is rolled back that this worker aborted itself. -/
theorem holdsAlong_lifeCycleOk_iff (codec : ReqCodec) (calls : List (HookCall × Answers)) :
    HoldsAlong (RequestHooker.Step codec) RequestHooker.LifeCycleOk {} calls ↔
      StepsMeet (RequestHooker.Step codec) RequestHooker.CallOk {} calls := by
  refine holdsAlong_iff_stepsMeet (Q := LifeInv) ?_ ?_
    lifeInv_start ?_ calls
  · intro hooker call hooker' hinv hstep
    exact (stepOk_step hinv hstep).1
  · intro hooker call hooker' hinv hok hstep
    exact (stepOk_step hinv hstep).2 hok
  · exact ⟨rfl, rfl, rfl, fun _ => ⟨rfl, rfl, rfl, rfl⟩, fun h => HookPhase.noConfusion h⟩

/-- Also where an assertion fails, a prepared request is finished at most once, and logged exactly
when it is finished with success. -/
theorem holdsAlong_lifeInv (codec : ReqCodec) (calls : List (HookCall × Answers)) :
    HoldsAlong (RequestHooker.Step codec) LifeInv {} calls := by
  intro before after hooker _ hrun
  refine hrun.invariant (P := LifeInv) ?_ lifeInv_start
  exact fun _ _ _ hinv hstep => (stepOk_step hinv hstep).1

/-- The packed form of small numbers and short strings. -/
def smallCodec : ReqCodec where
  packReqLogData reqdata :=
    [reqdata.incId.toUInt8, reqdata.reqtype.toUInt8,
      0xa0 + UInt8.ofNat reqdata.reqJsonData.length] ++ reqdata.reqJsonData
  unpackReqLogData
    | incId :: reqtype :: _ :: reqJsonData =>
      some { incId := incId.toUInt32, reqtype := reqtype.toUInt32, reqJsonData }
    | _ => none
  pack_ne_nil _ := List.cons_ne_nil _ _

/-- A request from the queue that is prepared and then fails. -/
def failedRequest : List (HookCall × Answers) :=
  [(.hookCurrentReq .fromDistribute [0x7b, 0x7d], {}), (.processLocalBegin, {}),
    (.prepare .noAdditionDataNoRollback {}, {}), (.processLocalFinished false, {}),
    (.replicasFinishedAbort, {})]

theorem not_holdsAlong_lifeCycleOk_failedRequest :
    ¬ HoldsAlong (RequestHooker.Step smallCodec) RequestHooker.LifeCycleOk {} failedRequest := by
  intro hall
  have hrun : Run (RequestHooker.Step smallCodec) {} failedRequest _ :=
    .cons rfl (.cons rfl (.cons rfl (.cons rfl (.cons rfl (.nil _)))))
  have hok := hall failedRequest [] _ (List.append_nil _) hrun
  exact absurd hok.asserts (by decide)

end AdDelivery.NodeManager
