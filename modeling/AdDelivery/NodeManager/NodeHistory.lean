import AdDelivery.NodeManager.Rollback

/-!
# The history of a node

Requests are committed or aborted, backups are made, and the node is rolled back. Data and log are
the committed requests all along a run exactly when no request reaches the id of a backup from
before a rollback, and each rollback finds a backup to start from.
-/

namespace AdDelivery.NodeManager

open List LogEntry RecoveryChecker Option

/-- A log with its ids ascending from 1. -/
structure LogSorted (log : List LogEntry) : Prop where
  ascending : Ascending incId log
  pos : ∀ entry ∈ log, 0 < entry.incId

/-- A node with the requests that it should have: those that were committed and not rolled back
since. -/
structure NodeHistory where
  checker : RecoveryChecker := {}
  committed : List LogEntry := []

/-- A request may be committed, on a primary or from one. A request that fails may have been
applied to the data. `copied` says how the copy of a backup ends. -/
inductive HistoryCall
  | commit (request : LogEntry)
  | abortRequest (request : LogEntry) (applied : Bool)
  | backup (copied : CopyEnd)
  | rollback (rollbackId : ℕ)

namespace NodeHistory

variable (node : NodeHistory)

def lastId : ℕ := getLastSuccessReqId node.checker.log

/-- The flag is set and the node rolled back, with the data as they are. -/
def rollback (rollbackId : ℕ) (data : List LogEntry) : Option NodeHistory :=
  { node.checker with data, rollbackFlag := some rollbackId }.rollbackLastFail.map fun checker =>
    { checker, committed := below incId rollbackId node.committed }

/-- The id of a request is above that of the last one, and a rollback is at most one above it. -/
def call : HistoryCall → Option NodeHistory
  | .commit request =>
    (node.checker.handleReqFromLog request).map fun checker =>
      { checker, committed := node.committed ++ [request] }
  | .abortRequest request applied =>
    if request.incId = node.lastId + 1 then
      node.rollback request.incId
        (if applied then node.checker.data ++ [request] else node.checker.data)
    else none
  | .backup copied => some { node with checker := (node.checker.backup copied).2 }
  | .rollback rollbackId =>
    if 0 < rollbackId ∧ rollbackId ≤ node.lastId + 1 then
      node.rollback rollbackId node.checker.data
    else none

def Step (node : NodeHistory) (call : HistoryCall) (node' : NodeHistory) : Prop :=
  node.call call = some node'

/-- Data and log are the committed requests, and so far as its id every backup that can be chosen
is a prefix of them. -/
structure HistoryOk (node : NodeHistory) : Prop where
  data : node.checker.data = node.committed
  log : node.checker.log = node.committed
  choosable : ∀ dir ∈ node.checker.backups, dir.isDirCopyOK → dir.incId ≤ node.lastId →
    dir.log <+: node.committed ∧ dir.data = dir.log

/-- A request does not reach the id of a backup that another history left, and there is a backup
to roll back to, unless there is nothing to remove. -/
def CallOk (node : NodeHistory) : HistoryCall → Prop
  | .commit request => ∀ dir ∈ node.checker.backups, dir.isDirCopyOK → node.lastId < dir.incId →
      dir.incId ≤ request.incId →
        dir.log = node.committed ++ [request] ∧ dir.data = dir.log
  | .abortRequest request applied => (node.committed = [] ∧ applied = false) ∨
      ∃ dir ∈ node.checker.backups, dir.isDirCopyOK ∧ dir.incId < request.incId
  | .backup _ => True
  | .rollback rollbackId => node.committed = [] ∨
      ∃ dir ∈ node.checker.backups, dir.isDirCopyOK ∧ dir.incId < rollbackId

/-- What holds of a node in any case. Of a copy that did not finish nothing is known. -/
structure HistoryInv (node : NodeHistory) : Prop where
  log : LogSorted node.checker.log
  backups : ∀ dir ∈ node.checker.backups, dir.isDirCopyOK →
    LogSorted dir.log ∧ getLastSuccessReqId dir.log = dir.incId

end NodeHistory

theorem LogSorted.below {log : List LogEntry} (h : LogSorted log) (bound : ℕ) :
    LogSorted (below incId bound log) :=
  ⟨h.ascending.below bound, fun entry hentry => h.pos entry (mem_below.mp hentry).1⟩

variable {log part : List LogEntry}

/-- A prefix of a log is the log up to its last id. -/
theorem LogSorted.eq_below (h : LogSorted log) (hpart : part <+: log) :
    part = AdDelivery.below incId (getLastSuccessReqId part + 1) log := by
  obtain ⟨rest, rfl⟩ := hpart
  rcases eq_nil_or_concat' part with rfl | ⟨part, entry, rfl⟩
  · exact (below_eq_nil h.pos).symm
  · have hsplit : part ++ [entry] ++ rest = part ++ entry :: rest := by simp
    have hasc := h.ascending
    rw [hsplit] at hasc ⊢
    rw [getLastSuccessReqId, lastKey_concat, hasc.below_succ_append_cons]

theorem LogSorted.below_isPart {log : List LogEntry} (h : LogSorted log) (bound : ℕ) :
    AdDelivery.below incId bound log <+: log :=
  ⟨_, h.ascending.below_append_dropWhile bound⟩

/-- What stands below an id, from a prefix and the requests after it. -/
theorem LogSorted.append_redone {rollbackId : ℕ} (h : LogSorted log) (hpart : part <+: log)
    (hlt : getLastSuccessReqId part < rollbackId) :
    part ++ redone log (getLastSuccessReqId part) rollbackId =
      AdDelivery.below incId rollbackId log := by
  have hsplit := h.ascending.below_append_dropWhile (getLastSuccessReqId part + 1)
  rw [← h.eq_below hpart] at hsplit
  have hbelow : AdDelivery.below incId rollbackId part = part :=
    below_eq_self fun entry hentry =>
      ((h.ascending.sublist hpart.sublist).le_lastKey hentry).trans_lt hlt
  conv_rhs => rw [← hsplit, below_append, hbelow]
  rfl

namespace NodeHistory

variable {node node' : NodeHistory}

theorem HistoryInv.logSorted_redone (h : node.HistoryInv) {part : List LogEntry}
    (hpart : LogSorted part) (rollbackId : ℕ) : LogSorted (part ++
      redone node.checker.log (getLastSuccessReqId part) rollbackId) := by
  have hrest {entry : LogEntry} (hentry : entry ∈
      redone node.checker.log (getLastSuccessReqId part) rollbackId) :
      getLastSuccessReqId part < entry.incId ∧ entry ∈ node.checker.log := by
    have hdrop := (mem_below.mp hentry).1
    exact ⟨h.log.ascending.le_of_mem_dropWhile hdrop, (dropWhile_sublist _).mem hdrop⟩
  refine ⟨pairwise_append.mpr ⟨hpart.ascending, ?_, fun entry hentry entry' hentry' => ?_⟩, ?_⟩
  · have hrest : Ascending incId
        (node.checker.log.dropWhile (·.incId < getLastSuccessReqId part + 1)) :=
      h.log.ascending.sublist (dropWhile_sublist _)
    exact hrest.below rollbackId
  · exact (hpart.ascending.le_lastKey hentry).trans_lt (hrest hentry').1
  · intro entry hentry
    rcases mem_append.mp hentry with hentry | hentry
    · exact hpart.pos entry hentry
    · exact h.log.pos entry (hrest hentry).2

/-- What a rollback finds, and what it makes of it. -/
structure RolledBack (node : NodeHistory) (rollbackId : ℕ) (dirty : List LogEntry)
    (node' : NodeHistory) (base : BackupDir) : Prop where
  data : node'.checker.data = base.data ++
    redone node.checker.log (getLastSuccessReqId base.log) rollbackId
  log : node'.checker.log = base.log ++
    redone node.checker.log (getLastSuccessReqId base.log) rollbackId
  committed : node'.committed = below incId rollbackId node.committed
  backups : node'.checker.backups ⊆ node.checker.backups
  sorted : LogSorted base.log
  found : (base ∈ node.checker.backups ∧ base.isDirCopyOK ∧ base.incId < rollbackId ∧
      getLastSuccessReqId base.log = base.incId) ∨
    (base.data = dirty ∧ base.log = [] ∧
      ∀ dir ∈ node.checker.backups, dir.isDirCopyOK → ¬ dir.incId < rollbackId)

variable {dirty : List LogEntry} {rollbackId : ℕ}

section

variable (h : node.HistoryInv) (hid : 0 < rollbackId) (hle : rollbackId ≤ node.lastId + 1)
    (heq : node.rollback rollbackId dirty = some node')
include h hid hle heq

theorem rolledBack_rollback : ∃ base, node.RolledBack rollbackId dirty node' base := by
  -- the node with its flag, before it is rolled back
  obtain ⟨checker, hchecker⟩ : ∃ checker : RecoveryChecker, checker =
      { node.checker with data := dirty, rollbackFlag := some rollbackId } := ⟨_, rfl⟩
  have hlog : checker.log = node.checker.log := hchecker ▸ rfl
  have hbackups : checker.backups = node.checker.backups := hchecker ▸ rfl
  have hsubset : (checker.getLastBackup rollbackId).2.backups ⊆ node.checker.backups := by
    intro dir hdir
    rw [← hbackups]
    exact mem_getBackupList.mp
      (findBackup_subset rollbackId _ hdir)
  rw [NodeHistory.rollback, ← hchecker] at heq
  have hle' : rollbackId ≤ getLastSuccessReqId checker.log + 1 := hlog ▸ hle
  have hasc : Ascending incId checker.log := hlog ▸ h.log.ascending
  cases hfound : (checker.getLastBackup rollbackId).1 with
  | some dir =>
    obtain ⟨hmem, hok, hless⟩ := findBackup_eq_some hfound
    rw [mem_getBackupList, hbackups] at hmem
    obtain ⟨hsorted, hdirId⟩ := h.backups dir hmem hok
    rw [rollbackLastFail_eq hasc (hchecker ▸ rfl) hid hle' hfound hdirId,
      map_some, some.injEq] at heq
    subst heq
    refine ⟨dir, ?_, ?_, rfl, hsubset, hsorted,
      .inl ⟨hmem, hok, hless.resolve_left hid.ne', hdirId⟩⟩
    · rw [hdirId, ← hlog]
      rfl
    · rw [hdirId, ← hlog]
      rfl
  | none =>
    rw [rollbackLastFail_eq hasc (hchecker ▸ rfl) hid hle' hfound rfl, map_some, some.injEq] at heq
    subst heq
    refine ⟨checker.base none, ?_, ?_, rfl, hsubset, ⟨.nil, nofun⟩,
      .inr ⟨hchecker ▸ rfl, rfl, fun dir hdir hok hlt => ?_⟩⟩
    · rw [← hlog]
      rfl
    · rw [← hlog]
      rfl
    · rw [← hbackups, ← mem_getBackupList] at hdir
      exact findBackup_eq_none hfound dir hdir hok (.inr hlt)

theorem HistoryInv.rollback : node'.HistoryInv := by
  obtain ⟨base, hbase⟩ := rolledBack_rollback h hid hle heq
  refine ⟨?_, fun dir hdir => h.backups dir (hbase.backups hdir)⟩
  rw [hbase.log]
  exact h.logSorted_redone hbase.sorted rollbackId

end

/-- A rollback keeps a good node good exactly when it finds a backup, or nothing has to go. -/
theorem historyOk_rollback_iff (h : node.HistoryInv) (hok : node.HistoryOk) (hid : 0 < rollbackId)
    (hle : rollbackId ≤ node.lastId + 1) (heq : node.rollback rollbackId dirty = some node') :
    node'.HistoryOk ↔ dirty = [] ∨
      ∃ dir ∈ node.checker.backups, dir.isDirCopyOK ∧ dir.incId < rollbackId := by
  obtain ⟨base, hbase⟩ := rolledBack_rollback h hid hle heq
  have hsorted : LogSorted node.committed := hok.log ▸ h.log
  -- in both cases the log is what it should be
  have hpart : base.log <+: node.committed ∧ getLastSuccessReqId base.log < rollbackId := by
    rcases hbase.found with ⟨hmem, hdirOk, hlt, hdirId⟩ | ⟨-, hnil, -⟩
    · refine ⟨(hok.choosable base hmem hdirOk ?_).1, hdirId ▸ hlt⟩
      exact Nat.le_of_lt_succ (hlt.trans_le hle)
    · rw [hnil]
      exact ⟨ nil_prefix, hid⟩
  have hredone := hsorted.append_redone hpart.1 hpart.2
  have hlog : node'.checker.log = node'.committed := by
    rw [hbase.log, hbase.committed, hok.log, hredone]
  have hchoosable : ∀ dir ∈ node'.checker.backups, dir.isDirCopyOK → dir.incId ≤ node'.lastId →
      dir.log <+: node'.committed ∧ dir.data = dir.log := by
    intro dir hdir hdirOk hdirId
    have hmem := hbase.backups hdir
    have hlast : node'.lastId < rollbackId := by
      rw [lastId, hlog, hbase.committed]
      exact lastKey_lt hid fun entry hentry => (mem_below.mp hentry).2
    obtain ⟨hpart, hdata⟩ := hok.choosable dir hmem hdirOk (by omega)
    refine ⟨?_, hdata⟩
    rw [hsorted.eq_below hpart, (h.backups dir hmem hdirOk).2, hbase.committed,
      ← below_below (show dir.incId + 1 ≤ rollbackId by omega)]
    exact (hsorted.below rollbackId).below_isPart _
  have hiff : node'.HistoryOk ↔ node'.checker.data = node'.checker.log :=
    ⟨fun hok' => hok'.data.trans hok'.log.symm, fun hdata => ⟨hdata.trans hlog, hlog, hchoosable⟩⟩
  rw [hiff, hbase.data, hbase.log, append_cancel_right_eq]
  rcases hbase.found with ⟨hmem, hdirOk, hlt, hdirId⟩ | ⟨hdata, hnil, hnone⟩
  · refine iff_of_true ?_ (.inr ⟨base, hmem, hdirOk, hlt⟩)
    exact (hok.choosable base hmem hdirOk (Nat.le_of_lt_succ (hlt.trans_le hle))).2
  · rw [hdata, hnil]
    refine (or_iff_left ?_).symm
    rintro ⟨dir, hdir, hdirOk, hlt⟩
    exact hnone dir hdir hdirOk hlt

/-- A committed request comes last, in the data and in the log. -/
theorem commit_eq {request : LogEntry} (hstep : node.Step (.commit request) node') :
    node.lastId < request.incId ∧ node' =
      { checker :=
          { node.checker with
            data := node.checker.data ++ [request]
            log := node.checker.log ++ [request] }
        committed := node.committed ++ [request] } := by
  obtain ⟨checker, hchecker, rfl⟩ := map_eq_some_iff.mp hstep
  obtain ⟨hlt, hchecker⟩ := ite_none_right_eq_some.mp hchecker
  rw [← some.inj hchecker]
  exact ⟨hlt, rfl⟩

theorem historyInv_step {call : HistoryCall} (h : node.HistoryInv) (hstep : node.Step call node') :
    node'.HistoryInv := by
  cases call with
  | commit request =>
    obtain ⟨hlt, rfl⟩ := commit_eq hstep
    refine ⟨⟨h.log.ascending.concat fun entry hentry => ?_, fun entry hentry => ?_⟩, h.backups⟩
    · exact (h.log.ascending.le_lastKey hentry).trans_lt hlt
    · rcases mem_append.mp hentry with hentry | hentry
      · exact h.log.pos entry hentry
      · rw [mem_singleton.mp hentry]
        exact Nat.zero_lt_of_lt hlt
  | abortRequest request applied =>
    obtain ⟨hid, hcall⟩ := ite_none_right_eq_some.mp hstep
    exact h.rollback (by omega) hid.le hcall
  | backup copied =>
    obtain rfl := some.inj hstep
    obtain ⟨-, hlog⟩ := node.checker.backup_frame copied
    refine ⟨hlog ▸ h.log, fun dir hdir hdirOk => ?_⟩
    rcases mem_backup hdir with hdir | rfl
    · exact h.backups dir hdir hdirOk
    · rw [copyDir_of_isDirCopyOK hdirOk]
      exact ⟨h.log, rfl⟩
  | rollback rollbackId =>
    obtain ⟨⟨hid, hle⟩, hcall⟩ := ite_none_right_eq_some.mp hstep
    exact h.rollback hid hle hcall

/-- The backups below the last id are prefixes as before; those up to the new id have to be the
whole new history. -/
theorem historyOk_commit_iff {request : LogEntry} (h : node.HistoryInv) (hok : node.HistoryOk)
    (hstep : node.Step (.commit request) node') :
    node'.HistoryOk ↔ node.CallOk (.commit request) := by
  obtain ⟨hlt, rfl⟩ := commit_eq hstep
  have hlast : lastId
      { checker :=
          { node.checker with
            data := node.checker.data ++ [request]
            log := node.checker.log ++ [request] }
        committed := node.committed ++ [request] } = request.incId := lastKey_concat _ _
  constructor
  · intro hok' dir hdir hdirOk hbehind hle
    obtain ⟨hpart, hdata⟩ := hok'.choosable dir hdir hdirOk (hlast ▸ hle)
    refine ⟨(prefix_concat_iff.mp hpart).resolve_right fun hold => ?_, hdata⟩
    have hbound : getLastSuccessReqId dir.log ≤ node.lastId := by
      refine Nat.le_of_lt_succ (lastKey_lt (Nat.succ_pos _) fun entry hentry => ?_)
      have hmem : entry ∈ node.checker.log := hok.log ▸ hold.subset hentry
      exact Nat.lt_succ_of_le (h.log.ascending.le_lastKey hmem)
    rw [(h.backups dir hdir hdirOk).2] at hbound
    omega
  · intro hcall
    refine ⟨congrArg (· ++ [request]) hok.data, congrArg (· ++ [request]) hok.log, ?_⟩
    intro dir hdir hdirOk hle
    rw [hlast] at hle
    by_cases hbehind : node.lastId < dir.incId
    · obtain ⟨hlog, hdata⟩ := hcall dir hdir hdirOk hbehind hle
      exact ⟨hlog ▸ prefix_rfl, hdata⟩
    · obtain ⟨hpart, hdata⟩ := hok.choosable dir hdir hdirOk (not_lt.mp hbehind)
      exact ⟨hpart.trans (prefix_append _ _), hdata⟩

theorem historyOk_backup {copied : CopyEnd} (hok : node.HistoryOk)
    (hstep : node.Step (.backup copied) node') : node'.HistoryOk := by
  obtain rfl := some.inj hstep
  obtain ⟨hdata, hlog⟩ := node.checker.backup_frame copied
  refine ⟨hdata.trans hok.data, hlog.trans hok.log, fun dir hdir hdirOk hle => ?_⟩
  rcases mem_backup hdir with hdir | rfl
  · refine hok.choosable dir hdir hdirOk ?_
    rwa [lastId, hlog] at hle
  · rw [copyDir_of_isDirCopyOK hdirOk]
    exact ⟨hok.log ▸ prefix_rfl, hok.data.trans hok.log.symm⟩

theorem historyOk_step_iff {call : HistoryCall} (h : node.HistoryInv) (hok : node.HistoryOk)
    (hstep : node.Step call node') : node'.HistoryOk ↔ node.CallOk call := by
  cases call with
  | commit request => exact historyOk_commit_iff h hok hstep
  | abortRequest request applied =>
    obtain ⟨hid, hcall⟩ := ite_none_right_eq_some.mp hstep
    rw [historyOk_rollback_iff h hok (by omega) hid.le hcall, CallOk, hok.data]
    cases applied with
    | false => simp
    | true => simp
  | backup copied => exact iff_of_true (historyOk_backup hok hstep) trivial
  | rollback rollbackId =>
    obtain ⟨⟨hid, hle⟩, hcall⟩ := ite_none_right_eq_some.mp hstep
    rw [historyOk_rollback_iff h hok hid hle hcall, CallOk, hok.data]

end NodeHistory

/-- Data and log are the committed requests all along a run exactly when no request reaches the
id of a backup that another history left, and each rollback finds a backup. -/
theorem holdsAlong_historyOk_iff (calls : List HistoryCall) :
    HoldsAlong NodeHistory.Step NodeHistory.HistoryOk {} calls ↔
      StepsMeet NodeHistory.Step NodeHistory.CallOk {} calls := by
  refine holdsAlong_iff_stepsMeet (Q := NodeHistory.HistoryInv) ?_ ?_ ?_ ?_ calls
  · intro node call node' hinv hstep
    exact NodeHistory.historyInv_step hinv hstep
  · intro node call node' hinv hok hstep
    exact NodeHistory.historyOk_step_iff hinv hok hstep
  · exact ⟨⟨.nil, nofun⟩, nofun⟩
  · exact ⟨rfl, rfl, nofun⟩

/-- A backup at the second request is left behind by a rollback to the first one. Another second
request and a third one follow, and the third one is rolled back. -/
def staleBackup : List HistoryCall :=
  [.backup .whole, .commit ⟨1, [0]⟩, .commit ⟨2, [0]⟩, .backup .whole, .rollback 2,
    .commit ⟨2, [1]⟩, .rollback 3]

theorem not_holdsAlong_historyOk_staleBackup :
    ¬ HoldsAlong NodeHistory.Step NodeHistory.HistoryOk {} staleBackup := by
  intro hall
  have hrun : Run NodeHistory.Step {} staleBackup _ :=
    .cons rfl (.cons rfl (.cons rfl (.cons rfl (.cons rfl (.cons rfl (.cons rfl (.nil _)))))))
  have hok := hall staleBackup [] _ (append_nil _) hrun
  exact absurd hok.log (by decide)

end AdDelivery.NodeManager
