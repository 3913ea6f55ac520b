import AdDelivery.Core.Ascending
import Mathlib.Data.List.Sort

/-!
# Backups, rollback and the check of the log

The collection data is the list of requests that were applied to it. A backup copies the data and
the log into a directory that is named by the last logged id. A rollback restores the newest
backup below the id that failed and does the requests after it again from the log that was moved
away. A node that recovers compares its log with that of the primary, batch by batch.
-/

namespace AdDelivery.NodeManager

/-- An entry of the log. Its packed data has its id. -/
structure LogEntry where
  incId : ℕ
  reqJsonData : List UInt8
  deriving DecidableEq

/-- A backup directory. A copy that did not finish is marked by a file. -/
structure BackupDir where
  incId : ℕ
  isDirCopyOK : Bool
  data : List LogEntry
  log : List LogEntry

/-- How a copy ends: as a whole, or with whatever was copied by then. The collections come first and
the log comes last. -/
inductive CopyEnd
  | whole
  | broken (data log : List LogEntry)

def getLastSuccessReqId (log : List LogEntry) : ℕ := lastKey LogEntry.incId log

/-- The loop of the binary search; it ends within one round for each entry. -/
def searchHead (log : List LogEntry) (incId : ℕ) : ℕ → ℕ → ℕ → Option ℕ → Option ℕ
  | 0, _, _, headoffset => headoffset
  | rounds + 1, start, stop, headoffset =>
    if stop < start then headoffset
    else
      let mid := (stop - start) / 2 + start
      match log[mid]? with
      | none => headoffset
      | some cur =>
        if incId < cur.incId then
          if mid = 0 then some mid else searchHead log incId rounds start (mid - 1) (some mid)
        else if cur.incId < incId then searchHead log incId rounds (mid + 1) stop headoffset
        else some mid

/-- The place of the entry with the id, or of the first one after it. -/
def getHeadOffset (log : List LogEntry) (incId : ℕ) : Option ℕ :=
  if log = [] ∨ getLastSuccessReqId log < incId then none
  else searchHead log incId log.length 0 (log.length - 1) none

def getReqLogIdList (log : List LogEntry) (start maxReturn : ℕ) : List LogEntry :=
  match getHeadOffset log start with
  | none => []
  | some headoffset =>
    let maxReturn :=
      if getLastSuccessReqId log < maxReturn then getLastSuccessReqId log else maxReturn
    (log.drop headoffset).take maxReturn

def maxBackupNum : ℕ := 3

/-- The loop over the backups, the newest first. The one with id 0 stays. -/
def keepBackups : ℕ → List BackupDir → List BackupDir
  | _, [] => []
  | keeped, dir :: dirs =>
    if dir.incId = 0 then dir :: keepBackups keeped dirs
    else if maxBackupNum ≤ keeped then keepBackups keeped dirs
    else if dir.isDirCopyOK then dir :: keepBackups (keeped + 1) dirs
    else keepBackups keeped dirs

/-- The loop over the backups, the newest first. It removes unfinished copies on its way. -/
def findBackup (lessThan : ℕ) : List BackupDir → Option BackupDir × List BackupDir
  | [] => (none, [])
  | dir :: dirs =>
    if dir.isDirCopyOK then
      if lessThan = 0 ∨ dir.incId < lessThan then (some dir, dir :: dirs)
      else
        let (found, dirs) := findBackup lessThan dirs
        (found, dir :: dirs)
    else findBackup lessThan dirs

/-- A node with its backups. -/
structure RecoveryChecker where
  data : List LogEntry := []
  log : List LogEntry := []
  backups : List BackupDir := []
  rollbackFlag : Option ℕ := none

namespace RecoveryChecker

variable (checker : RecoveryChecker)

def getBackupList : List BackupDir :=
  checker.backups.insertionSort fun dir dir' => dir'.incId ≤ dir.incId

def cleanUnnessesaryBackup : RecoveryChecker :=
  { checker with backups := keepBackups 0 checker.getBackupList }

def getLastBackup (lessThan : ℕ) : Option BackupDir × RecoveryChecker :=
  let (found, backups) := findBackup lessThan checker.getBackupList
  (found, { checker with backups })

/-- The directory that a copy leaves. -/
def copyDir (copied : CopyEnd) : BackupDir :=
  let incId := getLastSuccessReqId checker.log
  match copied with
  | .whole => { incId, isDirCopyOK := true, data := checker.data, log := checker.log }
  | .broken data log => { incId, isDirCopyOK := false, data, log }

/-- A finished copy under the same name is taken for this backup. -/
def backup (copied : CopyEnd) : Bool × RecoveryChecker :=
  let dir := checker.copyDir copied
  if checker.backups.any fun dir' => dir'.incId = dir.incId ∧ dir'.isDirCopyOK then (true, checker)
  else
    let backups := dir :: checker.backups.filter (·.incId ≠ dir.incId)
    if dir.isDirCopyOK then (true, { checker with backups }.cleanUnnessesaryBackup)
    else (false, { checker with backups })

/-- A request is applied and logged; the log only takes ascending ids. -/
def handleReqFromLog (entry : LogEntry) : Option RecoveryChecker :=
  if getLastSuccessReqId checker.log < entry.incId then
    some { checker with data := checker.data ++ [entry], log := checker.log ++ [entry] }
  else none

/-- The loop over the redo log, up to the end id. -/
def redoEntries (endId : ℕ) : List LogEntry → RecoveryChecker → Option RecoveryChecker
  | [], checker => some checker
  | entry :: redolog, checker =>
    if endId ≤ entry.incId then some checker
    else (checker.handleReqFromLog entry).bind (redoEntries endId redolog)

def redoLog (redolog : List LogEntry) (startId endId : ℕ) : Option RecoveryChecker :=
  if getLastSuccessReqId redolog < startId then none
  else
    match getHeadOffset redolog startId with
    | none => none
    | some redoOffset => redoEntries endId (redolog.drop redoOffset) checker

/-- The newest backup below the id that failed, or the data as it is when there is none. -/
def restore (found : Option BackupDir) : RecoveryChecker :=
  match found with
  | some dir => { checker with data := dir.data, log := dir.log, rollbackFlag := none }
  | none => { checker with log := [], rollbackFlag := none }

/-- A rollback with id 0 has no redo. -/
def rollbackLastFail : Option RecoveryChecker :=
  match checker.rollbackFlag with
  | none => some checker
  | some rollbackId =>
    let lastWriteId := getLastSuccessReqId checker.log
    let (found, restored) := checker.getLastBackup rollbackId
    let lastBackupId := (found.map BackupDir.incId).getD 0
    if rollbackId ≠ 0 ∧ rollbackId ≤ lastBackupId then none
    else
      let restored := restored.restore found
      if lastBackupId = lastWriteId then some restored
      else if rollbackId = 0 ∨ lastWriteId = 0 then some restored
      else restored.redoLog checker.log (lastBackupId + 1) rollbackId

end RecoveryChecker

/-- The comparison of a batch. `checkStart` is the id of the last equal entry, or the id before
the first one if that one differs. -/
def compareLogs (checkStart : ℕ) (first : Bool) : List LogEntry → List LogEntry → ℕ
  | entry :: localLog, entry' :: primaryLog =>
    if entry ≠ entry' then if first then entry.incId - 1 else checkStart
    else compareLogs entry.incId false localLog primaryLog
  | _, _ => checkStart

/-- What a round of the check comes to: the answer, with the flag for a rollback, or the place
where the next round begins. -/
inductive CheckStep
  | result (ret : Bool) (rollbackFlag : Option ℕ)
  | next (checkStart : ℕ)

/-- One round. `ready` says whether the primary is ready for it, before and after. -/
def checkRound (batch : ℕ) (localLog primaryLog : List LogEntry) (ready : Bool)
    (checkStart : ℕ) : CheckStep :=
  let newestReqid := getLastSuccessReqId localLog
  let primaryLogdataList := getReqLogIdList primaryLog checkStart batch
  let localLogdataList := getReqLogIdList localLog checkStart primaryLogdataList.length
  let minSize := min localLogdataList.length primaryLogdataList.length
  let compared := compareLogs checkStart true localLogdataList primaryLogdataList
  if minSize = 0 ∧ compared ≤ newestReqid then
    if ready then .result false (some compared) else .next compared
  else if newestReqid ≤ compared then .result true none
  else if localLogdataList.getLast?.map LogEntry.incId ≠ some compared then
    .result false (some (compared + 1))
  else .next (compared + 1)

/-- The rounds of the check. The answers of the primary are numbered. -/
def checkRounds (batch : ℕ) (localLog primaryLog : List LogEntry) (ready : ℕ → Bool) :
    ℕ → ℕ → ℕ → Option (Bool × Option ℕ)
  | 0, _, _ => none
  | fuel + 1, round, checkStart =>
    match checkRound batch localLog primaryLog (ready round) checkStart with
    | .result ret rollbackFlag => some (ret, rollbackFlag)
    | .next checkStart =>
      checkRounds batch localLog primaryLog ready fuel (round + 1) checkStart

/-- An empty log is never ahead. -/
def checkIfLogForward (batch : ℕ) (localLog primaryLog : List LogEntry) (ready : ℕ → Bool)
    (fuel : ℕ) : Option (Bool × Option ℕ) :=
  if getLastSuccessReqId localLog = 0 then some (true, none)
  else checkRounds batch localLog primaryLog ready fuel 0 0

end AdDelivery.NodeManager
