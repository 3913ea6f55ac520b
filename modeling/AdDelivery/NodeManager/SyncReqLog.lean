import AdDelivery.NodeManager.RequestLifeCycle
import AdDelivery.NodeManager.RequestLogLookup

/-!
# Catching up with the log of another node

A node that comes back asks another one for what is behind its own last request, batch by batch,
and redoes it. A redone request is logged by the hooker. Of the cron jobs without a timestamp only
the last one of each name in a batch is redone, the others go directly to the log.
-/

namespace AdDelivery.NodeManager

open List RequestHooker

/-- The name of the job is the text of the request. -/
structure CronJobReqLog extends ReqData where
  cronTime : ℤ := 0

/-- The data of a cron job begins with what every request has. -/
structure CronCodec extends ReqCodec where
  unpackCronJob : Bytes → Option CronJobReqLog
  unpackReqLogData_of_cronJob : ∀ {packedData crondata}, unpackCronJob packedData = some crondata →
    unpackReqLogData packedData = some crondata.toReqData

/-- The node that catches up: the type with which the handler of a request prepares it, if there
is one that succeeds, and what the surroundings answer meanwhile. -/
structure LogRedoer where
  codec : CronCodec
  handler : ReqData → Option ReqLogType
  answers : Bytes → Answers

inductive SyncExit
  | outOfOrder
  | handleReqFromLogFailed
  | getNewestReqLogFailed
  | outOfRounds

/-- The hooker, with what was got from the other node and what was executed. -/
structure SyncRun where
  hooker : RequestHooker
  batches : List (List Bytes) := []
  executed : List Bytes := []

namespace LogRedoer

variable (redoer : LogRedoer)

/-- Data that cannot be unpacked leaves what the constructor has set. -/
def unpackCommon (packedData : Bytes) : ReqData :=
  (redoer.codec.unpackReqLogData packedData).getD {}

/-- A cron job that can be delayed to the last one of its name. -/
def cronJobWithoutTime (packedData : Bytes) : Option CronJobReqLog :=
  if (redoer.unpackCommon packedData).reqtype = ReqLogType.cronJob.code then
    (redoer.codec.unpackCronJob packedData).filter fun crondata => crondata.cronTime = 0
  else none

def scanForCronJobLog (logdataList : List Bytes) : Table Bytes UInt32 :=
  (logdataList.filterMap redoer.cronJobWithoutTime).foldl
    (fun delayed crondata => Finmap.insert crondata.reqJsonData crondata.incId delayed) ∅

/-- The request is delayed to another one. -/
def isDelayed (delayed : Table Bytes UInt32) (packedData : Bytes) : Option CronJobReqLog :=
  (redoer.cronJobWithoutTime packedData).filter fun crondata =>
    (delayed.lookup crondata.reqJsonData).any fun incId => crondata.incId ≠ incId

/-- The handler begins, prepares the request and finishes it. -/
def handleReqFromLog (hooker : RequestHooker) (packedData : Bytes) : Option RequestHooker := do
  let type ← redoer.handler (redoer.unpackCommon packedData)
  let hooker := (hooker.setHook .fromLog packedData).processLocalBegin
  let (prepared, hooker) ←
    hooker.prepare redoer.codec.toReqCodec (redoer.answers packedData) type {}
  if prepared then hooker.processLocalFinished (redoer.answers packedData) true else none

/-- A delayed request is only logged. Nothing looks at what the log manager returns. -/
def logDelayed (hooker : RequestHooker) (crondata : CronJobReqLog) (packedData : Bytes) :
    RequestHooker :=
  let (_, _, reqLogMgr) := hooker.reqLogMgr.prepareReqLog crondata.toCommonReqData false
  let (_, reqLogMgr, reqLogDir) := reqLogMgr.appendReqData hooker.reqLogDir packedData
    (redoer.answers packedData).dataGood (redoer.answers packedData).headGood
  { hooker with reqLogMgr := reqLogMgr.delPreparedReqLog, reqLogDir }

/-- The loop over a batch. -/
def redoBatch (delayed : Table Bytes UInt32) : List Bytes → UInt32 → SyncRun →
    Except SyncExit SyncRun
  | [], _, run => .ok run
  | packedData :: rest, reqid, run =>
    let reqCommondata := redoer.unpackCommon packedData
    if reqCommondata.incId ≤ reqid then .error .outOfOrder
    else
      match redoer.isDelayed delayed packedData with
      | some crondata =>
        redoBatch delayed rest reqCommondata.incId
          { run with hooker := redoer.logDelayed run.hooker crondata packedData }
      | none =>
        match redoer.handleReqFromLog run.hooker packedData with
        | none => .error .handleReqFromLogFailed
        | some hooker =>
          redoBatch delayed rest reqCommondata.incId
            { run with hooker, executed := run.executed ++ [packedData] }

/-- What the other node answers, from its log. -/
def getNewestReqLog (sourceMgr : ReqLogMgr) (sourceDir : ReqLogDir) (limit startFrom : UInt32) :
    Except String (List Bytes) :=
  (sourceMgr.getReqLogIdList sourceDir startFrom limit true).map Prod.snd

/-- A number of rounds. -/
def syncToNewestReqLog (sourceMgr : ReqLogMgr) (sourceDir : ReqLogDir) (limit : UInt32) :
    ℕ → SyncRun → Except SyncExit SyncRun
  | 0, _ => .error .outOfRounds
  | rounds + 1, run =>
    let reqid := run.hooker.reqLogMgr.getLastSuccessReqId
    match getNewestReqLog sourceMgr sourceDir limit (reqid + 1) with
    | .error _ => .error .getNewestReqLogFailed
    | .ok [] => .ok run
    | .ok (packedData :: rest) =>
      let newlogdataList := packedData :: rest
      match redoer.redoBatch (redoer.scanForCronJobLog newlogdataList) newlogdataList reqid
          { run with batches := run.batches ++ [newlogdataList] } with
      | .error e => .error e
      | .ok run => syncToNewestReqLog sourceMgr sourceDir limit rounds run

end LogRedoer

/-- A request that was logged: what it is, with its bytes. -/
structure ReqLogEntry (codec : ReqCodec) where
  reqdata : ReqData
  packedData : Bytes
  unpack : codec.unpackReqLogData packedData = some reqdata
  packedData_ne_nil : packedData ≠ []

open ReqLogEntry

section Entries

variable {codec : ReqCodec}

/-- The files after the entries were appended one after another. -/
def loggedDir (entries : List (ReqLogEntry codec)) : ReqLogDir :=
  entries.foldl
    (fun dir entry => appended dir entry.reqdata.toCommonReqData entry.packedData)
    { basePath := true, headLog := some [] }

def headsOf (entries : List (ReqLogEntry codec)) : List ReqLogHead := (loggedDir entries).heads

/-- The log manager of a node with these entries, without a prepared request. -/
def mgrOf (entries : List (ReqLogEntry codec)) : ReqLogMgr where
  incId := lastId (headsOf entries) + 1
  lastWritedId := lastId (headsOf entries)

/-- Every head leads to the bytes of its entry, so a request for them succeeds. -/
def ReadsBack (entries : List (ReqLogEntry codec)) : Prop :=
  List.Forall₂ (fun head entry => (loggedDir entries).getReqPackedDataByHead head =
    .ok entry.packedData) (headsOf entries) entries

variable {entries before after : List (ReqLogEntry codec)} {entry : ReqLogEntry codec}

section

variable (entries : List (ReqLogEntry codec))

theorem loggedDir_concat (entry : ReqLogEntry codec) : loggedDir (entries ++ [entry]) =
      appended (loggedDir entries) entry.reqdata.toCommonReqData entry.packedData := by
  rw [loggedDir, foldl_append]
  rfl

theorem headsOf_concat (entry : ReqLogEntry codec) :
    headsOf (entries ++ [entry]) = headsOf entries ++
      [ReqLogMgr.headFor (loggedDir entries) entry.reqdata.toCommonReqData entry.packedData] := by
  rw [headsOf, loggedDir_concat]
  rfl

theorem headLog_loggedDir : (loggedDir entries).headLog = some (headsOf entries) := by
  induction entries using List.reverseRecOn with
  | nil => rfl
  | append_singleton entries entry _ =>
    rw [headsOf_concat, loggedDir_concat]
    rfl

theorem incIds_headsOf :
    (headsOf entries).map ReqLogHead.incId = entries.map fun entry => entry.reqdata.incId := by
  induction entries using List.reverseRecOn with
  | nil => rfl
  | append_singleton entries entry ih =>
    rw [headsOf_concat, map_append, map_append, ih]
    rfl

theorem length_headsOf : (headsOf entries).length = entries.length := by
  have hlength := congrArg List.length (incIds_headsOf entries)
  rwa [List.length_map, List.length_map] at hlength

end

theorem headsOf_append_extends (before after : List (ReqLogEntry codec)) :
    headsOf before <+: headsOf (before ++ after) := by
  induction after using List.reverseRecOn with
  | nil => rw [append_nil]
  | append_singleton after entry ih =>
    rw [← append_assoc, headsOf_concat]
    exact ih.trans (prefix_append _ _)

theorem lastId_headsOf_concat (entries : List (ReqLogEntry codec)) (entry : ReqLogEntry codec) :
    lastId (headsOf (entries ++ [entry])) = entry.reqdata.incId := by
  rw [headsOf_concat, lastId_concat]
  rfl

theorem mgrOf_concat (entries : List (ReqLogEntry codec)) (entry : ReqLogEntry codec) :
    mgrOf (entries ++ [entry]) =
      { incId := entry.reqdata.incId + 1, lastWritedId := entry.reqdata.incId } := by
  rw [mgrOf, lastId_headsOf_concat]

/-- Ids ascend from 1 on, and the greatest one there is has not been given out. -/
structure IdsAscend (entries : List (ReqLogEntry codec)) : Prop where
  pairwise : (entries.map fun entry => entry.reqdata.incId).Pairwise (· < ·)
  ne_zero : ∀ entry ∈ entries, entry.reqdata.incId ≠ 0
  no_wrap : ∀ entry ∈ entries, entry.reqdata.incId + 1 ≠ 0

namespace IdsAscend

theorem increasing (h : IdsAscend entries) : Increasing (headsOf entries) := by
  have hpairwise := h.pairwise
  rw [← incIds_headsOf] at hpairwise
  exact pairwise_map.mp hpairwise

theorem head_ne_zero (h : IdsAscend entries) {head : ReqLogHead} (hmem : head ∈ headsOf entries) :
    head.incId ≠ 0 := by
  have hid : head.incId ∈ (headsOf entries).map ReqLogHead.incId := mem_map_of_mem hmem
  rw [incIds_headsOf] at hid
  obtain ⟨entry, hentry, hid⟩ := mem_map.mp hid
  exact hid ▸ h.ne_zero entry hentry

theorem left (h : IdsAscend (before ++ after)) : IdsAscend before where
  pairwise := by
    have hpairwise := h.pairwise
    rw [map_append] at hpairwise
    exact (pairwise_append.mp hpairwise).1
  ne_zero entry hmem := h.ne_zero entry (mem_append_left _ hmem)
  no_wrap entry hmem := h.no_wrap entry (mem_append_left _ hmem)

/-- Later entries have greater ids than the last one of the log. -/
theorem lastId_lt (h : IdsAscend (before ++ after)) {entry : ReqLogEntry codec}
    (hmem : entry ∈ after) : lastId (headsOf before) < entry.reqdata.incId := by
  induction before using List.reverseRecOn with
  | nil =>
    have hne := h.ne_zero entry hmem
    exact UInt32.pos_iff_ne_zero.mpr hne
  | append_singleton before last _ =>
    rw [lastId_headsOf_concat]
    have hpairwise := h.pairwise
    rw [map_append, pairwise_append] at hpairwise
    exact hpairwise.2.2 _ (mem_map_of_mem (by simp)) _ (mem_map_of_mem hmem)

theorem lastId_add_one_ne_zero (h : IdsAscend entries) : lastId (headsOf entries) + 1 ≠ 0 := by
  induction entries using List.reverseRecOn with
  | nil => exact (by decide : (0 : UInt32) + 1 ≠ 0)
  | append_singleton entries last _ =>
    rw [lastId_headsOf_concat]
    exact h.no_wrap last (by simp)

/-- No id is greater than the last one. -/
theorem le_lastId (h : IdsAscend entries) {head : ReqLogHead} (hmem : head ∈ headsOf entries) :
    head.incId ≤ lastId (headsOf entries) := by
  induction entries using List.reverseRecOn with
  | nil => cases hmem
  | append_singleton entries last _ =>
    have hincreasing := h.increasing
    rw [headsOf_concat] at hmem hincreasing
    rw [lastId_headsOf_concat]
    rcases mem_append.mp hmem with hmem | hmem
    · exact UInt32.le_of_lt
        ((pairwise_append.mp hincreasing).2.2 head hmem _ mem_cons_self)
    · rw [mem_singleton.mp hmem]
      exact UInt32.le_refl _

/-- What is behind the last id of a log, in a longer one. -/
theorem headsFrom_lastId (h : IdsAscend (before ++ after)) :
    headsFrom (headsOf (before ++ after)) (lastId (headsOf before) + 1) =
      (headsOf (before ++ after)).drop before.length := by
  obtain ⟨rest, hrest⟩ := headsOf_append_extends before after
  have hbelow := lt_add_one_iff h.left.lastId_add_one_ne_zero
  rw [← hrest, ← length_headsOf before, drop_left]
  apply headsFrom_append
  · intro head hmem
    exact (hbelow head.incId).mpr (h.left.le_lastId hmem)
  · intro head hmem
    rw [← UInt32.not_lt, hbelow, UInt32.not_le]
    have hids := incIds_headsOf (before ++ after)
    rw [← hrest, map_append, map_append, incIds_headsOf before] at hids
    have hid : head.incId ∈ rest.map ReqLogHead.incId := mem_map_of_mem hmem
    rw [append_cancel_left hids] at hid
    obtain ⟨entry, hentry, hid⟩ := mem_map.mp hid
    exact hid ▸ h.lastId_lt hentry

end IdsAscend

/-- An append leaves all bytes of a head in its file. -/
theorem FileOf.append {dir dir' : ReqLogDir} {head : ReqLogHead} {file : Bytes}
    (h : FileOf dir head file) {path : ℕ} {data : Bytes}
    (hdir : dir'.dataFiles = appendFile dir.dataFiles path data) :
    ∃ file', FileOf dir' head file' := by
  have hlength := h.length
  rw [bytesFor, segment, length_take, length_drop] at hlength
  by_cases hpath : getDataPath head.incId = path
  · refine ⟨file ++ data, ?_, ?_⟩
    · rw [hdir, appendFile, ← hpath, Finmap.lookup_insert, h.lookup, Option.getD_some]
    · rw [bytesFor, segment, length_take, length_drop, length_append]
      omega
  · refine ⟨file, ?_, h.length⟩
    rw [hdir, appendFile, Finmap.lookup_insert_of_ne _ hpath, h.lookup]

/-- Every head of a log has all its bytes in a file. -/
theorem fileOf_loggedDir (entries : List (ReqLogEntry codec)) :
    ∀ head ∈ headsOf entries, ∃ file, FileOf (loggedDir entries) head file := by
  induction entries using List.reverseRecOn with
  | nil => exact nofun
  | append_singleton entries entry ih =>
    rw [headsOf_concat, loggedDir_concat]
    intro head hmem
    rcases mem_append.mp hmem with hmem | hmem
    · obtain ⟨file, hfile⟩ := ih head hmem
      exact hfile.append rfl
    · rw [mem_singleton.mp hmem]
      refine ⟨_, Finmap.lookup_insert _, ?_⟩
      simp only [bytesFor, segment, ReqLogMgr.headFor, length_take, length_drop, length_append,
        UInt32.toNat_ofNat']
      have hoffset := Nat.mod_le (((loggedDir entries).dataFiles.lookup
        (getDataPath entry.reqdata.toCommonReqData.incId)).getD []).length (2 ^ 32)
      have hlen := Nat.mod_le entry.packedData.length (2 ^ 32)
      omega

theorem ReadsBack.readable (h : ReadsBack entries) {head : ReqLogHead}
    (hmem : head ∈ headsOf entries) : Readable (loggedDir entries) head := by
  obtain ⟨file, hfile⟩ := fileOf_loggedDir entries head hmem
  refine ⟨file, hfile, ?_⟩
  obtain ⟨i, hi, rfl⟩ := getElem_of_mem hmem
  have hlength : i < entries.length := length_headsOf entries ▸ hi
  have hread : (loggedDir entries).getReqPackedDataByHead (headsOf entries)[i] =
      .ok entries[i].packedData := (forall₂_iff_get.mp h).2 i hi hlength
  by_contra hchecked
  obtain ⟨e, he⟩ := Broken.read (.inr ⟨file, hfile, hchecked⟩) []
  rw [hread] at he
  cases he

theorem ReadsBack.map_dataOf (h : ReadsBack entries) :
    (headsOf entries).map (dataOf (loggedDir entries)) = entries.map packedData := by
  rw [← forall₂_eq_eq_eq, forall₂_map_left_iff, forall₂_map_right_iff]
  exact h.imp fun head entry hdata => by rw [dataOf, hdata]

/-- No file is longer than all data together. -/
theorem length_le_of_lookup {path : ℕ} {file : Bytes}
    (h : (loggedDir entries).dataFiles.lookup path = some file) :
    file.length ≤ (entries.map fun entry => entry.packedData.length).sum := by
  induction entries using List.reverseRecOn generalizing path file with
  | nil => cases h
  | append_singleton entries entry ih =>
    rw [map_append, sum_append, map_singleton]
    rw [loggedDir_concat, appended, appendFile, Table.lookup_insert_eq] at h
    split at h
    · obtain rfl := Option.some.inj h
      rw [length_append]
      cases hold : (loggedDir entries).dataFiles.lookup
          (getDataPath entry.reqdata.toCommonReqData.incId) with
      | none => simp
      | some old => exact Nat.add_le_add_right (ih hold) _
    · exact (ih h).trans (Nat.le_add_right _ _)

/-- Files that fit are read back as they were written. -/
theorem readsBack_of_sum_lt
    (h : (entries.map fun entry => entry.packedData.length).sum < 2 ^ 32) : ReadsBack entries := by
  have haddressed : List.Forall₂ (fun head entry => Addresses (loggedDir entries) head
      (entry.reqdata.incId, entry.packedData)) (headsOf entries) entries := by
    induction entries using List.reverseRecOn with
    | nil => exact .nil
    | append_singleton entries entry ih =>
      have hfit : FilesFit (loggedDir (entries ++ [entry])) := fun path file hfile =>
        Nat.lt_of_le_of_lt (length_le_of_lookup hfile) h
      rw [map_append, sum_append] at h
      rw [loggedDir_concat] at hfit
      rw [headsOf_concat, loggedDir_concat]
      apply rel_append
      · exact (ih (Nat.lt_of_le_of_lt (Nat.le_add_right _ _) h)).imp
          fun head entry' hhead => hhead.append rfl
      · exact .cons (addresses_appended hfit) .nil
  exact haddressed.imp fun head entry hhead => hhead.getReqPackedDataByHead

end Entries

namespace LogRedoer

variable (redoer : LogRedoer)

abbrev Entry := ReqLogEntry redoer.codec.toReqCodec

variable {redoer} {entries : List redoer.Entry} {entry : redoer.Entry}

theorem unpackCommon_entry (entry : redoer.Entry) :
    redoer.unpackCommon entry.packedData = entry.reqdata := by
  rw [unpackCommon, entry.unpack, Option.getD_some]

/-- The node has logged these entries, and no request is running. -/
structure Opened (hooker : RequestHooker) (entries : List redoer.Entry) : Prop where
  reqLogDir : hooker.reqLogDir = loggedDir entries
  reqLogMgr : hooker.reqLogMgr = mgrOf entries
  chainStatus : hooker.chainStatus = .noChain

/-- A replica prepares a request with a greater id. -/
theorem prepareReqLog_mgrOf (h : lastId (headsOf entries) < entry.reqdata.incId) :
    (mgrOf entries).prepareReqLog entry.reqdata.toCommonReqData false =
      (true, entry.reqdata.toCommonReqData,
        { incId := entry.reqdata.incId + 1
          lastWritedId := lastId (headsOf entries)
          preparedReq := some entry.reqdata.toCommonReqData }) := by
  have hle : ¬entry.reqdata.incId < lastId (headsOf entries) + 1 := by
    rw [UInt32.lt_iff_toNat_lt] at h ⊢
    have hlt := entry.reqdata.incId.toNat_lt
    rw [UInt32.toNat_add, UInt32.toNat_one]
    omega
  rw [ReqLogMgr.prepareReqLog, mgrOf]
  simp only [Option.isSome_none, Bool.false_eq_true, if_false, hle]

/-- The prepared request goes behind the entries. -/
theorem appendReqData_prepared (h : lastId (headsOf entries) < entry.reqdata.incId) :
    ReqLogMgr.appendReqData
      { incId := entry.reqdata.incId + 1
        lastWritedId := lastId (headsOf entries)
        preparedReq := some entry.reqdata.toCommonReqData }
      (loggedDir entries) entry.packedData true true =
      (true,
        { mgrOf (entries ++ [entry]) with preparedReq := some entry.reqdata.toCommonReqData },
        loggedDir (entries ++ [entry])) := by
  rw [appendReqData_eq rfl (UInt32.le_of_lt h), mgrOf_concat, loggedDir_concat]

/-- A delayed request is logged. -/
theorem Opened.logDelayed {hooker : RequestHooker} (h : Opened hooker entries)
    (hid : lastId (headsOf entries) < entry.reqdata.incId) {crondata : CronJobReqLog}
    (hcron : crondata.toReqData = entry.reqdata)
    (hdata : (redoer.answers entry.packedData).dataGood = true)
    (hhead : (redoer.answers entry.packedData).headGood = true) :
    Opened (redoer.logDelayed hooker crondata entry.packedData) (entries ++ [entry]) := by
  have hlogged : redoer.logDelayed hooker crondata entry.packedData =
      { hooker with
        reqLogMgr := mgrOf (entries ++ [entry])
        reqLogDir := loggedDir (entries ++ [entry]) } := by
    unfold LogRedoer.logDelayed
    rw [h.reqLogMgr, h.reqLogDir, hcron, prepareReqLog_mgrOf hid, hdata, hhead]
    dsimp only
    rw [appendReqData_prepared hid]
    rfl
  rw [hlogged]
  exact ⟨rfl, rfl, h.chainStatus⟩

/-- The log manager with the entry as its prepared request. -/
def preparedMgr (entries : List redoer.Entry) (entry : redoer.Entry) : ReqLogMgr where
  incId := entry.reqdata.incId + 1
  lastWritedId := lastId (headsOf entries)
  preparedReq := some entry.reqdata.toCommonReqData

/-- The request of an entry is hooked, with a state of the log manager. -/
structure Hooked (mgr : ReqLogMgr) (hooker : RequestHooker) (entries : List redoer.Entry)
    (entry : redoer.Entry) : Prop where
  hookType : hooker.hookType = some .fromLog
  currentReq : hooker.currentReq = entry.packedData
  chainStatus : hooker.chainStatus = .noChain
  reqLogDir : hooker.reqLogDir = loggedDir entries
  reqLogMgr : hooker.reqLogMgr = mgr

namespace Hooked

variable {mgr : ReqLogMgr} {hooker hooker' : RequestHooker} {answers : Answers}

section

variable (h : Hooked mgr hooker entries entry)
include h

theorem isHooked : hooker.isHooked = true := by
  rw [RequestHooker.isHooked, h.hookType, h.currentReq, Bool.and_eq_true, Bool.not_eq_true',
    isEmpty_eq_false_iff]
  exact ⟨rfl, entry.packedData_ne_nil⟩

theorem isFromMaster : hooker.isFromMaster = false := by
  rw [RequestHooker.isFromMaster, h.hookType]
  rfl

theorem isChainStart : hooker.isChainStart = true := by
  rw [RequestHooker.isChainStart, h.chainStatus]
  rfl

theorem withType (type : ReqLogType) : Hooked mgr { hooker with type } entries entry :=
  ⟨h.hookType, h.currentReq, h.chainStatus, h.reqLogDir, h.reqLogMgr⟩

/-- The request is read from its bytes, and has to be of the type that the handler says. -/
theorem readPreparedReq (type : ReqLogType) :
    hooker.readPreparedReq redoer.codec.toReqCodec type {} =
      if type.code = entry.reqdata.reqtype then some entry.reqdata else none := by
  rw [RequestHooker.readPreparedReq, h.isFromMaster, Bool.false_and, if_neg Bool.false_ne_true,
    h.currentReq, entry.unpack, Option.filter_some]
  simp only [decide_eq_true_eq]

end

theorem prepareReqLog (h : Hooked (mgrOf entries) hooker entries entry)
    (hid : lastId (headsOf entries) < entry.reqdata.incId) :
    hooker.prepareReqLog answers entry.reqdata =
      some (true, entry.reqdata,
        { hooker with
          reqLogMgr := preparedMgr entries entry
          prepared := hooker.prepared ++ [entry.reqdata.toCommonReqData] }) := by
  rw [RequestHooker.prepareReqLog, h.isChainStart, h.isFromMaster, h.reqLogMgr,
    prepareReqLog_mgrOf hid]
  rfl

/-- Only a primary packs the request again. -/
theorem packPreparedReq (h : Hooked mgr hooker entries entry) (type : ReqLogType)
    (preparedReq : ReqData) :
    hooker.packPreparedReq redoer.codec.toReqCodec type preparedReq = hooker := by
  rw [RequestHooker.packPreparedReq, h.isFromMaster]
  rfl

/-- What the handler prepares is the request of the entry. -/
theorem prepare (h : Hooked (mgrOf entries) hooker entries entry)
    (hid : lastId (headsOf entries) < entry.reqdata.incId) {type : ReqLogType} {prepared : Bool}
    (heq : hooker.prepare redoer.codec.toReqCodec answers type {} = some (prepared, hooker')) :
    Hooked (preparedMgr entries entry) hooker' entries entry := by
  have hchain : hooker.chainStatus ≠ .chainStop := by
    rw [h.chainStatus]
    exact ChainStatus.noConfusion
  rw [RequestHooker.prepare, h.isHooked, if_neg hchain,
    h.readPreparedReq] at heq
  by_cases htype : type.code = entry.reqdata.reqtype
  · rw [if_pos htype] at heq
    dsimp only at heq
    have hreqdata : { entry.reqdata with reqtype := type.code } = entry.reqdata := by
      rw [htype]
    rw [hreqdata, (h.withType type).prepareReqLog hid] at heq
    dsimp only at heq
    have hprepared : Hooked (preparedMgr entries entry)
        { hooker with
          type
          reqLogMgr := preparedMgr entries entry
          prepared := hooker.prepared ++ [entry.reqdata.toCommonReqData] } entries entry :=
      ⟨h.hookType, h.currentReq, h.chainStatus, h.reqLogDir, rfl⟩
    rw [hprepared.packPreparedReq, hprepared.isChainStart]
      at heq
    obtain ⟨lastBackupId, rollbackFlag, rfl⟩ := prepareRollback_eq heq
    exact ⟨h.hookType, h.currentReq, h.chainStatus, h.reqLogDir, rfl⟩
  · rw [if_neg htype] at heq
    cases heq

section

variable (h : Hooked (preparedMgr entries entry) hooker entries entry)
    (hid : lastId (headsOf entries) < entry.reqdata.incId)
include h hid

/-- The files were opened, or the process ends. -/
theorem appendReqData {mgr' : ReqLogMgr} {dir' : ReqLogDir}
    (heq : hooker.reqLogMgr.appendReqData hooker.reqLogDir hooker.currentReq answers.dataGood
      answers.headGood = (true, mgr', dir')) :
    mgr'.delPreparedReqLog = mgrOf (entries ++ [entry]) ∧
      dir' = loggedDir (entries ++ [entry]) := by
  have hgood : answers.dataGood = true ∧ answers.headGood = true := by
    by_contra hbad
    have hclosed : (!answers.dataGood || !answers.headGood) = true := by
      rw [← Bool.not_and, Bool.not_eq_true', ← Bool.not_eq_true, Bool.and_eq_true]
      exact hbad
    rw [ReqLogMgr.appendReqData] at heq
    split at heq
    · cases heq
    · rw [if_pos hclosed] at heq
      cases heq
  rw [h.reqLogMgr, h.reqLogDir, h.currentReq, hgood.1, hgood.2, preparedMgr,
    appendReqData_prepared hid] at heq
  obtain ⟨-, hrest⟩ := Prod.mk.inj heq
  obtain ⟨rfl, rfl⟩ := Prod.mk.inj hrest
  exact ⟨rfl, rfl⟩

/-- A prepared request that succeeds is logged. -/
theorem writeLocalLog (heq : hooker.writeLocalLog answers = some hooker') :
    Opened hooker' (entries ++ [entry]) := by
  have hasserted : Hooked (preparedMgr entries entry) hooker.assertChain entries entry :=
    ⟨h.hookType, h.currentReq, h.chainStatus, h.reqLogDir, h.reqLogMgr⟩
  rw [RequestHooker.writeLocalLog, h.isHooked, if_neg (by exact Bool.false_ne_true)] at heq
  dsimp only at heq
  split at heq
  · rename_i mgr' dir' happend
    obtain ⟨hmgr, hdir⟩ := hasserted.appendReqData hid happend
    simp only [finish, Bool.not_true, Bool.false_eq_true, and_false, if_false,
      if_true] at heq
    split at heq
    · obtain ⟨lastBackupId, -, rfl⟩ := Option.map_eq_some_iff.mp heq
      exact ⟨hdir, hmgr, rfl⟩
    · obtain rfl := Option.some.inj heq
      exact ⟨hdir, hmgr, rfl⟩
  · cases heq

theorem processLocalFinished (heq : hooker.processLocalFinished answers true = some hooker') :
    Opened hooker' (entries ++ [entry]) := by
  have hbefore : hooker.processFinishedBeforePrepare true = some (false, hooker) := by
    rw [processFinishedBeforePrepare, h.isHooked, h.reqLogMgr]
    rfl
  have hchain : ¬(hooker.chainStatus ≠ .noChain ∧ hooker.chainStatus ≠ .chainEnd) :=
    fun hstatus => hstatus.1 h.chainStatus
  rw [RequestHooker.processLocalFinished, h.isHooked, hbefore] at heq
  dsimp only at heq
  rw [if_neg hchain,
    if_pos h.hookType] at heq
  exact h.writeLocalLog hid heq

end

end Hooked

/-- A request that is redone with success is logged behind the others with its own bytes. -/
theorem Opened.handleReqFromLog {hooker hooker' : RequestHooker} (h : Opened hooker entries)
    (hid : lastId (headsOf entries) < entry.reqdata.incId)
    (heq : redoer.handleReqFromLog hooker entry.packedData = some hooker') :
    Opened hooker' (entries ++ [entry]) := by
  obtain ⟨type, -, heq⟩ := Option.bind_eq_some_iff.mp heq
  obtain ⟨⟨prepared, hooker''⟩, hprepare, heq⟩ := Option.bind_eq_some_iff.mp heq
  have hhooked : Hooked (mgrOf entries) (hooker.setHook .fromLog entry.packedData) entries entry :=
    ⟨rfl, rfl, h.chainStatus, h.reqLogDir, h.reqLogMgr⟩
  have hbegin : (hooker.setHook .fromLog entry.packedData).processLocalBegin =
      hooker.setHook .fromLog entry.packedData := by
    rw [processLocalBegin, hhooked.isHooked, if_neg (by exact Bool.false_ne_true),
      if_pos (.inl hhooked.hookType)]
  rw [hbegin] at hprepare
  dsimp only at heq
  split at heq
  · exact (hhooked.prepare hid hprepare).processLocalFinished hid heq
  · cases heq

/-- A later request of the batch is a cron job with the same name, and without a timestamp too. -/
def hasLaterJob (redoer : LogRedoer) (crondata : CronJobReqLog) (after : List Bytes) : Bool :=
  (after.filterMap redoer.cronJobWithoutTime).any fun later =>
    later.reqJsonData = crondata.reqJsonData

/-- What is to be executed of a batch: of the cron jobs without a timestamp only the last one of
each name. -/
def toExecute (redoer : LogRedoer) : List Bytes → List Bytes
  | [] => []
  | packedData :: after =>
    if (redoer.cronJobWithoutTime packedData).any (hasLaterJob redoer · after) then
      toExecute redoer after
    else packedData :: toExecute redoer after

theorem lookup_scanForCronJobLog (logdataList : List Bytes) (name : Bytes) :
    (redoer.scanForCronJobLog logdataList).lookup name =
      (((logdataList.filterMap redoer.cronJobWithoutTime).filter fun crondata =>
        crondata.reqJsonData = name).map fun crondata => crondata.incId).getLast? := by
  have hentries := Table.lookup_foldl_insert_getLast?
    ((logdataList.filterMap redoer.cronJobWithoutTime).map fun crondata =>
      (crondata.reqJsonData, crondata.incId)) ∅ name
  rw [foldl_map, Finmap.lookup_empty, Option.or_none, filter_map, List.map_map]
    at hentries
  exact hentries

/-- The data of a cron job has the id of its entry. -/
theorem toReqData_cronJobWithoutTime {crondata : CronJobReqLog}
    (h : redoer.cronJobWithoutTime entry.packedData = some crondata) :
    crondata.toReqData = entry.reqdata := by
  rw [cronJobWithoutTime] at h
  split at h
  · have hunpack := redoer.codec.unpackReqLogData_of_cronJob (Option.filter_eq_some_iff.mp h).1
    rw [entry.unpack] at hunpack
    exact (Option.some.inj hunpack).symm
  · cases h

/-- The later jobs of a name have greater ids. -/
theorem incId_lt_of_later {after : List redoer.Entry} {incId : UInt32}
    (h : ∀ later ∈ after, incId < later.reqdata.incId) {later : CronJobReqLog}
    (hmem : later ∈ (after.map packedData).filterMap redoer.cronJobWithoutTime) :
    incId < later.incId := by
  obtain ⟨packedData, hpacked, hcron⟩ := mem_filterMap.mp hmem
  obtain ⟨entry, hentry, rfl⟩ := mem_map.mp hpacked
  rw [toReqData_cronJobWithoutTime hcron]
  exact h entry hentry

section

variable {after : List redoer.Entry}
    (h : ∀ later ∈ after, entry.reqdata.incId < later.reqdata.incId)
include h

/-- The scan finds another id for a job if and only if the batch has a later one of its name. -/
theorem delayed_iff_hasLaterJob {before : List Bytes} {crondata : CronJobReqLog}
    (hcron : redoer.cronJobWithoutTime entry.packedData = some crondata) :
    ((redoer.scanForCronJobLog
        (before ++ entry.packedData :: after.map packedData)).lookup
        crondata.reqJsonData).any (fun incId => crondata.incId ≠ incId) =
      hasLaterJob redoer crondata (after.map packedData) := by
  have hid : crondata.incId = entry.reqdata.incId := by
    rw [← toReqData_cronJobWithoutTime hcron]
  have hgreater : ∀ later ∈ (after.map packedData).filterMap redoer.cronJobWithoutTime,
      crondata.incId < later.incId := fun later hmem => incId_lt_of_later (hid ▸ h) hmem
  rw [lookup_scanForCronJobLog, hasLaterJob, filterMap_append, filterMap_cons_some hcron]
  generalize (after.map packedData).filterMap redoer.cronJobWithoutTime = jobs at *
  have hself : (crondata :: jobs).filter (fun later => later.reqJsonData = crondata.reqJsonData) =
      crondata :: jobs.filter fun later => later.reqJsonData = crondata.reqJsonData :=
    filter_cons_of_pos (decide_eq_true rfl)
  rw [filter_append, hself, map_append, map_cons, getLast?_append,
    getLast?_cons, Option.some_or]
  rcases eq_nil_or_concat'
    (jobs.filter fun later => later.reqJsonData = crondata.reqJsonData)
    with hnil | ⟨init, last, hlast⟩
  · -- it is the last one itself
    rw [hnil, any_eq_false.mpr (filter_eq_nil_iff.mp hnil)]
    exact decide_eq_false (not_not_intro rfl)
  · have hmem : last ∈ jobs.filter fun later => later.reqJsonData = crondata.reqJsonData := by
      rw [hlast]
      simp
    obtain ⟨hjob, hname⟩ := mem_filter.mp hmem
    rw [hlast, any_eq_true.mpr ⟨last, hjob, hname⟩, map_append, map_singleton,
      getLast?_concat]
    exact decide_eq_true (UInt32.ne_of_lt (hgreater last hjob))

/-- A request is delayed if and only if the batch has a later one of its name. -/
theorem isDelayed_eq {before : List Bytes} : redoer.isDelayed (redoer.scanForCronJobLog
        (before ++ entry.packedData :: after.map packedData)) entry.packedData =
      (redoer.cronJobWithoutTime entry.packedData).filter
        (hasLaterJob redoer · (after.map packedData)) := by
  rw [isDelayed]
  cases hcron : redoer.cronJobWithoutTime entry.packedData with
  | none => rfl
  | some crondata => rw [Option.filter_some, Option.filter_some, delayed_iff_hasLaterJob h hcron]

end

/-- The files of a request that is only logged can be opened. -/
def FilesOpen (redoer : LogRedoer) (entries : List redoer.Entry) : Prop :=
  ∀ entry ∈ entries, (redoer.answers entry.packedData).dataGood = true ∧
    (redoer.answers entry.packedData).headGood = true

/-- The rest of a batch is logged, and executed but for the delayed requests. -/
theorem redoBatch_eq {logged rest : List redoer.Entry} (hids : IdsAscend (logged ++ rest))
    (hfiles : FilesOpen redoer rest) (before : List Bytes) (run : SyncRun)
    (h : Opened run.hooker logged) (hredo : redoer.redoBatch
      (redoer.scanForCronJobLog (before ++ rest.map packedData))
      (rest.map packedData) (lastId (headsOf logged)) run ≠
        .error .handleReqFromLogFailed) : ∃ hooker, redoer.redoBatch
        (redoer.scanForCronJobLog (before ++ rest.map packedData))
        (rest.map packedData) (lastId (headsOf logged)) run = .ok { run with
              hooker
              executed := run.executed ++ toExecute redoer (rest.map packedData) } ∧
      Opened hooker (logged ++ rest) := by
  induction rest generalizing logged before run with
  | nil =>
    refine ⟨run.hooker, ?_, ?_⟩
    · rw [map_nil, redoBatch, toExecute, append_nil]
    · rwa [append_nil]
  | cons entry rest ih =>
    have hid := hids.lastId_lt (mem_cons_self (a := entry) (l := rest))
    have hlater : ∀ later ∈ rest, entry.reqdata.incId < later.reqdata.incId := by
      have hpairwise := hids.pairwise
      rw [map_append, map_cons, pairwise_append, pairwise_cons] at hpairwise
      exact fun later hmem => hpairwise.2.1.1 _ (mem_map_of_mem hmem)
    have hids' : IdsAscend (logged ++ [entry] ++ rest) := by
      rwa [append_assoc]
    obtain ⟨⟨hdata, hhead⟩, hfiles⟩ := forall_mem_cons.mp hfiles
    have hbefore : before ++ entry.packedData :: rest.map packedData =
        before ++ [entry.packedData] ++ rest.map packedData := by simp
    rw [map_cons, redoBatch, unpackCommon_entry, if_neg (UInt32.not_le.mpr hid),
      isDelayed_eq hlater] at hredo ⊢
    rw [hbefore, ← lastId_headsOf_concat logged entry] at hredo ⊢
    rw [toExecute, ← Option.isSome_filter]
    cases hcron : (redoer.cronJobWithoutTime entry.packedData).filter
      (hasLaterJob redoer · (rest.map packedData)) with
    | some crondata =>
      rw [hcron] at hredo
      have hreqdata := toReqData_cronJobWithoutTime (Option.filter_eq_some_iff.mp hcron).1
      have hlogged := h.logDelayed hid hreqdata hdata hhead
      obtain ⟨hooker, heq, hopened⟩ := ih hids' hfiles _ _ hlogged hredo
      refine ⟨hooker, heq, ?_⟩
      rwa [append_assoc] at hopened
    | none =>
      rw [hcron] at hredo
      cases hhandle : redoer.handleReqFromLog run.hooker entry.packedData with
      | none =>
        rw [hhandle] at hredo
        exact absurd rfl hredo
      | some hooker =>
        rw [hhandle] at hredo
        obtain ⟨hooker', heq, hopened⟩ := ih hids' hfiles _ _ (h.handleReqFromLog hid hhandle) hredo
        refine ⟨hooker', ?_, ?_⟩
        · dsimp only at heq ⊢
          rw [heq, append_assoc]
          rfl
        · rwa [append_assoc] at hopened

variable {logged new : List redoer.Entry} {limit : UInt32}

/-- The other node answers with the entries that this one has not got, up to the limit. -/
theorem getNewestReqLog_eq (hids : IdsAscend (logged ++ new)) (hreads : ReadsBack (logged ++ new)) :
    getNewestReqLog (mgrOf (logged ++ new)) (loggedDir (logged ++ new)) limit
      (lastId (headsOf logged) + 1) = .ok ((new.take limit.toNat).map packedData) := by
  have hlast : (mgrOf (logged ++ new)).lastWritedId = lastId (headsOf (logged ++ new)) := rfl
  have hlist := getReqLogIdList_take (headLog_loggedDir (logged ++ new)) hids.increasing
    (fun head hmem => hids.head_ne_zero hmem) hlast (lastId (headsOf logged) + 1) limit
    (fun head hmem => hreads.readable (mem_filter.mp (mem_of_mem_take hmem)).1) true
  rw [getNewestReqLog, hlist, hids.headsFrom_lastId]
  refine congrArg Except.ok ?_
  change ((headsOf (logged ++ new)).drop logged.length |>.take limit.toNat).map _ = _
  rw [map_take, map_drop, hreads.map_dataOf, ← map_drop, drop_left, ← map_take]

/-- From any round on, with the log that the node has then. -/
theorem syncToNewestReqLog_eq (hids : IdsAscend (logged ++ new))
    (hreads : ReadsBack (logged ++ new)) (hlimit : limit ≠ 0) (hfiles : FilesOpen redoer new)
    {rounds : ℕ} (hrounds : new.length < rounds) {run : SyncRun} (h : Opened run.hooker logged)
    (hredo : redoer.syncToNewestReqLog (mgrOf (logged ++ new)) (loggedDir (logged ++ new)) limit
      rounds run ≠ .error .handleReqFromLogFailed) :
    ∃ hooker batches, redoer.syncToNewestReqLog (mgrOf (logged ++ new))
        (loggedDir (logged ++ new)) limit rounds run =
          .ok
            { hooker
              batches := run.batches ++ batches
              executed := run.executed ++ batches.flatMap (toExecute redoer) } ∧
      Opened hooker (logged ++ new) ∧ batches.flatten = new.map packedData := by
  induction rounds generalizing logged new run with
  | zero => exact absurd hrounds (Nat.not_lt_zero _)
  | succ rounds ih =>
    have hlast : run.hooker.reqLogMgr.getLastSuccessReqId = lastId (headsOf logged) := by
      rw [h.reqLogMgr]
      rfl
    rw [syncToNewestReqLog, hlast, getNewestReqLog_eq hids hreads] at hredo ⊢
    cases new with
    | nil =>
      refine ⟨run.hooker, [], ?_, ?_, rfl⟩
      · simp only [take_nil, map_nil, flatMap_nil, append_nil]
      · rwa [append_nil]
    | cons entry new =>
      obtain ⟨n, hn⟩ : ∃ n, limit.toNat = n + 1 :=
        Nat.exists_eq_succ_of_ne_zero fun h0 => hlimit (UInt32.toNat_inj.mp h0)
      have hsplit : logged ++ entry :: new = logged ++ (entry :: new.take n) ++ new.drop n := by
        rw [append_assoc, cons_append, take_append_drop]
      rw [hn, take_succ_cons, map_cons] at hredo ⊢
      dsimp only at hredo ⊢
      rw [hsplit] at hids hreads hredo ⊢
      obtain ⟨hentry, hfiles⟩ := forall_mem_cons.mp hfiles
      have hopen : FilesOpen redoer (entry :: new.take n) := forall_mem_cons.mpr
        ⟨hentry, fun later hmem => hfiles later (mem_of_mem_take hmem)⟩
      have hbatch := redoBatch_eq hids.left hopen [] { run with batches := run.batches ++
        [entry.packedData :: (new.take n).map packedData] } h
      rw [nil_append, map_cons] at hbatch
      obtain ⟨hooker, heq, hopened⟩ := hbatch fun hfailed => hredo (by rw [hfailed])
      rw [heq] at hredo ⊢
      dsimp only at hredo ⊢
      have hlength : (new.drop n).length < rounds := by
        rw [length_cons] at hrounds
        rw [length_drop]
        omega
      obtain ⟨hooker', batches, heq', hopened', hflatten⟩ := ih hids hreads
        (fun later hmem => hfiles later (mem_of_mem_drop hmem))
        hlength hopened hredo
      refine ⟨hooker', (entry.packedData :: (new.take n).map packedData) :: batches, ?_,
        hopened', ?_⟩
      · rw [heq', flatMap_cons]
        simp only [append_assoc, singleton_append]
      · rw [flatten_cons, hflatten, cons_append, ← map_append,
          take_append_drop, map_cons]

/-- Unless a request cannot be redone, the node comes to the same files as the other one, byte for
byte. It has got all new requests in their order, and of every batch it has executed what is to be
executed. -/
def CatchesUp (redoer : LogRedoer) (limit : UInt32) (hooker : RequestHooker)
    (logged new : List redoer.Entry) : Prop :=
  ∀ rounds > new.length, redoer.syncToNewestReqLog (mgrOf (logged ++ new))
      (loggedDir (logged ++ new)) limit rounds { hooker } ≠ .error .handleReqFromLogFailed →
    ∃ run, redoer.syncToNewestReqLog (mgrOf (logged ++ new)) (loggedDir (logged ++ new)) limit
        rounds { hooker } = .ok run ∧
      run.hooker.reqLogDir = loggedDir (logged ++ new) ∧
      run.batches.flatten = new.map packedData ∧
      run.executed = run.batches.flatMap (toExecute redoer)

theorem syncToNewestReqLog_catchesUp {hooker : RequestHooker} (hids : IdsAscend (logged ++ new))
    (hreads : ReadsBack (logged ++ new)) (hlimit : limit ≠ 0) (hfiles : FilesOpen redoer new)
    (h : Opened hooker logged) : CatchesUp redoer limit hooker logged new := by
  intro rounds hrounds hredo
  obtain ⟨hooker', batches, heq, hopened, hflatten⟩ :=
    syncToNewestReqLog_eq hids hreads hlimit hfiles hrounds h hredo
  exact ⟨_, heq, hopened.reqLogDir, hflatten, rfl⟩

/-- All that is new in one batch. -/
theorem syncToNewestReqLog_of_redoBatch (hids : IdsAscend (logged ++ new))
    (hreads : ReadsBack (logged ++ new)) (hnew : new ≠ []) (hlength : new.length ≤ limit.toNat)
    {hooker : RequestHooker} (h : Opened hooker logged) {run : SyncRun}
    (hbatch : redoer.redoBatch (redoer.scanForCronJobLog (new.map packedData))
      (new.map packedData) (lastId (headsOf logged))
      { hooker, batches := [new.map packedData] } = .ok run)
    (hlast : run.hooker.reqLogMgr.getLastSuccessReqId = lastId (headsOf (logged ++ new)))
    (rounds : ℕ) :
    redoer.syncToNewestReqLog (mgrOf (logged ++ new)) (loggedDir (logged ++ new)) limit
      (rounds + 2) { hooker } = .ok run := by
  have hstart : hooker.reqLogMgr.getLastSuccessReqId = lastId (headsOf logged) := by
    rw [h.reqLogMgr]
    rfl
  have hbehind := @getNewestReqLog_eq redoer (logged ++ new) [] limit
    (by rwa [append_nil]) (by rwa [append_nil])
  rw [append_nil, take_nil, map_nil] at hbehind
  have hnewest := @getNewestReqLog_eq redoer logged new limit hids hreads
  rw [take_of_length_le hlength] at hnewest
  rw [syncToNewestReqLog, hstart, hnewest]
  cases new with
  | nil => exact absurd rfl hnew
  | cons entry new =>
    rw [map_cons] at hbatch ⊢
    dsimp only
    rw [nil_append, hbatch]
    dsimp only
    rw [syncToNewestReqLog, hlast, hbehind]

/-- Without an answer nothing is done. -/
theorem not_catchesUp_of_nil {hooker : RequestHooker} (hnew : new ≠ [])
    (hnil : getNewestReqLog (mgrOf (logged ++ new)) (loggedDir (logged ++ new)) limit
      (hooker.reqLogMgr.getLastSuccessReqId + 1) = .ok []) :
    ¬CatchesUp redoer limit hooker logged new := by
  intro h
  have hsync : redoer.syncToNewestReqLog (mgrOf (logged ++ new)) (loggedDir (logged ++ new)) limit
      (new.length + 1) { hooker } = .ok { hooker } := by
    rw [syncToNewestReqLog, hnil]
  have hredo : redoer.syncToNewestReqLog (mgrOf (logged ++ new)) (loggedDir (logged ++ new)) limit
      (new.length + 1) { hooker } ≠ .error .handleReqFromLogFailed := by
    rw [hsync]
    exact fun h => by cases h
  obtain ⟨run, hrun, -, hflatten, -⟩ := h (new.length + 1) (Nat.lt_succ_self _) hredo
  rw [hsync] at hrun
  obtain rfl := Except.ok.inj hrun
  exact hnew (map_eq_nil_iff.mp hflatten.symm)

end LogRedoer

open LogRedoer

/-- The id and the type in front of the text. A cron job never has a timestamp. -/
def sampleCodec : CronCodec where
  packReqLogData reqdata :=
    [(reqdata.incId >>> 24).toUInt8, (reqdata.incId >>> 16).toUInt8, (reqdata.incId >>> 8).toUInt8,
      reqdata.incId.toUInt8, reqdata.reqtype.toUInt8] ++ reqdata.reqJsonData
  unpackReqLogData
    | a :: b :: c :: d :: reqtype :: reqJsonData =>
      some
        { incId := (a.toUInt32 <<< 24) ||| (b.toUInt32 <<< 16) ||| (c.toUInt32 <<< 8) ||| d.toUInt32
          reqtype := reqtype.toUInt32
          reqJsonData }
    | _ => none
  pack_ne_nil _ := cons_ne_nil _ _
  unpackCronJob
    | a :: b :: c :: d :: reqtype :: reqJsonData =>
      some
        { incId := (a.toUInt32 <<< 24) ||| (b.toUInt32 <<< 16) ||| (c.toUInt32 <<< 8) ||| d.toUInt32
          reqtype := reqtype.toUInt32
          reqJsonData }
    | _ => none
  unpackReqLogData_of_cronJob := by
    intro packedData crondata h
    split at h
    · rw [← Option.some.inj h]
    · cases h

/-- All cron jobs succeed. The files cannot be opened for some requests. -/
def sampleRedoer (closed : Bytes → Bool) : LogRedoer where
  codec := sampleCodec
  handler _ := some .cronJob
  answers packedData := { dataGood := !closed packedData }

/-- A cron job with an empty name. -/
def cronEntry (incId : UInt32) (a b c d : UInt8)
    (h : sampleCodec.unpackReqLogData [a, b, c, d, 4] = some { incId, reqtype := 4 }) :
    ReqLogEntry sampleCodec.toReqCodec where
  reqdata := { incId, reqtype := 4 }
  packedData := [a, b, c, d, 4]
  unpack := h
  packedData_ne_nil := cons_ne_nil _ _

def cronOne : ReqLogEntry sampleCodec.toReqCodec := cronEntry 1 0 0 0 1 rfl

def cronTwo : ReqLogEntry sampleCodec.toReqCodec := cronEntry 2 0 0 0 2 rfl

def cronGreatest : ReqLogEntry sampleCodec.toReqCodec := cronEntry 4294967295 255 255 255 255 rfl

example : toExecute (sampleRedoer fun _ => false)
    [cronOne.packedData, cronTwo.packedData] = [cronTwo.packedData] := by decide

def openedHooker (entries : List (ReqLogEntry sampleCodec.toReqCodec)) : RequestHooker where
  reqLogDir := loggedDir entries
  reqLogMgr := mgrOf entries

theorem opened_openedHooker (closed : Bytes → Bool) (entries : List (sampleRedoer closed).Entry) :
    Opened (openedHooker entries) entries :=
  ⟨rfl, rfl, rfl⟩

theorem idsAscend_two : IdsAscend [cronOne, cronTwo] where
  pairwise := pairwise_pair.mpr (by decide)
  ne_zero := by simp [cronOne, cronTwo, cronEntry]
  no_wrap := by
    simp only [forall_mem_cons]
    exact ⟨by decide, by decide, nofun⟩

theorem readsBack_two : ReadsBack [cronOne, cronTwo] :=
  readsBack_of_sum_lt (by decide)

/-- A single request, from any id on. -/
theorem getNewestReqLog_singleton (entry : ReqLogEntry sampleCodec.toReqCodec)
    (hlength : entry.packedData.length < 2 ^ 32) (limit start : UInt32) :
    getNewestReqLog (mgrOf [entry]) (loggedDir [entry]) limit start =
      .ok (((if start ≤ entry.reqdata.incId then [entry] else []).take
        (if entry.reqdata.incId < limit then entry.reqdata.incId else limit).toNat).map
          packedData) := by
  have hreads : ReadsBack [entry] := readsBack_of_sum_lt (by simpa using hlength)
  have hincreasing : Increasing (headsOf [entry]) := pairwise_singleton _ _
  have hlist := (getReqLogIdList_eq_min (headLog_loggedDir [entry]) hincreasing (mgrOf [entry])
    start limit true rfl).trans (map_listOf_of_readable (fun head hmem =>
      hreads.readable (mem_filter.mp (mem_of_mem_take hmem)).1) true)
  have hlast : (mgrOf [entry]).lastWritedId = entry.reqdata.incId := rfl
  rw [getNewestReqLog, hlist, hlast]
  generalize (if entry.reqdata.incId < limit then entry.reqdata.incId else limit).toNat = n
  refine congrArg Except.ok ?_
  change ((headsFrom (headsOf [entry]) start).take n).map _ = _
  have hfrom : headsFrom (headsOf [entry]) start =
      if start ≤ entry.reqdata.incId then headsOf [entry] else [] := by
    by_cases hle : start ≤ entry.reqdata.incId
    · rw [if_pos hle]
      exact filter_cons_of_pos (decide_eq_true hle)
    · rw [if_neg hle]
      exact filter_cons_of_neg (fun h => hle (of_decide_eq_true h))
  rw [hfrom, map_take, map_take]
  congr 1
  split
  · exact hreads.map_dataOf
  · rfl

/-- Both cron jobs are logged, the second one is executed. -/
theorem syncToNewestReqLog_two : ∃ run,
    (sampleRedoer fun _ => false).syncToNewestReqLog (mgrOf [cronOne, cronTwo])
        (loggedDir [cronOne, cronTwo]) 10000 3 { hooker := openedHooker [] } = .ok run ∧
      run.hooker.reqLogDir = loggedDir [cronOne, cronTwo] ∧
      run.batches.flatten = [cronOne.packedData, cronTwo.packedData] ∧
      run.executed = run.batches.flatMap (sampleRedoer fun _ => false).toExecute := by
  have hopened := opened_openedHooker (fun _ => false) []
  have hsync := @syncToNewestReqLog_of_redoBatch (sampleRedoer fun _ => false) []
    [cronOne, cronTwo] 10000 idsAscend_two readsBack_two (cons_ne_nil _ _) (by decide)
    (openedHooker []) hopened _ rfl rfl 1
  refine @syncToNewestReqLog_catchesUp (sampleRedoer fun _ => false) []
    [cronOne, cronTwo] 10000 (openedHooker []) idsAscend_two readsBack_two (by decide) ?_ hopened
    3 (by decide) ?_
  · exact fun entry _ => ⟨rfl, rfl⟩
  · intro hfailed
    have hok := hsync.symm.trans hfailed
    cases hok

/-- A cron job whose files cannot be opened is lost when it is delayed. -/
theorem not_catchesUp_closed : ¬CatchesUp (sampleRedoer (· = cronOne.packedData)) 10000
    (openedHooker []) [] [cronOne, cronTwo] := by
  intro h
  have hsync := @syncToNewestReqLog_of_redoBatch (sampleRedoer (· = cronOne.packedData))
    [] [cronOne, cronTwo] 10000 idsAscend_two readsBack_two (cons_ne_nil _ _) (by decide)
    (openedHooker []) (opened_openedHooker _ []) _ rfl rfl 1
  obtain ⟨run, hrun, hdir, -⟩ := h 3 (by decide) fun hfailed => by
    have hok := hsync.symm.trans hfailed
    cases hok
  obtain rfl := Except.ok.inj (hsync.symm.trans hrun)
  exact absurd (congrArg (fun dir => dir.heads.length) hdir) (by decide)

/-- Behind the greatest id the log begins again. -/
theorem not_catchesUp_greatest : ¬CatchesUp (sampleRedoer fun _ => false) 10000
    (openedHooker []) [] [cronGreatest] := by
  intro h
  have hsync : (sampleRedoer fun _ => false).syncToNewestReqLog (mgrOf [cronGreatest])
      (loggedDir [cronGreatest]) 10000 2 { hooker := openedHooker [] } = .error .outOfOrder := by
    have hnewest (start : UInt32) (hle : start ≤ 4294967295) :
        getNewestReqLog (mgrOf [cronGreatest]) (loggedDir [cronGreatest]) 10000 start =
          .ok [cronGreatest.packedData] := by
      have hid : cronGreatest.reqdata.incId = 4294967295 := rfl
      rw [getNewestReqLog_singleton cronGreatest (by decide), hid, if_pos hle]
      rfl
    obtain ⟨run, hbatch, hlast⟩ : ∃ run, (sampleRedoer fun _ => false).redoBatch
        ((sampleRedoer fun _ => false).scanForCronJobLog [cronGreatest.packedData])
        [cronGreatest.packedData] 0
        { hooker := openedHooker [], batches := [[cronGreatest.packedData]] } = .ok run ∧
        run.hooker.reqLogMgr.getLastSuccessReqId = 4294967295 := ⟨_, rfl, rfl⟩
    have hstart : (openedHooker []).reqLogMgr.getLastSuccessReqId = 0 := rfl
    rw [syncToNewestReqLog, hstart, hnewest (0 + 1) (by decide)]
    dsimp only
    rw [nil_append, hbatch]
    dsimp only
    rw [syncToNewestReqLog, hlast, hnewest (4294967295 + 1) (by decide)]
    rfl
  obtain ⟨run, hrun, -⟩ := h 2 (by decide) fun hfailed => by
    have herror := hsync.symm.trans hfailed
    cases herror
  have hok := hsync.symm.trans hrun
  cases hok

def cronZero : ReqLogEntry sampleCodec.toReqCodec := cronEntry 0 0 0 0 0 rfl

/-- A log that a node without one does not catch up with, although its ids ascend and it can be
read. -/
def LeavesBehind (closed : Bytes → Bool) (limit : UInt32)
    (new : List (ReqLogEntry sampleCodec.toReqCodec)) : Prop :=
  (new.map fun entry => entry.reqdata.incId).Pairwise (· < ·) ∧ ReadsBack new ∧
    ¬CatchesUp (sampleRedoer closed) limit (openedHooker []) [] new

/-- The id 0 is never asked for, the greatest id is asked for again, a limit of 0 gives nothing,
and a delayed request is lost if its files cannot be opened. -/
theorem not_syncToNewestReqLog_catchesUp : LeavesBehind (fun _ => false) 10000 [cronZero] ∧
      LeavesBehind (fun _ => false) 10000 [cronGreatest] ∧
      LeavesBehind (fun _ => false) 0 [cronOne] ∧
      LeavesBehind (· = cronOne.packedData) 10000 [cronOne, cronTwo] := by
  refine ⟨⟨pairwise_singleton _ _, readsBack_of_sum_lt (by decide), ?_⟩,
    ⟨pairwise_singleton _ _, readsBack_of_sum_lt (by decide), not_catchesUp_greatest⟩,
    ⟨pairwise_singleton _ _, readsBack_of_sum_lt (by decide), ?_⟩,
    ⟨idsAscend_two.pairwise, readsBack_two, not_catchesUp_closed⟩⟩
  · refine not_catchesUp_of_nil (cons_ne_nil _ _) ?_
    exact getNewestReqLog_singleton cronZero (by decide) 10000 1
  · refine not_catchesUp_of_nil (cons_ne_nil _ _) ?_
    exact getNewestReqLog_singleton cronOne (by decide) 0 1

end AdDelivery.NodeManager
