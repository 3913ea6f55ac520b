import AdDelivery.Core.AppendedFiles
import AdDelivery.Core.Run
import AdDelivery.Core.Vector
import Mathlib.Data.UInt

/-!
# The request log

A node logs every write request: its packed data goes to the end of a data file, and a head
with the place of the data to the end of the head file. Ids come from the node's own counter,
from the primary, or from the last head when the log is opened again. A request is prepared
before it is processed and appended when it is done.
-/

namespace AdDelivery.NodeManager

open UInt32 Option

abbrev Bytes := List UInt8

structure ReqLogHead where
  incId : UInt32
  reqtype : UInt32
  reqDataOffset : UInt32
  reqDataLen : UInt32
  reqDataCrc : UInt32
  deriving Inhabited, DecidableEq

/-- The packed size of a head. -/
def sizeofReqLogHead : ℕ := 20

structure CommonReqData where
  incId : UInt32 := 0
  reqtype : UInt32 := 0

/-- The log directory. The head file only ever gets whole heads; a data file is known by the
number in its name. -/
structure ReqLogDir where
  basePath : Bool := false
  headLog : Option (List ReqLogHead) := none
  dataFiles : Table ℕ Bytes := ∅

/-- There is at most one prepared request. -/
structure ReqLogMgr where
  incId : UInt32 := 1
  lastWritedId : UInt32 := 0
  preparedReq : Option CommonReqData := none

/-- The conversion to `int`. -/
def toInt (n : ℕ) : ℤ := (n : ℤ).bmod (2 ^ 32)

def crc32tab : List UInt32 :=
  [0x0, 0x77073096, 0xee0e612c, 0x990951ba, 0x76dc419, 0x706af48f, 0xe963a535, 0x9e6495a3,
   0xedb8832, 0x79dcb8a4, 0xe0d5e91e, 0x97d2d988, 0x9b64c2b, 0x7eb17cbd, 0xe7b82d07, 0x90bf1d91,
   0x1db71064, 0x6ab020f2, 0xf3b97148, 0x84be41de, 0x1adad47d, 0x6ddde4eb, 0xf4d4b551, 0x83d385c7,
   0x136c9856, 0x646ba8c0, 0xfd62f97a, 0x8a65c9ec, 0x14015c4f, 0x63066cd9, 0xfa0f3d63, 0x8d080df5,
   0x3b6e20c8, 0x4c69105e, 0xd56041e4, 0xa2677172, 0x3c03e4d1, 0x4b04d447, 0xd20d85fd, 0xa50ab56b,
   0x35b5a8fa, 0x42b2986c, 0xdbbbc9d6, 0xacbcf940, 0x32d86ce3, 0x45df5c75, 0xdcd60dcf, 0xabd13d59,
   0x26d930ac, 0x51de003a, 0xc8d75180, 0xbfd06116, 0x21b4f4b5, 0x56b3c423, 0xcfba9599, 0xb8bda50f,
   0x2802b89e, 0x5f058808, 0xc60cd9b2, 0xb10be924, 0x2f6f7c87, 0x58684c11, 0xc1611dab, 0xb6662d3d,
   0x76dc4190, 0x1db7106, 0x98d220bc, 0xefd5102a, 0x71b18589, 0x6b6b51f, 0x9fbfe4a5, 0xe8b8d433,
   0x7807c9a2, 0xf00f934, 0x9609a88e, 0xe10e9818, 0x7f6a0dbb, 0x86d3d2d, 0x91646c97, 0xe6635c01,
   0x6b6b51f4, 0x1c6c6162, 0x856530d8, 0xf262004e, 0x6c0695ed, 0x1b01a57b, 0x8208f4c1, 0xf50fc457,
   0x65b0d9c6, 0x12b7e950, 0x8bbeb8ea, 0xfcb9887c, 0x62dd1ddf, 0x15da2d49, 0x8cd37cf3, 0xfbd44c65,
   0x4db26158, 0x3ab551ce, 0xa3bc0074, 0xd4bb30e2, 0x4adfa541, 0x3dd895d7, 0xa4d1c46d, 0xd3d6f4fb,
   0x4369e96a, 0x346ed9fc, 0xad678846, 0xda60b8d0, 0x44042d73, 0x33031de5, 0xaa0a4c5f, 0xdd0d7cc9,
   0x5005713c, 0x270241aa, 0xbe0b1010, 0xc90c2086, 0x5768b525, 0x206f85b3, 0xb966d409, 0xce61e49f,
   0x5edef90e, 0x29d9c998, 0xb0d09822, 0xc7d7a8b4, 0x59b33d17, 0x2eb40d81, 0xb7bd5c3b, 0xc0ba6cad,
   0xedb88320, 0x9abfb3b6, 0x3b6e20c, 0x74b1d29a, 0xead54739, 0x9dd277af, 0x4db2615, 0x73dc1683,
   0xe3630b12, 0x94643b84, 0xd6d6a3e, 0x7a6a5aa8, 0xe40ecf0b, 0x9309ff9d, 0xa00ae27, 0x7d079eb1,
   0xf00f9344, 0x8708a3d2, 0x1e01f268, 0x6906c2fe, 0xf762575d, 0x806567cb, 0x196c3671, 0x6e6b06e7,
   0xfed41b76, 0x89d32be0, 0x10da7a5a, 0x67dd4acc, 0xf9b9df6f, 0x8ebeeff9, 0x17b7be43, 0x60b08ed5,
   0xd6d6a3e8, 0xa1d1937e, 0x38d8c2c4, 0x4fdff252, 0xd1bb67f1, 0xa6bc5767, 0x3fb506dd, 0x48b2364b,
   0xd80d2bda, 0xaf0a1b4c, 0x36034af6, 0x41047a60, 0xdf60efc3, 0xa867df55, 0x316e8eef, 0x4669be79,
   0xcb61b38c, 0xbc66831a, 0x256fd2a0, 0x5268e236, 0xcc0c7795, 0xbb0b4703, 0x220216b9, 0x5505262f,
   0xc5ba3bbe, 0xb2bd0b28, 0x2bb45a92, 0x5cb36a04, 0xc2d7ffa7, 0xb5d0cf31, 0x2cd99e8b, 0x5bdeae1d,
   0x9b64c2b0, 0xec63f226, 0x756aa39c, 0x26d930a, 0x9c0906a9, 0xeb0e363f, 0x72076785, 0x5005713,
   0x95bf4a82, 0xe2b87a14, 0x7bb12bae, 0xcb61b38, 0x92d28e9b, 0xe5d5be0d, 0x7cdcefb7, 0xbdbdf21,
   0x86d3d2d4, 0xf1d4e242, 0x68ddb3f8, 0x1fda836e, 0x81be16cd, 0xf6b9265b, 0x6fb077e1, 0x18b74777,
   0x88085ae6, 0xff0f6a70, 0x66063bca, 0x11010b5c, 0x8f659eff, 0xf862ae69, 0x616bffd3, 0x166ccf45,
   0xa00ae278, 0xd70dd2ee, 0x4e048354, 0x3903b3c2, 0xa7672661, 0xd06016f7, 0x4969474d, 0x3e6e77db,
   0xaed16a4a, 0xd9d65adc, 0x40df0b66, 0x37d83bf0, 0xa9bcae53, 0xdebb9ec5, 0x47b2cf7f, 0x30b5ffe9,
   0xbdbdf21c, 0xcabac28a, 0x53b39330, 0x24b4a3a6, 0xbad03605, 0xcdd70693, 0x54de5729, 0x23d967bf,
   0xb3667a2e, 0xc4614ab8, 0x5d681b02, 0x2a6f2b94, 0xb40bbe37, 0xc30c8ea1, 0x5a05df1b, 0x2d02ef8d]

/-- The loop over the first `len` bytes. Only the low byte of a sign extended byte is used. -/
def crc (crc : UInt32) (data : Bytes) (len : ℤ) : UInt32 :=
  (data.take len.toNat).foldl
    (fun crc byte => (crc >>> 8) ^^^ crc32tab.getD ((crc ^^^ byte.toUInt32) &&& 0xff).toNat 0) crc

def getDataPath (incId : UInt32) : ℕ := (incId / 100000).toNat

namespace ReqLogDir

def heads (dir : ReqLogDir) : List ReqLogHead := dir.headLog.getD []

/-- Opening a file for appending creates it. -/
def openLogs (dir : ReqLogDir) (path : ℕ) (dataGood headGood : Bool) : ReqLogDir :=
  { dir with
    dataFiles := if dataGood then openFile dir.dataFiles path else dir.dataFiles
    headLog := if headGood then some dir.heads else dir.headLog }

/-- The data of a head, read into a string that may have something in it already. -/
def getReqPackedDataByHead (dir : ReqLogDir) (head : ReqLogHead) (reqPackedData : Bytes := []) :
    Except String Bytes :=
  match dir.dataFiles.lookup (getDataPath head.incId) with
  | none => .error "open request log file failed."
  | some file =>
    let bytes := segment file head.reqDataOffset.toNat head.reqDataLen.toNat
    -- where the file has no more bytes, the resized string keeps its own
    let reqPackedData :=
      bytes ++ (resize reqPackedData head.reqDataLen.toNat 0).drop bytes.length
    if crc 0 reqPackedData (toInt reqPackedData.length) ≠ head.reqDataCrc then
      .error "request log data corrupt."
    else .ok reqPackedData

end ReqLogDir

namespace ReqLogMgr

variable (mgr : ReqLogMgr) (dir : ReqLogDir)

def loadLastData : Except String Unit × ReqLogMgr × ReqLogDir :=
  if dir.basePath then
    match dir.headLog with
    | none => (.ok (), mgr, dir)
    | some heads =>
      let length := toInt (heads.length * sizeofReqLogHead)
      if length = 0 then (.ok (), mgr, dir)
      else if length < sizeofReqLogHead then
        (.error "read request log head file error", mgr, dir)
      else if length % sizeofReqLogHead ≠ 0 then
        (.error "read request log head file error", mgr, dir)
      else
        let lasthead := heads.getLastD default
        (.ok (), { mgr with incId := lasthead.incId + 1, lastWritedId := lasthead.incId }, dir)
  else (.ok (), mgr, { dir with basePath := true, headLog := some dir.heads })

/-- An exception leaves the members as they were set before it. -/
def init : Except String Unit × ReqLogMgr × ReqLogDir :=
  loadLastData { incId := 1, lastWritedId := 0, preparedReq := none } dir

def prepareReqLog (preparedReqdata : CommonReqData) (isprimary : Bool) :
    Bool × CommonReqData × ReqLogMgr :=
  if mgr.preparedReq.isSome then (false, preparedReqdata, mgr)
  else if isprimary then
    let preparedReqdata := { preparedReqdata with incId := mgr.incId }
    (true, preparedReqdata,
      { mgr with incId := mgr.incId + 1, preparedReq := some preparedReqdata })
  else if preparedReqdata.incId < mgr.incId then (false, preparedReqdata, mgr)
  else
    (true, preparedReqdata,
      { mgr with incId := preparedReqdata.incId + 1, preparedReq := some preparedReqdata })

def delPreparedReqLog : ReqLogMgr := { mgr with preparedReq := none }

/-- The head for the data, which goes behind what the data file has. -/
def headFor (reqdata : CommonReqData) (reqPackedData : Bytes) : ReqLogHead :=
  { incId := reqdata.incId
    reqtype := reqdata.reqtype
    reqDataOffset :=
      ofNat ((dir.dataFiles.lookup (getDataPath reqdata.incId)).getD []).length
    reqDataLen := ofNat reqPackedData.length
    reqDataCrc := crc 0 reqPackedData (toInt reqPackedData.length) }

/-- The request that an append would write. -/
def toAppend : Option CommonReqData :=
  mgr.preparedReq.filter fun reqdata => ¬ reqdata.incId < mgr.lastWritedId

/-- `dataGood` and `headGood` say whether the files can be opened. -/
def appendReqData (reqPackedData : Bytes)
    (dataGood headGood : Bool) : Bool × ReqLogMgr × ReqLogDir :=
  match mgr.toAppend with
  | none => (false, mgr, dir)
  | some reqdata =>
    let path := getDataPath reqdata.incId
    let dir := dir.openLogs path dataGood headGood
    if !dataGood || !headGood then (false, mgr, dir)
    else
      let whead := headFor dir reqdata reqPackedData
      (true, { mgr with lastWritedId := whead.incId }, { dir with
          dataFiles := appendFile dir.dataFiles path reqPackedData
          headLog := some (dir.heads ++ [whead]) })

/-- An append that ends between its two writes. -/
def crashedAppend (reqPackedData : Bytes) : Option ReqLogDir :=
  mgr.toAppend.map fun reqdata =>
    let path := getDataPath reqdata.incId
    let dir := dir.openLogs path true true
    { dir with dataFiles := appendFile dir.dataFiles path reqPackedData }

end ReqLogMgr

/-- A manager with its directory. `given` has the id of the prepared request and the data of
every append that returned true. -/
structure ReqLog where
  mgr : ReqLogMgr
  dir : ReqLogDir
  given : List (UInt32 × Bytes)

inductive ReqLogCall
  | init
  | prepareReqLog (reqdata : CommonReqData) (isprimary : Bool)
  | delPreparedReqLog
  | appendReqData (reqPackedData : Bytes) (dataGood headGood : Bool)
  | crash (reqPackedData : Bytes)

/-- All data files are shorter than `2 ^ 32`. -/
def FilesFit (dir : ReqLogDir) : Prop :=
  ∀ path file, dir.dataFiles.lookup path = some file → file.length < 2 ^ 32

namespace ReqLog

/-- The manager is set up again, for a new process or by a second call. -/
def init (log : ReqLog) (dir : ReqLogDir) : ReqLog :=
  let (_, mgr, dir) := ReqLogMgr.init dir
  { log with mgr, dir }

def call (log : ReqLog) : ReqLogCall → Option ReqLog
  | .init => some (log.init log.dir)
  | .prepareReqLog reqdata isprimary =>
    let (_, _, mgr) := log.mgr.prepareReqLog reqdata isprimary
    some { log with mgr }
  | .delPreparedReqLog => some { log with mgr := log.mgr.delPreparedReqLog }
  | .appendReqData reqPackedData dataGood headGood =>
    let (done, mgr, dir) := log.mgr.appendReqData log.dir reqPackedData dataGood headGood
    let request := log.mgr.preparedReq.map fun reqdata => (reqdata.incId, reqPackedData)
    let given := if done then log.given ++ request.toList else log.given
    some { mgr, dir, given }
  | .crash reqPackedData => (log.mgr.crashedAppend log.dir reqPackedData).map log.init

/-- A call after which the data files still fit. -/
def Step (log : ReqLog) (call : ReqLogCall) (log' : ReqLog) : Prop :=
  log.call call = some log' ∧ FilesFit log'.dir

/-- The log after `init` on an empty directory, or on one that does not exist. -/
def start (basePath : Bool) : ReqLog :=
  init { mgr := {}, dir := {}, given := [] } { basePath }

end ReqLog

open ReqLog

/-! ## What the request log keeps

The data of a request stays where its head says, whatever happens later. The ids in the head
file ascend strictly as long as no prepared request is appended twice, no request gets the
greatest id there is, and the length of the head file is read as what it is.
-/

open ReqLogHead

section RequestLogInvariant

open List

/-- The head has the id of the request, and the place and the checksum of its data. -/
structure Addresses (dir : ReqLogDir) (head : ReqLogHead) (given : UInt32 × Bytes) : Prop where
  incId : head.incId = given.1
  located : LocatedIn dir.dataFiles (getDataPath head.incId) head.reqDataOffset.toNat given.2
  len : head.reqDataLen.toNat = given.2.length
  crc : head.reqDataCrc = crc 0 given.2 (toInt given.2.length)

/-- The last id in the head file, 0 if there is none. -/
def lastId (heads : List ReqLogHead) : UInt32 := (heads.getLast?.map incId).getD 0

/-- There is one head for each append that returned true, in this order, with its place and
strictly ascending ids, and the manager knows the last of them. -/
structure LogOk (log : ReqLog) : Prop where
  increasing : (log.dir.heads.map incId).Pairwise (· < ·)
  addressed : List.Forall₂ (Addresses log.dir) log.dir.heads log.given
  last : log.mgr.lastWritedId = lastId log.dir.heads
  next : log.mgr.lastWritedId < log.mgr.incId

/-- The length of the head file is read as the length of some whole heads, if there are heads. -/
def HeadLengthFits (heads : List ReqLogHead) : Prop :=
  heads ≠ [] → 0 < toInt (heads.length * sizeofReqLogHead) ∧
    toInt (heads.length * sizeofReqLogHead) % sizeofReqLogHead = 0

/-- A prepared request does not get the id `2 ^ 32 - 1` and is not appended twice; a manager is
set up when the length of the head file fits. -/
def CallOk (log : ReqLog) : ReqLogCall → Prop
  | .init => HeadLengthFits log.dir.heads
  | .prepareReqLog reqdata isprimary => log.mgr.preparedReq = none →
    if isprimary then log.mgr.incId + 1 ≠ 0
    else log.mgr.incId ≤ reqdata.incId → reqdata.incId + 1 ≠ 0
  | .delPreparedReqLog => True
  | .appendReqData _ dataGood headGood => ∀ reqdata, log.mgr.preparedReq = some reqdata →
    dataGood → headGood → reqdata.incId = log.mgr.lastWritedId → log.dir.heads = []
  | .crash _ => HeadLengthFits log.dir.heads

variable {dir : ReqLogDir} {head : ReqLogHead} {given : UInt32 × Bytes}

/-- Where the file has all bytes of a head, the string does not matter. -/
theorem getReqPackedDataByHead_of_length {file : Bytes}
    (hfile : dir.dataFiles.lookup (getDataPath head.incId) = some file)
    (hlength : (segment file head.reqDataOffset.toNat head.reqDataLen.toNat).length =
      head.reqDataLen.toNat) (reqPackedData : Bytes) :
    dir.getReqPackedDataByHead head reqPackedData =
      if crc 0 (segment file head.reqDataOffset.toNat head.reqDataLen.toNat)
          (toInt head.reqDataLen.toNat) = head.reqDataCrc then
        .ok (segment file head.reqDataOffset.toNat head.reqDataLen.toNat)
      else .error "request log data corrupt." := by
  have hnone : (resize reqPackedData head.reqDataLen.toNat 0).drop head.reqDataLen.toNat = [] := by
    rw [drop_eq_nil_iff, length_resize]
  unfold ReqLogDir.getReqPackedDataByHead
  simp only [hfile, hlength, hnone, append_nil, ne_eq, ite_not]

/-- A head that addresses data leads to it. -/
theorem Addresses.getReqPackedDataByHead (h : Addresses dir head given)
    (reqPackedData : Bytes := []) :
    dir.getReqPackedDataByHead head reqPackedData = .ok given.2 := by
  obtain ⟨file, hfile, _, hsegment⟩ := h.located
  rw [← h.len] at hsegment
  rw [getReqPackedDataByHead_of_length hfile (by rw [hsegment, h.len]), hsegment, if_pos]
  rw [h.len, h.crc]

theorem Addresses.append {dir dir' : ReqLogDir} (h : Addresses dir head given) {path : ℕ}
    {data : Bytes} (hdir : dir'.dataFiles = appendFile dir.dataFiles path data) :
    Addresses dir' head given :=
  ⟨h.incId, hdir ▸ h.located.appendFile path data, h.len, h.crc⟩

/-- A call that adds no head. -/
structure Keeps (dir dir' : ReqLogDir) : Prop where
  basePath : dir'.basePath = dir.basePath
  heads : dir'.heads = dir.heads
  addresses : ∀ head given, Addresses dir head given → Addresses dir' head given

theorem Keeps.refl (dir : ReqLogDir) : Keeps dir dir := ⟨rfl, rfl, fun _ _ h => h⟩

theorem keeps_openLogs (dir : ReqLogDir) (path : ℕ) (dataGood headGood : Bool) :
    Keeps dir (dir.openLogs path dataGood headGood) := by
  refine ⟨rfl, ?_, fun head given h => ?_⟩
  · cases headGood <;> rfl
  · cases dataGood with
    | false => exact ⟨h.incId, h.located, h.len, h.crc⟩
    | true => exact h.append (openFile_eq dir.dataFiles path)

/-- What an append writes. -/
def appended (dir : ReqLogDir) (reqdata : CommonReqData) (reqPackedData : Bytes) : ReqLogDir :=
  { dir with
    dataFiles := appendFile dir.dataFiles (getDataPath reqdata.incId) reqPackedData
    headLog := some (dir.heads ++ [ReqLogMgr.headFor dir reqdata reqPackedData]) }

theorem heads_appended (dir : ReqLogDir) (reqdata : CommonReqData) (reqPackedData : Bytes) :
    (appended dir reqdata reqPackedData).heads =
      dir.heads ++ [ReqLogMgr.headFor dir reqdata reqPackedData] := rfl

variable {reqdata : CommonReqData} {reqPackedData : Bytes}

/-- The head that an append writes addresses its data, which fits the file. -/
theorem addresses_appended (hfit : FilesFit (appended dir reqdata reqPackedData)) :
    Addresses (appended dir reqdata reqPackedData)
      (ReqLogMgr.headFor dir reqdata reqPackedData) (reqdata.incId, reqPackedData) := by
  have hlt := hfit _ _ (lookup_appendFile_self dir.dataFiles (getDataPath reqdata.incId)
    reqPackedData)
  rw [length_append] at hlt
  have hsize : size = 2 ^ 32 := rfl
  have hlen := toNat_ofNat_of_lt' (lt_of_le_of_lt (Nat.le_add_left _ _) hlt)
  have hoffset := toNat_ofNat_of_lt' (lt_of_le_of_lt (Nat.le_add_right _ _) hlt)
  have hplace := locatedIn_appendFile dir.dataFiles (getDataPath reqdata.incId) reqPackedData
  rw [← hoffset] at hplace
  refine ⟨rfl, hplace, hlen, ?_⟩
  -- without evaluating the checksum
  rw [ReqLogMgr.headFor]

theorem toAppend_eq_some_iff {mgr : ReqLogMgr} : mgr.toAppend = some reqdata ↔
      mgr.preparedReq = some reqdata ∧ mgr.lastWritedId ≤ reqdata.incId := by
  rw [ReqLogMgr.toAppend]
  simp

theorem headFor_openLogs (dir : ReqLogDir) (reqdata : CommonReqData) (reqPackedData : Bytes) :
    ReqLogMgr.headFor (dir.openLogs (getDataPath reqdata.incId) true true) reqdata
      reqPackedData = ReqLogMgr.headFor dir reqdata reqPackedData := by
  rw [ReqLogMgr.headFor, ReqLogMgr.headFor, ReqLogDir.openLogs]
  simp only [if_true, getD_lookup_openFile]

/-- An append that finds its files open. -/
theorem appendReqData_eq {mgr : ReqLogMgr} (hprepared : mgr.preparedReq = some reqdata)
    (hle : mgr.lastWritedId ≤ reqdata.incId) (dir : ReqLogDir) (reqPackedData : Bytes) :
    mgr.appendReqData dir reqPackedData true true =
      (true, { mgr with lastWritedId := reqdata.incId }, appended dir reqdata reqPackedData) := by
  have happend := toAppend_eq_some_iff.mpr ⟨hprepared, hle⟩
  unfold ReqLogMgr.appendReqData
  simp only [happend, Bool.not_true, Bool.or_self, Bool.false_eq_true, if_false, headFor_openLogs]
  simp only [appended, ReqLogDir.openLogs, ReqLogDir.heads, getD_some, if_true,
    appendFile_openFile, ReqLogMgr.headFor]

theorem call_appendReqData {log : ReqLog} (hprepared : log.mgr.preparedReq = some reqdata)
    (hle : log.mgr.lastWritedId ≤ reqdata.incId) (reqPackedData : Bytes) :
    log.call (.appendReqData reqPackedData true true) = some
      { mgr := { log.mgr with lastWritedId := reqdata.incId }
        dir := appended log.dir reqdata reqPackedData
        given := log.given ++ [(reqdata.incId, reqPackedData)] } := by
  unfold call
  simp only [appendReqData_eq hprepared hle, if_true, hprepared, map_some, toList_some]

variable {log log' : ReqLog} {dataGood headGood : Bool}

/-- An append that returns false keeps all heads; one that returns true writes the prepared
request. -/
theorem appendReqData_cases
    (h : log.call (.appendReqData reqPackedData dataGood headGood) = some log') :
    (log'.mgr = log.mgr ∧ Keeps log.dir log'.dir ∧ log'.given = log.given ∧
      ∀ reqdata, log.mgr.preparedReq = some reqdata → dataGood → headGood →
        reqdata.incId < log.mgr.lastWritedId) ∨
    ∃ reqdata, log.mgr.preparedReq = some reqdata ∧ log.mgr.lastWritedId ≤ reqdata.incId ∧
      dataGood ∧ headGood ∧
      log' =
        { mgr := { log.mgr with lastWritedId := reqdata.incId }
          dir := appended log.dir reqdata reqPackedData
          given := log.given ++ [(reqdata.incId, reqPackedData)] } := by
  cases happend : log.mgr.toAppend with
  | none =>
    left
    unfold call ReqLogMgr.appendReqData at h
    simp only [happend, Bool.false_eq_true, if_false, some.injEq] at h
    subst h
    refine ⟨rfl, .refl _, rfl, fun reqdata hprepared _ _ => ?_⟩
    by_contra hle
    have hsome := toAppend_eq_some_iff.mpr ⟨hprepared, UInt32.not_lt.mp hle⟩
    rw [happend] at hsome
    cases hsome
  | some reqdata =>
    obtain ⟨hprepared, hle⟩ := toAppend_eq_some_iff.mp happend
    by_cases hgood : dataGood = true ∧ headGood = true
    · right
      obtain ⟨rfl, rfl⟩ := hgood
      refine ⟨reqdata, hprepared, hle, rfl, rfl, ?_⟩
      rw [call_appendReqData hprepared hle] at h
      exact (some.inj h).symm
    · left
      have hbad : (!dataGood || !headGood) = true := by
        cases dataGood <;> cases headGood <;> simp at hgood ⊢
      unfold call ReqLogMgr.appendReqData at h
      simp only [happend, hbad, if_true, Bool.false_eq_true, if_false, some.injEq] at h
      subst h
      refine ⟨rfl, keeps_openLogs _ _ _ _, rfl, fun reqdata' _ hdata hhead => ?_⟩
      exact absurd ⟨hdata, hhead⟩ hgood

theorem lastId_concat (heads : List ReqLogHead) (head : ReqLogHead) :
    lastId (heads ++ [head]) = head.incId := by
  rw [lastId, getLast?_concat, map_some, getD_some]

/-- The manager that is set up for a directory. -/
theorem init_eq {log : ReqLog} (hbase : dir.basePath = true) : log.init dir = { log with
        dir := dir
        mgr :=
          if 0 < toInt (dir.heads.length * sizeofReqLogHead) ∧
              toInt (dir.heads.length * sizeofReqLogHead) % sizeofReqLogHead = 0 then
            { incId := lastId dir.heads + 1, lastWritedId := lastId dir.heads }
          else {} } := by
  unfold init ReqLogMgr.init ReqLogMgr.loadLastData
  simp only [hbase, if_true]
  cases hlog : dir.headLog with
  | none =>
    have hheads : dir.heads = [] := by rw [ReqLogDir.heads, hlog, getD_none]
    have hlength : ¬ 0 < toInt (0 * sizeofReqLogHead) := by decide
    simp only [hheads, length_nil, hlength, false_and, if_false]
  | some heads =>
    have hheads : dir.heads = heads := by rw [ReqLogDir.heads, hlog, getD_some]
    simp only [hheads]
    generalize hlength : toInt (heads.length * sizeofReqLogHead) = length
    by_cases hfits : 0 < length ∧ length % sizeofReqLogHead = 0
    · have hne : length ≠ 0 := hfits.1.ne'
      have hge : ¬ length < sizeofReqLogHead := by
        have hsize : (sizeofReqLogHead : ℤ) = 20 := rfl
        rw [hsize] at hfits ⊢
        omega
      rw [if_neg hne, if_neg hge, if_neg (not_not.mpr hfits.2), if_pos hfits]
      rcases eq_nil_or_concat' heads with rfl | ⟨heads, head, rfl⟩
      · exact absurd hlength.symm hne
      · rw [lastId_concat, getLastD_concat]
    · split_ifs with h₀ h₁ h₂
      · rfl
      · rfl
      · rfl
      · refine absurd ⟨?_, not_not.mp h₂⟩ hfits
        have hsize : (sizeofReqLogHead : ℤ) = 20 := rfl
        omega

theorem lt_add_one_iff_ne_zero {a b : UInt32} (h : a < b) : a < b + 1 ↔ b + 1 ≠ 0 := by
  have hb := b.toNat_lt
  rw [UInt32.lt_iff_toNat_lt] at h ⊢
  rw [Ne, ← UInt32.toNat_inj, UInt32.toNat_add, UInt32.toNat_one, UInt32.toNat_zero]
  omega

/-- What holds of every log: its directory exists, and the id of a prepared request is the
last one given out. -/
structure LogSound (log : ReqLog) : Prop where
  basePath : log.dir.basePath = true
  prepared : ∀ reqdata, log.mgr.preparedReq = some reqdata →
    log.mgr.incId = reqdata.incId + 1

variable {heads : List ReqLogHead}

/-- Without a head that says otherwise, the ids start again only if the file is not read. -/
theorem lastId_eq_zero (hinc : (heads.map incId).Pairwise (· < ·))
    (h : lastId heads = 0) : heads.length ≤ 1 := by
  rcases eq_nil_or_concat' heads with rfl | ⟨heads, head, rfl⟩
  · exact Nat.zero_le _
  · cases heads with
    | nil => exact le_rfl
    | cons first heads =>
      rw [lastId_concat] at h
      rw [map_append, pairwise_append] at hinc
      have hlt := hinc.2.2 first.incId (by simp) head.incId (by simp)
      rw [h] at hlt
      exact absurd hlt UInt32.not_lt_zero

theorem Keeps.forall₂ {dir dir' : ReqLogDir} (h : Keeps dir dir') {given : List (UInt32 × Bytes)}
    (haddressed : List.Forall₂ (Addresses dir) heads given) :
    List.Forall₂ (Addresses dir') heads given :=
  haddressed.imp h.addresses

/-- Setting up the manager keeps the log exactly when the head file is read as what it is. -/
theorem logOk_init_iff {log : ReqLog} (hsound : LogSound log) (hok : LogOk log)
    (hdir : Keeps log.dir dir) : LogOk (log.init dir) ↔ HeadLengthFits log.dir.heads := by
  rw [init_eq (hdir.basePath.trans hsound.basePath), hdir.heads]
  have haddressed := hdir.forall₂ hok.addressed
  by_cases hfits : 0 < toInt (log.dir.heads.length * sizeofReqLogHead) ∧
      toInt (log.dir.heads.length * sizeofReqLogHead) % sizeofReqLogHead = 0
  · rw [if_pos hfits]
    refine iff_of_true ?_ fun _ => hfits
    constructor
    · simpa only [hdir.heads] using hok.increasing
    · simpa only [hdir.heads] using haddressed
    · simp only [hdir.heads]
    · -- an id above the last one was given out, so the last one is not the greatest there is
      have hnext := hok.next
      rw [hok.last, lt_iff_toNat_lt] at hnext
      have hlt := log.mgr.incId.toNat_lt
      simp only [UInt32.lt_iff_toNat_lt, UInt32.toNat_add, UInt32.toNat_one]
      omega
  · rw [if_neg hfits]
    by_cases hheads : log.dir.heads = []
    · refine iff_of_true ?_ fun h => absurd hheads h
      constructor
      · simpa only [hdir.heads] using hok.increasing
      · simpa only [hdir.heads] using haddressed
      · simp only [hdir.heads, hheads]
        rfl
      · exact (by decide : (0 : UInt32) < 1)
    · refine iff_of_false (fun h => ?_) fun h => hfits (h hheads)
      have hlast : lastId log.dir.heads = 0 := by
        rw [← hdir.heads]
        exact h.last.symm
      have hle := lastId_eq_zero hok.increasing hlast
      have hpos : 0 < log.dir.heads.length := length_pos_iff.mpr hheads
      have hone : log.dir.heads.length = 1 := by omega
      rw [hone] at hfits
      exact hfits (by decide)

theorem logOk_prepareReqLog_iff {isprimary : Bool} (hok : LogOk log)
    (h : log.call (.prepareReqLog reqdata isprimary) = some log') :
    LogOk log' ↔ CallOk log (.prepareReqLog reqdata isprimary) := by
  rw [call, some.injEq] at h
  subst h
  have hdata (mgr : ReqLogMgr) (hlast : mgr.lastWritedId = log.mgr.lastWritedId) :
      LogOk { log with mgr } ↔ log.mgr.lastWritedId < mgr.incId := by
    constructor
    · intro h'
      exact hlast ▸ h'.next
    · intro hnext
      exact ⟨hok.increasing, hok.addressed, hlast.trans hok.last, hlast.symm ▸ hnext⟩
  simp only [CallOk]
  unfold ReqLogMgr.prepareReqLog
  cases hprepared : log.mgr.preparedReq with
  | some prepared =>
    simp only [isSome_some, if_true, reduceCtorEq, false_imp_iff, iff_true]
    exact hok
  | none =>
    simp only [isSome_none, Bool.false_eq_true, if_false, true_imp_iff]
    cases isprimary with
    | true =>
      refine (hdata _ ?_).trans (lt_add_one_iff_ne_zero hok.next)
      rfl
    | false =>
      by_cases hlow : reqdata.incId < log.mgr.incId
      · simp only [hlow, if_true]
        exact iff_of_true hok fun hle => absurd hlow (UInt32.not_lt.mpr hle)
      · have hle : log.mgr.incId ≤ reqdata.incId := UInt32.not_lt.mp hlow
        simp only [hlow, if_false, hle, true_imp_iff]
        refine (hdata _ ?_).trans (lt_add_one_iff_ne_zero (UInt32.lt_of_lt_of_le hok.next hle))
        rfl

/-- Ids stay ascending with one more id that is not below the last one, if it is not the last
one again. -/
theorem pairwise_concat_iff (hinc : (heads.map incId).Pairwise (· < ·))
    (hle : lastId heads ≤ head.incId) : ((heads ++ [head]).map incId).Pairwise (· < ·) ↔
      (head.incId = lastId heads → heads = []) := by
  rcases eq_nil_or_concat' heads with rfl | ⟨heads, last, rfl⟩
  · simp
  · rw [lastId_concat] at hle ⊢
    rw [map_append, pairwise_append]
    have hne : heads ++ [last] ≠ [] := by simp
    constructor
    · intro h heq
      have hlt := h.2.2 last.incId (by simp) head.incId (by simp)
      exact absurd (heq ▸ hlt) (UInt32.lt_irrefl _)
    · intro h
      have hlt : last.incId < head.incId :=
        UInt32.lt_of_le_of_ne hle fun heq => hne (h heq.symm)
      refine ⟨hinc, pairwise_singleton _ _, fun id hid id' hid' => ?_⟩
      rw [mem_singleton.mp hid']
      rw [map_append, pairwise_append] at hinc
      rw [map_append, mem_append] at hid
      rcases hid with hid | hid
      · exact UInt32.lt_trans (hinc.2.2 id hid last.incId (by simp)) hlt
      · obtain rfl : id = last.incId := by simpa using hid
        exact hlt

theorem logOk_appendReqData_iff (hsound : LogSound log) (hok : LogOk log) (hfit : FilesFit log'.dir)
    (h : log.call (.appendReqData reqPackedData dataGood headGood) = some log') :
    LogOk log' ↔ CallOk log (.appendReqData reqPackedData dataGood headGood) := by
  rcases appendReqData_cases h with
    ⟨hmgr, hkeeps, hgiven, hlow⟩ | ⟨reqdata, hprepared, hle, hdata, hhead, rfl⟩
  · refine iff_of_true ?_ fun reqdata hprepared hdata hhead hid => ?_
    · constructor
      · rw [hkeeps.heads]
        exact hok.increasing
      · rw [hkeeps.heads, hgiven]
        exact hkeeps.forall₂ hok.addressed
      · rw [hmgr, hkeeps.heads]
        exact hok.last
      · rw [hmgr]
        exact hok.next
    · exact absurd (hid ▸ hlow reqdata hprepared hdata hhead) (UInt32.lt_irrefl _)
  · have hcall : CallOk log (.appendReqData reqPackedData dataGood headGood) ↔
        (reqdata.incId = log.mgr.lastWritedId → log.dir.heads = []) := by
      simp only [CallOk, hprepared, some.injEq, forall_eq', hdata, hhead, true_imp_iff]
    have hlast : lastId log.dir.heads ≤
        (ReqLogMgr.headFor log.dir reqdata reqPackedData).incId := hok.last ▸ hle
    rw [hcall, hok.last]
    refine Iff.trans ?_ (pairwise_concat_iff hok.increasing hlast)
    refine ⟨fun h' => h'.increasing, fun hinc => ?_⟩
    have hold : ∀ head given, Addresses log.dir head given →
        Addresses (appended log.dir reqdata reqPackedData) head given :=
      fun _ _ haddresses => haddresses.append rfl
    constructor
    · exact hinc
    · exact rel_append (hok.addressed.imp hold)
        (.cons (addresses_appended hfit) .nil)
    · rw [heads_appended, lastId_concat]
      rfl
    · have hnext := hok.next
      have hlt := reqdata.incId.toNat_lt
      simp only [hsound.prepared reqdata hprepared, UInt32.lt_iff_toNat_lt, UInt32.toNat_add,
        UInt32.toNat_one] at hnext ⊢
      omega

theorem logSound_init {log : ReqLog} (hbase : dir.basePath = true) : LogSound (log.init dir) := by
  rw [init_eq hbase]
  refine ⟨hbase, fun reqdata hprepared => ?_⟩
  split_ifs at hprepared

theorem logSound_prepareReqLog {log : ReqLog} (hsound : LogSound log) (reqdata : CommonReqData)
    (isprimary : Bool) :
    LogSound { log with mgr := (log.mgr.prepareReqLog reqdata isprimary).2.2 } := by
  refine ⟨hsound.basePath, fun prepared hprepared => ?_⟩
  unfold ReqLogMgr.prepareReqLog at hprepared ⊢
  split_ifs at hprepared ⊢
  · exact hsound.prepared prepared hprepared
  · obtain rfl := some.inj hprepared
    rfl
  · exact hsound.prepared prepared hprepared
  · obtain rfl := some.inj hprepared
    rfl

theorem crashedAppend_keeps {log : ReqLog}
    (h : log.mgr.crashedAppend log.dir reqPackedData = some dir) : Keeps log.dir dir := by
  rw [ReqLogMgr.crashedAppend, map_eq_some_iff] at h
  obtain ⟨reqdata, _, rfl⟩ := h
  have hopen := keeps_openLogs log.dir (getDataPath reqdata.incId) true true
  exact ⟨hopen.basePath, hopen.heads, fun head given h => (hopen.addresses head given h).append rfl⟩

theorem logSound_step {call : ReqLogCall} (hsound : LogSound log) (h : Step log call log') :
    LogSound log' := by
  have hcall := h.1
  cases call with
  | init =>
    rw [call, some.injEq] at hcall
    exact hcall ▸ logSound_init hsound.basePath
  | prepareReqLog reqdata isprimary =>
    rw [call, some.injEq] at hcall
    exact hcall ▸ logSound_prepareReqLog hsound reqdata isprimary
  | delPreparedReqLog =>
    rw [call, some.injEq] at hcall
    subst hcall
    exact ⟨hsound.basePath, fun reqdata hprepared => by cases hprepared⟩
  | appendReqData reqPackedData dataGood headGood =>
    rcases appendReqData_cases hcall with ⟨hmgr, hkeeps, _⟩ | ⟨_, _, _, _, _, rfl⟩
    · exact ⟨hkeeps.basePath.trans hsound.basePath, hmgr ▸ hsound.prepared⟩
    · exact ⟨hsound.basePath, hsound.prepared⟩
  | crash reqPackedData =>
    rw [call, map_eq_some_iff] at hcall
    obtain ⟨dir, hdir, rfl⟩ := hcall
    exact logSound_init ((crashedAppend_keeps hdir).basePath.trans hsound.basePath)

/-- A call keeps the invariant exactly when it meets the condition. -/
theorem logOk_step_iff {call : ReqLogCall} (hsound : LogSound log) (hok : LogOk log)
    (h : Step log call log') : LogOk log' ↔ CallOk log call := by
  obtain ⟨hcall, hfit⟩ := h
  cases call with
  | init =>
    rw [call, some.injEq] at hcall
    exact hcall ▸ logOk_init_iff hsound hok (.refl log.dir)
  | prepareReqLog reqdata isprimary => exact logOk_prepareReqLog_iff hok hcall
  | delPreparedReqLog =>
    rw [call, some.injEq] at hcall
    subst hcall
    exact iff_of_true ⟨hok.increasing, hok.addressed, hok.last, hok.next⟩ trivial
  | appendReqData reqPackedData dataGood headGood =>
    exact logOk_appendReqData_iff hsound hok hfit hcall
  | crash reqPackedData =>
    rw [call, map_eq_some_iff] at hcall
    obtain ⟨dir, hdir, rfl⟩ := hcall
    exact logOk_init_iff hsound hok (crashedAppend_keeps hdir)

theorem logSound_start (basePath : Bool) : LogSound (start basePath) := by
  cases basePath with
  | false => exact ⟨rfl, fun reqdata hprepared => by cases hprepared⟩
  | true => exact logSound_init rfl

theorem logOk_start (basePath : Bool) : LogOk (start basePath) := by
  cases basePath with
  | false => exact ⟨.nil, .nil, rfl, (by decide : (0 : UInt32) < 1)⟩
  | true => exact ⟨.nil, .nil, rfl, (by decide : (0 : UInt32) < 1)⟩

/-- The log keeps its invariant all along a run exactly when the run's calls meet their
conditions. -/
theorem holdsAlong_logOk_iff (basePath : Bool) (calls : List ReqLogCall) :
    HoldsAlong Step LogOk (start basePath) calls ↔
      StepsMeet Step CallOk (start basePath) calls := by
  refine holdsAlong_iff_stepsMeet (Q := LogSound) ?_ ?_ (logSound_start basePath)
    (logOk_start basePath) calls
  · intro log call log' hsound h
    exact logSound_step hsound h
  · intro log call log' hsound hok h
    exact logOk_step_iff hsound hok h

/-- The primary appends its first request twice. -/
def appendedTwice : List ReqLogCall :=
  [.prepareReqLog {} true, .appendReqData [1] true true, .appendReqData [1] true true]

theorem filesFit_appended (hfit : FilesFit dir) (reqdata : CommonReqData) (data : Bytes)
    (hlt : ((dir.dataFiles.lookup (getDataPath reqdata.incId)).getD [] ++ data).length < 2 ^ 32) :
    FilesFit (appended dir reqdata data) := by
  intro path file hfile
  rw [appended, appendFile] at hfile
  by_cases hpath : path = getDataPath reqdata.incId
  · rw [hpath, Finmap.lookup_insert] at hfile
    exact some.inj hfile ▸ hlt
  · rw [Finmap.lookup_insert_of_ne _ hpath] at hfile
    exact hfit path file hfile

theorem not_holdsAlong_logOk_appendedTwice :
    ¬ HoldsAlong Step LogOk (start false) appendedTwice := by
  intro hall
  have hstart : FilesFit (start false).dir := fun path file hfile => by cases hfile
  have hfirst := filesFit_appended hstart { incId := 1 } [1] (by decide)
  have hsecond := filesFit_appended hfirst { incId := 1 } [1] (by decide)
  have hrun : Run Step (start false) appendedTwice _ :=
    .cons ⟨rfl, hstart⟩ (.cons ⟨call_appendReqData rfl (by decide) [1], hfirst⟩
      (.cons ⟨call_appendReqData rfl (by decide) [1], hsecond⟩ (.nil _)))
  have hok := hall appendedTwice [] _ (append_nil _) hrun
  exact absurd hok.increasing (by decide)

/-- The log has grown, and each of its heads addresses what was given to it. -/
structure Grown (log log' : ReqLog) : Prop where
  sound : LogSound log'
  heads : log.dir.heads <+: log'.dir.heads
  given : log.given <+: log'.given
  addressed : Forall₂ (Addresses log'.dir) log'.dir.heads log'.given

theorem Grown.keeps {log'' : ReqLog} (h : Grown log log') (hsound : LogSound log'')
    (hkeeps : Keeps log'.dir log''.dir) (hgiven : log''.given = log'.given) : Grown log log'' := by
  refine ⟨hsound, hkeeps.heads ▸ h.heads, hgiven ▸ h.given, ?_⟩
  rw [hkeeps.heads, hgiven]
  exact hkeeps.forall₂ h.addressed

theorem Grown.step {log'' : ReqLog} {call : ReqLogCall} (h : Grown log log')
    (hstep : Step log' call log'') : Grown log log'' := by
  have hsound := logSound_step h.sound hstep
  obtain ⟨hcall, hfit⟩ := hstep
  cases call with
  | init =>
    obtain rfl := some.inj hcall
    rw [init_eq h.sound.basePath] at hsound ⊢
    exact h.keeps hsound (.refl _) rfl
  | prepareReqLog reqdata isprimary =>
    obtain rfl := some.inj hcall
    exact h.keeps hsound (.refl _) rfl
  | delPreparedReqLog =>
    obtain rfl := some.inj hcall
    exact h.keeps hsound (.refl _) rfl
  | appendReqData reqPackedData dataGood headGood =>
    rcases appendReqData_cases hcall with ⟨-, hkeeps, hgiven, -⟩ | ⟨reqdata, -, -, -, -, rfl⟩
    · exact h.keeps hsound hkeeps hgiven
    · have hold : Forall₂ (Addresses (appended log'.dir reqdata reqPackedData)) log'.dir.heads
          log'.given := h.addressed.imp fun _ _ haddress => haddress.append rfl
      exact ⟨hsound, h.heads.trans (prefix_append _ _), h.given.trans (prefix_append _ _),
        rel_append hold (.cons (addresses_appended hfit) .nil)⟩
  | crash reqPackedData =>
    rw [call, map_eq_some_iff] at hcall
    obtain ⟨dir, hdir, rfl⟩ := hcall
    have hkeeps := crashedAppend_keeps hdir
    rw [init_eq (hkeeps.basePath.trans h.sound.basePath)] at hsound ⊢
    exact h.keeps hsound hkeeps rfl

/-- Whatever follows an append that returned true, failed appends and crashes in every run
included: its head stays in its place, and leads to its data. -/
theorem logged_stays (basePath : Bool) {before after : List ReqLogCall}
    (hbefore : Run Step (start basePath) before log)
    (hafter : Run Step log after log') (k : ℕ) (given : UInt32 × Bytes)
    (hgiven : log.given[k]? = some given) :
    ∃ head, log.dir.heads[k]? = some head ∧ log'.dir.heads[k]? = some head ∧
      head.incId = given.1 ∧ log'.dir.getReqPackedDataByHead head = .ok given.2 := by
  have hlog := hbefore.invariant (P := Grown (start basePath))
    (fun _ _ _ h hstep => h.step hstep)
    ⟨logSound_start basePath, prefix_rfl, prefix_rfl, (logOk_start basePath).addressed⟩
  have hlog' := hafter.invariant (P := Grown log) (fun _ _ _ h hstep => h.step hstep)
    ⟨hlog.sound, prefix_rfl, prefix_rfl, hlog.addressed⟩
  obtain ⟨hk, rfl⟩ := List.getElem?_eq_some_iff.mp hgiven
  have hk' : k < log.dir.heads.length := hlog.addressed.length_eq ▸ hk
  have hhead := prefix_iff_getElem?.mp hlog'.heads k hk'
  obtain ⟨h₁, heq₁⟩ := List.getElem?_eq_some_iff.mp hhead
  obtain ⟨h₂, heq₂⟩ :=
    List.getElem?_eq_some_iff.mp (prefix_iff_getElem?.mp hlog'.given k hk)
  have haddress := hlog'.addressed.get h₁ h₂
  rw [get_eq_getElem, get_eq_getElem, heq₁, heq₂] at haddress
  exact ⟨_, getElem?_eq_getElem hk', hhead, haddress.incId, haddress.getReqPackedDataByHead⟩

/-- The primary's first request is logged. -/
def loggedOnce : ReqLog :=
  { mgr := { incId := 2, lastWritedId := 1, preparedReq := some { incId := 1 } }
    dir := appended (start false).dir { incId := 1 } [1]
    given := [(1, [1])] }

theorem filesFit_start : FilesFit (start false).dir := fun path file hfile => by cases hfile

theorem run_loggedOnce : Run Step (start false)
    [.prepareReqLog {} true, .appendReqData [1] true true] loggedOnce := by
  have hfirst := filesFit_appended filesFit_start { incId := 1 } [1] (by decide)
  exact .cons ⟨rfl, filesFit_start⟩
    (.cons ⟨call_appendReqData rfl (by decide) [1], hfirst⟩ (.nil _))

/-- The request is appended again, and the second append crashes. -/
theorem logged_stays_crash : ∃ log', Run Step loggedOnce [.crash [2]] log' ∧
    ∃ head, log'.dir.heads[0]? = some head ∧ log'.dir.getReqPackedDataByHead head = .ok [1] := by
  have hfirst := filesFit_appended filesFit_start { incId := 1 } [1] (by decide)
  have hsecond := filesFit_appended hfirst { incId := 1 } [2] (by decide)
  have hafter : Run Step loggedOnce [.crash [2]] (loggedOnce.init _) :=
    .cons ⟨rfl, by rw [init_eq rfl]; exact hsecond⟩ (.nil _)
  obtain ⟨head, -, hhead, -, hread⟩ := logged_stays false run_loggedOnce hafter 0 (1, [1]) rfl
  exact ⟨_, hafter, head, hhead, hread⟩

end RequestLogInvariant

end AdDelivery.NodeManager
