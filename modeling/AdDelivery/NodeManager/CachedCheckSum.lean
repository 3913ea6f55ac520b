import AdDelivery.Core.Run
import AdDelivery.Core.Table
import AdDelivery.NodeManager.FileCheckSum

/-!
# The cache of checksums

A replica reports the checksums of its files. A checksum is taken from the cache if the file has
the size and the time of the entry, whatever level the entry was computed at.
-/

namespace AdDelivery.NodeManager

open List Function Option

abbrev FilePath := List Char

structure StoredFile where
  content : List UInt8
  lastWriteTime : ℤ

structure FileCheckData where
  fileSize : ℕ
  lastModify : ℤ
  checkSum : List Char

/-- The files of a replica and the checksums it has cached. -/
structure FileSyncMgr where
  disk : FilePath → Option StoredFile
  cachedChecksum : Table FilePath FileCheckData := ∅

open StoredFile

namespace FileSyncMgr

variable (crc : CrcType) (mgr : FileSyncMgr)

/-- The buffer of a status report. -/
def bufsize : ℕ := 1024 * 1024 * 32

variable (filepath : FilePath)

/-- The checksum of the file as it is now. -/
def plainCheckSum (checkLevel : UInt32) : List Char :=
  getFileCheckSum crc ((mgr.disk filepath).map content) bufsize checkLevel

def getCachedCheckSum : Option (List Char) :=
  match mgr.cachedChecksum.lookup filepath, mgr.disk filepath with
  | some checkdata, some file =>
    if file.lastWriteTime = checkdata.lastModify ∧ file.content.length = checkdata.fileSize then
      some checkdata.checkSum
    else none
  | _, _ => none

def updateCachedCheckSum (checksum : List Char) : FileSyncMgr :=
  match mgr.disk filepath with
  | none => mgr
  | some file =>
    if filepath = [] ∨ checksum = [] then mgr
    else
      { mgr with
        cachedChecksum := Finmap.insert filepath
          { fileSize := file.content.length, lastModify := file.lastWriteTime
            checkSum := checksum } mgr.cachedChecksum }

/-- One file of a report. -/
def reportFile (fileCheckLevel : UInt32) (filepath : FilePath) : List Char × FileSyncMgr :=
  match mgr.getCachedCheckSum filepath with
  | some checksum => (checksum, mgr)
  | none =>
    let checksum := mgr.plainCheckSum crc filepath fileCheckLevel
    (checksum, mgr.updateCachedCheckSum filepath checksum)

def doReportStatus (fileCheckLevel : UInt32) :
    List FilePath → FileSyncMgr → List (List Char) × FileSyncMgr
  | [], mgr => ([], mgr)
  | filepath :: checkFileList, mgr =>
    let (checksum, mgr) := mgr.reportFile crc fileCheckLevel filepath
    let (checkFileResult, mgr) := doReportStatus fileCheckLevel checkFileList mgr
    (checksum :: checkFileResult, mgr)

end FileSyncMgr

open FileSyncMgr

/-- What happens to a replica: it is asked for a report, or a file is written, made or removed. -/
inductive FileSyncEvent
  | reportStatus (checkFileList : List FilePath) (fileCheckLevel : UInt32)
  | changeFile (filepath : FilePath) (file : Option StoredFile)

/-- The size and the time of a file. -/
def StoredFile.stamp (file : StoredFile) : ℕ × ℤ := (file.content.length, file.lastWriteTime)

/-- A replica with the history of its checks: the file and the level that the checksum of a path
was computed from last. -/
structure CheckedReplica where
  mgr : FileSyncMgr
  checked : FilePath → Option (StoredFile × UInt32) := fun _ => none

namespace CheckedReplica

variable (crc : CrcType)

/-- A file is checked anew unless it has the stamp of its last check. -/
def check (disk : FilePath → Option StoredFile) (fileCheckLevel : UInt32)
    (checked : FilePath → Option (StoredFile × UInt32)) (filepath : FilePath) :
    FilePath → Option (StoredFile × UInt32) :=
  match disk filepath with
  | none => checked
  | some file =>
    if filepath = [] ∨ ∃ last ∈ checked filepath, last.1.stamp = file.stamp then checked
    else update checked filepath (some (file, fileCheckLevel))

variable (replica : CheckedReplica)

def next : FileSyncEvent → CheckedReplica
  | .reportStatus checkFileList fileCheckLevel =>
    { mgr := (FileSyncMgr.doReportStatus crc fileCheckLevel checkFileList replica.mgr).2
      checked := checkFileList.foldl (check replica.mgr.disk fileCheckLevel) replica.checked }
  | .changeFile filepath file =>
    { replica with
      mgr := { replica.mgr with disk := update replica.mgr.disk filepath file } }

/-- A change alters the size or the time of the file. -/
def Alters : FileSyncEvent → Prop
  | .reportStatus _ _ => True
  | .changeFile filepath file =>
    file.map stamp ≠ (replica.mgr.disk filepath).map stamp

def Step (event : FileSyncEvent) (replica' : CheckedReplica) : Prop :=
  replica.Alters event ∧ replica' = replica.next crc event

/-- Every checksum of the report is that of the file now, at the level of the request. -/
def ReportsPlain : FileSyncEvent → Prop
  | .reportStatus checkFileList fileCheckLevel =>
    (FileSyncMgr.doReportStatus crc fileCheckLevel checkFileList replica.mgr).1 =
      checkFileList.map (replica.mgr.plainCheckSum crc · fileCheckLevel)
  | .changeFile _ _ => True

/-- A file with the stamp of its last check has the checksum that it had then. -/
def SameAsChecked (disk : FilePath → Option StoredFile)
    (checked : FilePath → Option (StoredFile × UInt32)) (fileCheckLevel : UInt32)
    (filepath : FilePath) : Prop :=
  ∀ file ∈ disk filepath, ∀ last ∈ checked filepath, last.1.stamp = file.stamp →
    getFileCheckSum crc (some last.1.content) bufsize last.2 =
      getFileCheckSum crc (some file.content) bufsize fileCheckLevel

def ReportsAsChecked : FileSyncEvent → Prop
  | .reportStatus checkFileList fileCheckLevel =>
    ∀ filepath ∈ checkFileList,
      SameAsChecked crc replica.mgr.disk replica.checked fileCheckLevel filepath
  | .changeFile _ _ => True

/-- The entry of a check. -/
def checkDataOf (last : StoredFile × UInt32) : FileCheckData where
  fileSize := last.1.content.length
  lastModify := last.1.lastWriteTime
  checkSum := getFileCheckSum crc (some last.1.content) bufsize last.2

/-- The cache holds the checksums of the last checks. -/
def Caches (mgr : FileSyncMgr) (checked : FilePath → Option (StoredFile × UInt32)) : Prop :=
  ∀ filepath, mgr.cachedChecksum.lookup filepath = (checked filepath).map (checkDataOf crc)

theorem getFileCheckSum_ne_nil (file : Option (List UInt8)) (tmpBufsize : ℕ)
    (checkLevel : UInt32) : getFileCheckSum crc file tmpBufsize checkLevel ≠ [] := by
  cases file <;> simp [getFileCheckSum]

section File

variable {crc} {mgr : FileSyncMgr} {checked : FilePath → Option (StoredFile × UInt32)}
  {filepath : FilePath} {fileCheckLevel : UInt32}

/-- A cached checksum is that of the last check, if the file has its stamp. -/
theorem Caches.getCachedCheckSum_eq (h : Caches crc mgr checked) {file : StoredFile}
    (hfile : mgr.disk filepath = some file) : mgr.getCachedCheckSum filepath =
      ((checked filepath).filter (·.1.stamp = file.stamp)).map
        fun last => (checkDataOf crc last).checkSum := by
  rw [getCachedCheckSum, h filepath, hfile]
  cases checked filepath with
  | none => rfl
  | some last =>
    have hstamp : (file.lastWriteTime = last.1.lastWriteTime ∧
        file.content.length = last.1.content.length) ↔ last.1.stamp = file.stamp := by
      rw [Prod.mk.injEq]
      tauto
    simp only [map_some, checkDataOf, hstamp, filter_some]
    split <;> simp_all

theorem reportFile_of_none (hfile : mgr.disk filepath = none) :
    mgr.reportFile crc fileCheckLevel filepath =
      (mgr.plainCheckSum crc filepath fileCheckLevel, mgr) := by
  have hcached : mgr.getCachedCheckSum filepath = none := by
    rw [getCachedCheckSum, hfile]
    split
    · contradiction
    · rfl
  rw [reportFile, hcached]
  simp only [FileSyncMgr.updateCachedCheckSum, hfile]

/-- A file with the stamp of its last check is not read. -/
theorem Caches.reportFile_of_stamp (h : Caches crc mgr checked) {file : StoredFile}
    (hfile : mgr.disk filepath = some file) {last : StoredFile × UInt32}
    (hlast : checked filepath = some last) (hstamp : last.1.stamp = file.stamp) :
    mgr.reportFile crc fileCheckLevel filepath = ((checkDataOf crc last).checkSum, mgr) := by
  have hcached := h.getCachedCheckSum_eq hfile
  rw [hlast, filter_some, if_pos (by simpa using hstamp)] at hcached
  rw [reportFile, hcached]
  rfl

theorem Caches.reportFile_of_new (h : Caches crc mgr checked) {file : StoredFile}
    (hfile : mgr.disk filepath = some file)
    (hnew : ¬∃ last ∈ checked filepath, last.1.stamp = file.stamp) :
    mgr.reportFile crc fileCheckLevel filepath = (mgr.plainCheckSum crc filepath fileCheckLevel,
        mgr.updateCachedCheckSum filepath (mgr.plainCheckSum crc filepath fileCheckLevel)) := by
  have hcached := h.getCachedCheckSum_eq hfile
  have hnone : (checked filepath).filter (·.1.stamp = file.stamp) = none := by
    simpa using hnew
  rw [hnone] at hcached
  rw [reportFile, hcached]
  rfl

theorem Caches.updateCachedCheckSum (h : Caches crc mgr checked) {file : StoredFile}
    (hfile : mgr.disk filepath = some file) (hpath : filepath ≠ []) : Caches crc
      (mgr.updateCachedCheckSum filepath (mgr.plainCheckSum crc filepath fileCheckLevel))
      (update checked filepath (some (file, fileCheckLevel))) := by
  have hchecksum : mgr.plainCheckSum crc filepath fileCheckLevel ≠ [] :=
    getFileCheckSum_ne_nil crc _ _ _
  intro other
  simp only [FileSyncMgr.updateCachedCheckSum, hfile]
  rw [if_neg (by simp [hpath, hchecksum])]
  rw [Table.lookup_insert_eq]
  by_cases hother : other = filepath
  · subst hother
    simp [checkDataOf, plainCheckSum, hfile]
  · rw [if_neg hother, update_of_ne hother]
    exact h other

/-- What one file does: it is reported right if it is as it was last checked, and the cache stays
with the history. -/
theorem Caches.reportFile (h : Caches crc mgr checked) (fileCheckLevel : UInt32)
    (filepath : FilePath) : ((mgr.reportFile crc fileCheckLevel filepath).1 =
        mgr.plainCheckSum crc filepath fileCheckLevel ↔
      SameAsChecked crc mgr.disk checked fileCheckLevel filepath) ∧
    (mgr.reportFile crc fileCheckLevel filepath).2.disk = mgr.disk ∧
    Caches crc (mgr.reportFile crc fileCheckLevel filepath).2
      (check mgr.disk fileCheckLevel checked filepath) := by
  rw [SameAsChecked, check]
  cases hfile : mgr.disk filepath with
  | none =>
    rw [reportFile_of_none hfile]
    exact ⟨by simp, rfl, h⟩
  | some file =>
    have hplain : mgr.plainCheckSum crc filepath fileCheckLevel =
        getFileCheckSum crc (some file.content) bufsize fileCheckLevel := by
      rw [plainCheckSum, hfile, map_some]
    by_cases hstamp : ∃ last ∈ checked filepath, last.1.stamp = file.stamp
    · obtain ⟨last, hlast, hsame⟩ := id hstamp
      rw [h.reportFile_of_stamp hfile hlast hsame, hplain]
      dsimp only
      rw [if_pos (.inr hstamp)]
      refine ⟨⟨fun heq => ?_, fun hall => ?_⟩, rfl, h⟩
      · rintro other hother last' hlast' -
        obtain rfl := some.inj hother
        obtain rfl := some.inj (hlast.symm.trans hlast')
        exact heq
      · exact hall file rfl last hlast hsame
    · rw [h.reportFile_of_new hfile hstamp]
      refine ⟨?_, ?_, ?_⟩
      · simp only [true_iff]
        intro other hother last hlast hsame
        obtain rfl := some.inj hother
        exact absurd ⟨last, hlast, hsame⟩ hstamp
      · simp only [FileSyncMgr.updateCachedCheckSum, hfile]
        split <;> rfl
      · dsimp only
        by_cases hpath : filepath = []
        · simp only [FileSyncMgr.updateCachedCheckSum, hfile, if_pos (Or.inl hpath)]
          exact h
        · rw [if_neg (not_or.mpr ⟨hpath, hstamp⟩)]
          exact h.updateCachedCheckSum hfile hpath

end File

/-- The checks of a report do not change what the others are told, if each is right. -/
theorem sameAsChecked_check {disk : FilePath → Option StoredFile}
    {checked : FilePath → Option (StoredFile × UInt32)} {fileCheckLevel : UInt32}
    {filepath other : FilePath} (h : SameAsChecked crc disk checked fileCheckLevel filepath) :
    SameAsChecked crc disk (check disk fileCheckLevel checked filepath) fileCheckLevel other ↔
      SameAsChecked crc disk checked fileCheckLevel other := by
  rw [check]
  cases hfile : disk filepath with
  | none => rfl
  | some file =>
    dsimp only
    split
    · rfl
    · by_cases hother : other = filepath
      · subst hother
        refine ⟨fun _ => h, fun _ => ?_⟩
        rw [SameAsChecked, update_self, hfile]
        rintro file' hfile' last hlast -
        obtain rfl := some.inj hfile'
        obtain rfl := some.inj hlast
        rfl
      · rw [SameAsChecked, SameAsChecked, update_of_ne hother]

/-- What a report does, by induction over its files. -/
theorem Caches.doReportStatus {mgr : FileSyncMgr}
    {checked : FilePath → Option (StoredFile × UInt32)} (h : Caches crc mgr checked)
    (fileCheckLevel : UInt32) (checkFileList : List FilePath) :
    ((FileSyncMgr.doReportStatus crc fileCheckLevel checkFileList mgr).1 =
        checkFileList.map (mgr.plainCheckSum crc · fileCheckLevel) ↔ ∀ filepath ∈ checkFileList,
        SameAsChecked crc mgr.disk checked fileCheckLevel filepath) ∧
    (FileSyncMgr.doReportStatus crc fileCheckLevel checkFileList mgr).2.disk = mgr.disk ∧
    Caches crc (FileSyncMgr.doReportStatus crc fileCheckLevel checkFileList mgr).2
      (checkFileList.foldl (check mgr.disk fileCheckLevel) checked) := by
  induction checkFileList generalizing mgr checked with
  | nil => exact ⟨by simp [FileSyncMgr.doReportStatus], rfl, h⟩
  | cons filepath checkFileList ih =>
    obtain ⟨hright, hdisk, hcaches⟩ := h.reportFile fileCheckLevel filepath
    obtain ⟨hrest, hdisk', hcaches'⟩ := ih hcaches
    have hplain : (mgr.reportFile crc fileCheckLevel filepath).2.plainCheckSum crc =
        mgr.plainCheckSum crc := by
      funext path level
      rw [plainCheckSum, hdisk, plainCheckSum]
    rw [hdisk] at hdisk' hcaches'
    rw [hdisk, hplain] at hrest
    refine ⟨?_, hdisk', hcaches'⟩
    simp only [FileSyncMgr.doReportStatus, map_cons, cons.injEq, forall_mem_cons]
    rw [hright, hrest]
    apply and_congr_right
    intro hsame
    apply forall₂_congr
    intro other _
    exact sameAsChecked_check crc hsame

variable (disk : FilePath → Option StoredFile)

def start : CheckedReplica where
  mgr := { disk }

theorem caches_start : Caches crc (start disk).mgr (start disk).checked := fun _ => rfl

theorem caches_next {replica replica' : CheckedReplica} {event : FileSyncEvent}
    (h : Caches crc replica.mgr replica.checked) (hstep : Step crc replica event replica') :
    Caches crc replica'.mgr replica'.checked := by
  obtain ⟨-, rfl⟩ := hstep
  cases event with
  | reportStatus checkFileList fileCheckLevel =>
    exact (Caches.doReportStatus crc h fileCheckLevel checkFileList).2.2
  | changeFile filepath file => exact h

theorem reportsPlain_iff {replica : CheckedReplica}
    (h : Caches crc replica.mgr replica.checked) (event : FileSyncEvent) :
    ReportsPlain crc replica event ↔ ReportsAsChecked crc replica event := by
  cases event with
  | reportStatus checkFileList fileCheckLevel =>
    exact (Caches.doReportStatus crc h fileCheckLevel checkFileList).1
  | changeFile filepath file => rfl

/-- Two replicas that are asked at the same level give the same checksum for a file that both have
with the same content. -/
def ReplicasAgree (disk disk' : FilePath → Option StoredFile)
    (events events' : List FileSyncEvent) : Prop :=
  ∀ before before' rest rest' replica replica' checkFileList checkFileList' fileCheckLevel,
    before ++ .reportStatus checkFileList fileCheckLevel :: rest = events →
    before' ++ .reportStatus checkFileList' fileCheckLevel :: rest' = events' →
    Run (Step crc) (start disk) before replica → Run (Step crc) (start disk') before' replica' →
    ∀ (i i' : ℕ) (filepath filepath' : FilePath), checkFileList[i]? = some filepath →
      checkFileList'[i']? = some filepath' →
      (replica.mgr.disk filepath).map content =
        (replica'.mgr.disk filepath').map content →
      (FileSyncMgr.doReportStatus crc fileCheckLevel checkFileList replica.mgr).1[i]? =
        (FileSyncMgr.doReportStatus crc fileCheckLevel checkFileList' replica'.mgr).1[i']?

theorem getElem?_of_reportsPlain {replica : CheckedReplica} {checkFileList : List FilePath}
    {fileCheckLevel : UInt32}
    (h : ReportsPlain crc replica (.reportStatus checkFileList fileCheckLevel)) {i : ℕ}
    {filepath : FilePath} (hi : checkFileList[i]? = some filepath) :
    (FileSyncMgr.doReportStatus crc fileCheckLevel checkFileList replica.mgr).1[i]? =
      some (replica.mgr.plainCheckSum crc filepath fileCheckLevel) := by
  rw [show (FileSyncMgr.doReportStatus crc fileCheckLevel checkFileList replica.mgr).1 = _ from h,
    getElem?_map, hi, map_some]

theorem replicasAgree_of_reportsPlain {disk disk' : FilePath → Option StoredFile}
    {events events' : List FileSyncEvent}
    (h : StepsMeet (Step crc) (ReportsPlain crc) (start disk) events)
    (h' : StepsMeet (Step crc) (ReportsPlain crc) (start disk') events') :
    ReplicasAgree crc disk disk' events events' := by
  intro before before' rest rest' replica replica' checkFileList checkFileList' fileCheckLevel
    hevents hevents' hrun hrun' i i' filepath filepath' hi hi' hcontent
  have hplain := h before _ rest replica _ hevents hrun ⟨trivial, rfl⟩
  have hplain' := h' before' _ rest' replica' _ hevents' hrun' ⟨trivial, rfl⟩
  rw [getElem?_of_reportsPlain crc hplain hi, getElem?_of_reportsPlain crc hplain' hi',
    plainCheckSum, plainCheckSum, hcontent]

/-- A run reports plain checksums if and only if no file is told by the stamp of a check that gave
another checksum. Replicas with such runs agree. -/
theorem reportsPlain_run (events : List FileSyncEvent) :
    (StepsMeet (Step crc) (ReportsPlain crc) (start disk) events ↔
      StepsMeet (Step crc) (ReportsAsChecked crc) (start disk) events) ∧
    ∀ disk' events', StepsMeet (Step crc) (ReportsAsChecked crc) (start disk) events →
      StepsMeet (Step crc) (ReportsAsChecked crc) (start disk') events' →
      ReplicasAgree crc disk disk' events events' := by
  have hiff (disk : FilePath → Option StoredFile) (events : List FileSyncEvent) :
      StepsMeet (Step crc) (ReportsPlain crc) (start disk) events ↔
        StepsMeet (Step crc) (ReportsAsChecked crc) (start disk) events := by
    refine stepsMeet_congr (Q := fun replica => Caches crc replica.mgr replica.checked)
      ?_ ?_ (caches_start crc disk) events
    · intro replica event replica' hcaches hstep
      exact caches_next crc hcaches hstep
    · intro replica event hcaches
      exact reportsPlain_iff crc hcaches event
  refine ⟨hiff disk events, fun disk' events' h h' => ?_⟩
  exact replicasAgree_of_reportsPlain crc ((hiff _ _).mpr h) ((hiff _ _).mpr h')

/-- A file of one byte. -/
def oneByte (filepath : FilePath) : Option StoredFile :=
  if filepath = ['a'] then some { content := [1], lastWriteTime := 0 } else none

theorem checkSum_oneByte : getFileCheckSum crc32Type (some [1]) bufsize 0 ≠
      getFileCheckSum crc32Type (some [1]) bufsize 100 := by
  intro heq
  have hreads : fileReads 1 bufsize 100 = [⟨0, 1⟩] := by
    rw [fileReads, FileReading.readLoop_short (by decide)]
    rfl
  have hcrc : getFileCRC crc32Type (some [1]) bufsize 100 ≠ 0 := by
    decide +kernel
  simp only [getFileCheckSum, append_cancel_left_eq, cons.injEq, true_and] at heq
  have hzero := Decimal.toDigits_injective heq
  exact hcrc (UInt32.toNat_inj.mp hzero.symm)

/-- The same file, once at level zero and once at the level of a recovery. -/
theorem not_reportsPlain_levels :
    ¬StepsMeet (Step crc32Type) (ReportsPlain crc32Type) (start oneByte)
      [.reportStatus [['a']] 0, .reportStatus [['a']] 100] := by
  intro hmeet
  have hplain := hmeet [.reportStatus [['a']] 0] (.reportStatus [['a']] 100) [] _ _ rfl
    (.cons ⟨trivial, rfl⟩ (.nil _)) ⟨trivial, rfl⟩
  have hstep : Step crc32Type (start oneByte) (.reportStatus [['a']] 0)
      (next crc32Type (start oneByte) (.reportStatus [['a']] 0)) := ⟨trivial, rfl⟩
  have hcaches := caches_next crc32Type (caches_start crc32Type oneByte) hstep
  have hsame := (reportsPlain_iff crc32Type hcaches _).mp hplain ['a'] mem_cons_self
  exact checkSum_oneByte (hsame { content := [1], lastWriteTime := 0 } rfl
    ({ content := [1], lastWriteTime := 0 }, 0) rfl rfl)

end CheckedReplica

end AdDelivery.NodeManager
