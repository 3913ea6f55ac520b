import AdDelivery.Core.Run
import AdDelivery.NodeManager.RecoveryChecker
import Mathlib.Data.List.TakeWhile

/-!
# Rollback and the history of a node

A rollback restores a backup and does the requests after it again, up to the id that failed. The
result is the log below that id as long as the backup is a prefix of the log. A backup that was
left from before an earlier rollback is not, once the log has reached its id with other requests.
-/

namespace AdDelivery.NodeManager

open List LogEntry

section Search

variable {log : List LogEntry} {incId : ℕ}

/-- What the search knows: the entries before `start` are below the id, those behind `stop` are
not, and the place that was found last stands right behind `stop`. -/
structure SearchInv (log : List LogEntry) (incId start stop : ℕ) (headoffset : Option ℕ) :
    Prop where
  below : ∀ i entry, i < start → log[i]? = some entry → entry.incId < incId
  above : ∀ i entry, stop < i → log[i]? = some entry → incId ≤ entry.incId
  start_le : start ≤ stop + 1
  found : headoffset = some (stop + 1) ∨ headoffset = none ∧ stop + 1 = log.length

/-- The entries from an offset on are those that are not below the id. -/
def IsHeadOffset (log : List LogEntry) (incId offset : ℕ) : Prop :=
  (∀ i entry, i < offset → log[i]? = some entry → entry.incId < incId) ∧
    ∀ i entry, offset ≤ i → log[i]? = some entry → incId ≤ entry.incId

theorem ascending_getElem {i j : ℕ} {entry entry' : LogEntry}
    (h : Ascending LogEntry.incId log) (hij : i < j) (hi : log[i]? = some entry)
    (hj : log[j]? = some entry') : entry.incId < entry'.incId := by
  obtain ⟨hil, rfl⟩ := List.getElem?_eq_some_iff.mp hi
  obtain ⟨hjl, rfl⟩ := List.getElem?_eq_some_iff.mp hj
  exact pairwise_iff_getElem.mp h i j hil hjl hij

variable {headoffset : Option ℕ}

/-- When the range is empty, the place that was found last is the right one. -/
theorem SearchInv.done {start stop : ℕ} (h : SearchInv log incId start stop headoffset)
    (hlast : ∃ entry ∈ log, incId ≤ entry.incId) (hempty : stop < start) :
    ∃ offset, headoffset = some offset ∧ IsHeadOffset log incId offset := by
  obtain rfl : start = stop + 1 := by
    have := h.start_le
    omega
  rcases h.found with hfound | ⟨-, hlength⟩
  · exact ⟨stop + 1, hfound, h.below, fun i entry hi => h.above i entry (by omega)⟩
  · obtain ⟨entry, hmem, hle⟩ := hlast
    obtain ⟨i, hi⟩ := mem_iff_getElem?.mp hmem
    have hlt : i < log.length := (List.getElem?_eq_some_iff.mp hi).1
    have hbelow := h.below i entry (by omega) hi
    omega

theorem searchHead_eq (h : Ascending LogEntry.incId log)
    (hlast : ∃ entry ∈ log, incId ≤ entry.incId) {rounds start stop : ℕ}
    (hinv : SearchInv log incId start stop headoffset) (hstop : stop < log.length)
    (hrounds : stop + 1 - start ≤ rounds) :
    ∃ offset, searchHead log incId rounds start stop headoffset = some offset ∧
      IsHeadOffset log incId offset := by
  induction rounds generalizing start stop headoffset with
  | zero => exact hinv.done hlast (by omega)
  | succ rounds ih =>
    rw [searchHead]
    split
    · exact hinv.done hlast ‹_›
    rename_i hrange
    have hmid : (stop - start) / 2 + start ≤ stop := by omega
    have hstart : start ≤ (stop - start) / 2 + start := Nat.le_add_left _ _
    simp only
    generalize (stop - start) / 2 + start = mid at hmid hstart ⊢
    have hcur := getElem?_eq_getElem (hmid.trans_lt hstop)
    rw [hcur]
    simp only
    split
    · -- the entry is behind the id, and so are the entries behind it
      rename_i hbehind
      have habove : ∀ i entry, mid ≤ i → log[i]? = some entry → incId ≤ entry.incId := by
        intro i entry hi hentry
        rcases hi.eq_or_lt with rfl | hi
        · rw [hcur] at hentry
          rw [← Option.some.inj hentry]
          exact hbehind.le
        · exact hbehind.le.trans (ascending_getElem h hi hcur hentry).le
      split
      · rename_i hzero
        subst hzero
        exact ⟨0, rfl, fun i _ hi => absurd hi (Nat.not_lt_zero i), habove⟩
      · rename_i hpos
        refine ih ⟨hinv.below, fun i entry hi => habove i entry (by omega), by omega, .inl ?_⟩
          (by omega) (by omega)
        rw [Nat.sub_add_cancel (Nat.pos_of_ne_zero hpos)]
    have hbefore {i : ℕ} {entry : LogEntry} (hi : i < mid) (hentry : log[i]? = some entry) :
        entry.incId < log[mid].incId :=
      ascending_getElem h hi hentry hcur
    split
    · rename_i hbelow
      refine ih ⟨fun i entry hi hentry => ?_, hinv.above, by omega, hinv.found⟩ hstop (by omega)
      rcases Nat.lt_succ_iff_lt_or_eq.mp hi with hi | rfl
      · exact (hbefore hi hentry).trans hbelow
      · rw [hcur] at hentry
        rw [← Option.some.inj hentry]
        exact hbelow
    · obtain hsame : incId = log[mid].incId := by omega
      refine ⟨mid, rfl, fun i entry hi hentry => hsame ▸ hbefore hi hentry, ?_⟩
      intro i entry hi hentry
      rcases hi.eq_or_lt with rfl | hi
      · rw [hcur] at hentry
        rw [← Option.some.inj hentry]
        exact hsame.le
      · exact hsame.le.trans (ascending_getElem h hi hcur hentry).le

theorem IsHeadOffset.drop_eq {offset : ℕ} (h : IsHeadOffset log incId offset) :
    log.drop offset = log.dropWhile (·.incId < incId) := by
  refine Ascending.drop_eq_dropWhile (fun entry hentry => ?_) fun entry hentry => ?_
  · obtain ⟨i, hi⟩ := mem_iff_getElem?.mp hentry
    rw [getElem?_take] at hi
    split at hi
    · exact h.1 i entry ‹_› hi
    · cases hi
  · obtain ⟨i, hi⟩ := mem_iff_getElem?.mp hentry
    rw [getElem?_drop] at hi
    exact h.2 _ entry (Nat.le_add_right _ _) hi

/-- The head that is found is the first one that is not below the id. -/
theorem getHeadOffset_cases (h : Ascending LogEntry.incId log) (incId : ℕ) :
    (getHeadOffset log incId = none ∧ log.dropWhile (·.incId < incId) = []) ∨
      ∃ offset, getHeadOffset log incId = some offset ∧
        log.drop offset = log.dropWhile (·.incId < incId) := by
  rw [getHeadOffset]
  split
  · rename_i hnone
    refine .inl ⟨rfl, ?_⟩
    refine dropWhile_eq_nil_iff.mpr fun entry hentry => ?_
    rcases hnone with rfl | hlast
    · cases hentry
    · exact decide_eq_true ((h.le_lastKey hentry).trans_lt hlast)
  · rename_i hsome
    obtain ⟨hne, hlast⟩ := not_or.mp hsome
    have hlength := length_pos_of_ne_nil hne
    have hentry : ∃ entry ∈ log, incId ≤ entry.incId := by
      refine ⟨log.getLast hne, getLast_mem hne, ?_⟩
      have hkey : getLastSuccessReqId log = (log.getLast hne).incId := by
        rw [getLastSuccessReqId, lastKey, getLast?_eq_some_getLast hne]
        rfl
      omega
    have hinv : SearchInv log incId 0 (log.length - 1) none := by
      refine ⟨fun i _ hi => absurd hi (Nat.not_lt_zero i), fun i entry hi hentry => ?_,
        Nat.zero_le _, .inr ⟨rfl, by omega⟩⟩
      have := (List.getElem?_eq_some_iff.mp hentry).1
      omega
    obtain ⟨offset, hoffset, hhead⟩ := searchHead_eq h hentry hinv (by omega)
      (show log.length - 1 + 1 - 0 ≤ log.length by omega)
    exact .inr ⟨offset, hoffset, hhead.drop_eq⟩

end Search

namespace RecoveryChecker

variable {checker : RecoveryChecker}

theorem findBackup_subset (lessThan : ℕ) (dirs : List BackupDir) :
    (findBackup lessThan dirs).2 ⊆ dirs := by
  induction dirs with
  | nil => exact Subset.refl []
  | cons dir dirs ih =>
    rw [findBackup]
    split_ifs
    · exact Subset.refl _
    · exact cons_subset_cons dir ih
    · exact subset_cons_of_subset dir ih

variable {dir : BackupDir} {dirs : List BackupDir}

/-- What is found is a finished copy below the id. -/
theorem findBackup_eq_some {lessThan : ℕ} (h : (findBackup lessThan dirs).1 = some dir) :
    dir ∈ dirs ∧ dir.isDirCopyOK ∧ (lessThan = 0 ∨ dir.incId < lessThan) := by
  induction dirs with
  | nil => exact absurd h (by simp [findBackup])
  | cons dir' dirs ih =>
    rw [findBackup] at h
    split_ifs at h with hok hless
    · rw [← Option.some.inj h]
      exact ⟨mem_cons_self, hok, hless⟩
    · exact (ih h).imp_left (mem_cons_of_mem dir')
    · exact (ih h).imp_left (mem_cons_of_mem dir')

theorem findBackup_eq_none {lessThan : ℕ} (h : (findBackup lessThan dirs).1 = none) :
    ∀ dir ∈ dirs, dir.isDirCopyOK → ¬ (lessThan = 0 ∨ dir.incId < lessThan) := by
  induction dirs with
  | nil => exact nofun
  | cons dir' dirs ih =>
    rw [findBackup] at h
    split_ifs at h with hok hless
    · rintro dir (_ | ⟨_, hdir⟩) hdirok
      · exact hless
      · exact ih h dir hdir hdirok
    · rintro dir (_ | ⟨_, hdir⟩) hdirok
      · exact absurd hdirok hok
      · exact ih h dir hdir hdirok

theorem mem_getBackupList : dir ∈ checker.getBackupList ↔ dir ∈ checker.backups :=
  mem_insertionSort _

theorem keepBackups_subset (keeped : ℕ) (dirs : List BackupDir) :
    keepBackups keeped dirs ⊆ dirs := by
  induction dirs generalizing keeped with
  | nil => exact Subset.refl []
  | cons dir dirs ih =>
    rw [keepBackups]
    split_ifs
    · exact cons_subset_cons dir (ih keeped)
    · exact subset_cons_of_subset dir (ih keeped)
    · exact cons_subset_cons dir (ih (keeped + 1))
    · exact subset_cons_of_subset dir (ih keeped)

/-- A backup adds the directory of its copy, or nothing. -/
theorem mem_backup {copied : CopyEnd} (h : dir ∈ (checker.backup copied).2.backups) :
    dir ∈ checker.backups ∨ dir = checker.copyDir copied := by
  have hnew {dir new : BackupDir} {p : BackupDir → Bool}
      (hdir : dir ∈ new :: checker.backups.filter p) : dir ∈ checker.backups ∨ dir = new :=
    (mem_cons.mp hdir).symm.imp_left mem_of_mem_filter
  simp only [backup] at h
  split_ifs at h
  · exact .inl h
  · exact hnew (mem_getBackupList.mp (keepBackups_subset 0 _ h))
  · exact hnew h

/-- A finished copy has the present state. -/
theorem copyDir_of_isDirCopyOK {copied : CopyEnd}
    (hok : (checker.copyDir copied).isDirCopyOK = true) : checker.copyDir copied =
      { incId := getLastSuccessReqId checker.log
        isDirCopyOK := true
        data := checker.data
        log := checker.log } := by
  cases copied with
  | whole => rfl
  | broken data log => cases hok

theorem backup_frame (copied : CopyEnd) : (checker.backup copied).2.data = checker.data ∧
    (checker.backup copied).2.log = checker.log := by
  simp only [backup]
  split_ifs <;> exact ⟨rfl, rfl⟩

/-- The entries of the redo log up to the end id are applied and logged. -/
theorem redoEntries_eq {endId : ℕ} {redolog : List LogEntry} (h : Ascending incId redolog)
    (hlast : ∀ entry ∈ redolog, getLastSuccessReqId checker.log < entry.incId) :
    redoEntries endId redolog checker = some { checker with
        data := checker.data ++ below incId endId redolog
        log := checker.log ++ below incId endId redolog } := by
  induction redolog generalizing checker with
  | nil => simp [redoEntries, below]
  | cons entry redolog ih =>
    obtain ⟨hentry, hredolog⟩ := pairwise_cons.mp h
    rw [redoEntries]
    split
    · rename_i hend
      have hnil : below incId endId (entry :: redolog) = [] := by
        refine below_eq_nil fun entry' hentry' => ?_
        rcases mem_cons.mp hentry' with rfl | hentry'
        · exact hend
        · exact hend.trans (hentry entry' hentry').le
      rw [hnil, append_nil, append_nil]
    · rename_i hend
      have hcons : below incId endId (entry :: redolog) =
          entry :: below incId endId redolog :=
        filter_cons_of_pos (decide_eq_true (not_le.mp hend))
      rw [handleReqFromLog, if_pos (hlast entry mem_cons_self), Option.bind_some,
        ih hredolog fun entry' hentry' => ?_, hcons]
      · simp
      · simp only [getLastSuccessReqId, lastKey_concat]
        exact hentry entry' hentry'

/-- What a rollback starts from. -/
def base (checker : RecoveryChecker) (found : Option BackupDir) : BackupDir :=
  found.getD { incId := 0, isDirCopyOK := true, data := checker.data, log := [] }

/-- The requests that are done again after the base. -/
def redone (log : List LogEntry) (baseId rollbackId : ℕ) : List LogEntry :=
  below incId rollbackId (log.dropWhile (·.incId < baseId + 1))

theorem base_incId_lt {rollbackId : ℕ} (hid : 0 < rollbackId) :
    (checker.base (checker.getLastBackup rollbackId).1).incId < rollbackId := by
  cases hfound : (checker.getLastBackup rollbackId).1 with
  | none => exact hid
  | some dir => exact (findBackup_eq_some hfound).2.2.resolve_left hid.ne'

theorem restore_eq (found : Option BackupDir) (backups : List BackupDir) :
    { checker with backups }.restore found =
      { data := (checker.base found).data, log := (checker.base found).log, backups,
        rollbackFlag := none } := by
  cases found <;> rfl

/-- Where the base is the whole log, nothing is done again. -/
theorem redone_eq_nil {log : List LogEntry} (h : Ascending incId log) (rollbackId : ℕ) :
    redone log (getLastSuccessReqId log) rollbackId = [] := by
  have hnil : log.dropWhile (·.incId < getLastSuccessReqId log + 1) = [] :=
    dropWhile_eq_nil_iff.mpr fun entry hentry =>
      decide_eq_true (Nat.lt_succ_of_le (h.le_lastKey hentry))
  rw [redone, hnil]
  rfl

theorem redoLog_eq {log : List LogEntry} {startId endId : ℕ}
    (h : Ascending incId log) (hstart : startId ≤ getLastSuccessReqId log)
    (hlast : getLastSuccessReqId checker.log + 1 = startId) :
    checker.redoLog log startId endId = some { checker with
        data := checker.data ++ below incId endId (log.dropWhile (·.incId < startId))
        log := checker.log ++ below incId endId (log.dropWhile (·.incId < startId)) } := by
  rw [redoLog, if_neg (not_lt.mpr hstart)]
  rcases getHeadOffset_cases h startId with ⟨-, hnil⟩ | ⟨offset, hoffset, hdrop⟩
  · have hlt : getLastSuccessReqId log < startId := by
      refine lastKey_lt (by omega) fun entry hentry => ?_
      exact of_decide_eq_true (dropWhile_eq_nil_iff.mp hnil entry hentry)
    exact absurd hstart (not_le.mpr hlt)
  · rw [hoffset]
    simp only
    rw [hdrop]
    refine redoEntries_eq (h.sublist (dropWhile_sublist _)) fun entry hentry => ?_
    have := h.le_of_mem_dropWhile hentry
    omega

/-- A rollback is its base followed by the requests that are done again. -/
theorem rollbackLastFail_eq {rollbackId : ℕ} {found : Option BackupDir}
    (h : Ascending incId checker.log) (hflag : checker.rollbackFlag = some rollbackId)
    (hid : 0 < rollbackId) (hle : rollbackId ≤ getLastSuccessReqId checker.log + 1)
    (hfound : (checker.getLastBackup rollbackId).1 = found)
    (hbase : getLastSuccessReqId (checker.base found).log = (checker.base found).incId) :
    checker.rollbackLastFail = some
      { data := (checker.base found).data ++
          redone checker.log (checker.base found).incId rollbackId
        log := (checker.base found).log ++
          redone checker.log (checker.base found).incId rollbackId
        backups := (checker.getLastBackup rollbackId).2.backups
        rollbackFlag := none } := by
  have hlt : (checker.base found).incId < rollbackId := hfound ▸ base_incId_lt hid
  have hbaseId : (found.map BackupDir.incId).getD 0 = (checker.base found).incId := by
    cases found <;> rfl
  rw [rollbackLastFail, hflag]
  simp only [hfound, hbaseId]
  rw [if_neg (by omega)]
  split
  · rename_i hsame
    rw [getLastBackup, restore_eq, hsame, redone_eq_nil h, append_nil, append_nil]
  · rw [if_neg (by omega), getLastBackup, restore_eq, redoLog_eq h (by omega) (by simp only; omega)]
    rfl

end RecoveryChecker

end AdDelivery.NodeManager
