import AdDelivery.NodeManager.NodeHistory
import AdDelivery.NodeManager.RequestLogLookup

/-!
# The check of the log against the primary

The check compares the logs batch by batch behind a common part. It ends, it agrees exactly with a
log that is a prefix of the primary's, and the flag it sets otherwise stands behind the common
prefix. An empty log of the primary is the exception: the flag is 0 then, and a rollback takes 0
for a corrupt log and goes to the newest backup.
-/

namespace AdDelivery.NodeManager

open List Option RecoveryChecker LogEntry

theorem LogSorted.length_le {log : List LogEntry} (h : LogSorted log) :
    log.length ≤ getLastSuccessReqId log :=
  h.ascending.length_le_lastKey h.pos

/-- The first entries that are not below an id. -/
theorem getReqLogIdList_eq {log : List LogEntry} (h : LogSorted log) (start maxReturn : ℕ) :
    getReqLogIdList log start maxReturn = (log.dropWhile (·.incId < start)).take maxReturn := by
  rw [getReqLogIdList]
  rcases getHeadOffset_cases h.ascending start with ⟨hnone, hnil⟩ | ⟨offset, hoffset, hdrop⟩
  · rw [hnone, hnil, take_nil]
  · rw [hoffset]
    simp only
    rw [hdrop]
    split
    · rename_i hlt
      -- there are no more entries than the last id
      have hlength : (log.dropWhile (·.incId < start)).length ≤ getLastSuccessReqId log :=
        (dropWhile_sublist _).length_le.trans h.length_le
      rw [take_of_length_le hlength, take_of_length_le (hlength.trans hlt.le)]
    · rfl

section Directory

variable {dir : ReqLogDir} {heads : List ReqLogHead}

/-- The entries of a log directory: the ids of its heads and the data that is read for them. -/
def entriesOf (dir : ReqLogDir) (heads : List ReqLogHead) : List LogEntry :=
  heads.map fun head => ⟨head.incId.toNat, dataOf dir head⟩

theorem logSorted_entriesOf (h : Increasing heads) (hpos : ∀ head ∈ heads, head.incId ≠ 0) :
    LogSorted (entriesOf dir heads) := by
  refine ⟨pairwise_map.mpr h, forall_mem_map.mpr fun head hmem => ?_⟩
  exact UInt32.pos_iff_ne_zero.mpr (hpos head hmem)

theorem dropWhile_entriesOf (h : Increasing heads) (start : UInt32) :
    (entriesOf dir heads).dropWhile (·.incId < start.toNat) =
      entriesOf dir (headsFrom heads start) := by
  have hascending : Ascending (fun head : ReqLogHead => head.incId.toNat) heads := h
  rw [entriesOf, dropWhile_map, entriesOf]
  refine congrArg _ (Eq.symm ?_)
  conv_lhs => rw [← hascending.below_append_dropWhile start.toNat]
  exact headsFrom_append (fun head hmem => (mem_below.mp hmem).2)
    fun head hmem => hascending.le_of_mem_dropWhile hmem

/-- Where the data is read, the lookup in the directory is the one in its entries. -/
theorem getReqLogIdList_entriesOf (hlog : dir.headLog = some heads) (h : Increasing heads)
    (hpos : ∀ head ∈ heads, head.incId ≠ 0) {mgr : ReqLogMgr}
    (hlast : mgr.lastWritedId = lastId heads) (start limit : UInt32)
    (hread : ∀ head ∈ (headsFrom heads start).take (limit.toNat + 1), Readable dir head) :
    let entries := getReqLogIdList (entriesOf dir heads) start.toNat limit.toNat
    ∃ ids, mgr.getReqLogIdList dir start limit true = .ok (ids, entries.map reqJsonData) ∧
      ids.map UInt32.toNat = entries.map incId := by
  dsimp only
  rw [getReqLogIdList_eq (logSorted_entriesOf h hpos), dropWhile_entriesOf h, entriesOf,
    ← map_take, getReqLogIdList_take hlog h hpos hlast start limit hread true]
  refine ⟨_, congrArg Except.ok (Prod.ext rfl ?_), ?_⟩
  · rw [List.map_map]
    rfl
  · rw [listOf, List.map_map, List.map_map]
    rfl

end Directory

/-- Two logs share a part, and then one of them ends or they differ. -/
theorem exists_common (localLog primaryLog : List LogEntry) : ∃ common rest rest',
    localLog = common ++ rest ∧ primaryLog = common ++ rest' ∧
      (rest = [] ∨ rest' = [] ∨ ∃ entry tail entry' tail',
        rest = entry :: tail ∧ rest' = entry' :: tail' ∧ entry ≠ entry') := by
  induction localLog generalizing primaryLog with
  | nil => exact ⟨[], [], primaryLog, rfl, rfl, .inl rfl⟩
  | cons entry localLog ih =>
    cases primaryLog with
    | nil => exact ⟨[], entry :: localLog, [], rfl, rfl, .inr (.inl rfl)⟩
    | cons entry' primaryLog =>
      by_cases heq : entry = entry'
      · subst heq
        obtain ⟨common, rest, rest', rfl, rfl, hend⟩ := ih primaryLog
        exact ⟨entry :: common, rest, rest', rfl, rfl, hend⟩
      · exact ⟨[], entry :: localLog, entry' :: primaryLog, rfl, rfl,
          .inr (.inr ⟨entry, localLog, entry', primaryLog, rfl, rfl, heq⟩)⟩

/-- Behind an equal entry, its id is the place. -/
theorem compareLogs_append (checkStart : ℕ) (first : Bool) (common : List LogEntry)
    (last : LogEntry) (rest rest' : List LogEntry) :
    compareLogs checkStart first (common ++ last :: rest) (common ++ last :: rest') =
      compareLogs last.incId false rest rest' := by
  induction common generalizing checkStart first with
  | nil => simp [compareLogs]
  | cons entry common ih =>
    rw [cons_append, cons_append, compareLogs, if_neg (not_not.mpr rfl)]
    exact ih entry.incId false

theorem compareLogs_end {checkStart : ℕ} {rest rest' : List LogEntry}
    (hend : rest = [] ∨ rest' = [] ∨ ∃ entry tail entry' tail',
      rest = entry :: tail ∧ rest' = entry' :: tail' ∧ entry ≠ entry') :
    compareLogs checkStart false rest rest' = checkStart := by
  rcases hend with rfl | rfl | ⟨entry, tail, entry', tail', rfl, rfl, hne⟩
  · rw [compareLogs]
    simp
  · rw [compareLogs]
    simp
  · rw [compareLogs, if_pos hne]
    rfl

/-- Where a round begins: behind a common part, and before the end of the local log. -/
structure RoundInv (localLog primaryLog : List LogEntry) (checkStart : ℕ)
    (common rest rest' : List LogEntry) : Prop where
  sorted : LogSorted localLog
  sorted' : LogSorted primaryLog
  split : localLog = common ++ rest
  split' : primaryLog = common ++ rest'
  below : ∀ entry ∈ common, entry.incId < checkStart
  above : ∀ entry ∈ rest, checkStart ≤ entry.incId
  above' : ∀ entry ∈ rest', checkStart ≤ entry.incId
  ne_nil : rest ≠ []
  start : common = [] → checkStart = 0

/-- The answer of the check: either the local log is a prefix, or the flag cuts off what is not
common, or it is 0 for an empty log of the primary. -/
structure AnswerOk (localLog primaryLog : List LogEntry) (ret : Bool) (rollbackFlag : Option ℕ) :
    Prop where
  ret_iff : ret = true ↔ localLog <+: primaryLog
  flag : ret = false → ∃ rollbackId, rollbackFlag = some rollbackId ∧
    if primaryLog = [] then rollbackId = 0
    else 0 < rollbackId ∧ rollbackId ≤ getLastSuccessReqId localLog ∧
      below incId rollbackId localLog = commonPrefix localLog primaryLog

variable {localLog primaryLog common rest rest' : List LogEntry} {checkStart batch : ℕ}

theorem dropWhile_eq_right {common rest : List LogEntry} {checkStart : ℕ}
    (hbelow : ∀ entry ∈ common, entry.incId < checkStart)
    (habove : ∀ entry ∈ rest, checkStart ≤ entry.incId) :
    (common ++ rest).dropWhile (·.incId < checkStart) = rest := by
  rw [dropWhile_append_of_pos fun entry hentry => decide_eq_true (hbelow entry hentry)]
  cases rest with
  | nil => rfl
  | cons entry rest =>
    have := habove entry mem_cons_self
    rw [dropWhile_cons_of_neg (by simpa using this)]

namespace RoundInv

section

variable (h : RoundInv localLog primaryLog checkStart common rest rest')
include h

/-- The batches that a round compares. -/
theorem batches (batch : ℕ) : getReqLogIdList primaryLog checkStart batch = rest'.take batch ∧
      getReqLogIdList localLog checkStart (rest'.take batch).length =
        rest.take (rest'.take batch).length := by
  rw [getReqLogIdList_eq h.sorted', getReqLogIdList_eq h.sorted, h.split, h.split',
    dropWhile_eq_right h.below h.above, dropWhile_eq_right h.below h.above']
  exact ⟨rfl, rfl⟩

theorem le_last {entry : LogEntry} (hentry : entry ∈ rest) :
    entry.incId ≤ getLastSuccessReqId localLog :=
  h.sorted.ascending.le_lastKey (h.split ▸ mem_append_right common hentry)

theorem start_le_last : checkStart ≤ getLastSuccessReqId localLog := by
  obtain ⟨entry, rest, rfl⟩ := exists_cons_of_ne_nil h.ne_nil
  exact (h.above entry mem_cons_self).trans (h.le_last mem_cons_self)

/-- The local log goes on where the primary's ends or differs, so it is no prefix. -/
theorem not_part (hrest : ¬ rest <+: rest') : ¬ localLog <+: primaryLog := by
  rw [h.split, h.split', prefix_append_right_inj]
  exact hrest

end

/-- The primary has no more entries. -/
theorem answer_of_nil (h : RoundInv localLog primaryLog checkStart common rest []) :
    AnswerOk localLog primaryLog false (some checkStart) := by
  have hprimary : primaryLog = common := by rw [h.split', append_nil]
  refine ⟨iff_of_false Bool.false_ne_true (h.not_part fun hnil => ?_),
    fun _ => ⟨checkStart, rfl, ?_⟩⟩
  · exact h.ne_nil (prefix_nil.mp hnil)
  split
  · rename_i hnil
    exact h.start (hprimary ▸ hnil)
  · rename_i hne
    obtain ⟨entry, hentry⟩ := exists_mem_of_ne_nil primaryLog hne
    refine ⟨Nat.zero_lt_of_lt (h.below entry (hprimary ▸ hentry)), h.start_le_last, ?_⟩
    rw [h.split, hprimary, below_append, below_eq_self h.below, below_eq_nil h.above]
    conv_rhs => rw [← append_nil common, append_assoc, commonPrefix_append_left]
    simp

end RoundInv

variable {entry entry' : LogEntry}

/-- A flag that stands between the common part and an entry that differs. -/
theorem answer_of_ne {rollbackId : ℕ} (h : LogSorted localLog)
    (hsplit : localLog = common ++ entry :: rest)
    (hsplit' : primaryLog = common ++ entry' :: rest') (hne : entry ≠ entry')
    (hbelow : ∀ old ∈ common, old.incId < rollbackId) (hpos : 0 < rollbackId)
    (hle : rollbackId ≤ entry.incId) : AnswerOk localLog primaryLog false (some rollbackId) := by
  have hmem : entry ∈ localLog := hsplit ▸ mem_append_right _ mem_cons_self
  refine ⟨iff_of_false Bool.false_ne_true fun hpart => ?_, fun _ => ⟨rollbackId, rfl, ?_⟩⟩
  · rw [hsplit, hsplit', prefix_append_right_inj, cons_prefix_cons] at hpart
    exact hne hpart.1
  rw [if_neg (by simp [hsplit'])]
  refine ⟨hpos, hle.trans (h.ascending.le_lastKey hmem), ?_⟩
  have habove : ∀ new ∈ entry :: rest, rollbackId ≤ new.incId := by
    have hasc := h.ascending
    rw [hsplit] at hasc
    have hrest := (pairwise_append.mp hasc).2.1
    intro new hnew
    rcases mem_cons.mp hnew with rfl | hnew
    · exact hle
    · exact hle.trans ((pairwise_cons.mp hrest).1 new hnew).le
  rw [hsplit, hsplit', below_append, below_eq_self hbelow, below_eq_nil habove,
    commonPrefix_append_left, commonPrefix_of_ne hne]

/-- The local log ends within the common part. -/
theorem answer_of_part (h : localLog <+: primaryLog) : AnswerOk localLog primaryLog true none :=
  ⟨iff_of_true rfl h, fun hfalse => absurd hfalse Bool.noConfusion⟩

variable {front behind : List LogEntry}

/-- The entries behind one of an ascending log have greater ids. -/
theorem lt_of_mem_behind {entry new : LogEntry} (h : LogSorted localLog)
    (hsplit : localLog = front ++ entry :: behind) (hnew : new ∈ behind) :
    entry.incId < new.incId := by
  have hasc := h.ascending
  rw [hsplit] at hasc
  exact (pairwise_cons.mp (pairwise_append.mp hasc).2.1).1 new hnew

/-- The entries up to one of an ascending log have ids up to its own. -/
theorem lt_succ_of_mem_front {entry old : LogEntry} (h : LogSorted localLog)
    (hsplit : localLog = front ++ entry :: behind) (hold : old ∈ front ++ [entry]) :
    old.incId < entry.incId + 1 := by
  have hasc := h.ascending
  rw [hsplit] at hasc
  rcases mem_append.mp hold with hold | hold
  · have hlt := (pairwise_append.mp hasc).2.2 old hold entry mem_cons_self
    exact hlt.trans (Nat.lt_succ_self _)
  · rw [mem_singleton.mp hold]
    exact Nat.lt_succ_self _

section

variable (h : RoundInv localLog primaryLog checkStart common rest rest')
include h

/-- The first entries of two batches differ: the place that is found is in front of them. -/
theorem compareLogs_first_differs {behind behind' tail tail' : List LogEntry}
    (hrest : rest = entry :: behind ++ tail) (hrest' : rest' = entry' :: behind' ++ tail')
    (hdiffer : entry ≠ entry') : compareLogs checkStart true (entry :: behind) (entry' :: behind') <
        getLastSuccessReqId localLog ∧ (entry :: behind).getLast?.map incId ≠
        some (compareLogs checkStart true (entry :: behind) (entry' :: behind')) ∧
      AnswerOk localLog primaryLog false
        (some (compareLogs checkStart true (entry :: behind) (entry' :: behind') + 1)) := by
  have hsplit : localLog = common ++ entry :: (behind ++ tail) := by simp [h.split, hrest]
  have hsplit' : primaryLog = common ++ entry' :: (behind' ++ tail') := by simp [h.split', hrest']
  have hmem : entry ∈ localLog := hsplit ▸ mem_append_right _ mem_cons_self
  have hpos := h.sorted.pos entry hmem
  have hplace : compareLogs checkStart true (entry :: behind) (entry' :: behind') =
      entry.incId - 1 := by
    rw [compareLogs, if_pos hdiffer]
    rfl
  rw [hplace, Nat.sub_add_cancel hpos]
  refine ⟨?_, ?_, ?_⟩
  · have := h.sorted.ascending.le_lastKey hmem
    rw [getLastSuccessReqId]
    omega
  · intro hlast
    obtain ⟨new, hnew, hnewId⟩ := map_eq_some_iff.mp hlast
    rcases mem_cons.mp (mem_of_getLast? hnew) with rfl | hnew
    · omega
    · have := lt_of_mem_behind h.sorted hsplit (mem_append_left tail hnew)
      omega
  · refine answer_of_ne h.sorted hsplit hsplit' hdiffer (fun old hold => ?_) hpos le_rfl
    have hold := h.below old hold
    have hentry := h.above entry (by simp [hrest])
    omega

/-- The comparison of two batches: all of the local log is equal, or an entry differs behind the
place that is found, or both batches are equal. -/
theorem compareLogs_cases {batch batch' tail tail' : List LogEntry} (hrest : rest = batch ++ tail)
    (hrest' : rest' = batch' ++ tail') (hne : batch ≠ []) (hne' : batch' ≠ [])
    (hle : batch.length ≤ batch'.length) (hfull : tail ≠ [] → batch.length = batch'.length) :
    (getLastSuccessReqId localLog ≤ compareLogs checkStart true batch batch' ∧
        localLog <+: primaryLog) ∨
      (compareLogs checkStart true batch batch' < getLastSuccessReqId localLog ∧
        batch.getLast?.map incId ≠ some (compareLogs checkStart true batch batch') ∧
        AnswerOk localLog primaryLog false (some (compareLogs checkStart true batch batch' + 1))) ∨
      compareLogs checkStart true batch batch' < getLastSuccessReqId localLog ∧
        batch.getLast?.map incId = some (compareLogs checkStart true batch batch') ∧
        RoundInv localLog primaryLog (compareLogs checkStart true batch batch' + 1)
          (common ++ batch) tail tail' := by
  obtain ⟨equal, differ, differ', rfl, rfl, hend⟩ := exists_common batch batch'
  rcases eq_nil_or_concat' equal with rfl | ⟨equal, last, rfl⟩
  · -- the first entries differ
    rcases hend with rfl | rfl | ⟨entry, behind, entry', behind', rfl, rfl, hdiffer⟩
    · exact absurd rfl hne
    · exact absurd rfl hne'
    exact .inr (.inl (compareLogs_first_differs h hrest hrest' hdiffer))
  -- the last equal entry is the place that is found
  have hsplit : localLog = (common ++ equal) ++ last :: (differ ++ tail) := by
    simp [h.split, hrest]
  have hsplit' : primaryLog = (common ++ equal) ++ last :: (differ' ++ tail') := by
    simp [h.split', hrest']
  have hplace :
      compareLogs checkStart true (equal ++ [last] ++ differ) (equal ++ [last] ++ differ') =
          last.incId := by
    rw [append_assoc, append_assoc, singleton_append, singleton_append,
      compareLogs_append, compareLogs_end hend]
  have hbehind {new : LogEntry} (hnew : new ∈ differ ++ tail) : last.incId < new.incId :=
    lt_of_mem_behind h.sorted hsplit hnew
  have hnewest (hnil : differ ++ tail ≠ []) : last.incId < getLastSuccessReqId localLog := by
    obtain ⟨new, hnew⟩ := exists_mem_of_ne_nil _ hnil
    refine (hbehind hnew).trans_le (h.sorted.ascending.le_lastKey ?_)
    rw [hsplit]
    exact mem_append_right _ (mem_cons_of_mem _ hnew)
  rw [hplace]
  by_cases hnil : differ ++ tail = []
  · refine .inl ⟨?_, ?_⟩
    · rw [hsplit, hnil, getLastSuccessReqId, lastKey_concat]
    · rw [hsplit, hsplit', hnil, prefix_append_right_inj, cons_prefix_cons]
      exact ⟨rfl, nil_prefix⟩
  have hlast : ∀ old ∈ common ++ (equal ++ [last]), old.incId < last.incId + 1 := by
    intro old hold
    rw [← append_assoc] at hold
    exact lt_succ_of_mem_front h.sorted hsplit hold
  rcases eq_nil_or_concat' differ with rfl | ⟨front, new, hdiffer⟩
  · -- the local batch is equal, so the batch of the primary is
    have htail : tail ≠ [] := by simpa using hnil
    have hnil' : differ' = [] := by
      have hlength := hfull htail
      simp only [length_append, length_nil] at hlength
      exact length_eq_zero_iff.mp (by omega)
    subst hnil'
    refine .inr (.inr ⟨hnewest hnil, by simp, ?_⟩)
    rw [append_nil]
    refine ⟨h.sorted, h.sorted', by simp [h.split, hrest], by simp [h.split', hrest'], hlast, ?_,
      ?_, htail, fun hempty => absurd hempty (by simp)⟩
    · exact fun new hnew => hbehind (mem_append_right _ hnew)
    · exact fun new hnew => lt_of_mem_behind h.sorted' hsplit' (mem_append_right _ hnew)
  · -- the entry behind the last equal one differs
    rcases hend with rfl | rfl | ⟨entry, behind, entry', behind', rfl, rfl, hdiffer'⟩
    · exact absurd hdiffer (by simp)
    · rw [hdiffer] at hle
      simp at hle
    refine .inr (.inl ⟨hnewest hnil, ?_, ?_⟩)
    · rw [hdiffer, ← append_assoc, getLast?_concat]
      have hnew : new ∈ (entry :: behind) ++ tail := by
        rw [hdiffer]
        simp
      exact fun hsame => (hbehind hnew).ne' (some.inj hsame)
    · have hentry : entry ∈ entry :: behind ++ tail := mem_cons_self
      refine answer_of_ne h.sorted (show localLog = (common ++ (equal ++ [last])) ++
        entry :: (behind ++ tail) by simp [hsplit])
        (show primaryLog = (common ++ (equal ++ [last])) ++ entry' :: (behind' ++ tail') by
          simp [hsplit']) hdiffer' hlast (Nat.succ_pos _) ?_
      exact hbehind hentry

/-- What a round comes to: an answer, waiting for the primary, or a round further on. -/
theorem checkRound_cases (hbatch : 1 ≤ batch) (ready : Bool) :
    (∃ ret flag, checkRound batch localLog primaryLog ready checkStart = .result ret flag ∧
        AnswerOk localLog primaryLog ret flag) ∨ (ready = false ∧
        checkRound batch localLog primaryLog ready checkStart = .next checkStart) ∨
      ∃ checkStart₁ common₁ rest₁ rest₁',
        checkRound batch localLog primaryLog ready checkStart = .next checkStart₁ ∧
          RoundInv localLog primaryLog checkStart₁ common₁ rest₁ rest₁' ∧
          rest₁.length < rest.length := by
  obtain ⟨hprimary, hlocal⟩ := h.batches batch
  simp only [checkRound, hprimary, hlocal]
  rcases eq_nil_or_concat' rest' with rfl | ⟨front', last', hrest'⟩
  · -- the primary has no more entries
    have hcompared : compareLogs checkStart true (rest.take ([] : List LogEntry).length) [] =
        checkStart := by
      rfl
    simp only [take_nil, hcompared]
    rw [if_pos ⟨by simp, h.start_le_last⟩]
    cases ready with
    | true => exact .inl ⟨false, some checkStart, rfl, h.answer_of_nil⟩
    | false => exact .inr (.inl ⟨rfl, rfl⟩)
  have hne' : rest' ≠ [] := by
    rw [hrest']
    simp
  have hsize : 0 < (rest'.take batch).length := by
    have := length_pos_of_ne_nil hne'
    rw [length_take]
    omega
  generalize hbatch' : rest'.take batch = batch' at hsize ⊢
  have hdrop' : batch' ++ rest'.drop batch = rest' := hbatch' ▸ take_append_drop batch rest'
  have hlength : (rest.take batch'.length).length ≤ batch'.length := length_take_le _ _
  have hsize' : 0 < (rest.take batch'.length).length := by
    have := length_pos_of_ne_nil h.ne_nil
    rw [length_take]
    omega
  have hdrop := take_append_drop batch'.length rest
  rw [if_neg (by omega)]
  have hfull : rest.drop batch'.length ≠ [] →
      (rest.take batch'.length).length = batch'.length := by
    intro htail
    have := length_pos_of_ne_nil htail
    rw [length_drop] at this
    rw [length_take]
    omega
  rcases compareLogs_cases h hdrop.symm hdrop'.symm (ne_nil_of_length_pos hsize')
    (ne_nil_of_length_pos hsize) hlength hfull with
    ⟨hnewest, hpart⟩ | ⟨hlt, hlast, hanswer⟩ | ⟨hlt, hlast, hinv⟩
  · rw [if_pos hnewest]
    exact .inl ⟨true, none, rfl, answer_of_part hpart⟩
  · rw [if_neg (by omega), if_pos hlast]
    exact .inl ⟨false, _, rfl, hanswer⟩
  · rw [if_neg (by omega), if_neg (not_not.mpr hlast)]
    refine .inr (.inr ⟨_, _, _, _, rfl, hinv, ?_⟩)
    rw [length_drop]
    rw [length_take] at hsize'
    omega

end

variable {ready : ℕ → Bool}

/-- The check ends: a round that waits is followed by one that does not, and the others get
further. -/
theorem checkRounds_ends (hbatch : 1 ≤ batch)
    (hready : ∀ round, ∃ later, round ≤ later ∧ ready later = true) (round : ℕ)
    (h : RoundInv localLog primaryLog checkStart common rest rest') : ∃ fuel answer,
      checkRounds batch localLog primaryLog ready fuel round checkStart = some answer := by
  induction hsize : rest.length using Nat.strong_induction_on
    generalizing round checkStart common rest rest' with
  | _ size ih =>
    have hnext {round checkStart₁ : ℕ} {common₁ rest₁ rest₁' : List LogEntry}
        (hround : checkRound batch localLog primaryLog (ready round) checkStart = .next checkStart₁)
        (hinv : RoundInv localLog primaryLog checkStart₁ common₁ rest₁ rest₁')
        (hlt : rest₁.length < rest.length) : ∃ fuel answer,
          checkRounds batch localLog primaryLog ready fuel round checkStart = some answer := by
      obtain ⟨fuel, answer, hrounds⟩ := ih _ (hsize ▸ hlt) (round + 1) hinv rfl
      refine ⟨fuel + 1, answer, ?_⟩
      rw [checkRounds, hround]
      exact hrounds
    obtain ⟨later, hlater, hnow⟩ := hready round
    obtain ⟨wait, rfl⟩ := Nat.exists_eq_add_of_le hlater
    clear hlater
    -- wait for the round in which the primary is ready
    induction wait generalizing round with
    | zero =>
      rcases checkRound_cases h hbatch (ready round) with
        ⟨ret, flag, hround, -⟩ | ⟨hwait, -⟩ | ⟨_, _, _, _, hround, hinv, hlt⟩
      · exact ⟨1, (ret, flag), by rw [checkRounds, hround]⟩
      · exact absurd (hwait.symm.trans hnow) Bool.false_ne_true
      · exact hnext hround hinv hlt
    | succ wait ihwait =>
      rcases checkRound_cases h hbatch (ready round) with
        ⟨ret, flag, hround, -⟩ | ⟨-, hround⟩ | ⟨_, _, _, _, hround, hinv, hlt⟩
      · exact ⟨1, (ret, flag), by rw [checkRounds, hround]⟩
      · have hlater : ready (round + 1 + wait) = true := by
          rwa [Nat.add_right_comm]
        obtain ⟨fuel, answer, hrounds⟩ := ihwait (round + 1) hlater
        refine ⟨fuel + 1, answer, ?_⟩
        rw [checkRounds, hround]
        exact hrounds
      · exact hnext hround hinv hlt

/-- Whatever the check answers is right. -/
theorem checkRounds_sound (hbatch : 1 ≤ batch) {fuel round : ℕ} {ret : Bool} {flag : Option ℕ}
    (h : RoundInv localLog primaryLog checkStart common rest rest')
    (heq : checkRounds batch localLog primaryLog ready fuel round checkStart = some (ret, flag)) :
    AnswerOk localLog primaryLog ret flag := by
  induction fuel generalizing round checkStart common rest rest' with
  | zero => exact absurd heq (by simp [checkRounds])
  | succ fuel ih =>
    rw [checkRounds] at heq
    rcases checkRound_cases h hbatch (ready round) with
      ⟨ret', flag', hround, hanswer⟩ | ⟨-, hround⟩ | ⟨_, _, _, _, hround, hinv, -⟩
    · rw [hround] at heq
      obtain ⟨rfl, rfl⟩ := Prod.mk.inj (some.inj heq)
      exact hanswer
    · rw [hround] at heq
      exact ih h heq
    · rw [hround] at heq
      exact ih hinv heq

/-- The first round begins before both logs. -/
theorem roundInv_start (hlocal : LogSorted localLog) (hprimary : LogSorted primaryLog)
    (hne : localLog ≠ []) : RoundInv localLog primaryLog 0 [] localLog primaryLog :=
  ⟨hlocal, hprimary, rfl, rfl, nofun, fun _ _ => Nat.zero_le _,
    fun _ _ => Nat.zero_le _, hne, fun _ => rfl⟩

theorem LogSorted.lastId_eq_zero_iff (h : LogSorted localLog) :
    getLastSuccessReqId localLog = 0 ↔ localLog = [] := by
  constructor
  · intro hzero
    have := h.length_le
    exact length_eq_zero_iff.mp (by omega)
  · rintro rfl
    rfl

theorem checkIfLogForward_ends (hlocal : LogSorted localLog) (hprimary : LogSorted primaryLog)
    (hbatch : 1 ≤ batch) (hready : ∀ round, ∃ later, round ≤ later ∧ ready later = true) :
    ∃ fuel ret flag, checkIfLogForward batch localLog primaryLog ready fuel = some (ret, flag) := by
  by_cases hnil : localLog = []
  · exact ⟨0, true, none, if_pos (hlocal.lastId_eq_zero_iff.mpr hnil)⟩
  · obtain ⟨fuel, ⟨ret, flag⟩, hrounds⟩ :=
      checkRounds_ends hbatch hready 0 (roundInv_start hlocal hprimary hnil)
    refine ⟨fuel, ret, flag, ?_⟩
    rwa [checkIfLogForward, if_neg (mt hlocal.lastId_eq_zero_iff.mp hnil)]

theorem checkIfLogForward_sound (hlocal : LogSorted localLog) (hprimary : LogSorted primaryLog)
    (hbatch : 1 ≤ batch) {fuel : ℕ} {ret : Bool} {flag : Option ℕ}
    (heq : checkIfLogForward batch localLog primaryLog ready fuel = some (ret, flag)) :
    AnswerOk localLog primaryLog ret flag := by
  rw [checkIfLogForward] at heq
  split at heq
  · rename_i hzero
    obtain ⟨rfl, rfl⟩ := Prod.mk.inj (some.inj heq)
    rw [hlocal.lastId_eq_zero_iff.mp hzero]
    exact answer_of_part nil_prefix
  · rename_i hne
    exact checkRounds_sound hbatch
      (roundInv_start hlocal hprimary (mt hlocal.lastId_eq_zero_iff.mpr hne)) heq

/-- The finished backups are prefixes of the log, and there is one of the empty log. -/
structure BackupsOk (checker : RecoveryChecker) : Prop where
  part : ∀ dir ∈ checker.backups, dir.isDirCopyOK → dir.log <+: checker.log ∧ dir.data = dir.log ∧
    getLastSuccessReqId dir.log = dir.incId
  start : ∃ dir ∈ checker.backups, dir.isDirCopyOK ∧ dir.incId = 0

/-- The check ends, it agrees exactly with a prefix of the primary's log, and the rollback that
follows otherwise leaves the common prefix. -/
def Recovers (batch : ℕ) (checker : RecoveryChecker) (primaryLog : List LogEntry)
    (ready : ℕ → Bool) : Prop :=
  ∃ fuel ret flag, checkIfLogForward batch checker.log primaryLog ready fuel = some (ret, flag) ∧
    (ret = true ↔ checker.log <+: primaryLog) ∧
    (ret = false → ∃ checker',
      { checker with rollbackFlag := flag }.rollbackLastFail = some checker' ∧
        checker'.log = commonPrefix checker.log primaryLog ∧ checker'.data = checker'.log)

variable {checker : RecoveryChecker}

/-- A rollback with an id of its own leaves what is below it. -/
theorem rollbackLastFail_below {rollbackId : ℕ} (h : LogSorted checker.log)
    (hbackups : BackupsOk checker) (hpos : 0 < rollbackId)
    (hle : rollbackId ≤ getLastSuccessReqId checker.log) :
    ∃ checker', { checker with rollbackFlag := some rollbackId }.rollbackLastFail = some checker' ∧
      checker'.log = below incId rollbackId checker.log ∧
      checker'.data = checker'.log := by
  obtain ⟨flagged, hflagged⟩ : ∃ flagged : RecoveryChecker,
      flagged = { checker with rollbackFlag := some rollbackId } := ⟨_, rfl⟩
  have hlog : flagged.log = checker.log := hflagged ▸ rfl
  have hlist {dir : BackupDir} : dir ∈ flagged.getBackupList ↔ dir ∈ checker.backups := by
    rw [mem_getBackupList, hflagged]
  rw [← hflagged]
  cases hfound : (flagged.getLastBackup rollbackId).1 with
  | none =>
    obtain ⟨dir, hdir, hok, hzero⟩ := hbackups.start
    have hnone := findBackup_eq_none hfound dir (hlist.mpr hdir) hok
    exact absurd (.inr (hzero ▸ hpos)) hnone
  | some dir =>
    obtain ⟨hmem, hok, hless⟩ := findBackup_eq_some hfound
    obtain ⟨hpart, hdata, hdirId⟩ := hbackups.part dir (hlist.mp hmem) hok
    have hless := hless.resolve_left hpos.ne'
    have hredone := h.append_redone hpart (hdirId.symm ▸ hless)
    rw [hdirId] at hredone
    refine ⟨_, rollbackLastFail_eq (hlog ▸ h.ascending) (hflagged ▸ rfl) hpos
      (hlog ▸ hle.trans (Nat.le_succ _)) hfound hdirId, ?_, ?_⟩
    · rw [hlog]
      exact hredone
    · exact congrArg (· ++ _) hdata

/-- The search takes the first finished copy when it has no bound. -/
theorem findBackup_newest {dirs : List BackupDir} {dir : BackupDir}
    (hsorted : dirs.Pairwise fun dir dir' => dir'.incId ≤ dir.incId)
    (h : (findBackup 0 dirs).1 = some dir) :
    ∀ dir' ∈ dirs, dir'.isDirCopyOK → dir'.incId ≤ dir.incId := by
  induction dirs with
  | nil => exact nofun
  | cons first dirs ih =>
    obtain ⟨hfirst, hdirs⟩ := pairwise_cons.mp hsorted
    rw [findBackup] at h
    split_ifs at h with hok
    · obtain rfl := some.inj h
      rintro dir' (_ | ⟨_, hdir'⟩) -
      · exact le_rfl
      · exact hfirst dir' hdir'
    · exact absurd (.inl rfl) ‹¬ (0 = 0 ∨ first.incId < 0)›
    · rintro dir' (_ | ⟨_, hdir'⟩) hok'
      · exact absurd hok' hok
      · exact ih hdirs h dir' hdir' hok'

theorem sorted_getBackupList (checker : RecoveryChecker) :
    checker.getBackupList.Pairwise fun dir dir' => dir'.incId ≤ dir.incId := by
  exact pairwise_insertionSort _ _

/-- A rollback with id 0 leaves the newest backup. -/
theorem rollbackLastFail_zero (hbackups : BackupsOk checker) :
    ∃ dir ∈ checker.backups, dir.isDirCopyOK ∧
      (∀ dir' ∈ checker.backups, dir'.isDirCopyOK → dir'.incId ≤ dir.incId) ∧
      ∃ checker', { checker with rollbackFlag := some 0 }.rollbackLastFail = some checker' ∧
        checker'.log = dir.log ∧ checker'.data = dir.data := by
  obtain ⟨flagged, hflagged⟩ : ∃ flagged : RecoveryChecker,
      flagged = { checker with rollbackFlag := some 0 } := ⟨_, rfl⟩
  have hlist {dir : BackupDir} : dir ∈ flagged.getBackupList ↔ dir ∈ checker.backups := by
    rw [mem_getBackupList, hflagged]
  have hflag : flagged.rollbackFlag = some 0 := hflagged ▸ rfl
  rw [← hflagged]
  cases hfound : (flagged.getLastBackup 0).1 with
  | none =>
    obtain ⟨dir, hdir, hok, -⟩ := hbackups.start
    have hnone := findBackup_eq_none hfound dir (hlist.mpr hdir) hok
    exact absurd (.inl rfl) hnone
  | some dir =>
    obtain ⟨hmem, hok, -⟩ := findBackup_eq_some hfound
    refine ⟨dir, hlist.mp hmem, hok, fun dir' hdir' => ?_,
      (flagged.getLastBackup 0).2.restore (some dir), ?_, rfl, rfl⟩
    · exact findBackup_newest (sorted_getBackupList flagged) hfound dir' (hlist.mpr hdir')
    · rw [rollbackLastFail, hflag]
      simp only [hfound]
      split
      · rename_i hfalse
        exact absurd rfl hfalse.1
      · split
        · rfl
        · simp

/-- A node that recovers ends on the primary's history, unless the primary's log is empty and its
own log and newest backup are not. -/
theorem recovers_iff {batch : ℕ} (hbatch : 1 ≤ batch) {checker : RecoveryChecker}
    {primaryLog : List LogEntry} (hlocal : LogSorted checker.log) (hprimary : LogSorted primaryLog)
    (hbackups : BackupsOk checker) {ready : ℕ → Bool}
    (hready : ∀ round, ∃ later, round ≤ later ∧ ready later = true) :
    Recovers batch checker primaryLog ready ↔ (primaryLog = [] → checker.log = [] ∨
        ∀ dir ∈ checker.backups, dir.isDirCopyOK → dir.incId = 0) := by
  obtain ⟨newest, hnewest, hok, hmax, restored, hrestored, hlog, hdata⟩ :=
    rollbackLastFail_zero hbackups
  obtain ⟨hpart, hsame, hdirId⟩ := hbackups.part newest hnewest hok
  constructor
  · rintro ⟨fuel, ret, flag, hcheck, -, hrollback⟩ rfl
    by_cases hnil : checker.log = []
    · exact .inl hnil
    have hanswer := checkIfLogForward_sound hlocal hprimary hbatch hcheck
    have hret : ret = false := by
      rw [← Bool.not_eq_true, hanswer.ret_iff, prefix_nil]
      exact hnil
    obtain ⟨rollbackId, rfl, hzero⟩ := hanswer.flag hret
    obtain rfl : rollbackId = 0 := by simpa using hzero
    obtain ⟨checker', hchecker', hcommon, -⟩ := hrollback hret
    obtain rfl := some.inj (hrestored.symm.trans hchecker')
    rw [hlog, commonPrefix_nil_right] at hcommon
    rw [hcommon] at hdirId
    have hzero : newest.incId = 0 := hdirId.symm
    exact .inr fun dir hdir hdirOk => Nat.le_zero.mp ((hmax dir hdir hdirOk).trans_eq hzero)
  · intro hcond
    obtain ⟨fuel, ret, flag, hcheck⟩ := checkIfLogForward_ends hlocal hprimary hbatch hready
    have hanswer := checkIfLogForward_sound hlocal hprimary hbatch hcheck
    refine ⟨fuel, ret, flag, hcheck, hanswer.ret_iff, fun hret => ?_⟩
    obtain ⟨rollbackId, rfl, hflag⟩ := hanswer.flag hret
    split at hflag
    · rename_i hnil
      subst hnil hflag
      have hne : checker.log ≠ [] := by
        intro hnil
        have htrue := hanswer.ret_iff.mpr (hnil ▸ nil_prefix)
        exact absurd (htrue.symm.trans hret) Bool.noConfusion
      have hzero := ((hcond rfl).resolve_left hne) newest hnewest hok
      have hsorted : LogSorted newest.log :=
        ⟨hlocal.ascending.sublist hpart.sublist, fun entry hentry =>
          hlocal.pos entry (hpart.subset hentry)⟩
      have hempty := hsorted.lastId_eq_zero_iff.mp (hdirId.trans hzero)
      refine ⟨restored, hrestored, ?_, ?_⟩
      · rw [hlog, hempty, commonPrefix_nil_right]
      · rw [hdata, hlog, hsame]
    · obtain ⟨hpos, hle, hbelow⟩ := hflag
      rw [← hbelow]
      exact rollbackLastFail_below hlocal hbackups hpos hle

/-- Two requests are logged, the first of which the primary has too. -/
theorem recovers_iff_differ : Recovers 1
    ⟨[⟨1, [0]⟩, ⟨2, [0]⟩], [⟨1, [0]⟩, ⟨2, [0]⟩], [⟨0, true, [], []⟩], none⟩ [⟨1, [0]⟩, ⟨2, [1]⟩]
    fun _ => true := by
  refine (recovers_iff le_rfl ⟨?_, ?_⟩ ⟨?_, ?_⟩ ⟨?_, ?_⟩ fun round => ⟨round, le_rfl, rfl⟩).mpr ?_
  · simp [Ascending]
  · simp
  · simp [Ascending]
  · simp
  · rintro dir hdir -
    rw [mem_singleton.mp hdir]
    exact ⟨ nil_prefix, rfl, rfl⟩
  · exact ⟨_, mem_singleton_self _, rfl, rfl⟩
  · exact fun hnil => absurd hnil (cons_ne_nil _ _)

/-- The primary lost its log: the request of the newest backup is kept. -/
theorem not_recovers_emptyPrimary : ¬ Recovers 1
    ⟨[⟨1, [0]⟩], [⟨1, [0]⟩], [⟨0, true, [], []⟩, ⟨1, true, [⟨1, [0]⟩], [⟨1, [0]⟩]⟩], none⟩ []
    fun _ => true := by
  rintro ⟨fuel, ret, flag, hcheck, hret, hrollback⟩
  have hlocal : LogSorted [⟨1, [0]⟩] := ⟨pairwise_singleton _ _, by simp⟩
  have hanswer := checkIfLogForward_sound hlocal ⟨List.Pairwise.nil, by simp⟩ le_rfl hcheck
  have hfalse : ret = false := by
    rw [← Bool.not_eq_true, hret]
    simp
  obtain ⟨rollbackId, rfl, hzero⟩ := hanswer.flag hfalse
  obtain rfl : rollbackId = 0 := by simpa using hzero
  obtain ⟨checker', hchecker', hlog, -⟩ := hrollback hfalse
  obtain rfl := some.inj hchecker'
  revert hlog
  decide

end AdDelivery.NodeManager
