import AdDelivery.Core.Ascending
import AdDelivery.NodeManager.RequestLog

/-!
# Looking up requests

The ids in the head file ascend, so a binary search finds the first head that is not below an id.
A list of ids is read from there, head by head with its data, all of it into one string. The list
is cut at the last id of the log instead of at the number of heads, which loses nothing unless the
log has the id 0.
-/

namespace AdDelivery.NodeManager

open List Nat

/-- The in and out parameters of a lookup. -/
structure HeadPlace where
  incId : UInt32
  rethead : ReqLogHead := default
  headoffset : ℕ := 0
  deriving DecidableEq

/-- The head at an offset of the file. -/
def getHeadData (heads : List ReqLogHead) (offset : ℕ) : ReqLogHead :=
  heads.getD (offset / sizeofReqLogHead) default

/-- `place` has what was found so far. The search stops at place 0, before `end` could wrap. -/
def searchHeads (heads : List ReqLogHead) (incId : UInt32) (start stop : ℕ) (place : HeadPlace) :
    HeadPlace :=
  if stop < start then place
  else
    let mid := (stop - start) / 2 + start
    let cur := getHeadData heads (mid * sizeofReqLogHead)
    if incId < cur.incId then
      let place := { incId := cur.incId, rethead := cur, headoffset := mid * sizeofReqLogHead }
      if mid = 0 then place else searchHeads heads incId start (mid - 1) place
    else if cur.incId < incId then searchHeads heads incId (mid + 1) stop place
    else { incId := incId, rethead := cur, headoffset := mid * sizeofReqLogHead }
termination_by stop + 1 - start

namespace ReqLogDir

variable (dir : ReqLogDir) (place : HeadPlace)

def getHeadOffsetWithoutLock : Except String (Bool × HeadPlace) :=
  match dir.headLog with
  | none => .error "open request log file failed."
  | some heads =>
    let length := heads.length * sizeofReqLogHead
    if length < sizeofReqLogHead then .ok (false, place)
    else
      let stop := length / sizeofReqLogHead - 1
      let cur := getHeadData heads (stop * sizeofReqLogHead)
      if cur.incId < place.incId then .ok (false, place)
      else .ok (true, searchHeads heads place.incId 0 stop place)

def getHeadOffset : Except String (Bool × HeadPlace) :=
  dir.getHeadOffsetWithoutLock place

/-- An exception of the data file leaves the place that was found. -/
def getReqData (reqPackedData : Bytes := []) : Except String (Bool × HeadPlace × Option Bytes) :=
  match dir.getHeadOffsetWithoutLock place with
  | .error e => .error e
  | .ok (false, place) => .ok (false, place, none)
  | .ok (true, place) =>
    (dir.getReqPackedDataByHead place.rethead reqPackedData).map fun data =>
      (true, place, some data)

/-- The head at the offset with its data, and the next offset. -/
def getReqDataByHeadOffset (headoffset : ℕ) (reqPackedData : Bytes) :
    Except String (Option (ReqLogHead × ℕ × Bytes)) :=
  match dir.headLog with
  | none => .error "open request log failed."
  | some heads =>
    let length := heads.length * sizeofReqLogHead
    if length < sizeofReqLogHead then .ok none
    else if length - sizeofReqLogHead < headoffset then .ok none
    else
      let rethead := getHeadData heads headoffset
      (dir.getReqPackedDataByHead rethead reqPackedData).map fun data =>
        some (rethead, headoffset + sizeofReqLogHead, data)

theorem lt_of_getReqDataByHeadOffset {dir : ReqLogDir} {headoffset next : ℕ} {head : ReqLogHead}
    {reqPackedData data : Bytes}
    (h : dir.getReqDataByHeadOffset headoffset reqPackedData = .ok (some (head, next, data))) :
    headoffset < next ∧ headoffset < dir.heads.length * sizeofReqLogHead := by
  rw [getReqDataByHeadOffset] at h
  cases hlog : dir.headLog with
  | none =>
    rw [hlog] at h
    cases h
  | some heads =>
    rw [hlog] at h
    dsimp only at h
    rw [ReqLogDir.heads, hlog, Option.getD_some]
    split at h
    · cases h
    split at h
    · cases h
    cases hdata : dir.getReqPackedDataByHead (getHeadData heads headoffset) reqPackedData with
    | error e =>
      rw [hdata] at h
      cases h
    | ok data =>
      rw [hdata] at h
      cases h
      have hsize : 0 < sizeofReqLogHead := by decide
      omega

/-- The loop that reads the list. The data is read before the length of the list is looked at, and
always into the same string. -/
def readReqLogIds (dir : ReqLogDir) (maxReturn : ℕ) (needdata : Bool) (headoffset : ℕ)
    (reqPackedData : Bytes) (ids : List UInt32) (datas : List Bytes) :
    Except String (List UInt32 × List Bytes) :=
  match h : dir.getReqDataByHeadOffset headoffset reqPackedData with
  | .error e => .error e
  | .ok none => .ok (ids, datas)
  | .ok (some (head, next, data)) =>
    if maxReturn ≤ ids.length then .ok (ids, datas)
    else
      have := lt_of_getReqDataByHeadOffset h
      readReqLogIds dir maxReturn needdata next data (ids ++ [head.incId])
        (if needdata then datas ++ [data] else datas)
termination_by dir.heads.length * sizeofReqLogHead - headoffset

end ReqLogDir

def ReqLogMgr.getLastSuccessReqId (mgr : ReqLogMgr) : UInt32 := mgr.lastWritedId

def ReqLogMgr.getReqLogIdList (mgr : ReqLogMgr) (dir : ReqLogDir) (start maxReturn : UInt32)
    (needdata : Bool) : Except String (List UInt32 × List Bytes) :=
  match dir.getHeadOffset { incId := start } with
  | .error e => .error e
  | .ok (false, _) => .ok ([], [])
  | .ok (true, place) =>
    let maxReturn :=
      if mgr.getLastSuccessReqId < maxReturn then mgr.getLastSuccessReqId else maxReturn
    dir.readReqLogIds maxReturn.toNat needdata place.headoffset [] [] []

/-- The ids ascend. -/
def Increasing (heads : List ReqLogHead) : Prop := heads.Pairwise fun a b => a.incId < b.incId

/-- The heads that are not below an id. -/
def headsFrom (heads : List ReqLogHead) (start : UInt32) : List ReqLogHead :=
  heads.filter fun head => start ≤ head.incId

/-- The first head that is not below the id stands at place `i`. -/
structure IsFirst (heads : List ReqLogHead) (incId : UInt32) (i : ℕ) (head : ReqLogHead) :
    Prop where
  get : heads[i]? = some head
  le : incId ≤ head.incId
  below : ∀ j head', j < i → heads[j]? = some head' → head'.incId < incId

def placeOf (i : ℕ) (head : ReqLogHead) : HeadPlace :=
  { incId := head.incId, rethead := head, headoffset := i * sizeofReqLogHead }

section Search

variable {heads : List ReqLogHead} {incId : UInt32}

theorem getHeadData_mul (heads : List ReqLogHead) (i : ℕ) :
    getHeadData heads (i * sizeofReqLogHead) = heads.getD i default := by
  rw [getHeadData, Nat.mul_div_cancel i (by decide)]

theorem Increasing.lt (h : Increasing heads) {i j : ℕ} {a b : ReqLogHead} (hij : i < j)
    (ha : heads[i]? = some a) (hb : heads[j]? = some b) : a.incId < b.incId := by
  obtain ⟨hi, rfl⟩ := List.getElem?_eq_some_iff.mp ha
  obtain ⟨hj, rfl⟩ := List.getElem?_eq_some_iff.mp hb
  exact pairwise_iff_getElem.mp h i j hi hj hij

/-- What is known when the places from `start` to `stop` are left. -/
structure Searching (heads : List ReqLogHead) (incId : UInt32) (start stop : ℕ)
    (place : HeadPlace) : Prop where
  below : ∀ j head, j < start → heads[j]? = some head → head.incId < incId
  start_le : start ≤ stop + 1
  stop_lt : stop < heads.length
  found : (∃ head, heads[stop + 1]? = some head ∧ incId ≤ head.incId ∧
      place = placeOf (stop + 1) head) ∨
    ∃ head, heads[stop]? = some head ∧ incId ≤ head.incId ∧ stop + 1 = heads.length

theorem Searching.done {start stop : ℕ} {place : HeadPlace}
    (h : Searching heads incId start stop place) (hdone : stop < start) :
    ∃ i head, IsFirst heads incId i head ∧ place = placeOf i head := by
  rcases h.found with ⟨head, hget, hle, hplace⟩ | ⟨head, hget, hle, -⟩
  · exact ⟨stop + 1, head, ⟨hget, hle, fun j head' hj => h.below j head' (by omega)⟩, hplace⟩
  · exact absurd (h.below stop head hdone hget) (UInt32.not_lt.mpr hle)

theorem searchHeads_spec (h : Increasing heads) {start stop : ℕ} {place : HeadPlace}
    (hsearching : Searching heads incId start stop place) : ∃ i head, IsFirst heads incId i head ∧
      searchHeads heads incId start stop place = placeOf i head := by
  induction hmeasure : stop + 1 - start using Nat.strong_induction_on
    generalizing start stop place with
  | h rounds ih =>
    rw [searchHeads]
    split
    · exact hsearching.done ‹_›
    rename_i hrange
    have hstop := hsearching.stop_lt
    have hmid : (stop - start) / 2 + start ≤ stop := by omega
    have hstart : start ≤ (stop - start) / 2 + start := le_add_left _ _
    simp only [getHeadData_mul]
    generalize (stop - start) / 2 + start = mid at hmid hstart ⊢
    have hget : heads[mid]? = some heads[mid] := getElem?_eq_getElem (hmid.trans_lt hstop)
    have hcur : heads.getD mid default = heads[mid] := by
      rw [getD_eq_getElem?_getD, hget, Option.getD_some]
    rw [hcur]
    split
    · -- a candidate, and nothing behind it is a better one
      rename_i habove
      have hle : incId ≤ heads[mid].incId := UInt32.le_of_lt habove
      split
      · rename_i hzero
        subst hzero
        exact ⟨0, _, ⟨hget, hle, fun j _ hj => absurd hj (not_lt_zero j)⟩, rfl⟩
      · rename_i hpos
        have hsucc : mid - 1 + 1 = mid := Nat.sub_add_cancel (Nat.pos_of_ne_zero hpos)
        have hget' : heads[mid - 1 + 1]? = some heads[mid] := by rw [hsucc, hget]
        refine ih (mid - 1 + 1 - start) (by omega) ⟨hsearching.below, by omega, by omega, ?_⟩ rfl
        exact .inl ⟨heads[mid], hget', hle, by rw [hsucc]; rfl⟩
    split
    · rename_i hbelow
      refine ih (stop + 1 - (mid + 1)) (by omega) ⟨?_, by omega, hstop, hsearching.found⟩ rfl
      intro j head hj hhead
      rcases Nat.lt_succ_iff_lt_or_eq.mp hj with hj | rfl
      · exact UInt32.lt_trans (h.lt hj hhead hget) hbelow
      · rw [hget] at hhead
        rwa [← Option.some.inj hhead]
    · rename_i hnotAbove hnotBelow
      have hequal : heads[mid].incId = incId :=
        UInt32.le_antisymm (UInt32.not_lt.mp hnotAbove) (UInt32.not_lt.mp hnotBelow)
      refine ⟨mid, heads[mid], ⟨hget, UInt32.not_lt.mp hnotBelow, ?_⟩, ?_⟩
      · intro j head hj hhead
        rw [← hequal]
        exact h.lt hj hhead hget
      · rw [placeOf, hequal]

/-- Heads below the id in front of heads that are not. -/
theorem headsFrom_append {before after : List ReqLogHead}
    (hbefore : ∀ head ∈ before, head.incId < incId) (hafter : ∀ head ∈ after, incId ≤ head.incId) :
    headsFrom (before ++ after) incId = after := by
  have hnone : before.filter (fun head => incId ≤ head.incId) = [] := by
    rw [filter_eq_nil_iff]
    intro head hmem
    rw [decide_eq_true_iff, UInt32.not_le]
    exact hbefore head hmem
  have hall : after.filter (fun head => incId ≤ head.incId) = after := by
    rw [filter_eq_self]
    exact fun head hmem => decide_eq_true (hafter head hmem)
  rw [headsFrom, filter_append, hnone, hall, nil_append]

theorem headsFrom_headsFrom {incId' : UInt32} (h : incId ≤ incId') :
    headsFrom (headsFrom heads incId) incId' = headsFrom heads incId' := by
  rw [headsFrom, headsFrom, filter_filter]
  apply filter_congr
  intro head _
  rw [Bool.eq_iff_iff, Bool.and_eq_true, decide_eq_true_iff, decide_eq_true_iff]
  exact and_iff_left_of_imp fun hle => UInt32.le_trans h hle

theorem IsFirst.headsFrom_eq (h : Increasing heads) {i : ℕ} {head : ReqLogHead}
    (hfirst : IsFirst heads incId i head) : headsFrom heads incId = heads.drop i := by
  conv_lhs => rw [← take_append_drop i heads]
  apply headsFrom_append
  · intro head' hmem
    obtain ⟨j, hj⟩ := mem_iff_getElem?.mp hmem
    rw [getElem?_take] at hj
    split at hj
    · exact hfirst.below j head' ‹_› hj
    · cases hj
  · intro head' hmem
    obtain ⟨j, hj⟩ := mem_iff_getElem?.mp hmem
    rw [getElem?_drop] at hj
    apply UInt32.le_trans hfirst.le
    rcases Nat.eq_zero_or_pos j with rfl | hpos
    · rw [Nat.add_zero, hfirst.get] at hj
      exact Option.some.inj hj ▸ UInt32.le_refl _
    · exact UInt32.le_of_lt (h.lt (Nat.lt_add_of_pos_right hpos) hfirst.get hj)

end Search

section Lookup

variable {dir : ReqLogDir} {heads : List ReqLogHead}

/-- Either no head is left and the place stays, or the place of the first head is set. -/
theorem getHeadOffset_spec (hlog : dir.headLog = some heads) (h : Increasing heads)
    (place : HeadPlace) :
    (headsFrom heads place.incId = [] ∧ dir.getHeadOffset place = .ok (false, place)) ∨
      ∃ i head, IsFirst heads place.incId i head ∧
        dir.getHeadOffset place = .ok (true, placeOf i head) := by
  have hsize : 0 < sizeofReqLogHead := by decide
  rw [ReqLogDir.getHeadOffset, ReqLogDir.getHeadOffsetWithoutLock, hlog]
  dsimp only
  rcases eq_nil_or_concat' heads with rfl | ⟨init, last, rfl⟩
  · exact .inl ⟨rfl, rfl⟩
  have hlength : (init ++ [last]).length = init.length + 1 := length_append
  have hget : (init ++ [last])[init.length]? = some last := getElem?_concat_length
  rw [if_neg (by rw [hlength]; exact Nat.not_lt.mpr (Nat.le_mul_of_pos_left _ (Nat.succ_pos _))),
    Nat.mul_div_cancel _ hsize, getHeadData_mul, getD_eq_getElem?_getD, hlength,
    Nat.add_sub_cancel, hget]
  split
  · rename_i hbelow
    refine .inl ⟨?_, rfl⟩
    rw [headsFrom, filter_eq_nil_iff]
    intro head hmem
    obtain ⟨j, hj⟩ := mem_iff_getElem?.mp hmem
    have hjlt := (List.getElem?_eq_some_iff.mp hj).1
    rw [hlength] at hjlt
    rcases Nat.lt_succ_iff_lt_or_eq.mp hjlt with hjlt | rfl
    · simpa using UInt32.lt_trans (h.lt hjlt hj hget) hbelow
    · rw [hget] at hj
      rw [← Option.some.inj hj]
      simpa using hbelow
  · rename_i hnotBelow
    have hsearching : Searching (init ++ [last]) place.incId 0 init.length place := by
      refine ⟨fun j _ hj => absurd hj (not_lt_zero j), zero_le _, ?_, .inr ?_⟩
      · rw [hlength]
        exact Nat.lt_succ_self _
      · exact ⟨last, hget, UInt32.not_lt.mp hnotBelow, hlength.symm⟩
    obtain ⟨i, head, hfirst, hsearch⟩ := searchHeads_spec h hsearching
    exact .inr ⟨i, head, hfirst, by rw [hsearch]⟩

theorem getReqDataByHeadOffset_mul (hlog : dir.headLog = some heads) (i : ℕ)
    (reqPackedData : Bytes) : dir.getReqDataByHeadOffset (i * sizeofReqLogHead) reqPackedData =
      match heads[i]? with
      | none => .ok none
      | some head => (dir.getReqPackedDataByHead head reqPackedData).map fun data =>
          some (head, (i + 1) * sizeofReqLogHead, data) := by
  rw [ReqLogDir.getReqDataByHeadOffset, hlog]
  dsimp only
  rw [getHeadData_mul]
  have hsize : 0 < sizeofReqLogHead := by decide
  cases hget : heads[i]? with
  | none =>
    have hlength := mul_le_mul_right sizeofReqLogHead (List.getElem?_eq_none_iff.mp hget)
    split
    · rfl
    · rw [if_pos (by omega)]
  | some head =>
    have hlength := mul_le_mul_right sizeofReqLogHead (List.getElem?_eq_some_iff.mp hget).1
    rw [succ_mul] at hlength
    rw [if_neg (by omega), if_neg (by omega), getD_eq_getElem?_getD, hget, Option.getD_some,
      succ_mul]

/-- The bytes that a file has for a head. -/
def bytesFor (file : Bytes) (head : ReqLogHead) : Bytes :=
  segment file head.reqDataOffset.toNat head.reqDataLen.toNat

/-- A data file with all bytes of a head. -/
structure FileOf (dir : ReqLogDir) (head : ReqLogHead) (file : Bytes) : Prop where
  lookup : dir.dataFiles.lookup (getDataPath head.incId) = some file
  length : (bytesFor file head).length = head.reqDataLen.toNat

/-- The bytes have the checksum of the head. -/
def Checked (file : Bytes) (head : ReqLogHead) : Prop :=
  crc 0 (bytesFor file head) (toInt head.reqDataLen.toNat) = head.reqDataCrc

/-- The data of a head is there as a whole and has its checksum. -/
def Readable (dir : ReqLogDir) (head : ReqLogHead) : Prop :=
  ∃ file, FileOf dir head file ∧ Checked file head

/-- There is no data file, or it has all the bytes but not with their checksum. -/
def Broken (dir : ReqLogDir) (head : ReqLogHead) : Prop :=
  dir.dataFiles.lookup (getDataPath head.incId) = none ∨
    ∃ file, FileOf dir head file ∧ ¬ Checked file head

def dataOf (dir : ReqLogDir) (head : ReqLogHead) : Bytes :=
  match dir.getReqPackedDataByHead head with
  | .ok data => data
  | .error _ => []

/-- What is read of a head does not depend on the string, if it is there as a whole. -/
theorem FileOf.read {head : ReqLogHead} {file : Bytes} (h : FileOf dir head file)
    (hchecked : Checked file head) (reqPackedData : Bytes) :
    dir.getReqPackedDataByHead head reqPackedData = .ok (bytesFor file head) := by
  rw [getReqPackedDataByHead_of_length h.lookup h.length]
  exact if_pos hchecked

theorem Readable.read {head : ReqLogHead} (h : Readable dir head) (reqPackedData : Bytes) :
    dir.getReqPackedDataByHead head reqPackedData = .ok (dataOf dir head) := by
  obtain ⟨file, hfile, hchecked⟩ := h
  rw [dataOf, hfile.read hchecked, hfile.read hchecked]

theorem Broken.read {head : ReqLogHead} (h : Broken dir head) (reqPackedData : Bytes) :
    ∃ e, dir.getReqPackedDataByHead head reqPackedData = .error e := by
  rcases h with hnone | ⟨file, hfile, hchecked⟩
  · refine ⟨"open request log file failed.", ?_⟩
    rw [ReqLogDir.getReqPackedDataByHead, hnone]
  · refine ⟨"request log data corrupt.", ?_⟩
    rw [getReqPackedDataByHead_of_length hfile.lookup hfile.length]
    exact if_neg hchecked

/-- Heads read in turn into one string. Bytes that a file lacks are those of the data before. -/
def readInTurn (dir : ReqLogDir) : Bytes → List ReqLogHead → Except String (List Bytes)
  | _, [] => .ok []
  | reqPackedData, head :: heads =>
    match dir.getReqPackedDataByHead head reqPackedData with
    | .error e => .error e
    | .ok data => (readInTurn dir data heads).map (data :: ·)

theorem readInTurn_of_readable {heads : List ReqLogHead} (h : ∀ head ∈ heads, Readable dir head)
    (reqPackedData : Bytes) : readInTurn dir reqPackedData heads = .ok (heads.map (dataOf dir)) := by
  induction heads generalizing reqPackedData with
  | nil => rfl
  | cons head heads ih =>
    rw [readInTurn, (h head mem_cons_self).read]
    dsimp only
    rw [ih fun head' hmem => h head' (mem_cons_of_mem head hmem)]
    rfl

theorem length_readInTurn {heads : List ReqLogHead} {datas : List Bytes}
    {reqPackedData : Bytes} (h : readInTurn dir reqPackedData heads = .ok datas) :
    datas.length = heads.length := by
  induction heads generalizing reqPackedData datas with
  | nil =>
    cases h
    rfl
  | cons head heads ih =>
    rw [readInTurn] at h
    cases hread : dir.getReqPackedDataByHead head reqPackedData with
    | error e =>
      rw [hread] at h
      cases h
    | ok data =>
      rw [hread] at h
      cases hrest : readInTurn dir data heads with
      | error e =>
        simp only [hrest] at h
        cases h
      | ok datas' =>
        simp only [hrest] at h
        cases h
        rw [length_cons, length_cons, ih hrest]

theorem readInTurn_of_broken {heads : List ReqLogHead} (h : ∃ head ∈ heads, Broken dir head)
    (reqPackedData : Bytes) : ∃ e, readInTurn dir reqPackedData heads = .error e := by
  induction heads generalizing reqPackedData with
  | nil => simp at h
  | cons head heads ih =>
    rw [readInTurn]
    cases hread : dir.getReqPackedDataByHead head reqPackedData with
    | error e => exact ⟨e, rfl⟩
    | ok data =>
      have hrest : ∃ head' ∈ heads, Broken dir head' := by
        rcases exists_mem_cons_iff _ _ _ |>.mp h with hbroken | hrest
        · obtain ⟨e, he⟩ := hbroken.read reqPackedData
          rw [he] at hread
          cases hread
        · exact hrest
      obtain ⟨e, he⟩ := ih hrest data
      exact ⟨e, by dsimp only; rw [he]; rfl⟩

/-- The second entry has no bytes of its own, but the string has the right ones. -/
example : readInTurn { dataFiles := Finmap.singleton 0 [97, 98] } []
    [⟨1, 0, 0, 2, crc 0 [97, 98] 2⟩, ⟨2, 0, 2, 2, crc 0 [97, 98] 2⟩] =
      .ok [[97, 98], [97, 98]] := by
  decide +kernel

/-- The ids of heads, with their data if it is asked for. -/
def listOf (needdata : Bool) (heads : List ReqLogHead) (datas : List Bytes) :
    List UInt32 × List Bytes :=
  (heads.map ReqLogHead.incId, if needdata then datas else [])

/-- Where all heads are readable, the list has their data. -/
theorem map_listOf_of_readable {heads : List ReqLogHead} {n : ℕ}
    (h : ∀ head ∈ heads.take (n + 1), Readable dir head) (needdata : Bool) :
    (readInTurn dir [] (heads.take (n + 1))).map
        (fun datas => listOf needdata (heads.take n) (datas.take n)) =
      .ok (listOf needdata (heads.take n) ((heads.take n).map (dataOf dir))) := by
  rw [readInTurn_of_readable h, Except.map, ← map_take, take_take,
    Nat.min_eq_left (Nat.le_succ _)]

variable {maxReturn : ℕ} {needdata : Bool} {reqPackedData : Bytes} {ids : List UInt32}
  {datas : List Bytes} {rest : List ReqLogHead} {i : ℕ}

theorem readReqLogIds_eq (headoffset : ℕ) :
    dir.readReqLogIds maxReturn needdata headoffset reqPackedData ids datas =
      match dir.getReqDataByHeadOffset headoffset reqPackedData with
      | .error e => .error e
      | .ok none => .ok (ids, datas)
      | .ok (some (head, next, data)) =>
        if maxReturn ≤ ids.length then .ok (ids, datas)
        else dir.readReqLogIds maxReturn needdata next data (ids ++ [head.incId])
          (if needdata then datas ++ [data] else datas) := by
  rw [ReqLogDir.readReqLogIds]
  split
  · rename_i e hanswer
    rw [hanswer]
  · rename_i hanswer
    rw [hanswer]
  · rename_i head next data hanswer
    simp only [hanswer]

theorem readReqLogIds_nil (hlog : dir.headLog = some heads) (hrest : heads.drop i = []) :
    dir.readReqLogIds maxReturn needdata (i * sizeofReqLogHead) reqPackedData ids datas =
      .ok (ids, datas) := by
  have hnone : heads[i]? = none := List.getElem?_eq_none_iff.mpr (drop_eq_nil_iff.mp hrest)
  rw [readReqLogIds_eq, getReqDataByHeadOffset_mul hlog, hnone]

theorem getElem?_of_drop_eq_cons {head : ReqLogHead} (hrest : heads.drop i = head :: rest) :
    heads[i]? = some head ∧ heads.drop (i + 1) = rest := by
  constructor
  · rw [← head?_drop, hrest, head?_cons]
  · rw [← drop_drop, hrest, drop_one, tail_cons]

section

variable (hlog : dir.headLog = some heads)
include hlog

theorem readReqLogIds_cons {head : ReqLogHead} (hrest : heads.drop i = head :: rest) :
    dir.readReqLogIds maxReturn needdata (i * sizeofReqLogHead) reqPackedData ids datas =
      match dir.getReqPackedDataByHead head reqPackedData with
      | .error e => .error e
      | .ok data =>
        if maxReturn ≤ ids.length then .ok (ids, datas)
        else dir.readReqLogIds maxReturn needdata ((i + 1) * sizeofReqLogHead) data
          (ids ++ [head.incId]) (if needdata then datas ++ [data] else datas) := by
  rw [readReqLogIds_eq, getReqDataByHeadOffset_mul hlog, (getElem?_of_drop_eq_cons hrest).1]
  dsimp only
  cases dir.getReqPackedDataByHead head reqPackedData <;> rfl

/-- The loop reads one head more than it lists. -/
theorem readReqLogIds_inTurn (hrest : heads.drop i = rest) (hle : ids.length ≤ maxReturn) :
    dir.readReqLogIds maxReturn needdata (i * sizeofReqLogHead) reqPackedData ids datas =
      (readInTurn dir reqPackedData (rest.take (maxReturn - ids.length + 1))).map fun read =>
        (ids ++ (rest.take (maxReturn - ids.length)).map ReqLogHead.incId,
          if needdata then datas ++ read.take (maxReturn - ids.length) else datas) := by
  induction rest generalizing i reqPackedData ids datas with
  | nil =>
    rw [readReqLogIds_nil hlog hrest]
    simp [readInTurn, Except.map]
  | cons head rest ih =>
    rw [readReqLogIds_cons hlog hrest, take_succ_cons, readInTurn]
    cases hdata : dir.getReqPackedDataByHead head reqPackedData with
    | error e => rfl
    | ok data =>
      dsimp only
      split
      · rename_i hfull
        rw [Nat.sub_eq_zero_of_le hfull]
        simp [readInTurn, Except.map]
      · rename_i hroom
        have hlength : (ids ++ [head.incId]).length = ids.length + 1 := by simp
        have hsub : maxReturn - ids.length = maxReturn - (ids.length + 1) + 1 := by omega
        rw [ih (getElem?_of_drop_eq_cons hrest).2 (by omega), hlength, hsub]
        cases readInTurn dir data (rest.take (maxReturn - (ids.length + 1) + 1)) with
        | error e => rfl
        | ok read => cases needdata <;> simp [Except.map]

/-- What the list is, with the limit that the code takes. -/
theorem getReqLogIdList_eq_min (h : Increasing heads) (mgr : ReqLogMgr) (start limit : UInt32)
    (needdata : Bool) {m : ℕ}
    (hm : (if mgr.lastWritedId < limit then mgr.lastWritedId else limit).toNat = m) :
    mgr.getReqLogIdList dir start limit needdata =
      (readInTurn dir [] ((headsFrom heads start).take (m + 1))).map fun datas =>
        listOf needdata ((headsFrom heads start).take m) (datas.take m) := by
  subst hm
  unfold ReqLogMgr.getReqLogIdList ReqLogMgr.getLastSuccessReqId
  rcases getHeadOffset_spec hlog h { incId := start } with
    ⟨hnil, hoffset⟩ | ⟨i, head, hfirst, hoffset⟩
  · rw [hoffset, hnil]
    cases needdata <;> simp [listOf, readInTurn, Except.map]
  · have hrest := hfirst.headsFrom_eq h
    rw [hoffset, hrest]
    dsimp only
    exact (readReqLogIds_inTurn hlog rfl (zero_le _)).trans (by simp [listOf])

end

/-- The ids are not 0, so there are no more heads than the last id says. -/
theorem length_le_lastId (h : Increasing heads) (hpos : ∀ head ∈ heads, head.incId ≠ 0) :
    heads.length ≤ (lastId heads).toNat := by
  have hascending : Ascending (fun head : ReqLogHead => head.incId.toNat) heads := h
  have hlength := hascending.length_le_lastKey fun head hmem =>
    Nat.pos_of_ne_zero fun h0 => hpos head hmem (UInt32.toNat_inj.mp h0)
  rw [lastKey] at hlength
  rw [lastId]
  cases hlast : heads.getLast? with
  | none =>
    rw [hlast] at hlength
    exact hlength
  | some last =>
    rw [hlast] at hlength
    exact hlength

theorem length_headsFrom_le (start : UInt32) : (headsFrom heads start).length ≤ heads.length :=
  length_filter_le _ _

/-- The heads of the list and the one behind it are read in turn. -/
theorem getReqLogIdList_inTurn (hlog : dir.headLog = some heads) (h : Increasing heads)
    (hpos : ∀ head ∈ heads, head.incId ≠ 0) {mgr : ReqLogMgr}
    (hlast : mgr.lastWritedId = lastId heads) (start limit : UInt32) (needdata : Bool) :
    mgr.getReqLogIdList dir start limit needdata =
      (readInTurn dir [] ((headsFrom heads start).take (limit.toNat + 1))).map fun datas =>
        listOf needdata ((headsFrom heads start).take limit.toNat) (datas.take limit.toNat) := by
  by_cases hlimit : mgr.lastWritedId < limit
  · -- the limit is the last id, and there are not more heads than that
    have hlength : (headsFrom heads start).length ≤ mgr.lastWritedId.toNat := by
      rw [hlast]
      exact (length_headsFrom_le start).trans (length_le_lastId h hpos)
    have hlt : mgr.lastWritedId.toNat < limit.toNat := hlimit
    rw [getReqLogIdList_eq_min hlog h mgr start limit needdata
      (m := mgr.lastWritedId.toNat) (by rw [if_pos hlimit])]
    rw [take_of_length_le hlength, take_of_length_le (by omega),
      take_of_length_le (i := limit.toNat) (by omega),
      take_of_length_le (i := limit.toNat + 1) (by omega)]
    cases hread : readInTurn dir [] (headsFrom heads start) with
    | error e => rfl
    | ok datas =>
      have hdatas := length_readInTurn hread
      rw [Except.map, Except.map, take_of_length_le (by omega), take_of_length_le (by omega)]
  · exact getReqLogIdList_eq_min hlog h mgr start limit needdata (by rw [if_neg hlimit])

/-- The list is complete if every head that is read has its data. -/
theorem getReqLogIdList_take (hlog : dir.headLog = some heads) (h : Increasing heads)
    (hpos : ∀ head ∈ heads, head.incId ≠ 0) {mgr : ReqLogMgr}
    (hlast : mgr.lastWritedId = lastId heads) (start limit : UInt32)
    (hread : ∀ head ∈ (headsFrom heads start).take (limit.toNat + 1), Readable dir head)
    (needdata : Bool) : mgr.getReqLogIdList dir start limit needdata =
      .ok (listOf needdata ((headsFrom heads start).take limit.toNat)
        (((headsFrom heads start).take limit.toNat).map (dataOf dir))) := by
  rw [getReqLogIdList_inTurn hlog h hpos hlast, map_listOf_of_readable hread]

/-- A caller that goes on behind the last id of each answer until one is empty. -/
def readAll (mgr : ReqLogMgr) (dir : ReqLogDir) (limit : UInt32) :
    ℕ → UInt32 → Except String (List UInt32)
  | 0, _ => .ok []
  | calls + 1, start =>
    match mgr.getReqLogIdList dir start limit false with
    | .error e => .error e
    | .ok (ids, _) =>
      match ids.getLast? with
      | none => .ok []
      | some last => (readAll mgr dir limit calls (last + 1)).map (ids ++ ·)

theorem headsFrom_zero (heads : List ReqLogHead) : headsFrom heads 0 = heads :=
  filter_eq_self.mpr fun head _ => decide_eq_true (zero_le head.incId.toNat)

theorem lt_add_one_iff {id : UInt32} (hwrap : id + 1 ≠ 0) (id' : UInt32) :
    id' < id + 1 ↔ id' ≤ id := by
  have hlt := id.toNat_lt
  have hne : ¬ (id + 1).toNat = 0 := fun h0 => hwrap (UInt32.toNat_inj.mp h0)
  rw [UInt32.lt_iff_toNat_lt, UInt32.le_iff_toNat_le]
  rw [UInt32.toNat_add, UInt32.toNat_one] at hne ⊢
  omega

/-- Behind the last of some heads is what they leave. -/
theorem headsFrom_add_one (h : Increasing heads) {start : UInt32} {n : ℕ} {last : ReqLogHead}
    (hlast : ((headsFrom heads start).take n).getLast? = some last) (hwrap : last.incId + 1 ≠ 0) :
    headsFrom heads (last.incId + 1) = (headsFrom heads start).drop n := by
  obtain ⟨init, hinit⟩ := getLast?_eq_some_iff.mp hlast
  have hsplit : headsFrom heads start = init ++ [last] ++ (headsFrom heads start).drop n := by
    rw [← hinit, take_append_drop]
  have hmem : last ∈ headsFrom heads start := by
    rw [hsplit]
    simp
  have hstart : start ≤ last.incId := by simpa [headsFrom] using (mem_filter.mp hmem).2
  have hbelow : last.incId < last.incId + 1 :=
    (lt_add_one_iff hwrap last.incId).mpr (UInt32.le_refl _)
  have hincreasing : Increasing (headsFrom heads start) := List.Pairwise.filter _ h
  rw [hsplit] at hincreasing
  obtain ⟨hfront, -, hbehind⟩ := pairwise_append.mp hincreasing
  obtain ⟨-, -, hinitLast⟩ := pairwise_append.mp hfront
  rw [← headsFrom_headsFrom (UInt32.le_trans hstart (UInt32.le_of_lt hbelow))]
  conv_lhs => rw [hsplit]
  apply headsFrom_append
  · intro head hmem
    rcases mem_append.mp hmem with hmem | hmem
    · exact UInt32.lt_trans (hinitLast head hmem last mem_cons_self) hbelow
    · rw [mem_singleton.mp hmem]
      exact hbelow
  · intro head hmem
    have hlt := hbehind last (mem_append_right _ mem_cons_self) head hmem
    rw [← UInt32.not_lt, lt_add_one_iff hwrap]
    exact UInt32.not_le.mpr hlt

theorem readAll_eq (hlog : dir.headLog = some heads) (h : Increasing heads)
    (hpos : ∀ head ∈ heads, head.incId ≠ 0) {mgr : ReqLogMgr}
    (hlast : mgr.lastWritedId = lastId heads)
    (hread : ∀ head ∈ heads, Readable dir head ∧ head.incId + 1 ≠ 0) {limit : UInt32}
    (hlimit : limit ≠ 0) {calls : ℕ} {start : UInt32}
    (hcalls : (headsFrom heads start).length < calls) :
    readAll mgr dir limit calls start = .ok ((headsFrom heads start).map ReqLogHead.incId) := by
  induction calls generalizing start with
  | zero => exact absurd hcalls (not_lt_zero _)
  | succ calls ih =>
    have hin {head : ReqLogHead} (hmem : head ∈ headsFrom heads start) : head ∈ heads :=
      (mem_filter.mp hmem).1
    have hlist := getReqLogIdList_take hlog h hpos hlast start limit
      (fun head hmem => (hread head (hin (mem_of_mem_take hmem))).1) false
    rw [readAll, hlist, listOf]
    dsimp only
    rw [getLast?_map]
    cases hgetLast : ((headsFrom heads start).take limit.toNat).getLast? with
    | none =>
      have hpositive : limit.toNat ≠ 0 := fun h0 => hlimit (UInt32.toNat_inj.mp h0)
      have hnil : headsFrom heads start = [] := by
        simpa [getLast?_eq_none_iff, take_eq_nil_iff, hpositive] using hgetLast
      rw [hnil]
      rfl
    | some last =>
      have hmem : last ∈ (headsFrom heads start).take limit.toNat :=
        mem_of_getLast? hgetLast
      have hdrop := headsFrom_add_one h hgetLast (hread last (hin (mem_of_mem_take hmem))).2
      have hpositive : 0 < limit.toNat :=
        Nat.pos_of_ne_zero fun h0 => hlimit (UInt32.toNat_inj.mp h0)
      have hlength : 0 < (headsFrom heads start).length :=
        length_pos_of_mem (mem_of_mem_take hmem)
      rw [Option.map_some]
      dsimp only
      rw [ih (by rw [hdrop, length_drop]; omega), hdrop, Except.map, ← map_append,
        take_append_drop]

end Lookup

/-- Lookups find the first head that is not below an id, lists are cut from there, and repeated
calls give the whole log. Where data is read, it has to be there: the heads of a list and the one
behind it are read in turn, and a list is given exactly if each of these reads succeeds. -/
structure LooksUp (mgr : ReqLogMgr) (dir : ReqLogDir) (heads : List ReqLogHead) : Prop where
  headOffset : ∀ place : HeadPlace,
    (headsFrom heads place.incId = [] ∧ dir.getHeadOffset place = .ok (false, place)) ∨
      ∃ i head, IsFirst heads place.incId i head ∧
        dir.getHeadOffset place = .ok (true, placeOf i head)
  reqData : ∀ (place : HeadPlace) (reqPackedData : Bytes),
    (headsFrom heads place.incId = [] ∧
        dir.getReqData place reqPackedData = .ok (false, place, none)) ∨
      ∃ i head, IsFirst heads place.incId i head ∧ dir.getReqData place reqPackedData =
        (dir.getReqPackedDataByHead head reqPackedData).map fun data =>
          (true, placeOf i head, some data)
  reqLogIdList : ∀ (start maxReturn : UInt32) (needdata : Bool),
    (∀ head ∈ (headsFrom heads start).take (maxReturn.toNat + 1), Readable dir head) →
    mgr.getReqLogIdList dir start maxReturn needdata =
      .ok (listOf needdata ((headsFrom heads start).take maxReturn.toNat)
        (((headsFrom heads start).take maxReturn.toNat).map (dataOf dir)))
  inTurn : ∀ (start maxReturn : UInt32) (needdata : Bool),
    mgr.getReqLogIdList dir start maxReturn needdata =
      (readInTurn dir [] ((headsFrom heads start).take (maxReturn.toNat + 1))).map fun datas =>
        listOf needdata ((headsFrom heads start).take maxReturn.toNat)
          (datas.take maxReturn.toNat)
  broken : ∀ (start maxReturn : UInt32) (needdata : Bool),
    (∃ head ∈ (headsFrom heads start).take (maxReturn.toNat + 1), Broken dir head) →
    ∃ e, mgr.getReqLogIdList dir start maxReturn needdata = .error e
  repeated : (∀ head ∈ heads, Readable dir head ∧ head.incId + 1 ≠ 0) →
    ∀ maxReturn ≠ 0, ∀ calls > heads.length,
      readAll mgr dir maxReturn calls 0 = .ok (heads.map ReqLogHead.incId)

/-- A log with ascending ids from 1 on is looked up as a list. -/
theorem looksUp {mgr : ReqLogMgr} {dir : ReqLogDir} {heads : List ReqLogHead}
    (hlog : dir.headLog = some heads) (h : Increasing heads)
    (hpos : ∀ head ∈ heads, head.incId ≠ 0) (hlast : mgr.lastWritedId = lastId heads) :
    LooksUp mgr dir heads where
  headOffset := getHeadOffset_spec hlog h
  reqData place reqPackedData := by
    rcases getHeadOffset_spec hlog h place with ⟨hnil, hoffset⟩ | ⟨i, head, hfirst, hoffset⟩
    · refine .inl ⟨hnil, ?_⟩
      rw [ReqLogDir.getHeadOffset] at hoffset
      rw [ReqLogDir.getReqData, hoffset]
    · refine .inr ⟨i, head, hfirst, ?_⟩
      rw [ReqLogDir.getHeadOffset] at hoffset
      rw [ReqLogDir.getReqData, hoffset]
      rfl
  reqLogIdList start limit needdata hread :=
    getReqLogIdList_take hlog h hpos hlast start limit hread needdata
  inTurn := getReqLogIdList_inTurn hlog h hpos hlast
  broken start maxReturn needdata hbroken := by
    obtain ⟨e, he⟩ := readInTurn_of_broken hbroken []
    exact ⟨e, by rw [getReqLogIdList_inTurn hlog h hpos hlast, he]; rfl⟩
  repeated hread maxReturn hmaxReturn calls hcalls := by
    have hfrom : (headsFrom heads 0).length < calls := by rwa [headsFrom_zero]
    have hall := readAll_eq hlog h hpos hlast hread hmaxReturn hfrom
    rwa [headsFrom_zero] at hall

/-- A directory with empty requests. -/
def emptyRequests (ids : List UInt32) : ReqLogDir where
  basePath := true
  headLog := some (ids.map fun incId => ⟨incId, 0, 0, 0, 0⟩)
  dataFiles := Finmap.insert 42949 [] (Finmap.insert 0 [] ∅)

theorem readable_empty {dir : ReqLogDir} {head : ReqLogHead} (file : Bytes)
    (hfile : dir.dataFiles.lookup (getDataPath head.incId) = some file)
    (hlen : head.reqDataLen = 0) (hcrc : head.reqDataCrc = 0) : Readable dir head := by
  refine ⟨file, ⟨hfile, ?_⟩, ?_⟩
  · simp [bytesFor, segment, hlen]
  · simp [Checked, bytesFor, segment, hlen, hcrc, crc]

theorem looksUp_two : LooksUp { incId := 8, lastWritedId := 7 } (emptyRequests [2, 7])
    [⟨2, 0, 0, 0, 0⟩, ⟨7, 0, 0, 0, 0⟩] :=
  looksUp rfl (by simp [Increasing]) (by decide) rfl

/-- The id 0 is not counted by the limit, data that is not asked for is missed, and behind the
greatest id the log begins again. -/
theorem getReqLogIdList_not_exact :
    (ReqLogMgr.getReqLogIdList { incId := 1, lastWritedId := 0 } (emptyRequests [0]) 0 5 false =
        .ok ([], []) ∧ headsFrom [⟨0, 0, 0, 0, 0⟩] 0 = [⟨0, 0, 0, 0, 0⟩]) ∧
      (∃ e, ReqLogMgr.getReqLogIdList { incId := 2, lastWritedId := 1 }
        { emptyRequests [1] with dataFiles := ∅ } 1 1 false = .error e) ∧
      readAll { incId := 0, lastWritedId := 4294967295 } (emptyRequests [4294967295]) 1 2 0 =
        .ok [4294967295, 4294967295] := by
  have hincreasing (head : ReqLogHead) : Increasing [head] := pairwise_singleton _ _
  refine ⟨⟨?_, rfl⟩, ⟨"open request log file failed.", ?_⟩, ?_⟩
  · rw [getReqLogIdList_eq_min rfl (hincreasing ⟨0, 0, 0, 0, 0⟩) _ _ _ _ rfl,
      readInTurn_of_readable]
    · rfl
    · intro head hmem
      rw [mem_singleton.mp hmem]
      exact readable_empty [] (by decide) rfl rfl
  · rw [getReqLogIdList_eq_min rfl (hincreasing ⟨1, 0, 0, 0, 0⟩) _ _ _ _ rfl]
    rfl
  · have hlist : ReqLogMgr.getReqLogIdList { incId := 0, lastWritedId := 4294967295 }
        (emptyRequests [4294967295]) 0 1 false = .ok ([4294967295], []) := by
      rw [getReqLogIdList_eq_min rfl (hincreasing ⟨4294967295, 0, 0, 0, 0⟩) _ _ _ _ rfl,
        readInTurn_of_readable]
      · rfl
      · intro head hmem
        rw [mem_singleton.mp hmem]
        exact readable_empty [] (by decide) rfl rfl
    rw [readAll, hlist]
    change Except.map _ (readAll _ _ _ 1 0) = _
    rw [readAll, hlist]
    rfl

/-- After a run that meets its conditions each request that was logged is found by its id. -/
theorem getReqData_logged (basePath : Bool) {calls : List ReqLogCall} {log : ReqLog}
    (hmeet : StepsMeet ReqLog.Step CallOk (ReqLog.start basePath) calls)
    (hrun : Run ReqLog.Step (ReqLog.start basePath) calls log) (k : ℕ) (given : UInt32 × Bytes)
    (hgiven : log.given[k]? = some given) :
    ∃ head, log.dir.heads[k]? = some head ∧
      log.dir.getReqData { incId := given.1 } = .ok (true, placeOf k head, some given.2) := by
  have hok : LogOk log := (holdsAlong_iff_stepsMeet (R := ReqLog.Step) (Q := LogSound)
    (fun _ _ _ hsound hstep => logSound_step hsound hstep)
    (fun _ _ _ hsound hok hstep => logOk_step_iff hsound hok hstep) (logSound_start basePath)
    (logOk_start basePath) calls).mpr hmeet calls [] log (append_nil _) hrun
  have hinc : Increasing log.dir.heads := pairwise_map.mp hok.increasing
  obtain ⟨hk, rfl⟩ := List.getElem?_eq_some_iff.mp hgiven
  have hk' : k < log.dir.heads.length := hok.addressed.length_eq ▸ hk
  have hget := getElem?_eq_getElem hk'
  have haddress := hok.addressed.get hk' hk
  rw [get_eq_getElem, get_eq_getElem] at haddress
  have hlog : log.dir.headLog = some log.dir.heads := by
    cases hlog : log.dir.headLog with
    | none => simp [ReqLogDir.heads, hlog] at hk'
    | some heads => simp [ReqLogDir.heads, hlog]
  rcases getHeadOffset_spec hlog hinc { incId := log.given[k].1 } with
    ⟨hnil, -⟩ | ⟨i, head, hi, hoffset⟩
  · have hmem : log.dir.heads[k] ∈ headsFrom log.dir.heads log.given[k].1 :=
      mem_filter.mpr ⟨getElem_mem hk', by simp [haddress.incId]⟩
    exact absurd (hnil ▸ hmem) not_mem_nil
  · -- no head in front of this one has its id, and none behind it
    have hik : i = k := by
      rcases Nat.lt_trichotomy i k with hlt | heq | hlt
      · have := hinc.lt hlt hi.get hget
        rw [haddress.incId] at this
        exact absurd hi.le (UInt32.not_le.mpr this)
      · exact heq
      · exact absurd haddress.incId (UInt32.ne_of_lt (hi.below k _ hlt hget))
    subst hik
    obtain rfl := Option.some.inj (hget.symm.trans hi.get)
    refine ⟨_, hget, ?_⟩
    rw [ReqLogDir.getHeadOffset] at hoffset
    rw [ReqLogDir.getReqData, hoffset]
    simp [placeOf, haddress.getReqPackedDataByHead, Except.map]

theorem getReqData_loggedOnce : ∃ head, loggedOnce.dir.heads[0]? = some head ∧
    loggedOnce.dir.getReqData { incId := 1 } = .ok (true, placeOf 0 head, some [1]) := by
  refine getReqData_logged false ?_ run_loggedOnce 0 (1, [1]) rfl
  intro as₁ a as₂ s₁ s₂ has hrun _
  rcases hrun with _ | ⟨⟨hfirst, -⟩, _ | _⟩
  · cases has
    exact fun _ => by decide
  · cases has
    cases hfirst
    exact fun _ _ _ _ _ => rfl
  · simp at has

end AdDelivery.NodeManager
