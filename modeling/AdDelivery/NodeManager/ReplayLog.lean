import AdDelivery.NodeManager.RequestHooker
import AdDelivery.NodeManager.RequestLogLookup
import Mathlib.Data.List.TakeWhile

/-!
# Replaying the log

The log of one collection is replayed for another one. The primary tries all requests that can be
replayed, and makes a list of the ids that it has replayed. A replica walks through the same log
and replays what is in the list. It looks for the next id of the list at every request, also behind
the last one.
-/

namespace AdDelivery.NodeManager

open List Prod Option

def replayWriteReqSet : List String :=
  ["documents_set_top_group_label", "documents_log_group_label", "documents_visit",
   "faceted_set_custom_rank", "faceted_set_merchant_score", "faceted_set_ontology",
   "recommend_add_user", "recommend_update_user", "recommend_remove_user",
   "recommend_purchase_item", "recommend_rate_item", "recommend_visit_item",
   "recommend_update_shopping_cart", "recommend_track_event"]

def isReplayWriteReq (controller action : String) : Bool :=
  replayWriteReqSet.contains (controller ++ "_" ++ action)

/-- How the text of a request is read and written. -/
structure JsonRequests (V : Type) where
  read : Bytes → Option V
  isObject : V → Bool
  controller : V → String
  action : V → String
  collection : V → String
  setCollection : V → String → V
  write : V → Bytes

/-- What the handler gets. -/
structure ReplayRequest where
  reqtype : UInt32
  replayJson : Bytes
  reqPackedData : Bytes

/-- The surroundings of a replay. What the handler does is determined by the requests that were
replayed before; an exception counts as a failure. -/
structure Replayer (V : Type) where
  codec : ReqCodec
  json : JsonRequests V
  handleReqFromLog : List ReplayRequest → ReplayRequest → Bool
  fromCol : String
  toCol : String

/-- The ids with the requests that were replayed. -/
abbrev Replayed := List (UInt32 × ReplayRequest)

def replaceCommonReqData (codec : ReqCodec) (oldCommon newCommon : ReqData) (packedData : Bytes) :
    Bytes :=
  codec.packReqLogData newCommon ++ packedData.drop (codec.packReqLogData oldCommon).length

namespace Replayer

variable {V : Type} (replayer : Replayer V)

def isIgnoredType (reqtype : UInt32) : Bool :=
  reqtype == ReqLogType.updateConfig.code || reqtype == ReqLogType.cronJob.code ||
    reqtype == ReqLogType.index.code || reqtype == ReqLogType.callback.code

/-- The request for the other collection. -/
def replayRequest (reqPackedData : Bytes) : Option ReplayRequest := do
  let reqCommondata ← replayer.codec.unpackReqLogData reqPackedData
  if isIgnoredType reqCommondata.reqtype then none
  else
    let requestValue ← replayer.json.read reqCommondata.reqJsonData
    if !replayer.json.isObject requestValue then none
    else if !isReplayWriteReq (replayer.json.controller requestValue)
        (replayer.json.action requestValue) then none
    else if replayer.json.collection requestValue ≠ replayer.fromCol then none
    else
      let replayJson :=
        replayer.json.write (replayer.json.setCollection requestValue replayer.toCol)
      let newCommon := { reqCommondata with reqJsonData := replayJson }
      some
        { reqtype := reqCommondata.reqtype
          replayJson
          reqPackedData := replaceCommonReqData replayer.codec reqCommondata newCommon
            reqPackedData }

/-- The part of a round that both nodes have. -/
def attempt (replayed : Replayed) (head : ReqLogHead) (reqPackedData : Bytes) :
    Option (UInt32 × ReplayRequest) := do
  let request ← replayer.replayRequest reqPackedData
  if replayer.handleReqFromLog (replayed.map snd) request then some (head.incId, request)
  else none

variable (dir : ReqLogDir) (endId : UInt32)

/-- A primary goes on after everything but the end of the log. The offset is moved before the data
is read, so an exception does not hold it up. -/
def replayPrimary : List ReqLogHead → Replayed → Replayed
  | [], replayed => replayed
  | head :: heads, replayed =>
    match dir.getReqPackedDataByHead head with
    | .error _ => replayPrimary heads replayed
    | .ok reqPackedData =>
      if endId < head.incId then replayed
      else replayPrimary heads (replayed ++ (replayer.attempt replayed head reqPackedData).toList)

/-- How the walk of a replica ends. Reading behind the list of ids is undefined. -/
inductive ReplicaWalk
  | outOfBounds
  | ended (replayed : Replayed)

/-- A replica stops at everything that it does not pass over. -/
def replayReplica (replayedIdList : List UInt32) : List ReqLogHead → Replayed → ReplicaWalk
  | [], replayed => .ended replayed
  | head :: heads, replayed =>
    match dir.getReqPackedDataByHead head with
    | .error _ => .ended replayed
    | .ok reqPackedData =>
      if endId < head.incId then .ended replayed
      else
        match replayedIdList[replayed.length]? with
        | none => .outOfBounds
        | some id =>
          if head.incId ≠ id then replayReplica replayedIdList heads replayed
          else
            match replayer.attempt replayed head reqPackedData with
            | none => .ended replayed
            | some entry => replayReplica replayedIdList heads (replayed ++ [entry])

/-- How a replay ends: with the requests that were replayed and the list of ids, or not. -/
inductive ReplayOutcome
  | finished (replayed : Replayed) (replayedIdList : List UInt32)
  | outOfBounds
  | forceExit

/-- The walk starts at the place of the first head, and goes from head to head. -/
def replayLog (mgr : ReqLogMgr) (isPrimary : Bool) (replayedIdList : List UInt32) :
    Except String ReplayOutcome :=
  let endId := mgr.getLastSuccessReqId
  match dir.getHeadOffset { incId := 0 } with
  | .error e => .error e
  | .ok (false, _) => .ok (.finished [] replayedIdList)
  | .ok (true, place) =>
    let heads := dir.heads.drop (place.headoffset / sizeofReqLogHead)
    if isPrimary then
      let replayed := replayer.replayPrimary dir endId heads []
      .ok (.finished replayed (replayedIdList ++ replayed.map fst))
    else if replayedIdList = [] then .ok (.finished [] [])
    else
      match replayer.replayReplica dir endId replayedIdList heads [] with
      | .outOfBounds => .ok .outOfBounds
      | .ended replayed =>
        if replayed.length ≠ replayedIdList.length then .ok .forceExit
        else .ok (.finished replayed replayedIdList)

/-- The heads with data that can be read, up to the last id. -/
def walked (heads : List ReqLogHead) : List ReqLogHead :=
  heads.takeWhile fun head => (dir.getReqPackedDataByHead head).isOk && !(endId < head.incId : Bool)

/-- What is replayed for a head, if its data can be read. -/
def attemptHead (replayed : Replayed) (head : ReqLogHead) : Option (UInt32 × ReplayRequest) :=
  (dir.getReqPackedDataByHead head).toOption.bind (replayer.attempt replayed head)

section Walk

variable {replayer dir endId}

/-- A head that is walked over: its data can be read. -/
def IsWalked (dir : ReqLogDir) (endId : UInt32) (head : ReqLogHead) : Prop :=
  (∃ reqPackedData, dir.getReqPackedDataByHead head = .ok reqPackedData) ∧ ¬endId < head.incId

variable {head : ReqLogHead}

theorem isWalked_of_mem {heads : List ReqLogHead} (hmem : head ∈ walked dir endId heads) :
    IsWalked dir endId head := by
  have htrue := mem_takeWhile_imp hmem
  rw [Bool.and_eq_true, Bool.not_eq_true', decide_eq_false_iff_not] at htrue
  refine ⟨?_, htrue.2⟩
  cases hdata : dir.getReqPackedDataByHead head with
  | error e =>
    rw [hdata] at htrue
    exact Bool.noConfusion htrue.1
  | ok reqPackedData => exact ⟨reqPackedData, rfl⟩

theorem replayPrimary_cons (h : IsWalked dir endId head) (heads : List ReqLogHead)
    (replayed : Replayed) : replayer.replayPrimary dir endId (head :: heads) replayed =
      replayer.replayPrimary dir endId heads
        (replayed ++ (replayer.attemptHead dir replayed head).toList) := by
  obtain ⟨⟨reqPackedData, hdata⟩, hle⟩ := h
  rw [replayPrimary, attemptHead, hdata]
  dsimp only
  rw [if_neg hle]
  rfl

variable {before : List ReqLogHead}

theorem replayPrimary_append (hbefore : ∀ head ∈ before, IsWalked dir endId head)
    (heads : List ReqLogHead) (replayed : Replayed) :
    replayer.replayPrimary dir endId (before ++ heads) replayed =
      replayer.replayPrimary dir endId heads
        (replayer.replayPrimary dir endId before replayed) := by
  induction before generalizing replayed with
  | nil => rfl
  | cons head before ih =>
    obtain ⟨hhead, hrest⟩ := forall_mem_cons.mp hbefore
    rw [cons_append, replayPrimary_cons hhead, replayPrimary_cons hhead, ih hrest]

theorem prefix_replayPrimary (heads : List ReqLogHead) (replayed : Replayed) :
    replayed <+: replayer.replayPrimary dir endId heads replayed := by
  induction heads generalizing replayed with
  | nil => exact prefix_refl _
  | cons head heads ih =>
    rw [replayPrimary]
    split
    · exact ih replayed
    · split
      · exact prefix_refl _
      · exact (prefix_append _ _).trans (ih _)

/-- Behind the part that is walked over, a replica stops. -/
theorem replayReplica_walked (replayedIdList : List UInt32) (heads : List ReqLogHead)
    (replayed : Replayed) :
    replayer.replayReplica dir endId replayedIdList (walked dir endId heads) replayed =
      replayer.replayReplica dir endId replayedIdList heads replayed := by
  induction heads generalizing replayed with
  | nil => rfl
  | cons head heads ih =>
    cases hdata : dir.getReqPackedDataByHead head with
    | error e =>
      have hnil : walked dir endId (head :: heads) = [] := by
        rw [walked, takeWhile_cons_of_neg]
        rw [hdata]
        exact Bool.false_ne_true
      rw [hnil, replayReplica, replayReplica, hdata]
    | ok reqPackedData =>
      by_cases hlt : endId < head.incId
      · have hnil : walked dir endId (head :: heads) = [] := by
          rw [walked]
          simp [hlt]
        rw [hnil, replayReplica, replayReplica, hdata]
        dsimp only
        rw [if_pos hlt]
      · have hcons : walked dir endId (head :: heads) = head :: walked dir endId heads := by
          rw [walked, takeWhile_cons_of_pos]
          · rfl
          · rw [hdata, decide_eq_false hlt]
            rfl
        rw [hcons, replayReplica, replayReplica, hdata]
        simp only [if_neg hlt]
        split
        · rfl
        · split
          · exact ih replayed
          · split
            · rfl
            · exact ih _

/-- What the primary has replayed so far. -/
def replayedOf (replayer : Replayer V) (dir : ReqLogDir) (endId : UInt32)
    (heads : List ReqLogHead) : Replayed :=
  replayer.replayPrimary dir endId heads []

theorem replayedOf_concat (hbefore : ∀ head ∈ before, IsWalked dir endId head)
    (hhead : IsWalked dir endId head) : replayer.replayedOf dir endId (before ++ [head]) =
      replayer.replayedOf dir endId before ++
        (replayer.attemptHead dir (replayer.replayedOf dir endId before) head).toList := by
  rw [replayedOf, replayPrimary_append hbefore, replayPrimary_cons hhead]
  rfl

/-- Behind a head that the primary passes over, another id is still to be replayed. -/
def PassesOver (replayer : Replayer V) (dir : ReqLogDir) (endId : UInt32)
    (replayedIdList : List UInt32) (before heads : List ReqLogHead) : Prop :=
  ∀ front head after, heads = front ++ head :: after →
    replayer.attemptHead dir (replayer.replayedOf dir endId (before ++ front)) head = none →
    ∃ id, replayedIdList[(replayer.replayedOf dir endId (before ++ front)).length]? = some id ∧
      id ≠ head.incId

variable {replayedIdList : List UInt32}

theorem passesOver_nil : PassesOver replayer dir endId replayedIdList before [] := by
  intro front head after heq
  exact absurd heq (by simp)

theorem passesOver_cons {before heads : List ReqLogHead} :
    PassesOver replayer dir endId replayedIdList before (head :: heads) ↔
      (replayer.attemptHead dir (replayer.replayedOf dir endId before) head = none →
        ∃ id, replayedIdList[(replayer.replayedOf dir endId before).length]? = some id ∧
          id ≠ head.incId) ∧
        PassesOver replayer dir endId replayedIdList (before ++ [head]) heads := by
  constructor
  · intro h
    refine ⟨fun hnone => ?_, fun front other after heq hnone => ?_⟩
    · have hhead := h [] head heads rfl
      rw [append_nil] at hhead
      exact hhead hnone
    · have hother := h (head :: front) other after (by rw [heq]; rfl)
      rw [append_assoc] at hnone ⊢
      exact hother hnone
  · rintro ⟨hhead, hrest⟩ front other after heq hnone
    cases front with
    | nil =>
      obtain ⟨rfl, rfl⟩ := List.cons.inj heq
      rw [append_nil] at hnone ⊢
      exact hhead hnone
    | cons first front =>
      obtain ⟨rfl, rfl⟩ := List.cons.inj heq
      have hother := hrest front other after rfl
      rw [append_assoc] at hother
      exact hother hnone

/-- One round of a replica, at a head that is walked over. -/
theorem replayReplica_cons (h : IsWalked dir endId head) (replayedIdList : List UInt32)
    (heads : List ReqLogHead) (replayed : Replayed) :
    replayer.replayReplica dir endId replayedIdList (head :: heads) replayed =
      match replayedIdList[replayed.length]? with
      | none => .outOfBounds
      | some id =>
        if head.incId ≠ id then replayer.replayReplica dir endId replayedIdList heads replayed
        else
          match replayer.attemptHead dir replayed head with
          | none => .ended replayed
          | some entry =>
            replayer.replayReplica dir endId replayedIdList heads (replayed ++ [entry]) := by
  obtain ⟨⟨reqPackedData, hdata⟩, hle⟩ := h
  rw [replayReplica, attemptHead, hdata]
  dsimp only
  rw [if_neg hle]
  rfl

/-- The id of what is replayed is the one of its head. -/
theorem fst_of_attemptHead {replayed : Replayed} {entry : UInt32 × ReplayRequest}
    (h : replayer.attemptHead dir replayed head = some entry) : entry.1 = head.incId := by
  obtain ⟨reqPackedData, -, hattempt⟩ := bind_eq_some_iff.mp h
  obtain ⟨request, -, hentry⟩ := bind_eq_some_iff.mp hattempt
  split at hentry
  · rw [← some.inj hentry]
  · cases hentry

theorem replayedOf_append_extends (hbefore : ∀ head ∈ before, IsWalked dir endId head)
    (heads : List ReqLogHead) :
    replayer.replayedOf dir endId before <+: replayer.replayedOf dir endId (before ++ heads) := by
  rw [replayedOf, replayedOf, replayPrimary_append hbefore]
  exact prefix_replayPrimary heads _

/-- A replica that has kept up with the primary so far replays all the rest if and only if it
passes over what the primary has passed over, and the primary has not replayed more. -/
theorem replayReplica_eq_ended_iff {all : Replayed} {before heads : List ReqLogHead}
    (hbefore : ∀ head ∈ before, IsWalked dir endId head)
    (hheads : ∀ head ∈ heads, IsWalked dir endId head)
    (hbegins : replayer.replayedOf dir endId (before ++ heads) <+: all) :
    replayer.replayReplica dir endId (all.map fst) heads
        (replayer.replayedOf dir endId before) = .ended all ↔
      PassesOver replayer dir endId (all.map fst) before heads ∧
        replayer.replayedOf dir endId (before ++ heads) = all := by
  induction heads generalizing before with
  | nil =>
    rw [append_nil, and_iff_right passesOver_nil]
    exact ⟨ReplicaWalk.ended.inj, congrArg ReplicaWalk.ended⟩
  | cons head heads ih =>
    obtain ⟨hhead, hrest⟩ := forall_mem_cons.mp hheads
    have hsplit : before ++ head :: heads = before ++ [head] ++ heads := by simp
    have hnext : ∀ head' ∈ before ++ [head], IsWalked dir endId head' := by
      intro head' hmem
      rcases mem_append.mp hmem with hmem | hmem
      · exact hbefore head' hmem
      · obtain rfl := mem_singleton.mp hmem
        exact hhead
    rw [hsplit] at hbegins ⊢
    have ih := ih hnext hrest hbegins
    have hconcat := @replayedOf_concat _ replayer _ _ _ _ hbefore hhead
    rw [replayReplica_cons hhead, passesOver_cons]
    cases hattempt : replayer.attemptHead dir (replayer.replayedOf dir endId before) head with
    | some entry =>
      -- the primary has replayed it, so its id is the next one of the list
      rw [hattempt, toList_some] at hconcat
      have hle := (replayedOf_append_extends hnext heads).trans hbegins
      rw [hconcat] at hle
      have hget : (all.map fst)[(replayer.replayedOf dir endId before).length]? =
          some head.incId := by
        obtain ⟨rest, rfl⟩ := hle
        simp [fst_of_attemptHead hattempt]
      rw [hget]
      dsimp only
      rw [if_neg (not_not_intro rfl), ← hconcat, ih]
      simp only [reduceCtorEq, false_imp_iff, true_and]
    | none =>
      rw [hattempt, toList_none, append_nil] at hconcat
      rw [hconcat] at ih
      cases hget : (all.map fst)[(replayer.replayedOf dir endId before).length]? with
      | none =>
        refine iff_of_false (fun h => ReplicaWalk.noConfusion h) ?_
        rintro ⟨⟨hhas, -⟩, -⟩
        obtain ⟨id, hid, -⟩ := hhas rfl
        cases hid
      | some id =>
        dsimp only
        by_cases hid : head.incId = id
        · rw [if_neg (not_not_intro hid)]
          -- it is tried again, and fails as it did on the primary
          refine iff_of_false ?_ ?_
          · intro h
            have hall := ReplicaWalk.ended.inj h
            rw [hall, getElem?_eq_none (by simp)] at hget
            cases hget
          · rintro ⟨⟨hhas, -⟩, -⟩
            obtain ⟨id', hid', hne⟩ := hhas rfl
            exact hne (some.inj hid' ▸ hid.symm)
        · rw [if_pos hid, ih]
          have hpasses : (none : Option (UInt32 × ReplayRequest)) = none →
              ∃ id', some id = some id' ∧ id' ≠ head.incId := fun _ => ⟨id, rfl, Ne.symm hid⟩
          rw [and_iff_right hpasses]

end Walk

section Both

variable {replayer dir endId} (heads : List ReqLogHead)

/-- The walk of the primary comes to the end of the readable part, and perhaps goes on behind it. -/
theorem replayedOf_walked_extends : replayer.replayedOf dir endId (walked dir endId heads) <+:
      replayer.replayedOf dir endId heads := by
  have hsplit : walked dir endId heads ++ heads.dropWhile _ = heads :=
    takeWhile_append_dropWhile
  conv_rhs => rw [← hsplit]
  exact replayedOf_append_extends (fun head hmem => isWalked_of_mem hmem) _

/-- From the first head on, a replica with the list of the primary. -/
theorem replayReplica_follows_iff :
    replayer.replayReplica dir endId ((replayer.replayedOf dir endId heads).map fst) heads
        [] = .ended (replayer.replayedOf dir endId heads) ↔
      PassesOver replayer dir endId ((replayer.replayedOf dir endId heads).map fst) []
          (walked dir endId heads) ∧ replayer.replayedOf dir endId (walked dir endId heads) =
          replayer.replayedOf dir endId heads := by
  rw [← replayReplica_walked]
  exact replayReplica_eq_ended_iff (fun head hmem => absurd hmem not_mem_nil)
    (fun head hmem => isWalked_of_mem hmem) (replayedOf_walked_extends heads)

end Both

/-- The heads from the place where a replay starts. -/
def headsToReplay : List ReqLogHead :=
  match dir.getHeadOffset { incId := 0 } with
  | .ok (true, place) => dir.heads.drop (place.headoffset / sizeofReqLogHead)
  | _ => []

/-- A replica can follow a primary that has replayed nothing. Otherwise nothing that the primary
passes over may come after the last request that it replays, or have the id of the next one, and
it must not have replayed anything behind a request that cannot be read. -/
def CanFollow (mgr : ReqLogMgr) : Prop :=
  replayer.replayedOf dir mgr.getLastSuccessReqId (headsToReplay dir) = [] ∨
    PassesOver replayer dir mgr.getLastSuccessReqId
        ((replayer.replayedOf dir mgr.getLastSuccessReqId (headsToReplay dir)).map fst) []
        (walked dir mgr.getLastSuccessReqId (headsToReplay dir)) ∧
      replayer.replayedOf dir mgr.getLastSuccessReqId
          (walked dir mgr.getLastSuccessReqId (headsToReplay dir)) =
        replayer.replayedOf dir mgr.getLastSuccessReqId (headsToReplay dir)

variable {replayer dir} {mgr : ReqLogMgr}

/-- A replica follows the primary if and only if it can. -/
theorem replayLog_follows_iff (replayer : Replayer V) (dir : ReqLogDir) (mgr : ReqLogMgr)
    {replayed : Replayed} {replayedIdList : List UInt32}
    (hprimary : replayer.replayLog dir mgr true [] = .ok (.finished replayed replayedIdList)) :
    replayer.replayLog dir mgr false replayedIdList = .ok (.finished replayed replayedIdList) ↔
      replayer.CanFollow dir mgr := by
  rw [replayLog] at hprimary ⊢
  rw [CanFollow]
  cases hoffset : dir.getHeadOffset { incId := 0 } with
  | error e =>
    rw [hoffset] at hprimary
    cases hprimary
  | ok found =>
    obtain ⟨hasHead, place⟩ := found
    rw [hoffset] at hprimary
    cases hasHead with
    | false =>
      have hnil : headsToReplay dir = [] := by rw [headsToReplay, hoffset]
      cases hprimary
      rw [hnil]
      exact iff_of_true rfl (.inl rfl)
    | true =>
      have hheads : headsToReplay dir = dir.heads.drop (place.headoffset / sizeofReqLogHead) := by
        rw [headsToReplay, hoffset]
      dsimp only at hprimary ⊢
      rw [← hheads, nil_append] at hprimary
      obtain ⟨hreplayed, hids⟩ := ReplayOutcome.finished.inj (Except.ok.inj hprimary)
      rw [← hheads, ← hids, ← hreplayed, if_neg Bool.false_ne_true]
      generalize headsToReplay dir = heads
      generalize hend : mgr.getLastSuccessReqId = endId
      by_cases hnil : replayer.replayedOf dir endId heads = []
      · have hnil' : replayer.replayPrimary dir endId heads [] = [] := hnil
        rw [hnil', map_nil]
        exact iff_of_true rfl (.inl hnil)
      · have hmap : (replayer.replayPrimary dir endId heads []).map fst ≠ [] := by
          rw [ne_eq, map_eq_nil_iff]
          exact hnil
        have hfollows := @replayReplica_follows_iff _ replayer dir endId heads
        rw [if_neg hmap, or_iff_right hnil, ← hfollows]
        change _ ↔ replayer.replayReplica dir endId
          ((replayer.replayPrimary dir endId heads []).map fst) heads [] =
            .ended (replayer.replayPrimary dir endId heads [])
        generalize replayer.replayPrimary dir endId heads [] = all
        cases replayer.replayReplica dir endId (all.map fst) heads [] with
        | outOfBounds => exact iff_of_false (fun h => by cases h) (fun h => by cases h)
        | ended replayed' =>
          dsimp only
          constructor
          · intro h
            split at h
            · cases h
            · obtain ⟨rfl, -⟩ := ReplayOutcome.finished.inj (Except.ok.inj h)
              rfl
          · intro h
            obtain rfl := ReplicaWalk.ended.inj h
            rw [if_neg (by simp)]

end Replayer

/-- A request is packed as its type and its text. -/
def byteCodec : ReqCodec where
  packReqLogData reqdata := reqdata.reqtype.toUInt8 :: reqdata.reqJsonData
  unpackReqLogData
    | [] => none
    | reqtype :: reqJsonData => some { reqtype := reqtype.toUInt32, reqJsonData }
  pack_ne_nil _ := cons_ne_nil _ _

/-- All requests are visits of one collection, and the handler succeeds. -/
def visitReplayer : Replayer Bytes where
  codec := byteCodec
  json :=
    { read := some
      isObject := fun _ => true
      controller := fun _ => "documents"
      action := fun _ => "visit"
      collection := fun _ => "from"
      setCollection := fun value _ => value
      write := id }
  handleReqFromLog _ _ := true
  fromCol := "from"
  toCol := "to"

/-- A log of requests with these ids and data. -/
def logOf (records : List (UInt32 × Bytes)) : ReqLogDir :=
  records.foldl (fun dir record => appended dir { incId := record.1 } record.2) {}

theorem getHeadOffset_zero {dir : ReqLogDir} {heads : List ReqLogHead} {head : ReqLogHead}
    (hlog : dir.headLog = some (head :: heads)) (h : Increasing (head :: heads)) :
    dir.getHeadOffset { incId := 0 } = .ok (true, placeOf 0 head) := by
  rcases getHeadOffset_spec hlog h { incId := 0 } with ⟨hnil, -⟩ | ⟨i, first, hfirst, hoffset⟩
  · exact absurd hnil (cons_ne_nil _ _)
  · cases i with
    | zero =>
      obtain rfl := some.inj hfirst.get
      exact hoffset
    | succ i => exact absurd (hfirst.below 0 head (Nat.succ_pos i) rfl) (UInt32.not_lt_zero)

/-- One visit is replayed by both nodes. -/
theorem replayLog_follows_visit :
    visitReplayer.CanFollow (logOf [(1, [1])]) { lastWritedId := 1 } := by
  have hoffset : (logOf [(1, [1])]).getHeadOffset { incId := 0 } = _ :=
    getHeadOffset_zero rfl (pairwise_singleton _ _)
  have hprimary : visitReplayer.replayLog (logOf [(1, [1])]) { lastWritedId := 1 } true [] =
      .ok (.finished [(1, ⟨1, [], [1]⟩)] [1]) := by
    rw [Replayer.replayLog, hoffset]
    rfl
  refine (visitReplayer.replayLog_follows_iff _ _ hprimary).mp ?_
  rw [Replayer.replayLog, hoffset]
  rfl

/-- Behind the visit the log has a cron job, which the primary passes over. The replica looks for
an id behind the end of the list. -/
theorem not_replayLog_follows_cronJob :
    ¬∀ (dir : ReqLogDir) (mgr : ReqLogMgr) (replayed : Replayed) (replayedIdList : List UInt32),
      visitReplayer.replayLog dir mgr true [] = .ok (.finished replayed replayedIdList) →
      visitReplayer.replayLog dir mgr false replayedIdList =
        .ok (.finished replayed replayedIdList) := by
  intro h
  have hoffset : (logOf [(1, [1]), (2, [4])]).getHeadOffset { incId := 0 } = _ :=
    getHeadOffset_zero rfl (pairwise_pair.mpr (by decide))
  have hprimary : visitReplayer.replayLog (logOf [(1, [1]), (2, [4])]) { lastWritedId := 2 } true
      [] = .ok (.finished [(1, ⟨1, [], [1]⟩)] [1]) := by
    rw [Replayer.replayLog, hoffset]
    rfl
  have hreplica : visitReplayer.replayLog (logOf [(1, [1]), (2, [4])]) { lastWritedId := 2 } false
      [1] = .ok .outOfBounds := by
    rw [Replayer.replayLog, hoffset]
    rfl
  have hfollows := h _ _ _ _ hprimary
  rw [hreplica] at hfollows
  cases hfollows

end AdDelivery.NodeManager
