import AdDelivery.Core.Table

/-!
# Files for a migration

A node asks all sources for the files of their virtual nodes, and collects the answers. It only
counts them: an answer does not say which call it is for, and nothing looks at its host.
-/

namespace AdDelivery.NodeManager

open List Table Option Finmap

variable {Shard VNode : Type}

abbrev VNodeList (Shard VNode : Type) := Table Shard (List VNode)

/-- The paths of the files to insert and to delete, by the shard that they are for. -/
structure GeneratedScds (Shard : Type) where
  insertScds : Table Shard String := ∅
  delScds : Table Shard String := ∅

structure GenerateSCDRspData (Shard : Type) where
  rspHost : String
  success : Bool
  scds : GeneratedScds Shard

/-- The files that were collected. -/
structure CollectedScds (Shard : Type) where
  generatedInsertScds : Table Shard (List String) := ∅
  generatedDelScds : Table Shard (List String) := ∅

/-- The nodes of a call: whether this one has what the call needs, how a request for a host ends
(an exception, or the answer whether it is accepted), and what the generator does on each host for
this call. -/
structure MigrateHosts (Shard VNode : Type) where
  isEnabled : Bool
  localHostIP : String
  syncRequest : String → Option Bool
  scdGenerator : String → VNodeList Shard VNode → Option (GeneratedScds Shard)

/-- An answer that comes in: the one of a host for this call, or one for an earlier call. -/
inductive ScdAnswer (Shard : Type)
  | now (host : String)
  | late (rspdata : GenerateSCDRspData Shard)

/-- A number of waits until there are answers. -/
structure WaitRound (Shard : Type) where
  waits : ℕ
  first : ScdAnswer Shard
  others : List (ScdAnswer Shard)

def WaitRound.answers (round : WaitRound Shard) : List (ScdAnswer Shard) :=
  round.first :: round.others

namespace MigrateHosts

variable (hosts : MigrateHosts Shard VNode) (sources : Table String (VNodeList Shard VNode))

/-- The number of answers to wait for, and what is to be generated on this node. -/
def sendRequests : List (String × VNodeList Shard VNode) → ℕ → VNodeList Shard VNode →
    Option (ℕ × VNodeList Shard VNode)
  | [], waitNum, localScds => some (waitNum, localScds)
  | (host, vnodes) :: rest, waitNum, localScds =>
    if host = hosts.localHostIP then sendRequests rest waitNum vnodes
    else
      match hosts.syncRequest host with
      | none => none
      | some rspRet => sendRequests rest (if rspRet then waitNum + 1 else waitNum) localScds

/-- What a source sends when it is done. -/
def doGenMigrateSCD (host : String) : GenerateSCDRspData Shard :=
  match hosts.scdGenerator host (sources.get host) with
  | some scds => { rspHost := host, success := true, scds }
  | none => { rspHost := host, success := false, scds := {} }

def rspdata : ScdAnswer Shard → GenerateSCDRspData Shard
  | .now host => hosts.doGenMigrateSCD sources host
  | .late rspdata => rspdata

/-- The sources on other nodes. -/
def remotes : List String := sources.sortedKeys.filter fun host => host ≠ hosts.localHostIP

/-- The answers until there are as many as requests were accepted, whole rounds of them. -/
def taken : ℕ → List (WaitRound Shard) → List (ScdAnswer Shard)
  | 0, _ => []
  | _ + 1, [] => []
  | waitNum + 1, round :: rounds =>
    round.answers ++ taken (waitNum + 1 - round.answers.length) rounds

def nowHost : ScdAnswer Shard → Option String
  | .now host => some host
  | .late _ => none

def lateScds : ScdAnswer Shard → Option (GeneratedScds Shard)
  | .now _ => none
  | .late rspdata => some rspdata.scds

def acceptedNum : ℕ :=
  (hosts.remotes sources).countP fun host => hosts.syncRequest host = some true

/-- A host answers a call once, and only if it has accepted the request. -/
structure AnswersOnce (rounds : List (WaitRound Shard)) : Prop where
  nodup : ((rounds.flatMap WaitRound.answers).filterMap nowHost).Nodup
  accepted : ∀ host ∈ (rounds.flatMap WaitRound.answers).filterMap nowHost,
    host ∈ hosts.remotes sources ∧ hosts.syncRequest host = some true

/-- The sources whose answers for this call are not taken. -/
def untaken (rounds : List (WaitRound Shard)) : List String :=
  (hosts.remotes sources).filter fun host =>
    host ∉ (taken (hosts.acceptedNum sources) rounds).filterMap nowHost

variable {hosts sources}

theorem mem_remotes {host : String} :
    host ∈ hosts.remotes sources ↔ host ∈ sources ∧ host ≠ hosts.localHostIP := by
  rw [remotes, mem_filter, mem_sortedKeys, decide_eq_true_eq]

theorem sendRequests_spec {entries : List (String × VNodeList Shard VNode)} {waitNum n : ℕ}
    {localScds scds : VNodeList Shard VNode}
    (h : hosts.sendRequests entries waitNum localScds = some (n, scds)) :
    n = waitNum + ((entries.map Prod.fst).filter fun host => host ≠ hosts.localHostIP).countP
        (fun host => hosts.syncRequest host = some true) ∧
      (hosts.localHostIP ∉ entries.map Prod.fst → scds = localScds) ∧
      ∀ vnodes, (hosts.localHostIP, vnodes) ∈ entries → (entries.map Prod.fst).Nodup →
        scds = vnodes := by
  induction entries generalizing waitNum localScds with
  | nil =>
    obtain ⟨rfl, rfl⟩ := Prod.mk.inj (Option.some.inj h)
    exact ⟨rfl, fun _ => rfl, nofun⟩
  | cons entry entries ih =>
    obtain ⟨host, vnodes⟩ := entry
    rw [sendRequests] at h
    by_cases hlocal : host = hosts.localHostIP
    · rw [if_pos hlocal] at h
      obtain ⟨hn, hkeep, -⟩ := ih h
      subst hlocal
      refine ⟨?_, fun hmem => absurd mem_cons_self hmem, fun vnodes' hmem hnodup => ?_⟩
      · rw [hn, map_cons, filter_cons_of_neg (by simp)]
      · have hnotMem := (nodup_cons.mp hnodup).1
        rw [hkeep hnotMem]
        rcases mem_cons.mp hmem with heq | hmem
        · exact (Prod.mk.inj heq).2.symm
        · exact absurd (mem_map_of_mem hmem) hnotMem
    · rw [if_neg hlocal] at h
      have hne : host ≠ hosts.localHostIP := hlocal
      cases hrequest : hosts.syncRequest host with
      | none =>
        rw [hrequest] at h
        cases h
      | some rspRet =>
        rw [hrequest] at h
        obtain ⟨hn, hkeep, hset⟩ := ih h
        refine ⟨?_, fun hmem => hkeep (not_mem_of_not_mem_cons hmem), ?_⟩
        · have hcons :
              ((host :: entries.map Prod.fst).filter fun host => host ≠ hosts.localHostIP) =
              host :: (entries.map Prod.fst).filter fun host => host ≠ hosts.localHostIP :=
            filter_cons_of_pos (decide_eq_true hne)
          rw [hn, map_cons, hcons, countP_cons, hrequest]
          cases rspRet with
          | false => rfl
          | true =>
            simp only [if_true, decide_true]
            omega
        · intro vnodes' hmem hnodup
          rcases mem_cons.mp hmem with heq | hmem
          · exact absurd (Prod.mk.inj heq).1.symm hlocal
          · exact hset vnodes' hmem (nodup_cons.mp hnodup).2

/-- From the sources in their order. -/
theorem sendRequests_inOrder {n : ℕ} {scds : VNodeList Shard VNode}
    (h : hosts.sendRequests sources.inOrder 0 ∅ = some (n, scds)) :
    n = hosts.acceptedNum sources ∧ scds = sources.get hosts.localHostIP := by
  obtain ⟨hn, hkeep, hset⟩ := sendRequests_spec h
  have hkeys : sources.inOrder.map Prod.fst = sources.sortedKeys := by
    rw [inOrder_eq_map, List.map_map]
    exact map_id _
  rw [hkeys] at hn hkeep hset
  refine ⟨by rw [hn, Nat.zero_add]; rfl, ?_⟩
  cases hlookup : sources.lookup hosts.localHostIP with
  | none =>
    have hnotMem := lookup_eq_none.mp hlookup
    rw [hkeep fun hmem => hnotMem (mem_sortedKeys.mp hmem), get_eq_default hnotMem]
    rfl
  | some vnodes =>
    rw [hset vnodes (Table.mem_inOrder.mpr hlookup)
      (sources.pairwise_sortedKeys.imp fun hlt => ne_of_lt hlt), Table.get, hlookup,
      Option.getD_some]

theorem taken_sublist (waitNum : ℕ) (rounds : List (WaitRound Shard)) :
    (taken waitNum rounds).Sublist (rounds.flatMap WaitRound.answers) := by
  induction rounds generalizing waitNum with
  | nil => cases waitNum <;> exact nil_sublist _
  | cons round rounds ih =>
    cases waitNum with
    | zero => exact nil_sublist _
    | succ waitNum => exact (Sublist.refl _).append (ih _)

/-- The sources are this node, those whose answers are taken, and the others. -/
theorem sources_perm {rounds : List (WaitRound Shard)}
    (hanswers : hosts.AnswersOnce sources rounds) : sources.sortedKeys.Perm
      (sources.sortedKeys.filter (fun host => host = hosts.localHostIP) ++
        ((taken (hosts.acceptedNum sources) rounds).filterMap nowHost ++
          hosts.untaken sources rounds)) := by
  have hsublist := (taken_sublist (hosts.acceptedNum sources) rounds).filterMap nowHost
  have hkeys : sources.sortedKeys.Nodup := sources.pairwise_sortedKeys.imp fun hlt => ne_of_lt hlt
  have hlocal := (filter_append_perm (fun host => decide (host = hosts.localHostIP))
    sources.sortedKeys).symm
  refine hlocal.trans (Perm.append_left _ ?_)
  have hremotes : sources.sortedKeys.filter (fun host => !decide (host = hosts.localHostIP)) =
      hosts.remotes sources :=
    filter_congr fun host _ => decide_not.symm
  rw [hremotes, untaken]
  generalize (taken (hosts.acceptedNum sources) rounds).filterMap nowHost = nows at hsublist ⊢
  have hnodup : (hosts.remotes sources).Nodup := hkeys.filter _
  have hdisjoint : List.Disjoint nows ((hosts.remotes sources).filter fun host => host ∉ nows) :=
    fun host hnow hfilter => of_decide_eq_true (mem_filter.mp hfilter).2 hnow
  refine (perm_ext_iff_of_nodup hnodup
    ((hsublist.nodup hanswers.nodup).append (hnodup.filter _) hdisjoint)).mpr fun host => ?_
  rw [mem_append, mem_filter, decide_eq_true_eq]
  constructor
  · intro hremote
    by_cases hnow : host ∈ nows
    · exact .inl hnow
    · exact .inr ⟨hremote, hnow⟩
  · rintro (hnow | ⟨hremote, -⟩)
    · exact (hanswers.accepted host (hsublist.subset hnow)).1
    · exact hremote

end MigrateHosts

variable [LinearOrder Shard]

def pushScds (collected : Table Shard (List String)) (scds : Table Shard String) :
    Table Shard (List String) :=
  scds.inOrder.foldl (fun collected entry => collected.update entry.1 (· ++ [entry.2])) collected

def CollectedScds.push (collected : CollectedScds Shard) (scds : GeneratedScds Shard) :
    CollectedScds Shard where
  generatedInsertScds := pushScds collected.generatedInsertScds scds.insertScds
  generatedDelScds := pushScds collected.generatedDelScds scds.delScds

open GeneratedScds

open CollectedScds

namespace MigrateHosts

variable (hosts : MigrateHosts Shard VNode) (sources : Table String (VNodeList Shard VNode))

/-- The loop. Without further answers it comes to its end by waiting. -/
def waitAnswers : ℕ → ℕ → List (WaitRound Shard) → CollectedScds Shard →
    Option (CollectedScds Shard)
  | 0, _, _, collected => some collected
  | _ + 1, _, [], _ => none
  | waitNum + 1, maxWait, round :: rounds, collected =>
    if maxWait < round.waits then none
    else
      let rspdata := round.answers.map (hosts.rspdata sources)
      if rspdata.all GenerateSCDRspData.success then
        waitAnswers (waitNum + 1 - rspdata.length) 30 rounds
          ((rspdata.map GenerateSCDRspData.scds).foldl push collected)
      else none

/-- What this node generates itself. -/
def collectLocal (localScds : VNodeList Shard VNode) : Option (CollectedScds Shard) :=
  if localScds.keys = ∅ then some {}
  else (hosts.scdGenerator hosts.localHostIP localScds).map ({} : CollectedScds Shard).push

/-- The list of answers is cleared before the first request. A call that fails gives nothing. -/
def generateMigrateScds (rounds : List (WaitRound Shard)) : Option (CollectedScds Shard) := do
  guard hosts.isEnabled
  let (waitNum, localScds) ← hosts.sendRequests sources.inOrder 0 ∅
  let collected ← hosts.collectLocal localScds
  hosts.waitAnswers sources waitNum 500 rounds collected

/-- The files of a source for this call. A host that refuses the request generates none. -/
def generatedFor (host : String) : Option (GeneratedScds Shard) :=
  if host = hosts.localHostIP then
    if (sources.get host).keys = ∅ then some {} else hosts.scdGenerator host (sources.get host)
  else if hosts.syncRequest host = some true then hosts.scdGenerator host (sources.get host)
  else none

/-- The files of some sources for a shard, insert files or others. -/
def filesFor (kind : GeneratedScds Shard → Table Shard String) (shard : Shard)
    (sourceHosts : List String) : List String :=
  sourceHosts.filterMap fun host =>
    (hosts.generatedFor sources host).bind fun scds => (kind scds).lookup shard

/-- Every source has generated its files, and they are what was collected. -/
structure Complete (collected : CollectedScds Shard) : Prop where
  generated : ∀ host ∈ sources, hosts.generatedFor sources host ≠ none
  insertScds : ∀ shard, (collected.generatedInsertScds.get shard).Perm
    (hosts.filesFor sources insertScds shard sources.sortedKeys)
  delScds : ∀ shard, (collected.generatedDelScds.get shard).Perm
    (hosts.filesFor sources delScds shard sources.sortedKeys)

/-- The files that the late answers name among those that are taken. -/
def lateFilesFor (kind : GeneratedScds Shard → Table Shard String) (shard : Shard)
    (rounds : List (WaitRound Shard)) : List String :=
  ((taken (hosts.acceptedNum sources) rounds).filterMap lateScds).filterMap fun scds =>
    (kind scds).lookup shard

/-- No source refuses the request or fails, and late answers are taken only as far as they name
the same files as the answers for this call that are left. -/
structure AnswersMatch (rounds : List (WaitRound Shard)) : Prop where
  generated : ∀ host ∈ hosts.remotes sources, hosts.generatedFor sources host ≠ none
  insertScds : ∀ shard, (hosts.lateFilesFor sources insertScds shard rounds).Perm
    (hosts.filesFor sources insertScds shard (hosts.untaken sources rounds))
  delScds : ∀ shard, (hosts.lateFilesFor sources delScds shard rounds).Perm
    (hosts.filesFor sources delScds shard (hosts.untaken sources rounds))

variable {hosts sources} {rounds : List (WaitRound Shard)}
  {kind : GeneratedScds Shard → Table Shard String} {shard : Shard}

theorem waitAnswers_eq_some {waitNum maxWait : ℕ} {rounds : List (WaitRound Shard)}
    {collected collected' : CollectedScds Shard}
    (h : hosts.waitAnswers sources waitNum maxWait rounds collected = some collected') :
    (∀ answer ∈ taken waitNum rounds, (hosts.rspdata sources answer).success = true) ∧
      collected' = ((taken waitNum rounds).map fun answer =>
        (hosts.rspdata sources answer).scds).foldl push collected := by
  induction rounds generalizing waitNum maxWait collected with
  | nil =>
    cases waitNum with
    | zero => exact ⟨nofun, (some.inj h).symm⟩
    | succ waitNum => cases h
  | cons round rounds ih =>
    cases waitNum with
    | zero => exact ⟨nofun, (some.inj h).symm⟩
    | succ waitNum =>
      rw [waitAnswers] at h
      split at h
      · cases h
      · dsimp only at h
        split at h
        · rename_i hall
          obtain ⟨hsuccess, hcollected⟩ := ih h
          rw [List.length_map] at hsuccess hcollected
          rw [taken]
          refine ⟨fun answer hmem => ?_, ?_⟩
          · rcases mem_append.mp hmem with hmem | hmem
            · exact all_eq_true.mp hall _ (mem_map_of_mem hmem)
            · exact hsuccess answer hmem
          · rw [hcollected, map_append, foldl_append, List.map_map]
            rfl
        · cases h

theorem get_pushScds (collected : Table Shard (List String)) (scds : Table Shard String)
    (shard : Shard) :
    (pushScds collected scds).get shard = collected.get shard ++ (scds.lookup shard).toList := by
  rw [pushScds, get_foldl_inOrder collected scds fun paths path => paths ++ [path]]
  cases scds.lookup shard with
  | none => exact (append_nil _).symm
  | some path => rfl

/-- What a number of answers adds to a shard. -/
theorem get_foldl_push (answers : List (GeneratedScds Shard)) (collected : CollectedScds Shard)
    (shard : Shard) : (answers.foldl push collected).generatedInsertScds.get shard =
        collected.generatedInsertScds.get shard ++
          answers.filterMap (fun scds => scds.insertScds.lookup shard) ∧
      (answers.foldl push collected).generatedDelScds.get shard =
        collected.generatedDelScds.get shard ++
          answers.filterMap (fun scds => scds.delScds.lookup shard) := by
  induction answers generalizing collected with
  | nil => exact ⟨(append_nil _).symm, (append_nil _).symm⟩
  | cons scds answers ih =>
    obtain ⟨hinsert, hdel⟩ := ih (collected.push scds)
    rw [foldl_cons, hinsert, hdel, push, get_pushScds, get_pushScds,
      filterMap_cons, filterMap_cons]
    constructor
    · cases scds.insertScds.lookup shard <;> simp
    · cases scds.delScds.lookup shard <;> simp

/-- The files that are taken are those of answers for this call, and those of late ones. -/
theorem takenFiles_perm {answers : List (ScdAnswer Shard)}
    (hsuccess : ∀ answer ∈ answers, (hosts.rspdata sources answer).success = true)
    (haccepted : ∀ host ∈ answers.filterMap nowHost,
      host ∈ hosts.remotes sources ∧ hosts.syncRequest host = some true) :
    (answers.filterMap fun answer => (kind (hosts.rspdata sources answer).scds).lookup shard).Perm
      (hosts.filesFor sources kind shard (answers.filterMap nowHost) ++
        (answers.filterMap lateScds).filterMap fun scds => (kind scds).lookup shard) := by
  induction answers with
  | nil => exact .refl _
  | cons answer answers ih =>
    obtain ⟨hhead, hrest⟩ := forall_mem_cons.mp hsuccess
    cases answer with
    | now host =>
      have hcons : (ScdAnswer.now host :: answers).filterMap nowHost =
          host :: answers.filterMap nowHost := rfl
      rw [hcons] at haccepted ⊢
      obtain ⟨⟨hremote, hrequest⟩, haccepted⟩ := forall_mem_cons.mp haccepted
      have hfiles : (kind (hosts.rspdata sources (.now host)).scds).lookup shard =
          (hosts.generatedFor sources host).bind fun scds => (kind scds).lookup shard := by
        rw [generatedFor, if_neg (mem_remotes.mp hremote).2, if_pos hrequest]
        rw [rspdata, doGenMigrateSCD] at hhead ⊢
        cases hgenerated : hosts.scdGenerator host (sources.get host) with
        | none =>
          rw [hgenerated] at hhead
          cases hhead
        | some scds => rfl
      have ih := ih hrest haccepted
      rw [filterMap_cons, hfiles, filesFor, filterMap_cons]
      cases (hosts.generatedFor sources host).bind fun scds => (kind scds).lookup shard with
      | none => exact ih
      | some path => exact ih.cons path
    | late rspdata =>
      have ih := ih hrest haccepted
      have hnow : (ScdAnswer.late rspdata :: answers).filterMap nowHost =
          answers.filterMap nowHost := rfl
      have hlate : (ScdAnswer.late rspdata :: answers).filterMap lateScds =
          rspdata.scds :: answers.filterMap lateScds := rfl
      have hscds : (hosts.rspdata sources (.late rspdata)).scds = rspdata.scds := rfl
      rw [hnow, hlate, filterMap_cons, filterMap_cons, hscds]
      cases (kind rspdata.scds).lookup shard with
      | none => exact ih
      | some path => exact (ih.cons path).trans perm_middle.symm

/-- The files of this node. -/
theorem local_files {scds : GeneratedScds Shard}
    (h : hosts.generatedFor sources hosts.localHostIP = some scds)
    (hmissing : hosts.localHostIP ∉ sources → (kind scds).lookup shard = none) :
    hosts.filesFor sources kind shard
        (sources.sortedKeys.filter fun host => host = hosts.localHostIP) =
      ((kind scds).lookup shard).toList := by
  have hnodup : sources.sortedKeys.Nodup := sources.pairwise_sortedKeys.imp fun hlt => ne_of_lt hlt
  rw [filter_eq, hnodup.count]
  by_cases hmem : hosts.localHostIP ∈ sources
  · rw [if_pos (mem_sortedKeys.mpr hmem), replicate_one, filesFor,
      filterMap_cons, h, bind_some]
    cases (kind scds).lookup shard <;> rfl
  · rw [if_neg fun hkey => hmem (mem_sortedKeys.mp hkey), hmissing hmem]
    rfl

theorem collectLocal_eq_some {start : CollectedScds Shard}
    (h : hosts.collectLocal (sources.get hosts.localHostIP) = some start) :
    ∃ scds, hosts.generatedFor sources hosts.localHostIP = some scds ∧
      (hosts.localHostIP ∉ sources → scds = {}) ∧
      ∀ shard, start.generatedInsertScds.get shard = (scds.insertScds.lookup shard).toList ∧
        start.generatedDelScds.get shard = (scds.delScds.lookup shard).toList := by
  rw [generatedFor, if_pos rfl]
  rw [collectLocal] at h
  split at h
  · rename_i hkeys
    obtain rfl := some.inj h
    rw [if_pos hkeys]
    exact ⟨{}, rfl, fun _ => rfl, fun shard => ⟨rfl, rfl⟩⟩
  · rename_i hkeys
    obtain ⟨scds, hscds, rfl⟩ := map_eq_some_iff.mp h
    rw [if_neg hkeys]
    refine ⟨scds, hscds, fun hmem => ?_, fun shard => ⟨get_pushScds _ _ _, get_pushScds _ _ _⟩⟩
    rw [get_eq_default hmem] at hkeys
    exact absurd rfl hkeys

/-- What a call that succeeds has collected: the files of this node, and those of the answers. -/
theorem generateMigrateScds_eq_some {collected : CollectedScds Shard}
    (h : hosts.generateMigrateScds sources rounds = some collected) :
    (∀ answer ∈ taken (hosts.acceptedNum sources) rounds,
        (hosts.rspdata sources answer).success = true) ∧
      ∃ scds, hosts.generatedFor sources hosts.localHostIP = some scds ∧
        (hosts.localHostIP ∉ sources → scds = {}) ∧
        ∀ shard, collected.generatedInsertScds.get shard = (scds.insertScds.lookup shard).toList ++
            (taken (hosts.acceptedNum sources) rounds).filterMap (fun answer =>
              (hosts.rspdata sources answer).scds.insertScds.lookup shard) ∧
          collected.generatedDelScds.get shard = (scds.delScds.lookup shard).toList ++
            (taken (hosts.acceptedNum sources) rounds).filterMap fun answer =>
              (hosts.rspdata sources answer).scds.delScds.lookup shard := by
  obtain ⟨-, -, h⟩ := bind_eq_some_iff.mp h
  obtain ⟨⟨waitNum, localScds⟩, hsent, h⟩ := bind_eq_some_iff.mp h
  obtain ⟨start, hstart, hwait⟩ := bind_eq_some_iff.mp h
  obtain ⟨rfl, rfl⟩ := sendRequests_inOrder hsent
  obtain ⟨hsuccess, rfl⟩ := waitAnswers_eq_some hwait
  obtain ⟨scds, hgenerated, hmissing, hget⟩ := collectLocal_eq_some hstart
  refine ⟨hsuccess, scds, hgenerated, hmissing, fun shard => ?_⟩
  obtain ⟨hinsert, hdel⟩ := get_foldl_push
    ((taken (hosts.acceptedNum sources) rounds).map fun answer =>
      (hosts.rspdata sources answer).scds) start shard
  rw [hinsert, hdel, (hget shard).1, (hget shard).2, filterMap_map, filterMap_map]
  exact ⟨rfl, rfl⟩

/-- A call that succeeds is complete if and only if the answers match. -/
theorem generateMigrateScds_complete_iff {collected : CollectedScds Shard}
    (hanswers : hosts.AnswersOnce sources rounds)
    (h : hosts.generateMigrateScds sources rounds = some collected) :
    hosts.Complete sources collected ↔ hosts.AnswersMatch sources rounds := by
  obtain ⟨hsuccess, scds, hlocal, hmissing, hget⟩ := generateMigrateScds_eq_some h
  have hsublist := taken_sublist (hosts.acceptedNum sources) rounds
  have haccepted (host : String)
      (hmem : host ∈ (taken (hosts.acceptedNum sources) rounds).filterMap nowHost) :=
    hanswers.accepted host ((hsublist.filterMap nowHost).subset hmem)
  have hperm (kind : GeneratedScds Shard → Table Shard String)
      (hempty : ∀ shard, (kind {}).lookup shard = none) (shard : Shard) :
      (((kind scds).lookup shard).toList ++ (taken (hosts.acceptedNum sources) rounds).filterMap
          fun answer => (kind (hosts.rspdata sources answer).scds).lookup shard).Perm
        (hosts.filesFor sources kind shard sources.sortedKeys) ↔
      (hosts.lateFilesFor sources kind shard rounds).Perm
        (hosts.filesFor sources kind shard (hosts.untaken sources rounds)) := by
    have hall : (hosts.filesFor sources kind shard sources.sortedKeys).Perm
        (((kind scds).lookup shard).toList ++ (hosts.filesFor sources kind shard
              ((taken (hosts.acceptedNum sources) rounds).filterMap nowHost) ++
            hosts.filesFor sources kind shard (hosts.untaken sources rounds))) := by
      have hsources := (sources_perm hanswers).filterMap fun host =>
        (hosts.generatedFor sources host).bind fun scds => (kind scds).lookup shard
      have hthis := local_files hlocal fun hmem => by
        rw [hmissing hmem]
        exact hempty shard
      rw [filterMap_append, filterMap_append] at hsources
      rw [← hthis]
      exact hsources
    have hanswered : ((taken (hosts.acceptedNum sources) rounds).filterMap fun answer =>
        (kind (hosts.rspdata sources answer).scds).lookup shard).Perm _ :=
      takenFiles_perm hsuccess haccepted
    have htaken := hanswered.append_left ((kind scds).lookup shard).toList
    rw [htaken.congr_left, hall.congr_right, perm_append_left_iff, perm_append_left_iff]
    rfl
  constructor
  · rintro ⟨hgenerated, hinsert, hdel⟩
    refine ⟨fun host hmem => hgenerated host (mem_remotes.mp hmem).1, fun shard => ?_,
      fun shard => ?_⟩
    · exact (hperm _ (fun _ => rfl) shard).mp ((hget shard).1 ▸ hinsert shard)
    · exact (hperm _ (fun _ => rfl) shard).mp ((hget shard).2 ▸ hdel shard)
  · rintro ⟨hgenerated, hinsert, hdel⟩
    refine ⟨fun host hmem => ?_, fun shard => ?_, fun shard => ?_⟩
    · by_cases hhost : host = hosts.localHostIP
      · rw [hhost, hlocal]
        exact some_ne_none scds
      · exact hgenerated host (mem_remotes.mpr ⟨hmem, hhost⟩)
    · rw [(hget shard).1]
      exact (hperm _ (fun _ => rfl) shard).mpr (hinsert shard)
    · rw [(hget shard).2]
      exact (hperm _ (fun _ => rfl) shard).mpr (hdel shard)

end MigrateHosts

open MigrateHosts

/-- Two sources with one file each, for the first shard. -/
def twoSources : MigrateHosts ℕ ℕ where
  isEnabled := true
  localHostIP := "target"
  syncRequest _ := some true
  scdGenerator host _ := some { insertScds := singleton 1 (host ++ "/new.SCD") }

def twoSourcesList : Table String (VNodeList ℕ ℕ) :=
  insert "b" (singleton 1 [2]) (singleton "a" (singleton 1 [1]))

/-- The first source answers an earlier call first. -/
def lateRound : WaitRound ℕ where
  waits := 0
  first := .late
    { rspHost := "a", success := true, scds := { insertScds := singleton 1 "a/old.SCD" } }
  others := [.now "a"]

theorem answersOnce_two (round : WaitRound ℕ)
    (hnodup : (round.answers.filterMap nowHost).Nodup)
    (hremote : ∀ host ∈ round.answers.filterMap nowHost,
      host ∈ twoSources.remotes twoSourcesList) :
    twoSources.AnswersOnce twoSourcesList [round] := by
  have hanswers : [round].flatMap WaitRound.answers = round.answers := append_nil _
  refine ⟨?_, fun host hmem => ⟨hremote host ?_, rfl⟩⟩
  · rwa [hanswers]
  · rwa [hanswers] at hmem

/-- Both answers are for this call. -/
theorem complete_two : ∃ collected,
    twoSources.generateMigrateScds twoSourcesList [⟨0, .now "a", [.now "b"]⟩] = some collected ∧
      twoSources.Complete twoSourcesList collected := by
  have hanswers := answersOnce_two ⟨0, .now "a", [.now "b"]⟩ (by decide) (by decide)
  refine ⟨_, rfl, (generateMigrateScds_complete_iff hanswers rfl).mpr ⟨?_, ?_, ?_⟩⟩
  · intro host hmem
    rw [generatedFor, if_neg (mem_remotes.mp hmem).2]
    exact some_ne_none _
  all_goals
    intro shard
    have huntaken : twoSources.untaken twoSourcesList [⟨0, .now "a", [.now "b"]⟩] = [] := by decide
    exact .refl _

/-- The answer to an earlier call is taken for one of this call. -/
theorem not_complete_late : ¬∀ (rounds : List (WaitRound ℕ)) (collected : CollectedScds ℕ),
      twoSources.AnswersOnce twoSourcesList rounds →
      twoSources.generateMigrateScds twoSourcesList rounds = some collected →
      twoSources.Complete twoSourcesList collected := by
  intro h
  have hcomplete := h [lateRound] _ (answersOnce_two lateRound (by decide) (by decide)) rfl
  have hfiles : "b/new.SCD" ∈ twoSources.filesFor twoSourcesList insertScds 1
      twoSourcesList.sortedKeys := by decide
  exact absurd ((hcomplete.insertScds 1).mem_iff.mpr hfiles) (by decide)

end AdDelivery.NodeManager
