import AdDelivery.Sharding.VNodeMoves

/-!
# Removing shards

The virtual nodes of the removed shards go to the ones that stay, one after the other. A shard
that has more than its share is left for the next one.
-/

namespace AdDelivery.Sharding

open List MigrateState

/-- The loops of `removeSharding` between two moves: the shards from `migrate_to_it` on, those that
were left, and the writes, where the topology is the one of the shards that stay. -/
structure RemoveCursor where
  migrateToIt : List ShardId
  leftShardingNodes : List ShardId
  migrating : MigrateState

section Loops

variable (newVnodeForSharding : ℕ)

/-- The virtual nodes of one removed shard; `later` are the removed shards after it. The result is
`false` where the function returns so, and `none` where it reads through an end iterator or
outside of the map. -/
def removeVNodes (src : ShardId) (later : List (ShardId × List VNodeId)) :
    List VNodeId → RemoveCursor → Option (Bool × RemoveCursor)
  | [], cursor => some (true, cursor)
  | vid :: vnodes, cursor => do
    let dst ← cursor.migrateToIt.head?
    let migrating ← cursor.migrating.move ⟨vid, src, dst⟩
    if newVnodeForSharding < (migrating.topology.get dst).length then
      let leftShardingNodes := cursor.leftShardingNodes ++ [dst]
      if cursor.migrateToIt.tail = [] then
        if vnodes ≠ [] ∨ later ≠ [] then some (false, ⟨[], leftShardingNodes, migrating⟩)
        else some (true, ⟨[], leftShardingNodes, migrating⟩)
      else removeVNodes src later vnodes ⟨cursor.migrateToIt.tail, leftShardingNodes, migrating⟩
    else
      removeVNodes src later vnodes ⟨cursor.migrateToIt, cursor.leftShardingNodes, migrating⟩

/-- The loop over the removed shards. -/
def removeShards : List (ShardId × List VNodeId) → RemoveCursor → Option (Bool × RemoveCursor)
  | [], cursor => some (true, cursor)
  | (src, vnodes) :: later, cursor => do
    let (ok, cursor) ← removeVNodes newVnodeForSharding src later vnodes cursor
    if ok then removeShards later cursor else some (false, cursor)

end Loops

/-- The removed shards are taken out of the topology. -/
def takeOut (removeShardingNodes : List ShardId) (topology : ShardingTopology) :
    ShardingTopology × ShardingTopology :=
  removeShardingNodes.foldl (fun topologies shard =>
    (Finmap.insert shard (topologies.2.get shard) topologies.1, topologies.2.erase shard))
    (∅, topology)

/-- What `removeSharding` leaves in its arguments. -/
structure RemoveOutcome where
  leftShardingNodes : List ShardId
  currentTopology : ShardingTopology
  migrateDataList : MigrateDataList
  shardingMap : List ShardId

def removeSharding (removeShardingNodes : List ShardId) (newVnodeForSharding : ℕ)
    (currentTopology : ShardingTopology) (shardingMap : List ShardId) :
    Option (Bool × RemoveOutcome) :=
  let (removeTopology, currentTopology) := takeOut removeShardingNodes currentTopology
  if currentTopology.keys = ∅ ∨ removeTopology.keys.card ≠ removeShardingNodes.length then
    some (false, ⟨[], currentTopology, ∅, shardingMap⟩)
  else do
    let (ok, cursor) ← removeShards newVnodeForSharding removeTopology.inOrder
      ⟨currentTopology.sortedKeys, [], currentTopology, ∅, shardingMap⟩
    let leftShardingNodes :=
      if ok then cursor.leftShardingNodes ++ cursor.migrateToIt else cursor.leftShardingNodes
    some (ok, ⟨leftShardingNodes, cursor.migrating.topology, cursor.migrating.migrateDataList,
      cursor.migrating.shardingMap⟩)

/-- What `removeShardingNodes` plans after its checks; the outer `none` is `return false`. -/
def planRemoveShardingNodes (isMasterAggregator : Bool)
    (shardidList shardList removeShardingNodes : List ShardId) (mapFile : Option (List Char)) :
    Option (Option (Bool × RemoveOutcome)) :=
  let currentShardingMap := readShardingMapFile mapFile []
  if !isMasterAggregator then none
  else if shardidList = [] then none
  else if removeShardingNodes = [] then none
  else if shardidList.length = 1 then none
  else if shardidList.length ≤ removeShardingNodes.length then none
  else if removeShardingNodes.any fun shard => decide (shard ∉ shardList) then none
  else if currentShardingMap = [] then none
  else
    let newVnodeForSharding :=
      currentShardingMap.length / (shardidList.length - removeShardingNodes.length)
    some (removeSharding removeShardingNodes newVnodeForSharding
      (currentShardingTopology currentShardingMap) currentShardingMap)

namespace RemoveCursor

variable (newVnodeForSharding : ℕ)

/-- How many virtual nodes a shard gets before it is left. Even a full shard gets one. -/
def room (cursor : RemoveCursor) (shard : ShardId) : ℕ :=
  max 1 (newVnodeForSharding + 1 - (cursor.migrating.topology.get shard).length)

/-- What the shards from the cursor on can still get. -/
def placesLeft (cursor : RemoveCursor) : List ShardId :=
  placesOf (cursor.room newVnodeForSharding) cursor.migrateToIt

/-- The moves were made and took the places in order, and no shard was passed over. -/
structure Fills (cursor : RemoveCursor) (moves : List VNodeMove) (cursor' : RemoveCursor) :
    Prop where
  migrating : cursor'.migrating = cursor.migrating.recordAll moves
  placesLeft : cursor'.placesLeft newVnodeForSharding =
    (cursor.placesLeft newVnodeForSharding).drop moves.length
  shards : cursor'.leftShardingNodes ++ cursor'.migrateToIt =
    cursor.leftShardingNodes ++ cursor.migrateToIt

variable {newVnodeForSharding} {cursor cursor' cursor'' : RemoveCursor}
  {moves moves' : List VNodeMove}

theorem room_pos (cursor : RemoveCursor) (shard : ShardId) :
    0 < cursor.room newVnodeForSharding shard :=
  Nat.lt_of_lt_of_le Nat.zero_lt_one (Nat.le_max_left _ _)

theorem placesLeft_eq_nil_iff (newVnodeForSharding : ℕ) (cursor : RemoveCursor) :
    cursor.placesLeft newVnodeForSharding = [] ↔ cursor.migrateToIt = [] :=
  placesOf_eq_nil_iff fun shard _ => cursor.room_pos shard

theorem Fills.refl (cursor : RemoveCursor) : Fills newVnodeForSharding cursor [] cursor :=
  ⟨rfl, rfl, rfl⟩

theorem Fills.trans (h : Fills newVnodeForSharding cursor moves cursor')
    (h' : Fills newVnodeForSharding cursor' moves' cursor'') :
    Fills newVnodeForSharding cursor (moves ++ moves') cursor'' := by
  refine ⟨?_, ?_, h'.shards.trans h.shards⟩
  · rw [h'.migrating, h.migrating, recordAll_append]
  · rw [h'.placesLeft, h.placesLeft, drop_drop, length_append]

/-- The cursor after a move to its shard. -/
def put (newVnodeForSharding : ℕ) (cursor : RemoveCursor) (move : VNodeMove) : RemoveCursor :=
  let migrating := cursor.migrating.record move
  if newVnodeForSharding < (migrating.topology.get move.dst).length then
    ⟨cursor.migrateToIt.tail, cursor.leftShardingNodes ++ [move.dst], migrating⟩
  else ⟨cursor.migrateToIt, cursor.leftShardingNodes, migrating⟩

theorem migrating_put (cursor : RemoveCursor) (move : VNodeMove) :
    (cursor.put newVnodeForSharding move).migrating = cursor.migrating.record move := by
  unfold put
  dsimp only
  split <;> rfl

variable {shards : List ShardId}

section

variable {move : VNodeMove} (newVnodeForSharding : ℕ)
    (hto : cursor.migrateToIt = move.dst :: shards) (hnot : move.dst ∉ shards)
include hto hnot

/-- A move takes one place of the shard that it goes to. -/
theorem placesLeft_put : cursor.placesLeft newVnodeForSharding =
      move.dst :: (cursor.put newVnodeForSharding move).placesLeft newVnodeForSharding := by
  have hself := cursor.migrating.length_topology_record move
  have hrest : ∀ shard ∈ shards, cursor.room newVnodeForSharding shard =
      (cursor.put newVnodeForSharding move).room newVnodeForSharding shard := by
    intro shard hshard
    have hne : shard ≠ move.dst := fun heq => hnot (heq ▸ hshard)
    rw [room, room, migrating_put, get_topology_record_of_ne _ hne]
  rw [placesLeft, hto, placesLeft]
  by_cases hfull : newVnodeForSharding < (cursor.migrating.topology.get move.dst).length + 1
  · have hput : (cursor.put newVnodeForSharding move).migrateToIt = shards := by
      rw [put, hself, if_pos hfull, hto, tail_cons]
    have hone : cursor.room newVnodeForSharding move.dst = 1 := by
      rw [room]
      omega
    rw [hput, placesOf_cons_of_one hone hrest]
  · have hput : (cursor.put newVnodeForSharding move).migrateToIt = move.dst :: shards := by
      rw [put, hself, if_neg hfull, hto]
    have hsucc : cursor.room newVnodeForSharding move.dst =
        (cursor.put newVnodeForSharding move).room newVnodeForSharding move.dst + 1 := by
      rw [room, room, migrating_put]
      omega
    rw [hput, placesOf_cons_of_succ hsucc hrest]

/-- A move takes the first place. -/
theorem fills_put : (cursor.placesLeft newVnodeForSharding).head? = some move.dst ∧
      Fills newVnodeForSharding cursor [move] (cursor.put newVnodeForSharding move) := by
  have hplaces := placesLeft_put newVnodeForSharding hto hnot
  refine ⟨?_, migrating_put cursor move, ?_, ?_⟩
  · rw [hplaces, head?_cons]
  · rw [hplaces, length_singleton, drop_one, tail_cons]
  · unfold put
    dsimp only
    split
    · rw [hto, tail_cons, append_assoc, singleton_append]
    · rfl

end

end RemoveCursor

section Loops

open RemoveCursor

variable {newVnodeForSharding : ℕ} {cursor : RemoveCursor}

/-- One virtual node of a removed shard. -/
theorem removeVNodes_cons (newVnodeForSharding : ℕ) {src : ShardId}
    (later : List (ShardId × List VNodeId)) (vnodes : List VNodeId) {move : VNodeMove}
    (hsrc : move.src = src) (hdst : cursor.migrateToIt.head? = some move.dst)
    (hmap : move.vid < cursor.migrating.shardingMap.length) :
    removeVNodes newVnodeForSharding src later (move.vid :: vnodes) cursor =
      if (cursor.put newVnodeForSharding move).migrateToIt = [] then
        some (decide (vnodes = [] ∧ later = []), cursor.put newVnodeForSharding move)
      else
        removeVNodes newVnodeForSharding src later vnodes
          (cursor.put newVnodeForSharding move) := by
  subst hsrc
  have hne : cursor.migrateToIt ≠ [] := by
    intro hnil
    rw [hnil] at hdst
    cases hdst
  rw [removeVNodes, hdst]
  simp only [Option.bind_eq_bind, Option.bind_some, move_eq _ hmap]
  by_cases hfull : newVnodeForSharding <
      ((cursor.migrating.record move).topology.get move.dst).length
  · have hput : cursor.put newVnodeForSharding move =
        ⟨cursor.migrateToIt.tail, cursor.leftShardingNodes ++ [move.dst],
          cursor.migrating.record move⟩ := if_pos hfull
    simp only [hput, hfull, if_true]
    by_cases hend : cursor.migrateToIt.tail = []
    · simp only [hend, if_true]
      by_cases hlast : vnodes = [] ∧ later = []
      · simp [hlast]
      · have hmore : vnodes ≠ [] ∨ later ≠ [] := by
          rwa [← not_and_or]
        rw [if_pos hmore, decide_eq_false hlast]
    · simp only [hend, if_false]
  · have hput : cursor.put newVnodeForSharding move =
        ⟨cursor.migrateToIt, cursor.leftShardingNodes, cursor.migrating.record move⟩ :=
      if_neg hfull
    simp only [hput, hfull, if_false, hne]

variable (src : ShardId) (later : List (ShardId × List VNodeId))

/-- The virtual nodes of one removed shard go to the first places. -/
theorem removeVNodes_spec {vnodes : List VNodeId}
    (hnodup : (cursor.leftShardingNodes ++ cursor.migrateToIt).Nodup)
    (hmap : ∀ vid ∈ vnodes, vid < cursor.migrating.shardingMap.length)
    (hto : cursor.migrateToIt ≠ []) : ∃ ok cursor',
      removeVNodes newVnodeForSharding src later vnodes cursor = some (ok, cursor') ∧
      (ok = true ↔ vnodes.length < (cursor.placesLeft newVnodeForSharding).length ∨
        vnodes.length = (cursor.placesLeft newVnodeForSharding).length ∧ later = []) ∧
      (ok = true → Fills newVnodeForSharding cursor
        (List.zipWith planMove (vnodes.map fun vid => (vid, src))
          (cursor.placesLeft newVnodeForSharding)) cursor') := by
  induction vnodes generalizing cursor with
  | nil =>
    have hpos : 0 < (cursor.placesLeft newVnodeForSharding).length := by
      rw [length_pos_iff, ne_eq, placesLeft_eq_nil_iff]
      exact hto
    exact ⟨true, cursor, rfl, iff_of_true rfl (Or.inl hpos), fun _ => Fills.refl cursor⟩
  | cons vid vnodes ih =>
    obtain ⟨dst, shards, hshards⟩ := exists_cons_of_ne_nil hto
    obtain ⟨move, hmove⟩ : ∃ move : VNodeMove, move = ⟨vid, src, dst⟩ := ⟨_, rfl⟩
    have hvid : move.vid = vid := by rw [hmove]
    have hdst : cursor.migrateToIt = move.dst :: shards := by rw [hshards, hmove]
    have hnot : move.dst ∉ shards := by
      rw [hdst] at hnodup
      exact (nodup_cons.mp (nodup_append.mp hnodup).2.1).1
    obtain ⟨hhead, hfills⟩ := fills_put newVnodeForSharding hdst hnot
    obtain ⟨rest, hrest⟩ := head?_eq_some_iff.mp hhead
    have hplaces := hfills.placesLeft
    rw [hrest, length_singleton, drop_one, tail_cons] at hplaces
    have hplan : planMove (vid, src) move.dst = move := by rw [hmove]; rfl
    have hsrc : move.src = src := by rw [hmove]
    have hround := removeVNodes_cons newVnodeForSharding later vnodes hsrc
      (by rw [hdst, head?_cons]) (hvid ▸ hmap vid mem_cons_self)
    rw [hvid] at hround
    rw [hround, hrest, map_cons, zipWith_cons_cons, hplan, length_cons, length_cons]
    by_cases hend : (cursor.put newVnodeForSharding move).migrateToIt = []
    · have hnil : rest = [] := by
        rw [← hplaces]
        exact (placesLeft_eq_nil_iff _ _).mpr hend
      rw [if_pos hend, hnil, zipWith_nil_right]
      refine ⟨_, _, rfl, ?_, fun _ => hfills⟩
      rw [decide_eq_true_iff, length_nil, ← length_eq_zero_iff]
      constructor
      · rintro ⟨hlast, hlater⟩
        exact Or.inr ⟨by omega, hlater⟩
      · rintro (hlt | ⟨hlast, hlater⟩)
        · omega
        · exact ⟨by omega, hlater⟩
    · have hnodup' : ((cursor.put newVnodeForSharding move).leftShardingNodes ++
          (cursor.put newVnodeForSharding move).migrateToIt).Nodup := by
        rw [hfills.shards]
        exact hnodup
      have hmap' : ∀ vid' ∈ vnodes,
          vid' < (cursor.put newVnodeForSharding move).migrating.shardingMap.length := by
        rw [migrating_put, length_shardingMap_record]
        exact fun vid' hvid' => hmap vid' (mem_cons_of_mem _ hvid')
      obtain ⟨ok, cursor', hrun, hok, hfills'⟩ := ih hnodup' hmap' hend
      rw [hplaces] at hok hfills'
      rw [if_neg hend]
      refine ⟨ok, cursor', hrun, hok.trans ?_, fun h => hfills.trans (hfills' h)⟩
      rw [Nat.add_lt_add_iff_right, Nat.add_right_cancel_iff]

/-- The virtual nodes of all removed shards, in the order of the loops. -/
def removedItems (entries : List (ShardId × List VNodeId)) : List (VNodeId × ShardId) :=
  entries.flatMap fun entry => entry.2.map fun vid => (vid, entry.1)

/-- The virtual nodes fit so many places. The last place may only be taken by the last one of the
last removed shard. -/
def AllFit (entries : List (ShardId × List VNodeId)) (room : ℕ) : Prop :=
  (removedItems entries).length < room ∨
    (removedItems entries).length = room ∧ ∀ entry ∈ entries.getLast?, entry.2 ≠ []

theorem removedItems_cons (src : ShardId) (vnodes : List VNodeId)
    (later : List (ShardId × List VNodeId)) : removedItems ((src, vnodes) :: later) =
      (vnodes.map fun vid => (vid, src)) ++ removedItems later := flatMap_cons

theorem length_removedItems_cons (src : ShardId) (vnodes : List VNodeId)
    (later : List (ShardId × List VNodeId)) : (removedItems ((src, vnodes) :: later)).length =
      vnodes.length + (removedItems later).length := by
  rw [removedItems_cons, length_append, List.length_map]

variable (vnodes : List VNodeId)

theorem allFit_singleton {room : ℕ} (hpos : 0 < room) :
    AllFit [(src, vnodes)] room ↔ vnodes.length < room ∨ vnodes.length = room := by
  have hnone : (removedItems ([] : List (ShardId × List VNodeId))).length = 0 := rfl
  rw [AllFit, length_removedItems_cons, hnone]
  apply or_congr Iff.rfl
  apply and_iff_left_of_imp
  rintro heq _ ⟨⟩ hnil
  have hzero : vnodes.length = 0 := length_eq_zero_iff.mpr hnil
  omega

/-- Before other removed shards, some places have to be left. -/
theorem allFit_cons {later : List (ShardId × List VNodeId)} (hlater : later ≠ []) (room : ℕ) :
    AllFit ((src, vnodes) :: later) room ↔
      vnodes.length < room ∧ AllFit later (room - vnodes.length) := by
  have hgetLast : ((src, vnodes) :: later).getLast? = later.getLast? := by
    obtain ⟨next, rest, rfl⟩ := exists_cons_of_ne_nil hlater
    exact getLast?_cons_cons
  rw [AllFit, length_removedItems_cons, hgetLast]
  constructor
  · rintro (hlt | ⟨heq, hlast⟩)
    · exact ⟨by omega, Or.inl (by omega)⟩
    · have hpos : (removedItems later).length ≠ 0 := by
        intro hzero
        have hentry := getLast?_eq_some_getLast hlater
        have hnone := flatMap_eq_nil_iff.mp (length_eq_zero_iff.mp hzero) _
          (mem_of_getLast? hentry)
        exact hlast _ hentry (map_eq_nil_iff.mp hnone)
      exact ⟨by omega, Or.inr ⟨by omega, hlast⟩⟩
  · rintro ⟨hlt, hless | ⟨heq, hlast⟩⟩
    · exact Or.inl (by omega)
    · exact Or.inr ⟨by omega, hlast⟩

/-- All virtual nodes of the removed shards find a place, or the function returns `false`. -/
theorem removeShards_spec (newVnodeForSharding : ℕ) {entries : List (ShardId × List VNodeId)}
    (hnodup : (cursor.leftShardingNodes ++ cursor.migrateToIt).Nodup)
    (hmap : ∀ entry ∈ entries, ∀ vid ∈ entry.2, vid < cursor.migrating.shardingMap.length)
    (hto : cursor.migrateToIt ≠ []) : ∃ ok cursor',
      removeShards newVnodeForSharding entries cursor = some (ok, cursor') ∧
      (ok = true ↔ AllFit entries (cursor.placesLeft newVnodeForSharding).length) ∧
      (ok = true → Fills newVnodeForSharding cursor
        (List.zipWith planMove (removedItems entries) (cursor.placesLeft newVnodeForSharding))
        cursor') := by
  have hpos : 0 < (cursor.placesLeft newVnodeForSharding).length := by
    rw [length_pos_iff, ne_eq, placesLeft_eq_nil_iff]
    exact hto
  induction entries generalizing cursor with
  | nil => exact ⟨true, cursor, rfl, iff_of_true rfl (Or.inl hpos), fun _ => Fills.refl cursor⟩
  | cons entry later ih =>
    obtain ⟨src, vnodes⟩ := entry
    have hvnodes : ∀ vid ∈ vnodes, vid < cursor.migrating.shardingMap.length :=
      hmap (src, vnodes) mem_cons_self
    obtain ⟨ok, cursor', hrun, hok, hfills⟩ := removeVNodes_spec src later hnodup hvnodes hto
    rw [removeShards, hrun]
    by_cases hlater : later = []
    · subst hlater
      have hnone : removedItems ([] : List (ShardId × List VNodeId)) = [] := rfl
      rw [allFit_singleton src vnodes hpos, removedItems_cons, hnone, append_nil]
      refine ⟨ok, cursor', ?_, hok.trans ?_, hfills⟩
      · cases ok <;> rfl
      · rw [eq_self, and_true]
    · rw [or_iff_left fun h => hlater h.2] at hok
      rw [allFit_cons src vnodes hlater]
      cases ok with
      | false =>
        refine ⟨false, cursor', rfl, iff_of_false Bool.false_ne_true ?_, fun h => nomatch h⟩
        exact fun h => Bool.false_ne_true (hok.mpr h.1)
      | true =>
        have hlt := hok.mp rfl
        have hfilled := hfills rfl
        have hplaces : cursor'.placesLeft newVnodeForSharding =
            (cursor.placesLeft newVnodeForSharding).drop vnodes.length := by
          rw [hfilled.placesLeft, drop_length_zipWith, List.length_map]
        have hleft : (cursor'.placesLeft newVnodeForSharding).length =
            (cursor.placesLeft newVnodeForSharding).length - vnodes.length := by
          rw [hplaces, length_drop]
        have hpos' : 0 < (cursor'.placesLeft newVnodeForSharding).length := by omega
        have hto' : cursor'.migrateToIt ≠ [] := by
          rw [ne_eq, ← placesLeft_eq_nil_iff newVnodeForSharding]
          exact length_pos_iff.mp hpos'
        have hmap' : ∀ entry ∈ later, ∀ vid ∈ entry.2,
            vid < cursor'.migrating.shardingMap.length := by
          rw [hfilled.migrating, length_shardingMap_recordAll]
          exact fun entry hentry => hmap entry (mem_cons_of_mem _ hentry)
        obtain ⟨ok, cursor'', hrun', hokLater, hfillsLater⟩ :=
          ih (hfilled.shards ▸ hnodup) hmap' hto' hpos'
        rw [hleft] at hokLater
        refine ⟨ok, cursor'', hrun', hokLater.trans (and_iff_right hlt).symm, ?_⟩
        intro h
        rw [removedItems_cons, zipWith_append_items, List.length_map, ← hplaces]
        exact hfilled.trans (hfillsLater h)

end Loops

end AdDelivery.Sharding
