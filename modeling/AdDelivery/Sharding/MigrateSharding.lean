import AdDelivery.Sharding.VNodeMoves

/-!
# Adding shards

The new shards get virtual nodes from the ends of the lists of the old ones, one new shard after
the other, as long as an old shard has more than it should keep.
-/

namespace AdDelivery.Sharding

open List MigrateState

/-- The loops of `migrateSharding` between two moves: `newShardingNodes[migrateTo]` is the shard
that is filled, and the topology of `migrating` is the one of the new shards. -/
structure AddCursor where
  migrateTo : ℕ
  migrating : MigrateState

section Loops

variable (newShardingNodes : List ShardId) (newVnodeForSharding : ℕ)

/-- The inner loop from `vnode_index` down, with `migrate_start`; `none` is an access outside of a
vector. -/
def moveVNodes (src : ShardId) (vnodes : List VNodeId) : ℕ → ℕ → AddCursor → Option (ℕ × AddCursor)
  | 0, migrateStart, cursor => some (migrateStart, cursor)
  | vnodeIndex + 1, migrateStart, cursor =>
    if newVnodeForSharding < vnodeIndex + 1 then do
      let vid ← vnodes[vnodeIndex + 1]?
      let dst ← newShardingNodes[cursor.migrateTo]?
      let migrating ← cursor.migrating.move ⟨vid, src, dst⟩
      let migrateStart := migrateStart - 1
      if newVnodeForSharding ≤ (migrating.topology.get dst).length then
        -- the new shard has enough, the loop is left after the last one
        if newShardingNodes.length ≤ cursor.migrateTo + 1 then
          some (migrateStart, ⟨cursor.migrateTo + 1, migrating⟩)
        else moveVNodes src vnodes vnodeIndex migrateStart ⟨cursor.migrateTo + 1, migrating⟩
      else moveVNodes src vnodes vnodeIndex migrateStart ⟨cursor.migrateTo, migrating⟩
    else some (migrateStart, cursor)

/-- The `while` loop over the list of one old shard, for so many rounds. -/
def migrateFrom (src : ShardId) :
    ℕ → List VNodeId → ℕ → AddCursor → Option (List VNodeId × AddCursor)
  | 0, _, _, _ => none
  | fuel + 1, vnodes, migrateStart, cursor =>
    if cursor.migrateTo < newShardingNodes.length then
      if vnodes.length ≤ newVnodeForSharding then some (vnodes, cursor)
      else do
        let (migrateStart, cursor) ← moveVNodes newShardingNodes newVnodeForSharding src vnodes
          migrateStart migrateStart cursor
        -- erased from `begin() + migrate_start` on
        if migrateStart ≤ vnodes.length then
          migrateFrom src fuel (vnodes.take migrateStart) migrateStart cursor
        else none
    else some (vnodes, cursor)

/-- The loop over the old shards. -/
def migrateShards (fuel : ℕ) : List (ShardId × List VNodeId) → ShardingTopology → AddCursor →
      Option (ShardingTopology × AddCursor)
  | [], topology, cursor => some (topology, cursor)
  | (src, vnodes) :: rest, topology, cursor => do
    let (vnodes, cursor) ← migrateFrom newShardingNodes newVnodeForSharding src fuel vnodes
      (vnodes.length - 1) cursor
    let topology := Finmap.insert src vnodes topology
    if newShardingNodes.length ≤ cursor.migrateTo then some (topology, cursor)
    else migrateShards fuel rest topology cursor

/-- The old and the new topology, the list and the map afterwards. -/
structure AddOutcome where
  currentTopology : ShardingTopology
  newTopology : ShardingTopology
  migrateDataList : MigrateDataList
  shardingMap : List ShardId

def migrateSharding (fuel : ℕ) (currentTopology : ShardingTopology) (shardingMap : List ShardId) :
    Option AddOutcome := do
  let (topology, cursor) ← migrateShards newShardingNodes newVnodeForSharding fuel
    currentTopology.inOrder currentTopology ⟨0, ∅, ∅, shardingMap⟩
  some ⟨topology, cursor.migrating.topology, cursor.migrating.migrateDataList,
    cursor.migrating.shardingMap⟩

end Loops

/-- What `addNewShardingNodes` plans after its checks; the outer `none` is `return false`. -/
def planNewShardingNodes (fuel : ℕ) (isMasterAggregator : Bool)
    (shardidList shardList newShardingNodes : List ShardId) (mapFile : Option (List Char)) :
    Option (Option AddOutcome) :=
  let fileMap := readShardingMapFile mapFile []
  let currentShardingMap :=
    if shardList.length = 1 ∧ fileMap = [] then List.replicate MAX_MAP_SIZE (shardList.getD 0 0)
    else fileMap
  if !isMasterAggregator then none
  else if shardidList = [] then none
  else if newShardingNodes = [] then none
  else if newShardingNodes.any fun shard => decide (shard ∈ shardList) then none
  else if currentShardingMap = [] then none
  else if currentShardingMap.length < shardidList.length + newShardingNodes.length then none
  else
    let newVnodeForSharding :=
      currentShardingMap.length / (shardidList.length + newShardingNodes.length)
    some (migrateSharding newShardingNodes newVnodeForSharding fuel
      (currentShardingTopology currentShardingMap) currentShardingMap)

namespace AddCursor

variable (newShardingNodes : List ShardId) (newVnodeForSharding : ℕ)

/-- How many more virtual nodes a new shard gets. -/
def room (cursor : AddCursor) (shard : ShardId) : ℕ :=
  newVnodeForSharding - (cursor.migrating.topology.get shard).length

/-- What the new shards from the cursor on can still get. -/
def placesLeft (cursor : AddCursor) : List ShardId :=
  placesOf (cursor.room newVnodeForSharding) (newShardingNodes.drop cursor.migrateTo)

/-- The shards from the cursor on are not full. -/
def Open (cursor : AddCursor) : Prop :=
  ∀ shard ∈ newShardingNodes.drop cursor.migrateTo,
    (cursor.migrating.topology.get shard).length < newVnodeForSharding

/-- The moves were made and took the places in order. -/
structure Fills (cursor : AddCursor) (moves : List VNodeMove) (cursor' : AddCursor) : Prop where
  migrating : cursor'.migrating = cursor.migrating.recordAll moves
  placesLeft : cursor'.placesLeft newShardingNodes newVnodeForSharding =
    (cursor.placesLeft newShardingNodes newVnodeForSharding).drop moves.length
  isOpen : cursor'.Open newShardingNodes newVnodeForSharding

variable {newShardingNodes newVnodeForSharding} {cursor cursor' cursor'' : AddCursor}
  {moves moves' : List VNodeMove}

theorem placesLeft_eq_nil_iff (h : cursor.Open newShardingNodes newVnodeForSharding) :
    cursor.placesLeft newShardingNodes newVnodeForSharding = [] ↔
      newShardingNodes.length ≤ cursor.migrateTo := by
  rw [placesLeft, placesOf_eq_nil_iff, drop_eq_nil_iff]
  intro shard hshard
  exact Nat.sub_pos_of_lt (h shard hshard)

theorem Fills.refl (h : cursor.Open newShardingNodes newVnodeForSharding) :
    Fills newShardingNodes newVnodeForSharding cursor [] cursor := ⟨rfl, rfl, h⟩

theorem Fills.trans (h : Fills newShardingNodes newVnodeForSharding cursor moves cursor')
    (h' : Fills newShardingNodes newVnodeForSharding cursor' moves' cursor'') :
    Fills newShardingNodes newVnodeForSharding cursor (moves ++ moves') cursor'' := by
  refine ⟨?_, ?_, h'.isOpen⟩
  · rw [h'.migrating, h.migrating, recordAll_append]
  · rw [h'.placesLeft, h.placesLeft, drop_drop, length_append]

/-- The cursor after a move to its shard. -/
def put (newVnodeForSharding : ℕ) (cursor : AddCursor) (move : VNodeMove) : AddCursor :=
  let migrating := cursor.migrating.record move
  if newVnodeForSharding ≤ (migrating.topology.get move.dst).length then
    ⟨cursor.migrateTo + 1, migrating⟩
  else ⟨cursor.migrateTo, migrating⟩

theorem migrating_put (cursor : AddCursor) (move : VNodeMove) :
    (cursor.put newVnodeForSharding move).migrating = cursor.migrating.record move := by
  unfold put
  dsimp only
  split <;> rfl

variable {move : VNodeMove}

theorem migrateTo_put_of_full
    (hfull : newVnodeForSharding ≤ (cursor.migrating.topology.get move.dst).length + 1) :
    (cursor.put newVnodeForSharding move).migrateTo = cursor.migrateTo + 1 := by
  rw [put, cursor.migrating.length_topology_record, if_pos hfull]

theorem migrateTo_put_of_room
    (hroom : ¬ newVnodeForSharding ≤ (cursor.migrating.topology.get move.dst).length + 1) :
    (cursor.put newVnodeForSharding move).migrateTo = cursor.migrateTo := by
  rw [put, cursor.migrating.length_topology_record, if_neg hroom]

theorem drop_migrateTo (hdst : newShardingNodes[cursor.migrateTo]? = some move.dst) :
    newShardingNodes.drop cursor.migrateTo =
      move.dst :: newShardingNodes.drop (cursor.migrateTo + 1) := by
  obtain ⟨hlt, hget⟩ := List.getElem?_eq_some_iff.mp hdst
  rw [drop_eq_getElem_cons hlt, hget]

section

variable (hnodup : newShardingNodes.Nodup)
include hnodup

/-- The lists of the later shards stay as they were. -/
theorem get_topology_put (hdst : newShardingNodes[cursor.migrateTo]? = some move.dst)
    {shard : ShardId} (hshard : shard ∈ newShardingNodes.drop (cursor.migrateTo + 1)) :
    (cursor.put newVnodeForSharding move).migrating.topology.get shard =
      cursor.migrating.topology.get shard := by
  have hnodup' := hnodup.sublist (drop_sublist cursor.migrateTo _)
  rw [drop_migrateTo hdst] at hnodup'
  have hnot : move.dst ∉ newShardingNodes.drop (cursor.migrateTo + 1) :=
    (nodup_cons.mp hnodup').1
  rw [migrating_put]
  exact cursor.migrating.get_topology_record_of_ne fun heq => hnot (heq ▸ hshard)

/-- A move takes one place of the shard that it goes to. -/
theorem placesLeft_put (hopen : cursor.Open newShardingNodes newVnodeForSharding)
    (hdst : newShardingNodes[cursor.migrateTo]? = some move.dst) :
    cursor.placesLeft newShardingNodes newVnodeForSharding =
      move.dst :: (cursor.put newVnodeForSharding move).placesLeft newShardingNodes
        newVnodeForSharding := by
  have hdrop := drop_migrateTo hdst
  have hroom : (cursor.migrating.topology.get move.dst).length < newVnodeForSharding := by
    apply hopen
    rw [hdrop]
    exact mem_cons_self
  have hrest : ∀ shard ∈ newShardingNodes.drop (cursor.migrateTo + 1),
      cursor.room newVnodeForSharding shard =
        (cursor.put newVnodeForSharding move).room newVnodeForSharding shard := by
    intro shard hshard
    rw [room, room, get_topology_put hnodup hdst hshard]
  rw [placesLeft, hdrop, placesLeft]
  by_cases hfull : newVnodeForSharding ≤ (cursor.migrating.topology.get move.dst).length + 1
  · have hone : cursor.room newVnodeForSharding move.dst = 1 := by
      rw [room]
      omega
    rw [migrateTo_put_of_full hfull, placesOf_cons_of_one hone hrest]
  · have hsucc : cursor.room newVnodeForSharding move.dst =
        (cursor.put newVnodeForSharding move).room newVnodeForSharding move.dst + 1 := by
      rw [room, room, migrating_put, cursor.migrating.length_topology_record]
      omega
    rw [migrateTo_put_of_room hfull, hdrop, placesOf_cons_of_succ hsucc hrest]

theorem open_put (hopen : cursor.Open newShardingNodes newVnodeForSharding)
    (hdst : newShardingNodes[cursor.migrateTo]? = some move.dst) :
    (cursor.put newVnodeForSharding move).Open newShardingNodes newVnodeForSharding := by
  have hdrop := drop_migrateTo hdst
  have hlater : ∀ shard ∈ newShardingNodes.drop (cursor.migrateTo + 1),
      ((cursor.put newVnodeForSharding move).migrating.topology.get shard).length <
        newVnodeForSharding := by
    intro shard hshard
    rw [get_topology_put hnodup hdst hshard]
    apply hopen
    rw [hdrop]
    exact mem_cons_of_mem _ hshard
  intro shard hshard
  by_cases hfull : newVnodeForSharding ≤ (cursor.migrating.topology.get move.dst).length + 1
  · rw [migrateTo_put_of_full hfull] at hshard
    exact hlater shard hshard
  · rw [migrateTo_put_of_room hfull, hdrop] at hshard
    rcases mem_cons.mp hshard with rfl | hshard
    · rw [migrating_put, cursor.migrating.length_topology_record]
      exact Nat.lt_of_not_le hfull
    · exact hlater shard hshard

/-- A move takes the first place. -/
theorem fills_put (hopen : cursor.Open newShardingNodes newVnodeForSharding)
    (hdst : newShardingNodes[cursor.migrateTo]? = some move.dst) :
    (cursor.placesLeft newShardingNodes newVnodeForSharding).head? = some move.dst ∧
      Fills newShardingNodes newVnodeForSharding cursor [move]
        (cursor.put newVnodeForSharding move) := by
  have hplaces := placesLeft_put hnodup hopen hdst
  refine ⟨?_, migrating_put cursor move, ?_, open_put hnodup hopen hdst⟩
  · rw [hplaces, head?_cons]
  · rw [hplaces, length_singleton, drop_one, tail_cons]

end

end AddCursor

section Loops

open AddCursor

variable {newShardingNodes : List ShardId} {newVnodeForSharding : ℕ} {src : ShardId}
  {vnodes : List VNodeId} {cursor : AddCursor}

variable {vnodeIndex : ℕ}

/-- One round of the inner loop. -/
theorem moveVNodes_succ (migrateStart : ℕ) {move : VNodeMove}
    (hlt : newVnodeForSharding < vnodeIndex + 1) (hsrc : move.src = src)
    (hvid : vnodes[vnodeIndex + 1]? = some move.vid)
    (hdst : newShardingNodes[cursor.migrateTo]? = some move.dst)
    (hmap : move.vid < cursor.migrating.shardingMap.length) :
    moveVNodes newShardingNodes newVnodeForSharding src vnodes (vnodeIndex + 1) migrateStart
        cursor =
      if newShardingNodes.length ≤ (cursor.put newVnodeForSharding move).migrateTo then
        some (migrateStart - 1, cursor.put newVnodeForSharding move)
      else
        moveVNodes newShardingNodes newVnodeForSharding src vnodes vnodeIndex (migrateStart - 1)
          (cursor.put newVnodeForSharding move) := by
  subst hsrc
  have hto : cursor.migrateTo < newShardingNodes.length := (List.getElem?_eq_some_iff.mp hdst).1
  rw [moveVNodes, if_pos hlt, hvid, hdst]
  simp only [Option.bind_eq_bind, Option.bind_some, move_eq _ hmap]
  by_cases hfull : newVnodeForSharding ≤
      ((cursor.migrating.record move).topology.get move.dst).length
  · have hput : cursor.put newVnodeForSharding move =
        ⟨cursor.migrateTo + 1, cursor.migrating.record move⟩ := if_pos hfull
    simp only [hput, hfull, if_true]
  · have hput : cursor.put newVnodeForSharding move =
        ⟨cursor.migrateTo, cursor.migrating.record move⟩ := if_neg hfull
    simp only [hput, hfull, if_false, Nat.not_le_of_lt hto]

/-- One virtual node more is considered, and it is the first one. -/
theorem reverse_drop_take_succ (hindex : vnodeIndex + 1 < vnodes.length)
    (hlt : newVnodeForSharding < vnodeIndex + 1) :
    ((vnodes.take (vnodeIndex + 1 + 1)).drop (newVnodeForSharding + 1)).reverse =
      vnodes[vnodeIndex + 1] ::
        ((vnodes.take (vnodeIndex + 1)).drop (newVnodeForSharding + 1)).reverse := by
  rw [take_succ_eq_append_getElem hindex, drop_append_of_le_length, reverse_append]
  · rfl
  · rw [length_take_of_le (Nat.le_of_lt hindex)]
    exact hlt

/-- The inner loop moves the last virtual nodes, the last one first. -/
theorem moveVNodes_spec (src : ShardId) (hnodup : newShardingNodes.Nodup)
    (hindex : vnodeIndex < vnodes.length)
    (hmap : ∀ vid ∈ vnodes, vid < cursor.migrating.shardingMap.length)
    (hopen : cursor.Open newShardingNodes newVnodeForSharding)
    (hto : cursor.migrateTo < newShardingNodes.length) : ∃ moves cursor',
      moves = List.zipWith planMove
        (((vnodes.take (vnodeIndex + 1)).drop (newVnodeForSharding + 1)).reverse.map
          fun vid => (vid, src)) (cursor.placesLeft newShardingNodes newVnodeForSharding) ∧
      moveVNodes newShardingNodes newVnodeForSharding src vnodes vnodeIndex vnodeIndex cursor =
        some (vnodeIndex - moves.length, cursor') ∧
      Fills newShardingNodes newVnodeForSharding cursor moves cursor' := by
  induction vnodeIndex generalizing cursor with
  | zero =>
    have hnone : (vnodes.take 1).drop (newVnodeForSharding + 1) = [] :=
      drop_eq_nil_of_le ((length_take_le _ _).trans (Nat.le_add_left _ _))
    refine ⟨[], cursor, ?_, rfl, Fills.refl hopen⟩
    rw [hnone]
    rfl
  | succ vnodeIndex ih =>
    by_cases hlt : newVnodeForSharding < vnodeIndex + 1
    · obtain ⟨move, hmove⟩ : ∃ move : VNodeMove,
          move = ⟨vnodes[vnodeIndex + 1], src, newShardingNodes[cursor.migrateTo]⟩ := ⟨_, rfl⟩
      have hvid : vnodes[vnodeIndex + 1]? = some move.vid := by
        rw [hmove, getElem?_eq_getElem hindex]
      have hdst : newShardingNodes[cursor.migrateTo]? = some move.dst := by
        rw [hmove, getElem?_eq_getElem hto]
      have hvmap : move.vid < cursor.migrating.shardingMap.length :=
        hmap _ (mem_of_getElem? hvid)
      have hround := moveVNodes_succ (vnodeIndex + 1) hlt (by rw [hmove]) hvid hdst hvmap
      obtain ⟨hhead, hfills⟩ := fills_put hnodup hopen hdst
      obtain ⟨rest, hrest⟩ := head?_eq_some_iff.mp hhead
      have hplaces := hfills.placesLeft
      rw [hrest, length_singleton, drop_one, tail_cons] at hplaces
      have hplan : planMove (vnodes[vnodeIndex + 1], src) move.dst = move := by rw [hmove]; rfl
      rw [reverse_drop_take_succ hindex hlt, hrest, map_cons, zipWith_cons_cons, hplan]
      rw [Nat.add_sub_cancel] at hround
      by_cases hend : newShardingNodes.length ≤ (cursor.put newVnodeForSharding move).migrateTo
      · have hnil : rest = [] := by
          rw [← hplaces]
          exact (placesLeft_eq_nil_iff hfills.isOpen).mpr hend
        rw [if_pos hend] at hround
        refine ⟨_, cursor.put newVnodeForSharding move, rfl, ?_, ?_⟩
        · rw [hround, hnil, zipWith_nil_right, length_singleton, Nat.add_sub_cancel]
        · rw [hnil, zipWith_nil_right]
          exact hfills
      · have hmap' : ∀ vid ∈ vnodes,
            vid < (cursor.put newVnodeForSharding move).migrating.shardingMap.length := by
          rw [migrating_put, length_shardingMap_record]
          exact hmap
        obtain ⟨moves, cursor', hmoves, hrun, hfills'⟩ :=
          ih (Nat.lt_of_succ_lt hindex) hmap' hfills.isOpen (Nat.lt_of_not_le hend)
        rw [if_neg hend, hrun] at hround
        rw [hplaces] at hmoves
        refine ⟨move :: moves, cursor', by rw [hmoves], ?_, hfills.trans hfills'⟩
        rw [hround, length_cons, Nat.succ_sub_succ]
    · have hnone : (vnodes.take (vnodeIndex + 1 + 1)).drop (newVnodeForSharding + 1) = [] := by
        apply drop_eq_nil_of_le
        have hle := length_take_le (vnodeIndex + 1 + 1) vnodes
        omega
      refine ⟨[], cursor, by rw [hnone]; rfl, ?_, Fills.refl hopen⟩
      rw [moveVNodes, if_neg hlt]
      rfl

/-- What an old shard gives when there is room, its last virtual node first. -/
def surplus (newVnodeForSharding : ℕ) (entry : ShardId × List VNodeId) : List (VNodeId × ShardId) :=
  (entry.2.drop (newVnodeForSharding + 1)).reverse.map fun vid => (vid, entry.1)

theorem length_surplus (newVnodeForSharding : ℕ) (entry : ShardId × List VNodeId) :
    (surplus newVnodeForSharding entry).length = entry.2.length - (newVnodeForSharding + 1) := by
  rw [surplus, List.length_map, length_reverse, length_drop]

/-- What stays in the list of an old shard. Where something could be moved, the erased end starts
at the last virtual node that was not moved. -/
def keptVNodes (newVnodeForSharding : ℕ) (vnodes : List VNodeId) (places : List ShardId) :
    List VNodeId :=
  if places = [] ∨ vnodes.length ≤ newVnodeForSharding then vnodes
  else vnodes.take
    (vnodes.length - 1 - min (vnodes.length - (newVnodeForSharding + 1)) places.length)

/-- The rounds of the `while` loop. Two are enough. -/
theorem migrateFrom_spec (src : ShardId) (hnodup : newShardingNodes.Nodup)
    (hmap : ∀ vid ∈ vnodes, vid < cursor.migrating.shardingMap.length)
    (hopen : cursor.Open newShardingNodes newVnodeForSharding) : ∃ cursor',
      (∀ fuel, migrateFrom newShardingNodes newVnodeForSharding src (fuel + 2) vnodes
          (vnodes.length - 1) cursor = some (keptVNodes newVnodeForSharding vnodes
          (cursor.placesLeft newShardingNodes newVnodeForSharding), cursor')) ∧
      Fills newShardingNodes newVnodeForSharding cursor
        (List.zipWith planMove (surplus newVnodeForSharding (src, vnodes))
          (cursor.placesLeft newShardingNodes newVnodeForSharding)) cursor' := by
  have hempty := placesLeft_eq_nil_iff hopen
  by_cases hto : cursor.migrateTo < newShardingNodes.length
  · by_cases hle : vnodes.length ≤ newVnodeForSharding
    · have hnone : surplus newVnodeForSharding (src, vnodes) = [] := by
        rw [← length_eq_zero_iff, length_surplus]
        exact Nat.sub_eq_zero_of_le (hle.trans (Nat.le_succ _))
      rw [keptVNodes, if_pos (Or.inr hle), hnone]
      refine ⟨cursor, fun fuel => ?_, Fills.refl hopen⟩
      rw [migrateFrom, if_pos hto, if_pos hle]
    · have hpos : vnodes.length - 1 + 1 = vnodes.length := by omega
      obtain ⟨moves, cursor', hmoves, hrun, hfills⟩ := moveVNodes_spec src hnodup
        (Nat.sub_one_lt_of_lt (Nat.lt_of_not_le hle)) hmap hopen hto
      rw [hpos, take_length] at hmoves
      have hcount : moves.length = min (vnodes.length - (newVnodeForSharding + 1))
          (cursor.placesLeft newShardingNodes newVnodeForSharding).length := by
        rw [hmoves, length_zipWith, List.length_map, length_reverse, length_drop]
      have hnonempty : ¬ (cursor.placesLeft newShardingNodes newVnodeForSharding = [] ∨
          vnodes.length ≤ newVnodeForSharding) := by
        rintro (hnil | hle')
        · exact Nat.not_le_of_lt hto (hempty.mp hnil)
        · exact hle hle'
      have hstart : vnodes.length - 1 - moves.length ≤ vnodes.length := by omega
      rw [keptVNodes, if_neg hnonempty, ← hcount]
      refine ⟨cursor', fun fuel => ?_, hmoves ▸ hfills⟩
      rw [migrateFrom, if_pos hto, if_neg hle, hrun]
      simp only [Option.bind_eq_bind, Option.bind_some, if_pos hstart]
      -- the second round finds either no new shard or no surplus
      rw [migrateFrom]
      by_cases hto' : cursor'.migrateTo < newShardingNodes.length
      · have hleft : moves.length <
            (cursor.placesLeft newShardingNodes newVnodeForSharding).length := by
          by_contra hall
          apply Nat.not_le_of_lt hto'
          rw [← placesLeft_eq_nil_iff hfills.isOpen, hfills.placesLeft]
          exact drop_eq_nil_of_le (Nat.le_of_not_lt hall)
        have hshort : (vnodes.take (vnodes.length - 1 - moves.length)).length ≤
            newVnodeForSharding := by
          rw [length_take]
          omega
        rw [if_pos hto', if_pos hshort]
      · rw [if_neg hto']
  · have hnil := hempty.mpr (Nat.le_of_not_lt hto)
    rw [hnil, keptVNodes, if_pos (Or.inl rfl), zipWith_nil_right]
    refine ⟨cursor, fun fuel => ?_, Fills.refl hopen⟩
    rw [migrateFrom, if_neg hto]

/-- The lists of the old shards afterwards. -/
def keptShards (newVnodeForSharding : ℕ) :
    List (ShardId × List VNodeId) → List ShardId → List (ShardId × List VNodeId)
  | [], _ => []
  | entry :: rest, places =>
    (entry.1, keptVNodes newVnodeForSharding entry.2 places) ::
      keptShards newVnodeForSharding rest
        (places.drop (surplus newVnodeForSharding entry).length)

theorem keptVNodes_nil (newVnodeForSharding : ℕ) (vnodes : List VNodeId) :
    keptVNodes newVnodeForSharding vnodes [] = vnodes := if_pos (Or.inl rfl)

theorem keptShards_nil (newVnodeForSharding : ℕ) (entries : List (ShardId × List VNodeId)) :
    keptShards newVnodeForSharding entries [] = entries := by
  induction entries with
  | nil => rfl
  | cons entry entries ih => rw [keptShards, drop_nil, ih, keptVNodes_nil]

/-- The list of one old shard, and the others after it. -/
theorem migrateShards_cons {fuel : ℕ} {kept : List VNodeId} {cursor' : AddCursor}
    (hfrom : migrateFrom newShardingNodes newVnodeForSharding src fuel vnodes (vnodes.length - 1)
      cursor = some (kept, cursor')) (entries : List (ShardId × List VNodeId))
    (topology : ShardingTopology) :
    migrateShards newShardingNodes newVnodeForSharding fuel ((src, vnodes) :: entries) topology
        cursor =
      if newShardingNodes.length ≤ cursor'.migrateTo then
        some (Finmap.insert src kept topology, cursor')
      else migrateShards newShardingNodes newVnodeForSharding fuel entries
        (Finmap.insert src kept topology) cursor' := by
  rw [migrateShards, hfrom]
  rfl

/-- The whole loop moves what the old shards give, in their order, to the places of the new ones,
and ends with what they keep. -/
theorem migrateShards_spec (hnodup : newShardingNodes.Nodup)
    {entries : List (ShardId × List VNodeId)} {topology : ShardingTopology}
    (hkeys : (entries.map Prod.fst).Nodup)
    (hmap : ∀ entry ∈ entries, ∀ vid ∈ entry.2, vid < cursor.migrating.shardingMap.length)
    (htopology : ∀ entry ∈ entries, topology.get entry.1 = entry.2)
    (hopen : cursor.Open newShardingNodes newVnodeForSharding) : ∃ topology' cursor',
      (∀ fuel, migrateShards newShardingNodes newVnodeForSharding (fuel + 2) entries topology
          cursor = some (topology', cursor')) ∧ Fills newShardingNodes newVnodeForSharding cursor
        (List.zipWith planMove (entries.flatMap (surplus newVnodeForSharding))
          (cursor.placesLeft newShardingNodes newVnodeForSharding)) cursor' ∧
      (∀ shard ∉ entries.map Prod.fst, topology'.get shard = topology.get shard) ∧
      ∀ entry ∈ keptShards newVnodeForSharding entries
          (cursor.placesLeft newShardingNodes newVnodeForSharding),
        topology'.get entry.1 = entry.2 := by
  induction entries generalizing cursor topology with
  | nil =>
    refine ⟨topology, cursor, fun _ => rfl, Fills.refl hopen, fun _ _ => rfl, ?_⟩
    intro entry hentry
    cases hentry
  | cons entry entries ih =>
    obtain ⟨src, vnodes⟩ := entry
    obtain ⟨hnot, hkeys⟩ := nodup_cons.mp hkeys
    obtain ⟨cursor', hfrom, hfills⟩ := migrateFrom_spec src hnodup
      (hmap (src, vnodes) mem_cons_self) hopen
    obtain ⟨kept, hkept⟩ : ∃ kept, kept = keptVNodes newVnodeForSharding vnodes
        (cursor.placesLeft newShardingNodes newVnodeForSharding) := ⟨_, rfl⟩
    have hplaces : cursor'.placesLeft newShardingNodes newVnodeForSharding =
        (cursor.placesLeft newShardingNodes newVnodeForSharding).drop
          (surplus newVnodeForSharding (src, vnodes)).length := by
      rw [hfills.placesLeft, drop_length_zipWith]
    have hother : ∀ shard, shard ≠ src →
        Table.get (Finmap.insert src kept topology) shard = topology.get shard := by
      intro shard hne
      rw [Table.get_insert, if_neg hne]
    have hothers : ∀ entry ∈ entries,
        Table.get (Finmap.insert src kept topology) entry.1 = entry.2 := by
      intro entry hentry
      have hne : entry.1 ≠ src := by
        rintro rfl
        exact hnot (mem_map.mpr ⟨entry, hentry, rfl⟩)
      rw [hother _ hne]
      exact htopology entry (mem_cons_of_mem _ hentry)
    rw [← hkept] at hfrom
    rw [flatMap_cons, zipWith_append_items, keptShards, ← hplaces, ← hkept]
    by_cases hend : newShardingNodes.length ≤ cursor'.migrateTo
    · have hnil := (placesLeft_eq_nil_iff hfills.isOpen).mpr hend
      rw [hnil, zipWith_nil_right, append_nil, keptShards_nil]
      refine ⟨Finmap.insert src kept topology, cursor', ?_, hfills, ?_, ?_⟩
      · intro fuel
        rw [migrateShards_cons (hfrom fuel), if_pos hend]
      · intro shard hshard
        rw [map_cons, mem_cons, not_or] at hshard
        exact hother shard hshard.1
      · intro entry hentry
        rcases mem_cons.mp hentry with rfl | hentry
        · rw [Table.get_insert, if_pos rfl]
        · exact hothers entry hentry
    · have hmap' : ∀ entry ∈ entries, ∀ vid ∈ entry.2,
          vid < cursor'.migrating.shardingMap.length := by
        rw [hfills.migrating, length_shardingMap_recordAll]
        exact fun entry hentry => hmap entry (mem_cons_of_mem _ hentry)
      obtain ⟨topology', cursor'', hrun, hfills', hrest, hlists⟩ :=
        ih hkeys hmap' hothers hfills.isOpen
      refine ⟨topology', cursor'', ?_, hfills.trans hfills', ?_, ?_⟩
      · intro fuel
        rw [migrateShards_cons (hfrom fuel), if_neg hend, hrun]
      · intro shard hshard
        rw [map_cons, mem_cons, not_or] at hshard
        rw [hrest shard hshard.2, hother shard hshard.1]
      · intro entry hentry
        rcases mem_cons.mp hentry with rfl | hentry
        · rw [hrest src hnot, Table.get_insert, if_pos rfl]
        · exact hlists entry hentry

end Loops

end AdDelivery.Sharding
