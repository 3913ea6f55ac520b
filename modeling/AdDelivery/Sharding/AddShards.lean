import AdDelivery.Sharding.MigrateSharding
import Mathlib.Algebra.Group.Action.Defs
import Mathlib.Algebra.Order.BigOperators.Group.Finset

/-!
# The migration to added shards

The map after shards were added is balanced as far as the surplus of the old shards goes, and the
migrate data list says what changed. The topologies do not agree with the map: each time an old
shard has given what it should, its list loses one virtual node more.
-/

namespace AdDelivery.Sharding

open List MovesOf

/-- A sharding map over the configured shards, and shards to be added to them. -/
structure AddRequest where
  shardList : List ShardId
  shardingMap : List ShardId
  newShardingNodes : List ShardId
  nodup_shardList : shardList.Nodup
  owned : ∀ shard ∈ shardingMap, shard ∈ shardList
  nodup_new : newShardingNodes.Nodup
  new_ne_nil : newShardingNodes ≠ []
  not_configured : ∀ shard ∈ newShardingNodes, shard ∉ shardList
  enough : shardList.length + newShardingNodes.length ≤ shardingMap.length

namespace AddRequest

variable (request : AddRequest)

def newVnodeForSharding : ℕ :=
  request.shardingMap.length / (request.shardList.length + request.newShardingNodes.length)

/-- The call of `migrateSharding`. -/
def migrated (fuel : ℕ) : Option AddOutcome :=
  migrateSharding request.newShardingNodes request.newVnodeForSharding fuel
    (currentShardingTopology request.shardingMap) request.shardingMap

/-- How many virtual nodes an old shard can give. -/
def excess (shard : ShardId) : ℕ :=
  request.shardingMap.count shard - (request.newVnodeForSharding + 1)

/-- The moves, as the map and the migrate data list have them, are those of a balanced
migration. -/
structure Balanced (outcome : AddOutcome) : Prop where
  changed : ∀ vid src dst, outcome.migrateDataList.lookup vid = some (src, dst) ↔
    request.shardingMap[vid]? = some src ∧ outcome.shardingMap[vid]? = some dst ∧ src ≠ dst
  length_map : outcome.shardingMap.length = request.shardingMap.length
  oldToNew : ∀ vid src dst, outcome.migrateDataList.lookup vid = some (src, dst) →
    src ∈ request.shardList ∧ dst ∈ request.newShardingNodes
  bounded : ∀ shard ∈ request.newShardingNodes,
    outcome.shardingMap.count shard ≤ request.newVnodeForSharding
  inOrder : request.newShardingNodes.Pairwise fun shard later =>
    later ∈ outcome.shardingMap →
      outcome.shardingMap.count shard = request.newVnodeForSharding
  keeps : ∀ shard ∈ request.shardList,
    min (request.shardingMap.count shard) (request.newVnodeForSharding + 1) ≤
      outcome.shardingMap.count shard
  moved : outcome.migrateDataList.keys.card =
    min (request.newShardingNodes.length * request.newVnodeForSharding)
      (request.shardList.map request.excess).sum

end AddRequest

/-- The topologies list the virtual nodes of every shard. -/
def AddOutcome.InverseImage (outcome : AddOutcome) : Prop :=
  ∀ shard vid, vid ∈ outcome.currentTopology.get shard ∨ vid ∈ outcome.newTopology.get shard ↔
    outcome.shardingMap[vid]? = some shard

namespace AddRequest

variable (request : AddRequest)

/-- The old shards that own something, in the order of the loop. -/
def owners : List ShardId := (currentShardingTopology request.shardingMap).sortedKeys

/-- What an old shard gives when there is room. -/
def give (shard : ShardId) : List VNodeId :=
  (((currentShardingTopology request.shardingMap).get shard).drop
    (request.newVnodeForSharding + 1)).reverse

def places : List ShardId :=
  placesOf (fun _ => request.newVnodeForSharding) request.newShardingNodes

def moves : List VNodeMove :=
  List.zipWith planMove (itemsOf request.give request.owners) request.places

theorem newVnodeForSharding_pos : 0 < request.newVnodeForSharding := by
  have hpos := length_pos_iff.mpr request.new_ne_nil
  exact Nat.div_pos request.enough (Nat.add_pos_right _ hpos)

variable {shard : ShardId}

theorem mem_owners : shard ∈ request.owners ↔ shard ∈ request.shardingMap := by
  rw [owners, Table.mem_sortedKeys, mem_currentShardingTopology]

theorem nodup_owners : request.owners.Nodup :=
  (currentShardingTopology request.shardingMap).pairwise_sortedKeys.imp ne_of_lt

theorem length_give (shard : ShardId) : (request.give shard).length = request.excess shard := by
  rw [give, length_reverse, length_drop, length_get_currentShardingTopology, excess]

theorem give_owned {vid : VNodeId} (h : vid ∈ request.give shard) :
    request.shardingMap[vid]? = some shard := by
  rw [give, mem_reverse] at h
  exact mem_get_currentShardingTopology.mp (mem_of_mem_drop h)

theorem nodup_give (shard : ShardId) : (request.give shard).Nodup := by
  rw [give, nodup_reverse]
  exact (nodup_get_currentShardingTopology _ _).sublist (drop_sublist _ _)

theorem notMem_places (h : shard ∈ request.shardList) : shard ∉ request.places := fun hmem =>
  request.not_configured shard (mem_of_mem_placesOf hmem) h

theorem length_places : request.places.length =
    request.newShardingNodes.length * request.newVnodeForSharding :=
  length_placesOf_of_const fun _ _ => rfl

theorem movesOf : MovesOf request.shardingMap request.moves := by
  apply movesOf_itemsOf request.nodup_owners
  · exact fun shard _ => request.nodup_give shard
  · exact fun shard _ vid hvid => request.give_owned hvid
  · intro shard hshard
    exact request.notMem_places (request.owned shard (request.mem_owners.mp hshard))

theorem inOrder_eq : (currentShardingTopology request.shardingMap).inOrder =
    request.owners.map fun shard =>
      (shard, (currentShardingTopology request.shardingMap).get shard) :=
  Table.inOrder_eq_map _

theorem flatMap_surplus : (currentShardingTopology request.shardingMap).inOrder.flatMap
      (surplus request.newVnodeForSharding) = itemsOf request.give request.owners := by
  rw [inOrder_eq, flatMap_map]
  rfl

/-- Where the loops start. -/
def start : AddCursor := ⟨0, before ∅ request.shardingMap⟩

theorem placesLeft_start :
    request.start.placesLeft request.newShardingNodes request.newVnodeForSharding =
      request.places := by
  apply placesOf_congr
  intro shard _
  rfl

theorem open_start : request.start.Open request.newShardingNodes request.newVnodeForSharding := by
  intro shard _
  exact request.newVnodeForSharding_pos

theorem get_of_mem_inOrder {entry : ShardId × List VNodeId}
    (hentry : entry ∈ (currentShardingTopology request.shardingMap).inOrder) :
    (currentShardingTopology request.shardingMap).get entry.1 = entry.2 := by
  rw [inOrder_eq] at hentry
  obtain ⟨shard, _, rfl⟩ := mem_map.mp hentry
  rfl

/-- With two rounds or more for each old shard there is an outcome, whose map and list come from
the moves. -/
theorem migrated_eq : ∃ outcome, (∀ fuel, request.migrated (fuel + 2) = some outcome) ∧
      outcome.newTopology = ((MovesOf.before ∅ request.shardingMap).recordAll
        request.moves).topology ∧
      outcome.migrateDataList = ((MovesOf.before ∅ request.shardingMap).recordAll
        request.moves).migrateDataList ∧
      outcome.shardingMap = ((MovesOf.before ∅ request.shardingMap).recordAll
        request.moves).shardingMap ∧ ∀ entry ∈ keptShards request.newVnodeForSharding
          (currentShardingTopology request.shardingMap).inOrder request.places,
        outcome.currentTopology.get entry.1 = entry.2 := by
  have hkeys : ((currentShardingTopology request.shardingMap).inOrder.map Prod.fst).Nodup :=
    (Table.pairwise_inOrder _).imp ne_of_lt
  have hmap : ∀ entry ∈ (currentShardingTopology request.shardingMap).inOrder,
      ∀ vid ∈ entry.2, vid < request.start.migrating.shardingMap.length := by
    intro entry hentry vid hvid
    rw [← request.get_of_mem_inOrder hentry, mem_get_currentShardingTopology] at hvid
    exact (List.getElem?_eq_some_iff.mp hvid).1
  obtain ⟨topology, cursor, hrun, hfills, _, hkept⟩ :=
    migrateShards_spec request.nodup_new hkeys hmap
      (fun _ hentry => request.get_of_mem_inOrder hentry) request.open_start
  rw [placesLeft_start, flatMap_surplus] at hfills
  have hmigrating : cursor.migrating =
      (MovesOf.before ∅ request.shardingMap).recordAll request.moves := hfills.migrating
  refine ⟨⟨topology, cursor.migrating.topology, cursor.migrating.migrateDataList,
    cursor.migrating.shardingMap⟩, ?_, ?_, ?_, ?_, hkept⟩
  · intro fuel
    rw [start] at hrun
    rw [migrated, migrateSharding, hrun]
    rfl
  · rw [hmigrating]
  · rw [hmigrating]
  · rw [hmigrating]

theorem sum_excess :
    (itemsOf request.give request.owners).length = (request.shardList.map request.excess).sum := by
  have hsubset : request.owners.toFinset ⊆ request.shardList.toFinset := by
    intro shard hshard
    rw [mem_toFinset] at hshard ⊢
    exact request.owned shard (request.mem_owners.mp hshard)
  have houtside : ∀ shard ∈ request.shardList.toFinset, shard ∉ request.owners.toFinset →
      request.excess shard = 0 := by
    intro shard _ hshard
    rw [mem_toFinset, mem_owners] at hshard
    rw [excess, count_eq_zero.mpr hshard, Nat.zero_sub]
  rw [length_itemsOf, map_congr_left fun shard _ => request.length_give shard,
    ← sum_toFinset _ request.nodup_owners, ← sum_toFinset _ request.nodup_shardList]
  exact Finset.sum_subset hsubset houtside

theorem count_new (h : shard ∈ request.newShardingNodes) :
    ((before ∅ request.shardingMap).recordAll request.moves).shardingMap.count shard =
      (request.places.take (itemsOf request.give request.owners).length).count shard := by
  have hcount := request.movesOf.count_shardingMap (before ∅ request.shardingMap) rfl shard
  have hnot : shard ∉ request.owners := by
    rw [mem_owners]
    exact fun hmem => request.not_configured shard h (request.owned shard hmem)
  have hnone : shard ∉ (placesOf (fun shard => (request.give shard).length)
      request.owners).take request.places.length :=
    fun hmem => hnot (mem_of_mem_placesOf (mem_of_mem_take hmem))
  have hold : shard ∉ request.shardingMap := fun hmem => hnot (request.mem_owners.mpr hmem)
  rw [moves, count_src_moves, map_dst_moves, count_eq_zero.mpr hnone,
    count_eq_zero.mpr hold, Nat.add_zero, Nat.zero_add] at hcount
  exact hcount

theorem count_old (h : shard ∈ request.shardList) :
    ((before ∅ request.shardingMap).recordAll request.moves).shardingMap.count shard +
        ((placesOf request.excess request.owners).take request.places.length).count shard =
      request.shardingMap.count shard := by
  have hcount := request.movesOf.count_shardingMap (before ∅ request.shardingMap) rfl shard
  have hnone : shard ∉ request.places.take (itemsOf request.give request.owners).length :=
    fun hmem => request.notMem_places h (mem_of_mem_take hmem)
  have hexcess : placesOf (fun shard => (request.give shard).length) request.owners =
      placesOf request.excess request.owners :=
    placesOf_congr fun shard _ => request.length_give shard
  rw [moves, count_src_moves, map_dst_moves, count_eq_zero.mpr hnone, hexcess] at hcount
  exact hcount

theorem balanced_of_moves {outcome : AddOutcome}
    (hlist : outcome.migrateDataList = ((before ∅ request.shardingMap).recordAll
      request.moves).migrateDataList)
    (hmap : outcome.shardingMap = ((before ∅ request.shardingMap).recordAll
      request.moves).shardingMap) : request.Balanced outcome := by
  have hnodup : request.newShardingNodes.Nodup := request.nodup_new
  refine ⟨?_, ?_, ?_, ?_, ?_, ?_, ?_⟩
  · intro vid src dst
    rw [hlist, hmap]
    exact request.movesOf.lookup_iff_changed
  · rw [hmap, MigrateState.length_shardingMap_recordAll]
  · intro vid src dst hlookup
    rw [hlist, request.movesOf.lookup_eq_some_iff] at hlookup
    obtain ⟨hitem, hdst⟩ := mem_moves hlookup
    exact ⟨request.owned src (request.mem_owners.mp (mem_itemsOf.mp hitem).1),
      mem_of_mem_placesOf hdst⟩
  · intro shard hshard
    rw [hmap, request.count_new hshard]
    exact count_take_placesOf_le hnodup hshard _
  · apply (pairwise_full (fun _ => request.newVnodeForSharding) hnodup
      (itemsOf request.give request.owners).length).imp_of_mem
    intro shard later hshard hlater hfull hmem
    rw [hmap, ← count_pos_iff, request.count_new hlater, count_pos_iff] at hmem
    rw [hmap, request.count_new hshard]
    exact hfull hmem
  · intro shard hshard
    have hcount := request.count_old hshard
    have hle : ((placesOf request.excess request.owners).take request.places.length).count shard ≤
        request.excess shard := by
      by_cases howner : shard ∈ request.owners
      · exact count_take_placesOf_le request.nodup_owners howner _
      · rw [count_eq_zero.mpr fun hmem => howner (mem_of_mem_placesOf (mem_of_mem_take hmem))]
        exact Nat.zero_le _
    rw [hmap]
    rw [excess] at hle
    omega
  · rw [hlist, request.movesOf.keys_migrateDataList, moves, length_zipWith, sum_excess,
      length_places, Nat.min_comm]

/-- Some shard has more virtual nodes than every shard should have. -/
theorem exists_loaded : ∃ shard ∈ request.owners,
    request.newVnodeForSharding < request.shardingMap.count shard := by
  by_contra hnone
  have hle : ∀ shard ∈ request.shardList,
      request.shardingMap.count shard ≤ request.newVnodeForSharding := by
    intro shard _
    by_contra hlt
    have hpos : 0 < request.shardingMap.count shard :=
      (Nat.zero_le _).trans_lt (Nat.lt_of_not_le hlt)
    exact hnone ⟨shard, request.mem_owners.mpr (count_pos_iff.mp hpos), Nat.lt_of_not_le hlt⟩
  have hsum : ∑ shard ∈ request.shardList.toFinset, request.shardingMap.count shard =
      request.shardingMap.length := by
    have howned : ∀ shard ∈ (request.shardingMap : Multiset ShardId),
        shard ∈ request.shardList.toFinset := by
      intro shard hshard
      exact mem_toFinset.mpr (request.owned shard hshard)
    simpa using Multiset.sum_count_eq_card howned
  have hbound : request.shardingMap.length ≤
      request.shardList.length * request.newVnodeForSharding := by
    rw [← hsum, ← toFinset_card_of_nodup request.nodup_shardList]
    exact Finset.sum_le_card_nsmul _ _ _ fun shard hshard => hle shard (mem_toFinset.mp hshard)
  have hshare : request.newVnodeForSharding *
      (request.shardList.length + request.newShardingNodes.length) ≤
        request.shardingMap.length := Nat.div_mul_le_self _ _
  have hnew : 0 < request.newVnodeForSharding * request.newShardingNodes.length :=
    Nat.mul_pos request.newVnodeForSharding_pos (length_pos_iff.mpr request.new_ne_nil)
  rw [Nat.mul_add, Nat.mul_comm _ request.shardList.length] at hshare
  omega

/-- The first of them is what the loop comes to first. -/
theorem exists_first_loaded : ∃ before shard after, request.owners = before ++ shard :: after ∧
      request.newVnodeForSharding < request.shardingMap.count shard ∧
      ∀ shard' ∈ before, request.shardingMap.count shard' ≤ request.newVnodeForSharding := by
  obtain ⟨loaded, hloaded, hlt⟩ := request.exists_loaded
  have hsome : (request.owners.find? fun shard =>
      decide (request.newVnodeForSharding < request.shardingMap.count shard)).isSome := by
    rw [find?_isSome]
    exact ⟨loaded, hloaded, decide_eq_true hlt⟩
  obtain ⟨shard, hshard⟩ := Option.isSome_iff_exists.mp hsome
  obtain ⟨hp, before, after, howners, hbefore⟩ := find?_eq_some_iff_append.mp hshard
  refine ⟨before, shard, after, howners, of_decide_eq_true hp, ?_⟩
  intro shard' hshard'
  have hnot := hbefore shard' hshard'
  simpa using hnot

end AddRequest

/-- An old shard after others that give nothing. -/
theorem mem_keptShards {newVnodeForSharding : ℕ} {before after : List (ShardId × List VNodeId)}
    (entry : ShardId × List VNodeId) (places : List ShardId)
    (h : ∀ entry' ∈ before, entry'.2.length ≤ newVnodeForSharding) :
    (entry.1, keptVNodes newVnodeForSharding entry.2 places) ∈
      keptShards newVnodeForSharding (before ++ entry :: after) places := by
  induction before with
  | nil => exact mem_cons_self
  | cons entry' before ih =>
    have hnone : (surplus newVnodeForSharding entry').length = 0 := by
      rw [length_surplus]
      have hle := h entry' mem_cons_self
      omega
    rw [cons_append, keptShards, hnone]
    exact mem_cons_of_mem _ (ih fun entry'' hmem => h entry'' (mem_cons_of_mem _ hmem))

namespace AddRequest

variable (request : AddRequest)

/-- What is left of the list of a shard that has too many. -/
theorem keptVNodes_loaded {shard : ShardId}
    (hlt : request.newVnodeForSharding < request.shardingMap.count shard) :
    keptVNodes request.newVnodeForSharding
        ((currentShardingTopology request.shardingMap).get shard) request.places =
      ((currentShardingTopology request.shardingMap).get shard).take
        (request.shardingMap.count shard - 1 -
          min (request.excess shard) request.places.length) := by
  have hplaces : request.places ≠ [] := by
    rw [← length_pos_iff, length_places]
    exact Nat.mul_pos (length_pos_iff.mpr request.new_ne_nil)
      request.newVnodeForSharding_pos
  rw [keptVNodes, length_get_currentShardingTopology, if_neg, excess]
  rintro (hnil | hle)
  · exact hplaces hnil
  · exact Nat.not_le_of_lt hlt hle

/-- The list of some old shard is one shorter than the map says. -/
theorem exists_short : ∃ shard ∈ request.shardList, ∃ kept,
    (shard, kept) ∈ keptShards request.newVnodeForSharding
        (currentShardingTopology request.shardingMap).inOrder request.places ∧ kept.Nodup ∧
      kept.length + 1 = ((before ∅ request.shardingMap).recordAll
        request.moves).shardingMap.count shard := by
  obtain ⟨before, shard, after, howners, hlt, hbefore⟩ := request.exists_first_loaded
  have hmem : shard ∈ request.owners := by
    rw [howners]
    exact mem_append_right _ mem_cons_self
  have hshard := request.owned shard (request.mem_owners.mp hmem)
  have hcount := request.count_old hshard
  rw [howners, count_take_placesOf_first] at hcount
  · refine ⟨shard, hshard, keptVNodes request.newVnodeForSharding
      ((currentShardingTopology request.shardingMap).get shard) request.places, ?_, ?_, ?_⟩
    · rw [inOrder_eq, howners, map_append]
      apply mem_keptShards (shard, (currentShardingTopology request.shardingMap).get shard)
      intro entry hentry
      obtain ⟨shard', hshard', rfl⟩ := mem_map.mp hentry
      rw [length_get_currentShardingTopology]
      exact hbefore shard' hshard'
    · rw [request.keptVNodes_loaded hlt]
      exact (nodup_get_currentShardingTopology _ _).sublist (take_sublist _ _)
    · rw [request.keptVNodes_loaded hlt, length_take, length_get_currentShardingTopology]
      rw [excess] at hcount ⊢
      omega
  · rw [← howners]
    exact request.nodup_owners
  · intro shard' hshard'
    rw [excess]
    have hle := hbefore shard' hshard'
    omega

/-- Every migration that is planned to new shards is balanced, and leaves topologies that are not
those of the map. -/
theorem migrated_balanced : ∃ outcome, (∀ fuel, request.migrated (fuel + 2) = some outcome) ∧
    request.Balanced outcome ∧ ¬ outcome.InverseImage := by
  obtain ⟨outcome, hrun, hnew, hlist, hmap, hkept⟩ := request.migrated_eq
  refine ⟨outcome, hrun, request.balanced_of_moves hlist hmap, ?_⟩
  intro hinverse
  obtain ⟨shard, hshard, kept, hmem, hnodup, hlength⟩ := request.exists_short
  have hnone : outcome.newTopology.get shard = [] := by
    rw [hnew, MigrateState.get_topology_recordAll, map_eq_nil_iff.mpr]
    · rfl
    · rw [filter_eq_nil_iff]
      intro move hmove heq
      exact request.notMem_places hshard (of_decide_eq_true heq ▸ (mem_moves hmove).2)
  have hperm : kept.Perm ((currentShardingTopology outcome.shardingMap).get shard) := by
    rw [perm_ext_iff_of_nodup hnodup (nodup_get_currentShardingTopology _ _)]
    intro vid
    have hvid := hinverse shard vid
    rw [hnone, hkept _ hmem, or_iff_left not_mem_nil] at hvid
    rw [hvid, mem_get_currentShardingTopology]
  have heq := hperm.length_eq
  rw [length_get_currentShardingTopology, hmap] at heq
  omega

/-- A request that passes the checks is migrated. -/
theorem planNewShardingNodes_eq (fuel : ℕ) {mapFile : Option (List Char)}
    (hfile : readShardingMapFile mapFile [] = request.shardingMap) :
    planNewShardingNodes fuel true request.shardList request.shardList request.newShardingNodes
      mapFile = some (request.migrated fuel) := by
  have hnew := length_pos_iff.mpr request.new_ne_nil
  have hmap : request.shardingMap ≠ [] := by
    rw [← length_pos_iff]
    exact (Nat.add_pos_right _ hnew).trans_le request.enough
  have hold : request.shardList ≠ [] := by
    obtain ⟨shard, hshard⟩ := exists_mem_of_ne_nil _ hmap
    exact ne_nil_of_mem (request.owned shard hshard)
  have hconfigured : (request.newShardingNodes.any
      fun shard => decide (shard ∈ request.shardList)) = false := by
    rw [any_eq_false]
    intro shard hshard hmem
    exact request.not_configured shard hshard (of_decide_eq_true hmem)
  simp only [planNewShardingNodes, hfile, and_false, hold, request.new_ne_nil, hconfigured, hmap,
    Nat.not_lt_of_le request.enough, Bool.not_true, Bool.false_eq_true, if_false]
  rfl

/-- What is planned for new shards is the plan of a migration. -/
theorem planNewShardingNodes_migratePlan (hlength : request.shardingMap.length = MAX_MAP_SIZE)
    (hold : ∀ shard ∈ request.shardList, 0 < shard)
    (hnew : ∀ shard ∈ request.newShardingNodes, 0 < shard) {mapFile : Option (List Char)}
    (hfile : readShardingMapFile mapFile [] = request.shardingMap) :
    ∃ (outcome : AddOutcome) (plan : MigratePlan request.shardingMap),
      (∀ fuel, planNewShardingNodes (fuel + 2) true request.shardList request.shardList
        request.newShardingNodes mapFile = some (some outcome)) ∧
      outcome.migrateDataList = plan.migrateDataList ∧ outcome.shardingMap = plan.newMap := by
  obtain ⟨outcome, hmigrated, -, hlist, hmap, -⟩ := request.migrated_eq
  have hdst : ∀ move ∈ request.moves, 0 < move.dst := fun move hmove =>
    hnew _ (mem_of_mem_placesOf (mem_moves hmove).2)
  refine ⟨outcome, request.movesOf.migratePlan ∅ hlength
    (fun shard hshard => hold shard (request.owned shard hshard)) hdst, fun fuel => ?_, hlist, hmap⟩
  rw [request.planNewShardingNodes_eq _ hfile, hmigrated]

/-- Three virtual nodes on one shard, and a second shard. -/
def threeOnOne : AddRequest where
  shardList := [1]
  shardingMap := [1, 1, 1]
  newShardingNodes := [2]
  nodup_shardList := by decide
  owned := by simp
  nodup_new := by decide
  new_ne_nil := by decide
  not_configured := by simp
  enough := by decide

theorem migrated_threeOnOne : (threeOnOne.migrated 2).map (fun outcome =>
      (outcome.shardingMap, outcome.currentTopology.get 1, outcome.newTopology.get 1)) =
        some ([1, 1, 2], [0], []) := by decide

theorem threeOnOne_not_inverse : ¬ ∃ outcome,
    (∀ fuel, threeOnOne.migrated (fuel + 2) = some outcome) ∧
      threeOnOne.Balanced outcome ∧ outcome.InverseImage := by
  rintro ⟨outcome, hrun, _, hinverse⟩
  have hone := migrated_threeOnOne
  rw [hrun 0, Option.map_some, Option.some.injEq, Prod.mk.injEq, Prod.mk.injEq] at hone
  obtain ⟨hmap, hcurrent, hnew⟩ := hone
  have hlost := hinverse 1 1
  rw [hmap, hcurrent, hnew] at hlost
  exact absurd (hlost.mpr rfl) (by decide)

end AddRequest

end AdDelivery.Sharding
