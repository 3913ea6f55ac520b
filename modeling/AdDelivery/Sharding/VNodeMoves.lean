import AdDelivery.Core.Places
import AdDelivery.Core.Table
import AdDelivery.Sharding.Migration

/-!
# Moving virtual nodes between shards

A change of the shards is planned on the lists of the virtual nodes of each shard. A planned move
is written to the list of its target, to the migrate data list and to the sharding map.
-/

namespace AdDelivery.Sharding

open List List

scoped instance lawfulBEqShardId : LawfulBEq ShardId := inferInstance

abbrev ShardingTopology := Table ShardId (List VNodeId)

/-- The loop that lists the virtual nodes of each shard. -/
def currentShardingTopology (shardingMap : List ShardId) : ShardingTopology :=
  collect (fun i => shardingMap[i]?) id (range shardingMap.length) ∅

/-- One virtual node that goes from a shard to another one. -/
structure VNodeMove where
  vid : VNodeId
  src : ShardId
  dst : ShardId
  deriving DecidableEq

/-- The move of a virtual node with its shard. -/
def planMove (item : VNodeId × ShardId) (dst : ShardId) : VNodeMove := ⟨item.1, item.2, dst⟩

/-- What a planned move writes; `topology` has the list of the target. -/
structure MigrateState where
  topology : ShardingTopology
  migrateDataList : MigrateDataList
  shardingMap : List ShardId

namespace MigrateState

def record (state : MigrateState) (move : VNodeMove) : MigrateState where
  topology := appendAt state.topology move.dst move.vid
  migrateDataList := Finmap.insert move.vid (move.src, move.dst) state.migrateDataList
  shardingMap := state.shardingMap.set move.vid move.dst

/-- The writes of one move; `none` when the virtual node is not in the map. -/
def move (state : MigrateState) (move : VNodeMove) : Option MigrateState :=
  if move.vid < state.shardingMap.length then some (state.record move) else none

def recordAll (state : MigrateState) (moves : List VNodeMove) : MigrateState :=
  moves.foldl record state

end MigrateState

variable {shardingMap oldMap : List ShardId} {shard : ShardId} {vid : VNodeId}

theorem get_currentShardingTopology (shardingMap : List ShardId) (shard : ShardId) :
    (currentShardingTopology shardingMap).get shard =
      (List.range shardingMap.length).filter fun i => decide (shardingMap[i]? = some shard) := by
  rw [currentShardingTopology, get_collect, map_id]
  rfl

/-- A shard has exactly the virtual nodes that the map gives it. -/
theorem mem_get_currentShardingTopology :
    vid ∈ (currentShardingTopology shardingMap).get shard ↔ shardingMap[vid]? = some shard := by
  rw [get_currentShardingTopology, mem_filter, mem_range, decide_eq_true_iff, and_iff_right_iff_imp]
  exact fun h => (List.getElem?_eq_some_iff.mp h).1

theorem mem_currentShardingTopology :
    shard ∈ currentShardingTopology shardingMap ↔ shard ∈ shardingMap := by
  rw [currentShardingTopology, mem_collect, mem_iff_getElem?]
  constructor
  · rintro (h | ⟨i, _, hi⟩)
    · exact absurd h Finmap.notMem_empty
    · exact ⟨i, hi⟩
  · rintro ⟨i, hi⟩
    exact Or.inr ⟨i, mem_range.mpr (List.getElem?_eq_some_iff.mp hi).1, hi⟩

section

variable (shardingMap : List ShardId) (shard : ShardId)

theorem nodup_get_currentShardingTopology :
    ((currentShardingTopology shardingMap).get shard).Nodup := by
  rw [get_currentShardingTopology]
  exact nodup_range.filter _

theorem length_filter_range : ((range shardingMap.length).filter
      fun i => decide (shardingMap[i]? = some shard)).length = shardingMap.count shard := by
  induction shardingMap using reverseRecOn with
  | nil => rfl
  | append_singleton shardingMap last ih =>
    have hbefore : (range shardingMap.length).filter
        (fun i => decide ((shardingMap ++ [last])[i]? = some shard)) =
        (range shardingMap.length).filter
          fun i => decide (shardingMap[i]? = some shard) := by
      apply filter_congr
      intro i hi
      rw [getElem?_append_left (mem_range.mp hi)]
    rw [length_append, length_singleton, range_succ, filter_append,
      length_append, hbefore, ih, count_append, filter_singleton,
      getElem?_concat_length]
    by_cases hlast : last = shard
    · simp [hlast]
    · simp [hlast]

/-- The load of a shard. -/
theorem length_get_currentShardingTopology :
    ((currentShardingTopology shardingMap).get shard).length = shardingMap.count shard := by
  rw [get_currentShardingTopology, length_filter_range]

end

namespace MigrateState

variable (state : MigrateState) (moves : List VNodeMove)

theorem move_eq {move : VNodeMove} (h : move.vid < state.shardingMap.length) :
    state.move move = some (state.record move) := if_pos h

@[simp] theorem recordAll_nil : state.recordAll [] = state := rfl

variable (move : VNodeMove)

@[simp] theorem recordAll_cons :
    state.recordAll (move :: moves) = (state.record move).recordAll moves := rfl

theorem recordAll_append (moves' : List VNodeMove) :
    state.recordAll (moves ++ moves') = (state.recordAll moves).recordAll moves' :=
  foldl_append

@[simp] theorem length_shardingMap_record :
    (state.record move).shardingMap.length = state.shardingMap.length := length_set

@[simp] theorem length_shardingMap_recordAll :
    (state.recordAll moves).shardingMap.length = state.shardingMap.length := by
  induction moves generalizing state with
  | nil => rfl
  | cons move moves ih => rw [recordAll_cons, ih, length_shardingMap_record]

theorem get_topology_record (shard : ShardId) : (state.record move).topology.get shard =
      state.topology.get shard ++ if shard = move.dst then [move.vid] else [] :=
  get_appendAt _ _ _ _

theorem length_topology_record : ((state.record move).topology.get move.dst).length =
      (state.topology.get move.dst).length + 1 := by
  rw [get_topology_record, if_pos rfl, length_append, length_singleton]

theorem get_topology_record_of_ne {move : VNodeMove} {shard : ShardId} (h : shard ≠ move.dst) :
    (state.record move).topology.get shard = state.topology.get shard := by
  rw [get_topology_record, if_neg h, append_nil]

/-- A shard gets the virtual nodes that move to it. -/
theorem get_topology_recordAll (shard : ShardId) : (state.recordAll moves).topology.get shard =
      state.topology.get shard ++
        (moves.filter fun move => decide (move.dst = shard)).map VNodeMove.vid := by
  induction moves generalizing state with
  | nil => exact (append_nil _).symm
  | cons move moves ih =>
    rw [recordAll_cons, ih, get_topology_record]
    by_cases hdst : move.dst = shard
    · simp [hdst]
    · simp [hdst, Ne.symm hdst]

theorem migrateDataList_recordAll : (state.recordAll moves).migrateDataList =
      (moves.map fun move => (move.vid, move.src, move.dst)).foldl
        (fun list entry => Finmap.insert entry.1 entry.2 list) state.migrateDataList := by
  rw [foldl_map]
  induction moves generalizing state with
  | nil => rfl
  | cons move moves ih => rw [recordAll_cons, ih]; rfl

/-- Only moved virtual nodes change their owner. -/
theorem getElem?_recordAll_of_notMem (h : vid ∉ moves.map VNodeMove.vid) :
    (state.recordAll moves).shardingMap[vid]? = state.shardingMap[vid]? := by
  induction moves generalizing state with
  | nil => rfl
  | cons move moves ih =>
    rw [map_cons, mem_cons, not_or] at h
    rw [recordAll_cons, ih _ h.2]
    exact getElem?_set_ne (Ne.symm h.1)

end MigrateState

open MigrateState

/-- Every virtual node moves once, from the shard that owns it to another one. -/
structure MovesOf (oldMap : List ShardId) (moves : List VNodeMove) : Prop where
  nodup : (moves.map VNodeMove.vid).Nodup
  source : ∀ move ∈ moves, oldMap[move.vid]? = some move.src
  leaves : ∀ move ∈ moves, move.src ≠ move.dst

namespace MovesOf

variable {moves : List VNodeMove} {move : VNodeMove} {topology : ShardingTopology}

theorem tail (h : MovesOf oldMap (move :: moves)) :
    MovesOf (oldMap.set move.vid move.dst) moves := by
  obtain ⟨hnot, hnodup⟩ := nodup_cons.mp h.nodup
  refine ⟨hnodup, ?_, fun other hother => h.leaves other (mem_cons_of_mem _ hother)⟩
  intro other hother
  have hne : move.vid ≠ other.vid := by
    intro heq
    rw [heq] at hnot
    exact hnot (mem_map_of_mem hother)
  rw [getElem?_set_ne hne]
  exact h.source other (mem_cons_of_mem _ hother)

theorem lt_length (h : MovesOf oldMap moves) (hmove : move ∈ moves) : move.vid < oldMap.length :=
  (List.getElem?_eq_some_iff.mp (h.source move hmove)).1

/-- The state of a planning function before it starts. -/
abbrev before (topology : ShardingTopology) (oldMap : List ShardId) : MigrateState :=
  ⟨topology, ∅, oldMap⟩

section

variable (h : MovesOf oldMap moves)
include h

theorem getElem?_of_mem (hmove : move ∈ moves) (state : MigrateState)
    (hstate : state.shardingMap = oldMap) :
    (state.recordAll moves).shardingMap[move.vid]? = some move.dst := by
  induction moves generalizing state oldMap with
  | nil => cases hmove
  | cons first moves ih =>
    have hset : (state.record first).shardingMap = oldMap.set first.vid first.dst := by
      rw [← hstate]; rfl
    rw [recordAll_cons]
    rcases mem_cons.mp hmove with rfl | hmem
    · rw [getElem?_recordAll_of_notMem _ _ (nodup_cons.mp h.nodup).1, hset]
      exact getElem?_set_self (h.lt_length mem_cons_self)
    · exact ih h.tail hmem _ hset

theorem lookup_eq_some_iff {src dst : ShardId} :
    ((before topology oldMap).recordAll moves).migrateDataList.lookup vid = some (src, dst) ↔
      ⟨vid, src, dst⟩ ∈ moves := by
  have hkeys : ((moves.map fun move => (move.vid, move.src, move.dst)).map Prod.fst).Pairwise
      (· ≠ ·) := by
    rw [List.map_map]
    exact h.nodup
  rw [migrateDataList_recordAll, Table.lookup_foldl_insert hkeys,
    Finmap.lookup_empty, Option.or_none]
  constructor
  · intro hfind
    obtain ⟨entry, hentry, hvalue⟩ := Option.map_eq_some_iff.mp hfind
    obtain ⟨move, hmove, rfl⟩ := mem_map.mp (mem_of_find?_eq_some hentry)
    have hvid : move.vid = vid := by simpa using find?_some hentry
    obtain ⟨rfl, rfl⟩ := Prod.mk.inj hvalue
    subst hvid
    exact hmove
  · intro hmem
    cases hfind : (moves.map fun move => (move.vid, move.src, move.dst)).find?
        fun entry => decide (entry.1 = vid) with
    | none =>
      have hfalse := find?_eq_none.mp hfind _ (mem_map_of_mem hmem)
      exact absurd (decide_eq_true rfl) hfalse
    | some entry =>
      obtain ⟨move, hmove, rfl⟩ := mem_map.mp (mem_of_find?_eq_some hfind)
      have hvid : move.vid = vid := by simpa using find?_some hfind
      have heq : move = ⟨vid, src, dst⟩ :=
        inj_on_of_nodup_map h.nodup hmove hmem hvid
      rw [heq]
      rfl

/-- A virtual node is in the migrate data list exactly when its owner has changed. -/
theorem lookup_iff_changed {src dst : ShardId} :
    ((before topology oldMap).recordAll moves).migrateDataList.lookup vid = some (src, dst) ↔
      oldMap[vid]? = some src ∧
        ((before topology oldMap).recordAll moves).shardingMap[vid]? = some dst ∧ src ≠ dst := by
  rw [h.lookup_eq_some_iff]
  constructor
  · intro hmem
    exact ⟨h.source _ hmem, h.getElem?_of_mem hmem _ rfl, h.leaves _ hmem⟩
  · rintro ⟨hold, hnew, hne⟩
    by_cases hmoved : vid ∈ moves.map VNodeMove.vid
    · obtain ⟨move, hmove, rfl⟩ := mem_map.mp hmoved
      have hsrc := h.source move hmove
      have hdst := h.getElem?_of_mem hmove (before topology oldMap) rfl
      rw [hold, Option.some.injEq] at hsrc
      rw [hnew, Option.some.injEq] at hdst
      rw [hsrc, hdst]
      exact hmove
    · rw [getElem?_recordAll_of_notMem _ _ hmoved] at hnew
      exact absurd (Option.some.inj (hold.symm.trans hnew)) hne

theorem keys_migrateDataList :
    ((before topology oldMap).recordAll moves).migrateDataList.keys.card = moves.length := by
  have hkeys : ((before topology oldMap).recordAll moves).migrateDataList.keys =
      (moves.map VNodeMove.vid).toFinset := by
    ext vid
    rw [Finmap.mem_keys, ← Finmap.lookup_isSome, Option.isSome_iff_exists, mem_toFinset, mem_map]
    constructor
    · rintro ⟨⟨src, dst⟩, hlookup⟩
      exact ⟨_, h.lookup_eq_some_iff.mp hlookup, rfl⟩
    · rintro ⟨move, hmove, rfl⟩
      exact ⟨(move.src, move.dst), h.lookup_eq_some_iff.mpr hmove⟩
  rw [hkeys, toFinset_card_of_nodup h.nodup, List.length_map]

/-- A shard loses what moves from it and gains what moves to it. -/
theorem count_shardingMap (state : MigrateState) (hstate : state.shardingMap = oldMap)
    (shard : ShardId) :
    (state.recordAll moves).shardingMap.count shard + (moves.map VNodeMove.src).count shard =
      oldMap.count shard + (moves.map VNodeMove.dst).count shard := by
  induction moves generalizing state oldMap with
  | nil => rw [recordAll_nil, hstate]; rfl
  | cons move moves ih =>
    have hset : (state.record move).shardingMap = oldMap.set move.vid move.dst := by
      rw [← hstate]; rfl
    have htail := ih h.tail (state.record move) hset
    obtain ⟨hlt, hsrc⟩ := List.getElem?_eq_some_iff.mp (h.source move mem_cons_self)
    have hcount := count_set (a := move.dst) (b := shard) hlt
    have hpos : move.src = shard → 0 < oldMap.count shard := by
      rintro rfl
      rw [← hsrc]
      exact count_pos_iff.mpr (getElem_mem hlt)
    rw [hsrc] at hcount
    rw [recordAll_cons, map_cons, map_cons, count_cons, count_cons]
    rw [hcount] at htail
    by_cases hfrom : move.src = shard
    · have := hpos hfrom
      rw [if_pos (beq_iff_eq.mpr hfrom)] at htail ⊢
      omega
    · have hfrom' : ¬ (move.src == shard) = true := by rwa [beq_iff_eq]
      rw [if_neg hfrom'] at htail ⊢
      omega

/-- Moves of a whole map are the plan of a migration. -/
def migratePlan (topology : ShardingTopology) (hlength : oldMap.length = MAX_MAP_SIZE)
    (hold : ∀ shard ∈ oldMap, 0 < shard) (hnew : ∀ move ∈ moves, 0 < move.dst) :
    MigratePlan oldMap where
  migrateDataList := ((before topology oldMap).recordAll moves).migrateDataList
  newMap := ((before topology oldMap).recordAll moves).shardingMap
  length_newMap := by rw [length_shardingMap_recordAll, hlength]
  pos_newMap := by
    intro shard hshard
    obtain ⟨vid, hvid⟩ := mem_iff_getElem?.mp hshard
    by_cases hmoved : vid ∈ moves.map VNodeMove.vid
    · obtain ⟨move, hmove, rfl⟩ := mem_map.mp hmoved
      rw [h.getElem?_of_mem hmove _ rfl] at hvid
      exact Option.some.inj hvid ▸ hnew move hmove
    · rw [getElem?_recordAll_of_notMem _ _ hmoved] at hvid
      exact hold shard (mem_of_getElem? hvid)
  moved := h.lookup_iff_changed.mp
  kept := by
    intro vid hnone
    refine getElem?_recordAll_of_notMem _ _ fun hmoved => ?_
    obtain ⟨move, hmove, rfl⟩ := mem_map.mp hmoved
    rw [h.lookup_eq_some_iff.mpr hmove] at hnone
    cases hnone

end

end MovesOf

/-- What the shards give, with the giver. -/
def itemsOf (give : ShardId → List VNodeId) (shards : List ShardId) : List (VNodeId × ShardId) :=
  shards.flatMap fun shard => (give shard).map fun vid => (vid, shard)

section Items

variable {give : ShardId → List VNodeId} {shards places : List ShardId} {move : VNodeMove}

theorem mem_itemsOf : (vid, shard) ∈ itemsOf give shards ↔ shard ∈ shards ∧ vid ∈ give shard := by
  simp only [itemsOf, mem_flatMap, mem_map, Prod.mk.injEq]
  constructor
  · rintro ⟨_, hshard, _, hvid, rfl, rfl⟩
    exact ⟨hshard, hvid⟩
  · rintro ⟨hshard, hvid⟩
    exact ⟨shard, hshard, vid, hvid, rfl, rfl⟩

section

variable (give : ShardId → List VNodeId) (shards : List ShardId)

theorem map_fst_itemsOf : (itemsOf give shards).map Prod.fst = shards.flatMap give := by
  rw [itemsOf, map_flatMap]
  simp only [List.map_map, Function.comp_def, map_id']

/-- The givers take places too, as many as they give. -/
theorem map_snd_itemsOf :
    (itemsOf give shards).map Prod.snd = placesOf (fun shard => (give shard).length) shards := by
  rw [itemsOf, map_flatMap, placesOf]
  simp only [List.map_map, Function.comp_def, map_const']

theorem length_itemsOf :
    (itemsOf give shards).length = (shards.map fun shard => (give shard).length).sum := by
  rw [← length_placesOf, ← map_snd_itemsOf, length_map]

end

/-- Lists of different owners have nothing in common. -/
theorem nodup_flatMap_give (hshards : shards.Nodup) (hgive : ∀ shard ∈ shards, (give shard).Nodup)
    (howner : ∀ shard ∈ shards, ∀ vid ∈ give shard, oldMap[vid]? = some shard) :
    (shards.flatMap give).Nodup := by
  rw [nodup_flatMap]
  refine ⟨hgive, hshards.imp_of_mem ?_⟩
  intro shard shard' hshard hshard' hne vid hvid hvid'
  have howner' := (howner shard hshard vid hvid).symm.trans (howner shard' hshard' vid hvid')
  exact hne (Option.some.inj howner')

variable (items : List (VNodeId × ShardId))

theorem map_vid_moves (places : List ShardId) : (zipWith planMove items places).map VNodeMove.vid =
      (items.take places.length).map Prod.fst := by
  have hput : ∀ item dst, (planMove item dst).vid = item.1 := fun _ _ => rfl
  exact map_zipWith_item hput items places

theorem map_src_moves (places : List ShardId) : (zipWith planMove items places).map VNodeMove.src =
      (items.take places.length).map Prod.snd := by
  have hput : ∀ item dst, (planMove item dst).src = item.2 := fun _ _ => rfl
  exact map_zipWith_item hput items places

theorem map_dst_moves (places : List ShardId) :
    (zipWith planMove items places).map VNodeMove.dst = places.take items.length :=
  map_zipWith_place (fun _ _ => rfl) _ _

theorem mem_moves {items : List (VNodeId × ShardId)}
    (h : move ∈ List.zipWith planMove items places) :
    (move.vid, move.src) ∈ items ∧ move.dst ∈ places := by
  constructor
  · have hput : ∀ item dst, ((planMove item dst).vid, (planMove item dst).src) = id item :=
      fun _ _ => rfl
    have hmem := mem_map_of_mem (f := fun move => (move.vid, move.src)) h
    rw [map_zipWith_item hput, map_id] at hmem
    exact mem_of_mem_take hmem
  · have hmem := mem_map_of_mem (f := VNodeMove.dst) h
    rw [map_dst_moves] at hmem
    exact mem_of_mem_take hmem

/-- Virtual nodes that their owners give to other shards. -/
theorem movesOf_itemsOf (hshards : shards.Nodup) (hgive : ∀ shard ∈ shards, (give shard).Nodup)
    (howner : ∀ shard ∈ shards, ∀ vid ∈ give shard, oldMap[vid]? = some shard)
    (hplaces : ∀ shard ∈ shards, shard ∉ places) :
    MovesOf oldMap (zipWith planMove (itemsOf give shards) places) := by
  refine ⟨?_, ?_, ?_⟩
  · rw [map_vid_moves, map_take, map_fst_itemsOf]
    exact (nodup_flatMap_give hshards hgive howner).sublist (take_sublist _ _)
  · intro move hmove
    obtain ⟨hshard, hvid⟩ := mem_itemsOf.mp (mem_moves hmove).1
    exact howner _ hshard _ hvid
  · intro move hmove heq
    obtain ⟨hitem, hdst⟩ := mem_moves hmove
    exact hplaces _ (mem_itemsOf.mp hitem).1 (heq ▸ hdst)

/-- The moves of one giver. -/
theorem count_src_moves (give : ShardId → List VNodeId) (shards places : List ShardId)
    (shard : ShardId) :
    ((zipWith planMove (itemsOf give shards) places).map VNodeMove.src).count shard =
      ((placesOf (fun shard => (give shard).length) shards).take places.length).count shard := by
  rw [map_src_moves, map_take, map_snd_itemsOf]

end Items

end AdDelivery.Sharding
