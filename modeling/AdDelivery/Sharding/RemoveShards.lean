import AdDelivery.Sharding.RemoveSharding
import Mathlib.Algebra.Group.Action.Defs
import Mathlib.Algebra.Order.BigOperators.Group.Finset

/-!
# The migration from removed shards

As long as every shard that stays has a virtual node, there is room for those of the removed ones,
and all that stay are listed. A shard without virtual nodes is not in the topology and gets lost
from the list.
-/

namespace AdDelivery.Sharding

open List hiding Disjoint

/-- A sharding map, and some of the configured shards that are to be removed. -/
structure RemoveRequest where
  shardList : List ShardId
  shardingMap : List ShardId
  removeShardingNodes : List ShardId
  nodup_shardList : shardList.Nodup
  nodup_remove : removeShardingNodes.Nodup
  configured : ∀ shard ∈ removeShardingNodes, shard ∈ shardList
  fewer : removeShardingNodes.length < shardList.length

namespace RemoveRequest

variable (request : RemoveRequest)

def newVnodeForSharding : ℕ :=
  request.shardingMap.length / (request.shardList.length - request.removeShardingNodes.length)

/-- The call of `removeSharding`. -/
def removed : Option (Bool × RemoveOutcome) :=
  removeSharding request.removeShardingNodes request.newVnodeForSharding
    (currentShardingTopology request.shardingMap) request.shardingMap

/-- Every configured shard that stays has a virtual node. -/
def AllOwn : Prop :=
  ∀ shard ∈ request.shardList, shard ∉ request.removeShardingNodes → shard ∈ request.shardingMap

/-- The removed shards are gone, and nothing else. -/
structure Vacated (outcome : RemoveOutcome) : Prop where
  gone : ∀ shard ∈ outcome.shardingMap, shard ∉ request.removeShardingNodes
  others : ∀ (vid : VNodeId) (shard : ShardId), request.shardingMap[vid]? = some shard →
    shard ∉ request.removeShardingNodes → outcome.shardingMap[vid]? = some shard
  length_map : outcome.shardingMap.length = request.shardingMap.length
  listed : ∀ vid src dst, outcome.migrateDataList.lookup vid = some (src, dst) ↔
    src ∈ request.removeShardingNodes ∧ request.shardingMap[vid]? = some src ∧
      outcome.shardingMap[vid]? = some dst
  left_once : ∀ shard ∈ request.shardList, shard ∉ request.removeShardingNodes →
    outcome.leftShardingNodes.count shard = 1
  left_stays : ∀ shard ∈ outcome.leftShardingNodes, shard ∉ request.removeShardingNodes
  load : ∀ shard ∉ request.removeShardingNodes, outcome.shardingMap.count shard ≤
    max (request.shardingMap.count shard + 1) (request.newVnodeForSharding + 1)

/-- The call has a result. It is `true` at least where every shard that stays has a virtual node,
and where it is `true` the shards are removed. -/
def RemovesRight : Prop :=
  ∃ ok outcome, request.removed = some (ok, outcome) ∧ (request.AllOwn → ok = true) ∧
    (ok = true → request.Vacated outcome)

/-- How many virtual nodes a shard gets before it is left. -/
def roomOf (shard : ShardId) : ℕ :=
  max 1 (request.newVnodeForSharding + 1 - request.shardingMap.count shard)

/-- The room of the shards that stay and have virtual nodes. -/
def room : ℕ :=
  ((request.shardingMap.dedup.filter
    fun shard => decide (shard ∉ request.removeShardingNodes)).map request.roomOf).sum

/-- The virtual nodes of the removed shards. -/
def load : ℕ := (request.removeShardingNodes.map fun shard => request.shardingMap.count shard).sum

/-- There is no shard to move to or not enough room. The last place can only be taken by a virtual
node of the last removed shard. -/
def DoesNotFit : Prop :=
  (∀ shard ∈ request.shardingMap, shard ∈ request.removeShardingNodes) ∨
    request.room < request.load ∨
    request.room = request.load ∧ ∃ shard ∈ request.removeShardingNodes,
      (∀ shard' ∈ request.removeShardingNodes, shard' ≤ shard) ∧ shard ∉ request.shardingMap

end RemoveRequest

variable {removeShardingNodes : List ShardId} {shard : ShardId}

theorem lookup_takeOut (topologies : ShardingTopology × ShardingTopology) :
    let taken := removeShardingNodes.foldl (fun topologies shard =>
      (Finmap.insert shard (topologies.2.get shard) topologies.1, topologies.2.erase shard))
      topologies
    taken.2.lookup shard =
        (if shard ∈ removeShardingNodes then none else topologies.2.lookup shard) ∧
      (removeShardingNodes.Nodup → taken.1.lookup shard =
        if shard ∈ removeShardingNodes then some (topologies.2.get shard)
        else topologies.1.lookup shard) := by
  induction removeShardingNodes generalizing topologies with
  | nil => exact ⟨rfl, fun _ => rfl⟩
  | cons first rest ih =>
    obtain ⟨hstay, hremoved⟩ :=
      ih (Finmap.insert first (topologies.2.get first) topologies.1, topologies.2.erase first)
    rw [nodup_cons]
    by_cases hfirst : shard = first
    · subst hfirst
      refine ⟨hstay.trans ?_, fun hnodup => (hremoved hnodup.2).trans ?_⟩
      · rw [if_pos mem_cons_self, Finmap.lookup_erase, ite_self]
      · rw [if_neg hnodup.1, if_pos mem_cons_self]
        exact Finmap.lookup_insert _
    · refine ⟨hstay.trans ?_, fun hnodup => (hremoved hnodup.2).trans ?_⟩
      · rw [Finmap.lookup_erase_ne hfirst]
        simp only [mem_cons, hfirst, false_or]
      · rw [Finmap.lookup_insert_of_ne _ hfirst, Table.get, Finmap.lookup_erase_ne hfirst,
          ← Table.get]
        simp only [mem_cons, hfirst, false_or]

theorem lookup_takeOut_stay (topology : ShardingTopology) :
    (takeOut removeShardingNodes topology).2.lookup shard =
      if shard ∈ removeShardingNodes then none else topology.lookup shard :=
  (lookup_takeOut (∅, topology)).1

theorem lookup_takeOut_removed (hnodup : removeShardingNodes.Nodup) (topology : ShardingTopology) :
    (takeOut removeShardingNodes topology).1.lookup shard =
      if shard ∈ removeShardingNodes then some (topology.get shard) else none :=
  (lookup_takeOut (∅, topology)).2 hnodup

/-- The last of ascending shards is the largest one. -/
theorem mem_getLast?_iff {shards : List ShardId} (h : shards.Pairwise (· < ·)) :
    shard ∈ shards.getLast? ↔ shard ∈ shards ∧ ∀ shard' ∈ shards, shard' ≤ shard := by
  induction shards using List.reverseRecOn with
  | nil => simp
  | append_singleton shards last _ =>
    have hlast := (pairwise_append.mp h).2.2
    rw [getLast?_concat, Option.mem_some_iff]
    constructor
    · rintro rfl
      refine ⟨mem_append_right _ mem_cons_self, ?_⟩
      intro shard' hshard'
      rcases mem_append.mp hshard' with hmem | hmem
      · exact le_of_lt (hlast _ hmem _ mem_cons_self)
      · exact le_of_eq (mem_singleton.mp hmem)
    · rintro ⟨hmem, hmax⟩
      have hle := hmax last (mem_append_right _ mem_cons_self)
      rcases mem_append.mp hmem with hmem | hmem
      · exact absurd (hlast _ hmem _ mem_cons_self) (not_lt_of_ge hle)
      · exact (mem_singleton.mp hmem).symm

namespace RemoveRequest

variable (request : RemoveRequest)

/-- The shards that stay and have virtual nodes, in the order of the destinations. -/
def stays : List ShardId :=
  (takeOut request.removeShardingNodes (currentShardingTopology request.shardingMap)).2.sortedKeys

/-- The removed shards, in the order of the loop. -/
def leavers : List ShardId :=
  (takeOut request.removeShardingNodes (currentShardingTopology request.shardingMap)).1.sortedKeys

def items : List (VNodeId × ShardId) :=
  itemsOf (currentShardingTopology request.shardingMap).get request.leavers

def places : List ShardId := placesOf request.roomOf request.stays

def moves : List VNodeMove := List.zipWith planMove request.items request.places

theorem mem_stays {shard : ShardId} : shard ∈ request.stays ↔
      shard ∈ request.shardingMap ∧ shard ∉ request.removeShardingNodes := by
  rw [stays, Table.mem_sortedKeys, ← Finmap.lookup_isSome, lookup_takeOut_stay]
  split
  · rename_i hmem
    simp [hmem]
  · rename_i hmem
    rw [Finmap.lookup_isSome, mem_currentShardingTopology, and_iff_left hmem]

theorem mem_leavers {shard : ShardId} :
    shard ∈ request.leavers ↔ shard ∈ request.removeShardingNodes := by
  rw [leavers, Table.mem_sortedKeys, ← Finmap.lookup_isSome,
    lookup_takeOut_removed request.nodup_remove]
  split
  · rename_i hmem
    simp [hmem]
  · rename_i hmem
    simp [hmem]

theorem nodup_stays : request.stays.Nodup := (Table.pairwise_sortedKeys _).imp ne_of_lt

theorem nodup_leavers : request.leavers.Nodup := (Table.pairwise_sortedKeys _).imp ne_of_lt

theorem leavers_perm : request.leavers.Perm request.removeShardingNodes := by
  rw [perm_ext_iff_of_nodup request.nodup_leavers request.nodup_remove]
  exact fun _ => request.mem_leavers

theorem length_items : request.items.length = request.load := by
  rw [items, length_itemsOf]
  simp only [length_get_currentShardingTopology]
  exact (request.leavers_perm.map _).sum_eq

theorem length_places : request.places.length = request.room := by
  have hperm : request.stays.Perm (request.shardingMap.dedup.filter
      fun shard => decide (shard ∉ request.removeShardingNodes)) := by
    rw [perm_ext_iff_of_nodup request.nodup_stays ((nodup_dedup _).filter _)]
    intro shard
    rw [mem_stays, mem_filter, mem_dedup, decide_eq_true_iff]
  rw [places, length_placesOf]
  exact (hperm.map _).sum_eq

theorem notMem_places {shard : ShardId} (h : shard ∈ request.removeShardingNodes) :
    shard ∉ request.places := fun hmem => (request.mem_stays.mp (mem_of_mem_placesOf hmem)).2 h

theorem movesOf : MovesOf request.shardingMap request.moves := by
  apply movesOf_itemsOf request.nodup_leavers
  · exact fun shard _ => nodup_get_currentShardingTopology _ shard
  · exact fun shard _ vid hvid => mem_get_currentShardingTopology.mp hvid
  · exact fun shard hshard => request.notMem_places (request.mem_leavers.mp hshard)

theorem inOrder_leavers :
    (takeOut request.removeShardingNodes (currentShardingTopology request.shardingMap)).1.inOrder =
      request.leavers.map fun shard =>
        (shard, (currentShardingTopology request.shardingMap).get shard) := by
  rw [Table.inOrder_eq_map]
  apply map_congr_left
  intro shard hshard
  rw [Table.get, lookup_takeOut_removed request.nodup_remove,
    if_pos (request.mem_leavers.mp hshard), Option.getD_some]

theorem removedItems_leavers : removedItems (takeOut request.removeShardingNodes
      (currentShardingTopology request.shardingMap)).1.inOrder = request.items := by
  rw [removedItems, inOrder_leavers, flatMap_map]
  rfl

theorem card_leavers : (takeOut request.removeShardingNodes
      (currentShardingTopology request.shardingMap)).1.keys.card =
        request.removeShardingNodes.length := by
  rw [← toFinset_card_of_nodup request.nodup_remove]
  congr 1
  ext shard
  rw [Finmap.mem_keys, ← Table.mem_sortedKeys, mem_toFinset]
  exact request.mem_leavers

/-- The last removed shard has virtual nodes, or some other one is the largest. -/
theorem last_leaver_iff : (∀ entry ∈ (request.leavers.map fun shard =>
        (shard, (currentShardingTopology request.shardingMap).get shard)).getLast?, entry.2 ≠ []) ↔
      ¬ ∃ shard ∈ request.removeShardingNodes,
        (∀ shard' ∈ request.removeShardingNodes, shard' ≤ shard) ∧ shard ∉ request.shardingMap := by
  have hlast : ∀ shard, shard ∈ request.leavers.getLast? ↔
      shard ∈ request.removeShardingNodes ∧
        ∀ shard' ∈ request.removeShardingNodes, shard' ≤ shard := by
    intro shard
    have hascending : request.leavers.Pairwise (· < ·) := Table.pairwise_sortedKeys _
    rw [mem_getLast?_iff hascending]
    simp only [mem_leavers]
  have hempty : ∀ shard, (currentShardingTopology request.shardingMap).get shard = [] ↔
      shard ∉ request.shardingMap := by
    intro shard
    rw [← length_eq_zero_iff, length_get_currentShardingTopology, count_eq_zero]
  rw [getLast?_map]
  constructor
  · rintro hall ⟨shard, hmem, hmax, hnone⟩
    have hget : request.leavers.getLast? = some shard := (hlast shard).mpr ⟨hmem, hmax⟩
    exact hall _ (by rw [hget]; rfl) ((hempty shard).mpr hnone)
  · intro hnone entry hentry hnil
    obtain ⟨shard, hget, rfl⟩ := Option.map_eq_some_iff.mp hentry
    obtain ⟨hmem, hmax⟩ := (hlast shard).mp hget
    exact hnone ⟨shard, hmem, hmax, (hempty shard).mp hnil⟩

/-- The shards that stay, with their lists. -/
def staying : ShardingTopology :=
  (takeOut request.removeShardingNodes (currentShardingTopology request.shardingMap)).2

/-- The cursor before the loops. -/
def start : RemoveCursor :=
  ⟨request.stays, [], MovesOf.before request.staying request.shardingMap⟩

theorem keys_staying : request.staying.keys = ∅ ↔
    ∀ shard ∈ request.shardingMap, shard ∈ request.removeShardingNodes := by
  rw [Finset.eq_empty_iff_forall_notMem]
  apply forall_congr'
  intro shard
  rw [Finmap.mem_keys, ← Table.mem_sortedKeys, staying, ← stays, mem_stays, not_and, not_not]

theorem placesLeft_start :
    request.start.placesLeft request.newVnodeForSharding = request.places := by
  apply placesOf_congr
  intro shard hshard
  have hget : request.staying.get shard =
      (currentShardingTopology request.shardingMap).get shard := by
    rw [Table.get, staying, lookup_takeOut_stay, if_neg (request.mem_stays.mp hshard).2]
    rfl
  rw [RemoveCursor.room, start, hget, length_get_currentShardingTopology]
  rfl

/-- The virtual nodes fit, where there is a shard to move to. -/
theorem allFit_iff (hstays : request.staying.keys ≠ ∅) : AllFit (takeOut request.removeShardingNodes
      (currentShardingTopology request.shardingMap)).1.inOrder request.places.length ↔
      ¬ request.DoesNotFit := by
  rw [AllFit, removedItems_leavers, length_items, length_places, inOrder_leavers, last_leaver_iff,
    DoesNotFit, ← keys_staying, not_or, not_or, not_and_or]
  constructor
  · rintro (hlt | ⟨heq, hlast⟩)
    · exact ⟨hstays, Nat.lt_asymm hlt, Or.inl (Nat.ne_of_gt hlt)⟩
    · exact ⟨hstays, Nat.not_lt_of_le (Nat.le_of_eq heq), Or.inr hlast⟩
  · rintro ⟨_, hle, hne | hlast⟩
    · exact Or.inl (by omega)
    · rcases Nat.lt_or_eq_of_le (Nat.le_of_not_lt hle) with hlt | heq
      · exact Or.inl hlt
      · exact Or.inr ⟨heq, hlast⟩

theorem load_le_room_of_fits (h : ¬ request.DoesNotFit) : request.load ≤ request.room :=
  Nat.le_of_not_lt fun hlt => h (Or.inr (Or.inl hlt))

/-- The loops always end, with `true` exactly where all virtual nodes fit, and then they have made
the moves. -/
theorem removeShards_start (hstays : request.staying.keys ≠ ∅) : ∃ ok cursor,
    removeShards request.newVnodeForSharding (takeOut request.removeShardingNodes
      (currentShardingTopology request.shardingMap)).1.inOrder request.start = some (ok, cursor) ∧
      (ok = true ↔ ¬ request.DoesNotFit) ∧
      (ok = true → RemoveCursor.Fills request.newVnodeForSharding request.start request.moves
        cursor) := by
  have hmap : ∀ entry ∈ (takeOut request.removeShardingNodes
      (currentShardingTopology request.shardingMap)).1.inOrder, ∀ vid ∈ entry.2,
        vid < request.start.migrating.shardingMap.length := by
    intro entry hentry vid hvid
    rw [inOrder_leavers] at hentry
    obtain ⟨shard, _, rfl⟩ := mem_map.mp hentry
    exact (List.getElem?_eq_some_iff.mp (mem_get_currentShardingTopology.mp hvid)).1
  have hto : request.start.migrateToIt ≠ [] := by
    intro hnil
    change request.stays = [] at hnil
    apply hstays
    rw [keys_staying]
    intro shard hshard
    by_contra hnot
    have hmem := request.mem_stays.mpr ⟨hshard, hnot⟩
    rw [hnil] at hmem
    cases hmem
  have hnodup : (request.start.leftShardingNodes ++ request.start.migrateToIt).Nodup :=
    request.nodup_stays
  obtain ⟨ok, cursor, hrun, hok, hfills⟩ :=
    removeShards_spec request.newVnodeForSharding hnodup hmap hto
  rw [placesLeft_start, removedItems_leavers] at hfills
  rw [placesLeft_start, request.allFit_iff hstays] at hok
  exact ⟨ok, cursor, hrun, hok, hfills⟩

/-- The call always has a result. Where it is `true`, the shards that stay are all in the list and
the moves are made. -/
theorem removed_eq : ∃ ok outcome,
    request.removed = some (ok, outcome) ∧ (ok = true ↔ ¬ request.DoesNotFit) ∧
      (ok = true → outcome.leftShardingNodes = request.stays ∧
        outcome.migrateDataList = (request.start.migrating.recordAll
          request.moves).migrateDataList ∧
        outcome.shardingMap = (request.start.migrating.recordAll request.moves).shardingMap) := by
  rw [removed, removeSharding]
  dsimp only
  rw [← staying, card_leavers]
  by_cases hempty : request.staying.keys = ∅
  · rw [if_pos (Or.inl hempty)]
    refine ⟨false, _, rfl, iff_of_false Bool.false_ne_true ?_, fun h => nomatch h⟩
    exact not_not_intro (Or.inl (request.keys_staying.mp hempty))
  · obtain ⟨ok, cursor, hrun, hok, hfills⟩ := request.removeShards_start hempty
    have hcontinue : ¬ (request.staying.keys = ∅ ∨
        request.removeShardingNodes.length ≠ request.removeShardingNodes.length) := by
      rintro (h | h)
      · exact hempty h
      · exact h rfl
    rw [if_neg hcontinue]
    change ∃ ok outcome, Option.bind (removeShards request.newVnodeForSharding _ request.start)
      _ = some (ok, outcome) ∧ _
    rw [hrun]
    refine ⟨ok, _, rfl, hok, ?_⟩
    intro htrue
    have hfilled := hfills htrue
    refine ⟨?_, ?_, ?_⟩
    · rw [htrue]
      exact hfilled.shards
    · rw [hfilled.migrating]
    · rw [hfilled.migrating]

theorem sum_count_stays :
    ∑ shard ∈ request.stays.toFinset, request.shardingMap.count shard + request.load =
      request.shardingMap.length := by
  have hdisjoint : Disjoint request.stays.toFinset request.removeShardingNodes.toFinset := by
    rw [Finset.disjoint_left]
    intro shard hshard hremove
    exact (request.mem_stays.mp (mem_toFinset.mp hshard)).2 (mem_toFinset.mp hremove)
  have howned : ∀ shard ∈ (request.shardingMap : Multiset ShardId),
      shard ∈ request.stays.toFinset ∪ request.removeShardingNodes.toFinset := by
    intro shard hshard
    rw [Finset.mem_union, mem_toFinset, mem_toFinset, mem_stays]
    by_cases hremove : shard ∈ request.removeShardingNodes
    · exact Or.inr hremove
    · exact Or.inl ⟨hshard, hremove⟩
  have hsum := Multiset.sum_count_eq_card howned
  rw [Finset.sum_union hdisjoint] at hsum
  rw [load, ← sum_toFinset _ request.nodup_remove]
  simpa using hsum

/-- When each shard that stays takes part, they have more room than is needed. -/
theorem load_lt_room (h : request.AllOwn) : request.load < request.room := by
  have hsubset : request.shardList.toFinset \ request.removeShardingNodes.toFinset ⊆
      request.stays.toFinset := by
    intro shard hshard
    rw [Finset.mem_sdiff, mem_toFinset, mem_toFinset] at hshard
    exact mem_toFinset.mpr (request.mem_stays.mpr ⟨h shard hshard.1 hshard.2, hshard.2⟩)
  have hremove : request.removeShardingNodes.toFinset ⊆ request.shardList.toFinset := by
    intro shard hshard
    exact mem_toFinset.mpr (request.configured shard (mem_toFinset.mp hshard))
  have hkept : request.shardList.length - request.removeShardingNodes.length ≤
      request.stays.toFinset.card := by
    rw [← toFinset_card_of_nodup request.nodup_shardList,
      ← toFinset_card_of_nodup request.nodup_remove, ← Finset.card_sdiff_of_subset hremove]
    exact Finset.card_le_card hsubset
  have hshare : ∀ shard ∈ request.stays.toFinset, request.newVnodeForSharding + 1 ≤
      request.roomOf shard + request.shardingMap.count shard := by
    intro shard _
    rw [roomOf]
    omega
  have hsum := Finset.card_nsmul_le_sum _ _ _ hshare
  have hroom : request.room = ∑ shard ∈ request.stays.toFinset, request.roomOf shard := by
    rw [← length_places, places, length_placesOf, sum_toFinset _ request.nodup_stays]
  have hmap := request.sum_count_stays
  have hmore : request.shardingMap.length <
      (request.shardList.length - request.removeShardingNodes.length) *
        (request.newVnodeForSharding + 1) :=
    Nat.lt_mul_div_succ _ (Nat.sub_pos_of_lt request.fewer)
  have hle := Nat.mul_le_mul_right (request.newVnodeForSharding + 1) hkept
  rw [Finset.sum_add_distrib, smul_eq_mul] at hsum
  omega

theorem fits_of_allOwn (h : request.AllOwn) : ¬ request.DoesNotFit := by
  have hlt := request.load_lt_room h
  rintro (hnone | hless | ⟨heq, _⟩)
  · have hempty : request.stays = [] := by
      rw [eq_nil_iff_forall_not_mem]
      intro shard hshard
      obtain ⟨hmem, hnot⟩ := request.mem_stays.mp hshard
      exact hnot (hnone shard hmem)
    rw [← length_places, places, hempty] at hlt
    exact Nat.not_lt_zero _ hlt
  · exact Nat.lt_asymm hlt hless
  · exact Nat.ne_of_gt hlt heq

theorem map_vid_moves_of_fits (hfits : request.load ≤ request.room) :
    request.moves.map VNodeMove.vid = request.items.map Prod.fst := by
  rw [moves, map_vid_moves, take_of_length_le]
  rw [length_items, length_places]
  exact hfits

section

variable {vid : VNodeId} {shard : ShardId} (hvid : request.shardingMap[vid]? = some shard)
    (hnot : shard ∉ request.removeShardingNodes)
include hvid hnot

/-- Virtual nodes of the shards that stay do not move. -/
theorem notMem_moves : vid ∉ request.moves.map VNodeMove.vid := by
  intro hmem
  obtain ⟨move, hmove, rfl⟩ := mem_map.mp hmem
  have hsource := request.movesOf.source move hmove
  rw [hvid, Option.some.injEq] at hsource
  apply hnot
  rw [hsource, ← mem_leavers]
  exact (mem_itemsOf.mp (mem_moves hmove).1).1

theorem getElem?_stays :
    (request.start.migrating.recordAll request.moves).shardingMap[vid]? = some shard := by
  rw [MigrateState.getElem?_recordAll_of_notMem _ _ (request.notMem_moves hvid hnot)]
  exact hvid

end

/-- When all fit, no virtual node is left on a removed shard. -/
theorem gone_of_fits (hfits : request.load ≤ request.room) {shard : ShardId}
    (hshard : shard ∈ (request.start.migrating.recordAll request.moves).shardingMap) :
    shard ∉ request.removeShardingNodes := by
  intro hremove
  obtain ⟨vid, hvid⟩ := mem_iff_getElem?.mp hshard
  by_cases hmem : vid ∈ request.moves.map VNodeMove.vid
  · obtain ⟨move, hmove, rfl⟩ := mem_map.mp hmem
    rw [request.movesOf.getElem?_of_mem hmove _ rfl, Option.some.injEq] at hvid
    exact request.notMem_places hremove (hvid ▸ (mem_moves hmove).2)
  · rw [MigrateState.getElem?_recordAll_of_notMem _ _ hmem] at hvid
    apply hmem
    rw [request.map_vid_moves_of_fits hfits]
    have hitem : (vid, shard) ∈ request.items :=
      mem_itemsOf.mpr ⟨request.mem_leavers.mpr hremove, mem_get_currentShardingTopology.mpr hvid⟩
    exact mem_map_of_mem hitem

/-- A shard gets no more than it has room for. -/
theorem count_le (shard : ShardId) :
    (request.start.migrating.recordAll request.moves).shardingMap.count shard ≤
      max (request.shardingMap.count shard + 1) (request.newVnodeForSharding + 1) := by
  have hcount := request.movesOf.count_shardingMap request.start.migrating rfl shard
  have hroom : (request.moves.map VNodeMove.dst).count shard ≤ request.roomOf shard := by
    rw [moves, map_dst_moves]
    by_cases hstay : shard ∈ request.stays
    · exact count_take_placesOf_le request.nodup_stays hstay _
    · have hnone : shard ∉ request.places.take request.items.length :=
        fun hmem => hstay (mem_of_mem_placesOf (mem_of_mem_take hmem))
      rw [count_eq_zero.mpr hnone]
      exact Nat.zero_le _
  rw [roomOf] at hroom
  omega

theorem vacated_of_moves {outcome : RemoveOutcome} (hown : request.AllOwn)
    (hfits : request.load ≤ request.room) (hleft : outcome.leftShardingNodes = request.stays)
    (hlist : outcome.migrateDataList = (request.start.migrating.recordAll
      request.moves).migrateDataList)
    (hmap : outcome.shardingMap = (request.start.migrating.recordAll
      request.moves).shardingMap) : request.Vacated outcome := by
  refine ⟨?_, ?_, ?_, ?_, ?_, ?_, ?_⟩
  · intro shard hshard
    rw [hmap] at hshard
    exact request.gone_of_fits hfits hshard
  · intro vid shard hvid hnot
    rw [hmap, request.getElem?_stays hvid hnot]
  · rw [hmap, MigrateState.length_shardingMap_recordAll]
    rfl
  · intro vid src dst
    have hchanged : outcome.migrateDataList.lookup vid = some (src, dst) ↔
        request.shardingMap[vid]? = some src ∧ outcome.shardingMap[vid]? = some dst ∧
          src ≠ dst := by
      rw [hlist, hmap]
      exact request.movesOf.lookup_iff_changed
    rw [hchanged]
    constructor
    · rintro ⟨hold, hnew, hne⟩
      refine ⟨?_, hold, hnew⟩
      by_contra hnot
      rw [hmap, request.getElem?_stays hold hnot] at hnew
      exact hne (Option.some.inj hnew)
    · rintro ⟨hremove, hold, hnew⟩
      refine ⟨hold, hnew, ?_⟩
      rintro rfl
      rw [hmap] at hnew
      exact request.gone_of_fits hfits (mem_of_getElem? hnew) hremove
  · intro shard hshard hnot
    rw [hleft]
    exact count_eq_one_of_mem request.nodup_stays
      (request.mem_stays.mpr ⟨hown shard hshard hnot, hnot⟩)
  · intro shard hshard
    rw [hleft] at hshard
    exact (request.mem_stays.mp hshard).2
  · intro shard _
    rw [hmap]
    exact request.count_le shard

/-- The call does what it should exactly where every shard that stays has virtual nodes or the
virtual nodes do not fit. -/
theorem removesRight_iff : request.RemovesRight ↔ request.AllOwn ∨ request.DoesNotFit := by
  obtain ⟨ok, outcome, hrun, hok, hmoves⟩ := request.removed_eq
  constructor
  · rintro ⟨ok', outcome', hrun', _, hvacated⟩
    rw [hrun, Option.some.injEq] at hrun'
    obtain ⟨rfl, rfl⟩ := hrun'
    by_contra hneither
    obtain ⟨hown, hfits⟩ := not_or.mp hneither
    have htrue := hok.mpr hfits
    apply hown
    intro shard hshard hnot
    have hmem : shard ∈ outcome.leftShardingNodes := by
      rw [← count_pos_iff, (hvacated htrue).left_once shard hshard hnot]
      exact Nat.zero_lt_one
    rw [(hmoves htrue).1, mem_stays] at hmem
    exact hmem.1
  · intro hcases
    refine ⟨ok, outcome, hrun, fun hown => hok.mpr (request.fits_of_allOwn hown), ?_⟩
    intro htrue
    have hfits := hok.mp htrue
    have hown : request.AllOwn := hcases.resolve_right hfits
    obtain ⟨hleft, hlist, hmap⟩ := hmoves htrue
    exact request.vacated_of_moves hown (request.load_le_room_of_fits hfits) hleft hlist hmap

/-- A request that passes the checks is planned. -/
theorem planRemoveShardingNodes_eq (hremove : request.removeShardingNodes ≠ [])
    (hmap : request.shardingMap ≠ []) {mapFile : Option (List Char)}
    (hfile : readShardingMapFile mapFile [] = request.shardingMap) :
    planRemoveShardingNodes true request.shardList request.shardList request.removeShardingNodes
      mapFile = some request.removed := by
  have hpos := length_pos_iff.mpr hremove
  have hfewer := request.fewer
  have hold : request.shardList ≠ [] := by
    rw [← length_pos_iff]
    omega
  have hmany : request.shardList.length ≠ 1 := by omega
  have hconfigured : (request.removeShardingNodes.any
      fun shard => decide (shard ∉ request.shardList)) = false := by
    rw [any_eq_false]
    intro shard hshard hmem
    exact of_decide_eq_true hmem (request.configured shard hshard)
  simp only [planRemoveShardingNodes, hfile, hold, hremove, hmany, Nat.not_le_of_lt hfewer,
    hconfigured, hmap, Bool.not_true, Bool.false_eq_true, if_false]
  rfl

/-- What is planned for removed shards is the plan of a migration. -/
theorem planRemoveShardingNodes_migratePlan (hremove : request.removeShardingNodes ≠ [])
    (hlength : request.shardingMap.length = MAX_MAP_SIZE)
    (hold : ∀ shard ∈ request.shardingMap, 0 < shard) {mapFile : Option (List Char)}
    (hfile : readShardingMapFile mapFile [] = request.shardingMap) :
    ∃ ok outcome, planRemoveShardingNodes true request.shardList request.shardList
        request.removeShardingNodes mapFile = some (some (ok, outcome)) ∧
      (ok = true → ∃ plan : MigratePlan request.shardingMap,
        outcome.migrateDataList = plan.migrateDataList ∧ outcome.shardingMap = plan.newMap) := by
  obtain ⟨ok, outcome, hremoved, -, hmoves⟩ := request.removed_eq
  have hmap : request.shardingMap ≠ [] := by
    intro hnil
    rw [hnil] at hlength
    cases hlength
  have hdst : ∀ move ∈ request.moves, 0 < move.dst := fun move hmove =>
    hold _ (request.mem_stays.mp (mem_of_mem_placesOf (mem_moves hmove).2)).1
  refine ⟨ok, outcome, ?_, fun hok => ?_⟩
  · rw [request.planRemoveShardingNodes_eq hremove hmap hfile, hremoved]
  · obtain ⟨-, hlist, hshards⟩ := hmoves hok
    exact ⟨request.movesOf.migratePlan request.staying hlength hold hdst, hlist, hshards⟩

/-- The second shard has no virtual node, the third one is removed. -/
def twoOfThree : RemoveRequest where
  shardList := [1, 2, 3]
  shardingMap := [1, 3]
  removeShardingNodes := [3]
  nodup_shardList := by decide
  nodup_remove := by decide
  configured := by simp
  fewer := by decide

theorem removed_twoOfThree :
    twoOfThree.removed.map (fun result => (result.1, result.2.leftShardingNodes)) =
      some (true, [1]) := by decide

theorem twoOfThree_not_right : ¬ twoOfThree.RemovesRight := by
  rintro ⟨ok, outcome, hrun, _, hvacated⟩
  have hresult := removed_twoOfThree
  rw [hrun, Option.map_some, Option.some.injEq, Prod.mk.injEq] at hresult
  obtain ⟨htrue, hleft⟩ := hresult
  have honce := (hvacated htrue).left_once 2 (by decide) (by decide)
  rw [hleft] at honce
  cases honce

end RemoveRequest

end AdDelivery.Sharding
