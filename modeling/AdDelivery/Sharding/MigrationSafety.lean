import AdDelivery.Sharding.Migration

/-!
# No document is lost by a migration

The files have exactly the documents of the virtual nodes that leave, so the insertions and the
deletions together move them. A migration goes on to save the map when a shard did not get its
file of deletions: then its documents are on two shards.
-/

namespace AdDelivery.Sharding

open List Table MigrateEnv

variable (env : MigrateEnv) {conv : Conversions}

variable {list : Table String (Table ShardId (List VNodeId))}

theorem mem_get_get_update {shardip ip : String} {dst dst' : ShardId} {vnode vnode' : VNodeId} :
    vnode' ∈ ((list.update shardip fun targets => appendAt targets dst vnode).get ip).get dst' ↔
      vnode' ∈ (list.get ip).get dst' ∨ ip = shardip ∧ dst' = dst ∧ vnode' = vnode := by
  rw [get_update]
  by_cases hip : ip = shardip
  · rw [if_pos hip, get_appendAt]
    by_cases hdst : dst' = dst <;> simp [hip, hdst]
  · simp [hip]

/-- The loop over the virtual nodes succeeds if all sources have an address. -/
theorem foldlM_pushVNode (entries : List (VNodeId × ShardId × ShardId))
    (list : Table String (Table ShardId (List VNodeId))) :
    (∃ entry ∈ entries, env.getShardNodeIP entry.2.1 = "") ∧
        entries.foldlM env.pushVNode list = none ∨
      (∀ entry ∈ entries, env.getShardNodeIP entry.2.1 ≠ "") ∧
        ∃ list', entries.foldlM env.pushVNode list = some list' ∧
          ∀ ip dst vnode, vnode ∈ (list'.get ip).get dst ↔ vnode ∈ (list.get ip).get dst ∨
            ∃ src, (vnode, src, dst) ∈ entries ∧ env.getShardNodeIP src = ip := by
  induction entries generalizing list with
  | nil => exact .inr ⟨by simp, list, rfl, by simp⟩
  | cons entry entries ih =>
    obtain ⟨vnode, src, dst⟩ := entry
    rw [foldlM_cons, exists_mem_cons_iff, forall_mem_cons, pushVNode]
    by_cases hip : env.getShardNodeIP src = ""
    · left
      rw [if_pos hip]
      exact ⟨.inl hip, rfl⟩
    · rw [if_neg hip]
      rcases ih (list.update (env.getShardNodeIP src) fun targets => appendAt targets dst vnode)
        with ⟨hex, hnone⟩ | ⟨hall, list', hsome, hmem⟩
      · exact .inl ⟨.inr hex, hnone⟩
      · refine .inr ⟨⟨hip, hall⟩, list', hsome, fun ip dst' vnode' => ?_⟩
        rw [hmem, mem_get_get_update, or_assoc]
        refine or_congr_right ?_
        simp only [mem_cons, Prod.mk.injEq]
        constructor
        · rintro (⟨rfl, rfl, rfl⟩ | ⟨src', hentry, hsrc⟩)
          · exact ⟨src, .inl ⟨rfl, rfl, rfl⟩, rfl⟩
          · exact ⟨src', .inr hentry, hsrc⟩
        · rintro ⟨src', ⟨rfl, rfl, rfl⟩ | hentry, hsrc⟩
          · exact .inl ⟨hsrc.symm, rfl, rfl⟩
          · exact .inr ⟨src', hentry, hsrc⟩

variable {migrateDataList : MigrateDataList}

theorem migrateFromToList_eq_none
    (h : ∃ vnode src dst, migrateDataList.lookup vnode = some (src, dst) ∧
      env.getShardNodeIP src = "") : env.migrateFromToList migrateDataList.inOrder = none := by
  obtain ⟨vnode, src, dst, hlookup, hip⟩ := h
  rcases foldlM_pushVNode env migrateDataList.inOrder ∅ with
    ⟨_, hnone⟩ | ⟨hall, _⟩
  · exact hnone
  · exact absurd hip (hall _ (mem_inOrder.mpr hlookup))

theorem migrateFromToList_eq_some
    (h : ∀ vnode src dst, migrateDataList.lookup vnode = some (src, dst) →
      env.getShardNodeIP src ≠ "") :
    ∃ list, env.migrateFromToList migrateDataList.inOrder = some list ∧
      ∀ ip dst vnode, vnode ∈ (list.get ip).get dst ↔
        ∃ src, migrateDataList.lookup vnode = some (src, dst) ∧ env.getShardNodeIP src = ip := by
  rcases foldlM_pushVNode env migrateDataList.inOrder ∅ with
    ⟨⟨⟨vnode, src, dst⟩, hentry, hip⟩, _⟩ | ⟨_, list, hsome, hmem⟩
  · exact absurd hip (h vnode src dst (mem_inOrder.mp hentry))
  · refine ⟨list, hsome, fun ip dst vnode => (hmem ip dst vnode).trans ?_⟩
    have hempty : ¬ vnode ∈ (get (get
        (∅ : Table String (Table ShardId (List VNodeId))) ip) dst) := by
      exact not_mem_nil
    simp only [hempty, false_or, Table.mem_inOrder]

variable {document : Document} {shardid : ShardId} {scds : MigrateScds}
  {files : Table ShardId (List Document)}

theorem mem_flatten_pushFiles : document ∈ ((pushFiles scds files).get shardid).flatten ↔
      document ∈ (scds.get shardid).flatten ∨ document ∈ files.get shardid := by
  rw [pushFiles, get_collect, flatten_append, mem_append]
  refine or_congr_right ?_
  simp only [mem_flatten, mem_map, mem_filter, Function.comp_apply,
    Option.some.injEq, decide_eq_true_eq, Prod.exists]
  constructor
  · rintro ⟨_, ⟨_, file, ⟨hmem, rfl⟩, rfl⟩, hdocument⟩
    rw [Table.get, Table.mem_inOrder.mp hmem]
    exact hdocument
  · intro hdocument
    cases hlookup : files.lookup shardid with
    | none =>
      rw [Table.get, hlookup] at hdocument
      cases hdocument
    | some file =>
      rw [Table.get, hlookup] at hdocument
      exact ⟨file, ⟨shardid, file, ⟨Table.mem_inOrder.mpr hlookup, rfl⟩, rfl⟩, hdocument⟩

theorem mem_pushFiles :
    shardid ∈ pushFiles scds files ↔ shardid ∈ scds ∨ shardid ∈ files := by
  rw [pushFiles, mem_collect]
  refine or_congr_right ?_
  simp only [Function.comp_apply, Option.some.injEq, Prod.exists, Table.mem_inOrder, Finmap.mem_iff]
  constructor
  · rintro ⟨_, file, hlookup, rfl⟩
    exact ⟨file, hlookup⟩
  · rintro ⟨file, hlookup⟩
    exact ⟨shardid, file, hlookup, rfl⟩

variable {vnodeList : Table ShardId (List VNodeId)} {docs : List Document}

/-- The file of a shard has the documents that go there. -/
theorem mem_generateMigrateSCD_insert {myShardId : ShardId} {dst : ShardId} :
    document ∈ (generateMigrateSCD conv myShardId docs vnodeList).1.get dst ↔
      document ∈ docs ∧ destination conv vnodeList document = some dst := by
  rw [generateMigrateSCD, mem_get_collect]
  simp

theorem mem_generateMigrateSCD_del {myShardId shardid : ShardId} :
    document ∈ (generateMigrateSCD conv myShardId docs vnodeList).2.get shardid ↔
      myShardId = shardid ∧ ∃ dst, document ∈ docs ∧
        destination conv vnodeList document = some dst := by
  rw [generateMigrateSCD, mem_get_collect]
  simp only [Option.map_eq_some_iff, id_eq]
  constructor
  · rintro ⟨_, hdocument, ⟨dst, hdst, rfl⟩, rfl⟩
    exact ⟨rfl, dst, hdocument, hdst⟩
  · rintro ⟨rfl, dst, hdocument, hdst⟩
    exact ⟨document, hdocument, ⟨dst, hdst, rfl⟩, rfl⟩

/-- A file is there as soon as it has a document. -/
theorem mem_generateMigrateSCD {myShardId : ShardId} :
    (shardid ∈ (generateMigrateSCD conv myShardId docs vnodeList).1 ↔
      ∃ document, document ∈ (generateMigrateSCD conv myShardId docs vnodeList).1.get shardid) ∧
    (shardid ∈ (generateMigrateSCD conv myShardId docs vnodeList).2 ↔ ∃ document, document ∈
        (generateMigrateSCD conv myShardId docs vnodeList).2.get shardid) := by
  simp only [generateMigrateSCD, mem_collect, mem_get_collect, Finmap.notMem_empty, false_or, id_eq]
  constructor
  all_goals
    constructor
    · rintro ⟨document, hdocument, hkey⟩
      exact ⟨document, document, hdocument, hkey, rfl⟩
    · rintro ⟨_, document, hdocument, hkey, _⟩
      exact ⟨document, hdocument, hkey⟩

variable {rspdata : List (Table ShardId (List Document))}

theorem mem_flatten_foldl_pushFiles :
    document ∈ ((rspdata.foldl pushFiles scds).get shardid).flatten ↔
      document ∈ (scds.get shardid).flatten ∨ ∃ files ∈ rspdata, document ∈ files.get shardid := by
  induction rspdata generalizing scds with
  | nil => simp
  | cons files rspdata ih =>
    rw [foldl_cons, ih, mem_flatten_pushFiles, exists_mem_cons_iff, or_assoc]

theorem mem_foldl_pushFiles : shardid ∈ rspdata.foldl pushFiles scds ↔
      shardid ∈ scds ∨ ∃ files ∈ rspdata, shardid ∈ files := by
  induction rspdata generalizing scds with
  | nil => simp
  | cons files rspdata ih =>
    rw [foldl_cons, ih, mem_pushFiles, exists_mem_cons_iff, or_assoc]

/-- The files have the documents that leave, and there is a file as soon as there is one. -/
structure FilesOf (conv : Conversions) (migrateDataList : MigrateDataList) (shards : Shards)
    (scds : MigrateScds × MigrateScds) : Prop where
  insert : ∀ dst document, document ∈ (scds.1.get dst).flatten ↔
    ∃ src, Leaves conv migrateDataList shards src dst document
  del : ∀ src document, document ∈ (scds.2.get src).flatten ↔
    ∃ dst, Leaves conv migrateDataList shards src dst document
  mem_insert : ∀ dst, dst ∈ scds.1 ↔
    ∃ src document, Leaves conv migrateDataList shards src dst document
  mem_del : ∀ src, src ∈ scds.2 ↔
    ∃ dst document, Leaves conv migrateDataList shards src dst document

/-- The virtual nodes that are asked for at an address. -/
structure ListOf (migrateDataList : MigrateDataList)
    (list : Table String (Table ShardId (List VNodeId))) : Prop where
  mem : ∀ ip dst vnode, vnode ∈ (list.get ip).get dst ↔
    ∃ src, migrateDataList.lookup vnode = some (src, dst) ∧ env.getShardNodeIP src = ip
  ips : ∀ vnode src dst, migrateDataList.lookup vnode = some (src, dst) →
    env.getShardNodeIP src ≠ ""
  dst_ne : ∀ vnode src dst, migrateDataList.lookup vnode = some (src, dst) → dst ≠ 0

variable {env}

/-- One address: its node has the documents that leave its shard. -/
theorem ListOf.destination_iff (h : ListOf env migrateDataList list) {ip : String} {dst : ShardId}
    (hdst : dst ≠ 0) : destination conv (list.get ip) document = some dst ↔
      ∃ src vnode, vnodeIndex conv document = some vnode ∧
        migrateDataList.lookup vnode = some (src, dst) ∧ env.getShardNodeIP src = ip := by
  rw [destination_eq_some_iff _ hdst]
  · constructor
    · rintro ⟨vnode, hvnode, hmem⟩
      obtain ⟨src, hlookup, hip⟩ := (h.mem ip dst vnode).mp hmem
      exact ⟨src, vnode, hvnode, hlookup, hip⟩
    · rintro ⟨src, vnode, hvnode, hlookup, hip⟩
      exact ⟨vnode, hvnode, (h.mem ip dst vnode).mpr ⟨src, hlookup, hip⟩⟩
  · intro d d' vnode hd hd'
    obtain ⟨_, hlookup, _⟩ := (h.mem ip d vnode).mp hd
    obtain ⟨_, hlookup', _⟩ := (h.mem ip d' vnode).mp hd'
    rw [hlookup] at hlookup'
    exact (Prod.mk.inj (Option.some.inj hlookup')).2

/-- What the nodes of all addresses find together. -/
theorem ListOf.exists_entry_iff (h : ListOf env migrateDataList list) {shards : Shards}
    {src dst : ShardId} :
    (∃ entry ∈ list.inOrder, env.getMyShardId entry.1 = src ∧ document ∈ shards src ∧
        destination conv entry.2 document = some dst) ↔
      Leaves conv migrateDataList shards src dst document := by
  have hget {ip : String} {vnodeList : Table ShardId (List VNodeId)}
      (hentry : (ip, vnodeList) ∈ list.inOrder) : vnodeList = list.get ip := by
    rw [Table.get, Table.mem_inOrder.mp hentry, Option.getD_some]
  constructor
  · rintro ⟨⟨ip, vnodeList⟩, hentry, rfl, hdocument, hdestination⟩
    obtain rfl := hget hentry
    obtain ⟨src, vnode, hvnode, hlookup, rfl⟩ :=
      (h.destination_iff (ne_zero_of_destination_eq_some hdestination)).mp hdestination
    refine ⟨hdocument, vnode, hvnode, ?_⟩
    rw [env.getMyShardId_ip src (h.ips _ _ _ hlookup)]
    exact hlookup
  · rintro ⟨hdocument, vnode, hvnode, hlookup⟩
    have hvnodes := (h.mem (env.getShardNodeIP src) dst vnode).mpr ⟨src, hlookup, rfl⟩
    cases hlist : list.lookup (env.getShardNodeIP src) with
    | none =>
      rw [get_eq_default (Finmap.lookup_eq_none.mp hlist)] at hvnodes
      cases hvnodes
    | some vnodeList =>
      have hentry := mem_inOrder.mpr hlist
      refine ⟨_, hentry, env.getMyShardId_ip src (h.ips _ _ _ hlookup), hdocument, ?_⟩
      rw [hget hentry, h.destination_iff (h.dst_ne _ _ _ hlookup)]
      exact ⟨src, vnode, hvnode, hlookup, rfl⟩

/-- All files of a migration. -/
theorem ListOf.filesOf (h : ListOf env migrateDataList list) (conv : Conversions)
    (shards : Shards) :
    FilesOf conv migrateDataList shards (env.generateMigrateScds conv shards list) := by
  have hempty (shardid : ShardId) (document : Document) :
      document ∉ (Table.get (∅ : MigrateScds) shardid).flatten := by
    exact not_mem_nil
  have hinsert (dst : ShardId) (document : Document) :
      (∃ entry ∈ list.inOrder, document ∈ (generateMigrateSCD conv (env.getMyShardId entry.1)
        (shards (env.getMyShardId entry.1)) entry.2).1.get dst) ↔
      ∃ src, Leaves conv migrateDataList shards src dst document := by
    simp only [← h.exists_entry_iff, mem_generateMigrateSCD_insert]
    constructor
    · rintro ⟨entry, hentry, hdocument, hdst⟩
      exact ⟨_, entry, hentry, rfl, hdocument, hdst⟩
    · rintro ⟨_, entry, hentry, rfl, hdocument, hdst⟩
      exact ⟨entry, hentry, hdocument, hdst⟩
  have hdel (src : ShardId) (document : Document) :
      (∃ entry ∈ list.inOrder, document ∈ (generateMigrateSCD conv (env.getMyShardId entry.1)
        (shards (env.getMyShardId entry.1)) entry.2).2.get src) ↔
      ∃ dst, Leaves conv migrateDataList shards src dst document := by
    simp only [← h.exists_entry_iff, mem_generateMigrateSCD_del]
    constructor
    · rintro ⟨entry, hentry, rfl, dst, hdocument, hdst⟩
      exact ⟨dst, entry, hentry, rfl, hdocument, hdst⟩
    · rintro ⟨dst, entry, hentry, rfl, hdocument, hdst⟩
      exact ⟨entry, hentry, rfl, dst, hdocument, hdst⟩
  constructor
  · intro dst document
    simp only [generateMigrateScds, mem_flatten_foldl_pushFiles, hempty, false_or,
      mem_map, exists_exists_and_eq_and, hinsert]
  · intro src document
    simp only [generateMigrateScds, mem_flatten_foldl_pushFiles, hempty, false_or,
      mem_map, exists_exists_and_eq_and, hdel]
  · intro dst
    simp only [generateMigrateScds, mem_foldl_pushFiles, Finmap.notMem_empty, false_or,
      mem_map, exists_exists_and_eq_and, mem_generateMigrateSCD.1]
    rw [exists_comm, ← exists_congr fun document => hinsert dst document]
    constructor
    · rintro ⟨entry, hentry, document, hdocument⟩
      exact ⟨document, entry, hentry, hdocument⟩
    · rintro ⟨document, entry, hentry, hdocument⟩
      exact ⟨entry, hentry, document, hdocument⟩
  · intro src
    simp only [generateMigrateScds, mem_foldl_pushFiles, Finmap.notMem_empty, false_or,
      mem_map, exists_exists_and_eq_and, mem_generateMigrateSCD.2]
    rw [exists_comm, ← exists_congr fun document => hdel src document]
    constructor
    · rintro ⟨entry, hentry, document, hdocument⟩
      exact ⟨document, entry, hentry, hdocument⟩
    · rintro ⟨document, entry, hentry, hdocument⟩
      exact ⟨entry, hentry, document, hdocument⟩

section Whole

variable {oldMap : List ShardId} (plan : MigratePlan oldMap) (removing : Bool)
  (before : ShardedCollection)

theorem MigratePlan.dst_ne {vnode : VNodeId} {src dst : ShardId}
    (h : plan.migrateDataList.lookup vnode = some (src, dst)) : dst ≠ 0 := by
  have hpos := plan.pos_newMap dst (mem_of_getElem? (plan.moved h).2.1)
  exact hpos.ne'

/-- The list that is asked for, and the files that come for it. -/
theorem exists_filesOf (env : MigrateEnv) (conv : Conversions)
    (hips : ∀ vnode src dst, plan.migrateDataList.lookup vnode = some (src, dst) →
      env.getShardNodeIP src ≠ "") (shards : Shards) :
    ∃ list, env.migrateFromToList plan.migrateDataList.inOrder = some list ∧
      FilesOf conv plan.migrateDataList shards (env.generateMigrateScds conv shards list) := by
  obtain ⟨list, hlist, hmem⟩ := migrateFromToList_eq_some env hips
  exact ⟨list, hlist, (ListOf.mk hmem hips fun _ _ _ => plan.dst_ne).filesOf conv shards⟩

/-- A migration that does not come to its deletions changes no map and removes nothing. -/
theorem doMigrateWork_of_not_insertionsDone
    (h : ¬ InsertionsDone env conv removing plan.migrateDataList before.shards) :
    ∃ shards, doMigrateWork env conv removing plan.migrateDataList plan.newMap before =
        (false, { before with shards }) ∧
      ∀ document shardid, document ∈ before.shards shardid → document ∈ shards shardid := by
  by_cases hips : ∀ vnode src dst, plan.migrateDataList.lookup vnode = some (src, dst) →
      env.getShardNodeIP src ≠ ""
  · obtain ⟨list, hlist, hfiles⟩ := exists_filesOf plan env conv hips before.shards
    simp only [doMigrateWork, hlist]
    split_ifs with hgenerated hready hnew hinserted
    · exact ⟨before.shards, rfl, fun _ _ => id⟩
    · exact ⟨before.shards, rfl, fun _ _ => id⟩
    · exact ⟨before.shards, rfl, fun _ _ => id⟩
    · exact ⟨_, rfl, fun _ _ => mem_indexShardingNodes_insertDocs _⟩
    · refine absurd ?_ h
      simp only [Bool.not_eq_true', Bool.not_eq_false, Bool.and_eq_true, not_and] at *
      refine ⟨hips, hgenerated, hready, hnew, fun src dst document hleaves => ?_⟩
      by_contra hpush
      obtain ⟨files, hentry⟩ := Finmap.mem_iff.mp ((hfiles.mem_insert dst).mpr ⟨_, _, hleaves⟩)
      have hstop := (indexShardingNodes_of_not_pushed insertDocs (mem_inOrder.mpr hentry)
        (Bool.eq_false_iff.mpr hpush) before.shards).1
      rw [hstop] at hinserted
      cases hinserted
  · push Not at hips
    refine ⟨before.shards, ?_, fun _ _ => id⟩
    rw [doMigrateWork, migrateFromToList_eq_none env hips]

/-- The state in which the deletions start. -/
def Inserted (conv : Conversions) (migrateDataList : MigrateDataList) (shards inserted : Shards) :
    Prop :=
  ∀ document shardid, document ∈ inserted shardid ↔ document ∈ shards shardid ∨
    ∃ src, Leaves conv migrateDataList shards src shardid document

/-- What each shard has after it indexed its file. -/
theorem indexShardingNodes_files {pushed : ShardId → Bool}
    (index : List Document → List Document → List Document)
    (hnil : ∀ docs, index docs [] = docs) {scds : MigrateScds}
    (hpushed : ∀ shardid ∈ scds, pushed shardid = true) (shards : Shards) :
    ∃ shards', indexShardingNodes pushed index scds.inOrder shards = (true, shards') ∧
      ∀ shardid, shards' shardid = index (shards shardid) (scds.get shardid).flatten := by
  have hnodup : (scds.inOrder.map Prod.fst).Nodup := scds.pairwise_inOrder.imp ne_of_lt
  obtain ⟨shards', hindex, hin, hout⟩ := indexShardingNodes_of_pushed index hnodup
    (fun entry h => hpushed entry.1 (Finmap.mem_iff.mpr ⟨entry.2, mem_inOrder.mp h⟩)) shards
  refine ⟨shards', hindex, fun shardid => ?_⟩
  cases hlookup : scds.lookup shardid with
  | none =>
    have hnotin : shardid ∉ scds.inOrder.map Prod.fst := by
      intro hmem
      obtain ⟨entry, hentry, rfl⟩ := mem_map.mp hmem
      rw [mem_inOrder.mp hentry] at hlookup
      cases hlookup
    rw [hout shardid hnotin, get_eq_default (Finmap.lookup_eq_none.mp hlookup)]
    exact (hnil _).symm
  | some files =>
    rw [hin shardid files (Table.mem_inOrder.mpr hlookup), Table.get, hlookup, Option.getD_some]

/-- A migration that comes to its deletions saves the new map whatever becomes of them. -/
theorem doMigrateWork_of_insertionsDone
    (h : InsertionsDone env conv removing plan.migrateDataList before.shards) :
    ∃ scds inserted, FilesOf conv plan.migrateDataList before.shards scds ∧
      Inserted conv plan.migrateDataList before.shards inserted ∧
      doMigrateWork env conv removing plan.migrateDataList plan.newMap before = (true,
          { mapFile := saveShardingMapToFile before.mapFile plan.newMap
            shards :=
              (indexShardingNodes env.delPushed deleteDocs scds.2.inOrder inserted).2 }) := by
  obtain ⟨list, hlist, hfiles⟩ := exists_filesOf plan env conv h.ips before.shards
  have hpushed : ∀ shardid ∈ (env.generateMigrateScds conv before.shards list).1,
      env.insertPushed shardid = true := by
    intro shardid hmem
    obtain ⟨src, document, hleaves⟩ := (hfiles.mem_insert shardid).mp hmem
    exact h.pushed src shardid document hleaves
  obtain ⟨inserted, hindex, hget⟩ := indexShardingNodes_files insertDocs
    List.nil_union hpushed before.shards
  refine ⟨_, inserted, hfiles, fun document shardid => ?_, ?_⟩
  · rw [hget, insertDocs, mem_union_iff, hfiles.insert, or_comm]
  · have hnew : (!removing && !env.newShardingReady) = false := by
      cases hremoving : removing with
      | false => simp [h.newShardingReady hremoving]
      | true => rfl
    simp only [doMigrateWork, hlist, h.scdsGenerated, h.migrateReady, hnew, hindex,
      Bool.not_true, Bool.false_eq_true, if_false]

variable {shards inserted : Shards}

/-- The deletions are complete. -/
theorem mem_of_delPushed {scds : MigrateScds × MigrateScds}
    (hfiles : FilesOf conv plan.migrateDataList shards scds)
    (hpushed : ∀ src dst document, Leaves conv plan.migrateDataList shards src dst document →
      env.delPushed src = true) (document : Document) (shardid : ShardId) :
    document ∈ (indexShardingNodes env.delPushed deleteDocs scds.2.inOrder inserted).2 shardid ↔
      document ∈ inserted shardid ∧
        ¬ ∃ dst, Leaves conv plan.migrateDataList shards shardid dst document := by
  have hkeys : ∀ shardid ∈ scds.2, env.delPushed shardid = true := by
    intro shardid hmem
    obtain ⟨dst, document, hleaves⟩ := (hfiles.mem_del shardid).mp hmem
    exact hpushed shardid dst document hleaves
  obtain ⟨shards', hindex, hget⟩ := indexShardingNodes_files deleteDocs
    (fun docs => by simp [deleteDocs]) hkeys inserted
  rw [hindex]
  dsimp only
  rw [hget, deleteDocs, mem_filter, decide_eq_true_iff, hfiles.del]

/-- The new map gives each document the shard that has it after insertions and deletions. -/
theorem moved_iff (hplaced : Placed conv oldMap shards)
    (hinserted : Inserted conv plan.migrateDataList shards inserted) (document : Document)
    (shardid : ShardId) : (document ∈ inserted shardid ∧
        ¬ ∃ dst, Leaves conv plan.migrateDataList shards shardid dst document) ↔
      (∃ src, document ∈ shards src) ∧ ownerIn conv plan.newMap document = some shardid := by
  have howner {src : ShardId} (h : document ∈ shards src) :
      ∃ vnode, vnodeIndex conv document = some vnode ∧ oldMap[vnode]? = some src :=
    Option.bind_eq_some_iff.mp (hplaced document src h)
  have hnew {vnode : VNodeId} (hvnode : vnodeIndex conv document = some vnode) :
      ownerIn conv plan.newMap document = plan.newMap[vnode]? := by
    rw [ownerIn, hvnode, Option.bind_some]
  rw [hinserted]
  constructor
  · rintro ⟨hdocument | ⟨src, hleaves⟩, hstays⟩
    · obtain ⟨vnode, hvnode, hold⟩ := howner hdocument
      refine ⟨⟨shardid, hdocument⟩, ?_⟩
      cases hlookup : plan.migrateDataList.lookup vnode with
      | none => rw [hnew hvnode, plan.kept hlookup, hold]
      | some ends =>
        obtain ⟨src, dst⟩ := ends
        have hsrc := (plan.moved hlookup).1
        rw [hold] at hsrc
        obtain rfl := Option.some.inj hsrc
        exact absurd ⟨dst, hdocument, vnode, hvnode, hlookup⟩ hstays
    · obtain ⟨hdocument, vnode, hvnode, hlookup⟩ := hleaves
      refine ⟨⟨src, hdocument⟩, ?_⟩
      rw [hnew hvnode, (plan.moved hlookup).2.1]
  · rintro ⟨⟨src, hdocument⟩, hgiven⟩
    obtain ⟨vnode, hvnode, hold⟩ := howner hdocument
    rw [hnew hvnode] at hgiven
    cases hlookup : plan.migrateDataList.lookup vnode with
    | none =>
      rw [plan.kept hlookup, hold] at hgiven
      obtain rfl := Option.some.inj hgiven
      refine ⟨.inl hdocument, ?_⟩
      rintro ⟨dst, _, vnode', hvnode', hlookup'⟩
      obtain rfl := Option.some.inj (hvnode.symm.trans hvnode')
      rw [hlookup] at hlookup'
      cases hlookup'
    | some ends =>
      obtain ⟨src', dst⟩ := ends
      obtain ⟨hsrc, hdst, hne⟩ := plan.moved hlookup
      obtain rfl := Option.some.inj (hold.symm.trans hsrc)
      obtain rfl := Option.some.inj (hgiven.symm.trans hdst)
      refine ⟨.inr ⟨src, hdocument, vnode, hvnode, hlookup⟩, ?_⟩
      rintro ⟨dst, _, vnode', hvnode', hlookup'⟩
      obtain rfl := Option.some.inj (hvnode.symm.trans hvnode')
      rw [hlookup] at hlookup'
      exact hne (Prod.mk.inj (Option.some.inj hlookup')).1

/-- A shard that does not get its deletions keeps documents that are on their targets by now. -/
theorem delPushed_of_migrationSafe
    (hdone : InsertionsDone env conv removing plan.migrateDataList before.shards)
    (hsafe : MigrationSafe conv before
      (doMigrateWork env conv removing plan.migrateDataList plan.newMap before).2
      (doMigrateWork env conv removing plan.migrateDataList plan.newMap before).1)
    {src dst : ShardId} {document : Document}
    (hleaves : Leaves conv plan.migrateDataList before.shards src dst document) :
    env.delPushed src = true := by
  obtain ⟨scds, inserted, hfiles, hinserted, hwork⟩ :=
    doMigrateWork_of_insertionsDone plan removing before hdone
  have hread := readShardingMapFile_saveShardingMapToFile plan.length_newMap plan.pos_newMap
    before.mapFile []
  rw [hwork] at hsafe
  by_contra hpush
  obtain ⟨files, hentry⟩ := Finmap.mem_iff.mp ((hfiles.mem_del src).mpr ⟨_, _, hleaves⟩)
  have hkept : (indexShardingNodes env.delPushed deleteDocs scds.2.inOrder inserted).2 src =
      inserted src :=
    (indexShardingNodes_of_not_pushed deleteDocs (mem_inOrder.mpr hentry)
      (Bool.eq_false_iff.mpr hpush) inserted).2
  have hplace := hsafe.placed rfl document src
  dsimp only at hplace
  rw [hkept] at hplace
  have howner := (hplace.mp ((hinserted document src).mpr (.inl hleaves.1))).2
  obtain ⟨_, vnode, hvnode, hlookup⟩ := hleaves
  obtain ⟨_, hdst, hne⟩ := plan.moved hlookup
  rw [hread, ownerIn, hvnode, Option.bind_some, hdst] at howner
  exact hne (Option.some.inj howner).symm

theorem migrationSafe_of_delPushed (hplaced : Placed conv oldMap before.shards)
    (hdone : InsertionsDone env conv removing plan.migrateDataList before.shards)
    (hpushed : ∀ src dst document, Leaves conv plan.migrateDataList before.shards src dst document →
        env.delPushed src = true) : MigrationSafe conv before
      (doMigrateWork env conv removing plan.migrateDataList plan.newMap before).2
      (doMigrateWork env conv removing plan.migrateDataList plan.newMap before).1 := by
  obtain ⟨scds, inserted, hfiles, hinserted, hwork⟩ :=
    doMigrateWork_of_insertionsDone plan removing before hdone
  have hread := readShardingMapFile_saveShardingMapToFile plan.length_newMap plan.pos_newMap
    before.mapFile []
  rw [hwork]
  constructor
  · intro _ document shardid
    rw [hread, ← moved_iff plan hplaced hinserted]
    exact mem_of_delPushed plan hfiles hpushed document shardid
  · intro h
    cases h

/-- A migration keeps its promise exactly when, once it comes to its deletions, every shard that
documents leave gets its file of deletions. -/
theorem migrationSafe_iff (env : MigrateEnv) (conv : Conversions)
    (hplaced : Placed conv oldMap before.shards) : MigrationSafe conv before
        (doMigrateWork env conv removing plan.migrateDataList plan.newMap before).2
        (doMigrateWork env conv removing plan.migrateDataList plan.newMap before).1 ↔
      (InsertionsDone env conv removing plan.migrateDataList before.shards →
        ∀ src dst document, Leaves conv plan.migrateDataList before.shards src dst document →
          env.delPushed src = true) := by
  by_cases hdone : InsertionsDone env conv removing plan.migrateDataList before.shards
  · constructor
    · exact fun hsafe _ _ _ _ => delPushed_of_migrationSafe plan removing before hdone hsafe
    · exact fun hpushed =>
        migrationSafe_of_delPushed plan removing before hplaced hdone (hpushed hdone)
  · obtain ⟨shards, hwork, hkept⟩ :=
      doMigrateWork_of_not_insertionsDone plan removing before hdone
    rw [hwork]
    refine iff_of_true ⟨fun h => ?_, fun _ => ⟨rfl, hkept⟩⟩ fun h => absurd h hdone
    cases h

end Whole

theorem savedShardingMap_twoShards (uniqueShardkey : String) :
    (twoShards uniqueShardkey).savedShardingMap = MapShardingStrategy.firstMap [1, 2] := by
  rw [twoShards, SoundStrategy.savedShardingMap_fresh]

theorem getElem?_97_twoShards : (twoShards "DOCID").savedShardingMap[97]? = some 2 := by
  have hlt : 97 < MAX_MAP_SIZE := by decide
  have hrange : (List.range MAX_MAP_SIZE)[97]? = some 97 := getElem?_range hlt
  rw [savedShardingMap_twoShards, MapShardingStrategy.firstMap, getElem?_map, hrange]
  rfl

/-- Virtual node 97 leaves shard 2 for a new shard 3. -/
def plan97 : MigratePlan (twoShards "DOCID").savedShardingMap where
  migrateDataList := Finmap.insert 97 (2, 3) ∅
  newMap := (twoShards "DOCID").savedShardingMap.set 97 3
  length_newMap := by rw [length_set, SoundStrategy.length_map]
  pos_newMap := by
    intro shardid hshardid
    rcases mem_or_eq_of_mem_set hshardid with hold | rfl
    · exact (twoShards "DOCID").pos_map hold
    · decide
  moved := by
    intro vnode src dst hlookup
    rw [lookup_insert_eq] at hlookup
    split_ifs at hlookup with hvnode
    · obtain ⟨rfl, rfl⟩ := Prod.mk.inj (Option.some.inj hlookup)
      subst hvnode
      refine ⟨getElem?_97_twoShards, ?_, by decide⟩
      rw [getElem?_set_self (by rw [SoundStrategy.length_map]; decide)]
    · rw [Finmap.lookup_empty] at hlookup
      cases hlookup
  kept := by
    intro vnode hlookup
    rw [lookup_insert_eq] at hlookup
    split_ifs at hlookup with hvnode
    exact getElem?_set_ne (Ne.symm hvnode)

/-- Everything succeeds, the last push perhaps not. -/
def env97 (delPushed : Bool) : MigrateEnv where
  getShardNodeIP shardid := if shardid = 2 then "10.0.0.2" else ""
  getMyShardId _ := 2
  getMyShardId_ip := by
    intro shardid h
    by_contra hne
    exact h (if_neg (Ne.symm hne))
  scdsGenerated := true
  migrateReady := true
  newShardingReady := true
  insertPushed _ := true
  delPushed _ := delPushed

theorem lookup_97_plan97 : plan97.migrateDataList.lookup 97 = some (2, 3) :=
  Finmap.lookup_insert _

theorem ips_env97 (delPushed : Bool) (vnode : VNodeId) (src dst : ShardId)
    (h : plan97.migrateDataList.lookup vnode = some (src, dst)) :
    (env97 delPushed).getShardNodeIP src ≠ "" := by
  have hsrc : src = 2 := by
    rw [plan97, lookup_insert_eq] at h
    split_ifs at h
    · exact (Prod.mk.inj (Option.some.inj h)).1.symm
    · cases h
  rw [hsrc]
  exact (by decide : "10.0.0.2" ≠ "")

/-- Shard 2 has one document. -/
def collection97 : ShardedCollection where
  mapFile := none
  shards shardid := if shardid = 2 then [aAtB] else []

theorem vnodeIndex_aAtB : vnodeIndex oneLetter aAtB = some 97 := by
  decide

theorem placed_collection97 :
    Placed oneLetter (twoShards "DOCID").savedShardingMap collection97.shards := by
  intro document shardid hdocument
  rw [collection97] at hdocument
  dsimp only at hdocument
  split_ifs at hdocument with hshardid
  · obtain rfl : document = aAtB := mem_singleton.mp hdocument
    rw [ownerIn, vnodeIndex_aAtB, Option.bind_some, getElem?_97_twoShards, hshardid]
  · cases hdocument

theorem migrationSafe_pushed : MigrationSafe oneLetter collection97
      (doMigrateWork (env97 true) oneLetter false plan97.migrateDataList plan97.newMap
        collection97).2
      (doMigrateWork (env97 true) oneLetter false plan97.migrateDataList plan97.newMap
        collection97).1 := by
  refine (migrationSafe_iff plan97 false collection97 (env97 true) oneLetter
    placed_collection97).mpr ?_
  exact fun _ _ _ _ _ => rfl

theorem not_migrationSafe_not_pushed :
    Placed oneLetter (twoShards "DOCID").savedShardingMap collection97.shards ∧
      ¬ MigrationSafe oneLetter collection97
        (doMigrateWork (env97 false) oneLetter false plan97.migrateDataList plan97.newMap
          collection97).2
        (doMigrateWork (env97 false) oneLetter false plan97.migrateDataList plan97.newMap
          collection97).1 := by
  refine ⟨placed_collection97, fun hsafe => ?_⟩
  have hdone : InsertionsDone (env97 false) oneLetter false plan97.migrateDataList
      collection97.shards :=
    ⟨ips_env97 false, rfl, rfl, fun _ => rfl, fun _ _ _ _ => rfl⟩
  have hleaves : Leaves oneLetter plan97.migrateDataList collection97.shards 2 3 aAtB :=
    ⟨mem_singleton_self _, 97, vnodeIndex_aAtB, lookup_97_plan97⟩
  have hpushed := delPushed_of_migrationSafe plan97 false collection97 hdone hsafe hleaves
  cases hpushed

end AdDelivery.Sharding
