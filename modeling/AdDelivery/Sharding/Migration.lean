import AdDelivery.Core.Table
import AdDelivery.Sharding.ShardingStrategy

/-!
# Migration files

A shard writes the documents of the virtual nodes that leave it to one file for each shard they
go to, and to one file of its own that removes them.
-/

namespace AdDelivery.Sharding

open Option Function

section MigrateScd

/-- The properties of a stored document. -/
abbrev Document := Table String Bytes

/-- Equal documents have the same properties. -/
instance lawfulBEqDocument : LawfulBEq Document := inferInstance

variable (conv : Conversions)

/-- The virtual node under which a migration files a document; without an id there is none. -/
def vnodeIndex (document : Document) : Option VNodeId :=
  (document.lookup "DOCID").map fun docidStr =>
    (convertUniqueIDForSharding conv docidStr).toNat % MAX_MAP_SIZE

/-- The first shard that gets the virtual node, 0 if none does. -/
def foundShardid (vnodeList : Table ShardId (List VNodeId)) (vnode : VNodeId) : ShardId :=
  ((vnodeList.inOrder.find? fun entry => vnode ∈ entry.2).map Prod.fst).getD 0

/-- The shard that a document goes to, if it goes. -/
def destination (vnodeList : Table ShardId (List VNodeId)) (document : Document) : Option ShardId :=
  (vnodeIndex conv document).bind fun vnode =>
    let found := foundShardid vnodeList vnode
    if found = 0 then none else some found

/-- The files for insertion and for deletion, by the shard that indexes them. The loop goes over
the documents that are not deleted, and a file is created for its first document. -/
def generateMigrateSCD (myShardId : ShardId) (docs : List Document)
    (vnodeList : Table ShardId (List VNodeId)) :
    Table ShardId (List Document) × Table ShardId (List Document) :=
  let source document := (destination conv vnodeList document).map fun _ => myShardId
  (collect (destination conv vnodeList) id docs ∅, collect source id docs ∅)

variable {conv} {vnodeList : Table ShardId (List VNodeId)} {dst : ShardId}

/-- Virtual nodes that go to one shard each. -/
theorem foundShardid_eq_iff
    (hone : ∀ dst dst' vnode, vnode ∈ vnodeList.get dst → vnode ∈ vnodeList.get dst' → dst = dst')
    {vnode : VNodeId} (hdst : dst ≠ 0) :
    foundShardid vnodeList vnode = dst ↔ vnode ∈ vnodeList.get dst := by
  have hget {shardid : ShardId} {vnodes : List VNodeId}
      (h : (shardid, vnodes) ∈ vnodeList.inOrder) : vnodeList.get shardid = vnodes := by
    rw [Table.get, Table.mem_inOrder.mp h, getD_some]
  unfold foundShardid
  cases hfind : vnodeList.inOrder.find? fun entry => decide (vnode ∈ entry.2) with
  | none =>
    refine iff_of_false hdst.symm fun hmem => ?_
    cases hlookup : vnodeList.lookup dst with
    | none =>
      rw [Table.get, hlookup] at hmem
      cases hmem
    | some vnodes =>
      have hnone := List.find?_eq_none.mp hfind _ (Table.mem_inOrder.mpr hlookup)
      rw [hget (Table.mem_inOrder.mpr hlookup)] at hmem
      exact hnone (decide_eq_true hmem)
  | some entry =>
    obtain ⟨shardid, vnodes⟩ := entry
    have hmem : vnode ∈ vnodes := by simpa using List.find?_some hfind
    rw [← hget (List.mem_of_find?_eq_some hfind)] at hmem
    constructor
    · rintro rfl
      exact hmem
    · exact fun hdst => hone _ _ _ hmem hdst

variable {document : Document}

theorem destination_eq_some_iff
    (hone : ∀ dst dst' vnode, vnode ∈ vnodeList.get dst → vnode ∈ vnodeList.get dst' → dst = dst')
    (hdst : dst ≠ 0) : destination conv vnodeList document = some dst ↔
      ∃ vnode, vnodeIndex conv document = some vnode ∧ vnode ∈ vnodeList.get dst := by
  simp only [destination, bind_eq_some_iff, ← foundShardid_eq_iff hone hdst]
  refine exists_congr fun vnode => and_congr_right fun _ => ?_
  by_cases hfound : foundShardid vnodeList vnode = 0
  · rw [hfound]
    exact iff_of_false (by simp) hdst.symm
  · rw [if_neg hfound, some.injEq]

theorem ne_zero_of_destination_eq_some (h : destination conv vnodeList document = some dst) :
    dst ≠ 0 := by
  obtain ⟨vnode, _, hfound⟩ := bind_eq_some_iff.mp h
  dsimp only at hfound
  split_ifs at hfound with hzero
  obtain rfl := some.inj hfound
  exact hzero

/-- The list of a migration of one virtual node. -/
def oneVNode (dst : ShardId) (vnode : VNodeId) : Table ShardId (List VNodeId) :=
  Finmap.insert dst [vnode] ∅

theorem get_oneVNode (dst dst' : ShardId) (vnode : VNodeId) :
    (oneVNode dst vnode).get dst' = if dst' = dst then [vnode] else [] := by
  rw [Table.get, oneVNode, Table.lookup_insert_eq]
  split
  · rfl
  · rfl

/-- A document leaves with the virtual node that it is filed under. -/
theorem destination_oneVNode {dst : ShardId} (hdst : dst ≠ 0) {vnode : VNodeId}
    (shardid : ShardId) : destination conv (oneVNode dst vnode) document = some shardid ↔
      shardid = dst ∧ vnodeIndex conv document = some vnode := by
  have hone : ∀ d d' v, v ∈ (oneVNode dst vnode).get d → v ∈ (oneVNode dst vnode).get d' →
      d = d' := by
    intro d d' v hd hd'
    rw [get_oneVNode] at hd hd'
    split_ifs at hd hd' with h h'
    · rw [h, h']
    all_goals simp at hd hd'
  by_cases hzero : shardid = 0
  · refine iff_of_false (fun h => ne_zero_of_destination_eq_some h hzero) ?_
    rintro ⟨rfl, -⟩
    exact hdst hzero
  · rw [destination_eq_some_iff hone hzero, get_oneVNode]
    by_cases hshardid : shardid = dst
    · simp [hshardid]
    · simp [hshardid]

/-- A migration of one virtual node inserts at its target the documents that are filed under it,
and nothing elsewhere. -/
theorem mem_insertFiles_oneVNode {myShardId dst : ShardId} (hdst : dst ≠ 0)
    {docs : List Document} {vnode : VNodeId} (shardid : ShardId) :
    document ∈ (generateMigrateSCD conv myShardId docs (oneVNode dst vnode)).1.get shardid ↔
      shardid = dst ∧ document ∈ docs ∧ vnodeIndex conv document = some vnode := by
  rw [generateMigrateSCD, mem_get_collect]
  simp only [destination_oneVNode hdst, id_eq]
  constructor
  · rintro ⟨_, hmem, ⟨hshardid, hvnode⟩, rfl⟩
    exact ⟨hshardid, hmem, hvnode⟩
  · rintro ⟨hshardid, hmem, hvnode⟩
    exact ⟨document, hmem, ⟨hshardid, hvnode⟩, rfl⟩

/-- It removes the same documents from the shard that had them. -/
theorem mem_deleteFiles_oneVNode {myShardId dst : ShardId} (hdst : dst ≠ 0)
    {docs : List Document} {vnode : VNodeId} (shardid : ShardId) :
    document ∈ (generateMigrateSCD conv myShardId docs (oneVNode dst vnode)).2.get shardid ↔
      shardid = myShardId ∧ document ∈ docs ∧ vnodeIndex conv document = some vnode := by
  rw [generateMigrateSCD, mem_get_collect]
  simp only [map_eq_some_iff, destination_oneVNode hdst, id_eq]
  constructor
  · rintro ⟨_, hmem, ⟨_, ⟨-, hvnode⟩, rfl⟩, rfl⟩
    exact ⟨rfl, hmem, hvnode⟩
  · rintro ⟨rfl, hmem, hvnode⟩
    exact ⟨document, hmem, ⟨dst, ⟨rfl, hvnode⟩, rfl⟩, rfl⟩

/-- The place in the map that is read for a document. -/
def routedThrough (conv : Conversions) (strategy : MapShardingStrategy) (document : Document) :
    Option VNodeId :=
  (document.lookup strategy.shardCfg.uniqueShardkey).map (strategy.mapIndex conv)

/-- Readers, writers and migrations agree on the documents of a shard: a reader asks the shard a
writer uses, the map survives its file, a document is filed under the place of the map that is
used for it, and a virtual node leaves with exactly the documents that are routed through it: they
are inserted at its target and removed from its source, and no other shard gets any. -/
structure OwnersAgree (conv : Conversions) (strategy : MapShardingStrategy)
    (docs : List Document) : Prop where
  read : ∀ document ∈ docs, strategy.shardingForGet conv document =
    [strategy.shardingForWrite conv document]
  file : ∀ file shardingMap, readShardingMapFile
    (saveShardingMapToFile file strategy.savedShardingMap) shardingMap = strategy.savedShardingMap
  filed : ∀ document ∈ docs, vnodeIndex conv document = routedThrough conv strategy document
  moved : ∀ myShardId dst vnode shardid document, dst ≠ 0 →
    (document ∈ (generateMigrateSCD conv myShardId docs (oneVNode dst vnode)).1.get shardid ↔
      shardid = dst ∧ document ∈ docs ∧ routedThrough conv strategy document = some vnode) ∧
    (document ∈ (generateMigrateSCD conv myShardId docs (oneVNode dst vnode)).2.get shardid ↔
      shardid = myShardId ∧ document ∈ docs ∧ routedThrough conv strategy document = some vnode)

variable (uniqueShardkey : String)

/-- The documents have an id and the key they are sharded by, and neither is empty. -/
def HasIds (docs : List Document) : Prop :=
  ∀ document ∈ docs, ∀ key ∈ ["DOCID", uniqueShardkey], ∃ uid,
    document.lookup key = some uid ∧ uid ≠ []

variable {uniqueShardkey}

/-- Where documents are sharded by their id, they are filed under the place that is used. -/
theorem ownersAgree_of_docid (conv : Conversions) (strategy : SoundStrategy)
    (hdocid : strategy.shardCfg.uniqueShardkey = "DOCID") {docs : List Document}
    (hids : HasIds strategy.shardCfg.uniqueShardkey docs) :
    OwnersAgree conv strategy.toMapShardingStrategy docs := by
  have hfiled : ∀ document, vnodeIndex conv document =
      routedThrough conv strategy.toMapShardingStrategy document := by
    intro document
    rw [vnodeIndex, routedThrough, hdocid]
    exact congrArg (Option.map · _) (funext fun uid => (strategy.mapIndex_eq conv uid).symm)
  constructor
  · intro document hdocument
    obtain ⟨uid, huid, _⟩ := hids document hdocument strategy.shardCfg.uniqueShardkey (by simp)
    exact strategy.shardingForGet_eq conv (Finmap.mem_iff.mpr ⟨uid, huid⟩)
  · exact fun file shardingMap => readShardingMapFile_saveShardingMapToFile strategy.length_map
      (fun _ => strategy.pos_map) file shardingMap
  · exact fun document _ => hfiled document
  · intro myShardId dst vnode shardid document hdst
    rw [mem_insertFiles_oneVNode hdst, mem_deleteFiles_oneVNode hdst, hfiled]
    exact ⟨Iff.rfl, Iff.rfl⟩

/-- A document with the id `a` and another key `b`. -/
def aWithKey (key : String) : Document := Finmap.insert key [98] (Finmap.insert "DOCID" [97] ∅)

theorem lookup_aWithKey (key : String) : (aWithKey key).lookup key = some [98] :=
  Finmap.lookup_insert _

theorem lookup_docid_aWithKey {key : String} (hkey : key ≠ "DOCID") :
    (aWithKey key).lookup "DOCID" = some [97] := by
  rw [aWithKey, Finmap.lookup_insert_of_ne _ hkey.symm, Finmap.lookup_insert]

theorem hasIds_aWithKey {key : String} (hkey : key ≠ "DOCID") : HasIds key [aWithKey key] := by
  intro document hdocument key' hkey'
  obtain rfl : document = aWithKey key := List.mem_singleton.mp hdocument
  have hcases : key' = "DOCID" ∨ key' = key := by simpa using hkey'
  rcases hcases with rfl | rfl
  · exact ⟨[97], lookup_docid_aWithKey hkey, by decide⟩
  · exact ⟨[98], lookup_aWithKey _, by decide⟩

/-- An id of one letter is reduced to the letter. -/
theorem convertUniqueIDForSharding_letter (conv : Conversions) {c : UInt8} (hlow : 97 ≤ c)
    (hhigh : c ≤ 122) :
    convertUniqueIDForSharding conv [c] = c.toInt8.toInt64.toUInt64 := by
  have hthrows := conv.lexicalCast_letter [c] c (List.mem_singleton_self c) hlow hhigh
  simp [convertUniqueIDForSharding, hthrows]

/-- Under any other key the document is filed elsewhere than it is routed through. -/
theorem not_ownersAgree_aWithKey (conv : Conversions) (strategy : SoundStrategy)
    (hkey : strategy.shardCfg.uniqueShardkey ≠ "DOCID") :
    ¬ OwnersAgree conv strategy.toMapShardingStrategy
      [aWithKey strategy.shardCfg.uniqueShardkey] := by
  intro hagree
  have hfiled := hagree.filed _ (List.mem_singleton_self _)
  rw [vnodeIndex, routedThrough, lookup_docid_aWithKey hkey, lookup_aWithKey, map_some, map_some,
    strategy.mapIndex_eq, convertUniqueIDForSharding_letter conv (by decide) (by decide),
    convertUniqueIDForSharding_letter conv (by decide) (by decide)] at hfiled
  cases hfiled

/-- They agree on all documents exactly in the collections that are sharded by the id. -/
theorem ownersAgree_iff (conv : Conversions) (strategy : SoundStrategy) :
    (∀ docs, HasIds strategy.shardCfg.uniqueShardkey docs →
      OwnersAgree conv strategy.toMapShardingStrategy docs) ↔
      strategy.shardCfg.uniqueShardkey = "DOCID" := by
  refine ⟨fun hagree => ?_, fun hdocid docs hids => ownersAgree_of_docid conv strategy hdocid hids⟩
  by_contra hkey
  exact not_ownersAgree_aWithKey conv strategy hkey (hagree _ (hasIds_aWithKey hkey))

/-- Conversions for ids of one letter. -/
def oneLetter : Conversions := ⟨fun _ => 0, fun _ => none, fun _ _ _ _ _ => rfl⟩

/-- A collection on two shards that is sharded by the given key. -/
def twoShards (uniqueShardkey : String) : SoundStrategy :=
  .fresh ⟨[1, 2], uniqueShardkey⟩ (by simp) (by simp)

theorem uniqueShardkey_twoShards (uniqueShardkey : String) :
    (twoShards uniqueShardkey).shardCfg.uniqueShardkey = uniqueShardkey := by
  rw [twoShards, SoundStrategy.fresh, SoundStrategy.shardCfg_init]

/-- A document with the id `a` and the address `b`. -/
abbrev aAtB : Document := aWithKey "url"

/-- The key is the address. -/
theorem not_ownersAgree_aAtB : HasIds (twoShards "url").shardCfg.uniqueShardkey [aAtB] ∧
      ¬ OwnersAgree oneLetter (twoShards "url").toMapShardingStrategy [aAtB] := by
  have hkey : (twoShards "url").shardCfg.uniqueShardkey ≠ "DOCID" := by
    rw [uniqueShardkey_twoShards]
    decide
  have hnot := not_ownersAgree_aWithKey oneLetter (twoShards "url") hkey
  rw [uniqueShardkey_twoShards] at hnot ⊢
  exact ⟨hasIds_aWithKey (by decide), hnot⟩

end MigrateScd

/-! ## Migration of virtual nodes

The shards write the files of the virtual nodes that leave them, the files for insertion are
indexed, then the ones for deletion, and then the new map is saved.
-/

section Migration

open List

/-- What the other nodes answer. The node at the address of a shard is a node of this shard. -/
structure MigrateEnv where
  getShardNodeIP : ShardId → String
  getMyShardId : String → ShardId
  getMyShardId_ip : ∀ shardid, getShardNodeIP shardid ≠ "" →
    getMyShardId (getShardNodeIP shardid) = shardid
  scdsGenerated : Bool
  migrateReady : Bool
  newShardingReady : Bool
  insertPushed : ShardId → Bool
  delPushed : ShardId → Bool

/-- The virtual nodes that migrate, each with its source and its target. -/
abbrev MigrateDataList := Table VNodeId (ShardId × ShardId)

abbrev Shards := ShardId → List Document

/-- The files to be indexed by each shard. -/
abbrev MigrateScds := Table ShardId (List (List Document))

namespace MigrateEnv

variable (env : MigrateEnv)

/-- One virtual node is put to those of its source's address and its target. -/
def pushVNode (list : Table String (Table ShardId (List VNodeId)))
    (entry : VNodeId × ShardId × ShardId) : Option (Table String (Table ShardId (List VNodeId))) :=
  let shardip := env.getShardNodeIP entry.2.1
  if shardip = "" then none
  else some (list.update shardip fun targets => appendAt targets entry.2.2 entry.1)

/-- The virtual nodes to be asked for at each address, by their targets. -/
def migrateFromToList (entries : List (VNodeId × ShardId × ShardId)) :
    Option (Table String (Table ShardId (List VNodeId))) :=
  entries.foldlM env.pushVNode ∅

/-- The files that one node generated are put to those of the others. -/
def pushFiles (scds : MigrateScds) (files : Table ShardId (List Document)) : MigrateScds :=
  collect (some ∘ Prod.fst) Prod.snd files.inOrder scds

/-- The files of all sources, in the order of their addresses. -/
def generateMigrateScds (conv : Conversions) (shards : Shards)
    (list : Table String (Table ShardId (List VNodeId))) : MigrateScds × MigrateScds :=
  let rspdata := list.inOrder.map fun entry =>
    let myShardId := env.getMyShardId entry.1
    generateMigrateSCD conv myShardId (shards myShardId) entry.2
  ((rspdata.map Prod.fst).foldl pushFiles ∅, (rspdata.map Prod.snd).foldl pushFiles ∅)

end MigrateEnv

/-- What a shard has after it indexed documents. -/
def insertDocs (docs files : List Document) : List Document := files ∪ docs

def deleteDocs (docs files : List Document) : List Document :=
  docs.filter fun document => document ∉ files

/-- The loop over the shards. It stops at the first shard that does not get its files. -/
def indexShardingNodes (pushed : ShardId → Bool)
    (index : List Document → List Document → List Document) :
    List (ShardId × List (List Document)) → Shards → Bool × Shards
  | [], shards => (true, shards)
  | (shardid, scds) :: rest, shards =>
    if pushed shardid then
      indexShardingNodes pushed index rest
        (update shards shardid (index (shards shardid) scds.flatten))
    else (false, shards)

/-- The map file of a collection and the documents on its shards. -/
structure ShardedCollection where
  mapFile : Option (List Char)
  shards : Shards

def doMigrateWork (env : MigrateEnv) (conv : Conversions) (removing : Bool)
    (migrateDataList : MigrateDataList) (currentShardingMap : List ShardId)
    (collection : ShardedCollection) : Bool × ShardedCollection :=
  match env.migrateFromToList migrateDataList.inOrder with
  | none => (false, collection)
  | some list =>
    let scds := env.generateMigrateScds conv collection.shards list
    if !env.scdsGenerated then (false, collection)
    else if !env.migrateReady then (false, collection)
    else if !removing && !env.newShardingReady then (false, collection)
    else
      let (inserted, shards) :=
        indexShardingNodes env.insertPushed insertDocs scds.1.inOrder collection.shards
      if !inserted then (false, { collection with shards })
      else
        -- the result is not examined
        let (_, shards) := indexShardingNodes env.delPushed deleteDocs scds.2.inOrder shards
        (true, { mapFile := saveShardingMapToFile collection.mapFile currentShardingMap, shards })

/-- Virtual nodes that leave their shard, and the map that says so. -/
structure MigratePlan (oldMap : List ShardId) where
  migrateDataList : MigrateDataList
  newMap : List ShardId
  length_newMap : newMap.length = MAX_MAP_SIZE
  pos_newMap : ∀ shardid ∈ newMap, 0 < shardid
  moved : ∀ {vnode src dst}, migrateDataList.lookup vnode = some (src, dst) →
    oldMap[vnode]? = some src ∧ newMap[vnode]? = some dst ∧ src ≠ dst
  kept : ∀ {vnode}, migrateDataList.lookup vnode = none → newMap[vnode]? = oldMap[vnode]?

variable (conv : Conversions)

/-- The shard that a map gives a document. -/
def ownerIn (shardingMap : List ShardId) (document : Document) : Option ShardId :=
  (vnodeIndex conv document).bind fun vnode => shardingMap[vnode]?

/-- A document is on no shard but the one the map gives it. -/
def Placed (shardingMap : List ShardId) (shards : Shards) : Prop :=
  ∀ document shardid, document ∈ shards shardid → ownerIn conv shardingMap document = some shardid

/-- After a migration that succeeds, each document is on exactly the shard that the saved map
gives it; after one that fails, the map file is the old one and no document left its shard. -/
structure MigrationSafe (conv : Conversions) (before after : ShardedCollection)
    (done : Bool) : Prop where
  placed : done = true → ∀ document shardid, document ∈ after.shards shardid ↔
    (∃ src, document ∈ before.shards src) ∧
      ownerIn conv (readShardingMapFile after.mapFile []) document = some shardid
  unchanged : done = false → after.mapFile = before.mapFile ∧
    ∀ document shardid, document ∈ before.shards shardid → document ∈ after.shards shardid

/-- The document leaves one shard for another. -/
def Leaves (migrateDataList : MigrateDataList) (shards : Shards)
    (src dst : ShardId) (document : Document) : Prop :=
  document ∈ shards src ∧ ∃ vnode, vnodeIndex conv document = some vnode ∧
    migrateDataList.lookup vnode = some (src, dst)

/-- Everything before the deletions succeeds. -/
structure InsertionsDone (env : MigrateEnv) (conv : Conversions) (removing : Bool)
    (migrateDataList : MigrateDataList) (shards : Shards) : Prop where
  ips : ∀ vnode src dst, migrateDataList.lookup vnode = some (src, dst) →
    env.getShardNodeIP src ≠ ""
  scdsGenerated : env.scdsGenerated = true
  migrateReady : env.migrateReady = true
  newShardingReady : removing = false → env.newShardingReady = true
  pushed : ∀ src dst document, Leaves conv migrateDataList shards src dst document →
    env.insertPushed dst = true

variable {pushed : ShardId → Bool} (index : List Document → List Document → List Document)
  {scds : List (ShardId × List (List Document))}

/-- If every shard gets its files, each indexes them. -/
theorem indexShardingNodes_of_pushed (hnodup : (scds.map Prod.fst).Nodup)
    (hpushed : ∀ entry ∈ scds, pushed entry.1 = true) (shards : Shards) :
    ∃ shards', indexShardingNodes pushed index scds shards = (true, shards') ∧
      (∀ shardid files, (shardid, files) ∈ scds →
        shards' shardid = index (shards shardid) files.flatten) ∧
      ∀ shardid, shardid ∉ scds.map Prod.fst → shards' shardid = shards shardid := by
  induction scds generalizing shards with
  | nil => exact ⟨shards, rfl, nofun, fun _ _ => rfl⟩
  | cons entry scds ih =>
    obtain ⟨first, scdfiles⟩ := entry
    rw [map_cons, nodup_cons] at hnodup
    obtain ⟨shards', hindex, hin, hout⟩ :=
      ih hnodup.2 (fun entry h => hpushed entry (mem_cons_of_mem _ h))
        (update shards first (index (shards first) scdfiles.flatten))
    refine ⟨shards', ?_, ?_, ?_⟩
    · rw [indexShardingNodes, if_pos (hpushed _ mem_cons_self), hindex]
    · intro shardid files hfiles
      rcases mem_cons.mp hfiles with heq | hrest
      · obtain ⟨rfl, rfl⟩ := Prod.mk.inj heq
        rw [hout shardid hnodup.1, update_self]
      · have hne : shardid ≠ first := by
          rintro rfl
          exact hnodup.1 (mem_map.mpr ⟨_, hrest, rfl⟩)
        rw [hin shardid files hrest, update_of_ne hne]
    · intro shardid hshardid
      rw [map_cons, mem_cons, not_or] at hshardid
      rw [hout shardid hshardid.2, update_of_ne hshardid.1]

/-- A shard that does not get its files stops the loop and keeps its documents. -/
theorem indexShardingNodes_of_not_pushed {entry : ShardId × List (List Document)}
    (hentry : entry ∈ scds) (hpushed : pushed entry.1 = false) (shards : Shards) :
    (indexShardingNodes pushed index scds shards).1 = false ∧
      (indexShardingNodes pushed index scds shards).2 entry.1 = shards entry.1 := by
  induction scds generalizing shards with
  | nil => cases hentry
  | cons first scds ih =>
    rw [indexShardingNodes]
    by_cases hfirst : pushed first.1 = true
    · rw [if_pos hfirst]
      have hne : entry.1 ≠ first.1 := by
        intro heq
        rw [heq, hfirst] at hpushed
        cases hpushed
      rcases mem_cons.mp hentry with rfl | hentry
      · exact absurd rfl hne
      · obtain ⟨hfalse, hkept⟩ := ih hentry
          (update shards first.1 (index (shards first.1) first.2.flatten))
        exact ⟨hfalse, hkept.trans (update_of_ne hne _ _)⟩
    · rw [if_neg hfirst]
      exact ⟨rfl, rfl⟩

/-- Indexing of insertions removes nothing. -/
theorem mem_indexShardingNodes_insertDocs (scds : List (ShardId × List (List Document)))
    {shards : Shards} {shardid : ShardId} {document : Document} (h : document ∈ shards shardid) :
    document ∈ (indexShardingNodes pushed insertDocs scds shards).2 shardid := by
  induction scds generalizing shards with
  | nil => exact h
  | cons first scds ih =>
    rw [indexShardingNodes]
    split
    · refine ih ?_
      by_cases heq : shardid = first.1
      · subst heq
        rw [update_self, insertDocs, mem_union_iff]
        exact .inr h
      · rwa [update_of_ne heq]
    · exact h

end Migration

end AdDelivery.Sharding
