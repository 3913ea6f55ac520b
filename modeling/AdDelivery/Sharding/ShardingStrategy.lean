import AdDelivery.Core.Table

/-!
# The sharding map

A document id is reduced to a virtual node, and the map of a collection says which shard has
the documents of a virtual node. The map is kept in a text file, one shard id a line.
-/

namespace AdDelivery.Sharding

open List Nat

abbrev Bytes := List UInt8

abbrev ShardId := UInt8

abbrev VNodeId := ℕ

instance : LinearOrder ShardId where
  le_refl := UInt8.le_refl
  le_trans _ _ _ := UInt8.le_trans
  le_antisymm _ _ := UInt8.le_antisymm
  le_total := UInt8.le_total
  lt_iff_le_not_ge := fun _ _ => by
    rw [UInt8.not_le]
    exact ⟨fun h => ⟨UInt8.le_of_lt h, h⟩, And.right⟩
  toDecidableLE := inferInstance
  toDecidableLT := inferInstance
  toDecidableEq := inferInstance

/-- The conversions that are not the engine's own; `lexicalCast` is `none` where it throws. -/
structure Conversions where
  uuidToUint128 : Bytes → ℕ
  lexicalCast : Bytes → Option UInt64
  /-- A text with a letter from `a` to `z` in it is not a number. -/
  lexicalCast_letter : ∀ uid, ∀ c ∈ uid, 97 ≤ c → c ≤ 122 → lexicalCast uid = none

/-- The number that an id is reduced to: by its hash, its value or its last byte. -/
def convertUniqueIDForSharding (conv : Conversions) (uid : Bytes) : UInt64 :=
  if uid.length = 32 then UInt64.ofNat (conv.uuidToUint128 uid)
  else
    match conv.lexicalCast uid with
    | some tmp => tmp
    | none => (uid.getLastD 0).toInt8.toInt64.toUInt64

structure ShardingConfig where
  shardidList : List ShardId
  uniqueShardkey : String

abbrev ShardFieldList := Table String Bytes

/-- A strategy after `init`, with its map. -/
structure MapShardingStrategy where
  shardCfg : ShardingConfig
  savedShardingMap : List ShardId

def MAX_MAP_SIZE : ℕ := 0xFFFF

namespace MapShardingStrategy

variable (conv : Conversions) (strategy : MapShardingStrategy)

/-- The place in the map that is read for an id. -/
def mapIndex (uid : Bytes) : VNodeId :=
  (convertUniqueIDForSharding conv uid).toNat % strategy.savedShardingMap.length

def shardingForWriteUid (uid : Bytes) (shardingConfig : ShardingConfig) : ShardId :=
  if shardingConfig.shardidList.length = 1 then shardingConfig.shardidList.getLastD 0
  else if strategy.savedShardingMap = [] then 0
  else strategy.savedShardingMap.getD (strategy.mapIndex conv uid) 0

def shardingForWrite (shardFieldList : ShardFieldList) : ShardId :=
  match shardFieldList.lookup strategy.shardCfg.uniqueShardkey with
  | none => 0
  | some uid => strategy.shardingForWriteUid conv uid strategy.shardCfg

def shardingForGet (shardFieldList : ShardFieldList) : List ShardId :=
  match shardFieldList.lookup strategy.shardCfg.uniqueShardkey with
  | some uid =>
    let selectedId := strategy.shardingForWriteUid conv uid strategy.shardCfg
    if 0 < selectedId then [selectedId] else []
  | none => strategy.shardCfg.shardidList

end MapShardingStrategy

/-- What `operator>>` skips. -/
def isspace (c : Char) : Bool := c = ' ' ∨ (9 ≤ c.toNat ∧ c.toNat ≤ 13)

/-- A sign in front of a number. -/
def readSign : List Char → Bool × List Char
  | '-' :: text => (true, text)
  | '+' :: text => (false, text)
  | text => (false, text)

/-- `operator>>` for `uint32_t`: the number, whether the stream is still good, and the text
behind it. Nothing to read gives 0, a number that is too large the greatest one. -/
def readUInt32 (text : List Char) : ℕ × Bool × List Char :=
  let (negative, text) := readSign (text.dropWhile isspace)
  let digits := text.takeWhile Char.isDigit
  let rest := text.dropWhile Char.isDigit
  let value := ofDigitChars 10 digits 0
  if digits = [] then (0, false, rest)
  else if 2 ^ 32 ≤ value then (2 ^ 32 - 1, false, rest)
  else (if negative then (2 ^ 32 - value) % 2 ^ 32 else value, rest ≠ [], rest)

variable (text : List Char)

theorem length_readSign_le : (readSign text).2.length ≤ text.length := by
  fun_cases readSign text <;> simp

theorem length_readUInt32_lt {text : List Char} (h : (readUInt32 text).2.1 = true) :
    (readUInt32 text).2.2.length < text.length := by
  unfold readUInt32 at h ⊢
  have hsign := length_readSign_le (text.dropWhile isspace)
  have hskip := (dropWhile_suffix isspace (l := text)).length_le
  generalize readSign (text.dropWhile isspace) = signed at h hsign ⊢
  obtain ⟨negative, text'⟩ := signed
  have hsplit := congrArg List.length
    (takeWhile_append_dropWhile (p := Char.isDigit) (l := text'))
  rw [length_append] at hsplit
  dsimp only at h hsign ⊢
  split_ifs at h ⊢ with hdigits
  all_goals
    have hpos := length_pos_iff.mpr hdigits
    dsimp only
    omega

/-- The loop that reads the map. -/
def readShardids (text : List Char) (shardingMap : List ShardId) : List ShardId :=
  let shardid : ShardId := UInt8.ofNat (readUInt32 text).1
  let shardingMap := if shardid ≠ 0 then shardingMap ++ [shardid] else shardingMap
  if shardingMap.length = MAX_MAP_SIZE then shardingMap
  else if (readUInt32 text).2.1 then readShardids (readUInt32 text).2.2 shardingMap
  else shardingMap
termination_by text.length
decreasing_by exact length_readUInt32_lt ‹_›

/-- A file that cannot be opened leaves the map as it was. -/
def readShardingMapFile (file : Option (List Char)) (shardingMap : List ShardId) : List ShardId :=
  match file with
  | none => shardingMap
  | some text =>
    let shardingMap := readShardids text []
    if shardingMap.length ≠ MAX_MAP_SIZE then [] else shardingMap

/-- A line of the file. -/
def shardidLine (shardid : ShardId) : List Char := toDigits 10 shardid.toNat ++ ['\n']

def saveShardingMapToFile (file : Option (List Char)) (shardingMap : List ShardId) :
    Option (List Char) :=
  if shardingMap.length ≠ MAX_MAP_SIZE then file
  else some ((shardingMap.filter fun shardid => 0 < shardid).flatMap shardidLine)

namespace MapShardingStrategy

/-- The map of a collection that has none yet. -/
def firstMap (shardidList : List ShardId) : List ShardId :=
  (List.range MAX_MAP_SIZE).map fun i => shardidList.getD (i % shardidList.length) 0

/-- `init` for a strategy with a file path. -/
def init (file : Option (List Char)) (shardCfg : ShardingConfig) :
    MapShardingStrategy × Option (List Char) :=
  match file with
  | some _ => (⟨shardCfg, readShardingMapFile file []⟩, file)
  | none =>
    if shardCfg.shardidList.length ≤ 1 then (⟨shardCfg, []⟩, file)
    else
      let savedShardingMap := firstMap shardCfg.shardidList
      (⟨shardCfg, savedShardingMap⟩, saveShardingMapToFile file savedShardingMap)

end MapShardingStrategy

open MapShardingStrategy

theorem isspace_eq_false {c : Char} (hc : c.isDigit) : isspace c = false := by
  have hlow : 48 ≤ c.toNat := (Char.isDigit_iff_toNat.mp hc).1
  have hne : c ≠ ' ' := by
    rintro rfl
    cases hc
  rw [isspace, decide_eq_false_iff_not]
  rintro (hspace | hcontrol)
  · exact hne hspace
  · omega

theorem readSign_eq {c : Char} (hc : c.isDigit) (text : List Char) :
    readSign (c :: text) = (false, c :: text) := by
  have hminus : c ≠ '-' := by
    rintro rfl
    cases hc
  have hplus : c ≠ '+' := by
    rintro rfl
    cases hc
  simp [readSign, hminus, hplus]

/-- A number with a line end behind it. -/
theorem readUInt32_toDigits {n : ℕ} (hn : n < 2 ^ 32) (rest : List Char) :
    readUInt32 (toDigits 10 n ++ '\n' :: rest) = (n, true, '\n' :: rest) := by
  have hdigit : ∀ c ∈ toDigits 10 n, c.isDigit := fun c hc =>
    isDigit_of_mem_toDigits (by decide) (by decide) hc
  have hskip : readSign ((toDigits 10 n ++ '\n' :: rest).dropWhile isspace) =
      (false, toDigits 10 n ++ '\n' :: rest) := by
    obtain ⟨c, cs, hcs⟩ := exists_cons_of_ne_nil (toDigits_ne_nil (n := n) (b := 10))
    have hc := hdigit c (by simp [hcs])
    rw [hcs, cons_append, dropWhile_cons_of_neg (by simp [isspace_eq_false hc]),
      readSign_eq hc]
  have htake : (toDigits 10 n ++ '\n' :: rest).takeWhile Char.isDigit =
      toDigits 10 n := by
    rw [takeWhile_append_of_pos hdigit, takeWhile_cons_of_neg (by decide),
      append_nil]
  have hdrop : (toDigits 10 n ++ '\n' :: rest).dropWhile Char.isDigit = '\n' :: rest := by
    rw [dropWhile_append_of_pos hdigit, dropWhile_cons_of_neg (by decide)]
  simp only [readUInt32, hskip, htake, hdrop, ofDigitChars_ten_toDigits,
    toDigits_ne_nil, if_false, not_le.mpr hn, Bool.false_eq_true, ne_eq, reduceCtorEq,
    not_false_eq_true, decide_true]

theorem readUInt32_newline : readUInt32 ('\n' :: text) = readUInt32 text := rfl

theorem readShardids_newline (shardingMap : List ShardId) :
    readShardids ('\n' :: text) shardingMap = readShardids text shardingMap := by
  rw [readShardids, readUInt32_newline, ← readShardids]

/-- The loop reads the lines of shards that are not 0 until the map is full. -/
theorem readShardids_lines (shardids : List ShardId) (hne : shardids ≠ [])
    (hpos : ∀ shardid ∈ shardids, 0 < shardid) (shardingMap : List ShardId)
    (hlength : shardingMap.length + shardids.length = MAX_MAP_SIZE) :
    readShardids (shardids.flatMap shardidLine) shardingMap = shardingMap ++ shardids := by
  induction shardids generalizing shardingMap with
  | nil => exact absurd rfl hne
  | cons shardid shardids ih =>
    have hlt : shardid.toNat < 2 ^ 32 := lt_trans shardid.toNat_lt (by decide)
    have hid : shardid ≠ 0 := (hpos shardid (by simp)).ne'
    have hread := readUInt32_toDigits hlt (shardids.flatMap shardidLine)
    have hline : (shardid :: shardids).flatMap shardidLine =
        toDigits 10 shardid.toNat ++ '\n' :: shardids.flatMap shardidLine := by
      simp [shardidLine]
    rw [hline, readShardids, hread]
    simp only [UInt8.ofNat_toNat, hid, ne_eq, not_false_eq_true, if_true]
    rw [length_cons] at hlength
    by_cases hlast : shardids = []
    · subst hlast
      have hfull : (shardingMap ++ [shardid]).length = MAX_MAP_SIZE := by
        rw [length_append]
        exact hlength
      rw [if_pos hfull]
    · have hmore : (shardingMap ++ [shardid]).length ≠ MAX_MAP_SIZE := by
        have hlen := length_pos_iff.mpr hlast
        rw [length_append, length_singleton]
        omega
      rw [if_neg hmore, readShardids_newline, ih hlast]
      · rw [append_assoc, singleton_append]
      · exact fun shardid h => hpos shardid (mem_cons_of_mem _ h)
      · rw [length_append, length_singleton]
        omega

/-- A map that is saved comes back, whatever the file had and whatever map there is. -/
theorem readShardingMapFile_saveShardingMapToFile {shardingMap : List ShardId}
    (hlength : shardingMap.length = MAX_MAP_SIZE) (hpos : ∀ shardid ∈ shardingMap, 0 < shardid)
    (file : Option (List Char)) (oldMap : List ShardId) :
    readShardingMapFile (saveShardingMapToFile file shardingMap) oldMap = shardingMap := by
  have hfilter : shardingMap.filter (fun shardid => 0 < shardid) = shardingMap := by
    rw [filter_eq_self]
    exact fun shardid h => decide_eq_true (hpos shardid h)
  have hne : shardingMap ≠ [] := by
    intro h
    rw [h] at hlength
    cases hlength
  have hread := readShardids_lines shardingMap hne hpos [] (by rw [hlength]; rfl)
  rw [nil_append] at hread
  simp only [saveShardingMapToFile, hlength, hfilter, readShardingMapFile, hread, ne_eq,
    not_true_eq_false, if_false]

/-- A map over the configured shards. -/
structure SoundStrategy extends MapShardingStrategy where
  length_map : savedShardingMap.length = MAX_MAP_SIZE
  mem_config : ∀ shardid ∈ savedShardingMap, shardid ∈ shardCfg.shardidList
  pos_config : ∀ shardid ∈ shardCfg.shardidList, 0 < shardid

theorem length_firstMap (shardidList : List ShardId) :
    (firstMap shardidList).length = MAX_MAP_SIZE := by
  rw [firstMap, List.length_map, length_range]

theorem mem_of_mem_firstMap {shardidList : List ShardId} (hne : 0 < shardidList.length)
    {shardid : ShardId} (h : shardid ∈ firstMap shardidList) :
    shardid ∈ shardidList := by
  rw [firstMap, mem_map] at h
  obtain ⟨i, _, rfl⟩ := h
  rw [getD_eq_getElem?_getD, getElem?_eq_getElem (mod_lt i hne)]
  exact getElem_mem _

namespace SoundStrategy

variable {shardCfg : ShardingConfig}

theorem length_init (hmany : ¬ shardCfg.shardidList.length ≤ 1) :
    (init none shardCfg).1.savedShardingMap.length = MAX_MAP_SIZE := by
  rw [init, if_neg hmany, length_firstMap]

theorem mem_config_init (hmany : ¬ shardCfg.shardidList.length ≤ 1) {shardid : ShardId}
    (h : shardid ∈ (init none shardCfg).1.savedShardingMap) :
    shardid ∈ (init none shardCfg).1.shardCfg.shardidList := by
  have hpos : 0 < shardCfg.shardidList.length := by omega
  rw [init, if_neg hmany] at h ⊢
  dsimp only at h ⊢
  exact mem_of_mem_firstMap hpos h

theorem shardCfg_init (file : Option (List Char)) (shardCfg : ShardingConfig) :
    (init file shardCfg).1.shardCfg = shardCfg := by
  unfold init
  cases file with
  | some _ => rfl
  | none => split_ifs <;> rfl

/-- What `init` makes for a collection on several shards that has no map yet. -/
def fresh (shardCfg : ShardingConfig) (hmany : ¬ shardCfg.shardidList.length ≤ 1)
    (hpos : ∀ shardid ∈ shardCfg.shardidList, 0 < shardid) : SoundStrategy where
  toMapShardingStrategy := (init none shardCfg).1
  length_map := length_init hmany
  mem_config _ := mem_config_init hmany
  pos_config := by
    rw [shardCfg_init]
    exact hpos

theorem savedShardingMap_fresh (shardCfg : ShardingConfig)
    (hmany : ¬ shardCfg.shardidList.length ≤ 1)
    (hpos : ∀ shardid ∈ shardCfg.shardidList, 0 < shardid) :
    (fresh shardCfg hmany hpos).savedShardingMap =
      firstMap shardCfg.shardidList := by
  have hinit : (fresh shardCfg hmany hpos).savedShardingMap =
      (init none shardCfg).1.savedShardingMap := rfl
  rw [hinit, init, if_neg hmany]

variable (strategy : SoundStrategy)

theorem pos_map {shardid : ShardId} (h : shardid ∈ strategy.savedShardingMap) : 0 < shardid :=
  strategy.pos_config shardid (strategy.mem_config shardid h)

theorem map_ne_nil : strategy.savedShardingMap ≠ [] := by
  intro h
  have hlength := strategy.length_map
  rw [h] at hlength
  cases hlength

variable (conv : Conversions) (uid : Bytes)

theorem mapIndex_eq :
    strategy.mapIndex conv uid = (convertUniqueIDForSharding conv uid).toNat % MAX_MAP_SIZE := by
  rw [mapIndex, strategy.length_map]

theorem mapIndex_lt : strategy.mapIndex conv uid < strategy.savedShardingMap.length := by
  rw [mapIndex, strategy.length_map]
  exact mod_lt _ (by decide)

/-- There is a shard for every id. -/
theorem shardingForWriteUid_pos : 0 < strategy.shardingForWriteUid conv uid strategy.shardCfg := by
  unfold shardingForWriteUid
  split_ifs with hone hnil
  · obtain ⟨shardid, hlist⟩ := length_eq_one_iff.mp hone
    rw [hlist, getLastD_cons]
    exact strategy.pos_config shardid (by rw [hlist]; exact mem_singleton_self _)
  · exact absurd hnil strategy.map_ne_nil
  · have hlt := strategy.mapIndex_lt conv uid
    rw [getD_eq_getElem?_getD, getElem?_eq_getElem hlt]
    exact strategy.pos_map (getElem_mem _)

/-- A read with the key asks the one shard that a write goes to. -/
theorem shardingForGet_eq {shardFieldList : ShardFieldList}
    (hkey : strategy.shardCfg.uniqueShardkey ∈ shardFieldList) :
    strategy.shardingForGet conv shardFieldList =
      [strategy.shardingForWrite conv shardFieldList] := by
  obtain ⟨uid, huid⟩ := Finmap.mem_iff.mp hkey
  simp only [shardingForGet, shardingForWrite, huid,
    strategy.shardingForWriteUid_pos conv uid, if_true]

end SoundStrategy

end AdDelivery.Sharding
