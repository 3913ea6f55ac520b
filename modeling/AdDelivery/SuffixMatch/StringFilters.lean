import AdDelivery.Core.Table
import AdDelivery.Core.Vector
import Mathlib.Data.List.GetD

/-!
# String filters of documents

The value of a string filter property may hold several parts, split by commas. Each document is
entered into the lists of the keys found in its value. The split loop keeps the end of the last
part in `nOld`, but never moves it, so that from the second part on the keys begin at the
beginning of the value.
-/

namespace AdDelivery.SuffixMatch

open List Table List

/-- A document as the values of its properties. -/
abbrev FilterDocument (CharT : Type) := String → Option (List CharT)

/-- The members that the string filters are built in: the position in the properties has a map
from keys to documents, and the id of the property a vector of keys. -/
structure StringFilters (CharT : Type) where
  strPropList : List String
  propIdMap : Table String ℕ
  strFilterMap : List (Table (List CharT) (List ℕ))
  strKeySets : List (List (List CharT))

variable {CharT : Type} [DecidableEq CharT] {comma : CharT}

/-- `value.find(comma, n)`. -/
def findFrom (comma : CharT) (value : List CharT) (n : ℕ) : Option ℕ :=
  ((value.drop n).idxOf? comma).map (n + ·)

variable {value : List CharT}

theorem findFrom_eq_some {n m : ℕ} (h : findFrom comma value n = some m) :
    n ≤ m ∧ m < value.length := by
  obtain ⟨i, hi, rfl⟩ := Option.map_eq_some_iff.mp h
  have hlt : i < (value.drop n).length := (idxOf?_eq_some_iff.mp hi).1
  rw [length_drop] at hlt
  omega

theorem findFrom_eq_none (h : comma ∉ value) (n : ℕ) : findFrom comma value n = none := by
  rw [findFrom, Option.map_eq_none_iff, idxOf?_eq_none_iff]
  exact fun hmem => h (mem_of_mem_drop hmem)

/-- The `do` loop: `n` is the place of a comma. -/
def splitLoop (comma : CharT) (value : List CharT) (nOld n : ℕ) : List (List CharT) :=
  (if n ≠ nOld then [(value.drop nOld).take (n - nOld)] else []) ++
    match _hfind : findFrom comma value (n + 1) with
    | some n' => splitLoop comma value nOld n'
    | none => []
termination_by value.length - n
decreasing_by
  obtain ⟨hle, hlt⟩ := findFrom_eq_some _hfind
  omega

/-- The keys of a value, one after another. -/
def subValues (comma : CharT) (value : List CharT) : List (List CharT) :=
  if value = [] then []
  else
    (match findFrom comma value 0 with
      | some n => splitLoop comma value 0 n
      | none => []) ++ [value.drop 0]

theorem subValues_of_notMem (h : comma ∉ value) :
    subValues comma value = if value = [] then [] else [value] := by
  rw [subValues, findFrom_eq_none h]
  rfl

/-- The last key is the whole value. -/
theorem mem_subValues_self (h : value ≠ []) : value ∈ subValues comma value := by
  rw [subValues, if_neg h]
  exact mem_append_right _ (mem_singleton.mpr rfl)

/-- The distinct parts of a value are what the keys should be. -/
def isPart (comma : CharT) (value key : List CharT) : Bool := key ≠ [] ∧ key ∈ value.splitOn comma

theorem notMem_of_mem_splitOn {value part : List CharT} (h : part ∈ value.splitOn comma) :
    comma ∉ part := by
  induction value generalizing part with
  | nil =>
    obtain rfl := mem_singleton.mp h
    exact not_mem_nil
  | cons c value ih =>
    rw [splitOn_cons_eq_if_modifyHead] at h
    split at h
    · rcases mem_cons.mp h with rfl | h
      · exact not_mem_nil
      · exact ih h
    · rename_i hc
      cases hsplit : value.splitOn comma with
      | nil => exact absurd hsplit (splitOn_ne_nil comma value)
      | cons first parts =>
        rw [hsplit] at h ih
        rcases mem_cons.mp h with rfl | h
        · refine not_mem_cons_of_ne_of_not_mem (fun heq => hc ?_) (ih mem_cons_self)
          exact beq_iff_eq.mpr heq.symm
        · exact ih (mem_cons_of_mem first h)

/-- Enter a document under a key, which is new where its list is empty. -/
def StringFilters.addDocId (filters : StringFilters CharT) (i propId docId : ℕ)
    (key : List CharT) : StringFilters CharT :=
  let item := get (filters.strFilterMap.getD i ∅) key
  { filters with
    strFilterMap := filters.strFilterMap.modify i fun items =>
      Finmap.insert key (item ++ [docId]) items
    strKeySets :=
      if item.isEmpty then filters.strKeySets.modify propId (· ++ [key])
      else filters.strKeySets }

/-- The keys of a document for one property. -/
def keysOf (comma : CharT) (doc : FilterDocument CharT) (property : String) : List (List CharT) :=
  match doc property with
  | none => []
  | some value => subValues comma value

def buildStringFiltersForDoc (comma : CharT) (filters : StringFilters CharT) (docId : ℕ)
    (doc : FilterDocument CharT) : StringFilters CharT :=
  filters.strPropList.zipIdx.foldl (fun filters entry => (keysOf comma doc entry.1).foldl
      (fun filters key => filters.addDocId entry.2 (get filters.propIdMap entry.1) docId key)
      filters) filters

/-- All documents, one after another. -/
def buildStringFilters (comma : CharT) (filters : StringFilters CharT)
    (docs : List (ℕ × FilterDocument CharT)) : StringFilters CharT :=
  docs.foldl (fun filters entry => buildStringFiltersForDoc comma filters entry.1 entry.2) filters

/-- The filters before the first document. -/
def StringFilters.fresh (CharT : Type) (strPropList : List String) (propIdMap : Table String ℕ)
    (propCount : ℕ) : StringFilters CharT where
  strPropList := strPropList
  propIdMap := propIdMap
  strFilterMap := replicate strPropList.length ∅
  strKeySets := replicate propCount []

/-- The documents in the list of a key. -/
def StringFilters.docList (filters : StringFilters CharT) (i : ℕ) (key : List CharT) : List ℕ :=
  get (filters.strFilterMap.getD i ∅) key

namespace StringFilters

variable {filters : StringFilters CharT} {i : ℕ}

/-- The properties are those of the filters, and each of them has its map. -/
structure Fits (strPropList : List String) (filters : StringFilters CharT) : Prop where
  strPropList_eq : filters.strPropList = strPropList
  length_eq : filters.strFilterMap.length = strPropList.length

theorem docList_addDocId (hi : i < filters.strFilterMap.length) (j propId docId : ℕ)
    (key key' : List CharT) : (filters.addDocId j propId docId key).docList i key' =
      filters.docList i key' ++ if j = i ∧ key' = key then [docId] else [] := by
  have hmap : filters.strFilterMap.getD i ∅ = filters.strFilterMap[i] := by
    rw [getD_eq_getElem?_getD, getElem?_eq_getElem hi, Option.getD_some]
  have hmodify : (filters.addDocId j propId docId key).strFilterMap.getD i ∅ =
      if j = i then Finmap.insert key (filters.docList j key ++ [docId]) filters.strFilterMap[i]
      else filters.strFilterMap[i] := by
    rw [addDocId, getD_eq_getElem?_getD, getElem?_modify, getElem?_eq_getElem hi]
    split <;> rfl
  rw [docList, hmodify]
  split
  · rename_i hj
    subst hj
    by_cases hkey : key' = key
    · rw [if_pos ⟨rfl, hkey⟩, hkey, Table.get, Finmap.lookup_insert, Option.getD_some]
    · rw [if_neg fun h => hkey h.2, append_nil, Table.get,
        Finmap.lookup_insert_of_ne _ hkey, docList, hmap, Table.get]
  · rename_i hj
    rw [if_neg fun h => hj h.1, append_nil, docList, hmap]

variable {strPropList : List String}

theorem Fits.addDocId (h : Fits strPropList filters) (j propId docId : ℕ) (key : List CharT) :
    Fits strPropList (filters.addDocId j propId docId key) :=
  ⟨h.strPropList_eq, (length_modify ..).trans h.length_eq⟩

theorem length_strKeySets_addDocId (filters : StringFilters CharT) (j propId docId : ℕ)
    (key : List CharT) :
    (filters.addDocId j propId docId key).strKeySets.length = filters.strKeySets.length := by
  simp only [addDocId]
  split
  · exact length_modify ..
  · rfl

/-- A document is entered under a key as often as the key occurs. -/
theorem docList_foldl_addDocId (h : Fits strPropList filters) (hi : i < strPropList.length)
    (j docId : ℕ) (propId : StringFilters CharT → ℕ) (keys : List (List CharT))
    (key' : List CharT) : Fits strPropList (keys.foldl (fun filters key =>
        filters.addDocId j (propId filters) docId key) filters) ∧
      (keys.foldl (fun filters key => filters.addDocId j (propId filters) docId key)
        filters).docList i key' = filters.docList i key' ++
        if j = i then replicate (keys.count key') docId else [] := by
  induction keys generalizing filters with
  | nil => exact ⟨h, by simp⟩
  | cons key keys ih =>
    obtain ⟨hfits, hlist⟩ := ih (h.addDocId j (propId filters) docId key)
    refine ⟨hfits, ?_⟩
    rw [foldl_cons, hlist, docList_addDocId (h.length_eq ▸ hi), append_assoc]
    by_cases hj : j = i
    · by_cases hkey : key' = key
      · rw [if_pos ⟨hj, hkey⟩, if_pos hj, if_pos hj, hkey, count_cons_self]
        rfl
      · rw [if_neg fun hand => hkey hand.2, if_pos hj, if_pos hj,
          count_cons_of_ne (Ne.symm hkey), nil_append]
    · rw [if_neg fun hand => hj hand.1, if_neg hj, if_neg hj, nil_append]

end StringFilters

open StringFilters

theorem fits_fresh (CharT : Type) (strPropList : List String) (propIdMap : Table String ℕ)
    (propCount : ℕ) : Fits strPropList
      (fresh CharT strPropList propIdMap propCount) :=
  ⟨rfl, length_replicate⟩

omit [DecidableEq CharT] in
theorem strFilterMap_fresh (strPropList : List String) (propIdMap : Table String ℕ)
    (propCount i : ℕ) :
    (fresh CharT strPropList propIdMap propCount).strFilterMap.getD i ∅ = ∅ := by
  rw [getD_eq_getElem?_getD, fresh, getElem?_replicate]
  split <;> rfl

theorem docList_fresh (strPropList : List String) (propIdMap : Table String ℕ) (propCount i : ℕ)
    (key : List CharT) :
    (fresh CharT strPropList propIdMap propCount).docList i key = [] := by
  rw [docList, strFilterMap_fresh]
  rfl

/-- Of a list of properties one position is read. -/
theorem flatMap_zipIdx {α β : Type*} (g : α → List β) (l : List α) (i base : ℕ) :
    ((l.zipIdx base).flatMap fun entry => if entry.2 = base + i then g entry.1 else []) =
      (l[i]?.map g).getD [] := by
  induction l generalizing i base with
  | nil => rfl
  | cons a l ih =>
    rw [zipIdx_cons, flatMap_cons]
    cases i with
    | zero =>
      have hrest : ((l.zipIdx (base + 1)).flatMap fun entry =>
          if entry.2 = base + 0 then g entry.1 else []) = [] := by
        rw [flatMap_eq_nil_iff]
        intro entry hentry
        have hle := le_snd_of_mem_zipIdx hentry
        exact if_neg (by omega)
      rw [hrest, if_pos (Nat.add_zero base).symm, append_nil]
      rfl
    | succ i =>
      rw [if_neg (by omega), nil_append, getElem?_cons_succ, ← ih i (base + 1)]
      congr
      rw [show base + (i + 1) = base + 1 + i by omega]

section Documents

variable {strPropList : List String} {filters : StringFilters CharT} {i : ℕ} {property : String}

section

variable (comma : CharT) (h : Fits strPropList filters)
include h

theorem foldl_properties (hi : i < strPropList.length) (docId : ℕ) (doc : FilterDocument CharT)
    (entries : List (String × ℕ)) (key : List CharT) :
    Fits strPropList (entries.foldl (fun filters entry =>
        (keysOf comma doc entry.1).foldl (fun filters key =>
            filters.addDocId entry.2 (get filters.propIdMap entry.1) docId key) filters) filters) ∧
      (entries.foldl (fun filters entry => (keysOf comma doc entry.1).foldl (fun filters key =>
            filters.addDocId entry.2 (get filters.propIdMap entry.1) docId key)
          filters) filters).docList i key = filters.docList i key ++ entries.flatMap fun entry =>
        if entry.2 = i then replicate ((keysOf comma doc entry.1).count key) docId
        else [] := by
  induction entries generalizing filters with
  | nil => exact ⟨h, by simp⟩
  | cons entry entries ih =>
    obtain ⟨hfits, hlist⟩ := docList_foldl_addDocId h hi entry.2 docId
      (fun filters => get filters.propIdMap entry.1) (keysOf comma doc entry.1) key
    obtain ⟨hfits', hlist'⟩ := ih hfits
    refine ⟨hfits', ?_⟩
    rw [foldl_cons, hlist', hlist, flatMap_cons, append_assoc]

/-- The document is entered under each key as often as its value has the key. -/
theorem docList_buildStringFiltersForDoc (hproperty : strPropList[i]? = some property) (docId : ℕ)
    (doc : FilterDocument CharT) (key : List CharT) :
    Fits strPropList (buildStringFiltersForDoc comma filters docId doc) ∧
      (buildStringFiltersForDoc comma filters docId doc).docList i key =
        filters.docList i key ++ List.replicate ((keysOf comma doc property).count key) docId := by
  have hi : i < strPropList.length := (List.getElem?_eq_some_iff.mp hproperty).1
  obtain ⟨hfits, hlist⟩ := foldl_properties comma h hi docId doc strPropList.zipIdx key
  have hflat := flatMap_zipIdx
    (fun property => replicate ((keysOf comma doc property).count key) docId) strPropList i 0
  simp only [Nat.zero_add] at hflat
  rw [hflat, hproperty] at hlist
  rw [buildStringFiltersForDoc, h.strPropList_eq]
  exact ⟨hfits, hlist⟩

theorem docList_buildStringFilters (hproperty : strPropList[i]? = some property)
    (docs : List (ℕ × FilterDocument CharT)) (key : List CharT) :
    Fits strPropList (buildStringFilters comma filters docs) ∧
      (buildStringFilters comma filters docs).docList i key =
        filters.docList i key ++ docs.flatMap fun entry =>
          replicate ((keysOf comma entry.2 property).count key) entry.1 := by
  induction docs generalizing filters with
  | nil => exact ⟨h, by simp [buildStringFilters]⟩
  | cons entry docs ih =>
    obtain ⟨hfits, hlist⟩ :=
      docList_buildStringFiltersForDoc comma h hproperty entry.1 entry.2 key
    obtain ⟨hfits', hlist'⟩ := ih hfits
    refine ⟨hfits', ?_⟩
    rw [flatMap_cons, ← append_assoc, ← hlist]
    exact hlist'

end

end Documents

/-- The vector of a property has each key of its map once, and no list is empty. -/
structure KeysListed (strPropList : List String) (propIdMap : Table String ℕ) (i : ℕ)
    (property : String) (filters : StringFilters CharT) : Prop where
  strPropList_eq : filters.strPropList = strPropList
  propIdMap_eq : filters.propIdMap = propIdMap
  inRange : get propIdMap property < filters.strKeySets.length
  hasMap : i < filters.strFilterMap.length
  nodup : (filters.strKeySets.getD (get propIdMap property) []).Nodup
  mem_iff : ∀ key, key ∈ filters.strKeySets.getD (get propIdMap property) [] ↔
    key ∈ filters.strFilterMap.getD i ∅
  nonempty : ∀ key, key ∈ filters.strFilterMap.getD i ∅ ↔ filters.docList i key ≠ []

namespace KeysListed

variable {strPropList : List String} {propIdMap : Table String ℕ} {filters : StringFilters CharT}
  {i : ℕ} {property : String}

section

variable (h : KeysListed strPropList propIdMap i property filters)
include h

/-- A key goes to the vector when it goes to the map. -/
theorem addDocId_self (docId : ℕ) (key : List CharT) : KeysListed strPropList propIdMap i property
      (filters.addDocId i (Table.get propIdMap property) docId key) := by
  have hmap : (filters.addDocId i (Table.get propIdMap property) docId key).strFilterMap.getD i ∅ =
      Finmap.insert key (filters.docList i key ++ [docId]) (filters.strFilterMap.getD i ∅) := by
    rw [addDocId, getD_modify _ _ _ _ _ h.hasMap, if_pos rfl]
    rfl
  have hkeys : (filters.addDocId i (Table.get propIdMap property) docId key).strKeySets.getD
      (Table.get propIdMap property) [] =
        filters.strKeySets.getD (Table.get propIdMap property) [] ++
          if key ∈ filters.strFilterMap.getD i ∅ then [] else [key] := by
    have hempty : (Table.get (filters.strFilterMap.getD i ∅) key).isEmpty = true ↔
        key ∉ filters.strFilterMap.getD i ∅ := by
      rw [h.nonempty key, not_not, List.isEmpty_iff]
      rfl
    simp only [addDocId, hempty]
    by_cases hmem : key ∈ filters.strFilterMap.getD i ∅
    · rw [if_neg (not_not.mpr hmem), if_pos hmem, append_nil]
    · rw [if_pos hmem, if_neg hmem, getD_modify _ _ _ _ _ h.inRange, if_pos rfl]
  refine ⟨h.strPropList_eq, h.propIdMap_eq,
    (filters.length_strKeySets_addDocId i _ docId key).symm ▸ h.inRange,
    (length_modify ..).trans_gt h.hasMap, ?_, fun key' => ?_, fun key' => ?_⟩
  · rw [hkeys]
    split
    · rw [append_nil]
      exact h.nodup
    · rename_i hnew
      refine nodup_append.mpr ⟨h.nodup, nodup_singleton key, fun a ha b hb heq => hnew ?_⟩
      rw [← h.mem_iff key, ← mem_singleton.mp hb, ← heq]
      exact ha
  · rw [hkeys, hmap, mem_append, Finmap.mem_insert, h.mem_iff key']
    split
    · rename_i hmem
      simp only [not_mem_nil, or_false]
      exact ⟨.inr, fun hor => hor.elim (fun heq => heq ▸ hmem) id⟩
    · rw [mem_singleton, or_comm]
  · rw [hmap, Finmap.mem_insert, docList_addDocId h.hasMap, h.nonempty key']
    by_cases hkey : key' = key
    · simp [hkey]
    · simp [hkey]

/-- Another property has another map and another vector. -/
theorem addDocId_other {j propId : ℕ} (hj : j ≠ i)
    (hpropId : propId ≠ get propIdMap property) (docId : ℕ) (key : List CharT) :
    KeysListed strPropList propIdMap i property (filters.addDocId j propId docId key) := by
  have hmap : (filters.addDocId j propId docId key).strFilterMap.getD i ∅ =
      filters.strFilterMap.getD i ∅ := by
    rw [addDocId, getD_modify_of_ne hj]
  have hkeys : (filters.addDocId j propId docId key).strKeySets.getD
      (get propIdMap property) [] =
        filters.strKeySets.getD (get propIdMap property) [] := by
    simp only [addDocId]
    split
    · exact getD_modify_of_ne hpropId _ _ _
    · rfl
  refine ⟨h.strPropList_eq, h.propIdMap_eq,
    (filters.length_strKeySets_addDocId j propId docId key).symm ▸ h.inRange,
    (length_modify ..).trans_gt h.hasMap, ?_, fun key' => ?_, fun key' => ?_⟩
  · rw [hkeys]
    exact h.nodup
  · rw [hkeys, hmap]
    exact h.mem_iff key'
  · rw [hmap, docList_addDocId h.hasMap, if_neg fun hand => hj hand.1, append_nil]
    exact h.nonempty key'

/-- No two properties of the list share a vector. -/
theorem addDocId (hids : (strPropList.map (get propIdMap)).Nodup)
    (hproperty : strPropList[i]? = some property) {entry : String × ℕ}
    (hentry : strPropList[entry.2]? = some entry.1) (docId : ℕ) (key : List CharT) :
    KeysListed strPropList propIdMap i property
      (filters.addDocId entry.2 (get filters.propIdMap entry.1) docId key) := by
  rw [h.propIdMap_eq]
  by_cases hj : entry.2 = i
  · obtain rfl : entry.1 = property := by
      rw [hj, hproperty] at hentry
      exact (Option.some.inj hentry).symm
    rw [hj]
    exact h.addDocId_self docId key
  · refine h.addDocId_other hj (fun heq => hj ?_) docId key
    have hmap (k : ℕ) (p : String) (hp : strPropList[k]? = some p) :
        (strPropList.map (get propIdMap))[k]? = some (get propIdMap p) := by
      rw [getElem?_map, hp, Option.map_some]
    have hlt : entry.2 < (strPropList.map (Table.get propIdMap)).length :=
      (List.getElem?_eq_some_iff.mp (hmap _ _ hentry)).1
    exact (getElem?_inj hlt hids).mp (by rw [hmap _ _ hentry, hmap _ _ hproperty, heq])

end

end KeysListed

/-- The whole build keeps each vector in step with its map. -/
theorem keysListed_buildStringFilters {strPropList : List String} {propIdMap : Table String ℕ}
    {propCount i : ℕ} {property : String} (hids : (strPropList.map (get propIdMap)).Nodup)
    (hproperty : strPropList[i]? = some property)
    (hcount : get propIdMap property < propCount) (comma : CharT)
    (docs : List (ℕ × FilterDocument CharT)) : KeysListed strPropList propIdMap i property
      (buildStringFilters comma (.fresh CharT strPropList propIdMap propCount) docs) := by
  have hfresh : KeysListed strPropList propIdMap i property
      (.fresh CharT strPropList propIdMap propCount) := by
    have hi : i < strPropList.length := (List.getElem?_eq_some_iff.mp hproperty).1
    have hkeys : (fresh CharT strPropList propIdMap propCount).strKeySets.getD
        (Table.get propIdMap property) [] = [] := by
      simp [fresh, getD_eq_getElem?_getD, hcount]
    refine ⟨rfl, rfl, ?_, ?_, ?_, fun key => ?_, fun key => ?_⟩
    · exact hcount.trans_eq length_replicate.symm
    · exact hi.trans_eq length_replicate.symm
    · rw [hkeys]
      exact nodup_nil
    · rw [hkeys, strFilterMap_fresh]
      exact iff_of_false not_mem_nil (Finmap.notMem_empty)
    · rw [strFilterMap_fresh, docList_fresh]
      exact iff_of_false (Finmap.notMem_empty) fun hne => hne rfl
  refine foldlRecOn (motive := KeysListed strPropList propIdMap i property) docs _ hfresh
    fun filters hfilters doc _ => ?_
  -- one document, property by property
  rw [buildStringFiltersForDoc, hfilters.strPropList_eq]
  refine foldlRecOn (motive := KeysListed strPropList propIdMap i property)
    strPropList.zipIdx _ hfilters fun filters hfilters entry hentry => ?_
  have hat : strPropList[entry.2]? = some entry.1 := mem_zipIdx_iff_getElem?.mp hentry
  refine foldlRecOn (motive := KeysListed strPropList propIdMap i property)
    (keysOf comma doc.2 entry.1) _ hfilters fun filters hfilters key _ => ?_
  exact hfilters.addDocId hids hproperty hat doc.1 key

def hasPart (comma : CharT) (property : String) (key : List CharT)
    (doc : FilterDocument CharT) : Bool :=
  match doc property with
  | none => false
  | some value => isPart comma value key

/-- Each document is entered once under each part of its value and under no other key, and in the
end the list of a key is the increasing list of the documents with that part. -/
structure FiltersExact (comma : CharT) (filters : StringFilters CharT) (i : ℕ) (property : String)
    (docs : List (ℕ × FilterDocument CharT)) : Prop where
  step : ∀ before entry after, docs = before ++ entry :: after → ∀ key,
    (buildStringFilters comma filters (before ++ [entry])).docList i key =
      (buildStringFilters comma filters before).docList i key ++
        if hasPart comma property key entry.2 then [entry.1] else []
  lists : ∀ key, (buildStringFilters comma filters docs).docList i key =
    (docs.filter fun entry => hasPart comma property key entry.2).map Prod.fst
  increasing : ∀ key, ((buildStringFilters comma filters docs).docList i key).Pairwise (· < ·)

theorem isPart_of_notMem (h : comma ∉ value) (key : List CharT) :
    isPart comma value key = decide (key ≠ [] ∧ key = value) := by
  refine decide_eq_decide.mpr ?_
  rw [splitOn_eq_singleton h, mem_singleton]

/-- Without a comma the whole value is the only part and the only key. -/
theorem replicate_count_keysOf {doc : FilterDocument CharT} {property : String}
    (h : ∀ value, doc property = some value → comma ∉ value) (docId : ℕ) (key : List CharT) :
    replicate ((keysOf comma doc property).count key) docId =
      if hasPart comma property key doc then [docId] else [] := by
  cases hvalue : doc property with
  | none => simp [keysOf, hasPart, hvalue]
  | some value =>
    have hcomma := h value hvalue
    have hkeys : keysOf comma doc property = if value = [] then [] else [value] := by
      rw [keysOf, hvalue]
      exact subValues_of_notMem hcomma
    have hpart : hasPart comma property key doc = decide (key ≠ [] ∧ key = value) := by
      rw [hasPart, hvalue]
      exact isPart_of_notMem hcomma key
    rw [hkeys, hpart]
    by_cases hnil : value = []
    · simp [hnil]
    · by_cases hkey : key = value
      · simp [hnil, hkey]
      · simp [hnil, hkey, Ne.symm hkey]

section Exactness

variable {strPropList : List String} {propIdMap : Table String ℕ} {propCount i : ℕ}
  {property : String} {docs : List (ℕ × FilterDocument CharT)}

/-- A value with a comma is a key itself, but no part. -/
theorem FiltersExact.notMem
    (h : FiltersExact comma (.fresh CharT strPropList propIdMap propCount) i property docs)
    (hproperty : strPropList[i]? = some property) {entry : ℕ × FilterDocument CharT}
    (hentry : entry ∈ docs) {value : List CharT} (hvalue : entry.2 property = some value) :
    comma ∉ value := by
  intro hcomma
  have hfits := fits_fresh CharT strPropList propIdMap propCount
  have hlist := (docList_buildStringFilters comma hfits hproperty docs value).2
  rw [h.lists value, docList_fresh, nil_append] at hlist
  have hkey : value ∈ keysOf comma entry.2 property := by
    rw [keysOf, hvalue]
    exact mem_subValues_self (ne_nil_of_mem hcomma)
  have hmem : entry.1 ∈ docs.flatMap fun entry =>
      replicate ((keysOf comma entry.2 property).count value) entry.1 := by
    refine mem_flatMap.mpr ⟨entry, hentry, mem_replicate.mpr ⟨?_, rfl⟩⟩
    exact (count_pos_iff.mpr hkey).ne'
  rw [← hlist] at hmem
  obtain ⟨other, hother, -⟩ := mem_map.mp hmem
  have hpart := (mem_filter.mp hother).2
  unfold hasPart at hpart
  split at hpart
  · exact Bool.false_ne_true hpart
  · exact notMem_of_mem_splitOn (of_decide_eq_true hpart).2 hcomma

theorem filtersExact_of_notMem (hproperty : strPropList[i]? = some property)
    (hinc : docs.Pairwise fun a b => a.1 < b.1)
    (h : ∀ entry ∈ docs, ∀ value, entry.2 property = some value → comma ∉ value) :
    FiltersExact comma (.fresh CharT strPropList propIdMap propCount) i property docs := by
  have hfresh := fits_fresh CharT strPropList propIdMap propCount
  have hlists : ∀ key, (buildStringFilters comma
      (.fresh CharT strPropList propIdMap propCount) docs).docList i key =
        (docs.filter fun entry => hasPart comma property key entry.2).map Prod.fst := by
    intro key
    rw [(docList_buildStringFilters comma hfresh hproperty docs key).2, docList_fresh, nil_append]
    induction docs with
    | nil => rfl
    | cons entry docs ih =>
      obtain ⟨hentry, hdocs⟩ := forall_mem_cons.mp h
      rw [flatMap_cons, ih (pairwise_cons.mp hinc).2 hdocs,
        replicate_count_keysOf hentry, filter_cons]
      split <;> rfl
  refine ⟨fun before entry after hdocs key => ?_, hlists, fun key => ?_⟩
  · have hfits := (docList_buildStringFilters comma hfresh hproperty before key).1
    have hstep := (docList_buildStringFiltersForDoc comma hfits hproperty entry.1 entry.2 key).2
    rw [replicate_count_keysOf (h entry (hdocs ▸ mem_append_right before mem_cons_self))] at hstep
    rw [← hstep, buildStringFilters, foldl_append]
    rfl
  · rw [hlists key]
    exact List.Pairwise.map _ (fun a b hab => hab) (hinc.filter _)

/-- The lists are exact as long as no value has a comma. -/
theorem filtersExact_iff (hproperty : strPropList[i]? = some property)
    (hinc : docs.Pairwise fun a b => a.1 < b.1) :
    FiltersExact comma (.fresh CharT strPropList propIdMap propCount) i property docs ↔
      ∀ entry ∈ docs, ∀ value, entry.2 property = some value → comma ∉ value :=
  ⟨fun h _ hentry _ => h.notMem hproperty hentry, filtersExact_of_notMem hproperty hinc⟩

end Exactness

/-- A document with one property. -/
def brandOnly (value : String) : FilterDocument Char :=
  fun property => if property = "Brand" then some value.toList else none

theorem keysOf_brandOnly {value : String} (hcomma : ',' ∉ value.toList)
    (hvalue : value.toList ≠ []) : keysOf ',' (brandOnly value) "Brand" = [value.toList] :=
  (subValues_of_notMem hcomma).trans (if_neg hvalue)

theorem filtersExact_iff_brands : FiltersExact ',' (.fresh Char ["Brand"] ∅ 1) 0 "Brand"
        [(1, brandOnly "a"), (2, brandOnly "b")] ↔
      ∀ entry ∈ [(1, brandOnly "a"), (2, brandOnly "b")], ∀ value,
        entry.2 "Brand" = some value → ',' ∉ value :=
  filtersExact_iff rfl (by simp)

/-- The keys of `a,b` are `a` and `a,b`: the document is not found under `b`. -/
theorem not_filtersExact_twoBrands :
    ¬FiltersExact ',' (.fresh Char ["Brand"] ∅ 1) 0 "Brand" [(1, brandOnly "a,b")] := by
  intro h
  have hvalue : brandOnly "a,b" "Brand" = some "a,b".toList := rfl
  exact h.notMem rfl mem_cons_self hvalue (by decide)

end AdDelivery.SuffixMatch
