import AdDelivery.SuffixMatch.FilterIds
import AdDelivery.SuffixMatch.StringFilters

/-!
# The end of the string filter build

After the last document the lists lose the deleted documents, and a key that has no other document
leaves its map. It stays in the vector of keys, which is sorted. The keys that are left in the map
get their ids.
-/

namespace AdDelivery.SuffixMatch

open List Finmap Table Option

section Deleted

variable {κ : Type} [LinearOrder κ]

/-- One entry loses its deleted documents, and is erased if it has no other. -/
def eraseFromEntry (isDeleted : ℕ → Bool) (strFilterMap : Table κ (List ℕ))
    (entry : κ × List ℕ) : Table κ (List ℕ) :=
  let docs := entry.2.filter fun docId => !isDeleted docId
  if docs.isEmpty then erase entry.1 strFilterMap
  else insert entry.1 docs strFilterMap

/-- The first loop, for one map. -/
def eraseDeleted (isDeleted : ℕ → Bool) (strFilterMap : Table κ (List ℕ)) : Table κ (List ℕ) :=
  strFilterMap.inOrder.foldl (eraseFromEntry isDeleted) strFilterMap

/-- The documents of a key that are not deleted. -/
def liveDocs (isDeleted : ℕ → Bool) (strFilterMap : Table κ (List ℕ)) (key : κ) : List ℕ :=
  (get strFilterMap key).filter fun docId => !isDeleted docId

variable (isDeleted : ℕ → Bool) {m : Table κ (List ℕ)}

theorem liveDocs_of_notMem {key : κ} (h : key ∉ m) : liveDocs isDeleted m key = [] := by
  rw [liveDocs, get_eq_default h]
  rfl

theorem lookup_foldl_eraseFromEntry {entries : List (κ × List ℕ)}
    (hkeys : (entries.map Prod.fst).Nodup) (m : Table κ (List ℕ)) (key : κ) :
    (∀ docs, (key, docs) ∈ entries → (entries.foldl (eraseFromEntry isDeleted) m).lookup key =
        if docs.filter (fun docId => !isDeleted docId) = [] then none
        else some (docs.filter fun docId => !isDeleted docId)) ∧ (key ∉ entries.map Prod.fst →
        (entries.foldl (eraseFromEntry isDeleted) m).lookup key = m.lookup key) := by
  induction entries generalizing m with
  | nil => exact ⟨nofun, fun _ => rfl⟩
  | cons entry entries ih =>
    obtain ⟨hnew, hnodup⟩ := nodup_cons.mp hkeys
    obtain ⟨hfound, habsent⟩ := ih hnodup (eraseFromEntry isDeleted m entry)
    refine ⟨fun docs hdocs => ?_, fun hkey => ?_⟩
    · rcases mem_cons.mp hdocs with rfl | hdocs
      · rw [foldl_cons, habsent hnew, eraseFromEntry]
        by_cases hempty : docs.filter (fun docId => !isDeleted docId) = []
        · simp only [hempty, isEmpty_nil, if_true, lookup_erase]
        · simp only [List.isEmpty_iff, hempty, if_false, lookup_insert]
      · exact hfound docs hdocs
    · rw [map_cons, mem_cons, not_or] at hkey
      rw [foldl_cons, habsent hkey.2, eraseFromEntry]
      split
      · exact lookup_erase_ne hkey.1
      · exact lookup_insert_of_ne m hkey.1

/-- A key is left if it has a document, and then with all that are not deleted. -/
theorem lookup_eraseDeleted (m : Table κ (List ℕ)) (key : κ) :
    (eraseDeleted isDeleted m).lookup key =
      if liveDocs isDeleted m key = [] then none else some (liveDocs isDeleted m key) := by
  obtain ⟨hfound, habsent⟩ :=
    lookup_foldl_eraseFromEntry isDeleted m.pairwise_inOrder.nodup m key
  cases hlookup : m.lookup key with
  | some docs =>
    have hdocs : Table.get m key = docs := by rw [Table.get, hlookup, Option.getD_some]
    rw [liveDocs, hdocs]
    exact hfound docs (Table.mem_inOrder.mpr hlookup)
  | none =>
    have hkey : key ∉ m := lookup_eq_none.mp hlookup
    rw [if_pos (liveDocs_of_notMem isDeleted hkey), ← hlookup]
    exact habsent fun hmem => hkey (mem_map_inOrder.mp hmem)

theorem mem_eraseDeleted {isDeleted : ℕ → Bool} {key : κ} :
    key ∈ eraseDeleted isDeleted m ↔ liveDocs isDeleted m key ≠ [] := by
  rw [← lookup_isSome, lookup_eraseDeleted]
  split
  · rename_i hempty
    exact iff_of_false Bool.noConfusion (not_not.mpr hempty)
  · rename_i hlive
    exact iff_of_true rfl hlive

theorem get_eraseDeleted (m : Table κ (List ℕ)) :
    Table.get (eraseDeleted isDeleted m) = liveDocs isDeleted m := by
  funext key
  rw [Table.get, lookup_eraseDeleted]
  split
  · rename_i hempty
    exact hempty.symm
  · rfl

end Deleted

variable {CharT : Type} [LinearOrder CharT]

/-- The keys of a property are sorted and its lists get their ids. -/
def finishProperty (propIdMap : Table String ℕ)
    (strFilterMap : List (Table (List CharT) (List ℕ))) (built : BuiltFilters (List CharT))
    (entry : String × ℕ) : BuiltFilters (List CharT) :=
  let propId := get propIdMap entry.1
  let mapped := mapAttrFilterToFilterId (strFilterMap.getD entry.2 ∅)
    (built.manager.strFilterIds.getD propId ∅) (built.filterList.getD propId [])
  { manager :=
      { built.manager with
        strKeySets := built.manager.strKeySets.modify propId (List.insertionSort (· ≤ ·))
        strFilterIds := built.manager.strFilterIds.set propId mapped.1 }
    filterList := built.filterList.set propId mapped.2 }

/-- The maps are given up in the end. -/
def finishBuildStringFilters (isDeleted : ℕ → Bool) (filters : StringFilters CharT)
    (built : BuiltFilters (List CharT)) : BuiltFilters (List CharT) :=
  filters.strPropList.zipIdx.foldl
    (finishProperty filters.propIdMap (filters.strFilterMap.map (eraseDeleted isDeleted)))
    { built with manager := { built.manager with strKeySets := filters.strKeySets } }

section Finish

variable {propIdMap : Table String ℕ} {strFilterMap : List (Table (List CharT) (List ℕ))}
  {entries : List (String × ℕ)}

/-- The properties have positions of their own, and each is finished at its position. -/
theorem foldl_finishProperty_of_notMem {propId : ℕ}
    (hid : propId ∉ entries.map fun entry => get propIdMap entry.1)
    (built : BuiltFilters (List CharT)) :
    (entries.foldl (finishProperty propIdMap strFilterMap) built).manager.strKeySets[propId]? =
        built.manager.strKeySets[propId]? ∧
      (entries.foldl (finishProperty propIdMap strFilterMap) built).manager.strFilterIds[propId]? =
        built.manager.strFilterIds[propId]? ∧
      (entries.foldl (finishProperty propIdMap strFilterMap) built).filterList[propId]? =
        built.filterList[propId]? := by
  induction entries generalizing built with
  | nil => exact ⟨rfl, rfl, rfl⟩
  | cons entry entries ih =>
    rw [map_cons, mem_cons, not_or] at hid
    obtain ⟨hkeys, hids, hlists⟩ := ih hid.2 (finishProperty propIdMap strFilterMap built entry)
    rw [foldl_cons, hkeys, hids, hlists]
    exact ⟨getElem?_modify_ne _ _ (Ne.symm hid.1), getElem?_set_ne (Ne.symm hid.1),
      getElem?_set_ne (Ne.symm hid.1)⟩

variable {entry : String × ℕ} {built : BuiltFilters (List CharT)} {keys : List (List CharT)}
  {ids : Table (List CharT) FilterIdRange} {lists : List (List ℕ)}

/-- The keys, ids and lists of a property that is finished. -/
structure Finished (strFilterMap : Table (List CharT) (List ℕ)) (keys : List (List CharT))
    (ids : Table (List CharT) FilterIdRange) (lists : List (List ℕ)) (propId : ℕ)
    (built : BuiltFilters (List CharT)) : Prop where
  keys_eq : built.manager.strKeySets[propId]? = some (keys.insertionSort (· ≤ ·))
  ids_eq : built.manager.strFilterIds[propId]? =
    some (mapAttrFilterToFilterId strFilterMap ids lists).1
  lists_eq : built.filterList[propId]? = some (mapAttrFilterToFilterId strFilterMap ids lists).2

theorem finished_finishProperty
    (hkeys : built.manager.strKeySets[get propIdMap entry.1]? = some keys)
    (hids : built.manager.strFilterIds[get propIdMap entry.1]? = some ids)
    (hlists : built.filterList[get propIdMap entry.1]? = some lists) :
    Finished (strFilterMap.getD entry.2 ∅) keys ids lists (get propIdMap entry.1)
      (finishProperty propIdMap strFilterMap built entry) := by
  have hids' : built.manager.strFilterIds.getD (get propIdMap entry.1) ∅ = ids := by
    rw [getD_eq_getElem?_getD, hids, getD_some]
  have hlists' : built.filterList.getD (get propIdMap entry.1) [] = lists := by
    rw [getD_eq_getElem?_getD, hlists, getD_some]
  refine ⟨?_, ?_, ?_⟩
  · simp only [finishProperty, getElem?_modify_eq, hkeys]
    rfl
  · simp only [finishProperty, getElem?_set_self', hids, hids', hlists']
    rfl
  · simp only [finishProperty, getElem?_set_self', hlists, hids', hlists']
    rfl

theorem foldl_finishProperty (hnodup : (entries.map fun entry => get propIdMap entry.1).Nodup)
    (hentry : entry ∈ entries)
    (hkeys : built.manager.strKeySets[get propIdMap entry.1]? = some keys)
    (hids : built.manager.strFilterIds[get propIdMap entry.1]? = some ids)
    (hlists : built.filterList[get propIdMap entry.1]? = some lists) :
    Finished (strFilterMap.getD entry.2 ∅) keys ids lists (get propIdMap entry.1)
      (entries.foldl (finishProperty propIdMap strFilterMap) built) := by
  induction entries generalizing built with
  | nil => cases hentry
  | cons first entries ih =>
    obtain ⟨hnew, hrest⟩ := nodup_cons.mp hnodup
    rcases mem_cons.mp hentry with rfl | hentry
    · have hfinished : Finished (strFilterMap.getD entry.2 ∅) keys ids lists
          (get propIdMap entry.1) (finishProperty propIdMap strFilterMap built entry) :=
        finished_finishProperty hkeys hids hlists
      obtain ⟨hkeys', hids', hlists'⟩ := foldl_finishProperty_of_notMem hnew
        (finishProperty propIdMap strFilterMap built entry)
      exact ⟨hkeys'.trans hfinished.keys_eq, hids'.trans hfinished.ids_eq,
        hlists'.trans hfinished.lists_eq⟩
    · have hne : get propIdMap first.1 ≠ get propIdMap entry.1 := by
        intro heq
        exact hnew (mem_map.mpr ⟨entry, hentry, heq.symm⟩)
      refine ih hrest hentry ?_ ?_ ?_
      · rw [finishProperty, getElem?_modify_ne _ _ hne, hkeys]
      · rw [finishProperty, getElem?_set_ne hne, hids]
      · rw [finishProperty, getElem?_set_ne hne, hlists]

/-- Before the end of the build: the property has a map and a position of its own, where the keys of
the map are listed once each and no ids were given yet. -/
structure Unfinished (filters : StringFilters CharT) (built : BuiltFilters (List CharT)) (i : ℕ)
    (property : String) : Prop where
  property_eq : filters.strPropList[i]? = some property
  ids_nodup : (filters.strPropList.map (get filters.propIdMap)).Nodup
  hasMap : i < filters.strFilterMap.length
  inRange : get filters.propIdMap property < filters.strKeySets.length
  keys_nodup : (filters.strKeySets.getD (get filters.propIdMap property) []).Nodup
  mem_iff : ∀ key, key ∈ filters.strKeySets.getD (get filters.propIdMap property) [] ↔
    key ∈ filters.strFilterMap.getD i ∅
  ids_empty : built.manager.strFilterIds[get filters.propIdMap property]? = some ∅
  hasLists : get filters.propIdMap property < built.filterList.length

variable {filters : StringFilters CharT} {property : String}

/-- What the build leaves. -/
theorem KeysListed.unfinished {i : ℕ} {strPropList : List String}
    (h : KeysListed strPropList propIdMap i property filters)
    (hproperty : strPropList[i]? = some property) (hids : (strPropList.map (get propIdMap)).Nodup)
    (hempty : built.manager.strFilterIds[get propIdMap property]? = some ∅)
    (hlists : get propIdMap property < built.filterList.length) :
    Unfinished filters built i property := by
  obtain ⟨rfl, rfl, hinRange, hmap, hnodup, hmem, -⟩ := h
  exact ⟨hproperty, hids, hmap, hinRange, hnodup, hmem, hempty, hlists⟩

/-- The loop comes to the property once, with its map without the deleted documents. -/
theorem Unfinished.finished {i : ℕ} (h : Unfinished filters built i property)
    (isDeleted : ℕ → Bool) : Finished (eraseDeleted isDeleted (filters.strFilterMap.getD i ∅))
      (filters.strKeySets.getD (get filters.propIdMap property) []) ∅
      (built.filterList.getD (get filters.propIdMap property) []) (get filters.propIdMap property)
      (finishBuildStringFilters isDeleted filters built) := by
  have hentry : (property, i) ∈ filters.strPropList.zipIdx :=
    mem_zipIdx_iff_getElem?.mpr h.property_eq
  have hnodup : (filters.strPropList.zipIdx.map
      fun entry => get filters.propIdMap entry.1).Nodup := by
    have hmap : filters.strPropList.zipIdx.map (fun entry => get filters.propIdMap entry.1) =
        (filters.strPropList.zipIdx.map Prod.fst).map (get filters.propIdMap) := by
      rw [List.map_map]
      rfl
    rw [hmap, zipIdx_map_fst]
    exact h.ids_nodup
  have hmap : (filters.strFilterMap.map (eraseDeleted isDeleted)).getD i ∅ =
      eraseDeleted isDeleted (filters.strFilterMap.getD i ∅) := by
    rw [getD_eq_getElem?_getD, getElem?_map, getElem?_eq_getElem h.hasMap, map_some]
    exact congrArg (eraseDeleted isDeleted) (getD_eq_getElem _ ∅ h.hasMap).symm
  rw [← hmap]
  refine foldl_finishProperty hnodup hentry ?_ h.ids_empty ?_
  · rw [getD_eq_getElem?_getD, getElem?_eq_getElem h.inRange, getD_some]
  · rw [getD_eq_getElem?_getD, getElem?_eq_getElem h.hasLists, getD_some]

/-- After the end all keys are sorted, and the keys that have documents are numbered. -/
theorem indexed_finishBuildStringFilters {i : ℕ} (h : Unfinished filters built i property)
    (isDeleted : ℕ → Bool) : let finished := finishBuildStringFilters isDeleted filters built
    let propId := get filters.propIdMap property
    let strFilterMap := filters.strFilterMap.getD i ∅
    propId < finished.manager.strKeySets.length ∧
      (∀ key, key ∈ finished.manager.strKeySets.getD propId [] ↔ key ∈ strFilterMap) ∧
      ∃ live base, Indexed (liveDocs isDeleted strFilterMap) live
        (finished.manager.strKeySets.getD propId []) (finished.manager.strFilterIds.getD propId ∅)
        (finished.filterList.getD propId []) base := by
  intro finished propId strFilterMap
  have hfinished := h.finished isDeleted
  have hkeys : finished.manager.strKeySets.getD propId [] =
      (filters.strKeySets.getD propId []).insertionSort (· ≤ ·) := by
    rw [getD_eq_getElem?_getD, hfinished.keys_eq, getD_some]
  have hids : finished.manager.strFilterIds.getD propId ∅ =
      (mapFilterToFilterId (eraseDeleted isDeleted strFilterMap) ∅
        (built.filterList.getD propId [])).1 := by
    rw [getD_eq_getElem?_getD, hfinished.ids_eq]
    rfl
  have hlists : finished.filterList.getD propId [] =
      (mapFilterToFilterId (eraseDeleted isDeleted strFilterMap) ∅
        (built.filterList.getD propId [])).2 := by
    rw [getD_eq_getElem?_getD, hfinished.lists_eq]
    rfl
  have hmem (key : List CharT) : key ∈ finished.manager.strKeySets.getD propId [] ↔
      key ∈ strFilterMap := by
    rw [hkeys, mem_insertionSort]
    exact h.mem_iff key
  have hlive (key : List CharT) :
      key ∈ (eraseDeleted isDeleted strFilterMap).inOrder.map Prod.fst ↔
        liveDocs isDeleted strFilterMap key ≠ [] :=
    mem_map_inOrder.trans mem_eraseDeleted
  refine ⟨(List.getElem?_eq_some_iff.mp hfinished.keys_eq).1, hmem,
    (eraseDeleted isDeleted strFilterMap).inOrder.map Prod.fst,
    (built.filterList.getD propId []).length, ?_, ?_, hlive, fun key hkey => ?_⟩
  · rw [hkeys]
    exact pairwise_lt_insertionSort h.keys_nodup
  · rw [hids, hlists, ← get_eraseDeleted]
    refine numbered_mapFilterToFilterId (fun key hkey => ?_) _
    rw [get_eraseDeleted]
    exact mem_eraseDeleted.mp hkey
  · rw [hmem key]
    by_contra habsent
    exact (hlive key).mp hkey (liveDocs_of_notMem isDeleted habsent)

end Finish

end AdDelivery.SuffixMatch
