import AdDelivery.Core.SortedVector
import AdDelivery.SuffixMatch.FilterManager

/-!
# Numbering the filter lists

The filter lists of a property stand in one vector, in the order of their keys, and the id of a
list is its position. A lookup answers with a range of ids. The range is right if it holds the ids
of the lists of the keys that qualify and no others.
-/

namespace AdDelivery.SuffixMatch

open List Finmap

/-- The manager and the filter lists, which are not saved with it. -/
structure BuiltFilters (UString : Type) where
  manager : FilterManager UString
  filterList : List (List (List ℕ))

variable {κ : Type} [LinearOrder κ]

/-- One pass of the loop: the list of a key goes to the end, unless it is empty. -/
def mapKeyToFilterId (mapped : Table κ FilterIdRange × List (List ℕ)) (entry : κ × List ℕ) :
    Table κ FilterIdRange × List (List ℕ) :=
  let filterList := if entry.2.isEmpty then mapped.2 else mapped.2 ++ [entry.2]
  (insert entry.1 ⟨mapped.2.length, filterList.length⟩ mapped.1, filterList)

/-- The loop that attributes and numbers have in common. -/
def mapFilterToFilterId (filterData : Table κ (List ℕ)) (filterids : Table κ FilterIdRange)
    (filterList : List (List ℕ)) : Table κ FilterIdRange × List (List ℕ) :=
  filterData.inOrder.foldl mapKeyToFilterId (filterids, filterList)

def mapAttrFilterToFilterId {CharT : Type} [LinearOrder CharT]
    (attrFilterData : Table (List CharT) (List ℕ)) (filterids : Table (List CharT) FilterIdRange)
    (filterList : List (List ℕ)) : Table (List CharT) FilterIdRange × List (List ℕ) :=
  mapFilterToFilterId attrFilterData filterids filterList

def mapNumericFilterToFilterId (numFilterData : Table ℤ (List ℕ))
    (filterids : Table ℤ FilterIdRange) (filterList : List (List ℕ)) :
    Table ℤ FilterIdRange × List (List ℕ) :=
  mapFilterToFilterId numFilterData filterids filterList

/-- The keys of an ascending list have ids one after another, and no other key has any. -/
structure Numbered (docs : κ → List ℕ) (live : List κ) (ids : Table κ FilterIdRange)
    (filterList : List (List ℕ)) (base : ℕ) : Prop where
  ascending : live.Pairwise (· < ·)
  lookup : ∀ i key, live[i]? = some key → ids.lookup key = some ⟨base + i, base + i + 1⟩
  absent : ∀ key, key ∉ live → ids.lookup key = none
  lists : ∀ i key, live[i]? = some key → filterList[base + i]? = some (docs key)

/-- Lists that are not empty are appended, and their keys get the places of the lists. -/
theorem foldl_mapKeyToFilterId {entries : List (κ × List ℕ)}
    (hkeys : (entries.map Prod.fst).Nodup) (hdocs : ∀ entry ∈ entries, entry.2 ≠ [])
    (ids : Table κ FilterIdRange) (filterList : List (List ℕ)) :
    (entries.foldl mapKeyToFilterId (ids, filterList)).2 = filterList ++ entries.map Prod.snd ∧
      (∀ i entry, entries[i]? = some entry →
        (entries.foldl mapKeyToFilterId (ids, filterList)).1.lookup entry.1 =
          some ⟨filterList.length + i, filterList.length + i + 1⟩) ∧
      ∀ key, key ∉ entries.map Prod.fst →
        (entries.foldl mapKeyToFilterId (ids, filterList)).1.lookup key = ids.lookup key := by
  induction entries generalizing ids filterList with
  | nil => exact ⟨(append_nil _).symm, fun i entry h => by simp at h, fun _ _ => rfl⟩
  | cons entry entries ih =>
    obtain ⟨hentry, hrest⟩ := forall_mem_cons.mp hdocs
    obtain ⟨hnew, hnodup⟩ := nodup_cons.mp hkeys
    have hstep : mapKeyToFilterId (ids, filterList) entry =
        (insert entry.1 ⟨filterList.length, filterList.length + 1⟩ ids,
          filterList ++ [entry.2]) := by
      simp [mapKeyToFilterId, hentry]
    obtain ⟨hlist, hfound, habsent⟩ := ih hnodup hrest
      (insert entry.1 ⟨filterList.length, filterList.length + 1⟩ ids)
      (filterList ++ [entry.2])
    rw [foldl_cons, hstep]
    refine ⟨by rw [hlist, append_assoc]; rfl, fun i other hother => ?_,
      fun key hkey => ?_⟩
    · cases i with
      | zero =>
        obtain rfl : entry = other := by simpa using hother
        rw [habsent entry.1 hnew, lookup_insert]
        rfl
      | succ i =>
        rw [hfound i other (by simpa using hother), length_append, length_singleton]
        congr 2 <;> omega
    · rw [map_cons, mem_cons, not_or] at hkey
      rw [habsent key hkey.2, lookup_insert_of_ne _ hkey.1]

variable {data : Table κ (List ℕ)}

/-- A map without empty lists, whose ids were not given yet, is numbered in order. -/
theorem numbered_mapFilterToFilterId (hdocs : ∀ key, key ∈ data → Table.get data key ≠ [])
    (filterList : List (List ℕ)) : Numbered (Table.get data) (data.inOrder.map Prod.fst)
      (mapFilterToFilterId data ∅ filterList).1 (mapFilterToFilterId data ∅ filterList).2
      filterList.length := by
  have hget (entry : κ × List ℕ) (h : entry ∈ data.inOrder) :
      Table.get data entry.1 = entry.2 := by
    rw [Table.get, Table.mem_inOrder.mp h, Option.getD_some]
  have hnonempty (entry : κ × List ℕ) (h : entry ∈ data.inOrder) : entry.2 ≠ [] := by
    rw [← hget entry h]
    refine hdocs entry.1 ?_
    rw [← lookup_isSome, Table.mem_inOrder.mp h, Option.isSome_some]
  obtain ⟨hlist, hfound, habsent⟩ := foldl_mapKeyToFilterId
    data.pairwise_inOrder.nodup hnonempty ∅ filterList
  refine ⟨data.pairwise_inOrder, fun i key hkey => ?_, fun key hkey => ?_, fun i key hkey => ?_⟩
  · rw [getElem?_map] at hkey
    obtain ⟨entry, hentry, rfl⟩ := Option.map_eq_some_iff.mp hkey
    exact hfound i entry hentry
  · exact (habsent key hkey).trans (lookup_empty key)
  · rw [getElem?_map] at hkey
    obtain ⟨entry, hentry, rfl⟩ := Option.map_eq_some_iff.mp hkey
    rw [mapFilterToFilterId, hlist, getElem?_append_right (Nat.le_add_right _ i),
      Nat.add_sub_cancel_left, getElem?_map, hentry, hget entry (mem_of_getElem? hentry)]
    rfl

theorem mem_map_inOrder {key : κ} : key ∈ data.inOrder.map Prod.fst ↔ key ∈ data := by
  rw [mem_map, ← Finmap.lookup_isSome, Option.isSome_iff_exists]
  constructor
  · rintro ⟨entry, hentry, rfl⟩
    exact ⟨entry.2, Table.mem_inOrder.mp hentry⟩
  · rintro ⟨docs, hdocs⟩
    exact ⟨(key, docs), Table.mem_inOrder.mpr hdocs, rfl⟩

/-- The ids of the range are those of the lists of the keys that qualify. -/
def Covers (docs : κ → List ℕ) (ids : Table κ FilterIdRange) (filterList : List (List ℕ))
    (qualifies : κ → Prop) (range : FilterIdRange) : Prop :=
  ∀ id, (range.start ≤ id ∧ id < range.end_) ↔
    ∃ key, qualifies key ∧ docs key ≠ [] ∧ ids.lookup key = some ⟨id, id + 1⟩ ∧
      filterList[id]? = some (docs key)

section Ranges

variable {docs : κ → List ℕ} {live : List κ} {ids : Table κ FilterIdRange}
  {filterList : List (List ℕ)} {base : ℕ} {qualifies : κ → Prop}

section

variable (h : Numbered docs live ids filterList base)
include h

theorem Numbered.exists_lookup {key : κ} (hkey : key ∈ live) : ∃ i, live[i]? = some key ∧
      ids.lookup key = some ⟨base + i, base + i + 1⟩ := by
  obtain ⟨i, hi⟩ := mem_iff_getElem?.mp hkey
  exact ⟨i, hi, h.lookup i key hi⟩

/-- Nothing is covered by the empty range. -/
theorem Numbered.covers_empty (hdocs : ∀ key ∈ live, docs key ≠ []) :
    Covers docs ids filterList qualifies {} ↔ ∀ key ∈ live, ¬qualifies key := by
  constructor
  · intro hcovers key hkey hq
    obtain ⟨i, hi, hlookup⟩ := h.exists_lookup hkey
    have hid := (hcovers (base + i)).mpr ⟨key, hq, hdocs key hkey, hlookup, h.lists i key hi⟩
    exact absurd hid.2 (Nat.not_lt_zero _)
  · intro hnone id
    refine ⟨fun hid => absurd hid.2 (Nat.not_lt_zero _), ?_⟩
    rintro ⟨key, hq, -, hlookup, -⟩
    by_cases hkey : key ∈ live
    · exact absurd hq (hnone key hkey)
    · rw [h.absent key hkey] at hlookup
      cases hlookup

/-- A range from one key to another covers the keys in between. -/
theorem Numbered.covers_between (hdocs : ∀ key ∈ live, docs key ≠ []) {a b : κ}
    {first last : FilterIdRange} (ha : ids.lookup a = some first) (hb : ids.lookup b = some last) :
    Covers docs ids filterList qualifies ⟨first.start, last.end_⟩ ↔
      ∀ key ∈ live, qualifies key ↔ a ≤ key ∧ key ≤ b := by
  have hlive {key : κ} {range : FilterIdRange} (hlookup : ids.lookup key = some range) :
      key ∈ live := by
    by_contra habsent
    rw [h.absent key habsent] at hlookup
    cases hlookup
  obtain ⟨i, hi, hfirst⟩ := h.exists_lookup (hlive ha)
  obtain ⟨j, hj, hlast⟩ := h.exists_lookup (hlive hb)
  obtain rfl := Option.some.inj (ha.symm.trans hfirst)
  obtain rfl := Option.some.inj (hb.symm.trans hlast)
  constructor
  · intro hcovers key hkey
    obtain ⟨n, hn, hlookup⟩ := h.exists_lookup hkey
    rw [index_le h.ascending hi hn, index_le h.ascending hn hj]
    constructor
    · intro hq
      have hid := (hcovers (base + n)).mpr ⟨key, hq, hdocs key hkey, hlookup, h.lists n key hn⟩
      simp only at hid
      omega
    · intro hle
      obtain ⟨other, hq, -, hother, -⟩ := (hcovers (base + n)).mp
        (by simp only; omega)
      obtain ⟨m, hm, hlookup'⟩ := h.exists_lookup (hlive hother)
      have hrange := Option.some.inj (hother.symm.trans hlookup')
      obtain rfl : n = m := by
        have := congrArg FilterIdRange.start hrange
        simp only at this
        omega
      rw [Option.some.inj (hn.symm.trans hm)]
      exact hq
  · intro hall id
    constructor
    · intro hid
      simp only at hid
      obtain ⟨n, rfl⟩ : ∃ n, id = base + n := ⟨id - base, by omega⟩
      have hn : n < live.length := by
        have := (List.getElem?_eq_some_iff.mp hj).1
        omega
      have hkey := getElem?_eq_getElem hn
      have hmem := mem_of_getElem? hkey
      refine ⟨live[n], (hall _ hmem).mpr ?_, hdocs _ hmem, h.lookup n _ hkey, h.lists n _ hkey⟩
      rw [index_le h.ascending hi hkey, index_le h.ascending hkey hj]
      omega
    · rintro ⟨key, hq, -, hlookup, -⟩
      obtain ⟨n, hn, hlookup'⟩ := h.exists_lookup (hlive hlookup)
      have hbetween := (hall key (hlive hlookup)).mp hq
      rw [index_le h.ascending hi hn, index_le h.ascending hn hj] at hbetween
      have hstart := congrArg FilterIdRange.start (Option.some.inj (hlookup.symm.trans hlookup'))
      simp only at hstart ⊢
      omega

end

/-- The lookup stays within its containers, and the range it answers with is right. -/
def Answered (docs : κ → List ℕ) (ids : Table κ FilterIdRange) (filterList : List (List ℕ))
    (qualifies : κ → Prop) (answer : Option FilterIdRange) : Prop :=
  ∃ range, answer = some range ∧ Covers docs ids filterList qualifies range

/-- Unless no key with documents qualifies, the least and the greatest key that are looked up
have documents. -/
def EndsLive (docs : κ → List ℕ) (qualifies : κ → Prop) (lows highs : Set κ) : Prop :=
  (∃ key, docs key ≠ [] ∧ qualifies key) →
    (∀ a, IsLeast lows a → docs a ≠ []) ∧ ∀ b, IsGreatest highs b → docs b ≠ []

/-- The ends matter only when there is a key to find. -/
theorem endsLive_iff {lows highs : Set κ} {a b : κ}
    (h : (∃ key, docs key ≠ [] ∧ qualifies key) → IsLeast lows a ∧ IsGreatest highs b) :
    EndsLive docs qualifies lows highs ↔
      ((∃ key, docs key ≠ [] ∧ qualifies key) → docs a ≠ [] ∧ docs b ≠ []) := by
  refine imp_congr_right fun hexists => ?_
  obtain ⟨ha, hb⟩ := h hexists
  constructor
  · rintro ⟨hleast, hgreatest⟩
    exact ⟨hleast a ha, hgreatest b hb⟩
  · rintro ⟨hdocsA, hdocsB⟩
    exact ⟨fun a' ha' => ha'.unique ha ▸ hdocsA, fun b' hb' => hb'.unique hb ▸ hdocsB⟩

section

variable (h : Numbered docs live ids filterList base) (hdocs : ∀ key, key ∈ live ↔ docs key ≠ [])
include h hdocs

theorem Numbered.answered_empty :
    Answered docs ids filterList qualifies (some {}) ↔ ∀ key, docs key ≠ [] → ¬qualifies key := by
  have hempty : Covers docs ids filterList qualifies {} ↔ ∀ key ∈ live, ¬qualifies key :=
    h.covers_empty fun key => (hdocs key).mp
  simp only [hdocs] at hempty
  rw [← hempty]
  constructor
  · rintro ⟨range, heq, hcovers⟩
    rwa [Option.some.inj heq]
  · exact fun hcovers => ⟨{}, rfl, hcovers⟩

/-- A lookup that finds both its keys is right; one that misses a key must have nothing to find. -/
theorem Numbered.answered_iff {lows highs : Set κ} {a b : κ} (ha : IsLeast lows a)
    (hb : IsGreatest highs b) (hbetween : ∀ key ∈ live, qualifies key ↔ a ≤ key ∧ key ≤ b)
    {answer : Option FilterIdRange}
    (hfound : ∀ first last, ids.lookup a = some first → ids.lookup b = some last →
      answer = some ⟨first.start, last.end_⟩) (hmissed : a ∉ live ∨ b ∉ live →
      answer = some {} ∨ answer = none ∧ ∃ key ∈ live, qualifies key) :
    Answered docs ids filterList qualifies answer ↔ EndsLive docs qualifies lows highs := by
  by_cases hboth : a ∈ live ∧ b ∈ live
  · obtain ⟨_, _, hfirst⟩ := h.exists_lookup hboth.1
    obtain ⟨_, _, hlast⟩ := h.exists_lookup hboth.2
    rw [endsLive_iff fun _ => ⟨ha, hb⟩]
    refine iff_of_true ⟨_, hfound _ _ hfirst hlast, ?_⟩ fun _ => ?_
    · exact (h.covers_between (fun key => (hdocs key).mp) hfirst hlast).mpr hbetween
    · exact ⟨(hdocs a).mp hboth.1, (hdocs b).mp hboth.2⟩
  · have hends : EndsLive docs qualifies lows highs ↔
        ∀ key, docs key ≠ [] → ¬qualifies key := by
      rw [endsLive_iff fun _ => ⟨ha, hb⟩, ← hdocs, ← hdocs]
      simp only [hboth, imp_false, not_exists, not_and]
    rw [hends]
    rcases hmissed (not_and_or.mp hboth) with rfl | ⟨rfl, key, hkey, hq⟩
    · exact h.answered_empty hdocs
    · refine iff_of_false ?_ fun hnone => hnone key ((hdocs key).mp hkey) hq
      rintro ⟨range, hrange, -⟩
      cases hrange

end

end Ranges

/-- What the greater lookups do: from the first key beyond the bound to the last key. Nothing is
the result of a read at the end of a container. -/
def idRangeGreater (keys : List κ) (ids : Table κ FilterIdRange) (bound : κ) (inclusive : Bool) :
    Option FilterIdRange :=
  let it := if inclusive then lowerBound keys bound else upperBound keys bound
  match keys[it]? with
  | none => some {}
  | some key =>
    match ids.lookup key with
    | none => some {}
    | some first => do
      let back ← keys.getLast?
      let last ← ids.lookup back
      return ⟨first.start, last.end_⟩

/-- The end of the less lookups: from the first key to the key that was found. -/
def idRangeUpTo (keys : List κ) (ids : Table κ FilterIdRange) (key : κ) : Option FilterIdRange :=
  match ids.lookup key with
  | none => some {}
  | some last => do
    let front ← keys[0]?
    let first ← ids.lookup front
    return ⟨first.start, last.end_⟩

/-- The keys of a property are sorted, those with documents are numbered, and all of these are
among the keys. -/
structure Indexed (docs : κ → List ℕ) (live keys : List κ) (ids : Table κ FilterIdRange)
    (filterList : List (List ℕ)) (base : ℕ) : Prop where
  sorted : keys.Pairwise (· < ·)
  numbered : Numbered docs live ids filterList base
  live_iff : ∀ key, key ∈ live ↔ docs key ≠ []
  listed : ∀ key ∈ live, key ∈ keys

def isGreater (bound : κ) (inclusive : Bool) (key : κ) : Prop :=
  if inclusive then bound ≤ key else bound < key

def isLess (bound : κ) (inclusive : Bool) (key : κ) : Prop :=
  if inclusive then key ≤ bound else key < bound

section Sides

variable {docs : κ → List ℕ} {live keys : List κ} {ids : Table κ FilterIdRange}
  {filterList : List (List ℕ)} {base : ℕ} {qualifies : κ → Prop}

/-- Nothing qualifies, and the range is empty. -/
theorem Indexed.answered_empty (h : Indexed docs live keys ids filterList base)
    {lows highs : Set κ} (hnone : ∀ key ∈ keys, ¬qualifies key) :
    Answered docs ids filterList qualifies (some {}) ↔ EndsLive docs qualifies lows highs := by
  have hlive : ∀ key, docs key ≠ [] → ¬qualifies key := fun key hkey =>
    hnone key (h.listed key ((h.live_iff key).mpr hkey))
  refine iff_of_true ((h.numbered.answered_empty h.live_iff).mpr hlive) ?_
  rintro ⟨key, hkey, hq⟩
  exact absurd hq (hlive key hkey)

theorem greater_eq_partitionPoint (keys : List κ) (bound : κ) (inclusive : Bool) :
    ∃ p : κ → Bool, (∀ key, p key = false ↔ isGreater bound inclusive key) ∧
      (if inclusive then lowerBound keys bound else upperBound keys bound) =
        partitionPoint p keys := by
  cases inclusive with
  | true => exact ⟨fun key => decide (key < bound), by simp [isGreater], rfl⟩
  | false => exact ⟨fun key => !decide (bound < key), by simp [isGreater], rfl⟩

section

variable (h : Indexed docs live keys ids filterList base)
include h

/-- From the first greater key to the last key. -/
theorem Indexed.greater (bound : κ) (inclusive : Bool) :
    Answered docs ids filterList (isGreater bound inclusive)
        (idRangeGreater keys ids bound inclusive) ↔ EndsLive docs (isGreater bound inclusive)
        {key ∈ {key | key ∈ keys} | isGreater bound inclusive key} {key | key ∈ keys} := by
  obtain ⟨p, hp, hit⟩ := greater_eq_partitionPoint keys bound inclusive
  rw [idRangeGreater, hit]
  cases ha : keys[partitionPoint p keys]? with
  | none =>
    refine h.answered_empty fun key hkey hq => ?_
    rw [← hp key, getElem?_partitionPoint_eq_none.mp ha key hkey] at hq
    cases hq
  | some a =>
    have hleast := isLeast_partitionPoint h.sorted ha
    simp only [hp] at hleast
    obtain ⟨b, hb⟩ : ∃ b, keys.getLast? = some b :=
      Option.ne_none_iff_exists'.mp
        (getLast?_eq_none_iff.not.mpr (ne_nil_of_mem hleast.1.1))
    have hgreatest := isGreatest_last h.sorted hb
    refine h.numbered.answered_iff h.live_iff hleast hgreatest (fun key hkey => ?_) ?_ ?_
    · have hkeys := h.listed key hkey
      refine ⟨fun hq => ⟨hleast.2 ⟨hkeys, hq⟩, hgreatest.2 hkeys⟩, fun hle => ?_⟩
      have hqa := hleast.1.2
      cases inclusive with
      | true => exact le_trans hqa hle.1
      | false => exact lt_of_lt_of_le hqa hle.1
    · intro first last hfirst hlast
      simp only [hfirst, hb, hlast, Option.bind_eq_bind, Option.bind_some, Option.pure_def]
    · intro hmissed
      by_cases hlive : a ∈ live
      · obtain ⟨i, -, hfirst⟩ := h.numbered.exists_lookup hlive
        have hlast := h.numbered.absent b (hmissed.resolve_left (not_not.mpr hlive))
        refine .inr ⟨?_, a, hlive, hleast.1.2⟩
        simp only [hfirst, hb, hlast, Option.bind_eq_bind, Option.bind_some, Option.bind_none]
      · exact .inl (by simp only [h.numbered.absent a hlive])

/-- From the first key to the greatest key that qualifies, where smaller keys qualify as well. -/
theorem Indexed.upTo {b : κ} (hb : IsGreatest {key ∈ {key | key ∈ keys} | qualifies key} b)
    (hlower : ∀ key ∈ keys, key ≤ b → qualifies key) :
    Answered docs ids filterList qualifies (idRangeUpTo keys ids b) ↔
      EndsLive docs qualifies {key | key ∈ keys} {key ∈ {key | key ∈ keys} | qualifies key} := by
  obtain ⟨a, ha⟩ : ∃ a, keys[0]? = some a :=
    ⟨_, getElem?_eq_getElem (length_pos_of_mem hb.1.1)⟩
  have hleast := isLeast_head h.sorted ha
  rw [idRangeUpTo]
  refine h.numbered.answered_iff h.live_iff hleast hb (fun key hkey => ?_) ?_ ?_
  · have hkeys := h.listed key hkey
    exact ⟨fun hq => ⟨hleast.2 hkeys, hb.2 ⟨hkeys, hq⟩⟩, fun hle => hlower key hkeys hle.2⟩
  · intro first last hfirst hlast
    simp only [hlast, ha, hfirst, Option.bind_eq_bind, Option.bind_some, Option.pure_def]
  · intro hmissed
    by_cases hlive : b ∈ live
    · obtain ⟨i, -, hlast⟩ := h.numbered.exists_lookup hlive
      have hfirst := h.numbered.absent a (hmissed.resolve_right (not_not.mpr hlive))
      refine .inr ⟨?_, b, hlive, hb.1.2⟩
      simp only [hlast, ha, hfirst, Option.bind_eq_bind, Option.bind_some, Option.bind_none]
    · exact .inl (by simp only [h.numbered.absent b hlive])

/-- A key that does not qualify is the end of a right range only if it has no documents. -/
theorem Indexed.overshoot {c : κ} (hc : c ∈ keys) (hq : ¬qualifies c) :
    Answered docs ids filterList qualifies (idRangeUpTo keys ids c) ↔
      docs c = [] ∧ ∀ key, docs key ≠ [] → ¬qualifies key := by
  rw [idRangeUpTo]
  by_cases hlive : c ∈ live
  · refine iff_of_false ?_ fun hempty => (h.live_iff c).mp hlive hempty.1
    rintro ⟨range, hrange, hcovers⟩
    obtain ⟨i, hi, hlast⟩ := h.numbered.exists_lookup hlive
    obtain ⟨front, hfront⟩ : ∃ front, keys[0]? = some front :=
      ⟨_, getElem?_eq_getElem (length_pos_of_mem hc)⟩
    simp only [hlast, hfront, Option.bind_eq_bind, Option.bind_some, Option.pure_def,
      Option.bind_eq_some_iff, Option.some.injEq] at hrange
    obtain ⟨first, hfirst, rfl⟩ := hrange
    rw [h.numbered.covers_between (fun key => (h.live_iff key).mp) hfirst hlast] at hcovers
    exact hq ((hcovers c hlive).mpr ⟨(isLeast_head h.sorted hfront).2 hc, le_rfl⟩)
  · have hdead : docs c = [] := by
      by_contra hdocs
      exact hlive ((h.live_iff c).mpr hdocs)
    rw [h.numbered.absent c hlive, h.numbered.answered_empty h.live_iff, and_iff_right hdead]

end

end Sides

end AdDelivery.SuffixMatch
