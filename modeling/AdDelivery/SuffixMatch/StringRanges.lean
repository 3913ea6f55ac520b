import AdDelivery.SuffixMatch.FinishStringFilters

/-!
# Ranges of string filters

After the last document the lists lose the deleted documents, and a key that has no other document
loses its id. It stays in the vector of keys, in which the range lookups search. A lookup that runs
into such a key answers with the empty range or reads behind the end of the ids.
-/

namespace AdDelivery.SuffixMatch

open List

variable {CharT : Type} [LinearOrder CharT]

/-- Maps compare their keys by the order. -/
local instance (priority := 2000) decidableEqKey : DecidableEq (List CharT) :=
  LinearOrder.toDecidableEq

/-- `PrefixCompare` on the first characters. -/
def compareChars : ℕ → List CharT → List CharT → Bool
  | len + 1, a :: lhs, b :: rhs =>
    if a < b then true else if b < a then false else compareChars len lhs rhs
  | _, _, _ => false

def PrefixCompare (len : ℕ) (lhs rhs : List CharT) : Bool :=
  if lhs.length < len ∨ rhs.length < len then decide (lhs < rhs) else compareChars len lhs rhs

namespace FilterManager

/-- `it == begin() && (!include || it->compare(str_filter) > 0)`: an empty vector is read, too. -/
def lessOutside (strKeySet : List (List CharT)) (strFilter : List CharT) (inclusive : Bool)
    (it : ℕ) : Option Bool :=
  if it = 0 then
    if inclusive then (strKeySet[it]?).map fun key => decide (strFilter < key) else some true
  else some false

section Lookups

variable (fm : FilterManager (List CharT)) (propId : ℕ) (strFilter : List CharT)

def getStrFilterIdRangeGreater (inclusive : Bool) : Option FilterIdRange :=
  if fm.strKeySets.length ≤ propId then some {}
  else
    let strKeySet := fm.strKeySets.getD propId []
    let strFilterIds := fm.strFilterIds.getD propId ∅
    idRangeGreater strKeySet strFilterIds strFilter inclusive

def getStrFilterIdRangeLess (inclusive : Bool) : Option FilterIdRange :=
  if fm.strKeySets.length ≤ propId then some {}
  else do
    let strKeySet := fm.strKeySets.getD propId []
    let strFilterIds := fm.strFilterIds.getD propId ∅
    let it := lowerBound strKeySet strFilter
    let outside ← lessOutside strKeySet strFilter inclusive it
    if outside then some {}
    else
      let it := if inclusive = false ∨ it = strKeySet.length then it - 1 else it
      let key ← strKeySet[it]?
      idRangeUpTo strKeySet strFilterIds key

def getStrFilterIdRangePrefix : Option FilterIdRange :=
  if fm.strKeySets.length ≤ propId then some {}
  else
    let strKeySet := fm.strKeySets.getD propId []
    let strFilterIds := fm.strFilterIds.getD propId ∅
    let it0 := partitionPoint (PrefixCompare strFilter.length · strFilter) strKeySet
    match strKeySet[it0]? with
    | none => some {}
    | some key0 =>
      let it1 := partitionPoint (fun key => !PrefixCompare strFilter.length strFilter key) strKeySet
      if it1 = 0 then some {}
      else do
        let key1 ← strKeySet[it1 - 1]?
        match strFilterIds.lookup key0 with
        | none => some {}
        | some first =>
          match strFilterIds.lookup key1 with
          | none => some {}
          | some last => return ⟨first.start, last.end_⟩

end Lookups

end FilterManager

open FilterManager

theorem compareChars_eq {len : ℕ} {lhs rhs : List CharT} (hlhs : len ≤ lhs.length)
    (hrhs : len ≤ rhs.length) :
    compareChars len lhs rhs = decide (lhs.take len < rhs.take len) := by
  induction len generalizing lhs rhs with
  | zero => simp [compareChars]
  | succ len ih =>
    obtain ⟨a, lhs, rfl⟩ := exists_cons_of_length_pos (by omega : 0 < lhs.length)
    obtain ⟨b, rhs, rfl⟩ := exists_cons_of_length_pos (by omega : 0 < rhs.length)
    rw [compareChars, ih (by simpa using hlhs) (by simpa using hrhs)]
    rcases lt_trichotomy a b with h | rfl | h
    · simp [h, cons_lt_cons_iff]
    · simp
    · simp [h, h.not_gt, h.ne', cons_lt_cons_iff]

variable (key strFilter : List CharT)

/-- A key is compared by its first characters. -/
theorem prefixCompare_left : PrefixCompare strFilter.length key strFilter =
      decide (key.take strFilter.length < strFilter) := by
  rw [PrefixCompare]
  split
  · rename_i h
    rw [take_of_length_le (by omega)]
  · rename_i h
    rw [compareChars_eq (by omega) le_rfl, take_length]

theorem prefixCompare_right : PrefixCompare strFilter.length strFilter key =
      decide (strFilter < key.take strFilter.length) := by
  rw [PrefixCompare]
  split
  · rename_i h
    rw [take_of_length_le (by omega)]
  · rename_i h
    rw [compareChars_eq le_rfl (by omega), take_length]

theorem lt_of_take_lt_take {l l' : List CharT} {len : ℕ} (h : l.take len < l'.take len) :
    l < l' := by
  induction len generalizing l l' with
  | zero => simp at h
  | succ len ih =>
    cases l' with
    | nil => simp at h
    | cons b l' =>
      cases l with
      | nil => exact nil_lt_cons b l'
      | cons a l =>
        rw [take_succ_cons, take_succ_cons, cons_lt_cons_iff] at h
        rcases h with hlt | ⟨rfl, hlt⟩
        · exact cons_lt_cons_iff.mpr (.inl hlt)
        · exact cons_lt_cons_iff.mpr (.inr ⟨rfl, ih hlt⟩)

theorem take_le_take {l l' : List CharT} (h : l ≤ l') (len : ℕ) : l.take len ≤ l'.take len :=
  not_lt.mp fun hlt => h.not_gt (lt_of_take_lt_take hlt)

/-- There are keys on both sides of the bound, which is no key itself. -/
def LiesBetween (keys : Set (List CharT)) (bound : List CharT) : Prop :=
  (∃ key ∈ keys, key < bound) ∧ bound ∉ keys ∧ ∃ key ∈ keys, bound < key

/-- When the less lookup is right. An inclusive bound takes in the next key, too. -/
structure LessExact (docs : List CharT → List ℕ) (keys : Set (List CharT)) (bound : List CharT)
    (inclusive : Bool) : Prop where
  nonempty : inclusive = true → keys.Nonempty
  between : inclusive = true → LiesBetween keys bound →
    (∀ c, IsLeast {key ∈ keys | bound < key} c → docs c = []) ∧
      ∀ key, docs key ≠ [] → ¬isLess bound true key
  ends : ¬(inclusive = true ∧ LiesBetween keys bound) →
    EndsLive docs (isLess bound inclusive) keys {key ∈ keys | isLess bound inclusive key}

section Lookups

variable {docs : List CharT → List ℕ} {live : List (List CharT)} {filterList : List (List ℕ)}
  {base propId : ℕ} {fm : FilterManager (List CharT)}

theorem lessExact_iff_ends {keys : Set (List CharT)} {bound : List CharT} {inclusive : Bool}
    (hnonempty : inclusive = true → keys.Nonempty)
    (hbetween : inclusive = true → ¬LiesBetween keys bound) : LessExact docs keys bound inclusive ↔
      EndsLive docs (isLess bound inclusive) keys {key ∈ keys | isLess bound inclusive key} :=
  ⟨fun h => h.ends fun hand => hbetween hand.1 hand.2,
    fun h => ⟨hnonempty, fun hinc hand => absurd hand (hbetween hinc), fun _ => h⟩⟩

section

variable
    (h : Indexed docs live (fm.strKeySets.getD propId []) (fm.strFilterIds.getD propId ∅)
      filterList base)
    (hid : propId < fm.strKeySets.length)
include h hid

theorem Indexed.less_exclusive (strFilter : List CharT) :
    Answered docs (fm.strFilterIds.getD propId ∅) filterList (isLess strFilter false)
        (fm.getStrFilterIdRangeLess propId strFilter false) ↔
      LessExact docs {key | key ∈ fm.strKeySets.getD propId []} strFilter false := by
  rw [lessExact_iff_ends Bool.noConfusion Bool.noConfusion,
    getStrFilterIdRangeLess, if_neg hid.not_ge]
  by_cases hit : lowerBound (fm.strKeySets.getD propId []) strFilter = 0
  · have hnone := (lowerBound_eq_zero h.sorted).mp hit
    simp only [lessOutside, hit, if_true, Bool.false_eq_true, if_false,
      Option.bind_eq_bind, Option.bind_some]
    exact h.answered_empty fun key hkey => (hnone key hkey).not_gt
  · obtain ⟨b, hb⟩ := exists_before_lowerBound hit
    have hgreatest := isGreatest_before_lowerBound h.sorted hit hb
    simp only [lessOutside, hit, if_false, Bool.false_eq_true, true_or, if_true,
      Option.bind_eq_bind, Option.bind_some, hb]
    exact h.upTo hgreatest fun key _ hle => hle.trans_lt hgreatest.1.2

theorem Indexed.less_at_begin {strFilter : List CharT}
    (hit : lowerBound (fm.strKeySets.getD propId []) strFilter = 0) :
    Answered docs (fm.strFilterIds.getD propId ∅) filterList (isLess strFilter true)
        (fm.getStrFilterIdRangeLess propId strFilter true) ↔
      LessExact docs {key | key ∈ fm.strKeySets.getD propId []} strFilter true := by
  have hid' : ¬fm.strKeySets.length ≤ propId := hid.not_ge
  have hall := (lowerBound_eq_zero h.sorted).mp hit
  cases hfront : (fm.strKeySets.getD propId [])[0]? with
  | none =>
    have hnil : fm.strKeySets.getD propId [] = [] := by simpa using hfront
    have hanswer : fm.getStrFilterIdRangeLess propId strFilter true = none := by
      simp only [getStrFilterIdRangeLess, hid', lessOutside, hit,
        if_true, if_false, hfront, Option.map_none, Option.bind_eq_bind, Option.bind_none]
    refine iff_of_false ?_ fun hexact => ?_
    · rintro ⟨range, hrange, -⟩
      rw [hanswer] at hrange
      cases hrange
    · obtain ⟨key, hkey⟩ := hexact.nonempty rfl
      exact not_mem_nil (hnil ▸ hkey : key ∈ [])
  | some front =>
    have hmem := mem_of_getElem? hfront
    rw [lessExact_iff_ends (fun _ => ⟨front, hmem⟩) fun _ hbetween => by
      obtain ⟨⟨key, hkey, hlt⟩, -⟩ := hbetween
      exact (hall key hkey).not_gt hlt]
    by_cases hlt : strFilter < front
    · have hanswer : fm.getStrFilterIdRangeLess propId strFilter true = some {} := by
        simp only [getStrFilterIdRangeLess, hid', lessOutside, hit,
          if_true, if_false, hfront, Option.map_some, hlt, decide_true, Option.bind_eq_bind,
          Option.bind_some]
      rw [hanswer]
      refine h.answered_empty fun key hkey hle => ?_
      exact (hlt.trans_le ((isLeast_head h.sorted hfront).2 hkey)).not_ge hle
    · obtain rfl : front = strFilter := le_antisymm (not_lt.mp hlt) (hall front hmem)
      have hlength : ¬0 = (fm.strKeySets.getD propId []).length := (length_pos_of_mem hmem).ne
      have hanswer : fm.getStrFilterIdRangeLess propId front true =
          idRangeUpTo (fm.strKeySets.getD propId []) (fm.strFilterIds.getD propId ∅) front := by
        simp only [getStrFilterIdRangeLess, hid', lessOutside, hit,
          if_true, hfront, Option.map_some, hlt, decide_false, Option.bind_eq_bind,
          Option.bind_some, Bool.true_eq_false, hlength, or_self, if_false, Bool.false_eq_true]
      rw [hanswer]
      exact h.upTo ⟨⟨hmem, le_rfl⟩, fun key hkey => hkey.2⟩ fun key _ hle => hle

end

/-- The key that an inclusive lookup ends with: at the place of the bound, not before it. -/
theorem less_behind_begin (hid : propId < fm.strKeySets.length) {strFilter b : List CharT}
    (hit : lowerBound (fm.strKeySets.getD propId []) strFilter ≠ 0)
    (hb : (fm.strKeySets.getD propId [])[lowerBound (fm.strKeySets.getD propId []) strFilter - 1]? =
      some b) : fm.getStrFilterIdRangeLess propId strFilter true =
      idRangeUpTo (fm.strKeySets.getD propId []) (fm.strFilterIds.getD propId ∅)
        (((fm.strKeySets.getD propId [])[lowerBound (fm.strKeySets.getD propId [])
          strFilter]?).getD b) := by
  have hid' : ¬fm.strKeySets.length ≤ propId := hid.not_ge
  simp only [getStrFilterIdRangeLess, hid', lessOutside, hit,
    if_false, Bool.false_eq_true, Bool.true_eq_false, false_or, Option.bind_eq_bind,
    Option.bind_some]
  split
  · rename_i hend
    rw [hb, Option.bind_some, getElem?_eq_none hend.ge, Option.getD_none]
  · rename_i hend
    rw [getElem?_eq_getElem (lowerBound_le_length.lt_of_ne hend), Option.bind_some,
      Option.getD_some]

theorem Indexed.less_inclusive (h : Indexed docs live (fm.strKeySets.getD propId [])
      (fm.strFilterIds.getD propId ∅) filterList base) (hid : propId < fm.strKeySets.length)
    (strFilter : List CharT) :
    Answered docs (fm.strFilterIds.getD propId ∅) filterList (isLess strFilter true)
        (fm.getStrFilterIdRangeLess propId strFilter true) ↔
      LessExact docs {key | key ∈ fm.strKeySets.getD propId []} strFilter true := by
  by_cases hit : lowerBound (fm.strKeySets.getD propId []) strFilter = 0
  · exact h.less_at_begin hid hit
  obtain ⟨b, hb⟩ := exists_before_lowerBound hit
  have hbefore := isGreatest_before_lowerBound h.sorted hit hb
  rw [less_behind_begin hid hit hb]
  cases hc : (fm.strKeySets.getD propId [])[lowerBound (fm.strKeySets.getD propId [])
    strFilter]? with
  | none =>
    -- all keys are less
    have hall := lt_of_lowerBound_eq_length
      (lowerBound_le_length.antisymm (List.getElem?_eq_none_iff.mp hc))
    rw [lessExact_iff_ends fun _ => ⟨b, hbefore.1.1⟩]
    · refine h.upTo ⟨⟨hbefore.1.1, hbefore.1.2.le⟩, fun key hkey => ?_⟩
        fun key hkey _ => (hall key hkey).le
      exact hbefore.2 ⟨hkey.1, hall key hkey.1⟩
    · rintro - ⟨-, -, key, hkey, hlt⟩
      exact hlt.not_gt (hall key hkey)
  | some c =>
    have hleast := isLeast_lowerBound h.sorted hc
    rw [Option.getD_some]
    by_cases heq : c = strFilter
    · subst heq
      rw [lessExact_iff_ends (fun _ => ⟨b, hbefore.1.1⟩) fun _ hbetween => hbetween.2.1 hleast.1.1]
      exact h.upTo ⟨⟨hleast.1.1, le_rfl⟩, fun key hkey => hkey.2⟩ fun key _ hle => hle
    · -- the next key is taken in
      have hlt : strFilter < c := lt_of_le_of_ne hleast.1.2 (Ne.symm heq)
      have hbetween : LiesBetween {key | key ∈ fm.strKeySets.getD propId []} strFilter :=
        ⟨⟨b, hbefore.1⟩, fun hkey => hlt.not_ge (hleast.2 ⟨hkey, le_rfl⟩), c, hleast.1.1, hlt⟩
      have hnext : IsLeast {key ∈ {key | key ∈ fm.strKeySets.getD propId []} | strFilter < key} c :=
        ⟨⟨hleast.1.1, hlt⟩, fun key hkey => hleast.2 ⟨hkey.1, hkey.2.le⟩⟩
      rw [h.overshoot hleast.1.1 hlt.not_ge]
      constructor
      · intro hempty
        refine ⟨fun _ => ⟨b, hbefore.1.1⟩, fun _ _ => ⟨fun c' hc' => ?_, hempty.2⟩,
          fun hnot => absurd ⟨rfl, hbetween⟩ hnot⟩
        rw [hc'.unique hnext]
        exact hempty.1
      · intro hexact
        obtain ⟨hdead, hnone⟩ := hexact.between rfl hbetween
        exact ⟨hdead c hnext, hnone⟩

omit [LinearOrder CharT] in
theorem prefix_iff_take {strFilter key : List CharT} :
    strFilter <+: key ↔ key.take strFilter.length = strFilter :=
  prefix_iff_eq_take.trans eq_comm

variable {strFilter a b : List CharT} {keys : List (List CharT)}

/-- Between two keys that are not before and not behind the prefix all keys have it. -/
theorem prefix_iff_between (ha : IsLeast {key ∈ keys | strFilter ≤ key.take strFilter.length} a)
    (hb : IsGreatest {key ∈ keys | key.take strFilter.length ≤ strFilter} b) {key : List CharT}
    (hkey : key ∈ keys) : strFilter <+: key ↔ a ≤ key ∧ key ≤ b := by
  rw [prefix_iff_take]
  constructor
  · intro heq
    exact ⟨ha.2 ⟨hkey, heq.ge⟩, hb.2 ⟨hkey, heq.le⟩⟩
  · rintro ⟨hle, hge⟩
    exact le_antisymm ((take_le_take hge _).trans hb.1.2) (ha.1.2.trans (take_le_take hle _))

/-- The ends of the keys with the prefix are the two keys found. -/
theorem Indexed.endsLive_prefix {ids : Table (List CharT) FilterIdRange}
    (h : Indexed docs live keys ids filterList base)
    (ha : IsLeast {key ∈ keys | strFilter ≤ key.take strFilter.length} a)
    (hb : IsGreatest {key ∈ keys | key.take strFilter.length ≤ strFilter} b) :
    EndsLive docs (strFilter <+: ·) {a} {b} ↔ EndsLive docs (strFilter <+: ·)
      {key ∈ {key | key ∈ keys} | strFilter <+: key}
      {key ∈ {key | key ∈ keys} | strFilter <+: key} := by
  have hbetween {key : List CharT} (hkey : key ∈ keys) :
      strFilter <+: key ↔ a ≤ key ∧ key ≤ b := prefix_iff_between ha hb hkey
  rw [endsLive_iff fun _ => ⟨isLeast_singleton, isGreatest_singleton⟩, endsLive_iff]
  rintro ⟨key, hkey, hprefix⟩
  have hkeys := h.listed key ((h.live_iff key).mpr hkey)
  have hle := (hbetween hkeys).mp hprefix
  have hprefixA := (hbetween ha.1.1).mpr ⟨le_rfl, hle.1.trans hle.2⟩
  have hprefixB := (hbetween hb.1.1).mpr ⟨hle.1.trans hle.2, le_rfl⟩
  exact ⟨⟨⟨ha.1.1, hprefixA⟩, fun key hkey => ((hbetween hkey.1).mp hkey.2).1⟩,
    ⟨hb.1.1, hprefixB⟩, fun key hkey => ((hbetween hkey.1).mp hkey.2).2⟩

/-- Of the keys from the least with the prefix to the greatest all have it. -/
theorem Indexed.prefix (h : Indexed docs live (fm.strKeySets.getD propId [])
      (fm.strFilterIds.getD propId ∅) filterList base) (hid : propId < fm.strKeySets.length)
    (strFilter : List CharT) :
    Answered docs (fm.strFilterIds.getD propId ∅) filterList (strFilter <+: ·)
        (fm.getStrFilterIdRangePrefix propId strFilter) ↔ EndsLive docs (strFilter <+: ·)
        {key ∈ {key | key ∈ fm.strKeySets.getD propId []} | strFilter <+: key}
        {key ∈ {key | key ∈ fm.strKeySets.getD propId []} | strFilter <+: key} := by
  have hid' : ¬fm.strKeySets.length ≤ propId := hid.not_ge
  rw [getStrFilterIdRangePrefix, if_neg hid']
  simp only [prefixCompare_left, prefixCompare_right]
  have hlower : ∀ x ∈ fm.strKeySets.getD propId [], ∀ y ∈ fm.strKeySets.getD propId [], x ≤ y →
      (!decide (strFilter < y.take strFilter.length)) = true →
      (!decide (strFilter < x.take strFilter.length)) = true := by
    intro x _ y _ hle hy
    simp only [Bool.not_eq_true', decide_eq_false_iff_not, not_lt] at hy ⊢
    exact (take_le_take hle _).trans hy
  cases ha : (fm.strKeySets.getD propId [])[partitionPoint
      (fun key => decide (key.take strFilter.length < strFilter))
      (fm.strKeySets.getD propId [])]? with
  | none =>
    refine h.answered_empty fun key hkey hprefix => ?_
    have hlt := of_decide_eq_true (getElem?_partitionPoint_eq_none.mp ha key hkey)
    exact hlt.ne (prefix_iff_take.mp hprefix)
  | some a =>
    have hleast := isLeast_partitionPoint h.sorted ha
    simp only [decide_eq_false_iff_not, not_lt] at hleast
    simp only
    split
    · rename_i hzero
      refine h.answered_empty fun key hkey hprefix => ?_
      have hgt := (partitionPoint_eq_zero hlower h.sorted).mp hzero key hkey
      simp only [Bool.not_eq_false', decide_eq_true_eq] at hgt
      exact hgt.ne (prefix_iff_take.mp hprefix).symm
    · rename_i hpos
      obtain ⟨b, hb⟩ := exists_before_partitionPoint hpos
      have hgreatest := isGreatest_before_partitionPoint hlower h.sorted hpos hb
      simp only [Bool.not_eq_true', decide_eq_false_iff_not, not_lt] at hgreatest
      have hbetween {key : List CharT} (hkey : key ∈ fm.strKeySets.getD propId []) :
          strFilter <+: key ↔ a ≤ key ∧ key ≤ b := prefix_iff_between hleast hgreatest hkey
      rw [← h.endsLive_prefix hleast hgreatest, hb]
      refine h.numbered.answered_iff h.live_iff isLeast_singleton isGreatest_singleton
        (fun key hkey => hbetween (h.listed key hkey)) ?_ ?_
      · intro first last hfirst hlast
        simp only [hfirst, hlast, Option.bind_eq_bind, Option.bind_some, Option.pure_def]
      · intro hmissed
        by_cases hlive : a ∈ live
        · obtain ⟨i, -, hfirst⟩ := h.numbered.exists_lookup hlive
          have hlast := h.numbered.absent b (hmissed.resolve_left (not_not.mpr hlive))
          exact .inl (by simp only [hfirst, hlast, Option.bind_eq_bind, Option.bind_some])
        · exact .inl (by simp only [h.numbered.absent a hlive, Option.bind_eq_bind,
            Option.bind_some])

end Lookups

/-- After the end of the build the lookup covers the lists of the keys that qualify, with the
documents that are not deleted. -/
def RangeExact (isDeleted : ℕ → Bool) (filters : StringFilters CharT)
    (built : BuiltFilters (List CharT)) (i : ℕ) (property : String) (qualifies : List CharT → Prop)
    (lookup : FilterManager (List CharT) → ℕ → Option FilterIdRange) : Prop :=
  let finished := finishBuildStringFilters isDeleted filters built
  let propId := Table.get filters.propIdMap property
  Answered (liveDocs isDeleted (filters.strFilterMap.getD i ∅))
    (finished.manager.strFilterIds.getD propId ∅) (finished.filterList.getD propId []) qualifies
    (lookup finished.manager propId)

/-- All keys of a property, whether their documents are deleted or not. -/
def StringFilters.keys (filters : StringFilters CharT) (i : ℕ) : Set (List CharT) :=
  {key | key ∈ filters.strFilterMap.getD i ∅}

section Build

variable {filters : StringFilters CharT} {built : BuiltFilters (List CharT)} {i : ℕ}
  {property : String}

theorem rangeExact_less (h : Unfinished filters built i property) (isDeleted : ℕ → Bool)
    (strFilter : List CharT) (inclusive : Bool) :
    RangeExact isDeleted filters built i property (isLess strFilter inclusive)
        (fun fm propId => fm.getStrFilterIdRangeLess propId strFilter inclusive) ↔
      LessExact (liveDocs isDeleted (filters.strFilterMap.getD i ∅)) (filters.keys i) strFilter
        inclusive := by
  obtain ⟨hid, hkeys, live, base, hindexed⟩ := indexed_finishBuildStringFilters h isDeleted
  rw [StringFilters.keys]
  simp only [← hkeys]
  cases inclusive with
  | true => exact hindexed.less_inclusive hid strFilter
  | false => exact hindexed.less_exclusive hid strFilter

theorem liveDocs_eq_filter (isDeleted : ℕ → Bool) (filters : StringFilters CharT) (i : ℕ)
    (key : List CharT) : liveDocs isDeleted (filters.strFilterMap.getD i ∅) key =
      (filters.docList i key).filter fun docId => !isDeleted docId := by
  rw [liveDocs, StringFilters.docList]
  congr!

/-- The lookups are right as long as the keys at the ends of their ranges have documents, and an
inclusive less lookup does not end between two keys. -/
theorem rangeExact_iff (h : Unfinished filters built i property) (isDeleted : ℕ → Bool)
    (strFilter : List CharT) (inclusive : Bool) :
    (RangeExact isDeleted filters built i property (isGreater strFilter inclusive)
        (fun fm propId => fm.getStrFilterIdRangeGreater propId strFilter inclusive) ↔
      EndsLive (liveDocs isDeleted (filters.strFilterMap.getD i ∅)) (isGreater strFilter inclusive)
        {key ∈ filters.keys i | isGreater strFilter inclusive key} (filters.keys i)) ∧
    (RangeExact isDeleted filters built i property (isLess strFilter inclusive)
        (fun fm propId => fm.getStrFilterIdRangeLess propId strFilter inclusive) ↔
      LessExact (liveDocs isDeleted (filters.strFilterMap.getD i ∅)) (filters.keys i) strFilter
        inclusive) ∧ (RangeExact isDeleted filters built i property (strFilter <+: ·)
        (fun fm propId => fm.getStrFilterIdRangePrefix propId strFilter) ↔
      EndsLive (liveDocs isDeleted (filters.strFilterMap.getD i ∅)) (strFilter <+: ·)
        {key ∈ filters.keys i | strFilter <+: key} {key ∈ filters.keys i | strFilter <+: key}) := by
  obtain ⟨hid, hkeys, live, base, hindexed⟩ := indexed_finishBuildStringFilters h isDeleted
  have hless := rangeExact_less h isDeleted strFilter inclusive
  rw [StringFilters.keys] at hless ⊢
  simp only [← hkeys] at hless ⊢
  refine ⟨?_, hless, hindexed.prefix hid strFilter⟩
  rw [RangeExact, getStrFilterIdRangeGreater, if_neg hid.not_ge]
  exact hindexed.greater strFilter inclusive

end Build

/-- Two documents with one brand each. -/
def twoBrands : StringFilters Char :=
  buildStringFilters ',' (.fresh Char ["Brand"] ∅ 1) [(1, brandOnly "b"), (2, brandOnly "d")]

def noIds : BuiltFilters (List Char) where
  manager := { strFilterIds := [∅] }
  filterList := [[]]

theorem keysListed_twoBrands : KeysListed ["Brand"] ∅ 0 "Brand" twoBrands :=
  keysListed_buildStringFilters (by simp) rfl (by simp) ',' _

theorem unfinished_twoBrands : Unfinished twoBrands noIds 0 "Brand" :=
  keysListed_twoBrands.unfinished rfl (by simp) (by simp [noIds]) (by simp [noIds])

theorem rangeExact_iff_twoBrands :
    (RangeExact (fun _ => false) twoBrands noIds 0 "Brand" (isGreater ['c'] true)
        (fun fm propId => fm.getStrFilterIdRangeGreater propId ['c'] true) ↔
      EndsLive (liveDocs (fun _ => false) (twoBrands.strFilterMap.getD 0 ∅)) (isGreater ['c'] true)
        {key ∈ twoBrands.keys 0 | isGreater ['c'] true key} (twoBrands.keys 0)) ∧
    (RangeExact (fun _ => false) twoBrands noIds 0 "Brand" (isLess ['c'] true)
        (fun fm propId => fm.getStrFilterIdRangeLess propId ['c'] true) ↔
      LessExact (liveDocs (fun _ => false) (twoBrands.strFilterMap.getD 0 ∅)) (twoBrands.keys 0)
        ['c'] true) ∧ (RangeExact (fun _ => false) twoBrands noIds 0 "Brand" (['c'] <+: ·)
        (fun fm propId => fm.getStrFilterIdRangePrefix propId ['c']) ↔
      EndsLive (liveDocs (fun _ => false) (twoBrands.strFilterMap.getD 0 ∅)) (['c'] <+: ·)
        {key ∈ twoBrands.keys 0 | ['c'] <+: key} {key ∈ twoBrands.keys 0 | ['c'] <+: key}) :=
  rangeExact_iff unfinished_twoBrands (fun _ => false) ['c'] true

theorem docList_twoBrands (key : List Char) :
    twoBrands.docList 0 key ≠ [] ↔ key = ['b'] ∨ key = ['d'] := by
  have hproperty : ["Brand"][0]? = some "Brand" := rfl
  have hdocs := (docList_buildStringFilters ',' (fits_fresh Char ["Brand"] ∅ 1) hproperty
    [(1, brandOnly "b"), (2, brandOnly "d")] key).2
  have hb : keysOf ',' (brandOnly "b") "Brand" = [['b']] := keysOf_brandOnly (by decide) (by decide)
  have hd : keysOf ',' (brandOnly "d") "Brand" = [['d']] := keysOf_brandOnly (by decide) (by decide)
  rw [twoBrands, hdocs, docList_fresh]
  simp only [nil_append, flatMap_cons, flatMap_nil, hb, hd, append_nil, ne_eq,
    append_eq_nil_iff, replicate_eq_nil_iff, count_eq_zero, mem_singleton]
  exact Decidable.not_and_iff_not_or_not.trans (or_congr not_not not_not)

theorem mem_keys_twoBrands {key : List Char} : key ∈ twoBrands.keys 0 ↔ key = ['b'] ∨ key = ['d'] :=
  (keysListed_twoBrands.nonempty key).trans (docList_twoBrands key)

/-- Not more than `c` is `b`, but the range reaches to `d`. -/
theorem not_rangeExact_less_twoBrands :
    ¬RangeExact (fun _ => false) twoBrands noIds 0 "Brand" (isLess ['c'] true)
      (fun fm propId => fm.getStrFilterIdRangeLess propId ['c'] true) := by
  rw [rangeExact_less unfinished_twoBrands]
  intro hexact
  have hbetween : LiesBetween (twoBrands.keys 0) ['c'] := by
    refine ⟨⟨['b'], mem_keys_twoBrands.mpr (.inl rfl), by decide⟩, fun hkey => ?_,
      ['d'], mem_keys_twoBrands.mpr (.inr rfl), by decide⟩
    simpa using mem_keys_twoBrands.mp hkey
  refine (hexact.between rfl hbetween).2 ['b'] ?_ (by decide : ['b'] ≤ ['c'])
  rw [liveDocs_eq_filter]
  simpa using (docList_twoBrands ['b']).mpr (.inl rfl)

end AdDelivery.SuffixMatch
