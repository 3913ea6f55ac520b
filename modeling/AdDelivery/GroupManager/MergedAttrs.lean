import AdDelivery.GroupManager.TopAttrs

/-!
# Merging attribute results in any order

Empty results do not matter. A single one is cut behind its first names, which are those of
greatest score; several are collected. All of this depends on the results only up to their order.
-/

namespace AdDelivery.GroupManager

open List hiding merge

variable {UString S : Type}

namespace OntologyRep

/-- The lists that are not empty, the first one apart. -/
theorem takeFirst_eq (itemList : List (OntologyRepItem UString S))
    (others : List (List (OntologyRepItem UString S))) : takeFirst itemList others =
      (((itemList :: others).filter fun items => !items.isEmpty).headD [],
        ((itemList :: others).filter fun items => !items.isEmpty).tail) := by
  induction others generalizing itemList with
  | nil => cases itemList <;> rfl
  | cons other others ih =>
    cases other with
    | nil =>
      rw [takeFirst, ih]
      cases itemList <;> rfl
    | cons item other =>
      cases itemList with
      | nil =>
        rw [takeFirst, ih]
        · rfl
        · exact cons_ne_nil _ _
      | cons item' itemList =>
        rw [takeFirst, ih]
        · rfl
        · exact cons_ne_nil _ _
        · exact cons_ne_nil _ _

/-- Names up to the first one that is one too many. -/
theorem cutFrom_flatMap (topGroupNum : ℕ) {attrs : List (Attr UString S)} (h : ReadableAttrs attrs)
    {groupNum : ℕ} (hle : groupNum ≤ topGroupNum) :
    cutFrom topGroupNum groupNum (attrs.flatMap Attr.items) =
      (attrs.take (topGroupNum - groupNum)).flatMap Attr.items := by
  have hvalues {values : List (OntologyRepItem UString S)}
      (hlevel : ∀ value ∈ values, value.level = 1) {groupNum : ℕ} (hle : groupNum ≤ topGroupNum)
      (rest : List (OntologyRepItem UString S)) :
      cutFrom topGroupNum groupNum (values ++ rest) =
        values ++ cutFrom topGroupNum groupNum rest := by
    induction values with
    | nil => rfl
    | cons value values ih =>
      have hvalue : value.level ≠ 0 := by
        rw [hlevel value mem_cons_self]
        exact Nat.one_ne_zero
      rw [cons_append, cutFrom, if_neg hvalue, if_neg (not_lt.mpr hle),
        ih fun value' hvalue' => hlevel value' (mem_cons_of_mem _ hvalue')]
      rfl
  induction attrs generalizing groupNum with
  | nil =>
    rw [take_nil]
    rfl
  | cons attr attrs ih =>
    have hname := h.level_name attr mem_cons_self
    rw [flatMap_cons, Attr.items, cons_append, cutFrom, if_pos hname]
    split
    · rename_i hlt
      have hzero : topGroupNum - groupNum = 0 := by omega
      rw [hzero]
      rfl
    · rename_i hge
      have hsucc : topGroupNum - groupNum = topGroupNum - (groupNum + 1) + 1 := by omega
      rw [hvalues (h.level_value attr mem_cons_self) (not_lt.mp hge),
        ih h.tail (not_lt.mp hge), hsucc, take_succ_cons, flatMap_cons, Attr.items, cons_append]

end OntologyRep

open OntologyRep

namespace AttrRep

section Single

variable [LinearOrder S]

theorem isEmpty_itemList (rep : AttrRep UString S) : rep.itemList.isEmpty = rep.attrs.isEmpty := by
  rw [itemList]
  cases rep.attrs with
  | nil => rfl
  | cons attr attrs => rfl

omit [LinearOrder S] in
/-- The names of a list stand at its items of level 0. -/
theorem flatMap_items_injective {attrs attrs' : List (Attr UString S)} (h : ReadableAttrs attrs)
    (h' : ReadableAttrs attrs') (heq : attrs.flatMap Attr.items = attrs'.flatMap Attr.items) :
    attrs = attrs' := by
  have hvalues {values values' : List (OntologyRepItem UString S)} {attrs attrs'}
      (hlevel : ∀ value ∈ values, value.level = 1) (hlevel' : ∀ value ∈ values', value.level = 1)
      (h : ReadableAttrs attrs) (h' : ReadableAttrs attrs')
      (heq : values ++ attrs.flatMap Attr.items = values' ++ attrs'.flatMap Attr.items) :
      values = values' ∧ attrs.flatMap Attr.items = attrs'.flatMap Attr.items := by
    induction values generalizing values' with
    | nil =>
      cases values' with
      | nil => exact ⟨rfl, heq⟩
      | cons value' values' =>
        cases attrs with
        | nil => cases heq
        | cons attr attrs =>
          have hname := h.level_name attr mem_cons_self
          have hvalue := hlevel' value' mem_cons_self
          rw [(List.cons.inj heq).1, hvalue] at hname
          cases hname
    | cons value values ih =>
      cases values' with
      | nil =>
        cases attrs' with
        | nil => cases heq
        | cons attr attrs' =>
          have hname := h'.level_name attr mem_cons_self
          have hvalue := hlevel value mem_cons_self
          rw [← (List.cons.inj heq).1, hvalue] at hname
          cases hname
      | cons value' values' =>
        obtain ⟨hvalue, hrest⟩ := List.cons.inj heq
        obtain ⟨hsame, hflat⟩ := ih
          (fun v hv => hlevel v (mem_cons_of_mem _ hv))
          (fun v hv => hlevel' v (mem_cons_of_mem _ hv)) hrest
        exact ⟨by rw [hvalue, hsame], hflat⟩
  induction attrs generalizing attrs' with
  | nil =>
    cases attrs' with
    | nil => rfl
    | cons attr' attrs' => cases heq
  | cons attr attrs ih =>
    cases attrs' with
    | nil => cases heq
    | cons attr' attrs' =>
      obtain ⟨hname, hrest⟩ := List.cons.inj heq
      obtain ⟨hsame, hflat⟩ := hvalues (h.level_value attr mem_cons_self)
        (h'.level_value attr' mem_cons_self) h.tail h'.tail hrest
      have hattr : attr = attr' := by
        cases attr
        cases attr'
        exact congrArg₂ Attr.mk hname hsame
      rw [hattr, ih h.tail h'.tail hflat]

theorem itemList_injective {rep rep' : AttrRep UString S} (h : rep.itemList = rep'.itemList) :
    rep = rep' := by
  have hattrs := flatMap_items_injective rep.readable rep'.readable h
  cases rep
  cases rep'
  cases hattrs
  rfl

/-- The results that are not empty. -/
def live (inputs : List (AttrRep UString S)) : List (AttrRep UString S) :=
  inputs.filter fun rep => !rep.attrs.isEmpty

theorem filter_map_itemList (inputs : List (AttrRep UString S)) :
    (inputs.map itemList).filter (fun items => !items.isEmpty) = (live inputs).map itemList := by
  rw [filter_map]
  congr 2
  funext rep
  rw [Function.comp_apply, isEmpty_itemList]

theorem takeFirst_itemList (receiver : AttrRep UString S) (others : List (AttrRep UString S)) :
    takeFirst receiver.itemList (others.map itemList) =
      (((live (receiver :: others)).map itemList).headD [],
        ((live (receiver :: others)).map itemList).tail) := by
  rw [takeFirst_eq, ← map_cons (f := itemList), filter_map_itemList]

/-- The first names of a result, or all of them. -/
def cut (topGroupNum : ℕ) (rep : AttrRep UString S) : AttrRep UString S where
  attrs := if topGroupNum = 0 then rep.attrs else rep.attrs.take topGroupNum
  readable := by
    split
    · exact rep.readable
    · have hsub := take_sublist topGroupNum rep.attrs
      exact
        { level_name := fun attr hattr => rep.readable.level_name attr (hsub.subset hattr)
          level_value := fun attr hattr => rep.readable.level_value attr (hsub.subset hattr)
          nodup_names := rep.readable.nodup_names.sublist (hsub.map _)
          nodup_values := fun attr hattr => rep.readable.nodup_values attr (hsub.subset hattr) }
  names_descend := by
    split
    · exact rep.names_descend
    · exact rep.names_descend.sublist (take_sublist topGroupNum rep.attrs)
  values_descend := by
    split
    · exact rep.values_descend
    · intro attr hattr
      exact rep.values_descend attr (mem_of_mem_take hattr)

theorem itemList_cut (topGroupNum : ℕ) (rep : AttrRep UString S) :
    cutTop topGroupNum rep.itemList = (rep.cut topGroupNum).itemList := by
  have hlength : rep.attrs.length ≤ rep.itemList.length := by
    rw [itemList]
    induction rep.attrs with
    | nil => exact Nat.le_refl _
    | cons attr attrs ih =>
      rw [flatMap_cons, length_append, Attr.items, length_cons, length_cons]
      omega
  rw [cutTop]
  by_cases hzero : topGroupNum = 0
  · rw [if_pos (Or.inl hzero), itemList, itemList, cut]
    simp only [if_pos hzero]
  · split
    · rename_i hshort
      have hle : rep.attrs.length ≤ topGroupNum :=
        hlength.trans (hshort.resolve_left hzero)
      rw [itemList, itemList, cut]
      simp only [if_neg hzero]
      rw [take_of_length_le hle]
    · rw [cut]
      simp only [if_neg hzero]
      exact cutFrom_flatMap topGroupNum rep.readable (Nat.zero_le _)

theorem attrs_cut_sublist (topGroupNum : ℕ) (rep : AttrRep UString S) :
    (rep.cut topGroupNum).attrs.Sublist rep.attrs := by
  rw [cut]
  split
  · exact Sublist.refl _
  · exact take_sublist topGroupNum rep.attrs

theorem exists_live_iff {f : AttrRep UString S → Option (OntologyRepItem UString S)}
    (hf : ∀ rep, rep.attrs = [] → f rep = none) (inputs : List (AttrRep UString S)) :
    (∃ rep ∈ live inputs, (f rep).isSome) ↔ ∃ rep ∈ inputs, (f rep).isSome := by
  constructor
  · rintro ⟨rep, hrep, hsome⟩
    exact ⟨rep, (mem_filter.mp hrep).1, hsome⟩
  · rintro ⟨rep, hrep, hsome⟩
    refine ⟨rep, mem_filter.mpr ⟨hrep, ?_⟩, hsome⟩
    cases hattrs : rep.attrs with
    | nil =>
      rw [hf rep hattrs] at hsome
      cases hsome
    | cons attr attrs => rfl

end Single

section Sums

variable [LinearOrder S] [AddCommMonoid S]
  {f : AttrRep UString S → Option (OntologyRepItem UString S)}

variable {item : OntologyRepItem UString S}

theorem sumsUp_single {rep : AttrRep UString S} (h : f rep = some item) : SumsUp [rep] f item := by
  constructor
  · rw [sumCount, map_singleton, h]
    rfl
  · rw [sumScore, map_singleton, sum_singleton, h]
    rfl

theorem sumCount_live (hf : ∀ rep, rep.attrs = [] → f rep = none)
    (inputs : List (AttrRep UString S)) : sumCount (live inputs) f = sumCount inputs f ∧
      sumScore (live inputs) f = sumScore inputs f := by
  induction inputs with
  | nil => exact ⟨rfl, rfl⟩
  | cons rep inputs ih =>
    rw [live, filter_cons]
    cases hattrs : rep.attrs with
    | nil =>
      simp only [isEmpty_nil, Bool.not_true, Bool.false_eq_true, if_false, sumCount, sumScore,
        map_cons, sum_cons, hf rep hattrs, Option.elim_none, zero_add]
      exact ih
    | cons attr attrs =>
      exact ⟨congrArg _ ih.1, congrArg _ ih.2⟩

theorem sumsUp_live_iff (hf : ∀ rep, rep.attrs = [] → f rep = none)
    {inputs : List (AttrRep UString S)} : SumsUp (live inputs) f item ↔ SumsUp inputs f item := by
  obtain ⟨hcount, hscore⟩ := sumCount_live hf inputs
  constructor
  · rintro ⟨h₁, h₂⟩
    exact ⟨h₁.trans hcount, h₂.trans hscore⟩
  · rintro ⟨h₁, h₂⟩
    exact ⟨h₁.trans hcount.symm, h₂.trans hscore.symm⟩

end Sums

section One

variable [DecidableEq UString] [LinearOrder S] {rep : AttrRep UString S} {attr : Attr UString S}

theorem nameItem_text (hattr : attr ∈ rep.attrs) :
    rep.nameItem attr.name.text = some attr.name := by
  apply findText_text
  · rw [List.map_map]
    exact rep.readable.nodup_names
  · exact mem_map_of_mem hattr

theorem valueItem_text (hattr : attr ∈ rep.attrs) {value : OntologyRepItem UString S}
    (hvalue : value ∈ attr.values) : rep.valueItem attr.name.text value.text = some value := by
  rw [valueItem, valuesIn_text rep.readable.nodup_names hattr]
  exact findText_text (rep.readable.nodup_values attr hattr) hvalue

theorem isSome_valueItem (hattr : attr ∈ rep.attrs) {text : UString} :
    (rep.valueItem attr.name.text text).isSome ↔ text ∈ attr.values.map OntologyRepItem.text := by
  rw [valueItem, valuesIn_text rep.readable.nodup_names hattr, ← Option.ne_none_iff_isSome, Ne,
    findText_eq_none_iff, not_not]

theorem allNames_single (rep : AttrRep UString S) : allNames [rep] = rep.names := by
  rw [allNames, flatMap_singleton]
  exact Nodup.dedup rep.readable.nodup_names

theorem nameItem_of_nil (name : UString) (rep : AttrRep UString S) (h : rep.attrs = []) :
    rep.nameItem name = none := by
  rw [nameItem, h]
  rfl

theorem valueItem_of_nil (name text : UString) (rep : AttrRep UString S) (h : rep.attrs = []) :
    rep.valueItem name text = none := by
  rw [valueItem, h]
  rfl

theorem allNames_live (inputs : List (AttrRep UString S)) :
    allNames (live inputs) = allNames inputs := by
  rw [allNames]
  congr 1
  induction inputs with
  | nil => rfl
  | cons rep inputs ih =>
    rw [live, filter_cons]
    cases hattrs : rep.attrs with
    | nil =>
      rw [flatMap_cons, hattrs]
      exact ih
    | cons attr attrs =>
      rw [flatMap_cons, ← ih]
      rfl

end One

section Result

variable [LinearOrder UString] [LinearOrder S] [AddCommMonoid S]
  {queue : AttrNameScoreQueue UString S} {topGroupNum : ℕ}

theorem aggregates_cut (topGroupNum : ℕ) (rep : AttrRep UString S) :
    Aggregates [rep] (rep.cut topGroupNum) := by
  have hmem {attr : Attr UString S} (hattr : attr ∈ (rep.cut topGroupNum).attrs) :
      attr ∈ rep.attrs :=
    (attrs_cut_sublist topGroupNum rep).subset hattr
  constructor
  · intro attr hattr
    exact sumsUp_single (nameItem_text (hmem hattr))
  · intro attr hattr value hvalue
    exact sumsUp_single (valueItem_text (hmem hattr) hvalue)
  · intro attr hattr text
    rw [← isSome_valueItem (hmem hattr)]
    simp only [mem_singleton, exists_eq_left]

theorem nameScore_single {rep : AttrRep UString S} {attr : Attr UString S}
    (hattr : attr ∈ rep.attrs) : nameScore [rep] attr.name.text = attr.name.score :=
  (sumsUp_single (f := nameItem attr.name.text) (nameItem_text hattr)).score.symm

/-- The first names have the greatest scores. -/
theorem retains_cut (topGroupNum : ℕ) (rep : AttrRep UString S) :
    Retains topGroupNum [rep] (rep.cut topGroupNum) := by
  have hnames : (rep.cut topGroupNum).names =
      if topGroupNum = 0 then rep.names else rep.names.take topGroupNum := by
    rw [cut]
    split
    · rfl
    · exact map_take
  constructor
  · rw [allNames_single, hnames]
    split
    · exact ⟨[], Perm.of_eq (append_nil _), nofun⟩
    · refine ⟨rep.names.drop topGroupNum, Perm.of_eq (take_append_drop _ _), ?_⟩
      intro name hname name' hname'
      have hdescend := rep.names_descend
      rw [← take_append_drop topGroupNum rep.attrs, pairwise_append] at hdescend
      rw [names, ← map_take] at hname
      rw [names, ← map_drop] at hname'
      obtain ⟨attr, hattr, rfl⟩ := mem_map.mp hname
      obtain ⟨attr', hattr', rfl⟩ := mem_map.mp hname'
      rw [nameScore_single (mem_of_mem_take hattr), nameScore_single (mem_of_mem_drop hattr')]
      exact hdescend.2.2 attr hattr attr' hattr'
  · rw [allNames_single, hnames]
    split
    · rfl
    · exact length_take

variable (inputs : List (AttrRep UString S))

theorem nameScores_live : nameScores (live inputs) = nameScores inputs := by
  have hscore (name : UString) : nameScore (live inputs) name = nameScore inputs name :=
    (sumCount_live (nameItem_of_nil name) inputs).2
  rw [nameScores, nameScores, allNames_live]
  simp only [hscore]

theorem countsFit_live_iff :
    CountsFit queue topGroupNum (live inputs) ↔ CountsFit queue topGroupNum inputs := by
  rw [CountsFit, CountsFit, keptNames, keptNames, nameScores_live]
  simp only [(sumCount_live (nameItem_of_nil _) inputs).1,
    (sumCount_live (valueItem_of_nil _ _) inputs).1]

variable {out : AttrRep UString S}

theorem aggregates_live_iff {inputs : List (AttrRep UString S)} :
    Aggregates (live inputs) out ↔ Aggregates inputs out := by
  constructor
  · intro h
    exact
      { name := fun attr hattr => (sumsUp_live_iff (nameItem_of_nil _)).mp (h.name attr hattr)
        value := fun attr hattr value hvalue =>
          (sumsUp_live_iff (valueItem_of_nil _ _)).mp (h.value attr hattr value hvalue)
        complete := fun attr hattr text =>
          (h.complete attr hattr text).trans (exists_live_iff (valueItem_of_nil _ _) inputs) }
  · intro h
    exact
      { name := fun attr hattr => (sumsUp_live_iff (nameItem_of_nil _)).mpr (h.name attr hattr)
        value := fun attr hattr value hvalue =>
          (sumsUp_live_iff (valueItem_of_nil _ _)).mpr (h.value attr hattr value hvalue)
        complete := fun attr hattr text =>
          (h.complete attr hattr text).trans (exists_live_iff (valueItem_of_nil _ _) inputs).symm }

theorem retains_of_live {inputs : List (AttrRep UString S)}
    (h : Retains topGroupNum (live inputs) out) : Retains topGroupNum inputs out := by
  have hscore (name : UString) : nameScore (live inputs) name = nameScore inputs name :=
    (sumCount_live (nameItem_of_nil name) inputs).2
  obtain ⟨⟨rest, hperm, hle⟩, hlength⟩ := h
  rw [allNames_live] at hperm hlength
  refine ⟨⟨rest, hperm, fun name hname name' hname' => ?_⟩, hlength⟩
  rw [← hscore, ← hscore]
  exact hle name hname name' hname'

section Order

variable {inputs inputs' : List (AttrRep UString S)}

omit [LinearOrder UString] in
theorem sums_perm (h : inputs.Perm inputs')
    (f : AttrRep UString S → Option (OntologyRepItem UString S)) :
    sumCount inputs f = sumCount inputs' f ∧ sumScore inputs f = sumScore inputs' f :=
  ⟨(h.map _).sum_eq, (h.map _).sum_eq⟩

theorem nameScores_perm (h : inputs.Perm inputs') : nameScores inputs = nameScores inputs' := by
  have hnames : (allNames inputs).Perm (allNames inputs') := by
    rw [perm_ext_iff_of_nodup (nodup_allNames inputs) (nodup_allNames inputs')]
    intro name
    simp only [mem_allNames, h.mem_iff]
  have hsort : (allNames inputs).insertionSort (· ≤ ·) =
      (allNames inputs').insertionSort (· ≤ ·) := by
    apply Perm.eq_of_pairwise' (r := (· ≤ ·))
    · exact pairwise_insertionSort _ _
    · exact pairwise_insertionSort _ _
    · exact ((perm_insertionSort _ _).trans hnames).trans (perm_insertionSort _ _).symm
  have hscore (name : UString) : nameScore inputs name = nameScore inputs' name :=
    (sums_perm h (nameItem name)).2
  rw [nameScores, nameScores, hsort]
  simp only [hscore]

theorem keptNames_perm (h : inputs.Perm inputs') :
    keptNames queue topGroupNum inputs = keptNames queue topGroupNum inputs' := by
  rw [keptNames, keptNames, nameScores_perm h]

omit [LinearOrder UString] in
/-- A sum is the same in any order but for the id of its item. -/
theorem map_withoutId_addAll (h : inputs.Perm inputs')
    (f : AttrRep UString S → Option (OntologyRepItem UString S)) (level : ℕ) (text : UString)
    (hf : ∀ rep item, f rep = some item → item.level = level ∧ item.text = text) :
    (addAll inputs f).map withoutId = (addAll inputs' f).map withoutId := by
  obtain ⟨hsome, hitem, hcount, hscore⟩ := addAll_spec inputs f level text fun rep _ => hf rep
  obtain ⟨hsome', hitem', hcount', hscore'⟩ := addAll_spec inputs' f level text fun rep _ => hf rep
  obtain ⟨hsumCount, hsumScore⟩ := sums_perm h f
  rw [hsumCount, ← hcount'] at hcount
  rw [hsumScore, ← hscore'] at hscore
  have hiff : (addAll inputs f).isSome ↔ (addAll inputs' f).isSome := by
    rw [hsome, hsome']
    simp only [h.mem_iff]
  cases hsum : addAll inputs f with
  | none =>
    cases hsum' : addAll inputs' f with
    | none => rfl
    | some item' =>
      rw [hsum, hsum'] at hiff
      exact absurd (hiff.mpr rfl) Bool.false_ne_true
  | some item =>
    cases hsum' : addAll inputs' f with
    | none =>
      rw [hsum, hsum'] at hiff
      exact absurd (hiff.mp rfl) Bool.false_ne_true
    | some item' =>
      rw [hsum, hsum'] at hcount hscore
      obtain ⟨hlevel, htext⟩ := hitem item hsum
      obtain ⟨hlevel', htext'⟩ := hitem' item' hsum'
      have hdoc : item.docCount = item'.docCount := hcount
      have hsc : item.score = item'.score := hscore
      rw [Option.map_some, Option.map_some, withoutId, withoutId, hlevel, hlevel', htext, htext',
        hdoc, hsc]

end Order

section Ids

open OntologyRep

omit [LinearOrder UString] [AddCommMonoid S] in
theorem map_withoutId_insertByScore (items : List (OntologyRepItem UString S))
    (item : OntologyRepItem UString S) : (insertByScore items item).map withoutId =
      insertByScore (items.map withoutId) (withoutId item) := by
  induction items with
  | nil => rfl
  | cons head items ih =>
    rw [insertByScore, insertByScore, orderedInsert_cons, map_cons, orderedInsert_cons]
    by_cases hlt : item.score < head.score
    · rw [if_pos hlt, if_pos (show (withoutId item).score < (withoutId head).score from hlt)]
      rfl
    · rw [if_neg hlt, if_neg (show ¬ (withoutId item).score < (withoutId head).score from hlt)]
      exact congrArg _ ih

omit [LinearOrder UString] [AddCommMonoid S] in
theorem map_withoutId_foldl (items scoreItemMap : List (OntologyRepItem UString S)) :
    (items.foldl insertByScore scoreItemMap).map withoutId =
      (items.map withoutId).foldl insertByScore (scoreItemMap.map withoutId) := by
  induction items generalizing scoreItemMap with
  | nil => rfl
  | cons item items ih => rw [foldl_cons, ih, map_cons, foldl_cons, map_withoutId_insertByScore]

omit [AddCommMonoid S] in
/-- The values come in the same order, whatever their ids. -/
theorem map_withoutId_sortedValues {table table' : Table UString (OntologyRepItem UString S)}
    (h : ∀ text, (table.lookup text).map withoutId = (table'.lookup text).map withoutId) :
    (sortedValues table).map withoutId = (sortedValues table').map withoutId := by
  have hkeys : table.sortedKeys = table'.sortedKeys := by
    have hset : table.keys = table'.keys := by
      ext text
      rw [Finmap.mem_keys, Finmap.mem_keys, ← Finmap.lookup_isSome, ← Finmap.lookup_isSome,
        ← Option.isSome_map (f := withoutId), h, Option.isSome_map]
    rw [Table.sortedKeys, Table.sortedKeys, hset]
  have horder (table : Table UString (OntologyRepItem UString S)) :
      (table.inOrder.map Prod.snd).map withoutId =
        table.sortedKeys.filterMap fun text => (table.lookup text).map withoutId := by
    rw [Table.inOrder, map_filterMap, map_filterMap]
    congr 1
    funext text
    cases table.lookup text <;> rfl
  rw [sortedValues, sortedValues, map_reverse, map_reverse, map_withoutId_foldl,
    map_withoutId_foldl, horder, horder, hkeys]
  simp only [h]

variable [Inhabited UString] {inputs inputs' : List (AttrRep UString S)}
  {c c' : Collected UString S}

/-- The list of several results is the same in any order but for the ids. -/
theorem map_withoutId_rebuild (h : HoldsAll inputs c) (h' : HoldsAll inputs' c')
    (hperm : inputs.Perm inputs') (itemList itemList' : List (OntologyRepItem UString S)) :
    (rebuild queue topGroupNum c itemList).map withoutId =
      (rebuild queue topGroupNum c' itemList').map withoutId := by
  have hattr (name : UString) :
      (mergedAttr c name).items.map withoutId = (mergedAttr c' name).items.map withoutId := by
    have hname : (c.nameItemMap.lookup name).map withoutId =
        (c'.nameItemMap.lookup name).map withoutId := by
      rw [h.name name, h'.name name]
      exact map_withoutId_addAll hperm (nameItem name) 0 name fun rep item => rep.nameItem_spec
    have hvalue (text : UString) :
        (((c.nvItemMap.lookup name).getD ∅).lookup text).map withoutId =
          (((c'.nvItemMap.lookup name).getD ∅).lookup text).map withoutId := by
      rw [h.lookup_value, h'.lookup_value]
      exact map_withoutId_addAll hperm (valueItem name text) 1 text
        fun rep item => rep.valueItem_spec
    rw [Attr.items, Attr.items, map_cons, map_cons, mergedAttr, mergedAttr]
    rw [map_withoutId_sortedValues hvalue, ← Option.getD_map withoutId,
      ← Option.getD_map withoutId, hname]
  rw [rebuild_eq, rebuild_eq, h.topNames_eq, h'.topNames_eq, keptNames_perm hperm,
    map_flatMap, map_flatMap, flatMap_map, flatMap_map]
  simp only [hattr]

end Ids

section Merging

open OntologyRep

variable [Inhabited UString] {receiver : AttrRep UString S} {others : List (AttrRep UString S)}

theorem merge_of_live_nil (h : live (receiver :: others) = []) :
    merge queue topGroupNum receiver.itemList (others.map itemList) = some [] := by
  rw [merge, takeFirst_itemList, h]
  simp only [map_nil, headD_nil, tail_nil, cutTop, length_nil, Nat.zero_le, or_true, if_true]

theorem merge_of_live_singleton {rep : AttrRep UString S} (h : live (receiver :: others) = [rep]) :
    merge queue topGroupNum receiver.itemList (others.map itemList) =
      some (rep.cut topGroupNum).itemList := by
  rw [merge, takeFirst_itemList, h, ← itemList_cut]
  rfl

theorem merge_of_live_cons (queue : AttrNameScoreQueue UString S) (topGroupNum : ℕ)
    {rep rep' : AttrRep UString S} {rest : List (AttrRep UString S)}
    (h : live (receiver :: others) = rep :: rep' :: rest) : ∃ c, HoldsAll (rep :: rep' :: rest) c ∧
      merge queue topGroupNum receiver.itemList (others.map itemList) =
        some (rebuild queue topGroupNum c rep.itemList) := by
  obtain ⟨c, hread, hholds⟩ := exists_collected rep (rep' :: rest)
  obtain ⟨c₀, hown, hothers⟩ := Option.bind_eq_some_iff.mp hread
  refine ⟨c, hholds, ?_⟩
  rw [merge, takeFirst_itemList, h]
  simp only [map_cons, headD_cons, tail_cons]
  rw [hown, Option.bind_some, ← map_cons, hothers, Option.map_some]

/-- Any order of the results gives the list of one order but for the ids. -/
theorem merge_perm {receiver' : AttrRep UString S} {others' : List (AttrRep UString S)}
    (h : (receiver' :: others').Perm (receiver :: others)) :
    (merge queue topGroupNum receiver'.itemList (others'.map itemList)).map (List.map withoutId) =
      (merge queue topGroupNum receiver.itemList (others.map itemList)).map
        (List.map withoutId) := by
  have hlive : (live (receiver' :: others')).Perm (live (receiver :: others)) := h.filter _
  rcases hinputs : live (receiver :: others) with _ | ⟨rep, _ | ⟨rep', rest⟩⟩
  · rw [hinputs] at hlive
    rw [merge_of_live_nil hinputs, merge_of_live_nil hlive.eq_nil]
  · rw [hinputs, perm_singleton] at hlive
    rw [merge_of_live_singleton hinputs, merge_of_live_singleton hlive]
  · obtain ⟨c, hholds, hmerge⟩ := merge_of_live_cons queue topGroupNum hinputs
    rw [hinputs] at hlive
    have hlength := hlive.length_eq
    rcases hinputs' : live (receiver' :: others') with _ | ⟨rep₁, _ | ⟨rep₂, rest'⟩⟩
    · rw [hinputs'] at hlength
      simp at hlength
    · rw [hinputs'] at hlength
      simp at hlength
    · obtain ⟨c', hholds', hmerge'⟩ := merge_of_live_cons queue topGroupNum hinputs'
      rw [hinputs'] at hlive
      rw [hmerge, hmerge', Option.map_some, Option.map_some,
        map_withoutId_rebuild hholds' hholds hlive]

omit [Inhabited UString] in
theorem countsFit_of_length_le (hlive : (live (receiver :: others)).length ≤ 1) :
    CountsFit queue topGroupNum (receiver :: others) := by
  rw [← countsFit_live_iff]
  have hsum (f : AttrRep UString S → Option (OntologyRepItem UString S)) :
      sumCount (live (receiver :: others)) f < 2 ^ 32 := by
    rcases hinputs : live (receiver :: others) with _ | ⟨rep, _ | ⟨rep', rest⟩⟩
    · exact Nat.two_pow_pos 32
    · rw [sumCount, map_singleton, sum_singleton]
      cases f rep with
      | none => exact Nat.two_pow_pos 32
      | some item => exact item.docCount.toNat_lt
    · rw [hinputs] at hlive
      simp at hlive
  intro name _
  exact ⟨hsum _, fun text => hsum _⟩

/-- There is a result with the names of greatest score, and its sums are right exactly when the
counts fit. -/
theorem exists_merge (hqueue : KeepsLargest queue) (topGroupNum : ℕ)
    (receiver : AttrRep UString S) (others : List (AttrRep UString S)) : ∃ out : AttrRep UString S,
      merge queue topGroupNum receiver.itemList (others.map itemList) = some out.itemList ∧
      Retains topGroupNum (receiver :: others) out ∧ (Aggregates (receiver :: others) out ↔
        CountsFit queue topGroupNum (receiver :: others)) := by
  rcases hinputs : live (receiver :: others) with _ | ⟨rep, _ | ⟨rep', rest⟩⟩
  · -- no result has names
    have hnil : allNames (receiver :: others) = [] := by
      rw [← allNames_live, hinputs]
      rfl
    refine ⟨⟨[], ⟨by simp, by simp, nodup_nil, by simp⟩, List.Pairwise.nil, by simp⟩,
      merge_of_live_nil hinputs, ⟨⟨[], ?_, nofun⟩, ?_⟩, ?_⟩
    · rw [hnil]
      exact Perm.refl _
    · rw [hnil]
      simp [names]
    · refine iff_of_true ⟨by simp, by simp, by simp⟩ (countsFit_of_length_le ?_)
      rw [hinputs]
      exact Nat.zero_le 1
  · refine ⟨rep.cut topGroupNum, merge_of_live_singleton hinputs, ?_, ?_⟩
    · apply retains_of_live
      rw [hinputs]
      exact retains_cut topGroupNum rep
    · refine iff_of_true ?_ (countsFit_of_length_le ?_)
      · rw [← aggregates_live_iff, hinputs]
        exact aggregates_cut topGroupNum rep
      · rw [hinputs]
        exact Nat.le_refl 1
  · obtain ⟨c, hholds, hmerge⟩ := merge_of_live_cons queue topGroupNum hinputs
    refine ⟨mergedRep hqueue topGroupNum hholds, ?_, ?_, ?_⟩
    · rw [hmerge, itemList_mergedRep hqueue hholds rep.itemList]
    · apply retains_of_live
      rw [hinputs]
      exact retains_mergedRep hqueue hholds
    · rw [← aggregates_live_iff, ← countsFit_live_iff, hinputs]
      exact aggregates_mergedRep_iff hqueue hholds

theorem aggregates_iff_of_merge (hqueue : KeepsLargest queue) {out : AttrRep UString S}
    (h : merge queue topGroupNum receiver.itemList (others.map itemList) = some out.itemList) :
    Aggregates (receiver :: others) out ↔ CountsFit queue topGroupNum (receiver :: others) := by
  obtain ⟨out', hmerge, _, hiff⟩ := exists_merge hqueue topGroupNum receiver others
  have hsame : out'.itemList = out.itemList := Option.some.inj (hmerge.symm.trans h)
  rw [← itemList_injective hsame]
  exact hiff

/-- Results are merged in every order to the same names of greatest score, with all of their
values, and with the sums of all counts exactly when these fit. -/
theorem merges_iff_countsFit (hqueue : KeepsLargest queue) (topGroupNum : ℕ)
    (receiver : AttrRep UString S) (others : List (AttrRep UString S)) :
    Merges queue topGroupNum receiver others ↔
      CountsFit queue topGroupNum (receiver :: others) := by
  constructor
  · rintro ⟨out, hmerge, hsums, _⟩
    exact (aggregates_iff_of_merge hqueue hmerge).mp hsums
  · intro hfit
    obtain ⟨out, hmerge, hretains, hiff⟩ := exists_merge hqueue topGroupNum receiver others
    refine ⟨out, hmerge, hiff.mpr hfit, hretains, fun receiver' others' hperm => ?_⟩
    rw [merge_perm hperm, hmerge, Option.map_some]

end Merging

end Result

/-- A queue that sorts what it is given. -/
def sortedQueue : AttrNameScoreQueue String ℕ := fun size names =>
  ((names.insertionSort fun a b => b.2 ≤ a.2).take size).reverse

theorem keepsLargest_sortedQueue : KeepsLargest sortedQueue := by
  have hsorted (names : List (String × ℕ)) :=
    pairwise_insertionSort (fun a b => b.2 ≤ a.2) names
  have hperm (names : List (String × ℕ)) :=
    perm_insertionSort (fun a b => b.2 ≤ a.2) names
  constructor
  · intro size names
    refine ⟨(names.insertionSort fun a b => b.2 ≤ a.2).drop size, ?_, fun a ha b hb => ?_⟩
    · refine ((reverse_perm _).append_right _).trans ?_
      rw [take_append_drop]
      exact hperm names
    · have hpair := hsorted names
      rw [← take_append_drop size (names.insertionSort fun a b => b.2 ≤ a.2),
        pairwise_append] at hpair
      exact hpair.2.2 a (mem_reverse.mp ha) b hb
  · intro size names
    rw [sortedQueue, length_reverse, length_take, (hperm names).length_eq]
  · intro size names
    rw [sortedQueue, pairwise_reverse]
    exact (hsorted names).sublist (take_sublist _ _)

/-- A result with one value of one name, both with the same count. -/
def brandRep (value : String) (docCount : UInt32) (score : ℕ) : AttrRep String ℕ where
  attrs := [⟨⟨0, "Brand", 0, docCount, score⟩, [⟨1, value, 0, docCount, score⟩]⟩]
  readable := ⟨by simp, by simp, nodup_singleton _, by simp⟩
  names_descend := pairwise_singleton _ _
  values_descend := by simp

theorem merges_brands : Merges sortedQueue 1 (brandRep "acme" 2 2) [brandRep "zeta" 3 3] := by
  refine (merges_iff_countsFit keepsLargest_sortedQueue 1 _ _).mpr fun name _ => ?_
  have hnil (name : String) : valuesIn ([] : List (Attr String ℕ)) name = [] := rfl
  constructor
  · simp only [sumCount, nameItem, brandRep, map_cons, map_nil, findText_cons, findText_nil]
    split <;> decide
  · intro text
    simp only [sumCount, valueItem, valuesIn_cons, hnil, brandRep, map_cons, map_nil]
    split
    · simp only [findText_cons, findText_nil]
      split_ifs <;> decide
    · simp only [findText_nil]
      decide

/-- The count of the name is lost. -/
theorem not_merges_full_brands :
    ¬ Merges sortedQueue 0 (brandRep "acme" (2 ^ 31) 1) [brandRep "acme" (2 ^ 31) 1] := by
  rintro ⟨out, hmerge, hsums, _⟩
  have hfit := (aggregates_iff_of_merge keepsLargest_sortedQueue hmerge).mp hsums "Brand"
    (by decide)
  exact absurd hfit.1 (by decide)

end AttrRep

end AdDelivery.GroupManager
