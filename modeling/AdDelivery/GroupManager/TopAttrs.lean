import AdDelivery.GroupManager.AttrMerge

/-!
# The attributes of a merged result

The names of greatest score are written over the old list, each with its values in descending
order. Only texts and scores decide which names are kept, so the counts do not matter for it.
-/

namespace AdDelivery.GroupManager

open List

variable {UString S : Type}

namespace OntologyRep

section Values

variable [LinearOrder S]

theorem perm_foldl_insertByScore (items scoreItemMap : List (OntologyRepItem UString S)) :
    (items.foldl insertByScore scoreItemMap).Perm (scoreItemMap ++ items) := by
  induction items generalizing scoreItemMap with
  | nil => rw [append_nil]; exact Perm.refl _
  | cons item items ih =>
    refine (ih _).trans ?_
    refine ((perm_orderedInsert _ item scoreItemMap).append_right items).trans ?_
    exact perm_middle.symm

variable {scoreItemMap : List (OntologyRepItem UString S)}

theorem pairwise_insertByScore (h : scoreItemMap.Pairwise fun a b => a.score ≤ b.score)
    (item : OntologyRepItem UString S) :
    (insertByScore scoreItemMap item).Pairwise fun a b => a.score ≤ b.score := by
  induction scoreItemMap with
  | nil => exact pairwise_singleton _ _
  | cons head items ih =>
    obtain ⟨hhead, hitems⟩ := pairwise_cons.mp h
    rw [insertByScore, orderedInsert_cons]
    split
    · rename_i hlt
      refine pairwise_cons.mpr ⟨fun item' hitem' => ?_, h⟩
      rcases mem_cons.mp hitem' with rfl | hitem'
      · exact hlt.le
      · exact hlt.le.trans (hhead item' hitem')
    · rename_i hge
      refine pairwise_cons.mpr ⟨fun item' hitem' => ?_, ih hitems⟩
      rcases mem_cons.mp ((perm_orderedInsert _ item items).mem_iff.mp hitem') with
        rfl | hitem'
      · exact not_lt.mp hge
      · exact hhead item' hitem'

theorem pairwise_foldl_insertByScore (items : List (OntologyRepItem UString S))
    (h : scoreItemMap.Pairwise fun a b => a.score ≤ b.score) :
    (items.foldl insertByScore scoreItemMap).Pairwise fun a b => a.score ≤ b.score := by
  induction items generalizing scoreItemMap with
  | nil => exact h
  | cons item items ih => exact ih (pairwise_insertByScore h item)

variable [LinearOrder UString] (table : Table UString (OntologyRepItem UString S))

theorem perm_sortedValues : (sortedValues table).Perm (table.inOrder.map Prod.snd) :=
  (reverse_perm _).trans (perm_foldl_insertByScore _ _)

theorem pairwise_sortedValues : (sortedValues table).Pairwise fun a b => b.score ≤ a.score :=
  pairwise_reverse.mpr (pairwise_foldl_insertByScore _ List.Pairwise.nil)

theorem mem_sortedValues {table : Table UString (OntologyRepItem UString S)}
    {item : OntologyRepItem UString S} :
    item ∈ sortedValues table ↔ ∃ text, table.lookup text = some item := by
  rw [(perm_sortedValues table).mem_iff, mem_map]
  constructor
  · rintro ⟨⟨text, item⟩, hentry, rfl⟩
    exact ⟨text, Table.mem_inOrder.mp hentry⟩
  · rintro ⟨text, hlookup⟩
    exact ⟨(text, item), Table.mem_inOrder.mpr hlookup, rfl⟩

/-- Where every item is kept under its text, the texts differ. -/
theorem nodup_sortedValues {table : Table UString (OntologyRepItem UString S)}
    (h : ∀ text item, table.lookup text = some item → item.text = text) :
    ((sortedValues table).map OntologyRepItem.text).Nodup := by
  have hkeys : (table.inOrder.map Prod.snd).map OntologyRepItem.text =
      table.inOrder.map Prod.fst := by
    rw [List.map_map]
    apply map_congr_left
    rintro ⟨text, item⟩ hentry
    exact h text item (Table.mem_inOrder.mp hentry)
  rw [((perm_sortedValues table).map _).nodup_iff, hkeys]
  exact table.pairwise_inOrder.imp ne_of_lt

end Values

theorem written_foldl_put (items : List (OntologyRepItem UString S)) (r : Rewrite UString S) :
    (items.foldl Rewrite.put r).written = r.written ++ items := by
  induction items generalizing r with
  | nil => exact (append_nil _).symm
  | cons item items ih =>
    rw [foldl_cons, ih, Rewrite.put, append_assoc]
    rfl

section Rebuild

variable [LinearOrder UString] [LinearOrder S] [Inhabited UString] [Zero S]

/-- A name of the new list. -/
def mergedAttr (c : Collected UString S) (name : UString) : Attr UString S where
  name := (c.nameItemMap.lookup name).getD default
  values := sortedValues ((c.nvItemMap.lookup name).getD ∅)

theorem rebuild_eq (queue : AttrNameScoreQueue UString S) (topGroupNum : ℕ)
    (c : Collected UString S) (itemList : List (OntologyRepItem UString S)) :
    rebuild queue topGroupNum c itemList =
      ((topNames queue topGroupNum c.nameItemMap).map (mergedAttr c)).flatMap Attr.items := by
  have hwritten (names : List UString) (r : Rewrite UString S) :
      (names.foldl (fun r name =>
          (sortedValues ((c.nvItemMap.lookup name).getD ∅)).foldl Rewrite.put
            (r.put ((c.nameItemMap.lookup name).getD default))) r).written =
        r.written ++ (names.map (mergedAttr c)).flatMap Attr.items := by
    induction names generalizing r with
    | nil => exact (append_nil _).symm
    | cons name names ih =>
      rw [foldl_cons, ih, written_foldl_put, Rewrite.put, map_cons, append_assoc, append_assoc]
      rfl
  exact hwritten _ _

end Rebuild

end OntologyRep

namespace AttrRep

section Specification

variable [LinearOrder UString] [LinearOrder S] [AddCommMonoid S]
  (queue : OntologyRep.AttrNameScoreQueue UString S) (topGroupNum : ℕ)
  (inputs : List (AttrRep UString S))

def names (rep : AttrRep UString S) : List UString := rep.attrs.map fun attr => attr.name.text

def nameScore (name : UString) : S := sumScore inputs (nameItem name)

/-- An item has the sums of the counts and of the scores. -/
structure SumsUp (f : AttrRep UString S → Option (OntologyRepItem UString S))
    (item : OntologyRepItem UString S) : Prop where
  docCount : item.docCount.toNat = sumCount inputs f
  score : item.score = sumScore inputs f

/-- Every name and every value has its sums, and no value of a name is missing. -/
structure Aggregates (out : AttrRep UString S) : Prop where
  name : ∀ attr ∈ out.attrs, SumsUp inputs (nameItem attr.name.text) attr.name
  value : ∀ attr ∈ out.attrs, ∀ value ∈ attr.values,
    SumsUp inputs (valueItem attr.name.text value.text) value
  complete : ∀ attr ∈ out.attrs, ∀ text,
    text ∈ attr.values.map OntologyRepItem.text ↔
      ∃ rep ∈ inputs, (rep.valueItem attr.name.text text).isSome

/-- The names of greatest summed score are kept, all of them if no number is given. -/
structure Retains (out : AttrRep UString S) : Prop where
  exists_rest : ∃ rest, (out.names ++ rest).Perm (allNames inputs) ∧
    ∀ name ∈ out.names, ∀ name' ∈ rest, nameScore inputs name' ≤ nameScore inputs name
  length : out.names.length =
    if topGroupNum = 0 then (allNames inputs).length else min topGroupNum (allNames inputs).length

/-- The names with their scores, in the order of the names. -/
def nameScores : List (UString × S) :=
  ((allNames inputs).insertionSort (· ≤ ·)).map fun name => (name, nameScore inputs name)

/-- The names that a queue keeps, by their scores. -/
def keptNames : List UString :=
  (queue (if topGroupNum = 0 then (nameScores inputs).length else topGroupNum)
    (nameScores inputs)).reverse.map Prod.fst

/-- The counts of the names that are kept, and of their values, have sums below `2 ^ 32`. -/
def CountsFit : Prop :=
  ∀ name ∈ keptNames queue topGroupNum inputs,
    sumCount inputs (nameItem name) < 2 ^ 32 ∧
      ∀ text, sumCount inputs (valueItem name text) < 2 ^ 32

variable [Inhabited UString]

/-- The ids of items are carried along. -/
def withoutId (item : OntologyRepItem UString S) : OntologyRepItem UString S :=
  { item with id := 0 }

/-- Merging gives a result with all sums and with the greatest names, and the same one whatever the
order of the results is, and whichever is the receiver. -/
def Merges (receiver : AttrRep UString S) (others : List (AttrRep UString S)) : Prop :=
  ∃ out : AttrRep UString S,
    OntologyRep.merge queue topGroupNum receiver.itemList (others.map itemList) =
      some out.itemList ∧
    Aggregates (receiver :: others) out ∧ Retains topGroupNum (receiver :: others) out ∧
    ∀ receiver' others', (receiver' :: others').Perm (receiver :: others) →
      (OntologyRep.merge queue topGroupNum receiver'.itemList (others'.map itemList)).map
        (List.map withoutId) = some (out.itemList.map withoutId)

end Specification

section Several

variable [LinearOrder UString] [LinearOrder S] [AddCommMonoid S]
  {queue : OntologyRep.AttrNameScoreQueue UString S} {topGroupNum : ℕ}
  {inputs : List (AttrRep UString S)}

open OntologyRep

/-- The maps hold the sums over the results. -/
def HoldsAll (inputs : List (AttrRep UString S)) (c : Collected UString S) : Prop :=
  c.Holds (fun name => addAll inputs (nameItem name))
    (fun name text => addAll inputs (valueItem name text))

variable {c : Collected UString S}

section

variable (h : HoldsAll inputs c)
include h

theorem HoldsAll.name_spec (name : UString) :
    ((c.nameItemMap.lookup name).isSome ↔ name ∈ allNames inputs) ∧
      ∀ item, c.nameItemMap.lookup name = some item → item.level = 0 ∧ item.text = name ∧
        item.docCount = UInt32.ofNat (sumCount inputs (nameItem name)) ∧
        item.score = nameScore inputs name := by
  obtain ⟨hsome, hitem, hcount, hscore⟩ :=
    addAll_spec inputs (nameItem name) 0 name fun rep _ item => rep.nameItem_spec
  rw [h.name name, mem_allNames]
  refine ⟨hsome, fun item hlookup => ?_⟩
  obtain ⟨hlevel, htext⟩ := hitem item hlookup
  rw [hlookup] at hcount hscore
  exact ⟨hlevel, htext, hcount, hscore⟩

theorem HoldsAll.lookup_value (name text : UString) :
    ((c.nvItemMap.lookup name).getD ∅).lookup text = addAll inputs (valueItem name text) := by
  rw [← h.value name text]
  cases c.nvItemMap.lookup name with
  | none => exact Finmap.lookup_empty text
  | some table => rfl

theorem HoldsAll.value_spec (name text : UString) :
    ((((c.nvItemMap.lookup name).getD ∅).lookup text).isSome ↔
        ∃ rep ∈ inputs, (rep.valueItem name text).isSome) ∧
      ∀ item, ((c.nvItemMap.lookup name).getD ∅).lookup text = some item →
        item.level = 1 ∧ item.text = text ∧
        item.docCount = UInt32.ofNat (sumCount inputs (valueItem name text)) ∧
        item.score = sumScore inputs (valueItem name text) := by
  obtain ⟨hsome, hitem, hcount, hscore⟩ :=
    addAll_spec inputs (valueItem name text) 1 text fun rep _ item => rep.valueItem_spec
  rw [h.lookup_value]
  refine ⟨hsome, fun item hlookup => ?_⟩
  obtain ⟨hlevel, htext⟩ := hitem item hlookup
  rw [hlookup] at hcount hscore
  exact ⟨hlevel, htext, hcount, hscore⟩

/-- The queue is given the names with their summed scores. -/
theorem HoldsAll.inOrder_eq :
    (c.nameItemMap.inOrder.map fun entry => (entry.2.text, entry.2.score)) = nameScores inputs := by
  have hkeys : c.nameItemMap.inOrder.map Prod.fst =
      (allNames inputs).insertionSort (· ≤ ·) := by
    apply Perm.eq_of_pairwise' (r := (· ≤ ·))
    · exact c.nameItemMap.pairwise_inOrder.imp le_of_lt
    · exact pairwise_insertionSort _ _
    · refine List.Perm.trans ?_ (perm_insertionSort _ _).symm
      rw [perm_ext_iff_of_nodup (c.nameItemMap.pairwise_inOrder.imp ne_of_lt)
        (nodup_allNames inputs)]
      intro name
      rw [← (h.name_spec name).1, mem_map, Option.isSome_iff_exists]
      constructor
      · rintro ⟨⟨name, item⟩, hentry, rfl⟩
        exact ⟨item, Table.mem_inOrder.mp hentry⟩
      · rintro ⟨item, hlookup⟩
        exact ⟨(name, item), Table.mem_inOrder.mpr hlookup, rfl⟩
  rw [nameScores, ← hkeys, List.map_map]
  apply map_congr_left
  rintro ⟨name, item⟩ hentry
  obtain ⟨_, htext, _, hscore⟩ := (h.name_spec name).2 item (Table.mem_inOrder.mp hentry)
  exact Prod.ext htext hscore

theorem HoldsAll.topNames_eq :
    topNames queue topGroupNum c.nameItemMap = keptNames queue topGroupNum inputs := by
  have hlength : c.nameItemMap.inOrder.length = (nameScores inputs).length := by
    rw [← h.inOrder_eq, List.length_map]
  rw [topNames, keptNames, h.inOrder_eq, hlength]

end

theorem perm_map_fst_nameScores : ((nameScores inputs).map Prod.fst).Perm (allNames inputs) := by
  rw [nameScores, List.map_map]
  exact (Perm.of_eq (map_id _)).trans (perm_insertionSort _ _)

theorem length_nameScores : (nameScores inputs).length = (allNames inputs).length := by
  rw [nameScores, List.length_map, length_insertionSort]

theorem snd_of_mem_nameScores {entry : UString × S} (h : entry ∈ nameScores inputs) :
    entry.2 = nameScore inputs entry.1 := by
  obtain ⟨name, _, rfl⟩ := mem_map.mp h
  rfl

/-- What is kept has the greatest scores. -/
theorem exists_rest_keptNames (topGroupNum : ℕ) (inputs : List (AttrRep UString S))
    (hqueue : KeepsLargest queue) :
    ∃ rest, (keptNames queue topGroupNum inputs ++ rest).Perm (allNames inputs) ∧
      ∀ name ∈ keptNames queue topGroupNum inputs, ∀ name' ∈ rest,
        nameScore inputs name' ≤ nameScore inputs name := by
  obtain ⟨rest, hperm, hle⟩ := hqueue.exists_rest
    (if topGroupNum = 0 then (nameScores inputs).length else topGroupNum) (nameScores inputs)
  refine ⟨rest.map Prod.fst, ?_, fun name hname name' hname' => ?_⟩
  · rw [keptNames, ← map_append]
    exact ((((reverse_perm _).append_right rest).trans hperm).map Prod.fst).trans
      perm_map_fst_nameScores
  · obtain ⟨entry, hentry, rfl⟩ := mem_map.mp hname
    obtain ⟨entry', hentry', rfl⟩ := mem_map.mp hname'
    rw [mem_reverse] at hentry
    have hmem := hperm.mem_iff.mp (mem_append_left _ hentry)
    have hmem' := hperm.mem_iff.mp (mem_append_right _ hentry')
    rw [← snd_of_mem_nameScores hmem, ← snd_of_mem_nameScores hmem']
    exact hle entry hentry entry' hentry'

theorem length_keptNames (hqueue : KeepsLargest queue) :
    (keptNames queue topGroupNum inputs).length =
      if topGroupNum = 0 then (allNames inputs).length
      else min topGroupNum (allNames inputs).length := by
  rw [keptNames, List.length_map, length_reverse, hqueue.length, length_nameScores]
  split
  · exact Nat.min_self _
  · rfl

theorem nodup_keptNames (hqueue : KeepsLargest queue) :
    (keptNames queue topGroupNum inputs).Nodup := by
  obtain ⟨rest, hperm, _⟩ := exists_rest_keptNames topGroupNum inputs hqueue
  exact (nodup_append.mp (hperm.nodup_iff.mpr (nodup_allNames inputs))).1

variable {name : UString}

theorem mem_allNames_of_mem_keptNames (hqueue : KeepsLargest queue)
    (h : name ∈ keptNames queue topGroupNum inputs) : name ∈ allNames inputs := by
  obtain ⟨rest, hperm, _⟩ := exists_rest_keptNames topGroupNum inputs hqueue
  exact hperm.mem_iff.mp (mem_append_left _ h)

theorem pairwise_keptNames (hqueue : KeepsLargest queue) :
    (keptNames queue topGroupNum inputs).Pairwise fun name name' =>
      nameScore inputs name' ≤ nameScore inputs name := by
  obtain ⟨rest, hperm, _⟩ := hqueue.exists_rest
    (if topGroupNum = 0 then (nameScores inputs).length else topGroupNum) (nameScores inputs)
  rw [keptNames, pairwise_map, pairwise_reverse]
  refine (hqueue.ascending _ _).imp_of_mem fun {entry entry'} hentry hentry' hle => ?_
  rw [← snd_of_mem_nameScores (hperm.mem_iff.mp (mem_append_left _ hentry)),
    ← snd_of_mem_nameScores (hperm.mem_iff.mp (mem_append_left _ hentry'))]
  exact hle

variable [Inhabited UString]

section

variable (h : HoldsAll inputs c)
include h

/-- A name that is kept has its item. -/
theorem HoldsAll.mergedAttr_name (hname : name ∈ allNames inputs) :
    c.nameItemMap.lookup name = some (mergedAttr c name).name := by
  obtain ⟨item, hitem⟩ := Option.isSome_iff_exists.mp ((h.name_spec name).1.mpr hname)
  rw [mergedAttr, hitem]
  rfl

/-- A kept name has the sums over the results. -/
theorem HoldsAll.mergedAttr_name_spec (hqueue : KeepsLargest queue)
    (hname : name ∈ keptNames queue topGroupNum inputs) :
    (mergedAttr c name).name.level = 0 ∧ (mergedAttr c name).name.text = name ∧
      (mergedAttr c name).name.docCount = UInt32.ofNat (sumCount inputs (nameItem name)) ∧
      (mergedAttr c name).name.score = nameScore inputs name := by
  have hitem := h.mergedAttr_name (mem_allNames_of_mem_keptNames hqueue hname)
  exact (h.name_spec name).2 _ hitem

theorem HoldsAll.map_mergedAttr_text (hqueue : KeepsLargest queue) :
    (keptNames queue topGroupNum inputs).map (fun name => (mergedAttr c name).name.text) =
      keptNames queue topGroupNum inputs := by
  conv_rhs => rw [← map_id (keptNames queue topGroupNum inputs)]
  apply map_congr_left
  intro name hname
  exact (h.mergedAttr_name_spec hqueue hname).2.1

/-- So do the values of a name. -/
theorem HoldsAll.mergedAttr_value_spec {value : OntologyRepItem UString S}
    (hvalue : value ∈ (mergedAttr c name).values) : value.level = 1 ∧
      value.docCount = UInt32.ofNat (sumCount inputs (valueItem name value.text)) ∧
      value.score = sumScore inputs (valueItem name value.text) := by
  obtain ⟨text, hlookup⟩ := mem_sortedValues.mp hvalue
  obtain ⟨hlevel, htext, hspec⟩ := (h.value_spec name text).2 value hlookup
  rw [htext]
  exact ⟨hlevel, hspec⟩

theorem HoldsAll.mem_mergedAttr_values_iff (name text : UString) :
    text ∈ (mergedAttr c name).values.map OntologyRepItem.text ↔
      ∃ rep ∈ inputs, (rep.valueItem name text).isSome := by
  rw [← (h.value_spec name text).1, mem_map, Option.isSome_iff_exists]
  constructor
  · rintro ⟨value, hmem, rfl⟩
    obtain ⟨text, hlookup⟩ := mem_sortedValues.mp hmem
    rw [((h.value_spec name text).2 value hlookup).2.1]
    exact ⟨value, hlookup⟩
  · rintro ⟨value, hlookup⟩
    exact ⟨value, mem_sortedValues.mpr ⟨text, hlookup⟩,
      ((h.value_spec name text).2 value hlookup).2.1⟩

end

/-- The result of several inputs. -/
def mergedRep (hqueue : KeepsLargest queue) (topGroupNum : ℕ) (h : HoldsAll inputs c) :
    AttrRep UString S where
  attrs := (keptNames queue topGroupNum inputs).map (mergedAttr c)
  readable :=
    { level_name := by
        intro attr hattr
        obtain ⟨name, hname, rfl⟩ := mem_map.mp hattr
        exact (h.mergedAttr_name_spec hqueue hname).1
      level_value := by
        intro attr hattr value hvalue
        obtain ⟨name, _, rfl⟩ := mem_map.mp hattr
        exact (h.mergedAttr_value_spec hvalue).1
      nodup_names := by
        have hnames : (keptNames queue topGroupNum inputs).map
            (fun name => (mergedAttr c name).name.text) = keptNames queue topGroupNum inputs :=
          h.map_mergedAttr_text hqueue
        rw [List.map_map]
        exact hnames.symm ▸ nodup_keptNames hqueue
      nodup_values := by
        intro attr hattr
        obtain ⟨name, _, rfl⟩ := mem_map.mp hattr
        exact nodup_sortedValues fun text item hlookup =>
          ((h.value_spec name text).2 item hlookup).2.1 }
  names_descend := by
    rw [pairwise_map]
    refine (pairwise_keptNames hqueue).imp_of_mem fun {name name'} hname hname' hle => ?_
    obtain ⟨_, _, _, hscore⟩ := h.mergedAttr_name_spec hqueue hname
    obtain ⟨_, _, _, hscore'⟩ := h.mergedAttr_name_spec hqueue hname'
    rw [hscore, hscore']
    exact hle
  values_descend := by
    intro attr hattr
    obtain ⟨name, _, rfl⟩ := mem_map.mp hattr
    exact pairwise_sortedValues _

variable (hqueue : KeepsLargest queue) (h : HoldsAll inputs c)

theorem names_mergedRep :
    (mergedRep hqueue topGroupNum h).names = keptNames queue topGroupNum inputs := by
  rw [names, mergedRep, List.map_map]
  exact h.map_mergedAttr_text hqueue

theorem itemList_mergedRep (itemList : List (OntologyRepItem UString S)) :
    (mergedRep hqueue topGroupNum h).itemList = rebuild queue topGroupNum c itemList := by
  rw [rebuild_eq, h.topNames_eq]
  rfl

theorem retains_mergedRep : Retains topGroupNum inputs (mergedRep hqueue topGroupNum h) := by
  constructor
  · rw [names_mergedRep]
    exact exists_rest_keptNames topGroupNum inputs hqueue
  · rw [names_mergedRep]
    exact length_keptNames hqueue

theorem toNat_ofNat_eq_iff (n : ℕ) : (UInt32.ofNat n).toNat = n ↔ n < 2 ^ 32 := by
  exact Nat.mod_eq_iff_lt (by decide)

omit [LinearOrder UString] [AddCommMonoid S] [Inhabited UString] in
theorem sumCount_eq_zero {f : AttrRep UString S → Option (OntologyRepItem UString S)}
    (h : ∀ rep ∈ inputs, f rep = none) : sumCount inputs f = 0 := by
  rw [sumCount, sum_eq_zero_iff]
  intro n hn
  obtain ⟨rep, hrep, rfl⟩ := mem_map.mp hn
  rw [h rep hrep]
  rfl

/-- Right sums of the counts fit. -/
theorem countsFit_of_aggregates (hsums : Aggregates inputs (mergedRep hqueue topGroupNum h)) :
    CountsFit queue topGroupNum inputs := by
  intro name hname
  have hmem : mergedAttr c name ∈ (mergedRep hqueue topGroupNum h).attrs :=
    mem_map_of_mem hname
  obtain ⟨_, htext, hcount, _⟩ := h.mergedAttr_name_spec hqueue hname
  have hname' := (hsums.name _ hmem).docCount
  rw [htext, hcount, toNat_ofNat_eq_iff] at hname'
  refine ⟨hname', fun text => ?_⟩
  by_cases hsome : ∃ rep ∈ inputs, (rep.valueItem name text).isSome
  · obtain ⟨value, hvalue, rfl⟩ :=
      mem_map.mp ((h.mem_mergedAttr_values_iff name text).mpr hsome)
    have hsum := (hsums.value _ hmem value hvalue).docCount
    rw [htext, (h.mergedAttr_value_spec hvalue).2.1, toNat_ofNat_eq_iff] at hsum
    exact hsum
  · have hzero : sumCount inputs (valueItem name text) = 0 := by
      refine sumCount_eq_zero fun rep hrep => ?_
      by_contra hne
      exact hsome ⟨rep, hrep, Option.ne_none_iff_isSome.mp hne⟩
    rw [hzero]
    decide

/-- The sums of the counts are right as long as they fit. -/
theorem aggregates_mergedRep_iff :
    Aggregates inputs (mergedRep hqueue topGroupNum h) ↔ CountsFit queue topGroupNum inputs := by
  constructor
  · exact countsFit_of_aggregates hqueue h
  · intro hfit
    constructor
    · intro attr hmem
      obtain ⟨name, hname, rfl⟩ := mem_map.mp hmem
      obtain ⟨_, htext, hcount, hscore⟩ := h.mergedAttr_name_spec hqueue hname
      rw [htext]
      refine ⟨?_, hscore⟩
      rw [hcount]
      exact (toNat_ofNat_eq_iff _).mpr (hfit name hname).1
    · intro attr hmem value hvalue
      obtain ⟨name, hname, rfl⟩ := mem_map.mp hmem
      obtain ⟨_, hcount, hscore⟩ := h.mergedAttr_value_spec hvalue
      rw [(h.mergedAttr_name_spec hqueue hname).2.1]
      refine ⟨?_, hscore⟩
      rw [hcount]
      exact (toNat_ofNat_eq_iff _).mpr ((hfit name hname).2 value.text)
    · intro attr hmem text
      obtain ⟨name, hname, rfl⟩ := mem_map.mp hmem
      rw [(h.mergedAttr_name_spec hqueue hname).2.1]
      exact h.mem_mergedAttr_values_iff name text

end Several

end AttrRep

end AdDelivery.GroupManager
