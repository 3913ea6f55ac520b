import AdDelivery.GroupManager.OntologyRep

/-!
# Merged attribute results

After all results have been read, the maps have for every name and every value of a name the sums
over the results. What is kept are the names of greatest summed score, with all of their values.
The counts are machine words, so sums of counts are exact as long as they fit.
-/

namespace AdDelivery.GroupManager

open List OntologyRepItem Option Table

variable {UString S : Type}

/-- A name with its values. -/
structure Attr (UString S : Type) where
  name : OntologyRepItem UString S
  values : List (OntologyRepItem UString S)

def Attr.items (attr : Attr UString S) : List (OntologyRepItem UString S) :=
  attr.name :: attr.values

/-- Different names with different values, on two levels. -/
structure ReadableAttrs (attrs : List (Attr UString S)) : Prop where
  level_name : ∀ attr ∈ attrs, attr.name.level = 0
  level_value : ∀ attr ∈ attrs, ∀ value ∈ attr.values, value.level = 1
  nodup_names : (attrs.map fun attr => attr.name.text).Nodup
  nodup_values : ∀ attr ∈ attrs, (attr.values.map text).Nodup

theorem ReadableAttrs.tail {attr : Attr UString S} {attrs : List (Attr UString S)}
    (h : ReadableAttrs (attr :: attrs)) : ReadableAttrs attrs where
  level_name := fun attr' hattr' => h.level_name attr' (mem_cons_of_mem _ hattr')
  level_value := fun attr' hattr' => h.level_value attr' (mem_cons_of_mem _ hattr')
  nodup_names := (nodup_cons.mp h.nodup_names).2
  nodup_values := fun attr' hattr' => h.nodup_values attr' (mem_cons_of_mem _ hattr')

/-- A result of two levels, with names and values in descending order. -/
structure AttrRep (UString S : Type) [LinearOrder S] where
  attrs : List (Attr UString S)
  readable : ReadableAttrs attrs
  names_descend : attrs.Pairwise fun attr attr' => attr'.name.score ≤ attr.name.score
  values_descend : ∀ attr ∈ attrs,
    attr.values.Pairwise fun value value' => value'.score ≤ value.score

def AttrRep.itemList [LinearOrder S] (rep : AttrRep UString S) : List (OntologyRepItem UString S) :=
  rep.attrs.flatMap Attr.items

/-- Add what a result has to what there is. -/
def addSome [Add S] : Option (OntologyRepItem UString S) → Option (OntologyRepItem UString S) →
    Option (OntologyRepItem UString S)
  | none, item => item
  | some old, none => some old
  | some old, some item => some (old.add item)

@[simp] theorem addSome_none [Add S] (old : Option (OntologyRepItem UString S)) :
    addSome old none = old := by
  cases old <;> rfl

section Items

variable [DecidableEq UString]

def findText (items : List (OntologyRepItem UString S)) (text : UString) :
    Option (OntologyRepItem UString S) :=
  items.find? fun item => decide (item.text = text)

theorem findText_nil (text : UString) :
    findText ([] : List (OntologyRepItem UString S)) text = none :=
  rfl

theorem findText_cons (item : OntologyRepItem UString S) (items) (text : UString) :
    findText (item :: items) text =
      if item.text = text then some item else findText items text := by
  rw [findText, find?_cons]
  by_cases h : item.text = text
  · rw [decide_eq_true h, if_pos h]
  · rw [decide_eq_false h, if_neg h]
    rfl

variable {items : List (OntologyRepItem UString S)} {item : OntologyRepItem UString S}

theorem findText_eq_some {text : UString} (h : findText items text = some item) :
    item ∈ items ∧ item.text = text :=
  ⟨mem_of_find?_eq_some h, by simpa using find?_some h⟩

theorem findText_eq_none_iff {text : UString} :
    findText items text = none ↔ text ∉ items.map OntologyRepItem.text := by
  rw [findText]
  simp

/-- Where texts differ, an item is found by its text. -/
theorem findText_text (h : (items.map text).Nodup) (hitem : item ∈ items) :
    findText items item.text = some item := by
  induction items with
  | nil => cases hitem
  | cons head items ih =>
    rw [map_cons, nodup_cons] at h
    rw [findText_cons]
    rcases mem_cons.mp hitem with rfl | hitem
    · exact if_pos rfl
    · rw [if_neg, ih h.2 hitem]
      intro heq
      apply h.1
      rw [heq]
      exact mem_map_of_mem hitem

/-- The values of the name in some names with their values. -/
def valuesIn (attrs : List (Attr UString S)) (name : UString) : List (OntologyRepItem UString S) :=
  (attrs.find? fun attr => decide (attr.name.text = name)).elim [] Attr.values

theorem valuesIn_cons (attr : Attr UString S) (attrs) (name : UString) :
    valuesIn (attr :: attrs) name =
      if attr.name.text = name then attr.values else valuesIn attrs name := by
  rw [valuesIn, find?_cons]
  by_cases h : attr.name.text = name
  · rw [decide_eq_true h, if_pos h]
    rfl
  · rw [decide_eq_false h, if_neg h]
    rfl

variable {attrs : List (Attr UString S)}

theorem valuesIn_eq_nil {name : UString} (h : name ∉ attrs.map fun attr => attr.name.text) :
    valuesIn attrs name = [] := by
  have hnone : attrs.find? (fun attr => decide (attr.name.text = name)) = none := by
    rw [find?_eq_none]
    intro attr hattr heq
    exact h (of_decide_eq_true heq ▸ mem_map_of_mem hattr)
  rw [valuesIn, hnone]
  rfl

theorem valuesIn_text {attr : Attr UString S} (h : (attrs.map fun attr => attr.name.text).Nodup)
    (hattr : attr ∈ attrs) : valuesIn attrs attr.name.text = attr.values := by
  induction attrs with
  | nil => cases hattr
  | cons head attrs ih =>
    rw [map_cons, nodup_cons] at h
    rw [valuesIn_cons]
    rcases mem_cons.mp hattr with rfl | hattr
    · exact if_pos rfl
    · rw [if_neg, ih h.2 hattr]
      intro heq
      exact h.1 (mem_map.mpr ⟨attr, hattr, heq.symm⟩)

theorem mem_valuesIn {name : UString} (h : item ∈ valuesIn attrs name) :
    ∃ attr ∈ attrs, attr.name.text = name ∧ item ∈ attr.values := by
  rw [valuesIn] at h
  cases hfind : attrs.find? (fun attr => decide (attr.name.text = name)) with
  | none =>
    rw [hfind] at h
    cases h
  | some attr =>
    rw [hfind] at h
    exact ⟨attr, mem_of_find?_eq_some hfind, by simpa using find?_some hfind, h⟩

end Items

namespace OntologyRep.Collected

variable [DecidableEq UString] [Add S] {table : Table UString (OntologyRepItem UString S)}

/-- A value is added to the table of the current name. -/
theorem enterOther_value {c : Collected UString S} {name : UString}
    {value : OntologyRepItem UString S} (hlevel : value.level = 1)
    (hname : c.currentName = some name) (htable : c.nvItemMap.lookup name = some table)
    (hnew : c.newName = true → table.lookup value.text = none) :
    ∃ table', enterOther c value = some { c with nvItemMap := c.nvItemMap.insert name table' } ∧
      ∀ text, table'.lookup text =
        if text = value.text then addSome (table.lookup text) (some value)
        else table.lookup text := by
  have hvalue : value.level ≠ 0 := by
    rw [hlevel]
    exact Nat.one_ne_zero
  rw [enterOther, if_neg hvalue, withValues, hname, bind_some, htable]
  refine ⟨_, rfl, fun text => ?_⟩
  cases hold : table.lookup value.text with
  | none =>
    rw [ite_self, lookup_insert_eq]
    split
    · rename_i htext
      rw [htext, hold]
      rfl
    · rfl
  | some old =>
    have hfalse : c.newName = false := by
      by_contra htrue
      have hnone := hnew (by simpa using htrue)
      rw [hold] at hnone
      cases hnone
    rw [hfalse, if_neg Bool.false_ne_true, lookup_insert_eq]
    split
    · rename_i htext
      rw [htext, hold]
      rfl
    · rfl

/-- The values behind a name are added to those that the name has. -/
theorem foldlM_enterOther_values {values : List (OntologyRepItem UString S)}
    (hlevel : ∀ value ∈ values, value.level = 1)
    (hnodup : (values.map text).Nodup) {c : Collected UString S} {name : UString}
    (hname : c.currentName = some name) (htable : c.nvItemMap.lookup name = some table)
    (hnew : c.newName = true → ∀ value ∈ values, table.lookup value.text = none) :
    ∃ table', values.foldlM enterOther c =
        some { c with nvItemMap := c.nvItemMap.insert name table' } ∧
      ∀ text, table'.lookup text = addSome (table.lookup text) (findText values text) := by
  induction values generalizing c table with
  | nil =>
    refine ⟨table, ?_, fun text => (addSome_none _).symm⟩
    have hsame : c.nvItemMap.insert name table = c.nvItemMap := by
      apply Finmap.ext_lookup
      intro text
      rw [lookup_insert_eq]
      split
      · rename_i htext
        rw [htext, htable]
      · rfl
    rw [hsame]
    rfl
  | cons value values ih =>
    rw [map_cons, nodup_cons] at hnodup
    obtain ⟨table₁, hstep, hlookup⟩ := enterOther_value (hlevel value mem_cons_self) hname
      htable fun htrue => hnew htrue value mem_cons_self
    obtain ⟨table', hfold, hlookup'⟩ := ih
      (c := { c with nvItemMap := c.nvItemMap.insert name table₁ })
      (fun value' hvalue' => hlevel value' (mem_cons_of_mem _ hvalue')) hnodup.2 hname
      (Finmap.lookup_insert _) (by
        intro htrue value' hvalue'
        rw [hlookup, if_neg, hnew htrue value' (mem_cons_of_mem _ hvalue')]
        intro heq
        apply hnodup.1
        rw [← heq]
        exact mem_map_of_mem hvalue')
    refine ⟨table', ?_, fun text => ?_⟩
    · rw [foldlM_cons, hstep, bind_eq_bind, bind_some, hfold]
      congr 2
      exact Finmap.insert_insert _
    · rw [hlookup', hlookup, findText_cons]
      by_cases htext : text = value.text
      · subst htext
        rw [if_pos rfl, if_pos rfl, findText_eq_none_iff.mpr hnodup.1, addSome_none]
      · rw [if_neg htext, if_neg (Ne.symm htext)]

/-- What the maps hold: an item for each name, and an item for each value of a name. -/
structure Holds (c : Collected UString S) (names : UString → Option (OntologyRepItem UString S))
    (values : UString → UString → Option (OntologyRepItem UString S)) : Prop where
  name : ∀ name, c.nameItemMap.lookup name = names name
  opened : ∀ name, (c.nvItemMap.lookup name).isSome = (names name).isSome
  value : ∀ name text, ((c.nvItemMap.lookup name).bind fun table => table.lookup text) =
    values name text

omit [Add S] in
theorem lookup_goTo (c : Collected UString S) (name name' : UString) :
    (c.goTo name).nvItemMap.lookup name' =
      if name' = name then some ((c.nvItemMap.lookup name).getD ∅)
      else c.nvItemMap.lookup name' := by
  rw [goTo]
  simp only
  cases hname : c.nvItemMap.lookup name with
  | none => exact lookup_insert_eq _ _ _ _
  | some table =>
    by_cases heq : name' = name
    · rw [if_pos heq, heq]
      exact hname
    · rw [if_neg heq]

variable {c : Collected UString S} {names : UString → Option (OntologyRepItem UString S)}
  {values : UString → UString → Option (OntologyRepItem UString S)}

/-- A name is added, and becomes the current one with the table that it has. -/
theorem Holds.enterOther_name (h : c.Holds names values) {item : OntologyRepItem UString S}
    (hlevel : item.level = 0) : ∃ c', enterOther c item = some c' ∧
      (∀ name, c'.nameItemMap.lookup name =
        if name = item.text then addSome (names name) (some item) else names name) ∧
      c'.currentName = some item.text ∧ (∀ name, c'.nvItemMap.lookup name =
        if name = item.text then some ((c.nvItemMap.lookup item.text).getD ∅)
        else c.nvItemMap.lookup name) ∧ (c'.newName = true → names item.text = none) := by
  rw [enterOther, if_pos hlevel]
  have hlookup := h.name item.text
  cases hold : c.nameItemMap.lookup item.text with
  | none =>
    rw [hold] at hlookup
    refine ⟨_, rfl, fun name => ?_, rfl, lookup_goTo _ _, fun _ => hlookup.symm⟩
    refine (lookup_insert_eq _ _ _ _).trans ?_
    split
    · rename_i heq
      rw [heq, ← hlookup]
      rfl
    · exact h.name name
  | some old =>
    rw [hold] at hlookup
    refine ⟨_, rfl, fun name => ?_, rfl, lookup_goTo _ _, fun htrue => ?_⟩
    · refine (lookup_insert_eq _ _ _ _).trans ?_
      split
      · rename_i heq
        rw [heq, ← hlookup]
        rfl
      · exact h.name name
    · cases htrue

variable {attr : Attr UString S}

/-- A name with its values is added. -/
theorem Holds.foldlM_enterOther_items (h : c.Holds names values) (hname : attr.name.level = 0)
    (hvalue : ∀ value ∈ attr.values, value.level = 1)
    (hnodup : (attr.values.map text).Nodup) :
    ∃ c', attr.items.foldlM enterOther c = some c' ∧
      c'.Holds
        (fun name =>
          if name = attr.name.text then addSome (names name) (some attr.name) else names name)
        (fun name text =>
          if name = attr.name.text then addSome (values name text) (findText attr.values text)
          else values name text) := by
  obtain ⟨c₁, hstep, hnames, hcurrent, htables, hnew⟩ := h.enterOther_name hname
  have htable := htables attr.name.text
  rw [if_pos rfl] at htable
  have hread (text : UString) :
      ((c.nvItemMap.lookup attr.name.text).getD ∅).lookup text = values attr.name.text text := by
    rw [← h.value]
    cases c.nvItemMap.lookup attr.name.text with
    | none => exact Finmap.lookup_empty text
    | some table => rfl
  obtain ⟨table', hfold, hlookup⟩ := foldlM_enterOther_values hvalue hnodup hcurrent htable (by
    intro htrue value _
    have hopened := h.opened attr.name.text
    rw [hnew htrue] at hopened
    rw [isSome_eq_false_iff.mp hopened |> isNone_iff_eq_none.mp]
    rfl)
  refine ⟨{ c₁ with nvItemMap := c₁.nvItemMap.insert attr.name.text table' }, ?_, hnames,
    fun name => ?_, fun name text => ?_⟩
  · rw [Attr.items, foldlM_cons, hstep, bind_eq_bind, bind_some, hfold]
  · rw [lookup_insert_eq, htables]
    split
    · rename_i heq
      cases names name <;> rfl
    · exact h.opened name
  · rw [lookup_insert_eq, htables]
    split
    · rename_i heq
      rw [bind_some, hlookup, hread, heq]
    · exact h.value name text

variable {attrs : List (Attr UString S)}

/-- A result is added. -/
theorem Holds.foldlM_enterOther (h : c.Holds names values) (hattrs : ReadableAttrs attrs) :
    ∃ c', (attrs.flatMap Attr.items).foldlM enterOther c = some c' ∧
      c'.Holds (fun name => addSome (names name) (findText (attrs.map Attr.name) name))
        (fun name text => addSome (values name text) (findText (valuesIn attrs name) text)) := by
  induction attrs generalizing c names values with
  | nil =>
    refine ⟨c, rfl, ?_⟩
    have hnone (name : UString) : valuesIn ([] : List (Attr UString S)) name = [] := rfl
    simp only [map_nil, findText_nil, hnone, addSome_none]
    exact h
  | cons attr attrs ih =>
    obtain ⟨c₁, hstep, h₁⟩ := h.foldlM_enterOther_items (hattrs.level_name attr mem_cons_self)
      (hattrs.level_value attr mem_cons_self) (hattrs.nodup_values attr mem_cons_self)
    obtain ⟨c', hfold, h'⟩ := ih h₁ hattrs.tail
    have hfresh := (nodup_cons.mp hattrs.nodup_names).1
    have hnone : findText (attrs.map Attr.name) attr.name.text = none := by
      rw [findText_eq_none_iff, List.map_map]
      exact hfresh
    refine ⟨c', ?_, fun name => ?_, fun name => ?_, fun name text => ?_⟩
    · rw [flatMap_cons, foldlM_append, hstep, bind_eq_bind, bind_some, hfold]
    · rw [h'.name, map_cons, findText_cons]
      by_cases hname : name = attr.name.text
      · rw [if_pos hname, if_pos hname.symm, hname, hnone, addSome_none]
      · rw [if_neg hname, if_neg (Ne.symm hname)]
    · rw [h'.opened, map_cons, findText_cons]
      by_cases hname : name = attr.name.text
      · rw [if_pos hname, if_pos hname.symm, hname, hnone, addSome_none]
      · rw [if_neg hname, if_neg (Ne.symm hname)]
    · rw [h'.value, valuesIn_cons]
      by_cases hname : name = attr.name.text
      · rw [if_pos hname, if_pos hname.symm, hname, valuesIn_eq_nil hfresh]
        exact addSome_none _
      · rw [if_neg hname, if_neg (Ne.symm hname)]

/-- The receiver does not look whether a name is new. -/
def withNew (b : Bool) (c : Collected UString S) : Collected UString S := { c with newName := b }

omit [Add S] in
theorem Holds.withNew (h : c.Holds names values) (b : Bool) : (c.withNew b).Holds names values :=
  ⟨h.name, h.opened, h.value⟩

theorem foldlM_enterOwn_values (b : Bool) {values : List (OntologyRepItem UString S)}
    (hlevel : ∀ value ∈ values, value.level = 1) (hnew : c.newName = true) :
    values.foldlM enterOwn (c.withNew b) =
      (values.foldlM enterOther c).map (Collected.withNew b) := by
  induction values generalizing c with
  | nil => rfl
  | cons value values ih =>
    have hvalue : value.level ≠ 0 := by
      rw [hlevel value mem_cons_self]
      exact Nat.one_ne_zero
    rw [foldlM_cons, foldlM_cons, enterOwn, enterOther, if_neg hvalue, if_neg hvalue,
      Collected.withValues, Collected.withValues]
    simp only [Collected.withNew, hnew, if_true]
    cases c.currentName with
    | none => rfl
    | some name =>
      simp only [bind_some]
      cases c.nvItemMap.lookup name with
      | none => rfl
      | some table =>
        exact ih
          (c :=
            { nameItemMap := c.nameItemMap
              nvItemMap := c.nvItemMap.insert name (table.insert value.text value)
              currentName := some name
              newName := true })
          (fun value' hvalue' => hlevel value' (mem_cons_of_mem _ hvalue')) rfl

theorem foldlM_enterOwn_items (b : Bool) (hname : attr.name.level = 0)
    (hvalue : ∀ value ∈ attr.values, value.level = 1)
    (hfresh : c.nameItemMap.lookup attr.name.text = none) :
    attr.items.foldlM enterOwn (c.withNew b) =
      (attr.items.foldlM enterOther c).map (Collected.withNew b) := by
  rw [Attr.items, foldlM_cons, foldlM_cons, enterOwn, enterOther, if_pos hname,
    if_pos hname, hfresh]
  exact foldlM_enterOwn_values
    (c := goTo
      { c with nameItemMap := c.nameItemMap.insert attr.name.text attr.name, newName := true }
      attr.name.text) b hvalue rfl

/-- The items of the receiver are read like those of any other result. -/
theorem Holds.foldlM_enterOwn (b : Bool) (h : c.Holds names values) (hattrs : ReadableAttrs attrs)
    (hfresh : ∀ attr ∈ attrs, names attr.name.text = none) :
    (attrs.flatMap Attr.items).foldlM enterOwn (c.withNew b) =
      ((attrs.flatMap Attr.items).foldlM enterOther c).map (Collected.withNew b) := by
  induction attrs generalizing c names values with
  | nil => rfl
  | cons attr attrs ih =>
    have hname := hattrs.level_name attr mem_cons_self
    have hvalue := hattrs.level_value attr mem_cons_self
    obtain ⟨c₁, hstep, h₁⟩ :=
      h.foldlM_enterOther_items hname hvalue (hattrs.nodup_values attr mem_cons_self)
    have hnone := (h.name attr.name.text).trans (hfresh attr mem_cons_self)
    rw [flatMap_cons, foldlM_append, foldlM_append,
      foldlM_enterOwn_items b hname hvalue hnone, hstep]
    apply ih h₁ hattrs.tail
    intro attr' hattr'
    have hne : attr'.name.text ≠ attr.name.text := by
      intro heq
      apply (nodup_cons.mp hattrs.nodup_names).1
      exact mem_map.mpr ⟨attr', hattr', heq⟩
    rw [if_neg hne]
    exact hfresh attr' (mem_cons_of_mem _ hattr')

end OntologyRep.Collected

namespace AttrRep

section Sums

variable [LinearOrder S] (inputs : List (AttrRep UString S))
  (f : AttrRep UString S → Option (OntologyRepItem UString S))

def sumCount : ℕ := (inputs.map fun rep => (f rep).elim 0 fun item => item.docCount.toNat).sum

def sumScore [AddCommMonoid S] : S :=
  (inputs.map fun rep => (f rep).elim 0 score).sum

/-- What has been added up when all results are read. -/
def addAll [Add S] : Option (OntologyRepItem UString S) :=
  inputs.foldl (fun old rep => addSome old (f rep)) none

variable {inputs f} (rep : AttrRep UString S)

theorem addAll_append [Add S] : addAll (inputs ++ [rep]) f = addSome (addAll inputs f) (f rep) := by
  rw [addAll, foldl_append]
  rfl

/-- The sum is an item as those that are added, with the sums of their counts and scores. -/
theorem addAll_spec [AddCommMonoid S] (inputs : List (AttrRep UString S))
    (f : AttrRep UString S → Option (OntologyRepItem UString S)) (level : ℕ) (text : UString)
    (hf : ∀ rep ∈ inputs, ∀ item, f rep = some item → item.level = level ∧ item.text = text) :
    ((addAll inputs f).isSome ↔ ∃ rep ∈ inputs, (f rep).isSome) ∧
      (∀ item, addAll inputs f = some item → item.level = level ∧ item.text = text) ∧
      (addAll inputs f).elim 0 OntologyRepItem.docCount = UInt32.ofNat (sumCount inputs f) ∧
      (addAll inputs f).elim 0 OntologyRepItem.score = sumScore inputs f := by
  induction inputs using List.reverseRecOn with
  | nil =>
    refine ⟨by simp [addAll], fun item hitem => ?_, rfl, rfl⟩
    cases hitem
  | append_singleton inputs rep ih =>
    obtain ⟨hsome, hitem, hcount, hscore⟩ := ih fun rep' hrep' =>
      hf rep' (mem_append_left _ hrep')
    have hrep := hf rep (mem_append_right _ (mem_singleton_self rep))
    have hsumCount : sumCount (inputs ++ [rep]) f =
        sumCount inputs f + (f rep).elim 0 fun item => item.docCount.toNat := by
      simp [sumCount]
    have hsumScore : sumScore (inputs ++ [rep]) f =
        sumScore inputs f + (f rep).elim 0 OntologyRepItem.score := by
      simp [sumScore]
    rw [addAll_append, hsumCount, hsumScore, UInt32.ofNat_add, ← hcount, ← hscore]
    simp only [mem_append, mem_singleton, or_and_right, exists_or, exists_eq_left, ← hsome]
    cases hold : addAll inputs f with
    | none =>
      cases hget : f rep with
      | none => simp [addSome]
      | some item =>
        refine ⟨by simp [addSome], fun item' hitem' => ?_, ?_, ?_⟩
        · cases hitem'
          exact hrep item hget
        · simp [addSome]
        · simp [addSome]
    | some old =>
      cases hget : f rep with
      | none => simpa [addSome] using hitem old hold
      | some item =>
        refine ⟨by simp [addSome], fun item' hitem' => ?_, ?_, ?_⟩
        · cases hitem'
          exact hitem old hold
        · simp [addSome, OntologyRepItem.add]
        · simp [addSome, OntologyRepItem.add]

variable [DecidableEq UString]

def nameItem (name : UString) (rep : AttrRep UString S) : Option (OntologyRepItem UString S) :=
  findText (rep.attrs.map Attr.name) name

def valueItem (name text : UString) (rep : AttrRep UString S) :
    Option (OntologyRepItem UString S) :=
  findText (valuesIn rep.attrs name) text

/-- All names, without repetitions. -/
def allNames (inputs : List (AttrRep UString S)) : List UString :=
  (inputs.flatMap fun rep => rep.attrs.map fun attr => attr.name.text).dedup

theorem nodup_allNames (inputs : List (AttrRep UString S)) : (allNames inputs).Nodup :=
  nodup_dedup _

variable {name : UString}

theorem isSome_nameItem {rep : AttrRep UString S} :
    (rep.nameItem name).isSome ↔ name ∈ rep.attrs.map fun attr => attr.name.text := by
  rw [← Option.ne_none_iff_isSome, nameItem, Ne, findText_eq_none_iff, not_not, List.map_map]
  rfl

theorem mem_allNames : name ∈ allNames inputs ↔ ∃ rep ∈ inputs, (rep.nameItem name).isSome := by
  simp only [allNames, mem_dedup, mem_flatMap, isSome_nameItem]

variable {item : OntologyRepItem UString S}

theorem nameItem_spec (h : rep.nameItem name = some item) : item.level = 0 ∧ item.text = name := by
  obtain ⟨hmem, htext⟩ := findText_eq_some h
  obtain ⟨attr, hattr, rfl⟩ := mem_map.mp hmem
  exact ⟨rep.readable.level_name attr hattr, htext⟩

theorem valueItem_spec {name text : UString} (h : rep.valueItem name text = some item) :
    item.level = 1 ∧ item.text = text := by
  obtain ⟨hmem, htext⟩ := findText_eq_some h
  obtain ⟨attr, hattr, _, hitem⟩ := mem_valuesIn hmem
  exact ⟨rep.readable.level_value attr hattr item hitem, htext⟩

end Sums

section Collect

variable [DecidableEq UString] [LinearOrder S] [Add S]

open OntologyRep

theorem holds_enterOthers {c : Collected UString S}
    {names : UString → Option (OntologyRepItem UString S)}
    {values : UString → UString → Option (OntologyRepItem UString S)} (h : c.Holds names values)
    (others : List (AttrRep UString S)) : ∃ c', c.enterOthers (others.map itemList) = some c' ∧
      c'.Holds
        (fun name => others.foldl (fun old rep => addSome old (rep.nameItem name)) (names name))
        (fun name text => others.foldl (fun old rep => addSome old (rep.valueItem name text))
            (values name text)) := by
  induction others generalizing c names values with
  | nil => exact ⟨c, rfl, h⟩
  | cons other others ih =>
    obtain ⟨c₁, hstep, h₁⟩ := (h.withNew false).foldlM_enterOther other.readable
    obtain ⟨c', hfold, h'⟩ := ih h₁
    refine ⟨c', ?_, h'⟩
    have hread : (other.itemList.foldlM Collected.enterOther { c with newName := false }) =
        some c₁ := hstep
    rw [map_cons, Collected.enterOthers, foldlM_cons, hread, bind_eq_bind]
    exact hfold

/-- The maps have the sums. -/
theorem exists_collected (receiver : AttrRep UString S) (others : List (AttrRep UString S)) :
    ∃ c, ((receiver.itemList.foldlM Collected.enterOwn {}).bind fun c =>
        c.enterOthers (others.map itemList)) = some c ∧
      c.Holds (fun name => addAll (receiver :: others) (nameItem name))
        (fun name text => addAll (receiver :: others) (valueItem name text)) := by
  have hempty : ({} : Collected UString S).Holds (fun _ => none) (fun _ _ => none) :=
    ⟨fun name => Finmap.lookup_empty name,
      fun name => congrArg isSome (Finmap.lookup_empty name), fun name text => by
        rfl⟩
  obtain ⟨c₁, hread, h₁⟩ := hempty.foldlM_enterOther receiver.readable
  have hown := hempty.foldlM_enterOwn false receiver.readable fun _ _ => rfl
  rw [hread] at hown
  have hown' : receiver.itemList.foldlM Collected.enterOwn {} = some (c₁.withNew false) := hown
  obtain ⟨c, hothers, h⟩ := holds_enterOthers (h₁.withNew false) others
  refine ⟨c, ?_, h⟩
  rw [hown', bind_some, hothers]

end Collect

end AttrRep

end AdDelivery.GroupManager
