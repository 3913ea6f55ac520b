import AdDelivery.QueryManager.ActionItem

/-!
# Filter trees

The bitmaps of filters are objects behind shared pointers, and a cache keeps pointers to some of
them. A node with a single filter hands out the bitmap of the cache itself; every other node makes
a bitmap of its own and combines it with those of its children.
-/

namespace AdDelivery.SearchManager

open List List.Forall₂
open QueryManager

/-- A compressed bitmap, as the set of its bits. -/
abbrev FilterBitmap := ℕ → Bool

/-- A cache of pointers. What it gives back is an entry; it may drop entries at any time, and adds
none but what it is given. -/
structure FilterCache (Key C : Type) where
  entry : C → Key → Option ℕ
  get : C → Key → Option ℕ × C
  set : C → Key → ℕ → C
  get_eq : ∀ c key p, (get c key).1 = some p → entry c key = some p
  entry_get : ∀ c key key' p, entry (get c key).2 key' = some p → entry c key' = some p
  entry_set : ∀ c key p key' p', entry (set c key p) key' = some p' →
    key' = key ∧ p' = p ∨ entry c key' = some p'

/-- The bitmaps that have been made, each at its pointer, and the cache. -/
structure FilterState (C : Type) where
  bitmaps : List FilterBitmap
  cache : C

namespace FilterState

variable {C : Type}

/-- A new bitmap; its pointer is the number of those before. -/
def push (s : FilterState C) (bitmap : FilterBitmap) : FilterState C :=
  { s with bitmaps := s.bitmaps ++ [bitmap] }

/-- Combine two bitmaps into a new one and swap it with the first. -/
def combine (op : Bool → Bool → Bool) (p : ℕ) (s : FilterState C) (q : ℕ) :
    Option (FilterState C) :=
  s.bitmaps[p]?.bind fun bitmap => s.bitmaps[q]?.map fun other =>
    let dest := s.bitmaps.length
    let s := s.push fun id => op (bitmap id) (other id)
    { s with bitmaps := (s.bitmaps.set p fun id => op (bitmap id) (other id)).set dest bitmap }

end FilterState

open FilterState

/-- A bitmap of full words, all bits being equal. -/
def emptyWords (v : Bool) (wordsNum : ℕ) : FilterBitmap :=
  fun id => v && decide (id < 64 * wordsNum)

section Process

variable {PropertyValue C : Type} (cache : FilterCache (FilteringType PropertyValue) C)
  (makeRangeQuery : FilteringOperation → String → List PropertyValue → FilterBitmap)
  (maxDocId : UInt32)

/-- The documents of a filter. -/
def filterDocs (filter : FilteringType PropertyValue) : FilterBitmap :=
  makeRangeQuery filter.operation filter.property filter.values

/-- The bitmap of a filter, from the cache or a new one that goes there. -/
def leafBitmap (s : FilterState C) (filter : FilteringType PropertyValue) : ℕ × FilterState C :=
  let found := cache.get s.cache filter
  match found.1 with
  | some p => (p, { s with cache := found.2 })
  | none =>
    let p := s.bitmaps.length
    (p, { s.push (filterDocs makeRangeQuery filter) with cache := cache.set found.2 filter p })

def leafBitmaps (s : FilterState C) : List (FilteringType PropertyValue) → List ℕ × FilterState C
  | [] => ([], s)
  | filter :: filters =>
    let first := leafBitmap cache makeRangeQuery s filter
    let rest := leafBitmaps first.2 filters
    (first.1 :: rest.1, rest.2)

/-- The words that hold the bits up to the greatest document. -/
def wordsNum : ℕ :=
  let bitsNum := maxDocId + 1
  ((bitsNum - 1) / 64 + 1).toNat

mutual

/-- The pointer to the result. -/
def doProcessFiltertree : ConditionsNode PropertyValue → FilterState C → Option (ℕ × FilterState C)
  | .node relation conditionLeafList conditionsNodeList, s =>
    if conditionLeafList.length = 1 ∧ conditionsNodeList.length = 0 then
      conditionLeafList.head?.map (leafBitmap cache makeRangeQuery s)
    else
      let leafs := leafBitmaps cache makeRangeQuery s conditionLeafList
      (doProcessNodes conditionsNodeList leafs.2).bind fun nodes =>
        let p := nodes.2.bitmaps.length
        if relation = "and" then
          ((leafs.1 ++ nodes.1).foldlM (combine and p)
            (nodes.2.push (emptyWords true (wordsNum maxDocId)))).map (p, ·)
        else if relation = "or" then
          ((leafs.1 ++ nodes.1).foldlM (combine or p)
            (nodes.2.push (emptyWords false (wordsNum maxDocId)))).map (p, ·)
        else some (p, nodes.2.push fun _ => false)

/-- The nodes of a list, one after another. -/
def doProcessNodes : List (ConditionsNode PropertyValue) → FilterState C →
    Option (List ℕ × FilterState C)
  | [], s => some ([], s)
  | node :: nodes, s =>
    (doProcessFiltertree node s).bind fun first =>
      (doProcessNodes nodes first.2).map fun rest => (first.1 :: rest.1, rest.2)

end

def prepareFilter (conditionsTree : ConditionsNode PropertyValue) (s : FilterState C) :
    Option (ℕ × FilterState C) :=
  doProcessFiltertree cache makeRangeQuery maxDocId conditionsTree s

end Process

section Meaning

variable {PropertyValue : Type}

mutual

/-- All relations of a tree are known. -/
def AndOr : ConditionsNode PropertyValue → Prop
  | .node relation _ conditionsNodeList =>
    (relation = "and" ∨ relation = "or") ∧ AndOrList conditionsNodeList

def AndOrList : List (ConditionsNode PropertyValue) → Prop
  | [] => True
  | node :: nodes => AndOr node ∧ AndOrList nodes

end

variable (docs : FilteringType PropertyValue → FilterBitmap) (id : ℕ)

mutual

/-- A document meets all conditions of a node, or one of them. -/
def Meets : ConditionsNode PropertyValue → Prop
  | .node relation conditionLeafList conditionsNodeList =>
    if relation = "and" then
      (∀ filter ∈ conditionLeafList, docs filter id = true) ∧ MeetsAll conditionsNodeList
    else (∃ filter ∈ conditionLeafList, docs filter id = true) ∨ MeetsAny conditionsNodeList

def MeetsAll : List (ConditionsNode PropertyValue) → Prop
  | [] => True
  | node :: nodes => Meets node ∧ MeetsAll nodes

def MeetsAny : List (ConditionsNode PropertyValue) → Prop
  | [] => False
  | node :: nodes => Meets node ∨ MeetsAny nodes

end

end Meaning

namespace FilterState

variable {C : Type} {s s' s'' : FilterState C}

/-- All bitmaps of a state are unchanged in a later one. -/
def Keeps (s s' : FilterState C) : Prop :=
  ∀ (p : ℕ) (bitmap : FilterBitmap), s.bitmaps[p]? = some bitmap → s'.bitmaps[p]? = some bitmap

theorem Keeps.trans (h : Keeps s s') (h' : Keeps s' s'') : Keeps s s'' :=
  fun p bitmap hp => h' p bitmap (h p bitmap hp)

theorem keeps_push (s : FilterState C) (bitmap : FilterBitmap) : Keeps s (s.push bitmap) := by
  intro p other hp
  rw [push, getElem?_append_left (List.getElem?_eq_some_iff.mp hp).1]
  exact hp

theorem getElem?_push (s : FilterState C) (bitmap : FilterBitmap) :
    (s.push bitmap).bitmaps[s.bitmaps.length]? = some bitmap :=
  getElem?_concat_length

variable (op : Bool → Bool → Bool)

/-- Only the first bitmap changes. -/
theorem combine_spec {p q : ℕ} {bitmap other : FilterBitmap} (hp : s.bitmaps[p]? = some bitmap)
    (hq : s.bitmaps[q]? = some other) : ∃ s', combine op p s q = some s' ∧ s'.cache = s.cache ∧
      s'.bitmaps[p]? = some (fun id => op (bitmap id) (other id)) ∧
      ∀ r < s.bitmaps.length, r ≠ p → s'.bitmaps[r]? = s.bitmaps[r]? := by
  have hlt := (List.getElem?_eq_some_iff.mp hp).1
  rw [combine, hp, hq]
  refine ⟨_, rfl, rfl, ?_, fun r hr hrp => ?_⟩
  · simp only [push]
    rw [getElem?_set_ne (Nat.ne_of_gt hlt), getElem?_set_self]
    rw [length_append]
    exact Nat.lt_add_right _ hlt
  · simp only [push]
    rw [getElem?_set_ne (Nat.ne_of_gt hr), getElem?_set_ne (Ne.symm hrp), getElem?_append_left hr]

/-- A new bitmap is combined with older ones. -/
theorem foldlM_combine_spec {p : ℕ} {bitmap : FilterBitmap} (hp : s.bitmaps[p]? = some bitmap)
    {qs : List ℕ} {others : List FilterBitmap}
    (hqs : List.Forall₂ (fun q other => q < p ∧ s.bitmaps[q]? = some other) qs others) :
    ∃ s', qs.foldlM (combine op p) s = some s' ∧ s'.cache = s.cache ∧
      s'.bitmaps[p]? = some (fun id => others.foldl (fun b other => op b (other id)) (bitmap id)) ∧
      ∀ r < p, s'.bitmaps[r]? = s.bitmaps[r]? := by
  induction qs generalizing s bitmap others with
  | nil =>
    cases hqs
    exact ⟨s, rfl, rfl, hp, fun r _ => rfl⟩
  | cons q qs ih =>
    obtain ⟨other, others, hq, hrest, rfl⟩ := forall₂_cons_left_iff.mp hqs
    obtain ⟨s₁, hstep, hcache, hp₁, hother⟩ := combine_spec op hp hq.2
    have hlt := (List.getElem?_eq_some_iff.mp hp).1
    have hbelow (r : ℕ) (hr : r < p) : s₁.bitmaps[r]? = s.bitmaps[r]? :=
      hother r (hr.trans hlt) (Nat.ne_of_lt hr)
    have hqs₁ : List.Forall₂ (fun q other => q < p ∧ s₁.bitmaps[q]? = some other) qs others :=
      hrest.imp fun q other h => ⟨h.1, (hbelow q h.1).trans h.2⟩
    obtain ⟨s', hrun, hcache', hp', hbelow'⟩ := ih hp₁ hqs₁
    refine ⟨s', ?_, hcache'.trans hcache, hp', fun r hr => (hbelow' r hr).trans (hbelow r hr)⟩
    rw [foldlM_cons, hstep, Option.bind_eq_bind, Option.bind_some, hrun]

end FilterState

section Correct

variable {PropertyValue C : Type} (cache : FilterCache (FilteringType PropertyValue) C)
  (makeRangeQuery : FilteringOperation → String → List PropertyValue → FilterBitmap)
  (maxDocId : UInt32)

/-- Every entry of the cache is the document set of its own filter. -/
def Sound (s : FilterState C) : Prop :=
  ∀ filter p, cache.entry s.cache filter = some p →
    s.bitmaps[p]? = some (filterDocs makeRangeQuery filter)

variable {s s' : FilterState C}

theorem Sound.of_keeps (h : Sound cache makeRangeQuery s) (hkeeps : s.Keeps s')
    (hcache : s'.cache = s.cache) : Sound cache makeRangeQuery s' := by
  intro filter p hp
  rw [hcache] at hp
  exact hkeeps p _ (h filter p hp)

theorem leafBitmap_spec (h : Sound cache makeRangeQuery s) (filter : FilteringType PropertyValue) :
    Sound cache makeRangeQuery (leafBitmap cache makeRangeQuery s filter).2 ∧
      s.Keeps (leafBitmap cache makeRangeQuery s filter).2 ∧
      (leafBitmap cache makeRangeQuery s filter).2.bitmaps[
        (leafBitmap cache makeRangeQuery s filter).1]? =
          some (filterDocs makeRangeQuery filter) := by
  rw [leafBitmap]
  cases hget : (cache.get s.cache filter).1 with
  | some p =>
    refine ⟨fun filter' p' hp' => ?_, fun p' bitmap hp' => hp', ?_⟩
    · exact h filter' p' (cache.entry_get _ _ _ _ hp')
    · exact h filter p (cache.get_eq _ _ _ hget)
  | none =>
    have hkeeps := s.keeps_push (filterDocs makeRangeQuery filter)
    refine ⟨fun filter' p' hp' => ?_, hkeeps, s.getElem?_push _⟩
    rcases cache.entry_set _ _ _ _ _ hp' with ⟨rfl, rfl⟩ | hentry
    · exact s.getElem?_push _
    · exact hkeeps _ _ (h filter' p' (cache.entry_get _ _ _ _ hentry))

theorem leafBitmaps_spec (h : Sound cache makeRangeQuery s)
    (filters : List (FilteringType PropertyValue)) :
    Sound cache makeRangeQuery (leafBitmaps cache makeRangeQuery s filters).2 ∧
      s.Keeps (leafBitmaps cache makeRangeQuery s filters).2 ∧ List.Forall₂
        (fun p filter => (leafBitmaps cache makeRangeQuery s filters).2.bitmaps[p]? =
          some (filterDocs makeRangeQuery filter))
        (leafBitmaps cache makeRangeQuery s filters).1 filters := by
  induction filters generalizing s with
  | nil => exact ⟨h, fun p bitmap hp => hp, nil⟩
  | cons filter filters ih =>
    obtain ⟨hsound, hkeeps, hread⟩ := leafBitmap_spec cache makeRangeQuery h filter
    obtain ⟨hsound', hkeeps', hreads⟩ := ih hsound
    exact ⟨hsound', hkeeps.trans hkeeps', cons (hkeeps' _ _ hread) hreads⟩

/-- The words cover all documents. -/
theorem lt_wordsNum {id : ℕ} (h : id ≤ maxDocId.toNat) : id < 64 * wordsNum maxDocId := by
  have hcancel : maxDocId + 1 - 1 = maxDocId := UInt32.add_sub_cancel _ _
  have hlt := maxDocId.toNat_lt
  rw [wordsNum, hcancel]
  have hwords : (maxDocId / 64 + 1).toNat = maxDocId.toNat / 64 + 1 := by
    rw [UInt32.toNat_add, UInt32.toNat_div]
    exact Nat.mod_eq_of_lt (by simp only [UInt32.reduceToNat]; omega)
  omega

/-- A node with several conditions makes a bitmap of its own. -/
theorem combineAll_spec (op : Bool → Bool → Bool) (s : FilterState C) (bitmap : FilterBitmap)
    {qs : List ℕ} {others : List FilterBitmap}
    (hqs : List.Forall₂ (fun q other => s.bitmaps[q]? = some other) qs others) :
    ∃ s', qs.foldlM (combine op s.bitmaps.length) (s.push bitmap) = some s' ∧
      s'.cache = s.cache ∧ s.Keeps s' ∧ s'.bitmaps[s.bitmaps.length]? =
        some (fun id => others.foldl (fun b other => op b (other id)) (bitmap id)) := by
  have hkeeps := s.keeps_push bitmap
  have hnew : List.Forall₂
      (fun q other => q < s.bitmaps.length ∧ (s.push bitmap).bitmaps[q]? = some other) qs others :=
    hqs.imp fun q other h => ⟨(List.getElem?_eq_some_iff.mp h).1, hkeeps q other h⟩
  obtain ⟨s', hrun, hcache, hread, hbelow⟩ :=
    foldlM_combine_spec op (s.getElem?_push bitmap) hnew
  refine ⟨s', hrun, hcache, fun p other hp => ?_, hread⟩
  rw [hbelow p (List.getElem?_eq_some_iff.mp hp).1]
  exact hkeeps p other hp

theorem foldl_and_eq_true {α : Type} (f : α → Bool) (l : List α) (b : Bool) :
    l.foldl (fun b a => and b (f a)) b = true ↔ b = true ∧ ∀ a ∈ l, f a = true := by
  induction l generalizing b with
  | nil => simp
  | cons a l ih => simp [ih, and_assoc]

theorem foldl_or_eq_true {α : Type} (f : α → Bool) (l : List α) (b : Bool) :
    l.foldl (fun b a => or b (f a)) b = true ↔ b = true ∨ ∃ a ∈ l, f a = true := by
  induction l generalizing b with
  | nil => simp
  | cons a l ih => simp [ih, or_assoc]

/-- The bitmap of a node agrees with its meaning on all documents. -/
def Agrees (node : ConditionsNode PropertyValue) (bitmap : FilterBitmap) : Prop :=
  ∀ id ≤ maxDocId.toNat, bitmap id = true ↔ Meets (filterDocs makeRangeQuery) id node

variable {nodes : List (ConditionsNode PropertyValue)} {bitmaps : List FilterBitmap}

section

variable {id : ℕ} (h : List.Forall₂ (Agrees makeRangeQuery maxDocId) nodes bitmaps)
    (hid : id ≤ maxDocId.toNat)
include h hid

theorem meetsAll_iff :
    (∀ bitmap ∈ bitmaps, bitmap id = true) ↔ MeetsAll (filterDocs makeRangeQuery) id nodes := by
  induction h with
  | nil => simp [MeetsAll]
  | cons hnode _ ih => rw [forall_mem_cons, hnode id hid, ih, MeetsAll]

theorem meetsAny_iff :
    (∃ bitmap ∈ bitmaps, bitmap id = true) ↔ MeetsAny (filterDocs makeRangeQuery) id nodes := by
  induction h with
  | nil => simp [MeetsAny]
  | cons hnode _ ih => rw [exists_mem_cons_iff, hnode id hid, ih, MeetsAny]

end

mutual

/-- A tree is evaluated to the documents that it means, and no bitmap that was there before is
changed. -/
theorem exists_doProcessFiltertree (node : ConditionsNode PropertyValue) (hnode : AndOr node)
    {s : FilterState C} (h : Sound cache makeRangeQuery s) :
    ∃ p s' bitmap, doProcessFiltertree cache makeRangeQuery maxDocId node s = some (p, s') ∧
      Sound cache makeRangeQuery s' ∧ s.Keeps s' ∧ s'.bitmaps[p]? = some bitmap ∧
      Agrees makeRangeQuery maxDocId node bitmap := by
  obtain ⟨relation, leafs, nodes⟩ := node
  obtain ⟨hrelation, hnodes⟩ := hnode
  rw [doProcessFiltertree]
  by_cases hone : leafs.length = 1 ∧ nodes.length = 0
  · -- the bitmap of the cache itself
    obtain ⟨filter, rfl⟩ := length_eq_one_iff.mp hone.1
    obtain rfl := length_eq_zero_iff.mp hone.2
    obtain ⟨hsound, hkeeps, hread⟩ := leafBitmap_spec cache makeRangeQuery h filter
    refine ⟨_, _, _, if_pos hone, hsound, hkeeps, hread, fun id _ => ?_⟩
    rw [Meets]
    split <;> simp [MeetsAll, MeetsAny]
  · rw [if_neg hone]
    obtain ⟨hsound, hkeeps, hreads⟩ := leafBitmaps_spec cache makeRangeQuery h leafs
    obtain ⟨ps, s₂, bitmaps, hrun, hsound₂, hkeeps₂, hreads₂, hagree⟩ :=
      exists_doProcessNodes nodes hnodes hsound
    have hleafs : List.Forall₂ (fun q other => s₂.bitmaps[q]? = some other)
        (leafBitmaps cache makeRangeQuery s leafs).1
        (leafs.map (filterDocs makeRangeQuery)) := by
      rw [forall₂_map_right_iff]
      exact hreads.imp fun q filter hq => hkeeps₂ q _ hq
    have hall := rel_append hleafs hreads₂
    simp only
    rw [hrun, Option.bind_some]
    rcases hrelation with rfl | rfl
    · obtain ⟨s', hcombine, hcache, hkeeps', hread⟩ :=
        combineAll_spec and s₂ (emptyWords true (wordsNum maxDocId)) hall
      rw [if_pos rfl, hcombine]
      refine ⟨_, s', _, rfl, hsound₂.of_keeps cache makeRangeQuery hkeeps' hcache,
        (hkeeps.trans hkeeps₂).trans hkeeps', hread, fun id hid => ?_⟩
      have hseed : emptyWords true (wordsNum maxDocId) id = true := by
        rw [emptyWords, Bool.true_and, decide_eq_true (lt_wordsNum maxDocId hid)]
      rw [foldl_and_eq_true, Meets, if_pos rfl, ← meetsAll_iff makeRangeQuery maxDocId hagree hid]
      simp only [hseed, true_and, forall_mem_append, forall_mem_map]
    · obtain ⟨s', hcombine, hcache, hkeeps', hread⟩ :=
        combineAll_spec or s₂ (emptyWords false (wordsNum maxDocId)) hall
      have hne : ¬ ("or" = "and") := by decide
      rw [if_neg hne, if_pos rfl, hcombine]
      refine ⟨_, s', _, rfl, hsound₂.of_keeps cache makeRangeQuery hkeeps' hcache,
        (hkeeps.trans hkeeps₂).trans hkeeps', hread, fun id hid => ?_⟩
      rw [foldl_or_eq_true, Meets, if_neg hne, ← meetsAny_iff makeRangeQuery maxDocId hagree hid]
      simp only [emptyWords, Bool.false_and, Bool.false_eq_true, false_or, mem_append,
        or_and_right, exists_or, mem_map, exists_exists_and_eq_and]

theorem exists_doProcessNodes (nodes : List (ConditionsNode PropertyValue))
    (hnodes : AndOrList nodes) {s : FilterState C} (h : Sound cache makeRangeQuery s) :
    ∃ ps s' bitmaps, doProcessNodes cache makeRangeQuery maxDocId nodes s = some (ps, s') ∧
      Sound cache makeRangeQuery s' ∧ s.Keeps s' ∧
      List.Forall₂ (fun p bitmap => s'.bitmaps[p]? = some bitmap) ps bitmaps ∧
      List.Forall₂ (Agrees makeRangeQuery maxDocId) nodes bitmaps := by
  cases nodes with
  | nil =>
    exact ⟨[], s, [], rfl, h, fun p bitmap hp => hp, nil, nil⟩
  | cons node nodes =>
    obtain ⟨hnode, hnodes⟩ := hnodes
    obtain ⟨p, s₁, bitmap, hrun, hsound, hkeeps, hread, hagree⟩ :=
      exists_doProcessFiltertree node hnode h
    obtain ⟨ps, s', bitmaps, hrun', hsound', hkeeps', hreads, hagrees⟩ :=
      exists_doProcessNodes nodes hnodes hsound
    refine ⟨p :: ps, s', bitmap :: bitmaps, ?_, hsound', hkeeps.trans hkeeps',
      cons (hkeeps' p bitmap hread) hreads, cons hagree hagrees⟩
    rw [doProcessNodes, hrun, Option.bind_some, hrun', Option.map_some]

end

/-- The result is what the tree means, on all documents, and every entry of the cache is still the
document set of its own filter. -/
theorem prepareFilter_spec {conditionsTree : ConditionsNode PropertyValue}
    (htree : AndOr conditionsTree) {s : FilterState C} (h : Sound cache makeRangeQuery s) :
    ∃ p s' bitmap, prepareFilter cache makeRangeQuery maxDocId conditionsTree s = some (p, s') ∧
      s'.bitmaps[p]? = some bitmap ∧ (∀ id ≤ maxDocId.toNat,
        bitmap id = true ↔ Meets (filterDocs makeRangeQuery) id conditionsTree) ∧
      Sound cache makeRangeQuery s' := by
  obtain ⟨p, s', bitmap, hrun, hsound, _, hread, hagree⟩ :=
    exists_doProcessFiltertree cache makeRangeQuery maxDocId conditionsTree htree h
  exact ⟨p, s', bitmap, hrun, hread, hagree, hsound⟩

end Correct

/-- The last filter that was set is the only one that is kept. -/
def oneEntryCache {Key : Type} [DecidableEq Key] : FilterCache Key (Option (Key × ℕ)) where
  entry c key := c.bind fun entry => if entry.1 = key then some entry.2 else none
  get c key := (c.bind fun entry => if entry.1 = key then some entry.2 else none, c)
  set _ key p := some (key, p)
  get_eq _ _ _ h := h
  entry_get _ _ _ _ h := h
  entry_set c key p key' p' h := by
    rw [Option.bind_some] at h
    split at h
    · rename_i heq
      exact Or.inl ⟨heq.symm, (Option.some.inj h).symm⟩
    · cases h

/-- Documents 1 to 3 are in stock, documents 2 to 4 are cheap. -/
def shopQuery (_ : FilteringOperation) (property : String) (_ : List ℕ) : FilterBitmap :=
  if property = "stock" then fun id => decide (1 ≤ id ∧ id ≤ 3)
  else fun id => decide (2 ≤ id ∧ id ≤ 4)

theorem prepareFilter_shopQuery : ∃ p s' bitmap, prepareFilter oneEntryCache shopQuery 100
        (.node "and" [{ property := "stock" }] [.node "or" [{ property := "price" }] []])
        ⟨[], none⟩ = some (p, s') ∧
      s'.bitmaps[p]? = some bitmap ∧
      (∀ id ≤ (100 : UInt32).toNat, bitmap id = true ↔ Meets (filterDocs shopQuery) id
          (.node "and" [{ property := "stock" }] [.node "or" [{ property := "price" }] []])) ∧
      Sound oneEntryCache shopQuery s' := by
  apply prepareFilter_spec
  · simp [AndOr, AndOrList]
  · intro filter p hp
    cases hp

end AdDelivery.SearchManager
