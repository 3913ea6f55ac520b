import AdDelivery.Core.Pruning
import AdDelivery.Core.TopK
import AdDelivery.GroupManager.StringGroupCounter

/-!
# Limits on the groups of a property

`ResizeTo` walks over a list of items twice. The first walk keeps a queue for each property,
with as many of the greatest counts at level 1 as the limit of the property allows; the second
walk erases the groups, with everything below them, whose count does not reach the smallest one
in the queue. Reading the smallest count of an empty queue has no defined outcome.
-/

namespace AdDelivery.GroupManager

open List Nat Option Forest

variable {UString S : Type}

instance linearOrderUInt32 : LinearOrder UInt32 where
  le_refl := UInt32.le_refl
  le_trans _ _ _ := UInt32.le_trans
  le_antisymm _ _ := UInt32.le_antisymm
  le_total := UInt32.le_total
  lt_iff_le_not_ge := fun _ _ => by
    rw [UInt32.not_le]
    exact ⟨fun h => ⟨UInt32.le_of_lt h, h⟩, And.right⟩
  toDecidableLE := inferInstance
  toDecidableLT := inferInstance
  toDecidableEq := inferInstance

/-- The conversion to `size_t`. -/
def toSizeT (n : ℤ) : ℕ := (n % 2 ^ 64).toNat

/-- The last queue is the head. A queue descends, so that its top is at the end. -/
structure TopKPass where
  topkDocCountQueue : List (List UInt32)
  grouptop : ℤ

/-- One step of the first walk. The top of the queue before a new property is printed. -/
def TopKPass.step (utf8 : Utf8 UString) (grouptopForProps : Table String ℤ) (size : ℤ)
    (pass : TopKPass) (item : OntologyRepItem UString S) : Option TopKPass := do
  let pass ←
    if item.level = 0 then
      match pass.topkDocCountQueue with
      | [] :: _ => none
      | queues =>
        some
          { topkDocCountQueue := [] :: queues
            grouptop := (grouptopForProps.lookup (utf8.convertString item.text)).getD size }
    else if item.level = 1 then
      match pass.topkDocCountQueue with
      | [] => none
      | queue :: queues =>
        some { pass with
          topkDocCountQueue := queue.orderedInsert (· ≥ ·) item.docCount :: queues }
    else some pass
  match pass.topkDocCountQueue with
  | [] => none
  | queue :: queues =>
    if toSizeT pass.grouptop < queue.length then
      some { pass with topkDocCountQueue := queue.dropLast :: queues }
    else some pass

/-- The top of the queue of the property at `propIndex`, which is one less than the number of
properties that were passed. -/
def queueTop (queues : List (List UInt32)) (propIndex : ℤ) : Option UInt32 :=
  if propIndex < 0 then none else queues[propIndex.toNat]?.bind List.getLast?

/-- The second walk. An item is erased when a later item ends the group that is being removed,
or the end of the list does. -/
def eraseGroups (queues : List (List UInt32)) :
    ℤ → Bool → StringGroupRep UString S → Option (StringGroupRep UString S)
  | _, _, [] => some []
  | propIndex, needRemoveLast, item :: rest =>
    if item.level = 0 then (eraseGroups queues (propIndex + 1) false rest).map (item :: ·)
    else if item.level = 1 then
      (queueTop queues propIndex).bind fun top =>
        if item.docCount < top then eraseGroups queues propIndex true rest
        else (eraseGroups queues propIndex false rest).map (item :: ·)
    else if needRemoveLast then eraseGroups queues propIndex true rest
    else (eraseGroups queues propIndex false rest).map (item :: ·)

open TopKPass

/-- `none` for reading an empty queue. A property without a limit has the size of the list, as
an `int`. -/
def resizeTo (utf8 : Utf8 UString) (grouptopForProps : Table String ℤ)
    (stringGroupRep : StringGroupRep UString S) : Option (StringGroupRep UString S) := do
  let size := (stringGroupRep.length : ℤ).bmod (2 ^ 32)
  let pass ← stringGroupRep.foldlM (step utf8 grouptopForProps size)
    { topkDocCountQueue := [], grouptop := size }
  eraseGroups pass.topkDocCountQueue.reverse (-1) false stringGroupRep

section FirstWalk

variable (utf8 : Utf8 UString) (grouptopForProps : Table String ℤ) (size : ℤ)

/-- The limit that a property gets. -/
def limitOf (text : UString) : ℕ :=
  toSizeT ((grouptopForProps.lookup (utf8.convertString text)).getD size)

/-- The counts of the groups of a property. -/
def groupCounts (root : GroupRoot UString S) : List UInt32 :=
  root.children.row.map fun entry => entry.2.docCount

variable {utf8 grouptopForProps size} {queues : List (List UInt32)}

theorem step_property (hqueues : queues.head? ≠ some []) (grouptop : ℤ) (text : UString)
    (value : GroupValue S) :
    step utf8 grouptopForProps size ⟨queues, grouptop⟩ (toItem 0 text value) =
      some ⟨[] :: queues, (grouptopForProps.lookup (utf8.convertString text)).getD size⟩ := by
  unfold step
  cases queues with
  | nil => simp [toItem]
  | cons queue queues =>
    cases queue with
    | nil => exact absurd rfl hqueues
    | cons x queue => simp [toItem]

variable {queue : List UInt32} {grouptop : ℤ}

/-- A queue that is too long by one loses its smallest count. -/
theorem step_group (hqueue : queue.length ≤ toSizeT grouptop) (queues : List (List UInt32))
    (text : UString) (value : GroupValue S) :
    step utf8 grouptopForProps size ⟨queue :: queues, grouptop⟩ (toItem 1 text value) =
      some ⟨(queue.orderedInsert (· ≥ ·) value.docCount).take (toSizeT grouptop) :: queues,
        grouptop⟩ := by
  have hlen := orderedInsert_length (· ≥ ·) queue value.docCount
  simp only [step, toItem, one_ne_zero, if_false, if_true, bind_eq_bind, bind_some]
  split
  · have htake : toSizeT grouptop = (queue.orderedInsert (· ≥ ·) value.docCount).length - 1 := by
      omega
    rw [dropLast_eq_take, ← htake]
  · rw [take_of_length_le (by omega)]

/-- Items below the groups change nothing. -/
theorem foldlM_step_items (hqueue : queue.length ≤ toSizeT grouptop) (queues : List (List UInt32))
    {level : ℕ} (hlevel : 1 < level) (f : Forest UString (GroupValue S)) :
    (items level f).foldlM (step utf8 grouptopForProps size)
      ⟨queue :: queues, grouptop⟩ = some ⟨queue :: queues, grouptop⟩ := by
  have hstep : ∀ item ∈ items level f,
      step utf8 grouptopForProps size ⟨queue :: queues, grouptop⟩ item =
        some ⟨queue :: queues, grouptop⟩ := by
    intro item hitem
    have hle := le_level_of_mem_items hitem
    simp only [step, if_neg (by omega : ¬ item.level = 0),
      if_neg (by omega : ¬ item.level = 1), bind_eq_bind, bind_some,
      if_neg (not_lt.mpr hqueue)]
  generalize items level f = rep at hstep
  induction rep with
  | nil => rfl
  | cons item rep ih =>
    rw [foldlM_cons, hstep item (mem_cons_self ..), bind_eq_bind,
      bind_some, ih fun item' hitem' => hstep item' (mem_cons_of_mem _ hitem')]

/-- The groups of a property fill its queue. -/
theorem foldlM_step_groups (f : Forest UString (GroupValue S))
    (hqueue : queue.length ≤ toSizeT grouptop) (queues : List (List UInt32)) :
    (items 1 f).foldlM (step utf8 grouptopForProps size) ⟨queue :: queues, grouptop⟩ =
      some ⟨(f.row.map fun entry => entry.2.docCount).foldl
        (fun queue x => (queue.orderedInsert (· ≥ ·) x).take (toSizeT grouptop)) queue :: queues,
        grouptop⟩ := by
  induction f generalizing queue with
  | nil => rfl
  | node text value children siblings _ ih =>
    have hqueue' : ((queue.orderedInsert (· ≥ ·) value.docCount).take
        (toSizeT grouptop)).length ≤ toSizeT grouptop := length_take_le _ _
    rw [items, foldlM_cons, step_group hqueue, bind_eq_bind, bind_some,
      foldlM_append, foldlM_step_items hqueue' queues (by omega), bind_eq_bind,
      bind_some, ih hqueue', row, map_cons, foldl_cons]

variable (utf8 grouptopForProps size)

/-- The queue of a property behind its last group. -/
def rootQueue (root : GroupRoot UString S) : List UInt32 :=
  topK (limitOf utf8 grouptopForProps size root.text) (groupCounts root)

variable {utf8 grouptopForProps size}

theorem foldlM_step_root (hqueues : queues.head? ≠ some []) (grouptop : ℤ)
    (root : GroupRoot UString S) :
    ∃ grouptop', (toItem 0 root.text root.value :: items 1 root.children).foldlM
      (step utf8 grouptopForProps size) ⟨queues, grouptop⟩ =
        some ⟨rootQueue utf8 grouptopForProps size root :: queues, grouptop'⟩ := by
  refine ⟨(grouptopForProps.lookup (utf8.convertString root.text)).getD size, ?_⟩
  rw [foldlM_cons, step_property hqueues, bind_eq_bind, bind_some,
    foldlM_step_groups root.children (zero_le _) queues, ← groupCounts,
    ← topK_nil (limitOf utf8 grouptopForProps size root.text), ← limitOf,
    foldl_orderedInsert_topK, append_nil, rootQueue]

/-- The first walk leaves a queue for each property, unless a property after which another one
begins has an empty queue. -/
theorem foldlM_step_rootItems (roots : List (GroupRoot UString S))
    (hqueues : queues.head? ≠ some []) (grouptop : ℤ)
    (hroots : ∀ root ∈ roots.dropLast, rootQueue utf8 grouptopForProps size root ≠ []) :
    ∃ grouptop', (rootItems roots).foldlM (step utf8 grouptopForProps size)
      ⟨queues, grouptop⟩ =
        some ⟨(roots.map (rootQueue utf8 grouptopForProps size)).reverse ++ queues, grouptop'⟩ := by
  induction roots generalizing queues grouptop with
  | nil => exact ⟨grouptop, rfl⟩
  | cons root roots ih =>
    obtain ⟨grouptop₁, hroot⟩ := foldlM_step_root hqueues grouptop root
    rw [rootItems, flatMap_cons, foldlM_append, hroot,
      bind_eq_bind, map_cons, reverse_cons, append_assoc]
    cases roots with
    | nil => exact ⟨grouptop₁, rfl⟩
    | cons next roots =>
      have hhead : rootQueue utf8 grouptopForProps size root ≠ [] :=
        hroots root (mem_cons_self ..)
      refine ih (by simpa using hhead) grouptop₁ fun root' hroot' => hroots root' ?_
      exact mem_cons_of_mem _ hroot'

theorem foldlM_step_rootItems_eq_none {roots : List (GroupRoot UString S)}
    (hqueues : queues.head? ≠ some []) (grouptop : ℤ) {root : GroupRoot UString S}
    (hroot : root ∈ roots.dropLast) (hempty : rootQueue utf8 grouptopForProps size root = []) :
    (rootItems roots).foldlM (step utf8 grouptopForProps size) ⟨queues, grouptop⟩ =
      none := by
  induction roots generalizing queues grouptop with
  | nil => cases hroot
  | cons first roots ih =>
    cases roots with
    | nil => cases hroot
    | cons next roots =>
      obtain ⟨grouptop₁, hfirst⟩ := foldlM_step_root hqueues grouptop first
      rw [rootItems, flatMap_cons, ← rootItems, foldlM_append, hfirst, bind_eq_bind, bind_some]
      by_cases hnil : rootQueue utf8 grouptopForProps size first = []
      · rw [hnil, rootItems, flatMap_cons, cons_append, foldlM_cons]
        rfl
      · refine ih (by simpa using hnil) grouptop₁ ?_
        rw [dropLast_cons_cons, mem_cons] at hroot
        rcases hroot with rfl | hroot
        · exact absurd hempty hnil
        · exact hroot

end FirstWalk

section SecondWalk

/-- The groups of a property that fewer than `k` groups exceed. -/
def trimRoot (k : ℕ) (root : GroupRoot UString S) : GroupRoot UString S :=
  { root with
    children := root.children.filterRow fun value =>
      decide ((groupCounts root).countP (fun count => decide (value.docCount < count)) < k) }

variable {queues : List (List UInt32)} {propIndex : ℤ}

/-- Where a property begins, nothing is being removed any more. -/
theorem eraseGroups_rootItems_removing (removing : Bool) (roots : List (GroupRoot UString S)) :
    eraseGroups queues propIndex removing (rootItems roots) =
      eraseGroups queues propIndex false (rootItems roots) := by
  cases roots with
  | nil => rfl
  | cons root roots => simp [rootItems, eraseGroups, toItem]

/-- Everything below a group goes with it. -/
theorem eraseGroups_items_append (removing : Bool) {level : ℕ} (hlevel : 1 < level)
    (f : Forest UString (GroupValue S)) (rest : StringGroupRep UString S) :
    eraseGroups queues propIndex removing (items level f ++ rest) =
      (eraseGroups queues propIndex removing rest).map
        ((if removing then [] else items level f) ++ ·) := by
  have hitems : ∀ item ∈ items level f, 1 < item.level :=
    fun item hitem => lt_of_lt_of_le hlevel (le_level_of_mem_items hitem)
  generalize items level f = rep at hitems
  induction rep with
  | nil => simp
  | cons item rep ih =>
    have hitem := hitems item (mem_cons_self ..)
    have hrep := ih fun item' hitem' => hitems item' (mem_cons_of_mem _ hitem')
    rw [cons_append, eraseGroups, if_neg (by omega), if_neg (by omega)]
    cases removing with
    | true => rw [if_pos rfl, hrep, if_pos rfl, if_pos rfl]
    | false =>
      rw [hrep, Option.map_map]
      rfl

/-- The groups of one property. -/
theorem eraseGroups_groups {top : UInt32} (htop : queueTop queues propIndex = some top)
    (removing : Bool) (f : Forest UString (GroupValue S)) (roots : List (GroupRoot UString S)) :
    eraseGroups queues propIndex removing (items 1 f ++ rootItems roots) =
      (eraseGroups queues propIndex false (rootItems roots)).map
        (items 1 (f.filterRow fun value => decide (top ≤ value.docCount)) ++ ·) := by
  induction f generalizing removing with
  | nil =>
    rw [items, nil_append, eraseGroups_rootItems_removing, filterRow]
    exact map_id'.symm
  | node text value children siblings _ ih =>
    have hlevel : (toItem 1 text value).level = 1 := rfl
    rw [items, cons_append, append_assoc, eraseGroups, filterRow, hlevel,
      if_neg one_ne_zero, htop, bind_some]
    have hdoc : (toItem 1 text value).docCount = value.docCount := rfl
    by_cases hcount : value.docCount < top
    · have hsmall : ¬ decide (top ≤ value.docCount) = true := by simpa using hcount
      rw [if_neg hsmall, hdoc, if_pos hcount, eraseGroups_items_append true (by omega), ih,
        Option.map_map]
      rfl
    · have hlarge : decide (top ≤ value.docCount) = true := by simpa using hcount
      rw [if_pos hlarge, hdoc, if_neg hcount, eraseGroups_items_append false (by omega), ih,
        items.eq_2]
      simp [Option.map_map, Function.comp_def]

theorem eraseGroups_groups_eq_none (htop : queueTop queues propIndex = none) (removing : Bool)
    {f : Forest UString (GroupValue S)} (hf : f.row ≠ []) (rest : StringGroupRep UString S) :
    eraseGroups queues propIndex removing (items 1 f ++ rest) = none := by
  cases f with
  | nil => exact absurd rfl hf
  | node text value children siblings =>
    have hlevel : (toItem 1 text value).level = 1 := rfl
    rw [items, cons_append, eraseGroups, hlevel, htop]
    rfl

theorem queueTop_of_nonneg {i : ℕ} (h : propIndex = i) :
    queueTop queues propIndex = queues[i]?.bind List.getLast? := by
  rw [queueTop, if_neg (by omega), h, Int.toNat_natCast]

variable (roots : List (GroupRoot UString S))

/-- The second walk trims every property, its queues being those of the properties. -/
theorem eraseGroups_rootItems {limit : GroupRoot UString S → ℕ} (n : ℕ)
    (hqueues : ∀ i root, roots[i]? = some root →
      queues[n + i]? = some (topK (limit root) (groupCounts root)))
    (hlimit : ∀ root ∈ roots, limit root = 0 → root.children.row = []) :
    eraseGroups queues ((n : ℤ) - 1) false (rootItems roots) =
      some (rootItems (roots.map fun root => trimRoot (limit root) root)) := by
  induction roots generalizing n with
  | nil => rfl
  | cons root roots ih =>
    have hrest : eraseGroups queues ((n : ℤ) - 1 + 1) false (rootItems roots) =
        some (rootItems (roots.map fun root => trimRoot (limit root) root)) := by
      have hnext : ((n : ℤ) - 1 + 1) = ((n + 1 : ℕ) : ℤ) - 1 := by omega
      rw [hnext]
      refine ih (n + 1) (fun i root' hroot' => ?_)
        fun root' hroot' => hlimit root' (mem_cons_of_mem _ hroot')
      rw [add_right_comm]
      exact hqueues (i + 1) root' hroot'
    have hlevel : (toItem 0 root.text root.value).level = 0 := rfl
    have hqueue : queueTop queues ((n : ℤ) - 1 + 1) =
        (topK (limit root) (groupCounts root)).getLast? := by
      rw [queueTop_of_nonneg (i := n) (by omega), ← add_zero n, hqueues 0 root rfl,
        bind_some]
    have hgroups : eraseGroups queues ((n : ℤ) - 1 + 1) false
        (items 1 root.children ++ rootItems roots) =
        (eraseGroups queues ((n : ℤ) - 1 + 1) false (rootItems roots)).map
          (items 1 (trimRoot (limit root) root).children ++ ·) := by
      cases htop : (topK (limit root) (groupCounts root)).getLast? with
      | none =>
        -- a property whose queue is empty has no group
        have hrow : root.children.row = [] := by
          rcases Nat.eq_zero_or_pos (limit root) with hzero | hpos
          · exact hlimit root (mem_cons_self ..) hzero
          · rw [getLast?_eq_none_iff, topK_eq_nil_iff hpos, groupCounts, map_eq_nil_iff] at htop
            exact htop
        rw [trimRoot, eq_nil_of_row hrow]
        exact map_id'.symm
      | some top =>
        rw [eraseGroups_groups (hqueue.trans htop), trimRoot]
        congr 2
        rw [filterRow_congr]
        intro entry hentry
        have hpos : 0 < limit root := by
          rcases Nat.eq_zero_or_pos (limit root) with hzero | hpos
          · rw [hlimit root (mem_cons_self ..) hzero] at hentry
            cases hentry
          · exact hpos
        have hmem : entry.2.docCount ∈ groupCounts root := mem_map_of_mem hentry
        exact decide_eq_decide.mpr (getLast?_topK_le_iff hpos hmem htop)
    rw [rootItems, flatMap_cons, ← rootItems, cons_append, eraseGroups, hlevel,
      hgroups, hrest]
    rfl

/-- A property with groups and an empty queue stops the second walk. -/
theorem eraseGroups_rootItems_eq_none (n : ℕ) {i : ℕ} {root : GroupRoot UString S}
    (hroot : roots[i]? = some root) (hqueue : queues[n + i]? = some [])
    (hrow : root.children.row ≠ []) :
    eraseGroups queues ((n : ℤ) - 1) false (rootItems roots) = none := by
  induction roots generalizing n i with
  | nil => cases hroot
  | cons first roots ih =>
    have hlevel : (toItem 0 first.text first.value).level = 0 := rfl
    suffices hgroups : eraseGroups queues ((n : ℤ) - 1 + 1) false
        (items 1 first.children ++ rootItems roots) = none by
      rw [rootItems, flatMap_cons, ← rootItems, cons_append, eraseGroups, hlevel,
        hgroups]
      rfl
    cases i with
    | zero =>
      cases hroot
      have htop : queueTop queues ((n : ℤ) - 1 + 1) = none := by
        rw [queueTop_of_nonneg (i := n) (by omega), ← add_zero n, hqueue]
        rfl
      exact eraseGroups_groups_eq_none htop false hrow _
    | succ i =>
      have hnext : ((n : ℤ) - 1 + 1) = ((n + 1 : ℕ) : ℤ) - 1 := by omega
      have hrest : eraseGroups queues ((n : ℤ) - 1 + 1) false (rootItems roots) = none := by
        rw [hnext]
        refine ih (n + 1) hroot ?_
        rw [add_right_comm]
        exact hqueue
      cases htop : queueTop queues ((n : ℤ) - 1 + 1) with
      | some top =>
        rw [eraseGroups_groups htop, hrest]
        rfl
      | none =>
        by_cases hfirst : first.children.row = []
        · rw [eq_nil_of_row hfirst]
          exact hrest
        · exact eraseGroups_groups_eq_none htop false hfirst _

end SecondWalk

section ResizeTo

variable {utf8 : Utf8 UString} {grouptopForProps : Table String ℤ}

/-- Every property after which another one begins has a group, and no property with groups has
the limit 0. -/
def Readable (limit : GroupRoot UString S → ℕ) (roots : List (GroupRoot UString S)) : Prop :=
  (∀ root ∈ roots.dropLast, root.children.row ≠ []) ∧
    ∀ root ∈ roots, limit root = 0 → root.children.row = []

/-- The limits for a list of items. -/
def rootLimit (utf8 : Utf8 UString) (grouptopForProps : Table String ℤ)
    (roots : List (GroupRoot UString S)) (root : GroupRoot UString S) : ℕ :=
  limitOf utf8 grouptopForProps (((rootItems roots).length : ℤ).bmod (2 ^ 32)) root.text

variable {roots : List (GroupRoot UString S)}

theorem resizeTo_of_readable (h : Readable (rootLimit utf8 grouptopForProps roots) roots) :
    resizeTo utf8 grouptopForProps (rootItems roots) = some (rootItems (roots.map fun root =>
        trimRoot (rootLimit utf8 grouptopForProps roots root) root)) := by
  have hqueues : ∀ root ∈ roots.dropLast, rootQueue utf8 grouptopForProps
      (((rootItems roots).length : ℤ).bmod (2 ^ 32)) root ≠ [] := by
    intro root hroot
    have hrow := h.1 root hroot
    have hpos : 0 < rootLimit utf8 grouptopForProps roots root :=
      pos_of_ne_zero fun hzero => hrow (h.2 root (mem_of_mem_dropLast hroot) hzero)
    rw [rootLimit] at hpos
    rw [rootQueue, Ne, topK_eq_nil_iff hpos, groupCounts, map_eq_nil_iff]
    exact hrow
  have hstart : ([] : List (List UInt32)).head? ≠ some [] := nofun
  obtain ⟨grouptop, hwalk⟩ := foldlM_step_rootItems roots hstart
    (((rootItems roots).length : ℤ).bmod (2 ^ 32)) hqueues
  unfold resizeTo
  simp only [hwalk, bind_eq_bind, bind_some, append_nil, reverse_reverse]
  refine eraseGroups_rootItems roots 0 (fun i root hroot => ?_) h.2
  rw [zero_add, getElem?_map, hroot]
  rfl

theorem resizeTo_eq_none (h : ¬ Readable (rootLimit utf8 grouptopForProps roots) roots) :
    resizeTo utf8 grouptopForProps (rootItems roots) = none := by
  have hstart : ([] : List (List UInt32)).head? ≠ some [] := nofun
  unfold resizeTo
  by_cases hempty : ∃ root ∈ roots.dropLast, rootQueue utf8 grouptopForProps
      (((rootItems roots).length : ℤ).bmod (2 ^ 32)) root = []
  · obtain ⟨root, hroot, hqueue⟩ := hempty
    simp only [foldlM_step_rootItems_eq_none hstart _ hroot hqueue]
    rfl
  · have hqueues : ∀ root ∈ roots.dropLast, rootQueue utf8 grouptopForProps
        (((rootItems roots).length : ℤ).bmod (2 ^ 32)) root ≠ [] :=
      fun root hroot hqueue => hempty ⟨root, hroot, hqueue⟩
    obtain ⟨grouptop, hwalk⟩ := foldlM_step_rootItems roots hstart
      (((rootItems roots).length : ℤ).bmod (2 ^ 32)) hqueues
    have hlimit : ∃ root ∈ roots, rootLimit utf8 grouptopForProps roots root = 0 ∧
        root.children.row ≠ [] := by
      by_contra hnone
      refine h ⟨fun root hroot hrow => hqueues root hroot ?_, fun root hroot hzero => ?_⟩
      · rw [rootQueue, groupCounts, hrow]
        exact topK_nil _
      · by_contra hrow
        exact hnone ⟨root, hroot, hzero, hrow⟩
    obtain ⟨root, hroot, hzero, hrow⟩ := hlimit
    obtain ⟨i, hi⟩ := mem_iff_getElem?.mp hroot
    simp only [hwalk, bind_eq_bind, bind_some, append_nil, reverse_reverse]
    refine eraseGroups_rootItems_eq_none roots 0 hi ?_ hrow
    rw [zero_add, getElem?_map, hi, map_some, rootQueue]
    rw [rootLimit] at hzero
    rw [hzero, topK, take_zero]

end ResizeTo

end AdDelivery.GroupManager
