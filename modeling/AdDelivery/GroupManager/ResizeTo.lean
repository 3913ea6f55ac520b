import AdDelivery.GroupManager.GroupLimit

/-!
# Top-k facets

A result that is resized should keep of every property with a limit the groups that reach the
`k`-th largest count, and everything else as it is. The smallest count of a queue is read whether
the queue has one or not: it has none for a property without groups, and none for the limit 0,
which a request has for every property that it gives no limit.
-/

namespace AdDelivery.GroupManager

open List Option Finmap

variable {UString S : Type}

/-- The `k`-th largest count, if there are that many. -/
def kthLargest (k : ℕ) (counts : List UInt32) : Option UInt32 :=
  (counts.insertionSort (· ≥ ·))[k - 1]?

/-- The count reaches the `k`-th largest one; all counts do if there are fewer than `k`. -/
def reachesTop (k : ℕ) (counts : List UInt32) (count : UInt32) : Bool :=
  decide (0 < k) && (kthLargest k counts).all fun top => decide (top ≤ count)

/-- Under a property with a limit, the groups that reach its largest counts. -/
def keepTop (utf8 : Utf8 UString) (grouptopForProps : Table String ℤ) (root : GroupRoot UString S) :
    GroupRoot UString S :=
  match grouptopForProps.lookup (utf8.convertString root.text) with
  | none => root
  | some grouptop =>
    { root with
      children := root.children.filterRow fun value =>
        reachesTop grouptop.toNat (groupCounts root) value.docCount }

theorem reachesTop_eq {k : ℕ} (hk : 0 < k) {counts : List UInt32} {count : UInt32}
    (hcount : count ∈ counts) : reachesTop k counts count =
      decide (counts.countP (fun other => decide (count < other)) < k) := by
  have hpos : decide (0 < k) = true := decide_eq_true hk
  rw [reachesTop, hpos]
  rcases Nat.lt_or_ge counts.length k with hlt | hle
  · -- fewer than `k` counts
    have hnone : kthLargest k counts = none := by
      rw [kthLargest, List.getElem?_eq_none_iff, length_insertionSort]
      omega
    have hall : counts.countP (fun other => decide (count < other)) < k :=
      (countP_le_length).trans_lt hlt
    rw [hnone, decide_eq_true hall]
    rfl
  · obtain ⟨top, htop⟩ : ∃ top, kthLargest k counts = some top := by
      refine ⟨_, getElem?_eq_getElem ?_⟩
      rw [length_insertionSort]
      omega
    have hlast : (topK k counts).getLast? = some top := by
      rw [topK, getLast?_take, if_neg hk.ne', ← kthLargest, htop, some_or]
    rw [htop]
    exact decide_eq_decide.mpr (getLast?_topK_le_iff hk hcount hlast)

section ResizeTo

variable {utf8 : Utf8 UString} {grouptopForProps : Table String ℤ}

/-- Limits are numbers of an `int` and not negative. -/
def LimitsFit (grouptopForProps : Table String ℤ) : Prop :=
  ∀ propName grouptop, grouptopForProps.lookup propName = some grouptop →
    0 ≤ grouptop ∧ grouptop < 2 ^ 31

/-- Only the last property may be without groups, only properties without groups may have the
limit 0, and for properties without a limit the number of items is large enough as an `int`. -/
structure Resizable (utf8 : Utf8 UString) (grouptopForProps : Table String ℤ)
    (roots : List (GroupRoot UString S)) : Prop where
  grouped : ∀ root ∈ roots.dropLast, root.children.row ≠ []
  limited : ∀ root ∈ roots,
    grouptopForProps.lookup (utf8.convertString root.text) = some 0 → root.children.row = []
  unlimited : ∀ root ∈ roots,
    grouptopForProps.lookup (utf8.convertString root.text) = none →
      ∀ entry ∈ root.children.row,
        (groupCounts root).countP (fun count => decide (entry.2.docCount < count)) <
          toSizeT (((rootItems roots).length : ℤ).bmod (2 ^ 32))

variable {root : GroupRoot UString S}

theorem mem_groupCounts {entry : UString × GroupValue S} (h : entry ∈ root.children.row) :
    entry.2.docCount ∈ groupCounts root :=
  mem_map_of_mem (f := fun entry => entry.2.docCount) h

theorem toSizeT_grouptop (hlimits : LimitsFit grouptopForProps) {propName : String}
    {grouptop : ℤ} (hlookup : grouptopForProps.lookup propName = some grouptop) :
    toSizeT grouptop = grouptop.toNat := by
  obtain ⟨hpos, hlt⟩ := hlimits propName grouptop hlookup
  rw [toSizeT, Int.emod_eq_of_lt hpos (by omega)]

variable {roots : List (GroupRoot UString S)}

/-- Where the queues can be read, a property with a limit is trimmed as it should be. -/
theorem trimRoot_of_lookup (hlimits : LimitsFit grouptopForProps) {grouptop : ℤ}
    (hlookup : grouptopForProps.lookup (utf8.convertString root.text) = some grouptop)
    (hzero : grouptop = 0 → root.children.row = []) :
    trimRoot (rootLimit utf8 grouptopForProps roots root) root =
      keepTop utf8 grouptopForProps root := by
  have hlimit : rootLimit utf8 grouptopForProps roots root = grouptop.toNat := by
    rw [rootLimit, limitOf, hlookup, getD_some, toSizeT_grouptop hlimits hlookup]
  rw [trimRoot, keepTop, hlookup, hlimit]
  congr 1
  refine Forest.filterRow_congr fun entry hentry => ?_
  have hpos : 0 < grouptop.toNat := by
    have hnonneg := (hlimits _ _ hlookup).1
    refine Nat.pos_of_ne_zero fun htoNat => ?_
    rw [hzero (by omega)] at hentry
    cases hentry
  exact (reachesTop_eq hpos (mem_groupCounts hentry)).symm

theorem Resizable.readable (hlimits : LimitsFit grouptopForProps)
    (h : Resizable utf8 grouptopForProps roots) :
    Readable (rootLimit utf8 grouptopForProps roots) roots := by
  refine ⟨h.grouped, fun root hroot hzero => ?_⟩
  rw [rootLimit, limitOf] at hzero
  cases hlookup : grouptopForProps.lookup (utf8.convertString root.text) with
  | some grouptop =>
    have hnonneg := (hlimits _ _ hlookup).1
    rw [hlookup, getD_some, toSizeT_grouptop hlimits hlookup] at hzero
    obtain rfl : grouptop = 0 := by omega
    exact h.limited root hroot hlookup
  | none =>
    rw [hlookup, getD_none] at hzero
    refine eq_nil_iff_forall_not_mem.mpr fun entry hentry => ?_
    have hlt := h.unlimited root hroot hlookup entry hentry
    omega

theorem Readable.resizable (h : Readable (rootLimit utf8 grouptopForProps roots) roots)
    (hall : ∀ root ∈ roots, grouptopForProps.lookup (utf8.convertString root.text) = none →
      ∀ entry ∈ root.children.row,
        (groupCounts root).countP (fun count => decide (entry.2.docCount < count)) <
          toSizeT (((rootItems roots).length : ℤ).bmod (2 ^ 32))) :
    Resizable utf8 grouptopForProps roots := by
  refine ⟨h.1, fun root hroot hlookup => h.2 root hroot ?_, hall⟩
  rw [rootLimit, limitOf, hlookup]
  rfl

theorem length_rootItems (roots : List (GroupRoot UString S)) :
    (rootItems roots).length = (roots.map fun root => root.children.size + 1).sum := by
  rw [rootItems, length_flatMap]
  congr 1
  exact map_congr_left fun root _ => by rw [length_cons, length_items]

/-- Lists of equal length have lost nothing in any of their parts. -/
theorem eq_of_sum_eq {α : Type*} {f g : α → ℕ} {l : List α} (hle : ∀ a ∈ l, f a ≤ g a)
    (h : (l.map f).sum = (l.map g).sum) : ∀ a ∈ l, f a = g a := by
  induction l with
  | nil => exact nofun
  | cons a l ih =>
    have hrest : (l.map f).sum ≤ (l.map g).sum :=
      sum_le_sum fun b hb => hle b (mem_cons_of_mem a hb)
    have hhead := hle a mem_cons_self
    rw [map_cons, map_cons, sum_cons, sum_cons] at h
    intro b hb
    rcases mem_cons.mp hb with rfl | hb
    · omega
    · exact ih (fun c hc => hle c (mem_cons_of_mem a hc)) (by omega) b hb

/-- A result is resized to its top groups, and no empty queue is read, exactly if it has the
groups and the limits for that. -/
theorem resizeTo_eq_keepTop_iff (hlimits : LimitsFit grouptopForProps)
    (roots : List (GroupRoot UString S)) : resizeTo utf8 grouptopForProps (rootItems roots) =
        some (rootItems (roots.map (keepTop utf8 grouptopForProps))) ↔
      Resizable utf8 grouptopForProps roots := by
  constructor
  · intro hresize
    have hread : Readable (rootLimit utf8 grouptopForProps roots) roots := by
      by_contra hnot
      rw [resizeTo_eq_none hnot] at hresize
      cases hresize
    rw [resizeTo_of_readable hread, some.injEq] at hresize
    have htrim {root : GroupRoot UString S} (hroot : root ∈ roots) {grouptop : ℤ}
        (hlookup : grouptopForProps.lookup (utf8.convertString root.text) = some grouptop) :
        trimRoot (rootLimit utf8 grouptopForProps roots root) root =
          keepTop utf8 grouptopForProps root := by
      refine trimRoot_of_lookup hlimits hlookup fun hzero => hread.2 root hroot ?_
      rw [rootLimit, limitOf, hlookup, hzero]
      rfl
    have hkeep {root : GroupRoot UString S}
        (hlookup : grouptopForProps.lookup (utf8.convertString root.text) = none) :
        keepTop utf8 grouptopForProps root = root := by
      rw [keepTop, hlookup]
    have hsize := congrArg List.length hresize
    rw [length_rootItems, length_rootItems, List.map_map, List.map_map] at hsize
    have hequal := eq_of_sum_eq (fun root hroot => ?_) hsize
    · refine hread.resizable fun root hroot hlookup entry hentry => ?_
      have hroot' := hequal root hroot
      simp only [Function.comp_apply, hkeep hlookup, Nat.add_right_cancel_iff] at hroot'
      have hentry' := of_decide_eq_true (Forest.all_row_of_size_filterRow hroot' entry hentry)
      rwa [rootLimit, limitOf, hlookup, getD_none] at hentry'
    · cases hlookup : grouptopForProps.lookup (utf8.convertString root.text) with
      | some grouptop =>
        simp only [Function.comp_apply, htrim hroot hlookup]
        exact Nat.le_refl _
      | none =>
        simp only [Function.comp_apply, hkeep hlookup]
        exact Nat.succ_le_succ (Forest.size_filterRow_le _ _)
  · intro h
    rw [resizeTo_of_readable (h.readable hlimits)]
    congr 2
    refine map_congr_left fun root hroot => ?_
    cases hlookup : grouptopForProps.lookup (utf8.convertString root.text) with
    | some grouptop =>
      refine trimRoot_of_lookup hlimits hlookup ?_
      rintro rfl
      exact h.limited root hroot hlookup
    | none =>
      rw [keepTop, hlookup, trimRoot, Forest.filterRow_eq_self]
      intro entry hentry
      have hlt := h.unlimited root hroot hlookup entry hentry
      rw [rootLimit, limitOf, hlookup, getD_none]
      simpa only [decide_eq_true_eq] using hlt

/-- One property with two brands. -/
def brandRoot : GroupRoot String ℕ where
  text := "Brand"
  value := ⟨0, 4, 0⟩
  children := .node "acme" ⟨1, 3, 0⟩ .nil (.node "zeta" ⟨2, 1, 0⟩ .nil .nil)

theorem resizeTo_brandRoot :
    resizeTo ⟨id, id, fun _ => rfl⟩ (singleton "Brand" 1) (rootItems [brandRoot]) =
      some (rootItems ([brandRoot].map
        (keepTop ⟨id, id, fun _ => rfl⟩ (singleton "Brand" 1)))) := by
  have hlookup : (singleton "Brand" 1 : Table String ℤ).lookup "Brand" = some 1 :=
    lookup_singleton_eq
  refine (resizeTo_eq_keepTop_iff (fun propName grouptop hgrouptop => ?_) _).mpr
    ⟨nofun, fun root hroot hzero => ?_, fun root hroot hnone => ?_⟩
  · by_cases hname : propName = "Brand"
    · rw [hname, hlookup, some.injEq] at hgrouptop
      omega
    · have hmem : propName ∈ (singleton "Brand" 1 : Table String ℤ) :=
        mem_of_lookup_eq_some hgrouptop
      exact absurd ((mem_singleton _ _ _).mp hmem) hname
  · obtain rfl := mem_singleton.mp hroot
    cases hlookup.symm.trans hzero
  · obtain rfl := mem_singleton.mp hroot
    cases hlookup.symm.trans hnone

/-- No document has a brand, and after the brand the next property begins. -/
theorem resizeTo_ne_of_noBrand : resizeTo (S := ℕ) ⟨id, id, fun _ => rfl⟩ (singleton "Brand" 1)
        (rootItems [⟨"Brand", ⟨0, 0, 0⟩, .nil⟩, brandRoot]) ≠
      some (rootItems (([⟨"Brand", ⟨0, 0, 0⟩, .nil⟩, brandRoot] : List (GroupRoot String ℕ)).map
        (keepTop ⟨id, id, fun _ => rfl⟩ (singleton "Brand" 1)))) := by
  exact nofun

end ResizeTo

end AdDelivery.GroupManager
