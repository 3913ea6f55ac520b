import AdDelivery.Core.Forest
import Mathlib.Algebra.Order.BigOperators.Group.List
import Mathlib.Data.String.Basic
import Mathlib.Data.UInt

/-!
# Merging string groups

A group result lists the nodes of a tree for each property in preorder, every node with its
level. `mergeStringGroup` adds one such list to another in place: two iterators walk over the
lists, and a recursion for each level leaves them behind the subtrees it merged. The levels are
bytes and the counts have 32 bits.
-/

namespace AdDelivery.GroupManager

open List Forest

variable {UString Score : Type}

structure OntologyRepItem (UString Score : Type) where
  level : ℕ
  text : UString
  id : ℕ
  docCount : UInt32
  score : Score

/-- The iterators stand before `rest` and `orest`. The first component of the result is what
lies between the old and the new place of the first iterator, inserted items included; the
others are what the iterators still have before them. Every call moves an iterator or returns,
so the number of items bounds the `fuel` that is needed. -/
def recurseStringGroup [LinearOrder UString] :
    ℕ → ℕ → List (OntologyRepItem UString Score) → List (OntologyRepItem UString Score) →
      List (OntologyRepItem UString Score) × List (OntologyRepItem UString Score) ×
        List (OntologyRepItem UString Score)
  | 0, _, rest, orest => ([], rest, orest)
  | fuel + 1, level, rest, orest =>
    match rest.head?.filter (level ≤ ·.level), orest.head?.filter (level ≤ ·.level) with
    | some item, some oitem =>
      if item.text < oitem.text then
        let skipped := rest.tail.takeWhile (level < ·.level)
        let next := recurseStringGroup fuel level (rest.tail.drop skipped.length) orest
        (item :: skipped ++ next.1, next.2)
      else if oitem.text < item.text then
        let inserted := orest.tail.takeWhile (level < ·.level)
        let next := recurseStringGroup fuel level rest (orest.tail.drop inserted.length)
        (oitem :: inserted ++ next.1, next.2)
      else
        let inner := recurseStringGroup fuel ((level + 1) % 2 ^ 8) rest.tail orest.tail
        let next := recurseStringGroup fuel level inner.2.1 inner.2.2
        ({ item with docCount := item.docCount + oitem.docCount } :: inner.1 ++ next.1, next.2)
    | some _, none =>
      let skipped := rest.takeWhile (level ≤ ·.level)
      (skipped, rest.drop skipped.length, orest)
    | none, some _ =>
      let inserted := orest.takeWhile (level ≤ ·.level)
      (inserted, rest, orest.drop inserted.length)
    | none, none => ([], rest, orest)

/-- The items of `other` are taken as a copy. -/
def mergeStringGroup [LinearOrder UString] (rep other : List (OntologyRepItem UString Score)) :
    List (OntologyRepItem UString Score) :=
  if other.isEmpty then rep
  else if rep.isEmpty then other
  else
    let merged := recurseStringGroup (rep.length + other.length + 1) 0 rep other
    merged.1 ++ merged.2.1

/-- What a node carries besides its text. -/
structure GroupValue (Score : Type) where
  id : ℕ
  docCount : UInt32
  score : Score

/-- Only the count of a node is added to. -/
def GroupValue.add (value other : GroupValue Score) : GroupValue Score :=
  { value with docCount := value.docCount + other.docCount }

/-- The tree of one property. -/
structure GroupRoot (UString Score : Type) where
  text : UString
  value : GroupValue Score
  children : Forest UString (GroupValue Score)

def toItem (level : ℕ) (text : UString) (value : GroupValue Score) :
    OntologyRepItem UString Score :=
  { level, text, id := value.id, docCount := value.docCount, score := value.score }

/-- The nodes of a forest in preorder, its rows at `level`. -/
def items (level : ℕ) : Forest UString (GroupValue Score) → List (OntologyRepItem UString Score)
  | .nil => []
  | .node text value children siblings =>
    toItem level text value :: (items (level + 1) children ++ items level siblings)

/-- The trees of all properties, one after another. -/
def rootItems (roots : List (GroupRoot UString Score)) : List (OntologyRepItem UString Score) :=
  roots.flatMap fun root => toItem 0 root.text root.value :: items 1 root.children

@[simp] theorem length_items (level : ℕ) (f : Forest UString (GroupValue Score)) :
    (items level f).length = f.size := by
  induction f generalizing level with
  | nil => rfl
  | node text value children siblings ihc ihs =>
    simp [items, size, ihc, ihs]

variable {level : ℕ} {item : OntologyRepItem UString Score}

theorem le_level_of_mem_items {f : Forest UString (GroupValue Score)} (h : item ∈ items level f) :
    level ≤ item.level := by
  induction f generalizing level with
  | nil => cases h
  | node text value children siblings ihc ihs =>
    rw [items, mem_cons, mem_append] at h
    rcases h with rfl | h | h
    · exact Nat.le_refl level
    · exact Nat.le_of_succ_le (ihc h)
    · exact ihs h

/-- A list that is empty or begins below a level. -/
def EndsBelow (level : ℕ) (rest : List (OntologyRepItem UString Score)) : Prop :=
  rest.head?.filter (level ≤ ·.level) = none

theorem endsBelow_nil (level : ℕ) :
    EndsBelow level ([] : List (OntologyRepItem UString Score)) := rfl

theorem endsBelow_cons (h : item.level < level) (rest : List (OntologyRepItem UString Score)) :
    EndsBelow level (item :: rest) := by
  simpa [EndsBelow, Option.filter] using h

variable {rest : List (OntologyRepItem UString Score)}

/-- The part of a row that is left ends the rows below it. -/
theorem EndsBelow.items_append (h : EndsBelow level rest) (f : Forest UString (GroupValue Score)) :
    EndsBelow (level + 1) (items level f ++ rest) := by
  cases f with
  | nil =>
    cases rest with
    | nil => exact endsBelow_nil _
    | cons item rest =>
      refine endsBelow_cons ?_ rest
      have hlt : item.level < level := by simpa [EndsBelow, Option.filter] using h
      exact Nat.lt_succ_of_lt hlt
  | node text value children siblings => exact endsBelow_cons (Nat.lt_succ_self level) _

theorem takeWhile_of_endsBelow (h : EndsBelow level rest) :
    rest.takeWhile (fun item => decide (level ≤ item.level)) = [] := by
  cases rest with
  | nil => rfl
  | cons item rest =>
    have hlt : item.level < level := by simpa [EndsBelow, Option.filter] using h
    simp [hlt]

/-- A loop over a row stops behind it. -/
theorem takeWhile_items (h : EndsBelow level rest) (f : Forest UString (GroupValue Score)) :
    (items level f ++ rest).takeWhile (fun item => decide (level ≤ item.level)) =
      items level f := by
  rw [takeWhile_append_of_pos fun item hitem => ?_, takeWhile_of_endsBelow h, append_nil]
  simpa using le_level_of_mem_items hitem

theorem head?_items_append {text : UString} {value : GroupValue Score}
    {children siblings : Forest UString (GroupValue Score)} :
    (items level (.node text value children siblings) ++ rest).head?.filter (level ≤ ·.level) =
      some (toItem level text value) := by
  simp [items, toItem, Option.filter]

theorem tail_items_append (level : ℕ) (text : UString) (value : GroupValue Score)
    (children siblings : Forest UString (GroupValue Score))
    (rest : List (OntologyRepItem UString Score)) :
    (items level (.node text value children siblings) ++ rest).tail =
      items (level + 1) children ++ (items level siblings ++ rest) := by
  simp [items]

/-- A loop over the subtree of a node stops at the next node of the row. -/
theorem takeWhile_children (h : EndsBelow level rest)
    (children siblings : Forest UString (GroupValue Score)) :
    (items (level + 1) children ++ (items level siblings ++ rest)).takeWhile
      (fun item => decide (level < item.level)) = items (level + 1) children :=
  takeWhile_items (h.items_append siblings) children

variable [LinearOrder UString]

/-- No common node lies at the last level that a byte can hold. -/
def Shallow (level : ℕ) (f g : Forest UString (GroupValue Score)) : Prop :=
  ∀ path, (f.find path).isSome → (g.find path).isSome → level + path.length < 2 ^ 8

section Shallow

variable {level : ℕ} {text text' : UString} {value value' : GroupValue Score}
  {children siblings children' siblings' g : Forest UString (GroupValue Score)}

theorem Shallow.symm {f g : Forest UString (GroupValue Score)} (h : Shallow level f g) :
    Shallow level g f :=
  fun path hg hf => h path hf hg

/-- A path of the siblings is a path of the whole row. -/
theorem find_of_siblings {f : Forest UString (GroupValue Score)}
    (hf : (node text value children f).Sorted) {path : List UString}
    (hpath : (f.find path).isSome) : ((node text value children f).find path).isSome := by
  cases path with
  | nil => simp at hpath
  | cons x path =>
    by_cases hx : x = text
    · subst hx
      rw [find_eq_none_of_above hf.2.1 hf.2.2 le_rfl] at hpath
      cases hpath
    · rw [find_node_of_ne hx]
      exact hpath

theorem Shallow.of_siblings_left (hf : (node text value children siblings).Sorted)
    (h : Shallow level (.node text value children siblings) g) : Shallow level siblings g :=
  fun path hpath hpath' => h path (find_of_siblings hf hpath) hpath'

theorem Shallow.of_siblings (hf : (node text value children siblings).Sorted)
    (hg : (node text value' children' siblings').Sorted)
    (h : Shallow level (.node text value children siblings)
      (.node text value' children' siblings')) : Shallow level siblings siblings' :=
  ((h.of_siblings_left hf).symm.of_siblings_left hg).symm

section

variable
    (h : Shallow level (.node text value children siblings) (.node text value' children' siblings'))
include h

theorem Shallow.of_children : Shallow (level + 1) children children' := by
  intro path hpath hpath'
  have hne : path ≠ [] := by
    rintro rfl
    simp at hpath
  have hlt := h (text :: path) (by rwa [find_node_child _ _ _ _ hne])
    (by rwa [find_node_child _ _ _ _ hne])
  rw [length_cons] at hlt
  omega

theorem Shallow.level_lt : level + 1 < 2 ^ 8 :=
  h [text] (by rw [find_node_self]; rfl) (by rw [find_node_self]; rfl)

end

end Shallow

section Recurse

variable {fuel level : ℕ} {rest orest : List (OntologyRepItem UString Score)}
  {item oitem : OntologyRepItem UString Score}

theorem recurseStringGroup_done (hrest : EndsBelow level rest) (horest : EndsBelow level orest) :
    recurseStringGroup (fuel + 1) level rest orest = ([], rest, orest) := by
  unfold EndsBelow at hrest horest
  simp only [recurseStringGroup, hrest, horest]

theorem recurseStringGroup_skip
    (hitem : rest.head?.filter (level ≤ ·.level) = some item) (horest : EndsBelow level orest) :
    recurseStringGroup (fuel + 1) level rest orest = (rest.takeWhile (level ≤ ·.level),
        rest.drop (rest.takeWhile (level ≤ ·.level)).length, orest) := by
  unfold EndsBelow at horest
  simp only [recurseStringGroup, hitem, horest]

theorem recurseStringGroup_insert (hrest : EndsBelow level rest)
    (hoitem : orest.head?.filter (level ≤ ·.level) = some oitem) :
    recurseStringGroup (fuel + 1) level rest orest = (orest.takeWhile (level ≤ ·.level), rest,
        orest.drop (orest.takeWhile (level ≤ ·.level)).length) := by
  unfold EndsBelow at hrest
  simp only [recurseStringGroup, hrest, hoitem]

section

variable (hitem : rest.head?.filter (level ≤ ·.level) = some item)
    (hoitem : orest.head?.filter (level ≤ ·.level) = some oitem)
include hitem hoitem

theorem recurseStringGroup_lt (h : item.text < oitem.text) :
    recurseStringGroup (fuel + 1) level rest orest =
      (item :: rest.tail.takeWhile (level < ·.level) ++ (recurseStringGroup fuel level
          (rest.tail.drop (rest.tail.takeWhile (level < ·.level)).length) orest).1,
        (recurseStringGroup fuel level
          (rest.tail.drop (rest.tail.takeWhile (level < ·.level)).length) orest).2) := by
  simp only [recurseStringGroup, hitem, hoitem, if_pos h]

theorem recurseStringGroup_gt (h : oitem.text < item.text) :
    recurseStringGroup (fuel + 1) level rest orest =
      (oitem :: orest.tail.takeWhile (level < ·.level) ++ (recurseStringGroup fuel level rest
          (orest.tail.drop (orest.tail.takeWhile (level < ·.level)).length)).1,
        (recurseStringGroup fuel level rest
          (orest.tail.drop (orest.tail.takeWhile (level < ·.level)).length)).2) := by
  simp only [recurseStringGroup, hitem, hoitem, if_neg h.le.not_gt, if_pos h]

theorem recurseStringGroup_eq (h : item.text = oitem.text) :
    recurseStringGroup (fuel + 1) level rest orest =
      let inner := recurseStringGroup fuel ((level + 1) % 2 ^ 8) rest.tail orest.tail
      let next := recurseStringGroup fuel level inner.2.1 inner.2.2
      ({ item with docCount := item.docCount + oitem.docCount } :: inner.1 ++ next.1, next.2) := by
  simp only [recurseStringGroup, hitem, hoitem, if_neg h.not_lt, if_neg h.not_gt]

end

end Recurse

open GroupValue

/-- A recursion merges the two rows that its iterators stand before, and leaves the iterators
behind them. -/
theorem recurseStringGroup_items {f g : Forest UString (GroupValue Score)} (hf : f.Sorted)
    (hg : g.Sorted) {level fuel : ℕ} (hshallow : Shallow level f g)
    (hfuel : f.size + g.size < fuel) {rest orest : List (OntologyRepItem UString Score)}
    (hrest : EndsBelow level rest) (horest : EndsBelow level orest) :
    recurseStringGroup fuel level (items level f ++ rest) (items level g ++ orest) =
      (items level (union add f g), rest, orest) := by
  induction f, g using union_induction generalizing level fuel rest orest with
  | nil_left g =>
    obtain ⟨fuel, rfl⟩ := Nat.exists_eq_succ_of_ne_zero (Nat.ne_of_gt (Nat.zero_lt_of_lt hfuel))
    rw [Forest.nil_union]
    cases g with
    | nil => exact recurseStringGroup_done hrest horest
    | node text value children siblings =>
      rw [items, nil_append, recurseStringGroup_insert hrest head?_items_append,
        takeWhile_items horest, drop_left]
  | nil_right f =>
    obtain ⟨fuel, rfl⟩ := Nat.exists_eq_succ_of_ne_zero (Nat.ne_of_gt (Nat.zero_lt_of_lt hfuel))
    rw [union_nil]
    cases f with
    | nil => exact recurseStringGroup_done hrest horest
    | node text value children siblings =>
      rw [items.eq_1, nil_append, recurseStringGroup_skip head?_items_append horest,
        takeWhile_items hrest, drop_left]
  | lt a b children siblings a' b' children' siblings' h ih =>
    obtain ⟨fuel, rfl⟩ := Nat.exists_eq_succ_of_ne_zero (Nat.ne_of_gt (Nat.zero_lt_of_lt hfuel))
    rw [recurseStringGroup_lt head?_items_append head?_items_append h, tail_items_append,
      takeWhile_children hrest, drop_left,
      ih hf.2.1 hg (hshallow.of_siblings_left hf) (by simp only [size] at hfuel ⊢; omega)
        hrest horest, union_lt h]
    rfl
  | gt a b children siblings a' b' children' siblings' h ih =>
    obtain ⟨fuel, rfl⟩ := Nat.exists_eq_succ_of_ne_zero (Nat.ne_of_gt (Nat.zero_lt_of_lt hfuel))
    rw [recurseStringGroup_gt head?_items_append head?_items_append h, tail_items_append,
      takeWhile_children horest, drop_left, ih hf hg.2.1 (hshallow.symm.of_siblings_left hg).symm
        (by simp only [size] at hfuel ⊢; omega) hrest horest, union_gt h]
    rfl
  | eq a b children siblings b' children' siblings' ihc ihs =>
    obtain ⟨fuel, rfl⟩ := Nat.exists_eq_succ_of_ne_zero (Nat.ne_of_gt (Nat.zero_lt_of_lt hfuel))
    simp only [size] at hfuel
    have htext : (toItem level a b).text = (toItem level a b').text := rfl
    rw [recurseStringGroup_eq head?_items_append head?_items_append htext, tail_items_append,
      tail_items_append, Nat.mod_eq_of_lt hshallow.level_lt,
      ihc hf.1 hg.1 hshallow.of_children (by omega) (hrest.items_append siblings)
        (horest.items_append siblings')]
    simp only
    rw [ihs hf.2.1 hg.2.1 (hshallow.of_siblings hf hg) (by omega) hrest horest, union_eq]
    rfl

/-- The trees of both results, property by property. -/
def mergeRoots (roots others : List (GroupRoot UString Score)) : List (GroupRoot UString Score) :=
  roots.zipWith (fun root other => { root with
      value := root.value.add other.value
      children := union add root.children other.children }) others

/-- Two results have the same properties. -/
def SameRoots (roots others : List (GroupRoot UString Score)) : Prop :=
  roots.map GroupRoot.text = others.map GroupRoot.text

/-- The count at a path below a property; the property itself has the empty path. -/
def countAt (roots : List (GroupRoot UString Score)) (i : ℕ) (path : List UString) :
    Option UInt32 :=
  roots[i]?.bind fun root =>
    if path = [] then some root.value.docCount
    else (root.children.find path).map docCount

def SortedRoots (roots : List (GroupRoot UString Score)) : Prop :=
  ∀ root ∈ roots, root.children.Sorted

/-- No path of 256 nodes is in both results. -/
def ShallowRoots (roots others : List (GroupRoot UString Score)) : Prop :=
  ∀ i path, (countAt roots i path).isSome → (countAt others i path).isSome →
    path.length + 1 < 2 ^ 8

section

variable {roots others : List (GroupRoot UString Score)} (hsame : SameRoots roots others)
    (hroots : SortedRoots roots) (hothers : SortedRoots others)
    (hshallow : ShallowRoots roots others)
include hsame hroots hothers hshallow

theorem recurseStringGroup_rootItems {fuel : ℕ}
    (hfuel : (rootItems roots).length + (rootItems others).length < fuel) :
    recurseStringGroup fuel 0 (rootItems roots) (rootItems others) =
      (rootItems (mergeRoots roots others), [], []) := by
  induction roots generalizing others fuel with
  | nil =>
    obtain ⟨fuel, rfl⟩ := Nat.exists_eq_succ_of_ne_zero (Nat.ne_of_gt (Nat.zero_lt_of_lt hfuel))
    obtain rfl : others = [] := by simpa [SameRoots] using hsame.symm
    exact recurseStringGroup_done (endsBelow_nil 0) (endsBelow_nil 0)
  | cons root roots ih =>
    obtain ⟨fuel, rfl⟩ := Nat.exists_eq_succ_of_ne_zero (Nat.ne_of_gt (Nat.zero_lt_of_lt hfuel))
    cases others with
    | nil => simp [SameRoots] at hsame
    | cons other others =>
      obtain ⟨htext, hsame'⟩ := List.cons.inj hsame
      have hends (roots : List (GroupRoot UString Score)) : EndsBelow 1 (rootItems roots) := by
        cases roots with
        | nil => exact endsBelow_nil 1
        | cons root roots => exact endsBelow_cons Nat.one_pos _
      have hdeep : Shallow 1 root.children other.children := by
        intro path hpath hpath'
        have hne : path ≠ [] := by
          rintro rfl
          simp at hpath
        have hlt := hshallow 0 path (by simpa [countAt, hne] using hpath)
          (by simpa [countAt, hne] using hpath')
        omega
      have hshallow' : ShallowRoots roots others := fun i => hshallow (i + 1)
      have hhead (root : GroupRoot UString Score) (roots : List (GroupRoot UString Score)) :
          (rootItems (root :: roots)).head?.filter (0 ≤ ·.level) =
            some (toItem 0 root.text root.value) := by
        simp [rootItems, Option.filter]
      have htail (root : GroupRoot UString Score) (roots : List (GroupRoot UString Score)) :
          (rootItems (root :: roots)).tail = items 1 root.children ++ rootItems roots := rfl
      simp only [rootItems, flatMap_cons, length_append, length_cons, length_items] at hfuel
      rw [recurseStringGroup_eq (hhead root roots) (hhead other others) htext, htail, htail]
      simp only [Nat.zero_add, Nat.reduceMod, Nat.reducePow]
      rw [recurseStringGroup_items (hroots root (mem_cons_self ..))
        (hothers other (mem_cons_self ..)) hdeep (by omega) (hends roots) (hends others)]
      rw [ih hsame' (fun r hr => hroots r (mem_cons_of_mem _ hr))
        (fun r hr => hothers r (mem_cons_of_mem _ hr)) hshallow'
        (by simp only [rootItems] at hfuel ⊢; omega)]
      rfl

/-- Merging two lists of trees yields the list of the merged trees. -/
theorem mergeStringGroup_rootItems : mergeStringGroup (rootItems roots) (rootItems others) =
      rootItems (mergeRoots roots others) := by
  cases roots with
  | nil =>
    obtain rfl : others = [] := by simpa [SameRoots] using hsame.symm
    rfl
  | cons root roots =>
    cases others with
    | nil => simp [SameRoots] at hsame
    | cons other others =>
      rw [mergeStringGroup, if_neg (by simp [rootItems]), if_neg (by simp [rootItems]),
        recurseStringGroup_rootItems hsame hroots hothers hshallow (Nat.lt_succ_self _)]
      simp

end

section MergeRoots

variable {roots others : List (GroupRoot UString Score)}

omit [LinearOrder UString] in
theorem SameRoots.length_eq (h : SameRoots roots others) : roots.length = others.length := by
  simpa using congrArg List.length h

theorem sameRoots_mergeRoots (h : SameRoots roots others) :
    SameRoots (mergeRoots roots others) roots := by
  apply ext_getElem?
  intro i
  rw [mergeRoots, map_zipWith, getElem?_zipWith, getElem?_map]
  have hlen := h.length_eq
  by_cases hi : i < roots.length
  · rw [getElem?_eq_getElem hi, getElem?_eq_getElem (hlen ▸ hi)]
    rfl
  · rw [getElem?_eq_none (Nat.le_of_not_lt hi)]
    rfl

theorem SortedRoots.mergeRoots (hroots : SortedRoots roots) (hothers : SortedRoots others) :
    SortedRoots (mergeRoots roots others) := by
  intro root hroot
  obtain ⟨i, hi⟩ := mem_iff_getElem?.mp hroot
  rw [GroupManager.mergeRoots, getElem?_zipWith_eq_some] at hi
  obtain ⟨a, b, ha, hb, rfl⟩ := hi
  exact (hroots a (mem_of_getElem? ha)).union (hothers b (mem_of_getElem? hb))

/-- The count of every path is the sum of its counts, in 32 bits. -/
theorem countAt_mergeRoots (hsame : SameRoots roots others) (hroots : SortedRoots roots)
    (hothers : SortedRoots others) (i : ℕ) (path : List UString) :
    countAt (mergeRoots roots others) i path =
      Option.merge (· + ·) (countAt roots i path) (countAt others i path) := by
  have hlen := hsame.length_eq
  unfold countAt mergeRoots
  rw [getElem?_zipWith]
  by_cases hi : i < roots.length
  · have hi' : i < others.length := hlen ▸ hi
    rw [getElem?_eq_getElem hi, getElem?_eq_getElem hi']
    simp only [Option.bind_some]
    by_cases hpath : path = []
    · simp [hpath, add]
    · simp only [if_neg hpath]
      rw [find_union (hroots _ (getElem_mem hi)) (hothers _ (getElem_mem hi'))]
      cases (roots[i].children.find path) <;> cases (others[i].children.find path) <;> rfl
  · rw [getElem?_eq_none (Nat.le_of_not_lt hi),
      getElem?_eq_none (Nat.le_of_not_lt fun hi' => hi (hlen.symm ▸ hi'))]
    rfl

end MergeRoots

/-- Which results are merged into which. -/
inductive MergePlan (UString Score : Type)
  | worker (rep : List (GroupRoot UString Score))
  | merge (left right : MergePlan UString Score)

namespace MergePlan

def workers : MergePlan UString Score → List (List (GroupRoot UString Score))
  | worker rep => [rep]
  | merge left right => left.workers ++ right.workers

/-- What the merges of the plan compute. -/
def run : MergePlan UString Score → List (OntologyRepItem UString Score)
  | worker rep => rootItems rep
  | merge left right => mergeStringGroup left.run right.run

def roots : MergePlan UString Score → List (GroupRoot UString Score)
  | worker rep => rep
  | merge left right => mergeRoots left.roots right.roots

end MergePlan

/-- The sum of the counts that a path has in the results, if it is in one of them. -/
def totalAt (reps : List (List (GroupRoot UString Score))) (i : ℕ) (path : List UString) :
    Option ℕ :=
  let counts := reps.filterMap fun rep => countAt rep i path
  if counts = [] then none else some (counts.map UInt32.toNat).sum

theorem totalAt_append (reps reps' : List (List (GroupRoot UString Score))) (i : ℕ)
    (path : List UString) : totalAt (reps ++ reps') i path =
      Option.merge (· + ·) (totalAt reps i path) (totalAt reps' i path) := by
  simp only [totalAt, filterMap_append, append_eq_nil_iff, map_append, sum_append]
  by_cases hleft : reps.filterMap (fun rep => countAt rep i path) = []
  · by_cases hright : reps'.filterMap (fun rep => countAt rep i path) = []
    · simp [hleft, hright]
    · simp [hleft, hright]
  · by_cases hright : reps'.filterMap (fun rep => countAt rep i path) = []
    · simp [hleft, hright]
    · simp [hleft, hright]

theorem totalAt_perm {reps reps' : List (List (GroupRoot UString Score))} (h : reps.Perm reps')
    (i : ℕ) (path : List UString) : totalAt reps i path = totalAt reps' i path := by
  have hperm := h.filterMap fun rep => countAt rep i path
  have hsum := (hperm.map UInt32.toNat).sum_eq
  have hnil : reps.filterMap (fun rep => countAt rep i path) = [] ↔
      reps'.filterMap (fun rep => countAt rep i path) = [] := by
    rw [← length_eq_zero_iff, hperm.length_eq, length_eq_zero_iff]
  simp only [totalAt, hsum, hnil]

theorem totalAt_isSome_iff (reps : List (List (GroupRoot UString Score))) (i : ℕ)
    (path : List UString) :
    (totalAt reps i path).isSome ↔ ∃ rep ∈ reps, (countAt rep i path).isSome := by
  have hnil : reps.filterMap (fun rep => countAt rep i path) = [] ↔
      ¬ ∃ rep ∈ reps, (countAt rep i path).isSome := by
    simp [filterMap_eq_nil_iff]
  unfold totalAt
  by_cases h : ∃ rep ∈ reps, (countAt rep i path).isSome
  · simp [hnil, h]
  · simp only [hnil, h, not_false_eq_true, if_true, Option.isSome_none, Bool.false_eq_true]

theorem totalAt_le {reps : List (List (GroupRoot UString Score))} {i m total : ℕ}
    {path : List UString}
    (h : ∀ rep ∈ reps, ∀ count, countAt rep i path = some count → count.toNat ≤ m)
    (htotal : totalAt reps i path = some total) : total ≤ reps.length * m := by
  simp only [totalAt] at htotal
  split at htotal
  · cases htotal
  · cases htotal
    have hle : ∀ n ∈ (reps.filterMap fun rep => countAt rep i path).map UInt32.toNat, n ≤ m := by
      intro n hn
      obtain ⟨count, hcount, rfl⟩ := mem_map.mp hn
      obtain ⟨rep, hrep, hrepcount⟩ := mem_filterMap.mp hcount
      exact h rep hrep count hrepcount
    have hsum := sum_le_card_nsmul _ m hle
    rw [List.length_map] at hsum
    exact hsum.trans (Nat.mul_le_mul_right m (length_filterMap_le _ _))

/-- Results of workers for one request. -/
structure Comparable (reps : List (List (GroupRoot UString Score))) : Prop where
  same : ∀ rep ∈ reps, ∀ rep' ∈ reps, SameRoots rep rep'
  sorted : ∀ rep ∈ reps, SortedRoots rep
  shallow : reps.Pairwise ShallowRoots

theorem Comparable.perm {reps reps' : List (List (GroupRoot UString Score))}
    (h : Comparable reps) (hperm : reps'.Perm reps) : Comparable reps' := by
  refine ⟨?_, ?_, ?_⟩
  · intro rep hrep rep' hrep'
    exact h.same rep (hperm.mem_iff.mp hrep) rep' (hperm.mem_iff.mp hrep')
  · intro rep hrep
    exact h.sorted rep (hperm.mem_iff.mp hrep)
  · refine (hperm.pairwise_iff ?_).mpr h.shallow
    intro roots others hshallow i path hothers hroots
    exact hshallow i path hroots hothers

omit [LinearOrder UString] in
theorem MergePlan.workers_ne_nil (plan : MergePlan UString Score) : plan.workers ≠ [] := by
  induction plan with
  | worker rep => exact cons_ne_nil rep []
  | merge left right ihl ihr =>
    intro h
    exact ihl (append_eq_nil_iff.mp h).1

/-- Every plan computes the list of one tree for each property, with the sums of the counts. -/
theorem MergePlan.run_spec (plan : MergePlan UString Score) (h : Comparable plan.workers) :
    plan.run = rootItems plan.roots ∧ SortedRoots plan.roots ∧
      (∀ rep ∈ plan.workers, SameRoots plan.roots rep) ∧ ∀ i path, countAt plan.roots i path =
        (totalAt plan.workers i path).map UInt32.ofNat := by
  induction plan with
  | worker rep =>
    refine ⟨rfl, h.sorted rep (mem_singleton_self rep), ?_, ?_⟩
    · intro rep' hrep'
      rw [workers, mem_singleton] at hrep'
      rw [hrep']
      rfl
    · intro i path
      cases hcount : countAt rep i path with
      | none => simp [workers, roots, totalAt, hcount]
      | some count => simp [workers, roots, totalAt, hcount]
  | merge left right ihl ihr =>
    obtain ⟨hsame, hsorted, hshallow⟩ := h
    rw [workers, pairwise_append] at hshallow
    have hleft : Comparable left.workers :=
      ⟨fun rep hrep rep' hrep' => hsame rep (mem_append_left _ hrep) rep' (mem_append_left _ hrep'),
        fun rep hrep => hsorted rep (mem_append_left _ hrep), hshallow.1⟩
    have hright : Comparable right.workers :=
      ⟨fun rep hrep rep' hrep' => hsame rep (mem_append_right _ hrep) rep'
        (mem_append_right _ hrep'),
        fun rep hrep => hsorted rep (mem_append_right _ hrep), hshallow.2.1⟩
    obtain ⟨hrunl, hsortedl, hsamel, hcountl⟩ := ihl hleft
    obtain ⟨hrunr, hsortedr, hsamer, hcountr⟩ := ihr hright
    have hroots : SameRoots left.roots right.roots := by
      obtain ⟨rep, hrep⟩ := exists_mem_of_ne_nil _ left.workers_ne_nil
      obtain ⟨rep', hrep'⟩ := exists_mem_of_ne_nil _ right.workers_ne_nil
      exact (hsamel rep hrep).trans ((hsame rep (mem_append_left _ hrep) rep'
        (mem_append_right _ hrep')).trans (hsamer rep' hrep').symm)
    have hdeep : ShallowRoots left.roots right.roots := by
      intro i path hl hr
      rw [hcountl, Option.isSome_map, totalAt_isSome_iff] at hl
      rw [hcountr, Option.isSome_map, totalAt_isSome_iff] at hr
      obtain ⟨rep, hrep, hpath⟩ := hl
      obtain ⟨rep', hrep', hpath'⟩ := hr
      exact hshallow.2.2 rep hrep rep' hrep' i path hpath hpath'
    refine ⟨?_, hsortedl.mergeRoots hsortedr, ?_, ?_⟩
    · rw [run, hrunl, hrunr, mergeStringGroup_rootItems hroots hsortedl hsortedr hdeep, roots]
    · intro rep hrep
      rcases mem_append.mp hrep with hrep | hrep
      · exact (sameRoots_mergeRoots hroots).trans (hsamel rep hrep)
      · exact (sameRoots_mergeRoots hroots).trans (hroots.trans (hsamer rep hrep))
    · intro i path
      rw [roots, countAt_mergeRoots hroots hsortedl hsortedr, hcountl, hcountr, workers,
        totalAt_append]
      cases totalAt left.workers i path <;> cases totalAt right.workers i path <;>
        simp [UInt32.ofNat_add]

/-- `result` lists one tree for each property, with sorted siblings, in which every path has
the sum of its counts in `reps`. -/
def MergesTo (result : List (OntologyRepItem UString Score))
    (reps : List (List (GroupRoot UString Score))) : Prop :=
  ∃ roots, result = rootItems roots ∧ SortedRoots roots ∧
    (∀ rep ∈ reps, SameRoots roots rep) ∧
    ∀ i path, (countAt roots i path).map UInt32.toNat = totalAt reps i path

/-- The sums of counts have 32 bits. -/
def CountsFit (reps : List (List (GroupRoot UString Score))) : Prop :=
  ∀ i path total, totalAt reps i path = some total → total < 2 ^ 32

theorem countsFit_of_mergesTo {result : List (OntologyRepItem UString Score)}
    {reps : List (List (GroupRoot UString Score))} (h : MergesTo result reps) : CountsFit reps := by
  obtain ⟨roots, _, _, _, hcount⟩ := h
  intro i path total htotal
  rw [← hcount, Option.map_eq_some_iff] at htotal
  obtain ⟨count, _, rfl⟩ := htotal
  exact count.toNat_lt

/-- What is seen of a tree: levels, texts and counts. -/
def nodeOf (item : OntologyRepItem UString Score) : ℕ × UString × UInt32 :=
  (item.level, item.text, item.docCount)

def nodes (level : ℕ) : Forest UString UInt32 → List (ℕ × UString × UInt32)
  | .nil => []
  | .node text count children siblings =>
    (level, text, count) :: (nodes (level + 1) children ++ nodes level siblings)

omit [LinearOrder UString] in
theorem map_nodeOf_items (level : ℕ) (f : Forest UString (GroupValue Score)) :
    (items level f).map nodeOf = nodes level (f.map docCount) := by
  induction f generalizing level with
  | nil => rfl
  | node text value children siblings ihc ihs =>
    rw [items, map_cons, map_append, ihc, ihs]
    rfl

/-- Equal counts at all paths make equal trees. -/
theorem map_nodeOf_rootItems {roots others : List (GroupRoot UString Score)}
    (hsame : SameRoots roots others) (hroots : SortedRoots roots) (hothers : SortedRoots others)
    (hcount : ∀ i path, countAt roots i path = countAt others i path) :
    (rootItems roots).map nodeOf = (rootItems others).map nodeOf := by
  induction roots generalizing others with
  | nil =>
    obtain rfl : others = [] := by simpa [SameRoots] using hsame.symm
    rfl
  | cons root roots ih =>
    cases others with
    | nil => simp [SameRoots] at hsame
    | cons other others =>
      obtain ⟨htext, hsame'⟩ := List.cons.inj hsame
      have hvalue : root.value.docCount = other.value.docCount := by
        simpa [countAt] using hcount 0 []
      have hchildren : root.children.map docCount =
          other.children.map docCount := by
        refine ext_find ((hroots root (mem_cons_self ..)).map _)
          ((hothers other (mem_cons_self ..)).map _) fun path => ?_
        rw [find_map, find_map]
        by_cases hpath : path = []
        · simp [hpath]
        · simpa [countAt, hpath] using hcount 0 path
      have hrest := ih hsame' (fun r hr => hroots r (mem_cons_of_mem _ hr))
        (fun r hr => hothers r (mem_cons_of_mem _ hr)) fun i => hcount (i + 1)
      simp only [rootItems, flatMap_cons, map_append, map_cons, map_nodeOf_items] at hrest ⊢
      rw [hrest, hchildren, nodeOf, nodeOf, toItem, toItem, hvalue, htext]

/-- Results without a common path of 256 nodes merge to the union of their trees, whatever the
order and grouping, exactly when all sums of counts fit; the tree is the same for all plans in
any case. -/
theorem mergesTo_iff_countsFit (reps : List (List (GroupRoot UString Score)))
    (hreps : Comparable reps) (plan : MergePlan UString Score) (hplan : plan.workers.Perm reps) :
    (MergesTo plan.run reps ↔ CountsFit reps) ∧
      ∀ plan' : MergePlan UString Score, plan'.workers.Perm reps →
        plan'.run.map nodeOf = plan.run.map nodeOf := by
  obtain ⟨hrun, hsorted, hsame, hcount⟩ := plan.run_spec (hreps.perm hplan)
  refine ⟨⟨countsFit_of_mergesTo, fun hfit => ?_⟩, fun plan' hplan' => ?_⟩
  · refine ⟨plan.roots, hrun, hsorted, ?_, ?_⟩
    · intro rep hrep
      exact hsame rep (hplan.mem_iff.mpr hrep)
    · intro i path
      rw [hcount, totalAt_perm hplan]
      cases htotal : totalAt reps i path with
      | none => rfl
      | some total =>
        have hlt := hfit i path total htotal
        rw [Option.map_some, Option.map_some, UInt32.toNat_ofNat_of_lt' hlt]
  · obtain ⟨hrun', hsorted', hsame', hcount'⟩ := plan'.run_spec (hreps.perm hplan')
    rw [hrun, hrun']
    obtain ⟨rep, hrep⟩ := exists_mem_of_ne_nil _ plan.workers_ne_nil
    have hrep' : rep ∈ plan'.workers := hplan'.mem_iff.mpr (hplan.mem_iff.mp hrep)
    refine map_nodeOf_rootItems ((hsame' rep hrep').trans (hsame rep hrep).symm) hsorted' hsorted
      fun i path => ?_
    rw [hcount, hcount', totalAt_perm hplan, totalAt_perm hplan']

/-- The property `Brand` with one value. -/
def brandRep (total : UInt32) (brand : String) (count : UInt32) : List (GroupRoot String Unit) :=
  [⟨"Brand", ⟨0, total, ()⟩, .node brand ⟨0, count, ()⟩ .nil .nil⟩]

theorem countAt_brandRep {total count c : UInt32} {brand : String} {i : ℕ} {path : List String}
    (h : countAt (brandRep total brand count) i path = some c) :
    path.length ≤ 1 ∧ (c = total ∨ c = count) := by
  cases i with
  | zero =>
    by_cases hpath : path = []
    · subst hpath
      cases h
      exact ⟨Nat.zero_le 1, Or.inl rfl⟩
    · simp only [countAt, brandRep, getElem?_cons_zero, Option.bind_some, if_neg hpath,
        Option.map_eq_some_iff] at h
      obtain ⟨value, hvalue, rfl⟩ := h
      have hlen := length_le_size_of_find (Option.isSome_of_mem hvalue)
      obtain ⟨x, hx⟩ : ∃ x, path = [x] :=
        length_eq_one_iff.mp (Nat.le_antisymm hlen (length_pos_iff.mpr hpath))
      subst hx
      simp only [find] at hvalue
      split at hvalue
      · cases hvalue
        exact ⟨Nat.le_refl 1, Or.inr rfl⟩
      · cases hvalue
  | succ i => cases h

theorem comparable_brandReps (total total' count count' : UInt32) (brand brand' : String) :
    Comparable [brandRep total brand count, brandRep total' brand' count'] := by
  refine ⟨?_, ?_, ?_⟩
  · intro rep hrep rep' hrep'
    simp only [mem_cons, not_mem_nil, or_false] at hrep hrep'
    rcases hrep with rfl | rfl <;> rcases hrep' with rfl | rfl <;> rfl
  · intro rep hrep root hroot
    simp only [mem_cons, not_mem_nil, or_false] at hrep
    rcases hrep with rfl | rfl <;>
      · simp only [brandRep, mem_singleton] at hroot
        subst hroot
        exact ⟨trivial, trivial, trivial⟩
  · refine pairwise_pair.mpr fun i path hpath _ => ?_
    obtain ⟨c, hc⟩ := Option.isSome_iff_exists.mp hpath
    have hlen := (countAt_brandRep hc).1
    omega

/-- Two workers with different brands. -/
theorem mergesTo_brands :
    MergesTo (mergeStringGroup (rootItems (brandRep 3 "acme" 3)) (rootItems (brandRep 1 "zeta" 1)))
      [brandRep 3 "acme" 3, brandRep 1 "zeta" 1] := by
  refine ((mergesTo_iff_countsFit _ (comparable_brandReps 3 1 3 1 "acme" "zeta")
    (.merge (.worker (brandRep 3 "acme" 3)) (.worker (brandRep 1 "zeta" 1)))
    (Perm.refl _)).1).mpr ?_
  intro i path total htotal
  have hle := totalAt_le (m := 3) (fun rep hrep c hc => ?_) htotal
  · exact lt_of_le_of_lt hle (by decide)
  · simp only [mem_cons, not_mem_nil, or_false] at hrep
    rcases hrep with rfl | rfl <;> rcases (countAt_brandRep hc).2 with rfl | rfl <;> decide

/-- Two workers that count `2 ^ 31` documents each: the sum is stored as 0. -/
theorem not_mergesTo_full_counts : ¬ MergesTo
      (mergeStringGroup (rootItems (brandRep (2 ^ 31) "acme" 1))
        (rootItems (brandRep (2 ^ 31) "acme" 1)))
      [brandRep (2 ^ 31) "acme" 1, brandRep (2 ^ 31) "acme" 1] := by
  intro h
  have hlt := countsFit_of_mergesTo h 0 [] (2 ^ 32) (by decide)
  omega

end AdDelivery.GroupManager
