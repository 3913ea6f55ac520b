import Mathlib.Order.Lattice
import Mathlib.Tactic.Common

/-!
# Forests with ordered siblings

A forest is given by its first tree and the trees beside it; every node carries a label and a
value. When the labels of siblings ascend strictly, a forest is determined by the values it has
at the paths of labels, and two forests have a union that combines the values of the paths they
share.
-/

namespace AdDelivery

open List Option

/-- The first node of a row with its children, and the rest of the row. -/
inductive Forest (α β : Type*)
  | nil
  | node (label : α) (value : β) (children siblings : Forest α β)

namespace Forest

variable {α β γ : Type*}

/-- The number of nodes. -/
def size : Forest α β → ℕ
  | nil => 0
  | node _ _ children siblings => children.size + siblings.size + 1

/-- Change every value. -/
def map (h : β → γ) : Forest α β → Forest α γ
  | nil => nil
  | node a b children siblings => node a (h b) (children.map h) (siblings.map h)

section Find

variable [DecidableEq α]

/-- The value at a path of labels. -/
def find : Forest α β → List α → Option β
  | nil, _ => none
  | node _ _ _ _, [] => none
  | node a b _ siblings, [x] => if x = a then some b else siblings.find [x]
  | node a _ children siblings, x :: y :: path =>
    if x = a then children.find (y :: path) else siblings.find (x :: y :: path)

@[simp] theorem find_empty (f : Forest α β) : f.find [] = none := by
  cases f <;> rfl

theorem find_node_self (a : α) (b : β) (children siblings : Forest α β) :
    (node a b children siblings).find [a] = some b := by
  simp [find]

theorem find_node_child (a : α) (b : β) (children siblings : Forest α β) {path : List α}
    (h : path ≠ []) : (node a b children siblings).find (a :: path) = children.find path := by
  obtain ⟨y, rest, rfl⟩ := exists_cons_of_ne_nil h
  simp [find]

theorem find_node_of_ne {a x : α} (h : x ≠ a) (b : β) (children siblings : Forest α β)
    (path : List α) :
    (node a b children siblings).find (x :: path) = siblings.find (x :: path) := by
  cases path with
  | nil => simp [find, h]
  | cons y path => simp [find, h]

theorem find_map (h : β → γ) (f : Forest α β) (path : List α) :
    (f.map h).find path = (f.find path).map h := by
  induction f generalizing path with
  | nil => rfl
  | node a b children siblings ihc ihs =>
    rw [map]
    cases path with
    | nil => rfl
    | cons x path =>
      by_cases hx : x = a
      · subst hx
        cases path with
        | nil => rw [find_node_self, find_node_self, map_some]
        | cons y path =>
          rw [find_node_child _ _ _ _ (cons_ne_nil y path),
            find_node_child _ _ _ _ (cons_ne_nil y path), ihc]
      · rw [find_node_of_ne hx, find_node_of_ne hx, ihs]

theorem length_le_size_of_find {f : Forest α β} {path : List α} (h : (f.find path).isSome) :
    path.length ≤ f.size := by
  induction f generalizing path with
  | nil => cases h
  | node a b children siblings ihc ihs =>
    cases path with
    | nil => exact Nat.zero_le _
    | cons x path =>
      by_cases hx : x = a
      · subst hx
        cases path with
        | nil => simp [size]
        | cons y path =>
          rw [find_node_child _ _ _ _ (cons_ne_nil y path)] at h
          have hle := ihc h
          simp only [length_cons, size] at hle ⊢
          omega
      · rw [find_node_of_ne hx] at h
        have hle := ihs h
        simp only [length_cons, size] at hle ⊢
        omega

end Find

variable [LinearOrder α]

/-- The row begins above a label. -/
def Above (a : α) : Forest α β → Prop
  | nil => True
  | node x _ _ _ => a < x

/-- The labels of every row ascend. -/
def Sorted : Forest α β → Prop
  | nil => True
  | node a _ children siblings => children.Sorted ∧ siblings.Sorted ∧ siblings.Above a

variable {f : Forest α β}

theorem Above.trans {a a' : α} (h : a < a') (hf : f.Above a') : f.Above a := by
  cases f with
  | nil => trivial
  | node x _ _ _ => exact lt_trans h hf

/-- A row that begins above a label does not have it. -/
theorem find_eq_none_of_above (hf : f.Sorted) {a x : α} (h : f.Above a) (hx : x ≤ a)
    (path : List α) : f.find (x :: path) = none := by
  induction f generalizing a with
  | nil => rfl
  | node a' b children siblings ihc ihs =>
    have hlt : x < a' := lt_of_le_of_lt hx h
    rw [find_node_of_ne hlt.ne]
    exact ihs hf.2.1 hf.2.2 hlt.le

theorem Sorted.map (hf : f.Sorted) (h : β → γ) : (f.map h).Sorted := by
  induction f with
  | nil => trivial
  | node a b children siblings ihc ihs =>
    refine ⟨ihc hf.1, ihs hf.2.1, ?_⟩
    have habove := hf.2.2
    cases siblings with
    | nil => trivial
    | node x _ _ _ => exact habove

/-- Sorted forests with the same values at all paths are the same. -/
theorem ext_find {f g : Forest α β} (hf : f.Sorted) (hg : g.Sorted)
    (h : ∀ path, f.find path = g.find path) : f = g := by
  induction f generalizing g with
  | nil =>
    cases g with
    | nil => rfl
    | node a b children siblings =>
      have hpath := h [a]
      rw [find_node_self] at hpath
      cases hpath
  | node a b children siblings ihc ihs =>
    cases g with
    | nil =>
      have hpath := h [a]
      rw [find_node_self] at hpath
      cases hpath
    | node a' b' children' siblings' =>
      have hlabel : a = a' := by
        rcases lt_trichotomy a a' with hlt | heq | hlt
        · have hpath := h [a]
          rw [find_node_self, find_node_of_ne hlt.ne,
            find_eq_none_of_above hg.2.1 hg.2.2 hlt.le] at hpath
          cases hpath
        · exact heq
        · have hpath := h [a']
          rw [find_node_self, find_node_of_ne hlt.ne,
            find_eq_none_of_above hf.2.1 hf.2.2 hlt.le] at hpath
          cases hpath
      subst hlabel
      have hvalue : b = b' := by
        have hpath := h [a]
        rw [find_node_self, find_node_self] at hpath
        exact some.inj hpath
      have hchildren : children = children' := by
        refine ihc hf.1 hg.1 fun path => ?_
        cases path with
        | nil => rw [find_empty, find_empty]
        | cons y path =>
          have hpath := h (a :: y :: path)
          rwa [find_node_child _ _ _ _ (cons_ne_nil y path),
            find_node_child _ _ _ _ (cons_ne_nil y path)] at hpath
      have hsiblings : siblings = siblings' := by
        refine ihs hf.2.1 hg.2.1 fun path => ?_
        cases path with
        | nil => rw [find_empty, find_empty]
        | cons x path =>
          by_cases hx : x = a
          · rw [find_eq_none_of_above hf.2.1 hf.2.2 hx.le,
              find_eq_none_of_above hg.2.1 hg.2.2 hx.le]
          · have hpath := h (x :: path)
            rwa [find_node_of_ne hx, find_node_of_ne hx] at hpath
      rw [hvalue, hchildren, hsiblings]

/-- The rows of both forests, merged by label; nodes with one label become one node. -/
def union (op : β → β → β) : Forest α β → Forest α β → Forest α β
  | nil, g => g
  | node a b children siblings, nil => node a b children siblings
  | node a b children siblings, node a' b' children' siblings' =>
    if a < a' then
      node a b children (union op siblings (node a' b' children' siblings'))
    else if a' < a then
      node a' b' children' (union op (node a b children siblings) siblings')
    else
      node a (op b b') (union op children children') (union op siblings siblings')
termination_by f g => f.size + g.size
decreasing_by all_goals simp only [size]; omega

section Union

variable {op : β → β → β}

@[simp] theorem nil_union (g : Forest α β) : union op nil g = g := by
  rw [union]

@[simp] theorem union_nil (f : Forest α β) : union op f nil = f := by
  cases f <;> rw [union]

theorem union_lt {a a' : α} (h : a < a') (b b' : β)
    (children siblings children' siblings' : Forest α β) :
    union op (node a b children siblings) (node a' b' children' siblings') =
      node a b children (union op siblings (node a' b' children' siblings')) := by
  rw [union, if_pos h]

theorem union_gt {a a' : α} (h : a' < a) (b b' : β)
    (children siblings children' siblings' : Forest α β) :
    union op (node a b children siblings) (node a' b' children' siblings') =
      node a' b' children' (union op (node a b children siblings) siblings') := by
  rw [union, if_neg h.le.not_gt, if_pos h]

theorem union_eq (a : α) (b b' : β) (children siblings children' siblings' : Forest α β) :
    union op (node a b children siblings) (node a b' children' siblings') =
      node a (op b b') (union op children children') (union op siblings siblings') := by
  rw [union, if_neg (lt_irrefl a), if_neg (lt_irrefl a)]

/-- The induction that follows the union of two forests. -/
theorem union_induction {motive : Forest α β → Forest α β → Prop}
    (nil_left : ∀ g, motive nil g) (nil_right : ∀ f, motive f nil)
    (lt : ∀ a b children siblings a' b' children' siblings', a < a' →
      motive siblings (node a' b' children' siblings') →
      motive (node a b children siblings) (node a' b' children' siblings'))
    (gt : ∀ a b children siblings a' b' children' siblings', a' < a →
      motive (node a b children siblings) siblings' →
      motive (node a b children siblings) (node a' b' children' siblings'))
    (eq : ∀ a b children siblings b' children' siblings', motive children children' →
      motive siblings siblings' →
      motive (node a b children siblings) (node a b' children' siblings'))
    (f g : Forest α β) : motive f g := by
  suffices hall : ∀ n (f g : Forest α β), f.size + g.size ≤ n → motive f g from
    hall _ f g (Nat.le_refl _)
  intro n
  induction n with
  | zero =>
    intro f g hle
    cases f with
    | nil => exact nil_left g
    | node _ _ _ _ => simp [size] at hle
  | succ n ih =>
    intro f g hle
    cases f with
    | nil => exact nil_left g
    | node a b children siblings =>
      cases g with
      | nil => exact nil_right _
      | node a' b' children' siblings' =>
        simp only [size] at hle
        rcases lt_trichotomy a a' with h | h | h
        · exact lt _ _ _ _ _ _ _ _ h (ih _ _ (by simp only [size]; omega))
        · subst h
          exact eq _ _ _ _ _ _ _ (ih _ _ (by omega)) (ih _ _ (by omega))
        · exact gt _ _ _ _ _ _ _ _ h (ih _ _ (by simp only [size]; omega))

variable {f g : Forest α β}

theorem Above.union {x : α} (hf : f.Above x) (hg : g.Above x) : (union op f g).Above x := by
  cases f with
  | nil =>
    rw [nil_union]
    exact hg
  | node a b children siblings =>
    cases g with
    | nil =>
      rw [union_nil]
      exact hf
    | node a' b' children' siblings' =>
      rcases lt_trichotomy a a' with h | h | h
      · rw [union_lt h]
        exact hf
      · subst h
        rw [union_eq]
        exact hf
      · rw [union_gt h]
        exact hg

theorem Sorted.union (hf : f.Sorted) (hg : g.Sorted) : (union op f g).Sorted := by
  induction f, g using union_induction with
  | nil_left g =>
    rw [nil_union]
    exact hg
  | nil_right f =>
    rw [union_nil]
    exact hf
  | lt a b children siblings a' b' children' siblings' h ih =>
    rw [union_lt h]
    exact ⟨hf.1, ih hf.2.1 hg, hf.2.2.union h⟩
  | gt a b children siblings a' b' children' siblings' h ih =>
    rw [union_gt h]
    exact ⟨hg.1, ih hf hg.2.1, Above.union h hg.2.2⟩
  | eq a b children siblings b' children' siblings' ihc ihs =>
    rw [union_eq]
    exact ⟨ihc hf.1 hg.1, ihs hf.2.1 hg.2.1, hf.2.2.union hg.2.2⟩

/-- The union has the paths of both forests, with the values of common paths combined. -/
theorem find_union (hf : f.Sorted) (hg : g.Sorted) (path : List α) :
    (union op f g).find path = merge op (f.find path) (g.find path) := by
  induction f, g using union_induction generalizing path with
  | nil_left g => rw [nil_union, find, merge_none_left]
  | nil_right f => rw [union_nil, find, merge_none_right]
  | lt a b children siblings a' b' children' siblings' h ih =>
    rw [union_lt h]
    cases path with
    | nil => rfl
    | cons x path =>
      by_cases hx : x = a
      · subst hx
        have hnone : (node a' b' children' siblings').find (x :: path) = none :=
          find_eq_none_of_above hg (a := x) h le_rfl path
        rw [hnone, merge_none_right]
        cases path with
        | nil => rw [find_node_self, find_node_self]
        | cons y path =>
          rw [find_node_child _ _ _ _ (cons_ne_nil y path),
            find_node_child _ _ _ _ (cons_ne_nil y path)]
      · rw [find_node_of_ne hx, find_node_of_ne hx, ih hf.2.1 hg]
  | gt a b children siblings a' b' children' siblings' h ih =>
    rw [union_gt h]
    cases path with
    | nil => rfl
    | cons x path =>
      by_cases hx : x = a'
      · subst hx
        have hnone : (node a b children siblings).find (x :: path) = none :=
          find_eq_none_of_above hf (a := x) h le_rfl path
        rw [hnone, merge_none_left]
        cases path with
        | nil => rw [find_node_self, find_node_self]
        | cons y path =>
          rw [find_node_child _ _ _ _ (cons_ne_nil y path),
            find_node_child _ _ _ _ (cons_ne_nil y path)]
      · rw [find_node_of_ne hx, ih hf hg.2.1, find_node_of_ne hx _ _ siblings']
  | eq a b children siblings b' children' siblings' ihc ihs =>
    rw [union_eq]
    cases path with
    | nil => rfl
    | cons x path =>
      by_cases hx : x = a
      · subst hx
        cases path with
        | nil => rw [find_node_self, find_node_self, find_node_self, merge_some_some]
        | cons y path =>
          rw [find_node_child _ _ _ _ (cons_ne_nil y path),
            find_node_child _ _ _ _ (cons_ne_nil y path),
            find_node_child _ _ _ _ (cons_ne_nil y path), ihc hf.1 hg.1]
      · rw [find_node_of_ne hx, find_node_of_ne hx, find_node_of_ne hx, ihs hf.2.1 hg.2.1]

end Union

end Forest

end AdDelivery
