import AdDelivery.Core.Forest
import Mathlib.Data.List.Basic

/-!
# Pruned forests

Dropping a node drops everything below it. A forest is pruned at every level, or only in its
first row; where no node passes a test that its parent fails, pruning a forest only hides the
values that fail.
-/

namespace AdDelivery.Forest

open List

variable {α β γ : Type*}

/-- The labels and values of the first row. -/
def row : Forest α β → List (α × β)
  | nil => []
  | node a b _ siblings => (a, b) :: siblings.row

/-- The forest with a given first row and given children. -/
def ofRow : List (α × β × Forest α β) → Forest α β
  | [] => nil
  | (a, b, children) :: entries => node a b children (ofRow entries)

/-- Keep the nodes that pass below nodes that pass. -/
def filter (p : β → Bool) : Forest α β → Forest α β
  | nil => nil
  | node a b children siblings =>
    if p b then node a b (children.filter p) (siblings.filter p) else siblings.filter p

/-- Keep the nodes of the first row that pass, with everything below them. -/
def filterRow (p : β → Bool) : Forest α β → Forest α β
  | nil => nil
  | node a b children siblings =>
    if p b then node a b children (siblings.filterRow p) else siblings.filterRow p

variable {f : Forest α β}

theorem eq_nil_of_row (h : f.row = []) : f = nil := by
  cases f with
  | nil => rfl
  | node a b children siblings => cases h

variable (h : β → γ)

theorem map_map {δ : Type*} (h' : γ → δ) (f : Forest α β) :
    (f.map h).map h' = f.map fun b => h' (h b) := by
  induction f with
  | nil => rfl
  | node a b children siblings ihc ihs => rw [map, map, ihc, ihs, map]

theorem row_map (f : Forest α β) : (f.map h).row = f.row.map fun entry => (entry.1, h entry.2) := by
  induction f with
  | nil => rfl
  | node a b children siblings _ ih => rw [map, row, ih, row, map_cons]

variable (entries : List (α × β × Forest α β))

theorem row_ofRow : (ofRow entries).row = entries.map fun entry => (entry.1, entry.2.1) := by
  induction entries with
  | nil => rfl
  | cons entry entries ih =>
    rw [ofRow, row, ih]
    rfl

theorem row_filter (p : β → Bool) (f : Forest α β) :
    (f.filter p).row = f.row.filter fun entry => p entry.2 := by
  induction f with
  | nil => rfl
  | node a b children siblings _ ih =>
    rw [filter, row, filter_cons]
    split
    · rw [row, ih]
    · exact ih

theorem row_filterRow (p : β → Bool) (f : Forest α β) :
    (f.filterRow p).row = f.row.filter fun entry => p entry.2 := by
  induction f with
  | nil => rfl
  | node a b children siblings _ ih =>
    rw [filterRow, row, filter_cons]
    split
    · rw [row, ih]
    · exact ih

theorem map_filterRow (p : γ → Bool) (f : Forest α β) :
    (f.map h).filterRow p = (f.filterRow fun b => p (h b)).map h := by
  induction f with
  | nil => rfl
  | node a b children siblings _ ih =>
    rw [map, filterRow, filterRow]
    split
    · rw [map, ih]
    · exact ih

/-- Tests that agree on the first row keep the same. -/
theorem filterRow_congr {p q : β → Bool} (h : ∀ entry ∈ f.row, p entry.2 = q entry.2) :
    f.filterRow p = f.filterRow q := by
  induction f with
  | nil => rfl
  | node a b children siblings _ ih =>
    rw [filterRow, filterRow, h (a, b) (mem_cons_self ..),
      ih fun entry hentry => h entry (mem_cons_of_mem _ hentry)]

theorem size_map (f : Forest α β) : (f.map h).size = f.size := by
  induction f with
  | nil => rfl
  | node a b children siblings ihc ihs => rw [map, size, ihc, ihs, size]

theorem size_filter_le (f : Forest α β) {p q : β → Bool} (hpq : ∀ b, p b → q b) :
    (f.filter p).size ≤ (f.filter q).size := by
  induction f with
  | nil => exact Nat.le_refl _
  | node a b children siblings ihc ihs =>
    rw [filter, filter]
    by_cases hp : p b
    · rw [if_pos hp, if_pos (hpq b hp), size, size]
      omega
    · rw [if_neg hp]
      split
      · rw [size]
        omega
      · exact ihs

/-- A test that keeps as many nodes as a weaker one keeps the same. -/
theorem filter_eq_of_size {p q : β → Bool} (hpq : ∀ b, p b → q b)
    (h : (f.filter p).size = (f.filter q).size) : f.filter p = f.filter q := by
  induction f with
  | nil => rfl
  | node a b children siblings ihc ihs =>
    have hchildren := size_filter_le children hpq
    have hsiblings := size_filter_le siblings hpq
    rw [filter, filter] at h ⊢
    by_cases hp : p b
    · rw [if_pos hp, if_pos (hpq b hp), size, size] at h
      rw [if_pos hp, if_pos (hpq b hp), ihc (by omega), ihs (by omega)]
    · rw [if_neg hp] at h ⊢
      split at h
      · rw [size] at h
        omega
      · rename_i hq
        rw [if_neg hq, ihs h]

theorem size_filterRow_le (p : β → Bool) (f : Forest α β) : (f.filterRow p).size ≤ f.size := by
  induction f with
  | nil => exact Nat.le_refl _
  | node a b children siblings _ ih =>
    rw [filterRow]
    split
    · rw [size, size]
      omega
    · rw [size]
      omega

variable {p : β → Bool}

/-- A first row of which nothing is missing passes. -/
theorem all_row_of_size_filterRow (h : (f.filterRow p).size = f.size) :
    ∀ entry ∈ f.row, p entry.2 := by
  induction f with
  | nil => exact nofun
  | node a b children siblings _ ih =>
    have hle := size_filterRow_le p siblings
    rw [filterRow] at h
    split at h
    · rename_i hb
      rw [size, size] at h
      intro entry hentry
      rcases mem_cons.mp hentry with rfl | hentry
      · exact hb
      · exact ih (by omega) entry hentry
    · rw [size] at h
      omega

theorem filterRow_eq_self (h : ∀ entry ∈ f.row, p entry.2) : f.filterRow p = f := by
  induction f with
  | nil => rfl
  | node a b children siblings _ ih =>
    rw [filterRow, if_pos (h (a, b) mem_cons_self),
      ih fun entry hentry => h entry (mem_cons_of_mem _ hentry)]

/-- No node passes below a node that fails; `ok` says whether the parent of the first row
passes. -/
def Hereditary (p : β → Bool) (ok : Prop) : Forest α β → Prop
  | nil => True
  | node _ b children siblings =>
    (p b → ok) ∧ children.Hereditary p (p b) ∧ siblings.Hereditary p ok

theorem hereditary_ofRow {ok : Prop} {entries : List (α × β × Forest α β)}
    (h : ∀ entry ∈ entries, (p entry.2.1 → ok) ∧ entry.2.2.Hereditary p (p entry.2.1)) :
    (ofRow entries).Hereditary p ok := by
  induction entries with
  | nil => trivial
  | cons entry entries ih =>
    obtain ⟨hentry, hchildren⟩ := h entry (mem_cons_self ..)
    exact ⟨hentry, hchildren, ih fun entry' hentry' => h entry' (mem_cons_of_mem _ hentry')⟩

variable [LinearOrder α]

theorem Sorted.above_filter {a : α} (hf : f.Sorted) (h : f.Above a) : (f.filter p).Above a := by
  induction f with
  | nil => trivial
  | node a' b children siblings _ ih =>
    rw [filter]
    split
    · exact h
    · exact ih hf.2.1 (hf.2.2.trans h)

theorem Sorted.filter (hf : f.Sorted) : (f.filter p).Sorted := by
  induction f with
  | nil => trivial
  | node a b children siblings ihc ihs =>
    rw [Forest.filter]
    split
    · exact ⟨ihc hf.1, ihs hf.2.1, hf.2.1.above_filter hf.2.2⟩
    · exact ihs hf.2.1

theorem Sorted.above_filterRow {a : α} (hf : f.Sorted) (h : f.Above a) :
    (f.filterRow p).Above a := by
  induction f with
  | nil => trivial
  | node a' b children siblings _ ih =>
    rw [filterRow]
    split
    · exact h
    · exact ih hf.2.1 (hf.2.2.trans h)

theorem Sorted.filterRow (hf : f.Sorted) : (f.filterRow p).Sorted := by
  induction f with
  | nil => trivial
  | node a b children siblings _ ih =>
    rw [Forest.filterRow]
    split
    · exact ⟨hf.1, ih hf.2.1, hf.2.1.above_filterRow hf.2.2⟩
    · exact ih hf.2.1

theorem sorted_ofRow {entries : List (α × β × Forest α β)}
    (hrow : (entries.map Prod.fst).Pairwise (· < ·)) (h : ∀ entry ∈ entries, entry.2.2.Sorted) :
    (ofRow entries).Sorted := by
  induction entries with
  | nil => trivial
  | cons entry entries ih =>
    rw [map_cons, pairwise_cons] at hrow
    refine ⟨h entry (mem_cons_self ..),
      ih hrow.2 fun entry' hentry' => h entry' (mem_cons_of_mem _ hentry'), ?_⟩
    cases entries with
    | nil => trivial
    | cons entry' entries => exact hrow.1 entry'.1 (mem_cons_self ..)

theorem find_ofRow (x : α) (path : List α) : (ofRow entries).find (x :: path) =
      (entries.find? fun entry => decide (entry.1 = x)).bind fun entry =>
        if path = [] then some entry.2.1 else entry.2.2.find path := by
  induction entries with
  | nil => rfl
  | cons entry entries ih =>
    obtain ⟨a, b, children⟩ := entry
    rw [ofRow, find?_cons]
    by_cases hx : a = x
    · subst hx
      rw [decide_eq_true rfl]
      by_cases hpath : path = []
      · rw [hpath, find_node_self, Option.bind_some, if_pos rfl]
      · rw [find_node_child _ _ _ _ hpath, Option.bind_some, if_neg hpath]
    · rw [find_node_of_ne (Ne.symm hx), decide_eq_false hx, ih]

theorem find_filterRow (hf : f.Sorted) (x : α) (path : List α) : (f.filterRow p).find (x :: path) =
      if (f.find [x]).any p then f.find (x :: path) else none := by
  induction f with
  | nil => rfl
  | node a b children siblings _ ih =>
    rw [filterRow]
    by_cases hx : x = a
    · subst hx
      have hnone : (siblings.filterRow p).find (x :: path) = none :=
        find_eq_none_of_above hf.2.1.filterRow (hf.2.1.above_filterRow hf.2.2) le_rfl path
      rw [find_node_self, Option.any_some]
      split
      · cases path with
        | nil => rw [find_node_self, find_node_self]
        | cons y path =>
          rw [find_node_child _ _ _ _ (cons_ne_nil y path),
            find_node_child _ _ _ _ (cons_ne_nil y path)]
      · exact hnone
    · rw [find_node_of_ne hx, find_node_of_ne hx, ← ih hf.2.1]
      split
      · rw [find_node_of_ne hx]
      · rfl

/-- Nothing passes below a node that fails. -/
theorem Hereditary.filter_find_eq_none (h : f.Hereditary p False) (path : List α) :
    (f.find path).filter p = none := by
  induction f generalizing path with
  | nil => rfl
  | node a b children siblings ihc ihs =>
    have hb : ¬ p b := h.1
    cases path with
    | nil => rfl
    | cons x path =>
      by_cases hx : x = a
      · subst hx
        cases path with
        | nil =>
          rw [find_node_self]
          simp [Option.filter, hb]
        | cons y path =>
          rw [find_node_child _ _ _ _ (cons_ne_nil y path)]
          refine ihc ?_ _
          have hchildren := h.2.1
          rwa [eq_false hb] at hchildren
      · rw [find_node_of_ne hx]
        exact ihs h.2.2 _

theorem find_filter {ok : Prop} (hf : f.Sorted) (h : f.Hereditary p ok) (path : List α) :
    (f.filter p).find path = (f.find path).filter p := by
  induction f generalizing ok path with
  | nil => rfl
  | node a b children siblings ihc ihs =>
    rw [filter]
    cases path with
    | nil => rw [find_empty, find_empty, Option.filter_none]
    | cons x path =>
      by_cases hx : x = a
      · subst hx
        have hnone : (siblings.filter p).find (x :: path) = none :=
          find_eq_none_of_above hf.2.1.filter (hf.2.1.above_filter hf.2.2) le_rfl path
        by_cases hb : p b
        · rw [if_pos hb]
          cases path with
          | nil =>
            rw [find_node_self, find_node_self]
            simp [Option.filter, hb]
          | cons y path =>
            rw [find_node_child _ _ _ _ (cons_ne_nil y path),
              find_node_child _ _ _ _ (cons_ne_nil y path), ihc hf.1 h.2.1]
        · rw [if_neg hb, hnone]
          cases path with
          | nil =>
            rw [find_node_self]
            simp [Option.filter, hb]
          | cons y path =>
            rw [find_node_child _ _ _ _ (cons_ne_nil y path)]
            have hchildren := h.2.1
            rw [eq_false hb] at hchildren
            exact (hchildren.filter_find_eq_none _).symm
      · rw [find_node_of_ne hx, ← ihs hf.2.1 h.2.2]
        split
        · rw [find_node_of_ne hx]
        · rfl

end AdDelivery.Forest
