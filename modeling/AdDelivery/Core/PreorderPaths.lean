import AdDelivery.Core.Forest
import Mathlib.Data.List.Lex

/-!
# The paths of a forest in preorder

Listed in preorder, the paths of labels down a forest ascend when the labels of siblings do. The
paths below a node stand together behind its own path. Making the nodes of one more path adds the
prefixes of this path.
-/

namespace AdDelivery.Forest

open List

variable {α β : Type*}

instance instInhabitedForest : Inhabited (Forest α β) := ⟨nil⟩

/-- The path of a node comes before those of its children, and these before those of its
siblings. -/
def paths : Forest α β → List (List α)
  | nil => []
  | node a _ children siblings => [a] :: (children.paths.map (a :: ·) ++ siblings.paths)

theorem mem_paths_node {a : α} {b : β} {children siblings : Forest α β} {path : List α} :
    path ∈ (node a b children siblings).paths ↔
      (∃ rest, path = a :: rest ∧ (rest = [] ∨ rest ∈ children.paths)) ∨ path ∈ siblings.paths := by
  rw [paths, mem_cons, mem_append, mem_map, ← or_assoc]
  refine or_congr_left ⟨?_, ?_⟩
  · rintro (rfl | ⟨rest, hrest, rfl⟩)
    · exact ⟨[], rfl, Or.inl rfl⟩
    · exact ⟨rest, rfl, Or.inr hrest⟩
  · rintro ⟨rest, rfl, rfl | hrest⟩
    · exact Or.inl rfl
    · exact Or.inr ⟨rest, hrest, rfl⟩

theorem ne_nil_of_mem_paths {f : Forest α β} {path : List α} (h : path ∈ f.paths) : path ≠ [] := by
  induction f with
  | nil => cases h
  | node a b children siblings _ ihs =>
    rcases mem_paths_node.mp h with ⟨rest, rfl, _⟩ | h
    · exact cons_ne_nil a rest
    · exact ihs h

section Insert

variable [LinearOrder α]

/-- Find the child of a label, which is made with the value `b` if it is missing, and change its
children. -/
def modifyChild (a : α) (b : β) (h : Forest α β → Forest α β) : Forest α β → Forest α β
  | nil => node a b (h nil) nil
  | node x y children siblings =>
    if a < x then node a b (h nil) (node x y children siblings)
    else if x < a then node x y children (siblings.modifyChild a b h)
    else node x y (h children) siblings

/-- Go down a path and make the nodes that are missing. -/
def insertPath (b : β) : List α → Forest α β → Forest α β
  | [], f => f
  | a :: path, f => f.modifyChild a b (insertPath b path)

variable {a : α} {b : β} {h : Forest α β → Forest α β} {f : Forest α β}

theorem mem_paths_modifyChild {added : List α → Prop}
    (hadded : ∀ g path, path ∈ (h g).paths ↔ path ∈ g.paths ∨ added path) {path : List α} :
    path ∈ (f.modifyChild a b h).paths ↔
      path ∈ f.paths ∨ ∃ rest, path = a :: rest ∧ (rest = [] ∨ added rest) := by
  have hnil (rest : List α) : rest ∈ (h nil).paths ↔ added rest := by
    rw [hadded, paths]
    simp
  induction f with
  | nil =>
    rw [modifyChild, mem_paths_node]
    simp only [hnil]
    exact or_comm
  | node x y children siblings _ ihs =>
    rcases lt_trichotomy a x with hlt | rfl | hlt
    · rw [modifyChild, if_pos hlt, mem_paths_node]
      simp only [hnil]
      exact or_comm
    · rw [modifyChild, if_neg (lt_irrefl a), if_neg (lt_irrefl a), mem_paths_node, mem_paths_node]
      simp only [hadded]
      constructor
      · rintro (⟨rest, rfl, hrest | hrest | hrest⟩ | hmem)
        · exact Or.inl (Or.inl ⟨rest, rfl, Or.inl hrest⟩)
        · exact Or.inl (Or.inl ⟨rest, rfl, Or.inr hrest⟩)
        · exact Or.inr ⟨rest, rfl, Or.inr hrest⟩
        · exact Or.inl (Or.inr hmem)
      · rintro ((⟨rest, rfl, hrest | hrest⟩ | hmem) | ⟨rest, rfl, hrest | hrest⟩)
        · exact Or.inl ⟨rest, rfl, Or.inl hrest⟩
        · exact Or.inl ⟨rest, rfl, Or.inr (Or.inl hrest)⟩
        · exact Or.inr hmem
        · exact Or.inl ⟨rest, rfl, Or.inl hrest⟩
        · exact Or.inl ⟨rest, rfl, Or.inr (Or.inr hrest)⟩
    · rw [modifyChild, if_neg hlt.not_gt, if_pos hlt, mem_paths_node, mem_paths_node, or_assoc]
      exact or_congr_right ihs

/-- One more path brings its prefixes. -/
theorem mem_paths_insertPath {path : List α} {path' : List α} :
    path' ∈ (insertPath b path f).paths ↔ path' ∈ f.paths ∨ path' ≠ [] ∧ path' <+: path := by
  induction path generalizing f path' with
  | nil =>
    rw [insertPath]
    simp
  | cons a path ih =>
    have hadded (g : Forest α β) (rest : List α) :
        rest ∈ (insertPath b path g).paths ↔
          rest ∈ g.paths ∨ rest ≠ [] ∧ rest <+: path := ih
    rw [insertPath, mem_paths_modifyChild hadded]
    refine or_congr_right ?_
    constructor
    · rintro ⟨rest, rfl, rfl | ⟨_, hrest⟩⟩
      · exact ⟨cons_ne_nil a [], cons_prefix_cons.mpr ⟨rfl, nil_prefix⟩⟩
      · exact ⟨cons_ne_nil a rest, cons_prefix_cons.mpr ⟨rfl, hrest⟩⟩
    · rintro ⟨hne, hpre⟩
      obtain ⟨x, rest, rfl⟩ := exists_cons_of_ne_nil hne
      obtain ⟨rfl, hrest⟩ := cons_prefix_cons.mp hpre
      by_cases hnil : rest = []
      · exact ⟨rest, rfl, Or.inl hnil⟩
      · exact ⟨rest, rfl, Or.inr ⟨hnil, hrest⟩⟩

theorem Above.modifyChild {x : α} (hx : x < a) (hf : f.Above x) :
    (f.modifyChild a b h).Above x := by
  cases f with
  | nil => exact hx
  | node y _ children siblings =>
    rw [Forest.modifyChild]
    split
    · exact hx
    · split
      · exact hf
      · exact hf

theorem Sorted.modifyChild (hsorted : ∀ g : Forest α β, g.Sorted → (h g).Sorted) (hf : f.Sorted) :
    (f.modifyChild a b h).Sorted := by
  induction f with
  | nil => exact ⟨hsorted nil trivial, trivial, trivial⟩
  | node x y children siblings _ ihs =>
    obtain ⟨hchildren, hsiblings, habove⟩ := hf
    rw [Forest.modifyChild]
    split
    · next hlt => exact ⟨hsorted nil trivial, ⟨hchildren, hsiblings, habove⟩, hlt⟩
    · split
      · next hlt => exact ⟨hchildren, ihs hsiblings, habove.modifyChild hlt⟩
      · exact ⟨hsorted children hchildren, hsiblings, habove⟩

theorem Sorted.insertPath (path : List α) (hf : f.Sorted) : (insertPath b path f).Sorted := by
  induction path generalizing f with
  | nil => exact hf
  | cons a path ih => exact hf.modifyChild fun _ hg => ih hg

end Insert

section Order

variable [LinearOrder α] {a : α}

theorem cons_lt_of_above {f : Forest α β} (hf : f.Sorted) (habove : f.Above a) {path : List α}
    (hpath : path ∈ f.paths) (rest : List α) : a :: rest < path := by
  induction f generalizing a with
  | nil => cases hpath
  | node x y children siblings _ ihs =>
    have hlt : a < x := habove
    rcases mem_paths_node.mp hpath with ⟨rest', rfl, _⟩ | hpath
    · exact cons_lt_cons_iff.mpr (Or.inl hlt)
    · exact ihs hf.2.1 (Above.trans hlt hf.2.2) hpath

theorem Sorted.pairwise_paths {f : Forest α β} (hf : f.Sorted) : f.paths.Pairwise (· < ·) := by
  induction f with
  | nil => exact List.Pairwise.nil
  | node a b children siblings ihc ihs =>
    obtain ⟨hchildren, hsiblings, habove⟩ := hf
    rw [paths, pairwise_cons, pairwise_append]
    refine ⟨fun path hpath => ?_, ?_, ihs hsiblings, fun path hpath path' hpath' => ?_⟩
    · rcases mem_append.mp hpath with hpath | hpath
      · obtain ⟨rest, hrest, rfl⟩ := mem_map.mp hpath
        obtain ⟨x, rest, rfl⟩ := exists_cons_of_ne_nil (ne_nil_of_mem_paths hrest)
        exact cons_lt_cons_iff.mpr (Or.inr ⟨rfl, nil_lt_cons x rest⟩)
      · exact cons_lt_of_above hsiblings habove hpath []
    · refine List.Pairwise.map (a :: ·) (fun path path' hlt => ?_) (ihc hchildren)
      exact cons_lt_cons_iff.mpr (Or.inr ⟨rfl, hlt⟩)
    · obtain ⟨rest, _, rfl⟩ := mem_map.mp hpath
      exact cons_lt_of_above hsiblings habove hpath' rest

/-- The paths before a path, those below it, and those after them. -/
structure SplitAt (f : Forest α β) (before : List (List α)) (path : List α)
    (below after : List (List α)) : Prop where
  paths_eq : f.paths = before ++ path :: (below ++ after)
  below_prefix : ∀ path' ∈ below, path <+: path'
  not_prefix : ∀ path' ∈ before ++ after, ¬ path <+: path'

variable {f : Forest α β} {before below after : List (List α)} {path path' : List α}

omit [LinearOrder α] in
theorem SplitAt.mem_paths (h : f.SplitAt before path below after) : path ∈ f.paths := by
  rw [h.paths_eq]
  exact mem_append_right before mem_cons_self

omit [LinearOrder α] in
/-- The path and the paths below it are all that begin with it. -/
theorem SplitAt.mem_cons_below_iff (h : f.SplitAt before path below after) :
    path' ∈ path :: below ↔ path' ∈ f.paths ∧ path <+: path' := by
  rw [h.paths_eq]
  constructor
  · intro hmem
    refine ⟨?_, ?_⟩
    · refine mem_append_right before ?_
      rw [← cons_append]
      exact mem_append_left after hmem
    · rcases mem_cons.mp hmem with rfl | hmem
      · exact prefix_refl path'
      · exact h.below_prefix path' hmem
  · rintro ⟨hmem, hpre⟩
    rcases mem_append.mp hmem with hmem | hmem
    · exact absurd hpre (h.not_prefix path' (mem_append_left after hmem))
    · rw [← cons_append] at hmem
      rcases mem_append.mp hmem with hmem | hmem
      · exact hmem
      · exact absurd hpre (h.not_prefix path' (mem_append_right before hmem))

/-- The path and what stands behind it are the paths that are not smaller. -/
theorem SplitAt.mem_cons_append_iff (h : f.SplitAt before path below after) (hf : f.Sorted) :
    path' ∈ path :: (below ++ after) ↔ path' ∈ f.paths ∧ ¬ path' < path := by
  have hpairwise := hf.pairwise_paths
  rw [h.paths_eq, pairwise_append, pairwise_cons] at hpairwise
  obtain ⟨_, ⟨hbehind, _⟩, hbefore⟩ := hpairwise
  rw [h.paths_eq]
  constructor
  · intro hmem
    refine ⟨mem_append_right before hmem, ?_⟩
    rcases mem_cons.mp hmem with rfl | hmem
    · exact lt_irrefl path'
    · exact (hbehind path' hmem).not_gt
  · rintro ⟨hmem, hle⟩
    rcases mem_append.mp hmem with hmem | hmem
    · exact absurd (hbefore path' hmem path mem_cons_self) hle
    · exact hmem

theorem splitAt_node {b : β} {children siblings : Forest α β}
    (hf : (node a b children siblings).Sorted) :
    (node a b children siblings).SplitAt [] [a] (children.paths.map (a :: ·)) siblings.paths := by
  refine ⟨rfl, fun path' hpath' => ?_, fun path' hpath' hpre => ?_⟩
  · obtain ⟨rest, _, rfl⟩ := mem_map.mp hpath'
    exact cons_prefix_cons.mpr ⟨rfl, nil_prefix⟩
  · obtain ⟨rest, rfl⟩ := hpre
    exact absurd (cons_lt_of_above hf.2.1 hf.2.2 hpath' rest) (lt_irrefl _)

theorem SplitAt.child {b : β} {siblings : Forest α β} (h : f.SplitAt before path below after)
    (hf : (node a b f siblings).Sorted) :
    (node a b f siblings).SplitAt ([a] :: before.map (a :: ·)) (a :: path)
      (below.map (a :: ·)) (after.map (a :: ·) ++ siblings.paths) := by
  refine ⟨?_, fun path' hpath' => ?_, fun path' hpath' hpre => ?_⟩
  · rw [paths, h.paths_eq]
    simp
  · obtain ⟨rest, hrest, rfl⟩ := mem_map.mp hpath'
    exact cons_prefix_cons.mpr ⟨rfl, h.below_prefix rest hrest⟩
  · rw [cons_append, mem_cons, ← append_assoc, ← map_append, mem_append] at hpath'
    rcases hpath' with rfl | hpath' | hpath'
    · obtain ⟨_, hnil⟩ := cons_prefix_cons.mp hpre
      exact ne_nil_of_mem_paths h.mem_paths (prefix_nil.mp hnil)
    · obtain ⟨rest, hrest, rfl⟩ := mem_map.mp hpath'
      exact h.not_prefix rest hrest (cons_prefix_cons.mp hpre).2
    · obtain ⟨rest, rfl⟩ := hpre
      exact absurd (cons_lt_of_above hf.2.1 hf.2.2 hpath' (path ++ rest)) (lt_irrefl _)

theorem SplitAt.sibling {b : β} {children : Forest α β} (h : f.SplitAt before path below after)
    (hf : (node a b children f).Sorted) :
    (node a b children f).SplitAt ([a] :: (children.paths.map (a :: ·) ++ before)) path below
      after := by
  refine ⟨?_, h.below_prefix, fun path' hpath' hpre => ?_⟩
  · rw [paths, h.paths_eq]
    simp
  · rw [cons_append, mem_cons, append_assoc, mem_append] at hpath'
    -- the path begins with another label than the node
    have hlabel (rest : List α) : ¬ path <+: a :: rest := by
      intro hpre
      have hlt := cons_lt_of_above hf.2.1 hf.2.2 h.mem_paths rest
      exact absurd hlt (List.not_lt.mpr hpre.le)
    rcases hpath' with rfl | hpath' | hpath'
    · exact hlabel [] hpre
    · obtain ⟨rest, _, rfl⟩ := mem_map.mp hpath'
      exact hlabel rest hpre
    · exact h.not_prefix path' hpath' hpre

end Order

end AdDelivery.Forest
