import AdDelivery.Core.Scan
import AdDelivery.SuffixMatch.GroupNode

/-!
# Names of group paths

The name of a group node is the text of the path that leads to it: its values, joined by a
separator. The names on the way down a path tell the path and keep the order, but one name alone
does not tell its path, since a value may hold the separator.
-/

namespace AdDelivery.SuffixMatch

open List

variable {CharT : Type}

/-- `append(">").append(groupPath[k])`. -/
def appendValue (separator : CharT) (groupstr value : List CharT) : List CharT :=
  groupstr ++ separator :: value

/-- The names of the nodes on the way down a path. -/
def nodeNames (separator : CharT) : List (List CharT) → List (List CharT)
  | [] => []
  | value :: groupPath => groupPath.scanl (appendValue separator) value

/-- The name of the last node of a path. -/
def groupStr (separator : CharT) : List (List CharT) → List CharT
  | [] => []
  | value :: groupPath => groupPath.foldl (appendValue separator) value

variable {separator : CharT} {groupPath : List (List CharT)}

theorem nodeNames_ne_nil (h : groupPath ≠ []) : nodeNames separator groupPath ≠ [] := by
  obtain ⟨value, groupPath, rfl⟩ := exists_cons_of_ne_nil h
  exact scanl_ne_nil

theorem getLast?_nodeNames (h : groupPath ≠ []) :
    (nodeNames separator groupPath).getLast? = some (groupStr separator groupPath) := by
  obtain ⟨value, groupPath, rfl⟩ := exists_cons_of_ne_nil h
  exact getLast?_scanl

theorem appendValue_injective (groupstr : List CharT) :
    Function.Injective (appendValue separator groupstr) := fun _ _ h =>
  (List.cons.inj (append_cancel_left h)).2

/-- The nodes on the way down are named by the prefixes of the path. -/
theorem prefix_nodeNames_iff {names : List (List CharT)} (hne : names ≠ []) :
    names <+: nodeNames separator groupPath ↔
      ∃ g, g ≠ [] ∧ g <+: groupPath ∧ names = nodeNames separator g := by
  cases groupPath with
  | nil =>
    refine iff_of_false (fun h => hne (prefix_nil.mp h)) ?_
    rintro ⟨g, hg, hpre, _⟩
    exact hg (prefix_nil.mp hpre)
  | cons value groupPath =>
    rw [nodeNames, prefix_scanl_iff hne]
    constructor
    · rintro ⟨rest, hrest, rfl⟩
      exact ⟨value :: rest, cons_ne_nil value rest, cons_prefix_cons.mpr ⟨rfl, hrest⟩, rfl⟩
    · rintro ⟨g, hg, hpre, rfl⟩
      obtain ⟨value', rest, rfl⟩ := exists_cons_of_ne_nil hg
      obtain ⟨rfl, hrest⟩ := cons_prefix_cons.mp hpre
      exact ⟨rest, hrest, rfl⟩

theorem nodeNames_prefix_iff {g : List (List CharT)} (hg : g ≠ []) (h : groupPath ≠ []) :
    nodeNames separator g <+: nodeNames separator groupPath ↔ g <+: groupPath := by
  obtain ⟨value, rest, rfl⟩ := exists_cons_of_ne_nil hg
  obtain ⟨value', rest', rfl⟩ := exists_cons_of_ne_nil h
  obtain ⟨results, hresults⟩ := exists_scanl_eq_cons (appendValue separator) value rest
  obtain ⟨results', hresults'⟩ := exists_scanl_eq_cons (appendValue separator) value' rest'
  rw [cons_prefix_cons, nodeNames, nodeNames]
  constructor
  · intro hpre
    have hhead := hpre
    rw [hresults, hresults', cons_prefix_cons] at hhead
    obtain rfl : value = value' := hhead.1
    exact ⟨rfl, (scanl_prefix_scanl_iff appendValue_injective).mp hpre⟩
  · rintro ⟨rfl, hpre⟩
    exact (scanl_prefix_scanl_iff appendValue_injective).mpr hpre

/-- Names grow on the way down. -/
theorem nodup_nodeNames (separator : CharT) (groupPath : List (List CharT)) :
    (nodeNames separator groupPath).Nodup := by
  cases groupPath with
  | nil => exact nodup_nil
  | cons value groupPath =>
    refine nodup_scanl List.length (fun groupstr value => ?_) groupPath value
    rw [appendValue, length_append, length_cons]
    omega

section Order

variable [LinearOrder CharT]

theorem appendValue_strictMono (groupstr : List CharT) :
    StrictMono (appendValue separator groupstr) := by
  intro value value' hlt
  apply append_left_lt
  exact cons_lt_cons_iff.mpr (Or.inr ⟨rfl, hlt⟩)

/-- Nodes stand in the order of their paths. -/
theorem nodeNames_lt_iff {g : List (List CharT)} :
    nodeNames separator g < nodeNames separator groupPath ↔ g < groupPath := by
  cases g with
  | nil =>
    cases groupPath with
    | nil => rfl
    | cons value groupPath =>
      obtain ⟨results, hresults⟩ :=
        exists_scanl_eq_cons (appendValue separator) value groupPath
      rw [nodeNames, nodeNames, hresults]
      exact iff_of_true (nil_lt_cons value results) (nil_lt_cons value groupPath)
  | cons value g =>
    cases groupPath with
    | nil => exact iff_of_false (not_lt_nil _) (not_lt_nil _)
    | cons value' groupPath =>
      exact scanl_lt_iff_cons_lt strictMono_id fun _ =>
        scanl_lt_scanl_iff appendValue_strictMono

end Order

end AdDelivery.SuffixMatch
