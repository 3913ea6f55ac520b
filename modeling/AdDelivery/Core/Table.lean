import Mathlib.Data.Finmap
import Mathlib.Data.List.Sort
import Mathlib.Data.String.Basic

/-!
# Associative containers

`std::map` and `boost::unordered_map` are finite maps. Their subscript operator
inserts a default entry before it yields a reference, so a write through it is
`update` and a read after the insertion is `get`.
A loop that appends what it reads to the list of some key collects into a map of lists.
-/

namespace AdDelivery

open List Finmap Option

/-- A finite map from keys to values. -/
abbrev Table (κ ν : Type*) := Finmap (fun _ : κ => ν)

namespace Table

variable {κ ν : Type*} [DecidableEq κ]

theorem lookup_insert_eq (m : Table κ ν) (k k' : κ) (v : ν) :
    (insert k v m).lookup k' = if k' = k then some v else m.lookup k' := by
  by_cases h : k' = k
  · subst h
    rw [lookup_insert, if_pos rfl]
  · rw [lookup_insert_of_ne m h, if_neg h]

/-- Entering entries one after another: the last one for a key stays. -/
theorem lookup_foldl_insert_getLast? (entries : List (κ × ν)) (m : Table κ ν) (k : κ) :
    (entries.foldl (fun m entry => insert entry.1 entry.2 m) m).lookup k =
      ((entries.filter fun entry => entry.1 = k).map Prod.snd).getLast?.or (m.lookup k) := by
  induction entries using List.reverseRecOn with
  | nil => rfl
  | append_singleton entries entry ih =>
    rw [foldl_append, foldl_cons, foldl_nil, lookup_insert_eq, filter_append]
    by_cases hk : k = entry.1
    · simp [hk]
    · have hk' : entry.1 ≠ k := Ne.symm hk
      rw [if_neg hk, ih]
      simp [hk']

/-- Entering a value of each key. -/
theorem lookup_foldl_insert_value (value : κ → ν) (keys : List κ) (m : Table κ ν) (k : κ) :
    (keys.foldl (fun m k => insert k (value k) m) m).lookup k =
      if k ∈ keys then some (value k) else m.lookup k := by
  induction keys generalizing m with
  | nil => simp
  | cons k' keys ih =>
    rw [foldl_cons, ih, lookup_insert_eq]
    by_cases hk : k = k'
    · simp [hk]
    · simp [hk]

theorem keys_insert (m : Table κ ν) (k : κ) (v : ν) :
    (Finmap.insert k v m).keys = insert k m.keys := by
  ext a
  rw [Finmap.mem_keys, Finmap.mem_insert, Finset.mem_insert, Finmap.mem_keys]

section Default

variable [Inhabited ν]

/-- The entry a subscript yields, the default one when the key is new. -/
def get (m : Table κ ν) (k : κ) : ν := (m.lookup k).getD default

/-- A write through a subscript. -/
def update (m : Table κ ν) (k : κ) (f : ν → ν) : Table κ ν :=
  insert k (f (get m k)) m

theorem get_eq_default {m : Table κ ν} {k : κ} (h : k ∉ m) : get m k = default := by
  rw [get, lookup_eq_none.mpr h, getD_none]

@[simp] theorem get_empty (k : κ) : get (∅ : Table κ ν) k = default := by
  rw [get, lookup_empty, getD_none]

variable (m : Table κ ν)

theorem get_update (k k' : κ) (f : ν → ν) :
    get (update m k f) k' = if k' = k then f (get m k') else get m k' := by
  rw [get, update, lookup_insert_eq]
  split
  · rename_i h
    subst h
    rfl
  · rfl

@[simp] theorem get_update_self (k : κ) (f : ν → ν) : get (update m k f) k = f (get m k) := by
  rw [get_update, if_pos rfl]

theorem get_update_of_ne {k k' : κ} (f : ν → ν) (h : k' ≠ k) :
    get (update m k f) k' = get m k' := by
  rw [get_update, if_neg h]

theorem get_insert (k k' : κ) (v : ν) : get (insert k v m) k' = if k' = k then v else get m k' := by
  rw [get, lookup_insert_eq]
  split <;> rfl

theorem keys_update (k : κ) (f : ν → ν) : (update m k f).keys = insert k m.keys :=
  keys_insert m k _

end Default

section Entries

variable {κ : Type*} [LinearOrder κ]

/-- The keys in ascending order. -/
def sortedKeys (m : Table κ ν) : List κ :=
  Quotient.liftOn m.keys.val (List.insertionSort (· ≤ ·)) fun l l' h =>
    Perm.eq_of_pairwise' (pairwise_insertionSort _ l)
      (pairwise_insertionSort _ l')
      ((perm_insertionSort _ l).trans (h.trans (perm_insertionSort _ l').symm))

variable (m : Table κ ν)

theorem coe_sortedKeys : (m.sortedKeys : Multiset κ) = m.keys.val := by
  unfold sortedKeys
  induction m.keys.val using Quotient.inductionOn with
  | h l => exact Multiset.coe_eq_coe.mpr (perm_insertionSort _ l)

theorem mem_sortedKeys {m : Table κ ν} {k : κ} : k ∈ m.sortedKeys ↔ k ∈ m := by
  rw [← Multiset.mem_coe, coe_sortedKeys, Finset.mem_val, Finmap.mem_keys]

theorem pairwise_sortedKeys : m.sortedKeys.Pairwise (· < ·) := by
  have hle : m.sortedKeys.Pairwise (· ≤ ·) := by
    unfold sortedKeys
    induction m.keys.val using Quotient.inductionOn with
    | h l => exact pairwise_insertionSort _ l
  have hnodup : m.sortedKeys.Nodup := by
    rw [← Multiset.coe_nodup, coe_sortedKeys]
    exact m.keys.nodup
  exact hle.imp₂ (fun _ _ => lt_of_le_of_ne) hnodup

/-- What an iterator over a `std::map` reads: the entries in the order of their keys. -/
def inOrder (m : Table κ ν) : List (κ × ν) :=
  m.sortedKeys.filterMap fun k => (m.lookup k).map fun v => (k, v)

theorem mem_inOrder {m : Table κ ν} {k : κ} {v : ν} : (k, v) ∈ m.inOrder ↔ m.lookup k = some v := by
  simp only [inOrder, mem_filterMap, map_eq_some_iff, Prod.mk.injEq]
  constructor
  · rintro ⟨k', _, v', hlookup, rfl, rfl⟩
    exact hlookup
  · intro hlookup
    refine ⟨k, ?_, v, hlookup, rfl, rfl⟩
    rw [mem_sortedKeys, ← lookup_isSome, hlookup]
    rfl

theorem pairwise_inOrder : (m.inOrder.map Prod.fst).Pairwise (· < ·) := by
  rw [pairwise_map]
  refine m.pairwise_sortedKeys.filterMap _ ?_
  intro k k' hlt entry hentry entry' hentry'
  obtain ⟨v, _, rfl⟩ := map_eq_some_iff.mp hentry
  obtain ⟨v', _, rfl⟩ := map_eq_some_iff.mp hentry'
  exact hlt

/-- The entries are read off at the keys. -/
theorem inOrder_eq_map [Inhabited ν] : m.inOrder = m.sortedKeys.map fun k => (k, m.get k) := by
  rw [← filterMap_eq_map]
  apply filterMap_congr
  intro k hk
  obtain ⟨v, hv⟩ := isSome_iff_exists.mp (lookup_isSome.mpr (mem_sortedKeys.mp hk))
  simp [get, hv]

/-- Looking for a key. -/
theorem find?_inOrder (k : κ) :
    m.inOrder.find? (fun entry => decide (entry.1 = k)) = (m.lookup k).map fun v => (k, v) := by
  cases hfind : m.inOrder.find? (fun entry => decide (entry.1 = k)) with
  | none =>
    cases hlookup : m.lookup k with
    | none => rfl
    | some v =>
      have hfalse := find?_eq_none.mp hfind (k, v) (mem_inOrder.mpr hlookup)
      exact absurd (decide_eq_true rfl) hfalse
  | some entry =>
    obtain ⟨k', v⟩ := entry
    have hkey : k' = k := by simpa using find?_some hfind
    subst hkey
    rw [mem_inOrder.mp (mem_of_find?_eq_some hfind)]
    rfl

variable {entries : List (κ × ν)}

theorem find?_eq_none_of_ne {k : κ} (h : ∀ k' ∈ entries.map Prod.fst, k ≠ k') :
    entries.find? (fun entry => decide (entry.1 = k)) = none := by
  rw [find?_eq_none]
  intro entry hmem heq
  exact h _ (mem_map_of_mem hmem) (of_decide_eq_true heq).symm

/-- Entering entries with different keys. -/
theorem lookup_foldl_insert (h : (entries.map Prod.fst).Pairwise (· ≠ ·)) (m : Table κ ν) (k : κ) :
    (entries.foldl (fun m entry => insert entry.1 entry.2 m) m).lookup k =
      ((entries.find? fun entry => decide (entry.1 = k)).map Prod.snd).or (m.lookup k) := by
  induction entries generalizing m with
  | nil => rfl
  | cons entry entries ih =>
    rw [map_cons, pairwise_cons] at h
    rw [foldl_cons, ih h.2, lookup_insert_eq, find?_cons]
    by_cases hk : entry.1 = k
    · subst hk
      rw [find?_eq_none_of_ne h.1, if_pos rfl, decide_eq_true rfl]
      rfl
    · rw [if_neg (Ne.symm hk), decide_eq_false hk]

/-- Writing to different keys. -/
theorem get_foldl_update [Inhabited ν] {μ : Type*} {entries : List (κ × μ)}
    (h : (entries.map Prod.fst).Pairwise (· ≠ ·)) (f : ν → μ → ν) (m : Table κ ν) (k : κ) :
    (entries.foldl (fun m entry => m.update entry.1 (f · entry.2)) m).get k =
      (entries.find? fun entry => decide (entry.1 = k)).elim (m.get k) fun entry =>
        f (m.get k) entry.2 := by
  induction entries generalizing m with
  | nil => rfl
  | cons entry entries ih =>
    rw [map_cons, pairwise_cons] at h
    rw [foldl_cons, ih h.2, get_update, find?_cons]
    by_cases hk : entry.1 = k
    · subst hk
      rw [find?_eq_none_of_ne h.1, if_pos rfl, decide_eq_true rfl]
      rfl
    · rw [if_neg (Ne.symm hk), decide_eq_false hk]

/-- Writing one map into another. -/
theorem get_foldl_inOrder [Inhabited ν] {μ : Type*} (m' : Table κ μ) (f : ν → μ → ν) (k : κ) :
    (m'.inOrder.foldl (fun m entry => m.update entry.1 (f · entry.2)) m).get k =
      (m'.lookup k).elim (m.get k) (f (m.get k)) := by
  rw [get_foldl_update (m'.pairwise_inOrder.imp ne_of_lt), find?_inOrder]
  cases m'.lookup k <;> rfl

/-- The entries make up the map again. -/
theorem foldl_insert_inOrder :
    m.inOrder.foldl (fun m entry => Finmap.insert entry.1 entry.2 m) ∅ = m := by
  apply Finmap.ext_lookup
  intro k
  rw [lookup_foldl_insert (m.pairwise_inOrder.imp ne_of_lt), find?_inOrder, Finmap.lookup_empty,
    Option.or_none, Option.map_map]
  exact Option.map_id'

end Entries

/-- Keys that are strings are sorted by a transitive order. -/
instance isTrans_string_le : IsTrans String fun s t => s ≤ t := instIsTransLe

/-- Keys that are strings are sorted in one way only. -/
instance antisymm_string_le : Std.Antisymm fun s t : String => s ≤ t := instAntisymmLe

end Table

variable {κ α β : Type*} [DecidableEq κ]

/-- Append to the list of a key. -/
def appendAt (m : Table κ (List α)) (k : κ) (a : α) : Table κ (List α) :=
  Table.update m k (· ++ [a])

theorem get_appendAt (m : Table κ (List α)) (k k' : κ) (a : α) :
    Table.get (appendAt m k a) k' = Table.get m k' ++ if k' = k then [a] else [] := by
  rw [appendAt, Table.get_update]
  split
  · rfl
  · rw [List.append_nil]

variable {m : Table κ (List α)}

theorem mem_appendAt {k k' : κ} {a : α} : k' ∈ appendAt m k a ↔ k' = k ∨ k' ∈ m := by
  rw [← Finmap.mem_keys, appendAt, Table.keys_update, Finset.mem_insert, Finmap.mem_keys]

/-- The loop over `xs`. -/
def collect (key : β → Option κ) (value : β → α) (xs : List β) (m : Table κ (List α)) :
    Table κ (List α) :=
  xs.foldl (fun m x => (key x).elim m fun k => appendAt m k (value x)) m

variable {key : β → Option κ} {value : β → α}

theorem get_collect (xs : List β) (m : Table κ (List α)) (k : κ) :
    Table.get (collect key value xs m) k =
      Table.get m k ++ (xs.filter fun x => decide (key x = some k)).map value := by
  induction xs generalizing m with
  | nil => exact (List.append_nil _).symm
  | cons x xs ih =>
    have htail := ih ((key x).elim m fun k => appendAt m k (value x))
    rw [collect, List.foldl_cons, ← collect, htail, List.filter_cons]
    cases hkey : key x with
    | none => simp
    | some k' =>
      rw [Option.elim_some, get_appendAt]
      by_cases hk : k = k'
      · subst hk
        simp
      · have hne : ¬ k' = k := fun h => hk h.symm
        simp [hk, hne]

theorem mem_collect {xs : List β} {k : κ} :
    k ∈ collect key value xs m ↔ k ∈ m ∨ ∃ x ∈ xs, key x = some k := by
  induction xs generalizing m with
  | nil => simp [collect]
  | cons x xs ih =>
    have htail := ih (m := (key x).elim m fun k => appendAt m k (value x))
    rw [collect, List.foldl_cons, ← collect, htail]
    cases hkey : key x with
    | none => simp [hkey]
    | some k' =>
      rw [Option.elim_some, mem_appendAt, List.exists_mem_cons_iff, hkey, Option.some.injEq,
        eq_comm (a := k'), or_comm (a := k = k'), @or_assoc (_ ∈ _)]

/-- Collected from nothing. -/
theorem mem_get_collect {xs : List β} {k : κ} {a : α} :
    a ∈ Table.get (collect key value xs ∅) k ↔ ∃ x ∈ xs, key x = some k ∧ value x = a := by
  have hdefault : (default : List α) = [] := rfl
  rw [get_collect, Table.get_empty, hdefault]
  simp [and_assoc]

end AdDelivery
