import AdDelivery.Core.Table
import AdDelivery.Core.Vector
import Mathlib.Data.List.GetD

/-!
# Vectors of keys with an index

Ids are positions in a vector of keys, and a map leads from each key back to its position. The
vector only grows, so the map can always be derived again from it. When a key is a pair of an
earlier id and a label, the vector is a tree given by parent pointers: the map leads down a
path of labels and the vector leads up from an id.
-/

namespace AdDelivery

open List Option

variable {κ : Type*}

/-- `find` gives the position of every key, from position `lo` on. -/
def Indexes (find : κ → Option ℕ) (keys : List κ) (lo : ℕ) : Prop :=
  ∀ k i, find k = some i ↔ lo ≤ i ∧ keys[i]? = some k

namespace Indexes

variable {find find' : κ → Option ℕ} {keys : List κ} {lo : ℕ}

theorem lt_length (h : Indexes find keys lo) {k : κ} {i : ℕ} (hk : find k = some i) :
    i < keys.length :=
  (List.getElem?_eq_some_iff.mp ((h k i).mp hk).2).1

/-- A key has one position. -/
theorem unique (h : Indexes find keys lo) {k : κ} {i j : ℕ} (hi : lo ≤ i) (hj : lo ≤ j)
    (hki : keys[i]? = some k) (hkj : keys[j]? = some k) : i = j :=
  some.inj (((h k i).mpr ⟨hi, hki⟩).symm.trans ((h k j).mpr ⟨hj, hkj⟩))

/-- Two indexes of one vector find the same. -/
theorem congr (h : Indexes find keys lo) (h' : Indexes find' keys lo) (k : κ) :
    find k = find' k := by
  apply ext
  intro i
  rw [h k i, h' k i]

/-- A new key goes to the end. -/
theorem push [DecidableEq κ] (h : Indexes find keys lo) (hlo : lo ≤ keys.length) {k : κ}
    (hnew : find k = none) (hfind : ∀ k', find' k' = if k' = k then some keys.length else find k') :
    Indexes find' (keys ++ [k]) lo := by
  intro k' i
  rw [hfind k']
  rcases Nat.lt_trichotomy i keys.length with hi | rfl | hi
  · rw [getElem?_append_left hi, ← h k' i]
    by_cases hk : k' = k
    · rw [if_pos hk, hk, hnew]
      simp only [some.injEq, reduceCtorEq, iff_false]
      omega
    · rw [if_neg hk]
  · rw [getElem?_concat_length]
    by_cases hk : k' = k
    · simp [hk, hlo]
    · rw [if_neg hk]
      constructor
      · intro hold
        exact absurd (h.lt_length hold) (Nat.lt_irrefl _)
      · rintro ⟨_, heq⟩
        exact absurd (some.inj heq).symm hk
  · rw [getElem?_eq_none (by simp; omega)]
    simp only [reduceCtorEq, and_false, iff_false]
    split
    · intro heq
      have := some.inj heq
      omega
    · intro hold
      have := h.lt_length hold
      omega

end Indexes

/-- Deriving the index again: entering the keys at their positions, one after another, into an
empty container of any kind. `P` is what the container needs to take all these keys. -/
theorem indexes_rebuild [DecidableEq κ] {τ : Type*} {look : τ → κ → Option ℕ}
    {put : τ → κ → ℕ → τ} {P : τ → Prop} {keys : List κ} {lo : ℕ}
    (hput : ∀ t i k, lo ≤ i → keys[i]? = some k → P t →
      P (put t k i) ∧ ∀ k', look (put t k i) k' = if k' = k then some i else look t k')
    (huniq : ∀ i j k, lo ≤ i → lo ≤ j → keys[i]? = some k → keys[j]? = some k → i = j)
    {t : τ} (hP : P t) (hlook : ∀ k, look t k = none) (hlo : lo ≤ keys.length) :
    Indexes (look (((keys.drop lo).zipIdx lo).foldl (fun t entry => put t entry.1 entry.2) t))
      keys lo := by
  have hinit : Indexes (look t) (keys.take lo) lo := by
    intro k i
    rw [hlook k]
    simp only [reduceCtorEq, false_iff, not_and]
    intro hi
    rw [getElem?_eq_none (by rw [length_take]; omega)]
    exact nofun
  suffices hall : ∀ (rest : List κ) (m : ℕ) (t : τ), keys.drop m = rest → lo ≤ m →
      m ≤ keys.length → P t → Indexes (look t) (keys.take m) lo →
      Indexes (look ((rest.zipIdx m).foldl (fun t entry => put t entry.1 entry.2) t)) keys lo from
    hall (keys.drop lo) lo t rfl (Nat.le_refl lo) hlo hP hinit
  intro rest
  induction rest with
  | nil =>
    intro m t hrest _ _ _ h
    rw [take_of_length_le (drop_eq_nil_iff.mp hrest)] at h
    exact h
  | cons k rest ih =>
    intro m t hrest hm hle hPt h
    have hk : keys[m]? = some k := by
      rw [← Nat.add_zero m, ← getElem?_drop, hrest]
      rfl
    have hlt : m < keys.length := (List.getElem?_eq_some_iff.mp hk).1
    have hlen : (keys.take m).length = m := by
      rw [length_take]
      omega
    have hnew : look t k = none := by
      cases hold : look t k with
      | none => rfl
      | some i =>
        obtain ⟨hi, hki⟩ := (h k i).mp hold
        have him : i < m := hlen ▸ (List.getElem?_eq_some_iff.mp hki).1
        rw [getElem?_take_of_lt him] at hki
        exact absurd (huniq i m k hi hm hki hk) him.ne
    obtain ⟨hPt', hlook'⟩ := hput t m k hm hk hPt
    have hpush : Indexes (look (put t k m)) (keys.take m ++ [k]) lo := by
      refine h.push (hlen.symm ▸ hm) hnew ?_
      rw [hlen]
      exact hlook'
    have htake : keys.take m ++ [k] = keys.take (m + 1) := by
      rw [take_add_one, hk]
      rfl
    have hnext : keys.drop (m + 1) = rest := by
      rw [← drop_drop, hrest]
      rfl
    rw [htake] at hpush
    exact ih (m + 1) _ hnext (by omega) hlt hPt' hpush

section Nested

variable {α : Type*} [DecidableEq α]

/-- Look up the label `key.2` in the map of the id `key.1`. -/
def findIn (maps : List (Table α ℕ)) (key : ℕ × α) : Option ℕ :=
  (maps.getD key.1 ∅).lookup key.2

/-- Write one entry of one map. -/
def putIn (maps : List (Table α ℕ)) (key : ℕ × α) (i : ℕ) : List (Table α ℕ) :=
  maps.modify key.1 (Finmap.insert key.2 i)

variable (maps : List (Table α ℕ))

@[simp] theorem length_putIn (key : ℕ × α) (i : ℕ) :
    (putIn maps key i).length = maps.length := length_modify ..

theorem findIn_putIn {maps : List (Table α ℕ)} {key : ℕ × α} (h : key.1 < maps.length) (i : ℕ)
    (key' : ℕ × α) :
    findIn (putIn maps key i) key' = if key' = key then some i else findIn maps key' := by
  rw [findIn, putIn, getD_modify _ _ _ _ _ h]
  by_cases hfst : key.1 = key'.1
  · rw [if_pos hfst, Table.lookup_insert_eq]
    by_cases hsnd : key'.2 = key.2
    · rw [if_pos hsnd, if_pos (Prod.ext hfst.symm hsnd)]
    · rw [if_neg hsnd, if_neg fun heq => hsnd (congrArg Prod.snd heq), findIn]
  · rw [if_neg hfst, if_neg fun heq => hfst (congrArg Prod.fst heq).symm, findIn]

/-- An empty map at the end holds nothing. -/
@[simp] theorem findIn_push (key : ℕ × α) : findIn (maps ++ [∅]) key = findIn maps key := by
  rw [findIn, findIn, getD_eq_getElem?_getD, getD_eq_getElem?_getD, getElem?_append]
  split
  · rfl
  · rename_i hge
    rw [getElem?_eq_none (Nat.not_lt.mp hge)]
    cases key.1 - maps.length <;> rfl

theorem findIn_replicate (n : ℕ) (key : ℕ × α) :
    findIn (List.replicate n (∅ : Table α ℕ)) key = none := by
  rw [findIn, getD_eq_getElem?_getD, getElem?_replicate]
  split
  · exact Finmap.lookup_empty _
  · exact Finmap.lookup_empty _

/-- The vector of maps that the keys determine. -/
def mapsOf (n : ℕ) (keys : List (ℕ × α)) (lo : ℕ) : List (Table α ℕ) :=
  ((keys.drop lo).zipIdx lo).foldl (fun maps entry => putIn maps entry.1 entry.2)
    (List.replicate n ∅)

theorem indexes_mapsOf {keys : List (ℕ × α)} {lo n : ℕ}
    (huniq : ∀ i j k, lo ≤ i → lo ≤ j → keys[i]? = some k → keys[j]? = some k → i = j)
    (hrange : ∀ (i n' : ℕ) (a : α), lo ≤ i → keys[i]? = some (n', a) → n' < n)
    (hlo : lo ≤ keys.length) : Indexes (findIn (mapsOf n keys lo)) keys lo := by
  refine indexes_rebuild (P := fun maps => maps.length = n) ?_ huniq length_replicate
    (findIn_replicate n) hlo
  intro maps i k hi hk hlen
  refine ⟨(length_putIn maps k i).trans hlen, fun k' => findIn_putIn ?_ i k'⟩
  rw [hlen]
  exact hrange i k.1 k.2 hi hk

theorem length_mapsOf (n : ℕ) (keys : List (ℕ × α)) (lo : ℕ) : (mapsOf n keys lo).length = n := by
  have hfold : ∀ (entries : List ((ℕ × α) × ℕ)) (maps : List (Table α ℕ)),
      (entries.foldl (fun maps entry => putIn maps entry.1 entry.2) maps).length =
        maps.length := by
    intro entries
    induction entries with
    | nil => exact fun _ => rfl
    | cons entry entries ih =>
      intro maps
      rw [foldl_cons, ih, length_putIn]
  rw [mapsOf, hfold, length_replicate]

end Nested

section Tree

variable {α : Type*}

/-- The labels on the way from the root, which has the id 0, to an id. -/
inductive PathOf (keys : List (ℕ × α)) : ℕ → List α → Prop
  | root : PathOf keys 0 []
  | child {parent id : ℕ} {path : List α} {label : α} (h : PathOf keys parent path)
      (hid : 0 < id) (hkey : keys[id]? = some (parent, label)) :
      PathOf keys id (path ++ [label])

variable {keys : List (ℕ × α)} {id : ℕ}

theorem pathOf_nil_iff : PathOf keys id [] ↔ id = 0 := by
  constructor
  · intro h
    generalize hpath : ([] : List α) = path at h
    cases h with
    | root => rfl
    | child _ _ _ => simp at hpath
  · rintro rfl
    exact .root

variable {path : List α}

theorem pathOf_append_iff {label : α} : PathOf keys id (path ++ [label]) ↔
      0 < id ∧ ∃ parent, keys[id]? = some (parent, label) ∧ PathOf keys parent path := by
  constructor
  · intro h
    generalize hpath : path ++ [label] = path' at h
    cases h with
    | root => simp at hpath
    | child h hid hkey =>
      obtain ⟨rfl, hlabel⟩ := append_inj' hpath rfl
      cases hlabel
      exact ⟨hid, _, hkey, h⟩
  · rintro ⟨hid, parent, hkey, h⟩
    exact .child h hid hkey

theorem pathOf_root_iff : PathOf keys 0 path ↔ path = [] := by
  constructor
  · intro h
    cases h with
    | root => rfl
    | child _ hid _ => cases hid
  · rintro rfl
    exact .root

theorem PathOf.extend {keys keys' : List (ℕ × α)} (hpre : keys <+: keys')
    (h : PathOf keys id path) : PathOf keys' id path := by
  induction h with
  | root => exact .root
  | child _ hid hkey ih =>
    obtain ⟨tail, rfl⟩ := hpre
    refine .child ih hid ?_
    rw [getElem?_append_left (List.getElem?_eq_some_iff.mp hkey).1]
    exact hkey

/-- Follow the labels down from an id. -/
def descend (find : ℕ × α → Option ℕ) : ℕ → List α → Option ℕ
  | id, [] => some id
  | id, label :: path => (find (id, label)).bind fun child => descend find child path

theorem descend_append (find : ℕ × α → Option ℕ) (id : ℕ) (path : List α) (label : α) :
    descend find id (path ++ [label]) =
      (descend find id path).bind fun parent => find (parent, label) := by
  induction path generalizing id with
  | nil =>
    rw [nil_append, descend, descend, bind_some]
    cases find (id, label) <;> rfl
  | cons first path ih =>
    rw [cons_append, descend, descend, bind_assoc]
    congr 1
    funext child
    exact ih child

/-- Going down the labels leads to the id whose path they are. -/
theorem descend_eq_some_iff {find : ℕ × α → Option ℕ} (h : Indexes find keys 1) :
    descend find 0 path = some id ↔ PathOf keys id path := by
  induction path using List.reverseRecOn generalizing id with
  | nil =>
    rw [pathOf_nil_iff, descend, some.injEq]
    exact eq_comm
  | append_singleton path label ih =>
    rw [descend_append, bind_eq_some_iff, pathOf_append_iff]
    constructor
    · rintro ⟨parent, hparent, hfind⟩
      obtain ⟨hid, hkey⟩ := (h _ _).mp hfind
      exact ⟨hid, parent, hkey, ih.mp hparent⟩
    · rintro ⟨hid, parent, hkey, hpath⟩
      exact ⟨parent, ih.mpr hpath, (h _ _).mpr ⟨hid, hkey⟩⟩

/-- Collect the labels on the way up to the root, in at most `fuel` steps. -/
def climb (keys : List (ℕ × α)) : ℕ → ℕ → Option (List α)
  | _, 0 => some []
  | 0, _ + 1 => none
  | fuel + 1, id + 1 =>
    keys[id + 1]?.bind fun key => (climb keys fuel key.1).map fun labels => key.2 :: labels

theorem climb_root (keys : List (ℕ × α)) (fuel : ℕ) : climb keys fuel 0 = some [] := by
  cases fuel <;> rfl

/-- Where parents come before their children, going up from an id yields its path. -/
theorem climb_eq_some_iff
    (hparent : ∀ id parent label, 0 < id → keys[id]? = some (parent, label) → parent < id)
    {fuel id : ℕ} (hfuel : id ≤ fuel) {labels : List α} :
    climb keys fuel id = some labels ↔ PathOf keys id labels.reverse := by
  induction fuel generalizing id labels with
  | zero =>
    obtain rfl : id = 0 := by omega
    rw [climb_root, pathOf_root_iff, some.injEq, reverse_eq_nil_iff, eq_comm]
  | succ fuel ih =>
    cases id with
    | zero => rw [climb_root, pathOf_root_iff, some.injEq, reverse_eq_nil_iff, eq_comm]
    | succ id =>
      rw [climb, bind_eq_some_iff]
      constructor
      · rintro ⟨⟨parent, label⟩, hkey, hmap⟩
        obtain ⟨rest, hrest, rfl⟩ := map_eq_some_iff.mp hmap
        have hlt := hparent _ _ _ (Nat.succ_pos id) hkey
        rw [reverse_cons, pathOf_append_iff]
        exact ⟨Nat.succ_pos id, parent, hkey, (ih (by omega)).mp hrest⟩
      · intro h
        cases labels with
        | nil => simp [pathOf_nil_iff] at h
        | cons label rest =>
          rw [reverse_cons, pathOf_append_iff] at h
          obtain ⟨_, parent, hkey, hpath⟩ := h
          have hlt := hparent _ _ _ (Nat.succ_pos id) hkey
          refine ⟨(parent, label), hkey, ?_⟩
          rw [(ih (by omega)).mpr hpath]
          rfl

end Tree

end AdDelivery
