import AdDelivery.Core.Table

/-!
# Hash slots

Entries are kept in slots, each in the slot that the hash of its key names. Within a slot the order
is that of insertion; an entry whose key is there already takes the place of the old one. The slots
are a finite map as long as every entry is in its own slot and no key is twice in one.
-/

namespace AdDelivery

open List Option Table

/-- The slots that have been allocated. -/
abbrev HashSlots (ε : Type*) := Table ℕ (List ε)

namespace HashSlots

variable {ε κ : Type*} [DecidableEq κ] (key : ε → κ) (hash : κ → ℕ)

/-- Replace the entry with the same key, or push the new one back. -/
def putSlot (e : ε) : List ε → List ε
  | [] => [e]
  | e' :: slot => if key e' = key e then e :: slot else e' :: putSlot e slot

/-- The entry of a key in a slot. -/
def findSlot (slot : List ε) (k : κ) : Option ε := slot.find? fun e => key e = k

/-- A slot without a key. -/
def eraseSlot (slot : List ε) (k : κ) : List ε := slot.eraseP fun e => key e = k

variable {key} {slot : List ε}

theorem findSlot_cons (e : ε) (slot : List ε) (k : κ) :
    findSlot key (e :: slot) k = if key e = k then some e else findSlot key slot k := by
  rw [findSlot, find?_cons]
  by_cases hk : key e = k
  · rw [if_pos hk, decide_eq_true hk]
  · rw [if_neg hk, decide_eq_false hk, findSlot]

theorem findSlot_putSlot (e : ε) (slot : List ε) (k : κ) :
    findSlot key (putSlot key e slot) k = if k = key e then some e else findSlot key slot k := by
  induction slot with
  | nil =>
    rw [putSlot, findSlot_cons]
    exact if_congr eq_comm rfl rfl
  | cons e' slot ih =>
    by_cases heq : key e' = key e
    · rw [putSlot, if_pos heq, findSlot_cons, findSlot_cons, heq]
      by_cases hk : key e = k
      · rw [if_pos hk, if_pos hk.symm]
      · rw [if_neg hk, if_neg (Ne.symm hk), if_neg hk]
    · rw [putSlot, if_neg heq, findSlot_cons, findSlot_cons, ih]
      by_cases hk : key e' = k
      · rw [if_pos hk, if_pos hk, if_neg fun h => heq (hk.trans h)]
      · rw [if_neg hk, if_neg hk]

theorem mem_putSlot {e e' : ε} (h : e' ∈ putSlot key e slot) : e' = e ∨ e' ∈ slot := by
  induction slot with
  | nil => exact .inl (mem_singleton.mp h)
  | cons a slot ih =>
    rw [putSlot] at h
    split at h
    · rcases mem_cons.mp h with rfl | h
      · exact .inl rfl
      · exact .inr (mem_cons_of_mem a h)
    · rcases mem_cons.mp h with rfl | h
      · exact .inr mem_cons_self
      · exact (ih h).imp_right (mem_cons_of_mem a)

/-- No key gets twice into a slot. -/
theorem nodup_putSlot (h : (slot.map key).Nodup) (e : ε) :
    ((putSlot key e slot).map key).Nodup := by
  induction slot with
  | nil => exact nodup_singleton (key e)
  | cons a slot ih =>
    rw [map_cons, nodup_cons] at h
    rw [putSlot]
    split
    · rename_i heq
      rw [map_cons, nodup_cons, ← heq]
      exact h
    · rename_i hne
      rw [map_cons, nodup_cons]
      refine ⟨fun hmem => ?_, ih h.2⟩
      obtain ⟨e', he', hkey⟩ := mem_map.mp hmem
      rcases mem_putSlot he' with rfl | he'
      · exact hne hkey.symm
      · exact h.1 (hkey ▸ mem_map_of_mem he')

theorem findSlot_eq_some_iff (h : (slot.map key).Nodup) {k : κ} {e : ε} :
    findSlot key slot k = some e ↔ e ∈ slot ∧ key e = k := by
  constructor
  · intro hfind
    exact ⟨mem_of_find?_eq_some hfind, by simpa using find?_some hfind⟩
  · rintro ⟨hmem, rfl⟩
    cases hfind : findSlot key slot (key e) with
    | none => exact absurd (find?_eq_none.mp hfind e hmem) (by simp)
    | some e' =>
      have hmem' := mem_of_find?_eq_some hfind
      have hkey : key e' = key e := by simpa using find?_some hfind
      rw [inj_on_of_nodup_map h hmem' hmem hkey]

theorem findSlot_eraseSlot (h : (slot.map key).Nodup) (k k' : κ) :
    findSlot key (eraseSlot key slot k) k' = if k' = k then none else findSlot key slot k' := by
  induction slot with
  | nil => exact (ite_self none).symm
  | cons e slot ih =>
    rw [map_cons, nodup_cons] at h
    by_cases he : key e = k
    · have herase : eraseSlot key (e :: slot) k = slot :=
        eraseP_cons_of_pos (decide_eq_true he)
      rw [herase, findSlot_cons, he]
      by_cases hk : k' = k
      · rw [if_pos hk, findSlot, find?_eq_none]
        intro e' he' hkey
        have hkey' : key e' = key e := (of_decide_eq_true hkey).trans (hk.trans he.symm)
        exact h.1 (hkey' ▸ mem_map_of_mem he')
      · rw [if_neg hk, if_neg (Ne.symm hk)]
    · have herase : eraseSlot key (e :: slot) k = e :: eraseSlot key slot k :=
        eraseP_cons_of_neg (by simpa using he)
      rw [herase, findSlot_cons, findSlot_cons, ih h.2]
      by_cases hk : key e = k'
      · rw [if_pos hk, if_pos hk, if_neg fun heq => he (hk.trans heq)]
      · rw [if_neg hk, if_neg hk]

variable (key)

/-- The entry of a key. -/
def find (slots : HashSlots ε) (k : κ) : Option ε :=
  (slots.lookup (hash k)).bind fun slot => findSlot key slot k

/-- Put an entry into its slot, which is allocated if it is not there. -/
def put (slots : HashSlots ε) (e : ε) : HashSlots ε :=
  Finmap.insert (hash (key e)) (putSlot key e ((slots.lookup (hash (key e))).getD [])) slots

/-- Take a key out of its slot. -/
def erase (slots : HashSlots ε) (k : κ) : HashSlots ε :=
  match slots.lookup (hash k) with
  | none => slots
  | some slot => Finmap.insert (hash k) (eraseSlot key slot k) slots

/-- All entries, slot by slot. -/
def entries (slots : HashSlots ε) : List ε := slots.inOrder.flatMap Prod.snd

/-- Every entry is in its own slot, no key is twice in one. -/
structure WellFormed (slots : HashSlots ε) : Prop where
  own : ∀ i slot, slots.lookup i = some slot → ∀ e ∈ slot, hash (key e) = i
  nodup : ∀ i slot, slots.lookup i = some slot → (slot.map key).Nodup

variable {key hash} {slots : HashSlots ε}

omit [DecidableEq κ] in
theorem wellFormed_empty : WellFormed key hash (∅ : HashSlots ε) where
  own := fun i slot hslot => by
    rw [Finmap.lookup_empty] at hslot
    cases hslot
  nodup := fun i slot hslot => by
    rw [Finmap.lookup_empty] at hslot
    cases hslot

@[simp] theorem find_empty (k : κ) : find key hash (∅ : HashSlots ε) k = none := by
  rw [find, Finmap.lookup_empty, bind_none]

/-- What is put in is found, the rest is as before. -/
theorem find_put (slots : HashSlots ε) (e : ε) (k : κ) : find key hash (put key hash slots e) k =
      if k = key e then some e else find key hash slots k := by
  rw [find, put, lookup_insert_eq]
  by_cases hhash : hash k = hash (key e)
  · rw [if_pos hhash, bind_some, findSlot_putSlot]
    by_cases hk : k = key e
    · rw [if_pos hk, if_pos hk]
    · rw [if_neg hk, if_neg hk, find, hhash]
      cases slots.lookup (hash (key e)) with
      | none => rfl
      | some slot => rfl
  · have hk : k ≠ key e := fun heq => hhash (congrArg hash heq)
    rw [if_neg hhash, if_neg hk, find]

section

variable (h : WellFormed key hash slots)
include h

theorem WellFormed.put (e : ε) : WellFormed key hash (put key hash slots e) where
  own := by
    intro i slot hslot e' he'
    rw [HashSlots.put, lookup_insert_eq] at hslot
    split at hslot
    · rename_i hi
      obtain rfl := some.inj hslot
      rcases mem_putSlot he' with rfl | he'
      · exact hi.symm
      · cases hold : slots.lookup (hash (key e)) with
        | none =>
          rw [hold] at he'
          cases he'
        | some slot =>
          rw [hold] at he'
          exact (h.own _ _ hold e' he').trans hi.symm
    · exact h.own i slot hslot e' he'
  nodup := by
    intro i slot hslot
    rw [HashSlots.put, lookup_insert_eq] at hslot
    split at hslot
    · obtain rfl := some.inj hslot
      refine nodup_putSlot ?_ e
      cases hold : slots.lookup (hash (key e)) with
      | none => exact nodup_nil
      | some slot => exact h.nodup _ _ hold
    · exact h.nodup i slot hslot

/-- Only the erased key is gone. -/
theorem find_erase (k k' : κ) : find key hash (erase key hash slots k) k' =
      if k' = k then none else find key hash slots k' := by
  rw [erase]
  cases hslot : slots.lookup (hash k) with
  | none =>
    by_cases hk : k' = k
    · rw [if_pos hk, hk, find, hslot, bind_none]
    · rw [if_neg hk]
  | some slot =>
    rw [find, lookup_insert_eq]
    by_cases hhash : hash k' = hash k
    · rw [if_pos hhash, bind_some, findSlot_eraseSlot (h.nodup _ _ hslot)]
      by_cases hk : k' = k
      · rw [if_pos hk, if_pos hk]
      · rw [if_neg hk, if_neg hk, find, hhash, hslot, bind_some]
    · have hk : k' ≠ k := fun heq => hhash (congrArg hash heq)
      rw [if_neg hhash, if_neg hk, find]

theorem WellFormed.erase (k : κ) : WellFormed key hash (erase key hash slots k) := by
  rw [HashSlots.erase]
  cases hslot : slots.lookup (hash k) with
  | none => exact h
  | some slot =>
    refine ⟨fun i slot' hslot' e he => ?_, fun i slot' hslot' => ?_⟩
    · rw [lookup_insert_eq] at hslot'
      split at hslot'
      · rename_i hi
        obtain rfl := some.inj hslot'
        exact (h.own _ _ hslot e (mem_of_mem_eraseP he)).trans hi.symm
      · exact h.own i slot' hslot' e he
    · rw [lookup_insert_eq] at hslot'
      split at hslot'
      · obtain rfl := some.inj hslot'
        exact (h.nodup _ _ hslot).sublist (eraseP_sublist.map key)
      · exact h.nodup i slot' hslot'

/-- The entries are those that are found. -/
theorem mem_entries {e : ε} : e ∈ entries slots ↔ find key hash slots (key e) = some e := by
  rw [entries, mem_flatMap]
  constructor
  · rintro ⟨⟨i, slot⟩, hmem, he⟩
    have hslot := mem_inOrder.mp hmem
    rw [find, h.own i slot hslot e he, hslot]
    exact (findSlot_eq_some_iff (h.nodup i slot hslot)).mpr ⟨he, rfl⟩
  · intro hfind
    rw [find, bind_eq_some_iff] at hfind
    obtain ⟨slot, hslot, hfind⟩ := hfind
    exact ⟨(_, slot), mem_inOrder.mpr hslot,
      ((findSlot_eq_some_iff (h.nodup _ _ hslot)).mp hfind).1⟩

theorem find_eq_some_iff {k : κ} {e : ε} :
    find key hash slots k = some e ↔ e ∈ entries slots ∧ key e = k := by
  constructor
  · intro hfind
    have hkey : key e = k := by
      rw [find, bind_eq_some_iff] at hfind
      obtain ⟨slot, hslot, hfind⟩ := hfind
      exact ((findSlot_eq_some_iff (h.nodup _ _ hslot)).mp hfind).2
    subst hkey
    exact ⟨(mem_entries h).mpr hfind, rfl⟩
  · rintro ⟨hmem, rfl⟩
    exact (mem_entries h).mp hmem

end

omit [DecidableEq κ] in
/-- No key is twice in the slots. -/
theorem nodup_entries (h : WellFormed key hash slots) : ((entries slots).map key).Nodup := by
  rw [entries, map_flatMap, nodup_flatMap]
  constructor
  · rintro ⟨i, slot⟩ hmem
    exact h.nodup i slot (mem_inOrder.mp hmem)
  · have hkeys := pairwise_map.mp (pairwise_inOrder slots)
    refine hkeys.imp_of_mem fun {a b} ha hb hlt => ?_
    intro k hka hkb
    obtain ⟨e, he, rfl⟩ := mem_map.mp hka
    obtain ⟨e', he', hkey⟩ := mem_map.mp hkb
    have hi := h.own _ _ (mem_inOrder.mp ha) e he
    have hi' := h.own _ _ (mem_inOrder.mp hb) e' he'
    rw [hkey, hi] at hi'
    exact hlt.ne hi'

end HashSlots

end AdDelivery
