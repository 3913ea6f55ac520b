import AdDelivery.Core.Table

/-!
# Two-way dictionaries

A vector of values in the order of their ids, and a map from each value back to
its id. The two containers are edited one after the other, so nothing but the
discipline of the callers keeps them inverse to each other. Interning keeps them
so and only ever extends the vector at its end.
-/

namespace AdDelivery

/-- The value of every id, and the id of every value. -/
structure Dictionary (α : Type*) where
  idValueList : List α := []
  valueIdList : Table α Nat := ∅
deriving Inhabited

namespace Dictionary

variable {α : Type*} [DecidableEq α]

/-- The map has the entry `a ↦ i` exactly when the vector holds `a` at `i`. -/
def Inverse (d : Dictionary α) : Prop :=
  ∀ a i, d.valueIdList.lookup a = some i ↔ d.idValueList[i]? = some a

/-- The id of `a`, given out as the next free one when `a` is new. -/
def intern (d : Dictionary α) (a : α) : Nat × Dictionary α :=
  match d.valueIdList.lookup a with
  | some i => (i, d)
  | none =>
    let i := d.idValueList.length
    (i, { idValueList := d.idValueList ++ [a], valueIdList := Finmap.insert a i d.valueIdList })

/-- The ids of `d` keep their values in `d'`. -/
def Extends (d d' : Dictionary α) : Prop := d.idValueList <+: d'.idValueList

theorem inverse_empty : ({} : Dictionary α).Inverse := by
  intro a i
  simp

omit [DecidableEq α] in
theorem Extends.refl (d : Dictionary α) : d.Extends d := List.prefix_refl _

omit [DecidableEq α] in
theorem Extends.trans {d₁ d₂ d₃ : Dictionary α} (h : d₁.Extends d₂) (h' : d₂.Extends d₃) :
    d₁.Extends d₃ := List.IsPrefix.trans h h'

omit [DecidableEq α] in
theorem Extends.length_le {d d' : Dictionary α} (h : d.Extends d') :
    d.idValueList.length ≤ d'.idValueList.length := List.IsPrefix.length_le h

omit [DecidableEq α] in
/-- An id that is given out keeps its value. -/
theorem Extends.getElem? {d d' : Dictionary α} (h : d.Extends d') {i : Nat}
    (hi : i < d.idValueList.length) : d'.idValueList[i]? = d.idValueList[i]? := by
  obtain ⟨tail, htail⟩ := h
  rw [← htail, List.getElem?_append_left hi]

variable {d : Dictionary α}

/-- Two ids of one value are the same id. -/
theorem Inverse.id_unique (h : d.Inverse) {a : α} {i j : Nat} (hi : d.idValueList[i]? = some a)
    (hj : d.idValueList[j]? = some a) : i = j :=
  Option.some.inj (((h a i).mpr hi).symm.trans ((h a j).mpr hj))

theorem Inverse.nodup (h : d.Inverse) : d.idValueList.Nodup := by
  rw [List.nodup_iff_injective_get]
  intro i j hij
  have hi : d.idValueList[i.1]? = some (d.idValueList.get i) := by simp
  have hj : d.idValueList[j.1]? = some (d.idValueList.get i) := by rw [hij]; simp
  exact Fin.ext (h.id_unique hi hj)

theorem Inverse.lt_length (h : d.Inverse) {a : α} {i : Nat} (hi : d.valueIdList.lookup a = some i) :
    i < d.idValueList.length :=
  (List.getElem?_eq_some_iff.mp ((h a i).mp hi)).1

/-- A value that has an id keeps it, and no other id, when the dictionary grows. -/
theorem Inverse.getElem?_iff_of_extends {d d' : Dictionary α} (h : d'.Inverse)
    (hext : d.Extends d') {a : α} (ha : a ∈ d.idValueList) (i : Nat) :
    d'.idValueList[i]? = some a ↔ d.idValueList[i]? = some a := by
  obtain ⟨j, hj⟩ := List.mem_iff_getElem?.mp ha
  have hlt := (List.getElem?_eq_some_iff.mp hj).1
  have hj' : d'.idValueList[j]? = some a := (hext.getElem? hlt).trans hj
  constructor
  · intro hi
    rw [h.id_unique hi hj']
    exact hj
  · intro hi
    exact (hext.getElem? (List.getElem?_eq_some_iff.mp hi).1).trans hi

theorem extends_intern (d : Dictionary α) (a : α) : d.Extends (d.intern a).2 := by
  unfold intern
  split
  · exact Extends.refl d
  · exact List.prefix_append _ _

/-- Interning keeps the two containers inverse to each other. -/
theorem Inverse.intern (h : d.Inverse) (a : α) : (d.intern a).2.Inverse := by
  unfold Dictionary.intern
  split
  · exact h
  · rename_i hnone
    intro b i
    rw [Table.lookup_insert_eq, List.getElem?_append]
    by_cases hi : i < d.idValueList.length
    · rw [if_pos hi, ← h b i]
      by_cases hb : b = a
      · subst hb
        rw [if_pos rfl, hnone]
        constructor
        · intro heq
          injection heq with heq
          omega
        · intro heq
          cases heq
      · rw [if_neg hb]
    · rw [if_neg hi, List.getElem?_singleton]
      by_cases hb : b = a
      · subst hb
        simp only [if_true, Option.some.injEq]
        constructor
        · intro heq
          simp [heq]
        · intro heq
          split at heq
          · omega
          · cases heq
      · rw [if_neg hb]
        constructor
        · intro heq
          exact absurd (h.lt_length heq) hi
        · intro heq
          split at heq
          · exact absurd (Option.some.inj heq).symm hb
          · cases heq

/-- The id that interning returns denotes the interned value. -/
theorem Inverse.getElem?_intern (h : d.Inverse) (a : α) :
    (d.intern a).2.idValueList[(d.intern a).1]? = some a := by
  unfold Dictionary.intern
  split
  · rename_i i hi
    exact (h a i).mp hi
  · simp

theorem Inverse.intern_eq_iff (h : d.Inverse) (a : α) (i : Nat) :
    i = (d.intern a).1 ↔ (d.intern a).2.idValueList[i]? = some a := by
  constructor
  · rintro rfl
    exact h.getElem?_intern a
  · intro hi
    exact (h.intern a).id_unique hi (h.getElem?_intern a)

theorem Inverse.intern_lt_length (h : d.Inverse) (a : α) :
    (d.intern a).1 < (d.intern a).2.idValueList.length :=
  (List.getElem?_eq_some_iff.mp (h.getElem?_intern a)).1

end Dictionary

end AdDelivery
