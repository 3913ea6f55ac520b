import AdDelivery.GroupManager.StringGroupCounter

/-!
# The values above the values of a document

A document belongs to its values and to all values above them. They are collected into one set:
the way up from a value ends at the root, or at the first value that is in the set already, since
the way up from there has been walked before.
-/

namespace AdDelivery.GroupManager.PropValueTable

open Relation.ReflTransGen

variable {UString : Type} [Inhabited UString]

/-- The inner loop of `parentIdSet`: the way up from `pvId` to the first id that is in the set.
`none` if it takes more than `fuel` steps. -/
def insertParents (parentIdVec : List ℕ) : ℕ → Finset ℕ → ℕ → Option (Finset ℕ)
  | _, parentSet, 0 => some parentSet
  | 0, _, _ + 1 => none
  | fuel + 1, parentSet, pvId + 1 =>
    if pvId + 1 ∈ parentSet then some parentSet
    else insertParents parentIdVec fuel (insert (pvId + 1) parentSet)
      (parentIdVec.getD (pvId + 1) 0)

def parentIdSet (table : PropValueTable UString) (fuel : ℕ) (docId : BitVec 32)
    (parentSet : Finset ℕ) : Option (Finset ℕ) :=
  ((table.getPropIdList docId).toList.map BitVec.toNat).foldlM
    (insertParents table.parentIdVec fuel) parentSet

/-- Whether the document belongs to the label `labelId`. -/
def testDoc (table : PropValueTable UString) (fuel : ℕ) (docId : BitVec 32) (labelId : ℕ) :
    Option Bool :=
  (table.parentIdSet fuel docId ∅).map fun parentSet => decide (labelId ∈ parentSet)

/-- A value and the id above it, which is 0 for a value at the top. -/
def IsParent (parentIdVec : List ℕ) (id parent : ℕ) : Prop :=
  0 < id ∧ parentIdVec[id]? = some parent

/-- `above` is the value `id` itself or lies above it. -/
def IsAncestor (parentIdVec : List ℕ) (above id : ℕ) : Prop :=
  0 < above ∧ Relation.ReflTransGen (IsParent parentIdVec) id above

/-- Every parent comes before its child. -/
def ParentsFirst (parentIdVec : List ℕ) : Prop :=
  ∀ id parent, 0 < id → parentIdVec[id]? = some parent → parent < id

/-- The way up from every id of the set is in the set. -/
def ClosedUp (parentIdVec : List ℕ) (parentSet : Finset ℕ) : Prop :=
  ∀ id ∈ parentSet, ∀ above, IsAncestor parentIdVec above id → above ∈ parentSet

variable {parentIdVec : List ℕ}

theorem isAncestor_self {id : ℕ} (hid : 0 < id) : IsAncestor parentIdVec id id :=
  ⟨hid, .refl⟩

/-- The values above a value are the value itself and those above its parent. -/
theorem isAncestor_iff {id above : ℕ} (hid : 0 < id) : IsAncestor parentIdVec above id ↔
      above = id ∨ IsAncestor parentIdVec above (parentIdVec.getD id 0) := by
  constructor
  · rintro ⟨habove, hup⟩
    rcases cases_head hup with rfl | ⟨parent, hparent, hup⟩
    · exact Or.inl rfl
    · refine Or.inr ⟨habove, ?_⟩
      rwa [List.getD_eq_getElem?_getD, hparent.2]
  · rintro (rfl | ⟨habove, hup⟩)
    · exact isAncestor_self hid
    · refine ⟨habove, ?_⟩
      cases hget : parentIdVec[id]? with
      | some parent =>
        rw [List.getD_eq_getElem?_getD, hget] at hup
        exact .head ⟨hid, hget⟩ hup
      | none =>
        -- an id outside of the vector has nothing above it
        rw [List.getD_eq_getElem?_getD, hget] at hup
        rcases cases_head hup with rfl | ⟨parent, hparent, _⟩
        · exact absurd habove (Nat.lt_irrefl 0)
        · exact absurd hparent.1 (Nat.lt_irrefl 0)

theorem not_isAncestor_zero {above : ℕ} : ¬ IsAncestor parentIdVec above 0 := by
  rintro ⟨habove, hup⟩
  rcases cases_head hup with rfl | ⟨parent, hparent, _⟩
  · exact Nat.lt_irrefl 0 habove
  · exact Nat.lt_irrefl 0 hparent.1

/-- Every step leads to a smaller id. -/
theorem ParentsFirst.getD_lt (h : ParentsFirst parentIdVec) {id : ℕ} (hid : 0 < id) :
    parentIdVec.getD id 0 < id := by
  rw [List.getD_eq_getElem?_getD]
  cases hget : parentIdVec[id]? with
  | none => exact hid
  | some parent => exact h id parent hid hget

/-- The set on the way up from `start`: what is missing lies above the current id, and no smaller
id was added yet. -/
structure Climbing (parentIdVec : List ℕ) (closed : Finset ℕ) (start : ℕ) (parentSet : Finset ℕ)
    (pvId : ℕ) : Prop where
  subset : closed ⊆ parentSet
  mem_iff : ∀ v, (v ∈ parentSet ∨ IsAncestor parentIdVec v pvId) ↔
    (v ∈ closed ∨ IsAncestor parentIdVec v start)
  mem_closed : ∀ v ∈ parentSet, v ≤ pvId → v ∈ closed

theorem climbing_start (parentIdVec : List ℕ) (closed : Finset ℕ) (start : ℕ) :
    Climbing parentIdVec closed start closed start :=
  ⟨Finset.Subset.refl closed, fun _ => Iff.rfl, fun _ hv _ => hv⟩

section Climbing

variable {closed parentSet : Finset ℕ} {start pvId : ℕ}

theorem Climbing.insert (hfirst : ParentsFirst parentIdVec) (hpos : 0 < pvId)
    (h : Climbing parentIdVec closed start parentSet pvId) :
    Climbing parentIdVec closed start (insert pvId parentSet) (parentIdVec.getD pvId 0) := by
  refine ⟨h.subset.trans (Finset.subset_insert pvId parentSet), fun v => ?_, fun v hv hle => ?_⟩
  · rw [← h.mem_iff v, isAncestor_iff hpos, Finset.mem_insert, or_assoc, or_left_comm]
  · have hlt := hfirst.getD_lt hpos
    rcases Finset.mem_insert.mp hv with rfl | hv
    · exact absurd hle (Nat.not_le.mpr hlt)
    · exact h.mem_closed v hv (hle.trans hlt.le)

/-- A climb may stop where everything above is in the set. -/
theorem Climbing.stop (h : Climbing parentIdVec closed start parentSet pvId)
    (hall : ∀ v, IsAncestor parentIdVec v pvId → v ∈ parentSet) (v : ℕ) :
    v ∈ parentSet ↔ v ∈ closed ∨ IsAncestor parentIdVec v start := by
  rw [← h.mem_iff v]
  constructor
  · exact Or.inl
  · rintro (hv | hv)
    · exact hv
    · exact hall v hv

/-- A climb into a closed set adds the whole way up, also where it stops early. -/
theorem insertParents_spec (hfirst : ParentsFirst parentIdVec)
    (hclosed : ClosedUp parentIdVec closed)
    (h : Climbing parentIdVec closed start parentSet pvId) {fuel : ℕ}
    (hfuel : pvId ≤ fuel ∨ (parentIdVec.length ≤ pvId ∧ 1 ≤ fuel)) :
    ∃ parentSet', insertParents parentIdVec fuel parentSet pvId = some parentSet' ∧
      ∀ v, v ∈ parentSet' ↔ v ∈ closed ∨ IsAncestor parentIdVec v start := by
  induction fuel generalizing parentSet pvId with
  | zero =>
    obtain rfl : pvId = 0 := by omega
    refine ⟨parentSet, by rw [insertParents], h.stop fun v hv => ?_⟩
    exact absurd hv not_isAncestor_zero
  | succ fuel ih =>
    cases pvId with
    | zero =>
      refine ⟨parentSet, by rw [insertParents], h.stop fun v hv => ?_⟩
      exact absurd hv not_isAncestor_zero
    | succ pvId =>
      rw [insertParents]
      split
      case isTrue hmem =>
        -- the id is not from this climb, which has only seen greater ones
        have hstop := h.mem_closed _ hmem (Nat.le_refl _)
        exact ⟨parentSet, rfl, h.stop fun v hv => h.subset (hclosed _ hstop v hv)⟩
      case isFalse =>
        have hpos : 0 < pvId + 1 := Nat.succ_pos pvId
        have hlt : parentIdVec.getD (pvId + 1) 0 < pvId + 1 := hfirst.getD_lt hpos
        refine ih (h.insert hfirst hpos) (Or.inl ?_)
        rcases hfuel with hfuel | ⟨hout, _⟩
        · omega
        · rw [List.getD_eq_default _ _ hout]
          exact Nat.zero_le fuel

end Climbing

/-- A set that consists of values with all their ancestors is closed. -/
theorem closedUp_of_mem_iff {parentSet : Finset ℕ} {ids : List ℕ}
    (h : ∀ v, v ∈ parentSet ↔ ∃ id ∈ ids, IsAncestor parentIdVec v id) :
    ClosedUp parentIdVec parentSet := by
  intro v hv above habove
  obtain ⟨id, hid, hup⟩ := (h v).mp hv
  exact (h above).mpr ⟨id, hid, habove.1, hup.2.trans habove.2⟩

/-- Between the values of the list the set is closed. -/
theorem foldlM_insertParents (hfirst : ParentsFirst parentIdVec) {fuel : ℕ}
    (hfuel : parentIdVec.length < fuel) (ids : List ℕ) :
    ∃ parentSet, ids.foldlM (insertParents parentIdVec fuel) ∅ = some parentSet ∧
      ∀ v, v ∈ parentSet ↔ ∃ id ∈ ids, IsAncestor parentIdVec v id := by
  induction ids using List.reverseRecOn with
  | nil => exact ⟨∅, rfl, by simp⟩
  | append_singleton ids id ih =>
    obtain ⟨closed, hclosed, hmem⟩ := ih
    have hstart : id ≤ fuel ∨ (parentIdVec.length ≤ id ∧ 1 ≤ fuel) := by omega
    obtain ⟨parentSet, hset, hmem'⟩ := insertParents_spec hfirst
      (closedUp_of_mem_iff hmem) (climbing_start parentIdVec closed id) hstart
    refine ⟨parentSet, ?_, fun v => ?_⟩
    · rw [List.foldlM_append, hclosed, Option.bind_eq_bind]
      simp [hset]
    · rw [hmem' v, hmem v]
      simp [or_and_right, exists_or]

/-- In a forest of values, the set of a document is collected without a loop that does not end.
It has the values of the document and all values above them, and a label is found in it exactly
if the label is a value of the document or lies above one. -/
theorem parentIdSet_eq_ancestors (table : PropValueTable UString)
    (hfirst : ParentsFirst table.parentIdVec) (docId : BitVec 32) {fuel : ℕ}
    (hfuel : table.parentIdVec.length < fuel) :
    (∃ parentSet, table.parentIdSet fuel docId ∅ = some parentSet ∧ ∀ v, v ∈ parentSet ↔
      ∃ id ∈ (table.getPropIdList docId).toList, IsAncestor table.parentIdVec v id.toNat) ∧
    ∀ labelId, 0 < labelId → (table.testDoc fuel docId labelId = some true ↔
      ∃ id ∈ (table.getPropIdList docId).toList,
        Relation.ReflTransGen (IsParent table.parentIdVec) id.toNat labelId) := by
  obtain ⟨parentSet, hset, hmem⟩ := foldlM_insertParents hfirst hfuel
    ((table.getPropIdList docId).toList.map BitVec.toNat)
  have hset : table.parentIdSet fuel docId ∅ = some parentSet := hset
  simp only [List.mem_map, exists_exists_and_eq_and] at hmem
  refine ⟨⟨parentSet, hset, hmem⟩, fun labelId hlabel => ?_⟩
  rw [testDoc, hset, Option.map_some, Option.some.injEq, decide_eq_true_eq, hmem labelId]
  simp only [IsAncestor, hlabel, true_and]

/-- Below "color" there are "red" and "blue", and document 1 has both of them. -/
def colorTable : PropValueTable String :=
  { insertAll {} [["color", "red"], ["color", "blue"]] with
    valueIdTable := { indexTable := [0, indexMsb], multiValueTable := [2, 2, 3] } }

theorem parentIdSet_eq_ancestors_color :
    (∃ parentSet, colorTable.parentIdSet 5 1 ∅ = some parentSet ∧ ∀ v, v ∈ parentSet ↔
      ∃ id ∈ (colorTable.getPropIdList 1).toList, IsAncestor colorTable.parentIdVec v id.toNat) ∧
    ∀ labelId, 0 < labelId → (colorTable.testDoc 5 1 labelId = some true ↔
      ∃ id ∈ (colorTable.getPropIdList 1).toList,
        Relation.ReflTransGen (IsParent colorTable.parentIdVec) id.toNat labelId) :=
  parentIdSet_eq_ancestors colorTable
    (insertAll_spec [["color", "red"], ["color", "blue"]] wellFormed_empty).1.parent_lt 1
    (by decide)

example : colorTable.parentIdSet 5 1 ∅ = some {1, 2, 3} := by decide

end AdDelivery.GroupManager.PropValueTable
