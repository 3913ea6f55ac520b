import Mathlib.Algebra.Group.Nat.Defs
import Mathlib.Data.List.Basic
import Mathlib.Order.Nat

/-!
# Containers in files

A container is written to its file only when it has more elements than were last counted, and
a missing file leaves the container as it is. The counts are kept in 32 bits. A file holds
what was written to it.
-/

namespace AdDelivery

variable {α : Type*}

/-- The file and the count after saving. -/
def saveContainer (file : Option (List α)) (container : List α) (count : ℕ) : Option (List α) × ℕ :=
  let containerSize := container.length % 2 ^ 32
  if containerSize ≤ count then (file, count) else (some container, containerSize)

/-- The container and the count after loading. -/
def loadContainer (file : Option (List α)) (container : List α) : List α × ℕ :=
  let loaded := file.getD container
  (loaded, loaded.length % 2 ^ 32)

/-- The file holds the first `count` elements of the container. A container that was never
saved has its `initial` elements, as a new one has. -/
def Saved (file : Option (List α)) (container : List α) (count : ℕ) (initial : List α) : Prop :=
  count ≤ container.length ∧ file.getD initial = container.take count

variable {file : Option (List α)} {container initial : List α} {count : ℕ}

theorem Saved.push (h : Saved file container count initial) (a : α) :
    Saved file (container ++ [a]) count initial := by
  refine ⟨?_, ?_⟩
  · rw [List.length_append]
    exact Nat.le_add_right_of_le h.1
  · rw [List.take_append_of_le_length h.1]
    exact h.2

/-- After a save the file has everything. -/
theorem Saved.save (h : Saved file container count initial) (hlt : container.length < 2 ^ 32) :
    (saveContainer file container count).1.getD initial = container := by
  rw [saveContainer, Nat.mod_eq_of_lt hlt]
  split
  · rename_i hle
    rw [h.2, List.take_of_length_le hle]
  · rfl

/-- What was saved is loaded, by a new container or by the one that was saved. -/
theorem loadContainer_of_getD (hfile : file.getD initial = container) {old : List α}
    (hold : old = initial ∨ old = container) : (loadContainer file old).1 = container := by
  cases file with
  | none =>
    rcases hold with rfl | rfl
    · exact hfile
    · rfl
  | some _ => exact hfile

theorem saved_loadContainer (hfile : file.getD initial = container)
    (hlt : container.length < 2 ^ 32) {old : List α} (hold : old = initial ∨ old = container) :
    Saved file (loadContainer file old).1 (loadContainer file old).2 initial := by
  have hcount : (loadContainer file old).2 = (loadContainer file old).1.length % 2 ^ 32 := rfl
  rw [hcount, loadContainer_of_getD hfile hold, Nat.mod_eq_of_lt hlt]
  exact ⟨Nat.le_refl _, by rw [hfile, List.take_length]⟩

end AdDelivery
