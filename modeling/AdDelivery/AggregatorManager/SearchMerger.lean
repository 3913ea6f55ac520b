import AdDelivery.Core.Table
import Mathlib.Data.List.GetD
import Mathlib.Order.Defs.Unbundled

/-!
# What the merger works on

Every worker answers with its best documents, in the order of the ranking. A document of a
distributed search is named by its worker and its number there. The merged lists are vectors that
are sized first and filled place by place.
-/

namespace AdDelivery.SearchMerger

open List

abbrev WorkerId := ℕ

abbrev DocId := ℕ

/-- The worker and the document there, as `Util::GetWDocId` packs them. -/
abbrev WDocId := WorkerId × DocId

/-- Without sort properties the documents are compared by their rank. -/
def sortProperties (list : List (String × Bool)) : List (String × Bool) :=
  if list = [] then [("RANK", false)] else list

/-- `std::vector::resize`. -/
def resize {α : Type} (xs : List α) (n : ℕ) (x : α) : List α :=
  xs.take n ++ List.replicate (n - xs.length) x

/-- Assign to the first places of a vector. `none` stands for a place that is not assigned. -/
def assign {α : Type} (xs : List α) (values : List (Option α)) : List α :=
  xs.mapIdx fun i x => (values.getD i none).getD x

/-- A resized vector has the new length. -/
theorem length_resize {α : Type} (xs : List α) (n : ℕ) (x : α) : (resize xs n x).length = n := by
  rw [resize, length_append, length_take, length_replicate]
  omega

/-- When every place is assigned, nothing is left of the old values. -/
theorem assign_map_some {α β : Type} {xs : List α} {ps : List β} (f : β → α)
    (h : ps.length = xs.length) : assign xs (ps.map fun p => some (f p)) = ps.map f := by
  refine ext_getElem (by simp [assign, h]) fun i hi hi' => ?_
  have hp : i < ps.length := by simpa using hi'
  simp [assign, getD_eq_getElem?_getD, hp]

/-- The newer document is the one with the greater number, on equal numbers that of the greater
worker. -/
def newerByNumber : WDocId → WDocId → Bool := fun (a b : ℕ × ℕ) =>
  decide (b.2 < a.2 ∨ b.2 = a.2 ∧ b.1 < a.1)

/-- Two documents are never equally new. -/
theorem newerByNumber_total : IsStrictTotalOrder WDocId fun a b => newerByNumber a b = true := by
  refine { trichotomous := ?trichotomous, irrefl := ?irrefl, trans := ?trans }
  case irrefl => simp [newerByNumber]
  case trans =>
    rintro ⟨a, a'⟩ ⟨b, b'⟩ ⟨c, c'⟩ hab hbc
    simp only [newerByNumber, decide_eq_true_eq] at hab hbc ⊢
    omega
  case trichotomous =>
    rintro ⟨(a : ℕ), (a' : ℕ)⟩ ⟨(b : ℕ), (b' : ℕ)⟩ hab hba
    simp only [newerByNumber, decide_eq_true_eq] at hab hba
    have hworker : (a : ℕ) = b := by omega
    have hdoc : (a' : ℕ) = b' := by omega
    rw [hworker, hdoc]

end AdDelivery.SearchMerger
