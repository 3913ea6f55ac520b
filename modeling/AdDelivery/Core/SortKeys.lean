import Mathlib.Data.List.Basic
import Mathlib.Data.List.Nodup
import Mathlib.Tactic.Common

/-!
# Sorting

Every key compares two elements, or leaves them equal. The first key that separates them
decides, and a last order those that no key separates.
-/

namespace AdDelivery.SortKeys

open IsTrans

variable {α : Type*} {r s last : α → α → Prop}

/-- What `r` does not separate is compared by `s`. -/
def thenBy (r s : α → α → Prop) (a b : α) : Prop := r a b ∨ ¬ r b a ∧ s a b

/-- The order of a list of keys, the most important one in front. -/
def lexBy (last : α → α → Prop) (keys : List (α → α → Prop)) : α → α → Prop :=
  keys.foldr thenBy last

/-- Equivalence under an order. -/
theorem tie_trans (r : α → α → Prop) [IsStrictWeakOrder α r] (a b c : α) :
    ¬ r a b ∧ ¬ r b a → ¬ r b c ∧ ¬ r c b → ¬ r a c ∧ ¬ r c a :=
  IsStrictWeakOrder.incomp_trans a b c

instance thenBy_strict [IsStrictWeakOrder α r] [IsStrictOrder α s] :
    IsStrictOrder α (thenBy r s) where
  irrefl a := by
    have hr : ¬ r a a := irrefl a
    have hs : ¬ s a a := irrefl a
    simp [thenBy, hr, hs]
  trans a b c := by
    have hr : r a b → r b c → r a c := trans a b c
    have hs : s a b → s b c → s a c := trans a b c
    have hcab : r c a → r a b → r c b := trans c a b
    have hbca : r b c → r c a → r b a := trans b c a
    have hincomp := tie_trans r a b c
    have hincomp' := tie_trans r b a c
    have hincomp'' := tie_trans r a c b
    have hasymm : r a b → ¬ r b a := Std.Asymm.asymm a b
    have hasymm' : r b c → ¬ r c b := Std.Asymm.asymm b c
    have hasymm'' : r a c → ¬ r c a := Std.Asymm.asymm a c
    rintro (hab | ⟨hba, hab⟩) (hbc | ⟨hcb, hbc⟩)
    all_goals
      unfold thenBy
      grind

instance thenBy_weak [IsStrictWeakOrder α r] [IsStrictWeakOrder α s] :
    IsStrictWeakOrder α (thenBy r s) where
  incomp_trans a b c := by
    have hr := tie_trans r a b c
    have hs := tie_trans s a b c
    unfold thenBy
    grind

theorem lexBy_weak [IsStrictWeakOrder α last] {keys : List (α → α → Prop)}
    (h : ∀ r ∈ keys, IsStrictWeakOrder α r) : IsStrictWeakOrder α (lexBy last keys) := by
  induction keys with
  | nil => exact inferInstanceAs (IsStrictWeakOrder α last)
  | cons r keys ih =>
    have hr : IsStrictWeakOrder α r := h r List.mem_cons_self
    have hkeys := ih fun s hs => h s (List.mem_cons_of_mem r hs)
    exact inferInstanceAs (IsStrictWeakOrder α (thenBy r (lexBy last keys)))

/-- What is neither below nor above is carried along. -/
theorem not_trans [IsStrictWeakOrder α r] {a b c : α} (hab : ¬ r a b) (hbc : ¬ r b c) :
    ¬ r a c := by
  intro hac
  have hba : ¬ r b a := fun hba => hbc (trans b a c hba hac)
  have hcb : ¬ r c b := fun hcb => hab (trans a c b hac hcb)
  exact (tie_trans r a b c ⟨hab, hba⟩ ⟨hbc, hcb⟩).1 hac

end AdDelivery.SortKeys
