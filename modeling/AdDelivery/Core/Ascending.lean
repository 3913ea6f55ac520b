import Mathlib.Data.List.Basic
import Mathlib.Data.List.Induction
import Mathlib.Order.Nat

/-!
# Lists in ascending key order

A log is a list whose entries have ascending keys. Cutting it below a key leaves a prefix, the
rest begins at the first entry that is not below, and two logs have a longest common prefix.
-/

namespace AdDelivery

open List

variable {α : Type*}

section Key

variable {key : α → ℕ}

/-- The keys strictly increase. -/
def Ascending (key : α → ℕ) (l : List α) : Prop := l.Pairwise fun a b => key a < key b

/-- The entries below a key. -/
def below (key : α → ℕ) (bound : ℕ) (l : List α) : List α := l.filter fun a => key a < bound

/-- The key of the last entry, or 0. -/
def lastKey (key : α → ℕ) (l : List α) : ℕ := (l.getLast?.map key).getD 0

variable {bound : ℕ} {l : List α}

@[simp] theorem mem_below {a : α} : a ∈ below key bound l ↔ a ∈ l ∧ key a < bound := by
  simp [below]

theorem below_append (bound : ℕ) (l m : List α) :
    below key bound (l ++ m) = below key bound l ++ below key bound m :=
  filter_append ..

theorem below_eq_self (h : ∀ a ∈ l, key a < bound) : below key bound l = l :=
  filter_eq_self.mpr fun a ha => decide_eq_true (h a ha)

theorem below_eq_nil (h : ∀ a ∈ l, bound ≤ key a) : below key bound l = [] :=
  filter_eq_nil_iff.mpr fun a ha => by simpa using h a ha

theorem below_below {bound bound' : ℕ} (h : bound ≤ bound') (l : List α) :
    below key bound (below key bound' l) = below key bound l := by
  rw [below, below, filter_filter]
  refine filter_congr fun a _ => ?_
  by_cases hlt : key a < bound
  · simp [hlt, hlt.trans_le h]
  · simp [hlt]

@[simp] theorem lastKey_concat (l : List α) (a : α) : lastKey key (l ++ [a]) = key a := by
  simp [lastKey]

theorem lastKey_lt (hbound : 0 < bound) (h : ∀ a ∈ l, key a < bound) : lastKey key l < bound := by
  rcases eq_nil_or_concat' l with rfl | ⟨l, a, rfl⟩
  · exact hbound
  · rw [lastKey_concat]
    exact h a (mem_append_right l mem_cons_self)

namespace Ascending

theorem sublist {l m : List α} (h : Ascending key l) (hsub : m.Sublist l) : Ascending key m :=
  List.Pairwise.sublist hsub h

theorem below {l : List α} (h : Ascending key l) (bound : ℕ) : Ascending key (below key bound l) :=
  List.Pairwise.filter _ h

variable {l : List α} {a : α}

/-- No key is above the last. -/
theorem le_lastKey (h : Ascending key l) (ha : a ∈ l) : key a ≤ lastKey key l := by
  rcases eq_nil_or_concat' l with rfl | ⟨l, b, rfl⟩
  · cases ha
  · rw [lastKey_concat]
    rcases mem_append.mp ha with ha | ha
    · exact ((pairwise_append.mp h).2.2 a ha b mem_cons_self).le
    · exact (congrArg key (mem_singleton.mp ha)).le

/-- Keys from 1 on are at least as great as the number of entries. -/
theorem length_le_lastKey (h : Ascending key l) (hpos : ∀ a ∈ l, 0 < key a) :
    l.length ≤ lastKey key l := by
  induction l using List.reverseRecOn with
  | nil => exact le_rfl
  | append_singleton l a ih =>
    obtain ⟨hl, -, hlast⟩ := pairwise_append.mp h
    have hposl : ∀ b ∈ l, 0 < key b := fun b hb => hpos b (mem_append_left _ hb)
    have hlt : lastKey key l < key a :=
      lastKey_lt (hpos a (mem_append_right _ mem_cons_self))
        fun b hb => hlast b hb a mem_cons_self
    rw [lastKey_concat, length_append]
    exact (Nat.succ_le_succ (ih hl hposl)).trans hlt

theorem concat (h : Ascending key l) (ha : ∀ b ∈ l, key b < key a) : Ascending key (l ++ [a]) := by
  rw [Ascending, pairwise_append]
  refine ⟨h, pairwise_singleton _ _, fun b hb c hc => ?_⟩
  rw [mem_singleton.mp hc]
  exact ha b hb

/-- Below what follows a key is everything up to it. -/
theorem below_succ_append_cons {l m : List α} (h : Ascending key (l ++ a :: m)) :
    AdDelivery.below key (key a + 1) (l ++ a :: m) = l ++ [a] := by
  obtain ⟨-, hm, hlm⟩ := pairwise_append.mp h
  rw [show l ++ a :: m = (l ++ [a]) ++ m by simp, below_append, below_eq_self fun b hb => ?_,
    below_eq_nil fun b hb => (pairwise_cons.mp hm).1 b hb, append_nil]
  rcases mem_append.mp hb with hb | hb
  · exact (hlm b hb a mem_cons_self).trans (Nat.lt_succ_self _)
  · rw [mem_singleton.mp hb]
    exact Nat.lt_succ_self _

/-- A log is what is below a key, followed by what is not. -/
theorem below_append_dropWhile (h : Ascending key l) (bound : ℕ) :
    AdDelivery.below key bound l ++ l.dropWhile (key · < bound) = l := by
  induction l with
  | nil => rfl
  | cons a l ih =>
    obtain ⟨ha, hl⟩ := pairwise_cons.mp h
    by_cases hlt : key a < bound
    · rw [dropWhile_cons_of_pos (by simpa using hlt), AdDelivery.below,
        filter_cons_of_pos (by simpa using hlt)]
      exact congrArg (a :: ·) (ih hl)
    · rw [dropWhile_cons_of_neg (by simpa using hlt), below_eq_nil, nil_append]
      intro b hb
      rcases mem_cons.mp hb with rfl | hb
      · exact not_lt.mp hlt
      · exact (not_lt.mp hlt).trans (ha b hb).le

theorem le_of_mem_dropWhile (h : Ascending key l) {bound : ℕ}
    (ha : a ∈ l.dropWhile (key · < bound)) : bound ≤ key a := by
  induction l with
  | nil => cases ha
  | cons b l ih =>
    obtain ⟨hb, hl⟩ := pairwise_cons.mp h
    by_cases hlt : key b < bound
    · rw [dropWhile_cons_of_pos (by simpa using hlt)] at ha
      exact ih hl ha
    · rw [dropWhile_cons_of_neg (by simpa using hlt)] at ha
      rcases mem_cons.mp ha with rfl | ha
      · exact not_lt.mp hlt
      · exact (not_lt.mp hlt).trans (hb a ha).le

/-- The rest of a log begins where the entries are no longer below. -/
theorem drop_eq_dropWhile {bound offset : ℕ} (hbelow : ∀ a ∈ l.take offset, key a < bound)
    (habove : ∀ a ∈ l.drop offset, bound ≤ key a) :
    l.drop offset = l.dropWhile (key · < bound) := by
  conv_rhs => rw [← take_append_drop offset l]
  rw [dropWhile_append_of_pos fun a ha => by simpa using hbelow a ha]
  cases hdrop : l.drop offset with
  | nil => rfl
  | cons a m =>
    have ha := habove a (hdrop ▸ mem_cons_self)
    rw [dropWhile_cons_of_neg (by simpa using ha)]

end Ascending

end Key

section Prefix

variable [DecidableEq α]

/-- How far two lists agree. -/
def commonPrefix : List α → List α → List α
  | a :: l, b :: m => if a = b then a :: commonPrefix l m else []
  | _, _ => []

theorem commonPrefix_append_left (k l m : List α) :
    commonPrefix (k ++ l) (k ++ m) = k ++ commonPrefix l m := by
  induction k with
  | nil => rfl
  | cons a k ih =>
    rw [cons_append, cons_append, commonPrefix, if_pos rfl, ih, cons_append]

@[simp] theorem commonPrefix_nil_right (l : List α) : commonPrefix l [] = [] := by
  cases l <;> rfl

theorem commonPrefix_of_ne {a b : α} (h : a ≠ b) (l m : List α) :
    commonPrefix (a :: l) (b :: m) = [] :=
  if_neg h

end Prefix

end AdDelivery
