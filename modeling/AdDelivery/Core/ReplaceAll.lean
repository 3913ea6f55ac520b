import Mathlib.Algebra.BigOperators.Group.List.Basic
import Mathlib.Algebra.GroupWithZero.Nat
import Mathlib.Data.List.Infix

/-!
# Replacing all occurrences of a pattern

The occurrences are taken from left to right and do not overlap. Over a text that is put together
from pieces, either an occurrence begins in a piece that is not the pattern itself, or exactly the
pieces that are the pattern are replaced.
-/

namespace AdDelivery

open List

variable {α β : Type*} [DecidableEq α]

/-- The number counts the characters of an occurrence that are still to be left out. -/
def replaceAllFrom (pat rep : List α) : ℕ → List α → List α
  | _, [] => []
  | skip + 1, _ :: s => replaceAllFrom pat rep skip s
  | 0, a :: s =>
    if pat <+: a :: s then rep ++ replaceAllFrom pat rep (pat.length - 1) s
    else a :: replaceAllFrom pat rep 0 s

/-- The pattern has at least one character. -/
def replaceAll (pat rep s : List α) : List α := replaceAllFrom pat rep 0 s

variable {pat : List α} (rep : List α)

theorem replaceAllFrom_eq_drop (skip : ℕ) (s : List α) :
    replaceAllFrom pat rep skip s = replaceAll pat rep (s.drop skip) := by
  induction s generalizing skip with
  | nil => rw [drop_nil, replaceAll, replaceAllFrom, replaceAllFrom]
  | cons a s ih =>
    cases skip with
    | zero => rfl
    | succ skip => rw [replaceAllFrom, ih, drop_succ_cons]

theorem replaceAll_append_left (hpat : pat ≠ []) (s : List α) :
    replaceAll pat rep (pat ++ s) = rep ++ replaceAll pat rep s := by
  obtain ⟨a, tail, rfl⟩ := exists_cons_of_ne_nil hpat
  have hdrop : (tail ++ s).drop ((a :: tail).length - 1) = s := drop_left
  rw [replaceAll, cons_append, replaceAllFrom, ← cons_append,
    if_pos (prefix_append _ s), replaceAllFrom_eq_drop, hdrop]

theorem replaceAll_cons {a : α} {s : List α} (h : ¬pat <+: a :: s) :
    replaceAll pat rep (a :: s) = a :: replaceAll pat rep s := by
  rw [replaceAll, replaceAllFrom, if_neg h]
  rfl

/-- No occurrence begins in the first part. -/
theorem replaceAll_append {u s : List α} (h : ∀ v, v <:+ u → v ≠ [] → ¬pat <+: v ++ s) :
    replaceAll pat rep (u ++ s) = u ++ replaceAll pat rep s := by
  induction u with
  | nil => rfl
  | cons a u ih =>
    have hhere : ¬pat <+: a :: (u ++ s) := h _ suffix_rfl (cons_ne_nil a u)
    rw [cons_append, replaceAll_cons rep hhere,
      ih fun v hv => h v (hv.trans (suffix_cons a u)), cons_append]

/-- The first occurrence begins in the first part. -/
theorem exists_first_occurrence (hpat : pat ≠ []) {u s v : List α} (hv : v <:+ u) (hne : v ≠ [])
    (hocc : pat <+: v ++ s) : ∃ r t, r <+: u ∧ r ≠ u ∧
      replaceAll pat rep (u ++ s) = r ++ rep ++ replaceAll pat rep t := by
  induction u with
  | nil => exact absurd (suffix_nil.mp hv) hne
  | cons a u ih =>
    by_cases hfirst : pat <+: a :: (u ++ s)
    · obtain ⟨t, ht⟩ := hfirst
      refine ⟨[], t, nil_prefix, (cons_ne_nil a u).symm, ?_⟩
      rw [cons_append, ← ht, replaceAll_append_left rep hpat, nil_append]
    · rcases suffix_cons_iff.mp hv with rfl | hv
      · exact absurd hocc hfirst
      · obtain ⟨r, t, hr, hru, heq⟩ := ih hv
        refine ⟨a :: r, t, cons_prefix_cons.mpr ⟨rfl, hr⟩, fun h => hru (List.cons.inj h).2, ?_⟩
        rw [cons_append, replaceAll_cons rep hfirst, heq]
        rfl

/-- What weighs the same keeps the weight of the text. -/
theorem sum_map_replaceAll (hpat : pat ≠ []) (w : α → ℕ) (h : (pat.map w).sum = (rep.map w).sum)
    (s : List α) : ((replaceAll pat rep s).map w).sum = (s.map w).sum := by
  induction hn : s.length using Nat.strong_induction_on generalizing s with
  | _ n ih =>
    subst hn
    cases s with
    | nil => rfl
    | cons a s =>
      by_cases hocc : pat <+: a :: s
      · obtain ⟨t, ht⟩ := hocc
        have hshort : t.length < (a :: s).length := by
          rw [← ht, length_append]
          exact Nat.lt_add_of_pos_left (length_pos_of_ne_nil hpat)
        rw [← ht, replaceAll_append_left rep hpat, map_append, sum_append,
          ih _ hshort t rfl, ← h, map_append, sum_append]
      · rw [replaceAll_cons rep hocc, map_cons, sum_cons,
          ih _ (Nat.lt_succ_self s.length) s rfl, map_cons, sum_cons]

/-- A character that the pattern does not have separates the text. -/
theorem replaceAll_append_cons (hpat : pat ≠ []) {a : α} (ha : a ∉ pat) (s t : List α) :
    replaceAll pat rep (s ++ a :: t) = replaceAll pat rep s ++ a :: replaceAll pat rep t := by
  have hinside {u : List α} (hocc : pat <+: u ++ a :: t) : pat <+: u := by
    obtain ⟨l, hl⟩ := hocc
    rcases append_eq_append_iff.mp hl with ⟨rest, rfl, -⟩ | ⟨rest, rfl, hrest⟩
    · exact prefix_append pat rest
    · cases rest with
      | nil => rw [append_nil]
      | cons b rest =>
        rw [(List.cons.inj hrest).1] at ha
        exact absurd (mem_append_right u mem_cons_self) ha
  induction hn : s.length using Nat.strong_induction_on generalizing s with
  | _ n ih =>
    subst hn
    cases s with
    | nil => exact replaceAll_cons rep fun hocc => hpat (prefix_nil.mp (hinside hocc))
    | cons b s =>
      by_cases hocc : pat <+: b :: s
      · obtain ⟨u, hu⟩ := hocc
        have hshort : u.length < (b :: s).length := by
          rw [← hu, length_append]
          exact Nat.lt_add_of_pos_left (length_pos_of_ne_nil hpat)
        rw [← hu, append_assoc, replaceAll_append_left rep hpat,
          replaceAll_append_left rep hpat, ih _ hshort u rfl, append_assoc]
      · have hhere : ¬pat <+: b :: (s ++ a :: t) := fun h => hocc (hinside h)
        rw [cons_append, replaceAll_cons rep hhere, replaceAll_cons rep hocc,
          ih _ (Nat.lt_succ_self s.length) s rfl, cons_append]

/-- An occurrence begins in a piece that is not to be replaced. -/
def Crosses (pat : List α) (enc : β → List α) (op : β) (s : List β) : Prop :=
  ∃ s₁ c s₂ v, s = s₁ ++ c :: s₂ ∧ c ≠ op ∧ v <:+ enc c ∧ v ≠ [] ∧ pat <+: v ++ s₂.flatMap enc

variable {enc enc' : β → List α} {op : β} {s : List β}

/-- Otherwise the pieces of one kind are replaced. -/
theorem replaceAll_flatMap (hne : enc op ≠ []) (hrest : ∀ c, c ≠ op → enc' c = enc c)
    (h : ¬Crosses (enc op) enc op s) :
    replaceAll (enc op) (enc' op) (s.flatMap enc) = s.flatMap enc' := by
  induction s with
  | nil => rfl
  | cons c s ih =>
    have htail : ¬Crosses (enc op) enc op s := by
      rintro ⟨s₁, d, s₂, v, rfl, hocc⟩
      exact h ⟨c :: s₁, d, s₂, v, rfl, hocc⟩
    rw [flatMap_cons, flatMap_cons, ← ih htail]
    by_cases hc : c = op
    · rw [hc, replaceAll_append_left _ hne]
    · rw [hrest c hc, replaceAll_append]
      exact fun v hv hv' hocc => h ⟨[], c, s, v, rfl, hc, hv, hv', hocc⟩

/-- The first piece where an occurrence begins is cut off. -/
theorem exists_replaceAll_flatMap (hne : enc op ≠ []) (hrest : ∀ c, c ≠ op → enc' c = enc c)
    (h : Crosses (enc op) enc op s) : ∃ s₁ c s₂ r t, s = s₁ ++ c :: s₂ ∧ c ≠ op ∧
      r <+: enc c ∧ r ≠ enc c ∧
      replaceAll (enc op) (enc' op) (s.flatMap enc) = s₁.flatMap enc' ++ r ++ enc' op ++ t := by
  induction s with
  | nil =>
    obtain ⟨s₁, d, s₂, v, hs, -⟩ := h
    exact absurd hs (by simp)
  | cons c s ih =>
    by_cases htail : ∃ v, c ≠ op ∧ v <:+ enc c ∧ v ≠ [] ∧ enc op <+: v ++ s.flatMap enc
    · obtain ⟨v, hc, hv, hv', hocc⟩ := htail
      obtain ⟨r, t, hr, hr', heq⟩ := exists_first_occurrence (enc' op) hne hv hv' hocc
      exact ⟨[], c, s, r, _, rfl, hc, hr, hr', heq⟩
    · have hcrosses : Crosses (enc op) enc op s := by
        obtain ⟨s₁, d, s₂, v, hs, hocc⟩ := h
        cases s₁ with
        | nil =>
          obtain ⟨rfl, rfl⟩ := List.cons.inj hs
          exact absurd ⟨v, hocc⟩ htail
        | cons b s₁ => exact ⟨s₁, d, s₂, v, (List.cons.inj hs).2, hocc⟩
      obtain ⟨s₁, d, s₂, r, t, rfl, hd, hr, hr', heq⟩ := ih hcrosses
      refine ⟨c :: s₁, d, s₂, r, t, rfl, hd, hr, hr', ?_⟩
      rw [flatMap_cons, flatMap_cons]
      by_cases hc : c = op
      · rw [hc, replaceAll_append_left _ hne, heq]
        simp only [append_assoc]
      · rw [replaceAll_append, heq, hrest c hc]
        · simp only [append_assoc]
        · exact fun v hv hv' hocc => htail ⟨v, hc, hv, hv', hocc⟩

end AdDelivery
