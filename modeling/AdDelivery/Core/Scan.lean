import Mathlib.Data.List.Lex
import Mathlib.Order.Lattice

/-!
# Lists of partial results

When a fold tells the entries of a list apart, its partial results tell the lists apart: they keep
their prefixes, and they keep their order if every step does.
-/

namespace AdDelivery

open List

variable {α β : Type*} {f : β → α → β} {s : β}

/-- The first result is the one before the first step. -/
theorem exists_scanl_eq_cons (f : β → α → β) (s : β) (l : List α) :
    ∃ rest, l.scanl f s = s :: rest := by
  cases l with
  | nil => exact ⟨[], scanl_nil⟩
  | cons a l => exact ⟨l.scanl f (f s a), scanl_cons⟩

/-- The prefixes of the results are the results of the prefixes. -/
theorem prefix_scanl_iff {l : List α} {results : List β} (hne : results ≠ []) :
    results <+: l.scanl f s ↔ ∃ l', l' <+: l ∧ results = l'.scanl f s := by
  induction l generalizing s results with
  | nil =>
    obtain ⟨x, rest, rfl⟩ := exists_cons_of_ne_nil hne
    simp only [prefix_nil, exists_eq_left, scanl_nil, cons_prefix_cons, List.cons.injEq]
  | cons a l ih =>
    obtain ⟨x, rest, rfl⟩ := exists_cons_of_ne_nil hne
    rw [scanl_cons, cons_prefix_cons]
    constructor
    · rintro ⟨rfl, hrest⟩
      by_cases hnil : rest = []
      · exact ⟨[], nil_prefix, by rw [hnil, scanl_nil]⟩
      · obtain ⟨l', hl', heq⟩ := (ih hnil).mp hrest
        exact ⟨a :: l', cons_prefix_cons.mpr ⟨rfl, hl'⟩, by rw [heq, scanl_cons]⟩
    · rintro ⟨l', hl', heq⟩
      cases l' with
      | nil =>
        cases heq
        exact ⟨rfl, nil_prefix⟩
      | cons b l' =>
        obtain ⟨rfl, hrest⟩ := cons_prefix_cons.mp hl'
        rw [scanl_cons] at heq
        cases heq
        exact ⟨rfl, (ih scanl_ne_nil).mpr ⟨l', hrest, rfl⟩⟩

theorem scanl_prefix_scanl_iff (hf : ∀ s, Function.Injective (f s)) {l l' : List α} :
    l'.scanl f s <+: l.scanl f s ↔ l' <+: l := by
  induction l' generalizing s l with
  | nil =>
    obtain ⟨rest, hrest⟩ := exists_scanl_eq_cons f s l
    rw [hrest]
    exact iff_of_true (cons_prefix_cons.mpr ⟨rfl, nil_prefix⟩) nil_prefix
  | cons a l' ih =>
    obtain ⟨rest, hrest⟩ := exists_scanl_eq_cons f (f s a) l'
    cases l with
    | nil =>
      rw [scanl_cons, hrest, scanl_nil, cons_prefix_cons, prefix_nil, prefix_nil]
      exact iff_of_false (fun h => cons_ne_nil _ _ h.2) (cons_ne_nil a l')
    | cons b l =>
      rw [scanl_cons, scanl_cons, cons_prefix_cons, cons_prefix_cons]
      refine ⟨fun ⟨_, h⟩ => ?_, fun ⟨hab, h⟩ => ⟨rfl, ?_⟩⟩
      · obtain ⟨rest', hrest'⟩ := exists_scanl_eq_cons f (f s b) l
        have hhead := h
        rw [hrest, hrest', cons_prefix_cons] at hhead
        obtain rfl : a = b := hf s hhead.1
        exact ⟨rfl, ih.mp h⟩
      · subst hab
        exact ih.mpr h

section Order

variable [LinearOrder α] [LinearOrder β]

/-- Lists whose first entries give the first results are compared by their results. -/
theorem scanl_lt_iff_cons_lt {first : α → β} (hfirst : StrictMono first) {a b : α}
    {l l' : List α} (htail : ∀ s, l.scanl f s < l'.scanl f s ↔ l < l') :
    l.scanl f (first a) < l'.scanl f (first b) ↔ a :: l < b :: l' := by
  obtain ⟨rest, hrest⟩ := exists_scanl_eq_cons f (first a) l
  obtain ⟨rest', hrest'⟩ := exists_scanl_eq_cons f (first b) l'
  rw [cons_lt_cons_iff]
  rcases lt_trichotomy a b with hlt | rfl | hlt
  · rw [hrest, hrest', cons_lt_cons_iff]
    exact iff_of_true (Or.inl (hfirst hlt)) (Or.inl hlt)
  · rw [htail]
    exact (or_iff_right (lt_irrefl a)).trans (and_iff_right rfl) |>.symm
  · rw [hrest, hrest', cons_lt_cons_iff]
    refine iff_of_false ?_ ?_
    · rintro (h | ⟨h, _⟩)
      · exact (hfirst hlt).not_gt h
      · exact (hfirst hlt).ne' h
    · rintro (h | ⟨h, _⟩)
      · exact hlt.not_gt h
      · exact hlt.ne' h

theorem scanl_lt_scanl_iff (hf : ∀ s, StrictMono (f s)) {l l' : List α} :
    l.scanl f s < l'.scanl f s ↔ l < l' := by
  induction l generalizing s l' with
  | nil =>
    cases l' with
    | nil => exact iff_of_false (lt_irrefl _) (lt_irrefl _)
    | cons b l' =>
      obtain ⟨rest, hrest⟩ := exists_scanl_eq_cons f (f s b) l'
      rw [scanl_nil, scanl_cons, hrest, cons_lt_cons_iff]
      exact iff_of_true (Or.inr ⟨rfl, nil_lt_cons _ rest⟩) (nil_lt_cons b l')
  | cons a l ih =>
    cases l' with
    | nil =>
      rw [scanl_nil, scanl_cons, cons_lt_cons_iff]
      refine iff_of_false ?_ (not_lt_nil _)
      rintro (hlt | ⟨_, hlt⟩)
      · exact lt_irrefl s hlt
      · exact not_lt_nil _ hlt
    | cons b l' =>
      rw [scanl_cons, scanl_cons, cons_lt_cons_iff, or_iff_right (lt_irrefl s), and_iff_right rfl]
      exact scanl_lt_iff_cons_lt (hf s) fun _ => ih

end Order

/-- Results that grow with every step differ. -/
theorem nodup_scanl (μ : β → ℕ) (hgrow : ∀ s a, μ s < μ (f s a)) (l : List α) (s : β) :
    (l.scanl f s).Nodup := by
  suffices hpairwise : (l.scanl f s).Pairwise (fun s s' => μ s < μ s') from
    hpairwise.imp fun hlt heq => hlt.ne (congrArg μ heq)
  suffices hall : (l.scanl f s).Pairwise (fun s s' => μ s < μ s') ∧
      ∀ s' ∈ l.scanl f s, μ s ≤ μ s' from hall.1
  induction l generalizing s with
  | nil =>
    exact ⟨pairwise_singleton _ s, fun s' hs' => (mem_singleton.mp hs').symm ▸ le_rfl⟩
  | cons a l ih =>
    obtain ⟨hpairwise, hle⟩ := ih (f s a)
    rw [scanl_cons]
    refine ⟨pairwise_cons.mpr ⟨fun s' hs' => ?_, hpairwise⟩, fun s' hs' => ?_⟩
    · exact (hgrow s a).trans_le (hle s' hs')
    · rcases mem_cons.mp hs' with rfl | hs'
      · exact le_rfl
      · exact ((hgrow s a).trans_le (hle s' hs')).le

end AdDelivery
