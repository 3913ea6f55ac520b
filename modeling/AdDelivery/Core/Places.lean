import Mathlib.Algebra.GroupWithZero.Nat
import Mathlib.Data.List.Count
import Mathlib.Data.List.Nodup

/-!
# Filling places in order

Every destination has room for some items. They are put to the first destination until it is
full, then to the next one, so the items and the places go together in their orders.
-/

namespace AdDelivery

open List

variable {δ ι μ : Type*} {room room' : δ → ℕ} {dests : List δ}

/-- The places of the destinations, in order. -/
def placesOf (room : δ → ℕ) (dests : List δ) : List δ :=
  dests.flatMap fun d => replicate (room d) d

theorem placesOf_cons (room : δ → ℕ) (d : δ) (dests : List δ) :
    placesOf room (d :: dests) = replicate (room d) d ++ placesOf room dests :=
  flatMap_cons

theorem placesOf_append (room : δ → ℕ) (dests dests' : List δ) :
    placesOf room (dests ++ dests') = placesOf room dests ++ placesOf room dests' :=
  flatMap_append

/-- Only the room of the destinations themselves counts. -/
theorem placesOf_congr (h : ∀ d ∈ dests, room d = room' d) :
    placesOf room dests = placesOf room' dests := by
  induction dests with
  | nil => rfl
  | cons d dests ih =>
    have hd := h d mem_cons_self
    have hdests := ih fun d' hd' => h d' (mem_cons_of_mem _ hd')
    rw [placesOf_cons, placesOf_cons, hd, hdests]

theorem length_placesOf (room : δ → ℕ) (dests : List δ) :
    (placesOf room dests).length = (dests.map room).sum := by
  rw [placesOf, length_flatMap]
  simp only [length_replicate]

theorem length_placesOf_of_const {c : ℕ} (h : ∀ d ∈ dests, room d = c) :
    (placesOf room dests).length = dests.length * c := by
  rw [length_placesOf, map_congr_left h, map_const', sum_replicate_nat]

theorem mem_of_mem_placesOf {d : δ} (h : d ∈ placesOf room dests) : d ∈ dests := by
  obtain ⟨d', hd', hmem⟩ := mem_flatMap.mp h
  rw [eq_of_mem_replicate hmem]
  exact hd'

theorem placesOf_eq_nil_iff (h : ∀ d ∈ dests, 0 < room d) :
    placesOf room dests = [] ↔ dests = [] := by
  constructor
  · intro hnil
    cases dests with
    | nil => rfl
    | cons d dests =>
      have hpos := h d mem_cons_self
      rw [placesOf_cons, append_eq_nil_iff, replicate_eq_nil_iff] at hnil
      omega
  · rintro rfl
    rfl

/-- The last place of a destination is taken. -/
theorem placesOf_cons_of_one {d : δ} (hone : room d = 1)
    (hdests : ∀ d' ∈ dests, room d' = room' d') :
    placesOf room (d :: dests) = d :: placesOf room' dests := by
  rw [placesOf_cons, hone, placesOf_congr hdests]
  rfl

/-- A place is taken, and the destination has more. -/
theorem placesOf_cons_of_succ {d : δ} (hsucc : room d = room' d + 1)
    (hdests : ∀ d' ∈ dests, room d' = room' d') :
    placesOf room (d :: dests) = d :: placesOf room' (d :: dests) := by
  rw [placesOf_cons, placesOf_cons, hsucc, replicate_succ, cons_append, placesOf_congr hdests]

section Count

variable [DecidableEq δ]

theorem count_placesOf (hnodup : dests.Nodup) {d : δ} (hd : d ∈ dests) :
    (placesOf room dests).count d = room d := by
  induction dests with
  | nil => cases hd
  | cons d' dests ih =>
    obtain ⟨hnot, hdests⟩ := nodup_cons.mp hnodup
    rw [placesOf_cons, count_append, count_replicate]
    rcases mem_cons.mp hd with rfl | hd
    · have hzero : (placesOf room dests).count d = 0 :=
        count_eq_zero.mpr fun hmem => hnot (mem_of_mem_placesOf hmem)
      rw [hzero, if_pos BEq.rfl, Nat.add_zero]
    · have hne : ¬ (d' == d) = true := by
        rw [beq_iff_eq]
        rintro rfl
        exact hnot hd
      rw [ih hdests hd, if_neg hne, Nat.zero_add]

/-- No destination gets more than it has room for. -/
theorem count_take_placesOf_le (hnodup : dests.Nodup) {d : δ} (hd : d ∈ dests) (n : ℕ) :
    ((placesOf room dests).take n).count d ≤ room d :=
  Nat.le_trans ((take_sublist n _).count_le d) (Nat.le_of_eq (count_placesOf hnodup hd))

/-- The first destination with room is filled first. -/
theorem count_take_placesOf_first {before after : List δ} {d : δ}
    (hnodup : (before ++ d :: after).Nodup) (hbefore : ∀ d' ∈ before, room d' = 0) (n : ℕ) :
    ((placesOf room (before ++ d :: after)).take n).count d = min (room d) n := by
  obtain ⟨_, hnodup, _⟩ := nodup_append.mp hnodup
  have hnil : placesOf room before = [] := by
    rw [← length_eq_zero_iff, length_placesOf_of_const hbefore, Nat.mul_zero]
  have hzero : ((placesOf room after).take (n - room d)).count d = 0 :=
    count_eq_zero.mpr fun h =>
      (nodup_cons.mp hnodup).1 (mem_of_mem_placesOf (mem_of_mem_take h))
  rw [placesOf_append, hnil, nil_append, placesOf_cons, take_append,
    length_replicate, count_append, hzero, take_replicate,
    count_replicate_self, Nat.add_zero, Nat.min_comm]

/-- Of a destination that gets something, all the earlier ones are full. -/
theorem pairwise_full (room : δ → ℕ) (hnodup : dests.Nodup) (n : ℕ) :
    dests.Pairwise fun d d' => d' ∈ (placesOf room dests).take n →
      ((placesOf room dests).take n).count d = room d := by
  induction dests generalizing n with
  | nil => exact List.Pairwise.nil
  | cons d dests ih =>
    obtain ⟨hnot, hdests⟩ := nodup_cons.mp hnodup
    have hlater : ∀ d' ∈ dests,
        d' ∈ (placesOf room (d :: dests)).take n →
          d' ∈ (placesOf room dests).take (n - room d) ∧ room d < n := by
      intro d' hd' hmem
      rw [placesOf_cons, take_append, length_replicate, mem_append] at hmem
      rcases hmem with hmem | hmem
      · have heq := eq_of_mem_replicate (mem_of_mem_take hmem)
        exact absurd (heq ▸ hd') hnot
      · refine ⟨hmem, ?_⟩
        by_contra hle
        rw [Nat.sub_eq_zero_of_le (Nat.le_of_not_lt hle)] at hmem
        cases hmem
    constructor
    · intro d' hd' hmem
      obtain ⟨_, hlt⟩ := hlater d' hd' hmem
      have hzero : ((placesOf room dests).take (n - room d)).count d = 0 :=
        count_eq_zero.mpr fun h => hnot (mem_of_mem_placesOf (mem_of_mem_take h))
      rw [placesOf_cons, take_append, length_replicate, count_append, hzero,
        take_replicate, Nat.min_eq_right (Nat.le_of_lt hlt), count_replicate_self, Nat.add_zero]
    · apply (ih hdests (n - room d)).imp_of_mem
      intro e d' he hd' hfull hmem
      have hne : ¬ (d == e) = true := by
        rw [beq_iff_eq]
        rintro rfl
        exact hnot he
      rw [placesOf_cons, take_append, length_replicate, count_append,
        take_replicate, count_replicate, if_neg hne, Nat.zero_add]
      exact hfull (hlater d' hd' hmem).1

end Count

variable (put : ι → δ → μ)

/-- Later items take the places that the earlier ones left. -/
theorem zipWith_append_items (items items' : List ι) (places : List δ) :
    zipWith put (items ++ items') places =
      zipWith put items places ++ zipWith put items' (places.drop items.length) := by
  induction items generalizing places with
  | nil => rfl
  | cons item items ih =>
    cases places with
    | nil => simp
    | cons d places =>
      rw [cons_append, zipWith_cons_cons, zipWith_cons_cons, ih, cons_append,
        length_cons, drop_succ_cons]

/-- The places that are left are those after the taken ones. -/
theorem drop_length_zipWith (items : List ι) (places : List δ) :
    places.drop (zipWith put items places).length = places.drop items.length := by
  rw [length_zipWith]
  rcases Nat.le_total items.length places.length with hle | hle
  · rw [Nat.min_eq_left hle]
  · rw [Nat.min_eq_right hle, drop_length, drop_of_length_le hle]

/-- The taken places are the first ones. -/
theorem map_zipWith_place {put : ι → δ → μ} {place : μ → δ} (h : ∀ item d, place (put item d) = d)
    (items : List ι) (places : List δ) :
    (zipWith put items places).map place = places.take items.length := by
  induction items generalizing places with
  | nil => rfl
  | cons item items ih =>
    cases places with
    | nil => rfl
    | cons d places =>
      rw [zipWith_cons_cons, map_cons, h, ih, length_cons, take_succ_cons]

/-- The items that get a place are the first ones. -/
theorem map_zipWith_item {put : ι → δ → μ} {α : Type*} {item : μ → α} {of : ι → α}
    (h : ∀ i d, item (put i d) = of i) (items : List ι) (places : List δ) :
    (zipWith put items places).map item = (items.take places.length).map of := by
  induction items generalizing places with
  | nil => rw [take_nil]; rfl
  | cons i items ih =>
    cases places with
    | nil => rfl
    | cons d places =>
      rw [zipWith_cons_cons, map_cons, h, ih, length_cons, take_succ_cons, map_cons]

end AdDelivery
