import AdDelivery.Core.SortKeys
import Mathlib.Data.List.Nodup
import Mathlib.Data.Prod.Basic
import Mathlib.Order.Basic

/-!
# Merging sorted lists by their heads

Several sorted lists are read side by side, each through a cursor. One step looks at the heads of
all lists in turn, keeps the best one and moves its cursor. An element is named by its position,
the number of its list and its place there, so that parallel lists can be merged alike.
-/

namespace AdDelivery.KWayMerge

open List Function

/-- Scan the lists `0, …, n - 1` and keep the one whose head is best. -/
def best (ready : ℕ → Bool) (better : ℕ → ℕ → Bool) : ℕ → Option ℕ
  | 0 => none
  | n + 1 =>
    match best ready better n with
    | none => if ready n then some n else none
    | some m => if ready n && better n m then some n else some m

/-- The list whose head is kept when the lists stand at these cursors. -/
def bestAt (size : ℕ → ℕ) (better : ℕ × ℕ → ℕ × ℕ → Bool) (n : ℕ) (iter : ℕ → ℕ) : Option ℕ :=
  best (fun i => decide (iter i < size i)) (fun i m => better (i, iter i) (m, iter m)) n

/-- Take the best head `count` times, or until all lists are used up. -/
def merge (size : ℕ → ℕ) (better : ℕ × ℕ → ℕ × ℕ → Bool) (n : ℕ) : ℕ → (ℕ → ℕ) → List (ℕ × ℕ)
  | 0, _ => []
  | count + 1, iter =>
    match bestAt size better n iter with
    | none => []
    | some m => (m, iter m) ::
        merge size better n count (update iter m (iter m + 1))

variable {n : ℕ} {ready : ℕ → Bool}

theorem best_eq_none {better : ℕ → ℕ → Bool} (h : best ready better n = none) {i : ℕ} (hi : i < n) :
    ready i = false := by
  induction n with
  | zero => exact absurd hi (Nat.not_lt_zero i)
  | succ n ih =>
    rw [best] at h
    cases hn : best ready better n with
    | some m =>
      simp only [hn] at h
      split at h <;> cases h
    | none =>
      simp only [hn] at h
      rcases Nat.lt_succ_iff_lt_or_eq.mp hi with hlt | rfl
      · exact ih hn hlt
      · by_contra hr
        rw [if_pos (by simpa using hr)] at h
        cases h

theorem best_mem {better : ℕ → ℕ → Bool} {n m : ℕ} (h : best ready better n = some m) :
    m < n ∧ ready m = true := by
  induction n generalizing m with
  | zero => cases h
  | succ n ih =>
    rw [best] at h
    cases hn : best ready better n with
    | none =>
      simp only [hn] at h
      split at h
      case isTrue hr => exact Option.some.inj h ▸ ⟨Nat.lt_succ_self n, hr⟩
      case isFalse => cases h
    | some k =>
      obtain ⟨hk, hrk⟩ := ih hn
      simp only [hn] at h
      split at h
      case isTrue hr =>
        exact Option.some.inj h ▸ ⟨Nat.lt_succ_self n, (Bool.and_eq_true_iff.mp hr).1⟩
      case isFalse => exact Option.some.inj h ▸ ⟨by omega, hrk⟩

/-- A head that is better than every one before it, and that none behind it beats, is kept. -/
theorem best_eq_some {better : ℕ → ℕ → Bool} {n m : ℕ} (hm : m < n) (hready : ready m = true)
    (hbefore : ∀ i, i < m → ready i = true → better m i = true)
    (hbehind : ∀ i, m < i → i < n → ready i = true → better i m = false) :
    best ready better n = some m := by
  induction n with
  | zero => exact absurd hm (Nat.not_lt_zero m)
  | succ n ih =>
    rw [best]
    rcases Nat.lt_succ_iff_lt_or_eq.mp hm with hlt | rfl
    · -- the head is kept by then
      rw [ih hlt fun i hmi hin hri => hbehind i hmi (by omega) hri]
      cases hrn : ready n with
      | false => rfl
      | true => simp [hbehind n hlt (Nat.lt_succ_self n) hrn]
    · cases hbest : best ready better m with
      | none => simp [hready]
      | some k =>
        obtain ⟨hk, hrk⟩ := best_mem hbest
        simp [hready, hbefore k hk hrk]

variable {better : ℕ × ℕ → ℕ × ℕ → Bool} {p : ℕ × ℕ}

section

variable {size : ℕ → ℕ} {n count : ℕ} {iter : ℕ → ℕ} (hp : p ∈ merge size better n count iter)
include hp

/-- Only places from the cursors on are taken. -/
theorem merge_ge : p.1 < n ∧ iter p.1 ≤ p.2 ∧ p.2 < size p.1 := by
  induction count generalizing iter with
  | zero => cases hp
  | succ count ih =>
    rw [merge] at hp
    split at hp
    · cases hp
    · rename_i m hbest
      obtain ⟨hm, hready⟩ := best_mem hbest
      rcases mem_cons.mp hp with rfl | hin
      · exact ⟨hm, Nat.le_refl _, of_decide_eq_true hready⟩
      · obtain ⟨hi, hij, hj⟩ := ih hin
        refine ⟨hi, Nat.le_trans ?_ hij, hj⟩
        by_cases him : p.1 = m
        · rw [him, Function.update_self]
          exact Nat.le_succ _
        · apply Nat.le_of_eq
          rw [Function.update_of_ne him]

/-- Only places that the lists have are read. -/
theorem mem_merge : p.1 < n ∧ p.2 < size p.1 :=
  ⟨(merge_ge hp).1, (merge_ge hp).2.2⟩

end

section Order

variable {α : Type*} {r : α → α → Prop} {n m : ℕ}

/-- No list has a better head than the one kept. -/
theorem best_max [IsStrictOrder α r] {ready : ℕ → Bool} {better : ℕ → ℕ → Bool} (head : ℕ → α)
    (hb : ∀ i j, i < n → j < n → ready i = true → ready j = true →
      (better i j = true ↔ r (head i) (head j))) (h : best ready better n = some m) {i : ℕ}
    (hi : i < n) (hri : ready i = true) : ¬ r (head i) (head m) := by
  induction n generalizing m with
  | zero => cases h
  | succ n ih =>
    have hb' : ∀ i j, i < n → j < n → ready i = true → ready j = true →
        (better i j = true ↔ r (head i) (head j)) :=
      fun i j hi hj => hb i j (by omega) (by omega)
    rw [best] at h
    cases hn : best ready better n with
    | none =>
      -- the first list that has a head
      simp only [hn] at h
      split at h
      case isFalse => cases h
      case isTrue hr =>
        obtain rfl := Option.some.inj h
        rcases Nat.lt_succ_iff_lt_or_eq.mp hi with hlt | rfl
        · rw [best_eq_none hn hlt] at hri
          cases hri
        · exact irrefl _
    | some k =>
      obtain ⟨hk, hrk⟩ := best_mem hn
      simp only [hn] at h
      split at h
      case isTrue hnew =>
        obtain ⟨hr, hbn⟩ := Bool.and_eq_true_iff.mp hnew
        have hnk : r (head n) (head k) := (hb n k (by omega) (by omega) hr hrk).mp hbn
        obtain rfl := Option.some.inj h
        rcases Nat.lt_succ_iff_lt_or_eq.mp hi with hlt | rfl
        · exact fun hin => ih hb' hn hlt (IsTrans.trans _ _ _ hin hnk)
        · exact irrefl _
      case isFalse hold =>
        obtain rfl := Option.some.inj h
        rcases Nat.lt_succ_iff_lt_or_eq.mp hi with hlt | rfl
        · exact ih hb' hn hlt
        · intro hik
          have hbi : better i k = true := (hb i k (by omega) (by omega) hri hrk).mpr hik
          exact hold (Bool.and_eq_true_iff.mpr ⟨hri, hbi⟩)

end Order

/-- The places of all lists, from their cursors on. -/
def places (size iter : ℕ → ℕ) (n : ℕ) : List (ℕ × ℕ) :=
  (List.range n).flatMap fun i => (List.range' (iter i) (size i - iter i)).map (Prod.mk i)

variable {size iter : ℕ → ℕ}

theorem mem_places : p ∈ places size iter n ↔ p.1 < n ∧ iter p.1 ≤ p.2 ∧ p.2 < size p.1 := by
  obtain ⟨i, j⟩ := p
  simp only [places, mem_flatMap, mem_range, mem_map, mem_range'_1, Prod.mk.injEq]
  constructor
  · rintro ⟨i', hi, j', hj, rfl, rfl⟩
    omega
  · rintro ⟨hi, hij, hj⟩
    exact ⟨i, hi, j, by omega, rfl, rfl⟩

theorem nodup_places (size iter : ℕ → ℕ) (n : ℕ) : (places size iter n).Nodup := by
  refine nodup_flatMap.mpr ⟨?_, ?_⟩
  · intro i _
    have h : (List.range' (iter i) (size i - iter i)).Nodup := nodup_range'
    exact h.map (Prod.mk_right_injective i)
  · refine nodup_range.imp fun {i k} hik => ?_
    intro p hp hp'
    obtain ⟨j, -, rfl⟩ := mem_map.mp hp
    obtain ⟨j', -, h⟩ := mem_map.mp hp'
    exact hik (congrArg Prod.fst h).symm

theorem mem_places_update {n m : ℕ} : p ∈ places size (update iter m (iter m + 1)) n ↔
      p ∈ places size iter n ∧ p ≠ (m, iter m) := by
  obtain ⟨i, j⟩ := p
  simp only [mem_places, ne_eq, Prod.mk.injEq]
  by_cases him : i = m
  · subst him
    rw [update_self]
    omega
  · simp [him]

/-- Moving one cursor takes one place away. -/
theorem places_perm {n m : ℕ} (hm : m < n) (hsize : iter m < size m) : (places size iter n).Perm
      ((m, iter m) :: places size (update iter m (iter m + 1)) n) := by
  refine (perm_ext_iff_of_nodup (nodup_places ..) (nodup_cons.mpr ⟨?_, ?_⟩)).mpr ?_
  · simp [mem_places_update]
  · exact nodup_places ..
  · intro p
    rw [mem_cons, mem_places_update]
    by_cases hp : p = (m, iter m)
    · subst hp
      simp [mem_places, hm, hsize]
    · simp [hp]

theorem places_eq_nil {better : ℕ → ℕ → Bool}
    (h : best (fun i => decide (iter i < size i)) better n = none) : places size iter n = [] := by
  refine eq_nil_iff_forall_not_mem.mpr fun p hp => ?_
  obtain ⟨hi, hij, hj⟩ := mem_places.mp hp
  have hready := best_eq_none h hi
  simp only [decide_eq_false_iff_not] at hready
  omega

/-- Merging until everything is taken takes every place once. -/
theorem merge_perm_places (size : ℕ → ℕ) (better : ℕ × ℕ → ℕ × ℕ → Bool) (n : ℕ) (iter : ℕ → ℕ)
    {count : ℕ} (hcount : (places size iter n).length ≤ count) :
    (merge size better n count iter).Perm (places size iter n) := by
  induction count generalizing iter with
  | zero =>
    rw [eq_nil_of_length_eq_zero (Nat.le_zero.mp hcount)]
    exact List.Perm.nil
  | succ count ih =>
    rw [merge]
    cases hbest : bestAt size better n iter with
    | none => rw [places_eq_nil hbest]
    | some m =>
      obtain ⟨hm, hready⟩ := best_mem hbest
      have hperm := places_perm hm (of_decide_eq_true hready)
      have hlength := hperm.length_eq
      rw [length_cons] at hlength
      exact ((ih _ (by omega)).cons _).trans hperm.symm

/-- A shorter merge is the front of a longer one. -/
theorem merge_take (size : ℕ → ℕ) (better : ℕ × ℕ → ℕ × ℕ → Bool) (n : ℕ) (iter : ℕ → ℕ)
    {count total : ℕ} (h : count ≤ total) :
    (merge size better n total iter).take count = merge size better n count iter := by
  induction count generalizing total iter with
  | zero => rfl
  | succ count ih =>
    obtain ⟨total, rfl⟩ := Nat.exists_eq_add_of_le' (Nat.lt_of_lt_of_le (Nat.succ_pos count) h)
    rw [merge, merge]
    cases bestAt size better n iter with
    | none => rfl
    | some m =>
      simp only [take_succ_cons]
      rw [ih _ (by omega)]

/-- A merge of sorted lists is sorted. -/
theorem merge_sorted {r : ℕ × ℕ → ℕ × ℕ → Prop} [IsStrictWeakOrder (ℕ × ℕ) r] {size : ℕ → ℕ}
    (hb : ∀ p q : ℕ × ℕ, p.1 < n → p.2 < size p.1 → q.1 < n → q.2 < size q.1 →
      (better p q = true ↔ r p q))
    (hsorted : ∀ i j k, i < n → j < k → k < size i → ¬ r (i, k) (i, j)) (count : ℕ) (iter : ℕ → ℕ) :
    (merge size better n count iter).Pairwise fun p q => ¬ r q p := by
  induction count generalizing iter with
  | zero => exact List.Pairwise.nil
  | succ count ih =>
    rw [merge]
    cases hbest : bestAt size better n iter with
    | none => exact List.Pairwise.nil
    | some m =>
      obtain ⟨hm, hready⟩ := best_mem hbest
      have hmax : ∀ i, i < n → iter i < size i → ¬ r (i, iter i) (m, iter m) := fun i hi hri =>
        best_max (fun i => (i, iter i))
          (fun i j hi hj hri hrj => hb (i, iter i) (j, iter j) hi (of_decide_eq_true hri) hj
            (of_decide_eq_true hrj)) hbest hi (decide_eq_true hri)
      refine pairwise_cons.mpr ⟨?_, ih _⟩
      rintro ⟨i, j⟩ hq
      obtain ⟨hi, hij, hj⟩ := merge_ge hq
      simp only at hi hij hj
      -- what is left of a list does not come before its head
      have hcursor : iter i ≤ j := by
        by_cases him : i = m
        · subst him
          rw [update_self] at hij
          omega
        · rwa [update_of_ne him] at hij
      have hhead := hmax i hi (by omega)
      rcases Nat.eq_or_lt_of_le hcursor with rfl | hlt
      · exact hhead
      · exact SortKeys.not_trans (hsorted i (iter i) j hi hlt hj) hhead

/-- The cursors behind some places that are taken. -/
def cursors (iter : ℕ → ℕ) (taken : List (ℕ × ℕ)) (i : ℕ) : ℕ :=
  iter i + taken.countP fun p => p.1 = i

/-- Every list comes in its own order, from its cursor on. -/
def Interleaved (iter : ℕ → ℕ) (order : List (ℕ × ℕ)) : Prop :=
  ∀ k p, order[k]? = some p → p.2 = cursors iter (order.take k) p.1

theorem cursors_cons (iter : ℕ → ℕ) (p : ℕ × ℕ) (taken : List (ℕ × ℕ)) :
    cursors iter (p :: taken) = cursors (update iter p.1 (iter p.1 + 1)) taken := by
  funext i
  rw [cursors, cursors, countP_cons]
  by_cases hi : p.1 = i
  · subst hi
    rw [update_self, if_pos (decide_eq_true rfl)]
    omega
  · rw [update_of_ne (Ne.symm hi), if_neg (by simpa using hi), Nat.add_zero]

theorem Interleaved.head {iter : ℕ → ℕ} {rest : List (ℕ × ℕ)} (h : Interleaved iter (p :: rest)) :
    p.2 = iter p.1 := h 0 p rfl

theorem Interleaved.tail {iter : ℕ → ℕ} {rest : List (ℕ × ℕ)} (h : Interleaved iter (p :: rest)) :
    Interleaved (update iter p.1 (iter p.1 + 1)) rest := by
  intro k q hq
  have hnext := h (k + 1) q (by rwa [getElem?_cons_succ])
  rwa [take_succ_cons, cursors_cons] at hnext

/-- A merge follows an order exactly when every scan keeps the head that is next in it. -/
theorem merge_eq_take_iff {n count : ℕ} {order : List (ℕ × ℕ)} {iter : ℕ → ℕ}
    (h : Interleaved iter order) (hcount : count ≤ order.length) :
    merge size better n count iter = order.take count ↔ ∀ k p, k < count → order[k]? = some p →
      bestAt size better n (cursors iter (order.take k)) = some p.1 := by
  induction count generalizing iter order with
  | zero => simp [merge]
  | succ count ih =>
    obtain ⟨p, rest, rfl⟩ := exists_cons_of_length_pos (Nat.lt_of_lt_of_le (Nat.succ_pos count) hcount)
    have hrest := ih h.tail (Nat.le_of_succ_le_succ hcount)
    have hstep : (∀ k q, k < count + 1 → (p :: rest)[k]? = some q →
        bestAt size better n (cursors iter ((p :: rest).take k)) = some q.1) ↔
        bestAt size better n iter = some p.1 ∧
          merge size better n count (update iter p.1 (iter p.1 + 1)) = rest.take count := by
      rw [hrest]
      constructor
      · intro hall
        refine ⟨hall 0 p (Nat.succ_pos count) rfl, fun k q hk hq => ?_⟩
        have hnext := hall (k + 1) q (by omega) (by rwa [getElem?_cons_succ])
        rwa [take_succ_cons, cursors_cons] at hnext
      · rintro ⟨hfirst, hall⟩ k q hk hq
        cases k with
        | zero => exact Option.some.inj hq ▸ hfirst
        | succ k =>
          rw [take_succ_cons, cursors_cons]
          exact hall k q (by omega) (by rwa [getElem?_cons_succ] at hq)
    rw [hstep, merge, take_succ_cons]
    cases hbest : bestAt size better n iter with
    | none => simp
    | some m =>
      have hp : (p.1, iter p.1) = p := Prod.ext rfl h.head.symm
      simp only [cons.injEq, Option.some.injEq]
      constructor
      · rintro ⟨rfl, hmerge⟩
        exact ⟨rfl, hmerge⟩
      · rintro ⟨rfl, hmerge⟩
        exact ⟨hp, hmerge⟩

section

variable {r : ℕ × ℕ → ℕ × ℕ → Prop} {n : ℕ} {order front behind : List (ℕ × ℕ)}

/-- In front of a place are the places of its list with smaller numbers. -/
theorem mem_front_iff (hasymm : ∀ p q, r p q → ¬ r q p)
    (hsorted : ∀ i j k, i < n → j < k → k < size i → r (i, j) (i, k))
    (hperm : (front ++ p :: behind).Perm (places size iter n))
    (horder : (front ++ p :: behind).Pairwise r) (j : ℕ) :
    (p.1, j) ∈ front ↔ iter p.1 ≤ j ∧ j < p.2 := by
  obtain ⟨-, hbehind, hfront⟩ := pairwise_append.mp horder
  have hplace : ∀ {q}, q ∈ front ++ p :: behind → q.1 < n ∧ iter q.1 ≤ q.2 ∧ q.2 < size q.1 :=
    fun hq => mem_places.mp (hperm.mem_iff.mp hq)
  obtain ⟨hi, -, hsize⟩ := hplace (mem_append_right front mem_cons_self)
  constructor
  · intro hq
    obtain ⟨-, hle, hj⟩ := hplace (mem_append_left _ hq)
    have hqp : r (p.1, j) p := hfront _ hq p mem_cons_self
    refine ⟨hle, ?_⟩
    rcases Nat.lt_trichotomy j p.2 with hlt | rfl | hlt
    · exact hlt
    · exact absurd hqp (hasymm _ _ hqp)
    · exact absurd hqp (hasymm _ _ (hsorted p.1 p.2 j hi hlt hj))
  · rintro ⟨hle, hlt⟩
    have hqp : r (p.1, j) p := hsorted p.1 j p.2 hi hlt hsize
    have hmem : (p.1, j) ∈ front ++ p :: behind :=
      hperm.mem_iff.mpr (mem_places.mpr ⟨hi, hle, Nat.lt_trans hlt hsize⟩)
    rcases mem_append.mp hmem with hin | hin
    · exact hin
    · rcases mem_cons.mp hin with heq | hin
      · exact absurd (congrArg Prod.snd heq) (Nat.ne_of_lt hlt)
      · exact absurd ((pairwise_cons.mp hbehind).1 _ hin) (hasymm _ _ hqp)

/-- Sorted lists are interleaved by the order of all their places. -/
theorem interleaved_of_pairwise (hasymm : ∀ p q, r p q → ¬ r q p)
    (hsorted : ∀ i j k, i < n → j < k → k < size i → r (i, j) (i, k))
    (hperm : order.Perm (places size iter n)) (horder : order.Pairwise r) :
    Interleaved iter order := by
  intro k p hp
  obtain ⟨hk, hget⟩ := List.getElem?_eq_some_iff.mp hp
  have hle := (mem_places.mp (hperm.mem_iff.mp (mem_of_getElem? hp))).2.1
  have hsplit : order = order.take k ++ p :: order.drop (k + 1) := by
    rw [← hget, ← drop_eq_getElem_cons hk, take_append_drop]
  have hfront := mem_front_iff hasymm hsorted (hsplit ▸ hperm) (hsplit ▸ horder)
  have hnodup : (order.take k).Nodup :=
    (hperm.nodup_iff.mpr (nodup_places size iter n)).sublist (take_sublist k order)
  have htaken : ((order.take k).filter fun q => decide (q.1 = p.1)).Perm
      ((List.range' (iter p.1) (p.2 - iter p.1)).map (Prod.mk p.1)) := by
    have hrange : (List.range' (iter p.1) (p.2 - iter p.1)).Nodup := nodup_range'
    refine (perm_ext_iff_of_nodup (hnodup.filter _)
      (hrange.map (Prod.mk_right_injective p.1))).mpr ?_
    rintro ⟨i, j⟩
    simp only [mem_filter, decide_eq_true_eq, mem_map, mem_range'_1, Prod.mk.injEq]
    constructor
    · rintro ⟨hq, rfl⟩
      have := (hfront j).mp hq
      exact ⟨j, by omega, rfl, rfl⟩
    · rintro ⟨j, hj, rfl, rfl⟩
      exact ⟨(hfront j).mpr (by omega), rfl⟩
  rw [cursors, countP_eq_length_filter, htaken.length_eq, length_map, length_range']
  omega

end

theorem best_congr (better better' : ℕ → ℕ → Bool) {ready ready' : ℕ → Bool}
    (hr : ∀ i, i < n → ready i = ready' i)
    (hb : ∀ i j, i < n → j < n → ready i = true → ready j = true → better i j = better' i j) :
    best ready better n = best ready' better' n := by
  induction n with
  | zero => rfl
  | succ n ih =>
    have hn : best ready better n = best ready' better' n :=
      ih (fun i hi => hr i (by omega)) fun i j hi hj => hb i j (by omega) (by omega)
    rw [best, best, ← hn, ← hr n (Nat.lt_succ_self n)]
    cases hbest : best ready better n with
    | none => rfl
    | some m =>
      obtain ⟨hm, hrm⟩ := best_mem hbest
      simp only
      cases hrn : ready n with
      | false => simp
      | true => rw [hb n m (by omega) (by omega) hrn hrm]

/-- A merge of `count` elements reads no list beyond that length. -/
theorem merge_min {size : ℕ → ℕ} {better better' : ℕ × ℕ → ℕ × ℕ → Bool} {n limit count : ℕ}
    {iter : ℕ → ℕ} (hb : ∀ p q : ℕ × ℕ, p.1 < n → p.2 < min (size p.1) limit → q.1 < n →
      q.2 < min (size q.1) limit → better p q = better' p q) (h : ∀ i, iter i + count ≤ limit) :
    merge (fun i => min (size i) limit) better n count iter = merge size better' n count iter := by
  induction count generalizing iter with
  | zero => rfl
  | succ count ih =>
    have hbest : bestAt (fun i => min (size i) limit) better n iter =
        bestAt size better' n iter := by
      refine best_congr _ _ (fun i _ => decide_eq_decide.mpr ?_) fun i j hi hj hri hrj =>
        hb (i, iter i) (j, iter j) hi (of_decide_eq_true hri) hj (of_decide_eq_true hrj)
      have := h i
      dsimp only
      omega
    rw [merge, merge, hbest]
    cases bestAt size better' n iter with
    | none => rfl
    | some m =>
      simp only
      rw [ih]
      intro i
      have := h i
      by_cases him : i = m
      · rw [him, update_self]
        have := h m
        omega
      · rw [update_of_ne him]
        omega

end AdDelivery.KWayMerge
