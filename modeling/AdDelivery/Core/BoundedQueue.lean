import Mathlib.Data.List.Induction
import Mathlib.Data.List.Nodup
import Mathlib.Data.List.Perm.Subperm
import Mathlib.Data.Set.Basic

/-!
# Bounded priority queues

A queue that only says what one insertion and one removal do, and that only for elements which
its comparison orders. From this follows what it returns after any list of insertions: the
greatest elements, in order.
-/

namespace AdDelivery

open List

universe u

/-- `r` is a strict total order of the elements of `D`. -/
structure OrdersOn {α : Type*} (r : α → α → Prop) (D : Set α) : Prop where
  irrefl : ∀ a ∈ D, ¬ r a a
  asymm : ∀ a ∈ D, ∀ b ∈ D, r a b → ¬ r b a
  trans : ∀ a ∈ D, ∀ b ∈ D, ∀ c ∈ D, r a b → r b c → r a c
  total : ∀ a ∈ D, ∀ b ∈ D, a ≠ b → r a b ∨ r b a

/-- The operations of a queue. -/
structure BoundedQueue (α : Type u) where
  Queue : Type u
  make : ℕ → Queue
  insert : Queue → α → Queue
  pop : Queue → Option (α × Queue)
  size : Queue → ℕ

namespace BoundedQueue

variable {α : Type u} {Q : BoundedQueue α} {D : Set α} {r : α → α → Prop}

/-- A queue that has only been given elements of `D`. -/
inductive FilledFrom (Q : BoundedQueue α) (D : Set α) : Q.Queue → Prop
  | make (k : ℕ) : FilledFrom Q D (Q.make k)
  | insert {q : Q.Queue} {x : α} (h : FilledFrom Q D q) (hx : x ∈ D) :
      FilledFrom Q D (Q.insert q x)
  | pop {q q' : Q.Queue} {x : α} (h : FilledFrom Q D q) (hpop : Q.pop q = some (x, q')) :
      FilledFrom Q D q'

/-- What the operations do to the contents, where `r` orders what the queue has been given. -/
structure Keeps (Q : BoundedQueue α) (r : α → α → Prop) (D : Set α)
    (contents : Q.Queue → List α) (capacity : Q.Queue → ℕ) : Prop where
  contents_make : ∀ k, contents (Q.make k) = []
  capacity_make : ∀ k, capacity (Q.make k) = k
  capacity_insert : ∀ q x, capacity (Q.insert q x) = capacity q
  size_eq : ∀ q, Q.size q = (contents q).length
  insert_room : ∀ q x, Q.FilledFrom D q → x ∈ D → (contents q).length < capacity q →
    (contents (Q.insert q x)).Perm (x :: contents q)
  insert_full : ∀ q x, Q.FilledFrom D q → x ∈ D → capacity q ≤ (contents q).length →
    ∃ y, (x :: contents q).Perm (y :: contents (Q.insert q x)) ∧
      ∀ z ∈ contents (Q.insert q x), ¬ r z y
  pop_some : ∀ q, Q.FilledFrom D q → contents q ≠ [] →
    ∃ x q', Q.pop q = some (x, q') ∧ (contents q).Perm (x :: contents q') ∧
      ∀ z ∈ contents q', ¬ r z x

/-- Taking elements out, the least first. -/
def pops (Q : BoundedQueue α) : ℕ → Q.Queue → List α
  | 0, _ => []
  | n + 1, q =>
    match Q.pop q with
    | none => []
    | some (x, q') => x :: pops Q n q'

/-- The elements of a queue that has been filled and then emptied, the greatest first. -/
def results (Q : BoundedQueue α) (k : ℕ) (xs : List α) : List α :=
  let q := xs.foldl Q.insert (Q.make k)
  (Q.pops (Q.size q) q).reverse

/-- `got` are the `k` greatest of `xs`, the greatest first. -/
structure IsTop (r : α → α → Prop) (k : ℕ) (xs got : List α) : Prop where
  length_eq : got.length = min k xs.length
  subset : got ⊆ xs
  sorted : got.Pairwise fun a b => r b a
  greatest : ∀ x ∈ xs, x ∉ got → ∀ y ∈ got, r x y

/-- A queue for the comparison `r`. It stores what it is given whatever `r` is, and removes least
elements where `r` orders what it has been given. -/
def IsQueueFor (Q : BoundedQueue α) (r : α → α → Prop) : Prop :=
  ∃ contents capacity, Q.Keeps (fun _ _ => False) Set.univ contents capacity ∧
    ∀ D, OrdersOn r D → Q.Keeps r D contents capacity

/-- What a queue holds after `xs` have been put in, in any order or none. -/
structure Stores (Q : BoundedQueue α) (D : Set α) (contents : Q.Queue → List α)
    (capacity : Q.Queue → ℕ) (k : ℕ) (xs : List α) (q : Q.Queue) : Prop where
  filled : Q.FilledFrom D q
  capacity_eq : capacity q = k
  subperm : (contents q).Subperm xs
  length_eq : (contents q).length = min k xs.length

variable {contents : Q.Queue → List α} {capacity : Q.Queue → ℕ} {k : ℕ} {xs : List α}
  {q : Q.Queue} {x : α}

theorem nodup_of_subperm {l l' : List α} (h : l.Subperm l') (hnodup : l'.Nodup) : l.Nodup := by
  obtain ⟨m, hperm, hsublist⟩ := h
  exact hperm.nodup (hsublist.nodup hnodup)

section

variable (hQ : Q.Keeps r D contents capacity)
include hQ

theorem stores_make : Q.Stores D contents capacity k [] (Q.make k) := by
  have hempty := hQ.contents_make k
  refine ⟨.make k, hQ.capacity_make k, ?_, ?_⟩
  · exact hempty ▸ nil_subperm
  · rw [hempty]
    exact (Nat.min_zero k).symm

theorem Stores.insert (h : Q.Stores D contents capacity k xs q) (hx : x ∈ D) :
    Q.Stores D contents capacity k (x :: xs) (Q.insert q x) := by
  have hlength := h.length_eq
  have hcapacity := h.capacity_eq
  have hsub : (x :: contents q).Subperm (x :: xs) := (subperm_cons x).mpr h.subperm
  refine ⟨h.filled.insert hx, (hQ.capacity_insert q x).trans hcapacity, ?_, ?_⟩
  · by_cases hroom : (contents q).length < capacity q
    · exact (hQ.insert_room q x h.filled hx hroom).subperm.trans hsub
    · obtain ⟨y, hperm, -⟩ := hQ.insert_full q x h.filled hx (by omega)
      exact ((sublist_cons_self y _).subperm.trans hperm.symm.subperm).trans hsub
  · rw [length_cons]
    by_cases hroom : (contents q).length < capacity q
    · rw [(hQ.insert_room q x h.filled hx hroom).length_eq, length_cons]
      omega
    · obtain ⟨y, hperm, -⟩ := hQ.insert_full q x h.filled hx (by omega)
      have hlength' := hperm.length_eq
      rw [length_cons, length_cons] at hlength'
      omega

/-- A queue holds as many of the elements it has been given as it has room for. -/
theorem stores_foldl_insert (hxs : ∀ y ∈ xs, y ∈ D) :
    Q.Stores D contents capacity k xs.reverse (xs.foldl Q.insert (Q.make k)) := by
  induction xs using List.reverseRecOn with
  | nil => exact stores_make hQ
  | append_singleton xs x ih =>
    rw [foldl_append, foldl_cons, reverse_append]
    have hstores := ih fun y hy => hxs y (mem_append_left _ hy)
    exact hstores.insert hQ (hxs x (mem_append_right _ mem_cons_self))

end

/-- What a queue holds after `xs` have been put in that `r` orders: the greatest of them. -/
structure Holds (Q : BoundedQueue α) (r : α → α → Prop) (D : Set α)
    (contents : Q.Queue → List α) (capacity : Q.Queue → ℕ) (k : ℕ) (xs : List α)
    (q : Q.Queue) : Prop extends Stores Q D contents capacity k xs q where
  greatest : ∀ x ∈ xs, x ∉ contents q → ∀ y ∈ contents q, r x y

section

variable (hQ : Q.Keeps r D contents capacity) (hr : OrdersOn r D)
include hQ hr

theorem Holds.insert (h : Q.Holds r D contents capacity k xs q) (hxs : ∀ y ∈ xs, y ∈ D)
    (hx : x ∈ D) (hnodup : (x :: xs).Nodup) :
    Q.Holds r D contents capacity k (x :: xs) (Q.insert q x) := by
  refine ⟨h.toStores.insert hQ hx, ?_⟩
  have hlength := h.length_eq
  have hcapacity := h.capacity_eq
  have hxnot : x ∉ contents q := fun hmem => (nodup_cons.mp hnodup).1 (h.subperm.subset hmem)
  have hcontents : (x :: contents q).Nodup :=
    nodup_cons.mpr ⟨hxnot, nodup_of_subperm h.subperm (nodup_cons.mp hnodup).2⟩
  by_cases hroom : (contents q).length < capacity q
  · -- nothing has been dropped so far
    have hperm := hQ.insert_room q x h.filled hx hroom
    have hall : (contents q).Perm xs := h.subperm.perm_of_length_le (by omega)
    intro y hy hnot
    exact absurd ((hperm.trans (hall.cons x)).mem_iff.mpr hy) hnot
  · obtain ⟨y, hperm, hleast⟩ := hQ.insert_full q x h.filled hx (by omega)
    have hnodup' : (y :: contents (Q.insert q x)).Nodup := hperm.nodup hcontents
    have hynot := (nodup_cons.mp hnodup').1
    have hsub : (x :: contents q).Subperm (x :: xs) :=
      (subperm_cons x).mpr h.subperm
    have hin {z : α} (hz : z ∈ y :: contents (Q.insert q x)) : z ∈ D := by
      rcases mem_cons.mp (hsub.subset (hperm.mem_iff.mpr hz)) with rfl | hz
      · exact hx
      · exact hxs z hz
    have hbelow {z : α} (hz : z ∈ contents (Q.insert q x)) : r y z := by
      have hne : z ≠ y := fun heq => hynot (heq ▸ hz)
      exact (hr.total z (hin (mem_cons_of_mem y hz)) y (hin mem_cons_self)
        hne).resolve_left (hleast z hz)
    intro w hw hnot z hz
    by_cases hwy : w = y
    · rw [hwy]
      exact hbelow hz
    have hwnot : w ∉ x :: contents q := fun hmem =>
      (mem_cons.mp (hperm.mem_iff.mp hmem)).elim hwy hnot
    have hwxs : w ∈ xs := (mem_cons.mp hw).resolve_left fun heq =>
      hwnot (heq ▸ mem_cons_self)
    have hwcontents : w ∉ contents q := fun hmem => hwnot (mem_cons_of_mem x hmem)
    rcases mem_cons.mp (hperm.mem_iff.mpr (mem_cons_of_mem y hz)) with rfl | hz'
    · -- the new element has replaced the least one
      have hy : y ∈ contents q := (mem_cons.mp (hperm.mem_iff.mpr
        mem_cons_self)).resolve_left fun heq => hynot (heq ▸ hz)
      exact hr.trans w (hxs w hwxs) y (hin mem_cons_self) z hx
        (h.greatest w hwxs hwcontents y hy) (hbelow hz)
    · exact h.greatest w hwxs hwcontents z hz'

/-- What a queue holds after it has been filled. -/
theorem holds_foldl_insert (hxs : ∀ y ∈ xs, y ∈ D) (hnodup : xs.Nodup) :
    Q.Holds r D contents capacity k xs.reverse (xs.foldl Q.insert (Q.make k)) := by
  induction xs using List.reverseRecOn with
  | nil => exact ⟨stores_make hQ, fun x hx => nomatch hx⟩
  | append_singleton xs x ih =>
    have hxs' : ∀ y ∈ xs, y ∈ D := fun y hy => hxs y (mem_append_left _ hy)
    have hx : x ∈ D := hxs x (mem_append_right _ mem_cons_self)
    have hholds := ih hxs' (nodup_append.mp hnodup).1
    have hnodup' : (x :: xs.reverse).Nodup := by
      rw [← nodup_reverse, reverse_append] at hnodup
      exact hnodup
    rw [foldl_append, foldl_cons, reverse_append]
    exact hholds.insert hQ hr (fun y hy => hxs' y (mem_reverse.mp hy)) hx hnodup'

end

/-- A queue returns all it holds. -/
theorem pops_perm (hQ : Q.Keeps r D contents capacity) {n : ℕ} (hfilled : Q.FilledFrom D q)
    (hn : (contents q).length = n) : (Q.pops n q).Perm (contents q) := by
  induction n generalizing q with
  | zero =>
    rw [length_eq_zero_iff.mp hn]
    exact .nil
  | succ n ih =>
    have hne : contents q ≠ [] := ne_nil_of_length_eq_add_one hn
    obtain ⟨x, q', hpop, hperm, -⟩ := hQ.pop_some q hfilled hne
    have hlength := hperm.length_eq
    rw [length_cons] at hlength
    rw [pops, hpop]
    exact ((ih (hfilled.pop hpop) (by omega)).cons x).trans hperm.symm

section

variable (hQ : Q.Keeps r D contents capacity) (hr : OrdersOn r D)
include hQ hr

/-- It returns the least first. -/
theorem pops_sorted {n : ℕ} (hfilled : Q.FilledFrom D q) (hn : (contents q).length = n)
    (hD : ∀ y ∈ contents q, y ∈ D) (hnodup : (contents q).Nodup) :
    (Q.pops n q).Pairwise r := by
  induction n generalizing q with
  | zero => exact .nil
  | succ n ih =>
    have hne : contents q ≠ [] := ne_nil_of_length_eq_add_one hn
    obtain ⟨x, q', hpop, hperm, hleast⟩ := hQ.pop_some q hfilled hne
    have hnodup' := nodup_cons.mp (hperm.nodup hnodup)
    have hD' : ∀ y ∈ x :: contents q', y ∈ D := fun y hy => hD y (hperm.mem_iff.mpr hy)
    have hlength := hperm.length_eq
    rw [length_cons] at hlength
    have hsorted := ih (hfilled.pop hpop) (by omega)
      (fun y hy => hD' y (mem_cons_of_mem x hy)) hnodup'.2
    rw [pops, hpop]
    refine pairwise_cons.mpr ⟨?_, hsorted⟩
    intro y hy
    have hy' := (pops_perm hQ (hfilled.pop hpop) (by omega)).mem_iff.mp hy
    have hxy : y ≠ x := fun heq => hnodup'.1 (heq ▸ hy')
    exact (hr.total y (hD' y (mem_cons_of_mem x hy')) x (hD' x mem_cons_self)
      hxy).resolve_left (hleast y hy')

/-- A queue returns the greatest elements it has been given, in order. -/
theorem isTop_results (hxs : ∀ y ∈ xs, y ∈ D) (hnodup : xs.Nodup) :
    IsTop r k xs (Q.results k xs) := by
  have hholds := holds_foldl_insert (k := k) hQ hr hxs hnodup
  have hD : ∀ y ∈ contents (xs.foldl Q.insert (Q.make k)), y ∈ D := fun y hy =>
    hxs y (mem_reverse.mp (hholds.subperm.subset hy))
  have hperm := pops_perm hQ hholds.filled (hQ.size_eq _).symm
  have hsorted := pops_sorted hQ hr hholds.filled (hQ.size_eq _).symm hD
    (nodup_of_subperm hholds.subperm (nodup_reverse.mpr hnodup))
  have hmem {y : α} : y ∈ Q.results k xs ↔ y ∈ contents (xs.foldl Q.insert (Q.make k)) :=
    mem_reverse.trans hperm.mem_iff
  refine ⟨?_, ?_, ?_, ?_⟩
  · rw [results, length_reverse, hperm.length_eq, hholds.length_eq, length_reverse]
  · intro y hy
    exact mem_reverse.mp (hholds.subperm.subset (hmem.mp hy))
  · exact pairwise_reverse.mpr hsorted
  · intro x hx hnot y hy
    exact hholds.greatest x (mem_reverse.mpr hx) (fun h => hnot (hmem.mpr h)) y (hmem.mp hy)

end

section

variable (hQ : Q.IsQueueFor r)
include hQ

/-- A queue that has been filled has as many elements as it has been given or has room for. -/
theorem IsQueueFor.size_foldl_insert (k : ℕ) (xs : List α) :
    Q.size (xs.foldl Q.insert (Q.make k)) = min k xs.length := by
  obtain ⟨contents, capacity, hstores, -⟩ := hQ
  rw [hstores.size_eq, (stores_foldl_insert hstores fun y _ => Set.mem_univ y).length_eq,
    length_reverse]

/-- It returns them all, and only what it has been given. -/
theorem IsQueueFor.pops_foldl_insert (k : ℕ) (xs : List α) :
    let q := xs.foldl Q.insert (Q.make k)
    (Q.pops (Q.size q) q).length = Q.size q ∧ (Q.pops (Q.size q) q).Subperm xs := by
  obtain ⟨contents, capacity, hstores, -⟩ := hQ
  have hfill := stores_foldl_insert (k := k) hstores fun y (_ : y ∈ xs) => Set.mem_univ y
  have hperm := pops_perm hstores hfill.filled (hstores.size_eq _).symm
  have hsub := hperm.subperm.trans hfill.subperm
  exact ⟨hperm.length_eq.trans (hstores.size_eq _).symm, hsub.trans (reverse_perm xs).subperm⟩

/-- It returns the least first if its comparison orders what it has been given. -/
theorem IsQueueFor.pops_foldl_insert_sorted (hr : OrdersOn r D) (k : ℕ)
    (hxs : ∀ y ∈ xs, y ∈ D) (hnodup : xs.Nodup) :
    let q := xs.foldl Q.insert (Q.make k)
    (Q.pops (Q.size q) q).Pairwise r := by
  obtain ⟨contents, capacity, -, hkeeps⟩ := hQ
  have hfill := stores_foldl_insert (k := k) (hkeeps D hr) hxs
  have hsub := hfill.subperm.trans (reverse_perm xs).subperm
  exact pops_sorted (hkeeps D hr) hr hfill.filled ((hkeeps D hr).size_eq _).symm
    (fun y hy => hxs y (hsub.subset hy)) (nodup_of_subperm hsub hnodup)

end

section ListQueue

variable [DecidableEq α] (lt : α → α → Bool)

/-- The least of `x` and the elements of a list. -/
def least (x : α) (xs : List α) : α := xs.foldl (fun m y => if lt y m then y else m) x

abbrev listQueue : BoundedQueue α where
  Queue := ℕ × List α
  make k := (k, [])
  insert q x :=
    if q.2.length < q.1 then (q.1, x :: q.2) else (q.1, (x :: q.2).erase (least lt x q.2))
  pop q :=
    match q.2 with
    | [] => none
    | x :: xs => some (least lt x xs, (q.1, (x :: xs).erase (least lt x xs)))
  size q := q.2.length

end ListQueue

variable {lt : α → α → Bool}

theorem least_mem (x : α) (xs : List α) : least lt x xs ∈ x :: xs := by
  induction xs generalizing x with
  | nil => exact mem_singleton_self x
  | cons y xs ih =>
    rw [least, foldl_cons]
    split
    · exact mem_cons_of_mem x (ih y)
    · rcases mem_cons.mp (ih x) with heq | hmem
      · exact mem_cons.mpr (.inl heq)
      · exact mem_cons_of_mem x (mem_cons_of_mem y hmem)

theorem least_spec (hr : OrdersOn (fun a b => lt a b) D) {x : α} {xs : List α}
    (hD : ∀ y ∈ x :: xs, y ∈ D) :
    least lt x xs ∈ x :: xs ∧ ∀ z ∈ x :: xs, ¬ lt z (least lt x xs) := by
  induction xs generalizing x with
  | nil =>
    refine ⟨mem_singleton_self x, ?_⟩
    intro z hz
    rw [mem_singleton.mp hz]
    exact hr.irrefl x (hD x mem_cons_self)
  | cons y xs ih =>
    have hx : x ∈ D := hD x mem_cons_self
    have hy : y ∈ D := hD y (mem_cons_of_mem x mem_cons_self)
    have hxs : ∀ z ∈ xs, z ∈ D := fun z hz =>
      hD z (mem_cons_of_mem x (mem_cons_of_mem y hz))
    rw [least, foldl_cons]
    by_cases hyx : lt y x
    · rw [if_pos hyx]
      obtain ⟨hmem, hleast⟩ := ih (forall_mem_cons.mpr ⟨hy, hxs⟩)
      refine ⟨mem_cons_of_mem x hmem, ?_⟩
      intro z hz
      rcases mem_cons.mp hz with rfl | hz
      · -- below the least would be above `y`
        intro hz'
        exact hleast y mem_cons_self
          (hr.trans y hy z hx _ (forall_mem_cons.mpr ⟨hy, hxs⟩ _ hmem) hyx hz')
      · exact hleast z hz
    · rw [if_neg hyx]
      obtain ⟨hmem, hleast⟩ := ih (forall_mem_cons.mpr ⟨hx, hxs⟩)
      have hmem' : least lt x xs ∈ x :: y :: xs := by
        rcases mem_cons.mp hmem with heq | hmem
        · exact mem_cons.mpr (.inl heq)
        · exact mem_cons_of_mem x (mem_cons_of_mem y hmem)
      refine ⟨hmem', ?_⟩
      intro z hz
      rcases mem_cons.mp hz with rfl | hz
      · exact hleast z mem_cons_self
      rcases mem_cons.mp hz with rfl | hz
      · intro hlt
        by_cases heq : z = x
        · subst heq
          exact hleast z mem_cons_self hlt
        have hxz := (hr.total z hy x hx heq).resolve_left hyx
        exact hleast x mem_cons_self (hr.trans x hx z hy _ (hD _ hmem') hxz hlt)
      · exact hleast z (mem_cons_of_mem x hz)

variable [DecidableEq α]

theorem listQueue_insert (q : ℕ × List α) (x : α) :
    (listQueue lt).insert q x = if q.2.length < q.1 then (q.1, x :: q.2)
      else (q.1, (x :: q.2).erase (least lt x q.2)) := rfl

theorem mem_of_filledFrom {q : (listQueue lt).Queue}
    (h : (listQueue lt).FilledFrom D q) : ∀ y ∈ q.2, y ∈ D := by
  induction h with
  | make k =>
    intro y hy
    cases hy
  | @insert q x h hx ih =>
    have hall : ∀ y ∈ x :: q.2, y ∈ D := forall_mem_cons.mpr ⟨hx, ih⟩
    intro y hy
    rw [listQueue_insert] at hy
    split at hy
    · exact hall y hy
    · exact hall y (mem_of_mem_erase hy)
  | @pop q q' x h hpop ih =>
    obtain ⟨k, xs⟩ := q
    cases xs with
    | nil => cases hpop
    | cons z zs =>
      cases hpop
      exact fun y hy => ih y (mem_of_mem_erase hy)

/-- The list gives away an element that is least in a sense `r` of the elements of `D`. -/
theorem listQueue_keeps (hleast : ∀ (x : α) (xs : List α), (∀ y ∈ x :: xs, y ∈ D) →
      least lt x xs ∈ x :: xs ∧ ∀ z ∈ x :: xs, ¬ r z (least lt x xs)) :
    (listQueue lt).Keeps r D (fun q : ℕ × List α => q.2) (fun q : ℕ × List α => q.1) where
  contents_make _ := rfl
  capacity_make _ := rfl
  capacity_insert q x := by
    rw [listQueue_insert]
    split <;> rfl
  size_eq _ := rfl
  insert_room q x _ _ hroom := by
    rw [listQueue_insert, if_pos hroom]
  insert_full q x hfilled hx hfull := by
    obtain ⟨hmem, hleast⟩ :=
      hleast x q.2 (forall_mem_cons.mpr ⟨hx, mem_of_filledFrom hfilled⟩)
    refine ⟨least lt x q.2, ?_, ?_⟩
    · rw [listQueue_insert, if_neg (Nat.not_lt.mpr hfull)]
      exact perm_cons_erase hmem
    · intro z hz
      rw [listQueue_insert, if_neg (Nat.not_lt.mpr hfull)] at hz
      exact hleast z (mem_of_mem_erase hz)
  pop_some q hfilled hne := by
    obtain ⟨k, xs⟩ := q
    cases xs with
    | nil => exact absurd rfl hne
    | cons z zs =>
      obtain ⟨hmem, hleast⟩ := hleast z zs (mem_of_filledFrom hfilled)
      refine ⟨_, _, rfl, perm_cons_erase hmem, ?_⟩
      exact fun y hy => hleast y (mem_of_mem_erase hy)

theorem listQueue_isQueueFor (lt : α → α → Bool) :
    (listQueue lt).IsQueueFor fun a b => lt a b :=
  ⟨_, _, listQueue_keeps fun x xs _ => ⟨least_mem x xs, fun _ _ => id⟩,
    fun _ hr => listQueue_keeps fun _ _ => least_spec hr⟩

end BoundedQueue

end AdDelivery
