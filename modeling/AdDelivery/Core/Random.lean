import Mathlib.Data.List.Forall2
import Mathlib.Data.Stream.Defs

/-!
# Computations that draw numbers

A computation takes numbers from a source, one after another, and may fail. What is said of it
here holds whatever the source is, and that it does not fail is a part of it.
-/

namespace AdDelivery

abbrev Random := StateT (Stream' ℕ) Option

namespace Random

variable {α β ι : Type}

/-- Take the next number. -/
def rand : Random ℕ := fun source => some (source.head, source.tail)

/-- From every source the computation has a result, and the result satisfies `post`. -/
def Always (prog : Random α) (post : α → Prop) : Prop :=
  ∀ source, ∃ result rest, prog source = some (result, rest) ∧ post result

theorem Always.mono {prog : Random α} {post post' : α → Prop} (h : Always prog post)
    (himp : ∀ result, post result → post' result) : Always prog post' := by
  intro source
  obtain ⟨result, rest, hrun, hpost⟩ := h source
  exact ⟨result, rest, hrun, himp result hpost⟩

variable {post : α → Prop}

theorem always_pure {result : α} (h : post result) : Always (pure result) post :=
  fun source => ⟨result, source, rfl, h⟩

theorem Always.bind {prog : Random α} {next : α → Random β} {mid : α → Prop} {post : β → Prop}
    (h : Always prog mid) (hnext : ∀ result, mid result → Always (next result) post) :
    Always (prog >>= next) post := by
  intro source
  obtain ⟨result, rest, hrun, hmid⟩ := h source
  obtain ⟨result', rest', hrun', hpost⟩ := hnext result hmid rest
  refine ⟨result', rest', ?_, hpost⟩
  change (prog source).bind (fun r => next r.1 r.2) = some (result', rest')
  rw [hrun, Option.bind_some, hrun']

/-- Nothing is known of a number but that there is one. -/
theorem always_rand_bind {next : ℕ → Random β} {post : β → Prop}
    (h : ∀ r, Always (next r) post) : Always (rand >>= next) post := by
  have hrand : Always rand fun _ => True := fun source =>
    ⟨source.head, source.tail, rfl, trivial⟩
  exact hrand.bind fun r _ => h r

theorem always_ite {p : Prop} [Decidable p] {prog prog' : Random α} (h : p → Always prog post)
    (h' : ¬p → Always prog' post) : Always (if p then prog else prog') post := by
  split
  · exact h ‹_›
  · exact h' ‹_›

variable {xs : List ι} {f : ι → Random α}

/-- One computation for each element. -/
theorem always_mapM {post : ι → α → Prop} (h : ∀ x ∈ xs, Always (f x) (post x)) :
    Always (xs.mapM f) (List.Forall₂ post xs) := by
  induction xs with
  | nil => exact always_pure List.Forall₂.nil
  | cons x xs ih =>
    obtain ⟨hx, hxs⟩ := List.forall_mem_cons.mp h
    rw [List.mapM_cons]
    refine hx.bind fun result hresult => (ih hxs).bind fun results hresults => ?_
    exact always_pure (List.Forall₂.cons hresult hresults)

/-- One computation for each element, where nothing depends on the element. -/
theorem always_mapM_all (h : ∀ x ∈ xs, Always (f x) post) : Always (xs.mapM f) fun results =>
      results.length = xs.length ∧ ∀ result ∈ results, post result := by
  have heach : Always (xs.mapM f) (List.Forall₂ (fun _ => post) xs) := always_mapM h
  refine heach.mono fun results hresults => ?_
  refine ⟨hresults.length_eq.symm, fun result hresult => ?_⟩
  obtain ⟨i, hi, rfl⟩ := List.mem_iff_getElem.mp hresult
  exact hresults.get (hresults.length_eq.symm ▸ hi) hi

/-- A loop with an invariant that says which elements it has passed. -/
theorem always_foldlM {f : α → ι → Random α} {inv : List ι → α → Prop}
    (hstep : ∀ passed x left state, xs = passed ++ x :: left → inv passed state →
      Always (f state x) (inv (passed ++ [x]))) {state : α} (hstart : inv [] state) :
    Always (xs.foldlM f state) (inv xs) := by
  have hloop : ∀ passed left state, xs = passed ++ left → inv passed state →
      Always (left.foldlM f state) (inv xs) := by
    intro passed left
    induction left generalizing passed with
    | nil =>
      intro state hxs hinv
      rw [hxs, List.append_nil]
      exact always_pure hinv
    | cons x left ih =>
      intro state hxs hinv
      refine (hstep passed x left state hxs hinv).bind fun next hnext => ?_
      refine ih (passed ++ [x]) next ?_ hnext
      rw [hxs, List.append_assoc, List.singleton_append]
  exact hloop [] xs state rfl hstart

end Random

end AdDelivery
