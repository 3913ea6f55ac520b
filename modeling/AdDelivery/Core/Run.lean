import Mathlib.Tactic.Common

/-!
# Runs of a state machine

A step relation `R s a s'` says that the call `a` takes the state `s` to `s'`;
it may be partial or leave room for what the environment answers. A run is a
list of calls taken one after another. Two rules carry every result about runs:
a property that each step preserves holds wherever a run ends, and a property
that each step keeps exactly under a condition holds all along a run exactly
when every step of the run meets that condition.
-/

namespace AdDelivery

variable {σ ι : Type*}

/-- The calls `as` can take the state `s` to the state `s'`. -/
inductive Run (R : σ → ι → σ → Prop) : σ → List ι → σ → Prop
  | nil (s : σ) : Run R s [] s
  | cons {s s' s'' : σ} {a : ι} {as : List ι} (h : R s a s') (hs : Run R s' as s'') :
      Run R s (a :: as) s''

namespace Run

variable {R : σ → ι → σ → Prop}

/-- What every step preserves holds where the run ends. -/
theorem invariant {P : σ → Prop} (hstep : ∀ s a s', P s → R s a s' → P s') {s s' : σ}
    {as : List ι} (h : Run R s as s') (hs : P s) : P s' := by
  induction h with
  | nil s => exact hs
  | cons h _ ih => exact ih (hstep _ _ _ hs h)

theorem snoc {s s' s'' : σ} {as : List ι} {a : ι} (h : Run R s as s') (ha : R s' a s'') :
    Run R s (as ++ [a]) s'' := by
  induction h with
  | nil s => exact .cons ha (.nil _)
  | cons h _ ih => exact .cons h (ih ha)

end Run

/-- `P` holds in every state that the run `as` passes, its first and last included. -/
def HoldsAlong (R : σ → ι → σ → Prop) (P : σ → Prop) (s : σ) (as : List ι) : Prop :=
  ∀ as₁ as₂ s', as₁ ++ as₂ = as → Run R s as₁ s' → P s'

/-- Every step that the run `as` takes meets the condition `C`. -/
def StepsMeet (R : σ → ι → σ → Prop) (C : σ → ι → Prop) (s : σ) (as : List ι) : Prop :=
  ∀ as₁ a as₂ s₁ s₂, as₁ ++ a :: as₂ = as → Run R s as₁ s₁ → R s₁ a s₂ → C s₁ a

theorem stepsMeet_nil {R : σ → ι → σ → Prop} {C : σ → ι → Prop} (s : σ) :
    StepsMeet R C s [] := by
  intro as₁ a as₂ s₁ s₂ has
  simp at has

/-- A run meets the condition if its first call does and the rest does wherever it leads. -/
theorem stepsMeet_cons {R : σ → ι → σ → Prop} {C : σ → ι → Prop} {s : σ} {a : ι} {as : List ι}
    (h : ∀ s', R s a s' → C s a ∧ StepsMeet R C s' as) : StepsMeet R C s (a :: as) := by
  intro as₁ b as₂ s₁ s₂ has hrun hb
  cases hrun with
  | nil =>
    obtain ⟨rfl, rfl⟩ := List.cons_eq_cons.mp has
    exact (h s₂ hb).1
  | @cons _ t _ c cs hc hrest =>
    obtain ⟨hca, hsplit⟩ := List.cons_eq_cons.mp has
    subst hca
    exact (h t hc).2 cs b as₂ s₁ s₂ hsplit hrest hb

section Function

variable {f : σ → ι → σ} {C : σ → ι → Prop} {s : σ}

theorem stepsMeet_cons_iff {a : ι} {as : List ι} :
    StepsMeet (fun s a s' => s' = f s a) C s (a :: as) ↔
      C s a ∧ StepsMeet (fun s a s' => s' = f s a) C (f s a) as := by
  constructor
  · intro hmeet
    refine ⟨hmeet [] a as s (f s a) rfl (.nil s) rfl, ?_⟩
    intro as₁ b as₂ s₁ s₂ has hrun hb
    exact hmeet (a :: as₁) b as₂ s₁ s₂ (by simpa using has) (.cons rfl hrun) hb
  · rintro h
    exact stepsMeet_cons fun s' hs' => hs' ▸ h

end Function

section Along

variable {R : σ → ι → σ → Prop} {P Q : σ → Prop} {C : σ → ι → Prop}

/-- If the steps that meet `C` keep an invariant, it holds all along a run whose steps meet
`C`. -/
theorem holdsAlong_of_stepsMeet (hstep : ∀ s a s', P s → C s a → R s a s' → P s')
    (hPQ : ∀ s, P s → Q s) {s : σ} (hP : P s) {as : List ι} (hmeet : StepsMeet R C s as) :
    HoldsAlong R Q s as := by
  intro as₁ as₂ s' has hrun
  refine hPQ s' ?_
  -- walk along the run from its first state; the remaining calls meet `C` as well
  induction hrun generalizing as with
  | nil s => exact hP
  | @cons s t u a as₁ ha hrest ih =>
    subst has
    have ht : P t := hstep s a t hP (hmeet [] a (as₁ ++ as₂) s t rfl (.nil s) ha) ha
    refine @ih ht (as₁ ++ as₂) ?_ rfl
    intro bs b bs' s₁ s₂ hbs hrun' hb
    exact hmeet (a :: bs) b bs' s₁ s₂ (by simpa using hbs) (.cons ha hrun') hb

/-- If every step out of a good state is good exactly under `C`, a whole run is good
exactly when all its steps meet `C`. `Q` is what is known of all states anyway. -/
theorem holdsAlong_iff_stepsMeet (hQ : ∀ s a s', Q s → R s a s' → Q s')
    (hstep : ∀ s a s', Q s → P s → R s a s' → (P s' ↔ C s a)) {s : σ} (hs : Q s) (hP : P s)
    (as : List ι) : HoldsAlong R P s as ↔ StepsMeet R C s as := by
  constructor
  · intro hall as₁ a as₂ s₁ s₂ has hrun ha
    have h₁ : P s₁ := hall as₁ (a :: as₂) s₁ has hrun
    have h₂ : P s₂ := hall (as₁ ++ [a]) as₂ s₂ (by simpa using has) (hrun.snoc ha)
    exact (hstep s₁ a s₂ (hrun.invariant hQ hs) h₁ ha).mp h₂
  · intro hmeet
    refine holdsAlong_of_stepsMeet (P := fun s => Q s ∧ P s) (fun s a s' h hC ha => ?_)
      (fun _ h => h.2) ⟨hs, hP⟩ hmeet
    exact ⟨hQ s a s' h.1 ha, (hstep s a s' h.1 h.2 ha).mpr hC⟩

/-- Conditions that agree where the invariant `Q` holds are met by the same runs. -/
theorem stepsMeet_congr {D : σ → ι → Prop} (hQ : ∀ s a s', Q s → R s a s' → Q s')
    (hCD : ∀ s a, Q s → (C s a ↔ D s a)) {s : σ} (hs : Q s) (as : List ι) :
    StepsMeet R C s as ↔ StepsMeet R D s as := by
  constructor
  · intro hmeet as₁ a as₂ s₁ s₂ has hrun ha
    exact (hCD s₁ a (hrun.invariant hQ hs)).mp (hmeet as₁ a as₂ s₁ s₂ has hrun ha)
  · intro hmeet as₁ a as₂ s₁ s₂ has hrun ha
    exact (hCD s₁ a (hrun.invariant hQ hs)).mpr (hmeet as₁ a as₂ s₁ s₂ has hrun ha)

/-- If a step into a good state meets `C`, all steps of a run that is good all along do. -/
theorem stepsMeet_of_holdsAlong (hstep : ∀ s a s', R s a s' → P s' → C s a) {s : σ}
    {as : List ι} (hall : HoldsAlong R P s as) : StepsMeet R C s as := by
  intro as₁ a as₂ s₁ s₂ has hrun ha
  exact hstep s₁ a s₂ ha (hall (as₁ ++ [a]) as₂ s₂ (by simpa using has) (hrun.snoc ha))

end Along

end AdDelivery
