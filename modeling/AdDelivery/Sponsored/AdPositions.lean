import AdDelivery.Sponsored.Knapsack
import AdDelivery.Sponsored.Search

/-!
# The solvers on any weights

The genetic strategy hands its solvers weights of type `double`. The table of the second solver
has a cell for each whole budget only: what is left behind a position is cut to a whole number
before the table is read, so that a selection can miss the optimum, but it stays within the
budget.
-/

namespace AdDelivery.Sponsored.Genetic

open List List List.Forall₂

instance : KPWeight ℚ where
  cell left := (truncate left).toNat
  decidableLE := inferInstance

/-- An ad position with its expected cost and clicks. -/
abbrev AdPosition := KPItem ℚ

abbrev AdRow := KPRow ℚ

/-- One entry for each keyword, none or one of its positions. -/
abbrev Valid (rows : List AdRow) (sol : KPSolution) : Prop := List.Forall₂ IsChoice rows sol

variable (row : AdRow)

theorem totalWeight_append {rows rows' : List AdRow} {sol sol' : KPSolution}
    (h : rows.length = sol.length) :
    totalWeight (rows ++ rows') (sol ++ sol') = totalWeight rows sol + totalWeight rows' sol' := by
  rw [totalWeight, zipWith_append h, sum_append]
  rfl

variable (rows : List AdRow)

theorem totalWeight_none : totalWeight rows (rows.map fun _ => none) = 0 := by
  induction rows with
  | nil => rfl
  | cons row rows ih => rw [map_cons, totalWeight_cons, weightOf_none, ih, add_zero]

theorem valid_none : Valid rows (rows.map fun _ => none) := by
  induction rows with
  | nil => exact nil
  | cons row rows ih => exact cons (isChoice_none row) ih

/-- The search goes through vectors within the budget only. -/
theorem enumKPRecursive_feasible (done : List AdRow) {rows : List AdRow} {budget : ℚ}
    {curSol : KPSolution} {leftB curValue : ℚ} {best : ℚ × KPSolution} (hcur : Valid done curSol)
    (hleft : totalWeight done curSol + leftB = budget) (hnonneg : 0 ≤ leftB)
    (hbest : KPFeasible (done ++ rows) budget best.2) :
    KPFeasible (done ++ rows) budget (enumKPRecursive rows curSol leftB curValue best).2 := by
  induction rows generalizing done curSol leftB curValue best with
  | nil =>
    rw [enumKPRecursive]
    split
    · rw [append_nil]
      exact ⟨hcur, by linarith⟩
    · exact hbest
  | cons row rows ih =>
    have hchoice : ∀ choice : Option ℕ, IsChoice row choice → weightOf row choice ≤ leftB →
        ∀ (value : ℚ) (best : ℚ × KPSolution), KPFeasible (done ++ row :: rows) budget best.2 →
          KPFeasible (done ++ row :: rows) budget
            (enumKPRecursive rows (curSol ++ [choice]) (leftB - weightOf row choice) value
              best).2 := by
      intro choice hposition hfits value best hbest
      rw [append_cons] at hbest ⊢
      refine ih _ (rel_append hcur (cons hposition nil)) ?_
        (sub_nonneg.mpr hfits) hbest
      rw [totalWeight_append hcur.length_eq]
      have hone : totalWeight [row] [choice] = weightOf row choice := add_zero _
      linarith
    have hnone := hchoice none (isChoice_none row) hnonneg curValue best hbest
    rw [weightOf_none, sub_zero] at hnone
    refine foldlRecOn
      (motive := fun best : ℚ × KPSolution => KPFeasible (done ++ row :: rows) budget best.2)
      _ _ hnone fun best hbest entry hentry => ?_
    split
    · rename_i hfits
      have hposition := mem_zipIdx_iff_getElem?.mp hentry
      have hsome := hchoice (some entry.2) (isChoice_some hposition)
        ((weightOf_some hposition).trans_le hfits) (curValue + entry.1.value) best hbest
      rwa [weightOf_some hposition] at hsome
    · exact hbest

variable (budget : ℕ)

theorem enumKP_feasible : KPFeasible rows budget (enumKP rows budget) := by
  refine enumKPRecursive_feasible [] nil (zero_add _) (Nat.cast_nonneg _) ?_
  refine ⟨valid_none rows, ?_⟩
  rw [nil_append, totalWeight_none]
  exact Nat.cast_nonneg _

/-- A choice that may be written at the budget `v`. -/
def Fits (row : AdRow) (v : ℕ) (choice : Option ℕ) : Prop :=
  IsChoice row choice ∧ ∀ j, choice = some j → weightOf row choice ≤ v

theorem fits_none (v : ℕ) : Fits row v none :=
  ⟨isChoice_none row, fun _ h => nomatch h⟩

theorem bestChoice_fits (values : List ℚ) (row : AdRow) (v : ℕ) :
    Fits row v (bestChoice values row v).2 := by
  refine foldlRecOn (motive := fun best : ℚ × Option ℕ => Fits row v best.2)
    _ _ (fits_none row v) fun best hbest entry hentry => ?_
  dsimp only
  split
  · rename_i hle
    split
    · have hposition := mem_zipIdx_iff_getElem?.mp hentry
      exact ⟨isChoice_some hposition, fun _ _ => (weightOf_some hposition).trans_le hle⟩
    · exact hbest
  · exact hbest

variable {choices : List (Option ℕ)}

theorem getD_set_fits {row : AdRow} (h : ∀ v, Fits row v (choices.getD v none)) {u : ℕ}
    {choice : Option ℕ} (hchoice : Fits row u choice) (v : ℕ) :
    Fits row v ((choices.set u choice).getD v none) := by
  rw [getD_eq_getElem?_getD, getElem?_set]
  split
  · rename_i heq
    subst heq
    split
    · exact hchoice
    · exact fits_none row u
  · exact h v

theorem sweepRow_fits (values : List ℚ) (row : AdRow) (v : ℕ) :
    Fits row v ((sweepRow budget values row).2.getD v none) := by
  refine foldlRecOn (motive := fun tables : List ℚ × List (Option ℕ) =>
    ∀ v, Fits row v (tables.2.getD v none)) _ _ (fun v => ?start)
    (fun tables htables u _ v => ?step) v
  case start =>
    rw [getD_eq_getElem?_getD, getElem?_replicate]
    split
    · exact fits_none row v
    · exact fits_none row v
  case step => exact getD_set_fits htables (bestChoice_fits tables.1 row u) v

/-- The table has one line for each keyword, with choices that fit. -/
theorem fillTables_spec (rows : List AdRow) : (fillTables budget rows).2.map Prod.fst = rows ∧
      ∀ entry ∈ (fillTables budget rows).2, ∀ v, Fits entry.1 v (entry.2.getD v none) := by
  induction rows using reverseRecOn with
  | nil => exact ⟨rfl, fun _ h => nomatch h⟩
  | append_singleton rows row ih =>
    obtain ⟨hrows, hfits⟩ := ih
    have hlast : (fillTables budget (rows ++ [row])).2 = (fillTables budget rows).2 ++
        [(row, (sweepRow budget (fillTables budget rows).1 row).2)] := by
      rw [fillTables, foldl_append]
      rfl
    rw [hlast]
    refine ⟨?_, fun entry hentry => ?_⟩
    · rw [map_append, hrows]
      rfl
    · rcases mem_append.mp hentry with hentry | hentry
      · exact hfits entry hentry
      · rw [mem_singleton.mp hentry]
        exact sweepRow_fits budget _ row

theorem cell_sub_add_le {v : ℕ} {weight : ℚ} (h : weight ≤ v) :
    weight + KPWeight.cell ((v : ℚ) - weight) ≤ v := by
  have hleft : (truncate ((v : ℚ) - weight) : ℚ) ≤ v - weight := by
    have hnonneg : 0 ≤ (v : ℚ) - weight := sub_nonneg.mpr h
    have hfloor : truncate ((v : ℚ) - weight) = ((v : ℚ) - weight).floor := by
      rw [truncate, Int.tdiv_eq_ediv_of_nonneg (Rat.num_nonneg.mpr hnonneg), Rat.floor_def]
    rw [hfloor]
    exact Rat.floor_le _
  rcases le_total 0 (truncate ((v : ℚ) - weight)) with hpos | hneg
  · have hcast : ((KPWeight.cell ((v : ℚ) - weight) : ℕ) : ℚ) = (truncate ((v : ℚ) - weight) : ℚ) := by
      exact_mod_cast Int.toNat_of_nonneg hpos
    linarith
  · have hcast : KPWeight.cell ((v : ℚ) - weight) = 0 := Int.toNat_of_nonpos hneg
    rw [hcast, Nat.cast_zero, add_zero]
    exact h

theorem readChoice_spec {row : AdRow} (h : ∀ v, Fits row v (choices.getD v none)) (v : ℕ)
    (sol : KPSolution) : ∃ choice u, readChoice (v, sol) (row, choices) = (u, choice :: sol) ∧
      IsChoice row choice ∧ weightOf row choice + u ≤ v := by
  obtain ⟨hposition, hle⟩ := h v
  rw [readChoice]
  rcases hchoice : choices.getD v none with _ | j
  · exact ⟨none, v, rfl, isChoice_none row, (zero_add _).le⟩
  · rw [hchoice] at hposition hle
    have hj := getElem?_eq_getElem (hposition j rfl)
    refine ⟨some j, _, rfl, hposition, ?_⟩
    have hweight : (row.getD j ⟨0, 0⟩).weight = weightOf row (some j) := by
      rw [weightOf_some hj, getD_eq_getElem?_getD, hj, Option.getD_some]
    rw [hweight]
    exact cell_sub_add_le (hle j rfl)

/-- Reading back from the last keyword to the first, the choices together with what is left
stay within the budget that there was before. -/
theorem foldl_readChoice (entries : List (AdRow × List (Option ℕ)))
    (h : ∀ entry ∈ entries, ∀ v, Fits entry.1 v (entry.2.getD v none)) (v : ℕ) (sol : KPSolution) :
    ∃ read u, entries.foldl readChoice (v, sol) = (u, read ++ sol) ∧
      Valid (entries.map Prod.fst).reverse read ∧
      totalWeight (entries.map Prod.fst).reverse read + u ≤ v := by
  induction entries generalizing v sol with
  | nil => exact ⟨[], v, rfl, nil, (zero_add _).le⟩
  | cons entry entries ih =>
    obtain ⟨hentry, hentries⟩ := forall_mem_cons.mp h
    obtain ⟨choice, u, hchoice, hposition, hle⟩ := readChoice_spec hentry v sol
    obtain ⟨read, u', hread, hvalid, hle'⟩ := ih hentries u (choice :: sol)
    have hone : totalWeight [entry.1] [choice] = weightOf entry.1 choice := add_zero _
    refine ⟨read ++ [choice], u', ?_, ?_, ?_⟩
    · rw [foldl_cons, hchoice, hread, append_assoc]
      rfl
    · rw [map_cons, reverse_cons]
      exact rel_append hvalid (cons hposition nil)
    · rw [map_cons, reverse_cons, totalWeight_append hvalid.length_eq]
      linarith

theorem dpKP_feasible : KPFeasible rows budget (dpKP rows budget) := by
  obtain ⟨hrows, hfits⟩ := fillTables_spec budget rows
  obtain ⟨read, u, hread, hvalid, hle⟩ := foldl_readChoice (fillTables budget rows).2.reverse
    (fun entry hentry => hfits entry (mem_reverse.mp hentry)) budget []
  rw [map_reverse, reverse_reverse, hrows] at hvalid hle
  have hsol : dpKP rows budget = read := by
    rw [dpKP, constructSolution, hread, append_nil]
  rw [hsol]
  exact ⟨hvalid, by linarith⟩

end AdDelivery.Sponsored.Genetic
