import AdDelivery.Core.Random
import AdDelivery.Core.Vector
import AdDelivery.Sponsored.AdPositions
import Mathlib.Algebra.Order.BigOperators.Group.List

/-!
# The evolutionary search

Where the exact solvers would take too long, the genetic strategy lets a population of vectors
evolve: it selects by fitness, crosses, mutates, and keeps the two fittest as they are. A vector
that costs too much loses keywords drawn at random until it meets the budget. Each of these
operations writes none or a position of the keyword, whatever the numbers drawn, and the
withdrawal meets the budget at the latest when no keyword is left.
-/

namespace AdDelivery.Sponsored.Genetic

open List List Option List.Forall₂
open AdDelivery.Random

def populationSize : ℕ := 40

def elitismSize : ℕ := 2

def gaSize : ℕ := populationSize - elitismSize

/-- `RAND_MAX`. -/
def randMax : ℕ := 2147483647

/-- Less than the `epsilon` of a `double`. -/
def isZero (f : ℚ) : Bool := |f| < 1 / 2 ^ 52

abbrev Population := List KPSolution

/-- The keywords with a position, and the position. -/
def keywordsOf (sol : KPSolution) : List (ℕ × ℕ) :=
  sol.zipIdx.filterMap fun entry => entry.1.map fun j => (entry.2, j)

def weightAt (rows : List AdRow) (keyword : ℕ × ℕ) : ℚ :=
  ((rows.getD keyword.1 []).getD keyword.2 ⟨0, 0⟩).weight

/-- The repair loop, with the value of `aN` when it ends. The first `aN` of the keywords still
have their position; to draw from no keywords is a division by zero. -/
def withdraw (rows : List AdRow) (budget : ℚ) :
    ℕ → List (ℕ × ℕ) → ℚ → KPSolution → Random (ℕ × KPSolution)
  | 0, _, totalW, sol => if totalW ≤ budget then pure (0, sol) else failure
  | aN + 1, kw, totalW, sol =>
    if totalW ≤ budget then pure (aN + 1, sol)
    else do
      let r ← rand
      let drawn := kw.getD (r % (aN + 1)) (0, 0)
      withdraw rows budget aN (swapEntries kw (r % (aN + 1)) aN)
        (totalW - weightAt rows drawn) (sol.set drawn.1 none)

def repairLoop (rows : List AdRow) (budget : ℚ) (sol : KPSolution) : Random (ℕ × KPSolution) :=
  let kw := keywordsOf sol
  withdraw rows budget kw.length kw (kw.map (weightAt rows)).sum sol

def repair (rows : List AdRow) (budget : ℚ) (sol : KPSolution) : Random KPSolution := do
  let ended ← repairLoop rows budget sol
  pure ended.2

/-- `rand() % (n + 1) - 1`, where `-1` is none. -/
def randPosition (n : ℕ) : Random (Option ℕ) := do
  let r ← rand
  match r % (n + 1) with
  | 0 => pure none
  | j + 1 => pure (some j)

def randomVector (rows : List AdRow) : Random KPSolution :=
  rows.mapM fun row => randPosition row.length

/-- All vectors are repaired each time one more has been drawn; those not drawn yet are empty. -/
def initialPopulation (rows : List AdRow) (budget : ℚ) : Random Population :=
  (range populationSize).foldlM (fun population i => do
    let sol ← randomVector rows
    (population.set i sol).mapM (repair rows budget)) (replicate populationSize [])

def fitOf (rows : List AdRow) (sol : KPSolution) : ℚ := (zipWith valueOf rows sol).sum

/-- Enough vectors have the same fitness. -/
def converged (fits : List ℚ) : Bool :=
  let maxNum := (fits.map fun fit => fits.count fit).foldl max 0
  (9 / 10 : ℚ) ≤ maxNum / populationSize

/-- Stochastic universal sampling. An index that finds no vector stays zero. -/
def universalSampling (fitness : List ℚ) (fstart fstep : ℚ) : List ℕ :=
  ((range gaSize).foldl (fun (sampled : List ℕ × ℕ) (i : ℕ) =>
    match (range' sampled.2 (populationSize - sampled.2)).find? fun k =>
      fstart + i * fstep < fitness.getD k 0 with
    | some k => (sampled.1.set i k, k)
    | none => sampled) (replicate populationSize 0, 0)).1

/-- The loop from `i` down to one. -/
def shuffle : ℕ → List ℕ → Random (List ℕ)
  | 0, sp => pure sp
  | i + 1, sp => do
    let r ← rand
    shuffle i (swapEntries sp (r % (i + 1)) i)

def sampleIndices (fits : List ℚ) : Random (List ℕ) := do
  let fstep := fits.sum / gaSize
  let r ← rand
  let fstart := r / randMax * fstep
  let sp :=
    if isZero fstep then range populationSize
    else universalSampling ((fits.scanl (· + ·) 0).tail) fstart fstep
  shuffle gaSize sp

/-- The order in which a `std::priority_queue` gives the indices back: the fittest first, and
nothing is said of equal ones. -/
structure EliteOrder where
  order : List ℚ → List ℕ
  perm : ∀ fits, (order fits).Perm (range fits.length)
  sorted : ∀ fits, (order fits).Pairwise fun i j => fits.getD j 0 ≤ fits.getD i 0

/-- One such order: equal ones as they are pushed. -/
def EliteOrder.stable : EliteOrder where
  order fits := (range fits.length).insertionSort fun i j => fits.getD j 0 ≤ fits.getD i 0
  perm fits := perm_insertionSort _ _
  sorted fits := by
    have htotal : Std.Total fun i j : ℕ => fits.getD j 0 ≤ fits.getD i 0 :=
      ⟨fun i j => le_total _ _⟩
    have htrans : IsTrans ℕ fun i j : ℕ => fits.getD j 0 ≤ fits.getD i 0 :=
      ⟨fun i j k hij hjk => hjk.trans hij⟩
    exact pairwise_insertionSort _ _

/-- A double converted to `int`, and cut to the positions there are. -/
def clampPosition (n : ℕ) (x : ℚ) : Option ℕ :=
  let v := min (max (truncate x) 0) ((n : ℤ) - 1)
  if v < 0 then none else some v.toNat

/-- Both children bid, or none does. -/
def discretePosition (j : ℕ) : Random (Option ℕ × Option ℕ) := do
  let ip ← rand
  if ip % 2 ≠ 0 then pure (none, none) else pure (some j, some j)

def crossPosition (n : ℕ) (lp rp : Option ℕ) : Random (Option ℕ × Option ℕ) := do
  let random ← rand
  let p : ℚ := (random : ℚ) / randMax * (3 / 2) - 1 / 4
  match lp, rp with
  | some l, some r =>
    pure (clampPosition n (l * p + r * (1 - p) + 1 / 2),
      clampPosition n (l * (1 - p) + r * p + 1 / 2))
  | none, none => pure (none, none)
  | some l, none => discretePosition l
  | none, some r => discretePosition r

/-- The crossover rate is 85 of 100. -/
def crossover (rows : List AdRow) (lp rp : KPSolution) : Random (KPSolution × KPSolution) := do
  let myRate ← rand
  if myRate % 100 < 85 then
    let pairs ← (rows.zip (lp.zip rp)).mapM fun entry =>
      crossPosition entry.1.length entry.2.1 entry.2.2
    pure (pairs.map Prod.fst, pairs.map Prod.snd)
  else
    pure (lp, rp)

/-- One position of a vector is expected to change. -/
def mutate (rows : List AdRow) (sol : KPSolution) : Random KPSolution :=
  (rows.zip sol).mapM fun entry => do
    let r ← rand
    if r % rows.length = 0 then randPosition entry.1.length else pure entry.2

def individual (population : Population) (sp : List ℕ) (i : ℕ) : KPSolution :=
  population.getD (sp.getD i 0) []

/-- Pairs of selected vectors are crossed and mutated, the elite is taken over, and all of them
are repaired. -/
def nextGeneration (rows : List AdRow) (budget : ℚ) (sp : List ℕ) (population : Population) :
    Random Population := do
  let pairs ← (range (gaSize / 2)).mapM fun i =>
    crossover rows (individual population sp (2 * i)) (individual population sp (2 * i + 1))
  let mutated ← (pairs.flatMap fun pair => [pair.1, pair.2]).mapM (mutate rows)
  let elite := (range' gaSize elitismSize).map (individual population sp)
  (mutated ++ elite).mapM (repair rows budget)

def maxAllowedEvolutions (rows : List AdRow) : ℕ := 300 * rows.length

def minAllowedEvolutions (rows : List AdRow) : ℕ := 50 * rows.length

/-- The averages of the greatest fitness and of its square over the generations. -/
structure Averages where
  averageFit : ℚ := 0
  averageSquareFit : ℚ := 0

def Averages.next (averages : Averages) (eNum : ℕ) (curMaxFit : ℚ) : Averages :=
  if isZero curMaxFit then averages
  else
    { averageFit := ((eNum - 1) * averages.averageFit + curMaxFit) / eNum
      averageSquareFit :=
        ((eNum - 1) * averages.averageSquareFit + curMaxFit * curMaxFit) / eNum }

/-- The greatest fitness has hardly changed. -/
def Averages.steady (averages : Averages) (curMaxFit : ℚ) : Bool :=
  let variance := averages.averageSquareFit - averages.averageFit * averages.averageFit
  !isZero curMaxFit && decide (variance / (curMaxFit * curMaxFit) < 1 / 1000)

def evolve (elite : EliteOrder) (rows : List AdRow) (budget : ℚ) :
    ℕ → Averages → Population → Random Population
  | 0, _, population => pure population
  | iterNum + 1, averages, population =>
    let eNum := maxAllowedEvolutions rows - iterNum
    let fits := population.map (fitOf rows)
    if minAllowedEvolutions rows < eNum ∧ converged fits then pure population
    else do
      let sp ← sampleIndices fits
      let best := elite.order fits
      let curMaxFit := fits.getD (best.getD 0 0) 0
      let averages := averages.next eNum curMaxFit
      if minAllowedEvolutions rows < eNum ∧ averages.steady curMaxFit then pure population
      else do
        let sp := (sp.set gaSize (best.getD 0 0)).set (gaSize + 1) (best.getD 1 0)
        let population ← nextGeneration rows budget sp population
        evolve elite rows budget iterNum averages population

/-- The first vector of the greatest fitness. -/
def fittest (rows : List AdRow) (population : Population) : Option KPSolution :=
  (population.foldl (fun best sol =>
    if best.1 < fitOf rows sol then (fitOf rows sol, some sol) else best) ((-1 : ℚ), none)).2

def evolutionarySearch (elite : EliteOrder) (rows : List AdRow) (budget : ℚ) :
    Random (Option KPSolution) := do
  let population ← initialPopulation rows budget
  let population ← evolve elite rows budget (maxAllowedEvolutions rows) {} population
  pure (fittest rows population)

variable {rows : List AdRow} {budget : ℚ} {sol : KPSolution}

theorem weightAt_eq (rows : List AdRow) (k j : ℕ) :
    weightAt rows (k, j) = weightOf (rows.getD k []) (some j) := by
  rw [weightAt, weightOf, chosen, bind_some, getD_eq_getElem?_getD]
  cases (rows.getD k [])[j]? <;> rfl

theorem Valid.set_none (h : Valid rows sol) (k : ℕ) : Valid rows (sol.set k none) := by
  induction h generalizing k with
  | nil => exact nil
  | cons hposition hrest ih =>
    cases k with
    | zero => exact cons (isChoice_none _) hrest
    | succ k => exact cons hposition (ih k)

variable {k j : ℕ}

/-- A keyword that is withdrawn takes its weight with it. -/
theorem totalWeight_set_none (h : Valid rows sol) (hk : sol[k]? = some (some j)) :
    totalWeight rows (sol.set k none) = totalWeight rows sol - weightAt rows (k, j) := by
  rw [weightAt_eq]
  induction h generalizing k with
  | nil => cases hk
  | @cons row choice rows sol hposition hrest ih =>
    cases k with
    | zero =>
      obtain rfl := some.inj hk
      rw [set_cons_zero, totalWeight_cons, totalWeight_cons, weightOf_none,
        getD_cons_zero, zero_add, add_sub_cancel_left]
    | succ k =>
      rw [set_cons_succ, totalWeight_cons, totalWeight_cons, getD_cons_succ, ih hk, add_sub_assoc]

theorem totalWeight_of_none (rows : List AdRow) (h : ∀ choice ∈ sol, choice = none) :
    totalWeight rows sol = 0 := by
  induction rows generalizing sol with
  | nil => rfl
  | cons row rows ih =>
    obtain _ | ⟨choice, sol⟩ := sol
    · rfl
    · obtain ⟨rfl, hrest⟩ := forall_mem_cons.mp h
      rw [totalWeight_cons, weightOf_none, ih hrest, add_zero]

/-- The part of the list that is still drawn from has exactly the keywords with a position, each
once. -/
structure Drawable (kw : List (ℕ × ℕ)) (sol : KPSolution) : Prop where
  nodup : (kw.map Prod.fst).Nodup
  mem_iff : ∀ k j, (k, j) ∈ kw ↔ sol[k]? = some (some j)

theorem mem_keywordsOf : (k, j) ∈ keywordsOf sol ↔ sol[k]? = some (some j) := by
  rw [keywordsOf, mem_filterMap]
  constructor
  · rintro ⟨⟨choice, i⟩, hentry, hkeyword⟩
    obtain ⟨j', hchoice, hpair⟩ := map_eq_some_iff.mp hkeyword
    obtain ⟨rfl, rfl⟩ := Prod.mk.inj hpair
    rw [← hchoice]
    exact mem_zipIdx_iff_getElem?.mp hentry
  · intro hk
    exact ⟨(some j, k), mem_zipIdx_iff_getElem?.mpr hk, rfl⟩

theorem drawable_keywordsOf (sol : KPSolution) : Drawable (keywordsOf sol) sol where
  nodup := by
    have hsub : (keywordsOf sol).map Prod.fst =
        (sol.zipIdx.filter fun entry => entry.1.isSome).map Prod.snd := by
      rw [keywordsOf]
      induction sol.zipIdx with
      | nil => rfl
      | cons entry entries ih =>
        obtain ⟨choice, i⟩ := entry
        cases choice with
        | none => simpa using ih
        | some j => simpa using ih
    rw [hsub]
    refine (filter_sublist.map Prod.snd).nodup ?_
    rw [zipIdx_map_snd]
    exact nodup_range'
  mem_iff := fun _ _ => mem_keywordsOf

theorem Drawable.withdrawn {kw kw' : List (ℕ × ℕ)} (h : Drawable kw sol)
    (hperm : ((k, j) :: kw').Perm kw) : Drawable kw' (sol.set k none) := by
  have hnodup := (hperm.map Prod.fst).nodup_iff.mpr h.nodup
  obtain ⟨hk, hnodup⟩ := nodup_cons.mp hnodup
  refine ⟨hnodup, fun k' j' => ?_⟩
  by_cases hsame : k' = k
  · subst hsame
    refine iff_of_false (fun hmem => hk (mem_map.mpr ⟨(k', j'), hmem, rfl⟩)) ?_
    rw [getElem?_set_self']
    cases sol[k']? <;> simp
  · rw [getElem?_set_ne (Ne.symm hsame), ← h.mem_iff, ← hperm.mem_iff, mem_cons]
    refine (or_iff_right ?_).symm
    exact fun heq => hsame (congrArg Prod.fst heq)

/-- The loop ends within the budget, before it would draw from no keywords. -/
theorem withdraw_always (hbudget : 0 ≤ budget) {aN : ℕ} {kw : List (ℕ × ℕ)} {totalW : ℚ}
    (hlength : aN ≤ kw.length) (hvalid : Valid rows sol) (hkw : Drawable (kw.take aN) sol)
    (htotal : totalW = totalWeight rows sol) :
    Always (withdraw rows budget aN kw totalW sol) fun ended => KPFeasible rows budget ended.2 := by
  induction aN generalizing kw totalW sol with
  | zero =>
    have hnone : ∀ choice ∈ sol, choice = none := by
      intro choice hchoice
      obtain ⟨k, hk⟩ := mem_iff_getElem?.mp hchoice
      cases choice with
      | none => rfl
      | some j => exact nomatch (hkw.mem_iff k j).mpr hk
    have hzero : totalW = 0 := htotal.trans (totalWeight_of_none rows hnone)
    rw [withdraw, if_pos (hzero.trans_le hbudget)]
    exact always_pure ⟨hvalid, htotal ▸ hzero.trans_le hbudget⟩
  | succ aN ih =>
    refine always_ite (fun hle => ?met) (fun _ => always_rand_bind fun r => ?draw)
    case met => exact always_pure ⟨hvalid, htotal ▸ hle⟩
    case draw =>
      have hr : r % (aN + 1) ≤ aN := Nat.lt_succ_iff.mp (Nat.mod_lt r (Nat.succ_pos aN))
      have hget : kw[r % (aN + 1)]? = some (kw.getD (r % (aN + 1)) (0, 0)) := by
        rw [getD_eq_getElem?_getD, getElem?_eq_getElem (by omega), Option.getD_some]
      generalize kw.getD (r % (aN + 1)) (0, 0) = drawn at hget ⊢
      obtain ⟨k, j⟩ := drawn
      have hperm := perm_take_swapEntries hr hlength hget
      have hk : sol[k]? = some (some j) :=
        (hkw.mem_iff k j).mp (hperm.subset mem_cons_self)
      refine ih ?_ (hvalid.set_none k) (hkw.withdrawn hperm) ?_
      · rw [length_swapEntries]
        omega
      · rw [htotal, totalWeight_set_none hvalid hk]

/-- The weight of the keywords with a position is that of the vector. -/
theorem sum_weightAt (done : List AdRow) (h : Valid rows sol) :
    (((sol.zipIdx done.length).filterMap fun entry =>
      entry.1.map fun j => (entry.2, j)).map (weightAt (done ++ rows))).sum =
        totalWeight rows sol := by
  induction h generalizing done with
  | nil => rfl
  | @cons row choice rows sol _ _ ih =>
    have htail := ih (done ++ [row])
    rw [length_append, length_singleton, append_assoc, singleton_append] at htail
    rw [zipIdx_cons, totalWeight_cons, ← htail]
    cases choice with
    | none => rw [filterMap_cons_none rfl, weightOf_none, zero_add]
    | some j =>
      have hrow : (done ++ row :: rows).getD done.length [] = row := by
        rw [getD_eq_getElem?_getD, getElem?_append_right le_rfl, Nat.sub_self]
        rfl
      rw [filterMap_cons]
      dsimp only [map_some]
      rw [map_cons, sum_cons, weightAt_eq, hrow]

theorem repair_valid (hbudget : 0 ≤ budget) (hvalid : Valid rows sol) :
    Always (repair rows budget sol) (KPFeasible rows budget) := by
  have hkw : Drawable ((keywordsOf sol).take (keywordsOf sol).length) sol := by
    rw [take_length]
    exact drawable_keywordsOf sol
  refine (withdraw_always hbudget le_rfl hvalid hkw (sum_weightAt [] hvalid)).bind ?_
  exact fun ended hended => always_pure hended

/-- A vector that has not been drawn yet stays empty. -/
theorem repair_nil (rows : List AdRow) (hbudget : 0 ≤ budget) :
    Always (repair rows budget []) (· = []) := by
  have hloop : Always (repairLoop rows budget []) fun ended => ended.2 = [] :=
    always_ite (fun _ => always_pure rfl) fun hlt => absurd hbudget hlt
  exact hloop.bind fun ended hended => always_pure hended

theorem repair_always (hbudget : 0 ≤ budget) (h : Valid rows sol ∨ sol = []) :
    Always (repair rows budget sol) fun repaired =>
      (sol = [] → repaired = []) ∧ (Valid rows sol → KPFeasible rows budget repaired) := by
  by_cases hsol : sol = []
  · subst hsol
    refine (repair_nil rows hbudget).mono fun repaired hrepaired => ⟨fun _ => hrepaired, ?_⟩
    rintro ⟨⟩
    rw [hrepaired]
    exact ⟨nil, hbudget⟩
  · have hvalid := h.resolve_right hsol
    exact (repair_valid hbudget hvalid).mono fun repaired hrepaired =>
      ⟨fun hnil => absurd hnil hsol, fun _ => hrepaired⟩

variable {population : Population}

theorem repair_all (hbudget : 0 ≤ budget) (hvalid : ∀ sol ∈ population, Valid rows sol) :
    Always (population.mapM (repair rows budget)) fun repaired =>
      repaired.length = population.length ∧ ∀ sol ∈ repaired, KPFeasible rows budget sol :=
  always_mapM_all fun sol hsol => repair_valid hbudget (hvalid sol hsol)

theorem randPosition_always (row : AdRow) : Always (randPosition row.length) (IsChoice row) := by
  refine always_rand_bind fun r => ?_
  have hlt : r % (row.length + 1) < row.length + 1 := Nat.mod_lt r (Nat.succ_pos _)
  split
  · exact always_pure (isChoice_none row)
  · rename_i j hj
    refine always_pure fun j' hj' => ?_
    obtain rfl := some.inj hj'
    omega

theorem randomVector_always (rows : List AdRow) : Always (randomVector rows) (Valid rows) :=
  always_mapM fun row _ => randPosition_always row

theorem clampPosition_isPosition (row : AdRow) (x : ℚ) :
    IsChoice row (clampPosition row.length x) := by
  intro j hj
  rw [clampPosition] at hj
  split at hj
  · exact nomatch hj
  · obtain rfl := some.inj hj
    omega

variable {row : AdRow}

theorem discretePosition_always {j : ℕ} (hj : IsChoice row (some j)) :
    Always (discretePosition j) fun pair => IsChoice row pair.1 ∧ IsChoice row pair.2 := by
  refine always_rand_bind fun ip => always_ite (fun _ => ?_) fun _ => ?_
  · exact always_pure ⟨isChoice_none row, isChoice_none row⟩
  · exact always_pure ⟨hj, hj⟩

theorem crossPosition_always {lp rp : Option ℕ} (hlp : IsChoice row lp)
    (hrp : IsChoice row rp) : Always (crossPosition row.length lp rp) fun pair =>
      IsChoice row pair.1 ∧ IsChoice row pair.2 := by
  refine always_rand_bind fun random => ?_
  rcases lp with _ | l
  · rcases rp with _ | r
    · exact always_pure ⟨isChoice_none row, isChoice_none row⟩
    · exact discretePosition_always hrp
  · rcases rp with _ | r
    · exact discretePosition_always hlp
    · exact always_pure ⟨clampPosition_isPosition row _, clampPosition_isPosition row _⟩

theorem Valid.isPosition (h : Valid rows sol) {i : ℕ} {choice : Option ℕ}
    (hrow : rows[i]? = some row) (hchoice : sol[i]? = some choice) : IsChoice row choice := by
  have hentry : (rows.zip sol)[i]? = some (row, choice) :=
    getElem?_zip_eq_some.mpr ⟨hrow, hchoice⟩
  exact (forall₂_iff_zip.mp h).2 (mem_of_getElem? hentry)

/-- The vectors written from pairs of positions. -/
theorem valid_of_pairs {lp rp : KPSolution} {pairs : List (Option ℕ × Option ℕ)}
    (hlp : Valid rows lp) (hrp : Valid rows rp)
    (h : List.Forall₂ (fun entry pair => IsChoice entry.1 pair.1 ∧ IsChoice entry.1 pair.2)
      (rows.zip (lp.zip rp)) pairs) :
    Valid rows (pairs.map Prod.fst) ∧ Valid rows (pairs.map Prod.snd) := by
  induction hlp generalizing rp pairs with
  | nil =>
    cases h
    exact ⟨nil, nil⟩
  | cons _ _ ih =>
    cases hrp with
    | cons _ hrp =>
      cases h with
      | cons hpair h =>
        obtain ⟨hfst, hsnd⟩ := ih hrp h
        exact ⟨cons hpair.1 hfst, cons hpair.2 hsnd⟩

theorem crossover_always {lp rp : KPSolution} (hlp : Valid rows lp) (hrp : Valid rows rp) :
    Always (crossover rows lp rp) fun pair => Valid rows pair.1 ∧ Valid rows pair.2 := by
  refine always_rand_bind fun myRate => always_ite (fun _ => ?_) fun _ => always_pure ⟨hlp, hrp⟩
  have hpairs : Always ((rows.zip (lp.zip rp)).mapM fun entry =>
      crossPosition entry.1.length entry.2.1 entry.2.2)
      (List.Forall₂ (fun entry pair => IsChoice entry.1 pair.1 ∧ IsChoice entry.1 pair.2)
        (rows.zip (lp.zip rp))) := by
    refine always_mapM fun entry hentry => ?_
    obtain ⟨i, hi⟩ := mem_iff_getElem?.mp hentry
    obtain ⟨hrow, hpair⟩ := getElem?_zip_eq_some.mp hi
    obtain ⟨hl, hr⟩ := getElem?_zip_eq_some.mp hpair
    exact crossPosition_always (hlp.isPosition hrow hl) (hrp.isPosition hrow hr)
  exact hpairs.bind fun pairs h => always_pure (valid_of_pairs hlp hrp h)

theorem mutate_always (h : Valid rows sol) : Always (mutate rows sol) (Valid rows) := by
  have hchoices : Always (mutate rows sol)
      (List.Forall₂ (fun entry choice => IsChoice entry.1 choice) (rows.zip sol)) := by
    refine always_mapM fun entry hentry => always_rand_bind fun r => ?_
    refine always_ite (fun _ => randPosition_always entry.1) fun _ => always_pure ?_
    obtain ⟨i, hi⟩ := mem_iff_getElem?.mp hentry
    obtain ⟨hrow, hchoice⟩ := getElem?_zip_eq_some.mp hi
    exact h.isPosition hrow hchoice
  refine hchoices.mono fun mutated hmutated => ?_
  have hrows : (rows.zip sol).map Prod.fst = rows :=
    map_fst_zip h.length_eq.le
  rw [← hrows]
  exact forall₂_map_left_iff.mpr hmutated

/-- Places of the population. -/
def Indices (sp : List ℕ) : Prop := ∀ i ∈ sp, i < populationSize

variable {sp : List ℕ}

theorem Indices.getD (h : Indices sp) (i : ℕ) : sp.getD i 0 < populationSize := by
  rw [getD_eq_getElem?_getD]
  rcases hi : sp[i]? with _ | k
  · exact Nat.succ_pos _
  · exact h k (mem_of_getElem? hi)

theorem Indices.set (h : Indices sp) {k : ℕ} (hk : k < populationSize) (i : ℕ) :
    Indices (sp.set i k) := by
  intro j hj
  rcases mem_or_eq_of_mem_set hj with hj | rfl
  · exact h j hj
  · exact hk

theorem universalSampling_indices (fitness : List ℚ) (fstart fstep : ℚ) :
    Indices (universalSampling fitness fstart fstep) := by
  refine (foldlRecOn (motive := fun sampled : List ℕ × ℕ =>
    Indices sampled.1 ∧ sampled.2 ≤ populationSize) _ _ ⟨fun i hi => ?start, Nat.zero_le _⟩
    fun sampled hsampled i _ => ?step).1
  case start =>
    rw [eq_of_mem_replicate hi]
    exact Nat.succ_pos _
  case step =>
    obtain ⟨hindices, hle⟩ := hsampled
    split
    · rename_i k hk
      have hmem := mem_of_find?_eq_some hk
      have hlt : k < populationSize := by
        have := (mem_range'_1.mp hmem).2
        omega
      exact ⟨hindices.set hlt i, hlt.le⟩
    · exact ⟨hindices, hle⟩

theorem shuffle_always (i : ℕ) (h : Indices sp) : Always (shuffle i sp) Indices := by
  induction i generalizing sp with
  | zero => exact always_pure h
  | succ i ih =>
    exact always_rand_bind fun r => ih fun k hk => h k (mem_of_mem_swapEntries hk)

theorem sampleIndices_always (fits : List ℚ) : Always (sampleIndices fits) Indices := by
  refine always_rand_bind fun r => shuffle_always gaSize ?_
  split
  · exact fun i hi => mem_range.mp hi
  · exact universalSampling_indices _ _ _

variable (elite : EliteOrder)

theorem EliteOrder.getD_lt {fits : List ℚ} (h : fits.length = populationSize) (i : ℕ) :
    (elite.order fits).getD i 0 < populationSize := by
  refine Indices.getD (fun k hk => ?_) i
  rw [← h]
  exact mem_range.mp ((elite.perm fits).subset hk)

/-- As many vectors as there should be, all of them within the budget. -/
structure Sound (rows : List AdRow) (budget : ℚ) (population : Population) : Prop where
  length_eq : population.length = populationSize
  feasible : ∀ sol ∈ population, KPFeasible rows budget sol

theorem Sound.individual_valid (h : Sound rows budget population) (hsp : Indices sp) (i : ℕ) :
    Valid rows (individual population sp i) := by
  have hlt : sp.getD i 0 < population.length := (hsp.getD i).trans_eq h.length_eq.symm
  rw [individual, getD_eq_getElem?_getD, getElem?_eq_getElem hlt]
  exact (h.feasible _ (getElem_mem hlt)).valid

theorem nextGeneration_always (hbudget : 0 ≤ budget) (h : Sound rows budget population)
    (hsp : Indices sp) : Always (nextGeneration rows budget sp population) (Sound rows budget) := by
  have hcrossed : Always ((range (gaSize / 2)).mapM fun i =>
      crossover rows (individual population sp (2 * i)) (individual population sp (2 * i + 1)))
      fun pairs => pairs.length = (range (gaSize / 2)).length ∧
        ∀ pair ∈ pairs, Valid rows pair.1 ∧ Valid rows pair.2 :=
    always_mapM_all fun i _ =>
      crossover_always (h.individual_valid hsp _) (h.individual_valid hsp _)
  refine hcrossed.bind fun pairs ⟨hpairsLength, hpairs⟩ => ?_
  have hchildren : ∀ sol ∈ pairs.flatMap fun pair => [pair.1, pair.2], Valid rows sol := by
    intro sol hsol
    obtain ⟨pair, hpair, hmem⟩ := mem_flatMap.mp hsol
    obtain ⟨hfst, hsnd⟩ := hpairs pair hpair
    rcases mem_cons.mp hmem with rfl | hmem
    · exact hfst
    · rw [mem_singleton.mp hmem]
      exact hsnd
  have hmutated := always_mapM_all fun sol hsol => mutate_always (hchildren sol hsol)
  refine hmutated.bind fun mutated ⟨hmutatedLength, hmutated⟩ => ?_
  have hlength : (mutated ++ (range' gaSize elitismSize).map
      (individual population sp)).length = populationSize := by
    have htwo : (fun pair : KPSolution × KPSolution => [pair.1, pair.2].length) =
        fun _ => 2 := rfl
    rw [length_flatMap, htwo, map_const', hpairsLength] at hmutatedLength
    rw [length_append, hmutatedLength, length_map]
    rfl
  refine (repair_all hbudget fun sol hsol => ?_).mono fun repaired hrepaired =>
    ⟨hrepaired.1.trans hlength, hrepaired.2⟩
  rcases mem_append.mp hsol with hsol | hsol
  · exact hmutated sol hsol
  · obtain ⟨i, -, rfl⟩ := mem_map.mp hsol
    exact h.individual_valid hsp i

theorem evolve_always (hbudget : 0 ≤ budget) (iterNum : ℕ) (averages : Averages)
    (h : Sound rows budget population) :
    Always (evolve elite rows budget iterNum averages population) (Sound rows budget) := by
  induction iterNum generalizing averages population with
  | zero => exact always_pure h
  | succ iterNum ih =>
    refine always_ite (fun _ => always_pure h) fun _ => ?_
    refine (sampleIndices_always _).bind fun sp hsp => ?_
    refine always_ite (fun _ => always_pure h) fun _ => ?_
    have hfits : (population.map (fitOf rows)).length = populationSize := by
      rw [length_map, h.length_eq]
    have hselected := (hsp.set (elite.getD_lt hfits 0) gaSize).set (elite.getD_lt hfits 1)
      (gaSize + 1)
    exact (nextGeneration_always hbudget h hselected).bind fun population hnext => ih _ hnext

/-- Of the vectors not drawn yet nothing but that they are empty is needed. -/
structure Drawn (rows : List AdRow) (budget : ℚ) (passed : List ℕ) (population : Population) :
    Prop where
  length_eq : population.length = populationSize
  feasible : ∀ k sol, population[k]? = some sol → k < passed.length → KPFeasible rows budget sol
  empty : ∀ k sol, population[k]? = some sol → passed.length ≤ k → sol = []

/-- With one vector more the drawn ones are valid and the others empty. -/
theorem Drawn.set {passed : List ℕ} (h : Drawn rows budget passed population) {drawn : KPSolution}
    (hvalid : Valid rows drawn) {k : ℕ} (hk : (population.set passed.length drawn)[k]? = some sol) :
    (k ≤ passed.length → Valid rows sol) ∧ (passed.length < k → sol = []) := by
  rcases Nat.lt_trichotomy k passed.length with hlt | rfl | hgt
  · rw [getElem?_set_ne (Nat.ne_of_gt hlt)] at hk
    exact ⟨fun _ => (h.feasible k sol hk hlt).valid, fun hgt => absurd hgt (Nat.lt_asymm hlt)⟩
  · rw [getElem?_set_self'] at hk
    obtain ⟨_, -, rfl⟩ := map_eq_some_iff.mp hk
    exact ⟨fun _ => hvalid, fun hlt => absurd hlt (Nat.lt_irrefl _)⟩
  · rw [getElem?_set_ne (Nat.ne_of_lt hgt)] at hk
    exact ⟨fun hle => absurd hgt (Nat.not_lt.mpr hle), fun _ => h.empty k sol hk hgt.le⟩

theorem Drawn.repair_all (hbudget : 0 ≤ budget) {passed : List ℕ}
    (h : Drawn rows budget passed population) {drawn : KPSolution} (hvalid : Valid rows drawn) :
    Always ((population.set passed.length drawn).mapM (repair rows budget))
      (Drawn rows budget (passed ++ [passed.length])) := by
  have hrepaired : Always ((population.set passed.length drawn).mapM (repair rows budget))
      (List.Forall₂ (fun sol repaired => (sol = [] → repaired = []) ∧
        (Valid rows sol → KPFeasible rows budget repaired))
        (population.set passed.length drawn)) := by
    refine always_mapM fun sol hsol => repair_always hbudget ?_
    obtain ⟨k, hk⟩ := mem_iff_getElem?.mp hsol
    rcases le_or_gt k passed.length with hle | hgt
    · exact Or.inl ((h.set hvalid hk).1 hle)
    · exact Or.inr ((h.set hvalid hk).2 hgt)
  refine hrepaired.mono fun repaired hrepaired => ?_
  have hat : ∀ (k : ℕ) (sol : KPSolution), repaired[k]? = some sol → ∃ before : KPSolution,
      (population.set passed.length drawn)[k]? = some before ∧ (before = [] → sol = []) ∧
        (Valid rows before → KPFeasible rows budget sol) := by
    intro k sol hk
    obtain ⟨hlt, rfl⟩ := List.getElem?_eq_some_iff.mp hk
    have hlt' : k < (population.set passed.length drawn).length := hrepaired.length_eq ▸ hlt
    exact ⟨_, getElem?_eq_getElem hlt', (forall₂_iff_get.mp hrepaired).2 k hlt' hlt⟩
  refine ⟨?length, fun k sol hk hlt => ?feasible, fun k sol hk hle => ?empty⟩
  case length => rw [← hrepaired.length_eq, length_set, h.length_eq]
  case feasible =>
    obtain ⟨before, hbefore, -, himp⟩ := hat k sol hk
    rw [length_append] at hlt
    exact himp ((h.set hvalid hbefore).1 (Nat.lt_succ_iff.mp hlt))
  case empty =>
    obtain ⟨before, hbefore, himp, -⟩ := hat k sol hk
    rw [length_append] at hle
    exact himp ((h.set hvalid hbefore).2 hle)

theorem initialPopulation_always (rows : List AdRow) (hbudget : 0 ≤ budget) :
    Always (initialPopulation rows budget) (Sound rows budget) := by
  have hdrawn : Always (initialPopulation rows budget)
      (Drawn rows budget (range populationSize)) := by
    refine always_foldlM (fun passed i left population hrange hpopulation => ?step) ?start
    case start =>
      refine ⟨length_replicate, fun k sol _ hlt => absurd hlt (Nat.not_lt_zero _), ?_⟩
      intro k sol hsol _
      exact eq_of_mem_replicate (mem_of_getElem? hsol)
    case step =>
      obtain rfl : passed.length = i := by
        have hget : (List.range populationSize)[passed.length]? = some i := by
          rw [hrange, getElem?_append_right le_rfl, Nat.sub_self]
          rfl
        obtain ⟨_, hget⟩ := List.getElem?_eq_some_iff.mp hget
        rw [← hget, getElem_range]
      exact (randomVector_always rows).bind fun drawn hvalid =>
        hpopulation.repair_all hbudget hvalid
  refine hdrawn.mono fun population h => ⟨h.length_eq, fun sol hsol => ?_⟩
  obtain ⟨k, hk⟩ := mem_iff_getElem?.mp hsol
  refine h.feasible k sol hk ?_
  rw [length_range, ← h.length_eq]
  exact (List.getElem?_eq_some_iff.mp hk).1

/-- What is returned is one of the vectors, and there is one if the fitness is not negative. -/
theorem fittest_spec (rows : List AdRow) (population : Population) :
    (∀ sol, fittest rows population = some sol → sol ∈ population) ∧
      (population ≠ [] → (∀ sol ∈ population, 0 ≤ fitOf rows sol) →
        (fittest rows population).isSome) := by
  have hbest : KeepsBest {c | ∃ sol ∈ population,
      c ∈ ({(fitOf rows sol, some sol)} : Set (ℚ × Option KPSolution))} (-1, none)
      (population.foldl (fun best sol =>
        if best.1 < fitOf rows sol then (fitOf rows sol, some sol) else best) (-1, none)) :=
    .foldl (fun sol _ best => .compare best (fitOf rows sol, some sol)) (-1, none)
  rw [fittest]
  refine ⟨fun sol hsol => ?_, fun hne hnonneg => ?_⟩
  · rcases hbest.eq_or_met with heq | ⟨other, hother, heq⟩
    · rw [heq] at hsol
      exact nomatch hsol
    · rw [Set.mem_singleton_iff.mp heq] at hsol
      exact some.inj hsol ▸ hother
  · obtain ⟨sol, hsol⟩ := exists_mem_of_ne_nil population hne
    have hle := (hnonneg sol hsol).trans
      (hbest.le_of_met (fitOf rows sol, some sol) ⟨sol, hsol, rfl⟩)
    rcases hbest.eq_or_met with heq | ⟨other, -, heq⟩
    · rw [heq] at hle
      cases hle
    · rw [Set.mem_singleton_iff.mp heq]
      rfl

theorem fitOf_nonneg {rows : List AdRow} (h : ∀ row ∈ rows, ∀ position ∈ row, 0 ≤ position.value)
    (sol : KPSolution) : 0 ≤ fitOf rows sol := by
  refine sum_nonneg fun value hvalue => ?_
  obtain ⟨i, hi⟩ := mem_iff_getElem?.mp hvalue
  obtain ⟨row, choice, hrow, -, rfl⟩ := getElem?_zipWith_eq_some.mp hi
  rw [valueOf, chosen]
  rcases hposition : choice.bind (row[·]?) with _ | position
  · exact le_rfl
  · obtain ⟨j, -, hj⟩ := bind_eq_some_iff.mp hposition
    exact h row (mem_of_getElem? hrow) position (mem_of_getElem? hj)

/-- The search never fails, and a vector that it returns is within the budget. It returns one
if no value is negative. -/
theorem evolutionarySearch_always (rows : List AdRow) (hbudget : 0 ≤ budget) :
    Always (evolutionarySearch elite rows budget) fun found =>
      (∀ sol, found = some sol → KPFeasible rows budget sol) ∧
        ((∀ row ∈ rows, ∀ position ∈ row, 0 ≤ position.value) → found.isSome) := by
  refine (initialPopulation_always rows hbudget).bind fun population h => ?_
  refine (evolve_always elite hbudget _ _ h).bind fun population h => always_pure ?_
  obtain ⟨hmem, hsome⟩ := fittest_spec rows population
  refine ⟨fun sol hsol => h.feasible sol (hmem sol hsol), fun hvalues => hsome ?_ ?_⟩
  · intro hnil
    have hlength := h.length_eq
    rw [hnil] at hlength
    cases hlength
  · exact fun sol _ => fitOf_nonneg hvalues sol

end AdDelivery.Sponsored.Genetic
