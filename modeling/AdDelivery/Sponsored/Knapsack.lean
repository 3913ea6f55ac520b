import AdDelivery.Core.TopK
import Mathlib.Data.List.Forall2
import Mathlib.Data.List.Induction
import Mathlib.Tactic.Linarith

/-!
# Two knapsack solvers

Where the budget and the number of keywords are small, the genetic strategy solves its knapsack
exactly: each keyword takes at most one of its ad positions, the costs must fit the budget, and the
clicks are to be as many as possible. One solver tries every selection, the other fills a table by
budgets in place and reads the selection back from the choices it wrote down.
-/

namespace AdDelivery.Sponsored

open List List Option

/-- One ad position of a keyword: the entries of `W` and `V` at one place. -/
structure KPItem (ω : Type) where
  weight : ω
  value : ℚ

/-- The positions of one keyword. -/
abbrev KPRow (ω : Type) := List (KPItem ω)

/-- The position taken for each keyword, none for `-1`. -/
abbrev KPSolution := List (Option ℕ)

/-- Weights of which a whole budget has some left, and the cell of the table for that. -/
class KPWeight (ω : Type) extends LE ω, Add ω, Sub ω, Zero ω, NatCast ω where
  cell : ω → ℕ
  decidableLE : DecidableLE ω

instance KPWeight.instDecidableLE (ω : Type) [KPWeight ω] : DecidableLE ω := KPWeight.decidableLE

instance : KPWeight ℕ where
  cell left := left
  decidableLE := inferInstance

section Solvers

variable {ω : Type} [KPWeight ω] (rows : List (KPRow ω)) (budget : ℕ) (row : KPRow ω)
  (choice : Option ℕ)

/-- Try every choice for the keywords that are left, after those of `curSol`. -/
def enumKPRecursive : List (KPRow ω) → KPSolution → ω → ℚ → ℚ × KPSolution → ℚ × KPSolution
  | [], curSol, _, curValue, best => if best.1 < curValue then (curValue, curSol) else best
  | row :: rows, curSol, leftB, curValue, best =>
    row.zipIdx.foldl (fun best entry =>
      if entry.1.weight ≤ leftB then
        enumKPRecursive rows (curSol ++ [some entry.2]) (leftB - entry.1.weight)
          (curValue + entry.1.value) best
      else best)
      (enumKPRecursive rows (curSol ++ [none]) leftB curValue best)

def enumKP : KPSolution :=
  (enumKPRecursive rows [] (budget : ω) 0 (0, rows.map fun _ => none)).2

/-- The best value at the budget `v`, with the choice for one keyword that gives it. -/
def bestChoice (values : List ℚ) (row : KPRow ω) (v : ℕ) : ℚ × Option ℕ :=
  row.zipIdx.foldl (fun best entry =>
    if entry.1.weight ≤ (v : ω) then
      let myF := values.getD (KPWeight.cell ((v : ω) - entry.1.weight)) 0 + entry.1.value
      if best.1 < myF then (myF, some entry.2) else best
    else best)
    (values.getD v 0, none)

/-- Overwrite one cell of the value table and write the choice for it. -/
def sweepCell (tables : List ℚ × List (Option ℕ)) (v : ℕ) : List ℚ × List (Option ℕ) :=
  let best := bestChoice tables.1 row v
  (tables.1.set v best.1, tables.2.set v best.2)

/-- One keyword: sweep over the budgets from the whole budget down to zero. -/
def sweepRow (values : List ℚ) (row : KPRow ω) : List ℚ × List (Option ℕ) :=
  (range (budget + 1)).reverse.foldl (sweepCell row)
    (values, replicate (budget + 1) none)

/-- The value table and, for each keyword, the choices written for it. -/
def fillTables (rows : List (KPRow ω)) : List ℚ × List (KPRow ω × List (Option ℕ)) :=
  rows.foldl (fun tables row =>
    let swept := sweepRow budget tables.1 row
    (swept.1, tables.2 ++ [(row, swept.2)]))
    (replicate (budget + 1) 0, [])

/-- Read the choice of one keyword at the budget that is left. -/
def readChoice (left : ℕ × KPSolution) (entry : KPRow ω × List (Option ℕ)) : ℕ × KPSolution :=
  match entry.2.getD left.1 none with
  | none => (left.1, none :: left.2)
  | some j => (KPWeight.cell ((left.1 : ω) - (entry.1.getD j ⟨0, 0⟩).weight), some j :: left.2)

/-- Read the choices back, from the last keyword to the first. -/
def constructSolution (choices : List (KPRow ω × List (Option ℕ))) : KPSolution :=
  (choices.reverse.foldl readChoice (budget, [])).2

def dpKP : KPSolution :=
  constructSolution budget (fillTables budget rows).2

/-- The position that a choice takes, if it is one of the keyword's. -/
def chosen : Option (KPItem ω) := choice.bind (row[·]?)

def weightOf : ω :=
  ((chosen row choice).map KPItem.weight).getD 0

def valueOf : ℚ :=
  ((chosen row choice).map KPItem.value).getD 0

def totalWeight (sol : KPSolution) : ω := (zipWith weightOf rows sol).sum

def totalValue (sol : KPSolution) : ℚ := (zipWith valueOf rows sol).sum

/-- The choice is none or a position of the keyword. -/
def IsChoice : Prop := ∀ j, choice = some j → j < row.length

/-- At most one valid position for each keyword, within the budget. -/
structure KPFeasible (rows : List (KPRow ω)) (budget : ω) (sol : KPSolution) : Prop where
  valid : List.Forall₂ IsChoice rows sol
  weight_le : totalWeight rows sol ≤ budget

structure KPOptimal (rows : List (KPRow ω)) (budget : ω) (sol : KPSolution) : Prop extends
    KPFeasible rows budget sol where
  value_le : ∀ other, KPFeasible rows budget other → totalValue rows other ≤ totalValue rows sol

variable {rows row}

@[simp] theorem weightOf_none (row : KPRow ω) : weightOf row none = 0 := rfl

theorem weightOf_some {item : KPItem ω} {j : ℕ} (hitem : row[j]? = some item) :
    weightOf row (some j) = item.weight := by
  rw [weightOf, chosen, bind_some, hitem, map_some, getD_some]

theorem totalWeight_cons (row : KPRow ω) (rows : List (KPRow ω)) (choice : Option ℕ)
    (sol : KPSolution) : totalWeight (row :: rows) (choice :: sol) =
      weightOf row choice + totalWeight rows sol := sum_cons

end Solvers

section Choices

variable {ω : Type} {row : KPRow ω} {item : KPItem ω} {j : ℕ}

@[simp] theorem valueOf_none (row : KPRow ω) : valueOf row none = 0 := rfl

theorem valueOf_some (hitem : row[j]? = some item) : valueOf row (some j) = item.value := by
  rw [valueOf, chosen, bind_some, hitem, map_some, getD_some]

theorem isChoice_none (row : KPRow ω) : IsChoice row none := fun _ h => by cases h

theorem isChoice_some (hitem : row[j]? = some item) : IsChoice row (some j) := by
  rintro _ ⟨⟩
  exact (List.getElem?_eq_some_iff.mp hitem).1

/-- A choice takes nothing or the item at its position. -/
theorem IsChoice.eq_none_or {choice : Option ℕ} (h : IsChoice row choice) :
    choice = none ∨ ∃ j item, choice = some j ∧ row[j]? = some item := by
  cases choice with
  | none => exact .inl rfl
  | some j => exact .inr ⟨j, _, rfl, getElem?_eq_getElem (h j rfl)⟩

end Choices

section Rows

variable {row : KPRow ℕ} {rows : List (KPRow ℕ)} {budget : ℕ} {sol : KPSolution}

theorem kpFeasible_nil_iff : KPFeasible [] budget sol ↔ sol = [] := by
  constructor
  · exact fun h => forall₂_nil_left_iff.mp h.valid
  · rintro rfl
    exact ⟨.nil, Nat.zero_le _⟩

/-- A selection for one keyword and the rest. -/
theorem kpFeasible_cons_iff :
    KPFeasible (row :: rows) budget sol ↔ ∃ choice rest, sol = choice :: rest ∧
      IsChoice row choice ∧ weightOf row choice ≤ budget ∧
      KPFeasible rows (budget - weightOf row choice) rest := by
  constructor
  · rintro ⟨hvalid, hweight⟩
    obtain ⟨choice, rest, hchoice, hrest, rfl⟩ := forall₂_cons_left_iff.mp hvalid
    rw [totalWeight_cons] at hweight
    exact ⟨choice, rest, rfl, hchoice, by omega, hrest, by omega⟩
  · rintro ⟨choice, rest, rfl, hchoice, hle, hvalid, hweight⟩
    refine ⟨.cons hchoice hvalid, ?_⟩
    rw [totalWeight_cons]
    omega

theorem totalValue_cons (row : KPRow ℕ) (rows : List (KPRow ℕ)) (choice : Option ℕ) (rest : KPSolution) :
    totalValue (row :: rows) (choice :: rest) = valueOf row choice + totalValue rows rest := by
  rw [totalValue, zipWith_cons_cons, sum_cons, totalValue]

/-- A selection for the keywords before the last one and for the last. -/
theorem kpFeasible_concat_iff :
    KPFeasible (rows ++ [row]) budget sol ↔ ∃ rest choice, sol = rest ++ [choice] ∧
      IsChoice row choice ∧ weightOf row choice ≤ budget ∧
      KPFeasible rows (budget - weightOf row choice) rest := by
  have htotal : ∀ (rest : KPSolution) (choice : Option ℕ), rows.length = rest.length →
      totalWeight (rows ++ [row]) (rest ++ [choice]) =
        totalWeight rows rest + weightOf row choice := by
    intro rest choice hlength
    rw [totalWeight, zipWith_append hlength, totalWeight]
    simp
  constructor
  · rintro ⟨hvalid, hweight⟩
    have hreverse := forall₂_reverse_iff.mpr hvalid
    rw [reverse_append, reverse_singleton] at hreverse
    obtain ⟨choice, rest, hchoice, hrest, hsol⟩ := forall₂_cons_left_iff.mp hreverse
    obtain rfl : sol = rest.reverse ++ [choice] := by
      rw [← reverse_reverse sol, hsol, reverse_cons]
    have hrest' : List.Forall₂ IsChoice rows rest.reverse := by
      rw [← reverse_reverse rows]
      exact forall₂_reverse_iff.mpr hrest
    rw [htotal _ _ hrest'.length_eq] at hweight
    exact ⟨rest.reverse, choice, rfl, hchoice, by omega, hrest', by omega⟩
  · rintro ⟨rest, choice, rfl, hchoice, hle, hvalid, hweight⟩
    refine ⟨rel_append hvalid (.cons hchoice .nil), ?_⟩
    rw [htotal _ _ hvalid.length_eq]
    omega

theorem totalValue_concat {rest : KPSolution} (hlength : rows.length = rest.length) (row : KPRow ℕ)
    (choice : Option ℕ) :
    totalValue (rows ++ [row]) (rest ++ [choice]) = totalValue rows rest + valueOf row choice := by
  rw [totalValue, zipWith_append hlength, totalValue]
  simp

end Rows

/-- What the recursion meets: the selections for the keywords that are left, after the choices
made so far. -/
def metByEnum (rows : List (KPRow ℕ)) (curSol : KPSolution) (leftB : ℕ) (curValue : ℚ) :
    Set (ℚ × KPSolution) :=
  {c | ∃ sol, KPFeasible rows leftB sol ∧ c = (curValue + totalValue rows sol, curSol ++ sol)}

/-- The selections for a keyword and the rest: those without the keyword, and those with one of its
items that fits. -/
theorem metByEnum_cons (row : KPRow ℕ) (rows : List (KPRow ℕ)) (curSol : KPSolution) (leftB : ℕ)
    (curValue : ℚ) : metByEnum (row :: rows) curSol leftB curValue =
      metByEnum rows (curSol ++ [none]) leftB curValue ∪
        {c | ∃ entry ∈ row.zipIdx, c ∈ {c | entry.1.weight ≤ leftB ∧
          c ∈ metByEnum rows (curSol ++ [some entry.2]) (leftB - entry.1.weight)
            (curValue + entry.1.value)}} := by
  ext c
  constructor
  · rintro ⟨sol, hsol, rfl⟩
    obtain ⟨choice, rest, rfl, hchoice, hle, hrest⟩ := kpFeasible_cons_iff.mp hsol
    rw [totalValue_cons]
    rcases hchoice.eq_none_or with rfl | ⟨j, item, rfl, hitem⟩
    · refine .inl ⟨rest, hrest, ?_⟩
      rw [valueOf_none, zero_add, append_assoc, singleton_append]
    · rw [weightOf_some hitem] at hle hrest
      refine .inr ⟨(item, j), mem_zipIdx_iff_getElem?.mpr hitem, hle, rest, hrest, ?_⟩
      rw [valueOf_some hitem, append_assoc, singleton_append, add_assoc]
  · rintro (⟨rest, hrest, rfl⟩ | ⟨⟨item, j⟩, hentry, hle, rest, hrest, rfl⟩)
    · refine ⟨none :: rest, kpFeasible_cons_iff.mpr ?_, ?_⟩
      · exact ⟨none, rest, rfl, isChoice_none row, Nat.zero_le _, hrest⟩
      · rw [totalValue_cons, valueOf_none, zero_add, append_assoc, singleton_append]
    · have hitem := mem_zipIdx_iff_getElem?.mp hentry
      refine ⟨some j :: rest, kpFeasible_cons_iff.mpr ?_, ?_⟩
      · refine ⟨some j, rest, rfl, isChoice_some hitem, ?_, ?_⟩
        · rw [weightOf_some hitem]
          exact hle
        · rw [weightOf_some hitem]
          exact hrest
      · rw [totalValue_cons, valueOf_some hitem, append_assoc, singleton_append, add_assoc]

variable (rows : List (KPRow ℕ))

theorem enumKPRecursive_keepsBest (curSol : KPSolution) (leftB : ℕ) (curValue : ℚ)
    (best : ℚ × KPSolution) : KeepsBest (metByEnum rows curSol leftB curValue) best
      (enumKPRecursive rows curSol leftB curValue best) := by
  induction rows generalizing curSol leftB curValue best with
  | nil =>
    have hmet : metByEnum [] curSol leftB curValue = {(curValue, curSol)} := by
      ext c
      simp [metByEnum, kpFeasible_nil_iff, totalValue]
    rw [hmet]
    exact .compare best (curValue, curSol)
  | cons row rows ih =>
    rw [metByEnum_cons]
    refine (ih _ _ _ best).trans (.foldl ?_ _)
    intro entry _ best
    exact .ite fun _ => ih _ _ _ best

variable (budget : ℕ)

/-- Taking nothing. -/
theorem kpFeasible_none : KPFeasible rows budget (rows.map fun _ => none) ∧
      totalValue rows (rows.map fun _ => none) = 0 := by
  induction rows with
  | nil => exact ⟨kpFeasible_nil_iff.mpr rfl, rfl⟩
  | cons row rows ih =>
    refine ⟨kpFeasible_cons_iff.mpr ?_, ?_⟩
    · exact ⟨none, _, rfl, isChoice_none row, Nat.zero_le _, ih.1⟩
    · rw [map_cons, totalValue_cons, valueOf_none, ih.2, add_zero]

theorem enumKP_optimal : KPOptimal rows budget (enumKP rows budget) := by
  obtain ⟨hnone, hzero⟩ := kpFeasible_none rows budget
  have hbest := enumKPRecursive_keepsBest rows [] budget 0 (0, rows.map fun _ => none)
  have hmet : ∀ sol, KPFeasible rows budget sol →
      totalValue rows sol ≤ (enumKPRecursive rows [] budget 0 (0, rows.map fun _ => none)).1 := by
    intro sol hsol
    have hle := hbest.le_of_met _ ⟨sol, hsol, rfl⟩
    rwa [zero_add] at hle
  rw [enumKP, Nat.cast_id]
  rcases hbest.eq_or_met with heq | ⟨sol, hsol, heq⟩
  · rw [heq] at hmet ⊢
    refine ⟨hnone, fun other hother => ?_⟩
    rw [hzero]
    exact hmet other hother
  · rw [heq, zero_add] at hmet ⊢
    exact ⟨hsol, hmet⟩

/-- What one cell of the sweep meets: the items that fit, each on top of the value that is left. -/
def metBySweep (values : List ℚ) (row : KPRow ℕ) (v : ℕ) : Set (ℚ × Option ℕ) :=
  {c | ∃ entry ∈ row.zipIdx, c ∈ {c | entry.1.weight ≤ v ∧
    c ∈ ({(values.getD (v - entry.1.weight) 0 + entry.1.value, some entry.2)} :
      Set (ℚ × Option ℕ))}}

theorem bestChoice_keepsBest (values : List ℚ) (row : KPRow ℕ) (v : ℕ) :
    KeepsBest (metBySweep values row v) (values.getD v 0, none) (bestChoice values row v) := by
  refine .foldl ?_ _
  intro entry _ best
  exact .ite fun _ => .compare best _

/-- A cell depends on the values up to its budget only. -/
theorem bestChoice_congr {values values' : List ℚ} {v : ℕ}
    (heq : ∀ u ≤ v, values.getD u 0 = values'.getD u 0) (row : KPRow ℕ) :
    bestChoice values row v = bestChoice values' row v := by
  have hround : ∀ (best : ℚ × Option ℕ) (entry : KPItem ℕ × ℕ),
      (if entry.1.weight ≤ v then
        let myF := values.getD (v - entry.1.weight) 0 + entry.1.value
        if best.1 < myF then (myF, some entry.2) else best
      else best) =
      if entry.1.weight ≤ v then
        let myF := values'.getD (v - entry.1.weight) 0 + entry.1.value
        if best.1 < myF then (myF, some entry.2) else best
      else best := by
    intro best entry
    rw [heq (v - entry.1.weight) (Nat.sub_le v _)]
  rw [bestChoice, heq v le_rfl]
  congr 1
  ext1 best
  ext1 entry
  exact hround best entry

/-- The cells below `n` have been swept, and the cell `n` is written as well. -/
theorem ite_getD_set {α : Type} {l : List α} {d x y a : α} {n v : ℕ} (hn : n < l.length)
    (hlt : v < n → x = y) (heq : v = n → a = y) :
    (if v < n then x else (l.set n a).getD v d) = if v < n + 1 then y else l.getD v d := by
  rcases Nat.lt_trichotomy v n with hv | rfl | hv
  · rw [if_pos hv, if_pos (by omega), hlt hv]
  · rw [if_neg (by omega), if_pos (by omega), getD_eq_getElem?_getD,
      getElem?_set_self hn, getD_some, heq rfl]
  · rw [if_neg (by omega), if_neg (by omega), getD_eq_getElem?_getD,
      getElem?_set_ne (by omega), getD_eq_getElem?_getD]

/-- The sweep over the budgets below `n`, the greatest first: each cell reads the values from before
the sweep, as only greater budgets have been overwritten. -/
theorem sweep_spec (row : KPRow ℕ) (n : ℕ) (values : List ℚ) (choices : List (Option ℕ))
    (hvalues : n ≤ values.length) (hchoices : n ≤ choices.length) (v : ℕ) :
    let swept := (range n).reverse.foldl (sweepCell row) (values, choices)
    swept.1.length = values.length ∧
      swept.1.getD v 0 = (if v < n then (bestChoice values row v).1 else values.getD v 0) ∧
      swept.2.getD v none =
        (if v < n then (bestChoice values row v).2 else choices.getD v none) := by
  induction n generalizing values choices with
  | zero => exact ⟨rfl, rfl, rfl⟩
  | succ n ih =>
    rw [range_succ, reverse_append, reverse_singleton, singleton_append]
    obtain ⟨hlength, hvalue, hchoice⟩ := ih (values.set n (bestChoice values row n).1)
      (choices.set n (bestChoice values row n).2) (by rw [length_set]; omega)
      (by rw [length_set]; omega)
    have hbelow : ∀ u < n, (values.set n (bestChoice values row n).1).getD u 0 =
        values.getD u 0 := by
      intro u hu
      rw [getD_eq_getElem?_getD, getElem?_set_ne (by omega),
        getD_eq_getElem?_getD]
    refine ⟨hlength.trans (length_set ..), hvalue.trans ?_, hchoice.trans ?_⟩
    · refine ite_getD_set (by omega) (fun hlt => ?_) fun heq => by rw [heq]
      rw [bestChoice_congr (fun u hu => hbelow u (by omega)) row]
    · refine ite_getD_set (by omega) (fun hlt => ?_) fun heq => by rw [heq]
      rw [bestChoice_congr (fun u hu => hbelow u (by omega)) row]

theorem sweepRow_spec {budget : ℕ} {values : List ℚ} (hvalues : values.length = budget + 1)
    (row : KPRow ℕ) {v : ℕ} (hv : v ≤ budget) :
    (sweepRow budget values row).1.getD v 0 = (bestChoice values row v).1 ∧
      (sweepRow budget values row).2.getD v none = (bestChoice values row v).2 := by
  obtain ⟨-, hvalue, hchoice⟩ := sweep_spec row (budget + 1) values
    (replicate (budget + 1) none) (by omega) (by rw [length_replicate]) v
  rw [if_pos (Nat.lt_succ_of_le hv)] at hvalue hchoice
  exact ⟨hvalue, hchoice⟩

theorem fillTables_concat (rows : List (KPRow ℕ)) (row : KPRow ℕ) : fillTables budget (rows ++ [row]) =
      ((sweepRow budget (fillTables budget rows).1 row).1, (fillTables budget rows).2 ++
          [(row, (sweepRow budget (fillTables budget rows).1 row).2)]) := by
  rw [fillTables, foldl_append]
  rfl

theorem length_fillTables (rows : List (KPRow ℕ)) : (fillTables budget rows).1.length = budget + 1 := by
  induction rows using reverseRecOn with
  | nil => exact length_replicate
  | append_singleton rows row ih =>
    rw [fillTables_concat]
    exact (sweep_spec row (budget + 1) _ _ ih.ge (by rw [length_replicate]) 0).1.trans ih

/-- Reading back starts with the last keyword. -/
theorem constructSolution_concat (choices : List (KPRow ℕ × List (Option ℕ)))
    (entry : KPRow ℕ × List (Option ℕ)) : constructSolution budget (choices ++ [entry]) =
      constructSolution (budget - weightOf entry.1 (entry.2.getD budget none)) choices ++
        [entry.2.getD budget none] := by
  have hread : ∀ (left : ℕ × KPSolution) (entry : KPRow ℕ × List (Option ℕ)),
      readChoice left entry = (left.1 - weightOf entry.1 (entry.2.getD left.1 none),
        entry.2.getD left.1 none :: left.2) := by
    intro left entry
    rw [readChoice]
    split
    · rename_i hnone
      rw [hnone]
      rfl
    · rename_i j hsome
      rw [hsome, weightOf, chosen, bind_some, getD_eq_getElem?_getD]
      cases entry.1[j]? <;> rfl
  have hbehind : ∀ (entries : List (KPRow ℕ × List (Option ℕ))) (v : ℕ) (sol sol' : KPSolution),
      (entries.foldl readChoice (v, sol ++ sol')).2 =
        (entries.foldl readChoice (v, sol)).2 ++ sol' := by
    intro entries
    induction entries with
    | nil => exact fun _ _ _ => rfl
    | cons entry entries ih =>
      intro v sol sol'
      rw [foldl_cons, foldl_cons, hread, hread]
      exact ih _ (entry.2.getD v none :: sol) sol'
  rw [constructSolution, reverse_append, reverse_singleton, singleton_append, foldl_cons, hread]
  exact hbehind choices.reverse _ [] _

/-- The value at each budget is that of the selection read back from it, and no selection within
the budget has a greater one. -/
theorem fillTables_optimal (rows : List (KPRow ℕ)) {v : ℕ} (hv : v ≤ budget) :
    KPOptimal rows v (constructSolution v (fillTables budget rows).2) ∧
      totalValue rows (constructSolution v (fillTables budget rows).2) =
        (fillTables budget rows).1.getD v 0 := by
  induction rows using reverseRecOn generalizing v with
  | nil =>
    have hzero : (replicate (budget + 1) (0 : ℚ)).getD v 0 = 0 := by
      rw [getD_eq_getElem?_getD, getElem?_replicate, if_pos (by omega), getD_some]
    refine ⟨⟨kpFeasible_nil_iff.mpr rfl, fun other hother => ?_⟩, hzero.symm⟩
    exact le_rfl
  | append_singleton rows row ih =>
    obtain ⟨hvalue, hchoice⟩ := sweepRow_spec (length_fillTables budget rows) row hv
    have hbest := bestChoice_keepsBest (fillTables budget rows).1 row v
    rw [fillTables_concat, constructSolution_concat, hvalue, hchoice]
    generalize bestChoice (fillTables budget rows).1 row v = best at hbest ⊢
    -- what the cell holds is the value of the selection read back
    have hread : IsChoice row best.2 ∧ weightOf row best.2 ≤ v ∧
        (fillTables budget rows).1.getD (v - weightOf row best.2) 0 + valueOf row best.2 =
          best.1 := by
      rcases hbest.eq_or_met with rfl | ⟨⟨item, j⟩, hentry, hfits, rfl⟩
      · exact ⟨isChoice_none row, Nat.zero_le _, add_zero _⟩
      · have hitem := mem_zipIdx_iff_getElem?.mp hentry
        refine ⟨isChoice_some hitem, ?_, ?_⟩
        · rw [weightOf_some hitem]
          exact hfits
        · rw [weightOf_some hitem, valueOf_some hitem]
    obtain ⟨hvalid, hle, hvalue⟩ := hread
    obtain ⟨hrest, htotal⟩ := ih (v := v - weightOf row best.2) (by omega)
    have htotal' := totalValue_concat hrest.valid.length_eq row best.2
    rw [htotal, hvalue] at htotal'
    refine ⟨⟨kpFeasible_concat_iff.mpr ⟨_, _, rfl, hvalid, hle, hrest.toKPFeasible⟩, ?_⟩, htotal'⟩
    intro other hother
    obtain ⟨rest, choice, rfl, hchoice, hfits, hfeasible⟩ := kpFeasible_concat_iff.mp hother
    obtain ⟨hoptimal, hcell⟩ := ih (v := v - weightOf row choice) (by omega)
    have hle' := hoptimal.value_le rest hfeasible
    rw [hcell] at hle'
    rw [htotal', totalValue_concat hfeasible.valid.length_eq]
    rcases hchoice.eq_none_or with rfl | ⟨j, item, rfl, hitem⟩
    · rw [valueOf_none, add_zero]
      exact hle'.trans hbest.le
    · rw [weightOf_some hitem] at hfits hle'
      rw [valueOf_some hitem]
      have hmet : ((fillTables budget rows).1.getD (v - item.weight) 0 + item.value, some j) ∈
          metBySweep (fillTables budget rows).1 row v :=
        ⟨(item, j), mem_zipIdx_iff_getElem?.mpr hitem, hfits, rfl⟩
      exact (add_le_add_left hle' item.value).trans (hbest.le_of_met _ hmet)

theorem dpKP_optimal : KPOptimal rows budget (dpKP rows budget) :=
  (fillTables_optimal budget rows le_rfl).1

/-- Both solvers choose at most one valid position for each keyword within the budget, with the same
total value, and no selection within the budget has a greater one. -/
theorem dpKP_enumKP_agree (rows : List (KPRow ℕ)) (budget : ℕ) :
    KPOptimal rows budget (dpKP rows budget) ∧ KPOptimal rows budget (enumKP rows budget) ∧
      totalValue rows (dpKP rows budget) = totalValue rows (enumKP rows budget) := by
  have hdp := dpKP_optimal rows budget
  have henum := enumKP_optimal rows budget
  exact ⟨hdp, henum, le_antisymm (henum.value_le _ hdp.toKPFeasible)
    (hdp.value_le _ henum.toKPFeasible)⟩

end AdDelivery.Sponsored
