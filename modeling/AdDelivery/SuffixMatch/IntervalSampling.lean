import AdDelivery.Core.Int32
import AdDelivery.SuffixMatch.NumericRanges

/-!
# Sampling the keys of an interval

A document whose number is an interval is entered under keys from the lower end to the upper end.
Of a long interval some keys are picked, with steps of a hundredth of its length, and the upper end
is always one of them. Keys are 32-bit integers, and the loop leaves the interval by one more step.
-/

namespace AdDelivery.SuffixMatch

open List

/-- The step: of an interval that is too large just some keys are picked. -/
def sampleInc (numKeyLow numKeyHigh : ℤ) : ℤ :=
  if toInt32 (numKeyHigh - numKeyLow) > 100 then
    (toInt32 (numKeyHigh - numKeyLow)).tdiv 100
  else 1

/-- The end of the body: make sure that the upper end is added. -/
def nextNumKey (inc numKeyHigh numKey : ℤ) : ℤ :=
  if numKey = numKeyHigh ∨ toInt32 (numKey + inc) ≤ numKeyHigh then toInt32 (numKey + inc)
  else numKeyHigh

/-- The keys that the loop visits, as far as the fuel lasts. -/
def sampleLoop (inc numKeyHigh : ℤ) : ℕ → ℤ → Option (List ℤ)
  | 0, _ => none
  | fuel + 1, numKey =>
    if numKey ≤ numKeyHigh then
      (sampleLoop inc numKeyHigh fuel (nextNumKey inc numKeyHigh numKey)).map (numKey :: ·)
    else some []

/-- The keys of an interval as they should be. -/
structure Sampled (low high : ℤ) (keys : List ℤ) : Prop where
  increasing : keys.Pairwise (· < ·)
  first : keys.head? = some low
  last : keys.getLast? = some high
  inside : ∀ key ∈ keys, low ≤ key ∧ key ≤ high
  every : high - low ≤ 100 → ∀ key, low ≤ key → key ≤ high → key ∈ keys
  few : 100 < high - low → keys.length ≤ 202

/-- The loop ends, with such keys, and all its differences and sums are 32-bit integers. -/
def SamplesWell (low high : ℤ) : Prop :=
  ∃ fuel keys, sampleLoop (sampleInc low high) high fuel low = some keys ∧
    Sampled low high keys ∧ FitsInt32 (high - low) ∧
    ∀ key ∈ keys, FitsInt32 (key + sampleInc low high)

section Exact

variable {inc high : ℤ}

/-- The keys from `key` on. -/
structure SampledFrom (inc key high : ℤ) (keys : List ℤ) : Prop where
  increasing : keys.Pairwise (· < ·)
  first : keys.head? = some key
  last : keys.getLast? = some high
  inside : ∀ k ∈ keys, key ≤ k ∧ k ≤ high
  every : inc = 1 → ∀ k, key ≤ k → k ≤ high → k ∈ keys
  length_lt : keys.length * inc < high - key + 2 * inc

theorem SampledFrom.single (hinc : 0 < inc) (high : ℤ) : SampledFrom inc high high [high] := by
  refine ⟨pairwise_singleton _ _, rfl, rfl, ?_, ?_, ?_⟩
  · rintro k hk
    obtain rfl := mem_singleton.mp hk
    exact ⟨le_rfl, le_rfl⟩
  · rintro - k hlow hhigh
    exact mem_singleton.mpr (le_antisymm hhigh hlow)
  · rw [length_singleton]
    omega

/-- One more key in front: the next is a step ahead, or it is the upper end. -/
theorem SampledFrom.cons {key next : ℤ} {keys : List ℤ} (hinc : 0 < inc)
    (h : SampledFrom inc next high keys) (hlt : key < next) (hle : next ≤ key + inc)
    (hnext : next = key + inc ∨ next = high) : SampledFrom inc key high (key :: keys) := by
  have hmem : next ∈ keys := mem_of_mem_head? h.first
  have hnonempty : keys ≠ [] := ne_nil_of_mem hmem
  refine ⟨pairwise_cons.mpr ⟨fun k hk => hlt.trans_le (h.inside k hk).1, h.increasing⟩, rfl,
    ?_, ?_, ?_, ?_⟩
  · rw [getLast?_cons_of_ne_nil hnonempty]
    exact h.last
  · rintro k hk
    rcases mem_cons.mp hk with rfl | hk
    · exact ⟨le_rfl, hlt.le.trans (h.inside next hmem).2⟩
    · exact ⟨hlt.le.trans (h.inside k hk).1, (h.inside k hk).2⟩
  · intro hone k hlow hhigh
    rcases hlow.eq_or_lt with rfl | hlow
    · exact mem_cons_self
    · exact mem_cons_of_mem key (h.every hone k (by omega) hhigh)
  · have hlength := h.length_lt
    rw [length_cons, Nat.cast_add, Nat.cast_one, add_mul]
    rcases hnext with rfl | rfl
    · omega
    · -- the upper end stands alone
      have hone : (keys.length : ℤ) < 2 := lt_of_mul_lt_mul_right (by omega) hinc.le
      have : (keys.length : ℤ) * inc ≤ 1 * inc :=
        mul_le_mul_of_nonneg_right (by omega) hinc.le
      omega

/-- As long as no sum overflows the loop goes on to the upper end. -/
theorem exists_sampleLoop (hinc : 0 < inc) (hhigh : FitsInt32 high)
    (hsum : high + inc < 2 ^ 31) {key : ℤ} (hlow : -2 ^ 31 ≤ key) (hle : key ≤ high) :
    ∃ fuel keys, sampleLoop inc high fuel key = some keys ∧ SampledFrom inc key high keys := by
  obtain ⟨n, hn⟩ : ∃ n, (high - key).toNat = n := ⟨_, rfl⟩
  induction n using Nat.strong_induction_on generalizing key with
  | h n ih =>
    have hexact : toInt32 (key + inc) = key + inc := toInt32_eq ⟨by omega, by omega⟩
    by_cases hend : key = high
    · subst hend
      refine ⟨2, [key], ?_, .single hinc key⟩
      simp [sampleLoop, nextNumKey, hexact, hinc]
    · have hstep : nextNumKey inc high key = if key + inc ≤ high then key + inc else high := by
        simp only [nextNumKey, hend, false_or, hexact]
      have hnext : key < nextNumKey inc high key ∧ nextNumKey inc high key ≤ high ∧
          nextNumKey inc high key ≤ key + inc ∧
          (nextNumKey inc high key = key + inc ∨ nextNumKey inc high key = high) := by
        rw [hstep]
        split <;> omega
      obtain ⟨hahead, hnextLe, hinside, hwhere⟩ := hnext
      obtain ⟨fuel, keys, hloop, hkeys⟩ := ih _ (by omega) (by omega) hnextLe rfl
      refine ⟨fuel + 1, key :: keys, ?_, hkeys.cons hinc hahead hinside hwhere⟩
      rw [sampleLoop, if_pos hle, hloop, Option.map_some]

end Exact

theorem sampleInc_eq {low high : ℤ} (hdiff : FitsInt32 (high - low)) :
    sampleInc low high = if 100 < high - low then (high - low) / 100 else 1 := by
  rw [sampleInc, toInt32_eq hdiff]
  split
  · rename_i hlong
    exact Int.tdiv_eq_ediv_of_nonneg (by omega)
  · rfl

/-- The loop samples the interval as long as its length and the step behind its end are 32-bit
integers. -/
theorem samplesWell_iff {low high : ℤ} (hlow : FitsInt32 low) (hhigh : FitsInt32 high)
    (hle : low ≤ high) : SamplesWell low high ↔ high - low < 2 ^ 31 ∧
      high + (if 100 < high - low then (high - low) / 100 else 1) < 2 ^ 31 := by
  constructor
  · rintro ⟨fuel, keys, -, hkeys, hdiff, hsums⟩
    have hend := hsums high (mem_of_getLast? hkeys.last)
    rw [sampleInc_eq hdiff] at hend
    exact ⟨hdiff.2, hend.2⟩
  · rintro ⟨hdiff, hsum⟩
    have hdiff : FitsInt32 (high - low) := ⟨by omega, hdiff⟩
    rw [← sampleInc_eq hdiff] at hsum
    have hinc : 0 < sampleInc low high := by
      rw [sampleInc_eq hdiff]
      split <;> omega
    obtain ⟨fuel, keys, hloop, hkeys⟩ := exists_sampleLoop hinc hhigh hsum hlow.1 hle
    refine ⟨fuel, keys, hloop, ⟨hkeys.increasing, hkeys.first, hkeys.last, hkeys.inside, ?_, ?_⟩,
      hdiff, fun key hkey => ?_⟩
    · intro hshort
      refine hkeys.every ?_
      rw [sampleInc_eq hdiff, if_neg (by omega)]
    · intro hlong
      have hlength := hkeys.length_lt
      rw [sampleInc_eq hdiff, if_pos hlong] at hlength hinc
      have hlt : (keys.length : ℤ) * ((high - low) / 100) < 201 * ((high - low) / 100) := by omega
      have := lt_of_mul_lt_mul_right hlt hinc.le
      omega
    · have hinside := hkeys.inside key hkey
      rw [FitsInt32] at hlow ⊢
      omega

theorem samplesWell_iff_price : SamplesWell 100 900 ↔ (900 : ℤ) - 100 < 2 ^ 31 ∧
      (900 : ℤ) + (if 100 < (900 : ℤ) - 100 then (900 - 100) / 100 else 1) < 2 ^ 31 :=
  samplesWell_iff (by decide) (by decide) (by decide)

/-- No 32-bit integer is above the largest one, and the loop does not end there. -/
theorem sampleLoop_max (inc : ℤ) (fuel : ℕ) {key : ℤ} (hkey : FitsInt32 key) :
    sampleLoop inc (2 ^ 31 - 1) fuel key = none := by
  induction fuel generalizing key with
  | zero => rfl
  | succ fuel ih =>
    have hle : key ≤ 2 ^ 31 - 1 := by
      have := hkey.2
      omega
    have hnext : FitsInt32 (nextNumKey inc (2 ^ 31 - 1) key) := by
      rw [nextNumKey]
      split
      · exact fitsInt32_toInt32 _
      · exact ⟨by norm_num, by norm_num⟩
    rw [sampleLoop, if_pos hle, ih hnext, Option.map_none]

/-- The largest price is sampled without end. -/
theorem not_samplesWell_max : ¬SamplesWell (2 ^ 31 - 1) (2 ^ 31 - 1) := by
  rintro ⟨fuel, keys, hloop, -⟩
  rw [sampleLoop_max _ fuel ⟨by norm_num, by norm_num⟩] at hloop
  cases hloop

end AdDelivery.SuffixMatch
