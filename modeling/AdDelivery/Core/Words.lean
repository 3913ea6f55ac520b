import Mathlib.Data.List.Basic
import Mathlib.Data.List.Forall2
import Mathlib.Data.Set.Basic

/-!
# Words of a text

The words of a text are its maximal runs without a separator. Words that are joined with a
separator are found again, whatever the words are.
-/

namespace AdDelivery

open List

section Words

variable {α : Type*} (sep : α → Bool)

/-- The maximal runs without separators. -/
def words (s : List α) : List (List α) := (s.splitOnP sep).filter (· ≠ [])

/-- A run that has something in it, but no separator. -/
def IsWord (w : List α) : Prop := w ≠ [] ∧ ∀ c ∈ w, sep c = false

variable {sep}

@[simp] theorem words_nil : words sep [] = [] := by simp [words]

theorem words_of_isWord {w : List α} (hw : IsWord sep w) : words sep w = [w] := by
  rw [words, splitOnP_eq_singleton hw.2]
  simp [hw.1]

/-- A separator takes the text apart. -/
theorem words_append_cons (s t : List α) {c : α} (hc : sep c = true) :
    words sep (s ++ c :: t) = words sep s ++ words sep t := by
  rw [words, splitOnP_append_cons s t hc, filter_append]
  rfl

theorem not_sep_of_mem_splitOnP {s w : List α} (h : w ∈ s.splitOnP sep) :
    ∀ c ∈ w, sep c = false := by
  induction s generalizing w with
  | nil =>
    rw [splitOnP_nil, mem_singleton] at h
    simp [h]
  | cons c s ih =>
    rw [splitOnP_cons_eq_if_modifyHead] at h
    split at h
    · rcases mem_cons.mp h with rfl | h
      · simp
      · exact ih h
    · rename_i hc
      obtain ⟨first, rest, hsplit⟩ := exists_cons_of_ne_nil (splitOnP_ne_nil sep s)
      rw [hsplit] at ih h
      rcases mem_cons.mp h with rfl | h
      · intro d hd
        rcases mem_cons.mp hd with rfl | hd
        · simpa using hc
        · exact ih mem_cons_self d hd
      · exact ih (mem_cons_of_mem first h)

theorem isWord_of_mem_words {s w : List α} (h : w ∈ words sep s) : IsWord sep w := by
  obtain ⟨hmem, hne⟩ := mem_filter.mp h
  exact ⟨of_decide_eq_true hne, not_sep_of_mem_splitOnP hmem⟩

/-- Joined words are found again. -/
theorem words_intercalate {d : α} (hd : sep d = true) {ws : List (List α)}
    (hws : ∀ w ∈ ws, IsWord sep w) : words sep ([d].intercalate ws) = ws := by
  induction ws with
  | nil => simp [intercalate]
  | cons w ws ih =>
    obtain ⟨hw, hws⟩ := forall_mem_cons.mp hws
    cases ws with
    | nil => simpa [intercalate] using words_of_isWord hw
    | cons v ws =>
      have hjoin : [d].intercalate (w :: v :: ws) = w ++ d :: [d].intercalate (v :: ws) := by
        simp [intercalate, intersperse]
      rw [hjoin, words_append_cons _ _ hd, words_of_isWord hw, ih hws]
      rfl

/-- Joining is injective on lists of words. -/
theorem intercalate_inj {d : α} (hd : sep d = true) {ws vs : List (List α)}
    (hws : ∀ w ∈ ws, IsWord sep w) (hvs : ∀ v ∈ vs, IsWord sep v) :
    [d].intercalate ws = [d].intercalate vs ↔ ws = vs := by
  refine ⟨fun h => ?_, fun h => by rw [h]⟩
  rw [← words_intercalate hd hws, h, words_intercalate hd hvs]

end Words

end AdDelivery
