import Mathlib.Data.List.Forall2
import Mathlib.Data.Set.Basic

/-!
# Concatenations of one word from each language

A word is taken from each of a list of languages, and the words are put together without
marks. The parts can be told from the whole exactly when no language has a word and a longer
one that continues it by a text with which the later languages could confuse it.
-/

namespace AdDelivery

open List

variable {α : Type*}

/-- One word from each language. -/
def Picks (words : List (List α)) (languages : List (Set (List α))) : Prop :=
  List.Forall₂ (fun word language => word ∈ language) words languages

/-- What can be put together. -/
def concats (languages : List (Set (List α))) : Set (List α) :=
  {text | ∃ words, Picks words languages ∧ words.flatten = text}

/-- A word and its continuation by `w` cannot be confused by what follows. -/
def Separates (language later : Set (List α)) : Prop :=
  ∀ word ∈ language, ∀ w, w ≠ [] → word ++ w ∈ language → ∀ text ∈ later, w ++ text ∉ later

def Separated : List (Set (List α)) → Prop
  | [] => True
  | language :: languages => Separates language (concats languages) ∧ Separated languages

variable {languages : List (Set (List α))}

theorem picks_cons {word : List α} {words : List (List α)} {language : Set (List α)} :
    Picks (word :: words) (language :: languages) ↔ word ∈ language ∧ Picks words languages :=
  forall₂_cons

/-- Two words of a separated language that begin the same text are one. -/
theorem Separates.eq_of_append_eq {language later : Set (List α)} (h : Separates language later)
    {word word' text text' : List α} (hword : word ∈ language) (hword' : word' ∈ language)
    (htext : text ∈ later) (htext' : text' ∈ later) (heq : word ++ text = word' ++ text') :
    word = word' := by
  have hshort : ∀ {u u' t t' : List α}, u ∈ language → u' ∈ language → t ∈ later → t' ∈ later →
      u ++ t = u' ++ t' → ∀ w, u' = u ++ w → u = u' := by
    rintro u _ t t' hu hu' ht ht' hsame w rfl
    rw [append_assoc] at hsame
    obtain rfl := append_cancel_left hsame
    by_contra hne
    refine h u hu w ?_ hu' t' ht' ht
    rintro rfl
    exact hne (append_nil u).symm
  obtain ⟨w, hw, -⟩ | ⟨w, hw, -⟩ := append_eq_append_iff.mp heq
  · exact hshort hword hword' htext htext' heq w hw
  · exact (hshort hword' hword htext' htext heq.symm w hw).symm

/-- The parts can be told from the whole exactly when the languages are separated. -/
theorem flatten_injective_iff (hne : ∀ language ∈ languages, language.Nonempty) :
    (∀ words words', Picks words languages → Picks words' languages →
      words.flatten = words'.flatten → words = words') ↔ Separated languages := by
  induction languages with
  | nil =>
    refine iff_of_true (fun words words' h h' _ => ?_) trivial
    rw [forall₂_nil_right_iff.mp h, forall₂_nil_right_iff.mp h']
  | cons language languages ih =>
    obtain ⟨⟨word₀, hword₀⟩, hlanguages⟩ := forall_mem_cons.mp hne
    constructor
    · intro hinj
      refine ⟨?_, (ih hlanguages).mp fun words words' h h' heq => ?_⟩
      · rintro word hword w hw hword' text ⟨words', hwords', rfl⟩ ⟨words, hwords, hflatten⟩
        have hsame := hinj (word :: words) ((word ++ w) :: words')
          (picks_cons.mpr ⟨hword, hwords⟩) (picks_cons.mpr ⟨hword', hwords'⟩)
          (by rw [flatten_cons, flatten_cons, hflatten, append_assoc])
        exact hw (append_right_eq_self.mp (List.cons.inj hsame).1.symm)
      · have hsame := hinj (word₀ :: words) (word₀ :: words')
          (picks_cons.mpr ⟨hword₀, h⟩) (picks_cons.mpr ⟨hword₀, h'⟩)
          (by rw [flatten_cons, flatten_cons, heq])
        exact (List.cons.inj hsame).2
    · rintro ⟨hseparates, hseparated⟩ words words' h h' heq
      obtain _ | @⟨word, _, words, _, hword, hwords⟩ := h
      obtain _ | @⟨word', _, words', _, hword', hwords'⟩ := h'
      obtain rfl := hseparates.eq_of_append_eq hword hword' ⟨words, hwords, rfl⟩
        ⟨words', hwords', rfl⟩ heq
      rw [(ih hlanguages).mpr hseparated words words' hwords hwords' (append_cancel_left heq)]

end AdDelivery
