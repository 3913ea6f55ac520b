import AdDelivery.Core.Words
import Mathlib.Data.List.Sort
import Mathlib.Data.Multiset.Basic

/-!
# Normal form of a query

A query is taken apart at its white space, its tokens are put in lower case, sorted and joined. Two
queries have the same normal form exactly when they have the same tokens.
-/

namespace AdDelivery.QueryNormalizer

open List

section QueryNormalizer

variable (query : List UInt8) (tokens : List (List UInt8)) (ch : UInt8)

/-- A byte, as the locale of the C language sees it. -/
def isspace : Bool := ch = 32 || (9 ≤ ch && ch ≤ 13)

/-- `tolower` of the C locale. -/
def tolower : UInt8 := if 65 ≤ ch ∧ ch ≤ 90 then ch + 32 else ch

def kMergeTokenDelimiter : UInt8 := 32

/-- The last token gets no delimiter. -/
def mergeTokens : List UInt8 :=
  tokens.dropLast.flatMap (· ++ [kMergeTokenDelimiter]) ++ tokens.getLast?.getD []

/-- The loop over the query with the token it is in. -/
def tokenizeLoop : List UInt8 → List UInt8 → List (List UInt8) → List (List UInt8)
  | [], current, tokens => if current.isEmpty then tokens else tokens ++ [current]
  | ch :: query, current, tokens =>
    if !isspace ch then tokenizeLoop query (current ++ [tolower ch]) tokens
    else if !current.isEmpty then tokenizeLoop query [] (tokens ++ [current])
    else tokenizeLoop query current tokens

/-- The tokens come behind the ones that are there. -/
def tokenizeQuery : List (List UInt8) :=
  tokenizeLoop query [] tokens

/-- The sorted tokens, with single spaces. -/
def normalize (fromStr : List UInt8) : List UInt8 :=
  mergeTokens ((tokenizeQuery fromStr []).insertionSort (· ≤ ·))

/-- The maximal runs without white space, in lower case. -/
def lowerWords : List (List UInt8) :=
  (words isspace query).map (map tolower)

theorem toNat_add_of_upper {ch : UInt8} (h : 65 ≤ ch ∧ ch ≤ 90) :
    (ch + 32).toNat = ch.toNat + 32 := by
  have hle := UInt8.le_iff_toNat_le.mp h.2
  simp at hle ⊢
  omega

theorem isspace_tolower : isspace (tolower ch) = isspace ch := by
  rw [tolower]
  split
  · next h =>
    have hadd := toNat_add_of_upper h
    simp only [isspace, UInt8.le_iff_toNat_le, ← UInt8.toNat_inj, hadd] at h ⊢
    grind
  · rfl

theorem tolower_tolower : tolower (tolower ch) = tolower ch := by
  by_cases h : 65 ≤ ch ∧ ch ≤ 90
  · have hadd := toNat_add_of_upper h
    have hle := UInt8.le_iff_toNat_le.mp h.1
    rw [tolower, tolower, if_pos h]
    simp only [UInt8.le_iff_toNat_le, hadd]
    simp at hle ⊢
    omega
  · rw [tolower, tolower, if_neg h, if_neg h]

theorem isWord_map_tolower {w : List UInt8} (hw : IsWord isspace w) :
    IsWord isspace (w.map tolower) := by
  refine ⟨by simpa using hw.1, ?_⟩
  intro ch hch
  obtain ⟨c, hc, rfl⟩ := mem_map.mp hch
  rw [isspace_tolower]
  exact hw.2 c hc

theorem isWord_of_mem_lowerWords {query w : List UInt8} (h : w ∈ lowerWords query) :
    IsWord isspace w := by
  obtain ⟨v, hv, rfl⟩ := mem_map.mp h
  exact isWord_map_tolower (isWord_of_mem_words hv)

/-- The induction is over what is left of the query; the pending token is in lower case. -/
theorem tokenizeLoop_eq {pending : List UInt8}
    (hpending : ∀ ch ∈ pending, isspace ch = false) (tokens : List (List UInt8)) :
    tokenizeLoop query (pending.map tolower) tokens = tokens ++ lowerWords (pending ++ query) := by
  have hword (hne : pending ≠ []) : words isspace pending = [pending] :=
    words_of_isWord ⟨hne, hpending⟩
  induction query generalizing pending tokens with
  | nil =>
    rw [tokenizeLoop, lowerWords]
    by_cases hne : pending = []
    · simp [hne]
    · simp [hne, hword]
  | cons ch query ih =>
    rw [tokenizeLoop]
    by_cases hspace : isspace ch = true
    · have hrest (tokens : List (List UInt8)) :
          tokenizeLoop query ([].map tolower) tokens = tokens ++ lowerWords ([] ++ query) :=
        ih (forall_mem_nil _) tokens (by simp)
      simp only [map_nil, nil_append] at hrest
      rw [hspace, lowerWords, words_append_cons _ _ hspace, map_append]
      by_cases hne : pending = []
      · simp [hne, lowerWords, hrest]
      · simp [hne, lowerWords, hword, hrest]
    · have hlonger : ∀ c ∈ pending ++ [ch], isspace c = false := by
        intro c hc
        rcases mem_append.mp hc with hc | hc
        · exact hpending c hc
        · simpa [mem_singleton.mp hc] using hspace
      have hrest := ih hlonger tokens fun hne => words_of_isWord ⟨hne, hlonger⟩
      rw [map_append, map_singleton, append_assoc] at hrest
      simp [hspace, hrest]

/-- The tokens are the words in lower case. -/
theorem tokenizeQuery_eq : tokenizeQuery query tokens = tokens ++ lowerWords query := by
  have h : tokenizeLoop query ([].map tolower) tokens = tokens ++ lowerWords ([] ++ query) :=
    tokenizeLoop_eq query (forall_mem_nil _) tokens
  simpa [tokenizeQuery] using h

theorem mergeTokens_eq : mergeTokens tokens = [kMergeTokenDelimiter].intercalate tokens := by
  induction tokens with
  | nil => rfl
  | cons token tokens ih =>
    cases tokens with
    | nil => simp [mergeTokens, intercalate]
    | cons next tokens =>
      rw [mergeTokens] at ih ⊢
      simp [ih]

/-- The tokens of a query in their order. -/
def sortedWords : List (List UInt8) :=
  (lowerWords query).insertionSort (· ≤ ·)

variable (a b : List UInt8)

theorem normalize_eq : normalize a = [kMergeTokenDelimiter].intercalate (sortedWords a) := by
  rw [normalize, mergeTokens_eq, tokenizeQuery_eq, nil_append, sortedWords]

theorem isWord_of_mem_sortedWords : ∀ w ∈ sortedWords a, IsWord isspace w := by
  intro w hw
  rw [sortedWords, mem_insertionSort] at hw
  exact isWord_of_mem_lowerWords hw

theorem pairwise_sortedWords : (sortedWords a).Pairwise (· ≤ ·) :=
  pairwise_insertionSort (· ≤ ·) _

theorem perm_sortedWords : (sortedWords a).Perm (lowerWords a) :=
  perm_insertionSort (· ≤ ·) _

theorem sortedWords_eq_iff : sortedWords a = sortedWords b ↔ (lowerWords a).Perm (lowerWords b) := by
  constructor
  · intro h
    exact (perm_sortedWords a).symm.trans (h ▸ perm_sortedWords b)
  · intro h
    have hperm := (perm_sortedWords a).trans (h.trans (perm_sortedWords b).symm)
    apply hperm.eq_of_pairwise _ (pairwise_sortedWords a) (pairwise_sortedWords b)
    intro v w _ _ hvw hwv
    exact List.le_antisymm hvw hwv

/-- Equal normal forms have the same words. -/
theorem normalize_eq_iff :
    normalize a = normalize b ↔ (lowerWords a : Multiset (List UInt8)) = lowerWords b := by
  have hdelimiter : isspace kMergeTokenDelimiter = true := rfl
  rw [normalize_eq, normalize_eq, Multiset.coe_eq_coe, ← sortedWords_eq_iff]
  exact intercalate_inj hdelimiter (isWord_of_mem_sortedWords a) (isWord_of_mem_sortedWords b)

theorem lowerWords_normalize : lowerWords (normalize a) = sortedWords a := by
  have hdelimiter : isspace kMergeTokenDelimiter = true := rfl
  rw [normalize_eq, lowerWords, words_intercalate hdelimiter (isWord_of_mem_sortedWords a)]
  have hlower : ∀ w ∈ sortedWords a, w.map tolower = id w := by
    intro w hw
    obtain ⟨v, -, rfl⟩ := mem_map.mp ((perm_sortedWords a).mem_iff.mp hw)
    simp [tolower_tolower]
  rw [map_congr_left hlower, map_id]

/-- A second pass changes nothing. -/
theorem normalize_normalize : normalize (normalize a) = normalize a := by
  rw [normalize_eq_iff, Multiset.coe_eq_coe, lowerWords_normalize]
  exact perm_sortedWords a

/-- The normal form tells queries apart by their tokens, however often each occurs, and is its own
normal form. -/
theorem normalize_canonical :
    (normalize a = normalize b ↔ (lowerWords a : Multiset (List UInt8)) = lowerWords b) ∧
      normalize (normalize a) = normalize a :=
  ⟨normalize_eq_iff a b, normalize_normalize a⟩

example : normalize [32, 66, 32, 9, 97, 66] = [97, 98, 32, 98] := by decide

end QueryNormalizer

end AdDelivery.QueryNormalizer
