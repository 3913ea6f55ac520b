import AdDelivery.Core.Words
import AdDelivery.Core.Dictionary
import Mathlib.Algebra.Order.Ring.Unbundled.Rat

/-!
# Bid phrases

A bid phrase is a short list of keyword ids. It is made from a text by the title
analyser, whose tokens are sorted by weight and interned one by one in the
keyword dictionary. The string of a phrase, its keywords each followed by a
blank, is the key under which the phrase is priced and logged.
-/

namespace AdDelivery.Sponsored

section BidPhrase

open List

def maxBidphraseLen : Nat := 5

abbrev BidKeywordId := Nat
abbrev BidPhrase := List BidKeywordId
abbrev BidPhraseList := List BidPhrase

/-- The title analyser and the unstable sort of its tokens, heaviest first. -/
structure TitlePCA where
  pca : String → List (String × ℚ)
  sortTokens : List (String × ℚ) → List (String × ℚ)
  sortTokens_perm : ∀ ts, (sortTokens ts).Perm ts
  sortTokens_sorted : ∀ ts, (sortTokens ts).Pairwise fun left right => right.2 ≤ left.2

namespace TitlePCA

/-- The string overload of `generateBidPhrase`: all tokens of a text, heaviest first. -/
def generateBidTokens (tk : TitlePCA) (adTitle : String) : List String :=
  (tk.sortTokens (tk.pca adTitle.toLower)).map Prod.fst

/-- The analyser yields this word for some text. -/
def IsToken (tk : TitlePCA) (word : String) : Prop :=
  ∃ title, word ∈ (tk.pca title).map Prod.fst

theorem isToken_of_mem {tk : TitlePCA} {title word : String}
    (h : word ∈ tk.generateBidTokens title) : tk.IsToken word :=
  ⟨title.toLower, ((tk.sortTokens_perm _).map Prod.fst).mem_iff.mp h⟩

end TitlePCA

/-- Every word followed by a blank. -/
def joinKeywords (words : List String) : String :=
  words.foldl (fun str word => str ++ (word ++ " ")) ""

/-- The key of a text in the click log: at most `maxBidphraseLen` tokens. -/
def preprocessBidPhraseStr (tk : TitlePCA) (orig : String) : String :=
  let tokensList := tk.generateBidTokens orig
  joinKeywords (if maxBidphraseLen < tokensList.length then tokensList.take maxBidphraseLen
    else tokensList)

variable (d : Dictionary String)

def getBidKeywordIdFromStr (keyword : String) : Option BidKeywordId :=
  d.valueIdList.lookup keyword

/-- An unknown id reads as the empty keyword. -/
def getBidKeywordStrFromId (id : BidKeywordId) : String :=
  if d.idValueList.length ≤ id then "" else d.idValueList.getD id ""

def getBidPhraseStr (bidphrase : BidPhrase) : String :=
  joinKeywords (bidphrase.map (getBidKeywordStrFromId d))

def getBidPhraseStrList (bidphraseList : BidPhraseList) : List String :=
  bidphraseList.map (getBidPhraseStr d)

theorem getBidKeywordStrFromId_eq {d : Dictionary String} {id : BidKeywordId} {word : String}
    (h : d.idValueList[id]? = some word) : getBidKeywordStrFromId d id = word := by
  obtain ⟨hlt, -⟩ := List.getElem?_eq_some_iff.mp h
  rw [getBidKeywordStrFromId, if_neg (by omega), getD_eq_getElem?_getD, h, Option.getD_some]

/-- Every id of the phrase denotes a word that the analyser can yield. -/
def PhraseOk (tk : TitlePCA) (d : Dictionary String) (bidphrase : BidPhrase) : Prop :=
  ∀ id ∈ bidphrase, ∃ word, d.idValueList[id]? = some word ∧ tk.IsToken word

section Stable

variable {tk : TitlePCA} {d d' : Dictionary String} {bidphrase : BidPhrase}

section

variable (h : PhraseOk tk d bidphrase)
include h

theorem PhraseOk.lt_length : ∀ id ∈ bidphrase, id < d.idValueList.length := by
  intro id hid
  obtain ⟨word, hword, -⟩ := h id hid
  exact (List.getElem?_eq_some_iff.mp hword).1

theorem PhraseOk.mono (hd : d.Extends d') : PhraseOk tk d' bidphrase := by
  intro id hid
  obtain ⟨word, hword, htoken⟩ := h id hid
  exact ⟨word, (hd.getElem? (h.lt_length id hid)).trans hword, htoken⟩

/-- New keywords do not change the words of a phrase. -/
theorem PhraseOk.map_keyword (hd : d.Extends d') :
    bidphrase.map (getBidKeywordStrFromId d') = bidphrase.map (getBidKeywordStrFromId d) := by
  apply map_congr_left
  intro id hid
  obtain ⟨word, hword, -⟩ := h id hid
  rw [getBidKeywordStrFromId_eq hword,
    getBidKeywordStrFromId_eq ((hd.getElem? (h.lt_length id hid)).trans hword)]

theorem PhraseOk.str_eq (hd : d.Extends d') :
    getBidPhraseStr d' bidphrase = getBidPhraseStr d bidphrase := by
  rw [getBidPhraseStr, h.map_keyword hd, getBidPhraseStr]

end

theorem PhraseOk.nil : PhraseOk tk d [] := nofun

end Stable

/-- Intern the tokens one by one; the loop stops once the phrase is longer than
`maxBidphraseLen`, so a phrase can hold one keyword more than that. -/
def pushKeywords : List String → BidPhrase → Dictionary String → BidPhrase × Dictionary String
  | [], bidphrase, d => (bidphrase, d)
  | token :: tokens, bidphrase, d =>
    let (kid, d) := d.intern token
    let bidphrase := bidphrase ++ [kid]
    if maxBidphraseLen < bidphrase.length then (bidphrase, d)
    else pushKeywords tokens bidphrase d

/-- The id overload of `generateBidPhrase`. An empty text leaves the caller's phrase as
it was; a text without tokens clears it. -/
def generateBidPhrase (tk : TitlePCA) (d : Dictionary String) (adTitle : String)
    (bidphrase : BidPhrase) : BidPhrase × Dictionary String :=
  if adTitle.isEmpty then (bidphrase, d)
  else pushKeywords (tk.generateBidTokens adTitle) [] d

/-- The string of the phrase that a text makes. -/
def phraseKey (tk : TitlePCA) (adTitle : String) : String :=
  if adTitle.isEmpty then ""
  else joinKeywords ((tk.generateBidTokens adTitle).take (maxBidphraseLen + 1))

/-- Make a phrase and its string for each text in turn. The phrase variable is either
cleared before each text or carried over from the text before. -/
def generateBidPhrases (tk : TitlePCA) (clear : Bool) :
    List String → BidPhrase → Dictionary String → List (BidPhrase × String) × Dictionary String
  | [], _, d => ([], d)
  | text :: texts, carry, d =>
    let (bidphrase, d) := generateBidPhrase tk d text (if clear then [] else carry)
    let bidstr := getBidPhraseStr d bidphrase
    let (rest, d) := generateBidPhrases tk clear texts bidphrase d
    ((bidphrase, bidstr) :: rest, d)

/-- The strings of a loop that carries its phrase: an empty text repeats the one before. -/
def carriedKeys (tk : TitlePCA) : List String → String → List String
  | [], _ => []
  | text :: texts, carry =>
    let key := if text.isEmpty then carry else phraseKey tk text
    key :: carriedKeys tk texts key

section Spec

variable {tk : TitlePCA} {d : Dictionary String}

/-- What pushing tokens does: the dictionary grows and the phrase denotes the tokens. -/
theorem pushKeywords_spec (tokens : List String) (htokens : ∀ t ∈ tokens, tk.IsToken t)
    (p : BidPhrase) (hp : PhraseOk tk d p) (hlen : p.length ≤ maxBidphraseLen) (hd : d.Inverse) :
    (pushKeywords tokens p d).2.Inverse ∧ d.Extends (pushKeywords tokens p d).2 ∧
      PhraseOk tk (pushKeywords tokens p d).2 (pushKeywords tokens p d).1 ∧
      (pushKeywords tokens p d).1.map (getBidKeywordStrFromId (pushKeywords tokens p d).2) =
        p.map (getBidKeywordStrFromId d) ++ tokens.take (maxBidphraseLen + 1 - p.length) := by
  induction tokens generalizing p d with
  | nil => exact ⟨hd, .refl d, hp, by simp [pushKeywords]⟩
  | cons token tokens ih =>
    have hext := d.extends_intern token
    have hkid := hd.getElem?_intern token
    have hp' : PhraseOk tk (d.intern token).2 (p ++ [(d.intern token).1]) := by
      intro id hid
      rcases mem_append.mp hid with hid | hid
      · exact hp.mono hext id hid
      · rw [mem_singleton.mp hid]
        exact ⟨token, hkid, htokens token mem_cons_self⟩
    have hmap : (p ++ [(d.intern token).1]).map (getBidKeywordStrFromId (d.intern token).2) =
        p.map (getBidKeywordStrFromId d) ++ [token] := by
      rw [map_append, hp.map_keyword hext, map_singleton, getBidKeywordStrFromId_eq hkid]
    have htake : (token :: tokens).take (maxBidphraseLen + 1 - p.length) =
        token :: tokens.take (maxBidphraseLen + 1 - (p.length + 1)) := by
      rw [show maxBidphraseLen + 1 - p.length = (maxBidphraseLen - p.length) + 1 by omega,
        take_succ_cons]
      congr 2
      omega
    simp only [pushKeywords]
    split
    · rename_i hfull
      refine ⟨hd.intern token, hext, hp', ?_⟩
      rw [length_append, length_singleton] at hfull
      rw [hmap, htake, show maxBidphraseLen + 1 - (p.length + 1) = 0 by omega, take_zero]
    · rename_i hroom
      obtain ⟨hinv, hext', hok, hstr⟩ := ih (fun t ht => htokens t (mem_cons_of_mem _ ht))
        (p ++ [(d.intern token).1]) hp' (by omega) (hd.intern token)
      refine ⟨hinv, hext.trans hext', hok, ?_⟩
      rw [hstr, hmap, htake, length_append, append_assoc]
      rfl

/-- What one text makes of the dictionary and of the phrase variable. -/
theorem generateBidPhrase_spec (hd : d.Inverse) (adTitle : String) {p : BidPhrase}
    (hp : PhraseOk tk d p) : (generateBidPhrase tk d adTitle p).2.Inverse ∧
      d.Extends (generateBidPhrase tk d adTitle p).2 ∧
      PhraseOk tk (generateBidPhrase tk d adTitle p).2 (generateBidPhrase tk d adTitle p).1 ∧
      getBidPhraseStr (generateBidPhrase tk d adTitle p).2 (generateBidPhrase tk d adTitle p).1 =
        if adTitle.isEmpty then getBidPhraseStr d p else phraseKey tk adTitle := by
  unfold generateBidPhrase phraseKey
  split
  · exact ⟨hd, .refl d, hp, rfl⟩
  · obtain ⟨hinv, hext, hok, hstr⟩ := pushKeywords_spec (tk.generateBidTokens adTitle)
      (fun _ ht => TitlePCA.isToken_of_mem ht) [] PhraseOk.nil (Nat.zero_le _) hd
    refine ⟨hinv, hext, hok, ?_⟩
    rw [getBidPhraseStr, hstr]
    rfl

/-- What a loop over texts makes: one phrase per text, each with its string. -/
structure PhrasesSpec (tk : TitlePCA) (d : Dictionary String) (texts : List String)
    (r : List (BidPhrase × String) × Dictionary String) : Prop where
  inverse : r.2.Inverse
  extends_ : d.Extends r.2
  length_eq : r.1.length = texts.length
  ok : ∀ q ∈ r.1, PhraseOk tk r.2 q.1 ∧ getBidPhraseStr r.2 q.1 = q.2

variable {r : List (BidPhrase × String) × Dictionary String}

theorem PhrasesSpec.of_extends {d' : Dictionary String} {texts : List String}
    (h : PhrasesSpec tk d' texts r) (hext : d.Extends d') : PhrasesSpec tk d texts r where
  inverse := h.inverse
  extends_ := hext.trans h.extends_
  length_eq := h.length_eq
  ok := h.ok

/-- Under the grown dictionary the phrases read as their strings. -/
theorem PhrasesSpec.strs_eq {texts : List String} (h : PhrasesSpec tk d texts r) :
    getBidPhraseStrList r.2 (r.1.map Prod.fst) = r.1.map Prod.snd := by
  rw [getBidPhraseStrList, List.map_map]
  apply map_congr_left
  intro q hq
  exact (h.ok q hq).2

variable {carry : BidPhrase}

theorem generateBidPhrases_spec (tk : TitlePCA) (clear : Bool) (texts : List String)
    (hd : d.Inverse) (hcarry : PhraseOk tk d carry) :
    PhrasesSpec tk d texts (generateBidPhrases tk clear texts carry d) := by
  induction texts generalizing d carry with
  | nil => exact ⟨hd, .refl d, rfl, nofun⟩
  | cons text texts ih =>
    have hstart : PhraseOk tk d (if clear then [] else carry) := by
      split
      · exact .nil
      · exact hcarry
    obtain ⟨hinv, hext, hok, -⟩ := generateBidPhrase_spec hd text hstart
    have hrest := ih hinv hok
    refine ⟨hrest.inverse, hext.trans hrest.extends_, ?_, ?_⟩
    · simp only [generateBidPhrases, length_cons, hrest.length_eq]
    · intro q hq
      rcases mem_cons.mp hq with rfl | hq
      · exact ⟨hok.mono hrest.extends_, hok.str_eq hrest.extends_⟩
      · exact hrest.ok q hq

/-- A loop that clears its phrase makes exactly the keys of its texts. -/
theorem generateBidPhrases_keys (tk : TitlePCA) (texts : List String) (hd : d.Inverse)
    (hcarry : PhraseOk tk d carry) :
    (generateBidPhrases tk true texts carry d).1.map Prod.snd = texts.map (phraseKey tk) := by
  induction texts generalizing d carry with
  | nil => rfl
  | cons text texts ih =>
    obtain ⟨hinv, -, hok, hstr⟩ := generateBidPhrase_spec hd text (.nil : PhraseOk tk d [])
    have hkey : getBidPhraseStr (generateBidPhrase tk d text []).2
        (generateBidPhrase tk d text []).1 = phraseKey tk text := by
      rw [hstr]
      split
      · rename_i hempty
        rw [phraseKey, if_pos hempty]
        rfl
      · rfl
    simp only [generateBidPhrases, if_true, map_cons, hkey, ih hinv hok]

theorem generateBidPhrases_carried (tk : TitlePCA) (texts : List String) (hd : d.Inverse)
    (hcarry : PhraseOk tk d carry) : (generateBidPhrases tk false texts carry d).1.map Prod.snd =
      carriedKeys tk texts (getBidPhraseStr d carry) := by
  induction texts generalizing d carry with
  | nil => rfl
  | cons text texts ih =>
    obtain ⟨hinv, -, hok, hstr⟩ := generateBidPhrase_spec hd text hcarry
    simp only [generateBidPhrases, Bool.false_eq_true, if_false, map_cons, carriedKeys,
      ih hinv hok, hstr]

end Spec

/-- The words between blanks, all of the same weight. -/
def blankPCA : TitlePCA where
  pca line := ((line.toList.splitOnP (· == ' ')).filter (· ≠ [])).map fun word =>
    (String.ofList word, 1)
  sortTokens ts := ts.insertionSort fun left right => right.2 ≤ left.2
  sortTokens_perm ts := perm_insertionSort _ ts
  sortTokens_sorted ts := by
    let heavier : String × ℚ → String × ℚ → Prop := fun left right => right.2 ≤ left.2
    have : Std.Total heavier := ⟨fun left right => le_total right.2 left.2⟩
    have : IsTrans (String × ℚ) heavier := ⟨fun _ _ _ h h' => le_trans h' h⟩
    exact pairwise_insertionSort heavier ts

/-- The words between blanks have no blanks. -/
theorem no_blank_of_isToken {word : String} (h : blankPCA.IsToken word) : ' ' ∉ word.toList := by
  obtain ⟨title, hword⟩ := h
  rw [blankPCA, List.map_map, mem_map] at hword
  obtain ⟨chars, hchars, rfl⟩ := hword
  have hsplit := (mem_filter.mp hchars).1
  intro hblank
  rw [Function.comp_apply, String.toList_ofList] at hblank
  simpa using not_sep_of_mem_splitOnP hsplit ' ' hblank

example : phraseKey blankPCA "Red Phone" = "red phone " := by decide +kernel

end BidPhrase

/-! ## Two keys for one phrase

Clicks are logged under the key of `preprocessBidPhraseStr`, which keeps `maxBidphraseLen` tokens.
Impressions and prices are kept under the string of the stored phrase, which holds one token more.
So the keys differ exactly for the texts with more tokens than the bound. For the empty text they
differ as well if the analyser finds tokens in it.
-/

section PhraseKey

theorem joinKeywords_concat (words : List String) (word : String) :
    joinKeywords (words ++ [word]) = joinKeywords words ++ (word ++ " ") := by
  rw [joinKeywords, List.foldl_append]
  rfl

theorem joinKeywords_concat_ne (words : List String) (word : String) :
    joinKeywords (words ++ [word]) ≠ joinKeywords words := by
  intro heq
  have hlength := congrArg String.length heq
  rw [joinKeywords_concat, String.length_append, String.length_append] at hlength
  have hblank : " ".length = 1 := rfl
  omega

theorem joinKeywords_eq_empty_iff {words : List String} : joinKeywords words = "" ↔ words = [] := by
  constructor
  · intro hjoin
    rcases List.eq_nil_or_concat' words with hnil | ⟨words, word, rfl⟩
    · exact hnil
    · have hlength := congrArg String.length hjoin
      rw [joinKeywords_concat, String.length_append, String.length_append] at hlength
      have hblank : " ".length = 1 := rfl
      have hempty : "".length = 0 := rfl
      omega
  · rintro rfl
    rfl

/-- One token more makes another key. -/
theorem joinKeywords_take_succ_eq_iff {words : List String} {n : ℕ} :
    joinKeywords (words.take (n + 1)) = joinKeywords (words.take n) ↔ words.length ≤ n := by
  constructor
  · intro heq
    by_contra hlong
    rw [List.take_add_one, List.getElem?_eq_getElem (by omega)] at heq
    exact joinKeywords_concat_ne _ _ heq
  · intro hshort
    rw [List.take_of_length_le hshort, List.take_of_length_le (by omega)]

variable {tk : TitlePCA}

theorem preprocessBidPhraseStr_eq (orig : String) : preprocessBidPhraseStr tk orig =
    joinKeywords ((tk.generateBidTokens orig).take maxBidphraseLen) := by
  rw [preprocessBidPhraseStr]
  split
  · rfl
  · rw [List.take_of_length_le (by omega)]

theorem phraseKey_eq_preprocess_iff (text : String) :
    phraseKey tk text = preprocessBidPhraseStr tk text ↔
      (tk.generateBidTokens text).length ≤ maxBidphraseLen ∧
        (text = "" → tk.generateBidTokens text = []) := by
  rw [preprocessBidPhraseStr_eq, phraseKey]
  by_cases hempty : text = ""
  · subst hempty
    have htrue : "".isEmpty = true := rfl
    rw [if_pos htrue, eq_comm, joinKeywords_eq_empty_iff, List.take_eq_nil_iff]
    constructor
    · rintro (hzero | hnil)
      · simp [maxBidphraseLen] at hzero
      · simp [hnil]
    · exact fun h => .inr (h.2 rfl)
  · rw [if_neg (by simpa using hempty), joinKeywords_take_succ_eq_iff]
    exact (and_iff_left fun h => absurd h hempty).symm

/-- The phrase made from a text, read by the dictionary then or later, has the key of the click log
exactly if the text has at most `maxBidphraseLen` tokens, and the empty text none. -/
theorem getBidPhraseStr_eq_preprocess_iff {d d' : Dictionary String} (hd : d.Inverse)
    (text : String) (hext : (generateBidPhrase tk d text []).2.Extends d') :
    getBidPhraseStr d' (generateBidPhrase tk d text []).1 = preprocessBidPhraseStr tk text ↔
      (tk.generateBidTokens text).length ≤ maxBidphraseLen ∧
        (text = "" → tk.generateBidTokens text = []) := by
  obtain ⟨-, -, hphrase, hkey⟩ := generateBidPhrase_spec hd text (.nil : PhraseOk tk d [])
  have hstored : getBidPhraseStr d' (generateBidPhrase tk d text []).1 = phraseKey tk text := by
    rw [hphrase.str_eq hext, hkey, phraseKey]
    split <;> rfl
  rw [hstored, phraseKey_eq_preprocess_iff]

theorem getBidPhraseStr_eq_preprocess_redPhone :
    getBidPhraseStr (generateBidPhrase blankPCA {} "red phone" []).2
        (generateBidPhrase blankPCA {} "red phone" []).1 =
          preprocessBidPhraseStr blankPCA "red phone" ↔
      (blankPCA.generateBidTokens "red phone").length ≤ maxBidphraseLen ∧
        ("red phone" = "" → blankPCA.generateBidTokens "red phone" = []) :=
  getBidPhraseStr_eq_preprocess_iff Dictionary.inverse_empty "red phone" (.refl _)

/-- Six words are logged as five. -/
theorem not_getBidPhraseStr_eq_preprocess_sixWords :
    ¬ ∀ (tk : TitlePCA) (d : Dictionary String), d.Inverse → ∀ text,
      getBidPhraseStr (generateBidPhrase tk d text []).2 (generateBidPhrase tk d text []).1 =
        preprocessBidPhraseStr tk text := by
  intro hall
  have hkey := hall blankPCA {} Dictionary.inverse_empty "a b c d e f"
  obtain ⟨-, -, -, hstored⟩ := generateBidPhrase_spec Dictionary.inverse_empty "a b c d e f"
    (.nil : PhraseOk blankPCA {} [])
  have hnonempty : ("a b c d e f".isEmpty) = false := by decide +kernel
  rw [hstored, hnonempty, if_neg Bool.false_ne_true, phraseKey_eq_preprocess_iff] at hkey
  exact absurd hkey.1 (by decide +kernel)

end PhraseKey

end AdDelivery.Sponsored
