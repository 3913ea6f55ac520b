import Mathlib.Algebra.Group.Nat.Defs
import Mathlib.Data.Int.Notation
import Mathlib.Data.List.Basic
import Mathlib.Data.List.TakeWhile

/-!
# Query trees

The tree that a query is parsed to, and what the parser asks others for: the terms of a text, the
numbers of the terms, and the words that are not allowed.
-/

namespace AdDelivery.QueryManager

open Option

abbrev UString := List Char

inductive QueryType
  | keyword | rankKeyword | unigramWildcard | trieWildcard | and | or | not | wand | exact | order
  | nearby | asterisk | questionMark | andPersonal | orPersonal | filterQuery | unknown
deriving DecidableEq

/-- The distance is used for nearby queries only. -/
inductive QueryTree
  | node (type : QueryType) (keywordUString : UString) (keywordId : ℕ) (distance : ℤ)
      (children : List QueryTree)

structure AnalysisInfo where
  analyzerId : String := ""

/-- What the parser uses of the language analyser, the dictionary of terms and the list of
restricted words. Lower case does not touch the wildcards. -/
structure QueryParser where
  toLower : Char → Char
  toLower_asterisk : ∀ c, toLower c = '*' ↔ c = '*'
  toLower_questionMark : ∀ c, toLower c = '?' ↔ c = '?'
  getTermList : UString → AnalysisInfo → Option (List UString)
  getTermIdByTermString : UString → ℕ
  getTermListByWildcardPattern : UString → List UString
  getTermIdListByTermStringList : List UString → List ℕ
  isRestrictWord : UString → Bool
  isRestrictId : ℕ → Bool

namespace QueryTree

def ofType (type : QueryType) : QueryTree := node type [] 0 0 []

def keywordUString : QueryTree → UString
  | node _ keywordUString _ _ _ => keywordUString

def children : QueryTree → List QueryTree
  | node _ _ _ _ children => children

def setChildren : QueryTree → List QueryTree → QueryTree
  | node type keyword id distance _, children => node type keyword id distance children

/-- All children come behind those that are there. -/
def insertChildren (tree : QueryTree) (children : List QueryTree) : QueryTree :=
  tree.setChildren (tree.children ++ children)

def insertChild (tree child : QueryTree) : QueryTree := tree.insertChildren [child]

@[simp] theorem insertChildren_nil (tree : QueryTree) : tree.insertChildren [] = tree := by
  cases tree
  simp [insertChildren, setChildren, children]

@[simp] theorem insertChildren_insertChildren (tree : QueryTree) (as bs : List QueryTree) :
    (tree.insertChildren as).insertChildren bs = tree.insertChildren (as ++ bs) := by
  cases tree
  simp [insertChildren, setChildren, children]

end QueryTree

namespace QueryParser

variable (parser : QueryParser)

/-- Whether the keyword may be used comes with the tree. -/
def setKeyword (queryTree : QueryTree) (uStr : UString) : QueryTree × Bool :=
  match queryTree with
  | .node type _ _ distance children =>
    (.node type uStr (parser.getTermIdByTermString uStr) distance children,
      !parser.isRestrictWord uStr)

/-- A child for a term. It is kept whether its keyword may be used or not. -/
def keywordChild (text : UString) : QueryTree :=
  (parser.setKeyword (.ofType .keyword) text).1

end QueryParser

/-! ## Wildcards over single characters

A keyword with wildcards is taken apart into literal runs and wildcards. Behind the last literal run
no wildcard is found, and the position behind that wraps around to the start of the keyword.
-/

section UnigramWildcard

open List

/-- The largest size. -/
def npos : ℕ := 2 ^ 64 - 1

def UString.find (str : UString) (c : Char) (pos : ℕ) : ℕ :=
  match (str.drop pos).findIdx? (· = c) with
  | some i => pos + i
  | none => npos

namespace QueryParser

variable (parser : QueryParser)

/-- The number counts the rounds; without an answer they do not suffice. -/
def extendUnigramLoop (wildcardUStringQuery : UString) :
    ℕ → ℕ → QueryTree → Option (Bool × QueryTree)
  | 0, _, _ => none
  | rounds + 1, lastpos, queryTree =>
    if lastpos < wildcardUStringQuery.length then
      let pos := min (UString.find wildcardUStringQuery '*' lastpos)
        (UString.find wildcardUStringQuery '?' lastpos)
      let termList :=
        if pos > lastpos then
          parser.getTermList ((wildcardUStringQuery.drop lastpos).take (pos - lastpos))
            { analyzerId := "la_unigram" }
        else some []
      match termList with
      | none => some (false, queryTree)
      | some termList =>
        let queryTree := queryTree.insertChildren (termList.map parser.keywordChild)
        let queryTree :=
          if pos ≠ npos then
            if wildcardUStringQuery[pos]? = some '*' then
              queryTree.insertChild (.ofType .asterisk)
            else queryTree.insertChild (.ofType .questionMark)
          else queryTree
        extendUnigramLoop wildcardUStringQuery rounds ((pos + 1) % 2 ^ 64) queryTree
    else some (true, queryTree)

def extendUnigramWildcardTree (rounds : ℕ) (queryTree : QueryTree) : Option (Bool × QueryTree) :=
  parser.extendUnigramLoop (queryTree.keywordUString.map parser.toLower) rounds 0 queryTree

end QueryParser

inductive WildcardPiece
  | run (text : UString)
  | asterisk
  | questionMark

def isWildcard (c : Char) : Bool := c = '*' || c = '?'

def wildcardPiece (c : Char) : WildcardPiece := if c = '*' then .asterisk else .questionMark

/-- Runs are as long as can be. -/
def wildcardPieces : UString → List WildcardPiece
  | [] => []
  | c :: keyword =>
    if isWildcard c then wildcardPiece c :: wildcardPieces keyword
    else
      match wildcardPieces keyword with
      | .run text :: pieces => .run (c :: text) :: pieces
      | pieces => .run [c] :: pieces

/-- A literal run, unless there is none. -/
def runPieces (run : UString) : List WildcardPiece := if run = [] then [] else [.run run]

variable {run tail : UString} {c : Char}

/-- A run ends where the text ends or a wildcard comes. -/
def StartsWithWildcard : UString → Prop
  | [] => True
  | c :: _ => isWildcard c = true

theorem wildcardPieces_append (hrun : ∀ x ∈ run, isWildcard x = false)
    (htail : StartsWithWildcard tail) :
    wildcardPieces (run ++ tail) = runPieces run ++ wildcardPieces tail := by
  induction run with
  | nil => rfl
  | cons x run ih =>
    obtain ⟨hx, hrun⟩ := forall_mem_cons.mp hrun
    rw [cons_append, wildcardPieces, if_neg (by simp [hx]), ih hrun]
    cases run with
    | cons y run => simp [runPieces]
    | nil =>
      cases tail with
      | nil => simp [runPieces, wildcardPieces]
      | cons c tail =>
        have hc : isWildcard c = true := htail
        rw [wildcardPieces, if_pos hc, wildcardPiece]
        by_cases hstar : c = '*' <;> simp [hstar, runPieces]

/-- The literal run at the front, and what starts with a wildcard behind it. -/
theorem exists_run (rest : UString) : ∃ run tail, rest = run ++ tail ∧
    (∀ x ∈ run, isWildcard x = false) ∧ StartsWithWildcard tail := by
  refine ⟨rest.takeWhile (!isWildcard ·), rest.dropWhile (!isWildcard ·),
    takeWhile_append_dropWhile.symm, ?_, ?_⟩
  · intro x hx
    simpa using mem_takeWhile_imp hx
  · cases htail : rest.dropWhile (!isWildcard ·) with
    | nil => trivial
    | cons c tail =>
      have hhead := head?_dropWhile_not (!isWildcard ·) rest
      rw [htail] at hhead
      simpa [StartsWithWildcard] using hhead

theorem isWildcard_iff : isWildcard c = true ↔ c = '*' ∨ c = '?' := by simp [isWildcard]

section Find

variable {str : UString} {pos : ℕ}

theorem find_append (hdrop : str.drop pos = run ++ tail) (hrun : c ∉ run) : UString.find str c pos =
      ((tail.findIdx? (· = c)).map fun i => pos + (i + run.length)).getD npos := by
  have hnone : run.findIdx? (· = c) = none := by
    rw [findIdx?_eq_none_iff]
    intro x hx
    simpa using fun heq : x = c => hrun (heq ▸ hx)
  rw [UString.find, hdrop, findIdx?_append, hnone]
  cases tail.findIdx? (· = c) <;> rfl

theorem find_of_first (hdrop : str.drop pos = run ++ c :: tail) (hrun : c ∉ run) :
    UString.find str c pos = pos + run.length := by
  simp [find_append hdrop hrun, findIdx?_cons]

theorem find_of_notMem (hdrop : str.drop pos = run) (hrun : c ∉ run) :
    UString.find str c pos = npos := by
  rw [← append_nil run] at hdrop
  simp [find_append hdrop hrun]

theorem le_find (hdrop : str.drop pos = run ++ tail) (hrun : c ∉ run)
    (hlength : pos + run.length ≤ npos) : pos + run.length ≤ UString.find str c pos := by
  rw [find_append hdrop hrun]
  cases tail.findIdx? (· = c) with
  | none => exact hlength
  | some i =>
    change pos + run.length ≤ pos + (i + run.length)
    omega

/-- The first wildcard behind a run. -/
theorem min_find_of_wildcard (hdrop : str.drop pos = run ++ c :: tail)
    (hrun : ∀ x ∈ run, isWildcard x = false) (hc : isWildcard c = true)
    (hlength : pos + run.length ≤ npos) :
    min (UString.find str '*' pos) (UString.find str '?' pos) = pos + run.length := by
  have hnot {d : Char} (hd : isWildcard d = true) : d ∉ run := fun hmem =>
    absurd (hrun d hmem) (by simp [hd])
  have hstar := le_find hdrop (hnot rfl : '*' ∉ run) hlength
  have hquestion := le_find hdrop (hnot rfl : '?' ∉ run) hlength
  have hfirst := find_of_first hdrop (hnot hc)
  rcases isWildcard_iff.mp hc with rfl | rfl <;> omega

theorem min_find_of_run (hdrop : str.drop pos = run) (hrun : ∀ x ∈ run, isWildcard x = false) :
    min (UString.find str '*' pos) (UString.find str '?' pos) = npos := by
  have hnot {d : Char} (hd : isWildcard d = true) : d ∉ run := fun hmem =>
    absurd (hrun d hmem) (by simp [hd])
  rw [find_of_notMem hdrop (hnot rfl), find_of_notMem hdrop (hnot rfl), min_self]

end Find

namespace QueryParser

variable (parser : QueryParser)

/-- The children that a piece stands for, if it can be analysed. -/
def pieceChildren : WildcardPiece → Option (List QueryTree)
  | .run text =>
    (parser.getTermList (text.map parser.toLower) { analyzerId := "la_unigram" }).map
      fun termList => termList.map parser.keywordChild
  | .asterisk => some [.ofType .asterisk]
  | .questionMark => some [.ofType .questionMark]

def piecesChildren (pieces : List WildcardPiece) : Option (List QueryTree) :=
  (pieces.mapM parser.pieceChildren).map flatten

theorem piecesChildren_cons (piece : WildcardPiece) (pieces : List WildcardPiece) :
    parser.piecesChildren (piece :: pieces) = (parser.pieceChildren piece).bind fun children =>
        (parser.piecesChildren pieces).map (children ++ ·) := by
  simp only [piecesChildren, mapM_cons]
  cases parser.pieceChildren piece with
  | none => rfl
  | some children => cases pieces.mapM parser.pieceChildren <;> rfl

/-- The terms of a run that may be empty. -/
def runTerms (run : UString) : Option (List UString) :=
  if run = [] then some [] else parser.getTermList run { analyzerId := "la_unigram" }

theorem piecesChildren_runPieces (run : UString) (pieces : List WildcardPiece) :
    parser.piecesChildren (runPieces run ++ pieces) =
      (parser.runTerms (run.map parser.toLower)).bind fun termList =>
        (parser.piecesChildren pieces).map (termList.map parser.keywordChild ++ ·) := by
  by_cases hrun : run = []
  · simp [hrun, runPieces, runTerms]
  · rw [runPieces, if_neg hrun, singleton_append, piecesChildren_cons, runTerms, if_neg (by simpa),
      pieceChildren, bind_map]
    rfl

variable {parser} {lastpos : ℕ}

/-- Nothing literal comes behind the last wildcard. -/
def EndsInWildcard (keyword : UString) : Prop := ∀ c ∈ keyword.getLast?, isWildcard c = true

/-- The analyser turns down a literal run. -/
def AnalysisFails (parser : QueryParser) (keyword : UString) : Prop :=
  ∃ text, .run text ∈ wildcardPieces keyword ∧ parser.pieceChildren (.run text) = none

variable (parser) in
theorem piecesChildren_eq_none_iff (pieces : List WildcardPiece) :
    parser.piecesChildren pieces = none ↔
      ∃ text, .run text ∈ pieces ∧ parser.pieceChildren (.run text) = none := by
  induction pieces with
  | nil => simp [piecesChildren]
  | cons piece pieces ih =>
    rw [piecesChildren_cons]
    cases hpiece : parser.pieceChildren piece with
    | none =>
      cases piece with
      | run text => exact iff_of_true rfl ⟨text, mem_cons_self, hpiece⟩
      | asterisk => simp [pieceChildren] at hpiece
      | questionMark => simp [pieceChildren] at hpiece
    | some children =>
      have htail (text : UString) : WildcardPiece.run text ∈ piece :: pieces ∧
          parser.pieceChildren (.run text) = none ↔
            WildcardPiece.run text ∈ pieces ∧ parser.pieceChildren (.run text) = none := by
        rw [mem_cons]
        refine and_congr_left fun hnone => or_iff_right ?_
        rintro rfl
        simp [hnone] at hpiece
      simp only [htail, ← ih, bind_some, map_eq_none_iff]

variable {keyword rest : UString}

/-- What the loop has to do from a position on. -/
def LoopExtends (parser : QueryParser) (keyword rest : UString) (lastpos : ℕ)
    (queryTree : QueryTree) : Prop :=
  ∃ rounds result,
    parser.extendUnigramLoop (keyword.map parser.toLower) rounds lastpos queryTree = some result ∧
      ∀ children, parser.piecesChildren (wildcardPieces rest) = some children →
        result = (true, queryTree.insertChildren children)

theorem isWildcard_toLower (c : Char) : isWildcard (parser.toLower c) = isWildcard c := by
  simp [isWildcard, parser.toLower_asterisk, parser.toLower_questionMark]

theorem endsInWildcard_append_cons (hc : isWildcard c = true) :
    EndsInWildcard (run ++ c :: tail) ↔ EndsInWildcard tail := by
  cases tail with
  | nil => simp [EndsInWildcard, hc]
  | cons d tail => simp [EndsInWildcard, getLast?_append, getLast?_cons_cons]

theorem not_endsInWildcard_of_run (hne : rest ≠ []) (hrun : ∀ x ∈ rest, isWildcard x = false) :
    ¬EndsInWildcard rest := by
  intro hends
  have hlast := hends (rest.getLast hne) (getLast?_eq_getLast_of_ne_nil hne)
  rw [hrun _ (getLast_mem hne)] at hlast
  cases hlast

variable {queryTree : QueryTree}

theorem piecesChildren_wildcard (parser : QueryParser) (tail : UString)
    (hrun : ∀ x ∈ run, isWildcard x = false) (hc : isWildcard c = true) :
    parser.piecesChildren (wildcardPieces (run ++ c :: tail)) =
      (parser.runTerms (run.map parser.toLower)).bind fun termList =>
        (parser.piecesChildren (wildcardPieces tail)).map (termList.map parser.keywordChild ++
            (if c = '*' then .ofType .asterisk else .ofType .questionMark) :: ·) := by
  have htail : StartsWithWildcard (c :: tail) := hc
  have hpieces : wildcardPieces (c :: tail) = wildcardPiece c :: wildcardPieces tail := by
    rw [wildcardPieces, if_pos hc]
  rw [wildcardPieces_append hrun htail, piecesChildren_runPieces, hpieces, piecesChildren_cons]
  congr 1
  by_cases hstar : c = '*' <;>
    cases parser.piecesChildren (wildcardPieces tail) <;>
      simp [wildcardPiece, hstar, pieceChildren]

/-- A round up to a wildcard. -/
theorem loop_wildcard (hdrop : keyword.drop lastpos = run ++ c :: tail)
    (hrun : ∀ x ∈ run, isWildcard x = false) (hc : isWildcard c = true)
    (hlength : keyword.length < npos) (rounds : ℕ) (queryTree : QueryTree) :
    parser.extendUnigramLoop (keyword.map parser.toLower) (rounds + 1) lastpos queryTree =
      match parser.runTerms (run.map parser.toLower) with
      | none => some (false, queryTree)
      | some termList =>
        parser.extendUnigramLoop (keyword.map parser.toLower) rounds (lastpos + run.length + 1)
          (queryTree.insertChildren (termList.map parser.keywordChild ++
            [if c = '*' then .ofType .asterisk else .ofType .questionMark])) := by
  have hlower : (keyword.map parser.toLower).drop lastpos =
      run.map parser.toLower ++ parser.toLower c :: tail.map parser.toLower := by
    rw [← map_drop, hdrop, map_append, map_cons]
  have hrun' : ∀ x ∈ run.map parser.toLower, isWildcard x = false := by
    simpa [isWildcard_toLower] using hrun
  have hlt : lastpos + run.length < keyword.length := by
    have hlen := congrArg List.length hdrop
    rw [length_drop, length_append, length_cons] at hlen
    omega
  have hmin := min_find_of_wildcard hlower hrun' (by rwa [isWildcard_toLower])
    (by rw [length_map]; omega)
  rw [length_map] at hmin
  have hget : (keyword.map parser.toLower)[lastpos + run.length]? = some (parser.toLower c) := by
    rw [← getElem?_drop, hlower, getElem?_append_right (by simp), length_map, Nat.sub_self]
    rfl
  have hwrap : (lastpos + run.length + 1) % 2 ^ 64 = lastpos + run.length + 1 := by
    apply Nat.mod_eq_of_lt
    rw [npos] at hlength
    omega
  have hterms : (if lastpos + run.length > lastpos then parser.getTermList
      (((keyword.map parser.toLower).drop lastpos).take (lastpos + run.length - lastpos))
        { analyzerId := "la_unigram" }
      else some []) = parser.runTerms (run.map parser.toLower) := by
    rw [hlower, Nat.add_sub_cancel_left, runTerms]
    cases run <;> simp
  rw [extendUnigramLoop, if_pos (by rw [length_map]; omega)]
  simp only [hmin, hterms, hwrap, hget]
  cases parser.runTerms (run.map parser.toLower) with
  | none => rfl
  | some termList =>
    have hne : lastpos + run.length ≠ npos := by omega
    by_cases hstar : c = '*' <;>
      simp [hne, hstar, parser.toLower_asterisk, QueryTree.insertChild]

/-- The round of the last run goes back to the start. -/
theorem loop_run (hdrop : keyword.drop lastpos = run) (hne : run ≠ [])
    (hrun : ∀ x ∈ run, isWildcard x = false) (hlength : keyword.length < npos) (rounds : ℕ)
    (queryTree : QueryTree) :
    parser.extendUnigramLoop (keyword.map parser.toLower) (rounds + 1) lastpos queryTree =
      match parser.runTerms (run.map parser.toLower) with
      | none => some (false, queryTree)
      | some termList =>
        parser.extendUnigramLoop (keyword.map parser.toLower) rounds 0
          (queryTree.insertChildren (termList.map parser.keywordChild)) := by
  have hlower : (keyword.map parser.toLower).drop lastpos = run.map parser.toLower := by
    rw [← map_drop, hdrop]
  have hlt : lastpos < keyword.length := by
    have hpos := length_pos_of_ne_nil hne
    rw [← hdrop, length_drop] at hpos
    omega
  have hmin := min_find_of_run hlower (by simpa [isWildcard_toLower] using hrun)
  have hterms : parser.getTermList (((keyword.map parser.toLower).drop lastpos).take
      (npos - lastpos)) { analyzerId := "la_unigram" } =
        parser.runTerms (run.map parser.toLower) := by
    rw [take_of_length_le, hlower, runTerms, if_neg (by simpa using hne)]
    rw [length_drop, length_map]
    omega
  have hwrap : (npos + 1) % 2 ^ 64 = 0 := by decide
  have hgt : npos > lastpos := by omega
  rw [extendUnigramLoop, if_pos (by rwa [length_map])]
  simp only [hmin, if_pos hgt, hterms, hwrap]
  cases parser.runTerms (run.map parser.toLower) <;> simp

theorem piecesChildren_run (hrun : ∀ x ∈ run, isWildcard x = false) :
    parser.piecesChildren (wildcardPieces run) =
      (parser.runTerms (run.map parser.toLower)).map (·.map parser.keywordChild) := by
  have h := parser.piecesChildren_runPieces run []
  rw [append_nil] at h
  have hpieces : wildcardPieces (run ++ []) = runPieces run ++ wildcardPieces [] :=
    wildcardPieces_append hrun trivial
  rw [append_nil, wildcardPieces, append_nil] at hpieces
  rw [hpieces, h]
  cases parser.runTerms (run.map parser.toLower) <;> simp [piecesChildren]

/-- The induction is on what is left of the keyword, a run and a wildcard at a time. -/
theorem loopExtends (hlength : keyword.length < npos) (rest : UString)
    (hdrop : keyword.drop lastpos = rest)
    (h : EndsInWildcard rest ∨ parser.piecesChildren (wildcardPieces rest) = none)
    (queryTree : QueryTree) : LoopExtends parser keyword rest lastpos queryTree := by
  induction hn : rest.length using Nat.strong_induction_on generalizing rest lastpos queryTree with
  | _ n ih =>
    subst hn
    obtain ⟨run, tail, rfl, hrun, htail⟩ := exists_run rest
    cases tail with
    | nil =>
      rw [append_nil] at hdrop h ⊢
      by_cases hne : run = []
      · subst hne
        have hend : ¬lastpos < (keyword.map parser.toLower).length := by
          rw [length_map]
          have := drop_eq_nil_iff.mp hdrop
          omega
        refine ⟨1, (true, queryTree), ?_, ?_⟩
        · rw [extendUnigramLoop, if_neg hend]
        · intro children hchildren
          obtain rfl : [] = children := some.inj hchildren
          simp
      · have hnone := h.resolve_left (not_endsInWildcard_of_run hne hrun)
        refine ⟨1, (false, queryTree), ?_, ?_⟩
        · rw [loop_run hdrop hne hrun hlength]
          rw [piecesChildren_run hrun, map_eq_none_iff] at hnone
          rw [hnone]
        · intro children hchildren
          simp [hnone] at hchildren
    | cons c tail =>
      have hpieces := parser.piecesChildren_wildcard tail hrun htail
      cases hterms : parser.runTerms (run.map parser.toLower) with
      | none =>
        refine ⟨1, (false, queryTree), ?_, ?_⟩
        · rw [loop_wildcard hdrop hrun htail hlength, hterms]
        · intro children hchildren
          simp [hpieces, hterms] at hchildren
      | some termList =>
        rw [hterms, bind_some] at hpieces
        rw [hpieces, endsInWildcard_append_cons htail, map_eq_none_iff] at h
        have hnext : keyword.drop (lastpos + run.length + 1) = tail := by
          rw [← drop_drop, ← drop_drop, hdrop, drop_left, drop_one, tail_cons]
        obtain ⟨rounds, result, hloop, hresult⟩ :=
          ih tail.length (by rw [length_append, length_cons]; omega) tail hnext h
            (queryTree.insertChildren (termList.map parser.keywordChild ++
              [if c = '*' then .ofType .asterisk else .ofType .questionMark])) rfl
        refine ⟨rounds + 1, result, ?_, ?_⟩
        · rw [loop_wildcard hdrop hrun htail hlength, hterms]
          exact hloop
        · intro children hchildren
          rw [hpieces, map_eq_some_iff] at hchildren
          obtain ⟨rest, hrest, rfl⟩ := hchildren
          rw [hresult rest hrest]
          simp

/-- A keyword that ends in a run is gone through again and again. -/
theorem loop_eq_none (hlength : keyword.length < npos) (hends : ¬EndsInWildcard keyword)
    (hkeyword : parser.piecesChildren (wildcardPieces keyword) ≠ none) (rounds : ℕ)
    {rest : UString} (hdrop : keyword.drop lastpos = rest) (hne : rest ≠ [])
    (hrest : ¬EndsInWildcard rest)
    (hanalysed : parser.piecesChildren (wildcardPieces rest) ≠ none) (queryTree : QueryTree) :
    parser.extendUnigramLoop (keyword.map parser.toLower) rounds lastpos queryTree = none := by
  induction rounds generalizing lastpos rest queryTree with
  | zero => rfl
  | succ rounds ih =>
    obtain ⟨run, tail, rfl, hrun, htail⟩ := exists_run rest
    cases tail with
    | nil =>
      rw [append_nil] at hdrop hne hanalysed
      rw [piecesChildren_run hrun] at hanalysed
      rw [loop_run hdrop hne hrun hlength]
      cases hterms : parser.runTerms (run.map parser.toLower) with
      | none => simp [hterms] at hanalysed
      | some termList =>
        have hstart : keyword ≠ [] := by
          rintro rfl
          exact hends (by simp [EndsInWildcard])
        exact ih drop_zero hstart hends hkeyword _
    | cons c tail =>
      have hpieces := parser.piecesChildren_wildcard tail hrun htail
      rw [loop_wildcard hdrop hrun htail hlength]
      cases hterms : parser.runTerms (run.map parser.toLower) with
      | none => simp [hpieces, hterms] at hanalysed
      | some termList =>
        have hnext : keyword.drop (lastpos + run.length + 1) = tail := by
          rw [← drop_drop, ← drop_drop, hdrop, drop_left, drop_one, tail_cons]
        rw [endsInWildcard_append_cons htail] at hrest
        have hne' : tail ≠ [] := by
          rintro rfl
          exact hrest (by simp [EndsInWildcard])
        have hanalysed' : parser.piecesChildren (wildcardPieces tail) ≠ none := by
          intro hnone
          exact hanalysed (by simp [hpieces, hterms, hnone])
        exact ih hnext hne' hrest hanalysed' _

/-- The keyword of the tree is gone through in finitely many rounds, and where all its runs can be
analysed, the tree gets the children of the pieces in their order. -/
def ExtendsByPieces (parser : QueryParser) (queryTree : QueryTree) : Prop :=
  ∃ rounds result, parser.extendUnigramWildcardTree rounds queryTree = some result ∧
    ∀ children, parser.piecesChildren (wildcardPieces queryTree.keywordUString) = some children →
      result = (true, queryTree.insertChildren children)

theorem extendsByPieces_iff (parser : QueryParser) (queryTree : QueryTree)
    (hlength : queryTree.keywordUString.length < npos) : parser.ExtendsByPieces queryTree ↔
      EndsInWildcard queryTree.keywordUString ∨ AnalysisFails parser queryTree.keywordUString := by
  rw [AnalysisFails, ← piecesChildren_eq_none_iff]
  constructor
  · rintro ⟨rounds, result, hloop, -⟩
    by_contra hnot
    obtain ⟨hends, hnone⟩ := not_or.mp hnot
    have hne : queryTree.keywordUString ≠ [] := by
      intro hnil
      rw [hnil] at hends
      exact hends (by simp [EndsInWildcard])
    have hnever := loop_eq_none hlength hends hnone rounds drop_zero hne hends hnone queryTree
    rw [extendUnigramWildcardTree, hnever] at hloop
    cases hloop
  · intro h
    exact loopExtends hlength _ drop_zero h queryTree

/-- Text in lower case, each character a term of its own. -/
def unigramParser : QueryParser where
  toLower := id
  toLower_asterisk _ := Iff.rfl
  toLower_questionMark _ := Iff.rfl
  getTermList text _ := some (text.map ([·]))
  getTermIdByTermString text := text.length
  getTermListByWildcardPattern _ := []
  getTermIdListByTermStringList _ := []
  isRestrictWord _ := false
  isRestrictId _ := false

def unigramTree (keyword : UString) : QueryTree :=
  (unigramParser.setKeyword (.ofType .unigramWildcard) keyword).1

theorem extendsByPieces_iff_ab : unigramParser.ExtendsByPieces (unigramTree ['a', '*', 'b', '?']) ↔
      EndsInWildcard (unigramTree ['a', '*', 'b', '?']).keywordUString ∨
        AnalysisFails unigramParser (unigramTree ['a', '*', 'b', '?']).keywordUString :=
  extendsByPieces_iff unigramParser (unigramTree ['a', '*', 'b', '?']) (by decide)

/-- The literal run at the end is analysed again and again. -/
theorem not_extendsByPieces_ab : ¬unigramParser.ExtendsByPieces (unigramTree ['a', '*', 'b']) := by
  rintro ⟨rounds, result, hloop, -⟩
  have hends : ¬EndsInWildcard ['a', '*', 'b'] := by simp [EndsInWildcard, isWildcard]
  have hanalysed : unigramParser.piecesChildren (wildcardPieces ['a', '*', 'b']) ≠ none := by
    simp [piecesChildren, wildcardPieces, isWildcard, wildcardPiece, pieceChildren, unigramParser]
  have hlength : ['a', '*', 'b'].length < npos := by decide
  have hnever := loop_eq_none hlength hends hanalysed rounds drop_zero (cons_ne_nil _ _) hends
    hanalysed (unigramTree ['a', '*', 'b'])
  exact absurd (hnever.symm.trans hloop) (by simp)

end QueryParser

end UnigramWildcard

end AdDelivery.QueryManager
