import Mathlib.Algebra.Order.Group.Nat
import Mathlib.Data.List.Basic

/-!
# Splitting group paths and attributes

A text holds values between marks. A value in quotes may contain any character, a quote being
written twice; what follows an end quote up to the next mark is skipped. A value without quotes
ends at the next mark and is trimmed.
-/

namespace AdDelivery.Mining

open List Nat

/-- The characters that have a meaning. They differ. -/
structure Marks (CharT : Type) where
  colon : CharT
  verticalLine : CharT
  greaterThan : CharT
  comma : CharT
  semicolon : CharT
  quote : CharT
  nodup : [colon, verticalLine, greaterThan, comma, semicolon, quote].Nodup

section Split

variable {CharT : Type} [DecidableEq CharT] (m : Marks CharT) (compact : List CharT → List CharT)

/-- What is copied behind an opening quote, and what is left behind the end quote. -/
def scanQuoted : List CharT → List CharT × List CharT
  | [] => ([], [])
  | [c] => if c = m.quote then ([], []) else ([c], [])
  | c :: d :: it =>
    if c = m.quote then
      if d = m.quote then (d :: (scanQuoted it).1, (scanQuoted it).2) else ([], d :: it)
    else (c :: (scanQuoted (d :: it)).1, (scanQuoted (d :: it)).2)

/-- The value up to a delimiter, and the text from there on. -/
def parseUstr (delimStr it : List CharT) : List CharT × List CharT :=
  if it.head? = some m.quote then
    ((scanQuoted m it.tail).1, (scanQuoted m it.tail).2.dropWhile fun c => decide (c ∉ delimStr))
  else
    (compact (it.takeWhile fun c => decide (c ∉ delimStr)),
      it.dropWhile fun c => decide (c ∉ delimStr))

/-- What is empty is left out. -/
def pushNonEmpty {α : Type} (xs : List (List α)) (x : List α) : List (List α) :=
  if x.isEmpty then xs else xs ++ [x]

/-- The values as long as a separator follows. -/
def valuesAfter (delimStr : List CharT) (separator : CharT) :
    ℕ → List (List CharT) → List CharT → Option (List (List CharT) × List CharT)
  | 0, _, _ => none
  | fuel + 1, values, it =>
    if it.head? = some separator then
      let parsed := parseUstr m compact delimStr it.tail
      valuesAfter delimStr separator fuel (pushNonEmpty values parsed.1) parsed.2
    else some (values, it)

/-- The values of a path or of an attribute. -/
def parseValueList (delimStr : List CharT) (separator : CharT) (it : List CharT) :
    Option (List (List CharT) × List CharT) :=
  let parsed := parseUstr m compact delimStr it
  valuesAfter m compact delimStr separator (it.length + 1) (pushNonEmpty [] parsed.1) parsed.2

def groupPathsFrom : ℕ → List (List (List CharT)) → List CharT → Option (List (List (List CharT)))
  | 0, _, _ => none
  | _ + 1, groupPaths, [] => some groupPaths
  | fuel + 1, groupPaths, it =>
    (parseValueList m compact [m.comma, m.semicolon, m.greaterThan] m.greaterThan it).bind
      fun parsed =>
        match parsed.2 with
        | [] => groupPathsFrom fuel (pushNonEmpty groupPaths parsed.1) []
        | c :: it =>
          if c = m.comma ∨ c = m.semicolon then
            groupPathsFrom fuel (pushNonEmpty groupPaths parsed.1) it
          else none

/-- A failed assertion and a loop without an end give no result. -/
def splitGroupPath (src : List CharT) : Option (List (List (List CharT))) :=
  groupPathsFrom m compact (src.length + 1) [] src

structure AttrPair (CharT : Type) where
  name : List CharT
  values : List (List CharT)

def attrPairsFrom : ℕ → List (AttrPair CharT) → List CharT → Option (List (AttrPair CharT))
  | 0, _, _ => none
  | _ + 1, attrPairs, [] => some attrPairs
  | fuel + 1, attrPairs, it =>
    let name := parseUstr m compact [m.colon] it
    if name.2.isEmpty ∨ name.1.isEmpty then some attrPairs
    else
      (parseValueList m compact [m.comma, m.verticalLine] m.verticalLine name.2.tail).bind
        fun parsed =>
          let attrPairs :=
            if parsed.1.isEmpty then attrPairs else attrPairs ++ [⟨name.1, parsed.1⟩]
          match parsed.2 with
          | [] => attrPairsFrom fuel attrPairs []
          | c :: it => if c = m.comma then attrPairsFrom fuel attrPairs it else none

def splitAttrPair (src : List CharT) : Option (List (AttrPair CharT)) :=
  attrPairsFrom m compact (src.length + 1) [] src

end Split

section Write

variable {CharT : Type} [DecidableEq CharT] (m : Marks CharT)

/-- A value in quotes, inner quotes doubled. -/
def quoted (value : List CharT) : List CharT :=
  m.quote :: (value.flatMap (fun c => if c = m.quote then [c, c] else [c]) ++ [m.quote])

def writeValueList (separator : CharT) : List (List CharT) → List CharT
  | [] => []
  | value :: values => quoted m value ++ values.flatMap fun value => separator :: quoted m value

/-- Texts one after another, with a mark between each one and the next. -/
def joinWith (mark : ℕ → CharT) : ℕ → List (List CharT) → List CharT
  | _, [] => []
  | i, text :: texts =>
    text ++ if texts.isEmpty then [] else mark i :: joinWith mark (i + 1) texts

/-- Commas and semicolons may be mixed. -/
def writeGroupPaths (isSemicolon : ℕ → Bool) (groupPaths : List (List (List CharT))) : List CharT :=
  joinWith (fun i => if isSemicolon i then m.semicolon else m.comma) 0
    (groupPaths.map (writeValueList m m.greaterThan))

def writeAttrPair (pair : AttrPair CharT) : List CharT :=
  quoted m pair.name ++ m.colon :: writeValueList m m.verticalLine pair.values

def writeAttrPairs (attrPairs : List (AttrPair CharT)) : List CharT :=
  joinWith (fun _ => m.comma) 0 (attrPairs.map (writeAttrPair m))

end Write

/-- Some values, none of them empty. -/
def HasValues {CharT : Type} (values : List (List CharT)) : Prop :=
  values ≠ [] ∧ ∀ value ∈ values, value ≠ []

/-- A name with some values. -/
def AttrPair.WellFormed {CharT : Type} (pair : AttrPair CharT) : Prop :=
  pair.name ≠ [] ∧ HasValues pair.values

section Total

variable {CharT : Type} [DecidableEq CharT] (m : Marks CharT) (compact : List CharT → List CharT)

theorem length_scanQuoted_le (it : List CharT) : (scanQuoted m it).2.length ≤ it.length := by
  induction it using scanQuoted.induct m with
  | case1 => exact le_refl _
  | case2 => simp [scanQuoted]
  | case3 c hc => simp [scanQuoted, hc]
  | case4 it ih =>
    rw [scanQuoted, if_pos rfl, if_pos rfl]
    simp only [length_cons]
    omega
  | case5 d it hd =>
    rw [scanQuoted, if_pos rfl, if_neg hd]
    simp only [length_cons]
    omega
  | case6 c d it hc ih =>
    rw [scanQuoted, if_neg hc]
    simp only [length_cons] at ih ⊢
    omega

/-- A scan goes forward and stops at a delimiter. -/
theorem parseUstr_spec (delimStr it : List CharT) :
    (parseUstr m compact delimStr it).2.length ≤ it.length ∧
      ∀ c rest, (parseUstr m compact delimStr it).2 = c :: rest → c ∈ delimStr := by
  have hdrop (l : List CharT) (c : CharT) (rest : List CharT)
      (h : l.dropWhile (fun c => decide (c ∉ delimStr)) = c :: rest) : c ∈ delimStr := by
    have hhead := head?_dropWhile_not (fun c => decide (c ∉ delimStr)) l
    rw [h] at hhead
    simpa using hhead
  rw [parseUstr]
  split
  · refine ⟨?_, hdrop _⟩
    refine (dropWhile_sublist _).length_le.trans ((length_scanQuoted_le m it.tail).trans ?_)
    rw [length_tail]
    exact sub_le _ _
  · exact ⟨(dropWhile_sublist _).length_le, hdrop _⟩

theorem forall_mem_pushNonEmpty {α : Type} {xs : List (List α)} (h : ∀ x ∈ xs, x ≠ [])
    (x : List α) : ∀ x' ∈ pushNonEmpty xs x, x' ≠ [] := by
  intro x' hx'
  rw [pushNonEmpty] at hx'
  split at hx'
  · exact h x' hx'
  · rename_i hx
    rcases mem_append.mp hx' with hx' | hx'
    · exact h x' hx'
    · rw [mem_singleton.mp hx']
      simpa using hx

variable {it : List CharT} {fuel : ℕ} (delimStr : List CharT)

/-- Values are read up to a delimiter that is not the separator. -/
theorem valuesAfter_spec (separator : CharT) {values : List (List CharT)}
    (hfuel : it.length < fuel) (hvalues : ∀ value ∈ values, value ≠ [])
    (hit : ∀ c rest, it = c :: rest → c ∈ delimStr) :
    ∃ values' it', valuesAfter m compact delimStr separator fuel values it = some (values', it') ∧
      (∀ value ∈ values', value ≠ []) ∧ it'.length ≤ it.length ∧
      ∀ c rest, it' = c :: rest → c ∈ delimStr ∧ c ≠ separator := by
  induction fuel generalizing values it with
  | zero => cases hfuel
  | succ fuel ih =>
    rw [valuesAfter]
    split
    · rename_i hhead
      obtain ⟨hlength, hdelim⟩ := parseUstr_spec m compact delimStr it.tail
      have htail : it.tail.length < it.length := by
        cases it with
        | nil => cases hhead
        | cons c it => exact lt_succ_self _
      obtain ⟨values', it', hrun, hvalues', hle, hend⟩ := ih
        (show (parseUstr m compact delimStr it.tail).2.length < fuel by omega)
        (forall_mem_pushNonEmpty hvalues _) hdelim
      exact ⟨values', it', hrun, hvalues', by omega, hend⟩
    · rename_i hhead
      refine ⟨values, it, rfl, hvalues, le_refl _, fun c rest heq => ⟨hit c rest heq, ?_⟩⟩
      rintro rfl
      rw [heq] at hhead
      exact hhead rfl

theorem parseValueList_spec (separator : CharT) (it : List CharT) :
    ∃ values it', parseValueList m compact delimStr separator it = some (values, it') ∧
      (∀ value ∈ values, value ≠ []) ∧ it'.length ≤ it.length ∧
      ∀ c rest, it' = c :: rest → c ∈ delimStr ∧ c ≠ separator := by
  obtain ⟨hlength, hdelim⟩ := parseUstr_spec m compact delimStr it
  have hnil : ∀ value ∈ ([] : List (List CharT)), value ≠ [] := nofun
  obtain ⟨values, it', hrun, hvalues, hle, hend⟩ := valuesAfter_spec m compact delimStr separator
    (show (parseUstr m compact delimStr it).2.length < it.length + 1 by omega)
    (forall_mem_pushNonEmpty hnil (parseUstr m compact delimStr it).1) hdelim
  exact ⟨values, it', hrun, hvalues, hle.trans hlength, hend⟩

theorem groupPathsFrom_spec {groupPaths : List (List (List CharT))} (hfuel : it.length < fuel)
    (hpaths : ∀ path ∈ groupPaths, HasValues path) :
    ∃ groupPaths', groupPathsFrom m compact fuel groupPaths it = some groupPaths' ∧
      ∀ path ∈ groupPaths', HasValues path := by
  induction fuel generalizing groupPaths it with
  | zero => cases hfuel
  | succ fuel ih =>
    cases it with
    | nil => exact ⟨groupPaths, rfl, hpaths⟩
    | cons c it =>
      obtain ⟨values, it', hrun, hvalues, hle, hend⟩ := parseValueList_spec m compact
        [m.comma, m.semicolon, m.greaterThan] m.greaterThan (c :: it)
      have hpush : ∀ path ∈ pushNonEmpty groupPaths values, HasValues path := by
        intro path hpath
        rw [pushNonEmpty] at hpath
        split at hpath
        · exact hpaths path hpath
        · rename_i hnonempty
          rcases mem_append.mp hpath with hpath | hpath
          · exact hpaths path hpath
          · rw [mem_singleton.mp hpath]
            exact ⟨by simpa using hnonempty, hvalues⟩
      rw [groupPathsFrom, hrun, Option.bind_some]
      · rw [length_cons] at hfuel hle
        cases it' with
        | nil => exact ih (by simp only [length_nil]; omega) hpush
        | cons d rest =>
          obtain ⟨hmem, hne⟩ := hend d rest rfl
          have hmark : d = m.comma ∨ d = m.semicolon := by
            simpa [hne] using hmem
          simp only [if_pos hmark]
          rw [length_cons] at hle
          exact ih (by omega) hpush
      · exact cons_ne_nil c it

theorem attrPairsFrom_spec {attrPairs : List (AttrPair CharT)} (hfuel : it.length < fuel)
    (hpairs : ∀ pair ∈ attrPairs, pair.WellFormed) :
    ∃ attrPairs', attrPairsFrom m compact fuel attrPairs it = some attrPairs' ∧
      ∀ pair ∈ attrPairs', pair.WellFormed := by
  induction fuel generalizing attrPairs it with
  | zero => cases hfuel
  | succ fuel ih =>
    cases it with
    | nil => exact ⟨attrPairs, rfl, hpairs⟩
    | cons c it =>
      rw [attrPairsFrom]
      · split
        · exact ⟨attrPairs, rfl, hpairs⟩
        · rename_i hname
          obtain ⟨hlength, _⟩ := parseUstr_spec m compact [m.colon] (c :: it)
          obtain ⟨values, it', hrun, hvalues, hle, hend⟩ := parseValueList_spec m compact
            [m.comma, m.verticalLine] m.verticalLine
            (parseUstr m compact [m.colon] (c :: it)).2.tail
          rw [not_or] at hname
          have hshort : it'.length < (c :: it).length := by
            have hpos : 0 < (parseUstr m compact [m.colon] (c :: it)).2.length := by
              rw [length_pos_iff]
              simpa using hname.1
            rw [length_tail] at hle
            omega
          have hadd : ∀ pair ∈ (if values.isEmpty then attrPairs
              else attrPairs ++ [⟨(parseUstr m compact [m.colon] (c :: it)).1, values⟩]),
              pair.WellFormed := by
            intro pair hpair
            split at hpair
            · exact hpairs pair hpair
            · rename_i hnonempty
              rcases mem_append.mp hpair with hpair | hpair
              · exact hpairs pair hpair
              · rw [mem_singleton.mp hpair]
                exact ⟨by simpa using hname.2, by simpa using hnonempty, hvalues⟩
          rw [hrun, Option.bind_some]
          cases it' with
          | nil => exact ih (by omega) hadd
          | cons d rest =>
            obtain ⟨hmem, hne⟩ := hend d rest rfl
            have hmark : d = m.comma := by simpa [hne] using hmem
            simp only [if_pos hmark]
            rw [length_cons] at hshort
            exact ih (by omega) hadd
      · exact cons_ne_nil c it

end Total

section Quoted

variable {CharT : Type} [DecidableEq CharT] (m : Marks CharT) (compact : List CharT → List CharT)

theorem scanQuoted_cons_of_ne {c : CharT} (hc : c ≠ m.quote) (it : List CharT) :
    scanQuoted m (c :: it) = (c :: (scanQuoted m it).1, (scanQuoted m it).2) := by
  cases it with
  | nil => exact if_neg hc
  | cons d it => rw [scanQuoted, if_neg hc]

variable {rest : List CharT}

theorem scanQuoted_end (hrest : rest.head? ≠ some m.quote) :
    scanQuoted m (m.quote :: rest) = ([], rest) := by
  cases rest with
  | nil => rw [scanQuoted, if_pos rfl]
  | cons d rest =>
    rw [scanQuoted, if_pos rfl, if_neg]
    rintro rfl
    exact hrest rfl

/-- Doubled quotes are read as one. -/
theorem scanQuoted_quoted (hrest : rest.head? ≠ some m.quote) (value : List CharT) :
    scanQuoted m ((quoted m value).tail ++ rest) = (value, rest) := by
  rw [quoted, tail_cons, append_assoc]
  induction value with
  | nil => exact scanQuoted_end m hrest
  | cons c value ih =>
    rw [flatMap_cons, append_assoc]
    split
    · rename_i hc
      rw [hc, cons_append, singleton_append, scanQuoted, if_pos rfl, if_pos rfl, ih]
    · rename_i hc
      rw [singleton_append, scanQuoted_cons_of_ne m hc, ih]

/-- What follows a value in quotes is nothing or a delimiter. -/
def Follows (delimStr rest : List CharT) : Prop :=
  ∀ c, rest.head? = some c → c ∈ delimStr

omit [DecidableEq CharT] in
theorem follows_cons {delimStr : List CharT} {c : CharT} (hc : c ∈ delimStr)
    (rest : List CharT) : Follows delimStr (c :: rest) := by
  intro d hd
  obtain rfl : c = d := Option.some.inj hd
  exact hc

omit [DecidableEq CharT] in
/-- Joined texts are followed by nothing or by the mark between them. -/
theorem follows_of_joined {delimStr rest next : List CharT} {texts : List (List CharT)}
    {separator c : CharT} (hc : c ∈ delimStr) (hne : c ≠ separator)
    (hend : texts = [] ∧ rest = [] ∨ texts ≠ [] ∧ rest = c :: next) :
    Follows delimStr rest ∧ rest.head? ≠ some separator := by
  rcases hend with ⟨_, rfl⟩ | ⟨_, rfl⟩
  · exact ⟨nofun, nofun⟩
  · exact ⟨follows_cons hc next, fun h => hne (Option.some.inj h)⟩

theorem parseUstr_quoted {delimStr rest : List CharT} (hquote : m.quote ∉ delimStr)
    (hrest : Follows delimStr rest) (value : List CharT) :
    parseUstr m compact delimStr (quoted m value ++ rest) = (value, rest) := by
  have hne : rest.head? ≠ some m.quote := fun h => hquote (hrest _ h)
  have hdrop : rest.dropWhile (fun c => decide (c ∉ delimStr)) = rest := by
    cases rest with
    | nil => rfl
    | cons c rest =>
      apply dropWhile_cons_of_neg
      simpa using hrest c rfl
  have hhead : (quoted m value ++ rest).head? = some m.quote := rfl
  have htail : (quoted m value ++ rest).tail = (quoted m value).tail ++ rest := rfl
  rw [parseUstr, if_pos hhead, htail, scanQuoted_quoted m hne, hdrop]

theorem pushNonEmpty_of_ne_nil {α : Type} (xs : List (List α)) {x : List α} (hx : x ≠ []) :
    pushNonEmpty xs x = xs ++ [x] := by
  rw [pushNonEmpty]
  simpa using hx

variable {delimStr : List CharT} {separator : CharT} (hquote : m.quote ∉ delimStr)
  (hseparator : separator ∈ delimStr)

include hseparator in
/-- A value is followed by a separator or by the end of the list. -/
theorem follows_flatMap (hrest : Follows delimStr rest) (values : List (List CharT)) :
    Follows delimStr (values.flatMap (fun value => separator :: quoted m value) ++ rest) := by
  cases values with
  | nil => exact hrest
  | cons value values => exact follows_cons hseparator _

include hquote hseparator in
theorem valuesAfter_quoted {rest : List CharT} (hrest : Follows delimStr rest)
    (hstop : rest.head? ≠ some separator) {values : List (List CharT)}
    (hvalues : ∀ value ∈ values, value ≠ []) {fuel : ℕ} (hfuel : values.length < fuel)
    (before : List (List CharT)) : valuesAfter m compact delimStr separator fuel before
        (values.flatMap (fun value => separator :: quoted m value) ++ rest) =
      some (before ++ values, rest) := by
  induction values generalizing fuel before with
  | nil =>
    obtain ⟨fuel, rfl⟩ := exists_eq_succ_of_ne_zero (ne_zero_of_lt hfuel)
    rw [flatMap_nil, nil_append, valuesAfter, if_neg hstop, append_nil]
  | cons value values ih =>
    obtain ⟨fuel, rfl⟩ := exists_eq_succ_of_ne_zero (ne_zero_of_lt hfuel)
    have hfollows := follows_flatMap m hseparator hrest values
    rw [flatMap_cons, append_assoc, cons_append, valuesAfter,
      if_pos head?_cons, tail_cons, parseUstr_quoted m compact hquote hfollows value]
    simp only
    rw [pushNonEmpty_of_ne_nil before (hvalues value mem_cons_self),
      ih (fun value' hvalue' => hvalues value' (mem_cons_of_mem _ hvalue'))
        (lt_of_succ_lt_succ hfuel), append_assoc]
    rfl

theorem length_le_length_flatMap {α β : Type} (f : α → List β) (hf : ∀ a, f a ≠ []) (l : List α) :
    l.length ≤ (l.flatMap f).length := by
  induction l with
  | nil => exact le_refl _
  | cons a l ih =>
    have hpos := length_pos_of_ne_nil (hf a)
    rw [flatMap_cons, length_append, length_cons]
    omega

include hquote hseparator in
theorem parseValueList_write {rest : List CharT} (hrest : Follows delimStr rest)
    (hstop : rest.head? ≠ some separator) {values : List (List CharT)}
    (hvalues : HasValues values) :
    parseValueList m compact delimStr separator (writeValueList m separator values ++ rest) =
      some (values, rest) := by
  obtain ⟨hne, hvalues⟩ := hvalues
  cases values with
  | nil => exact absurd rfl hne
  | cons value values =>
    have hfollows := follows_flatMap m hseparator hrest values
    have hlength := length_le_length_flatMap (fun value => separator :: quoted m value)
      (fun value => cons_ne_nil _ _) values
    rw [writeValueList, append_assoc, parseValueList,
      parseUstr_quoted m compact hquote hfollows value]
    simp only
    rw [pushNonEmpty_of_ne_nil [] (hvalues value mem_cons_self)]
    apply valuesAfter_quoted m compact hquote hseparator hrest hstop
    · exact fun value' hvalue' => hvalues value' (mem_cons_of_mem _ hvalue')
    · rw [length_append, length_append]
      omega

omit [DecidableEq CharT] in
theorem length_le_length_joinWith (mark : ℕ → CharT) {texts : List (List CharT)}
    (htexts : ∀ text ∈ texts, text ≠ []) (i : ℕ) :
    texts.length ≤ (joinWith mark i texts).length := by
  induction texts generalizing i with
  | nil => exact le_refl _
  | cons text texts ih =>
    have hpos := length_pos_of_ne_nil (htexts text mem_cons_self)
    have hrest := ih (fun text' htext' => htexts text' (mem_cons_of_mem _ htext')) (i + 1)
    rw [joinWith, length_append, length_cons]
    cases texts with
    | nil => simp only [length_nil]; omega
    | cons text' texts =>
      simp only [isEmpty_cons, Bool.false_eq_true, if_false, length_cons] at hrest ⊢
      omega

theorem writeValueList_ne_nil {values : List (List CharT)} (h : HasValues values)
    (separator : CharT) : writeValueList m separator values ≠ [] := by
  cases values with
  | nil => exact absurd rfl h.1
  | cons value values => exact cons_ne_nil _ _

omit [DecidableEq CharT] in
/-- What stands behind one of the texts that are joined. -/
theorem joinWith_cons (mark : ℕ → CharT) (i : ℕ) (text : List CharT) (texts : List (List CharT)) :
    ∃ rest, joinWith mark i (text :: texts) = text ++ rest ∧
      (texts = [] ∧ rest = [] ∨ texts ≠ [] ∧ rest = mark i :: joinWith mark (i + 1) texts) := by
  refine ⟨_, rfl, ?_⟩
  cases texts with
  | nil => exact Or.inl ⟨rfl, rfl⟩
  | cons text' texts => exact Or.inr ⟨cons_ne_nil _ _, rfl⟩

theorem groupPathsFrom_joinWith {mark : ℕ → CharT}
    (hmark : ∀ i, mark i = m.comma ∨ mark i = m.semicolon) {paths : List (List (List CharT))}
    (hpaths : ∀ path ∈ paths, HasValues path) {fuel : ℕ} (hfuel : paths.length < fuel) (i : ℕ)
    (before : List (List (List CharT))) : groupPathsFrom m compact fuel before
      (joinWith mark i (paths.map (writeValueList m m.greaterThan))) = some (before ++ paths) := by
  have hdiffer := m.nodup
  simp only [nodup_cons, mem_cons, not_mem_nil, or_false, not_or] at hdiffer
  obtain ⟨_, _, ⟨hgc, hgs, hgq⟩, ⟨_, hcq⟩, hsq, _⟩ := hdiffer
  have hquote : m.quote ∉ [m.comma, m.semicolon, m.greaterThan] := by
    simp [Ne.symm hcq, Ne.symm hsq, Ne.symm hgq]
  induction paths generalizing fuel i before with
  | nil =>
    obtain ⟨fuel, rfl⟩ := exists_eq_succ_of_ne_zero (ne_zero_of_lt hfuel)
    rw [append_nil]
    rfl
  | cons path paths ih =>
    obtain ⟨fuel, rfl⟩ := exists_eq_succ_of_ne_zero (ne_zero_of_lt hfuel)
    have hpath := hpaths path mem_cons_self
    have hrest := fun path' hpath' => hpaths path' (mem_cons_of_mem path hpath')
    have hfuel' : paths.length < fuel := lt_of_succ_lt_succ hfuel
    obtain ⟨rest, hjoin, hend⟩ := joinWith_cons mark i (writeValueList m m.greaterThan path)
      (paths.map (writeValueList m m.greaterThan))
    have hmem : mark i ∈ [m.comma, m.semicolon, m.greaterThan] := by
      rcases hmark i with heq | heq <;> simp [heq]
    have hne : mark i ≠ m.greaterThan := by
      rcases hmark i with heq | heq
      · exact fun h => hgc (h.symm.trans heq)
      · exact fun h => hgs (h.symm.trans heq)
    obtain ⟨hfollows, hstop⟩ := follows_of_joined hmem hne hend
    have hparse := parseValueList_write m compact hquote (by simp) hfollows hstop hpath
    rw [map_cons, hjoin, groupPathsFrom, hparse, Option.bind_some]
    · simp only [pushNonEmpty_of_ne_nil before hpath.1]
      rcases hend with ⟨hnil, rfl⟩ | ⟨_, rfl⟩
      · have hpathsNil : paths = [] := map_eq_nil_iff.mp hnil
        have hlast := ih hrest hfuel' (i + 1) (before ++ [path])
        rw [hpathsNil] at hlast ⊢
        exact hlast.trans (congrArg some (append_nil _))
      · simp only [if_pos (hmark i)]
        rw [ih hrest hfuel' (i + 1), append_assoc]
        rfl
    · intro hnil
      exact writeValueList_ne_nil m hpath m.greaterThan (append_eq_nil_iff.mp hnil).1

theorem attrPairsFrom_joinWith {pairs : List (AttrPair CharT)}
    (hpairs : ∀ pair ∈ pairs, pair.WellFormed) {fuel : ℕ} (hfuel : pairs.length < fuel) (i : ℕ)
    (before : List (AttrPair CharT)) : attrPairsFrom m compact fuel before
      (joinWith (fun _ => m.comma) i (pairs.map (writeAttrPair m))) = some (before ++ pairs) := by
  have hdiffer := m.nodup
  simp only [nodup_cons, mem_cons, not_mem_nil, or_false, not_or] at hdiffer
  obtain ⟨⟨_, _, _, _, hlq⟩, ⟨_, hvc, _, hvq⟩, _, ⟨_, hcq⟩, _⟩ := hdiffer
  have hquoteName : m.quote ∉ [m.colon] := by simp [Ne.symm hlq]
  have hquote : m.quote ∉ [m.comma, m.verticalLine] := by simp [Ne.symm hcq, Ne.symm hvq]
  induction pairs generalizing fuel i before with
  | nil =>
    obtain ⟨fuel, rfl⟩ := exists_eq_succ_of_ne_zero (ne_zero_of_lt hfuel)
    rw [append_nil]
    rfl
  | cons pair pairs ih =>
    obtain ⟨fuel, rfl⟩ := exists_eq_succ_of_ne_zero (ne_zero_of_lt hfuel)
    obtain ⟨hname, hvalues⟩ := hpairs pair mem_cons_self
    have hrest := fun pair' hpair' => hpairs pair' (mem_cons_of_mem pair hpair')
    have hfuel' : pairs.length < fuel := lt_of_succ_lt_succ hfuel
    obtain ⟨rest, hjoin, hend⟩ := joinWith_cons (fun _ => m.comma) i (writeAttrPair m pair)
      (pairs.map (writeAttrPair m))
    obtain ⟨hfollows, hstop⟩ := follows_of_joined
      (show m.comma ∈ [m.comma, m.verticalLine] from mem_cons_self) (Ne.symm hvc) hend
    have hcolon : Follows [m.colon]
        (m.colon :: (writeValueList m m.verticalLine pair.values ++ rest)) :=
      follows_cons mem_cons_self _
    have hparseName := parseUstr_quoted m compact hquoteName hcolon pair.name
    have hparse := parseValueList_write m compact hquote (by simp) hfollows hstop hvalues
    have hpairNil : ¬ (pair.name.isEmpty = true) := by simpa using hname
    rw [map_cons, hjoin, writeAttrPair, append_assoc, cons_append, attrPairsFrom, hparseName]
    · simp only [isEmpty_cons, Bool.false_eq_true, false_or, if_neg hpairNil, tail_cons,
        hparse, Option.bind_some]
      have hvaluesNil : ¬ (pair.values.isEmpty = true) := by simpa using hvalues.1
      simp only [if_neg hvaluesNil]
      rcases hend with ⟨hnil, rfl⟩ | ⟨_, rfl⟩
      · have hpairsNil : pairs = [] := map_eq_nil_iff.mp hnil
        have hlast := ih hrest hfuel' (i + 1) (before ++ [pair])
        rw [hpairsNil] at hlast ⊢
        exact hlast.trans (congrArg some (append_nil _))
      · simp only [if_pos]
        rw [ih hrest hfuel' (i + 1), append_assoc]
        rfl
    · exact cons_ne_nil _ _

end Quoted

/-- Splitting undoes writing with quotes, and on every text it ends with its assertions valid and
finds nothing that is empty. -/
theorem split_spec {CharT : Type} [DecidableEq CharT] (m : Marks CharT)
    (compact : List CharT → List CharT) :
    (∀ isSemicolon groupPaths, (∀ path ∈ groupPaths, HasValues path) →
      splitGroupPath m compact (writeGroupPaths m isSemicolon groupPaths) = some groupPaths) ∧
    (∀ attrPairs : List (AttrPair CharT), (∀ pair ∈ attrPairs, pair.WellFormed) →
      splitAttrPair m compact (writeAttrPairs m attrPairs) = some attrPairs) ∧
    (∀ src, ∃ groupPaths, splitGroupPath m compact src = some groupPaths ∧
      ∀ path ∈ groupPaths, HasValues path) ∧
    ∀ src, ∃ attrPairs, splitAttrPair m compact src = some attrPairs ∧
      ∀ pair ∈ attrPairs, pair.WellFormed := by
  refine ⟨fun isSemicolon groupPaths hpaths => ?_, fun attrPairs hpairs => ?_, fun src => ?_,
    fun src => ?_⟩
  · have htexts : ∀ text ∈ groupPaths.map (writeValueList m m.greaterThan), text ≠ [] := by
      intro text htext
      obtain ⟨path, hpath, rfl⟩ := mem_map.mp htext
      exact writeValueList_ne_nil m (hpaths path hpath) _
    have hlength := length_le_length_joinWith
      (fun i => if isSemicolon i then m.semicolon else m.comma) htexts 0
    rw [List.length_map] at hlength
    refine (groupPathsFrom_joinWith m compact (fun i => ?_) hpaths
      (lt_succ_of_le hlength) 0 []).trans (congrArg some (nil_append _))
    cases isSemicolon i with
    | true => exact Or.inr rfl
    | false => exact Or.inl rfl
  · have htexts : ∀ text ∈ attrPairs.map (writeAttrPair m), text ≠ [] := by
      intro text htext
      obtain ⟨pair, _, rfl⟩ := mem_map.mp htext
      exact cons_ne_nil _ _
    have hlength := length_le_length_joinWith (fun _ => m.comma) htexts 0
    rw [List.length_map] at hlength
    exact (attrPairsFrom_joinWith m compact hpairs (lt_succ_of_le hlength) 0 []).trans
      (congrArg some (nil_append _))
  · exact groupPathsFrom_spec m compact (lt_succ_self _) nofun
  · exact attrPairsFrom_spec m compact (lt_succ_self _) nofun

def charMarks : Marks Char where
  colon := ':'
  verticalLine := '|'
  greaterThan := '>'
  comma := ','
  semicolon := ';'
  quote := '"'
  nodup := by decide

/-- Spaces at both ends are cut off. -/
def trimSpaces (value : List Char) : List Char :=
  ((value.dropWhile (· = ' ')).reverse.dropWhile (· = ' ')).reverse

theorem split_charMarks :
    splitGroupPath charMarks trimSpaces (writeGroupPaths charMarks (fun i => i = 0)
        [[['1', '>', '2'], ['"', ',']], [[' ', 'a']], [['b']]]) =
      some [[['1', '>', '2'], ['"', ',']], [[' ', 'a']], [['b']]] ∧
    splitAttrPair charMarks trimSpaces (writeAttrPairs charMarks
        [⟨['s', ':'], [['|'], ['M', ' ']]⟩, ⟨['"'], [[',']]⟩]) =
      some [⟨['s', ':'], [['|'], ['M', ' ']]⟩, ⟨['"'], [[',']]⟩] := by
  obtain ⟨hpaths, hpairs, _⟩ := split_spec charMarks trimSpaces
  constructor
  · apply hpaths
    simp [HasValues]
  · apply hpairs
    simp [HasValues, AttrPair.WellFormed]

end AdDelivery.Mining
