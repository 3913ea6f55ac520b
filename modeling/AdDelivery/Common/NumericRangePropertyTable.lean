import AdDelivery.Common.RTypeStringPropTable

/-!
# Tables of numeric ranges

A range is written as its two ends with a minus sign between them, and read by cutting the text at
the first separator, which a minus sign is too. So a range that begins below zero cannot be read
back. Ends of eight bits are converted in two steps, and the second one throws what is not caught.
-/

namespace AdDelivery.PropertyTables

open List

/-- The integer types. -/
inductive IntType
  | int8
  | int16
  | int32
  | int64
deriving DecidableEq

namespace IntType

def bits : IntType → ℕ
  | int8 => 8
  | int16 => 16
  | int32 => 32
  | int64 => 64

/-- `std::numeric_limits<T>::max()` -/
def max (T : IntType) : ℤ := 2 ^ (T.bits - 1) - 1

def InRange (T : IntType) (v : ℤ) : Prop := -2 ^ (T.bits - 1) ≤ v ∧ v ≤ T.max

instance (T : IntType) (v : ℤ) : Decidable (T.InRange v) := inferInstanceAs (Decidable (_ ∧ _))

end IntType

open IntType

/-- The characters of a `std::string`. -/
abbrev Text := List Char

/-- `boost::lexical_cast<std::string>` of an integer. -/
def intText (v : ℤ) : Text :=
  if v < 0 then '-' :: Nat.toDigits 10 v.natAbs else Nat.toDigits 10 v.natAbs

/-- The conversions that are not the table's own. `lexicalCast` is none where it throws
`bad_lexical_cast`; `isoString` is `to_iso_string(from_time_t(v - timezone))`. -/
structure NumericConversions where
  lexicalCast : IntType → Text → Option ℤ
  isoString : ℤ → Except String Text

/-- What `numeric_cast` throws. -/
inductive NumericCastError
  | negativeOverflow
  | positiveOverflow
deriving DecidableEq

def numericCast (T : IntType) (v : ℤ) : Except NumericCastError ℤ :=
  if T.InRange v then .ok v
  else if v < 0 then .error .negativeOverflow
  else .error .positiveOverflow

section Split

variable (conv : NumericConversions)

/-- None is the result false. Only `bad_lexical_cast` is caught. -/
def convert (T : IntType) (pattern : Text) : Except NumericCastError (Option ℤ) :=
  match T with
  | .int8 =>
    match conv.lexicalCast .int32 pattern with
    | none => .ok none
    | some v => (numericCast .int8 v).map some
  | _ => .ok (conv.lexicalCast T pattern)

def delimiters : Text := ['-', '~', ',']

/-- The range that is written, or none when nothing is. -/
def splitNumeric (T : IntType) (pattern : Text) : Except NumericCastError (Option (ℤ × ℤ)) :=
  match pattern.findIdx? (delimiters.contains ·) with
  | none =>
    match convert conv T pattern with
    | .error e => .error e
    | .ok none => .ok none
    | .ok (some v) => .ok (some (v, v))
  | some pos =>
    match convert conv T (pattern.take pos) with
    | .error e => .error e
    | .ok none => .ok none
    | .ok (some v) =>
      match convert conv T (pattern.drop (pos + 1)) with
      | .error e => .error e
      | .ok none => .ok none
      | .ok (some w) => .ok (some (if w < v then (w, v) else (v, w)))

end Split

structure NumericRangePropertyTable where
  T : IntType
  type_ : PropertyDataType
  dirty_ : Bool := false
  invalidValue_ : ℤ × ℤ := (T.max, T.max)
  data_ : List (ℤ × ℤ) := [invalidValue_]

namespace NumericRangePropertyTable

variable (conv : NumericConversions) (table : NumericRangePropertyTable) (pos : ℕ)

/-- Only the table of `int64_t` looks at its type. -/
def isDateTime : Bool :=
  table.T = .int64 && table.type_ = .DATETIME

def endText (v : ℤ) : Except String Text :=
  if table.isDateTime then conv.isoString v else .ok (intText v)

/-- None is the result false. -/
def getStringValue : Except String (Option Text) :=
  match table.data_[pos]? with
  | none => .ok none
  | some data =>
    if data = table.invalidValue_ then .ok none
    else if data.1 = data.2 then (table.endText conv data.1).map some
    else
      match table.endText conv data.1 with
      | .error e => .error e
      | .ok value =>
        (table.endText conv data.2).map fun value' => some (value ++ ['-'] ++ value')

def resized : NumericRangePropertyTable :=
  { table with data_ := growTo table.data_ (pos + 1) table.invalidValue_ }

def setValue (value : ℤ × ℤ) : NumericRangePropertyTable :=
  { table.resized pos with
    data_ := (table.resized pos).data_.set pos value
    dirty_ := true }

/-- The table has been resized before the text is looked at. -/
def setStringValue (value : Text) : Except NumericCastError Bool × NumericRangePropertyTable :=
  match splitNumeric conv table.T value with
  | .error e => (.error e, table.resized pos)
  | .ok none => (.ok false, table.resized pos)
  | .ok (some result) =>
    (.ok true, { table.resized pos with
      data_ := (table.resized pos).data_.set pos result
      dirty_ := true })

/-- The text of a range at a position is read back as the range. -/
def RoundTrips (v : ℤ × ℤ) : Prop :=
  ∃ text table', (table.setValue pos v).getStringValue conv pos = .ok (some text) ∧
    table.setStringValue conv pos text = (.ok true, table') ∧ table'.data_[pos]? = some v

/-- Only the position changes, and the positions that are new in front of it are invalid. -/
structure Frame (table table' : NumericRangePropertyTable) (pos : ℕ) : Prop where
  others : ∀ i, i ≠ pos → i < table.data_.length → table'.data_[i]? = table.data_[i]?
  new : ∀ i, i < pos → table.data_.length ≤ i → table'.data_[i]? = some table.invalidValue_

/-- A text is taken or refused, and nothing is thrown. -/
structure SetsRight (conv : NumericConversions) (table : NumericRangePropertyTable) (pos : ℕ)
    (value : Text) : Prop where
  returns : ∃ returned, (table.setStringValue conv pos value).1 = .ok returned
  stored : (table.setStringValue conv pos value).1 = .ok true →
    ∃ v, (table.setStringValue conv pos value).2.data_[pos]? = some v ∧ v.1 ≤ v.2
  kept : (table.setStringValue conv pos value).1 = .ok false →
    (table.setStringValue conv pos value).2.data_[pos]? =
      some (table.data_.getD pos table.invalidValue_)
  frame : Frame table (table.setStringValue conv pos value).2 pos

end NumericRangePropertyTable

/-- What is documented of the conversions: the text of a number is read back, and what is read as
a number has digits and signs only; the text of a time has a `T` between date and time. -/
structure NumericConversions.Lawful (conv : NumericConversions) : Prop where
  cast_text : ∀ {T : IntType} {v : ℤ}, T.InRange v → conv.lexicalCast T (intText v) = some v
  cast_nil : ∀ T, conv.lexicalCast T [] = none
  cast_chars : ∀ {T s v}, conv.lexicalCast T s = some v →
    ∀ c ∈ s, c.isDigit ∨ c = '-' ∨ c = '+'
  iso_chars : ∀ {v s}, conv.isoString v = .ok s → 'T' ∈ s

variable (conv : NumericConversions)

/-- The text is a number of 32 bits but not of eight. -/
def TooBig (s : Text) : Prop :=
  ∃ v, conv.lexicalCast .int32 s = some v ∧ ¬ int8.InRange v

def FitsEight (s : Text) : Prop :=
  ∃ v, conv.lexicalCast .int32 s = some v ∧ int8.InRange v

/-- An end of eight bits that is reached is too big. -/
def Overflows (T : IntType) (value : Text) : Prop :=
  T = .int8 ∧
    match value.findIdx? (delimiters.contains ·) with
    | none => TooBig conv value
    | some pos => TooBig conv (value.take pos) ∨
        FitsEight conv (value.take pos) ∧ TooBig conv (value.drop (pos + 1))

section Splitting

variable {conv : NumericConversions} {T : IntType} {s : Text} {v w : ℤ}

theorem InRange.int32 (h : int8.InRange v) : int32.InRange v := by
  simp only [IntType.InRange, IntType.max, IntType.bits] at *
  omega

theorem convert_text (h : conv.Lawful) (hv : T.InRange v) :
    convert conv T (intText v) = .ok (some v) := by
  cases T with
  | int8 =>
    rw [convert, h.cast_text (InRange.int32 hv)]
    dsimp only
    rw [numericCast, if_pos hv]
    rfl
  | int16 | int32 | int64 => exact congrArg _ (h.cast_text hv)

theorem convert_of_none (h : conv.lexicalCast T s = none)
    (h8 : conv.lexicalCast .int32 s = none) : convert conv T s = .ok none := by
  cases T with
  | int8 => rw [convert, h8]
  | int16 | int32 | int64 => exact congrArg _ h

theorem convert_nil (h : conv.Lawful) : convert conv T [] = .ok none :=
  convert_of_none (h.cast_nil T) (h.cast_nil .int32)

theorem cast_iso (h : conv.Lawful) (hs : 'T' ∈ s) : conv.lexicalCast T s = none := by
  cases hcast : conv.lexicalCast T s with
  | none => rfl
  | some v => exact absurd (h.cast_chars hcast 'T' hs) (by decide)

theorem convert_iso (h : conv.Lawful) (hs : 'T' ∈ s) : convert conv T s = .ok none :=
  convert_of_none (cast_iso h hs) (cast_iso h hs)

/-- A value that does not fit is thrown at. -/
theorem exists_numericCast_error (hv : ¬ T.InRange v) : ∃ e, numericCast T v = .error e := by
  rw [numericCast, if_neg hv]
  by_cases hneg : v < 0
  · exact ⟨.negativeOverflow, if_pos hneg⟩
  · exact ⟨.positiveOverflow, if_neg hneg⟩

theorem convert_error_iff : (∃ e, convert conv T s = .error e) ↔ T = .int8 ∧ TooBig conv s := by
  cases T with
  | int8 =>
    rw [convert, TooBig]
    cases conv.lexicalCast .int32 s with
    | none => simp
    | some v =>
      by_cases hv : int8.InRange v
      · simp [numericCast, hv, Except.map]
      · obtain ⟨e, he⟩ := exists_numericCast_error hv
        simp [he, hv, Except.map]
  | int16 | int32 | int64 => simp [convert]

theorem not_delimiter_of_mem_intText (hv : 0 ≤ v) {c : Char} (hc : c ∈ intText v) :
    delimiters.contains c = false := by
  rw [intText, if_neg (not_lt.mpr hv)] at hc
  have hdigit := Nat.isDigit_of_mem_toDigits (by decide) (by decide) hc
  rw [← Bool.not_eq_true, contains_iff_mem]
  intro hmem
  simp only [delimiters, mem_cons, not_mem_nil, or_false] at hmem
  rcases hmem with rfl | rfl | rfl
  · cases hdigit
  · cases hdigit
  · cases hdigit

theorem findIdx?_intText (hv : 0 ≤ v) : (intText v).findIdx? (delimiters.contains ·) = none :=
  findIdx?_eq_none_iff.mpr fun _ hc => not_delimiter_of_mem_intText hv hc

theorem splitNumeric_single (h : conv.Lawful) (hv : T.InRange v) (h0 : 0 ≤ v) :
    splitNumeric conv T (intText v) = .ok (some (v, v)) := by
  rw [splitNumeric, findIdx?_intText h0]
  rw [convert_text h hv]

theorem splitNumeric_range (h : conv.Lawful) (hv : T.InRange v) (hw : T.InRange w) (h0 : 0 ≤ v)
    (hle : v ≤ w) : splitNumeric conv T (intText v ++ ['-'] ++ intText w) = .ok (some (v, w)) := by
  have hfind : (intText v ++ ['-'] ++ intText w).findIdx? (delimiters.contains ·) =
      some (intText v).length := by
    have hminus : (['-'] ++ intText w).findIdx? (delimiters.contains ·) = some 0 := rfl
    rw [append_assoc, findIdx?_append, findIdx?_intText h0, hminus, Option.none_or,
      Option.map_some, Nat.zero_add]
  have htake : (intText v ++ ['-'] ++ intText w).take (intText v).length = intText v := by
    rw [append_assoc, take_left]
  have hdrop : (intText v ++ ['-'] ++ intText w).drop ((intText v).length + 1) = intText w := by
    have hlength : (intText v ++ ['-']).length = (intText v).length + 1 := length_append
    rw [← hlength, drop_left]
  rw [splitNumeric, hfind]
  dsimp only
  rw [htake, convert_text h hv, hdrop, convert_text h hw]
  dsimp only
  rw [if_neg (not_lt.mpr hle)]

/-- A text that begins with a minus sign has nothing in front of the first separator. -/
theorem splitNumeric_minus (h : conv.Lawful) : splitNumeric conv T ('-' :: s) = .ok none := by
  change (match convert conv T (List.take 0 ('-' :: s)) with
    | .error e => _ | .ok none => _ | .ok (some v) => _) = _
  rw [take_zero, convert_nil h]

/-- The time stands on one side of the separator. -/
theorem splitNumeric_iso (h : conv.Lawful) (hs : 'T' ∈ s) :
    splitNumeric conv .int64 s = .ok none := by
  rw [splitNumeric]
  cases hfind : s.findIdx? (delimiters.contains ·) with
  | none =>
    rw [convert_iso h hs]
  | some pos =>
    dsimp only
    obtain ⟨hpos, hdelimiter, -⟩ := findIdx?_eq_some_iff_getElem.mp hfind
    have hsplit : s = s.take pos ++ s[pos] :: s.drop (pos + 1) := by
      rw [← drop_eq_getElem_cons hpos, take_append_drop]
    rw [hsplit] at hs
    rcases mem_append.mp hs with hfront | hbehind
    · rw [convert_iso h hfront]
    · rcases mem_cons.mp hbehind with heq | hbehind
      · rw [← heq] at hdelimiter
        cases hdelimiter
      · have hfront : convert conv .int64 (s.take pos) =
            .ok (conv.lexicalCast .int64 (s.take pos)) := rfl
        rw [convert_iso h hbehind, hfront]
        cases conv.lexicalCast .int64 (s.take pos) <;> rfl

theorem convert_int8_some_iff : (∃ v, convert conv .int8 s = .ok (some v)) ↔ FitsEight conv s := by
  rw [convert, FitsEight]
  cases conv.lexicalCast .int32 s with
  | none => simp
  | some v =>
    by_cases hv : int8.InRange v
    · simp [numericCast, hv, Except.map]
    · obtain ⟨e, he⟩ := exists_numericCast_error hv
      simp [he, hv, Except.map]

/-- What is thrown comes from the first end, or from the second behind a first one that is taken. -/
theorem splitNumeric_error_iff : (∃ e, splitNumeric conv T s = .error e) ↔ Overflows conv T s := by
  rw [splitNumeric, Overflows]
  cases hfind : s.findIdx? (delimiters.contains ·) with
  | none =>
    rw [← convert_error_iff]
    cases convert conv T s with
    | error e => simp
    | ok result => cases result <;> simp
  | some pos =>
    dsimp only
    rw [and_or_left, ← convert_error_iff, and_left_comm, ← convert_error_iff]
    cases hfront : convert conv T (s.take pos) with
    | error e => simp
    | ok result =>
      cases result with
      | none =>
        refine iff_of_false (by simp) ?_
        rintro (⟨e, he⟩ | ⟨hfits, e, he⟩)
        · cases he
        · obtain ⟨rfl, -⟩ := convert_error_iff.mp ⟨e, he⟩
          obtain ⟨v, hv⟩ := convert_int8_some_iff.mpr hfits
          rw [hfront] at hv
          cases hv
      | some v =>
        constructor
        · rintro ⟨e, he⟩
          cases hbehind : convert conv T (s.drop (pos + 1)) with
          | error e' =>
            obtain ⟨rfl, -⟩ := convert_error_iff.mp ⟨e', hbehind⟩
            exact .inr ⟨convert_int8_some_iff.mp ⟨v, hfront⟩, e', rfl⟩
          | ok result =>
            rw [hbehind] at he
            cases result <;> cases he
        · rintro (⟨e, he⟩ | ⟨-, e, he⟩)
          · cases he
          · exact ⟨e, by rw [he]⟩

theorem le_of_splitNumeric {result : ℤ × ℤ} (h : splitNumeric conv T s = .ok (some result)) :
    result.1 ≤ result.2 := by
  unfold splitNumeric at h
  split at h
  · split at h
    · cases h
    · cases h
    · cases h
      exact le_refl _
  · split at h
    · cases h
    · cases h
    · split at h
      · cases h
      · cases h
      · cases h
        split
        · exact le_of_lt ‹_›
        · exact not_lt.mp ‹_›

end Splitting

namespace NumericRangePropertyTable

section Setting

variable {conv : NumericConversions} {table : NumericRangePropertyTable} {pos : ℕ}
  {value text : Text} {v : ℤ × ℤ}

theorem getElem?_resized (table : NumericRangePropertyTable) {pos i : ℕ} (hi : i ≤ pos) :
    (table.resized pos).data_[i]? = some (table.data_.getD i table.invalidValue_) := by
  rw [resized]
  rw [← getD_growTo table.data_ (pos + 1) i, getD_eq_getElem?_getD, getElem?_eq_getElem]
  · rfl
  · rw [length_growTo]
    omega

theorem frame_resized (table : NumericRangePropertyTable) (pos : ℕ) :
    Frame table (table.resized pos) pos where
  others _ _ hlt := getElem?_growTo_of_lt hlt _ _
  new i hi hle := by
    rw [getElem?_resized table hi.le, getD_eq_getElem?_getD, getElem?_eq_none hle, Option.getD_none]

theorem Frame.set {table' : NumericRangePropertyTable} (h : Frame table table' pos)
    (v : ℤ × ℤ) (dirty : Bool) :
    Frame table { table' with data_ := table'.data_.set pos v, dirty_ := dirty } pos where
  others i hne hlt := by
    rw [getElem?_set_ne hne.symm]
    exact h.others i hne hlt
  new i hi hle := by
    rw [getElem?_set_ne hi.ne']
    exact h.new i hi hle

theorem getElem?_set_resized (table : NumericRangePropertyTable) (pos : ℕ) (v : ℤ × ℤ) :
    ((table.resized pos).data_.set pos v)[pos]? = some v := by
  have hlt := (List.getElem?_eq_some_iff.mp (getElem?_resized table (le_refl pos))).1
  rw [getElem?_set_self hlt]

/-- Positions other than the one that is set keep their values, whatever happens. -/
theorem frame_setStringValue (conv : NumericConversions) (table : NumericRangePropertyTable)
    (pos : ℕ) (value : Text) : Frame table (table.setStringValue conv pos value).2 pos := by
  rw [setStringValue]
  split
  · exact frame_resized table pos
  · exact frame_resized table pos
  · exact (frame_resized table pos).set _ true

/-- A text is set or refused exactly when none of its ends overflows. -/
theorem setsRight_iff : SetsRight conv table pos value ↔ ¬ Overflows conv table.T value := by
  rw [← splitNumeric_error_iff]
  constructor
  · rintro ⟨⟨returned, hreturned⟩, -, -, -⟩ ⟨e, he⟩
    rw [setStringValue, he] at hreturned
    cases hreturned
  · intro hnot
    have hframe := frame_setStringValue conv table pos value
    cases hsplit : splitNumeric conv table.T value with
    | error e => exact absurd ⟨e, hsplit⟩ hnot
    | ok result =>
      cases result with
      | none =>
        have hset : table.setStringValue conv pos value = (.ok false, table.resized pos) := by
          rw [setStringValue, hsplit]
        refine ⟨?_, ?_, ?_, hframe⟩
        · exact ⟨false, by rw [hset]⟩
        · intro htrue
          rw [hset] at htrue
          cases htrue
        · intro _
          rw [hset]
          exact getElem?_resized table (le_refl pos)
      | some result =>
        have hset : table.setStringValue conv pos value =
            (.ok true, { table.resized pos with
              data_ := (table.resized pos).data_.set pos result, dirty_ := true }) := by
          rw [setStringValue, hsplit]
        refine ⟨?_, ?_, ?_, hframe⟩
        · exact ⟨true, by rw [hset]⟩
        · intro _
          rw [hset]
          exact ⟨result, getElem?_set_resized table pos result, le_of_splitNumeric hsplit⟩
        · intro hfalse
          rw [hset] at hfalse
          cases hfalse

theorem getStringValue_setValue (hinvalid : v ≠ table.invalidValue_) :
    (table.setValue pos v).getStringValue conv pos =
      if v.1 = v.2 then (table.endText conv v.1).map some
      else
        match table.endText conv v.1 with
        | .error e => .error e
        | .ok value =>
          (table.endText conv v.2).map fun value' => some (value ++ ['-'] ++ value') := by
  have hget : (table.setValue pos v).data_[pos]? = some v := getElem?_set_resized table pos v
  rw [getStringValue, hget]
  exact if_neg hinvalid

theorem roundTrips_of_split {text : Text}
    (htext : (table.setValue pos v).getStringValue conv pos = .ok (some text))
    (hsplit : splitNumeric conv table.T text = .ok (some v)) : RoundTrips conv table pos v := by
  refine ⟨text, table.setValue pos v, htext, ?_, getElem?_set_resized table pos v⟩
  rw [setStringValue, hsplit]
  rfl

theorem not_roundTrips_of_split
    (h : ∀ text, (table.setValue pos v).getStringValue conv pos = .ok (some text) →
      splitNumeric conv table.T text = .ok none) : ¬ RoundTrips conv table pos v := by
  rintro ⟨text, table', htext, hset, -⟩
  rw [setStringValue, h text htext] at hset
  cases hset

/-- A time is in the text of a range of times. -/
theorem mem_text_of_isDateTime (h : conv.Lawful) (hdate : table.isDateTime)
    (hinvalid : v ≠ table.invalidValue_)
    (htext : (table.setValue pos v).getStringValue conv pos = .ok (some text)) : 'T' ∈ text := by
  have hend (w : ℤ) : table.endText conv w = conv.isoString w := if_pos hdate
  rw [getStringValue_setValue hinvalid, hend, hend] at htext
  cases hfirst : conv.isoString v.1 with
  | error e =>
    rw [hfirst] at htext
    split at htext <;> cases htext
  | ok first =>
    rw [hfirst] at htext
    split at htext
    · cases htext
      exact h.iso_chars hfirst
    · cases hsecond : conv.isoString v.2 with
      | error e =>
        rw [hsecond] at htext
        cases htext
      | ok second =>
        rw [hsecond] at htext
        cases htext
        exact mem_append_left _ (mem_append_left _ (h.iso_chars hfirst))

theorem roundTrips_iff (h : conv.Lawful) (hle : v.1 ≤ v.2) (hfirst : table.T.InRange v.1)
    (hsecond : table.T.InRange v.2) (hinvalid : v ≠ table.invalidValue_) :
    RoundTrips conv table pos v ↔ 0 ≤ v.1 ∧ ¬ table.isDateTime := by
  by_cases hdate : table.isDateTime
  · refine iff_of_false (not_roundTrips_of_split fun text htext => ?_) fun hcond => hcond.2 hdate
    have hT : table.T = .int64 := by
      rw [isDateTime, Bool.and_eq_true, decide_eq_true_iff] at hdate
      exact hdate.1
    rw [hT]
    exact splitNumeric_iso h (mem_text_of_isDateTime h hdate hinvalid htext)
  have hend (w : ℤ) : table.endText conv w = .ok (intText w) := if_neg hdate
  have htext : (table.setValue pos v).getStringValue conv pos = _ :=
    getStringValue_setValue hinvalid
  rw [hend, hend] at htext
  by_cases h0 : 0 ≤ v.1
  · refine iff_of_true ?_ ⟨h0, hdate⟩
    by_cases heq : v.1 = v.2
    · rw [if_pos heq] at htext
      refine roundTrips_of_split htext ?_
      rw [splitNumeric_single h hfirst h0]
      exact congrArg (fun w => Except.ok (some (v.1, w))) heq
    · rw [if_neg heq] at htext
      exact roundTrips_of_split htext (splitNumeric_range h hfirst hsecond h0 hle)
  · refine iff_of_false (not_roundTrips_of_split fun text htext' => ?_) fun hcond => h0 hcond.1
    have hminus : intText v.1 = '-' :: Nat.toDigits 10 v.1.natAbs := if_pos (not_le.mp h0)
    rw [htext, hminus] at htext'
    split at htext'
    · cases htext'
      exact splitNumeric_minus h
    · cases htext'
      exact splitNumeric_minus h

/-- A range is read back exactly when it does not begin below zero and is not one of times; a text
is set or refused exactly when no end of eight bits overflows; and in any case only the position
changes. -/
theorem rangeText_iff (h : conv.Lawful) (table : NumericRangePropertyTable) (pos : ℕ) :
    (∀ v : ℤ × ℤ, v.1 ≤ v.2 → table.T.InRange v.1 → table.T.InRange v.2 →
      v ≠ table.invalidValue_ → (RoundTrips conv table pos v ↔ 0 ≤ v.1 ∧ ¬ table.isDateTime)) ∧
    (∀ value, SetsRight conv table pos value ↔ ¬ Overflows conv table.T value) ∧
    (∀ value, Frame table (table.setStringValue conv pos value).2 pos) :=
  ⟨fun _ hle hfirst hsecond hinvalid => roundTrips_iff h hle hfirst hsecond hinvalid,
    fun _ => setsRight_iff, frame_setStringValue conv table pos⟩

end Setting

end NumericRangePropertyTable

open NumericRangePropertyTable

/-- The number with these digits. -/
def digitsValue (digits : Text) : Option ℤ :=
  if digits ≠ [] ∧ digits.all Char.isDigit then some (Nat.ofDigitChars 10 digits 0 : ℤ) else none

/-- An optional sign and digits. -/
def decimalOf (s : Text) : Option ℤ :=
  if s.head? = some '-' then (digitsValue s.tail).map (- ·)
  else if s.head? = some '+' then digitsValue s.tail
  else digitsValue s

/-- Decimal numbers in the range of their type, and one time. -/
def decimalConversions : NumericConversions where
  lexicalCast T s := (decimalOf s).filter fun v => T.InRange v
  isoString v :=
    if v = 0 then .ok "19700101T000000".toList else .error "Year is out of valid range: 1400..10000"

theorem digitsValue_toDigits (n : ℕ) : digitsValue (Nat.toDigits 10 n) = some (n : ℤ) := by
  have hdigits : (Nat.toDigits 10 n).all Char.isDigit :=
    all_eq_true.mpr fun _ hc => Nat.isDigit_of_mem_toDigits (by decide) (by decide) hc
  rw [digitsValue, if_pos ⟨Nat.toDigits_ne_nil, hdigits⟩, Nat.ofDigitChars_ten_toDigits]

theorem isDigit_of_digitsValue {s : Text} {v : ℤ} (h : digitsValue s = some v) :
    ∀ c ∈ s, c.isDigit := by
  rw [digitsValue] at h
  split at h
  · rename_i hdigits
    exact all_eq_true.mp hdigits.2
  · cases h

theorem decimalOf_intText (v : ℤ) : decimalOf (intText v) = some v := by
  rw [intText]
  split
  · rename_i hneg
    change (digitsValue (Nat.toDigits 10 v.natAbs)).map (- ·) = some v
    rw [digitsValue_toDigits, Option.map_some]
    exact congrArg some (by omega)
  · rename_i hpos
    have hhead (c : Char) (hc : c.isDigit = false) :
        ¬ (Nat.toDigits 10 v.natAbs).head? = some c := by
      intro hhead
      have hdigit := Nat.isDigit_of_mem_toDigits (b := 10) (by decide) (by decide)
        (mem_of_mem_head? hhead)
      rw [hc] at hdigit
      cases hdigit
    rw [decimalOf, if_neg (hhead '-' (by decide)), if_neg (hhead '+' (by decide)),
      digitsValue_toDigits]
    exact congrArg some (by omega)

theorem chars_of_decimalOf {s : Text} {v : ℤ} (h : decimalOf s = some v) :
    ∀ c ∈ s, c.isDigit ∨ c = '-' ∨ c = '+' := by
  have htail {sign : Char} {w : ℤ} (hhead : s.head? = some sign)
      (hvalue : digitsValue s.tail = some w) : ∀ c ∈ s, c.isDigit ∨ c = sign := by
    obtain ⟨rest, hs⟩ := head?_eq_some_iff.mp hhead
    rw [hs] at hvalue
    intro c hc
    rw [hs] at hc
    rcases mem_cons.mp hc with rfl | hc
    · exact .inr rfl
    · exact .inl (isDigit_of_digitsValue hvalue c hc)
  intro c hc
  rw [decimalOf] at h
  split at h
  · rename_i hminus
    obtain ⟨w, hvalue, -⟩ := Option.map_eq_some_iff.mp h
    exact (htail hminus hvalue c hc).imp_right .inl
  split at h
  · rename_i hplus
    exact (htail hplus h c hc).imp_right .inr
  · exact .inl (isDigit_of_digitsValue h c hc)

theorem decimalConversions_lawful : decimalConversions.Lawful where
  cast_text := by
    intro T v hv
    change (decimalOf (intText v)).filter (fun v => T.InRange v) = _
    rw [decimalOf_intText, Option.filter_some, if_pos (decide_eq_true hv)]
  cast_nil _ := rfl
  cast_chars := by
    intro T s v hcast
    exact chars_of_decimalOf (Option.filter_eq_some_iff.mp hcast).1
  iso_chars := by
    intro v s hiso
    change (if v = 0 then _ else _) = _ at hiso
    split at hiso
    · cases hiso
      decide
    · cases hiso

def ageTable : NumericRangePropertyTable where
  T := .int8
  type_ := .INT8

theorem rangeText_iff_ages :
    RoundTrips decimalConversions ageTable 2 (18, 65) ∧
      SetsRight decimalConversions ageTable 2 "65~18".toList := by
  obtain ⟨hround, hsets, -⟩ :=
    rangeText_iff decimalConversions_lawful ageTable 2
  refine ⟨(hround (18, 65) (by decide) (by decide) (by decide) (by decide)).mpr (by decide), ?_⟩
  refine (hsets _).mpr ?_
  rintro ⟨-, ⟨v, hv, hbig⟩ | ⟨-, v, hv, hbig⟩⟩
  · cases hv
    exact hbig (by decide)
  · cases hv
    exact hbig (by decide)

/-- The text of a temperature below zero is refused, and an age of eight bits that is too big is
not. -/
theorem rangeText_not_right :
    (¬ ∀ (table : NumericRangePropertyTable) (pos : ℕ) (v : ℤ × ℤ), v.1 ≤ v.2 →
      table.T.InRange v.1 → table.T.InRange v.2 → v ≠ table.invalidValue_ →
      RoundTrips decimalConversions table pos v) ∧
    ¬ ∀ (table : NumericRangePropertyTable) (pos : ℕ) (value : Text),
      ∃ returned, (table.setStringValue decimalConversions pos value).1 = .ok returned := by
  constructor
  · intro h
    obtain ⟨text, table', htext, hset, -⟩ := h { T := .int32, type_ := .INT32 } 1 (-5, -5)
      (by decide) (by decide) (by decide) (by decide)
    cases htext
    cases hset
  · intro h
    obtain ⟨returned, hreturned⟩ := h ageTable 1 "200".toList
    cases hreturned

end AdDelivery.PropertyTables
