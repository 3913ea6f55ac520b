import AdDelivery.Mining.DnfTask
import Mathlib.Data.List.Infix

/-!
# The texts that the parser accepts

A text lists assignments, each with its values in braces. The parser looks for the mark
before the braces only and skips one character on either side of the values, whatever it is.
So it reads back every list of assignments with values, but it also accepts other texts, and
it throws where a factor ends with its mark.
-/

namespace AdDelivery.Mining

open List Option Except Assignment

/-- Where the pattern is found: nothing before it and its first characters is an occurrence. -/
theorem findText_eq_some_iff {pat : List Char} (hpat : pat ≠ []) {str : List Char} {i : ℕ} :
    find pat str = some i ↔
      ∃ u v, str = u ++ pat ++ v ∧ u.length = i ∧ ¬pat <:+: u ++ pat.dropLast := by
  induction str generalizing i with
  | nil =>
    rw [find, if_neg hpat]
    refine iff_of_false (some_ne_none i).symm ?_
    rintro ⟨u, v, hsplit, -⟩
    simp only [nil_eq, append_eq_nil_iff] at hsplit
    exact hpat hsplit.1.2
  | cons c str ih =>
    have hlong : ¬pat <:+: pat.dropLast := by
      intro hpart
      have hle := hpart.length_le
      have hpos := length_pos_of_ne_nil hpat
      rw [length_dropLast] at hle
      omega
    rw [find]
    by_cases hprefix : pat <+: c :: str
    · rw [if_pos ( isPrefixOf_iff_prefix.mpr hprefix), some_inj]
      constructor
      · rintro rfl
        obtain ⟨v, hv⟩ := hprefix
        exact ⟨[], v, hv.symm, rfl, hlong⟩
      · rintro ⟨u, v, hsplit, rfl, hfirst⟩
        cases u with
        | nil => rfl
        | cons d u =>
          -- an occurrence at the start would be one in what comes before
          refine absurd (IsPrefix.isInfix ?_) hfirst
          have hsame : d :: u ++ pat.dropLast <+: c :: str := by
            rw [hsplit]
            exact ((prefix_append_right_inj _).mpr pat.dropLast_prefix).trans
              (prefix_append _ _)
          refine prefix_of_prefix_length_le hprefix hsame ?_
          rw [length_append, length_dropLast, length_cons]
          omega
    · rw [if_neg (mt isPrefixOf_iff_prefix.mp hprefix), map_eq_some_iff]
      constructor
      · rintro ⟨j, hj, rfl⟩
        obtain ⟨u, v, rfl, rfl, hfirst⟩ := ih.mp hj
        refine ⟨c :: u, v, rfl, rfl, ?_⟩
        rw [cons_append, infix_cons_iff]
        rintro (hstart | hlater)
        · refine hprefix (hstart.trans ?_)
          rw [cons_prefix_cons]
          exact ⟨rfl, ((prefix_append_right_inj u).mpr pat.dropLast_prefix).trans
            (prefix_append _ v)⟩
        · exact hfirst hlater
      · rintro ⟨u, v, hsplit, rfl, hfirst⟩
        cases u with
        | nil => exact absurd ⟨v, hsplit.symm⟩ hprefix
        | cons d u =>
          obtain ⟨rfl, rfl⟩ := List.cons.inj hsplit
          refine ⟨u.length, ih.mpr ⟨u, v, rfl, rfl, fun hlater => hfirst ?_⟩, rfl⟩
          exact infix_cons hlater

theorem findText_eq_none_iff {pat : List Char} (hpat : pat ≠ []) {str : List Char} :
    find pat str = none ↔ ¬pat <:+: str := by
  induction str with
  | nil =>
    rw [find, if_neg hpat, infix_nil]
    exact iff_of_true rfl hpat
  | cons c str ih =>
    rw [find, infix_cons_iff]
    by_cases hprefix : pat <+: c :: str
    · rw [if_pos ( isPrefixOf_iff_prefix.mpr hprefix)]
      exact iff_of_false (some_ne_none 0) fun hnot => hnot (.inl hprefix)
    · rw [if_neg (mt isPrefixOf_iff_prefix.mp hprefix), map_eq_none_iff, ih, or_iff_right hprefix]

/-- The mark between the attribute and the values. -/
def mark (belongsTo : Bool) : List Char := if belongsTo then ['~'] else ['!', '~']

/-- A factor that ends right after the first mark in it. -/
def CutShort (token : List Char) : Prop :=
  ∃ u, token = u ++ ['~'] ∧ ('~' ∉ u ∨ (['!'] <:+ u ∧ ¬['!', '~'] <:+: u))

theorem parseValues_eq (belongsTo : Bool) (u v : List Char) :
    some <$> parseValues belongsTo (u ++ mark belongsTo ++ v) u.length
        ((mark belongsTo).length + 1) =
      if v = [] then .error .substr
      else .ok (some ⟨belongsTo, u, v.tail.dropLast.splitOn ','⟩) := by
  unfold parseValues substr
  rw [length_append, length_append]
  cases v with
  | nil =>
    rw [if_neg (by rw [length_nil]; omega)]
    rfl
  | cons c v =>
    rw [if_pos (by rw [length_cons]; omega)]
    have hdrop : (u ++ mark belongsTo ++ c :: v).drop
        (u.length + ((mark belongsTo).length + 1)) = v := by
      simp
    have htake : (u ++ mark belongsTo ++ c :: v).take u.length = u := by
      rw [append_assoc, take_left]
    rw [hdrop, htake]
    rfl

variable (token : List Char)

/-- What becomes of a factor with a `!~` in it, with a `~` only, or with none. -/
theorem parseAssignment_cases : (∃ u v, token = u ++ mark false ++ v ∧ ¬['!', '~'] <:+: u ++ ['!'] ∧
      parseAssignment token = if v = [] then .error .substr
        else .ok (some ⟨false, u, v.tail.dropLast.splitOn ','⟩)) ∨
    (¬['!', '~'] <:+: token ∧ ∃ u v, token = u ++ mark true ++ v ∧ '~' ∉ u ∧
      parseAssignment token = if v = [] then .error .substr
        else .ok (some ⟨true, u, v.tail.dropLast.splitOn ','⟩)) ∨
    ('~' ∉ token ∧ parseAssignment token = .ok none) := by
  unfold parseAssignment
  cases hnegative : find ['!', '~'] token with
  | some index =>
    obtain ⟨u, v, rfl, rfl, hfirst⟩ := (findText_eq_some_iff (cons_ne_nil _ _)).mp hnegative
    exact .inl ⟨u, v, rfl, hfirst, parseValues_eq false u v⟩
  | none =>
    right
    have hno := (findText_eq_none_iff (cons_ne_nil _ _)).mp hnegative
    cases hpositive : find ['~'] token with
    | some index =>
      obtain ⟨u, v, rfl, rfl, hfirst⟩ := (findText_eq_some_iff (cons_ne_nil _ _)).mp hpositive
      rw [dropLast_singleton, append_nil, singleton_infix_iff] at hfirst
      exact .inl ⟨hno, u, v, rfl, hfirst, parseValues_eq true u v⟩
    | none =>
      have hunknown := (findText_eq_none_iff (cons_ne_nil _ _)).mp hpositive
      rw [singleton_infix_iff] at hunknown
      exact .inr ⟨hunknown, rfl⟩

/-- A factor that goes on after its mark holds the mark before its last character. -/
theorem eq_append_of_mark {belongsTo : Bool} {u v w : List Char} (hv : v ≠ [])
    (h : u ++ mark belongsTo ++ v = w ++ ['~']) : w = u ++ mark belongsTo ++ v.dropLast := by
  have hdrop := congrArg List.dropLast h
  rw [dropLast_append_of_ne_nil hv, dropLast_concat] at hdrop
  exact hdrop.symm

/-- The outcome of a factor: unknown without a mark, an exception if it is cut short. -/
theorem parseAssignment_outcome :
    ('~' ∉ token ∧ ¬CutShort token ∧ parseAssignment token = .ok none) ∨
      ('~' ∈ token ∧ CutShort token ∧ parseAssignment token = .error .substr) ∨
      ('~' ∈ token ∧ ¬CutShort token ∧ ∃ a, parseAssignment token = .ok (some a)) := by
  obtain ⟨u, v, rfl, hfirst, hparse⟩ | ⟨hno, u, v, rfl, hu, hparse⟩ | ⟨hunknown, hparse⟩ :=
    parseAssignment_cases token
  · right
    have hmem : '~' ∈ u ++ mark false ++ v :=
      mem_append_left v (mem_append_right u (mem_cons_of_mem '!' mem_cons_self))
    by_cases hv : v = []
    · subst hv
      refine .inl ⟨hmem, ⟨u ++ ['!'], ?_, .inr ⟨suffix_append _ _, hfirst⟩⟩, ?_⟩
      · simp [mark]
      · rw [hparse, if_pos rfl]
    · rw [if_neg hv] at hparse
      refine .inr ⟨hmem, ?_, _, hparse⟩
      rintro ⟨w, hw, hnone⟩
      obtain rfl := eq_append_of_mark hv hw
      rcases hnone with hnone | ⟨-, hnone⟩
      · refine hnone (mem_append_left _ (mem_append_right u ?_))
        exact mem_cons_of_mem '!' mem_cons_self
      · exact hnone ⟨u, v.dropLast, rfl⟩
  · right
    have hmem : '~' ∈ u ++ mark true ++ v :=
      mem_append_left v (mem_append_right u mem_cons_self)
    by_cases hv : v = []
    · subst hv
      refine .inl ⟨hmem, ⟨u, append_nil _, .inl hu⟩, ?_⟩
      rw [hparse, if_pos rfl]
    · rw [if_neg hv] at hparse
      refine .inr ⟨hmem, ?_, _, hparse⟩
      rintro ⟨w, hw, hnone⟩
      rcases hnone with hnone | ⟨hsuffix, -⟩
      · obtain rfl := eq_append_of_mark hv hw
        exact hnone (mem_append_left _ (mem_append_right u mem_cons_self))
      · -- the `!` before the last character and the `~` that ends the factor
        obtain ⟨x, rfl⟩ := hsuffix
        refine hno ⟨x, [], ?_⟩
        rw [hw]
        simp
  · refine .inl ⟨hunknown, ?_, hparse⟩
    rintro ⟨u, rfl, -⟩
    exact hunknown (mem_append_right u mem_cons_self)

/-- Some factor has no mark, and none before it is cut short. -/
def StopsUnknown (tokens : List (List Char)) : Prop :=
  ∃ before token after, tokens = before ++ token :: after ∧ '~' ∉ token ∧
    ∀ earlier ∈ before, ¬CutShort earlier

variable (tokens : List (List Char))

theorem stopsUnknown_cons :
    StopsUnknown (token :: tokens) ↔ '~' ∉ token ∨ (¬CutShort token ∧ StopsUnknown tokens) := by
  constructor
  · rintro ⟨_ | ⟨first, before⟩, unknown, after, hsplit, hmark, hearlier⟩
    · obtain ⟨rfl, -⟩ := List.cons.inj hsplit
      exact .inl hmark
    · obtain ⟨rfl, rfl⟩ := List.cons.inj hsplit
      obtain ⟨hfirst, hbefore⟩ := forall_mem_cons.mp hearlier
      exact .inr ⟨hfirst, before, unknown, after, rfl, hmark, hbefore⟩
  · rintro (hmark | ⟨hfirst, before, unknown, after, rfl, hmark, hbefore⟩)
    · exact ⟨[], token, tokens, rfl, hmark, nofun⟩
    · exact ⟨token :: before, unknown, after, rfl, hmark, forall_mem_cons.mpr ⟨hfirst, hbefore⟩⟩

theorem parseAssignments_none_iff : parseAssignments tokens = .ok none ↔ StopsUnknown tokens := by
  induction tokens with
  | nil =>
    refine iff_of_false (fun h => ?_) ?_
    · exact some_ne_none _ (ok.inj h)
    · rintro ⟨before, token, after, hsplit, -⟩
      exact absurd hsplit.symm (append_ne_nil_of_right_ne_nil _ (cons_ne_nil _ _))
  | cons token tokens ih =>
    rw [stopsUnknown_cons, ← ih]
    obtain ⟨hmark, hwhole, hparse⟩ | ⟨hmark, hcut, hparse⟩ | ⟨hmark, hwhole, a, hparse⟩ :=
      parseAssignment_outcome token
    · rw [parseAssignments, hparse]
      exact iff_of_true rfl (.inl hmark)
    · have herror : parseAssignments (token :: tokens) = .error .substr := by
        rw [parseAssignments, hparse]
        rfl
      refine iff_of_false (fun h => nomatch herror.symm.trans h) ?_
      rintro (hno | ⟨hwhole, -⟩)
      · exact hno hmark
      · exact hwhole hcut
    · rw [parseAssignments, hparse, or_iff_right fun hno => hno hmark, and_iff_right hwhole]
      rcases parseAssignments tokens with e | _ | assignments
      · exact iff_of_false (fun h => nomatch show error e = ok none from h)
          fun h => nomatch h
      · exact iff_of_true rfl rfl
      · refine iff_of_false (fun h => ?_) fun h => ?_
        · exact some_ne_none _ (ok.inj h)
        · exact some_ne_none _ (ok.inj h)

/-- The characters that have a meaning in the text. -/
def reserved : List Char := ['^', '~', '!', ',', '{', '}']

def Plain (text : List Char) : Prop := ∀ c ∈ text, c ∉ reserved

structure Assignment.Plain (a : Assignment) : Prop where
  attr : Mining.Plain a.attr
  values : ∀ value ∈ a.values, Mining.Plain value

/-- `attr~{v1,...,vn}` or `attr!~{v1,...,vn}`. -/
def Assignment.text (a : Assignment) : List Char :=
  a.attr ++ mark a.belongsTo ++ '{' :: ([','].intercalate a.values ++ ['}'])

def conjunctionText (assignments : List Assignment) : List Char :=
  ['^'].intercalate (assignments.map text)

/-- The factor is the text of an assignment with values. -/
def WellFormedToken (token : List Char) : Prop :=
  ∃ a : Assignment, a.values ≠ [] ∧ a.Plain ∧ token = a.text

variable (str : List Char) (dnf : DNF)

/-- `parseDNF` of the source: it appends what it has parsed to the expression. -/
def readDNF : Except OutOfRange (Bool × DNF) := do
  let some parsed ← parseDNF str | return (false, dnf)
  return (true, ⟨dnf.conjunctions ++ parsed.conjunctions⟩)

theorem mem_intercalate {c sep : Char} {texts : List (List Char)}
    (h : c ∈ [sep].intercalate texts) : c = sep ∨ ∃ text ∈ texts, c ∈ text := by
  induction texts with
  | nil => cases h
  | cons text texts ih =>
    cases texts with
    | nil =>
      rw [intercalate_singleton] at h
      exact .inr ⟨text, mem_cons_self, h⟩
    | cons text' texts =>
      rw [intercalate_cons_cons, mem_append, mem_append, mem_singleton] at h
      rcases h with (h | rfl) | h
      · exact .inr ⟨text, mem_cons_self, h⟩
      · exact .inl rfl
      · obtain rfl | ⟨later, hlater, hc⟩ := ih h
        · exact .inl rfl
        · exact .inr ⟨later, mem_cons_of_mem text hlater, hc⟩

variable {a : Assignment}

/-- The reserved characters in the text of an assignment are those of its format. -/
theorem Assignment.Plain.mem_text (h : a.Plain) {c : Char} (hc : c ∈ reserved) (hmem : c ∈ a.text) :
    c ∈ mark a.belongsTo ∨ c ∈ ['{', ',', '}'] := by
  unfold text at hmem
  rw [mem_append, mem_append, mem_cons, mem_append] at hmem
  rcases hmem with (hmem | hmem) | rfl | hmem | hmem
  · exact absurd hc (h.attr c hmem)
  · exact .inl hmem
  · exact .inr mem_cons_self
  · obtain rfl | ⟨value, hvalue, hmem⟩ := mem_intercalate hmem
    · exact .inr (mem_cons_of_mem _ mem_cons_self)
    · exact absurd hc (h.values value hvalue c hmem)
  · exact .inr (mem_cons_of_mem _ (mem_cons_of_mem _ hmem))

/-- What the parser makes of an assignment: without a value there is an empty one. -/
def Assignment.read (a : Assignment) : Assignment :=
  ⟨a.belongsTo, a.attr, if a.values = [] then [[]] else a.values⟩

theorem splitOn_values (h : a.Plain) :
    ([','].intercalate a.values).splitOn ',' = if a.values = [] then [[]] else a.values := by
  split
  · rename_i hnil
    rw [hnil]
    rfl
  · rename_i hne
    refine splitOn_intercalate ',' (fun value hvalue hmem => ?_) hne
    exact h.values value hvalue ',' hmem (by decide)

theorem parseAssignment_text (h : a.Plain) : parseAssignment a.text = .ok (some a.read) := by
  have hread : some <$> parseValues a.belongsTo a.text a.attr.length
      ((mark a.belongsTo).length + 1) = .ok (some a.read) := by
    rw [text, parseValues_eq, tail_cons,
      dropLast_concat, splitOn_values h]
    rfl
  have hattr : ∀ c ∈ reserved, c ∉ a.attr := fun c hc hmem => h.attr c hmem hc
  cases hb : a.belongsTo with
  | false =>
    have hfind : find ['!', '~'] a.text = some a.attr.length := by
      refine (findText_eq_some_iff (cons_ne_nil _ _)).mpr
        ⟨a.attr, '{' :: ([','].intercalate a.values ++ ['}']), ?_, rfl, fun hpart => ?_⟩
      · rw [text, hb]
        rfl
      · have hmem : '~' ∈ a.attr ++ ['!'] :=
          hpart.subset (mem_cons_of_mem '!' mem_cons_self)
        rcases mem_append.mp hmem with hmem | hmem
        · exact hattr '~' (by decide) hmem
        · exact absurd hmem (by decide)
    rw [hb] at hread
    rw [parseAssignment, hfind]
    exact hread
  | true =>
    have hnone : find ['!', '~'] a.text = none := by
      refine (findText_eq_none_iff (cons_ne_nil _ _)).mpr fun hpart => ?_
      have hmem := h.mem_text (by decide) (hpart.subset mem_cons_self)
      rw [hb] at hmem
      exact absurd hmem (by decide)
    have hfind : find ['~'] a.text = some a.attr.length := by
      refine (findText_eq_some_iff (cons_ne_nil _ _)).mpr
        ⟨a.attr, '{' :: ([','].intercalate a.values ++ ['}']), ?_, rfl, ?_⟩
      · rw [text, hb]
        rfl
      · rw [dropLast_singleton, append_nil, singleton_infix_iff]
        exact hattr '~' (by decide)
    rw [hb] at hread
    rw [parseAssignment, hnone]
    rw [hfind]
    exact hread

variable {assignments : List Assignment}

theorem parseAssignments_text (h : ∀ a ∈ assignments, a.Plain) :
    parseAssignments (assignments.map text) = .ok (some (assignments.map read)) := by
  induction assignments with
  | nil => rfl
  | cons a assignments ih =>
    obtain ⟨ha, hassignments⟩ := forall_mem_cons.mp h
    rw [map_cons, parseAssignments, parseAssignment_text ha, ih hassignments]
    rfl

theorem splitOn_conjunctionText (hne : assignments ≠ []) (h : ∀ a ∈ assignments, a.Plain) :
    (conjunctionText assignments).splitOn '^' = assignments.map text := by
  refine splitOn_intercalate '^' (fun text htext hmem => ?_) (by simpa using hne)
  obtain ⟨a, ha, rfl⟩ := mem_map.mp htext
  rcases (h a ha).mem_text (by decide) hmem with hmem | hmem
  · cases hb : a.belongsTo with
    | false =>
      rw [hb] at hmem
      exact absurd hmem (by decide)
    | true =>
      rw [hb] at hmem
      exact absurd hmem (by decide)
  · exact absurd hmem (by decide)

theorem readDNF_text (hne : assignments ≠ []) (h : ∀ a ∈ assignments, a.Plain) (dnf : DNF) :
    readDNF (conjunctionText assignments) dnf =
      .ok (true, ⟨dnf.conjunctions ++ [⟨assignments.map read⟩]⟩) := by
  rw [readDNF, parseDNF, splitOn_conjunctionText hne h, parseAssignments_text h]
  rfl

theorem read_eq_self_iff (a : Assignment) : a.read = a ↔ a.values ≠ [] := by
  obtain ⟨belongsTo, attr, values⟩ := a
  unfold Assignment.read
  cases values with
  | nil => simp
  | cons value values => simp

/-- The parser reads back exactly the assignments that were written. -/
theorem readDNF_text_iff (hne : assignments ≠ []) (h : ∀ a ∈ assignments, a.Plain) (dnf : DNF) :
    readDNF (conjunctionText assignments) dnf = .ok (true, ⟨dnf.conjunctions ++ [⟨assignments⟩]⟩) ↔
      ∀ a ∈ assignments, a.values ≠ [] := by
  have hmap : assignments.map read = assignments ↔ ∀ a ∈ assignments, a.read = a := by
    simpa using map_eq_map_iff (f := read) (g := id) (l := assignments)
  have hread : (∀ a ∈ assignments, a.values ≠ []) ↔
      assignments.map read = assignments := by
    simp only [hmap, read_eq_self_iff]
  rw [readDNF_text hne h, hread]
  simp

theorem readDNF_eq : readDNF str dnf = match parseAssignments (str.splitOn '^') with
      | .error e => .error e
      | .ok none => .ok (false, dnf)
      | .ok (some assignments) => .ok (true, ⟨dnf.conjunctions ++ [⟨assignments⟩]⟩) := by
  unfold readDNF parseDNF
  rcases parseAssignments (str.splitOn '^') with e | _ | assignments
  · rfl
  · rfl
  · rfl

theorem parseAssignments_wellFormed {tokens : List (List Char)}
    (h : ∀ token ∈ tokens, WellFormedToken token) :
    ∃ assignments, parseAssignments tokens = .ok (some assignments) := by
  have htexts : ∃ assignments : List Assignment, (∀ a ∈ assignments, a.Plain) ∧
      assignments.map text = tokens := by
    induction tokens with
    | nil => exact ⟨[], nofun, rfl⟩
    | cons token tokens ih =>
      obtain ⟨⟨a, -, ha, rfl⟩, htokens⟩ := forall_mem_cons.mp h
      obtain ⟨assignments, hplain, rfl⟩ := ih htokens
      exact ⟨a :: assignments, forall_mem_cons.mpr ⟨ha, hplain⟩, rfl⟩
  obtain ⟨assignments, hplain, rfl⟩ := htexts
  exact ⟨_, parseAssignments_text hplain⟩

/-- The parser does not throw, and if some factor is not an assignment it returns `false` and
leaves the expression as it is. -/
def Checked : Prop :=
  ∃ r, readDNF str dnf = .ok r ∧
    ((∃ token ∈ str.splitOn '^', ¬WellFormedToken token) → r = (false, dnf))

theorem checked_iff : Checked str dnf ↔
      (∀ token ∈ str.splitOn '^', WellFormedToken token) ∨ StopsUnknown (str.splitOn '^') := by
  unfold Checked
  rw [readDNF_eq, ← parseAssignments_none_iff]
  by_cases hall : ∀ token ∈ str.splitOn '^', WellFormedToken token
  · obtain ⟨assignments, hparse⟩ := parseAssignments_wellFormed hall
    rw [hparse]
    refine iff_of_true ⟨_, rfl, ?_⟩ (.inl hall)
    rintro ⟨token, htoken, hmalformed⟩
    exact absurd (hall token htoken) hmalformed
  · rw [or_iff_right hall]
    have hmalformed : ∃ token ∈ str.splitOn '^', ¬WellFormedToken token := by
      push Not at hall
      exact hall
    rcases parseAssignments (str.splitOn '^') with e | _ | assignments
    · refine iff_of_false ?_ fun h => nomatch h
      rintro ⟨r, hr, -⟩
      exact nomatch hr
    · exact iff_of_true ⟨_, rfl, fun _ => rfl⟩ rfl
    · refine iff_of_false ?_ fun h => some_ne_none _ (ok.inj h)
      rintro ⟨r, hr, hfalse⟩
      obtain rfl := ok.inj hr
      exact absurd (congrArg Prod.fst (hfalse hmalformed)).symm Bool.false_ne_true

/-- The two halves together: the parser reads back a list of assignments exactly when each
has a value, and it checks a text exactly when all factors are assignments or one without a
mark comes before every factor that is cut short. -/
theorem readDNF_iff {assignments : List Assignment} (hne : assignments ≠ [])
    (hplain : ∀ a ∈ assignments, a.Plain) (str : List Char) (dnf : DNF) :
    (readDNF (conjunctionText assignments) dnf = .ok (true, ⟨dnf.conjunctions ++ [⟨assignments⟩]⟩) ↔
      ∀ a ∈ assignments, a.values ≠ []) ∧ (Checked str dnf ↔
      (∀ token ∈ str.splitOn '^', WellFormedToken token) ∨ StopsUnknown (str.splitOn '^')) :=
  ⟨readDNF_text_iff hne hplain dnf, checked_iff str dnf⟩

theorem readDNF_iff_age :
    (readDNF (conjunctionText [⟨true, "Age".toList, ["20".toList, "30".toList]⟩]) ⟨[]⟩ =
        .ok (true, ⟨[⟨[⟨true, "Age".toList, ["20".toList, "30".toList]⟩]⟩]⟩) ↔
      ∀ a ∈ [(⟨true, "Age".toList, ["20".toList, "30".toList]⟩ : Assignment)], a.values ≠ []) ∧
    (Checked "Age".toList ⟨[]⟩ ↔ (∀ token ∈ "Age".toList.splitOn '^', WellFormedToken token) ∨
        StopsUnknown ("Age".toList.splitOn '^')) := by
  refine readDNF_iff (cons_ne_nil _ _) (forall_mem_singleton.mpr ⟨?_, ?_⟩) _ _
  · simp [Plain, reserved]
  · simp [Plain, reserved]

/-- The mark ends the text: the parser throws. -/
theorem not_checked_cutShort : ¬Checked "Age~".toList ⟨[]⟩ := by
  rintro ⟨r, hr, -⟩
  have hthrows : readDNF "Age~".toList ⟨[]⟩ = .error .substr := by decide
  exact nomatch hthrows.symm.trans hr

end AdDelivery.Mining
