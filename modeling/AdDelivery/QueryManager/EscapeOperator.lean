import AdDelivery.Core.ReplaceAll

/-!
# Escaped operators of a query

Before a query is parsed each escaped operator is replaced by its code, afterwards the codes are
replaced by the operators. The dictionaries are run through entry after entry. A code can also
come about from text and the colons of its neighbours.
-/

namespace AdDelivery.QueryManager

open List

/-- The code of an operator differs from the others in two characters. -/
structure OperCode where
  oper : Char
  first : Char
  second : Char
deriving DecidableEq

/-- What a code has between its colons. -/
def OperCode.name (entry : OperCode) : List Char :=
  ['$', 'O', 'P', '_', entry.first, entry.second, '$']

def OperCode.code (entry : OperCode) : List Char := [':', ':'] ++ entry.name ++ [':', ':']

def operUStr : List Char := ['&', '|', '#', '!', '(', ')', '{', '}', '[', ']', '^', '"']

def escOperUStr : List Char := operUStr ++ ['\\']

def operCodes : List OperCode :=
  [⟨'\\', 'S', 'L'⟩, ⟨'&', 'A', 'N'⟩, ⟨'#', 'W', 'N'⟩, ⟨'|', 'O', 'R'⟩, ⟨'!', 'N', 'T'⟩,
    ⟨'(', 'B', 'O'⟩, ⟨')', 'B', 'C'⟩, ⟨'[', 'O', 'O'⟩, ⟨']', 'O', 'C'⟩, ⟨'{', 'N', 'O'⟩,
    ⟨'}', 'N', 'C'⟩, ⟨'^', 'U', 'P'⟩, ⟨'"', 'E', 'X'⟩]

def operEncodeDic : List (List Char × List Char) :=
  operCodes.map fun entry => (['\\', entry.oper], entry.code)

def operDecodeDic : List (List Char × List Char) :=
  operCodes.map fun entry => (entry.code, [entry.oper])

variable (queryUstr : List Char)

def processReplaceAll (dic : List (List Char × List Char)) : List Char :=
  dic.foldl (fun queryUstr entry => replaceAll entry.1 entry.2 queryUstr) queryUstr

def processEscapeOperator : List Char :=
  processReplaceAll queryUstr operEncodeDic

def recoverEscapeOperator : List Char :=
  processReplaceAll queryUstr operDecodeDic

def addEscapeCharToOperator : List Char :=
  queryUstr.flatMap fun c => if c ∈ escOperUStr then ['\\', c] else [c]

/-- A backslash at the end is dropped. -/
def removeEscapeChar : List Char → List Char
  | [] => []
  | [c] => if c = '\\' then [] else [c]
  | c :: d :: rest =>
    if c = '\\' then
      if d ∈ escOperUStr then d :: removeEscapeChar rest else '\\' :: d :: removeEscapeChar rest
    else c :: removeEscapeChar (d :: rest)

theorem removeEscapeChar_addEscapeCharToOperator (s : List Char) :
    removeEscapeChar (addEscapeCharToOperator s) = s := by
  induction s with
  | nil => rfl
  | cons c s ih =>
    rw [addEscapeCharToOperator, flatMap_cons, ← addEscapeCharToOperator]
    by_cases hc : c ∈ escOperUStr
    · rw [if_pos hc, cons_append, singleton_append, removeEscapeChar, if_pos rfl, if_pos hc, ih]
    · have hslash : c ≠ '\\' := fun h => hc (h ▸ by decide)
      rw [if_neg hc, singleton_append]
      cases hs : addEscapeCharToOperator s with
      | nil =>
        rw [hs] at ih
        rw [removeEscapeChar, if_neg hslash, ← ih]
        rfl
      | cons d rest => rw [removeEscapeChar, if_neg hslash, ← hs, ih]

/-- The operators are not in the codes. -/
theorem oper_notMem_code : ∀ entry ∈ operCodes, ∀ other ∈ operCodes,
    other.oper ∉ entry.code ∧ ':' ≠ entry.first ∧ ':' ≠ entry.second := by
  decide

/-- Neither operators nor codes repeat, and the backslash comes first. -/
theorem operCodes_pairwise : operCodes.Pairwise fun entry other =>
    entry.oper ≠ other.oper ∧ other.oper ≠ '\\' ∧
      (entry.first, entry.second) ≠ (other.first, other.second) := by
  decide

open OperCode

def opers (todo : List OperCode) : List Char := todo.map oper

theorem mem_escOperUStr_iff (c : Char) : c ∈ escOperUStr ↔ c ∈ opers operCodes :=
  (by decide : escOperUStr.Perm (opers operCodes)).mem_iff

/-- The codes of some of the operators. -/
def encodeWith (todo : List OperCode) (c : Char) : List Char :=
  match todo.find? fun entry => entry.oper = c with
  | some entry => entry.code
  | none => [c]

variable {todo rest : List OperCode} {entry : OperCode} {c : Char} {s : List Char}

theorem encodeWith_of_notMem (h : c ∉ opers todo) : encodeWith todo c = [c] := by
  have hnone : todo.find? (fun entry => entry.oper = c) = none :=
    find?_eq_none.mpr fun entry hmem heq =>
      h (mem_map.mpr ⟨entry, hmem, of_decide_eq_true heq⟩)
  rw [encodeWith, hnone]

theorem exists_encodeWith (h : c ∈ opers todo) :
    ∃ entry ∈ todo, entry.oper = c ∧ encodeWith todo c = entry.code := by
  obtain ⟨entry, hmem, rfl⟩ := mem_map.mp h
  cases hfind : todo.find? fun other => other.oper = entry.oper with
  | none => exact absurd (decide_eq_true rfl) (find?_eq_none.mp hfind entry hmem)
  | some other =>
    refine ⟨other, mem_of_find?_eq_some hfind, of_decide_eq_true (find?_some hfind :), ?_⟩
    rw [encodeWith, hfind]

@[simp] theorem encodeWith_cons_self : encodeWith (entry :: rest) entry.oper = entry.code := by
  rw [encodeWith, find?_cons_of_pos]
  exact decide_eq_true rfl

theorem encodeWith_cons (h : c ≠ entry.oper) :
    encodeWith (entry :: rest) c = encodeWith rest c := by
  rw [encodeWith, find?_cons_of_neg (by simpa using h.symm), encodeWith]

/-- The rest of the table does not have the first operator, nor its code. -/
theorem rest_differs (htodo : entry :: rest <:+ operCodes) {other : OperCode}
    (hmem : other ∈ rest) : entry.oper ≠ other.oper ∧ other.oper ≠ '\\' ∧
      (entry.first, entry.second) ≠ (other.first, other.second) :=
  (pairwise_cons.mp (operCodes_pairwise.sublist htodo.sublist)).1 other hmem

theorem oper_notMem_rest (htodo : entry :: rest <:+ operCodes) : entry.oper ∉ opers rest := by
  intro hmem
  obtain ⟨other, hother, heq⟩ := mem_map.mp hmem
  exact (rest_differs htodo hother).1 heq.symm

theorem rest_suffix (htodo : entry :: rest <:+ operCodes) : rest <:+ operCodes :=
  (suffix_cons entry rest).trans htodo

/-- What is still escaped, and what has its code. -/
def escapedWith (todo : List OperCode) (c : Char) : List Char :=
  if c ∈ opers todo then ['\\', c] else encodeWith operCodes c

theorem encodeWith_oper (hentry : entry ∈ operCodes) :
    encodeWith operCodes entry.oper = entry.code :=
  (by decide : ∀ entry ∈ operCodes, encodeWith operCodes entry.oper = entry.code) entry hentry

/-- No escaped operator begins in a piece of another one, as the backslash comes first. -/
theorem not_crosses_escapedWith (htodo : entry :: rest <:+ operCodes) (s : List Char) :
    ¬Crosses (escapedWith (entry :: rest) entry.oper) (escapedWith (entry :: rest)) entry.oper
      s := by
  rintro ⟨s₁, c, s₂, v, -, hc, hv, hne, hocc⟩
  obtain ⟨x, v, rfl⟩ := exists_cons_of_ne_nil hne
  rw [escapedWith, if_pos (show entry.oper ∈ opers (entry :: rest) from mem_cons_self),
    cons_append, cons_prefix_cons] at hocc
  obtain ⟨rfl, hocc⟩ := hocc
  rw [escapedWith] at hv
  split at hv
  · rename_i hmem
    have hrest : c ∈ opers rest := (mem_cons.mp hmem).resolve_left hc
    rcases suffix_cons_iff.mp hv with hv | hv
    · obtain rfl := (List.cons.inj hv).2
      exact hc (cons_prefix_cons.mp hocc).1.symm
    · obtain rfl := mem_singleton.mp (hv.subset mem_cons_self)
      obtain ⟨other, hother, heq⟩ := mem_map.mp hrest
      exact (rest_differs htodo hother).2.1 heq
  · have hslash := hv.subset mem_cons_self
    by_cases hmem : c ∈ opers operCodes
    · obtain ⟨other, hother, -, heq⟩ := exists_encodeWith hmem
      rw [heq] at hslash
      exact (oper_notMem_code other hother ⟨'\\', 'S', 'L'⟩ mem_cons_self).1 hslash
    · rw [encodeWith_of_notMem hmem, mem_singleton] at hslash
      exact hmem (hslash ▸ mem_cons_self)

theorem processReplaceAll_escapedWith (htodo : todo <:+ operCodes) (s : List Char) :
    processReplaceAll (s.flatMap (escapedWith todo))
      (todo.map fun entry => (['\\', entry.oper], entry.code)) =
        s.flatMap (encodeWith operCodes) := by
  induction todo with
  | nil => rfl
  | cons entry rest ih =>
    have hpat : escapedWith (entry :: rest) entry.oper = ['\\', entry.oper] :=
      if_pos mem_cons_self
    have hrep : escapedWith rest entry.oper = entry.code := by
      rw [escapedWith, if_neg (oper_notMem_rest htodo),
        encodeWith_oper (htodo.subset mem_cons_self)]
    have hothers (c : Char) (hc : c ≠ entry.oper) :
        escapedWith rest c = escapedWith (entry :: rest) c :=
      if_congr (mem_cons.trans (or_iff_right hc)).symm rfl rfl
    have hpass := replaceAll_flatMap (by rw [hpat]; exact cons_ne_nil _ _) hothers
      (not_crosses_escapedWith htodo s)
    rw [hpat, hrep] at hpass
    rw [map_cons, processReplaceAll, foldl_cons, hpass]
    exact ih (rest_suffix htodo)

/-- After the escaping every operator has its code. -/
theorem processEscapeOperator_addEscapeCharToOperator (s : List Char) :
    processEscapeOperator (addEscapeCharToOperator s) = s.flatMap (encodeWith operCodes) := by
  have hescaped :
      (fun c => if c ∈ escOperUStr then ['\\', c] else [c]) = escapedWith operCodes := by
    funext c
    rw [escapedWith]
    simp only [mem_escOperUStr_iff]
    split
    · rfl
    · rename_i hc
      rw [encodeWith_of_notMem hc]
  rw [addEscapeCharToOperator, hescaped]
  exact processReplaceAll_escapedWith suffix_rfl s

/-- The encoded text has no operator. -/
theorem notMem_escOperUStr_of_mem (h : c ∈ s.flatMap (encodeWith operCodes)) : c ∉ escOperUStr := by
  intro hc
  rw [mem_escOperUStr_iff] at hc
  obtain ⟨d, -, hd⟩ := mem_flatMap.mp h
  by_cases hoper : d ∈ opers operCodes
  · obtain ⟨entry, hentry, -, heq⟩ := exists_encodeWith hoper
    obtain ⟨other, hother, rfl⟩ := mem_map.mp hc
    exact (oper_notMem_code entry hentry other hother).1 (heq ▸ hd)
  · rw [encodeWith_of_notMem hoper, mem_singleton] at hd
    exact hoper (hd ▸ hc)

/-- The encoded text has two colons at this side. -/
def ColonsAt (todo : List OperCode) : List Char → Prop
  | [] => False
  | c :: rest => c ∈ opers todo ∨ c = ':' ∧ rest.head?.any fun d => d = ':' ∨ d ∈ opers todo

/-- The text has the name of the operator between colons. The operators before it in the dictionary
are no longer encoded, and neither is the operator itself on the left side. -/
def Clash (entry : OperCode) (rest : List OperCode) (s : List Char) : Prop :=
  ∃ pre post, s = pre ++ entry.name ++ post ∧ ColonsAt rest pre.reverse ∧
    ColonsAt (entry :: rest) post

def NoClash : List OperCode → List Char → Prop
  | [], _ => True
  | entry :: rest, s => ¬Clash entry rest s ∧ NoClash rest s

/-- An encoded character is itself or begins with two colons. -/
theorem encodeWith_cases (todo : List OperCode) (c : Char) :
    (c ∉ opers todo ∧ encodeWith todo c = [c]) ∨
      ∃ entry ∈ todo, c ∈ opers todo ∧ encodeWith todo c = entry.code := by
  by_cases hc : c ∈ opers todo
  · obtain ⟨entry, hentry, -, heq⟩ := exists_encodeWith hc
    exact .inr ⟨entry, hentry, hc, heq⟩
  · exact .inl ⟨hc, encodeWith_of_notMem hc⟩

/-- Text without colons is not from a code. -/
theorem exists_append_of_prefix {l m : List Char} (hl : ':' ∉ l)
    (h : l ++ m <+: s.flatMap (encodeWith todo)) :
    ∃ s', s = l ++ s' ∧ m <+: s'.flatMap (encodeWith todo) := by
  induction l generalizing s with
  | nil => exact ⟨s, rfl, h⟩
  | cons x l ih =>
    obtain ⟨hx, hl⟩ := ne_and_not_mem_of_not_mem_cons hl
    cases s with
    | nil => exact absurd (prefix_nil.mp h) (cons_ne_nil x _)
    | cons c s =>
      rw [flatMap_cons] at h
      rcases encodeWith_cases todo c with ⟨-, heq⟩ | ⟨entry, -, -, heq⟩
      · rw [heq, singleton_append, cons_append, cons_prefix_cons] at h
        obtain ⟨s', rfl, hm⟩ := ih hl h.2
        exact ⟨s', by rw [h.1, cons_append], hm⟩
      · rw [heq] at h
        exact absurd (cons_prefix_cons.mp h).1 hx.symm

theorem colons_prefix_iff : [':', ':'] <+: s.flatMap (encodeWith todo) ↔ ColonsAt todo s := by
  have hone (s : List Char) : [':'] <+: s.flatMap (encodeWith todo) ↔
      s.head?.any fun d => d = ':' ∨ d ∈ opers todo := by
    cases s with
    | nil => simp
    | cons d s =>
      rw [flatMap_cons, head?_cons, Option.any_some, decide_eq_true_iff]
      rcases encodeWith_cases todo d with ⟨hd, heq⟩ | ⟨entry, -, hd, heq⟩
      · rw [heq, singleton_append, cons_prefix_cons, or_iff_left hd]
        exact ⟨fun h => h.1.symm, fun h => ⟨h.symm, nil_prefix⟩⟩
      · rw [heq]
        exact iff_of_true (cons_prefix_cons.mpr ⟨rfl, nil_prefix⟩) (.inr hd)
  cases s with
  | nil => simp [ColonsAt]
  | cons c s =>
    rw [flatMap_cons, ColonsAt, ← hone]
    rcases encodeWith_cases todo c with ⟨hc, heq⟩ | ⟨entry, -, hc, heq⟩
    · rw [heq, singleton_append, cons_prefix_cons, or_iff_right hc, eq_comm]
    · rw [heq]
      exact iff_of_true ⟨_, rfl⟩ (.inl hc)

/-- The name of an operator is encoded as it is. -/
theorem name_prefix_iff (htodo : todo <:+ operCodes) (hentry : entry ∈ operCodes) :
    entry.name ++ [':', ':'] <+: s.flatMap (encodeWith todo) ↔
      ∃ post, s = entry.name ++ post ∧ ColonsAt todo post := by
  have hplain : entry.name.flatMap (encodeWith todo) = entry.name := by
    have hname : ∀ c ∈ entry.name, encodeWith todo c = [c] := by
      intro c hc
      apply encodeWith_of_notMem
      intro hmem
      obtain ⟨other, hother, rfl⟩ := mem_map.mp hmem
      exact (oper_notMem_code entry hentry other (htodo.subset hother)).1
        (mem_append_left _ (mem_append_right _ hc))
    rw [flatMap_congr hname, flatMap_singleton']
  constructor
  · intro h
    have hcolons := oper_notMem_code entry hentry entry hentry
    obtain ⟨post, rfl, hpost⟩ := exists_append_of_prefix
      (by simp [name, hcolons.2.1, hcolons.2.2]) h
    exact ⟨post, rfl, colons_prefix_iff.mp hpost⟩
  · rintro ⟨post, rfl, hpost⟩
    rw [flatMap_append, hplain]
    exact prefix_append_right_inj _ |>.mpr (colons_prefix_iff.mpr hpost)

/-- Two different codes have only colons in common. -/
theorem overlap_of_suffix {other : OperCode}
    (hdiffers : (entry.first, entry.second) ≠ (other.first, other.second)) {v t : List Char}
    (hv : v <:+ other.code) (hne : v ≠ []) (hocc : entry.code <+: v ++ t) :
    v = [':', ':'] ∧ entry.name ++ [':', ':'] <+: t ∨
      v = [':'] ∧ ':' :: (entry.name ++ [':', ':']) <+: t := by
  simp only [code, name, cons_append, nil_append,
    suffix_cons_iff, suffix_nil] at hv
  simp only [code, name, cons_append, nil_append] at hocc ⊢
  rcases hv with rfl | rfl | rfl | rfl | rfl | rfl | rfl | rfl | rfl | rfl | rfl | rfl
  case inl =>
    simp only [cons_append, cons_prefix_cons] at hocc
    exact absurd (Prod.ext hocc.2.2.2.2.2.2.1 hocc.2.2.2.2.2.2.2.1) hdiffers
  all_goals simp_all [cons_prefix_cons]

theorem colon_notMem (htodo : todo <:+ operCodes) : ':' ∉ opers todo := fun h =>
  (by decide : ':' ∉ opers operCodes) ((htodo.map oper).subset h)

/-- A single colon before the name is from the text. -/
theorem colon_name_prefix_iff (htodo : todo <:+ operCodes) (hentry : entry ∈ operCodes) :
    ':' :: (entry.name ++ [':', ':']) <+: s.flatMap (encodeWith todo) ↔
      ∃ post, s = ':' :: (entry.name ++ post) ∧ ColonsAt todo post := by
  constructor
  · intro h
    cases s with
    | nil => exact absurd (prefix_nil.mp h) (cons_ne_nil _ _)
    | cons c s =>
      rw [flatMap_cons] at h
      rcases encodeWith_cases todo c with ⟨-, heq⟩ | ⟨other, -, -, heq⟩
      · rw [heq, singleton_append, cons_prefix_cons, name_prefix_iff htodo hentry] at h
        obtain ⟨rfl, post, rfl, hpost⟩ := h
        exact ⟨post, rfl, hpost⟩
      · rw [heq] at h
        exact absurd (cons_prefix_cons.mp (cons_prefix_cons.mp h).2).1 (by decide)
  · rintro ⟨post, rfl, hpost⟩
    rw [flatMap_cons, encodeWith_of_notMem (colon_notMem htodo), singleton_append,
      cons_prefix_cons, name_prefix_iff htodo hentry]
    exact ⟨rfl, post, rfl, hpost⟩

/-- An occurrence of a code that is not from the operator itself is a clash. -/
theorem crosses_iff_clash (htodo : entry :: rest <:+ operCodes) :
    Crosses entry.code (encodeWith (entry :: rest)) entry.oper s ↔ Clash entry rest s := by
  have hentry : entry ∈ operCodes := htodo.subset mem_cons_self
  constructor
  · rintro ⟨s₁, c, s₂, v, rfl, hc, hv, hne, hocc⟩
    rw [encodeWith_cons hc] at hv
    rcases encodeWith_cases rest c with ⟨-, heq⟩ | ⟨other, hother, hrest, heq⟩
    · rw [heq, suffix_cons_iff, suffix_nil, or_iff_left hne] at hv
      subst hv
      obtain ⟨rfl, hname⟩ := cons_prefix_cons.mp hocc
      obtain ⟨post, rfl, hpost⟩ := (colon_name_prefix_iff htodo hentry).mp hname
      refine ⟨s₁ ++ [':', ':'], post, by simp, ?_, hpost⟩
      rw [reverse_append]
      exact .inr ⟨rfl, by simp⟩
    · rw [heq] at hv
      rcases overlap_of_suffix (rest_differs htodo hother).2.2 hv hne hocc with
        ⟨-, hocc⟩ | ⟨-, hocc⟩
      · obtain ⟨post, rfl, hpost⟩ := (name_prefix_iff htodo hentry).mp hocc
        refine ⟨s₁ ++ [c], post, by simp, ?_, hpost⟩
        rw [reverse_append]
        exact .inl hrest
      · obtain ⟨post, rfl, hpost⟩ := (colon_name_prefix_iff htodo hentry).mp hocc
        refine ⟨s₁ ++ [c, ':'], post, by simp, ?_, hpost⟩
        rw [reverse_append]
        exact .inr ⟨rfl, by simp [hrest]⟩
  · rintro ⟨pre, post, rfl, hpre, hpost⟩
    have hnotMem := oper_notMem_rest htodo
    rw [← reverse_reverse pre]
    cases hreverse : pre.reverse with
    | nil =>
      rw [hreverse] at hpre
      exact hpre.elim
    | cons c l =>
      rw [hreverse] at hpre
      rcases hpre with hc | ⟨rfl, hd⟩
      · have hne : c ≠ entry.oper := fun h => hnotMem (h ▸ hc)
        obtain ⟨other, -, -, heq⟩ := exists_encodeWith hc
        refine ⟨l.reverse, c, entry.name ++ post, [':', ':'], by simp, hne, ?_,
          cons_ne_nil _ _, ?_⟩
        · rw [encodeWith_cons hne, heq]
          exact suffix_append _ _
        · rw [code, append_assoc, prefix_append_right_inj]
          exact (name_prefix_iff htodo hentry).mpr ⟨post, rfl, hpost⟩
      · cases l with
        | nil => simp at hd
        | cons d l =>
          rw [head?_cons, Option.any_some, decide_eq_true_iff] at hd
          have hsuffix : d ≠ entry.oper ∧ [':'] <:+ encodeWith (entry :: rest) d := by
            rcases hd with rfl | hd
            · have hcolon := colon_notMem htodo
              rw [encodeWith_of_notMem hcolon]
              exact ⟨fun h => hcolon (h ▸ mem_cons_self), suffix_rfl⟩
            · have hne : d ≠ entry.oper := fun h => hnotMem (h ▸ hd)
              obtain ⟨other, -, -, heq⟩ := exists_encodeWith hd
              rw [encodeWith_cons hne, heq]
              exact ⟨hne, suffix_append (([':', ':'] ++ other.name) ++ [':']) _⟩
          refine ⟨l.reverse, d, ':' :: (entry.name ++ post), [':'], by simp, hsuffix.1, hsuffix.2,
            cons_ne_nil _ _, ?_⟩
          exact cons_prefix_cons.mpr
            ⟨rfl, (colon_name_prefix_iff htodo hentry).mpr ⟨post, rfl, hpost⟩⟩

def decodeEntry (entry : OperCode) : List Char × List Char := (entry.code, [entry.oper])

theorem processReplaceAll_cons (s : List Char) (entry : OperCode) (rest : List OperCode) :
    processReplaceAll s ((entry :: rest).map decodeEntry) =
      processReplaceAll (replaceAll entry.code [entry.oper] s) (rest.map decodeEntry) := rfl

theorem code_ne_nil (entry : OperCode) : entry.code ≠ [] := cons_ne_nil _ _

/-- The length that a character has when all operators are encoded. -/
def codeLength (c : Char) : ℕ := if c ∈ opers operCodes then 11 else 1

theorem sum_codeLength_code : ∀ entry ∈ operCodes,
    (entry.code.map codeLength).sum = codeLength entry.oper := by
  decide

theorem sum_codeLength_encodeWith (htodo : todo <:+ operCodes) (c : Char) :
    ((encodeWith todo c).map codeLength).sum = codeLength c := by
  by_cases hc : c ∈ opers todo
  · obtain ⟨entry, hentry, rfl, heq⟩ := exists_encodeWith hc
    rw [heq, sum_codeLength_code entry (htodo.subset hentry)]
  · rw [encodeWith_of_notMem hc, map_singleton, sum_singleton]

theorem sum_codeLength_flatMap (htodo : todo <:+ operCodes) (s : List Char) :
    ((s.flatMap (encodeWith todo)).map codeLength).sum = (s.map codeLength).sum := by
  induction s with
  | nil => rfl
  | cons c s ih =>
    rw [flatMap_cons, map_append, sum_append, sum_codeLength_encodeWith htodo, ih,
      map_cons, sum_cons]

theorem sum_codeLength_processReplaceAll (htodo : todo <:+ operCodes) (s : List Char) :
    ((processReplaceAll s (todo.map decodeEntry)).map codeLength).sum = (s.map codeLength).sum := by
  induction todo generalizing s with
  | nil => rfl
  | cons entry rest ih =>
    rw [processReplaceAll_cons, ih (rest_suffix htodo)]
    apply sum_map_replaceAll _ (code_ne_nil entry)
    rw [sum_codeLength_code entry (htodo.subset mem_cons_self), map_singleton, sum_singleton]

theorem eq_nil_of_sum_codeLength {l : List Char} (h : (l.map codeLength).sum = 0) : l = [] := by
  cases l with
  | nil => rfl
  | cons c l =>
    rw [map_cons, sum_cons, codeLength] at h
    split at h <;> omega

/-- An operator that no longer has a code separates the text. -/
theorem processReplaceAll_append_cons (htodo : todo <:+ operCodes) (hentry : entry ∈ operCodes)
    (s t : List Char) : processReplaceAll (s ++ entry.oper :: t) (todo.map decodeEntry) =
      processReplaceAll s (todo.map decodeEntry) ++
        entry.oper :: processReplaceAll t (todo.map decodeEntry) := by
  induction todo generalizing s t with
  | nil => rfl
  | cons other rest ih =>
    have hother := (oper_notMem_code other (htodo.subset mem_cons_self) entry hentry).1
    rw [processReplaceAll_cons, replaceAll_append_cons _ (code_ne_nil other) hother,
      ih (rest_suffix htodo)]
    rfl

/-- A pass turns the code of its operator into it, and leaves what stands for other characters. -/
theorem encodeWith_pass (htodo : entry :: rest <:+ operCodes) :
    encodeWith rest entry.oper = [entry.oper] ∧
      encodeWith (entry :: rest) entry.oper = entry.code ∧
      encodeWith (entry :: rest) entry.oper ≠ [] ∧
      ∀ c, c ≠ entry.oper → encodeWith rest c = encodeWith (entry :: rest) c := by
  have hcode : encodeWith (entry :: rest) entry.oper = entry.code := encodeWith_cons_self
  exact ⟨encodeWith_of_notMem (oper_notMem_rest htodo), hcode, hcode ▸ code_ne_nil entry,
    fun c hc => (encodeWith_cons hc).symm⟩

/-- The operator of a clash comes at a place where the text has another character, and no later
entry moves it. -/
theorem processReplaceAll_ne_of_clash (htodo : entry :: rest <:+ operCodes)
    (hclash : Clash entry rest s) : processReplaceAll (s.flatMap (encodeWith (entry :: rest)))
      ((entry :: rest).map decodeEntry) ≠ s := by
  have hentry : entry ∈ operCodes := htodo.subset mem_cons_self
  have hrest := rest_suffix htodo
  obtain ⟨hself, hcode, hne, hother⟩ := encodeWith_pass htodo
  have hcrosses : Crosses (encodeWith (entry :: rest) entry.oper) (encodeWith (entry :: rest))
      entry.oper s := by
    rw [hcode]
    exact (crosses_iff_clash htodo).mpr hclash
  obtain ⟨s₁, c, s₂, r, t, rfl, hc, hr, hr', heq⟩ :=
    exists_replaceAll_flatMap hne hother hcrosses
  rw [hcode, hself, append_assoc, singleton_append] at heq
  rw [processReplaceAll_cons, heq, processReplaceAll_append_cons hrest hentry]
  intro hfinal
  rw [encodeWith_cons hc] at hr hr'
  obtain ⟨r', hsplit⟩ := hr
  have hbefore := sum_codeLength_processReplaceAll hrest (s₁.flatMap (encodeWith rest) ++ r)
  rw [map_append, sum_append, sum_codeLength_flatMap hrest] at hbefore
  have hcut := sum_codeLength_encodeWith hrest c
  rw [← hsplit, map_append, sum_append] at hcut
  rcases append_eq_append_iff.mp hfinal with ⟨l, hs₁, hl⟩ | ⟨l, hs₁, hl⟩
  · -- the text before the operator is not shorter than what was before the clash
    have hlength := congrArg (fun l => (l.map codeLength).sum) hs₁
    rw [map_append, sum_append] at hlength
    rw [eq_nil_of_sum_codeLength (l := l) (by omega)] at hl
    exact hc (List.cons.inj hl).1.symm
  · -- nor does it have the other character
    rw [hs₁, map_append, sum_append] at hbefore
    cases l with
    | nil => exact hc (List.cons.inj hl).1
    | cons d l =>
      rw [← (List.cons.inj hl).1, map_cons, sum_cons] at hbefore
      apply hr'
      rw [← hsplit, eq_nil_of_sum_codeLength (l := r') (by omega), append_nil]

theorem processReplaceAll_encodeWith_iff (htodo : todo <:+ operCodes) :
    processReplaceAll (s.flatMap (encodeWith todo)) (todo.map decodeEntry) = s ↔
      NoClash todo s := by
  induction todo with
  | nil => exact iff_of_true (flatMap_singleton' s) trivial
  | cons entry rest ih =>
    by_cases hclash : Clash entry rest s
    · exact iff_of_false (processReplaceAll_ne_of_clash htodo hclash) fun h => h.1 hclash
    · obtain ⟨hself, hcode, hne, hother⟩ := encodeWith_pass htodo
      have hclear : ¬Crosses (encodeWith (entry :: rest) entry.oper)
          (encodeWith (entry :: rest)) entry.oper s := by
        rw [hcode]
        exact fun h => hclash ((crosses_iff_clash htodo).mp h)
      have hpass := replaceAll_flatMap hne hother hclear
      rw [hcode, hself] at hpass
      rw [NoClash, and_iff_right hclash, ← ih (rest_suffix htodo), processReplaceAll_cons, hpass]

/-- Escaping comes back to the text and leaves no operator in between. -/
def RoundTrips (s : List Char) : Prop :=
  recoverEscapeOperator (processEscapeOperator (addEscapeCharToOperator s)) = s ∧
    (∀ c ∈ processEscapeOperator (addEscapeCharToOperator s), c ∉ operUStr ∧ c ≠ '\\') ∧
    removeEscapeChar (addEscapeCharToOperator s) = s

theorem roundTrips_iff_noClash (s : List Char) : RoundTrips s ↔ NoClash operCodes s := by
  have hrecovered : recoverEscapeOperator (processEscapeOperator (addEscapeCharToOperator s)) = s ↔
      NoClash operCodes s := by
    rw [processEscapeOperator_addEscapeCharToOperator]
    exact processReplaceAll_encodeWith_iff suffix_rfl
  have hplain : ∀ c ∈ processEscapeOperator (addEscapeCharToOperator s),
      c ∉ operUStr ∧ c ≠ '\\' := by
    intro c hc
    rw [processEscapeOperator_addEscapeCharToOperator] at hc
    simpa [escOperUStr] using notMem_escOperUStr_of_mem hc
  rw [RoundTrips, hrecovered]
  exact and_iff_left ⟨hplain, removeEscapeChar_addEscapeCharToOperator s⟩

/-- The colons of the second ampersand complete a code. -/
theorem not_roundTrips_colons : (∀ entry ∈ operDecodeDic, ¬entry.1 <:+: "::$OP_AN$&".toList) ∧
      ¬RoundTrips "::$OP_AN$&".toList := by
  refine ⟨by decide, fun h => ?_⟩
  exact absurd h.1 (by decide)

end AdDelivery.QueryManager
