import AdDelivery.AttrManager.AttrTable

/-!
# Counting documents for attributes

A counter adds a document either to the counts of all its attribute names and values, or to
those of one name alone. A name is counted once for each document. A counter may have a limit
on the number of its calls, after which it ignores them.
-/

namespace AdDelivery.AttrManager

open List Table

variable {UString : Type} [Inhabited UString]

namespace AttrTable

def getValueIdList (table : AttrTable UString) (doc : BitVec 32) : List ℕ :=
  (table.valueIdTable.getIdList doc).toList.map BitVec.toNat

/-- The name that a value belongs to. The ids of documents are ids of the table. -/
def nameOf (table : AttrTable UString) (vId : ℕ) : ℕ := (table.valueId2NameId vId).getD 0

/-- Some value of the document belongs to the name. -/
def hasName (table : AttrTable UString) (n : ℕ) (doc : BitVec 32) : Bool :=
  (table.getValueIdList doc).any fun vId => decide (table.nameOf vId = n)

end AttrTable

/-- A selected attribute name with some of its values. -/
structure AttrLabel (UString : Type) [Inhabited UString] where
  attrTable : AttrTable UString
  attrNameId : ℕ
  targetValueIds : List ℕ

namespace AttrLabel

def create [DecidableEq UString] (attrTable : AttrTable UString) (attrName : UString)
    (attrValues : List UString) : AttrLabel UString :=
  let attrNameId := attrTable.nameId attrName
  { attrTable, attrNameId, targetValueIds := attrValues.map (attrTable.valueId attrNameId) }

def test (label : AttrLabel UString) (doc : BitVec 32) : Bool :=
  (label.attrTable.getValueIdList doc).any fun vId => decide (vId ∈ label.targetValueIds)

end AttrLabel

/-- `maxIterCount` is 0 for a counter without a limit. -/
structure AttrCounter (UString : Type) [Inhabited UString] where
  attrTable : AttrTable UString
  maxIterCount : ℤ := 0
  iterCount : ℤ := 0
  nameDocCountTable : Table ℕ ℤ := ∅
  valueDocCountTable : Table ℕ ℤ := ∅

namespace AttrCounter

/-- The beginning of a call, which ends here when the limit is reached. -/
def iterate (counter : AttrCounter UString) : Option (AttrCounter UString) :=
  if counter.maxIterCount = 0 then some counter
  else if counter.maxIterCount ≤ counter.iterCount then none
  else some { counter with iterCount := counter.iterCount + 1 }

def addValue (counter : AttrCounter UString) (vId : ℕ) : AttrCounter UString :=
  { counter with valueDocCountTable := update counter.valueDocCountTable vId (· + 1) }

def addName (counter : AttrCounter UString) (nameId : ℕ) : AttrCounter UString :=
  { counter with nameDocCountTable := update counter.nameDocCountTable nameId (· + 1) }

/-- The loop over the values of a document. The set holds the names that have been counted. -/
def addValues (counter : AttrCounter UString) (nameIdSet : Finset ℕ) : List ℕ → AttrCounter UString
  | [] => counter
  | vId :: valueIdList =>
    let nameId := counter.attrTable.nameOf vId
    if nameId ∈ nameIdSet then (counter.addValue vId).addValues nameIdSet valueIdList
    else ((counter.addValue vId).addName nameId).addValues (insert nameId nameIdSet) valueIdList

def addDoc (counter : AttrCounter UString) (doc : BitVec 32) : AttrCounter UString :=
  match counter.iterate with
  | none => counter
  | some counter => counter.addValues ∅ (counter.attrTable.getValueIdList doc)

/-- The loop over the values of a document for one name. -/
def addAttrValues (nId : ℕ) (counter : AttrCounter UString) (findNameId : Bool) :
    List ℕ → AttrCounter UString × Bool
  | [] => (counter, findNameId)
  | vId :: valueIdList =>
    if counter.attrTable.nameOf vId = nId then
      addAttrValues nId (counter.addValue vId) true valueIdList
    else addAttrValues nId counter findNameId valueIdList

def addAttrDoc (counter : AttrCounter UString) (nId : ℕ) (doc : BitVec 32) : AttrCounter UString :=
  match counter.iterate with
  | none => counter
  | some counter =>
    let counted := addAttrValues nId counter false (counter.attrTable.getValueIdList doc)
    if counted.2 then counted.1.addName nId else counted.1

/-- A call counts a document for all names or for one. -/
def call (counter : AttrCounter UString) (nId? : Option ℕ) (doc : BitVec 32) :
    AttrCounter UString :=
  match nId? with
  | none => counter.addDoc doc
  | some nId => counter.addAttrDoc nId doc

def nameCount (counter : AttrCounter UString) (nameId : ℕ) : ℤ :=
  get counter.nameDocCountTable nameId

def valueCount (counter : AttrCounter UString) (vId : ℕ) : ℤ :=
  get counter.valueDocCountTable vId

/-- What a loop over values does not touch. -/
structure SameCalls (counter counter' : AttrCounter UString) : Prop where
  attrTable : counter'.attrTable = counter.attrTable
  maxIterCount : counter'.maxIterCount = counter.maxIterCount
  iterCount : counter'.iterCount = counter.iterCount

theorem SameCalls.trans {a b c : AttrCounter UString} (h : SameCalls a b) (h' : SameCalls b c) :
    SameCalls a c :=
  ⟨h'.attrTable.trans h.attrTable, h'.maxIterCount.trans h.maxIterCount,
    h'.iterCount.trans h.iterCount⟩

variable (counter : AttrCounter UString)

theorem sameCalls_addValue (vId : ℕ) : SameCalls counter (counter.addValue vId) := ⟨rfl, rfl, rfl⟩

theorem sameCalls_addName (nameId : ℕ) :
    SameCalls counter (counter.addName nameId) := ⟨rfl, rfl, rfl⟩

theorem nameCount_addValue (vId nameId : ℕ) :
    (counter.addValue vId).nameCount nameId = counter.nameCount nameId := rfl

@[simp] theorem valueCount_addName (nameId vId : ℕ) :
    (counter.addName nameId).valueCount vId = counter.valueCount vId := rfl

theorem nameCount_addName (nameId n : ℕ) : (counter.addName nameId).nameCount n =
      counter.nameCount n + if n = nameId then 1 else 0 := by
  rw [nameCount, addName, get_update]
  split
  · rfl
  · exact (add_zero _).symm

theorem valueCount_addValue (vId v : ℕ) : (counter.addValue vId).valueCount v =
      counter.valueCount v + if v = vId then 1 else 0 := by
  rw [valueCount, addValue, get_update]
  split
  · rfl
  · exact (add_zero _).symm

theorem natCast_count_cons (vId : ℕ) (valueIdList : List ℕ) (v : ℕ) :
    ((vId :: valueIdList).count v : ℤ) = (if v = vId then 1 else 0) + valueIdList.count v := by
  rw [count_cons, add_comm]
  by_cases hv : v = vId
  · simp [hv]
  · simp [hv, Ne.symm hv]

theorem addValues_spec (nameIdSet : Finset ℕ) (valueIdList : List ℕ) :
    SameCalls counter (counter.addValues nameIdSet valueIdList) ∧
      (∀ n, (counter.addValues nameIdSet valueIdList).nameCount n = counter.nameCount n +
        if n ∉ nameIdSet ∧ ∃ vId ∈ valueIdList, counter.attrTable.nameOf vId = n then 1 else 0) ∧
      ∀ v, (counter.addValues nameIdSet valueIdList).valueCount v =
        counter.valueCount v + valueIdList.count v := by
  induction valueIdList generalizing counter nameIdSet with
  | nil =>
    refine ⟨⟨rfl, rfl, rfl⟩, fun n => ?_, fun v => ?_⟩
    · rw [if_neg (by simp)]
      exact (add_zero _).symm
    · exact (add_zero _).symm
  | cons vId valueIdList ih =>
    rw [addValues]
    split
    · -- the name of this value has been counted
      rename_i hmem
      obtain ⟨hcalls, hnames, hvalues⟩ := ih (counter.addValue vId) nameIdSet
      refine ⟨(sameCalls_addValue counter vId).trans hcalls, fun n => ?_, fun v => ?_⟩
      · rw [hnames, nameCount_addValue]
        congr 1
        refine if_congr (and_congr_right fun hn => ?_) rfl rfl
        have hne : counter.attrTable.nameOf vId ≠ n := by
          rintro rfl
          exact hn hmem
        simp only [mem_cons, exists_eq_or_imp, hne, false_or]
        rfl
      · rw [hvalues, valueCount_addValue, natCast_count_cons, add_assoc]
    · rename_i hmem
      obtain ⟨hcalls, hnames, hvalues⟩ :=
        ih ((counter.addValue vId).addName (counter.attrTable.nameOf vId))
          (insert (counter.attrTable.nameOf vId) nameIdSet)
      refine ⟨(sameCalls_addValue counter vId).trans ((sameCalls_addName _ _).trans hcalls),
        fun n => ?_, fun v => ?_⟩
      · rw [hnames, nameCount_addName, nameCount_addValue, add_assoc]
        by_cases hn : n = counter.attrTable.nameOf vId
        · subst hn
          simp [hmem]
        · simp only [Finset.mem_insert, hn, false_or, mem_cons, exists_eq_or_imp,
            Ne.symm hn, if_false, zero_add]
          rfl
      · rw [hvalues, valueCount_addName, valueCount_addValue, natCast_count_cons, add_assoc]

theorem addAttrValues_spec (nId : ℕ) (counter : AttrCounter UString) (findNameId : Bool)
    (valueIdList : List ℕ) :
    SameCalls counter (addAttrValues nId counter findNameId valueIdList).1 ∧
      (∀ n, (addAttrValues nId counter findNameId valueIdList).1.nameCount n =
        counter.nameCount n) ∧
      (∀ v, (addAttrValues nId counter findNameId valueIdList).1.valueCount v =
        counter.valueCount v +
          if counter.attrTable.nameOf v = nId then (valueIdList.count v : ℤ) else 0) ∧
      (addAttrValues nId counter findNameId valueIdList).2 =
        (findNameId || valueIdList.any fun vId => decide (counter.attrTable.nameOf vId = nId)) := by
  induction valueIdList generalizing counter findNameId with
  | nil =>
    refine ⟨⟨rfl, rfl, rfl⟩, fun n => rfl, fun v => ?_, (Bool.or_false _).symm⟩
    rw [count_nil, Nat.cast_zero, ite_self]
    exact (add_zero _).symm
  | cons vId valueIdList ih =>
    rw [addAttrValues]
    split
    · rename_i hname
      obtain ⟨hcalls, hnames, hvalues, hfind⟩ := ih (counter.addValue vId) true
      refine ⟨(sameCalls_addValue counter vId).trans hcalls, hnames, fun v => ?_, ?_⟩
      · rw [hvalues, valueCount_addValue, natCast_count_cons, add_assoc]
        congr 1
        change _ + (if counter.attrTable.nameOf v = nId then _ else _) = _
        by_cases hv : v = vId
        · subst hv
          rw [if_pos hname, if_pos hname]
        · rw [if_neg hv, zero_add, zero_add]
      · rw [hfind, any_cons, decide_eq_true hname]
        simp
    · rename_i hname
      obtain ⟨hcalls, hnames, hvalues, hfind⟩ := ih counter findNameId
      refine ⟨hcalls, hnames, fun v => ?_, ?_⟩
      · rw [hvalues, natCast_count_cons]
        by_cases hv : v = vId
        · subst hv
          rw [if_neg hname, if_neg hname]
        · rw [if_neg hv, zero_add]
      · rw [hfind, any_cons, decide_eq_false hname, Bool.false_or]

/-- Whether a call counts a document for a name. -/
def reaches (nId? : Option ℕ) (n : ℕ) : Bool := nId?.all fun nId => decide (nId = n)

theorem call_of_iterate_eq_none {counter : AttrCounter UString} (h : counter.iterate = none)
    (nId? : Option ℕ) (doc : BitVec 32) : counter.call nId? doc = counter := by
  cases nId? with
  | none => rw [call, addDoc, h]
  | some nId => rw [call, addAttrDoc, h]

theorem reaches_some_iff {nId n : ℕ} : reaches (some nId) n = true ↔ n = nId := by
  rw [reaches, Option.all_some, decide_eq_true_iff, eq_comm]

theorem call_of_iterate {counter counted : AttrCounter UString}
    (h : counter.iterate = some counted) (nId? : Option ℕ) (doc : BitVec 32) :
    SameCalls counted (counter.call nId? doc) ∧
      (∀ n, (counter.call nId? doc).nameCount n = counted.nameCount n +
        if reaches nId? n && counted.attrTable.hasName n doc then 1 else 0) ∧
      ∀ v, (counter.call nId? doc).valueCount v = counted.valueCount v +
        if reaches nId? (counted.attrTable.nameOf v) then
          ((counted.attrTable.getValueIdList doc).count v : ℤ) else 0 := by
  cases nId? with
  | none =>
    obtain ⟨hcalls, hnames, hvalues⟩ :=
      addValues_spec counted ∅ (counted.attrTable.getValueIdList doc)
    rw [call, addDoc, h]
    refine ⟨hcalls, fun n => ?_, hvalues⟩
    rw [hnames]
    simp [reaches, AttrTable.hasName]
  | some nId =>
    obtain ⟨hcalls, hnames, hvalues, hfind⟩ :=
      addAttrValues_spec nId counted false (counted.attrTable.getValueIdList doc)
    rw [Bool.false_or] at hfind
    rw [call, addAttrDoc, h]
    simp only [hfind]
    split
    · rename_i hany
      refine ⟨hcalls.trans (sameCalls_addName _ _), fun n => ?_, fun v => ?_⟩
      · rw [nameCount_addName, hnames]
        by_cases hn : n = nId
        · subst hn
          simp [reaches, AttrTable.hasName, hany]
        · simp [reaches, hn, Ne.symm hn]
      · rw [valueCount_addName, hvalues]
        congr 1
        exact if_congr reaches_some_iff.symm rfl rfl
    · rename_i hany
      refine ⟨hcalls, fun n => ?_, fun v => ?_⟩
      · rw [hnames]
        by_cases hn : nId = n
        · subst hn
          simp [reaches, AttrTable.hasName, hany]
        · simp [reaches, hn]
      · rw [hvalues]
        congr 1
        exact if_congr reaches_some_iff.symm rfl rfl

/-- The calls that a counter still takes. -/
def taken {α : Type*} (counter : AttrCounter UString) (calls : List α) : List α :=
  if counter.maxIterCount = 0 then calls
  else calls.take (counter.maxIterCount - counter.iterCount).toNat

variable {α : Type*}

/-- A counter at its limit takes no calls. -/
theorem taken_cons_of_iterate_eq_none {counter : AttrCounter UString} (h : counter.iterate = none)
    (c : α) (calls : List α) : counter.taken (c :: calls) = counter.taken calls := by
  have hlimit : counter.maxIterCount ≠ 0 ∧ counter.maxIterCount ≤ counter.iterCount := by
    unfold iterate at h
    split at h
    · cases h
    · split at h
      · exact ⟨‹_›, ‹_›⟩
      · cases h
  rw [taken, taken, if_neg hlimit.1, if_neg hlimit.1, Int.toNat_of_nonpos (by omega),
    take_zero, take_zero]

theorem taken_cons_of_iterate {counter counted : AttrCounter UString}
    (h : counter.iterate = some counted) (c : α) (calls : List α) :
    counter.taken (c :: calls) = c :: counted.taken calls := by
  unfold iterate at h
  split at h
  · obtain rfl := Option.some.inj h
    rename_i hzero
    rw [taken, taken, if_pos hzero, if_pos hzero]
  · split at h
    · cases h
    · rename_i hzero hlt
      obtain rfl := Option.some.inj h
      have hsucc : (counter.maxIterCount - counter.iterCount).toNat =
          (counter.maxIterCount - (counter.iterCount + 1)).toNat + 1 := by omega
      rw [taken, taken, if_neg hzero, if_neg hzero, hsucc, take_succ_cons]

theorem counts_of_iterate {counter counted : AttrCounter UString}
    (h : counter.iterate = some counted) :
    counted.attrTable = counter.attrTable ∧ (∀ n, counted.nameCount n = counter.nameCount n) ∧
      ∀ v, counted.valueCount v = counter.valueCount v := by
  unfold iterate at h
  split at h
  · obtain rfl := Option.some.inj h
    exact ⟨rfl, fun _ => rfl, fun _ => rfl⟩
  · split at h
    · cases h
    · obtain rfl := Option.some.inj h
      exact ⟨rfl, fun _ => rfl, fun _ => rfl⟩

theorem foldl_call (calls : List (Option ℕ × BitVec 32)) :
    (∀ n, (calls.foldl (fun counter c => counter.call c.1 c.2) counter).nameCount n =
      counter.nameCount n +
        (counter.taken calls).countP fun c => reaches c.1 n && counter.attrTable.hasName n c.2) ∧
      ∀ v, (calls.foldl (fun counter c => counter.call c.1 c.2) counter).valueCount v =
        counter.valueCount v + ((counter.taken calls).map fun c =>
          if reaches c.1 (counter.attrTable.nameOf v) then
            ((counter.attrTable.getValueIdList c.2).count v : ℤ) else 0).sum := by
  induction calls generalizing counter with
  | nil =>
    have hnil : counter.taken ([] : List (Option ℕ × BitVec 32)) = [] := by
      rw [taken, take_nil, ite_self]
    simp [hnil]
  | cons c calls ih =>
    rw [foldl_cons]
    cases hiterate : counter.iterate with
    | none =>
      -- the limit is reached, and stays so
      rw [call_of_iterate_eq_none hiterate, taken_cons_of_iterate_eq_none hiterate]
      exact ih counter
    | some counted =>
      obtain ⟨hcalls, hnames, hvalues⟩ := call_of_iterate hiterate c.1 c.2
      obtain ⟨htable, hname, hvalue⟩ := counts_of_iterate hiterate
      have hnext : (counter.call c.1 c.2).taken calls = counted.taken calls := by
        rw [taken, taken, hcalls.maxIterCount, hcalls.iterCount]
      obtain ⟨ihnames, ihvalues⟩ := ih (counter.call c.1 c.2)
      rw [hcalls.attrTable, hnext] at ihnames ihvalues
      rw [taken_cons_of_iterate hiterate]
      refine ⟨fun n => ?_, fun v => ?_⟩
      · rw [ihnames, hnames, htable, hname, countP_cons, add_assoc,
          add_comm (ite _ _ _)]
        split <;> rfl
      · rw [ihvalues, hvalues, htable, hvalue, map_cons, sum_cons, add_assoc]

/-- The counts of a name and its values are those of the documents. -/
structure Counted (table : AttrTable UString) (counter : AttrCounter UString) (n : ℕ)
    (docs : List (BitVec 32)) : Prop where
  name : counter.nameCount n = docs.countP (table.hasName n)
  values : ∀ v, table.nameOf v = n →
    counter.valueCount v = (docs.map fun doc => ((table.getValueIdList doc).count v : ℤ)).sum

theorem sum_map_filter (p : α → Bool) (f : α → ℤ) (l : List α) :
    ((l.filter p).map f).sum = (l.map fun a => if p a then f a else 0).sum := by
  rw [List.sum_map_ite]
  simp

theorem taken_map {α β : Type*} (f : α → β) (calls : List α) :
    counter.taken (calls.map f) = (counter.taken calls).map f := by
  rw [taken, taken]
  split
  · rfl
  · exact map_take.symm

/-- The counts of a new counter. -/
theorem counted_foldl_call (table : AttrTable UString) (maxIterCount : ℤ)
    (kind : BitVec 32 → Option ℕ) (docs : List (BitVec 32)) (n : ℕ) : Counted table
      ((docs.map fun doc => (kind doc, doc)).foldl (fun counter c => counter.call c.1 c.2)
        { attrTable := table, maxIterCount }) n
      ((({ attrTable := table, maxIterCount } : AttrCounter UString).taken docs).filter
        fun doc => reaches (kind doc) n) := by
  obtain ⟨hnames, hvalues⟩ := foldl_call { attrTable := table, maxIterCount }
    (docs.map fun doc => (kind doc, doc))
  have hname (n : ℕ) :
      ({ attrTable := table, maxIterCount } : AttrCounter UString).nameCount n = 0 :=
    get_empty n
  have hvalue (v : ℕ) :
      ({ attrTable := table, maxIterCount } : AttrCounter UString).valueCount v = 0 :=
    get_empty v
  constructor
  · rw [hnames, hname, zero_add, taken_map, countP_map, countP_filter]
    congr 2
    funext doc
    exact Bool.and_comm _ _
  · intro v hv
    rw [hvalues, hvalue, zero_add, taken_map, List.map_map, sum_map_filter]
    simp only [hv]
    rfl

end AttrCounter

end AdDelivery.AttrManager
