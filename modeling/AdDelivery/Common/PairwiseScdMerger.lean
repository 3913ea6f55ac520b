import AdDelivery.Core.Table

/-!
# Merging SCD files

The merger folds the records of a DOCID into one value of its cache: first it enters the DOCIDs
of the new records, then it merges the existing records into them, then the new ones. Existing
records of other DOCIDs are written as they are. The work is done in `m` passes, each for the
DOCIDs of one remainder. Without existing files the new records are written as they are.
-/

namespace AdDelivery.Common

abbrev Bytes := List UInt8

/-- A document maps the names of its properties to their values. -/
abbrev Document := Table String Bytes

inductive ScdType
  | insert
  | update
  | rtype
  | delete
  deriving DecidableEq

/-- A value has no type before the first record is merged into it. -/
structure ValueType where
  doc : Document := ∅
  type : Option ScdType := none

/-- A file of records of one type. -/
structure ScdFile where
  type : ScdType
  docs : List Document

/-- The records of files, in the order in which they are read. -/
def records (scdList : List ScdFile) : List ValueType :=
  scdList.flatMap fun scdFile => scdFile.docs.map fun doc => ⟨doc, some scdFile.type⟩

inductive Status
  | old
  | exist
  | replace
  | new
  deriving DecidableEq

abbrev CacheType := Table ℕ ValueType

/-- The surroundings of the merger: how a DOCID becomes a number, and the order in which the hash
map of the cache is read. -/
structure PairwiseScdMerger where
  md5ToUint128 : Bytes → ℕ
  entries : CacheType → List (ℕ × ValueType)
  nodup_entries : ∀ cache, ((entries cache).map Prod.fst).Nodup
  mem_entries : ∀ cache id value, (id, value) ∈ entries cache ↔ cache.lookup id = some value

/-- What a run changes. -/
structure MergeState where
  cache : CacheType := ∅
  outputs : List (ValueType × Status) := []

/-- `copyPropertiesFromDocument` with overriding: a property of the other document wins, all
others stay. As documents are finite maps, this determines the copy. -/
def copyProperties (doc other : Document) : Document := other ∪ doc

def defaultMerge (value anotherValue : ValueType) : ValueType :=
  match anotherValue.type with
  | some .delete =>
    { doc := copyProperties value.doc anotherValue.doc
      type := anotherValue.type }
  | some .update | some .rtype =>
    { doc := copyProperties value.doc anotherValue.doc
      type := if value.type ≠ some .insert then anotherValue.type else value.type }
  | some .insert => anotherValue
  | none => value

/-- The text of the DOCID, which is empty if there is none. -/
def docid (doc : Document) : Bytes := (doc.lookup "DOCID").getD []

namespace PairwiseScdMerger

variable (merger : PairwiseScdMerger)

/-- The number of a DOCID. -/
def genId (docid : Bytes) : ℕ := if docid = [] then 0 else merger.md5ToUint128 docid

def getDocId (doc : Document) : ℕ := merger.genId (docid doc)

def validM (m index : ℕ) (value : ValueType) : Bool := merger.getDocId value.doc % m == index

variable (state : MergeState) (value : ValueType)

def output (status : Status) : MergeState :=
  { state with outputs := state.outputs ++ [(value, status)] }

def preprocess : MergeState :=
  { state with cache := state.cache.insert (merger.getDocId value.doc) {} }

def processE : MergeState :=
  match state.cache.lookup (merger.getDocId value.doc) with
  | none => output state value .exist
  | some cached =>
    let state := output state value .old
    { state with
      cache := state.cache.insert (merger.getDocId value.doc) (defaultMerge cached value) }

def process : MergeState :=
  match state.cache.lookup (merger.getDocId value.doc) with
  | none => output state value .new
  | some cached =>
    { state with
      cache := state.cache.insert (merger.getDocId value.doc) (defaultMerge cached value) }

def mEnd : MergeState :=
  { cache := ∅
    outputs := state.outputs ++ (merger.entries state.cache).map fun entry => (entry.2, .replace) }

/-- The pass for one remainder. -/
def pass (eScdList scdList : List ScdFile) (m : ℕ) (state : MergeState) (index : ℕ) : MergeState :=
  let existing := (records eScdList).filter (merger.validM m index)
  let new := (records scdList).filter (merger.validM m index)
  let state := if eScdList ≠ [] then new.foldl merger.preprocess state else state
  merger.mEnd (new.foldl merger.process (existing.foldl merger.processE state))

/-- The number of passes by the number of records. -/
def genM (scdList : List ScdFile) : ℕ := (records scdList).length / 1200000 + 1

def run (eScdList scdList : List ScdFile) (m : ℕ) : List (ValueType × Status) :=
  if scdList = [] then []
  else
    let m := if m = 0 then genM scdList else m
    ((List.range m).foldl (merger.pass eScdList scdList m) {}).outputs

end PairwiseScdMerger

/-- What is written. -/
def written (outputs : List (ValueType × Status)) : List ValueType :=
  (outputs.filter fun output => output.2 != .old).map Prod.fst

end AdDelivery.Common
