import AdDelivery.Core.Table
import AdDelivery.Core.TopK
import AdDelivery.GroupManager.GroupRep

/-!
# Merging attribute results

An attribute result is a list of two levels, each name with its values behind it. The results of
several workers are collected by name and by value in two maps. A bounded queue then picks the
names of greatest score, and the list of the receiver is overwritten from its beginning.
-/

namespace AdDelivery.GroupManager

variable {UString S : Type}

/-- Counts and scores are added, the rest is kept. -/
def OntologyRepItem.add [Add S] (old item : OntologyRepItem UString S) :
    OntologyRepItem UString S :=
  { old with docCount := old.docCount + item.docCount, score := old.score + item.score }

namespace OntologyRep

/-- The first list that is not empty becomes the list of the receiver, and empty ones are
dropped. -/
def takeFirst : List (OntologyRepItem UString S) → List (List (OntologyRepItem UString S)) →
    List (OntologyRepItem UString S) × List (List (OntologyRepItem UString S))
  | itemList, [] => (itemList, [])
  | itemList, [] :: others => takeFirst itemList others
  | [], other :: others => takeFirst other others
  | itemList, other :: others =>
    let rest := takeFirst itemList others
    (rest.1, other :: rest.2)

/-- The items up to the first name that is one too many. -/
def cutFrom (topGroupNum : ℕ) :
    ℕ → List (OntologyRepItem UString S) → List (OntologyRepItem UString S)
  | _, [] => []
  | groupNum, item :: items =>
    let groupNum := if item.level = 0 then groupNum + 1 else groupNum
    if topGroupNum < groupNum then [] else item :: cutFrom topGroupNum groupNum items

/-- The case of one result. -/
def cutTop (topGroupNum : ℕ) (itemList : List (OntologyRepItem UString S)) :
    List (OntologyRepItem UString S) :=
  if topGroupNum = 0 ∨ itemList.length ≤ topGroupNum then itemList
  else cutFrom topGroupNum 0 itemList

section Collect

variable [DecidableEq UString]

/-- The maps, the name at which the iterator into the second one stands, and whether this name
was new. -/
structure Collected (UString S : Type) where
  nameItemMap : Table UString (OntologyRepItem UString S) := ∅
  nvItemMap : Table UString (Table UString (OntologyRepItem UString S)) := ∅
  currentName : Option UString := none
  newName : Bool := false

namespace Collected

/-- Go to the values of a name, a new one having none. -/
def goTo (c : Collected UString S) (name : UString) : Collected UString S :=
  { c with
    nvItemMap :=
      match c.nvItemMap.lookup name with
      | some _ => c.nvItemMap
      | none => c.nvItemMap.insert name ∅
    currentName := some name }

/-- Change the values of the name. An iterator that stands nowhere cannot be used. -/
def withValues (c : Collected UString S)
    (f : Table UString (OntologyRepItem UString S) → Table UString (OntologyRepItem UString S)) :
    Option (Collected UString S) :=
  c.currentName.bind fun name => (c.nvItemMap.lookup name).map fun values =>
    { c with nvItemMap := c.nvItemMap.insert name (f values) }

/-- An item of the receiver. -/
def enterOwn (c : Collected UString S) (item : OntologyRepItem UString S) :
    Option (Collected UString S) :=
  if item.level = 0 then
    some (goTo { c with nameItemMap := c.nameItemMap.insert item.text item } item.text)
  else c.withValues fun values => values.insert item.text item

/-- An item of another result. -/
def enterOther [Add S] (c : Collected UString S) (item : OntologyRepItem UString S) :
    Option (Collected UString S) :=
  if item.level = 0 then
    match c.nameItemMap.lookup item.text with
    | none =>
      some (goTo { c with nameItemMap := c.nameItemMap.insert item.text item, newName := true }
        item.text)
    | some old =>
      some (goTo
        { c with nameItemMap := c.nameItemMap.insert item.text (old.add item), newName := false }
        item.text)
  else
    c.withValues fun values =>
      if c.newName then values.insert item.text item
      else
        match values.lookup item.text with
        | some old => values.insert item.text (old.add item)
        | none => values.insert item.text item

def enterOthers [Add S] (c : Collected UString S)
    (others : List (List (OntologyRepItem UString S))) : Option (Collected UString S) :=
  others.foldlM (fun c other => other.foldlM enterOther { c with newName := false }) c

end Collected

end Collect

/-- A bounded queue by score: the elements that it pops, the least first, once it has been given
some. -/
abbrev AttrNameScoreQueue (UString S : Type) := ℕ → List (UString × S) → List (UString × S)

/-- A queue keeps its largest elements and pops them in ascending order. -/
structure KeepsLargest [LinearOrder S] (queue : AttrNameScoreQueue UString S) : Prop where
  exists_rest : ∀ size names, ∃ rest, (queue size names ++ rest).Perm names ∧
    ∀ a ∈ queue size names, ∀ b ∈ rest, b.2 ≤ a.2
  length : ∀ size names, (queue size names).length = min size names.length
  ascending : ∀ size names, (queue size names).Pairwise fun a b => a.2 ≤ b.2

section Rebuild

variable [LinearOrder UString] [LinearOrder S] (queue : AttrNameScoreQueue UString S)

/-- The names that are kept, each as it is popped going in front of those before. -/
def topNames (topGroupNum : ℕ) (nameItemMap : Table UString (OntologyRepItem UString S)) :
    List UString :=
  let size := if topGroupNum = 0 then nameItemMap.inOrder.length else topGroupNum
  (queue size (nameItemMap.inOrder.map fun entry => (entry.2.text, entry.2.score))).reverse.map
    Prod.fst

/-- A multimap by score puts an item behind those of the same score. -/
def insertByScore (scoreItemMap : List (OntologyRepItem UString S))
    (item : OntologyRepItem UString S) : List (OntologyRepItem UString S) :=
  scoreItemMap.orderedInsert (fun a b => a.score < b.score) item

/-- The values in descending order. -/
def sortedValues (valueItemMap : Table UString (OntologyRepItem UString S)) :
    List (OntologyRepItem UString S) :=
  ((valueItemMap.inOrder.map Prod.snd).foldl insertByScore []).reverse

/-- A list that is overwritten: what stands before the iterator and what behind. -/
structure Rewrite (UString S : Type) where
  written : List (OntologyRepItem UString S)
  rest : List (OntologyRepItem UString S)

/-- Overwrite the next item, or insert one at the end. -/
def Rewrite.put (r : Rewrite UString S) (item : OntologyRepItem UString S) : Rewrite UString S where
  written := r.written ++ [item]
  rest := r.rest.tail

variable [Inhabited UString] [Zero S]

instance inhabitedOntologyRepItem : Inhabited (OntologyRepItem UString S) :=
  ⟨{ level := 0, text := default, id := 0, docCount := 0, score := 0 }⟩

def rebuild (topGroupNum : ℕ) (c : Collected UString S)
    (itemList : List (OntologyRepItem UString S)) : List (OntologyRepItem UString S) :=
  ((topNames queue topGroupNum c.nameItemMap).foldl (fun r name =>
      (sortedValues ((c.nvItemMap.lookup name).getD ∅)).foldl Rewrite.put
        (r.put ((c.nameItemMap.lookup name).getD default))) ⟨[], itemList⟩).written

def merge [Add S] (topGroupNum : ℕ) (itemList : List (OntologyRepItem UString S))
    (others : List (List (OntologyRepItem UString S))) :
    Option (List (OntologyRepItem UString S)) :=
  match takeFirst itemList others with
  | (itemList, []) => some (cutTop topGroupNum itemList)
  | (itemList, others) =>
    (itemList.foldlM Collected.enterOwn {}).bind fun c =>
      (c.enterOthers others).map fun c => rebuild queue topGroupNum c itemList

end Rebuild

end OntologyRep

end AdDelivery.GroupManager
