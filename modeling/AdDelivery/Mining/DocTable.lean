import AdDelivery.Core.AppendedFiles
import AdDelivery.Core.HashSlots

/-!
# The document table

The content of a document is a record of a log file: its length in two bytes, then its bytes. Hash
slots lead from a document to the address of its last record. Reads go to a buffer into which the
beginning of the file is loaded at the first of them, or to the file if a record is not within the
cache size. An update leaves the old record behind, so after so many of them the records still in
use are copied to a new file.

Whatever reads memory that has not been loaded is a fault, and so is a read of a file that finds
fewer bytes than it asks for, since it fails its `IASSERT`. What follows a fault is left open.
-/

namespace AdDelivery.Mining

open HashSlots

/-- `ID_ADRESS_PAIR`, which is compared by the document. -/
structure IdAdressPair where
  docid : ℕ
  addr : ℕ
deriving DecidableEq

/-- `ADRESS_ID_PAIR`, which is compared by the address. -/
structure AdressIdPair where
  addr : ℕ
  docid : ℕ
  index : ℕ := 2 ^ 32 - 1
deriving DecidableEq

inductive DocFault
  | readPastBuffer
  | readPastFile
  | nestedCompact
deriving DecidableEq

/-- The content of a document, whose length is a `uint16_t`. -/
structure DocContent where
  bytes : List UInt8
  length_lt : bytes.length < 2 ^ 16

/-- What the map file holds: the counter, and the slots with their indices. -/
structure SavedMap where
  updatedNum : ℕ
  slots : List (ℕ × List IdAdressPair)

/-- A table whose map file is `none` as long as nothing has been written to it. -/
structure DocTable where
  entry : HashSlots IdAdressPair := ∅
  buf : Option (List UInt8) := none
  file : List UInt8 := []
  mapFile : Option SavedMap := none
  updatedNum : ℕ := 0
  updatedBound : ℕ := 100000

/-- The lower two bytes of a length. -/
def writeLen (len : ℕ) : List UInt8 := [UInt8.ofNat len, UInt8.ofNat (len / 256)]

def readLen (bytes : List UInt8) : ℕ := (bytes.getD 0 0).toNat + 256 * (bytes.getD 1 0).toNat

/-- The bytes at a position, if they are all there. -/
def readAt (fault : DocFault) (bytes : List UInt8) (addr len : ℕ) : Except DocFault (List UInt8) :=
  if addr + len ≤ bytes.length then .ok (segment bytes addr len) else .error fault

namespace DocTable

/-- The number of slots, also where the source writes it out. -/
def entrySize : ℕ := 1000000

def slotOf (docid : ℕ) : ℕ := docid % entrySize

/-- Enter the address of a document. When it replaces another one that counts as an update, after
which the table may be compacted. -/
def mapAdd (compact : DocTable → Except DocFault DocTable) (unit : IdAdressPair) (t : DocTable) :
    Except DocFault DocTable :=
  let t' := { t with entry := put IdAdressPair.docid slotOf t.entry unit }
  if (HashSlots.find IdAdressPair.docid slotOf t.entry unit.docid).isSome then
    let t' := { t' with updatedNum := (t'.updatedNum + 1) % 2 ^ 32 }
    if t'.updatedBound ≤ t'.updatedNum then compact t' else .ok t'
  else .ok t'

def mapDel (docid : ℕ) (t : DocTable) : DocTable :=
  { t with entry := erase IdAdressPair.docid slotOf t.entry docid }

def getAddr (t : DocTable) (docid : ℕ) : Option ℕ :=
  (HashSlots.find IdAdressPair.docid slotOf t.entry docid).map IdAdressPair.addr

def saveMap (t : DocTable) : DocTable :=
  { t with mapFile := some ⟨t.updatedNum, t.entry.inOrder⟩ }

def loadMap (saved : SavedMap) (t : DocTable) : DocTable :=
  { t with
    updatedNum := saved.updatedNum
    entry := saved.slots.foldl (fun entry slot => Finmap.insert slot.1 slot.2 entry) t.entry }

/-- Copy one record. Only the lower half of the length is read from the file, the upper half is
`junk`. Both the read and the write of the content go by the whole of it. -/
def copyRecord (junk : UInt16) (state : DocTable × List UInt8) (unit : AdressIdPair) :
    Except DocFault (DocTable × List UInt8) := do
  let head ← readAt .readPastFile state.1.file unit.addr 2
  let len := junk.toNat * 2 ^ 16 + readLen head
  let content ← readAt .readPastFile state.1.file (unit.addr + 2) len
  let t ← mapAdd (fun _ => .error .nestedCompact) ⟨unit.docid, state.2.length⟩ state.1
  return (t, state.2 ++ writeLen len ++ content)

/-- The records in use, in the order of their addresses. -/
def addresses (t : DocTable) : List AdressIdPair :=
  ((entries t.entry).map fun unit => ⟨unit.addr, unit.docid, 2 ^ 32 - 1⟩).insertionSort
    fun unit unit' => unit.addr ≤ unit'.addr

def compact (junk : UInt16) (t : DocTable) : Except DocFault DocTable := do
  let t := saveMap { t with updatedNum := 0 }
  let (t', file) ← (addresses t).foldlM (copyRecord junk) ({ t with buf := none, entry := ∅ }, [])
  return saveMap { t' with file := file }

section Read

variable (cacheSize : ℕ)

/-- Load the beginning of the file, or all of it. -/
def initBuf (t : DocTable) : DocTable :=
  match t.buf with
  | some _ => t
  | none =>
    if cacheSize < t.file.length then { t with buf := some (t.file.take cacheSize) }
    else if 0 < t.file.length then { t with buf := some t.file }
    else t

/-- Read from the buffer, which may not have been loaded. -/
def readBuf (t : DocTable) (addr len : ℕ) : Except DocFault (List UInt8) :=
  match t.buf with
  | none => .error .readPastBuffer
  | some buf => readAt .readPastBuffer buf addr len

def readFile (t : DocTable) (addr : ℕ) : Except DocFault (ℕ × List UInt8) := do
  let head ← readAt .readPastFile t.file addr 2
  let content ← readAt .readPastFile t.file (addr + 2) (readLen head)
  return (readLen head, content)

/-- Read one record, from the buffer if it is within the cache size. -/
def readDoc (t : DocTable) (addr : ℕ) : Except DocFault (ℕ × List UInt8) := do
  if addr + 2 < cacheSize then
    let head ← t.readBuf addr 2
    if readLen head + addr + 2 ≤ cacheSize then
      let content ← t.readBuf (addr + 2) (readLen head)
      return (readLen head, content)
    else t.readFile addr
  else t.readFile addr

/-- `get_doc` of one document. -/
def getDoc (docid : ℕ) (t : DocTable) : Except DocFault (DocTable × ℕ × Option (List UInt8)) := do
  let t := t.initBuf cacheSize
  match t.getAddr docid with
  | none => return (t, 0, none)
  | some addr =>
    let (len, content) ← t.readDoc cacheSize addr
    return (t, len, some content)

/-- The addresses of the documents asked for, with their places in the request. -/
def located (t : DocTable) (docIdList : List ℕ) : List AdressIdPair :=
  (docIdList.zipIdx.filterMap fun entry =>
    (t.getAddr entry.1).map fun addr => ⟨addr, entry.1, entry.2⟩).insertionSort
      fun unit unit' => unit.addr ≤ unit'.addr

/-- `get_doc` of many documents: the records are read in the order of their addresses, then each
goes to its place. -/
def getDocs (docIdList : List ℕ) (t : DocTable) :
    Except DocFault (DocTable × List (Option (List UInt8)) × List ℕ) := do
  let t := t.initBuf cacheSize
  let array := t.located docIdList
  let read ← array.mapM fun unit => t.readDoc cacheSize unit.addr
  let places := array.zip read
  let contents := places.foldl (fun contents place => contents.set place.1.index (some place.2.2))
    (docIdList.map fun _ => none)
  let lens := places.foldl (fun lens place => lens.set place.1.index place.2.1)
    (docIdList.map fun _ => 0)
  return (t, contents, lens)

end Read

/-- `insert_doc`, with what is in the upper half of the length if the table is compacted. -/
def insertDoc (junk : UInt16) (docid : ℕ) (content : DocContent) (t : DocTable) :
    Except DocFault DocTable :=
  if content.bytes.length = 0 then .ok t
  else
    let a := t.file.length
    mapAdd (compact junk) ⟨docid, a⟩
      { t with file := t.file ++ writeLen content.bytes.length ++ content.bytes }

def deleteDoc (junk : UInt16) (docid : ℕ) (t : DocTable) : Except DocFault DocTable :=
  let t := t.mapDel docid
  let t := { t with updatedNum := (t.updatedNum + 1) % 2 ^ 32 }
  if t.updatedBound ≤ t.updatedNum then compact junk t else .ok t

def flush (t : DocTable) : DocTable := { t.saveMap with buf := none }

/-- The constructor, on the files that are there. -/
def openTable (file : List UInt8) (mapFile : Option SavedMap) : DocTable :=
  let t : DocTable := { file := file, mapFile := mapFile }
  match mapFile with
  | none => t
  | some saved => t.loadMap saved

/-- `release`, and a new table on the files it leaves. -/
def reopen (t : DocTable) : DocTable := openTable t.file t.saveMap.mapFile

def setUpdateBound (bound : ℕ) (t : DocTable) : DocTable := { t with updatedBound := bound }

end DocTable

end AdDelivery.Mining
