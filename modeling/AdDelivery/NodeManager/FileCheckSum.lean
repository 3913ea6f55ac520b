import AdDelivery.Core.Decimal
import Mathlib.Data.List.TakeDrop

/-!
# Checksums of replicated files

Replicas compare a file by its size and a checksum. Of a large file, only a part at the front and
one at the end is meant to be read. The size of that part is computed with 32 bits, and the jump
to the end goes too far.
-/

namespace AdDelivery.NodeManager

open List Nat

/-- A checksum that takes byte after byte. -/
structure CrcType where
  State : Type
  initial : State
  processByte : State → UInt8 → State
  checksum : State → UInt32

def CrcType.processBytes (crc : CrcType) (state : crc.State) (bytes : List UInt8) : crc.State :=
  bytes.foldl crc.processByte state

/-- One call of `read`: where it starts, and how many bytes it gets. -/
structure FileRead where
  pos : ℕ
  readed : ℕ

def FileRead.bytes (content : List UInt8) (read : FileRead) : List UInt8 :=
  (content.drop read.pos).take read.readed

/-- The reads that get the byte at a position. -/
def Fed (reads : List FileRead) (i : ℕ) : Prop :=
  ∃ read ∈ reads, read.pos ≤ i ∧ i < read.pos + read.readed

/-- The bytes of all reads, one after another. -/
def fedBytes (content : List UInt8) (reads : List FileRead) : List UInt8 :=
  (reads.map (FileRead.bytes content)).flatten

def oneGiB : ℕ := 1024 * 1024 * 1024

/-- The product is computed with 32 bits before it is widened. -/
def maxCheckData (checkLevel : UInt32) : ℕ :=
  (checkLevel * 1024 * 1024 * 1024).toNat

/-- What does not change while a file is read. -/
structure FileReading where
  totalSize : ℕ
  bufsize : ℕ
  bufsize_pos : 0 < bufsize
  maxCheckData : ℕ
  needSkip : Bool

namespace FileReading

structure Progress where
  pos : ℕ := 0
  totalReaded : ℕ := 0
  skipped : Bool := false

variable (file : FileReading)

/-- The jump, once enough is read. The offset is counted from the end of the file on. -/
def skip (progress : Progress) (readed : ℕ) : Progress :=
  let progress := { progress with pos := progress.pos + readed }
  if file.needSkip && !progress.skipped then
    let progress := { progress with totalReaded := progress.totalReaded + readed }
    if progress.totalReaded ≥ file.maxCheckData then
      { progress with pos := file.totalSize + file.maxCheckData, skipped := true }
    else progress
  else progress

theorem pos_lt_pos_skip (progress : Progress) (hlt : progress.pos < file.totalSize) :
    progress.pos < (file.skip progress file.bufsize).pos := by
  have hpos := file.bufsize_pos
  simp only [skip]
  split
  · split
    · change progress.pos < file.totalSize + file.maxCheckData
      omega
    · change progress.pos < progress.pos + file.bufsize
      omega
  · change progress.pos < progress.pos + file.bufsize
    omega

/-- The stream is no longer good after a read that gets less than it asks for. A jump in that
round is without effect. -/
def readLoop (progress : Progress) : List FileRead :=
  let readed := min file.bufsize (file.totalSize - progress.pos)
  ⟨progress.pos, readed⟩ ::
    if readed < file.bufsize then [] else readLoop (file.skip progress file.bufsize)
termination_by file.totalSize - progress.pos
decreasing_by
  have hpos := file.bufsize_pos
  have hlt : progress.pos < file.totalSize := by omega
  have hskip := file.pos_lt_pos_skip progress hlt
  omega

end FileReading

/-- How a file is read. Without a buffer the function takes one of its own. -/
def fileReading (size tmpBufsize : ℕ) (checkLevel : UInt32) : FileReading where
  totalSize := size
  bufsize := if tmpBufsize = 0 then 1024 * 1024 * 10 else tmpBufsize
  bufsize_pos := by split <;> omega
  maxCheckData := maxCheckData checkLevel
  needSkip := size > maxCheckData checkLevel * 2

def fileReads (size tmpBufsize : ℕ) (checkLevel : UInt32) : List FileRead :=
  (fileReading size tmpBufsize checkLevel).readLoop {}

/-- The checksum of a file that exists and can be read. -/
def getFileCRC (crc : CrcType) (file : Option (List UInt8)) (tmpBufsize : ℕ)
    (checkLevel : UInt32) : UInt32 :=
  match file with
  | none => 0
  | some content =>
    if checkLevel = 0 then 0
    else
      crc.checksum ((fileReads content.length tmpBufsize checkLevel).foldl
        (fun state read => crc.processBytes state (read.bytes content)) crc.initial)

/-- Decimal digits, as the cast of a number to a text gives them. -/
def getFileCheckSum (crc : CrcType) (file : Option (List UInt8)) (tmpBufsize : ℕ)
    (checkLevel : UInt32) : List Char :=
  match file with
  | none => ['0', '_', '0']
  | some content =>
    toDigits 10 content.length ++
      '_' :: toDigits 10 (getFileCRC crc file tmpBufsize checkLevel).toNat

variable {reads : List FileRead}

theorem fed_cons {read : FileRead} {i : ℕ} :
    Fed (read :: reads) i ↔ read.pos ≤ i ∧ i < read.pos + read.readed ∨ Fed reads i := by
  simp [Fed]

/-- The reads give the bytes of a range, each of them. -/
def ReadsRange (content : List UInt8) (reads : List FileRead) (start stop : ℕ) : Prop :=
  fedBytes content reads = (content.drop start).take (stop - start) ∧
    ∀ i, Fed reads i ↔ start ≤ i ∧ i < stop

variable (content : List UInt8)

theorem readsRange_nil {start stop : ℕ} (h : stop ≤ start) : ReadsRange content [] start stop := by
  refine ⟨?_, fun i => ?_⟩
  · rw [Nat.sub_eq_zero_of_le h]
    rfl
  · simp only [Fed, not_mem_nil, false_and, exists_false, false_iff]
    omega

/-- A read that gets nothing may start anywhere. -/
theorem readsRange_empty (pos : ℕ) {start stop : ℕ} (h : stop ≤ start) :
    ReadsRange content [⟨pos, 0⟩] start stop := by
  refine ⟨?_, fun i => ?_⟩
  · rw [Nat.sub_eq_zero_of_le h]
    rfl
  · simp only [Fed, mem_singleton, exists_eq_left]
    omega

theorem ReadsRange.cons {content : List UInt8} {start readed stop : ℕ}
    (h : ReadsRange content reads (start + readed) stop) (hle : start + readed ≤ max start stop) :
    ReadsRange content (⟨start, readed⟩ :: reads) start stop := by
  refine ⟨?_, fun i => ?_⟩
  · have hsplit : stop - start = readed + (stop - (start + readed)) := by omega
    rw [fedBytes, map_cons, flatten_cons, hsplit, take_add, drop_drop]
    congr 1
    exact h.1
  · rw [fed_cons, h.2 i]
    dsimp only
    omega

namespace FileReading

variable {file : FileReading} {content : List UInt8} {progress : Progress}

theorem readLoop_short (hshort : file.totalSize < progress.pos + file.bufsize) :
    file.readLoop progress = [⟨progress.pos, file.totalSize - progress.pos⟩] := by
  have hpos := file.bufsize_pos
  have hmin : min file.bufsize (file.totalSize - progress.pos) =
      file.totalSize - progress.pos := by omega
  rw [readLoop, hmin, if_pos (by omega)]

theorem readLoop_full (hfull : progress.pos + file.bufsize ≤ file.totalSize) :
    file.readLoop progress =
      ⟨progress.pos, file.bufsize⟩ :: file.readLoop (file.skip progress file.bufsize) := by
  have hmin : min file.bufsize (file.totalSize - progress.pos) = file.bufsize := by omega
  rw [readLoop, hmin, if_neg (lt_irrefl _)]

theorem readsRange_short (hshort : file.totalSize < progress.pos + file.bufsize) :
    ReadsRange content (file.readLoop progress) progress.pos file.totalSize := by
  rw [readLoop_short hshort]
  refine ReadsRange.cons (readsRange_nil content ?_) ?_ <;> omega

theorem skip_of_no_jump (hno : (file.needSkip && !progress.skipped) = false) (readed : ℕ) :
    file.skip progress readed = { progress with pos := progress.pos + readed } := by
  simp only [skip]
  rw [if_neg (by simp [hno])]

/-- Without a jump to come, the file is read to its end. -/
theorem readsRange_rest (progress : Progress) (hno : (file.needSkip && !progress.skipped) = false) :
    ReadsRange content (file.readLoop progress) progress.pos file.totalSize := by
  induction hn : file.totalSize - progress.pos using Nat.strong_induction_on
    generalizing progress with
  | _ n ih =>
    rcases lt_or_ge file.totalSize (progress.pos + file.bufsize) with hshort | hfull
    · exact readsRange_short hshort
    · have hpos := file.bufsize_pos
      rw [readLoop_full hfull, skip_of_no_jump hno]
      have hrest := ih (file.totalSize - (progress.pos + file.bufsize)) (by omega)
        { progress with pos := progress.pos + file.bufsize } hno rfl
      exact hrest.cons (by omega)

/-- How many rounds it takes until enough is read for the jump. -/
def rounds (file : FileReading) : ℕ :=
  max 1 ((file.maxCheckData + file.bufsize - 1) / file.bufsize)

theorem lt_rounds_iff {k : ℕ} (hk : 0 < k) :
    k < file.rounds ↔ k * file.bufsize < file.maxCheckData := by
  have hpos := file.bufsize_pos
  have hdiv : k < (file.maxCheckData + file.bufsize - 1) / file.bufsize ↔
      (k + 1) * file.bufsize ≤ file.maxCheckData + file.bufsize - 1 :=
    le_div_iff_mul_le hpos
  rw [add_mul] at hdiv
  rw [rounds]
  omega

/-- With a jump to come, only the rounds before the jump get something. -/
theorem readsRange_rounds (hskip : file.needSkip = true) (k : ℕ) (hk : k < file.rounds) :
    ReadsRange content (file.readLoop
        { pos := k * file.bufsize, totalReaded := k * file.bufsize, skipped := false })
      (k * file.bufsize) (min file.totalSize (file.rounds * file.bufsize)) := by
  induction hn : file.rounds - k using Nat.strong_induction_on generalizing k with
  | _ n ih =>
    have hrounds : (k + 1) * file.bufsize ≤ file.rounds * file.bufsize :=
      mul_le_mul_right _ hk
    have hnext : (k + 1) * file.bufsize = k * file.bufsize + file.bufsize := by
      rw [add_mul, one_mul]
    rcases lt_or_ge file.totalSize (k * file.bufsize + file.bufsize) with hshort | hfull
    · rw [min_eq_left (by omega)]
      exact readsRange_short hshort
    · rw [readLoop_full hfull]
      rcases lt_or_ge (k + 1) file.rounds with hlt | hge
      · have hmore : ¬(k * file.bufsize + file.bufsize ≥ file.maxCheckData) := by
          rw [← hnext, not_le]
          exact (lt_rounds_iff (succ_pos k)).mp hlt
        have hstep : file.skip
            { pos := k * file.bufsize, totalReaded := k * file.bufsize, skipped := false }
              file.bufsize =
            { pos := (k + 1) * file.bufsize, totalReaded := (k + 1) * file.bufsize
              skipped := false } := by
          simp [skip, hskip, hmore, hnext]
        have hrest := ih (file.rounds - (k + 1)) (by omega) (k + 1) hlt rfl
        rw [hstep]
        rw [hnext] at hrest ⊢
        exact hrest.cons (by omega)
      · have henough : k * file.bufsize + file.bufsize ≥ file.maxCheckData := by
          rw [← hnext]
          exact not_lt.mp fun hmore =>
            absurd ((lt_rounds_iff (succ_pos k)).mpr hmore) (not_lt.mpr hge)
        have hlast : file.rounds = k + 1 := by omega
        have hstep : file.skip
            { pos := k * file.bufsize, totalReaded := k * file.bufsize, skipped := false }
              file.bufsize =
            { pos := file.totalSize + file.maxCheckData
              totalReaded := k * file.bufsize + file.bufsize, skipped := true } := by
          simp [skip, hskip, henough]
        -- the position is behind the end, so that the next read gets nothing
        have hpos := file.bufsize_pos
        have hbehind : file.readLoop
            { pos := file.totalSize + file.maxCheckData
              totalReaded := k * file.bufsize + file.bufsize, skipped := true } =
            [⟨file.totalSize + file.maxCheckData, 0⟩] := by
          rw [readLoop_short (by dsimp only; omega)]
          simp
        rw [hstep, hbehind, hlast, hnext, min_eq_right hfull]
        refine ReadsRange.cons (readsRange_empty content _ ?_) ?_
        · exact le_refl _
        · exact le_max_right _ _

/-- How much of a file is read. -/
def fedSize (file : FileReading) : ℕ :=
  if file.needSkip then min file.totalSize (file.rounds * file.bufsize) else file.totalSize

/-- A file is read up to a position, and not beyond it. -/
theorem readsRange_readLoop (file : FileReading) (content : List UInt8) :
    ReadsRange content (file.readLoop {}) 0 file.fedSize := by
  rw [fedSize]
  split
  · next hskip =>
    have hzero : 0 < file.rounds := lt_of_lt_of_le one_pos (le_max_left _ _)
    rw [← zero_mul file.bufsize]
    exact readsRange_rounds hskip 0 hzero
  · next hskip =>
    exact readsRange_rest {} (by simp [hskip])

end FileReading

/-- All of a small file, and both ends of a large one. -/
def MustCheck (checkLevel : UInt32) (size i : ℕ) : Prop :=
  i < size ∧ (size ≤ 2 * (checkLevel.toNat * oneGiB) ∨ i < checkLevel.toNat * oneGiB ∨
    size ≤ i + checkLevel.toNat * oneGiB)

/-- The part that must be checked is fed to the checksum, and files that differ there have the
same text only if the checksum maps different bytes to one number. -/
def CoversBothEnds (crc : CrcType) (content : List UInt8) (tmpBufsize : ℕ)
    (checkLevel : UInt32) : Prop :=
  (∀ i, MustCheck checkLevel content.length i →
    Fed (fileReads content.length tmpBufsize checkLevel) i) ∧
  ∀ other : List UInt8,
    (∃ i, MustCheck checkLevel content.length i ∧ content[i]? ≠ other[i]?) →
    getFileCheckSum crc (some content) tmpBufsize checkLevel =
      getFileCheckSum crc (some other) tmpBufsize checkLevel →
    fedBytes content (fileReads content.length tmpBufsize checkLevel) ≠
      fedBytes other (fileReads other.length tmpBufsize checkLevel)

variable (checkLevel : UInt32)

theorem maxCheckData_eq : maxCheckData checkLevel = checkLevel.toNat % 4 * oneGiB := by
  have hfactor : (1024 : UInt32).toNat = 1024 := rfl
  simp only [maxCheckData, UInt32.toNat_mul, hfactor, oneGiB]
  omega

/-- The file has to end before the jump would be made. -/
def EndsBeforeJump (size tmpBufsize : ℕ) (checkLevel : UInt32) : Prop :=
  size ≤ 2 * (checkLevel.toNat % 4 * oneGiB) ∨
    size ≤ (fileReading size tmpBufsize checkLevel).rounds *
      (fileReading size tmpBufsize checkLevel).bufsize

theorem fedSize_le (size tmpBufsize : ℕ) (checkLevel : UInt32) :
    (fileReading size tmpBufsize checkLevel).fedSize ≤ size := by
  rw [FileReading.fedSize]
  split
  · exact min_le_left _ _
  · exact le_refl _

theorem fedSize_eq_iff (size tmpBufsize : ℕ) (checkLevel : UInt32) :
    (fileReading size tmpBufsize checkLevel).fedSize = size ↔
      EndsBeforeJump size tmpBufsize checkLevel := by
  have hneed : (fileReading size tmpBufsize checkLevel).needSkip =
      decide (size > checkLevel.toNat % 4 * oneGiB * 2) := by
    rw [← maxCheckData_eq]
    rfl
  have hsize : (fileReading size tmpBufsize checkLevel).totalSize = size := rfl
  rw [FileReading.fedSize, EndsBeforeJump]
  split <;> simp_all <;> omega

theorem exists_mustCheck_last {checkLevel : UInt32} (hlevel : checkLevel ≠ 0) {size : ℕ}
    (hsize : 0 < size) : MustCheck checkLevel size (size - 1) := by
  have hpos : 0 < checkLevel.toNat := by
    rw [pos_iff_ne_zero]
    intro hzero
    exact hlevel (UInt32.toNat_inj.mp hzero)
  refine ⟨by omega, .inr (.inr ?_)⟩
  have hmul : 1 * oneGiB ≤ checkLevel.toNat * oneGiB := mul_le_mul_right _ hpos
  rw [oneGiB] at hmul ⊢
  omega

section Covered

variable {crc : CrcType} {content : List UInt8} {tmpBufsize : ℕ} {checkLevel : UInt32}

theorem fed_iff {i : ℕ} : Fed (fileReads content.length tmpBufsize checkLevel) i ↔
      i < (fileReading content.length tmpBufsize checkLevel).fedSize := by
  have hread := (fileReading content.length tmpBufsize checkLevel).readsRange_readLoop content
  rw [fileReads, hread.2 i]
  simp

theorem fedBytes_eq (size : ℕ) : fedBytes content (fileReads size tmpBufsize checkLevel) =
      content.take (fileReading size tmpBufsize checkLevel).fedSize := by
  have hread := (fileReading size tmpBufsize checkLevel).readsRange_readLoop content
  rw [fileReads, hread.1]
  simp

/-- The text of a checksum holds the size of the file. -/
theorem length_eq_of_checkSum_eq {other : List UInt8}
    (heq : getFileCheckSum crc (some content) tmpBufsize checkLevel =
      getFileCheckSum crc (some other) tmpBufsize checkLevel) : content.length = other.length := by
  have hdigit (n : ℕ) : ∀ c ∈ toDigits 10 n, c ≠ '_' := by
    intro c hc hunderscore
    have hisDigit := isDigit_of_mem_toDigits (by decide) (by decide) hc
    rw [hunderscore] at hisDigit
    cases hisDigit
  have hfront := congrArg (List.takeWhile (· ≠ '_')) heq
  simp only [getFileCheckSum] at hfront
  rw [takeWhile_append_of_pos (by simpa using hdigit _),
    takeWhile_append_of_pos (by simpa using hdigit _)] at hfront
  apply Decimal.toDigits_injective
  simpa using hfront

theorem coversBothEnds_of_endsBeforeJump
    (hends : EndsBeforeJump content.length tmpBufsize checkLevel) :
    CoversBothEnds crc content tmpBufsize checkLevel := by
  have hall := (fedSize_eq_iff _ _ _).mpr hends
  refine ⟨fun i hi => ?_, fun other hdiffer heq hfed => ?_⟩
  · rw [fed_iff, hall]
    exact hi.1
  · obtain ⟨i, hi, hne⟩ := hdiffer
    have hlength := length_eq_of_checkSum_eq heq
    rw [fedBytes_eq, fedBytes_eq, ← hlength, hall, take_length, hlength, take_length] at hfed
    exact hne (by rw [hfed])

theorem endsBeforeJump_of_fed (hlevel : checkLevel ≠ 0)
    (hfed : ∀ i, MustCheck checkLevel content.length i →
      Fed (fileReads content.length tmpBufsize checkLevel) i) :
    EndsBeforeJump content.length tmpBufsize checkLevel := by
  rcases Nat.eq_zero_or_pos content.length with hzero | hpos
  · rw [hzero]
    exact .inl (Nat.zero_le _)
  · have hlast := fed_iff.mp (hfed _ (exists_mustCheck_last hlevel hpos))
    have hle := fedSize_le content.length tmpBufsize checkLevel
    exact (fedSize_eq_iff _ _ _).mp (by omega)

/-- The checksum covers both ends of a file exactly when the file ends before the jump. -/
theorem coversBothEnds_iff (crc : CrcType) (content : List UInt8) (tmpBufsize : ℕ)
    (checkLevel : UInt32) (hlevel : checkLevel ≠ 0) :
    CoversBothEnds crc content tmpBufsize checkLevel ↔
      EndsBeforeJump content.length tmpBufsize checkLevel :=
  ⟨fun hcovers => endsBeforeJump_of_fed hlevel hcovers.1, coversBothEnds_of_endsBeforeJump⟩

end Covered

/-- The checksum of the source: a cyclic redundancy check with 32 bits, the lowest bit first. -/
def crc32Type : CrcType where
  State := UInt32
  initial := 0xFFFFFFFF
  processByte state byte :=
    Nat.repeat (fun state => if state &&& 1 = 1 then (state >>> 1) ^^^ 0xEDB88320 else state >>> 1)
      8 (state ^^^ byte.toUInt32)
  checksum state := state ^^^ 0xFFFFFFFF

/-- At level one, a small file is read to its end. -/
theorem coversBothEnds_one : CoversBothEnds crc32Type [1, 2] 1 1 :=
  (coversBothEnds_iff crc32Type [1, 2] 1 1 (by decide)).mpr (.inl (by decide))

/-- The level and the buffer of the check after a recovery: a file of zeros that is longer than
the buffer. -/
theorem not_coversBothEnds_hundred :
    ¬∀ (content : List UInt8) (tmpBufsize : ℕ) (checkLevel : UInt32), checkLevel ≠ 0 →
      CoversBothEnds crc32Type content tmpBufsize checkLevel := by
  intro hcovers
  have hhundred := hcovers (List.replicate 33554433 0) 33554432 100 (by decide)
  have hends := endsBeforeJump_of_fed (by decide) hhundred.1
  rw [length_replicate] at hends
  rcases hends with hsmall | hrounds
  · cases hsmall
  · exact absurd hrounds (by decide)

end AdDelivery.NodeManager
