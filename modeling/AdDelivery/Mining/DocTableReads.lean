import AdDelivery.Core.Vector
import AdDelivery.Mining.DocTableInvariant

/-!
# Reads through the buffer

The buffer is the beginning of the file, cut off at the cache size or between two records. A record
that has been appended behind it is not in it, and only the cache size tells the reader so. What is
read of any other record is its content.
-/

namespace AdDelivery.Mining

open List Option

namespace DocTable

variable (cacheSize : ℕ)

/-- No record within the cache size has been appended behind the buffer at this address. -/
def Covered (t : DocTable) (addr : ℕ) : Prop :=
  ∀ buf, t.buf = some buf → buf.length ≤ addr → cacheSize ≤ addr + 2

/-- The buffer is the beginning of the file. Unless it is cut off at the cache size, it ends where a
record does. -/
structure BufferOk (t : DocTable) (docs : DocMap) : Prop where
  loaded : ∀ buf, t.buf = some buf → ∃ rest, t.file = buf ++ rest
  cut : ∀ buf, t.buf = some buf → buf.length = cacheSize ∨
    ∀ docid addr content, t.getAddr docid = some addr → docs docid = some content →
      addr + 2 + content.length ≤ buf.length ∨ buf.length ≤ addr

variable {cacheSize} {t : DocTable} {docs : DocMap} {addr : ℕ} {content : List UInt8}

theorem bufferOk_of_none (h : t.buf = none) : BufferOk cacheSize t docs where
  loaded := fun buf hbuf => by
    rw [h] at hbuf
    cases hbuf
  cut := fun buf hbuf => by
    rw [h] at hbuf
    cases hbuf

variable (cacheSize) in
/-- Loading changes the buffer alone. -/
theorem initBuf_eq (t : DocTable) : ∃ buf, t.initBuf cacheSize = { t with buf } := by
  unfold initBuf
  split
  · exact ⟨_, rfl⟩
  · split_ifs
    · exact ⟨_, rfl⟩
    · exact ⟨_, rfl⟩
    · exact ⟨_, rfl⟩

@[simp] theorem initBuf_file (t : DocTable) : (t.initBuf cacheSize).file = t.file := by
  obtain ⟨_, heq⟩ := t.initBuf_eq cacheSize
  rw [heq]

@[simp] theorem initBuf_entry (t : DocTable) : (t.initBuf cacheSize).entry = t.entry := by
  obtain ⟨_, heq⟩ := t.initBuf_eq cacheSize
  rw [heq]

@[simp] theorem initBuf_getAddr (t : DocTable) (docid : ℕ) :
    (t.initBuf cacheSize).getAddr docid = t.getAddr docid := by
  rw [getAddr, initBuf_entry, getAddr]

/-- What the buffer is after loading: what it was, or the beginning of the file. -/
theorem initBuf_cases (cacheSize : ℕ) (t : DocTable) : (t.initBuf cacheSize = t ∧ t.buf.isSome) ∨
      (t.buf = none ∧ cacheSize < t.file.length ∧
        (t.initBuf cacheSize).buf = some (t.file.take cacheSize)) ∨
      (t.buf = none ∧ 0 < t.file.length ∧ (t.initBuf cacheSize).buf = some t.file) ∨
      (t.file = [] ∧ (t.initBuf cacheSize).buf = none) := by
  unfold initBuf
  cases hbuf : t.buf with
  | some buf => exact .inl ⟨rfl, rfl⟩
  | none =>
    by_cases hlarge : cacheSize < t.file.length
    · simp only [if_pos hlarge]
      exact .inr (.inl ⟨trivial, hlarge, trivial⟩)
    · by_cases hpos : 0 < t.file.length
      · simp only [if_neg hlarge, if_pos hpos]
        exact .inr (.inr (.inl ⟨trivial, hpos, trivial⟩))
      · simp only [if_neg hlarge, if_neg hpos]
        exact .inr (.inr (.inr ⟨length_eq_zero_iff.mp (by omega), hbuf⟩))

theorem BufferOk.initBuf (h : BufferOk cacheSize t docs) (hstores : Stores t.entry t.file docs) :
    BufferOk cacheSize (t.initBuf cacheSize) docs := by
  rcases initBuf_cases cacheSize t with
    ⟨hinit, -⟩ | ⟨-, hlarge, hbuf⟩ | ⟨-, -, hbuf⟩ | ⟨-, hbuf⟩
  · rwa [hinit]
  · refine ⟨fun buf hbuf' => ?_, fun buf hbuf' => ?_⟩
    · rw [hbuf, some.injEq] at hbuf'
      subst hbuf'
      rw [initBuf_file]
      exact ⟨_, (take_append_drop cacheSize t.file).symm⟩
    · rw [hbuf, some.injEq] at hbuf'
      subst hbuf'
      exact .inl (length_take_of_le hlarge.le)
  · refine ⟨fun buf hbuf' => ?_, fun buf hbuf' => ?_⟩
    · rw [hbuf, some.injEq] at hbuf'
      subst hbuf'
      rw [initBuf_file]
      exact ⟨[], (append_nil _).symm⟩
    · rw [hbuf, some.injEq] at hbuf'
      subst hbuf'
      refine .inr fun docid addr content haddr hdoc => ?_
      rw [initBuf_getAddr] at haddr
      obtain ⟨content', hdoc', hrecord⟩ := exists_record_of_getAddr hstores haddr
      obtain rfl := some.inj (hdoc.symm.trans hdoc')
      exact .inl hrecord.le_length
  · exact bufferOk_of_none hbuf

/-- Loading the buffer covers everything there is. -/
theorem covered_initBuf_iff (hrecord : RecordAt t.file addr content) :
    Covered cacheSize (t.initBuf cacheSize) addr ↔ Covered cacheSize t addr := by
  have hle := hrecord.le_length
  rcases initBuf_cases cacheSize t with
    ⟨hinit, -⟩ | ⟨hnone, hlarge, hbuf⟩ | ⟨hnone, -, hbuf⟩ | ⟨hnil, -⟩
  · rw [hinit]
  · refine iff_of_true (fun buf hbuf' hbehind => ?_) fun buf hbuf' => ?_
    · rw [hbuf, some.injEq] at hbuf'
      subst hbuf'
      rw [length_take_of_le hlarge.le] at hbehind
      omega
    · rw [hnone] at hbuf'
      cases hbuf'
  · refine iff_of_true (fun buf hbuf' hbehind => ?_) fun buf hbuf' => ?_
    · rw [hbuf, some.injEq] at hbuf'
      subst hbuf'
      omega
    · rw [hnone] at hbuf'
      cases hbuf'
  · rw [hnil, length_nil] at hle
    omega

theorem exists_buf_initBuf (cacheSize : ℕ) (hrecord : RecordAt t.file addr content) :
    ∃ buf, (t.initBuf cacheSize).buf = some buf := by
  rcases initBuf_cases cacheSize t with
    ⟨hinit, hsome⟩ | ⟨-, -, hbuf⟩ | ⟨-, -, hbuf⟩ | ⟨hnil, -⟩
  · rw [hinit]
    exact isSome_iff_exists.mp hsome
  · exact ⟨_, hbuf⟩
  · exact ⟨_, hbuf⟩
  · have hle := hrecord.le_length
    rw [hnil, length_nil] at hle
    omega

theorem readFile_eq (hrecord : RecordAt t.file addr content) :
    t.readFile addr = .ok (content.length, content) := by
  have hhead := hrecord.readAt_head .readPastFile
  have hbody := readAt_of_located .readPastFile hrecord.body
  simp only [readFile, hhead, readLen_writeLen hrecord.1, hbody, bind, Except.bind, pure,
    Except.pure]

variable {docid : ℕ}

/-- A record that is covered is read. -/
theorem readDoc_of_covered {buf : List UInt8} (h : BufferOk cacheSize t docs)
    (haddr : t.getAddr docid = some addr) (hdoc : docs docid = some content)
    (hrecord : RecordAt t.file addr content) (hbuf : t.buf = some buf)
    (hcovered : Covered cacheSize t addr) :
    t.readDoc cacheSize addr = .ok (content.length, content) := by
  unfold readDoc
  by_cases hcache : addr + 2 < cacheSize
  · rw [if_pos hcache]
    obtain ⟨rest, hrest⟩ := h.loaded buf hbuf
    have hwithin : addr < buf.length := by
      by_contra hbehind
      have := hcovered buf hbuf (not_lt.mp hbehind)
      omega
    have hcut : buf.length = cacheSize ∨ addr + 2 + content.length ≤ buf.length := by
      rcases h.cut buf hbuf with hfull | hend
      · exact .inl hfull
      · rcases hend docid addr content haddr hdoc with hend | hbehind
        · exact .inr hend
        · omega
    have hhead : t.readBuf addr 2 = .ok (writeLen content.length) := by
      have hlocated : Located buf addr (writeLen content.length) := by
        refine Located.of_append (hrest ▸ hrecord.head) ?_
        rw [length_writeLen]
        omega
      rw [readBuf, hbuf]
      exact readAt_of_located .readPastBuffer hlocated
    simp only [hhead, bind, Except.bind, readLen_writeLen hrecord.1]
    by_cases hfits : content.length + addr + 2 ≤ cacheSize
    · have hbody : t.readBuf (addr + 2) content.length = .ok content := by
        rw [readBuf, hbuf]
        refine readAt_of_located .readPastBuffer (Located.of_append (hrest ▸ hrecord.body) ?_)
        omega
      simp only [if_pos hfits, hbody, pure, Except.pure]
    · rw [if_neg hfits]
      exact readFile_eq hrecord
  · rw [if_neg hcache]
    exact readFile_eq hrecord

/-- The length of any other one is read from memory behind the buffer. -/
theorem readDoc_of_not_covered (hcovered : ¬ Covered cacheSize t addr) :
    t.readDoc cacheSize addr = .error .readPastBuffer := by
  unfold Covered at hcovered
  push Not at hcovered
  obtain ⟨buf, hbuf, hbehind, hcache⟩ := hcovered
  have hhead : t.readBuf addr 2 = .error .readPastBuffer := by
    rw [readBuf, hbuf]
    exact readAt_of_lt .readPastBuffer (by omega)
  simp only [readDoc, if_pos hcache, hhead, bind, Except.bind]

/-- What a document has, as `get_doc` gives it. -/
def docOf (docs : DocMap) (docid : ℕ) : ℕ × Option (List UInt8) :=
  (((docs docid).getD []).length, docs docid)

theorem getDoc_of_covered (h : BufferOk cacheSize t docs) (hstores : Stores t.entry t.file docs)
    (hcovered : ∀ addr, t.getAddr docid = some addr → Covered cacheSize t addr) :
    getDoc cacheSize docid t = .ok (t.initBuf cacheSize, docOf docs docid) := by
  cases hdoc : docs docid with
  | none =>
    simp only [getDoc, initBuf_getAddr, getAddr_of_absent hstores hdoc, docOf, hdoc]
    rfl
  | some content =>
    obtain ⟨addr, haddr, hrecord⟩ := getAddr_of_present hstores hdoc
    obtain ⟨buf, hbuf⟩ := exists_buf_initBuf cacheSize hrecord
    have hread : (t.initBuf cacheSize).readDoc cacheSize addr = .ok (content.length, content) := by
      refine readDoc_of_covered (h.initBuf hstores) ?_ hdoc ?_ hbuf ?_
      · rw [initBuf_getAddr, haddr]
      · rw [initBuf_file]
        exact hrecord
      · exact (covered_initBuf_iff hrecord).mpr (hcovered addr haddr)
    simp only [getDoc, initBuf_getAddr, haddr, hread, docOf, hdoc, bind, Except.bind, pure,
      Except.pure, Option.getD_some]

theorem getDoc_of_not_covered (hstores : Stores t.entry t.file docs)
    (haddr : t.getAddr docid = some addr) (hcovered : ¬ Covered cacheSize t addr) :
    getDoc cacheSize docid t = .error .readPastBuffer := by
  obtain ⟨content, hdoc, hrecord⟩ := exists_record_of_getAddr hstores haddr
  have hread := readDoc_of_not_covered (mt (covered_initBuf_iff hrecord).mp hcovered)
  simp only [getDoc, initBuf_getAddr, haddr, hread, bind, Except.bind]

theorem mapM_eq_ok {α β ε : Type} {f : α → Except ε β} {g : α → β} {as : List α}
    (h : ∀ a ∈ as, f a = .ok (g a)) : as.mapM f = .ok (as.map g) := by
  induction as with
  | nil => rfl
  | cons a as ih =>
    rw [mapM_cons, h a mem_cons_self, ih fun a' ha' => h a' (mem_cons_of_mem a ha')]
    rfl

theorem mapM_eq_error {α β ε : Type} {f : α → Except ε β} {e : ε} {as : List α}
    (h : ∀ a ∈ as, (∃ b, f a = .ok b) ∨ f a = .error e) (herror : ∃ a ∈ as, f a = .error e) :
    as.mapM f = .error e := by
  induction as with
  | nil =>
    obtain ⟨a, ha, -⟩ := herror
    cases ha
  | cons a as ih =>
    rw [mapM_cons]
    rcases h a mem_cons_self with ⟨b, hb⟩ | hb
    · have hrest : as.mapM f = .error e := by
        refine ih (fun a' ha' => h a' (mem_cons_of_mem a ha')) ?_
        obtain ⟨a', ha', he⟩ := herror
        rcases mem_cons.mp ha' with rfl | ha'
        · rw [hb] at he
          cases he
        · exact ⟨a', ha', he⟩
      rw [hb, hrest]
      rfl
    · rw [hb]
      rfl

section Batch

variable {docIdList : List ℕ} {unit : AdressIdPair}

theorem mem_located_iff : unit ∈ t.located docIdList ↔
    docIdList[unit.index]? = some unit.docid ∧ t.getAddr unit.docid = some unit.addr := by
  rw [located, mem_insertionSort, mem_filterMap]
  constructor
  · rintro ⟨⟨docid, index⟩, hentry, hmap⟩
    obtain ⟨addr, haddr, rfl⟩ := map_eq_some_iff.mp hmap
    exact ⟨mem_zipIdx_iff_getElem?.mp hentry, haddr⟩
  · rintro ⟨hindex, haddr⟩
    refine ⟨(unit.docid, unit.index), mem_zipIdx_iff_getElem?.mpr hindex, ?_⟩
    rw [haddr]
    rfl

/-- Each document goes to its places, and the other places stay as they are. -/
theorem foldl_places {α : Type} (docIdList : List ℕ) (hstores : Stores t.entry t.file docs)
    (answer : ℕ × Option (List UInt8) → α) (value : AdressIdPair → α)
    (hvalue : ∀ unit ∈ t.located docIdList, value unit = answer (docOf docs unit.docid)) :
    (t.located docIdList).foldl (fun values unit => values.set unit.index (value unit))
        (docIdList.map fun _ => answer (0, none)) =
      docIdList.map fun docid => answer (docOf docs docid) := by
  apply ext_getElem?
  intro i
  rw [getElem?_foldl_set AdressIdPair.index value
    (fun i => answer (docOf docs (docIdList.getD i 0))) (fun unit hunit => by
      rw [hvalue unit hunit, getD_eq_getElem?_getD, (mem_located_iff.mp hunit).1, getD_some])]
  rw [getElem?_map, getElem?_map]
  cases hi : docIdList[i]? with
  | none => exact ite_self none
  | some docid =>
    rw [getD_eq_getElem?_getD, hi]
    split
    · rfl
    · rename_i hnot
      have hdoc : docs docid = none := by
        cases hdoc : docs docid with
        | none => rfl
        | some content =>
          obtain ⟨addr, haddr, -⟩ := getAddr_of_present hstores hdoc
          have hmem : (⟨addr, docid, i⟩ : AdressIdPair) ∈ t.located docIdList :=
            mem_located_iff.mpr ⟨hi, haddr⟩
          exact absurd (mem_map_of_mem hmem) hnot
      simp only [docOf, hdoc, map_some, getD_none, length_nil]

theorem initBuf_located (t : DocTable) (docIdList : List ℕ) :
    (t.initBuf cacheSize).located docIdList = t.located docIdList := by
  simp only [located, initBuf_getAddr]

section

variable (h : BufferOk cacheSize t docs) (hstores : Stores t.entry t.file docs)
include h hstores

/-- A record of the batch is read, or fails the whole batch. -/
theorem readDoc_located (hunit : unit ∈ t.located docIdList) :
    (Covered cacheSize t unit.addr ∧ (t.initBuf cacheSize).readDoc cacheSize unit.addr =
        .ok ((docOf docs unit.docid).1, (docs unit.docid).getD [])) ∨
      (¬ Covered cacheSize t unit.addr ∧
        (t.initBuf cacheSize).readDoc cacheSize unit.addr = .error .readPastBuffer) := by
  have haddr := (mem_located_iff.mp hunit).2
  obtain ⟨content, hdoc, hrecord⟩ := exists_record_of_getAddr hstores haddr
  by_cases hcovered : Covered cacheSize t unit.addr
  · obtain ⟨buf, hbuf⟩ := exists_buf_initBuf cacheSize hrecord
    refine .inl ⟨hcovered, ?_⟩
    rw [docOf, hdoc]
    refine readDoc_of_covered (h.initBuf hstores) ?_ hdoc ?_ hbuf ?_
    · rw [initBuf_getAddr, haddr]
    · rw [initBuf_file]
      exact hrecord
    · exact (covered_initBuf_iff hrecord).mpr hcovered
  · exact .inr ⟨hcovered, readDoc_of_not_covered (mt (covered_initBuf_iff hrecord).mp hcovered)⟩

theorem getDocs_of_covered (hcovered : ∀ docid ∈ docIdList, ∀ addr, t.getAddr docid = some addr →
      Covered cacheSize t addr) : getDocs cacheSize docIdList t = .ok (t.initBuf cacheSize,
      docIdList.map fun docid => (docOf docs docid).2,
      docIdList.map fun docid => (docOf docs docid).1) := by
  have hread : ∀ unit ∈ t.located docIdList, (t.initBuf cacheSize).readDoc cacheSize unit.addr =
      .ok ((docOf docs unit.docid).1, (docs unit.docid).getD []) := by
    intro unit hunit
    obtain ⟨hindex, haddr⟩ := mem_located_iff.mp hunit
    rcases readDoc_located h hstores hunit with ⟨-, hok⟩ | ⟨hnot, -⟩
    · exact hok
    · exact absurd (hcovered unit.docid (mem_of_getElem? hindex) unit.addr haddr) hnot
  have hcontents := foldl_places docIdList hstores Prod.snd
    (fun unit => some ((docs unit.docid).getD [])) fun unit hunit => by
      obtain ⟨content, hdoc, -⟩ := exists_record_of_getAddr hstores (mem_located_iff.mp hunit).2
      rw [docOf, hdoc, getD_some]
  have hlens := foldl_places docIdList hstores Prod.fst
    (fun unit => (docOf docs unit.docid).1) fun _ _ => rfl
  simp only [getDocs, initBuf_located, mapM_eq_ok hread, bind, Except.bind, pure, Except.pure]
  rw [← map_prod_left_eq_zip, foldl_map, foldl_map, hcontents, hlens]

theorem getDocs_of_not_covered (hcovered : ∃ docid ∈ docIdList, ∃ addr,
      t.getAddr docid = some addr ∧ ¬ Covered cacheSize t addr) :
    getDocs cacheSize docIdList t = .error .readPastBuffer := by
  obtain ⟨docid, hdocid, addr, haddr, hnot⟩ := hcovered
  obtain ⟨i, hi⟩ := mem_iff_getElem?.mp hdocid
  have hunit : (⟨addr, docid, i⟩ : AdressIdPair) ∈ t.located docIdList :=
    mem_located_iff.mpr ⟨hi, haddr⟩
  have hread : (t.located docIdList).mapM
      (fun unit => (t.initBuf cacheSize).readDoc cacheSize unit.addr) =
        .error .readPastBuffer := by
    refine mapM_eq_error (fun unit hunit => ?_) ⟨_, hunit, ?_⟩
    · rcases readDoc_located h hstores hunit with ⟨-, hok⟩ | ⟨-, herror⟩
      · exact .inl ⟨_, hok⟩
      · exact .inr herror
    · rcases readDoc_located h hstores hunit with ⟨hok, -⟩ | ⟨-, herror⟩
      · exact absurd hok hnot
      · exact herror
  simp only [getDocs, initBuf_located, hread, bind, Except.bind]

end

end Batch

end DocTable

end AdDelivery.Mining
