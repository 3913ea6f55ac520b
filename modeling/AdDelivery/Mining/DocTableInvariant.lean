import AdDelivery.Mining.DocTable

/-!
# Records and slots

The slots lead to a record of each document that the table has, with the content of the document.
Appending to the file and putting its end into a slot keeps that for one more document; copying the
records in use builds it up from nothing in a new file. Only a copy that reads behind the end of the
file fails.
-/

namespace AdDelivery.Mining

open List Function DocTable
open HashSlots

/-- The contents of the documents. -/
abbrev DocMap := ℕ → Option (List UInt8)

@[simp] theorem length_writeLen (len : ℕ) : (writeLen len).length = 2 := rfl

theorem readLen_writeLen {len : ℕ} (h : len < 2 ^ 16) : readLen (writeLen len) = len := by
  have hlow : (UInt8.ofNat len).toNat = len % 256 := UInt8.toNat_ofNat'
  have hhigh : (UInt8.ofNat (len / 256)).toNat = len / 256 % 256 := UInt8.toNat_ofNat'
  have hread : readLen (writeLen len) =
      (UInt8.ofNat len).toNat + 256 * (UInt8.ofNat (len / 256)).toNat := rfl
  omega

/-- The upper half of a length is not written. -/
theorem writeLen_add (junk len : ℕ) : writeLen (junk * 2 ^ 16 + len) = writeLen len := by
  have hlow : UInt8.ofNat (junk * 2 ^ 16 + len) = UInt8.ofNat len := by
    apply UInt8.toNat_inj.mp
    rw [UInt8.toNat_ofNat', UInt8.toNat_ofNat']
    omega
  have hhigh : UInt8.ofNat ((junk * 2 ^ 16 + len) / 256) = UInt8.ofNat (len / 256) := by
    apply UInt8.toNat_inj.mp
    rw [UInt8.toNat_ofNat', UInt8.toNat_ofNat']
    omega
  rw [writeLen, hlow, hhigh, writeLen]

theorem readAt_of_located {bytes data : List UInt8} {addr : ℕ} (fault : DocFault)
    (h : Located bytes addr data) : readAt fault bytes addr data.length = .ok data := by
  rw [readAt, if_pos h.1, h.2]

theorem readAt_of_lt {bytes : List UInt8} {addr len : ℕ} (fault : DocFault)
    (h : bytes.length < addr + len) : readAt fault bytes addr len = .error fault :=
  if_neg (not_le.mpr h)

/-- The file has a record with this content at an address. -/
def RecordAt (file : List UInt8) (addr : ℕ) (content : List UInt8) : Prop :=
  content.length < 2 ^ 16 ∧ Located file addr (writeLen content.length ++ content)

section Record

variable {file : List UInt8} {addr : ℕ} {content : List UInt8}

theorem RecordAt.append (h : RecordAt file addr content) (extra : List UInt8) :
    RecordAt (file ++ extra) addr content :=
  ⟨h.1, h.2.append extra⟩

theorem recordAt_append (file : List UInt8) (h : content.length < 2 ^ 16) (extra : List UInt8) :
    RecordAt (file ++ writeLen content.length ++ content ++ extra) file.length content := by
  refine RecordAt.append ⟨h, ?_⟩ extra
  rw [append_assoc]
  exact located_append file _

section

variable (h : RecordAt file addr content)
include h

theorem RecordAt.le_length : addr + 2 + content.length ≤ file.length := by
  have hle := h.2.1
  rw [length_append, length_writeLen] at hle
  omega

theorem RecordAt.head : Located file addr (writeLen content.length) :=
  (located_append_iff.mp h.2).1

theorem RecordAt.body : Located file (addr + 2) content :=
  (located_append_iff.mp h.2).2

theorem RecordAt.readLen_segment : readLen (segment file addr 2) = content.length := by
  have hhead := h.head.2
  rw [length_writeLen] at hhead
  rw [hhead, readLen_writeLen h.1]

theorem RecordAt.readAt_head (fault : DocFault) :
    readAt fault file addr 2 = .ok (writeLen content.length) :=
  readAt_of_located fault h.head

end

end Record

/-- The slots lead to a record of every document. -/
structure Stores (entry : HashSlots IdAdressPair) (file : List UInt8) (docs : DocMap) : Prop where
  wellFormed : WellFormed IdAdressPair.docid slotOf entry
  absent : ∀ docid, docs docid = none →
    HashSlots.find IdAdressPair.docid slotOf entry docid = none
  present : ∀ docid content, docs docid = some content →
    ∃ addr, HashSlots.find IdAdressPair.docid slotOf entry docid = some ⟨docid, addr⟩ ∧
      RecordAt file addr content

section Slots

variable {entry : HashSlots IdAdressPair} {file : List UInt8} {docs : DocMap}

theorem stores_empty (file : List UInt8) : Stores ∅ file fun _ => none where
  wellFormed := wellFormed_empty
  absent := fun docid _ => find_empty docid
  present := fun docid content h => by cases h

/-- A new record is appended and its address is put into the slot. -/
theorem Stores.put (h : Stores entry file docs) {docid addr : ℕ} {content : List UInt8}
    (extra : List UInt8) (hrecord : RecordAt (file ++ extra) addr content) :
    Stores (put IdAdressPair.docid slotOf entry ⟨docid, addr⟩) (file ++ extra)
      (Function.update docs docid (some content)) where
  wellFormed := h.wellFormed.put _
  absent := by
    intro docid' hnone
    by_cases hd : docid' = docid
    · rw [hd, update_self] at hnone
      cases hnone
    · rw [update_of_ne hd] at hnone
      rw [find_put, if_neg hd]
      exact h.absent docid' hnone
  present := by
    intro docid' content' hsome
    by_cases hd : docid' = docid
    · subst hd
      rw [update_self, Option.some.injEq] at hsome
      subst hsome
      exact ⟨addr, by rw [find_put, if_pos rfl], hrecord⟩
    · rw [update_of_ne hd] at hsome
      obtain ⟨addr', hfind, hrecord'⟩ := h.present docid' content' hsome
      refine ⟨addr', ?_, hrecord'.append extra⟩
      rw [find_put, if_neg hd]
      exact hfind

theorem Stores.erase (h : Stores entry file docs) (docid : ℕ) :
    Stores (erase IdAdressPair.docid slotOf entry docid) file
      (Function.update docs docid none) where
  wellFormed := h.wellFormed.erase docid
  absent := by
    intro docid' hnone
    rw [find_erase h.wellFormed]
    by_cases hd : docid' = docid
    · rw [if_pos hd]
    · rw [update_of_ne hd] at hnone
      rw [if_neg hd]
      exact h.absent docid' hnone
  present := by
    intro docid' content' hsome
    rw [find_erase h.wellFormed]
    by_cases hd : docid' = docid
    · rw [hd, update_self] at hsome
      cases hsome
    · rw [update_of_ne hd] at hsome
      rw [if_neg hd]
      exact h.present docid' content' hsome

/-- Every address in the slots leads to a record. -/
theorem Stores.exists_record (h : Stores entry file docs) {docid : ℕ} {unit : IdAdressPair}
    (hfind : HashSlots.find IdAdressPair.docid slotOf entry docid = some unit) :
    unit.docid = docid ∧ ∃ content, docs docid = some content ∧
      RecordAt file unit.addr content := by
  cases hdoc : docs docid with
  | none =>
    rw [h.absent docid hdoc] at hfind
    cases hfind
  | some content =>
    obtain ⟨addr, hfind', hrecord⟩ := h.present docid content hdoc
    rw [hfind', Option.some.injEq] at hfind
    subst hfind
    exact ⟨rfl, content, rfl, hrecord⟩

end Slots

/-- The read of a record goes no further than the file. Its length has `junk` in the upper half. -/
def RecordFits (junk : UInt16) (file : List UInt8) (addr : ℕ) : Prop :=
  addr + 2 + (junk.toNat * 2 ^ 16 + readLen (segment file addr 2)) ≤ file.length

namespace DocTable

theorem ok_bind {α β : Type} (a : α) (f : α → Except DocFault β) : (Except.ok a >>= f) = f a :=
  rfl

theorem mapAdd_of_absent {compact : DocTable → Except DocFault DocTable} {unit : IdAdressPair}
    {t : DocTable} (h : HashSlots.find IdAdressPair.docid slotOf t.entry unit.docid = none) :
    mapAdd compact unit t =
      .ok { t with entry := HashSlots.put IdAdressPair.docid slotOf t.entry unit } := by
  rw [mapAdd, h]
  rfl

section Copy

variable {junk : UInt16} {t : DocTable} {file : List UInt8} {unit : AdressIdPair}
  {docs docs' : DocMap} {content : List UInt8}

/-- A read of a record that fits starts with its content. -/
theorem exists_readAt (hrecord : RecordAt t.file unit.addr content)
    (hfits : RecordFits junk t.file unit.addr) :
    ∃ extra, readAt .readPastFile t.file (unit.addr + 2)
      (junk.toNat * 2 ^ 16 + content.length) = .ok (content ++ extra) := by
  rw [RecordFits, hrecord.readLen_segment] at hfits
  refine ⟨segment t.file (unit.addr + 2 + content.length) (junk.toNat * 2 ^ 16), ?_⟩
  have hbody := hrecord.body.2
  rw [readAt, if_pos hfits, Nat.add_comm (junk.toNat * 2 ^ 16), segment_add, hbody]

theorem copyRecord_of_fits (hstores : Stores t.entry file docs) (hnew : docs unit.docid = none)
    (hrecord : RecordAt t.file unit.addr content) (hfits : RecordFits junk t.file unit.addr) :
    ∃ entry file', copyRecord junk (t, file) unit = .ok ({ t with entry := entry }, file') ∧
      Stores entry file' (update docs unit.docid (some content)) := by
  obtain ⟨extra, hread⟩ := exists_readAt hrecord hfits
  have hhead := hrecord.readAt_head .readPastFile
  have hadd : mapAdd (fun _ => .error .nestedCompact) ⟨unit.docid, file.length⟩ t =
      .ok { t with entry := HashSlots.put IdAdressPair.docid slotOf t.entry
                     ⟨unit.docid, file.length⟩ } :=
    mapAdd_of_absent (hstores.absent unit.docid hnew)
  refine ⟨HashSlots.put IdAdressPair.docid slotOf t.entry ⟨unit.docid, file.length⟩,
    file ++ (writeLen content.length ++ content ++ extra), ?_, ?_⟩
  · rw [copyRecord, hhead, ok_bind, readLen_writeLen hrecord.1]
    dsimp only
    rw [hread, hadd, ok_bind, writeLen_add, append_assoc]
    rfl
  · refine hstores.put _ ?_
    rw [← append_assoc, ← append_assoc]
    exact recordAt_append file hrecord.1 extra

theorem copyRecord_of_not_fits (hrecord : RecordAt t.file unit.addr content)
    (hfits : ¬ RecordFits junk t.file unit.addr) :
    copyRecord junk (t, file) unit = .error .readPastFile := by
  rw [RecordFits, hrecord.readLen_segment, not_le] at hfits
  have hhead := hrecord.readAt_head .readPastFile
  have hread := readAt_of_lt .readPastFile hfits
  rw [copyRecord, hhead, ok_bind, readLen_writeLen hrecord.1]
  dsimp only
  rw [hread]
  rfl

section

variable {units : List AdressIdPair} (hnodup : (units.map AdressIdPair.docid).Nodup)
    (hstores : Stores t.entry file docs) (hnew : ∀ unit ∈ units, docs unit.docid = none)
include hnodup hstores hnew

/-- Copying the records one after another, if they all fit. -/
theorem foldlM_copyRecord (hrecord : ∀ unit ∈ units, ∃ content, docs' unit.docid = some content ∧
      RecordAt t.file unit.addr content)
    (hfits : ∀ unit ∈ units, RecordFits junk t.file unit.addr) :
    ∃ entry file', units.foldlM (copyRecord junk) (t, file) =
        .ok ({ t with entry := entry }, file') ∧
      Stores entry file' fun docid =>
        if docid ∈ units.map AdressIdPair.docid then docs' docid else docs docid := by
  induction units generalizing t file docs with
  | nil => exact ⟨t.entry, file, rfl, hstores⟩
  | cons unit units ih =>
    rw [map_cons, nodup_cons] at hnodup
    obtain ⟨content, hdoc, hrecord'⟩ := hrecord unit mem_cons_self
    obtain ⟨entry, file', hcopy, hstores'⟩ := copyRecord_of_fits hstores
      (hnew unit mem_cons_self) hrecord' (hfits unit mem_cons_self)
    have hnew' : ∀ unit' ∈ units,
        update docs unit.docid (some content) unit'.docid = none := by
      intro unit' hunit'
      rw [update_of_ne]
      · exact hnew unit' (mem_cons_of_mem unit hunit')
      · intro heq
        exact hnodup.1 (heq ▸ mem_map_of_mem hunit')
    obtain ⟨entry', file'', hfold, hall⟩ := @ih { t with entry := entry } file' _ hnodup.2 hstores'
      hnew' (fun unit' hunit' => hrecord unit' (mem_cons_of_mem unit hunit'))
      (fun unit' hunit' => hfits unit' (mem_cons_of_mem unit hunit'))
    refine ⟨entry', file'', ?_, ?_⟩
    · rw [foldlM_cons, hcopy]
      exact hfold
    · convert hall using 2 with docid
      by_cases hd : docid = unit.docid
      · rw [hd, map_cons, if_pos mem_cons_self, if_neg hnodup.1, update_self, hdoc]
      · rw [update_of_ne hd, map_cons]
        simp only [mem_cons, hd, false_or]

/-- One record that does not fit is enough to fail. -/
theorem foldlM_copyRecord_error
    (hrecord : ∀ unit ∈ units, ∃ content, RecordAt t.file unit.addr content)
    (hfits : ∃ unit ∈ units, ¬ RecordFits junk t.file unit.addr) :
    units.foldlM (copyRecord junk) (t, file) = .error .readPastFile := by
  induction units generalizing t file docs with
  | nil =>
    obtain ⟨unit, hunit, -⟩ := hfits
    cases hunit
  | cons unit units ih =>
    rw [map_cons, nodup_cons] at hnodup
    obtain ⟨content, hrecord'⟩ := hrecord unit mem_cons_self
    by_cases hfirst : RecordFits junk t.file unit.addr
    · obtain ⟨entry, file', hcopy, hstores'⟩ := copyRecord_of_fits hstores
        (hnew unit mem_cons_self) hrecord' hfirst
      rw [foldlM_cons, hcopy]
      refine @ih { t with entry := entry } file' _ hnodup.2 hstores' ?_
        (fun unit' hunit' => hrecord unit' (mem_cons_of_mem unit hunit')) ?_
      · intro unit' hunit'
        rw [update_of_ne]
        · exact hnew unit' (mem_cons_of_mem unit hunit')
        · intro heq
          exact hnodup.1 (heq ▸ mem_map_of_mem hunit')
      · obtain ⟨unit', hunit', hnot⟩ := hfits
        rcases mem_cons.mp hunit' with rfl | hunit'
        · exact absurd hfirst hnot
        · exact ⟨unit', hunit', hnot⟩
    · rw [foldlM_cons, copyRecord_of_not_fits hrecord' hfirst]
      rfl

end

end Copy

section Compact

variable {junk : UInt16} {t : DocTable} {docs : DocMap}

section

variable (h : Stores t.entry t.file docs)
include h

theorem getAddr_eq_some_iff {docid addr : ℕ} : t.getAddr docid = some addr ↔
      HashSlots.find IdAdressPair.docid slotOf t.entry docid = some ⟨docid, addr⟩ := by
  rw [getAddr, Option.map_eq_some_iff]
  constructor
  · rintro ⟨unit, hfind, rfl⟩
    obtain ⟨rfl, -⟩ := h.exists_record hfind
    exact hfind
  · intro hfind
    exact ⟨_, hfind, rfl⟩

/-- The records that are copied are those of the documents in the slots. -/
theorem mem_addresses {unit : AdressIdPair} (hunit : unit ∈ addresses t) :
    t.getAddr unit.docid = some unit.addr := by
  rw [addresses, mem_insertionSort, mem_map] at hunit
  obtain ⟨entry, hentry, rfl⟩ := hunit
  rw [getAddr_eq_some_iff h]
  exact (mem_entries h.wellFormed).mp hentry

theorem exists_mem_addresses {docid addr : ℕ} (haddr : t.getAddr docid = some addr) :
    ∃ unit ∈ addresses t, unit.docid = docid ∧ unit.addr = addr := by
  rw [getAddr_eq_some_iff h] at haddr
  refine ⟨⟨addr, docid, 2 ^ 32 - 1⟩, ?_, rfl, rfl⟩
  rw [addresses, mem_insertionSort, mem_map]
  exact ⟨⟨docid, addr⟩, ((find_eq_some_iff h.wellFormed).mp haddr).1, rfl⟩

theorem nodup_addresses : ((addresses t).map AdressIdPair.docid).Nodup := by
  have hperm := (perm_insertionSort (fun unit unit' : AdressIdPair => unit.addr ≤ unit'.addr)
    ((entries t.entry).map fun unit => ⟨unit.addr, unit.docid, 2 ^ 32 - 1⟩)).map AdressIdPair.docid
  rw [addresses, hperm.nodup_iff, List.map_map]
  exact nodup_entries h.wellFormed

theorem exists_record_of_getAddr {docid addr : ℕ} (haddr : t.getAddr docid = some addr) :
    ∃ content, docs docid = some content ∧ RecordAt t.file addr content :=
  (h.exists_record ((getAddr_eq_some_iff h).mp haddr)).2

theorem getAddr_of_present {docid : ℕ} {content : List UInt8} (hdoc : docs docid = some content) :
    ∃ addr, t.getAddr docid = some addr ∧ RecordAt t.file addr content := by
  obtain ⟨addr, hfind, hrecord⟩ := h.present docid content hdoc
  exact ⟨addr, (getAddr_eq_some_iff h).mpr hfind, hrecord⟩

theorem getAddr_of_absent {docid : ℕ} (hdoc : docs docid = none) : t.getAddr docid = none := by
  rw [getAddr, h.absent docid hdoc, Option.map_none]

/-- Compaction keeps every document, if all records fit. -/
theorem compact_of_fits
    (hfits : ∀ docid addr, t.getAddr docid = some addr → RecordFits junk t.file addr) :
    ∃ t', compact junk t = .ok t' ∧ Stores t'.entry t'.file docs ∧ t'.buf = none := by
  let t₁ : DocTable := saveMap { t with updatedNum := 0 }
  obtain ⟨entry, file, hfold, hstores⟩ := @foldlM_copyRecord junk
    { t₁ with
      buf := none
      entry := ∅ } [] (fun _ => none) docs (addresses t) (nodup_addresses h) (stores_empty [])
    (fun _ _ => rfl) (fun unit hunit => exists_record_of_getAddr h (mem_addresses h hunit))
    (fun unit hunit => hfits _ _ (mem_addresses h hunit))
  have hdocs : (fun docid => if docid ∈ (addresses t).map AdressIdPair.docid then docs docid
      else none) = docs := by
    ext docid : 1
    split
    · rfl
    · rename_i hnot
      cases hdoc : docs docid with
      | none => rfl
      | some content =>
        obtain ⟨addr, haddr, -⟩ := getAddr_of_present h hdoc
        obtain ⟨unit, hunit, rfl, -⟩ := exists_mem_addresses h haddr
        exact absurd (mem_map_of_mem hunit) hnot
  rw [hdocs] at hstores
  refine ⟨saveMap { t₁ with
      buf := none
      entry := entry
      file := file }, ?_, hstores, rfl⟩
  have hfold' : (addresses t₁).foldlM (copyRecord junk)
      ({ t₁ with
         buf := none
         entry := ∅ }, []) = _ := hfold
  simp only [compact]
  rw [hfold']
  rfl

/-- Compaction fails at a record that does not fit. -/
theorem compact_of_not_fits
    (hfits : ∃ docid addr, t.getAddr docid = some addr ∧ ¬ RecordFits junk t.file addr) :
    compact junk t = .error .readPastFile := by
  let t₁ : DocTable := saveMap { t with updatedNum := 0 }
  obtain ⟨docid, addr, haddr, hnot⟩ := hfits
  obtain ⟨unit, hunit, -, rfl⟩ := exists_mem_addresses h haddr
  have hfold : (addresses t₁).foldlM (copyRecord junk)
      ({ t₁ with
         buf := none
         entry := ∅ }, []) = .error .readPastFile := by
    refine foldlM_copyRecord_error (nodup_addresses h) (stores_empty []) (fun _ _ => rfl) ?_
      ⟨unit, hunit, hnot⟩
    intro unit hunit
    obtain ⟨content, -, hrecord⟩ := exists_record_of_getAddr h (mem_addresses h hunit)
    exact ⟨content, hrecord⟩
  simp only [compact]
  rw [hfold]
  rfl

end

end Compact

end DocTable

end AdDelivery.Mining
