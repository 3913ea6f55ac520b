import AdDelivery.Core.Run
import AdDelivery.Mining.DocTableReads

/-!
# The document table as a map

In any sequence of calls every answer is that of a map from documents to contents, until a call asks
for a document that has been inserted behind the loaded buffer, or a compaction takes a length for
longer than the file. Both stop the table, so these two conditions are exact.
-/

namespace AdDelivery.Mining

open List Function HashSlots

/-- The calls. A call that may compact the table comes with what is in memory then. -/
inductive DocCall
  | insertDoc (junk : UInt16) (docid : ℕ) (content : DocContent)
  | deleteDoc (junk : UInt16) (docid : ℕ)
  | getDoc (docid : ℕ)
  | getDocs (docIdList : List ℕ)
  | flush
  | reopen
  | setUpdateBound (bound : ℕ)

inductive DocAnswer
  | done
  | doc (len : ℕ) (content : Option (List UInt8))
  | docs (contents : List (Option (List UInt8))) (lens : List ℕ)
deriving DecidableEq

open DocTable

def DocTable.call (cacheSize : ℕ) (t : DocTable) : DocCall → Except DocFault (DocTable × DocAnswer)
  | .insertDoc junk docid content => (t.insertDoc junk docid content).map fun t => (t, .done)
  | .deleteDoc junk docid => (t.deleteDoc junk docid).map fun t => (t, .done)
  | .getDoc docid =>
    (DocTable.getDoc cacheSize docid t).map fun answer => (answer.1, .doc answer.2.1 answer.2.2)
  | .getDocs docIdList =>
    (DocTable.getDocs cacheSize docIdList t).map fun answer =>
      (answer.1, .docs answer.2.1 answer.2.2)
  | .flush => .ok (t.flush, .done)
  | .reopen => .ok (t.reopen, .done)
  | .setUpdateBound bound => .ok (t.setUpdateBound bound, .done)

/-- The contents after a call. Inserting nothing changes nothing. -/
def DocMap.call (docs : DocMap) : DocCall → DocMap
  | .insertDoc _ docid content =>
    if content.bytes = [] then docs else update docs docid (some content.bytes)
  | .deleteDoc _ docid => update docs docid none
  | _ => docs

/-- The answer to a call. A batch has the answer for one document at each place. -/
def DocMap.answer (docs : DocMap) : DocCall → DocAnswer
  | .getDoc docid => .doc (docOf docs docid).1 (docOf docs docid).2
  | .getDocs docIdList =>
    .docs (docIdList.map fun docid => (docOf docs docid).2)
      (docIdList.map fun docid => (docOf docs docid).1)
  | _ => .done

/-- A table together with the contents it should have, its answers and those expected. -/
structure DocSession where
  table : DocTable := {}
  docs : DocMap := fun _ => none
  answers : List DocAnswer := []
  expected : List DocAnswer := []

def DocSession.call (cacheSize : ℕ) (session : DocSession) (call : DocCall) :
    Except DocFault DocSession :=
  (session.table.call cacheSize call).map fun result =>
    { table := result.1
      docs := session.docs.call call
      answers := session.answers ++ [result.2]
      expected := session.expected ++ [session.docs.answer call] }

/-- A fault stops the session. -/
def DocCalls (cacheSize : ℕ) (s : Except DocFault DocSession) (call : DocCall)
    (s' : Except DocFault DocSession) : Prop :=
  s' = s.bind fun session => session.call cacheSize call

def AnswersRight (s : Except DocFault DocSession) : Prop :=
  ∃ session, s = .ok session ∧ session.answers = session.expected

namespace DocTable

/-- The next update compacts the table. -/
def UpdateCompacts (t : DocTable) : Prop := t.updatedBound ≤ (t.updatedNum + 1) % 2 ^ 32

instance (t : DocTable) : Decidable t.UpdateCompacts :=
  inferInstanceAs (Decidable (t.updatedBound ≤ (t.updatedNum + 1) % 2 ^ 32))

/-- The documents asked for are covered by the buffer, and the upper half of the length does not
make a compaction read behind the file. After an insertion that can only be if it is zero, because
the new record is the last of the file. -/
def CallFits (cacheSize : ℕ) (t : DocTable) : DocCall → Prop
  | .insertDoc junk docid content =>
    content.bytes ≠ [] → (t.getAddr docid).isSome → t.UpdateCompacts → junk = 0
  | .deleteDoc junk docid => t.UpdateCompacts →
    ∀ docid' addr, docid' ≠ docid → t.getAddr docid' = some addr → RecordFits junk t.file addr
  | .getDoc docid => ∀ addr, t.getAddr docid = some addr → Covered cacheSize t addr
  | .getDocs docIdList =>
    ∀ docid ∈ docIdList, ∀ addr, t.getAddr docid = some addr → Covered cacheSize t addr
  | _ => True

/-- What is known of a table in any session. -/
structure Represents (cacheSize : ℕ) (t : DocTable) (docs : DocMap) : Prop where
  stores : Stores t.entry t.file docs
  bufferOk : BufferOk cacheSize t docs

variable {cacheSize : ℕ} {t : DocTable} {docs : DocMap}

/-- The table with a new record at the end of the file. -/
def recorded (t : DocTable) (docid : ℕ) (content : DocContent) (updatedNum : ℕ) : DocTable :=
  { t with
    file := t.file ++ (writeLen content.bytes.length ++ content.bytes)
    entry := put IdAdressPair.docid slotOf t.entry ⟨docid, t.file.length⟩
    updatedNum := updatedNum }

section Insert

variable {junk : UInt16} {docid : ℕ} {content : DocContent}

theorem insertDoc_of_absent (hne : content.bytes ≠ []) (habsent : t.getAddr docid = none) :
    t.insertDoc junk docid content = .ok (t.recorded docid content t.updatedNum) := by
  have hfind : HashSlots.find IdAdressPair.docid slotOf t.entry docid = none := by
    rwa [getAddr, Option.map_eq_none_iff] at habsent
  rw [insertDoc, if_neg (mt length_eq_zero_iff.mp hne), append_assoc]
  exact mapAdd_of_absent hfind

theorem insertDoc_of_present (hne : content.bytes ≠ []) (hpresent : (t.getAddr docid).isSome) :
    t.insertDoc junk docid content =
      if t.UpdateCompacts then
        compact junk (t.recorded docid content ((t.updatedNum + 1) % 2 ^ 32))
      else .ok (t.recorded docid content ((t.updatedNum + 1) % 2 ^ 32)) := by
  have hfind : (HashSlots.find IdAdressPair.docid slotOf t.entry docid).isSome := by
    rwa [getAddr, Option.isSome_map] at hpresent
  rw [insertDoc, if_neg (mt length_eq_zero_iff.mp hne), append_assoc, mapAdd]
  simp only [hfind, if_true]
  rfl

theorem getAddr_recorded (docid' updatedNum : ℕ) :
    (t.recorded docid content updatedNum).getAddr docid' =
      if docid' = docid then some t.file.length else t.getAddr docid' := by
  rw [getAddr, recorded, find_put]
  split
  · rfl
  · rfl

theorem Represents.recorded (h : Represents cacheSize t docs) (docid : ℕ) (content : DocContent)
    (updatedNum : ℕ) : Represents cacheSize (t.recorded docid content updatedNum)
      (update docs docid (some content.bytes)) where
  stores := by
    refine h.stores.put _ ?_
    have hrecord := recordAt_append t.file content.length_lt []
    rwa [append_nil, append_assoc] at hrecord
  bufferOk := by
    refine ⟨fun buf hbuf => ?_, fun buf hbuf => ?_⟩
    · obtain ⟨rest, hrest⟩ := h.bufferOk.loaded buf hbuf
      refine ⟨rest ++ (writeLen content.bytes.length ++ content.bytes), ?_⟩
      rw [DocTable.recorded, hrest, append_assoc]
    · obtain ⟨rest, hrest⟩ := h.bufferOk.loaded buf hbuf
      refine (h.bufferOk.cut buf hbuf).imp_right fun hcut docid' addr content' haddr hdoc => ?_
      rw [getAddr_recorded] at haddr
      by_cases hd : docid' = docid
      · rw [if_pos hd, Option.some.injEq] at haddr
        rw [← haddr, hrest, length_append]
        exact .inr (Nat.le_add_right _ _)
      · rw [if_neg hd] at haddr
        rw [update_of_ne hd] at hdoc
        exact hcut docid' addr content' haddr hdoc

/-- The new record is the last one, so it has nothing behind it to read. -/
theorem recordFits_recorded_iff (h : Represents cacheSize t docs) (docid : ℕ)
    (content : DocContent) (updatedNum : ℕ) :
    (∀ docid' addr, (t.recorded docid content updatedNum).getAddr docid' = some addr →
      RecordFits junk (t.recorded docid content updatedNum).file addr) ↔ junk = 0 := by
  have hstores := (h.recorded docid content updatedNum).stores
  constructor
  · intro hfits
    have haddr : (t.recorded docid content updatedNum).getAddr docid = some t.file.length := by
      rw [getAddr_recorded, if_pos rfl]
    have hfit := hfits docid t.file.length haddr
    obtain ⟨content', hdoc, hrecord⟩ := exists_record_of_getAddr hstores haddr
    rw [update_self, Option.some.injEq] at hdoc
    subst hdoc
    rw [RecordFits, hrecord.readLen_segment, DocTable.recorded, length_append,
      length_append, length_writeLen] at hfit
    apply UInt16.toNat_inj.mp
    have hzero : junk.toNat = 0 := by omega
    rw [hzero]
    rfl
  · rintro rfl docid' addr haddr
    obtain ⟨content', -, hrecord⟩ := exists_record_of_getAddr hstores haddr
    have hzero : (0 : UInt16).toNat = 0 := rfl
    rw [RecordFits, hrecord.readLen_segment, hzero, Nat.zero_mul, Nat.zero_add]
    exact hrecord.le_length

theorem Represents.of_compacted {t' : DocTable} (hstores : Stores t'.entry t'.file docs)
    (hbuf : t'.buf = none) : Represents cacheSize t' docs where
  stores := hstores
  bufferOk := bufferOk_of_none hbuf

theorem insertDoc_of_fits (h : Represents cacheSize t docs)
    (hfits : t.CallFits cacheSize (.insertDoc junk docid content)) :
    ∃ t', t.insertDoc junk docid content = .ok t' ∧
      Represents cacheSize t' (docs.call (.insertDoc junk docid content)) := by
  by_cases hne : content.bytes = []
  · refine ⟨t, ?_, ?_⟩
    · rw [insertDoc, if_pos (length_eq_zero_iff.mpr hne)]
    · rw [DocMap.call, if_pos hne]
      exact h
  · rw [DocMap.call, if_neg hne]
    cases haddr : t.getAddr docid with
    | none => exact ⟨_, insertDoc_of_absent hne haddr, h.recorded docid content _⟩
    | some addr =>
      have hpresent : (t.getAddr docid).isSome := by rw [haddr, Option.isSome_some]
      rw [insertDoc_of_present hne hpresent]
      by_cases hcompact : t.UpdateCompacts
      · rw [if_pos hcompact]
        have hjunk := hfits hne hpresent hcompact
        obtain ⟨t', ht', hstores, hbuf⟩ := compact_of_fits
          (h.recorded docid content ((t.updatedNum + 1) % 2 ^ 32)).stores
          ((recordFits_recorded_iff h docid content _).mpr hjunk)
        exact ⟨t', ht', .of_compacted hstores hbuf⟩
      · rw [if_neg hcompact]
        exact ⟨_, rfl, h.recorded docid content _⟩

theorem insertDoc_of_not_fits (h : Represents cacheSize t docs)
    (hfits : ¬ t.CallFits cacheSize (.insertDoc junk docid content)) :
    t.insertDoc junk docid content = .error .readPastFile := by
  rw [CallFits] at hfits
  push Not at hfits
  obtain ⟨hne, hpresent, hcompact, hjunk⟩ := hfits
  have hnot := mt (recordFits_recorded_iff h docid content ((t.updatedNum + 1) % 2 ^ 32)).mp hjunk
  push Not at hnot
  rw [insertDoc_of_present hne hpresent, if_pos hcompact]
  exact compact_of_not_fits (h.recorded docid content _).stores hnot

end Insert

section Delete

variable {junk : UInt16} {docid : ℕ}

/-- The table without one document. -/
def withdrawn (t : DocTable) (docid : ℕ) : DocTable :=
  { t.mapDel docid with updatedNum := (t.updatedNum + 1) % 2 ^ 32 }

theorem deleteDoc_eq (t : DocTable) (junk : UInt16) (docid : ℕ) : t.deleteDoc junk docid =
      if t.UpdateCompacts then compact junk (t.withdrawn docid) else .ok (t.withdrawn docid) :=
  rfl

section

variable (h : Represents cacheSize t docs)
include h

theorem getAddr_withdrawn (docid' : ℕ) :
    (t.withdrawn docid).getAddr docid' = if docid' = docid then none else t.getAddr docid' := by
  rw [getAddr, withdrawn, mapDel, find_erase h.stores.wellFormed]
  split
  · rfl
  · rfl

theorem Represents.withdrawn (docid : ℕ) :
    Represents cacheSize (t.withdrawn docid) (update docs docid none) where
  stores := h.stores.erase docid
  bufferOk := by
    refine ⟨h.bufferOk.loaded, fun buf hbuf => ?_⟩
    refine (h.bufferOk.cut buf hbuf).imp_right fun hcut docid' addr content haddr hdoc => ?_
    rw [getAddr_withdrawn h] at haddr
    by_cases hd : docid' = docid
    · rw [if_pos hd] at haddr
      cases haddr
    · rw [if_neg hd] at haddr
      rw [update_of_ne hd] at hdoc
      exact hcut docid' addr content haddr hdoc

theorem recordFits_withdrawn_iff : (∀ docid' addr, (t.withdrawn docid).getAddr docid' = some addr →
      RecordFits junk (t.withdrawn docid).file addr) ↔
    ∀ docid' addr, docid' ≠ docid → t.getAddr docid' = some addr → RecordFits junk t.file addr := by
  refine forall₂_congr fun docid' addr => ?_
  rw [getAddr_withdrawn h]
  by_cases hd : docid' = docid
  · rw [if_pos hd]
    exact iff_of_true nofun fun hne => absurd hd hne
  · rw [if_neg hd]
    exact ⟨fun hfits _ => hfits, fun hfits => hfits hd⟩

theorem deleteDoc_of_fits (hfits : t.CallFits cacheSize (.deleteDoc junk docid)) :
    ∃ t', t.deleteDoc junk docid = .ok t' ∧
      Represents cacheSize t' (docs.call (.deleteDoc junk docid)) := by
  rw [deleteDoc_eq]
  by_cases hcompact : t.UpdateCompacts
  · rw [if_pos hcompact]
    obtain ⟨t', ht', hstores, hbuf⟩ := compact_of_fits (h.withdrawn docid).stores
      ((recordFits_withdrawn_iff h).mpr (hfits hcompact))
    exact ⟨t', ht', .of_compacted hstores hbuf⟩
  · rw [if_neg hcompact]
    exact ⟨_, rfl, h.withdrawn docid⟩

theorem deleteDoc_of_not_fits (hfits : ¬ t.CallFits cacheSize (.deleteDoc junk docid)) :
    t.deleteDoc junk docid = .error .readPastFile := by
  rw [CallFits, Classical.not_imp] at hfits
  obtain ⟨hcompact, hfits⟩ := hfits
  have hnot := mt (recordFits_withdrawn_iff h).mp hfits
  push Not at hnot
  rw [deleteDoc_eq, if_pos hcompact]
  exact compact_of_not_fits (h.withdrawn docid).stores hnot

end

end Delete

section

variable (h : Represents cacheSize t docs)
include h

theorem Represents.initBuf : Represents cacheSize (t.initBuf cacheSize) docs where
  stores := by
    rw [initBuf_entry, initBuf_file]
    exact h.stores
  bufferOk := h.bufferOk.initBuf h.stores

/-- What has been saved is loaded again. -/
theorem Represents.reopen : Represents cacheSize t.reopen docs where
  stores := by
    have hentry : t.reopen.entry = t.entry := Table.foldl_insert_inOrder t.entry
    rw [hentry]
    exact h.stores
  bufferOk := bufferOk_of_none rfl

theorem Represents.flush : Represents cacheSize t.flush docs where
  stores := h.stores
  bufferOk := bufferOk_of_none rfl

theorem Represents.setUpdateBound (bound : ℕ) :
    Represents cacheSize (t.setUpdateBound bound) docs where
  stores := h.stores
  bufferOk := ⟨h.bufferOk.loaded, h.bufferOk.cut⟩

end

theorem represents_empty (cacheSize : ℕ) : Represents cacheSize {} fun _ => none where
  stores := stores_empty []
  bufferOk := bufferOk_of_none rfl

/-- A call that fits answers as the map does. -/
theorem call_of_fits (h : Represents cacheSize t docs) {call : DocCall}
    (hfits : t.CallFits cacheSize call) : ∃ t', t.call cacheSize call = .ok (t', docs.answer call) ∧
      Represents cacheSize t' (docs.call call) := by
  cases call with
  | insertDoc junk docid content =>
    obtain ⟨t', ht', hrepresents⟩ := insertDoc_of_fits h hfits
    refine ⟨t', ?_, hrepresents⟩
    rw [DocTable.call, ht']
    rfl
  | deleteDoc junk docid =>
    obtain ⟨t', ht', hrepresents⟩ := deleteDoc_of_fits h hfits
    refine ⟨t', ?_, hrepresents⟩
    rw [DocTable.call, ht']
    rfl
  | getDoc docid =>
    refine ⟨_, ?_, h.initBuf⟩
    rw [DocTable.call, getDoc_of_covered h.bufferOk h.stores hfits]
    rfl
  | getDocs docIdList =>
    refine ⟨_, ?_, h.initBuf⟩
    rw [DocTable.call, getDocs_of_covered h.bufferOk h.stores hfits]
    rfl
  | flush => exact ⟨_, rfl, h.flush⟩
  | reopen => exact ⟨_, rfl, h.reopen⟩
  | setUpdateBound bound => exact ⟨_, rfl, h.setUpdateBound bound⟩

/-- Any other call fails. -/
theorem call_of_not_fits (h : Represents cacheSize t docs) {call : DocCall}
    (hfits : ¬ t.CallFits cacheSize call) : ∃ fault, t.call cacheSize call = .error fault := by
  cases call with
  | insertDoc junk docid content =>
    refine ⟨.readPastFile, ?_⟩
    rw [DocTable.call, insertDoc_of_not_fits h hfits]
    rfl
  | deleteDoc junk docid =>
    refine ⟨.readPastFile, ?_⟩
    rw [DocTable.call, deleteDoc_of_not_fits h hfits]
    rfl
  | getDoc docid =>
    rw [CallFits] at hfits
    push Not at hfits
    obtain ⟨addr, haddr, hcovered⟩ := hfits
    refine ⟨.readPastBuffer, ?_⟩
    rw [DocTable.call, getDoc_of_not_covered h.stores haddr hcovered]
    rfl
  | getDocs docIdList =>
    rw [CallFits] at hfits
    push Not at hfits
    refine ⟨.readPastBuffer, ?_⟩
    rw [DocTable.call, getDocs_of_not_covered h.bufferOk h.stores hfits]
    rfl
  | flush => exact absurd trivial hfits
  | reopen => exact absurd trivial hfits
  | setUpdateBound bound => exact absurd trivial hfits

end DocTable

/-- The condition on a session that has not been stopped. -/
def SessionFits (cacheSize : ℕ) (s : Except DocFault DocSession) (call : DocCall) : Prop :=
  ∀ session, s = .ok session → session.table.CallFits cacheSize call

/-- In any session the table has the contents it should have. -/
def SessionRepresents (cacheSize : ℕ) (s : Except DocFault DocSession) : Prop :=
  ∀ session, s = .ok session → Represents cacheSize session.table session.docs

variable {cacheSize : ℕ} {call : DocCall} {session : DocSession}

theorem DocSession.call_of_fits (h : Represents cacheSize session.table session.docs)
    (hfits : session.table.CallFits cacheSize call) :
    ∃ t', Represents cacheSize t' (session.docs.call call) ∧ session.call cacheSize call = .ok
        { table := t'
          docs := session.docs.call call
          answers := session.answers ++ [session.docs.answer call]
          expected := session.expected ++ [session.docs.answer call] } := by
  obtain ⟨t', ht', hrepresents⟩ := DocTable.call_of_fits h hfits
  refine ⟨t', hrepresents, ?_⟩
  rw [DocSession.call, ht']
  rfl

theorem DocSession.call_of_not_fits (h : Represents cacheSize session.table session.docs)
    (hfits : ¬ session.table.CallFits cacheSize call) :
    ∃ fault, session.call cacheSize call = .error fault := by
  obtain ⟨fault, hfault⟩ := DocTable.call_of_not_fits h hfits
  refine ⟨fault, ?_⟩
  rw [DocSession.call, hfault]
  rfl

variable {s s' : Except DocFault DocSession}

theorem sessionRepresents_call (h : SessionRepresents cacheSize s)
    (hcall : DocCalls cacheSize s call s') : SessionRepresents cacheSize s' := by
  rintro session' rfl
  cases s with
  | error fault => cases hcall
  | ok session =>
    have hcall' : session.call cacheSize call = .ok session' := hcall.symm
    by_cases hfits : session.table.CallFits cacheSize call
    · obtain ⟨t', hrepresents, hok⟩ := DocSession.call_of_fits (h session rfl) hfits
      obtain rfl := Except.ok.inj (hok.symm.trans hcall')
      exact hrepresents
    · obtain ⟨fault, herror⟩ := DocSession.call_of_not_fits (h session rfl) hfits
      rw [herror] at hcall'
      cases hcall'

/-- In a session that has answered right, a call is answered right exactly when it fits. -/
theorem answersRight_call_iff (h : SessionRepresents cacheSize s) (hright : AnswersRight s)
    (hcall : DocCalls cacheSize s call s') : AnswersRight s' ↔ SessionFits cacheSize s call := by
  obtain ⟨session, rfl, hanswers⟩ := hright
  have hcall' : s' = session.call cacheSize call := hcall
  by_cases hfits : session.table.CallFits cacheSize call
  · obtain ⟨t', -, hok⟩ := DocSession.call_of_fits (h session rfl) hfits
    refine iff_of_true ⟨_, hcall'.trans hok, ?_⟩ ?_
    · rw [hanswers]
    · rintro _ ⟨⟩
      exact hfits
  · obtain ⟨fault, herror⟩ := DocSession.call_of_not_fits (h session rfl) hfits
    refine iff_of_false ?_ fun hall => hfits (hall session rfl)
    rintro ⟨session', hok, -⟩
    rw [hcall', herror] at hok
    cases hok

/-- In a sequence of calls on an empty table all answers are those of the map exactly when all calls
fit. -/
theorem docTable_along_iff_callsFit (cacheSize : ℕ) (calls : List DocCall) :
    HoldsAlong (DocCalls cacheSize) AnswersRight (.ok {}) calls ↔
      StepsMeet (DocCalls cacheSize) (SessionFits cacheSize) (.ok {}) calls := by
  have hstart : SessionRepresents cacheSize (.ok {}) := by
    rintro _ ⟨⟩
    exact represents_empty cacheSize
  have hright : AnswersRight (.ok {}) := ⟨{}, rfl, rfl⟩
  exact @holdsAlong_iff_stepsMeet _ _ (DocCalls cacheSize) AnswersRight
    (SessionRepresents cacheSize) (SessionFits cacheSize)
    (fun _ _ _ h hcall => sessionRepresents_call h hcall)
    (fun _ _ _ h hright hcall => answersRight_call_iff h hright hcall) _ hstart hright calls

/-- A document that is inserted after the buffer has been loaded. -/
def insertedBehind : List DocCall :=
  [.insertDoc 0 1 ⟨[7], by simp⟩, .getDoc 1, .insertDoc 0 2 ⟨[8], by simp⟩, .getDoc 2]

theorem call_insertedBehind :
    (insertedBehind.foldl (fun s call => s.bind fun session => session.call 550000000 call)
      (.ok {} : Except DocFault DocSession)).toBool = false := by
  decide +kernel

/-- With the cache size of the source the length of its record is read behind the three bytes of the
buffer. -/
theorem not_docTable_along_insertedBehind :
    ¬ HoldsAlong (DocCalls 550000000) AnswersRight (.ok {}) insertedBehind := by
  intro hall
  obtain ⟨session, hok, -⟩ := hall insertedBehind [] _ (append_nil _)
    (.cons rfl (.cons rfl (.cons rfl (.cons rfl (.nil _)))))
  have hstopped := call_insertedBehind
  have hfold : insertedBehind.foldl (fun s call => s.bind fun session =>
      session.call 550000000 call) (.ok {} : Except DocFault DocSession) = .ok session := hok
  rw [hfold] at hstopped
  cases hstopped

end AdDelivery.Mining
