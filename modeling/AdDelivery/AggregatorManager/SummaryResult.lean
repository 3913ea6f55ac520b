import AdDelivery.AggregatorManager.SearchPage
import AdDelivery.Core.Dealing

/-!
# The texts of a page

Every worker that has documents on a page answers with their texts and with the positions it was
asked for. The master walks through the page and takes each position from the worker whose next
text it is.
-/

namespace AdDelivery.SummaryResult

open List List Option Nat Scatter Prod
open SearchMerger (WorkerId WDocId)
open DistSearch (WorkerPage docsInPage splitSearchResultByWorkerid splitSearchResultByWorkerid_get)

/-- The members that the texts of a page need. The first index of the texts is that of the
property, the second one that of the document. -/
structure KeywordSearchResult (T : Type) where
  error : String := ""
  count : ℕ := 0
  pageOffsetList : List ℕ := []
  snippetTextOfDocumentInPage : List (List T) := []
  fullTextOfDocumentInPage : List (List T) := []
  rawTextOfSummaryInPage : List (List T) := []

instance inhabitedResult {T : Type} : Inhabited (KeywordSearchResult T) := ⟨{}⟩

variable {T : Type} [Inhabited T]

/-- The first worker whose next text is for position `i`. -/
def findWorker (workerResults : List (KeywordSearchResult T)) (workerOffsetVec : ℕ → ℕ) (i : ℕ) :
    Option ℕ :=
  (range workerResults.length).find? fun curWorker =>
    (workerResults.getD curWorker default).pageOffsetList[workerOffsetVec curWorker]? == some i

/-- The worker and the offset there for `n` positions from `i` on, up to one nobody claims. -/
def claimed (workerResults : List (KeywordSearchResult T)) : ℕ → ℕ → (ℕ → ℕ) → List (ℕ × ℕ)
  | 0, _, _ => []
  | n + 1, i, workerOffsetVec =>
    match findWorker workerResults workerOffsetVec i with
    | none => []
    | some curWorker => (curWorker, workerOffsetVec curWorker) ::
        claimed workerResults n (i + 1)
          (Function.update workerOffsetVec curWorker (workerOffsetVec curWorker + 1))

/-- A text that the worker does not have leaves the place as it is. -/
def copyText (source : List (List T)) (workerOffset i : ℕ) (target : List (List T)) :
    List (List T) :=
  target.mapIdx fun dis texts =>
    match (source[dis]?).bind fun texts => texts[workerOffset]? with
    | some text => texts.set i text
    | none => texts

/-- Fill `num` lists of `pageCount` places. -/
def copyTexts (texts : KeywordSearchResult T → List (List T))
    (workerResults : List (KeywordSearchResult T)) (pageCount num : ℕ)
    (places : List (ℕ × ℕ)) : List (List T) :=
  places.zipIdx.foldl
    (fun target entry =>
      copyText (texts (workerResults.getD entry.1.1 default)) entry.1.2 entry.2 target)
    (replicate num (replicate pageCount default))

open KeywordSearchResult

def getSummaryResult (workerResults : List (KeywordSearchResult T))
    (mergeResult : KeywordSearchResult T) : KeywordSearchResult T :=
  if workerResults.length = 0 then mergeResult
  else
    match workerResults.find? fun w => w.error ≠ "" with
    | some w => { mergeResult with error := w.error }
    | none =>
      let pageCount := mergeResult.count
      let result0 := workerResults.getD 0 default
      let displayPropertyNum := result0.snippetTextOfDocumentInPage.length
      let isSummaryOn := result0.rawTextOfSummaryInPage.length
      let places := claimed workerResults pageCount 0 fun _ => 0
      { mergeResult with
        snippetTextOfDocumentInPage :=
          copyTexts snippetTextOfDocumentInPage workerResults pageCount
            displayPropertyNum places
        fullTextOfDocumentInPage :=
          copyTexts fullTextOfDocumentInPage workerResults pageCount
            displayPropertyNum places
        rawTextOfSummaryInPage :=
          copyTexts rawTextOfSummaryInPage workerResults pageCount
            isSummaryOn places }

/-- The text of a property at a position, the empty one where there is none. -/
def textAt (texts : List (List T)) (dis i : ℕ) : T := (texts.getD dis []).getD i default

omit [Inhabited T] in
theorem getElem?_copyText (source : List (List T)) (workerOffset i : ℕ) (target : List (List T))
    (dis : ℕ) : (copyText source workerOffset i target)[dis]? = (target[dis]?).map fun texts =>
        ((source[dis]?).bind fun texts => texts[workerOffset]?).elim texts (texts.set i) := by
  rw [copyText, getElem?_mapIdx]
  cases target[dis]? with
  | none => rfl
  | some texts =>
    simp only [map_some]
    cases (source[dis]?).bind fun texts => texts[workerOffset]? <;> rfl

theorem getElem?_concat_eq {α : Type*} (l : List α) (a : α) (i : ℕ) :
    (l ++ [a])[i]? = if i = l.length then some a else l[i]? := by
  rcases Nat.lt_trichotomy i l.length with h | rfl | h
  · rw [getElem?_append_left h, if_neg (Nat.ne_of_lt h)]
  · rw [getElem?_concat_length, if_pos rfl]
  · rw [if_neg (Nat.ne_of_gt h), getElem?_eq_none, getElem?_eq_none h.le]
    rw [length_append]
    exact h

variable (texts : KeywordSearchResult T → List (List T))

theorem copyTexts_concat (workerResults : List (KeywordSearchResult T)) (pageCount num : ℕ)
    (places : List (ℕ × ℕ)) (place : ℕ × ℕ) :
    copyTexts texts workerResults pageCount num (places ++ [place]) =
      copyText (texts (workerResults.getD place.1 default)) place.2 places.length
        (copyTexts texts workerResults pageCount num places) := by
  simp [copyTexts, zipIdx_append]

variable {dis : ℕ}

/-- What the lists show after the copies: a claimed place has the text of its worker. -/
theorem getElem?_copyTexts (workerResults : List (KeywordSearchResult T)) {pageCount num : ℕ}
    {places : List (ℕ × ℕ)} (hplaces : places.length ≤ pageCount) (hdis : dis < num) :
    ∃ row, (copyTexts texts workerResults pageCount num places)[dis]? = some row ∧
      row.length = pageCount ∧ ∀ i, row.getD i default = ((places[i]?).bind fun place =>
        ((texts (workerResults.getD place.1 default))[dis]?).bind fun texts =>
          texts[place.2]?).getD default := by
  induction places using reverseRecOn with
  | nil =>
    refine ⟨replicate pageCount default, ?_, length_replicate, fun i => ?_⟩
    · simp [copyTexts, hdis]
    · by_cases hi : i < pageCount <;> simp [getD_eq_getElem?_getD, hi]
  | append_singleton places place ih =>
    rw [length_append, length_singleton] at hplaces
    obtain ⟨row, hrow, hlength, hget⟩ := ih (by omega)
    rw [copyTexts_concat, getElem?_copyText, hrow]
    cases htext : ((texts (workerResults.getD place.1 default))[dis]?).bind
        fun texts => texts[place.2]? with
    | none =>
      refine ⟨row, rfl, hlength, fun i => ?_⟩
      rw [hget, getElem?_concat_eq]
      split
      case isTrue h =>
        subst h
        rw [bind_some, htext, getElem?_eq_none (le_refl _)]
        rfl
      case isFalse => rfl
    | some text =>
      refine ⟨row.set places.length text, rfl, by rw [length_set, hlength], fun i => ?_⟩
      rw [getElem?_concat_eq]
      split
      case isTrue h =>
        subst h
        rw [bind_some, htext, getD_eq_getElem?_getD, getElem?_set_self (by omega)]
      case isFalse h =>
        rw [← hget, getD_eq_getElem?_getD, getElem?_set_ne (Ne.symm h), getD_eq_getElem?_getD]

theorem length_copyTexts (workerResults : List (KeywordSearchResult T)) (pageCount num : ℕ)
    (places : List (ℕ × ℕ)) :
    (copyTexts texts workerResults pageCount num places).length = num := by
  refine foldlRecOn (motive := fun target : List (List T) => target.length = num) _ _
    length_replicate fun target htarget entry _ => ?_
  rw [copyText, length_mapIdx, htarget]

/-- A page whose positions are dealt out to the workers: every position has one owner. -/
structure DealtOut (xs : List WDocId) (workerResults : List (KeywordSearchResult T))
    (own : ℕ → WDocId → Bool) (owner : ℕ → ℕ) : Prop where
  pageOffsetList : ∀ k, k < workerResults.length →
    (workerResults.getD k default).pageOffsetList = (dealt (own k) xs).map snd
  owner_lt : ∀ i, i < xs.length → owner i < workerResults.length
  own_iff : ∀ {i x}, xs[i]? = some x → ∀ k, k < workerResults.length →
    (own k x = true ↔ k = owner i)

variable {xs : List WDocId} {workerResults : List (KeywordSearchResult T)}
  {own : ℕ → WDocId → Bool} {owner : ℕ → ℕ}

omit [Inhabited T] in
theorem findWorker_eq (h : DealtOut xs workerResults own owner) {workerOffsetVec : ℕ → ℕ} {i : ℕ}
    (hoffsets : ∀ k, k < workerResults.length → workerOffsetVec k = seen (own k) xs i) :
    findWorker workerResults workerOffsetVec i =
      if i < xs.length then some (owner i) else none := by
  have hclaims : ∀ k, k < workerResults.length →
      ((workerResults.getD k default).pageOffsetList[workerOffsetVec k]? = some i ↔
        ∃ x, xs[i]? = some x ∧ own k x = true) := by
    intro k hk
    rw [h.pageOffsetList k hk, hoffsets k hk, getElem?_map]
    exact dealt_seen (own k)
  cases hfind : findWorker workerResults workerOffsetVec i with
  | none =>
    split
    case isFalse => rfl
    case isTrue hi =>
      have hx : xs[i]? = some xs[i] := getElem?_eq_getElem hi
      have howner := h.owner_lt i hi
      have hnot := find?_eq_none.mp hfind (owner i) (mem_range.mpr howner)
      rw [beq_iff_eq, hclaims _ howner] at hnot
      exact absurd ⟨_, hx, (h.own_iff hx _ howner).mpr rfl⟩ hnot
  | some k =>
    have hk : k < workerResults.length := mem_range.mp (mem_of_find?_eq_some hfind)
    have hclaim := find?_some hfind
    rw [beq_iff_eq, hclaims k hk] at hclaim
    obtain ⟨x, hx, hown⟩ := hclaim
    rw [if_pos (List.getElem?_eq_some_iff.mp hx).1, (h.own_iff hx k hk).mp hown]

omit [Inhabited T] in
/-- Each position of the page is claimed by its owner, and the walk ends behind the last one. -/
theorem claimed_eq (h : DealtOut xs workerResults own owner) (n : ℕ) {i : ℕ} (hi : i ≤ xs.length)
    {workerOffsetVec : ℕ → ℕ}
    (hoffsets : ∀ k, k < workerResults.length → workerOffsetVec k = seen (own k) xs i) :
    claimed workerResults n i workerOffsetVec = (range' i (min n (xs.length - i))).map fun j =>
        (owner j, seen (own (owner j)) xs j) := by
  induction n generalizing i workerOffsetVec with
  | zero => simp [claimed]
  | succ n ih =>
    rw [claimed, findWorker_eq h hoffsets]
    rcases eq_or_lt_of_le hi with rfl | hlt
    · simp
    · have hx : xs[i]? = some xs[i] := getElem?_eq_getElem hlt
      have howner := h.owner_lt i hlt
      have hmin : min (n + 1) (xs.length - i) = min n (xs.length - (i + 1)) + 1 := by omega
      rw [if_pos hlt, hmin, range'_succ, map_cons, ← hoffsets _ howner]
      simp only
      rw [ih (succ_le_of_lt hlt)]
      intro k hk
      rw [seen_succ _ hx]
      by_cases hown : k = owner i
      · rw [if_pos ((h.own_iff hx k hk).mpr hown), hown, Function.update_self, hoffsets _ howner]
      · rw [if_neg (fun hk' => hown ((h.own_iff hx k hk).mp hk')), Function.update_of_ne hown,
          hoffsets k hk, add_zero]

theorem foldl_push (entries : List (WDocId × ℕ)) (page : WorkerPage) :
    entries.foldl (fun page entry => page.push entry.1.2 entry.2) page =
      { docsInPage := page.docsInPage ++ entries.map fun entry => entry.1.2
        pageOffsetList := page.pageOffsetList ++ entries.map snd
        count := page.count + entries.length } := by
  induction entries generalizing page with
  | nil => simp
  | cons entry entries ih =>
    rw [foldl_cons, ih]
    simp [WorkerPage.push, add_assoc, add_comm 1]

variable {F D S : Type} (total : DistSearch.KeywordSearchResult F D S)

def isOf (worker : WorkerId) (doc : WDocId) : Bool := decide (doc.1 = worker)

theorem get_split (worker : WorkerId) : (splitSearchResultByWorkerid total).get worker =
      { docsInPage := ((docsInPage total).filter (isOf worker)).map snd
        pageOffsetList :=
          (Scatter.dealt (isOf worker) (docsInPage total)).map Prod.snd
        count := (Scatter.dealt (isOf worker) (docsInPage total)).length } := by
  have hdealt : ((docsInPage total).zipIdx.filter fun entry =>
      decide (entry.1.1 = worker)) =
      dealt (isOf worker) (docsInPage total) := rfl
  rw [splitSearchResultByWorkerid_get, hdealt, foldl_push, ← Scatter.map_fst_dealt,
    List.map_map]
  simp only [nil_append, Nat.zero_add]
  rfl

/-- A worker with a document on the page is asked. -/
theorem exists_lookup_split {doc : WDocId} (h : doc ∈ docsInPage total) :
    (splitSearchResultByWorkerid total).lookup doc.1 =
      some ((splitSearchResultByWorkerid total).get doc.1) := by
  have hget := get_split total doc.1
  rw [Table.get] at hget ⊢
  cases hlookup : (splitSearchResultByWorkerid total).lookup doc.1 with
  | some page => rfl
  | none =>
    rw [hlookup] at hget
    have hmem : doc ∈ (docsInPage total).filter (isOf doc.1) :=
      mem_filter.mpr ⟨h, decide_eq_true rfl⟩
    have hnil := congrArg WorkerPage.docsInPage hget
    exact absurd (map_eq_nil_iff.mp hnil.symm) (ne_nil_of_mem hmem)

/-- The texts of the documents, by property. -/
structure DocTexts (T : Type) where
  displayPropertyNum : ℕ
  summaryNum : ℕ
  snippet : ℕ → WDocId → T
  fullText : ℕ → WDocId → T
  summary : ℕ → WDocId → T

/-- A worker answers with the texts of its documents in order. -/
def answer (texts : DocTexts T) (entry : WorkerId × WorkerPage) : KeywordSearchResult T :=
  let rows (num : ℕ) (text : ℕ → WDocId → T) :=
    (range num).map fun dis => entry.2.docsInPage.map fun doc => text dis (entry.1, doc)
  { pageOffsetList := entry.2.pageOffsetList
    snippetTextOfDocumentInPage := rows texts.displayPropertyNum texts.snippet
    fullTextOfDocumentInPage := rows texts.displayPropertyNum texts.fullText
    rawTextOfSummaryInPage := rows texts.summaryNum texts.summary }

/-- Whether the worker of answer `k` is asked for a document. -/
def ownIn (order : List (WorkerId × WorkerPage)) (k : ℕ) (doc : WDocId) : Bool :=
  isOf (order.getD k default).1 doc

/-- The answer with the text of a document. -/
def ownerIn (order : List (WorkerId × WorkerPage)) (doc : WDocId) : ℕ :=
  (order.map fst).idxOf doc.1

variable {total} {order : List (WorkerId × WorkerPage)}

section

variable (horder : order.Perm (splitSearchResultByWorkerid total).inOrder)
include horder

theorem nodup_order : (order.map fst).Nodup :=
  (horder.map fst).nodup_iff.mpr (Table.pairwise_inOrder _).nodup

theorem page_of_mem {entry : WorkerId × WorkerPage} (h : entry ∈ order) :
    entry.2 = (splitSearchResultByWorkerid total).get entry.1 := by
  have hlookup := Table.mem_inOrder.mp (horder.mem_iff.mp h)
  rw [Table.get, hlookup, getD_some]

theorem mem_order {doc : WDocId} (h : doc ∈ docsInPage total) : doc.1 ∈ order.map fst :=
  have hlookup := exists_lookup_split total h
  mem_map.mpr ⟨_, horder.mem_iff.mpr (Table.mem_inOrder.mpr hlookup), rfl⟩

end

omit [Inhabited T] in
/-- In whatever order the answers come, each position of the page belongs to one of them. -/
theorem dealtOut_answers (texts : DocTexts T)
    (horder : order.Perm (splitSearchResultByWorkerid total).inOrder) :
    DealtOut (docsInPage total) (order.map (answer texts)) (ownIn order)
      fun i => ownerIn order ((docsInPage total).getD i default) where
  pageOffsetList := by
    intro k hk
    rw [length_map] at hk
    have hpage := page_of_mem horder (getElem_mem hk)
    rw [getD_eq_getElem _ _ (by rwa [length_map]), getElem_map]
    have hown : ownIn order k = isOf order[k].1 := by
      funext doc
      rw [ownIn, getD_eq_getElem _ _ hk]
    rw [hown]
    exact (congrArg WorkerPage.pageOffsetList hpage).trans
      (congrArg WorkerPage.pageOffsetList (get_split total order[k].1))
  owner_lt := by
    intro i hi
    have hmem := mem_order horder (getElem_mem hi)
    rw [length_map, getD_eq_getElem _ _ hi]
    exact (idxOf_lt_length_iff.mpr hmem).trans_eq (length_map ..)
  own_iff := by
    intro i x hx k hk
    rw [length_map] at hk
    have hk' : k < (order.map fst).length := by rwa [length_map]
    have hmem := mem_order horder (mem_of_getElem? hx)
    rw [ownIn, isOf, decide_eq_true_eq, getD_eq_getElem _ _ hk,
      getD_eq_getElem?_getD, hx, getD_some, ownerIn]
    constructor
    · intro h
      have hidx := (nodup_order horder).idxOf_getElem k hk'
      rw [getElem_map, ← h] at hidx
      exact hidx.symm
    · rintro rfl
      have hget := getElem_idxOf hk'
      rwa [getElem_map, eq_comm] at hget

theorem textAt_of_row {texts : List (List T)} {row : List T} (h : texts[dis]? = some row) (i : ℕ) :
    textAt texts dis i = row.getD i default := by
  have hrow : texts.getD dis [] = row := by rw [getD_eq_getElem?_getD, h, getD_some]
  rw [textAt, hrow]

variable {text : ℕ → WDocId → T}

/-- The text that the walk puts to a position, for one kind of text. -/
theorem textAt_copyTexts (texts : DocTexts T)
    (horder : order.Perm (splitSearchResultByWorkerid total).inOrder)
    {kind : KeywordSearchResult T → List (List T)} {num : ℕ}
    (hkind : ∀ entry, kind (answer texts entry) = (range num).map fun dis =>
      entry.2.docsInPage.map fun doc => text dis (entry.1, doc)) {count dis : ℕ}
    (hcount : (docsInPage total).length ≤ count) (hdis : dis < num) (i : ℕ) :
    textAt (copyTexts kind (order.map (answer texts)) count num
      (claimed (order.map (answer texts)) count 0 fun _ => 0)) dis i =
        (((docsInPage total)[i]?).map (text dis)).getD default := by
  have hdealt := dealtOut_answers texts horder
  have hplaces := claimed_eq hdealt count (zero_le _)
    fun k _ => (Scatter.seen_zero (ownIn order k) _).symm
  rw [Nat.sub_zero, Nat.min_eq_right hcount] at hplaces
  have hlength : (claimed (order.map (answer texts)) count 0 fun _ => 0).length ≤ count := by
    rwa [hplaces, List.length_map, length_range']
  obtain ⟨row, hrow, -, hget⟩ := getElem?_copyTexts kind (order.map (answer texts)) hlength hdis
  rw [textAt_of_row hrow, hget, hplaces]
  by_cases hi : i < (docsInPage total).length
  · have hx : (docsInPage total)[i]? = some (docsInPage total)[i] :=
      getElem?_eq_getElem hi
    generalize (docsInPage total)[i] = doc at hx
    have hk : ownerIn order ((docsInPage total).getD i default) < order.length := by
      have := hdealt.owner_lt i hi
      rwa [length_map] at this
    have hown := (hdealt.own_iff hx _ (hdealt.owner_lt i hi)).mpr rfl
    rw [hx, getElem?_map, getElem?_range' hi]
    simp only [map_some, bind_some, zero_add, one_mul, getD_some]
    generalize ownerIn order ((docsInPage total).getD i default) = k at hk hown
    have hworker : ownIn order k = isOf order[k].1 := by
      funext doc
      rw [ownIn, getD_eq_getElem _ _ hk]
    rw [hworker] at hown ⊢
    have hdoc : order[k].2.docsInPage[seen (isOf order[k].1)
        (docsInPage total) i]? = some doc.2 := by
      rw [page_of_mem horder (getElem_mem hk), get_split, getElem?_map,
        Scatter.filter_seen_of_own _ hx hown, Option.map_some]
    have hpair : (order[k].1, doc.2) = doc := Prod.ext (of_decide_eq_true hown).symm rfl
    rw [getD_eq_getElem _ _ (by rwa [List.length_map]), getElem_map, hkind,
      getElem?_map, getElem?_range hdis, Option.map_some, Option.bind_some,
      getElem?_map, hdoc, map_some, getD_some, hpair]
  · rw [getElem?_eq_none (by rw [length_map, length_range']; omega),
      getElem?_eq_none (by omega)]
    rfl

theorem textAt_of_le {texts : List (List T)} (h : texts.length ≤ dis) (i : ℕ) :
    textAt texts dis i = default := by
  rw [textAt, getD_eq_default _ _ h, getD_nil]

/-- Every kind of text is spread over the page, and nothing is behind it. -/
theorem textAt_page (texts : DocTexts T)
    (horder : order.Perm (splitSearchResultByWorkerid total).inOrder)
    (kind : KeywordSearchResult T → List (List T)) {num : ℕ}
    (hkind : ∀ entry, kind (answer texts entry) = (range num).map fun dis =>
      entry.2.docsInPage.map fun doc => text dis (entry.1, doc)) {count : ℕ}
    (hcount : (docsInPage total).length ≤ count) :
    let page := copyTexts kind (order.map (answer texts)) count num
      (claimed (order.map (answer texts)) count 0 fun _ => 0)
    (∀ i doc, (docsInPage total)[i]? = some doc → ∀ dis, dis < num →
      textAt page dis i = text dis doc) ∧
    ∀ i, (docsInPage total).length ≤ i → ∀ dis, textAt page dis i = default := by
  constructor
  · intro i doc hdoc dis hdis
    rw [textAt_copyTexts texts horder hkind hcount hdis, hdoc, map_some, getD_some]
  · intro i hi dis
    by_cases hdis : dis < num
    · rw [textAt_copyTexts texts horder hkind hcount hdis, getElem?_eq_none hi, map_none, getD_none]
    · exact textAt_of_le (by rw [length_copyTexts]; omega) i

theorem getElem?_docsInPage (hnum : 1 ≤ total.topKNum)
    (haligned : total.topKWorkerIds.length = total.topKDocs.length) {i : ℕ}
    (hi : i < min total.count (total.topKDocs.length - total.start % total.topKNum)) :
    ∃ worker doc, total.topKWorkerIds[total.start % total.topKNum + i]? = some worker ∧
      total.topKDocs[total.start % total.topKNum + i]? = some doc ∧
      (docsInPage total)[i]? = some (worker, doc) := by
  have hdoc : total.start % total.topKNum + i < total.topKDocs.length := by omega
  have hworker : total.start % total.topKNum + i < total.topKWorkerIds.length := by omega
  refine ⟨_, _, getElem?_eq_getElem hworker, getElem?_eq_getElem hdoc, ?_⟩
  rw [docsInPage, if_neg (by omega), getElem?_take_of_lt (by omega),
    getElem?_drop, getElem?_zip_eq_some]
  exact ⟨getElem?_eq_getElem hworker, getElem?_eq_getElem hdoc⟩

theorem length_docsInPage (hnum : 1 ≤ total.topKNum)
    (haligned : total.topKWorkerIds.length = total.topKDocs.length) : (docsInPage total).length =
      min total.count (total.topKDocs.length - total.start % total.topKNum) := by
  rw [docsInPage, if_neg (by omega), length_take, length_drop,
    length_zip, haligned, min_self]

/-- The first answer says how many lists of texts there are. -/
theorem getSummaryResult_answers (texts : DocTexts T) (entry : WorkerId × WorkerPage)
    (rest : List (WorkerId × WorkerPage)) (mergeResult : KeywordSearchResult T) :
    getSummaryResult ((entry :: rest).map (answer texts)) mergeResult =
      let answers := (entry :: rest).map (answer texts)
      let places := claimed answers mergeResult.count 0 fun _ => 0
      { mergeResult with
        snippetTextOfDocumentInPage :=
          copyTexts snippetTextOfDocumentInPage answers mergeResult.count
            texts.displayPropertyNum places
        fullTextOfDocumentInPage :=
          copyTexts fullTextOfDocumentInPage answers mergeResult.count
            texts.displayPropertyNum places
        rawTextOfSummaryInPage :=
          copyTexts rawTextOfSummaryInPage answers mergeResult.count
            texts.summaryNum places } := by
  have hnone : (((entry :: rest).map (answer texts)).find? fun w =>
      decide (w.error ≠ "")) = none := by
    rw [find?_eq_none]
    intro w hw
    obtain ⟨entry', -, rfl⟩ := mem_map.mp hw
    simp [answer]
  have hdisplay : (answer texts entry).snippetTextOfDocumentInPage.length =
      texts.displayPropertyNum := by simp [answer]
  have hsummaryNum : (answer texts entry).rawTextOfSummaryInPage.length = texts.summaryNum := by
    simp [answer]
  rw [getSummaryResult, if_neg (by simp), hnone]
  simp only [map_cons, getD_cons_zero, hdisplay, hsummaryNum]

/-- Each position of the page has the texts of its document, however the answers arrive. -/
theorem getSummaryResult_texts (hnum : 1 ≤ total.topKNum)
    (haligned : total.topKWorkerIds.length = total.topKDocs.length) (texts : DocTexts T)
    (horder : order.Perm (splitSearchResultByWorkerid total).inOrder)
    {mergeResult : KeywordSearchResult T} (hcount : mergeResult.count = total.count)
    (hempty : order = [] → mergeResult.snippetTextOfDocumentInPage = [] ∧
      mergeResult.fullTextOfDocumentInPage = [] ∧ mergeResult.rawTextOfSummaryInPage = []) :
    let merged := getSummaryResult (order.map (answer texts)) mergeResult
    let start := total.start % total.topKNum
    let pageSize := min total.count (total.topKDocs.length - start)
    (∀ i, i < pageSize → ∃ worker doc, total.topKWorkerIds[start + i]? = some worker ∧
      total.topKDocs[start + i]? = some doc ∧ (∀ dis, dis < texts.displayPropertyNum →
        textAt merged.snippetTextOfDocumentInPage dis i = texts.snippet dis (worker, doc) ∧
        textAt merged.fullTextOfDocumentInPage dis i = texts.fullText dis (worker, doc)) ∧
      ∀ dis, dis < texts.summaryNum →
        textAt merged.rawTextOfSummaryInPage dis i = texts.summary dis (worker, doc)) ∧
    ∀ i, pageSize ≤ i → ∀ dis,
      textAt merged.snippetTextOfDocumentInPage dis i = default ∧
      textAt merged.fullTextOfDocumentInPage dis i = default ∧
      textAt merged.rawTextOfSummaryInPage dis i = default := by
  have hlength := length_docsInPage hnum haligned
  have hle : (docsInPage total).length ≤ mergeResult.count := by
    rw [hlength, hcount]
    exact min_le_left _ _
  cases order with
  | nil =>
    obtain ⟨hsnippet, hfullText, hsummary⟩ := hempty rfl
    have hnil : docsInPage total = [] :=
      eq_nil_iff_forall_not_mem.mpr fun doc hdoc => not_mem_nil (mem_order horder hdoc)
    rw [hnil, length_nil] at hlength
    refine ⟨fun i hi => by omega, fun i _ dis => ?_⟩
    refine ⟨textAt_of_le ?_ i, textAt_of_le ?_ i, textAt_of_le ?_ i⟩
    · exact (congrArg length hsnippet).trans_le (zero_le _)
    · exact (congrArg length hfullText).trans_le (zero_le _)
    · exact (congrArg length hsummary).trans_le (zero_le _)
  | cons entry rest =>
    have hsnippet := textAt_page texts horder snippetTextOfDocumentInPage
      (fun _ => rfl) hle
    have hfullText := textAt_page texts horder fullTextOfDocumentInPage
      (fun _ => rfl) hle
    have hsummary := textAt_page texts horder rawTextOfSummaryInPage
      (fun _ => rfl) hle
    intro merged
    have hmerged : merged = _ := getSummaryResult_answers texts entry rest mergeResult
    refine ⟨fun i hi => ?_, fun i hi dis => ?_⟩
    · obtain ⟨worker, doc, hworker, hdoc, hpage⟩ := getElem?_docsInPage hnum haligned hi
      refine ⟨worker, doc, hworker, hdoc, fun dis hdis => ?_, fun dis hdis => ?_⟩
      · rw [hmerged]
        exact ⟨hsnippet.1 i _ hpage dis hdis, hfullText.1 i _ hpage dis hdis⟩
      · rw [hmerged]
        exact hsummary.1 i _ hpage dis hdis
    · have hi' : (docsInPage total).length ≤ i := hlength.trans_le hi
      rw [hmerged]
      exact ⟨hsnippet.2 i hi' dis, hfullText.2 i hi' dis, hsummary.2 i hi' dis⟩

/-- Three documents of two workers, of which the page has the last two. -/
def twoOfThree : DistSearch.KeywordSearchResult ℤ ℤ String :=
  { propertyRange := { highValue := 0, lowValue := 0 }
    topKDocs := [5, 6, 7]
    topKWorkerIds := [2, 1, 2]
    start := 11
    count := 4
    TOP_K_NUM := 10 }

/-- One snippet for each document, and no summary. -/
def snippetTexts : DocTexts String where
  displayPropertyNum := 1
  summaryNum := 0
  snippet _ doc := if doc = (1, 6) then "six" else if doc = (2, 7) then "seven" else "other"
  fullText _ _ := "full"
  summary _ _ := ""

theorem getSummaryResult_texts_three :
    let order := (splitSearchResultByWorkerid twoOfThree).inOrder.reverse
    let merged := getSummaryResult (order.map (answer snippetTexts)) { count := 4 }
    textAt merged.snippetTextOfDocumentInPage 0 0 = "six" ∧
      textAt merged.snippetTextOfDocumentInPage 0 1 = "seven" ∧
      textAt merged.snippetTextOfDocumentInPage 0 2 = "" := by
  intro order merged
  have hnum : 1 ≤ twoOfThree.topKNum := by decide
  have hcount : ({ count := 4 } : KeywordSearchResult String).count = twoOfThree.count := rfl
  have h := getSummaryResult_texts hnum rfl snippetTexts (reverse_perm _) hcount
    fun _ => ⟨rfl, rfl, rfl⟩
  obtain ⟨worker, doc, hworker, hdoc, htexts, -⟩ := h.1 0 (by decide)
  obtain ⟨worker', doc', hworker', hdoc', htexts', -⟩ := h.1 1 (by decide)
  obtain rfl := some.inj hworker
  obtain rfl := some.inj hdoc
  obtain rfl := some.inj hworker'
  obtain rfl := some.inj hdoc'
  exact ⟨(htexts 0 (by decide)).1, (htexts' 0 (by decide)).1, (h.2 2 (by decide) 0).1⟩

end AdDelivery.SummaryResult
