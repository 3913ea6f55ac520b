import AdDelivery.Sponsored.Search

/-!
# Broad match against its definition

The filter loop keeps the query's keyword ids as bits, offset by the smallest id, and skips a phrase
that is no longer than the best one so far. Here every bit is read and written with a test. No bit
is ever out of range, the loop picks the first of the longest phrases that the query covers, and
only the status bit of a candidate, read before the candidate is known to be mined, can be missing.
-/

namespace AdDelivery.Sponsored

open List

/-- The unchecked accesses of the filter loop. -/
inductive MatchFault
  /-- `hit_set.set` and `hit_set.test` -/
  | hitSet
  | table (fault : Fault)
deriving DecidableEq

def testBit (bits : List Bool) (pos : ℕ) : Except MatchFault Bool :=
  match bits[pos]? with
  | some bit => .ok bit
  | none => .error .hitSet

def setBit (bits : List Bool) (pos : ℕ) : Except MatchFault (List Bool) :=
  if pos < bits.length then .ok (bits.set pos true) else .error .hitSet

def fillHitSet (firstKid lastKid : BidKeywordId) (queryKidList : List BidKeywordId) :
    Except MatchFault (List Bool) :=
  queryKidList.foldlM (fun bits kid => setBit bits (kid - firstKid))
    (List.replicate (lastKid - firstKid + 1) false)

/-- Whether a keyword of the phrase is not one of the query. -/
def isMissed (firstKid lastKid : BidKeywordId) (bits : List Bool) :
    BidPhrase → Except MatchFault Bool
  | [] => .ok false
  | kid :: rest =>
    if kid < firstKid ∨ lastKid < kid then .ok true
    else do
      let bit ← testBit bits (kid - firstKid)
      if bit then isMissed firstKid lastKid bits rest else .ok true

def tryPhrase (firstKid lastKid : BidKeywordId) (bits : List Bool) (best : Option ℕ × ℕ)
    (entry : BidPhrase × ℕ) : Except MatchFault (Option ℕ × ℕ) :=
  if entry.1.length ≤ best.2 then .ok best
  else do
    let missed ← isMissed firstKid lastKid bits entry.1
    if missed then .ok best else .ok (some entry.2, entry.1.length)

namespace AdSponsoredMgr

/-- One round of the filter loop: the index of the phrase that was picked, and the ad if it is to be
ranked. -/
def filterAd (w : World) (s : AdSponsoredMgr) (firstKid lastKid : BidKeywordId) (bits : List Bool)
    (result : ℕ × ℕ) : Except MatchFault (Option ℕ × Option ScoreSponsoredAdDoc) := do
  let offline ← (access .statusBitmap s.adStatusBitmap result.1).mapError .table
  if offline then return (none, none)
  match s.adBidphraseList[result.1]? with
  | none => return (none, none)
  | some bidphraseList =>
    if bidphraseList.isEmpty then return (none, none)
    let (bestMatchIndex, _) ←
      bidphraseList.zipIdx.foldlM (tryPhrase firstKid lastKid bits) (none, 0)
    match bestMatchIndex with
    | none => return (none, none)
    | some best =>
      let item ← (s.priceMatch w result.2 result.1 bidphraseList best).mapError .table
      return (some best, item)

/-- The filter loop over the result list of a search. -/
def filterByBroadMatch (w : World) (s : AdSponsoredMgr) (queryKidList : List BidKeywordId)
    (results : List (ℕ × ℕ)) :
    Except MatchFault (List (Option ℕ × Option ScoreSponsoredAdDoc)) := do
  let queryKidList := queryKidList.insertionSort (· ≤ ·)
  let firstKid := queryKidList.headD 0
  let lastKid := queryKidList.getLastD 0
  let bits ← fillHitSet firstKid lastKid queryKidList
  results.mapM (s.filterAd w firstKid lastKid bits)

end AdSponsoredMgr

open AdSponsoredMgr

/-- A phrase that is not empty and has only keywords of the query. -/
def Covered (queryKidList : List BidKeywordId) (bidphrase : BidPhrase) : Prop :=
  bidphrase ≠ [] ∧ ∀ kid ∈ bidphrase, kid ∈ queryKidList

/-- The first of the longest covered phrases, none if there is none. -/
def IsBroadMatch (queryKidList : List BidKeywordId) (bidphraseList : BidPhraseList) :
    Option ℕ → Prop
  | none => ∀ bidphrase ∈ bidphraseList, ¬ Covered queryKidList bidphrase
  | some best => ∃ bidphrase, bidphraseList[best]? = some bidphrase ∧
      Covered queryKidList bidphrase ∧
      ∀ i other, bidphraseList[i]? = some other → Covered queryKidList other →
        other.length ≤ bidphrase.length ∧ (i < best → other.length < bidphrase.length)

/-- A bit is set if it was, or if its position is in the list. -/
theorem getElem?_foldl_set (bits : List Bool) (positions : List ℕ) {pos : ℕ}
    (hpos : pos < bits.length) : (positions.foldl (fun bits pos => bits.set pos true) bits)[pos]? =
      some (decide (pos ∈ positions) || bits.getD pos false) := by
  induction positions generalizing bits with
  | nil =>
    simp [getD_eq_getElem?_getD, hpos]
  | cons first positions ih =>
    rw [foldl_cons, ih _ (by rwa [length_set])]
    by_cases hfirst : pos = first
    · subst hfirst
      simp [getD_eq_getElem?_getD, hpos]
    · have hne : first ≠ pos := Ne.symm hfirst
      simp [getD_eq_getElem?_getD, hfirst, getElem?_set_ne hne]

theorem hitSet_eq (firstKid lastKid : ℕ) (queryKidList : List ℕ) :
    hitSet firstKid lastKid queryKidList =
      (queryKidList.map (· - firstKid)).foldl (fun bits pos => bits.set pos true)
        (List.replicate (lastKid - firstKid + 1) false) := by
  rw [hitSet, foldl_map]

variable {queryKidList : List ℕ} {firstKid lastKid : ℕ}

/-- The bit of an id between the smallest and the largest one says whether the query has it. -/
theorem getElem?_hitSet (hfirst : ∀ kid ∈ queryKidList, firstKid ≤ kid) {kid : ℕ}
    (hle : firstKid ≤ kid) (hle' : kid ≤ lastKid) :
    (hitSet firstKid lastKid queryKidList)[kid - firstKid]? =
      some (decide (kid ∈ queryKidList)) := by
  have hmem : kid - firstKid ∈ queryKidList.map (· - firstKid) ↔ kid ∈ queryKidList := by
    rw [mem_map]
    constructor
    · rintro ⟨kid', hkid', heq⟩
      have := hfirst kid' hkid'
      rwa [show kid = kid' by omega]
    · exact fun hkid => ⟨kid, hkid, rfl⟩
  have hpos : kid - firstKid < lastKid - firstKid + 1 := by omega
  rw [hitSet_eq, getElem?_foldl_set _ _ (by rwa [length_replicate])]
  simp [hmem, getD_eq_getElem?_getD, hpos]

/-- Setting the bits of a query is in range. -/
theorem fillHitSet_eq (hlast : ∀ kid ∈ queryKidList, kid ≤ lastKid) :
    fillHitSet firstKid lastKid queryKidList = .ok (hitSet firstKid lastKid queryKidList) := by
  have hfold : ∀ (kids : List ℕ) (bits : List Bool),
      (∀ kid ∈ kids, kid - firstKid < bits.length) →
      kids.foldlM (fun bits kid => setBit bits (kid - firstKid)) bits =
        .ok (kids.foldl (fun bits kid => bits.set (kid - firstKid) true) bits) := by
    intro kids
    induction kids with
    | nil => exact fun _ _ => rfl
    | cons kid kids ih =>
      intro bits hkids
      rw [foldlM_cons, setBit, if_pos (hkids kid mem_cons_self)]
      refine ih _ fun kid' hkid' => ?_
      rw [length_set]
      exact hkids kid' (mem_cons_of_mem _ hkid')
  refine hfold _ _ fun kid hkid => ?_
  have := hlast kid hkid
  rw [length_replicate]
  omega

variable {kids : List ℕ}

/-- The smallest and the largest id of an ascending list. -/
theorem bounds_of_ascending (hsorted : kids.Pairwise (· ≤ ·)) :
    ∀ kid ∈ kids, kids.headD 0 ≤ kid ∧ kid ≤ kids.getLastD 0 := by
  intro kid hkid
  constructor
  · cases kids with
    | nil => cases hkid
    | cons first kids =>
      rcases mem_cons.mp hkid with rfl | hkid
      · exact Nat.le_refl _
      · exact rel_of_pairwise_cons hsorted hkid
  · rcases eq_nil_or_concat' kids with rfl | ⟨kids, last, rfl⟩
    · cases hkid
    · rw [getLastD_concat]
      rcases mem_append.mp hkid with hkid | hkid
      · exact (pairwise_append.mp hsorted).2.2 kid hkid last (mem_singleton_self _)
      · exact Nat.le_of_eq (mem_singleton.mp hkid)

section Query

variable {kids : List ℕ} (hsorted : kids.Pairwise (· ≤ ·))

include hsorted

theorem isHit_eq (kid : ℕ) : isHit kids kid = decide (kid ∈ kids) := by
  have hbounds := bounds_of_ascending hsorted
  unfold isHit
  by_cases hlow : kid < kids.headD 0
  · have hout : kid ∉ kids := fun hkid => Nat.not_lt.mpr (hbounds kid hkid).1 hlow
    simp only [hlow, hout, decide_true, decide_false, Bool.true_or, Bool.not_true]
  · by_cases hhigh : kids.getLastD 0 < kid
    · have hout : kid ∉ kids := fun hkid => Nat.not_lt.mpr (hbounds kid hkid).2 hhigh
      simp only [hhigh, hout, decide_true, decide_false, Bool.or_true, Bool.true_or, Bool.not_true]
    · have hbit := getElem?_hitSet (fun kid hkid => (hbounds kid hkid).1) (Nat.le_of_not_lt hlow)
        (Nat.le_of_not_lt hhigh)
      simp only [hlow, hhigh, hbit, decide_false, Bool.false_or, Bool.not_not,
        getD_eq_getElem?_getD, Option.getD_some]

/-- No test of a keyword is out of range. -/
theorem isMissed_eq (bidphrase : BidPhrase) :
    isMissed (kids.headD 0) (kids.getLastD 0) (hitSet (kids.headD 0) (kids.getLastD 0) kids)
      bidphrase = .ok (!bidphrase.all (isHit kids)) := by
  have hbounds := bounds_of_ascending hsorted
  induction bidphrase with
  | nil => rfl
  | cons kid rest ih =>
    rw [isMissed, all_cons, isHit_eq hsorted kid]
    split
    · rename_i hout
      have hnot : kid ∉ kids := fun hkid => by
        rcases hout with hlow | hhigh
        · exact Nat.not_lt.mpr (hbounds kid hkid).1 hlow
        · exact Nat.not_lt.mpr (hbounds kid hkid).2 hhigh
      simp [hnot]
    · rename_i hin
      rw [not_or, Nat.not_lt, Nat.not_lt] at hin
      rw [testBit, getElem?_hitSet (fun kid hkid => (hbounds kid hkid).1) hin.1 hin.2]
      by_cases hkid : kid ∈ kids
      · simp only [hkid, decide_true, Bool.true_and]
        exact ih
      · simp only [hkid, decide_false, Bool.false_and]
        rfl

theorem tryPhrase_eq (best : Option ℕ × ℕ) (entry : BidPhrase × ℕ) :
    tryPhrase (kids.headD 0) (kids.getLastD 0) (hitSet (kids.headD 0) (kids.getLastD 0) kids) best
      entry = .ok (betterMatch (isHit kids) best entry) := by
  rw [tryPhrase, betterMatch]
  split
  · rfl
  · rw [isMissed_eq hsorted]
    cases entry.1.all (isHit kids) <;> rfl

theorem foldlM_tryPhrase (entries : List (BidPhrase × ℕ)) (best : Option ℕ × ℕ) :
    entries.foldlM (tryPhrase (kids.headD 0) (kids.getLastD 0)
      (hitSet (kids.headD 0) (kids.getLastD 0) kids)) best =
        .ok (entries.foldl (betterMatch (isHit kids)) best) := by
  induction entries generalizing best with
  | nil => rfl
  | cons entry entries ih =>
    rw [foldlM_cons, tryPhrase_eq hsorted]
    exact ih _

end Query

/-- What the loop knows after the first phrases: the best one among them and its length. -/
def BestSoFar (queryKidList : List ℕ) (bidphraseList : BidPhraseList) : Option ℕ × ℕ → Prop
  | (none, size) => IsBroadMatch queryKidList bidphraseList none ∧ size = 0
  | (some best, size) => IsBroadMatch queryKidList bidphraseList (some best) ∧
      (bidphraseList[best]?).map List.length = some size

theorem getElem?_append_singleton {α : Type*} {l : List α} {a b : α} {i : ℕ}
    (h : (l ++ [a])[i]? = some b) : (i < l.length ∧ l[i]? = some b) ∨ (i = l.length ∧ a = b) := by
  by_cases hi : i < l.length
  · rw [getElem?_append_left hi] at h
    exact .inl ⟨hi, h⟩
  · right
    rw [getElem?_append_right (Nat.le_of_not_lt hi), getElem?_singleton] at h
    split at h
    · rename_i hzero
      exact ⟨by omega, Option.some.inj h⟩
    · cases h

variable {bidphraseList : BidPhraseList} {best : Option ℕ × ℕ} {bidphrase : BidPhrase}

/-- A phrase that is not picked leaves the best one as it is. -/
theorem BestSoFar.skip (h : BestSoFar kids bidphraseList best)
    (hskip : Covered kids bidphrase → bidphrase.length ≤ best.2) :
    BestSoFar kids (bidphraseList ++ [bidphrase]) best := by
  obtain ⟨_ | j, size⟩ := best
  · obtain ⟨hmatch, hsize⟩ := h
    refine ⟨?_, hsize⟩
    intro other hother
    rcases mem_append.mp hother with hother | hother
    · exact hmatch other hother
    · rw [mem_singleton.mp hother]
      intro hcovered
      have hlength : bidphrase.length ≤ size := hskip hcovered
      exact hcovered.1 (length_eq_zero_iff.mp (by omega))
  · obtain ⟨⟨found, hfound, hcovered, hlongest⟩, hsize⟩ := h
    have hj := (List.getElem?_eq_some_iff.mp hfound).1
    have hfound' : (bidphraseList ++ [bidphrase])[j]? = some found := by
      rw [getElem?_append_left hj, hfound]
    rw [hfound, Option.map_some, Option.some.injEq] at hsize
    refine ⟨⟨found, hfound', hcovered, ?_⟩, ?_⟩
    · intro i other hother hother'
      rcases getElem?_append_singleton hother with ⟨-, hother⟩ | ⟨rfl, rfl⟩
      · exact hlongest i other hother hother'
      · exact ⟨hsize ▸ hskip hother', fun hlt => absurd hlt (by omega)⟩
    · rw [hfound', Option.map_some, hsize]

/-- A longer covered phrase becomes the best one. -/
theorem BestSoFar.pick (h : BestSoFar kids bidphraseList best) (hcovered : Covered kids bidphrase)
    (hlonger : best.2 < bidphrase.length) : BestSoFar kids (bidphraseList ++ [bidphrase])
      (some bidphraseList.length, bidphrase.length) := by
  have hshorter : ∀ (i : ℕ) (other : BidPhrase), bidphraseList[i]? = some other →
      Covered kids other → other.length < bidphrase.length := by
    intro i other hother hother'
    obtain ⟨_ | j, size⟩ := best
    · exact absurd hother' (h.1 other (mem_of_getElem? hother))
    · obtain ⟨⟨found, hfound, -, hlongest⟩, hsize⟩ := h
      rw [hfound, Option.map_some, Option.some.injEq] at hsize
      have hle := (hlongest i other hother hother').1
      omega
  have hlast : (bidphraseList ++ [bidphrase])[bidphraseList.length]? = some bidphrase := by
    rw [getElem?_append_right (Nat.le_refl _), Nat.sub_self]
    rfl
  refine ⟨⟨bidphrase, hlast, hcovered, ?_⟩, ?_⟩
  · intro i other hother hother'
    rcases getElem?_append_singleton hother with ⟨-, hother⟩ | ⟨rfl, rfl⟩
    · have hlt := hshorter i other hother hother'
      exact ⟨Nat.le_of_lt hlt, fun _ => hlt⟩
    · exact ⟨Nat.le_refl _, fun hlt => absurd hlt (Nat.lt_irrefl _)⟩
  · rw [hlast, Option.map_some]

theorem bestSoFar_concat (h : BestSoFar kids bidphraseList best) (bidphrase : BidPhrase) :
    BestSoFar kids (bidphraseList ++ [bidphrase])
      (betterMatch (fun kid => decide (kid ∈ kids)) best (bidphrase, bidphraseList.length)) := by
  have hall : bidphrase.all (fun kid => decide (kid ∈ kids)) = true ↔
      ∀ kid ∈ bidphrase, kid ∈ kids := by
    simp only [all_eq_true, decide_eq_true_eq]
  rw [betterMatch]
  split
  · rename_i hshort
    exact h.skip fun _ => hshort
  · rename_i hlonger
    split
    · rename_i hhit
      refine h.pick ⟨?_, hall.mp hhit⟩ (Nat.lt_of_not_le hlonger)
      rintro rfl
      exact hlonger (Nat.zero_le _)
    · rename_i hmiss
      exact h.skip fun hcovered => absurd (hall.mpr hcovered.2) hmiss

theorem bestMatchIndex_isBroadMatch (kids : List ℕ) (bidphraseList : BidPhraseList) :
    IsBroadMatch kids bidphraseList
      (bestMatchIndex (fun kid => decide (kid ∈ kids)) bidphraseList) := by
  have hbest : BestSoFar kids bidphraseList
      (bidphraseList.zipIdx.foldl (betterMatch fun kid => decide (kid ∈ kids)) (none, 0)) := by
    induction bidphraseList using List.reverseRecOn with
    | nil => exact ⟨nofun, rfl⟩
    | append_singleton bidphraseList bidphrase ih =>
      rw [zipIdx_append]
      simpa using bestSoFar_concat ih bidphrase
  revert hbest
  rw [bestMatchIndex]
  rcases bidphraseList.zipIdx.foldl _ _ with ⟨_ | best, size⟩
  · exact fun h => h.1
  · exact fun h => h.1

/-- The phrase that the loop picks for a candidate. -/
def AdSponsoredMgr.pickedPhrase (s : AdSponsoredMgr) (hit : BidKeywordId → Bool) (docId : ℕ) :
    Option ℕ :=
  match s.adStatusBitmap[docId]?, s.adBidphraseList[docId]? with
  | some false, some bidphraseList => bestMatchIndex hit bidphraseList
  | _, _ => none

/-- A round with tests is a round of the search, together with the phrase it picks. -/
theorem filterAd_eq (hsorted : kids.Pairwise (· ≤ ·)) (w : World) (s : AdSponsoredMgr)
    (result : ℕ × ℕ) : s.filterAd w (kids.headD 0) (kids.getLastD 0)
        (hitSet (kids.headD 0) (kids.getLastD 0) kids) result =
      match s.matchAd w result.2 (isHit kids) result.1 with
      | .ok item => .ok (s.pickedPhrase (isHit kids) result.1, item)
      | .error fault => .error (.table fault) := by
  rw [matchAd_eq]
  unfold filterAd pickedPhrase access
  cases s.adStatusBitmap[result.1]? with
  | none => rfl
  | some offline =>
    cases offline with
    | true => rfl
    | false =>
      cases s.adBidphraseList[result.1]? with
      | none => rfl
      | some bidphraseList =>
        by_cases hempty : bidphraseList = []
        · subst hempty
          rfl
        · have hnonempty : bidphraseList.isEmpty = false := by simpa using hempty
          simp only [foldlM_tryPhrase hsorted, hnonempty, bestMatchIndex, bind, Except.bind]
          cases (bidphraseList.zipIdx.foldl (betterMatch (isHit kids)) (none, 0)).1 with
          | none => rfl
          | some best =>
            simp only [Except.mapError, Bool.false_eq_true, if_false]
            cases s.priceMatch w result.2 result.1 bidphraseList best <;> rfl

/-- What a round should come to for a candidate: no phrase if the ad is offline or not mined, else
the one of the definition, and an ad to rank only under the phrase that was picked. -/
structure PickedByDefinition (s : AdSponsoredMgr) (queryKidList : List BidKeywordId) (docId : ℕ)
    (pick : Option ℕ × Option ScoreSponsoredAdDoc) : Prop where
  best : ∀ bidphraseList, s.adStatusBitmap[docId]? = some false →
    s.adBidphraseList[docId]? = some bidphraseList →
    IsBroadMatch queryKidList bidphraseList pick.1
  skipped : s.adStatusBitmap[docId]? = some true ∨ s.adBidphraseList[docId]? = none →
    pick.1 = none
  item : ∀ item, pick.2 = some item → ∃ best bidphraseList bidphrase, pick.1 = some best ∧
    s.adBidphraseList[docId]? = some bidphraseList ∧ bidphraseList[best]? = some bidphrase ∧
    item.docId = docId ∧ item.hitBidstr = getBidPhraseStr s.keywords bidphrase

section Loop

variable {s : AdSponsoredMgr} {kids : List ℕ} {w : World}

theorem isHit_eq_mem (hsorted : kids.Pairwise (· ≤ ·)) :
    isHit kids = fun kid => decide (kid ∈ kids) :=
  funext (isHit_eq hsorted)

theorem pickedByDefinition_of_matchAd (hsorted : kids.Pairwise (· ≤ ·)) {docId rand : ℕ}
    {item : Option ScoreSponsoredAdDoc} (hitem : s.matchAd w rand (isHit kids) docId = .ok item) :
    PickedByDefinition s kids docId (s.pickedPhrase (isHit kids) docId, item) where
  best := by
    intro bidphraseList honline hmined
    simp only [pickedPhrase, honline, hmined]
    rw [isHit_eq_mem hsorted]
    exact bestMatchIndex_isBroadMatch kids bidphraseList
  skipped := by
    rintro (hoffline | hnew)
    · simp only [pickedPhrase, hoffline]
    · rw [pickedPhrase, hnew]
      cases s.adStatusBitmap[docId]? with
      | none => rfl
      | some offline => cases offline <;> rfl
  item := by
    rintro item rfl
    rw [matchAd_eq] at hitem
    unfold access at hitem
    cases hstatus : s.adStatusBitmap[docId]? with
    | none =>
      rw [hstatus] at hitem
      cases hitem
    | some offline =>
      rw [hstatus] at hitem
      cases offline with
      | true => cases hitem
      | false =>
        cases hlist : s.adBidphraseList[docId]? with
        | none =>
          rw [hlist] at hitem
          cases hitem
        | some bidphraseList =>
          simp only [hlist, bind, Except.bind, Bool.false_eq_true, if_false] at hitem
          cases hbest : bestMatchIndex (isHit kids) bidphraseList with
          | none =>
            rw [hbest] at hitem
            cases hitem
          | some best =>
            rw [hbest] at hitem
            obtain ⟨hdoc, hstr, -⟩ := priceMatch_item hitem
            refine ⟨best, bidphraseList, bidphraseList.getD best [], ?_, rfl, ?_, hdoc, hstr⟩
            · simp only [pickedPhrase, hstatus, hlist, hbest]
            · have hlt := bestMatchIndex_lt hbest
              rw [getD_eq_getElem?_getD, getElem?_eq_getElem hlt, Option.getD_some]

/-- A round does without a fault exactly if the candidate has a status bit. -/
theorem matchAd_ok_iff (h : SearchTables s) {hit : BidKeywordId → Bool} {docId rand : ℕ} :
    (∃ item, s.matchAd w rand hit docId = .ok item) ↔ docId < s.adStatusBitmap.length := by
  constructor
  · rintro ⟨item, hitem⟩
    by_contra hlt
    rw [matchAd_eq, access, getElem?_eq_none (Nat.le_of_not_lt hlt)] at hitem
    cases hitem
  · exact h.matchAd_ok w rand hit

/-- Reading a list element by element. -/
theorem mapM_eq_ok_iff {α β ε : Type*} {f : α → Except ε β} {xs : List α} {ys : List β} :
    xs.mapM f = .ok ys ↔ List.Forall₂ (fun x y => f x = .ok y) xs ys := by
  induction xs generalizing ys with
  | nil =>
    rw [forall₂_nil_left_iff]
    exact ⟨fun h => (Except.ok.inj h).symm, fun h => h ▸ rfl⟩
  | cons x xs ih =>
    rw [mapM_cons, forall₂_cons_left_iff]
    cases hx : f x with
    | error fault =>
      refine iff_of_false (fun h => by cases h) ?_
      rintro ⟨y, ys', hy, -⟩
      cases hy
    | ok y =>
      cases hxs : xs.mapM f with
      | error fault =>
        refine iff_of_false (fun h => by cases h) ?_
        rintro ⟨y', ys', -, hys, -⟩
        rw [ih.mpr hys] at hxs
        cases hxs
      | ok ys' =>
        constructor
        · intro h
          exact ⟨y, ys', rfl, ih.mp hxs, (Except.ok.inj h).symm⟩
        · rintro ⟨y', ys'', hy, hys, rfl⟩
          obtain rfl := Except.ok.inj hy
          obtain rfl := Except.ok.inj (hxs.symm.trans (ih.mpr hys))
          rfl

theorem exists_of_mapM_eq_ok {α β ε : Type*} {f : α → Except ε β} {xs : List α} {ys : List β}
    (h : xs.mapM f = .ok ys) {x : α} (hx : x ∈ xs) : ∃ y, f x = .ok y := by
  induction mapM_eq_ok_iff.mp h with
  | nil => cases hx
  | @cons x' y xs ys hy hys ih =>
    rcases mem_cons.mp hx with rfl | hx
    · exact ⟨y, hy⟩
    · exact ih (mapM_eq_ok_iff.mpr hys) hx

theorem filterByBroadMatch_eq (s : AdSponsoredMgr) (w : World) (queryKidList : List BidKeywordId)
    (results : List (ℕ × ℕ)) : s.filterByBroadMatch w queryKidList results =
      results.mapM fun result =>
        match s.matchAd w result.2 (isHit (queryKidList.insertionSort (· ≤ ·))) result.1 with
        | .ok item => .ok
          (s.pickedPhrase (isHit (queryKidList.insertionSort (· ≤ ·))) result.1, item)
        | .error fault => .error (.table fault) := by
  have hsorted := pairwise_insertionSort (· ≤ ·) queryKidList
  have hbounds := bounds_of_ascending hsorted
  simp only [filterByBroadMatch,
    fillHitSet_eq fun kid hkid => (hbounds kid hkid).2, bind, Except.bind]
  congr 1
  ext1 result
  exact filterAd_eq hsorted w s result

theorem pickedByDefinition_sort_iff {queryKidList : List BidKeywordId} {docId : ℕ}
    {pick : Option ℕ × Option ScoreSponsoredAdDoc} :
    PickedByDefinition s (queryKidList.insertionSort (· ≤ ·)) docId pick ↔
      PickedByDefinition s queryKidList docId pick := by
  have hcovered : Covered (queryKidList.insertionSort (· ≤ ·)) = Covered queryKidList := by
    ext bidphrase
    simp only [Covered, mem_insertionSort]
  have hmatch : ∀ (bidphraseList : BidPhraseList) (best : Option ℕ),
      IsBroadMatch (queryKidList.insertionSort (· ≤ ·)) bidphraseList best ↔
        IsBroadMatch queryKidList bidphraseList best := by
    intro bidphraseList best
    cases best with
    | none => simp only [IsBroadMatch, hcovered]
    | some best => simp only [IsBroadMatch, hcovered]
  constructor
  · exact fun h => ⟨fun l honline hmined => (hmatch l _).mp (h.best l honline hmined), h.skipped,
      h.item⟩
  · exact fun h => ⟨fun l honline hmined => (hmatch l _).mpr (h.best l honline hmined), h.skipped,
      h.item⟩

end Loop

/-- The filter loop stays in range and picks by the definition exactly if every candidate has a
status bit. -/
theorem filterByBroadMatch_picksByDefinition_iff {s : AdSponsoredMgr} (h : SearchTables s)
    (w : World) (queryKidList : List BidKeywordId) (results : List (ℕ × ℕ)) :
    (∃ picks, s.filterByBroadMatch w queryKidList results = .ok picks ∧
      List.Forall₂ (fun result pick => PickedByDefinition s queryKidList result.1 pick)
        results picks) ↔ ∀ result ∈ results, result.1 < s.adStatusBitmap.length := by
  have hsorted := pairwise_insertionSort (· ≤ ·) queryKidList
  constructor
  · rintro ⟨picks, hpicks, -⟩ result hresult
    rw [filterByBroadMatch_eq] at hpicks
    obtain ⟨pick, hpick⟩ := exists_of_mapM_eq_ok hpicks hresult
    split at hpick
    · rename_i item hitem
      exact (matchAd_ok_iff h).mp ⟨item, hitem⟩
    · cases hpick
  · intro hlt
    induction results with
    | nil => exact ⟨[], filterByBroadMatch_eq s w queryKidList [], .nil⟩
    | cons result results ih =>
      obtain ⟨picks, hpicks, hdefinition⟩ := ih fun r hr => hlt r (mem_cons_of_mem _ hr)
      obtain ⟨item, hitem⟩ := h.matchAd_ok w result.2
        (isHit (queryKidList.insertionSort (· ≤ ·))) (hlt result mem_cons_self)
      refine ⟨(s.pickedPhrase (isHit (queryKidList.insertionSort (· ≤ ·))) result.1, item) :: picks,
        ?_, .cons ?_ hdefinition⟩
      · rw [filterByBroadMatch_eq, mapM_eq_ok_iff] at hpicks ⊢
        refine .cons ?_ hpicks
        rw [hitem]
      · exact pickedByDefinition_sort_iff.mp (pickedByDefinition_of_matchAd hsorted hitem)

theorem filterByBroadMatch_picksByDefinition_shop :
    (∃ picks, shopMgr.filterByBroadMatch shopWorld [0, 1] [(1, 7)] = .ok picks ∧
      List.Forall₂ (fun result pick => PickedByDefinition shopMgr [0, 1] result.1 pick)
        [(1, 7)] picks) ↔
      ∀ result ∈ [((1 : ℕ), (7 : ℕ))], result.1 < shopMgr.adStatusBitmap.length :=
  filterByBroadMatch_picksByDefinition_iff (tablesOk_of_run run_shopMgr).searchTables shopWorld
    [0, 1] [(1, 7)]

/-- A candidate that was indexed after the ads were mined has no status bit to test. -/
theorem not_filterByBroadMatch_unmined :
    ¬ ∃ picks, shopMgr.filterByBroadMatch shopWorld [0, 1] [(2, 7)] = .ok picks ∧
      List.Forall₂ (fun result pick => PickedByDefinition shopMgr [0, 1] result.1 pick)
        [(2, 7)] picks := by
  rintro ⟨picks, hpicks, -⟩
  rw [filterByBroadMatch_eq] at hpicks
  obtain ⟨pick, hpick⟩ := exists_of_mapM_eq_ok hpicks (mem_singleton_self _)
  have hlength : shopMgr.adStatusBitmap.length = 2 := rfl
  have hunmined : shopMgr.adStatusBitmap[2]? = none := getElem?_eq_none (by omega)
  cases hpick

end AdDelivery.Sponsored
