import AdDelivery.Core.Vector
import AdDelivery.SearchManager.SearchThread
import AdDelivery.Selector.SegmentKeys
import Mathlib.Algebra.Field.Rat
import Mathlib.Algebra.Order.Ring.Rat

/-!
# The selection of ads

The selector chooses ads for a user among candidates. Ads that were clicked before are ranked
by the predictor, at most a third of the result and one more. Ads that were not clicked are
ranked by the history of their segments, and what is left of the result is given to ads
without a score, some of them drawn at random when there are too many. The result is written
in place over the candidates.

The hit queue takes scores less than epsilon apart as the same and compares the ids instead, and
this is not always an order. The queue is a parameter: it stores what it is given in any case,
and returns the least first where its comparison orders what it has been given.
-/

namespace AdDelivery.Selector

open SearchManager Nat ScoreDoc ScoreSortedHitQueue BoundedQueue

section AdSelector

/-- What a selection reads and changes of the selector. -/
structure AdSelector (S : Type) where
  historyCtrData : Table (List Char) (List S)
  clickedAds : ℕ → Bool
  adSegidData : ℕ → List UInt16
  /-- `ad_click_predictor_->predict`. -/
  predict : Feature → Feature → S
  pendingComputeDoclist : List (Feature × List ℕ) := []
  needRefresh : Bool := false

/-- `operator[]` of the feature map, and `push_back`. -/
def pushFeature (name : String) (value : List Char) : FeatureMap → FeatureMap
  | [] => [(name, [value])]
  | segment :: segments =>
    if name = segment.1 then (segment.1, segment.2 ++ [value]) :: segments
    else if name < segment.1 then (name, [value]) :: segment :: segments
    else segment :: pushFeature name value segments

def getUserSegmentStr (userInfo : Feature) : List (List Char) :=
  expandSegmentStr [[]]
    (userInfo.foldl (fun features feature => pushFeature feature.1 feature.2 features) [])

variable {S : Type} [LinearOrder S] [Zero S] {Q : BoundedQueue (ScoreDoc S)}

namespace AdSelector

/-- The highest rate of the segments that the user and the ad share, unless there is none. An
ad without segments has the rate zero. -/
def getHistoryCTR (selector : AdSelector S) (userSegKey : List (List Char))
    (adSegidList : List UInt16) : Option S :=
  if adSegidList = [] then some 0
  else
    let found := userSegKey.flatMap fun key =>
      match selector.historyCtrData.lookup key with
      | none => []
      | some ctrs => adSegidList.filterMap fun segid => ctrs[segid.toNat]?
    if found = [] then none else some (found.foldl max 0)

/-- Where the loop over the candidates puts them. -/
structure Ranking (Q : BoundedQueue (ScoreDoc S)) where
  tmpClickedScorelist : Q.Queue
  tmpUnclickedScorelist : Q.Queue
  unclickedDoclist : List ℕ := []
  pendingComputeDoclist : List ℕ := []

/-- One candidate. The history of a clicked ad matters only when there are many candidates;
one without a history waits for it and counts as not scored this time. -/
def rankCandidate (selector : AdSelector S) (userSegStr : List (List Char))
    (randomSelect many : Bool) (ranking : Ranking Q) (docid : ℕ) : Ranking Q :=
  let historyCtr := selector.getHistoryCTR userSegStr (selector.adSegidData docid)
  if selector.clickedAds docid then
    match if many then historyCtr else some 0 with
    | none =>
      { ranking with
        unclickedDoclist := ranking.unclickedDoclist ++ [docid]
        pendingComputeDoclist := ranking.pendingComputeDoclist ++ [docid] }
    | some score =>
      { ranking with
        tmpClickedScorelist :=
          Q.insert ranking.tmpClickedScorelist { docId := docid, score := score } }
  else
    match if randomSelect then none else historyCtr with
    | some score =>
      { ranking with
        tmpUnclickedScorelist :=
          Q.insert ranking.tmpUnclickedScorelist { docId := docid, score := score } }
    | none => { ranking with unclickedDoclist := ranking.unclickedDoclist ++ [docid] }

def maxClickedRetnum (maxSelect : UInt64) : UInt64 := maxSelect / 3 + 1

def maxUnclickedRetnum (maxSelect : UInt64) : UInt64 := maxSelect - maxClickedRetnum maxSelect

def maxTmpClickedNum (maxSelect : UInt64) : UInt64 := maxClickedRetnum maxSelect * 2

/-- The ε of the greedy strategy is a tenth. -/
def randomSelect (random : UInt32) : Bool := random % 1000 < 100

def rankCandidates (selector : AdSelector S) (userInfo : Feature) (maxSelect : UInt64)
    (random : UInt32) (adDoclist : List ℕ) : Ranking Q :=
  adDoclist.foldl
    (selector.rankCandidate (getUserSegmentStr userInfo) (randomSelect random)
      ((maxTmpClickedNum maxSelect).toNat < adDoclist.length))
    { tmpClickedScorelist := Q.make (maxTmpClickedNum maxSelect).toNat
      tmpUnclickedScorelist := Q.make (maxUnclickedRetnum maxSelect).toNat }

/-- Clicked ads get the score that the predictor gives now. The tables of the ad's features
are never set, so that the predictor sees an ad without features. -/
def totalScorelist (selector : AdSelector S) (userInfo : Feature) (maxSelect : UInt64)
    (ranking : Ranking Q) : Q.Queue :=
  let clicked := ranking.tmpClickedScorelist
  let unclicked := ranking.tmpUnclickedScorelist
  let total := (Q.pops (Q.size clicked) clicked).foldl
    (fun total item => Q.insert total { item with score := selector.predict userInfo [] })
    (Q.make ((maxClickedRetnum maxSelect).toNat + Q.size unclicked))
  (Q.pops (Q.size unclicked) unclicked).foldl Q.insert total

/-- The numbers drawn, as a `std::set<int>`. -/
def randIndexList (randomGen : ℕ → UInt32) (maxUnclickedRetnum : ℕ) : List ℤ :=
  let drawn := (List.range maxUnclickedRetnum).map fun i => (randomGen i).toInt32.toInt
  drawn.dedup.insertionSort (· ≤ ·)

/-- An `int` modulo a `size_t`. -/
def intMod (x : ℤ) (n : ℕ) : ℕ := (x % 2 ^ 64).toNat % n

def selectByRandSelectPolicy (randomGen : ℕ → UInt32) (maxUnclickedRetnum : ℕ)
    (unclickedDoclist : List ℕ) : Option (List ℕ) :=
  (randIndexList randomGen maxUnclickedRetnum).mapM fun x =>
    unclickedDoclist[intMod x unclickedDoclist.length]?

/-- The places that the ranked ads leave. -/
def Ranking.places (ranking : Ranking Q) (maxSelect : UInt64) : ℕ :=
  (maxUnclickedRetnum maxSelect).toNat - Q.size ranking.tmpUnclickedScorelist

/-- The unscored ads, or as many as there are places for. -/
def Ranking.selectUnclicked (ranking : Ranking Q) (maxSelect : UInt64)
    (randomGen : ℕ → UInt32) : Option (List ℕ) :=
  if ranking.places maxSelect < ranking.unclickedDoclist.length then
    selectByRandSelectPolicy randomGen (ranking.places maxSelect) ranking.unclickedDoclist
  else
    some ranking.unclickedDoclist

/-- The lists that the result is written to, and the lowest score so far. -/
structure Output (S : Type) where
  adDoclist : List ℕ
  scoreList : List S
  minScore : S

/-- `none` when a place is out of range. -/
def Output.write (output : Output S) (i docid : ℕ) (score : S) : Option (Output S) :=
  if i < output.adDoclist.length ∧ i < output.scoreList.length then
    some { output with
      adDoclist := output.adDoclist.set i docid
      scoreList := output.scoreList.set i score }
  else
    none

/-- The scored ads, from the last place to the first. -/
def writeScored : ℕ → Q.Queue → Output S → Option (Output S)
  | 0, _, output => some output
  | i + 1, queue, output => do
    let (item, queue) ← Q.pop queue
    let output ← output.write i item.docId item.score
    writeScored i queue { output with minScore := min item.score output.minScore }

def addPending (selector : AdSelector S) (userInfo : Feature) (docids : List ℕ) : AdSelector S :=
  if docids = [] then selector
  else { selector with
    pendingComputeDoclist := selector.pendingComputeDoclist ++ [(userInfo, docids)]
    needRefresh := true }

variable [One S] [Sub S]

/-- The other ads, from place `retI` on. -/
def writeUnclicked : List ℕ → ℕ → Output S → Option (Output S)
  | [], _, output => some output
  | docid :: docids, retI, output => do
    let output ← output.write retI docid (output.minScore - 1)
    writeUnclicked docids (retI + 1) output

structure Selected (S : Type) where
  selector : AdSelector S
  found : Bool
  adDoclist : List ℕ
  scoreList : List S

/-- `AdSelector::select`; `none` when it would access a place out of range. The first random
number decides whether unclicked ads are ranked, the others are for the sampler. -/
def select (Q : BoundedQueue (ScoreDoc S)) (selector : AdSelector S) (userInfo : Feature)
    (maxSelect : UInt64) (randomGen : ℕ → UInt32) (adDoclist : List ℕ) (scoreList : List S) :
    Option (Selected S) :=
  if adDoclist = [] then
    some { selector := selector, found := false, adDoclist := [], scoreList := scoreList }
  else do
    let ranking : Ranking Q :=
      selector.rankCandidates userInfo maxSelect (randomGen 0) adDoclist
    let total := selector.totalScorelist userInfo maxSelect ranking
    let unclickedDoclist ← ranking.selectUnclicked maxSelect fun i => randomGen (i + 1)
    let output ← writeScored (Q.size total) total
      { adDoclist := adDoclist
        scoreList := resize scoreList adDoclist.length 0
        minScore := 0 }
    let output ← writeUnclicked unclickedDoclist (Q.size total) output
    let docids := resize output.adDoclist (Q.size total + unclickedDoclist.length) 0
    some
      { selector := selector.addPending userInfo ranking.pendingComputeDoclist
        found := docids ≠ []
        adDoclist := docids
        scoreList := resize output.scoreList docids.length 0 }

end AdSelector

end AdSelector

open AdSelector

/-! ## What a selection returns

The three queues and the list of unscored ads divide the candidates among themselves, so that
no ad reaches the result twice through different queues, and the writes stay within the list
of the candidates. Only the sampler can repeat an ad: it draws as many numbers as there are
places left, and different numbers may be the same place of the list of unscored ads.
-/

section Selection

open List

variable {S : Type} [LinearOrder S]

theorem toInt_toInt32_injective : Function.Injective fun r : UInt32 => r.toInt32.toInt := by
  intro a b h
  have hsame := congrArg Int32.toUInt32 (Int32.toInt_inj.mp h)
  rwa [UInt32.toUInt32_toInt32] at hsame

/-- Different numbers among those drawn are different places of a list of this length. -/
def DistinctDraws (randomGen : ℕ → UInt32) (count length : ℕ) : Prop :=
  ∀ i < count, ∀ j < count,
    intMod (randomGen i).toInt32.toInt length =
      intMod (randomGen j).toInt32.toInt length → randomGen i = randomGen j

theorem mem_randIndexList {randomGen : ℕ → UInt32} {count : ℕ} {x : ℤ} :
    x ∈ randIndexList randomGen count ↔
      ∃ i < count, (randomGen i).toInt32.toInt = x := by
  rw [randIndexList, mem_insertionSort, mem_dedup, mem_map]
  simp only [mem_range]

variable (randomGen : ℕ → UInt32)

theorem length_randIndexList_le (count : ℕ) :
    (randIndexList randomGen count).length ≤ count := by
  rw [randIndexList, length_insertionSort]
  refine (dedup_sublist _).length_le.trans ?_
  rw [List.length_map, length_range]

/-- The sampler reads within the list. It returns at most as many ads as it draws numbers, and
each of them once exactly if different numbers are different places. -/
theorem selectByRandSelectPolicy_spec {count : ℕ} {docids : List ℕ}
    (hcount : count < docids.length) :
    ∃ drawn, selectByRandSelectPolicy randomGen count docids = some drawn ∧
      drawn ⊆ docids ∧ drawn.length ≤ count ∧
      (docids.Nodup → (drawn.Nodup ↔ DistinctDraws randomGen count docids.length)) := by
  have hlt : ∀ x, intMod x docids.length < docids.length := fun x =>
    mod_lt _ (zero_lt_of_lt hcount)
  refine ⟨(randIndexList randomGen count).map fun x =>
    docids.get ⟨intMod x docids.length, hlt x⟩,
    ?read, ?subset, ?length, fun hnodup => ?nodup⟩
  case read => exact mapM_eq_some fun x _ => getElem?_eq_getElem (hlt x)
  case subset =>
    intro docid hdocid
    obtain ⟨x, -, rfl⟩ := mem_map.mp hdocid
    exact getElem_mem _
  case length =>
    rw [List.length_map]
    exact length_randIndexList_le randomGen count
  case nodup =>
    have hsorted : (randIndexList randomGen count).Nodup :=
      (perm_insertionSort _ _).nodup_iff.mpr (nodup_dedup _)
    rw [nodup_map_iff_inj_on hsorted]
    simp only [hnodup.get_inj_iff, Fin.mk.injEq, mem_randIndexList]
    constructor
    · intro h i hi j hj hmod
      exact toInt_toInt32_injective (h _ ⟨i, hi, rfl⟩ _ ⟨j, hj, rfl⟩ hmod)
    · rintro h _ ⟨i, hi, rfl⟩ _ ⟨j, hj, rfl⟩ hmod
      rw [h i hi j hj hmod]

section Candidates

variable [Zero S] {Q : BoundedQueue (ScoreDoc S)} (selector : AdSelector S)
  (userSegStr : List (List Char)) (randomSelect many : Bool)

/-- The entry of a candidate that is ranked with the clicked ones. -/
def clickedDoc (docid : ℕ) : Option (ScoreDoc S) :=
  if selector.clickedAds docid then
    (if many then selector.getHistoryCTR userSegStr (selector.adSegidData docid)
      else some 0).map (mk docid)
  else none

/-- The entry of a candidate that is ranked with the ads not clicked. -/
def unclickedDoc (docid : ℕ) : Option (ScoreDoc S) :=
  if selector.clickedAds docid then none
  else
    (if randomSelect then none
      else selector.getHistoryCTR userSegStr (selector.adSegidData docid)).map
        (mk docid)

def unscored (docid : ℕ) : Bool :=
  !(clickedDoc selector userSegStr many docid).isSome &&
    !(unclickedDoc selector userSegStr randomSelect docid).isSome

omit [LinearOrder S] [Zero S] in
theorem docId_eq_of_map {score : Option S} {docid : ℕ} {item : ScoreDoc S}
    (h : score.map (ScoreDoc.mk docid) = some item) : item.docId = docid := by
  obtain ⟨score, -, rfl⟩ := Option.map_eq_some_iff.mp h
  rfl

theorem docId_clickedDoc {docid : ℕ} {item : ScoreDoc S}
    (h : clickedDoc selector userSegStr many docid = some item) : item.docId = docid := by
  rw [clickedDoc] at h
  split at h
  · exact docId_eq_of_map h
  · exact nomatch h

theorem docId_unclickedDoc {docid : ℕ} {item : ScoreDoc S}
    (h : unclickedDoc selector userSegStr randomSelect docid = some item) : item.docId = docid := by
  rw [unclickedDoc] at h
  split at h
  · exact nomatch h
  · exact docId_eq_of_map h

/-- A candidate goes to one of the queues or to the unscored ads. -/
theorem rankCandidate_cases (ranking : Ranking Q) (docid : ℕ) :
    let ranked := selector.rankCandidate userSegStr randomSelect many ranking docid
    (∃ item, clickedDoc selector userSegStr many docid = some item ∧
      unclickedDoc selector userSegStr randomSelect docid = none ∧ ranked =
        { ranking with tmpClickedScorelist := Q.insert ranking.tmpClickedScorelist item }) ∨
    (∃ item, clickedDoc selector userSegStr many docid = none ∧
      unclickedDoc selector userSegStr randomSelect docid = some item ∧ ranked =
        { ranking with tmpUnclickedScorelist := Q.insert ranking.tmpUnclickedScorelist item }) ∨
    (clickedDoc selector userSegStr many docid = none ∧
      unclickedDoc selector userSegStr randomSelect docid = none ∧ ∃ pending, ranked =
        { ranking with
          unclickedDoclist := ranking.unclickedDoclist ++ [docid]
          pendingComputeDoclist := pending }) := by
  intro ranked
  by_cases hads : selector.clickedAds docid = true
  · have hunclicked : unclickedDoc selector userSegStr randomSelect docid = none := if_pos hads
    rcases hscore : (if many = true then
      selector.getHistoryCTR userSegStr (selector.adSegidData docid) else some 0) with _ | score
    · refine .inr (.inr ⟨?_, hunclicked, ranking.pendingComputeDoclist ++ [docid], ?_⟩)
      · rw [clickedDoc, if_pos hads, hscore, Option.map_none]
      · simp only [ranked, rankCandidate, if_pos hads, hscore]
    · refine .inl ⟨{ docId := docid, score := score }, ?_, hunclicked, ?_⟩
      · rw [clickedDoc, if_pos hads, hscore, Option.map_some]
      · simp only [ranked, rankCandidate, if_pos hads, hscore]
  · have hclicked : clickedDoc selector userSegStr many docid = none := if_neg hads
    rcases hscore : (if randomSelect = true then none else
      selector.getHistoryCTR userSegStr (selector.adSegidData docid)) with _ | score
    · refine .inr (.inr ⟨hclicked, ?_, ranking.pendingComputeDoclist, ?_⟩)
      · rw [unclickedDoc, if_neg hads, hscore, Option.map_none]
      · simp only [ranked, rankCandidate, if_neg hads, hscore]
    · refine .inr (.inl ⟨{ docId := docid, score := score }, hclicked, ?_, ?_⟩)
      · rw [unclickedDoc, if_neg hads, hscore, Option.map_some]
      · simp only [ranked, rankCandidate, if_neg hads, hscore]

/-- The loop puts every candidate into one place. -/
theorem foldl_rankCandidate (docids : List ℕ) (ranking : Ranking Q) :
    let ranked :=
      docids.foldl (selector.rankCandidate userSegStr randomSelect many) ranking
    ranked.tmpClickedScorelist = (docids.filterMap (clickedDoc selector userSegStr many)).foldl
        Q.insert ranking.tmpClickedScorelist ∧
      ranked.tmpUnclickedScorelist =
        (docids.filterMap (unclickedDoc selector userSegStr randomSelect)).foldl
          Q.insert ranking.tmpUnclickedScorelist ∧
      ranked.unclickedDoclist = ranking.unclickedDoclist ++
        docids.filter (unscored selector userSegStr randomSelect many) := by
  induction docids generalizing ranking with
  | nil => exact ⟨rfl, rfl, (append_nil _).symm⟩
  | cons docid docids ih =>
    obtain ⟨hclicked, hunclicked, hunscored⟩ :=
      ih (selector.rankCandidate userSegStr randomSelect many ranking docid)
    refine ⟨hclicked.trans ?_, hunclicked.trans ?_, hunscored.trans ?_⟩
    all_goals
      obtain ⟨item, hc, hu, hranked⟩ | ⟨item, hc, hu, hranked⟩ | ⟨hc, hu, pending, hranked⟩ :=
        rankCandidate_cases selector userSegStr randomSelect many ranking docid
      · simp [hranked, hc, hu, unscored]
      · simp [hranked, hc, hu, unscored]
      · simp [hranked, hc, hu, unscored]

end Candidates

/-- Every element has one of two properties or neither. -/
theorem filter_perm_of_disjoint {α : Type*} {p q : α → Bool} (h : ∀ x, p x → ¬q x) (xs : List α) :
    (xs.filter p ++ xs.filter q ++ xs.filter fun x => !p x && !q x).Perm xs := by
  have hrest : (xs.filter q ++ xs.filter fun x => !p x && !q x).Perm
      (xs.filter fun x => !p x) := by
    have hq : xs.filter q = (xs.filter fun x => !p x).filter q := by
      rw [filter_filter]
      refine filter_congr fun x _ => ?_
      cases hp : p x <;> simp_all
    have hneither : (xs.filter fun x => !p x && !q x) =
        (xs.filter fun x => !p x).filter fun x => !q x := by
      rw [filter_filter]
      exact filter_congr fun x _ => Bool.and_comm _ _
    rw [hq, hneither]
    exact filter_append_perm _ _
  rw [append_assoc]
  exact (hrest.append_left _).trans (filter_append_perm _ _)

theorem map_subperm {α β : Type*} (f : α → β) {xs ys : List α} (h : xs.Subperm ys) :
    (xs.map f).Subperm (ys.map f) := by
  obtain ⟨zs, hperm, hsub⟩ := h
  exact ⟨zs.map f, hperm.map f, hsub.map f⟩

omit [LinearOrder S] in
theorem map_docId_filterMap {f : ℕ → Option (ScoreDoc S)}
    (h : ∀ docid item, f docid = some item → item.docId = docid) (docids : List ℕ) :
    (docids.filterMap f).map docId = docids.filter fun docid => (f docid).isSome := by
  induction docids with
  | nil => rfl
  | cons docid docids ih =>
    rcases hf : f docid with _ | item
    · simp [hf, ih]
    · simp [hf, ih, h docid item hf]

section Ranked

variable [Zero S] (selector : AdSelector S) (userInfo : Feature) (maxSelect : UInt64)
  (random : UInt32) (adDoclist : List ℕ)

def clickedDocs : List ℕ :=
  adDoclist.filter fun docid => (clickedDoc selector (getUserSegmentStr userInfo)
    ((maxTmpClickedNum maxSelect).toNat < adDoclist.length) docid).isSome

def unclickedDocs : List ℕ :=
  adDoclist.filter fun docid => (unclickedDoc selector (getUserSegmentStr userInfo)
    (randomSelect random) docid).isSome

/-- The candidates that get no score. -/
def unscoredDocs : List ℕ :=
  adDoclist.filter (unscored selector (getUserSegmentStr userInfo) (randomSelect random)
    ((maxTmpClickedNum maxSelect).toNat < adDoclist.length))

/-- The places left for them. -/
def placesLeft : ℕ :=
  (maxUnclickedRetnum maxSelect).toNat -
    (unclickedDocs selector userInfo random adDoclist).length

/-- The candidates that get a score, with the score they are returned with. -/
def scoredDocs : List (ScoreDoc S) :=
  (clickedDocs selector userInfo maxSelect adDoclist).map (fun docid =>
      { docId := docid, score := selector.predict userInfo [] }) ++
    adDoclist.filterMap (unclickedDoc selector (getUserSegmentStr userInfo)
      (randomSelect random))

theorem map_docId_scoredDocs :
    (scoredDocs selector userInfo maxSelect random adDoclist).map docId =
      clickedDocs selector userInfo maxSelect adDoclist ++
        unclickedDocs selector userInfo random adDoclist := by
  have hunclicked := map_docId_filterMap (fun _ _ => docId_unclickedDoc selector
    (getUserSegmentStr userInfo) (randomSelect random)) adDoclist
  have hclicked : ((clickedDocs selector userInfo maxSelect adDoclist).map fun docid =>
      { docId := docid, score := selector.predict userInfo [] : ScoreDoc S }).map docId =
        clickedDocs selector userInfo maxSelect adDoclist := by
    rw [map_map]
    exact map_id _
  rw [scoredDocs, map_append, hclicked, hunclicked, unclickedDocs]

/-- Every candidate is in one of the three groups. -/
theorem candidates_perm : ((scoredDocs selector userInfo maxSelect random adDoclist).map docId ++
      unscoredDocs selector userInfo maxSelect random adDoclist).Perm adDoclist := by
  rw [map_docId_scoredDocs]
  refine filter_perm_of_disjoint (fun docid hclicked hunclicked => ?_) adDoclist
  by_cases hads : selector.clickedAds docid = true
  · rw [unclickedDoc, if_pos hads] at hunclicked
    exact Bool.false_ne_true hunclicked
  · rw [clickedDoc, if_neg hads] at hclicked
    exact Bool.false_ne_true hclicked

variable {Q : BoundedQueue (ScoreDoc S)} {tolerance : Tolerance S}

/-- The queue of the result is filled with candidates that have a score, each at most once, and
the unscored ones are all kept. -/
theorem rankCandidates_spec
    (hQ : Q.IsQueueFor fun a b => lessThan tolerance a b) :
    let ranking : Ranking Q :=
      selector.rankCandidates userInfo maxSelect random adDoclist
    (∃ ranked : List (ScoreDoc S),
      ranked.Subperm (scoredDocs selector userInfo maxSelect random adDoclist) ∧
      selector.totalScorelist userInfo maxSelect ranking = ranked.foldl Q.insert (Q.make
        ((maxClickedRetnum maxSelect).toNat +
          Q.size ranking.tmpUnclickedScorelist))) ∧
      ranking.unclickedDoclist = unscoredDocs selector userInfo maxSelect random adDoclist ∧
      Q.size ranking.tmpUnclickedScorelist ≤ (maxUnclickedRetnum maxSelect).toNat ∧
      ranking.places maxSelect = placesLeft selector userInfo maxSelect random adDoclist := by
  intro ranking
  obtain ⟨hclicked, hunclicked, hunscored⟩ := foldl_rankCandidate selector
    (getUserSegmentStr userInfo) (randomSelect random)
    ((maxTmpClickedNum maxSelect).toNat < adDoclist.length) adDoclist
    { tmpClickedScorelist := Q.make (maxTmpClickedNum maxSelect).toNat
      tmpUnclickedScorelist := Q.make (maxUnclickedRetnum maxSelect).toNat }
  have hclickedDocs := map_docId_filterMap (fun _ _ => docId_clickedDoc selector
    (getUserSegmentStr userInfo)
    ((maxTmpClickedNum maxSelect).toNat < adDoclist.length)) adDoclist
  have hunclickedDocs := map_docId_filterMap (fun _ _ => docId_unclickedDoc selector
    (getUserSegmentStr userInfo) (randomSelect random)) adDoclist
  have hsize : Q.size ranking.tmpUnclickedScorelist =
      min (maxUnclickedRetnum maxSelect).toNat
        (unclickedDocs selector userInfo random adDoclist).length := by
    rw [unclickedDocs, ← hunclickedDocs, List.length_map, ← hQ.size_foldl_insert]
    exact congrArg Q.size hunclicked
  refine ⟨?ranked, hunscored, ?size, ?places⟩
  case ranked =>
    have hclickedPops := (hQ.pops_foldl_insert
      (maxTmpClickedNum maxSelect).toNat (adDoclist.filterMap (clickedDoc selector
        (getUserSegmentStr userInfo)
        ((maxTmpClickedNum maxSelect).toNat < adDoclist.length)))).2
    have hunclickedPops := (hQ.pops_foldl_insert
      (maxUnclickedRetnum maxSelect).toNat (adDoclist.filterMap (unclickedDoc selector
        (getUserSegmentStr userInfo) (randomSelect random)))).2
    rw [← hclicked] at hclickedPops
    rw [← hunclicked] at hunclickedPops
    have hrescored := map_subperm (fun item : ScoreDoc S =>
      { item with score := selector.predict userInfo [] }) hclickedPops
    have hall : (adDoclist.filterMap (clickedDoc selector (getUserSegmentStr userInfo)
        ((maxTmpClickedNum maxSelect).toNat < adDoclist.length))).map
          (fun item => { item with score := selector.predict userInfo [] }) =
        (clickedDocs selector userInfo maxSelect adDoclist).map fun docid =>
          { docId := docid, score := selector.predict userInfo [] } := by
      rw [clickedDocs, ← hclickedDocs, map_map]
      rfl
    rw [hall] at hrescored
    refine ⟨_, hrescored.append hunclickedPops, ?_⟩
    rw [foldl_append, foldl_map]
    rfl
  case size => exact hsize.trans_le (min_le_left _ _)
  case places =>
    rw [Ranking.places, placesLeft]
    omega

/-- Unscored candidates are all returned when they fit. Otherwise the numbers drawn decide
whether one of them is returned twice. -/
theorem selectUnclicked_spec
    (hQ : Q.IsQueueFor fun a b => lessThan tolerance a b)
    (randomGen : ℕ → UInt32) :
    let unclicked := unscoredDocs selector userInfo maxSelect random adDoclist
    let places := placesLeft selector userInfo maxSelect random adDoclist
    let ranking : Ranking Q :=
      selector.rankCandidates userInfo maxSelect random adDoclist
    ∃ drawn, ranking.selectUnclicked maxSelect randomGen = some drawn ∧
      drawn ⊆ unclicked ∧ drawn.length ≤ places ∧
      drawn.length ≤ unclicked.length ∧ (unclicked.Nodup →
        (drawn.Nodup ↔ (places < unclicked.length →
          DistinctDraws randomGen places unclicked.length))) := by
  intro unclicked places ranking
  obtain ⟨-, hunclicked, -, hplaces⟩ :=
    rankCandidates_spec selector userInfo maxSelect random adDoclist hQ
  rw [Ranking.selectUnclicked, hunclicked, hplaces]
  by_cases hfew : places < unclicked.length
  · obtain ⟨drawn, hdrawn, hsubset, hlength, hnodup⟩ :=
      selectByRandSelectPolicy_spec randomGen hfew
    rw [if_pos hfew]
    refine ⟨drawn, hdrawn, hsubset, hlength, hlength.trans hfew.le, fun h => ?_⟩
    rw [hnodup h]
    exact ⟨fun hdistinct _ => hdistinct, fun hdistinct => hdistinct hfew⟩
  · rw [if_neg hfew]
    exact ⟨unclicked, rfl, Subset.refl _, not_lt.mp hfew, le_rfl,
      fun h => iff_of_true h fun hlt => absurd hlt hfew⟩

end Ranked

/-- The scored ads overwrite the first places, the last one out of the queue in front, and no
score is below the lowest one. -/
theorem writeScored_spec {Q : BoundedQueue (ScoreDoc S)} (n : ℕ) (queue : Q.Queue)
    (hpops : (Q.pops n queue).length = n) (output : Output S)
    (hdocs : n ≤ output.adDoclist.length)
    (hscores : output.scoreList.length = output.adDoclist.length) :
    ∃ minScore, writeScored n queue output = some
          { adDoclist := (Q.pops n queue).reverse.map docId ++ output.adDoclist.drop n
            scoreList := (Q.pops n queue).reverse.map score ++ output.scoreList.drop n
            minScore := minScore } ∧
      minScore ≤ output.minScore ∧ ∀ item ∈ Q.pops n queue, minScore ≤ item.score := by
  induction n generalizing queue output with
  | zero => exact ⟨output.minScore, rfl, le_rfl, nofun⟩
  | succ n ih =>
    rw [pops] at hpops ⊢
    rcases hpop : Q.pop queue with _ | ⟨item, rest⟩
    · rw [hpop] at hpops
      cases hpops
    rw [hpop] at hpops
    obtain ⟨minScore, hwrite, hmin, hitems⟩ := ih rest (succ_injective hpops)
      { adDoclist := output.adDoclist.set n item.docId
        scoreList := output.scoreList.set n item.score
        minScore := min item.score output.minScore }
      (by rw [length_set]; omega) (by rw [length_set, length_set, hscores])
    refine ⟨minScore, ?_, hmin.trans (min_le_right _ _), ?_⟩
    · have hput : output.write n item.docId item.score = some
          { output with
            adDoclist := output.adDoclist.set n item.docId
            scoreList := output.scoreList.set n item.score } := by
        rw [Output.write, if_pos ⟨by omega, by omega⟩]
      rw [writeScored, hpop]
      dsimp only [Option.bind_eq_bind, Option.bind_some]
      rw [hput]
      dsimp only [Option.bind_some]
      rw [hwrite, drop_set_self (by omega), drop_set_self (by omega)]
      simp
    · intro other hother
      rcases mem_cons.mp hother with rfl | hother
      · exact hmin.trans (min_le_left _ _)
      · exact hitems other hother

section Unclicked

variable [Zero S] [One S] [Sub S]

omit [LinearOrder S] [Zero S] in
/-- The other ads overwrite the places that follow. -/
theorem writeUnclicked_spec (docids written rest : List ℕ) (scores restScores : List S)
    (minScore : S) (hrest : docids.length ≤ rest.length)
    (hscores : scores.length = written.length) (hrestScores : restScores.length = rest.length) :
    writeUnclicked docids written.length
        { adDoclist := written ++ rest
          scoreList := scores ++ restScores
          minScore := minScore } = some
      { adDoclist := written ++ docids ++ rest.drop docids.length
        scoreList := scores ++ List.replicate docids.length (minScore - 1) ++
          restScores.drop docids.length
        minScore := minScore } := by
  induction docids generalizing written rest scores restScores with
  | nil => simp [writeUnclicked]
  | cons docid docids ih =>
    obtain _ | ⟨place, rest⟩ := rest
    · exact absurd hrest (not_succ_le_zero _)
    obtain _ | ⟨score, restScores⟩ := restScores
    · exact absurd hrestScores.symm (succ_ne_zero _)
    have hput : Output.write
        { adDoclist := written ++ place :: rest
          scoreList := scores ++ score :: restScores
          minScore := minScore } written.length docid (minScore - 1) = some
        { adDoclist := written ++ [docid] ++ rest
          scoreList := scores ++ [minScore - 1] ++ restScores
          minScore := minScore } := by
      rw [Output.write, if_pos (by simp [hscores])]
      simp [← hscores]
    have hnext := ih (written ++ [docid]) rest (scores ++ [minScore - 1]) restScores
      (le_of_succ_le_succ hrest) (by simp [hscores]) (succ_injective hrestScores)
    rw [length_append, length_singleton] at hnext
    rw [writeUnclicked]
    dsimp only
    rw [hput]
    dsimp only [Option.bind_eq_bind, Option.bind_some]
    rw [hnext]
    simp [replicate_succ]

variable {Q : BoundedQueue (ScoreDoc S)} {adDoclist : List ℕ}

/-- What a selection returns, when the ads of the queue and the others have room. -/
theorem select_eq (selector : AdSelector S) (userInfo : Feature) (maxSelect : UInt64)
    (randomGen : ℕ → UInt32) (hne : adDoclist ≠ []) (scoreList : List S)
    {ranking : Ranking Q} {total : Q.Queue} {drawn : List ℕ}
    (hranking : ranking = selector.rankCandidates userInfo maxSelect (randomGen 0) adDoclist)
    (htotal : total = selector.totalScorelist userInfo maxSelect ranking)
    (hdrawn : ranking.selectUnclicked maxSelect (fun i => randomGen (i + 1)) = some drawn)
    (hpops : (Q.pops (Q.size total) total).length = Q.size total)
    (hroom : Q.size total + drawn.length ≤ adDoclist.length) :
    ∃ selected, selector.select Q userInfo maxSelect randomGen adDoclist scoreList =
        some selected ∧
      selected.adDoclist = (Q.pops (Q.size total) total).reverse.map docId ++ drawn ∧
      ∃ minScore, (∀ item ∈ Q.pops (Q.size total) total, minScore ≤ item.score) ∧
        selected.scoreList = (Q.pops (Q.size total) total).reverse.map score ++
          List.replicate drawn.length (minScore - 1) := by
  obtain ⟨minScore, hscored, -, hmin⟩ := writeScored_spec (Q.size total) total hpops
    { adDoclist := adDoclist
      scoreList := resize scoreList adDoclist.length 0
      minScore := 0 } (le_of_add_right_le hroom) (length_resize _ _ _)
  have hunclicked := writeUnclicked_spec drawn ((Q.pops (Q.size total) total).reverse.map docId)
    (adDoclist.drop (Q.size total)) ((Q.pops (Q.size total) total).reverse.map score)
    ((resize scoreList adDoclist.length 0).drop (Q.size total)) minScore
    (by rw [length_drop]; omega) (by simp) (by simp)
  rw [List.length_map, length_reverse, hpops] at hunclicked
  rw [AdSelector.select, if_neg hne]
  dsimp only
  rw [← hranking, ← htotal, hdrawn]
  dsimp only [Option.bind_eq_bind, Option.bind_some]
  rw [hscored]
  dsimp only [Option.bind_some]
  rw [hunclicked]
  refine ⟨_, rfl, ?_, minScore, hmin, ?_⟩
  · rw [resize_of_le (by simp [hpops]), take_left' (by simp [hpops])]
  · dsimp only
    rw [resize_of_le (by simp [hpops]), take_left' (by simp [hpops])]

theorem retnum_add {maxSelect : UInt64} (hselect : 1 ≤ maxSelect) :
    (maxClickedRetnum maxSelect).toNat +
      (maxUnclickedRetnum maxSelect).toNat = maxSelect.toNat := by
  have hpos : 1 ≤ maxSelect.toNat := UInt64.le_iff_toNat_le.mp hselect
  have hlt : maxSelect.toNat < 2 ^ 64 := maxSelect.toNat_lt
  have hclicked : (maxClickedRetnum maxSelect).toNat = maxSelect.toNat / 3 + 1 := by
    exact mod_eq_of_lt (show maxSelect.toNat / 3 + 1 < 2 ^ 64 by omega)
  have hle : maxClickedRetnum maxSelect ≤ maxSelect := by
    rw [UInt64.le_iff_toNat_le]
    omega
  rw [maxUnclickedRetnum, UInt64.toNat_sub_of_le _ _ hle]
  omega

omit [Zero S] in
/-- The scores of the queue fall, and the others are below them. -/
theorem pairwise_scores (hsub : ∀ score : S, score - 1 ≤ score) {items : List (ScoreDoc S)}
    (hitems : items.Pairwise fun a b => a.score ≤ b.score) {minScore : S}
    (hmin : ∀ item ∈ items, minScore ≤ item.score) (n : ℕ) :
    (items.reverse.map score ++ List.replicate n (minScore - 1)).Pairwise (· ≥ ·) := by
  refine pairwise_append.mpr ⟨?_, pairwise_replicate.mpr (Or.inr le_rfl), ?_⟩
  · exact pairwise_map.mpr (pairwise_reverse.mpr hitems)
  · intro score hscore below hbelow
    obtain ⟨item, hitem, rfl⟩ := mem_map.mp hscore
    rw [eq_of_mem_replicate hbelow]
    exact (hsub minScore).trans (hmin item (mem_reverse.mp hitem))

/-- A selection from some candidates returns candidates, no more than asked for. It returns none
of them twice exactly if the sampler does not repeat one, and with falling scores if the
comparison tells the scores apart. -/
theorem select_spec {tolerance : Tolerance S}
    (hQ : Q.IsQueueFor fun a b => lessThan tolerance a b)
    (hsub : ∀ score : S, score - 1 ≤ score) (selector : AdSelector S) (userInfo : Feature)
    {maxSelect : UInt64} (hselect : 1 ≤ maxSelect) (randomGen : ℕ → UInt32)
    (hne : adDoclist ≠ []) (scoreList : List S) :
    let unclicked := unscoredDocs selector userInfo maxSelect (randomGen 0) adDoclist
    let places := placesLeft selector userInfo maxSelect (randomGen 0) adDoclist
    ∃ selected, selector.select Q userInfo maxSelect randomGen adDoclist scoreList =
        some selected ∧
      selected.adDoclist ⊆ adDoclist ∧ selected.adDoclist.length ≤ maxSelect.toNat ∧
      selected.scoreList.length = selected.adDoclist.length ∧
      (adDoclist.Nodup → (selected.adDoclist.Nodup ↔ (places < unclicked.length →
        DistinctDraws (fun i => randomGen (i + 1)) places unclicked.length))) ∧
      (adDoclist.Nodup → ToldApart tolerance
          {doc | doc ∈ scoredDocs selector userInfo maxSelect (randomGen 0) adDoclist} →
        selected.scoreList.Pairwise (· ≥ ·)) := by
  intro unclicked places
  obtain ⟨⟨ranked, hranked, htotal⟩, hunscored, hsize, hplaces⟩ :=
    rankCandidates_spec selector userInfo maxSelect (randomGen 0) adDoclist hQ
  obtain ⟨drawn, hdrawn, hsubset, hfit, hlength, hnodup⟩ := selectUnclicked_spec selector
    userInfo maxSelect (randomGen 0) adDoclist hQ fun i => randomGen (i + 1)
  have hperm := candidates_perm selector userInfo maxSelect (randomGen 0) adDoclist
  set ranking : Ranking Q :=
    selector.rankCandidates userInfo maxSelect (randomGen 0) adDoclist with hranking
  obtain ⟨hpops, hpopped⟩ := hQ.pops_foldl_insert
    ((maxClickedRetnum maxSelect).toNat + Q.size ranking.tmpUnclickedScorelist) ranked
  have htotalSize := hQ.size_foldl_insert
    ((maxClickedRetnum maxSelect).toNat + Q.size ranking.tmpUnclickedScorelist) ranked
  have hsorted (hr) := hQ.pops_foldl_insert_sorted (D := {doc | doc ∈ scoredDocs selector userInfo
    maxSelect (randomGen 0) adDoclist}) hr ((maxClickedRetnum maxSelect).toNat +
      Q.size ranking.tmpUnclickedScorelist) fun doc hdoc => hranked.subset hdoc
  rw [← htotal] at hpops hpopped htotalSize hsorted
  have hscored := map_subperm docId (hpopped.trans hranked)
  have hscoredLength := hscored.length_le
  have hcandidates := hperm.length_eq
  rw [List.length_map, hpops] at hscoredLength
  rw [length_append] at hcandidates
  obtain ⟨selected, hselected, hdocs, minScore, hmin, hscores⟩ := select_eq selector userInfo
    maxSelect randomGen hne scoreList hranking rfl hdrawn hpops (by omega)
  have hunscoredSubset : drawn ⊆ adDoclist := fun docid hdocid =>
    mem_of_mem_filter (hsubset hdocid)
  rw [map_reverse] at hdocs
  refine ⟨selected, hselected, ?subset, ?length, ?scores, fun hcand => ?nodup, fun hcand htold =>
    ?sorted⟩
  case subset =>
    rw [hdocs]
    refine append_subset.mpr ⟨fun docid hdocid => ?_, hunscoredSubset⟩
    exact hperm.subset (mem_append_left _ (hscored.subset (mem_reverse.mp hdocid)))
  case length =>
    have hadd := retnum_add hselect
    rw [Ranking.places] at hplaces
    rw [hdocs, length_append, length_reverse, List.length_map, hpops]
    omega
  case scores =>
    rw [hscores, hdocs, length_append, length_append, List.length_map, length_reverse,
      length_reverse, List.length_map, length_replicate]
  case nodup =>
    rw [hdocs, ← hnodup (hcand.filter _)]
    constructor
    · exact fun h => (nodup_append.mp h).2.1
    · intro h
      have hall := ((reverse_perm _).subperm.trans hscored).append (subperm_of_subset h hsubset)
      exact nodup_of_subperm (hall.trans hperm.subperm) hcand
  case sorted =>
    have hscoredNodup := (nodup_append.mp (hperm.nodup_iff.mpr hcand)).1.of_map
    have hlt := hsorted (ordersOn_lessThan htold) (nodup_of_subperm hranked
      hscoredNodup)
    rw [hscores]
    refine pairwise_scores hsub ?_ hmin _
    refine hlt.imp_of_mem fun {a b} ha hb hab => ?_
    have hin := (hpopped.trans hranked).subset
    rcases Prod.Lex.lt_iff.mp ((lessThan_iff_lt htold (hin ha) (hin hb)).mp hab) with h | ⟨h, -⟩
    · exact h.le
    · exact h.le

/-- The result consists of candidates, each once and not too many, with falling scores. -/
structure IsSelection (candidates : List ℕ) (maxSelect : UInt64) (adDoclist : List ℕ)
    (scoreList : List S) : Prop where
  nodup : adDoclist.Nodup
  subset : adDoclist ⊆ candidates
  length_le : adDoclist.length ≤ maxSelect.toNat
  length_eq : scoreList.length = adDoclist.length
  sorted : scoreList.Pairwise (· ≥ ·)

/-- What a duplicate-free selection depends on. Without candidates the list of scores is left as
it is. Otherwise the unscored ads need enough places, or numbers that are drawn for different
places. -/
def PlacedApart (selector : AdSelector S) (userInfo : Feature) (maxSelect : UInt64)
    (randomGen : ℕ → UInt32) (adDoclist : List ℕ) (scoreList : List S) : Prop :=
  (adDoclist = [] → scoreList = []) ∧
    (placesLeft selector userInfo maxSelect (randomGen 0) adDoclist <
        (unscoredDocs selector userInfo maxSelect (randomGen 0) adDoclist).length →
      DistinctDraws (fun i => randomGen (i + 1))
        (placesLeft selector userInfo maxSelect (randomGen 0) adDoclist)
        (unscoredDocs selector userInfo maxSelect (randomGen 0) adDoclist).length)

end Unclicked

/-- `std::numeric_limits<double>::epsilon()`. -/
def epsilon : ℚ := 1 / 4503599627370496

def withinEpsilon : Tolerance ℚ where
  near s t := s - t < epsilon ∧ t - s < epsilon
  near_self s := by
    have h : s - s < epsilon := by
      rw [sub_self]
      decide +kernel
    exact decide_eq_true ⟨h, h⟩
  near_comm s t := by simp only [and_comm]

/-- The hit queue, kept in a list. -/
abbrev hitQueue : BoundedQueue (ScoreDoc ℚ) :=
  listQueue (lessThan withinEpsilon)

/-- A selector that knows one clicked ad and no history. -/
def freshSelector : AdSelector ℚ where
  historyCtrData := ∅
  clickedAds := fun docid => docid = 3
  adSegidData := fun _ => [0]
  predict := fun _ _ => 1 / 2

/-- Three ads whose rates are less than epsilon apart. -/
def closeSelector : AdSelector ℚ where
  historyCtrData := Finmap.insert [] [0, 1 / 50000000000000000, 1 / 100000000000000000] ∅
  clickedAds := fun _ => false
  adSegidData := fun docid => [docid.toUInt16]
  predict := fun _ _ => 0

-- they are returned by their ids, and the scores do not fall
example : (closeSelector.select hitQueue [] 20 (fun _ => 500) [0, 1, 2] []).map
    Selected.scoreList =
      some [1 / 100000000000000000, 1 / 50000000000000000, 0] := by decide +kernel

/-- Among fourteen ads without a score, the numbers 0 and 14 are the same place. -/
def collidingDraws (i : ℕ) : UInt32 :=
  [500, 0, 14, 1, 2, 3, 4, 5, 6, 7, 8, 9, 10, 11].getD i 0

end Selection

end AdDelivery.Selector
