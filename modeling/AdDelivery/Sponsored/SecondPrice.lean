import AdDelivery.Sponsored.Search
import Mathlib.Tactic.Linarith
import Mathlib.Tactic.Positivity

/-!
# What a ranked ad pays

The ads of a search go through a bounded queue and come out of it in ascending order of their
scores. The last ad pays its own bid. Every other one pays what it would have to bid for the score
below it, with the lowest click cost added on top, and that can be more than it has bid.
-/

namespace AdDelivery.Sponsored

open List AdSponsoredMgr

def maxRankedAdNum : ℕ := 20

def minAdScore : ℚ := 1 / 1000000

/-- The bounded priority queue: what it holds after some insertions, in the order it pops. -/
structure RankedQueue where
  pops : List ScoreSponsoredAdDoc → List ScoreSponsoredAdDoc
  pops_subperm : ∀ docs, (pops docs).Subperm docs
  length_pops : ∀ docs, (pops docs).length = min maxRankedAdNum docs.length
  pops_ascending : ∀ docs, (pops docs).Pairwise fun lower upper => lower.score ≤ upper.score

/-- One position of the answer, with the cost of a click there. -/
structure RankedAd where
  doc : ScoreSponsoredAdDoc
  cost : ℚ

/-- Fill the position above those that are filled already. -/
def chargeAd (ranked : List RankedAd) (item : ScoreSponsoredAdDoc) : List RankedAd :=
  match ranked with
  | [] => [⟨item, max (lowestClickCost : ℚ) (item.score / item.qscore) / 100⟩]
  | below :: rest =>
    ⟨item, (lowestClickCost + below.doc.score / item.qscore) / 100⟩ :: below :: rest

/-- Rank the ads of a search and charge them, the best one first. -/
def rankAds (queue : RankedQueue) (items : List ScoreSponsoredAdDoc) : List RankedAd :=
  (queue.pops (items.filter fun item => minAdScore < item.score)).foldl chargeAd []

/-- The ad bids this price for its phrase, and its score is made of it. -/
def AdSponsoredMgr.Bids (w : World) (s : AdSponsoredMgr) (doc : ScoreSponsoredAdDoc)
    (bidprice : Int) : Prop :=
  ∃ rand, s.getAdBidPrice w rand doc.docId doc.hitBidstr = .ok bidprice ∧
    doc.score = (max lowestClickCost bidprice : Int) * doc.qscore

section Bids

variable {w : World} {s : AdSponsoredMgr} {hit : BidKeywordId → Bool}

theorem bids_of_matchAd {docId rand : ℕ} {item : ScoreSponsoredAdDoc}
    (hitem : s.matchAd w rand hit docId = .ok (some item)) :
    ∃ bidprice, s.Bids w item bidprice := by
  rw [matchAd_eq] at hitem
  cases hstatus : access .statusBitmap s.adStatusBitmap docId with
  | error fault =>
    rw [hstatus] at hitem
    cases hitem
  | ok offline =>
    rw [hstatus] at hitem
    dsimp only [bind, Except.bind] at hitem
    split at hitem
    · cases hitem
    · split at hitem
      · cases hitem
      · split at hitem
        · cases hitem
        · obtain ⟨rfl, -, bidprice, hprice, hscore⟩ := priceMatch_item hitem
          exact ⟨bidprice, rand, hprice, hscore⟩

variable {items : List ScoreSponsoredAdDoc}

theorem bids_of_matchAds {results : List (ℕ × ℕ)} (hitems : s.matchAds w hit results = .ok items) :
    ∀ item ∈ items, ∃ bidprice, s.Bids w item bidprice := by
  induction results generalizing items with
  | nil =>
    obtain rfl := Except.ok.inj hitems
    exact nofun
  | cons result results ih =>
    obtain ⟨docId, rand⟩ := result
    rw [matchAds] at hitems
    cases hfirst : s.matchAd w rand hit docId with
    | error fault =>
      rw [hfirst] at hitems
      cases hitems
    | ok first =>
      rw [hfirst] at hitems
      cases hrest : s.matchAds w hit results with
      | error fault =>
        rw [hrest] at hitems
        cases hitems
      | ok rest =>
        rw [hrest] at hitems
        obtain rfl := Except.ok.inj hitems
        intro item hitem
        rcases mem_append.mp hitem with hitem | hitem
        · obtain rfl := Option.mem_toList.mp hitem
          exact bids_of_matchAd hfirst
        · exact ih hrest item hitem

theorem bids_of_sponsoredAdSearch {cfg : Config} {search : String → List (ℕ × ℕ)} {query : String}
    (hitems : s.sponsoredAdSearch cfg w search query = .ok items) :
    ∀ item ∈ items, ∃ bidprice, s.Bids w item bidprice := by
  unfold sponsoredAdSearch at hitems
  dsimp only at hitems
  split at hitems
  · obtain rfl := Except.ok.inj hitems
    exact nofun
  · exact bids_of_matchAds hitems

end Bids

/-- The score of `upper` is above that of `lower` by the lowest click cost at its own quality. -/
def Outscores (lower upper : ScoreSponsoredAdDoc) : Prop :=
  lower.score + lowestClickCost * upper.qscore ≤ upper.score

theorem chargeAds_concat (pops : List ScoreSponsoredAdDoc) (below item : ScoreSponsoredAdDoc) :
    (pops ++ [below] ++ [item]).foldl chargeAd [] =
      ⟨item, (lowestClickCost + below.score / item.qscore) / 100⟩ ::
        (pops ++ [below]).foldl chargeAd [] := by
  rw [foldl_append, foldl_append]
  cases pops.foldl chargeAd [] with
  | nil => rfl
  | cons first rest => rfl

/-- The ads that are charged are those that were popped. -/
theorem mem_pops_of_mem_chargeAds {pops : List ScoreSponsoredAdDoc} {ad : RankedAd}
    (had : ad ∈ pops.foldl chargeAd []) : ad.doc ∈ pops := by
  induction pops using List.reverseRecOn with
  | nil => cases had
  | append_singleton pops item ih =>
    rcases eq_nil_or_concat' pops with rfl | ⟨pops, below, rfl⟩
    · rw [mem_singleton.mp had]
      exact mem_singleton_self _
    · rw [chargeAds_concat] at had
      rcases mem_cons.mp had with rfl | had
      · exact mem_append_right _ (mem_singleton_self _)
      · exact mem_append_left _ (ih had)

section Charge

variable {pops : List ScoreSponsoredAdDoc}

/-- No ad pays less than the lowest click cost. -/
theorem lowest_le_cost (hscore : ∀ item ∈ pops, 0 ≤ item.score)
    (hquality : ∀ item ∈ pops, 0 < item.qscore) :
    ∀ ad ∈ pops.foldl chargeAd [], (lowestClickCost : ℚ) / 100 ≤ ad.cost := by
  induction pops using List.reverseRecOn with
  | nil => exact nofun
  | append_singleton pops item ih =>
    intro ad had
    have hquality' := hquality item (mem_append_right _ (mem_singleton_self _))
    rcases eq_nil_or_concat' pops with rfl | ⟨pops, below, rfl⟩
    · rw [mem_singleton.mp had]
      exact div_le_div_of_nonneg_right (le_max_left _ _) (by norm_num)
    · rw [chargeAds_concat] at had
      rcases mem_cons.mp had with rfl | had
      · have hbelow := hscore below (by simp)
        have hshare : 0 ≤ below.score / item.qscore := div_nonneg hbelow hquality'.le
        exact div_le_div_of_nonneg_right (by linarith) (by norm_num)
      · exact ih (fun i hi => hscore i (mem_append_left _ hi))
          (fun i hi => hquality i (mem_append_left _ hi)) ad had

/-- No ad pays more than the price its score is made of exactly if each ad outscores those below
it. -/
theorem cost_le_iff_outscores
    (hascending : pops.Pairwise fun lower upper => lower.score ≤ upper.score)
    (hquality : ∀ item ∈ pops, 0 < item.qscore)
    (hlowest : ∀ item ∈ pops, (lowestClickCost : ℚ) ≤ item.score / item.qscore) :
    (∀ ad ∈ pops.foldl chargeAd [], ad.cost ≤ ad.doc.score / ad.doc.qscore / 100) ↔
      pops.Pairwise Outscores := by
  induction pops using List.reverseRecOn with
  | nil => simp
  | append_singleton pops item ih =>
    have hmem : item ∈ pops ++ [item] := mem_append_right _ (mem_singleton_self _)
    rw [pairwise_append] at hascending ⊢
    have ih := ih hascending.1 (fun i hi => hquality i (mem_append_left _ hi))
      (fun i hi => hlowest i (mem_append_left _ hi))
    rcases eq_nil_or_concat' pops with rfl | ⟨pops, below, rfl⟩
    · refine iff_of_true ?_ (by simp)
      intro ad had
      rw [mem_singleton.mp had]
      exact div_le_div_of_nonneg_right (max_le (hlowest item hmem) le_rfl) (by norm_num)
    · have htop : (lowestClickCost + below.score / item.qscore) / 100 ≤
          item.score / item.qscore / 100 ↔ Outscores below item := by
        have hq := hquality item hmem
        have hsum : lowestClickCost + below.score / item.qscore =
            (below.score + lowestClickCost * item.qscore) / item.qscore := by
          rw [add_div, mul_div_cancel_right₀ _ hq.ne', add_comm]
        rw [div_le_div_iff_of_pos_right (by norm_num), hsum, div_le_div_iff_of_pos_right hq]
        rfl
      rw [chargeAds_concat, forall_mem_cons, ih, htop]
      constructor
      · rintro ⟨hbelow, hpops⟩
        refine ⟨hpops, pairwise_singleton _ _, ?_⟩
        intro lower hlower upper hupper
        rw [mem_singleton.mp hupper]
        have hle : lower.score ≤ below.score := by
          rcases mem_append.mp hlower with hlower | hlower
          · exact (pairwise_append.mp hascending.1).2.2 lower hlower below
              (mem_singleton_self _)
          · rw [mem_singleton.mp hlower]
        unfold Outscores at hbelow ⊢
        linarith
      · rintro ⟨hpops, -, hcross⟩
        exact ⟨hcross below (mem_append_right _ (mem_singleton_self _)) item
          (mem_singleton_self _), hpops⟩

end Charge

/-- In the ranking of a search no ad pays less than the lowest click cost, and none pays more than
its bid exactly if each ranked ad outscores all those below it. -/
theorem costs_within_bid_iff (queue : RankedQueue) {cfg : Config} {w : World} {s : AdSponsoredMgr}
    {search : String → List (ℕ × ℕ)} {query : String} {items : List ScoreSponsoredAdDoc}
    (hitems : s.sponsoredAdSearch cfg w search query = .ok items)
    (hquality : ∀ item ∈ items, 0 < item.qscore) :
    (∀ ad ∈ rankAds queue items, ∃ bidprice, s.Bids w ad.doc bidprice ∧
      (lowestClickCost : ℚ) / 100 ≤ ad.cost ∧
      ad.cost ≤ (max lowestClickCost bidprice : Int) / 100) ↔
      (queue.pops (items.filter fun item => minAdScore < item.score)).Pairwise Outscores := by
  have hbids := bids_of_sponsoredAdSearch hitems
  have hsub : ∀ item ∈ queue.pops (items.filter fun item => minAdScore < item.score),
      item ∈ items := fun item hitem =>
    mem_of_mem_filter ((queue.pops_subperm _).subset hitem)
  have hquality' := fun item hitem => hquality item (hsub item hitem)
  have hprice : ∀ (item : ScoreSponsoredAdDoc) (bidprice : Int), s.Bids w item bidprice →
      0 < item.qscore → item.score / item.qscore = (max lowestClickCost bidprice : Int) := by
    rintro item bidprice ⟨rand, -, hscore⟩ hq
    rw [hscore, mul_div_cancel_right₀ _ hq.ne']
  have hlowest : ∀ item ∈ queue.pops (items.filter fun item => minAdScore < item.score),
      (lowestClickCost : ℚ) ≤ item.score / item.qscore := by
    intro item hitem
    obtain ⟨bidprice, hbid⟩ := hbids item (hsub item hitem)
    rw [hprice item bidprice hbid (hquality' item hitem)]
    exact_mod_cast le_max_left lowestClickCost bidprice
  have hscore : ∀ item ∈ queue.pops (items.filter fun item => minAdScore < item.score),
      0 ≤ item.score := by
    intro item hitem
    have hlow := hlowest item hitem
    rw [le_div_iff₀ (hquality' item hitem)] at hlow
    refine le_trans (mul_nonneg ?_ (hquality' item hitem).le) hlow
    norm_num [lowestClickCost]
  rw [← cost_le_iff_outscores (queue.pops_ascending _) hquality' hlowest]
  constructor
  · intro h ad had
    obtain ⟨bidprice, hbid, -, hle⟩ := h ad had
    rw [hprice _ bidprice hbid (hquality' _ (mem_pops_of_mem_chargeAds had))]
    exact hle
  · intro h ad had
    obtain ⟨bidprice, hbid⟩ := hbids _ (hsub _ (mem_pops_of_mem_chargeAds had))
    refine ⟨bidprice, hbid, lowest_le_cost hscore hquality' ad had, ?_⟩
    rw [← hprice _ bidprice hbid (hquality' _ (mem_pops_of_mem_chargeAds had))]
    exact h ad had

/-- A queue that keeps the ads of the highest scores. -/
def sortedQueue : RankedQueue where
  pops docs := ((docs.insertionSort fun upper lower => lower.score ≤ upper.score).take
    maxRankedAdNum).reverse
  pops_subperm docs := (reverse_perm _).subperm.trans
    ((take_sublist _ _).subperm.trans (perm_insertionSort _ docs).subperm)
  length_pops docs := by
    rw [length_reverse, length_take, length_insertionSort]
  pops_ascending docs := by
    let above : ScoreSponsoredAdDoc → ScoreSponsoredAdDoc → Prop :=
      fun upper lower => lower.score ≤ upper.score
    have : Std.Total above := ⟨fun upper lower => le_total lower.score upper.score⟩
    have : IsTrans ScoreSponsoredAdDoc above := ⟨fun _ _ _ h h' => le_trans h' h⟩
    rw [pairwise_reverse]
    exact (pairwise_insertionSort above docs).sublist (take_sublist _ _)

/-- Two ads of one campaign with the same phrase and the same quality, without any price set. -/
def tiedMgr : AdSponsoredMgr where
  adBidphraseList := [[[0]], [[0]]]
  adOrigBidstrList := [["phone"], ["phone"]]
  adStatusBitmap := [false, false]
  adCtrList := [1, 1]
  keywords := (({} : Dictionary String).intern "phone").2
  adBudgetUsedList := [0]
  campaigns := (({} : Dictionary String).intern "phones").2
  adCampaignBelongList := [0, 0]
  adCampaignBidPhraseList := [{"phone "}]

/-- Both ads are found, with the same score. -/
theorem sponsoredAdSearch_tied :
    ∃ first second, tiedMgr.sponsoredAdSearch shopConfig shopWorld (fun _ => [(0, 7), (1, 7)])
        "phone" = .ok [first, second] ∧
      (first.score = 40 ∧ first.qscore = 1) ∧ second.score = 40 ∧ second.qscore = 1 := by
  have htokens : blankPCA.generateBidTokens "phone" = ["phone"] := by decide +kernel
  have hfirst : ∃ item, tiedMgr.matchAd shopWorld 7 (isHit [0]) 0 = .ok (some item) ∧
      item.score = 40 ∧ item.qscore = 1 := ⟨_, rfl, by decide +kernel, by decide +kernel⟩
  have hsecond : ∃ item, tiedMgr.matchAd shopWorld 7 (isHit [0]) 1 = .ok (some item) ∧
      item.score = 40 ∧ item.qscore = 1 := ⟨_, rfl, by decide +kernel, by decide +kernel⟩
  obtain ⟨first, hfirst, hfirst'⟩ := hfirst
  obtain ⟨second, hsecond, hsecond'⟩ := hsecond
  refine ⟨first, second, ?_, hfirst', hsecond'⟩
  have hsearch : tiedMgr.sponsoredAdSearch shopConfig shopWorld (fun _ => [(0, 7), (1, 7)])
      "phone" = tiedMgr.matchAds shopWorld (isHit [0]) [(0, 7), (1, 7)] := by
    unfold sponsoredAdSearch
    rw [shopConfig, htokens]
    rfl
  rw [hsearch, matchAds, hfirst, matchAds, hsecond]
  rfl

/-- Two ads of the same score are charged: the upper one pays twice what it bid. -/
theorem rankAds_tied {first second : ScoreSponsoredAdDoc}
    (hfirst : first.score = 40 ∧ first.qscore = 1)
    (hsecond : second.score = 40 ∧ second.qscore = 1) :
    ⟨first, 80 / 100⟩ ∈ rankAds sortedQueue [first, second] := by
  have hfilter : [first, second].filter (fun item => minAdScore < item.score) =
      [first, second] := by
    simp only [filter_eq_self, mem_cons, not_mem_nil, or_false]
    rintro item (rfl | rfl)
    · rw [hfirst.1]
      decide +kernel
    · rw [hsecond.1]
      decide +kernel
  have hpops : sortedQueue.pops [first, second] = [second, first] := by
    have hle : second.score ≤ first.score := by rw [hfirst.1, hsecond.1]
    simp [sortedQueue, maxRankedAdNum, hle]
  have hcost : ((lowestClickCost : ℚ) + second.score / first.qscore) / 100 = 80 / 100 := by
    rw [hfirst.2, hsecond.1]
    norm_num [lowestClickCost]
  rw [rankAds, hfilter, hpops, ← hcost]
  exact mem_cons_self

theorem costs_within_bid_tied :
    ∃ items, tiedMgr.sponsoredAdSearch shopConfig shopWorld (fun _ => [(0, 7), (1, 7)]) "phone" =
        .ok items ∧
      ((∀ ad ∈ rankAds sortedQueue items, ∃ bidprice, tiedMgr.Bids shopWorld ad.doc bidprice ∧
        (lowestClickCost : ℚ) / 100 ≤ ad.cost ∧
        ad.cost ≤ (max lowestClickCost bidprice : Int) / 100) ↔
        (sortedQueue.pops (items.filter fun item => minAdScore < item.score)).Pairwise
          Outscores) := by
  obtain ⟨first, second, hsearch, hfirst, hsecond⟩ := sponsoredAdSearch_tied
  refine ⟨_, hsearch, costs_within_bid_iff sortedQueue hsearch ?_⟩
  intro item hitem
  rcases mem_pair.mp hitem with rfl | rfl
  · exact hfirst.2 ▸ one_pos
  · exact hsecond.2 ▸ one_pos

/-- The upper one of two equal ads pays more than it bids. -/
theorem not_costs_within_bid_tied :
    ¬ ∀ (queue : RankedQueue) (cfg : Config) (w : World) (s : AdSponsoredMgr)
      (search : String → List (ℕ × ℕ)) (query : String) (items : List ScoreSponsoredAdDoc),
      s.sponsoredAdSearch cfg w search query = .ok items → (∀ item ∈ items, 0 < item.qscore) →
      ∀ ad ∈ rankAds queue items, ∃ bidprice, s.Bids w ad.doc bidprice ∧
        (lowestClickCost : ℚ) / 100 ≤ ad.cost ∧
        ad.cost ≤ (max lowestClickCost bidprice : Int) / 100 := by
  obtain ⟨first, second, hsearch, hfirst, hsecond⟩ := sponsoredAdSearch_tied
  intro hall
  have hquality : ∀ item ∈ [first, second], 0 < item.qscore := by
    intro item hitem
    rcases mem_pair.mp hitem with rfl | rfl
    · exact hfirst.2 ▸ one_pos
    · exact hsecond.2 ▸ one_pos
  obtain ⟨bidprice, ⟨rand, -, hscore⟩, -, hcost⟩ :=
    hall sortedQueue _ _ _ _ _ _ hsearch hquality _ (rankAds_tied hfirst hsecond)
  rw [hfirst.1, hfirst.2, mul_one] at hscore
  rw [← hscore] at hcost
  norm_num at hcost

end AdDelivery.Sponsored
