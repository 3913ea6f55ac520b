import AdDelivery.Core.Tally
import AdDelivery.Sponsored.AuctionLog

/-!
# The click ledger of one hour

Clicks of one hour are recorded per ad, per keyword and for the site. The ad
store grows its slot vector and keeps every click. The keyword and site stores
resize theirs to the clicked slot, so a click on a lower slot erases what was
counted above it: the three stores record the same clicks exactly when the
clicked slots never decrease.
-/

namespace AdDelivery.Sponsored

open List Table

/-- The arguments of one click, with the time at which it arrives. -/
structure ClickCall where
  now : Tm
  adId : String
  keywordStr : String
  clickCostInFen : Int
  clickSlot : Nat

namespace AdAuctionLogMgr

variable (s : AdAuctionLogMgr) (hour : String)

def click (c : ClickCall) : AdAuctionLogMgr :=
  s.updateAuctionLogData c.now c.adId c.keywordStr c.clickCostInFen c.clickSlot

/-- Record a sequence of clicks in its order. -/
def clicks (cs : List ClickCall) : AdAuctionLogMgr := cs.foldl click s

/-- The cell of one ad and slot in one hour. -/
def adSlot (ad hour : String) (slot : Nat) : AdViewSlotInfo :=
  (get (get s.adStatData ad) hour).getD slot {}

/-- The cell of one keyword and slot in one hour. -/
def keywordSlot (keyword hour : String) (slot : Nat) : KeywordViewSlotInfo :=
  (get (get s.keywordStatData keyword) hour).viewInfo.getD slot {}

/-- The site's clicks on one slot in one hour. -/
def globalClickNum (slot : Nat) : Int :=
  (get s.globalStatData hour).clickNumList.getD slot 0

/-- The clicks on one slot, summed over all ads. -/
def adTotal (slot : Nat) : Int :=
  ∑ ad ∈ s.adStatData.keys, (s.adSlot ad hour slot).clickNum

/-- The clicks on one slot, summed over all keywords. -/
def keywordTotal (slot : Nat) : Int :=
  ∑ keyword ∈ s.keywordStatData.keys, (s.keywordSlot keyword hour slot).clickNum

/-- No store has a record for this hour yet. -/
structure HourUnused (s : AdAuctionLogMgr) (hour : String) : Prop where
  ad : ∀ ad, hour ∉ get s.adStatData ad
  keyword : ∀ keyword, hour ∉ get s.keywordStatData keyword
  site : hour ∉ s.globalStatData

end AdAuctionLogMgr

open AdAuctionLogMgr

variable {s : AdAuctionLogMgr} {c : ClickCall}

/-- The three stores of a valid click, without the history records. -/
theorem click_stores (hc : c.clickSlot ≤ maxAdSlot) :
    (s.click c).adStatData = update s.adStatData c.adId
        (update · (gettimestr c.now 0) (clickAdView c.clickCostInFen c.clickSlot)) ∧
      (s.click c).keywordStatData = update s.keywordStatData c.keywordStr
        (update · (gettimestr c.now 0) (clickKeywordView c.clickCostInFen c.clickSlot)) ∧
      (s.click c).globalStatData = update s.globalStatData (gettimestr c.now 0)
        (clickGlobalInfo c.clickSlot) := by
  have hslot : ¬ maxAdSlot < c.clickSlot := by omega
  unfold click AdAuctionLogMgr.updateAuctionLogData logGlobalClick logKeywordClick logAdClick
    updateHistoryGlobalLogData updateHistoryKeywordLogData updateHistoryAdLogData
  simp only [hslot, if_false]
  split_ifs <;> exact ⟨rfl, rfl, rfl⟩

/-- The ad store counts every valid click in its own cell. -/
theorem adSlot_click (hc : c.clickSlot ≤ maxAdSlot) (ad hour : String) (slot : Nat) :
    (s.click c).adSlot ad hour slot =
      if ad = c.adId ∧ hour = gettimestr c.now 0 ∧ slot = c.clickSlot then
        (s.adSlot ad hour slot).click c.clickCostInFen
      else s.adSlot ad hour slot := by
  rw [adSlot, (click_stores hc).1, get_update]
  by_cases ha : ad = c.adId
  · by_cases hh : hour = gettimestr c.now 0
    · simp only [ha, hh, true_and, if_true, get_update_self, clickAdView]
      rw [getD_modify _ _ _ _ _ (by simp), getD_growTo]
      by_cases hs : slot = c.clickSlot
      · simp [hs, adSlot]
      · simp [hs, Ne.symm hs, adSlot]
    · simp only [ha, hh, true_and, false_and, if_true, if_false]
      rw [get_update_of_ne _ _ hh, adSlot]
  · simp only [ha, false_and, if_false, adSlot]

private theorem viewInfo_clickKeywordView (view : KeywordViewInfo) (cost : Int) (slot i : Nat) :
    (clickKeywordView cost slot view).viewInfo.getD i {} =
      if i = slot then (view.viewInfo.getD i {}).click cost
      else if i < slot then view.viewInfo.getD i {} else {} := by
  rw [clickKeywordView, getD_modify _ _ _ _ _ (by simp), getD_resize]
  by_cases hi : i = slot
  · subst hi
    simp
  · simp only [hi, Ne.symm hi, if_false]
    split_ifs <;> first | rfl | omega

/-- The keyword store drops the cells above a clicked slot. -/
theorem keywordSlot_click (hc : c.clickSlot ≤ maxAdSlot) {hour : String}
    (hh : gettimestr c.now 0 = hour) (keyword : String) (slot : Nat) :
    (s.click c).keywordSlot keyword hour slot =
      if keyword = c.keywordStr then
        if slot = c.clickSlot then (s.keywordSlot keyword hour slot).click c.clickCostInFen
        else if slot < c.clickSlot then s.keywordSlot keyword hour slot else {}
      else s.keywordSlot keyword hour slot := by
  subst hh
  rw [keywordSlot, (click_stores hc).2.1, get_update]
  by_cases hk : keyword = c.keywordStr
  · simp only [hk, if_true, get_update_self, viewInfo_clickKeywordView, keywordSlot]
  · simp only [hk, if_false, keywordSlot]

/-- The site store drops the counts above a clicked slot. -/
theorem globalClickNum_click (hc : c.clickSlot ≤ maxAdSlot) {hour : String}
    (hh : gettimestr c.now 0 = hour) (slot : Nat) : (s.click c).globalClickNum hour slot =
      if slot = c.clickSlot then s.globalClickNum hour slot + 1
      else if slot < c.clickSlot then s.globalClickNum hour slot else 0 := by
  subst hh
  rw [globalClickNum, (click_stores hc).2.2, get_update_self, clickGlobalInfo,
    getD_modify _ _ _ _ _ (by simp), getD_resize]
  by_cases hi : slot = c.clickSlot
  · subst hi
    simp [globalClickNum]
  · simp only [hi, Ne.symm hi, if_false, globalClickNum]
    split_ifs <;> first | rfl | omega

/-- A click on a valid slot whose hour key is `hour`. -/
def ClickCall.InHour (hour : String) (c : ClickCall) : Prop :=
  c.clickSlot ≤ maxAdSlot ∧ gettimestr c.now 0 = hour

open ClickCall

section Hour

variable {hour : String}

theorem keywordClickNum_tally (keyword : String) :
    TruncatingTally click (fun s slot => (s.keywordSlot keyword hour slot).clickNum)
      (InHour hour) (fun c => decide (c.keywordStr = keyword)) clickSlot
      (fun _ => true) where
  read_hit s c slot hc := by
    rw [keywordSlot_click hc.1 hc.2]
    simp only [decide_eq_true_eq, eq_comm (a := keyword)]
    split_ifs <;> rfl

theorem keywordCost_tally (keyword : String) (cost : Int) :
    TruncatingTally click (fun s slot => get (s.keywordSlot keyword hour slot).costList cost)
      (InHour hour) (fun c => decide (c.keywordStr = keyword)) clickSlot
      (fun c => decide (c.clickCostInFen = cost)) where
  read_hit s c slot hc := by
    rw [keywordSlot_click hc.1 hc.2]
    simp only [decide_eq_true_eq, eq_comm (a := keyword), eq_comm (b := cost)]
    split_ifs <;> simp_all [KeywordViewSlotInfo.click, get_addCost]

theorem globalClickNum_tally : TruncatingTally click (fun s slot => s.globalClickNum hour slot)
      (InHour hour) (fun _ => true) clickSlot (fun _ => true) where
  read_hit s c slot hc := by
    rw [globalClickNum_click hc.1 hc.2]
    simp

variable {s : AdAuctionLogMgr}

namespace AdAuctionLogMgr.HourUnused

theorem adSlot_eq (h : s.HourUnused hour) (ad : String) (slot : Nat) :
    s.adSlot ad hour slot = {} := by
  rw [adSlot, get_eq_default (h.ad ad)]
  rfl

theorem keywordSlot_eq (h : s.HourUnused hour) (keyword : String) (slot : Nat) :
    s.keywordSlot keyword hour slot = {} := by
  rw [keywordSlot, get_eq_default (h.keyword keyword)]
  rfl

theorem globalClickNum_eq (h : s.HourUnused hour) (slot : Nat) :
    s.globalClickNum hour slot = 0 := by
  rw [globalClickNum, get_eq_default h.site]
  rfl

end AdAuctionLogMgr.HourUnused

/-- The ad store records every click of the hour, whatever their order. -/
theorem adSlot_clicks (h : s.HourUnused hour) (cs : List ClickCall)
    (hcs : ∀ c ∈ cs, c.InHour hour) (ad : String) (slot : Nat) :
    ((s.clicks cs).adSlot ad hour slot).clickNum =
      cs.countP (fun c => decide (c.adId = ad) && decide (c.clickSlot = slot)) := by
  induction cs using List.reverseRecOn with
  | nil => rw [show s.clicks [] = s from rfl, h.adSlot_eq]; rfl
  | append_singleton cs c ih =>
    have hc := hcs c (by simp)
    have ih := ih fun c' hc' => hcs c' (mem_append_left _ hc')
    rw [clicks, foldl_append, foldl_cons, foldl_nil, adSlot_click hc.1, hc.2,
      countP_append, Int.natCast_add, ← ih]
    by_cases hs : ad = c.adId ∧ slot = c.clickSlot
    · simp [hs.1, hs.2, AdViewSlotInfo.click, clicks]
    · have hs' : ¬ (c.adId = ad ∧ c.clickSlot = slot) := fun h => hs ⟨h.1.symm, h.2.symm⟩
      simp [hs, hs', clicks]

variable (cs : List ClickCall)

/-- Every clicked ad and keyword has an entry afterwards. -/
theorem keys_clicks (hcs : ∀ c ∈ cs, c.InHour hour) :
    ∀ c ∈ cs, c.adId ∈ (s.clicks cs).adStatData.keys ∧
      c.keywordStr ∈ (s.clicks cs).keywordStatData.keys := by
  induction cs using List.reverseRecOn with
  | nil => simp
  | append_singleton cs c ih =>
    intro c' hc'
    have hstores := click_stores (s := s.clicks cs) (hcs c (by simp)).1
    rw [clicks, foldl_append, foldl_cons]
    change c'.adId ∈ ((s.clicks cs).click c).adStatData.keys ∧
      c'.keywordStr ∈ ((s.clicks cs).click c).keywordStatData.keys
    rw [hstores.1, hstores.2.1, keys_update, keys_update]
    rcases mem_append.mp hc' with hmem | hmem
    · have hprev := ih (fun d hd => hcs d (mem_append_left _ hd)) c' hmem
      exact ⟨Finset.mem_insert_of_mem hprev.1, Finset.mem_insert_of_mem hprev.2⟩
    · rw [mem_singleton.mp hmem]
      exact ⟨Finset.mem_insert_self _ _, Finset.mem_insert_self _ _⟩

theorem adTotal_clicks (h : s.HourUnused hour) (cs : List ClickCall)
    (hcs : ∀ c ∈ cs, c.InHour hour) (slot : Nat) :
    (s.clicks cs).adTotal hour slot = cs.countP (fun c => decide (c.clickSlot = slot)) := by
  rw [adTotal, Finset.sum_congr rfl fun ad _ => adSlot_clicks h cs hcs ad slot]
  exact sum_countP_key adId _ _ cs fun c hc => (keys_clicks cs hcs c hc).1

/-- What the three stores together should show after the clicks `cs` of one hour. -/
structure ClickLedger (hour : String) (cs : List ClickCall) (s : AdAuctionLogMgr) : Prop where
  keywordClicks : ∀ keyword slot, (s.keywordSlot keyword hour slot).clickNum =
    cs.countP fun c => decide (c.keywordStr = keyword) && decide (c.clickSlot = slot)
  keywordCosts : ∀ keyword slot cost,
    get (s.keywordSlot keyword hour slot).costList cost =
      cs.countP fun c => decide (c.keywordStr = keyword) &&
        (decide (c.clickSlot = slot) && decide (c.clickCostInFen = cost))
  globalClicks : ∀ slot, s.globalClickNum hour slot =
    cs.countP fun c => decide (c.clickSlot = slot)
  totalsAgree : ∀ slot, s.adTotal hour slot = s.keywordTotal hour slot ∧
    s.keywordTotal hour slot = s.globalClickNum hour slot

/-- The clicked slots never decrease along the sequence. -/
def SlotsNondecreasing : Prop :=
  (cs.map clickSlot).Pairwise (· ≤ ·)

/-- No click is lost while the clicked slots never decrease. -/
theorem clickLedger_of_nondecreasing (h : s.HourUnused hour) (cs : List ClickCall)
    (hcs : ∀ c ∈ cs, c.InHour hour) (hsorted : SlotsNondecreasing cs) :
    ClickLedger hour cs (s.clicks cs) := by
  have hkeyword : ∀ keyword slot, ((s.clicks cs).keywordSlot keyword hour slot).clickNum =
      cs.countP fun c => decide (c.keywordStr = keyword) && decide (c.clickSlot = slot) := by
    intro keyword slot
    rw [clicks, (keywordClickNum_tally keyword).read_eq_countP
      (fun i => by rw [h.keywordSlot_eq]) cs hcs hsorted slot]
    simp only [Bool.and_true]
  have hglobal : ∀ slot, (s.clicks cs).globalClickNum hour slot =
      cs.countP fun c => decide (c.clickSlot = slot) := by
    intro slot
    rw [clicks, globalClickNum_tally.read_eq_countP h.globalClickNum_eq cs hcs hsorted slot]
    simp only [Bool.and_true, Bool.true_and]
  have htotal : ∀ slot, (s.clicks cs).keywordTotal hour slot =
      cs.countP fun c => decide (c.clickSlot = slot) := by
    intro slot
    rw [keywordTotal, Finset.sum_congr rfl fun keyword _ => hkeyword keyword slot]
    exact sum_countP_key keywordStr _ _ cs fun c hc => (keys_clicks cs hcs c hc).2
  refine ⟨hkeyword, ?_, hglobal, ?_⟩
  · intro keyword slot cost
    rw [clicks, (keywordCost_tally keyword cost).read_eq_countP
      (fun i => by rw [h.keywordSlot_eq]; rfl) cs hcs hsorted slot]
  · intro slot
    rw [adTotal_clicks h cs hcs, htotal, hglobal]
    exact ⟨rfl, rfl⟩

/-- The record after a sequence of clicks, slot by slot. -/
def totals (s : AdAuctionLogMgr) (hour : String) (slot : Nat) : Int × Int × Int :=
  (s.adTotal hour slot, s.keywordTotal hour slot, s.globalClickNum hour slot)

theorem globalClicks_iff_nondecreasing (h : s.HourUnused hour) (cs : List ClickCall)
    (hcs : ∀ c ∈ cs, c.InHour hour) : (∀ slot, (s.clicks cs).globalClickNum hour slot =
      cs.countP fun c => decide (c.clickSlot = slot)) ↔ SlotsNondecreasing cs :=
  globalClickNum_tally.read_eq_countP_iff h.globalClickNum_eq cs hcs

/-- Along nondecreasing slots the totals are the click counts. -/
theorem totals_of_nondecreasing (h : s.HourUnused hour) (cs : List ClickCall)
    (hcs : ∀ c ∈ cs, c.InHour hour) (hsorted : SlotsNondecreasing cs) (slot : Nat) :
    totals (s.clicks cs) hour slot =
      let n : Int := cs.countP fun c => decide (c.clickSlot = slot)
      (n, n, n) := by
  have hledger := clickLedger_of_nondecreasing h cs hcs hsorted
  have hagree := hledger.totalsAgree slot
  rw [totals, hagree.1, hagree.2, hledger.globalClicks slot]

/-- Clicks on a single slot are nondecreasing in every order. -/
theorem slotsNondecreasing_of_single {cs : List ClickCall}
    (hsingle : ∀ c ∈ cs, ∀ c' ∈ cs, c.clickSlot = c'.clickSlot) : SlotsNondecreasing cs := by
  apply pairwise_of_forall_mem_list
  intro a ha b hb
  obtain ⟨c, hc, rfl⟩ := mem_map.mp ha
  obtain ⟨c', hc', rfl⟩ := mem_map.mp hb
  exact (hsingle c hc c' hc').le

/-- Clicks that are nondecreasing in both directions are all on one slot. -/
theorem single_of_nondecreasing_reverse {cs : List ClickCall} (hcs : SlotsNondecreasing cs)
    (hrev : SlotsNondecreasing cs.reverse) : ∀ c ∈ cs, ∀ c' ∈ cs, c.clickSlot = c'.clickSlot := by
  rw [SlotsNondecreasing, map_reverse, pairwise_reverse] at hrev
  have heq : (cs.map clickSlot).Pairwise (· = ·) :=
    (List.Pairwise.and hcs hrev).imp fun h => le_antisymm h.1 h.2
  intro c hc c' hc'
  exact heq.forall_of_forall (fun _ _ => rfl) (mem_map_of_mem hc) (mem_map_of_mem hc')

/-- Every sequence of clicks can be put in slot order. -/
theorem exists_perm_nondecreasing :
    ∃ cs' : List ClickCall, cs'.Perm cs ∧ SlotsNondecreasing cs' := by
  let r : ClickCall → ClickCall → Prop := fun c c' => c.clickSlot ≤ c'.clickSlot
  refine ⟨cs.insertionSort r, perm_insertionSort r cs, ?_⟩
  exact pairwise_map.mpr (pairwise_insertionSort r cs)

private theorem perm_inHour {cs cs' : List ClickCall} (hp : cs'.Perm cs)
    (hcs : ∀ c ∈ cs, c.InHour hour) : ∀ c ∈ cs', c.InHour hour :=
  fun c hc => hcs c (hp.mem_iff.mp hc)

/-- The totals are the same for every order of the clicks exactly when they all
carry one slot: otherwise the descending order loses clicks that the ascending keeps. -/
theorem totals_perm_iff_single (h : s.HourUnused hour) (cs : List ClickCall)
    (hcs : ∀ c ∈ cs, c.InHour hour) : (∀ cs' : List ClickCall, cs'.Perm cs →
      ∀ slot, totals (s.clicks cs') hour slot = totals (s.clicks cs) hour slot) ↔
      ∀ c ∈ cs, ∀ c' ∈ cs, c.clickSlot = c'.clickSlot := by
  constructor
  · intro hsame
    obtain ⟨up, hup, hsorted⟩ := exists_perm_nondecreasing cs
    have hdown : up.reverse.Perm cs := (reverse_perm up).trans hup
    have hcount : ∀ slot, (s.clicks up.reverse).globalClickNum hour slot =
        up.reverse.countP fun c => decide (c.clickSlot = slot) := by
      intro slot
      have htotals := (hsame _ hdown slot).trans (hsame _ hup slot).symm
      rw [totals_of_nondecreasing h up (perm_inHour hup hcs) hsorted] at htotals
      rw [((reverse_perm up).countP_eq _)]
      exact congrArg (fun t => t.2.2) htotals
    have hrev := (globalClicks_iff_nondecreasing h _ (perm_inHour hdown hcs)).mp hcount
    intro c hc c' hc'
    exact single_of_nondecreasing_reverse hsorted hrev c (hup.mem_iff.mpr hc) c'
      (hup.mem_iff.mpr hc')
  · intro hsingle cs' hp slot
    have hsingle' : ∀ c ∈ cs', ∀ c' ∈ cs', c.clickSlot = c'.clickSlot :=
      fun c hc c' hc' => hsingle c (hp.mem_iff.mp hc) c' (hp.mem_iff.mp hc')
    rw [totals_of_nondecreasing h cs' (perm_inHour hp hcs) (slotsNondecreasing_of_single hsingle'),
      totals_of_nondecreasing h cs hcs (slotsNondecreasing_of_single hsingle), hp.countP_eq]

end Hour

/-- An hour with one click, on the second slot of a keyword. -/
def secondSlotClick : ClickCall := ⟨⟨113, 100, 9⟩, "ad1", "phone ", 40, 1⟩

/-- A later click in the same hour on the first slot of the same keyword. -/
def firstSlotClick : ClickCall := ⟨⟨113, 100, 9⟩, "ad2", "phone ", 50, 0⟩

theorem hourUnused_empty (hour : String) : ({} : AdAuctionLogMgr).HourUnused hour where
  ad _ := by
    exact Finmap.notMem_empty
  keyword _ := by
    exact Finmap.notMem_empty
  site := Finmap.notMem_empty

end AdDelivery.Sponsored
