import AdDelivery.Core.Run
import AdDelivery.Sponsored.HourKeyClash

/-!
# The hours of the history records

The history record of an ad, of a keyword and of the site sums the buckets that are read under the
keys of the forty-eight hours before. A bucket holds everything that was recorded under its key.
So an hour is read wrong if something was recorded in another hour that has its key, and where the
borrow of the key is not enough, if anything was recorded in it or under the key that is read in
its place.
-/

namespace AdDelivery.Sponsored

open Calendar Table

/-- One event with its time: a click, or a search with the phrases it hit and the ads it ranked. -/
inductive LogEvent
  | click (time : Int) (adId keywordStr : String) (clickCostInFen : Int) (clickSlot : ℕ)
  | search (time : Int) (keywordList rankedAdList : List String)

def AdAuctionLogMgr.log (s : AdAuctionLogMgr) : LogEvent → AdAuctionLogMgr
  | .click time adId keywordStr clickCostInFen clickSlot =>
    s.updateAuctionLogData (gmtime time) adId keywordStr clickCostInFen clickSlot
  | .search time keywordList rankedAdList =>
    s.updateAdSearchStat (gmtime time) keywordList rankedAdList

/-- One event takes the state to the next one. -/
def LogStep (s : AdAuctionLogMgr) (event : LogEvent) (s' : AdAuctionLogMgr) : Prop :=
  s' = s.log event

/-- A change of a bucket, with the time at which it is recorded. -/
structure Change (ν : Type) where
  time : Int
  apply : ν → ν

/-- The key of the bucket that is changed. -/
def Change.key {ν : Type} (change : Change ν) : String := gettimestr (gmtime change.time) 0

section Buckets

variable {ν : Type}

/-- What is recorded in the hour `i` hours before `t`. -/
def inHour (changes : List (Change ν)) (t : Int) (i : ℕ) : List (Change ν) :=
  changes.filter fun change => gmtime change.time = gmtime (t - 3600 * i)

/-- What is recorded under the key that is read for this hour. -/
def underKey (changes : List (Change ν)) (t : Int) (i : ℕ) : List (Change ν) :=
  changes.filter fun change => change.key = gettimestr (gmtime t) (0 - (i : Int))

/-- Something recorded at `time` makes the hour `i` hours before `t` read wrong: it is another hour
with the same key, or the borrow is not enough and it is this hour or has the key that is read,
which is that of the hour one day before if there is one. -/
def Misread (t : Int) (i : ℕ) (time : Int) : Prop :=
  (BorrowFits (gmtime t) i ∧ DigitsMove (gmtime time) (gmtime (t - 3600 * i))) ∨
    (¬ BorrowFits (gmtime t) i ∧ (gmtime time = gmtime (t - 3600 * i) ∨
      (i : Int) ≤ (gmtime t).tmHour + 24 ∧
        (gmtime time = gmtime (t - 3600 * (i + 24 : ℕ)) ∨
          DigitsMove (gmtime time) (gmtime (t - 3600 * (i + 24 : ℕ))))))

/-- Nothing recorded makes one of the forty-eight hours before `t` read wrong. -/
def NoneMisread (t : Int) (changes : List (Change ν)) : Prop :=
  ∀ i : ℕ, 1 ≤ i → i ≤ historyHours → ∀ change ∈ changes, ¬ Misread t i change.time

/-- The hour one day before an hour of the last day of a leap year. -/
theorem gmtime_beforeLastDay {t : Int} {i : ℕ} (hlt : (gmtime t).tmHour < i)
    (hi : (i : Int) ≤ (gmtime t).tmHour + 24) (hzero : (gmtime t).tmYday = 0)
    (hleap : IsLeapYear ((gmtime t).tmYear + 1900 - 1)) : gmtime (t - 3600 * (i + 24 : ℕ)) =
      { tmYear := (gmtime t).tmYear - 1, tmYday := 364, tmHour := (gmtime t).tmHour - i + 24 } := by
  obtain ⟨hyear, hyday⟩ := pred_of_zero hzero
  have hleap' : IsLeapYear (yearOf (t / 86400 + 719162) - 1) := by
    have heq : (gmtime t).tmYear + 1900 - 1 = yearOf (t / 86400 + 719162) - 1 := by
      change yearOf _ - 1900 + 1900 - 1 = _
      omega
    rwa [heq] at hleap
  rw [daysInYear, if_pos hleap'] at hyday
  have hpos : 0 < dayOfYear (t / 86400 + 719162 - 1) := by omega
  obtain ⟨hyear', hyday'⟩ := pred_of_pos hpos
  have hday : (t - 3600 * (i + 24 : ℕ)) / 86400 + 719162 = t / 86400 + 719162 - 1 - 1 := by
    change t % 86400 / 3600 < i at hlt
    change (i : Int) ≤ t % 86400 / 3600 + 24 at hi
    omega
  have hhour : (t - 3600 * (i + 24 : ℕ)) % 86400 / 3600 = (gmtime t).tmHour - i + 24 := by
    change _ = t % 86400 / 3600 - i + 24
    omega
  have hshift : gmtime (t - 3600 * (i + 24 : ℕ)) =
      { tmYear := yearOf (t / 86400 + 719162 - 1 - 1) - 1900
        tmYday := dayOfYear (t / 86400 + 719162 - 1 - 1)
        tmHour := (gmtime t).tmHour - i + 24 } := by
    rw [← hday, ← hhour]
    rfl
  have hyear'' : yearOf (t / 86400 + 719162) - 1 - 1900 = (gmtime t).tmYear - 1 := by
    change _ = yearOf _ - 1900 - 1
    omega
  rw [hshift, hyear', hyear, hyday', hyday, hyear'']
  rfl

/-- What has the key that is read where the borrow is not enough: nothing if the hour of the day
is negative, or what has the key of the hour one day before. -/
theorem key_eq_of_missed {t : Int} {i : ℕ} (hmissed : ¬ BorrowFits (gmtime t) i) (time : Int) :
    gettimestr (gmtime time) 0 = gettimestr (gmtime t) (0 - (i : Int)) ↔
      (i : Int) ≤ (gmtime t).tmHour + 24 ∧
        (gmtime time = gmtime (t - 3600 * (i + 24 : ℕ)) ∨
          DigitsMove (gmtime time) (gmtime (t - 3600 * (i + 24 : ℕ)))) := by
  have hnow := valid_gmtime t
  have htime := valid_gmtime time
  by_cases hfar : (gmtime t).tmHour + 24 < i
  · have hneg : (gmtime t).tmHour - i + 24 < 0 := by omega
    refine iff_of_false ?_ fun h => absurd h.1 (not_le.mpr hfar)
    rw [gettimestr_borrow hnow (by omega), gettimestr_zero htime]
    intro heq
    split at heq
    · exact hourKey_ne_of_neg hneg htime heq.symm
    · exact hourKey_ne_of_neg hneg htime heq.symm
  · have hday : (i : Int) ≤ (gmtime t).tmHour + 24 := not_lt.mp hfar
    have hlast : (gmtime t).tmHour < i ∧ (gmtime t).tmYday = 0 ∧
        IsLeapYear ((gmtime t).tmYear + 1900 - 1) := by
      by_contra hnot
      exact hmissed ⟨hday, fun hlt hzero hleap => hnot ⟨hlt, hzero, hleap⟩⟩
    obtain ⟨hlt, hzero, hleap⟩ := hlast
    rw [gettimestr_borrow hnow hlt, if_pos hzero, ← gmtime_beforeLastDay hlt hday hzero hleap,
      gettimestr_zero htime, hourKey_eq_iff htime (valid_gmtime _), and_iff_right hday]

/-- Something is read for an hour exactly if it was recorded in it, unless it is misread. -/
theorem key_iff_hour_iff (t : Int) (i : ℕ) (time : Int) :
    (gettimestr (gmtime time) 0 = gettimestr (gmtime t) (0 - (i : Int)) ↔
        gmtime time = gmtime (t - 3600 * i)) ↔ ¬ Misread t i time := by
  by_cases hfits : BorrowFits (gmtime t) i
  · have hkey : gettimestr (gmtime time) 0 = gettimestr (gmtime t) (0 - (i : Int)) ↔
        gmtime time = gmtime (t - 3600 * i) ∨
          DigitsMove (gmtime time) (gmtime (t - 3600 * i)) := by
      rw [(gettimestr_shift_iff t i).mpr hfits, gettimestr_zero (valid_gmtime _),
        gettimestr_zero (valid_gmtime _), hourKey_eq_iff (valid_gmtime _) (valid_gmtime _)]
    have hmisread : Misread t i time ↔ DigitsMove (gmtime time) (gmtime (t - 3600 * i)) :=
      (or_iff_left fun h => h.1 hfits).trans (and_iff_right hfits)
    rw [hkey, hmisread]
    constructor
    · exact fun hiff hmove => hmove.ne (hiff.mp (.inr hmove))
    · exact or_iff_left
  · have hmisread : Misread t i time ↔ gmtime time = gmtime (t - 3600 * i) ∨
        gettimestr (gmtime time) 0 = gettimestr (gmtime t) (0 - (i : Int)) := by
      rw [key_eq_of_missed hfits time]
      exact (or_iff_right fun h => hfits h.1).trans (and_iff_right hfits)
    have hown : gmtime time = gmtime (t - 3600 * i) →
        gettimestr (gmtime time) 0 ≠ gettimestr (gmtime t) (0 - (i : Int)) := by
      intro heq hread
      rw [heq] at hread
      exact hfits ((gettimestr_shift_iff t i).mp hread.symm)
    rw [hmisread]
    constructor
    · rintro hiff (hhour | hread)
      · exact hown hhour (hiff.mpr hhour)
      · exact hown (hiff.mp hread) hread
    · intro hneither
      exact iff_of_false (fun hread => hneither (.inr hread)) fun hhour => hneither (.inl hhour)

theorem underKey_eq_inHour_iff {changes : List (Change ν)} {t : Int} :
    (∀ i : ℕ, 1 ≤ i → i ≤ historyHours → underKey changes t i = inHour changes t i) ↔
      NoneMisread t changes := by
  refine forall_congr' fun i => imp_congr_right fun _ => imp_congr_right fun _ => ?_
  constructor
  · intro heq change hchange
    have hmem : change ∈ underKey changes t i ↔ change ∈ inHour changes t i := by rw [heq]
    rw [underKey, inHour, List.mem_filter, List.mem_filter, decide_eq_true_iff,
      decide_eq_true_iff, and_iff_right hchange, and_iff_right hchange] at hmem
    exact (key_iff_hour_iff t i change.time).mp hmem
  · intro hnone
    refine List.filter_congr fun change hchange => decide_eq_decide.mpr ?_
    exact (key_iff_hour_iff t i change.time).mpr (hnone change hchange)

variable [Inhabited ν]

/-- The bucket that some changes leave, if there are any. -/
def bucketOf : List (Change ν) → Option ν
  | [] => none
  | change :: changes =>
    some (changes.foldl (fun bucket change => change.apply bucket) (change.apply default))

theorem bucketOf_snoc (changes : List (Change ν)) (change : Change ν) :
    bucketOf (changes ++ [change]) = some (change.apply ((bucketOf changes).getD default)) := by
  cases changes with
  | nil => rfl
  | cons first rest => simp [bucketOf]

/-- Every bucket holds the changes under its key. -/
def Records (periods : Table String ν) (changes : List (Change ν)) : Prop :=
  ∀ key, periods.lookup key = bucketOf (changes.filter fun change => change.key = key)

theorem records_default : Records (default : Table String ν) [] := fun _ => Finmap.lookup_empty _

theorem Records.update {periods : Table String ν} {changes : List (Change ν)}
    (h : Records periods changes) (t : Int) (f : ν → ν) :
    Records (update periods (gettimestr (gmtime t) 0) f) (changes ++ [⟨t, f⟩]) := by
  intro key
  rw [Table.update, lookup_insert_eq, List.filter_append]
  split
  · rename_i hkey
    subst hkey
    have hchange : ([⟨t, f⟩] : List (Change ν)).filter
        (fun change => change.key = gettimestr (gmtime t) 0) = [⟨t, f⟩] := by
      simp [Change.key]
    rw [hchange, bucketOf_snoc, Table.get, h]
  · rename_i hkey
    have hchange : ([⟨t, f⟩] : List (Change ν)).filter (fun change => change.key = key) = [] := by
      simp [Change.key, Ne.symm hkey]
    rw [hchange, List.append_nil, h]

/-- For each of the forty-eight hours before `t`, a bucket is read that holds what was recorded in
this hour and nothing else. -/
def ReadsHours (t : Int) (periods : Table String ν) (changes : List (Change ν)) : Prop :=
  ∀ i : ℕ, 1 ≤ i → i ≤ historyHours →
    periods.lookup (gettimestr (gmtime t) (0 - (i : Int))) = bucketOf (underKey changes t i) ∧
      underKey changes t i = inHour changes t i

theorem Records.readsHours_iff {periods : Table String ν} {changes : List (Change ν)}
    (h : Records periods changes) (t : Int) :
    ReadsHours t periods changes ↔ NoneMisread t changes := by
  rw [← underKey_eq_inHour_iff]
  constructor
  · exact fun hreads i hpos hi => (hreads i hpos hi).2
  · exact fun hhours i hpos hi => ⟨h _, hhours i hpos hi⟩

/-- The sum of what was recorded in the forty-eight hours before `t`. -/
def sumOfHours (merge : ν → ν → ν) (init : ν) (t : Int) (changes : List (Change ν)) : ν :=
  (List.range' 1 historyHours).foldl (fun history (i : ℕ) =>
    match bucketOf (inHour changes t i) with
    | none => history
    | some period => merge history period) init

theorem recentHistory_of_readsHours {t : Int} {periods : Table String ν}
    {changes : List (Change ν)} (h : ReadsHours t periods changes) (merge : ν → ν → ν)
    (init : ν) : recentHistory merge init (gmtime t) periods =
      sumOfHours merge init t changes := by
  refine List.foldl_ext _ _ _ fun history i hi => ?_
  have hrange := List.mem_range'_1.mp hi
  obtain ⟨hread, hhour⟩ := h i hrange.1 (by omega)
  rw [hread, hhour]
  rfl

end Buckets

/-- What one click records for an ad. A slot that is not valid creates the bucket only. -/
def adClick (adid : String) (time : Int) (adId : String) (cost : Int) (slot : ℕ) :
    List (Change AdViewInfo) :=
  if adid = adId then [⟨time, if maxAdSlot < slot then id else clickAdView cost slot⟩] else []

/-- What the ranked ads of a search record for an ad, up to the first slot that is not valid. -/
def adViews (adid : String) (time : Int) : List String → ℕ → List (Change AdViewInfo)
  | [], _ => []
  | adId :: rest, slot =>
    (if adid = adId then [⟨time, if maxAdSlot < slot then id else viewAdView slot⟩] else []) ++
      if maxAdSlot < slot then [] else adViews adid time rest (slot + 1)

def adChanges (adid : String) : LogEvent → List (Change AdViewInfo)
  | .click time adId _ cost slot => adClick adid time adId cost slot
  | .search time _ rankedAdList => adViews adid time rankedAdList 0

def searchKeywordView (view : KeywordViewInfo) : KeywordViewInfo :=
  { view with searchedNum := view.searchedNum + 1 }

/-- Clicks at valid slots, and searches whose ads all have valid slots. -/
def keywordChanges (kid : String) : LogEvent → List (Change KeywordViewInfo)
  | .click time _ keywordStr cost slot =>
    if slot ≤ maxAdSlot ∧ kid = keywordStr then [⟨time, clickKeywordView cost slot⟩] else []
  | .search time keywordList rankedAdList =>
    if rankedAdList.length ≤ maxAdSlot + 1 then
      (keywordList.filter (kid = ·)).map fun _ =>
        ⟨time, searchKeywordView⟩
    else []

def siteChanges : LogEvent → List (Change GlobalInfo)
  | .click time _ _ _ slot => if slot ≤ maxAdSlot then [⟨time, clickGlobalInfo slot⟩] else []
  | .search _ _ _ => []

/-- The three stores hold what has been recorded. -/
structure Recorded (s : AdAuctionLogMgr) (ad : String → List (Change AdViewInfo))
    (keyword : String → List (Change KeywordViewInfo)) (site : List (Change GlobalInfo)) :
    Prop where
  ad : ∀ adid, Records (get s.adStatData adid) (ad adid)
  keyword : ∀ kid, Records (get s.keywordStatData kid) (keyword kid)
  site : Records s.globalStatData site

theorem recorded_empty : Recorded {} (fun _ => []) (fun _ => []) [] :=
  ⟨fun _ => records_default, fun _ => records_default, records_default⟩

theorem records_get_update {ν : Type} [Inhabited ν] {stat : Table String (Table String ν)}
    {changes : String → List (Change ν)} (h : ∀ key, Records (get stat key) (changes key))
    (key : String) (t : Int) (f : ν → ν) (key' : String) :
    Records (get (update stat key (update · (gettimestr (gmtime t) 0) f)) key')
      (changes key' ++ if key' = key then [⟨t, f⟩] else []) := by
  rw [get_update]
  split
  · exact (h key').update t f
  · rw [List.append_nil]
    exact h key'

namespace Recorded

variable {s : AdAuctionLogMgr} {ad : String → List (Change AdViewInfo)}
  {keyword : String → List (Change KeywordViewInfo)} {site : List (Change GlobalInfo)}

theorem logAdClick (h : Recorded s ad keyword site) (t : Int) (adId : String) (cost : Int)
    (slot : ℕ) : Recorded (logAdClick s (gmtime t) adId cost slot)
      (fun adid => ad adid ++ adClick adid t adId cost slot) keyword site := by
  unfold Sponsored.logAdClick updateHistoryAdLogData
  dsimp only
  split
  · exact ⟨records_get_update h.ad _ t _, h.keyword, h.site⟩
  · exact ⟨records_get_update h.ad _ t _, h.keyword, h.site⟩

theorem logKeywordClick (h : Recorded s ad keyword site) (t : Int) (keywordStr : String)
    (cost : Int) (slot : ℕ) : Recorded (logKeywordClick s (gmtime t) keywordStr cost slot) ad
      (fun kid => keyword kid ++
        if kid = keywordStr then [⟨t, clickKeywordView cost slot⟩] else []) site := by
  unfold Sponsored.logKeywordClick updateHistoryKeywordLogData
  dsimp only
  split
  · exact ⟨h.ad, records_get_update h.keyword _ t _, h.site⟩
  · exact ⟨h.ad, records_get_update h.keyword _ t _, h.site⟩

theorem logGlobalClick (h : Recorded s ad keyword site) (t : Int) (slot : ℕ) :
    Recorded (logGlobalClick s (gmtime t) slot) ad keyword
      (site ++ [⟨t, clickGlobalInfo slot⟩]) := by
  unfold Sponsored.logGlobalClick updateHistoryGlobalLogData
  dsimp only
  split
  · exact ⟨h.ad, h.keyword, h.site.update t _⟩
  · exact ⟨h.ad, h.keyword, h.site.update t _⟩

/-- The loop gives up at the first slot that is not valid. -/
theorem logImpressions (h : Recorded s ad keyword site) (t : Int) (rankedAdList : List String)
    (slot : ℕ) : Recorded (logImpressions s (gmtime t) rankedAdList slot).1
        (fun adid => ad adid ++ adViews adid t rankedAdList slot) keyword site ∧
      ((logImpressions s (gmtime t) rankedAdList slot).2 ↔
        rankedAdList = [] ∨ slot + rankedAdList.length ≤ maxAdSlot + 1) := by
  induction rankedAdList generalizing s ad slot with
  | nil => simpa [Sponsored.logImpressions, adViews] using h
  | cons adId rest ih =>
    have hview (s' : AdAuctionLogMgr) (f : AdViewInfo → AdViewInfo)
        (h' : Recorded s' ad keyword site) : Recorded
          { s' with
            adStatData := update s'.adStatData adId fun periods =>
              update periods (gettimestr (gmtime t) 0) f }
          (fun adid => ad adid ++ if adid = adId then [⟨t, f⟩] else []) keyword site :=
      ⟨records_get_update h'.ad _ t f, h'.keyword, h'.site⟩
    have hhistory : Recorded (if gettimestr (gmtime t) 0 ∈ get s.adStatData adId then s
        else updateHistoryAdLogData s (gmtime t) adId (get s.adStatData adId)) ad keyword
          site := by
      split
      · exact h
      · exact ⟨h.ad, h.keyword, h.site⟩
    rw [Sponsored.logImpressions]
    by_cases hslot : maxAdSlot < slot
    · rw [if_pos hslot]
      refine ⟨?_, ?_⟩
      · simpa [adViews, hslot] using hview _ id hhistory
      · simp
        omega
    · obtain ⟨hrest, hdone⟩ := ih (hview _ (viewAdView slot) hhistory) (slot + 1)
      rw [if_neg hslot, if_neg hslot]
      refine ⟨?_, hdone.trans ?_⟩
      · simpa [adViews, hslot] using hrest
      · rw [List.length_cons]
        cases rest with
        | nil =>
          simp
          omega
        | cons other rest =>
          simp
          omega

theorem logKeywordSearch (h : Recorded s ad keyword site) (t : Int) (word : String) :
    Recorded (logKeywordSearch s (gmtime t) word) ad
      (fun kid => keyword kid ++ if kid = word then
        [⟨t, searchKeywordView⟩] else []) site := by
  unfold Sponsored.logKeywordSearch updateHistoryKeywordLogData
  dsimp only
  split
  · exact ⟨h.ad, records_get_update h.keyword _ t _, h.site⟩
  · exact ⟨h.ad, records_get_update h.keyword _ t _, h.site⟩

theorem logKeywordSearches (h : Recorded s ad keyword site) (t : Int) (words : List String) :
    Recorded (words.foldl (Sponsored.logKeywordSearch · (gmtime t) ·) s) ad
      (fun kid => keyword kid ++ (words.filter (kid = ·)).map fun _ => ⟨t, searchKeywordView⟩)
      site := by
  induction words generalizing s keyword with
  | nil => simpa using h
  | cons word rest ih =>
    have hrest := ih (h.logKeywordSearch t word)
    have hcons (kid : String) :
        (keyword kid ++ if kid = word then [⟨t, searchKeywordView⟩] else []) ++
          (rest.filter (kid = ·)).map (fun _ => ⟨t, searchKeywordView⟩) =
        keyword kid ++ ((word :: rest).filter (kid = ·)).map
          fun _ => ⟨t, searchKeywordView⟩ := by
      by_cases hword : kid = word
      · simp [hword]
      · simp [hword]
    simpa only [List.foldl_cons, hcons] using hrest

/-- One event records its changes. -/
theorem log (h : Recorded s ad keyword site) (event : LogEvent) : Recorded (s.log event)
    (fun adid => ad adid ++ adChanges adid event)
    (fun kid => keyword kid ++ keywordChanges kid event) (site ++ siteChanges event) := by
  cases event with
  | click time adId keywordStr clickCostInFen clickSlot =>
    unfold AdAuctionLogMgr.log AdAuctionLogMgr.updateAuctionLogData
    dsimp only
    by_cases hslot : maxAdSlot < clickSlot
    · rw [if_pos hslot]
      simpa [adChanges, keywordChanges, siteChanges, not_le.mpr hslot] using
        h.logAdClick time adId clickCostInFen clickSlot
    · rw [if_neg hslot]
      simpa [adChanges, keywordChanges, siteChanges, not_lt.mp hslot] using
        ((h.logAdClick time adId clickCostInFen clickSlot).logKeywordClick time keywordStr
          clickCostInFen clickSlot).logGlobalClick time clickSlot
  | search time keywordList rankedAdList =>
    obtain ⟨himpressions, hdone⟩ := h.logImpressions time rankedAdList 0
    have hvalid : (rankedAdList = [] ∨ 0 + rankedAdList.length ≤ maxAdSlot + 1) ↔
        rankedAdList.length ≤ maxAdSlot + 1 := by
      cases rankedAdList <;> simp
    rw [hvalid] at hdone
    change Recorded (s.updateAdSearchStat (gmtime time) keywordList rankedAdList) _ _ _
    unfold AdAuctionLogMgr.updateAdSearchStat
    split
    · rename_i hfst
      rw [hfst] at himpressions hdone
      have hfar : ¬ rankedAdList.length ≤ maxAdSlot + 1 := fun hle =>
        Bool.false_ne_true (hdone.mpr hle)
      simpa [adChanges, keywordChanges, siteChanges, hfar] using himpressions
    · rename_i hfst
      rw [hfst] at himpressions hdone
      simpa [adChanges, keywordChanges, siteChanges, hdone.mp rfl] using
        himpressions.logKeywordSearches time keywordList

/-- A run records the changes of all its events. -/
theorem run {events : List LogEvent} {s' : AdAuctionLogMgr} (hrun : Run LogStep s events s')
    (h : Recorded s ad keyword site) :
    Recorded s' (fun adid => ad adid ++ events.flatMap (adChanges adid))
      (fun kid => keyword kid ++ events.flatMap (keywordChanges kid))
      (site ++ events.flatMap siteChanges) := by
  induction hrun generalizing ad keyword site with
  | nil s => simpa using h
  | cons hstep _ ih =>
    subst hstep
    simpa using ih (h.log _)

end Recorded

/-- `R` holds of every store and of what some events record there. -/
structure AllStores (R : ∀ {ν : Type} [Inhabited ν], Table String ν → List (Change ν) → Prop)
    (s : AdAuctionLogMgr) (events : List LogEvent) : Prop where
  ad : ∀ adid, R (get s.adStatData adid) (events.flatMap (adChanges adid))
  keyword : ∀ kid, R (get s.keywordStatData kid) (events.flatMap (keywordChanges kid))
  site : R s.globalStatData (events.flatMap siteChanges)

/-- The history updates at `t` read each of the forty-eight hours before from a bucket with exactly
what some events have recorded in this hour, and they write the sums of these hours. -/
structure SumsHours (s : AdAuctionLogMgr) (events : List LogEvent) (t : Int) : Prop where
  reads : AllStores (ReadsHours t) s events
  ad : ∀ adid,
    (updateHistoryAdLogData s (gmtime t) adid
      (get s.adStatData adid)).adHistoryStatData.lookup adid =
        some (sumOfHours (mergeSlots {} mergeAdSlot) [] t (events.flatMap (adChanges adid)))
  keyword : ∀ kid,
    (updateHistoryKeywordLogData s (gmtime t) kid
        (get s.keywordStatData kid)).keywordHistoryStatData.lookup kid =
      some (sumOfHours mergeKeywordView {} t (events.flatMap (keywordChanges kid)))
  site : (updateHistoryGlobalLogData s (gmtime t)).globalHistoryStatData =
    sumOfHours mergeGlobalInfo {} t (events.flatMap siteChanges)

theorem sumsHours_of_reads {s : AdAuctionLogMgr} {events : List LogEvent} {t : Int}
    (h : AllStores (ReadsHours t) s events) : SumsHours s events t := by
  refine ⟨h, fun adid => ?_, fun kid => ?_, recentHistory_of_readsHours h.site _ _⟩
  · rw [← recentHistory_of_readsHours (h.ad adid)]
    exact Finmap.lookup_insert _
  · rw [← recentHistory_of_readsHours (h.keyword kid)]
    exact Finmap.lookup_insert _

/-- Nothing that some events record makes one of the forty-eight hours before `t` read wrong. -/
structure NoneMisreadIn (t : Int) (events : List LogEvent) : Prop where
  ad : ∀ adid, NoneMisread t (events.flatMap (adChanges adid))
  keyword : ∀ kid, NoneMisread t (events.flatMap (keywordChanges kid))
  site : NoneMisread t (events.flatMap siteChanges)

theorem readsHours_iff_along {events : List LogEvent} {s : AdAuctionLogMgr}
    (hrun : Run LogStep {} events s) (t : Int) :
    AllStores (ReadsHours t) s events ↔ NoneMisreadIn t events := by
  have hrecorded := recorded_empty.run hrun
  constructor
  · intro h
    exact ⟨fun adid => ((hrecorded.ad adid).readsHours_iff t).mp (h.ad adid),
      fun kid => ((hrecorded.keyword kid).readsHours_iff t).mp (h.keyword kid),
      (hrecorded.site.readsHours_iff t).mp h.site⟩
  · intro h
    exact ⟨fun adid => ((hrecorded.ad adid).readsHours_iff t).mpr (h.ad adid),
      fun kid => ((hrecorded.keyword kid).readsHours_iff t).mpr (h.keyword kid),
      (hrecorded.site.readsHours_iff t).mpr h.site⟩

/-- At every time, the key of an hour before is its own key exactly where the borrow is enough. In
every state that a run of clicks and searches reaches, the history updates sum exactly what was
recorded in each of the forty-eight hours if and only if nothing recorded makes one of them read
wrong. -/
theorem hourKeys_iff (t : Int) : (∀ i : ℕ, i ≤ historyHours →
      (gettimestr (gmtime t) (0 - (i : Int)) = gettimestr (gmtime (t - 3600 * i)) 0 ↔
        BorrowFits (gmtime t) i)) ∧
    ∀ (events : List LogEvent) (s : AdAuctionLogMgr), Run LogStep {} events s →
      (SumsHours s events t ↔ NoneMisreadIn t events) := by
  refine ⟨fun i _ => gettimestr_shift_iff t i, fun events s hrun => ?_⟩
  have hiff := readsHours_iff_along hrun t
  exact ⟨fun h => hiff.mp h.reads, fun h => sumsHours_of_reads (hiff.mpr h)⟩

/-- The hour 48 hours before 2014-06-10 05:00 UTC: its key has the hour -19. -/
theorem not_gettimestr_shift_twoDays : ¬ ∀ i : ℕ, i ≤ historyHours →
      gettimestr (gmtime 1402376400) (0 - (i : Int)) =
        gettimestr (gmtime (1402376400 - 3600 * i)) 0 := by
  intro h
  obtain ⟨hborrow, -⟩ := (gettimestr_shift_iff _ _).mp (h 48 (by decide))
  exact absurd hborrow (by decide)

-- a click of 2014-01-02 11:00 is read as one of the hour before 2014-01-12 02:00
example : Misread 1389492000 1 1388660400 :=
  .inl ⟨⟨by decide, fun h => absurd h (by decide)⟩, by decide⟩

end AdDelivery.Sponsored
