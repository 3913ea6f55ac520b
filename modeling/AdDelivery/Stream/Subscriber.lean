import AdDelivery.Core.Run
import AdDelivery.Core.Table
import Mathlib.Data.Finset.Sort

/-!
# Subscriptions to the ad stream

`AdStreamSubscriber` keeps a callback, a queue and a consuming thread for every
topic the server has accepted, and a list of topics to try again. The periodic
retry goes through `subscribe`, which refuses every topic of that very list: the
three lists stay in step, but no topic ever leaves the retry list by a retry.
-/

namespace AdDelivery.Stream

open Finmap Table Finset List

structure AdMessage where
  topic : String
  body : String

/-- What a synchronous request to the server comes to. -/
inductive Answer
  | yes
  | no
  | exception
deriving DecidableEq

/-- The thread that consumes the messages of one topic. -/
structure ConsumeThread where
  topic : String

/-- The state of the subscriber; `connected` says whether `conn_mgr_` is set. -/
structure AdStreamSubscriber (Callback : Type) where
  connected : Bool
  subscriberList : Table String Callback := ∅
  consumeTaskList : Table String (List AdMessage) := ∅
  consumingThreadList : Table String ConsumeThread := ∅
  retrySubList : Table String Callback := ∅

namespace AdStreamSubscriber

variable {Callback : Type} (s : AdStreamSubscriber Callback) (answer : String → Answer)

/-- Subscribe to a topic. A request that is turned down or fails leaves the topic to be
tried again; that too counts as a success for the caller. -/
def subscribe (topic : String) (cb : Callback)
    (answer : Answer) : Bool × AdStreamSubscriber Callback :=
  if !s.connected then (false, s)
  else if topic ∈ s.subscriberList then (false, s)
  else if topic ∈ s.retrySubList then (false, s)
  else match answer with
    | .exception => (true, { s with retrySubList := insert topic cb s.retrySubList })
    | .no => (true, { s with retrySubList := insert topic cb s.retrySubList })
    | .yes => (true, { s with
        consumeTaskList := insert topic [] s.consumeTaskList
        subscriberList := insert topic cb s.subscriberList
        consumingThreadList := insert topic ⟨topic⟩ s.consumingThreadList
        retrySubList := s.retrySubList.erase topic })

/-- Drop a topic and stop its thread, whatever the server answers. -/
def unsubscribe (topic : String) (removeRetry : Bool) : AdStreamSubscriber Callback :=
  if !s.connected then s
  else
    let retrySubList := if removeRetry then s.retrySubList.erase topic else s.retrySubList
    if topic ∈ s.subscriberList then
      { s with
        retrySubList := retrySubList
        subscriberList := s.subscriberList.erase topic
        consumeTaskList := s.consumeTaskList.erase topic
        consumingThreadList := s.consumingThreadList.erase topic }
    else { s with retrySubList := retrySubList }

/-- The topics of a list with their callbacks, in the order of the map. -/
def entries (list : Table String Callback) : List (String × Callback) :=
  (list.keys.sort (· ≤ ·)).filterMap fun topic => (list.lookup topic).map fun cb => (topic, cb)

/-- Subscribe anew to every topic of a copy of the list; `answer` is what the server says
to the subscription of a topic. -/
def resubscribe (unsubBefore : Bool) (tmpSubList : Table String Callback)
    (s : AdStreamSubscriber Callback) : AdStreamSubscriber Callback :=
  (entries tmpSubList).foldl (fun s entry =>
    let s := if unsubBefore then s.unsubscribe entry.1 true else s
    (s.subscribe entry.1 entry.2 (answer entry.1)).2) s

def resubscribeAll : AdStreamSubscriber Callback :=
  s.resubscribe answer true s.subscriberList

def retryFailedSubscriber : AdStreamSubscriber Callback :=
  s.resubscribe answer false s.retrySubList

/-- Queue the messages of subscribed topics. -/
def onAdMessage (msgList : List AdMessage) : AdStreamSubscriber Callback :=
  msgList.foldl (fun s msg =>
    if msg.topic ∈ s.subscriberList then
      { s with consumeTaskList := update s.consumeTaskList msg.topic (· ++ [msg]) }
    else s) s

end AdStreamSubscriber

open AdStreamSubscriber

/-- The calls of a run, with the answers of the server to their subscription requests. -/
inductive SubscriberCall (Callback : Type)
  | subscribe (topic : String) (cb : Callback) (answer : Answer)
  | unsubscribe (topic : String) (removeRetry : Bool)
  | resubscribeAll (answer : String → Answer)
  | retryFailedSubscriber (answer : String → Answer)
  | onAdMessage (msgList : List AdMessage)

section Runs

variable {Callback : Type}

def AdStreamSubscriber.call (s : AdStreamSubscriber Callback) :
    SubscriberCall Callback → AdStreamSubscriber Callback
  | .subscribe topic cb answer => (s.subscribe topic cb answer).2
  | .unsubscribe topic removeRetry => s.unsubscribe topic removeRetry
  | .resubscribeAll answer => s.resubscribeAll answer
  | .retryFailedSubscriber answer => s.retryFailedSubscriber answer
  | .onAdMessage msgList => s.onAdMessage msgList

def SubscriberStep (s : AdStreamSubscriber Callback) (c : SubscriberCall Callback)
    (s' : AdStreamSubscriber Callback) : Prop :=
  s' = s.call c

/-- The three lists have the same topics, and none of them is to be tried again. -/
structure ListsInStep (s : AdStreamSubscriber Callback) : Prop where
  tasks : s.consumeTaskList.keys = s.subscriberList.keys
  threads : s.consumingThreadList.keys = s.subscriberList.keys
  retry : Disjoint s.retrySubList.keys s.subscriberList.keys

/-- A retry to which the server says yes throughout moves every topic of the retry list
into the subscriber list. -/
def RetryMovesAll (s : AdStreamSubscriber Callback) : Prop :=
  ∀ topic ∈ s.retrySubList,
    topic ∈ (s.retryFailedSubscriber fun _ => .yes).subscriberList ∧
      topic ∉ (s.retryFailedSubscriber fun _ => .yes).retrySubList

/-- Every subscription request that the call sends is answered with yes. -/
def SubscriptionsAccepted (s : AdStreamSubscriber Callback) : SubscriberCall Callback → Prop
  | .subscribe topic _ answer => s.connected = true → topic ∉ s.subscriberList →
    topic ∉ s.retrySubList → answer = .yes
  | .resubscribeAll answer => s.connected = true → ∀ topic ∈ s.subscriberList,
    answer topic = .yes
  | _ => True

variable {s : AdStreamSubscriber Callback}

theorem ListsInStep.subscribe (h : ListsInStep s) (topic : String) (cb : Callback)
    (answer : Answer) : ListsInStep (s.subscribe topic cb answer).2 := by
  unfold AdStreamSubscriber.subscribe
  split
  · exact h
  split
  · exact h
  rename_i hsub
  split
  · exact h
  have hretry : Disjoint (insert topic s.retrySubList.keys) s.subscriberList.keys := by
    rw [disjoint_insert_left]
    exact ⟨fun hmem => hsub (mem_keys.mp hmem), h.retry⟩
  cases answer with
  | exception => exact ⟨h.tasks, h.threads, by rw [keys_insert]; exact hretry⟩
  | no => exact ⟨h.tasks, h.threads, by rw [keys_insert]; exact hretry⟩
  | yes =>
    refine ⟨?_, ?_, ?_⟩
    · rw [keys_insert, keys_insert, h.tasks]
    · rw [keys_insert, keys_insert, h.threads]
    · rw [keys_erase, keys_insert, disjoint_insert_right]
      exact ⟨notMem_erase _ _, h.retry.mono_left (erase_subset _ _)⟩

theorem ListsInStep.unsubscribe (h : ListsInStep s) (topic : String) (removeRetry : Bool) :
    ListsInStep (s.unsubscribe topic removeRetry) := by
  have hretry : Disjoint (if removeRetry then s.retrySubList.erase topic else s.retrySubList).keys
      s.subscriberList.keys := by
    split
    · rw [keys_erase]
      exact h.retry.mono_left (erase_subset _ _)
    · exact h.retry
  unfold AdStreamSubscriber.unsubscribe
  split
  · exact h
  dsimp only
  split
  · refine ⟨?_, ?_, ?_⟩
    · rw [keys_erase, keys_erase, h.tasks]
    · rw [keys_erase, keys_erase, h.threads]
    · rw [keys_erase]
      exact hretry.mono_right (erase_subset _ _)
  · exact ⟨h.tasks, h.threads, hretry⟩

theorem ListsInStep.resubscribe (h : ListsInStep s) (answer : String → Answer)
    (unsubBefore : Bool) (tmpSubList : Table String Callback) :
    ListsInStep (s.resubscribe answer unsubBefore tmpSubList) := by
  unfold AdStreamSubscriber.resubscribe
  generalize AdStreamSubscriber.entries tmpSubList = entries
  induction entries generalizing s with
  | nil => exact h
  | cons entry entries ih =>
    apply ih
    apply ListsInStep.subscribe
    split
    · exact h.unsubscribe entry.1 true
    · exact h

theorem ListsInStep.onAdMessage (h : ListsInStep s) (msgList : List AdMessage) :
    ListsInStep (s.onAdMessage msgList) := by
  unfold AdStreamSubscriber.onAdMessage
  induction msgList generalizing s with
  | nil => exact h
  | cons msg msgList ih =>
    rw [foldl_cons]
    apply ih
    split
    · rename_i hmem
      refine ⟨?_, h.threads, h.retry⟩
      rw [keys_update, h.tasks, insert_eq_of_mem (mem_keys.mpr hmem)]
    · exact h

theorem listsInStep_step (s : AdStreamSubscriber Callback) (c : SubscriberCall Callback)
    (s' : AdStreamSubscriber Callback) (h : ListsInStep s) (hstep : SubscriberStep s c s') :
    ListsInStep s' := by
  subst hstep
  cases c with
  | subscribe topic cb answer => exact h.subscribe topic cb answer
  | unsubscribe topic removeRetry => exact h.unsubscribe topic removeRetry
  | resubscribeAll answer => exact h.resubscribe answer true s.subscriberList
  | retryFailedSubscriber answer => exact h.resubscribe answer false s.retrySubList
  | onAdMessage msgList => exact h.onAdMessage msgList

theorem AdStreamSubscriber.mem_map_entries (list : Table String Callback) (topic : String) :
    topic ∈ (entries list).map Prod.fst ↔ topic ∈ list := by
  unfold entries
  simp only [List.mem_map, List.mem_filterMap, Finset.mem_sort, Option.map_eq_some_iff]
  constructor
  · rintro ⟨-, ⟨t, ht, cb, -, rfl⟩, rfl⟩
    exact mem_keys.mp ht
  · intro htopic
    obtain ⟨cb, hcb⟩ := Option.isSome_iff_exists.mp (lookup_isSome.mpr htopic)
    exact ⟨(topic, cb), ⟨topic, mem_keys.mpr htopic, cb, hcb, rfl⟩, rfl⟩

theorem AdStreamSubscriber.subscribe_of_mem_retry {topic : String}
    (h : topic ∈ s.retrySubList) (cb : Callback) (answer : Answer) :
    s.subscribe topic cb answer = (false, s) := by
  unfold subscribe
  rw [if_pos h, ite_self, ite_self]

/-- `subscribe` refuses the topics of the retry list, so a retry leaves everything as it is. -/
theorem retryFailedSubscriber_eq (s : AdStreamSubscriber Callback) (answer : String → Answer) :
    s.retryFailedSubscriber answer = s := by
  have hretrying : ∀ entry ∈ AdStreamSubscriber.entries s.retrySubList,
      entry.1 ∈ s.retrySubList := by
    intro entry hentry
    exact (mem_map_entries s.retrySubList entry.1).mp
      (mem_map_of_mem hentry)
  unfold retryFailedSubscriber AdStreamSubscriber.resubscribe
  simp only [Bool.false_eq_true, if_false]
  generalize AdStreamSubscriber.entries s.retrySubList = entries at hretrying
  induction entries with
  | nil => rfl
  | cons entry entries ih =>
    rw [foldl_cons, subscribe_of_mem_retry (hretrying entry mem_cons_self)]
    exact ih fun e he => hretrying e (mem_cons_of_mem _ he)

/-- So a retry moves all topics exactly when there are none. -/
theorem retryMovesAll_iff (s : AdStreamSubscriber Callback) :
    RetryMovesAll s ↔ ∀ topic, topic ∉ s.retrySubList := by
  constructor
  · intro hmoves topic htopic
    have hmoved := (hmoves topic htopic).2
    rw [retryFailedSubscriber_eq] at hmoved
    exact hmoved htopic
  · intro hempty topic htopic
    exact absurd htopic (hempty topic)

namespace AdStreamSubscriber

theorem subscribe_of_not_connected (hconn : s.connected = false) (topic : String) (cb : Callback)
    (answer : Answer) : s.subscribe topic cb answer = (false, s) := by
  unfold subscribe
  rw [hconn]
  rfl

theorem unsubscribe_of_not_connected (hconn : s.connected = false) (topic : String)
    (removeRetry : Bool) : s.unsubscribe topic removeRetry = s := by
  unfold unsubscribe
  rw [hconn]
  rfl

/-- What is left to try again after a subscription that the lists do not stop. -/
theorem mem_retry_subscribe (hconn : s.connected = true) {topic : String}
    (hsub : topic ∉ s.subscriberList) (hretry : topic ∉ s.retrySubList) (cb : Callback)
    (answer : Answer) (t : String) : t ∈ (s.subscribe topic cb answer).2.retrySubList ↔
      if t = topic then answer ≠ .yes else t ∈ s.retrySubList := by
  unfold subscribe
  rw [hconn, if_neg hsub, if_neg hretry]
  have hinsert : t ∈ insert topic cb s.retrySubList ↔
      t = topic ∨ t ∈ s.retrySubList := mem_insert
  have herase : t ∈ s.retrySubList.erase topic ↔ t ≠ topic ∧ t ∈ s.retrySubList :=
    mem_erase
  cases answer with
  | yes => by_cases ht : t = topic <;> simp [herase, ht]
  | no => by_cases ht : t = topic <;> simp [hinsert, ht]
  | exception => by_cases ht : t = topic <;> simp [hinsert, ht]

@[simp]
theorem connected_subscribe (s : AdStreamSubscriber Callback) (topic : String) (cb : Callback)
    (answer : Answer) : (s.subscribe topic cb answer).2.connected = s.connected := by
  unfold subscribe
  split
  · rfl
  split
  · rfl
  split
  · rfl
  · cases answer <;> rfl

@[simp]
theorem connected_unsubscribe (s : AdStreamSubscriber Callback) (topic : String)
    (removeRetry : Bool) : (s.unsubscribe topic removeRetry).connected = s.connected := by
  unfold unsubscribe
  split
  · rfl
  dsimp only
  split <;> rfl

theorem retrySubList_unsubscribe (hconn : s.connected = true) (topic : String)
    (removeRetry : Bool) : (s.unsubscribe topic removeRetry).retrySubList =
      if removeRetry then s.retrySubList.erase topic else s.retrySubList := by
  unfold unsubscribe
  rw [hconn, if_neg (by decide)]
  dsimp only
  split <;> rfl

theorem not_mem_subscriberList_unsubscribe (hconn : s.connected = true) (topic : String)
    (removeRetry : Bool) : topic ∉ (s.unsubscribe topic removeRetry).subscriberList := by
  unfold unsubscribe
  rw [hconn, if_neg (by decide)]
  dsimp only
  split
  · exact fun hmem => (mem_erase.mp hmem).1 rfl
  · assumption

/-- After resubscribing to some topics, those of them that were not accepted are to be
tried again; the others are as they were. -/
theorem mem_retry_resubscribe (hconn : s.connected = true) (answer : String → Answer)
    (tmpSubList : Table String Callback) (t : String) :
    t ∈ (s.resubscribe answer true tmpSubList).retrySubList ↔
      if t ∈ tmpSubList then answer t ≠ .yes else t ∈ s.retrySubList := by
  simp only [← mem_map_entries tmpSubList t]
  unfold resubscribe
  simp only [if_true]
  generalize entries tmpSubList = entries
  induction entries generalizing s with
  | nil => simp
  | cons entry entries ih =>
    have hstep := mem_retry_subscribe (s := s.unsubscribe entry.1 true) (by simpa using hconn)
      (not_mem_subscriberList_unsubscribe hconn entry.1 true)
      (by rw [retrySubList_unsubscribe hconn]; exact fun hmem => (mem_erase.mp hmem).1 rfl)
      entry.2 (answer entry.1) t
    rw [List.foldl_cons, ih (by simpa using hconn), hstep, retrySubList_unsubscribe hconn,
      if_pos rfl, Finmap.mem_erase, List.map_cons]
    by_cases ht : t = entry.1
    · subst ht
      by_cases hmem : entry.1 ∈ entries.map Prod.fst
      · simp [hmem]
      · simp [hmem]
    · have hcons : t ∈ entry.1 :: entries.map Prod.fst ↔ t ∈ entries.map Prod.fst := by
        rw [List.mem_cons, or_iff_right ht]
      simp only [hcons, ht, if_false, ne_eq, not_false_eq_true, true_and]

theorem resubscribe_of_not_connected (hconn : s.connected = false) (answer : String → Answer)
    (unsubBefore : Bool) (tmpSubList : Table String Callback) :
    s.resubscribe answer unsubBefore tmpSubList = s := by
  unfold resubscribe
  induction entries tmpSubList with
  | nil => rfl
  | cons entry entries ih =>
    rw [foldl_cons, unsubscribe_of_not_connected hconn, ite_self]
    dsimp only
    rw [subscribe_of_not_connected hconn]
    exact ih

theorem retrySubList_onAdMessage (s : AdStreamSubscriber Callback) (msgList : List AdMessage) :
    (s.onAdMessage msgList).retrySubList = s.retrySubList := by
  unfold onAdMessage
  induction msgList generalizing s with
  | nil => rfl
  | cons msg msgList ih =>
    rw [foldl_cons, ih]
    split <;> rfl

end AdStreamSubscriber

theorem retryMovesAll_subscribe_iff (h : RetryMovesAll s) (topic : String) (cb : Callback)
    (answer : Answer) : RetryMovesAll (s.subscribe topic cb answer).2 ↔
      SubscriptionsAccepted s (.subscribe topic cb answer) := by
  have hempty := (retryMovesAll_iff s).mp h
  unfold SubscriptionsAccepted
  cases hconn : s.connected with
  | false =>
    rw [subscribe_of_not_connected hconn]
    simp [h]
  | true =>
    by_cases hsub : topic ∈ s.subscriberList
    · have hsame : (s.subscribe topic cb answer).2 = s := by
        unfold AdStreamSubscriber.subscribe
        rw [if_pos hsub, ite_self]
      rw [hsame]
      simp [h, hsub]
    · rw [retryMovesAll_iff]
      simp only [mem_retry_subscribe hconn hsub (hempty topic) cb answer,
        hempty, if_false_right, forall_true_left, not_false_eq_true, hsub]
      simp

theorem retryMovesAll_resubscribeAll_iff (h : RetryMovesAll s) (answer : String → Answer) :
    RetryMovesAll (s.resubscribeAll answer) ↔ SubscriptionsAccepted s (.resubscribeAll answer) := by
  have hempty := (retryMovesAll_iff s).mp h
  unfold SubscriptionsAccepted resubscribeAll
  cases hconn : s.connected with
  | false =>
    rw [resubscribe_of_not_connected hconn]
    simp [h]
  | true =>
    rw [retryMovesAll_iff]
    simp only [mem_retry_resubscribe hconn answer, hempty, if_false_right]
    simp

theorem retryMovesAll_unsubscribe (h : RetryMovesAll s) (topic : String) (removeRetry : Bool) :
    RetryMovesAll (s.unsubscribe topic removeRetry) := by
  cases hconn : s.connected with
  | false =>
    rw [unsubscribe_of_not_connected hconn]
    exact h
  | true =>
    rw [retryMovesAll_iff] at h ⊢
    rw [retrySubList_unsubscribe hconn]
    intro t
    split
    · exact fun hmem => h t (mem_erase.mp hmem).2
    · exact h t

theorem retryMovesAll_step_iff (s : AdStreamSubscriber Callback) (c : SubscriberCall Callback)
    (s' : AdStreamSubscriber Callback) (h : RetryMovesAll s) (hstep : SubscriberStep s c s') :
    RetryMovesAll s' ↔ SubscriptionsAccepted s c := by
  subst hstep
  cases c with
  | subscribe topic cb answer => exact retryMovesAll_subscribe_iff h topic cb answer
  | unsubscribe topic removeRetry =>
    exact iff_of_true (retryMovesAll_unsubscribe h topic removeRetry) trivial
  | resubscribeAll answer => exact retryMovesAll_resubscribeAll_iff h answer
  | retryFailedSubscriber answer =>
    refine iff_of_true ?_ trivial
    change RetryMovesAll (s.retryFailedSubscriber answer)
    rw [retryFailedSubscriber_eq]
    exact h
  | onAdMessage msgList =>
    refine iff_of_true ?_ trivial
    change RetryMovesAll (s.onAdMessage msgList)
    rw [retryMovesAll_iff] at h ⊢
    rw [retrySubList_onAdMessage]
    exact h

/-- In every run the three lists are in step; a retry would move all topics, in every state
that the run passes, exactly when every subscription request of the run is accepted. -/
theorem subscriptions_along_iff (connected : Bool) (calls : List (SubscriberCall Callback)) :
    HoldsAlong SubscriberStep ListsInStep { connected := connected } calls ∧
      (HoldsAlong SubscriberStep RetryMovesAll { connected := connected } calls ↔
        StepsMeet SubscriberStep SubscriptionsAccepted { connected := connected } calls) := by
  have hlists : ListsInStep ({ connected := connected } : AdStreamSubscriber Callback) :=
    ⟨rfl, rfl, disjoint_empty_left _⟩
  have hretry : RetryMovesAll ({ connected := connected } : AdStreamSubscriber Callback) := by
    rw [retryMovesAll_iff]
    exact fun topic => notMem_empty
  refine ⟨fun calls₁ calls₂ s _ hrun => hrun.invariant listsInStep_step hlists, ?_⟩
  exact holdsAlong_iff_stepsMeet listsInStep_step
    (fun s c s' _ h hstep => retryMovesAll_step_iff s c s' h hstep) hlists hretry calls

end Runs

/-- A topic that is turned down once is not subscribed to by a retry to which the server
says yes. -/
theorem not_retryMovesAll_turned_down : ∃ s : AdStreamSubscriber Unit,
      Run SubscriberStep { connected := true } [.subscribe "ad_log" () .no] s ∧
        "ad_log" ∈ s.retrySubList ∧ ¬RetryMovesAll s := by
  have hmem : "ad_log" ∈ (({ connected := true } : AdStreamSubscriber Unit).subscribe
      "ad_log" () .no).2.retrySubList := by
    rw [mem_retry_subscribe rfl Finmap.notMem_empty Finmap.notMem_empty]
    simp
  refine ⟨_, .cons rfl (.nil _), hmem, ?_⟩
  rw [retryMovesAll_iff]
  exact fun hempty => hempty "ad_log" hmem

end AdDelivery.Stream
