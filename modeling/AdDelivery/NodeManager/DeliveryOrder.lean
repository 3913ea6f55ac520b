import AdDelivery.NodeManager.WriteQueue

/-!
# The order of delivery

Requests are delivered once and in order as long as no master pops a request that is not newer
than all that other masters delivered since it filled its cache. What holds of the queue and the
caches anyway is the invariant: a cache has the oldest requests of the queue, and everything that
was delivered is older than the queue.
-/

namespace AdDelivery.NodeManager

open List WriteQueue

variable {ι : Type*} [DecidableEq ι]

/-- No request is delivered twice, and they are delivered in the order of their numbers. -/
def InOrder (queue : WriteQueue ι) : Prop := queue.delivered.Pairwise (· < ·)

/-- What is popped is newer than all that other masters delivered since the cache was filled. -/
def CacheFresh (queue : WriteQueue ι) : WriteQueueCall ι → Prop
  | .popWriteReq m .answered => (queue.master m).connected →
    ∀ front ∈ (queue.master m).cachedWriteReqlist.head?, ∀ request ∈ (queue.master m).delivered,
      request < front
  | _ => True

/-- What holds of the queue and of the cache of each master. -/
structure QueueInv (queue : WriteQueue ι) : Prop where
  sorted : queue.writeReqQueue.Pairwise (· < ·)
  lt_next : ∀ request ∈ queue.writeReqQueue, request < queue.nextSequence
  delivered_lt : ∀ request ∈ queue.delivered, request < queue.nextSequence
  older : ∀ request ∈ queue.writeReqQueue, ∀ old ∈ queue.delivered, old < request
  cache_sorted : ∀ m, (queue.master m).cachedWriteReqlist.Pairwise (· < ·)
  cache_lt : ∀ m, ∀ cached ∈ (queue.master m).cachedWriteReqlist, cached < queue.nextSequence
  first : ∀ m, ∀ request ∈ queue.writeReqQueue,
    request ∈ (queue.master m).cachedWriteReqlist ∨
      ∀ cached ∈ (queue.master m).cachedWriteReqlist, cached < request
  others : ∀ m, ∀ cached ∈ (queue.master m).cachedWriteReqlist, ∀ old ∈ queue.delivered,
    old < cached ∨ old ∈ (queue.master m).delivered
  known : ∀ m, ∀ request ∈ (queue.master m).delivered, request ∈ queue.delivered

namespace QueueInv

variable {queue : WriteQueue ι}

omit [DecidableEq ι] in
/-- Roles and the prepare node have no part in it. -/
theorem roles (h : QueueInv queue) (primary writePrepareNode : Option ι) :
    QueueInv { queue with primary, writePrepareNode } :=
  ⟨h.sorted, h.lt_next, h.delivered_lt, h.older, h.cache_sorted, h.cache_lt, h.first, h.others,
    h.known⟩

variable {m : ι}

/-- A master with another cache: a part of the oldest requests that nobody delivered since. -/
theorem setCache (h : QueueInv queue) {master : Master}
    (hsorted : master.cachedWriteReqlist.Pairwise (· < ·))
    (hlt : ∀ cached ∈ master.cachedWriteReqlist, cached < queue.nextSequence)
    (hfirst : ∀ request ∈ queue.writeReqQueue, request ∈ master.cachedWriteReqlist ∨
      ∀ cached ∈ master.cachedWriteReqlist, cached < request)
    (hothers : ∀ cached ∈ master.cachedWriteReqlist, ∀ old ∈ queue.delivered,
      old < cached ∨ old ∈ master.delivered)
    (hknown : ∀ request ∈ master.delivered, request ∈ queue.delivered) :
    QueueInv (queue.setMaster m master) := by
  have hcases (P : ι → Master → Prop) (hm : P m master) (hold : ∀ m', P m' (queue.master m'))
      (m' : ι) : P m' ((queue.setMaster m master).master m') := by
    by_cases heq : m' = m
    · subst heq
      rwa [setMaster_self]
    · rw [queue.setMaster_of_ne master heq]
      exact hold m'
  constructor
  · exact h.sorted
  · exact h.lt_next
  · exact h.delivered_lt
  · exact h.older
  · exact hcases (fun _ master => master.cachedWriteReqlist.Pairwise (· < ·)) hsorted
      h.cache_sorted
  · exact hcases (fun _ master => ∀ cached ∈ master.cachedWriteReqlist,
      cached < queue.nextSequence) hlt h.cache_lt
  · exact hcases (fun _ master => ∀ request ∈ queue.writeReqQueue,
      request ∈ master.cachedWriteReqlist ∨
        ∀ cached ∈ master.cachedWriteReqlist, cached < request) hfirst h.first
  · exact hcases (fun _ master => ∀ cached ∈ master.cachedWriteReqlist,
      ∀ old ∈ queue.delivered, old < cached ∨ old ∈ master.delivered) hothers h.others
  · exact hcases (fun _ master => ∀ request ∈ master.delivered, request ∈ queue.delivered)
      hknown h.known

/-- A master changes its connection or its flag. -/
theorem setMaster (h : QueueInv queue) {master : Master}
    (hcached : master.cachedWriteReqlist = (queue.master m).cachedWriteReqlist)
    (hothers : master.delivered = (queue.master m).delivered) :
    QueueInv (queue.setMaster m master) := by
  refine h.setCache ?_ ?_ ?_ ?_ ?_ <;> simp only [hcached, hothers]
  · exact h.cache_sorted m
  · exact h.cache_lt m
  · exact h.first m
  · exact h.others m
  · exact h.known m

theorem clearCache (h : QueueInv queue) (m : ι) :
    QueueInv (queue.setMaster m { queue.master m with cachedWriteReqlist := [] }) :=
  h.setCache .nil (nofun)
    (fun _ _ => .inr nofun)
    (nofun) (h.known m)

/-- What is cached are the oldest requests of the queue. -/
theorem cacheNewWriteFromZNode (h : QueueInv queue) (m : ι) :
    QueueInv (queue.cacheNewWriteFromZNode m) := by
  unfold WriteQueue.cacheNewWriteFromZNode
  split_ifs
  · exact h
  · exact h
  · have htake {request : ℕ} (hr : request ∈ queue.writeReqQueue.take 1000) :
        request ∈ queue.writeReqQueue := mem_of_mem_take hr
    have hsplit := take_append_drop 1000 queue.writeReqQueue
    have hsorted := h.sorted
    rw [← hsplit, pairwise_append] at hsorted
    refine h.setCache hsorted.1 (fun cached hc => h.lt_next cached (htake hc)) ?_ ?_ ?_
    · intro request hrequest
      rw [← hsplit, mem_append] at hrequest
      refine hrequest.imp_right fun hdrop cached hc => ?_
      exact hsorted.2.2 cached hc request hdrop
    · exact fun cached hc old hold => .inl (h.older cached (htake hc) old hold)
    · exact nofun

omit [DecidableEq ι] in
theorem pushWriteReq (h : QueueInv queue) : QueueInv { queue with
        writeReqQueue := queue.writeReqQueue ++ [queue.nextSequence]
        nextSequence := queue.nextSequence + 1 } := by
  constructor
  · rw [pairwise_append]
    refine ⟨h.sorted, pairwise_singleton _ _, fun request hr next hnext => ?_⟩
    rw [mem_singleton.mp hnext]
    exact h.lt_next request hr
  · intro request hr
    rcases mem_append.mp hr with hr | hr
    · exact Nat.lt_succ_of_lt (h.lt_next request hr)
    · rw [mem_singleton.mp hr]
      exact Nat.lt_succ_self _
  · exact fun request hr => Nat.lt_succ_of_lt (h.delivered_lt request hr)
  · intro request hr old hold
    rcases mem_append.mp hr with hr | hr
    · exact h.older request hr old hold
    · rw [mem_singleton.mp hr]
      exact h.delivered_lt old hold
  · exact h.cache_sorted
  · exact fun m cached hc => Nat.lt_succ_of_lt (h.cache_lt m cached hc)
  · intro m request hr
    rcases mem_append.mp hr with hr | hr
    · exact h.first m request hr
    · rw [mem_singleton.mp hr]
      exact .inr (h.cache_lt m)
  · exact h.others
  · exact h.known

omit [DecidableEq ι] in
/-- A node that is deleted. -/
theorem erase (h : QueueInv queue) (front : ℕ) :
    QueueInv { queue with writeReqQueue := queue.writeReqQueue.erase front } := by
  have hmem {request : ℕ} (hr : request ∈ queue.writeReqQueue.erase front) :
      request ∈ queue.writeReqQueue := mem_of_mem_erase hr
  constructor
  · exact h.sorted.sublist erase_sublist
  · exact fun request hr => h.lt_next request (hmem hr)
  · exact h.delivered_lt
  · exact fun request hr => h.older request (hmem hr)
  · exact h.cache_sorted
  · exact h.cache_lt
  · exact fun m request hr => h.first m request (hmem hr)
  · exact h.others
  · exact h.known

/-- A request is delivered that is older than the queue and what is left in the cache. -/
theorem deliver (h : QueueInv queue) {front : ℕ} (hlt : front < queue.nextSequence)
    (hqueue : ∀ request ∈ queue.writeReqQueue, front < request)
    (hcache : ∀ cached ∈ (queue.master m).cachedWriteReqlist, front < cached) :
    QueueInv (queue.deliver m front) := by
  have hcached (m' : ι) : ((queue.deliver m front).master m').cachedWriteReqlist =
      (queue.master m').cachedWriteReqlist := by
    by_cases heq : m' = m
    · rw [heq, queue.deliver_self]
    · rw [queue.deliver_of_ne front heq]
  have hdelivered : (queue.deliver m front).delivered = queue.delivered ++ [front] := rfl
  constructor
  · exact h.sorted
  · exact h.lt_next
  · intro request hr
    rw [hdelivered, mem_append, mem_singleton] at hr
    rcases hr with hr | rfl
    · exact h.delivered_lt request hr
    · exact hlt
  · intro request hr old hold
    rw [hdelivered, mem_append, mem_singleton] at hold
    rcases hold with hold | rfl
    · exact h.older request hr old hold
    · exact hqueue request hr
  · intro m'
    rw [hcached]
    exact h.cache_sorted m'
  · intro m'
    rw [hcached]
    exact h.cache_lt m'
  · intro m'
    rw [hcached]
    exact h.first m'
  · intro m' cached hc old hold
    rw [hcached] at hc
    rw [hdelivered, mem_append, mem_singleton] at hold
    by_cases heq : m' = m
    · subst heq
      rw [queue.deliver_self]
      rcases hold with hold | rfl
      · exact h.others m' cached hc old hold
      · exact .inl (hcache cached hc)
    · rw [queue.deliver_of_ne front heq, mem_append, mem_singleton]
      rcases hold with hold | rfl
      · exact (h.others m' cached hc old hold).imp_right .inl
      · exact .inr (.inr rfl)
  · intro m' request hr
    rw [hdelivered, mem_append]
    by_cases heq : m' = m
    · subst heq
      rw [queue.deliver_self] at hr
      exact .inl (h.known m' request hr)
    · rw [queue.deliver_of_ne front heq, mem_append] at hr
      exact hr.imp_left (h.known m' request)

/-- The front of a cache is delivered and its node is gone. -/
theorem popDelivered (h : QueueInv queue) {front : ℕ} {rest : List ℕ}
    (hcached : (queue.master m).cachedWriteReqlist = front :: rest) :
    QueueInv (({ queue with writeReqQueue := queue.writeReqQueue.erase front }.setMaster m
      { queue.master m with cachedWriteReqlist := rest }).deliver m front) := by
  have hcache := h.cache_sorted m
  rw [hcached, pairwise_cons] at hcache
  have hrest {cached : ℕ} (hc : cached ∈ rest) :
      cached ∈ (queue.master m).cachedWriteReqlist := by
    rw [hcached]
    exact mem_cons_of_mem _ hc
  have hmem : front ∈ (queue.master m).cachedWriteReqlist := by
    rw [hcached]
    exact mem_cons_self
  have hnodup : queue.writeReqQueue.Nodup := h.sorted.imp Nat.ne_of_lt
  -- the front is the oldest one of the cache, so it is older than what stays in the queue
  have hfirst : ∀ request ∈ queue.writeReqQueue.erase front, request ∈ rest ∨
      ∀ cached ∈ front :: rest, cached < request := by
    intro request hr
    obtain ⟨hne, hr⟩ := hnodup.mem_erase_iff.mp hr
    have hcases := h.first m request hr
    rw [hcached] at hcases
    exact hcases.imp_left fun hc => (mem_cons.mp hc).resolve_left hne
  refine QueueInv.deliver ?_ (h.cache_lt m front hmem) ?_ ?_
  · refine (h.erase front).setCache hcache.2 (fun cached hc => h.cache_lt m cached (hrest hc))
      (fun request hr => ?_) (fun cached hc => h.others m cached (hrest hc)) (h.known m)
    exact (hfirst request hr).imp_right fun hlt cached hc =>
      hlt cached (mem_cons_of_mem _ hc)
  · intro request hr
    rcases hfirst request hr with hc | hlt
    · exact hcache.1 request hc
    · exact hlt front mem_cons_self
  · rw [setMaster_self]
    exact hcache.1

theorem popFront (h : QueueInv queue) (m : ι) (answer : DeleteAnswer) :
    QueueInv (queue.popFront m answer) := by
  unfold WriteQueue.popFront
  cases hcached : (queue.master m).cachedWriteReqlist with
  | nil => exact h
  | cons front rest =>
    simp only
    split
    · exact h
    · cases answer with
      | answered => exact h.popDelivered hcached
      | lost applied =>
        refine QueueInv.setMaster ?_ rfl rfl
        cases applied with
        | true => exact h.erase front
        | false => exact h

theorem endWriteReq (h : QueueInv queue) (m : ι) : QueueInv (queue.endWriteReq m) := by
  unfold WriteQueue.endWriteReq
  split
  · exact h.roles queue.primary none
  · exact h

/-- No call breaks the invariant. -/
theorem step {asyncEnabled : Bool} {queue' : WriteQueue ι} {call : WriteQueueCall ι}
    (h : QueueInv queue) (hstep : queue.Step asyncEnabled call queue') : QueueInv queue' := by
  unfold WriteQueue.Step WriteQueue.call at hstep
  cases call with
  | pushWriteReq => exact Option.some.inj hstep ▸ h.pushWriteReq
  | notifyChangedPrimary m isNewPrimary =>
    simp only [notifyChangedPrimary] at hstep
    split_ifs at hstep
    · rw [← Option.some.inj hstep]
      exact (h.roles (some m) queue.writePrepareNode).cacheNewWriteFromZNode m
    all_goals
      rw [← Option.some.inj hstep]
      exact (h.endWriteReq m).roles _ _
  | checkForWriteReq m =>
    rw [← Option.some.inj hstep]
    unfold checkForWriteReq
    split_ifs
    · exact h.clearCache m
    · exact h
    · exact h
    · exact h.endWriteReq m
    · exact (h.endWriteReq m).cacheNewWriteFromZNode m
  | prepareWriteReq m =>
    rw [← Option.some.inj hstep]
    unfold prepareWriteReq
    split_ifs
    · exact h
    · exact h.setMaster rfl rfl
    · exact (h.roles queue.primary (some m)).setMaster rfl rfl
    · exact h
  | popWriteReq m answer =>
    simp only [popWriteReq] at hstep
    split_ifs at hstep
    exact Option.some.inj hstep ▸ (h.cacheNewWriteFromZNode m).popFront m answer
  | endPreparedWrite m => exact Option.some.inj hstep ▸ h.setMaster rfl rfl
  | endWriteReq m => exact Option.some.inj hstep ▸ h.endWriteReq m
  | connectionLost m expired =>
    rw [← Option.some.inj hstep]
    exact (h.roles queue.primary _).setMaster rfl rfl
  | reconnected m => exact Option.some.inj hstep ▸ h.setMaster rfl rfl

end QueueInv

variable (queue : WriteQueue ι) (m : ι)

theorem delivered_setMaster (master : Master) :
    (queue.setMaster m master).delivered = queue.delivered := rfl

@[simp] theorem delivered_cacheNewWriteFromZNode :
    (queue.cacheNewWriteFromZNode m).delivered = queue.delivered := by
  unfold WriteQueue.cacheNewWriteFromZNode
  split_ifs <;> rfl

@[simp] theorem delivered_endWriteReq : (queue.endWriteReq m).delivered = queue.delivered := by
  unfold WriteQueue.endWriteReq
  split <;> rfl

/-- An answered pop delivers the front of the cache. -/
theorem delivered_popFront_answered : (queue.popFront m .answered).delivered = queue.delivered ++
      if (queue.master m).connected then (queue.master m).cachedWriteReqlist.head?.toList
      else [] := by
  unfold WriteQueue.popFront
  cases hcached : (queue.master m).cachedWriteReqlist with
  | nil => simp
  | cons front rest =>
    cases hconnected : (queue.master m).connected with
    | false => simp
    | true => simp [deliver, delivered_setMaster]

theorem delivered_popFront_lost (applied : Bool) :
    (queue.popFront m (.lost applied)).delivered = queue.delivered := by
  unfold WriteQueue.popFront
  split
  · rfl
  · split <;> rfl

variable {asyncEnabled : Bool} {call : WriteQueueCall ι}

/-- Only an answered pop delivers a request. -/
theorem delivered_step {queue queue' : WriteQueue ι}
    (hcall : ∀ m, call ≠ .popWriteReq m .answered) (hstep : queue.Step asyncEnabled call queue') :
    queue'.delivered = queue.delivered := by
  unfold WriteQueue.Step WriteQueue.call at hstep
  cases call with
  | pushWriteReq => exact Option.some.inj hstep ▸ rfl
  | notifyChangedPrimary m isNewPrimary =>
    simp only [notifyChangedPrimary] at hstep
    split_ifs at hstep <;> rw [← Option.some.inj hstep] <;> simp
  | checkForWriteReq m =>
    rw [← Option.some.inj hstep, checkForWriteReq]
    split_ifs
    · exact delivered_setMaster queue m _
    · rfl
    · rfl
    · exact delivered_endWriteReq queue m
    · rw [delivered_cacheNewWriteFromZNode, delivered_endWriteReq]
  | prepareWriteReq m =>
    rw [← Option.some.inj hstep, prepareWriteReq]
    split_ifs <;> rfl
  | popWriteReq m answer =>
    simp only [popWriteReq] at hstep
    split_ifs at hstep
    rw [← Option.some.inj hstep]
    cases answer with
    | answered => exact absurd rfl (hcall m)
    | lost applied => rw [delivered_popFront_lost, delivered_cacheNewWriteFromZNode]
  | endPreparedWrite m => exact Option.some.inj hstep ▸ rfl
  | endWriteReq m => rw [← Option.some.inj hstep, delivered_endWriteReq]
  | connectionLost m expired => exact Option.some.inj hstep ▸ rfl
  | reconnected m => exact Option.some.inj hstep ▸ rfl

omit [DecidableEq ι] in
/-- The oldest request of the queue may follow what was delivered. -/
theorem inOrder_append_take {queue : WriteQueue ι} (horder : InOrder queue)
    (holder : ∀ request ∈ queue.writeReqQueue, ∀ old ∈ queue.delivered, old < request) :
    (queue.delivered ++ (queue.writeReqQueue.take 1000).head?.toList).Pairwise (· < ·) := by
  rw [pairwise_append]
  refine ⟨horder, ?_, fun old hold front hfront => ?_⟩
  · cases (queue.writeReqQueue.take 1000).head? with
    | none => exact .nil
    | some front => exact pairwise_singleton _ _
  · have hmem := mem_of_mem_head? (Option.mem_toList.mp hfront)
    exact holder front (mem_of_mem_take hmem) old hold

/-- The front that a pop delivers is newer than all that was delivered exactly when the cache is
fresh. -/
theorem inOrder_popWriteReq_iff {queue queue' : WriteQueue ι} {m : ι} (hinv : QueueInv queue)
    (horder : InOrder queue) (hstep : queue.Step asyncEnabled (.popWriteReq m .answered) queue') :
    InOrder queue' ↔ CacheFresh queue (.popWriteReq m .answered) := by
  simp only [WriteQueue.Step, WriteQueue.call, popWriteReq] at hstep
  split_ifs at hstep
  rw [← Option.some.inj hstep, InOrder, delivered_popFront_answered,
    CacheFresh]
  by_cases hconnected : (queue.master m).connected
  · by_cases hcached : (queue.master m).cachedWriteReqlist = []
    · -- the cache is filled from the queue, and the queue is newer than all that was delivered
      have hfront := inOrder_append_take horder hinv.older
      rw [delivered_cacheNewWriteFromZNode]
      simpa [WriteQueue.cacheNewWriteFromZNode, hcached, hconnected] using hfront
    · obtain ⟨front, rest, hcons⟩ := exists_cons_of_ne_nil hcached
      have hmem : front ∈ (queue.master m).cachedWriteReqlist := by
        rw [hcons]
        exact mem_cons_self
      have hsame : queue.cacheNewWriteFromZNode m = queue := if_pos hcached
      rw [hsame, hcons, head?_cons, pairwise_append]
      simp only [hconnected, forall_const, Option.mem_def, Option.some.injEq, forall_eq']
      constructor
      · intro hall request hrequest
        exact hall.2.2 request (hinv.known m request hrequest) front (mem_singleton_self _)
      · intro hfresh
        refine ⟨horder, pairwise_singleton _ _, fun old hold cached hc => ?_⟩
        rw [mem_singleton.mp hc]
        rcases hinv.others m front hmem old hold with hlt | hother
        · exact hlt
        · exact hfresh old hother
  · have hsame : queue.cacheNewWriteFromZNode m = queue := by
      simp [WriteQueue.cacheNewWriteFromZNode, hconnected]
    rw [hsame]
    simpa [hconnected, InOrder] using horder

theorem inOrder_step_iff {queue queue' : WriteQueue ι} (hinv : QueueInv queue)
    (horder : InOrder queue) (hstep : queue.Step asyncEnabled call queue') :
    InOrder queue' ↔ CacheFresh queue call := by
  by_cases hcall : ∀ m, call ≠ .popWriteReq m .answered
  · have hsame : InOrder queue' := by
      rw [InOrder, delivered_step hcall hstep]
      exact horder
    refine iff_of_true hsame ?_
    cases call with
    | popWriteReq m answer =>
      cases answer with
      | answered => exact absurd rfl (hcall m)
      | lost applied => trivial
    | _ => trivial
  · push Not at hcall
    obtain ⟨m, rfl⟩ := hcall
    exact inOrder_popWriteReq_iff hinv horder hstep

omit [DecidableEq ι] in
theorem queueInv_start : QueueInv ({} : WriteQueue ι) := by
  constructor
  · exact .nil
  · exact nofun
  · exact nofun
  · exact nofun
  · exact fun _ => .nil
  · exact nofun
  · exact nofun
  · exact nofun
  · exact nofun

/-- Requests are delivered once and in order all along a run exactly when its pops find fresh
caches. -/
theorem holdsAlong_inOrder_iff (ι : Type*) [DecidableEq ι] (asyncEnabled : Bool)
    (calls : List (WriteQueueCall ι)) :
    HoldsAlong (WriteQueue.Step asyncEnabled) InOrder ({} : WriteQueue ι) calls ↔
      StepsMeet (WriteQueue.Step asyncEnabled) CacheFresh ({} : WriteQueue ι) calls := by
  refine holdsAlong_iff_stepsMeet (Q := QueueInv) ?_ ?_ queueInv_start .nil calls
  · intro queue call queue' hinv hstep
    exact hinv.step hstep
  · intro queue call queue' hinv horder hstep
    exact inOrder_step_iff hinv horder hstep

/-- Whatever the masters do and lose, a cache has the oldest requests of the queue, and what was
delivered is older than the queue. -/
theorem holdsAlong_queueInv (ι : Type*) [DecidableEq ι] (asyncEnabled : Bool)
    (calls : List (WriteQueueCall ι)) :
    HoldsAlong (WriteQueue.Step asyncEnabled) QueueInv ({} : WriteQueue ι) calls := by
  intro before after queue _ hrun
  exact hrun.invariant (fun _ _ _ hinv hstep => hinv.step hstep) queueInv_start

/-- A master that was the primary before another one is the primary again, with its old cache. -/
def primaryAgain : List (WriteQueueCall Bool) :=
  [.pushWriteReq, .pushWriteReq, .notifyChangedPrimary false true,
    .notifyChangedPrimary false false, .notifyChangedPrimary true true, .prepareWriteReq true,
    .popWriteReq true .answered, .notifyChangedPrimary true false,
    .notifyChangedPrimary false true, .prepareWriteReq false, .popWriteReq false .answered]

theorem not_holdsAlong_inOrder_primaryAgain :
    ¬ HoldsAlong (WriteQueue.Step false) InOrder ({} : WriteQueue Bool) primaryAgain := by
  intro hall
  have hrun : Run (WriteQueue.Step false) ({} : WriteQueue Bool) primaryAgain _ :=
    .cons rfl (.cons rfl (.cons rfl (.cons rfl (.cons rfl (.cons rfl (.cons rfl (.cons rfl
      (.cons rfl (.cons rfl (.cons rfl (.nil _)))))))))))
  have horder := hall primaryAgain [] _ (append_nil _) hrun
  exact absurd (show List.Pairwise (· < ·) [0, 0] from horder) (by decide)

/-- Every write that was pushed waits in the queue, or it was delivered. -/
def NoneVanished (queue : WriteQueue ι) : Prop :=
  ∀ request < queue.nextSequence, request ∈ queue.writeReqQueue ∨ request ∈ queue.delivered

/-- What is deleted without an answer does not wait any more. -/
def NothingLost (queue : WriteQueue ι) : WriteQueueCall ι → Prop
  | .popWriteReq m (.lost true) => (queue.master m).connected →
    ∀ front ∈ ((queue.cacheNewWriteFromZNode m).master m).cachedWriteReqlist.head?,
      front ∉ queue.writeReqQueue
  | _ => True

/-- The writes that wait, their number and those that were delivered. -/
def WriteQueue.writes (queue : WriteQueue ι) : List ℕ × ℕ × List ℕ :=
  (queue.writeReqQueue, queue.nextSequence, queue.delivered)

variable {queue m} {queue' : WriteQueue ι}

omit [DecidableEq ι] in
theorem noneVanished_congr (h : queue'.writes = queue.writes) :
    NoneVanished queue' ↔ NoneVanished queue := by
  simp only [writes, Prod.mk.injEq] at h
  rw [NoneVanished, NoneVanished, h.1, h.2.1, h.2.2]

theorem writes_setMaster (queue : WriteQueue ι) (m : ι) (master : Master) :
    (queue.setMaster m master).writes = queue.writes := rfl

@[simp] theorem writes_cacheNewWriteFromZNode (queue : WriteQueue ι) (m : ι) :
    (queue.cacheNewWriteFromZNode m).writes = queue.writes := by
  unfold WriteQueue.cacheNewWriteFromZNode
  split_ifs <;> rfl

@[simp] theorem writes_endWriteReq (queue : WriteQueue ι) (m : ι) :
    (queue.endWriteReq m).writes = queue.writes := by
  unfold WriteQueue.endWriteReq
  split <;> rfl

/-- Only pushes and pops change the writes. -/
theorem writes_step (hpush : call ≠ .pushWriteReq) (hpop : ∀ m answer, call ≠ .popWriteReq m answer)
    (hstep : queue.Step asyncEnabled call queue') : queue'.writes = queue.writes := by
  unfold WriteQueue.Step WriteQueue.call at hstep
  cases call with
  | pushWriteReq => exact absurd rfl hpush
  | popWriteReq m answer => exact absurd rfl (hpop m answer)
  | notifyChangedPrimary m isNewPrimary =>
    simp only [notifyChangedPrimary] at hstep
    split_ifs at hstep <;> rw [← Option.some.inj hstep]
    · exact writes_cacheNewWriteFromZNode { queue with primary := some m } m
    all_goals exact writes_endWriteReq queue m
  | checkForWriteReq m =>
    rw [← Option.some.inj hstep, checkForWriteReq]
    split_ifs
    · exact writes_setMaster queue m _
    · rfl
    · rfl
    · exact writes_endWriteReq queue m
    · rw [writes_cacheNewWriteFromZNode, writes_endWriteReq]
  | prepareWriteReq m =>
    rw [← Option.some.inj hstep, prepareWriteReq]
    split_ifs <;> rfl
  | endWriteReq m => exact Option.some.inj hstep ▸ writes_endWriteReq queue m
  | _ => exact Option.some.inj hstep ▸ rfl

/-- An answered pop delivers what it takes from the queue; a lost one may just take it. -/
theorem noneVanished_popFront_iff (hinv : QueueInv queue) (hnone : NoneVanished queue)
    (answer : DeleteAnswer) : NoneVanished (queue.popFront m answer) ↔
      (answer = .lost true → (queue.master m).connected →
        ∀ front ∈ (queue.master m).cachedWriteReqlist.head?, front ∉ queue.writeReqQueue) := by
  unfold WriteQueue.popFront
  split
  · next hcached => simp [hnone, hcached]
  next front rest hcached =>
  split
  · next hdown =>
    exact iff_of_true hnone fun _ hup => by simp [hup] at hdown
  next hup =>
  simp only [hcached, head?_cons, Option.mem_some, forall_eq', Bool.not_eq_true',
    Bool.not_eq_false] at hup ⊢
  cases answer with
  | answered =>
    refine iff_of_true (fun request hlt => ?_) (fun h => nomatch h)
    change request ∈ queue.writeReqQueue.erase front ∨ request ∈ queue.delivered ++ [front]
    by_cases hfront : request = front
    · simp [hfront]
    · simpa [mem_erase_of_ne hfront, hfront] using hnone request hlt
  | lost applied =>
    cases applied with
    | false => exact iff_of_true hnone fun h => nomatch h
    | true =>
      simp only [hup, forall_const]
      constructor
      · intro hafter hwaits
        have hnodup : queue.writeReqQueue.Nodup := hinv.sorted.imp Nat.ne_of_lt
        rcases hafter front (hinv.lt_next front hwaits) with hstays | hdelivered
        · exact hnodup.not_mem_erase hstays
        · exact Nat.lt_irrefl _ (hinv.older front hwaits front hdelivered)
      · intro hgone request hlt
        change request ∈ queue.writeReqQueue.erase front ∨ request ∈ queue.delivered
        rw [erase_of_not_mem hgone]
        exact hnone request hlt

theorem noneVanished_step_iff (hinv : QueueInv queue) (hnone : NoneVanished queue)
    (hstep : queue.Step asyncEnabled call queue') : NoneVanished queue' ↔ NothingLost queue call := by
  by_cases hpop : ∀ m answer, call ≠ .popWriteReq m answer
  · have htrue : NothingLost queue call := by
      cases call with
      | popWriteReq m answer => exact absurd rfl (hpop m answer)
      | _ => trivial
    refine iff_of_true ?_ htrue
    by_cases hpush : call = .pushWriteReq
    · subst hpush
      rw [← Option.some.inj hstep]
      intro request hlt
      rcases Nat.lt_succ_iff_lt_or_eq.mp hlt with hlt | rfl
      · exact (hnone request hlt).imp_left (mem_append_left _)
      · exact .inl (mem_append_right _ (mem_singleton_self _))
    · exact (noneVanished_congr (writes_step hpush hpop hstep)).mpr hnone
  · push Not at hpop
    obtain ⟨m, answer, rfl⟩ := hpop
    simp only [WriteQueue.Step, WriteQueue.call, popWriteReq] at hstep
    split_ifs at hstep
    have hcache := writes_cacheNewWriteFromZNode queue m
    have hqueue : (queue.cacheNewWriteFromZNode m).writeReqQueue = queue.writeReqQueue :=
      congrArg Prod.fst hcache
    have hconnected : ((queue.cacheNewWriteFromZNode m).master m).connected =
        (queue.master m).connected := by
      unfold WriteQueue.cacheNewWriteFromZNode
      split_ifs <;> simp
    rw [← Option.some.inj hstep, noneVanished_popFront_iff (hinv.cacheNewWriteFromZNode m)
      ((noneVanished_congr hcache).mpr hnone), hqueue, hconnected]
    rcases answer with _ | ⟨_ | _⟩ <;> simp [NothingLost]

/-- All along a run every write that was pushed waits or was delivered, exactly when no deletion
that is carried out without an answer takes a waiting write with it. -/
theorem holdsAlong_noneVanished_iff (ι : Type*) [DecidableEq ι] (asyncEnabled : Bool)
    (calls : List (WriteQueueCall ι)) :
    HoldsAlong (WriteQueue.Step asyncEnabled) NoneVanished ({} : WriteQueue ι) calls ↔
      StepsMeet (WriteQueue.Step asyncEnabled) NothingLost ({} : WriteQueue ι) calls := by
  refine holdsAlong_iff_stepsMeet (Q := QueueInv) (fun _ _ _ hinv => hinv.step) ?_ queueInv_start
    (fun request hlt => absurd hlt (Nat.not_lt_zero _)) calls
  intro queue call queue' hinv hnone hstep
  exact noneVanished_step_iff hinv hnone hstep

end AdDelivery.NodeManager
