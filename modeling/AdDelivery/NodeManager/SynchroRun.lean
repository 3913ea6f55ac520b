import AdDelivery.Core.Run
import AdDelivery.NodeManager.SynchroProducer

/-!
# Whole runs of the producer

The counter is the number of consumers whose result has been got, so when it reaches the number of
consumers each of them has a result, and the flag goes down with the callback. A synchronisation
that cannot copy its files leaves the flag up. A result that is still there when the next one is
published, or that is written to a path that has been given out again, is counted there.
-/

namespace AdDelivery.NodeManager

open List Finmap Table

/-- The consumers whose result has been got. -/
def gotten (consumersMap : Table ℕ (Bool × Bool)) : Finset ℕ :=
  consumersMap.keys.filter fun path => (consumersMap.lookup path).any Prod.fst

section Gotten

variable {consumersMap : Table ℕ (Bool × Bool)} {path : ℕ}

theorem mem_gotten : path ∈ gotten consumersMap ↔
    ∃ result, consumersMap.lookup path = some (true, result) := by
  rw [gotten, Finset.mem_filter, Option.any_eq_true]
  constructor
  · rintro ⟨-, ⟨got, result⟩, hlookup, hgot⟩
    obtain rfl : got = true := hgot
    exact ⟨result, hlookup⟩
  · rintro ⟨result, hlookup⟩
    exact ⟨mem_of_lookup_eq_some hlookup, (true, result), hlookup, rfl⟩

theorem gotten_watch (hnew : path ∉ consumersMap) :
    gotten (insert path (false, false) consumersMap) = gotten consumersMap := by
  ext path'
  rw [mem_gotten, mem_gotten]
  refine exists_congr fun result => ?_
  rw [lookup_insert_eq]
  split
  · rename_i heq
    rw [heq, lookup_eq_none.mpr hnew]
    simp
  · rfl

/-- One more result. -/
theorem card_gotten_insert (hnot : path ∉ gotten consumersMap) (result' : Bool) :
    (gotten (insert path (true, result') consumersMap)).card = (gotten consumersMap).card + 1 := by
  have hinsert : gotten (insert path (true, result') consumersMap) =
      insert path (gotten consumersMap) := by
    ext path'
    rw [mem_gotten, Finset.mem_insert, mem_gotten]
    by_cases heq : path' = path
    · subst heq
      exact iff_of_true ⟨result', lookup_insert _⟩ (.inl rfl)
    · rw [lookup_insert_of_ne _ heq]
      exact (or_iff_right heq).symm
  rw [hinsert, Finset.card_insert_of_notMem hnot]

/-- When as many results have been got as there are consumers, each has one. -/
theorem exists_result (hcard : consumersMap.keys.card ≤ (gotten consumersMap).card)
    (hpath : path ∈ consumersMap) : ∃ result, consumersMap.lookup path = some (true, result) := by
  have hall : gotten consumersMap = consumersMap.keys :=
    Finset.eq_of_subset_of_card_le (Finset.filter_subset _ _) hcard
  rw [← mem_gotten, hall]
  exact hpath

end Gotten

namespace SynchroWorld

/-- What holds of a producer that works as it should. -/
structure Proper (w : SynchroWorld) : Prop where
  failed : ∀ produce ∈ w.produces,
    produce.1 = .copyFailed ∨ produce.1 = .publishFailed → produce.2 = false
  once : (w.callbacks.map CallbackCall.round).Nodup
  success : ∀ call ∈ w.callbacks, call.result = true → call.consumers ≠ [] ∧
    ∀ path ∈ call.consumers, ∃ counted ∈ w.counted,
      counted.path = path ∧ counted.round = call.round ∧ counted.result = some true
  consumed : w.producer.consumedCount = (gotten w.producer.consumersMap).card
  current : ∀ counted ∈ w.counted, counted.result ≠ none → counted.reporter = counted.round

/-- While it synchronises, all results in the nodes are those of this synchronisation, and there has
been no callback yet. -/
structure Invariant (w : SynchroWorld) : Prop extends Proper w where
  fresh : w.producer.isSynchronizing = true →
    ∀ node ∈ w.nodes, node.result ≠ none → node.reporter = w.round
  reported : ∀ path got, w.producer.consumersMap.lookup path = some (got, true) →
    ∃ counted ∈ w.counted,
      counted.path = path ∧ counted.round = w.round ∧ counted.result = some true
  past : ∀ call ∈ w.callbacks, call.round ≤ w.round
  silent : w.producer.isSynchronizing = true → ∀ call ∈ w.callbacks, call.round < w.round

section Functions

variable {w : SynchroWorld} {answers : ZkAnswers}

theorem Invariant.endSynchroning (h : Invariant w) (answers : ZkAnswers) :
    Invariant (w.endSynchroning answers) where
  failed := h.failed
  once := h.once
  success := h.success
  consumed := h.consumed
  current := h.current
  fresh := nofun
  reported := h.reported
  past := h.past
  silent := nofun

variable (consumersMap : Table ℕ (Bool × Bool))

theorem lookup_watchConsumer (path path' : ℕ) : (watchConsumer consumersMap path).lookup path' =
      if path' = path ∧ path ∉ consumersMap then some (false, false)
      else consumersMap.lookup path' := by
  unfold watchConsumer
  by_cases hmem : path ∈ consumersMap
  · rw [if_pos hmem, if_neg fun h => h.2 hmem]
  · rw [if_neg hmem, lookup_insert_eq]
    exact if_congr (by rw [and_iff_left hmem]) rfl rfl

theorem gotten_watchConsumer (path : ℕ) :
    gotten (watchConsumer consumersMap path) = gotten consumersMap := by
  unfold watchConsumer
  split
  · rfl
  · rename_i hnew
    exact gotten_watch hnew

/-- Watching adds consumers without a result. -/
theorem foldl_watchConsumer (paths : List ℕ) (consumersMap : Table ℕ (Bool × Bool)) :
    gotten (paths.foldl watchConsumer consumersMap) = gotten consumersMap ∧
      ∀ path got, (paths.foldl watchConsumer consumersMap).lookup path = some (got, true) →
        consumersMap.lookup path = some (got, true) := by
  induction paths generalizing consumersMap with
  | nil => exact ⟨rfl, fun _ _ hlookup => hlookup⟩
  | cons path paths ih =>
    obtain ⟨hgotten, hreported⟩ := ih (watchConsumer consumersMap path)
    refine ⟨hgotten.trans (gotten_watchConsumer consumersMap path), fun path' got hlookup => ?_⟩
    have hlookup' := hreported path' got hlookup
    rw [lookup_watchConsumer] at hlookup'
    split at hlookup'
    · cases hlookup'
    · exact hlookup'

section

variable (h : Invariant w)
include h

theorem Invariant.watch (paths : List ℕ) : Invariant { w with producer := { w.producer with
      watchedConsumer := true
      consumersMap := paths.foldl watchConsumer w.producer.consumersMap } } where
  failed := h.failed
  once := h.once
  success := h.success
  consumed :=
    h.consumed.trans (congrArg Finset.card (foldl_watchConsumer paths _).1.symm)
  current := h.current
  fresh := h.fresh
  reported := fun path got hlookup =>
    h.reported path got ((foldl_watchConsumer paths _).2 path got hlookup)
  past := h.past
  silent := h.silent

theorem Invariant.watchConsumers (answers : ZkAnswers) : Invariant (w.watchConsumers answers) := by
  unfold SynchroWorld.watchConsumers
  by_cases hflag : w.producer.isSynchronizing = true
  · rw [if_pos hflag]
    generalize (if answers.children = true then w.nodes.map ConsumerNode.path else []) = paths
    generalize (if (answers.children && w.producerNode) = true then 1 else 0) = producers
    dsimp only
    split
    · exact h.watch paths
    · exact h
  · rw [if_neg hflag]
    exact h

theorem Invariant.gotResult {counted : CountedResult} (hround : counted.round = w.round)
    (hnot : counted.path ∉ gotten w.producer.consumersMap)
    (hcurrent : counted.result ≠ none → counted.reporter = counted.round) :
    Invariant (w.gotResult counted) where
  failed := h.failed
  once := h.once
  success := by
    intro call hcall htrue
    obtain ⟨hne, hall⟩ := h.success call hcall htrue
    refine ⟨hne, fun path hpath => ?_⟩
    obtain ⟨counted', hmem, hcounted⟩ := hall path hpath
    exact ⟨counted', mem_append_left _ hmem, hcounted⟩
  consumed := by
    have hcard := card_gotten_insert hnot (counted.result.getD false)
    exact (congrArg (· + 1) h.consumed).trans hcard.symm
  current := by
    intro counted' hmem
    rcases mem_append.mp hmem with hmem | hmem
    · exact h.current counted' hmem
    · rw [mem_singleton.mp hmem]
      exact hcurrent
  fresh := h.fresh
  reported := by
    intro path got hlookup
    rw [SynchroWorld.gotResult, Table.lookup_insert_eq] at hlookup
    split at hlookup
    · rename_i hpath
      have htrue : counted.result.getD false = true :=
        congrArg Prod.snd (Option.some.inj hlookup)
      refine ⟨counted, mem_append_right _ (mem_singleton.mpr rfl), hpath.symm, hround, ?_⟩
      cases hresult : counted.result with
      | none =>
        rw [hresult] at htrue
        cases htrue
      | some result =>
        rw [hresult] at htrue
        exact congrArg some htrue
    · obtain ⟨counted', hmem, hcounted⟩ := h.reported path got hlookup
      exact ⟨counted', mem_append_left _ hmem, hcounted⟩
  past := h.past
  silent := h.silent

/-- Removing nodes. -/
theorem Invariant.filterNodes (keep : ConsumerNode → Bool) :
    Invariant { w with nodes := w.nodes.filter keep } where
  failed := h.failed
  once := h.once
  success := h.success
  consumed := h.consumed
  current := h.current
  fresh := fun hflag node hnode => h.fresh hflag node (mem_of_mem_filter hnode)
  reported := h.reported
  past := h.past
  silent := h.silent

theorem Invariant.deleteNode (answers : ZkAnswers) (path : ℕ) :
    Invariant (w.deleteNode answers path) := by
  unfold SynchroWorld.deleteNode
  split
  · exact h.filterNodes _
  · exact h

/-- One consumer is checked. If it has not got a result before, it still has none or it has got
one. -/
theorem Invariant.checkConsumer (answers : ZkAnswers) (hflag : w.producer.isSynchronizing = true)
    {consumer : ℕ × Bool × Bool}
    (hlookup : w.producer.consumersMap.lookup consumer.1 = some consumer.2) :
    Invariant (w.checkConsumer answers consumer) := by
  obtain ⟨path, got, result⟩ := consumer
  cases got with
  | true => exact h
  | false =>
    have hnot : path ∉ gotten w.producer.consumersMap := by
      rw [mem_gotten]
      rintro ⟨result', hlookup'⟩
      rw [hlookup] at hlookup'
      cases hlookup'
    unfold SynchroWorld.checkConsumer
    simp only [Bool.false_eq_true, if_false]
    split
    · rename_i node hnode
      split
      · rename_i result hresult
        refine Invariant.deleteNode (h.gotResult rfl hnot fun _ => ?_) answers path
        have hmem : node ∈ w.nodes := by
          split at hnode
          · exact mem_of_find?_eq_some hnode
          · cases hnode
        exact h.fresh hflag node hmem (by rw [hresult]; exact Option.some_ne_none result)
      · exact h
    · split
      · exact h
      · exact h.gotResult rfl hnot fun hne => absurd rfl hne

end

/-- Checking one consumer changes neither the flag nor what is known of the others. -/
theorem checkConsumer_frame (answers : ZkAnswers) (w : SynchroWorld) (consumer : ℕ × Bool × Bool) :
    (w.checkConsumer answers consumer).producer.isSynchronizing = w.producer.isSynchronizing ∧
      ∀ path, path ≠ consumer.1 →
        (w.checkConsumer answers consumer).producer.consumersMap.lookup path =
          w.producer.consumersMap.lookup path := by
  have hgot : ∀ counted : CountedResult, counted.path = consumer.1 → ∀ path, path ≠ consumer.1 →
      (w.gotResult counted).producer.consumersMap.lookup path =
        w.producer.consumersMap.lookup path := by
    intro counted hpath path hne
    rw [gotResult, lookup_insert_of_ne]
    rw [hpath]
    exact hne
  have hdelete : ∀ w' : SynchroWorld,
      (w'.deleteNode answers consumer.1).producer = w'.producer := by
    intro w'
    unfold deleteNode
    split
    · rfl
    · rfl
  unfold SynchroWorld.checkConsumer
  split
  · exact ⟨rfl, fun _ _ => rfl⟩
  · dsimp only
    split
    · split
      · rw [hdelete]
        exact ⟨rfl, hgot _ rfl⟩
      · exact ⟨rfl, fun _ _ => rfl⟩
    · split
      · exact ⟨rfl, fun _ _ => rfl⟩
      · exact ⟨rfl, hgot _ rfl⟩

/-- The loop of `checkConsumers`. -/
theorem Invariant.foldl_checkConsumer (h : Invariant w) (answers : ZkAnswers)
    (hflag : w.producer.isSynchronizing = true) {consumers : List (ℕ × Bool × Bool)}
    (hnodup : (consumers.map Prod.fst).Nodup) (hlookup : ∀ consumer ∈ consumers,
      w.producer.consumersMap.lookup consumer.1 = some consumer.2) :
    Invariant (consumers.foldl (SynchroWorld.checkConsumer answers) w) ∧
      (consumers.foldl (SynchroWorld.checkConsumer answers) w).producer.isSynchronizing = true := by
  induction consumers generalizing w with
  | nil => exact ⟨h, hflag⟩
  | cons consumer consumers ih =>
    rw [map_cons, nodup_cons] at hnodup
    obtain ⟨hkeep, hothers⟩ := checkConsumer_frame answers w consumer
    refine ih (h.checkConsumer answers hflag (hlookup consumer mem_cons_self))
      (hkeep.trans hflag) hnodup.2 fun consumer' hmem => ?_
    have hne : consumer'.1 ≠ consumer.1 := fun heq =>
      hnodup.1 (heq ▸ mem_map_of_mem hmem)
    rw [hothers consumer'.1 hne]
    exact hlookup consumer' (mem_cons_of_mem consumer hmem)

/-- A callback with success, when all results have been got, is about results of success. -/
theorem Invariant.all_success (h : Invariant w) (hsome : w.producer.consumedCount ≠ 0)
    (hall : w.producer.consumersMap.keys.card ≤ w.producer.consumedCount)
    (hresult : (w.producer.consumersMap.inOrder.all fun consumer => consumer.2.2) = true) :
    w.producer.consumersMap.sortedKeys ≠ [] ∧
      ∀ path ∈ w.producer.consumersMap.sortedKeys, ∃ counted ∈ w.counted,
        counted.path = path ∧ counted.round = w.round ∧ counted.result = some true := by
  rw [h.consumed] at hsome hall
  constructor
  · obtain ⟨path, hpath⟩ := Finset.card_pos.mp (Nat.pos_of_ne_zero hsome)
    have hkey : path ∈ w.producer.consumersMap :=
      mem_keys.mp (Finset.mem_of_mem_filter path hpath)
    exact ne_nil_of_mem (mem_sortedKeys.mpr hkey)
  · intro path hpath
    obtain ⟨result, hlookup⟩ := exists_result hall (mem_sortedKeys.mp hpath)
    have htrue : result = true :=
      all_eq_true.mp hresult (path, true, result) (mem_inOrder.mpr hlookup)
    rw [htrue] at hlookup
    exact h.reported path true hlookup

/-- The callback is called for the first time, and with the result of all consumers. -/
theorem Invariant.finishConsumers (h : Invariant w) (answers : ZkAnswers)
    (hflag : w.producer.isSynchronizing = true) : Invariant (w.finishConsumers answers) := by
  unfold SynchroWorld.finishConsumers
  by_cases hzero : w.producer.consumedCount = 0
  · rw [if_pos hzero]
    exact h
  · rw [if_neg hzero]
    by_cases hall : w.producer.consumersMap.keys.card ≤ w.producer.consumedCount
    · rw [if_pos hall]
      by_cases hcallback : w.producer.callbackOnConsumed = true
      · simp only [if_pos hcallback]
        exact
          { failed := h.failed
            once := by
              have hnew : w.round ∉ w.callbacks.map CallbackCall.round := by
                intro hmem
                obtain ⟨call, hcall, hround⟩ := mem_map.mp hmem
                exact (h.silent hflag call hcall).ne hround
              have hnodup := Nodup.concat hnew h.once
              rw [concat_eq_append] at hnodup
              simpa only [SynchroWorld.endSynchroning, map_append, map_cons,
                map_nil] using hnodup
            success := by
              intro call hcall htrue
              rcases mem_append.mp hcall with hcall | hcall
              · exact h.success call hcall htrue
              · obtain rfl := mem_singleton.mp hcall
                exact h.all_success hzero hall htrue
            consumed := h.consumed
            current := h.current
            fresh := nofun
            reported := h.reported
            past := by
              intro call hcall
              rcases mem_append.mp hcall with hcall | hcall
              · exact h.past call hcall
              · rw [mem_singleton.mp hcall]
                exact le_rfl
            silent := nofun }
      · simp only [if_neg hcallback]
        exact
          { failed := h.failed
            once := h.once
            success := h.success
            consumed := h.consumed
            current := h.current
            fresh := nofun
            reported := h.reported
            past := h.past
            silent := nofun }
    · rw [if_neg hall]
      exact h

theorem Invariant.checkConsumers (h : Invariant w) (answers : ZkAnswers) :
    Invariant (w.checkConsumers answers) := by
  unfold SynchroWorld.checkConsumers
  split
  · rename_i hflag
    have hnodup : (w.producer.consumersMap.inOrder.map Prod.fst).Nodup :=
      (pairwise_inOrder _).imp ne_of_lt
    obtain ⟨hloop, hflag'⟩ := h.foldl_checkConsumer answers hflag hnodup
      fun consumer hmem => mem_inOrder.mp hmem
    exact hloop.finishConsumers answers hflag'
  · exact h

/-- Every step that the condition is about. The files are copied, no node has a result when it is
published, and while it synchronises only its own consumers write results. -/
def StepOk (w : SynchroWorld) : SynchroEvent → Prop
  | .produce call _ => w.producer.isSynchronizing = false →
    ¬ CopyFails call ∧ (call.published = true → ∀ node ∈ w.nodes, node.result = none)
  | .report path round _ => w.producer.isSynchronizing = true →
    (∃ node ∈ w.nodes, node.path = path) → round = w.round
  | _ => True

section

variable (h : Invariant w)
include h

theorem Invariant.returns {answer : ProduceAnswer}
    (hanswer : answer = .copyFailed ∨ answer = .publishFailed →
      w.producer.isSynchronizing = false) : Invariant (w.returns answer) where
  failed := by
    intro produce hproduce
    rcases mem_append.mp hproduce with hproduce | hproduce
    · exact h.failed produce hproduce
    · rw [mem_singleton.mp hproduce]
      exact hanswer
  once := h.once
  success := h.success
  consumed := h.consumed
  current := h.current
  fresh := h.fresh
  reported := h.reported
  past := h.past
  silent := h.silent

/-- A new synchronisation starts with nothing got. -/
theorem Invariant.start (hnodes : ∀ node ∈ w.nodes, node.result = none)
    (producerNode callback : Bool) : Invariant { w with
      producerNode := producerNode
      producer :=
        { isSynchronizing := true
          callbackOnConsumed := callback }
      round := w.round + 1 } where
  failed := h.failed
  once := h.once
  success := h.success
  consumed := rfl
  current := h.current
  fresh := fun _ node hnode hne => absurd (hnodes node hnode) hne
  reported := by
    intro path got hlookup
    cases hlookup
  past := fun call hcall => (h.past call hcall).trans (Nat.le_succ _)
  silent := fun _ call hcall => Nat.lt_succ_of_le (h.past call hcall)

/-- A synchronisation that is not published has ended at once. -/
theorem Invariant.notPublished (answers : ZkAnswers) :
    Invariant (SynchroWorld.endSynchroning answers { w with
      producer := { isSynchronizing := true }
      round := w.round + 1 }) where
  failed := h.failed
  once := h.once
  success := h.success
  consumed := rfl
  current := h.current
  fresh := nofun
  reported := by
    intro path got hlookup
    cases hlookup
  past := fun call hcall => (h.past call hcall).trans (Nat.le_succ _)
  silent := nofun

theorem Invariant.produce {call : ProduceCall} (answers : ZkAnswers)
    (hok : w.StepOk (.produce call answers)) : Invariant (w.produce call answers) := by
  unfold SynchroWorld.produce
  by_cases hflag : w.producer.isSynchronizing = true
  · rw [if_pos hflag]
    exact h.returns (by simp)
  · obtain ⟨hcopy, hnodes⟩ := hok (Bool.not_eq_true _ ▸ hflag)
    rw [if_neg hflag]
    rw [if_neg hcopy]
    split
    · rename_i hpublished
      have hstart := h.start (hnodes hpublished) true call.hasCallback
      exact ((hstart.watchConsumers answers).checkConsumers answers).returns (by simp)
    · exact (h.notPublished answers).returns fun _ => rfl

theorem Invariant.arrive (path : ℕ) : Invariant (w.arrive path) := by
  unfold SynchroWorld.arrive
  split
  · exact h
  · exact
      { failed := h.failed
        once := h.once
        success := h.success
        consumed := h.consumed
        current := h.current
        fresh := by
          intro hflag node hnode hne
          rcases mem_append.mp hnode with hnode | hnode
          · exact h.fresh hflag node hnode hne
          · rw [mem_singleton.mp hnode] at hne
            exact absurd rfl hne
        reported := h.reported
        past := h.past
        silent := h.silent }

theorem Invariant.report {path round : ℕ} {result : Bool}
    (hok : w.StepOk (.report path round result)) : Invariant (w.report path round result) := by
  unfold SynchroWorld.report
  split
  · exact
      { failed := h.failed
        once := h.once
        success := h.success
        consumed := h.consumed
        current := h.current
        fresh := by
          intro hflag node hnode hne
          obtain ⟨node', hnode', rfl⟩ := mem_map.mp hnode
          by_cases hpath : node'.path = path
          · simp only [if_pos hpath]
            exact hok hflag ⟨node', hnode', hpath⟩
          · simp only [if_neg hpath] at hne ⊢
            exact h.fresh hflag node' hnode' hne
        reported := h.reported
        past := h.past
        silent := h.silent }
  · exact h

theorem Invariant.step {event : SynchroEvent} (hok : w.StepOk event) :
    Invariant (w.step event) := by
  have hchanged : ∀ path answers, Invariant (w.consumerChanged path answers) := by
    intro path answers
    unfold SynchroWorld.consumerChanged
    split
    · exact h.checkConsumers answers
    · exact h
  cases event with
  | produce call answers => exact h.produce answers hok
  | waitEnds answers =>
    unfold SynchroWorld.step SynchroWorld.waitEnds
    dsimp only
    split
    · exact h.endSynchroning answers
    · exact h
  | arrive path => exact h.arrive path
  | report path round result => exact h.report hok
  | vanish path => exact h.filterNodes _
  | producerVanish =>
    exact
      { failed := h.failed
        once := h.once
        success := h.success
        consumed := h.consumed
        current := h.current
        fresh := h.fresh
        reported := h.reported
        past := h.past
        silent := h.silent }
  | connected answers => exact (h.watchConsumers answers).checkConsumers answers
  | expired answers => exact h.endSynchroning answers
  | nodeDeleted path answers => exact hchanged path answers
  | dataChanged path answers => exact hchanged path answers
  | childrenChanged answers => exact (h.watchConsumers answers).checkConsumers answers

end

end Functions

theorem invariant_init : Invariant {} where
  failed := fun _ hmem => by cases hmem
  once := nodup_nil
  success := fun _ hmem => by cases hmem
  consumed := rfl
  current := fun _ hmem => by cases hmem
  fresh := nofun
  reported := by
    intro path got hlookup
    cases hlookup
  past := fun _ hmem => by cases hmem
  silent := nofun

/-- One event. -/
def Step (w : SynchroWorld) (event : SynchroEvent) (w' : SynchroWorld) : Prop := w' = w.step event

/-- In every run whose steps meet the condition the producer works as it should, all along. -/
theorem proper_of_stepsOk (events : List SynchroEvent)
    (hok : StepsMeet Step StepOk ({} : SynchroWorld) events) :
    HoldsAlong Step Proper {} events := by
  refine holdsAlong_of_stepsMeet (P := Invariant) ?_ (fun w h => h.toProper) invariant_init hok
  rintro w event _ h hstep rfl
  exact h.step hstep

/-- One consumer comes, and reports success. -/
def consumedEvents : List SynchroEvent :=
  [.produce ⟨true, .scdIndex, true, true, true⟩ {}, .arrive 0, .childrenChanged {},
    .report 0 1 true, .dataChanged 0 {}]

/-- The callback gets the success of that consumer. -/
theorem proper_along_consumedEvents : (consumedEvents.foldl step {}).callbacks = [⟨1, true, [0]⟩] ∧
      HoldsAlong Step Proper {} consumedEvents := by
  refine ⟨by decide +kernel, proper_of_stepsOk consumedEvents ?_⟩
  unfold Step consumedEvents
  simp only [stepsMeet_cons_iff]
  refine ⟨fun _ => ⟨by decide, fun _ node hnode => ?_⟩, trivial, trivial, fun _ _ => ?_, trivial,
    stepsMeet_nil _⟩
  · cases hnode
  · decide +kernel

/-- The files cannot be copied to the distributed file system. -/
def copyFailsCall : ProduceCall := ⟨true, .scdIndex, false, true, true⟩

/-- The failed call leaves the flag up, so that the next one is refused. -/
theorem not_proper_along_copyFails :
    ¬ ∀ events : List SynchroEvent, HoldsAlong Step Proper {} events := by
  intro hall
  have hproper : Proper (({} : SynchroWorld).step (.produce copyFailsCall {})) :=
    hall [.produce copyFailsCall {}] [.produce copyFailsCall {}] [] _ rfl (.cons rfl (.nil _))
  have hreturns : (({} : SynchroWorld).step (.produce copyFailsCall {})).produces =
      [(.copyFailed, true)] := rfl
  have hflag := hproper.failed (.copyFailed, true)
    (hreturns ▸ mem_singleton.mpr rfl) (.inl rfl)
  cases hflag

end SynchroWorld

end AdDelivery.NodeManager
