import AdDelivery.Stream.Subscriber
import Mathlib.Data.Rat.Floor

/-!
# Feedback messages

`onAdStreamMessage` reads the messages of one batch into one and the same
`FeedbackInfo`. A message leaves the cost, the slot, the bid string and the user
profile as they were unless it sets them itself, and they are used all the same: what
a message charges and trains can be what an earlier message of the batch said.

A character of a string stands for a byte. An assertion of the JSON library that fails
ends the process.
-/

namespace AdDelivery.Stream

open List

/-- A JSON value, as far as the messages are read. -/
inductive Json
  | str (value : String)
  | obj (members : List (String × Json))
  | other

/-- `GetString` gives a C string and asserts that the value is one. -/
def Json.getString : Json → Option String
  | .str value => some (String.ofList (value.toList.takeWhile (· ≠ Char.ofNat 0)))
  | _ => none

inductive FeedbackAction
  | view
  | click
deriving DecidableEq

/-- The profile of a user: for every feature its values, in the order of the maps. -/
abbrev UserProfile := List (String × List String)

abbrev FeatureList := List (String × String)

def userFeature (profile : UserProfile) : FeatureList :=
  profile.flatMap fun entry => entry.2.map fun value => (entry.1, value)

/-- What the code around the stream provides: the JSON and number parsers, the profile that
the data platform returns for a user, the document of an ad id and its features. -/
structure StreamEnv (Double : Type) where
  parse : String → Option Json
  zero : Double
  toDouble : String → Option Double
  toInt : String → Option Int
  inFen : Double → Int
  userProfile : String → Option UserProfile
  getDocId : String → Option ℕ
  adFeatureList : ℕ → FeatureList

structure AdConfig where
  enableSponsoredSearch : Bool
  enableSelector : Bool
  enableRec : Bool

structure FeedbackInfo (Double : Type) where
  userId : String := ""
  adId : String := ""
  hitBidstr : String := ""
  action : FeedbackAction := .view
  clickCost : Double
  clickSlot : ℕ := 0
  userProfiles : UserProfile := []

/-- What the lookup and the conversion of an optional member come to. -/
inductive Field (α : Type)
  | absent
  | value (a : α)
  | throws
  | aborts

/-- The calls that the messages lead to. -/
inductive Call
  | updateAuctionLogData (adId hitBidstr : String) (clickCostInFen : Int) (clickSlot : ℕ)
  | predictorUpdate (userFeature adFeature : FeatureList) (isClicked : Bool)
  | updateClicked (docid : ℕ)
  | updateSegments (userFeature : FeatureList)
  | trainOnlineRecommender (userId : String) (userFeature : FeatureList) (adId : String)
      (isClicked : Bool)
deriving DecidableEq

section Parser

variable {Double : Type} (env : StreamEnv Double)

/-- The position is some string like `H1` or `V1`. -/
def StreamEnv.toSlot (slotPos : String) : Option ℕ :=
  if slotPos = "" then none
  else (env.toInt (String.ofList (slotPos.toList.drop 1))).map fun slot => (slot % 2 ^ 32).toNat

def readField {α : Type} (args : List (String × Json)) (name : String)
    (convert : String → Option α) : Field α :=
  match args.lookup name with
  | none => .absent
  | some json => match json.getString with
    | none => .aborts
    | some text => match convert text with
      | none => .throws
      | some a => .value a

/-- Store an optional member and go on; an exception skips what comes after. -/
def Field.store {α : Type} (set : FeedbackInfo Double → α → FeedbackInfo Double)
    (next : FeedbackInfo Double → Option (FeedbackInfo Double)) (info : FeedbackInfo Double) :
    Field α → Option (FeedbackInfo Double)
  | .absent => next info
  | .value a => next (set info a)
  | .throws => some info
  | .aborts => none

def costField (args : List (String × Json)) : Field Double :=
  readField args "click_cost" env.toDouble

def slotField (args : List (String × Json)) : Field ℕ :=
  readField args "click_slot" env.toSlot

def bidstrField (args : List (String × Json)) : Field String :=
  readField args "hit_orig_bidstr" some

/-- The block of `parserFeedbackLog` that reads the details of a click. -/
def readClick (args : List (String × Json)) (info : FeedbackInfo Double) :
    Option (FeedbackInfo Double) :=
  (costField env args).store (fun info cost => { info with clickCost := cost })
    (fun info => (slotField env args).store (fun info slot => { info with clickSlot := slot })
      (fun info => (bidstrField args).store (fun info bidstr => { info with hitBidstr := bidstr })
        some info) info)
    info

def toAction (actionStr : String) : FeedbackAction :=
  if actionStr = "103" then .click else .view

/-- The part of `parserFeedbackLog` after the members have been found. -/
def parseArgs (args : List (String × Json)) (userId adId : String) (action : FeedbackAction)
    (info : FeedbackInfo Double) : Option (Bool × FeedbackInfo Double) := do
  let info := { info with userId := userId, adId := adId, action := action }
  let info ← if action = .click then readClick env args info else some info
  if userId = "" ∧ adId = "" then some (false, info)
  else if userId = "" then some (true, info)
  else match env.userProfile userId with
    | some profile => some (true, { info with userProfiles := profile })
    | none => some (false, { info with userProfiles := [] })

/-- Read one message into the record; `none` when the process dies. -/
def parserFeedbackLog (logData : String) (info : FeedbackInfo Double) :
    Option (Bool × FeedbackInfo Double) :=
  match env.parse logData with
  | none => some (false, info)
  | some (.obj logDoc) =>
    match logDoc.lookup "args" with
    | some (.obj args) =>
      match args.lookup "ad", args.lookup "uid", args.lookup "aid" with
      | some ad, some uid, some aid => do
        let userId ← uid.getString
        let adId ← aid.getString
        let actionStr ← ad.getString
        parseArgs env args userId adId (toAction actionStr) info
      | _, _, _ => some (false, info)
    | _ => some (false, info)
  | some _ => none

variable (adconfig : AdConfig)

/-- What is done with the record after a message that was accepted. -/
def messageCalls (info : FeedbackInfo Double) : List Call :=
  let features := userFeature info.userProfiles
  let isClicked := info.action = .click
  let docid := env.getDocId info.adId
  (if adconfig.enableSponsoredSearch ∧ isClicked ∧ info.adId ≠ "" then
    [.updateAuctionLogData info.adId info.hitBidstr (env.inFen info.clickCost) info.clickSlot]
  else []) ++
  if adconfig.enableSelector then
    (docid.toList.map fun docid => .predictorUpdate features (env.adFeatureList docid) isClicked) ++
    (if isClicked ∧ info.adId ≠ "" then [.updateClicked (docid.getD 0)] else []) ++
    [.updateSegments features] ++
    (if adconfig.enableRec then
      [.trainOnlineRecommender info.userId features info.adId isClicked]
    else [])
  else []

/-- The loop over the messages, from what the record holds. -/
def streamCalls : List AdMessage → FeedbackInfo Double → List Call
  | [], _ => []
  | msg :: msgList, info =>
    match parserFeedbackLog env msg.body info with
    | none => []
    | some (false, info) => streamCalls msgList info
    | some (true, info) => messageCalls env adconfig info ++ streamCalls msgList info

def onAdStreamMessage (msgList : List AdMessage) : List Call :=
  streamCalls env adconfig msgList { clickCost := env.zero }

/-- The same messages, each in a call of its own, as long as the process lives. -/
def onEachAdStreamMessage : List AdMessage → List Call
  | [] => []
  | msg :: msgList =>
    onAdStreamMessage env adconfig [msg] ++
      match parserFeedbackLog env msg.body { clickCost := env.zero } with
      | none => []
      | some _ => onEachAdStreamMessage msgList

end Parser

/-- The calls that charge a click, update the predictor or update the segments. -/
def Call.observed : Call → Bool
  | .updateAuctionLogData .. => true
  | .predictorUpdate .. => true
  | .updateSegments .. => true
  | _ => false

namespace Field

variable {α : Type}

def value? : Field α → Option α
  | .value a => some a
  | _ => none

/-- The block goes on after the member. -/
def goesOn : Field α → Bool
  | .absent => true
  | .value _ => true
  | _ => false

def aborting : Field α → Bool
  | .aborts => true
  | _ => false

end Field

/-- The fields of the record that a message sets itself. -/
structure LogEntry (Double : Type) where
  userId : String
  adId : String
  action : FeedbackAction
  clickCost : Option Double
  clickSlot : Option ℕ
  hitBidstr : Option String

/-- What a message comes to: nothing, the end of the process, or an entry. -/
inductive Reading (Double : Type)
  | ignored
  | aborted
  | entry (e : LogEntry Double)

open FeedbackInfo

section Reading

variable {Double : Type} (env : StreamEnv Double)

/-- The details of a click that the message sets: a member that cannot be converted keeps
those after it from being read. -/
def clickEntry (args : List (String × Json)) (userId adId : String) : Reading Double :=
  let cost := costField env args
  let slot := slotField env args
  let bidstr := bidstrField args
  if cost.aborting || cost.goesOn && (slot.aborting || slot.goesOn && bidstr.aborting) then .aborted
  else .entry {
    userId := userId
    adId := adId
    action := .click
    clickCost := cost.value?
    clickSlot := if cost.goesOn then slot.value? else none
    hitBidstr := if cost.goesOn && slot.goesOn then bidstr.value? else none }

def argsEntry (args : List (String × Json)) (userId adId : String) : FeedbackAction → Reading Double
  | .click => clickEntry env args userId adId
  | .view => .entry ⟨userId, adId, .view, none, none, none⟩

def readMessage (logData : String) : Reading Double :=
  match env.parse logData with
  | none => .ignored
  | some (.obj logDoc) =>
    match logDoc.lookup "args" with
    | some (.obj args) =>
      match args.lookup "ad", args.lookup "uid", args.lookup "aid" with
      | some ad, some uid, some aid =>
        match uid.getString, aid.getString, ad.getString with
        | some userId, some adId, some actionStr =>
          argsEntry env args userId adId (toAction actionStr)
        | _, _, _ => .aborted
      | _, _, _ => .ignored
    | _ => .ignored
  | some _ => .aborted

/-- The record after the entry: what it does not set stays. -/
def FeedbackInfo.apply (info : FeedbackInfo Double) (e : LogEntry Double) :
    FeedbackInfo Double where
  userId := e.userId
  adId := e.adId
  action := e.action
  clickCost := e.clickCost.getD info.clickCost
  clickSlot := e.clickSlot.getD info.clickSlot
  hitBidstr := e.hitBidstr.getD info.hitBidstr
  userProfiles :=
    if e.userId = "" then info.userProfiles else (env.userProfile e.userId).getD []

/-- The entry is accepted: it names a user or an ad, and the user has a profile. -/
def LogEntry.accepted (e : LogEntry Double) : Bool :=
  !(e.userId = "" ∧ e.adId = "") && (e.userId = "" || (env.userProfile e.userId).isSome)

/-- What `parserFeedbackLog` returns for a reading. -/
def Reading.outcome (info : FeedbackInfo Double) :
    Reading Double → Option (Bool × FeedbackInfo Double)
  | .ignored => some (false, info)
  | .aborted => none
  | .entry e => some (e.accepted env, info.apply env e)

/-- The last steps of `parserFeedbackLog`, once the entry has been stored. -/
theorem outcome_entry (info : FeedbackInfo Double) (e : LogEntry Double) :
    (if e.userId = "" ∧ e.adId = "" then
        some (false, { info.apply env e with userProfiles := info.userProfiles })
      else if e.userId = "" then
        some (true, { info.apply env e with userProfiles := info.userProfiles })
      else match env.userProfile e.userId with
        | some profile => some (true, { info.apply env e with userProfiles := profile })
        | none => some (false, { info.apply env e with userProfiles := [] })) =
      (Reading.entry e).outcome env info := by
  unfold Reading.outcome LogEntry.accepted apply
  by_cases huser : e.userId = ""
  · by_cases had : e.adId = ""
    · simp [huser, had]
    · simp [huser, had]
  · cases hprofile : env.userProfile e.userId with
    | none => simp [huser, hprofile]
    | some profile => simp [huser, hprofile]

variable (args : List (String × Json)) (userId adId : String)

/-- The block that reads a click stores what the message sets, or the process dies. -/
theorem clickEntry_cases :
    (clickEntry env args userId adId = .aborted ∧ ∀ info, readClick env args info = none) ∨
      ∃ cost slot bidstr,
        clickEntry env args userId adId = .entry ⟨userId, adId, .click, cost, slot, bidstr⟩ ∧
        ∀ info, readClick env args info = some { info with
          clickCost := cost.getD info.clickCost
          clickSlot := slot.getD info.clickSlot
          hitBidstr := bidstr.getD info.hitBidstr } := by
  unfold readClick clickEntry
  -- the three members, each absent, stored, not convertible or not a string
  cases costField env args <;> cases slotField env args <;> cases bidstrField args <;>
    first
      | exact .inl ⟨rfl, fun _ => rfl⟩
      | exact .inr ⟨_, _, _, rfl, fun _ => rfl⟩

theorem parseArgs_eq (action : FeedbackAction) (info : FeedbackInfo Double) :
    parseArgs env args userId adId action info =
      (argsEntry env args userId adId action).outcome env info := by
  unfold parseArgs argsEntry
  cases action with
  | view => exact outcome_entry env info ⟨userId, adId, .view, none, none, none⟩
  | click =>
    rw [if_pos rfl]
    obtain ⟨hentry, hread⟩ | ⟨cost, slot, bidstr, hentry, hread⟩ :=
      clickEntry_cases env args userId adId
    · rw [hentry, hread]
      rfl
    · rw [hentry, hread]
      exact outcome_entry env info ⟨userId, adId, .click, cost, slot, bidstr⟩

theorem parserFeedbackLog_eq (logData : String) (info : FeedbackInfo Double) :
    parserFeedbackLog env logData info = (readMessage env logData).outcome env info := by
  unfold parserFeedbackLog readMessage
  split
  · rfl
  · split
    · split
      · rename_i ad uid aid _ _ _
        cases uid.getString with
        | none => rfl
        | some userId =>
          cases aid.getString with
          | none => rfl
          | some adId =>
            cases ad.getString with
            | none => rfl
            | some actionStr => exact parseArgs_eq env _ userId adId (toAction actionStr) info
      · rfl
    · rfl
  · rfl

end Reading

/-- The value that the last element with one sets. -/
def lastSet {α β : Type} (f : α → Option β) (l : List α) : Option β := l.reverse.findSome? f

theorem foldl_eq_lastSet {σ α β : Type} (step : σ → α → σ) (proj : σ → β) (f : α → Option β)
    (h : ∀ s a, proj (step s a) = (f a).getD (proj s)) (l : List α) (s : σ) :
    proj (l.foldl step s) = (lastSet f l).getD (proj s) := by
  induction l using List.reverseRecOn with
  | nil => rfl
  | append_singleton l a ih =>
    unfold lastSet at ih ⊢
    rw [foldl_append, foldl_cons, foldl_nil, h, ih, reverse_concat, findSome?_cons]
    cases f a <;> rfl

open Call

section Leaks

variable {Double : Type} (env : StreamEnv Double) (adconfig : AdConfig)

def entryOf (msg : AdMessage) : Option (LogEntry Double) :=
  match readMessage env msg.body with
  | .entry e => some e
  | _ => none

/-- The profile that a message with a user id leaves in the record, accepted or not. -/
def profileOf (msg : AdMessage) : Option UserProfile :=
  (entryOf env msg).bind fun e =>
    if e.userId = "" then none else some ((env.userProfile e.userId).getD [])

/-- The entry is charged as a click. -/
def LogEntry.charged (e : LogEntry Double) : Prop :=
  adconfig.enableSponsoredSearch ∧ e.action = .click ∧ e.adId ≠ ""

/-- Whatever the entry uses but does not set, the last of the messages before it that sets
it sets to what a new record holds. -/
structure UsesOwnFields (earlier : List AdMessage) (e : LogEntry Double) : Prop where
  hitBidstr : e.charged adconfig → e.hitBidstr = none →
    ∀ bidstr, lastSet (fun msg => (entryOf env msg).bind (·.hitBidstr)) earlier = some bidstr →
      bidstr = ""
  clickCost : e.charged adconfig → e.clickCost = none →
    ∀ cost, lastSet (fun msg => (entryOf env msg).bind (·.clickCost)) earlier = some cost →
      env.inFen cost = env.inFen env.zero
  clickSlot : e.charged adconfig → e.clickSlot = none →
    ∀ slot, lastSet (fun msg => (entryOf env msg).bind (·.clickSlot)) earlier = some slot →
      slot = 0
  userProfiles : adconfig.enableSelector → e.userId = "" →
    ∀ profile, lastSet (profileOf env) earlier = some profile → userFeature profile = []

/-- Every accepted message of the batch uses its own fields only. -/
def NothingLeaks (msgList : List AdMessage) : Prop :=
  ∀ earlier msg later, earlier ++ msg :: later = msgList →
    (∀ m ∈ earlier, readMessage env m.body ≠ .aborted) →
    ∀ e, readMessage env msg.body = .entry e → e.accepted env →
      UsesOwnFields env adconfig earlier e

/-- The record after a message, whatever it comes to. -/
def afterMessage (info : FeedbackInfo Double) (msg : AdMessage) : FeedbackInfo Double :=
  match readMessage env msg.body with
  | .entry e => info.apply env e
  | _ => info

theorem userProfiles_afterMessage (info : FeedbackInfo Double) (msg : AdMessage) :
    (afterMessage env info msg).userProfiles = (profileOf env msg).getD info.userProfiles := by
  unfold afterMessage profileOf entryOf
  cases readMessage env msg.body with
  | ignored => rfl
  | aborted => rfl
  | entry e =>
    dsimp only [Option.bind, apply]
    split <;> rfl

theorem observed_messageCalls (info : FeedbackInfo Double) :
    (messageCalls env adconfig info).filter observed =
      (if adconfig.enableSponsoredSearch ∧ info.action = .click ∧ info.adId ≠ "" then
        [.updateAuctionLogData info.adId info.hitBidstr (env.inFen info.clickCost) info.clickSlot]
      else []) ++
      if adconfig.enableSelector then
        (env.getDocId info.adId).toList.map (fun docid => .predictorUpdate
          (userFeature info.userProfiles) (env.adFeatureList docid) (info.action = .click)) ++
        [.updateSegments (userFeature info.userProfiles)]
      else [] := by
  unfold messageCalls
  rw [filter_append]
  congr 1
  · split <;> rfl
  · split
    · cases env.getDocId info.adId <;> split <;> split <;> rfl
    · rfl

private theorem append_eq_append_iff_of_length {α : Type} {s s' t t' : List α}
    (h : s.length = s'.length) : s ++ t = s' ++ t' ↔ s = s' ∧ t = t' := by
  constructor
  · intro happ
    exact append_inj happ h
  · rintro ⟨rfl, rfl⟩
    rfl

variable (info info' : FeedbackInfo Double)

/-- Two records that differ in what an entry leaves alone lead to the same calls for it
exactly when they agree on what it uses. -/
theorem observed_apply_eq_iff (e : LogEntry Double) :
    (messageCalls env adconfig (info.apply env e)).filter observed =
        (messageCalls env adconfig (info'.apply env e)).filter observed ↔
      (e.charged adconfig → e.hitBidstr.getD info.hitBidstr = e.hitBidstr.getD info'.hitBidstr ∧
        env.inFen (e.clickCost.getD info.clickCost) = env.inFen (e.clickCost.getD info'.clickCost) ∧
        e.clickSlot.getD info.clickSlot = e.clickSlot.getD info'.clickSlot) ∧
      (adconfig.enableSelector → e.userId = "" →
        userFeature info.userProfiles = userFeature info'.userProfiles) := by
  rw [observed_messageCalls, observed_messageCalls]
  unfold LogEntry.charged apply
  dsimp only
  rw [append_eq_append_iff_of_length (by split <;> rfl)]
  refine and_congr ?_ ?_
  · split
    · rename_i hcharged
      simp [hcharged]
    · rename_i hcharged
      simp [hcharged]
  · by_cases hselector : adconfig.enableSelector
    · by_cases huser : e.userId = ""
      · simp only [huser, if_true, hselector, forall_true_left]
        constructor
        · intro h
          simpa using (append_inj' h rfl).2
        · intro h
          rw [h]
      · simp [huser]
    · simp [hselector]

/-- A field that the entry sets, or that the messages before it set to `v` or not at all,
reads the same as in a new record. -/
theorem getD_lastSet_iff {α β : Type} (own last : Option α) (v : α) (g : α → β) :
    g (own.getD (last.getD v)) = g (own.getD v) ↔
      (own = none → ∀ a, last = some a → g a = g v) := by
  cases own with
  | some a => simp
  | none => cases last <;> simp

/-- What an entry uses of the record it is read into is its own exactly when the messages
before it left nothing else there. -/
theorem usesOwnFields_iff (earlier : List AdMessage) (e : LogEntry Double) :
    (messageCalls env adconfig
        ((earlier.foldl (afterMessage env) { clickCost := env.zero }).apply env e)).filter
          observed =
        (messageCalls env adconfig
          (({ clickCost := env.zero } : FeedbackInfo Double).apply env e)).filter observed ↔
      UsesOwnFields env adconfig earlier e := by
  rw [observed_apply_eq_iff, foldl_eq_lastSet (afterMessage env) hitBidstr
      (fun msg => (entryOf env msg).bind (·.hitBidstr))
      (fun info msg => by unfold afterMessage entryOf; cases readMessage env msg.body <;> rfl),
    foldl_eq_lastSet (afterMessage env) clickCost
      (fun msg => (entryOf env msg).bind (·.clickCost))
      (fun info msg => by unfold afterMessage entryOf; cases readMessage env msg.body <;> rfl),
    foldl_eq_lastSet (afterMessage env) clickSlot
      (fun msg => (entryOf env msg).bind (·.clickSlot))
      (fun info msg => by unfold afterMessage entryOf; cases readMessage env msg.body <;> rfl),
    foldl_eq_lastSet (afterMessage env) userProfiles (profileOf env)
      (fun info msg => userProfiles_afterMessage env info msg)]
  constructor
  · rintro ⟨hclick, hprofile⟩
    exact ⟨fun hc => (getD_lastSet_iff e.hitBidstr _ "" id).mp (hclick hc).1,
      fun hc => (getD_lastSet_iff e.clickCost _ env.zero env.inFen).mp (hclick hc).2.1,
      fun hc => (getD_lastSet_iff e.clickSlot _ 0 id).mp (hclick hc).2.2,
      fun hs hu => (getD_lastSet_iff none _ [] userFeature).mp (hprofile hs hu) rfl⟩
  · rintro ⟨hbidstr, hcost, hslot, hprofile⟩
    refine ⟨fun hc => ⟨?_, ?_, ?_⟩, fun hs hu => ?_⟩
    · exact (getD_lastSet_iff e.hitBidstr _ "" id).mpr (hbidstr hc)
    · exact (getD_lastSet_iff e.clickCost _ env.zero env.inFen).mpr (hcost hc)
    · exact (getD_lastSet_iff e.clickSlot _ 0 id).mpr (hslot hc)
    · exact (getD_lastSet_iff none _ [] userFeature).mpr fun _ => hprofile hs hu

/-- The calls of a batch from any record, message by message. -/
theorem streamCalls_cons (msg : AdMessage) (msgList : List AdMessage) (info : FeedbackInfo Double) :
    streamCalls env adconfig (msg :: msgList) info =
      match readMessage env msg.body with
      | .ignored => streamCalls env adconfig msgList info
      | .aborted => []
      | .entry e => (if e.accepted env then messageCalls env adconfig (info.apply env e) else []) ++
          streamCalls env adconfig msgList (info.apply env e) := by
  rw [streamCalls, parserFeedbackLog_eq]
  unfold Reading.outcome
  cases readMessage env msg.body with
  | ignored => rfl
  | aborted => rfl
  | entry e =>
    dsimp only
    cases e.accepted env <;> rfl

theorem onEachAdStreamMessage_cons (msg : AdMessage) (msgList : List AdMessage) :
    onEachAdStreamMessage env adconfig (msg :: msgList) =
      match readMessage env msg.body with
      | .ignored => onEachAdStreamMessage env adconfig msgList
      | .aborted => []
      | .entry e => (if e.accepted env then messageCalls env adconfig
            (({ clickCost := env.zero } : FeedbackInfo Double).apply env e) else []) ++
          onEachAdStreamMessage env adconfig msgList := by
  rw [onEachAdStreamMessage, onAdStreamMessage, streamCalls_cons, parserFeedbackLog_eq]
  unfold Reading.outcome
  cases readMessage env msg.body with
  | ignored => rfl
  | aborted => rfl
  | entry e =>
    dsimp only [streamCalls]
    rw [append_nil]

theorem length_observed_apply (e : LogEntry Double) :
    ((messageCalls env adconfig (info.apply env e)).filter observed).length =
      ((messageCalls env adconfig (info'.apply env e)).filter observed).length := by
  rw [observed_messageCalls, observed_messageCalls]
  unfold apply
  simp only [apply_ite List.length, length_append, List.length_map, length_cons]

private theorem forall_split_cons_iff {α : Type} (P : List α → α → Prop) (a : α) (l : List α) :
    (∀ pre b post, pre ++ b :: post = a :: l → P pre b) ↔
      P [] a ∧ ∀ pre b post, pre ++ b :: post = l → P (a :: pre) b := by
  constructor
  · intro h
    exact ⟨h [] a l rfl, fun pre b post hl => h (a :: pre) b post (by rw [cons_append, hl])⟩
  · rintro ⟨hfirst, hrest⟩ pre b post hl
    cases pre with
    | nil =>
      obtain ⟨rfl, rfl⟩ := List.cons.inj hl
      exact hfirst
    | cons c pre =>
      obtain ⟨rfl, hl'⟩ := List.cons.inj hl
      exact hrest pre b post hl'

/-- The loop after some messages against the rest of the messages alone. The induction is
on the rest; the record is what the messages before it left. -/
theorem streamCalls_eq_iff (msgList : List AdMessage) : ∀ before : List AdMessage,
    (streamCalls env adconfig msgList
        (before.foldl (afterMessage env) { clickCost := env.zero })).filter observed =
        (onEachAdStreamMessage env adconfig msgList).filter observed ↔
      ∀ earlier msg later, earlier ++ msg :: later = msgList →
        (∀ m ∈ earlier, readMessage env m.body ≠ .aborted) →
        ∀ e, readMessage env msg.body = .entry e → e.accepted env →
          UsesOwnFields env adconfig (before ++ earlier) e := by
  induction msgList with
  | nil =>
    intro before
    refine iff_of_true rfl fun earlier msg later h => ?_
    simp at h
  | cons msg msgList ih =>
    intro before
    have hnext := ih (before ++ [msg])
    rw [foldl_append, foldl_cons, foldl_nil, afterMessage] at hnext
    rw [streamCalls_cons, onEachAdStreamMessage_cons, forall_split_cons_iff
      (fun (earlier : List AdMessage) (msg : AdMessage) =>
        (∀ m ∈ earlier, readMessage env m.body ≠ .aborted) →
        ∀ e, readMessage env msg.body = .entry e → e.accepted env →
          UsesOwnFields env adconfig (before ++ earlier) e)]
    simp only [append_assoc, singleton_append] at hnext
    cases hmsg : readMessage env msg.body with
    | ignored =>
      rw [hmsg] at hnext
      simp only [forall_mem_cons, hmsg, reduceCtorEq, ne_eq, not_false_eq_true, true_and,
        false_implies, implies_true]
      exact hnext
    | aborted => simp [hmsg]
    | entry e =>
      rw [hmsg] at hnext
      have hlength := length_observed_apply env adconfig
        (before.foldl (afterMessage env) { clickCost := env.zero }) { clickCost := env.zero } e
      rw [filter_append, filter_append,
        append_eq_append_iff_of_length (by split <;> [exact hlength; rfl]), hnext]
      refine and_congr ?_ ?_
      · by_cases haccepted : e.accepted env
        · rw [if_pos haccepted, if_pos haccepted, usesOwnFields_iff]
          simp [haccepted]
        · simp [haccepted]
      · simp only [forall_mem_cons, hmsg, reduceCtorEq, ne_eq, not_false_eq_true, true_and]

/-- A batch leads to the same charges, predictor updates and segment updates as its messages
one by one exactly when no message uses what an earlier one left. -/
theorem onAdStreamMessage_eq_each_iff (msgList : List AdMessage) :
    (onAdStreamMessage env adconfig msgList).filter observed =
        (onEachAdStreamMessage env adconfig msgList).filter observed ↔
      NothingLeaks env adconfig msgList :=
  streamCalls_eq_iff env adconfig msgList []

end Leaks

def firstClick : String :=
  "\x7b\"args\":\x7b\"ad\":\"103\",\"uid\":\"u1\",\"aid\":\"a1\",\"click_cost\":\"1.5\"\x7d\x7d"

def secondClick : String :=
  "\x7b\"args\":\x7b\"ad\":\"103\",\"uid\":\"u2\",\"aid\":\"a2\"\x7d\x7d"

/-- The parsers and the data platform on two clicks, of which only the first has a cost. -/
def twoClicks : StreamEnv ℚ where
  parse body :=
    if body = firstClick then
      some (.obj [("args", .obj [("ad", .str "103"), ("uid", .str "u1"), ("aid", .str "a1"),
        ("click_cost", .str "1.5")])])
    else if body = secondClick then
      some (.obj [("args", .obj [("ad", .str "103"), ("uid", .str "u2"), ("aid", .str "a2")])])
    else none
  zero := 0
  toDouble text := if text = "1.5" then some (3 / 2) else none
  toInt _ := none
  inFen cost := ⌊cost * 100⌋
  userProfile _ := some []
  getDocId _ := none
  adFeatureList _ := []

/-- The second click is charged the cost of the first. -/
theorem onAdStreamMessage_ne_each_two_clicks : (onAdStreamMessage twoClicks ⟨true, false, false⟩
        [⟨"ad_log", firstClick⟩, ⟨"ad_log", secondClick⟩]).filter observed ≠
      (onEachAdStreamMessage twoClicks ⟨true, false, false⟩
        [⟨"ad_log", firstClick⟩, ⟨"ad_log", secondClick⟩]).filter observed := by
  decide +kernel

end AdDelivery.Stream
