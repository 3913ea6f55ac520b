import AdDelivery.Core.Run
import Mathlib.Data.List.Count
import Mathlib.Data.List.GetD
import Mathlib.Data.List.Nodup
import Mathlib.Data.List.Perm.Subperm
import Mathlib.Order.Nat

/-!
# Indexing the boolean expressions of ads

`AdMiningTask` parses the `DNF` property of every document from its start id on and
adds what it finds to a copy of the index, which `postProcess` then installs. The
start id of a run is one above the number of expressions in the index, while
documents are numbered one by one. A run therefore indexes each expression once
only as long as no document without an expression comes before one with.

A string of the source is the list of its characters here.
-/

namespace AdDelivery.Mining

open List Prod

/-- One constraint on an attribute: its value is, or is not, one of `values`. -/
structure Assignment where
  belongsTo : Bool
  attr : List Char
  values : List (List Char)
deriving DecidableEq

structure Conjunction where
  assignments : List Assignment
deriving DecidableEq

structure DNF where
  conjunctions : List Conjunction
deriving DecidableEq

/-- What `std::string::substr` throws when it starts past the end. -/
inductive OutOfRange
  | substr
deriving DecidableEq

def substr (str : List Char) (pos : ℕ) : Except OutOfRange (List Char) :=
  if pos ≤ str.length then .ok (str.drop pos) else .error .substr

/-- The first position at which `pat` occurs. -/
def find (pat : List Char) : List Char → Option ℕ
  | [] => if pat = [] then some 0 else none
  | c :: str => if pat.isPrefixOf (c :: str) then some 0 else (find pat str).map (· + 1)

/-- The values between the brackets after `~`: one character is dropped at either end. -/
def parseValues (belongsTo : Bool) (token : List Char) (index skip : ℕ) :
    Except OutOfRange Assignment := do
  let ts ← substr token (index + skip)
  return ⟨belongsTo, token.take index, ts.dropLast.splitOn ','⟩

/-- One factor of the expression; `none` stands for an unknown format. -/
def parseAssignment (token : List Char) : Except OutOfRange (Option Assignment) :=
  match find ['!', '~'] token with
  | some index => some <$> parseValues false token index 3
  | none =>
    match find ['~'] token with
    | some index => some <$> parseValues true token index 2
    | none => return none

def parseAssignments : List (List Char) → Except OutOfRange (Option (List Assignment))
  | [] => return some []
  | token :: tokens => do
    let some assignment ← parseAssignment token | return none
    let some assignments ← parseAssignments tokens | return none
    return some (assignment :: assignments)

def parseDNF (str : List Char) : Except OutOfRange (Option DNF) := do
  let some assignments ← parseAssignments (str.splitOn '^') | return none
  return some ⟨[⟨assignments⟩]⟩

/-- The properties of a document that the task reads; an absent one is empty. -/
structure Document where
  dnf : List Char := []
  width : List Char := []
  height : List Char := []
  creativeType : List Char := []

/-- The index, as the expressions that were added to it with their documents. -/
structure DNFInvIndex where
  added : List (ℕ × DNF) := []

variable (index : DNFInvIndex) (doc : Document)

def DNFInvIndex.totalNumDNF : ℕ := index.added.length

def DNFInvIndex.addDNF (docID : ℕ) (dnf : DNF) : DNFInvIndex :=
  ⟨index.added ++ [(docID, dnf)]⟩

/-- The expression of a document also asks for the format of the ad. -/
def withFormat (dnf : DNF) : DNF :=
  ⟨dnf.conjunctions.modifyHead fun conjunction => ⟨conjunction.assignments ++
      [⟨true, "Width".toList, [doc.width]⟩, ⟨true, "Height".toList, [doc.height]⟩,
        ⟨true, "CreativeType".toList, [doc.creativeType]⟩]⟩⟩

/-- Index one document. The index is returned beside the result, since what was added to
it before an exception has been added. -/
def buildDocument (docID : ℕ) (doc : Document) : DNFInvIndex × Except OutOfRange Bool :=
  if doc.dnf = [] then (index, .ok true)
  else match parseDNF doc.dnf with
    | .error e => (index, .error e)
    | .ok none => (index, .ok false)
    | .ok (some dnf) => (index.addDNF docID (withFormat doc dnf), .ok true)

/-- The documents of the collection are numbered from one on. -/
def getDocument (docs : List Document) (docID : ℕ) : Document :=
  match docID with
  | 0 => {}
  | i + 1 => docs.getD i {}

/-- The loop of `buildCollection` as this task sees it. -/
def buildDocuments (docs : List Document) (startDocId : ℕ) :
    List ℕ → DNFInvIndex → DNFInvIndex × Except OutOfRange Unit
  | [], index => (index, .ok ())
  | docID :: docIDs, index =>
    if docID < startDocId then buildDocuments docs startDocId docIDs index
    else match buildDocument index docID (getDocument docs docID) with
      | (index, .error e) => (index, .error e)
      | (index, .ok _) => buildDocuments docs startDocId docIDs index

/-- The collection and its index. `passed` remembers every call of `addDNF`, also those on
copies of the index that were never installed. -/
structure Collection where
  docs : List Document := []
  adDnfIndex : DNFInvIndex := {}
  passed : List (ℕ × DNF) := []

/-- A batch of new documents and the mining run after it: `otherDocIds` are the start ids of
the other tasks of the builder, `saved` says whether the index file could be written. -/
structure MiningRun where
  batch : List Document
  otherDocIds : List ℕ
  saved : Bool

/-- One run of `buildCollection` over the task and its siblings. -/
def buildCollection (c : Collection) (otherDocIds : List ℕ) (saved : Bool) : Collection :=
  let maxDocId := c.docs.length
  let startDocId := c.adDnfIndex.totalNumDNF + 1
  if startDocId ≤ maxDocId then
    let minLastDocId := min (otherDocIds.foldl min maxDocId) startDocId
    let docIDs := List.range' minLastDocId (maxDocId + 1 - minLastDocId)
    let built := buildDocuments c.docs startDocId docIDs c.adDnfIndex
    let passed := c.passed ++ built.1.added.drop c.adDnfIndex.totalNumDNF
    match built.2 with
    | .error _ => { c with passed := passed }
    | .ok () => { c with
        passed := passed
        adDnfIndex := if saved then built.1 else c.adDnfIndex }
  else c

def Collection.mine (c : Collection) (r : MiningRun) : Collection :=
  buildCollection { c with docs := c.docs ++ r.batch } r.otherDocIds r.saved

def MiningStep (c : Collection) (r : MiningRun) (c' : Collection) : Prop := c' = c.mine r

/-- The document has an expression that the parser accepts. -/
def Document.wellFormed : Bool :=
  doc.dnf ≠ [] && match parseDNF doc.dnf with
    | .ok (some _) => true
    | _ => false

/-- The expression ends right after its `~`, so that the parser throws. -/
def Document.throws : Bool :=
  doc.dnf ≠ [] && match parseDNF doc.dnf with
    | .error _ => true
    | _ => false

/-- Every document with a well-formed expression was passed to `addDNF` exactly once. -/
def EachOnce (c : Collection) : Prop :=
  ∀ docID, (getDocument c.docs docID).wellFormed → (c.passed.map fst).count docID = 1

/-- What a run may find: of the documents above the number of indexed expressions and before
the first that throws, the old ones have no well-formed expression, and no new document with
one comes after a document there that throws. -/
structure ResumesAtNew (c : Collection) (r : MiningRun) : Prop where
  old : ∀ docID ≤ c.docs.length, c.adDnfIndex.totalNumDNF < docID →
    (getDocument c.docs docID).wellFormed →
    ∃ e, c.adDnfIndex.totalNumDNF < e ∧ e < docID ∧ (getDocument c.docs e).throws
  new : ∀ docID, c.docs.length < docID →
    (getDocument (c.docs ++ r.batch) docID).wellFormed →
    ∀ e, c.adDnfIndex.totalNumDNF < e → e < docID → ¬(getDocument (c.docs ++ r.batch) e).throws

theorem buildDocument_cases (docID : ℕ) (doc : Document) : (doc.wellFormed ∧ ¬doc.throws ∧
        ∃ dnf, buildDocument index docID doc = (index.addDNF docID dnf, .ok true)) ∨
      (¬doc.wellFormed ∧ doc.throws ∧ ∃ e, buildDocument index docID doc = (index, .error e)) ∨
      (¬doc.wellFormed ∧ ¬doc.throws ∧ ∃ b, buildDocument index docID doc = (index, .ok b)) := by
  unfold Document.wellFormed Document.throws buildDocument
  by_cases hdnf : doc.dnf = []
  · simp [hdnf]
  · rcases hparse : parseDNF doc.dnf with e | _ | dnf
    · simpa [hdnf] using ⟨e⟩
    · simp [hdnf]
    · simp [hdnf]

/-- A loop that starts at the document `first` comes to the document and adds its
expression. -/
def Reached (docs : List Document) (startDocId first docID : ℕ) : Prop :=
  first ≤ docID ∧ startDocId ≤ docID ∧ (getDocument docs docID).wellFormed ∧
    ∀ e, first ≤ e → startDocId ≤ e → e < docID → ¬(getDocument docs e).throws

theorem reached_iff_succ (docs : List Document) (startDocId first docID : ℕ) :
    Reached docs startDocId first docID ↔
      (docID = first ∧ startDocId ≤ first ∧ (getDocument docs first).wellFormed) ∨
        (Reached docs startDocId (first + 1) docID ∧
          (startDocId ≤ first → ¬(getDocument docs first).throws)) := by
  constructor
  · rintro ⟨hfirst, hstart, hwf, hno⟩
    rcases eq_or_lt_of_le hfirst with rfl | hlt
    · exact .inl ⟨rfl, hstart, hwf⟩
    · refine .inr ⟨⟨hlt, hstart, hwf, fun e hfe hse he => ?_⟩, fun hs => ?_⟩
      · exact hno e (by omega) hse he
      · exact hno first le_rfl hs hlt
  · rintro (⟨rfl, hstart, hwf⟩ | ⟨⟨hfirst, hstart, hwf, hno⟩, hok⟩)
    · exact ⟨le_rfl, hstart, hwf, fun e hfe _ he => by omega⟩
    · refine ⟨by omega, hstart, hwf, fun e hfe hse he => ?_⟩
      rcases eq_or_lt_of_le hfe with rfl | hlt
      · exact hok hse
      · exact hno e hlt hse he

/-- The loop adds the documents it reaches, each once. The induction is on the number of
documents left; a document that throws ends it. -/
theorem buildDocuments_spec (docs : List Document) (startDocId k : ℕ) :
    ∀ (first : ℕ) (index : DNFInvIndex),
      ∃ new, (buildDocuments docs startDocId (List.range' first k) index).1.added =
          index.added ++ new ∧ (new.map fst).Nodup ∧ ∀ docID, docID ∈ new.map fst ↔
          docID < first + k ∧ Reached docs startDocId first docID := by
  induction k with
  | zero =>
    intro first index
    refine ⟨[], (append_nil _).symm, nodup_nil, fun docID => ?_⟩
    simp only [map_nil, not_mem_nil, false_iff]
    rintro ⟨hlt, hfirst, -⟩
    omega
  | succ k ih =>
    intro first index
    rw [range'_succ]
    unfold buildDocuments
    have hlast : first + (k + 1) = first + 1 + k := by omega
    simp only [hlast, reached_iff_succ docs startDocId first]
    by_cases hstart : first < startDocId
    · obtain ⟨new, hadded, hnodup, hmem⟩ := ih (first + 1) index
      rw [if_pos hstart]
      refine ⟨new, hadded, hnodup, fun docID => (hmem docID).trans ?_⟩
      simp [hstart.not_ge]
    rw [if_neg hstart]
    rw [not_lt] at hstart
    obtain ⟨hwf, hok, dnf, hbuild⟩ | ⟨hwf, hthrows, err, hbuild⟩ | ⟨hwf, hok, b, hbuild⟩ :=
      buildDocument_cases index first (getDocument docs first)
    · obtain ⟨new, hadded, hnodup, hmem⟩ := ih (first + 1) (index.addDNF first dnf)
      rw [hbuild]
      refine ⟨(first, dnf) :: new, ?_, ?_, ?_⟩
      · rw [hadded, DNFInvIndex.addDNF, append_assoc, singleton_append]
      · rw [map_cons, nodup_cons]
        refine ⟨fun hin => ?_, hnodup⟩
        have hle := ((hmem first).mp hin).2.1
        omega
      · intro docID
        rw [map_cons, mem_cons, hmem]
        have hpassing : startDocId ≤ first → ¬(getDocument docs first).throws := fun _ => hok
        rw [and_iff_left (show startDocId ≤ first ∧ _ from ⟨hstart, hwf⟩), and_iff_left hpassing]
        constructor
        · rintro (rfl | ⟨hlt, hreached⟩)
          · exact ⟨by omega, .inl rfl⟩
          · exact ⟨hlt, .inr hreached⟩
        · rintro ⟨hlt, rfl | hreached⟩
          · exact .inl rfl
          · exact .inr ⟨hlt, hreached⟩
    · rw [hbuild]
      refine ⟨[], (append_nil _).symm, nodup_nil, fun docID => ?_⟩
      simp [hstart, hwf, hthrows]
    · obtain ⟨new, hadded, hnodup, hmem⟩ := ih (first + 1) index
      rw [hbuild]
      refine ⟨new, hadded, hnodup, fun docID => (hmem docID).trans ?_⟩
      simp [hwf, hok]

variable {docs : List Document} {docID : ℕ}

theorem getDocument_of_lt (h : docs.length < docID) : getDocument docs docID = {} := by
  obtain ⟨i, rfl⟩ : ∃ i, docID = i + 1 := ⟨docID - 1, by omega⟩
  exact getD_eq_default _ _ (by omega)

theorem wellFormed_pos_le (h : (getDocument docs docID).wellFormed) :
    1 ≤ docID ∧ docID ≤ docs.length := by
  constructor
  · by_contra hzero
    obtain rfl : docID = 0 := by omega
    exact Bool.false_ne_true h
  · by_contra hle
    rw [getDocument_of_lt (by omega)] at h
    exact Bool.false_ne_true h

theorem getDocument_append (h : docID ≤ docs.length) (batch : List Document) :
    getDocument (docs ++ batch) docID = getDocument docs docID := by
  cases docID with
  | zero => rfl
  | succ i => exact getD_append _ _ _ _ (by omega)

variable (c : Collection)

/-- What a mining run adds to the calls made, and to the index if it is installed. The other
tasks only make the loop start earlier. -/
theorem buildCollection_spec (otherDocIds : List ℕ) (saved : Bool) :
    ∃ new, (buildCollection c otherDocIds saved).docs = c.docs ∧
      (buildCollection c otherDocIds saved).passed = c.passed ++ new ∧
      ((buildCollection c otherDocIds saved).adDnfIndex = c.adDnfIndex ∨
        (buildCollection c otherDocIds saved).adDnfIndex.added = c.adDnfIndex.added ++ new) ∧
      (new.map fst).Nodup ∧ ∀ docID, docID ∈ new.map fst ↔
        Reached c.docs (c.adDnfIndex.totalNumDNF + 1) 0 docID := by
  unfold buildCollection
  dsimp only
  by_cases hstart : c.adDnfIndex.totalNumDNF + 1 ≤ c.docs.length
  · rw [if_pos hstart]
    generalize hfirst : min (otherDocIds.foldl min c.docs.length)
      (c.adDnfIndex.totalNumDNF + 1) = first
    obtain ⟨new, hadded, hnodup, hmem⟩ := buildDocuments_spec c.docs
      (c.adDnfIndex.totalNumDNF + 1) (c.docs.length + 1 - first) first c.adDnfIndex
    have hnew : ∀ docID, docID ∈ new.map fst ↔
        Reached c.docs (c.adDnfIndex.totalNumDNF + 1) 0 docID := by
      intro docID
      rw [hmem]
      constructor
      · rintro ⟨-, hf, hs, hwf, hno⟩
        exact ⟨Nat.zero_le _, hs, hwf, fun e _ hse he => hno e (by omega) hse he⟩
      · rintro ⟨-, hs, hwf, hno⟩
        have hmax := (wellFormed_pos_le hwf).2
        exact ⟨by omega, by omega, hs, hwf, fun e _ hse he => hno e (Nat.zero_le _) hse he⟩
    rw [hadded, DNFInvIndex.totalNumDNF, drop_left]
    refine ⟨new, ?_⟩
    split
    · exact ⟨rfl, rfl, .inl rfl, hnodup, hnew⟩
    · refine ⟨rfl, rfl, ?_, hnodup, hnew⟩
      cases saved with
      | false => exact .inl rfl
      | true => exact .inr hadded
  · rw [if_neg hstart]
    refine ⟨[], rfl, (append_nil _).symm, .inl rfl, nodup_nil, fun docID => ?_⟩
    simp only [map_nil, not_mem_nil, false_iff]
    rintro ⟨-, hs, hwf, -⟩
    have hmax := (wellFormed_pos_le hwf).2
    omega

/-- What holds after every run, whatever the runs before it found. -/
structure Tracked (c : Collection) : Prop where
  wellFormed : ∀ docID ∈ c.passed.map fst, (getDocument c.docs docID).wellFormed
  indexed : c.adDnfIndex.added.Sublist c.passed

theorem Tracked.mine {c : Collection} (h : Tracked c) (r : MiningRun) : Tracked (c.mine r) := by
  obtain ⟨new, hdocs, hpassed, hindex, -, hmem⟩ :=
    buildCollection_spec { c with docs := c.docs ++ r.batch } r.otherDocIds r.saved
  refine ⟨fun docID hin => ?_, ?_⟩
  · unfold Collection.mine at hin ⊢
    rw [hpassed, map_append, mem_append] at hin
    rw [hdocs]
    rcases hin with hin | hin
    · have hwf := h.wellFormed docID hin
      rw [getDocument_append (wellFormed_pos_le hwf).2]
      exact hwf
    · exact ((hmem docID).mp hin).2.2.1
  · unfold Collection.mine
    rw [hpassed]
    rcases hindex with hindex | hindex
    · rw [hindex]
      exact h.indexed.trans (sublist_append_left _ _)
    · rw [hindex]
      exact h.indexed.append (Sublist.refl new)

theorem tracked_step (r : MiningRun) (c' : Collection) (h : Tracked c) (hstep : MiningStep c r c') :
    Tracked c' := by
  subst hstep
  exact h.mine r

/-- As long as no document was passed twice, there are no more indexed expressions than
documents. -/
theorem Tracked.totalNumDNF_le {c : Collection} (h : Tracked c) (honce : EachOnce c) :
    c.adDnfIndex.totalNumDNF ≤ c.docs.length := by
  have hnodup : (c.passed.map fst).Nodup := by
    rw [nodup_iff_count_le_one]
    intro docID
    by_cases hin : docID ∈ c.passed.map fst
    · exact (honce docID (h.wellFormed docID hin)).le
    · rw [count_eq_zero_of_not_mem hin]
      omega
  have hsubset : c.passed.map fst ⊆ List.range' 1 c.docs.length := by
    intro docID hin
    have hbound := wellFormed_pos_le (h.wellFormed docID hin)
    rw [mem_range'_1]
    omega
  calc c.adDnfIndex.totalNumDNF ≤ c.passed.length := h.indexed.length_le
    _ = (c.passed.map fst).length := (List.length_map _).symm
    _ ≤ (List.range' 1 c.docs.length).length := (hnodup.subperm hsubset).length_le
    _ = c.docs.length := length_range'

/-- Each expression is indexed once after a run exactly when the run passed the new
well-formed documents and no old one. -/
theorem eachOnce_mine_iff {c : Collection} (h : Tracked c) (honce : EachOnce c) (r : MiningRun)
    {new : List (ℕ × DNF)} (hdocs : (c.mine r).docs = c.docs ++ r.batch)
    (hpassed : (c.mine r).passed = c.passed ++ new) (hnodup : (new.map fst).Nodup) :
    EachOnce (c.mine r) ↔ ∀ docID, (getDocument (c.docs ++ r.batch) docID).wellFormed →
      (docID ∈ new.map fst ↔ c.docs.length < docID) := by
  have hnot : ∀ docID, c.docs.length < docID → (c.passed.map fst).count docID = 0 := by
    intro docID hlt
    refine count_eq_zero_of_not_mem fun hin => ?_
    have hle := (wellFormed_pos_le (h.wellFormed docID hin)).2
    omega
  unfold EachOnce
  rw [hdocs]
  refine forall_congr' fun docID => imp_congr_right fun hwf => ?_
  rw [hpassed, map_append, count_append]
  rcases le_or_gt docID c.docs.length with hle | hlt
  · rw [getDocument_append hle] at hwf
    rw [honce docID hwf, ← count_pos_iff]
    omega
  · rw [hnot docID hlt, ← count_pos_iff]
    have hone := nodup_iff_count_le_one.mp hnodup docID
    omega

/-- A run keeps each expression indexed once exactly when it resumes at the new documents. -/
theorem eachOnce_step_iff (r : MiningRun) (c' : Collection) (h : Tracked c) (honce : EachOnce c)
    (hstep : MiningStep c r c') : EachOnce c' ↔ ResumesAtNew c r := by
  subst hstep
  obtain ⟨new, hdocs, hpassed, -, hnodup, hmem⟩ :=
    buildCollection_spec { c with docs := c.docs ++ r.batch } r.otherDocIds r.saved
  dsimp only at hmem
  have hold : ∀ docID ≤ c.docs.length,
      getDocument (c.docs ++ r.batch) docID = getDocument c.docs docID :=
    fun docID hle => getDocument_append hle r.batch
  rw [eachOnce_mine_iff h honce r hdocs hpassed hnodup]
  have htotal := h.totalNumDNF_le honce
  constructor
  · intro hiff
    refine ⟨fun docID hle hlt hwf => ?_, fun docID hlt hwf e hte he => ?_⟩
    · have hwf' := hold docID hle ▸ hwf
      by_contra hno
      push Not at hno
      have hin : docID ∈ new.map fst := by
        refine (hmem docID).mpr ⟨Nat.zero_le _, hlt, hwf', fun e _ hte he => ?_⟩
        rw [hold e (by omega)]
        exact hno e hte he
      have := (hiff docID hwf').mp hin
      omega
    · exact ((hmem docID).mp ((hiff docID hwf).mpr hlt)).2.2.2 e (Nat.zero_le _) hte he
  · intro hresume docID hwf
    rw [hmem]
    constructor
    · rintro ⟨-, hs, -, hno⟩
      by_contra hle
      rw [not_lt] at hle
      obtain ⟨e, hte, he, hthrows⟩ := hresume.old docID hle hs (hold docID hle ▸ hwf)
      exact hno e (Nat.zero_le _) hte he (by rw [hold e (by omega)]; exact hthrows)
    · intro hlt
      exact ⟨Nat.zero_le _, by omega, hwf, fun e _ hte he => hresume.new docID hlt hwf e hte he⟩

/-- Over any sequence of batches with a mining run after each, every well-formed expression
is passed to the index exactly once after every run if and only if every run resumes at the
new documents. -/
theorem eachOnce_along_iff (runs : List MiningRun) :
    HoldsAlong MiningStep EachOnce {} runs ↔ StepsMeet MiningStep ResumesAtNew {} runs := by
  have hempty : ∀ docID, ¬(getDocument ({} : Collection).docs docID).wellFormed := by
    intro docID hwf
    have := wellFormed_pos_le hwf
    simp at this
    omega
  have htracked : Tracked {} := ⟨nofun, Sublist.refl _⟩
  exact holdsAlong_iff_stepsMeet tracked_step eachOnce_step_iff htracked
    (fun docID hwf => absurd hwf (hempty docID)) runs

/-- A document without an expression before one with it: the next run adds the second
document again. -/
theorem not_eachOnce_after_plain_document :
    ∃ c, Run MiningStep {} [⟨[{}, { dnf := "Age~{20}".toList }], [], true⟩, ⟨[{}], [], true⟩] c ∧
      ¬EachOnce c := by
  refine ⟨_, .cons rfl (.cons rfl (.nil _)), fun honce => ?_⟩
  exact absurd (honce 2 (by decide)) (by decide)

end AdDelivery.Mining
