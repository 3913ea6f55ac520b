import AdDelivery.Core.Run
import AdDelivery.Recommender.AdRecommender
import Mathlib.Algebra.Order.Field.Basic
import Mathlib.Tactic.NormNum

/-!
# The norm of the latent vectors

Feedback trains copies of some vectors and collects the largest absolute coordinate it meets on the
way. If that is above the limit, all vectors are scaled down by it. So along a run of feedback no
coordinate of any vector ever exceeds the limit.
-/

namespace AdDelivery.Recommender

open List
open AdRecommender

def latentVecDim : ℕ := 10

/-- A new vector: each coordinate is `random() % 10`. -/
def drawnVec (draw : Fin latentVecDim → Fin 10) : LatentVec :=
  List.ofFn fun j => ((draw j : ℕ) : ℚ)

/-- The calls of a run. Feedback may find any learning rate and ratio. -/
inductive TrainingCall
  | updateAdFeatures (adDocid : String) (features : List String)
  | update (learningRate ratio : ℚ) (newUserDraw newAdDraw : String → Fin latentVecDim → Fin 10)
      (userInfo : List (String × String)) (adDocid : String) (isClicked : Bool)

def AdRecommender.training (s : AdRecommender) : TrainingCall → AdRecommender
  | .updateAdFeatures adDocid features => s.updateAdFeatures adDocid features
  | .update learningRate ratio newUserDraw newAdDraw userInfo adDocid isClicked =>
    AdRecommender.update { s with learningRate, ratio } (fun key => drawnVec (newUserDraw key))
      (fun key => drawnVec (newAdDraw key)) userInfo adDocid isClicked

def TrainingStep (s : AdRecommender) (c : TrainingCall) (s' : AdRecommender) : Prop :=
  s' = s.training c

/-- No coordinate of the vector exceeds the bound. -/
def Bounded (b : ℚ) (vec : LatentVec) : Prop := ∀ x ∈ vec, |x| ≤ b

def VecsBounded (b : ℚ) (vecs : Table String LatentVec) : Prop :=
  ∀ key vec, vecs.lookup key = some vec → Bounded b vec

/-- No coordinate of any vector exceeds the limit. -/
structure NormOk (s : AdRecommender) : Prop where
  users : VecsBounded maxNorm s.userFeatureLatentVecList
  ads : VecsBounded maxNorm s.adLatentVecList

variable {vec : LatentVec}

theorem Bounded.mono {b b' : ℚ} (h : Bounded b vec) (hle : b ≤ b') : Bounded b' vec :=
  fun x hx => (h x hx).trans hle

theorem bounded_drawnVec (draw : Fin latentVecDim → Fin 10) : Bounded maxNorm (drawnVec draw) := by
  intro x hx
  obtain ⟨j, rfl⟩ := mem_ofFn.mp hx
  have hlt : ((draw j : ℕ) : ℚ) < 10 := by exact_mod_cast (draw j).isLt
  rw [abs_of_nonneg (Nat.cast_nonneg _)]
  exact hlt.le.trans (by norm_num [maxNorm])

theorem Bounded.scale {b c : ℚ} (h : Bounded b vec) (hc : 0 ≤ c) :
    Bounded (b * c) (vec.map (· * c)) := by
  intro x hx
  obtain ⟨y, hy, rfl⟩ := mem_map.mp hx
  rw [abs_mul, abs_of_nonneg hc]
  exact mul_le_mul_of_nonneg_right (h y hy) hc

/-- The largest of the values and all that were met before. -/
theorem le_foldl_max (vec : LatentVec) (norm : ℚ) :
    norm ≤ vec.foldl (fun norm x => max norm |x|) norm ∧
      Bounded (vec.foldl (fun norm x => max norm |x|) norm) vec := by
  induction vec generalizing norm with
  | nil => exact ⟨le_rfl, forall_mem_nil _⟩
  | cons y vec ih =>
    obtain ⟨hle, hbounded⟩ := ih (max norm |y|)
    refine ⟨(le_max_left _ _).trans hle, fun x hx => ?_⟩
    rcases mem_cons.mp hx with rfl | hx
    · exact (le_max_right _ _).trans hle
    · exact hbounded x hx

theorem bounded_foldl_norm (vecs : List LatentVec) (norm : ℚ) :
    norm ≤ vecs.foldl (fun norm vec => vec.foldl (fun norm x => max norm |x|) norm) norm ∧
      ∀ vec ∈ vecs,
        Bounded (vecs.foldl (fun norm vec => vec.foldl (fun norm x => max norm |x|) norm) norm)
          vec := by
  induction vecs generalizing norm with
  | nil => exact ⟨le_rfl, forall_mem_nil _⟩
  | cons v vecs ih =>
    obtain ⟨hle, hbounded⟩ := le_foldl_max v norm
    obtain ⟨hle', hbounded'⟩ := ih (v.foldl (fun norm x => max norm |x|) norm)
    refine ⟨hle.trans hle', fun vec hvec => ?_⟩
    rcases mem_cons.mp hvec with rfl | hvec
    · exact hbounded.mono hle'
    · exact hbounded' vec hvec

theorem bounded_normOf {vecs : List LatentVec} (hvec : vec ∈ vecs) : Bounded (normOf vecs) vec :=
  (bounded_foldl_norm vecs 0).2 vec hvec

/-- The norm collected bounds every vector that was trained; without an ad no user is. -/
theorem trainAds_bounded (gradient : ℚ) (ads users : List LatentVec) (norm : ℚ) :
    let r := trainAds gradient ads users norm
    norm ≤ r.2.2 ∧ (∀ ad ∈ r.1, Bounded r.2.2 ad) ∧
      ∀ user ∈ r.2.1, Bounded r.2.2 user ∨ user ∈ users := by
  induction ads generalizing users norm with
  | nil => exact ⟨le_rfl, forall_mem_nil _, fun user huser => .inr huser⟩
  | cons ad ads ih =>
    rw [trainAds]
    obtain ⟨ad', users'⟩ := trainAd gradient ad users
    obtain ⟨hnorm, hads, husers⟩ := ih users' (max norm (normOf (ad' :: users')))
    have hmet : ∀ vec ∈ ad' :: users',
        Bounded (trainAds gradient ads users' (max norm (normOf (ad' :: users')))).2.2 vec :=
      fun vec hvec => (bounded_normOf hvec).mono ((le_max_right _ _).trans hnorm)
    refine ⟨(le_max_left _ _).trans hnorm, ?_, fun user huser => .inl ?_⟩
    · rw [forall_mem_cons]
      exact ⟨hmet ad' mem_cons_self, hads⟩
    · rcases husers user huser with hbounded | hmem
      · exact hbounded
      · exact hmet user (mem_cons_of_mem _ hmem)

variable {vecs : Table String LatentVec}

theorem VecsBounded.insert {b : ℚ} (h : VecsBounded b vecs) (key : String) (hvec : Bounded b vec) :
    VecsBounded b (Finmap.insert key vec vecs) := by
  intro key' vec' hlookup
  rw [Table.lookup_insert_eq] at hlookup
  split at hlookup
  · obtain rfl := Option.some.inj hlookup
    exact hvec
  · exact h key' vec' hlookup

theorem VecsBounded.get {b : ℚ} (h : VecsBounded b vecs) (key : String) :
    Bounded b (Table.get vecs key) := by
  rw [Table.get]
  cases hlookup : vecs.lookup key with
  | none => exact forall_mem_nil _
  | some vec => exact h key vec hlookup

theorem VecsBounded.insertAll {b : ℚ} (h : VecsBounded b vecs)
    {entries : List (String × LatentVec)} (hentries : ∀ entry ∈ entries, Bounded b entry.2) :
    VecsBounded b (entries.foldl (fun vecs entry => Finmap.insert entry.1 entry.2 vecs) vecs) := by
  induction entries generalizing vecs with
  | nil => exact h
  | cons entry entries ih =>
    rw [forall_mem_cons] at hentries
    exact ih (h.insert entry.1 hentries.1) hentries.2

/-- One round of the scaling loop: the keys still to come have the large bound. -/
theorem scaleAll_bounded {b c : ℚ} (hc : 0 ≤ c) (keys : List String) (hnodup : keys.Nodup)
    (vecs : Table String LatentVec) (h : ∀ key vec, vecs.lookup key = some vec →
      if key ∈ keys then Bounded b vec else Bounded (b * c) vec) :
    VecsBounded (b * c) (keys.foldl (fun vecs key =>
      Table.update vecs key fun vec => vec.map (· * c)) vecs) := by
  induction keys generalizing vecs with
  | nil =>
    intro key vec hlookup
    have hbounded := h key vec hlookup
    rwa [if_neg not_mem_nil] at hbounded
  | cons k keys ih =>
    obtain ⟨hk, hnodup⟩ := nodup_cons.mp hnodup
    refine ih hnodup _ fun key vec hlookup => ?_
    beta_reduce at hlookup
    rw [Table.update, Table.lookup_insert_eq] at hlookup
    split at hlookup
    · rename_i heq
      subst heq
      obtain rfl := Option.some.inj hlookup
      rw [if_neg hk]
      refine Bounded.scale ?_ hc
      rw [Table.get]
      cases hold : vecs.lookup key with
      | none => exact forall_mem_nil _
      | some old =>
        have hbounded := h key old hold
        rwa [if_pos mem_cons_self] at hbounded
    · rename_i hne
      have hbounded := h key vec hlookup
      by_cases hmem : key ∈ keys
      · rw [if_pos hmem]
        rwa [if_pos (mem_cons_of_mem k hmem)] at hbounded
      · rw [if_neg hmem]
        rwa [if_neg (not_mem_cons_of_ne_of_not_mem hne hmem)] at hbounded

theorem writeBack_bounded {keys : List String} {new : List LatentVec} {norm : ℚ}
    (hold : VecsBounded maxNorm vecs) (hnew : ∀ vec ∈ new, Bounded (max maxNorm norm) vec) :
    VecsBounded maxNorm (writeBack vecs keys new norm) := by
  have hwritten : VecsBounded (max maxNorm norm)
      ((keys.zip new).foldl (fun vecs entry => Finmap.insert entry.1 entry.2 vecs) vecs) := by
    refine VecsBounded.insertAll (fun key vec hlookup => ?_) fun entry hentry => ?_
    · exact (hold key vec hlookup).mono (le_max_left _ _)
    · exact hnew entry.2 (of_mem_zip hentry).2
  unfold writeBack
  extract_lets written
  split
  · rename_i hlt
    have hpos : 0 < norm := lt_trans (by norm_num [maxNorm]) hlt
    have hscale : norm * (maxNorm / norm) = maxNorm := mul_div_cancel₀ maxNorm hpos.ne'
    rw [max_eq_right hlt.le] at hwritten
    have hall := scaleAll_bounded (b := norm) (c := maxNorm / norm)
      (div_nonneg (by norm_num [maxNorm]) hpos.le) _ (Finset.sort_nodup written.keys (· ≤ ·))
      written (fun key vec hlookup => by
        have hmem : key ∈ written.keys.sort (· ≤ ·) := by
          rw [Finset.mem_sort, Finmap.mem_keys, ← Finmap.lookup_isSome, hlookup]
          rfl
        rw [if_pos hmem]
        exact hwritten key vec hlookup)
    rwa [hscale] at hall
  · rename_i hle
    rwa [max_eq_left (not_lt.mp hle)] at hwritten

section Update

variable {s : AdRecommender} {entries : List (String × LatentVec)}

/-- No training without vectors: the keys touched first have vectors within the limit. -/
theorem normOk_touchUserKeys (isClicked : Bool)
    (hentries : ∀ entry ∈ entries, Bounded maxNorm entry.2) (h : NormOk s) :
    NormOk (touchUserKeys isClicked entries s).1 := by
  induction entries generalizing s with
  | nil => exact h
  | cons entry entries ih =>
    obtain ⟨key, newVec⟩ := entry
    rw [forall_mem_cons] at hentries
    rw [touchUserKeys]
    cases hlookup : s.userFeatureLatentVecList.lookup key with
    | some vec => exact ih hentries.2 h
    | none => exact ih hentries.2 ⟨h.users.insert key hentries.1, h.ads⟩

theorem normOk_viewAdKey (key : String) {newVec : LatentVec} (hnew : Bounded maxNorm newVec)
    (h : NormOk s) : NormOk (s.viewAdKey key newVec).1 := by
  have hinsert : VecsBounded maxNorm (Finmap.insert key newVec s.adLatentVecList) :=
    h.ads.insert key hnew
  unfold viewAdKey
  dsimp only
  cases s.adLatentVecList.lookup key with
  | some vec =>
    split
    · exact ⟨h.users, h.ads⟩
    · exact ⟨h.users, h.ads⟩
  | none =>
    split
    · exact ⟨h.users, hinsert⟩
    · exact ⟨h.users, hinsert⟩

theorem normOk_viewAdKeys (hentries : ∀ entry ∈ entries, Bounded maxNorm entry.2) (h : NormOk s) :
    NormOk (viewAdKeys entries s).1 := by
  induction entries generalizing s with
  | nil => exact h
  | cons entry entries ih =>
    obtain ⟨key, newVec⟩ := entry
    rw [forall_mem_cons] at hentries
    have hstep := normOk_viewAdKey key hentries.1 h
    rw [viewAdKeys]
    rcases hview : s.viewAdKey key newVec with ⟨s', _ | _⟩
    · rwa [hview] at hstep
    · rw [hview] at hstep
      exact ih hentries.2 hstep

theorem normOk_train (userKeys adKeys : List String) (isClicked : Bool) (h : NormOk s) :
    NormOk (s.train userKeys adKeys isClicked) := by
  have huser : ∀ vec ∈ userKeys.map (Table.get s.userFeatureLatentVecList),
      Bounded maxNorm vec := by
    rw [forall_mem_map]
    exact fun key _ => h.users.get key
  obtain ⟨-, hads, husers⟩ := trainAds_bounded
    (if isClicked then s.learningRate else s.ratio * s.learningRate)
    (adKeys.map (Table.get s.adLatentVecList))
    (userKeys.map (Table.get s.userFeatureLatentVecList)) 0
  unfold train
  refine ⟨writeBack_bounded h.users fun vec hvec => ?_, writeBack_bounded h.ads fun vec hvec => ?_⟩
  · rcases husers vec hvec with hbounded | hmem
    · exact hbounded.mono (le_max_right _ _)
    · exact (huser vec hmem).mono (le_max_left _ _)
  · exact (hads vec hvec).mono (le_max_right _ _)

theorem normOk_countImpression (isClicked : Bool) (h : NormOk s) :
    NormOk (s.countImpression isClicked) := by
  unfold countImpression
  dsimp only
  split
  · exact ⟨h.users, h.ads⟩
  · exact ⟨h.users, h.ads⟩

theorem normOk_update {newUserVec newAdVec : String → LatentVec}
    (hnewUser : ∀ key, Bounded maxNorm (newUserVec key))
    (hnewAd : ∀ key, Bounded maxNorm (newAdVec key)) (userInfo : List (String × String))
    (adDocid : String) (isClicked : Bool) (h : NormOk s) :
    NormOk (s.update newUserVec newAdVec userInfo adDocid isClicked) := by
  have huserEntries : ∀ entry ∈ (userInfo.map fun feature => feature.1 ++ feature.2).map
      fun key => (key, newUserVec key), Bounded maxNorm entry.2 := by
    rw [forall_mem_map]
    exact fun key _ => hnewUser key
  have htouch := normOk_touchUserKeys isClicked huserEntries (normOk_countImpression isClicked h)
  unfold update
  rcases htouched : touchUserKeys isClicked ((userInfo.map fun feature =>
    feature.1 ++ feature.2).map fun key => (key, newUserVec key)) (s.countImpression isClicked)
    with ⟨s', userKeys⟩
  rw [htouched] at htouch
  have hadEntries : ∀ entry ∈ (s'.getAdLatentVecKeys adDocid).map fun key => (key, newAdVec key),
      Bounded maxNorm entry.2 := by
    rw [forall_mem_map]
    exact fun key _ => hnewAd key
  have hview := normOk_viewAdKeys hadEntries htouch
  dsimp only
  rw [htouched]
  rcases hviewed : viewAdKeys
    ((s'.getAdLatentVecKeys adDocid).map fun key => (key, newAdVec key)) s' with ⟨s'', _ | _⟩
  · rwa [hviewed] at hview
  · rw [hviewed] at hview
    exact normOk_train _ _ _ hview

/-- Describing an ad touches no vector. -/
theorem normOk_registerFeatures (adDocid : String) (features : List String) (h : NormOk s) :
    NormOk (registerFeatures adDocid features s) := by
  induction features generalizing s with
  | nil => exact h
  | cons featureStr features ih =>
    have hstep : NormOk (s.registerFeature featureStr).1 := by
      unfold registerFeature
      split
      · exact h
      · dsimp only
        split
        · exact ⟨h.users, h.ads⟩
        · exact ⟨h.users, h.ads⟩
    rw [registerFeatures]
    rcases hregister : s.registerFeature featureStr with ⟨s', _ | id⟩
    · rwa [hregister] at hstep
    · rw [hregister] at hstep
      exact ih ⟨hstep.users, hstep.ads⟩

theorem normOk_updateAdFeatures (adDocid : String) (features : List String) (h : NormOk s) :
    NormOk (s.updateAdFeatures adDocid features) :=
  normOk_registerFeatures adDocid _ ⟨h.users, h.ads⟩

theorem normOk_training (c : TrainingCall) (h : NormOk s) : NormOk (s.training c) := by
  cases c with
  | updateAdFeatures adDocid features => exact normOk_updateAdFeatures adDocid features h
  | update learningRate ratio newUserDraw newAdDraw userInfo adDocid isClicked =>
    exact normOk_update (fun key => bounded_drawnVec _) (fun key => bounded_drawnVec _) userInfo
      adDocid isClicked ⟨h.users, h.ads⟩

end Update

/-- In every state that feedback reaches from a recommender without vectors, no coordinate of any
vector exceeds the limit. -/
theorem normOk_of_run {s s' : AdRecommender} {calls : List TrainingCall}
    (husers : s.userFeatureLatentVecList = ∅) (hads : s.adLatentVecList = ∅)
    (hrun : Run TrainingStep s calls s') : NormOk s' := by
  have hempty : VecsBounded maxNorm ∅ := by
    intro key vec hlookup
    exact absurd hlookup.symm (Option.some_ne_none vec)
  refine hrun.invariant ?_ ⟨husers ▸ hempty, hads ▸ hempty⟩
  rintro s c _ h rfl
  exact normOk_training c h

theorem normOk_oneClick :
    NormOk (((AdRecommender.init true).training (.updateAdFeatures "ad" ["sport"])).training
      (.update 50 0 (fun _ _ => 9) (fun _ _ => 9) [("age", "20")] "ad" true)) :=
  normOk_of_run (s := AdRecommender.init true) rfl rfl (.cons rfl (.cons rfl (.nil _)))

end AdDelivery.Recommender
