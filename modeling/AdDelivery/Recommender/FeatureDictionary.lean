import AdDelivery.Core.Run
import AdDelivery.Recommender.AdRecommender

/-!
# The feature dictionary of the recommender

Registration keeps the two containers of the feature dictionary inverse to each
other. Feedback looks ids up with the inserting subscript: where ads are not
described by features it does so with the ad's own id, and an ad that was never
registered then gets the id of somebody else. So the dictionary stays right along
a run exactly when no such feedback occurs in it.
-/

namespace AdDelivery.Recommender

open List Table AdRecommender Dictionary

/-- The calls of a run. -/
inductive RecommenderCall
  | updateAdFeatures (adDocid : String) (features : List String)
  | update (newUserVec newAdVec : String → LatentVec) (userInfo : List (String × String))
      (adDocid : String) (isClicked : Bool)

variable (s : AdRecommender)

def AdRecommender.call : RecommenderCall → AdRecommender
  | .updateAdFeatures adDocid features => s.updateAdFeatures adDocid features
  | .update newUserVec newAdVec userInfo adDocid isClicked =>
    s.update newUserVec newAdVec userInfo adDocid isClicked

def RecommenderStep (c : RecommenderCall) (s' : AdRecommender) : Prop :=
  s' = s.call c

/-- The feature list has no duplicates, and the id map is its inverse. -/
def FeatureDictionaryOk : Prop :=
  s.features.idValueList.Nodup ∧ s.features.Inverse

/-- Feedback comes only for ads described by features, or for registered ones. -/
def FeedbackOk : RecommenderCall → Prop
  | .updateAdFeatures _ _ => True
  | .update _ _ _ adDocid _ => s.useAdFeature = true ∨ adDocid ∈ s.features.idValueList

/-- The bits that a call clears are those of the features it views. -/
def ClearsOnlyViewed (c : RecommenderCall) (s' : AdRecommender) : Prop :=
  ∀ id ∈ s.unviewedItems, id ∉ s'.unviewedItems →
    match c with
    | .updateAdFeatures _ _ => False
    | .update _ _ _ adDocid _ =>
      ∃ key ∈ s.getAdLatentVecKeys adDocid, s.features.idValueList[id]? = some key

section Register

variable {s : AdRecommender}

/-- Every feature id filed under an ad has been given out. -/
def IdsInRange (s : AdRecommender) : Prop :=
  ∀ adDocid, ∀ id ∈ get s.adFeaturesMap adDocid, id < s.features.idValueList.length

/-- Registering a feature interns it, files nothing yet, and only sets bits. -/
theorem registerFeature_spec (s : AdRecommender) (featureStr : String) :
    (s.registerFeature featureStr).1.features = (s.features.intern featureStr).2 ∧
      (s.registerFeature featureStr).1.adFeaturesMap = s.adFeaturesMap ∧
      (s.registerFeature featureStr).1.useAdFeature = s.useAdFeature ∧
      s.unviewedItems ⊆ (s.registerFeature featureStr).1.unviewedItems ∧
      ∀ id, (s.registerFeature featureStr).2 = some id → id = (s.features.intern featureStr).1 := by
  unfold registerFeature intern
  cases h : s.features.valueIdList.lookup featureStr with
  | some id => exact ⟨rfl, rfl, rfl, Finset.Subset.refl _, fun i hi => (Option.some.inj hi).symm⟩
  | none =>
    dsimp only
    split
    · exact ⟨rfl, rfl, rfl, Finset.subset_insert _ _, fun i hi => (Option.some.inj hi).symm⟩
    · refine ⟨rfl, rfl, rfl, Finset.Subset.refl _, ?_⟩
      intro i hi
      cases hi

variable (adDocid : String) (features : List String)

theorem useAdFeature_registerFeatures (s : AdRecommender) :
    (registerFeatures adDocid features s).useAdFeature = s.useAdFeature := by
  induction features generalizing s with
  | nil => rfl
  | cons featureStr rest ih =>
    have huse := (registerFeature_spec s featureStr).2.2.1
    unfold registerFeatures
    split
    · rename_i t hreg
      rw [hreg] at huse
      exact huse
    · rename_i t id hreg
      rw [hreg] at huse
      exact (ih _).trans huse

/-- What registering a list of features keeps. -/
theorem registerFeatures_spec (hinv : s.features.Inverse) :
    (registerFeatures adDocid features s).features.Inverse ∧
      (IdsInRange s → IdsInRange (registerFeatures adDocid features s)) ∧
      s.unviewedItems ⊆ (registerFeatures adDocid features s).unviewedItems := by
  induction features generalizing s with
  | nil => exact ⟨hinv, id, Finset.Subset.refl _⟩
  | cons featureStr rest ih =>
    obtain ⟨hfeatures, hmap, -, hbits, hid⟩ := registerFeature_spec s featureStr
    have hinv' := hinv.intern featureStr
    have hkept : IdsInRange s → ∀ ad, ∀ i ∈ get s.adFeaturesMap ad,
        i < (s.features.intern featureStr).2.idValueList.length := fun hids ad i hmem =>
      Nat.lt_of_lt_of_le (hids ad i hmem) (s.features.extends_intern featureStr).length_le
    unfold registerFeatures
    split
    · rename_i t hreg
      rw [hreg] at hfeatures hmap hbits
      rw [← hfeatures] at hinv' hkept
      rw [← hmap] at hkept
      exact ⟨hinv', hkept, hbits⟩
    · rename_i t i hreg
      rw [hreg] at hfeatures hmap hbits hid
      have hnew : i < t.features.idValueList.length := by
        rw [hfeatures, hid i rfl]
        exact hinv.intern_lt_length featureStr
      rw [← hfeatures] at hinv' hkept
      rw [← hmap] at hkept
      obtain ⟨hinv'', hids'', hbits''⟩ := @ih
        { t with adFeaturesMap := Table.update t.adFeaturesMap adDocid (insert i) } hinv'
      refine ⟨hinv'', fun hids => hids'' ?_, Finset.Subset.trans hbits hbits''⟩
      intro ad j hmem
      rw [Table.get_update] at hmem
      split at hmem
      · rcases Finset.mem_insert.mp hmem with rfl | hmem
        · exact hnew
        · exact hkept hids ad j hmem
      · exact hkept hids ad j hmem

/-- Giving an ad its features keeps the dictionary and clears no bit. -/
theorem updateAdFeatures_spec (hinv : s.features.Inverse) :
    (s.updateAdFeatures adDocid features).features.Inverse ∧
      (IdsInRange s → IdsInRange (s.updateAdFeatures adDocid features)) ∧
      s.unviewedItems ⊆ (s.updateAdFeatures adDocid features).unviewedItems := by
  obtain ⟨h₁, h₂, h₃⟩ := @registerFeatures_spec
    { s with adFeaturesMap := Finmap.insert adDocid ∅ s.adFeaturesMap } adDocid
    (if !s.useAdFeature || features.isEmpty then features ++ [adDocid] else features) hinv
  refine ⟨h₁, fun hids => h₂ ?_, h₃⟩
  intro ad id hmem
  rw [Table.get, Table.lookup_insert_eq] at hmem
  split at hmem
  · exact absurd hmem (Finset.notMem_empty id)
  · exact hids ad id hmem

end Register

/-- The parts of the state that the dictionary results read. -/
structure SameFeatures (s s' : AdRecommender) : Prop where
  features : s'.features = s.features
  adFeaturesMap : s'.adFeaturesMap = s.adFeaturesMap
  useAdFeature : s'.useAdFeature = s.useAdFeature
  unviewedItems : s'.unviewedItems = s.unviewedItems

section Feedback

variable {s : AdRecommender}

theorem SameFeatures.refl (s : AdRecommender) : SameFeatures s s := ⟨rfl, rfl, rfl, rfl⟩

theorem SameFeatures.trans {s₁ s₂ s₃ : AdRecommender} (h : SameFeatures s₁ s₂)
    (h' : SameFeatures s₂ s₃) : SameFeatures s₁ s₃ where
  features := h'.features.trans h.features
  adFeaturesMap := h'.adFeaturesMap.trans h.adFeaturesMap
  useAdFeature := h'.useAdFeature.trans h.useAdFeature
  unviewedItems := h'.unviewedItems.trans h.unviewedItems

theorem sameFeatures_countImpression (s : AdRecommender) (isClicked : Bool) :
    SameFeatures s (s.countImpression isClicked) := by
  unfold countImpression
  dsimp only
  split <;> exact ⟨rfl, rfl, rfl, rfl⟩

theorem sameFeatures_touchUserKeys (isClicked : Bool) (keys : List (String × LatentVec))
    (s : AdRecommender) : SameFeatures s (touchUserKeys isClicked keys s).1 := by
  induction keys generalizing s with
  | nil => exact .refl s
  | cons entry rest ih =>
    obtain ⟨key, newVec⟩ := entry
    unfold touchUserKeys
    split
    · exact ih s
    · have hinsert : SameFeatures s { s with
          userFeatureLatentVecList := Finmap.insert key newVec s.userFeatureLatentVecList } :=
        ⟨rfl, rfl, rfl, rfl⟩
      exact hinsert.trans (ih _)

/-- Feedback touches the features only where it views the keys of the ad. -/
theorem update_sameFeatures (s : AdRecommender) (newUserVec newAdVec : String → LatentVec)
    (userInfo : List (String × String)) (adDocid : String) (isClicked : Bool) :
    ∃ t, SameFeatures s t ∧ SameFeatures
      (viewAdKeys ((t.getAdLatentVecKeys adDocid).map fun key => (key, newAdVec key)) t).1
      (s.update newUserVec newAdVec userInfo adDocid isClicked) := by
  have htouch := (sameFeatures_countImpression s isClicked).trans
    (sameFeatures_touchUserKeys isClicked
      ((userInfo.map fun feature => feature.1 ++ feature.2).map fun key => (key, newUserVec key))
      (s.countImpression isClicked))
  refine ⟨_, htouch, ?_⟩
  unfold AdRecommender.update
  dsimp only
  split
  · rename_i t hview
    rw [hview]
    exact .refl t
  · rename_i t hview
    rw [hview]
    exact ⟨rfl, rfl, rfl, rfl⟩

theorem getAdLatentVecKeys_congr {t : AdRecommender} (h : SameFeatures s t) (adDocid : String) :
    t.getAdLatentVecKeys adDocid = s.getAdLatentVecKeys adDocid := by
  unfold getAdLatentVecKeys
  rw [h.useAdFeature, h.adFeaturesMap, h.features]

/-- Reading a registered key through the inserting subscript changes no entry. -/
theorem lookup_subscript {m : Table String Nat} {key : String} {id : Nat}
    (h : m.lookup key = some id) (k : String) :
    (Table.update m key fun id => id).lookup k = m.lookup k := by
  rw [Table.update, Table.lookup_insert_eq, Table.get]
  split
  · rename_i hk
    rw [hk, h]
    rfl
  · rfl

/-- Viewing one key leaves its entry in the id map and clears at most its bit. -/
theorem viewAdKey_spec (s : AdRecommender) (key : String) (newVec : LatentVec) :
    (s.viewAdKey key newVec).1.features = { s.features with
          valueIdList := update s.features.valueIdList key fun id => id } ∧
      (s.viewAdKey key newVec).1.adFeaturesMap = s.adFeaturesMap ∧
      (s.viewAdKey key newVec).1.useAdFeature = s.useAdFeature ∧
      ∀ id ∈ s.unviewedItems, id ≠ get s.features.valueIdList key →
        id ∈ (s.viewAdKey key newVec).1.unviewedItems := by
  unfold viewAdKey
  dsimp only
  split
  · exact ⟨rfl, rfl, rfl, fun id hid hne => Finset.mem_erase.mpr ⟨hne, hid⟩⟩
  · exact ⟨rfl, rfl, rfl, fun id hid _ => hid⟩

variable (keys : List (String × LatentVec))

theorem useAdFeature_viewAdKeys (s : AdRecommender) :
    (viewAdKeys keys s).1.useAdFeature = s.useAdFeature := by
  induction keys generalizing s with
  | nil => rfl
  | cons entry rest ih =>
    obtain ⟨key, newVec⟩ := entry
    have huse := (viewAdKey_spec s key newVec).2.2.1
    unfold viewAdKeys
    split
    · rename_i t hview
      rw [hview] at huse
      exact huse
    · rename_i t hview
      rw [hview] at huse
      exact (ih t).trans huse

/-- Viewing registered keys keeps the dictionary and clears bits of these keys only. -/
theorem viewAdKeys_spec (hinv : s.features.Inverse)
    (hkeys : ∀ entry ∈ keys, entry.1 ∈ s.features.idValueList) :
    (viewAdKeys keys s).1.features.Inverse ∧
      (viewAdKeys keys s).1.features.idValueList = s.features.idValueList ∧
      (viewAdKeys keys s).1.adFeaturesMap = s.adFeaturesMap ∧
      ∀ id ∈ s.unviewedItems, id ∉ (viewAdKeys keys s).1.unviewedItems →
        ∃ entry ∈ keys, s.features.idValueList[id]? = some entry.1 := by
  induction keys generalizing s with
  | nil => exact ⟨hinv, rfl, rfl, fun id hid hnot => absurd hid hnot⟩
  | cons entry rest ih =>
    obtain ⟨key, newVec⟩ := entry
    obtain ⟨i, hi⟩ := mem_iff_getElem?.mp (hkeys (key, newVec) mem_cons_self)
    have hlookup : s.features.valueIdList.lookup key = some i := (hinv key i).mpr hi
    have hget : Table.get s.features.valueIdList key = i := by
      rw [Table.get, hlookup, Option.getD_some]
    obtain ⟨hfeatures, hmap, -, hbits⟩ := viewAdKey_spec s key newVec
    rw [hget] at hbits
    have hlist : (s.viewAdKey key newVec).1.features.idValueList = s.features.idValueList := by
      rw [hfeatures]
    have hinv' : (s.viewAdKey key newVec).1.features.Inverse := by
      rw [hfeatures]
      intro a j
      rw [lookup_subscript hlookup]
      exact hinv a j
    unfold viewAdKeys
    split
    · rename_i t hview
      rw [hview] at hinv' hmap hbits hlist
      refine ⟨hinv', hlist, hmap, ?_⟩
      intro id hid hnot
      by_cases hne : id = i
      · exact ⟨(key, newVec), mem_cons_self, by rw [hne]; exact hi⟩
      · exact absurd (hbits id hid hne) hnot
    · rename_i t hview
      rw [hview] at hinv' hmap hbits hlist
      obtain ⟨h₁, h₂, h₃, h₄⟩ := ih hinv' (by
        intro e he
        rw [hlist]
        exact hkeys e (mem_cons_of_mem _ he))
      refine ⟨h₁, h₂.trans hlist, h₃.trans hmap, ?_⟩
      intro id hid hnot
      by_cases hne : id = i
      · exact ⟨(key, newVec), mem_cons_self, by rw [hne]; exact hi⟩
      · obtain ⟨e, he, hval⟩ := h₄ id (hbits id hid hne) hnot
        rw [hlist] at hval
        exact ⟨e, mem_cons_of_mem _ he, hval⟩

variable {adDocid : String}

/-- The keys of an ad are registered, if the ad is described by features or registered. -/
theorem keys_registered (hids : s.useAdFeature = true → IdsInRange s)
    (h : s.useAdFeature = true ∨ adDocid ∈ s.features.idValueList) :
    ∀ key ∈ s.getAdLatentVecKeys adDocid, key ∈ s.features.idValueList := by
  intro key hkey
  unfold getAdLatentVecKeys at hkey
  split at hkey
  · rename_i huse
    rw [mem_singleton.mp hkey]
    rcases h with h | h
    · rw [h] at huse
      cases huse
    · exact h
  · rename_i huse
    have huse : s.useAdFeature = true := by simpa using huse
    obtain ⟨id, hid, rfl⟩ := mem_map.mp hkey
    have hlt := hids huse adDocid id ((Finset.mem_sort _).mp hid)
    rw [getD_eq_getElem?_getD, getElem?_eq_getElem hlt]
    exact getElem_mem hlt

/-- Feedback on a registered ad keeps the dictionary, and clears only what it views. -/
theorem update_spec (hinv : s.features.Inverse) (hids : s.useAdFeature = true → IdsInRange s)
    (newUserVec newAdVec : String → LatentVec) (userInfo : List (String × String))
    (isClicked : Bool) (h : s.useAdFeature = true ∨ adDocid ∈ s.features.idValueList) :
    let s' := s.update newUserVec newAdVec userInfo adDocid isClicked
    s'.features.Inverse ∧ s'.features.idValueList = s.features.idValueList ∧
      s'.adFeaturesMap = s.adFeaturesMap ∧
      ∀ id ∈ s.unviewedItems, id ∉ s'.unviewedItems →
        ∃ key ∈ s.getAdLatentVecKeys adDocid, s.features.idValueList[id]? = some key := by
  intro s'
  obtain ⟨t, hst, hview⟩ := update_sameFeatures s newUserVec newAdVec userInfo adDocid isClicked
  have hkeys := keys_registered hids h
  obtain ⟨h₁, h₂, h₃, h₄⟩ := @viewAdKeys_spec t
    ((t.getAdLatentVecKeys adDocid).map fun key => (key, newAdVec key))
    (by rw [hst.features]; exact hinv) (by
      intro entry hentry
      obtain ⟨key, hkey, rfl⟩ := mem_map.mp hentry
      rw [getAdLatentVecKeys_congr hst] at hkey
      rw [hst.features]
      exact hkeys key hkey)
  refine ⟨?_, ?_, ?_, ?_⟩
  · rw [hview.features]
    exact h₁
  · rw [hview.features, h₂, hst.features]
  · rw [hview.adFeaturesMap, h₃, hst.adFeaturesMap]
  · intro id hid hnot
    rw [hview.unviewedItems] at hnot
    obtain ⟨entry, hentry, hval⟩ := h₄ id (by rw [hst.unviewedItems]; exact hid) hnot
    obtain ⟨key, hkey, rfl⟩ := mem_map.mp hentry
    rw [getAdLatentVecKeys_congr hst] at hkey
    rw [hst.features] at hval
    exact ⟨key, hkey, hval⟩

/-- Feedback on an ad that is not described by features and not registered breaks the
dictionary: the subscript gives it the id zero. -/
theorem not_inverse_update (hinv : s.features.Inverse) (newUserVec newAdVec : String → LatentVec)
    (userInfo : List (String × String)) (isClicked : Bool) (huse : s.useAdFeature = false)
    (hnew : adDocid ∉ s.features.idValueList) :
    ¬ (s.update newUserVec newAdVec userInfo adDocid isClicked).features.Inverse := by
  obtain ⟨t, hst, hview⟩ := update_sameFeatures s newUserVec newAdVec userInfo adDocid isClicked
  have hlookup : s.features.valueIdList.lookup adDocid = none := by
    cases h : s.features.valueIdList.lookup adDocid with
    | none => rfl
    | some id => exact absurd (mem_of_getElem? ((hinv adDocid id).mp h)) hnew
  have hkeys : t.getAdLatentVecKeys adDocid = [adDocid] := by
    rw [getAdLatentVecKeys_congr hst, getAdLatentVecKeys, huse]
    rfl
  have hfeatures : (viewAdKeys
      ((t.getAdLatentVecKeys adDocid).map fun key => (key, newAdVec key)) t).1.features =
      { s.features with
        valueIdList := update s.features.valueIdList adDocid fun id => id } := by
    have hone := (viewAdKey_spec t adDocid (newAdVec adDocid)).1
    rw [hkeys, ← hst.features, ← hone, map_singleton]
    unfold viewAdKeys
    split
    · rename_i u hview
      rw [hview]
    · rename_i u hview
      rw [hview]
      rfl
  intro hbad
  rw [hview.features, hfeatures] at hbad
  have hzero : (update s.features.valueIdList adDocid fun id => id).lookup adDocid =
      some 0 := by
    rw [Table.update, Table.lookup_insert_eq, if_pos rfl, Table.get, hlookup]
    rfl
  exact hnew (mem_of_getElem? ((hbad adDocid 0).mp hzero))

end Feedback

/-- What holds in every state: where ads are described by features, the dictionary is
right and the filed ids are in range. -/
def FeaturesSound (s : AdRecommender) : Prop :=
  s.useAdFeature = true → s.features.Inverse ∧ IdsInRange s

variable (s : AdRecommender) (c : RecommenderCall)

theorem useAdFeature_call : (s.call c).useAdFeature = s.useAdFeature := by
  cases c with
  | updateAdFeatures adDocid features => exact useAdFeature_registerFeatures _ _ _
  | update newUserVec newAdVec userInfo adDocid isClicked =>
    obtain ⟨t, hst, hview⟩ := update_sameFeatures s newUserVec newAdVec userInfo adDocid isClicked
    exact hview.useAdFeature.trans ((useAdFeature_viewAdKeys _ t).trans hst.useAdFeature)

theorem featuresSound_step (s' : AdRecommender) (h : FeaturesSound s)
    (hstep : RecommenderStep s c s') : FeaturesSound s' := by
  subst hstep
  intro huse
  rw [useAdFeature_call] at huse
  obtain ⟨hinv, hids⟩ := h huse
  cases c with
  | updateAdFeatures adDocid features =>
    obtain ⟨hinv', hids', -⟩ := updateAdFeatures_spec adDocid features hinv
    exact ⟨hinv', hids' hids⟩
  | update newUserVec newAdVec userInfo adDocid isClicked =>
    obtain ⟨hinv', hlist, hmap, -⟩ := update_spec hinv (fun _ => hids) newUserVec newAdVec userInfo
      isClicked (.inl huse : s.useAdFeature = true ∨ adDocid ∈ s.features.idValueList)
    refine ⟨hinv', ?_⟩
    intro ad id hmem
    change id ∈ get (s.update newUserVec newAdVec userInfo adDocid isClicked).adFeaturesMap
      ad at hmem
    rw [hmap] at hmem
    exact Nat.lt_of_lt_of_eq (hids ad id hmem) (congrArg List.length hlist).symm

theorem featureDictionaryOk_iff : FeatureDictionaryOk s ↔ s.features.Inverse :=
  ⟨fun h => h.2, fun h => ⟨h.nodup, h⟩⟩

/-- One call keeps the dictionary right exactly when its feedback is on a registered ad. -/
theorem featureDictionaryOk_step_iff (s' : AdRecommender) (hsound : FeaturesSound s)
    (hok : FeatureDictionaryOk s) (hstep : RecommenderStep s c s') :
    FeatureDictionaryOk s' ↔ FeedbackOk s c := by
  subst hstep
  rw [featureDictionaryOk_iff]
  cases c with
  | updateAdFeatures adDocid features =>
    exact iff_of_true (updateAdFeatures_spec adDocid features hok.2).1 trivial
  | update newUserVec newAdVec userInfo adDocid isClicked =>
    constructor
    · intro hinv
      by_contra hnot
      rw [FeedbackOk, not_or] at hnot
      exact not_inverse_update hok.2 newUserVec newAdVec userInfo isClicked
        (by simpa using hnot.1) hnot.2 hinv
    · intro hfeedback
      exact (update_spec hok.2 (fun huse => (hsound huse).2) newUserVec newAdVec userInfo isClicked
        hfeedback).1

/-- A call in order clears only the bits of what it views. -/
theorem clearsOnlyViewed_of_ok {s : AdRecommender} (hsound : FeaturesSound s)
    (hok : FeatureDictionaryOk s) (hfeedback : FeedbackOk s c) :
    ClearsOnlyViewed s c (s.call c) := by
  intro id hid hnot
  cases c with
  | updateAdFeatures adDocid features =>
    exact hnot ((updateAdFeatures_spec adDocid features hok.2).2.2 hid)
  | update newUserVec newAdVec userInfo adDocid isClicked =>
    exact (update_spec hok.2 (fun huse => (hsound huse).2) newUserVec newAdVec userInfo isClicked
      hfeedback).2.2.2 id hid hnot

theorem featuresSound_init (useAdFeature : Bool) :
    FeaturesSound (.init useAdFeature) ∧ FeatureDictionaryOk (.init useAdFeature) := by
  refine ⟨fun _ => ⟨inverse_empty, ?_⟩, nodup_nil, inverse_empty⟩
  intro ad id hmem
  change id ∈ get ∅ ad at hmem
  exact absurd hmem (Finset.notMem_empty id)

/-- Along every run from the empty recommender the feature dictionary is right in all
states reached if and only if every feedback is on an ad described by features or
registered; and then every feedback clears only the bits of what it views. -/
theorem featureDictionary_along_iff (useAdFeature : Bool) (calls : List RecommenderCall) :
    (HoldsAlong RecommenderStep FeatureDictionaryOk (.init useAdFeature) calls ↔
      StepsMeet RecommenderStep FeedbackOk (.init useAdFeature) calls) ∧
    (StepsMeet RecommenderStep FeedbackOk (.init useAdFeature) calls →
      ∀ before c after s s', before ++ c :: after = calls →
        Run RecommenderStep (.init useAdFeature) before s → RecommenderStep s c s' →
        ClearsOnlyViewed s c s') := by
  obtain ⟨hsound, hok⟩ := featuresSound_init useAdFeature
  have hiff := holdsAlong_iff_stepsMeet featuresSound_step featureDictionaryOk_step_iff hsound hok
    calls
  refine ⟨hiff, ?_⟩
  intro hmeet before c after s s' hcalls hrun hstep
  have hs : FeatureDictionaryOk s := hiff.mpr hmeet before (c :: after) s hcalls hrun
  have hfeedback := hmeet before c after s s' hcalls hrun hstep
  rw [hstep]
  exact clearsOnlyViewed_of_ok c (hrun.invariant featuresSound_step hsound) hs hfeedback

/-- Where ads are not described by features, feedback on an ad that was never registered
gives it the id of the registered one and clears that one's bit. -/
theorem not_featureDictionaryOk_unregistered :
    let s := (init false).updateAdFeatures "1" []
    let s' := s.update (fun _ => []) (fun _ => []) [] "2" true
    Run RecommenderStep (.init false)
      [.updateAdFeatures "1" [], .update (fun _ => []) (fun _ => []) [] "2" true] s' ∧
      ¬ FeatureDictionaryOk s' ∧ 0 ∈ s.unviewedItems ∧ 0 ∉ s'.unviewedItems ∧
      s.features.idValueList = ["1"] := by
  intro s s'
  have hs : FeatureDictionaryOk s :=
    (featureDictionaryOk_iff s).mpr
      (updateAdFeatures_spec "1" [] inverse_empty).1
  refine ⟨.cons rfl (.cons rfl (.nil _)), ?_, by decide +kernel, by decide +kernel,
    by decide +kernel⟩
  rw [featureDictionaryOk_iff]
  exact not_inverse_update hs.2 _ _ [] true (by decide +kernel) (by decide +kernel)

end AdDelivery.Recommender
