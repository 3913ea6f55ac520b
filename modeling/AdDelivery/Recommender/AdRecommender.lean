import AdDelivery.Core.Dictionary
import Mathlib.Algebra.Order.Ring.Unbundled.Rat
import Mathlib.Algebra.Ring.Rat
import Mathlib.Data.Finset.Sort

/-!
# The ad recommender

`AdRecommender` learns a latent vector for every user feature and for every ad
feature. The ad features are kept in a two-way dictionary; one bit per feature
says whether it was never shown. Feedback on an ad looks the ids of its features
up with the inserting subscript, clears their bits and moves the vectors.
-/

namespace AdDelivery.Recommender

/-- The size of the bit set of unviewed items. -/
def maxAdItems : Nat := 1024 * 1024

def maxNorm : ℚ := 100

def smooth : ℚ := 2 / 100

abbrev LatentVec := List ℚ

structure AdRecommender where
  useAdFeature : Bool := true
  clickedNum : Nat := 1
  impressionNum : Nat := 1000
  ratio : ℚ := -1 / 999
  learningRate : ℚ := 1
  adLatentVecList : Table String LatentVec := ∅
  userFeatureLatentVecList : Table String LatentVec := ∅
  /-- `ad_feature_value_list_` and `ad_feature_value_id_list_`. -/
  features : Dictionary String := {}
  adFeaturesMap : Table String (Finset Nat) := ∅
  /-- The set bits of `unviewed_items_`. -/
  unviewedItems : Finset Nat := ∅

namespace AdRecommender

/-- A recommender without saved data. -/
def init (useAdFeature : Bool) : AdRecommender := { useAdFeature }

variable (s : AdRecommender)

/-- The id of a feature. A new feature is registered first; its bit lies outside the
bit set from `maxAdItems` on, and setting it then throws. -/
def registerFeature (featureStr : String) : AdRecommender × Option Nat :=
  match s.features.valueIdList.lookup featureStr with
  | some id => (s, some id)
  | none =>
    let (id, features) := s.features.intern featureStr
    if id < maxAdItems then
      ({ s with features, unviewedItems := insert id s.unviewedItems }, some id)
    else ({ s with features }, none)

/-- Register features one by one and collect their ids for the ad, until one throws. -/
def registerFeatures (adDocid : String) : List String → AdRecommender → AdRecommender
  | [], s => s
  | featureStr :: rest, s =>
    match s.registerFeature featureStr with
    | (s, none) => s
    | (s, some id) =>
      registerFeatures adDocid rest
        { s with adFeaturesMap := Table.update s.adFeaturesMap adDocid (insert id) }

/-- Give an ad its features; an ad that has none, or that is not described by features,
is its own feature. -/
def updateAdFeatures (adDocid : String) (features : List String) : AdRecommender :=
  let expandFeatures := if !s.useAdFeature || features.isEmpty then features ++ [adDocid]
    else features
  registerFeatures adDocid expandFeatures
    { s with adFeaturesMap := Finmap.insert adDocid ∅ s.adFeaturesMap }

/-- The keys of an ad's latent vectors: the ad itself, or its features in the order of
their ids. -/
def getAdLatentVecKeys (adDocid : String) : List String :=
  if !s.useAdFeature then [adDocid]
  else ((Table.get s.adFeaturesMap adDocid).sort (· ≤ ·)).map fun id =>
    s.features.idValueList.getD id ""

/-- Count one impression; every 50000 of them the rates are adjusted. -/
def countImpression (isClicked : Bool) : AdRecommender :=
  let s := { s with
    impressionNum := s.impressionNum + 1
    clickedNum := if isClicked then s.clickedNum + 1 else s.clickedNum }
  if s.impressionNum % 50000 = 0 then
    { s with
      learningRate := 1 / s.clickedNum
      ratio := -1 * smooth * s.clickedNum / ((s.impressionNum : ℚ) - s.clickedNum) +
        (1 - smooth) * s.ratio }
  else s

/-- Make sure every user key has a vector, and list the keys that will be trained: a key
that is new takes part only in a click. -/
def touchUserKeys (isClicked : Bool) :
    List (String × LatentVec) → AdRecommender → AdRecommender × List String
  | [], s => (s, [])
  | (key, newVec) :: rest, s =>
    match s.userFeatureLatentVecList.lookup key with
    | some _ =>
      let (s, keys) := touchUserKeys isClicked rest s
      (s, key :: keys)
    | none =>
      let s := { s with
        userFeatureLatentVecList := Finmap.insert key newVec s.userFeatureLatentVecList }
      let (s, keys) := touchUserKeys isClicked rest s
      (s, if isClicked then key :: keys else keys)

/-- Make sure an ad key has a vector, and clear its bit. The id comes from the inserting
subscript; the bit set throws for an id it does not hold. -/
def viewAdKey (key : String) (newVec : LatentVec) : AdRecommender × Bool :=
  let adLatentVecList := match s.adLatentVecList.lookup key with
    | some _ => s.adLatentVecList
    | none => Finmap.insert key newVec s.adLatentVecList
  let id := Table.get s.features.valueIdList key
  let features := { s.features with
    valueIdList := Table.update s.features.valueIdList key fun id => id }
  let s := { s with adLatentVecList, features }
  if id < maxAdItems then ({ s with unviewedItems := s.unviewedItems.erase id }, true)
  else (s, false)

/-- View the keys of an ad one by one, until one throws. -/
def viewAdKeys : List (String × LatentVec) → AdRecommender → AdRecommender × Bool
  | [], s => (s, true)
  | (key, newVec) :: rest, s =>
    match s.viewAdKey key newVec with
    | (s, false) => (s, false)
    | (s, true) => viewAdKeys rest s

/-- The mean of the users' vectors at one coordinate, one when there are no users. -/
def combinedUserLatent (users : List LatentVec) (k : Nat) : ℚ :=
  if users.isEmpty then 1 else (users.map fun user => user.getD k 0).sum / users.length

/-- Move one ad vector and all user vectors, coordinate by coordinate: the ad along the
users' mean, then each user along the moved ad. -/
def trainAd (gradient : ℚ) (ad : LatentVec) (users : List LatentVec) : LatentVec × List LatentVec :=
  let ad := ad.zipIdx.map fun entry => entry.1 + gradient * combinedUserLatent users entry.2
  (ad, users.map fun user => List.zipWith (fun x y => x + gradient * y) user ad)

/-- The largest absolute coordinate. -/
def normOf (vecs : List LatentVec) : ℚ :=
  vecs.foldl (fun norm vec => vec.foldl (fun norm x => max norm |x|) norm) 0

/-- Train the ad vectors one after another, and keep the largest norm met. -/
def trainAds (gradient : ℚ) :
    List LatentVec → List LatentVec → ℚ → List LatentVec × List LatentVec × ℚ
  | [], users, norm => ([], users, norm)
  | ad :: ads, users, norm =>
    let (ad, users) := trainAd gradient ad users
    let (ads, users, norm) := trainAds gradient ads users (max norm (normOf (ad :: users)))
    (ad :: ads, users, norm)

/-- Write vectors back to their keys, then scale the whole container if the norm is too large. -/
def writeBack (vecs : Table String LatentVec) (keys : List String) (new : List LatentVec)
    (norm : ℚ) : Table String LatentVec :=
  let written := (keys.zip new).foldl (fun vecs entry => Finmap.insert entry.1 entry.2 vecs) vecs
  if maxNorm < norm then
    (written.keys.sort (· ≤ ·)).foldl (fun vecs key =>
      Table.update vecs key fun vec => vec.map (· * (maxNorm / norm))) written
  else written

/-- Train the vectors of the listed keys on one feedback. -/
def train (userKeys adKeys : List String) (isClicked : Bool) : AdRecommender :=
  let gradient := if isClicked then s.learningRate else s.ratio * s.learningRate
  let users := userKeys.map (Table.get s.userFeatureLatentVecList)
  let ads := adKeys.map (Table.get s.adLatentVecList)
  let (ads, users, norm) := trainAds gradient ads users 0
  { s with
    userFeatureLatentVecList := writeBack s.userFeatureLatentVecList userKeys users norm
    adLatentVecList := writeBack s.adLatentVecList adKeys ads norm }

/-- Learn from one feedback. The two functions draw the random vectors of new keys. -/
def update (newUserVec newAdVec : String → LatentVec)
    (userInfo : List (String × String)) (adDocid : String) (isClicked : Bool) : AdRecommender :=
  let s := s.countImpression isClicked
  let userKeys := userInfo.map fun feature => feature.1 ++ feature.2
  let (s, userKeys) := touchUserKeys isClicked (userKeys.map fun key => (key, newUserVec key)) s
  let adKeys := s.getAdLatentVecKeys adDocid
  match viewAdKeys (adKeys.map fun key => (key, newAdVec key)) s with
  | (s, false) => s
  | (s, true) => s.train userKeys adKeys isClicked

end AdRecommender

end AdDelivery.Recommender
