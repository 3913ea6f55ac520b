import AdDelivery.Core.SortKeys

/-!
# Sorting by keys that not all elements have

An element without a key is tied with every other one at that key, so ties are not carried along
and the order of several keys need not be transitive. It is exactly when no three elements go
round, and then a key separates two of them that the third does not have.
-/

namespace AdDelivery.SortKeys

variable {α : Type*} {last : α → α → Prop}

/-- A key that only the elements in `has` have. -/
structure Key (α : Type*) where
  has : α → Prop
  below : α → α → Prop

namespace Key

/-- A strict weak order of the elements that have the key. -/
structure Ordered (key : Key α) : Prop where
  has_left : ∀ {a b}, key.below a b → key.has a
  has_right : ∀ {a b}, key.below a b → key.has b
  asymm : ∀ {a b}, key.below a b → ¬ key.below b a
  split : ∀ {a b c}, key.below a c → key.has b → key.below a b ∨ key.below b c

def Tied (key : Key α) (a b : α) : Prop := ¬ key.below a b ∧ ¬ key.below b a

end Key

/-- The order of a list of keys, the most important one in front. -/
def lexByKeys (last : α → α → Prop) (keys : List (Key α)) : α → α → Prop :=
  lexBy last (keys.map Key.below)

@[simp] theorem lexByKeys_cons (key : Key α) (keys : List (Key α)) :
    lexByKeys last (key :: keys) = thenBy key.below (lexByKeys last keys) := rfl

variable {keys : List (Key α)} {key : Key α} {r s : α → α → Prop} {a b c : α}

theorem lexByKeys_asymm (h : ∀ key ∈ keys, key.Ordered) (hlast : last a b → ¬ last b a) :
    lexByKeys last keys a b → ¬ lexByKeys last keys b a := by
  induction keys with
  | nil => exact hlast
  | cons key keys ih =>
    have hkey := h key List.mem_cons_self
    have hkeys := ih fun key' hmem => h key' (List.mem_cons_of_mem key hmem)
    rintro (hab | ⟨hba, hab⟩) (hba' | ⟨hab', hba'⟩)
    · exact hkey.asymm hab hba'
    · exact hab' hab
    · exact hba hba'
    · exact hkeys hab hba'

theorem lexByKeys_connected (hlast : last a b ∨ last b a) :
    lexByKeys last keys a b ∨ lexByKeys last keys b a := by
  induction keys with
  | nil => exact hlast
  | cons key keys ih =>
    by_cases hab : key.below a b
    · exact .inl (.inl hab)
    by_cases hba : key.below b a
    · exact .inr (.inl hba)
    exact ih.imp (fun h => .inr ⟨hba, h⟩) fun h => .inr ⟨hab, h⟩

def Cycle (r : α → α → Prop) (a b c : α) : Prop := r a b ∧ r b c ∧ r c a

/-- The first key that separates the three has `a` below `b` and is missing in `c`, and the
later keys have `b` below `c` below `a`. -/
def Crossed (last : α → α → Prop) (keys : List (Key α)) (a b c : α) : Prop :=
  ∃ pre key post, keys = pre ++ key :: post ∧
    (∀ key' ∈ pre, key'.Tied a b ∧ key'.Tied b c ∧ key'.Tied c a) ∧
    key.below a b ∧ ¬ key.has c ∧
    lexByKeys last post b c ∧ lexByKeys last post c a

theorem thenBy_of_tied (h : key.Tied a b) : thenBy key.below s a b ↔ s a b := by
  simp [thenBy, h.1, h.2]

theorem Crossed.cons (h : Crossed last keys a b c) (hab : key.Tied a b) (hbc : key.Tied b c)
    (hca : key.Tied c a) : Crossed last (key :: keys) a b c := by
  obtain ⟨pre, key', post, rfl, hpre, hcrossed⟩ := h
  refine ⟨key :: pre, key', post, rfl, ?_, hcrossed⟩
  intro key'' hmem
  rcases List.mem_cons.mp hmem with rfl | hmem
  · exact ⟨hab, hbc, hca⟩
  · exact hpre key'' hmem

/-- The element that closes a cycle around a separating key does not have the key. -/
theorem not_has_of_cycle (hkey : key.Ordered) (h : Cycle (thenBy key.below s) a b c)
    (hab : key.below a b) : ¬ key.has c := by
  obtain ⟨-, hbc, hca⟩ := h
  intro hc
  rcases hkey.split hab hc with hac | hcb
  · exact hca.elim (hkey.asymm hac) fun h => h.1 hac
  · exact hbc.elim (hkey.asymm hcb) fun h => h.1 hcb

theorem crossed_of_below (hkey : key.Ordered)
    (h : Cycle (thenBy key.below (lexByKeys last keys)) a b c) (hab : key.below a b) :
    Crossed last (key :: keys) a b c := by
  have hc := not_has_of_cycle hkey h hab
  obtain ⟨-, hbc, hca⟩ := h
  refine ⟨[], key, keys, rfl, by simp, hab, hc, ?_, ?_⟩
  · exact hbc.elim (fun h => absurd (hkey.has_right h) hc) And.right
  · exact hca.elim (fun h => absurd (hkey.has_left h) hc) And.right

theorem crossed_of_cycle (h : ∀ key ∈ keys, key.Ordered) (hlast : ¬ Cycle last a b c)
    (hcycle : Cycle (lexByKeys last keys) a b c) :
    Crossed last keys a b c ∨ Crossed last keys b c a ∨ Crossed last keys c a b := by
  induction keys with
  | nil => exact absurd hcycle hlast
  | cons key keys ih =>
    have hkey := h key List.mem_cons_self
    have hkeys := ih fun key' hmem => h key' (List.mem_cons_of_mem key hmem)
    obtain ⟨hab, hbc, hca⟩ := hcycle
    by_cases hab' : key.below a b
    · exact .inl (crossed_of_below hkey ⟨hab, hbc, hca⟩ hab')
    by_cases hbc' : key.below b c
    · exact .inr (.inl (crossed_of_below hkey ⟨hbc, hca, hab⟩ hbc'))
    by_cases hca' : key.below c a
    · exact .inr (.inr (crossed_of_below hkey ⟨hca, hab, hbc⟩ hca'))
    -- the key leaves all three tied
    replace hab := hab.resolve_left hab'
    replace hbc := hbc.resolve_left hbc'
    replace hca := hca.resolve_left hca'
    have htab : key.Tied a b := ⟨hab', hab.1⟩
    have htbc : key.Tied b c := ⟨hbc', hbc.1⟩
    have htca : key.Tied c a := ⟨hca', hca.1⟩
    rcases hkeys ⟨hab.2, hbc.2, hca.2⟩ with hcrossed | hcrossed | hcrossed
    · exact .inl (hcrossed.cons htab htbc htca)
    · exact .inr (.inl (hcrossed.cons htbc htca htab))
    · exact .inr (.inr (hcrossed.cons htca htab htbc))

theorem cycle_of_crossed (h : ∀ key ∈ keys, key.Ordered) (hcrossed : Crossed last keys a b c) :
    Cycle (lexByKeys last keys) a b c := by
  obtain ⟨pre, key, post, rfl, hpre, hab, hc, hbc, hca⟩ := hcrossed
  induction pre with
  | nil =>
    have hkey := h key List.mem_cons_self
    refine ⟨.inl hab, .inr ⟨?_, hbc⟩, .inr ⟨?_, hca⟩⟩
    · exact fun hcb => hc (hkey.has_left hcb)
    · exact fun hac => hc (hkey.has_right hac)
  | cons key' pre ih =>
    obtain ⟨htab, htbc, htca⟩ := hpre key' List.mem_cons_self
    obtain ⟨hab', hbc', hca'⟩ := ih (fun key'' hmem => h key'' (List.mem_cons_of_mem key' hmem))
      fun key'' hmem => hpre key'' (List.mem_cons_of_mem key' hmem)
    exact ⟨(thenBy_of_tied htab).mpr hab', (thenBy_of_tied htbc).mpr hbc',
      (thenBy_of_tied htca).mpr hca'⟩

/-- On elements that the last order compares, an order by keys is transitive exactly when no
three elements are crossed. -/
theorem transitive_iff_not_crossed [IsStrictOrder α last] {D : Set α}
    (hD : ∀ a ∈ D, ∀ b ∈ D, a ≠ b → last a b ∨ last b a) (h : ∀ key ∈ keys, key.Ordered) :
    (∀ a ∈ D, ∀ b ∈ D, ∀ c ∈ D,
      lexByKeys last keys a b → lexByKeys last keys b c → lexByKeys last keys a c) ↔
      ∀ a ∈ D, ∀ b ∈ D, ∀ c ∈ D, ¬ Crossed last keys a b c := by
  have hasymm (a b : α) : lexByKeys last keys a b → ¬ lexByKeys last keys b a :=
    lexByKeys_asymm h (Std.Asymm.asymm a b)
  constructor
  · intro htrans a ha b hb c hc hcrossed
    obtain ⟨hab, hbc, hca⟩ := cycle_of_crossed h hcrossed
    exact hasymm a c (htrans a ha b hb c hc hab hbc) hca
  · intro hnot a ha b hb c hc hab hbc
    by_contra hac
    have hne : a ≠ c := by
      rintro rfl
      exact hasymm a b hab hbc
    have hca := (lexByKeys_connected (hD a ha c hc hne)).resolve_left hac
    have hlast : ¬ Cycle last a b c := by
      rintro ⟨hab, hbc, hca⟩
      have hac := IsTrans.trans (r := last) a b c hab hbc
      exact Std.Asymm.asymm (r := last) a c hac hca
    rcases crossed_of_cycle h hlast ⟨hab, hbc, hca⟩ with hcrossed | hcrossed | hcrossed
    · exact hnot a ha b hb c hc hcrossed
    · exact hnot b hb c hc a ha hcrossed
    · exact hnot c hc a ha b hb hcrossed

end AdDelivery.SortKeys
