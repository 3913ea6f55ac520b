import AdDelivery.SearchManager.BooleanIterator
import AdDelivery.SearchManager.EnumeratingIterator

/-!
# Repeated calls of `next`

An AND iterator goes to the first document that is not excluded: after each step it takes
the exclusions up to its document. An OR iterator does so only once a call. While it passes
documents that are excluded, it takes one step on both sides, so that it stops on a document
that is not the next excluded one, even if the exclusions have yet to come to it.
-/

namespace AdDelivery.SearchManager

open DocumentIterator LawfulDocumentIterator EnumeratingIterator Set NotQuery Bool BooleanIterator

section Exclusions

variable {order : QueueOrder} {it : ORDocumentIterator order} {n : ℕ} {A B N R : Set ℕ}

/-- The exclusions are on `n`, the first document that they have still to visit. -/
structure NotStands (it : ORDocumentIterator order) (n : ℕ) : Prop where
  current : (rest it = ∅ ∧ n = maxDocId) ∨ IsLeast (rest it) n
  ahead : Ahead it {x ∈ rest it | n < x}

/-- The exclusions are on `n`, and from the first document of `A` on they have passed none. -/
structure NotOn (A N : Set ℕ) (it : ORDocumentIterator order) (n : ℕ) : Prop where
  stands : NotStands it n
  excluded : rest it ⊆ N
  unpassed : ∀ x ∈ A, ∀ y ∈ N, x ≤ y → y ∈ rest it

theorem NotOn.mono (h : NotOn A N it n) (hsub : B ⊆ A) : NotOn B N it n :=
  ⟨h.stands, h.excluded, fun x hx => h.unpassed x (hsub hx)⟩

theorem notStands_next (h : Ahead it R) :
    NotStands (next it).2 (if (next it).1 then doc (next it).2 else maxDocId) := by
  have hrest := rest_next_of_ahead it R h
  cases hnext : (next it).1 with
  | false =>
    have hempty : R = ∅ := empty_of_not_next it R h hnext
    subst hempty
    refine ⟨.inl ⟨hrest, rfl⟩, ?_⟩
    rw [hrest, sep_empty]
    exact ahead_of_rest_empty _ hrest
  | true =>
    refine ⟨.inr (least_next it hnext), ?_⟩
    rw [hrest]
    exact ahead_next it R h hnext

theorem notStands_skipTo (h : NotStands it n) (t : ℕ) :
    NotStands (skipTo t it).2 (skipTo t it).1 := by
  refine ⟨?_, ORDocumentIterator.ahead_skipTo t h.ahead⟩
  have hfirst := first_skipTo t it
  rw [rest_skipTo]
  by_cases hmax : (skipTo t it).1 = maxDocId
  · rw [hmax] at hfirst
    refine .inl ⟨subset_empty_iff.mp fun x hx => ?_, hmax⟩
    exact absurd (hfirst.below x hx.1) (not_lt.mpr hx.2)
  · exact .inr (hfirst.isLeast hmax)

/-- One step of the exclusions passes only the document they are on. -/
theorem NotOn.next (h : NotOn A N it n) (hsub : B ⊆ A) (hlt : ∀ x ∈ B, n < x) :
    NotOn B N (next it).2 (if (next it).1 then doc (next it).2 else maxDocId) := by
  have hrest := rest_next_of_ahead it _ h.stands.ahead
  refine ⟨notStands_next h.stands.ahead, ?_, fun x hx y hy hxy => ?_⟩
  · rw [hrest]
    exact (sep_subset _ _).trans h.excluded
  · rw [hrest]
    exact ⟨h.unpassed x (hsub hx) y hy hxy, (hlt x hx).trans_le hxy⟩

/-- From the document that both parts are on, the exclusions go to the next excluded one. -/
theorem NotOn.rest_next (h : NotOn A N it n) (hn : n ∈ A) :
    rest (DocumentIterator.next it).2 = {y ∈ N | n < y} := by
  rw [rest_next_of_ahead it _ h.stands.ahead]
  ext y
  constructor
  · rintro ⟨hy, hlt⟩
    exact ⟨h.excluded hy, hlt⟩
  · rintro ⟨hy, hlt⟩
    exact ⟨h.unpassed n hn y hy hlt.le, hlt⟩

theorem NotStands.eq_iff {p : ℕ} (h : NotStands it n) (hmax : p < maxDocId) :
    p = n ↔ IsLeast (rest it) p := by
  obtain ⟨hempty, rfl⟩ | hleast := h.current
  · rw [hempty]
    exact iff_of_false hmax.ne fun hp => absurd hp.1 (notMem_empty p)
  · constructor
    · rintro rfl
      exact hleast
    · exact fun hp => hp.unique hleast

theorem NotOn.skipTo (h : NotOn A N it n) {t : ℕ} (hle : ∀ x ∈ A, t ≤ x) :
    NotOn A N (skipTo t it).2 (skipTo t it).1 := by
  refine ⟨notStands_skipTo h.stands t, ?_, fun x hx y hy hxy => ?_⟩
  · rw [rest_skipTo]
    exact (sep_subset _ _).trans h.excluded
  · rw [rest_skipTo]
    exact ⟨h.unpassed x hx y hy hxy, (hle x hx).trans hxy⟩

/-- A document that the exclusions have not come to yet is not excluded. -/
theorem NotOn.not_mem {p : ℕ} (h : NotOn A N it n) (hp : p ∈ A) (hlt : p < n) : p ∉ N := by
  intro hN
  have hmem := h.unpassed p hp p hN le_rfl
  obtain ⟨hempty, -⟩ | hleast := h.stands.current
  · exact absurd (hempty ▸ hmem) (notMem_empty p)
  · exact absurd (hleast.2 hmem) (not_le.mpr hlt)

theorem NotOn.mem (h : NotOn A N it n) (hmax : n < maxDocId) : n ∈ N := by
  obtain ⟨-, hend⟩ | hleast := h.stands.current
  · exact absurd hend hmax.ne
  · exact h.excluded hleast.1

/-- After a skip the exclusions are not below the target. -/
theorem le_skipTo (it : ORDocumentIterator order) {t : ℕ} (hmax : t < maxDocId) :
    t ≤ (DocumentIterator.skipTo t it).1 := by
  obtain hend | ⟨hle, -⟩ := skipTo_found t it
  · exact hend ▸ hmax.le
  · exact hle

end Exclusions

section Between

variable {α : Type} [EnumeratingIterator α] {order : QueueOrder} {A B N : Set ℕ}
  {s : NotQuery α (ORDocumentIterator order)}

/-- `A` is ahead of the positive part, and the exclusions are not ahead of `A`. -/
structure ToCome (A N : Set ℕ) (s : NotQuery α (ORDocumentIterator order)) : Prop where
  ahead : Ahead s.positive A
  below : ∀ x ∈ A, x < maxDocId
  noNot : s.hasNot = false → N = ∅
  fresh : s.initNOTIterator = false → Ahead s.notDocIterator N ∧ rest s.notDocIterator = N
  started : s.initNOTIterator = true → NotOn A N s.notDocIterator s.currDocOfNOTIter

/-- What a call of `next` comes to: it has passed only documents that are excluded. -/
structure Reported (A N : Set ℕ) (r : Bool × NotQuery α (ORDocumentIterator order)) : Prop where
  found : r.1 = true → r.2.currDoc ∈ A
  passed : ∀ x ∈ A, (r.1 = true → x < r.2.currDoc) → x ∈ N
  toCome : ToCome {x ∈ A | r.1 = true ∧ r.2.currDoc < x} N r.2

theorem ToCome.initNot (h : ToCome A N s) :
    ToCome A N s.initNot ∧ s.initNot.initNOTIterator = true := by
  unfold NotQuery.initNot
  cases hinit : s.initNOTIterator with
  | true => exact ⟨h, hinit⟩
  | false =>
    obtain ⟨hahead, hrest⟩ := h.fresh hinit
    have hrest' := rest_next_of_ahead _ N hahead
    refine ⟨⟨h.ahead, h.below, h.noNot, ?_, fun _ => ⟨notStands_next hahead, ?_, ?_⟩⟩, rfl⟩
    · exact fun hfalse => absurd hfalse.symm false_ne_true
    · exact hrest'.subset
    · exact fun x hx y hy hxy => hrest'.symm ▸ hy

/-- `do_next` finds nothing, or the first document that is ahead. -/
theorem ToCome.doNext (h : ToCome A N s) : (s.doNext.1 = false ∧ A = ∅ ∧ ToCome ∅ N s.doNext.2) ∨
      (s.doNext.1 = true ∧ IsLeast A s.doNext.2.currDoc ∧
        ToCome {x ∈ A | s.doNext.2.currDoc < x} N s.doNext.2) := by
  cases hnext : s.doNext.1 with
  | false =>
    obtain ⟨rfl, hahead⟩ := (stillToCome_ahead α).nothing s.positive A h.ahead hnext
    exact .inl ⟨rfl, rfl, hahead, h.below, h.noNot, h.fresh, h.started⟩
  | true =>
    obtain ⟨hleast, hahead⟩ := (stillToCome_ahead α).found s.positive A h.ahead hnext
    refine .inr ⟨rfl, hleast, hahead, fun x hx => h.below x hx.1, h.noNot, h.fresh, ?_⟩
    exact fun hinit => (h.started hinit).mono (sep_subset _ _)

theorem ToCome.withNot (h : ToCome A N s) (hinit : s.initNOTIterator = true)
    {it : ORDocumentIterator order} {n : ℕ} (hon : NotOn A N it n) :
    ToCome A N { s with notDocIterator := it, currDocOfNOTIter := n } :=
  ⟨h.ahead, h.below, h.noNot, fun hfalse => absurd (hinit.symm.trans hfalse).symm
    false_ne_true, fun _ => hon⟩

theorem reported_nothing (hA : A ⊆ N) (h : ToCome ∅ N s) : Reported A N (false, s) := by
  refine ⟨fun hfalse => absurd hfalse false_ne_true, fun x hx _ => hA hx, ?_⟩
  have hempty : {x ∈ A | false = true ∧ s.currDoc < x} = ∅ := by simp
  exact hempty.symm ▸ h

theorem reported_found (hleast : IsLeast A s.currDoc) (h : ToCome {x ∈ A | s.currDoc < x} N s) :
    Reported A N (true, s) := by
  refine ⟨fun _ => hleast.1, fun x hx hlt => ?_, by simpa using h⟩
  exact absurd (hleast.2 hx) (not_le.mpr (hlt rfl))

theorem ToCome.reported_doNext (h : ToCome A N s) : Reported A N s.doNext := by
  obtain ⟨hfalse, rfl, hcome⟩ | ⟨htrue, hleast, hcome⟩ := h.doNext
  · have hpair : s.doNext = (false, s.doNext.2) := Prod.ext hfalse rfl
    exact hpair ▸ reported_nothing (empty_subset N) hcome
  · have hpair : s.doNext = (true, s.doNext.2) := Prod.ext htrue rfl
    exact hpair ▸ reported_found hleast hcome

/-- One step of both parts, from an excluded document on. -/
theorem ToCome.stepBoth (h : ToCome A N s) (hinit : s.initNOTIterator = true)
    (habove : ∀ x ∈ A, s.currDocOfNOTIter < x) (hnext : s.doNext.1 = true) :
    IsLeast A s.doNext.2.nextNot.currDoc ∧
      ToCome {x ∈ A | s.doNext.2.nextNot.currDoc < x} N s.doNext.2.nextNot ∧
      NotOn A N s.doNext.2.nextNot.notDocIterator s.doNext.2.nextNot.currDocOfNOTIter := by
  have hon := (h.started hinit).next subset_rfl habove
  obtain ⟨hfalse, -⟩ | ⟨-, hleast, hcome⟩ := h.doNext
  · exact absurd (hfalse.symm.trans hnext) false_ne_true
  · exact ⟨hleast, hcome.withNot hinit (hon.mono (sep_subset _ _)), hon⟩

/-- The exclusions skip to the document of the positive part. -/
theorem ToCome.skipNot (h : ToCome {x ∈ A | s.currDoc < x} N s)
    (hinit : s.initNOTIterator = true) (hleast : IsLeast A s.currDoc)
    (hon : NotOn A N s.notDocIterator s.currDocOfNOTIter) :
    ToCome {x ∈ A | s.currDoc < x} N (s.skipNot s.currDoc) ∧
      NotOn A N (s.skipNot s.currDoc).notDocIterator (s.skipNot s.currDoc).currDocOfNOTIter := by
  have hon' := hon.skipTo fun x hx => hleast.2 hx
  exact ⟨h.withNot hinit (hon'.mono (sep_subset _ _)), hon'⟩

/-- An excluded document is passed first. -/
theorem Reported.of_passed {p : ℕ} {r : Bool × NotQuery α (ORDocumentIterator order)}
    (hleast : IsLeast A p) (hp : p ∈ N) (h : Reported {x ∈ A | p < x} N r) : Reported A N r := by
  refine ⟨fun hfound => (h.found hfound).1, fun x hx hlt => ?_, ?_⟩
  · rcases (hleast.2 hx).eq_or_lt with rfl | hpx
    · exact hp
    · exact h.passed x ⟨hx, hpx⟩ hlt
  · have hsame : {x ∈ A | r.1 = true ∧ r.2.currDoc < x} =
        {x ∈ {x ∈ A | p < x} | r.1 = true ∧ r.2.currDoc < x} := by
      ext x
      constructor
      · rintro ⟨hx, hfound, hlt⟩
        exact ⟨⟨hx, (h.found hfound).2.trans hlt⟩, hfound, hlt⟩
      · rintro ⟨⟨hx, -⟩, hlt⟩
        exact ⟨hx, hlt⟩
    exact hsame ▸ h.toCome

end Between

section And

variable {α : Type} [EnumeratingIterator α] {order : QueueOrder} {A B N : Set ℕ}

/-- The loop starts where both parts are on one document, or nothing is ahead. -/
theorem reported_moveTogetherAND (s : NotQuery α (ORDocumentIterator order)) :
    ∀ B, ToCome B N s → s.initNOTIterator = true → (∀ x ∈ B, s.currDocOfNOTIter < x) →
      Reported B N s.moveTogetherAND ∧
        (s.moveTogetherAND.1 = true → s.moveTogetherAND.2.currDoc ∉ N) := by
  fun_induction moveTogetherAND s with
  | case1 s hnext s' hlt =>
    intro B h hinit habove
    obtain ⟨hleast, hcome, hon⟩ := h.stepBoth hinit habove hnext
    exact ⟨reported_found hleast hcome, fun _ => hon.not_mem hleast.1 hlt⟩
  | case2 s hnext s' hlt heq ih =>
    intro B h hinit habove
    obtain ⟨hleast, hcome, hon⟩ := h.stepBoth hinit habove hnext
    have hexcluded : s'.currDoc ∈ N :=
      heq ▸ hon.mem (show s'.currDocOfNOTIter < maxDocId from heq ▸ h.below _ hleast.1)
    obtain ⟨hreported, hnot⟩ := ih _ hcome hinit fun x hx => heq ▸ hx.2
    exact ⟨hreported.of_passed hleast hexcluded, hnot⟩
  | case3 s hnext s' hlt heq s'' hexcluded ih =>
    intro B h hinit habove
    obtain ⟨hleast, hcome, hon⟩ := h.stepBoth hinit habove hnext
    obtain ⟨hcome', hon'⟩ := hcome.skipNot hinit hleast hon
    have hmem : s''.currDoc ∈ N :=
      hexcluded ▸ hon'.mem (show s''.currDocOfNOTIter < maxDocId from
        hexcluded ▸ h.below _ hleast.1)
    obtain ⟨hreported, hnot⟩ := ih _ hcome' hinit fun x hx => hexcluded ▸ hx.2
    exact ⟨hreported.of_passed hleast hmem, hnot⟩
  | case4 s hnext s' hlt heq s'' hexcluded =>
    intro B h hinit habove
    obtain ⟨hleast, hcome, hon⟩ := h.stepBoth hinit habove hnext
    obtain ⟨hcome', hon'⟩ := hcome.skipNot hinit hleast hon
    have hlt' : s''.currDoc < s''.currDocOfNOTIter :=
      lt_of_le_of_ne (le_skipTo _ (h.below _ hleast.1)) hexcluded
    exact ⟨reported_found hleast hcome', fun _ => hon'.not_mem hleast.1 hlt'⟩
  | case5 s hnext =>
    intro B h hinit habove
    obtain ⟨-, rfl, hcome⟩ | ⟨htrue, -⟩ := h.doNext
    · refine ⟨reported_nothing (empty_subset N) hcome, ?_⟩
      exact fun hfalse => absurd hfalse false_ne_true
    · exact absurd htrue hnext

theorem reported_nextAND {s : NotQuery ANDDocumentIterator (ORDocumentIterator order)}
    (h : ToCome A N s) :
    Reported A N s.nextAND ∧ (s.nextAND.1 = true → s.nextAND.2.currDoc ∉ N) := by
  unfold nextAND
  split
  · rename_i hnot
    have hN : N = ∅ := h.noNot (not_eq_true' _ ▸ hnot)
    exact ⟨h.reported_doNext, fun _ => hN ▸ notMem_empty _⟩
  split
  · rename_i hlist
    have hA : A = ∅ := subset_empty_iff.mp
      (ANDDocumentIterator.rest_eq_empty hlist ▸ ANDDocumentIterator.Ahead.subset_rest h.ahead)
    subst hA
    exact ⟨reported_nothing (empty_subset N) h, fun hfalse => absurd hfalse false_ne_true⟩
  obtain ⟨h₀, hinit⟩ := h.initNot
  dsimp only
  have hreported := h₀.reported_doNext
  obtain ⟨hfalse, rfl, hcome⟩ | ⟨htrue, hleast, hcome⟩ := h₀.doNext
  · -- nothing is left, whatever the two parts are on
    have hskip : ToCome ∅ N (s.initNot.doNext.2.skipNot s.initNot.doNext.2.currDoc) :=
      hcome.withNot hinit ((hcome.started hinit).skipTo fun x hx => absurd hx (notMem_empty x))
    split
    · exact reported_moveTogetherAND _ ∅ hcome hinit fun x hx => absurd hx (notMem_empty x)
    split
    · exact ⟨hreported, fun hfound => absurd (hfalse.symm.trans hfound) false_ne_true⟩
    split
    · exact reported_moveTogetherAND _ ∅ hskip hinit fun x hx => absurd hx (notMem_empty x)
    · rw [hfalse]
      refine ⟨reported_nothing (empty_subset N) hskip, ?_⟩
      exact fun hfound => absurd hfound false_ne_true
  · have hon := h₀.started hinit
    have hmax := h₀.below _ hleast.1
    split
    · rename_i heq
      obtain ⟨hmoved, hnot⟩ :=
        reported_moveTogetherAND _ _ hcome hinit fun x hx => heq ▸ hx.2
      exact ⟨hmoved.of_passed hleast (heq ▸ hon.mem (heq ▸ hmax)), hnot⟩
    split
    · rename_i hlt
      exact ⟨hreported, fun _ => hon.not_mem hleast.1 hlt⟩
    obtain ⟨hcome', hon'⟩ := hcome.skipNot hinit hleast hon
    split
    · rename_i heq
      obtain ⟨hmoved, hnot⟩ :=
        reported_moveTogetherAND _ _ hcome' hinit fun x hx => heq ▸ hx.2
      exact ⟨hmoved.of_passed hleast (heq ▸ hon'.mem (heq ▸ hmax)), hnot⟩
    · rename_i hne
      have hlt := lt_of_le_of_ne (le_skipTo _ hmax) hne
      rw [htrue]
      exact ⟨reported_found hleast hcome', fun _ => hon'.not_mem hleast.1 hlt⟩

end And

section Or

variable {α : Type} [EnumeratingIterator α] {order : QueueOrder} {A B N : Set ℕ}
  {s : NotQuery α (ORDocumentIterator order)}

/-- The document after an excluded one, if it is excluded as well, is the next one that is. -/
def LockStep (P N : Set ℕ) : Prop :=
  ∀ x ∈ P ∩ N, ∀ p, IsLeast {y ∈ P | x < y} p → p ∈ N → IsLeast {y ∈ N | x < y} p

/-- A call passes a document after another one only if it is the next excluded one, and
stops on an excluded document only if it is not. -/
structure InStep (A N : Set ℕ) (r : Bool × NotQuery α (ORDocumentIterator order)) : Prop where
  followed : ∀ x ∈ A, ∀ p, IsLeast {y ∈ A | x < y} p → (r.1 = true → p < r.2.currDoc) →
    IsLeast {y ∈ N | x < y} p
  stopped : r.1 = true → r.2.currDoc ∈ N → ∃ x ∈ A, x ∈ N ∧
    IsLeast {y ∈ A | x < y} r.2.currDoc ∧ ¬IsLeast {y ∈ N | x < y} r.2.currDoc

variable {r : Bool × NotQuery α (ORDocumentIterator order)}

theorem inStep_empty (h : r.1 = false) : InStep ∅ N r :=
  ⟨fun x hx => absurd hx (notMem_empty x), fun hfound => absurd (h.symm.trans hfound) false_ne_true⟩

/-- Nothing is passed on the way to the first document. -/
theorem inStep_first (hfound : r.1 = true) (hleast : IsLeast A r.2.currDoc) (hN : r.2.currDoc ∉ N) :
    InStep A N r := by
  refine ⟨fun x hx p hp hlt => ?_, fun _ hmem => absurd hmem hN⟩
  exact absurd (hleast.2 hp.1.1) (not_le.mpr (hlt hfound))

theorem sep_insert_of_lt {c x : ℕ} (hx : c < x) : {y ∈ insert c B | x < y} = {y ∈ B | x < y} := by
  ext y
  constructor
  · rintro ⟨rfl | hy, hlt⟩
    · exact absurd hlt hx.le.not_gt
    · exact ⟨hy, hlt⟩
  · rintro ⟨hy, hlt⟩
    exact ⟨.inr hy, hlt⟩

theorem sep_insert_self {c : ℕ} (habove : ∀ x ∈ B, c < x) : {y ∈ insert c B | c < y} = B := by
  ext y
  constructor
  · rintro ⟨rfl | hy, hlt⟩
    · exact absurd hlt (lt_irrefl y)
    · exact hy
  · exact fun hy => ⟨.inr hy, habove y hy⟩

/-- One more document is passed, after `c`. -/
theorem InStep.cons {c p : ℕ} (habove : ∀ x ∈ B, c < x) (hleast : IsLeast B p)
    (hnext : IsLeast {y ∈ N | c < y} p) (h : InStep B N r) : InStep (insert c B) N r := by
  constructor
  · rintro x (rfl | hx) q hq hlt
    · rw [sep_insert_self habove] at hq
      exact hq.unique hleast ▸ hnext
    · rw [sep_insert_of_lt (habove x hx)] at hq
      exact h.followed x hx q hq hlt
  · intro hfound hmem
    obtain ⟨x, hx, hxN, hleast', hnot⟩ := h.stopped hfound hmem
    refine ⟨x, .inr hx, hxN, ?_, hnot⟩
    rwa [sep_insert_of_lt (habove x hx)]

theorem insert_sep_of_isLeast {p : ℕ} (hleast : IsLeast B p) : insert p {x ∈ B | p < x} = B := by
  ext x
  constructor
  · rintro (rfl | ⟨hx, -⟩)
    · exact hleast.1
    · exact hx
  · intro hx
    rcases (hleast.2 hx).eq_or_lt with rfl | hlt
    · exact .inl rfl
    · exact .inr ⟨hx, hlt⟩

theorem Reported.cons {c : ℕ} (habove : ∀ x ∈ B, c < x) (hc : c ∈ N) (h : Reported B N r) :
    Reported (insert c B) N r := by
  refine Reported.of_passed (p := c) ⟨.inl rfl, ?_⟩ hc ?_
  · rintro x (rfl | hx)
    · exact le_rfl
    · exact (habove x hx).le
  · rwa [sep_insert_self habove]

/-- The loop starts where both parts are on the document `c`. -/
theorem inStep_moveTogetherOR (s : NotQuery α (ORDocumentIterator order)) :
    ∀ B c, ToCome B N s → s.initNOTIterator = true → (∀ x ∈ B, c < x) → c ∈ N →
      s.currDocOfNOTIter = c → NotOn (insert c B) N s.notDocIterator s.currDocOfNOTIter →
      Reported (insert c B) N s.moveTogetherOR ∧ InStep (insert c B) N s.moveTogetherOR := by
  fun_induction moveTogetherOR s with
  | case1 s s' hexcluded ih =>
    rintro B c h hinit habove hc rfl hon
    obtain ⟨hleast, hcome, hon'⟩ := h.stepBoth hinit habove hexcluded.1
    have hmax := h.below _ hleast.1
    have hnext : IsLeast {y ∈ N | s.currDocOfNOTIter < y} s'.currDoc := by
      rw [← hon.rest_next (.inl rfl)]
      exact (hon'.stands.eq_iff hmax).mp hexcluded.2
    have hB := insert_sep_of_isLeast hleast
    obtain ⟨hreported, hstep⟩ := ih _ s'.currDoc hcome hinit (fun x hx => hx.2) hnext.1.1
      hexcluded.2.symm (hB.symm ▸ hon')
    rw [hB] at hreported hstep
    exact ⟨hreported.cons habove hc, hstep.cons habove hleast hnext⟩
  | case2 s s' hexcluded =>
    rintro B c h hinit habove hc rfl hon
    obtain ⟨hfalse, rfl, hcome⟩ | ⟨htrue, -, -⟩ := h.doNext
    · have hon' := (h.started hinit).next subset_rfl habove
      rw [hfalse]
      refine ⟨(reported_nothing (empty_subset N) (hcome.withNot hinit hon')).cons habove hc,
        ?_, fun hfound => absurd hfound false_ne_true⟩
      rintro x (rfl | hx) p ⟨⟨rfl | hp, hlt⟩, -⟩ -
      · exact absurd hlt (lt_irrefl _)
      · exact absurd hp (notMem_empty p)
      · exact absurd hx (notMem_empty x)
      · exact absurd hx (notMem_empty x)
    · obtain ⟨hleast, hcome, hon'⟩ := h.stepBoth hinit habove htrue
      rw [htrue]
      refine ⟨(reported_found hleast hcome).cons habove hc, ?_, ?_⟩
      · -- no document of `B` comes before the one reported
        rintro x (rfl | hx) q ⟨⟨rfl | hq, hlt⟩, -⟩ hbelow
        · exact absurd hlt (lt_irrefl _)
        · exact absurd (hleast.2 hq) (not_le.mpr (hbelow rfl))
        · exact absurd hlt (habove x hx).le.not_gt
        · exact absurd (hleast.2 hq) (not_le.mpr (hbelow rfl))
      · intro _ _
        refine ⟨s.currDocOfNOTIter, .inl rfl, hc, ?_, fun hnext => hexcluded ⟨htrue, ?_⟩⟩
        · rwa [sep_insert_self habove]
        · rw [← hon.rest_next (.inl rfl)] at hnext
          exact (hon'.stands.eq_iff (h.below _ hleast.1)).mpr hnext

theorem inStep_moveTogetherOR_nothing (h : ToCome ∅ N s) (hinit : s.initNOTIterator = true) :
    Reported ∅ N s.moveTogetherOR ∧ InStep ∅ N s.moveTogetherOR := by
  rw [moveTogetherOR]
  obtain ⟨hfalse, -, hcome⟩ | ⟨-, hleast, -⟩ := h.doNext
  · have hon := (h.started hinit).next subset_rfl fun x hx => absurd hx (Set.notMem_empty x)
    rw [hfalse]
    exact ⟨reported_nothing (Set.empty_subset N) (hcome.withNot hinit hon), inStep_empty rfl⟩
  · exact absurd hleast.1 (Set.notMem_empty _)

/-- The last part of `next`, where the exclusions are not below the document. -/
theorem inStep_meet (h : ToCome {x ∈ A | s.currDoc < x} N s) (hinit : s.initNOTIterator = true)
    (hleast : IsLeast A s.currDoc) (hon : NotOn A N s.notDocIterator s.currDocOfNOTIter)
    (hmax : s.currDoc < maxDocId) (hle : s.currDoc ≤ s.currDocOfNOTIter) :
    Reported A N (if s.currDoc = s.currDocOfNOTIter then s.moveTogetherOR else (true, s)) ∧
      InStep A N (if s.currDoc = s.currDocOfNOTIter then s.moveTogetherOR else (true, s)) := by
  have hA := insert_sep_of_isLeast hleast
  split
  · rename_i heq
    have hmoved := inStep_moveTogetherOR s _ s.currDoc h hinit (fun x hx => hx.2)
      (heq ▸ hon.mem (heq ▸ hmax)) heq.symm (hA.symm ▸ hon)
    rwa [hA] at hmoved
  · rename_i hne
    have hN := hon.not_mem hleast.1 (lt_of_le_of_ne hle hne)
    exact ⟨reported_found hleast h, inStep_first rfl hleast hN⟩

theorem inStep_nextOR (h : ToCome A N s) : Reported A N s.nextOR ∧ InStep A N s.nextOR := by
  unfold nextOR
  split
  · rename_i hnot
    have hN : N = ∅ := h.noNot (not_eq_true' _ ▸ hnot)
    refine ⟨h.reported_doNext, ?_⟩
    obtain ⟨hfalse, rfl, -⟩ | ⟨htrue, hleast, -⟩ := h.doNext
    · exact inStep_empty hfalse
    · exact inStep_first htrue hleast (hN ▸ notMem_empty _)
  obtain ⟨h₀, hinit⟩ := h.initNot
  dsimp only
  obtain ⟨hfalse, rfl, hcome⟩ | ⟨htrue, hleast, hcome⟩ := h₀.doNext
  · -- nothing is left, whatever the two parts are on
    rw [hfalse]
    have hskip : ToCome ∅ N (s.initNot.doNext.2.skipNot s.initNot.doNext.2.currDoc) :=
      hcome.withNot hinit ((hcome.started hinit).skipTo fun x hx => absurd hx (notMem_empty x))
    have hnothing : ∀ s' : NotQuery α (ORDocumentIterator order), ToCome ∅ N s' →
        s'.initNOTIterator = true →
        Reported ∅ N (if s'.currDoc = s'.currDocOfNOTIter then s'.moveTogetherOR
          else (false, s')) ∧
        InStep ∅ N (if s'.currDoc = s'.currDocOfNOTIter then s'.moveTogetherOR
          else (false, s')) := by
      intro s' h' hinit'
      split
      · exact inStep_moveTogetherOR_nothing h' hinit'
      · exact ⟨reported_nothing (empty_subset N) h', inStep_empty rfl⟩
    by_cases hlt : s.initNot.doNext.2.currDocOfNOTIter < s.initNot.doNext.2.currDoc
    · rw [if_pos hlt]
      exact hnothing _ hskip hinit
    · rw [if_neg hlt]
      exact hnothing _ hcome hinit
  · rw [htrue]
    have hmax := h₀.below _ hleast.1
    have hon := h₀.started hinit
    by_cases hlt : s.initNot.doNext.2.currDocOfNOTIter < s.initNot.doNext.2.currDoc
    · rw [if_pos hlt]
      obtain ⟨hcome', hon'⟩ := hcome.skipNot hinit hleast hon
      exact inStep_meet hcome' hinit hleast hon' hmax (le_skipTo _ hmax)
    · rw [if_neg hlt]
      exact inStep_meet hcome hinit hleast hon hmax (not_lt.mp hlt)

end Or

section Reported

variable {α : Type} [EnumeratingIterator α] {order : QueueOrder} {A N P : Set ℕ}
  {r : Bool × NotQuery α (ORDocumentIterator order)}

theorem Reported.sdiff_eq_empty (h : Reported A N r) (hfalse : r.1 = false) : A \ N = ∅ := by
  rw [Set.sdiff_eq_empty]
  exact fun x hx => h.passed x hx fun htrue => absurd (hfalse.symm.trans htrue) Bool.false_ne_true

theorem Reported.isLeast (h : Reported A N r) (htrue : r.1 = true) (hN : r.2.currDoc ∉ N) :
    IsLeast (A \ N) r.2.currDoc := by
  refine ⟨⟨h.found htrue, hN⟩, fun x hx => ?_⟩
  by_contra hlt
  exact hx.2 (h.passed x hx.1 fun _ => not_le.mp hlt)

theorem sep_sdiff_of_not_found (hfalse : r.1 = false) :
    {x ∈ A | r.1 = true ∧ r.2.currDoc < x} \ N = ∅ := by
  ext x
  simp [hfalse]

theorem sep_sdiff_of_found (htrue : r.1 = true) :
    {x ∈ A | r.1 = true ∧ r.2.currDoc < x} \ N = {x ∈ A \ N | r.2.currDoc < x} := by
  ext x
  constructor
  · rintro ⟨⟨hx, -, hlt⟩, hN⟩
    exact ⟨⟨hx, hN⟩, hlt⟩
  · rintro ⟨⟨hx, hN⟩, hlt⟩
    exact ⟨⟨hx, htrue, hlt⟩, hN⟩

theorem isUpperPart_toCome (h : IsUpperPart P A) :
    IsUpperPart P {x ∈ A | r.1 = true ∧ r.2.currDoc < x} := by
  refine h.trans ⟨sep_subset _ _, ?_⟩
  rintro x ⟨-, htrue, hlt⟩ y hy hxy
  exact ⟨hy, htrue, hlt.trans_le hxy⟩

/-- In step with the exclusions, a call stops on a document that is not excluded. -/
theorem InStep.not_mem (h : InStep A N r) (hpart : IsUpperPart P A) (hlock : LockStep P N)
    (htrue : r.1 = true) : r.2.currDoc ∉ N := by
  intro hN
  obtain ⟨x, hx, hxN, hleast, hnot⟩ := h.stopped htrue hN
  refine hnot (hlock x ⟨hpart.subset hx, hxN⟩ _ ⟨⟨hpart.subset hleast.1.1, hleast.1.2⟩, ?_⟩ hN)
  rintro y ⟨hy, hlt⟩
  exact hleast.2 ⟨hpart.upward x hx y hy hlt.le, hlt⟩

/-- If a call reports a document that is not excluded, it was in step so far. -/
theorem InStep.lockStep (h : InStep A N r) (hreported : Reported A N r)
    (hN : r.1 = true → r.2.currDoc ∉ N)
    (hrest : LockStep {x ∈ A | r.1 = true ∧ r.2.currDoc < x} N) : LockStep A N := by
  rintro x ⟨hx, hxN⟩ p hp hpN
  by_cases hlater : r.1 = true ∧ r.2.currDoc < x
  · have hp' : p ∈ {x ∈ A | r.1 = true ∧ r.2.currDoc < x} :=
      ⟨hp.1.1, hlater.1, hlater.2.trans hp.1.2⟩
    refine hrest x ⟨⟨hx, hlater⟩, hxN⟩ p ⟨⟨hp', hp.1.2⟩, ?_⟩ hpN
    exact fun y hy => hp.2 ⟨hy.1.1, hy.2⟩
  · refine h.followed x hx p hp fun htrue => ?_
    have hxd : x < r.2.currDoc := by
      refine lt_of_le_of_ne (not_lt.mp fun hlt => hlater ⟨htrue, hlt⟩) ?_
      rintro rfl
      exact hN htrue hxN
    refine lt_of_le_of_ne (hp.2 ⟨hreported.found htrue, hxd⟩) ?_
    rintro rfl
    exact hN htrue hpN

end Reported

section Start

variable {order : QueueOrder} {A P N : Set ℕ}

theorem ahead_orPart (order : QueueOrder) (lists : List DocIdList) (currDoc : ℕ) :
    Ahead (orPart order lists currDoc) (excludedDocs lists) :=
  .inr (.inl ⟨rfl, (rest_orPart order lists currDoc).symm⟩)

variable (positive : List DocIdList) (connective : Connective)

theorem positiveDocs_subset : positiveDocs positive connective ⊆ excludedDocs positive := by
  cases connective with
  | and =>
    rintro x ⟨hne, hx⟩
    obtain ⟨list, hlist⟩ := List.exists_mem_of_ne_nil positive hne
    exact ⟨list, hlist, hx list hlist⟩
  | or => exact subset_rfl

theorem finite_positiveDocs : (positiveDocs positive connective).Finite := by
  refine (positive.flatMap DocIdList.docs).finite_toSet.subset fun x hx => ?_
  exact List.mem_flatMap.mpr (positiveDocs_subset positive connective hx)

theorem positiveDocs_below : ∀ x ∈ positiveDocs positive connective, x < maxDocId := by
  intro x hx
  obtain ⟨list, -, hmem⟩ := positiveDocs_subset positive connective hx
  exact list.below x hmem

def BooleanIterator.ToCome (A N : Set ℕ) : BooleanIterator order → Prop
  | .and s => SearchManager.ToCome A N s
  | .or s => SearchManager.ToCome A N s

theorem toCome_start (order : QueueOrder) (connective : Connective)
    (positive excluded : List DocIdList) (positiveDoc excludedDoc : ℕ) :
    (start order positive excluded positiveDoc excludedDoc connective).ToCome
      (positiveDocs positive connective) (excludedDocs excluded) := by
  have hstart := walkOk_start order connective positive excluded positiveDoc excludedDoc
  have hbelow := positiveDocs_below positive connective
  have hnot := ahead_orPart order excluded excludedDoc
  have hrest := rest_orPart order excluded excludedDoc
  cases connective with
  | and =>
    refine ⟨.inr (.inl ⟨fun it hit => ?_, (hstart.fresh rfl).symm⟩), hbelow,
      hstart.onTrack.hasNot, fun _ => ⟨hnot, hrest⟩, fun h => absurd h false_ne_true⟩
    obtain ⟨list, -, rfl⟩ := List.mem_map.mp hit
    rfl
  | or =>
    exact ⟨ahead_orPart order positive positiveDoc, hbelow, hstart.onTrack.hasNot,
      fun _ => ⟨hnot, hrest⟩, fun h => absurd h false_ne_true⟩

/-- What is still to come of an AND iterator. -/
theorem stillToCome_and (N : Set ℕ) : StillToCome (σ := BooleanIterator order)
    next doc
    fun b S => ∃ A s, b = .and s ∧ ToCome A N s ∧ S = A \ N where
  nothing := by
    rintro b S ⟨A, s, rfl, h, rfl⟩ hfalse
    obtain ⟨hreported, -⟩ := reported_nextAND h
    exact ⟨hreported.sdiff_eq_empty hfalse, _, s.nextAND.2, rfl, hreported.toCome,
      (sep_sdiff_of_not_found hfalse).symm⟩
  found := by
    rintro b S ⟨A, s, rfl, h, rfl⟩ htrue
    obtain ⟨hreported, hnot⟩ := reported_nextAND h
    exact ⟨hreported.isLeast htrue (hnot htrue), _, s.nextAND.2, rfl, hreported.toCome,
      (sep_sdiff_of_found htrue).symm⟩

/-- In step with the exclusions, an OR iterator does the same. -/
theorem stillToCome_or (hlock : LockStep P N) : StillToCome (σ := BooleanIterator order)
    next doc
    fun b S => ∃ A s, b = .or s ∧ IsUpperPart P A ∧ ToCome A N s ∧ S = A \ N where
  nothing := by
    rintro b S ⟨A, s, rfl, hpart, h, rfl⟩ hfalse
    obtain ⟨hreported, -⟩ := inStep_nextOR h
    exact ⟨hreported.sdiff_eq_empty hfalse, _, s.nextOR.2, rfl, isUpperPart_toCome hpart,
      hreported.toCome, (sep_sdiff_of_not_found hfalse).symm⟩
  found := by
    rintro b S ⟨A, s, rfl, hpart, h, rfl⟩ htrue
    obtain ⟨hreported, hstep⟩ := inStep_nextOR h
    exact ⟨hreported.isLeast htrue (hstep.not_mem hpart hlock htrue), _, s.nextOR.2, rfl,
      isUpperPart_toCome hpart, hreported.toCome, (sep_sdiff_of_found htrue).symm⟩

/-- An OR iterator that reports no excluded document is in step with the exclusions. -/
theorem lockStep_of_yields {docs : List ℕ} (hdocs : ∀ d ∈ docs, d ∉ N)
    {s : NotQuery (ORDocumentIterator order) (ORDocumentIterator order)} (h : ToCome A N s)
    (hyields : Yields next doc docs (.or s)) : LockStep A N := by
  induction docs generalizing A s with
  | nil =>
    obtain ⟨hreported, hstep⟩ := inStep_nextOR h
    have hfalse : s.nextOR.1 = false := hyields 0
    refine hstep.lockStep hreported (fun htrue => ?_) fun x hx => ?_
    · exact absurd (hfalse.symm.trans htrue) false_ne_true
    · exact absurd (hfalse.symm.trans hx.1.2.1) false_ne_true
  | cons d docs ih =>
    obtain ⟨hreported, hstep⟩ := inStep_nextOR h
    obtain ⟨hd, hrest⟩ := List.forall_mem_cons.mp hdocs
    obtain ⟨-, hdoc, hyields⟩ := hyields
    change s.nextOR.2.currDoc = d at hdoc
    exact hstep.lockStep hreported (fun _ => hdoc ▸ hd) (ih hrest hreported.toCome hyields)

end Start

/-- Repeated calls of `next` on an AND iterator report exactly the documents that are in every
positive list and in no excluded one, upwards, and then nothing. -/
theorem nextAND_enumerates (order : QueueOrder) (positive excluded : List DocIdList)
    (positiveDoc excludedDoc : ℕ) : Enumerates next doc
      (positiveDocs positive .and \ excludedDocs excluded)
      (.start order positive excluded positiveDoc excludedDoc .and) :=
  (stillToCome_and (excludedDocs excluded)).enumerates
    ((finite_positiveDocs positive .and).sdiff)
    ⟨_, _, rfl, toCome_start order .and positive excluded positiveDoc excludedDoc, rfl⟩

/-- Repeated calls of `next` on an OR iterator do so exactly when the document after an
excluded one, if it is excluded as well, is the next one that is. -/
theorem nextOR_enumerates_iff (order : QueueOrder) (positive excluded : List DocIdList)
    (positiveDoc excludedDoc : ℕ) : Enumerates next doc
        (positiveDocs positive .or \ excludedDocs excluded)
        (.start order positive excluded positiveDoc excludedDoc .or) ↔
      LockStep (positiveDocs positive .or) (excludedDocs excluded) := by
  have hstart := toCome_start order .or positive excluded positiveDoc excludedDoc
  constructor
  · rintro ⟨docs, -, hmem, hyields⟩
    exact lockStep_of_yields (fun d hd => ((hmem d).mp hd).2) hstart hyields
  · intro hlock
    exact (stillToCome_or hlock).enumerates (finite_positiveDocs positive .or).sdiff
      ⟨_, _, rfl, .refl _, hstart, rfl⟩

def docs15 : DocIdList := ⟨[1, 5], by decide, by decide⟩

def docs145 : DocIdList := ⟨[1, 4, 5], by decide, by decide⟩

/-- The exclusions step from 1 to 4 while the positive part steps from 1 to 5. -/
theorem not_nextOR_enumerates : ¬Enumerates next doc
      (positiveDocs [docs15] .or \ excludedDocs [docs145])
      (.start sortedQueue [docs15] [docs145] 0 0 .or) := by
  rintro ⟨docs, -, hmem, hyields⟩
  have hlock := lockStep_of_yields (fun d hd => ((hmem d).mp hd).2)
    (toCome_start sortedQueue .or [docs15] [docs145] 0 0) hyields
  have hmem15 : ∀ x, x ∈ positiveDocs [docs15] .or ↔ x = 1 ∨ x = 5 := by
    simp [positiveDocs, docs15]
  have hmem145 : ∀ x, x ∈ excludedDocs [docs145] ↔ x = 1 ∨ x = 4 ∨ x = 5 := by
    simp [excludedDocs, docs145]
  have h5 : IsLeast {y ∈ positiveDocs [docs15] .or | 1 < y} 5 := by
    refine ⟨⟨(hmem15 5).mpr (.inr rfl), by decide⟩, ?_⟩
    rintro y ⟨hy, hlt⟩
    rcases (hmem15 y).mp hy with rfl | rfl
    · exact absurd hlt (lt_irrefl 1)
    · exact le_rfl
  have hnext := hlock 1 ⟨(hmem15 1).mpr (.inl rfl), (hmem145 1).mpr (.inl rfl)⟩ 5 h5
    ((hmem145 5).mpr (.inr (.inr rfl)))
  have hle : 5 ≤ 4 := hnext.2 ⟨(hmem145 4).mpr (.inr (.inl rfl)), by decide⟩
  exact absurd hle (by decide)

end AdDelivery.SearchManager
