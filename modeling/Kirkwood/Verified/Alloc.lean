import Mathlib.Logic.Function.Basic

/-!
# Resources lent to clients

Resources carry a mark; a client that wants one gives a kind, and `choose` looks
at the marks for a resource it may have.  A `Table` is the marks together with
what every client holds, which no variable of a program says.  `Change` is what
a correct program does to it: nothing, lend a chosen resource, or take one back.

## Main results

* `Change.exclusive`: a resource has one holder at most, its mark is the kind of
  its holder, and unlent resources are marked free;
* `Change.keeps`: a relation between the marks that `choose` respects is kept.
-/

namespace Kirkwood.Verified.Alloc

universe u v w x

/-- The holders of resources and the marks of resources. -/
structure Table (C : Type u) (R : Type v) (K : Type w) (U : Type x) where
  holder : C → Option (K × R)
  mark : R → U

section
variable {C : Type u} {R : Type v} {K : Type w} {U : Type x}
variable [DecidableEq C] [DecidableEq R]
variable (free : U) (kind : K → U) (choose : (R → U) → K → Option R)

/-- What may become of a table. -/
inductive Change : Table C R K U → Table C R K U → Prop where
  | same (t : Table C R K U) : Change t t
  | get {t : Table C R K U} {c : C} {k : K} {r : R} : t.holder c = none →
      choose t.mark k = some r →
      Change t { holder := Function.update t.holder c (some (k, r))
                 mark := Function.update t.mark r (kind k) }
  | put {t : Table C R K U} {c : C} {k : K} {r : R} : t.holder c = some (k, r) →
      Change t { holder := Function.update t.holder c none
                 mark := Function.update t.mark r free }

/-- One holder a resource, and marks that say who has it. -/
structure Exclusive (t : Table C R K U) : Prop where
  one : ∀ {c d : C} {k l : K} {r : R}, t.holder c = some (k, r) →
    t.holder d = some (l, r) → c = d
  marked : ∀ {c : C} {k : K} {r : R}, t.holder c = some (k, r) → t.mark r = kind k
  owned : ∀ {r : R}, t.mark r ≠ free → ∃ c k, t.holder c = some (k, r)

variable {free kind choose}

omit [DecidableEq C] [DecidableEq R] in
/-- A free resource has no holder. -/
theorem Exclusive.no_holder {t : Table C R K U} (h : Exclusive free kind t)
    (hkind : ∀ k, kind k ≠ free) {r : R} (hr : t.mark r = free) (c : C) (k : K) :
    t.holder c ≠ some (k, r) := by
  intro hc
  have hm := h.marked hc
  rw [hr] at hm
  exact hkind k hm.symm

omit [DecidableEq R] in
/-- What another client holds does not change. -/
private theorem holder_update {holder : C → Option (K × R)} {c d : C}
    {x y : Option (K × R)} (h : Function.update holder c x d = y) :
    (d = c ∧ x = y) ∨ (d ≠ c ∧ holder d = y) := by
  by_cases hdc : d = c
  · subst hdc
    exact .inl ⟨rfl, by rwa [Function.update_self] at h⟩
  · exact .inr ⟨hdc, by rwa [Function.update_of_ne hdc] at h⟩

omit [DecidableEq C] in
/-- The mark of another resource does not change. -/
private theorem mark_update {mark : R → U} {q r : R} {x y : U} (hqr : q ≠ r)
    (h : Function.update mark r x q ≠ y) : mark q ≠ y := by
  rwa [Function.update_of_ne hqr] at h

private theorem get_exclusive {t : Table C R K U} (he : Exclusive free kind t)
    (hkind : ∀ k, kind k ≠ free) {c : C} {k : K} {r : R} (hc : t.holder c = none)
    (hr : t.mark r = free) :
    Exclusive free kind
      { holder := Function.update t.holder c (some (k, r))
        mark := Function.update t.mark r (kind k) } where
  one := by
    intro a b m l q ha hb
    obtain ⟨rfl, heq⟩ | ⟨_, ha'⟩ := holder_update ha
    · cases heq
      obtain ⟨rfl, _⟩ | ⟨_, hb'⟩ := holder_update hb
      · rfl
      · exact absurd hb' (he.no_holder hkind hr b l)
    · obtain ⟨rfl, heq⟩ | ⟨_, hb'⟩ := holder_update hb
      · cases heq
        exact absurd ha' (he.no_holder hkind hr a m)
      · exact he.one ha' hb'
  marked := by
    intro a m q ha
    obtain ⟨rfl, heq⟩ | ⟨_, ha⟩ := holder_update ha
    · cases heq
      exact Function.update_self ..
    · have hne : q ≠ r := fun h => he.no_holder hkind (h ▸ hr) a m ha
      show Function.update t.mark r (kind k) q = kind m
      rw [Function.update_of_ne hne]
      exact he.marked ha
  owned := by
    intro q hq
    by_cases hqr : q = r
    · subst hqr
      exact ⟨c, k, Function.update_self ..⟩
    · have hq : t.mark q ≠ free := mark_update hqr hq
      obtain ⟨a, m, ha⟩ := he.owned hq
      refine ⟨a, m, ?_⟩
      have hne : a ≠ c := fun h => by rw [h, hc] at ha; cases ha
      show Function.update t.holder c _ a = _
      rw [Function.update_of_ne hne, ha]

private theorem put_exclusive {t : Table C R K U} (he : Exclusive free kind t)
    {c : C} {k : K} {r : R} (hc : t.holder c = some (k, r)) :
    Exclusive free kind
      { holder := Function.update t.holder c none
        mark := Function.update t.mark r free } where
  one := by
    intro a b m l q ha hb
    obtain ⟨_, heq⟩ | ⟨_, ha⟩ := holder_update ha
    · cases heq
    · obtain ⟨_, heq⟩ | ⟨_, hb⟩ := holder_update hb
      · cases heq
      · exact he.one ha hb
  marked := by
    intro a m q ha
    obtain ⟨_, heq⟩ | ⟨hne, ha⟩ := holder_update ha
    · cases heq
    · have hqr : q ≠ r := fun h => hne (he.one (h ▸ ha) hc)
      show Function.update t.mark r free q = kind m
      rw [Function.update_of_ne hqr]
      exact he.marked ha
  owned := by
    intro q hq
    by_cases hqr : q = r
    · subst hqr
      exact absurd (Function.update_self ..) hq
    · have hq : t.mark q ≠ free := mark_update hqr hq
      obtain ⟨a, m, ha⟩ := he.owned hq
      refine ⟨a, m, ?_⟩
      have hne : a ≠ c := fun h => by
        rw [h, hc] at ha
        cases ha
        exact hqr rfl
      show Function.update t.holder c _ a = _
      rw [Function.update_of_ne hne, ha]

/-- Where only free resources are chosen, every change keeps the table
exclusive. -/
theorem Change.exclusive {t t' : Table C R K U} (h : Change free kind choose t t')
    (hfree : ∀ m k r, choose m k = some r → m r = free)
    (hkind : ∀ k, kind k ≠ free) (he : Exclusive free kind t) :
    Exclusive free kind t' := by
  cases h with
  | same => exact he
  | get hc hr => exact get_exclusive he hkind hc (hfree _ _ _ hr)
  | put hc => exact put_exclusive he hc

/-- A relation between the marks that lending a chosen resource and freeing one
keep. -/
theorem Change.keeps {Q : (R → U) → Prop} {t t' : Table C R K U}
    (h : Change free kind choose t t')
    (hget : ∀ m k r, Q m → choose m k = some r → Q (Function.update m r (kind k)))
    (hput : ∀ m r, Q m → Q (Function.update m r free)) (hq : Q t.mark) :
    Q t'.mark := by
  cases h with
  | same => exact hq
  | get _ hr => exact hget _ _ _ hq hr
  | put _ => exact hput _ _ hq

end

end Kirkwood.Verified.Alloc
