import Mathlib.Logic.Basic

/-!
# Triples for routines that return or raise, and leave a state either way

`Triple P x Q R`: from a state with `P`, `x` returns `a` in a state with `Q a`, or
raises `e` in a state with `R e`.

## Main results

* `Triple.pure`, `Triple.bind`, `Triple.conseq`, `Triple.weaken`, `Triple.exists`,
  `Triple.fact`, `Triple.ite`, `Triple.throw`, `Triple.get`, `Triple.modify`: the rules for
  the constructs of a program;
* `Triple.foldlM`: a loop over a list keeps a property of the elements done;
* `Triple.eval`, `Triple.of_ok`, `Triple.of_error`: from one state, where what a routine
  does there is known;
* `raises_bind`, `not_raises_foldlM`: where an exception comes from.
-/

namespace Kirkwood.Verified.Hoare

universe u

variable {ε σ α β : Type u}

def Triple (P : σ → Prop) (x : EStateM ε σ α) (Q : α → σ → Prop) (R : ε → σ → Prop) :
    Prop :=
  ∀ s, P s →
    match x s with
    | .ok a s' => Q a s'
    | .error e s' => R e s'

section
variable {P P' : σ → Prop} {Q Q' : α → σ → Prop} {S : β → σ → Prop} {R : ε → σ → Prop}
variable {x : EStateM ε σ α} {f : α → EStateM ε σ β}

theorem Triple.pure {a : α} (h : ∀ s, P s → Q a s) :
    Triple P (Pure.pure a : EStateM ε σ α) Q R :=
  h

theorem Triple.bind (hx : Triple P x Q R) (hf : ∀ a, Triple (Q a) (f a) S R) :
    Triple P (x >>= f) S R := by
  intro s hs
  have hfirst := hx s hs
  show match EStateM.bind x f s with
    | .ok b s' => S b s'
    | .error e s' => R e s'
  unfold EStateM.bind
  cases hxs : x s with
  | ok a s' =>
      rw [hxs] at hfirst
      exact hf a s' hfirst
  | error e s' =>
      rw [hxs] at hfirst
      exact hfirst

theorem Triple.conseq (h : Triple P x Q R) (hP : ∀ s, P' s → P s)
    (hQ : ∀ a s, Q a s → Q' a s) : Triple P' x Q' R := by
  intro s hs
  have hrun := h s (hP s hs)
  cases hxs : x s with
  | ok a s' =>
      rw [hxs] at hrun
      exact hQ a s' hrun
  | error e s' =>
      rw [hxs] at hrun
      exact hrun

/-- A weaker property of what is raised. -/
theorem Triple.weaken {R' : ε → σ → Prop} (h : Triple P x Q R)
    (hR : ∀ e s, R e s → R' e s) : Triple P x Q R' := by
  intro s hs
  have hrun := h s hs
  cases hxs : x s with
  | ok a s' =>
      rw [hxs] at hrun
      exact hrun
  | error e s' =>
      rw [hxs] at hrun
      exact hR e s' hrun

theorem Triple.exists {γ : Sort*} {P : γ → σ → Prop} (h : ∀ c, Triple (P c) x Q R) :
    Triple (fun s => ∃ c, P c s) x Q R := by
  rintro s ⟨c, hs⟩
  exact h c s hs

/-- A fact that does not depend on the state. -/
theorem Triple.fact {φ : Prop} (h : φ → Triple P x Q R) :
    Triple (fun s => P s ∧ φ) x Q R :=
  fun s hs => h hs.2 s hs.1

theorem Triple.ite {c : Prop} [Decidable c] {y : EStateM ε σ α}
    (hx : c → Triple P x Q R) (hy : ¬ c → Triple P y Q R) :
    Triple P (if c then x else y) Q R := by
  by_cases hc : c
  · rw [if_pos hc]
    exact hx hc
  · rw [if_neg hc]
    exact hy hc

theorem Triple.throw {e : ε} (h : ∀ s, P s → R e s) :
    Triple P (throw e : EStateM ε σ α) Q R :=
  h

end

section
variable {σ ε : Type u} {β : Type u} {P : σ → Prop} {R : ε → σ → Prop}

/-- What is done with the state of now. -/
theorem Triple.get {f : σ → EStateM ε σ β} {S : β → σ → Prop}
    (h : ∀ s, Triple (fun s' => P s' ∧ s' = s) (f s) S R) : Triple P (get >>= f) S R :=
  fun s hs => h s s ⟨hs, rfl⟩

end

section
variable {σ ε : Type} {β : Type} {P : σ → Prop} {R : ε → σ → Prop}

theorem Triple.modify {g : σ → σ} {f : Unit → EStateM ε σ β} {Q : σ → Prop}
    {S : β → σ → Prop} (hg : ∀ s, P s → Q (g s)) (h : Triple Q (f ()) S R) :
    Triple P (modify g >>= f) S R :=
  fun s hs => h (g s) (hg s hs)

end

/-! ## From one state -/

section
variable {S : β → σ → Prop} {Q : α → σ → Prop} {R : ε → σ → Prop}
variable {x : EStateM ε σ α} {f : α → EStateM ε σ β} {s s' : σ} {a : α} {e : ε}

theorem bind_ok (h : x s = .ok a s') : (x >>= f) s = f a s' := by
  show EStateM.bind x f s = f a s'
  rw [EStateM.bind, h]

theorem bind_error (h : x s = .error e s') : (x >>= f) s = .error e s' := by
  show EStateM.bind x f s = .error e s'
  rw [EStateM.bind, h]

/-- What is done first makes up for the difference between two states. -/
theorem bind_same (h : x s = x s') : (x >>= f) s = (x >>= f) s' := by
  show EStateM.bind x f s = EStateM.bind x f s'
  rw [EStateM.bind, EStateM.bind, h]

theorem Triple.eval (h : x s = .ok a s') (hf : Triple (· = s') (f a) S R) :
    Triple (· = s) (x >>= f) S R := by
  rintro _ rfl
  rw [bind_ok h]
  exact hf s' rfl

theorem Triple.of_ok (h : x s = .ok a s') (hQ : Q a s') : Triple (· = s) x Q R := by
  rintro _ rfl
  rw [h]
  exact hQ

theorem Triple.of_error (h : x s = .error e s') (hR : R e s') : Triple (· = s) x Q R := by
  rintro _ rfl
  rw [h]
  exact hR

end

section
variable {γ : Type*} {f : β → γ → EStateM ε σ β} {motive : List γ → β → σ → Prop}
variable {R : ε → σ → Prop}

private theorem foldlM_from (all l done : List γ) (hall : done ++ l = all)
    (hstep : ∀ done a rest b, done ++ a :: rest = all →
      Triple (motive done b) (f b a) (motive (done ++ [a])) R) (b : β) :
    Triple (motive done b) (l.foldlM f b) (motive all) R := by
  induction l generalizing done b with
  | nil =>
      rw [← hall, List.append_nil]
      exact Triple.pure fun _ h => h
  | cons a l ih =>
      rw [List.foldlM_cons]
      refine (hstep done a l b hall).bind fun b' => ?_
      exact ih (done ++ [a]) (by rw [List.append_assoc]; exact hall) b'

/-- A property of the elements done, the value built and the state. -/
theorem Triple.foldlM (l : List γ)
    (hstep : ∀ done a rest b, done ++ a :: rest = l →
      Triple (motive done b) (f b a) (motive (done ++ [a])) R) (b : β) :
    Triple (motive [] b) (l.foldlM f b) (motive l) R :=
  foldlM_from l l [] rfl hstep b

end

/-! ## Where an exception comes from -/

/-- From `s`, `x` raises `e`. -/
def Raises (x : EStateM ε σ α) (e : ε) (s : σ) : Prop := ∃ s', x s = .error e s'

section
variable {x : EStateM ε σ α} {f : α → EStateM ε σ β} {s s' : σ} {a : α} {e : ε}

theorem raises_bind :
    Raises (x >>= f) e s ↔ Raises x e s ∨ ∃ a s', x s = .ok a s' ∧ Raises (f a) e s' := by
  cases hx : x s with
  | ok a s' =>
      have hfirst : ¬ Raises x e s := by
        rintro ⟨s1, h⟩
        exact nomatch hx.symm.trans h
      unfold Raises
      rw [bind_ok hx, ← Raises, ← Raises, or_iff_right hfirst]
      constructor
      · exact fun h => ⟨a, s', rfl, h⟩
      · rintro ⟨a, s', ⟨⟩, h⟩
        exact h
  | error e' s' =>
      have hrest : ¬ ∃ a s1, EStateM.Result.error e' s' = .ok a s1 ∧ Raises (f a) e s1 :=
        nofun
      unfold Raises at hrest ⊢
      rw [bind_error hx, or_iff_left hrest, hx]
      constructor
      · rintro ⟨s1, ⟨⟩⟩
        exact ⟨_, rfl⟩
      · rintro ⟨s1, ⟨⟩⟩
        exact ⟨_, rfl⟩

theorem raises_bind_ok (h : x s = .ok a s') :
    Raises (x >>= f) e s ↔ Raises (f a) e s' := by
  unfold Raises
  rw [bind_ok h]

end

section
variable {γ : Type*} {f : β → γ → EStateM ε σ β}

/-- Every turn that a loop comes to meets the condition. -/
def EachTurn (f : β → γ → EStateM ε σ β) (C : β → γ → σ → Prop) : List γ → β → σ → Prop
  | [], _, _ => True
  | a :: l, b, s => C b a s ∧ ∀ b' s', f b a s = .ok b' s' → EachTurn f C l b' s'

theorem EachTurn.congr {C C' : β → γ → σ → Prop} (h : ∀ b a s, C b a s ↔ C' b a s)
    (l : List γ) (b : β) (s : σ) : EachTurn f C l b s ↔ EachTurn f C' l b s := by
  induction l generalizing b s with
  | nil => exact Iff.rfl
  | cons a l ih => simp only [EachTurn, h, ih]

/-- A loop does not raise what none of its turns raises. -/
theorem not_raises_foldlM {e : ε} (l : List γ) (b : β) (s : σ) :
    ¬ Raises (l.foldlM f b) e s ↔ EachTurn f (fun b a s => ¬ Raises (f b a) e s) l b s := by
  induction l generalizing b s with
  | nil => exact iff_of_true nofun trivial
  | cons a l ih =>
      rw [List.foldlM_cons, raises_bind, not_or, EachTurn]
      simp only [not_exists, not_and, ih]

end

end Kirkwood.Verified.Hoare
