import Mathlib.Logic.Basic

/-!
# Runs of a partial step function

A system is a step function `step : σ → α → Option σ`: the action `a` is
enabled in `s` when `step s a` is `some`.  `Reach` collects the states of all
runs whose steps satisfy a guard, `run` executes one list of actions.  The two
induction rules of the file are the only ones the systems of this development
use.

## Main results

* `Reach.invariant`: a property that the initial states have and every guarded
  step keeps holds in every state reached;
* `allStates_iff_allSteps`: where the steps that keep a property are those that
  meet a condition, a run has the property throughout exactly when all its
  steps meet the condition;
* `allSteps_iff_allSteps`: the same for two conditions on the steps;
* `Reach.of_run`: a run of actions, as evidence that a state is reached.
-/

namespace Kirkwood.Verified.Trans

universe u v

variable {σ : Type u} {α : Type v}

/-- The states of the runs that start in `init` and whose steps meet `guard`. -/
inductive Reach (step : σ → α → Option σ) (guard : σ → α → Prop)
    (init : σ → Prop) : σ → Prop where
  | start {s : σ} : init s → Reach step guard init s
  | next {s s' : σ} {a : α} : Reach step guard init s → guard s a →
      step s a = some s' → Reach step guard init s'

/-- No condition on the steps. -/
def Free (_ : σ) (_ : α) : Prop := True

instance (s : σ) (a : α) : Decidable (Free s a) := isTrue trivial

section
variable {step : σ → α → Option σ} {guard : σ → α → Prop}
variable {init P : σ → Prop}

theorem Reach.invariant (hinit : ∀ s, init s → P s)
    (hstep : ∀ s a s', P s → guard s a → step s a = some s' → P s')
    {s : σ} (h : Reach step guard init s) : P s := by
  induction h with
  | start h => exact hinit _ h
  | next _ hg hs ih => exact hstep _ _ _ ih hg hs

end

/-- The state after a list of actions, if every one of them is enabled. -/
def run (step : σ → α → Option σ) : σ → List α → Option σ
  | s, [] => some s
  | s, a :: as =>
      match step s a with
      | none => none
      | some s' => run step s' as

/-- The property holds in every state of the run. -/
def AllStates (step : σ → α → Option σ) (P : σ → Prop) : σ → List α → Prop
  | s, [] => P s
  | s, a :: as => P s ∧
      match step s a with
      | none => True
      | some s' => AllStates step P s' as

/-- The condition holds of every step of the run. -/
def AllSteps (step : σ → α → Option σ) (guard : σ → α → Prop) :
    σ → List α → Prop
  | _, [] => True
  | s, a :: as =>
      match step s a with
      | none => True
      | some s' => guard s a ∧ AllSteps step guard s' as

instance decidableAllSteps (step : σ → α → Option σ) (guard : σ → α → Prop)
    [∀ s a, Decidable (guard s a)] :
    (s : σ) → (as : List α) → Decidable (AllSteps step guard s as)
  | _, [] => isTrue trivial
  | s, a :: as => by
      unfold AllSteps
      cases step s a with
      | none => exact isTrue trivial
      | some s' =>
          have := decidableAllSteps step guard s' as
          exact inferInstanceAs (Decidable (guard s a ∧ _))

section
variable {step : σ → α → Option σ} {guard : σ → α → Prop}
variable {init P : σ → Prop}

@[simp] theorem run_nil (s : σ) : run step s [] = some s := rfl

theorem run_cons {s s' : σ} {a : α} (as : List α) (h : step s a = some s') :
    run step s (a :: as) = run step s' as := by
  simp only [run, h]

theorem run_append {s s' : σ} (as bs : List α) (h : run step s as = some s') :
    run step s (as ++ bs) = run step s' bs := by
  induction as generalizing s with
  | nil =>
      cases h
      rfl
  | cons a as ih =>
      cases hs : step s a with
      | none => simp [run, hs] at h
      | some t =>
          rw [run_cons as hs] at h
          rw [List.cons_append, run_cons _ hs]
          exact ih h

/-- A run of guarded steps from a state reached ends in a state reached. -/
theorem Reach.of_run {s s' : σ} (as : List α) (h0 : Reach step guard init s)
    (hg : AllSteps step guard s as) (hr : run step s as = some s') :
    Reach step guard init s' := by
  induction as generalizing s with
  | nil =>
      cases hr
      exact h0
  | cons a as ih =>
      cases hs : step s a with
      | none => simp [run, hs] at hr
      | some t =>
          simp only [AllSteps, hs] at hg
          rw [run_cons as hs] at hr
          exact ih (.next h0 hg.1 hs) hg.2 hr

theorem allSteps_free (s : σ) (as : List α) : AllSteps step Free s as := by
  induction as generalizing s with
  | nil => trivial
  | cons a as ih =>
      unfold AllSteps
      cases step s a with
      | none => trivial
      | some t => exact ⟨trivial, ih t⟩

/-- A run without a condition. -/
theorem Reach.of_run_free {s s' : σ} (as : List α) (h0 : Reach step Free init s)
    (hr : run step s as = some s') : Reach step Free init s' :=
  h0.of_run as (allSteps_free s as) hr

/-- The last state of a run is one of its states. -/
theorem AllStates.last {s s' : σ} (as : List α) (hall : AllStates step P s as)
    (hr : run step s as = some s') : P s' := by
  induction as generalizing s with
  | nil =>
      cases hr
      exact hall
  | cons a as ih =>
      cases hs : step s a with
      | none => simp [run, hs] at hr
      | some t =>
          rw [run_cons as hs] at hr
          simp only [AllStates, hs] at hall
          exact ih hall.2 hr

/-- Guarded steps keep `I`, and with it meet `Q`. -/
theorem AllSteps.imp {I : σ → Prop} {Q : σ → α → Prop}
    (hkeep : ∀ s a s', I s → guard s a → step s a = some s' → I s')
    (himp : ∀ s a s', I s → guard s a → step s a = some s' → Q s a) {s : σ} (as : List α)
    (h : I s) (hall : AllSteps step guard s as) : AllSteps step Q s as := by
  induction as generalizing s with
  | nil => trivial
  | cons a as ih =>
      cases hs : step s a with
      | none => simp only [AllSteps, hs]
      | some t =>
          simp only [AllSteps, hs] at hall ⊢
          exact ⟨himp s a t h hall.1 hs, ih (hkeep s a t h hall.1 hs) hall.2⟩

/-- Where guarded steps keep `I`, and with `I` the steps that meet `Q` are the guarded
ones, so are the runs. -/
theorem allSteps_iff_allSteps {I : σ → Prop} {Q : σ → α → Prop}
    (hkeep : ∀ s a s', I s → guard s a → step s a = some s' → I s')
    (hiff : ∀ s a s', I s → step s a = some s' → (Q s a ↔ guard s a)) {s : σ}
    (as : List α) (h : I s) : AllSteps step Q s as ↔ AllSteps step guard s as := by
  induction as generalizing s with
  | nil => exact Iff.rfl
  | cons a as ih =>
      cases hs : step s a with
      | none => simp only [AllSteps, hs]
      | some t =>
          simp only [AllSteps, hs]
          constructor
          · intro hall
            have hg : guard s a := (hiff s a t h hs).1 hall.1
            exact ⟨hg, (ih (hkeep s a t h hg hs)).1 hall.2⟩
          · intro hall
            exact ⟨(hiff s a t h hs).2 hall.1, (ih (hkeep s a t h hall.1 hs)).2 hall.2⟩

/-- The condition holds of the step that follows a run. -/
theorem AllSteps.last {s t t' : σ} {a : α} (as : List α)
    (hall : AllSteps step guard s (as ++ [a])) (hr : run step s as = some t)
    (hs : step t a = some t') : guard t a := by
  induction as generalizing s with
  | nil =>
      cases hr
      simp only [List.nil_append, AllSteps, hs] at hall
      exact hall.1
  | cons b as ih =>
      cases hb : step s b with
      | none => simp [run, hb] at hr
      | some u =>
          rw [run_cons as hb] at hr
          simp only [List.cons_append, AllSteps, hb] at hall
          exact ih hall.2 hr

/-- An invariant of all steps holds in every state of a run. -/
theorem AllStates.of_invariant {I : σ → Prop} (hP : ∀ s, I s → P s)
    (hkeep : ∀ s a s', I s → step s a = some s' → I s') {s : σ} (as : List α)
    (h : I s) : AllStates step P s as := by
  induction as generalizing s with
  | nil => exact hP s h
  | cons a as ih =>
      cases hs : step s a with
      | none => simp only [AllStates, hs, hP s h, and_self]
      | some t =>
          simp only [AllStates, hs]
          exact ⟨hP s h, ih (hkeep s a t h hs)⟩

/-- Let `I` imply `P`, and let guarded steps keep `I`, and steps that keep `P`
be guarded.  Then a run keeps `P` throughout exactly when all its steps are
guarded. -/
theorem allStates_iff_allSteps {I : σ → Prop} (hP : ∀ s, I s → P s)
    (hkeep : ∀ s a s', I s → guard s a → step s a = some s' → I s')
    (honly : ∀ s a s', I s → step s a = some s' → P s' → guard s a)
    {s : σ} (as : List α) (h : I s) :
    AllStates step P s as ↔ AllSteps step guard s as := by
  induction as generalizing s with
  | nil => exact ⟨fun _ => trivial, fun _ => hP s h⟩
  | cons a as ih =>
      cases hs : step s a with
      | none => simp only [AllStates, AllSteps, hs, hP s h, and_self]
      | some t =>
          simp only [AllStates, AllSteps, hs]
          constructor
          · intro hall
            have hPt : P t := by
              cases as with
              | nil => exact hall.2
              | cons b bs => exact hall.2.1
            have hg : guard s a := honly s a t h hs hPt
            exact ⟨hg, (ih (hkeep s a t h hg hs)).1 hall.2⟩
          · intro hall
            exact ⟨hP s h, (ih (hkeep s a t h hall.1 hs)).2 hall.2⟩

/-- The case where `P` is itself what the steps keep. -/
theorem allStates_iff_allSteps_self
    (hstep : ∀ s a s', P s → step s a = some s' → (P s' ↔ guard s a))
    {s : σ} (as : List α) (h : P s) :
    AllStates step P s as ↔ AllSteps step guard s as :=
  allStates_iff_allSteps (fun _ h => h)
    (fun s a s' hP hg hs => (hstep s a s' hP hs).2 hg)
    (fun s a s' hP hs hP' => (hstep s a s' hP hs).1 hP') as h

end

end Kirkwood.Verified.Trans
