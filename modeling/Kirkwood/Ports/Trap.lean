import Kirkwood.Verified.Mask
import Kirkwood.Verified.Trans

/-!
# Registration of interrupt handlers

`trap.c` keeps, for each of the three interrupt controllers, a table of handlers
and the mask register of the controller.  `intrenable` installs a handler and
then sets its mask bit, `intrdisable` removes a handler and then clears the bit;
both do so under `irqlock`, so that each call is one step.

The bit of a vector should be set exactly while a handler is installed for it.
`intrdisable` does not look at what `intrdel` did: where the handler installed is
not the one named, `intrdel` leaves it in place and the bit is cleared all the
same.

## Main results

* `step_agree_iff`: a call keeps masks and handlers in agreement exactly when it
  meets `Proper`;
* `run_masks_iff`: the same over runs from what `trapinit` leaves;
* `mismatch_masks`: a call that names another handler masks the one installed.
-/

namespace Kirkwood.Ports.Trap

open Kirkwood.Verified
open Kirkwood.Verified.Trans

/-! ## The code -/

/-- The three controllers, as `irqs` is indexed. -/
inductive Irqsort where
  | Irqlo
  | Irqhi
  | Irqbridge
deriving DecidableEq, Repr

/-- The bytes of a C string, in front of the NUL that ends it. -/
abbrev CString := { s : List UInt8 // 0 ∉ s }

def KNAMELEN : Nat := 28

def IRQ0sum : Fin 32 := 0
def IRQ0bridge : Fin 32 := 1

/-- What `strncpy` with a bound and the NUL stored behind it keep. -/
def strncpy (name : CString) (n : Nat) : CString :=
  ⟨name.val.take n, fun h => name.property (List.mem_of_mem_take h)⟩

/-- `Handler`, with the functions of type `F` and the arguments of type `A`;
`none` is nil. -/
structure Handler (F A : Type) where
  r : Option F
  a : Option A
  name : CString

/-- The handlers and the mask register of every controller. -/
structure Irqs (F A : Type) where
  irqvec : Irqsort → Fin 32 → Handler F A
  irqmask : Irqsort → BitVec 32

variable {F A : Type}

namespace Irqs

/-- `irqs[sort].irqvec[v] = h` -/
def sethandler (s : Irqs F A) (sort : Irqsort) (v : Fin 32) (h : Handler F A) :
    Irqs F A :=
  { s with irqvec := fun sort' v' =>
      if sort' = sort ∧ v' = v then h else s.irqvec sort' v' }

/-- `*irqs[sort].irqmask = m` -/
def setmask (s : Irqs F A) (sort : Irqsort) (m : BitVec 32) : Irqs F A :=
  { s with irqmask := fun sort' => if sort' = sort then m else s.irqmask sort' }

/-- `intrmask`. -/
def intrmask (s : Irqs F A) (sort : Irqsort) (v : Fin 32) : Irqs F A :=
  s.setmask sort (Mask.clear (s.irqmask sort) v)

/-- `intrunmask`. -/
def intrunmask (s : Irqs F A) (sort : Irqsort) (v : Fin 32) : Irqs F A :=
  s.setmask sort (Mask.set (s.irqmask sort) v)

end Irqs

/-- `intrset`: `none` is the panic "duplicate irq". -/
def intrset (h : Handler F A) (f : Option F) (a : Option A) (name : CString) :
    Option (Handler F A) :=
  if h.r.isSome then none
  else some { r := f, a := a, name := strncpy name (KNAMELEN - 1) }

/-- `intrunset`. -/
def intrunset : Handler F A := { r := none, a := none, name := ⟨[], nofun⟩ }

/-- The handler is the one named; `intrdel` tests for the opposite. -/
def Handler.Matches (h : Handler F A) (f : Option F) (a : Option A)
    (name : CString) : Prop :=
  h.r = f ∧ h.a = a ∧ h.name = name

instance [DecidableEq F] [DecidableEq A] (h : Handler F A) (f : Option F)
    (a : Option A) (name : CString) : Decidable (h.Matches f a name) :=
  inferInstanceAs (Decidable (h.r = f ∧ h.a = a ∧ h.name = name))

/-- `intrenable`. -/
def intrenable (s : Irqs F A) (sort : Irqsort) (v : Fin 32) (f : Option F)
    (a : Option A) (name : CString) : Option (Irqs F A) :=
  match intrset (s.irqvec sort v) f a name with
  | none => none
  | some h => some ((s.sethandler sort v h).intrunmask sort v)

/-- The statements of `trapinit` on handlers and masks. -/
def trapinit (intrhi intrbridge : F) (_ : Irqs F A) : Option (Irqs F A) :=
  let s : Irqs F A := { irqvec := fun _ _ => intrunset, irqmask := fun _ => 0 }
  match intrenable s .Irqlo IRQ0sum (some intrhi) none ⟨[104, 105], by decide⟩ with
  | none => none
  | some s =>
    intrenable s .Irqlo IRQ0bridge (some intrbridge) none
      ⟨[98, 114, 105, 100, 103, 101], by decide⟩

/-- A call of one of the two functions. -/
inductive Call (F A : Type) where
  | enable (sort : Irqsort) (v : Fin 32) (f : Option F) (a : Option A)
      (name : CString)
  | disable (sort : Irqsort) (v : Fin 32) (f : Option F) (a : Option A)
      (name : CString)

section
variable [DecidableEq F] [DecidableEq A]

/-- `intrdel`. -/
def intrdel (h : Handler F A) (f : Option F) (a : Option A) (name : CString) :
    Handler F A :=
  if h.Matches f a name then intrunset else h

/-- `intrdisable`, with the 0 it returns. -/
def intrdisable (s : Irqs F A) (sort : Irqsort) (v : Fin 32) (f : Option F)
    (a : Option A) (name : CString) : Irqs F A × Int :=
  ((s.sethandler sort v (intrdel (s.irqvec sort v) f a name)).intrmask sort v, 0)

/-- One call; `none` is a panic. -/
def step (s : Irqs F A) : Call F A → Option (Irqs F A)
  | .enable sort v f a name => intrenable s sort v f a name
  | .disable sort v f a name => some (intrdisable s sort v f a name).1

end

/-! ## What the tables promise -/

/-- A handler is installed for the vector. -/
def Installed (s : Irqs F A) (sort : Irqsort) (v : Fin 32) : Prop :=
  (s.irqvec sort v).r ≠ none

instance (s : Irqs F A) (sort : Irqsort) (v : Fin 32) :
    Decidable (Installed s sort v) :=
  inferInstanceAs (Decidable ((s.irqvec sort v).r ≠ none))

/-- A mask bit is set exactly where a handler is installed. -/
def Agree (s : Irqs F A) : Prop :=
  ∀ sort (v : Fin 32), (s.irqmask sort).getLsbD v = true ↔ Installed s sort v

/-- The call installs a function, or names the handler installed if there is
one. -/
def Proper (s : Irqs F A) : Call F A → Prop
  | .enable _ _ f _ _ => f ≠ none
  | .disable sort v f a name =>
    Installed s sort v → (s.irqvec sort v).Matches f a name

/-- A call of `intrdisable` that does not name the handler of its vector changes
no handler and no mask. -/
def Refused [DecidableEq F] [DecidableEq A] (s : Irqs F A) : Call F A → Prop
  | .enable .. => True
  | .disable sort v f a name => ¬ (s.irqvec sort v).Matches f a name →
      (intrdisable s sort v f a name).1 = s

/-! ## One call -/

private theorem irqs_ext {s t : Irqs F A}
    (hvec : ∀ sort v, s.irqvec sort v = t.irqvec sort v)
    (hmask : ∀ sort, s.irqmask sort = t.irqmask sort) : s = t := by
  cases s
  cases t
  congr 1
  · funext sort v
    exact hvec sort v
  · funext sort
    exact hmask sort

/-- A call that leaves the vector with handler `h` and its bit as `b` keeps the
agreement exactly when the two say the same. -/
private theorem agree_write_iff {s t : Irqs F A} {sort : Irqsort} {v : Fin 32}
    {h : Handler F A} {b : Bool} (hagree : Agree s)
    (hvec : ∀ sort' v', t.irqvec sort' v' =
      if sort' = sort ∧ v' = v then h else s.irqvec sort' v')
    (hmask : ∀ sort' (v' : Fin 32), (t.irqmask sort').getLsbD v' =
      if sort' = sort ∧ v' = v then b else (s.irqmask sort').getLsbD v') :
    Agree t ↔ (b = true ↔ h.r ≠ none) := by
  constructor
  · intro ht
    have hv := ht sort v
    rw [Installed, hvec, hmask, if_pos ⟨rfl, rfl⟩, if_pos ⟨rfl, rfl⟩] at hv
    exact hv
  · intro hb sort' v'
    rw [Installed, hvec, hmask]
    by_cases hsame : sort' = sort ∧ v' = v
    · rw [if_pos hsame, if_pos hsame]
      exact hb
    · rw [if_neg hsame, if_neg hsame]
      exact hagree sort' v'

private theorem setmask_bit (s : Irqs F A) (sort : Irqsort) (v : Fin 32)
    (m : BitVec 32) (b : Bool) (sort' : Irqsort) (v' : Fin 32)
    (hm : ∀ u : Fin 32, m.getLsbD u =
      if u = v then b else (s.irqmask sort).getLsbD u) :
    ((s.setmask sort m).irqmask sort').getLsbD v' =
      if sort' = sort ∧ v' = v then b else (s.irqmask sort').getLsbD v' := by
  show (if sort' = sort then m else s.irqmask sort').getLsbD v' = _
  by_cases hsort : sort' = sort
  · rw [if_pos hsort, hm, hsort]
    by_cases hv : v' = v
    · rw [if_pos hv, if_pos ⟨rfl, hv⟩]
    · rw [if_neg hv, if_neg fun h => hv h.2]
  · rw [if_neg hsort, if_neg fun h => hsort h.1]

/-- What `intrenable` does when it does not panic. -/
theorem intrenable_did {s t : Irqs F A} {sort : Irqsort} {v : Fin 32}
    {f : Option F} {a : Option A} {name : CString}
    (h : intrenable s sort v f a name = some t) :
    (s.irqvec sort v).r = none ∧
      (∀ sort' v', t.irqvec sort' v' = if sort' = sort ∧ v' = v
        then { r := f, a := a, name := strncpy name (KNAMELEN - 1) }
        else s.irqvec sort' v') ∧
      ∀ sort' (v' : Fin 32), (t.irqmask sort').getLsbD v' =
        if sort' = sort ∧ v' = v then true else (s.irqmask sort').getLsbD v' := by
  unfold intrenable intrset at h
  cases hr : (s.irqvec sort v).r with
  | some g => simp [hr] at h
  | none =>
      simp only [hr, Option.isSome_none, Bool.false_eq_true, if_false,
        Option.some.injEq] at h
      subst h
      refine ⟨rfl, fun _ _ => rfl, fun sort' v' => ?_⟩
      refine setmask_bit _ sort v _ true sort' v' fun u => ?_
      rw [Mask.getLsbD_set]
      by_cases hu : u = v <;> simp [hu]

section
variable [DecidableEq F] [DecidableEq A]

/-- What `intrdisable` does. -/
theorem intrdisable_did (s : Irqs F A) (sort : Irqsort) (v : Fin 32)
    (f : Option F) (a : Option A) (name : CString) :
    (∀ sort' v', (intrdisable s sort v f a name).1.irqvec sort' v' =
      if sort' = sort ∧ v' = v then intrdel (s.irqvec sort v) f a name
        else s.irqvec sort' v') ∧
      ∀ sort' (v' : Fin 32),
        ((intrdisable s sort v f a name).1.irqmask sort').getLsbD v' =
          if sort' = sort ∧ v' = v then false else (s.irqmask sort').getLsbD v' := by
  refine ⟨fun _ _ => rfl, fun sort' v' => ?_⟩
  refine setmask_bit _ sort v _ false sort' v' fun u => ?_
  rw [Mask.getLsbD_clear]
  by_cases hu : u = v <;> simp [hu]

/-- A call that does not panic keeps masks and handlers in agreement exactly when
it is proper. -/
theorem step_agree_iff {s t : Irqs F A} {c : Call F A} (hs : Agree s)
    (h : step s c = some t) : Agree t ↔ Proper s c := by
  cases c with
  | enable sort v f a name =>
      obtain ⟨_, hvec, hmask⟩ := intrenable_did h
      rw [agree_write_iff hs hvec hmask]
      simp only [Proper, ne_eq, true_iff]
  | disable sort v f a name =>
      cases h
      obtain ⟨hvec, hmask⟩ := intrdisable_did s sort v f a name
      rw [agree_write_iff hs hvec hmask]
      simp only [Proper, Bool.false_eq_true, false_iff, ne_eq, not_not, intrdel]
      by_cases hm : (s.irqvec sort v).Matches f a name
      · rw [if_pos hm]
        exact iff_of_true rfl fun _ => hm
      · rw [if_neg hm]
        constructor
        · intro hnone hinst
          exact absurd hnone hinst
        · intro hproper
          by_contra hinst
          exact hm (hproper hinst)

/-- A proper `intrdisable` that does not name the handler finds none, and changes
nothing. -/
theorem refused_of_proper {s : Irqs F A} {c : Call F A} (hs : Agree s)
    (h : Proper s c) : Refused s c := by
  cases c with
  | enable sort v f a name => trivial
  | disable sort v f a name =>
      intro hm
      have hclear : (s.irqmask sort).getLsbD v = false := by
        cases hbit : (s.irqmask sort).getLsbD v with
        | false => rfl
        | true => exact absurd (h ((hs sort v).1 hbit)) hm
      obtain ⟨hvec, hmask⟩ := intrdisable_did s sort v f a name
      apply irqs_ext
      · intro sort' v'
        rw [hvec, intrdel, if_neg hm]
        by_cases hsame : sort' = sort ∧ v' = v
        · rw [if_pos hsame, hsame.1, hsame.2]
        · rw [if_neg hsame]
      · intro sort'
        apply Mask.ext_bits
        intro v'
        rw [hmask]
        by_cases hsame : sort' = sort ∧ v' = v
        · rw [if_pos hsame, hsame.1, hsame.2, hclear]
        · rw [if_neg hsame]

/-! ## Runs from boot -/

/-- `trapinit` does not panic, whatever the tables held, and leaves them in
agreement. -/
theorem trapinit_agree (intrhi intrbridge : F) (s : Irqs F A) :
    ∃ s0, trapinit intrhi intrbridge s = some s0 ∧ Agree s0 := by
  have hblank : Agree ({ irqvec := fun _ _ => intrunset, irqmask := fun _ => 0 } :
      Irqs F A) := by
    intro sort v
    simp [Installed, intrunset]
  have hkeep : ∀ (s t : Irqs F A) (v : Fin 32) (g : F) (name : CString),
      Agree s → intrenable s .Irqlo v (some g) none name = some t → Agree t := by
    intro s t v g name hs ht
    have hstep : step s (.enable .Irqlo v (some g) none name) = some t := ht
    exact (step_agree_iff hs hstep).2 (Option.some_ne_none g)
  have hsum := hkeep _ _ IRQ0sum intrhi ⟨[104, 105], by decide⟩ hblank rfl
  exact ⟨_, rfl, hkeep _ _ IRQ0bridge intrbridge
    ⟨[98, 114, 105, 100, 103, 101], by decide⟩ hsum rfl⟩

/-- From what `trapinit` leaves, a run has mask bits and handlers in agreement in
all its states, and every `intrdisable` that names another handler without
effect, exactly when all its calls are proper. -/
theorem run_masks_iff (intrhi intrbridge : F) (s : Irqs F A) :
    ∃ s0, trapinit intrhi intrbridge s = some s0 ∧ ∀ calls : List (Call F A),
      (AllStates step Agree s0 calls ∧ AllSteps step Refused s0 calls) ↔
        AllSteps step Proper s0 calls := by
  obtain ⟨s0, hinit, hs0⟩ := trapinit_agree intrhi intrbridge s
  refine ⟨s0, hinit, fun calls => ?_⟩
  have hagree : AllStates step Agree s0 calls ↔ AllSteps step Proper s0 calls :=
    allStates_iff_allSteps_self (fun _ _ _ => step_agree_iff) calls hs0
  constructor
  · intro h
    exact hagree.1 h.1
  · intro h
    refine ⟨hagree.2 h, AllSteps.imp (I := Agree) ?_ ?_ calls hs0 h⟩
    · intro t c t' ht hproper hstep
      exact (step_agree_iff ht hstep).2 hproper
    · intro t c t' ht hproper _
      exact refused_of_proper ht hproper

end

/-! ## A mismatch -/

/-- The handler of the first XOR channel is installed, and a call that gives
another name for it is made. -/
def mismatchCalls : List (Call Nat Nat) :=
  [.enable .Irqlo 5 (some 3) (some 4) ⟨[120, 111, 114, 101, 48], by decide⟩,
   .disable .Irqlo 5 (some 3) (some 4) ⟨[120, 111, 114], by decide⟩]

/-- The handler stays installed and its mask bit is cleared. -/
theorem mismatch_masks :
    ∃ s0, trapinit 1 2 { irqvec := fun _ _ => intrunset, irqmask := fun _ => 0 } =
        some s0 ∧
      ∃ s1, run step s0 mismatchCalls = some s1 ∧ Installed s1 .Irqlo 5 ∧
        (s1.irqmask .Irqlo).getLsbD 5 = false ∧
        ¬ (AllStates step Agree s0 mismatchCalls ∧
          AllSteps step Refused s0 mismatchCalls) := by
  refine ⟨_, rfl, _, rfl, by decide, by decide, fun h => ?_⟩
  have hlast := AllStates.last mismatchCalls h.1 rfl .Irqlo 5
  exact absurd (hlast.2 (by decide)) (by decide)

end Kirkwood.Ports.Trap
