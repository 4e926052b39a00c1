import Kirkwood.Verified.Trans

/-!
# Start requests of the SATA disk

`satakick` of `devsata.c` asks the process `satastart` to reset the link or to
identify the disk: it stores the request in the word `start`, which `satastart`
fetches and clears.  The interrupt handler may kick several times for one
interrupt.

## Main results

* `serve_reset`: a fetched reset is performed;
* `run_noneLost_iff`: the runs that lose no request are those in which no store
  to `start` drops a bit that is pending there.

`satakick` assigns `start`, it does not add to it, and `satainit` clears it.
-/

namespace Kirkwood.Ports.SataStart

open Kirkwood.Verified.Trans

/-! ## The code -/

abbrev Word := BitVec 32

def StartReset : Word := 1#32
def StartIdentify : Word := 2#32

def Edevdis : Word := 1#32 <<< 3
def Edevcon : Word := 1#32 <<< 4
def Eselfdis : Word := 1#32 <<< 7
def Eiordy : Word := 1#32 <<< 12
def Elinkerrmask : Word :=
  0xf#32 <<< 13 ||| 0xf#32 <<< 17 ||| 0x1f#32 <<< 26
def Etransport : Word := 1#32 <<< 31

/-- The calls of `satakick` that `sataintr` makes for the error causes `e`. -/
def kicks (e : Word) : List Word :=
  (if e &&& (Edevdis ||| Eiordy ||| Elinkerrmask ||| Etransport) ≠ 0 then
    [StartReset] else []) ++
  (if e &&& Edevcon ≠ 0 then [StartIdentify] else []) ++
  (if e &&& Eselfdis ≠ 0 then [StartReset] else [])

/-- What `satastart` does. -/
inductive Op where
  | satastartreset
  | satastartidentify
  deriving DecidableEq, Repr

/-- The turn of `satastart` for the fetched `v`; `ok` says that the reset, if
there is one, raises no error. -/
def serve (v : Word) (ok : Bool) : List Op :=
  if v &&& StartReset ≠ 0 then
    .satastartreset ::
      (if ok ∧ v &&& StartIdentify ≠ 0 then [.satastartidentify] else [])
  else
    if v &&& StartIdentify ≠ 0 then [.satastartidentify] else []

/-- `start` and, for the statements below, the union of all kicks, of those
since the last fetch, and of what was fetched, and what was performed. -/
structure State where
  start : Word
  kicked : Word
  since : Word
  fetched : Word
  performed : List Op
  deriving DecidableEq

/-- A call of `satakick`, the `start = 0` of `satainit`, or a turn of
`satastart`: it fetches and clears `start` under the lock. -/
inductive Action where
  | satakick (v : Word)
  | clear
  | fetch (ok : Bool)

def step (s : State) : Action → Option State
  | .satakick v =>
      some { s with
        start := v
        kicked := s.kicked ||| v
        since := s.since ||| v }
  | .clear => some { s with start := 0 }
  | .fetch ok =>
      some { s with
        start := 0
        since := 0
        fetched := s.fetched ||| s.start
        performed := s.performed ++ serve s.start ok }

def init : State :=
  { start := 0, kicked := 0, since := 0, fetched := 0, performed := [] }

/-! ## What is kept -/

/-- What was fetched and what is pending are all that was kicked; what is
pending is all that was kicked since the last fetch; and a reset kicked since
then is performed by the next turn. -/
structure NoneLost (s : State) : Prop where
  union : s.fetched ||| s.start = s.kicked
  pending : s.start = s.since
  reset : s.since &&& StartReset ≠ 0 →
    ∀ ok, .satastartreset ∈ serve s.start ok

/-- The step stores nothing over a pending bit. -/
def NoOverwrite (s : State) : Action → Prop
  | .satakick v => s.start &&& ~~~v = 0
  | .clear => s.start = 0
  | .fetch _ => True

instance (s : State) : (a : Action) → Decidable (NoOverwrite s a)
  | .satakick v => inferInstanceAs (Decidable (s.start &&& ~~~v = 0))
  | .clear => inferInstanceAs (Decidable (s.start = 0))
  | .fetch _ => isTrue trivial

/-- A reset that is pending is performed by the next turn. -/
theorem serve_reset {v : Word} (ok : Bool) (h : v &&& StartReset ≠ 0) :
    .satastartreset ∈ serve v ok := by
  unfold serve
  rw [if_pos h]
  exact List.mem_cons_self

theorem NoneLost.of_pending {s : State}
    (hunion : s.fetched ||| s.start = s.kicked) (hpending : s.start = s.since) :
    NoneLost s where
  union := hunion
  pending := hpending
  reset := by
    intro hsince ok
    apply serve_reset
    rw [hpending]
    exact hsince

theorem or_eq_right_iff (x v : Word) : v = x ||| v ↔ x &&& ~~~v = 0 := by
  constructor
  · intro h
    apply BitVec.eq_of_getLsbD_eq
    intro i hi
    have hbit := congrArg (fun w => w.getLsbD i) h
    simp only [BitVec.getLsbD_or] at hbit
    simp only [BitVec.getLsbD_and, BitVec.getLsbD_not, hi, decide_true,
      Bool.true_and, BitVec.ofNat_eq_ofNat, BitVec.getLsbD_zero]
    rw [hbit]
    cases x.getLsbD i <;> simp
  · intro h
    apply BitVec.eq_of_getLsbD_eq
    intro i hi
    have hbit := congrArg (fun w => w.getLsbD i) h
    simp only [BitVec.getLsbD_and, BitVec.getLsbD_not, hi, decide_true,
      Bool.true_and, BitVec.ofNat_eq_ofNat, BitVec.getLsbD_zero] at hbit
    simp only [BitVec.getLsbD_or]
    cases hx : x.getLsbD i with
    | false => rfl
    | true =>
        rw [hx] at hbit
        simpa using hbit

theorem step_noneLost_iff (s : State) (a : Action) (s' : State)
    (h : NoneLost s) (hs : step s a = some s') :
    NoneLost s' ↔ NoOverwrite s a := by
  have hunion := h.union
  have hpending := h.pending
  cases a with
  | satakick v =>
      cases hs
      constructor
      · intro h'
        have hnew : v = s.since ||| v := h'.pending
        rw [← hpending] at hnew
        exact (or_eq_right_iff s.start v).1 hnew
      · intro hguard
        have hnew : v = s.start ||| v := (or_eq_right_iff s.start v).2 hguard
        apply NoneLost.of_pending
        · show s.fetched ||| v = s.kicked ||| v
          rw [← hunion, BitVec.or_assoc, ← hnew]
        · show v = s.since ||| v
          rw [← hpending]
          exact hnew
  | clear =>
      cases hs
      constructor
      · intro h'
        have hzero : 0 = s.since := h'.pending
        exact hpending.trans hzero.symm
      · intro hguard
        have hzero : s.start = 0 := hguard
        apply NoneLost.of_pending
        · show s.fetched ||| 0 = s.kicked
          rw [← hzero]
          exact hunion
        · show 0 = s.since
          rw [← hpending, hzero]
  | fetch ok =>
      cases hs
      constructor
      · intro _
        trivial
      · intro _
        apply NoneLost.of_pending
        · show (s.fetched ||| s.start) ||| 0 = s.kicked
          rw [hunion]
          exact BitVec.or_zero
        · rfl

theorem init_noneLost : NoneLost init := .of_pending rfl rfl

/-- In every run of kicks, clears and fetches, no request is lost in any state
exactly when no step stores over a pending bit. -/
theorem run_noneLost_iff (as : List Action) :
    AllStates step NoneLost init as ↔ AllSteps step NoOverwrite init as :=
  allStates_iff_allSteps_self step_noneLost_iff as init_noneLost

/-- One interrupt reports a disconnect and a connect: the disk is identified on
a link that was not reset. -/
theorem disconnect_connect_lost : ¬ ∀ as : List Action,
    AllStates step NoneLost init as := by
  intro hall
  have hrun := hall ((kicks (Edevdis ||| Edevcon)).map .satakick)
  have hguard := (allStates_iff_allSteps_self step_noneLost_iff _ init_noneLost).1 hrun
  have hnot : ¬ AllSteps step NoOverwrite init
      ((kicks (Edevdis ||| Edevcon)).map .satakick) := by
    decide
  exact hnot hguard

end Kirkwood.Ports.SataStart
