import Mathlib.Data.BitVec
import Kirkwood.Verified.Hoare
import Kirkwood.Verified.Trans

/-!
# The fuses

`devefuse.c` burns two fuses of eight bytes each.  A write turns burn mode on, protects the
fuse, sets its data and its write bit, and polls until the device says that it is done; the
sleep between two polls may raise.

## Main results

* `burnloop_cases`: how the polling ends;
* `efusewrite_cases`: what a write does to the registers;
* `efusewrite_guarded_iff`: which runs of writes keep to the guards and leave burn mode.
-/

namespace Kirkwood.Ports.DevEfuse

open Kirkwood.Verified.Hoare
open Kirkwood.Verified.Trans

/-! ## The code -/

def Psecurity0 : BitVec 32 := 1 <<< 0
def Psecurity1 : BitVec 32 := 1 <<< 1

def Cburn : BitVec 32 := 1 <<< 0
def Cwrite0 : BitVec 32 := 1 <<< 1
def Cwrite1 : BitVec 32 := 1 <<< 2
def Cburndone : BitVec 32 := 1 <<< 16

/-- `EFUSEREG` -/
structure EfuseReg where
  protection : BitVec 32
  lo0 : BitVec 32
  hi0 : BitVec 32
  lo1 : BitVec 32
  hi1 : BitVec 32
  ctl : BitVec 32
deriving DecidableEq, Repr

/-- The files. -/
inductive Qid where
  | Qdir
  | Qefuse0
  | Qefuse1
deriving DecidableEq, Repr

/-- The assignments to registers. -/
inductive Assign where
  /-- `reg->ctl |= bits` -/
  | orctl (bits : BitVec 32)
  /-- `reg->ctl = 0` -/
  | zeroctl
  /-- `reg->protection |= bits` -/
  | orprotection (bits : BitVec 32)
  | lo0 (v : BitVec 32)
  | hi0 (v : BitVec 32)
  | lo1 (v : BitVec 32)
  | hi1 (v : BitVec 32)
deriving DecidableEq, Repr

def Assign.apply (reg : EfuseReg) : Assign → EfuseReg
  | orctl bits => { reg with ctl := reg.ctl ||| bits }
  | zeroctl => { reg with ctl := 0#32 }
  | orprotection bits => { reg with protection := reg.protection ||| bits }
  | lo0 v => { reg with lo0 := v }
  | hi0 v => { reg with hi0 := v }
  | lo1 v => { reg with lo1 := v }
  | hi1 v => { reg with hi1 := v }

/-- The registers, and the assignments that a call has made. -/
structure World where
  reg : EfuseReg
  made : List Assign
deriving DecidableEq, Repr

abbrev M := EStateM String World

def assign (a : Assign) : M Unit :=
  modify fun w => { reg := a.apply w.reg, made := w.made ++ [a] }

/-- What happens while a call polls: whether the burn-done bit is there at each reading, and
what each sleep raises. -/
structure Polls where
  done : Nat → Bool
  sleep : Nat → Option String

/-- `reg->ctl`, at reading `i`. -/
def ctl (polls : Polls) (i : Nat) : M (BitVec 32) := do
  return (← get).reg.ctl ||| if polls.done i then Cburndone else 0#32

def tsleep (polls : Polls) (i : Nat) : M Unit :=
  match polls.sleep i with
  | none => pure ()
  | some msg => throw msg

def Ebadarg : String := "Ebadarg"
def Ebadusefd : String := "Ebadusefd"

/-- The loop of `efwrite`, at reading `i` with `left` sleeps to go. -/
def burnloop (polls : Polls) : Nat → Nat → M Unit
  | 0, i => do
      if (← ctl polls i) &&& Cburndone = 0#32 then
        assign .zeroctl
        throw "burning timed out"
  | left + 1, i => do
      if (← ctl polls i) &&& Cburndone = 0#32 then
        tsleep polls i
        burnloop polls left (i + 1)

/-- The bytes of a write. -/
abbrev Bytes := Nat → BitVec 8

/-- `g32(p+i)` -/
def g32 (p : Bytes) (i : Nat) : BitVec 32 := p i ++ p (i + 1) ++ p (i + 2) ++ p (i + 3)

/-- `efwrite`, from where burn mode is turned on. -/
def burn (lo hi : BitVec 32 → Assign) (secbit writebit : BitVec 32) (p : Bytes)
    (polls : Polls) : M Unit := do
  assign (.orctl Cburn)
  assign (.orprotection secbit)
  assign (lo (g32 p 4))
  assign (hi (g32 p 0))
  assign (.orctl writebit)
  burnloop polls 500 0
  assign .zeroctl

def efwrite (lo hi : BitVec 32 → Assign) (secbit writebit : BitVec 32) (p : Bytes)
    (n offset : Int) (polls : Polls) : M Unit := do
  if offset ≠ 0 ∨ n ≠ 8 then throw Ebadarg
  else if (← get).reg.ctl &&& Cburn ≠ 0#32 then throw "burn mode already active"
  else if (← get).reg.protection &&& secbit ≠ 0#32 then throw "efuse already burned"
  else burn lo hi secbit writebit p polls

/-- A call of `efusewrite`. -/
structure Call where
  path : Qid
  a : Bytes
  n : Int
  offset : Int
  polls : Polls

/-- `efusewrite`, within its lock. -/
def efusewrite (c : Call) : M Unit :=
  match c.path with
  | .Qefuse0 => efwrite .lo0 .hi0 Psecurity0 Cwrite0 c.a c.n c.offset c.polls
  | .Qefuse1 => efwrite .lo1 .hi1 Psecurity1 Cwrite1 c.a c.n c.offset c.polls
  | .Qdir => throw Ebadusefd

/-! ## The loop -/

/-- The registers after an assignment. -/
def World.after (w : World) (a : Assign) : World :=
  { reg := a.apply w.reg, made := w.made ++ [a] }

/-- The burn-done bit is not there at reading `i`. -/
def Quiet (polls : Polls) (reg : EfuseReg) (i : Nat) : Prop :=
  reg.ctl &&& Cburndone = 0#32 ∧ polls.done i = false

/-- A sleep raises before the burn-done bit has been there, `left` sleeps from `i` on. -/
def Raises (polls : Polls) (reg : EfuseReg) (left i : Nat) : Prop :=
  ∃ k < left, polls.sleep (i + k) ≠ none ∧ ∀ j ≤ k, Quiet polls reg (i + j)

theorem quiet_iff {polls : Polls} {reg : EfuseReg} {i : Nat} :
    (reg.ctl ||| if polls.done i then Cburndone else 0#32) &&& Cburndone = 0#32 ↔
      Quiet polls reg i := by
  have hself : Cburndone &&& Cburndone = Cburndone := by decide
  have hne : Cburndone ≠ 0#32 := by decide
  unfold Quiet
  cases polls.done i with
  | false => simp
  | true =>
      simp [BitVec.and_comm, BitVec.and_or_distrib_left, hself, BitVec.or_eq_zero_iff, hne]

section
variable {polls : Polls} {w : World} {i : Nat}

theorem burnloop_done (h : ¬ Quiet polls w.reg i) (left : Nat) :
    burnloop polls left i w = .ok () w := by
  cases left with
  | zero => exact congrFun (if_neg (mt quiet_iff.1 h)) w
  | succ left => exact congrFun (if_neg (mt quiet_iff.1 h)) w

theorem burnloop_out (h : Quiet polls w.reg i) :
    burnloop polls 0 i w = .error "burning timed out" (w.after .zeroctl) :=
  congrFun (if_pos (quiet_iff.2 h)) w

theorem burnloop_raise (h : Quiet polls w.reg i) {msg : String}
    (hsleep : polls.sleep i = some msg) (left : Nat) :
    burnloop polls (left + 1) i w = .error msg w := by
  refine (congrFun (if_pos (quiet_iff.2 h)) w).trans ?_
  rw [tsleep, hsleep]
  rfl

theorem burnloop_next (h : Quiet polls w.reg i) (hsleep : polls.sleep i = none)
    (left : Nat) :
    burnloop polls (left + 1) i w = burnloop polls left (i + 1) w := by
  refine (congrFun (if_pos (quiet_iff.2 h)) w).trans ?_
  rw [tsleep, hsleep]
  rfl

end

theorem raises_succ (polls : Polls) (reg : EfuseReg) (left i : Nat) :
    Raises polls reg (left + 1) i ↔
      Quiet polls reg i ∧ (polls.sleep i ≠ none ∨ Raises polls reg left (i + 1)) := by
  constructor
  · rintro ⟨k, hk, hsleep, hquiet⟩
    refine ⟨hquiet 0 (Nat.zero_le k), ?_⟩
    cases k with
    | zero => exact .inl hsleep
    | succ k =>
        refine .inr ⟨k, Nat.lt_of_succ_lt_succ hk, ?_, fun j hj => ?_⟩
        · rwa [Nat.add_right_comm]
        · rw [Nat.add_right_comm]
          exact hquiet (j + 1) (Nat.succ_le_succ hj)
  · rintro ⟨hquiet, hsleep | ⟨k, hk, hsleep, hrest⟩⟩
    · refine ⟨0, Nat.zero_lt_succ left, hsleep, fun j hj => ?_⟩
      obtain rfl := Nat.le_zero.1 hj
      exact hquiet
    · refine ⟨k + 1, Nat.succ_lt_succ hk, ?_, fun j hj => ?_⟩
      · rwa [Nat.add_right_comm] at hsleep
      · cases j with
        | zero => exact hquiet
        | succ j =>
            have hquiet' := hrest j (Nat.le_of_succ_le_succ hj)
            rwa [Nat.add_right_comm] at hquiet'

/-- Without a sleep that raises the loop ends with the burn, or out of turns with burn mode
off. -/
theorem burnloop_cases (polls : Polls) (left i : Nat) (w : World) :
    (Raises polls w.reg left i ∧ ∃ msg, burnloop polls left i w = .error msg w) ∨
    (¬ Raises polls w.reg left i ∧
      (burnloop polls left i w = .ok () w ∨
        ∃ msg, burnloop polls left i w = .error msg (w.after .zeroctl))) := by
  induction left generalizing i with
  | zero =>
      refine .inr ⟨fun ⟨k, hk, _⟩ => absurd hk (Nat.not_lt_zero k), ?_⟩
      by_cases hquiet : Quiet polls w.reg i
      · exact .inr ⟨_, burnloop_out hquiet⟩
      · exact .inl (burnloop_done hquiet 0)
  | succ left ih =>
      rw [raises_succ]
      by_cases hquiet : Quiet polls w.reg i
      · cases hsleep : polls.sleep i with
        | some msg =>
            exact .inl ⟨⟨hquiet, .inl (by simp)⟩, msg, burnloop_raise hquiet hsleep _⟩
        | none => simpa [hquiet, burnloop_next hquiet hsleep] using ih (i + 1)
      · exact .inr ⟨fun h => hquiet h.1, .inl (burnloop_done hquiet _)⟩

/-! ## One call -/

/-- The fuses. -/
inductive Fuse where
  | efuse0
  | efuse1
deriving DecidableEq, Repr

namespace Fuse

def path : Fuse → Qid
  | efuse0 => .Qefuse0
  | efuse1 => .Qefuse1

def secbit : Fuse → BitVec 32
  | efuse0 => Psecurity0
  | efuse1 => Psecurity1

def writebit : Fuse → BitVec 32
  | efuse0 => Cwrite0
  | efuse1 => Cwrite1

def lo : Fuse → BitVec 32 → Assign
  | efuse0 => .lo0
  | efuse1 => .lo1

def hi : Fuse → BitVec 32 → Assign
  | efuse0 => .hi0
  | efuse1 => .hi1

end Fuse

def Protected (reg : EfuseReg) (f : Fuse) : Prop := reg.protection &&& f.secbit ≠ 0#32

/-- The assignment is one of those that program the fuse. -/
def Programs (f : Fuse) (a : Assign) : Prop :=
  a = .orctl f.writebit ∨ (∃ v, a = f.lo v) ∨ ∃ v, a = f.hi v

/-- The call as the registers are. -/
def call (reg : EfuseReg) (c : Call) : EStateM.Result String World Unit :=
  efusewrite c ⟨reg, []⟩

/-- What a call leaves, whether it returns or raises. -/
def world (reg : EfuseReg) (c : Call) : World :=
  match call reg c with
  | .ok _ w | .error _ w => w

/-- The registers after a call. -/
def after (reg : EfuseReg) (c : Call) : EfuseReg := (world reg c).reg

/-- The guards of a call. -/
structure Permitted (reg : EfuseReg) (f : Fuse) (c : Call) : Prop where
  path : c.path = f.path
  n : c.n = 8
  offset : c.offset = 0
  burn : reg.ctl &&& Cburn = 0#32
  free : ¬ Protected reg f

/-- A polling sleep of this call raises before the burn is done. -/
def Interrupted (reg : EfuseReg) (c : Call) : Prop :=
  (∃ f, Permitted reg f c) ∧ Raises c.polls reg 500 0

/-- The state in which a call polls. -/
def burning (reg : EfuseReg) (f : Fuse) (c : Call) : World :=
  [.orctl Cburn, .orprotection f.secbit, f.lo (g32 c.a 4), f.hi (g32 c.a 0),
    .orctl f.writebit].foldl World.after ⟨reg, []⟩

section
variable {reg : EfuseReg} {f : Fuse} {c : Call}

theorem efusewrite_path (h : c.path = f.path) :
    efusewrite c = efwrite f.lo f.hi f.secbit f.writebit c.a c.n c.offset c.polls := by
  unfold efusewrite
  cases f <;> rw [h] <;> rfl

theorem efwrite_eq (lo hi : BitVec 32 → Assign) (secbit writebit : BitVec 32) (p : Bytes)
    (n offset : Int) (polls : Polls) (w : World) :
    efwrite lo hi secbit writebit p n offset polls w =
      if offset ≠ 0 ∨ n ≠ 8 then .error Ebadarg w
      else if w.reg.ctl &&& Cburn ≠ 0#32 then .error "burn mode already active" w
      else if w.reg.protection &&& secbit ≠ 0#32 then .error "efuse already burned" w
      else burn lo hi secbit writebit p polls w := by
  rw [efwrite, apply_ite (f := fun x : M Unit => x w)]
  congr 1
  change (if _ then _ else _ : M Unit) w = _
  rw [apply_ite (f := fun x : M Unit => x w)]
  congr 1
  change (if _ then _ else _ : M Unit) w = _
  rw [apply_ite (f := fun x : M Unit => x w)]
  rfl

theorem call_permitted (h : Permitted reg f c) :
    call reg c = (do burnloop c.polls 500 0; assign .zeroctl) (burning reg f c) := by
  have hargs : ¬ (c.offset ≠ 0 ∨ c.n ≠ 8) := by
    rw [h.offset, h.n]
    decide
  rw [call, efusewrite_path h.path, efwrite_eq, if_neg hargs, if_neg (not_not.2 h.burn)]
  exact (if_neg h.free).trans rfl

theorem call_refused (h : ∀ f, ¬ Permitted reg f c) :
    ∃ msg, call reg c = .error msg ⟨reg, []⟩ := by
  by_cases hpath : ∃ f : Fuse, c.path = f.path
  · obtain ⟨f, hpath⟩ := hpath
    rw [call, efusewrite_path hpath, efwrite_eq]
    split_ifs with hargs hburn hfree
    · exact ⟨_, rfl⟩
    · exact ⟨_, rfl⟩
    · exact ⟨_, rfl⟩
    · rw [not_or, not_not, not_not] at hargs
      exact absurd ⟨hpath, hargs.2, hargs.1, not_not.1 hburn, hfree⟩ (h f)
  · refine ⟨Ebadusefd, ?_⟩
    have hdir : c.path = .Qdir := by
      cases hc : c.path with
      | Qdir => rfl
      | Qefuse0 => exact absurd ⟨.efuse0, hc⟩ hpath
      | Qefuse1 => exact absurd ⟨.efuse1, hc⟩ hpath
    rw [call, efusewrite, hdir]
    rfl

theorem burning_ctl : (burning reg f c).reg.ctl = reg.ctl ||| Cburn ||| f.writebit := by
  cases f <;> rfl

theorem quiet_burning {i : Nat} :
    Quiet c.polls (burning reg f c).reg i ↔ Quiet c.polls reg i := by
  have hburn : Cburndone &&& Cburn = 0#32 := by decide
  have hwrite : Cburndone &&& f.writebit = 0#32 := by
    cases f <;> decide
  unfold Quiet
  rw [burning_ctl, BitVec.and_comm, BitVec.and_or_distrib_left, BitVec.and_or_distrib_left,
    hburn, hwrite, BitVec.or_zero, BitVec.or_zero, BitVec.and_comm]

theorem raises_burning {left i : Nat} :
    Raises c.polls (burning reg f c).reg left i ↔ Raises c.polls reg left i := by
  unfold Raises
  simp only [quiet_burning]

/-- A call that its guards let through leaves burn mode, unless a sleep raises. -/
theorem call_cases (h : Permitted reg f c) :
    (Interrupted reg c ∧ ∃ msg, call reg c = .error msg (burning reg f c)) ∨
    (¬ Interrupted reg c ∧
      (call reg c = .ok () ((burning reg f c).after .zeroctl) ∨
        ∃ msg, call reg c = .error msg ((burning reg f c).after .zeroctl))) := by
  have hint : Interrupted reg c ↔ Raises c.polls (burning reg f c).reg 500 0 :=
    (and_iff_right ⟨f, h⟩).trans raises_burning.symm
  rw [hint, call_permitted h]
  rcases burnloop_cases c.polls 500 0 (burning reg f c) with
    ⟨hraise, msg, hloop⟩ | ⟨hraise, hloop | ⟨msg, hloop⟩⟩
  · exact .inl ⟨hraise, msg, bind_error hloop⟩
  · exact .inr ⟨hraise, .inl (bind_ok hloop)⟩
  · exact .inr ⟨hraise, .inr ⟨msg, bind_error hloop⟩⟩

theorem world_refused (h : ∀ f, ¬ Permitted reg f c) : world reg c = ⟨reg, []⟩ := by
  obtain ⟨msg, hcall⟩ := call_refused h
  rw [world, hcall]

theorem world_interrupted (h : Permitted reg f c) (hint : Interrupted reg c) :
    world reg c = burning reg f c := by
  rcases call_cases h with ⟨-, msg, hcall⟩ | ⟨hnot, -⟩
  · rw [world, hcall]
  · exact absurd hint hnot

theorem world_burned (h : Permitted reg f c) (hint : ¬ Interrupted reg c) :
    world reg c = (burning reg f c).after .zeroctl := by
  rcases call_cases h with ⟨hyes, -⟩ | ⟨-, hcall | ⟨msg, hcall⟩⟩
  · exact absurd hyes hint
  · rw [world, hcall]
  · rw [world, hcall]

theorem world_permitted (h : Permitted reg f c) :
    (world reg c).reg.protection = reg.protection ||| f.secbit ∧
      ∀ a, a ∈ (world reg c).made ↔
        a ∈ (burning reg f c).made ∨ a = .zeroctl ∧ ¬ Interrupted reg c := by
  have hprot : (burning reg f c).reg.protection = reg.protection ||| f.secbit := by
    cases f <;> rfl
  by_cases hint : Interrupted reg c
  · simp [world_interrupted h hint, hprot, hint]
  · simp [world_burned h hint, hprot, hint, World.after, Assign.apply]

theorem mem_burning {a : Assign} : a ∈ (burning reg f c).made ↔
    a = .orctl Cburn ∨ a = .orprotection f.secbit ∨ a = f.lo (g32 c.a 4) ∨
      a = f.hi (g32 c.a 0) ∨ a = .orctl f.writebit := by
  have hmade : (burning reg f c).made = [.orctl Cburn, .orprotection f.secbit,
      f.lo (g32 c.a 4), f.hi (g32 c.a 0), .orctl f.writebit] := rfl
  simp [hmade]

end

/-! ## Runs -/

/-- A call. -/
def step (reg : EfuseReg) (c : Call) : Option EfuseReg := some (after reg c)

/-- Burning was started. -/
def Started (reg : EfuseReg) (c : Call) : Prop := .orctl Cburn ∈ (world reg c).made

/-- The call is one that has to raise. -/
def Barred (reg : EfuseReg) (c : Call) : Prop :=
  c.n ≠ 8 ∨ c.offset ≠ 0 ∨ reg.ctl &&& Cburn ≠ 0#32 ∨
    ∃ f : Fuse, c.path = f.path ∧ Protected reg f

/-- What a call keeps to: a protected fuse stays protected and is not programmed, a barred
call raises and assigns nothing, and after burning has started burn mode is off again, so
that it does not bar another call. -/
structure Guarded (reg : EfuseReg) (c : Call) : Prop where
  once : ∀ f, Protected reg f →
    Protected (after reg c) f ∧ ∀ a ∈ (world reg c).made, ¬ Programs f a
  barred : Barred reg c → (∃ msg, call reg c = .error msg ⟨reg, []⟩)
  off : Started reg c → (after reg c).ctl &&& Cburn = 0#32 ∧
    ∀ f c', c'.path = f.path → c'.n = 8 → c'.offset = 0 → ¬ Protected (after reg c) f →
      Started (after reg c) c'

section
variable {reg : EfuseReg} {c : Call}

theorem started_iff : Started reg c ↔ ∃ f, Permitted reg f c := by
  constructor
  · intro hstart
    by_contra hnone
    rw [Started, world_refused (not_exists.1 hnone)] at hstart
    cases hstart
  · rintro ⟨f, h⟩
    exact ((world_permitted h).2 _).2 (.inl (mem_burning.2 (.inl rfl)))

theorem Barred.refused (h : Barred reg c) (f : Fuse) : ¬ Permitted reg f c := by
  rintro ⟨hpath, hn, hoffset, hburn, hfree⟩
  rcases h with hbad | hbad | hbad | ⟨g, hg, hprot⟩
  · exact hbad hn
  · exact hbad hoffset
  · exact hbad hburn
  · have hfg : f = g := by
      rw [hpath] at hg
      cases f <;> cases g <;> first | rfl | cases hg
    exact hfree (hfg ▸ hprot)

theorem protected_or {b : BitVec 32} {f : Fuse} (h : Protected reg f) :
    (reg.protection ||| b) &&& f.secbit ≠ 0#32 := by
  intro hzero
  rw [BitVec.and_comm, BitVec.and_or_distrib_left, BitVec.or_eq_zero_iff] at hzero
  exact h ((BitVec.and_comm _ _).trans hzero.1)

/-- No assignment of a burn programs the other fuse. -/
theorem spares {f g : Fuse} (hne : f ≠ g) {a : Assign}
    (ha : (a = .orctl Cburn ∨ a = .orprotection g.secbit ∨ a = g.lo (g32 c.a 4) ∨
      a = g.hi (g32 c.a 0) ∨ a = .orctl g.writebit) ∨ a = .zeroctl ∧ ¬ Interrupted reg c) :
    ¬ Programs f a := by
  have hburn : Cburn ≠ Cwrite0 ∧ Cburn ≠ Cwrite1 ∧ Cwrite0 ≠ Cwrite1 ∧
      Cwrite1 ≠ Cwrite0 := by decide
  unfold Programs
  cases f <;> cases g <;> first
    | exact absurd rfl hne
    | rcases ha with (rfl | rfl | rfl | rfl | rfl) | ⟨rfl, -⟩ <;>
        simp [Fuse.lo, Fuse.hi, Fuse.secbit, Fuse.writebit, hburn]

theorem call_once {f : Fuse} (h : Protected reg f) :
    Protected (after reg c) f ∧ ∀ a ∈ (world reg c).made, ¬ Programs f a := by
  by_cases hperm : ∃ g, Permitted reg g c
  · obtain ⟨g, hg⟩ := hperm
    have hne : f ≠ g := fun heq => hg.free (heq ▸ h)
    obtain ⟨hprot, hmade⟩ := world_permitted hg
    refine ⟨?_, fun a ha => ?_⟩
    · rw [Protected, after, hprot]
      exact protected_or h
    · rw [hmade, mem_burning] at ha
      exact spares hne ha
  · rw [after, world_refused (not_exists.1 hperm)]
    exact ⟨h, fun a ha => nomatch ha⟩

theorem guarded_iff : Guarded reg c ↔ ¬ Interrupted reg c := by
  constructor
  · rintro ⟨-, -, hoff⟩ hint
    obtain ⟨⟨f, h⟩, -⟩ := id hint
    have hzero := (hoff (started_iff.2 ⟨f, h⟩)).1
    rw [after, world_interrupted h hint, burning_ctl, BitVec.and_comm,
      BitVec.and_or_distrib_left, BitVec.and_or_distrib_left, BitVec.or_eq_zero_iff,
      BitVec.or_eq_zero_iff] at hzero
    exact absurd hzero.1.2 (by decide)
  · intro hint
    refine ⟨fun f => call_once, fun hbar => call_refused hbar.refused, fun hstart => ?_⟩
    obtain ⟨f, h⟩ := started_iff.1 hstart
    have hctl : (after reg c).ctl = 0#32 := by
      rw [after, world_burned h hint]
      rfl
    refine ⟨by rw [hctl]; rfl, fun g c' hpath hn hoffset hfree => ?_⟩
    exact started_iff.2 ⟨g, hpath, hn, hoffset, by rw [hctl]; rfl, hfree⟩

end

/-- Runs of writes never program a fuse that is protected, and keep to their guards and
leave burn mode exactly when no polling sleep raises. -/
theorem efusewrite_guarded_iff (reg : EfuseReg) (calls : List Call) :
    (∀ f, Protected reg f →
      AllSteps step (fun reg c => ∀ a ∈ (world reg c).made, ¬ Programs f a) reg calls) ∧
    (AllSteps step Guarded reg calls ↔
      AllSteps step (fun reg c => ¬ Interrupted reg c) reg calls) := by
  constructor
  · intro f hprot
    refine AllSteps.imp (I := (Protected · f)) (fun s c s' h (_ : Free s c) hs => ?_)
      (fun s c s' h _ _ => (call_once h).2) calls hprot (allSteps_free reg calls)
    cases hs
    exact (call_once h).1
  · exact allSteps_iff_allSteps (I := fun _ => True) (fun _ _ _ _ _ _ => trivial)
      (fun s c s' _ _ => guarded_iff) calls trivial

/-- A write of the first fuse. -/
def write (polls : Polls) : Call where
  path := .Qefuse0
  a := fun _ => 0#8
  n := 8
  offset := 0
  polls := polls

/-- The burn is done at the first reading. -/
def atonce : Call := write { done := fun _ => true, sleep := fun _ => none }

/-- The first sleep raises. -/
def interrupted : Call :=
  write { done := fun _ => false, sleep := fun _ => some "interrupted" }

/-- No fuse is protected. -/
def blank : EfuseReg := ⟨0#32, 0#32, 0#32, 0#32, 0#32, 0#32⟩

/-- A second write is refused. -/
theorem atonce_guarded : Protected (after blank atonce) .efuse0 ∧
    AllSteps step (fun reg c => ∀ a ∈ (world reg c).made, ¬ Programs .efuse0 a)
      (after blank atonce) [atonce] ∧
    AllSteps step Guarded blank [atonce, atonce] := by
  have hprot : Protected (after blank atonce) .efuse0 := by
    unfold Protected
    decide
  have hnot : ∀ reg, ¬ Interrupted reg atonce := fun reg ⟨_, k, _, _, hquiet⟩ =>
    nomatch (hquiet 0 (Nat.zero_le k)).2
  exact ⟨hprot, (efusewrite_guarded_iff (after blank atonce) [atonce]).1 .efuse0 hprot,
    (efusewrite_guarded_iff blank [atonce, atonce]).2.2 ⟨hnot _, hnot _, trivial⟩⟩

/-- A write that is interrupted leaves burn mode on. -/
theorem interrupted_unguarded : ¬ ∀ reg calls, AllSteps step Guarded reg calls := by
  intro hall
  have hguard : Guarded blank interrupted := (hall blank [interrupted]).1
  have hstart : Started blank interrupted := by
    unfold Started
    decide
  have hon : (after blank interrupted).ctl &&& Cburn ≠ 0#32 := by decide
  exact hon (hguard.off hstart).1

end Kirkwood.Ports.DevEfuse
