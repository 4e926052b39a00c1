import Kirkwood.Ports.SdResponse
import Kirkwood.Ports.SdioTransfer
import Kirkwood.Verified.Outcome

/-!
# Initialising an SD card

`sdiodevinit` of `kwsdio.c` takes a card through about ten commands: `sdinit` raises at the
first that fails, and sets `valid` at the end.  What the controller and the card do and what
the sleeps raise is a parameter here; the registers of the controller that no function
reads back are left out.

## Main results

* `capacity_le`, `setsize_capacity`: the size of a card is computed without overflow.
-/

namespace Kirkwood.Ports.SdInit

open Kirkwood.Verified
open Kirkwood.Verified.CInt
open Kirkwood.Verified.Outcome
open Kirkwood.Ports.SdResponse hiding sdcmd uvlong
open Kirkwood.Ports.SdioTransfer (errorsd Enocard)

/-! ## The code -/

def SDTimeout : Int := -1
def SDCardbusy : Int := -2
def SDError : Int := -3
def SDInterrupted : Int := -4

def Scmdcomplete : BitVec 32 := 1 <<< 0
def Sunexpresp : BitVec 32 := 1 <<< 14
def Serror : BitVec 32 := 1 <<< 15
def Ecmdtimeout : BitVec 32 := 1 <<< 0

def CMD8pattern : BitVec 32 := 0xaa
def CMD8patternmask : BitVec 32 := MASK 8
def CMD8voltage : BitVec 32 := 1 <<< 8
def CMD8voltagemask : BitVec 32 := MASK 4 <<< 8

def ACMD41voltagewindow : BitVec 32 := MASK (23 - 15 + 1) <<< 15
def ACMD41sdhcsupported : BitVec 32 := 1 <<< 30
def ACMD41ready : BitVec 32 := 1 <<< 31

def SDappcmd : BitVec 32 := 1 <<< 5

/-- `Card` -/
structure Card extends SdResponse.Card where
  valid : Bool
  cid : Cid
  csd : Csd
  bs : Int
  size : Int
  mmc : Bool
  sd2 : Bool
  sdhc : Bool
  rca : BitVec 32
deriving DecidableEq, Repr

/-- The text that `devinit` makes of a card. -/
structure Descr where
  prodname : List Nat
  serial : Nat
  rev : Nat
  year : Nat
  mon : Nat
  sdhc : Bool
deriving DecidableEq, Repr

/-- `Store` -/
structure Store where
  size : Int
  descr : Option Descr
deriving DecidableEq, Repr

/-- What the controller does during a call of `sdcmd`: whether it is busy at each reading of
`hoststate`, what the sleeps in between raise, how many errors the sleep until the
interrupt raises before it returns, and the registers then. -/
structure Answer where
  busy : Nat → Bool
  sleep : Nat → Option String
  interrupts : Nat
  st : BitVec 32
  est : BitVec 32
  reg : SdioReg

/-- What happens during an initialisation: to each call of `sdcmd`, and in each of the other
sleeps. -/
structure Env where
  answer : Nat → Answer
  sleep : Nat → Option String

/-- A call of `sdcmd` that has returned, with the response in the card then. -/
structure Entry where
  cmd : Nat
  arg : BitVec 32
  result : Int
  resp : Resp
deriving DecidableEq, Repr

structure World where
  card : Card
  d : Store
  /-- the calls of `sdcmd`, and the other sleeps, so far -/
  calls : Nat
  sleeps : Nat
  log : List Entry
deriving DecidableEq, Repr

abbrev M := EStateM Exn World

def error {α : Type} (msg : String) : M α := throw (.error msg)

def setcard (f : Card → Card) : M Unit := modify fun w => { w with card := f w.card }

/-- `tsleep` outside `sdcmd`. -/
def tsleep (env : Env) : M Unit := do
  let w ← get
  set { w with sleeps := w.sleeps + 1 }
  match env.sleep w.sleeps with
  | none => pure ()
  | some msg => error msg

/-- The first loop of `sdcmd`, at reading `i` with `left` sleeps to go: whether the
controller is ready. -/
def ready (a : Answer) : Nat → Nat → M Bool
  | 0, i => pure (!a.busy i)
  | left + 1, i =>
      if a.busy i then
        match a.sleep i with
        | none => ready a left (i + 1)
        | some msg => error msg
      else pure true

/-- `sdcmd` from where the command is written, without a data transfer. -/
def command (a : Answer) (rt : Rt) : M Int := do
  if a.interrupts ≠ 0 then return SDInterrupted
  else if a.st &&& (Sunexpresp ||| Serror) ≠ 0#32 then
    setcard fun c => { c with status := a.est }
    return if a.est &&& Ecmdtimeout ≠ 0#32 then SDTimeout else SDError
  else if a.st &&& Scmdcomplete = 0#32 then return SDTimeout
  else
    let (core, s) := SdResponse.sdcmd (← get).card.toCard a.reg rt
    setcard fun c => { c with toCard := core }
    return s

/-- The answer for the next call. -/
def begin (env : Env) : M Answer := do
  let w ← get
  set { w with calls := w.calls + 1 }
  return env.answer w.calls

/-- The end of a call. -/
def done (cmd : Nat) (arg : BitVec 32) (s : Int) : M Int := do
  modify fun w => { w with log := w.log ++ [⟨cmd, arg, s, w.card.resp⟩] }
  return s

/-- `sdcmd` without flags. -/
def sdcmd (env : Env) (cmd : Nat) (arg : BitVec 32) (rt : Rt) : M Int := do
  let a ← begin env
  if ← ready a 50 0 then done cmd arg (← command a rt)
  else done cmd arg SDCardbusy

/-- `c->resp[2]>>8`, as a `ulong`. -/
def Card.resp32 (c : Card) : BitVec 32 := (c.resp.resp2 >>> 8).setWidth 32

/-- `sdcmd` with `Fapp`. -/
def sdappcmd (env : Env) (cmd : Nat) (arg : BitVec 32) (rt : Rt) : M Int := do
  let a ← begin env
  if ← ready a 50 0 then
    let s ← sdcmd env 55 ((← get).card.rca <<< 16) .R1
    if s < 0 then done cmd arg s
    else if (← get).card.resp32 &&& SDappcmd = 0#32 then done cmd arg SDBadstatus
    else done cmd arg (← command a rt)
  else done cmd arg SDCardbusy

/-- `s = ...; if(s < 0) errorsd(msg, s);` -/
def must (msg : String) (x : M Int) : M Unit := do
  let s ← x
  if s < 0 then throw (errorsd msg s)

def sdclock (env : Env) : M Unit := tsleep env

/-- Force the card to the idle state. -/
def reset (env : Env) : M Unit := must "reset failed" (sdcmd env 0 0 .R0)

/-- "send interface command" -/
def sendif (env : Env) : M Unit := do
  let s ← sdcmd env 8 (CMD8voltage ||| CMD8pattern) .R7
  if s = SDOk then
    setcard fun c => { c with sd2 := true }
    let v := (← get).card.resp32
    if v &&& CMD8patternmask ≠ CMD8pattern then error "check pattern mismatch"
    else if v &&& CMD8voltagemask ≠ CMD8voltage then error "voltage not supported"
  else if s = SDTimeout ∨ s = SDError then reset env
  else throw (errorsd "voltage exchange failed" s)

/-- A turn of the loop that powers the card up: whether it is ready. -/
def exchange (env : Env) : M Bool := do
  let sd2 := (← get).card.sd2
  let v := ACMD41voltagewindow ||| if sd2 then ACMD41sdhcsupported else 0#32
  let s ← sdappcmd env 41 v .R3
  if s < 0 then
    setcard fun c => { c with mmc := c.mmc || (s == SDTimeout && !sd2) }
    throw (errorsd "exchange voltage/sdhc support info" s)
  else
    let v := (← get).card.resp32
    if v &&& ACMD41voltagewindow = 0#32 then error "voltage not supported"
    else if v &&& ACMD41ready ≠ 0#32 then
      setcard fun c => { c with sdhc := v &&& ACMD41sdhcsupported ≠ 0#32 }
      return true
    else return false

/-- The loop, with `left` sleeps to go. -/
def powerup (env : Env) : Nat → M Unit
  | 0 => do if ← exchange env then pure () else error "sd card failed to power up"
  | left + 1 => do
      if ← exchange env then pure ()
      else
        tsleep env
        powerup env left

def identify (env : Env) : M Unit := do
  must "card identification" (sdcmd env 2 0 .R2)
  let (cid, s) := parsecid (← get).card.resp
  setcard fun c => { c with cid := cid }
  if s < 0 then error "bad cid register"

/-- A turn of the loop for the relative address: whether there is one. -/
def address (env : Env) : M Bool := do
  must "getting relative address" (sdcmd env 3 0 .R6)
  setcard fun c => { c with rca := (c.resp.resp2 >>> 24).setWidth 32 &&& MASK 16 }
  return (← get).card.rca ≠ 0#32

/-- The loop, with `left` more turns to go. -/
def relative (env : Env) : Nat → M Unit
  | 0 => do if ← address env then pure () else error "card insists on invalid rca 0"
  | left + 1 => do if ← address env then pure () else relative env left

def getcsd (env : Env) : M Unit := do
  must "get csd" (sdcmd env 9 ((← get).card.rca <<< 16) .R2)
  let c := (← get).card
  let (csd, s) := parsecsd c.csd c.resp
  setcard fun c => { c with csd := csd }
  if s < 0 then error "bad csd register"

/-- `bs` and `size`, from the parsed register. -/
def setsize (csd : Csd) : Int × Int :=
  if csd.vers = 0 then
    let size := uvlong (ulong (csd.size + 1))
    let size := uvlong (size * long (2 ^ (csd.v0.sizemult + 2)))
    let size := uvlong (size * long (2 ^ csd.rbl))
    (ulong (long (2 ^ csd.rbl)), size)
  else
    let bs := 512
    (bs, uvlong (vlong (ulong (csd.size + 1)) * bs * 1024))

/-- `sdinit`, from where the card is selected. -/
def select (env : Env) : M Unit := do
  must "selecting card" (sdcmd env 7 ((← get).card.rca <<< 16) .R1b)
  must "setting buswidth to 4-bit" (sdappcmd env 6 (1 <<< 1) .R1)
  must "setting 512 byte blocksize" (sdcmd env 16 512 .R1)
  setcard fun c => { c with valid := true }

/-- `sdinit`, from where the card has powered up. -/
def register (env : Env) : M Unit := do
  identify env
  relative env 10
  getcsd env
  setcard fun c => { c with bs := (setsize c.csd).1, size := (setsize c.csd).2 }
  -- 50 MHz with `sdhc`, 25 MHz without
  sdclock env
  select env

def sdinit (env : Env) : M Unit := do
  sdclock env
  reset env
  setcard fun c => { c with mmc := false, sd2 := false, sdhc := false, rca := 0#32 }
  sendif env
  powerup env 100
  if (← get).card.mmc then error "possibly mmc card, not yet supported"
  else register env

def sdioinit0 (env : Env) : M Unit := do
  setcard fun c => { c with valid := false }
  tsleep env
  sdclock env

/-- `sdiodevinit`, within its lock. -/
def sdiodevinit (env : Env) : M Unit := do
  sdioinit0 env
  sdinit env
  modify fun w => { w with d :=
    { size := vlong w.card.size
      descr := some
        { prodname := w.card.cid.prodname, serial := w.card.cid.serial
          rev := w.card.cid.rev, year := w.card.cid.year, mon := w.card.cid.mon
          sdhc := w.card.sdhc } } }

/-! ## The capacity -/

/-- The bytes of a card, as its register tells. -/
def capacity (csd : Csd) : Nat :=
  if csd.vers = 0 then (csd.size + 1) * 2 ^ (csd.v0.sizemult + 2) * 2 ^ csd.rbl
  else (csd.size + 1) * (512 * 1024)

private theorem bits_lt (r : Resp) {h l : Nat} (hl : l < h) (hh : h < 128) (hne : h ≠ 64)
    (hw : h + 1 - l ≤ 32) : bits r h l < 2 ^ (h + 1 - l) := by
  rw [bits_slice r hl hh hne hw]
  exact Fields.field_lt ..

theorem parsecsd_sizes {c csd : Csd} {r : Resp} (h : parsecsd c r = (csd, 0)) :
    (csd.vers = 0 ∧ csd.size < 2 ^ 14 ∧ csd.v0.sizemult < 2 ^ 3 ∧ csd.rbl < 2 ^ 4) ∨
      csd.vers ≠ 0 ∧ csd.size < 2 ^ 22 := by
  have hrbl : uchar (bits r 83 80) < 2 ^ 4 := Nat.lt_of_le_of_lt (Nat.mod_le ..)
    (bits_lt r (h := 83) (l := 80) (by decide) (by decide) (by decide) (by decide))
  have hmult : uchar (bits r 49 47) < 2 ^ 3 := Nat.lt_of_le_of_lt (Nat.mod_le ..)
    (bits_lt r (h := 49) (l := 47) (by decide) (by decide) (by decide) (by decide))
  have hsize0 : bits r 75 62 < 2 ^ 14 :=
    bits_lt r (h := 75) (l := 62) (by decide) (by decide) (by decide) (by decide)
  have hsize1 : bits r 69 48 < 2 ^ 22 :=
    bits_lt r (h := 69) (l := 48) (by decide) (by decide) (by decide) (by decide)
  unfold parsecsd at h
  dsimp only at h
  split_ifs at h with hbad hvers
  · exact absurd (congrArg Prod.snd h) (show (-1 : Int) ≠ 0 by decide)
  · obtain rfl := congrArg Prod.fst h
    exact .inl ⟨hvers, hsize0, hmult, hrbl⟩
  · obtain rfl := congrArg Prod.fst h
    exact .inr ⟨hvers, hsize1⟩

theorem capacity_le {c csd : Csd} {r : Resp} (h : parsecsd c r = (csd, 0)) :
    capacity csd ≤ 2 ^ 41 := by
  unfold capacity
  rcases parsecsd_sizes h with ⟨hvers, hsize, hmult, hrbl⟩ | ⟨hvers, hsize⟩
  · rw [if_pos hvers]
    have hpow : ∀ {k m : Nat}, k ≤ m → 2 ^ k ≤ 2 ^ m := Nat.pow_le_pow_right (by decide)
    calc (csd.size + 1) * 2 ^ (csd.v0.sizemult + 2) * 2 ^ csd.rbl
        ≤ 2 ^ 14 * 2 ^ 9 * 2 ^ 15 :=
          Nat.mul_le_mul (Nat.mul_le_mul hsize (hpow (by omega))) (hpow (by omega))
      _ ≤ 2 ^ 41 := by decide
  · rw [if_neg hvers]
    omega

private theorem uvlong_nat {n : Nat} (h : n < 2 ^ 64) : uvlong n = n := by
  unfold uvlong
  omega

private theorem long_pow {k : Nat} (h : k < 31) : long (2 ^ k) = (2 ^ k : Nat) := by
  have hlt : 2 ^ k < 2 ^ 31 := Nat.pow_lt_pow_right (by decide) h
  have hcast : ((2 : Int) ^ k) = (2 ^ k : Nat) := (Nat.cast_pow 2 k).symm
  rw [hcast]
  exact long_eq (Int.le_trans (by decide) (Int.natCast_nonneg _)) (Int.ofNat_lt.2 hlt)

/-- The size is computed without overflow. -/
theorem setsize_capacity {c csd : Csd} {r : Resp} (h : parsecsd c r = (csd, 0)) :
    (setsize csd).2 = capacity csd := by
  have hcap := capacity_le h
  unfold setsize capacity at *
  rcases parsecsd_sizes h with ⟨hvers, hsize, hmult, hrbl⟩ | ⟨hvers, hsize⟩
  · simp only [hvers, if_true] at hcap ⊢
    have hpow : 2 ^ (csd.v0.sizemult + 2) ≤ 2 ^ 9 :=
      Nat.pow_le_pow_right (by decide) (by omega)
    have hpart : (csd.size + 1) * 2 ^ (csd.v0.sizemult + 2) ≤ 2 ^ 14 * 2 ^ 9 :=
      Nat.mul_le_mul hsize hpow
    have hone : (csd.size : Int) + 1 = (csd.size + 1 : Nat) := rfl
    rw [long_pow (by omega), long_pow (by omega), ulong_eq (by omega) (by omega), hone,
      uvlong_nat (by omega), ← Nat.cast_mul,
      uvlong_nat (Nat.lt_of_le_of_lt hpart (by decide)), ← Nat.cast_mul,
      uvlong_nat (Nat.lt_of_le_of_lt hcap (by decide))]
  · simp only [hvers, if_false] at hcap ⊢
    unfold uvlong
    rw [ulong_eq (by omega) (by omega), vlong_eq (by omega) (by omega)]
    omega

end Kirkwood.Ports.SdInit
