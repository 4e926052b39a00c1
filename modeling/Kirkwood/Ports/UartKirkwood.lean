import Kirkwood.Verified.IntExpr
import Kirkwood.Verified.Mask
import Kirkwood.Verified.Trans

/-!
# The settings of the serial line

`uartkirkwood.c` keeps the format of a character, the break and the divisor latch in
`LCR`, and the request to send in `MCR`.  A setter reads the register, replaces its field
and writes the register back.  While the latch is on, two addresses are the halves of the
baud divisor.

A call is meant to write its own field, and to record the setting in the `Uart`: its
`Effect`.  `kw_bits` writes `MCR` instead.

## Main results

* `call_eq`: the calls that do what they are meant to;
* `Write.comm`: writes of different fields commute;
* `sets_iff`: which calls set their field and leave the others;
* `settings_latest`: runs of such calls.
-/

namespace Kirkwood.Ports.UartKirkwood

open Kirkwood.Verified.IntExpr
open Kirkwood.Verified.Mask
open Kirkwood.Verified.Trans

/-! ## The registers -/

def IERems : BitVec 32 := 1 <<< 3

def LCRbpcmask : BitVec 32 := 3 <<< 0
def LCRbpc5 : BitVec 32 := 0 <<< 0
def LCRbpc6 : BitVec 32 := 1 <<< 0
def LCRbpc7 : BitVec 32 := 2 <<< 0
def LCRbpc8 : BitVec 32 := 3 <<< 0
def LCRstop2b : BitVec 32 := 1 <<< 2
def LCRparity : BitVec 32 := 1 <<< 3
def LCRparityeven : BitVec 32 := 1 <<< 4
def LCRbreak : BitVec 32 := 1 <<< 6
def LCRdivlatch : BitVec 32 := 1 <<< 7

def MCRrts : BitVec 32 := 1 <<< 1

def MSRdcts : BitVec 32 := 1 <<< 0

/-- `UartReg` -/
structure UartReg where
  thr : BitVec 32
  dll : BitVec 32
  ier : BitVec 32
  dlh : BitVec 32
  lcr : BitVec 32
  mcr : BitVec 32
  msr : BitVec 32
deriving DecidableEq, Repr

namespace UartReg

/-- `dll` and `dlh` are where `thr` and `ier` are otherwise. -/
def Latched (reg : UartReg) : Prop := reg.lcr &&& LCRdivlatch ≠ 0#32

instance (reg : UartReg) : Decidable reg.Latched := inferInstanceAs (Decidable (_ ≠ _))

/-- A write to the address of `thr` and `dll`. -/
def store0 (reg : UartReg) (v : BitVec 32) : UartReg :=
  if reg.Latched then { reg with dll := v } else { reg with thr := v }

/-- A write to the address of `ier` and `dlh`. -/
def store1 (reg : UartReg) (v : BitVec 32) : UartReg :=
  if reg.Latched then { reg with dlh := v } else { reg with ier := v }

def load1 (reg : UartReg) : BitVec 32 := if reg.Latched then reg.dlh else reg.ier

end UartReg

/-- `Uart`, with `fena` of its controller. -/
structure Uart where
  freq : Int
  baud : Int
  bits : Int
  stop : Int
  parity : Int
  hup_dcd : Int
  hup_dsr : Int
  fena : Int
  dev : Int
  type : Int
  ferr : Int
  oerr : Int
  berr : Int
  serr : Int
deriving DecidableEq, Repr

structure Line where
  reg : UartReg
  uart : Uart
deriving DecidableEq, Repr

/-! ## The code -/

/-- `tsleep` may raise, and leave the break on. -/
def kw_break (tsleep : Int → Option String) (s : Line) (ms : Int) :
    Except String Unit × Line :=
  let ms := if ms ≤ 0 then 200 else ms
  let s := { s with reg := { s.reg with lcr := s.reg.lcr ||| LCRbreak } }
  match tsleep ms with
  | some msg => (.error msg, s)
  | none => (.ok (), { s with reg := { s.reg with lcr := s.reg.lcr &&& ~~~LCRbreak } })

/-- `(uart->freq+8*baud-1)/(16*baud)` -/
def bgc (freq baud : Int) : Option Expr :=
  div (var freq + 8 * var baud - 1) (16 * var baud)

/-- There is no result when the division is by zero. -/
def kw_baud (s : Line) (baud : Int) : Option (Int × Line) :=
  if s.uart.freq = 0 ∨ baud ≤ 0 then some (-1, s)
  else match bgc s.uart.freq baud with
    | none => none
    | some e =>
        let bgc := BitVec.ofInt 32 e.value
        let reg := { s.reg with lcr := s.reg.lcr ||| LCRdivlatch }
        let reg := reg.store0 (bgc &&& 0xff)
        let reg := reg.store1 ((bgc >>> 8) &&& 0xff)
        let reg := { reg with lcr := reg.lcr &&& ~~~LCRdivlatch }
        some (0, { s with reg := reg, uart := { s.uart with baud := baud } })

/-- The `switch` of `kw_bits`. -/
def bpc (bits : Int) : Option (BitVec 32) :=
  if bits = 5 then some LCRbpc5
  else if bits = 6 then some LCRbpc6
  else if bits = 7 then some LCRbpc7
  else if bits = 8 then some LCRbpc8
  else none

def kw_bits (s : Line) (bits : Int) : Int × Line :=
  let lcr := s.reg.lcr &&& ~~~LCRbpcmask
  match bpc bits with
  | none => (-1, s)
  | some v =>
      -- the line control goes to `mcr`
      (0, { s with reg := { s.reg with mcr := lcr ||| v },
                   uart := { s.uart with bits := bits } })

/-- A setter that replaces the bits under `mask` in `lcr`, with its `switch`. -/
def setlcr (mask : BitVec 32) (switch : Int → Option (BitVec 32))
    (record : Int → Uart → Uart) (s : Line) (x : Int) : Int × Line :=
  let lcr := s.reg.lcr &&& ~~~mask
  match switch x with
  | none => (-1, s)
  | some v =>
      (0, { s with reg := { s.reg with lcr := lcr ||| v }, uart := record x s.uart })

def stop2b (stop : Int) : Option (BitVec 32) :=
  if stop = 1 then some 0#32 else if stop = 2 then some LCRstop2b else none

def kw_stop : Line → Int → Int × Line :=
  setlcr LCRstop2b stop2b fun stop u => { u with stop := stop }

def parityeven (parity : Int) : Option (BitVec 32) :=
  if parity = 'e'.toNat then some (LCRparity ||| LCRparityeven)
  else if parity = 'o'.toNat then some LCRparity
  else if parity = 'n'.toNat then some 0#32
  else none

def kw_parity : Line → Int → Int × Line :=
  setlcr (LCRparity ||| LCRparityeven) parityeven fun parity u =>
    { u with parity := parity }

def kw_rts (s : Line) (on : Int) : Line :=
  let mcr := s.reg.mcr &&& ~~~MCRrts
  let mcr := if on ≠ 0 then mcr ||| MCRrts else mcr &&& ~~~MCRrts
  { s with reg := { s.reg with mcr := mcr } }

/-- What `kw_status` prints. -/
structure Status where
  baud : Int
  hup_dcd : Int
  hup_dsr : Int
  bits : Int
  ems : Bool
  parity : Char
  rts : Bool
  stop : Int
  fena : Int
  dev : Int
  type : Int
  ferr : Int
  oerr : Int
  berr : Int
  serr : Int
  cts : Bool

def status (s : Line) : Status where
  baud := s.uart.baud
  hup_dcd := s.uart.hup_dcd
  hup_dsr := s.uart.hup_dsr
  bits := (s.reg.lcr &&& LCRbpcmask).toNat + 5
  ems := s.reg.load1 &&& IERems ≠ 0#32
  parity :=
    if s.reg.lcr &&& LCRparity ≠ 0#32 then
      if s.reg.lcr &&& LCRparityeven ≠ 0#32 then 'e' else 'o'
    else 'n'
  rts := s.reg.mcr &&& MCRrts ≠ 0#32
  stop := if s.reg.lcr &&& LCRstop2b ≠ 0#32 then 2 else 1
  fena := s.uart.fena
  dev := s.uart.dev
  type := s.uart.type
  ferr := s.uart.ferr
  oerr := s.uart.oerr
  berr := s.uart.berr
  serr := s.uart.serr
  cts := s.reg.msr &&& MSRdcts ≠ 0#32

def Status.text (p : Status) : String :=
  s!"b{p.baud} c{p.hup_dcd} e{p.hup_dsr} l{p.bits} m{p.ems.toNat} p{p.parity} " ++
  s!"r{p.rts.toNat} s{p.stop} i{p.fena}\n" ++
  s!"dev({p.dev}) type({p.type}) framing({p.ferr}) overruns({p.oerr}) " ++
  s!"berr({p.berr}) serr({p.serr})" ++ (if p.cts then " cts" else "") ++ "\n"

/-- What `readstr` gives of the text. -/
def kw_status (s : Line) (n offset : Nat) : List Char :=
  ((status s).text.toList.drop offset).take n

/-! ## The calls -/

/-- A call of a setter, with what `tsleep` of a break does. -/
inductive Call where
  | bits (n : Int)
  | stop (n : Int)
  | parity (c : Int)
  | rts (on : Int)
  | baud (n : Int)
  | brk (ms : Int) (tsleep : Int → Option String)

/-- The result of a call that returns, and the state it leaves; a `void` function has the
result 0. -/
def call (s : Line) : Call → Option (Int × Line)
  | .bits n => some (kw_bits s n)
  | .stop n => some (kw_stop s n)
  | .parity c => some (kw_parity s c)
  | .rts on => some (0, kw_rts s on)
  | .baud n => kw_baud s n
  | .brk ms tsleep =>
      match kw_break tsleep s ms with
      | (.ok (), s) => some (0, s)
      | (.error _, _) => none

def step (s : Line) (c : Call) : Option Line := (call s c).map Prod.snd

/-- The settings. -/
inductive Field where
  | length
  | stop
  | parity
  | rts
  | brk
deriving DecidableEq, Repr

/-- The field that a call sets; `kw_baud` sets none of them. -/
def Call.field : Call → Option Field
  | .bits _ => some .length
  | .stop _ => some .stop
  | .parity _ => some .parity
  | .rts _ => some .rts
  | .baud _ => none
  | .brk _ _ => some .brk

/-- The bits in `lcr` that are of a field, or of the divisor. -/
def lcrmask : Option Field → BitVec 32
  | some .length => LCRbpcmask
  | some .stop => LCRstop2b
  | some .parity => LCRparity ||| LCRparityeven
  | some .rts => 0#32
  | some .brk => LCRbreak
  | none => LCRdivlatch

def mcrmask : Option Field → BitVec 32
  | some .rts => MCRrts
  | _ => 0#32

/-- A field of the registers. -/
def Field.get (f : Field) (reg : UartReg) : BitVec 32 :=
  match f with
  | .rts => reg.mcr &&& MCRrts
  | f => reg.lcr &&& lcrmask (some f)

/-- The setting that a call asks for, if it is one. -/
def Call.setting : Call → Option (BitVec 32)
  | .bits n => bpc n
  | .stop n => stop2b n
  | .parity c => parityeven c
  | .rts on => some (if on ≠ 0 then MCRrts else 0#32)
  | .baud _ => some 0#32
  | .brk _ _ => some 0#32

/-! ## What a call is meant to do -/

/-- A write of the bits of one field, or of the divisor, and its record in the `Uart`. -/
structure Write where
  field : Option Field
  lcr : BitVec 32
  mcr : BitVec 32
  dll : BitVec 32
  dlh : BitVec 32
  record : Int
  lcr_within : lcr &&& lcrmask field = lcr
  mcr_within : mcr &&& mcrmask field = mcr

def Uart.record (field : Option Field) (x : Int) (u : Uart) : Uart :=
  match field with
  | some .length => { u with bits := x }
  | some .stop => { u with stop := x }
  | some .parity => { u with parity := x }
  | some .rts => u
  | some .brk => u
  | none => { u with baud := x }

def Write.apply (w : Write) (s : Line) : Line where
  reg := { s.reg with
    lcr := put s.reg.lcr (lcrmask w.field) w.lcr
    mcr := put s.reg.mcr (mcrmask w.field) w.mcr
    dll := if w.field = none then w.dll else s.reg.dll
    dlh := if w.field = none then w.dlh else s.reg.dlh }
  uart := s.uart.record w.field w.record

theorem lcrmask_apart : ∀ {f g : Option Field}, f ≠ g → lcrmask f &&& lcrmask g = 0#32 := by
  rintro (_ | f) (_ | g) h
  · exact absurd rfl h
  · cases g <;> decide
  · cases f <;> decide
  · cases f <;> cases g <;> first | exact absurd rfl h | decide

theorem mcrmask_apart : ∀ {f g : Option Field}, f ≠ g → mcrmask f &&& mcrmask g = 0#32 := by
  rintro (_ | f) (_ | g) h
  · exact absurd rfl h
  · cases g <;> decide
  · cases f <;> decide
  · cases f <;> cases g <;> first | exact absurd rfl h | decide

theorem record_comm {f g : Option Field} (h : f ≠ g) (x y : Int) (u : Uart) :
    (u.record f x).record g y = (u.record g y).record f x := by
  rcases f with _ | f <;> rcases g with _ | g
  · exact absurd rfl h
  · cases g <;> rfl
  · cases f <;> rfl
  · cases f <;> cases g <;> first | exact absurd rfl h | rfl

private theorem half_comm {f g : Option Field} (h : f ≠ g) (x y z : BitVec 32) :
    (if g = none then y else if f = none then x else z) =
      if f = none then x else if g = none then y else z := by
  rcases f with _ | f
  · rw [if_pos rfl, if_pos rfl, if_neg h.symm]
  · rw [if_neg (Option.some_ne_none f), if_neg (Option.some_ne_none f)]

/-- Writes of different fields commute. -/
theorem Write.comm {w w' : Write} (h : w.field ≠ w'.field) (s : Line) :
    w'.apply (w.apply s) = w.apply (w'.apply s) := by
  simp only [Write.apply, Line.mk.injEq, UartReg.mk.injEq, true_and, and_true]
  exact ⟨⟨half_comm h _ _ _, half_comm h _ _ _,
    put_comm w.lcr_within w'.lcr_within (lcrmask_apart h),
    put_comm w.mcr_within w'.mcr_within (mcrmask_apart h)⟩, record_comm h _ _ _⟩

/-- The write of `v`, as far as it is within the field. -/
def Write.of (field : Option Field) (v dll dlh : BitVec 32) (x : Int) : Write where
  field := field
  lcr := v &&& lcrmask field
  mcr := v &&& mcrmask field
  dll := dll
  dlh := dlh
  record := x
  lcr_within := by rw [BitVec.and_assoc, BitVec.and_self]
  mcr_within := by rw [BitVec.and_assoc, BitVec.and_self]

/-- What a call is meant to do. -/
inductive Effect where
  /-- it does not return -/
  | lost
  /-- it refuses its argument -/
  | refuse
  | write (w : Write)

def Effect.on (s : Line) : Effect → Option (Int × Line)
  | .lost => none
  | .refuse => some (-1, s)
  | .write w => some (0, w.apply s)

/-- A setter of a field with the setting that it asks for. -/
def sets (f : Field) (setting : Option (BitVec 32)) (x : Int) : Effect :=
  match setting with
  | none => .refuse
  | some v => .write (.of (some f) v 0 0 x)

def Call.effect (freq : Int) : Call → Effect
  | .bits n => sets .length (bpc n) n
  | .stop n => sets .stop (stop2b n) n
  | .parity c => sets .parity (parityeven c) c
  | .rts on => sets .rts (some (if on ≠ 0 then MCRrts else 0#32)) on
  | .baud n =>
      if freq = 0 ∨ n ≤ 0 then .refuse
      else match bgc freq n with
        | none => .lost
        | some e =>
            let bgc := BitVec.ofInt 32 e.value
            .write (.of none 0 (bgc &&& 0xff) ((bgc >>> 8) &&& 0xff) n)
  | .brk ms tsleep =>
      match tsleep (if ms ≤ 0 then 200 else ms) with
      | some _ => .lost
      | none => sets .brk (some 0#32) ms

theorem bpc_within {n : Int} {v : BitVec 32} (h : bpc n = some v) :
    v &&& LCRbpcmask = v := by
  unfold bpc at h
  split_ifs at h <;> cases h <;> decide

theorem stop2b_within {n : Int} {v : BitVec 32} (h : stop2b n = some v) :
    v &&& LCRstop2b = v := by
  unfold stop2b at h
  split_ifs at h <;> cases h <;> decide

theorem parityeven_within {n : Int} {v : BitVec 32} (h : parityeven n = some v) :
    v &&& (LCRparity ||| LCRparityeven) = v := by
  unfold parityeven at h
  split_ifs at h <;> cases h <;> decide

section
variable {s : Line}

/-- The write of a field of `lcr`. -/
theorem apply_lcr {f : Field} (hf : f ≠ .rts) {v : BitVec 32}
    (hv : v &&& lcrmask (some f) = v) (x : Int) :
    (Write.of (some f) v 0 0 x).apply s =
      ⟨{ s.reg with lcr := put s.reg.lcr (lcrmask (some f)) v },
        s.uart.record (some f) x⟩ := by
  have hmcr : mcrmask (some f) = 0#32 := by
    cases f <;> first | exact absurd rfl hf | rfl
  simp [Write.apply, Write.of, hv, hmcr]

/-- The setters of `lcr` do what they are meant to. -/
theorem setlcr_eq {f : Field} (hf : f ≠ .rts) {switch : Int → Option (BitVec 32)}
    (hswitch : ∀ {x v}, switch x = some v → v &&& lcrmask (some f) = v) (x : Int) :
    some (setlcr (lcrmask (some f)) switch (fun x u => u.record (some f) x) s x) =
      (sets f (switch x) x).on s := by
  unfold setlcr sets
  cases h : switch x with
  | none => rfl
  | some v =>
      rw [Effect.on, apply_lcr hf (hswitch h)]
      rfl

theorem kw_stop_eq (n : Int) :
    some (kw_stop s n) = (sets .stop (stop2b n) n).on s :=
  setlcr_eq (f := .stop) (by decide) stop2b_within n

theorem kw_parity_eq (c : Int) :
    some (kw_parity s c) = (sets .parity (parityeven c) c).on s :=
  setlcr_eq (f := .parity) (by decide) parityeven_within c

theorem kw_rts_eq (on : Int) :
    some (0, kw_rts s on) =
      (sets .rts (some (if on ≠ 0 then MCRrts else 0#32)) on).on s := by
  have happly (v : BitVec 32) (hv : v &&& MCRrts = v) :
      (Write.of (some .rts) v 0 0 on).apply s =
        ⟨{ s.reg with mcr := put s.reg.mcr MCRrts v }, s.uart⟩ := by
    simp [Write.apply, Write.of, lcrmask, mcrmask, Uart.record, hv]
  unfold kw_rts sets
  rw [Effect.on]
  split_ifs with hon
  · rw [happly _ (by decide)]
    rfl
  · rw [happly _ (by decide), ← put_clear]
    dsimp only
    rw [BitVec.and_assoc, BitVec.and_self]

theorem kw_break_eq (ms : Int) (tsleep : Int → Option String) :
    call s (.brk ms tsleep) = ((Call.brk ms tsleep).effect s.uart.freq).on s := by
  unfold call kw_break Call.effect
  dsimp only
  cases tsleep (if ms ≤ 0 then 200 else ms) with
  | some msg => rfl
  | none =>
      rw [sets, Effect.on, apply_lcr (f := .brk) (by decide) (by decide), put_zero]
      rfl

theorem store0_latched {reg : UartReg} (h : reg.Latched) (v : BitVec 32) :
    reg.store0 v = { reg with dll := v } :=
  if_pos h

theorem store1_latched {reg : UartReg} (h : reg.Latched) (v : BitVec 32) :
    reg.store1 v = { reg with dlh := v } :=
  if_pos h

/-- The writes of the divisor reach it. -/
theorem kw_baud_write (n : Int) (lo hi : BitVec 32) (reg : UartReg) :
    (let reg := ({ reg with lcr := reg.lcr ||| LCRdivlatch }.store0 lo).store1 hi;
      { reg with lcr := reg.lcr &&& ~~~LCRdivlatch }) =
      ((Write.of none 0 lo hi n).apply ⟨reg, s.uart⟩).reg := by
  have hlatch : { reg with lcr := reg.lcr ||| LCRdivlatch }.Latched := by
    show (reg.lcr ||| LCRdivlatch) &&& LCRdivlatch ≠ 0#32
    rw [or_and_self]
    decide
  rw [store0_latched hlatch, store1_latched (by exact hlatch)]
  simp [put_zero, Write.apply, Write.of, lcrmask, mcrmask]

theorem kw_baud_eq (n : Int) :
    call s (.baud n) = ((Call.baud n).effect s.uart.freq).on s := by
  show kw_baud s n = _
  unfold kw_baud Call.effect
  dsimp only
  split_ifs with h
  · rfl
  · cases bgc s.uart.freq n with
    | none => rfl
    | some e =>
        have hwrite := kw_baud_write (s := s) n (BitVec.ofInt 32 e.value &&& 0xff)
          ((BitVec.ofInt 32 e.value >>> 8) &&& 0xff) s.reg
        exact congrArg (fun reg => some (0, Line.mk reg { s.uart with baud := n })) hwrite

end

/-- The call is not a `kw_bits` that is accepted. -/
def Quiet : Call → Prop
  | .bits n => bpc n = none
  | _ => True

/-- All other calls do what they are meant to. -/
theorem call_eq {c : Call} (h : Quiet c) (s : Line) :
    call s c = (c.effect s.uart.freq).on s := by
  cases c with
  | bits n =>
      have hnone : bpc n = none := h
      simp only [call, kw_bits, Call.effect, hnone]
      rfl
  | stop n => exact kw_stop_eq n
  | parity c => exact kw_parity_eq c
  | rts on => exact kw_rts_eq on
  | baud n => exact kw_baud_eq n
  | brk ms tsleep => exact kw_break_eq ms tsleep

/-- Two calls, with their results. -/
def both (s : Line) (a b : Call) : Option (Int × Int × Line) :=
  (call s a).bind fun p => (call p.2 b).map fun q => (p.1, q)

theorem freq_apply (w : Write) (s : Line) : (w.apply s).uart.freq = s.uart.freq := by
  unfold Write.apply
  rcases w.field with _ | f
  · rfl
  · cases f <;> rfl

theorem sets_write {f : Field} {setting : Option (BitVec 32)} {x : Int} {w : Write}
    (h : sets f setting x = .write w) :
    ∃ v, setting = some v ∧ w = .of (some f) v 0 0 x := by
  cases setting with
  | none => cases h
  | some v =>
      cases h
      exact ⟨v, rfl, rfl⟩

/-- A call writes its own field. -/
theorem effect_field {freq : Int} {c : Call} {w : Write} (h : c.effect freq = .write w) :
    w.field = c.field := by
  cases c with
  | bits n | stop n | parity n =>
      obtain ⟨v, -, rfl⟩ := sets_write h
      rfl
  | rts on =>
      cases h
      rfl
  | baud n =>
      simp only [Call.effect] at h
      split_ifs at h
      split at h
      · cases h
      · cases h
        rfl
  | brk ms tsleep =>
      simp only [Call.effect] at h
      split at h
      · cases h
      · obtain ⟨v, -, rfl⟩ := sets_write h
        rfl

/-- Calls that set different fields commute. -/
theorem both_comm {a b : Call} (h : a.field ≠ b.field) (ha : Quiet a) (hb : Quiet b)
    (s : Line) : both s a b = (both s b a).map fun p => (p.2.1, p.1, p.2.2) := by
  unfold both
  simp only [call_eq ha, call_eq hb]
  cases hwa : a.effect s.uart.freq with
  | lost =>
      cases hwb : b.effect s.uart.freq with
      | lost | refuse => simp [Effect.on, hwa]
      | write w' => simp [Effect.on, hwa, freq_apply]
  | refuse =>
      cases hwb : b.effect s.uart.freq with
      | lost | refuse => simp [Effect.on, hwa, hwb]
      | write w' => simp [Effect.on, hwa, hwb, freq_apply]
  | write w =>
      cases hwb : b.effect s.uart.freq with
      | lost | refuse => simp [Effect.on, hwa, hwb, freq_apply]
      | write w' =>
          have hne : w.field ≠ w'.field := by
            rwa [effect_field hwa, effect_field hwb]
          simp [Effect.on, hwa, hwb, freq_apply, Write.comm hne]

/-! ## The fields -/

/-- A field is in `lcr` or in `mcr`. -/
theorem Field.get_eq (f : Field) (reg : UartReg) :
    f.get reg = (reg.lcr &&& lcrmask (some f)) ||| (reg.mcr &&& mcrmask (some f)) := by
  cases f <;> simp [Field.get, lcrmask, mcrmask]

/-- A write sets its field, and no other. -/
theorem Write.get (w : Write) (s : Line) (f : Field) :
    f.get (w.apply s).reg = if w.field = some f then w.lcr ||| w.mcr else f.get s.reg := by
  rw [f.get_eq, f.get_eq]
  unfold Write.apply
  dsimp only
  split_ifs with h
  · rw [← h, and_put_self w.lcr_within, and_put_self w.mcr_within]
  · rw [and_put_other w.lcr_within (lcrmask_apart h),
      and_put_other w.mcr_within (mcrmask_apart h)]

/-- A setting is within its field. -/
theorem setting_within {c : Call} {f : Field} {v : BitVec 32} (hf : c.field = some f)
    (hv : c.setting = some v) :
    (v &&& lcrmask (some f)) ||| (v &&& mcrmask (some f)) = v := by
  cases c with
  | bits n =>
      cases hf
      simp [lcrmask, mcrmask, bpc_within hv]
  | stop n =>
      cases hf
      simp [lcrmask, mcrmask, stop2b_within hv]
  | parity n =>
      cases hf
      simp [lcrmask, mcrmask, parityeven_within hv]
  | rts on =>
      cases hf
      cases hv
      split_ifs <;> decide
  | baud n => cases hf
  | brk ms tsleep =>
      cases hf
      cases hv
      decide

/-- A call writes the setting that it asks for. -/
theorem effect_setting {freq : Int} {c : Call} {w : Write} (h : c.effect freq = .write w)
    {f : Field} (hf : c.field = some f) : c.setting = some (w.lcr ||| w.mcr) := by
  have hwrite : ∃ v dll dlh x, c.setting = some v ∧ w = .of (some f) v dll dlh x := by
    cases c with
    | bits n | stop n | parity n =>
        cases hf
        obtain ⟨v, hv, rfl⟩ := sets_write h
        exact ⟨v, _, _, _, hv, rfl⟩
    | rts on =>
        cases hf
        cases h
        exact ⟨_, _, _, _, rfl, rfl⟩
    | baud n => cases hf
    | brk ms tsleep =>
        cases hf
        simp only [Call.effect] at h
        split at h
        · cases h
        · cases h
          exact ⟨_, _, _, _, rfl, rfl⟩
  obtain ⟨v, dll, dlh, x, hv, rfl⟩ := hwrite
  rw [hv]
  exact congrArg some (setting_within hf hv).symm

/-- The call sets its field when it is accepted, and leaves the others. -/
def Sets (s : Line) (c : Call) : Prop :=
  ∀ r s', call s c = some (r, s') → ∀ f : Field,
    f.get s'.reg = if r = 0 ∧ c.field = some f then c.setting.getD 0 else f.get s.reg

/-- A call is not an accepted `kw_bits`, or the length is already set as it says, and the
request to send is as bit 1 of the setting. -/
def Harmless (s : Line) : Call → Prop
  | .bits n =>
      match bpc n with
      | none => True
      | some v => Field.length.get s.reg = v ∧ Field.rts.get s.reg = v &&& MCRrts
  | _ => True

instance (s : Line) : (c : Call) → Decidable (Harmless s c)
  | .bits n =>
      match h : bpc n with
      | none => .isTrue (by simp only [Harmless, h])
      | some v => decidable_of_iff
          (Field.length.get s.reg = v ∧ Field.rts.get s.reg = v &&& MCRrts)
          (by simp only [Harmless, h])
  | .stop _ | .parity _ | .rts _ | .baud _ | .brk _ _ => .isTrue trivial

theorem quiet_sets {c : Call} (h : Quiet c) (s : Line) : Sets s c := by
  intro r s' hcall f
  rw [call_eq h] at hcall
  cases hw : c.effect s.uart.freq with
  | lost =>
      rw [hw] at hcall
      cases hcall
  | refuse =>
      rw [hw] at hcall
      cases hcall
      simp
  | write w =>
      rw [hw] at hcall
      cases hcall
      rw [w.get, effect_field hw]
      simp only [true_and]
      split_ifs with hf
      · rw [effect_setting hw hf]
        rfl
      · rfl

/-- What an accepted `kw_bits` does to the fields. -/
theorem kw_bits_get {n : Int} {v : BitVec 32} (h : bpc n = some v) (s : Line) (f : Field) :
    f.get (kw_bits s n).2.reg = if f = .rts then v &&& MCRrts else f.get s.reg := by
  have hrts : MCRrts = LCRbpcmask &&& MCRrts := by decide
  simp only [kw_bits, h]
  cases f with
  | length | stop | parity | brk => rfl
  | rts =>
      show put s.reg.lcr LCRbpcmask v &&& MCRrts = v &&& MCRrts
      rw [hrts, ← BitVec.and_assoc, and_put_self (bpc_within h), ← BitVec.and_assoc,
        bpc_within h]

theorem bits_sets_iff {n : Int} {v : BitVec 32} (h : bpc n = some v) (s : Line) :
    Sets s (.bits n) ↔
      Field.length.get s.reg = v ∧ Field.rts.get s.reg = v &&& MCRrts := by
  have hcall : call s (.bits n) = some (0, (kw_bits s n).2) := by
    simp only [call, kw_bits, h]
  have hget := kw_bits_get h s
  constructor
  · intro hsets
    have hlength := hsets _ _ hcall .length
    have hkeep := hsets _ _ hcall .rts
    rw [hget] at hlength hkeep
    simp [Call.field, Call.setting, h] at hlength hkeep
    exact ⟨hlength, hkeep.symm⟩
  · rintro ⟨hlength, hkeep⟩ r s' hcall' f
    rw [hcall] at hcall'
    cases hcall'
    rw [hget]
    cases f with
    | length => simpa [Call.field, Call.setting, h] using hlength
    | rts => simpa [Call.field] using hkeep.symm
    | stop | parity | brk => simp [Call.field]

theorem quiet_or (c : Call) : Quiet c ∨ ∃ n v, c = .bits n ∧ bpc n = some v := by
  cases c with
  | bits n =>
      cases h : bpc n with
      | none => exact .inl h
      | some v => exact .inr ⟨n, v, rfl, h⟩
  | _ => exact .inl trivial

theorem Quiet.harmless {c : Call} (h : Quiet c) (s : Line) : Harmless s c := by
  cases c with
  | bits n =>
      have hnone : bpc n = none := h
      simp only [Harmless, hnone]
  | _ => trivial

theorem sets_iff (s : Line) (c : Call) : Sets s c ↔ Harmless s c := by
  obtain h | ⟨n, v, rfl, h⟩ := quiet_or c
  · exact iff_of_true (quiet_sets h s) (h.harmless s)
  · simp only [bits_sets_iff h, Harmless, h]

/-! ## What is reported -/

/-- What the `Uart` has recorded of a field. -/
def recorded (u : Uart) : Field → Option Int
  | .length => some u.bits
  | .stop => some u.stop
  | .parity => some u.parity
  | .rts => none
  | .brk => none

/-- What `kw_status` prints of a field that is recorded. -/
def Status.reported (p : Status) : Field → Option Int
  | .length => some p.bits
  | .stop => some p.stop
  | .parity => some p.parity.toNat
  | .rts => none
  | .brk => none

/-- The report of a field, from its bits. -/
def decode (v : BitVec 32) : Field → Option Int
  | .length => some (v.toNat + 5)
  | .stop => some (if v &&& LCRstop2b ≠ 0#32 then 2 else 1)
  | .parity => some (Char.toNat (
      if v &&& LCRparity ≠ 0#32 then
        if v &&& LCRparityeven ≠ 0#32 then 'e' else 'o'
      else 'n') : Int)
  | .rts => none
  | .brk => none

theorem reported_eq (s : Line) (f : Field) :
    (status s).reported f = decode (f.get s.reg) f := by
  have hstop : LCRstop2b &&& LCRstop2b = LCRstop2b := by decide
  have hparity : (LCRparity ||| LCRparityeven) &&& LCRparity = LCRparity := by decide
  have heven : (LCRparity ||| LCRparityeven) &&& LCRparityeven = LCRparityeven := by decide
  cases f with
  | length | rts | brk => rfl
  | stop => simp only [Status.reported, status, decode, Field.get, lcrmask,
      BitVec.and_assoc, hstop]
  | parity => simp only [Status.reported, status, decode, Field.get, lcrmask,
      BitVec.and_assoc, hparity, heven]

def Call.arg : Call → Int
  | .bits n => n
  | .stop n => n
  | .parity c => c
  | .rts on => on
  | .baud n => n
  | .brk ms _ => ms

theorem effect_record {freq : Int} {c : Call} {w : Write} (h : c.effect freq = .write w) :
    w.record = c.arg := by
  cases c with
  | bits n | stop n | parity n =>
      obtain ⟨v, -, rfl⟩ := sets_write h
      rfl
  | rts on =>
      cases h
      rfl
  | baud n =>
      simp only [Call.effect] at h
      split_ifs at h
      split at h
      · cases h
      · cases h
        rfl
  | brk ms tsleep =>
      simp only [Call.effect] at h
      split at h
      · cases h
      · cases h
        rfl

/-- What is not a setting is refused. -/
theorem call_refuses {c : Call} (h : c.setting = none) (s : Line) :
    call s c = some (-1, s) := by
  cases c with
  | bits n =>
      have hnone : bpc n = none := h
      simp only [call, kw_bits, hnone]
  | stop n =>
      have hnone : stop2b n = none := h
      simp only [call, kw_stop, setlcr, hnone]
  | parity n =>
      have hnone : parityeven n = none := h
      simp only [call, kw_parity, setlcr, hnone]
  | rts on | baud n => cases h
  | brk ms tsleep => cases h

theorem accepted_setting {s s' : Line} {c : Call} (h : call s c = some (0, s')) :
    ∃ v, c.setting = some v := by
  cases hv : c.setting with
  | none =>
      rw [call_refuses hv] at h
      cases h
  | some v => exact ⟨v, rfl⟩

/-- A call that is refused changes nothing; one that is accepted makes its record. -/
theorem call_result {s s' : Line} {c : Call} {r : Int} (h : call s c = some (r, s')) :
    r = -1 ∧ s' = s ∨ r = 0 ∧ s'.uart = s.uart.record c.field c.arg := by
  obtain hq | ⟨n, v, rfl, hv⟩ := quiet_or c
  · rw [call_eq hq] at h
    cases hw : c.effect s.uart.freq with
    | lost =>
        rw [hw] at h
        cases h
    | refuse =>
        rw [hw] at h
        cases h
        exact .inl ⟨rfl, rfl⟩
    | write w =>
        rw [hw] at h
        cases h
        rw [← effect_field hw, ← effect_record hw]
        exact .inr ⟨rfl, rfl⟩
  · simp only [call, kw_bits, hv] at h
    cases h
    exact .inr ⟨rfl, rfl⟩

theorem recorded_other {g : Option Field} {f : Field} (h : g ≠ some f) (x : Int)
    (u : Uart) : recorded (u.record g x) f = recorded u f := by
  rcases g with _ | g
  · cases f <;> rfl
  · cases g <;> cases f <;> first | exact absurd rfl h | rfl

/-- The argument of a call is what will be read back of its setting. -/
theorem recorded_setting {c : Call} {f : Field} {v : BitVec 32} (hf : c.field = some f)
    (hv : c.setting = some v) (u : Uart) :
    recorded (u.record (some f) c.arg) f = decode v f := by
  cases c with
  | bits n =>
      cases hf
      simp only [Call.setting, bpc] at hv
      split_ifs at hv with h5 h6 h7 h8
      · cases hv; subst h5; rfl
      · cases hv; subst h6; rfl
      · cases hv; subst h7; rfl
      · cases hv; subst h8; rfl
  | stop n =>
      cases hf
      simp only [Call.setting, stop2b] at hv
      split_ifs at hv with h1 h2
      · cases hv; subst h1; rfl
      · cases hv; subst h2; rfl
  | parity n =>
      cases hf
      simp only [Call.setting, parityeven] at hv
      split_ifs at hv with he ho hn
      · cases hv; subst he; rfl
      · cases hv; subst ho; rfl
      · cases hv; subst hn; rfl
  | rts on =>
      cases hf
      rfl
  | baud n => cases hf
  | brk ms tsleep =>
      cases hf
      rfl

/-- `kw_status` prints of a field what is recorded of it. -/
def Reports (s : Line) (f : Field) : Prop := (status s).reported f = recorded s.uart f

/-- A call that sets its field makes the report of it true, and leaves the others true. -/
theorem reports_step {s s' : Line} {c : Call} {r : Int} (hsets : Sets s c)
    (h : call s c = some (r, s')) (f : Field)
    (hf : r = 0 ∧ c.field = some f ∨ Reports s f) : Reports s' f := by
  have hget := hsets r s' h f
  unfold Reports at *
  rw [reported_eq] at *
  obtain ⟨rfl, rfl⟩ | ⟨rfl, huart⟩ := call_result h
  · simpa using hf
  · rw [hget, huart]
    by_cases hfield : c.field = some f
    · obtain ⟨v, hv⟩ := accepted_setting h
      rw [if_pos ⟨rfl, hfield⟩, hfield, recorded_setting hfield hv, hv]
      rfl
    · rw [if_neg fun h => hfield h.2, recorded_other hfield]
      simpa [hfield] using hf

/-! ## Runs -/

/-- The most recent setting of a field that a run of calls accepts, or else `v`. -/
def latest (f : Field) (v : Option (BitVec 32)) : Line → List Call → Option (BitVec 32)
  | _, [] => v
  | s, c :: cs =>
      match call s c with
      | none => v
      | some (r, s') =>
          latest f (if r = 0 ∧ c.field = some f then c.setting else v) s' cs

/-- Where the registers have the latest setting of a field, and report it if there is one or
else `P`, so they have and do after a run of calls that set their fields only. -/
theorem settings_latest {f : Field} {x : BitVec 32} {P : Prop} (cs : List Call)
    {s s' : Line} {v : Option (BitVec 32)} (hall : AllSteps step Harmless s cs)
    (hrun : run step s cs = some s') (hget : f.get s.reg = v.getD x)
    (hrep : v.isSome ∨ P → Reports s f) :
    f.get s'.reg = (latest f v s cs).getD x ∧
      ((latest f v s cs).isSome ∨ P → Reports s' f) := by
  induction cs generalizing s v with
  | nil =>
      cases hrun
      exact ⟨hget, hrep⟩
  | cons c cs ih =>
      cases hcall : call s c with
      | none =>
          have hstep : step s c = none := by rw [step, hcall]; rfl
          simp [run, hstep] at hrun
      | some p =>
          obtain ⟨r, t⟩ := p
          have hstep : step s c = some t := by rw [step, hcall]; rfl
          simp only [AllSteps, hstep] at hall
          rw [run_cons cs hstep] at hrun
          have hsets := (sets_iff s c).2 hall.1
          have hreports := reports_step hsets hcall f
          simp only [latest, hcall]
          apply ih hall.2 hrun
          · rw [hsets r t hcall f]
            split_ifs with h
            · obtain ⟨rfl, -⟩ := h
              obtain ⟨w, hw⟩ := accepted_setting hcall
              rw [hw]
              rfl
            · exact hget
          · split_ifs with h
            · exact fun _ => hreports (.inl h)
            · exact fun hv => hreports (.inr (hrep hv))

/-- A call sets its field only when it is `Harmless`, and so do the calls of a run.  Then
every field has its latest setting, and `kw_status` reports what is recorded of the fields
that were set.  Calls other than an accepted `kw_bits` commute when their fields are
different, and a call that is refused changes nothing. -/
theorem settings_hold_iff (s : Line) :
    (∀ cs, AllSteps step Sets s cs ↔ AllSteps step Harmless s cs) ∧
    (∀ cs s', AllSteps step Harmless s cs → run step s cs = some s' → ∀ f : Field,
      f.get s'.reg = (latest f none s cs).getD (f.get s.reg) ∧
      ((latest f none s cs).isSome ∨ Reports s f → Reports s' f)) ∧
    (∀ a b : Call, a.field ≠ b.field → Quiet a → Quiet b →
      both s a b = (both s b a).map fun p => (p.2.1, p.1, p.2.2)) ∧
    (∀ c s', call s c = some (-1, s') → s' = s) := by
  refine ⟨fun cs => ?_, fun cs s' hall hrun f => ?_, fun a b h ha hb => both_comm h ha hb s,
    fun c s' h => ?_⟩
  · exact allSteps_iff_allSteps (I := fun _ => True) (fun _ _ _ _ _ _ => trivial)
      (fun t c _ _ _ => sets_iff t c) cs trivial
  · exact settings_latest cs hall hrun rfl fun h => h.resolve_left (by simp)
  · obtain ⟨-, rfl⟩ | ⟨h0, -⟩ := call_result h
    · rfl
    · exact absurd h0 (by decide)

def CLOCKFREQ : Int := 200000000
def UartFREQ : Int := CLOCKFREQ

/-- A line with nothing set. -/
def reset : Line where
  reg := ⟨0, 0, 0, 0, 0, 0, 0⟩
  uart := ⟨UartFREQ, 0, 0, 0, 0, 0, 0, 0, 0, 0, 0, 0, 0, 0⟩

/-- Two stop bits and even parity. -/
def console : List Call :=
  [.stop 2, .baud 115200, .parity 'e'.toNat, .bits 9, .brk 0 fun _ => none]

theorem reset_console :
    (∃ s, run step reset console = some s ∧ Field.stop.get s.reg = LCRstop2b ∧
      Field.parity.get s.reg = LCRparity ||| LCRparityeven ∧ Reports s .parity) ∧
    both reset (.stop 2) (.rts 1) =
      (both reset (.rts 1) (.stop 2)).map fun p => (p.2.1, p.1, p.2.2) := by
  obtain ⟨-, hrun, hcomm, -⟩ := settings_hold_iff reset
  have hall : AllSteps step Harmless reset console := by decide
  obtain ⟨s, hs⟩ : ∃ s, run step reset console = some s := ⟨_, rfl⟩
  have hstop := hrun console s hall hs .stop
  have hparity := hrun console s hall hs .parity
  exact ⟨⟨s, hs, hstop.1, hparity.1, hparity.2 (.inl rfl)⟩,
    hcomm (.stop 2) (.rts 1) (by decide) trivial trivial⟩

/-- After `kw_bits` with eight bits the line still has five, and the request to send is
on. -/
theorem bits_misplaced :
    (∃ s, call reset (.bits 8) = some (0, s) ∧ Field.length.get s.reg = LCRbpc5 ∧
      Field.rts.get s.reg = MCRrts ∧ (status s).bits = 5 ∧ s.uart.bits = 8) ∧
    ¬ ∀ (s : Line) (cs : List Call) (s' : Line), run step s cs = some s' →
      ∀ f : Field, f.get s'.reg = (latest f none s cs).getD (f.get s.reg) := by
  refine ⟨⟨_, rfl, by decide, by decide, by decide, by decide⟩, fun h => ?_⟩
  have hlength := h reset [.bits 8] _ rfl .length
  exact absurd hlength (by decide)

end Kirkwood.Ports.UartKirkwood
