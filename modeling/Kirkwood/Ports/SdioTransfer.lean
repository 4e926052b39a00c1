import Mathlib.Algebra.Ring.Divisibility.Basic
import Mathlib.Algebra.Ring.Int.Defs
import Kirkwood.Verified.CInt
import Kirkwood.Verified.Outcome

/-!
# SD transfers

`sdioio` of `kwsdio.c` reads or writes a range of an SD card with multi-block
commands of at most 512 KiB.  Here its result comes with the commands it issued:
what was in the DMA and block registers when `sdcmd` started each.

## Main results

* `sdioio_covers_iff`: the requests that the commands of a call that returned
  cover exactly.
* `sdioio_ne_hang`: the loop ends.

A chunk is as long as the whole request, up to 512 KiB, also when less is left.
The commands therefore run past the end of a longer request that is not a
multiple of 512 KiB, and a request for nothing still issues a command.
-/

namespace Kirkwood.Ports.SdioTransfer

open Kirkwood.Verified.CInt
open Kirkwood.Verified.Outcome

/-! ## The code -/

/-- What a call meets: the card, and for each turn of the loop whether
`preerase` is on and what the two `sdcmd`s return.  The lock is given up between
turns, so `preerase` can change. -/
structure Sdio where
  valid : Bool
  sdhc : Bool
  preerase : Nat → Bool
  preStatus : Nat → Int
  ioStatus : Nat → Int

def CMDReadmulti : Nat := 18
def CMDWritemulti : Nat := 25

/-- The registers that a transfer command runs with. -/
structure Dma where
  cmd : Nat
  arg : Int
  dmaaddrlo : Int
  dmaaddrhi : Int
  blksize : Int
  blkcount : Int
  deriving DecidableEq, Repr

/-- A command that was issued: the application command 23, which announces how
many blocks a write will have, or a transfer. -/
inductive Cmd where
  | preerase (blocks : Int)
  | transfer (dma : Dma)
  deriving DecidableEq, Repr

/-- The registers that `sdcmddma` sets. -/
def sdcmddma (cmd : Nat) (arg a blsz nbl : Int) : Dma :=
  { cmd := cmd
    arg := arg
    dmaaddrlo := a % 2 ^ 16
    dmaaddrhi := a / 2 ^ 16 % 2 ^ 16
    blksize := blsz
    blkcount := nbl }

def errstrs : List String :=
  ["success", "timeout", "card busy", "error", "interrupted", "badstatus"]

/-- `errorsd`, without the register dump that it adds to two of the errors. -/
def errorsd (s : String) (v : Int) : Exn :=
  .error (if v = 0 then s else s ++ ": " ++ errstrs.getD (-v).toNat "")

def Enocard : String := "no card"

/-- The length of every chunk of a request. -/
def chunk (n : Int) : Int :=
  if ulong n > 512 * 1024 then 512 * 1024 else ulong n

/-- The command argument for card offset `off`. -/
def cardArg (c : Sdio) (off : Int) : Int :=
  if c.sdhc then ulong ((vlong off).tdiv 512) else ulong off

/-- The announcement of turn `k`. -/
def announced (c : Sdio) (iswrite : Bool) (k : Nat) (blocks : Int) : List Cmd :=
  if iswrite && c.preerase k then [.preerase blocks] else []

/-- The transfer of a turn with `h` bytes done. -/
def turn (c : Sdio) (iswrite : Bool) (a n off h : Int) : Dma :=
  sdcmddma (if iswrite then CMDWritemulti else CMDReadmulti)
    (cardArg c (off + h)) (ulong (a + h)) 512 (chunk n / 512)

/-- The loop of `sdioio` from turn `k` on, with `h` bytes done: how it ends, and
the commands it issues. -/
def sdioloop (c : Sdio) (iswrite : Bool) (a n off : Int) :
    Nat → Nat → Int → Except Exn Unit × List Cmd
  | 0, _, _ => (.error .hang, [])
  | fuel + 1, k, h =>
      let nn := chunk n
      let pre := announced c iswrite k (nn / 512)
      let dma := turn c iswrite a n off h
      if pre ≠ [] ∧ c.preStatus k < 0 then
        (.error (errorsd "erase before write" (c.preStatus k)), pre)
      else if c.ioStatus k < 0 then
        (.error (errorsd "io" (c.ioStatus k)), pre ++ [.transfer dma])
      else if ulong (h + nn) ≥ ulong n then
        (.ok (), pre ++ [.transfer dma])
      else
        let rest := sdioloop c iswrite a n off fuel (k + 1) (ulong (h + nn))
        (rest.1, pre ++ .transfer dma :: rest.2)

/-- `sdioio`.  The loop makes no more turns than there are chunks. -/
def sdioio (c : Sdio) (iswrite : Bool) (a n off : Int) :
    Except Exn Int × List Cmd :=
  if ¬c.valid then (.error (.error Enocard), [])
  else if ulong a % 4 ≠ 0 then
    (.error (.error "bad buffer alignment..."), [])
  else if off % 512 ≠ 0 then (.error (.error "not sector aligned"), [])
  else if n % 512 ≠ 0 then
    (.error (.error "not multiple of sector size"), [])
  else
    let run := sdioloop c iswrite a n off ((ulong n / (512 * 1024)).toNat + 1) 0 0
    (run.1.map fun _ => n, run.2)

/-! ## What it is for -/

/-- How many bytes of the card one unit of a command argument stands for. -/
def Sdio.unit (c : Sdio) : Int := if c.sdhc then 512 else 1

/-- A transfer of at least 1 and at most 1024 blocks that begins at card offset
`off` and address `a` and moves no more than `n` bytes. -/
structure Fits (c : Sdio) (t : Dma) (off a n : Int) : Prop where
  card : t.arg * c.unit = off
  buffer : t.dmaaddrhi * 2 ^ 16 + t.dmaaddrlo = a
  blksize : t.blksize = 512
  blocks : 1 ≤ t.blkcount ∧ t.blkcount ≤ 1024
  within : t.blksize * t.blkcount ≤ n

/-- The commands of turns `k` and on move exactly the card range `[off, off+n)`
to or from `[a, a+n)`, in order; with `preerase` on, each write is announced
with its block count. -/
def Covers (c : Sdio) (iswrite : Bool) :
    Nat → List Cmd → Int → Int → Int → Prop
  | _, [], _, _, n => n = 0
  | k, .transfer t :: rest, off, a, n =>
      (iswrite && c.preerase k) = false ∧ Fits c t off a n ∧
        Covers c iswrite (k + 1) rest (off + t.blksize * t.blkcount)
          (a + t.blksize * t.blkcount) (n - t.blksize * t.blkcount)
  | k, .preerase blocks :: .transfer t :: rest, off, a, n =>
      (iswrite && c.preerase k) = true ∧ blocks = t.blkcount ∧
        Fits c t off a n ∧
        Covers c iswrite (k + 1) rest (off + t.blksize * t.blkcount)
          (a + t.blksize * t.blkcount) (n - t.blksize * t.blkcount)
  | _, .preerase _ :: _, _, _, _ => False

/-- The arguments of a call: a buffer of `n` bytes in memory, and a card
offset, both in whole sectors. -/
structure Request (a n off : Int) : Prop where
  addr : 0 ≤ a
  inMemory : a + n ≤ 2 ^ 32
  len : 0 ≤ n
  lenLt : n < 2 ^ 31
  lenDvd : 512 ∣ n
  start : 0 ≤ off
  startLt : off < 2 ^ 63
  startDvd : 512 ∣ off

/-- The requests that are covered: not empty, in whole chunks, with the last
chunk at an address that fits a command argument. -/
def Covered (c : Sdio) (n off : Int) : Prop :=
  0 < n ∧ chunk n ∣ n ∧ off + (n - chunk n) < 2 ^ 32 * c.unit

/-! ## One turn -/

section Turn

variable {c : Sdio} {a n off : Int} (hr : Request a n off)

include hr

theorem chunk_range : 0 ≤ chunk n ∧ chunk n ≤ 2 ^ 19 ∧ chunk n ≤ n ∧
    512 ∣ chunk n := by
  have := hr.len
  have := hr.lenLt
  have := hr.lenDvd
  rw [chunk, ulong_eq (by omega) (by omega)]
  split <;> omega

theorem chunk_pos (h : 0 < n) : 0 < chunk n := by
  have := hr.lenLt
  rw [chunk, ulong_eq (by omega) (by omega)]
  split <;> omega

/-- The argument of a command stands for the card offset exactly when that
offset is below 2^32 units. -/
theorem cardArg_iff {h : Int} (hh : 0 ≤ h) (hdvd : 512 ∣ h) :
    cardArg c (off + h) * c.unit = off + h ↔
      off + h < 2 ^ 32 * c.unit := by
  have hstart := hr.start
  have hoff := hr.startDvd
  have hlow := ulong_range
  unfold cardArg Sdio.unit
  cases c.sdhc with
  | false =>
      simp only [Bool.false_eq_true, if_false]
      unfold ulong
      omega
  | true =>
      simp only [if_true]
      constructor
      · intro heq
        have := (hlow ((vlong (off + h)).tdiv 512)).2
        omega
      · intro hlt
        have hdiv : (off + h).tdiv 512 = (off + h) / 512 :=
          Int.tdiv_eq_ediv_of_nonneg (by omega)
        rw [vlong_eq (by omega) (by omega), hdiv, ulong_eq (by omega) (by omega)]
        omega

/-- What a turn's transfer fits. -/
theorem fits_iff {h : Int} (hh : 0 ≤ h) (hlt : h < n) (hdvd : 512 ∣ h)
    (cmd : Nat) :
    Fits c (sdcmddma cmd (cardArg c (off + h)) (ulong (a + h)) 512
        (chunk n / 512)) (off + h) (a + h) (n - h) ↔
      off + h < 2 ^ 32 * c.unit ∧ chunk n ≤ n - h := by
  have hchunk := chunk_range hr
  have hcpos := chunk_pos hr (Int.lt_of_le_of_lt hh hlt)
  have haddr := hr.addr
  have hmem := hr.inMemory
  have hbytes : 512 * (chunk n / 512) = chunk n := by omega
  rw [← cardArg_iff hr hh hdvd]
  constructor
  · intro hf
    exact ⟨hf.card, hbytes ▸ hf.within⟩
  · rintro ⟨hcard, hwithin⟩
    exact
      { card := hcard
        buffer := by
          show ulong (a + h) / 2 ^ 16 % 2 ^ 16 * 2 ^ 16 +
            ulong (a + h) % 2 ^ 16 = a + h
          rw [ulong_eq (by omega) (by omega)]
          omega
        blksize := rfl
        blocks := by
          show 1 ≤ chunk n / 512 ∧ chunk n / 512 ≤ 1024
          omega
        within := by
          show 512 * (chunk n / 512) ≤ n - h
          omega }

end Turn

/-- A loop that returned issued one transfer, and then stopped or went on. -/
theorem sdioloop_ok {c : Sdio} {iswrite : Bool} {a n off : Int} {fuel k : Nat}
    {h : Int} {cmds : List Cmd}
    (hrun : sdioloop c iswrite a n off (fuel + 1) k h = (.ok (), cmds)) :
    ∃ rest, cmds = announced c iswrite k (chunk n / 512) ++
        .transfer (turn c iswrite a n off h) :: rest ∧
      (ulong n ≤ ulong (h + chunk n) ∧ rest = [] ∨
        ulong (h + chunk n) < ulong n ∧
        sdioloop c iswrite a n off fuel (k + 1) (ulong (h + chunk n)) =
          (.ok (), rest)) := by
  simp only [sdioloop] at hrun
  split at hrun
  · exact absurd (congrArg Prod.fst hrun) (by simp)
  · split at hrun
    · exact absurd (congrArg Prod.fst hrun) (by simp)
    · split at hrun
      · rename_i hstop
        exact ⟨[], (congrArg Prod.snd hrun).symm, Or.inl ⟨hstop, rfl⟩⟩
      · rename_i hgo
        obtain ⟨hfst, hsnd⟩ := Prod.mk.inj hrun
        exact ⟨_, hsnd.symm, Or.inr ⟨Int.not_le.mp hgo, Prod.ext hfst rfl⟩⟩

/-- The commands of a turn and the rest cover a range when the transfer fits
its beginning and the rest covers what is left. -/
theorem covers_turn {c : Sdio} {iswrite : Bool} {k : Nat} {t : Dma}
    {rest : List Cmd} {off a n : Int} :
    Covers c iswrite k (announced c iswrite k t.blkcount ++ .transfer t :: rest)
        off a n ↔
      Fits c t off a n ∧
        Covers c iswrite (k + 1) rest (off + t.blksize * t.blkcount)
          (a + t.blksize * t.blkcount) (n - t.blksize * t.blkcount) := by
  unfold announced
  cases hpre : iswrite && c.preerase k with
  | false => simp [Covers, hpre]
  | true => simp [Covers, hpre]

/-! ## Whole calls -/

/-- The transfers of a loop that returned, from `h` bytes on, cover what is left
exactly when that is in whole chunks and the last of them can be addressed. -/
theorem sdioloop_covers_iff {c : Sdio} {a n off : Int} (hr : Request a n off)
    (hpos : 0 < n) (iswrite : Bool) (fuel : Nat) :
    ∀ (k : Nat) (h : Int) (cmds : List Cmd), 0 ≤ h → h < n → 512 ∣ h →
      sdioloop c iswrite a n off fuel k h = (.ok (), cmds) →
      (Covers c iswrite k cmds (off + h) (a + h) (n - h) ↔
        chunk n ∣ n - h ∧ off + (n - chunk n) < 2 ^ 32 * c.unit) := by
  have hchunk := chunk_range hr
  have hcpos := chunk_pos hr hpos
  have hnLt := hr.lenLt
  induction fuel with
  | zero =>
      intro k h cmds _ _ _ hrun
      exact absurd (congrArg Prod.fst hrun) (by simp [sdioloop])
  | succ fuel ih =>
      intro k h cmds hh hlt hdvd hrun
      obtain ⟨rest, rfl, hnext⟩ := sdioloop_ok hrun
      have hbytes : (turn c iswrite a n off h).blksize *
          (turn c iswrite a n off h).blkcount = chunk n := by
        show 512 * (chunk n / 512) = chunk n
        omega
      have hsum : ulong (h + chunk n) = h + chunk n :=
        ulong_eq (by omega) (by omega)
      have hn : ulong n = n := ulong_eq hr.len (by omega)
      have hcount : (turn c iswrite a n off h).blkcount = chunk n / 512 := rfl
      rw [← hcount, covers_turn, hbytes, turn, fits_iff hr hh hlt hdvd]
      rw [hsum, hn] at hnext
      rcases hnext with ⟨hstop, rfl⟩ | ⟨hgo, hrest⟩
      · have hone : chunk n ∣ n - h ↔ n - h = chunk n :=
          ⟨fun hd => Int.le_antisymm (by omega)
            (Int.le_of_dvd (by omega) hd), fun heq => heq ▸ Int.dvd_refl _⟩
        rw [hone]
        simp only [Covers]
        omega
      · have hih := ih (k + 1) (h + chunk n) rest (by omega) hgo (by omega) hrest
        have hless : chunk n ∣ n - (h + chunk n) ↔ chunk n ∣ n - h := by
          rw [← Int.sub_sub]
          exact dvd_sub_self_right
        rw [hless, ← Int.add_assoc, ← Int.add_assoc, ← Int.sub_sub] at hih
        rw [hih]
        omega

/-- A request for nothing issues a transfer of no blocks, which covers
nothing. -/
theorem sdioloop_empty {c : Sdio} {iswrite : Bool} {a off : Int} {fuel : Nat}
    {cmds : List Cmd}
    (hrun : sdioloop c iswrite a 0 off (fuel + 1) 0 0 = (.ok (), cmds)) :
    ¬Covers c iswrite 0 cmds off a 0 := by
  obtain ⟨rest, rfl, -⟩ := sdioloop_ok hrun
  have hcount : (turn c iswrite a 0 off 0).blkcount = chunk 0 / 512 := rfl
  rw [← hcount, covers_turn]
  rintro ⟨hfits, -⟩
  have hblocks : 1 ≤ chunk 0 / 512 := hfits.blocks.1
  exact absurd hblocks (by decide)

/-- **Transfers.**  The commands of a call that returned cover the request
exactly when it is not empty, is in whole chunks, and its last chunk can be
addressed. -/
theorem sdioio_covers_iff {c : Sdio} {iswrite : Bool} {a n off r : Int}
    {cmds : List Cmd} (hr : Request a n off)
    (hrun : sdioio c iswrite a n off = (.ok r, cmds)) :
    Covers c iswrite 0 cmds off a n ↔ Covered c n off := by
  obtain ⟨fuel, hloop⟩ : ∃ fuel,
      sdioloop c iswrite a n off (fuel + 1) 0 0 = (.ok (), cmds) := by
    unfold sdioio at hrun
    split at hrun
    · exact absurd (congrArg Prod.fst hrun) (by simp)
    · split at hrun
      · exact absurd (congrArg Prod.fst hrun) (by simp)
      · split at hrun
        · exact absurd (congrArg Prod.fst hrun) (by simp)
        · split at hrun
          · exact absurd (congrArg Prod.fst hrun) (by simp)
          · obtain ⟨hfst, hsnd⟩ := Prod.mk.inj hrun
            refine ⟨_, Prod.ext ?_ hsnd⟩
            generalize sdioloop c iswrite a n off _ 0 0 = run at hfst
            cases hres : run.1 with
            | ok u => rfl
            | error e =>
                rw [hres] at hfst
                exact absurd hfst (by simp [Except.map])
  rcases Int.lt_or_eq_of_le hr.len with hpos | rfl
  · have hiff := sdioloop_covers_iff hr hpos iswrite _ 0 0 cmds (Int.le_refl 0)
      hpos (Int.dvd_zero _) hloop
    rw [Int.add_zero, Int.add_zero, Int.sub_zero] at hiff
    rw [hiff, Covered]
    exact ⟨fun h => ⟨hpos, h⟩, fun h => h.2⟩
  · exact ⟨fun h => absurd h (sdioloop_empty hloop),
      fun h => absurd h.1 (Int.lt_irrefl 0)⟩

/-- A card with high capacity on which every command succeeds. -/
def goodCard (preerase : Bool) : Sdio :=
  { valid := true
    sdhc := true
    preerase := fun _ => preerase
    preStatus := fun _ => 0
    ioStatus := fun _ => 0 }

/-- A write of 1 MiB to sector 8192, announced in two halves, is covered. -/
theorem sdioio_1MiB :
    ∃ cmds, sdioio (goodCard true) true 0x100000 (2 ^ 20) (8192 * 512) =
        (.ok (2 ^ 20), cmds) ∧
      Covers (goodCard true) true 0 cmds (8192 * 512) 0x100000 (2 ^ 20) := by
  have hrun : sdioio (goodCard true) true 0x100000 (2 ^ 20) (8192 * 512) =
      (.ok (2 ^ 20),
        [.preerase 1024, .transfer ⟨25, 8192, 0, 0x10, 512, 1024⟩,
          .preerase 1024, .transfer ⟨25, 9216, 0, 0x18, 512, 1024⟩]) := by
    decide +kernel
  exact ⟨_, hrun, (sdioio_covers_iff
    { addr := by decide
      inMemory := by decide
      len := by decide
      lenLt := by decide
      lenDvd := by decide
      start := by decide
      startLt := by decide
      startDvd := by decide } hrun).mpr ⟨by decide, by decide, by decide⟩⟩

/-- A read of 512 KiB and one sector moves twice 512 KiB: the second transfer
goes 1023 sectors past the end of the buffer.  A read of nothing issues a
transfer. -/
theorem sdioio_one_sector_more :
    Request 0x100000 (2 ^ 19 + 512) 0 ∧ Request 0x100000 0 0 ∧
      ∃ cmds, sdioio (goodCard false) false 0x100000 (2 ^ 19 + 512) 0 =
          (.ok (2 ^ 19 + 512), cmds) ∧
        cmds = [.transfer ⟨18, 0, 0, 0x10, 512, 1024⟩,
          .transfer ⟨18, 1024, 0, 0x18, 512, 1024⟩] ∧
        ¬Covers (goodCard false) false 0 cmds 0 0x100000 (2 ^ 19 + 512) ∧
        sdioio (goodCard false) false 0x100000 0 0 =
          (.ok 0, [.transfer ⟨18, 0, 0, 0x10, 512, 0⟩]) := by
  have hrun : sdioio (goodCard false) false 0x100000 (2 ^ 19 + 512) 0 =
      (.ok (2 ^ 19 + 512), [.transfer ⟨18, 0, 0, 0x10, 512, 1024⟩,
        .transfer ⟨18, 1024, 0, 0x18, 512, 1024⟩]) := by
    decide +kernel
  refine ⟨?_, ?_, _, hrun, rfl, ?_, by decide +kernel⟩
  · exact ⟨by decide, by decide, by decide, by decide, by decide, by decide,
      by decide, by decide⟩
  · exact ⟨by decide, by decide, by decide, by decide, by decide, by decide,
      by decide, by decide⟩
  · rintro ⟨-, -, -, hsecond, -⟩
    exact absurd hsecond.within (by decide)

/-! ## The loop ends -/

theorem errorsd_ne_hang (s : String) (v : Int) : errorsd s v ≠ .hang := by
  simp only [errorsd, ne_eq, reduceCtorEq, not_false_eq_true]

theorem sdioloop_ne_hang {c : Sdio} {a n off : Int} (hr : Request a n off)
    (iswrite : Bool) (fuel : Nat) :
    ∀ (k : Nat) (h : Int), 0 ≤ h → h ≤ n → n ≤ h + fuel * chunk n → 0 < fuel →
      (sdioloop c iswrite a n off fuel k h).1 ≠ .error .hang := by
  have hchunk := chunk_range hr
  have hnLt := hr.lenLt
  induction fuel with
  | zero =>
      intro _ _ _ _ _ hfuel
      omega
  | succ fuel ih =>
      intro k h hh hle hroom _
      have hn : ulong n = n := ulong_eq hr.len (by omega)
      have hsum : ulong (h + chunk n) = h + chunk n :=
        ulong_eq (by omega) (by omega)
      simp only [sdioloop, hsum, hn]
      split
      · exact fun heq => errorsd_ne_hang _ _ (Except.error.inj heq)
      · split
        · exact fun heq => errorsd_ne_hang _ _ (Except.error.inj heq)
        · split
          · simp
          · rename_i hgo
            have hmore : n ≤ h + chunk n + fuel * chunk n := by
              rw [Int.natCast_succ, Int.add_mul, Int.one_mul] at hroom
              omega
            have hfuel : 0 < fuel := by
              rcases Nat.eq_zero_or_pos fuel with rfl | hf
              · rw [Int.natCast_zero, Int.zero_mul] at hmore
                omega
              · exact hf
            exact ih (k + 1) (h + chunk n) (by omega) (by omega) hmore hfuel

/-- A call with valid arguments returns or raises an error. -/
theorem sdioio_ne_hang {c : Sdio} {a n off : Int} (hr : Request a n off)
    (iswrite : Bool) : (sdioio c iswrite a n off).1 ≠ .error .hang := by
  have hturns : n ≤ 0 + ((ulong n / (512 * 1024)).toNat + 1 : Nat) * chunk n := by
    have hn : ulong n = n := ulong_eq hr.len (by have := hr.lenLt; omega)
    have hlen := hr.len
    rw [Int.zero_add, chunk, hn]
    split
    · omega
    · -- A single chunk.
      have hzero : (n / (512 * 1024)).toNat + 1 = 1 ∨ n = 512 * 1024 := by
        omega
      rcases hzero with hone | hfull
      · exact Int.le_of_eq (by rw [hone, Int.natCast_one, Int.one_mul])
      · rw [hfull]
        decide
  have hloop := sdioloop_ne_hang (c := c) hr iswrite
    ((ulong n / (512 * 1024)).toNat + 1) 0 0 (Int.le_refl 0) hr.len hturns
    (Nat.succ_pos _)
  unfold sdioio
  split
  · simp
  · split
    · simp
    · split
      · simp
      · split
        · simp
        · generalize sdioloop c iswrite a n off _ 0 0 = run at *
          cases hres : run.1 with
          | ok u => simp [Except.map, hres]
          | error e =>
              rw [hres] at hloop
              simpa [Except.map, hres] using hloop

end Kirkwood.Ports.SdioTransfer
