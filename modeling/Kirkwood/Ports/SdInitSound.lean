import Kirkwood.Ports.SdInit
import Kirkwood.Verified.Hoare
import Kirkwood.Verified.Trans

/-!
# What an initialisation of an SD card leaves

Each step of `sdinit` keeps the card as it is known, but for the last response, and a log of
calls that were good; an error leaves a card that is not valid.

## Main results

* `sdcmd_spec`, `sdappcmd_spec`: what a command does to the card and the log;
* `sdinit_spec`: what an initialisation that returns has been through;
* `refused_run`: what a card that is not valid is good for;
* `sdiodevinit_all_or_nothing`: these together.
-/

namespace Kirkwood.Ports.SdInit

open Kirkwood.Verified
open Kirkwood.Verified.CInt
open Kirkwood.Verified.Outcome
open Kirkwood.Verified.Hoare
open Kirkwood.Verified.Trans
open Kirkwood.Ports.SdResponse hiding sdcmd uvlong
open Kirkwood.Ports.SdioTransfer (errorsd Enocard)

/-! ## What has happened -/

/-- `resp[2]>>8` after the call. -/
def Entry.resp32 (e : Entry) : BitVec 32 := (e.resp.resp2 >>> 8).setWidth 32

/-- The call did what the next step asks for.  Only command 8 may have failed: an old card
does not know it. -/
def Entry.Good (e : Entry) : Prop :=
  match e.cmd with
  | 8 => e.result = SDTimeout ∨ e.result = SDError ∨ e.result = SDOk ∧
      e.resp32 &&& CMD8patternmask = CMD8pattern ∧
      e.resp32 &&& CMD8voltagemask = CMD8voltage
  | 41 => e.result = SDOk ∧ e.resp32 &&& ACMD41voltagewindow ≠ 0#32
  | 55 => e.result = SDOk ∧ e.resp32 &&& SDappcmd ≠ 0#32
  | _ => e.result = SDOk

theorem Entry.good_ok {cmd : Nat} (hcmd : cmd ≠ 8 ∧ cmd ≠ 41 ∧ cmd ≠ 55) (arg : BitVec 32)
    (resp : Resp) : Entry.Good ⟨cmd, arg, SDOk, resp⟩ := by
  unfold Entry.Good
  split
  · rename_i heq
    exact absurd heq hcmd.1
  · rename_i heq
    exact absurd heq hcmd.2.1
  · rename_i heq
    exact absurd heq hcmd.2.2
  · rfl

/-- The most calls of `sdcmd` that an initialisation makes. -/
def most : Nat := 222

/-- No more than `n` calls, all of them good, those of `K` among them; but for the last
response the card is `c`. -/
structure At (d : Store) (c : Card) (K : List Entry) (n : Nat) (w : World) : Prop where
  card : ∃ core, w.card = { c with toCard := core }
  store : w.d = d
  count : w.log.length ≤ n
  seen : ∀ e ∈ K, e ∈ w.log
  good : ∀ e ∈ w.log, e.Good

/-- The same, with one call more that has returned `s`; where it is an application command,
the call before it may be why. -/
structure Ended (d : Store) (c : Card) (K : List Entry) (n cmd : Nat) (app : Bool) (s : Int)
    (w : World) : Prop where
  result : s ≤ 0
  card : ∃ core, w.card = { c with toCard := core }
  store : w.d = d
  log : ∃ before arg, w.log = before ++ [⟨cmd, arg, s, w.card.resp⟩] ∧ before.length ≤ n ∧
    (∀ e ∈ K, e ∈ before) ∧ ((app = true → s = SDOk) → ∀ e ∈ before, e.Good)

/-- What an error leaves. -/
structure Failed (d : Store) (_ : Exn) (w : World) : Prop where
  valid : w.card.valid = false
  store : w.d = d
  count : w.log.length ≤ most

section
variable {d : Store} {c : Card} {K : List Entry} {n : Nat}

theorem At.failed {w : World} (h : At d c K n w) (hc : c.valid = false) (hn : n ≤ most)
    (e : Exn) : Failed d e w := by
  obtain ⟨core, hcard⟩ := h.card
  refine ⟨?_, h.store, Nat.le_trans h.count hn⟩
  rw [hcard]
  exact hc

theorem Ended.failed {w : World} {cmd : Nat} {app : Bool} {s : Int}
    (h : Ended d c K n cmd app s w)
    (hc : c.valid = false) (hn : n < most) (e : Exn) : Failed d e w := by
  obtain ⟨core, hcard⟩ := h.card
  obtain ⟨before, arg, hlog, hlen, -⟩ := h.log
  refine ⟨?_, h.store, ?_⟩
  · rw [hcard]
    exact hc
  · rw [hlog, List.length_append]
    exact Nat.succ_le_of_lt (Nat.lt_of_le_of_lt hlen hn)

/-- A call that fails may follow. -/
theorem Ended.counted {w : World} {cmd : Nat} {app : Bool} {s t : Int}
    (h : Ended d c K n cmd app s w) (ht : t ≠ SDOk) :
    (∃ core, w.card = { c with toCard := core }) ∧ w.d = d ∧ w.log.length ≤ n + 1 ∧
      (∀ e ∈ K, e ∈ w.log) ∧ ((true = true → t = SDOk) → ∀ e ∈ w.log, e.Good) := by
  obtain ⟨before, arg, hlog, hlen, hseen, -⟩ := h.log
  refine ⟨h.card, h.store, ?_, fun e he => ?_, fun hzero => absurd (hzero rfl) ht⟩
  · rw [hlog, List.length_append]
    exact Nat.succ_le_succ hlen
  · rw [hlog]
    exact List.mem_append_left _ (hseen e he)

/-- A good call is one of the calls from then on. -/
theorem Ended.at {w : World} {cmd : Nat} {app : Bool} {s : Int}
    (h : Ended d c K n cmd app s w) (happ : app = true → s = SDOk)
    (hgood : ∀ arg, Entry.Good ⟨cmd, arg, s, w.card.resp⟩) :
    ∃ arg, At d c (⟨cmd, arg, s, w.card.resp⟩ :: K) (n + 1) w := by
  obtain ⟨before, arg, hlog, hlen, hseen, hbefore⟩ := h.log
  refine ⟨arg, h.card, h.store, ?_, fun e he => ?_, fun e he => ?_⟩
  · rw [hlog, List.length_append]
    exact Nat.succ_le_succ hlen
  · rw [hlog]
    rcases List.mem_cons.1 he with rfl | he
    · exact List.mem_append_right _ (List.mem_singleton_self _)
    · exact List.mem_append_left _ (hseen e he)
  · rw [hlog] at he
    rcases List.mem_append.1 he with he | he
    · exact hbefore happ e he
    · rw [List.mem_singleton.1 he]
      exact hgood arg

theorem Ended.next {w : World} {cmd : Nat} {app : Bool} {s : Int}
    (h : Ended d c K n cmd app s w) (hs : ¬ s < 0)
    (hgood : ∀ arg, Entry.Good ⟨cmd, arg, SDOk, w.card.resp⟩) :
    ∃ arg, At d c (⟨cmd, arg, SDOk, w.card.resp⟩ :: K) (n + 1) w := by
  obtain rfl : s = SDOk := Int.le_antisymm h.result (Int.not_lt.1 hs)
  exact h.at (fun _ => rfl) hgood

theorem At.weaken {L : List Entry} {w : World} (h : At d c L n w) (hK : ∀ e ∈ K, e ∈ L) :
    At d c K n w :=
  { h with seen := fun e he => h.seen e (hK e he) }

/-! ## The commands -/

variable {R : Exn → World → Prop}

theorem begin_spec (env : Env) : Triple (At d c K n) (begin env) (fun _ => At d c K n) R :=
  fun _ hw => ⟨hw.card, hw.store, hw.count, hw.seen, hw.good⟩

theorem ready_spec {P : World → Prop} (hP : ∀ w e, P w → R e w) (a : Answer)
    (left i : Nat) :
    Triple P (ready a left i) (fun _ => P) R := by
  induction left generalizing i with
  | zero => exact Triple.pure fun _ h => h
  | succ left ih =>
      refine Triple.ite (fun _ => ?_) fun _ => Triple.pure fun _ h => h
      cases a.sleep i with
      | none => exact ih (i + 1)
      | some msg => exact Triple.throw fun w h => hP w _ h

theorem sdcmd_result (core : SdResponse.Card) (reg : SdioReg) (rt : Rt) :
    (SdResponse.sdcmd core reg rt).2 ≤ 0 := by
  have hbad : SDBadstatus ≤ 0 := by decide
  have hok : SDOk ≤ 0 := by decide
  unfold SdResponse.sdcmd
  dsimp only
  split_ifs
  · exact hbad
  · exact hok
  · exact hok

theorem At.setcore (core : SdResponse.Card) {w : World} (h : At d c K n w) :
    At d c K n { w with card := { w.card with toCard := core } } := by
  obtain ⟨core', hcard⟩ := h.card
  exact ⟨⟨core, by rw [hcard]⟩, h.store, h.count, h.seen, h.good⟩

theorem command_spec (a : Answer) (rt : Rt) :
    Triple (At d c K n) (command a rt) (fun s w => At d c K n w ∧ s ≤ 0) R := by
  refine Triple.ite (fun _ => Triple.pure fun w h => ⟨h, by decide⟩) fun _ => ?_
  refine Triple.ite (fun _ => ?_) fun _ => ?_
  · refine Triple.modify (fun w h => h.setcore { w.card.toCard with status := a.est })
      (Triple.pure fun w h => ⟨h, ?_⟩)
    split <;> decide
  · refine Triple.ite (fun _ => Triple.pure fun w h => ⟨h, by decide⟩) fun _ => ?_
    refine Triple.get fun w => Triple.modify (fun w' h => h.1.setcore _)
      (Triple.pure fun w' h => ⟨h, sdcmd_result ..⟩)

/-- A call that ends after calls that were good, unless it fails. -/
theorem done_spec (cmd : Nat) (arg : BitVec 32) {app : Bool} {s : Int} (hs : s ≤ 0) :
    Triple (fun w => (∃ core, w.card = { c with toCard := core }) ∧ w.d = d ∧
        w.log.length ≤ n ∧ (∀ e ∈ K, e ∈ w.log) ∧
        ((app = true → s = SDOk) → ∀ e ∈ w.log, e.Good))
      (done cmd arg s) (fun s => Ended d c K n cmd app s) R := by
  rintro w ⟨hcard, hstore, hcount, hseen, hgood⟩
  exact ⟨hs, hcard, hstore, w.log, arg, rfl, hcount, hseen, hgood⟩

theorem sdcmd_spec (hc : c.valid = false) (hn : n < most) (env : Env) (cmd : Nat)
    (arg : BitVec 32) (rt : Rt) :
    Triple (At d c K n) (sdcmd env cmd arg rt) (fun s => Ended d c K n cmd false s)
      (Failed d) := by
  refine (begin_spec env).bind fun a => ?_
  refine (ready_spec (fun w e h => h.failed hc (Nat.le_of_lt hn) e) a 50 0).bind fun b => ?_
  refine Triple.ite (fun _ => ?_) fun _ => ?_
  · refine (command_spec a rt).bind fun s => Triple.fact fun hs => ?_
    exact (done_spec cmd arg hs).conseq
      (fun w h => ⟨h.card, h.store, h.count, h.seen, fun _ => h.good⟩) fun _ _ h => h
  · exact (done_spec cmd arg (by decide)).conseq
      (fun w h => ⟨h.card, h.store, h.count, h.seen, fun _ => h.good⟩) fun _ _ h => h

theorem sdappcmd_spec (hc : c.valid = false) (hn : n + 1 < most) (env : Env) (cmd : Nat)
    (arg : BitVec 32) (rt : Rt) :
    Triple (At d c K n) (sdappcmd env cmd arg rt) (fun s => Ended d c K (n + 1) cmd true s)
      (Failed d) := by
  have hn' : n < most := Nat.lt_of_succ_lt hn
  refine (begin_spec env).bind fun a => ?_
  refine (ready_spec (fun w e h => h.failed hc (Nat.le_of_lt hn') e) a 50 0).bind
    fun b => ?_
  refine Triple.ite (fun _ => ?_) fun _ => ?_
  · refine Triple.get fun w => ?_
    refine ((sdcmd_spec hc hn' env 55 _ .R1).conseq (fun w h => h.1) fun _ _ h => h).bind
      fun s => ?_
    refine Triple.ite (fun hs => ?_) fun hs => Triple.get fun w' => ?_
    · exact (done_spec cmd arg (Int.le_of_lt hs)).conseq
        (fun w h => h.counted (Int.ne_of_lt hs)) fun _ _ h => h
    · refine Triple.ite (fun happ => ?_) fun happ => ?_
      · exact (done_spec cmd arg (by decide)).conseq
          (fun w h => h.1.counted (by decide)) fun _ _ h => h
      · refine ((command_spec (d := d) (c := c) (K := K) (n := n + 1) a rt).conseq
          (fun w h => ?_) fun _ _ h => h).bind fun s => Triple.fact fun hs => ?_
        · obtain ⟨h, rfl⟩ := h
          obtain ⟨arg', hat⟩ := h.next hs fun _ => ⟨rfl, happ⟩
          exact hat.weaken fun e he => List.mem_cons_of_mem _ he
        · exact (done_spec cmd arg hs).conseq
            (fun w h => ⟨h.card, h.store, h.count, h.seen, fun _ => h.good⟩) fun _ _ h => h
  · exact (done_spec cmd arg (by decide)).conseq
      (fun w h => ⟨h.card, h.store, Nat.le_succ_of_le h.count, h.seen, fun _ => h.good⟩)
      fun _ _ h => h

/-- A command that must not fail. -/
theorem must_spec {P : World → Prop} {cmd : Nat} {app : Bool} {x : M Int}
    (hx : Triple P x (fun s => Ended d c K n cmd app s) (Failed d)) (hc : c.valid = false)
    (hn : n < most) (hcmd : cmd ≠ 8 ∧ cmd ≠ 41 ∧ cmd ≠ 55) (msg : String) :
    Triple P (must msg x)
      (fun _ w => ∃ arg, At d c (⟨cmd, arg, SDOk, w.card.resp⟩ :: K) (n + 1) w)
      (Failed d) := by
  refine hx.bind fun s => Triple.ite (fun _ => ?_) fun hs => ?_
  · exact Triple.throw fun w h => h.failed hc hn _
  · exact Triple.pure fun w h => h.next hs fun arg => Entry.good_ok hcmd arg _

/-- Where its response does not matter. -/
theorem must_at {P : World → Prop} {cmd : Nat} {app : Bool} {x : M Int}
    (hx : Triple P x (fun s => Ended d c K n cmd app s) (Failed d)) (hc : c.valid = false)
    (hn : n < most) (hcmd : cmd ≠ 8 ∧ cmd ≠ 41 ∧ cmd ≠ 55) (msg : String) :
    Triple P (must msg x) (fun _ => At d c K (n + 1)) (Failed d) :=
  (must_spec hx hc hn hcmd msg).conseq (fun _ h => h) fun _ _ ⟨_, h⟩ =>
    h.weaken fun _ he => List.mem_cons_of_mem _ he

theorem tsleep_spec (hc : c.valid = false) (hn : n ≤ most) (env : Env) :
    Triple (At d c K n) (tsleep env) (fun _ => At d c K n) (Failed d) := by
  intro w hw
  have hslept : At d c K n { w with sleeps := w.sleeps + 1 } :=
    ⟨hw.card, hw.store, hw.count, hw.seen, hw.good⟩
  have hget : (get : M World) w = .ok w w := rfl
  have hset : (set { w with sleeps := w.sleeps + 1 } : M PUnit) w =
      .ok () { w with sleeps := w.sleeps + 1 } := rfl
  unfold tsleep
  rw [bind_ok hget, bind_ok hset]
  cases env.sleep w.sleeps with
  | none => exact hslept
  | some msg => exact hslept.failed hc hn _

theorem At.mono {m : Nat} {w : World} (h : At d c K n w) (hm : n ≤ m) : At d c K m w :=
  { h with count := Nat.le_trans h.count hm }

/-- A change of the card that does not look at the response. -/
theorem At.set {f : Card → Card}
    (hf : ∀ core, f { c with toCard := core } = { f c with toCard := core }) {w : World}
    (h : At d c K n w) : At d (f c) K n { w with card := f w.card } := by
  obtain ⟨core, hcard⟩ := h.card
  refine ⟨⟨core, ?_⟩, h.store, h.count, h.seen, h.good⟩
  show f w.card = _
  rw [hcard, hf]

theorem setcard_spec {f : Card → Card}
    (hf : ∀ core, f { c with toCard := core } = { f c with toCard := core }) :
    Triple (At d c K n) (setcard f) (fun _ => At d (f c) K n) R :=
  fun _ hw => hw.set hf

theorem Ended.set {f : Card → Card}
    (hf : ∀ core, f { c with toCard := core } = { f c with toCard := core }) {w : World}
    {cmd : Nat} {app : Bool} {s : Int} (h : Ended d c K n cmd app s w) :
    Ended d (f c) K n cmd app s { w with card := f w.card } := by
  obtain ⟨core, hcard⟩ := h.card
  have hnew : f w.card = { f c with toCard := core } := by rw [hcard, hf]
  have hresp : (f w.card).resp = w.card.resp := by rw [hnew, hcard]
  refine ⟨h.result, ⟨core, hnew⟩, h.store, ?_⟩
  obtain ⟨before, arg, hlog, hrest⟩ := h.log
  exact ⟨before, arg, by rw [hresp]; exact hlog, hrest⟩

/-! ## The steps -/

theorem reset_spec (hc : c.valid = false) (hn : n < most) (env : Env) :
    Triple (At d c K n) (reset env) (fun _ => At d c K (n + 1)) (Failed d) :=
  must_at (sdcmd_spec hc hn env 0 0 .R0) hc hn (by decide) _

theorem sendif_spec (hc : c.valid = false) (hn : n + 2 ≤ most) (env : Env) :
    Triple (At d c K n) (sendif env)
      (fun _ w => ∃ sd2, At d { c with sd2 := sd2 } K (n + 2) w) (Failed d) := by
  refine (sdcmd_spec hc (by omega) env 8 _ .R7).bind fun s => ?_
  refine Triple.ite (fun hs => ?_) fun hs => Triple.ite (fun hold => ?_) fun hold => ?_
  · refine Triple.modify (fun w h => h.set (f := fun c => { c with sd2 := true })
      fun _ => rfl) (Triple.get fun w => ?_)
    refine Triple.ite (fun _ => ?_) fun hpat => Triple.ite (fun _ => ?_) fun hvolt => ?_
    · exact Triple.throw fun w h => h.1.failed hc (by omega) _
    · exact Triple.throw fun w h => h.1.failed hc (by omega) _
    · refine Triple.pure fun w' h => ?_
      obtain ⟨h, rfl⟩ := h
      obtain ⟨arg, hat⟩ := h.next (by rw [hs]; decide) fun arg =>
        .inr (.inr ⟨rfl, not_not.1 hpat, not_not.1 hvolt⟩)
      exact ⟨true, (hat.mono (Nat.le_succ _)).weaken fun e he => List.mem_cons_of_mem _ he⟩
  · refine (reset_spec (K := K) hc (by omega) env).conseq (fun w h => ?_)
      fun _ w h => ⟨c.sd2, h⟩
    obtain ⟨arg, hat⟩ := h.at (fun happ => nomatch happ) fun arg =>
      hold.elim .inl fun herror => .inr (.inl herror)
    exact hat.weaken fun e he => List.mem_cons_of_mem _ he
  · exact Triple.throw fun w h => h.failed hc (by omega) _

/-- One of the calls told that the card is ready, and whether it is SDHC. -/
def Powered (c : Card) (K : List Entry) : Prop :=
  ∃ e ∈ K, e.cmd = 41 ∧ e.resp32 &&& ACMD41ready ≠ 0#32 ∧
    c.sdhc = decide (e.resp32 &&& ACMD41sdhcsupported ≠ 0#32)

/-- The voltages are told in the response. -/
theorem Ended.voltage {w : World} {s : Int} (h : Ended d c K n 41 true s w) (hs : ¬ s < 0)
    (hvolt : ¬ w.card.resp32 &&& ACMD41voltagewindow = 0#32) :
    ∃ e : Entry, e.cmd = 41 ∧ e.resp32 = w.card.resp32 ∧ At d c (e :: K) (n + 1) w := by
  have hgood : ∀ arg, Entry.Good ⟨41, arg, SDOk, w.card.resp⟩ := by
    intro arg
    unfold Entry.Good
    exact ⟨rfl, hvolt⟩
  obtain ⟨arg, hat⟩ := h.next hs hgood
  exact ⟨⟨41, arg, SDOk, w.card.resp⟩, rfl, rfl, hat⟩

theorem exchange_spec (hc : c.valid = false) (hn : n + 2 ≤ most) (env : Env) :
    Triple (At d c K n) (exchange env)
      (fun b w => if b then
          ∃ sdhc L, Powered { c with sdhc := sdhc } L ∧
            At d { c with sdhc := sdhc } L (n + 2) w
        else At d c K (n + 2) w)
      (Failed d) := by
  refine Triple.get fun w => ?_
  refine ((sdappcmd_spec hc (by omega) env 41 _ .R3).conseq (fun w h => h.1)
    fun _ _ h => h).bind fun s => ?_
  refine Triple.ite (fun _ => ?_) fun hs => Triple.get fun w => ?_
  · refine Triple.modify (fun w h => h.set
      (f := fun c => { c with mmc := c.mmc || (s == SDTimeout && !_) }) fun _ => rfl) ?_
    exact Triple.throw fun w h => h.failed hc (by omega) _
  · refine Triple.ite (fun _ => ?_) fun hvolt => Triple.ite (fun hready => ?_) fun _ => ?_
    · exact Triple.throw fun w h => h.1.failed hc (by omega) _
    · refine Triple.modify (fun w' h => ?_) (Triple.pure fun _ h => h)
      obtain ⟨h, rfl⟩ := h
      obtain ⟨e, hcmd, hresp, hat⟩ := h.voltage hs hvolt
      rw [← hresp] at hready
      exact ⟨_, _, ⟨e, List.mem_cons_self .., hcmd, hready, by rw [hresp]⟩,
        hat.set (f := fun c => { c with sdhc := _ }) fun _ => rfl⟩
    · refine Triple.pure fun w' h => ?_
      obtain ⟨h, rfl⟩ := h
      obtain ⟨e, -, -, hat⟩ := h.voltage hs hvolt
      exact hat.weaken fun e he => List.mem_cons_of_mem _ he

theorem powerup_spec (hc : c.valid = false) (env : Env) (left : Nat)
    (hn : n + 2 * (left + 1) ≤ most) :
    Triple (At d c K n) (powerup env left)
      (fun _ w => ∃ sdhc L, Powered { c with sdhc := sdhc } L ∧
        At d { c with sdhc := sdhc } L (n + 2 * (left + 1)) w)
      (Failed d) := by
  induction left generalizing n with
  | zero =>
      refine (exchange_spec hc hn env).bind fun b => ?_
      cases b with
      | true => exact Triple.pure fun w h => h
      | false => exact Triple.throw fun w h => h.failed hc hn _
  | succ left ih =>
      refine (exchange_spec hc (by omega) env).bind fun b => ?_
      cases b with
      | true =>
          exact Triple.pure fun w ⟨sdhc, L, hpow, hat⟩ =>
            ⟨sdhc, L, hpow, hat.mono (by omega)⟩
      | false =>
          refine (tsleep_spec hc (by omega) env).bind fun _ => ?_
          have hrest := ih (n := n + 2) (by omega)
          rwa [show n + 2 + 2 * (left + 1) = n + 2 * (left + 1 + 1) by omega] at hrest

theorem identify_spec (hc : c.valid = false) (hn : n < most) (env : Env) :
    Triple (At d c K n) (identify env)
      (fun _ w => ∃ cid, At d { c with cid := cid } K (n + 1) w) (Failed d) := by
  refine (must_at (sdcmd_spec hc hn env 2 0 .R2) hc hn (by decide) _).bind fun _ => ?_
  refine Triple.get fun w => ?_
  refine ((setcard_spec (f := fun c => { c with cid := _ }) fun _ => rfl).conseq
    (fun w h => h.1) fun _ _ h => h).bind fun _ => ?_
  exact Triple.ite (fun hbad => absurd hbad (by decide)) fun _ =>
    Triple.pure fun w h => ⟨_, h⟩

theorem address_spec (hc : c.valid = false) (hn : n < most) (env : Env) :
    Triple (At d c K n) (address env)
      (fun b w => ∃ rca, b = decide (rca ≠ 0#32) ∧ At d { c with rca := rca } K (n + 1) w)
      (Failed d) := by
  refine (must_at (sdcmd_spec hc hn env 3 0 .R6) hc hn (by decide) _).bind fun _ => ?_
  refine Triple.modify (Q := fun w => At d { c with rca := w.card.rca } K (n + 1) w)
    (fun w h => ?_) (Triple.get fun w => Triple.pure fun w' h => ?_)
  · obtain ⟨core, hcard⟩ := h.card
    exact ⟨⟨core, by rw [hcard]⟩, h.store, h.count, h.seen, h.good⟩
  · exact ⟨w'.card.rca, by rw [h.2], h.1⟩

theorem relative_spec (hc : c.valid = false) (env : Env) (left : Nat)
    (hn : n + (left + 1) ≤ most) :
    Triple (At d c K n) (relative env left)
      (fun _ w => ∃ rca, rca ≠ 0#32 ∧ At d { c with rca := rca } K (n + (left + 1)) w)
      (Failed d) := by
  induction left generalizing n c with
  | zero =>
      refine (address_spec hc hn env).bind fun b => Triple.exists fun rca => ?_
      cases b with
      | true => exact Triple.pure fun w h => ⟨rca, of_decide_eq_true h.1.symm, h.2⟩
      | false => exact Triple.throw fun w h => h.2.failed hc hn _
  | succ left ih =>
      refine (address_spec hc (by omega) env).bind fun b => Triple.exists fun rca => ?_
      cases b with
      | true =>
          exact Triple.pure fun w h =>
            ⟨rca, of_decide_eq_true h.1.symm, h.2.mono (by omega)⟩
      | false =>
          have hrest := ih (n := n + 1) (c := { c with rca := rca }) hc (by omega)
          rw [show n + 1 + (left + 1) = n + (left + 1 + 1) by omega] at hrest
          exact hrest.conseq (fun w h => h.2) fun _ _ h => h

theorem parsecsd_result (csd : Csd) (r : Resp) :
    (parsecsd csd r).2 = 0 ∨ (parsecsd csd r).2 = -1 := by
  unfold parsecsd
  dsimp only
  split_ifs <;> simp

/-- The record was parsed from the response to command 9. -/
def Parsed (c : Card) (K : List Entry) : Prop :=
  ∃ e ∈ K, e.cmd = 9 ∧ ∃ csd, parsecsd csd e.resp = (c.csd, 0)

theorem getcsd_spec (hc : c.valid = false) (hn : n < most) (env : Env) :
    Triple (At d c K n) (getcsd env)
      (fun _ w => ∃ csd e, e.cmd = 9 ∧ parsecsd c.csd e.resp = (csd, 0) ∧
        At d { c with csd := csd } (e :: K) (n + 1) w)
      (Failed d) := by
  refine Triple.get fun w => ?_
  refine ((must_spec (sdcmd_spec hc hn env 9 _ .R2) hc hn (by decide) _).conseq
    (fun w h => h.1) fun _ _ h => h).bind fun _ => Triple.exists fun arg => ?_
  refine Triple.get fun w => ?_
  dsimp only
  generalize hparse : parsecsd w.card.csd w.card.resp = parsed
  obtain ⟨csd, s⟩ := parsed
  refine Triple.modify (Q := fun w' => At d { c with csd := csd }
    (⟨9, arg, SDOk, w.card.resp⟩ :: K) (n + 1) w' ∧ w.card.csd = c.csd) (fun w' h => ?_) ?_
  · obtain ⟨h, rfl⟩ := h
    obtain ⟨core, hcard⟩ := h.card
    exact ⟨h.set (f := fun c => { c with csd := csd }) fun _ => rfl, by rw [hcard]⟩
  · refine Triple.ite (fun _ => Triple.throw fun w' h => h.1.failed hc hn _) fun hs =>
      Triple.pure fun w' h => ?_
    have hzero : s = 0 := by
      have hresult := parsecsd_result w.card.csd w.card.resp
      rw [hparse] at hresult
      rcases hresult with hzero | hbad
      · exact hzero
      · exact absurd (by rw [hbad]; decide) hs
    rw [hzero, h.2] at hparse
    exact ⟨csd, ⟨9, arg, SDOk, w.card.resp⟩, rfl, hparse, h.1⟩

/-- The end of `sdinit`, with an application command. -/
theorem select_spec (hc : c.valid = false) (hn : n + 4 ≤ most) (env : Env) :
    Triple (At d c K n) (select env) (fun _ => At d { c with valid := true } K (n + 4))
      (Failed d) := by
  refine Triple.get fun w => ?_
  refine ((must_at (sdcmd_spec hc (by omega) env 7 _ .R1b) hc (by omega) (by decide)
    _).conseq (fun w h => h.1) fun _ _ h => h).bind fun _ => ?_
  refine (must_at (sdappcmd_spec hc (by omega) env 6 _ .R1) hc (by omega) (by decide)
    _).bind fun _ => ?_
  refine (must_at (sdcmd_spec hc (by omega) env 16 512 .R1) hc (by omega) (by decide)
    _).bind fun _ => ?_
  exact setcard_spec fun _ => rfl

/-- What a card has been through when `sdinit` returns. -/
structure Initialised (d : Store) (w : World) : Prop where
  valid : w.card.valid = true
  rca : w.card.rca ≠ 0#32
  size : w.card.size = (setsize w.card.csd).2
  parsed : Parsed w.card w.log
  powered : Powered w.card w.log
  store : w.d = d
  count : w.log.length ≤ most
  good : ∀ e ∈ w.log, e.Good

theorem register_spec (hc : c.valid = false) (hpow : Powered c K) (hn : n + 17 ≤ most)
    (env : Env) :
    Triple (At d c K n) (register env) (fun _ => Initialised d) (Failed d) := by
  refine (identify_spec hc (by omega) env).bind fun _ => Triple.exists fun cid => ?_
  refine (relative_spec (n := n + 1) (c := { c with cid := cid }) hc env 10
    (by omega)).bind fun _ => Triple.exists fun rca => ?_
  refine Triple.conseq (P := fun w => At d { c with cid := cid, rca := rca } K (n + 12) w ∧
    rca ≠ 0#32) (Triple.fact fun hrca => ?_) (fun w h => ⟨h.2, h.1⟩) fun _ _ h => h
  refine (getcsd_spec (c := { c with cid := cid, rca := rca }) hc (by omega) env).bind
    fun _ => Triple.exists fun csd => Triple.exists fun e => ?_
  refine Triple.conseq (P := fun w =>
    At d { c with cid := cid, rca := rca, csd := csd } (e :: K) (n + 13) w ∧
      e.cmd = 9 ∧ parsecsd c.csd e.resp = (csd, 0))
    (Triple.fact fun ⟨hcmd, hparse⟩ => ?_) (fun w h => ⟨h.2.2, h.1, h.2.1⟩) fun _ _ h => h
  refine (setcard_spec fun _ => rfl).bind fun _ => ?_
  refine (tsleep_spec (c := { c with
    cid := cid, rca := rca, csd := csd
    bs := (setsize csd).1, size := (setsize csd).2 }) hc (by omega) env).bind fun _ => ?_
  refine (select_spec (c := { c with
    cid := cid, rca := rca, csd := csd
    bs := (setsize csd).1, size := (setsize csd).2 }) hc (by omega) env).conseq
    (fun _ h => h) fun _ w h => ?_
  obtain ⟨core, hcard⟩ := h.card
  obtain ⟨p, hp, hp41, hready, hsdhc⟩ := hpow
  have hmem : ∀ e' ∈ K, e' ∈ w.log := fun e' he => h.seen e' (List.mem_cons_of_mem _ he)
  refine ⟨by rw [hcard], by rw [hcard]; exact hrca, by rw [hcard], ?_, ?_, h.store,
    Nat.le_trans h.count hn, h.good⟩
  · exact ⟨e, h.seen e (List.mem_cons_self ..), hcmd, c.csd, by rw [hcard]; exact hparse⟩
  · exact ⟨p, hmem p hp, hp41, hready, by rw [hcard]; exact hsdhc⟩

theorem sdinit_spec (hc : c.valid = false) (env : Env) :
    Triple (At d c [] 0) (sdinit env) (fun _ => Initialised d) (Failed d) := by
  refine (tsleep_spec hc (by decide) env).bind fun _ => ?_
  refine (reset_spec hc (by decide) env).bind fun _ => ?_
  refine (setcard_spec fun _ => rfl).bind fun _ => ?_
  refine (sendif_spec (n := 1) (c := { c with
    mmc := false, sd2 := false, sdhc := false, rca := 0#32 }) hc (by decide) env).bind
    fun _ => Triple.exists fun sd2 => ?_
  refine (powerup_spec (n := 3) (c := { c with
    mmc := false, sd2 := sd2, sdhc := false, rca := 0#32 }) hc env 100 (by decide)).bind
    fun _ => Triple.exists fun sdhc => Triple.exists fun L => ?_
  refine Triple.conseq (P := fun w =>
    At d { c with mmc := false, sd2 := sd2, sdhc := sdhc, rca := 0#32 } L 205 w ∧
      Powered { c with mmc := false, sd2 := sd2, sdhc := sdhc, rca := 0#32 } L)
    (Triple.fact fun hpow => Triple.get fun w => Triple.ite (fun _ => ?_) fun _ => ?_)
    (fun w h => ⟨h.2, h.1⟩) fun _ _ h => h
  · exact Triple.throw fun w h => h.1.failed hc (by decide) _
  · exact (register_spec (n := 205) (c := { c with
      mmc := false, sd2 := sd2, sdhc := sdhc, rca := 0#32 }) hc hpow (by decide) env).conseq
      (fun w h => h.1) fun _ _ h => h

end

/-! ## The whole -/

/-- What a routine leaves, whether it returns or raises. -/
def left {α : Type} : EStateM.Result Exn World α → World
  | .ok _ w => w
  | .error _ w => w

def start (card : Card) (d : Store) : World := ⟨card, d, 0, 0, []⟩

/-- `sdioinit` -/
def sdioinit (env : Env) : M Unit := sdioinit0 env

/-- What else a call of `sdioio` meets: what `SdioTransfer.Sdio` holds besides the card, and
what the commands leave in the card. -/
structure Io where
  iswrite : Bool
  a : Int
  n : Int
  off : Int
  preerase : Nat → Bool
  preStatus : Nat → Int
  ioStatus : Nat → Int
  core : SdResponse.Card

def sdioio (card : Card) (x : Io) : Except Exn Int × List SdioTransfer.Cmd :=
  SdioTransfer.sdioio
    { valid := card.valid, sdhc := card.sdhc, preerase := x.preerase
      preStatus := x.preStatus, ioStatus := x.ioStatus } x.iswrite x.a x.n x.off

/-- What is done with a card. -/
inductive Act where
  | io (x : Io)
  | init (env : Env)
  | devinit (env : Env) (d : Store)

def step (card : Card) : Act → Option Card
  | .io x => some (if card.valid then { card with toCard := x.core } else card)
  | .init env => some (left (sdioinit env (start card ⟨0, none⟩))).card
  | .devinit env d => some (left (sdiodevinit env (start card d))).card

/-- A transfer is refused before any command. -/
def Refused (card : Card) : Act → Prop
  | .io x => sdioio card x = (.error (.error Enocard), [])
  | _ => True

/-- An initialisation raises. -/
def Raises (card : Card) : Act → Prop
  | .devinit env d => ∃ e w, sdiodevinit env (start card d) = .error e w
  | _ => True

theorem sdioinit0_spec (env : Env) (card : Card) (d : Store) :
    Triple (· = start card d) (sdioinit0 env)
      (fun _ => At d { card with valid := false } [] 0) (Failed d) := by
  refine Triple.modify (Q := At d { card with valid := false } [] 0) (fun w h => ?_) ?_
  · rw [h]
    exact ⟨⟨card.toCard, rfl⟩, rfl, Nat.le_refl 0, fun e he => (nomatch he),
      fun e he => (nomatch he)⟩
  · exact (tsleep_spec rfl (by decide) env).bind fun _ => tsleep_spec rfl (by decide) env

theorem sdiodevinit_spec (env : Env) (card : Card) (d : Store) :
    Triple (· = start card d) (sdiodevinit env)
      (fun _ w => w.d.size = capacity w.card.csd ∧ Initialised w.d w) (Failed d) := by
  refine (sdioinit0_spec env card d).bind fun _ => ?_
  refine (sdinit_spec rfl env).bind fun _ => ?_
  rintro w ⟨hvalid, hrca, hsize, hparsed, hpow, -, hcount, hgood⟩
  obtain ⟨e, -, -, csd, hparse⟩ := id hparsed
  have hcap := capacity_le hparse
  refine ⟨?_, hvalid, hrca, hsize, hparsed, hpow, rfl, hcount, hgood⟩
  show vlong w.card.size = capacity w.card.csd
  rw [hsize, setsize_capacity hparse]
  exact vlong_eq (by omega) (by omega)

theorem sdioinit_invalid (env : Env) (card : Card) (d : Store) :
    (left (sdioinit env (start card d))).card.valid = false := by
  have hspec := sdioinit0_spec env card d _ rfl
  unfold sdioinit
  cases hrun : sdioinit0 env (start card d) with
  | ok _ w =>
      rw [hrun] at hspec
      exact (hspec.failed rfl (Nat.zero_le _) .fault).valid
  | error e w =>
      rw [hrun] at hspec
      exact hspec.valid

/-- A card that is not valid stays so until an initialisation returns, and nothing is
transferred. -/
theorem refused_run {card : Card} (h : card.valid = false) (acts : List Act)
    (hacts : AllSteps step Raises card acts) : AllSteps step Refused card acts := by
  refine AllSteps.imp (I := fun card => card.valid = false) (fun c a c' hc hg hs => ?_)
    (fun c a c' hc _ _ => ?_) acts h hacts
  · cases a with
    | io x =>
        cases hs
        simp [hc]
    | init env =>
        cases hs
        exact sdioinit_invalid env c ⟨0, none⟩
    | devinit env d =>
        cases hs
        obtain ⟨e, w, herr⟩ := hg
        have hspec := sdiodevinit_spec env c d _ rfl
        rw [herr] at hspec ⊢
        exact hspec.valid
  · cases a with
    | io x =>
        unfold Refused sdioio SdioTransfer.sdioio
        simp [hc]
    | init env => trivial
    | devinit env d => trivial

/-- An initialisation makes at most 222 calls of `sdcmd`.  It returns after good calls only,
with a valid card; after an error the card is not valid, and no transfer gets as far as a
command before another initialisation has returned. -/
theorem sdiodevinit_all_or_nothing (env : Env) (card : Card) (d : Store) :
    match sdiodevinit env (start card d) with
    | .ok _ w =>
        w.log.length ≤ 222 ∧ (∀ e ∈ w.log, e.Good) ∧ Powered w.card w.log ∧
          Parsed w.card w.log ∧ w.card.valid = true ∧ w.card.rca ≠ 0#32 ∧
          w.d.size = capacity w.card.csd
    | .error _ w =>
        w.log.length ≤ 222 ∧ w.card.valid = false ∧ w.d = d ∧
          ∀ acts, AllSteps step Raises w.card acts → AllSteps step Refused w.card acts := by
  have hspec := sdiodevinit_spec env card d _ rfl
  cases hrun : sdiodevinit env (start card d) with
  | ok _ w =>
      rw [hrun] at hspec
      obtain ⟨hsize, h⟩ := hspec
      exact ⟨h.count, h.good, h.powered, h.parsed, h.valid, h.rca, hsize⟩
  | error e w =>
      rw [hrun] at hspec
      exact ⟨hspec.count, hspec.valid, hspec.store, refused_run hspec.valid⟩

/-- A short response. -/
def short (resp0 resp1 resp2 : BitVec 32) : Answer where
  busy := fun _ => false
  sleep := fun _ => none
  interrupts := 0
  st := Scmdcomplete
  est := 0#32
  reg := { resp := fun i => if i.val = 0 then resp0 else if i.val = 1 then resp1
            else if i.val = 2 then resp2 else 0#32
           crc7 := 0#32 }

/-- A card that answers, with the relative address 1. -/
def answers : Env where
  answer := fun i =>
    [short 0 0 0, short 0 6 0x2a, short 0x300 0x200 0, short 0 0 0x20, short 0 0 0,
      short 0 0x400 0].getD i (short 0 0 0x20)
  sleep := fun _ => none

/-- The record of another card. -/
def another : Card where
  resp := ⟨0#64, 0#64, 0#64⟩
  status := 0#32
  valid := true
  cid := ⟨0, [], [], 0, 0, 0, 0⟩
  csd := default
  bs := 512
  size := 1024
  mmc := false
  sd2 := true
  sdhc := true
  rca := 7#32

theorem answers_initialised :
    ∃ w, sdiodevinit answers (start another ⟨0, none⟩) = .ok () w ∧
      w.card.valid = true ∧ w.card.rca ≠ 0#32 ∧ w.d.size = capacity w.card.csd := by
  have hvalid :
      (left (sdiodevinit answers (start another ⟨0, none⟩))).card.valid = true := by
    decide +kernel
  -- nothing is to be evaluated from here on
  generalize answers = env at hvalid ⊢
  have h := sdiodevinit_all_or_nothing env another ⟨0, none⟩
  cases hrun : sdiodevinit env (start another ⟨0, none⟩) with
  | ok u w =>
      rw [hrun] at h
      exact ⟨w, rfl, h.2.2.2.2⟩
  | error e w =>
      rw [hrun] at h hvalid
      exact absurd hvalid (by rw [left, h.2.1]; decide)

end Kirkwood.Ports.SdInit
