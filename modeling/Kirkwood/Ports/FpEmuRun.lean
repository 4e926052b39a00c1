import Kirkwood.Ports.FpEmu

/-!
# Runs of emulated instructions

The loop of `fpiarm`, with the conditions of its instructions.

## Main results

* `fpiarm_run`: a call is a run of the machine with an FPA;
* `fpiarm_block`: code in a straight line is emulated in one call;
* `compare_condok`: which conditions hold after a comparison.
-/

namespace Kirkwood.Ports.FpEmu

open Kirkwood.Verified.Arm (Word flags holds Within)
open Kirkwood.Verified.Fields
open Kirkwood.Verified.Fpa
open Kirkwood.Verified.Outcome
open Kirkwood.Ports.FpiArm

/-! ## Conditions -/

section
variable {cc : Word}

theorem and_flag {o : Nat} (ho : o < 32) : (cc &&& 1#32 <<< o == 0) = !cc.getLsbD o := by
  rw [← flag_eq_getLsbD, Bool.eq_iff_iff, beq_iff_eq, test_iff ho, Bool.not_eq_true']

theorem and_nv : cc &&& (N ||| V) =
    (if cc.getLsbD 31 then N else 0) ||| (if cc.getLsbD 28 then V else 0) := by
  have hN : N = BitVec.twoPow 32 31 := rfl
  have hV : V = BitVec.twoPow 32 28 := rfl
  rw [BitVec.and_or_distrib_left, hN, hV, BitVec.and_twoPow, BitVec.and_twoPow]
  rfl

theorem not_and_nv : ~~~cc &&& (N ||| V) =
    (if cc.getLsbD 31 then 0 else N) ||| (if cc.getLsbD 28 then 0 else V) := by
  rw [and_nv, BitVec.getLsbD_not, BitVec.getLsbD_not]
  cases cc.getLsbD 31 <;> cases cc.getLsbD 28 <;> rfl

/-- `condok` is what the conditions mean. -/
theorem condok_eq (c : BitVec 4) : condok cc c.toNat = holds (flags cc) c := by
  have hz : (cc &&& Z == 0) = !(flags cc).z := and_flag (by decide)
  have hc : (cc &&& C == 0) = !(flags cc).c := and_flag (by decide)
  have hn : (cc &&& N == 0) = !(flags cc).n := and_flag (by decide)
  have hv : (cc &&& V == 0) = !(flags cc).v := and_flag (by decide)
  have hnv : cc &&& (N ||| V) =
      (if (flags cc).n then N else 0) ||| (if (flags cc).v then V else 0) := and_nv
  have hnot : ~~~cc &&& (N ||| V) =
      (if (flags cc).n then 0 else N) ||| (if (flags cc).v then 0 else V) := not_and_nv
  unfold condok holds
  simp only [bne, hz, hc, hn, hv, hnv, hnot]
  generalize c.toNat = k
  obtain ⟨n, z, c, v⟩ := flags cc
  split
  case h_16 => simp [*]
  all_goals cases n <;> cases z <;> cases c <;> cases v <;> rfl

end

/-! ## The loop -/

section
variable {lib : Lib} {m m' : Machine} {op : Word}

/-- Where the loop of `fpiarm` ends. -/
theorem foreign_iff : ((op >>> 8) &&& 0xF ≠ 1 ∨
    (op >>> 24) &&& 0xF ≠ 0xE ∧ (op >>> 24) &&& 0xF &&& ~~~1 ≠ 0xC) ↔ isFpa op = false := by
  have hcp : (op >>> 8) &&& 0xF = 1 ↔ field op.toNat 8 4 = 1 := by
    rw [← toNat_select (x := op) (o := 8) (w := 4) (y := 0xF) rfl, ← BitVec.toNat_inj]
    rfl
  have hx : ((op >>> 24) &&& 0xF).toNat = field op.toNat 24 4 := toNat_select (w := 4) rfl
  have happend : field op.toNat 24 4 = field op.toNat 24 1 + field op.toNat 25 3 * 2 ^ 1 :=
    field_append op.toNat 24 1 3
  have hbit := field_lt op.toNat 24 1
  have hlt := field_lt op.toNat 24 4
  have hclass : ∀ x < 16, (BitVec.ofNat 32 x ≠ 0xE ∧ BitVec.ofNat 32 x &&& ~~~1 ≠ 0xC) ↔
      ¬ (x = 0xE ∨ x / 2 = 6) := by
    decide
  have ho : (op >>> 24) &&& 0xF = BitVec.ofNat 32 (field op.toNat 24 4) := by
    apply BitVec.eq_of_toNat_eq
    rw [hx, BitVec.toNat_ofNat]
    omega
  have hhalf : field op.toNat 24 4 / 2 = field op.toNat 25 3 := by omega
  rw [ho, hclass _ hlt, hhalf, Ne, hcp, ← Bool.not_eq_true, isFpa_iff]
  tauto

theorem state_next : { m with ur := Function.update m.ur .pc (m.ur .pc + 4) }.state =
    m.state.next := by
  have hset := state_setREG (m := m) 15#4 (m.ur .pc + 4)
  unfold setREG at hset
  rw [roff_pc] at hset
  rw [hset]
  rfl

theorem next_frame : Frame m { m with ur := Function.update m.ur .pc (m.ur .pc + 4) } := by
  refine ⟨?_, rfl⟩
  show Function.update m.ur .pc (m.ur .pc + 4) .psr &&& _ = _
  rw [Function.update_of_ne (by decide)]

/-- What a call from `m` on leaves, if the run of the machine with an FPA stops at `t`. -/
def Ends (m : Machine) (n : Nat) (t : Stop Internal) :
    EStateM.Result Exn Machine Nat → Prop
  | .ok k m' => t.trap = some .foreign ∧ k = n + t.count ∧ m'.state = t.state ∧ Frame m m'
  | .error e m' =>
      (match t.trap with
        | none => e = .hang
        | some .abort => e = .fault
        | some .undefined => ∃ op, m'.mem (m'.ur .pc) = some op ∧ e = unimp (m'.ur .pc) op
        | some .foreign => False) ∧
      m'.state = t.state ∧ Frame m m'

theorem Ends.step {n : Nat} {t : Stop Internal} {x : EStateM.Result Exn Machine Nat}
    (h : Ends m' (n + 1) t x) (hframe : Frame m m') :
    Ends m n { t with count := t.count + 1 } x := by
  cases x with
  | ok k s =>
      obtain ⟨htrap, hk, hstate, hs⟩ := h
      refine ⟨htrap, ?_, hstate, hframe.trans hs⟩
      rw [hk]
      exact Nat.add_right_comm ..
  | error e s =>
      obtain ⟨htrap, hstate, hs⟩ := h
      exact ⟨htrap, hstate, hframe.trans hs⟩

theorem cond_eq : (op >>> 28).toNat = (op.extractLsb' 28 4).toNat := by
  have hlt := op.isLt
  rw [BitVec.toNat_ushiftRight, BitVec.extractLsb'_toNat, Nat.shiftRight_eq_div_pow]
  omega

/-- The body of the loop, with the word at `pc`. -/
theorem fpiarmLoop_succ {fuel n : Nat} : fpiarmLoop lib (fuel + 1) n m =
    match getulong m.mem (m.ur .pc) with
    | .error e => .error e m
    | .ok op =>
        if isFpa op = false then .ok n m
        else
          match if holds m.state.flags (op.extractLsb' 28 4) then
              fpemu lib (m.ur .pc) op m else .ok m with
          | .error e => .error e m
          | .ok m => fpiarmLoop lib fuel (n + 1)
              { m with ur := Function.update m.ur .pc (m.ur .pc + 4) } := by
  rw [fpiarmLoop]
  cases getulong m.mem (m.ur .pc) with
  | error e => rfl
  | ok op =>
      simp only [foreign_iff, cond_eq, condok_eq]
      rfl

/-- An instruction whose condition holds. -/
theorem fpemu_perform {pc : Word} (hop : isFpa op = true)
    (hcond : holds m.state.flags (op.extractLsb' 28 4) = true) :
    (fpemu lib pc op m).map Machine.state =
      (perform (arith lib) op m.state).mapError (raise pc op) := by
  rw [fpemu_decode hop]
  unfold perform
  rw [if_pos hcond]
  cases decode op with
  | none => rfl
  | some i => rfl

theorem getulong_some (hmem : m.mem (m.ur .pc) = some op) :
    getulong m.mem (m.ur .pc) = .ok op := by
  unfold getulong
  rw [hmem]

theorem fetch_pc (hmem : m.mem (m.ur .pc) = some op) :
    fetch m.state.mem m.state.pc = .ok op := by
  have hpc : m.state.mem m.state.pc = some op := hmem
  unfold fetch
  rw [hpc]

/-- What the loop does with an instruction of the coprocessor. -/
def body (lib : Lib) (op : Word) (m : Machine) : Except Exn Machine :=
  if holds m.state.flags (op.extractLsb' 28 4) then fpemu lib (m.ur .pc) op m else .ok m

theorem loop_stop {fuel n : Nat} (hmem : m.mem (m.ur .pc) = some op)
    (hop : isFpa op = false) : fpiarmLoop lib (fuel + 1) n m = .ok n m := by
  rw [fpiarmLoop_succ, getulong_some hmem]
  exact if_pos hop

theorem loop_error {fuel n : Nat} {e : Exn} (hmem : m.mem (m.ur .pc) = some op)
    (hop : isFpa op = true) (h : body lib op m = .error e) :
    fpiarmLoop lib (fuel + 1) n m = .error e m := by
  rw [fpiarmLoop_succ, getulong_some hmem]
  unfold body at h
  simp only [hop, Bool.true_eq_false, if_false, h]

theorem loop_next {fuel n : Nat} (hmem : m.mem (m.ur .pc) = some op)
    (hop : isFpa op = true) (h : body lib op m = .ok m') :
    fpiarmLoop lib (fuel + 1) n m = fpiarmLoop lib fuel (n + 1)
      { m' with ur := Function.update m'.ur .pc (m'.ur .pc + 4) } := by
  rw [fpiarmLoop_succ, getulong_some hmem]
  unfold body at h
  simp only [hop, Bool.true_eq_false, if_false, h]

/-- A step of the machine is one instruction of the loop. -/
theorem step_state (hmem : m.mem (m.ur .pc) = some op) (hop : isFpa op = true) :
    step (arith lib) m.state = perform (arith lib) op m.state >>= fun s => .ok s.next := by
  unfold step
  simp only [fetch_pc hmem, ok_bind, hop, if_true]

theorem body_perform (hop : isFpa op = true) : (body lib op m).map Machine.state =
    (perform (arith lib) op m.state).mapError (raise (m.ur .pc) op) := by
  unfold body
  cases hcond : holds m.state.flags (op.extractLsb' 28 4) with
  | true =>
      rw [if_pos rfl]
      exact fpemu_perform hop hcond
  | false =>
      unfold perform
      rw [hcond, if_neg Bool.false_ne_true, if_neg Bool.false_ne_true]
      rfl

theorem body_frame (h : body lib op m = .ok m') : Frame m m' := by
  unfold body at h
  split at h
  · exact fpemu_frame h
  · cases h
    exact Frame.refl m

/-- The loop does what the machine does, one instruction after the other. -/
theorem fpiarmLoop_ends (fuel n : Nat) (m : Machine) :
    Ends m n (run (arith lib) fuel m.state) (fpiarmLoop lib fuel n m) := by
  induction fuel generalizing n m with
  | zero => exact ⟨rfl, rfl, Frame.refl m⟩
  | succ fuel ih =>
      cases hmem : m.mem (m.ur .pc) with
      | none =>
          have hloop : fpiarmLoop lib (fuel + 1) n m = .error .fault m := by
            rw [fpiarmLoop_succ, getulong, hmem]
          have hstep : step (arith lib) m.state = .error .abort := by
            have hpc : m.state.mem m.state.pc = none := hmem
            unfold step fetch
            rw [hpc, error_bind]
          rw [hloop, run_error hstep]
          exact ⟨rfl, rfl, Frame.refl m⟩
      | some op =>
          cases hop : isFpa op with
          | false =>
              have hstep : step (arith lib) m.state = .error .foreign := by
                unfold step
                simp only [fetch_pc hmem, ok_bind, hop, Bool.false_eq_true, if_false]
              rw [loop_stop hmem hop, run_error hstep]
              exact ⟨rfl, rfl, rfl, Frame.refl m⟩
          | true =>
              have hmap : (body lib op m).map Machine.state = _ := body_perform hop
              have hstep : step (arith lib) m.state = _ := step_state hmem hop
              cases hperform : perform (arith lib) op m.state with
              | ok s =>
                  rw [hperform] at hmap hstep
                  obtain ⟨m', hbody, rfl⟩ := map_eq_ok hmap
                  rw [ok_bind, ← state_next] at hstep
                  rw [loop_next hmem hop hbody, run_ok hstep]
                  exact (ih (n + 1) _).step ((body_frame hbody).trans next_frame)
              | error e =>
                  have hne := perform_trap hperform
                  rw [hperform] at hmap hstep
                  rw [loop_error hmem hop (map_eq_error hmap), run_error hstep]
                  cases e with
                  | undefined => exact ⟨⟨op, hmem, rfl⟩, rfl, Frame.refl m⟩
                  | abort => exact ⟨rfl, rfl, Frame.refl m⟩
                  | foreign => exact absurd rfl hne

/-- The machine at the start of the loop. -/
def entry (sp : Word) (m : Machine) : Machine :=
  { m with ur := Function.update m.ur .type sp, ufp := fpinit m.ufp }

/-- **A call of `fpiarm`.** It is a run of the machine with an FPA, up to the first word
that is no instruction of the coprocessor, or to the error at one that it cannot do. -/
theorem fpiarm_run (lib : Lib) (fuel : Nat) (sp : Word) (m : Machine) :
    Ends (entry sp m) 0 (run (arith lib) fuel (entry sp m).state)
      (fpiarm lib fuel sp true m) :=
  fpiarmLoop_ends fuel 0 (entry sp m)

/-- **Code in a straight line.** One call emulates all of it, and returns its length. -/
theorem fpiarm_block {is : List (BitVec 4 × Insn)} {sp : Word} {s : State Internal}
    {fuel : Nat} (hplaced : Placed m.mem (m.ur .pc) is)
    (hstraight : Straight (arith lib) (Within (m.ur .pc) is.length) is (entry sp m).state)
    (hblock : block (arith lib) is (entry sp m).state = .ok s)
    (hend : s.mem s.pc = some op) (hop : isFpa op = false) (hfuel : is.length < fuel) :
    ∃ m', fpiarm lib fuel sp true m = .ok is.length m' ∧ m'.state = s ∧
      Frame (entry sp m) m' := by
  obtain ⟨k, rfl⟩ : ∃ k, fuel = is.length + (k + 1) := ⟨fuel - is.length - 1, by omega⟩
  have hpc : (entry sp m).state.pc = m.ur .pc := by
    show Function.update m.ur .type sp .pc = m.ur .pc
    rw [Function.update_of_ne (by decide)]
  have hstep : step (arith lib) s = .error .foreign := by
    unfold step fetch
    simp only [hend, ok_bind, hop, Bool.false_eq_true, if_false]
  rw [← hpc] at hplaced hstraight
  have hends : Ends (entry sp m) 0 (run (arith lib) (is.length + (k + 1))
      (entry sp m).state) (fpiarm lib (is.length + (k + 1)) sp true m) :=
    fpiarmLoop_ends _ 0 (entry sp m)
  rw [run_block hplaced hstraight hblock (k + 1), run_error hstep] at hends
  cases hcall : fpiarm lib (is.length + (k + 1)) sp true m with
  | ok n m' =>
      rw [hcall] at hends
      obtain ⟨-, hn, hstate, hframe⟩ := hends
      refine ⟨m', ?_, hstate, hframe⟩
      rw [hn, Nat.zero_add]
      rfl
  | error e m' =>
      rw [hcall] at hends
      exact hends.1.elim

/-! ### A sample -/

/-- `MVF F1, #2`, `ADF F0, F1, #1`, `CMF F0, #3` and `MNFEQ F2, F0` -/
def sampleCode : List (BitVec 4 × Insn) :=
  [(14#4, .monadic 0#4 1#3 (.const 2#3)),
    (14#4, .dyadic 0#4 0#3 1#3 (.const 1#3)),
    (14#4, .compare false false 0#3 (.const 3#3)),
    (0#4, .monadic 1#4 2#3 (.reg 0#3))]

/-- Register 2 becomes -3. -/
theorem fpiarm_sample : ∃ m', fpiarm sampleLib 5 0x1000 true sample = .ok 4 m' ∧
    m'.ufp.regs 2#3 = fmovn (fpconst 3) := by
  have hplaced : Placed sample.mem (sample.ur .pc) sampleCode :=
    ⟨⟨_, rfl, by decide, by decide⟩, ⟨_, rfl, by decide, by decide⟩,
      ⟨_, rfl, by decide, by decide⟩, ⟨_, rfl, by decide, by decide⟩, trivial⟩
  have hregisters : ∀ ci ∈ sampleCode,
      ¬ ci.2.Jumps ∧ ∀ s : State Internal, ci.2.writes s = [] := by
    intro ci hci
    simp only [sampleCode, List.mem_cons, List.not_mem_nil, or_false] at hci
    rcases hci with rfl | rfl | rfl | rfl
    all_goals exact ⟨id, fun _ => rfl⟩
  have hresult :
      (block (arith sampleLib) sampleCode (entry 0x1000 sample).state).toOption.map
        (fun s => (s.f 2#3, s.mem s.pc)) = some (fmovn (fpconst 3), some 0xE1A00000) := by
    decide +kernel
  cases hblock : block (arith sampleLib) sampleCode (entry 0x1000 sample).state with
  | error e =>
      rw [hblock] at hresult
      cases hresult
  | ok s =>
      rw [hblock] at hresult
      obtain ⟨hreg, hend⟩ := Prod.mk.inj (Option.some.inj hresult)
      have hfuel : sampleCode.length < 5 := by decide
      obtain ⟨m', hcall, hstate, -⟩ := fpiarm_block hplaced
        (straight_of_registers hregisters _) hblock hend (by decide) hfuel
      refine ⟨m', hcall, ?_⟩
      rw [← hreg, ← hstate]
      rfl

/-! ## Comparisons -/

inductive Relation where
  | less
  | equal
  | greater
  | unordered
  deriving DecidableEq, Repr

/-- The conditions that hold, of `EQ`, `NE`, `CS`, `CC`, `MI`, `PL`, `VS`, `VC`, `HI`, `LS`,
`GE`, `LT`, `GT`, `LE` and `AL`. -/
def Relation.conditions : Relation → List Nat
  | .less => [1, 3, 4, 7, 9, 11, 13, 14]
  | .equal => [0, 2, 5, 7, 9, 10, 13, 14]
  | .greater => [1, 2, 5, 7, 8, 10, 12, 14]
  | .unordered => [1, 2, 5, 6, 8, 11, 13, 14]

section
variable {α : Type} [LinearOrder α]

/-- Infinities count as unordered, like the other weird numbers. -/
def relation (rep : Internal → α) (a b : Internal) : Relation :=
  if IsWeird a ∨ IsWeird b then .unordered
  else if rep a < rep b then .less
  else if rep a = rep b then .equal
  else .greater

/-- What `fpicmp` is called for. -/
structure Compares (lib : Lib) (rep : Internal → α) : Prop where
  lt : ∀ {a b}, ¬ IsWeird a → ¬ IsWeird b → (lib.fpicmp a b < 0 ↔ rep a < rep b)
  eq : ∀ {a b}, ¬ IsWeird a → ¬ IsWeird b → (lib.fpicmp a b = 0 ↔ rep a = rep b)

/-- The flags of each relation. -/
def Relation.cc : Relation → Word
  | .less => N
  | .equal => C ||| Z
  | .greater => C
  | .unordered => V ||| C

theorem fcmp_relation {rep : Internal → α} (h : Compares lib rep) (a b : Internal) :
    fcmp lib a b = (relation rep a b).cc := by
  unfold fcmp relation
  by_cases hweird : IsWeird a ∨ IsWeird b
  · rw [if_pos hweird.symm, if_pos hweird]
    rfl
  · rw [if_neg fun h => hweird h.symm, if_neg hweird]
    obtain ⟨ha, hb⟩ := not_or.1 hweird
    simp only [← h.lt ha hb, ← h.eq ha hb]
    rcases lt_trichotomy (lib.fpicmp a b) 0 with hlt | heq | hgt
    · rw [if_neg (by omega), if_neg (by omega), if_pos hlt]
      rfl
    · rw [if_neg (by omega), if_pos heq, if_neg (by omega), if_pos heq]
      rfl
    · rw [if_pos hgt, if_neg (by omega), if_neg (by omega)]
      rfl

theorem holds_cc (r : Relation) (c : BitVec 4) :
    holds (flags r.cc) c = decide (c.toNat ∈ r.conditions) := by
  cases r <;> revert c <;> decide

/-- **Comparisons.** Which conditions hold after `CMF` and `CNF` of two registers or a
register and a constant. -/
theorem compare_condok {rep : Internal → α} (h : Compares lib rep) (pc : Word)
    {negated exception : Bool} {fn : BitVec 3} {fm : Operand}
    (hop : Matches op (.compare negated exception fn fm)) :
    ∃ m', fpemu lib pc op m = .ok m' ∧ ∀ c : BitVec 4,
      condok (m'.ur .psr) c.toNat = decide (c.toNat ∈ (relation rep (m.ufp.regs fn)
        (if negated then fmovn (fm.read (arith lib) m.state)
          else fm.read (arith lib) m.state)).conditions) := by
  obtain ⟨m', hm', hstate⟩ := map_eq_ok (fpemu_matches pc hop.isFpa hop)
  refine ⟨m', hm', fun c => ?_⟩
  have hflags := congrArg State.flags hstate
  have hcc : flags (m'.ur .psr) = flags (fcmp lib (m.ufp.regs fn)
      (if negated then fmovn (fm.read (arith lib) m.state)
        else fm.read (arith lib) m.state)) := hflags
  rw [condok_eq, hcc, fcmp_relation h, holds_cc]

theorem sampleLib_compares : Compares sampleLib key where
  lt _ _ := sub_neg
  eq _ _ := sub_eq_zero

/-- `CMF F1, #1` where register 1 has two: `GT` holds. -/
theorem compare_sample : ∃ m', fpemu sampleLib 0 0xEE91F119
    { sample with ufp := { sample.ufp with regs := fun _ => fpconst 2 } } = .ok m' ∧
      condok (m'.ur .psr) 12 = true := by
  have hop : Matches 0xEE91F119 (.compare false false 1#3 (.const 1#3)) := by decide
  obtain ⟨m', hm', hcond⟩ := compare_condok sampleLib_compares 0
    (m := { sample with ufp := { sample.ufp with regs := fun _ => fpconst 2 } }) hop
  exact ⟨m', hm', (hcond 12#4).trans (by decide)⟩

end

end

end Kirkwood.Ports.FpEmu
