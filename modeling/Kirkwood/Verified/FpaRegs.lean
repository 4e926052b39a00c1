import Kirkwood.Verified.FpaRun

/-!
# What a run of the coprocessor depends on

Which of the processor's registers its instructions look at, and which they change.

## Main results

* `run_setR`: a run does not depend on a register that none of its instructions uses;
* `run_sets`: a register that none of them sets is as before;
* `run_unmapped`: a run has the memory that there was.
-/

namespace Kirkwood.Verified.Fpa

open Kirkwood.Verified.Arm (Word Flags holds)
open Kirkwood.Verified.Outcome

/-- The registers of the processor that an instruction uses. -/
def Insn.registers : Insn → List (BitVec 4)
  | .load _ _ a | .store _ _ a => [a.base]
  | .flt _ rd | .wfs rd | .wfc rd => [rd]
  | .fix rd _ | .rfs rd | .rfc rd => [rd.reg]
  | .compare _ _ _ _ | .dyadic _ _ _ _ | .monadic _ _ _ => []

/-- Those that it sets. -/
def Insn.sets : Insn → List (BitVec 4)
  | .load _ _ a | .store _ _ a => if a.writeback then [a.base] else []
  | .fix rd _ | .rfs rd | .rfc rd => [rd.reg]
  | _ => []

section
variable {α : Type} (A : Arith α)

def State.setR (s : State α) (n : BitVec 4) (v : Word) : State α :=
  { s with r := Function.update s.r n v }

/-- The instruction at the program counter, if its condition holds. -/
def State.current (s : State α) : List Insn :=
  match fetch s.mem s.pc with
  | .error _ => []
  | .ok op =>
      if isFpa op && holds s.flags (op.extractLsb' 28 4) then (decode op).toList else []

/-- The instructions of a run, the one that traps included. -/
def issued : Nat → State α → List Insn
  | 0, _ => []
  | fuel + 1, s => s.current ++
      match step A s with
      | .ok s' => issued fuel s'
      | .error _ => []

end

section
variable {α : Type} {A : Arith α} {s s' : State α} {i : Insn} {n : BitVec 4} {v : Word}

/-! ## An instruction -/

theorem setR_other {m : BitVec 4} (h : m ≠ n) : (s.setR n v).r m = s.r m :=
  Function.update_of_ne h ..

theorem start_setR {a : Address} (h : a.base ≠ n) :
    a.start (s.setR n v) = a.start s := by
  unfold Address.start
  rw [setR_other h]

theorem target_setR {a : Address} (h : a.base ≠ n) :
    a.target (s.setR n v) = a.target s := by
  unfold Address.target
  rw [start_setR h]

theorem after_setR {a : Address} (h : a.base ≠ n) :
    a.after (s.setR n v) = Function.update (a.after s) n v := by
  unfold Address.after
  rw [start_setR h]
  split
  · exact Function.update_comm h.symm ..
  · rfl

theorem read_setR (m : Operand) : m.read A (s.setR n v) = m.read A s := by
  cases m <;> rfl

/-- Two registers that are set. -/
theorem exec_set {m : BitVec 4} (h : n ≠ m) (x : Word) :
    (Except.ok { s.setR n v with r := Function.update (s.setR n v).r m x } :
        Except Trap (State α)) =
      (Except.ok { s with r := Function.update s.r m x } : Except Trap (State α)).map
        (·.setR n v) := by
  have hcomm : Function.update (Function.update s.r n v) m x =
      Function.update (Function.update s.r m x) n v := Function.update_comm h ..
  exact congrArg (fun r => Except.ok { s with r := r }) hcomm

/-- An instruction does not depend on a register that it does not use. -/
theorem exec_setR (h : n ∉ i.registers) :
    exec A i (s.setR n v) = (exec A i s).map (·.setR n v) := by
  cases i with
  | load long fd a =>
      have hbase : a.base ≠ n := fun heq => h (heq ▸ List.mem_singleton_self _)
      have hread : readFloat A (s.setR n v) long (a.target (s.setR n v)) =
          readFloat A s long (a.target s) := by
        rw [target_setR hbase]
        rfl
      simp only [exec, hread, after_setR hbase]
      cases readFloat A s long (a.target s) with
      | error e => rfl
      | ok x => rfl
  | store long fd a =>
      have hbase : a.base ≠ n := fun heq => h (heq ▸ List.mem_singleton_self _)
      have hmem : (s.setR n v).mem = s.mem := rfl
      have hf : (s.setR n v).f = s.f := rfl
      simp only [exec, hmem, hf, target_setR hbase, after_setR hbase]
      cases writeFloat A s.mem long (a.target s) (s.f fd) with
      | error e => rfl
      | ok mem => rfl
  | compare negated exception fn fm =>
      simp only [exec, read_setR]
      rfl
  | flt fn rd =>
      have hrd : (s.setR n v).r rd = s.r rd :=
        setR_other fun heq => h (heq ▸ List.mem_singleton_self _)
      simp only [exec, hrd]
      rfl
  | wfs rd =>
      have hrd : (s.setR n v).r rd = s.r rd :=
        setR_other fun heq => h (heq ▸ List.mem_singleton_self _)
      simp only [exec, hrd]
      rfl
  | wfc rd =>
      have hrd : (s.setR n v).r rd = s.r rd :=
        setR_other fun heq => h (heq ▸ List.mem_singleton_self _)
      simp only [exec, hrd]
      rfl
  | fix rd fm => exact exec_set (List.ne_of_not_mem_cons h) _
  | rfs rd => exact exec_set (List.ne_of_not_mem_cons h) _
  | rfc rd => exact exec_set (List.ne_of_not_mem_cons h) _
  | dyadic op fd fn fm =>
      simp only [exec, read_setR]
      cases A.dyadic op with
      | none => rfl
      | some g => rfl
  | monadic op fd fm =>
      simp only [exec, read_setR]
      cases A.monadic op with
      | none => rfl
      | some g => rfl

theorem sets_registers (h : n ∈ i.sets) : n ∈ i.registers := by
  have hafter : ∀ a : Address, n ∈ (if a.writeback then [a.base] else []) →
      n ∈ [a.base] := by
    intro a ha
    split at ha
    · exact ha
    · cases ha
  cases i with
  | load long fd a => exact hafter a h
  | store long fd a => exact hafter a h
  | fix rd fm => exact h
  | rfs rd => exact h
  | rfc rd => exact h
  | _ => cases h

/-- What an instruction does not set is as before. -/
theorem exec_sets (h : exec A i s = .ok s') (hn : n ∉ i.sets) : s'.r n = s.r n := by
  have hafter : ∀ a : Address, n ∉ (if a.writeback then [a.base] else []) →
      a.after s n = s.r n := by
    intro a ha
    unfold Address.after
    split
    · next hwrite =>
        rw [if_pos hwrite] at ha
        exact Function.update_of_ne (List.ne_of_not_mem_cons ha) ..
    · rfl
  have hset : ∀ (rd : Dest) (x : Word), n ∉ [rd.reg] →
      Function.update s.r rd.reg x n = s.r n := fun rd x hrd =>
    Function.update_of_ne (List.ne_of_not_mem_cons hrd) ..
  cases i with
  | load long fd a =>
      unfold exec at h
      obtain ⟨x, -, h⟩ := bind_eq_ok.1 h
      cases h
      exact hafter a hn
  | store long fd a =>
      unfold exec at h
      obtain ⟨mem, -, h⟩ := bind_eq_ok.1 h
      cases h
      exact hafter a hn
  | fix rd fm =>
      cases h
      exact hset rd _ hn
  | rfs rd =>
      cases h
      exact hset rd _ hn
  | rfc rd =>
      cases h
      exact hset rd _ hn
  | dyadic op fd fn fm =>
      simp only [exec] at h
      split at h
      · cases h
        rfl
      · cases h
  | monadic op fd fm =>
      simp only [exec] at h
      split at h
      · cases h
        rfl
      · cases h
  | _ =>
      cases h
      rfl

/-! ## A run -/

theorem next_setR (hn : n ≠ 15#4) : (s.setR n v).next = s.next.setR n v := by
  unfold State.next State.pc
  rw [setR_other hn.symm]
  unfold State.setR
  rw [Function.update_comm hn]

theorem perform_setR {op : Word} (hfetch : fetch s.mem s.pc = .ok op)
    (hop : isFpa op = true) (h : ∀ i ∈ s.current, n ∉ i.registers) :
    perform A op (s.setR n v) = (perform A op s).map (·.setR n v) := by
  have hflags : (s.setR n v).flags = s.flags := rfl
  unfold State.current at h
  rw [hfetch] at h
  unfold perform
  rw [hflags]
  cases hcond : holds s.flags (op.extractLsb' 28 4) with
  | false => rfl
  | true =>
      rw [if_pos rfl, if_pos rfl]
      cases hdecode : decode op with
      | none => rfl
      | some i =>
          refine exec_setR (h i ?_)
          simp [hop, hcond, hdecode]

theorem step_setR (hn : n ≠ 15#4) (h : ∀ i ∈ s.current, n ∉ i.registers) :
    step A (s.setR n v) = (step A s).map (·.setR n v) := by
  have hpc : (s.setR n v).pc = s.pc := setR_other hn.symm
  have hmem : (s.setR n v).mem = s.mem := rfl
  unfold step
  rw [hpc, hmem]
  cases hfetch : fetch s.mem s.pc with
  | error e => rfl
  | ok op =>
      simp only [ok_bind]
      cases hop : isFpa op with
      | false => rfl
      | true =>
          rw [if_pos rfl, if_pos rfl, perform_setR hfetch hop h]
          cases perform A op s with
          | error e => rfl
          | ok t => exact congrArg Except.ok (next_setR hn)

/-- A run does not depend on a register that its instructions do not use. -/
theorem run_setR {fuel : Nat} (hn : n ≠ 15#4)
    (h : ∀ i ∈ issued A fuel s, n ∉ i.registers) :
    run A fuel (s.setR n v) =
      { run A fuel s with state := (run A fuel s).state.setR n v } := by
  induction fuel generalizing s with
  | zero => rfl
  | succ fuel ih =>
      have hstep := step_setR (A := A) (v := v) hn fun i hi =>
        h i (List.mem_append_left _ hi)
      cases hs : step A s with
      | error e =>
          rw [hs] at hstep
          rw [run_error hs, run_error hstep]
      | ok t =>
          rw [hs] at hstep
          have hrest : ∀ i ∈ issued A fuel t, n ∉ i.registers := by
            intro i hi
            refine h i (List.mem_append_right _ ?_)
            rw [hs]
            exact hi
          rw [run_ok hs, run_ok hstep, ih hrest]

theorem perform_sets {op : Word} (hfetch : fetch s.mem s.pc = .ok op)
    (hop : isFpa op = true) (h : ∀ i ∈ s.current, n ∉ i.sets)
    (hs : perform A op s = .ok s') : s'.r n = s.r n := by
  unfold State.current at h
  rw [hfetch] at h
  unfold perform at hs
  split at hs
  · next hcond =>
      split at hs
      · next i hdecode => exact exec_sets hs (h i (by simp [hop, hcond, hdecode]))
      · cases hs
  · cases hs
    rfl

/-- A register that none of the instructions sets is as before. -/
theorem run_sets {fuel : Nat} (hn : n ≠ 15#4) (h : ∀ i ∈ issued A fuel s, n ∉ i.sets) :
    (run A fuel s).state.r n = s.r n := by
  induction fuel generalizing s with
  | zero => rfl
  | succ fuel ih =>
      cases hs : step A s with
      | error e => rw [run_error hs]
      | ok t =>
          have hrest : ∀ i ∈ issued A fuel t, n ∉ i.sets := by
            intro i hi
            refine h i (List.mem_append_right _ ?_)
            rw [hs]
            exact hi
          rw [run_ok hs]
          refine (ih hrest).trans ?_
          unfold step at hs
          obtain ⟨op, hfetch, hs⟩ := bind_eq_ok.1 hs
          split at hs
          · next hop =>
              obtain ⟨u, hu, hs⟩ := bind_eq_ok.1 hs
              cases hs
              have hnext : u.next.r n = u.r n := Function.update_of_ne hn ..
              rw [hnext]
              exact perform_sets hfetch hop (fun i hi => h i (List.mem_append_left _ hi)) hu
          · cases hs

/-- A run that performs an instruction starts at one. -/
theorem run_first {fuel : Nat} (h : 0 < (run A fuel s).count) :
    ∃ op, fetch s.mem s.pc = .ok op ∧ isFpa op = true := by
  cases fuel with
  | zero => exact absurd h (Nat.lt_irrefl 0)
  | succ fuel =>
      cases hs : step A s with
      | error e =>
          rw [run_error hs] at h
          exact absurd h (Nat.lt_irrefl 0)
      | ok t =>
          unfold step at hs
          obtain ⟨op, hfetch, hs⟩ := bind_eq_ok.1 hs
          split at hs
          · next hop => exact ⟨op, hfetch, hop⟩
          · cases hs

theorem run_none {fuel : Nat} (h : (run A fuel s).count = 0) :
    (run A fuel s).state = s := by
  cases fuel with
  | zero => rfl
  | succ fuel =>
      cases hs : step A s with
      | error e => rw [run_error hs]
      | ok t =>
          rw [run_ok hs] at h
          exact absurd h (Nat.succ_ne_zero _)

/-! ## Memory that is not there -/

theorem put_unmapped {mem mem' : Word → Option Word} {a x b : Word}
    (h : put mem a x = .ok mem') : mem' b = none ↔ mem b = none := by
  unfold put at h
  split at h
  · next y hy =>
      cases h
      by_cases hb : b = a
      · subst hb
        rw [Function.update_self, hy]
        exact iff_of_false nofun nofun
      · rw [Function.update_of_ne hb]
  · cases h

theorem exec_unmapped {b : Word} (h : exec A i s = .ok s') :
    s'.mem b = none ↔ s.mem b = none := by
  cases i with
  | store long fd a =>
      unfold exec at h
      obtain ⟨mem, hwrite, h⟩ := bind_eq_ok.1 h
      cases h
      unfold writeFloat at hwrite
      split at hwrite
      · obtain ⟨mem', hfirst, hsecond⟩ := bind_eq_ok.1 hwrite
        exact (put_unmapped hsecond).trans (put_unmapped hfirst)
      · exact put_unmapped hwrite
  | _ => rw [(exec_frame h).2 b List.not_mem_nil]

/-- A run maps no memory, and unmaps none. -/
theorem run_unmapped {fuel : Nat} {b : Word} :
    (run A fuel s).state.mem b = none ↔ s.mem b = none := by
  induction fuel generalizing s with
  | zero => rfl
  | succ fuel ih =>
      cases hs : step A s with
      | error e => rw [run_error hs]
      | ok t =>
          rw [run_ok hs]
          refine ih.trans ?_
          unfold step at hs
          obtain ⟨op, -, hs⟩ := bind_eq_ok.1 hs
          split at hs
          · obtain ⟨u, hu, hs⟩ := bind_eq_ok.1 hs
            cases hs
            show u.mem b = none ↔ s.mem b = none
            unfold perform at hu
            split at hu
            · split at hu
              · exact exec_unmapped hu
              · cases hu
            · cases hu
              rfl
          · cases hs

end

end Kirkwood.Verified.Fpa
