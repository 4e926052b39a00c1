import Mathlib.Data.BitVec
import Mathlib.Tactic.Ring
import Kirkwood.Verified.Loop

/-!
# Boot parameters

`options` of `main.c` looks for the command line that the boot loader left in low memory:
a list of tags, each with its size in words and its kind before its data.  The first loop
finds the tag `core`, the second follows the sizes.

## Main results

* `options_bounded_iff`: the scan ends and reads within the parameter area exactly when the
  list behind the tag `core` is whole;
* `length_addconfs`: the table of options does not overflow.
-/

namespace Kirkwood.Ports.BootOptions

open Kirkwood.Verified.Loop

/-! ## Memory -/

abbrev Addr := BitVec 32

abbrev Mem := Addr → BitVec 8

/-- The word at an address. -/
def word (mem : Mem) (p : Addr) : BitVec 32 :=
  mem (p + 3#32) ++ mem (p + 2#32) ++ mem (p + 1#32) ++ mem p

def Atagcore : BitVec 32 := 0x54410001#32
def Atagcmdline : BitVec 32 := 0x54410009#32
def Atagnone : BitVec 32 := 0x00000000#32
def Atagmax : Nat := 4 * 1024

/-- The parameter area: its first address, and the one behind it. -/
def first : Addr := 0x100#32
def e : Addr := first + 4#32 * BitVec.ofNat 32 Atagmax

/-- Word `j` of the area. -/
def param (j : Nat) : Addr := first + 4#32 * BitVec.ofNat 32 j

/-! ## The command line -/

def MAXCONF : Nat := 32

/-- `confname` and `confval`, up to `nconf`. -/
abbrev Confs := List (List (BitVec 8) × Option (List (BitVec 8)))

def addconf (confs : Confs) (name : List (BitVec 8)) (val : Option (List (BitVec 8))) :
    Confs :=
  if confs.length ≥ MAXCONF then confs else confs ++ [(name, val)]

/-- What is in front of the first `c`, and what is behind it. -/
def strchr (c : BitVec 8) : List (BitVec 8) → Option (List (BitVec 8) × List (BitVec 8))
  | [] => none
  | b :: bs =>
      if b = c then some ([], bs)
      else (strchr c bs).map fun (front, back) => (b :: front, back)

theorem strchr_length {c : BitVec 8} {s front back : List (BitVec 8)}
    (h : strchr c s = some (front, back)) : back.length < s.length := by
  induction s generalizing front with
  | nil => exact nomatch h
  | cons b bs ih =>
      rw [strchr] at h
      split at h
      · cases h
        exact Nat.lt_succ_self _
      · obtain ⟨⟨front', back'⟩, hbs, heq⟩ := Option.map_eq_some_iff.1 h
        cases heq
        exact Nat.lt_succ_of_lt (ih hbs)

/-- The loop over the text of a command line, `name=value name=value ...`. -/
def addconfs (confs : Confs) (k : List (BitVec 8)) : Confs :=
  if k = [] then confs
  else
    match _hv : strchr 0x3d#8 k with
    | none => addconf confs k none
    | some (k', v) =>
        match _hnext : strchr 0x20#8 v with
        | none => addconf confs k' (some v)
        | some (v', next) => addconfs (addconf confs k' (some v')) next
termination_by k.length
decreasing_by exact Nat.lt_trans (strchr_length _hnext) (strchr_length _hv)

theorem length_addconf {confs : Confs} (h : confs.length ≤ MAXCONF)
    (name : List (BitVec 8)) (val : Option (List (BitVec 8))) :
    (addconf confs name val).length ≤ MAXCONF := by
  unfold addconf
  split
  · exact h
  · rw [List.length_append, List.length_singleton]
    omega

theorem length_addconfs {confs : Confs} (h : confs.length ≤ MAXCONF)
    (k : List (BitVec 8)) : (addconfs confs k).length ≤ MAXCONF := by
  fun_induction addconfs confs k with
  | case1 confs => exact h
  | case2 confs k _ _ => exact length_addconf h ..
  | case3 confs k _ k' v _ _ => exact length_addconf h ..
  | case4 confs k _ k' v _ v' next _ ih => exact ih (length_addconf h ..)

/-! ## The scan -/

/-- Where `options` is. -/
inductive Scan where
  /-- in the first loop, at `p` -/
  | core (p : Addr)
  /-- in the second loop, at `p` -/
  | tags (p : Addr)
  /-- in the text of a command line at `a`, behind `k` -/
  | text (k : List (BitVec 8)) (a : Addr)
  | done (confs : Confs)
deriving DecidableEq

/-- One turn of the loop that `options` is in. -/
def options (mem : Mem) (confs : Confs) : Scan → Option Scan
  | .core p =>
      if p + 4#32 ≥ e then some (.done confs)
      else
        let tag := word mem (p + 4#32)
        if tag = Atagcore then
          let size := word mem p
          some (.tags (p + 4#32 * size))
        else some (.core (p + 4#32))
  | .tags p =>
      if p < e then
        let size := word mem p
        let p := p + 4#32
        let tag := word mem p
        let p := p + 4#32
        if tag = Atagnone then some (.done confs)
        else if tag = Atagcmdline then some (.text [] p)
        else some (.tags (p + 4#32 * (size - 2#32)))
      else some (.done confs)
  | .text k a =>
      if mem a = 0#8 then some (.done (addconfs confs k))
      else some (.text (k ++ [mem a]) (a + 1#32))
  | .done _ => none

/-- The tag words that this turn reads. -/
def reads (mem : Mem) : Scan → List Addr
  | .core p =>
      if p + 4#32 ≥ e then []
      else if word mem (p + 4#32) = Atagcore then [p + 4#32, p]
      else [p + 4#32]
  | .tags p => if p < e then [p, p + 4#32] else []
  | .text _ _ => []
  | .done _ => []

/-- A word of the parameter area. -/
def InArea (a : Addr) : Prop := first ≤ a ∧ a < e ∧ a + 3#32 < e

/-- The scan ends, and reads tag words of the parameter area only. -/
def Bounded (mem : Mem) (confs : Confs) : Prop :=
  (∃ n, after (options mem confs) (.core first) n = none) ∧
    ∀ n s, after (options mem confs) (.core first) n = some s → ∀ a ∈ reads mem s, InArea a

/-! ## Tag lists -/

/-- Both words in front of a tag's data. -/
def Header (p : Addr) : Prop := InArea p ∧ InArea (p + 4#32)

/-- A tag that the scan passes over. -/
def Skipped (mem : Mem) (p : Addr) : Prop :=
  Header p ∧ word mem (p + 4#32) ≠ Atagnone ∧ word mem (p + 4#32) ≠ Atagcmdline

/-- The end of the area or a tag that ends the scan. -/
def Last (mem : Mem) (p : Addr) : Prop :=
  e ≤ p ∨ Header p ∧ (word mem (p + 4#32) = Atagnone ∨ word mem (p + 4#32) = Atagcmdline)

/-- Behind a tag. -/
def behind (mem : Mem) (p : Addr) : Addr := p + 4#32 * word mem p

/-- From `p` on, following the sizes, one comes to the end of the list. -/
def Whole (mem : Mem) (p : Addr) : Prop :=
  ∃ n, (∀ i < n, Skipped mem ((behind mem)^[i] p)) ∧ Last mem ((behind mem)^[n] p)

/-- The first tag `core`. -/
def Core (mem : Mem) (p : Addr) : Prop :=
  ∃ j, j + 1 < Atagmax ∧ p = param j ∧ word mem (param (j + 1)) = Atagcore ∧
    ∀ i < j, word mem (param (i + 1)) ≠ Atagcore

/-! ## The second loop -/

/-- What is asked of every turn. -/
def ok (mem : Mem) (s : Scan) : Prop := ∀ a ∈ reads mem s, InArea a

section
variable {mem : Mem} {confs : Confs}

private theorem ends_done (confs' : Confs) :
    Ends (options mem confs) (ok mem) (.done confs') :=
  .last (fun _ ha => nomatch ha) rfl

private theorem ends_text {a : Addr} {n : Nat} (h : mem (a + BitVec.ofNat 32 n) = 0#8)
    (k : List (BitVec 8)) : Ends (options mem confs) (ok mem) (.text k a) := by
  have hok : ok mem (.text k a) := fun _ ha => nomatch ha
  induction n generalizing k a with
  | zero =>
      have hzero : mem a = 0#8 := by simpa using h
      refine .more hok (if_pos hzero) (ends_done _)
  | succ n ih =>
      by_cases hzero : mem a = 0#8
      · exact .more hok (if_pos hzero) (ends_done _)
      · have hnext : mem (a + 1#32 + BitVec.ofNat 32 n) = 0#8 := by
          rw [← h]
          congr 1
          rw [BitVec.add_assoc, Nat.add_comm n 1, BitVec.ofNat_add]
        exact .more hok (if_neg hzero) (ih hnext _ fun _ ha => nomatch ha)

/-- The tag in front of a command line has a zero byte, so its text ends at the latest
there, all around the memory. -/
private theorem ends_cmdline {p : Addr} (h : word mem (p + 4#32) = Atagcmdline) :
    Ends (options mem confs) (ok mem) (.text [] (p + 4#32 + 4#32)) := by
  have hbyte : mem (p + 4#32 + 1#32) = 0#8 := by
    apply BitVec.eq_of_getLsbD_eq
    intro i hi
    have hzero : ∀ i < 8, Atagcmdline.getLsbD (8 + i) = false := by decide
    have hbit := hzero i hi
    rw [← h, word, BitVec.getLsbD_append, BitVec.getLsbD_append] at hbit
    have hnot : ¬ 8 + i < 8 := by omega
    simpa only [hnot, if_false, cond_false, decide_false, hi, decide_true, cond_true,
      Nat.add_sub_cancel_left, if_true, BitVec.getLsbD_zero] using hbit
  obtain ⟨n, hn⟩ : ∃ n, p + 4#32 + 4#32 + BitVec.ofNat 32 n = p + 4#32 + 1#32 := by
    refine ⟨(-3#32).toNat, ?_⟩
    rw [BitVec.ofNat_toNat, BitVec.setWidth_eq]
    bv_omega
  exact ends_text (n := n) (hn ▸ hbyte) []

private theorem ok_tags {p : Addr} (h : p < e) : ok mem (.tags p) ↔ Header p := by
  have hreads : reads mem (.tags p) = [p, p + 4#32] := if_pos h
  rw [ok, hreads]
  simp [Header]

private theorem behind_eq (mem : Mem) (p : Addr) :
    p + 4#32 + 4#32 + 4#32 * (word mem p - 2#32) = behind mem p := by
  unfold behind
  bv_omega

theorem options_skipped {p : Addr} (h : Skipped mem p) :
    options mem confs (.tags p) = some (.tags (behind mem p)) := by
  obtain ⟨hheader, hnone, hcmd⟩ := h
  rw [options, if_pos hheader.1.2.1, if_neg hnone, if_neg hcmd, behind_eq]

theorem tags_turn (p : Addr) : Ends (options mem confs) (ok mem) (.tags p) ↔
    Last mem p ∨
      Skipped mem p ∧ Ends (options mem confs) (ok mem) (.tags (behind mem p)) := by
  by_cases hp : p < e
  · have hpe : ¬ e ≤ p := BitVec.not_le.2 hp
    by_cases hnone : word mem (p + 4#32) = Atagnone
    · have hnext : options mem confs (.tags p) = some (.done confs) := by
        rw [options, if_pos hp, if_pos hnone]
      rw [ends_next hnext, ok_tags hp]
      simp [Last, Skipped, hpe, hnone, ends_done]
    · by_cases hcmd : word mem (p + 4#32) = Atagcmdline
      · have hnext : options mem confs (.tags p) = some (.text [] (p + 4#32 + 4#32)) := by
          rw [options, if_pos hp, if_neg hnone, if_pos hcmd]
        rw [ends_next hnext, ok_tags hp]
        simp [Last, Skipped, hpe, hcmd, ends_cmdline hcmd]
      · have hnext : options mem confs (.tags p) = some (.tags (behind mem p)) := by
          rw [options, if_pos hp, if_neg hnone, if_neg hcmd, behind_eq]
        rw [ends_next hnext, ok_tags hp]
        simp [Last, Skipped, hpe, hnone, hcmd]
  · have hpe : e ≤ p := BitVec.not_lt.1 hp
    have hnext : options mem confs (.tags p) = some (.done confs) := if_neg hp
    have hok : ok mem (.tags p) := by
      have hreads : reads mem (.tags p) = [] := if_neg hp
      rw [ok, hreads]
      exact fun _ ha => nomatch ha
    rw [ends_next hnext]
    simp [Last, hpe, hok, ends_done]

theorem whole_turn (p : Addr) :
    Whole mem p ↔ Last mem p ∨ Skipped mem p ∧ Whole mem (behind mem p) := by
  constructor
  · rintro ⟨n, hskip, hlast⟩
    cases n with
    | zero => exact .inl hlast
    | succ n =>
        refine .inr ⟨hskip 0 (Nat.zero_lt_succ n), n, fun i hi => ?_, ?_⟩
        · exact hskip (i + 1) (Nat.succ_lt_succ hi)
        · exact hlast
  · rintro (hlast | ⟨hskip, n, hrest, hlast⟩)
    · exact ⟨0, fun i hi => absurd hi (Nat.not_lt_zero i), hlast⟩
    · refine ⟨n + 1, fun i hi => ?_, hlast⟩
      cases i with
      | zero => exact hskip
      | succ i => exact hrest i (Nat.lt_of_succ_lt_succ hi)

theorem tags_iff (p : Addr) :
    Ends (options mem confs) (ok mem) (.tags p) ↔ Whole mem p := by
  constructor
  · intro h
    generalize hs : Scan.tags p = s at h
    induction h generalizing p with
    | last hok hnone =>
        subst hs
        rcases (tags_turn p).1 (.last hok hnone) with hlast | ⟨hskip, -⟩
        · exact (whole_turn p).2 (.inl hlast)
        · rw [options_skipped hskip] at hnone
          cases hnone
    | more hok hnext hends ih =>
        subst hs
        rcases (tags_turn p).1 (.more hok hnext hends) with hlast | ⟨hskip, -⟩
        · exact (whole_turn p).2 (.inl hlast)
        · rw [options_skipped hskip] at hnext
          exact (whole_turn p).2 (.inr ⟨hskip, ih _ (Option.some.inj hnext)⟩)
  · rintro ⟨n, hskip, hlast⟩
    induction n generalizing p with
    | zero => exact (tags_turn p).2 (.inl hlast)
    | succ n ih =>
        refine (tags_turn p).2 (.inr ⟨hskip 0 (Nat.zero_lt_succ n),
          ih _ (fun i hi => ?_) ?_⟩)
        · exact hskip (i + 1) (Nat.succ_lt_succ hi)
        · exact hlast

/-! ## The first loop -/

theorem param_toNat {j : Nat} (h : j < Atagmax) :
    (param j).toNat = 0x100 + 4 * j := by
  unfold param first Atagmax at *
  simp only [BitVec.toNat_add, BitVec.toNat_mul, BitVec.toNat_ofNat]
  omega

theorem param_succ (j : Nat) : param j + 4#32 = param (j + 1) := by
  unfold param
  rw [BitVec.ofNat_add]
  bv_omega

theorem e_toNat : e.toNat = 0x4100 := by decide

theorem inArea_param {j : Nat} (h : j < Atagmax) : InArea (param j) := by
  have hj := param_toNat h
  have he := e_toNat
  unfold Atagmax at h
  refine ⟨?_, ?_, ?_⟩
  · rw [BitVec.le_def, hj]
    exact Nat.le_add_right _ _
  · rw [BitVec.lt_def, hj, he]
    omega
  · rw [BitVec.lt_def, BitVec.toNat_add, hj, he]
    simp only [BitVec.toNat_ofNat]
    omega

/-- The first tag `core` from turn `j` on. -/
private def CoreFrom (mem : Mem) (j : Nat) (p : Addr) : Prop :=
  ∃ k, j ≤ k ∧ k + 1 < Atagmax ∧ p = param k ∧ word mem (param (k + 1)) = Atagcore ∧
    ∀ i < k, j ≤ i → word mem (param (i + 1)) ≠ Atagcore

private theorem coreFrom_here {j : Nat} (hj : j + 1 < Atagmax)
    (h : word mem (param (j + 1)) = Atagcore) (p : Addr) :
    CoreFrom mem j p ↔ p = param j := by
  constructor
  · rintro ⟨k, hjk, -, rfl, -, hnot⟩
    rcases Nat.eq_or_lt_of_le hjk with rfl | hlt
    · rfl
    · exact absurd h (hnot j hlt (Nat.le_refl j))
  · rintro rfl
    exact ⟨j, Nat.le_refl j, hj, rfl, h, fun i hi hji => absurd hji (Nat.not_le.2 hi)⟩

private theorem coreFrom_later {j : Nat} (h : word mem (param (j + 1)) ≠ Atagcore)
    (p : Addr) : CoreFrom mem j p ↔ CoreFrom mem (j + 1) p := by
  constructor
  · rintro ⟨k, hjk, hk, hp, hcore, hnot⟩
    have hne : j ≠ k := by
      rintro rfl
      exact h hcore
    exact ⟨k, by omega, hk, hp, hcore, fun i hi hji => hnot i hi (by omega)⟩
  · rintro ⟨k, hjk, hk, hp, hcore, hnot⟩
    refine ⟨k, by omega, hk, hp, hcore, fun i hi hji => ?_⟩
    rcases Nat.eq_or_lt_of_le hji with rfl | hlt
    · exact h
    · exact hnot i hi hlt

private theorem core_iff (d j : Nat) (hj : j + d + 1 = Atagmax) :
    Ends (options mem confs) (ok mem) (.core (param j)) ↔
      ∀ p, CoreFrom mem j p → Whole mem (behind mem p) := by
  induction d generalizing j with
  | zero =>
      have he : param j + 4#32 ≥ e := by
        rw [param_succ, hj]
        exact BitVec.le_refl _
      have hnext : options mem confs (.core (param j)) = some (.done confs) := if_pos he
      have hreads : reads mem (.core (param j)) = [] := if_pos he
      rw [ends_next hnext, ok, hreads]
      constructor
      · rintro - p ⟨k, hjk, hk, -⟩
        omega
      · intro _
        exact ⟨fun _ ha => (nomatch ha), ends_done confs⟩
  | succ d ih =>
      have hlt : ¬ param j + 4#32 ≥ e := by
        rw [param_succ]
        exact BitVec.not_le.2 (inArea_param (by omega)).2.1
      have hhere := inArea_param (j := j) (by omega)
      have hnext1 := inArea_param (j := j + 1) (by omega)
      by_cases hcore : word mem (param (j + 1)) = Atagcore
      · have hnext : options mem confs (.core (param j)) =
            some (.tags (behind mem (param j))) := by
          rw [options, if_neg hlt, param_succ, if_pos hcore, behind]
        have hreads : reads mem (.core (param j)) = [param (j + 1), param j] := by
          rw [reads, if_neg hlt, param_succ, if_pos hcore]
        rw [ends_next hnext, tags_iff, ok, hreads]
        simp [coreFrom_here (by omega) hcore, hhere, hnext1]
      · have hnext :
            options mem confs (.core (param j)) = some (.core (param (j + 1))) := by
          rw [options, if_neg hlt, param_succ, if_neg hcore]
        have hreads : reads mem (.core (param j)) = [param (j + 1)] := by
          rw [reads, if_neg hlt, param_succ, if_neg hcore]
        rw [ends_next hnext, ih (j + 1) (by omega), ok, hreads]
        simp [coreFrom_later hcore, hnext1]

/-- The scan is bounded exactly when the list behind the tag `core`, if there is one, is
whole. -/
theorem options_bounded_iff (mem : Mem) (confs : Confs) :
    Bounded mem confs ↔ ∀ p, Core mem p → Whole mem (behind mem p) := by
  have hfirst : param 0 = first := by decide
  have hcore : ∀ p, Core mem p ↔ CoreFrom mem 0 p := fun p => by simp [Core, CoreFrom]
  simp only [hcore]
  rw [← core_iff (Atagmax - 1) 0 (by decide), hfirst, ends_iff]
  rfl

end

/-- A tag `core` of size 0. -/
def zerosize : Mem := fun a =>
  if a = 0x104#32 then 0x01#8 else if a = 0x106#32 then 0x41#8
  else if a = 0x107#32 then 0x54#8 else 0#8

/-- The scan goes around at a tag of size 0 for ever. -/
theorem zerosize_unbounded : ¬ ∀ mem confs, Bounded mem confs := by
  intro hall
  obtain ⟨⟨n, hn⟩, -⟩ := hall zerosize []
  have hcore : options zerosize [] (.core first) = some (.tags first) := by decide
  have htags : options zerosize [] (.tags first) = some (.tags first) := by decide
  have hafter : ∀ n, after (options zerosize []) (.tags first) n = some (.tags first) := by
    intro n
    induction n with
    | zero => rfl
    | succ n ih => rw [after, ih, Option.bind_some, htags]
  cases n with
  | zero => cases hn
  | succ n =>
      rw [after_next hcore, hafter n] at hn
      cases hn

end Kirkwood.Ports.BootOptions
