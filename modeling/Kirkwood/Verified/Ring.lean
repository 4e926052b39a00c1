import Mathlib.Logic.Function.Basic
import Mathlib.Data.List.Nodup
import Mathlib.Data.Nat.ModEq

/-!
# Slots of a circular array

Slot `h + j` of an array of `n` slots, counted modulo `n`, and the contents of
`k` consecutive slots.  A queue in a circular array takes its first element by
moving `h`, and appends by writing slot `h + k`; both are lemmas about
`window`, which is the list of the occupied slots.

## Main results

* `slot_inj`: fewer than `n` apart, different offsets are different slots;
* `update_slot`: what the slots hold after a write to one;
* `window_succ` and `window_snoc`: the window grows at either end;
* `window_update`, `window_push`: a write outside the window, and at its end;
* `window_id_perm`: a full turn meets every slot once;
* `Holds.pop`, `Holds.push`, `Holds.perm`: a queue of entries in a ring whose other
  slots are empty;
* `slot_gap`, `gap_slot`, `gap_next`, `gap_start`: the distance between two
  slots, and how it changes when either moves on.
-/

namespace Kirkwood.Verified.Ring

universe u

/-- The slot `j` places after `h` in a ring of `n` slots. -/
def slot (n h j : Nat) : Nat := (h + j) % n

/-- How many places after `h` slot `t` is. -/
def gap (n h t : Nat) : Nat := (t + n - h) % n

theorem slot_lt {n : Nat} (h j : Nat) (hn : 0 < n) : slot n h j < n :=
  Nat.mod_lt _ hn

theorem slot_zero {n h : Nat} (hh : h < n) : slot n h 0 = h := by
  show (h + 0) % n = h
  rw [Nat.add_zero]
  exact Nat.mod_eq_of_lt hh

theorem slot_succ (n h j : Nat) : slot n ((h + 1) % n) j = slot n h (j + 1) := by
  show ((h + 1) % n + j) % n = (h + (j + 1)) % n
  rw [Nat.mod_add_mod, Nat.add_assoc, Nat.add_comm 1 j]

theorem slot_next (n h j : Nat) : (slot n h j + 1) % n = slot n h (j + 1) := by
  show ((h + j) % n + 1) % n = (h + (j + 1)) % n
  rw [Nat.mod_add_mod, Nat.add_assoc]

/-- Slots fewer than `n` places apart are different. -/
theorem slot_inj {n h i j : Nat} (hi : i < n) (hj : j < n)
    (heq : slot n h i = slot n h j) : i = j := by
  have hmod : Nat.ModEq n (h + i) (h + j) := heq
  have hij : i % n = j % n := Nat.ModEq.add_left_cancel' h hmod
  rw [Nat.mod_eq_of_lt hi, Nat.mod_eq_of_lt hj] at hij
  exact hij

theorem slot_full {n h : Nat} (hh : h < n) : slot n h n = h := by
  show (h + n) % n = h
  rw [Nat.add_mod_right, Nat.mod_eq_of_lt hh]

theorem gap_lt {n : Nat} (h t : Nat) (hn : 0 < n) : gap n h t < n :=
  Nat.mod_lt _ hn

/-- The slot at the distance of `t` is `t`. -/
theorem slot_gap {n h t : Nat} (hh : h < n) (ht : t < n) :
    slot n h (gap n h t) = t := by
  show (h + (t + n - h) % n) % n = t
  rw [Nat.add_mod_mod, show h + (t + n - h) = t + n by omega,
    Nat.add_mod_right, Nat.mod_eq_of_lt ht]

/-- The distance of the slot `j` places on is `j`. -/
theorem gap_slot {n h j : Nat} (hh : h < n) (hj : j < n) :
    gap n h (slot n h j) = j := by
  have hn : 0 < n := by omega
  apply slot_inj (h := h) (gap_lt _ _ hn) hj
  exact slot_gap hh (slot_lt _ _ hn)

@[simp] theorem gap_self (n h : Nat) : gap n h h = 0 := by
  show (h + n - h) % n = 0
  rw [Nat.add_sub_cancel_left, Nat.mod_self]

theorem gap_eq_zero_iff {n h t : Nat} (hh : h < n) (ht : t < n) :
    gap n h t = 0 ↔ t = h := by
  constructor
  · intro hzero
    have hslot := slot_gap hh ht
    rw [hzero, slot_zero hh] at hslot
    exact hslot.symm
  · intro heq
    rw [heq]
    exact gap_self n h

/-- The end of a ring that is not full moves on by one slot. -/
theorem gap_next {n h t : Nat} (hh : h < n) (ht : t < n)
    (hroom : gap n h t + 1 < n) : gap n h ((t + 1) % n) = gap n h t + 1 := by
  have hnext : (t + 1) % n = slot n h (gap n h t + 1) := by
    rw [← slot_next, slot_gap hh ht]
  rw [hnext]
  exact gap_slot hh hroom

/-- The start of a ring that is not empty moves on by one slot. -/
theorem gap_start {n h t : Nat} (hh : h < n) (ht : t < n) (hne : t ≠ h) :
    gap n h t = gap n ((h + 1) % n) t + 1 := by
  have hn : 0 < n := by omega
  have hpos : gap n h t ≠ 0 := fun hzero => hne ((gap_eq_zero_iff hh ht).1 hzero)
  have hlt := gap_lt h t hn
  have ht' : t = slot n ((h + 1) % n) (gap n h t - 1) := by
    rw [slot_succ, show gap n h t - 1 + 1 = gap n h t by omega]
    exact (slot_gap hh ht).symm
  have hgap : gap n ((h + 1) % n) (slot n ((h + 1) % n) (gap n h t - 1)) =
      gap n h t - 1 := gap_slot (Nat.mod_lt _ hn) (by omega)
  rw [← ht'] at hgap
  omega

section
variable {α : Type u}

/-- The contents of the `k` slots from `h` on. -/
def window (f : Nat → α) (n h k : Nat) : List α :=
  (List.range k).map fun j => f (slot n h j)

@[simp] theorem window_length (f : Nat → α) (n h k : Nat) :
    (window f n h k).length = k := by
  simp [window]

@[simp] theorem window_zero (f : Nat → α) (n h : Nat) :
    window f n h 0 = [] := rfl

theorem window_snoc (f : Nat → α) (n h k : Nat) :
    window f n h (k + 1) = window f n h k ++ [f (slot n h k)] := by
  unfold window
  rw [List.range_succ, List.map_append]
  rfl

theorem window_succ (f : Nat → α) {n h : Nat} (k : Nat) (hh : h < n) :
    window f n h (k + 1) = f h :: window f n ((h + 1) % n) k := by
  unfold window
  rw [List.range_succ_eq_map, List.map_cons, slot_zero hh, List.map_map]
  congr 1
  apply List.map_congr_left
  intro j _
  show f (slot n h (j + 1)) = f (slot n ((h + 1) % n) j)
  rw [slot_succ]

theorem mem_window {f : Nat → α} {n h k : Nat} {x : α} :
    x ∈ window f n h k ↔ ∃ j < k, f (slot n h j) = x := by
  simp [window]

theorem window_congr {f g : Nat → α} {n h k : Nat}
    (heq : ∀ j < k, f (slot n h j) = g (slot n h j)) :
    window f n h k = window g n h k := by
  apply List.map_congr_left
  intro j hj
  exact heq j (List.mem_range.1 hj)

/-- What the slots hold after a write to one of them. -/
theorem update_slot (f : Nat → α) (v : α) {n h i j : Nat} (hi : i < n) (hj : j < n) :
    Function.update f (slot n h j) v (slot n h i) =
      if i = j then v else f (slot n h i) := by
  by_cases hij : i = j
  · rw [if_pos hij, hij, Function.update_self]
  · have hne : slot n h i ≠ slot n h j := fun heq => hij (slot_inj hi hj heq)
    rw [if_neg hij, Function.update_of_ne hne]

/-- A write to a slot outside the window leaves it unchanged. -/
theorem window_update {f : Nat → α} {n h k j : Nat} (v : α) (hk : k ≤ j)
    (hj : j < n) :
    window (Function.update f (slot n h j) v) n h k = window f n h k := by
  apply window_congr
  intro i hi
  rw [update_slot f v (by omega) hj, if_neg (by omega)]

/-- All the slots, from any one on. -/
theorem window_id_perm {n h : Nat} (hh : h < n) :
    (window (fun i => i) n h n).Perm (List.range n) := by
  have hnodup : (window (fun i => i) n h n).Nodup := by
    apply List.Nodup.map_on _ List.nodup_range
    intro i hi j hj heq
    exact slot_inj (List.mem_range.1 hi) (List.mem_range.1 hj) heq
  apply (List.perm_ext_iff_of_nodup hnodup List.nodup_range).2
  intro t
  rw [List.mem_range, mem_window]
  constructor
  · intro ⟨j, _, hj⟩
    rw [← hj]
    exact slot_lt h j (by omega)
  · intro ht
    exact ⟨gap n h t, gap_lt h t (by omega), slot_gap hh ht⟩

/-- A write to the first slot leaves what follows it. -/
theorem window_update_start {f : Nat → α} {n h k : Nat} (v : α) (hh : h < n)
    (hk : k < n) :
    window (Function.update f h v) n ((h + 1) % n) k =
      window f n ((h + 1) % n) k := by
  apply window_congr
  intro j hj
  apply Function.update_of_ne
  rw [slot_succ]
  intro heq
  have hzero : slot n h (j + 1) = slot n h 0 := by rw [heq, slot_zero hh]
  have hj0 : j + 1 = 0 := slot_inj (by omega) (by omega) hzero
  omega

/-- A write to the slot behind the window appends to it. -/
theorem window_push {f : Nat → α} {n h k : Nat} (v : α) (hk : k < n) :
    window (Function.update f (slot n h k) v) n h (k + 1) =
      window f n h k ++ [v] := by
  rw [window_snoc, window_update v (Nat.le_refl k) hk,
    Function.update_self]

/-! ## A queue in a ring -/

/-- From slot `h` on the ring has the entries `l`, and its other slots are empty. -/
structure Holds (f : Nat → Option α) (n h : Nat) (l : List α) : Prop where
  start : h < n
  fits : l.length ≤ n
  filled : window f n h l.length = l.map some
  empty : ∀ j, l.length ≤ j → j < n → f (slot n h j) = none

variable {f : Nat → Option α} {n h : Nat} {l : List α} {x : α}

theorem Holds.nil (hh : h < n) (hnone : ∀ i, f i = none) : Holds f n h [] :=
  { start := hh
    fits := Nat.zero_le n
    filled := rfl
    empty := fun j _ _ => hnone (slot n h j) }

theorem Holds.first (hl : Holds f n h (x :: l)) : f h = some x := by
  have hfilled := hl.filled
  rw [List.length_cons, window_succ _ _ hl.start, List.map_cons] at hfilled
  exact (List.cons.inj hfilled).1

theorem Holds.start_none (hl : Holds f n h []) : f h = none := by
  have hempty := hl.empty 0 (Nat.le_refl 0) (Nat.lt_of_le_of_lt (Nat.zero_le h) hl.start)
  rw [slot_zero hl.start] at hempty
  exact hempty

/-- The slot behind the last entry is free, if there is one. -/
theorem Holds.end_none_iff (hl : Holds f n h l) :
    f (slot n h l.length) = none ↔ l.length < n := by
  constructor
  · intro hnone
    apply Nat.lt_of_le_of_ne hl.fits
    intro heq
    rw [heq, slot_full hl.start] at hnone
    cases l with
    | nil => exact absurd hl.start (by rw [← heq]; exact Nat.not_lt_zero h)
    | cons x l =>
        rw [hl.first] at hnone
        cases hnone
  · intro hlt
    exact hl.empty l.length (Nat.le_refl _) hlt

/-- The first entry is taken out. -/
theorem Holds.pop (hl : Holds f n h (x :: l)) :
    Holds (Function.update f h none) n ((h + 1) % n) l := by
  have hlen : l.length < n := hl.fits
  have hfilled := hl.filled
  rw [List.length_cons, window_succ _ _ hl.start, List.map_cons] at hfilled
  exact {
    start := Nat.mod_lt _ (Nat.lt_of_le_of_lt (Nat.zero_le h) hl.start)
    fits := Nat.le_of_lt hlen
    filled := by
      rw [window_update_start none hl.start hlen]
      exact (List.cons.inj hfilled).2
    empty := by
      intro j hj hlt
      rw [slot_succ]
      by_cases hlast : j + 1 = n
      · rw [hlast, slot_full hl.start, Function.update_self]
      · have hold := hl.empty (j + 1) (Nat.succ_le_succ hj) (by omega)
        rw [Function.update_apply]
        by_cases hsame : slot n h (j + 1) = h
        · rw [if_pos hsame]
        · rw [if_neg hsame]
          exact hold
  }

/-- An entry is put behind the last. -/
theorem Holds.push (hl : Holds f n h l) (hlt : l.length < n) :
    Holds (Function.update f (slot n h l.length) (some x)) n h (l ++ [x]) :=
  { start := hl.start
    fits := by
      rw [List.length_append, List.length_singleton]
      exact hlt
    filled := by
      rw [List.length_append, List.length_singleton, window_push (some x) hlt,
        hl.filled, List.map_append]
      rfl
    empty := by
      intro j hj hjn
      rw [List.length_append, List.length_singleton] at hj
      rw [update_slot f (some x) hjn hlt, if_neg (by omega)]
      exact hl.empty j (Nat.le_of_succ_le hj) hjn }

/-- The entries are what the slots hold. -/
theorem Holds.perm (hl : Holds f n h l) : ((List.range n).filterMap f).Perm l := by
  have hslots := (window_id_perm hl.start).filterMap f
  have hrange : List.range n =
      List.range l.length ++ (List.range (n - l.length)).map (l.length + ·) := by
    rw [← List.range_add, Nat.add_sub_cancel' hl.fits]
  have hfront : (List.range l.length).filterMap (fun j => f (slot n h j)) = l := by
    have hid : (window f n h l.length).filterMap id = l := by
      rw [hl.filled, List.filterMap_map]
      exact List.filterMap_some
    unfold window at hid
    rw [List.filterMap_map] at hid
    exact hid
  have hback : ((List.range (n - l.length)).map (l.length + ·)).filterMap
      (fun j => f (slot n h j)) = [] := by
    apply List.filterMap_eq_nil_iff.2
    intro j hj
    obtain ⟨i, hi, hij⟩ := List.mem_map.1 hj
    have hlt := List.mem_range.1 hi
    exact hl.empty j (by omega) (by omega)
  have hall : (window (fun i => i) n h n).filterMap f = l := by
    unfold window
    rw [List.filterMap_map, hrange, List.filterMap_append]
    show (List.range l.length).filterMap (fun j => f (slot n h j)) ++
      ((List.range (n - l.length)).map (l.length + ·)).filterMap
        (fun j => f (slot n h j)) = l
    rw [hfront, hback, List.append_nil]
  rw [hall] at hslots
  exact hslots.symm

end

end Kirkwood.Verified.Ring
