import Kirkwood.Ports.SdResponse
import Kirkwood.Verified.Loop

/-!
# Bit fields of a register

`bits` of `sdcard.c` takes bits `h` to `l` of a register of three words.  Its loop goes from
word to word, with `h` and `l` counted from the word that it is in.

## Main results

* `next_ends`, `leads_bits`: the loop ends for all bounds, with what `bits` says;
* `bits_exact_iff`: which fields are right.
-/

namespace Kirkwood.Ports.SdResponse

open Kirkwood.Verified.Fields
open Kirkwood.Verified.Loop

/-! ## The loop -/

/-- The variables of `bits`; `r` is how far the pointer is back from `r[2]`. -/
structure Cut where
  h : Int
  l : Int
  v : BitVec 64
  o : Nat
  r : Nat
deriving DecidableEq, Repr

/-- A turn of the loop, with the words in front of `r[2]`. -/
def next (word : Nat → BitVec 64) (s : Cut) : Option Cut :=
  if s.h > s.l ∧ s.l ≥ 0 then
    if s.l < 64 then
      let n := (min s.h 63 - s.l + 1).toNat
      some
        { h := s.h - 64
          l := s.l + n - 64
          v := s.v ||| ((word s.r >>> s.l.toNat) &&& ((1#64 <<< n) - 1#64)) <<< s.o
          o := s.o + n
          r := s.r + 1 }
    else some { s with h := s.h - 64, l := s.l - 64, r := s.r + 1 }
  else none

/-- Before the loop. -/
def start (h l : Int) : Cut := ⟨h, l, 0#64, 0, 0⟩

/-- The words of a register, the last one first. -/
def Resp.words (r : Resp) : List (BitVec 64) := [r.resp2, r.resp1, r.resp0]

theorem next_none {word : Nat → BitVec 64} {s : Cut} (h : ¬ (s.h > s.l ∧ s.l ≥ 0)) :
    next word s = none :=
  if_neg h

theorem next_h {word : Nat → BitVec 64} {s t : Cut} (h : next word s = some t) :
    0 < s.h ∧ t.h = s.h - 64 := by
  unfold next at h
  by_cases hmore : s.h > s.l ∧ s.l ≥ 0
  · rw [if_pos hmore] at h
    refine ⟨by omega, ?_⟩
    by_cases hl : s.l < 64
    · rw [if_pos hl] at h
      cases h
      rfl
    · rw [if_neg hl] at h
      cases h
      rfl
  · rw [if_neg hmore] at h
    cases h

/-- A turn takes 64 off `h`, and there is none from 0 on. -/
theorem next_ends (word : Nat → BitVec 64) (s : Cut) :
    Ends (next word) (fun _ => True) s := by
  induction hk : s.h.toNat using Nat.strong_induction_on generalizing s with
  | _ k ih =>
      cases hnext : next word s with
      | none => exact .last trivial hnext
      | some t =>
          obtain ⟨hpos, ht⟩ := next_h hnext
          exact .more trivial hnext (ih t.h.toNat (by omega) t rfl)

/-- The loop of `bits` over the words that are left. -/
theorem leads_bitsloop {word : Nat → BitVec 64} (ws : List (BitVec 64)) (s : Cut)
    (hws : ∀ i (hi : i < ws.length), word (s.r + i) = ws[i]) (hh : s.h < 64 * ws.length) :
    ∃ t, Leads (next word) s t ∧ next word t = none ∧
      t.v = bitsloop ws s.h s.l s.v s.o := by
  induction ws generalizing s with
  | nil =>
      have hdone : next word s = none := next_none (by simp at hh; omega)
      exact ⟨s, .refl s, hdone, rfl⟩
  | cons x ws ih =>
      have hx : word s.r = x := hws 0 (Nat.zero_lt_succ _)
      have hrest : ∀ t : Cut, t.r = s.r + 1 → ∀ i (hi : i < ws.length),
          word (t.r + i) = ws[i] := by
        intro t ht i hi
        have hi' := hws (i + 1) (Nat.succ_lt_succ hi)
        rw [ht, Nat.add_assoc, Nat.add_comm 1 i]
        exact hi'
      have hlen : (64 : Int) * (x :: ws).length = 64 * ws.length + 64 := by
        rw [List.length_cons]
        omega
      by_cases hmore : s.h > s.l ∧ s.l ≥ 0
      · by_cases hl : s.l < 64
        · obtain ⟨t, hleads, hnone, hv⟩ := ih
            { h := s.h - 64
              l := s.l + (min s.h 63 - s.l + 1).toNat - 64
              v := s.v ||| ((x >>> s.l.toNat) &&&
                ((1#64 <<< (min s.h 63 - s.l + 1).toNat) - 1#64)) <<< s.o
              o := s.o + (min s.h 63 - s.l + 1).toNat
              r := s.r + 1 } (hrest _ rfl) (by show s.h - 64 < _; omega)
          refine ⟨t, .turn ?_ hleads, hnone, ?_⟩
          · rw [next, if_pos hmore, if_pos hl, hx]
          · rw [hv, bitsloop, if_pos hmore, if_pos hl]
        · obtain ⟨t, hleads, hnone, hv⟩ :=
            ih { s with h := s.h - 64, l := s.l - 64, r := s.r + 1 } (hrest _ rfl)
              (by show s.h - 64 < _; omega)
          refine ⟨t, .turn ?_ hleads, hnone, ?_⟩
          · rw [next, if_pos hmore, if_neg hl]
          · rw [hv, bitsloop, if_pos hmore, if_neg hl]
      · refine ⟨s, .refl s, next_none hmore, ?_⟩
        rw [bitsloop, if_neg hmore]

/-- With `h` below 192 the loop stays within the register. -/
theorem leads_bits {word : Nat → BitVec 64} (r : Resp)
    (hword : ∀ i (hi : i < 3), word i = r.words[i]) {h : Nat} (hh : h < 192) (l : Nat) :
    ∃ t, Leads (next word) (start h l) t ∧ next word t = none ∧
      bits r h l = t.v.toNat % 2 ^ 32 := by
  obtain ⟨t, hleads, hnone, hv⟩ := leads_bitsloop r.words (start h l)
    (fun i hi => by rw [start, Nat.zero_add]; exact hword i hi)
    (by show (h : Int) < 64 * (3 : Nat); omega)
  refine ⟨t, hleads, hnone, ?_⟩
  rw [hv]
  rfl

/-! ## The field -/

/-- The value of a register. -/
def Resp.value (r : Resp) : Nat := r.low + r.resp0.toNat * 2 ^ 128

theorem field_value (r : Resp) {l w : Nat} (hw : l + w ≤ 128) :
    field r.value l w = field r.low l w :=
  field_add_mul _ hw

/-- A field is what is below its highest bit, and that. -/
theorem field_succ (x o w : Nat) :
    field x o (w + 1) = field x o w + (x.testBit (o + w)).toNat * 2 ^ w := by
  rw [field_append, Nat.toNat_testBit]
  rfl

/-- What comes out without the highest bit is right if that is 0. -/
theorem eq_field_iff {x o w b : Nat} (hb : b = field x o w) :
    b = field x o (w + 1) ↔ x.testBit (o + w) = false := by
  rw [hb, field_succ]
  cases x.testBit (o + w) with
  | false => simp
  | true =>
      have hpos := Nat.two_pow_pos w
      simp only [Bool.toNat_true, Nat.one_mul, reduceCtorEq, iff_false]
      omega

/-- All registers and all bounds within the low 128 bits, at most 32 bits apart: `bits` is
right for fields of two bits or more that do not end at bit 64, and for the others if their
highest bit is 0.  The loop ends for all integers, whatever the words. -/
theorem bits_exact_iff (r : Resp) {h l : Nat} (hl : l ≤ h) (hh : h ≤ 127)
    (hw : h - l < 32) :
    (bits r h l = r.value / 2 ^ l % 2 ^ (h - l + 1) ↔
      l < h ∧ h ≠ 64 ∨ r.value.testBit h = false) ∧
    ∀ (word : Nat → BitVec 64) (h l : Int),
      ∃ n, after (next word) (start h l) n = none := by
  refine ⟨?_, fun word h l => (ends_iff.1 (next_ends word (start h l))).1⟩
  show bits r h l = field r.value l (h - l + 1) ↔ _
  have htop : l + (h - l) = h := by omega
  by_cases hfine : l < h ∧ h ≠ 64
  · have hwidth : h - l + 1 = h + 1 - l := by omega
    refine iff_of_true ?_ (.inl hfine)
    rw [field_value r (by omega), hwidth]
    exact bits_slice r hfine.1 (by omega) hfine.2 (by omega)
  · have hbelow : bits r h l = field r.value l (h - l) := by
      rw [field_value r (by omega)]
      obtain rfl | hlt := Nat.eq_or_lt_of_le hl
      · rw [bits_single, Nat.sub_self, field, Nat.pow_zero, Nat.mod_one]
      · have h64 : h = 64 := by
          by_contra hne
          exact hfine ⟨hlt, hne⟩
        subst h64
        exact bits_boundary r hlt (by omega)
    rw [eq_field_iff hbelow, htop]
    exact (or_iff_right hfine).symm

/-- A register with bit 64 set. -/
def bit64 : Resp := ⟨0#64, 1#64, 0#64⟩

/-- Bits 66 to 60 have it in the middle. -/
theorem bit64_within : bits bit64 66 60 = bit64.value / 2 ^ 60 % 2 ^ (66 - 60 + 1) :=
  (bits_exact_iff bit64 (by decide) (by decide) (by decide)).1.2 (.inl (by decide))

/-- Bits 64 to 60 have it at their end. -/
theorem bit64_lost : ¬ ∀ (r : Resp) (h l : Nat), l ≤ h → h ≤ 127 → h - l < 32 →
    bits r h l = r.value / 2 ^ l % 2 ^ (h - l + 1) := by
  intro hall
  have hbits : bits bit64 64 60 = 0 := by decide
  have hvalue : bit64.value / 2 ^ 60 % 2 ^ (64 - 60 + 1) = 16 := by decide
  have hwrong := hall bit64 64 60 (by decide) (by decide) (by decide)
  rw [hbits, hvalue] at hwrong
  exact absurd hwrong (by decide)

end Kirkwood.Ports.SdResponse
