import Kirkwood.Ports.SdInitSound

/-!
# Addresses on an SD card

What a 32-bit command argument counts comes from the operating conditions, and the capacity
of the card from its CSD register.  `sdinit` does not compare the two.

## Main results

* `addresses_unique_iff`: the arguments of the sectors differ exactly when the card is SDHC
  or the capacity is at most 4 GiB;
* `initialised_unique_iff`: the same for a card that an initialisation leaves.
-/

namespace Kirkwood.Ports.SdAddress

open Kirkwood.Verified.CInt
open Kirkwood.Verified.Outcome
open Kirkwood.Ports.SdResponse (Resp Csd parsecsd)
open Kirkwood.Ports.SdioTransfer (Sdio cardArg)
open Kirkwood.Ports.SdInit

/-- The operating conditions with which the card is taken to have powered up. -/
def Accepted (ocr : BitVec 32) : Prop :=
  ocr &&& ACMD41voltagewindow ≠ 0#32 ∧ ocr &&& ACMD41ready ≠ 0#32

/-- `c->sdhc` -/
def hc (ocr : BitVec 32) : Bool := decide (ocr &&& ACMD41sdhcsupported ≠ 0#32)

/-- Below `size`, an argument stands for one sector only. -/
def Unique (c : Sdio) (size : Int) : Prop :=
  ∀ x y : Int, 0 ≤ x → x < size → 512 ∣ x → 0 ≤ y → y < size → 512 ∣ y →
    cardArg c x = cardArg c y → x = y

section
variable {c : Sdio} {size : Int}

theorem unique_sdhc (h : c.sdhc = true) (hsize : size ≤ 2 ^ 41) : Unique c size := by
  have harg : ∀ x : Int, 0 ≤ x → x < size → cardArg c x = x / 512 := by
    intro x hx hlt
    rw [cardArg, if_pos h, vlong_eq (by omega) (by omega), Int.tdiv_eq_ediv_of_nonneg hx,
      ulong_eq (by omega) (by omega)]
  intro x y hx hxlt hxdvd hy hylt hydvd heq
  rw [harg x hx hxlt, harg y hy hylt] at heq
  omega

theorem unique_small (h : c.sdhc = false) (hsize : size ≤ 2 ^ 32) : Unique c size := by
  have harg : ∀ x : Int, 0 ≤ x → x < size → cardArg c x = x := by
    intro x hx hlt
    rw [cardArg, h]
    exact ulong_eq hx (Int.lt_of_lt_of_le hlt hsize)
  intro x y hx hxlt _ hy hylt _ heq
  rwa [harg x hx hxlt, harg y hy hylt] at heq

/-- The sectors 0 and 2^32 have the same argument. -/
theorem not_unique (h : c.sdhc = false) (hsize : 2 ^ 32 < size) : ¬ Unique c size := by
  intro hunique
  have harg : cardArg c 0 = cardArg c (2 ^ 32) := by
    rw [cardArg, cardArg, h]
    rfl
  have heq := hunique 0 (2 ^ 32) (by decide) (by omega) (by decide) (by decide) hsize
    (by decide) harg
  exact absurd heq (by decide)

theorem unique_iff (hsize : size ≤ 2 ^ 41) :
    Unique c size ↔ c.sdhc = true ∨ size ≤ 2 ^ 32 := by
  cases h : c.sdhc with
  | true => exact iff_of_true (unique_sdhc h hsize) (.inl rfl)
  | false =>
      by_cases hsmall : size ≤ 2 ^ 32
      · exact iff_of_true (unique_small h hsmall) (.inr hsmall)
      · exact iff_of_false (not_unique h (Int.not_le.1 hsmall))
          (not_or.2 ⟨Bool.false_ne_true, hsmall⟩)

end

/-- For every CSD that is accepted, and all operating conditions, the capacity is computed
without overflow; the arguments of its sectors differ exactly for an SDHC card or a capacity
of at most 4 GiB. -/
theorem addresses_unique_iff (csd₀ csd : Csd) (r : Resp) (ocr : BitVec 32) (c : Sdio)
    (hcsd : parsecsd csd₀ r = (csd, 0)) (hc : c.sdhc = hc ocr) :
    ((setsize csd).2 = capacity csd ∧ capacity csd < 2 ^ 63 ∧ Unique c (capacity csd)) ↔
      ocr &&& ACMD41sdhcsupported ≠ 0#32 ∨ capacity csd ≤ 2 ^ 32 := by
  have hle := capacity_le hcsd
  have hbound : capacity csd < 2 ^ 63 := Nat.lt_of_le_of_lt hle (by decide)
  rw [and_iff_right (setsize_capacity hcsd), and_iff_right hbound,
    unique_iff (by omega), hc, SdAddress.hc, decide_eq_true_iff]
  exact or_congr_right (by omega)

/-- The transfers to an initialised card. -/
theorem initialised_unique_iff {d : Store} {w : World} (h : Initialised d w) {c : Sdio}
    (hc : c.sdhc = w.card.sdhc) :
    Unique c w.card.size ↔ w.card.sdhc = true ∨ capacity w.card.csd ≤ 2 ^ 32 := by
  obtain ⟨e, -, -, csd₀, hcsd⟩ := h.parsed
  have hle := capacity_le hcsd
  rw [h.size, setsize_capacity hcsd, unique_iff (by omega), hc]
  exact or_congr_right (by omega)

/-- Version 1 registers, of 2 MiB and 8 GiB. -/
def small : Resp := ⟨0#64, 1#64 <<< 62, 3#64 <<< 48⟩
def large : Resp := ⟨0#64, 1#64 <<< 62, 0x3fff#64 <<< 48⟩

/-- Powered up, and not SDHC. -/
def standard : BitVec 32 := ACMD41ready ||| ACMD41voltagewindow

/-- A card of its kind, with both statuses 0. -/
def card (ocr : BitVec 32) : Sdio where
  valid := true
  sdhc := hc ocr
  preerase := fun _ => false
  preStatus := fun _ => 0
  ioStatus := fun _ => 0

/-- The sectors of a smaller one have addresses of their own. -/
theorem addresses_unique_small :
    Unique (card standard) (capacity (parsecsd default small).1) :=
  ((addresses_unique_iff default (parsecsd default small).1 small standard (card standard)
    (by decide) rfl).2 (.inr (by decide))).2.2

/-- Two sectors of the large one have the same address. -/
theorem large_not_unique : ¬ ∀ csd₀ csd r ocr c, parsecsd csd₀ r = (csd, 0) →
    Accepted ocr → c.sdhc = hc ocr →
      (setsize csd).2 = capacity csd ∧ capacity csd < 2 ^ 63 ∧ Unique c (capacity csd) := by
  intro hall
  have haccepted : Accepted standard := by
    unfold Accepted
    decide
  obtain ⟨-, -, hunique⟩ := hall default (parsecsd default large).1 large standard
    (card standard) (by decide) haccepted rfl
  exact not_unique (by decide) (by decide) hunique

end Kirkwood.Ports.SdAddress
