import Mathlib.Algebra.Order.Ring.Nat
import Mathlib.Algebra.BigOperators.Group.List.Basic
import Kirkwood.Ports.SataRequest

/-!
# Reads and writes of the SATA disk

The data file of `devsata.c`: the loops of `sataread` and `satawrite` call `io` until all
bytes are transferred, or until `io` returns 0 at the end of the disk.  `io` takes at most
1024 sectors of what is left, and compares the first sector with the size of the disk.

## Main results

* `satadata_iff`: the requests stay on the disk and cover what is asked for exactly when
  the transfer ends at or before the end of the disk, or the end is a multiple of 1024
  sectors away from its start.
-/

namespace Kirkwood.Ports.SataData

open Kirkwood.Ports.SataRequest

/-! ## The code -/

def Enodisk : String := "no disk"
def Ebadarg : String := "Ebadarg"
def Eperm : String := "Eperm"

/-- The fields of `disk` that `io` reads; `identify` puts `sectors` together from three
words of 16 bits. -/
structure Disk where
  valid : Bool
  sectors : BitVec 48
deriving DecidableEq, Repr

/-- `io` up to the request: the transfer asked for, or `none` where it returns 0. -/
def io (disk : Disk) (write : Bool) (buf : Nat) (nb off : Int) :
    Except String (Option Transfer) :=
  if disk.valid = false then .error Enodisk
  else if nb < 0 ∨ off < 0 ∨ off % 512 ≠ 0 then .error Ebadarg
  else
    let ns := (nb / 512).toNat
    let lba := (off / 512).toNat
    if nb = 0 then .ok none
    else if nb % 512 ≠ 0 then .error Ebadarg
    else if buf % 2 = 1 then .error Ebadarg
    else if lba = disk.sectors.toNat then .ok none
    else if lba > disk.sectors.toNat then .error Ebadarg
    else .ok (some ⟨write, buf, ns, lba⟩)

theorem io_sectors {disk : Disk} {write : Bool} {buf : Nat} {nb off : Int} {t : Transfer}
    (h : io disk write buf nb off = .ok (some t)) : 0 < t.sectors := by
  unfold io at h
  split at h
  · cases h
  · split at h
    · cases h
    · simp only at h
      split at h
      · cases h
      · split at h
        · cases h
        · split at h
          · cases h
          · split at h
            · cases h
            · split at h
              · cases h
              · cases h
                rw [Transfer.sectors_eq]
                simp only
                omega

/-- The loop of `sataread` and `satawrite` with `r` bytes done, and with it the requests
that `io` issues.  `msgs k` is the message of the device's error for request `k`; `none`
is `Rok`. -/
def dataloop (disk : Disk) (write : Bool) (buf : Nat) (n off : Int)
    (msgs : Nat → Option String) (k : Nat) (r : Int) : List Transfer × Except String Int :=
  if _hr : r < n then
    match _hio : io disk write ((buf + r.toNat) % 2 ^ 32) (n - r) (off + r) with
    | .error e => ([], .error e)
    | .ok none => ([], .ok r)
    | .ok (some t) =>
        match msgs k with
        | some msg => ([t], .error msg)
        | none =>
            let rest := dataloop disk write buf n off msgs (k + 1)
              (r + (t.sectors * 512 : Nat))
            (t :: rest.1, rest.2)
  else ([], .ok r)
termination_by (n - r).toNat
decreasing_by
  have := io_sectors _hio
  omega

/-- `sataread` of `Qdata`. -/
def sataread (disk : Disk) (eve : Bool) (buf : Nat) (n off : Int)
    (msgs : Nat → Option String) : List Transfer × Except String Int :=
  if eve = false then ([], .error Eperm) else dataloop disk false buf n off msgs 0 0

/-- `satawrite` of `Qdata`. -/
def satawrite (disk : Disk) (eve : Bool) (buf : Nat) (n off : Int)
    (msgs : Nat → Option String) : List Transfer × Except String Int :=
  if eve = false then ([], .error Eperm) else dataloop disk true buf n off msgs 0 0

/-! ## What they should do -/

/-- Sectors from `lba` on and memory from `buf` on, one request after another. -/
def Consecutive (write : Bool) : Nat → Nat → List Transfer → Prop
  | _, _, [] => True
  | buf, lba, t :: ts => t.write = write ∧ t.buf = buf ∧ t.lba = lba ∧
      Consecutive write ((buf + t.sectors * 512) % 2 ^ 32) (lba + t.sectors) ts

/-- The bytes of these requests. -/
def total (ts : List Transfer) : Nat := (ts.map fun t => t.sectors * 512).sum

/-- The requests stay on the disk and cover `n` bytes from `off` on, as far as the disk
goes, which is what is returned. -/
structure Covers (disk : Disk) (write : Bool) (buf n off : Nat)
    (io : List Transfer × Except String Int) : Prop where
  consecutive : Consecutive write (buf % 2 ^ 32) (off / 512) io.1
  size : ∀ t ∈ io.1, 1 ≤ t.sectors ∧ t.sectors ≤ 1024
  ondisk : ∀ t ∈ io.1, t.lba + t.sectors ≤ disk.sectors.toNat
  all : total io.1 = min n (disk.sectors.toNat * 512 - off)
  returned : io.2 = .ok (total io.1 : Int)

/-- Whole sectors that start on the disk or at its end. -/
def Proper (disk : Disk) (n off : Int) : Prop :=
  (0 ≤ n ∧ n % 512 = 0) ∧ (0 ≤ off ∧ off % 512 = 0) ∧ off ≤ disk.sectors.toNat * 512

/-- `io` refuses neither the disk nor the buffer. -/
def Ready (disk : Disk) (buf : Nat) : Prop := disk.valid = true ∧ buf % 2 = 0

/-- What is asked of a transfer whose requests succeed. -/
def Right (disk : Disk) (write : Bool) (buf : Nat) (n off : Int)
    (io : List Transfer × Except String Int) : Prop :=
  (Ready disk buf → Proper disk n off → Covers disk write buf n.toNat off.toNat io) ∧
    (¬ Proper disk n off → 0 < n → io.1 = [] ∧ ∃ e, io.2 = .error e)

/-- The end of the transfer is on the disk, or the end of the disk is met between two
requests. -/
def Meets (sectors n lba : Nat) : Prop := lba + n ≤ sectors ∨ (sectors - lba) % 1024 = 0

/-! ## One request -/

section
variable {disk : Disk} (write : Bool) {b m lba : Nat} (hvalid : disk.valid = true)
  (heven : b % 2 = 0) (hpos : 0 < m)
include hvalid heven hpos

private theorem io_end (hlba : lba = disk.sectors.toNat) :
    io disk write b (512 * m : Nat) (512 * lba : Nat) = .ok none := by
  have hns : ((512 * lba : Nat) / 512 : Int).toNat = lba := by omega
  unfold io
  rw [hns, if_neg (by simp [hvalid]), if_neg (by omega)]
  simp only
  rw [if_neg (by omega), if_neg (by omega), if_neg (by omega), if_pos hlba]

private theorem io_request (hlba : lba < disk.sectors.toNat) :
    io disk write b (512 * m : Nat) (512 * lba : Nat) = .ok (some ⟨write, b, m, lba⟩) := by
  have hns : ((512 * lba : Nat) / 512 : Int).toNat = lba := by omega
  have hm : ((512 * m : Nat) / 512 : Int).toNat = m := by omega
  unfold io
  rw [hns, hm, if_neg (by simp [hvalid]), if_neg (by omega)]
  simp only
  rw [if_neg (by omega), if_neg (by omega), if_neg (by omega), if_neg (by omega),
    if_neg (by omega)]

end

/-- A first request that is not proper raises an error. -/
private theorem io_improper {disk : Disk} (write : Bool) (b : Nat) {n off : Int}
    (hn : 0 < n) (h : ¬ Proper disk n off) : ∃ e, io disk write b n off = .error e := by
  unfold Proper at h
  unfold io
  split
  · exact ⟨_, rfl⟩
  · split
    · exact ⟨_, rfl⟩
    · simp only
      split
      · omega
      · split
        · exact ⟨_, rfl⟩
        · split
          · exact ⟨_, rfl⟩
          · split
            · omega
            · split
              · exact ⟨_, rfl⟩
              · omega

/-! ## The loop -/

section
variable {disk : Disk} {write : Bool} {buf : Nat} {n off : Int}
variable {msgs : Nat → Option String} {k : Nat} {r : Int}

private theorem dataloop_stop (h : ¬ r < n) :
    dataloop disk write buf n off msgs k r = ([], .ok r) := by
  rw [dataloop, dif_neg h]

private theorem dataloop_none (h : r < n)
    (hio : io disk write ((buf + r.toNat) % 2 ^ 32) (n - r) (off + r) = .ok none) :
    dataloop disk write buf n off msgs k r = ([], .ok r) := by
  rw [dataloop, dif_pos h]
  split
  · rename_i heq
    rw [hio] at heq
    cases heq
  · rfl
  · rename_i heq
    rw [hio] at heq
    cases heq

private theorem dataloop_error (h : r < n) {e : String}
    (hio : io disk write ((buf + r.toNat) % 2 ^ 32) (n - r) (off + r) = .error e) :
    dataloop disk write buf n off msgs k r = ([], .error e) := by
  rw [dataloop, dif_pos h]
  split
  · rename_i heq
    rw [hio] at heq
    cases heq
    rfl
  · rename_i heq
    rw [hio] at heq
    cases heq
  · rename_i heq
    rw [hio] at heq
    cases heq

private theorem dataloop_some (h : r < n) {t : Transfer}
    (hio : io disk write ((buf + r.toNat) % 2 ^ 32) (n - r) (off + r) = .ok (some t))
    (hok : msgs k = none) :
    dataloop disk write buf n off msgs k r =
      (t :: (dataloop disk write buf n off msgs (k + 1) (r + (t.sectors * 512 : Nat))).1,
        (dataloop disk write buf n off msgs (k + 1) (r + (t.sectors * 512 : Nat))).2) := by
  rw [dataloop, dif_pos h]
  split
  · rename_i heq
    rw [hio] at heq
    cases heq
  · rename_i heq
    rw [hio] at heq
    cases heq
  · rename_i heq
    rw [hio] at heq
    cases heq
    split
    · rename_i hmsg
      rw [hok] at hmsg
      cases hmsg
    · rfl

end

/-- No request fails. -/
def allok (_ : Nat) : Option String := none

section
variable {disk : Disk} (write : Bool) {buf : Nat} (hready : Ready disk buf)
include hready

/-- A turn of the loop: `m` sectors are left, from sector `lba` on. -/
private theorem turn {m lba r : Nat} (k : Nat) {n off : Int} (hr : r % 512 = 0)
    (hn : n = (r + 512 * m : Nat)) (hoff : off + r = (512 * lba : Nat)) (hpos : 0 < m)
    (hlba : lba < disk.sectors.toNat) :
    dataloop disk write buf n off allok k r =
      (⟨write, (buf + r) % 2 ^ 32, m, lba⟩ ::
          (dataloop disk write buf n off allok (k + 1) (r + min m 1024 * 512 : Nat)).1,
        (dataloop disk write buf n off allok (k + 1) (r + min m 1024 * 512 : Nat)).2) := by
  have hio : io disk write ((buf + r) % 2 ^ 32) (n - r) (off + r) =
      .ok (some ⟨write, (buf + r) % 2 ^ 32, m, lba⟩) := by
    have hleft : n - r = (512 * m : Nat) := by omega
    have heven := hready.2
    rw [hleft, hoff]
    exact io_request write hready.1 (by omega) hpos hlba
  rw [dataloop_some (t := ⟨write, (buf + r) % 2 ^ 32, m, lba⟩) (by omega) hio rfl,
    Transfer.sectors_eq]
  rfl

/-- No sectors are left, or no disk. -/
private theorem turn_last {m lba r : Nat} (k : Nat) {n off : Int}
    (hn : n = (r + 512 * m : Nat)) (hoff : off + r = (512 * lba : Nat))
    (hr : r % 512 = 0) (hlast : m = 0 ∨ lba = disk.sectors.toNat) :
    dataloop disk write buf n off allok k r = ([], .ok (r : Int)) := by
  by_cases hm : m = 0
  · exact dataloop_stop (by omega)
  · have hlba : lba = disk.sectors.toNat := hlast.resolve_left hm
    have hleft : n - r = (512 * m : Nat) := by omega
    have heven := hready.2
    apply dataloop_none (by omega)
    rw [hleft, hoff]
    exact io_end write hready.1 (by omega) (by omega) hlba

/-- What is left where the transfer meets the end of the disk. -/
private theorem rest_covers (m lba r k : Nat) {n : Int} (off : Int)
    (hr : r % 512 = 0) (hn : n = (r + 512 * m : Nat)) (hoff : off + r = (512 * lba : Nat))
    (hlba : lba ≤ disk.sectors.toNat) (hmeets : Meets disk.sectors.toNat m lba) :
    Consecutive write ((buf + r) % 2 ^ 32) lba
        (dataloop disk write buf n off allok k r).1 ∧
      (∀ t ∈ (dataloop disk write buf n off allok k r).1,
        (1 ≤ t.sectors ∧ t.sectors ≤ 1024) ∧ t.lba + t.sectors ≤ disk.sectors.toNat) ∧
      total (dataloop disk write buf n off allok k r).1 =
        min m (disk.sectors.toNat - lba) * 512 ∧
      (dataloop disk write buf n off allok k r).2 =
        .ok ((r + min m (disk.sectors.toNat - lba) * 512 : Nat) : Int) := by
  induction m using Nat.strongRecOn generalizing lba r k with
  | ind m ih =>
      by_cases hlast : m = 0 ∨ lba = disk.sectors.toNat
      · have hzero : min m (disk.sectors.toNat - lba) = 0 := by omega
        rw [turn_last write hready k hn hoff hr hlast, hzero]
        exact ⟨trivial, fun t ht => (nomatch ht), rfl, rfl⟩
      · unfold Meets at hmeets ih
        have hfits : lba + min m 1024 ≤ disk.sectors.toNat := by omega
        obtain ⟨hconsecutive, hall, htotal, hret⟩ := ih (m - min m 1024) (by omega)
          (lba + min m 1024) (r + min m 1024 * 512) (k + 1) (by omega) (by omega) (by omega)
          hfits (by omega)
        have hsectors : (⟨write, (buf + r) % 2 ^ 32, m, lba⟩ : Transfer).sectors =
            min m 1024 := Transfer.sectors_eq _
        rw [turn write hready k hr hn hoff (by omega) (by omega)]
        refine ⟨⟨rfl, rfl, rfl, ?_⟩, fun t ht => ?_, ?_, ?_⟩
        · rw [hsectors, Nat.mod_add_mod, Nat.add_assoc]
          exact hconsecutive
        · rcases List.mem_cons.1 ht with rfl | ht
          · rw [hsectors]
            exact ⟨by omega, hfits⟩
          · exact hall t ht
        · unfold total at htotal ⊢
          rw [List.map_cons, List.sum_cons, htotal, hsectors]
          omega
        · rw [hret]
          congr 2
          omega

/-- Where it does not, some request goes past the end. -/
private theorem rest_crosses (m lba r k : Nat) {n : Int} (off : Int)
    (hr : r % 512 = 0) (hn : n = (r + 512 * m : Nat)) (hoff : off + r = (512 * lba : Nat))
    (hlba : lba ≤ disk.sectors.toNat) (hmeets : ¬ Meets disk.sectors.toNat m lba) :
    ∃ t ∈ (dataloop disk write buf n off allok k r).1,
      disk.sectors.toNat < t.lba + t.sectors := by
  induction m using Nat.strongRecOn generalizing lba r k with
  | ind m ih =>
      unfold Meets at hmeets ih
      have hpos : 0 < m := by omega
      have hlt : lba < disk.sectors.toNat := by
        by_contra hend
        have : disk.sectors.toNat - lba = 0 := by omega
        omega
      have hsectors : (⟨write, (buf + r) % 2 ^ 32, m, lba⟩ : Transfer).sectors =
          min m 1024 := Transfer.sectors_eq _
      rw [turn write hready k hr hn hoff hpos hlt]
      by_cases hcross : disk.sectors.toNat < lba + min m 1024
      · refine ⟨_, List.mem_cons_self, ?_⟩
        rw [hsectors]
        exact hcross
      · obtain ⟨t, ht, hover⟩ := ih (m - min m 1024) (by omega) (lba + min m 1024)
          (r + min m 1024 * 512) (k + 1) (by omega) (by omega) (by omega) (by omega)
          (by omega)
        exact ⟨t, List.mem_cons_of_mem _ ht, hover⟩

end

theorem dataloop_iff (disk : Disk) (write : Bool) (buf : Nat) (n off : Int) :
    Right disk write buf n off (dataloop disk write buf n off allok 0 0) ↔
      (Ready disk buf → Proper disk n off →
        Meets disk.sectors.toNat (n / 512).toNat (off / 512).toNat) := by
  constructor
  · intro hright hready hproper
    obtain ⟨⟨hn, hn512⟩, ⟨hoff, hoff512⟩, hend⟩ := id hproper
    by_contra hmeets
    obtain ⟨t, ht, hover⟩ := rest_crosses write hready (n / 512).toNat (off / 512).toNat 0 0
      (n := n) off rfl (by omega) (by omega) (by omega) hmeets
    have hon := (hright.1 hready hproper).ondisk t ht
    omega
  · intro hmeets
    refine ⟨fun hready hproper => ?_, fun hproper hpos => ?_⟩
    · obtain ⟨⟨hn, hn512⟩, ⟨hoff, hoff512⟩, hend⟩ := id hproper
      have hlba : off.toNat / 512 = (off / 512).toNat := by omega
      obtain ⟨hconsecutive, hall, htotal, hret⟩ := rest_covers write hready (n / 512).toNat
        (off / 512).toNat 0 0 (n := n) off rfl (by omega) (by omega) (by omega)
        (hmeets hready hproper)
      refine ⟨?_, fun t ht => (hall t ht).1, fun t ht => (hall t ht).2, ?_, ?_⟩
      · rw [hlba]
        exact hconsecutive
      · rw [Int.natCast_zero] at htotal
        rw [htotal]
        omega
      · rw [Int.natCast_zero] at hret htotal
        rw [hret, htotal, Nat.zero_add]
    · obtain ⟨e, he⟩ := io_improper write ((buf + (0 : Int).toNat) % 2 ^ 32) hpos hproper
      have hloop : dataloop disk write buf n off allok 0 0 = ([], .error e) := by
        apply dataloop_error hpos
        rw [Int.sub_zero, Int.add_zero]
        exact he
      rw [hloop]
      exact ⟨rfl, e, rfl⟩

/-- The reads and writes of the data file do what they should exactly when the transfer
meets the end of the disk. -/
theorem satadata_iff (disk : Disk) (buf : Nat) (n off : Int) :
    (Right disk false buf n off (sataread disk true buf n off allok) ↔
      (Ready disk buf → Proper disk n off →
        Meets disk.sectors.toNat (n / 512).toNat (off / 512).toNat)) ∧
    (Right disk true buf n off (satawrite disk true buf n off allok) ↔
      (Ready disk buf → Proper disk n off →
        Meets disk.sectors.toNat (n / 512).toNat (off / 512).toNat)) :=
  ⟨dataloop_iff disk false buf n off, dataloop_iff disk true buf n off⟩

/-- Two sectors read from a disk of one sector. -/
theorem read_past_end : ¬ ∀ (disk : Disk) (buf : Nat) (n off : Int),
    Right disk false buf n off (sataread disk true buf n off allok) := by
  intro hall
  have hmeets := (dataloop_iff ⟨true, 1#48⟩ false 0 1024 0).1 (hall ⟨true, 1#48⟩ 0 1024 0)
    ⟨rfl, rfl⟩ ⟨by decide, by decide, by decide⟩
  exact absurd hmeets (by unfold Meets; decide)

end Kirkwood.Ports.SataData
