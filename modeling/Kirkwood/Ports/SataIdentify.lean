import Mathlib.Data.List.DropRight
import Kirkwood.Ports.SataTags

/-!
# Identifying the SATA disk

`identify` of `devsata.c` asks the disk what it is and fills in the record `disk` and the
tags.  It can raise an error in five places: three before it changes anything, one
after it wrote the record, one after it wrote the tags as well.  The flag `valid`, which
`io` looks at, keeps its value from an earlier success.

## Main results

* `identify_ends`: what a call leaves, by the places where it can end;
* `identify_kept_iff`: a call that raises leaves the disk as it was, or not valid, exactly
  when it raises early, or there was no valid disk, or the answer says what is
  already there.
-/

namespace Kirkwood.Ports.SataIdentify

open Kirkwood.Ports.SataTags

/-! ## The driver's state -/

/-- A string in an array of `n+1` bytes whose last one is always 0. -/
def Text (n : Nat) : Type :=
  { p : List (BitVec 8) // p.length = n + 1 ∧ p.getLast? = some 0#8 }
deriving DecidableEq

structure Disk where
  valid : Bool
  serial : Text 20
  firmware : Text 8
  model : Text 40
  sectors : BitVec 64
deriving DecidableEq

/-- The record, the tags, and the length in `satadir`. -/
structure Sata where
  disk : Disk
  pool : TagPool
  length : BitVec 64

/-! ## The answer -/

inductive Done where
  | Rok
  | Rtimeout
  | Rfail
deriving DecidableEq, Repr

def donemsgs : Done → String
  | .Rok => "ok"
  | .Rtimeout => "timeout"
  | .Rfail => "error"

def Aerr : BitVec 32 := 1#32 <<< 0
def Adrq : BitVec 32 := 1#32 <<< 3
def Adf : BitVec 32 := 1#32 <<< 5
def Adrdy : BitVec 32 := 1#32 <<< 6
def Absy : BitVec 32 := 1#32 <<< 7

/-- What the device does for "identify device": how the command ends, its status then,
the bytes that it delivers, and its status after them. -/
structure Answer where
  done : Done
  status : BitVec 32
  buf : Nat → BitVec 8
  after : BitVec 32

/-- Word `k` of the answer. -/
def Answer.g16 (a : Answer) (k : Nat) : BitVec 16 := a.buf (2 * k) ++ a.buf (2 * k + 1)

def Fcaplba : BitVec 16 := 1#16 <<< 9
def Fcapdma : BitVec 16 := 1#16 <<< 8
def Feat1Addr48 : BitVec 16 := 1#16 <<< 10

/-! ## The code -/

abbrev SataM := EStateM String Sata

/-- `if(c) error(msg);` -/
def errorif (c : Prop) [Decidable c] (msg : String) : SataM Unit :=
  if c then throw msg else pure ()

/-- `atacmd(0xec, 0, 0, 0, 0, Dev2host, buf, 60*1000)` -/
def atacmd (a : Answer) : SataM Unit := do
  errorif (a.done ≠ .Rok) (donemsgs a.done)
  errorif (a.status &&& Aerr ≠ 0#32) "ata command failed"
  errorif (a.status &&& Adf ≠ 0#32) "device fault"

def atacheck (a : Answer) (statusmask status : BitVec 32) : Int :=
  if a.after &&& statusmask ≠ status then -1 else 0

/-- `c` behind the loop over the bytes. -/
def checkbyte (a : Answer) : BitVec 8 :=
  (List.range 512).foldl (fun c i => c + a.buf i) 0#8

/-- `strip` on the bytes of an array: the string in it without the spaces around it, its
end, and the bytes that were not moved. -/
def stripped (p : List (BitVec 8)) : List (BitVec 8) :=
  let s := ((p.takeWhile (· ≠ 0#8)).dropWhile (· = 0x20#8)).rdropWhile (· = 0x20#8)
  s ++ 0#8 :: p.drop (s.length + 1)

private theorem string_lt {p : List (BitVec 8)} (hlast : p.getLast? = some 0#8) :
    (p.takeWhile (· ≠ 0#8)).length < p.length := by
  have hle := (p.takeWhile_prefix (· ≠ 0#8)).length_le
  rcases Nat.lt_or_eq_of_le hle with hlt | heq
  · exact hlt
  · have hall := List.takeWhile_eq_self_iff.1 ((p.takeWhile_prefix _).eq_of_length heq)
    have hzero := hall 0#8 (List.mem_of_getLast? hlast)
    simp at hzero

private theorem stripped_text {n : Nat} {p : List (BitVec 8)} (hlen : p.length = n + 1)
    (hlast : p.getLast? = some 0#8) :
    (stripped p).length = n + 1 ∧ (stripped p).getLast? = some 0#8 := by
  unfold stripped
  generalize hs :
    ((p.takeWhile (· ≠ 0#8)).dropWhile (· = 0x20#8)).rdropWhile (· = 0x20#8) = s
  have hlt : s.length < p.length := by
    have htrail := (List.rdropWhile_prefix (· = 0x20#8)
      ((p.takeWhile (· ≠ 0#8)).dropWhile (· = 0x20#8))).length_le
    have hlead :=
      (List.dropWhile_suffix (l := p.takeWhile (· ≠ 0#8)) (· = 0x20#8)).length_le
    have hstring := string_lt hlast
    rw [hs] at htrail
    omega
  constructor
  · rw [List.length_append, List.length_cons, List.length_drop]
    omega
  · rw [List.getLast?_append, List.getLast?_cons, List.getLast?_drop]
    split
    · rfl
    · rw [hlast]
      rfl

/-- `memmove` of `n` bytes of the answer from `k` on. -/
def moved {n : Nat} (a : Answer) (k : Nat) (p : Text n) : List (BitVec 8) :=
  (List.range n).map (fun i => a.buf (k + i)) ++ p.val.drop n

private theorem moved_text {n : Nat} (a : Answer) (k : Nat) (p : Text n) :
    (moved a k p).length = n + 1 ∧ (moved a k p).getLast? = some 0#8 := by
  obtain ⟨hlen, hlast⟩ := p.property
  unfold moved
  constructor
  · rw [List.length_append, List.length_map, List.length_range, List.length_drop]
    omega
  · rw [List.getLast?_append, List.getLast?_drop, if_neg (by omega), hlast]
    rfl

/-- `memmove` and `strip`. -/
def Text.take {n : Nat} (p : Text n) (a : Answer) (k : Nat) : Text n :=
  ⟨stripped (moved a k p), stripped_text (moved_text a k p).1 (moved_text a k p).2⟩

/-- The sectors that the answer gives. -/
def Answer.sectors (a : Answer) : BitVec 64 :=
  0#64 ||| (a.g16 100).setWidth 64 <<< 0 ||| (a.g16 101).setWidth 64 <<< 16 |||
    (a.g16 102).setWidth 64 <<< 32

/-- The record, from the answer. -/
def Disk.fill (d : Disk) (a : Answer) : Disk :=
  { d with
    serial := d.serial.take a (10 * 2)
    firmware := d.firmware.take a (23 * 2)
    model := d.model.take a (27 * 2)
    sectors := a.sectors }

def identify (a : Answer) : SataM Unit := do
  atacmd a
  errorif (atacheck a (Absy ||| Adrdy ||| Adf ||| Adrq ||| Aerr) Adrdy < 0)
    "identify failed"
  errorif (checkbyte a ≠ 0#8) "check byte for 'identify device' response invalid"
  modify fun s => { s with disk := s.disk.fill a }
  errorif (a.g16 49 &&& Fcapdma = 0#16 ∨ a.g16 49 &&& Fcaplba = 0#16)
    "disk does not support dma and/or lba"
  modify fun s => { s with pool := s.pool.identify (a.g16 75).toNat }
  errorif (a.g16 (82 + 3 + 1) &&& Feat1Addr48 = 0#16) "disk does not have lba48 enabled"
  modify fun s => { s with length := s.disk.sectors * 512#64 }
  modify fun s => { s with disk := { s.disk with valid := true } }

/-! ## Where a call ends -/

/-- The bytes arrive, and their sum is right. -/
def Answer.Sound (a : Answer) : Prop :=
  a.done = .Rok ∧ a.status &&& Aerr = 0#32 ∧ a.status &&& Adf = 0#32 ∧
    a.after &&& (Absy ||| Adrdy ||| Adf ||| Adrq ||| Aerr) = Adrdy ∧ checkbyte a = 0#8

def Answer.Dmalba (a : Answer) : Prop :=
  a.g16 49 &&& Fcapdma ≠ 0#16 ∧ a.g16 49 &&& Fcaplba ≠ 0#16

def Answer.Lba48 (a : Answer) : Prop := a.g16 86 &&& Feat1Addr48 ≠ 0#16

instance (a : Answer) : Decidable a.Sound := inferInstanceAs (Decidable (_ ∧ _))
instance (a : Answer) : Decidable a.Dmalba := inferInstanceAs (Decidable (_ ∧ _))
instance (a : Answer) : Decidable a.Lba48 := inferInstanceAs (Decidable (_ ≠ _))

section
variable {α β : Type} {x : SataM α} {f : α → SataM β} {s t : Sata}

private theorem bind_ok {v : α} (h : x s = .ok v t) : (x >>= f) s = f v t := by
  simp only [bind, EStateM.bind, h]

private theorem bind_error {e : String} (h : x s = .error e t) :
    (x >>= f) s = .error e t := by
  simp only [bind, EStateM.bind, h]

end

section
variable {c : Prop} [Decidable c] {β : Type} {f : Unit → SataM β} (msg : String) (s : Sata)

private theorem errorif_passes (h : ¬ c) : errorif c msg s = .ok () s := by
  rw [errorif, if_neg h]
  rfl

private theorem errorif_raises (h : c) : errorif c msg s = .error msg s := by
  rw [errorif, if_pos h]
  rfl

end

private theorem atacmd_ends (a : Answer) (s : Sata) :
    ((a.done = .Rok ∧ a.status &&& Aerr = 0#32 ∧ a.status &&& Adf = 0#32) ∧
      atacmd a s = .ok () s) ∨
    (¬ (a.done = .Rok ∧ a.status &&& Aerr = 0#32 ∧ a.status &&& Adf = 0#32) ∧
      ∃ e, atacmd a s = .error e s) := by
  unfold atacmd
  by_cases hdone : a.done = .Rok
  · rw [bind_ok (errorif_passes _ s (not_not.2 hdone))]
    by_cases herr : a.status &&& Aerr = 0#32
    · rw [bind_ok (errorif_passes _ s (not_not.2 herr))]
      by_cases hdf : a.status &&& Adf = 0#32
      · exact .inl ⟨⟨hdone, herr, hdf⟩, errorif_passes _ s (not_not.2 hdf)⟩
      · exact .inr ⟨fun h => hdf h.2.2, _, errorif_raises _ s hdf⟩
    · exact .inr ⟨fun h => herr h.2.1, _, bind_error (errorif_raises _ s herr)⟩
  · exact .inr ⟨fun h => hdone h.1, _, bind_error (errorif_raises _ s hdone)⟩

private theorem atacheck_iff (a : Answer) (statusmask status : BitVec 32) :
    atacheck a statusmask status < 0 ↔ a.after &&& statusmask ≠ status := by
  unfold atacheck
  split
  · rename_i h
    exact iff_of_true (by decide) h
  · rename_i h
    exact iff_of_false (by decide) h

/-- The end of a call. -/
theorem identify_ends (a : Answer) (s : Sata) :
    (¬ a.Sound ∧ ∃ e, identify a s = .error e s) ∨
      a.Sound ∧
        (¬ a.Dmalba ∧ (∃ e, identify a s = .error e { s with disk := s.disk.fill a }) ∨
          a.Dmalba ∧
            (¬ a.Lba48 ∧ (∃ e, identify a s = .error e { s with
                disk := s.disk.fill a
                pool := s.pool.identify (a.g16 75).toNat }) ∨
              a.Lba48 ∧ ∃ s', identify a s = .ok () s')) := by
  unfold identify
  rcases atacmd_ends a s with ⟨⟨hdone, herr, hdf⟩, hcmd⟩ | ⟨hnot, e, hcmd⟩
  · rw [bind_ok hcmd]
    by_cases hcheck : a.after &&& (Absy ||| Adrdy ||| Adf ||| Adrq ||| Aerr) = Adrdy
    · have hready : ¬ atacheck a (Absy ||| Adrdy ||| Adf ||| Adrq ||| Aerr) Adrdy < 0 := by
        rw [atacheck_iff]
        exact not_not.2 hcheck
      rw [bind_ok (errorif_passes _ s hready)]
      by_cases hsum : checkbyte a = 0#8
      · have hsound : a.Sound := ⟨hdone, herr, hdf, hcheck, hsum⟩
        refine .inr ⟨hsound, ?_⟩
        rw [bind_ok (errorif_passes _ s (not_not.2 hsum)), bind_ok (x := modify _) rfl]
        by_cases hdma : a.Dmalba
        · refine .inr ⟨hdma, ?_⟩
          have hcap : ¬ (a.g16 49 &&& Fcapdma = 0#16 ∨ a.g16 49 &&& Fcaplba = 0#16) :=
            fun h => h.elim hdma.1 hdma.2
          rw [bind_ok (errorif_passes _ _ hcap), bind_ok (x := modify _) rfl]
          by_cases hlba : a.Lba48
          · refine .inr ⟨hlba, ?_⟩
            rw [bind_ok (errorif_passes _ _ hlba)]
            exact ⟨_, rfl⟩
          · exact .inl ⟨hlba, _, bind_error (errorif_raises _ _ (not_not.1 hlba))⟩
        · have hcap : a.g16 49 &&& Fcapdma = 0#16 ∨ a.g16 49 &&& Fcaplba = 0#16 := by
            by_contra hcap
            exact hdma (not_or.1 hcap)
          exact .inl ⟨hdma, _, bind_error (errorif_raises _ _ hcap)⟩
      · exact .inl ⟨fun h => hsum h.2.2.2.2, _, bind_error (errorif_raises _ s hsum)⟩
    · have hfailed := (atacheck_iff a _ _).2 hcheck
      exact .inl ⟨fun h => hcheck h.2.2.2.1, _, bind_error (errorif_raises _ s hfailed)⟩
  · exact .inl ⟨fun h => hnot ⟨h.1, h.2.1, h.2.2.1⟩, e, bind_error hcmd⟩

/-! ## What a failed call leaves -/

/-- After an error the record, the number of tags and the tags are as they were, or the
disk is not valid. -/
def Kept (s : Sata) (r : EStateM.Result String Sata Unit) : Prop :=
  ∀ e s', r = .error e s' →
    (s'.disk = s.disk ∧ s'.pool.ntags = s.pool.ntags ∧ s'.pool.tags = s.pool.tags) ∨
      s'.disk.valid = false

/-- The answer names the disk that the record names. -/
def Answer.Same (a : Answer) (d : Disk) : Prop :=
  d.serial.take a (10 * 2) = d.serial ∧ d.firmware.take a (23 * 2) = d.firmware ∧
    d.model.take a (27 * 2) = d.model ∧ a.sectors = d.sectors

/-- It gives the number of tags that there are, and they are in order. -/
def Answer.SameTags (a : Answer) (p : TagPool) : Prop :=
  TagPool.ntagsof (a.g16 75).toNat = p.ntags ∧ ∀ i < p.ntags, p.tags i = i

theorem fill_eq_iff (d : Disk) (a : Answer) : d.fill a = d ↔ a.Same d := by
  cases d
  simp only [Disk.fill, Answer.Same, Disk.mk.injEq, true_and]

theorem identifytags_eq_iff (p : TagPool) (a : Answer) :
    ((p.identify (a.g16 75).toNat).ntags = p.ntags ∧
      (p.identify (a.g16 75).toNat).tags = p.tags) ↔ a.SameTags p := by
  unfold TagPool.identify Answer.SameTags
  constructor
  · rintro ⟨hntags, htags⟩
    refine ⟨hntags, fun i hi => ?_⟩
    have hslot := congrFun htags i
    simp only at hntags hslot
    rw [hntags, if_pos hi] at hslot
    exact hslot.symm
  · rintro ⟨hntags, htags⟩
    refine ⟨hntags, funext fun i => ?_⟩
    simp only
    rw [hntags]
    split
    · rename_i hi
      exact (htags i hi).symm
    · rfl

/-- A call that raises keeps the disk or leaves it not valid exactly when no valid disk was
there, or it raises before it changes anything, or the answer says what is there. -/
theorem identify_kept_iff (s : Sata) (a : Answer) :
    Kept s (identify a s) ↔
      (s.disk.valid = true → a.Sound →
        (¬ a.Dmalba → a.Same s.disk) ∧
          (a.Dmalba → ¬ a.Lba48 → a.Same s.disk ∧ a.SameTags s.pool)) := by
  have hvalid : (s.disk.fill a).valid = s.disk.valid := rfl
  rcases identify_ends a s with ⟨hunsound, e, he⟩ |
    ⟨hsound, ⟨hdma, e, he⟩ | ⟨hdma, ⟨hlba, e, he⟩ | ⟨hlba, s', hs'⟩⟩⟩
  · rw [he]
    refine iff_of_true ?_ fun _ hsound => absurd hsound hunsound
    rintro e s' ⟨⟩
    exact .inl ⟨rfl, rfl, rfl⟩
  · rw [he]
    constructor
    · intro hkept hv _
      refine ⟨fun _ => ?_, fun hdma' => absurd hdma' hdma⟩
      rcases hkept e _ rfl with ⟨hdisk, -, -⟩ | hinvalid
      · exact (fill_eq_iff s.disk a).1 hdisk
      · rw [hvalid, hv] at hinvalid
        cases hinvalid
    · rintro hcond e s' ⟨⟩
      cases hv : s.disk.valid
      · exact .inr hv
      · exact .inl ⟨(fill_eq_iff s.disk a).2 ((hcond hv hsound).1 hdma), rfl, rfl⟩
  · rw [he]
    constructor
    · intro hkept hv _
      refine ⟨fun hdma' => absurd hdma hdma', fun _ _ => ?_⟩
      rcases hkept e _ rfl with ⟨hdisk, htags⟩ | hinvalid
      · exact ⟨(fill_eq_iff s.disk a).1 hdisk, (identifytags_eq_iff s.pool a).1 htags⟩
      · rw [hvalid, hv] at hinvalid
        cases hinvalid
    · rintro hcond e s' ⟨⟩
      cases hv : s.disk.valid
      · exact .inr hv
      · obtain ⟨hsame, htags⟩ := (hcond hv hsound).2 hdma hlba
        exact .inl ⟨(fill_eq_iff s.disk a).2 hsame, (identifytags_eq_iff s.pool a).2 htags⟩
  · rw [hs']
    refine iff_of_true (fun e s'' h => (nomatch h)) fun _ _ => ?_
    exact ⟨fun hnot => absurd hdma hnot, fun _ hnot => absurd hlba hnot⟩

/-- A valid disk of one sector. -/
def onesector : Sata where
  disk :=
    { valid := true
      serial := ⟨List.replicate 21 0#8, rfl, rfl⟩
      firmware := ⟨List.replicate 9 0#8, rfl, rfl⟩
      model := ⟨List.replicate 41 0#8, rfl, rfl⟩
      sectors := 1#64 }
  pool := { tags := id, tagnext := 0, tagsinuse := 0, ntags := 32 }
  length := 512#64

/-- An answer of zeros. -/
def zeros : Answer where
  done := .Rok
  status := Adrdy
  buf _ := 0#8
  after := Adrdy

/-- The answer of zeros is refused, but the valid disk has no sectors then. -/
theorem refused_changes_disk : ¬ ∀ (s : Sata) (a : Answer), Kept s (identify a s) := by
  intro hall
  have hkept := hall onesector zeros
  have hsound : zeros.Sound := by decide +kernel
  have hdma : ¬ zeros.Dmalba := by decide
  rcases identify_ends zeros onesector with ⟨hunsound, -⟩ | ⟨-, ⟨-, e, he⟩ | ⟨hdma', -⟩⟩
  · exact hunsound hsound
  · rw [he] at hkept
    rcases hkept e _ rfl with ⟨hdisk, -⟩ | hinvalid
    · have hsectors : zeros.sectors = 1#64 := congrArg Disk.sectors hdisk
      exact absurd hsectors (by decide)
    · cases hinvalid
  · exact hdma hdma'

end Kirkwood.Ports.SataIdentify
