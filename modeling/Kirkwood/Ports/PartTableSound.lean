import Mathlib.Data.Int.ConditionallyCompleteOrder
import Mathlib.Order.ConditionallyCompleteLattice.Basic
import Kirkwood.Ports.PartTable

/-!
# What the checks of the partition scanner guarantee

`partcheck` is there to keep the table sound: every part inside the disk, or
inside the part that holds its table, and no two parts sharing a byte.

## Main results

* `partinit_mbr_sound_iff`: the parts of the MBR are sound unless an entry lies
  strictly inside an earlier one, which the end-point test does not see.
* `partinit_lines_sound_iff`: the parts of the tables inside Plan 9 parts are
  sound only when there are none: `partinit` adds `parts[i].e`, not
  `parts[i].s`, to the end of each.
-/

namespace Kirkwood.Ports.PartTable

open Kirkwood.Verified.CInt
open Kirkwood.Verified.ByteMem
open Kirkwood.Verified.Outcome
open Kirkwood.Verified
open Kirkwood.Ports.BlockStore

/-! ## The MBR -/

/-- The parts of `tbl` that were created from entries of the MBR in `p`. -/
def mbrParts (p : Bytes) (tbl : List Part) : List Part :=
  (tbl.drop 1).take (mbrUsed p).length

/-- A part lies inside a disk of `size` bytes, and its end is its start plus its
size. -/
structure Inside (lo hi : Int) (q : Part) : Prop where
  start : lo ≤ q.s
  order : q.s ≤ q.e
  stop : q.e ≤ hi
  size : q.e = q.s + q.size

/-- Every MBR part lies inside the disk, and no two nonempty ones share a
byte. -/
structure MbrSound (size : Int) (p : Bytes) (tbl : List Part) : Prop where
  inside : ∀ q ∈ mbrParts p tbl, Inside 0 size q
  disjoint : Interval.AllDisjoint Part.s Part.e (mbrParts p tbl)

theorem Scan.mbrParts_eq {env : Env} {data : Part} {size : Int} {p : Bytes}
    {mbr subs tbl : List Part} (h : Scan env data size p mbr subs tbl) :
    mbrParts p tbl = mbr := by
  rw [mbrParts, h.table, ← h.entries.length]
  simp

theorem MbrTable.inside_disk {p : Bytes} {size : Int} {used : List Nat}
    {mbr : List Part} (h : MbrTable p size used mbr) {q : Part}
    (hq : q ∈ mbr) : Inside 0 size q := by
  obtain ⟨i, -, hrow⟩ := h.ranges hq
  simp only [row, mbrRow, Prod.mk.injEq] at hrow
  obtain ⟨-, hs, he, hsz⟩ := hrow
  have hstart := (mbrStart_range p i).1
  have hsize := (mbrSize_range p i).1
  exact
    { start := by omega
      order := by unfold mbrEnd at he; omega
      stop := h.inside q hq
      size := by unfold mbrEnd at he; omega }

/-- Nesting is read off the rows. -/
theorem MbrTable.noneNested_iff {p : Bytes} {size : Int} {used : List Nat}
    {mbr : List Part} (h : MbrTable p size used mbr) :
    Interval.NoneNested Part.s Part.e mbr ↔
      Interval.NoneNested (mbrStart p) (mbrEnd p) used :=
  h.pairwise_iff fun a b => ¬(a.2.1 < b.2.1 ∧ b.2.1 < b.2.2.1 ∧
    b.2.2.1 < a.2.2.1)

/-- **MBR parts.**  In the table of a scan that returned, the parts of the MBR
are inside the disk and disjoint exactly when no nonempty entry lies strictly
inside an earlier one. -/
theorem partinit_mbr_sound_iff {env : Env} {data : Part} {size : Int}
    {p : Bytes} {tbl : List Part} (hread : env.read 0 = .ok p)
    (h : partinit env data size = .ok tbl) :
    MbrSound size p tbl ↔
      Interval.NoneNested (mbrStart p) (mbrEnd p) (mbrUsed p) := by
  obtain ⟨p', mbr, subs, hscan⟩ := partinit_eq_ok h
  obtain rfl : p = p' := Except.ok.inj (hread.symm.trans hscan.sector.1)
  have hmbr := hscan.mbrParts_eq
  rw [← hscan.entries.noneNested_iff,
    ← Interval.pairwise_disjoint_iff _ _ hscan.entries.admitted, ← hmbr]
  constructor
  · exact fun hsound => hsound.disjoint
  · intro hdisj
    exact ⟨fun q hq => hscan.entries.inside_disk (hmbr ▸ hq), hdisj⟩

/-! ### Disks to try -/

/-- A word as the MBR stores it. -/
def word (n : Nat) : Bytes :=
  [n.toUInt8, (n >>> 8).toUInt8, (n >>> 16).toUInt8, (n >>> 24).toUInt8]

/-- A signed MBR with these types, starts and lengths in sectors. -/
def mbrSector (entries : List (Nat × Nat × Nat)) : Bytes :=
  let used := entries.flatMap fun t =>
    [0, 0, 0, 0, t.1.toUInt8, 0, 0, 0] ++ word t.2.1 ++ word t.2.2
  List.replicate 446 0 ++ used ++ List.replicate (64 - used.length) 0 ++
    [0x55, 0xaa]

/-- A sector that holds text. -/
def textSector (text : String) : Bytes :=
  ascii text ++ List.replicate (512 - text.length) 0

/-- `tokenize` on text without quotes. -/
def blankFields (line : Bytes) : List Bytes :=
  ((line.splitOnP fun c => c = 32 || c = 9).filter fun f => f ≠ []).take 4

/-- `strtoull` on decimal digits. -/
def decimal (text : Bytes) : Int :=
  text.foldl (fun v c => v * 10 + (c.toNat - 48)) 0

/-- `seprint` on text of one-byte characters. -/
def sampleSeprint : Seprint where
  print n t := (t.map fun b => if printable b then b else 63).take (n - 1)
  Text := Printable
  text_printable _ h := h
  text_append t s ht hs := by
    unfold Printable
    rw [List.all_append, ht, hs]
    rfl
  text_init t s _ h := by
    unfold Printable at h
    rw [List.all_append, Bool.and_eq_true] at h
    exact h.1
  room n t hn := by
    have := List.length_take_le (n - 1) (t.map fun b => if printable b then b else 63)
    omega
  text n t := by
    refine List.all_eq_true.2 fun b hb => ?_
    obtain ⟨c, -, rfl⟩ := List.mem_map.1 (List.mem_of_mem_take hb)
    split
    · assumption
    · rfl
  whole n t ht hlen := by
    have hmap : (t.map fun b => if printable b then b else 63) = t :=
      (List.map_congr_left fun b hb => if_pos (List.all_eq_true.1 ht b hb)).trans
        (List.map_id t)
    rw [hmap, List.take_of_length_le (by omega)]

/-- A disk with this MBR and the same sector everywhere else. -/
def sampleEnv (mbr table : Bytes) : Env :=
  { read := fun off => .ok (if off = 0 then mbr else table)
    tokenize := blankFields
    strtoull := decimal
    seprint := sampleSeprint
    alloc := fun _ => true
    fresh := fun _ => 0
    eve := ascii "inferno"
    fuel := 8 }

/-- The part that the first used entry of a sample disk becomes. -/
def samplePart (index typ : Nat) (name : String) (s e size : Int) : Part :=
  { index := index
    typ := typ
    name := ascii name
    s := s * 512
    e := e * 512
    size := size * 512
    uid := ascii "inferno"
    perm := 0o660
    isopen := 0 }

def sampleData : Part := partdata (ascii "inferno") (4096 * 512)

/-- Two adjacent entries, the later one first, are accepted and sound. -/
theorem partinit_adjacent_mbr :
    ∃ tbl, partinit (sampleEnv (mbrSector [(0x83, 100, 50), (0x0c, 1, 99)]) [])
        sampleData (4096 * 512) = .ok tbl ∧
      MbrSound (4096 * 512) (mbrSector [(0x83, 100, 50), (0x0c, 1, 99)]) tbl := by
  have hrun : partinit
      (sampleEnv (mbrSector [(0x83, 100, 50), (0x0c, 1, 99)]) [])
      sampleData (4096 * 512) = .ok [sampleData,
        samplePart 1 0x83 "p0" 100 150 50, samplePart 2 0x0c "9fat" 1 100 99] := by
    decide +kernel
  exact ⟨_, hrun, (partinit_mbr_sound_iff rfl hrun).mpr
    (by unfold Interval.NoneNested; decide +kernel)⟩

/-- An entry inside an earlier one is accepted: the scan returns a table whose
second part lies inside the first. -/
theorem partinit_nested_mbr :
    ∃ tbl, partinit (sampleEnv (mbrSector [(0x83, 1, 100), (0x83, 10, 10)]) [])
        sampleData (4096 * 512) = .ok tbl ∧
      mbrParts (mbrSector [(0x83, 1, 100), (0x83, 10, 10)]) tbl =
        [samplePart 1 0x83 "p0" 1 101 100, samplePart 2 0x83 "p1" 10 20 10] ∧
      ¬MbrSound (4096 * 512) (mbrSector [(0x83, 1, 100), (0x83, 10, 10)])
        tbl := by
  have hrun : partinit
      (sampleEnv (mbrSector [(0x83, 1, 100), (0x83, 10, 10)]) [])
      sampleData (4096 * 512) = .ok [sampleData,
        samplePart 1 0x83 "p0" 1 101 100, samplePart 2 0x83 "p1" 10 20 10] := by
    decide +kernel
  have hparts : mbrParts (mbrSector [(0x83, 1, 100), (0x83, 10, 10)])
      [sampleData, samplePart 1 0x83 "p0" 1 101 100,
        samplePart 2 0x83 "p1" 10 20 10] =
      [samplePart 1 0x83 "p0" 1 101 100, samplePart 2 0x83 "p1" 10 20 10] := by
    decide +kernel
  refine ⟨_, hrun, hparts, ?_⟩
  rintro ⟨-, hdisj⟩
  rw [hparts] at hdisj
  have hd := List.rel_of_pairwise_cons hdisj (List.mem_singleton_self _)
    (by decide) (by decide)
  -- Both hold the first byte of the second part.
  have hbyte : (10 * 512 : Int) ∈ Set.Ico
      (samplePart 1 0x83 "p0" 1 101 100).s (samplePart 1 0x83 "p0" 1 101 100).e :=
    ⟨by decide, by decide⟩
  exact Set.disjoint_left.mp hd hbyte ⟨by decide, by decide⟩

/-! ## The tables inside Plan 9 parts -/

/-- The entries that the parts after the MBR belong to: each as often as its
table has lines. -/
def owners (env : Env) (p : Bytes) : List Nat :=
  (mbrUsed p).flatMap fun i => List.replicate (entryTable env p i).length i

/-- The parts of `tbl` that were created from table lines, each with the entry
that holds its table. -/
def lineParts (env : Env) (p : Bytes) (tbl : List Part) : List (Nat × Part) :=
  (owners env p).zip (tbl.drop (1 + (mbrUsed p).length))

/-- Every line's part lies inside the part that holds the table, and no two
nonempty ones of one table share a byte. -/
structure LinesSound (env : Env) (p : Bytes) (tbl : List Part) : Prop where
  inside : ∀ iq ∈ lineParts env p tbl,
    Inside (mbrStart p iq.1) (mbrEnd p iq.1) iq.2
  disjoint : (lineParts env p tbl).Pairwise fun iq jr =>
    iq.1 = jr.1 → iq.2.s < iq.2.e → jr.2.s < jr.2.e →
      Disjoint (Set.Ico iq.2.s iq.2.e) (Set.Ico jr.2.s jr.2.e)

theorem owners_length (env : Env) (p : Bytes) :
    (owners env p).length =
      ((mbrUsed p).map fun i => (entryTable env p i).length).sum := by
  simp [owners, List.length_flatMap]

theorem Scan.drop_eq {env : Env} {data : Part} {size : Int} {p : Bytes}
    {mbr subs tbl : List Part} (h : Scan env data size p mbr subs tbl) :
    tbl.drop (1 + (mbrUsed p).length) = subs := by
  rw [h.table, ← h.entries.length, Nat.add_comm]
  simp

theorem owners_eq_nil_iff {env : Env} {p : Bytes} :
    owners env p = [] ↔ ∀ i ∈ mbrUsed p, entryTable env p i = [] := by
  simp [owners, List.flatMap_eq_nil_iff, List.replicate_eq_nil_iff]

/-- **Table lines.**  In the table of a scan that returned, each line of the
tables inside Plan 9 parts has become one part; these parts are inside the
parts that hold their tables, and disjoint, exactly when there are none. -/
theorem partinit_lines_sound_iff {env : Env} {data : Part} {size : Int}
    {p : Bytes} {tbl : List Part} (hread : env.read 0 = .ok p)
    (h : partinit env data size = .ok tbl) :
    (tbl.drop (1 + (mbrUsed p).length)).length = (owners env p).length ∧
      (LinesSound env p tbl ↔ ∀ i ∈ mbrUsed p, entryTable env p i = []) := by
  obtain ⟨p', mbr, subs, hscan⟩ := partinit_eq_ok h
  obtain rfl : p = p' := Except.ok.inj (hread.symm.trans hscan.sector.1)
  have hlen : subs.length = (owners env p).length := by
    rw [hscan.lines, owners_length]
  rw [hscan.drop_eq, ← owners_eq_nil_iff]
  refine ⟨hlen, ?_, ?_⟩
  · intro hsound
    by_contra hsome
    have hpos := List.length_pos_of_ne_nil hsome
    have hmem : ((owners env p)[0], subs[0]) ∈ lineParts env p tbl := by
      rw [lineParts, hscan.drop_eq, List.mem_iff_getElem]
      exact ⟨0, by rw [List.length_zip]; omega, List.getElem_zip⟩
    exact hscan.torn _ (List.getElem_mem _) (hsound.inside _ hmem).size
  · intro hnone
    have hempty : lineParts env p tbl = [] := by
      rw [lineParts, hnone, List.zip_nil_left]
    exact ⟨by simp [hempty], by simp [hempty]⟩

/-- A Plan 9 part without a table is accepted and sound. -/
theorem partinit_no_lines :
    ∃ tbl, partinit (sampleEnv (mbrSector [(0x39, 1, 100)]) (textSector ""))
        sampleData (4096 * 512) = .ok tbl ∧
      LinesSound (sampleEnv (mbrSector [(0x39, 1, 100)]) (textSector ""))
        (mbrSector [(0x39, 1, 100)]) tbl := by
  have hrun : partinit
      (sampleEnv (mbrSector [(0x39, 1, 100)]) (textSector ""))
      sampleData (4096 * 512) = .ok [sampleData,
        samplePart 1 0x39 "plan9" 1 101 100] := by
    decide +kernel
  exact ⟨_, hrun, (partinit_lines_sound_iff rfl hrun).2.mpr
    (by decide +kernel)⟩

/-- One line is enough: the part it makes of sectors 2 to 10 of the enclosing
part, which has 100, ends past that part's end and is longer than its size. -/
theorem partinit_one_line :
    ∃ tbl, partinit (sampleEnv (mbrSector [(0x39, 1, 100)])
          (textSector "part fs 2 10\n")) sampleData (4096 * 512) = .ok tbl ∧
      lineParts (sampleEnv (mbrSector [(0x39, 1, 100)])
          (textSector "part fs 2 10\n")) (mbrSector [(0x39, 1, 100)]) tbl =
        [(0, samplePart 2 0 "fs" 3 111 8)] ∧
      mbrEnd (mbrSector [(0x39, 1, 100)]) 0 = 101 * 512 ∧
      ¬LinesSound (sampleEnv (mbrSector [(0x39, 1, 100)])
        (textSector "part fs 2 10\n")) (mbrSector [(0x39, 1, 100)]) tbl := by
  have hrun : partinit (sampleEnv (mbrSector [(0x39, 1, 100)])
      (textSector "part fs 2 10\n")) sampleData (4096 * 512) =
      .ok [sampleData, samplePart 1 0x39 "plan9" 1 101 100,
        samplePart 2 0 "fs" 3 111 8] := by
    decide +kernel
  have hparts : lineParts (sampleEnv (mbrSector [(0x39, 1, 100)])
      (textSector "part fs 2 10\n")) (mbrSector [(0x39, 1, 100)])
      [sampleData, samplePart 1 0x39 "plan9" 1 101 100,
        samplePart 2 0 "fs" 3 111 8] = [(0, samplePart 2 0 "fs" 3 111 8)] := by
    decide +kernel
  refine ⟨_, hrun, hparts, by decide +kernel, ?_⟩
  rintro ⟨hinside, -⟩
  rw [hparts] at hinside
  exact absurd (hinside _ (List.mem_singleton_self _)).size (by decide)

end Kirkwood.Ports.PartTable
