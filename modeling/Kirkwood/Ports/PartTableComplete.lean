import Kirkwood.Ports.PartTableNames
import Kirkwood.Ports.PartTableSound

/-!
# Which valid disks the partition scanner accepts

`expectedTable` is the table that a disk describes, read off its MBR and its
Plan 9 tables without running the scanner; `ValidLayout` says that the disk
describes one.

## Main results

* `partinit_complete_iff`: on a valid disk the scan returns the expected table
  exactly when no Plan 9 table has a line and the empty entries of the MBR are
  out of the way of the end-point test.
-/

namespace Kirkwood.Ports.PartTable

open Kirkwood.Verified.CInt
open Kirkwood.Verified.ByteMem
open Kirkwood.Verified.Outcome
open Kirkwood.Verified
open Kirkwood.Ports.BlockStore

/-! ## The table that a disk describes -/

/-- A line `part name start end`: the name, and the offsets in sectors. -/
structure Line where
  name : Bytes
  start : Int
  stop : Int

def parseLine (env : Env) (line : Bytes) : Option Line :=
  match env.tokenize line with
  | [f0, f1, f2, f3] =>
      if f0 = ascii "part" then
        some ⟨f1, env.strtoull f2, env.strtoull f3⟩
      else none
  | _ => none

/-- The lines of the table inside entry `i`. -/
def entryLines (env : Env) (p : Bytes) (i : Nat) : List Line :=
  (entryTable env p i).filterMap (parseLine env)

/-- What a line inside entry `i` describes, as part `n` of the table. -/
def describedPart (env : Env) (p : Bytes) (n i : Nat) (l : Line) : Part :=
  { index := n % 256
    typ := env.fresh n
    name := l.name
    s := mbrStart p i + l.start * 512
    e := mbrStart p i + l.stop * 512
    size := (l.stop - l.start) * 512
    uid := env.eve
    perm := 0o660
    isopen := 0 }

def expectedMbr (env : Env) (p : Bytes) (used : List Nat) : List Part :=
  used.mapIdx fun n i => mbrPart env p (n + 1) (mbrName p i) i

/-- The lines of all tables, each with its entry, in the order of the
entries. -/
def allLines (env : Env) (p : Bytes) : List (Nat × Line) :=
  (mbrUsed p).flatMap fun i => (entryLines env p i).map fun l => (i, l)

def expectedLines (env : Env) (p : Bytes) : List Part :=
  (allLines env p).mapIdx fun n il =>
    describedPart env p (1 + (mbrUsed p).length + n) il.1 il.2

/-- `data`, the used entries of the MBR, and the parts that the lines
describe. -/
def expectedTable (env : Env) (size : Int) (p : Bytes) : List Part :=
  partdata env.eve size :: expectedMbr env p (mbrUsed p) ++ expectedLines env p

/-- A disk of `size` bytes with a valid MBR `p` and valid Plan 9 tables. -/
structure ValidLayout (env : Env) (size : Int) (p : Bytes) : Prop where
  read : env.read 0 = .ok p
  length : p.length = 512
  signed : byte p 510 = 0x55 ∧ byte p 511 = 0xaa
  inRange : ∀ i ∈ mbrUsed p, 0 < mbrSize p i → mbrEnd p i ≤ size
  disjoint : Interval.AllDisjoint (mbrStart p) (mbrEnd p) (mbrUsed p)
  tables : ∀ i ∈ mbrUsed p, mbrTyp p i = 0x39 → 2 * 512 ≤ mbrSize p i →
    ∃ b, env.read (mbrStart p i + 512) = .ok b ∧ b.length = 512
  wellFormed : ∀ i ∈ mbrUsed p, ∀ line ∈ entryTable env p i,
    ∃ l, parseLine env line = some l ∧ l.name.length ≤ 31 ∧
      0 ≤ l.start ∧ l.start < l.stop ∧ l.stop * 512 ≤ mbrSize p i
  linesDisjoint : ∀ i ∈ mbrUsed p,
    Interval.AllDisjoint Line.start Line.stop (entryLines env p i)
  names : ((expectedTable env size p).map Part.name).Nodup

/-- The empty entries lie inside the disk, and none lies where a later nonempty
entry begins, ends or passes. -/
structure EmptiesFit (size : Int) (p : Bytes) : Prop where
  inside : ∀ i ∈ mbrUsed p, mbrSize p i = 0 → mbrStart p i ≤ size
  apart : (mbrUsed p).Pairwise fun i j => mbrSize p i = 0 → 0 < mbrSize p j →
    ¬(mbrStart p j ≤ mbrStart p i ∧ mbrStart p i ≤ mbrEnd p j)

/-! ## The MBR -/

/-- The checks pass on every used entry. -/
structure MbrPasses (size : Int) (p : Bytes) : Prop where
  inside : ∀ i ∈ mbrUsed p, mbrEnd p i ≤ size
  admitted : Interval.Admitted (mbrStart p) (mbrEnd p) (mbrUsed p)

theorem mbrEnd_of_empty {p : Bytes} {i : Nat} (h : mbrSize p i = 0) :
    mbrEnd p i = mbrStart p i := by
  rw [mbrEnd, h, Int.add_zero]

theorem mbrStart_lt_end {p : Bytes} {i : Nat} (h : 0 < mbrSize p i) :
    mbrStart p i < mbrEnd p i := by
  unfold mbrEnd
  omega

/-- On a valid disk the checks pass exactly when the empty entries fit. -/
theorem mbrPasses_iff {size : Int} {p : Bytes}
    (hrange : ∀ i ∈ mbrUsed p, 0 < mbrSize p i → mbrEnd p i ≤ size)
    (hdisj : Interval.AllDisjoint (mbrStart p) (mbrEnd p) (mbrUsed p)) :
    MbrPasses size p ↔ EmptiesFit size p := by
  constructor
  · intro h
    exact
      { inside := fun i hi hzero => mbrEnd_of_empty hzero ▸ h.inside i hi
        apart := by
          refine h.admitted.imp ?_
          intro i j htest hzero hpos hat
          rw [mbrEnd_of_empty hzero] at htest
          exact htest ((Interval.endsIn_of_empty (mbrStart_lt_end hpos) _).mpr
            hat) }
  · intro h
    exact
      { inside := by
          intro i hi
          rcases Int.lt_or_eq_of_le (mbrSize_range p i).1 with hpos | hzero
          · exact hrange i hi hpos
          · rw [mbrEnd_of_empty hzero.symm]
            exact h.inside i hi hzero.symm
        admitted := by
          refine (hdisj.and h.apart).imp ?_
          rintro i j ⟨hd, hapart⟩
          rcases Int.lt_or_eq_of_le (mbrSize_range p j).1 with hnew | hnew
          · have hj := mbrStart_lt_end hnew
            rcases Int.lt_or_eq_of_le (mbrSize_range p i).1 with hold | hold
            · have hi := mbrStart_lt_end hold
              exact (Interval.not_endsIn_iff hj hi).mpr (Or.inl (hd hi hj))
            · rw [mbrEnd_of_empty hold.symm, Interval.endsIn_of_empty hj]
              exact hapart hold.symm hnew
          · rw [mbrEnd_of_empty hnew.symm]
            exact Interval.not_endsIn_empty _ _ _ }

/-- A table that came out of the first pass shows that the checks passed. -/
theorem MbrTable.passes {p : Bytes} {size : Int} {mbr : List Part}
    (h : MbrTable p size (mbrUsed p) mbr) : MbrPasses size p :=
  { inside := by
      intro i hi
      have hrow : mbrRow p i ∈ mbr.map row := by
        rw [h.rows]
        exact List.mem_map_of_mem hi
      obtain ⟨q, hq, heq⟩ := List.mem_map.mp hrow
      have hend : q.e = mbrEnd p i := congrArg (fun r => r.2.2.1) heq
      exact hend ▸ h.inside q hq
    admitted :=
      (h.pairwise_iff fun a b => ¬Interval.EndsIn b.2.1 b.2.2.1 a.2.1
        a.2.2.1).mp h.admitted }

/-- The names of the expected entries are those the scan has given before. -/
theorem expectedMbr_names (env : Env) (size : Int) (p : Bytes) (i : Nat) :
    (partdata env.eve size :: expectedMbr env p
      ((List.range i).filter fun j => mbrTyp p j ≠ 0)).map Part.name =
      namesBefore p i := by
  have hnames (used : List Nat) :
      (expectedMbr env p used).map Part.name = used.map (mbrName p) := by
    apply List.ext_getElem
    · simp [expectedMbr]
    · intro n h1 h2
      simp [expectedMbr, mbrPart]
  rw [List.map_cons, hnames, namesBefore]
  rfl

theorem expectedMbr_snoc (env : Env) (p : Bytes) (used : List Nat) (i : Nat) :
    expectedMbr env p (used ++ [i]) = expectedMbr env p used ++
      [mbrPart env p (used.length + 1) (mbrName p i) i] := by
  simp [expectedMbr, List.mapIdx_append]

/-- The ranges of the expected entries. -/
theorem mem_expectedMbr {env : Env} {p : Bytes} {used : List Nat} {q : Part}
    (hq : q ∈ expectedMbr env p used) :
    ∃ i ∈ used, q.s = mbrStart p i ∧ q.e = mbrEnd p i := by
  obtain ⟨n, hn, rfl⟩ := List.mem_mapIdx.mp hq
  exact ⟨_, List.getElem_mem hn, rfl, rfl⟩

/-- Where a scan of a range stands. -/
theorem range_split {n i : Nat} {done rest : List Nat}
    (h : done ++ i :: rest = List.range n) : i < n ∧ done = List.range i := by
  have hi : i = done.length := by
    have hget := congrArg (fun l => l[done.length]?) h
    simp only [List.getElem?_append_right (Nat.le_refl _), Nat.sub_self,
      List.getElem?_cons_zero] at hget
    obtain ⟨_, hval⟩ := List.getElem?_eq_some_iff.mp hget.symm
    rw [List.getElem_range] at hval
    exact hval.symm
  have hlen := congrArg List.length h
  rw [List.length_append, List.length_cons, List.length_range] at hlen
  refine ⟨by omega, ?_⟩
  have htake := congrArg (List.take done.length) h
  rw [List.take_left, List.take_range, Nat.min_eq_left (by omega)] at htake
  rw [htake, hi]

/-- One entry, over the parts of the entries before it. -/
theorem addMbr_expected {env : Env} {size : Int} {p : Bytes}
    (hroom : ∀ n, env.alloc n = true) (hfuel : 4 ≤ env.fuel)
    (hpass : MbrPasses size p) {done rest : List Nat} {i : Nat}
    (hall : done ++ i :: rest = List.range 4) :
    addMbr env size p (partdata env.eve size :: expectedMbr env p
        (done.filter fun j => mbrTyp p j ≠ 0)) i =
      .ok (partdata env.eve size :: expectedMbr env p
        ((done ++ [i]).filter fun j => mbrTyp p j ≠ 0)) := by
  obtain ⟨hi, rfl⟩ := range_split hall
  rw [List.filter_append]
  refine addMbr_eq_ok.mpr ⟨hroom _, ?_⟩
  by_cases hzero : mbrTyp p i = 0
  · have hskip : [i].filter (fun j => mbrTyp p j ≠ 0) = [] := by simp [hzero]
    rw [hskip, List.append_nil]
    exact Or.inl ⟨hzero, rfl⟩
  · have htake : [i].filter (fun j => mbrTyp p j ≠ 0) = [i] := by simp [hzero]
    have hsplit : mbrUsed p = (List.range i).filter (fun j => mbrTyp p j ≠ 0) ++
        i :: rest.filter fun j => mbrTyp p j ≠ 0 := by
      rw [mbrUsed, ← hall, List.filter_append, List.filter_cons_of_pos]
      simpa using hzero
    have hused : i ∈ mbrUsed p := by
      rw [hsplit]
      exact List.mem_append_right _ List.mem_cons_self
    rw [htake, expectedMbr_snoc]
    refine Or.inr ⟨hzero, _, partname_eq _ hi hfuel (expectedMbr_names _ _ _ _),
      ?_, by simp [expectedMbr]⟩
    refine partcheck_eq_ok.mpr ⟨hpass.inside i hused, ?_, ?_⟩
    · have := (mbrSize_range p i).1
      unfold mbrEnd
      omega
    · intro q hq
      obtain ⟨j, hj, hs, he⟩ := mem_expectedMbr hq
      have hadmitted := hpass.admitted
      rw [hsplit] at hadmitted
      rw [hs, he]
      exact (List.pairwise_append.mp hadmitted).2.2 j hj i List.mem_cons_self

/-- The first pass builds the expected entries. -/
theorem mbr_expected {env : Env} {size : Int} {p : Bytes}
    (hroom : ∀ n, env.alloc n = true) (hfuel : 4 ≤ env.fuel)
    (hpass : MbrPasses size p) :
    (List.range 4).foldlM (addMbr env size p) [partdata env.eve size] =
      .ok (partdata env.eve size :: expectedMbr env p (mbrUsed p)) := by
  obtain ⟨parts, hrun, hparts⟩ := foldlM_total
    (f := addMbr env size p)
    (motive := fun done parts => parts = partdata env.eve size ::
      expectedMbr env p (done.filter fun j => mbrTyp p j ≠ 0))
    (List.range 4) (b := [partdata env.eve size])
    (by
      rintro done i rest parts hall rfl
      exact ⟨_, addMbr_expected hroom hfuel hpass hall, rfl⟩)
    rfl
  rw [hrun, hparts]
  rfl

/-! ## The tables -/

/-- A part whose table can be read and has no lines. -/
theorem addTable_idle {env : Env} {parts : List Part} {i : Nat} (pp : Part)
    (hi : parts[i]? = some pp)
    (hread : pp.typ = 0x39 → 2 * 512 ≤ pp.size →
      ∃ b, env.read (vlong (pp.s + 512)) = .ok b ∧ b.length = 512)
    (hnone : partTable env pp = []) : addTable env parts i = .ok parts := by
  simp only [addTable, hi]
  split
  · rfl
  · rename_i hscan
    obtain ⟨b, hb, hlen⟩ := hread (by omega) (by omega)
    simp only [partTable, tableOf, if_neg hscan, hb] at hnone
    rw [readSector_eq_ok.mpr ⟨hb, hlen⟩, ok_bind, hnone]
    rfl

/-- Without lines the second pass leaves the table alone. -/
theorem tables_expected {env : Env} {size : Int} {p : Bytes}
    (hvalid : ValidLayout env size p)
    (hnone : ∀ i ∈ mbrUsed p, entryTable env p i = []) :
    (List.range' 1 (mbrUsed p).length).foldlM (addTable env)
        (partdata env.eve size :: expectedMbr env p (mbrUsed p)) =
      .ok (partdata env.eve size :: expectedMbr env p (mbrUsed p)) := by
  obtain ⟨parts, hrun, hparts⟩ := foldlM_total
    (f := addTable env)
    (motive := fun _ parts => parts = partdata env.eve size ::
      expectedMbr env p (mbrUsed p))
    (List.range' 1 (mbrUsed p).length)
    (b := partdata env.eve size :: expectedMbr env p (mbrUsed p))
    (by
      rintro done k rest parts hall rfl
      have hk : k ∈ List.range' 1 (mbrUsed p).length :=
        hall ▸ List.mem_append_right _ List.mem_cons_self
      obtain ⟨n, hn, rfl⟩ := List.mem_range'.mp hk
      refine ⟨_, addTable_idle (mbrPart env p (n + 1)
        (mbrName p (mbrUsed p)[n]) (mbrUsed p)[n]) ?_ ?_ ?_, rfl⟩
      · rw [Nat.one_mul, Nat.add_comm, List.getElem?_cons_succ, expectedMbr,
          List.getElem?_mapIdx, List.getElem?_eq_getElem hn]
        rfl
      · intro htyp hsize
        have hstart := mbrStart_range p (mbrUsed p)[n]
        rw [show vlong ((mbrPart env p (n + 1) (mbrName p (mbrUsed p)[n])
            (mbrUsed p)[n]).s + 512) = mbrStart p (mbrUsed p)[n] + 512 from
          vlong_eq (by simp only [mbrPart]; omega)
            (by simp only [mbrPart]; omega)]
        exact hvalid.tables _ (List.getElem_mem hn) htyp hsize
      · exact hnone _ (List.getElem_mem hn))
    rfl
  rw [hrun, hparts]

/-- A described part ends where it starts plus its size. -/
theorem not_torn_described (env : Env) (p : Bytes) (n i : Nat) (l : Line) :
    ¬Torn (describedPart env p n i l) := by
  simp only [Torn, describedPart, ne_eq, not_not]
  omega

/-! ## The scan -/

/-- On a valid disk the scan returns the expected table when no table has a line
and the empty entries fit. -/
theorem partinit_expected {env : Env} {size : Int} {p : Bytes}
    (hroom : ∀ n, env.alloc n = true) (hfuel : 4 ≤ env.fuel)
    (hvalid : ValidLayout env size p) (hpass : MbrPasses size p)
    (hnone : ∀ i ∈ mbrUsed p, entryTable env p i = []) :
    partinit env (partdata env.eve size) size =
      .ok (expectedTable env size p) := by
  have hlines : expectedLines env p = [] := by
    have hentry : ∀ i ∈ mbrUsed p, entryLines env p i = [] := by
      intro i hi
      rw [entryLines, hnone i hi, List.filterMap_nil]
    have hall : allLines env p = [] := by
      rw [allLines, List.flatMap_eq_nil_iff]
      intro i hi
      rw [hentry i hi, List.map_nil]
    rw [expectedLines, hall, List.mapIdx_nil]
  have hlen : (partdata env.eve size ::
      expectedMbr env p (mbrUsed p)).length - 1 = (mbrUsed p).length := by
    simp [expectedMbr]
  simp only [partinit, readSector_eq_ok.mpr ⟨hvalid.read, hvalid.length⟩,
    ok_bind, hvalid.signed, ne_eq, not_true_eq_false, or_self, if_false,
    mbr_expected hroom hfuel hpass, hlen, tables_expected hvalid hnone,
    expectedTable, hlines, List.append_nil]

/-- **Valid disks.**  When memory does not run out, the scan of a valid disk
returns the table that the disk describes exactly when no Plan 9 table has a
line and the empty entries of the MBR fit. -/
theorem partinit_complete_iff {env : Env} {size : Int} {p : Bytes}
    (hroom : ∀ n, env.alloc n = true) (hfuel : 4 ≤ env.fuel)
    (hvalid : ValidLayout env size p) :
    partinit env (partdata env.eve size) size =
        .ok (expectedTable env size p) ↔
      (∀ i ∈ mbrUsed p, entryTable env p i = []) ∧ EmptiesFit size p := by
  rw [← mbrPasses_iff hvalid.inRange hvalid.disjoint]
  constructor
  · intro h
    obtain ⟨p', mbr, subs, hscan⟩ := partinit_eq_ok h
    obtain rfl : p = p' :=
      Except.ok.inj (hvalid.read.symm.trans hscan.sector.1)
    refine ⟨?_, hscan.entries.passes⟩
    have hsubs : subs = expectedLines env p := by
      rw [← hscan.drop_eq]
      simp [expectedTable, expectedMbr, Nat.add_comm 1]
    rw [← owners_eq_nil_iff]
    by_contra hsome
    have hpos : 0 < subs.length := by
      rw [hscan.lines, ← owners_length]
      exact List.length_pos_of_ne_nil hsome
    have htorn := hscan.torn _ (List.getElem_mem hpos)
    have hmem : subs[0] ∈ expectedLines env p := hsubs ▸ List.getElem_mem hpos
    obtain ⟨n, hn, heq⟩ := List.mem_mapIdx.mp hmem
    exact not_torn_described _ _ _ _ _ (heq ▸ htorn)
  · rintro ⟨hnone, hpass⟩
    exact partinit_expected hroom hfuel hvalid hpass hnone

/-- A disk with a Plan 9 part without a table and a DOS part is valid, and the
scan returns its table. -/
theorem partinit_valid_no_lines :
    partinit (sampleEnv (mbrSector [(0x39, 1, 100), (0x0c, 200, 50)])
        (textSector "")) (partdata (ascii "inferno") (4096 * 512))
        (4096 * 512) =
      .ok (expectedTable (sampleEnv (mbrSector [(0x39, 1, 100),
        (0x0c, 200, 50)]) (textSector "")) (4096 * 512)
        (mbrSector [(0x39, 1, 100), (0x0c, 200, 50)])) := by
  have hnone : ∀ i ∈ mbrUsed (mbrSector [(0x39, 1, 100), (0x0c, 200, 50)]),
      entryTable (sampleEnv (mbrSector [(0x39, 1, 100), (0x0c, 200, 50)])
        (textSector "")) (mbrSector [(0x39, 1, 100), (0x0c, 200, 50)]) i =
        [] := by
    decide +kernel
  have hvalid : ValidLayout
      (sampleEnv (mbrSector [(0x39, 1, 100), (0x0c, 200, 50)]) (textSector ""))
      (4096 * 512) (mbrSector [(0x39, 1, 100), (0x0c, 200, 50)]) :=
    { read := rfl
      length := by decide +kernel
      signed := by decide +kernel
      inRange := by decide +kernel
      disjoint := (Interval.pairwise_disjoint_iff _ _
        (by unfold Interval.Admitted; decide +kernel)).mpr
        (by unfold Interval.NoneNested; decide +kernel)
      tables := fun _ _ _ _ => ⟨_, rfl, by split <;> decide +kernel⟩
      wellFormed := by
        intro i hi line hline
        rw [hnone i hi] at hline
        exact absurd hline List.not_mem_nil
      linesDisjoint := by
        intro i hi
        rw [entryLines, hnone i hi]
        exact List.Pairwise.nil
      names := by decide +kernel }
  have hfits : EmptiesFit (4096 * 512)
      (mbrSector [(0x39, 1, 100), (0x0c, 200, 50)]) :=
    ⟨by decide +kernel, by decide +kernel⟩
  exact (partinit_complete_iff (fun _ => rfl) (by decide) hvalid).mpr
    ⟨hnone, hfits⟩

/-- A disk whose table has one line is valid too, but the part that the scan
makes of the line ends 100 sectors late. -/
theorem partinit_valid_one_line :
    ValidLayout (sampleEnv (mbrSector [(0x39, 1, 100)])
        (textSector "part fs 2 10\n")) (4096 * 512)
        (mbrSector [(0x39, 1, 100)]) ∧
      partinit (sampleEnv (mbrSector [(0x39, 1, 100)])
          (textSector "part fs 2 10\n")) (partdata (ascii "inferno")
          (4096 * 512)) (4096 * 512) =
        .ok [sampleData, samplePart 1 0x39 "plan9" 1 101 100,
          samplePart 2 0 "fs" 3 111 8] ∧
      expectedTable (sampleEnv (mbrSector [(0x39, 1, 100)])
          (textSector "part fs 2 10\n")) (4096 * 512)
          (mbrSector [(0x39, 1, 100)]) =
        [sampleData, samplePart 1 0x39 "plan9" 1 101 100,
          samplePart 2 0 "fs" 3 11 8] ∧
      samplePart 2 0 "fs" 3 111 8 ≠ samplePart 2 0 "fs" 3 11 8 := by
  have hused : mbrUsed (mbrSector [(0x39, 1, 100)]) = [0] := by decide +kernel
  have htable : entryTable (sampleEnv (mbrSector [(0x39, 1, 100)])
      (textSector "part fs 2 10\n")) (mbrSector [(0x39, 1, 100)]) 0 =
      [ascii "part fs 2 10"] := by
    decide +kernel
  refine ⟨?_, by decide +kernel, by decide +kernel, by decide⟩
  exact
    { read := rfl
      length := by decide +kernel
      signed := by decide +kernel
      inRange := by decide +kernel
      disjoint := by
        rw [hused]
        exact List.pairwise_singleton _ _
      tables := fun _ _ _ _ => ⟨_, rfl, by split <;> decide +kernel⟩
      wellFormed := by
        intro i hi line hline
        rw [hused, List.mem_singleton] at hi
        rw [hi, htable, List.mem_singleton] at hline
        rw [hi, hline]
        exact ⟨⟨ascii "fs", 2, 10⟩, by rfl, by decide +kernel, by decide,
          by decide, by decide +kernel⟩
      linesDisjoint := by
        intro i hi
        rw [hused, List.mem_singleton] at hi
        rw [hi, entryLines, htable]
        exact List.pairwise_singleton _ _
      names := by decide +kernel }

end Kirkwood.Ports.PartTable
