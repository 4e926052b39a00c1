import Kirkwood.Ports.DevBs
import Kirkwood.Ports.PartTableSound
import Kirkwood.Verified.Fields

/-!
# Indices of partitions and paths of files

A part keeps its index in eight bits, and a qid path has eight bits for it.  `partinit`
tests neither: a table is never that long, since the lines of a sector are of ten bytes at
least.  The proof follows the scan of `StoreInit`, also where it raises.

## Main results

* `Numbered`: a table whose entries have their positions as indices;
* `partinit_numbered`: what a scan leaves is one;
* `qpath_fields`: what `QPATH` puts together is taken apart again.
-/

namespace Kirkwood.Ports.PartIndex

open Kirkwood.Verified.ByteMem
open Kirkwood.Verified.Fields
open Kirkwood.Verified.Hoare
open Kirkwood.Verified.Outcome
open Kirkwood.Ports.BlockStore
open Kirkwood.Ports.DevBs (Answer BsM Dir Path Qtype bsgen tabled)
open Kirkwood.Ports.DiskRegistry (Registry)
open Kirkwood.Ports.PartTable (Env)
open Kirkwood.Ports.StoreInit

/-! ## The memory of a table -/

/-- Entries have their positions as indices, below `n`. -/
def Placed (n : Nat) (parts : List Part) : Prop :=
  ∀ i p, i < n → parts[i]? = some p → p.index = i % 256

/-- The memory of a table, with no more than one entry behind the `n` that are made. -/
structure Indexed (n : Nat) (parts : List Part) : Prop where
  filled : n ≤ parts.length
  short : parts.length ≤ n + 1
  placed : Placed parts.length parts

/-- There is room for entry `n`, and it may hold anything. -/
structure Grown (n : Nat) (parts : List Part) : Prop where
  length : parts.length = n + 1
  placed : Placed n parts

/-- The entry is being made. -/
structure Begun (n : Nat) (parts : List Part) : Prop where
  length : parts.length = n + 1
  placed : Placed (n + 1) parts

/-- A table that the eight bits of an index can tell apart. -/
structure Numbered (parts : List Part) : Prop where
  short : parts.length < 256
  index : ∀ i (p : Part), parts[i]? = some p → p.index = i

section
variable {n : Nat} {parts : List Part}

theorem Indexed.numbered (h : Indexed n parts) (hn : n < 255) : Numbered parts where
  short := by
    have hshort := h.short
    omega
  index i p hp := by
    have hshort := h.short
    have hlt := (List.getElem?_eq_some_iff.1 hp).1
    rw [h.placed i p hlt hp, Nat.mod_eq_of_lt (by omega)]

theorem Begun.indexed (h : Begun n parts) : Indexed n parts where
  filled := by
    have hlen := h.length
    omega
  short := Nat.le_of_eq h.length
  placed := h.length ▸ h.placed

theorem Begun.next (h : Begun n parts) : Indexed (n + 1) parts where
  filled := Nat.le_of_eq h.length.symm
  short := by
    have hlen := h.length
    omega
  placed := h.length ▸ h.placed

theorem Indexed.grown (h : Indexed n parts) (junk : Nat → Part) :
    Grown n (regrown junk parts (n + 1)) where
  length := by
    rw [regrown, List.length_append, List.length_take, List.length_map, List.length_range]
    omega
  placed i p hi hp := by
    have hfilled := h.filled
    rw [regrown_getElem? (by omega) (by omega)] at hp
    exact h.placed i p (by omega) hp

/-- A store to the entry that is being made leaves the others. -/
theorem placed_modify (h : Placed n parts) (f : Part → Part) :
    Placed n (parts.modify n f) := by
  intro i p hi hp
  rw [List.getElem?_modify_ne f parts (by omega)] at hp
  exact h i p hi hp

theorem Grown.modify (h : Grown n parts) (f : Part → Part) : Grown n (parts.modify n f) :=
  ⟨(List.length_modify ..).trans h.length, placed_modify h.placed f⟩

/-- A store of the index, or one that keeps it. -/
theorem Begun.stored {f : Part → Part} (hlen : parts.length = n + 1) (h : Placed n parts)
    (hf : ∀ p, parts[n]? = some p → (f p).index = n % 256) :
    Begun n (parts.modify n f) where
  length := (List.length_modify ..).trans hlen
  placed i p hi hp := by
    rcases Nat.lt_succ_iff_lt_or_eq.1 hi with hlt | rfl
    · exact placed_modify h f i p hlt hp
    · rw [List.getElem?_modify_eq] at hp
      obtain ⟨q, hq, rfl⟩ := Option.map_eq_some_iff.1 hp
      exact hf q hq

end

/-! ## The statements of the scan -/

/-- The four fields of a line are tokens of it, separated by white space: a field is not
longer than its token, which has a byte at least. -/
def FourTokens (tokenize : Bytes → List Bytes) : Prop :=
  ∀ line f0 f1 f2 f3, tokenize line = [f0, f1, f2, f3] →
    ∃ t0 w0 t1 w1 t2 w2 t3 pre post : Bytes,
      line = pre ++ t0 ++ w0 ++ t1 ++ w1 ++ t2 ++ w2 ++ t3 ++ post ∧
      f0.length ≤ t0.length ∧ t1 ≠ [] ∧ t2 ≠ [] ∧ t3 ≠ [] ∧ w0 ≠ [] ∧ w1 ≠ [] ∧ w2 ≠ []

/-- A line that adds an entry has ten bytes at least. -/
theorem FourTokens.long {tokenize : Bytes → List Bytes} (h : FourTokens tokenize)
    {line f1 f2 f3 : Bytes} (hline : tokenize line = [ascii "part", f1, f2, f3]) :
    10 ≤ line.length := by
  obtain ⟨t0, w0, t1, w1, t2, w2, t3, pre, post, rfl, h0, h1, h2, h3, hw0, hw1, hw2⟩ :=
    h _ _ _ _ _ hline
  have hpart : (ascii "part").length = 4 := by decide
  rw [← List.length_pos_iff] at h1 h2 h3 hw0 hw1 hw2
  simp only [List.length_append]
  omega

section
variable {env : Env} {junk : Nat → Part} {n : Nat}

/-- What a scan that raises leaves. -/
abbrev Raised (_ : Exn) (parts : List Part) : Prop := Numbered parts

theorem lift_keeps {α : Type} {P : List Part → Prop} (x : Except Exn α)
    (hP : ∀ parts, P parts → Numbered parts) : Triple P (lift x) (fun _ => P) Raised :=
  (lift_rule x fun _ parts _ => hP parts).conseq (fun _ h => h) fun _ _ h => h.1

theorem entry_keeps {P : List Part → Prop} (i : Nat)
    (hP : ∀ parts, P parts → Numbered parts) :
    Triple P (entry i) (fun _ => P) Raised := by
  intro parts hparts
  unfold entry
  cases parts[i]? with
  | none => exact hP parts hparts
  | some p => exact hparts

theorem entries_keeps {P : List Part → Prop} (k : Nat) :
    Triple P (entries k) (fun _ => P) Raised :=
  fun _ h => h

theorem partrealloc_grows (hn : n < 255) :
    Triple (Indexed n) (partrealloc env junk n) (fun _ => Grown n) Raised := by
  intro parts hparts
  unfold partrealloc
  by_cases halloc : env.alloc n = true
  · rw [if_pos halloc]
    exact hparts.grown junk
  · rw [if_neg halloc]
    exact hparts.numbered hn

theorem partclear_keeps : Triple (Grown n) (partclear env n) (fun _ => Grown n) Raised :=
  fun _ h => h.modify _

/-- The store of the index. -/
theorem index_begins {f : Part → Part} (hf : ∀ p, (f p).index = n % 256) :
    Triple (Grown n) (set n f) (fun _ => Begun n) Raised :=
  fun _ h => Begun.stored h.length h.placed fun p _ => hf p

/-- Another store to the entry. -/
theorem set_keeps {f : Part → Part} (hf : ∀ p, (f p).index = p.index) :
    Triple (Begun n) (set n f) (fun _ => Begun n) Raised := by
  intro parts h
  have hfront : Placed n parts := fun i p hi => h.placed i p (Nat.lt_succ_of_lt hi)
  exact Begun.stored h.length hfront fun p hp =>
    (hf p).trans (h.placed n p (Nat.lt_succ_self n) hp)

theorem Begun.numbered {parts : List Part} (hn : n < 255) (h : Begun n parts) :
    Numbered parts :=
  h.indexed.numbered hn

theorem mbrEntry_indexed (hn : n < 255) (size : Int) (p : Bytes) (i : Nat) :
    Triple (Indexed n) (mbrEntry env junk size p n i)
      (fun n' parts => Indexed n' parts ∧ n' ≤ n + 1) Raised := by
  have hnumbered : ∀ parts, Begun n parts → Numbered parts := fun _ h => h.numbered hn
  unfold mbrEntry
  simp only [PartTable.vlong_mbrStart, PartTable.vlong_mbrSize, PartTable.vlong_mbrEnd]
  refine (partrealloc_grows hn).bind fun _ => partclear_keeps.bind fun _ => ?_
  refine (index_begins (by intro p; rfl)).bind fun _ => ?_
  refine Triple.ite (fun _ => ?_) fun _ => ?_
  · exact Triple.pure fun parts h => ⟨h.indexed, Nat.le_succ n⟩
  refine (entries_keeps n).bind fun parts => ?_
  refine (lift_keeps _ hnumbered).bind fun name => ?_
  refine (set_keeps (by intro p; rfl)).bind fun _ => ?_
  refine (set_keeps (by intro p; rfl)).bind fun _ => ?_
  refine (lift_keeps _ hnumbered).bind fun _ => ?_
  exact Triple.pure fun parts h => ⟨h.next, Nat.le_refl _⟩

theorem tableLine_indexed (htok : FourTokens env.tokenize) (hn : n < 255) (i : Nat)
    (line : Bytes) :
    Triple (Indexed n) (tableLine env junk i n line)
      (fun n' parts => Indexed n' parts ∧ n' = n + 1 ∧ 10 ≤ line.length) Raised := by
  have hnumbered : ∀ parts, Begun n parts → Numbered parts := fun _ h => h.numbered hn
  have hbad : Triple (Indexed n)
      (lift (.error (.error "bad plan 9 partition table")) : PartM Nat)
      (fun n' parts => Indexed n' parts ∧ n' = n + 1 ∧ 10 ≤ line.length) Raised :=
    fun parts h => h.numbered hn
  unfold tableLine
  split
  · next f0 f1 f2 f3 hfields =>
      refine Triple.ite (fun hpart => ?_) fun _ => hbad
      subst hpart
      have hlong := htok.long hfields
      dsimp only
      refine (partrealloc_grows hn).bind fun _ => partclear_keeps.bind fun _ => ?_
      refine (index_begins (by intro p; rfl)).bind fun _ => ?_
      refine (entries_keeps n).bind fun parts => ?_
      refine (lift_keeps _ hnumbered).bind fun name => ?_
      refine (set_keeps (by intro p; rfl)).bind fun _ => ?_
      refine (entry_keeps i hnumbered).bind fun q => ?_
      refine (lift_keeps _ hnumbered).bind fun _ => ?_
      refine (set_keeps (by intro p; rfl)).bind fun _ => ?_
      exact Triple.pure fun parts h => ⟨h.next, rfl, hlong⟩
  · exact hbad

/-- A table adds at most 46 entries. -/
theorem table_indexed (htok : FourTokens env.tokenize) (hn : n + 46 < 255) (i : Nat) :
    Triple (Indexed n) (table env junk n i)
      (fun n' parts => Indexed n' parts ∧ n ≤ n' ∧ n' ≤ n + 46) Raised := by
  have hnumbered : ∀ parts, Indexed n parts → Numbered parts :=
    fun _ h => h.numbered (by omega)
  refine table_rule ?_ (fun _ _ parts _ => hnumbered parts) fun k line _ hk => ?_
  · exact entry_keeps i hnumbered
  · exact tableLine_indexed htok (by omega) i line

/-- However a scan ends, the indices of the entries are their positions. -/
theorem scan_indexed (junk : Nat → Part) (htok : FourTokens env.tokenize) (size : Int) :
    Triple (Indexed 1) (partinit env junk size)
      (fun n parts => Indexed n parts ∧ n < 255) Raised := by
  have hnumbered : ∀ parts, Indexed 1 parts → Numbered parts :=
    fun _ h => h.numbered (by decide)
  have hscan : Triple (Indexed 1) (partinit env junk size)
      (fun n parts => Indexed n parts ∧ n ≤ 189) Raised := by
    refine partinit_rule (fun _ parts _ => hnumbered parts) hnumbered ?_ ?_
    · exact fun n p i hn => mbrEntry_indexed (by omega) size p i
    · exact fun n i _ hn => table_indexed htok (by omega) i
  exact hscan.conseq (fun _ h => h) fun _ _ h => ⟨h.1, Nat.lt_of_le_of_lt h.2 (by decide)⟩

end

/-! ## Paths -/

/-- The number of a file type in its `enum`. -/
def code : Qtype → Nat
  | .Qdir => 0
  | .Qbsctl => 1
  | .Qbsevent => 2
  | .Qdiskdir => 3
  | .Qdiskctl => 4
  | .Qdiskdevctl => 5
  | .Qdiskevent => 6
  | .Qdiskraw => 7
  | .Qdiskpart => 8

/-- `(p)<<16 | (d)<<8 | (t)<<0`, an `int`, as the path of a qid. -/
def QPATH (p d t : Int) : BitVec 64 :=
  (BitVec.ofInt 32 p <<< 16 ||| BitVec.ofInt 32 d <<< 8 |||
    BitVec.ofInt 32 t <<< 0).signExtend 64

/-- `(int)(v>>k & 0xff)` -/
def qbyte (k : Nat) (v : BitVec 64) : Int := ((v >>> k &&& 0xff).setWidth 32).toInt

def QTYPE (v : BitVec 64) : Int := qbyte 0 v
def QDISK (v : BitVec 64) : Int := qbyte 8 v
def QPART (v : BitVec 64) : Int := qbyte 16 v

/-- A file's path. -/
def qid (path : Path) : BitVec 64 := QPATH path.part path.disk (code path.typ)

theorem qbyte_eq (k : Nat) (v : BitVec 64) : qbyte k v = (field v.toNat k 8 : Nat) := by
  have hmask : (0xff : BitVec 64).toNat = 2 ^ 8 - 1 := rfl
  have hlt : field v.toNat k 8 < 2 ^ 8 := field_lt _ _ _
  have hval : (v >>> k &&& 0xff).toNat = field v.toNat k 8 := by
    rw [BitVec.toNat_and, hmask, Nat.and_two_pow_sub_one_eq_mod, BitVec.toNat_ushiftRight,
      Nat.shiftRight_eq_div_pow]
    rfl
  unfold qbyte
  rw [BitVec.toInt_eq_toNat_of_lt, BitVec.toNat_setWidth, hval, Nat.mod_eq_of_lt (by omega)]
  rw [BitVec.toNat_setWidth, hval]
  omega

/-- The path of three bytes is their word. -/
theorem QPATH_toNat {p d t : Nat} (hp : p < 256) (hd : d < 256) (ht : t < 256) :
    (QPATH p d t).toNat = t + (d + p * 2 ^ 8) * 2 ^ 8 := by
  have hlow : t ||| d <<< 8 = t + d * 2 ^ 8 := or_shift ht d
  have hall : (t + d * 2 ^ 8) ||| p <<< 16 = t + d * 2 ^ 8 + p * 2 ^ 16 :=
    or_shift (by omega) p
  have hshift {x k : Nat} (hx : x < 256) (hk : k ≤ 16) :
      (BitVec.ofInt 32 x <<< k).toNat = x <<< k := by
    have hpow : 2 ^ k ≤ 2 ^ 16 := Nat.pow_le_pow_right (by decide) hk
    have hmul : x * 2 ^ k ≤ 255 * 2 ^ 16 := Nat.mul_le_mul (by omega) hpow
    rw [BitVec.ofInt_natCast, BitVec.toNat_shiftLeft, BitVec.toNat_ofNat,
      Nat.mod_eq_of_lt (by omega : x < 2 ^ 32), Nat.shiftLeft_eq,
      Nat.mod_eq_of_lt (by omega : x * 2 ^ k < 2 ^ 32)]
  have hint : (BitVec.ofInt 32 p <<< 16 ||| BitVec.ofInt 32 d <<< 8 |||
      BitVec.ofInt 32 t <<< 0).toNat = t + d * 2 ^ 8 + p * 2 ^ 16 := by
    rw [BitVec.toNat_or, BitVec.toNat_or, hshift hp (by decide), hshift hd (by decide),
      hshift ht (by decide), Nat.shiftLeft_zero, ← hall, ← hlow]
    ac_rfl
  rw [QPATH, BitVec.signExtend_eq_setWidth_of_msb_false, BitVec.toNat_setWidth, hint]
  · omega
  · rw [BitVec.msb_eq_decide, hint, decide_eq_false_iff_not]
    omega

/-- What `QPATH` puts together is taken apart again. -/
theorem qpath_fields {p d t : Nat} (hp : p < 256) (hd : d < 256) (ht : t < 256) :
    QPART (QPATH p d t) = p ∧ QDISK (QPATH p d t) = d ∧ QTYPE (QPATH p d t) = t := by
  have hword := QPATH_toNat hp hd ht
  unfold QPART QDISK QTYPE
  simp only [qbyte_eq, hword]
  refine ⟨?_, ?_, ?_⟩
  · rw [field_add_shift ht _ 8 (by decide), field_add_shift hd _ 8 (by decide),
      field_self hp]
  · rw [field_add_shift ht _ 8 (by decide), field_add_mul _ (by decide), field_self hd]
  · rw [field_add_mul _ (by decide), field_self ht]

theorem code_lt (t : Qtype) : code t < 256 := by
  cases t <;> decide

theorem code_injective {t u : Qtype} (h : code t = code u) : t = u := by
  cases t <;> cases u <;> first | rfl | exact absurd h (by decide)

/-! ## The files of the device -/

/-- A store with a number that `blockstoreadd` can give, and the table of a scan. -/
structure Fits (d : Store) : Prop where
  num : 0 ≤ d.num ∧ d.num ≤ 99
  nparts : d.nparts ≤ d.parts.length
  table : Numbered d.parts

/-- Every store of the driver is such a one. -/
def Fitting (r : Registry) : Prop :=
  ∀ (k : Nat) (d : Store), r.disks[k]? = some (some d) → Fits d

/-- The part and the disk of a path have room in the qid. -/
structure Small (path : Path) : Prop where
  part : path.part < 256
  disk : path.disk ≤ 99

/-- Different files have different paths. -/
theorem qid_injective {a b : Path} (ha : Small a) (hb : Small b) (h : qid a = qid b) :
    a = b := by
  have hdiska : a.disk < 256 := Nat.lt_of_le_of_lt ha.disk (by decide)
  have hdiskb : b.disk < 256 := Nat.lt_of_le_of_lt hb.disk (by decide)
  obtain ⟨hpart, hdisk, htyp⟩ := qpath_fields ha.part hdiska (code_lt a.typ)
  obtain ⟨hpart', hdisk', htyp'⟩ := qpath_fields hb.part hdiskb (code_lt b.typ)
  have hqid : QPATH a.part a.disk (code a.typ) = QPATH b.part b.disk (code b.typ) := h
  rw [hqid] at hpart hdisk htyp
  have hparts : a.part = b.part := by omega
  have hdisks : a.disk = b.disk := by omega
  have hcodes : code a.typ = code b.typ := by omega
  cases a
  cases b
  cases code_injective hcodes
  cases hparts
  cases hdisks
  rfl

/-- Anything may be raised. -/
abbrev Any (_ : Exn) (_ : Registry) : Prop := True

theorem store_fits (k : Nat) :
    Triple Fitting (DevBs.store k) (fun d r => Fitting r ∧ Fits d) Any := by
  intro r hr
  unfold DevBs.store
  split
  · next s r' hread =>
      split at hread
      · next d hd =>
          cases hread
          exact ⟨hr, hr k _ hd⟩
      · cases hread
  · trivial

theorem diskget_fitting (num : Int) :
    Triple Fitting (DevBs.diskget num) (fun _ => Fitting) Any := by
  intro r hr
  unfold DevBs.diskget
  cases DiskRegistry.diskget r num with
  | ok d => exact hr
  | error e => trivial

theorem getpart_any {P : Registry → Prop} (k i : Nat) :
    Triple P (DevBs.getpart k i) (fun _ _ => True) Any := by
  intro r hr
  cases DevBs.getpart k i r <;> trivial

/-- A file that `bsgen` finds has a small path. -/
def Found (a : Answer) : Prop := ∀ dir, a = .found dir → Small dir.path

theorem tabled_found (eve : Bytes) (t : Qtype) {num : Nat} (hnum : num ≤ 99) :
    Found (tabled eve t num) := by
  rintro dir ⟨⟩
  exact ⟨Nat.zero_lt_succ 255, hnum⟩

theorem bsgen_found (eve : Bytes) (path : Path) (i : Nat) :
    Triple Fitting (bsgen eve path i) (fun a _ => Found a) Any := by
  have hnone : ∀ P : Registry → Prop,
      Triple P (pure .none : BsM Answer) (fun a _ => Found a) Any :=
    fun P => Triple.pure fun _ _ => nofun
  have htabled : ∀ t (num : Nat), num ≤ 99 → ∀ P : Registry → Prop,
      Triple P (pure (tabled eve t num) : BsM Answer) (fun a _ => Found a) Any :=
    fun t num hnum P => Triple.pure fun _ _ => tabled_found eve t hnum
  unfold bsgen
  refine Triple.ite (fun _ => ?_) fun _ => ?_
  · refine (diskget_fitting _).bind fun o => ?_
    cases o with
    | none => exact hnone _
    | some k =>
        refine (store_fits k).bind fun d => Triple.fact fun hd => ?_
        have hnum : d.num.toNat ≤ 99 := by
          have hle := hd.num.2
          omega
        refine Triple.ite (fun _ => hnone _) fun _ => ?_
        match i with
        | 0 => exact htabled _ _ hnum _
        | 1 => exact htabled _ _ hnum _
        | 2 => exact htabled _ _ hnum _
        | 3 => exact htabled _ _ hnum _
        | i + 4 =>
            refine Triple.ite (fun _ => hnone _) fun hi => ?_
            have hpart : i < 256 := by
              have hnparts := hd.nparts
              have hshort := hd.table.short
              omega
            refine (getpart_any k i).bind fun p => Triple.pure fun _ _ => ?_
            rintro dir ⟨⟩
            exact ⟨hpart, hnum⟩
  · match i with
    | 0 => exact htabled _ _ (by decide) _
    | 1 => exact htabled _ _ (by decide) _
    | i + 2 =>
        refine Triple.get fun r => Triple.ite (fun _ => hnone _) fun _ => ?_
        refine ((diskget_fitting _).conseq (fun _ h => h.1) fun _ _ h => h).bind fun o => ?_
        cases o with
        | none => exact Triple.pure fun _ _ => nofun
        | some k =>
            refine (store_fits k).bind fun d => Triple.fact fun hd => ?_
            have hnum : d.num.toNat ≤ 99 := by
              have hle := hd.num.2
              omega
            refine Triple.pure fun _ _ => ?_
            rintro dir ⟨⟩
            exact ⟨Nat.zero_lt_succ 255, hnum⟩

/-- A file of the device. -/
def Listed (r : Registry) (dir : Dir) : Prop :=
  ∃ eve path i r', bsgen eve path i r = .ok (.found dir) r'

theorem Listed.small {r : Registry} (hr : Fitting r) {dir : Dir} (h : Listed r dir) :
    Small dir.path := by
  obtain ⟨eve, path, i, r', hrun⟩ := h
  have hfound := bsgen_found eve path i r hr
  rw [hrun] at hfound
  exact hfound dir rfl

/-! ## A scan -/

/-- The memory that a scan leaves. -/
def left : EStateM.Result Exn (List Part) Nat → List Part
  | .ok _ parts => parts
  | .error _ parts => parts

/-- A scan of any disk, whether it returns or raises, leaves fewer than 256 entries, whose
indices are their positions; the path of each, on any store and for any type, gives them
back.  Different files of a device with such tables have different paths. -/
theorem partinit_numbered (env : Env) (junk : Nat → Part) (htok : FourTokens env.tokenize)
    (size : Int) (data : Part) (hdata : data.index = 0) :
    Numbered (left (partinit env junk size [data])) ∧
    (∀ n parts, partinit env junk size [data] = .ok n parts →
      n ≤ parts.length) ∧
    (∀ i, i < (left (partinit env junk size [data])).length →
      ∀ (d : Nat) (t : Qtype), d ≤ 99 → QPART (QPATH i d (code t)) = i ∧
        QDISK (QPATH i d (code t)) = d ∧ QTYPE (QPATH i d (code t)) = code t) ∧
    ∀ r : Registry, Fitting r → ∀ a b, Listed r a → Listed r b →
      qid a.path = qid b.path → a.path = b.path := by
  have hstart : Indexed 1 [data] :=
    { filled := Nat.le_refl 1
      short := Nat.le_succ 1
      placed := by
        intro i p hi hp
        obtain rfl : i = 0 := Nat.lt_one_iff.1 hi
        cases hp
        exact hdata }
  have hscan := scan_indexed junk htok size [data] hstart
  have hnumbered : Numbered (left (partinit env junk size [data])) := by
    cases hrun : partinit env junk size [data] with
    | ok n parts =>
        rw [hrun] at hscan
        exact hscan.1.numbered hscan.2
    | error e parts =>
        rw [hrun] at hscan
        exact hscan
  refine ⟨hnumbered, ?_, ?_, ?_⟩
  · intro n parts hrun
    rw [hrun] at hscan
    exact hscan.1.filled
  · intro i hi d t hd
    have hshort := hnumbered.short
    exact qpath_fields (by omega) (by omega) (code_lt t)
  · intro r hr a b ha hb
    exact qid_injective (ha.small hr) (hb.small hr)

/-- `tokenize` on one line only. -/
def tokenizePart (line : Bytes) : List Bytes :=
  if line = ascii "part fs 0 1" then
    [ascii "part", ascii "fs", ascii "0", ascii "1"]
  else []

theorem tokenizePart_four : FourTokens tokenizePart := by
  intro line f0 f1 f2 f3 hline
  unfold tokenizePart at hline
  split at hline
  · next heq =>
      cases hline
      refine ⟨ascii "part", ascii " ", ascii "fs", ascii " ", ascii "0", ascii " ",
        ascii "1", [], [], ?_⟩
      rw [heq]
      decide
  · cases hline

/-- A disk with a Plan 9 part, and a line in its table. -/
def tabledDisk : Env :=
  { PartTable.sampleEnv (PartTable.mbrSector [(0x39, 100, 50)])
      (PartTable.textSector "part fs 0 1\n") with tokenize := tokenizePart }

/-- The data partition, given to another user. -/
def givenData : Part :=
  { partdata (ascii "inferno") (4096 * 512) with uid := ascii "mjl" }

theorem tabled_disk_numbered :
    (left (partinit tabledDisk (fun _ => StoreInit.unread) (4096 * 512) [givenData])).map
        (fun p => (p.index, p.name, p.uid)) =
      [(0, ascii "data", ascii "mjl"), (1, ascii "plan9", ascii "inferno"),
        (2, ascii "fs", ascii "inferno")] ∧
    Numbered (left (partinit tabledDisk (fun _ => StoreInit.unread) (4096 * 512)
      [givenData])) :=
  ⟨by decide +kernel,
    (partinit_numbered tabledDisk (fun _ => StoreInit.unread) tokenizePart_four (4096 * 512)
      givenData rfl).1⟩

end Kirkwood.Ports.PartIndex
