import Kirkwood.Verified.CInt
import Kirkwood.Verified.Interval
import Kirkwood.Ports.BlockStore

/-!
# The partition scanner

`partinit` of `part.c` builds the partition table of a disk: after `data`, the
whole disk, come the used entries of the MBR, and after them, for each Plan 9
entry, one partition for each line of the table in its second sector.  Every
new partition is named, checked against those already there, and appended.

The scanner reads through `r`, allocates through `realloc`, splits and reads
the text of a table with `tokenize` and `strtoull`, and writes names with
`seprint`; these are the fields of `Env`.

## Main results

* `addMbr_eq_ok`, `addLine_eq_ok`: what one MBR entry and one table line add.
* `partinit_eq_ok`: the shape of the table of a scan that returned.
-/

namespace Kirkwood.Ports.PartTable

open Kirkwood.Verified.CInt
open Kirkwood.Verified.ByteMem
open Kirkwood.Verified.Outcome
open Kirkwood.Verified
open Kirkwood.Ports.BlockStore

/-! ## The code -/

/-- A character that takes one byte and can be seen. -/
def printable (b : UInt8) : Bool := 32 < b.toNat && b.toNat < 127

def Printable (t : Bytes) : Prop := t.all printable = true

instance : DecidablePred Printable := fun _ => inferInstanceAs (Decidable (_ = true))

/-- `seprint` and `snprint`, which write whole characters only, and another one
in the place of bytes that are none. -/
structure Seprint where
  /-- What they leave of a text in a room of `n` bytes, short of the NUL that
  the result points at. -/
  print : Nat → Bytes → Bytes
  /-- Whole characters. -/
  Text : Bytes → Prop
  text_printable : ∀ t, Printable t → Text t
  text_append : ∀ t s, Text t → Text s → Text (t ++ s)
  text_init : ∀ t s, Printable s → Text (t ++ s) → Text t
  room : ∀ n t, 0 < n → (print n t).length < n
  text : ∀ n t, Text (print n t)
  whole : ∀ n t, Text t → t.length < n → print n t = t

/-- The surroundings of the scanner. -/
structure Env where
  /-- `r(disk, 0, p, 512, off)`: the bytes delivered, as many as it returns. -/
  read : Int → Except Exn Bytes
  /-- `tokenize(s, f, 4)`: the fields it leaves in `f`. -/
  tokenize : Bytes → List Bytes
  /-- `strtoull(s, nil, 0)` -/
  strtoull : Bytes → Int
  seprint : Seprint
  /-- Whether `realloc` finds room for one part more than its argument. -/
  alloc : Nat → Bool
  /-- The `typ` that a part has in memory fresh from `realloc`. -/
  fresh : Nat → Nat
  eve : Bytes
  /-- After how many names the search for a free one is given up. -/
  fuel : Nat

def byte (p : Bytes) (o : Nat) : Nat := (p.getD o 0).toNat

/-- `g32`: a little-endian word. -/
def g32 (p : Bytes) (o : Nat) : Nat :=
  byte p (o + 3) <<< 24 ||| byte p (o + 2) <<< 16 ||| byte p (o + 1) <<< 8 |||
    byte p o

def haspartname (parts : List Part) (name : Bytes) : Bool :=
  parts.any fun p => p.name = name

def Elongname : String := "partition name too long"

/-- The size of `Part.name`. -/
def NAMELEN : Nat := 32

section
variable (out : Seprint)

/-- What the two `seprint` of `partgenname` leave for number `i`. -/
def numbered (next : Bytes) (i : Nat) : Bytes :=
  let p := out.print NAMELEN (next ++ ascii ".")
  p ++ out.print (NAMELEN - p.length) (ascii (toString i))

/-- The search of `partgenname` for a number that is free, from `i` on.  The
result of `seprint` is `e` when the name is as long as its room. -/
def genloop (parts : List Part) (next : Bytes) : Nat → Nat → Except Exn Bytes
  | 0, _ => .error .hang
  | fuel + 1, i =>
      if (numbered out next i).length = NAMELEN then .error (.error Elongname)
      else if haspartname parts (numbered out next i) then
        genloop parts next fuel (i + 1)
      else .ok (numbered out next i)

def partgenname (fuel : Nat) (parts : List Part) (first next : Bytes) :
    Except Exn Bytes :=
  if haspartname parts first then genloop out parts next fuel 0
  else if (out.print NAMELEN first).length = NAMELEN then
    .error (.error Elongname)
  else .ok (out.print NAMELEN first)

def partname (fuel : Nat) (parts : List Part) (typ i : Nat) :
    Except Exn Bytes :=
  match typ with
  | 0x39 => partgenname out fuel parts (ascii "plan9") (ascii "plan9")
  | 0x01 | 0x04 | 0x06 | 0x0b | 0x0c | 0x0e =>
      partgenname out fuel parts (ascii "9fat") (ascii "dos")
  | _ => .ok (out.print NAMELEN (ascii "p" ++ ascii (toString i)))

end

/-- `partcheck`; the first part of `parts` is not tested. -/
def partcheck (s e : Int) (parts : List Part) (size : Int) :
    Except Exn Unit :=
  if e > size then .error (.error "partition beyond end of disk")
  else if s > e then .error (.error "bad partition, start > end")
  else if (parts.drop 1).any fun q =>
      q.s ≥ s ∧ q.s < e ∨ q.e > s ∧ q.e ≤ e then
    .error (.error "overlapping partitions")
  else .ok ()

def partrealloc (env : Env) (np : Nat) : Except Exn Unit :=
  if env.alloc np then .ok () else .error (.error Enomem)

/-- A read of one sector that must be complete. -/
def readSector (env : Env) (off : Int) (msg : String) : Except Exn Bytes := do
  let b ← env.read off
  if b.length = 512 then .ok b else .error (.error msg)

/-- `partinit`: entry `i` of the MBR in `p`. -/
def addMbr (env : Env) (size : Int) (p : Bytes) (parts : List Part) (i : Nat) :
    Except Exn (List Part) := do
  let o := 446 + i * 16
  partrealloc env parts.length
  let typ := byte p (o + 0x4)
  if typ = 0 then pure parts
  else do
    let name ← partname env.seprint env.fuel parts typ i
    let s := vlong (g32 p (o + 0x8) * 512)
    let sz := vlong (g32 p (o + 0xc) * 512)
    let e := vlong (s + sz)
    partcheck s e parts size
    pure (parts ++
      [{ index := parts.length % 256
         typ := typ
         name := name
         s := s
         e := e
         size := sz
         uid := env.eve
         perm := 0o660
         isopen := 0 }])

/-- The lines of a table: what `strchr` cuts off at each newline.  A NUL ends
the table, and what follows the last newline is not looked at. -/
def tableLines : Bytes → List Bytes
  | [] => []
  | c :: cs =>
      if c = 0 then []
      else if c = 10 then [] :: tableLines cs
      else
        match tableLines cs with
        | [] => []
        | line :: lines => (c :: line) :: lines

/-- `partinit`: one line of the table inside part `i`, which is `pp`. -/
def addLine (env : Env) (i : Nat) (pp : Part) (parts : List Part)
    (line : Bytes) : Except Exn (List Part) :=
  match env.tokenize line with
  | [f0, f1, f2, f3] =>
      if f0 = ascii "part" then do
        partrealloc env parts.length
        let name ← partgenname env.seprint env.fuel parts f1 f1
        let s := vlong (vlong (env.strtoull f2) * 512)
        let e := vlong (vlong (env.strtoull f3) * 512)
        let sz := vlong (e - s)
        partcheck s e (parts.drop i) pp.size
        pure (parts ++
          [{ index := parts.length % 256
             typ := env.fresh parts.length
             name := name
             s := vlong (s + pp.s)
             e := vlong (e + pp.e)
             size := sz
             uid := env.eve
             perm := 0o660
             isopen := 0 }])
      else .error (.error "bad plan 9 partition table")
  | _ => .error (.error "bad plan 9 partition table")

/-- `partinit`: the table inside part `i`, when that is a Plan 9 part. -/
def addTable (env : Env) (parts : List Part) (i : Nat) :
    Except Exn (List Part) :=
  match parts[i]? with
  | none => .error .fault
  | some pp =>
      if pp.typ ≠ 0x39 ∨ pp.size < 2 * 512 then pure parts
      else do
        let p ← readSector env (vlong (pp.s + 512))
          "reading plan 9 partition table"
        (tableLines p).foldlM (addLine env i pp) parts

/-- `partinit`: `data` is the part that is there before the scan. -/
def partinit (env : Env) (data : Part) (size : Int) :
    Except Exn (List Part) := do
  let p ← readSector env 0 "reading mbr"
  if byte p 510 ≠ 0x55 ∨ byte p 511 ≠ 0xaa then
    .error (.error "missing mbr signature")
  else do
    let parts ← (List.range 4).foldlM (addMbr env size p) [data]
    (List.range' 1 (parts.length - 1)).foldlM (addTable env) parts

/-! ## The entries of the MBR -/

theorem byte_lt (p : Bytes) (o : Nat) : byte p o < 2 ^ 8 :=
  (p.getD o 0).toNat_lt

theorem g32_lt (p : Bytes) (o : Nat) : g32 p o < 2 ^ 32 := by
  have hshift (b k : Nat) (hk : k ≤ 24) : byte p b <<< k < 2 ^ 32 := by
    have hpow : 2 ^ 8 * 2 ^ k ≤ 2 ^ 32 := by
      rw [← Nat.pow_add]
      exact Nat.pow_le_pow_right (by decide) (by omega)
    rw [Nat.shiftLeft_eq]
    exact Nat.lt_of_lt_of_le
      (Nat.mul_lt_mul_of_pos_right (byte_lt p b) (Nat.two_pow_pos k)) hpow
  have hlow : byte p o < 2 ^ 32 :=
    Nat.lt_of_lt_of_le (byte_lt p o) (by decide)
  exact Nat.or_lt_two_pow (Nat.or_lt_two_pow (Nat.or_lt_two_pow
    (hshift _ 24 (by decide)) (hshift _ 16 (by decide)))
    (hshift _ 8 (by decide))) hlow

def mbrTyp (p : Bytes) (i : Nat) : Nat := byte p (446 + i * 16 + 4)

/-- Where entry `i` begins, in bytes. -/
def mbrStart (p : Bytes) (i : Nat) : Int := g32 p (446 + i * 16 + 8) * 512

/-- How long entry `i` is, in bytes. -/
def mbrSize (p : Bytes) (i : Nat) : Int := g32 p (446 + i * 16 + 12) * 512

def mbrEnd (p : Bytes) (i : Nat) : Int := mbrStart p i + mbrSize p i

/-- The entries that are used, in the order of the table. -/
def mbrUsed (p : Bytes) : List Nat :=
  (List.range 4).filter fun i => mbrTyp p i ≠ 0

/-- The part that entry `i` becomes as part `n` of the table. -/
def mbrPart (env : Env) (p : Bytes) (n : Nat) (name : Bytes) (i : Nat) :
    Part :=
  { index := n % 256
    typ := mbrTyp p i
    name := name
    s := mbrStart p i
    e := mbrEnd p i
    size := mbrSize p i
    uid := env.eve
    perm := 0o660
    isopen := 0 }

theorem mbrStart_range (p : Bytes) (i : Nat) :
    0 ≤ mbrStart p i ∧ mbrStart p i < 2 ^ 41 := by
  have := g32_lt p (446 + i * 16 + 8)
  unfold mbrStart
  omega

theorem mbrSize_range (p : Bytes) (i : Nat) :
    0 ≤ mbrSize p i ∧ mbrSize p i < 2 ^ 41 := by
  have := g32_lt p (446 + i * 16 + 12)
  unfold mbrSize
  omega

theorem vlong_mbrStart (p : Bytes) (i : Nat) :
    vlong (g32 p (446 + i * 16 + 0x8) * 512) = mbrStart p i := by
  have := mbrStart_range p i
  exact vlong_eq (by unfold mbrStart at this; omega) (by unfold mbrStart at this; omega)

theorem vlong_mbrSize (p : Bytes) (i : Nat) :
    vlong (g32 p (446 + i * 16 + 0xc) * 512) = mbrSize p i := by
  have := mbrSize_range p i
  exact vlong_eq (by unfold mbrSize at this; omega) (by unfold mbrSize at this; omega)

theorem vlong_mbrEnd (p : Bytes) (i : Nat) :
    vlong (mbrStart p i + mbrSize p i) = mbrEnd p i := by
  have := mbrStart_range p i
  have := mbrSize_range p i
  exact vlong_eq (by omega) (by omega)

/-! ## One step of the scan -/

theorem partcheck_eq_ok {s e size : Int} {parts : List Part} {u : Unit} :
    partcheck s e parts size = .ok u ↔
      e ≤ size ∧ s ≤ e ∧ ∀ q ∈ parts.drop 1, ¬Interval.EndsIn s e q.s q.e := by
  unfold partcheck
  split
  · simp only [reduceCtorEq, false_iff]
    omega
  · split
    · simp only [reduceCtorEq, false_iff]
      omega
    · rename_i hend hstart
      simp only [List.any_eq_true, decide_eq_true_eq]
      split
      · rename_i hany
        obtain ⟨q, hq, htest⟩ := hany
        simp only [reduceCtorEq, false_iff]
        rintro ⟨-, -, hnone⟩
        exact hnone q hq htest
      · rename_i hnone
        simp only [true_iff]
        exact ⟨by omega, by omega, fun q hq htest => hnone ⟨q, hq, htest⟩⟩

theorem partrealloc_eq_ok {env : Env} {np : Nat} {u : Unit} :
    partrealloc env np = .ok u ↔ env.alloc np = true := by
  unfold partrealloc
  split <;> simp_all

/-- What an entry of the MBR adds to the table. -/
theorem addMbr_eq_ok {env : Env} {size : Int} {p : Bytes}
    {parts parts' : List Part} {i : Nat} :
    addMbr env size p parts i = .ok parts' ↔
      env.alloc parts.length = true ∧
      (mbrTyp p i = 0 ∧ parts' = parts ∨
        mbrTyp p i ≠ 0 ∧ ∃ name,
          partname env.seprint env.fuel parts (mbrTyp p i) i = .ok name ∧
          partcheck (mbrStart p i) (mbrEnd p i) parts size = .ok () ∧
          parts' = parts ++ [mbrPart env p parts.length name i]) := by
  have htyp : byte p (446 + i * 16 + 4) = mbrTyp p i := rfl
  simp only [addMbr, vlong_mbrStart, vlong_mbrSize, vlong_mbrEnd, htyp, bind_eq_ok,
    partrealloc_eq_ok]
  constructor
  · rintro ⟨-, halloc, hrest⟩
    refine ⟨halloc, ?_⟩
    split at hrest
    · rename_i hzero
      exact Or.inl ⟨hzero, (Except.ok.inj hrest).symm⟩
    · rename_i hused
      simp only [bind_eq_ok] at hrest
      obtain ⟨name, hname, ⟨⟩, hcheck, happ⟩ := hrest
      exact Or.inr ⟨hused, name, hname, hcheck, (Except.ok.inj happ).symm⟩
  · rintro ⟨halloc, ⟨hzero, rfl⟩ | ⟨hused, name, hname, hcheck, rfl⟩⟩
    · exact ⟨(), halloc, by rw [if_pos hzero]; rfl⟩
    · exact ⟨(), halloc, by
        simp only [if_neg hused, bind_eq_ok]
        exact ⟨name, hname, (), hcheck, rfl⟩⟩

/-- A part without its name and its owner: type, start, end and size. -/
def row (q : Part) : Nat × Int × Int × Int := (q.typ, q.s, q.e, q.size)

def mbrRow (p : Bytes) (i : Nat) : Nat × Int × Int × Int :=
  (mbrTyp p i, mbrStart p i, mbrEnd p i, mbrSize p i)

/-- A value of the table text, as a byte offset. -/
def lineOffset (env : Env) (f : Bytes) : Int :=
  vlong (vlong (env.strtoull f) * 512)

/-- The part that a line with offsets `a` and `b` becomes as part `n`. -/
def linePart (env : Env) (pp : Part) (n : Nat) (name : Bytes) (a b : Int) :
    Part :=
  { index := n % 256
    typ := env.fresh n
    name := name
    s := vlong (a + pp.s)
    e := vlong (b + pp.e)
    size := vlong (b - a)
    uid := env.eve
    perm := 0o660
    isopen := 0 }

/-- What a line of a table adds to the table. -/
theorem addLine_eq_ok {env : Env} {i : Nat} {pp : Part}
    {parts parts' : List Part} {line : Bytes} :
    addLine env i pp parts line = .ok parts' ↔
      ∃ f1 f2 f3 name, env.tokenize line = [ascii "part", f1, f2, f3] ∧
        env.alloc parts.length = true ∧
        partgenname env.seprint env.fuel parts f1 f1 = .ok name ∧
        partcheck (lineOffset env f2) (lineOffset env f3) (parts.drop i)
          pp.size = .ok () ∧
        parts' = parts ++ [linePart env pp parts.length name
          (lineOffset env f2) (lineOffset env f3)] := by
  unfold addLine
  split
  · rename_i f0 f1 f2 f3 htok
    split
    · rename_i hpart
      simp only [bind_eq_ok, partrealloc_eq_ok]
      constructor
      · rintro ⟨-, halloc, name, hname, ⟨⟩, hcheck, happ⟩
        exact ⟨f1, f2, f3, name, by rw [htok, hpart], halloc, hname, hcheck,
          (Except.ok.inj happ).symm⟩
      · rintro ⟨g1, g2, g3, name, hline, halloc, hname, hcheck, rfl⟩
        rw [htok] at hline
        obtain ⟨-, rfl, rfl, rfl⟩ : f0 = _ ∧ f1 = g1 ∧ f2 = g2 ∧ f3 = g3 := by
          simpa using hline
        exact ⟨(), halloc, name, hname, (), hcheck, rfl⟩
    · rename_i hpart
      simp only [reduceCtorEq, false_iff]
      rintro ⟨g1, g2, g3, name, hline, -⟩
      rw [htok] at hline
      exact hpart (List.cons.inj hline).1
  · rename_i hfields
    simp only [reduceCtorEq, false_iff]
    rintro ⟨g1, g2, g3, name, hline, -⟩
    exact hfields _ _ _ _ hline

/-- The lines that the scan reads in a part of this type, start and size. -/
def tableOf (env : Env) (typ : Nat) (s size : Int) : List Bytes :=
  if typ ≠ 0x39 ∨ size < 2 * 512 then []
  else
    match env.read (vlong (s + 512)) with
    | .ok p => tableLines p
    | .error _ => []

theorem readSector_eq_ok {env : Env} {off : Int} {msg : String} {p : Bytes} :
    readSector env off msg = .ok p ↔ env.read off = .ok p ∧ p.length = 512 := by
  simp only [readSector, bind_eq_ok]
  constructor
  · rintro ⟨b, hread, hlen⟩
    split at hlen
    · rename_i hb
      obtain rfl := Except.ok.inj hlen
      exact ⟨hread, hb⟩
    · exact absurd hlen (by simp)
  · rintro ⟨hread, hlen⟩
    exact ⟨p, hread, if_pos hlen⟩

/-- The scan of one part is the loop over its lines. -/
theorem addTable_eq_ok {env : Env} {parts parts' : List Part} {i : Nat}
    {pp : Part} (hi : parts[i]? = some pp)
    (h : addTable env parts i = .ok parts') :
    (tableOf env pp.typ pp.s pp.size).foldlM (addLine env i pp) parts =
      .ok parts' := by
  simp only [addTable, hi] at h
  unfold tableOf
  split at h
  · rename_i hskip
    rw [if_pos hskip]
    exact h
  · rename_i hscan
    rw [bind_eq_ok] at h
    obtain ⟨p, hread, hlines⟩ := h
    rw [readSector_eq_ok] at hread
    rw [if_neg hscan, hread.1]
    exact hlines

/-! ## The entries of the MBR, run -/

/-- What the scan of the used entries has put after `data`. -/
structure MbrTable (p : Bytes) (size : Int) (used : List Nat)
    (mbr : List Part) : Prop where
  rows : mbr.map row = used.map (mbrRow p)
  admitted : Interval.Admitted Part.s Part.e mbr
  inside : ∀ q ∈ mbr, q.e ≤ size

theorem MbrTable.snoc {env : Env} {p : Bytes} {size : Int} {used : List Nat}
    {mbr : List Part} (h : MbrTable p size used mbr) {data : Part} {i n : Nat}
    {name : Bytes}
    (hcheck : partcheck (mbrStart p i) (mbrEnd p i) (data :: mbr) size =
      .ok ()) :
    MbrTable p size (used ++ [i]) (mbr ++ [mbrPart env p n name i]) := by
  obtain ⟨hend, -, htest⟩ := partcheck_eq_ok.mp hcheck
  exact
    { rows := by
        rw [List.map_append, List.map_append, h.rows]
        rfl
      admitted := by
        refine List.pairwise_append.mpr
          ⟨h.admitted, List.pairwise_singleton _ _, ?_⟩
        intro q hq new hnew
        obtain rfl := List.mem_singleton.mp hnew
        exact htest q hq
      inside := by
        intro q hq
        rcases List.mem_append.mp hq with hold | hnew
        · exact h.inside q hold
        · obtain rfl := List.mem_singleton.mp hnew
          exact hend }

/-- The first pass, when it returns. -/
theorem mbr_run {env : Env} {p : Bytes} {size : Int} {data : Part}
    {parts : List Part}
    (h : (List.range 4).foldlM (addMbr env size p) [data] = .ok parts) :
    ∃ mbr, parts = data :: mbr ∧ MbrTable p size (mbrUsed p) mbr := by
  refine foldlM_ok (motive := fun done parts => ∃ mbr, parts = data :: mbr ∧
    MbrTable p size (done.filter fun i => mbrTyp p i ≠ 0) mbr) _ ?_ ?_ h
  · rintro done parts i parts' ⟨mbr, rfl, hmbr⟩ hstep
    rw [List.filter_append]
    obtain ⟨-, ⟨hzero, rfl⟩ | ⟨hused, name, -, hcheck, rfl⟩⟩ :=
      addMbr_eq_ok.mp hstep
    · refine ⟨mbr, rfl, ?_⟩
      have hskip : [i].filter (fun i => mbrTyp p i ≠ 0) = [] := by
        simp [hzero]
      rwa [hskip, List.append_nil]
    · refine ⟨_, rfl, ?_⟩
      have htake : [i].filter (fun i => mbrTyp p i ≠ 0) = [i] := by
        simp [hused]
      rw [htake]
      exact hmbr.snoc hcheck
  · exact ⟨[], rfl, ⟨rfl, List.Pairwise.nil, by simp⟩⟩

/-! ## The tables inside the parts, run -/

/-- The end of a part is not its start plus its size. -/
def Torn (q : Part) : Prop := q.e ≠ q.s + q.size

/-- A line's end is rebased by the end of the enclosing part, its start by the
start. -/
theorem linePart_torn {env : Env} {pp : Part} (hend : pp.e = pp.s + pp.size)
    (hsize : 0 < pp.size ∧ pp.size < 2 ^ 41) (n : Nat) (name : Bytes)
    (a b : Int) : Torn (linePart env pp n name a b) := by
  simp only [Torn, linePart, hend]
  unfold vlong
  omega

/-- The loop over the lines of one part, when it returns. -/
theorem lines_run {env : Env} {i : Nat} {pp : Part} {lines : List Bytes}
    {parts parts' : List Part} (hend : pp.e = pp.s + pp.size)
    (hsize : 0 < pp.size ∧ pp.size < 2 ^ 41)
    (h : lines.foldlM (addLine env i pp) parts = .ok parts') :
    ∃ subs, parts' = parts ++ subs ∧ subs.length = lines.length ∧
      ∀ q ∈ subs, Torn q := by
  refine foldlM_ok (motive := fun done parts' => ∃ subs,
    parts' = parts ++ subs ∧ subs.length = done.length ∧ ∀ q ∈ subs, Torn q)
    _ ?_ ⟨[], by simp, rfl, by simp⟩ h
  rintro done parts1 line parts2 ⟨subs, rfl, hlen, htorn⟩ hstep
  obtain ⟨f1, f2, f3, name, -, -, -, -, rfl⟩ := addLine_eq_ok.mp hstep
  refine ⟨_, List.append_assoc _ _ _, ?_, ?_⟩
  · simp only [List.length_append, List.length_singleton, hlen]
  · intro q hq
    rcases List.mem_append.mp hq with hold | hnew
    · exact htorn q hold
    · obtain rfl := List.mem_singleton.mp hnew
      exact linePart_torn hend hsize _ _ _ _

/-- The lines read in a part. -/
def partTable (env : Env) (q : Part) : List Bytes :=
  tableOf env q.typ q.s q.size

theorem tableOf_ne_nil {env : Env} {typ : Nat} {s size : Int}
    (h : tableOf env typ s size ≠ []) : typ = 0x39 ∧ 1024 ≤ size := by
  unfold tableOf at h
  split at h
  · exact absurd rfl h
  · omega

/-- One step of the second pass, at the part after `front`. -/
theorem addTable_run {env : Env} {data q : Part} {front back subs : List Part}
    {parts : List Part} (hq : q.e = q.s + q.size ∧ q.size < 2 ^ 41)
    (h : addTable env (data :: (front ++ q :: back) ++ subs)
      (front.length + 1) = .ok parts) :
    ∃ new, parts = data :: (front ++ q :: back) ++ subs ++ new ∧
      new.length = (partTable env q).length ∧ ∀ r ∈ new, Torn r := by
  have hget : (data :: (front ++ q :: back) ++ subs)[front.length + 1]? =
      some q := by
    simp
  have hlines := addTable_eq_ok hget h
  by_cases hnone : partTable env q = []
  · unfold partTable at hnone
    rw [hnone] at hlines
    obtain rfl := Except.ok.inj hlines
    exact ⟨[], (List.append_nil _).symm, by simp [partTable, hnone], by simp⟩
  · have hsize := (tableOf_ne_nil hnone).2
    exact lines_run hq.1 ⟨by omega, hq.2⟩ hlines

private theorem tables_run_from {env : Env} {data : Part}
    (back : List Part) (front subs : List Part) {parts : List Part}
    (hback : ∀ q ∈ back, q.e = q.s + q.size ∧ q.size < 2 ^ 41)
    (h : (List.range' (front.length + 1) back.length).foldlM (addTable env)
      (data :: (front ++ back) ++ subs) = .ok parts) :
    ∃ new, parts = data :: (front ++ back) ++ subs ++ new ∧
      new.length = (back.map fun q => (partTable env q).length).sum ∧
      ∀ r ∈ new, Torn r := by
  induction back generalizing front subs with
  | nil =>
      obtain rfl := Except.ok.inj h
      exact ⟨[], (List.append_nil _).symm, rfl, by simp⟩
  | cons q back ih =>
      rw [List.length_cons, List.range'_succ, List.foldlM_cons, bind_eq_ok] at h
      obtain ⟨parts1, hstep, hrest⟩ := h
      obtain ⟨new1, rfl, hlen1, htorn1⟩ :=
        addTable_run (hback q List.mem_cons_self) hstep
      have hshape : data :: (front ++ q :: back) ++ subs ++ new1 =
          data :: ((front ++ [q]) ++ back) ++ (subs ++ new1) := by
        simp
      have hpos : front.length + 1 + 1 = (front ++ [q]).length + 1 := by simp
      rw [hshape, hpos] at hrest
      obtain ⟨new2, rfl, hlen2, htorn2⟩ := ih (front ++ [q]) (subs ++ new1)
        (fun r hr => hback r (List.mem_cons_of_mem _ hr)) hrest
      refine ⟨new1 ++ new2, by simp, ?_, ?_⟩
      · rw [List.length_append, List.map_cons, List.sum_cons, hlen1, hlen2]
      · intro r hr
        exact (List.mem_append.mp hr).elim (htorn1 r) (htorn2 r)

/-- The second pass, when it returns: the parts it appends, in number as many
as the parts before hold lines. -/
theorem tables_run {env : Env} {data : Part} {mbr parts : List Part}
    (hmbr : ∀ q ∈ mbr, q.e = q.s + q.size ∧ q.size < 2 ^ 41)
    (h : (List.range' 1 mbr.length).foldlM (addTable env) (data :: mbr) =
      .ok parts) :
    ∃ subs, parts = data :: mbr ++ subs ∧
      subs.length = (mbr.map fun q => (partTable env q).length).sum ∧
      ∀ q ∈ subs, Torn q := by
  obtain ⟨subs, rfl, hlen, htorn⟩ := tables_run_from mbr [] [] hmbr
    (by simpa using h)
  exact ⟨subs, by simp, hlen, htorn⟩

/-! ## The whole scan -/

/-- The lines read in entry `i`. -/
def entryTable (env : Env) (p : Bytes) (i : Nat) : List Bytes :=
  tableOf env (mbrTyp p i) (mbrStart p i) (mbrSize p i)

theorem MbrTable.ranges {p : Bytes} {size : Int} {used : List Nat}
    {mbr : List Part} (h : MbrTable p size used mbr) {q : Part}
    (hq : q ∈ mbr) : ∃ i ∈ used, row q = mbrRow p i := by
  have hrow : row q ∈ used.map (mbrRow p) := h.rows ▸ List.mem_map_of_mem hq
  obtain ⟨i, hi, heq⟩ := List.mem_map.mp hrow
  exact ⟨i, hi, heq.symm⟩

theorem MbrTable.sizes {p : Bytes} {size : Int} {used : List Nat}
    {mbr : List Part} (h : MbrTable p size used mbr) :
    ∀ q ∈ mbr, q.e = q.s + q.size ∧ q.size < 2 ^ 41 := by
  intro q hq
  obtain ⟨i, -, hrow⟩ := h.ranges hq
  simp only [row, mbrRow, Prod.mk.injEq] at hrow
  obtain ⟨-, hs, he, hsz⟩ := hrow
  rw [hs, he, hsz]
  exact ⟨rfl, (mbrSize_range p i).2⟩

/-- A function of the rows does not tell the parts from the entries. -/
theorem MbrTable.map_row {p : Bytes} {size : Int} {used : List Nat}
    {mbr : List Part} (h : MbrTable p size used mbr) {β : Type}
    (g : Nat × Int × Int × Int → β) :
    (mbr.map fun q => g (row q)) = used.map fun i => g (mbrRow p i) := by
  have hmap := congrArg (List.map g) h.rows
  rwa [List.map_map, List.map_map] at hmap

/-- Nor does a relation between rows. -/
theorem MbrTable.pairwise_iff {p : Bytes} {size : Int} {used : List Nat}
    {mbr : List Part} (h : MbrTable p size used mbr)
    (R : Nat × Int × Int × Int → Nat × Int × Int × Int → Prop) :
    (mbr.Pairwise fun q r => R (row q) (row r)) ↔
      used.Pairwise fun i j => R (mbrRow p i) (mbrRow p j) := by
  rw [← List.pairwise_map, h.rows, List.pairwise_map]

theorem MbrTable.length {p : Bytes} {size : Int} {used : List Nat}
    {mbr : List Part} (h : MbrTable p size used mbr) :
    mbr.length = used.length := by
  have hrows := congrArg List.length h.rows
  rwa [List.length_map, List.length_map] at hrows

/-- The table of a scan that returned: `data`, the used entries of the MBR, and
one part for each line of their tables. -/
structure Scan (env : Env) (data : Part) (size : Int) (p : Bytes)
    (mbr subs tbl : List Part) : Prop where
  sector : env.read 0 = .ok p ∧ p.length = 512
  table : tbl = data :: mbr ++ subs
  entries : MbrTable p size (mbrUsed p) mbr
  lines : subs.length =
    ((mbrUsed p).map fun i => (entryTable env p i).length).sum
  torn : ∀ q ∈ subs, Torn q

theorem partinit_eq_ok {env : Env} {data : Part} {size : Int}
    {tbl : List Part} (h : partinit env data size = .ok tbl) :
    ∃ p mbr subs, Scan env data size p mbr subs tbl := by
  simp only [partinit, bind_eq_ok] at h
  obtain ⟨p, hread, h⟩ := h
  split at h
  · exact absurd h (by simp)
  · rw [bind_eq_ok] at h
    obtain ⟨parts, hfirst, hsecond⟩ := h
    obtain ⟨mbr, rfl, hmbr⟩ := mbr_run hfirst
    obtain ⟨subs, rfl, hlen, htorn⟩ := tables_run hmbr.sizes (by simpa using hsecond)
    exact ⟨p, mbr, subs,
      { sector := readSector_eq_ok.mp hread
        table := rfl
        entries := hmbr
        lines := by
          rw [hlen]
          exact congrArg List.sum (hmbr.map_row fun r =>
            (tableOf env r.1 r.2.1 r.2.2.2).length)
        torn := htorn }⟩

end Kirkwood.Ports.PartTable
