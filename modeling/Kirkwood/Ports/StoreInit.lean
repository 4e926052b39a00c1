import Mathlib.Algebra.Order.BigOperators.Group.List
import Mathlib.Algebra.Order.Ring.Nat
import Mathlib.Algebra.Group.Action.Defs
import Kirkwood.Verified.Hoare
import Kirkwood.Verified.Trans
import Kirkwood.Ports.PartTableSound

/-!
# A store whose initialisation fails

`partinit` of `part.c` grows the table of a store through `*partsp`, entry by
entry, while the store counts the live entries in `nparts`, which it gets when
`partinit` returns.  Here the table is the memory behind `d->parts`, with what an
error leaves in it: the scan is the one of `PartTable`, statement by statement.

`diskinit` and the `partinit` command first cut the table down to one entry with
`realloc`.  They do not test what it returns.

## Main results

* `scan_spec`: however a scan ends, the first entry is what it was, and after a
  return all entries up to the count are initialised;
* `init_consistent`, `partinit_consistent`: what the two requests leave;
* `run_consistent_iff`: in a run, every request leaves a consistent store exactly when
  each first `realloc` finds room.
-/

namespace Kirkwood.Ports.StoreInit

open Kirkwood.Verified.CInt
open Kirkwood.Verified.ByteMem
open Kirkwood.Verified.Outcome
open Kirkwood.Verified.Hoare
open Kirkwood.Verified.Trans
open Kirkwood.Verified
open Kirkwood.Ports.BlockStore
open Kirkwood.Ports.PartTable (Env byte g32 partname partgenname partcheck readSector
  tableLines)

/-! ## The code -/

/-- The device behind a store, at one initialisation: how `devinit` ends, the
size that it has set then, and what the scan works with. -/
structure Device where
  devinit : Except String Unit
  size : Int
  env : Env

/-- The version goes up before anything else is done. -/
def newVers (d : Store) : Int := long (d.vers + 1)

/-- The fields of a line lie in it, apart from each other, and each takes a byte. -/
def Splits (tokenize : Bytes → List Bytes) : Prop :=
  ∀ line, ((tokenize line).map fun f => max 1 f.length).sum +
    ((tokenize line).length - 1) ≤ line.length

/-- A request: the device behind the store, whether the `realloc` for one entry finds
room, and what an entry of fresh memory holds. -/
structure Request where
  dev : Device
  room : Bool
  junk : Nat → Part
  splits : Splits dev.env.tokenize

/-- A routine on the memory behind `*partsp`; nil is the empty table. -/
abbrev PartM := EStateM Exn (List Part)

def lift {α : Type} (x : Except Exn α) : PartM α := fun parts =>
  match x with
  | .ok a => .ok a parts
  | .error e => .error e parts

/-- The `nparts` first entries. -/
def entries (nparts : Nat) : PartM (List Part) := fun parts =>
  .ok (parts.take nparts) parts

/-- `parts[i]` -/
def entry (i : Nat) : PartM Part := fun parts =>
  match parts[i]? with
  | some p => .ok p parts
  | none => .error .fault parts

/-- A store to fields of `parts[i]`. -/
def set (i : Nat) (f : Part → Part) : PartM Unit := fun parts => .ok () (parts.modify i f)

/-- The memory that `realloc` returns for `n` entries, the old ones copied. -/
def regrown (junk : Nat → Part) (parts : List Part) (n : Nat) : List Part :=
  parts.take n ++ ((List.range (n - parts.length)).map fun k => junk (parts.length + k))

section
variable (env : Env) (junk : Nat → Part)

def partrealloc (np : Nat) : PartM Unit := fun parts =>
  if env.alloc np then .ok () (regrown junk parts (np + 1))
  else .error (.error Enomem) parts

def partclear (i : Nat) : PartM Unit :=
  set i fun p => { p with uid := env.eve, perm := 0o660, isopen := 0 }

/-- Entry `i` of the MBR; the result is the new `nparts`. -/
def mbrEntry (size : Int) (p : Bytes) (nparts i : Nat) : PartM Nat := do
  let o := 446 + i * 16
  partrealloc env junk nparts
  partclear env nparts
  set nparts fun pp => { pp with index := nparts % 256, typ := byte p (o + 0x4) }
  if byte p (o + 0x4) = 0 then pure nparts
  else do
    let parts ← entries nparts
    let name ← lift (partname env.seprint env.fuel parts (byte p (o + 0x4)) i)
    set nparts fun pp => { pp with name := name }
    let s := vlong (g32 p (o + 0x8) * 512)
    let sz := vlong (g32 p (o + 0xc) * 512)
    set nparts fun pp => { pp with s := s, size := sz, e := vlong (s + sz) }
    lift (partcheck s (vlong (s + sz)) parts size)
    pure (nparts + 1)

/-- A line of the table inside part `i`. -/
def tableLine (i nparts : Nat) (line : Bytes) : PartM Nat :=
  match env.tokenize line with
  | [f0, f1, f2, f3] =>
      if f0 = ascii "part" then do
        partrealloc env junk nparts
        partclear env nparts
        set nparts fun pp => { pp with index := nparts % 256 }
        let parts ← entries nparts
        let name ← lift (partgenname env.seprint env.fuel parts f1 f1)
        let s := vlong (vlong (env.strtoull f2) * 512)
        let e := vlong (vlong (env.strtoull f3) * 512)
        set nparts fun pp =>
          { pp with name := name, s := s, e := e, size := vlong (e - s) }
        let q ← entry i
        lift (partcheck s e (parts.drop i) q.size)
        set nparts fun pp => { pp with s := vlong (s + q.s), e := vlong (e + q.e) }
        pure (nparts + 1)
      else lift (.error (.error "bad plan 9 partition table"))
  | _ => lift (.error (.error "bad plan 9 partition table"))

/-- The table inside part `i`, when that is a Plan 9 part. -/
def table (nparts i : Nat) : PartM Nat := do
  let pp ← entry i
  if pp.typ ≠ 0x39 ∨ pp.size < 2 * 512 then pure nparts
  else do
    let p ← lift (readSector env (vlong (pp.s + 512)) "reading plan 9 partition table")
    (tableLines p).foldlM (tableLine env junk i) nparts

def partinit (size : Int) : PartM Nat := do
  let p ← lift (readSector env 0 "reading mbr")
  if byte p 510 ≠ 0x55 ∨ byte p 511 ≠ 0xaa then
    lift (.error (.error "missing mbr signature"))
  else do
    let nparts ← (List.range 4).foldlM (mbrEntry env junk size p) 1
    (List.range' 1 (nparts - 1)).foldlM (table env junk) nparts

end

/-- How a request ended: it returned, with a table; it raised an error before there was
one; or the scan of the disk raised an error. -/
inductive Ending where
  | returned
  | raised (msg : String)
  | unparsed (msg : String)
  deriving DecidableEq, Repr

/-- `realloc(d->parts, sizeof d->parts[0])` -/
def realloc1 (r : Request) (parts : List Part) : List Part :=
  if r.room then regrown r.junk parts 1 else []

/-- `d->nparts = partinit(d->io, d, d->size, &d->parts)`, which may not come back. -/
def scan (r : Request) (d : Store) : Except Exn (Store × Ending) :=
  match partinit r.dev.env r.junk d.size d.parts with
  | .ok nparts parts => .ok ({ d with parts := parts, nparts := nparts }, .returned)
  | .error (.error msg) parts => .ok ({ d with parts := parts }, .unparsed msg)
  | .error e _ => .error e

/-- `diskinit`; `partdata` through nil stores to low memory. -/
def diskinit (r : Request) (d : Store) : Except Exn (Store × Ending) :=
  let d := { d with ready := 0, nparts := 0, vers := newVers d, size := r.dev.size }
  match r.dev.devinit with
  | .error msg => .ok (d, .raised msg)
  | .ok () =>
      if band d.size d.alignmask ≠ 0 then .ok (d, .raised "misaligned size")
      else
        scan r { d with
          parts := (realloc1 r d.parts).modify 0 fun _ => partdata r.dev.env.eve d.size
          nparts := 1
          ready := 1 }

/-- `CMpartinit` of `bswrite`. -/
def ctlPartinit (r : Request) (d : Store) : Except Exn (Store × Ending) :=
  if d.ready = 0 then .ok (d, .raised Enodisk)
  else
    scan r { d with parts := realloc1 r d.parts, nparts := 1, vers := newVers d }

inductive Action where
  | init (r : Request)
  | partinit (r : Request)

def Action.request : Action → Request
  | init r => r
  | partinit r => r

/-- Whether a request gets as far as its `realloc` for one entry. -/
def reaches (d : Store) : Action → Bool
  | .init r =>
      match r.dev.devinit with
      | .ok () => decide (band r.dev.size d.alignmask = 0)
      | .error _ => false
  | .partinit _ => decide (d.ready ≠ 0)

/-- A store, how the last request ended, and whether the memory of its first entry is
what `partdata` has stored to. -/
structure State where
  d : Store
  ending : Ending
  stored : Bool

/-- The first entry is stored to by `diskinit`, and copied by `partinit`. -/
def stores (s : State) (a : Action) : Bool :=
  if reaches s.d a then
    match a with
    | .init r => r.room
    | .partinit r => s.stored && r.room
  else s.stored

def step (s : State) (a : Action) : Option State :=
  let out :=
    match a with
    | .init r => diskinit r s.d
    | .partinit r => ctlPartinit r s.d
  match out with
  | .ok (d, ending) => some ⟨d, ending, stores s a⟩
  | .error _ => none

/-! ## Initialised entries -/

/-- An entry that a scan has made as number `n`: from an entry of the MBR, or from a
line, whose `typ` is what the memory held. -/
inductive Initialised (env : Env) (n : Nat) : Part → Prop where
  | mbr (p : Bytes) (i : Nat) (name : Bytes) :
      Initialised env n (PartTable.mbrPart env p n name i)
  | line (pp : Part) (name : Bytes) (a b : Int) (typ : Nat) :
      Initialised env n { PartTable.linePart env pp n name a b with typ := typ }

theorem Initialised.shut {env : Env} {n : Nat} {p : Part} (h : Initialised env n p) :
    p.isopen = 0 := by
  cases h <;> rfl

theorem Initialised.index {env : Env} {n : Nat} {p : Part} (h : Initialised env n p) :
    p.index = n % 256 := by
  cases h <;> rfl

/-- The first `nparts` entries of the memory are `data` and initialised ones. -/
structure Live (env : Env) (data : Part) (nparts : Nat) (parts : List Part) : Prop where
  first : parts[0]? = some data
  one : 1 ≤ nparts
  filled : nparts ≤ parts.length
  made : ∀ i p, 1 ≤ i → i < nparts → parts[i]? = some p → Initialised env i p

section
variable {env : Env} {junk : Nat → Part} {data : Part} {nparts : Nat} {parts : List Part}

/-- Entries that are not counted are lost. -/
theorem Live.cut (h : Live env data nparts parts) : Live env data 1 parts where
  first := h.first
  one := Nat.le_refl 1
  filled := Nat.le_trans h.one h.filled
  made i p hi hlt := absurd hlt (by omega)

theorem regrown_length (n : Nat) : n ≤ (regrown junk parts n).length := by
  rw [regrown, List.length_append, List.length_take, List.length_map, List.length_range]
  omega

theorem regrown_getElem? {n i : Nat} (hi : i < n) (hp : i < parts.length) :
    (regrown junk parts n)[i]? = parts[i]? := by
  rw [regrown, List.getElem?_append_left (by rw [List.length_take]; omega),
    List.getElem?_take, if_pos hi]

theorem Live.regrown (h : Live env data nparts parts) :
    Live env data nparts (regrown junk parts (nparts + 1)) where
  first := by
    have hone := h.one
    have hfilled := h.filled
    rw [regrown_getElem? (by omega) (by omega), h.first]
  one := h.one
  filled := Nat.le_of_succ_le (regrown_length (nparts + 1))
  made i p hi hlt hp := by
    have hfilled := h.filled
    rw [regrown_getElem? (by omega) (by omega)] at hp
    exact h.made i p hi hlt hp

/-- A store behind the live entries. -/
theorem Live.modify (h : Live env data nparts parts) (f : Part → Part) :
    Live env data nparts (parts.modify nparts f) where
  first := by
    have hone := h.one
    rw [List.getElem?_modify_ne f parts (by omega), h.first]
  one := h.one
  filled := by
    rw [List.length_modify]
    exact h.filled
  made i p hi hlt hp := by
    rw [List.getElem?_modify_ne f parts (by omega)] at hp
    exact h.made i p hi hlt hp

/-- The entry behind the live ones is finished. -/
theorem Live.snoc {q : Part} (h : Live env data nparts parts)
    (hq : parts[nparts]? = some q) (hmade : Initialised env nparts q) :
    Live env data (nparts + 1) parts where
  first := h.first
  one := Nat.le_add_left 1 nparts
  filled := (List.getElem?_eq_some_iff.1 hq).1
  made i p hi hlt hp := by
    by_cases hin : i = nparts
    · rw [hin, hq] at hp
      rw [hin, ← Option.some.inj hp]
      exact hmade
    · exact h.made i p hi (by omega) hp

end

/-! ## The loops of the scan -/

/-- The lines of a table and their newlines are bytes of it. -/
theorem tableLines_sum (p : Bytes) :
    ((tableLines p).map fun line => line.length + 1).sum ≤ p.length := by
  induction p with
  | nil => exact Nat.le_refl 0
  | cons c cs ih =>
      rw [tableLines, List.length_cons]
      split
      · exact Nat.zero_le _
      · split
        · rw [List.map_cons, List.sum_cons, List.length_nil]
          omega
        · cases hlines : tableLines cs with
          | nil => exact Nat.zero_le _
          | cons line lines =>
              rw [hlines, List.map_cons, List.sum_cons] at ih
              rw [List.map_cons, List.sum_cons, List.length_cons]
              omega

/-- Lines of at least ten bytes, from the front of a table: a sector has at most 46. -/
theorem tableLines_front {p : Bytes} (hp : p.length = 512) {done rest : List Bytes}
    (hall : done ++ rest = tableLines p) (hlong : ∀ line ∈ done, 10 ≤ line.length) :
    done.length ≤ 46 := by
  have hsum := tableLines_sum p
  rw [← hall, List.map_append, List.sum_append] at hsum
  have heach : ∀ n ∈ done.map fun line => line.length + 1, 11 ≤ n := by
    intro n hn
    obtain ⟨line, hline, rfl⟩ := List.mem_map.1 hn
    exact Nat.succ_le_succ (hlong line hline)
  have hmany := List.card_nsmul_le_sum _ 11 heach
  rw [List.length_map, smul_eq_mul] at hmany
  omega

theorem tableLines_length {p : Bytes} (hp : p.length = 512)
    (hlong : ∀ line ∈ tableLines p, 10 ≤ line.length) : (tableLines p).length ≤ 46 :=
  tableLines_front hp (List.append_nil _) hlong

/-- A line more, with those before it. -/
theorem forall_append_singleton {P : Bytes → Prop} {done : List Bytes} {line : Bytes}
    (hdone : ∀ l ∈ done, P l) (hline : P line) : ∀ l ∈ done ++ [line], P l := by
  intro l hl
  rcases List.mem_append.1 hl with hl | hl
  · exact hdone l hl
  · rw [List.mem_singleton.1 hl]
    exact hline

section
variable {env : Env} {junk : Nat → Part} {Inv : Nat → List Part → Prop}
variable {R : Exn → List Part → Prop}

theorem lift_rule {α : Type} {P : List Part → Prop} (x : Except Exn α)
    (hR : ∀ e parts, x = .error e → P parts → R e parts) :
    Triple P (lift x) (fun a parts => P parts ∧ x = .ok a) R := by
  intro parts hparts
  unfold lift
  cases x with
  | ok a => exact ⟨hparts, rfl⟩
  | error e => exact hR e parts rfl hparts

/-- A table adds at most 46 entries, when each line that adds one has ten bytes. -/
theorem table_rule {nparts i : Nat}
    (hentry : Triple (Inv nparts) (entry i) (fun _ => Inv nparts) R)
    (hread : ∀ off e parts, readSector env off "reading plan 9 partition table" = .error e →
      Inv nparts parts → R e parts)
    (hline : ∀ n line, nparts ≤ n → n ≤ nparts + 46 →
      Triple (Inv n) (tableLine env junk i n line)
        (fun n' parts => Inv n' parts ∧ n' = n + 1 ∧ 10 ≤ line.length) R) :
    Triple (Inv nparts) (table env junk nparts i)
      (fun n parts => Inv n parts ∧ nparts ≤ n ∧ n ≤ nparts + 46) R := by
  unfold table
  refine hentry.bind fun pp => Triple.ite (fun _ => ?_) fun _ => ?_
  · exact Triple.pure fun parts h => ⟨h, Nat.le_refl nparts, Nat.le_add_right nparts 46⟩
  refine (lift_rule _ (hread _)).bind fun p => Triple.fact fun hsector => ?_
  have hp : p.length = 512 := (PartTable.readSector_eq_ok.1 hsector).2
  have hstep : ∀ done line rest n, done ++ line :: rest = tableLines p →
      Triple
        (fun parts => Inv n parts ∧ n = nparts + done.length ∧ ∀ l ∈ done, 10 ≤ l.length)
        (tableLine env junk i n line)
        (fun n parts => Inv n parts ∧ n = nparts + (done ++ [line]).length ∧
          ∀ l ∈ done ++ [line], 10 ≤ l.length) R := by
    intro done line rest n hall
    refine Triple.fact fun hdone => ?_
    have hfront := tableLines_front hp hall hdone.2
    refine (hline n line (by omega) (by omega)).conseq (fun _ h => h) ?_
    rintro n' parts ⟨hinv, hn', hlong⟩
    refine ⟨hinv, ?_, forall_append_singleton hdone.2 hlong⟩
    rw [hn', hdone.1, List.length_append, List.length_singleton, Nat.add_assoc]
  refine (Triple.foldlM (tableLines p) hstep nparts).conseq ?_ ?_
  · exact fun parts h => ⟨h, rfl, nofun⟩
  · rintro n parts ⟨hinv, hn, hlong⟩
    have hmany := tableLines_length hp hlong
    exact ⟨hinv, by omega, by omega⟩

/-- The MBR adds at most four entries, and the tables inside its parts come after these. -/
theorem partinit_rule {size : Int}
    (hread : ∀ e parts, readSector env 0 "reading mbr" = .error e → Inv 1 parts → R e parts)
    (hmissing : ∀ parts, Inv 1 parts → R (.error "missing mbr signature") parts)
    (hmbr : ∀ n p i, n ≤ 4 → Triple (Inv n) (mbrEntry env junk size p n i)
      (fun n' parts => Inv n' parts ∧ n' ≤ n + 1) R)
    (htable : ∀ n i, i < n → n ≤ 143 → Triple (Inv n) (table env junk n i)
      (fun n' parts => Inv n' parts ∧ n ≤ n' ∧ n' ≤ n + 46) R) :
    Triple (Inv 1) (partinit env junk size) (fun n parts => Inv n parts ∧ n ≤ 189) R := by
  unfold partinit
  refine (lift_rule _ hread).bind fun p => Triple.fact fun _ => ?_
  refine Triple.ite (fun _ => hmissing) fun _ => ?_
  have hentries : ∀ done i rest n, done ++ i :: rest = List.range 4 →
      Triple (fun parts => Inv n parts ∧ n ≤ 1 + done.length) (mbrEntry env junk size p n i)
        (fun n parts => Inv n parts ∧ n ≤ 1 + (done ++ [i]).length) R := by
    intro done i rest n hall
    have hlen := congrArg List.length hall
    rw [List.length_append, List.length_cons, List.length_range] at hlen
    refine Triple.fact fun hn => ?_
    refine (hmbr n p i (by omega)).conseq (fun _ h => h) ?_
    rintro n' parts ⟨hinv, hn'⟩
    rw [List.length_append, List.length_singleton]
    exact ⟨hinv, by omega⟩
  have hfour := (Triple.foldlM (List.range 4) hentries 1).conseq
    (fun parts (h : Inv 1 parts) => ⟨h, Nat.le_refl 1⟩) fun _ _ h => h
  refine hfour.bind fun stop => Triple.fact fun hend => ?_
  rw [List.length_range] at hend
  have htables : ∀ done i rest n, done ++ i :: rest = List.range' 1 (stop - 1) →
      Triple (fun parts => Inv n parts ∧ stop ≤ n ∧ n ≤ stop + 46 * done.length)
        (table env junk n i)
        (fun n parts => Inv n parts ∧ stop ≤ n ∧ n ≤ stop + 46 * (done ++ [i]).length)
        R := by
    intro done i rest n hall
    have hlen := congrArg List.length hall
    rw [List.length_append, List.length_cons, List.length_range'] at hlen
    have hi : i < stop := by
      have hmem : i ∈ List.range' 1 (stop - 1) := by
        rw [← hall]
        exact List.mem_append_right done List.mem_cons_self
      have hrange := List.mem_range'_1.1 hmem
      omega
    refine Triple.fact fun hn => ?_
    refine (htable n i (Nat.lt_of_lt_of_le hi hn.1) (by omega)).conseq (fun _ h => h) ?_
    rintro n' parts ⟨hinv, hlo, hn'⟩
    rw [List.length_append, List.length_singleton]
    exact ⟨hinv, by omega, by omega⟩
  refine (Triple.foldlM (List.range' 1 (stop - 1)) htables stop).conseq ?_ ?_
  · exact fun parts h => ⟨h, Nat.le_refl stop, Nat.le_add_right ..⟩
  · rintro n parts ⟨hinv, -, hn⟩
    rw [List.length_range'] at hn
    exact ⟨hinv, by omega⟩

end

/-! ## The statements of the scan -/

/-- The device raises what it does not deliver. -/
def Readable (env : Env) : Prop := ∀ off, Mild (env.read off)

/-- An error leaves the first entry. -/
def Left (env : Env) (data : Part) (e : Exn) (parts : List Part) : Prop :=
  Live env data 1 parts ∧ (Readable env → e.Mild)

/-- The live entries, and the one that is being made. -/
def Making (env : Env) (data : Part) (nparts : Nat) (q : Part) (parts : List Part) : Prop :=
  Live env data nparts parts ∧ parts[nparts]? = some q

section
variable {env : Env} {junk : Nat → Part} {data : Part} {nparts : Nat}

theorem readSector_mild (hread : Readable env) (off : Int) (msg : String) :
    Mild (readSector env off msg) :=
  (hread off).bind fun b => (Mild.ok b).ite (Mild.error msg)

theorem genloop_mild (out : PartTable.Seprint) (parts : List Part) (next : Bytes)
    (fuel i : Nat) : Mild (PartTable.genloop out parts next fuel i) := by
  induction fuel generalizing i with
  | zero =>
      intro e h
      obtain rfl := Except.error.inj h
      trivial
  | succ fuel ih =>
      rw [PartTable.genloop]
      exact (Mild.error _).ite ((ih (i + 1)).ite (Mild.ok _))

theorem partgenname_mild (out : PartTable.Seprint) (fuel : Nat) (parts : List Part)
    (first next : Bytes) : Mild (partgenname out fuel parts first next) :=
  (genloop_mild out parts next fuel 0).ite ((Mild.error _).ite (Mild.ok _))

theorem partname_mild (out : PartTable.Seprint) (fuel : Nat) (parts : List Part)
    (typ i : Nat) : Mild (partname out fuel parts typ i) := by
  unfold partname
  split
  · exact partgenname_mild out fuel parts _ _
  iterate 6 exact partgenname_mild out fuel parts _ _
  · exact Mild.ok _

theorem partcheck_mild (s e : Int) (parts : List Part) (size : Int) :
    Mild (partcheck s e parts size) :=
  (Mild.error _).ite ((Mild.error _).ite ((Mild.error _).ite (Mild.ok ())))

private theorem lift_ok {α : Type} {P : List Part → Prop} (x : Except Exn α)
    (hmild : Readable env → Mild x) (hcut : ∀ parts, P parts → Live env data 1 parts) :
    Triple P (lift x) (fun a parts => P parts ∧ x = .ok a) (Left env data) :=
  lift_rule x fun e parts he hparts => ⟨hcut parts hparts, fun hread => hmild hread e he⟩

private theorem lift_spec {α : Type} {P : List Part → Prop} (x : Except Exn α)
    (hmild : Mild x) (hcut : ∀ parts, P parts → Live env data 1 parts) :
    Triple P (lift x) (fun _ parts => P parts) (Left env data) :=
  (lift_ok x (fun _ => hmild) hcut).conseq (fun _ h => h) fun _ _ h => h.1

private theorem Making.cut {q : Part} {parts : List Part}
    (h : Making env data nparts q parts) : Live env data 1 parts :=
  h.1.cut

private theorem entries_spec {P : List Part → Prop} (n : Nat) :
    Triple P (entries n) (fun _ parts => P parts) (Left env data) :=
  fun _ h => h

private theorem entry_spec {P : List Part → Prop} (i : Nat)
    (hlive : ∀ parts, P parts → i < parts.length) :
    Triple P (entry i) (fun _ parts => P parts) (Left env data) := by
  intro parts hparts
  unfold entry
  rw [List.getElem?_eq_getElem (hlive parts hparts)]
  exact hparts

private theorem partrealloc_spec :
    Triple (Live env data nparts) (partrealloc env junk nparts)
      (fun _ parts => ∃ q, Making env data nparts q parts) (Left env data) := by
  intro parts hparts
  unfold partrealloc
  by_cases halloc : env.alloc nparts = true
  · rw [if_pos halloc]
    have hlt : nparts < (regrown junk parts (nparts + 1)).length := regrown_length _
    exact ⟨_, hparts.regrown, List.getElem?_eq_getElem hlt⟩
  · rw [if_neg halloc]
    exact ⟨hparts.cut, fun _ => trivial⟩

private theorem set_spec (q : Part) (f : Part → Part) :
    Triple (Making env data nparts q) (set nparts f)
      (fun _ => Making env data nparts (f q)) (Left env data) := by
  rintro parts ⟨hlive, hq⟩
  refine ⟨hlive.modify f, ?_⟩
  rw [List.getElem?_modify_eq, hq]
  rfl

private theorem partclear_spec (q : Part) :
    Triple (Making env data nparts q) (partclear env nparts)
      (fun _ => Making env data nparts
        { q with uid := env.eve, perm := 0o660, isopen := 0 }) (Left env data) :=
  set_spec q _

theorem mbrEntry_spec (size : Int) (p : Bytes) (i : Nat) :
    Triple (Live env data nparts) (mbrEntry env junk size p nparts i)
      (fun n parts => Live env data n parts ∧ n ≤ nparts + 1) (Left env data) := by
  unfold mbrEntry
  simp only [PartTable.vlong_mbrStart, PartTable.vlong_mbrSize, PartTable.vlong_mbrEnd]
  refine partrealloc_spec.bind fun _ => Triple.exists fun q => ?_
  refine (partclear_spec q).bind fun _ => (set_spec _ _).bind fun _ => ?_
  refine Triple.ite (fun _ => ?_) fun hused => ?_
  · exact Triple.pure fun parts h => ⟨h.1, Nat.le_succ nparts⟩
  refine (entries_spec nparts).bind fun parts => ?_
  refine (lift_spec _ (partname_mild _ _ _ _ _) fun _ h => h.cut).bind fun name => ?_
  refine (set_spec _ _).bind fun _ => (set_spec _ _).bind fun _ => ?_
  refine (lift_spec _ (partcheck_mild _ _ _ _) fun _ h => h.cut).bind fun _ => ?_
  refine Triple.pure fun parts h => ?_
  exact ⟨h.1.snoc h.2 (.mbr p i name), Nat.le_refl _⟩

/-- A line that adds an entry has the four fields of one. -/
theorem tableLine_spec (hsplits : Splits env.tokenize) {i : Nat} (hi : i < nparts)
    (line : Bytes) :
    Triple (Live env data nparts) (tableLine env junk i nparts line)
      (fun n parts => Live env data n parts ∧ n = nparts + 1 ∧ 10 ≤ line.length)
      (Left env data) := by
  have hbad : Triple (Live env data nparts)
      (lift (.error (.error "bad plan 9 partition table")) : PartM Nat)
      (fun n parts => Live env data n parts ∧ n = nparts + 1 ∧ 10 ≤ line.length)
      (Left env data) :=
    fun parts h => ⟨h.cut, fun _ => trivial⟩
  unfold tableLine
  split
  · next f0 f1 f2 f3 hfields =>
      refine Triple.ite (fun hpart => ?_) fun _ => hbad
      have hlong : 10 ≤ line.length := by
        have hline := hsplits line
        rw [hfields, hpart] at hline
        have hfour : (ascii "part").length = 4 := by decide
        simp only [List.map_cons, List.map_nil, List.sum_cons, List.sum_nil,
          List.length_cons, List.length_nil, hfour] at hline
        omega
      dsimp only
      refine partrealloc_spec.bind fun _ => Triple.exists fun q => ?_
      refine (partclear_spec q).bind fun _ => (set_spec _ _).bind fun _ => ?_
      refine (entries_spec nparts).bind fun parts => ?_
      refine (lift_spec _ (partgenname_mild _ _ _ _ _) fun _ h => h.cut).bind fun name => ?_
      refine (set_spec _ _).bind fun _ => ?_
      refine (entry_spec i fun _ h => Nat.lt_of_lt_of_le hi h.1.filled).bind fun pp => ?_
      refine (lift_spec _ (partcheck_mild _ _ _ _) fun _ h => h.cut).bind fun _ => ?_
      refine (set_spec _ _).bind fun _ => ?_
      refine Triple.pure fun parts h => ⟨h.1.snoc h.2 ?_, rfl, hlong⟩
      exact .line pp name _ _ q.typ
  · exact hbad

/-- An error of the device leaves the first entry. -/
private theorem left_of_readSector {off : Int} {msg : String} {e : Exn} {parts : List Part}
    (he : readSector env off msg = .error e) (h : Live env data nparts parts) :
    Left env data e parts :=
  ⟨h.cut, fun hread => readSector_mild hread off msg e he⟩

theorem table_spec (hsplits : Splits env.tokenize) {i : Nat} (hi : i < nparts) :
    Triple (Live env data nparts) (table env junk nparts i)
      (fun n parts => Live env data n parts ∧ nparts ≤ n ∧ n ≤ nparts + 46)
      (Left env data) := by
  refine table_rule ?_ (fun _ _ _ => left_of_readSector) fun n line hn _ => ?_
  · exact entry_spec i fun _ h => Nat.lt_of_lt_of_le hi h.filled
  · exact tableLine_spec hsplits (Nat.lt_of_lt_of_le hi hn) line

/-- However the scan ends, the first entry stays; when it returns, the entries that it
counts are initialised, and there are fewer than 256. -/
theorem scan_spec (junk : Nat → Part) (hsplits : Splits env.tokenize) (size : Int) :
    Triple (Live env data 1) (partinit env junk size)
      (fun n parts => Live env data n parts ∧ n < 256) (Left env data) := by
  have hscan : Triple (Live env data 1) (partinit env junk size)
      (fun n parts => Live env data n parts ∧ n ≤ 189) (Left env data) :=
    partinit_rule (fun _ _ => left_of_readSector) (fun _ h => ⟨h, fun _ => trivial⟩)
      (fun _ p i _ => mbrEntry_spec size p i) fun _ _ hi _ => table_spec hsplits hi
  exact hscan.conseq (fun _ h => h) fun _ _ h => ⟨h.1, Nat.lt_of_le_of_lt h.2 (by decide)⟩

/-- The scan gets as far as its own first `realloc`, which has room. -/
def Regrows (req : Request) : Prop :=
  ∃ p, readSector req.dev.env 0 "reading mbr" = .ok p ∧ byte p 510 = 0x55 ∧
    byte p 511 = 0xaa ∧ req.dev.env.alloc 1 = true

/-- Without room before it, the scan makes the first entry itself. -/
theorem partinit_nil {req : Request} (h : Regrows req) (size : Int) :
    partinit req.dev.env req.junk size [] =
      partinit req.dev.env req.junk size [req.junk 0] := by
  obtain ⟨p, hread, h510, h511, halloc⟩ := h
  have hlift : ∀ parts, lift (readSector req.dev.env 0 "reading mbr") parts =
      .ok p parts := by
    intro parts
    unfold lift
    rw [hread]
  have hrealloc : partrealloc req.dev.env req.junk 1 [] =
      partrealloc req.dev.env req.junk 1 [req.junk 0] := by
    unfold partrealloc
    rw [if_pos halloc, if_pos halloc]
    rfl
  unfold partinit
  rw [bind_ok (hlift _), bind_ok (hlift _), if_neg (by simp [h510, h511])]
  refine bind_same ?_
  show (([0, 1, 2, 3] : List Nat).foldlM _ 1 : PartM Nat) [] = _
  rw [List.foldlM_cons]
  exact bind_same (bind_same hrealloc)

/-- Without room, and without getting there, it leaves none. -/
theorem partinit_unfilled {req : Request} (h : ¬ Regrows req) (size : Int) :
    ∃ e, partinit req.dev.env req.junk size [] = .error e [] ∧
      (readSector req.dev.env 0 "reading mbr" = .error e ∨ ∃ msg, e = .error msg) := by
  unfold partinit
  cases hread : readSector req.dev.env 0 "reading mbr" with
  | error e => exact ⟨e, bind_error (by rw [lift]), .inl rfl⟩
  | ok p =>
      rw [bind_ok (show lift _ [] = .ok p [] by rw [lift])]
      by_cases hsign : byte p 510 ≠ 0x55 ∨ byte p 511 ≠ 0xaa
      · rw [if_pos hsign]
        exact ⟨_, rfl, .inr ⟨_, rfl⟩⟩
      · rw [if_neg hsign]
        rw [not_or, not_not, not_not] at hsign
        have halloc : ¬ req.dev.env.alloc 1 = true :=
          fun ha => h ⟨p, hread, hsign.1, hsign.2, ha⟩
        refine ⟨.error Enomem, bind_error ?_, .inr ⟨_, rfl⟩⟩
        show (([0, 1, 2, 3] : List Nat).foldlM _ 1 : PartM Nat) [] = _
        rw [List.foldlM_cons]
        refine bind_error (bind_error ?_)
        unfold partrealloc
        rw [if_neg halloc]

/-- A table with a first entry, and initialised ones behind it. -/
def Filled (req : Request) (nparts : Nat) (parts : List Part) : Prop :=
  ∃ data, Live req.dev.env data nparts parts

theorem filled_one {req : Request} {parts : List Part} (h : parts ≠ []) :
    Filled req 1 parts := by
  have hlen := List.length_pos_iff.2 h
  exact ⟨parts[0], List.getElem?_eq_getElem hlen, Nat.le_refl 1, hlen,
    fun i p hi hlt => by omega⟩

/-- However a scan ends that begins with an entry. -/
theorem partinit_filled (req : Request) (size : Int) :
    Triple (· ≠ []) (partinit req.dev.env req.junk size) (Filled req)
      (fun _ => Filled req 1) := by
  refine Triple.conseq (P := fun parts => ∃ data, Live req.dev.env data 1 parts) ?_
    (fun parts hne => filled_one hne) fun _ _ h => h
  refine Triple.exists fun data => ?_
  exact ((scan_spec req.junk req.splits size).conseq (fun _ h => h)
    fun _ _ h => ⟨data, h.1⟩).weaken fun _ _ h => ⟨data, h.1⟩

/-- What it leaves is the table of the store, when it comes back. -/
theorem scan_filled {req : Request} {d : Store} {out : Store × Ending}
    (hone : d.nparts = 1) (h : scan req d = .ok out)
    (hrun : Triple (· = d.parts) (partinit req.dev.env req.junk d.size) (Filled req)
      fun _ => Filled req 1) :
    Filled req out.1.nparts out.1.parts := by
  have hleft := hrun d.parts rfl
  unfold scan at h
  revert h hleft
  cases partinit req.dev.env req.junk d.size d.parts with
  | ok n parts =>
      intro h hfilled
      rw [← Except.ok.inj h]
      exact hfilled
  | error e parts =>
      intro h hfilled
      cases e with
      | error msg =>
          rw [← Except.ok.inj h]
          exact hone ▸ hfilled
      | panic msg => cases h
      | fault => cases h
      | hang => cases h

/-- However a scan ends that comes back, and whatever it begins with. -/
theorem scan_leaves {req : Request} {d : Store} {out : Store × Ending}
    (hone : d.nparts = 1) (h : scan req d = .ok out) :
    (out.1.nparts = 1 ∧ out.1.parts = []) ∨ Filled req out.1.nparts out.1.parts := by
  by_cases hnil : d.parts = []
  · by_cases hregrow : Regrows req
    · refine .inr (scan_filled hone h ?_)
      rintro _ rfl
      rw [hnil, partinit_nil hregrow]
      exact partinit_filled req d.size [req.junk 0] (List.cons_ne_nil _ _)
    · obtain ⟨e, hrun, -⟩ := partinit_unfilled hregrow d.size
      unfold scan at h
      rw [hnil, hrun] at h
      cases e with
      | error msg =>
          rw [← Except.ok.inj h]
          exact .inl ⟨hone, rfl⟩
      | panic msg => cases h
      | fault => cases h
      | hang => cases h
  · refine .inr (scan_filled hone h ?_)
    rintro _ rfl
    exact partinit_filled req d.size d.parts hnil

end

/-! ## A request -/

/-- A store whose last request is over. -/
structure Built (s : State) : Prop where
  ready : s.d.ready = 1
  one : 1 ≤ s.d.nparts
  filled : s.d.nparts ≤ s.d.parts.length
  stored : s.stored = true
  data : ∃ eve, s.d.parts[0]? = some (partdata eve s.d.size)
  aligned : s.d.size % s.d.block = 0
  made : ∀ i p, 1 ≤ i → i < s.d.nparts → s.d.parts[i]? = some p →
    ∃ env, Initialised env i p
  index : ∀ i p, i < s.d.nparts → s.d.parts[i]? = some p → p.index = i
  unparsed : ∀ msg, s.ending = .unparsed msg → s.d.nparts = 1

/-- What the operations on a store rely on. -/
def Consistent (s : State) : Prop :=
  (s.d.ready = 0 ∧ s.d.nparts = 0) ∨ Built s

/-- The block size of a device is a power of two. -/
def Masked (d : Store) : Prop := ∃ k ≤ 64, d.alignmask + 1 = 2 ^ k

/-- A store before its first request, wherever `parts` points. -/
def Start (s : State) : Prop :=
  s.d.ready = 0 ∧ s.d.nparts = 0 ∧ Masked s.d

/-- A request that gets as far as its `realloc` for one entry has room for it. -/
def Roomy (s : State) (a : Action) : Prop :=
  reaches s.d a = true → a.request.room = true

instance (s : State) (a : Action) : Decidable (Roomy s a) :=
  inferInstanceAs (Decidable (_ → _))

/-- The version moves with the rest of the store. -/
def Tracked (s : State) (a : Action) : Prop :=
  ∀ s', step s a = some s' → s'.d = s.d ∨ s'.d.vers ≠ s.d.vers

theorem newVers_ne (d : Store) : newVers d ≠ d.vers := by
  unfold newVers long
  omega

theorem Masked.aligned {d : Store} (h : Masked d) (hmask : band d.size d.alignmask = 0) :
    d.size % d.block = 0 := by
  obtain ⟨k, hk, hd⟩ := h
  have hlow : d.alignmask = 2 ^ k - 1 := Nat.eq_sub_of_add_eq hd
  have hblock : d.block = 2 ^ k := by
    unfold Store.block
    exact_mod_cast hd
  rw [hblock, ← band_low d.size hk, ← hlow, hmask]

section
variable {r : Request} {d : Store} {out : Store × Ending}

theorem Live.built {eve : Bytes} {env : Env} {ending : Ending}
    (h : Live env (partdata eve d.size) d.nparts d.parts) (hready : d.ready = 1)
    (hfew : d.nparts < 256) (haligned : d.size % d.block = 0)
    (hunparsed : ∀ msg, ending = .unparsed msg → d.nparts = 1) :
    Built ⟨d, ending, true⟩ where
  ready := hready
  one := h.one
  filled := h.filled
  stored := rfl
  data := ⟨eve, h.first⟩
  aligned := haligned
  made i p hi hlt hp := ⟨env, h.made i p hi hlt hp⟩
  index i p hlt hp := by
    dsimp only at hlt hp
    rcases Nat.eq_zero_or_pos i with rfl | hi
    · rw [h.first] at hp
      rw [← Option.some.inj hp]
      rfl
    · rw [(h.made i p hi hlt hp).index, Nat.mod_eq_of_lt (Nat.lt_trans hlt hfew)]
  unparsed := hunparsed

/-- A scan of a store with one entry, the data partition. -/
theorem scan_built (eve : Bytes) (hready : d.ready = 1) (hone : d.nparts = 1)
    (haligned : d.size % d.block = 0)
    (hlive : Live r.dev.env (partdata eve d.size) 1 d.parts) (h : scan r d = .ok out) :
    Built ⟨out.1, out.2, true⟩ := by
  have hspec := scan_spec r.junk r.splits d.size d.parts hlive
  unfold scan at h
  cases hrun : partinit r.dev.env r.junk d.size d.parts with
  | ok nparts parts =>
      rw [hrun] at h hspec
      obtain rfl := Except.ok.inj h
      exact hspec.1.built hready hspec.2 haligned nofun
  | error e parts =>
      rw [hrun] at h hspec
      cases e with
      | error msg =>
          obtain rfl := Except.ok.inj h
          have hleft : Live r.dev.env (partdata eve d.size) d.nparts parts := by
            rw [hone]
            exact hspec.1
          exact hleft.built hready (by rw [hone]; decide) haligned fun _ _ => hone
      | panic msg => exact nomatch h
      | fault => exact nomatch h
      | hang => exact nomatch h

/-- A table cut down to one entry, which `partdata` stores to. -/
theorem live_diskinit (env : Env) (parts : List Part) (hroom : r.room = true)
    (data : Part) :
    Live env data 1 ((realloc1 r parts).modify 0 fun _ => data) := by
  have hlen : 1 ≤ (realloc1 r parts).length := by
    rw [realloc1, if_pos hroom]
    exact regrown_length 1
  refine ⟨?_, Nat.le_refl 1, by rwa [List.length_modify], fun i p hi hlt => by omega⟩
  rw [List.getElem?_modify_eq, List.getElem?_eq_getElem hlen]
  rfl

/-- The same table, which holds what it held. -/
theorem live_partinit {eve : Bytes} {env : Env} {s : State} (hroom : r.room = true)
    (h : Built s)
    (hdata : s.d.parts[0]? = some (partdata eve s.d.size)) :
    Live env (partdata eve s.d.size) 1 (realloc1 r s.d.parts) := by
  have hpos : 0 < s.d.parts.length := Nat.lt_of_lt_of_le h.one h.filled
  rw [realloc1, if_pos hroom]
  refine ⟨?_, Nat.le_refl 1, regrown_length 1, fun i p hi hlt => by omega⟩
  rw [regrown_getElem? Nat.one_pos hpos, hdata]

end

/-! ## Runs -/

/-- A store at the start of its initialisation. -/
def reset (r : Request) (d : Store) : Store :=
  { d with ready := 0, nparts := 0, vers := newVers d, size := r.dev.size }

theorem reaches_init {d : Store} {r : Request} :
    reaches d (.init r) = true ↔
      r.dev.devinit = .ok () ∧ band r.dev.size d.alignmask = 0 := by
  cases hdevinit : r.dev.devinit with
  | error msg => simp [reaches, hdevinit]
  | ok u => simp [reaches, hdevinit]

theorem diskinit_cases {d : Store} {r : Request} {out : Store × Ending}
    (h : diskinit r d = .ok out) :
    (reaches d (.init r) = false ∧ ∃ msg, out = (reset r d, .raised msg)) ∨
    (reaches d (.init r) = true ∧
      scan r { reset r d with
        parts := (realloc1 r d.parts).modify 0 fun _ => partdata r.dev.env.eve r.dev.size
        nparts := 1
        ready := 1 } = .ok out) := by
  unfold diskinit at h
  cases hdevinit : r.dev.devinit with
  | error msg =>
      rw [hdevinit] at h
      refine .inl ⟨?_, msg, (Except.ok.inj h).symm⟩
      rw [Bool.eq_false_iff, ne_eq, reaches_init, hdevinit]
      exact fun hok => nomatch hok.1
  | ok u =>
      rw [hdevinit] at h
      dsimp only at h
      by_cases haligned : band r.dev.size d.alignmask = 0
      · rw [if_neg (not_not.2 haligned)] at h
        exact .inr ⟨reaches_init.2 ⟨hdevinit, haligned⟩, h⟩
      · rw [if_pos haligned] at h
        refine .inl ⟨?_, _, (Except.ok.inj h).symm⟩
        rw [Bool.eq_false_iff, ne_eq, reaches_init]
        exact fun hok => haligned hok.2

theorem ctlPartinit_cases {d : Store} {r : Request} {out : Store × Ending}
    (h : ctlPartinit r d = .ok out) :
    (reaches d (.partinit r) = false ∧ out = (d, .raised Enodisk)) ∨
    (reaches d (.partinit r) = true ∧
      scan r { d with parts := realloc1 r d.parts, nparts := 1, vers := newVers d } =
        .ok out) := by
  unfold ctlPartinit at h
  by_cases hready : d.ready = 0
  · rw [if_pos hready] at h
    exact .inl ⟨decide_eq_false (not_not.2 hready), (Except.ok.inj h).symm⟩
  · rw [if_neg hready] at h
    exact .inr ⟨decide_eq_true hready, h⟩

/-- The rest of the store is what it was. -/
theorem scan_keeps {r : Request} {d : Store} {out : Store × Ending}
    (h : scan r d = .ok out) :
    out.1.vers = d.vers ∧ out.1.alignmask = d.alignmask ∧ out.1.ready = d.ready := by
  unfold scan at h
  split at h
  · obtain rfl := Except.ok.inj h
    exact ⟨rfl, rfl, rfl⟩
  · obtain rfl := Except.ok.inj h
    exact ⟨rfl, rfl, rfl⟩
  · exact nomatch h

theorem step_eq_some {s s' : State} {a : Action} (h : step s a = some s') :
    ∃ out : Store × Ending,
      (match a with
        | .init r => diskinit r s.d
        | .partinit r => ctlPartinit r s.d) = .ok out ∧
      s' = ⟨out.1, out.2, stores s a⟩ := by
  unfold step at h
  dsimp only at h
  split at h
  · next d ending hout => exact ⟨(d, ending), hout, (Option.some.inj h).symm⟩
  · exact nomatch h

theorem step_keeps {s s' : State} {a : Action} (h : step s a = some s') :
    s'.d.alignmask = s.d.alignmask ∧ (s'.d = s.d ∨ s'.d.vers = newVers s.d) := by
  obtain ⟨out, hout, rfl⟩ := step_eq_some h
  cases a with
  | init r =>
      obtain ⟨-, msg, rfl⟩ | ⟨-, hscan⟩ := diskinit_cases hout
      · exact ⟨rfl, .inr rfl⟩
      · have hkeeps := scan_keeps hscan
        exact ⟨hkeeps.2.1, .inr hkeeps.1⟩
  | partinit r =>
      obtain ⟨-, rfl⟩ | ⟨-, hscan⟩ := ctlPartinit_cases hout
      · exact ⟨rfl, .inl rfl⟩
      · have hkeeps := scan_keeps hscan
        exact ⟨hkeeps.2.1, .inr hkeeps.1⟩

theorem step_tracked (s : State) (a : Action) : Tracked s a := by
  intro s' h
  rcases (step_keeps h).2 with hsame | hvers
  · exact .inl hsame
  · exact .inr (hvers ▸ newVers_ne s.d)

theorem init_consistent {s s' : State} {r : Request} (hmasked : Masked s.d)
    (hroom : Roomy s (.init r)) (h : step s (.init r) = some s') : Consistent s' := by
  obtain ⟨out, hout, rfl⟩ := step_eq_some h
  obtain ⟨-, msg, rfl⟩ | ⟨hreaches, hscan⟩ := diskinit_cases hout
  · exact .inl ⟨rfl, rfl⟩
  · have hr : r.room = true := hroom hreaches
    have hstores : stores s (.init r) = true := by
      rw [stores, if_pos hreaches, hr]
    have hmasked' : Masked (reset r s.d) := hmasked
    have haligned := hmasked'.aligned (reaches_init.1 hreaches).2
    rw [hstores]
    refine .inr (scan_built r.dev.env.eve ?_ ?_ ?_ ?_ hscan)
    · rfl
    · rfl
    · exact haligned
    · exact live_diskinit _ _ hr _

theorem partinit_consistent {s s' : State} {r : Request} (hs : Consistent s)
    (hroom : Roomy s (.partinit r)) (h : step s (.partinit r) = some s') :
    Consistent s' := by
  obtain ⟨out, hout, rfl⟩ := step_eq_some h
  obtain ⟨hreaches, rfl⟩ | ⟨hreaches, hscan⟩ := ctlPartinit_cases hout
  · have hready : s.d.ready = 0 := not_not.1 (of_decide_eq_false hreaches)
    rcases hs with hs | hs
    · exact .inl hs
    · exact absurd hready (by rw [hs.ready]; decide)
  · have hready : s.d.ready ≠ 0 := of_decide_eq_true hreaches
    rcases hs with hs | hs
    · exact absurd hs.1 hready
    · have hr : r.room = true := hroom hreaches
      have hstores : stores s (.partinit r) = true := by
        rw [stores, if_pos hreaches, hs.stored, hr]
        rfl
      obtain ⟨eve, hdata⟩ := hs.data
      rw [hstores]
      refine .inr (scan_built eve ?_ ?_ ?_ ?_ hscan)
      · exact hs.ready
      · rfl
      · exact hs.aligned
      · exact live_partinit hr hs hdata

/-- Without room nothing has been stored to the first entry. -/
theorem roomy_of_consistent {s s' : State} {a : Action} (h : step s a = some s')
    (hs' : Consistent s') : Roomy s a := by
  intro hreaches
  obtain ⟨out, hout, rfl⟩ := step_eq_some h
  have hready : out.1.ready ≠ 0 := by
    cases a with
    | init r =>
        obtain ⟨hnot, -⟩ | ⟨-, hscan⟩ := diskinit_cases hout
        · exact absurd hreaches (by rw [hnot]; decide)
        · rw [(scan_keeps hscan).2.2]
          exact Int.one_ne_zero
    | partinit r =>
        obtain ⟨hnot, -⟩ | ⟨-, hscan⟩ := ctlPartinit_cases hout
        · exact absurd hreaches (by rw [hnot]; decide)
        · rw [(scan_keeps hscan).2.2]
          exact of_decide_eq_true hreaches
  rcases hs' with hs' | hs'
  · exact absurd hs'.1 hready
  · have hstored : stores s a = true := hs'.stored
    unfold stores at hstored
    rw [if_pos hreaches] at hstored
    cases a with
    | init r => exact hstored
    | partinit r => exact (Bool.and_eq_true_iff.1 hstored).2

/-- After every request of a run the store is consistent exactly when each request that
gets as far as its `realloc` for one entry has room for it; and the version moves with the
table. -/
theorem run_consistent_iff {s : State} (as : List Action) (h : Start s) :
    (AllStates step Consistent s as ↔ AllSteps step Roomy s as) ∧
      AllSteps step Tracked s as := by
  refine ⟨?_, ?_⟩
  · refine allStates_iff_allSteps (I := fun s => Consistent s ∧ Masked s.d)
      (fun s hs => hs.1) ?_ ?_ as ⟨.inl ⟨h.1, h.2.1⟩, h.2.2⟩
    · intro s a s' hs hroom hstep
      have hmasked : Masked s'.d := by
        unfold Masked
        rw [(step_keeps hstep).1]
        exact hs.2
      cases a with
      | init r => exact ⟨init_consistent hs.2 hroom hstep, hmasked⟩
      | partinit r => exact ⟨partinit_consistent hs.1 hroom hstep, hmasked⟩
    · exact fun s a s' _ hstep hs' => roomy_of_consistent hstep hs'
  · exact (allSteps_free s as).imp (I := fun _ => True) (fun _ _ _ _ _ _ => trivial)
      (fun s a _ _ _ _ => step_tracked s a) as trivial

/-! ## Devices -/

def unread : Part where
  index := 0
  typ := 0
  name := []
  s := 0
  e := 0
  size := 0
  uid := []
  perm := 0
  isopen := 0

theorem splits_nothing : Splits fun _ => [] := fun line => Nat.zero_le line.length

/-- A device of two blocks, which cannot be read. -/
def deadDevice (room : Bool) : Request where
  dev :=
    { devinit := .ok ()
      size := 1024
      env :=
        { read := fun _ => .error (.error "io")
          tokenize := fun _ => []
          strtoull := fun _ => 0
          seprint := PartTable.sampleSeprint
          alloc := fun _ => room
          fresh := fun _ => 0
          eve := ascii "eve"
          fuel := 0 } }
  room := room
  junk _ := unread
  splits := splits_nothing

def unused : State where
  d :=
    { vers := 0
      ready := 0
      num := 0
      name := ascii "bs00"
      alignmask := 511
      parts := []
      nparts := 0
      size := 0 }
  ending := .returned
  stored := false

theorem unused_start : Start unused :=
  ⟨rfl, rfl, 9, by decide, rfl⟩

/-- A disk with one partition. -/
def oneMbr : Request where
  dev :=
    { devinit := .ok ()
      size := 4096 * 512
      env :=
        { PartTable.sampleEnv (PartTable.mbrSector [(0x83, 1, 100)]) [] with
          tokenize := fun _ => [] } }
  room := true
  junk _ := unread
  splits := splits_nothing

/-- Between two scans of that disk, one that cannot read it. -/
theorem run_consistent_reread :
    (run step unused [.init oneMbr, .partinit (deadDevice true), .partinit oneMbr]).map
        (fun s => (s.ending, s.d.nparts, s.d.parts.map fun p => p.index)) =
      some (.returned, 2, [0, 1, 2]) ∧
    AllStates step Consistent unused
      [.init oneMbr, .partinit (deadDevice true), .partinit oneMbr] :=
  ⟨by decide +kernel, (run_consistent_iff _ unused_start).1.2 (by decide +kernel)⟩

/-- The device answers that it has blocks, and there is no room for their entry. -/
theorem init_without_room :
    ¬ ∀ s as, Start s → AllStates step Consistent s as := by
  intro h
  have hafter := (h unused [.init (deadDevice false)] unused_start).2
  rcases hafter with hafter | hafter
  · exact absurd hafter.1 (by decide)
  · exact absurd hafter.filled (by decide)

end Kirkwood.Ports.StoreInit
