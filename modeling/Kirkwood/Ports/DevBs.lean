import Kirkwood.Ports.BlockStoreIo
import Kirkwood.Ports.DiskRegistry
import Kirkwood.Ports.StoreChan

/-!
# The operations of the block-store device

`devbs.c` serves the stores that drivers register with `blockstoreadd`.  An operation
finds its store in `bs.disks` and its partition in `d->parts`, by the numbers in the
qid of its channel.

The routines of the kernel that walk, stat, open and list get the entries of a
directory from `bsgen`.  They are not in the repository; such a routine is a tree of
the questions it asks, with what it makes of each answer.

Operations run alone but for `bsopen` of a partition, the only one that writes with
its locks taken for reading: it is two steps, up to the end of `devopen` and from
there.  Until it is over, no one gets the locks it holds for writing.
-/

namespace Kirkwood.Ports.DevBs

open Kirkwood.Verified.CInt
open Kirkwood.Verified.ByteMem
open Kirkwood.Verified.Outcome
open Kirkwood.Ports.BlockStore
open Kirkwood.Ports.DiskRegistry (Registry Heap getcell blockstoreadd)
open Kirkwood.Ports.BlockStoreIo (xfer bounceCount)
open Kirkwood.Ports.StoreChan (Cmd)
open Kirkwood.Ports.StoreInit (PartM Request newVers realloc1)

/-! ## Qids -/

inductive Qtype where
  | Qdir
  | Qbsctl
  | Qbsevent
  | Qdiskdir
  | Qdiskctl
  | Qdiskdevctl
  | Qdiskevent
  | Qdiskraw
  | Qdiskpart
  deriving DecidableEq, Repr

/-- `QTYPE(path) >= Qdiskdir` -/
def Qtype.ofdisk : Qtype → Bool
  | .Qdir | .Qbsctl | .Qbsevent => false
  | _ => true

/-- The path of a qid: `QTYPE`, `QDISK` and `QPART`. -/
structure Path where
  typ : Qtype
  disk : Nat
  part : Nat
  deriving DecidableEq, Repr

/-- A channel; `aux` is what `Buf.n` says of the answer to a raw command. -/
structure Chan where
  path : Path
  vers : Int
  copen : Bool
  aux : Option Int
  deriving DecidableEq, Repr

/-- The name and the permissions of an entry of `bstab`. -/
def bstab : Qtype → Bytes × Nat
  | .Qdir => (ascii ".", 0o555)
  | .Qbsctl => (ascii "bsctl", 0o660)
  | .Qbsevent => (ascii "bsevent", 0o440)
  | .Qdiskdir => (ascii "xxx", 0o555)
  | .Qdiskctl => (ascii "ctl", 0o660)
  | .Qdiskdevctl => (ascii "devctl", 0o660)
  | .Qdiskevent => (ascii "event", 0o440)
  | .Qdiskraw => (ascii "raw", 0o660)
  | .Qdiskpart => (ascii "xxx", 0o660)

/-! ## Memory -/

/-- A routine of the driver.  A pointer to a store is its index in `bs.disks`, a pointer
to a partition its index in `d->parts`. -/
abbrev BsM := EStateM Exn Registry

section
variable {α : Type}

/-- A routine that does not return. -/
def stop (e : Exn) : BsM α := fun r => .error e r

/-- `error(msg)` -/
def raise (msg : String) : BsM α := stop (.error msg)

/-- What a routine of the kernel or of a driver gives. -/
def device : Except String α → BsM α
  | .ok a => pure a
  | .error msg => raise msg

/-- The store at index `k` is `d` now. -/
def put (r : Registry) (k : Nat) (d : Store) : Registry :=
  { r with disks := r.disks.set k (some d) }

/-- `bs.disks[i]` -/
def cell (i : Nat) : BsM (Option Nat) := fun r =>
  match getcell r.disks i with
  | .ok d => .ok (d.map fun _ => i) r
  | .error e => .error e r

/-- `*d` -/
def store (k : Nat) : BsM Store := fun r =>
  match r.disks[k]? with
  | some (some d) => .ok d r
  | _ => .error .fault r

/-- Writes to fields of `*d`. -/
def update (k : Nat) (f : Store → Store) : BsM Unit := do
  let d ← store k
  modify fun r => put r k (f d)

/-- `*p`, for `p` into the table of store `k`. -/
def getpart (k i : Nat) : BsM Part := do
  let d ← store k
  match d.parts[i]? with
  | some p => pure p
  | none => stop .fault

/-- Writes to fields of `*p`. -/
def setpart (k i : Nat) (f : Part → Part) : BsM Unit := do
  let _ ← getpart k i
  update k fun d => { d with parts := d.parts.modify i f }

/-- A routine of `part.c` that is given `&d->parts`. -/
def onparts (k : Nat) (x : PartM α) : BsM α := do
  let d ← store k
  match x d.parts with
  | .ok a parts => do
      modify fun r => put r k { d with parts := parts }
      pure a
  | .error e parts => do
      modify fun r => put r k { d with parts := parts }
      stop e

/-- `if(waserror())` and what follows it. -/
def waserror (x : BsM α) (handler : String → BsM α) : BsM α := fun r =>
  match x r with
  | .error (.error msg) r' => handler msg r'
  | out => out

end

/-! ## Stores and partitions -/

def diskget (num : Int) : BsM (Option Nat) := fun r =>
  match DiskRegistry.diskget r num with
  | .ok d => .ok (d.map fun _ => num.toNat) r
  | .error e => .error e r

def diskgetlock (num : Nat) : BsM Nat := do
  match ← diskget num with
  | some k => pure k
  | none => raise Enodisk

/-- The result is a pointer; the entry itself is not read. -/
def xpartget (k i : Nat) : BsM Nat := do
  let d ← store k
  if d.ready = 0 then raise Enodisk
  else if i ≥ d.nparts then raise Enopart
  else pure i

/-- What the registration of a driver says of its controller and disk, at one call. -/
structure Driver where
  init : Except String Unit
  req : Request
  /-- `d->io` transfers or raises. -/
  reads : ∀ off e, req.dev.env.read off = .error e → ∃ msg, e = .error msg

/-- `d->nparts = partinit(d->io, d, d->size, &d->parts)` -/
def scan (v : Driver) (k : Nat) (size : Int) : BsM Unit := do
  let n ← onparts k (StoreInit.partinit v.req.dev.env v.req.junk size)
  update k fun d => { d with nparts := n }

/-- `diskinit`, from its call of `devinit` on. -/
def diskfill (v : Driver) (k : Nat) : BsM Unit := do
  device v.req.dev.devinit
  let d ← store k
  if band d.size d.alignmask ≠ 0 then raise "misaligned size"
  else do
    update k fun d => { d with parts := realloc1 v.req d.parts }
    setpart k 0 fun _ => partdata v.req.dev.env.eve d.size
    update k fun d => { d with nparts := 1, ready := 1 }
    waserror (scan v k d.size) fun _ => pure ()

/-- `devinit` has set the size when it ends. -/
def diskinit (v : Driver) (k : Nat) : BsM Unit := do
  update k fun d => { d with ready := 0, nparts := 0, vers := newVers d }
  update k fun d => { d with size := v.req.dev.size }
  diskfill v k

/-- `CMpartinit` of `bswrite` -/
def ctlPartinit (v : Driver) (k : Nat) : BsM Unit := do
  let d ← store k
  if d.ready = 0 then raise Enodisk
  else do
    update k fun d => { d with parts := realloc1 v.req d.parts }
    update k fun d => { d with nparts := 1, vers := newVers d }
    scan v k d.size

/-- Who calls; `permit` is what `devpermcheck` says of an owner, permissions and a
mode. -/
structure User where
  eve : Bool
  permit : Bytes → Nat → Bool → Bool

def devpermcheck (who : User) (p : Part) (iswrite : Bool) : BsM Unit :=
  if who.permit p.uid p.perm iswrite then pure () else raise Eperm

/-- `if(!iseve())`: the permissions of `data`. -/
def datacheck (who : User) (k : Nat) (iswrite : Bool) : BsM Unit :=
  if who.eve then pure ()
  else do
    let i ← xpartget k 0
    let p ← getpart k i
    devpermcheck who p iswrite

/-- `io`, without the buffers; `dio` is what `d->io` gives. -/
def io (dio : Bool → Int → Int → Except String Int) (k i : Nat) (iswrite : Bool)
    (n off : Int) : BsM Int := do
  let d ← store k
  if d.ready = 0 then raise Enodisk
  else if off < 0 ∨ n < 0 then raise Ebadarg
  else if iswrite ∧ (band off d.alignmask ≠ 0 ∨ band n d.alignmask ≠ 0) then
    raise Ebadalign
  else do
    let p ← getpart k i
    let x := xfer d p n off
    let xn ← device (dio iswrite x.xn x.xs)
    pure (if x.xs ≠ x.s ∨ x.xn ≠ x.n then bounceCount x xn else xn)

/-! ## Directories -/

/-- What `devdir` is told. -/
structure Dir where
  path : Path
  name : Bytes
  length : Int
  uid : Bytes
  perm : Nat
  deriving DecidableEq, Repr

/-- The results -1, 0 and 1 of `bsgen`. -/
inductive Answer where
  | none
  | skip
  | found (dir : Dir)
  deriving DecidableEq, Repr

/-- The file of type `t` from `bstab`. -/
def tabled (eve : Bytes) (t : Qtype) (num : Nat) : Answer :=
  .found ⟨⟨t, num, 0⟩, (bstab t).1, 0, eve, (bstab t).2⟩

/-- `bsgen`, not for `..` -/
def bsgen (eve : Bytes) (path : Path) (i : Nat) : BsM Answer :=
  if path.typ.ofdisk then do
    match ← diskget path.disk with
    | none => pure .none
    | some k => do
        let d ← store k
        if d.ready = 0 ∧ path.typ = .Qdiskpart then pure .none
        else
          match i with
          | 0 => pure (tabled eve .Qdiskctl d.num.toNat)
          | 1 => pure (tabled eve .Qdiskdevctl d.num.toNat)
          | 2 => pure (tabled eve .Qdiskevent d.num.toNat)
          | 3 => pure (tabled eve .Qdiskraw d.num.toNat)
          | i + 4 =>
              if i ≥ d.nparts then pure .none
              else do
                let p ← getpart k i
                pure (.found ⟨⟨.Qdiskpart, d.num.toNat, i⟩, p.name, p.size, p.uid, p.perm⟩)
  else
    match i with
    | 0 => pure (tabled eve .Qbsctl 0)
    | 1 => pure (tabled eve .Qbsevent 0)
    | i + 2 => do
        let r ← get
        if i > r.maxdisk then pure .none
        else
          match ← diskget i with
          | none => pure .skip
          | some k => do
              let d ← store k
              pure (.found
                ⟨⟨.Qdiskdir, d.num.toNat, 0⟩, d.name, 0, eve, (bstab .Qdiskdir).2⟩)

/-- `bsgen` for `DEVDOTDOT` -/
def bsgenup (eve : Bytes) (path : Path) : BsM Answer :=
  match path.typ with
  | .Qdir | .Qdiskdir => pure (tabled eve .Qdir 0)
  | _ => stop (.panic "devdotdot on non-dir qid.path")

/-- A routine of the kernel that asks `bsgen`. -/
inductive Query (α : Type) where
  | done (out : Except String α)
  | gen (path : Path) (i : Nat) (next : Answer → Query α)
  | dotdot (path : Path) (next : Answer → Query α)

section
variable {α : Type}

/-- It asks for `..` in directories only. -/
def Query.Proper : Query α → Prop
  | .done _ => True
  | .gen _ _ next => ∀ a, (next a).Proper
  | .dotdot path next =>
      (path.typ = .Qdir ∨ path.typ = .Qdiskdir) ∧ ∀ a, (next a).Proper

def Query.run (eve : Bytes) : Query α → BsM α
  | .done out => device out
  | .gen path i next => do
      let a ← bsgen eve path i
      (next a).run eve
  | .dotdot path next => do
      let a ← bsgenup eve path
      (next a).run eve

/-- `devwalk`, `devstat`, `devopen` or `devdirread`, with `eve`. -/
structure Routine (α : Type) where
  eve : Bytes
  query : Query α
  proper : query.Proper

/-- The routine, which is not called when the store of the path is not there. -/
def listed (path : Path) (q : Routine α) : BsM α :=
  if path.typ.ofdisk then do
    let _ ← diskgetlock path.disk
    q.query.run q.eve
  else q.query.run q.eve

end

/-! ## The operations -/

def bsinitturn (devs : Nat → Driver) (i : Nat) : BsM Unit := do
  match ← diskget i with
  | none => pure ()
  | some k => do
      let d ← store k
      if d.ready ≠ 0 then pure ()
      else
        waserror (do
            device (devs k).init
            diskinit (devs k) k)
          fun _ => pure ()

def bsinit (devs : Nat → Driver) : BsM Unit := do
  let r ← get
  forM (List.range (r.maxdisk + 1)) (bsinitturn devs)

/-- The qids that a walk has passed. -/
def bswalk (c : Chan) (devwalk : Routine (List Path)) : BsM (List Path) :=
  listed c.path devwalk

def bsstat (c : Chan) (devstat : Routine Int) : BsM Int :=
  listed c.path devstat

/-- A `bsopen` of a partition behind its `devopen`; whether `p` is nil. -/
structure Opening where
  disk : Nat
  part : Nat
  nilp : Bool
  deriving DecidableEq, Repr

/-- How `bsopen` goes on: with a channel, or with the rest of an open of a partition. -/
inductive Opened where
  | chan (c : Chan)
  | counting (o : Opening)

def bsopen (c : Chan) (devopen : Routine Unit) : BsM Opened :=
  match c.path.typ with
  | .Qdir | .Qbsctl | .Qbsevent => do
      listed c.path devopen
      pure (.chan { c with copen := true })
  | .Qdiskpart => do
      let k ← diskgetlock c.path.disk
      let i ← xpartget k c.path.part
      let p ← getpart k i
      if p.index = 0 then do
        devopen.query.run devopen.eve
        pure (.counting ⟨k, i, true⟩)
      else if p.isopen ≠ 0 then raise Einuse
      else do
        devopen.query.run devopen.eve
        pure (.counting ⟨k, i, false⟩)
  | _ => do
      let k ← diskgetlock c.path.disk
      devopen.query.run devopen.eve
      let d ← store k
      pure (.chan { c with vers := d.vers, copen := true })

/-- The rest of `bsopen`; the result is the version for the qid. -/
def bsopencount (o : Opening) : BsM Int := do
  if o.nilp then stop .fault
  else setpart o.disk o.part fun p => { p with isopen := p.isopen + 1 }
  let d ← store o.disk
  pure d.vers

def Eshortstat : String := "Eshortstat"
def Ebadusefd : String := "Ebadusefd"

/-- What `convM2D` finds: nothing; or a new owner, new permissions, and whether there is
anything else. -/
structure Wstat where
  short : Bool
  other : Bool
  uid : Option Bytes
  mode : Option Nat

/-- `if(!iseve())`: the permissions of `p`. -/
def partcheck (who : User) (k i : Nat) : BsM Unit :=
  if who.eve then pure ()
  else do
    let p ← getpart k i
    devpermcheck who p true

def bswstat (c : Chan) (who : User) (dir : Wstat) : BsM Unit :=
  if c.path.typ ≠ .Qdiskpart then raise Eperm
  else if dir.short then raise Eshortstat
  else if dir.other then raise Eperm
  else do
    let k ← diskgetlock c.path.disk
    let i ← xpartget k 0
    partcheck who k i
    setpart k i fun p =>
      { p with
        uid := dir.uid.getD p.uid
        perm := (dir.mode.map fun m => m &&& 0o666).getD p.perm }

/-- `bsclose` of an open partition that is not `data`. -/
def closepart (c : Chan) : BsM Unit := do
  let k ← diskgetlock c.path.disk
  let d ← store k
  if c.vers = d.vers then do
    let i ← xpartget k c.path.part
    let p ← getpart k i
    if p.isopen ≠ 1 then stop (.panic "devclose on part.isopen != 1")
    else setpart k i fun p => { p with isopen := 0 }
  else pure ()

def bsclose (c : Chan) : BsM Chan :=
  if c.path.typ = .Qdiskpart ∧ c.copen = true ∧ c.path.part ≠ 0 then do
    closepart c
    pure c
  else pure (if c.path.typ = .Qdiskraw then { c with aux := none } else c)

/-- A line of the text of a control file; types and descriptions of devices are left
out. -/
inductive Line where
  | disk (name : Bytes)
  | readydisk (name : Bytes) (size : Int) (nparts : Nat)
  | size (align : Nat) (size : Int)
  | part (name : Bytes) (s e : Int)
  deriving DecidableEq, Repr

/-- A call of `read`: its arguments, what `devdirread` and `readstr` do, whether
`malloc` has room, and what the device gives. -/
structure Reading where
  who : User
  n : Int
  off : Int
  devdirread : Routine Int
  readstr : List Line → Int
  room : Bool
  rctl : Except String Int
  io : Bool → Int → Int → Except String Int

/-- The lines for the entries `is` of the table. -/
def partlines (k : Nat) : List Nat → BsM (List Line)
  | [] => pure []
  | i :: is => do
      let p ← getpart k i
      let rest ← partlines k is
      pure (.part p.name p.s p.e :: rest)

def bsdevread (c : Chan) (a : Reading) : BsM Int := do
  let k ← diskgetlock c.path.disk
  let d ← store k
  if c.vers ≠ d.vers then raise Estale
  else
    match c.path.typ with
    | .Qdiskctl =>
        if a.room then
          if d.ready ≠ 0 then do
            let parts ← partlines k (List.range' 1 (d.nparts - 1))
            pure (a.readstr (.size (d.alignmask + 1) d.size :: parts))
          else pure (a.readstr [])
        else raise Enomem
    | .Qdiskdevctl => do
        datacheck a.who k false
        device a.rctl
    | .Qdiskpart => do
        let i ← xpartget k c.path.part
        io a.io k i false a.n a.off
    | _ => stop (.panic "bsdevread, qtype unhandled")

/-- The lines for the cells `is` of `bs.disks`. -/
def disklines : List Nat → BsM (List Line)
  | [] => pure []
  | i :: is => do
      match ← cell i with
      | none => disklines is
      | some k => do
          let d ← store k
          let rest ← disklines is
          if d.ready ≠ 0 then pure (.readydisk d.name d.size (d.nparts - 1) :: rest)
          else pure (.disk d.name :: rest)

def bsread (c : Chan) (a : Reading) : BsM Int :=
  match c.path.typ with
  | .Qdir | .Qdiskdir => listed c.path a.devdirread
  | .Qbsctl => do
      let r ← get
      let lines ← disklines (List.range (r.maxdisk + 1))
      pure (a.readstr lines)
  | .Qbsevent | .Qdiskevent => raise "not yet"
  | .Qdiskctl | .Qdiskdevctl | .Qdiskpart => bsdevread c a
  | .Qdiskraw =>
      match c.aux with
      | none => raise "no command executed"
      | some bn =>
          let off := if a.off > bn then bn else a.off
          pure (if off + a.n > bn then bn - off else a.n)

/-- A call of `write`: its arguments, the command in the text for a control file, and
what the device gives; it may not have raw commands. -/
structure Writing where
  who : User
  n : Int
  off : Int
  bscmd : Except String Int
  diskcmd : Except String Cmd
  devs : Nat → Driver
  wctl : Except String Int
  raw : Option (Except String Int)
  io : Bool → Int → Int → Except String Int

/-- The result and the new `c->aux`. -/
def bsdevwrite (c : Chan) (a : Writing) : BsM (Int × Option Int) := do
  let k ← diskgetlock c.path.disk
  let d ← store k
  if c.vers ≠ d.vers then raise Estale
  else
    match c.path.typ with
    | .Qdiskdevctl =>
        if a.off ≠ 0 then raise Ebadarg
        else do
          datacheck a.who k true
          let n ← device a.wctl
          pure (n, c.aux)
    | .Qdiskraw =>
        if d.ready = 0 then raise Enodisk
        else do
          datacheck a.who k true
          match a.raw with
          | none => raise "raw commands not implemented by device"
          | some out => do
              let bn ← device out
              pure (if bn < 0 then bn else a.n, some bn)
    | .Qdiskpart => do
        let i ← xpartget k c.path.part
        let n ← io a.io k i true a.n a.off
        pure (n, c.aux)
    | _ => stop (.panic "bsdevwrite, qtype unhandled")

def bswrite (c : Chan) (a : Writing) : BsM (Int × Option Int) :=
  match c.path.typ with
  | .Qbsctl =>
      if a.who.eve then do
        let num ← device a.bscmd
        match ← diskget num with
        | none => raise Enodisk
        | some k => do
            diskinit (a.devs k) k
            pure (a.n, c.aux)
      else raise Eperm
  | .Qbsevent => raise "not yet"
  | .Qdiskctl => do
      let k ← diskgetlock c.path.disk
      let d ← store k
      if c.vers ≠ d.vers then raise Estale
      else do
        datacheck a.who k true
        match ← device a.diskcmd with
        | .diskinit => diskinit (a.devs k) k
        | .partinit => ctlPartinit (a.devs k) k
        pure (a.n, c.aux)
  | .Qdiskdevctl | .Qdiskraw | .Qdiskpart => bsdevwrite c a
  | .Qdir | .Qdiskdir | .Qdiskevent => raise Ebadusefd

/-! ## The system -/

/-- How the last action ended; `blockstoreadd` may stop the kernel. -/
inductive Ending where
  | returned
  | raised (msg : String)
  | refused (msg : String)
  | broken (e : Exn)
  deriving DecidableEq, Repr

structure State where
  bs : Registry
  opens : List Opening
  ending : Ending

/-- A store as a driver registers it. -/
structure Unready where
  d : Store
  ready : d.ready = 0
  nparts : d.nparts = 0

inductive Act where
  | add (heap : Heap) (d : Unready)
  | init (devs : Nat → Driver)
  | walk (c : Chan) (devwalk : Routine (List Path))
  | stat (c : Chan) (devstat : Routine Int)
  | opening (c : Chan) (devopen : Routine Unit)
  /-- The rest of the open that is entry `j` of `opens`. -/
  | counting (j : Nat)
  | wstat (c : Chan) (who : User) (dir : Wstat)
  | close (c : Chan)
  | read (c : Chan) (a : Reading)
  | write (c : Chan) (a : Writing)

/-- The state after a routine. -/
def ran {α : Type} (s : State) (x : BsM α) (opens : α → List Opening) : State :=
  match x s.bs with
  | .ok a r => ⟨r, opens a, .returned⟩
  | .error (.error msg) r => ⟨r, s.opens, .raised msg⟩
  | .error e r => ⟨r, s.opens, .broken e⟩

def added (s : State) (heap : Heap) (d : Store) : State :=
  match blockstoreadd heap s.bs d with
  | .ok r => { s with bs := r, ending := .returned }
  | .error (.panic msg) => { s with ending := .refused msg }
  | .error e => { s with ending := .broken e }

/-- An open has the lock of the store with number `num`. -/
def held (s : State) (num : Nat) : Bool :=
  s.opens.any fun o => o.disk = num

/-- The locks that an open holds. -/
def waits (s : State) : Act → Bool
  | .add .. | .init .. => !s.opens.isEmpty
  | .opening c _ => c.path.typ = .Qdiskdir && held s c.path.disk
  | .wstat c _ dir =>
      c.path.typ = .Qdiskpart && !dir.short && !dir.other && held s c.path.disk
  | .close c =>
      c.path.typ = .Qdiskpart && c.copen && c.path.part ≠ 0 && held s c.path.disk
  | .write c a =>
      (c.path.typ = .Qbsctl && a.who.eve || c.path.typ = .Qdiskctl) && !s.opens.isEmpty
  | _ => false

/-- The openings after `bsopen` has got so far. -/
def openings (s : State) : Opened → List Opening
  | .chan _ => s.opens
  | .counting o => s.opens ++ [o]

def act (s : State) : Act → Option State
  | .add heap d => some (added s heap d.d)
  | .init devs => some (ran s (bsinit devs) fun _ => s.opens)
  | .walk c devwalk => some (ran s (bswalk c devwalk) fun _ => s.opens)
  | .stat c devstat => some (ran s (bsstat c devstat) fun _ => s.opens)
  | .opening c devopen => some (ran s (bsopen c devopen) (openings s))
  | .counting j =>
      (s.opens[j]?).map fun o => ran s (bsopencount o) fun _ => s.opens.eraseIdx j
  | .wstat c who dir => some (ran s (bswstat c who dir) fun _ => s.opens)
  | .close c => some (ran s (bsclose c) fun _ => s.opens)
  | .read c a => some (ran s (bsread c a) fun _ => s.opens)
  | .write c a => some (ran s (bswrite c a) fun _ => s.opens)

/-- The kernel is up. -/
def up (s : State) : Bool :=
  match s.ending with
  | .returned | .raised _ => true
  | .refused _ | .broken _ => false

def step (s : State) (a : Act) : Option State :=
  if up s = true ∧ waits s a = false then act s a else none

/-- `bs` before the first driver. -/
def boot : State := ⟨DiskRegistry.empty, [], .returned⟩

end Kirkwood.Ports.DevBs
