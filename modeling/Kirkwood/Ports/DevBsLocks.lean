import Kirkwood.Ports.DevBs
import Kirkwood.Verified.Unwind

/-!
# The locks and the handlers of the block-store device

The operations of `devbs.c` again, with the locks they take and the error handlers they
set.  What an operation does to the stores is what it does in `DevBs`; here it stands
between the calls of the routines of the kernel, each of which may raise an error.

A lock is taken in one of two modes.  `bs` is the registry, `d` the store it is the lock
of.  Between two operations of this process others may change the stores, whenever it
waits for a lock.

Where a store is locked by `bsgen` there is no handler, and the handler of the text for
`Qdiskctl` takes off a label and falls through.  The calls at these two places have names
of their own.
-/

namespace Kirkwood.Ports.DevBsLocks

open Kirkwood.Verified.CInt
open Kirkwood.Verified.Outcome
open Kirkwood.Verified.ByteMem
open Kirkwood.Verified.Unwind
open Kirkwood.Ports.BlockStore
open Kirkwood.Ports.DiskRegistry (Registry)
open Kirkwood.Ports.BlockStoreIo (xfer bounceCount)
open Kirkwood.Ports.StoreInit (newVers realloc1)
open Kirkwood.Ports.DevBs (BsM Chan Path Qtype User Driver Query Routine Dir Answer Wstat
  Reading Writing Line bstab tabled Eshortstat Ebadusefd)

/-! ## The process -/

inductive RWlock where
  | bs
  | store (k : Nat)
  deriving DecidableEq, Repr

inductive Mode where
  | Readlock
  | Writelock
  deriving DecidableEq, Repr

/-- The routines called, `mkqid` and `devdir` with a store locked by `bsgen` and `free` in
the handler of `Qdiskctl` apart. -/
inductive Site where
  | mkqid
  | devdir
  | mkqidlocked
  | devdirlocked
  | realloc
  | strcpy
  | print
  | smalloc
  | malloc
  | free
  | freectl
  | memmove
  | seprint
  | readstr
  | convM2D
  | iseve
  | kstrcpy
  | parsecmd
  | atoi
  deriving DecidableEq, Repr

abbrev BsState := State Registry (RWlock × Mode) Site

abbrev BsProc := Proc Registry (RWlock × Mode) Site Exn

section
variable {α : Type}

/-- Work on the stores, which may raise an error. -/
def onbs (x : BsM α) : BsProc α :=
  lift (fun e => match e with
    | .error msg => .inl msg
    | e => .inr e) x

def panic (msg : String) : BsProc α := throw (.stop (.panic msg))

end

/-! ## Stores and partitions -/

def diskget (num : Int) : BsProc (Option Nat) := onbs (DevBs.diskget num)

def diskgetlock (num : Nat) (wl : Mode) : BsProc Nat := do
  lock (.bs, .Readlock)
  match ← diskget num with
  | none => do
      unlock (.bs, .Readlock)
      error Enodisk
  | some k => do
      lock (.store k, wl)
      unlock (.bs, .Readlock)
      pure k

/-- `partinit` of a fresh table, whose errors are printed. -/
def partscan (v : Driver) (k : Nat) (size : Int) : BsProc Unit :=
  waserror
    (do
      call .print
      absorb
      pure (some ()))
    (do
      onbs (DevBs.scan v k size)
      poperror)

/-- `diskinit`, from its call of `devinit` on. -/
def diskfill (v : Driver) (k : Nat) : BsProc Unit := do
  onbs (DevBs.device v.req.dev.devinit)
  let d ← onbs (DevBs.store k)
  if band d.size d.alignmask ≠ 0 then error "misaligned size"
  else do
    call .realloc
    onbs (DevBs.update k fun d => { d with parts := realloc1 v.req d.parts })
    call .strcpy
    onbs (DevBs.setpart k 0 fun _ => partdata v.req.dev.env.eve d.size)
    onbs (DevBs.update k fun d => { d with nparts := 1, ready := 1 })
    partscan v k d.size

def diskinit (v : Driver) (k : Nat) : BsProc Unit := do
  onbs (DevBs.update k fun d => { d with ready := 0, nparts := 0, vers := newVers d })
  onbs (DevBs.update k fun d => { d with size := v.req.dev.size })
  diskfill v k

/-- `if(!iseve())`: the permissions of `data`. -/
def datacheck (who : User) (k : Nat) (iswrite : Bool) : BsProc Unit := do
  call .iseve
  onbs (DevBs.datacheck who k iswrite)

/-- The transfer of `io`, through a buffer of its own if the request is not aligned. -/
def transfer (dio : Bool → Int → Int → Except String Int) (iswrite : Bool)
    (x : BlockStoreIo.Xfer) : BsProc Int :=
  if x.xs ≠ x.s ∨ x.xn ≠ x.n then do
    call .smalloc
    let xn ← owned .free (onbs (DevBs.device (dio iswrite x.xn x.xs)))
    call .memmove
    call .free
    pure (bounceCount x xn)
  else onbs (DevBs.device (dio iswrite x.xn x.xs))

def io (dio : Bool → Int → Int → Except String Int) (k i : Nat) (iswrite : Bool)
    (n off : Int) : BsProc Int := do
  let d ← onbs (DevBs.store k)
  if d.ready = 0 then error Enodisk
  else if off < 0 ∨ n < 0 then error Ebadarg
  else if iswrite ∧ (band off d.alignmask ≠ 0 ∨ band n d.alignmask ≠ 0) then
    error Ebadalign
  else do
    let p ← onbs (DevBs.getpart k i)
    transfer dio iswrite (xfer d p n off)

/-! ## Directories -/

/-- An entry that `mkqid` and `devdir` make. -/
def entry (a : Answer) : BsProc Answer := do
  call .mkqid
  call .devdir
  pure a

/-- An entry with the qid that `bstab` has. -/
def listing (a : Answer) : BsProc Answer := do
  call .devdir
  pure a

/-- `bsgen` below the directory of a disk. -/
def gendisk (eve : Bytes) (path : Path) (i : Nat) : BsProc Answer := do
  match ← diskget path.disk with
  | none => pure .none
  | some k => do
      let d ← onbs (DevBs.store k)
      if d.ready = 0 ∧ path.typ = .Qdiskpart then pure .none
      else
        match i with
        | 0 => entry (tabled eve .Qdiskctl d.num.toNat)
        | 1 => entry (tabled eve .Qdiskdevctl d.num.toNat)
        | 2 => entry (tabled eve .Qdiskevent d.num.toNat)
        | 3 => entry (tabled eve .Qdiskraw d.num.toNat)
        | i + 4 =>
            if i ≥ d.nparts then pure .none
            else do
              let p ← onbs (DevBs.getpart k i)
              entry (.found ⟨⟨.Qdiskpart, d.num.toNat, i⟩, p.name, p.size, p.uid, p.perm⟩)

/-- `bsgen` at the top, for the disk at index `i`. -/
def genroot (eve : Bytes) (i : Nat) : BsProc Answer := do
  let r ← onbs get
  if i > r.maxdisk then pure .none
  else
    match ← diskget i with
    | none => pure .skip
    | some k => do
        lock (.store k, .Readlock)
        let d ← onbs (DevBs.store k)
        call .mkqidlocked
        call .devdirlocked
        unlock (.store k, .Readlock)
        pure (.found
          ⟨⟨.Qdiskdir, d.num.toNat, 0⟩, d.name, 0, eve, (bstab .Qdiskdir).2⟩)

/-- `bsgen`, not for `..` -/
def bsgen (eve : Bytes) (path : Path) (i : Nat) : BsProc Answer :=
  if path.typ.ofdisk then gendisk eve path i
  else
    match i with
    | 0 => listing (tabled eve .Qbsctl 0)
    | 1 => listing (tabled eve .Qbsevent 0)
    | i + 2 => genroot eve i

/-- `bsgen` for `DEVDOTDOT` -/
def bsgenup (eve : Bytes) (path : Path) : BsProc Answer :=
  match path.typ with
  | .Qdir | .Qdiskdir => listing (tabled eve .Qdir 0)
  | _ => panic "devdotdot on non-dir qid.path"

section
variable {α : Type}

def runquery (eve : Bytes) : Query α → BsProc α
  | .done out => onbs (DevBs.device out)
  | .gen path i next => do
      let a ← bsgen eve path i
      runquery eve (next a)
  | .dotdot path next => do
      let a ← bsgenup eve path
      runquery eve (next a)

/-- A routine of the kernel, which passes on an error of `bsgen`. -/
def ask (q : Routine α) : BsProc α := runquery q.eve q.query

/-- The common code of `bswalk`, `bsstat` and a `bsread` of a directory. -/
def listed (path : Path) (q : Routine α) : BsProc α :=
  locked (.bs, .Readlock) (
    if path.typ.ofdisk then do
      match ← diskget path.disk with
      | none => error Enodisk
      | some k => locked (.store k, .Readlock) (ask q)
    else ask q)

end

/-! ## The operations -/

/-- The turn of `bsinit` for a disk, whose errors are not passed on. -/
def bsinitturn (devs : Nat → Driver) (i : Nat) : BsProc Unit := do
  match ← diskget i with
  | none => pure ()
  | some k => do
      let d ← onbs (DevBs.store k)
      if d.ready ≠ 0 then pure ()
      else do
        lock (.store k, .Writelock)
        waserror
          (do
            unlock (.store k, .Writelock)
            absorb
            pure (some ()))
          (do
            onbs (DevBs.device (devs k).init)
            diskinit (devs k) k
            poperror
            unlock (.store k, .Writelock))

def bsinit (devs : Nat → Driver) : BsProc Unit :=
  locked (.bs, .Writelock) (do
    let r ← onbs get
    forM (List.range (r.maxdisk + 1)) (bsinitturn devs))

def bswalk (c : Chan) (devwalk : Routine (List Path)) : BsProc (List Path) :=
  listed c.path devwalk

def bsstat (c : Chan) (devstat : Routine Int) : BsProc Int :=
  listed c.path devstat

/-- `lockf`, `unlockf` of `bsopen` -/
def openmode (path : Path) : Mode :=
  if path.typ = .Qdiskdir then .Writelock else .Readlock

/-- `bsopen` with the store locked, up to its version. -/
def openlocked (c : Chan) (devopen : Routine Unit) (k : Nat) : BsProc Unit :=
  if c.path.typ = .Qdiskpart then do
    let i ← onbs (DevBs.xpartget k c.path.part)
    let p ← onbs (DevBs.getpart k i)
    if p.index = 0 then do
      ask devopen
      onbs (DevBs.stop .fault)
    else if p.isopen ≠ 0 then error Einuse
    else do
      ask devopen
      onbs (DevBs.setpart k i fun p => { p with isopen := p.isopen + 1 })
  else ask devopen

def bsopen (c : Chan) (devopen : Routine Unit) : BsProc Chan :=
  locked (.bs, .Readlock) (
    if c.path.typ.ofdisk then do
      match ← diskget c.path.disk with
      | none => error Enodisk
      | some k =>
          locked (.store k, openmode c.path) (do
            openlocked c devopen k
            let d ← onbs (DevBs.store k)
            pure { c with vers := d.vers, copen := true })
    else do
      ask devopen
      pure { c with copen := true })

/-- `if(*dir.uid)` -/
def copyuid (dir : Wstat) : BsProc Unit :=
  match dir.uid with
  | none => pure ()
  | some _ => call .kstrcpy

/-- `bswstat` with the store locked. -/
def wstatlocked (who : User) (dir : Wstat) (k : Nat) : BsProc Unit := do
  let i ← onbs (DevBs.xpartget k 0)
  call .iseve
  onbs (DevBs.partcheck who k i)
  copyuid dir
  onbs (DevBs.setpart k i fun p =>
    { p with
      uid := dir.uid.getD p.uid
      perm := (dir.mode.map fun m => m &&& 0o666).getD p.perm })

def bswstat (c : Chan) (who : User) (dir : Wstat) : BsProc Unit :=
  if c.path.typ ≠ .Qdiskpart then error Eperm
  else do
    call .convM2D
    if dir.short then error Eshortstat
    else if dir.other then error Eperm
    else do
      let k ← diskgetlock c.path.disk .Writelock
      held (.store k, .Writelock) (wstatlocked who dir k)

/-- `bsclose` of an open partition that is not `data`, with the store locked. -/
def closelocked (c : Chan) (k : Nat) : BsProc Unit := do
  let d ← onbs (DevBs.store k)
  if c.vers = d.vers then do
    let i ← onbs (DevBs.xpartget k c.path.part)
    let p ← onbs (DevBs.getpart k i)
    if p.isopen ≠ 1 then panic "devclose on part.isopen != 1"
    else onbs (DevBs.setpart k i fun p => { p with isopen := 0 })
  else pure ()

def bsclose (c : Chan) : BsProc Chan :=
  if c.path.typ = .Qdiskpart ∧ c.copen = true ∧ c.path.part ≠ 0 then do
    let k ← diskgetlock c.path.disk .Writelock
    held (.store k, .Writelock) (closelocked c k)
    pure c
  else if c.path.typ = .Qdiskraw ∧ c.aux ≠ none then do
    call .free
    call .free
    pure { c with aux := none }
  else pure c

/-! ## Reading -/

/-- The lines for the entries `is` of the table. -/
def partlines (k : Nat) : List Nat → BsProc (List Line)
  | [] => pure []
  | i :: is => do
      let p ← onbs (DevBs.getpart k i)
      call .seprint
      let rest ← partlines k is
      pure (.part p.name p.s p.e :: rest)

/-- The text of `Qdiskctl`, and as much of it as is asked for. -/
def ctllines (a : Reading) (k : Nat) : BsProc Int := do
  let d ← onbs (DevBs.store k)
  call .seprint
  if d.ready ≠ 0 then do
    call .seprint
    let parts ← partlines k (List.range' 1 (d.nparts - 1))
    call .readstr
    pure (a.readstr (.size (d.alignmask + 1) d.size :: parts))
  else do
    call .readstr
    pure (a.readstr [])

/-- `Qdiskctl` of `bsdevread`; its handler does not raise again. -/
def ctltext (a : Reading) (k : Nat) : BsProc Int := do
  call .malloc
  if a.room then do
    let n ← waserror
      (do
        call .freectl
        poperror
        pure none)
      (do
        let n ← ctllines a k
        poperror
        pure n)
    call .free
    pure n
  else error Enomem

/-- `bsdevread` with the store locked, but for `Qdiskctl`. -/
def devreadlocked (c : Chan) (a : Reading) (k : Nat) : BsProc Int :=
  match c.path.typ with
  | .Qdiskdevctl => do
      datacheck a.who k false
      onbs (DevBs.device a.rctl)
  | .Qdiskpart => do
      let i ← onbs (DevBs.xpartget k c.path.part)
      io a.io k i false a.n a.off
  | _ => panic "bsdevread, qtype unhandled"

/-- `if(c->qid.vers != d->vers) error(Estale)` -/
def stalecheck (c : Chan) (k : Nat) : BsProc Unit := do
  let d ← onbs (DevBs.store k)
  if c.vers ≠ d.vers then error Estale else pure ()

def bsdevread (c : Chan) (a : Reading) : BsProc Int := do
  let k ← diskgetlock c.path.disk .Readlock
  held (.store k, .Readlock) (do
    stalecheck c k
    if c.path.typ = .Qdiskctl then ctltext a k else devreadlocked c a k)

/-- The lines for the cells `is` of `bs.disks`. -/
def disklines : List Nat → BsProc (List Line)
  | [] => pure []
  | i :: is => do
      match ← onbs (DevBs.cell i) with
      | none => disklines is
      | some k => do
          let d ← onbs (DevBs.store k)
          call .seprint
          let rest ← disklines is
          if d.ready ≠ 0 then pure (.readydisk d.name d.size (d.nparts - 1) :: rest)
          else pure (.disk d.name :: rest)

/-- The text of `Qbsctl`. -/
def bslines (a : Reading) : BsProc Int :=
  locked (.bs, .Readlock) (do
    let r ← onbs get
    let lines ← disklines (List.range (r.maxdisk + 1))
    call .readstr
    pure (a.readstr lines))

def bsread (c : Chan) (a : Reading) : BsProc Int :=
  match c.path.typ with
  | .Qdir | .Qdiskdir => listed c.path a.devdirread
  | .Qbsctl => do
      call .smalloc
      let n ← owned .free (bslines a)
      call .free
      pure n
  | .Qbsevent | .Qdiskevent => error "not yet"
  | .Qdiskctl | .Qdiskdevctl | .Qdiskpart => bsdevread c a
  | .Qdiskraw =>
      match c.aux with
      | none => error "no command executed"
      | some bn => do
          call .memmove
          let off := if a.off > bn then bn else a.off
          pure (if off + a.n > bn then bn - off else a.n)

/-! ## Writing -/

/-- The buffer of `Qdiskraw` for the answer: one of an earlier command is emptied. -/
def rawbuf (c : Chan) : BsProc Unit :=
  match c.aux with
  | none => call .smalloc
  | some _ => call .free

/-- `Qdiskraw` of `bsdevwrite`: the answer to a raw command. -/
def rawcommand (c : Chan) (a : Writing) (k : Nat) : BsProc (Int × Option Int) := do
  datacheck a.who k true
  match a.raw with
  | none => error "raw commands not implemented by device"
  | some out => do
      rawbuf c
      let bn ← onbs (DevBs.device out)
      pure (if bn < 0 then bn else a.n, some bn)

/-- `bsdevwrite` with the store locked. -/
def devwritelocked (c : Chan) (a : Writing) (k : Nat) : BsProc (Int × Option Int) :=
  match c.path.typ with
  | .Qdiskdevctl =>
      if a.off ≠ 0 then error Ebadarg
      else do
        datacheck a.who k true
        let n ← onbs (DevBs.device a.wctl)
        pure (n, c.aux)
  | .Qdiskraw => do
      let d ← onbs (DevBs.store k)
      if d.ready = 0 then error Enodisk else rawcommand c a k
  | .Qdiskpart => do
      let i ← onbs (DevBs.xpartget k c.path.part)
      let n ← io a.io k i true a.n a.off
      pure (n, c.aux)
  | _ => panic "bsdevwrite, qtype unhandled"

/-- The result and the new `c->aux`. -/
def bsdevwrite (c : Chan) (a : Writing) : BsProc (Int × Option Int) := do
  let k ← diskgetlock c.path.disk .Readlock
  held (.store k, .Readlock) (do
    stalecheck c k
    devwritelocked c a k)

/-- `CMinit` of `bswrite`, for the disk that the command names. -/
def ctlinit (a : Writing) : BsProc Unit := do
  let num ← onbs (DevBs.device a.bscmd)
  call .atoi
  match ← diskget num with
  | none => error Enodisk
  | some k => locked (.store k, .Writelock) (diskinit (a.devs k) k)

/-- A command, in a buffer that `parsecmd` makes. -/
def command (body : BsProc Unit) : BsProc Unit := do
  call .parsecmd
  owned .free body
  call .free

/-- `CMpartinit` of `bswrite` -/
def ctlpartinit (v : Driver) (k : Nat) : BsProc Unit := do
  let d ← onbs (DevBs.store k)
  if d.ready = 0 then error Enodisk
  else do
    call .realloc
    onbs (DevBs.update k fun d => { d with parts := realloc1 v.req d.parts })
    onbs (DevBs.update k fun d => { d with nparts := 1, vers := newVers d })
    onbs (DevBs.scan v k d.size)

/-- The commands of `Qdiskctl`. -/
def diskcommand (a : Writing) (k : Nat) : BsProc Unit := do
  match ← onbs (DevBs.device a.diskcmd) with
  | .diskinit => diskinit (a.devs k) k
  | .partinit => ctlpartinit (a.devs k) k

def bswrite (c : Chan) (a : Writing) : BsProc (Int × Option Int) :=
  match c.path.typ with
  | .Qbsctl => do
      call .iseve
      if a.who.eve then do
        locked (.bs, .Writelock) (command (ctlinit a))
        pure (a.n, c.aux)
      else error Eperm
  | .Qbsevent => error "not yet"
  | .Qdiskctl => do
      locked (.bs, .Writelock) (do
        match ← diskget c.path.disk with
        | none => error Enodisk
        | some k =>
            locked (.store k, .Writelock) (do
              stalecheck c k
              datacheck a.who k true
              command (diskcommand a k)))
      pure (a.n, c.aux)
  | .Qdiskdevctl | .Qdiskraw | .Qdiskpart => bsdevwrite c a
  | .Qdir | .Qdiskdir | .Qdiskevent => error Ebadusefd

/-- A call of the device. -/
inductive Operation where
  | init (devs : Nat → Driver)
  | walk (c : Chan) (devwalk : Routine (List Path))
  | stat (c : Chan) (devstat : Routine Int)
  | opening (c : Chan) (devopen : Routine Unit)
  | wstat (c : Chan) (who : User) (dir : Wstat)
  | close (c : Chan)
  | read (c : Chan) (a : Reading)
  | write (c : Chan) (a : Writing)

def perform : Operation → BsProc Unit
  | .init devs => bsinit devs
  | .walk c devwalk => do
      let _ ← bswalk c devwalk
      pure ()
  | .stat c devstat => do
      let _ ← bsstat c devstat
      pure ()
  | .opening c devopen => do
      let _ ← bsopen c devopen
      pure ()
  | .wstat c who dir => bswstat c who dir
  | .close c => do
      let _ ← bsclose c
      pure ()
  | .read c a => do
      let _ ← bsread c a
      pure ()
  | .write c a => do
      let _ ← bswrite c a
      pure ()

end Kirkwood.Ports.DevBsLocks
