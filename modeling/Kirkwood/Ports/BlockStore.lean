import Kirkwood.Verified.ByteMem
import Kirkwood.Verified.Outcome

/-!
# Stores and partitions

The records of `bs.h` and `part.h` that the block-store device and the
partition scanner share, with the error texts of `devbs.c`.  A `Store` here
holds the fields those routines read; the routines of the device behind it
(`devinit`, `io`) are arguments of the functions that call them.
-/

namespace Kirkwood.Ports.BlockStore

open Kirkwood.Verified.ByteMem

/-- `part.h`: one partition.  `s`, `e` and `size` are in bytes. -/
structure Part where
  index : Nat
  typ : Nat
  name : Bytes
  s : Int
  e : Int
  size : Int
  uid : Bytes
  perm : Nat
  isopen : Int
  deriving DecidableEq, Repr

/-- `bs.h`: a block device.  The live part of the table is
`parts.take nparts`; the first entry is always the whole disk. -/
structure Store where
  vers : Int
  ready : Int
  num : Int
  name : Bytes
  alignmask : Nat
  parts : List Part
  nparts : Nat
  size : Int
  deriving DecidableEq, Repr

/-- The block size of a store. -/
def Store.block (d : Store) : Int := d.alignmask + 1

def Enodisk : String := "no disk"
def Enopart : String := "no such partition"
def Ebadalign : String := "misaligned request"
def Estale : String := "disk changed"

-- The texts of `../port/error.h` are not in the repository: its errors stand
-- under their identifiers.
def Ebadarg : String := "Ebadarg"
def Enomem : String := "Enomem"
def Einuse : String := "Einuse"
def Eperm : String := "Eperm"

/-- `partdata`: the partition that is the whole disk. -/
def partdata (eve : Bytes) (size : Int) : Part :=
  { index := 0
    typ := 0
    name := ascii "data"
    s := 0
    e := size
    size := size
    uid := eve
    perm := 0o660
    isopen := 0 }

end Kirkwood.Ports.BlockStore
