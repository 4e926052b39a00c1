import Kirkwood.Verified.Trans
import Kirkwood.Verified.Table
import Kirkwood.Ports.StoreInit

/-!
# Channels on a store

`devbs.c` gives channels on the partitions of a store.  An open channel keeps
the index of its partition and the version that the store had; a store that is
initialised again gets a new table and a new version.

The routines run under the lock of the store.  `bsopen`, `bsdevread` and
`bsdevwrite` take it for reading, so that their statements interleave; `bsclose`,
`bswstat` and the initialisations take it for writing and run alone.

An initialisation does not test what `realloc` returns.  Without room it goes on
with a table at nil, whose one entry is in low memory.

## Main results

* `diskinit_built`, `ctlPartinit_built`: however an initialisation ends, the
  store has a new version, and a partition that is not `data` is not open;
* `step_did`: what a step does, statement by statement.
-/

namespace Kirkwood.Ports.StoreChan

open Kirkwood.Verified.CInt
open Kirkwood.Verified.ByteMem
open Kirkwood.Verified.Outcome
open Kirkwood.Verified
open Kirkwood.Ports.BlockStore
open Kirkwood.Ports.StoreInit (Request Ending newVers Filled)

/-! ## The code -/

/-- A channel on a partition; with the partition that `bsopen` found, and how
often the table had been built by then. -/
structure Chan where
  part : Nat
  vers : Int
  opened : Part
  gen : Nat
  deriving DecidableEq, Repr

/-- How far a `bsopen` is: it has the lock, has found its partition, has tested
it and set `p` (to nil if `nilp`), is through `devopen`, has counted. -/
inductive OpenStage where
  | locked
  | found (p : Part)
  | tested (p : Part) (nilp : Bool)
  | devopened (p : Part) (nilp : Bool)
  | counted (p : Part) (nilp : Bool)
  deriving DecidableEq, Repr

structure Opening where
  part : Nat
  stage : OpenStage
  deriving DecidableEq, Repr

/-- How far a read or write is: it has the lock, has the right version, has its
partition. -/
inductive AccessStage where
  | locked
  | checked
  | got
  deriving DecidableEq, Repr

structure Access where
  chan : Chan
  iswrite : Bool
  stage : AccessStage
  deriving DecidableEq, Repr

/-- `io` is reached with a part, at a time when the table had been built `gen`
times; or a call raises an error. -/
inductive Event where
  | io (c : Chan) (iswrite : Bool) (p : Part) (gen : Nat)
  | raised (msg : String)
  deriving DecidableEq, Repr

/-- `low` is where a nil `Part` points: page 0 is memory. -/
structure State where
  d : Store
  gen : Nat
  opens : List Opening
  chans : List Chan
  accesses : List Access
  low : Part
  log : List Event
  panicked : Bool
  deriving DecidableEq

/-- The entries from `d->parts` on; from nil, one is looked at. -/
def State.table (s : State) : List Part :=
  if s.d.parts = [] then [s.low] else s.d.parts

/-- A store to fields of `d->parts[i]`. -/
def State.setpart (s : State) (i : Nat) (f : Part → Part) : State :=
  if s.d.parts = [] then { s with low := if i = 0 then f s.low else s.low }
  else { s with d := { s.d with parts := s.d.parts.modify i f } }

/-- `xpartget` -/
def xpartget (s : State) (i : Nat) : Except Exn Part :=
  if s.d.ready = 0 then .error (.error Enodisk)
  else if i ≥ s.d.nparts then .error (.error Enopart)
  else
    match s.table[i]? with
    | some p => .ok p
    | none => .error .fault

/-- `p->isopen` -/
def openCount (s : State) (i : Nat) : Int :=
  match s.table[i]? with
  | some p => p.isopen
  | none => 0

/-- `p->isopen = n` -/
def setOpen (s : State) (i : Nat) (n : Int) : State :=
  s.setpart i fun p => { p with isopen := n }

def raise (s : State) (msg : String) : State :=
  { s with log := s.log ++ [.raised msg] }

/-- What an initialisation leaves, with the error that it raises. -/
def built (s : State) (d : Store) (low : Part) (err : Option String) : State :=
  let s := { s with d := d, low := low, gen := s.gen + 1 }
  match err with
  | some msg => raise s msg
  | none => s

/-- `diskinit`, which may not come back.  It prints the error of `partinit`. -/
def diskinit (r : Request) (s : State) : Option State :=
  match StoreInit.diskinit r s.d with
  | .error _ => none
  | .ok (d, .raised msg) => some (built s d s.low (some msg))
  | .ok (d, _) =>
      -- `partdata` stores through what `realloc` has returned
      some (built s d (if r.room then s.low else partdata r.dev.env.eve d.size) none)

/-- `CMpartinit` of `bswrite`, which may not come back. -/
def ctlPartinit (r : Request) (s : State) : Option State :=
  match StoreInit.ctlPartinit r s.d with
  | .error _ => none
  | .ok (_, .raised msg) => some (raise s msg)
  | .ok (d, .unparsed msg) => some (built s d s.low (some msg))
  | .ok (d, .returned) => some (built s d s.low none)

/-- Who calls: the owner of the host, or one that `devpermcheck` lets or does
not let. -/
structure Caller where
  eve : Bool
  permit : Bool

/-- `if(!iseve())`: the permissions of `data`. -/
def mayWrite (s : State) (who : Caller) : Except Exn Unit :=
  if who.eve then .ok ()
  else
    match xpartget s 0 with
    | .ok _ => if who.permit then .ok () else .error (.error Eperm)
    | .error e => .error e

inductive Cmd where
  | diskinit
  | partinit
  deriving DecidableEq, Repr

inductive Action where
  /-- `bsopen` of a partition with this number in its path. -/
  | opening (q : Nat)
  /-- The next statement of an open; whether `devopen` permits it. -/
  | open (k : Nat) (permit : Bool)
  | close (k : Nat)
  /-- `bsread` or `bswrite` of a channel. -/
  | accessing (k : Nat) (iswrite : Bool)
  /-- The next statement of a read or write. -/
  | access (k : Nat)
  /-- `diskinit` from `bsinit` or from the control file of the device. -/
  | init (r : Request)
  /-- A command to the control file of the store, opened at version `vers`. -/
  | ctl (vers : Int) (who : Caller) (cmd : Cmd) (r : Request)
  | wstat (who : Caller) (uid : Option Bytes) (mode : Option Nat)

/-- The number of a partition is 8 bits of the path. -/
def qpart (q : Nat) : Nat := q % 256

/-- The next statement of open `k`, which is `o`. -/
def openNext (s : State) (k : Nat) (permit : Bool) (o : Opening) : Option State :=
  let drop := { s with opens := s.opens.eraseIdx k }
  let go := fun stage : OpenStage =>
    { s with opens := s.opens.set k { o with stage := stage } }
  match o.stage with
  | .locked =>
      match xpartget s o.part with
      | .ok p => some (go (.found p))
      | .error (.error msg) => some (raise drop msg)
      | .error _ => none
  | .found p =>
      if p.index = 0 then some (go (.tested p true))
      else if openCount s o.part ≠ 0 then some (raise drop Einuse)
      else some (go (.tested p false))
  | .tested p nilp =>
      if permit then some (go (.devopened p nilp)) else some (raise drop Eperm)
  | .devopened p nilp =>
      if nilp then
        some { go (.counted p nilp) with
          low := { s.low with isopen := s.low.isopen + 1 } }
      else
        some { setOpen s o.part (openCount s o.part + 1) with
          opens := s.opens.set k { o with stage := .counted p nilp } }
  | .counted p _ =>
      some { drop with
        chans := s.chans ++
          [{ part := o.part, vers := s.d.vers, opened := p, gen := s.gen }] }

/-- The next statement of access `k`, which is `a`. -/
def accessNext (s : State) (k : Nat) (a : Access) : Option State :=
  let drop := { s with accesses := s.accesses.eraseIdx k }
  let go := fun stage : AccessStage =>
    { s with accesses := s.accesses.set k { a with stage := stage } }
  match a.stage with
  | .locked =>
      if a.chan.vers ≠ s.d.vers then some (raise drop Estale)
      else some (go .checked)
  | .checked =>
      match xpartget s a.chan.part with
      | .ok _ => some (go .got)
      | .error (.error msg) => some (raise drop msg)
      | .error _ => none
  | .got =>
      match s.table[a.chan.part]? with
      | some p => some { drop with log := s.log ++ [.io a.chan a.iswrite p s.gen] }
      | none => none

/-- `bsclose` of channel `k`, which is `c`, on a partition that is not `data`. -/
def closePart (s : State) (k : Nat) (c : Chan) : Option State :=
  let drop := { s with chans := s.chans.eraseIdx k }
  if c.vers = s.d.vers then
    match xpartget s c.part with
    | .ok p =>
        if p.isopen ≠ 1 then some { drop with panicked := true }
        else some { setOpen s c.part 0 with chans := s.chans.eraseIdx k }
    | .error (.error msg) => some (raise drop msg)
    | .error _ => none
  else some drop

/-- `bswrite` to the control file of the store. -/
def ctlNext (s : State) (vers : Int) (who : Caller) (cmd : Cmd) (r : Request) :
    Option State :=
  if vers ≠ s.d.vers then some (raise s Estale)
  else
    match mayWrite s who with
    | .error (.error msg) => some (raise s msg)
    | .error _ => none
    | .ok () =>
        match cmd with
        | .diskinit => diskinit r s
        | .partinit => ctlPartinit r s

/-- `bswstat` -/
def wstatNext (s : State) (who : Caller) (uid : Option Bytes) (mode : Option Nat) :
    Option State :=
  match xpartget s 0 with
  | .error (.error msg) => some (raise s msg)
  | .error _ => none
  | .ok _ =>
      if who.eve ∨ who.permit then
        some (s.setpart 0 fun p =>
          { p with
            uid := uid.getD p.uid
            perm := (mode.map fun m => m &&& 0o666).getD p.perm })
      else some (raise s Eperm)

/-- No one has the lock for reading. -/
def Unlocked (s : State) : Prop := s.opens = [] ∧ s.accesses = []

instance (s : State) : Decidable (Unlocked s) :=
  inferInstanceAs (Decidable (_ ∧ _))

def step (s : State) (a : Action) : Option State :=
  if s.panicked then none
  else
    match a with
    | .opening q =>
        some { s with opens := s.opens ++ [{ part := qpart q, stage := .locked }] }
    | .open k permit =>
        match s.opens[k]? with
        | some o => openNext s k permit o
        | none => none
    | .close k =>
        match s.chans[k]? with
        | some c =>
            if c.part = 0 then some { s with chans := s.chans.eraseIdx k }
            else if Unlocked s then closePart s k c
            else none
        | none => none
    | .accessing k iswrite =>
        match s.chans[k]? with
        | some c =>
            some { s with
              accesses := s.accesses ++
                [{ chan := c, iswrite := iswrite, stage := .locked }] }
        | none => none
    | .access k =>
        match s.accesses[k]? with
        | some a => accessNext s k a
        | none => none
    | .init r =>
        if Unlocked s then diskinit r s else none
    | .ctl vers who cmd r =>
        if Unlocked s then ctlNext s vers who cmd r else none
    | .wstat who uid mode =>
        if Unlocked s then wstatNext s who uid mode else none

/-- A store of the driver before it is initialised. -/
def Initial (s : State) : Prop :=
  s.d.ready = 0 ∧ s.d.parts = [] ∧ s.d.nparts = 0 ∧ s.d.vers = 0 ∧ s.gen = 0 ∧
    s.opens = [] ∧ s.chans = [] ∧ s.accesses = [] ∧ s.log = [] ∧ s.panicked = false

/-! ## The table -/

theorem State.table_setpart (s : State) (i : Nat) (f : Part → Part) :
    (s.setpart i f).table = s.table.modify i f := by
  unfold State.table State.setpart
  by_cases hnil : s.d.parts = []
  · simp only [hnil, if_true]
    cases i with
    | zero => rfl
    | succ i => simp
  · rw [if_neg hnil]
    have hmodify : s.d.parts.modify i f ≠ [] := by
      intro h
      have hlen := congrArg List.length h
      rw [List.length_modify] at hlen
      exact hnil (List.eq_nil_of_length_eq_zero hlen)
    simp only [hnil, hmodify, if_false]

/-- A store to the fields of a part leaves everything else. -/
structure Frame (s t : State) : Prop where
  vers : t.d.vers = s.d.vers
  nparts : t.d.nparts = s.d.nparts
  ready : t.d.ready = s.d.ready
  gen : t.gen = s.gen
  opens : t.opens = s.opens
  chans : t.chans = s.chans
  accesses : t.accesses = s.accesses
  log : t.log = s.log
  panicked : t.panicked = s.panicked

theorem State.setpart_frame (s : State) (i : Nat) (f : Part → Part) :
    Frame s (s.setpart i f) := by
  unfold State.setpart
  split <;> exact ⟨rfl, rfl, rfl, rfl, rfl, rfl, rfl, rfl, rfl⟩

/-- What holds of a store at all times. -/
structure Table (s : State) : Prop where
  live : s.d.nparts ≤ s.table.length
  ready : s.d.nparts ≠ 0 → s.d.ready ≠ 0
  index : ∀ i p, 1 ≤ i → i < s.d.nparts → s.table[i]? = some p → p.index = i % 256

/-- `isopen` of a partition of the table. -/
def isopen (s : State) (i : Nat) : Int := if i < s.d.nparts then openCount s i else 0

/-- An initialisation leaves a new version and nothing open. -/
structure Built (s s' : State) : Prop where
  vers : s'.d.vers = newVers s.d
  table : Table s'
  shut : ∀ i, 1 ≤ i → isopen s' i = 0

/-- A table that a scan leaves. -/
theorem built_of_filled {s s' : State} {r : Request} (hvers : s'.d.vers = newVers s.d)
    (hready : s'.d.ready ≠ 0) (h : Filled r s'.d.nparts s'.d.parts) : Built s s' := by
  obtain ⟨data, hlive⟩ := h
  have hne : s'.d.parts ≠ [] := by
    intro hnil
    have hfirst := hlive.first
    rw [hnil] at hfirst
    cases hfirst
  have htable : s'.table = s'.d.parts := if_neg hne
  exact {
    vers := hvers
    table :=
      { live := by
          rw [htable]
          exact hlive.filled
        ready := fun _ => hready
        index := by
          intro i p hi hlt hp
          rw [htable] at hp
          exact (hlive.made i p hi hlt hp).index }
    shut := by
      intro i hi
      unfold isopen openCount
      rw [htable]
      split
      · next hlt =>
          cases hp : s'.d.parts[i]? with
          | none => rfl
          | some p => exact (hlive.made i p hi hlt hp).shut
      · rfl }

/-- A table of at most the part in low memory. -/
theorem built_of_few {s s' : State} (hvers : s'.d.vers = newVers s.d)
    (hready : s'.d.nparts ≠ 0 → s'.d.ready ≠ 0) (hone : s'.d.nparts ≤ 1)
    (hlive : s'.d.nparts ≤ s'.table.length) : Built s s' :=
  { vers := hvers
    table :=
      { live := hlive
        ready := hready
        index := fun i p hi hlt _ => absurd hlt (by omega) }
    shut := fun i hi => if_neg (by omega) }

theorem built_of_scan {s s' : State} {r : Request} {d : Store}
    {out : Store × Ending} (hone : d.nparts = 1) (hready : d.ready ≠ 0)
    (hvers : d.vers = newVers s.d) (hscan : StoreInit.scan r d = .ok out)
    (hd : s'.d = out.1) : Built s s' := by
  obtain ⟨hkept, -, hkeptready⟩ := StoreInit.scan_keeps hscan
  have hvers' : s'.d.vers = newVers s.d := by rw [hd, hkept, hvers]
  have hready' : s'.d.ready ≠ 0 := by rwa [hd, hkeptready]
  rcases StoreInit.scan_leaves hone hscan with ⟨hcount, hnil⟩ | hfilled
  · rw [← hd] at hcount hnil
    refine built_of_few hvers' (fun _ => hready') (Nat.le_of_eq hcount) ?_
    rw [hcount, State.table, if_pos hnil]
    exact Nat.le_refl 1
  · rw [← hd] at hfilled
    exact built_of_filled hvers' hready' hfilled

@[simp] theorem built_d (s : State) (d : Store) (low : Part) (err : Option String) :
    (built s d low err).d = d := by
  cases err <;> rfl

/-- The state after an initialisation. -/
def Rebuilt (s s' : State) : Prop :=
  ∃ d low err, s' = built s d low err ∧ Built s s'

/-- The ends of `diskinit`: the error of the device, or the table of the scan. -/
theorem diskinit_built {r : Request} {s s' : State} (h : diskinit r s = some s') :
    Rebuilt s s' := by
  unfold diskinit at h
  cases hrun : StoreInit.diskinit r s.d with
  | error e =>
      rw [hrun] at h
      cases h
  | ok out =>
      have hbuilt : ∀ s' : State, s'.d = out.1 → Built s s' := by
        intro s' hd
        rcases StoreInit.diskinit_cases hrun with ⟨-, msg, hreset⟩ | ⟨-, hscan⟩
        · have hzero : s'.d.nparts = 0 := by rw [hd, hreset]; rfl
          refine built_of_few ?_ (fun hne => absurd hzero hne) (by omega) (by omega)
          rw [hd, hreset]
          rfl
        · refine built_of_scan ?_ ?_ ?_ hscan hd
          · rfl
          · exact Int.one_ne_zero
          · rfl
      obtain ⟨d, ending⟩ := out
      rw [hrun] at h
      cases ending with
      | raised msg =>
          rw [← Option.some.inj h]
          exact ⟨_, _, _, rfl, hbuilt _ (built_d _ _ _ _)⟩
      | returned =>
          rw [← Option.some.inj h]
          exact ⟨_, _, _, rfl, hbuilt _ (built_d _ _ _ _)⟩
      | unparsed msg =>
          rw [← Option.some.inj h]
          exact ⟨_, _, _, rfl, hbuilt _ (built_d _ _ _ _)⟩

theorem scan_not_raised {r : Request} {d : Store} {out : Store × Ending}
    (h : StoreInit.scan r d = .ok out) (msg : String) : out.2 ≠ .raised msg := by
  unfold StoreInit.scan at h
  split at h
  · rw [← Except.ok.inj h]
    exact nofun
  · rw [← Except.ok.inj h]
    exact nofun
  · cases h

/-- The ends of the `partinit` command: the store is not ready, or has a new table. -/
theorem ctlPartinit_built {r : Request} {s s' : State} (h : ctlPartinit r s = some s') :
    (s.d.ready = 0 ∧ ∃ msg, s' = raise s msg) ∨ (s.d.ready ≠ 0 ∧ Rebuilt s s') := by
  unfold ctlPartinit at h
  cases hrun : StoreInit.ctlPartinit r s.d with
  | error e =>
      rw [hrun] at h
      cases h
  | ok out =>
      have hends := StoreInit.ctlPartinit_cases hrun
      rw [hrun] at h
      by_cases hready : s.d.ready = 0
      · rcases hends with ⟨-, rfl⟩ | ⟨hreaches, -⟩
        · exact .inl ⟨hready, _, (Option.some.inj h).symm⟩
        · exact absurd hready (of_decide_eq_true hreaches)
      · rcases hends with ⟨hnot, -⟩ | ⟨-, hscan⟩
        · exact absurd hready (not_not.2 (not_not.1 (of_decide_eq_false hnot)))
        · have hbuilt : ∀ s' : State, s'.d = out.1 → Built s s' := by
            intro s' hd
            refine built_of_scan ?_ ?_ ?_ hscan hd
            · rfl
            · exact hready
            · rfl
          obtain ⟨d, ending⟩ := out
          refine .inr ⟨hready, ?_⟩
          cases ending with
          | raised msg => exact absurd rfl (scan_not_raised hscan msg)
          | returned =>
              rw [← Option.some.inj h]
              exact ⟨_, _, _, rfl, hbuilt _ (built_d _ _ _ _)⟩
          | unparsed msg =>
              rw [← Option.some.inj h]
              exact ⟨_, _, _, rfl, hbuilt _ (built_d _ _ _ _)⟩

theorem xpartget_ok {s : State} {i : Nat} {p : Part} (h : xpartget s i = .ok p) :
    s.d.ready ≠ 0 ∧ i < s.d.nparts ∧ s.table[i]? = some p := by
  unfold xpartget at h
  by_cases hready : s.d.ready = 0
  · rw [if_pos hready] at h
    cases h
  · rw [if_neg hready] at h
    by_cases hi : i ≥ s.d.nparts
    · rw [if_pos hi] at h
      cases h
    · rw [if_neg hi] at h
      cases hp : s.table[i]? with
      | none =>
          rw [hp] at h
          cases h
      | some q =>
          rw [hp] at h
          cases h
          exact ⟨hready, by omega, rfl⟩

theorem xpartget_live {s : State} (hs : Table s) {i : Nat} (hi : i < s.d.nparts) :
    ∃ p, xpartget s i = .ok p ∧ s.table[i]? = some p := by
  have hlt : i < s.table.length := hi.trans_le hs.live
  have hget : s.table[i]? = some s.table[i] := List.getElem?_eq_getElem hlt
  refine ⟨s.table[i], ?_, hget⟩
  unfold xpartget
  rw [if_neg (hs.ready (by omega)), if_neg (by omega), hget]

/-! ## What a step does -/

/-- The next statement of open `k`, which is `o`. -/
inductive OpenDid (s : State) (k : Nat) (o : Opening) : State → Prop where
  | failed {msg : String} (hbefore : ∀ p nilp, o.stage ≠ .devopened p nilp ∧
        o.stage ≠ .counted p nilp) :
      OpenDid s k o (raise { s with opens := s.opens.eraseIdx k } msg)
  | found {p : Part} (hstage : o.stage = .locked)
      (hget : xpartget s o.part = .ok p) :
      OpenDid s k o { s with opens := s.opens.set k { o with stage := .found p } }
  | tested {p : Part} {nilp : Bool} (hstage : o.stage = .found p)
      (hnil : nilp = true ↔ p.index = 0)
      (hfree : nilp = false → openCount s o.part = 0) :
      OpenDid s k o
        { s with opens := s.opens.set k { o with stage := .tested p nilp } }
  | devopened {p : Part} {nilp : Bool} (hstage : o.stage = .tested p nilp) :
      OpenDid s k o
        { s with opens := s.opens.set k { o with stage := .devopened p nilp } }
  | countedNil {p : Part} (hstage : o.stage = .devopened p true) :
      OpenDid s k o
        { s with
          opens := s.opens.set k { o with stage := .counted p true }
          low := { s.low with isopen := s.low.isopen + 1 } }
  | counted {p : Part} (hstage : o.stage = .devopened p false) :
      OpenDid s k o
        { setOpen s o.part (openCount s o.part + 1) with
          opens := s.opens.set k { o with stage := .counted p false } }
  | opened {p : Part} {nilp : Bool} (hstage : o.stage = .counted p nilp) :
      OpenDid s k o
        { s with
          opens := s.opens.eraseIdx k
          chans := s.chans ++
            [{ part := o.part, vers := s.d.vers, opened := p, gen := s.gen }] }

theorem openNext_did {s s' : State} {k : Nat} {permit : Bool} {o : Opening}
    (h : openNext s k permit o = some s') : OpenDid s k o s' := by
  unfold openNext at h
  cases hstage : o.stage with
  | locked =>
      simp only [hstage] at h
      have hbefore : ∀ p nilp, o.stage ≠ .devopened p nilp ∧
          o.stage ≠ .counted p nilp := by
        intro p nilp
        rw [hstage]
        exact ⟨nofun, nofun⟩
      cases hget : xpartget s o.part with
      | ok p =>
          rw [hget] at h
          cases h
          exact .found hstage hget
      | error e =>
          rw [hget] at h
          cases e with
          | error msg =>
              cases h
              exact .failed hbefore
          | panic msg => cases h
          | fault => cases h
          | hang => cases h
  | found p =>
      simp only [hstage] at h
      by_cases hindex : p.index = 0
      · rw [if_pos hindex] at h
        cases h
        exact .tested hstage ⟨fun _ => hindex, fun _ => rfl⟩ nofun
      · rw [if_neg hindex] at h
        by_cases hopen : openCount s o.part ≠ 0
        · rw [if_pos hopen] at h
          cases h
          refine .failed ?_
          intro p nilp
          rw [hstage]
          exact ⟨nofun, nofun⟩
        · rw [if_neg hopen] at h
          cases h
          exact .tested hstage ⟨nofun, fun hz => absurd hz hindex⟩
            fun _ => not_not.1 hopen
  | tested p nilp =>
      simp only [hstage] at h
      cases permit with
      | true =>
          cases h
          exact .devopened hstage
      | false =>
          cases h
          refine .failed ?_
          intro p nilp
          rw [hstage]
          exact ⟨nofun, nofun⟩
  | devopened p nilp =>
      simp only [hstage] at h
      cases nilp with
      | true =>
          cases h
          exact .countedNil hstage
      | false =>
          cases h
          exact .counted hstage
  | counted p nilp =>
      simp only [hstage] at h
      cases h
      exact .opened hstage

/-- The next statement of access `k`, which is `a`. -/
inductive AccessDid (s : State) (k : Nat) (a : Access) : State → Prop where
  | failed {msg : String} (hstage : a.stage ≠ .got) :
      AccessDid s k a (raise { s with accesses := s.accesses.eraseIdx k } msg)
  | moved {stage : AccessStage} (hvers : a.stage = .locked → a.chan.vers = s.d.vers) :
      AccessDid s k a
        { s with accesses := s.accesses.set k { a with stage := stage } }
  | io {p : Part} (hstage : a.stage = .got)
      (hget : s.table[a.chan.part]? = some p) :
      AccessDid s k a
        { s with
          accesses := s.accesses.eraseIdx k
          log := s.log ++ [.io a.chan a.iswrite p s.gen] }

theorem accessNext_did {s s' : State} {k : Nat} {a : Access}
    (h : accessNext s k a = some s') : AccessDid s k a s' := by
  unfold accessNext at h
  cases hstage : a.stage with
  | locked =>
      simp only [hstage] at h
      by_cases hvers : a.chan.vers ≠ s.d.vers
      · rw [if_pos hvers] at h
        cases h
        exact .failed (by rw [hstage]; exact nofun)
      · rw [if_neg hvers] at h
        cases h
        exact .moved fun _ => not_not.1 hvers
  | checked =>
      simp only [hstage] at h
      cases hget : xpartget s a.chan.part with
      | ok p =>
          rw [hget] at h
          cases h
          exact .moved (by rw [hstage]; exact nofun)
      | error e =>
          rw [hget] at h
          cases e with
          | error msg =>
              cases h
              exact .failed (by rw [hstage]; exact nofun)
          | panic msg => cases h
          | fault => cases h
          | hang => cases h
  | got =>
      simp only [hstage] at h
      cases hget : s.table[a.chan.part]? with
      | none =>
          rw [hget] at h
          cases h
      | some p =>
          rw [hget] at h
          cases h
          exact .io hstage hget

/-- `bsclose` of channel `k`, which is `c`. -/
inductive CloseDid (s : State) (k : Nat) (c : Chan) : State → Prop where
  | kept (hold : c.part = 0 ∨ c.vers ≠ s.d.vers) :
      CloseDid s k c { s with chans := s.chans.eraseIdx k }
  | failed {msg : String} (hpart : c.part ≠ 0) (hvers : c.vers = s.d.vers)
      (hget : ∀ p, xpartget s c.part ≠ .ok p) :
      CloseDid s k c (raise { s with chans := s.chans.eraseIdx k } msg)
  | panicked {p : Part} (hpart : c.part ≠ 0) (hvers : c.vers = s.d.vers)
      (hget : s.table[c.part]? = some p) (hopen : p.isopen ≠ 1) :
      CloseDid s k c { s with chans := s.chans.eraseIdx k, panicked := true }
  | shut {p : Part} (hpart : c.part ≠ 0) (hvers : c.vers = s.d.vers)
      (hget : s.table[c.part]? = some p) (hopen : p.isopen = 1) :
      CloseDid s k c
        { setOpen s c.part 0 with chans := s.chans.eraseIdx k }

theorem closePart_did {s s' : State} {k : Nat} {c : Chan} (hpart : c.part ≠ 0)
    (h : closePart s k c = some s') : CloseDid s k c s' := by
  unfold closePart at h
  by_cases hvers : c.vers = s.d.vers
  · rw [if_pos hvers] at h
    cases hget : xpartget s c.part with
    | ok p =>
        have hp := (xpartget_ok hget).2.2
        rw [hget] at h
        dsimp only at h
        by_cases hopen : p.isopen ≠ 1
        · rw [if_pos hopen] at h
          cases h
          exact .panicked hpart hvers hp hopen
        · rw [if_neg hopen] at h
          cases h
          exact .shut hpart hvers hp (not_not.1 hopen)
    | error e =>
        rw [hget] at h
        cases e with
        | error msg =>
            cases h
            exact .failed hpart hvers (by rw [hget]; exact nofun)
        | panic msg => cases h
        | fault => cases h
        | hang => cases h
  · rw [if_neg hvers] at h
    cases h
    exact .kept (Or.inr hvers)

/-- The action gets as far as an initialisation. -/
def Rebuilds (s : State) : Action → Prop
  | .init _ => True
  | .ctl vers who cmd _ =>
      vers = s.d.vers ∧ mayWrite s who = .ok () ∧ (cmd = .partinit → s.d.ready ≠ 0)
  | _ => False

/-- What `bswstat` changes is not what places a part, and not `isopen`. -/
def Placing (f : Part → Part) : Prop :=
  ∀ p, (f p).index = p.index ∧ (f p).s = p.s ∧ (f p).e = p.e ∧ (f p).size = p.size ∧
    (f p).isopen = p.isopen

inductive Did (s : State) : Action → State → Prop where
  | arrived (q : Nat) :
      Did s (.opening q)
        { s with opens := s.opens ++ [{ part := qpart q, stage := .locked }] }
  | open {k : Nat} {permit : Bool} {o : Opening} {s' : State}
      (hk : s.opens[k]? = some o) (h : OpenDid s k o s') : Did s (.open k permit) s'
  | close {k : Nat} {c : Chan} {s' : State} (hk : s.chans[k]? = some c)
      (hlock : c.part ≠ 0 → Unlocked s) (h : CloseDid s k c s') :
      Did s (.close k) s'
  | accessing {k : Nat} {iswrite : Bool} {c : Chan} (hk : s.chans[k]? = some c) :
      Did s (.accessing k iswrite)
        { s with
          accesses := s.accesses ++
            [{ chan := c, iswrite := iswrite, stage := .locked }] }
  | access {k : Nat} {a : Access} {s' : State} (hk : s.accesses[k]? = some a)
      (h : AccessDid s k a s') : Did s (.access k) s'
  | raised {a : Action} {msg : String} (hlock : Unlocked s)
      (hopen : ∀ k permit, a ≠ .open k permit) (h : ¬ Rebuilds s a) :
      Did s a (raise s msg)
  | built {a : Action} {s' : State} (hlock : Unlocked s) (h : Rebuilds s a)
      (hbuilt : Rebuilt s s') : Did s a s'
  | owned {who : Caller} {uid : Option Bytes} {mode : Option Nat} {f : Part → Part}
      (hlock : Unlocked s) (h : Placing f) :
      Did s (.wstat who uid mode) (s.setpart 0 f)

theorem ctl_did {s s' : State} {vers : Int} {who : Caller} {cmd : Cmd} {r : Request}
    (hlock : Unlocked s) (h : ctlNext s vers who cmd r = some s') :
    Did s (.ctl vers who cmd r) s' := by
  unfold ctlNext at h
  by_cases hvers : vers ≠ s.d.vers
  · rw [if_pos hvers] at h
    cases h
    exact .raised hlock nofun fun hr => hvers hr.1
  · rw [if_neg hvers] at h
    cases hmay : mayWrite s who with
    | error e =>
        have hnot : ¬ Rebuilds s (.ctl vers who cmd r) := by
          intro hr
          rw [hr.2.1] at hmay
          cases hmay
        rw [hmay] at h
        cases e with
        | error msg =>
            cases h
            exact .raised hlock nofun hnot
        | panic msg => cases h
        | fault => cases h
        | hang => cases h
    | ok u =>
        rw [hmay] at h
        cases cmd with
        | diskinit =>
            exact .built hlock ⟨not_not.1 hvers, hmay, nofun⟩ (diskinit_built h)
        | partinit =>
            rcases ctlPartinit_built h with ⟨hready, msg, rfl⟩ | ⟨hready, hbuilt⟩
            · exact .raised hlock nofun fun hr => hr.2.2 rfl hready
            · exact .built hlock ⟨not_not.1 hvers, hmay, fun _ => hready⟩ hbuilt

theorem wstat_did {s s' : State} {who : Caller} {uid : Option Bytes}
    {mode : Option Nat} (hlock : Unlocked s)
    (h : wstatNext s who uid mode = some s') : Did s (.wstat who uid mode) s' := by
  unfold wstatNext at h
  cases hget : xpartget s 0 with
  | error e =>
      rw [hget] at h
      cases e with
      | error msg =>
          cases h
          exact .raised hlock nofun id
      | panic msg => cases h
      | fault => cases h
      | hang => cases h
  | ok p =>
      rw [hget] at h
      dsimp only at h
      by_cases hmay : who.eve = true ∨ who.permit = true
      · rw [if_pos hmay] at h
        cases h
        exact .owned hlock fun _ => ⟨rfl, rfl, rfl, rfl, rfl⟩
      · rw [if_neg hmay] at h
        cases h
        exact .raised hlock nofun id

theorem step_did {s s' : State} {a : Action}
    (h : step s a = some s') : s.panicked = false ∧ Did s a s' := by
  unfold step at h
  by_cases hp : s.panicked = true
  · rw [if_pos hp] at h
    cases h
  · rw [if_neg hp] at h
    refine ⟨Bool.eq_false_iff.2 hp, ?_⟩
    cases a with
    | opening q =>
        cases h
        exact .arrived q
    | «open» k permit =>
        cases hk : s.opens[k]? with
        | none => simp only [hk] at h; cases h
        | some o =>
            simp only [hk] at h
            exact .open hk (openNext_did h)
    | close k =>
        cases hk : s.chans[k]? with
        | none => simp only [hk] at h; cases h
        | some c =>
            simp only [hk] at h
            by_cases hpart : c.part = 0
            · rw [if_pos hpart] at h
              cases h
              exact .close hk (fun hne => absurd hpart hne) (.kept (Or.inl hpart))
            · rw [if_neg hpart] at h
              by_cases hlock : Unlocked s
              · rw [if_pos hlock] at h
                exact .close hk (fun _ => hlock) (closePart_did hpart h)
              · rw [if_neg hlock] at h
                cases h
    | accessing k iswrite =>
        cases hk : s.chans[k]? with
        | none => simp only [hk] at h; cases h
        | some c =>
            simp only [hk] at h
            cases h
            exact .accessing hk
    | access k =>
        cases hk : s.accesses[k]? with
        | none => simp only [hk] at h; cases h
        | some a =>
            simp only [hk] at h
            exact .access hk (accessNext_did h)
    | init r =>
        dsimp only at h
        by_cases hlock : Unlocked s
        · rw [if_pos hlock] at h
          exact .built hlock trivial (diskinit_built h)
        · rw [if_neg hlock] at h
          cases h
    | ctl vers who cmd r =>
        dsimp only at h
        by_cases hlock : Unlocked s
        · rw [if_pos hlock] at h
          exact ctl_did hlock h
        · rw [if_neg hlock] at h
          cases h
    | wstat who uid mode =>
        dsimp only at h
        by_cases hlock : Unlocked s
        · rw [if_pos hlock] at h
          exact wstat_did hlock h
        · rw [if_neg hlock] at h
          cases h

/-! ## The table stays well formed -/

theorem setpart_get (s : State) (i : Nat) (f : Part → Part) (j : Nat) :
    (s.setpart i f).table[j]? = s.table[j]?.map fun p => if i = j then f p else p := by
  rw [State.table_setpart]
  by_cases hij : i = j
  · simp only [hij, if_true]
    exact List.getElem?_modify_eq _ _ _
  · simp only [hij, if_false]
    rw [List.getElem?_modify_ne _ _ hij, Option.map_id']

/-- The table as it is looked at, and what counts its parts. -/
theorem Table.congr {s t : State} (h : Table s) (htable : t.table = s.table)
    (hn : t.d.nparts = s.d.nparts) (hready : t.d.ready = s.d.ready) : Table t :=
  { live := by
      rw [hn, htable]
      exact h.live
    ready := by
      rw [hn, hready]
      exact h.ready
    index := by
      rw [hn, htable]
      exact h.index }

/-- A store that leaves the index of a part. -/
theorem Table.setpart {s : State} (h : Table s) (i : Nat) {f : Part → Part}
    (hf : ∀ p, (f p).index = p.index) : Table (s.setpart i f) := by
  have hframe := s.setpart_frame i f
  exact {
    live := by
      rw [hframe.nparts, State.table_setpart, List.length_modify]
      exact h.live
    ready := by
      rw [hframe.nparts, hframe.ready]
      exact h.ready
    index := by
      rw [hframe.nparts]
      intro j p hj hlt hp
      rw [setpart_get] at hp
      cases hq : s.table[j]? with
      | none => rw [hq] at hp; cases hp
      | some q =>
          have hindex := h.index j q hj hlt hq
          rw [hq] at hp
          rw [← Option.some.inj hp]
          show (if i = j then f q else q).index = j % 256
          split
          · rw [hf]
            exact hindex
          · exact hindex }

/-- The count of a nil `Part`. -/
theorem table_low (s : State) (n : Int) :
    { s with low := { s.low with isopen := n } }.table =
      s.table.map fun p => if s.d.parts = [] then { p with isopen := n } else p := by
  unfold State.table
  by_cases hnil : s.d.parts = []
  · simp only [hnil, if_true, List.map_cons, List.map_nil]
  · simp only [hnil, if_false, List.map_id']

theorem Table.low {s : State} (h : Table s) (n : Int) :
    Table { s with low := { s.low with isopen := n } } :=
  { live := by
      rw [table_low, List.length_map]
      exact h.live
    ready := h.ready
    index := by
      intro i p hi hlt hp
      rw [table_low, List.getElem?_map] at hp
      cases hq : s.table[i]? with
      | none => rw [hq] at hp; cases hp
      | some q =>
          rw [hq] at hp
          rw [← Option.some.inj hp, ← h.index i q hi hlt hq]
          show (if s.d.parts = [] then { q with isopen := n } else q).index = q.index
          split <;> rfl }

theorem Table.setOpen {s : State} (h : Table s) (i : Nat) (n : Int) :
    Table (setOpen s i n) :=
  h.setpart i fun _ => rfl

theorem Did.table {s s' : State} {a : Action} (hd : Table s) (h : Did s a s') :
    Table s' := by
  cases h with
  | arrived q => exact hd.congr rfl rfl rfl
  | «open» hk h =>
      cases h with
      | failed _ => exact hd.congr rfl rfl rfl
      | found _ _ => exact hd.congr rfl rfl rfl
      | tested _ _ _ => exact hd.congr rfl rfl rfl
      | devopened _ => exact hd.congr rfl rfl rfl
      | countedNil _ => exact (hd.low _).congr rfl rfl rfl
      | counted _ => exact (hd.setOpen _ _).congr rfl rfl rfl
      | opened _ => exact hd.congr rfl rfl rfl
  | close hk hlock h =>
      cases h with
      | kept _ => exact hd.congr rfl rfl rfl
      | failed _ _ _ => exact hd.congr rfl rfl rfl
      | panicked _ _ _ _ => exact hd.congr rfl rfl rfl
      | shut _ _ _ _ => exact (hd.setOpen _ _).congr rfl rfl rfl
  | accessing hk => exact hd.congr rfl rfl rfl
  | access hk h =>
      cases h with
      | failed _ => exact hd.congr rfl rfl rfl
      | moved _ => exact hd.congr rfl rfl rfl
      | io _ _ => exact hd.congr rfl rfl rfl
  | raised _ _ _ => exact hd.congr rfl rfl rfl
  | built _ _ hbuilt =>
      obtain ⟨-, -, -, -, hbuilt⟩ := hbuilt
      exact hbuilt.table
  | owned _ h => exact hd.setpart _ fun p => (h p).1

theorem Initial.table {s : State} (h : Initial s) : Table s := by
  obtain ⟨-, -, hnparts, -⟩ := h
  exact {
    live := by rw [hnparts]; exact Nat.zero_le _
    ready := fun hne => absurd hnparts hne
    index := by
      intro i p _ hlt
      omega }

/-! ### A disk to try -/

/-- A store that is not initialised. -/
def blank : State where
  d := { vers := 0, ready := 0, num := 0, name := ascii "bs00", alignmask := 511,
         parts := [], nparts := 0, size := 0 }
  gen := 0
  opens := []
  chans := []
  accesses := []
  low := StoreInit.unread
  log := []
  panicked := false

theorem blank_initial : Initial blank :=
  ⟨rfl, rfl, rfl, rfl, rfl, rfl, rfl, rfl, rfl, rfl⟩

end Kirkwood.Ports.StoreChan
