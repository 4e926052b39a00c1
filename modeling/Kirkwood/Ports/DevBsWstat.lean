import Kirkwood.Ports.DevBsSafe

/-!
# Changing the owner and the permissions of a partition

`bswstat` of `devbs.c` is given a channel on a partition.  It looks up entry 0 of the
table, which is `data`, checks the caller against that, and changes that.

`convM2D`, which reads the message, is not in the repository.  It leaves a name empty and a
number `~0` where nothing is asked, and gives the names only to a caller with room for them;
`bswstat` has none, so that the owner that is asked for never gets to `kstrcpy`.

## Main results

* `bswstat_eq`, `bswstat_spec`: what a call does;
* `bswstat_faithful_iff`: when a call changes the partition that its channel names, and
  no other, on behalf of one who may.
-/

namespace Kirkwood.Ports.DevBsWstat

open Kirkwood.Verified.ByteMem
open Kirkwood.Verified.Outcome
open Kirkwood.Verified.Hoare
open Kirkwood.Verified.Trans
open Kirkwood.Ports.BlockStore
open Kirkwood.Ports.DiskRegistry (Registry)
open Kirkwood.Ports.DevBs
open Kirkwood.Ports.DevBsAccess

/-! ## The code -/

/-- A `Dir`. -/
structure Dir where
  atime : Nat
  mtime : Nat
  length : Int
  mode : Nat
  name : Bytes
  uid : Bytes
  gid : Bytes
  muid : Bytes
  deriving DecidableEq, Repr

/-- `~0` in a `ulong` -/
def unset : Nat := 2 ^ 32 - 1

/-- With empty strings. -/
def Dir.bare (dir : Dir) : Dir := { dir with name := [], uid := [], gid := [], muid := [] }

/-- `convM2D(dp, n, &dir, strs)`: `none` for 0.  `strs` is room for the strings, or nil. -/
structure ConvM2D where
  conv : Bytes → Bool → Option Dir
  bare : ∀ dp, conv dp false = (conv dp true).map Dir.bare

/-- Something else than an owner and permissions is asked for. -/
def Dir.other (dir : Dir) : Prop :=
  dir.atime ≠ unset ∨ dir.mtime ≠ unset ∨ dir.length ≠ -1 ∨ dir.name ≠ [] ∨
    dir.gid ≠ [] ∨ dir.muid ≠ []

instance (dir : Dir) : Decidable dir.other := by
  unfold Dir.other
  infer_instance

section
variable (convM2D : ConvM2D) (kstrcpy : Bytes → Bytes)

/-- What `bswstat` finds in the message. -/
def wstat (dp : Bytes) : Wstat :=
  match convM2D.conv dp false with
  | none => { short := true, other := false, uid := none, mode := none }
  | some dir =>
      { short := false
        other := decide dir.other
        uid := if dir.uid = [] then none else some (kstrcpy dir.uid)
        mode := if dir.mode = unset then none else some dir.mode }

def bswstat (c : Chan) (who : User) (dp : Bytes) : BsM Unit :=
  DevBs.bswstat c who (wstat convM2D kstrcpy dp)

end

/-! ## What it is for -/

/-- Partition `j` of a store. -/
def partition (d : Store) (j : Nat) : Option Part :=
  if j < d.nparts then d.parts[j]? else none

/-- A partition with what is asked for. -/
def Dir.asked (dir : Dir) (p : Part) : Part :=
  { p with
    uid := if dir.uid = [] then p.uid else dir.uid
    perm := if dir.mode = unset then p.perm else dir.mode &&& 0o666 }

def MayWrite (who : User) (p : Part) : Prop :=
  who.eve = true ∨ who.permit p.uid p.perm true = true

/-- The caller owns the host or may write partition `i`. -/
def Authorised (who : User) (d : Store) (i : Nat) : Prop :=
  who.eve = true ∨ ∃ p, partition d i = some p ∧ MayWrite who p

/-- What is asked for has been done to the partition that the channel names, and nothing
to the others. -/
def Changed (c : Chan) (dir : Dir) (d d' : Store) : Prop :=
  ∀ j, partition d' j =
    if j = c.path.part then (partition d j).map dir.asked else partition d j

/-- A call that returns has done what the message asks for, for one who may ask; one that
raises has done nothing. -/
def Faithful (convM2D : ConvM2D) (kstrcpy : Bytes → Bytes) (c : Chan) (who : User)
    (dp : Bytes) (r : Registry) : Prop :=
  match bswstat convM2D kstrcpy c who dp r with
  | .ok () r' => c.path.typ = .Qdiskpart ∧ ∃ dir d parts,
      convM2D.conv dp true = some dir ∧
      r.disks[c.path.disk]? = some (some d) ∧
      r' = put r c.path.disk { d with parts := parts } ∧
      Changed c dir d { d with parts := parts } ∧ Authorised who d c.path.part
  | .error (.error _) r' => r' = r
  | .error _ _ => True

/-! ## What it does -/

/-- A partition with what is written: the permissions. -/
def Dir.written (dir : Dir) (p : Part) : Part :=
  { p with perm := if dir.mode = unset then p.perm else dir.mode &&& 0o666 }

/-- The checks let the call through to `data` of store `d`. -/
structure Granted (convM2D : ConvM2D) (c : Chan) (who : User) (dp : Bytes) (r : Registry)
    (dir : Dir) (d : Store) (data : Part) : Prop where
  typ : c.path.typ = .Qdiskpart
  stat : convM2D.conv dp true = some dir
  only : ¬ dir.bare.other
  store : DiskRegistry.diskget r c.path.disk = .ok (some d)
  ready : d.ready ≠ 0
  entry : partition d 0 = some data
  permit : MayWrite who data

section
variable {convM2D : ConvM2D} {kstrcpy : Bytes → Bytes} {c : Chan} {who : User}
variable {dp : Bytes} {dir : Dir} {r : Registry} {d : Store} {data : Part}

theorem cell_of_diskget {num : Nat} (h : DiskRegistry.diskget r num = .ok (some d)) :
    r.disks[num]? = some (some d) := by
  unfold DiskRegistry.diskget at h
  split at h
  · rw [DiskRegistry.getcell, if_pos (Int.natCast_nonneg num), Int.toNat_natCast] at h
    split at h
    · rename_i hcell
      rw [hcell, Except.ok.inj h]
    · cases h
  · cases h

theorem diskgetlock_found {num : Nat}
    (h : DiskRegistry.diskget r num = .ok (some d)) : diskgetlock num r = .ok num r := by
  have hget : DevBs.diskget num r = .ok (some num) r := by
    unfold DevBs.diskget
    rw [h]
    rfl
  unfold diskgetlock
  rw [bind_ok hget]
  rfl

theorem diskgetlock_reads (num : Nat) :
    Triple (· = r) (diskgetlock num)
      (fun k r' => r' = r ∧ k = num ∧ ∃ d, DiskRegistry.diskget r num = .ok (some d))
      (fun _ r' => r' = r) := by
  cases hget : DiskRegistry.diskget r num with
  | error e =>
      have hlook : DevBs.diskget num r = .error e r := by
        unfold DevBs.diskget
        rw [hget]
      exact Triple.of_error (bind_error hlook) rfl
  | ok o =>
      cases o with
      | none =>
          have hlook : DevBs.diskget num r = .ok none r := by
            unfold DevBs.diskget
            rw [hget]
            rfl
          exact Triple.eval hlook (Triple.of_error rfl rfl)
      | some d => exact Triple.of_ok (diskgetlock_found hget) ⟨rfl, rfl, d, rfl⟩

theorem partition_eq_some {j : Nat} {p : Part} :
    partition d j = some p ↔ j < d.nparts ∧ d.parts[j]? = some p := by
  unfold partition
  split
  · rename_i hj
    exact ⟨fun h => ⟨hj, h⟩, And.right⟩
  · rename_i hj
    exact ⟨nofun, fun h => absurd h.1 hj⟩

theorem partcheck_eq (h : MayWrite who data) {k : Nat}
    (hd : r.disks[k]? = some (some d)) (hp : d.parts[0]? = some data) :
    DevBs.partcheck who k 0 r = .ok () r := by
  unfold DevBs.partcheck
  split
  · rfl
  · rename_i heve
    rw [bind_ok (getpart_eq hd hp)]
    unfold devpermcheck
    rw [if_pos (h.resolve_left heve)]
    rfl

/-- What `bswstat` finds in a message: no owner. -/
theorem wstat_some (h : convM2D.conv dp true = some dir) :
    wstat convM2D kstrcpy dp =
      { short := false
        other := decide dir.bare.other
        uid := none
        mode := if dir.mode = unset then none else some dir.mode } := by
  have hconv : convM2D.conv dp false = some dir.bare := by
    rw [convM2D.bare, h]
    rfl
  unfold wstat
  rw [hconv]
  rfl

theorem wstat_none (h : convM2D.conv dp true = none) :
    (wstat convM2D kstrcpy dp).short = true := by
  have hconv : convM2D.conv dp false = none := by
    rw [convM2D.bare, h]
    rfl
  unfold wstat
  rw [hconv]

/-- A call that the checks let through. -/
theorem bswstat_eq (h : Granted convM2D c who dp r dir d data) :
    bswstat convM2D kstrcpy c who dp r = .ok ()
      (put r c.path.disk { d with parts := d.parts.modify 0 dir.written }) := by
  have hd := cell_of_diskget h.store
  obtain ⟨hn, hp⟩ := partition_eq_some.1 h.entry
  have hwritten : (fun p : Part =>
      { p with
        uid := (none : Option Bytes).getD p.uid
        perm := ((if dir.mode = unset then none else some dir.mode).map
          fun m => m &&& 0o666).getD p.perm }) = dir.written := by
    funext p
    unfold Dir.written
    split <;> rfl
  unfold bswstat DevBs.bswstat
  rw [wstat_some h.stat, if_neg (not_not.2 h.typ), if_neg Bool.false_ne_true,
    if_neg fun hother => h.only (of_decide_eq_true hother),
    bind_ok (diskgetlock_found h.store), bind_ok (xpartget_eq hd h.ready hn),
    bind_ok (partcheck_eq h.permit hd hp), setpart_eq hd hp, hwritten]

theorem partcheck_reads {k : Nat} (hd : r.disks[k]? = some (some d)) :
    Triple (· = r) (DevBs.partcheck who k 0)
      (fun _ r' => r' = r ∧ (who.eve = true ∨ ∃ p, d.parts[0]? = some p ∧ MayWrite who p))
      (fun _ r' => r' = r) := by
  unfold DevBs.partcheck
  refine Triple.ite (fun heve => Triple.of_ok rfl ⟨rfl, .inl heve⟩) fun _ => ?_
  cases hp : d.parts[0]? with
  | none =>
      refine Triple.of_error (bind_error (e := .fault) ?_) rfl
      unfold getpart
      rw [bind_ok (store_eq hd), hp]
      rfl
  | some p =>
      refine Triple.eval (getpart_eq hd hp) ?_
      refine Triple.ite (fun hpermit => ?_) fun _ => Triple.of_error rfl rfl
      exact Triple.of_ok rfl ⟨rfl, .inr ⟨p, rfl, .inr hpermit⟩⟩

/-- A call returns only if the checks let it through, and otherwise leaves all as it
was. -/
theorem bswstat_spec (convM2D : ConvM2D) (kstrcpy : Bytes → Bytes) (c : Chan) (who : User)
    (dp : Bytes) (r : Registry) :
    Triple (· = r) (bswstat convM2D kstrcpy c who dp)
      (fun _ _ => ∃ dir d data, Granted convM2D c who dp r dir d data)
      (fun _ r' => r' = r) := by
  unfold bswstat DevBs.bswstat
  refine Triple.ite (fun _ => Triple.of_error rfl rfl) fun htyp => ?_
  cases hstat : convM2D.conv dp true with
  | none =>
      rw [if_pos (wstat_none hstat)]
      exact Triple.of_error rfl rfl
  | some dir =>
  rw [wstat_some hstat]
  refine Triple.ite (fun _ => Triple.of_error rfl rfl) fun hshort => ?_
  refine Triple.ite (fun _ => Triple.of_error rfl rfl) fun hother => ?_
  refine (diskgetlock_reads _).bind fun k => Triple.fact fun ⟨hk, d, hget⟩ => ?_
  subst hk
  have hd := cell_of_diskget hget
  refine ((xpartget_spec hd 0).weaken fun e r' h => h.2).bind fun i =>
    Triple.fact fun ⟨hi, hready, hn⟩ => ?_
  subst hi
  refine (partcheck_reads hd).bind fun _ => Triple.fact fun hpermit => ?_
  cases hp : d.parts[0]? with
  | none => exact Triple.of_error (setpart_fault hd hp _) rfl
  | some data =>
      refine Triple.of_ok (setpart_eq hd hp _) ⟨dir, d, data, ?_⟩
      exact
        { typ := not_not.1 htyp
          stat := hstat
          only := fun hasked => hother (decide_eq_true hasked)
          store := hget
          ready := hready
          entry := partition_eq_some.2 ⟨hn, hp⟩
          permit := by
            rcases hpermit with heve | ⟨p, hp', hmay⟩
            · exact .inl heve
            · rw [hp] at hp'
              rw [Option.some.inj hp']
              exact hmay }

/-! ## Which calls are faithful -/

/-- What is written to `data` is what is asked of the partition that the channel names: it
is `data`, and no other owner is asked for; or all is as asked for already. -/
def Harmless (c : Chan) (who : User) (dir : Dir) (d : Store) (data : Part) : Prop :=
  if c.path.part = 0 then dir.uid = [] ∨ dir.uid = data.uid
  else
    dir.written data = data ∧
      (∀ p, partition d c.path.part = some p → dir.asked p = p) ∧
      Authorised who d c.path.part

theorem written_eq_asked (p : Part) :
    dir.written p = dir.asked p ↔ dir.uid = [] ∨ dir.uid = p.uid := by
  have huid : dir.written p = dir.asked p ↔
      p.uid = if dir.uid = [] then p.uid else dir.uid := by
    refine ⟨congrArg Part.uid, fun h => ?_⟩
    unfold Dir.written Dir.asked
    congr 1
  rw [huid]
  by_cases hnil : dir.uid = []
  · simp [hnil]
  · simp [hnil, eq_comm]

theorem partition_modify (w : Part → Part) (j : Nat) :
    partition { d with parts := d.parts.modify 0 w } j =
      if j = 0 then (partition d j).map w else partition d j := by
  unfold partition
  by_cases hj : j < d.nparts
  · simp only [hj, if_true, List.getElem?_modify]
    split
    · rename_i hzero
      subst hzero
      simp
    · rename_i hzero
      simp [Ne.symm hzero]
  · simp [hj]

theorem changed_iff (hdata : partition d 0 = some data) (w : Part → Part) :
    Changed c dir d { d with parts := d.parts.modify 0 w } ↔
      if c.path.part = 0 then w data = dir.asked data
      else w data = data ∧ ∀ p, partition d c.path.part = some p → dir.asked p = p := by
  have hall : Changed c dir d { d with parts := d.parts.modify 0 w } ↔
      ∀ j, (if j = 0 then (partition d j).map w else partition d j) =
        if j = c.path.part then (partition d j).map dir.asked else partition d j := by
    unfold Changed
    simp only [partition_modify]
  rw [hall]
  split
  · rename_i hzero
    rw [hzero]
    constructor
    · intro h
      have hfirst := h 0
      rw [if_pos rfl, if_pos rfl, hdata] at hfirst
      exact Option.some.inj hfirst
    · intro h j
      split
      · rename_i hj
        rw [hj, hdata, Option.map_some, Option.map_some, h]
      · rfl
  · rename_i hpart
    constructor
    · intro h
      constructor
      · have hfirst := h 0
        rw [if_pos rfl, if_neg (Ne.symm hpart), hdata] at hfirst
        exact Option.some.inj hfirst
      · intro p hp
        have hnamed := h c.path.part
        rw [if_neg hpart, if_pos rfl, hp] at hnamed
        exact (Option.some.inj hnamed).symm
    · rintro ⟨hfirst, hnamed⟩ j
      by_cases hj : j = 0
      · rw [if_pos hj, if_neg (hj ▸ Ne.symm hpart), hj, hdata, Option.map_some, hfirst]
      · rw [if_neg hj]
        split
        · rename_i hjpart
          rw [hjpart]
          cases hp : partition d c.path.part with
          | none => rfl
          | some p => rw [Option.map_some, hnamed p hp]
        · rfl

/-- **Changes of a partition.**  A call is faithful exactly when the checks refuse it or
what it writes to `data` is harmless. -/
theorem bswstat_faithful_iff (convM2D : ConvM2D) (kstrcpy : Bytes → Bytes) (c : Chan)
    (who : User) (dp : Bytes) (r : Registry) : Faithful convM2D kstrcpy c who dp r ↔
      ∀ dir d data, Granted convM2D c who dp r dir d data →
        Harmless c who dir d data := by
  by_cases hgranted : ∃ dir d data, Granted convM2D c who dp r dir d data
  · obtain ⟨dir, d, data, h⟩ := hgranted
    have hd := cell_of_diskget h.store
    have honly : ∀ dir₁ d₁ data₁, Granted convM2D c who dp r dir₁ d₁ data₁ →
        dir₁ = dir ∧ d₁ = d ∧ data₁ = data := by
      intro dir₁ d₁ data₁ h₁
      have heq : d₁ = d :=
        Option.some.inj (Except.ok.inj (h₁.store.symm.trans h.store))
      refine ⟨Option.some.inj (h₁.stat.symm.trans h.stat), heq,
        Option.some.inj (h₁.entry.symm.trans ?_)⟩
      rw [heq]
      exact h.entry
    have hwritten : Changed c dir d { d with parts := d.parts.modify 0 dir.written } ∧
        Authorised who d c.path.part ↔ Harmless c who dir d data := by
      rw [changed_iff h.entry, Harmless]
      split
      · rename_i hzero
        rw [written_eq_asked, hzero]
        refine ⟨And.left, fun hsame => ⟨hsame, .inr ⟨data, h.entry, h.permit⟩⟩⟩
      · exact and_assoc
    unfold Faithful
    rw [bswstat_eq h]
    constructor
    · rintro ⟨-, dir₁, d₁, parts, hdir₁, hd₁, hput, hchanged, hwho⟩ dir₂ d₂ data₂ h₂
      obtain ⟨rfl, rfl, rfl⟩ := honly dir₂ d₂ data₂ h₂
      obtain rfl : dir₂ = dir₁ := Option.some.inj (h₂.stat.symm.trans hdir₁)
      obtain rfl : d₂ = d₁ := Option.some.inj (Option.some.inj (hd.symm.trans hd₁))
      have hparts : d₂.parts.modify 0 dir₂.written = parts := by
        have hcell := congrArg (fun r : Registry => r.disks[c.path.disk]?) hput
        simp only [put_get (lt_of_store hd)] at hcell
        exact congrArg Store.parts (Option.some.inj (Option.some.inj hcell))
      exact hwritten.1 ⟨hparts ▸ hchanged, hwho⟩
    · intro hharmless
      obtain ⟨hchanged, hwho⟩ := hwritten.2 (hharmless dir d data h)
      exact ⟨h.typ, dir, d, _, h.stat, hd, rfl, hchanged, hwho⟩
  · have hspec := bswstat_spec convM2D kstrcpy c who dp r r rfl
    unfold Faithful
    cases hrun : bswstat convM2D kstrcpy c who dp r with
    | ok a r' =>
        rw [hrun] at hspec
        exact absurd hspec hgranted
    | error e r' =>
        rw [hrun] at hspec
        refine ⟨fun _ dir d data h => absurd ⟨dir, d, data, h⟩ hgranted, fun _ => ?_⟩
        cases e with
        | error msg => exact hspec
        | _ => trivial

end

/-! ## A change of the permissions -/

/-- `n` bytes from `o` on, the lowest first. -/
def le (dp : Bytes) (o n : Nat) : Nat :=
  ((dp.drop o).take n).foldr (fun b x => b.toNat + 256 * x) 0

/-- A string behind its length, and what follows. -/
def str (dp : Bytes) : Option (Bytes × Bytes) :=
  if 2 + le dp 0 2 ≤ dp.length then
    some ((dp.drop 2).take (le dp 0 2), dp.drop (2 + le dp 0 2))
  else none

/-- A message of 9P. -/
def parse (dp : Bytes) : Option Dir := do
  let (name, dp₁) ← str (dp.drop 41)
  let (uid, dp₂) ← str dp₁
  let (gid, dp₃) ← str dp₂
  let (muid, _) ← str dp₃
  some
    { atime := le dp 25 4
      mtime := le dp 29 4
      length := (BitVec.ofNat 64 (le dp 33 8)).toInt
      mode := le dp 21 4
      name := name
      uid := uid
      gid := gid
      muid := muid }

def sampleConvM2D : ConvM2D where
  conv dp strs := (parse dp).map fun dir => if strs then dir else dir.bare
  bare dp := by cases parse dp <;> rfl

/-- A disk of 4096 sectors with one entry in its MBR. -/
def dosdisk : StoreInit.Request where
  dev :=
    { devinit := .ok ()
      size := 4096 * 512
      env :=
        { read := fun _ => .ok (PartTable.mbrSector [(0x0c, 1, 99)])
          tokenize := fun _ => []
          strtoull := fun _ => 0
          seprint := PartTable.sampleSeprint
          alloc := fun _ => true
          fresh := fun _ => 0
          eve := ascii "inferno"
          fuel := 4 } }
  room := true
  junk _ := StoreInit.unread
  splits := StoreInit.splits_nothing

def driver : Driver where
  init := .ok ()
  req := dosdisk
  reads _ _ h := nomatch h

/-- The disk is registered and initialised. -/
def dosup : List Act :=
  [.add ⟨fun _ => true, fun _ => none⟩ DevBsSafe.disk, .init fun _ => driver]

/-- The store after that; `partinit` has made room for one part more. -/
def dosstore : Store :=
  { vers := 1
    ready := 1
    num := 2
    name := ascii "bs02"
    alignmask := 511
    parts := [partdata (ascii "inferno") (4096 * 512),
      PartTable.samplePart 1 0x0c "9fat" 1 100 99,
      { StoreInit.unread with index := 2, uid := ascii "inferno", perm := 0o660 }]
    nparts := 2
    size := 4096 * 512 }

theorem dosup_reached :
    (run step boot dosup).map State.bs = some ⟨[none, none, some dosstore], 2⟩ := by
  decide +kernel

/-- The owner of the host. -/
def host : User := { eve := true, permit := fun _ _ _ => false }

/-- The permissions shall be 0600. -/
def chmod : Bytes :=
  List.replicate 21 0xff ++ [0x80, 0x01, 0, 0] ++ List.replicate 16 0xff ++
    List.replicate 8 0

def chmoddir : Dir where
  atime := unset
  mtime := unset
  length := -1
  mode := 0o600
  name := []
  uid := []
  gid := []
  muid := []

theorem chmod_parse : parse chmod = some chmoddir := by decide +kernel

def dospart (i : Nat) : Chan := ⟨⟨.Qdiskpart, 2, i⟩, 1, false, none⟩

theorem chmod_granted (i : Nat) :
    Granted sampleConvM2D (dospart i) host chmod ⟨[none, none, some dosstore], 2⟩ chmoddir
      dosstore (partdata (ascii "inferno") (4096 * 512)) where
  typ := rfl
  stat := by
    show (parse chmod).map _ = some chmoddir
    rw [chmod_parse]
    rfl
  only := by decide
  store := rfl
  ready := by decide
  entry := rfl
  permit := .inl rfl

/-- A change of `9fat` changes `data`. -/
theorem chmod_unfaithful :
    ¬ ∀ convM2D kstrcpy c who dp as s, run step boot as = some s →
      Faithful convM2D kstrcpy c who dp s.bs := by
  intro hall
  obtain ⟨s, hrun, hbs⟩ := Option.map_eq_some_iff.1 dosup_reached
  have hfaithful := hall sampleConvM2D id (dospart 1) host chmod dosup s hrun
  rw [hbs, Faithful, bswstat_eq (chmod_granted 1)] at hfaithful
  obtain ⟨-, dir, d, parts, -, hd, hput, hchanged, -⟩ := hfaithful
  obtain rfl : dosstore = d := Option.some.inj (Option.some.inj hd)
  have hparts : dosstore.parts.modify 0 chmoddir.written = parts := by
    have hcell := congrArg (fun r : Registry => r.disks[2]?) hput
    exact congrArg Store.parts (Option.some.inj (Option.some.inj hcell))
  have hdata : partition { dosstore with parts := parts } 0 = partition dosstore 0 :=
    hchanged 0
  rw [← hparts] at hdata
  exact absurd hdata (by decide +kernel)

end Kirkwood.Ports.DevBsWstat
