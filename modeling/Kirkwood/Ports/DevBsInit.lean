import Kirkwood.Ports.PartTableNames
import Kirkwood.Ports.DevBsAccess

/-!
# The initialisations of stores

The scan of `partinit` has to name what it finds, and its search for a free name may not end.

## Main results

* `named_iff`: when it does, for each entry and line that the scan comes to;
* `diskinit_spec`, `ctlPartinit_spec`: what an initialisation leaves, with room for the
  first entry;
* `diskinit_lost`, `ctlPartinit_bad`: what it does without;
* `bsinit_spec`, `bsinit_lost`: the same for all stores.
-/

namespace Kirkwood.Ports.DevBsInit

open Kirkwood.Verified.CInt
open Kirkwood.Verified.ByteMem
open Kirkwood.Verified.Outcome
open Kirkwood.Verified.Hoare
open Kirkwood.Ports.BlockStore
open Kirkwood.Ports.DiskRegistry (Registry)
open Kirkwood.Ports.PartTable (Nameable TypeNameable byte readSector tableLines)
open Kirkwood.Ports.StoreInit (PartM Request newVers realloc1 regrown reaches Readable Live
  Regrows partinit_nil)
open Kirkwood.Ports.DevBs
open Kirkwood.Ports.DevBsAccess

/-! ## Initialisations -/

section
variable (req : Request)

/-- The names of the first `n` entries, once there is memory for one more. -/
def taken (n : Nat) (parts : List Part) : List Bytes :=
  ((regrown req.junk parts (n + 1)).take n).map Part.name

/-- Where entry `i` of the MBR is to become part `n`, there is a name for it. -/
def EntryNamed (p : Bytes) (n i : Nat) (parts : List Part) : Prop :=
  req.dev.env.alloc n = true → byte p (446 + i * 16 + 0x4) ≠ 0 →
    TypeNameable req.dev.env.seprint req.dev.env.fuel (taken req n parts)
      (byte p (446 + i * 16 + 0x4))

/-- Where a line is to become part `n`, there is a name for it. -/
def LineNamed (n : Nat) (line : Bytes) (parts : List Part) : Prop :=
  ∀ f1 f2 f3, req.dev.env.tokenize line = [ascii "part", f1, f2, f3] →
    req.dev.env.alloc n = true →
      Nameable req.dev.env.seprint req.dev.env.fuel (taken req n parts) f1 f1

/-- There is one for each line that the scan comes to in the table inside part `i`. -/
def TableNamed (n i : Nat) (parts : List Part) : Prop :=
  ∀ pp, parts[i]? = some pp → ¬ (pp.typ ≠ 0x39 ∨ pp.size < 2 * 512) → ∀ p,
    readSector req.dev.env (vlong (pp.s + 512)) "reading plan 9 partition table" = .ok p →
      EachTurn (StoreInit.tableLine req.dev.env req.junk i) (LineNamed req) (tableLines p) n
        parts

/-- In the search of `partinit` for a name there is a free one: for each entry of the MBR
that the scan comes to, and each line of the tables inside its parts. -/
def Named (size : Int) (parts : List Part) : Prop :=
  ∀ p, readSector req.dev.env 0 "reading mbr" = .ok p →
    ¬ (byte p 510 ≠ 0x55 ∨ byte p 511 ≠ 0xaa) →
      EachTurn (StoreInit.mbrEntry req.dev.env req.junk size p) (EntryNamed req p)
          (List.range 4) 1 parts ∧
        ∀ n parts', (List.range 4).foldlM (StoreInit.mbrEntry req.dev.env req.junk size p) 1
            parts = .ok n parts' →
          EachTurn (StoreInit.table req.dev.env req.junk) (TableNamed req)
            (List.range' 1 (n - 1)) n parts'

end

/-- `diskinit` has room for the first entry when it gets there, and the scan names. -/
def DiskinitOk (v : Driver) (d : Store) : Prop :=
  reaches d (.init v.req) = true →
    v.req.room = true ∧
      Named v.req v.req.dev.size [partdata v.req.dev.env.eve v.req.dev.size]

def PartinitOk (v : Driver) (d : Store) : Prop :=
  (v.req.room = true ∨ Regrows v.req) ∧ Named v.req d.size (realloc1 v.req d.parts)

/-- Store `k` is another one, with the entries that it counts. -/
def Built (r : Registry) (k : Nat) (r' : Registry) : Prop :=
  ∃ d, r' = put r k d ∧ d.nparts ≤ d.parts.length

def RaisedBuilt (r : Registry) (k : Nat) (e : Exn) (r' : Registry) : Prop :=
  Raised e ∧ Built r k r'

/-! ## The search for a name -/

section
variable {req : Request} {α β : Type} {parts : List Part}

theorem not_raises_pure (a : α) (e : Exn) : ¬ Raises (pure a : PartM α) e parts := nofun

theorem raises_lift {x : Except Exn α} {e : Exn} :
    Raises (StoreInit.lift x) e parts ↔ x = .error e := by
  unfold Raises StoreInit.lift
  cases x with
  | ok a => simp
  | error e' => simp

theorem raises_lift_bind {x : Except Exn α} {f : α → PartM β} {e : Exn} :
    Raises (StoreInit.lift x >>= f) e parts ↔
      x = .error e ∨ ∃ a, x = .ok a ∧ Raises (f a) e parts := by
  rw [raises_bind, raises_lift]
  refine or_congr_right ⟨?_, ?_⟩
  · rintro ⟨a, parts', hrun, hrest⟩
    cases x with
    | ok a' =>
        cases hrun
        exact ⟨a, rfl, hrest⟩
    | error e' => exact nomatch hrun
  · rintro ⟨a, rfl, hrest⟩
    exact ⟨a, parts, rfl, hrest⟩

theorem raises_set_bind {n : Nat} {g : Part → Part} {f : Unit → PartM β} {e : Exn} :
    Raises (StoreInit.set n g >>= f) e parts ↔ Raises (f ()) e (parts.modify n g) :=
  raises_bind_ok rfl

theorem raises_entries_bind {n : Nat} {f : List Part → PartM β} {e : Exn} :
    Raises (StoreInit.entries n >>= f) e parts ↔ Raises (f (parts.take n)) e parts :=
  raises_bind_ok rfl

theorem raises_entry_bind {i : Nat} {f : Part → PartM β} :
    Raises (StoreInit.entry i >>= f) .hang parts ↔
      ∃ q, parts[i]? = some q ∧ Raises (f q) .hang parts := by
  cases hq : parts[i]? with
  | some q =>
      have hrun : StoreInit.entry i parts = .ok q parts := by
        unfold StoreInit.entry
        rw [hq]
      rw [raises_bind_ok hrun]
      simp
  | none =>
      have hrun : StoreInit.entry i parts = .error .fault parts := by
        unfold StoreInit.entry
        rw [hq]
      unfold Raises
      rw [bind_error hrun]
      exact iff_of_false nofun nofun

/-- Where there is no memory, it raises that. -/
theorem raises_partrealloc_bind {n : Nat} {f : Unit → PartM β} :
    Raises (StoreInit.partrealloc req.dev.env req.junk n >>= f) .hang parts ↔
      req.dev.env.alloc n = true ∧ Raises (f ()) .hang (regrown req.junk parts (n + 1)) := by
  by_cases halloc : req.dev.env.alloc n = true
  · have hrun : StoreInit.partrealloc req.dev.env req.junk n parts =
        .ok () (regrown req.junk parts (n + 1)) := if_pos halloc
    rw [raises_bind_ok hrun, and_iff_right halloc]
  · have hrun : StoreInit.partrealloc req.dev.env req.junk n parts =
        .error (.error Enomem) parts := if_neg halloc
    unfold Raises
    rw [bind_error hrun]
    exact iff_of_false nofun fun h => halloc h.1

theorem partcheck_ne_hang (s e : Int) (parts : List Part) (size : Int) :
    PartTable.partcheck s e parts size ≠ .error .hang := by
  unfold PartTable.partcheck
  split
  · nofun
  · split
    · nofun
    · split
      · nofun
      · nofun

/-- What is done to the entry behind the first `n` leaves these. -/
theorem take_modify (n : Nat) (f : Part → Part) (parts : List Part) :
    (parts.modify n f).take n = parts.take n := by
  refine List.ext_getElem? fun i => ?_
  rw [List.getElem?_take, List.getElem?_take]
  split
  · next hi => rw [List.getElem?_modify_ne f parts (Nat.ne_of_gt hi)]
  · rfl

theorem mbrEntry_named (size : Int) (p : Bytes) (n i : Nat) (parts : List Part) :
    ¬ Raises (StoreInit.mbrEntry req.dev.env req.junk size p n i) .hang parts ↔
      EntryNamed req p n i parts := by
  unfold StoreInit.mbrEntry EntryNamed taken
  dsimp only
  rw [raises_partrealloc_bind, StoreInit.partclear, raises_set_bind, raises_set_bind, not_and]
  refine imp_congr_right fun _ => ?_
  split
  · next hzero => exact iff_of_true (not_raises_pure _ _) fun hne => absurd hzero hne
  · next hne =>
      rw [raises_entries_bind, raises_lift_bind, PartTable.partname_hang_iff]
      simp only [take_modify, raises_set_bind, raises_lift_bind, partcheck_ne_hang,
        not_raises_pure, and_false, exists_false, or_false, not_not, ne_eq, hne,
        not_false_eq_true, true_imp_iff]

theorem tableLine_named (i n : Nat) (line : Bytes) (parts : List Part) :
    ¬ Raises (StoreInit.tableLine req.dev.env req.junk i n line) .hang parts ↔
      LineNamed req n line parts := by
  unfold StoreInit.tableLine LineNamed taken
  split
  · next f0 f1 f2 f3 hfields =>
      split
      · next hpart =>
          subst hpart
          dsimp only
          rw [raises_partrealloc_bind, StoreInit.partclear, raises_set_bind,
            raises_set_bind, raises_entries_bind, raises_lift_bind,
            PartTable.partgenname_hang_iff, not_and]
          simp only [take_modify, raises_set_bind, raises_entry_bind, raises_lift_bind,
            partcheck_ne_hang, not_raises_pure, and_false, exists_false, or_false, not_not]
          constructor
          · intro h f1' f2' f3' heq
            obtain ⟨rfl, -⟩ := List.cons.inj (List.cons.inj (hfields.symm.trans heq)).2
            exact h
          · exact fun h => h f1 f2 f3 hfields
      · next hpart =>
          refine iff_of_true (fun h => nomatch raises_lift.1 h) fun f1' f2' f3' heq => ?_
          exact absurd (List.cons.inj (hfields.symm.trans heq)).1 hpart
  · next hfields =>
      refine iff_of_true (fun h => nomatch raises_lift.1 h) fun f1 f2 f3 heq => ?_
      exact absurd heq (hfields _ f1 f2 f3)

variable (reads : ∀ off, req.dev.env.read off ≠ .error .hang)
include reads

theorem readSector_ne_hang (off : Int) (msg : String) :
    readSector req.dev.env off msg ≠ .error .hang := by
  unfold readSector
  cases hread : req.dev.env.read off with
  | error e =>
      intro h
      exact reads off (hread.trans (congrArg _ (Except.error.inj h)))
  | ok b =>
      rw [ok_bind]
      split
      · nofun
      · nofun

theorem table_named (n i : Nat) (parts : List Part) :
    ¬ Raises (StoreInit.table req.dev.env req.junk n i) .hang parts ↔
      TableNamed req n i parts := by
  unfold StoreInit.table TableNamed
  rw [raises_entry_bind, not_exists]
  refine forall_congr' fun pp => ?_
  rw [not_and]
  refine imp_congr_right fun _ => ?_
  split
  · next hnone => exact iff_of_true (not_raises_pure _ _) fun hsome => absurd hnone hsome
  · next hsome =>
      rw [imp_iff_right hsome, raises_lift_bind, or_iff_right (readSector_ne_hang reads _ _), not_exists]
      refine forall_congr' fun p => ?_
      rw [not_and, not_raises_foldlM,
        EachTurn.congr fun b line s => tableLine_named i b line s]

theorem named_iff (size : Int) (parts : List Part) :
    Named req size parts ↔
      ¬ Raises (StoreInit.partinit req.dev.env req.junk size) .hang parts := by
  unfold Named StoreInit.partinit
  rw [raises_lift_bind, or_iff_right (readSector_ne_hang reads _ _), not_exists]
  refine forall_congr' fun p => ?_
  rw [not_and]
  refine imp_congr_right fun _ => ?_
  split
  · next hbad =>
      exact iff_of_true (fun hgood => absurd hbad hgood) fun h => nomatch raises_lift.1 h
  · next hgood =>
      rw [imp_iff_right hgood, raises_bind, not_or, not_raises_foldlM,
        EachTurn.congr fun b i s => mbrEntry_named size p b i s]
      simp only [not_exists, not_and, not_raises_foldlM]
      refine and_congr_right fun _ => ?_
      simp only [EachTurn.congr fun b i s => table_named reads b i s]

end

section
variable {r : Registry} {k : Nat} {d : Store} {v : Driver}

theorem readSector_raised (v : Driver) {off : Int} {msg : String} {e : Exn}
    (h : PartTable.readSector v.req.dev.env off msg = .error e) : Raised e := by
  unfold PartTable.readSector at h
  cases hread : v.req.dev.env.read off with
  | error e' =>
      rw [hread, error_bind] at h
      obtain rfl := Except.error.inj h
      exact v.reads off e' hread
  | ok b =>
      rw [hread, ok_bind] at h
      split at h
      · exact nomatch h
      · exact ⟨msg, (Except.error.inj h).symm⟩

/-- A scan leaves the entries that it counts, or one when it does not end well. -/
def Leaves (v : Driver) (size : Int) (parts : List Part) : Prop :=
  match StoreInit.partinit v.req.dev.env v.req.junk size parts with
  | .ok n parts' => n ≤ parts'.length
  | .error e parts' => 1 ≤ parts'.length ∧ (Raised e ∨ e = .hang)

/-- How a scan ends, of a table with an entry. -/
theorem leaves_of_entry (v : Driver) (size : Int) {parts : List Part}
    (h : 1 ≤ parts.length) : Leaves v size parts := by
  have hlive : Live v.req.dev.env parts[0] 1 parts :=
    ⟨List.getElem?_eq_getElem h, Nat.le_refl 1, h, fun i p hi hlt => by omega⟩
  have hreadable : Readable v.req.dev.env := by
    intro off e he
    obtain ⟨msg, rfl⟩ := v.reads off e he
    trivial
  have hspec := StoreInit.scan_spec v.req.junk v.req.splits size parts hlive
  unfold Leaves
  cases hrun : StoreInit.partinit v.req.dev.env v.req.junk size parts with
  | ok n parts' =>
      rw [hrun] at hspec
      exact hspec.1.filled
  | error e parts' =>
      rw [hrun] at hspec
      have hmild := hspec.2 hreadable
      refine ⟨hspec.1.filled, ?_⟩
      cases e with
      | error msg => exact .inl ⟨msg, rfl⟩
      | hang => exact .inr rfl
      | panic msg => exact hmild.elim
      | fault => exact hmild.elim

/-- Without room, and without getting there, it leaves none. -/
theorem partinit_none (hregrow : ¬ Regrows v.req) (size : Int) :
    ∃ msg, StoreInit.partinit v.req.dev.env v.req.junk size [] =
      .error (.error msg) [] := by
  obtain ⟨e, hrun, he⟩ := StoreInit.partinit_unfilled hregrow size
  have hraised : Raised e := he.elim (readSector_raised v) id
  obtain ⟨msg, rfl⟩ := hraised
  exact ⟨msg, hrun⟩

theorem onparts_put (hk : k < r.disks.length) (d : Store) {α : Type} (x : PartM α) :
    onparts k x (put r k d) =
      match x d.parts with
      | .ok a parts => .ok a (put r k { d with parts := parts })
      | .error e parts => .error e (put r k { d with parts := parts }) := by
  unfold onparts
  rw [bind_ok (store_eq (put_get hk d))]
  cases x d.parts with
  | ok a parts =>
      show EStateM.Result.ok a (put (put r k d) k _) = _
      rw [put_put]
  | error e parts =>
      show EStateM.Result.error e (put (put r k d) k _) = _
      rw [put_put]

/-- `d->io` ends. -/
theorem noHang (v : Driver) (off : Int) : v.req.dev.env.read off ≠ .error .hang := by
  intro h
  obtain ⟨msg, hmsg⟩ := v.reads off _ h
  cases hmsg

theorem scan_spec (hk : k < r.disks.length) {size : Int} (hone : d.nparts = 1)
    (hout : Leaves v size d.parts) (hnamed : Named v.req size d.parts) :
    Triple (· = put r k d) (scan v k size) (fun _ => Built r k) (RaisedBuilt r k) := by
  unfold Leaves at hout
  have hrun := onparts_put hk d (StoreInit.partinit v.req.dev.env v.req.junk size)
  unfold scan
  cases hscan : StoreInit.partinit v.req.dev.env v.req.junk size d.parts with
  | ok n parts =>
      rw [hscan] at hout hrun
      refine Triple.eval hrun (Triple.of_ok (update_put hk _ _) ⟨_, rfl, ?_⟩)
      exact hout
  | error e parts =>
      rw [hscan] at hout hrun
      refine Triple.of_error (bind_error hrun) ⟨?_, _, rfl, ?_⟩
      · refine hout.2.resolve_right ?_
        rintro rfl
        exact (named_iff (noHang v) size d.parts).1 hnamed ⟨parts, hscan⟩
      · show d.nparts ≤ parts.length
        rw [hone]
        exact hout.1

theorem scan_lost (hk : k < r.disks.length) {size : Int}
    (hnamed : ¬ Named v.req size d.parts) : Lost (scan v k size) (put r k d) := by
  rw [named_iff (noHang v), not_not] at hnamed
  obtain ⟨parts, hhang⟩ := hnamed
  have hrun := onparts_put hk d (StoreInit.partinit v.req.dev.env v.req.junk size)
  rw [hhang] at hrun
  exact ⟨.hang, _, bind_error hrun, nofun⟩

/-- `realloc` for one entry, which is then stored to. -/
theorem realloc1_data {req : Request} (hroom : req.room = true) (parts : List Part)
    (p : Part) : (realloc1 req parts).modify 0 (fun _ => p) = [p] := by
  unfold realloc1
  rw [if_pos hroom]
  cases parts with
  | nil => rfl
  | cons q qs =>
      have hrest : 1 - (q :: qs).length = 0 := by
        rw [List.length_cons]
        omega
      unfold regrown
      rw [hrest]
      rfl

theorem realloc1_length {req : Request} (hroom : req.room = true) (parts : List Part) :
    1 ≤ (realloc1 req parts).length := by
  unfold realloc1
  rw [if_pos hroom]
  exact StoreInit.regrown_length 1

/-- The store when `diskinit` calls `devinit`. -/
def unready (v : Driver) (d : Store) : Store :=
  { d with ready := 0, nparts := 0, vers := newVers d, size := v.req.dev.size }

/-- The store when `diskinit` has its one entry. -/
def dataonly (v : Driver) (d : Store) : Store :=
  { unready v d with
    parts := [partdata v.req.dev.env.eve v.req.dev.size], nparts := 1, ready := 1 }

theorem diskinit_eq (hd : r.disks[k]? = some (some d)) :
    diskinit v k r = diskfill v k (put r k (unready v d)) := by
  unfold diskinit
  rw [bind_ok (update_eq hd _), bind_ok (update_put (lt_of_store hd) _ _)]
  rfl

/-- `diskinit` where it does not get as far as its `realloc`. -/
theorem diskinit_raises (hd : r.disks[k]? = some (some d))
    (hnot : ¬ reaches d (.init v.req) = true) :
    ∃ msg, diskinit v k r = .error (.error msg) (put r k (unready v d)) := by
  rw [diskinit_eq hd]
  unfold diskfill
  rw [StoreInit.reaches_init, not_and] at hnot
  cases hdevinit : v.req.dev.devinit with
  | error msg => exact ⟨msg, rfl⟩
  | ok u =>
      have hmask : band v.req.dev.size d.alignmask ≠ 0 := hnot hdevinit
      refine ⟨"misaligned size", ?_⟩
      rw [bind_ok (show device (.ok u) (put r k (unready v d)) = .ok u _ from rfl),
        bind_ok (store_eq (put_get (lt_of_store hd) _))]
      exact congrFun (if_pos hmask) _

/-- `diskinit` where it does. -/
theorem diskinit_reaches (hd : r.disks[k]? = some (some d))
    (hreach : reaches d (.init v.req) = true) :
    (v.req.room = true → diskinit v k r =
      waserror (scan v k v.req.dev.size) (fun _ => pure ()) (put r k (dataonly v d))) ∧
    (v.req.room = false → Lost (diskinit v k) r) := by
  have hk := lt_of_store hd
  obtain ⟨hdevinit, hmask⟩ := StoreInit.reaches_init.1 hreach
  have hmask' : ¬ band (unready v d).size (unready v d).alignmask ≠ 0 := not_not.2 hmask
  have hstart := diskinit_eq (v := v) hd
  unfold diskfill at hstart
  rw [hdevinit, bind_ok (show device (.ok ()) (put r k (unready v d)) = .ok () _ from rfl),
    bind_ok (store_eq (put_get hk _)), if_neg hmask', bind_ok (update_put hk _ _)] at hstart
  constructor
  · intro hroom
    obtain ⟨q, hq⟩ : ∃ q, (realloc1 v.req (unready v d).parts)[0]? = some q :=
      ⟨_, List.getElem?_eq_getElem (realloc1_length hroom _)⟩
    rw [bind_ok (setpart_eq (put_get hk _) hq _), put_put, bind_ok (update_put hk _ _)]
      at hstart
    rw [hstart]
    unfold dataonly
    rw [realloc1_data hroom]
    rfl
  · intro hroom
    have hnone : (realloc1 v.req (unready v d).parts)[0]? = none := by
      unfold realloc1
      rw [hroom]
      rfl
    rw [bind_error (setpart_fault (put_get hk _) hnone _)] at hstart
    exact fault_lost hstart

theorem diskinit_spec (hd : r.disks[k]? = some (some d)) (hok : DiskinitOk v d) :
    Triple (· = r) (diskinit v k) (fun _ => Built r k) (RaisedBuilt r k) := by
  have hk := lt_of_store hd
  by_cases hreach : reaches d (.init v.req) = true
  · obtain ⟨hroom, hnamed⟩ := hok hreach
    have hscan := waserror_spec (R := RaisedBuilt r k) (fun _ => pure ())
      (scan_spec (d := dataonly v d) hk rfl (leaves_of_entry v _ (Nat.le_refl 1)) hnamed)
      fun _ => Triple.pure fun _ h => h
    rintro _ rfl
    rw [(diskinit_reaches hd hreach).1 hroom]
    exact hscan _ rfl
  · obtain ⟨msg, hrun⟩ := diskinit_raises (v := v) hd hreach
    exact Triple.of_error hrun ⟨⟨msg, rfl⟩, _, rfl, Nat.zero_le _⟩

theorem diskinit_lost (hd : r.disks[k]? = some (some d)) (hok : ¬ DiskinitOk v d) :
    Lost (diskinit v k) r := by
  unfold DiskinitOk at hok
  rw [Classical.not_imp, not_and] at hok
  obtain ⟨hreach, hbad⟩ := hok
  cases hroom : v.req.room with
  | true =>
      obtain ⟨e, r', hrun, he⟩ :=
        (scan_lost (d := dataonly v d) (lt_of_store hd) (hbad hroom)).waserror
          fun _ => pure ()
      exact ⟨e, r', ((diskinit_reaches hd hreach).1 hroom).trans hrun, he⟩
  | false => exact (diskinit_reaches hd hreach).2 hroom

/-- The store when the `partinit` command calls `partinit`. -/
def cut (v : Driver) (d : Store) : Store :=
  { d with parts := realloc1 v.req d.parts, nparts := 1, vers := newVers d }

theorem ctlPartinit_eq (hd : r.disks[k]? = some (some d)) (hready : d.ready ≠ 0) :
    ctlPartinit v k r = scan v k d.size (put r k (cut v d)) := by
  unfold ctlPartinit
  rw [bind_ok (store_eq hd), if_neg hready, bind_ok (update_eq hd _),
    bind_ok (update_put (lt_of_store hd) _ _)]
  rfl

theorem ctlPartinit_spec (h : Inv r) (hd : r.disks[k]? = some (some d))
    (hok : d.ready ≠ 0 → PartinitOk v d) :
    Triple (· = r) (ctlPartinit v k) (fun _ => Built r k) (RaisedBuilt r k) := by
  by_cases hready : d.ready = 0
  · have hrun : ctlPartinit v k r = .error (.error Enodisk) r := by
      unfold ctlPartinit
      rw [bind_ok (store_eq hd), if_pos hready]
      rfl
    exact Triple.of_error hrun ⟨⟨_, rfl⟩, d, (put_self hd).symm, h.tables k d hd⟩
  · obtain ⟨hmem, hnamed⟩ := hok hready
    have hleaves : Leaves v d.size (cut v d).parts := by
      cases hroom : v.req.room with
      | true => exact leaves_of_entry v _ (realloc1_length hroom _)
      | false =>
          have hregrow := hmem.resolve_left (by rw [hroom]; decide)
          have hnil : (cut v d).parts = [] := by
            show realloc1 v.req d.parts = []
            unfold realloc1
            rw [hroom]
            rfl
          have hone : Leaves v d.size [v.req.junk 0] :=
            leaves_of_entry v _ (Nat.le_refl 1)
          unfold Leaves at hone ⊢
          rw [hnil, partinit_nil hregrow]
          exact hone
    rintro _ rfl
    rw [ctlPartinit_eq hd hready]
    exact scan_spec (lt_of_store hd) rfl hleaves hnamed _ rfl

theorem ctlPartinit_bad (hd : r.disks[k]? = some (some d)) (hready : d.ready ≠ 0)
    (hok : ¬ PartinitOk v d) : Bad (ctlPartinit v k) r := by
  unfold Bad Lost
  rw [ctlPartinit_eq hd hready]
  by_cases hnamed : Named v.req d.size (cut v d).parts
  · have hmem : ¬ (v.req.room = true ∨ Regrows v.req) := fun hmem => hok ⟨hmem, hnamed⟩
    rw [not_or, Bool.not_eq_true] at hmem
    have hnil : (cut v d).parts = [] := by
      show realloc1 v.req d.parts = []
      unfold realloc1
      rw [hmem.1]
      rfl
    obtain ⟨msg, hscan⟩ := partinit_none (v := v) hmem.2 d.size
    have hrun := onparts_put (lt_of_store hd) (cut v d)
      (StoreInit.partinit v.req.dev.env v.req.junk d.size)
    rw [hnil, hscan] at hrun
    refine .inr ⟨msg, _, bind_error hrun, fun hcounted => ?_⟩
    have hmany := hcounted k _ (put_get (lt_of_store hd) _)
    exact absurd hmany (Nat.not_succ_le_zero 0)
  · exact .inl (scan_lost (lt_of_store hd) hnamed)

end

/-! ## The start of all stores -/

section
variable {r : Registry} {devs : Nat → Driver}

/-- What the turn for number `i` needs. -/
def TurnOk (devs : Nat → Driver) (r : Registry) (i : Nat) : Prop :=
  ∀ d, r.disks[i]? = some (some d) → d.ready = 0 → (devs i).init = .ok () →
    DiskinitOk (devs i) d

/-- Nothing has changed but store `i`. -/
structure Turned (r : Registry) (i : Nat) (r' : Registry) : Prop where
  inv : Inv r'
  there : r'.disks ≠ []
  others : ∀ j, j ≠ i → r'.disks[j]? = r.disks[j]?

theorem Turned.refl (h : Inv r) (hnil : r.disks ≠ []) (i : Nat) : Turned r i r :=
  ⟨h, hnil, fun _ _ => rfl⟩

theorem Built.inv {k : Nat} {r' : Registry} (h : Inv r) (hb : Built r k r') : Inv r' := by
  obtain ⟨d, rfl, hd⟩ := hb
  exact h.put hd

theorem Built.turned {k : Nat} {r' : Registry} (h : Inv r) (hnil : r.disks ≠ [])
    (hb : Built r k r') : Turned r k r' := by
  obtain ⟨d, rfl, hd⟩ := hb
  exact ⟨h.put hd, fun hn => hnil (put_disks_eq_nil.1 hn), fun _ hj => put_ne hj⟩

theorem bsinitturn_spec (h : Inv r) (hnil : r.disks ≠ []) {i : Nat}
    (hok : TurnOk devs r i) :
    Triple (· = r) (bsinitturn devs i) (fun _ => Turned r i) (fun _ _ => False) := by
  have hsame : Triple (· = r) (Pure.pure () : BsM Unit) (fun _ => Turned r i)
      (fun _ _ => False) := by
    refine Triple.pure ?_
    rintro _ rfl
    exact .refl h hnil i
  unfold bsinitturn
  have hf : Found r (i : Int) := fun hn => absurd hn hnil
  refine (diskget_spec h hf).bind fun o => Triple.fact fun ho => ?_
  cases o with
  | none => exact hsame
  | some k =>
      obtain ⟨hk, d, hd⟩ := ho k rfl
      obtain rfl : k = i := Int.natCast_inj.1 hk
      refine Triple.eval (store_eq hd) ?_
      refine Triple.ite (fun _ => hsame) fun hready => ?_
      refine waserror_spec (S := Turned r k) _ ?_ fun _ => Triple.pure fun _ ht => ht
      have hdevice : Triple (· = r) (device (devs k).init)
          (fun u r' => r' = r ∧ (devs k).init = .ok u)
          (fun e r' => Raised e ∧ Turned r k r') :=
        (device_spec _).weaken fun _ _ hk => ⟨hk.1, hk.2 ▸ .refl h hnil k⟩
      refine hdevice.bind fun u => Triple.fact fun hinit => ?_
      have hbuilt := diskinit_spec hd (hok d hd (not_not.1 hready) hinit)
      refine (hbuilt.conseq (fun _ hr => hr) fun _ _ hb => hb.turned h hnil).weaken ?_
      exact fun e r' hb => ⟨hb.1, hb.2.turned h hnil⟩

theorem bsinitturn_lost (h : Inv r) {i : Nat} (hok : ¬ TurnOk devs r i) :
    Lost (bsinitturn devs i) r := by
  unfold TurnOk at hok
  simp only [not_forall] at hok
  obtain ⟨d, hd, hready, hinit, hbad⟩ := hok
  unfold bsinitturn
  refine Lost.eval (diskget_eq h hd) (Lost.eval (store_eq hd) ?_)
  rw [if_neg (not_not.2 hready), hinit]
  exact (Lost.eval rfl (diskinit_lost hd hbad)).waserror _

/-- The loop of `bsinit`. -/
theorem initloop_spec {is : List Nat} (hdistinct : is.Nodup) (h : Inv r)
    (hnil : r.disks ≠ []) (hok : ∀ i ∈ is, TurnOk devs r i) :
    Triple (· = r) (forM is (bsinitturn devs)) (fun _ => Inv) (fun _ _ => False) := by
  induction is generalizing r with
  | nil =>
      refine Triple.pure ?_
      rintro _ rfl
      exact h
  | cons i is ih =>
      rw [List.forM_cons]
      refine (bsinitturn_spec h hnil (hok i List.mem_cons_self)).bind fun _ => ?_
      intro r' hturn
      refine ih (List.nodup_cons.1 hdistinct).2 hturn.inv hturn.there (fun j hj d hd => ?_)
        r' rfl
      have hji : j ≠ i := fun hji => (List.nodup_cons.1 hdistinct).1 (hji ▸ hj)
      rw [hturn.others j hji] at hd
      exact hok j (List.mem_cons_of_mem i hj) d hd

theorem initloop_lost {is : List Nat} (hdistinct : is.Nodup) (h : Inv r)
    (hnil : r.disks ≠ []) (hbad : ∃ i ∈ is, ¬ TurnOk devs r i) :
    Lost (forM is (bsinitturn devs)) r := by
  induction is generalizing r with
  | nil =>
      obtain ⟨i, hi, -⟩ := hbad
      exact absurd hi List.not_mem_nil
  | cons i is ih =>
      rw [List.forM_cons]
      by_cases hok : TurnOk devs r i
      · have hspec := bsinitturn_spec h hnil hok r rfl
        cases hrun : bsinitturn devs i r with
        | error e r' =>
            rw [hrun] at hspec
            exact hspec.elim
        | ok u r' =>
            rw [hrun] at hspec
            refine Lost.eval hrun ?_
            refine ih (List.nodup_cons.1 hdistinct).2 hspec.inv hspec.there ?_
            obtain ⟨j, hj, hbadj⟩ := hbad
            have hji : j ≠ i := fun hji => hbadj (hji ▸ hok)
            refine ⟨j, (List.mem_cons.1 hj).resolve_left hji, fun hokj => hbadj ?_⟩
            intro d hd
            rw [← hspec.others j hji] at hd
            exact hokj d hd
      · exact (bsinitturn_lost h hok).bind

/-- What `bsinit` needs. -/
def InitOk (devs : Nat → Driver) (r : Registry) : Prop :=
  r.disks ≠ [] ∧ ∀ i, TurnOk devs r i

theorem bsinit_spec (h : Inv r) (hok : InitOk devs r) :
    Triple (· = r) (bsinit devs) (fun _ => Inv) (fun _ _ => False) := by
  unfold bsinit
  refine Triple.eval (show (get : BsM Registry) r = .ok r r from rfl) ?_
  exact initloop_spec List.nodup_range h hok.1 fun i _ => hok.2 i

theorem bsinit_lost (h : Inv r) (hok : ¬ InitOk devs r) : Lost (bsinit devs) r := by
  unfold bsinit
  refine Lost.eval (show (get : BsM Registry) r = .ok r r from rfl) ?_
  by_cases hnil : r.disks = []
  · have hmax := (h.array.resolve_right (by rw [hnil]; simp)).2
    rw [hmax]
    show Lost (forM ([0] : List Nat) (bsinitturn devs)) r
    rw [List.forM_cons]
    have hnone : ¬ Found r ((0 : Nat) : Int) := fun hf => hf hnil rfl
    exact (fault_lost (diskget_lost h hnone)).bind.bind
  · unfold InitOk at hok
    rw [not_and, not_forall] at hok
    obtain ⟨i, hi⟩ := hok hnil
    refine initloop_lost List.nodup_range h hnil ⟨i, ?_, hi⟩
    unfold TurnOk at hi
    simp only [not_forall] at hi
    obtain ⟨d, hd, -⟩ := hi
    have hlt := lt_of_store hd
    rw [h.array.resolve_left fun hn => hnil hn.1] at hlt
    exact List.mem_range.2 hlt

end

end Kirkwood.Ports.DevBsInit
