import Kirkwood.Ports.DevBsLocks
import Kirkwood.Verified.LockOrder

/-!
# The order in which the block-store device asks for locks

`bs` is asked for with nothing held, and a store with `bs` held and the store itself not:
a process that waits for a lock to write would stop one that asks for it again.

A walk, a stat or a read of a directory locks `bs` and, from a file of a disk, that disk.
`bsgen` locks the disks that it lists at the top, one at a time.  The routines that ask
`bsgen` are not in the repository; what is known of them is what they ask.

## Main results

* `runquery_free`: with no store held all questions are harmless;
* `walks_keep`, `walks_break`: a walk from the directory of a disk, by the names that it
  looks up at the top;
* `ordered_iff`: the walks, stats and reads of a directory that keep the order.
-/

namespace Kirkwood.Ports.DevBsRelock

open Kirkwood.Verified.ByteMem
open Kirkwood.Verified.Outcome
open Kirkwood.Verified.Hoare
open Kirkwood.Verified.Unwind
open Kirkwood.Verified.LockOrder
open Kirkwood.Ports.BlockStore
open Kirkwood.Ports.DiskRegistry (Registry)
open Kirkwood.Ports.DevBs (BsM Chan Path Qtype Query Routine Answer Reading bstab tabled)
open Kirkwood.Ports.DevBsLocks

/-! ## The order -/

/-- `bs` comes first, and no store comes twice, in whatever modes. -/
def Allowed : RWlock × Mode → Multiset (RWlock × Mode) → Prop
  | (.bs, _), H => H = 0
  | (.store k, _), H => RWlock.store k ∉ H.map Prod.fst ∧ RWlock.bs ∈ H.map Prod.fst

instance (x : RWlock × Mode) (H : Multiset (RWlock × Mode)) : Decidable (Allowed x H) :=
  match x with
  | (.bs, _) => inferInstanceAs (Decidable (H = 0))
  | (.store k, _) => inferInstanceAs
      (Decidable (RWlock.store k ∉ H.map Prod.fst ∧ RWlock.bs ∈ H.map Prod.fst))

/-! ## Names -/

/-- `bs.maxdisk`, and the names of the stores in the cells of `bs.disks`. -/
abbrev Names := Nat × List (Option Bytes)

/-- What changes only with `bs` locked for writing. -/
def naming (r : Registry) : Names := (r.maxdisk, r.disks.map (Option.map Store.name))

/-- The name of entry `i` at the top. -/
def topname (N : Names) : Nat → Option Bytes
  | 0 => some (bstab .Qbsctl).1
  | 1 => some (bstab .Qbsevent).1
  | i + 2 => N.2[i]?.join

/-- The first entry at the top that has the name, before that of disk `k`. -/
def firstentry (N : Names) (k : Nat) (name : Bytes) : Option Nat :=
  (List.range (k + 2)).find? fun i => topname N i = some name

/-- Whether a walk along the names, at the top or in the directory of a disk, gets as far
as the entry of disk `k`. -/
def passes (N : Names) (k : Nat) : Bool → List Bytes → Bool
  | _, [] => false
  | top, name :: names =>
      if name = ascii "." then passes N k top names
      else if name = ascii ".." then passes N k true names
      else if top then
        match firstentry N k name with
        | none => true
        | some i => 2 ≤ i && passes N k false names
      else false

/-- A walk from the directory of a disk that gets as far as its entry at the top. -/
def Relocks (r : Registry) (path : Path) (names : List Bytes) : Prop :=
  path.typ = .Qdiskdir ∧ path.disk ≤ r.maxdisk ∧
    topname (naming r) (path.disk + 2) ≠ none ∧
    passes (naming r) path.disk false names = true

instance (r : Registry) (path : Path) (names : List Bytes) :
    Decidable (Relocks r path names) :=
  inferInstanceAs (Decidable (_ ∧ _ ∧ _ ∧ _))

/-! ## The routines of the kernel -/

/-- `QTDIR` -/
def Isdir (path : Path) : Prop := path.typ = .Qdir ∨ path.typ = .Qdiskdir

instance (path : Path) : Decidable (Isdir path) := inferInstanceAs (Decidable (_ ∨ _))

section
variable {α : Type}

def Stops : Query α → Prop
  | .done _ => True
  | _ => False

/-- Only `path` is asked about, as by `devstat` and `devdirread`. -/
def Scans (path : Path) : Query α → Prop
  | .done _ => True
  | .gen p _ next => p = path ∧ ∀ a, Scans path (next a)
  | .dotdot _ _ => False

/-- The entries of `path` from `i` on are gone through for one of that name, and the walk
goes on there. -/
def Looks (name : Bytes) (path : Path) (goes : Path → Query α → Prop) :
    Nat → Nat → Query α → Prop
  | 0, _, q => Stops q
  | fuel + 1, i, .gen p j next =>
      p = path ∧ j = i ∧ Stops (next .none) ∧
        Looks name path goes fuel (i + 1) (next .skip) ∧
        ∀ dir, if dir.name = name then goes dir.path (next (.found dir))
          else Looks name path goes fuel (i + 1) (next (.found dir))
  | _, _, _ => False

/-- What `devwalk` asks from `path` on, if it looks at no more than `bound` entries of a
directory.  It stops at a file, and where there is no entry of the name. -/
def Walks (bound : Nat) : List Bytes → Path → Query α → Prop
  | [], _, q => Stops q
  | name :: names, path, q =>
      if ¬ Isdir path then Stops q
      else if name = ascii "." then Walks bound names path q
      else if name = ascii ".." then
        match q with
        | .dotdot p next => p = path ∧ ∀ dir, Walks bound names dir.path (next (.found dir))
        | _ => False
      else Looks name path (Walks bound names) bound 0 q

end

/-- A walk along names, a stat or a read of a directory, from `path` on. -/
inductive Visits (bound : Nat) : Operation → Path → List Bytes → Prop
  | walk {c : Chan} {devwalk : Routine (List Path)} {names : List Bytes}
      (h : Walks bound names c.path devwalk.query) :
      Visits bound (.walk c devwalk) c.path names
  | stat {c : Chan} {devstat : Routine Int} (h : Scans c.path devstat.query) :
      Visits bound (.stat c devstat) c.path []
  | dirread {c : Chan} {a : Reading} (hdir : Isdir c.path)
      (h : Scans c.path a.devdirread.query) : Visits bound (.read c a) c.path []

/-- A process with no locks, which finds `r` when it has locked `bs`; from then on others
change no names. -/
structure Entering (r : Registry) (s : BsState) : Prop where
  held : s.held = 0
  asked : s.asked = []
  found : s.later = r
  others : ∀ f ∈ s.others.tail, ∀ r', naming (f r') = naming r'

/-! ## What is read -/

section
variable {r r' : Registry} {N : Names} {k i : Nat}

theorem topname_store {d : Store} (hN : naming r = N) (hd : r.disks[k]? = some (some d)) :
    topname N (k + 2) = some d.name := by
  subst hN
  simp [topname, naming, hd]

theorem topname_none (hN : naming r = N) (hd : r.disks[k]? = some none) :
    topname N (k + 2) = none := by
  subst hN
  simp [topname, naming, hd]

theorem store_reads {d : Store} (h : DevBs.store k r = .ok d r') :
    r' = r ∧ r.disks[k]? = some (some d) := by
  unfold DevBs.store at h
  split at h
  · rename_i d' hd
    cases h
    exact ⟨rfl, hd⟩
  · cases h

/-- A number that is looked up, with the cell that says whether there is a store. -/
theorem diskget_reads {o : Option Nat} (h : DevBs.diskget k r = .ok o r') :
    r' = r ∧ (k ≤ r.maxdisk → ∃ c, r.disks[k]? = some c ∧ o = c.map fun _ => k) ∧
      (r.maxdisk < k → o = none) := by
  unfold DevBs.diskget DiskRegistry.diskget DiskRegistry.getcell at h
  by_cases hk : k ≤ r.maxdisk
  · rw [if_pos ⟨Int.natCast_nonneg k, Int.ofNat_le.2 hk⟩, if_pos (Int.natCast_nonneg k),
      Int.toNat_natCast] at h
    cases hc : r.disks[k]? with
    | none =>
        rw [hc] at h
        cases h
    | some c =>
        rw [hc] at h
        cases h
        exact ⟨rfl, fun _ => ⟨c, rfl, rfl⟩, fun hlt => absurd hk (Nat.not_le_of_lt hlt)⟩
  · rw [if_neg fun hin => hk (Int.ofNat_le.1 hin.2)] at h
    cases h
    exact ⟨rfl, fun hle => absurd hle hk, fun _ => rfl⟩

theorem getpart_reads {p : Part} (h : DevBs.getpart k i r = .ok p r') : r' = r := by
  unfold DevBs.getpart at h
  cases hd : DevBs.store k r with
  | ok d r'' =>
      rw [bind_ok hd] at h
      obtain ⟨rfl, -⟩ := store_reads hd
      cases hp : d.parts[i]? with
      | none =>
          rw [hp] at h
          cases h
      | some p' =>
          rw [hp] at h
          cases h
          rfl
  | error e r'' =>
      rw [bind_error hd] at h
      cases h

theorem device_reads {α : Type} {out : Except String α} {a : α}
    (h : DevBs.device out r = .ok a r') : r' = r := by
  cases out with
  | ok b =>
      cases h
      rfl
  | error msg => cases h

end

/-! ## A question, and the locks -/

section
variable {N : Names} {H : Multiset (RWlock × Mode)} {α : Type} {Q : α → Prop}

/-- Routines with the locks `H` that keep the order, while the names are `N`. -/
abbrev Orderly (N : Names) (H : Multiset (RWlock × Mode)) (x : BsProc α) (Q : α → Prop) :
    Prop :=
  Keeps Allowed (naming · = N) H x Q

/-- Work on the stores that changes nothing. -/
theorem onbs_orderly {x : BsM α}
    (h : ∀ r a r', naming r = N → x r = .ok a r' → r' = r ∧ Q a) :
    Orderly N H (onbs x) Q := by
  refine Keeps.lift _ fun r a r' hr hx => ?_
  obtain ⟨rfl, hQ⟩ := h r a r' hr hx
  exact ⟨hQ, hr⟩

theorem panic_orderly (msg : String) : Orderly N H (panic msg) Q := Keeps.stop _

theorem diskget_orderly (num : Nat) :
    Orderly N H (diskget num) fun o =>
      (o = none → num ≤ N.1 → topname N (num + 2) = none) ∧
        ∀ k, o = some k → k = num ∧ num ≤ N.1 ∧ topname N (num + 2) ≠ none := by
  refine onbs_orderly fun r o r' hN hrun => ?_
  obtain ⟨hr, hin, hout⟩ := diskget_reads hrun
  have hmax : r.maxdisk = N.1 := congrArg Prod.fst hN
  refine ⟨hr, fun ho hle => ?_, fun k hk => ?_⟩
  · obtain ⟨c, hc, hmap⟩ := hin (hmax ▸ hle)
    cases c with
    | none => exact topname_none hN hc
    | some d => exact nomatch ho.symm.trans hmap
  · have hle : num ≤ r.maxdisk := by
      by_contra hgt
      exact nomatch hk.symm.trans (hout (Nat.lt_of_not_le hgt))
    obtain ⟨c, hc, hmap⟩ := hin hle
    cases c with
    | none => exact nomatch hk.symm.trans hmap
    | some d =>
        refine ⟨Option.some.inj (hk.symm.trans hmap), hmax ▸ hle, ?_⟩
        rw [topname_store hN hc]
        nofun

theorem store_orderly (k : Nat) :
    Orderly N H (onbs (DevBs.store k)) fun d => topname N (k + 2) = some d.name :=
  onbs_orderly fun _ _ _ hN hrun =>
    ⟨(store_reads hrun).1, topname_store hN (store_reads hrun).2⟩

theorem call_orderly (site : Site) : Orderly N H (call site) fun _ => True :=
  Keeps.call site

theorem listing_orderly (a : Answer) : Orderly N H (listing a) (· = a) :=
  (call_orderly .devdir).bind fun _ _ => Keeps.pure rfl

theorem entry_orderly (a : Answer) : Orderly N H (entry a) (· = a) :=
  (call_orderly .mkqid).bind fun _ _ => listing_orderly a

/-- What is found is a file. -/
def Infile (a : Answer) : Prop := ∀ dir, a = .found dir → ¬ Isdir dir.path

/-- Below the directory of a disk no lock is asked for. -/
theorem gendisk_orderly (eve : Bytes) (path : Path) (i : Nat) :
    Orderly N H (gendisk eve path i) Infile := by
  have htabled : ∀ t num, ¬ (t = .Qdir ∨ t = .Qdiskdir) →
      Orderly N H (entry (tabled eve t num)) Infile := by
    intro t num ht
    refine (entry_orderly _).weaken fun a ha => ?_
    rintro dir hdir
    rw [ha] at hdir
    cases hdir
    exact ht
  refine (diskget_orderly path.disk).bind fun o _ => ?_
  cases o with
  | none => exact Keeps.pure nofun
  | some k =>
      refine (store_orderly k).bind fun d _ => ?_
      refine Keeps.ite (fun _ => Keeps.pure nofun) fun _ => ?_
      match i with
      | 0 => exact htabled _ _ (by decide)
      | 1 => exact htabled _ _ (by decide)
      | 2 => exact htabled _ _ (by decide)
      | 3 => exact htabled _ _ (by decide)
      | i + 4 =>
          refine Keeps.ite (fun _ => Keeps.pure nofun) fun _ => ?_
          have hpart : Orderly N H (onbs (DevBs.getpart k i)) fun _ => True :=
            onbs_orderly fun r p r' _ hrun => ⟨getpart_reads hrun, trivial⟩
          refine hpart.bind fun p _ => (entry_orderly _).weaken fun a ha => ?_
          rintro dir hdir
          rw [ha] at hdir
          cases hdir
          exact nofun

/-- What entry `i` at the top is. -/
def Topentry (N : Names) (i : Nat) : Answer → Prop
  | .none => True
  | .skip => topname N i = none
  | .found dir => topname N i = some dir.name ∧
      if i < 2 then ¬ Isdir dir.path else dir.path.typ = .Qdiskdir

/-- With `bs` held and the disk not. -/
theorem genroot_orderly (eve : Bytes) (i : Nat) (hbs : RWlock.bs ∈ H.map Prod.fst)
    (hfree : RWlock.store i ∉ H.map Prod.fst) :
    Orderly N H (genroot eve i) (Topentry N (i + 2)) := by
  have hmax : Orderly N H (onbs get) fun r => r.maxdisk = N.1 :=
    onbs_orderly fun r r' r'' hN hrun => by
      cases hrun
      exact ⟨rfl, congrArg Prod.fst hN⟩
  refine hmax.bind fun r hr => Keeps.ite (fun _ => Keeps.pure trivial) fun hle => ?_
  refine (diskget_orderly i).bind fun o ho => ?_
  cases o with
  | none => exact Keeps.pure (ho.1 rfl (by omega))
  | some k =>
      obtain ⟨rfl, -, -⟩ := ho.2 k rfl
      refine Triple.bind (lock_keeps ⟨hfree, hbs⟩) fun _ => ?_
      refine Triple.bind (store_orderly k) fun d => Triple.fact fun hname => ?_
      refine Triple.bind (call_orderly .mkqidlocked) fun _ => Triple.fact fun _ => ?_
      refine Triple.bind (call_orderly .devdirlocked) fun _ => Triple.fact fun _ => ?_
      refine unlock_keeps.bind fun _ => Keeps.pure ⟨hname, ?_⟩
      rw [if_neg (by omega)]

/-- Entry `i` at the top, with the disk that is listed there not held. -/
theorem bsgen_orderly (eve : Bytes) {path : Path} (i : Nat) (htop : path.typ.ofdisk = false)
    (hbs : RWlock.bs ∈ H.map Prod.fst)
    (hfree : ∀ k, i = k + 2 → RWlock.store k ∉ H.map Prod.fst) :
    Orderly N H (bsgen eve path i) (Topentry N i) := by
  refine Keeps.ite (fun hdisk => ?_) fun _ => ?_
  · rw [htop] at hdisk
    cases hdisk
  · match i with
    | 0 =>
        refine (listing_orderly _).weaken fun a ha => ?_
        rw [ha]
        exact ⟨rfl, show ¬ (Qtype.Qbsctl = .Qdir ∨ Qtype.Qbsctl = .Qdiskdir) by decide⟩
    | 1 =>
        refine (listing_orderly _).weaken fun a ha => ?_
        rw [ha]
        exact ⟨rfl, show ¬ (Qtype.Qbsevent = .Qdir ∨ Qtype.Qbsevent = .Qdiskdir) by decide⟩
    | i + 2 => exact genroot_orderly eve i hbs (hfree i rfl)

/-- The entry for `..` is the top. -/
theorem bsgenup_orderly (eve : Bytes) (path : Path) :
    Orderly N H (bsgenup eve path) fun a =>
      ∃ dir, a = .found dir ∧ dir.path.typ = .Qdir := by
  unfold bsgenup
  split
  · exact (listing_orderly _).weaken fun a ha => ⟨_, ha, rfl⟩
  · exact (listing_orderly _).weaken fun a ha => ⟨_, ha, rfl⟩
  · exact panic_orderly _

end

/-! ## Routines that keep the order -/

theorem firstentry_some {N : Names} {k j : Nat} {name : Bytes}
    (h : firstentry N k name = some j) :
    j < k + 2 ∧ topname N j = some name ∧ ∀ i < j, topname N i ≠ some name := by
  obtain ⟨hat, hmem, hbefore⟩ := List.find?_range_eq_some.1 h
  refine ⟨List.mem_range.1 hmem, of_decide_eq_true hat, fun i hi => ?_⟩
  simpa using hbefore i hi

theorem firstentry_none {N : Names} {k : Nat} {name : Bytes}
    (h : firstentry N k name = none) : ∀ i < k + 2, topname N i ≠ some name := by
  intro i hi
  simpa using List.find?_range_eq_none.1 h i hi

section
variable {N : Names} {H : Multiset (RWlock × Mode)} {α : Type} {path : Path}

theorem device_orderly (out : Except String α) :
    Orderly N H (onbs (DevBs.device out)) fun _ => True :=
  onbs_orderly fun _ _ _ _ hrun => ⟨device_reads hrun, trivial⟩

theorem bsgen_below (eve : Bytes) (i : Nat) (hdisk : path.typ.ofdisk = true) :
    Orderly N H (bsgen eve path i) Infile :=
  Keeps.ite (fun _ => gendisk_orderly eve path i) fun htop => absurd hdisk htop

/-- With no store held, any question may be asked. -/
theorem runquery_free (eve : Bytes) (q : Query α) (hbs : RWlock.bs ∈ H.map Prod.fst)
    (hfree : ∀ k, RWlock.store k ∉ H.map Prod.fst) :
    Orderly N H (runquery eve q) fun _ => True := by
  induction q with
  | done out => exact device_orderly out
  | gen path i next ih =>
      cases htop : path.typ.ofdisk with
      | true => exact (bsgen_below eve i htop).bind fun a _ => ih a
      | false =>
          exact (bsgen_orderly eve i htop hbs fun k _ => hfree k).bind fun a _ => ih a
  | dotdot path next ih => exact (bsgenup_orderly eve path).bind fun a _ => ih a

/-- The files of a disk are listed with any locks held. -/
theorem scans_keep (eve : Bytes) (hdisk : path.typ.ofdisk = true) (q : Query α)
    (h : Scans path q) : Orderly N H (runquery eve q) fun _ => True := by
  induction q with
  | done out => exact device_orderly out
  | gen p i next ih =>
      obtain ⟨rfl, hnext⟩ := h
      exact (bsgen_below eve i hdisk).bind fun a _ => ih a (hnext a)
  | dotdot p next ih => exact h.elim

theorem stops_keep (eve : Bytes) {q : Query α} (h : Stops q) :
    Orderly N H (runquery eve q) fun _ => True := by
  cases q with
  | done out => exact device_orderly out
  | gen p i next => exact h.elim
  | dotdot p next => exact h.elim

/-- A walk is over where it finds a file. -/
theorem walks_file {bound : Nat} {names : List Bytes} {q : Query α} (hfile : ¬ Isdir path)
    (h : Walks bound names path q) : Stops q := by
  cases names with
  | nil => exact h
  | cons name names =>
      unfold Walks at h
      rw [if_pos hfile] at h
      exact h

variable {name : Bytes} {goes : Path → Query α → Prop}

/-- A search in the directory of a disk finds files. -/
theorem looks_below (eve : Bytes) (hdisk : path.typ = .Qdiskdir)
    (hgoes : ∀ p q, ¬ Isdir p → goes p q → Stops q) (fuel i : Nat) (q : Query α)
    (h : Looks name path goes fuel i q) : Orderly N H (runquery eve q) fun _ => True := by
  induction fuel generalizing i q with
  | zero => exact stops_keep eve h
  | succ fuel ih =>
      cases q with
      | done out => exact h.elim
      | dotdot p next => exact h.elim
      | gen p j next =>
          obtain ⟨rfl, rfl, hnone, hskip, hfound⟩ := h
          refine (bsgen_below eve j (by rw [hdisk]; rfl)).bind fun a hfile => ?_
          cases a with
          | none => exact stops_keep eve hnone
          | skip => exact ih _ _ hskip
          | found dir =>
              have hnext := hfound dir
              by_cases hname : dir.name = name
              · rw [if_pos hname] at hnext
                exact stops_keep eve (hgoes _ _ (hfile dir rfl) hnext)
              · rw [if_neg hname] at hnext
                exact ih _ _ hnext

/-- The locks of a walk from a file of disk `k`. -/
def walklocks (k : Nat) : Multiset (RWlock × Mode) :=
  (.store k, .Readlock) ::ₘ (.bs, .Readlock) ::ₘ 0

theorem bs_mem_walklocks (k : Nat) : RWlock.bs ∈ (walklocks k).map Prod.fst := by
  simp [walklocks]

theorem store_mem_walklocks {i k : Nat} :
    RWlock.store i ∈ (walklocks k).map Prod.fst ↔ i = k := by
  simp [walklocks]

variable {k : Nat}

/-- A search at the top, from entry `i` on, whose name is found before disk `k`. -/
theorem looks_top (eve : Bytes) (htop : path.typ = .Qdir) {j : Nat} (hj : j < k + 2)
    (hat : topname N j = some name) (hbefore : ∀ i < j, topname N i ≠ some name)
    (hgoes : ∀ p q, (if j < 2 then ¬ Isdir p else p.typ = .Qdiskdir) → goes p q →
      Orderly N (walklocks k) (runquery eve q) fun _ => True)
    (fuel i : Nat) (hi : i ≤ j) (q : Query α) (h : Looks name path goes fuel i q) :
    Orderly N (walklocks k) (runquery eve q) fun _ => True := by
  induction fuel generalizing i q with
  | zero => exact stops_keep eve h
  | succ fuel ih =>
      cases q with
      | done out => exact h.elim
      | dotdot p next => exact h.elim
      | gen p i' next =>
          obtain ⟨rfl, rfl, hnone, hskip, hfound⟩ := h
          have hfree : ∀ m, i' = m + 2 → RWlock.store m ∉ (walklocks k).map Prod.fst := by
            intro m hm
            rw [store_mem_walklocks]
            omega
          have hgen : Orderly N (walklocks k) (bsgen eve p i') (Topentry N i') :=
            bsgen_orderly eve i' (by rw [htop]; rfl) (bs_mem_walklocks k) hfree
          refine hgen.bind fun a hentry => ?_
          -- before entry `j` the name is not there, and at `j` it is
          cases a with
          | none => exact stops_keep eve hnone
          | skip =>
              have hne : i' ≠ j := by
                rintro rfl
                exact nomatch hat.symm.trans hentry
              exact ih (i' + 1) (by omega) _ hskip
          | found dir =>
              obtain ⟨hdir, htyp⟩ := hentry
              have hnext := hfound dir
              by_cases hname : dir.name = name
              · rw [if_pos hname] at hnext
                have heq : i' = j := by
                  by_contra hne
                  exact hbefore i' (by omega) (hname ▸ hdir)
                exact hgoes _ _ (heq ▸ htyp) hnext
              · rw [if_neg hname] at hnext
                have hne : i' ≠ j := by
                  rintro rfl
                  exact hname (Option.some.inj (hdir.symm.trans hat))
                exact ih (i' + 1) (by omega) _ hnext

/-- Where a walk is: at the top, or in the directory of a disk. -/
def spot (top : Bool) : Qtype := if top then .Qdir else .Qdiskdir

theorem spot_isdir {top : Bool} (h : path.typ = spot top) : Isdir path := by
  cases top with
  | false => exact .inr h
  | true => exact .inl h

/-- A walk from the directory of disk `k` that does not get as far as its entry. -/
theorem walks_keep (eve : Bytes) {bound : Nat} (names : List Bytes) (top : Bool)
    (hpath : path.typ = spot top) (q : Query α) (h : Walks bound names path q)
    (hpasses : passes N k top names = false) :
    Orderly N (walklocks k) (runquery eve q) fun _ => True := by
  induction names generalizing top path q with
  | nil => exact stops_keep eve h
  | cons name names ih =>
      unfold Walks at h
      unfold passes at hpasses
      rw [if_neg (not_not_intro (spot_isdir hpath))] at h
      by_cases hdot : name = ascii "."
      · rw [if_pos hdot] at h hpasses
        exact ih top hpath q h hpasses
      rw [if_neg hdot] at h hpasses
      by_cases hdotdot : name = ascii ".."
      · rw [if_pos hdotdot] at h hpasses
        cases q with
        | done out => exact h.elim
        | gen p i next => exact h.elim
        | dotdot p next =>
            obtain ⟨rfl, hnext⟩ := h
            refine (bsgenup_orderly eve p).bind ?_
            rintro a ⟨dir, rfl, hdir⟩
            exact ih true hdir _ (hnext dir) hpasses
      rw [if_neg hdotdot] at h hpasses
      cases top with
      | false => exact looks_below eve hpath (fun _ _ => walks_file) bound 0 q h
      | true =>
          rw [if_pos rfl] at hpasses
          cases hfirst : firstentry N k name with
          | none =>
              rw [hfirst] at hpasses
              cases hpasses
          | some j =>
              rw [hfirst] at hpasses
              obtain ⟨hj, hat, hbefore⟩ := firstentry_some hfirst
              refine looks_top eve hpath hj hat hbefore ?_ bound 0 (Nat.zero_le j) q h
              intro p q hp hgoes
              by_cases hlow : j < 2
              · rw [if_pos hlow] at hp
                exact stops_keep eve (walks_file hp hgoes)
              · rw [if_neg hlow] at hp
                have hrest : passes N k false names = false := by
                  simpa [Nat.le_of_not_lt hlow] using hpasses
                exact ih false hp q hgoes hrest

end

/-! ## What stays on the record -/

section
variable {α : Type}

theorem onbs_records (x : BsM α) : Records (onbs x) := Records.lift _ x

theorem listing_records (a : Answer) : Records (listing a) :=
  (Records.call _).bind fun _ => .pure a

theorem entry_records (a : Answer) : Records (entry a) :=
  (Records.call _).bind fun _ => listing_records a

theorem gendisk_records (eve : Bytes) (path : Path) (i : Nat) :
    Records (gendisk eve path i) := by
  refine (onbs_records _).bind fun o => ?_
  cases o with
  | none => exact .pure _
  | some k =>
      refine (onbs_records _).bind fun d => Records.ite (.pure _) ?_
      match i with
      | 0 => exact entry_records _
      | 1 => exact entry_records _
      | 2 => exact entry_records _
      | 3 => exact entry_records _
      | i + 4 =>
          exact Records.ite (.pure _) ((onbs_records _).bind fun p => entry_records _)

/-- `bsgen` at the top, behind the taking of the lock. -/
private theorem genroot_tail (eve : Bytes) (k : Nat) : Records (do
    let d ← onbs (DevBs.store k)
    call .mkqidlocked
    call .devdirlocked
    unlock (.store k, .Readlock)
    pure (.found ⟨⟨.Qdiskdir, d.num.toNat, 0⟩, d.name, 0, eve, (bstab .Qdiskdir).2⟩) :
    BsProc Answer) := by
  refine (onbs_records _).bind fun d => (Records.call _).bind fun _ => ?_
  exact (Records.call _).bind fun _ => (Records.unlock _).bind fun _ => .pure _

theorem genroot_records (eve : Bytes) (i : Nat) : Records (genroot eve i) := by
  refine (onbs_records _).bind fun r => Records.ite (.pure _) ?_
  refine (onbs_records _).bind fun o => ?_
  cases o with
  | none => exact .pure _
  | some k => exact (Records.lock _).bind fun _ => genroot_tail eve k

theorem bsgen_records (eve : Bytes) (path : Path) (i : Nat) :
    Records (bsgen eve path i) := by
  refine Records.ite (gendisk_records eve path i) ?_
  match i with
  | 0 => exact listing_records _
  | 1 => exact listing_records _
  | i + 2 => exact genroot_records eve i

theorem bsgenup_records (eve : Bytes) (path : Path) : Records (bsgenup eve path) := by
  unfold bsgenup
  split
  · exact listing_records _
  · exact listing_records _
  · exact Records.stop _

theorem runquery_records (eve : Bytes) (q : Query α) : Records (runquery eve q) := by
  induction q with
  | done out => exact onbs_records _
  | gen path i next ih => exact (bsgen_records eve path i).bind ih
  | dotdot path next ih => exact (bsgenup_records eve path).bind ih

end

/-! ## Routines that break the order -/

/-- The stores are those of `r`, no one else is at work, and disk `k` is held. -/
structure Alone (r : Registry) (k : Nat) (s : BsState) : Prop where
  data : s.data = r
  others : s.others = []
  held : RWlock.store k ∈ s.held.map Prod.fst

section
variable {r : Registry} {k i : Nat} {s : BsState} {α : Type}

theorem onbs_returns {x : BsM α} {a : α} (h : x s.data = .ok a s.data) :
    Returns (onbs x) s a s :=
  Returns.lift _ h

/-- A lookup of a number, in a cell of the array. -/
theorem diskget_cell {c : Option Store} (hk : k ≤ r.maxdisk) (hc : r.disks[k]? = some c) :
    DevBs.diskget k r = .ok (c.map fun _ => k) r := by
  unfold DevBs.diskget DiskRegistry.diskget DiskRegistry.getcell
  rw [if_pos ⟨Int.natCast_nonneg k, Int.ofNat_le.2 hk⟩, if_pos (Int.natCast_nonneg k),
    Int.toNat_natCast, hc]

theorem diskget_returns {c : Option Store} (hdata : s.data = r) (hk : k ≤ r.maxdisk)
    (hc : r.disks[k]? = some c) : Returns (diskget k) s (c.map fun _ => k) s :=
  onbs_returns (by rw [hdata, diskget_cell hk hc])

theorem call_returns (site : Site) : Returns (call site : BsProc Unit) s () s :=
  Returns.call site

theorem listing_returns (a : Answer) : Returns (listing a) s a s := by
  refine Returns.bind (call_returns .devdir) ?_
  exact Returns.pure

/-- At the top, with a number that is no higher than the highest. -/
theorem root_returns (hdata : s.data = r) (hi : i ≤ r.maxdisk) {β : Type} {b : β}
    {s' : BsState} {x y : BsProc β} (hy : Returns y s b s') :
    Returns (do
      let r ← onbs get
      if i > r.maxdisk then x else y) s b s' := by
  subst hdata
  refine Returns.bind (onbs_returns rfl) ?_
  rw [if_neg (Nat.not_lt_of_le hi)]
  exact hy

/-- An empty cell is passed over. -/
theorem genroot_skips (eve : Bytes) (hs : Alone r k s) (hi : i ≤ r.maxdisk)
    (hc : r.disks[i]? = some none) : Returns (genroot eve i) s .skip s := by
  refine root_returns hs.data hi ?_
  refine Returns.bind (diskget_returns hs.data hi hc) ?_
  exact Returns.pure

/-- An entry at the top that is a store is found, in a state like that before. -/
theorem genroot_returns (eve : Bytes) (hs : Alone r k s) (hi : i ≤ r.maxdisk)
    {d : Store} (hd : r.disks[i]? = some (some d)) :
    ∃ dir s', Returns (genroot eve i) s (.found dir) s' ∧ Alone r k s' ∧
      dir.path.typ = .Qdiskdir ∧ dir.name = d.name := by
  have hstore : DevBs.store i s.data = .ok d s.data := by
    unfold DevBs.store
    rw [hs.data, hd]
  refine ⟨⟨⟨.Qdiskdir, d.num.toNat, 0⟩, d.name, 0, eve, (bstab .Qdiskdir).2⟩,
    { s with asked := ((.store i, .Readlock), s.held) :: s.asked }, ?_,
    ⟨hs.data, hs.others, hs.held⟩, rfl, rfl⟩
  refine root_returns hs.data hi ?_
  refine Returns.bind (diskget_returns hs.data hi hd) ?_
  refine Returns.bind (Returns.lock hs.others) ?_
  refine Returns.bind (onbs_returns hstore) ?_
  refine Returns.bind (call_returns .mkqidlocked) ?_
  refine Returns.bind (call_returns .devdirlocked) ?_
  refine Returns.bind (Returns.unlock rfl) ?_
  exact Returns.pure

/-- The disk that is held is asked for again. -/
theorem genroot_breaks (eve : Bytes) (hs : Alone r k s) (hk : k ≤ r.maxdisk) {d : Store}
    (hd : r.disks[k]? = some (some d)) : Breaks Allowed (genroot eve k) s := by
  have hask : ¬ Allowed (.store k, .Readlock) s.held := fun h => h.1 hs.held
  refine Breaks.after (onbs_returns (a := s.data) rfl) ?_
  rw [if_neg (Nat.not_lt_of_le (hs.data ▸ hk))]
  refine Breaks.after (diskget_returns hs.data hk hd) ?_
  exact (Breaks.lock hask).bind fun _ => genroot_tail eve k

theorem store_of_topname (h : topname (naming r) (k + 2) ≠ none) :
    ∃ d, r.disks[k]? = some (some d) := by
  cases hc : r.disks[k]? with
  | none =>
      refine absurd ?_ h
      simp [topname, naming, hc]
  | some c =>
      cases c with
      | none => exact absurd (topname_none rfl hc) h
      | some d => exact ⟨d, rfl⟩

/-- An entry at the top before that of disk `k`. -/
theorem bsgen_returns (eve : Bytes) {path : Path} (htop : path.typ = .Qdir)
    (hs : Alone r k s) (hk : k ≤ r.maxdisk) (hd : topname (naming r) (k + 2) ≠ none)
    (hi : i < k + 2) :
    topname (naming r) i = none ∧ Returns (bsgen eve path i) s .skip s ∨
    ∃ dir s', Returns (bsgen eve path i) s (.found dir) s' ∧ Alone r k s' ∧
      topname (naming r) i = some dir.name ∧ (2 ≤ i → dir.path.typ = .Qdiskdir) := by
  unfold bsgen
  rw [htop, if_neg (show ¬ Qtype.Qdir.ofdisk = true by decide)]
  match i with
  | 0 => exact .inr ⟨_, s, listing_returns _, hs, rfl, nofun⟩
  | 1 => exact .inr ⟨_, s, listing_returns _, hs, rfl, nofun⟩
  | m + 2 =>
      obtain ⟨d, hd⟩ := store_of_topname hd
      have hlen : k < r.disks.length := (List.getElem?_eq_some_iff.1 hd).1
      have hm : m < r.disks.length := by omega
      cases hc : r.disks[m] with
      | none =>
          have hc' : r.disks[m]? = some none := List.getElem?_eq_some_iff.2 ⟨_, hc⟩
          exact .inl ⟨topname_none rfl hc', genroot_skips eve hs (by omega) hc'⟩
      | some d =>
          have hc' : r.disks[m]? = some (some d) := List.getElem?_eq_some_iff.2 ⟨_, hc⟩
          obtain ⟨dir, s', hret, hs', htyp, hname⟩ :=
            genroot_returns eve hs (by omega) hc'
          exact .inr ⟨dir, s', hret, hs', hname ▸ topname_store rfl hc', fun _ => htyp⟩

variable {name : Bytes} {goes : Path → Query α → Prop}

/-- A search at the top, from entry `i` on, for a name that is not there before disk `k`,
or is that of a disk from which the walk goes on to break the order. -/
theorem looks_break (eve : Bytes) {path : Path} (htop : path.typ = .Qdir)
    (hk : k ≤ r.maxdisk) (hd : topname (naming r) (k + 2) ≠ none)
    (hgoes : ∀ j < k + 2, topname (naming r) j = some name →
      (∀ i < j, topname (naming r) i ≠ some name) →
      2 ≤ j ∧ ∀ p q s, p.typ = .Qdiskdir → goes p q → Alone r k s →
        Breaks Allowed (runquery eve q) s)
    (fuel i : Nat) (hbefore : ∀ m < i, topname (naming r) m ≠ some name) (hi : i ≤ k + 2)
    (hfuel : k + 2 < i + fuel) (q : Query α) (h : Looks name path goes fuel i q)
    (s : BsState) (hs : Alone r k s) : Breaks Allowed (runquery eve q) s := by
  induction fuel generalizing i q s with
  | zero => omega
  | succ fuel ih =>
      cases q with
      | done out => exact h.elim
      | dotdot p next => exact h.elim
      | gen p i' next =>
          obtain ⟨rfl, rfl, -, hskip, hfound⟩ := h
          by_cases hend : i' = k + 2
          · obtain ⟨d, hd⟩ := store_of_topname hd
            subst hend
            refine Breaks.bind (x := bsgen eve p (k + 2)) ?_ fun a => runquery_records eve _
            unfold bsgen
            rw [htop, if_neg (show ¬ Qtype.Qdir.ofdisk = true by decide)]
            exact genroot_breaks eve hs hk hd
          have hnext : ∀ n, topname (naming r) i' = n → n ≠ some name →
              ∀ m < i' + 1, topname (naming r) m ≠ some name := by
            intro n hn hne m hm
            obtain hlt | rfl := Nat.lt_succ_iff_lt_or_eq.1 hm
            · exact hbefore m hlt
            · exact hn ▸ hne
          obtain ⟨hnone, hret⟩ | ⟨dir, s', hret, hs', hdir, htyp⟩ :=
            bsgen_returns (s := s) eve htop hs hk hd (by omega : i' < k + 2)
          · refine Breaks.after hret ?_
            exact ih _ (hnext _ hnone nofun) (by omega) (by omega) _ hskip _ hs
          · refine Breaks.after hret ?_
            have hgo := hfound dir
            by_cases hname : dir.name = name
            · rw [if_pos hname] at hgo
              obtain ⟨hlow, hrest⟩ := hgoes i' (by omega) (hname ▸ hdir) hbefore
              exact hrest _ _ s' (htyp hlow) hgo hs'
            · rw [if_neg hname] at hgo
              have hne : some dir.name ≠ some name := fun heq => hname (Option.some.inj heq)
              exact ih _ (hnext _ hdir hne) (by omega) (by omega) _ hgo _ hs'

/-- `..` leads to the top. -/
theorem bsgenup_returns (eve : Bytes) {path : Path} (hdir : Isdir path) :
    Returns (bsgenup eve path) s (tabled eve .Qdir 0) s := by
  unfold bsgenup
  obtain htyp | htyp := hdir
  · rw [htyp]
    exact listing_returns _
  · rw [htyp]
    exact listing_returns _

/-- A walk that gets as far as the entry of disk `k`, with the disk held. -/
theorem walks_break (eve : Bytes) {bound : Nat} (hbound : r.maxdisk + 2 < bound)
    (hk : k ≤ r.maxdisk) (hd : topname (naming r) (k + 2) ≠ none) (names : List Bytes)
    (top : Bool) {path : Path} (hpath : path.typ = spot top) (q : Query α)
    (h : Walks bound names path q) (hpasses : passes (naming r) k top names = true)
    (s : BsState) (hs : Alone r k s) : Breaks Allowed (runquery eve q) s := by
  induction names generalizing top path q s with
  | nil => exact nomatch hpasses
  | cons name names ih =>
      unfold Walks at h
      unfold passes at hpasses
      rw [if_neg (not_not_intro (spot_isdir hpath))] at h
      by_cases hdot : name = ascii "."
      · rw [if_pos hdot] at h hpasses
        exact ih top hpath q h hpasses s hs
      rw [if_neg hdot] at h hpasses
      by_cases hdotdot : name = ascii ".."
      · rw [if_pos hdotdot] at h hpasses
        cases q with
        | done out => exact h.elim
        | gen p i next => exact h.elim
        | dotdot p next =>
            obtain ⟨rfl, hnext⟩ := h
            refine Breaks.after (bsgenup_returns eve (spot_isdir hpath)) ?_
            exact ih true rfl _ (hnext _) hpasses s hs
      rw [if_neg hdotdot] at h hpasses
      cases top with
      | false => exact nomatch hpasses
      | true =>
          rw [if_pos rfl] at hpasses
          refine looks_break eve hpath hk hd ?_ bound 0 nofun (by omega) (by omega) q h s hs
          intro j hj hat hbefore
          cases hfirst : firstentry (naming r) k name with
          | none => exact absurd hat (firstentry_none hfirst j hj)
          | some j' =>
              obtain ⟨-, hat', hbefore'⟩ := firstentry_some hfirst
              have hsame : j' = j := by
                by_contra hne
                obtain hlt | hgt := Nat.lt_or_gt_of_ne hne
                · exact hbefore j' hlt hat'
                · exact hbefore' j hgt hat
              subst hsame
              rw [hfirst] at hpasses
              obtain ⟨hlow, hrest⟩ := Bool.and_eq_true_iff.1 hpasses
              refine ⟨of_decide_eq_true hlow, fun p q s hp hgoes hs => ?_⟩
              exact ih false hp q hgoes hrest s hs

end

/-! ## The operations -/

section
variable {α : Type} {r : Registry} {path : Path}

/-- `bs` is locked, and nothing has been asked for out of order. -/
theorem entering_keeps {R : Signal Exn → BsState → Prop} :
    Triple (Entering r) (lock (.bs, .Readlock))
      (fun _ => Holding Allowed (naming · = naming r) ((.bs, .Readlock) ::ₘ 0)) R := by
  intro s hs
  refine ⟨congrArg (_ ::ₘ ·) hs.held, fun q hq => ?_, congrArg naming hs.found, ?_⟩
  · show Allowed q.1 q.2
    have hq' : q ∈ ((RWlock.bs, Mode.Readlock), s.held) :: s.asked := hq
    rw [hs.asked, List.mem_singleton] at hq'
    rw [hq']
    exact hs.held
  · exact fun f hf d hd => (hs.others f hf d).trans hd

/-- The common code of the operations keeps the order if the routine does with the disk
held. -/
theorem listed_keeps (q : Routine α)
    (hask : path.typ.ofdisk = true → path.disk ≤ r.maxdisk →
      topname (naming r) (path.disk + 2) ≠ none →
      Orderly (naming r) (walklocks path.disk) (ask q) fun _ => True) :
    Triple (Entering r) (listed path q) (fun _ => Ordered Allowed)
      fun _ => Ordered Allowed := by
  have hbs : RWlock.bs ∈ ((RWlock.bs, Mode.Readlock) ::ₘ 0).map Prod.fst := by simp
  have hfree : ∀ k, RWlock.store k ∉ ((RWlock.bs, Mode.Readlock) ::ₘ 0).map Prod.fst := by
    simp
  have hbody : Orderly (naming r) ((.bs, .Readlock) ::ₘ 0)
      (if path.typ.ofdisk then do
        match ← diskget path.disk with
        | none => error Enodisk
        | some k => locked (.store k, .Readlock) (ask q)
      else ask q) fun _ => True := by
    refine Keeps.ite (fun hdisk => ?_) fun _ => runquery_free q.eve q.query hbs hfree
    refine (diskget_orderly path.disk).bind fun o ho => ?_
    cases o with
    | none => exact Keeps.error _
    | some k =>
        obtain ⟨rfl, hle, hname⟩ := ho.2 k rfl
        exact Keeps.locked ⟨hfree _, hbs⟩ (hask hdisk hle hname)
  refine (entering_keeps.bind fun _ => hbody.held).conseq (fun _ hs => hs) fun _ s hs => ?_
  exact hs.1.ordered

/-- A stat or a read of a directory. -/
theorem scans_ordered (q : Routine α) (h : Scans path q.query) :
    Triple (Entering r) (listed path q) (fun _ => Ordered Allowed)
      fun _ => Ordered Allowed :=
  listed_keeps q fun hdisk _ _ => scans_keep q.eve hdisk q.query h

theorem walks_ordered {bound : Nat} {names : List Bytes} (q : Routine α)
    (h : Walks bound names path q.query) (hnot : ¬ Relocks r path names) :
    Triple (Entering r) (listed path q) (fun _ => Ordered Allowed)
      fun _ => Ordered Allowed := by
  refine listed_keeps q fun hdisk hle hname => ?_
  by_cases htyp : path.typ = .Qdiskdir
  · have hpasses : passes (naming r) path.disk false names = false := by
      by_contra htrue
      exact hnot ⟨htyp, hle, hname, by simpa using htrue⟩
    exact walks_keep q.eve names false htyp q.query h hpasses
  · have hfile : ¬ Isdir path := by
      rintro (htop | hdir)
      · rw [htop] at hdisk
        exact nomatch hdisk
      · exact htyp hdir
    exact stops_keep q.eve (walks_file hfile h)

/-- The result of the common code is of no account. -/
theorem listed_void {q : Routine α}
    (h : Triple (Entering r) (listed path q) (fun _ => Ordered Allowed)
      fun _ => Ordered Allowed) :
    Triple (Entering r)
      (do
        let _ ← listed path q
        pure () : BsProc Unit)
      (fun _ => Ordered Allowed) fun _ => Ordered Allowed :=
  Triple.bind h fun _ => Triple.pure fun _ hs => hs

/-- A process that is alone. -/
def lone (r : Registry) : BsState where
  data := r
  held := 0
  asked := []
  labels := []
  fresh := 0
  raised := none
  script := []
  others := []

theorem walks_disordered {bound : Nat} {names : List Bytes} (hbound : r.maxdisk + 2 < bound)
    (q : Routine α) (h : Walks bound names path q.query) (hrelocks : Relocks r path names) :
    Breaks Allowed (listed path q) (lone r) := by
  obtain ⟨htyp, hle, hname, hpasses⟩ := hrelocks
  obtain ⟨d, hd⟩ := store_of_topname hname
  have hask : Records (ask q) := runquery_records q.eve q.query
  refine Breaks.locked (Records.ite ?_ hask) ?_
  · refine (onbs_records _).bind fun o => ?_
    cases o with
    | none => exact Records.error _
    | some k => exact hask.locked _
  · rw [if_pos (show path.typ.ofdisk = true by rw [htyp]; rfl)]
    refine Breaks.after (diskget_returns rfl hle hd) (Breaks.locked hask ?_)
    refine walks_break q.eve hbound hle hname names false htyp q.query h hpasses _ ?_
    refine ⟨rfl, rfl, ?_⟩
    have hmem := Multiset.mem_cons_self (RWlock.store path.disk, Mode.Readlock)
      {(RWlock.bs, Mode.Readlock)}
    exact Multiset.mem_map_of_mem Prod.fst hmem

end

/-- The walks along names, and the stats and reads of directories, from any channel, that
find the stores `r` when they have locked `bs`.  Whatever the routines called raise, and
whatever others do while the operation waits, it asks for `bs` first and for no store that
it holds; unless it is a walk from the directory of a disk that, at the top, gets as far
as the entry of that disk. -/
theorem ordered_iff {bound : Nat} {op : Operation} {path : Path} {names : List Bytes}
    {r : Registry} (hop : Visits bound op path names) (hbound : r.maxdisk + 2 < bound) :
    (∀ s, Entering r s → Ordered Allowed (final (perform op s))) ↔
      ¬ Relocks r path names := by
  have hnone : ∀ path, ¬ Relocks r path [] := fun path h => nomatch h.2.2.2
  cases hop with
  | @walk c devwalk names h =>
      constructor
      · intro hall hrelocks
        have hbreaks : Breaks Allowed (perform (.walk c devwalk)) (lone r) :=
          (walks_disordered hbound devwalk h hrelocks).bind fun _ => Records.pure ()
        obtain ⟨script, hbroken⟩ := hbreaks
        exact hbroken (hall _ ⟨rfl, rfl, rfl, nofun⟩)
      · intro hnot s hs
        exact ordered_final (listed_void (walks_ordered devwalk h hnot)) hs
  | @stat c devstat h =>
      refine iff_of_true (fun s hs => ?_) (hnone _)
      exact ordered_final (listed_void (scans_ordered devstat h)) hs
  | @dirread c a hdir h =>
      refine iff_of_true (fun s hs => ?_) (hnone _)
      have hread : bsread c a = listed c.path a.devdirread := by
        unfold bsread
        obtain htyp | htyp := hdir
        · rw [htyp]
        · rw [htyp]
      show Ordered Allowed (final ((do
        let _ ← bsread c a
        pure () : BsProc Unit) s))
      rw [hread]
      exact ordered_final (listed_void (scans_ordered a.devdirread h)) hs

/-! ## A walk -/

def Enotdir : String := "Enotdir"
def Enonexist : String := "Enonexist"

/-- The end of a walk that cannot go on, an error if it has not begun. -/
def lost (msg : String) (qids : List Path) : Query (List Path) :=
  .done (if qids = [] then .error msg else .ok qids)

/-- A search for a name, from entry `i` on. -/
def look (name : Bytes) (path : Path) (qids : List Path)
    (goes : Path → Query (List Path)) : Nat → Nat → Query (List Path)
  | 0, _ => lost Enonexist qids
  | fuel + 1, i => .gen path i fun a =>
      match a with
      | .none => lost Enonexist qids
      | .skip => look name path qids goes fuel (i + 1)
      | .found dir =>
          if dir.name = name then goes dir.path else look name path qids goes fuel (i + 1)

/-- A walk that looks at no more than `bound` entries of a directory, with the qids that
it has passed. -/
def devwalk (bound : Nat) : List Bytes → Path → List Path → Query (List Path)
  | [], _, qids => .done (.ok qids)
  | name :: names, path, qids =>
      if ¬ Isdir path then lost Enotdir qids
      else if name = ascii "." then devwalk bound names path (qids ++ [path])
      else if name = ascii ".." then .dotdot path fun a =>
        match a with
        | .found dir => devwalk bound names dir.path (qids ++ [dir.path])
        | _ => lost Enonexist qids
      else look name path qids (fun p => devwalk bound names p (qids ++ [p])) bound 0

theorem look_looks {name : Bytes} {path : Path} {qids : List Path}
    {next : Path → Query (List Path)} {goes : Path → Query (List Path) → Prop}
    (h : ∀ p, goes p (next p)) (fuel i : Nat) :
    Looks name path goes fuel i (look name path qids next fuel i) := by
  induction fuel generalizing i with
  | zero => trivial
  | succ fuel ih =>
      refine ⟨rfl, rfl, trivial, ih _, fun dir => ?_⟩
      by_cases hname : dir.name = name
      · simp only [if_pos hname]
        exact h dir.path
      · simp only [if_neg hname]
        exact ih _

theorem devwalk_walks (bound : Nat) (names : List Bytes) (path : Path) (qids : List Path) :
    Walks bound names path (devwalk bound names path qids) := by
  induction names generalizing path qids with
  | nil => trivial
  | cons name names ih =>
      unfold Walks devwalk
      by_cases hdir : ¬ Isdir path
      · rw [if_pos hdir, if_pos hdir]
        trivial
      rw [if_neg hdir, if_neg hdir]
      by_cases hdot : name = ascii "."
      · rw [if_pos hdot, if_pos hdot]
        exact ih _ _
      rw [if_neg hdot, if_neg hdot]
      by_cases hdotdot : name = ascii ".."
      · rw [if_pos hdotdot, if_pos hdotdot]
        exact ⟨rfl, fun dir => ih _ _⟩
      · rw [if_neg hdotdot, if_neg hdotdot]
        exact look_looks (fun p => ih _ _) bound 0

theorem look_proper {name : Bytes} {path : Path} {qids : List Path}
    {next : Path → Query (List Path)} (h : ∀ p, (next p).Proper) (fuel i : Nat) :
    (look name path qids next fuel i).Proper := by
  induction fuel generalizing i with
  | zero => trivial
  | succ fuel ih =>
      intro a
      cases a with
      | none => trivial
      | skip => exact ih _
      | found dir =>
          by_cases hname : dir.name = name
          · simp only [if_pos hname]
            exact h dir.path
          · simp only [if_neg hname]
            exact ih _

theorem devwalk_proper (bound : Nat) (names : List Bytes) (path : Path)
    (qids : List Path) : (devwalk bound names path qids).Proper := by
  induction names generalizing path qids with
  | nil => trivial
  | cons name names ih =>
      unfold devwalk
      by_cases hdir : ¬ Isdir path
      · rw [if_pos hdir]
        trivial
      rw [if_neg hdir]
      by_cases hdot : name = ascii "."
      · rw [if_pos hdot]
        exact ih _ _
      rw [if_neg hdot]
      by_cases hdotdot : name = ascii ".."
      · rw [if_pos hdotdot]
        refine ⟨Decidable.not_not.1 hdir, fun a => ?_⟩
        cases a with
        | none => trivial
        | skip => trivial
        | found dir => exact ih _ _
      · rw [if_neg hdotdot]
        exact look_proper (fun p => ih _ _) bound 0

/-- A walk along the names from the directory of disk 0. -/
def diskwalk (names : List Bytes) : Operation :=
  .walk ⟨⟨.Qdiskdir, 0, 0⟩, 0, false, none⟩
    ⟨[], devwalk 4 names ⟨.Qdiskdir, 0, 0⟩ [], devwalk_proper 4 names _ []⟩

theorem diskwalk_visits (names : List Bytes) :
    Visits 4 (diskwalk names) ⟨.Qdiskdir, 0, 0⟩ names :=
  Visits.walk (devwalk_walks 4 names _ [])

/-- One store, which is not ready. -/
def onestore : Registry := ⟨[some ⟨1, 0, 0, ascii "bs00", 511, [], 0, 0⟩], 0⟩

/-- From the disk a walk goes up, and to a file there. -/
theorem upctl_ordered :
    Ordered Allowed (final (perform (diskwalk [ascii "..", ascii "bsctl"])
      { lone onestore with script := [(.devdir, none), (.devdir, none)] })) := by
  have hnot : ¬ Relocks onestore ⟨.Qdiskdir, 0, 0⟩ [ascii "..", ascii "bsctl"] := by
    decide +kernel
  exact (ordered_iff (diskwalk_visits _) (by decide)).2 hnot _ ⟨rfl, rfl, rfl, nofun⟩

/-- The calls of a walk up, and down again to the disk. -/
def updownCalls : List (Site × Option String) :=
  [(.devdir, none), (.devdir, none), (.devdir, none), (.mkqidlocked, none),
    (.devdirlocked, none)]

/-- It locks the disk twice. -/
theorem updown_disordered :
    ¬ ∀ (bound : Nat) (op : Operation) (path : Path) (names : List Bytes) (r : Registry)
      (s : BsState), Visits bound op path names → r.maxdisk + 2 < bound → Entering r s →
      Ordered Allowed (final (perform op s)) := by
  intro h
  have hwrong : ¬ Ordered Allowed (final (perform (diskwalk [ascii "..", ascii "bs00"])
      { lone onestore with script := updownCalls })) := by
    decide +kernel
  exact hwrong (h 4 _ _ _ onestore _ (diskwalk_visits _) (by decide) ⟨rfl, rfl, rfl, nofun⟩)

end Kirkwood.Ports.DevBsRelock
