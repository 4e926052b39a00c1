import Kirkwood.Verified.Trans
import Kirkwood.Ports.DevBsChan

/-!
# What the block-store device accesses

Stores are registered, and operations run on any channels, in any order.

## Main results

* `run_sound_iff`: the runs in which every action returns or raises, and every entry
  that a store counts is there.

The others access what is not there: number 0 in a registry without a store; the
partition of an open of `data`, which is nil by then; the table behind a `realloc`
that found no room.
-/

namespace Kirkwood.Ports.DevBsSafe

open Kirkwood.Verified.ByteMem
open Kirkwood.Verified.Outcome
open Kirkwood.Verified.Hoare
open Kirkwood.Verified.Trans
open Kirkwood.Ports.BlockStore
open Kirkwood.Ports.DiskRegistry (Registry Heap)
open Kirkwood.Ports.DevBs
open Kirkwood.Ports.DevBsAccess
open Kirkwood.Ports.DevBsInit
open Kirkwood.Ports.DevBsChan

/-! ## Registration -/

/-- What `blockstoreadd` needs. -/
def AddOk (r : Registry) (d : Store) : Prop := 0 ≤ d.num ∧ Found r d.num

section
variable {r : Registry} (heap : Heap) {d : Store}

/-- The array has grown to the number of a store that counts no entries. -/
private theorem grown_inv (h : Inv r) {disks : List (Option Store)} (hn : d.nparts = 0)
    (hlen : disks.length = d.num.toNat + 1)
    (htop : disks[d.num.toNat]? = some (some (DiskRegistry.named d)))
    (hcells : ∀ i < d.num.toNat, disks[i]? =
      if r.maxdisk ≤ i then some none else some (r.disks.getD i (heap.fresh i))) :
    Inv ⟨disks, d.num.toNat⟩ where
  array := .inr hlen
  tables k e hk := by
    have hk : disks[k]? = some (some e) := hk
    have hlt : k < disks.length := (List.getElem?_eq_some_iff.1 hk).1
    by_cases hktop : k = d.num.toNat
    · rw [hktop, htop] at hk
      rw [← Option.some.inj (Option.some.inj hk)]
      show d.nparts ≤ _
      rw [hn]
      exact Nat.zero_le _
    · rw [hcells k (by omega)] at hk
      by_cases hlow : r.maxdisk ≤ k
      · rw [if_pos hlow] at hk
        exact nomatch hk
      · rw [if_neg hlow] at hk
        have hlen' : r.disks.length = r.maxdisk + 1 := by
          refine h.array.resolve_left fun hnil => hlow ?_
          omega
        have hk' : k < r.disks.length := by omega
        rw [List.getD_eq_getElem _ _ hk'] at hk
        refine h.tables k e ?_
        rw [List.getElem?_eq_getElem hk']
        exact hk

/-- It returns, or stops the kernel. -/
theorem blockstoreadd_spec (h : Inv r) (hok : AddOk r d) (hn : d.nparts = 0) :
    (∃ r', DiskRegistry.blockstoreadd heap r d = .ok r' ∧ Inv r') ∨
      ∃ msg, DiskRegistry.blockstoreadd heap r d = .error (.panic msg) := by
  obtain ⟨o, hget, -⟩ := lookup h hok.2
  by_cases hmax : d.num > 99
  · refine .inr ⟨"bad block store num " ++ toString d.num, ?_⟩
    unfold DiskRegistry.blockstoreadd
    rw [if_pos hmax]
  by_cases hnew : o ≠ none
  · refine .inr ⟨"disk.num " ++ toString d.num ++ " already registered", ?_⟩
    unfold DiskRegistry.blockstoreadd
    rw [if_neg hmax, hget, ok_bind, if_pos hnew]
  by_cases hgrow : d.num > r.maxdisk
  · by_cases hroom : heap.room (d.num.toNat + 1) = true
    · obtain ⟨disks, hrun, hlen, htop, hcells⟩ :=
        DiskRegistry.blockstoreadd_grow hroom hgrow (Int.not_lt.1 hmax)
      exact .inl ⟨_, hrun, grown_inv heap h hn hlen htop hcells⟩
    · refine .inr ⟨"no memory", ?_⟩
      unfold DiskRegistry.blockstoreadd
      rw [if_neg hmax, hget, ok_bind, if_neg hnew, if_pos hgrow, if_neg hroom, error_bind]
  · have hnum : (d.num.toNat : Int) = d.num := Int.toNat_of_nonneg hok.1
    have hlen : r.disks.length = r.maxdisk + 1 := by
      refine h.array.resolve_left fun hnil => ?_
      have hne := hok.2 hnil.1
      have hge := hok.1
      omega
    have hset : DiskRegistry.setcell r.disks d.num (some (DiskRegistry.named d)) =
        .ok (r.disks.set d.num.toNat (some (DiskRegistry.named d))) := by
      rw [← DiskRegistry.setcell_eq (by omega), hnum]
    refine .inl ⟨put r d.num.toNat (DiskRegistry.named d), ?_, h.put ?_⟩
    · unfold DiskRegistry.blockstoreadd
      rw [if_neg hmax, hget, ok_bind, if_neg hnew, if_neg hgrow]
      simp only [ok_bind, hset]
      rfl
    · show d.nparts ≤ _
      rw [hn]
      exact Nat.zero_le _

theorem blockstoreadd_fault (h : Inv r) (hok : ¬ AddOk r d) :
    DiskRegistry.blockstoreadd heap r d = .error .fault := by
  unfold AddOk at hok
  rw [not_and] at hok
  by_cases hneg : 0 ≤ d.num
  · have hlost := diskget_lost h (hok hneg)
    have hmax : ¬ d.num > 99 := by
      unfold Found at hok
      have hzero := hok hneg
      rw [Classical.not_imp, not_not] at hzero
      omega
    unfold diskget at hlost
    unfold DiskRegistry.blockstoreadd
    rw [if_neg hmax]
    cases hget : DiskRegistry.diskget r d.num with
    | ok o =>
        rw [hget] at hlost
        exact nomatch hlost
    | error e =>
        rw [hget] at hlost
        injection hlost with he
        rw [he, error_bind]
  · have hget : DiskRegistry.diskget r d.num = .ok none := if_neg fun hin => hneg hin.1
    have hset : DiskRegistry.setcell r.disks d.num (some (DiskRegistry.named d)) =
        .error .fault := if_neg fun hin => hneg hin.1
    unfold DiskRegistry.blockstoreadd
    rw [if_neg (by omega), hget, ok_bind, if_neg (by simp), if_neg (by omega)]
    simp only [ok_bind, hset, error_bind]

end

/-! ## Runs -/

/-- The last action has returned, has raised or has stopped the kernel on purpose; and
every entry that a store counts is there. -/
def Sound (s : State) : Prop := (∀ e, s.ending ≠ .broken e) ∧ Counted s.bs

/-- What an action needs of the state before it. -/
def Guard (s : State) : Act → Prop
  | .add _ d => AddOk s.bs d.d
  | .init devs => InitOk devs s.bs
  | .walk c devwalk => Lists s.bs c.path devwalk
  | .stat c devstat => Lists s.bs c.path devstat
  | .opening c devopen => Lists s.bs c.path devopen
  | .counting j => ∀ o, s.opens[j]? = some o → o.nilp = false
  | .wstat c _ dir => WstatOk s.bs c dir
  | .close c => CloseOk s.bs c
  | .read c a => ReadOk s.bs c a
  | .write c a => WriteOk s.bs c a

structure Good (s : State) : Prop where
  calm : ∀ e, s.ending ≠ .broken e
  inv : Inv s.bs
  opens : OpensOk s.bs s.opens

section
variable {s : State} {α : Type} {x : BsM α} {opens : α → List Opening}

theorem ran_good
    (hx : Triple (· = s.bs) x (fun a r' => Inv r' ∧ OpensOk r' (opens a))
      (fun e r' => Raised e ∧ Inv r' ∧ OpensOk r' s.opens)) : Good (ran s x opens) := by
  have hspec := hx s.bs rfl
  unfold ran
  cases hrun : x s.bs with
  | ok a r' =>
      rw [hrun] at hspec
      exact ⟨nofun, hspec.1, hspec.2⟩
  | error e r' =>
      rw [hrun] at hspec
      obtain ⟨⟨msg, rfl⟩, hinv, hopens⟩ := hspec
      exact ⟨nofun, hinv, hopens⟩

theorem ran_bad (hx : Bad x s.bs) : ¬ Sound (ran s x opens) := by
  rintro ⟨hcalm, hcount⟩
  unfold ran at hcalm hcount
  rcases hx with ⟨e, r', hrun, he⟩ | ⟨msg, r', hrun, hbad⟩
  · rw [hrun] at hcalm
    cases e with
    | error msg => exact he ⟨msg, rfl⟩
    | panic msg => exact hcalm _ rfl
    | fault => exact hcalm _ rfl
    | hang => exact hcalm _ rfl
  · rw [hrun] at hcount
    exact hbad hcount

/-- A routine that changes no entries, from a good state. -/
private theorem slight_good (h : Good s)
    (hx : Triple (· = s.bs) x (fun _ => Slight s.bs) (Kept s.bs)) :
    Good (ran s x fun _ => s.opens) :=
  ran_good <| (hx.conseq (fun _ hr => hr) fun _ _ hs =>
    ⟨hs.inv h.inv, hs.opens h.opens⟩).weaken fun _ _ hk =>
      ⟨hk.1, hk.2 ▸ h.inv, hk.2 ▸ h.opens⟩

private theorem reads_good (h : Good s) (hx : Reads x s.bs) :
    Good (ran s x fun _ => s.opens) :=
  slight_good h (hx.conseq (fun _ hr => hr) fun _ _ hr => .inl hr)

end

theorem added_good {s : State} {heap : Heap} {d : Unready} (h : Good s)
    (hopens : s.opens = []) (hok : AddOk s.bs d.d) : Good (added s heap d.d) := by
  have hnone : ∀ r, OpensOk r s.opens := by
    rw [hopens]
    exact fun r o ho => absurd ho List.not_mem_nil
  unfold added
  obtain ⟨r', hadd, hinv⟩ | ⟨msg, hadd⟩ :=
    blockstoreadd_spec heap h.inv hok d.nparts
  · rw [hadd]
    exact ⟨nofun, hinv, hnone r'⟩
  · rw [hadd]
    exact ⟨nofun, h.inv, h.opens⟩

theorem opening_good {s : State} {c : Chan} {devopen : Routine Unit} (h : Good s)
    (hl : Lists s.bs c.path devopen) : Good (ran s (bsopen c devopen) (openings s)) := by
  have hspec := bsopen_spec h.inv hl
  refine ran_good ((hspec.conseq (fun _ hr => hr) ?_).weaken ?_)
  · rintro out _ ⟨rfl, hcounting⟩
    refine ⟨h.inv, ?_⟩
    cases out with
    | chan c => exact h.opens
    | counting o =>
        intro o' ho'
        rcases List.mem_append.1 ho' with hold | hnew
        · exact h.opens o' hold
        · exact hcounting o rfl o' hnew
  · exact fun _ _ hk => ⟨hk.1, hk.2 ▸ h.inv, hk.2 ▸ h.opens⟩

theorem counting_good {s : State} {j : Nat} {o : Opening} (h : Good s)
    (ho : s.opens[j]? = some o) (hnil : o.nilp = false) :
    Good (ran s (bsopencount o) fun _ => s.opens.eraseIdx j) := by
  have hone : OpensOk s.bs [o] := by
    intro o' ho'
    rw [List.mem_singleton.1 ho']
    exact h.opens o (List.mem_of_getElem? ho)
  have hspec := bsopencount_spec h.inv hone hnil
  refine ran_good ((hspec.conseq (fun _ hr => hr) ?_).weaken ?_)
  · intro _ r' hs
    refine ⟨hs.inv h.inv, fun o' ho' => ?_⟩
    exact hs.opens h.opens o' (List.mem_of_mem_eraseIdx ho')
  · exact fun _ _ hf => hf.elim

/-- An action with what it needs. -/
theorem step_good {s s' : State} {a : Act} (h : Good s) (hg : Guard s a)
    (hs : step s a = some s') : Good s' := by
  unfold step at hs
  split at hs
  case isFalse => exact nomatch hs
  next hup =>
    obtain ⟨-, hwait⟩ := hup
    cases a with
    | add heap d =>
        obtain rfl := Option.some.inj hs
        exact added_good h (by simpa [waits] using hwait) hg
    | init devs =>
        obtain rfl := Option.some.inj hs
        have hopens : s.opens = [] := by simpa [waits] using hwait
        have hnone : ∀ r, OpensOk r s.opens := by
          rw [hopens]
          exact fun r o ho => absurd ho List.not_mem_nil
        refine ran_good (((bsinit_spec h.inv hg).conseq (fun _ hr => hr) ?_).weaken ?_)
        · exact fun _ r' hinv => ⟨hinv, hnone r'⟩
        · exact fun _ _ hf => hf.elim
    | walk c devwalk =>
        obtain rfl := Option.some.inj hs
        exact reads_good h (listed_reads h.inv hg)
    | stat c devstat =>
        obtain rfl := Option.some.inj hs
        exact reads_good h (listed_reads h.inv hg)
    | opening c devopen =>
        obtain rfl := Option.some.inj hs
        exact opening_good h hg
    | counting j =>
        obtain ⟨o, ho, rfl⟩ := Option.map_eq_some_iff.1 hs
        exact counting_good h ho (hg o ho)
    | wstat c who dir =>
        obtain rfl := Option.some.inj hs
        exact slight_good h (bswstat_spec h.inv who hg)
    | close c =>
        obtain rfl := Option.some.inj hs
        exact slight_good h (bsclose_spec h.inv hg)
    | read c a =>
        obtain rfl := Option.some.inj hs
        exact reads_good h (bsread_reads h.inv hg)
    | write c a =>
        obtain rfl := Option.some.inj hs
        have hwrote : ∀ r', Wrote s.bs c a r' → Inv r' ∧ OpensOk r' s.opens := by
          rintro r' (rfl | ⟨hlock, hinv⟩)
          · exact ⟨h.inv, h.opens⟩
          · have hopens : s.opens = [] := by
              simp only [waits] at hwait
              rcases hlock with ⟨htyp, heve⟩ | htyp
              · simpa [htyp, heve] using hwait
              · simpa [htyp] using hwait
            rw [hopens]
            exact ⟨hinv, fun o ho => absurd ho List.not_mem_nil⟩
        refine ran_good (((bswrite_spec h.inv hg).conseq (fun _ hr => hr) ?_).weaken ?_)
        · exact fun _ r' hw => hwrote r' hw
        · exact fun _ r' hw => ⟨hw.1, hwrote r' hw.2⟩

/-- An action without. -/
theorem guard_of_step {s s' : State} {a : Act} (h : Good s) (hs : step s a = some s')
    (hsound : Sound s') : Guard s a := by
  unfold step at hs
  split at hs
  case isFalse => exact nomatch hs
  next hup =>
    by_contra hg
    refine absurd hsound ?_
    cases a with
    | add heap d =>
        obtain rfl := Option.some.inj hs
        have hadd := blockstoreadd_fault heap h.inv hg
        unfold added
        rw [hadd]
        exact fun hs => hs.1 _ rfl
    | init devs =>
        obtain rfl := Option.some.inj hs
        exact ran_bad (.inl (bsinit_lost h.inv hg))
    | walk c devwalk =>
        obtain rfl := Option.some.inj hs
        exact ran_bad (.inl (listed_lost h.inv hg))
    | stat c devstat =>
        obtain rfl := Option.some.inj hs
        exact ran_bad (.inl (listed_lost h.inv hg))
    | opening c devopen =>
        obtain rfl := Option.some.inj hs
        exact ran_bad (.inl (bsopen_lost h.inv hg))
    | counting j =>
        obtain ⟨o, ho, rfl⟩ := Option.map_eq_some_iff.1 hs
        refine ran_bad (.inl (bsopencount_lost ?_))
        by_contra hnil
        refine hg fun o' ho' => ?_
        rw [ho] at ho'
        rw [← Option.some.inj ho']
        exact Bool.not_eq_true _ ▸ hnil
    | wstat c who dir =>
        obtain rfl := Option.some.inj hs
        exact ran_bad (.inl (bswstat_lost h.inv who hg))
    | close c =>
        obtain rfl := Option.some.inj hs
        exact ran_bad (.inl (bsclose_lost h.inv hg))
    | read c a =>
        obtain rfl := Option.some.inj hs
        exact ran_bad (.inl (bsread_lost h.inv hg))
    | write c a =>
        obtain rfl := Option.some.inj hs
        exact ran_bad (bswrite_bad h.inv hg)

theorem boot_good : Good boot where
  calm := nofun
  inv := ⟨.inl ⟨rfl, rfl⟩, fun _ _ hk => nomatch hk⟩
  opens := fun _ ho => absurd ho List.not_mem_nil

/-- From boot on, every action of a run returns or raises, and every entry that a store
counts is there, exactly when every action has what it needs. -/
theorem run_sound_iff (as : List Act) :
    AllStates step Sound boot as ↔ AllSteps step Guard boot as :=
  allStates_iff_allSteps (fun _ h => ⟨h.calm, h.inv.tables⟩)
    (fun _ _ _ h hg hs => step_good h hg hs)
    (fun _ _ _ h hs hsound => guard_of_step h hs hsound) as boot_good

/-! ## An open of the whole disk -/

/-- `devopen`, which asks for at most `n` entries from `i` on. -/
def devopen (path : Path) : Nat → Nat → Query Unit
  | 0, _ => .done (.ok ())
  | n + 1, i =>
      .gen path i fun
        | .none => .done (.ok ())
        | .skip => devopen path n (i + 1)
        | .found dir =>
            if dir.path = path then .done (.ok ()) else devopen path n (i + 1)

theorem devopen_proper (path : Path) (n i : Nat) : (devopen path n i).Proper := by
  induction n generalizing i with
  | zero => trivial
  | succ n ih =>
      intro a
      cases a with
      | none => trivial
      | skip => exact ih (i + 1)
      | found dir =>
          show (if dir.path = path then _ else devopen path n (i + 1)).Proper
          split
          · trivial
          · exact ih (i + 1)

def opendata : Routine Unit where
  eve := ascii "eve"
  query := devopen ⟨.Qdiskpart, 2, 0⟩ 8 0
  proper := devopen_proper ..

/-- A disk that cannot be read. -/
def disk : Unready where
  d := { StoreInit.unused.d with num := 2 }
  ready := rfl
  nparts := rfl

def driver : Driver where
  init := .ok ()
  req := StoreInit.deadDevice true
  reads _ _ h := ⟨"io", (Except.error.inj h).symm⟩

/-- The disk is registered, initialised and its `data` opened. -/
def dataopen : List Act :=
  [.add ⟨fun _ => true, fun _ => none⟩ disk, .init fun _ => driver,
    .opening ⟨⟨.Qdiskpart, 2, 0⟩, 0, false, none⟩ opendata, .counting 0]

theorem dataopen_faults :
    (run step boot dataopen).map State.ending = some (.broken .fault) :=
  rfl

/-- `bsinit` without a store. -/
theorem init_faults :
    (run step boot [.init fun _ => driver]).map State.ending = some (.broken .fault) :=
  rfl

/-- Neither run is sound. -/
theorem data_or_no_store_faults :
    ¬ AllStates step Sound boot dataopen ∧
      ¬ AllStates step Sound boot [.init fun _ => driver] := by
  have hlast : ∀ as, (run step boot as).map State.ending = some (.broken .fault) →
      ¬ AllStates step Sound boot as := by
    intro as hend hall
    obtain ⟨s, hrun, hs⟩ := Option.map_eq_some_iff.1 hend
    exact (hall.last as hrun).1 .fault hs
  exact ⟨hlast dataopen dataopen_faults, hlast _ init_faults⟩

end Kirkwood.Ports.DevBsSafe
