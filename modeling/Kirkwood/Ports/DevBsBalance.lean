import Kirkwood.Ports.DevBsLocks

/-!
# Locks and handlers of the block-store device, on every way out

What the operations of `DevBsLocks` leave of the locks and labels that they found.

## Main results

* `bsdevread_fair`: the one operation with a handler that falls through;
* `balanced_iff`: an operation that ends has given back the locks it took, has left the
  labels it found and passes its error on, unless a call at one of two places goes wrong.
-/

namespace Kirkwood.Ports.DevBsBalance

open Kirkwood.Verified.Outcome
open Kirkwood.Verified.Hoare
open Kirkwood.Verified.Unwind
open Kirkwood.Ports.BlockStore
open Kirkwood.Ports.DiskRegistry (Registry)
open Kirkwood.Ports.DevBs (BsM Chan Path Driver Query Routine Answer User Wstat Reading
  Writing)
open Kirkwood.Ports.DevBsLocks

/-- A call that goes wrong: one with a store locked by `bsgen` raises, or the handler of
`Qdiskctl`, after an error, gets to its end. -/
def Slip : Site × Option String → Prop
  | (.mkqidlocked, some _) | (.devdirlocked, some _) | (.freectl, none) => True
  | _ => False

instance (e : Site × Option String) : Decidable (Slip e) := by
  unfold Slip
  split
  · exact isTrue trivial
  · exact isTrue trivial
  · exact isTrue trivial
  · exact isFalse id

/-- The calls of a site are none of these. -/
def Plain (site : Site) : Prop :=
  site ≠ .mkqidlocked ∧ site ≠ .devdirlocked ∧ site ≠ .freectl

instance (site : Site) : Decidable (Plain site) := inferInstanceAs (Decidable (_ ∧ _))

theorem Plain.not_slip {site : Site} (h : Plain site) (out : Option String) :
    ¬ Slip (site, out) := by
  obtain ⟨hmkqid, hdevdir, hfree⟩ := h
  intro hslip
  unfold Slip at hslip
  split at hslip
  · rename_i heq
    exact hmkqid (congrArg Prod.fst heq)
  · rename_i heq
    exact hdevdir (congrArg Prod.fst heq)
  · rename_i heq
    exact hfree (congrArg Prod.fst heq)
  · exact hslip

section
variable {α : Type} {leak : Bool}

theorem onbs_steady (x : BsM α) : Steady Slip (onbs x) :=
  Steady.lift _ x

theorem call_steady {site : Site} (h : Plain site) :
    Steady Slip (call site : BsProc Unit) :=
  Steady.call h.not_slip

theorem onbs_calm (x : BsM α) : Calm Slip leak (onbs x) :=
  (onbs_steady x).calm

theorem call_calm {site : Site} (h : Plain site) :
    Calm Slip leak (call site : BsProc Unit) :=
  (call_steady h).calm

theorem pure_calm (a : α) : Calm Slip leak (pure a : BsProc α) :=
  (Steady.pure a).calm

theorem error_calm (msg : String) : Calm Slip leak (error msg : BsProc α) :=
  (Steady.error msg).calm

theorem panic_calm (msg : String) : Calm Slip leak (panic msg : BsProc α) :=
  (Steady.stop (Exn.panic msg)).calm

theorem diskget_calm (num : Int) : Calm Slip leak (diskget num) :=
  onbs_calm (DevBs.diskget num)

end

/-! ## Stores and partitions -/

section
variable {S : List (Site × Option String)} {L : List Nat} {H : Multiset (RWlock × Mode)}
variable {leak : Bool}

/-- Work on the stores that raises no error. -/
def Silent {α : Type} (x : BsM α) : Prop :=
  ∀ r msg r', x r ≠ .error (.error msg) r'

theorem onbs_silent {α : Type} {x : BsM α} (hx : Silent x)
    {R : Signal Exn → BsState → Prop} (hdown : ∀ sig s, Down sig → R sig s) :
    Triple (At Slip S L H) (onbs x) (fun _ => At Slip S L H) R := by
  intro s hs
  unfold onbs lift
  cases hrun : x s.data with
  | ok a r => exact ⟨hs.labels, hs.fresh, hs.held, hs.raised, hs.clean⟩
  | error e r =>
      cases e with
      | error msg => exact absurd hrun (hx s.data msg r)
      | panic msg => exact hdown _ _ trivial
      | fault => exact hdown _ _ trivial
      | hang => exact hdown _ _ trivial

private theorem diskget_silent (num : Int) : Silent (DevBs.diskget num) := by
  intro r msg r'
  unfold DevBs.diskget DiskRegistry.diskget DiskRegistry.getcell
  split
  · nofun
  · rename_i e he
    split at he
    · split at he
      · split at he
        · exact nomatch he
        · obtain rfl := Except.error.inj he
          nofun
      · obtain rfl := Except.error.inj he
        nofun
    · exact nomatch he

private theorem store_silent (k : Nat) : Silent (DevBs.store k) := by
  intro r msg r'
  unfold DevBs.store
  split
  · nofun
  · nofun

/-- `diskgetlock` adds its lock, or raises with none. -/
theorem diskgetlock_spec (num : Nat) (wl : Mode) {l : Nat} :
    Triple (At Slip S (l :: L) H) (diskgetlock num wl)
      (fun k => At Slip S (l :: L) ((.store k, wl) ::ₘ H)) (Left Slip leak S l L H) := by
  unfold diskgetlock
  refine (lock_spec _).bind fun _ => ?_
  refine (onbs_silent (diskget_silent num) down_left).bind fun d => ?_
  cases d with
  | none =>
      exact (unlock_spec _ rfl).bind fun _ => error_spec Enodisk
  | some k =>
      refine (lock_spec _).bind fun _ => ?_
      refine (unlock_spec _ (Multiset.cons_swap _ _ H)).bind fun _ => ?_
      exact Triple.pure fun _ hs => hs

end

section
variable {leak : Bool}

/-- An error of `partinit` is absorbed. -/
theorem partscan_calm (v : Driver) (k : Nat) (size : Int) :
    Calm Slip false (partscan v k size) := by
  intro S l L H
  have hbody : ∀ l', Triple (At Slip S (l' :: l :: L) H)
      (do
        onbs (DevBs.scan v k size)
        poperror)
      (fun _ => At Slip S (l :: L) H) (Left Slip false S l' (l :: L) H) :=
    fun l' => (onbs_calm (DevBs.scan v k size) S l' (l :: L) H).bind fun _ => poperror_spec
  refine waserror_spec hbody ?_ down_left
  refine (call_steady (by decide)).gone.bind fun _ => ?_
  exact absorb_spec.bind fun _ => Triple.pure fun _ hs => ⟨(), rfl, hs⟩

theorem diskinit_calm (v : Driver) (k : Nat) : Calm Slip leak (diskinit v k) := by
  refine Calm.loose ((onbs_calm _).bind fun _ => (onbs_calm _).bind fun _ => ?_)
  refine (onbs_calm _).bind fun _ => (onbs_calm _).bind fun d => ?_
  refine Calm.ite (fun _ => error_calm _) fun _ => ?_
  refine (call_calm (by decide)).bind fun _ => (onbs_calm _).bind fun _ => ?_
  refine (call_calm (by decide)).bind fun _ => (onbs_calm _).bind fun _ => ?_
  exact (onbs_calm _).bind fun _ => partscan_calm v k d.size

theorem datacheck_calm (who : User) (k : Nat) (iswrite : Bool) :
    Calm Slip leak (datacheck who k iswrite) :=
  (call_calm (by decide)).bind fun _ => onbs_calm _

theorem io_calm (dio : Bool → Int → Int → Except String Int) (k i : Nat) (iswrite : Bool)
    (n off : Int) : Calm Slip leak (io dio k i iswrite n off) := by
  refine (onbs_calm _).bind fun d => ?_
  refine Calm.ite (fun _ => error_calm _) fun _ => ?_
  refine Calm.ite (fun _ => error_calm _) fun _ => ?_
  refine Calm.ite (fun _ => error_calm _) fun _ => ?_
  refine (onbs_calm _).bind fun p => Calm.ite (fun _ => ?_) fun _ => onbs_calm _
  have hfree : Plain .free := by decide
  refine (call_calm (by decide)).bind fun _ => ?_
  refine (Calm.owned hfree.not_slip (onbs_calm _)).bind fun xn => ?_
  refine (call_calm (by decide)).bind fun _ => ?_
  exact (call_calm hfree).bind fun _ => pure_calm _

/-! ## Directories -/

theorem entry_calm (a : Answer) : Calm Slip leak (entry a) :=
  (call_calm (by decide)).bind fun _ => (call_calm (by decide)).bind fun _ => pure_calm a

theorem listing_calm (a : Answer) : Calm Slip leak (listing a) :=
  (call_calm (by decide)).bind fun _ => pure_calm a

theorem gendisk_calm (eve : List UInt8) (path : Path) (i : Nat) :
    Calm Slip leak (gendisk eve path i) := by
  refine (diskget_calm _).bind fun d => ?_
  cases d with
  | none => exact pure_calm _
  | some k =>
      refine (onbs_calm _).bind fun d => Calm.ite (fun _ => pure_calm _) fun _ => ?_
      match i with
      | 0 => exact entry_calm _
      | 1 => exact entry_calm _
      | 2 => exact entry_calm _
      | 3 => exact entry_calm _
      | i + 4 =>
          exact Calm.ite (fun _ => pure_calm _) fun _ =>
            (onbs_calm _).bind fun p => entry_calm _

/-- Where a call with the store locked raises, the lock stays. -/
theorem genroot_calm (eve : List UInt8) (i : Nat) : Calm Slip true (genroot eve i) := by
  refine (onbs_calm _).bind fun r => Calm.ite (fun _ => pure_calm _) fun _ => ?_
  refine (diskget_calm _).bind fun d => ?_
  cases d with
  | none => exact pure_calm _
  | some k =>
      intro S l L H
      refine (lock_spec _).bind fun _ => ?_
      refine (onbs_silent (store_silent k) down_left).bind fun d => ?_
      refine (call_leaks _ id fun _ => trivial).bind fun _ => ?_
      refine (call_leaks _ id fun _ => trivial).bind fun _ => ?_
      exact (unlock_spec _ rfl).bind fun _ => Triple.pure fun _ hs => hs

theorem bsgen_calm (eve : List UInt8) (path : Path) (i : Nat) :
    Calm Slip true (bsgen eve path i) := by
  refine Calm.ite (fun _ => gendisk_calm eve path i) fun _ => ?_
  match i with
  | 0 => exact listing_calm _
  | 1 => exact listing_calm _
  | i + 2 => exact genroot_calm eve i

theorem bsgenup_calm (eve : List UInt8) (path : Path) :
    Calm Slip leak (bsgenup eve path) := by
  unfold bsgenup
  split
  · exact listing_calm _
  · exact listing_calm _
  · exact panic_calm _

variable {α : Type}

/-- Over the questions of the routine. -/
theorem runquery_calm (eve : List UInt8) (q : Query α) :
    Calm Slip true (runquery eve q) := by
  induction q with
  | done out => exact onbs_calm _
  | gen path i next ih => exact (bsgen_calm eve path i).bind ih
  | dotdot path next ih => exact (bsgenup_calm eve path).bind ih

theorem listed_calm (path : Path) (q : Routine α) : Calm Slip true (listed path q) := by
  refine Calm.locked _ (Calm.ite (fun _ => ?_) fun _ => runquery_calm q.eve q.query)
  refine (diskget_calm _).bind fun d => ?_
  cases d with
  | none => exact error_calm _
  | some k => exact Calm.locked _ (runquery_calm q.eve q.query)

end

/-! ## The operations -/

section
variable {leak : Bool}

/-- What is done with the lock of `diskgetlock`. -/
theorem diskgetlock_held {α β : Type} (num : Nat) (wl : Mode) {body : Nat → BsProc α}
    {rest : α → BsProc β} (hbody : ∀ k, Calm Slip leak (body k))
    (hrest : ∀ a, Calm Slip leak (rest a)) :
    Calm Slip leak (do
      let k ← diskgetlock num wl
      let a ← held (.store k, wl) (body k)
      rest a) :=
  fun S l L H => (diskgetlock_spec num wl).bind fun k =>
    ((hbody k).held (.store k, wl)).bind fun a => hrest a S l L H

/-- An error of `init` or `diskinit` is absorbed. -/
theorem bsinitturn_calm (devs : Nat → Driver) (i : Nat) :
    Calm Slip leak (bsinitturn devs i) := by
  refine Calm.loose ((diskget_calm _).bind fun d => ?_)
  cases d with
  | none => exact pure_calm _
  | some k =>
      refine (onbs_calm _).bind fun d => Calm.ite (fun _ => pure_calm _) fun _ => ?_
      intro S l L H
      have hbody : ∀ l', Triple
          (At Slip S (l' :: l :: L) ((RWlock.store k, Mode.Writelock) ::ₘ H))
          (do
            onbs (DevBs.device (devs k).init)
            diskinit (devs k) k
            poperror
            unlock (RWlock.store k, Mode.Writelock))
          (fun _ => At Slip S (l :: L) H)
          (Left Slip false S l' (l :: L) ((RWlock.store k, Mode.Writelock) ::ₘ H)) := by
        intro l'
        refine (onbs_calm _ S l' (l :: L) _).bind fun _ => ?_
        refine (diskinit_calm (devs k) k S l' (l :: L) _).bind fun _ => ?_
        exact poperror_spec.bind fun _ => unlock_spec _ rfl
      refine (lock_spec _).bind fun _ => waserror_spec hbody ?_ down_left
      refine (unlock_gone _).bind fun _ => ?_
      exact absorb_spec.bind fun _ => Triple.pure fun _ hs => ⟨(), rfl, hs⟩

theorem bsinit_calm (devs : Nat → Driver) : Calm Slip leak (bsinit devs) := by
  refine Calm.locked _ ((onbs_calm _).bind fun r => ?_)
  exact Calm.forM _ fun i => bsinitturn_calm devs i

theorem openlocked_calm (c : Chan) (devopen : Routine Unit) (k : Nat) :
    Calm Slip true (openlocked c devopen k) := by
  have hask : Calm Slip true (ask devopen) := runquery_calm devopen.eve devopen.query
  refine Calm.ite (fun _ => ?_) fun _ => hask
  refine (onbs_calm _).bind fun i => (onbs_calm _).bind fun p => ?_
  refine Calm.ite (fun _ => hask.bind fun _ => onbs_calm _) fun _ => ?_
  exact Calm.ite (fun _ => error_calm _) fun _ => hask.bind fun _ => onbs_calm _

theorem bsopen_calm (c : Chan) (devopen : Routine Unit) :
    Calm Slip true (bsopen c devopen) := by
  refine Calm.locked _ (Calm.ite (fun _ => ?_) fun _ => ?_)
  · refine (diskget_calm _).bind fun d => ?_
    cases d with
    | none => exact error_calm _
    | some k =>
        refine Calm.locked _ ((openlocked_calm c devopen k).bind fun _ => ?_)
        exact (onbs_calm _).bind fun d => pure_calm _
  · exact (runquery_calm devopen.eve devopen.query).bind fun _ => pure_calm _

theorem bswstat_calm (c : Chan) (who : User) (dir : Wstat) :
    Calm Slip leak (bswstat c who dir) := by
  refine Calm.ite (fun _ => error_calm _) fun _ => ?_
  refine (call_calm (by decide)).bind fun _ => ?_
  refine Calm.ite (fun _ => error_calm _) fun _ => ?_
  refine Calm.ite (fun _ => error_calm _) fun _ => ?_
  have hlocked : ∀ k, Calm Slip leak (wstatlocked who dir k) := by
    intro k
    refine (onbs_calm _).bind fun i => (call_calm (by decide)).bind fun _ => ?_
    refine (onbs_calm _).bind fun _ => Calm.bind ?_ fun _ => onbs_calm _
    unfold copyuid
    split
    · exact pure_calm _
    · exact call_calm (by decide)
  intro S l L H
  exact (diskgetlock_spec _ _).bind fun k => (hlocked k).held _

theorem bsclose_calm (c : Chan) : Calm Slip leak (bsclose c) := by
  have hfree : Plain .free := by decide
  refine Calm.ite (fun _ => ?_) fun _ => Calm.ite (fun _ => ?_) fun _ => pure_calm _
  · refine diskgetlock_held _ _ (fun k => ?_) fun _ => pure_calm _
    refine (onbs_calm _).bind fun d => Calm.ite (fun _ => ?_) fun _ => pure_calm _
    refine (onbs_calm _).bind fun i => (onbs_calm _).bind fun p => ?_
    exact Calm.ite (fun _ => panic_calm _) fun _ => onbs_calm _
  · exact (call_calm hfree).bind fun _ => (call_calm hfree).bind fun _ => pure_calm _

theorem stalecheck_calm (c : Chan) (k : Nat) : Calm Slip leak (stalecheck c k) :=
  (onbs_calm _).bind fun _ => Calm.ite (fun _ => error_calm _) fun _ => pure_calm _

theorem devreadlocked_calm (c : Chan) (a : Reading) (k : Nat) :
    Calm Slip leak (devreadlocked c a k) := by
  unfold devreadlocked
  split
  · exact (datacheck_calm _ _ _).bind fun _ => onbs_calm _
  · exact (onbs_calm _).bind fun i => io_calm _ _ _ _ _ _
  · exact panic_calm _

theorem disklines_calm (is : List Nat) : Calm Slip leak (disklines is) := by
  induction is with
  | nil => exact pure_calm _
  | cons i is ih =>
      refine (onbs_calm _).bind fun d => ?_
      cases d with
      | none => exact ih
      | some k =>
          refine (onbs_calm _).bind fun d => (call_calm (by decide)).bind fun _ => ?_
          exact ih.bind fun rest => Calm.ite (fun _ => pure_calm _) fun _ => pure_calm _

theorem bslines_calm (a : Reading) : Calm Slip leak (bslines a) := by
  refine Calm.locked _ ((onbs_calm _).bind fun r => ?_)
  refine (disklines_calm _).bind fun lines => ?_
  exact (call_calm (by decide)).bind fun _ => pure_calm _

theorem devwritelocked_calm (c : Chan) (a : Writing) (k : Nat) :
    Calm Slip leak (devwritelocked c a k) := by
  unfold devwritelocked
  split
  · refine Calm.ite (fun _ => error_calm _) fun _ => (datacheck_calm _ _ _).bind fun _ => ?_
    exact (onbs_calm _).bind fun n => pure_calm _
  · refine (onbs_calm _).bind fun d => Calm.ite (fun _ => error_calm _) fun _ => ?_
    refine (datacheck_calm _ _ _).bind fun _ => ?_
    split
    · exact error_calm _
    · refine Calm.bind ?_ fun _ => (onbs_calm _).bind fun bn => pure_calm _
      unfold rawbuf
      split
      · exact call_calm (by decide)
      · exact call_calm (by decide)
  · refine (onbs_calm _).bind fun i => (io_calm _ _ _ _ _ _).bind fun n => pure_calm _
  · exact panic_calm _

theorem bsdevwrite_calm (c : Chan) (a : Writing) : Calm Slip leak (bsdevwrite c a) :=
  fun _ _ _ _ => (diskgetlock_spec _ _).bind fun k =>
    Calm.held _ ((stalecheck_calm c k).bind fun _ => devwritelocked_calm c a k)

theorem command_calm {body : BsProc Unit} (h : Calm Slip leak body) :
    Calm Slip leak (command body) := by
  have hfree : Plain .free := by decide
  refine (call_calm (by decide)).bind fun _ => ?_
  exact (Calm.owned hfree.not_slip h).bind fun _ => call_calm hfree

theorem ctlinit_calm (a : Writing) : Calm Slip leak (ctlinit a) := by
  refine (onbs_calm _).bind fun num => (call_calm (by decide)).bind fun _ => ?_
  refine (diskget_calm _).bind fun d => ?_
  cases d with
  | none => exact error_calm _
  | some k => exact Calm.locked _ (diskinit_calm _ k)

theorem diskcommand_calm (a : Writing) (k : Nat) : Calm Slip leak (diskcommand a k) := by
  refine (onbs_calm _).bind fun cmd => ?_
  cases cmd with
  | diskinit => exact diskinit_calm _ k
  | partinit =>
      refine (onbs_calm _).bind fun d => Calm.ite (fun _ => error_calm _) fun _ => ?_
      refine (call_calm (by decide)).bind fun _ => (onbs_calm _).bind fun _ => ?_
      exact (onbs_calm _).bind fun _ => onbs_calm _

theorem bswrite_calm (c : Chan) (a : Writing) : Calm Slip leak (bswrite c a) := by
  unfold bswrite
  split
  · refine (call_calm (by decide)).bind fun _ => ?_
    refine Calm.ite (fun _ => ?_) fun _ => error_calm _
    exact (Calm.locked _ (command_calm (ctlinit_calm a))).bind fun _ => pure_calm _
  · exact error_calm _
  · refine Calm.bind (Calm.locked _ ?_) fun _ => pure_calm _
    refine (diskget_calm _).bind fun d => ?_
    cases d with
    | none => exact error_calm _
    | some k =>
        refine Calm.locked _ ((stalecheck_calm c k).bind fun _ => ?_)
        exact (datacheck_calm _ _ _).bind fun _ => command_calm (diskcommand_calm a k)
  · exact bsdevwrite_calm c a
  · exact bsdevwrite_calm c a
  · exact bsdevwrite_calm c a
  · exact error_calm _
  · exact error_calm _
  · exact error_calm _

end

/-! ## A handler that falls through -/

section
variable {S : List (Site × Option String)} {L : List Nat} {X H : Multiset (RWlock × Mode)}
variable {α : Type}

/-- On the way in spite of an error, after a slip, with labels of `L` and the locks `X`. -/
structure Adrift (S : List (Site × Option String)) (L : List Nat)
    (X : Multiset (RWlock × Mode)) (s : BsState) : Prop where
  labels : ∀ l ∈ s.labels, l ∈ L
  held : s.held = X
  raised : s.raised ≠ none
  dirty : Dirty Slip S s

/-- Out by a label of `L`, or past the last one, after a slip and with the locks `X`. -/
def Strayed (S : List (Site × Option String)) (L : List Nat)
    (X : Multiset (RWlock × Mode)) (sig : Signal Exn) (s : BsState) : Prop :=
  (sig = .astray ∨ ∃ l ∈ L, sig = .jump l) ∧ s.held = X ∧ Dirty Slip S s

/-- As it should be, with the label `l` on top, or adrift without it. -/
def Unsure (S : List (Site × Option String)) (l : Nat) (L : List Nat)
    (X : Multiset (RWlock × Mode)) (s : BsState) : Prop :=
  At Slip S (l :: L) X s ∨ Adrift S L X s

/-- Out to the label `l`, or strayed without it. -/
def Astray (S : List (Site × Option String)) (l : Nat) (L : List Nat)
    (X : Multiset (RWlock × Mode)) (sig : Signal Exn) (s : BsState) : Prop :=
  Left Slip true S l L X sig s ∨ Strayed S L X sig s

theorem Steady.adrift {x : BsProc α} (h : Steady Slip x) :
    Triple (Adrift S L X) x (fun _ => Adrift S L X)
      (fun sig s => Down sig ∨ Strayed S L X sig s) := by
  intro s hs
  have hrun := h s
  cases hx : x s with
  | ok a s' =>
      rw [hx] at hrun
      obtain ⟨hlabels, -, hheld, hraised, hmade⟩ := hrun
      exact ⟨fun l hl => hs.labels l (hlabels ▸ hl), hheld.trans hs.held,
        hraised ▸ hs.raised, hs.dirty.made hmade⟩
  | error e s' =>
      rw [hx] at hrun
      cases e with
      | jump l =>
          obtain ⟨hlabels, -, hheld, -, hmade⟩ := hrun
          have hl : l ∈ L := hs.labels l (hlabels ▸ List.mem_cons_self)
          exact .inr ⟨.inr ⟨l, hl, rfl⟩, hheld.trans hs.held, hs.dirty.made hmade⟩
      | astray =>
          obtain ⟨-, hheld, hmade⟩ := hrun
          exact .inr ⟨.inl rfl, hheld.trans hs.held, hs.dirty.made hmade⟩
      | stop e => exact .inl trivial
      | offscript => exact .inl trivial

theorem poperror_adrift :
    Triple (Adrift S L X) (poperror : BsProc Unit) (fun _ => Adrift S L X)
      (fun sig s => Down sig ∨ Strayed S L X sig s) := by
  intro s hs
  unfold poperror
  cases hlabels : s.labels with
  | nil => exact .inr ⟨.inl rfl, hs.held, hs.dirty⟩
  | cons l ls =>
      refine ⟨fun l' hl' => hs.labels l' ?_, hs.held, hs.raised, hs.dirty⟩
      rw [hlabels]
      exact List.mem_cons_of_mem l hl'

/-- The end of the handler of `Qdiskctl` is a slip. -/
theorem ctlhandler_spec {l : Nat} :
    Triple (Gone Slip false S (l :: L) X)
      (do
        call .freectl
        poperror
        pure none : BsProc (Option α))
      (fun r s => r = none ∧ Adrift S L X s) (Left Slip false S l L X) := by
  intro s hs
  obtain ⟨E, hheld, hleft⟩ := hs.held
  obtain ⟨rfl, c, hc, hmade⟩ := hleft.resolve_right fun h => Bool.false_ne_true h.1
  have hX : s.held = X := hheld.trans (zero_add X)
  obtain hcall | ⟨rest, ⟨hscript, hcall⟩ | ⟨msg, hscript, hcall⟩⟩ :=
    call_cases Site.freectl s
  · rw [bind_error hcall]
    exact .inl trivial
  · rw [bind_ok hcall]
    have hpop : (poperror : BsProc Unit) { s with script := rest } =
        .ok () { s with script := rest, labels := L } := by
      unfold poperror
      simp only [hs.labels]
    rw [bind_ok hpop]
    have hnext : S = (c ++ [(Site.freectl, none)]) ++ rest := by
      rw [hc, hscript, List.append_assoc]
      rfl
    refine ⟨rfl, fun l' hl' => hl', hX, hs.raised, _, hnext, (.freectl, none), ?_, trivial⟩
    exact List.mem_append_right c (List.mem_singleton_self _)
  · have hnext : S = (c ++ [(Site.freectl, some msg)]) ++ rest := by
      rw [hc, hscript, List.append_assoc]
      rfl
    have herror :
        (error msg { s with script := rest } : EStateM.Result (Signal Exn) _ Unit) =
        .error (.jump l) { s with script := rest, raised := some msg, labels := L } := by
      unfold error nexterror
      simp only [hs.labels]
    rw [bind_error (hcall.trans herror)]
    refine .inr ⟨rfl, rfl, fun l hl => hs.fresh l (List.mem_cons_of_mem _ hl), nofun, 0,
      hheld, .inl ⟨rfl, _, hnext, fun e he => ?_⟩⟩
    obtain he | he := List.mem_append.1 he
    · exact hmade e he
    · rw [List.mem_singleton.1 he]
      exact id

theorem ctllines_steady (a : Reading) (k : Nat) : Steady Slip (ctllines a k) := by
  have hseprint : Plain .seprint := by decide
  have hreadstr : Plain .readstr := by decide
  have hparts : ∀ is, Steady Slip (partlines k is) := by
    intro is
    induction is with
    | nil => exact .pure _
    | cons i is ih =>
        refine (onbs_steady _).bind fun p => (call_steady hseprint).bind fun _ => ?_
        exact ih.bind fun rest => .pure _
  refine (onbs_steady _).bind fun d => (call_steady hseprint).bind fun _ => ?_
  refine Steady.ite (fun _ => ?_) fun _ => (call_steady hreadstr).bind fun _ => .pure _
  refine (call_steady hseprint).bind fun _ => (hparts _).bind fun parts => ?_
  exact (call_steady hreadstr).bind fun _ => .pure _

theorem unlock_adrift (lk : RWlock × Mode) :
    Triple (Adrift S L (lk ::ₘ H)) (unlock lk : BsProc Unit) (fun _ => Adrift S L H)
      (fun sig s => Down sig ∨ Strayed S L (lk ::ₘ H) sig s) := by
  intro s hs
  have hmem : lk ∈ s.held := hs.held ▸ Multiset.mem_cons_self lk H
  unfold unlock
  rw [if_pos hmem, hs.held, Multiset.erase_cons_head]
  exact ⟨hs.labels, rfl, hs.raised, hs.dirty⟩

/-- A calm routine, where one may be adrift. -/
theorem Steady.unsure {x : BsProc α} (h : Steady Slip x) {l : Nat} :
    Triple (Unsure S l L X) x (fun _ => Unsure S l L X) (Astray S l L X) := by
  rintro s (hs | hs)
  · exact ((h.calm S l L X).conseq (fun _ h => h) fun _ _ h => .inl h).weaken
      (fun _ _ h => .inl h) s hs
  · exact ((Steady.adrift h).conseq (fun _ h => h) fun _ _ h => .inr h).weaken
      (fun _ _ h => h.imp .inl id) s hs

/-- The text of `Qdiskctl`, with a label of `bsdevread` below it. -/
theorem ctltext_spec (a : Reading) (k : Nat) {l : Nat} :
    Triple (At Slip S (l :: L) X) (ctltext a k) (fun _ => Unsure S l L X)
      (Astray S l L X) := by
  have hlines := ctllines_steady a k
  have hmalloc : Plain .malloc := by decide
  have hfree : Plain .free := by decide
  have hbody : ∀ l', Triple (At Slip S (l' :: l :: L) X)
      (do
        let n ← ctllines a k
        poperror
        pure n)
      (fun _ => Unsure S l L X) (Left Slip false S l' (l :: L) X) := fun l' =>
    (hlines.calm S l' (l :: L) X).bind fun n =>
      poperror_spec.bind fun _ => Triple.pure fun _ hs => .inl hs
  have hagain : Triple (Adrift S L X)
      (do
        let n ← ctllines a k
        poperror
        pure n)
      (fun _ => Unsure S l L X) (Astray S l L X) :=
    ((Steady.adrift hlines).bind fun n =>
      poperror_adrift.bind fun _ => Triple.pure fun _ hs => .inr hs).weaken
        fun _ _ h => h.imp .inl id
  have hhandler : Triple (Gone Slip false S (l :: L) X)
      (do
        call .freectl
        poperror
        pure none : BsProc (Option Int))
      (fun r s => (∃ n, r = some n ∧ Unsure S l L X s) ∨ r = none ∧ Adrift S L X s)
      (Astray S l L X) :=
    (ctlhandler_spec.conseq (fun _ h => h) fun r s h => .inr h).weaken
      fun _ _ hleft => .inl hleft.loose
  refine ((call_calm hmalloc S l L X).weaken fun _ _ h => .inl h).bind fun _ => ?_
  refine Triple.ite (fun _ => ?_) fun _ => (error_spec Enomem).weaken fun _ _ h => .inl h
  refine Triple.bind (Q := fun _ => Unsure S l L X) ?_ fun n => ?_
  · refine waserror_rule (fun l' _ => ?_) hhandler hagain
    refine (hbody l').weaken fun sig s hleft => ?_
    exact hleft.symm.imp id fun hd => ⟨hd.ne_jump l', .inl (.inl hd)⟩
  · exact (Steady.unsure (call_steady hfree)).bind fun _ => Triple.pure fun _ hs => hs

/-- A routine whose ends tell whether there was a slip. -/
def Fair (x : BsProc α) : Prop :=
  ∀ S l L H s, At Slip S (l :: L) H s → Ended (x s) →
    (Balanced l L H (x s) ↔ Clean Slip S (final (x s)))

/-- What `bsdevread` does with its store locked. -/
private theorem readlocked_spec (c : Chan) (a : Reading) (k : Nat) {l : Nat} :
    Triple (At Slip S (l :: L) X)
      (do
        stalecheck c k
        if c.path.typ = .Qdiskctl then ctltext a k else devreadlocked c a k)
      (fun _ => Unsure S l L X) (Astray S l L X) := by
  refine ((stalecheck_calm c k S l L X).weaken fun _ _ h => .inl h).bind fun _ => ?_
  refine Triple.ite (fun _ => ctltext_spec a k) fun _ => ?_
  refine Triple.weaken ?_ fun _ _ h => .inl h
  exact (devreadlocked_calm c a k S l L X).conseq (fun _ h => h) fun _ _ h => .inl h

/-- After a slip `bsdevread` returns with an error that it has not passed on, or is out
with its lock or past the last label. -/
theorem bsdevread_spec (c : Chan) (a : Reading) {l : Nat} :
    Triple (At Slip S (l :: L) H) (bsdevread c a)
      (fun _ s => At Slip S (l :: L) H s ∨ s.raised ≠ none ∧ Dirty Slip S s)
      (fun sig s => Left Slip true S l L H sig s ∨
        (sig = .astray ∨ s.held ≠ H) ∧ Dirty Slip S s) := by
  refine ((diskgetlock_spec _ _).weaken fun _ _ h => .inl h).bind fun k => ?_
  have hne : ∀ E : Multiset (RWlock × Mode), (RWlock.store k, Mode.Readlock) ::ₘ E ≠ E := by
    intro E heq
    have hcard := congrArg Multiset.card heq
    rw [Multiset.card_cons] at hcard
    omega
  have hgone : Triple (Gone Slip true S (l :: L) ((RWlock.store k, Mode.Readlock) ::ₘ H))
      (do
        unlock (.store k, .Readlock)
        nexterror : BsProc (Option Int))
      (fun r s => (∃ n, r = some n ∧
        (At Slip S (l :: L) H s ∨ s.raised ≠ none ∧ Dirty Slip S s)) ∨ r = none ∧ False)
      (fun sig s => Left Slip true S l L H sig s ∨
        (sig = .astray ∨ s.held ≠ H) ∧ Dirty Slip S s) :=
    (unlock_gone _).bind fun _ => nexterror_spec.weaken fun _ _ h => .inl h
  refine waserror_rule (fun l' hfresh => ?_) hgone fun _ h => False.elim h
  have hout : ∀ sig s, Strayed S (l :: L) ((RWlock.store k, Mode.Readlock) ::ₘ H) sig s →
      sig ≠ .jump l' ∧ (Left Slip true S l L H sig s ∨
        (sig = .astray ∨ s.held ≠ H) ∧ Dirty Slip S s) := by
    rintro sig s ⟨hsig, hheld, hdirty⟩
    refine ⟨?_, .inr ⟨.inr (hheld ▸ hne H), hdirty⟩⟩
    obtain rfl | ⟨l'', hl'', rfl⟩ := hsig
    · nofun
    · exact fun heq => hfresh l'' hl'' (Signal.jump.inj heq)
  have hadrift : ∀ (sig : Signal Exn) (s : BsState),
      Down sig ∨ Strayed S (l :: L) ((RWlock.store k, Mode.Readlock) ::ₘ H) sig s →
      sig = .jump l' ∧ Gone Slip true S (l :: L) ((RWlock.store k, Mode.Readlock) ::ₘ H) s ∨
        sig ≠ .jump l' ∧ (Left Slip true S l L H sig s ∨
          (sig = .astray ∨ s.held ≠ H) ∧ Dirty Slip S s) := by
    rintro sig s (hdown | hstrayed)
    · exact .inr ⟨hdown.ne_jump l', .inl (.inl hdown)⟩
    · exact .inr (hout sig s hstrayed)
  refine ((readlocked_spec c a k).weaken fun sig s h => ?_).bind fun n => ?_
  · obtain (hdown | hjump) | hstrayed := h
    · exact hadrift sig s (.inl hdown)
    · exact .inl hjump
    · exact hadrift sig s (.inr hstrayed)
  · rintro s (hs | hs)
    · exact (poperror_spec.bind fun _ => (unlock_spec _ rfl).bind fun _ =>
        Triple.pure fun _ hs => .inl hs) s hs
    · refine ((poperror_adrift.weaken hadrift).bind fun _ => ?_) s hs
      exact ((unlock_adrift _).weaken hadrift).bind fun _ =>
        Triple.pure fun _ hs => .inr ⟨hs.raised, hs.dirty⟩

theorem bsdevread_fair (c : Chan) (a : Reading) : Fair (bsdevread c a) := by
  intro S l L H s hs hend
  have hrun := bsdevread_spec c a s hs
  cases hx : bsdevread c a s with
  | ok n s' =>
      rw [hx] at hrun
      obtain hat | ⟨hraised, hdirty⟩ := hrun
      · exact iff_of_true ⟨hat.labels, hat.held, hat.raised⟩ hat.clean
      · refine iff_of_false ?_ (not_clean_of_dirty hdirty)
        rintro ⟨-, -, hnone⟩
        exact hraised hnone
  | error sig s' =>
      rw [hx] at hrun hend
      obtain hleft | ⟨hwrong, hdirty⟩ := hrun
      · exact hleft.fair hend
      · refine iff_of_false ?_ (not_clean_of_dirty hdirty)
        rintro ⟨rfl, -, hheld, -⟩
        obtain hcontra | hne := hwrong
        · exact nomatch hcontra
        · exact hne hheld

/-! ## Every operation -/

theorem calm_fair {x : BsProc α} (h : Calm Slip true x) : Fair x :=
  fun _ _ _ _ _ hs hend => h.fair hs hend

/-- The result is of no account. -/
theorem Fair.void {x : BsProc α} (h : Fair x) :
    Fair (do
      let _ ← x
      pure ()) := by
  intro S l L H s hs hend
  have hfair := h S l L H s hs
  cases hx : x s with
  | ok a s' =>
      rw [hx] at hfair
      rw [bind_ok hx]
      exact hfair trivial
  | error sig s' =>
      rw [hx] at hfair
      rw [bind_error hx] at hend ⊢
      exact hfair hend

theorem bsread_fair (c : Chan) (a : Reading) : Fair (bsread c a) := by
  have hfree : Plain .free := by decide
  unfold bsread
  split
  · exact calm_fair (listed_calm c.path a.devdirread)
  · exact calm_fair (listed_calm c.path a.devdirread)
  · refine calm_fair ((call_calm (by decide)).bind fun _ => ?_)
    refine (Calm.owned hfree.not_slip (bslines_calm a)).bind fun n => ?_
    exact (call_calm hfree).bind fun _ => pure_calm _
  · exact calm_fair (error_calm _)
  · exact calm_fair (error_calm _)
  · exact bsdevread_fair c a
  · exact bsdevread_fair c a
  · exact bsdevread_fair c a
  · split
    · exact calm_fair (error_calm _)
    · exact calm_fair ((call_calm (by decide)).bind fun _ => pure_calm _)

theorem perform_fair (op : Operation) : Fair (perform op) := by
  cases op with
  | init devs => exact calm_fair (bsinit_calm devs)
  | walk c devwalk => exact (calm_fair (listed_calm c.path devwalk)).void
  | stat c devstat => exact (calm_fair (listed_calm c.path devstat)).void
  | opening c devopen => exact (calm_fair (bsopen_calm c devopen)).void
  | wstat c who dir => exact calm_fair (bswstat_calm c who dir)
  | close c => exact (calm_fair (bsclose_calm c)).void
  | read c a => exact (bsread_fair c a).void
  | write c a => exact (calm_fair (bswrite_calm c a)).void

/-- Every operation, from any state of the stores and any locks and labels, with any
errors raised by the routines it calls.  If the operation ends, having made the calls of
the script, then it has given back the locks it took, has left the labels it found and
passes its error on, if and only if no call of `bsgen` with a store locked has raised,
and the handler of `Qdiskctl` has not got to its end. -/
theorem balanced_iff (op : Operation) (s : BsState) {l : Nat} {L : List Nat}
    (hlabels : s.labels = l :: L) (hfresh : ∀ l' ∈ s.labels, l' < s.fresh)
    (hraised : s.raised = none) (hend : Ended (perform op s))
    (hscript : (final (perform op s)).script = []) :
    Balanced l L s.held (perform op s) ↔ ∀ e ∈ s.script, ¬ Slip e := by
  have hs : At Slip s.script (l :: L) s.held s :=
    ⟨hlabels, hlabels ▸ hfresh, rfl, hraised, [], rfl, nofun⟩
  rw [perform_fair op _ _ _ _ s hs hend]
  constructor
  · rintro ⟨c, hc, hgood⟩
    rw [hscript, List.append_nil] at hc
    rw [hc]
    exact hgood
  · intro hgood
    exact ⟨s.script, by rw [hscript, List.append_nil], hgood⟩

end

/-! ## A stat and a read -/

/-- A process in the device, with the label of its caller and one below it. -/
def process (disks : List (Option Store)) (script : List (Site × Option String)) :
    BsState where
  data := ⟨disks, disks.length - 1⟩
  held := 0
  asked := []
  labels := [1, 0]
  fresh := 2
  raised := none
  script := script
  others := []

def reading : Reading where
  who := ⟨true, fun _ _ _ => true⟩
  n := 100
  off := 0
  devdirread := ⟨[], .done (.ok 0), trivial⟩
  readstr lines := lines.length
  room := true
  rctl := .ok 0
  io _ _ _ := .ok 0

/-- A store that is not ready. -/
def unready : Store := ⟨1, 0, 0, [], 511, [], 0, 0⟩

/-- A stat of the root, in which `devstat` raises an error. -/
def statroot : Operation :=
  .stat ⟨⟨.Qdir, 0, 0⟩, 0, false, none⟩ ⟨[], .done (.error DevBs.Eshortstat), trivial⟩

/-- Its error goes on to the caller, with the lock given back. -/
theorem statroot_balanced :
    Balanced 1 [0] 0 (perform statroot (process [some unready] [])) := by
  have hend : Ended (perform statroot (process [some unready] [])) := by
    decide +kernel
  have hscript : (final (perform statroot (process [some unready] []))).script = [] := by
    decide +kernel
  exact (balanced_iff statroot _ rfl (by decide) rfl hend hscript).2 nofun

/-- `ctl` of the store is read, but `seprint` raises an error. -/
def readctl : Operation := .read ⟨⟨.Qdiskctl, 0, 0⟩, 1, true, none⟩ reading

def readctlCalls : List (Site × Option String) :=
  [(.malloc, none), (.seprint, some "fault"), (.freectl, none), (.seprint, none),
    (.readstr, none), (.free, none)]

/-- The labels of the caller are gone when it returns. -/
theorem readctl_unbalanced :
    ¬ ∀ (op : Operation) (s : BsState) (l : Nat) (L : List Nat), s.labels = l :: L →
      (∀ l' ∈ s.labels, l' < s.fresh) → s.raised = none → Ended (perform op s) →
      Balanced l L s.held (perform op s) := by
  intro h
  have hend : Ended (perform readctl (process [some unready] readctlCalls)) := by
    decide +kernel
  have hwrong : ¬ Balanced 1 [0] 0
      (perform readctl (process [some unready] readctlCalls)) := by
    decide +kernel
  exact hwrong (h readctl _ 1 [0] rfl (by decide) rfl hend)

end Kirkwood.Ports.DevBsBalance
