import Kirkwood.Ports.DevBs

/-!
# Lookups of stores and partitions

An array of the right length, and stores with the entries that they count: `Inv`.  What
an access finds there, and what `bsgen` and the routines that ask it find.

## Main results

* `diskget_spec`, `xpartget_spec`: what the pointers point at;
* `listed_reads`, `listed_lost`: a routine of the kernel changes nothing, unless it has
  number 0 looked up in an empty registry.
-/

namespace Kirkwood.Ports.DevBsAccess

open Kirkwood.Verified.ByteMem
open Kirkwood.Verified.Outcome
open Kirkwood.Verified.Hoare
open Kirkwood.Ports.BlockStore
open Kirkwood.Ports.DiskRegistry (Registry)
open Kirkwood.Ports.DevBs

/-! ## The registry -/

/-- Every entry that a store counts is there. -/
def Counted (r : Registry) : Prop :=
  ∀ (k : Nat) (d : Store), r.disks[k]? = some (some d) → d.nparts ≤ d.parts.length

/-- The array has `maxdisk` as its highest index, or is not there. -/
structure Inv (r : Registry) : Prop where
  array : r.disks = [] ∧ r.maxdisk = 0 ∨ r.disks.length = r.maxdisk + 1
  tables : Counted r

/-- What a lookup of `num` needs. -/
def Found (r : Registry) (num : Int) : Prop := r.disks = [] → num ≠ 0

/-- A caller gets the error. -/
def Raised (e : Exn) : Prop := ∃ msg, e = .error msg

/-- An error, from `r`, with nothing changed. -/
def Kept (r : Registry) (e : Exn) (r' : Registry) : Prop := Raised e ∧ r' = r

/-- A routine that changes nothing, from `r`. -/
def Reads {α : Type} (x : BsM α) (r : Registry) : Prop :=
  Triple (· = r) x (fun _ r' => r' = r) (Kept r)

/-- A routine, from `r`, that neither returns nor raises. -/
def Lost {α : Type} (x : BsM α) (r : Registry) : Prop :=
  ∃ e r', x r = .error e r' ∧ ¬ Raised e

/-- A routine, from `r`, that is lost, or leaves a store without an entry that it
counts. -/
def Bad {α : Type} (x : BsM α) (r : Registry) : Prop :=
  Lost x r ∨ ∃ msg r', x r = .error (.error msg) r' ∧ ¬ Counted r'

section
variable {α β : Type} {r r' : Registry} {x : BsM α} {f : α → BsM β} {a : α}

theorem waserror_spec {P : Registry → Prop} {Q : α → Registry → Prop}
    {R : Exn → Registry → Prop} {S : Registry → Prop} (handler : String → BsM α)
    (hx : Triple P x Q fun e r' => Raised e ∧ S r')
    (hh : ∀ msg, Triple S (handler msg) Q R) : Triple P (waserror x handler) Q R := by
  intro r hr
  have hspec := hx r hr
  unfold waserror
  cases hrun : x r with
  | ok a r' =>
      rw [hrun] at hspec
      exact hspec
  | error e r' =>
      rw [hrun] at hspec
      obtain ⟨⟨msg, rfl⟩, hs⟩ := hspec
      exact hh msg r' hs

theorem Lost.waserror (handler : String → BsM α) (h : Lost x r) :
    Lost (waserror x handler) r := by
  obtain ⟨e, r', hx, he⟩ := h
  refine ⟨e, r', ?_, he⟩
  unfold DevBs.waserror
  rw [hx]
  cases e with
  | error msg => exact absurd ⟨msg, rfl⟩ he
  | _ => rfl

theorem Lost.bind (h : Lost x r) : Lost (x >>= f) r := by
  obtain ⟨e, r', hx, he⟩ := h
  exact ⟨e, r', bind_error hx, he⟩

theorem Lost.eval (hx : x r = .ok a r') (h : Lost (f a) r') : Lost (x >>= f) r := by
  obtain ⟨e, r'', hf, he⟩ := h
  exact ⟨e, r'', (bind_ok hx).trans hf, he⟩

theorem fault_lost (h : x r = .error .fault r') : Lost x r :=
  ⟨.fault, r', h, nofun⟩

theorem Reads.pure (a : α) : Reads (Pure.pure a) r :=
  Triple.pure fun _ h => h

theorem raise_spec {Q : α → Registry → Prop} (msg : String) :
    Triple (· = r) (raise msg) Q (Kept r) :=
  Triple.of_error rfl ⟨⟨msg, rfl⟩, rfl⟩

theorem device_spec (out : Except String α) :
    Triple (· = r) (device out) (fun a r' => r' = r ∧ out = .ok a) (Kept r) := by
  cases out with
  | ok a => exact Triple.of_ok rfl ⟨rfl, rfl⟩
  | error msg => exact raise_spec msg

theorem Reads.device (out : Except String α) : Reads (device out) r :=
  (device_spec out).conseq (fun _ h => h) fun _ _ h => h.1

theorem Reads.bind (hx : Reads x r) (hf : ∀ a, Reads (f a) r) : Reads (x >>= f) r :=
  Triple.bind hx hf

theorem Bad.bind (hx : Bad x r) : Bad (x >>= f) r := by
  rcases hx with hx | ⟨msg, r', hx, hcount⟩
  · exact .inl hx.bind
  · exact .inr ⟨msg, r', bind_error hx, hcount⟩

theorem Bad.eval (hx : x r = .ok a r) (hf : Bad (f a) r) : Bad (x >>= f) r := by
  rcases hf with hf | ⟨msg, r', hf, hcount⟩
  · exact .inl (hf.eval hx)
  · exact .inr ⟨msg, r', (bind_ok hx).trans hf, hcount⟩

end

/-! ## One store -/

section
variable {r : Registry} {k i : Nat} {d : Store} {p : Part}

theorem lt_of_store (hd : r.disks[k]? = some (some d)) : k < r.disks.length :=
  (List.getElem?_eq_some_iff.1 hd).1

theorem store_eq (hd : r.disks[k]? = some (some d)) : store k r = .ok d r := by
  unfold store
  rw [hd]

theorem getpart_eq (hd : r.disks[k]? = some (some d)) (hp : d.parts[i]? = some p) :
    getpart k i r = .ok p r := by
  unfold getpart
  rw [bind_ok (store_eq hd), hp]
  rfl

theorem update_eq (hd : r.disks[k]? = some (some d)) (f : Store → Store) :
    update k f r = .ok () (put r k (f d)) := by
  unfold update
  rw [bind_ok (store_eq hd)]
  rfl

theorem setpart_eq (hd : r.disks[k]? = some (some d)) (hp : d.parts[i]? = some p)
    (f : Part → Part) :
    setpart k i f r = .ok () (put r k { d with parts := d.parts.modify i f }) := by
  unfold setpart
  rw [bind_ok (getpart_eq hd hp), update_eq hd]

theorem setpart_fault (hd : r.disks[k]? = some (some d)) (hp : d.parts[i]? = none)
    (f : Part → Part) : setpart k i f r = .error .fault r := by
  unfold setpart getpart
  refine bind_error ?_
  rw [bind_ok (store_eq hd), hp]
  rfl

theorem put_get (hk : k < r.disks.length) (d : Store) :
    (put r k d).disks[k]? = some (some d) := by
  show (r.disks.set k (some d))[k]? = _
  rw [List.getElem?_set_self hk]

theorem put_put (r : Registry) (k : Nat) (d d' : Store) :
    put (put r k d) k d' = put r k d' := by
  unfold put
  rw [List.set_set]

theorem update_put (hk : k < r.disks.length) (d : Store) (f : Store → Store) :
    update k f (put r k d) = .ok () (put r k (f d)) := by
  rw [update_eq (put_get hk d), put_put]

theorem put_self (hd : r.disks[k]? = some (some d)) : put r k d = r := by
  obtain ⟨hk, hget⟩ := List.getElem?_eq_some_iff.1 hd
  unfold put
  rw [← hget, List.set_getElem_self]

theorem put_disks_eq_nil {d : Store} : (put r k d).disks = [] ↔ r.disks = [] := by
  show r.disks.set k _ = [] ↔ _
  rw [← List.length_eq_zero_iff, List.length_set, List.length_eq_zero_iff]

theorem put_ne {d : Store} {j : Nat} (hj : j ≠ k) : (put r k d).disks[j]? = r.disks[j]? :=
  List.getElem?_set_ne (Ne.symm hj)

theorem Inv.put (h : Inv r) (hd : d.nparts ≤ d.parts.length) : Inv (put r k d) where
  array := by
    rw [put_disks_eq_nil]
    show _ ∨ (r.disks.set k (some d)).length = r.maxdisk + 1
    rw [List.length_set]
    exact h.array
  tables j d' hj := by
    by_cases hjk : j = k
    · subst hjk
      have hlt := lt_of_store hj
      rw [put_get (by rwa [DevBs.put, List.length_set] at hlt)] at hj
      rw [← Option.some.inj (Option.some.inj hj)]
      exact hd
    · rw [put_ne hjk] at hj
      exact h.tables j d' hj

/-- A counted entry is there. -/
theorem Inv.entry (h : Inv r) (hd : r.disks[k]? = some (some d)) (hi : i < d.nparts) :
    ∃ p, d.parts[i]? = some p :=
  ⟨_, List.getElem?_eq_getElem (Nat.lt_of_lt_of_le hi (h.tables k d hd))⟩

theorem xpartget_spec (hd : r.disks[k]? = some (some d)) (i : Nat) :
    Triple (· = r) (xpartget k i)
      (fun j r' => r' = r ∧ j = i ∧ d.ready ≠ 0 ∧ i < d.nparts) (Kept r) := by
  unfold xpartget
  refine Triple.eval (store_eq hd) ?_
  refine Triple.ite (fun _ => raise_spec _) fun hready => ?_
  refine Triple.ite (fun _ => raise_spec _) fun hi => ?_
  exact Triple.of_ok rfl ⟨rfl, rfl, hready, Nat.lt_of_not_le hi⟩

theorem xpartget_eq (hd : r.disks[k]? = some (some d)) (hready : d.ready ≠ 0)
    (hi : i < d.nparts) : xpartget k i r = .ok i r := by
  unfold xpartget
  rw [bind_ok (store_eq hd), if_neg hready, if_neg (Nat.not_le_of_lt hi)]
  rfl

end

/-! ## Lookups -/

section
variable {r : Registry} {num : Int}

theorem Inv.getcell (h : Inv r) {i : Nat} (hi : i ≤ r.maxdisk) (hnil : r.disks ≠ []) :
    ∃ c, r.disks[i]? = some c ∧ DiskRegistry.getcell r.disks i = .ok c := by
  have hlen : r.disks.length = r.maxdisk + 1 := h.array.resolve_left fun hn => hnil hn.1
  have hlt : i < r.disks.length := by omega
  refine ⟨_, List.getElem?_eq_getElem hlt, ?_⟩
  unfold DiskRegistry.getcell
  rw [if_pos (Int.natCast_nonneg i), Int.toNat_natCast, List.getElem?_eq_getElem hlt]

/-- A lookup in the registry. -/
theorem lookup (h : Inv r) (hf : Found r num) :
    ∃ o, DiskRegistry.diskget r num = .ok o ∧ ∀ d, o = some d →
      (num.toNat : Int) = num ∧ r.disks[num.toNat]? = some (some d) := by
  unfold DiskRegistry.diskget
  by_cases hin : num ≥ 0 ∧ num ≤ r.maxdisk
  · have hnil : r.disks ≠ [] := by
      intro hn
      have hmax := h.array.resolve_right (by rw [hn]; simp)
      have hzero := hf hn
      omega
    have hnum : (num.toNat : Int) = num := Int.toNat_of_nonneg hin.1
    obtain ⟨c, hc, hget⟩ := h.getcell (i := num.toNat) (by omega) hnil
    rw [hnum] at hget
    rw [if_pos hin, hget]
    exact ⟨c, rfl, fun d hd => ⟨hnum, hd ▸ hc⟩⟩
  · rw [if_neg hin]
    exact ⟨none, rfl, nofun⟩

theorem diskget_spec {R : Exn → Registry → Prop} (h : Inv r) (hf : Found r num) :
    Triple (· = r) (diskget num)
      (fun o r' => r' = r ∧ ∀ k, o = some k →
        (k : Int) = num ∧ ∃ d, r.disks[k]? = some (some d)) R := by
  obtain ⟨o, hget, ho⟩ := lookup h hf
  have hrun : diskget num r = .ok (o.map fun _ => num.toNat) r := by
    unfold diskget
    rw [hget]
  refine Triple.of_ok hrun ⟨rfl, fun k hk => ?_⟩
  obtain ⟨d, hd, rfl⟩ := Option.map_eq_some_iff.1 hk
  obtain ⟨hnum, hcell⟩ := ho d hd
  exact ⟨hnum, d, hcell⟩

theorem diskget_lost (h : Inv r) (hf : ¬ Found r num) :
    diskget num r = .error .fault r := by
  obtain ⟨hnil, hnum⟩ : r.disks = [] ∧ num = 0 := by
    unfold Found at hf
    rwa [Classical.not_imp, not_not] at hf
  have hmax := h.array.resolve_right (by rw [hnil]; simp)
  unfold diskget DiskRegistry.diskget
  rw [hnum, hmax.2, hmax.1]
  rfl

theorem diskget_eq (h : Inv r) {k : Nat} {d : Store} (hd : r.disks[k]? = some (some d)) :
    diskget k r = .ok (some k) r := by
  have hlt := lt_of_store hd
  have hlen : r.disks.length = r.maxdisk + 1 := by
    refine h.array.resolve_left fun hn => ?_
    rw [hn.1] at hlt
    exact Nat.not_lt_zero k hlt
  have hin : (k : Int) ≥ 0 ∧ (k : Int) ≤ r.maxdisk := by omega
  unfold diskget DiskRegistry.diskget DiskRegistry.getcell
  rw [if_pos hin, if_pos hin.1, Int.toNat_natCast, hd]
  rfl

theorem diskgetlock_spec (h : Inv r) {num : Nat} (hf : Found r num) :
    Triple (· = r) (diskgetlock num)
      (fun k r' => r' = r ∧ k = num ∧ ∃ d, r.disks[num]? = some (some d)) (Kept r) := by
  unfold diskgetlock
  refine (diskget_spec h hf).bind fun o => Triple.fact fun ho => ?_
  cases o with
  | none => exact raise_spec _
  | some k =>
      obtain ⟨hk, d, hd⟩ := ho k rfl
      obtain rfl : k = num := Int.natCast_inj.1 hk
      exact Triple.of_ok rfl ⟨rfl, rfl, d, hd⟩

theorem diskgetlock_lost (h : Inv r) {num : Nat} (hf : ¬ Found r num) :
    Lost (diskgetlock num) r :=
  (fault_lost (diskget_lost h hf)).bind

theorem diskgetlock_eq (h : Inv r) {k : Nat} {d : Store}
    (hd : r.disks[k]? = some (some d)) : diskgetlock k r = .ok k r := by
  unfold diskgetlock
  rw [bind_ok (diskget_eq h hd)]
  rfl

end

/-! ## Directories -/

/-- Whether `bsgen` looks up number 0 in an empty registry. -/
def looks (path : Path) (i : Nat) : Prop :=
  if path.typ.ofdisk then path.disk = 0 else i = 2

/-- The answers of `bsgen` for an empty registry, where it does not. -/
def unstored (eve : Bytes) (path : Path) (i : Nat) : Answer :=
  if path.typ.ofdisk then .none
  else
    match i with
    | 0 => tabled eve .Qbsctl 0
    | 1 => tabled eve .Qbsevent 0
    | _ => .none

/-- In an empty registry, the routine has number 0 looked up. -/
def Asks {α : Type} (eve : Bytes) : Query α → Prop
  | .done _ => False
  | .gen path i next => looks path i ∨ Asks eve (next (unstored eve path i))
  | .dotdot _ next => Asks eve (next (tabled eve .Qdir 0))

section
variable {r : Registry} {eve : Bytes} {path : Path} {i : Nat}

theorem bsgen_reads (h : Inv r) (hl : r.disks = [] → ¬ looks path i) :
    Reads (bsgen eve path i) r := by
  unfold bsgen
  unfold looks at hl
  refine Triple.ite (fun hdisk => ?_) fun hdisk => ?_
  · simp only [if_pos hdisk] at hl
    have hf : Found r path.disk := fun hnil h0 => hl hnil (Int.natCast_eq_zero.1 h0)
    refine (diskget_spec h hf).bind fun o => Triple.fact fun ho => ?_
    cases o with
    | none => exact Reads.pure _
    | some k =>
        obtain ⟨-, d, hd⟩ := ho k rfl
        refine Triple.eval (store_eq hd) ?_
        refine Triple.ite (fun _ => Reads.pure _) fun _ => ?_
        match i with
        | 0 | 1 | 2 | 3 => exact Reads.pure _
        | i + 4 =>
            refine Triple.ite (fun _ => Reads.pure _) fun hi => ?_
            obtain ⟨p, hp⟩ := h.entry hd (Nat.lt_of_not_le hi)
            exact Triple.eval (getpart_eq hd hp) (Reads.pure _)
  · simp only [if_neg hdisk] at hl
    match i with
    | 0 | 1 => exact Reads.pure _
    | i + 2 =>
        have hf : Found r (i : Int) := fun hnil h0 => hl hnil (by omega)
        refine Triple.eval (show (get : BsM Registry) r = .ok r r from rfl) ?_
        refine Triple.ite (fun _ => Reads.pure _) fun _ => ?_
        refine (diskget_spec h hf).bind fun o => Triple.fact fun ho => ?_
        cases o with
        | none => exact Reads.pure _
        | some k =>
            obtain ⟨-, d, hd⟩ := ho k rfl
            exact Triple.eval (store_eq hd) (Reads.pure _)

/-- In an empty registry. -/
theorem bsgen_unstored (h : Inv r) (hnil : r.disks = []) (hl : ¬ looks path i) :
    bsgen eve path i r = .ok (unstored eve path i) r := by
  have hmax := (h.array.resolve_right (by rw [hnil]; simp)).2
  unfold bsgen unstored
  unfold looks at hl
  by_cases hdisk : path.typ.ofdisk = true
  · rw [if_pos hdisk] at hl
    rw [if_pos hdisk, if_pos hdisk]
    refine bind_ok (a := none) ?_
    unfold diskget DiskRegistry.diskget
    rw [if_neg (by omega)]
    rfl
  · rw [if_neg hdisk] at hl
    rw [if_neg hdisk, if_neg hdisk]
    match i with
    | 0 | 1 => rfl
    | i + 2 =>
        have hi : i > r.maxdisk := by omega
        refine (bind_ok (show (get : BsM Registry) r = .ok r r from rfl)).trans ?_
        rw [if_pos hi]
        rfl

theorem bsgen_lost (h : Inv r) (hnil : r.disks = []) (hl : looks path i) :
    Lost (bsgen eve path i) r := by
  have hzero : Lost (diskget 0) r := fault_lost (diskget_lost h fun hf => hf hnil rfl)
  unfold bsgen
  unfold looks at hl
  by_cases hdisk : path.typ.ofdisk = true
  · rw [if_pos hdisk] at hl ⊢
    rw [hl]
    exact hzero.bind
  · rw [if_neg hdisk] at hl ⊢
    subst hl
    refine Lost.eval (show (get : BsM Registry) r = .ok r r from rfl) ?_
    rw [if_neg (Nat.not_lt_zero r.maxdisk)]
    exact hzero.bind

theorem bsgenup_eq (hdir : path.typ = .Qdir ∨ path.typ = .Qdiskdir) :
    bsgenup eve path r = .ok (tabled eve .Qdir 0) r := by
  unfold bsgenup
  rcases hdir with hdir | hdir <;> rw [hdir] <;> rfl

section
variable {α : Type}

theorem run_reads (h : Inv r) {q : Query α} (hproper : q.Proper)
    (hasks : r.disks = [] → ¬ Asks eve q) : Reads (q.run eve) r := by
  induction q with
  | done out => exact Reads.device out
  | gen path i next ih =>
      by_cases hnil : r.disks = []
      · have hnot := hasks hnil
        unfold Asks at hnot
        rw [not_or] at hnot
        refine Triple.eval (bsgen_unstored h hnil hnot.1) ?_
        exact ih _ (hproper _) fun _ => hnot.2
      · refine (bsgen_reads h fun hn => absurd hn hnil).bind fun a => ?_
        exact ih a (hproper a) fun hn => absurd hn hnil
  | dotdot path next ih =>
      refine Triple.eval (bsgenup_eq hproper.1) ?_
      exact ih _ (hproper.2 _) hasks

theorem run_lost (h : Inv r) (hnil : r.disks = []) {q : Query α} (hproper : q.Proper)
    (hasks : Asks eve q) : Lost (q.run eve) r := by
  induction q with
  | done out => exact absurd hasks id
  | gen path i next ih =>
      by_cases hl : looks path i
      · exact (bsgen_lost h hnil hl).bind
      · refine Lost.eval (bsgen_unstored h hnil hl) ?_
        exact ih _ (hproper _) (hasks.resolve_left hl)
  | dotdot path next ih =>
      exact Lost.eval (bsgenup_eq hproper.1) (ih _ (hproper.2 _) hasks)

/-- What a routine of the kernel needs: that a store of the path, or number 0, is not
looked up in an empty registry. -/
def Lists (r : Registry) (path : Path) (q : Routine α) : Prop :=
  r.disks = [] → if path.typ.ofdisk then path.disk ≠ 0 else ¬ Asks q.eve q.query

theorem Lists.found {q : Routine α} (hl : Lists r path q) (hdisk : path.typ.ofdisk = true) :
    Found r path.disk := by
  intro hnil h0
  have hne := hl hnil
  rw [if_pos hdisk] at hne
  exact hne (Int.natCast_eq_zero.1 h0)

theorem stored_ne_nil {k : Nat} {d : Store} (hd : r.disks[k]? = some (some d)) :
    r.disks ≠ [] := by
  rintro hnil
  rw [hnil] at hd
  exact nomatch hd

theorem listed_reads (h : Inv r) {q : Routine α} (hl : Lists r path q) :
    Reads (listed path q) r := by
  unfold listed
  refine Triple.ite (fun hdisk => ?_) fun hdisk => ?_
  · refine (diskgetlock_spec h (hl.found hdisk)).bind fun k => Triple.fact fun hk => ?_
    obtain ⟨-, d, hd⟩ := hk
    exact run_reads h q.proper fun hnil => absurd hnil (stored_ne_nil hd)
  · refine run_reads h q.proper fun hnil => ?_
    have hnot := hl hnil
    rwa [if_neg hdisk] at hnot

theorem listed_lost (h : Inv r) {q : Routine α} (hl : ¬ Lists r path q) :
    Lost (listed path q) r := by
  unfold Lists at hl
  rw [Classical.not_imp] at hl
  obtain ⟨hnil, hnot⟩ := hl
  unfold listed
  by_cases hdisk : path.typ.ofdisk = true
  · rw [if_pos hdisk, not_not] at hnot
    rw [if_pos hdisk]
    refine (diskgetlock_lost h fun hf => ?_).bind
    exact hf hnil (Int.natCast_eq_zero.2 hnot)
  · rw [if_neg hdisk, not_not] at hnot
    rw [if_neg hdisk]
    exact run_lost h hnil q.proper hnot

end

end

end Kirkwood.Ports.DevBsAccess
