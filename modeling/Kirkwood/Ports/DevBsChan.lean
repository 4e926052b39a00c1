import Kirkwood.Ports.DevBsInit

/-!
# The operations on channels

For each operation, what it needs of the registry, that it returns or raises with that,
and that it does not without.
-/

namespace Kirkwood.Ports.DevBsChan

open Kirkwood.Verified.Outcome
open Kirkwood.Verified.Hoare
open Kirkwood.Ports.BlockStore
open Kirkwood.Ports.DiskRegistry (Registry)
open Kirkwood.Ports.DevBs
open Kirkwood.Ports.DevBsAccess
open Kirkwood.Ports.DevBsInit

/-! ## Operations on channels -/

/-- The mode that `datacheck` lets pass. -/
def Permitted (who : User) (d : Store) (iswrite : Bool) : Prop :=
  who.eve = true ∨ d.ready ≠ 0 ∧ 0 < d.nparts ∧
    ∃ p, d.parts[0]? = some p ∧ who.permit p.uid p.perm iswrite = true

/-- At most fields that say nothing of entries are different. -/
def Slight (r r' : Registry) : Prop :=
  r' = r ∨ ∃ k d d', r.disks[k]? = some (some d) ∧ r' = put r k d' ∧
    d'.nparts = d.nparts ∧ d'.nparts ≤ d'.parts.length

/-- The entries that opens have found. -/
def OpensOk (r : Registry) (opens : List Opening) : Prop :=
  ∀ o ∈ opens, ∃ d, r.disks[o.disk]? = some (some d) ∧ o.part < d.nparts

/-- A partition that is closed, by a channel of this version, is open once. -/
def CloseOk (r : Registry) (c : Chan) : Prop :=
  c.path.typ = .Qdiskpart ∧ c.copen = true ∧ c.path.part ≠ 0 →
    Found r c.path.disk ∧
      ∀ d, r.disks[c.path.disk]? = some (some d) → c.vers = d.vers → d.ready ≠ 0 →
        c.path.part < d.nparts → ∀ p, d.parts[c.path.part]? = some p → p.isopen = 1

/-- What `bswstat` needs when it gets as far as its lookup. -/
def WstatOk (r : Registry) (c : Chan) (dir : Wstat) : Prop :=
  c.path.typ = .Qdiskpart → dir.short = false → dir.other = false → Found r c.path.disk

/-- What `bsread` looks up. -/
def ReadOk (r : Registry) (c : Chan) (a : Reading) : Prop :=
  match c.path.typ with
  | .Qdir | .Qdiskdir => Lists r c.path a.devdirread
  | .Qbsctl => r.disks ≠ []
  | .Qdiskctl | .Qdiskdevctl | .Qdiskpart => Found r c.path.disk
  | .Qbsevent | .Qdiskevent | .Qdiskraw => True

section
variable {r : Registry} {k : Nat} {d : Store}

theorem Slight.inv {r' : Registry} (h : Inv r) (hs : Slight r r') : Inv r' := by
  rcases hs with rfl | ⟨k, d, d', -, rfl, -, hd'⟩
  · exact h
  · exact h.put hd'

theorem Slight.opens {r' : Registry} {opens : List Opening} (hs : Slight r r')
    (ho : OpensOk r opens) : OpensOk r' opens := by
  rcases hs with rfl | ⟨k, d, d', hd, rfl, hn, -⟩
  · exact ho
  · intro o hmem
    obtain ⟨e, he, hpart⟩ := ho o hmem
    by_cases hk : o.disk = k
    · rw [hk, hd] at he
      obtain rfl := Option.some.inj (Option.some.inj he)
      exact ⟨d', by rw [hk, put_get (lt_of_store hd)], by rw [hn]; exact hpart⟩
    · exact ⟨e, by rw [put_ne hk, he], hpart⟩

/-- A write to one entry. -/
theorem setpart_slight (hd : r.disks[k]? = some (some d))
    (hcount : d.nparts ≤ d.parts.length) (i : Nat) (f : Part → Part) :
    Slight r (put r k { d with parts := d.parts.modify i f }) := by
  refine .inr ⟨k, d, _, hd, rfl, rfl, ?_⟩
  rw [List.length_modify]
  exact hcount

theorem datacheck_spec (h : Inv r) (hd : r.disks[k]? = some (some d)) (who : User)
    (iswrite : Bool) :
    Triple (· = r) (datacheck who k iswrite)
      (fun _ r' => r' = r ∧ Permitted who d iswrite) (Kept r) := by
  unfold datacheck
  refine Triple.ite (fun heve => ?_) fun _ => ?_
  · exact Triple.of_ok rfl ⟨rfl, .inl heve⟩
  · refine (xpartget_spec hd 0).bind fun i => Triple.fact fun hi => ?_
    obtain ⟨rfl, hready, hone⟩ := hi
    obtain ⟨p, hp⟩ := h.entry hd hone
    refine Triple.eval (getpart_eq hd hp) ?_
    refine Triple.ite (fun hpermit => ?_) fun _ => raise_spec _
    exact Triple.of_ok rfl ⟨rfl, .inr ⟨hready, hone, p, hp, hpermit⟩⟩

theorem datacheck_eq (hd : r.disks[k]? = some (some d)) {who : User} {iswrite : Bool}
    (hp : Permitted who d iswrite) : datacheck who k iswrite r = .ok () r := by
  unfold datacheck
  rcases hp with heve | ⟨hready, hone, p, hp, hpermit⟩
  · rw [if_pos heve]
    rfl
  · by_cases heve : who.eve = true
    · rw [if_pos heve]
      rfl
    · rw [if_neg heve, bind_ok (xpartget_eq hd hready hone), bind_ok (getpart_eq hd hp)]
      exact congrFun (if_pos hpermit) r

theorem io_reads (h : Inv r) (hd : r.disks[k]? = some (some d)) {i : Nat}
    (hi : i < d.nparts) (dio : Bool → Int → Int → Except String Int) (iswrite : Bool)
    (n off : Int) : Reads (io dio k i iswrite n off) r := by
  obtain ⟨p, hp⟩ := h.entry hd hi
  unfold io
  refine Triple.eval (store_eq hd) ?_
  refine Triple.ite (fun _ => raise_spec _) fun _ => ?_
  refine Triple.ite (fun _ => raise_spec _) fun _ => ?_
  refine Triple.ite (fun _ => raise_spec _) fun _ => ?_
  refine Triple.eval (getpart_eq hd hp) ?_
  exact (Reads.device _).bind fun _ => Reads.pure _

theorem bsopen_spec (h : Inv r) {c : Chan} {q : Routine Unit} (hl : Lists r c.path q) :
    Triple (· = r) (bsopen c q)
      (fun out r' => r' = r ∧ ∀ o, out = .counting o → OpensOk r [o]) (Kept r) := by
  have hfound : c.path.typ.ofdisk = true → Triple (· = r) (diskgetlock c.path.disk)
      (fun k r' => r' = r ∧ k = c.path.disk ∧ ∃ d, r.disks[c.path.disk]? = some (some d))
      (Kept r) := fun hdisk => diskgetlock_spec h (hl.found hdisk)
  have hrun : ∀ d, r.disks[c.path.disk]? = some (some d) →
      Reads (q.query.run q.eve) r := fun d hd =>
    run_reads h q.proper fun hnil => absurd hnil (stored_ne_nil hd)
  have hchan : ∀ c', Triple (· = r) (Pure.pure (.chan c') : BsM Opened)
      (fun out r' => r' = r ∧ ∀ o, out = .counting o → OpensOk r [o]) (Kept r) :=
    fun c' => Triple.of_ok rfl ⟨rfl, nofun⟩
  unfold bsopen
  cases htyp : c.path.typ with
  | Qdir | Qbsctl | Qbsevent => exact Triple.bind (listed_reads h hl) fun _ => hchan _
  | Qdiskpart =>
      refine (hfound (by rw [htyp]; rfl)).bind fun k => Triple.fact fun hk => ?_
      obtain ⟨rfl, d, hd⟩ := hk
      refine (xpartget_spec hd c.path.part).bind fun i => Triple.fact fun hi => ?_
      obtain ⟨rfl, -, hlive⟩ := hi
      obtain ⟨p, hp⟩ := h.entry hd hlive
      have hcount : ∀ nilp, Triple (· = r)
          (Pure.pure (.counting ⟨c.path.disk, c.path.part, nilp⟩) : BsM Opened)
          (fun out r' => r' = r ∧ ∀ o, out = .counting o → OpensOk r [o]) (Kept r) := by
        intro nilp
        refine Triple.of_ok rfl ⟨rfl, fun o ho o' hmem => ?_⟩
        obtain rfl := Opened.counting.inj ho
        rw [List.mem_singleton.1 hmem]
        exact ⟨d, hd, hlive⟩
      refine Triple.eval (getpart_eq hd hp) ?_
      refine Triple.ite (fun _ => Triple.bind (hrun d hd) fun _ => hcount true) fun _ => ?_
      refine Triple.ite (fun _ => raise_spec _) fun _ => ?_
      exact Triple.bind (hrun d hd) fun _ => hcount false
  | Qdiskdir | Qdiskctl | Qdiskdevctl | Qdiskevent | Qdiskraw =>
      refine (hfound (by rw [htyp]; rfl)).bind fun k => Triple.fact fun hk => ?_
      obtain ⟨rfl, d, hd⟩ := hk
      refine Triple.bind (hrun d hd) fun _ => ?_
      exact Triple.eval (store_eq hd) (hchan _)

theorem bsopen_lost (h : Inv r) {c : Chan} {q : Routine Unit} (hl : ¬ Lists r c.path q) :
    Lost (bsopen c q) r := by
  have hlisted := listed_lost h hl
  have hget : c.path.typ.ofdisk = true → Lost (diskgetlock c.path.disk) r := by
    intro hdisk
    refine diskgetlock_lost h fun hf => hl fun hnil => ?_
    rw [if_pos hdisk]
    exact fun h0 => hf hnil (Int.natCast_eq_zero.2 h0)
  unfold bsopen
  cases htyp : c.path.typ with
  | Qdir | Qbsctl | Qbsevent => exact hlisted.bind
  | _ => exact (hget (by rw [htyp]; rfl)).bind

theorem bsopencount_spec (h : Inv r) {o : Opening} (ho : OpensOk r [o])
    (hnil : o.nilp = false) :
    Triple (· = r) (bsopencount o) (fun _ => Slight r) (fun _ _ => False) := by
  obtain ⟨d, hd, hlive⟩ := ho o (List.mem_singleton_self o)
  obtain ⟨p, hp⟩ := h.entry hd hlive
  unfold bsopencount
  rw [hnil]
  refine Triple.eval (setpart_eq hd hp _) ?_
  refine Triple.eval (store_eq (put_get (lt_of_store hd) _)) ?_
  exact Triple.of_ok rfl (setpart_slight hd (h.tables _ d hd) _ _)

theorem bsopencount_lost {o : Opening} (hnil : o.nilp = true) : Lost (bsopencount o) r := by
  unfold bsopencount
  rw [hnil]
  exact (fault_lost rfl).bind

theorem bswstat_spec (h : Inv r) {c : Chan} (who : User) {dir : Wstat}
    (hok : WstatOk r c dir) :
    Triple (· = r) (bswstat c who dir) (fun _ => Slight r) (Kept r) := by
  unfold bswstat
  refine Triple.ite (fun _ => raise_spec _) fun htyp => ?_
  refine Triple.ite (fun _ => raise_spec _) fun hshort => ?_
  refine Triple.ite (fun _ => raise_spec _) fun hother => ?_
  have hf := hok (not_not.1 htyp) (Bool.not_eq_true _ ▸ hshort)
    (Bool.not_eq_true _ ▸ hother)
  refine (diskgetlock_spec h hf).bind fun k => Triple.fact fun hk => ?_
  obtain ⟨rfl, d, hd⟩ := hk
  refine (xpartget_spec hd 0).bind fun i => Triple.fact fun hi => ?_
  obtain ⟨rfl, -, hone⟩ := hi
  obtain ⟨p, hp⟩ := h.entry hd hone
  have hset : ∀ f, Triple (· = r) (setpart c.path.disk 0 f) (fun _ => Slight r) (Kept r) :=
    fun f => Triple.of_ok (setpart_eq hd hp f) (setpart_slight hd (h.tables _ d hd) 0 f)
  have hcheck : Reads (partcheck who c.path.disk 0) r := by
    refine Triple.ite (fun _ => Reads.pure _) fun _ => ?_
    refine Triple.eval (getpart_eq hd hp) ?_
    exact Triple.ite (fun _ => Reads.pure _) fun _ => raise_spec _
  exact Triple.bind hcheck fun _ => hset _

theorem bswstat_lost (h : Inv r) {c : Chan} (who : User) {dir : Wstat}
    (hok : ¬ WstatOk r c dir) : Lost (bswstat c who dir) r := by
  unfold WstatOk at hok
  simp only [Classical.not_imp] at hok
  obtain ⟨htyp, hshort, hother, hf⟩ := hok
  unfold bswstat
  rw [if_neg (not_not.2 htyp), hshort, hother]
  exact (diskgetlock_lost h hf).bind

theorem closepart_spec (h : Inv r) {c : Chan} (hf : Found r c.path.disk)
    (hopen : ∀ d, r.disks[c.path.disk]? = some (some d) → c.vers = d.vers → d.ready ≠ 0 →
      c.path.part < d.nparts → ∀ p, d.parts[c.path.part]? = some p → p.isopen = 1) :
    Triple (· = r) (closepart c) (fun _ => Slight r) (Kept r) := by
  unfold closepart
  refine (diskgetlock_spec h hf).bind fun k => Triple.fact fun hk => ?_
  obtain ⟨rfl, d, hd⟩ := hk
  refine Triple.eval (store_eq hd) ?_
  refine Triple.ite (fun hvers => ?_) fun _ => Triple.of_ok rfl (.inl rfl)
  refine (xpartget_spec hd c.path.part).bind fun i => Triple.fact fun hi => ?_
  obtain ⟨rfl, hready, hlive⟩ := hi
  obtain ⟨p, hp⟩ := h.entry hd hlive
  refine Triple.eval (getpart_eq hd hp) ?_
  rw [if_neg (not_not.2 (hopen d hd hvers hready hlive p hp))]
  exact Triple.of_ok (setpart_eq hd hp _) (setpart_slight hd (h.tables _ d hd) _ _)

theorem bsclose_spec (h : Inv r) {c : Chan} (hok : CloseOk r c) :
    Triple (· = r) (bsclose c) (fun _ => Slight r) (Kept r) := by
  unfold bsclose
  refine Triple.ite (fun hpart => ?_) fun _ => Triple.of_ok rfl (.inl rfl)
  obtain ⟨hf, hopen⟩ := hok hpart
  exact (closepart_spec h hf hopen).bind fun _ => Triple.pure fun _ hs => hs

theorem bsclose_lost (h : Inv r) {c : Chan} (hok : ¬ CloseOk r c) :
    Lost (bsclose c) r := by
  unfold CloseOk at hok
  rw [Classical.not_imp, not_and] at hok
  obtain ⟨hpart, hbad⟩ := hok
  unfold bsclose
  rw [if_pos hpart]
  refine Lost.bind ?_
  unfold closepart
  by_cases hf : Found r c.path.disk
  · have hopen := hbad hf
    simp only [not_forall] at hopen
    obtain ⟨d, hd, hvers, hready, hlive, p, hp, hone⟩ := hopen
    refine Lost.eval (diskgetlock_eq h hd) (Lost.eval (store_eq hd) ?_)
    rw [if_pos hvers]
    refine Lost.eval (xpartget_eq hd hready hlive) (Lost.eval (getpart_eq hd hp) ?_)
    rw [if_pos hone]
    exact ⟨_, _, rfl, nofun⟩
  · exact (diskgetlock_lost h hf).bind

theorem partlines_reads (h : Inv r) (hd : r.disks[k]? = some (some d)) {is : List Nat}
    (his : ∀ i ∈ is, i < d.nparts) : Reads (partlines k is) r := by
  induction is with
  | nil => exact Reads.pure _
  | cons i is ih =>
      obtain ⟨p, hp⟩ := h.entry hd (his i List.mem_cons_self)
      refine Triple.eval (getpart_eq hd hp) ?_
      refine Triple.bind (ih fun j hj => his j (List.mem_cons_of_mem i hj)) fun _ => ?_
      exact Reads.pure _

theorem disklines_reads (h : Inv r) (hnil : r.disks ≠ []) {is : List Nat}
    (his : ∀ i ∈ is, i ≤ r.maxdisk) : Reads (disklines is) r := by
  induction is with
  | nil => exact Reads.pure _
  | cons i is ih =>
      have hrest := ih fun j hj => his j (List.mem_cons_of_mem i hj)
      obtain ⟨o, ho, hget⟩ := h.getcell (his i List.mem_cons_self) hnil
      have hcell : cell i r = .ok (o.map fun _ => i) r := by
        unfold cell
        rw [hget]
      unfold disklines
      refine Triple.eval hcell ?_
      cases o with
      | none => exact hrest
      | some d =>
          refine Triple.eval (store_eq ho) (Triple.bind hrest fun _ => ?_)
          exact Triple.ite (fun _ => Reads.pure _) fun _ => Reads.pure _

theorem bsdevread_reads (h : Inv r) {c : Chan} (a : Reading)
    (htyp : c.path.typ = .Qdiskctl ∨ c.path.typ = .Qdiskdevctl ∨ c.path.typ = .Qdiskpart)
    (hf : Found r c.path.disk) : Reads (bsdevread c a) r := by
  unfold bsdevread
  refine (diskgetlock_spec h hf).bind fun k => Triple.fact fun hk => ?_
  obtain ⟨rfl, d, hd⟩ := hk
  refine Triple.eval (store_eq hd) ?_
  refine Triple.ite (fun _ => raise_spec _) fun _ => ?_
  rcases htyp with htyp | htyp | htyp <;> rw [htyp]
  · refine Triple.ite (fun _ => ?_) fun _ => raise_spec _
    refine Triple.ite (fun _ => ?_) fun _ => Reads.pure _
    refine Triple.bind (partlines_reads h hd fun i hi => ?_) fun _ => Reads.pure _
    have hrange := List.mem_range'_1.1 hi
    omega
  · refine (datacheck_spec h hd a.who false).bind fun _ => Triple.fact fun _ => ?_
    exact Reads.device _
  · refine (xpartget_spec hd c.path.part).bind fun i => Triple.fact fun hi => ?_
    obtain ⟨rfl, -, hlive⟩ := hi
    exact io_reads h hd hlive _ _ _ _

theorem bsread_reads (h : Inv r) {c : Chan} {a : Reading} (hok : ReadOk r c a) :
    Reads (bsread c a) r := by
  unfold bsread
  unfold ReadOk at hok
  cases htyp : c.path.typ with
  | Qdir | Qdiskdir =>
      rw [htyp] at hok
      exact listed_reads h hok
  | Qbsctl =>
      rw [htyp] at hok
      refine Triple.eval (show (get : BsM Registry) r = .ok r r from rfl) ?_
      refine Triple.bind (disklines_reads h hok fun i hi => ?_) fun _ => Reads.pure _
      exact Nat.le_of_lt_succ (List.mem_range.1 hi)
  | Qbsevent | Qdiskevent => exact raise_spec _
  | Qdiskctl | Qdiskdevctl | Qdiskpart =>
      rw [htyp] at hok
      exact bsdevread_reads h a (by simp [htyp]) hok
  | Qdiskraw =>
      cases c.aux with
      | none => exact raise_spec _
      | some bn => exact Reads.pure _

theorem bsread_lost (h : Inv r) {c : Chan} {a : Reading} (hok : ¬ ReadOk r c a) :
    Lost (bsread c a) r := by
  unfold bsread
  unfold ReadOk at hok
  cases htyp : c.path.typ with
  | Qdir | Qdiskdir =>
      rw [htyp] at hok
      exact listed_lost h hok
  | Qbsctl =>
      rw [htyp] at hok
      have hnil : r.disks = [] := not_not.1 hok
      have hmax := (h.array.resolve_right (by rw [hnil]; simp)).2
      refine Lost.eval (show (get : BsM Registry) r = .ok r r from rfl) (Lost.bind ?_)
      rw [hmax]
      have hcell : cell 0 r = .error .fault r := by
        unfold cell
        rw [hnil]
        rfl
      exact (fault_lost hcell).bind
  | Qbsevent | Qdiskevent | Qdiskraw =>
      rw [htyp] at hok
      exact absurd trivial hok
  | Qdiskctl | Qdiskdevctl | Qdiskpart =>
      rw [htyp] at hok
      exact (diskgetlock_lost h hok).bind

end

/-! ## Writes -/

/-- What `init` from the control file of the device needs. -/
def BsctlOk (r : Registry) (a : Writing) : Prop :=
  a.who.eve = true → ∀ num, a.bscmd = .ok num → Found r num ∧
    ∀ (k : Nat) d, (k : Int) = num → r.disks[k]? = some (some d) →
      DiskinitOk (a.devs k) d

/-- What a command to the control file of a store needs. -/
def DiskctlOk (r : Registry) (c : Chan) (a : Writing) : Prop :=
  Found r c.path.disk ∧
    ∀ d, r.disks[c.path.disk]? = some (some d) → c.vers = d.vers →
      Permitted a.who d true → ∀ cmd, a.diskcmd = .ok cmd →
        match cmd with
        | .diskinit => DiskinitOk (a.devs c.path.disk) d
        | .partinit => d.ready ≠ 0 → PartinitOk (a.devs c.path.disk) d

/-- What `bswrite` looks up and initialises. -/
def WriteOk (r : Registry) (c : Chan) (a : Writing) : Prop :=
  match c.path.typ with
  | .Qbsctl => BsctlOk r a
  | .Qdiskctl => DiskctlOk r c a
  | .Qdiskdevctl | .Qdiskraw | .Qdiskpart => Found r c.path.disk
  | .Qdir | .Qbsevent | .Qdiskdir | .Qdiskevent => True

section
variable {r : Registry} {c : Chan} {a : Writing}

theorem bsdevwrite_reads (h : Inv r)
    (htyp : c.path.typ = .Qdiskdevctl ∨ c.path.typ = .Qdiskraw ∨ c.path.typ = .Qdiskpart)
    (hf : Found r c.path.disk) : Reads (bsdevwrite c a) r := by
  unfold bsdevwrite
  refine (diskgetlock_spec h hf).bind fun k => Triple.fact fun hk => ?_
  obtain ⟨rfl, d, hd⟩ := hk
  refine Triple.eval (store_eq hd) ?_
  refine Triple.ite (fun _ => raise_spec _) fun _ => ?_
  rcases htyp with htyp | htyp | htyp <;> rw [htyp]
  · refine Triple.ite (fun _ => raise_spec _) fun _ => ?_
    refine (datacheck_spec h hd a.who true).bind fun _ => Triple.fact fun _ => ?_
    exact (Reads.device _).bind fun _ => Reads.pure _
  · refine Triple.ite (fun _ => raise_spec _) fun _ => ?_
    refine (datacheck_spec h hd a.who true).bind fun _ => Triple.fact fun _ => ?_
    cases a.raw with
    | none => exact raise_spec _
    | some out => exact (Reads.device _).bind fun _ => Reads.pure _
  · refine (xpartget_spec hd c.path.part).bind fun i => Triple.fact fun hi => ?_
    obtain ⟨rfl, -, hlive⟩ := hi
    exact Reads.bind (io_reads h hd hlive _ _ _ _) fun _ => Reads.pure _

/-- `bswrite` has changed nothing, or it has the lock of the device for writing. -/
def Wrote (r : Registry) (c : Chan) (a : Writing) (r' : Registry) : Prop :=
  r' = r ∨
    (c.path.typ = .Qbsctl ∧ a.who.eve = true ∨ c.path.typ = .Qdiskctl) ∧ Inv r'

def RaisedWrote (r : Registry) (c : Chan) (a : Writing) (e : Exn) (r' : Registry) : Prop :=
  Raised e ∧ Wrote r c a r'

theorem wrote_of_kept {e : Exn} {r' : Registry} (hk : Kept r e r') :
    RaisedWrote r c a e r' :=
  ⟨hk.1, .inl hk.2⟩

/-- A command that builds a store. -/
private theorem built_wrote {x : BsM Unit} {k : Nat} (h : Inv r)
    (hlock : c.path.typ = .Qbsctl ∧ a.who.eve = true ∨ c.path.typ = .Qdiskctl)
    (hx : Triple (· = r) x (fun _ => Built r k) (RaisedBuilt r k)) :
    Triple (· = r) x (fun _ => Wrote r c a) (RaisedWrote r c a) :=
  (hx.conseq (fun _ hr => hr) fun _ _ hb => .inr ⟨hlock, hb.inv h⟩).weaken fun _ _ hb =>
    ⟨hb.1, .inr ⟨hlock, hb.2.inv h⟩⟩

theorem bsctl_spec (h : Inv r) (htyp : c.path.typ = .Qbsctl) (hok : BsctlOk r a) :
    Triple (· = r) (bswrite c a) (fun _ => Wrote r c a) (RaisedWrote r c a) := by
  unfold bswrite
  rw [htyp]
  refine Triple.ite (fun heve => ?_) fun _ => (raise_spec _).weaken fun _ _ => wrote_of_kept
  refine ((device_spec a.bscmd).weaken fun _ _ => wrote_of_kept).bind fun num => ?_
  refine Triple.fact fun hnum => ?_
  obtain ⟨hf, hinit⟩ := hok heve num hnum
  refine (diskget_spec h hf).bind fun o => Triple.fact fun ho => ?_
  cases o with
  | none => exact (raise_spec _).weaken fun _ _ => wrote_of_kept
  | some k =>
      obtain ⟨hk, d, hd⟩ := ho k rfl
      refine (built_wrote h (.inl ⟨htyp, heve⟩)
        (diskinit_spec hd (hinit k d hk hd))).bind fun _ => ?_
      exact Triple.pure fun _ hw => hw

theorem bsctl_lost (h : Inv r) (htyp : c.path.typ = .Qbsctl) (hok : ¬ BsctlOk r a) :
    Lost (bswrite c a) r := by
  unfold BsctlOk at hok
  simp only [Classical.not_imp, not_forall, not_and] at hok
  obtain ⟨heve, num, hnum, hbad⟩ := hok
  unfold bswrite
  rw [htyp]
  show Lost (if a.who.eve = true then _ else _) r
  rw [if_pos heve, hnum]
  refine Lost.eval (show device (.ok num) r = .ok num r from rfl) ?_
  by_cases hf : Found r num
  · obtain ⟨k, d, rfl, hd, hinit⟩ := hbad hf
    exact Lost.eval (diskget_eq h hd) (diskinit_lost hd hinit).bind
  · exact (fault_lost (diskget_lost h hf)).bind

theorem diskctl_spec (h : Inv r) (htyp : c.path.typ = .Qdiskctl) (hok : DiskctlOk r c a) :
    Triple (· = r) (bswrite c a) (fun _ => Wrote r c a) (RaisedWrote r c a) := by
  obtain ⟨hf, hcmd⟩ := hok
  have hend : ∀ x : BsM Unit, Triple (· = r) x (fun _ => Built r c.path.disk)
      (RaisedBuilt r c.path.disk) → Triple (· = r) (x >>= fun _ => pure (a.n, c.aux))
      (fun _ => Wrote r c a) (RaisedWrote r c a) := fun x hx =>
    (built_wrote h (.inr htyp) hx).bind fun _ => Triple.pure fun _ hw => hw
  unfold bswrite
  rw [htyp]
  refine ((diskgetlock_spec h hf).weaken fun _ _ => wrote_of_kept).bind fun k => ?_
  refine Triple.fact fun hk => ?_
  obtain ⟨rfl, d, hd⟩ := hk
  refine Triple.eval (store_eq hd) ?_
  refine Triple.ite (fun _ => (raise_spec _).weaken fun _ _ => wrote_of_kept)
    fun hvers => ?_
  refine ((datacheck_spec h hd a.who true).weaken fun _ _ => wrote_of_kept).bind fun _ => ?_
  refine Triple.fact fun hperm => ?_
  refine ((device_spec a.diskcmd).weaken fun _ _ => wrote_of_kept).bind fun cmd => ?_
  refine Triple.fact fun hout => ?_
  have hneeds := hcmd d hd (not_not.1 hvers) hperm cmd hout
  cases cmd with
  | diskinit => exact hend _ (diskinit_spec hd hneeds)
  | partinit => exact hend _ (ctlPartinit_spec h hd hneeds)

theorem diskctl_bad (h : Inv r) (htyp : c.path.typ = .Qdiskctl) (hok : ¬ DiskctlOk r c a) :
    Bad (bswrite c a) r := by
  unfold DiskctlOk at hok
  rw [not_and] at hok
  unfold bswrite
  rw [htyp]
  by_cases hf : Found r c.path.disk
  · have hbad := hok hf
    simp only [not_forall] at hbad
    obtain ⟨d, hd, hvers, hperm, cmd, hout, hneeds⟩ := hbad
    refine Bad.eval (diskgetlock_eq h hd) (Bad.eval (store_eq hd) ?_)
    rw [if_neg (not_not.2 hvers), hout]
    refine Bad.eval (datacheck_eq hd hperm) ?_
    refine Bad.eval (show device (.ok cmd) r = .ok cmd r from rfl) ?_
    cases cmd with
    | diskinit => exact Bad.bind (.inl (diskinit_lost hd hneeds))
    | partinit =>
        rw [Classical.not_imp] at hneeds
        exact (ctlPartinit_bad hd hneeds.1 hneeds.2).bind
  · exact .inl (diskgetlock_lost h hf).bind

theorem bswrite_spec (h : Inv r) (hok : WriteOk r c a) :
    Triple (· = r) (bswrite c a) (fun _ => Wrote r c a) (RaisedWrote r c a) := by
  have hreads : Reads (bswrite c a) r → Triple (· = r) (bswrite c a)
      (fun _ => Wrote r c a) (RaisedWrote r c a) := fun hx =>
    (hx.conseq (fun _ hr => hr) fun _ _ hr => .inl hr).weaken fun _ _ => wrote_of_kept
  unfold WriteOk at hok
  cases htyp : c.path.typ with
  | Qbsctl =>
      rw [htyp] at hok
      exact bsctl_spec h htyp hok
  | Qdiskctl =>
      rw [htyp] at hok
      exact diskctl_spec h htyp hok
  | Qdiskdevctl | Qdiskraw | Qdiskpart =>
      rw [htyp] at hok
      refine hreads ?_
      unfold bswrite
      rw [htyp]
      exact bsdevwrite_reads h (by simp [htyp]) hok
  | Qdir | Qbsevent | Qdiskdir | Qdiskevent =>
      refine hreads ?_
      unfold bswrite
      rw [htyp]
      exact raise_spec _

theorem bswrite_bad (h : Inv r) (hok : ¬ WriteOk r c a) : Bad (bswrite c a) r := by
  unfold WriteOk at hok
  cases htyp : c.path.typ with
  | Qbsctl =>
      rw [htyp] at hok
      exact .inl (bsctl_lost h htyp hok)
  | Qdiskctl =>
      rw [htyp] at hok
      exact diskctl_bad h htyp hok
  | Qdiskdevctl | Qdiskraw | Qdiskpart =>
      rw [htyp] at hok
      unfold bswrite
      rw [htyp]
      exact .inl (diskgetlock_lost h hok).bind
  | Qdir | Qbsevent | Qdiskdir | Qdiskevent =>
      rw [htyp] at hok
      exact absurd trivial hok

end

end Kirkwood.Ports.DevBsChan
