import Kirkwood.Verified.Trans
import Kirkwood.Verified.Ring

/-!
# The tags of the SATA disk

`devsata.c` hands out command tags from the circular array `tags`: `io` takes
the tag at `tagnext`, and gives a tag back at the slot `tagsinuse` places before
`tagnext`.  The free tags are therefore the `ntags - tagsinuse` slots from
`tagnext` on, which no variable says.  `identify` changes `ntags` while nothing
is outstanding.

## Main results

* `take_kept`, `give_kept`: `io` keeps the free and the outstanding tags a
  permutation of `0 .. ntags-1`;
* `identifytags_kept_iff`: `identify` does so exactly when it does not shrink
  the ring to `tagnext` or below;
* `run_kept_iff`: the runs that keep the tags are those in which no `identify`
  does.

`identify` fills `tags` from slot 0 and leaves `tagnext` where it was; `satainit`
sets it to 0.
-/

namespace Kirkwood.Ports.SataTags

open Kirkwood.Verified.Trans
open Kirkwood.Verified.Ring

/-! ## The code -/

/-- `tags`, `tagnext`, `tagsinuse` and `ntags`. -/
structure TagPool where
  tags : Nat → Nat
  tagnext : Nat
  tagsinuse : Int
  ntags : Nat

namespace TagPool

/-- `tagfree`, what `io` sleeps for. -/
def tagfree (p : TagPool) : Prop := p.tagsinuse < p.ntags

/-- `tagsidle`, what `sataclaim` sleeps for. -/
def tagsidle (p : TagPool) : Prop := p.tagsinuse = 0

instance (p : TagPool) : Decidable p.tagfree :=
  inferInstanceAs (Decidable (p.tagsinuse < p.ntags))

instance (p : TagPool) : Decidable p.tagsidle :=
  inferInstanceAs (Decidable (p.tagsinuse = 0))

/-- `tag = tags[tagnext];` -/
def tag (p : TagPool) : Nat := p.tags p.tagnext

/-- `tagnext = (tagnext+1)%ntags;` -/
def advance (p : TagPool) : TagPool :=
  { p with tagnext := (p.tagnext + 1) % p.ntags }

/-- `tagsinuse++;` -/
def enter (p : TagPool) : TagPool := { p with tagsinuse := p.tagsinuse + 1 }

/-- `(tagnext-tagsinuse+ntags) % ntags` -/
def backslot (p : TagPool) : Nat :=
  (((p.tagnext : Int) - p.tagsinuse + p.ntags).tmod p.ntags).toNat

/-- `tags[(tagnext-tagsinuse+ntags) % ntags] = tag;` -/
def putback (p : TagPool) (tag : Nat) : TagPool :=
  { p with tags := Function.update p.tags p.backslot tag }

/-- `tagsinuse--;` -/
def leave (p : TagPool) : TagPool := { p with tagsinuse := p.tagsinuse - 1 }

/-- The statements of `io` that take a tag. -/
def take (p : TagPool) : TagPool := p.advance.enter

/-- The statements of `io` that return a tag. -/
def give (p : TagPool) (tag : Nat) : TagPool := (p.putback tag).leave

/-- The statements of `satainit` on the tags. -/
def satainit (p : TagPool) : TagPool :=
  { tags := Function.update p.tags 0 0, tagnext := 0, tagsinuse := 0, ntags := 1 }

/-- `1 + (w&MASK(5))`, from word 75 of the answer to "identify device". -/
def ntagsof (w : Nat) : Nat := 1 + w % 2 ^ 5

/-- The statements of `identify` on the tags. -/
def identify (p : TagPool) (w : Nat) : TagPool :=
  { p with
    ntags := ntagsof w
    tags := fun i => if i < ntagsof w then i else p.tags i }

/-- The tags in the slots that the indices imply to be free. -/
def free (p : TagPool) : List Nat :=
  window p.tags p.ntags p.tagnext (p.ntags - p.tagsinuse.toNat)

theorem ntagsof_pos (w : Nat) : 0 < ntagsof w := by
  unfold ntagsof
  omega

theorem ntagsof_le (w : Nat) : ntagsof w ≤ 32 := by
  unfold ntagsof
  omega

end TagPool

/-! ## What is kept -/

/-- The free tags and the tags `out` of the outstanding requests are exactly
`0 .. ntags-1`. -/
structure TagsKept (p : TagPool) (out : List Nat) : Prop where
  tagnext_lt : p.tagnext < p.ntags
  ntags_le : p.ntags ≤ 32
  inuse_nonneg : 0 ≤ p.tagsinuse
  inuse_le : p.tagsinuse ≤ p.ntags
  inuse_eq : p.tagsinuse = out.length
  distinct : out.Nodup
  below : ∀ t ∈ out, t < p.ntags
  perm : (p.free ++ out).Perm (List.range p.ntags)

/-- The parts of `TagsKept` that the others follow from. -/
theorem TagsKept.of_perm {p : TagPool} {out : List Nat}
    (hnext : p.tagnext < p.ntags) (hle : p.ntags ≤ 32)
    (hinuse : p.tagsinuse = out.length) (hout : out.length ≤ p.ntags)
    (hperm : (p.free ++ out).Perm (List.range p.ntags)) : TagsKept p out := by
  have hnodup : (p.free ++ out).Nodup := hperm.nodup_iff.2 List.nodup_range
  exact {
    tagnext_lt := hnext
    ntags_le := hle
    inuse_nonneg := by omega
    inuse_le := by omega
    inuse_eq := hinuse
    distinct := (List.nodup_append.1 hnodup).2.1
    below := by
      intro t ht
      exact List.mem_range.1 (hperm.mem_iff.1 (List.mem_append_right _ ht))
    perm := hperm }

theorem TagsKept.free_eq {p : TagPool} {out : List Nat} (h : TagsKept p out) :
    p.free = window p.tags p.ntags p.tagnext (p.ntags - out.length) := by
  have hinuse := h.inuse_eq
  unfold TagPool.free
  rw [hinuse, Int.toNat_natCast]

/-- Where a tag is free, the one at `tagnext` is the first of them, and taking
it leaves the others. -/
theorem TagsKept.free_cons {p : TagPool} {out : List Nat} (h : TagsKept p out)
    (hfree : p.tagfree) : p.free = p.tag :: p.take.free := by
  have hinuse := h.inuse_eq
  have hlt : p.tagsinuse < p.ntags := hfree
  have hlen : p.ntags - out.length =
      (p.ntags - (p.tagsinuse + 1).toNat) + 1 := by omega
  rw [h.free_eq, hlen, window_succ _ _ h.tagnext_lt]
  rfl

/-- `io` takes a tag. -/
theorem take_kept {p : TagPool} {out : List Nat} (h : TagsKept p out)
    (hfree : p.tagfree) : TagsKept p.take (out ++ [p.tag]) := by
  have hinuse := h.inuse_eq
  have hlt : p.tagsinuse < p.ntags := hfree
  have hnext := h.tagnext_lt
  apply TagsKept.of_perm
  · exact Nat.mod_lt _ (by omega)
  · exact h.ntags_le
  · show p.tagsinuse + 1 = ((out ++ [p.tag]).length : Int)
    rw [List.length_append, List.length_singleton]
    omega
  · show (out ++ [p.tag]).length ≤ p.ntags
    rw [List.length_append, List.length_singleton]
    omega
  · show (p.take.free ++ (out ++ [p.tag])).Perm (List.range p.ntags)
    have hperm := h.perm
    rw [h.free_cons hfree] at hperm
    apply List.Perm.trans _ hperm
    rw [← List.append_assoc]
    exact List.perm_append_singleton _ _

/-- The slot that a tag goes back to is the one behind the free ones. -/
theorem backslot_eq {p : TagPool} {out : List Nat} (h : TagsKept p out)
    (hout : out ≠ []) :
    p.backslot = slot p.ntags p.tagnext (p.ntags - out.length) := by
  have hinuse := h.inuse_eq
  have hle := h.inuse_le
  have hpos : 0 < out.length := List.length_pos_of_ne_nil hout
  have hcast : (p.tagnext : Int) - p.tagsinuse + p.ntags =
      ((p.tagnext + (p.ntags - out.length) : Nat) : Int) := by omega
  unfold TagPool.backslot
  rw [hcast, Int.tmod_eq_emod_of_nonneg (Int.natCast_nonneg _)]
  rfl

/-- `io` returns the tag of any outstanding request. -/
theorem give_kept {p : TagPool} {o₁ o₂ : List Nat} {tag : Nat}
    (h : TagsKept p (o₁ ++ tag :: o₂)) : TagsKept (p.give tag) (o₁ ++ o₂) := by
  have hinuse := h.inuse_eq
  have hle := h.inuse_le
  have hlength : (o₁ ++ tag :: o₂).length = (o₁ ++ o₂).length + 1 := by
    simp only [List.length_append, List.length_cons]
    omega
  have hslot := backslot_eq h (by simp)
  have hfreeold := h.free_eq
  have hnew : (p.give tag).free = p.free ++ [tag] := by
    show window (Function.update p.tags p.backslot tag) p.ntags p.tagnext
      (p.ntags - (p.tagsinuse - 1).toNat) = _
    rw [hslot, hfreeold,
      show p.ntags - (p.tagsinuse - 1).toNat =
        p.ntags - (o₁ ++ tag :: o₂).length + 1 by omega]
    exact window_push tag (by omega)
  apply TagsKept.of_perm
  · exact h.tagnext_lt
  · exact h.ntags_le
  · show p.tagsinuse - 1 = ((o₁ ++ o₂).length : Int)
    omega
  · show (o₁ ++ o₂).length ≤ p.ntags
    omega
  · show ((p.give tag).free ++ (o₁ ++ o₂)).Perm (List.range p.ntags)
    rw [hnew]
    apply List.Perm.trans _ h.perm
    rw [List.append_assoc]
    apply List.Perm.append_left
    show (tag :: (o₁ ++ o₂)).Perm (o₁ ++ tag :: o₂)
    exact List.perm_middle.symm

/-- `identify` keeps the tags exactly when `tagnext` is a slot of the ring it
makes. -/
theorem identifytags_kept_iff {p : TagPool} (w : Nat) (hidle : p.tagsidle) :
    TagsKept (p.identify w) [] ↔ p.tagnext < TagPool.ntagsof w := by
  constructor
  · intro h
    exact h.tagnext_lt
  · intro hnext
    have hinuse : p.tagsinuse = 0 := hidle
    have hfree : (p.identify w).free =
        window (fun i => i) (TagPool.ntagsof w) p.tagnext (TagPool.ntagsof w) := by
      show window (fun i => if i < TagPool.ntagsof w then i else p.tags i)
        (TagPool.ntagsof w) p.tagnext
        (TagPool.ntagsof w - p.tagsinuse.toNat) = _
      rw [hinuse]
      apply window_congr
      intro j _
      exact if_pos (slot_lt _ _ (TagPool.ntagsof_pos w))
    apply TagsKept.of_perm
    · exact hnext
    · exact TagPool.ntagsof_le w
    · exact hinuse
    · exact Nat.zero_le _
    · rw [List.append_nil, hfree]
      exact window_id_perm hnext

theorem satainit_kept (p : TagPool) : TagsKept p.satainit [] := by
  apply TagsKept.of_perm
  · exact Nat.zero_lt_one
  · exact Nat.succ_le_of_lt (by decide)
  · rfl
  · exact Nat.zero_le _
  · show (window (Function.update p.tags 0 0) 1 0 1 ++ []).Perm (List.range 1)
    rfl

/-! ## Runs -/

/-- The tags, and those of the requests that are outstanding, in the order of
their calls. -/
structure State where
  pool : TagPool
  out : List Nat

/-- An `io` call takes a tag, the `k`th outstanding one ends well, or the disk
is identified. -/
inductive Action where
  | start
  | complete (k : Nat)
  | identify (w : Nat)

def step (s : State) : Action → Option State
  | .start =>
      if s.pool.tagfree then
        some { pool := s.pool.take, out := s.out ++ [s.pool.tag] }
      else none
  | .complete k =>
      match s.out[k]? with
      | none => none
      | some tag => some { pool := s.pool.give tag, out := s.out.eraseIdx k }
  | .identify w =>
      if s.pool.tagsidle then some { s with pool := s.pool.identify w } else none

/-- After `satainit`. -/
def init (p : TagPool) : State := { pool := p.satainit, out := [] }

/-- The tags are kept in a state of a run. -/
def Kept (s : State) : Prop := TagsKept s.pool s.out

/-- An `identify` finds `tagnext` within the ring it makes. -/
def KeepsNext (s : State) : Action → Prop
  | .identify w => s.pool.tagnext < TagPool.ntagsof w
  | _ => True

instance (s : State) : (a : Action) → Decidable (KeepsNext s a)
  | .start => isTrue trivial
  | .complete _ => isTrue trivial
  | .identify w => inferInstanceAs (Decidable (s.pool.tagnext < TagPool.ntagsof w))

theorem step_kept_iff (s : State) (a : Action) (s' : State) (h : Kept s)
    (hs : step s a = some s') : Kept s' ↔ KeepsNext s a := by
  cases a with
  | start =>
      simp only [step] at hs
      split at hs
      · rename_i hfree
        cases hs
        exact ⟨fun _ => trivial, fun _ => take_kept h hfree⟩
      · cases hs
  | complete k =>
      simp only [step] at hs
      split at hs
      · cases hs
      · rename_i tag hk
        cases hs
        have hlt : k < s.out.length := (List.getElem?_eq_some_iff.1 hk).1
        have hget : s.out[k] = tag := (List.getElem?_eq_some_iff.1 hk).2
        have hsplit : s.out = s.out.take k ++ tag :: s.out.drop (k + 1) := by
          rw [← hget, List.getElem_cons_drop, List.take_append_drop]
        have hkept : TagsKept s.pool (s.out.take k ++ tag :: s.out.drop (k + 1)) := by
          rw [← hsplit]
          exact h
        have hgive := give_kept hkept
        rw [← List.eraseIdx_eq_take_drop_succ] at hgive
        exact ⟨fun _ => trivial, fun _ => hgive⟩
  | identify w =>
      simp only [step] at hs
      split at hs
      · rename_i hidle
        cases hs
        have hinuse : s.pool.tagsinuse = s.out.length := h.inuse_eq
        have hzero : s.pool.tagsinuse = 0 := hidle
        have hout : s.out = [] := List.eq_nil_of_length_eq_zero (by omega)
        show TagsKept (s.pool.identify w) s.out ↔ _
        rw [hout]
        exact identifytags_kept_iff w hidle
      · cases hs

theorem init_kept (p : TagPool) : Kept (init p) := satainit_kept p

/-- In every run after `satainit`, the tags are kept in every state exactly when
every `identify` found `tagnext` within the ring it made. -/
theorem run_kept_iff (p : TagPool) (as : List Action) :
    AllStates step Kept (init p) as ↔ AllSteps step KeepsNext (init p) as :=
  allStates_iff_allSteps_self step_kept_iff as (init_kept p)

/-- A disk with two tags takes the place of one with four, of which three have
been taken. -/
theorem shrunk_not_kept : ¬ ∀ (p : TagPool) (as : List Action),
    AllStates step Kept (init p) as := by
  intro hall
  have hrun := hall ⟨fun _ => 0, 0, 0, 0⟩ [.identify 3, .start, .complete 0, .start,
    .complete 0, .start, .complete 0, .identify 1]
  have hguard := (allStates_iff_allSteps_self step_kept_iff _ (init_kept _)).1 hrun
  have hnot : ¬ AllSteps step KeepsNext (init ⟨fun _ => 0, 0, 0, 0⟩)
      [.identify 3, .start, .complete 0, .start, .complete 0, .start,
        .complete 0, .identify 1] := by
    decide +kernel
  exact hnot hguard

end Kirkwood.Ports.SataTags
