import Mathlib.Logic.Function.Basic

/-!
# A write-back cache in front of a memory that a device shares

The processor loads and stores through the cache, whose lines it may write back and
discard, and which may write back and drop a line by itself.  The device reads and
writes the memory.

`written` remembers which lines have been written back since they were last marked.
A value stored when its line was marked is either settled, in the memory and in no
other version in the cache, or pending, dirty in the cache; and `written` tells
which, as long as no line is discarded that was not written back.

## Main results

* `Tracked.load`, `Tracked.store`, `Tracked.clean`, `Tracked.flush`,
  `Tracked.discard`, `Tracked.device`, `Tracked.mark`: each operation keeps a stored
  value tracked;
* `Tracked.dirty`, `Tracked.settled`: what `written` says about it;
* `Tracked.clean_mem`: writing a line back does not change it in the memory.
-/

namespace Kirkwood.Verified.WriteBack

universe u v

/-- The memory, what the cache holds, which lines it has and which are dirty. -/
structure Cache (α : Type u) (V : Type v) where
  mem : α → V
  held : α → V
  present : Nat → Bool
  dirty : Nat → Bool
  written : Nat → Bool
  tidy : ∀ l, dirty l = true → present l = true

variable {α : Type u} {V : Type v} [DecidableEq α]

namespace Cache

/-- The line is in the cache. -/
def fill (line : α → Nat) (c : Cache α V) (l : Nat) : Cache α V :=
  if c.present l = true then c
  else
    { c with
      held := fun a => if line a = l then c.mem a else c.held a
      present := Function.update c.present l true
      tidy := by
        intro k hk
        by_cases hkl : k = l
        · rw [hkl, Function.update_self]
        · rw [Function.update_of_ne hkl]
          exact c.tidy k hk }

def load (line : α → Nat) (c : Cache α V) (a : α) : V × Cache α V :=
  ((c.fill line (line a)).held a, c.fill line (line a))

omit [DecidableEq α] in
theorem fill_present (line : α → Nat) (c : Cache α V) (l : Nat) :
    (c.fill line l).present l = true := by
  unfold fill
  split
  · assumption
  · exact Function.update_self ..

def store (line : α → Nat) (c : Cache α V) (a : α) (v : V) : Cache α V :=
  { c.fill line (line a) with
    held := Function.update (c.fill line (line a)).held a v
    dirty := Function.update (c.fill line (line a)).dirty (line a) true
    tidy := by
      intro k hk
      by_cases hkl : k = line a
      · rw [hkl]
        exact fill_present line c (line a)
      · rw [Function.update_of_ne hkl] at hk
        exact (c.fill line (line a)).tidy k hk }

/-- The line is written back, when it is dirty. -/
def clean (line : α → Nat) (c : Cache α V) (l : Nat) : Cache α V :=
  { c with
    mem := fun a => if line a = l ∧ c.dirty l = true then c.held a else c.mem a
    dirty := Function.update c.dirty l false
    written := Function.update c.written l true
    tidy := by
      intro k hk
      by_cases hkl : k = l
      · rw [hkl, Function.update_self] at hk
        cases hk
      · rw [Function.update_of_ne hkl] at hk
        exact c.tidy k hk }

/-- The line is invalidated: what was stored in it is lost. -/
def discard (c : Cache α V) (l : Nat) : Cache α V :=
  { c with
    present := Function.update c.present l false
    dirty := Function.update c.dirty l false
    tidy := by
      intro k hk
      by_cases hkl : k = l
      · rw [hkl, Function.update_self] at hk
        cases hk
      · rw [Function.update_of_ne hkl] at hk ⊢
        exact c.tidy k hk }

/-- The line is written back and dropped. -/
def flush (line : α → Nat) (c : Cache α V) (l : Nat) : Cache α V :=
  (c.clean line l).discard l

/-- The device writes to the memory. -/
def device (c : Cache α V) (a : α) (v : V) : Cache α V :=
  { c with mem := Function.update c.mem a v }

/-- From now on, the line counts as not written back. -/
def mark (c : Cache α V) (l : Nat) : Cache α V :=
  { c with written := Function.update c.written l false }

end Cache

/-! ## Where a stored value is -/

/-- In the memory, and in no other version in the cache. -/
structure Settled (line : α → Nat) (c : Cache α V) (a : α) (v : V) : Prop where
  mem : c.mem a = v
  held : c.present (line a) = true → c.held a = v

/-- In the cache, in a dirty line. -/
structure Pending (line : α → Nat) (c : Cache α V) (a : α) (v : V) : Prop where
  dirty : c.dirty (line a) = true
  held : c.held a = v

/-- In one of the two places, as `written` has it. -/
structure Tracked (line : α → Nat) (c : Cache α V) (a : α) (v : V) : Prop where
  settled : c.written (line a) = true → Settled line c a v
  pending : c.written (line a) = false → Pending line c a v

section
variable {line : α → Nat} {c : Cache α V} {a b : α} {v w : V} {l : Nat}

omit [DecidableEq α] in
/-- What the cache holds of a tracked value, when it has the line. -/
theorem Tracked.held (h : Tracked line c a v) (hpresent : c.present (line a) = true) :
    c.held a = v := by
  cases hw : c.written (line a) with
  | true => exact (h.settled hw).held hpresent
  | false => exact (h.pending hw).held

omit [DecidableEq α] in
theorem Tracked.dirty (h : Tracked line c a v) (hw : c.written (line a) = false) :
    c.dirty (line a) = true :=
  (h.pending hw).dirty

/-! ## Loads and stores -/

omit [DecidableEq α] in
@[simp] theorem fill_mem : (c.fill line l).mem = c.mem := by
  unfold Cache.fill
  split <;> rfl

omit [DecidableEq α] in
@[simp] theorem fill_dirty : (c.fill line l).dirty = c.dirty := by
  unfold Cache.fill
  split <;> rfl

omit [DecidableEq α] in
@[simp] theorem fill_written : (c.fill line l).written = c.written := by
  unfold Cache.fill
  split <;> rfl

omit [DecidableEq α] in
theorem Tracked.fill (h : Tracked line c a v) : Tracked line (c.fill line l) a v := by
  by_cases hpresent : c.present l = true
  · rw [Cache.fill, if_pos hpresent]
    exact h
  constructor
  · intro hw
    rw [fill_written] at hw
    obtain ⟨hmem, hheld⟩ := h.settled hw
    refine ⟨by rw [fill_mem, hmem], fun hp => ?_⟩
    rw [Cache.fill, if_neg hpresent] at hp ⊢
    by_cases hl : line a = l
    · exact (if_pos hl).trans hmem
    · exact (if_neg hl).trans (hheld ((Function.update_of_ne hl ..).symm.trans hp))
  · intro hw
    rw [fill_written] at hw
    obtain ⟨hdirty, hheld⟩ := h.pending hw
    refine ⟨by rw [fill_dirty, hdirty], ?_⟩
    rw [Cache.fill, if_neg hpresent]
    have hl : line a ≠ l := fun hl => hpresent (hl ▸ c.tidy _ hdirty)
    exact (if_neg hl).trans hheld

omit [DecidableEq α] in
theorem Tracked.load (h : Tracked line c a v) : Tracked line (c.load line b).2 a v :=
  h.fill

/-- A store to another place. -/
theorem Tracked.store (h : Tracked line c a v) (hab : a ≠ b) :
    Tracked line (c.store line b w) a v := by
  have hfill := h.fill (l := line b)
  have hheld : (c.store line b w).held a = (c.fill line (line b)).held a :=
    Function.update_of_ne hab ..
  constructor
  · intro hw
    obtain ⟨hmem, hsame⟩ := hfill.settled hw
    exact ⟨hmem, fun hp => hheld.trans (hsame hp)⟩
  · intro hw
    obtain ⟨hdirty, hsame⟩ := hfill.pending hw
    refine ⟨?_, hheld.trans hsame⟩
    by_cases hl : line a = line b
    · exact hl ▸ Function.update_self ..
    · exact (Function.update_of_ne hl ..).trans hdirty

omit [DecidableEq α] in
/-- Marking a dirty line. -/
theorem Tracked.mark (h : Tracked line c a v) (hdirty : c.dirty l = true) :
    Tracked line (c.mark l) a v := by
  by_cases hl : line a = l
  · constructor
    · intro hw
      rw [show (c.mark l).written (line a) = false from hl ▸ Function.update_self ..] at hw
      cases hw
    · exact fun _ => ⟨hl ▸ hdirty, h.held (hl ▸ c.tidy l hdirty)⟩
  · have hw : (c.mark l).written (line a) = c.written (line a) :=
      Function.update_of_ne hl ..
    constructor
    · intro hwritten
      obtain ⟨hmem, hheld⟩ := h.settled (hw ▸ hwritten)
      exact ⟨hmem, hheld⟩
    · intro hwritten
      obtain ⟨hd, hheld⟩ := h.pending (hw ▸ hwritten)
      exact ⟨hd, hheld⟩

/-- A value is tracked from the store on after which its line is marked. -/
theorem Tracked.start : Tracked line ((c.store line a v).mark (line a)) a v := by
  constructor
  · intro hw
    rw [show ((c.store line a v).mark (line a)).written (line a) = false from
      Function.update_self ..] at hw
    cases hw
  · exact fun _ => ⟨Function.update_self .., Function.update_self ..⟩

/-! ## Lines written back and discarded -/

omit [DecidableEq α] in
theorem Tracked.clean (h : Tracked line c a v) : Tracked line (c.clean line l) a v := by
  by_cases hl : line a = l
  · constructor
    · refine fun _ => ⟨?_, h.held⟩
      by_cases hdirty : c.dirty l = true
      · exact (if_pos ⟨hl, hdirty⟩).trans (h.held (hl ▸ c.tidy l hdirty))
      · refine (if_neg fun hd => hdirty hd.2).trans ?_
        cases hw : c.written (line a) with
        | true => exact (h.settled hw).mem
        | false => exact absurd (h.dirty hw) (hl ▸ hdirty)
    · intro hw
      rw [show (c.clean line l).written (line a) = true from hl ▸ Function.update_self ..]
        at hw
      cases hw
  · have hw : (c.clean line l).written (line a) = c.written (line a) :=
      Function.update_of_ne hl ..
    constructor
    · intro hwritten
      obtain ⟨hmem, hheld⟩ := h.settled (hw ▸ hwritten)
      exact ⟨(if_neg fun hd => hl hd.1).trans hmem, hheld⟩
    · intro hwritten
      obtain ⟨hdirty, hheld⟩ := h.pending (hw ▸ hwritten)
      exact ⟨(Function.update_of_ne hl ..).trans hdirty, hheld⟩

omit [DecidableEq α] in
/-- The line has been written back since the value was stored. -/
theorem Tracked.discard (h : Tracked line c a v) (hw : c.written l = true) :
    Tracked line (c.discard l) a v := by
  constructor
  · intro hwritten
    obtain ⟨hmem, hheld⟩ := h.settled hwritten
    refine ⟨hmem, fun hp => hheld ?_⟩
    by_cases hl : line a = l
    · rw [show (c.discard l).present (line a) = false from hl ▸ Function.update_self ..]
        at hp
      cases hp
    · exact (Function.update_of_ne hl ..).symm.trans hp
  · intro hwritten
    obtain ⟨hdirty, hheld⟩ := h.pending hwritten
    have hl : line a ≠ l := by
      rintro rfl
      exact absurd (hw.symm.trans hwritten) (by decide)
    exact ⟨(Function.update_of_ne hl ..).trans hdirty, hheld⟩

omit [DecidableEq α] in
theorem clean_written : (c.clean line l).written l = true := Function.update_self ..

omit [DecidableEq α] in
theorem Tracked.flush (h : Tracked line c a v) : Tracked line (c.flush line l) a v :=
  h.clean.discard clean_written

/-- The device writes to another place. -/
theorem Tracked.device (h : Tracked line c a v) (hab : a ≠ b) :
    Tracked line (c.device b w) a v := by
  constructor
  · intro hw
    obtain ⟨hmem, hheld⟩ := h.settled hw
    exact ⟨(Function.update_of_ne hab ..).trans hmem, hheld⟩
  · intro hw
    obtain ⟨hdirty, hheld⟩ := h.pending hw
    exact ⟨hdirty, hheld⟩

omit [DecidableEq α] in
/-- Writing a line back leaves a tracked value in the memory as it is. -/
theorem Tracked.clean_mem (h : Tracked line c a v) (hmem : c.mem a = v) :
    (c.clean line l).mem a = v := by
  by_cases hdirty : line a = l ∧ c.dirty l = true
  · exact (if_pos hdirty).trans (h.held (hdirty.1 ▸ c.tidy l hdirty.2))
  · exact (if_neg hdirty).trans hmem

/-! ## Which lines are dirty -/

@[simp] theorem store_dirty :
    (c.store line a v).dirty = Function.update c.dirty (line a) true := by
  show Function.update (c.fill line (line a)).dirty (line a) true = _
  rw [fill_dirty]

@[simp] theorem store_written : (c.store line a v).written = c.written :=
  fill_written

@[simp] theorem store_mem : (c.store line a v).mem = c.mem :=
  fill_mem

/-- After a store and a mark, a line is not written back, or as dirty as before. -/
theorem start_dirty (h : ((c.store line a v).mark (line a)).dirty l = true) :
    ((c.store line a v).mark (line a)).written l = false ∨
      c.dirty l = true ∧ ((c.store line a v).mark (line a)).written l = c.written l := by
  by_cases hl : l = line a
  · exact .inl (hl ▸ Function.update_self ..)
  · refine .inr ⟨?_, ?_⟩
    · have hd : ((c.store line a v).mark (line a)).dirty l = (c.store line a v).dirty l :=
        rfl
      rw [hd, store_dirty, Function.update_of_ne hl] at h
      exact h
    · exact (Function.update_of_ne hl ..).trans (congrFun store_written l)

omit [DecidableEq α] in
/-- After a line is written back, another is as dirty as before. -/
theorem clean_dirty {k : Nat} (h : (c.clean line l).dirty k = true) :
    k ≠ l ∧ c.dirty k = true ∧ (c.clean line l).written k = c.written k := by
  have hk : k ≠ l := by
    rintro rfl
    rw [show (c.clean line k).dirty k = false from Function.update_self ..] at h
    cases h
  exact ⟨hk, (Function.update_of_ne hk ..).symm.trans h, Function.update_of_ne hk ..⟩

omit [DecidableEq α] in
theorem discard_dirty {k : Nat} (h : (c.discard l).dirty k = true) :
    k ≠ l ∧ c.dirty k = true := by
  have hk : k ≠ l := by
    rintro rfl
    rw [show (c.discard k).dirty k = false from Function.update_self ..] at h
    cases h
  exact ⟨hk, (Function.update_of_ne hk ..).symm.trans h⟩

/-! ## Which lines are there and which are written back -/

omit [DecidableEq α] in
theorem fill_present_ne {k : Nat} (h : k ≠ l) :
    (c.fill line l).present k = c.present k := by
  unfold Cache.fill
  split
  · rfl
  · exact Function.update_of_ne h ..

omit [DecidableEq α] in
theorem flush_present (k : Nat) :
    (c.flush line l).present k = (c.present k && decide (k ≠ l)) := by
  by_cases hk : k = l
  · simp [Cache.flush, Cache.discard, hk]
  · simp [Cache.flush, Cache.discard, Cache.clean, hk]

omit [DecidableEq α] in
theorem clean_written_eq (k : Nat) :
    (c.clean line l).written k = (c.written k || decide (k = l)) := by
  by_cases hk : k = l
  · simp [Cache.clean, hk]
  · simp [Cache.clean, hk]

omit [DecidableEq α] in
theorem flush_written (k : Nat) :
    (c.flush line l).written k = (c.written k || decide (k = l)) := by
  show (c.clean line l).written k = _
  exact clean_written_eq k

end

end Kirkwood.Verified.WriteBack
