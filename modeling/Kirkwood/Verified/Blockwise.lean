import Mathlib.Tactic.Ring
import Kirkwood.Verified.ByteMem

/-!
# Going through a buffer block by block

A `Codec` reads and writes blocks of a fixed size in a memory of bytes.  A routine that goes
through a buffer is a sequence of actions on a `World`: it fetches blocks, submits them to
an engine that queues its outputs, collects the outputs and puts blocks back.  The world
keeps the addresses of the blocks fetched and put.

## Main results

* `addrs_within_iff`: the blocks that start in a buffer lie in it exactly when its length is
  a multiple of theirs;
* `blocks_putAll`, `putAll_outside`: what putting blocks in a row does to the memory;
* `collect_run`: the engine is first-in first-out;
* `turn_run`, `advance_advance`: a turn that keeps the engine empty, and going on from
  there;
* `confined_iff`, `replaced_advance`: what a call has touched and done.
-/

namespace Kirkwood.Verified.Blockwise

open Kirkwood.Verified.ByteMem

universe u

/-- Blocks of `size` bytes. -/
structure Codec (β : Type u) where
  size : Nat
  pos : 0 < size
  load : Mem → Int → β
  store : Mem → Int → β → Mem
  load_store : ∀ (m : Mem) (p : Int) (b : β), load (store m p b) p = b
  load_congr : ∀ {m m' : Mem} {p : Int}, (∀ x, p ≤ x → x < p + size → m x = m' x) →
    load m p = load m' p
  store_outside : ∀ (m : Mem) (p : Int) (b : β) {x : Int}, x < p ∨ p + size ≤ x →
    store m p b x = m x

section
variable {β : Type u} (c : Codec β)

/-! ## Blocks in a row -/

/-- The addresses of `k` blocks from `p` on. -/
def addrs (p : Int) : Nat → List Int
  | 0 => []
  | k + 1 => p :: addrs (p + c.size) k

def blocks (m : Mem) (p : Int) : Nat → List β
  | 0 => []
  | k + 1 => c.load m p :: blocks m (p + c.size) k

def putAll (m : Mem) (p : Int) : List β → Mem
  | [] => m
  | b :: bs => putAll (c.store m p b) (p + c.size) bs

@[simp] theorem blocks_length (m : Mem) (p : Int) (k : Nat) :
    (blocks c m p k).length = k := by
  induction k generalizing p with
  | zero => rfl
  | succ k ih => exact congrArg Nat.succ (ih _)

variable {c}

private theorem span_succ (n k : Nat) :
    (n : Int) * (k + 1 : Nat) = n + n * k ∧ 0 ≤ (n : Int) * k :=
  ⟨by push_cast; ring, Int.mul_nonneg (Int.natCast_nonneg n) (Int.natCast_nonneg k)⟩

theorem blocks_congr {m m' : Mem} {p : Int} {k : Nat}
    (h : ∀ x, p ≤ x → x < p + c.size * k → m x = m' x) :
    blocks c m p k = blocks c m' p k := by
  induction k generalizing p with
  | zero => rfl
  | succ k ih =>
      obtain ⟨hspan, hrest⟩ := span_succ c.size k
      rw [hspan] at h
      have hhead : c.load m p = c.load m' p :=
        c.load_congr fun x hlo hhi => h x hlo (by omega)
      have htail : blocks c m (p + c.size) k = blocks c m' (p + c.size) k :=
        ih fun x hlo hhi => h x (by omega) (by omega)
      rw [blocks, blocks, hhead, htail]

theorem blocks_add (m : Mem) (p : Int) (k l : Nat) :
    blocks c m p (k + l) = blocks c m p k ++ blocks c m (p + c.size * k) l := by
  induction k generalizing p with
  | zero => rw [Nat.zero_add, Int.natCast_zero, Int.mul_zero, Int.add_zero]; rfl
  | succ k ih =>
      rw [(span_succ c.size k).1, ← Int.add_assoc, Nat.succ_add, blocks, blocks, ih]
      rfl

/-- A memory is what it holds in the blocks of a range and outside, if a block has all its
bytes. -/
theorem mem_eq {m m' : Mem} {p : Int} {k : Nat}
    (hload : ∀ q, c.load m q = c.load m' q → ∀ x, q ≤ x → x < q + c.size → m x = m' x)
    (hin : blocks c m p k = blocks c m' p k)
    (hout : ∀ x, x < p ∨ p + c.size * k ≤ x → m x = m' x) : m = m' := by
  induction k generalizing p with
  | zero =>
      funext x
      exact hout x (by rw [Int.natCast_zero, Int.mul_zero]; omega)
  | succ k ih =>
      obtain ⟨hhead, htail⟩ := List.cons.inj hin
      rw [(span_succ c.size k).1] at hout
      refine ih htail fun x hx => ?_
      by_cases hblock : p ≤ x ∧ x < p + c.size
      · exact hload p hhead x hblock.1 hblock.2
      · exact hout x (by omega)

/-- What is put at `p` is not seen behind it. -/
theorem blocks_store (m : Mem) (p : Int) (b : β) {q : Int} (hq : p + c.size ≤ q) (k : Nat) :
    blocks c (c.store m p b) q k = blocks c m q k :=
  blocks_congr fun _ hlo _ => c.store_outside m p b (.inr (Int.le_trans hq hlo))

theorem putAll_outside (m : Mem) (p : Int) (bs : List β) {x : Int}
    (hx : x < p ∨ p + c.size * bs.length ≤ x) : putAll c m p bs x = m x := by
  induction bs generalizing m p with
  | nil => rfl
  | cons b bs ih =>
      obtain ⟨hspan, hrest⟩ := span_succ c.size bs.length
      rw [List.length_cons, hspan] at hx
      rw [putAll, ih _ _ (by omega)]
      exact c.store_outside m p b (by omega)

theorem blocks_putAll (m : Mem) (p : Int) (bs : List β) :
    blocks c (putAll c m p bs) p bs.length = bs := by
  induction bs generalizing m p with
  | nil => rfl
  | cons b bs ih =>
      have hhead : c.load (putAll c (c.store m p b) (p + c.size) bs) p =
          c.load (c.store m p b) p :=
        c.load_congr fun x _ hhi => putAll_outside _ _ bs (.inl hhi)
      rw [List.length_cons, blocks, putAll, hhead, c.load_store, ih]

theorem mem_addrs {p a : Int} {k : Nat} :
    a ∈ addrs c p k ↔ ∃ i < k, a = p + c.size * (i : Nat) := by
  induction k generalizing p with
  | zero => simp [addrs]
  | succ k ih =>
      rw [addrs, List.mem_cons, ih]
      constructor
      · rintro (rfl | ⟨i, hi, rfl⟩)
        · exact ⟨0, Nat.zero_lt_succ k, by simp⟩
        · exact ⟨i + 1, Nat.succ_lt_succ hi, by push_cast; ring⟩
      · rintro ⟨i, hi, rfl⟩
        cases i with
        | zero => exact .inl (by simp)
        | succ i => exact .inr ⟨i, Nat.lt_of_succ_lt_succ hi, by push_cast; ring⟩

variable (c) in
/-- How many blocks start in a buffer of `n` bytes. -/
def turns (n : Nat) : Nat := (n + (c.size - 1)) / c.size

theorem turns_dvd {n : Nat} (h : c.size ∣ n) : turns c n = n / c.size := by
  obtain ⟨k, rfl⟩ := h
  have hpos := c.pos
  rw [turns, Nat.mul_add_div hpos, Nat.div_eq_of_lt (by omega),
    Nat.mul_div_cancel_left _ hpos]
  rfl

theorem addrs_within_iff (p : Int) (n : Nat) :
    (∀ a ∈ addrs c p (turns c n), p ≤ a ∧ a + c.size ≤ p + n) ↔ c.size ∣ n := by
  have hpos := c.pos
  have hceil : n ≤ c.size * turns c n := by
    have hdiv := Nat.div_add_mod (n + (c.size - 1)) c.size
    have hmod := Nat.mod_lt (n + (c.size - 1)) hpos
    unfold turns
    omega
  constructor
  · intro h
    suffices hle : c.size * turns c n ≤ n from ⟨_, Nat.le_antisymm hceil hle⟩
    cases hturns : turns c n with
    | zero => exact Nat.zero_le n
    | succ t =>
        -- the last block
        have hlast := (h _ (mem_addrs.2 ⟨t, by omega, rfl⟩)).2
        rw [Int.add_assoc, Int.add_le_add_iff_left] at hlast
        rw [Nat.mul_succ]
        exact_mod_cast hlast
  · intro hdvd a ha
    obtain ⟨i, hi, rfl⟩ := mem_addrs.1 ha
    rw [turns_dvd hdvd] at hi
    have hle : c.size * (i + 1) ≤ n :=
      Nat.le_trans (Nat.mul_le_mul_left _ hi) (Nat.mul_div_le n c.size)
    rw [Nat.mul_succ] at hle
    have hle' : (c.size : Int) * i + c.size ≤ n := by exact_mod_cast hle
    have hrest := (span_succ c.size i).2
    omega

end

/-! ## Actions -/

/-- The memory, the addresses of the blocks fetched from it and put in it, and the engine
with the outputs that it has ready; of the blocks given to it and taken from it there is a
record. -/
structure World (β σ : Type u) where
  mem : Mem
  reads : List Int
  writes : List Int
  engine : σ
  queue : List β
  submitted : List β
  collected : List β

section
variable {β σ : Type u} (c : Codec β) (crypt : σ → β → σ × β)

/-- The outputs for blocks in a row; what the engine makes of a block depends on those
before. -/
def outs : σ → List β → List β
  | _, [] => []
  | s, b :: bs => (crypt s b).2 :: outs (crypt s b).1 bs

/-- The engine after them. -/
def final : σ → List β → σ
  | s, [] => s
  | s, b :: bs => final (crypt s b).1 bs

def fetch (p : Int) : StateM (World β σ) β := do
  let w ← get
  set { w with reads := w.reads ++ [p] }
  return c.load w.mem p

def put (p : Int) (b : β) : StateM (World β σ) PUnit :=
  modify fun w => { w with mem := c.store w.mem p b, writes := w.writes ++ [p] }

def submit (b : β) : StateM (World β σ) PUnit :=
  modify fun w =>
    { w with
      engine := (crypt w.engine b).1
      queue := w.queue ++ [(crypt w.engine b).2]
      submitted := w.submitted ++ [b] }

/-- Nothing is collected from an empty queue. -/
def collect [Inhabited β] : StateM (World β σ) β := do
  let w ← get
  match w.queue with
  | [] => return default
  | d :: ds =>
      set { w with queue := ds, collected := w.collected ++ [d] }
      return d

/-- Fetch a block, submit `pre` of it, and put `post` of it and the output back. -/
def turn [Inhabited β] (p : Int) (pre : β → β) (post : β → β → β) :
    StateM (World β σ) (β × β) := do
  let b ← fetch c p
  submit crypt (pre b)
  let d ← collect
  put c p (post b d)
  return (b, d)

variable {c crypt}

theorem bind_run {α γ : Type u} {x : StateM (World β σ) α} {f : α → StateM (World β σ) γ}
    {w w' : World β σ} {a : α} (h : x w = (a, w')) : (x >>= f) w = f a w' := by
  show f (x w).1 (x w).2 = f a w'
  rw [h]

theorem outs_length (s : σ) (bs : List β) : (outs crypt s bs).length = bs.length := by
  induction bs generalizing s with
  | nil => rfl
  | cons b bs ih => exact congrArg Nat.succ (ih _)

theorem collect_run [Inhabited β] {w : World β σ} {d : β} {ds : List β}
    (h : w.queue = d :: ds) :
    collect w = (d, { w with queue := ds, collected := w.collected ++ [d] }) := by
  cases w
  cases h
  rfl

variable (c) in
/-- The world with blocks fetched from `p` on and put back as `bs`, of which the engine was
given `ins` and made `ds`. -/
def World.advance (w : World β σ) (p : Int) (ins ds bs : List β) (s : σ) : World β σ where
  mem := putAll c w.mem p bs
  reads := w.reads ++ addrs c p bs.length
  writes := w.writes ++ addrs c p bs.length
  engine := s
  queue := []
  submitted := w.submitted ++ ins
  collected := w.collected ++ ds

theorem advance_nil {w : World β σ} (h : w.queue = []) (p : Int) :
    w.advance c p [] [] [] w.engine = w := by
  cases w
  cases h
  simp [World.advance, putAll, addrs]

theorem advance_advance (w : World β σ) (p : Int) (i d b : β) (ins ds bs : List β)
    (s s' : σ) :
    (w.advance c p [i] [d] [b] s).advance c (p + c.size) ins ds bs s' =
      w.advance c p (i :: ins) (d :: ds) (b :: bs) s' := by
  simp [World.advance, putAll, addrs]

theorem turn_run [Inhabited β] {w : World β σ} (h : w.queue = []) (p : Int) (pre : β → β)
    (post : β → β → β) :
    turn c crypt p pre post w =
      ((c.load w.mem p, (crypt w.engine (pre (c.load w.mem p))).2),
        w.advance c p [pre (c.load w.mem p)] [(crypt w.engine (pre (c.load w.mem p))).2]
          [post (c.load w.mem p) (crypt w.engine (pre (c.load w.mem p))).2]
          (crypt w.engine (pre (c.load w.mem p))).1) := by
  cases w
  cases h
  rfl

end

/-! ## Calls -/

section
variable {β σ : Type} {c : Codec β}

/-- Before a call: nothing is in the engine. -/
def idle (m : Mem) (s : σ) : World β σ := ⟨m, [], [], s, [], [], []⟩

variable (c) in
/-- Only bytes of the buffer were read or written. -/
def Confined (p : Int) (n : Nat) (w : World β σ) : Prop :=
  ∀ a ∈ w.reads ++ w.writes, p ≤ a ∧ a + c.size ≤ p + n

variable (c) in
/-- The `k` blocks of the buffer were read and replaced by `bs` in order; the engine was
given `ins`, and their outputs `ds` were taken from it. -/
structure Replaced (m : Mem) (p : Int) (k : Nat) (ins ds bs : List β) (w : World β σ) :
    Prop where
  reads : w.reads = addrs c p k
  writes : w.writes = addrs c p k
  submitted : w.submitted = ins
  collected : w.collected = ds
  queue : w.queue = []
  once : ins.length = k ∧ ds.length = k
  buffer : blocks c w.mem p k = bs
  outside : ∀ x, x < p ∨ p + c.size * k ≤ x → w.mem x = m x

theorem confined_iff {p : Int} {n : Nat} {w : World β σ}
    (hreads : w.reads = addrs c p (turns c n))
    (hwrites : w.writes = addrs c p (turns c n)) :
    Confined c p n w ↔ c.size ∣ n := by
  rw [← addrs_within_iff p n, Confined, hreads, hwrites]
  simp only [List.mem_append, or_self]

theorem replaced_advance {m : Mem} {s s' : σ} {p : Int} {k : Nat} {ins ds bs : List β}
    (hins : ins.length = k) (hds : ds.length = k) (hbs : bs.length = k) :
    Replaced c m p k ins ds bs ((idle m s).advance c p ins ds bs s') := by
  refine ⟨?_, ?_, rfl, rfl, rfl, ⟨hins, hds⟩, ?_, fun x hx => ?_⟩
  · rw [← hbs]
    rfl
  · rw [← hbs]
    rfl
  · rw [← hbs]
    exact blocks_putAll m p bs
  · rw [← hbs] at hx
    exact putAll_outside m p bs hx

end

end Kirkwood.Verified.Blockwise
