import Mathlib.Data.List.Induction
import Kirkwood.Verified.Outcome
import Kirkwood.Verified.Trans
import Kirkwood.Ports.CacheOps

/-!
# The descriptors of the XOR engines and the cache

`memdma`, `crc32cdma` and `xordma` of `xor.c` fill in a descriptor on the stack, write the
buffers back and start a port.  The engine reads the descriptor from the memory, and stores
its status there.  No statement writes the descriptor back or invalidates it: it gets to the
memory when the cache evicts it, which may be at any moment, or with a buffer so long that
`dcwb` or `dcwbinv` does the whole cache.

The array on the stack is long enough for the lines of a descriptor to have nothing else,
and the buffers are elsewhere; so an operation on a buffer does something to them only where
it does the whole cache, as `CacheOps` has it.

## Main results

* `step_inv`: what holds between two steps of the code, the engine and the cache;
* `described_iff`: the lengths for which the engine always gets the descriptor filled in;
* `asserted_iff`: those for which the code always finds the status that the engine has
  stored, so that the assertion behind the sleep holds.
-/

namespace Kirkwood.Ports.XorDma

open Kirkwood.Verified
open Kirkwood.Verified.Outcome
open Kirkwood.Verified.Trans
open Kirkwood.Verified.WriteBack
open Kirkwood.Ports.CacheOps (CACHESIZE L2CACHESIZE)

abbrev Word := BitVec 32

/-! ## The code -/

def Ssuccess : Word := 1 <<< 30
def Sdmaowned : Word := 1 <<< 31
def Ccrclast : Word := 1 <<< 30

def MASK (n : Nat) : Word := (1 <<< n) - 1

/-- The members of `Descr` and `XDescr` that are used. -/
inductive Field where
  | status
  | crc32
  | cmd
  | nextdescr
  | bytecount
  | dest
  | src (i : Nat)
  deriving DecidableEq, Repr

/-- In words from the start of the descriptor. -/
def Field.place : Field → Nat
  | status => 0
  | crc32 => 1
  | cmd => 2
  | nextdescr => 3
  | bytecount => 4
  | dest => 5
  | src i => 6 + i

/-- An `XDescr` has two lines, a `Descr` the first of them. -/
def line (f : Field) : Nat := f.place / 8

abbrev Words := Cache Field Word

/-- `d->f = v`, and the cache operations on a buffer. -/
inductive Stmt where
  | set (f : Field) (v : Word)
  | dcwb (p n : Word)
  | dcwbinv (p n : Word)
  deriving DecidableEq, Repr

/-- What a statement does to the lines of the descriptor. -/
def Stmt.exec (c : Words) : Stmt → Words
  | .set f v => (c.store line f v).mark (line f)
  | .dcwb _ n =>
      if n.toNat < CACHESIZE then c else (c.clean line 0).clean line 1
  | .dcwbinv _ n =>
      if n.toNat < L2CACHESIZE / 2 then c else (c.flush line 0).flush line 1

def huge (n : Word) (who : String) (prog : List Stmt) : Except Exn (List Stmt) :=
  if n.toNat > 16 * 1024 * 1024 then .error (.panic (who ++ " on huge block")) else .ok prog

def crc32cdma (buf n : Word) : Except Exn (List Stmt) :=
  huge n "crc32cdma" [.set .status Sdmaowned, .set .cmd Ccrclast, .set .nextdescr 0,
    .set .bytecount n, .set .dest 0, .set (.src 0) buf, .dcwbinv buf n]

def memdma (dst src n : Word) : Except Exn (List Stmt) :=
  huge n "memdma" [.set .status Sdmaowned, .set .cmd 0, .set .nextdescr 0,
    .set .bytecount n, .set .dest dst, .set (.src 0) src, .dcwb src n, .dcwbinv dst n]

/-- `for(i = 0; i < nsrc; i++)`, from `i` on -/
def sources (n : Word) : Nat → List Word → List Stmt
  | _, [] => []
  | i, p :: src => .set (.src i) p :: .dcwb p n :: sources n (i + 1) src

/-- The statements of `xordma` before its loop. -/
def heading (dst : Word) (src : List Word) (n : Word) : List Stmt :=
  [.set .status Sdmaowned, .set .cmd (MASK src.length), .set .nextdescr 0,
    .set .bytecount n, .set .dest dst, .dcwbinv dst n]

def xordma (dst : Word) (src : List Word) (n : Word) : Except Exn (List Stmt) :=
  huge n "xordma" (heading dst src n ++ sources n 0 src)

/-! ## Runs -/

/-- Where a call is: with statements to come, at `sleep` from `act = XEstart` on, and how
its assertion has ended.  `seen` is what the engine has read, `crc` the sum that it has
stored, if it is for a sum, and `sum` what is returned. -/
inductive Stage where
  | filling (todo : List Stmt)
  | started
  | fetched (seen : Field → Word)
  | finished (crc : Option Word)
  | passed (crc : Option Word) (sum : Word)
  | failed

structure State where
  words : Words
  stage : Stage

/-- The next statement; the cache writes a line back and drops it; the engine reads the
descriptor; it stores the sum and the status; the code is woken and looks at these. -/
inductive Action where
  | next
  | evict (l : Nat)
  | fetch
  | finish (crc : Option Word)
  | check
  deriving DecidableEq, Repr

/-- The engine stores into the descriptor. -/
def finish (c : Words) (crc : Option Word) : Words :=
  match crc with
  | none => c.device .status Ssuccess
  | some x => (c.device .crc32 x).device .status Ssuccess

def step (s : State) : Action → Option State
  | .next =>
      match s.stage with
      | .filling [] => some { s with stage := .started }
      | .filling (st :: todo) => some ⟨st.exec s.words, .filling todo⟩
      | _ => none
  | .evict l => some { s with words := s.words.flush line l }
  | .fetch =>
      match s.stage with
      | .started => some { s with stage := .fetched s.words.mem }
      | _ => none
  | .finish crc =>
      match s.stage with
      | .fetched _ => some ⟨finish s.words crc, .finished crc⟩
      | _ => none
  | .check =>
      match s.stage with
      | .finished crc =>
          let status := s.words.load line .status
          let sum := status.2.load line .crc32
          some ⟨sum.2, if status.1 = Ssuccess then .passed crc sum.1 else .failed⟩
      | _ => none

/-- The call of a function with these statements. -/
def Called (prog : List Stmt) (s : State) : Prop := s.stage = .filling prog

/-! ## What the statements have done -/

def Stmt.describe (f : Field) (d : Option Word) : Stmt → Option Word
  | .set g v => if g = f then some v else d
  | _ => d

/-- What was stored last. -/
def described (prog : List Stmt) (f : Field) : Option Word :=
  prog.foldl (Stmt.describe f) none

def Stmt.cleans (l : Nat) (b : Bool) : Stmt → Bool
  | .set f _ => b && line f != l
  | .dcwb _ n => b || decide (CACHESIZE ≤ n.toNat)
  | .dcwbinv _ n => b || decide (L2CACHESIZE / 2 ≤ n.toNat)

/-- The whole cache was cleaned after the last store in the line. -/
def cleaned (prog : List Stmt) (l : Nat) : Bool := prog.foldl (Stmt.cleans l) false

def Stmt.drops (l : Nat) (b : Bool) : Stmt → Bool
  | .set f _ => b && line f != l
  | .dcwb _ _ => b
  | .dcwbinv _ n => b || decide (L2CACHESIZE / 2 ≤ n.toNat)

/-- The whole cache was invalidated after the last store in the line. -/
def dropped (prog : List Stmt) (l : Nat) : Bool := prog.foldl (Stmt.drops l) false

section
variable (did : List Stmt) (st : Stmt)

theorem described_snoc (f : Field) :
    described (did ++ [st]) f = st.describe f (described did f) :=
  List.foldl_concat ..

theorem cleaned_snoc (l : Nat) : cleaned (did ++ [st]) l = st.cleans l (cleaned did l) :=
  List.foldl_concat ..

theorem dropped_snoc (l : Nat) : dropped (did ++ [st]) l = st.drops l (dropped did l) :=
  List.foldl_concat ..

end

/-- The words after the statements `did`. -/
structure Ready (did : List Stmt) (c : Words) : Prop where
  tracked : ∀ f v, described did f = some v → Tracked line c f v
  written : ∀ l < 2, cleaned did l = true → c.written l = true
  absent : ∀ l < 2, dropped did l = true → c.present l = false

section
variable {did : List Stmt} {c : Words} {f : Field} {l : Nat}

theorem set_present (f : Field) (v : Word) :
    ((Stmt.set f v).exec c).present (line f) = true :=
  Cache.fill_present line c (line f)

theorem set_present_ne {v : Word} (h : line f ≠ l) :
    ((Stmt.set f v).exec c).present l = c.present l :=
  fill_present_ne (Ne.symm h)

theorem Ready.set (h : Ready did c) (f : Field) (v : Word) :
    Ready (did ++ [.set f v]) ((Stmt.set f v).exec c) where
  tracked g w hg := by
    rw [described_snoc] at hg
    by_cases hfg : f = g
    · subst hfg
      rw [Stmt.describe, if_pos rfl] at hg
      cases hg
      exact Tracked.start
    · rw [Stmt.describe, if_neg hfg] at hg
      have hdirty : (c.store line f v).dirty (line f) = true := by
        rw [store_dirty]
        exact Function.update_self ..
      exact ((h.tracked g w hg).store (Ne.symm hfg)).mark hdirty
  written l hl hcleaned := by
    rw [cleaned_snoc, Stmt.cleans, Bool.and_eq_true, bne_iff_ne] at hcleaned
    have hmark : ((Stmt.set f v).exec c).written l = (c.store line f v).written l :=
      Function.update_of_ne (Ne.symm hcleaned.2) ..
    rw [hmark, store_written]
    exact h.written l hl hcleaned.1
  absent l hl hdropped := by
    rw [dropped_snoc, Stmt.drops, Bool.and_eq_true, bne_iff_ne] at hdropped
    rw [set_present_ne hdropped.2]
    exact h.absent l hl hdropped.1

/-- A statement that leaves the descriptor as it is. -/
theorem Ready.skip (h : Ready did c) {st : Stmt}
    (hdescribe : ∀ f d, st.describe f d = d)
    (hcleans : ∀ l b, st.cleans l b = true → b = true)
    (hdrops : ∀ l b, st.drops l b = true → b = true) : Ready (did ++ [st]) c where
  tracked g w hg := by
    rw [described_snoc, hdescribe] at hg
    exact h.tracked g w hg
  written l hl hcleaned := by
    rw [cleaned_snoc] at hcleaned
    exact h.written l hl (hcleans l _ hcleaned)
  absent l hl hdropped := by
    rw [dropped_snoc] at hdropped
    exact h.absent l hl (hdrops l _ hdropped)

theorem Ready.dcwb (h : Ready did c) (p n : Word) :
    Ready (did ++ [.dcwb p n]) ((Stmt.dcwb p n).exec c) := by
  rw [Stmt.exec]
  by_cases hn : n.toNat < CACHESIZE
  · rw [if_pos hn]
    refine h.skip (fun _ _ => rfl) (fun l b hb => ?_) fun _ _ hb => hb
    simpa [Stmt.cleans, Nat.not_le.2 hn] using hb
  · rw [if_neg hn]
    refine ⟨fun g w hg => ?_, fun l hl _ => ?_, fun l hl hdropped => ?_⟩
    · rw [described_snoc] at hg
      exact (h.tracked g w hg).clean.clean
    · rw [clean_written_eq, clean_written_eq]
      have hcases : l = 0 ∨ l = 1 := by omega
      rcases hcases with rfl | rfl <;> simp
    · rw [dropped_snoc] at hdropped
      exact h.absent l hl hdropped

theorem Ready.dcwbinv (h : Ready did c) (p n : Word) :
    Ready (did ++ [.dcwbinv p n]) ((Stmt.dcwbinv p n).exec c) := by
  rw [Stmt.exec]
  by_cases hn : n.toNat < L2CACHESIZE / 2
  · rw [if_pos hn]
    refine h.skip (fun _ _ => rfl) (fun l b hb => ?_) fun l b hb => ?_
    · simpa [Stmt.cleans, Nat.not_le.2 hn] using hb
    · simpa [Stmt.drops, Nat.not_le.2 hn] using hb
  · rw [if_neg hn]
    refine ⟨fun g w hg => ?_, fun l hl _ => ?_, fun l hl _ => ?_⟩
    · rw [described_snoc] at hg
      exact (h.tracked g w hg).flush.flush
    · rw [flush_written, flush_written]
      have hcases : l = 0 ∨ l = 1 := by omega
      rcases hcases with rfl | rfl <;> simp
    · rw [flush_present, flush_present]
      have hcases : l = 0 ∨ l = 1 := by omega
      rcases hcases with rfl | rfl <;> simp

theorem Ready.exec (h : Ready did c) (st : Stmt) : Ready (did ++ [st]) (st.exec c) := by
  cases st with
  | set f v => exact h.set f v
  | dcwb p n => exact h.dcwb p n
  | dcwbinv p n => exact h.dcwbinv p n

theorem Ready.evict (h : Ready did c) (l : Nat) : Ready did (c.flush line l) where
  tracked g w hg := (h.tracked g w hg).flush
  written k hk hcleaned := by
    rw [flush_written, h.written k hk hcleaned, Bool.true_or]
  absent k hk hdropped := by
    rw [flush_present, h.absent k hk hdropped, Bool.false_and]

/-- What is in the line of the status, once the engine has stored there. -/
structure Stored (prog : List Stmt) (crc : Option Word) (c : Words) : Prop where
  held : c.present 0 = true → c.held .status = Sdmaowned
  sum : c.mem .status = Ssuccess → ∀ x, crc = some x → c.mem .crc32 = x
  fresh : dropped prog 0 = true → c.present 0 = false ∧ c.mem .status = Ssuccess

theorem owned_ne : Sdmaowned ≠ Ssuccess := by decide

theorem finish_status (c : Words) (crc : Option Word) :
    (finish c crc).mem .status = Ssuccess := by
  cases crc <;> simp [finish, Cache.device]

theorem Ready.stored {prog : List Stmt} (h : Ready prog c)
    (hstatus : described prog .status = some Sdmaowned) (crc : Option Word) :
    Stored prog crc (finish c crc) := by
  have hheld : c.present 0 = true → c.held .status = Sdmaowned :=
    (h.tracked .status _ hstatus).held
  have hfresh : dropped prog 0 = true →
      (finish c crc).present 0 = false ∧ (finish c crc).mem .status = Ssuccess := by
    intro hdropped
    refine ⟨?_, finish_status c crc⟩
    have habsent := h.absent 0 (by decide) hdropped
    cases crc <;> exact habsent
  cases crc with
  | none =>
      refine ⟨hheld, fun _ x hx => ?_, hfresh⟩
      cases hx
  | some x =>
      refine ⟨hheld, fun _ y hy => ?_, hfresh⟩
      have hne : Field.crc32 ≠ .status := by decide
      show Function.update (Function.update c.mem .crc32 x) .status Ssuccess .crc32 = y
      rw [Function.update_of_ne hne, Function.update_self]
      exact Option.some.inj hy

/-- A dirty line that is written back takes the status of the engine away. -/
theorem Stored.evict {prog : List Stmt} {crc : Option Word} (h : Stored prog crc c)
    (l : Nat) : Stored prog crc (c.flush line l) := by
  have hmem : ∀ f, line f = 0 → (c.flush line l).mem f =
      if 0 = l ∧ c.dirty l = true then c.held f else c.mem f := by
    intro f hf
    rw [← hf]
    rfl
  refine ⟨fun hp => ?_, fun hsuccess => ?_, fun hdropped => ?_⟩
  · rw [flush_present, Bool.and_eq_true] at hp
    exact h.held hp.1
  · by_cases hback : 0 = l ∧ c.dirty l = true
    · obtain ⟨rfl, hdirty⟩ := hback
      rw [hmem _ rfl, if_pos ⟨rfl, hdirty⟩, h.held (c.tidy 0 hdirty)] at hsuccess
      exact absurd hsuccess owned_ne
    · rw [hmem _ rfl, if_neg hback] at hsuccess
      rw [hmem _ rfl, if_neg hback]
      exact h.sum hsuccess
  · obtain ⟨habsent, hsuccess⟩ := h.fresh hdropped
    have hback : ¬ (0 = l ∧ c.dirty l = true) := by
      rintro ⟨rfl, hdirty⟩
      rw [c.tidy 0 hdirty] at habsent
      cases habsent
    refine ⟨by rw [flush_present, habsent, Bool.false_and], ?_⟩
    rw [hmem _ rfl, if_neg hback]
    exact hsuccess

end

/-- What holds of a call with the statements `prog`. -/
def Inv (prog : List Stmt) (s : State) : Prop :=
  match s.stage with
  | .filling todo => ∃ did, did ++ todo = prog ∧ Ready did s.words
  | .started => Ready prog s.words
  | .fetched seen => Ready prog s.words ∧ ∀ f v, described prog f = some v → line f < 2 →
      cleaned prog (line f) = true → seen f = v
  | .finished crc => Stored prog crc s.words
  | .passed crc sum => ∀ x, crc = some x → sum = x
  | .failed => dropped prog 0 = false

section
variable {prog : List Stmt} {s s' : State} {a : Action}

theorem called_inv (h : Called prog s) : Inv prog s := by
  unfold Inv
  rw [h]
  refine ⟨[], rfl, fun f v hv => ?_, fun l _ hl => ?_, fun l _ hl => ?_⟩
  · cases hv
  · cases hl
  · cases hl

theorem check_inv {c : Words} {crc : Option Word} (h : Stored prog crc c)
    (hs : step ⟨c, .finished crc⟩ .check = some s') : Inv prog s' := by
  cases hs
  by_cases hp : c.present 0 = true
  · have hload : (c.load line .status).1 = Sdmaowned := by
      show (c.fill line 0).held .status = _
      rw [Cache.fill, if_pos hp]
      exact h.held hp
    unfold Inv
    simp only [hload, if_neg owned_ne]
    cases hdropped : dropped prog 0 with
    | false => rfl
    | true =>
        rw [(h.fresh hdropped).1] at hp
        cases hp
  · have hload : (c.load line .status).1 = c.mem .status := by
      show (c.fill line 0).held .status = _
      rw [Cache.fill, if_neg hp]
      rfl
    have hsum : ((c.load line .status).2.load line .crc32).1 = c.mem .crc32 := by
      have hfilled : (c.fill line 0).present 0 = true := Cache.fill_present line c 0
      show ((c.fill line 0).fill line 0).held .crc32 = _
      rw [Cache.fill, if_pos hfilled, Cache.fill, if_neg hp]
      rfl
    unfold Inv
    simp only [hload, hsum]
    by_cases hsuccess : c.mem .status = Ssuccess
    · rw [if_pos hsuccess]
      exact h.sum hsuccess
    · rw [if_neg hsuccess]
      cases hdropped : dropped prog 0 with
      | false => rfl
      | true => exact absurd (h.fresh hdropped).2 hsuccess

theorem step_inv (hstatus : described prog .status = some Sdmaowned) (h : Inv prog s)
    (hs : step s a = some s') : Inv prog s' := by
  obtain ⟨c, stage⟩ := s
  cases a with
  | next =>
      cases stage with
      | filling todo =>
          obtain ⟨did, hdid, hready⟩ := h
          cases todo with
          | nil =>
              cases hs
              rw [List.append_nil] at hdid
              exact hdid ▸ hready
          | cons st todo =>
              cases hs
              exact ⟨did ++ [st], by rw [List.append_assoc]; exact hdid, hready.exec st⟩
      | _ => cases hs
  | evict l =>
      cases hs
      cases stage with
      | filling todo =>
          obtain ⟨did, hdid, hready⟩ := h
          exact ⟨did, hdid, hready.evict l⟩
      | started => exact Ready.evict h l
      | fetched seen => exact ⟨h.1.evict l, h.2⟩
      | finished crc => exact Stored.evict h l
      | passed crc sum => exact h
      | failed => exact h
  | fetch =>
      cases stage with
      | started =>
          cases hs
          refine ⟨h, fun f v hv hline hcleaned => ?_⟩
          have hready : Ready prog c := h
          exact ((hready.tracked f v hv).settled (hready.written _ hline hcleaned)).mem
      | _ => cases hs
  | finish crc =>
      cases stage with
      | fetched seen =>
          cases hs
          exact h.1.stored hstatus crc
      | _ => cases hs
  | check =>
      cases stage with
      | finished crc => exact check_inv h hs
      | _ => cases hs

theorem reach_inv (hstatus : described prog .status = some Sdmaowned)
    (h : Reach step Free (Called prog) s) : Inv prog s :=
  h.invariant (fun _ => called_inv) fun _ _ _ hinv _ hs => step_inv hstatus hinv hs

end

/-! ## When the engine and the code agree -/

/-- The engine gets what was filled in, whatever the cache does. -/
def Fetches (prog : List Stmt) : Prop :=
  ∀ s seen, Reach step Free (Called prog) s → s.stage = .fetched seen →
    ∀ f v, described prog f = some v → seen f = v

/-- The assertion holds, whatever the cache does. -/
def Passes (prog : List Stmt) : Prop :=
  ∀ s, Reach step Free (Called prog) s → s.stage ≠ .failed

/-- The sum returned is the one of the engine. -/
def Sums (prog : List Stmt) : Prop :=
  ∀ s x sum, Reach step Free (Called prog) s → s.stage = .passed (some x) sum → sum = x

section
variable {prog : List Stmt}

theorem fetches (hstatus : described prog .status = some Sdmaowned)
    (hcleaned : ∀ f v, described prog f = some v →
      line f < 2 ∧ cleaned prog (line f) = true) : Fetches prog := by
  intro s seen h hseen f v hv
  have hinv := reach_inv hstatus h
  unfold Inv at hinv
  rw [hseen] at hinv
  exact hinv.2 f v hv (hcleaned f v hv).1 (hcleaned f v hv).2

theorem sums (hstatus : described prog .status = some Sdmaowned) : Sums prog := by
  intro s x sum h hpassed
  have hinv := reach_inv hstatus h
  unfold Inv at hinv
  rw [hpassed] at hinv
  exact hinv x rfl

/-- No line is evicted while the statements are performed. -/
theorem fill_run (c : Words) (prog : List Stmt) :
    run step ⟨c, .filling prog⟩ (List.replicate (prog.length + 1) .next) =
      some ⟨prog.foldl Stmt.exec c, .started⟩ := by
  induction prog generalizing c with
  | nil => rfl
  | cons st prog ih => exact ih (st.exec c)

theorem fill_reach (c : Words) (prog : List Stmt) :
    Reach step Free (Called prog) ⟨prog.foldl Stmt.exec c, .started⟩ := by
  have hcalled : Reach step Free (Called prog) ⟨c, .filling prog⟩ := .start rfl
  exact hcalled.of_run_free _ (fill_run c prog)

/-- Whether the whole cache is done. -/
def Stmt.whole : Stmt → Bool
  | .set _ _ => false
  | .dcwb _ n => decide (CACHESIZE ≤ n.toNat)
  | .dcwbinv _ n => decide (L2CACHESIZE / 2 ≤ n.toNat)

theorem exec_mem {st : Stmt} (h : st.whole = false) (c : Words) :
    (st.exec c).mem = c.mem := by
  cases st with
  | set f v =>
      show (c.store line f v).mem = c.mem
      exact store_mem
  | dcwb p n =>
      have hn : n.toNat < CACHESIZE := by simpa [Stmt.whole] using h
      rw [Stmt.exec, if_pos hn]
  | dcwbinv p n =>
      have hn : n.toNat < L2CACHESIZE / 2 := by simpa [Stmt.whole] using h
      rw [Stmt.exec, if_pos hn]

theorem execs_mem (h : ∀ st ∈ prog, st.whole = false) (c : Words) :
    (prog.foldl Stmt.exec c).mem = c.mem := by
  induction prog generalizing c with
  | nil => rfl
  | cons st prog ih =>
      rw [List.foldl_cons, ih fun st hst => h st (List.mem_cons_of_mem _ hst)]
      exact exec_mem (h st List.mem_cons_self) c

def zeroed : Words where
  mem := fun _ => 0
  held := fun _ => 0
  present := fun _ => false
  dirty := fun _ => false
  written := fun _ => false
  tidy := fun _ h => Bool.noConfusion h

/-- The engine reads what was on the stack. -/
theorem not_fetches (hstatus : described prog .status = some Sdmaowned)
    (h : ∀ st ∈ prog, st.whole = false) : ¬ Fetches prog := by
  intro hall
  have hfetched : Reach step Free (Called prog) _ :=
    (fill_reach zeroed prog).next (a := .fetch) trivial rfl
  have hseen := hall _ _ hfetched rfl .status _ hstatus
  rw [execs_mem h] at hseen
  exact absurd hseen (by decide)

theorem stored_present {did : List Stmt} {f : Field} (hstored : described did f ≠ none)
    (hdropped : dropped did (line f) = false) (c : Words) :
    (did.foldl Stmt.exec c).present (line f) = true := by
  induction did using List.reverseRecOn with
  | nil => exact absurd rfl hstored
  | append_singleton did st ih =>
      rw [described_snoc] at hstored
      rw [dropped_snoc] at hdropped
      rw [List.foldl_concat]
      cases st with
      | set g v =>
          by_cases hline : line g = line f
          · rw [← hline]
            exact set_present g v
          · have hgf : g ≠ f := fun hgf => hline (congrArg line hgf)
            rw [Stmt.describe, if_neg hgf] at hstored
            rw [Stmt.drops, bne_iff_ne.2 hline, Bool.and_true] at hdropped
            rw [set_present_ne hline]
            exact ih hstored hdropped
      | dcwb p n =>
          have hpresent : ∀ c : Words, ((Stmt.dcwb p n).exec c).present = c.present := by
            intro c
            rw [Stmt.exec]
            split <;> rfl
          rw [hpresent]
          exact ih hstored hdropped
      | dcwbinv p n =>
          rw [Stmt.drops, Bool.or_eq_false_iff, decide_eq_false_iff_not, Nat.not_le]
            at hdropped
          rw [Stmt.exec, if_pos hdropped.2]
          exact ih hstored hdropped.1

/-- The code finds the status exactly when it has invalidated its line behind the stores. -/
theorem passes_iff (hstatus : described prog .status = some Sdmaowned) :
    Passes prog ↔ dropped prog 0 = true := by
  constructor
  · intro hall
    by_contra hdropped
    have hstored : described prog .status ≠ none := by
      rw [hstatus]
      exact Option.some_ne_none _
    have hpresent : (prog.foldl Stmt.exec zeroed).present 0 = true :=
      stored_present hstored (Bool.eq_false_iff.2 hdropped) zeroed
    have hfetched : Reach step Free (Called prog) _ :=
      (fill_reach zeroed prog).next (a := .fetch) trivial rfl
    have hfinished : Reach step Free (Called prog) _ :=
      hfetched.next (a := .finish none) trivial rfl
    have hheld : Stored prog none _ := reach_inv hstatus hfinished
    have hload : ((finish (prog.foldl Stmt.exec zeroed) none).load line .status).1 ≠
        Ssuccess := by
      have hpresent' : (finish (prog.foldl Stmt.exec zeroed) none).present 0 = true :=
        hpresent
      show ((finish (prog.foldl Stmt.exec zeroed) none).fill line 0).held .status ≠ _
      rw [Cache.fill, if_pos hpresent', hheld.held hpresent']
      exact owned_ne
    refine hall _ (hfinished.next (a := .check) trivial rfl) ?_
    exact if_neg hload
  · intro hdropped s h hfailed
    have hinv := reach_inv hstatus h
    unfold Inv at hinv
    rw [hfailed] at hinv
    rw [hdropped] at hinv
    cases hinv

theorem mem_of_described {f : Field} {v : Word} (h : described prog f = some v) :
    Stmt.set f v ∈ prog := by
  induction prog using List.reverseRecOn with
  | nil => cases h
  | append_singleton did st ih =>
      rw [described_snoc] at h
      cases st with
      | set g w =>
          rw [Stmt.describe] at h
          by_cases hgf : g = f
          · rw [if_pos hgf] at h
            cases h
            exact List.mem_append_right _ (hgf ▸ List.mem_singleton_self _)
          · rw [if_neg hgf] at h
            exact List.mem_append_left _ (ih h)
      | dcwb p n => exact List.mem_append_left _ (ih h)
      | dcwbinv p n => exact List.mem_append_left _ (ih h)

/-- A `Descr`. -/
theorem fetches_first (hstatus : described prog .status = some Sdmaowned)
    (hline : ∀ f v, Stmt.set f v ∈ prog → line f = 0) (hcleaned : cleaned prog 0 = true) :
    Fetches prog := by
  refine fetches hstatus fun f v hv => ?_
  rw [hline f v (mem_of_described hv)]
  exact ⟨by decide, hcleaned⟩

end

/-! ### The sources of `xordma` -/

section
variable {n : Word} {src : List Word}

theorem mem_sources {i : Nat} {f : Field} {v : Word}
    (h : Stmt.set f v ∈ sources n i src) : ∃ j < i + src.length, f = .src j := by
  induction src generalizing i with
  | nil => cases h
  | cons p src ih =>
      rw [sources, List.mem_cons, List.mem_cons] at h
      rcases h with h | h | h
      · cases h
        exact ⟨i, by simp, rfl⟩
      · cases h
      · obtain ⟨j, hj, rfl⟩ := ih h
        exact ⟨j, by rw [List.length_cons]; omega, rfl⟩

theorem sources_describe (i : Nat) (d : Option Word) :
    (sources n i src).foldl (Stmt.describe .status) d = d := by
  induction src generalizing i with
  | nil => rfl
  | cons p src ih => exact ih (i + 1)

theorem sources_whole (hn : n.toNat < CACHESIZE) (i : Nat) :
    ∀ st ∈ sources n i src, st.whole = false := by
  induction src generalizing i with
  | nil => exact fun _ h => absurd h List.not_mem_nil
  | cons p src ih =>
      intro st hst
      rw [sources, List.mem_cons, List.mem_cons] at hst
      rcases hst with rfl | rfl | hst
      · rfl
      · exact decide_eq_false (Nat.not_le.2 hn)
      · exact ih (i + 1) st hst

theorem sources_cleaned (hn : CACHESIZE ≤ n.toNat) (l i : Nat) (b : Bool)
    (hb : src = [] → b = true) : (sources n i src).foldl (Stmt.cleans l) b = true := by
  induction src generalizing i b with
  | nil => exact hb rfl
  | cons p src ih =>
      rw [sources, List.foldl_cons, List.foldl_cons]
      refine ih (i + 1) _ fun _ => ?_
      show (_ || decide (CACHESIZE ≤ n.toNat)) = true
      rw [decide_eq_true hn, Bool.or_true]

theorem sources_dropped (l i : Nat) :
    (sources n i src).foldl (Stmt.drops l) false = false := by
  induction src generalizing i with
  | nil => rfl
  | cons p src ih => exact ih (i + 1)

end

/-! ### The three functions -/

section
variable {n : Word} {prog : List Stmt}

theorem huge_ok {who : String} {l : List Stmt} (h : huge n who l = .ok prog) :
    prog = l := by
  unfold huge at h
  split at h
  · cases h
  · exact (Except.ok.inj h).symm

theorem sizes : CACHESIZE ≤ L2CACHESIZE / 2 := by decide

theorem memdma_fetches {dst src : Word} (h : memdma dst src n = .ok prog) :
    Fetches prog ↔ CACHESIZE ≤ n.toNat := by
  obtain rfl := huge_ok h
  constructor
  · intro hall
    by_contra hn
    refine not_fetches rfl (fun st hst => ?_) hall
    have hl2 := sizes
    simp only [List.mem_cons, List.not_mem_nil, or_false] at hst
    rcases hst with rfl | rfl | rfl | rfl | rfl | rfl | rfl | rfl <;>
      simp only [Stmt.whole, decide_eq_false_iff_not]
    · exact hn
    · omega
  · intro hn
    refine fetches_first rfl (fun f v hf => ?_) ?_
    · simp only [List.mem_cons, Stmt.set.injEq, reduceCtorEq, List.not_mem_nil, or_false]
        at hf
      rcases hf with ⟨rfl, -⟩ | ⟨rfl, -⟩ | ⟨rfl, -⟩ | ⟨rfl, -⟩ | ⟨rfl, -⟩ | ⟨rfl, -⟩ <;> rfl
    · show (decide (CACHESIZE ≤ n.toNat) || decide (L2CACHESIZE / 2 ≤ n.toNat)) = true
      rw [decide_eq_true hn, Bool.true_or]

theorem crc32cdma_fetches {buf : Word} (h : crc32cdma buf n = .ok prog) :
    Fetches prog ↔ L2CACHESIZE / 2 ≤ n.toNat := by
  obtain rfl := huge_ok h
  constructor
  · intro hall
    by_contra hn
    refine not_fetches rfl (fun st hst => ?_) hall
    simp only [List.mem_cons, List.not_mem_nil, or_false] at hst
    rcases hst with rfl | rfl | rfl | rfl | rfl | rfl | rfl <;>
      simp only [Stmt.whole, decide_eq_false_iff_not]
    exact hn
  · intro hn
    refine fetches_first rfl (fun f v hf => ?_) (decide_eq_true hn)
    simp only [List.mem_cons, Stmt.set.injEq, reduceCtorEq, List.not_mem_nil, or_false]
      at hf
    rcases hf with ⟨rfl, -⟩ | ⟨rfl, -⟩ | ⟨rfl, -⟩ | ⟨rfl, -⟩ | ⟨rfl, -⟩ | ⟨rfl, -⟩ <;> rfl

theorem heading_status (dst : Word) (src : List Word) (n : Word) :
    described (heading dst src n ++ sources n 0 src) .status = some Sdmaowned := by
  rw [described, List.foldl_append, sources_describe]
  rfl

theorem xordma_fetches {dst : Word} {src : List Word} (hsrc : src.length ≤ 8)
    (h : xordma dst src n = .ok prog) :
    Fetches prog ↔
      if src = [] then L2CACHESIZE / 2 ≤ n.toNat else CACHESIZE ≤ n.toNat := by
  obtain rfl := huge_ok h
  have hstatus := heading_status dst src n
  have hl2 := sizes
  constructor
  · intro hall
    by_contra hn
    refine not_fetches hstatus (fun st hst => ?_) hall
    have hshort : n.toNat < L2CACHESIZE / 2 ∧ (src ≠ [] → n.toNat < CACHESIZE) := by
      split at hn
      · next hnil => exact ⟨Nat.not_le.1 hn, fun hne => absurd hnil hne⟩
      · exact ⟨by omega, fun _ => Nat.not_le.1 hn⟩
    rcases List.mem_append.1 hst with hst | hst
    · simp only [heading, List.mem_cons, List.not_mem_nil, or_false] at hst
      rcases hst with rfl | rfl | rfl | rfl | rfl | rfl <;>
        simp only [Stmt.whole, decide_eq_false_iff_not]
      exact Nat.not_le.2 hshort.1
    · refine sources_whole (hshort.2 ?_) 0 st hst
      rintro rfl
      cases hst
  · intro hn
    refine fetches hstatus fun f v hv => ?_
    have hcleaned : ∀ l, cleaned (heading dst src n ++ sources n 0 src) l = true := by
      intro l
      rw [cleaned, List.foldl_append]
      have hlong : CACHESIZE ≤ n.toNat := by
        split at hn <;> omega
      refine sources_cleaned hlong l 0 _ fun hnil => ?_
      rw [if_pos hnil] at hn
      exact decide_eq_true hn
    refine ⟨?_, hcleaned _⟩
    rcases List.mem_append.1 (mem_of_described hv) with hf | hf
    · simp only [heading, List.mem_cons, Stmt.set.injEq, reduceCtorEq, List.not_mem_nil,
        or_false] at hf
      rcases hf with ⟨rfl, -⟩ | ⟨rfl, -⟩ | ⟨rfl, -⟩ | ⟨rfl, -⟩ | ⟨rfl, -⟩ <;> decide
    · obtain ⟨j, hj, rfl⟩ := mem_sources hf
      show (6 + j) / 8 < 2
      omega

/-- **What the engine is given.** It reads the descriptor that was filled in, whatever the
cache does in between, exactly for buffers so long that the operation behind the last store
does the whole cache. -/
theorem described_iff (dst src buf n : Word) {srcs : List Word} (hsrcs : srcs.length ≤ 8) :
    (∀ prog, memdma dst src n = .ok prog → (Fetches prog ↔ CACHESIZE ≤ n.toNat)) ∧
      (∀ prog, crc32cdma buf n = .ok prog →
        (Fetches prog ↔ L2CACHESIZE / 2 ≤ n.toNat)) ∧
      ∀ prog, xordma dst srcs n = .ok prog → (Fetches prog ↔
        if srcs = [] then L2CACHESIZE / 2 ≤ n.toNat else CACHESIZE ≤ n.toNat) :=
  ⟨fun _ h => memdma_fetches h, fun _ h => crc32cdma_fetches h,
    fun _ h => xordma_fetches hsrcs h⟩

/-- A sector is copied by what is on the stack. -/
theorem described_sector :
    ∃ prog, memdma 0x2000 0x1000 512 = .ok prog ∧ ¬ Fetches prog := by
  have hnone : ([] : List Word).length ≤ 8 := Nat.zero_le 8
  obtain ⟨hmemdma, -, -⟩ := described_iff 0x2000 0x1000 0 512 hnone
  refine ⟨_, rfl, fun hall => ?_⟩
  exact absurd ((hmemdma _ rfl).1 hall) (by decide)

theorem xordma_passes {dst : Word} {src : List Word} (h : xordma dst src n = .ok prog) :
    Passes prog ↔ src = [] ∧ L2CACHESIZE / 2 ≤ n.toNat := by
  obtain rfl := huge_ok h
  rw [passes_iff (heading_status dst src n), dropped, List.foldl_append]
  cases src with
  | nil =>
      show decide (L2CACHESIZE / 2 ≤ n.toNat) = true ↔ _
      simp
  | cons p src =>
      -- the first source is in the line of the status
      have hfirst : ∀ b, (sources n 0 (p :: src)).foldl (Stmt.drops 0) b = false := by
        intro b
        have hset : Stmt.drops 0 b (.set (.src 0) p) = false := Bool.and_false b
        rw [sources, List.foldl_cons, hset]
        exact sources_dropped 0 1
      rw [hfirst]
      simp

/-- **The assertion behind the sleep** holds, whatever the cache does, exactly when the last
store in the line of the status is followed by an operation that invalidates the whole
cache; and the sum that is returned then is the one of the engine. -/
theorem asserted_iff (dst src buf n : Word) (srcs : List Word) :
    (∀ prog, memdma dst src n = .ok prog →
        (Passes prog ↔ L2CACHESIZE / 2 ≤ n.toNat)) ∧
      (∀ prog, crc32cdma buf n = .ok prog →
        (Passes prog ↔ L2CACHESIZE / 2 ≤ n.toNat) ∧ Sums prog) ∧
      ∀ prog, xordma dst srcs n = .ok prog →
        (Passes prog ↔ srcs = [] ∧ L2CACHESIZE / 2 ≤ n.toNat) := by
  refine ⟨fun prog h => ?_, fun prog h => ?_, fun prog h => xordma_passes h⟩
  · obtain rfl := huge_ok h
    exact (passes_iff rfl).trans decide_eq_true_iff
  · obtain rfl := huge_ok h
    exact ⟨(passes_iff rfl).trans decide_eq_true_iff, sums rfl⟩

/-- A sum over 4096 bytes may fail. -/
theorem asserted_page : ∃ prog, crc32cdma 0x1000 4096 = .ok prog ∧ ¬ Passes prog := by
  obtain ⟨-, hcrc32cdma, -⟩ := asserted_iff 0 0 0x1000 4096 []
  refine ⟨_, rfl, fun hall => ?_⟩
  exact absurd ((hcrc32cdma _ rfl).1.1 hall) (by decide)

end

end Kirkwood.Ports.XorDma
