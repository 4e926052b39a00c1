import Kirkwood.Verified.Hoare
import Mathlib.Algebra.Order.Group.Multiset

/-!
# Locks and error handlers

A process holds locks and has a stack of labels.  `waserror` pushes a label; `error` and
`nexterror` take the top one off and go on at its handler, `poperror` takes it off and
goes on.  A handler may return from the routine, raise again, or fall through into the
code that it guards.

A routine of another module is called by `call`: a script says what calls are to come,
and which of them raise an error.  While a process waits for a lock, others may change the
data.

Some of the calls of a script may be `Bad`.  A routine is `Calm` if it leaves locks and
labels as it found them, returning or raising; but where a bad call raises, locks may be
left behind.

## Main results

* `Calm.bind`, `Calm.forM`, `Calm.locked`, `Calm.owned`, `waserror_spec`: the rules for
  calm routines, with `Steady` for the code between handlers;
* `Calm.fair`: a calm routine that ends is balanced if and only if no bad call was made.
-/

namespace Kirkwood.Verified.Unwind

open Kirkwood.Verified.Hoare

/-- A process: the data it works on, the locks it holds, the locks it asked for with
those it held then, its labels and the number of the next one, the error raised last if
it has not been absorbed, the calls to come, and what others do to the data while it
waits for locks. -/
structure State (σ ι κ : Type) where
  data : σ
  held : Multiset ι
  asked : List (ι × Multiset ι)
  labels : List Nat
  fresh : Nat
  raised : Option String
  script : List (κ × Option String)
  others : List (σ → σ)

/-- The ways out of a routine other than its return: to a label; with the whole system
down; with a lock given back that was not held, or a label taken off an empty stack; by
a call that is not the next one of the script. -/
inductive Signal (ε : Type) where
  | jump (label : Nat)
  | stop (e : ε)
  | astray
  | offscript
  deriving DecidableEq, Repr

abbrev Proc (σ ι κ ε : Type) := EStateM (Signal ε) (State σ ι κ)

variable {σ ι κ ε α β : Type}

/-! ## The operations -/

/-- What the others have made of the data when the lock is there. -/
def State.later (s : State σ ι κ) : σ :=
  match s.others with
  | [] => s.data
  | f :: _ => f s.data

def lock (x : ι) : Proc σ ι κ ε Unit :=
  modify fun s => { s with
    data := s.later
    others := s.others.tail
    held := x ::ₘ s.held
    asked := (x, s.held) :: s.asked }

def unlock [DecidableEq ι] (x : ι) : Proc σ ι κ ε Unit := fun s =>
  if x ∈ s.held then .ok () { s with held := s.held.erase x } else .error .astray s

def nexterror : Proc σ ι κ ε α := fun s =>
  match s.labels with
  | [] => .error .astray s
  | l :: ls => .error (.jump l) { s with labels := ls }

def error (msg : String) : Proc σ ι κ ε α := fun s =>
  nexterror { s with raised := some msg }

def poperror : Proc σ ι κ ε Unit := fun s =>
  match s.labels with
  | [] => .error .astray s
  | _ :: ls => .ok () { s with labels := ls }

/-- The error is not passed on. -/
def absorb : Proc σ ι κ ε Unit :=
  modify fun s => { s with raised := none }

def call [DecidableEq κ] (site : κ) : Proc σ ι κ ε Unit := fun s =>
  match s.script with
  | [] => .error .offscript s
  | (site', out) :: rest =>
    if site' = site then
      match out with
      | none => .ok () { s with script := rest }
      | some msg => error msg { s with script := rest }
    else .error .offscript s

/-- A routine on the data alone, which may raise an error or bring the system down. -/
def lift {ε' : Type} (split : ε' → String ⊕ ε) (x : EStateM ε' σ α) : Proc σ ι κ ε α :=
  fun s =>
    match x s.data with
    | .ok a data => .ok a { s with data := data }
    | .error e data =>
      match split e with
      | .inl msg => error msg { s with data := data }
      | .inr e => .error (.stop e) { s with data := data }

/-- `if(waserror()) handler; body`, where a handler gives the result of the routine, or
nothing when it falls through. -/
def waserror (handler : Proc σ ι κ ε (Option α)) (body : Proc σ ι κ ε α) :
    Proc σ ι κ ε α := fun s =>
  match body { s with labels := s.fresh :: s.labels, fresh := s.fresh + 1 } with
  | .error (.jump l) s' =>
    if l = s.fresh then
      match handler s' with
      | .ok (some a) s'' => .ok a s''
      | .ok none s'' => body s''
      | .error e s'' => .error e s''
    else .error (.jump l) s'
  | out => out

/-- The code between the taking of a lock, with a handler that gives it back, and its
return. -/
def held [DecidableEq ι] (x : ι) (body : Proc σ ι κ ε α) : Proc σ ι κ ε α :=
  waserror
    (do
      unlock x
      nexterror)
    (do
      let a ← body
      poperror
      unlock x
      pure a)

def locked [DecidableEq ι] (x : ι) (body : Proc σ ι κ ε α) : Proc σ ι κ ε α := do
  lock x
  held x body

/-- Code with a handler that makes a call to clean up, and raises again. -/
def owned [DecidableEq κ] (site : κ) (body : Proc σ ι κ ε α) : Proc σ ι κ ε α :=
  waserror
    (do
      call site
      nexterror)
    (do
      let a ← body
      poperror
      pure a)

/-! ## How a routine may end -/

/-- A way out that is no end of the routine. -/
def Down : Signal ε → Prop
  | .stop _ | .offscript => True
  | .jump _ | .astray => False

instance (sig : Signal ε) : Decidable (Down sig) :=
  match sig with
  | .stop _ | .offscript => isTrue trivial
  | .jump _ | .astray => isFalse id

/-- The routine has come to an end. -/
def Ended : EStateM.Result (Signal ε) (State σ ι κ) α → Prop
  | .ok _ _ => True
  | .error e _ => ¬ Down e

instance (r : EStateM.Result (Signal ε) (State σ ι κ) α) : Decidable (Ended r) :=
  match r with
  | .ok _ _ => isTrue trivial
  | .error e _ => inferInstanceAs (Decidable (¬ Down e))

def final : EStateM.Result (Signal ε) (State σ ι κ) α → State σ ι κ
  | .ok _ s => s
  | .error _ s => s

/-- The locks held are those held before.  A routine that returns has left the labels,
and has no error to pass on; one that raises an error has gone on at the label that was
the top one. -/
def Balanced (l : Nat) (L : List Nat) (H : Multiset ι) :
    EStateM.Result (Signal ε) (State σ ι κ) α → Prop
  | .ok _ s => s.labels = l :: L ∧ s.held = H ∧ s.raised = none
  | .error e s => e = .jump l ∧ s.labels = L ∧ s.held = H ∧ s.raised ≠ none

instance [DecidableEq ι] [DecidableEq ε] (l : Nat) (L : List Nat) (H : Multiset ι)
    (r : EStateM.Result (Signal ε) (State σ ι κ) α) : Decidable (Balanced l L H r) :=
  match r with
  | .ok _ s => inferInstanceAs
      (Decidable (s.labels = l :: L ∧ s.held = H ∧ s.raised = none))
  | .error e s => inferInstanceAs
      (Decidable (e = .jump l ∧ s.labels = L ∧ s.held = H ∧ s.raised ≠ none))

section
variable (Bad : κ × Option String → Prop)

/-- Of the script `S`, no bad call has been made. -/
def Clean (S : List (κ × Option String)) (s : State σ ι κ) : Prop :=
  ∃ c, S = c ++ s.script ∧ ∀ e ∈ c, ¬ Bad e

def Dirty (S : List (κ × Option String)) (s : State σ ι κ) : Prop :=
  ∃ c, S = c ++ s.script ∧ ∃ e ∈ c, Bad e

/-- Between two operations: the labels and the locks, no error and no bad call. -/
structure At (S : List (κ × Option String)) (L : List Nat) (H : Multiset ι)
    (s : State σ ι κ) : Prop where
  labels : s.labels = L
  fresh : ∀ l ∈ L, l < s.fresh
  held : s.held = H
  raised : s.raised = none
  clean : Clean Bad S s

/-- On the way to a handler.  If routines may leak, locks are left behind exactly where
there was a bad call, and else there was none. -/
structure Gone (leak : Bool) (S : List (κ × Option String)) (L : List Nat)
    (H : Multiset ι) (s : State σ ι κ) : Prop where
  labels : s.labels = L
  fresh : ∀ l ∈ L, l < s.fresh
  raised : s.raised ≠ none
  held : ∃ E, s.held = E + H ∧
    (E = 0 ∧ Clean Bad S s ∨ leak = true ∧ E ≠ 0 ∧ Dirty Bad S s)

/-- A way out to the label `l`, if it is one. -/
def Left (leak : Bool) (S : List (κ × Option String)) (l : Nat) (L : List Nat)
    (H : Multiset ι) (sig : Signal ε) (s : State σ ι κ) : Prop :=
  Down sig ∨ sig = .jump l ∧ Gone Bad leak S L H s

/-- Locks and labels are left as they were found. -/
def Calm (leak : Bool) (x : Proc σ ι κ ε α) : Prop :=
  ∀ S l L H, Triple (At Bad S (l :: L) H) x (fun _ => At Bad S (l :: L) H)
    (Left Bad leak S l L H)

/-- The calls made from `s` to `s'`, all of which are harmless. -/
def Harmless (s s' : State σ ι κ) : Prop :=
  ∃ c, s.script = c ++ s'.script ∧ ∀ e ∈ c, ¬ Bad e

/-- From `s` nothing but the label of an error is gone, and nothing is new. -/
def Straight (s : State σ ι κ) : EStateM.Result (Signal ε) (State σ ι κ) α → Prop
  | .ok _ s' => s'.labels = s.labels ∧ s'.fresh = s.fresh ∧ s'.held = s.held ∧
      s'.raised = s.raised ∧ Harmless Bad s s'
  | .error (.jump l) s' => s.labels = l :: s'.labels ∧ s'.fresh = s.fresh ∧
      s'.held = s.held ∧ s'.raised ≠ none ∧ Harmless Bad s s'
  | .error .astray s' => s.labels = [] ∧ s'.held = s.held ∧ Harmless Bad s s'
  | .error _ _ => True

/-- Code that takes and gives back no locks or labels, but for the label of an error. -/
def Steady (x : Proc σ ι κ ε α) : Prop :=
  ∀ s, Straight Bad s (x s)

/-! ## Code between handlers -/

variable {Bad}
variable {x : Proc σ ι κ ε α} {f : α → Proc σ ι κ ε β}

theorem Harmless.refl (s : State σ ι κ) : Harmless Bad s s :=
  ⟨[], rfl, nofun⟩

theorem Clean.made {S : List (κ × Option String)} {s s' : State σ ι κ}
    (h : Clean Bad S s) (hmade : Harmless Bad s s') : Clean Bad S s' := by
  obtain ⟨c, hc, hgood⟩ := h
  obtain ⟨d, hd, hgood'⟩ := hmade
  refine ⟨c ++ d, by rw [hc, hd, List.append_assoc], fun e he => ?_⟩
  obtain he | he := List.mem_append.1 he
  · exact hgood e he
  · exact hgood' e he

/-- The calls from one state to another are a script of their own. -/
theorem Harmless.trans {s t u : State σ ι κ} (hst : Harmless Bad s t)
    (htu : Harmless Bad t u) : Harmless Bad s u :=
  Clean.made hst htu

theorem Steady.pure (a : α) : Steady Bad (Pure.pure a : Proc σ ι κ ε α) :=
  fun s => ⟨rfl, rfl, rfl, rfl, .refl s⟩

theorem Steady.bind (hx : Steady Bad x) (hf : ∀ a, Steady Bad (f a)) :
    Steady Bad (x >>= f) := by
  intro s
  have hfirst := hx s
  cases hrun : x s with
  | ok a s' =>
      rw [hrun] at hfirst
      obtain ⟨hlabels, hfresh, hheld, hraised, hscript⟩ := hfirst
      have hsecond := hf a s'
      rw [bind_ok hrun]
      cases hrun' : f a s' with
      | ok b s'' =>
          rw [hrun'] at hsecond
          obtain ⟨hlabels', hfresh', hheld', hraised', hscript'⟩ := hsecond
          exact ⟨hlabels'.trans hlabels, hfresh'.trans hfresh, hheld'.trans hheld,
            hraised'.trans hraised, hscript.trans hscript'⟩
      | error e s'' =>
          rw [hrun'] at hsecond
          cases e with
          | jump l =>
              obtain ⟨hlabels', hfresh', hheld', hraised', hscript'⟩ := hsecond
              exact ⟨hlabels.symm.trans hlabels', hfresh'.trans hfresh, hheld'.trans hheld,
                hraised', hscript.trans hscript'⟩
          | astray =>
              obtain ⟨hlabels', hheld', hscript'⟩ := hsecond
              exact ⟨hlabels.symm.trans hlabels', hheld'.trans hheld,
                hscript.trans hscript'⟩
          | stop e => trivial
          | offscript => trivial
  | error e s' =>
      rw [hrun] at hfirst
      rw [bind_error hrun]
      cases e with
      | jump l => exact hfirst
      | astray => exact hfirst
      | stop e => trivial
      | offscript => trivial

theorem Steady.ite {c : Prop} [Decidable c] {y : Proc σ ι κ ε α}
    (hx : c → Steady Bad x) (hy : ¬ c → Steady Bad y) :
    Steady Bad (if c then x else y) := by
  by_cases hc : c
  · rw [if_pos hc]
    exact hx hc
  · rw [if_neg hc]
    exact hy hc

/-- An error is raised once some calls have been made. -/
private theorem error_steady {s s' : State σ ι κ} (msg : String)
    (hlabels : s'.labels = s.labels) (hfresh : s'.fresh = s.fresh)
    (hheld : s'.held = s.held) (hscript : Harmless Bad s s') :
    Straight Bad s (error msg s' : EStateM.Result (Signal ε) (State σ ι κ) α) := by
  unfold error nexterror
  cases hl : s'.labels with
  | nil =>
      exact ⟨hlabels.symm.trans hl, hheld, hscript⟩
  | cons l ls =>
      exact ⟨hlabels.symm.trans hl, hfresh, hheld, nofun, hscript⟩

theorem Steady.error (msg : String) : Steady Bad (error msg : Proc σ ι κ ε α) :=
  fun s => error_steady msg rfl rfl rfl (.refl s)

theorem Steady.stop (e : ε) : Steady Bad (throw (.stop e) : Proc σ ι κ ε α) :=
  fun _ => trivial

theorem Steady.lift {ε' : Type} (split : ε' → String ⊕ ε) (x : EStateM ε' σ α) :
    Steady Bad (lift split x : Proc σ ι κ ε α) := by
  intro s
  unfold Unwind.lift
  cases x s.data with
  | ok a data => exact ⟨rfl, rfl, rfl, rfl, .refl s⟩
  | error e data =>
      simp only
      cases split e with
      | inl msg => exact error_steady msg rfl rfl rfl (.refl s)
      | inr e => trivial

/-- What a call may do. -/
theorem call_cases [DecidableEq κ] (site : κ) (s : State σ ι κ) :
    (call site s : EStateM.Result (Signal ε) _ _) = .error .offscript s ∨
    ∃ rest, (s.script = (site, none) :: rest ∧
        (call site s : EStateM.Result (Signal ε) _ _) = .ok () { s with script := rest }) ∨
      ∃ msg, s.script = (site, some msg) :: rest ∧
        (call site s : EStateM.Result (Signal ε) _ _) =
          error msg { s with script := rest } := by
  unfold call
  cases hscript : s.script with
  | nil => exact .inl rfl
  | cons e rest =>
      obtain ⟨site', out⟩ := e
      by_cases hsite : site' = site
      · subst hsite
        simp only [if_true]
        cases out with
        | none => exact .inr ⟨rest, .inl ⟨rfl, rfl⟩⟩
        | some msg => exact .inr ⟨rest, .inr ⟨msg, rfl, rfl⟩⟩
      · simp only [if_neg hsite]
        exact .inl trivial

theorem Steady.call [DecidableEq κ] {site : κ} (h : ∀ out, ¬ Bad (site, out)) :
    Steady Bad (call site : Proc σ ι κ ε Unit) := by
  intro s
  have hmade : ∀ (out : Option String) (s' : State σ ι κ),
      s.script = (site, out) :: s'.script → Harmless Bad s s' := by
    intro out s' hs'
    refine ⟨[(site, out)], hs', fun e he => ?_⟩
    rw [List.mem_singleton.1 he]
    exact h out
  obtain hcall | ⟨rest, ⟨hscript, hcall⟩ | ⟨msg, hscript, hcall⟩⟩ := call_cases site s
  · rw [hcall]
    trivial
  · rw [hcall]
    exact ⟨rfl, rfl, rfl, rfl, hmade none _ hscript⟩
  · rw [hcall]
    exact error_steady msg rfl rfl rfl (hmade (some msg) _ hscript)

theorem Steady.forM {γ : Type} {g : γ → Proc σ ι κ ε PUnit} (l : List γ)
    (hg : ∀ c, Steady Bad (g c)) : Steady Bad (forM l g) := by
  induction l with
  | nil => exact .pure _
  | cons c l ih => exact (hg c).bind fun _ => ih

/-! ## Calm routines -/

variable {leak : Bool} {S : List (κ × Option String)} {L : List Nat} {H : Multiset ι}

theorem Steady.calm (h : Steady Bad x) : Calm Bad leak x := by
  intro S l L H s hs
  have hrun := h s
  cases hx : x s with
  | ok a s' =>
      rw [hx] at hrun
      obtain ⟨hlabels, hfresh, hheld, hraised, hscript⟩ := hrun
      exact ⟨hlabels.trans hs.labels, fun l hl => hfresh ▸ hs.fresh l hl,
        hheld.trans hs.held, hraised.trans hs.raised, hs.clean.made hscript⟩
  | error e s' =>
      rw [hx] at hrun
      cases e with
      | jump l' =>
          obtain ⟨hlabels, hfresh, hheld, hraised, hscript⟩ := hrun
          obtain ⟨rfl, hrest⟩ := List.cons.inj (hlabels.symm.trans hs.labels)
          refine .inr ⟨rfl, hrest, fun l hl => ?_, hraised, 0, ?_, .inl ⟨rfl, ?_⟩⟩
          · exact hfresh ▸ hs.fresh l (List.mem_cons_of_mem _ hl)
          · rw [hheld, hs.held, zero_add]
          · exact hs.clean.made hscript
      | astray =>
          have hnil : l :: L = [] := hs.labels.symm.trans hrun.1
          exact absurd hnil (List.cons_ne_nil l L)
      | stop e => exact .inl trivial
      | offscript => exact .inl trivial

theorem Calm.bind (hx : Calm Bad leak x) (hf : ∀ a, Calm Bad leak (f a)) :
    Calm Bad leak (x >>= f) :=
  fun S l L H => (hx S l L H).bind fun a => hf a S l L H

theorem Calm.ite {c : Prop} [Decidable c] {y : Proc σ ι κ ε α}
    (hx : c → Calm Bad leak x) (hy : ¬ c → Calm Bad leak y) :
    Calm Bad leak (if c then x else y) :=
  fun S l L H => Triple.ite (fun hc => hx hc S l L H) fun hc => hy hc S l L H

theorem Calm.forM {γ : Type} {g : γ → Proc σ ι κ ε PUnit} (l : List γ)
    (hg : ∀ c, Calm Bad leak (g c)) : Calm Bad leak (forM l g) := by
  induction l with
  | nil => exact (Steady.pure _).calm
  | cons c l ih => exact (hg c).bind fun _ => ih

theorem Left.loose {l : Nat} {sig : Signal ε} {s : State σ ι κ}
    (h : Left Bad false S l L H sig s) : Left Bad leak S l L H sig s := by
  obtain hdown | ⟨hjump, hlabels, hfresh, hraised, E, hE, hclean⟩ := h
  · exact .inl hdown
  · refine .inr ⟨hjump, hlabels, hfresh, hraised, E, hE, .inl ?_⟩
    exact hclean.resolve_right fun h => Bool.false_ne_true h.1

/-- A routine that leaves nothing behind is one that may. -/
theorem Calm.loose (h : Calm Bad false x) : Calm Bad leak x :=
  fun S l L H => (h S l L H).weaken fun _ _ hleft => hleft.loose

theorem lock_spec (x : ι) {R : Signal ε → State σ ι κ → Prop} :
    Triple (At Bad S L H) (lock x) (fun _ => At Bad S L (x ::ₘ H)) R := by
  intro s hs
  exact ⟨hs.labels, hs.fresh, congrArg (x ::ₘ ·) hs.held, hs.raised, hs.clean⟩

theorem unlock_spec [DecidableEq ι] (x : ι) {H' : Multiset ι} (h : H = x ::ₘ H')
    {R : Signal ε → State σ ι κ → Prop} :
    Triple (At Bad S L H) (unlock x) (fun _ => At Bad S L H') R := by
  intro s hs
  have hheld : s.held = x ::ₘ H' := hs.held.trans h
  have hmem : x ∈ s.held := hheld ▸ Multiset.mem_cons_self x H'
  unfold unlock
  rw [if_pos hmem, hheld]
  exact ⟨hs.labels, hs.fresh, Multiset.erase_cons_head x H', hs.raised, hs.clean⟩

theorem poperror_spec {l : Nat} {R : Signal ε → State σ ι κ → Prop} :
    Triple (At Bad S (l :: L) H) poperror (fun _ => At Bad S L H) R := by
  intro s hs
  unfold poperror
  rw [hs.labels]
  exact ⟨rfl, fun l hl => hs.fresh l (List.mem_cons_of_mem _ hl), hs.held, hs.raised,
    hs.clean⟩

theorem error_spec (msg : String) {l : Nat} {Q : α → State σ ι κ → Prop} :
    Triple (At Bad S (l :: L) H) (error msg : Proc σ ι κ ε α) Q
      (Left Bad leak S l L H) := by
  intro s hs
  unfold error nexterror
  simp only [hs.labels]
  exact .inr ⟨rfl, rfl, fun l hl => hs.fresh l (List.mem_cons_of_mem _ hl), nofun, 0,
    hs.held.trans (zero_add H).symm, .inl ⟨rfl, hs.clean⟩⟩

/-- What is raised to the label of the handler is handled, with the code again where it
falls through; what is raised to others is not. -/
theorem waserror_rule {handler : Proc σ ι κ ε (Option α)} {body : Proc σ ι κ ε α}
    {Q : α → State σ ι κ → Prop} {R : Signal ε → State σ ι κ → Prop}
    {G F : State σ ι κ → Prop}
    (hbody : ∀ l, (∀ l' ∈ L, l' ≠ l) → Triple (At Bad S (l :: L) H) body Q
      fun sig s => sig = .jump l ∧ G s ∨ sig ≠ .jump l ∧ R sig s)
    (hhandler : Triple G handler
      (fun r s => (∃ a, r = some a ∧ Q a s) ∨ r = none ∧ F s) R)
    (hagain : Triple F body Q R) :
    Triple (At Bad S L H) (waserror handler body) Q R := by
  intro s hs
  have hpushed : At Bad S (s.fresh :: L) H
      { s with labels := s.fresh :: s.labels, fresh := s.fresh + 1 } := by
    refine ⟨congrArg (s.fresh :: ·) hs.labels, fun l hl => ?_, hs.held, hs.raised, hs.clean⟩
    obtain rfl | hl := List.mem_cons.1 hl
    · exact Nat.lt_succ_self _
    · exact Nat.lt_succ_of_lt (hs.fresh l hl)
  have hrun := hbody s.fresh (fun l hl => Nat.ne_of_lt (hs.fresh l hl)) _ hpushed
  unfold waserror
  generalize body { s with labels := s.fresh :: s.labels, fresh := s.fresh + 1 } = out
    at hrun
  cases out with
  | ok a s' => exact hrun
  | error e s' =>
      obtain ⟨rfl, hG⟩ | ⟨hne, hR⟩ := hrun
      · simp only [if_true]
        have hhandled := hhandler s' hG
        generalize handler s' = out at hhandled
        cases out with
        | ok r s'' =>
            obtain ⟨a, rfl, hQ⟩ | ⟨rfl, hF⟩ := hhandled
            · exact hQ
            · exact hagain s'' hF
        | error e s'' => exact hhandled
      · cases e with
        | jump l =>
            have hl : l ≠ s.fresh := fun heq => hne (congrArg Signal.jump heq)
            simp only [if_neg hl]
            exact hR
        | stop e => exact hR
        | astray => exact hR
        | offscript => exact hR

theorem Down.ne_jump {sig : Signal ε} (h : Down sig) (l : Nat) : sig ≠ .jump l := by
  rintro rfl
  exact h

/-- A handler that does not fall through. -/
theorem waserror_spec {handler : Proc σ ι κ ε (Option α)} {body : Proc σ ι κ ε α}
    {Q : α → State σ ι κ → Prop} {R : Signal ε → State σ ι κ → Prop}
    (hbody : ∀ l, Triple (At Bad S (l :: L) H) body Q (Left Bad leak S l L H))
    (hhandler : Triple (Gone Bad leak S L H) handler
      (fun r s => ∃ a, r = some a ∧ Q a s) R)
    (hdown : ∀ sig s, Down sig → R sig s) :
    Triple (At Bad S L H) (waserror handler body) Q R := by
  refine waserror_rule (fun l _ => (hbody l).weaken fun sig s hleft => ?_)
    (hhandler.conseq (fun _ h => h) fun r s h => .inl h) (fun _ h => False.elim h)
  exact hleft.symm.imp id fun hd => ⟨hd.ne_jump l, hdown sig s hd⟩

/-! ## Handlers -/

theorem nexterror_spec {l : Nat} {Q : α → State σ ι κ → Prop} :
    Triple (Gone Bad leak S (l :: L) H) (nexterror : Proc σ ι κ ε α) Q
      (Left Bad leak S l L H) := by
  intro s hs
  unfold nexterror
  rw [hs.labels]
  exact .inr ⟨rfl, rfl, fun l hl => hs.fresh l (List.mem_cons_of_mem _ hl), hs.raised,
    hs.held⟩

theorem Dirty.made {s s' : State σ ι κ} (h : Dirty Bad S s) (hmade : Harmless Bad s s') :
    Dirty Bad S s' := by
  obtain ⟨c, hc, e, he, hbad⟩ := h
  obtain ⟨d, hd, -⟩ := hmade
  exact ⟨c ++ d, by rw [hc, hd, List.append_assoc], e, List.mem_append_left d he, hbad⟩

/-- Harmless calls on the way to the next handler. -/
theorem Steady.gone (h : Steady Bad x) {l : Nat} :
    Triple (Gone Bad leak S (l :: L) H) x (fun _ => Gone Bad leak S (l :: L) H)
      (Left Bad leak S l L H) := by
  intro s hs
  have hrun := h s
  obtain ⟨E, hE, hleft⟩ := hs.held
  have hleft' : ∀ s' : State σ ι κ, Harmless Bad s s' →
      (E = 0 ∧ Clean Bad S s' ∨ leak = true ∧ E ≠ 0 ∧ Dirty Bad S s') := by
    intro s' hmade
    obtain ⟨hzero, hclean⟩ | ⟨hleak, hne, hdirty⟩ := hleft
    · exact .inl ⟨hzero, hclean.made hmade⟩
    · exact .inr ⟨hleak, hne, hdirty.made hmade⟩
  cases hx : x s with
  | ok a s' =>
      rw [hx] at hrun
      obtain ⟨hlabels, hfresh, hheld, hraised, hmade⟩ := hrun
      exact ⟨hlabels.trans hs.labels, fun l hl => hfresh ▸ hs.fresh l hl,
        hraised ▸ hs.raised, E, hheld.trans hE, hleft' s' hmade⟩
  | error e s' =>
      rw [hx] at hrun
      cases e with
      | jump l' =>
          obtain ⟨hlabels, hfresh, hheld, hraised, hmade⟩ := hrun
          obtain ⟨rfl, hrest⟩ := List.cons.inj (hlabels.symm.trans hs.labels)
          refine .inr ⟨rfl, hrest, fun l hl => ?_, hraised, E, hheld.trans hE,
            hleft' s' hmade⟩
          exact hfresh ▸ hs.fresh l (List.mem_cons_of_mem _ hl)
      | astray =>
          have hnil : l :: L = [] := hs.labels.symm.trans hrun.1
          exact absurd hnil (List.cons_ne_nil l L)
      | stop e => exact .inl trivial
      | offscript => exact .inl trivial

/-- A lock given back on the way leaves behind what was left behind before. -/
theorem unlock_gone [DecidableEq ι] (x : ι) {R : Signal ε → State σ ι κ → Prop} :
    Triple (Gone Bad leak S L (x ::ₘ H)) (unlock x : Proc σ ι κ ε Unit)
      (fun _ => Gone Bad leak S L H) R := by
  intro s hs
  obtain ⟨E, hheld, hleft⟩ := hs.held
  have hcons : s.held = x ::ₘ (E + H) := by
    rw [hheld, Multiset.add_cons]
  have hmem : x ∈ s.held := hcons ▸ Multiset.mem_cons_self x _
  unfold unlock
  rw [if_pos hmem, hcons, Multiset.erase_cons_head]
  exact ⟨hs.labels, hs.fresh, hs.raised, E, rfl, hleft⟩

/-- The error is not passed on, and nothing was left behind. -/
theorem absorb_spec {R : Signal ε → State σ ι κ → Prop} :
    Triple (Gone Bad false S L H) (absorb : Proc σ ι κ ε Unit)
      (fun _ => At Bad S L H) R := by
  intro s hs
  obtain ⟨E, hheld, hleft⟩ := hs.held
  obtain ⟨rfl, hclean⟩ := hleft.resolve_right fun h => Bool.false_ne_true h.1
  exact ⟨hs.labels, hs.fresh, hheld.trans (zero_add H), rfl, hclean⟩

theorem down_left {l : Nat} (sig : Signal ε) (s : State σ ι κ) (h : Down sig) :
    Left Bad leak S l L H sig s :=
  .inl h

/-- A call that is bad where it raises, made with a lock that no handler gives back. -/
theorem call_leaks [DecidableEq κ] {site : κ} (lk : ι) (hgood : ¬ Bad (site, none))
    (hbad : ∀ msg, Bad (site, some msg)) {l : Nat} :
    Triple (At Bad S (l :: L) (lk ::ₘ H)) (call site : Proc σ ι κ ε Unit)
      (fun _ => At Bad S (l :: L) (lk ::ₘ H)) (Left Bad true S l L H) := by
  intro s hs
  obtain ⟨c, hc, hmade⟩ := hs.clean
  obtain hcall | ⟨rest, ⟨hscript, hcall⟩ | ⟨msg, hscript, hcall⟩⟩ := call_cases site s
  · rw [hcall]
    exact .inl trivial
  · rw [hcall]
    have hnext : S = (c ++ [(site, none)]) ++ rest := by
      rw [hc, hscript, List.append_assoc]
      rfl
    refine ⟨hs.labels, hs.fresh, hs.held, hs.raised, _, hnext, fun e he => ?_⟩
    obtain he | he := List.mem_append.1 he
    · exact hmade e he
    · rw [List.mem_singleton.1 he]
      exact hgood
  · have hnext : S = (c ++ [(site, some msg)]) ++ rest := by
      rw [hc, hscript, List.append_assoc]
      rfl
    rw [hcall]
    unfold error nexterror
    simp only [hs.labels]
    refine .inr ⟨rfl, rfl, fun l hl => hs.fresh l (List.mem_cons_of_mem _ hl), nofun,
      {lk}, hs.held, .inr ⟨rfl, Multiset.singleton_ne_zero lk, _, hnext, _, ?_, hbad msg⟩⟩
    exact List.mem_append_right c (List.mem_singleton_self _)

/-! ## Guarded code -/

theorem Calm.held [DecidableEq ι] (lk : ι) (h : Calm Bad leak x) {l : Nat} :
    Triple (At Bad S (l :: L) (lk ::ₘ H)) (held lk x) (fun _ => At Bad S (l :: L) H)
      (Left Bad leak S l L H) := by
  have hbody : ∀ l', Triple (At Bad S (l' :: l :: L) (lk ::ₘ H))
      (do
        let a ← x
        poperror
        unlock lk
        pure a)
      (fun _ => At Bad S (l :: L) H) (Left Bad leak S l' (l :: L) (lk ::ₘ H)) := by
    intro l'
    refine (h S l' (l :: L) (lk ::ₘ H)).bind fun a => ?_
    exact poperror_spec.bind fun _ => (unlock_spec lk rfl).bind fun _ =>
      Triple.pure fun _ hs => hs
  exact waserror_spec hbody ((unlock_gone lk).bind fun _ => nexterror_spec) down_left

theorem Calm.locked [DecidableEq ι] (lk : ι) (h : Calm Bad leak x) :
    Calm Bad leak (locked lk x) :=
  fun _ _ _ _ => (lock_spec lk).bind fun _ => h.held lk

theorem Calm.owned [DecidableEq κ] {site : κ} (hsite : ∀ out, ¬ Bad (site, out))
    (h : Calm Bad leak x) : Calm Bad leak (owned site x) := by
  intro S l L H
  have hbody : ∀ l', Triple (At Bad S (l' :: l :: L) H)
      (do
        let a ← x
        poperror
        pure a)
      (fun _ => At Bad S (l :: L) H) (Left Bad leak S l' (l :: L) H) := by
    intro l'
    refine (h S l' (l :: L) H).bind fun a => ?_
    exact poperror_spec.bind fun _ => Triple.pure fun _ hs => hs
  refine waserror_spec hbody ?_ down_left
  exact (Steady.call hsite).gone.bind fun _ => nexterror_spec

/-! ## Balance -/

theorem not_clean_of_dirty {s : State σ ι κ} (h : Dirty Bad S s) : ¬ Clean Bad S s := by
  rintro ⟨c, hc, hgood⟩
  obtain ⟨d, hd, e, he, hbad⟩ := h
  obtain rfl : c = d := List.append_cancel_right (hc.symm.trans hd)
  exact hgood e he hbad

/-- A way out is balanced, unless a bad call was made. -/
theorem Left.fair {l : Nat} {sig : Signal ε} {s : State σ ι κ}
    (h : Left Bad true S l L H sig s)
    (hend : Ended (.error sig s : EStateM.Result (Signal ε) (State σ ι κ) α)) :
    Balanced l L H (.error sig s : EStateM.Result (Signal ε) (State σ ι κ) α) ↔
      Clean Bad S s := by
  obtain ⟨rfl, hgone⟩ := h.resolve_left hend
  obtain ⟨E, hheld, ⟨rfl, hclean⟩ | ⟨-, hne, hdirty⟩⟩ := hgone.held
  · exact iff_of_true ⟨rfl, hgone.labels, hheld.trans (zero_add H), hgone.raised⟩ hclean
  · refine iff_of_false ?_ (not_clean_of_dirty hdirty)
    rintro ⟨-, -, heq, -⟩
    have hsum : E + H = 0 + H := by rw [← hheld, heq, zero_add]
    exact hne (add_right_cancel hsum)

/-- Calm code is balanced, unless a bad call was made. -/
theorem Calm.fair (h : Calm Bad true x) {l : Nat} {s : State σ ι κ}
    (hs : At Bad S (l :: L) H s) (hend : Ended (x s)) :
    Balanced l L H (x s) ↔ Clean Bad S (final (x s)) := by
  have hrun := h S l L H s hs
  cases hx : x s with
  | ok a s' =>
      rw [hx] at hrun
      exact iff_of_true ⟨hrun.labels, hrun.held, hrun.raised⟩ hrun.clean
  | error e s' =>
      rw [hx] at hrun hend
      exact hrun.fair hend

end

end Kirkwood.Verified.Unwind
