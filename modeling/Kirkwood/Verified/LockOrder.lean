import Kirkwood.Verified.Unwind

/-!
# The order of locks

A rule says which locks may be asked for with which locks held.  A routine keeps to the
rule if all that it asks for is allowed, whether it returns or raises; on its way out
through handlers it only gives locks back.  What others do to the data while it waits is
known by what they leave as it was.

A request that is not allowed stays on the record, whatever comes after it.

## Main results

* `Keeps.locked`: a lock around code that keeps to the rule with the lock held;
* `Breaks.after`, `Breaks.bind`, `Breaks.locked`: a rule broken by a part of a routine is
  broken.
-/

namespace Kirkwood.Verified.LockOrder

open Kirkwood.Verified.Hoare
open Kirkwood.Verified.Unwind

variable {σ ι κ ε α β : Type}

section
variable (A : ι → Multiset ι → Prop) (I : σ → Prop)

/-- All that was asked for was allowed. -/
def Ordered (s : State σ ι κ) : Prop := ∀ q ∈ s.asked, A q.1 q.2

instance [∀ x H, Decidable (A x H)] (s : State σ ι κ) : Decidable (Ordered A s) :=
  inferInstanceAs (Decidable (∀ q ∈ s.asked, A q.1 q.2))

/-- With the locks `H` held, nothing but what is allowed was asked for, and others leave
`I` as it is. -/
structure Holding (H : Multiset ι) (s : State σ ι κ) : Prop where
  held : s.held = H
  ordered : Ordered A s
  data : I s.data
  others : ∀ f ∈ s.others, ∀ d, I d → I (f d)

/-- A routine that keeps to the rule, with what it returns. -/
def Keeps (H : Multiset ι) (x : Proc σ ι κ ε α) (Q : α → Prop) : Prop :=
  Triple (Holding A I H) x (fun a s => Holding A I H s ∧ Q a) fun _ => Ordered A

end

/-- A routine takes nothing off the record of what was asked for. -/
def Records (x : Proc σ ι κ ε α) : Prop := ∀ s, s.asked <:+ (final (x s)).asked

variable {A : ι → Multiset ι → Prop} {I : σ → Prop} {H : Multiset ι}
variable {x : Proc σ ι κ ε α} {f : α → Proc σ ι κ ε β} {Q : α → Prop} {P : β → Prop}

/-! ## Routines that keep to the rule -/

theorem Keeps.pure {a : α} (h : Q a) : Keeps A I H (Pure.pure a : Proc σ ι κ ε α) Q :=
  Triple.pure fun _ hs => ⟨hs, h⟩

theorem Keeps.bind (hx : Keeps A I H x Q) (hf : ∀ a, Q a → Keeps A I H (f a) P) :
    Keeps A I H (x >>= f) P :=
  Triple.bind hx fun a => Triple.fact (hf a)

theorem Keeps.ite {c : Prop} [Decidable c] {y : Proc σ ι κ ε α}
    (hx : c → Keeps A I H x Q) (hy : ¬ c → Keeps A I H y Q) :
    Keeps A I H (if c then x else y) Q :=
  Triple.ite hx hy

theorem Keeps.weaken {Q' : α → Prop} (h : Keeps A I H x Q) (hQ : ∀ a, Q a → Q' a) :
    Keeps A I H x Q' :=
  h.conseq (fun _ hs => hs) fun a _ hs => ⟨hs.1, hQ a hs.2⟩

/-- To raise an error is to ask for nothing. -/
private theorem nexterror_ordered {P : α → State σ ι κ → Prop} :
    Triple (Ordered A) (nexterror : Proc σ ι κ ε α) P fun _ => Ordered A := by
  intro s hs
  unfold nexterror
  cases s.labels with
  | nil => exact hs
  | cons l ls => exact hs

private theorem error_ordered (msg : String) {P : α → State σ ι κ → Prop} :
    Triple (Ordered A) (error msg : Proc σ ι κ ε α) P fun _ => Ordered A :=
  fun s hs => nexterror_ordered { s with raised := some msg } hs

theorem Keeps.error (msg : String) : Keeps A I H (error msg : Proc σ ι κ ε α) Q :=
  (error_ordered msg).conseq (fun _ hs => hs.ordered) fun _ _ hs => hs

theorem Keeps.stop (e : ε) : Keeps A I H (throw (.stop e) : Proc σ ι κ ε α) Q :=
  fun _ hs => hs.ordered

theorem Keeps.lift {ε' : Type} (split : ε' → String ⊕ ε) {y : EStateM ε' σ α}
    (hy : ∀ d a d', I d → y d = .ok a d' → Q a ∧ I d') :
    Keeps A I H (lift split y : Proc σ ι κ ε α) Q := by
  intro s hs
  unfold Unwind.lift
  cases hrun : y s.data with
  | ok a d' =>
      obtain ⟨hQ, hI⟩ := hy s.data a d' hs.data hrun
      exact ⟨⟨hs.held, hs.ordered, hI, hs.others⟩, hQ⟩
  | error e d' =>
      simp only
      cases split e with
      | inl msg => exact error_ordered msg { s with data := d' } hs.ordered
      | inr e => exact hs.ordered

theorem Keeps.call [DecidableEq κ] (site : κ) :
    Keeps A I H (call site : Proc σ ι κ ε Unit) fun _ => True := by
  intro s hs
  obtain hcall | ⟨rest, ⟨-, hcall⟩ | ⟨msg, -, hcall⟩⟩ := call_cases (ε := ε) site s
  · rw [hcall]
    exact hs.ordered
  · rw [hcall]
    exact ⟨⟨hs.held, hs.ordered, hs.data, hs.others⟩, trivial⟩
  · rw [hcall]
    exact error_ordered msg { s with script := rest } hs.ordered

/-- A lock is taken, and `I` is as it was. -/
theorem lock_keeps {y : ι} (hask : A y H) {R : Signal ε → State σ ι κ → Prop} :
    Triple (Holding A I H) (lock y) (fun _ => Holding A I (y ::ₘ H)) R := by
  intro s hs
  refine ⟨congrArg (y ::ₘ ·) hs.held, fun q hq => ?_, ?_, fun f hf => ?_⟩
  · obtain rfl | hq := List.mem_cons.1 hq
    · exact hs.held ▸ hask
    · exact hs.ordered q hq
  · show I s.later
    unfold State.later
    cases hothers : s.others with
    | nil => exact hs.data
    | cons f fs => exact hs.others f (hothers ▸ List.mem_cons_self) s.data hs.data
  · exact hs.others f (List.mem_of_mem_tail hf)

theorem unlock_keeps [DecidableEq ι] {y : ι} :
    Triple (Holding A I (y ::ₘ H)) (unlock y : Proc σ ι κ ε Unit)
      (fun _ => Holding A I H) fun _ => Ordered A := by
  intro s hs
  have hmem : y ∈ s.held := hs.held ▸ Multiset.mem_cons_self y H
  unfold unlock
  rw [if_pos hmem, hs.held]
  exact ⟨Multiset.erase_cons_head y H, hs.ordered, hs.data, hs.others⟩

theorem poperror_keeps : Keeps A I H (poperror : Proc σ ι κ ε Unit) fun _ => True := by
  intro s hs
  unfold poperror
  cases s.labels with
  | nil => exact hs.ordered
  | cons l ls => exact ⟨⟨hs.held, hs.ordered, hs.data, hs.others⟩, trivial⟩

/-- A handler that raises again, with nothing asked for. -/
theorem waserror_keeps {handler : Proc σ ι κ ε (Option α)} {P : α → State σ ι κ → Prop}
    (hbody : Triple (Holding A I H) x P fun _ => Ordered A)
    (hhandler : Triple (Ordered A) handler (fun _ _ => False) fun _ => Ordered A) :
    Triple (Holding A I H) (waserror handler x) P fun _ => Ordered A := by
  intro s hs
  have hrun := hbody { s with labels := s.fresh :: s.labels, fresh := s.fresh + 1 }
    ⟨hs.held, hs.ordered, hs.data, hs.others⟩
  unfold waserror
  generalize x { s with labels := s.fresh :: s.labels, fresh := s.fresh + 1 } = out at hrun
  cases out with
  | ok a s' => exact hrun
  | error e s' =>
      cases e with
      | jump l =>
          by_cases hl : l = s.fresh
          · have hout := hhandler s' hrun
            simp only [if_pos hl]
            generalize handler s' = out at hout
            cases out with
            | ok r s'' => exact hout.elim
            | error e s'' => exact hout
          · simp only [if_neg hl]
            exact hrun
      | stop e => exact hrun
      | astray => exact hrun
      | offscript => exact hrun

private theorem unlock_ordered [DecidableEq ι] (y : ι) :
    Triple (Ordered A) (unlock y : Proc σ ι κ ε Unit) (fun _ => Ordered A)
      fun _ => Ordered A := by
  intro s hs
  unfold unlock
  by_cases hmem : y ∈ s.held
  · rw [if_pos hmem]
    exact hs
  · rw [if_neg hmem]
    exact hs

theorem Keeps.held [DecidableEq ι] {y : ι} (h : Keeps A I (y ::ₘ H) x Q) :
    Triple (Holding A I (y ::ₘ H)) (held y x) (fun a s => Holding A I H s ∧ Q a)
      fun _ => Ordered A := by
  refine waserror_keeps ?_ ((unlock_ordered y).bind fun _ => nexterror_ordered)
  refine Triple.bind h fun a => Triple.fact fun ha => ?_
  refine Triple.bind poperror_keeps fun _ => Triple.fact fun _ => ?_
  exact unlock_keeps.bind fun _ => Triple.pure fun _ hs => ⟨hs, ha⟩

/-- A lock that may be asked for, around code that keeps to the rule. -/
theorem Keeps.locked [DecidableEq ι] {y : ι} (hask : A y H)
    (h : Keeps A I (y ::ₘ H) x Q) : Keeps A I H (locked y x) Q :=
  (lock_keeps hask).bind fun _ => h.held

/-- However the routine ends. -/
theorem ordered_final {P : State σ ι κ → Prop}
    (h : Triple P x (fun _ => Ordered A) fun _ => Ordered A) {s : State σ ι κ} (hs : P s) :
    Ordered A (final (x s)) := by
  have hrun := h s hs
  cases hx : x s with
  | ok a s' =>
      rw [hx] at hrun
      exact hrun
  | error e s' =>
      rw [hx] at hrun
      exact hrun

/-! ## The record -/

theorem Records.of_same (h : ∀ s, (final (x s)).asked = s.asked) : Records x :=
  fun s => (h s).symm ▸ List.suffix_rfl

theorem Records.pure (a : α) : Records (Pure.pure a : Proc σ ι κ ε α) :=
  .of_same fun _ => rfl

theorem Records.bind (hx : Records x) (hf : ∀ a, Records (f a)) : Records (x >>= f) := by
  intro s
  have hfirst := hx s
  cases hrun : x s with
  | ok a s' =>
      rw [hrun] at hfirst
      rw [bind_ok hrun]
      exact hfirst.trans (hf a s')
  | error e s' =>
      rw [hrun] at hfirst
      rw [bind_error hrun]
      exact hfirst

theorem Records.ite {c : Prop} [Decidable c] {y : Proc σ ι κ ε α} (hx : Records x)
    (hy : Records y) : Records (if c then x else y) := by
  split
  · exact hx
  · exact hy

theorem Records.nexterror : Records (nexterror : Proc σ ι κ ε α) := by
  refine .of_same fun s => ?_
  unfold Unwind.nexterror
  cases s.labels with
  | nil => rfl
  | cons l ls => rfl

theorem Records.error (msg : String) : Records (error msg : Proc σ ι κ ε α) :=
  fun s => Records.nexterror { s with raised := some msg }

theorem Records.stop (e : ε) : Records (throw (.stop e) : Proc σ ι κ ε α) :=
  .of_same fun _ => rfl

theorem Records.poperror : Records (poperror : Proc σ ι κ ε Unit) := by
  refine .of_same fun s => ?_
  unfold Unwind.poperror
  cases s.labels with
  | nil => rfl
  | cons l ls => rfl

theorem Records.lift {ε' : Type} (split : ε' → String ⊕ ε) (y : EStateM ε' σ α) :
    Records (lift split y : Proc σ ι κ ε α) := by
  intro s
  unfold Unwind.lift
  cases y s.data with
  | ok a d => exact List.suffix_rfl
  | error e d =>
      simp only
      cases split e with
      | inl msg => exact Records.error msg { s with data := d }
      | inr e => exact List.suffix_rfl

theorem Records.call [DecidableEq κ] (site : κ) :
    Records (call site : Proc σ ι κ ε Unit) := by
  intro s
  obtain hcall | ⟨rest, ⟨-, hcall⟩ | ⟨msg, -, hcall⟩⟩ := call_cases (ε := ε) site s
  · rw [hcall]
    exact List.suffix_rfl
  · rw [hcall]
    exact List.suffix_rfl
  · rw [hcall]
    exact Records.error msg { s with script := rest }

theorem Records.lock (y : ι) : Records (lock y : Proc σ ι κ ε Unit) :=
  fun s => List.suffix_cons (y, s.held) s.asked

theorem Records.unlock [DecidableEq ι] (y : ι) :
    Records (unlock y : Proc σ ι κ ε Unit) := by
  refine .of_same fun s => ?_
  unfold Unwind.unlock
  split
  · rfl
  · rfl

/-- A handler adds to what the code has put on the record. -/
theorem waserror_records (handler : Proc σ ι κ ε (Option α)) (hhandler : Records handler)
    (hx : Records x) (s : State σ ι κ) :
    (final (x { s with labels := s.fresh :: s.labels, fresh := s.fresh + 1 })).asked <:+
      (final (waserror handler x s)).asked := by
  unfold waserror
  split
  · rename_i l s' hrun
    rw [hrun]
    have hout := hhandler s'
    split
    · split
      · rename_i hok
        rw [hok] at hout
        exact hout
      · rename_i hok
        rw [hok] at hout
        exact hout.trans (hx _)
      · rename_i hok
        rw [hok] at hout
        exact hout
    · exact List.suffix_rfl
  · exact List.suffix_rfl

theorem held_records [DecidableEq ι] (y : ι) (hx : Records x) (s : State σ ι κ) :
    (final (x { s with labels := s.fresh :: s.labels, fresh := s.fresh + 1 })).asked <:+
      (final (held y x s)).asked := by
  have hafter : ∀ a, Records (do
      poperror
      unlock y
      pure a : Proc σ ι κ ε α) :=
    fun a => Records.poperror.bind fun _ => (Records.unlock y).bind fun _ => .pure a
  have hbody := waserror_records
    (do
      unlock y
      nexterror)
    ((Records.unlock y).bind fun _ => .nexterror) (hx.bind hafter) s
  refine List.IsSuffix.trans ?_ hbody
  cases hrun : x { s with labels := s.fresh :: s.labels, fresh := s.fresh + 1 } with
  | ok a s' =>
      rw [bind_ok hrun]
      exact hafter a s'
  | error e s' =>
      rewrite [bind_error hrun]
      exact List.suffix_rfl

theorem Records.locked [DecidableEq ι] (y : ι) (hx : Records x) : Records (locked y x) :=
  (Records.lock y).bind fun _ s =>
    (hx { s with labels := s.fresh :: s.labels, fresh := s.fresh + 1 }).trans
      (held_records y hx s)

/-! ## A rule that is broken -/

theorem Ordered.of_suffix {s s' : State σ ι κ} (h : Ordered A s')
    (hs : s.asked <:+ s'.asked) : Ordered A s :=
  fun q hq => h q (hs.subset hq)

/-- The state in which the code around which a lock is taken begins. -/
def inside (y : ι) (s : State σ ι κ) : State σ ι κ :=
  { s with
    data := s.later
    others := s.others.tail
    held := y ::ₘ s.held
    asked := (y, s.held) :: s.asked
    labels := s.fresh :: s.labels
    fresh := s.fresh + 1 }

section
variable (A)

/-- With some outcome of the calls the routine breaks the rule. -/
def Breaks (x : Proc σ ι κ ε α) (s : State σ ι κ) : Prop :=
  ∃ S, ¬ Ordered A (final (x { s with script := S }))

end

/-- With some outcome of the calls the routine returns, and the calls to come after it are
as they may. -/
def Returns (x : Proc σ ι κ ε α) (s : State σ ι κ) (a : α) (s' : State σ ι κ) : Prop :=
  ∃ S, ∀ S', x { s with script := S ++ S' } = .ok a { s' with script := S' }

section
variable {s s' s'' : State σ ι κ} {a : α} {b : β} {y : ι}

theorem Returns.pure : Returns (Pure.pure a : Proc σ ι κ ε α) s a s :=
  ⟨[], fun _ => rfl⟩

theorem Returns.bind (hx : Returns x s a s') (hf : Returns (f a) s' b s'') :
    Returns (x >>= f) s b s'' := by
  obtain ⟨S, hx⟩ := hx
  obtain ⟨T, hf⟩ := hf
  refine ⟨S ++ T, fun S' => ?_⟩
  rw [List.append_assoc, bind_ok (hx (T ++ S')), hf]

theorem Returns.lift {ε' : Type} (split : ε' → String ⊕ ε) {z : EStateM ε' σ α}
    (h : z s.data = .ok a s.data) : Returns (lift split z : Proc σ ι κ ε α) s a s := by
  refine ⟨[], fun S' => ?_⟩
  unfold Unwind.lift
  simp only [h, List.nil_append]

theorem Returns.call [DecidableEq κ] (site : κ) :
    Returns (call site : Proc σ ι κ ε Unit) s () s := by
  refine ⟨[(site, none)], fun S' => ?_⟩
  simp [Unwind.call]

theorem Returns.lock (hothers : s.others = []) :
    Returns (lock y : Proc σ ι κ ε Unit) s ()
      { s with held := y ::ₘ s.held, asked := (y, s.held) :: s.asked } := by
  refine ⟨[], fun S' => ?_⟩
  have hlater : s.later = s.data := by rw [State.later, hothers]
  have hrest : s.others.tail = s.others := by
    rw [hothers]
    rfl
  show EStateM.Result.ok () { s with
    data := s.later
    others := s.others.tail
    held := y ::ₘ s.held
    asked := (y, s.held) :: s.asked
    script := S' } = _
  rw [hlater, hrest]

theorem Returns.unlock [DecidableEq ι] (hheld : s.held = y ::ₘ H) :
    Returns (unlock y : Proc σ ι κ ε Unit) s () { s with held := H } := by
  refine ⟨[], fun S' => ?_⟩
  unfold Unwind.unlock
  simp [hheld]

/-- The rule is broken behind the first part. -/
theorem Breaks.after (hx : Returns x s a s') (hf : Breaks A (f a) s') :
    Breaks A (x >>= f) s := by
  obtain ⟨S, hx⟩ := hx
  obtain ⟨T, hf⟩ := hf
  refine ⟨S ++ T, ?_⟩
  rw [bind_ok (hx T)]
  exact hf

/-- The rule is broken in the first part. -/
theorem Breaks.bind (hx : Breaks A x s) (hf : ∀ a, Records (f a)) :
    Breaks A (x >>= f) s := by
  obtain ⟨S, hx⟩ := hx
  refine ⟨S, fun hord => hx ?_⟩
  cases hrun : x { s with script := S } with
  | ok a s' =>
      rw [bind_ok hrun] at hord
      exact hord.of_suffix (hf a s')
  | error e s' =>
      rw [bind_error hrun] at hord
      exact hord

theorem Breaks.lock (hask : ¬ A y s.held) :
    Breaks A (lock y : Proc σ ι κ ε Unit) s :=
  ⟨[], fun hord => hask (hord (y, s.held) List.mem_cons_self)⟩

theorem Breaks.locked [DecidableEq ι] (hx : Records x) (h : Breaks A x (inside y s)) :
    Breaks A (locked y x) s := by
  obtain ⟨S, h⟩ := h
  refine ⟨S, fun hord => h (hord.of_suffix (held_records y hx { s with
    script := S
    data := s.later
    others := s.others.tail
    held := y ::ₘ s.held
    asked := (y, s.held) :: s.asked }))⟩

end

end Kirkwood.Verified.LockOrder
