import Mathlib.Data.List.Basic

/-!
# How a kernel routine ends other than by returning

Routines return `Except Exn α`, or `EStateM.Result Exn σ α` where the state in
which an error leaves the machine matters.
-/

namespace Kirkwood.Verified.Outcome

/-- The ways out of a routine other than its return. -/
inductive Exn where
  /-- `error(msg)`: control goes to the most recent `waserror`. -/
  | error (msg : String)
  /-- `panic(msg)`: the kernel stops. -/
  | panic (msg : String)
  /-- An access outside every object, a nil pointer included. -/
  | fault
  /-- A loop was still running when its fuel was spent. -/
  | hang
  deriving DecidableEq, Repr

/-- From a successful bind, the intermediate value. -/
theorem bind_eq_ok {ε α β : Type} {x : Except ε α} {f : α → Except ε β}
    {b : β} : (x >>= f) = .ok b ↔ ∃ a, x = .ok a ∧ f a = .ok b := by
  cases x with
  | error e => simp [bind, Except.bind]
  | ok a => simp [bind, Except.bind]

@[simp] theorem error_bind {ε α β : Type} (e : ε) (f : α → Except ε β) :
    (Except.error e >>= f) = .error e :=
  rfl

@[simp] theorem ok_bind {ε α β : Type} (a : α) (f : α → Except ε β) :
    (Except.ok a >>= f) = f a :=
  rfl

/-! ## Routines that raise -/

/-- Neither a stop of the kernel nor an access outside every object. -/
def Exn.Mild : Exn → Prop
  | .error _ | .hang => True
  | .panic _ | .fault => False

/-- A routine that returns, raises an error or does not end. -/
def Mild {α : Type} (x : Except Exn α) : Prop :=
  ∀ e, x = .error e → e.Mild

section Mild

variable {α β : Type}

theorem Mild.ok (a : α) : Mild (Except.ok a : Except Exn α) :=
  fun _ h => nomatch h

theorem Mild.error (msg : String) : Mild (Except.error (.error msg) : Except Exn α) := by
  intro e h
  obtain rfl := Except.error.inj h
  trivial

theorem Mild.bind {x : Except Exn α} {f : α → Except Exn β} (hx : Mild x)
    (hf : ∀ a, Mild (f a)) : Mild (x >>= f) := by
  cases x with
  | ok a => exact hf a
  | error e =>
      intro e' h
      obtain rfl := Except.error.inj h
      exact hx e rfl

theorem Mild.ite {c : Prop} [Decidable c] {x y : Except Exn α} (hx : Mild x)
    (hy : Mild y) : Mild (if c then x else y) := by
  split
  · exact hx
  · exact hy

end Mild

/-! ## Loops over a list -/

section Fold

variable {ε α β : Type} {f : β → α → Except ε β} {motive : List α → β → Prop}

private theorem foldlM_ok_from (l done : List α) {whole : List α} {b b' : β}
    (hstep : ∀ done a rest b b', done ++ a :: rest = whole → motive done b →
      f b a = .ok b' → motive (done ++ [a]) b')
    (hwhole : done ++ l = whole) (hb : motive done b) (h : l.foldlM f b = .ok b') :
    motive whole b' := by
  induction l generalizing done b with
  | nil =>
      obtain rfl : b = b' := Except.ok.inj h
      rw [List.append_nil] at hwhole
      exact hwhole ▸ hb
  | cons a l ih =>
      rw [List.foldlM_cons, bind_eq_ok] at h
      obtain ⟨b1, hb1, hrest⟩ := h
      exact ih (done ++ [a]) (by rw [List.append_assoc]; exact hwhole)
        (hstep done a l b b1 hwhole hb hb1) hrest

/-- A property of the elements done and the value built that every successful
step preserves holds of a loop that returned. -/
theorem foldlM_ok (l : List α) {b b' : β}
    (hstep : ∀ done b a b', motive done b → f b a = .ok b' →
      motive (done ++ [a]) b')
    (hb : motive [] b) (h : l.foldlM f b = .ok b') : motive l b' :=
  foldlM_ok_from l [] (fun done a _ b b' _ => hstep done b a b') rfl hb h

/-- The same where a step may depend on its place in the loop. -/
theorem foldlM_ok_at (l : List α) {b b' : β}
    (hstep : ∀ done a rest b b', done ++ a :: rest = l → motive done b →
      f b a = .ok b' → motive (done ++ [a]) b')
    (hb : motive [] b) (h : l.foldlM f b = .ok b') : motive l b' :=
  foldlM_ok_from l [] hstep rfl hb h

private theorem foldlM_total_from (l done : List α) {whole : List α} {b : β}
    (hstep : ∀ done a rest b, done ++ a :: rest = whole → motive done b →
      ∃ b', f b a = .ok b' ∧ motive (done ++ [a]) b')
    (hwhole : done ++ l = whole) (hb : motive done b) :
    ∃ b', l.foldlM f b = .ok b' ∧ motive whole b' := by
  induction l generalizing done b with
  | nil =>
      rw [List.append_nil] at hwhole
      exact ⟨b, rfl, hwhole ▸ hb⟩
  | cons a l ih =>
      obtain ⟨b1, hb1, hmot⟩ := hstep done a l b hwhole hb
      obtain ⟨b', hrest, hend⟩ := ih (done ++ [a])
        (by rw [List.append_assoc]; exact hwhole) hmot
      exact ⟨b', by rw [List.foldlM_cons, hb1, ok_bind, hrest], hend⟩

/-- A loop whose every step succeeds and keeps the property returns. -/
theorem foldlM_total (l : List α) {b : β}
    (hstep : ∀ done a rest b, done ++ a :: rest = l → motive done b →
      ∃ b', f b a = .ok b' ∧ motive (done ++ [a]) b')
    (hb : motive [] b) : ∃ b', l.foldlM f b = .ok b' ∧ motive l b' :=
  foldlM_total_from l [] hstep rfl hb

end Fold

end Kirkwood.Verified.Outcome
