import Mathlib.Logic.Basic

/-!
# Loops

A loop is a partial function `next`: it goes on from `s` to `next s`, and ends where that
is `none`.  `Ends` says at once that it ends and that `ok` holds in each of its states.

## Main results

* `ends_iff`: `Ends` is what it says;
* `ends_next`: one turn of the loop;
* `Leads.turn`, `Leads.trans`: how one comes from a state to another.
-/

namespace Kirkwood.Verified.Loop

universe u

variable {σ : Type u} (next : σ → Option σ) (ok : σ → Prop)

/-- The state after `n` turns, if the loop takes so many. -/
def after (s : σ) : Nat → Option σ
  | 0 => some s
  | n + 1 => (after s n).bind next

/-- The loop ends, and `ok` holds until then. -/
inductive Ends : σ → Prop
  | last {s : σ} : ok s → next s = none → Ends s
  | more {s t : σ} : ok s → next s = some t → Ends t → Ends s

/-- The loop comes from `s` to `t`. -/
def Leads (s t : σ) : Prop := ∃ n, after next s n = some t

variable {next ok}

theorem after_next {s t : σ} (h : next s = some t) (n : Nat) :
    after next s (n + 1) = after next t n := by
  induction n with
  | zero => exact h
  | succ n ih => rw [after, ih, after]

theorem after_last {s : σ} (h : next s = none) (n : Nat) : after next s (n + 1) = none := by
  induction n with
  | zero => exact h
  | succ n ih => rw [after, ih, Option.bind_none]

theorem Leads.refl (s : σ) : Leads next s s := ⟨0, rfl⟩

theorem Leads.turn {s t u : σ} (h : next s = some t) (hrest : Leads next t u) :
    Leads next s u := by
  obtain ⟨n, hn⟩ := hrest
  exact ⟨n + 1, (after_next h n).trans hn⟩

theorem Leads.trans {s t u : σ} (hs : Leads next s t) (ht : Leads next t u) :
    Leads next s u := by
  obtain ⟨n, hn⟩ := hs
  induction n generalizing s with
  | zero =>
      cases hn
      exact ht
  | succ n ih =>
      cases hnext : next s with
      | none => rw [after_last hnext] at hn; cases hn
      | some v => exact .turn hnext (ih ((after_next hnext n).symm.trans hn))

theorem ends_next {s t : σ} (h : next s = some t) :
    Ends next ok s ↔ ok s ∧ Ends next ok t := by
  constructor
  · intro hends
    cases hends with
    | last _ hnone => rw [h] at hnone; cases hnone
    | more hok hnext hrest =>
        rw [h] at hnext
        cases hnext
        exact ⟨hok, hrest⟩
  · rintro ⟨hok, hrest⟩
    exact .more hok h hrest

theorem ends_iff {s : σ} : Ends next ok s ↔
    (∃ n, after next s n = none) ∧ ∀ n t, after next s n = some t → ok t := by
  constructor
  · intro h
    induction h with
    | @last s hok hnone =>
        refine ⟨⟨1, hnone⟩, fun n t ht => ?_⟩
        cases n with
        | zero => cases ht; exact hok
        | succ n => rw [after_last hnone] at ht; cases ht
    | @more s u hok hnext _ ih =>
        obtain ⟨⟨m, hm⟩, hall⟩ := ih
        refine ⟨⟨m + 1, (after_next hnext m).trans hm⟩, fun n t ht => ?_⟩
        cases n with
        | zero => cases ht; exact hok
        | succ n => exact hall n t ((after_next hnext n).symm.trans ht)
  · rintro ⟨⟨n, hn⟩, hall⟩
    induction n generalizing s with
    | zero => cases hn
    | succ n ih =>
        have hok : ok s := hall 0 s rfl
        cases hnext : next s with
        | none => exact .last hok hnext
        | some t =>
            refine .more hok hnext (ih (fun m u hu => ?_) ?_)
            · exact hall (m + 1) u ((after_next hnext m).trans hu)
            · exact (after_next hnext n).symm.trans hn

end Kirkwood.Verified.Loop
