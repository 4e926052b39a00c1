import Mathlib.Order.CompletePartialOrder
import Mathlib.Order.Interval.Set.Disjoint
import Mathlib.Data.List.Pairwise

/-!
# Half-open ranges admitted one by one

A table of ranges `[a, b)` is often kept disjoint by testing each new range
against the ones already there.  `EndsIn` is the test that looks for an end
point of an old range in the new one.  It sees every overlap but one: an old
range that strictly contains the new one has no end point in it.

## Main results

* `not_endsIn_iff`: what a negative test says about two nonempty ranges.
* `pairwise_disjoint_iff`: when a table that passed the test is disjoint.
-/

namespace Kirkwood.Verified.Interval

variable {α : Type*} [LinearOrder α]

/-- An end point of `[a, b)` lies in `[s, e)`. -/
def EndsIn (s e a b : α) : Prop := s ≤ a ∧ a < e ∨ s < b ∧ b ≤ e

instance (s e a b : α) : Decidable (EndsIn s e a b) :=
  inferInstanceAs (Decidable (s ≤ a ∧ a < e ∨ s < b ∧ b ≤ e))

theorem disjoint_iff {s e a b : α} (hnew : s < e) (hold : a < b) :
    Disjoint (Set.Ico a b) (Set.Ico s e) ↔ b ≤ s ∨ e ≤ a := by
  rw [Set.Ico_disjoint_Ico, min_le_iff, le_max_iff, le_max_iff]
  constructor
  · rintro ((h | h) | (h | h))
    · exact absurd h (not_le.mpr hold)
    · exact Or.inl h
    · exact Or.inr h
    · exact absurd h (not_le.mpr hnew)
  · rintro (h | h)
    · exact Or.inl (Or.inr h)
    · exact Or.inr (Or.inl h)

/-- Nonempty ranges that pass the test are disjoint, or the new one lies
strictly inside the old one. -/
theorem not_endsIn_iff {s e a b : α} (hnew : s < e) (hold : a < b) :
    ¬EndsIn s e a b ↔
      Disjoint (Set.Ico a b) (Set.Ico s e) ∨ a < s ∧ e < b := by
  rw [disjoint_iff hnew hold, EndsIn, not_or, not_and, not_and, not_lt, not_le]
  constructor
  · rintro ⟨hstart, hend⟩
    rcases le_or_gt s a with hsa | has
    · exact Or.inl (Or.inr (hstart hsa))
    · rcases le_or_gt b s with hbs | hsb
      · exact Or.inl (Or.inl hbs)
      · exact Or.inr ⟨has, hend hsb⟩
  · rintro ((hbs | hea) | ⟨has, heb⟩)
    · exact ⟨fun hsa => absurd (hsa.trans_lt hold) (not_lt.mpr hbs),
        fun hsb => absurd hsb (not_lt.mpr hbs)⟩
    · exact ⟨fun _ => hea, fun _ => hea.trans_lt hold⟩
    · exact ⟨fun hsa => absurd has (not_lt.mpr hsa), fun _ => heb⟩

/-- No end point lies in an empty range. -/
theorem not_endsIn_empty (s a b : α) : ¬EndsIn s s a b := by
  rintro (⟨hsa, has⟩ | ⟨hsb, hbs⟩)
  · exact absurd has (not_lt.mpr hsa)
  · exact absurd hsb (not_lt.mpr hbs)

/-- An empty range is an obstacle wherever it touches a nonempty one, its end
included. -/
theorem endsIn_of_empty {s e : α} (h : s < e) (a : α) :
    EndsIn s e a a ↔ s ≤ a ∧ a ≤ e := by
  constructor
  · rintro (⟨hsa, hae⟩ | ⟨hsa, hae⟩)
    · exact ⟨hsa, hae.le⟩
    · exact ⟨hsa.le, hae⟩
  · rintro ⟨hsa, hae⟩
    rcases hsa.lt_or_eq with hlt | rfl
    · exact Or.inr ⟨hlt, hae⟩
    · exact Or.inl ⟨le_refl _, h⟩

/-! ## Tables -/

section Table

variable {ι : Type*} (lo hi : ι → α)

/-- Each range was tested against the ones before it. -/
def Admitted (l : List ι) : Prop :=
  l.Pairwise fun old new => ¬EndsIn (lo new) (hi new) (lo old) (hi old)

/-- The nonempty ranges of a table are disjoint. -/
def AllDisjoint (l : List ι) : Prop :=
  l.Pairwise fun old new => lo old < hi old → lo new < hi new →
    Disjoint (Set.Ico (lo old) (hi old)) (Set.Ico (lo new) (hi new))

/-- No nonempty range lies strictly inside an earlier one. -/
def NoneNested (l : List ι) : Prop :=
  l.Pairwise fun old new =>
    ¬(lo old < lo new ∧ lo new < hi new ∧ hi new < hi old)

/-- A table admitted range by range is disjoint exactly when no range was
admitted inside an earlier one. -/
theorem pairwise_disjoint_iff {l : List ι} (h : Admitted lo hi l) :
    AllDisjoint lo hi l ↔ NoneNested lo hi l := by
  constructor
  · intro hdisj
    refine hdisj.imp ?_
    rintro old new hd ⟨hstart, hnew, hend⟩
    have hold := (hstart.trans hnew).trans hend
    rcases (disjoint_iff hnew hold).mp (hd hold hnew) with hle | hle
    · exact absurd (hnew.trans hend) (not_lt.mpr hle)
    · exact absurd (hstart.trans hnew) (not_lt.mpr hle)
  · intro hnest
    refine (h.and hnest).imp ?_
    rintro old new ⟨htest, hinside⟩ hold hnew
    rcases (not_endsIn_iff hnew hold).mp htest with hd | ⟨hstart, hend⟩
    · exact hd
    · exact absurd ⟨hstart, hnew, hend⟩ hinside

end Table

end Kirkwood.Verified.Interval
