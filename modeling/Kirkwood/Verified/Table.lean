import Mathlib.Data.List.Basic
import Mathlib.Data.List.Perm.Basic

/-!
# A table of processes

The entries of a list, one for each process, and what some of them hold: `f`
maps an entry to what it holds, and `l.filterMap f` is all that is held.  A step
replaces one entry; the lemmas say what this does to what is held.

## Main results

* `getElem?_set_cases`: an entry after a step is the new one or an old one;
* `filterMap_set_same`, `filterMap_set_add`, `filterMap_set_remove`: the process
  keeps what it holds, takes something, or gives it back;
* `length_filterMap_set`: how the number of holders changes.
-/

namespace Kirkwood.Verified.Table

universe u v

variable {α : Type u} {β : Type v} {l : List α} {p : Nat} {a b : α}

/-- The list on both sides of an entry. -/
theorem split_at (h : l[p]? = some a) :
    ∃ l₁ l₂, l = l₁ ++ a :: l₂ ∧ ∀ b, l.set p b = l₁ ++ b :: l₂ := by
  have hlt : p < l.length := (List.getElem?_eq_some_iff.1 h).1
  have hget : l[p] = a := (List.getElem?_eq_some_iff.1 h).2
  refine ⟨l.take p, l.drop (p + 1), ?_, ?_⟩
  · rw [← hget, List.getElem_cons_drop, List.take_append_drop]
  · intro b
    exact List.set_eq_take_append_cons_drop.trans (if_pos hlt)

theorem getElem?_set_cases {q : Nat} {c : α} (h : (l.set p b)[q]? = some c) :
    (q = p ∧ c = b) ∨ (q ≠ p ∧ l[q]? = some c) := by
  by_cases hq : q = p
  · left
    rw [hq, List.getElem?_set_self'] at h
    cases hl : l[p]? with
    | none =>
        rw [hl] at h
        cases h
    | some d =>
        rw [hl] at h
        exact ⟨hq, (Option.some.inj h).symm⟩
  · right
    rw [List.getElem?_set_ne (Ne.symm hq)] at h
    exact ⟨hq, h⟩

variable {f : α → Option β}

theorem filterMap_split (l₁ l₂ : List α) (a : α) :
    (l₁ ++ a :: l₂).filterMap f =
      l₁.filterMap f ++ (f a).toList ++ l₂.filterMap f := by
  rw [List.filterMap_append, List.append_assoc]
  cases h : f a with
  | none => rw [List.filterMap_cons_none h]; rfl
  | some t => rw [List.filterMap_cons_some h]; rfl

theorem filterMap_set_same (h : l[p]? = some a) (heq : f a = f b) :
    (l.set p b).filterMap f = l.filterMap f := by
  obtain ⟨l₁, l₂, hl, hset⟩ := split_at h
  rw [hset b, hl, filterMap_split, filterMap_split, heq]

theorem filterMap_set_add {t : β} (h : l[p]? = some a) (ha : f a = none)
    (hb : f b = some t) :
    ((l.set p b).filterMap f).Perm (l.filterMap f ++ [t]) := by
  obtain ⟨l₁, l₂, hl, hset⟩ := split_at h
  rw [hset b, hl, filterMap_split, filterMap_split, ha, hb]
  show (l₁.filterMap f ++ [t] ++ l₂.filterMap f).Perm
    (l₁.filterMap f ++ [] ++ l₂.filterMap f ++ [t])
  rw [List.append_nil, List.append_assoc, List.append_assoc]
  exact List.Perm.append_left _ List.perm_append_comm

theorem filterMap_set_remove {t : β} (h : l[p]? = some a) (ha : f a = some t)
    (hb : f b = none) :
    ∃ x y, l.filterMap f = x ++ t :: y ∧ (l.set p b).filterMap f = x ++ y := by
  obtain ⟨l₁, l₂, hl, hset⟩ := split_at h
  refine ⟨l₁.filterMap f, l₂.filterMap f, ?_, ?_⟩
  · rw [hl, filterMap_split, ha, List.append_assoc]
    rfl
  · rw [hset b, filterMap_split, hb]
    show l₁.filterMap f ++ [] ++ l₂.filterMap f = _
    rw [List.append_nil]

theorem length_filterMap_set (h : l[p]? = some a) :
    ((l.set p b).filterMap f).length + (f a).toList.length =
      (l.filterMap f).length + (f b).toList.length := by
  obtain ⟨l₁, l₂, hl, hset⟩ := split_at h
  rw [hset b, hl, filterMap_split, filterMap_split]
  simp only [List.length_append]
  omega

/-! ## Counting -/

variable {q : α → Bool}

/-- One entry less. -/
theorem countP_eraseIdx (h : l[p]? = some a) :
    (l.eraseIdx p).countP q + (if q a then 1 else 0) = l.countP q := by
  have hlt : p < l.length := (List.getElem?_eq_some_iff.1 h).1
  have hget : l[p] = a := (List.getElem?_eq_some_iff.1 h).2
  have hperm := List.getElem_cons_eraseIdx_perm hlt
  rw [hget] at hperm
  rw [← hperm.countP_eq, List.countP_cons]

/-- One entry replaced. -/
theorem countP_set (h : l[p]? = some a) :
    (l.set p b).countP q + (if q a then 1 else 0) =
      l.countP q + (if q b then 1 else 0) := by
  have hlt : p < l.length := (List.getElem?_eq_some_iff.1 h).1
  have hone := countP_eraseIdx (q := q) h
  rw [(List.set_perm_cons_eraseIdx hlt b).countP_eq, List.countP_cons]
  omega

theorem countP_snoc (l : List α) (a : α) :
    (l ++ [a]).countP q = l.countP q + (if q a then 1 else 0) := by
  rw [List.countP_append, List.countP_singleton]

theorem mem_set_cases {c : α} (h : c ∈ l.set p b) : c = b ∨ c ∈ l := by
  cases List.mem_or_eq_of_mem_set h with
  | inl hmem => exact Or.inr hmem
  | inr heq => exact Or.inl heq

/-- What a process holds is among what is held. -/
theorem mem_filterMap {t : β} (h : l[p]? = some a) (ha : f a = some t) :
    t ∈ l.filterMap f :=
  List.mem_filterMap.2 ⟨a, List.mem_of_getElem? h, ha⟩

end Kirkwood.Verified.Table
