import Mathlib.Data.List.Basic

/-!
# Texts cut into blocks

`cut n l` are the blocks of length `n` of `l`, and `rest n l` what is left over.  A
chaining function `f` takes a state and a block to the next state; `feed f v bs`
lists the blocks with the state that each was chained from.

## Main results

* `cut_append`: where the first part consists of whole blocks, the blocks of two
  parts;
* `cut_flatten`: whole blocks make up the text again;
* `cut_append_rest`, `rest_append`: a text that comes in parts needs only what was
  left over;
* `feed_append`: a chain goes on from the state that the first part leaves.
-/

namespace Kirkwood.Verified.Blocks

universe u v

variable {α : Type u} {β : Type v}

def cut (n : Nat) (l : List α) : List (List α) :=
  (List.range (l.length / n)).map fun i => (l.drop (n * i)).take n

@[simp] theorem cut_length (n : Nat) (l : List α) : (cut n l).length = l.length / n := by
  unfold cut
  rw [List.length_map, List.length_range]

theorem cut_short {n : Nat} {l : List α} (h : l.length < n) : cut n l = [] := by
  unfold cut
  rw [Nat.div_eq_of_lt h]
  rfl

@[simp] theorem cut_nil (n : Nat) : cut n ([] : List α) = [] := by
  unfold cut
  rw [List.length_nil, Nat.zero_div]
  rfl

theorem cut_cons {n : Nat} {b : List α} (l : List α) (hn : 0 < n)
    (hb : b.length = n) : cut n (b ++ l) = b :: cut n l := by
  have hdiv : (b ++ l).length / n = l.length / n + 1 := by
    rw [List.length_append, hb, Nat.add_comm, Nat.add_div_right _ hn]
  unfold cut
  rw [hdiv, List.range_succ_eq_map, List.map_cons, List.map_map]
  have hhead : ((b ++ l).drop (n * 0)).take n = b := by
    rw [Nat.mul_zero, List.drop_zero]
    exact List.take_left' hb
  rw [hhead]
  apply congrArg (List.cons b)
  apply List.map_congr_left
  intro i _
  show ((b ++ l).drop (n * (i + 1))).take n = _
  rw [Nat.mul_succ, Nat.add_comm (n * i) n, ← List.drop_drop, List.drop_left' hb]

theorem cut_append {n : Nat} (l m : List α) (hn : 0 < n) (hl : n ∣ l.length) :
    cut n (l ++ m) = cut n l ++ cut n m := by
  obtain ⟨k, hk⟩ := hl
  induction k generalizing l with
  | zero =>
      have hnil : l = [] := List.eq_nil_of_length_eq_zero (by rw [hk, Nat.mul_zero])
      rw [hnil, List.nil_append, cut_nil, List.nil_append]
  | succ k ih =>
      have hlen : (l.take n).length = n := by
        rw [List.length_take, hk, Nat.mul_succ]
        omega
      have hrest : (l.drop n).length = n * k := by
        rw [List.length_drop, hk, Nat.mul_succ, Nat.add_sub_cancel]
      calc
        cut n (l ++ m) = cut n (l.take n ++ (l.drop n ++ m)) := by
            rw [← List.append_assoc, List.take_append_drop]
        _ = l.take n :: (cut n (l.drop n) ++ cut n m) := by
            rw [cut_cons _ hn hlen, ih _ hrest]
        _ = cut n (l.take n ++ l.drop n) ++ cut n m := by
            rw [cut_cons _ hn hlen, List.cons_append]
        _ = cut n l ++ cut n m := by rw [List.take_append_drop]

theorem cut_single {n : Nat} {b : List α} (hn : 0 < n) (hb : b.length = n) :
    cut n b = [b] := by
  have hcons := cut_cons [] hn hb
  rw [List.append_nil, cut_nil] at hcons
  exact hcons

theorem cut_flatten {n : Nat} (l : List α) (hn : 0 < n) (hl : n ∣ l.length) :
    (cut n l).flatten = l := by
  obtain ⟨k, hk⟩ := hl
  induction k generalizing l with
  | zero =>
      have hnil : l = [] := List.eq_nil_of_length_eq_zero (by rw [hk, Nat.mul_zero])
      rw [hnil, cut_nil]
      rfl
  | succ k ih =>
      have hlen : (l.take n).length = n := by
        rw [List.length_take, hk, Nat.mul_succ]
        omega
      have hrest : (l.drop n).length = n * k := by
        rw [List.length_drop, hk, Nat.mul_succ, Nat.add_sub_cancel]
      have hcons : cut n l = l.take n :: cut n (l.drop n) := by
        rw [← cut_cons _ hn hlen, List.take_append_drop]
      rw [hcons, List.flatten_cons, ih _ hrest, List.take_append_drop]

theorem cut_inj {n : Nat} {l m : List α} (hn : 0 < n) (hl : n ∣ l.length)
    (hm : n ∣ m.length) (h : cut n l = cut n m) : l = m := by
  rw [← cut_flatten l hn hl, h, cut_flatten m hn hm]

/-! ## What is left over -/

/-- What follows the last block. -/
def rest (n : Nat) (l : List α) : List α := l.drop (n * (l.length / n))

@[simp] theorem rest_nil (n : Nat) : rest n ([] : List α) = [] := List.drop_nil

theorem rest_length (n : Nat) (l : List α) : (rest n l).length = l.length % n := by
  unfold rest
  rw [List.length_drop, Nat.mod_eq_sub]

theorem rest_short {n : Nat} {l : List α} (h : l.length < n) : rest n l = l := by
  unfold rest
  rw [Nat.div_eq_of_lt h, Nat.mul_zero, List.drop_zero]

theorem rest_append_blocks {n : Nat} (l m : List α) (hn : 0 < n)
    (hl : n ∣ l.length) : rest n (l ++ m) = rest n m := by
  obtain ⟨k, hk⟩ := hl
  have hdiv : (l ++ m).length / n = k + m.length / n := by
    rw [List.length_append, hk, Nat.mul_add_div hn]
  unfold rest
  rw [hdiv, Nat.mul_add, ← hk, List.drop_length_add_append]

private theorem blocks_rest (n : Nat) (l : List α) :
    ∃ w : List α, n ∣ w.length ∧ l = w ++ rest n l := by
  refine ⟨l.take (n * (l.length / n)), ?_, (List.take_append_drop _ l).symm⟩
  rw [List.length_take, Nat.min_eq_left (Nat.mul_div_le _ _)]
  exact Nat.dvd_mul_right _ _

/-- More text goes on from what the first part left over. -/
theorem cut_append_rest {n : Nat} (l m : List α) (hn : 0 < n) :
    cut n (l ++ m) = cut n l ++ cut n (rest n l ++ m) := by
  obtain ⟨w, hw, hl⟩ := blocks_rest n l
  have hrest : cut n (rest n l) = [] := by
    apply cut_short
    rw [rest_length]
    exact Nat.mod_lt _ hn
  have hcut : cut n l = cut n w := by
    calc
      cut n l = cut n (w ++ rest n l) := congrArg (cut n) hl
      _ = cut n w := by rw [cut_append _ _ hn hw, hrest, List.append_nil]
  calc
    cut n (l ++ m) = cut n (w ++ (rest n l ++ m)) := by
        rw [← List.append_assoc, ← hl]
    _ = cut n l ++ cut n (rest n l ++ m) := by rw [cut_append _ _ hn hw, hcut]

theorem rest_append {n : Nat} (l m : List α) (hn : 0 < n) :
    rest n (l ++ m) = rest n (rest n l ++ m) := by
  obtain ⟨w, hw, hl⟩ := blocks_rest n l
  calc
    rest n (l ++ m) = rest n (w ++ (rest n l ++ m)) := by
        rw [← List.append_assoc, ← hl]
    _ = rest n (rest n l ++ m) := rest_append_blocks _ _ hn hw

/-! ## Chaining -/

/-- Each block with the state that it is chained from. -/
def feed (f : β → List α → β) : β → List (List α) → List (β × List α)
  | _, [] => []
  | v, b :: bs => (v, b) :: feed f (f v b) bs

theorem feed_append (f : β → List α → β) (v : β) (bs cs : List (List α)) :
    feed f v (bs ++ cs) = feed f v bs ++ feed f (bs.foldl f v) cs := by
  induction bs generalizing v with
  | nil => rfl
  | cons b bs ih => exact congrArg (List.cons (v, b)) (ih (f v b))

theorem feed_blocks (f : β → List α → β) (v : β) (bs : List (List α)) :
    (feed f v bs).map Prod.snd = bs := by
  induction bs generalizing v with
  | nil => rfl
  | cons b bs ih => exact congrArg (List.cons b) (ih (f v b))

end Kirkwood.Verified.Blocks
