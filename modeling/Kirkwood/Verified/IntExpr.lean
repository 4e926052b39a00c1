import Kirkwood.Verified.CInt

/-!
# `int` expressions

The value of an expression over `int`, computed as the machine does, together with whether
an operation of it overflowed.  An expression is written as in C; `Denotes` says what it is
over the integers, and the condition under which it is computed without an overflow.

## Main results

* `Denotes.add`, `Denotes.sub`, `Denotes.mul`: the rules for the operators;
* `div_eq_none_iff`, `Denotes.div`: division.
-/

namespace Kirkwood.Verified.IntExpr

open Kirkwood.Verified.CInt

/-- The value is one of an `int`. -/
def Fits (x : Int) : Prop := -2 ^ 31 ≤ x ∧ x < 2 ^ 31

instance (x : Int) : Decidable (Fits x) := inferInstanceAs (Decidable (_ ∧ _))

/-- What an expression is computed to. -/
structure Expr where
  value : Int
  overflowed : Bool
deriving DecidableEq, Repr

/-- A variable, or a literal. -/
def var (x : Int) : Expr := ⟨x, false⟩

/-- The result of an operation whose mathematical result is `x`. -/
def op (x : Int) (a b : Expr) : Expr :=
  ⟨long x, a.overflowed || b.overflowed || decide (¬ Fits x)⟩

instance (n : Nat) : OfNat Expr n := ⟨var n⟩

instance : Add Expr := ⟨fun a b => op (a.value + b.value) a b⟩

instance : Sub Expr := ⟨fun a b => op (a.value - b.value) a b⟩

instance : Mul Expr := ⟨fun a b => op (a.value * b.value) a b⟩

/-- Division, which truncates; there is none by zero. -/
def div (a b : Expr) : Option Expr :=
  if b.value = 0 then none else some (op (a.value.tdiv b.value) a b)

/-- The expression has the value `x`, computed without an overflow exactly under `p`. -/
structure Denotes (e : Expr) (x : Int) (p : Prop) : Prop where
  exact : e.overflowed = false ↔ p
  value : p → e.value = x

section
variable {a b : Expr} {x y : Int} {p q : Prop}

theorem Denotes.var (x : Int) : Denotes (var x) x True :=
  ⟨iff_true_intro rfl, fun _ => rfl⟩

theorem Denotes.lit (n : Nat) : Denotes (OfNat.ofNat n) (n : Int) True :=
  Denotes.var n

private theorem op_exact (ha : Denotes a x p) (hb : Denotes b y q) (z : Int) :
    (op z a b).overflowed = false ↔ p ∧ q ∧ Fits z := by
  simp [op, ha.exact, hb.exact, and_assoc]

private theorem op_value {z z' : Int} (h : z' = z) (hz : Fits z) :
    (op z' a b).value = z := by
  rw [h]
  exact long_eq hz.1 hz.2

/-- The rule for an operator: what it does to the values that its operands have. -/
private theorem Denotes.op {f : Int → Int → Int} (ha : Denotes a x p)
    (hb : Denotes b y q) :
    Denotes (op (f a.value b.value) a b) (f x y) (p ∧ q ∧ Fits (f x y)) := by
  constructor
  · constructor
    · intro h
      obtain ⟨hp, hq, hfits⟩ := (op_exact ha hb _).1 h
      rw [ha.value hp, hb.value hq] at hfits
      exact ⟨hp, hq, hfits⟩
    · rintro ⟨hp, hq, hfits⟩
      refine (op_exact ha hb _).2 ⟨hp, hq, ?_⟩
      rwa [ha.value hp, hb.value hq]
  · rintro ⟨hp, hq, hfits⟩
    exact op_value (congrArg₂ f (ha.value hp) (hb.value hq)) hfits

theorem Denotes.add (ha : Denotes a x p) (hb : Denotes b y q) :
    Denotes (a + b) (x + y) (p ∧ q ∧ Fits (x + y)) :=
  Denotes.op ha hb

theorem Denotes.sub (ha : Denotes a x p) (hb : Denotes b y q) :
    Denotes (a - b) (x - y) (p ∧ q ∧ Fits (x - y)) :=
  Denotes.op (f := (· - ·)) ha hb

theorem Denotes.mul (ha : Denotes a x p) (hb : Denotes b y q) :
    Denotes (a * b) (x * y) (p ∧ q ∧ Fits (x * y)) :=
  Denotes.op (f := (· * ·)) ha hb

theorem div_eq_none_iff : div a b = none ↔ b.value = 0 := by
  simp [div]

theorem Denotes.div (ha : Denotes a x p) (hb : Denotes b y q) {e : Expr}
    (h : div a b = some e) : Denotes e (x.tdiv y) (p ∧ q ∧ Fits (x.tdiv y)) := by
  unfold IntExpr.div at h
  split at h
  · cases h
  · cases h
    exact Denotes.op ha hb

end

end Kirkwood.Verified.IntExpr
