import Mathlib.Algebra.Field.Basic
import Mathlib.Algebra.Field.Rat
import Mathlib.Analysis.Calculus.Deriv.Add
import Mathlib.Analysis.Calculus.Deriv.Inv
import Mathlib.Tactic.NormNum
import Mathlib.Topology.Algebra.Module.ModuleTopology

/-!
# Dual numbers

The arithmetic of `math/AutoDiff.hpp` over any field. A dual number is a value and a derivative, and
an expression is evaluated by the four operators from the constants `{c, 0}` and the variable
`{x, 1}`.

Sum, difference and product are right in both components. The quotient has the derivative of a
quotient and the value of a product, so it is right exactly where the two agree: the dividend is 0,
or the square of the divisor is 1. A wrong value can be corrected again further out in an
expression, as in `x / 2 - x / 2`. What can be said exactly is therefore said of an expression
together with the expressions inside it.
-/

namespace FastInAHurry

/-! ## The operators -/

@[ext]
structure Dual (K : Type*) where
  val : K
  d : K
deriving DecidableEq, Repr

namespace Dual

variable {K : Type*} [Field K]

instance : Add (Dual K) := ⟨fun a b ↦ ⟨a.val + b.val, a.d + b.d⟩⟩

instance : Sub (Dual K) := ⟨fun a b ↦ ⟨a.val - b.val, a.d - b.d⟩⟩

instance : Mul (Dual K) := ⟨fun a b ↦ ⟨a.val * b.val, a.d * b.val + a.val * b.d⟩⟩

instance : Div (Dual K) :=
  ⟨fun a b ↦ ⟨a.val * b.val, (a.d * b.val - a.val * b.d) / (b.val * b.val)⟩⟩

end Dual

/-! ## Expressions -/

/-- The expressions that the operators build from constants and the variable. -/
inductive Expr (K : Type*) where
  | const (c : K)
  | var
  | add (l r : Expr K)
  | sub (l r : Expr K)
  | mul (l r : Expr K)
  | div (l r : Expr K)
deriving DecidableEq, Repr

namespace Expr

variable {K : Type*} [Field K]

/-- The expression evaluated with dual numbers. -/
def eval (x : K) : Expr K → Dual K
  | const c => ⟨c, 0⟩
  | var => ⟨x, 1⟩
  | add l r => l.eval x + r.eval x
  | sub l r => l.eval x - r.eval x
  | mul l r => l.eval x * r.eval x
  | div l r => l.eval x / r.eval x

/-- The ordinary value of the expression. -/
def value (x : K) : Expr K → K
  | const c => c
  | var => x
  | add l r => l.value x + r.value x
  | sub l r => l.value x - r.value x
  | mul l r => l.value x * r.value x
  | div l r => l.value x / r.value x

/-- The formal derivative. -/
def deriv : Expr K → Expr K
  | const _ => const 0
  | var => const 1
  | add l r => add l.deriv r.deriv
  | sub l r => sub l.deriv r.deriv
  | mul l r => add (mul l.deriv r) (mul l r.deriv)
  | div l r => div (sub (mul l.deriv r) (mul l r.deriv)) (mul r r)

/-- No divisor has the value 0. -/
def Defined (x : K) : Expr K → Prop
  | const _ => True
  | var => True
  | add l r | sub l r | mul l r => l.Defined x ∧ r.Defined x
  | div l r => l.Defined x ∧ r.Defined x ∧ r.value x ≠ 0

/-- The expression and those inside it. -/
def subexpressions : Expr K → List (Expr K)
  | const c => [const c]
  | var => [var]
  | add l r => add l r :: (l.subexpressions ++ r.subexpressions)
  | sub l r => sub l r :: (l.subexpressions ++ r.subexpressions)
  | mul l r => mul l r :: (l.subexpressions ++ r.subexpressions)
  | div l r => div l r :: (l.subexpressions ++ r.subexpressions)

/-- The dual number that belongs to the expression: its value and the value of its derivative. -/
def dual (x : K) (e : Expr K) : Dual K := ⟨e.value x, e.deriv.value x⟩

/-- The expression is not a division, or one where product and quotient agree. -/
def Harmless (x : K) : Expr K → Prop
  | div l r => l.value x = 0 ∨ r.value x ^ 2 = 1
  | _ => True

/-- The formal derivative is the derivative, over a field that has one. -/
theorem hasDerivAt_value {𝕜 : Type*} [NontriviallyNormedField 𝕜] {x : 𝕜} {e : Expr 𝕜}
    (h : e.Defined x) : HasDerivAt (fun y ↦ e.value y) (e.deriv.value x) x := by
  induction e with
  | const c => exact hasDerivAt_const x c
  | var => exact hasDerivAt_id x
  | add l r ihl ihr => exact HasDerivAt.fun_add (ihl h.1) (ihr h.2)
  | sub l r ihl ihr => exact HasDerivAt.fun_sub (ihl h.1) (ihr h.2)
  | mul l r ihl ihr => exact (ihl h.1).mul (ihr h.2)
  | div l r ihl ihr =>
    -- the rule has the square of the divisor where the code has a product
    have hdiv := (ihl h.1).div (ihr h.2.1) h.2.2
    rw [pow_two] at hdiv
    exact hdiv

/-! ## One operator -/

theorem dual_add (x : K) (l r : Expr K) : l.dual x + r.dual x = (add l r).dual x := rfl

theorem dual_sub (x : K) (l r : Expr K) : l.dual x - r.dual x = (sub l r).dual x := rfl

theorem dual_mul (x : K) (l r : Expr K) : l.dual x * r.dual x = (mul l r).dual x := rfl

/-- The derivative of a quotient is right; its value is that of the product. -/
theorem dual_div (x : K) (l r : Expr K) :
    l.dual x / r.dual x = ⟨l.value x * r.value x, (div l r).deriv.value x⟩ := rfl

theorem mul_eq_div_iff {a b : K} (hb : b ≠ 0) : a * b = a / b ↔ a = 0 ∨ b ^ 2 = 1 := by
  rw [eq_div_iff hb, mul_assoc, ← pow_two]
  constructor
  · intro h
    rcases eq_or_ne a 0 with ha | ha
    · exact Or.inl ha
    · exact Or.inr (mul_left_cancel₀ ha (h.trans (mul_one a).symm))
  · rintro (rfl | h)
    · rw [zero_mul]
    · rw [h, mul_one]

/-- A quotient of right operands is right exactly if the division is harmless. -/
theorem dual_div_eq_iff {x : K} {l r : Expr K} (hr : r.value x ≠ 0) :
    l.dual x / r.dual x = (div l r).dual x ↔ (div l r).Harmless x := by
  rw [dual_div, dual, Dual.mk.injEq, value, mul_eq_div_iff hr]
  exact and_iff_left rfl

/-! ## All expressions -/

/-- The expression and those inside it are evaluated to what belongs to them. -/
def Right (x : K) (e : Expr K) : Prop := ∀ t ∈ e.subexpressions, t.eval x = t.dual x

omit [Field K] in
theorem mem_subexpressions_self (e : Expr K) : e ∈ e.subexpressions := by
  cases e <;> exact List.mem_cons_self

theorem Right.eval_eq {x : K} {e : Expr K} (h : e.Right x) : e.eval x = e.dual x :=
  h e (mem_subexpressions_self e)

omit [Field K] in
/-- What is said of an operator and of the expressions inside it is said of the operator and of its
operands. -/
theorem forall_mem_operator {P : Expr K → Prop} {e l r : Expr K} :
    (∀ t ∈ e :: (l.subexpressions ++ r.subexpressions), P t) ↔
      P e ∧ (∀ t ∈ l.subexpressions, P t) ∧ ∀ t ∈ r.subexpressions, P t := by
  rw [List.forall_mem_cons, List.forall_mem_append]

/-- With right operands an operator is right exactly if it is harmless; so the whole is. -/
theorem right_operator_iff {x : K} {e l r : Expr K}
    (hsub : e.subexpressions = e :: (l.subexpressions ++ r.subexpressions))
    (hl : l.Right x ↔ ∀ t ∈ l.subexpressions, t.Harmless x)
    (hr : r.Right x ↔ ∀ t ∈ r.subexpressions, t.Harmless x)
    (hop : l.Right x → r.Right x → (e.eval x = e.dual x ↔ e.Harmless x)) :
    e.Right x ↔ ∀ t ∈ e.subexpressions, t.Harmless x := by
  rw [Right, hsub, forall_mem_operator, forall_mem_operator, ← hl, ← hr]
  constructor
  · rintro ⟨he, hleft, hright⟩
    exact ⟨(hop hleft hright).mp he, hleft, hright⟩
  · rintro ⟨he, hleft, hright⟩
    exact ⟨(hop hleft hright).mpr he, hleft, hright⟩

theorem right_iff {x : K} {e : Expr K} (hdef : e.Defined x) :
    e.Right x ↔ ∀ t ∈ e.subexpressions, t.Harmless x := by
  induction e with
  | const c | var =>
    refine iff_of_true ?_ ?_
    · rintro t (_ | ⟨_, ⟨⟩⟩)
      rfl
    · rintro t (_ | ⟨_, ⟨⟩⟩)
      trivial
  | add l r ihl ihr =>
    refine right_operator_iff rfl (ihl hdef.1) (ihr hdef.2) fun hl hr ↦ iff_of_true ?_ trivial
    rw [eval, hl.eval_eq, hr.eval_eq, dual_add]
  | sub l r ihl ihr =>
    refine right_operator_iff rfl (ihl hdef.1) (ihr hdef.2) fun hl hr ↦ iff_of_true ?_ trivial
    rw [eval, hl.eval_eq, hr.eval_eq, dual_sub]
  | mul l r ihl ihr =>
    refine right_operator_iff rfl (ihl hdef.1) (ihr hdef.2) fun hl hr ↦ iff_of_true ?_ trivial
    rw [eval, hl.eval_eq, hr.eval_eq, dual_mul]
  | div l r ihl ihr =>
    refine right_operator_iff rfl (ihl hdef.1) (ihr hdef.2.1) fun hl hr ↦ ?_
    -- the one operator that can be wrong
    rw [eval, hl.eval_eq, hr.eval_eq]
    exact dual_div_eq_iff hdef.2.2

/-- **Dual numbers.** At a point where no divisor is 0, the code gives an expression and every
expression inside it the right value and derivative exactly if each division in it has the dividend
0 or a divisor whose square is 1; in this case the expression itself comes out right. -/
theorem eval_right_iff (x : K) (e : Expr K) (hdef : e.Defined x) :
    ((∀ t ∈ e.subexpressions, t.eval x = ⟨t.value x, t.deriv.value x⟩) ↔
      ∀ t ∈ e.subexpressions, t.Harmless x) ∧
    ((∀ t ∈ e.subexpressions, t.Harmless x) →
      (e.eval x).val = e.value x ∧ (e.eval x).d = e.deriv.value x) := by
  refine ⟨right_iff hdef, fun hall ↦ ?_⟩
  have heval := ((right_iff hdef).mpr hall).eval_eq
  rw [heval]
  exact ⟨rfl, rfl⟩

/-- `(x * x + 3) / (x - 1)` at 2, where the divisor is 1. -/
theorem eval_right_iff_unit_divisor :
    ((div (add (mul var var) (const 3)) (sub var (const 1))).eval (2 : ℚ)).val = 7 ∧
      ((div (add (mul var var) (const 3)) (sub var (const 1))).eval (2 : ℚ)).d = -3 := by
  have hdef : (div (add (mul var var) (const 3)) (sub var (const 1))).Defined (2 : ℚ) :=
    ⟨⟨⟨trivial, trivial⟩, trivial⟩, ⟨trivial, trivial⟩, by norm_num [value]⟩
  obtain ⟨-, hright⟩ := eval_right_iff _ _ hdef
  obtain ⟨hval, hd⟩ := hright (by simp [subexpressions, Harmless, value]; norm_num)
  rw [hval, hd]
  norm_num [value, deriv]

/-- `1 / 2` has the value 2. -/
theorem eval_one_div_two :
    (div (const 1) (const 2)).Defined (0 : ℚ) ∧
      ((div (const 1) (const 2)).eval (0 : ℚ)).val = 2 ∧
      (div (const 1) (const 2)).value (0 : ℚ) = 1 / 2 ∧
      ((div (const 1) (const 2)).eval (0 : ℚ)).val ≠ (div (const 1) (const 2)).value (0 : ℚ) := by
  have heval : ((div (const 1) (const 2)).eval (0 : ℚ)).val = 2 := one_mul 2
  have hvalue : (div (const 1) (const 2)).value (0 : ℚ) = 1 / 2 := rfl
  refine ⟨⟨trivial, trivial, two_ne_zero⟩, heval, hvalue, ?_⟩
  rw [heval, hvalue]
  norm_num

end Expr

end FastInAHurry
