import FastInAHurry.Math.AutoDiff
import Mathlib.Analysis.InnerProductSpace.Basic
import Mathlib.Analysis.SpecialFunctions.Trigonometric.Deriv

/-!
# Two ways to a derivative

The rest of `math/AutoDiff.hpp`, the sine, cosine and exponential of a dual number, and the
difference quotients of `math/FiniteDiff.hpp`. Both files compute with `double`; here it is any
field with the three functions, and for the results the reals.

A term is evaluated with dual numbers as before. Where its divisions are harmless it comes out with
its value and its derivative in the sense of analysis, and there it is analytic, so that the error
of a difference quotient can be read off its power series: the even terms cancel in the central
quotient, which is why that is of second order.
-/

open Asymptotics Filter Topology

namespace FastInAHurry

/-- The functions of `cmath` that are used. -/
class Cmath (K : Type*) where
  sin : K → K
  cos : K → K
  exp : K → K

noncomputable instance : Cmath ℝ := ⟨Real.sin, Real.cos, Real.exp⟩

variable {K : Type*} [Field K] [Cmath K]

namespace Dual

def sin (x : Dual K) : Dual K := ⟨Cmath.sin x.val, Cmath.cos x.val * x.d⟩

def cos (x : Dual K) : Dual K := ⟨Cmath.cos x.val, -Cmath.sin x.val * x.d⟩

def exp (x : Dual K) : Dual K :=
  let e := Cmath.exp x.val
  ⟨e, e * x.d⟩

end Dual

/-! ## Terms -/

/-- What the operators and functions of a dual number build from constants and the variable. -/
inductive Term (K : Type*) where
  | const (c : K)
  | var
  | add (l r : Term K)
  | sub (l r : Term K)
  | mul (l r : Term K)
  | div (l r : Term K)
  | sin (e : Term K)
  | cos (e : Term K)
  | exp (e : Term K)

namespace Term

/-- The term evaluated with dual numbers. -/
def eval (x : K) : Term K → Dual K
  | const c => ⟨c, 0⟩
  | var => ⟨x, 1⟩
  | add l r => l.eval x + r.eval x
  | sub l r => l.eval x - r.eval x
  | mul l r => l.eval x * r.eval x
  | div l r => l.eval x / r.eval x
  | sin e => (e.eval x).sin
  | cos e => (e.eval x).cos
  | exp e => (e.eval x).exp

/-- The ordinary value of the term. -/
def value (x : K) : Term K → K
  | const c => c
  | var => x
  | add l r => l.value x + r.value x
  | sub l r => l.value x - r.value x
  | mul l r => l.value x * r.value x
  | div l r => l.value x / r.value x
  | sin e => Cmath.sin (e.value x)
  | cos e => Cmath.cos (e.value x)
  | exp e => Cmath.exp (e.value x)

/-- No divisor has the value 0, and each division has the dividend 0 or a divisor whose square
is 1. -/
def Harmless (x : K) : Term K → Prop
  | const _ | var => True
  | add l r | sub l r | mul l r => l.Harmless x ∧ r.Harmless x
  | div l r => l.Harmless x ∧ r.Harmless x ∧ r.value x ≠ 0 ∧ (l.value x = 0 ∨ r.value x ^ 2 = 1)
  | sin e | cos e | exp e => e.Harmless x

/-! ## What a dual number comes out as -/

/-- The divisions that are harmless are those on which the product is the quotient. -/
theorem val_eval {x : ℝ} {e : Term ℝ} (h : e.Harmless x) : (e.eval x).val = e.value x := by
  induction e with
  | const c => rfl
  | var => rfl
  | add l r ihl ihr => exact congrArg₂ (· + ·) (ihl h.1) (ihr h.2)
  | sub l r ihl ihr => exact congrArg₂ (· - ·) (ihl h.1) (ihr h.2)
  | mul l r ihl ihr => exact congrArg₂ (· * ·) (ihl h.1) (ihr h.2)
  | div l r ihl ihr =>
    have hval : ((div l r).eval x).val = (l.eval x).val * (r.eval x).val := rfl
    rw [hval, ihl h.1, ihr h.2.1]
    exact (Expr.mul_eq_div_iff h.2.2.1).mpr h.2.2.2
  | sin e ih => exact congrArg Real.sin (ih h)
  | cos e ih => exact congrArg Real.cos (ih h)
  | exp e ih => exact congrArg Real.exp (ih h)

/-- The second component is the derivative, whose rules speak of the values of the operands. -/
theorem hasDerivAt_value {x : ℝ} {e : Term ℝ} (h : e.Harmless x) :
    HasDerivAt (fun y ↦ e.value y) (e.eval x).d x := by
  induction e with
  | const c => exact hasDerivAt_const x c
  | var => exact hasDerivAt_id x
  | add l r ihl ihr => exact HasDerivAt.fun_add (ihl h.1) (ihr h.2)
  | sub l r ihl ihr => exact HasDerivAt.fun_sub (ihl h.1) (ihr h.2)
  | mul l r ihl ihr =>
    have hmul := (ihl h.1).mul (ihr h.2)
    rw [← val_eval h.1, ← val_eval h.2] at hmul
    exact hmul
  | div l r ihl ihr =>
    have hdiv := (ihl h.1).div (ihr h.2.1) h.2.2.1
    rw [pow_two, ← val_eval h.1, ← val_eval h.2.1] at hdiv
    exact hdiv
  | sin e ih =>
    have hsin := (ih h).sin
    rw [← val_eval (e := e) h] at hsin
    exact hsin
  | cos e ih =>
    have hcos := (ih h).cos
    rw [← val_eval (e := e) h] at hcos
    exact hcos
  | exp e ih =>
    have hexp := (ih h).exp
    rw [← val_eval (e := e) h] at hexp
    exact hexp

/-- **Dual numbers differentiate.** Where its divisions are harmless, a term is evaluated to its
value and to the derivative of its value. -/
theorem eval_hasDerivAt {x : ℝ} {e : Term ℝ} (h : e.Harmless x) :
    (e.eval x).val = e.value x ∧ HasDerivAt (fun y ↦ e.value y) (e.eval x).d x :=
  ⟨val_eval h, hasDerivAt_value h⟩

/-- `exp (x * cos x)` at 0. -/
theorem eval_hasDerivAt_exp : ((exp (mul var (cos var))).eval (0 : ℝ)).val = 1 ∧
    HasDerivAt (fun y ↦ Real.exp (y * Real.cos y)) 1 0 := by
  have hharmless : (exp (mul var (cos var))).Harmless (0 : ℝ) := ⟨trivial, trivial⟩
  obtain ⟨hval, hderiv⟩ := eval_hasDerivAt hharmless
  have hd : ((exp (mul var (cos var))).eval (0 : ℝ)).d = 1 := by
    show Real.exp (0 * Real.cos 0) * (1 * Real.cos 0 + 0 * (-Real.sin 0 * 1)) = 1
    simp
  rw [hd] at hderiv
  refine ⟨hval.trans ?_, hderiv⟩
  show Real.exp (0 * Real.cos 0) = 1
  simp

theorem analyticAt_value {x : ℝ} {e : Term ℝ} (h : e.Harmless x) :
    AnalyticAt ℝ (fun y ↦ e.value y) x := by
  induction e with
  | const c => exact analyticAt_const
  | var => exact analyticAt_id
  | add l r ihl ihr => exact (ihl h.1).add (ihr h.2)
  | sub l r ihl ihr => exact (ihl h.1).sub (ihr h.2)
  | mul l r ihl ihr => exact (ihl h.1).mul (ihr h.2)
  | div l r ihl ihr => exact (ihl h.1).div (ihr h.2.1) h.2.2.1
  | sin e ih => exact Real.analyticAt_sin.comp (ih h)
  | cos e ih => exact Real.analyticAt_cos.comp (ih h)
  | exp e ih => exact analyticAt_rexp.comp (ih h)

end Term

/-! ## Difference quotients -/

namespace FiniteDiff

inductive DiffType where
  | forward
  | backward
  | central
deriving DecidableEq, Repr

section Quotients

variable {F : Type*} [Field F]

def calcForwardFiniteDiff (x : F) (f : F → F) (h : F) : F := (f (x + h) - f x) / h

def calcCentralFiniteDiff (x : F) (f : F → F) (h : F) : F := (f (x + h) - f (x - h)) / (2 * h)

def calcBackwardFiniteDiff (x : F) (f : F → F) (h : F) : F := (f x - f (x - h)) / h

/-- `FiniteDiff::calc`. -/
def calcFiniteDiff (diffType : DiffType) (x h : F) (f : F → F) : F :=
  match diffType with
  | .forward => calcForwardFiniteDiff x f h
  | .central => calcCentralFiniteDiff x f h
  | .backward => calcBackwardFiniteDiff x f h

end Quotients

/-- The power of the step that the error goes with. -/
def DiffType.order : DiffType → ℕ
  | .forward | .backward => 1
  | .central => 2

variable {f : ℝ → ℝ} {x : ℝ}

/-- Two terms of the power series and what is left of it. -/
theorem exists_series (hf : AnalyticAt ℝ f x) : ∃ b : ℝ,
    (fun h ↦ f (x + h) - (f x + deriv f x * h + b * h ^ 2)) =O[𝓝 0] fun h ↦ h ^ 3 := by
  obtain ⟨p, hp⟩ := hf
  refine ⟨p.coeff 2, ?_⟩
  have hbig := hp.isBigO_sub_partialSum_pow 3
  have hsum : ∀ h : ℝ, p.partialSum 3 h = f x + deriv f x * h + p.coeff 2 * h ^ 2 := by
    intro h
    have hone : deriv f x = p.coeff 1 := by
      rw [hp.deriv, FormalMultilinearSeries.apply_eq_pow_smul_coeff, one_pow, one_smul]
    rw [FormalMultilinearSeries.partialSum, Finset.sum_range_succ, Finset.sum_range_succ,
      Finset.sum_range_one, hp.coeff_zero, FormalMultilinearSeries.apply_eq_pow_smul_coeff,
      FormalMultilinearSeries.apply_eq_pow_smul_coeff, hone, smul_eq_mul, smul_eq_mul]
    ring
  simp only [hsum] at hbig
  refine hbig.trans (IsBigO.of_bound 1 (Eventually.of_forall fun h ↦ ?_))
  rw [norm_pow, norm_norm, norm_pow, one_mul]

/-- The same to the other side. -/
theorem isBigO_neg {b : ℝ}
    (hb : (fun h ↦ f (x + h) - (f x + deriv f x * h + b * h ^ 2)) =O[𝓝 0] fun h ↦ h ^ 3) :
    (fun h ↦ f (x - h) - (f x - deriv f x * h + b * h ^ 2)) =O[𝓝 0] fun h ↦ h ^ 3 := by
  have hneg : Tendsto (fun h : ℝ ↦ -h) (𝓝 0) (𝓝 0) := by
    simpa using (continuous_neg (G := ℝ)).tendsto 0
  have hcomp := hb.comp_tendsto hneg
  refine (hcomp.congr_left fun h ↦ ?_).trans (IsBigO.of_bound 1 (Eventually.of_forall fun h ↦ ?_))
  · simp only [Function.comp_apply]
    ring_nf
  · simp only [Function.comp_apply, norm_pow, norm_neg, one_mul, le_refl]

/-- An error of the numerator, divided by the step. -/
theorem isBigO_div {g : ℝ → ℝ} {n : ℕ} (hg : g =O[𝓝 0] fun h ↦ h ^ (n + 1)) :
    (fun h ↦ g h / h) =O[𝓝[≠] 0] fun h ↦ h ^ n := by
  obtain ⟨c, hc⟩ := (hg.mono nhdsWithin_le_nhds).bound
  refine IsBigO.of_bound c ?_
  filter_upwards [hc, self_mem_nhdsWithin] with h hle hne
  have hpos : 0 < ‖h‖ := norm_pos_iff.mpr hne
  rw [norm_div, div_le_iff₀ hpos, mul_assoc, ← norm_mul, ← pow_succ]
  exact hle

/-- **The order of the quotients.** At a point where a function is analytic, the forward and the
backward quotient miss its derivative by a term of first order in the step, and the central one by
a term of second order. -/
theorem calcFiniteDiff_sub_deriv (hf : AnalyticAt ℝ f x) (diffType : DiffType) :
    (fun h ↦ calcFiniteDiff diffType x h f - deriv f x) =O[𝓝[≠] 0]
      fun h ↦ h ^ diffType.order := by
  obtain ⟨b, hb⟩ := exists_series hf
  have hb' := isBigO_neg hb
  have hsquare : (fun h : ℝ ↦ b * h ^ 2) =O[𝓝 0] fun h ↦ h ^ 2 := isBigO_const_mul_self b _ _
  have hcube : (fun h : ℝ ↦ h ^ 3) =O[𝓝 0] fun h ↦ h ^ 2 :=
    (isLittleO_pow_pow (by decide)).isBigO
  have hne : ∀ {u v : ℝ → ℝ}, (∀ h, h ≠ 0 → u h = v h) → u =ᶠ[𝓝[≠] 0] v := fun huv ↦ by
    filter_upwards [self_mem_nhdsWithin] with h hh using huv h hh
  cases diffType with
  | forward =>
    have hnum := (hb.trans hcube).add hsquare
    refine (isBigO_div hnum).congr' (hne fun h hh ↦ ?_) EventuallyEq.rfl
    rw [calcFiniteDiff, calcForwardFiniteDiff]
    field_simp
    ring
  | backward =>
    have hnum := (hsquare.neg_left).add (hb'.trans hcube).neg_left
    refine (isBigO_div hnum).congr' (hne fun h hh ↦ ?_) EventuallyEq.rfl
    rw [calcFiniteDiff, calcBackwardFiniteDiff]
    field_simp
    ring
  | central =>
    -- the terms of even order are the same on both sides
    have hnum := (hb.sub hb').const_mul_left 2⁻¹
    refine (isBigO_div hnum).congr' (hne fun h hh ↦ ?_) EventuallyEq.rfl
    rw [calcFiniteDiff, calcCentralFiniteDiff]
    field_simp
    ring

/-- **Both ways lead to the same derivative.** Where the divisions of a term are harmless, each
difference quotient of its value tends to the derivative that the dual number has computed, with an
error of first order for the forward and the backward quotient and of second order for the central
one. -/
theorem calcFiniteDiff_sub_eval {e : Term ℝ} (h : e.Harmless x) (diffType : DiffType) :
    (fun step ↦ calcFiniteDiff diffType x step (fun y ↦ e.value y) - (e.eval x).d) =O[𝓝[≠] 0]
        (fun step ↦ step ^ diffType.order) ∧
      Tendsto (fun step ↦ calcFiniteDiff diffType x step fun y ↦ e.value y) (𝓝[≠] 0)
        (𝓝 (e.eval x).d) := by
  have hderiv : deriv (fun y ↦ e.value y) x = (e.eval x).d := (Term.hasDerivAt_value h).deriv
  have hbig := calcFiniteDiff_sub_deriv (Term.analyticAt_value h) diffType
  rw [hderiv] at hbig
  refine ⟨hbig, ?_⟩
  have hpow : Tendsto (fun step : ℝ ↦ step ^ diffType.order) (𝓝[≠] 0) (𝓝 0) := by
    have horder : diffType.order ≠ 0 := by cases diffType <;> decide
    have hcont := ((continuous_pow (M := ℝ) diffType.order).tendsto 0).mono_left
      (nhdsWithin_le_nhds (s := {0}ᶜ))
    rwa [zero_pow horder] at hcont
  have hzero := hbig.trans_tendsto hpow
  simpa using hzero.add_const (e.eval x).d

/-- The slope of the sine at 0. -/
theorem calcFiniteDiff_sub_eval_sin :
    Tendsto (fun step ↦ calcFiniteDiff .central 0 step Real.sin) (𝓝[≠] 0) (𝓝 1) := by
  have hharmless : (Term.sin .var).Harmless (0 : ℝ) := trivial
  obtain ⟨-, hlimit⟩ := calcFiniteDiff_sub_eval hharmless .central
  have hd : ((Term.sin .var).eval (0 : ℝ)).d = 1 := by
    show Real.cos 0 * 1 = 1
    simp
  rw [hd] at hlimit
  exact hlimit

end FiniteDiff

end FastInAHurry
