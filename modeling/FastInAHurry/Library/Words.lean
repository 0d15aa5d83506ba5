import Mathlib.Data.BitVec
import Mathlib.Data.Nat.ModEq
import Mathlib.Data.Nat.Prime.Basic
import Mathlib.Data.Set.Card
import Mathlib.Logic.Function.Iterate

/-!
# Words under exclusive or

The words of `w` bits are a vector space over the field with two elements, with exclusive or as
their sum. The shifts are linear maps of it, and so is what is built from them by composition and
sums; such a map is injective when only zero goes to zero.

Iterating an injective linear map permutes the words other than zero. `exists_notMem_orbit` says
when it does so in more than one cycle: a polynomial of the map commutes with it, so the words that
the polynomial sends to zero and those that it does not are never mixed.
-/

namespace Words

variable {w : ℕ} {f g : BitVec w → BitVec w}

/-! ## Linear maps -/

def Linear (f : BitVec w → BitVec w) : Prop := ∀ x y, f (x ^^^ y) = f x ^^^ f y

theorem Linear.zero (hf : Linear f) : f 0#w = 0#w := by
  have h : f (0#w ^^^ 0#w) = f 0#w ^^^ f 0#w := hf 0#w 0#w
  rwa [BitVec.xor_self, BitVec.xor_self] at h

theorem Linear.xor (hf : Linear f) (hg : Linear g) : Linear fun x ↦ f x ^^^ g x := by
  intro x y
  change f (x ^^^ y) ^^^ g (x ^^^ y) = (f x ^^^ g x) ^^^ (f y ^^^ g y)
  rw [hf, hg, BitVec.xor_assoc, BitVec.xor_assoc, ← BitVec.xor_assoc (f y),
    ← BitVec.xor_assoc (g x), BitVec.xor_comm (f y)]

theorem Linear.id : Linear (id : BitVec w → BitVec w) := fun _ _ ↦ rfl

theorem Linear.comp (hf : Linear f) (hg : Linear g) : Linear (f ∘ g) := by
  intro x y
  rw [Function.comp_apply, hg, hf]
  rfl

/-- A linear map that sends only zero to zero is injective. -/
theorem Linear.injective (hf : Linear f) (h : ∀ x, f x = 0#w → x = 0#w) :
    Function.Injective f := by
  intro x y hxy
  have hzero : f (x ^^^ y) = 0#w := by rw [hf, hxy, BitVec.xor_self]
  exact BitVec.xor_eq_zero_iff.mp (h _ hzero)

/-- Adding to a word its image under a map that vanishes when it is iterated loses nothing: a word
that is sent to itself is sent to itself by every iterate. -/
theorem Linear.injective_xor {s : BitVec w → BitVec w} (hs : Linear s) {n : ℕ}
    (hnil : ∀ x, s^[n] x = 0#w) : Function.Injective fun x ↦ x ^^^ s x := by
  apply (Linear.id.xor hs).injective
  intro x hx
  have hfixed : s x = x := (BitVec.xor_eq_zero_iff.mp hx).symm
  rw [← Function.iterate_fixed hfixed n, hnil]

/-! ## Shifting a word and adding it -/

theorem linear_shiftLeft (k : ℕ) : Linear fun x : BitVec w ↦ x <<< k :=
  fun x y ↦ BitVec.shiftLeft_xor_distrib x y k

theorem linear_shiftRight (k : ℕ) : Linear fun x : BitVec w ↦ x >>> k :=
  fun x y ↦ BitVec.ushiftRight_xor_distrib x y k

theorem iterate_shiftLeft (k n : ℕ) (x : BitVec w) :
    (fun y : BitVec w ↦ y <<< k)^[n] x = x <<< (k * n) := by
  induction n with
  | zero => rw [Nat.mul_zero, BitVec.shiftLeft_zero]; rfl
  | succ n ih => rw [Function.iterate_succ_apply', ih, Nat.mul_succ, BitVec.shiftLeft_add]

theorem iterate_shiftRight (k n : ℕ) (x : BitVec w) :
    (fun y : BitVec w ↦ y >>> k)^[n] x = x >>> (k * n) := by
  induction n with
  | zero => rw [Nat.mul_zero, BitVec.ushiftRight_zero]; rfl
  | succ n ih => rw [Function.iterate_succ_apply', ih, Nat.mul_succ, BitVec.shiftRight_add]

/-- `x ^= x << k` loses nothing. -/
theorem injective_xor_shiftLeft {k : ℕ} (hk : 0 < k) :
    Function.Injective fun x : BitVec w ↦ x ^^^ (x <<< k) := by
  apply (linear_shiftLeft k).injective_xor (n := w)
  intro x
  rw [iterate_shiftLeft]
  exact BitVec.shiftLeft_eq_zero (Nat.le_mul_of_pos_left w hk)

/-- `x ^= x >> k` loses nothing. -/
theorem injective_xor_shiftRight {k : ℕ} (hk : 0 < k) :
    Function.Injective fun x : BitVec w ↦ x ^^^ (x >>> k) := by
  apply (linear_shiftRight k).injective_xor (n := w)
  intro x
  rw [iterate_shiftRight]
  exact BitVec.ushiftRight_eq_zero (Nat.le_mul_of_pos_left w hk)

/-! ## Polynomials of a map and its cycles -/

/-- The polynomial of a map with the given coefficients, the constant one first. -/
def poly (f : BitVec w → BitVec w) : List Bool → BitVec w → BitVec w
  | [], _ => 0#w
  | c :: cs, x => (bif c then x else 0#w) ^^^ f (poly f cs x)

theorem Linear.poly_commute (hf : Linear f) (cs : List Bool) : Function.Commute (poly f cs) f := by
  intro x
  induction cs with
  | nil => exact hf.zero.symm
  | cons c cs ih =>
    have hc : (bif c then f x else 0#w) = f (bif c then x else 0#w) := by
      cases c
      · exact hf.zero.symm
      · rfl
    rw [poly, poly, ih, hf, hc]

theorem Linear.poly_zero (hf : Linear f) (cs : List Bool) : poly f cs 0#w = 0#w := by
  induction cs with
  | nil => rfl
  | cons c cs ih => rw [poly, ih, hf.zero, Bool.cond_self, BitVec.xor_zero]

theorem Linear.iterate_zero (hf : Linear f) (n : ℕ) : f^[n] 0#w = 0#w :=
  Function.iterate_fixed hf.zero n

/-- The words that a polynomial of the map sends to zero and the others are not mixed. -/
theorem poly_iterate_eq_zero_iff (hf : Linear f) (hinj : Function.Injective f) (cs : List Bool)
    (n : ℕ) (x : BitVec w) : poly f cs (f^[n] x) = 0#w ↔ poly f cs x = 0#w := by
  rw [(hf.poly_commute cs).iterate_right n x]
  constructor
  · intro h
    exact hinj.iterate n (h.trans (hf.iterate_zero n).symm)
  · intro h
    rw [h, hf.iterate_zero]

/-- **More than one cycle.** If a polynomial of an injective linear map sends some words other than
zero to zero, and not all of them, then no orbit of the map visits every word other than zero. -/
theorem exists_notMem_orbit (hf : Linear f) (hinj : Function.Injective f) {cs : List Bool}
    {u v : BitVec w} (hv : v ≠ 0#w) (hker : poly f cs v = 0#w) (hu : poly f cs u ≠ 0#w)
    (x : BitVec w) : ∃ y, y ≠ 0#w ∧ ∀ n, f^[n] x ≠ y := by
  by_cases hx : poly f cs x = 0#w
  · refine ⟨u, fun hzero ↦ hu (hzero ▸ hf.poly_zero cs), fun n heq ↦ hu ?_⟩
    rw [← heq, poly_iterate_eq_zero_iff hf hinj]
    exact hx
  · refine ⟨v, hv, fun n heq ↦ hx ?_⟩
    rw [← poly_iterate_eq_zero_iff hf hinj cs n, heq]
    exact hker

/-! ## Products and truncation -/

/-- No information is lost when a word is multiplied by an odd one. -/
theorem mul_odd_injective {m : BitVec w} (hm : Odd m.toNat) :
    Function.Injective fun x : BitVec w ↦ x * m := by
  intro x y hxy
  have hmod : x.toNat * m.toNat ≡ y.toNat * m.toNat [MOD 2 ^ w] := by
    have h := congrArg BitVec.toNat hxy
    rwa [BitVec.toNat_mul, BitVec.toNat_mul] at h
  have hcancel : x.toNat ≡ y.toNat [MOD 2 ^ w] :=
    Nat.ModEq.cancel_right_of_coprime ((Nat.coprime_two_right.mpr hm).pow_right w).symm hmod
  exact BitVec.eq_of_toNat_eq (hcancel.eq_of_lt_of_lt x.isLt y.isLt)

theorem finite_bitVec (w : ℕ) : Finite (BitVec w) := Finite.of_equiv _ BitVec.equivFin.symm.toEquiv

theorem card_bitVec (w : ℕ) : Nat.card (BitVec w) = 2 ^ w := by
  rw [Nat.card_congr BitVec.equivFin.toEquiv, Nat.card_fin]

/-- An injective map of words is a permutation of them. -/
theorem bijective_of_injective (h : Function.Injective f) : Function.Bijective f :=
  have := finite_bitVec w
  Finite.injective_iff_bijective.mp h

/-- Every word is the truncation of equally many wider words. -/
theorem ncard_setWidth_eq (u v : ℕ) (lo : BitVec v) :
    {x : BitVec (u + v) | x.setWidth v = lo}.ncard = 2 ^ u := by
  have hrange : {x : BitVec (u + v) | x.setWidth v = lo}
      = Set.range fun hi : BitVec u ↦ hi ++ lo := by
    ext x
    constructor
    · rintro rfl
      refine ⟨x.extractLsb' v u, ?_⟩
      beta_reduce
      rw [BitVec.setWidth_eq_extractLsb' (Nat.le_add_left v u)]
      exact BitVec.extractLsb'_append_extractLsb'
    · rintro ⟨hi, rfl⟩
      exact BitVec.setWidth_append_eq_right
  have hinj : Function.Injective fun hi : BitVec u ↦ hi ++ lo := fun _ _ h ↦
    (BitVec.append_left_inj lo).mp h
  rw [hrange, ← Set.image_univ, Set.ncard_image_of_injective _ hinj, Set.ncard_univ, card_bitVec]

end Words
