import FastInAHurry.Library.Words

/-!
# The random number generator

The embedding of `utils/XorBitant.hh`. One call replaces the 64-bit state by its image under three
shifts, each added to the word it was taken from, and returns the low 32 bits of a product of the
new state. The shifts are those of unsigned words, and so is the product.

The update is linear and loses nothing, so the calls permute the states, zero apart. How many
cycles they make is decided by the three constants of the shifts. With 13, 7 and 5 the map of the
update satisfies a polynomial of degree 64 that is a product of one of degree 22 and one of degree
42, so the states sent to zero by the first are cycles of their own.
-/

namespace FastInAHurry

open Words

/-! ## The generator -/

def magicMultiplier : BitVec 64 := 0x9E3779B97F4A7C15

def magicSeed : BitVec 64 := 0xDEADBEEFBABECAFE

structure XorBitant32 where
  mState : BitVec 64 := magicSeed
deriving DecidableEq

namespace XorBitant32

/-- The constructor; without an argument its seed is `magicSeed`. -/
def new (seed : BitVec 64) : XorBitant32 := { mState := seed }

/-- `operator()`: the number returned, and the generator afterwards. -/
def call (g : XorBitant32) : BitVec 32 × XorBitant32 :=
  let x := g.mState
  let x := x ^^^ (x <<< 13)
  let x := x ^^^ (x >>> 7)
  let x := x ^^^ (x <<< 5)
  ((x * magicMultiplier).setWidth 32, { g with mState := x })

/-- The generator after `n` calls. -/
def afterCalls (seed : BitVec 64) : ℕ → XorBitant32
  | 0 => new seed
  | n + 1 => (afterCalls seed n).call.2

/-- The state after `n` calls. -/
def stateAfter (seed : BitVec 64) (n : ℕ) : BitVec 64 := (afterCalls seed n).mState

/-! ## The update of the state -/

/-- What a call does to the state. -/
def update (x : BitVec 64) : BitVec 64 := (new x).call.2.mState

/-- The number a call returns, in terms of the state it leaves. -/
def output (x : BitVec 64) : BitVec 32 := (x * magicMultiplier).setWidth 32

theorem stateAfter_eq_iterate (seed : BitVec 64) (n : ℕ) : stateAfter seed n = update^[n] seed := by
  induction n with
  | zero => rfl
  | succ n ih =>
    rw [Function.iterate_succ_apply', ← ih]
    rfl

theorem linear_xor_shiftLeft (k : ℕ) : Linear fun x : BitVec 64 ↦ x ^^^ (x <<< k) :=
  Linear.id.xor (linear_shiftLeft k)

theorem linear_update : Linear update :=
  (linear_xor_shiftLeft 5).comp
    ((Linear.id.xor (linear_shiftRight 7)).comp (linear_xor_shiftLeft 13))

theorem update_injective : Function.Injective update :=
  (injective_xor_shiftLeft (by decide : 0 < 5)).comp
    ((injective_xor_shiftRight (by decide : 0 < 7)).comp
      (injective_xor_shiftLeft (by decide : 0 < 13)))

/-! ## The number returned -/

/-- The product of the low halves, which is odd again. -/
def lowProduct (x : BitVec 32) : BitVec 32 := x * magicMultiplier.setWidth 32

theorem output_eq (x : BitVec 64) : output x = lowProduct (x.setWidth 32) :=
  BitVec.setWidth_mul x magicMultiplier (by decide)

theorem lowProduct_bijective : Function.Bijective lowProduct :=
  bijective_of_injective (mul_odd_injective (by decide))

/-- As many states return one number as return any other. -/
theorem ncard_call_eq (r : BitVec 32) : {x | (new x).call.1 = r}.ncard = 2 ^ 32 := by
  obtain ⟨lo, rfl⟩ := lowProduct_bijective.surjective r
  have hpre : {x | (new x).call.1 = lowProduct lo}
      = Set.preimage update {y : BitVec (32 + 32) | y.setWidth 32 = lo} := by
    ext x
    change output (update x) = lowProduct lo ↔ (update x).setWidth 32 = lo
    rw [output_eq]
    exact lowProduct_bijective.injective.eq_iff
  have hsurj := (bijective_of_injective update_injective).surjective
  rw [hpre, Set.ncard_preimage_of_injective_subset_range update_injective, ncard_setWidth_eq]
  rw [hsurj.range_eq]
  exact Set.subset_univ _

/-- **The generator permutes its states, and returns every number equally often.** Generators with
different seeds never meet, none falls into the state zero, where it would stay and return zero,
and each number is returned from 2 ^ 32 states: the truncated product permutes the low halves. -/
theorem call_permutes :
    Function.Bijective update ∧
      (∀ seed seed' n, seed ≠ seed' → stateAfter seed n ≠ stateAfter seed' n) ∧
      (∀ seed n, seed ≠ 0#64 → stateAfter seed n ≠ 0#64) ∧
      (∀ n, (afterCalls 0#64 n).call = (0#32, new 0#64)) ∧
      (∀ r, {x | (new x).call.1 = r}.ncard = 2 ^ 32) ∧
      ∃ g : BitVec 32 → BitVec 32, Function.Bijective g ∧
        ∀ x : BitVec 64, (x * magicMultiplier).setWidth 32 = g (x.setWidth 32) := by
  have hdiffer : ∀ seed seed' n, seed ≠ seed' → stateAfter seed n ≠ stateAfter seed' n := by
    intro seed seed' n hne heq
    rw [stateAfter_eq_iterate, stateAfter_eq_iterate] at heq
    exact hne (update_injective.iterate n heq)
  have hzero : ∀ n, stateAfter 0#64 n = 0#64 := by
    intro n
    rw [stateAfter_eq_iterate, linear_update.iterate_zero]
  refine ⟨bijective_of_injective update_injective, hdiffer, fun seed n hne ↦ ?_, fun n ↦ ?_,
    ncard_call_eq, lowProduct, lowProduct_bijective, output_eq⟩
  · rw [← hzero n]
    exact hdiffer seed 0#64 n hne
  · have hgen : afterCalls 0#64 n = new (stateAfter 0#64 n) := rfl
    rw [hgen, hzero n]
    decide

/-! ## The cycles -/

/-- Repeated calls visit every state but zero before they return to the seed. -/
def FullPeriod (seed : BitVec 64) : Prop :=
  ∀ x, x ≠ 0#64 → ∃ n, stateAfter seed n = x ∧ ∀ m, 0 < m → m ≤ n → stateAfter seed m ≠ seed

/-- The coefficients of the factor of degree 22, the constant one first. -/
def factor22 : List Bool :=
  [true, true, true, false, false, true, true, true, false, false, false, true, false, true, false,
    false, true, false, false, false, true, false, true]

/-- A state of a short cycle: the factor of degree 42 sends 1 to it, and `factor22` it to zero. -/
def strayState : BitVec 64 := 0x099B519775970DF4

theorem poly_factor22_strayState : poly update factor22 strayState = 0#64 := by decide +kernel

theorem poly_factor22_one : poly update factor22 1#64 ≠ 0#64 := by decide +kernel

/-- **No seed has full period.** Whatever the seed, some state other than zero is never visited: the
states that `factor22` sends to zero and the others are cycled through apart. -/
theorem not_fullPeriod (seed : BitVec 64) : ¬FullPeriod seed := by
  intro hfull
  obtain ⟨x, hx, hmiss⟩ := exists_notMem_orbit linear_update update_injective
    (by decide : strayState ≠ 0#64) poly_factor22_strayState poly_factor22_one seed
  obtain ⟨n, hn, -⟩ := hfull x hx
  rw [stateAfter_eq_iterate] at hn
  exact hmiss n hn

/-- From the default seed, `strayState` is never visited. -/
theorem magicSeed_misses_strayState :
    magicSeed ≠ 0#64 ∧ (∀ n, stateAfter magicSeed n ≠ strayState) ∧ ¬FullPeriod magicSeed := by
  have hmiss : ∀ n, stateAfter magicSeed n ≠ strayState := by
    intro n hn
    have hseed : poly update factor22 magicSeed ≠ 0#64 := by decide +kernel
    apply hseed
    rw [stateAfter_eq_iterate] at hn
    rw [← poly_iterate_eq_zero_iff linear_update update_injective factor22 n, hn]
    exact poly_factor22_strayState
  refine ⟨by decide, hmiss, fun hfull ↦ ?_⟩
  obtain ⟨n, hn, -⟩ := hfull strayState (by decide)
  exact hmiss n hn

end XorBitant32

end FastInAHurry
