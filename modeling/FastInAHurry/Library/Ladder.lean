import Mathlib.Data.Finsupp.Order
import Mathlib.Data.Finsupp.Weight

/-!
# Amounts on the rungs of a ladder

A ladder holds an amount on each of finitely many rungs of a linear order, the higher rung being the
better one. A sweep takes a quantity from the top down to a limit: from each rung as much as is
there and as the rungs above it leave. Nothing is said about what an amount is made of, which is the
point of the ladder: a component that keeps its items one by one, in whatever order within a rung,
is described by it as soon as it serves the rungs from the top.

`taken_add_single_of_le` and `taken_add_single_of_lt` are the two steps of such a component at its
best item, which the sweep takes whole or in part.
-/

namespace Ladder

variable {κ : Type*} [LinearOrder κ]

/-- The amount on the rungs above `k`. -/
noncomputable def above (f : κ →₀ ℕ) (k : κ) : ℕ := (f.filter (k < ·)).degree

/-- The amount on the rungs from `lo` on. -/
noncomputable def atLeast (f : κ →₀ ℕ) (lo : κ) : ℕ := (f.filter (lo ≤ ·)).degree

/-- What a sweep of the quantity `q` down to `lo` takes from each rung. -/
noncomputable def taken (f : κ →₀ ℕ) (lo : κ) (q : ℕ) : κ →₀ ℕ :=
  Finsupp.onFinset f.support (fun k ↦ if lo ≤ k then min (f k) (q - above f k) else 0) fun k hk ↦ by
    rw [Finsupp.mem_support_iff]
    intro h0
    rw [h0, Nat.zero_min, ite_self] at hk
    exact hk rfl

theorem taken_apply (f : κ →₀ ℕ) (lo : κ) (q : ℕ) (k : κ) :
    taken f lo q k = if lo ≤ k then min (f k) (q - above f k) else 0 := rfl

/-! ## A rung more -/

theorem above_add_single (f : κ →₀ ℕ) (r : κ) (a : ℕ) (k : κ) :
    above (Finsupp.single r a + f) k = (if k < r then a else 0) + above f k := by
  rw [above, Finsupp.filter_add, map_add, above]
  split
  · rw [Finsupp.filter_single_of_pos _ ‹_›, Finsupp.degree_single]
  · rw [Finsupp.filter_single_of_neg _ ‹_›, map_zero]

theorem atLeast_add_single (f : κ →₀ ℕ) {r lo : κ} (a : ℕ) (h : lo ≤ r) :
    atLeast (Finsupp.single r a + f) lo = a + atLeast f lo := by
  rw [atLeast, Finsupp.filter_add, map_add, Finsupp.filter_single_of_pos _ h,
    Finsupp.degree_single, atLeast]

theorem above_eq_zero {f : κ →₀ ℕ} {k : κ} (h : ∀ j, k < j → f j = 0) : above f k = 0 := by
  rw [above, Finsupp.filter_eq_zero_iff _ _ |>.mpr h, map_zero]

theorem atLeast_eq_zero {f : κ →₀ ℕ} {lo : κ} (h : ∀ j, lo ≤ j → f j = 0) : atLeast f lo = 0 := by
  rw [atLeast, Finsupp.filter_eq_zero_iff _ _ |>.mpr h, map_zero]

/-! ## Sweeps -/

theorem taken_zero (f : κ →₀ ℕ) (lo : κ) : taken f lo 0 = 0 := by
  ext k
  rw [taken_apply, Nat.zero_sub, Nat.min_zero, ite_self, Finsupp.zero_apply]

/-- A sweep takes nothing from a ladder that is empty from its limit on. -/
theorem taken_eq_zero {f : κ →₀ ℕ} {lo : κ} (h : ∀ j, lo ≤ j → f j = 0) (q : ℕ) :
    taken f lo q = 0 := by
  ext k
  rw [taken_apply, Finsupp.zero_apply]
  split
  · rw [h k ‹_›, Nat.zero_min]
  · rfl

/-- **An item of the best rung that the quantity covers** is taken whole, and the sweep goes on with
the rest of the quantity. -/
theorem taken_add_single_of_le {f : κ →₀ ℕ} {r lo : κ} {a q : ℕ} (hlo : lo ≤ r)
    (hr : ∀ j, r < j → f j = 0) (ha : a ≤ q) :
    taken (Finsupp.single r a + f) lo q = Finsupp.single r a + taken f lo (q - a) := by
  ext k
  rw [Finsupp.add_apply, taken_apply, taken_apply, above_add_single, Finsupp.add_apply]
  rcases lt_trichotomy k r with hk | rfl | hk
  · rw [if_pos hk, Finsupp.single_eq_of_ne hk.ne, zero_add, zero_add, Nat.sub_add_eq]
  · rw [if_neg (lt_irrefl k), Finsupp.single_eq_same, if_pos hlo, if_pos hlo, above_eq_zero hr]
    omega
  · rw [Finsupp.single_eq_of_ne hk.ne', hr k hk]
    simp

/-- **An item of the best rung that exceeds the quantity** is all the sweep takes from. -/
theorem taken_add_single_of_lt {f : κ →₀ ℕ} {r lo : κ} {a q : ℕ} (hlo : lo ≤ r)
    (hr : ∀ j, r < j → f j = 0) (ha : q < a) :
    taken (Finsupp.single r a + f) lo q = Finsupp.single r q := by
  ext k
  rw [taken_apply, above_add_single, Finsupp.add_apply]
  rcases lt_trichotomy k r with hk | rfl | hk
  · have hnone : q - (a + above f k) = 0 := by omega
    rw [if_pos hk, Finsupp.single_eq_of_ne hk.ne, Finsupp.single_eq_of_ne hk.ne, hnone,
      Nat.min_zero, ite_self]
  · rw [if_neg (lt_irrefl k), Finsupp.single_eq_same, Finsupp.single_eq_same, if_pos hlo,
      above_eq_zero hr]
    omega
  · rw [Finsupp.single_eq_of_ne hk.ne', Finsupp.single_eq_of_ne hk.ne', hr k hk]
    simp

end Ladder
