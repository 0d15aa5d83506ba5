import Mathlib.Algebra.BigOperators.Group.Finset.Piecewise
import Mathlib.Algebra.BigOperators.Ring.Finset

/-!
# Counting threads by where they stand

A finite family of threads is a function to program points, and one step moves one of them. The
invariants of such a system are equations between totals over the family. Everything here follows
from how a total changes when one thread moves; a count is the total of an indicator.
-/

namespace Census

variable {ι α M : Type*} [Fintype ι]

/-- The total weight of the points where the threads stand. -/
def tally [AddCommMonoid M] (w : α → M) (f : ι → α) : M := ∑ i, w (f i)

/-- The number of threads at a point of the given kind. -/
def count (P : α → Bool) (f : ι → α) : ℕ := (Finset.univ.filter fun i ↦ P (f i) = true).card

theorem tally_eq_zero [AddCommMonoid M] {w : α → M} {f : ι → α} (h : ∀ i, w (f i) = 0) :
    tally w f = 0 :=
  Finset.sum_eq_zero fun i _ ↦ h i

theorem count_eq_zero {P : α → Bool} {f : ι → α} (h : ∀ i, P (f i) = false) : count P f = 0 := by
  rw [count, Finset.card_eq_zero, Finset.filter_eq_empty_iff]
  intro i _
  simp [h i]

theorem count_pos {P : α → Bool} {f : ι → α} {i : ι} (h : P (f i) = true) : 0 < count P f :=
  Finset.card_pos.mpr ⟨i, Finset.mem_filter.mpr ⟨Finset.mem_univ i, h⟩⟩

theorem exists_of_count_pos {P : α → Bool} {f : ι → α} (h : 0 < count P f) :
    ∃ i, P (f i) = true := by
  obtain ⟨i, hi⟩ := Finset.card_pos.mp h
  exact ⟨i, (Finset.mem_filter.mp hi).2⟩

theorem count_le_card (P : α → Bool) (f : ι → α) : count P f ≤ Fintype.card ι :=
  Finset.card_le_univ _

/-! ## One thread moves -/

variable [DecidableEq ι]

theorem tally_update [AddCommMonoid M] (w : α → M) (f : ι → α) (i : ι) (a : α) :
    tally w (Function.update f i a) + w (f i) = tally w f + w a := by
  have hsplit : ∀ g : ι → α, tally w g = w (g i) + ∑ j ∈ Finset.univ.erase i, w (g j) :=
    fun g ↦ (Finset.add_sum_erase _ (fun j ↦ w (g j)) (Finset.mem_univ i)).symm
  have hrest : ∑ j ∈ Finset.univ.erase i, w (Function.update f i a j) =
      ∑ j ∈ Finset.univ.erase i, w (f j) := by
    refine Finset.sum_congr rfl fun j hj ↦ ?_
    rw [Function.update_of_ne (Finset.ne_of_mem_erase hj)]
  rw [hsplit, hsplit f, hrest, Function.update_self]
  ac_rfl

/-- Where only one summand changes, the sum changes with it. -/
theorem sum_add_eq_of_ne {f g : ι → ℕ} {i : ι} (h : ∀ j, j ≠ i → g j = f j) :
    ∑ j, g j + f i = ∑ j, f j + g i := by
  have heq : g = Function.update f i (g i) := Function.eq_update_iff.mpr ⟨rfl, h⟩
  have hupdate := tally_update (fun n : ℕ ↦ n) f i (g i)
  rw [← heq] at hupdate
  exact hupdate

/-- **Ledger.** Where `x` is the total of the threads plus what has been settled, `y`, it stays so
when one thread moves and the two columns change by the weight it loses and gains. -/
theorem tally_ledger [AddCancelCommMonoid M] {w : α → M} {f : ι → α} {i : ι} {a : α}
    {x y x' y' : M} (h : x = y + tally w f) (hmove : x' + (w (f i) + y) = x + (w a + y')) :
    x' = y' + tally w (Function.update f i a) := by
  refine add_right_cancel (b := w (f i) + y) ?_
  rw [hmove, h]
  calc y + tally w f + (w a + y')
      = y' + y + (tally w f + w a) := by ac_rfl
    _ = y' + y + (tally w (Function.update f i a) + w (f i)) := by rw [tally_update]
    _ = y' + tally w (Function.update f i a) + (w (f i) + y) := by ac_rfl

theorem count_update (P : α → Bool) (f : ι → α) (i : ι) (a : α) :
    count P (Function.update f i a) + (P (f i)).toNat = count P f + (P a).toNat := by
  have hcount : ∀ g : ι → α, count P g = tally (fun a ↦ (P a).toNat) g := fun g ↦ by
    rw [count, Finset.card_filter, tally]
    refine Finset.sum_congr rfl fun j _ ↦ ?_
    cases P (g j) <;> rfl
  rw [hcount, hcount]
  exact tally_update (fun a ↦ (P a).toNat) f i a

end Census
