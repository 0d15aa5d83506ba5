import Mathlib.Data.List.Basic
import Mathlib.Data.Nat.Bitwise
import Mathlib.Logic.Function.Basic

/-!
# Ring buffers indexed by wrapping counters

A ring of power-of-two capacity is addressed by two 64-bit counters that only ever grow, modulo
`2 ^ 64`. The slot of an index is its low bits. What the counters mean is a pair of natural numbers
that never wrap; the lemmas here say that as long as the two are at most a capacity apart, the
machine's comparisons on the wrapped counters decide the same questions on the numbers, and that two
indices of one window never share a slot.

The capacity is at most `2 ^ 63`, so a window of that many indices is still shorter than the range
of a counter. This is the only place where the word size enters.
-/

namespace RingIndex

/-- A power of two that fits a 64-bit word. -/
structure Capacity where
  log : ℕ
  log_le : log ≤ 63
deriving DecidableEq

namespace Capacity

variable (c : Capacity)

def size : ℕ := 2 ^ c.log

/-- The capacity as a machine word. -/
def word : UInt64 := UInt64.ofNat c.size

def mask : UInt64 := c.word - 1

/-- The slot of an index. -/
def slot (idx : UInt64) : UInt64 := idx &&& c.mask

theorem size_pos : 0 < c.size := Nat.two_pow_pos _

theorem size_le : c.size ≤ 2 ^ 63 := Nat.pow_le_pow_right (by decide) c.log_le

@[simp] theorem toNat_word : c.word.toNat = c.size := by
  have h := c.size_le
  rw [word, UInt64.toNat_ofNat', Nat.mod_eq_of_lt]
  omega

theorem toNat_mask : c.mask.toNat = c.size - 1 := by
  have hpos := c.size_pos
  have hle : 1 ≤ c.word := by
    rw [UInt64.le_iff_toNat_le, toNat_word]
    exact hpos
  rw [mask, UInt64.toNat_sub_of_le _ _ hle, toNat_word]
  rfl

/-- Masking a wrapped counter takes the number modulo the capacity. -/
theorem toNat_slot_ofNat (i : ℕ) : (c.slot (UInt64.ofNat i)).toNat = i % c.size := by
  have hdvd : c.size ∣ 2 ^ 64 := Nat.pow_dvd_pow 2 (c.log_le.trans (by decide))
  rw [slot, UInt64.toNat_and, toNat_mask, UInt64.toNat_ofNat', size,
    Nat.and_two_pow_sub_one_eq_mod]
  exact Nat.mod_mod_of_dvd i hdvd

/-- **Indices of one window have distinct slots.** -/
theorem slot_injOn {i j : ℕ} (hij : i < j + c.size) (hji : j < i + c.size)
    (h : c.slot (UInt64.ofNat i) = c.slot (UInt64.ofNat j)) : i = j := by
  have hmod : i % c.size = j % c.size := by
    rw [← c.toNat_slot_ofNat i, ← c.toNat_slot_ofNat j, h]
  have hi := Nat.div_add_mod i c.size
  have hj := Nat.div_add_mod j c.size
  have hpos := c.size_pos
  rcases Nat.lt_trichotomy (i / c.size) (j / c.size) with hlt | heq | hgt
  · have : c.size * (i / c.size + 1) ≤ c.size * (j / c.size) := Nat.mul_le_mul_left _ hlt
    rw [Nat.mul_add, Nat.mul_one] at this
    omega
  · rw [heq] at hi
    omega
  · have : c.size * (j / c.size + 1) ≤ c.size * (i / c.size) := Nat.mul_le_mul_left _ hgt
    rw [Nat.mul_add, Nat.mul_one] at this
    omega

theorem ofNat_injOn {i j : ℕ} (hij : i < j + c.size) (hji : j < i + c.size)
    (h : UInt64.ofNat i = UInt64.ofNat j) : i = j :=
  c.slot_injOn hij hji (congrArg c.slot h)

/-- One lap further on is the same slot. -/
theorem slot_add_size (i : ℕ) :
    c.slot (UInt64.ofNat (i + c.size)) = c.slot (UInt64.ofNat i) := by
  rw [← UInt64.toNat_inj, toNat_slot_ofNat, toNat_slot_ofNat, Nat.add_mod_right]

/-- A window of a capacity of indices meets every slot. -/
theorem exists_slot_eq (lo : ℕ) (idx : UInt64) :
    ∃ i, lo ≤ i ∧ i < lo + c.size ∧ c.slot (UInt64.ofNat i) = c.slot idx := by
  have hpos := c.size_pos
  refine ⟨lo + (idx.toNat + lo * (c.size - 1)) % c.size, Nat.le_add_right _ _,
    Nat.add_lt_add_left (Nat.mod_lt _ hpos) lo, ?_⟩
  have hsum : lo + (idx.toNat + lo * (c.size - 1)) = idx.toNat + lo * c.size := by
    rw [Nat.mul_sub_one]
    have := Nat.le_mul_of_pos_right lo hpos
    omega
  have hidx : (c.slot idx).toNat = idx.toNat % c.size := by
    rw [← c.toNat_slot_ofNat, UInt64.ofNat_toNat]
  rw [← UInt64.toNat_inj, toNat_slot_ofNat, hidx, Nat.add_mod_mod, hsum, Nat.add_mul_mod_self_right]

/-- The emptiness test on wrapped counters. -/
theorem ofNat_eq_ofNat_iff {lo hi : ℕ} (hle : lo ≤ hi) (hw : hi ≤ lo + c.size) :
    UInt64.ofNat hi = UInt64.ofNat lo ↔ hi = lo := by
  have hsize := c.size_le
  refine ⟨fun h ↦ ?_, fun h ↦ congrArg _ h⟩
  have hsub : (UInt64.ofNat (hi - lo)).toNat = 0 := by
    rw [UInt64.ofNat_sub hle, h, UInt64.sub_self]
    rfl
  rw [UInt64.toNat_ofNat', Nat.mod_eq_of_lt (by omega)] at hsub
  omega

/-- The distance of two wrapped counters. -/
theorem toNat_ofNat_sub_ofNat {lo hi : ℕ} (hle : lo ≤ hi) (hw : hi ≤ lo + c.size) :
    (UInt64.ofNat hi - UInt64.ofNat lo).toNat = hi - lo := by
  have hsize := c.size_le
  rw [← UInt64.ofNat_sub hle, UInt64.toNat_ofNat', Nat.mod_eq_of_lt (by omega)]

/-- The fullness test on wrapped counters. -/
theorem ofNat_sub_eq_word_iff {lo hi : ℕ} (hle : lo ≤ hi) (hw : hi ≤ lo + c.size) :
    UInt64.ofNat hi - UInt64.ofNat lo = c.word ↔ hi = lo + c.size := by
  rw [← UInt64.toNat_inj, toNat_word, c.toNat_ofNat_sub_ofNat hle hw]
  omega

/-- The fullness test on wrapped counters of which one may be stale. -/
theorem word_le_ofNat_sub_iff {lo hi : ℕ} (hle : lo ≤ hi) (hw : hi < lo + 2 ^ 64) :
    c.word ≤ UInt64.ofNat hi - UInt64.ofNat lo ↔ lo + c.size ≤ hi := by
  rw [← UInt64.ofNat_sub hle, UInt64.le_iff_toNat_le, toNat_word, UInt64.toNat_ofNat',
    Nat.mod_eq_of_lt (by omega)]
  omega

end Capacity

/-! ## The slots of a window -/

variable {α : Type*} {c : Capacity} {slots : UInt64 → Option α} {xs : List α} {lo hi : ℕ}

/-- The slots hold `xs` at the indices from `lo` up to `hi`, and nothing else. -/
structure Holds (c : Capacity) (slots : UInt64 → Option α) (xs : List α) (lo hi : ℕ) : Prop where
  inside : ∀ i, lo ≤ i → i < hi → slots (c.slot (UInt64.ofNat i)) = xs[i]?
  outside : ∀ j, (∀ i, lo ≤ i → i < hi → c.slot (UInt64.ofNat i) ≠ j) → slots j = none

theorem Holds.empty : Holds c (fun _ ↦ (none : Option α)) xs lo lo :=
  ⟨fun _ h h' ↦ absurd h' (Nat.not_lt.mpr h), fun _ _ ↦ rfl⟩

/-- Writing the slot behind the window extends the window. -/
theorem Holds.push (h : Holds c slots xs lo hi) (hle : lo ≤ hi) (hroom : hi < lo + c.size) {v : α}
    (hv : xs[hi]? = some v) :
    Holds c (Function.update slots (c.slot (UInt64.ofNat hi)) (some v)) xs lo (hi + 1) := by
  constructor
  · intro i hlo hhi
    rcases Nat.lt_succ_iff_lt_or_eq.mp hhi with hlt | rfl
    · have hne : c.slot (UInt64.ofNat i) ≠ c.slot (UInt64.ofNat hi) := fun heq ↦
        hlt.ne (c.slot_injOn (by omega) (by omega) heq)
      rw [Function.update_of_ne hne]
      exact h.inside i hlo hlt
    · rw [Function.update_self, hv]
  · intro j hj
    rw [Function.update_of_ne (hj hi hle (Nat.lt_succ_self hi)).symm]
    exact h.outside j fun i hlo hlt ↦ hj i hlo (Nat.lt_succ_of_lt hlt)

/-- Clearing the first slot of the window shortens the window. -/
theorem Holds.pop (h : Holds c slots xs lo hi) (hw : hi ≤ lo + c.size) :
    Holds c (Function.update slots (c.slot (UInt64.ofNat lo)) none) xs (lo + 1) hi := by
  constructor
  · intro i hlo hhi
    have hne : c.slot (UInt64.ofNat i) ≠ c.slot (UInt64.ofNat lo) := fun heq ↦ by
      have := c.slot_injOn (by omega) (by omega) heq
      omega
    rw [Function.update_of_ne hne]
    exact h.inside i (by omega) hhi
  · intro j hj
    by_cases hjlo : j = c.slot (UInt64.ofNat lo)
    · rw [hjlo, Function.update_self]
    · rw [Function.update_of_ne hjlo]
      refine h.outside j fun i hlo hhi ↦ ?_
      rcases hlo.eq_or_lt with rfl | hlo
      · exact Ne.symm hjlo
      · exact hj i hlo hhi

/-- The window does not see what is appended behind it. -/
theorem Holds.append (h : Holds c slots xs lo hi) (hhi : hi ≤ xs.length) (ys : List α) :
    Holds c slots (xs ++ ys) lo hi := by
  refine ⟨fun i hlo hlt ↦ ?_, h.outside⟩
  rw [h.inside i hlo hlt, List.getElem?_append_left (by omega)]

end RingIndex
