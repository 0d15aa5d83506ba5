import FastInAHurry.Library.Copying
import Mathlib.Algebra.Group.Nat.Defs
import Mathlib.Data.List.Range
import Mathlib.Order.Basic

/-!
# Copying bytes

The embedding of `memory/Memmove.cc` and `memory/Memcpy.cc`. Memory is a function from 64-bit
addresses to bytes, pointers are addresses, and their arithmetic wraps as that of words does. The
counter of a loop is the natural number of its `size_t`: every test comes before the decrement, and
the value that `n--` leaves behind when a loop ends is never read. The source's `to` and `from` are
words of the language here, and are called as the parameters they start from.

Whatever the two ranges have in common, the loops are copies of the bytes of the ranges in
increasing or in decreasing order, and the rules of `Copying` decide both. That a copy overwrites no
byte still to be read is a fact about which of the two addresses is the smaller one.
-/

namespace FastInAHurry

open Copying

/-- Bytes by address. -/
abbrev Bytes := UInt64 → UInt8

/-! ## The source's loops -/

/-- `while (n--) *to++ = *from++;` -/
def copyForward (mem : Bytes) (dst src : UInt64) : ℕ → Bytes
  | 0 => mem
  | n + 1 => copyForward (copyCell mem dst src) (dst + 1) (src + 1) n

/-- `while (n--) *--to = *--from;` -/
def copyBackward (mem : Bytes) (dst src : UInt64) : ℕ → Bytes
  | 0 => mem
  | n + 1 => copyBackward (copyCell mem (dst - 1) (src - 1)) (dst - 1) (src - 1) n

/-- The pointer returned, and the memory after the call. -/
def memmove (mem : Bytes) (dst src n : UInt64) : UInt64 × Bytes :=
  if src = 0 ∨ dst = 0 ∨ n = 0 then (dst, mem)
  else if dst < src then (dst, copyForward mem dst src n.toNat)
  else if src < dst then (dst, copyBackward mem (dst + n) (src + n) n.toNat)
  else (dst, mem)

/-- The body of the unrolled loop, without its updates of the pointers and the counter. -/
def copyEight (mem : Bytes) (dst src : UInt64) : Bytes :=
  let mem := copyCell mem (dst + 0) (src + 0)
  let mem := copyCell mem (dst + 1) (src + 1)
  let mem := copyCell mem (dst + 2) (src + 2)
  let mem := copyCell mem (dst + 3) (src + 3)
  let mem := copyCell mem (dst + 4) (src + 4)
  let mem := copyCell mem (dst + 5) (src + 5)
  let mem := copyCell mem (dst + 6) (src + 6)
  copyCell mem (dst + 7) (src + 7)

/-- The local variables of `Memcpy` when the unrolled loop is left: the memory, the two pointers and
the counter. -/
def copyUnrolled (mem : Bytes) (dst src : UInt64) : ℕ → Bytes × UInt64 × UInt64 × ℕ
  | n + 8 => copyUnrolled (copyEight mem dst src) (dst + 8) (src + 8) n
  | n => (mem, dst, src, n)

def memcpy (mem : Bytes) (dst src n : UInt64) : UInt64 × Bytes :=
  let (mem', dst', src', n') := copyUnrolled mem dst src n.toNat
  (dst, copyForward mem' dst' src' n')

/-! ## The loops as copies of a list of offsets -/

/-- The byte at an offset. -/
def byteAt (p : UInt64) (i : ℕ) : UInt64 := p + UInt64.ofNat i

/-- Bytes `0`, `1`, ..., `n - 1` copied one at a time in increasing order. -/
def byteLoop (mem : Bytes) (dst src : UInt64) (n : ℕ) : Bytes :=
  copyAll (byteAt dst) (byteAt src) mem (List.range n)

theorem byteAt_zero (p : UInt64) : byteAt p 0 = p := UInt64.add_zero p

theorem byteAt_byteAt (p : UInt64) (i j : ℕ) : byteAt (byteAt p i) j = byteAt p (i + j) := by
  rw [byteAt, byteAt, byteAt, UInt64.ofNat_add, UInt64.add_assoc]

/-- A loop over the bytes from an offset on is the same loop for the pointers advanced by it. -/
theorem byteLoop_add (mem : Bytes) (dst src : UInt64) (k n : ℕ) :
    byteLoop mem dst src (k + n)
      = byteLoop (byteLoop mem dst src k) (byteAt dst k) (byteAt src k) n := by
  have hoffset : ∀ p, byteAt p ∘ (k + ·) = byteAt (byteAt p k) := by
    intro p
    funext i
    exact (byteAt_byteAt p k i).symm
  rw [byteLoop, List.range_add, copyAll_append, copyAll_map, hoffset, hoffset]
  rfl

theorem copyForward_eq_byteLoop (mem : Bytes) (dst src : UInt64) (n : ℕ) :
    copyForward mem dst src n = byteLoop mem dst src n := by
  induction n generalizing mem dst src with
  | zero => rfl
  | succ n ih =>
    have hone : byteLoop mem dst src 1 = copyCell mem dst src := by
      show copyCell mem (byteAt dst 0) (byteAt src 0) = copyCell mem dst src
      rw [byteAt_zero, byteAt_zero]
    rw [copyForward, ih, Nat.add_comm, byteLoop_add, hone]
    rfl

/-- The loop that runs downwards copies the offsets in the reverse order. -/
theorem copyBackward_eq_copyAll (mem : Bytes) (dst src : UInt64) (n : ℕ) :
    copyBackward mem (byteAt dst n) (byteAt src n) n
      = copyAll (byteAt dst) (byteAt src) mem (List.range n).reverse := by
  induction n generalizing mem with
  | zero => rfl
  | succ n ih =>
    have hdec : ∀ p, byteAt p (n + 1) - 1 = byteAt p n := by
      intro p
      rw [← byteAt_byteAt]
      exact UInt64.add_sub_cancel _ _
    rw [copyBackward, hdec, hdec, ih, List.range_succ, List.reverse_append]
    rfl

theorem copyEight_eq_byteLoop (mem : Bytes) (dst src : UInt64) :
    copyEight mem dst src = byteLoop mem dst src 8 := rfl

/-- One pass through both loops of `Memcpy` is the byte loop, wherever the first hands over. -/
theorem copyForward_copyUnrolled (mem : Bytes) (dst src : UInt64) (n : ℕ) :
    copyForward (copyUnrolled mem dst src n).1 (copyUnrolled mem dst src n).2.1
        (copyUnrolled mem dst src n).2.2.1 (copyUnrolled mem dst src n).2.2.2
      = byteLoop mem dst src n := by
  induction mem, dst, src, n using copyUnrolled.induct with
  | case1 mem dst src n ih =>
    have hsplit : byteLoop mem dst src (n + 8)
        = byteLoop (byteLoop mem dst src 8) (dst + 8) (src + 8) n := by
      rw [Nat.add_comm, byteLoop_add]
      rfl
    rw [copyUnrolled, ih, copyEight_eq_byteLoop]
    exact hsplit.symm
  | case2 mem dst src n hlt =>
    rw [copyUnrolled]
    · exact copyForward_eq_byteLoop mem dst src n
    · exact hlt

/-! ## Ranges that do not wrap -/

/-- The bytes from `p` on do not wrap, and so have different addresses. -/
def Unwrapped (p : UInt64) (n : ℕ) : Prop := p.toNat + n ≤ 2 ^ 64

/-- The address is one of the `n` bytes from `p` on. -/
def InRange (p : UInt64) (n : ℕ) (a : UInt64) : Prop := p.toNat ≤ a.toNat ∧ a.toNat < p.toNat + n

variable {p dst src a : UInt64} {n i j : ℕ} {mem : Bytes}

theorem toNat_byteAt (hp : Unwrapped p n) (hi : i < n) : (byteAt p i).toNat = p.toNat + i := by
  rw [Unwrapped] at hp
  rw [byteAt, UInt64.toNat_add, UInt64.toNat_ofNat', Nat.mod_eq_of_lt (a := i), Nat.mod_eq_of_lt]
  all_goals omega

theorem inRange_byteAt (hp : Unwrapped p n) (hi : i < n) : InRange p n (byteAt p i) := by
  rw [InRange, toNat_byteAt hp hi]
  omega

/-- Two offsets that meet are as far apart as the pointers they are taken from. -/
theorem toNat_add_eq_of_byteAt_eq (hd : Unwrapped dst n) (hs : Unwrapped src n) (hi : i < n)
    (hj : j < n) (h : byteAt dst i = byteAt src j) : dst.toNat + i = src.toNat + j := by
  rw [← toNat_byteAt hd hi, ← toNat_byteAt hs hj, h]

/-- What a copy of `n` bytes is meant to do: the destination gets the bytes the source held before,
and no other byte changes. -/
structure Copied (before after : Bytes) (dst src : UInt64) (n : ℕ) : Prop where
  inside : ∀ i < n, after (byteAt dst i) = before (byteAt src i)
  outside : ∀ a, ¬InRange dst n a → after a = before a

/-- Copies of all the offsets, in any order that never overwrites a byte still to be read. -/
theorem Copied.of_copyAll {is : List ℕ} (hd : Unwrapped dst n) (hmem : ∀ i, i ∈ is ↔ i < n)
    (h : is.Pairwise fun i j ↦ byteAt dst i ≠ byteAt src j ∧ byteAt dst i ≠ byteAt dst j) :
    Copied mem (copyAll (byteAt dst) (byteAt src) mem is) dst src n where
  inside i hi := copyAll_apply_dst h ((hmem i).mpr hi)
  outside a ha := by
    apply copyAll_of_ne
    rintro i hi rfl
    exact ha (inRange_byteAt hd ((hmem i).mp hi))

/-- Upwards, a byte is overwritten before it is read only if the destination lies above the source
and inside its range. -/
theorem Copied.of_byteLoop (hd : Unwrapped dst n) (hs : Unwrapped src n)
    (h : dst ≤ src ∨ src.toNat + n ≤ dst.toNat) :
    Copied mem (byteLoop mem dst src n) dst src n := by
  apply Copied.of_copyAll hd fun i ↦ List.mem_range
  refine List.pairwise_lt_range.imp_of_mem fun {i j} hi hj hij ↦ ?_
  rw [List.mem_range] at hi hj
  refine ⟨fun heq ↦ ?_, fun heq ↦ ?_⟩
  · have hne := toNat_add_eq_of_byteAt_eq hd hs hi hj heq
    rcases h with h | h
    · rw [UInt64.le_iff_toNat_le] at h
      omega
    · omega
  · have hne := toNat_add_eq_of_byteAt_eq hd hd hi hj heq
    omega

theorem Copied.of_copyBackward (hd : Unwrapped dst n) (hs : Unwrapped src n) (h : src < dst) :
    Copied mem (copyBackward mem (byteAt dst n) (byteAt src n) n) dst src n := by
  rw [copyBackward_eq_copyAll]
  apply Copied.of_copyAll hd fun i ↦ List.mem_reverse.trans List.mem_range
  rw [List.pairwise_reverse]
  refine List.pairwise_lt_range.imp_of_mem fun {i j} hi hj hij ↦ ?_
  rw [List.mem_range] at hi hj
  rw [UInt64.lt_iff_toNat_lt] at h
  refine ⟨fun heq ↦ ?_, fun heq ↦ ?_⟩
  · have hne := toNat_add_eq_of_byteAt_eq hd hs hj hi heq
    omega
  · have hne := toNat_add_eq_of_byteAt_eq hd hd hj hi heq
    omega

/-! ## The two functions -/

/-- **`Memmove` is correct for every overlap.** -/
theorem memmove_copied {dst src n : UInt64} (hdst : dst ≠ 0) (hsrc : src ≠ 0)
    (hd : Unwrapped dst n.toNat) (hs : Unwrapped src n.toNat) (mem : Bytes) :
    (memmove mem dst src n).1 = dst ∧ Copied mem (memmove mem dst src n).2 dst src n.toNat := by
  have hend : ∀ p : UInt64, p + n = byteAt p n.toNat := by
    intro p
    rw [byteAt, UInt64.ofNat_toNat]
  by_cases hn : n = 0
  · rw [memmove, if_pos (Or.inr (Or.inr hn)), hn]
    exact ⟨rfl, fun i hi ↦ absurd hi (Nat.not_lt_zero i), fun _ _ ↦ rfl⟩
  rw [memmove, if_neg (by simp [hdst, hsrc, hn])]
  by_cases hlt : dst < src
  · rw [if_pos hlt, copyForward_eq_byteLoop]
    exact ⟨rfl, Copied.of_byteLoop hd hs (Or.inl (UInt64.le_of_lt hlt))⟩
  rw [if_neg hlt]
  by_cases hgt : src < dst
  · rw [if_pos hgt, hend, hend]
    exact ⟨rfl, Copied.of_copyBackward hd hs hgt⟩
  · -- the two ranges are one, and copying nothing is right
    have heq : dst = src := UInt64.le_antisymm (UInt64.not_lt.mp hgt) (UInt64.not_lt.mp hlt)
    rw [if_neg hgt, heq]
    exact ⟨rfl, fun _ _ ↦ rfl, fun _ _ ↦ rfl⟩

/-- Four bytes moved up by two, where the ranges share two bytes. -/
theorem memmove_copied_overlapping :
    Copied UInt64.toUInt8 (memmove UInt64.toUInt8 102 100 4).2 102 100 4 :=
  (memmove_copied (n := 4) (by decide) (by decide) (by unfold Unwrapped; decide)
    (by unfold Unwrapped; decide) UInt64.toUInt8).2

example : ((List.range 5).map fun i ↦
    (memmove (fun a ↦ [104, 105, 109, 111, 109].getD (a.toNat - 100) 0) 102 100 2).2 (byteAt 100 i))
      = [104, 105, 104, 105, 109] := by decide

/-- **`Memcpy` is the byte loop.** The unrolled loop and the remainder loop leave the memory that
copying the bytes one at a time in increasing order leaves, on overlapping ranges too. Where the
destination does not start inside the source range, they copy the bytes the source held. -/
theorem memcpy_eq_byteLoop (mem : Bytes) (dst src n : UInt64) :
    memcpy mem dst src n = (dst, byteLoop mem dst src n.toNat)
      ∧ (Unwrapped dst n.toNat → Unwrapped src n.toNat →
        ((∀ a, ¬(InRange dst n.toNat a ∧ InRange src n.toNat a)) ∨ dst ≤ src) →
        Copied mem (memcpy mem dst src n).2 dst src n.toNat) := by
  have heq : memcpy mem dst src n = (dst, byteLoop mem dst src n.toNat) := by
    rw [memcpy, ← copyForward_copyUnrolled]
  refine ⟨heq, fun hd hs h ↦ ?_⟩
  rw [heq]
  apply Copied.of_byteLoop hd hs
  rcases h with h | h
  · by_contra hcon
    rw [not_or, UInt64.not_le, UInt64.lt_iff_toNat_lt, not_le] at hcon
    -- otherwise the first byte of the destination is a byte of the source
    refine h dst ⟨⟨le_rfl, ?_⟩, hcon.1.le, hcon.2⟩
    omega
  · exact Or.inl h

/-- Eleven bytes moved down by three: the ranges overlap, and both loops run. -/
theorem memcpy_eq_byteLoop_downwards :
    Copied UInt64.toUInt8 (memcpy UInt64.toUInt8 100 103 11).2 100 103 11 :=
  (memcpy_eq_byteLoop UInt64.toUInt8 100 103 11).2 (by unfold Unwrapped; decide)
    (by unfold Unwrapped; decide) (Or.inr (by decide))

end FastInAHurry
