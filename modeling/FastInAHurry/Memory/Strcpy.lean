import FastInAHurry.Memory.ByteCopies

/-!
# Copying a string

The embedding of `memory/Strcpy.cc`. Its loop has no counter: it stops at the first zero byte it
stores, and that byte is read from the memory the loop has been writing to. The loop is therefore
given a number of iterations it may make, and has no result when they do not suffice.

Up to iteration `k` the loop has copied the bytes `0, ..., k - 1` in increasing order, so it is
`byteLoop` with a test. The test sees the string as it was at the start as long as no byte that has
been written is one still to be read, which is what the position of the destination decides.
-/

namespace FastInAHurry

open Copying

/-! ## The source's loop -/

/-- `while ((*dst++ = *src++));`. The test reads the byte just stored. -/
def strcpyLoop (mem : Bytes) (dst src : UInt64) : ℕ → Option Bytes
  | 0 => none
  | iterations + 1 =>
    let mem' := copyCell mem dst src
    if mem' dst ≠ 0 then strcpyLoop mem' (dst + 1) (src + 1) iterations else some mem'

/-- The pointer returned, and the memory after the call. -/
def strcpy (mem : Bytes) (dst src : UInt64) (iterations : ℕ) : Option (UInt64 × Bytes) :=
  let result := dst
  (strcpyLoop mem dst src iterations).map fun mem' ↦ (result, mem')

/-! ## The loop as a copy of a list of offsets -/

variable {mem : Bytes} {dst src : UInt64} {L : ℕ}

/-- One iteration stores the byte that was at the source, and goes on if that is not zero. -/
theorem strcpyLoop_succ (mem : Bytes) (dst src : UInt64) (n : ℕ) :
    strcpyLoop mem dst src (n + 1)
      = if mem src ≠ 0 then strcpyLoop (copyCell mem dst src) (dst + 1) (src + 1) n
        else some (copyCell mem dst src) := by
  rw [strcpyLoop, copyCell, Function.update_self]

/-- The iteration that reads offset `k` finds the memory with the bytes below `k` copied. -/
theorem byteLoop_succ (mem : Bytes) (dst src : UInt64) (k : ℕ) :
    byteLoop mem dst src (k + 1)
      = copyCell (byteLoop mem dst src k) (byteAt dst k) (byteAt src k) := by
  rw [byteLoop, List.range_succ, copyAll_append]
  rfl

theorem byteAt_succ (p : UInt64) (k : ℕ) : byteAt p (k + 1) = byteAt p k + 1 :=
  (byteAt_byteAt p k 1).symm

/-- While the bytes it reads are not zero, the loop goes on from the bytes copied so far. -/
theorem strcpyLoop_add {k : ℕ} (h : ∀ i < k, byteLoop mem dst src i (byteAt src i) ≠ 0) (n : ℕ) :
    strcpyLoop mem dst src (k + n)
      = strcpyLoop (byteLoop mem dst src k) (byteAt dst k) (byteAt src k) n := by
  induction k generalizing n with
  | zero =>
    rw [Nat.zero_add, byteAt_zero, byteAt_zero]
    rfl
  | succ k ih =>
    have hk : byteLoop mem dst src k (byteAt src k) ≠ 0 := h k (Nat.lt_succ_self k)
    rw [Nat.add_assoc, Nat.add_comm 1 n, ih (fun i hi ↦ h i (Nat.lt_succ_of_lt hi)),
      strcpyLoop_succ, if_pos hk, ← byteLoop_succ, ← byteAt_succ, ← byteAt_succ]

/-! ## The string is still there when it is read -/

/-- The destination does not start inside the string, after its first byte. -/
def StartsOutside (dst src : UInt64) (L : ℕ) : Prop :=
  ¬(src.toNat < dst.toNat ∧ dst.toNat ≤ src.toNat + L)

/-- No byte copied so far is the one to be read next. -/
theorem byteLoop_unread (hd : Unwrapped dst (L + 1)) (hs : Unwrapped src (L + 1))
    (h : StartsOutside dst src L) {k : ℕ} (hk : k ≤ L) :
    byteLoop mem dst src k (byteAt src k) = mem (byteAt src k) := by
  apply copyAll_of_ne
  intro i hi heq
  rw [List.mem_range] at hi
  have hi' : i < L + 1 := by omega
  have hne := toNat_add_eq_of_byteAt_eq hd hs hi' (Nat.lt_succ_of_le hk) heq
  -- otherwise the destination starts `k - i` bytes into the string
  exact h (by omega)

/-- **`Strcpy` terminates and copies exactly the string**, wherever the destination starts but
inside it: the loop ends after `L + 1` iterations and no fewer, with the string and its zero byte
copied and nothing else changed. -/
theorem strcpy_copied (mem : Bytes) (dst src : UInt64) (L : ℕ)
    (hd : Unwrapped dst (L + 1)) (hs : Unwrapped src (L + 1))
    (hchars : ∀ i < L, mem (byteAt src i) ≠ 0) (hnul : mem (byteAt src L) = 0)
    (h : StartsOutside dst src L) :
    (∀ n ≤ L, strcpy mem dst src n = none) ∧
      ∃ mem', (∀ n, L < n → strcpy mem dst src n = some (dst, mem')) ∧
        Copied mem mem' dst src (L + 1) := by
  have hread : ∀ k ≤ L, byteLoop mem dst src k (byteAt src k) = mem (byteAt src k) :=
    fun k hk ↦ byteLoop_unread hd hs h hk
  have hgo : ∀ k ≤ L, ∀ i < k, byteLoop mem dst src i (byteAt src i) ≠ 0 := by
    intro k hk i hi
    rw [hread i (by omega)]
    exact hchars i (by omega)
  refine ⟨fun n hn ↦ ?_, byteLoop mem dst src (L + 1), fun n hn ↦ ?_, ?_⟩
  · rw [strcpy, ← Nat.add_zero n, strcpyLoop_add (hgo n hn)]
    rfl
  · obtain ⟨n, rfl⟩ : ∃ m, n = L + (m + 1) := ⟨n - (L + 1), by omega⟩
    have hstop : ¬byteLoop mem dst src L (byteAt src L) ≠ 0 := by
      rw [hread L le_rfl, hnul]
      exact not_not_intro rfl
    rw [strcpy, strcpyLoop_add (hgo L le_rfl), strcpyLoop_succ, if_neg hstop, ← byteLoop_succ]
    rfl
  · apply Copied.of_byteLoop hd hs
    rw [UInt64.le_iff_toNat_le]
    rw [StartsOutside] at h
    omega

/-- A string of two characters copied down by one, onto its own first byte. -/
theorem strcpy_copied_downwards :
    ∃ mem', strcpy (fun a ↦ if a = 12 then 0 else a.toUInt8) 9 10 3 = some (9, mem') ∧
      mem' 9 = 10 ∧ mem' 10 = 11 ∧ mem' 11 = 0 := by
  obtain ⟨-, mem', hrun, hcopied⟩ := strcpy_copied
    (fun a ↦ if a = 12 then 0 else a.toUInt8) 9 10 2
    (by unfold Unwrapped; decide) (by unfold Unwrapped; decide) (by decide) (by decide)
    (by unfold StartsOutside; decide)
  exact ⟨mem', hrun 3 (by decide), hcopied.inside 0 (by decide), hcopied.inside 1 (by decide),
    hcopied.inside 2 (by decide)⟩

/- One byte further up the zero byte is overwritten before it is read. -/
example : (strcpy (fun a ↦ if a = 12 then 0 else a.toUInt8) 11 10 20).map Prod.fst = none := by
  decide

end FastInAHurry
