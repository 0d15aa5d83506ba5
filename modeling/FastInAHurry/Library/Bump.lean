import Mathlib.Order.Interval.Set.Disjoint
import Mathlib.Order.CompletePartialOrder
import Mathlib.Algebra.GroupWithZero.Nat
import Mathlib.Data.Nat.Init

/-!
# Handing out memory by moving one address

A bump allocator answers each request with the first suitably aligned address at or above its
cursor and moves the cursor to the end of the answer. Two facts carry everything: rounding up gives
the least aligned address above the cursor, and ranges handed out above the cursor of their time
are stacked on each other, hence disjoint.
-/

namespace Bump

/-! ## Rounding up -/

/-- The first multiple of `a` at or above `p`. -/
def alignUp (a p : ℕ) : ℕ := (p + a - 1) / a * a

variable {a p q : ℕ}

theorem dvd_alignUp : a ∣ alignUp a p := Nat.dvd_mul_left _ _

theorem le_alignUp (ha : 0 < a) : p ≤ alignUp a p := by
  have hdiv : a * ((p + a - 1) / a) + (p + a - 1) % a = p + a - 1 := Nat.div_add_mod _ _
  have hmod : (p + a - 1) % a < a := Nat.mod_lt _ ha
  rw [alignUp, Nat.mul_comm]
  omega

/-- No smaller multiple lies above `p`. -/
theorem alignUp_le (ha : 0 < a) (hdvd : a ∣ q) (hle : p ≤ q) : alignUp a p ≤ q := by
  obtain ⟨k, rfl⟩ := hdvd
  have hk : (p + a - 1) / a ≤ k := by
    rw [← Nat.lt_succ_iff, Nat.div_lt_iff_lt_mul ha, Nat.succ_mul, Nat.mul_comm k a]
    omega
  rw [alignUp, Nat.mul_comm a k]
  exact Nat.mul_le_mul_right a hk

theorem isLeast_alignUp (ha : 0 < a) : IsLeast {q | a ∣ q ∧ p ≤ q} (alignUp a p) :=
  ⟨⟨dvd_alignUp, le_alignUp ha⟩, fun _ hq ↦ alignUp_le ha hq.1 hq.2⟩

theorem alignUp_of_dvd (ha : 0 < a) (hdvd : a ∣ p) : alignUp a p = p :=
  le_antisymm (alignUp_le ha hdvd le_rfl) (le_alignUp ha)

/-- The distance to the next multiple, which is `-p` modulo `a`. -/
def padding (a p : ℕ) : ℕ := (a - p % a) % a

theorem padding_lt (ha : 0 < a) : padding a p < a := Nat.mod_lt _ ha

theorem dvd_add_padding (ha : 0 < a) : a ∣ p + padding a p := by
  have hdiv : a * (p / a) + p % a = p := Nat.div_add_mod p a
  have hmod : p % a < a := Nat.mod_lt p ha
  have hsum : p + (a - p % a) = a * (p / a + 1) := by
    rw [Nat.mul_succ]
    omega
  apply Nat.dvd_of_mod_eq_zero
  rw [padding, Nat.add_mod_mod, hsum, Nat.mul_mod_right]

theorem alignUp_eq_add_padding (ha : 0 < a) : alignUp a p = p + padding a p := by
  apply le_antisymm (alignUp_le ha (dvd_add_padding ha) (Nat.le_add_right _ _))
  obtain ⟨j, hj⟩ : a ∣ alignUp a p := dvd_alignUp
  have hle : p ≤ a * j := hj ▸ le_alignUp ha
  have hdiv : a * (p / a) + p % a = p := Nat.div_add_mod p a
  have hmod : p % a < a := Nat.mod_lt p ha
  rw [hj]
  rcases Nat.eq_zero_or_pos (p % a) with hz | hz
  · rw [padding, hz, Nat.sub_zero, Nat.mod_self]
    exact hle
  · -- `p` is no multiple, so the next one lies above the quotient
    have hlt : p / a < j := by
      by_contra hcon
      have hmul : a * j ≤ a * (p / a) := Nat.mul_le_mul_left a (Nat.le_of_not_lt hcon)
      omega
    have hmul : a * (p / a + 1) ≤ a * j := Nat.mul_le_mul_left a hlt
    rw [Nat.mul_succ] at hmul
    rw [padding, Nat.mod_eq_of_lt (by omega)]
    omega

/-! ## Requests one after the other

A request of `n` bytes aligned to `a` is a pair `(n, a)`. It is met if the bytes fit below the limit
`hi` at the first aligned address above the cursor, and leaves the cursor alone otherwise. -/

def Fits (hi c : ℕ) (r : ℕ × ℕ) : Prop := alignUp r.2 c + r.1 ≤ hi

instance (hi c : ℕ) (r : ℕ × ℕ) : Decidable (Fits hi c r) :=
  inferInstanceAs (Decidable (alignUp r.2 c + r.1 ≤ hi))

/-- The cursor after a request. -/
def bump (hi c : ℕ) (r : ℕ × ℕ) : ℕ := if Fits hi c r then alignUp r.2 c + r.1 else c

/-- All the requests are met. -/
def AllFit (hi : ℕ) : ℕ → List (ℕ × ℕ) → Prop
  | _, [] => True
  | c, r :: rs => Fits hi c r ∧ AllFit hi (bump hi c r) rs

/-- **Only padding is lost.** Requests are all met if the space is enough for them with the largest
padding that each of them may need. -/
theorem allFit_of_sum_le {hi c : ℕ} {rs : List (ℕ × ℕ)} (ha : ∀ r ∈ rs, 0 < r.2)
    (h : c + (rs.map fun r ↦ r.1 + r.2 - 1).sum ≤ hi) : AllFit hi c rs := by
  induction rs generalizing c with
  | nil => trivial
  | cons r rs ih =>
    rw [List.map_cons, List.sum_cons] at h
    have hr : 0 < r.2 := ha r List.mem_cons_self
    have hup : alignUp r.2 c + r.1 ≤ c + (r.1 + r.2 - 1) := by
      have hpad : padding r.2 c < r.2 := padding_lt hr
      rw [alignUp_eq_add_padding hr]
      omega
    have hfits : Fits hi c r := by
      rw [Fits]
      omega
    refine ⟨hfits, ih (fun r' hr' ↦ ha r' (List.mem_cons_of_mem r hr')) ?_⟩
    rw [bump, if_pos hfits]
    omega

section Repeated

variable {hi c n : ℕ}

/-- A request that is a multiple of its alignment and is met leaves an aligned cursor. -/
theorem alignUp_bump (ha : 0 < a) (hn : a ∣ n) (h : Fits hi c (n, a)) :
    alignUp a (bump hi c (n, a)) = alignUp a c + n := by
  rw [bump, if_pos h, alignUp_of_dvd ha (Nat.dvd_add dvd_alignUp hn)]

/-- The next one fits as long as fewer were met than there is space for. -/
theorem add_min_mul_add_le_iff {u k : ℕ} (hpos : 0 < n) :
    u + min k ((hi - u) / n) * n + n ≤ hi ↔ k < (hi - u) / n := by
  rw [Nat.add_assoc, ← Nat.succ_mul]
  constructor
  · intro h
    by_contra hcon
    rw [Nat.min_eq_right (Nat.le_of_not_lt hcon)] at h
    have hlt : hi - u < ((hi - u) / n).succ * n :=
      (Nat.div_lt_iff_lt_mul hpos).mp (Nat.lt_succ_self _)
    omega
  · intro h
    rw [Nat.min_eq_left h.le]
    have hle : k.succ * n ≤ hi - u := (Nat.le_div_iff_mul_le hpos).mp h
    have hn : 0 < k.succ * n := Nat.mul_pos (Nat.succ_pos k) hpos
    omega

/-- **The same request again and again.** As many are met as there is space for behind the padding,
one right behind the other. -/
theorem alignUp_iterate_bump (ha : 0 < a) (hpos : 0 < n) (hn : a ∣ n) (k : ℕ) :
    alignUp a ((bump hi · (n, a))^[k] c) = alignUp a c + min k ((hi - alignUp a c) / n) * n := by
  induction k with
  | zero => rw [Nat.zero_min, Nat.zero_mul]; rfl
  | succ k ih =>
    rw [Function.iterate_succ_apply']
    have hiff : Fits hi ((bump hi · (n, a))^[k] c) (n, a) ↔ k < (hi - alignUp a c) / n := by
      rw [Fits, ih]
      exact add_min_mul_add_le_iff hpos
    by_cases hlt : k < (hi - alignUp a c) / n
    · rw [alignUp_bump ha hn (hiff.mpr hlt), ih, Nat.min_eq_left hlt.le, Nat.min_eq_left hlt,
        Nat.succ_mul, Nat.add_assoc]
    · have hge : (hi - alignUp a c) / n ≤ k := Nat.le_of_not_lt hlt
      rw [bump, if_neg (hiff.not.mpr hlt), ih, Nat.min_eq_right hge,
        Nat.min_eq_right (Nat.le_succ_of_le hge)]

theorem fits_iterate_bump_iff (ha : 0 < a) (hpos : 0 < n) (hn : a ∣ n) (k : ℕ) :
    Fits hi ((bump hi · (n, a))^[k] c) (n, a) ↔ k < (hi - alignUp a c) / n := by
  rw [Fits, alignUp_iterate_bump ha hpos hn]
  exact add_min_mul_add_le_iff hpos

end Repeated

/-! ## Stacked ranges -/

/-- The bytes `start, ..., start + len - 1`. -/
structure Range where
  start : ℕ
  len : ℕ

def Range.bytes (r : Range) : Set ℕ := Set.Ico r.start (r.start + r.len)

/-- The ranges lie between `lo` and `hi`, each above all earlier ones. -/
structure Stacked (lo hi : ℕ) (rs : List Range) : Prop where
  inside : ∀ r ∈ rs, lo ≤ r.start ∧ r.start + r.len ≤ hi
  above : rs.Pairwise fun r r' ↦ r.start + r.len ≤ r'.start

theorem Stacked.nil (lo hi : ℕ) : Stacked lo hi [] := ⟨by simp, List.Pairwise.nil⟩

/-- **Bumping.** A range that starts at or above the top can be put on the stack. -/
theorem Stacked.concat {lo hi hi' : ℕ} {rs : List Range} (h : Stacked lo hi rs) {r : Range}
    (hlo : lo ≤ hi) (hr : hi ≤ r.start) (hr' : r.start + r.len ≤ hi') :
    Stacked lo hi' (rs ++ [r]) := by
  refine ⟨fun x hx ↦ ?_, ?_⟩
  · rcases List.mem_append.mp hx with hx | hx
    · have := h.inside x hx
      omega
    · obtain rfl := List.mem_singleton.mp hx
      exact ⟨hlo.trans hr, hr'⟩
  · rw [List.pairwise_append]
    refine ⟨h.above, List.pairwise_singleton _ _, fun x hx y hy ↦ ?_⟩
    obtain rfl := List.mem_singleton.mp hy
    exact (h.inside x hx).2.trans hr

theorem Stacked.pairwise_disjoint {lo hi : ℕ} {rs : List Range} (h : Stacked lo hi rs) :
    rs.Pairwise fun r r' ↦ Disjoint r.bytes r'.bytes := by
  refine h.above.imp fun {r r'} hle ↦ ?_
  rw [Range.bytes, Range.bytes, Set.Ico_disjoint_Ico]
  exact (min_le_left _ _).trans (hle.trans (le_max_right _ _))

end Bump
