import FastInAHurry.Memory.Disjointness

/-!
# An arena wastes nothing but padding

`Disjointness` says what an arena hands out where it does; here it is when. Over a buffer that is
not null and whose end is an address, the three pointers are the numbers they stand for, and a
request is met exactly when it fits below the end at the first aligned address above the cursor.
The arena is then the machine of `Bump` that moves one number, and what that does with a list of
requests, or with one request again and again, the arena does.
-/

namespace FastInAHurry

open Runs

namespace BumpArena

/-- The requests one after the other: the pointers returned. -/
def allocateAll (A : BumpArena) : List (UInt64 × Alignment) → List UInt64
  | [] => []
  | (size, alignment) :: requests =>
    let (ptr, A') := A.allocate size alignment
    ptr :: A'.allocateAll requests

/-- The arena after the same request `k` times. -/
def allocateAgain (A : BumpArena) (size : UInt64) (alignment : Alignment) : ℕ → BumpArena
  | 0 => A
  | k + 1 => ((A.allocateAgain size alignment k).allocate size alignment).2

/-- What a request is to the machine of `Bump`. -/
def request (r : UInt64 × Alignment) : ℕ × ℕ := (r.1.toNat, r.2.bytes.toNat)

/-! ## Pointers as numbers -/

/-- The cursor is not the null pointer, and no pointer has wrapped. -/
structure Usable (A : BumpArena) : Prop where
  pos : 0 < A.mCurr.toNat
  le : A.mCurr.toNat ≤ A.mEnd.toNat

variable {A : BumpArena} {size : UInt64} {alignment : Alignment}

theorem Usable.toNat_add_remaining (h : A.Usable) :
    A.mCurr.toNat + A.remaining.toNat = A.mEnd.toNat := by
  have hle := h.le
  rw [remaining, UInt64.toNat_sub_of_le _ _ (UInt64.le_iff_toNat_le.mpr hle)]
  omega

/-- **One call.** What does not fit is refused, and changes nothing. What fits is met at the first
aligned address, and the cursor moves to its end. -/
theorem Usable.allocate_cases (h : A.Usable) (size : UInt64) (alignment : Alignment) :
    ¬Bump.Fits A.mEnd.toNat A.mCurr.toNat (request (size, alignment)) ∧
        A.allocate size alignment = (0, A) ∨
      Bump.Fits A.mEnd.toNat A.mCurr.toNat (request (size, alignment)) ∧
        ∃ p, A.allocate size alignment = (p, { A with mCurr := p + size }) ∧ p ≠ 0 ∧
          p.toNat = Bump.alignUp alignment.bytes.toNat A.mCurr.toNat ∧
          (p + size).toNat = p.toNat + size.toNat := by
  set aligned := Bump.alignUp alignment.bytes.toNat A.mCurr.toNat with haligned
  have hval : stdAlign alignment size A.mCurr A.remaining =
      if aligned + size.toNat ≤ A.mEnd.toNat then UInt64.ofNat aligned else 0 := by
    rw [← h.toNat_add_remaining]
    rfl
  by_cases hfits : aligned + size.toNat ≤ A.mEnd.toNat
  · refine Or.inr ⟨hfits, UInt64.ofNat aligned, ?_⟩
    have hge : A.mCurr.toNat ≤ aligned := Bump.le_alignUp alignment.bytes_pos
    have hend := A.mEnd.toNat_lt
    have hlt : aligned < 2 ^ 64 := by omega
    have htoNat : (UInt64.ofNat aligned).toNat = aligned := UInt64.toNat_ofNat_of_lt' hlt
    have hne : UInt64.ofNat aligned ≠ 0 := by
      intro hzero
      have hpos := h.pos
      rw [hzero, UInt64.toNat_zero] at htoNat
      omega
    rw [if_pos hfits] at hval
    refine ⟨?_, hne, htoNat, ?_⟩
    · rw [BumpArena.allocate, hval]
      exact if_neg hne
    · rw [UInt64.toNat_add, htoNat, Nat.mod_eq_of_lt (by omega)]
  · refine Or.inl ⟨hfits, ?_⟩
    rw [BumpArena.allocate, hval, if_neg hfits]
    rfl

theorem Usable.allocate_ne_zero_iff (h : A.Usable) (size : UInt64) (alignment : Alignment) :
    (A.allocate size alignment).1 ≠ 0 ↔
      Bump.Fits A.mEnd.toNat A.mCurr.toNat (request (size, alignment)) := by
  rcases h.allocate_cases size alignment with ⟨hfits, hcall⟩ | ⟨hfits, p, hcall, hp, -⟩
  · rw [hcall]
    exact iff_of_false (fun hne ↦ hne rfl) hfits
  · rw [hcall]
    exact iff_of_true hp hfits

/-- A pointer that is not null is the first aligned address. -/
theorem Usable.toNat_allocate (h : A.Usable) (hne : (A.allocate size alignment).1 ≠ 0) :
    (A.allocate size alignment).1.toNat =
      Bump.alignUp alignment.bytes.toNat A.mCurr.toNat := by
  rcases h.allocate_cases size alignment with ⟨-, hcall⟩ | ⟨-, p, hcall, -, hp, -⟩
  · rw [hcall] at hne
    exact absurd rfl hne
  · rw [hcall]
    exact hp

/-- The arena moves its cursor as `Bump` does. -/
theorem Usable.allocate (h : A.Usable) (size : UInt64) (alignment : Alignment) :
    (A.allocate size alignment).2.Usable ∧ (A.allocate size alignment).2.mEnd = A.mEnd ∧
      (A.allocate size alignment).2.mCurr.toNat =
        Bump.bump A.mEnd.toNat A.mCurr.toNat (request (size, alignment)) := by
  rcases h.allocate_cases size alignment with ⟨hfits, hcall⟩ | ⟨hfits, p, hcall, -, hp, hadd⟩
  · rw [hcall, Bump.bump, if_neg hfits]
    exact ⟨h, rfl, rfl⟩
  · have hge : A.mCurr.toNat ≤ Bump.alignUp alignment.bytes.toNat A.mCurr.toNat :=
      Bump.le_alignUp alignment.bytes_pos
    have hpos := h.pos
    rw [hcall, Bump.bump, if_pos hfits]
    rw [hp] at hadd
    refine ⟨⟨?_, ?_⟩, rfl, hadd⟩
    · exact hadd.symm ▸ (by omega)
    · exact hadd.symm ▸ hfits

/-! ## Several requests -/

/-- Requests that all fit are all met. -/
theorem Usable.allocateAll_ne_zero (h : A.Usable) {requests : List (UInt64 × Alignment)}
    (hfit : Bump.AllFit A.mEnd.toNat A.mCurr.toNat (requests.map request)) :
    ∀ p ∈ A.allocateAll requests, p ≠ 0 := by
  induction requests generalizing A with
  | nil =>
    intro p hp
    cases hp
  | cons r requests ih =>
    obtain ⟨hfits, hrest⟩ := hfit
    obtain ⟨husable, hend, hcurr⟩ := h.allocate r.1 r.2
    intro p hp
    rcases List.mem_cons.mp hp with rfl | hp
    · exact (h.allocate_ne_zero_iff r.1 r.2).mpr hfits
    · refine ih husable ?_ p hp
      rw [hend, hcurr]
      exact hrest

theorem Usable.allocateAgain (h : A.Usable) (size : UInt64) (alignment : Alignment) (k : ℕ) :
    (A.allocateAgain size alignment k).Usable ∧
      (A.allocateAgain size alignment k).mEnd = A.mEnd ∧
      (A.allocateAgain size alignment k).mCurr.toNat =
        (Bump.bump A.mEnd.toNat · (request (size, alignment)))^[k] A.mCurr.toNat := by
  induction k with
  | zero => exact ⟨h, rfl, rfl⟩
  | succ k ih =>
    obtain ⟨husable, hend, hcurr⟩ := ih
    obtain ⟨husable', hend', hcurr'⟩ := husable.allocate size alignment
    refine ⟨husable', hend'.trans hend, ?_⟩
    rw [Function.iterate_succ_apply', ← hcurr, ← hend]
    exact hcurr'

/-- The same request again and again, for a multiple of its alignment: it is met as often as there
is space for behind the padding. -/
theorem Usable.allocate_again (h : A.Usable) (hpos : 0 < size.toNat)
    (hdvd : alignment.bytes.toNat ∣ size.toNat) {b C : ℕ} (hb : A.mCurr.toNat = b)
    (hend : A.mEnd.toNat = b + C) (k : ℕ) :
    let pad := Bump.padding alignment.bytes.toNat b
    let A' := A.allocateAgain size alignment k
    if pad ≤ C ∧ k < (C - pad) / size.toNat then
      (A'.allocate size alignment).1.toNat = b + pad + k * size.toNat
    else A'.allocate size alignment = (0, A') := by
  intro pad A'
  obtain ⟨hA', hend', hcurr'⟩ := h.allocateAgain size alignment k
  have hup : Bump.alignUp alignment.bytes.toNat A.mCurr.toNat = b + pad := by
    rw [hb]
    exact Bump.alignUp_eq_add_padding alignment.bytes_pos
  have hspace : A.mEnd.toNat - Bump.alignUp alignment.bytes.toNat A.mCurr.toNat = C - pad := by
    rw [hend, hup, Nat.add_sub_add_left]
  have hfits : Bump.Fits A'.mEnd.toNat A'.mCurr.toNat (request (size, alignment)) ↔
      k < (C - pad) / size.toNat := by
    rw [hend', hcurr', ← hspace]
    exact Bump.fits_iterate_bump_iff alignment.bytes_pos hpos hdvd k
  split
  · next hk =>
    rw [hA'.toNat_allocate ((hA'.allocate_ne_zero_iff size alignment).mpr (hfits.mpr hk.2)), hcurr']
    refine (Bump.alignUp_iterate_bump alignment.bytes_pos hpos hdvd k).trans ?_
    rw [hspace, hup, Nat.min_eq_left hk.2.le]
  · next hk =>
    rcases hA'.allocate_cases size alignment with ⟨-, hcall⟩ | ⟨hmet, -⟩
    · exact hcall
    · -- space for one more implies space for the padding
      have hlt : k < (C - pad) / size.toNat := hfits.mp hmet
      refine absurd ⟨?_, hlt⟩ hk
      by_contra hcon
      rw [Nat.sub_eq_zero_of_le (Nat.le_of_not_le hcon), Nat.zero_div] at hlt
      exact Nat.not_lt_zero k hlt

end BumpArena

namespace Memory

variable {α : Type*} [DecidableEq α]

/-- Every state of a run has its arenas usable, over buffers that are not null and whose ends are
addresses. -/
theorem usable_of_exec {buffer : α → Buffer} {calls : List (ArenaCall α)} {s : Memory α}
    (h : exec step (start buffer) calls = some s) {a : α} (hbase : (buffer a).base ≠ 0)
    (hend : (buffer a).base.toNat + (buffer a).size.toNat < 2 ^ 64) :
    (s.arenas a).Usable ∧
      (s.arenas a).reset = BumpArena.new (buffer a).base (buffer a).size := by
  obtain ⟨u, hu⟩ := inv_of_exec h a
  have hle := hu.le
  have hpos : 0 < (buffer a).base.toNat :=
    Nat.pos_of_ne_zero fun hzero ↦ hbase (UInt64.toNat_inj.mp hzero)
  have hcurr : (s.arenas a).mCurr.toNat = (buffer a).base.toNat + u := by
    have hlt : (buffer a).base.toNat + u < 2 ^ 64 := by omega
    rw [hu.mCurr, UInt64.toNat_ofNat_of_lt' hlt]
  refine ⟨⟨by omega, ?_⟩, ?_⟩
  · rw [hcurr, hu.mEnd, UInt64.toNat_add, Nat.mod_eq_of_lt hend]
    omega
  · rw [BumpArena.reset, hu.mBegin, hu.mEnd]
    rfl

/-- A request for elements whose bytes can be counted is one to the arena. -/
theorem allocatorAllocate_eq (s : Memory α) {B : BumpAllocator α} {n : UInt64} {a : α}
    (hB : B.mArena = some a) (hn : n.toNat * B.valueType.sizeof.toNat < 2 ^ 64) :
    (s.allocatorAllocate B n).map Prod.fst =
      let ptr := ((s.arenas a).allocate (n * B.valueType.sizeof) B.valueType.alignof).1
      if ptr = 0 then none else some ptr := by
  have hle : ¬n > UInt64.ofNat (2 ^ 64 - 1) / B.valueType.sizeof := by
    have hmul : n.toNat * B.valueType.sizeof.toNat ≤ 2 ^ 64 - 1 := Nat.le_sub_one_of_lt hn
    rw [gt_iff_lt, UInt64.not_lt, UInt64.le_iff_toNat_le, UInt64.toNat_div,
      UInt64.toNat_ofNat_of_lt' (by decide)]
    exact (Nat.le_div_iff_mul_le B.valueType.sizeof_pos).mpr hmul
  have hrequest : B.request n = some (a, n * B.valueType.sizeof, B.valueType.alignof) := by
    rw [BumpAllocator.request, hB]
    exact if_neg hle
  rw [allocatorAllocate, hrequest]
  set ptr := ((s.arenas a).allocate (n * B.valueType.sizeof) B.valueType.alignof).1 with hptr
  have hcall : (s.allocate a (n * B.valueType.sizeof) B.valueType.alignof).1 = ptr := rfl
  by_cases hzero : ptr = 0 <;> simp [hcall, hzero]

/-- **Nothing but padding is wasted.** In every state of a run, a request to an arena is met just
where it fits at the least aligned address above the cursor, and then at that address; a request
made through an allocator is one of these. A reset leaves the arena as it was constructed. From
there, requests that fit together with the padding each may need are all met, and one request of a
multiple of its alignment, made again and again, is met as often as there is space for behind the
first padding, each time right behind the last, and refused from then on. -/
theorem allocate_exact (buffer : α → Buffer) (calls : List (ArenaCall α)) (s : Memory α)
    (h : exec step (start buffer) calls = some s) (a : α) (hbase : (buffer a).base ≠ 0)
    (hend : (buffer a).base.toNat + (buffer a).size.toNat < 2 ^ 64) :
    let b := (buffer a).base.toNat
    let C := (buffer a).size.toNat
    let A := s.arenas a
    let fresh := BumpArena.new (buffer a).base (buffer a).size
    (∀ size alignment p, IsLeast {q | alignment.bytes.toNat ∣ q ∧ A.mCurr.toNat ≤ q} p →
        ((A.allocate size alignment).1 ≠ 0 ↔ p + size.toNat ≤ A.mEnd.toNat) ∧
          ((A.allocate size alignment).1 ≠ 0 → (A.allocate size alignment).1.toNat = p)) ∧
      (∀ B n, B.mArena = some a → n.toNat * B.valueType.sizeof.toNat < 2 ^ 64 →
        (s.allocatorAllocate B n).map Prod.fst =
          let ptr := (A.allocate (n * B.valueType.sizeof) B.valueType.alignof).1
          if ptr = 0 then none else some ptr) ∧
      A.reset = fresh ∧
      (∀ requests : List (UInt64 × Alignment),
        (requests.map fun r ↦ r.1.toNat + r.2.bytes.toNat - 1).sum ≤ C →
        ∀ p ∈ fresh.allocateAll requests, p ≠ 0) ∧
      ∀ size alignment, 0 < size.toNat → alignment.bytes.toNat ∣ size.toNat → ∀ k,
        let pad := Bump.padding alignment.bytes.toNat b
        let A' := fresh.allocateAgain size alignment k
        if pad ≤ C ∧ k < (C - pad) / size.toNat then
          (A'.allocate size alignment).1.toNat = b + pad + k * size.toNat
        else A'.allocate size alignment = (0, A') := by
  intro b C A fresh
  obtain ⟨hA, hreset⟩ := usable_of_exec h hbase hend
  have hfresh : fresh.Usable := (usable_of_exec (exec_nil (start buffer)) hbase hend).1
  have hlimit : fresh.mEnd.toNat = b + C := by
    change ((buffer a).base + (buffer a).size).toNat = b + C
    rw [UInt64.toNat_add, Nat.mod_eq_of_lt hend]
  refine ⟨fun size alignment p hp ↦ ?_, fun B n hB hn ↦ s.allocatorAllocate_eq hB hn, hreset,
    fun requests hsum ↦ ?_,
    fun size alignment hpos hdvd k ↦ hfresh.allocate_again hpos hdvd rfl hlimit k⟩
  · obtain rfl := hp.unique (Bump.isLeast_alignUp alignment.bytes_pos)
    exact ⟨hA.allocate_ne_zero_iff size alignment, fun hne ↦ hA.toNat_allocate hne⟩
  · apply hfresh.allocateAll_ne_zero
    apply Bump.allFit_of_sum_le
    · intro r hr
      obtain ⟨x, -, rfl⟩ := List.mem_map.mp hr
      exact x.2.bytes_pos
    · rw [hlimit, List.map_map]
      exact Nat.add_le_add_left hsum b

/-- Integers out of 64 bytes from an odd address: three bytes are padding, the fifteenth integer is
the last, and a request of what remains then is refused. -/
theorem allocate_exact_ints :
    let fresh := BumpArena.new oddBuffer.base oddBuffer.size
    ((fresh.allocateAgain 4 ⟨2, by decide⟩ 14).allocate 4 ⟨2, by decide⟩).1.toNat = 4156 ∧
      (fresh.allocateAgain 4 ⟨2, by decide⟩ 15).allocate 4 ⟨2, by decide⟩ =
        (0, fresh.allocateAgain 4 ⟨2, by decide⟩ 15) := by
  intro fresh
  obtain ⟨-, -, -, -, hagain⟩ := allocate_exact (fun _ : Unit ↦ oddBuffer) [] _
    (exec_nil (start fun _ ↦ oddBuffer)) () (by decide) (by decide)
  have hints := hagain 4 ⟨2, by decide⟩ (by decide) (by decide)
  exact ⟨hints 14, hints 15⟩

end Memory

end FastInAHurry
