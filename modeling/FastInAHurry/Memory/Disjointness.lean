import FastInAHurry.Memory.BumpArena

/-!
# An arena hands out disjoint memory

The cursor of an arena over the buffer `[b, b + C)` stands at `b + u` for some `u ≤ C`, and what
the arena has handed out since its last reset is stacked between `b` and the cursor. Every call
keeps this, so all ranges of a run between two resets are disjoint, whoever asked for them.
-/

namespace FastInAHurry

open Runs

theorem Alignment.bytes_pos (a : Alignment) : 0 < a.bytes.toNat := by
  have hlt : 2 ^ a.log < 2 ^ 64 := Nat.pow_lt_pow_right (by decide) a.log_lt
  rw [Alignment.bytes, UInt64.toNat_ofNat_of_lt' hlt]
  exact Nat.two_pow_pos a.log

/-! ## `std::align` -/

section Align

variable {alignment : Alignment} {size ptr space : UInt64}

/-- A non-null result is the first aligned address, and the bytes asked for fit behind it. -/
theorem stdAlign_of_ne_zero (hspace : ptr.toNat + space.toNat ≤ 2 ^ 64)
    (h : stdAlign alignment size ptr space ≠ 0) :
    (stdAlign alignment size ptr space).toNat = Bump.alignUp alignment.bytes.toNat ptr.toNat ∧
      (stdAlign alignment size ptr space).toNat + size.toNat ≤ ptr.toNat + space.toNat := by
  set aligned := Bump.alignUp alignment.bytes.toNat ptr.toNat with haligned
  have hfit : aligned + size.toNat ≤ ptr.toNat + space.toNat := by
    by_contra hfit
    exact h (if_neg hfit)
  have hval : stdAlign alignment size ptr space = UInt64.ofNat aligned := if_pos hfit
  have hlt : aligned < 2 ^ 64 := by
    refine lt_of_le_of_ne (by omega) fun heq ↦ h ?_
    rw [hval, heq]
    rfl
  rw [hval, UInt64.toNat_ofNat_of_lt' hlt]
  exact ⟨rfl, hfit⟩

/-- At the null address nothing else than the null pointer is ever returned. -/
theorem stdAlign_zero : stdAlign alignment size 0 space = 0 := by
  have hzero : Bump.alignUp alignment.bytes.toNat 0 = 0 :=
    Nat.le_zero.mp (Bump.alignUp_le alignment.bytes_pos (Nat.dvd_zero _) (Nat.le_refl 0))
  rw [stdAlign, UInt64.toNat_zero, hzero]
  split <;> rfl

end Align

/-! ## One arena -/

/-- The arena `A` over `buffer`, after it has handed out `gs` since its last reset. -/
structure BumpArena.Inv (buffer : Buffer) (A : BumpArena) (gs : List Grant) (u : ℕ) : Prop where
  le : u ≤ buffer.size.toNat
  mBegin : A.mBegin = buffer.base
  mCurr : A.mCurr = UInt64.ofNat (buffer.base.toNat + u)
  mEnd : A.mEnd = buffer.base + buffer.size
  stacked : Bump.Stacked buffer.base.toNat (buffer.base.toNat + u) (gs.map Grant.range)
  aligned : ∀ g ∈ gs, g.alignment.bytes.toNat ∣ g.ptr.toNat
  null : buffer.base = 0 → u = 0

namespace BumpArena

variable {buffer : Buffer} {A : BumpArena} {gs : List Grant} {u : ℕ} {size : UInt64}
  {alignment : Alignment}

theorem inv_empty (hb : A.mBegin = buffer.base) (hc : A.mCurr = buffer.base)
    (he : A.mEnd = buffer.base + buffer.size) : Inv buffer A [] 0 where
  le := Nat.zero_le _
  mBegin := hb
  mCurr := by rw [hc, Nat.add_zero, UInt64.ofNat_toNat]
  mEnd := he
  stacked := Bump.Stacked.nil _ _
  aligned := by simp
  null := fun _ ↦ rfl

theorem Inv.reset (h : Inv buffer A gs u) : Inv buffer A.reset [] 0 :=
  inv_empty h.mBegin h.mBegin h.mEnd

theorem Inv.toNat_remaining (h : Inv buffer A gs u) :
    A.remaining.toNat = buffer.size.toNat - u := by
  have hle := h.le
  have hwrap := buffer.noWrap
  have hsize := buffer.size.toNat_lt
  rw [BumpArena.remaining, h.mEnd, h.mCurr, UInt64.toNat_sub, UInt64.toNat_add,
    UInt64.toNat_ofNat']
  omega

theorem Inv.toNat_used (h : Inv buffer A gs u) : A.used.toNat = u := by
  have hle := h.le
  have hwrap := buffer.noWrap
  have hsize := buffer.size.toNat_lt
  rw [BumpArena.used, h.mBegin, h.mCurr, UInt64.toNat_sub, UInt64.toNat_ofNat']
  omega

/-- An arena over a null buffer refuses every request. -/
theorem Inv.allocate_of_null (h : Inv buffer A gs u) (hbase : buffer.base = 0) :
    A.allocate size alignment = (0, A) := by
  have hcurr : A.mCurr = 0 := by
    rw [h.mCurr, h.null hbase, hbase]
    rfl
  refine if_pos ?_
  rw [hcurr]
  exact stdAlign_zero

/-- **One call.** A call that returns the null pointer changes nothing, and any other one puts its
range on the stack. -/
theorem Inv.allocate (h : Inv buffer A gs u) (size : UInt64) (alignment : Alignment) :
    A.allocate size alignment = (0, A) ∨
      ∃ p A' u', A.allocate size alignment = (p, A') ∧ p ≠ 0 ∧
        Inv buffer A' (gs ++ [⟨p, size, alignment⟩]) u' := by
  by_cases hp : stdAlign alignment size A.mCurr A.remaining = 0
  · exact Or.inl (if_pos hp)
  refine Or.inr ⟨_, _, (stdAlign alignment size A.mCurr A.remaining).toNat + size.toNat -
    buffer.base.toNat, if_neg hp, hp, ?_⟩
  have hwrap := buffer.noWrap
  have hle := h.le
  -- the cursor is not the null pointer: it has neither wrapped, nor is it that of a null buffer
  have hne : A.mCurr ≠ 0 := fun hzero ↦ hp (by rw [hzero]; exact stdAlign_zero)
  have hlt : buffer.base.toNat + u < 2 ^ 64 := by
    refine lt_of_le_of_ne (by omega) fun hend ↦ hne ?_
    rw [h.mCurr, hend]
    rfl
  have hbase : buffer.base ≠ 0 := fun hzero ↦ hne (by rw [h.mCurr, hzero, h.null hzero]; rfl)
  have hcurr : A.mCurr.toNat = buffer.base.toNat + u := by
    rw [h.mCurr, UInt64.toNat_ofNat_of_lt' hlt]
  obtain ⟨hfirst, hfits⟩ := stdAlign_of_ne_zero
    (by rw [hcurr, h.toNat_remaining]; omega) hp
  have hdvd : alignment.bytes.toNat ∣ (stdAlign alignment size A.mCurr A.remaining).toNat := by
    rw [hfirst]
    exact Bump.dvd_alignUp
  have hge : A.mCurr.toNat ≤ (stdAlign alignment size A.mCurr A.remaining).toNat := by
    rw [hfirst]
    exact Bump.le_alignUp alignment.bytes_pos
  generalize stdAlign alignment size A.mCurr A.remaining = p at *
  rw [hcurr] at hge
  rw [hcurr, h.toNat_remaining] at hfits
  have htop : buffer.base.toNat + (p.toNat + size.toNat - buffer.base.toNat) =
      p.toNat + size.toNat := by omega
  refine ⟨by omega, h.mBegin, ?_, h.mEnd, ?_, ?_, ?_⟩
  · rw [htop, UInt64.ofNat_add, UInt64.ofNat_toNat, UInt64.ofNat_toNat]
  · rw [htop, List.map_append, List.map_singleton]
    exact h.stacked.concat (Nat.le_add_right _ _) hge (Nat.le_refl _)
  · intro g hg
    rcases List.mem_append.mp hg with hg | hg
    · exact h.aligned g hg
    · obtain rfl := List.mem_singleton.mp hg
      exact hdvd
  · exact fun hzero ↦ absurd hzero hbase

end BumpArena

/-! ## Allocators -/

variable {α : Type*}

/-- A request that does not trap is for exactly `n` elements: the product has not wrapped. -/
theorem BumpAllocator.request_eq_some {B : BumpAllocator α} {n : UInt64} {a : α} {size : UInt64}
    {alignment : Alignment} (h : B.request n = some (a, size, alignment)) :
    B.mArena = some a ∧ size.toNat = n.toNat * B.valueType.sizeof.toNat ∧
      alignment = B.valueType.alignof := by
  unfold BumpAllocator.request at h
  split at h
  · cases h
  · next a' harena =>
    split at h
    · cases h
    · next hn =>
      obtain ⟨rfl, rfl, rfl⟩ : a' = a ∧ n * B.valueType.sizeof = size ∧
          B.valueType.alignof = alignment := by
        simpa only [Option.some.injEq, Prod.mk.injEq] using h
      refine ⟨harena, ?_, rfl⟩
      have hle : n.toNat ≤ (2 ^ 64 - 1) / B.valueType.sizeof.toNat := by
        have := UInt64.le_iff_toNat_le.mp (UInt64.not_lt.mp hn)
        rwa [UInt64.toNat_div, UInt64.toNat_ofNat_of_lt' (by decide)] at this
      have hmul := (Nat.le_div_iff_mul_le B.valueType.sizeof_pos).mp hle
      rw [UInt64.toNat_mul, Nat.mod_eq_of_lt (by omega)]

/-! ## Programs -/

namespace Memory

/-- Every arena of the program is in order. -/
def Inv (buffer : α → Buffer) (s : Memory α) : Prop :=
  ∀ a, ∃ u, BumpArena.Inv (buffer a) (s.arenas a) (s.grants a) u

theorem inv_start (buffer : α → Buffer) : Inv buffer (start buffer) :=
  fun _ ↦ ⟨0, BumpArena.inv_empty rfl rfl rfl⟩

variable [DecidableEq α] {buffer : α → Buffer} {s t : Memory α} {a : α}

/-- To keep all arenas in order it is enough to keep the one that is written. -/
theorem Inv.update (h : Inv buffer s) {A : BumpArena} {gs : List Grant} {u : ℕ}
    (hA : BumpArena.Inv (buffer a) A gs u) :
    Inv buffer ⟨Function.update s.arenas a A, Function.update s.grants a gs⟩ := by
  intro b
  rcases eq_or_ne b a with rfl | hne
  · exact ⟨u, by simpa only [Function.update_self] using hA⟩
  · simpa only [Function.update_of_ne hne] using h b

/-- **One call on an arena of the program.** It returns the null pointer and changes nothing, or
it hands out a new range and keeps everything in order. -/
theorem Inv.allocate (h : Inv buffer s) (a : α) (size : UInt64) (alignment : Alignment) :
    s.allocate a size alignment = (0, s) ∨
      ∃ p t, s.allocate a size alignment = (p, t) ∧ p ≠ 0 ∧ Inv buffer t ∧
        t.grants a = s.grants a ++ [⟨p, size, alignment⟩] := by
  obtain ⟨u, hu⟩ := h a
  rcases hu.allocate size alignment with hnull | ⟨p, A', u', hcall, hp, hinv⟩
  · refine Or.inl ?_
    rw [Memory.allocate, hnull]
    simp
  · refine Or.inr ⟨p, _, ?_, hp, h.update hinv, Function.update_self ..⟩
    rw [Memory.allocate, hcall]
    simp only [if_neg hp]

/-- A call through an allocator that does not trap is a call on its arena that hands out a range. -/
theorem Inv.allocatorAllocate (h : Inv buffer s) {B : BumpAllocator α} {n p : UInt64}
    (hcall : s.allocatorAllocate B n = some (p, t)) :
    ∃ a g, B.mArena = some a ∧ g.ptr = p ∧ p ≠ 0 ∧
      g.size.toNat = n.toNat * B.valueType.sizeof.toNat ∧ g.alignment = B.valueType.alignof ∧
      t.grants a = s.grants a ++ [g] ∧ Inv buffer t := by
  obtain ⟨⟨a, size, alignment⟩, hreq, hcall⟩ := Option.bind_eq_some_iff.mp hcall
  obtain ⟨harena, hsize, halign⟩ := BumpAllocator.request_eq_some hreq
  rcases h.allocate a size alignment with hnull | ⟨q, t', heq, hq, hinv, hgrants⟩
  · simp [hnull] at hcall
  · obtain ⟨rfl, rfl⟩ : q = p ∧ t' = t := by
      simpa only [heq, if_neg hq, Option.some.injEq, Prod.mk.injEq] using hcall
    exact ⟨a, ⟨q, size, alignment⟩, harena, rfl, hq, hsize, halign, hgrants, hinv⟩

theorem inv_step (h : Inv buffer s) {c : ArenaCall α} (hst : step s c = some t) :
    Inv buffer t := by
  cases c with
  | allocate a size alignment =>
    obtain rfl : (s.allocate a size alignment).2 = t := Option.some.inj hst
    rcases h.allocate a size alignment with hnull | ⟨p, t', heq, -, hinv, -⟩
    · rw [hnull]
      exact h
    · rw [heq]
      exact hinv
  | reset a =>
    obtain ⟨u, hu⟩ := h a
    obtain rfl := Option.some.inj hst
    exact h.update hu.reset
  | allocatorAllocate B n =>
    obtain ⟨⟨p, t'⟩, hcall, rfl⟩ := Option.map_eq_some_iff.mp hst
    obtain ⟨-, -, -, -, -, -, -, -, hinv⟩ := h.allocatorAllocate hcall
    exact hinv
  | allocatorDeallocate B p n =>
    obtain rfl : s = t := Option.some.inj hst
    exact h

theorem inv_of_exec {calls : List (ArenaCall α)} (h : exec step (start buffer) calls = some s) :
    Inv buffer s :=
  exec_invariant (fun _ _ _ hs hst ↦ inv_step hs hst) (inv_start buffer) h

/-- **Disjoint, aligned, in range.** After any sequence of calls, made directly or through
allocators of any element types, what an arena has handed out since its last reset is aligned as
asked, lies in the buffer and is pairwise disjoint; a call that returns the null pointer, as every
call on a null buffer does, changes nothing; and a call through an allocator that does not trap
hands out exactly `n * sizeof(T)` bytes. -/
theorem grants_disjoint (buffer : α → Buffer) (calls : List (ArenaCall α)) (s : Memory α)
    (h : exec step (start buffer) calls = some s) (a : α) :
    (∀ g ∈ s.grants a, g.alignment.bytes.toNat ∣ g.ptr.toNat ∧
        (buffer a).base.toNat ≤ g.ptr.toNat ∧
        g.ptr.toNat + g.size.toNat ≤ (buffer a).base.toNat + (buffer a).size.toNat) ∧
      ((s.grants a).Pairwise fun g g' ↦ Disjoint g.range.bytes g'.range.bytes) ∧
      (s.arenas a).used.toNat + (s.arenas a).remaining.toNat = (buffer a).size.toNat ∧
      (∀ size alignment, (s.allocate a size alignment).1 = 0 →
        (s.allocate a size alignment).2 = s) ∧
      ((buffer a).base = 0 → ∀ size alignment, s.allocate a size alignment = (0, s)) ∧
      ∀ B n p t, s.allocatorAllocate B n = some (p, t) → B.mArena = some a →
        ∃ g, t.grants a = s.grants a ++ [g] ∧ g.ptr = p ∧
          g.size.toNat = n.toNat * B.valueType.sizeof.toNat ∧
          g.alignment = B.valueType.alignof := by
  have hinv := inv_of_exec h
  obtain ⟨u, hu⟩ := hinv a
  refine ⟨fun g hg ↦ ?_, ?_, ?_, ?_, ?_, ?_⟩
  · obtain ⟨hlo, hhi⟩ := hu.stacked.inside g.range (List.mem_map_of_mem hg)
    exact ⟨hu.aligned g hg, hlo, hhi.trans (Nat.add_le_add_left hu.le _)⟩
  · have hdisjoint := hu.stacked.pairwise_disjoint
    rwa [List.pairwise_map] at hdisjoint
  · rw [hu.toNat_used, hu.toNat_remaining]
    exact Nat.add_sub_of_le hu.le
  · intro size alignment hzero
    rcases hinv.allocate a size alignment with hnull | ⟨p, t, heq, hp, -, -⟩
    · rw [hnull]
    · exact absurd (by rw [← hzero, heq]) hp
  · intro hbase size alignment
    rw [Memory.allocate, hu.allocate_of_null hbase]
    simp
  · intro B n p t hcall hB
    obtain ⟨a', g, ha', hptr, -, hsize, halign, hgrants, -⟩ := hinv.allocatorAllocate hcall
    obtain rfl : a = a' := Option.some.inj (hB.symm.trans ha')
    exact ⟨g, hgrants, hptr, hsize, halign⟩

/-- A four-byte integer. -/
def intType : ElementType := ⟨4, ⟨2, by decide⟩, by decide, by decide⟩

def oddBuffer : Buffer := ⟨4097, 64, by decide⟩

/-- Three bytes, then two integers through an allocator, out of a buffer whose base is odd: the
integers start at the next multiple of four. -/
theorem grants_disjoint_bytes_then_ints :
    ∃ s : Memory Unit,
      exec step (start fun _ ↦ oddBuffer)
        [.allocate () 3 ⟨0, by decide⟩, .allocatorAllocate ⟨intType, some ()⟩ 2] = some s ∧
      s.grants () = [⟨4097, 3, ⟨0, by decide⟩⟩, ⟨4100, 8, ⟨2, by decide⟩⟩] ∧
      (s.grants ()).Pairwise fun g g' ↦ Disjoint g.range.bytes g'.range.bytes := by
  have hrun : (exec step (start fun _ ↦ oddBuffer) [.allocate () 3 ⟨0, by decide⟩,
      .allocatorAllocate ⟨intType, some ()⟩ 2]).map (fun s ↦ s.grants ()) =
        some [⟨4097, 3, ⟨0, by decide⟩⟩, ⟨4100, 8, ⟨2, by decide⟩⟩] := by decide +kernel
  obtain ⟨s, hs, hgrants⟩ := Option.map_eq_some_iff.mp hrun
  exact ⟨s, hs, hgrants, (grants_disjoint _ _ s hs ()).2.1⟩

end Memory

end FastInAHurry
