import FastInAHurry.Vector.Refinement

/-!
# Blocks of no capacity

`_allocate` asserts that it is not asked for nothing, and doubling relies on it. Four public
operations pass on what they are given: `reserve` and `resize` their argument, the copy constructor
the capacity of its source, the copy assignment its size. On an unallocated vector nothing stops a
zero, so that copying an empty vector fails the assertion; everywhere else a block has at least one
slot.
-/

namespace FastInAHurry

open Blocks Heap Runs

namespace Vector

variable {T ι : Type} [DecidableEq ι] [Inhabited T] {tight : Prop} {sizeofT : ℕ+} {w : World ι T}
  {l : Lists ι T} {i other : ι} {h : Heap T} {v : Vector} {xs : List T} {c : Call ι T}

omit [Inhabited T] in
theorem Holds.eq_null (hv : Holds tight h v xs) (hnull : v.mBegin = none) : v = {} ∧ xs = [] := by
  cases hv with
  | unallocated => exact ⟨rfl, rfl⟩
  | allocated => simp at hnull

omit [Inhabited T] in
theorem Holds.size_eq_zero (hv : Holds tight h v xs) (hempty : v.empty = true) : v.size = 0 := by
  cases hv with
  | unallocated => rfl
  | allocated =>
    rw [size_ofBlock]
    simpa [empty, ofBlock, eq_comm] using hempty

omit [Inhabited T] in
theorem World.modify_error {f : Heap T → Vector → Except Fault (Heap T × Vector)} {e : Fault}
    (hi : w.vectors i = some v) (hf : f w.heap v = .error e) : w.modify i f = .error e := by
  rw [World.modify, World.get_eq hi, ok_bind, hf]
  rfl

/-- The vector is asked to resize past the capacity of its block. -/
def PastCapacity (w : World ι T) (c : Call ι T) : Prop :=
  ∃ i n v, c = .resize i n ∧ w.vectors i = some v ∧ v.mBegin ≠ none ∧ v.capacity < n

theorem Rel.simulate_or_past (hrel : Rel False w l) (happ : w.Applicable c) (hnz : w.Nonzero c)
    (hfit : w.Fits sizeofT c) :
    Simulated False sizeofT w l c ∨
      (PastCapacity w c ∧ w.step sizeofT c = .error .undefined) := by
  by_cases hpast : PastCapacity w c
  · obtain ⟨i, n, v, rfl, hi, halloc, hcap⟩ := hpast
    obtain ⟨xs, hxs, hholds⟩ := hrel.holds i v hi
    refine Or.inr ⟨⟨i, n, v, rfl, hi, halloc, hcap⟩, ?_⟩
    exact World.modify_error (f := fun h v ↦ resize sizeofT h v n) hi
      (resize_past_capacity hrel.accounted hholds halloc hcap)
  · refine Or.inl (hrel.simulate happ hnz hfit (fun _ _ _ ↦ not_false) ?_)
    rintro i n rfl v hv halloc
    by_contra hcap
    exact hpast ⟨i, n, v, rfl, hv, halloc, Nat.not_le.mp hcap⟩

omit [DecidableEq ι] [Inhabited T] in
/-- A vector of the program without a block is the one that the default constructor makes. -/
theorem Rel.eq_default (hrel : Rel tight w l) (hi : w.vectors i = some v)
    (hnull : v.mBegin = none) : v = {} := by
  obtain ⟨xs, -, hholds⟩ := hrel.holds i v hi
  exact (hholds.eq_null hnull).1

/-- A call that asks an unallocated vector for nothing fails the assertion of `_allocate`. -/
theorem Rel.allocates_zero (hrel : Rel tight w l) (happ : w.Applicable c) (hzero : ¬w.Nonzero c) :
    w.step sizeofT c = .error .allocateZero := by
  cases c with
  | reserve i n =>
    simp only [World.Nonzero, not_forall, not_not] at hzero
    obtain ⟨v, hi, hnull, rfl⟩ := hzero
    obtain rfl := hrel.eq_default hi hnull
    exact World.modify_error (f := fun h v ↦ reserve sizeofT h v 0) hi rfl
  | resize i n =>
    simp only [World.Nonzero, not_forall, not_not] at hzero
    obtain ⟨v, hi, hnull, rfl⟩ := hzero
    obtain rfl := hrel.eq_default hi hnull
    exact World.modify_error (f := fun h v ↦ resize sizeofT h v 0) hi rfl
  | copyConstruct i other =>
    simp only [World.Nonzero, not_forall, not_not] at hzero
    obtain ⟨src, hsrc, hnull⟩ := hzero
    obtain rfl := hrel.eq_default hsrc hnull
    rw [World.step, World.get_eq hsrc, ok_bind, World.create, if_pos happ.1]
    rfl
  | copyAssign i other =>
    simp only [World.Nonzero, not_forall, Bool.not_eq_false] at hzero
    obtain ⟨v, hi, src, hsrc, hnull, hempty⟩ := hzero
    obtain rfl := hrel.eq_default hi hnull
    obtain ⟨ys, -, hsrcholds⟩ := hrel.holds other src hsrc
    have hmodify : (w.modify i fun h v ↦ reserve sizeofT h v 0) = .error .allocateZero :=
      World.modify_error hi rfl
    rw [World.step, World.copyAssign, World.get_eq hsrc, ok_bind, hsrcholds.size_eq_zero hempty,
      hmodify]
    rfl
  | _ => exact absurd trivial hzero

/-- The conditions under which no call of a run fails the assertion. -/
def Sound (sizeofT : ℕ+) (w : World ι T) (c : Call ι T) : Prop :=
  w.Applicable c ∧ w.Nonzero c ∧ w.Fits sizeofT c

instance (w : World ι T) : DecidablePred (Sound sizeofT w) :=
  fun c ↦ inferInstanceAs (Decidable (w.Applicable c ∧ w.Nonzero c ∧ w.Fits sizeofT c))

theorem Rel.of_run {calls : List (Call ι T)}
    (hsound : Along (World.advance sizeofT) (Sound sizeofT) World.init calls)
    (hrun : Runs.exec (World.advance sizeofT) World.init calls = some w) :
    ∃ l, Rel False w l := by
  refine hsound.invariant (P := fun w ↦ ∃ l, Rel False w l) ?_ ⟨_, Rel.init False⟩ hrun
  rintro s c t ⟨l, hrel⟩ ⟨happ, hnz, hfit⟩ hst
  rcases hrel.simulate_or_past happ hnz hfit with ⟨w', hstep, hrel', -⟩ | ⟨-, hstep⟩
  · rw [World.advance_eq hstep] at hst
    exact ⟨_, Option.some.inj hst ▸ hrel'⟩
  · rw [World.advance, hstep] at hst
    cases hst

/-! ## Runs that do not fault -/

omit [DecidableEq ι] [Inhabited T] in
theorem bind_eq_ok {α β : Type} {x : Except Fault α} {k : α → Except Fault β} {r : β}
    (hr : (x >>= k) = .ok r) : ∃ a, x = .ok a ∧ k a = .ok r := by
  cases x with
  | error e => cases hr
  | ok a => exact ⟨a, rfl, hr⟩

omit [DecidableEq ι] [Inhabited T] in
theorem World.get_eq_ok (hget : w.get i = .ok v) : w.vectors i = some v := by
  rw [World.get] at hget
  split at hget
  · next heq => rw [heq, Except.ok.inj hget]
  · cases hget

omit [Inhabited T] in
/-- A member function that returns had a vector to run on. -/
theorem World.modify_eq_ok {f : Heap T → Vector → Except Fault (Heap T × Vector)}
    {r : World ι T × Outcome T} (hr : w.modify i f = .ok r) :
    ∃ v h' v', w.vectors i = some v ∧ f w.heap v = .ok (h', v') ∧
      r = ({ w with heap := h' }.set i (some v'), .done) := by
  obtain ⟨v, hget, hr⟩ := bind_eq_ok hr
  obtain ⟨⟨h', v'⟩, hf, hr⟩ := bind_eq_ok hr
  exact ⟨v, h', v', World.get_eq_ok hget, hf, (Except.ok.inj hr).symm⟩

omit [Inhabited T] in
theorem World.ne_none_of_modify {f : Heap T → Vector → Except Fault (Heap T × Vector)}
    {r : World ι T × Outcome T} (hr : w.modify i f = .ok r) : w.vectors i ≠ none := by
  obtain ⟨v, -, -, hv, -⟩ := World.modify_eq_ok hr
  simp [hv]

omit [Inhabited T] in
theorem World.create_eq_ok {k : Except Fault (Heap T × Vector)} {r : World ι T × Outcome T}
    (hr : w.create i k = .ok r) : w.vectors i = none ∧ ∃ p, k = .ok p := by
  rw [World.create] at hr
  split at hr
  · next hnone =>
    obtain ⟨p, hp, -⟩ := bind_eq_ok hr
    exact ⟨hnone, p, hp⟩
  · cases hr

omit [DecidableEq ι] [Inhabited T] in
theorem World.query_eq_ok {f : Heap T → Vector → Except Fault (Outcome T)}
    {r : World ι T × Outcome T} (hr : w.query i f = .ok r) :
    ∃ v o, w.vectors i = some v ∧ f w.heap v = .ok o := by
  obtain ⟨v, hget, hr⟩ := bind_eq_ok hr
  obtain ⟨o, ho, -⟩ := bind_eq_ok hr
  exact ⟨v, o, World.get_eq_ok hget, ho⟩

omit [Inhabited T] in
theorem World.steal_eq_ok {r : World ι T × Outcome T} (hr : w.steal i other = .ok r) :
    w.vectors other ≠ none := by
  obtain ⟨v, hget, -⟩ := bind_eq_ok hr
  simp [World.get_eq_ok hget]

/-- A call that returns was one that applied. -/
theorem World.applicable_of_step {r : World ι T × Outcome T}
    (hstep : w.step sizeofT c = .ok r) : w.Applicable c := by
  cases c with
  | construct i => exact (World.create_eq_ok hstep).1
  | constructReserve i n =>
    obtain ⟨hnone, p, hp⟩ := World.create_eq_ok hstep
    refine ⟨hnone, Nat.pos_of_ne_zero ?_⟩
    rintro rfl
    cases hp
  | copyConstruct i other =>
    obtain ⟨src, hget, hr⟩ := bind_eq_ok hstep
    exact ⟨(World.create_eq_ok hr).1, by simp [World.get_eq_ok hget]⟩
  | moveConstruct i other =>
    rw [World.step, World.moveConstruct] at hstep
    split at hstep
    · next hnone => exact ⟨hnone, World.steal_eq_ok hstep⟩
    · cases hstep
  | copyAssign i other =>
    obtain ⟨src, hget, hr⟩ := bind_eq_ok hstep
    obtain ⟨w₁, hmod, -⟩ := bind_eq_ok hr
    exact ⟨World.ne_none_of_modify hmod, by simp [World.get_eq_ok hget]⟩
  | moveAssign i other =>
    obtain ⟨⟨w₁, o⟩, hmod, hr⟩ := bind_eq_ok hstep
    obtain ⟨v, h', v', hv, -, heq⟩ := World.modify_eq_ok hmod
    refine ⟨by simp [hv], fun hnone ↦ ?_⟩
    obtain ⟨rfl, -⟩ := Prod.mk.inj heq
    refine World.steal_eq_ok hr ?_
    rcases eq_or_ne other i with rfl | hne
    · simp [hv] at hnone
    · rw [World.set_of_ne _ _ hne, hnone]
  | operatorIndex i pos =>
    rw [World.step] at hstep
    obtain ⟨v, o, hv, ho⟩ := World.query_eq_ok hstep
    refine ⟨by simp [hv], fun u hu ↦ ?_⟩
    obtain rfl := Option.some.inj (hv.symm.trans hu)
    by_contra hpos
    rw [Vector.operatorIndex, if_neg hpos] at ho
    cases ho
  | popBack i =>
    obtain ⟨v, h', v', hv, hf, -⟩ := World.modify_eq_ok hstep
    refine ⟨by simp [hv], fun u hu ↦ ?_⟩
    obtain rfl := Option.some.inj (hv.symm.trans hu)
    by_contra hempty
    rw [Vector.popBack, if_pos (Bool.eq_true_of_not_eq_false hempty)] at hf
    cases hf
  | destruct i =>
    obtain ⟨w₁, hmod, -⟩ := bind_eq_ok hstep
    exact World.ne_none_of_modify hmod
  | atIndex i index =>
    rw [World.step] at hstep
    obtain ⟨v, o, hv, -⟩ := World.query_eq_ok hstep
    simp [World.Applicable, hv]
  | emplaceBack i x | reserve i n | resize i n | clear i =>
    rw [World.step] at hstep
    exact World.ne_none_of_modify hstep

/-- A run of requests that fit is sound as far as it goes. -/
theorem Rel.of_fitting_run {calls : List (Call ι T)}
    (hfits : Along (World.advance sizeofT) (World.Fits sizeofT) World.init calls)
    (hrun : Runs.exec (World.advance sizeofT) World.init calls = some w) :
    ∃ l, Rel False w l := by
  refine hfits.invariant (P := fun w ↦ ∃ l, Rel False w l) ?_ ⟨_, Rel.init False⟩ hrun
  rintro s c t ⟨l, hrel⟩ hfit hst
  obtain ⟨⟨t', o⟩, hstep, rfl⟩ : ∃ r, s.step sizeofT c = .ok r ∧ r.1 = t := by
    rw [World.advance] at hst
    rcases hs : s.step sizeofT c with e | r
    · rw [hs] at hst
      cases hst
    · rw [hs] at hst
      exact ⟨r, rfl, Option.some.inj hst⟩
  have happ := World.applicable_of_step hstep
  by_cases hnz : s.Nonzero c
  · rcases hrel.simulate_or_past happ hnz hfit with ⟨w', hstep', hrel', -⟩ | ⟨-, hstep'⟩
    · obtain ⟨rfl, -⟩ := Prod.mk.inj (Except.ok.inj (hstep'.symm.trans hstep))
      exact ⟨_, hrel'⟩
    · cases hstep'.symm.trans hstep
  · cases (hrel.allocates_zero happ hnz).symm.trans hstep

/-- **No block of no capacity.** Along a run that asks no unallocated vector for nothing, every
block has a slot and doubling makes room, and the assertion of `_allocate` does not fail: a call
returns, or it is a resize past the capacity. A call that does ask for nothing fails it. -/
theorem allocate_never_zero (sizeofT : ℕ+) (calls : List (Call ι T)) (w : World ι T)
    (hsound : Along (World.advance sizeofT) (Sound sizeofT) World.init calls)
    (hrun : Runs.exec (World.advance sizeofT) World.init calls = some w) :
    (∀ i v, w.vectors i = some v → v.mBegin ≠ none →
      1 ≤ v.capacity ∧ v.size ≤ v.capacity ∧ v.size < v.capacity * 2) ∧
    ∀ c, w.Applicable c → w.Fits sizeofT c →
      (w.Nonzero c → w.step sizeofT c ≠ .error .allocateZero ∧
        ((∃ w' o, w.step sizeofT c = .ok (w', o)) ∨
          (PastCapacity w c ∧ w.step sizeofT c = .error .undefined))) ∧
      (¬w.Nonzero c → w.step sizeofT c = .error .allocateZero) := by
  obtain ⟨l, hrel⟩ := Rel.of_run hsound hrun
  refine ⟨fun i v hv halloc ↦ ?_, fun c happ hfit ↦ ⟨fun hnz ↦ ?_, hrel.allocates_zero happ⟩⟩
  · obtain ⟨xs, -, hholds⟩ := hrel.holds i v hv
    have hle := hholds.length_le
    rw [← hholds.size_eq] at hle
    cases hholds with
    | unallocated => exact absurd rfl halloc
    | allocated hpos =>
      rw [capacity_ofBlock] at hle ⊢
      exact ⟨hpos, hle, by omega⟩
  · rcases hrel.simulate_or_past happ hnz hfit with ⟨w', hstep, -⟩ | ⟨hpast, hstep⟩
    · exact ⟨by simp [hstep], Or.inl ⟨w', _, hstep⟩⟩
    · exact ⟨by simp [hstep], Or.inr ⟨hpast, hstep⟩⟩

/-- A default constructed vector that is filled, copied and assigned to. -/
theorem allocate_never_zero_copies :
    ∃ w : World ℕ ℕ,
      Runs.exec (World.advance 8) World.init
        [.construct 0, .emplaceBack 0 7, .copyConstruct 1 0, .construct 2, .copyAssign 2 0,
          .clear 0, .resize 1 1] = some w ∧
      ∀ v ∈ w.vectors 2, v.mBegin ≠ none → 1 ≤ v.capacity := by
  have hrun : ((Runs.exec (World.advance 8) World.init
      ([.construct 0, .emplaceBack 0 7, .copyConstruct 1 0, .construct 2, .copyAssign 2 0,
        .clear 0, .resize 1 1] : List (Call ℕ ℕ))).map fun _ ↦ ()) = some () := by
    decide +kernel
  obtain ⟨w, hw, -⟩ := Option.map_eq_some_iff.mp hrun
  refine ⟨w, hw, fun v hv halloc ↦ ?_⟩
  exact ((allocate_never_zero 8 _ w (by decide +kernel) hw).1 2 v hv halloc).1

/-- `reserve(0)` on a default constructed vector. -/
theorem reserve_zero_fails :
    Along (World.advance 8) World.Applicable World.init
        ([.construct 0, .reserve 0 0] : List (Call ℕ ℕ)) ∧
      ((Runs.exec (World.advance 8) World.init ([.construct 0] : List (Call ℕ ℕ))).map fun w ↦
        (w.step 8 (.reserve 0 0)).map fun _ ↦ ()) = some (.error .allocateZero) := by
  exact ⟨by decide +kernel, by decide +kernel⟩

end Vector

end FastInAHurry
