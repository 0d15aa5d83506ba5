import FastInAHurry.Handle.Exact

/-!
# Running out of memory in `reset`

`reset(pointer, d)` gives its reference up first, stores the pointer to the object, and asks for
memory after that. When `::operator new` throws, the pointer to the control block is still the old
one. A handle that had none comes out of this without a control block, and the counts stay what they
were. A handle that had one now points to a control block that does not count it, or that is gone.

What a state is worth is what happens when its handles are destroyed, in any order and on any number
of threads, so the last part is about runs in which nothing else happens.
-/

namespace FastInAHurry

namespace SharedPtr

open RefCount Runs

variable {ι O D : Type*} {s t : State ι O D} {i : ι} {h : Handle ι O D} {b : ℕ}

/-- `control_block::release` on a thread that nobody interrupts. -/
def State.release (s : State ι O D) (b : ℕ) : State ι O D :=
  s.onBlock (some b) fun b cb ↦
    if cb.mCount = 1 then
      { s.setBlock b none with
        deleted := s.deleted ++ (cb.pObj.map fun o ↦ (o, cb.deleter)).toList
        freed := s.freed ++ [b] }
    else s.setBlock b (some { cb with mCount := cb.mCount - 1 })

/-- `if (p_cb) p_cb->release()`. -/
def State.releaseOf (s : State ι O D) : Option ℕ → State ι O D
  | none => s
  | some b => s.release b

/-- A call of `reset(pointer, d)` on the handle `i`, for a pointer that is not null, in which
`::operator new` throws. The object was handed over, and `p_cb` was not assigned. -/
def State.resetThrows [DecidableEq ι] [DecidableEq O] (s : State ι O D) (i : ι) (h : Handle ι O D)
    (pointer : O) (d : D) : State ι O D :=
  { (s.releaseOf h.pCb).put i (some ⟨some pointer, h.pCb, .idle⟩) with
    given := Function.update s.given pointer (some d) }

/-- The exception in the steps of the operation: it comes where the new control block would. -/
def State.throwNew [DecidableEq ι] (s : State ι O D) (i : ι) : Option (State ι O D) :=
  (s.handles i).bind fun h ↦
    match h.phase with
    | .continuing (.replace (some pointer) _) => some (s.put i (some ⟨some pointer, h.pCb, .idle⟩))
    | _ => none

/-- Counts are exact: no operation is in progress, every count is the number of handles and not
zero, handles point to control blocks that are there, and those that are not were freed once. -/
structure ExactCounts (s : State ι O D) : Prop where
  idle : ∀ i h, s.handles i = some h → h.phase = .idle
  sound : s.faulted = false
  exact : ∀ b cb, s.blocks b = some cb → (s.pointing b).encard = cb.mCount
  owned : ∀ b cb, s.blocks b = some cb → cb.mCount ≠ 0
  live : ∀ i h b, s.handles i = some h → h.pCb = some b → s.blocks b ≠ none
  named : Named s.allocated (fun b ↦ s.blocks b ≠ none) s.freed

/-- Between two operations the counts are exact. -/
theorem Inv.exactCounts (hinv : Inv s) (hl : Loans s) (hq : s.Quiet) : ExactCounts s where
  idle _ _ hi := hl.idle hq hi
  sound := hinv.sound
  exact _ _ hb := hinv.encard_pointing hq hb
  owned b cb hb hzero := by
    obtain ⟨i, h, hi, hcb⟩ := hinv.exists_handle hq hb
    have hnone : (s.pointing b).encard = 0 := by
      rw [hinv.encard_pointing hq hb, hzero, Nat.cast_zero]
    exact Set.notMem_empty i (Set.encard_eq_zero.mp hnone ▸ ⟨h, hi, hcb⟩)
  live i h b hi hb := by
    obtain ⟨cb, hcb, -⟩ := (hinv.points hq hi).2 b hb
    simp [hcb]
  named := hinv.named

theorem ExactCounts.quiet (hs : ExactCounts s) : s.Quiet := by
  intro i h hi
  rw [hs.idle i h hi, Phase.rests]

theorem ExactCounts.counted (hs : ExactCounts s) : Counted s := by
  have hending : ∀ i, s.ending i = none := by
    intro i
    cases hi : s.handles i with
    | none => rw [State.ending, hi, Option.bind_none]
    | some h => rw [State.ending, hi, Option.bind_some, Handle.ending, hs.idle i h hi]
  refine ⟨hs.sound, ⟨fun b n hn ↦ ?_, fun i b hi ↦ ?_, fun i b hi ↦ ?_, fun b hzero ↦ ?_,
    fun i j b hi ↦ ?_⟩, hs.named⟩
  · obtain ⟨cb, hcb, rfl⟩ := Option.map_eq_some_iff.mp hn
    rw [← hs.quiet.pointing_eq]
    exact hs.exact b cb hcb
  · obtain ⟨h, hi, hb⟩ := Option.bind_eq_some_iff.mp hi
    rw [hs.quiet.holds_eq hi] at hb
    simpa [State.count] using hs.live i h b hi hb
  · cases (hending i).symm.trans hi
  · obtain ⟨cb, hcb, hzero⟩ := Option.map_eq_some_iff.mp hzero
    exact absurd hzero (hs.owned b cb hcb)
  · cases (hending i).symm.trans hi

/-! ## Destruction -/

/-- The destructors, and the steps of operations that have begun. -/
def Event.destructs : Event ι O D → Bool
  | .start _ .destruct | .go _ => true
  | .start _ _ => false

/-- No operation but the destructor is in progress on the handle, and it releases a control block
only if there is one. -/
def Handle.Leaving (h : Handle ι O D) : Prop :=
  h.phase = .idle ∨ h.phase = .continuing .destroy ∨
    (h.pCb ≠ none ∧
      (h.phase = .releasing .destroy ∨ h.phase = .deleting .destroy ∨ h.phase = .freeing .destroy))

/-- Handles are destroyed, and nothing else happens. -/
structure Leaving (s : State ι O D) : Prop where
  counted : Counted s
  leaving : ∀ i h, s.handles i = some h → h.Leaving

theorem ExactCounts.leaving (hs : ExactCounts s) : Leaving s where
  counted := hs.counted
  leaving i h hi := Or.inl (hs.idle i h hi)

/-- Without handles there are no control blocks, and each was freed once. -/
theorem Leaving.gone (hl : Leaving s) (hnone : ∀ i, s.handles i = none) (hb : b < s.allocated) :
    s.blocks b = none ∧ s.freed.count b = 1 := by
  have hblock : s.blocks b = none := by
    by_contra hlive
    obtain ⟨cb, hcb⟩ := Option.ne_none_iff_exists'.mp hlive
    have hcount : s.count b = some cb.mCount := by rw [State.count, hcb, Option.map_some]
    have hempty : {i | s.holds i = some b} = ∅ := by
      rw [Set.eq_empty_iff_forall_notMem]
      intro i hi
      change s.holds i = some b at hi
      rw [State.holds, hnone i] at hi
      cases hi
    have hzero := hl.counted.counts.exact b cb.mCount hcount
    rw [hempty, Set.encard_empty] at hzero
    have hzero : cb.mCount = 0 := by exact_mod_cast hzero.symm
    obtain ⟨i, hi⟩ := hl.counted.counts.zero_ending b (hzero ▸ hcount)
    rw [State.ending, hnone i] at hi
    cases hi
  refine ⟨hblock, List.count_eq_one_of_mem hl.counted.named.nodup ?_⟩
  exact (hl.counted.named.mem_iff b).mpr ⟨hb, not_not.mpr hblock⟩

variable [DecidableEq ι]

theorem Leaving.put (hl : Leaving s) (hc : Counted t) {o : Option (Handle ι O D)}
    (hhandles : t.handles = Function.update s.handles i o) (ho : ∀ g, o = some g → g.Leaving) :
    Leaving t := by
  refine ⟨hc, fun k g hk ↦ ?_⟩
  rw [hhandles] at hk
  rcases update_eq_some_cases hk with ⟨-, hg⟩ | ⟨-, hk⟩
  · exact ho g hg
  · exact hl.leaving k g hk

/-- A step of a destructor. -/
theorem Leaving.go (hl : Leaving s) (hi : s.handles i = some h) (hgo : s.go i h = some t) :
    Leaving t := by
  rcases hl.leaving i h hi with hphase | hphase | ⟨hcb, hphase | hphase | hphase⟩
  · simp [State.go, hphase] at hgo
  · obtain rfl : s.continueWith i .destroy = t := by simpa [State.go, hphase] using hgo
    refine hl.put (hl.counted.put ?_ ?_) rfl fun g hg ↦ ?_
    · rw [State.holds, hi, Option.bind_none, Option.bind_some, Handle.holds, hphase]
    · rw [State.ending, hi, Option.bind_none, Option.bind_some, Handle.ending, hphase]
    · cases hg
  · obtain ⟨b, hb⟩ := Option.ne_none_iff_exists'.mp hcb
    have hholds : h.holds = some b := by rw [Handle.holds, hphase, hb]
    obtain ⟨n, cb, hblock, hcount, -⟩ := hl.counted.block_of_holds hi hholds
    obtain rfl := Option.some.inj ((go_releasing hphase hb hblock hcount).symm.trans hgo)
    refine hl.put (hl.counted.release hi hphase hb hblock hcount) rfl fun g hg ↦ ?_
    obtain rfl := Option.some.inj hg
    by_cases hzero : n = 0 <;> simp [hzero, Handle.Leaving, hb]
  · obtain ⟨b, hb⟩ := Option.ne_none_iff_exists'.mp hcb
    have hending : h.ending = some b := by rw [Handle.ending, hphase, hb]
    obtain ⟨cb, hblock, -⟩ := hl.counted.block_of_ending hi hending
    obtain rfl := Option.some.inj ((go_deleting hphase hb hblock).symm.trans hgo)
    refine hl.put (hl.counted.delete hi hphase hblock) rfl fun g hg ↦ ?_
    obtain rfl := Option.some.inj hg
    exact Or.inr (Or.inr ⟨hcb, Or.inr (Or.inr rfl)⟩)
  · obtain ⟨b, hb⟩ := Option.ne_none_iff_exists'.mp hcb
    have hending : h.ending = some b := by rw [Handle.ending, hphase, hb]
    obtain ⟨cb, hblock, -⟩ := hl.counted.block_of_ending hi hending
    obtain rfl := Option.some.inj ((go_freeing hphase hb hblock).symm.trans hgo)
    refine hl.put (hl.counted.free hi hphase hb hblock) rfl fun g hg ↦ ?_
    obtain rfl := Option.some.inj hg
    exact Or.inr (Or.inl rfl)

variable [DecidableEq O]

/-- A destructor starts. -/
theorem Leaving.start (hl : Leaving s) (htarget : s.target i .destruct = some h)
    (hstart : s.start i .destruct h = some t) : Leaving t := by
  obtain rfl : s.put i (some (h.started .destroy)) = t := by
    simpa [State.start, State.lend, State.give, Op.next, Then.source, Then.token,
      Handle.started] using hstart
  have hfound : s.handles i = some h ∧ h.phase = .idle := by
    rcases target_cases htarget with ⟨hnone, -⟩ | hfound
    · simp [State.target, hnone, Op.constructs] at htarget
    · exact hfound
  obtain ⟨hi, hidle⟩ := hfound
  refine hl.put (hl.counted.put ?_ ?_) rfl fun g hg ↦ ?_
  · rw [Option.bind_some, Handle.holds_started, State.holds, hi, Option.bind_some, Handle.holds,
      hidle]
  · rw [Option.bind_some, Handle.ending_started, State.ending, hi, Option.bind_some,
      Handle.ending, hidle]
  · obtain rfl := Option.some.inj hg
    by_cases hnull : h.pCb = none <;> simp [Handle.started, Handle.Leaving, hnull]

theorem Leaving.step (hl : Leaving s) (e : Event ι O D) (he : e.destructs)
    (hst : step s e = some t) : Leaving t := by
  cases e with
  | start i op =>
    obtain ⟨h, htarget, hst⟩ := Option.bind_eq_some_iff.mp hst
    cases op with
    | destruct => exact hl.start htarget hst
    | _ => cases he
  | go i =>
    obtain ⟨h, hi, hst⟩ := Option.bind_eq_some_iff.mp hst
    exact hl.go hi hst

theorem Leaving.of_run {events : List (Event ι O D)} (hl : Leaving s)
    (hevents : ∀ e ∈ events, e.destructs) (hrun : exec SharedPtr.step s events = some t) :
    Leaving t :=
  exec_invariant_of_mem (fun _ e he _ hl hst ↦ hl.step e (hevents e he) hst) hl hrun

/-- Every handle is empty or points to a control block that is there, counts are the numbers of
handles, and the destruction of the handles never touches a control block that is gone and, once it
is complete, has freed every control block once. -/
structure Survives (t : State ι O D) : Prop where
  live : ∀ i h b, t.handles i = some h → h.pCb = some b → t.blocks b ≠ none
  exact : ∀ b cb, t.blocks b = some cb → (t.pointing b).encard = cb.mCount
  frees : ∀ events u, (∀ e ∈ events, e.destructs) → exec step t events = some u →
    u.faulted = false ∧
      ((∀ i, u.handles i = none) → ∀ b < u.allocated, u.blocks b = none ∧ u.freed.count b = 1)

theorem ExactCounts.survives (hs : ExactCounts s) : Survives s where
  live := hs.live
  exact := hs.exact
  frees events u hevents hrun := by
    have hu := hs.leaving.of_run hevents hrun
    exact ⟨hu.counted.sound, fun hnone b hb ↦ hu.gone hnone hb⟩

/-! ## The exception -/

omit [DecidableEq O] in
/-- The pointer to the object does not say who points to a control block. -/
theorem pointing_put (hi : s.handles i = some h) {g : Handle ι O D} (hg : g.pCb = h.pCb) (b : ℕ) :
    (s.put i (some g)).pointing b = s.pointing b := by
  ext k
  rcases eq_or_ne k i with rfl | hne
  · simp [State.pointing, State.put, hi, hg]
  · simp [State.pointing, State.put, hne]

omit [DecidableEq ι] [DecidableEq O] in
theorem ExactCounts.block_of_pCb (hs : ExactCounts s) (hi : s.handles i = some h)
    (hb : h.pCb = some b) : ∃ n cb, s.blocks b = some cb ∧ cb.mCount = n + 1 := by
  obtain ⟨n, cb, hcb, hcount, -⟩ :=
    hs.counted.block_of_holds hi ((hs.quiet.holds_eq hi).trans hb)
  exact ⟨n, cb, hcb, hcount⟩

/-- A handle without a control block can be given any pointer to an object. -/
theorem ExactCounts.resetThrows_of_empty (hs : ExactCounts s) (hi : s.handles i = some h)
    (hnull : h.pCb = none) (pointer : O) (d : D) : ExactCounts (s.resetThrows i h pointer d) := by
  have hpointing : (s.resetThrows i h pointer d).pointing = s.pointing := by
    funext b
    rw [State.resetThrows, hnull]
    exact pointing_put hi hnull.symm b
  have hhandles : ∀ k g, (s.resetThrows i h pointer d).handles k = some g →
      g = ⟨some pointer, none, .idle⟩ ∨ s.handles k = some g := by
    intro k g hk
    rw [State.resetThrows, hnull] at hk
    rcases update_eq_some_cases hk with ⟨-, hg⟩ | ⟨-, hk⟩
    · exact Or.inl (Option.some.inj hg).symm
    · exact Or.inr hk
  have hrest : (s.resetThrows i h pointer d).blocks = s.blocks ∧
      (s.resetThrows i h pointer d).allocated = s.allocated ∧
      (s.resetThrows i h pointer d).freed = s.freed ∧
      (s.resetThrows i h pointer d).faulted = s.faulted := by
    rw [State.resetThrows, hnull]
    exact ⟨rfl, rfl, rfl, rfl⟩
  obtain ⟨hblocks, hallocated, hfreed, hfaulted⟩ := hrest
  refine ⟨fun k g hk ↦ ?_, hfaulted.trans hs.sound, ?_, ?_, fun k g b hk hb ↦ ?_, ?_⟩
  · rcases hhandles k g hk with rfl | hk
    · rfl
    · exact hs.idle k g hk
  · rw [hblocks, hpointing]
    exact hs.exact
  · rw [hblocks]
    exact hs.owned
  · rcases hhandles k g hk with rfl | hk
    · cases hb
    · rw [hblocks]
      exact hs.live k g b hk hb
  · rw [hallocated, hblocks, hfreed]
    exact hs.named

/-- The handle shows the new object and has its old control block, or none. -/
theorem resetThrows_handles (s : State ι O D) (i : ι) (h : Handle ι O D) (pointer : O) (d : D) :
    (s.resetThrows i h pointer d).handles i = some ⟨some pointer, h.pCb, .idle⟩ :=
  Function.update_self ..

/-- The control block of a handle that had one is gone, or has one handle more than it counts. -/
theorem ExactCounts.resetThrows_of_pCb (hs : ExactCounts s) (hi : s.handles i = some h)
    (hb : h.pCb = some b) (pointer : O) (d : D) :
    (s.resetThrows i h pointer d).blocks b = none ∨
      ∃ cb, (s.resetThrows i h pointer d).blocks b = some cb ∧
        ((s.resetThrows i h pointer d).pointing b).encard = cb.mCount + 1 := by
  obtain ⟨n, cb, hcb, hcount⟩ := hs.block_of_pCb hi hb
  by_cases hlast : cb.mCount = 1
  · left
    simp [State.resetThrows, hb, State.releaseOf, State.release, State.onBlock, hcb, hlast,
      State.put, State.setBlock]
  · right
    have heq : s.resetThrows i h pointer d =
        { (s.setBlock b (some { cb with mCount := cb.mCount - 1 })).put i
            (some ⟨some pointer, some b, .idle⟩) with
          given := Function.update s.given pointer (some d) } := by
      rw [State.resetThrows, hb, State.releaseOf, State.release, State.onBlock]
      simp only [hcb, hlast, if_false]
    refine ⟨{ cb with mCount := cb.mCount - 1 }, ?_, ?_⟩
    · rw [heq]
      exact Function.update_self ..
    · have hpointing : (s.resetThrows i h pointer d).pointing b = s.pointing b := by
        rw [heq]
        exact pointing_put hi hb.symm b
      rw [hpointing, hs.exact b cb hcb, hcount]
      rfl

theorem ExactCounts.not_survives (hs : ExactCounts s) (hi : s.handles i = some h)
    (hb : h.pCb = some b) (pointer : O) (d : D) : ¬Survives (s.resetThrows i h pointer d) := by
  intro hsurvives
  rcases hs.resetThrows_of_pCb hi hb pointer d with hgone | ⟨cb, hcb, hmore⟩
  · exact hsurvives.live i _ b (resetThrows_handles s i h pointer d) hb hgone
  · rw [hsurvives.exact b cb hcb] at hmore
    have : cb.mCount = cb.mCount + 1 := by exact_mod_cast hmore
    omega

/-! ## The call in steps -/

theorem step_go (hi : s.handles i = some h) : step s (.go i) = s.go i h := by
  rw [step, hi, Option.bind_some]

/-- Steps on one handle alone release its control block at once. -/
theorem exec_release {next : Then ι O D} {cb : ControlBlock O D} {n : ℕ}
    (hi : s.handles i = some h) (hphase : h.phase = .releasing next) (hb : h.pCb = some b)
    (hcb : s.blocks b = some cb) (hcount : cb.mCount = n + 1) :
    ∃ k, exec step s (List.replicate k (.go i)) =
      some ((s.release b).put i (some { h with phase := .continuing next })) := by
  have hsub := (step_go hi).trans (go_releasing hphase hb hcb hcount)
  rcases Nat.eq_zero_or_pos n with rfl | hpos
  · rw [if_pos rfl] at hsub
    let cb₁ : ControlBlock O D := { cb with mCount := 0 }
    let h₁ : Handle ι O D := { h with phase := .deleting next }
    let s₁ : State ι O D := (s.setBlock b (some cb₁)).put i (some h₁)
    have hdelete := (step_go (State.put_self _ i (some h₁))).trans
      (go_deleting (s := s₁) (i := i) (h := h₁) rfl hb (Function.update_self ..))
    let h₂ : Handle ι O D := { h with phase := .freeing next }
    let s₂ : State ι O D := { (s₁.setBlock b (some { cb₁ with pObj := none })).put i (some h₂) with
      deleted := s₁.deleted ++ cb₁.token.toList }
    have hfree := (step_go (s := s₂) (Function.update_self ..)).trans
      (go_freeing (s := s₂) (i := i) (h := h₂) rfl hb (Function.update_self ..))
    refine ⟨3, exec_cons_eq_some.mpr ⟨_, hsub, exec_cons_eq_some.mpr ⟨s₂, hdelete,
      exec_cons_eq_some.mpr ⟨_, hfree, ?_⟩⟩⟩⟩
    rw [State.release, State.onBlock]
    simp [hcb, hcount, s₂, s₁, State.put, State.setBlock, cb₁, h₂, ControlBlock.token]
  · rw [if_neg hpos.ne'] at hsub
    refine ⟨1, exec_cons_eq_some.mpr ⟨_, hsub, ?_⟩⟩
    rw [State.release, State.onBlock]
    simp [hcb, hcount, hpos.ne']

omit [DecidableEq O] in
theorem throwNew_put (s : State ι O D) (i : ι) (pObj : Option O) (pCb : Option ℕ) (pointer : O)
    (d : D) :
    (s.put i (some ⟨pObj, pCb, .continuing (.replace (some pointer) d)⟩)).throwNew i =
      some (s.put i (some ⟨some pointer, pCb, .idle⟩)) := by
  simp [State.throwNew, State.put]

/-- The steps of a call of `reset` up to the request for memory, and the exception there. -/
theorem ExactCounts.resetThrows_of_steps (hs : ExactCounts s) (hi : s.handles i = some h)
    {pointer : O} {d : D} (hfresh : s.given pointer = none) :
    ∃ k u, exec step s (.start i (.resetTo (some pointer) d) :: List.replicate k (.go i)) = some u ∧
      u.throwNew i = some (s.resetThrows i h pointer d) := by
  let s₁ : State ι O D := { s with given := Function.update s.given pointer (some d) }
  let next : Then ι O D := .replace (some pointer) d
  have hstart : step s (.start i (.resetTo (some pointer) d)) =
      some (s₁.put i (some (h.started next))) := by
    simp [step, State.target, hi, Op.constructs, hs.idle i h hi, Phase.isIdle, Op.isSelf,
      State.start, State.lend, State.give, Op.next, Then.source, Then.token, hfresh, s₁,
      Handle.started, next]
  cases hb : h.pCb with
  | none =>
    refine ⟨0, _, exec_cons_eq_some.mpr ⟨_, hstart, exec_nil _⟩, ?_⟩
    have hstarted : h.started next = ⟨h.pObj, none, .continuing next⟩ := by
      simp [Handle.started, hb]
    rw [hstarted, throwNew_put, State.resetThrows, hb]
    rfl
  | some b =>
    obtain ⟨n, cb, hcb, hcount⟩ := hs.block_of_pCb hi hb
    have hphase : (h.started next).phase = .releasing next := by simp [Handle.started, hb]
    obtain ⟨k, hrun⟩ := exec_release (s := s₁.put i (some (h.started next)))
      (State.put_self _ i (some (h.started next))) hphase hb hcb hcount
    have hfields : (h.started next).pCb = h.pCb := rfl
    refine ⟨k, _, exec_cons_eq_some.mpr ⟨_, hstart, hrun⟩, ?_⟩
    rw [throwNew_put, hfields, hb]
    by_cases hlast : cb.mCount = 1 <;>
      simp [State.resetThrows, State.releaseOf, State.release, State.onBlock, State.put,
        State.setBlock, s₁, hcb, hlast, hb]

/-- **Allocation failure.** After a `reset(pointer, d)` in which `::operator new` threw, the handles
and the counts are sound, and every control block is freed once, exactly if the handle had no
control block before. -/
theorem resetThrows_survives_iff (s : State ι O D) (hs : ExactCounts s) (i : ι) (h : Handle ι O D)
    (hi : s.handles i = some h) (pointer : O) (d : D) :
    Survives (s.resetThrows i h pointer d) ↔ h.pCb = none := by
  constructor
  · intro hsurvives
    by_contra hcb
    obtain ⟨b, hb⟩ := Option.ne_none_iff_exists'.mp hcb
    exact hs.not_survives hi hb pointer d hsurvives
  · intro hnull
    exact (hs.resetThrows_of_empty hi hnull pointer d).survives

/-- One handle owns an object, the other is empty. -/
theorem owner_and_empty :
    ∃ (s : State Bool ℕ ℕ) (h g : Handle Bool ℕ ℕ),
      exec step init [.start true (.construct (some 7) 1), .go true, .start false .default,
        .go false] = some s ∧
      ExactCounts s ∧ s.handles false = some h ∧ h.pCb = none ∧ s.handles true = some g ∧
      g.pCb = some 0 := by
  have hmap : ((exec step init [.start true (.construct (some 7) 1), .go true,
      .start false .default, .go false] : Option (State Bool ℕ ℕ)).map fun s ↦
        ((s.handles false).map fun h ↦ (h.pCb, h.phase.isIdle),
          (s.handles true).map fun h ↦ (h.pCb, h.phase.isIdle))) =
      some (some (none, true), some (some 0, true)) := by
    decide +kernel
  obtain ⟨s, hrun, hs⟩ := Option.map_eq_some_iff.mp hmap
  obtain ⟨hfalse, htrue⟩ := Prod.mk.inj hs
  obtain ⟨h, hh, hfalse⟩ := Option.map_eq_some_iff.mp hfalse
  obtain ⟨g, hg, htrue⟩ := Option.map_eq_some_iff.mp htrue
  obtain ⟨hnull, hidle⟩ := Prod.mk.inj hfalse
  obtain ⟨hcb, hidle'⟩ := Prod.mk.inj htrue
  have hquiet : s.Quiet := by
    intro i k hk
    cases i with
    | false =>
      obtain rfl := Option.some.inj (hh.symm.trans hk)
      rw [Phase.eq_idle hidle, Phase.rests]
    | true =>
      obtain rfl := Option.some.inj (hg.symm.trans hk)
      rw [Phase.eq_idle hidle', Phase.rests]
  have hexact := (Inv.of_run hrun).exactCounts (Loans.of_run hrun) hquiet
  exact ⟨s, h, g, hrun, hexact, hh, hnull, hg, hcb⟩

/-- The empty handle may run out of memory, the owner may not. -/
theorem resetThrows_survives_iff_owner_and_empty :
    ∃ (s : State Bool ℕ ℕ) (h g : Handle Bool ℕ ℕ), ExactCounts s ∧ s.handles false = some h ∧
      s.handles true = some g ∧ Survives (s.resetThrows false h 8 2) ∧
      ¬Survives (s.resetThrows true g 8 2) := by
  obtain ⟨s, h, g, -, hs, hh, hnull, hg, hcb⟩ := owner_and_empty
  refine ⟨s, h, g, hs, hh, hg, ?_, ?_⟩
  · exact (resetThrows_survives_iff s hs false h hh 8 2).mpr hnull
  · rw [resetThrows_survives_iff s hs true g hg 8 2, hcb]
    exact Option.some_ne_none 0

/-- The only owner of a control block points to it after it was freed, and its destructor uses it
again. -/
theorem resetThrows_last_owner :
    ∃ (s : State Bool ℕ ℕ) (g : Handle Bool ℕ ℕ), ExactCounts s ∧ s.handles true = some g ∧
      g.pCb = some 0 ∧ (s.resetThrows true g 8 2).freed = [0] ∧
      (exec step (s.resetThrows true g 8 2) [.start true .destruct, .go true]).map State.faulted =
        some true ∧
      ¬Survives (s.resetThrows true g 8 2) := by
  obtain ⟨s, h, g, hrun, hs, -, -, hg, hcb⟩ := owner_and_empty
  have hmap : ((exec step init [.start true (.construct (some 7) 1), .go true,
      .start false .default, .go false] : Option (State Bool ℕ ℕ)).map fun s ↦
        (s.handles true).map fun g ↦ ((s.resetThrows true g 8 2).freed,
          (exec step (s.resetThrows true g 8 2) [.start true .destruct, .go true]).map
            State.faulted)) = some (some ([0], some true)) := by
    decide +kernel
  rw [hrun, Option.map_some, hg, Option.map_some] at hmap
  obtain ⟨hfreed, hfaulted⟩ := Prod.mk.inj (Option.some.inj (Option.some.inj hmap))
  exact ⟨s, g, hs, hg, hcb, hfreed, hfaulted, hs.not_survives hg hcb 8 2⟩

end SharedPtr

end FastInAHurry
