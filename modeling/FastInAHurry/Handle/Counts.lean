import FastInAHurry.Handle.SharedPtr

/-!
# The counts of shared pointers

A handle holds its control block from its `fetch_add`, or the creation of the block, to its
`fetch_sub`; what its pointers say in between two steps of an operation does not matter. Read this
way the steps of the operations are the moves of `RefCount`: one release, one acquisition, one
creation, one transfer, one end. An object that is handed over is with the operation that will put
it into a control block, in that control block, or was passed to its deleter.

Beside the counts there are facts about single handles. They survive the change of one handle, which
is proved once.
-/

namespace FastInAHurry

namespace SharedPtr

open RefCount Runs

variable {ι O D : Type*}

/-! ## What a handle stands for -/

/-- The control block that counts the handle. -/
def Handle.holds (h : Handle ι O D) : Option ℕ :=
  match h.phase with
  | .idle | .lent _ _ | .taken _ | .releasing _ => h.pCb
  | .deleting _ | .freeing _ | .continuing _ | .addRef _ => none

/-- The control block that the operation on the handle takes down. -/
def Handle.ending (h : Handle ι O D) : Option ℕ :=
  match h.phase with
  | .deleting _ | .freeing _ => h.pCb
  | .idle | .lent _ _ | .taken _ | .releasing _ | .continuing _ | .addRef _ => none

/-- The handle that the operation on the handle reads from. -/
def Handle.source (h : Handle ι O D) : Option ι :=
  match h.phase with
  | .releasing next | .deleting next | .freeing next | .continuing next => next.source
  | .addRef other => some other
  | .idle | .lent _ _ | .taken _ => none

/-- The handle that the operation moves from. -/
def Then.takes : Then ι O D → Option ι
  | .moveFrom other => some other
  | .copyFrom _ | .clear | .destroy | .allocate _ _ | .replace _ _ => none

/-- The handle that the operation on the handle moves from. -/
def Handle.takes (h : Handle ι O D) : Option ι :=
  match h.phase with
  | .releasing next | .deleting next | .freeing next | .continuing next => next.takes
  | .idle | .lent _ _ | .taken _ | .addRef _ => none

/-- The operation on `i` may read from a handle in this phase. -/
def Phase.lentTo (i : ι) : Phase ι O D → Prop
  | .lent readers _ => i ∈ readers
  | .taken mover => mover = i
  | _ => False

/-- The object that the operation on the handle will put into a control block. -/
def Handle.token (h : Handle ι O D) : Option (O × D) :=
  match h.phase with
  | .releasing next | .deleting next | .freeing next | .continuing next => next.token
  | .idle | .lent _ _ | .taken _ | .addRef _ => none

def ControlBlock.token (cb : ControlBlock O D) : Option (O × D) :=
  cb.pObj.map fun o ↦ (o, cb.deleter)

namespace State

def holds (s : State ι O D) (i : ι) : Option ℕ := (s.handles i).bind Handle.holds

def ending (s : State ι O D) (i : ι) : Option ℕ := (s.handles i).bind Handle.ending

def count (s : State ι O D) (b : ℕ) : Option ℕ := (s.blocks b).map ControlBlock.mCount

/-- Where the objects are: with the operation on a handle, or in a control block. -/
def place (s : State ι O D) : ι ⊕ ℕ → Option (O × D)
  | .inl i => (s.handles i).bind Handle.token
  | .inr b => (s.blocks b).bind ControlBlock.token

variable {s : State ι O D} {i : ι} {h h' : Handle ι O D} {b : ℕ} {cb cb' : ControlBlock O D}

theorem count_setBlock (s : State ι O D) (b : ℕ) (o : Option (ControlBlock O D)) :
    (s.setBlock b o).count = Function.update s.count b (o.map ControlBlock.mCount) := by
  funext b'
  rcases eq_or_ne b' b with rfl | hne
  · simp [count, setBlock]
  · simp [count, setBlock, hne]

variable [DecidableEq ι]

theorem place_setBlock (s : State ι O D) (b : ℕ) (o : Option (ControlBlock O D)) :
    (s.setBlock b o).place = Function.update s.place (.inr b) (o.bind ControlBlock.token) := by
  funext p
  cases p with
  | inl i => simp [place, setBlock]
  | inr b' =>
    rcases eq_or_ne b' b with rfl | hne
    · simp [place, setBlock]
    · simp [place, setBlock, hne]

@[simp] theorem put_self (s : State ι O D) (i : ι) (o : Option (Handle ι O D)) :
    (s.put i o).handles i = o :=
  Function.update_self ..

theorem put_of_ne (s : State ι O D) {i k : ι} (hne : k ≠ i) (o : Option (Handle ι O D)) :
    (s.put i o).handles k = s.handles k :=
  Function.update_of_ne hne ..

theorem holds_put (s : State ι O D) (i : ι) (o : Option (Handle ι O D)) :
    (s.put i o).holds = Function.update s.holds i (o.bind Handle.holds) := by
  funext k
  rcases eq_or_ne k i with rfl | hne
  · simp [holds, put]
  · simp [holds, put, hne]

theorem ending_put (s : State ι O D) (i : ι) (o : Option (Handle ι O D)) :
    (s.put i o).ending = Function.update s.ending i (o.bind Handle.ending) := by
  funext k
  rcases eq_or_ne k i with rfl | hne
  · simp [ending, put]
  · simp [ending, put, hne]

theorem place_put (s : State ι O D) (i : ι) (o : Option (Handle ι O D)) :
    (s.put i o).place = Function.update s.place (.inl i) (o.bind Handle.token) := by
  funext p
  cases p with
  | inl k =>
    rcases eq_or_ne k i with rfl | hne
    · simp [place, put]
    · simp [place, put, hne]
  | inr b => simp [place, put]

theorem holds_put_same (hi : s.handles i = some h) (heq : h'.holds = h.holds) :
    (s.put i (some h')).holds = s.holds := by
  rw [holds_put, Option.bind_some, heq]
  have hself : h.holds = s.holds i := by rw [holds, hi, Option.bind_some]
  rw [hself, Function.update_eq_self]

theorem ending_put_same (hi : s.handles i = some h) (heq : h'.ending = h.ending) :
    (s.put i (some h')).ending = s.ending := by
  rw [ending_put, Option.bind_some, heq]
  have hself : h.ending = s.ending i := by rw [ending, hi, Option.bind_some]
  rw [hself, Function.update_eq_self]

theorem place_put_same (hi : s.handles i = some h) (heq : h'.token = h.token) :
    (s.put i (some h')).place = s.place := by
  rw [place_put, Option.bind_some, heq]
  have hself : h.token = s.place (.inl i) := by rw [place, hi, Option.bind_some]
  rw [hself, Function.update_eq_self]

omit [DecidableEq ι] in
theorem count_setBlock_same (hb : s.blocks b = some cb) (heq : cb'.mCount = cb.mCount) :
    (s.setBlock b (some cb')).count = s.count := by
  rw [count_setBlock, Option.map_some, heq]
  have hself : some cb.mCount = s.count b := by rw [count, hb, Option.map_some]
  rw [hself, Function.update_eq_self]

theorem place_setBlock_same (hb : s.blocks b = some cb) (heq : cb'.token = cb.token) :
    (s.setBlock b (some cb')).place = s.place := by
  rw [place_setBlock, Option.bind_some, heq]
  have hself : cb.token = s.place (.inr b) := by rw [place, hb, Option.bind_some]
  rw [hself, Function.update_eq_self]

end State

/-! ## Facts about single handles -/

/-- A handle is empty or points to something, and an operation that works on a control block has
one. -/
def Handle.Shaped (h : Handle ι O D) : Prop :=
  match h.phase with
  | .idle | .lent _ _ | .taken _ => h.pCb = none → h.pObj = none
  | .releasing _ | .deleting _ | .freeing _ | .addRef _ => h.pCb ≠ none
  | .continuing _ => True

/-- What holds of one handle, given the others and the control blocks. -/
structure Handle.Fine (handles : ι → Option (Handle ι O D)) (blocks : ℕ → Option (ControlBlock O D))
    (i : ι) (h : Handle ι O D) : Prop where
  shaped : h.Shaped
  /-- It points to the object of its control block. -/
  object : ∀ b cb, h.holds = some b → blocks b = some cb → cb.pObj = h.pObj
  /-- The deleter has been called. -/
  finished : ∀ next b cb, h.phase = .freeing next → h.pCb = some b → blocks b = some cb →
    cb.pObj = none
  /-- The handle it reads from is another one and lent to it. -/
  lent : ∀ j, h.source = some j → j ≠ i ∧ ∃ src, handles j = some src ∧ src.phase.lentTo i ∧
    (h.phase = .addRef j → src.pCb = h.pCb ∧ src.pObj = h.pObj)
  /-- It has that handle for itself if it moves from it, and else shares it. -/
  taken : ∀ j src, h.source = some j → handles j = some src →
    (src.phase = .taken i ↔ h.takes = some j)

/-- Every handle is fine. -/
def Local (s : State ι O D) : Prop := ∀ i h, s.handles i = some h → h.Fine s.handles s.blocks i

variable {s s' : State ι O D} {i j : ι} {h h' src : Handle ι O D}

/-- A handle that is read from is another one and lent to the operation. -/
theorem Local.lentTo (hl : Local s) (hi : s.handles i = some h) (hsource : h.source = some j)
    (hj : s.handles j = some src) : j ≠ i ∧ src.phase.lentTo i := by
  obtain ⟨hji, src', hj', hlent, -⟩ := (hl i h hi).lent j hsource
  obtain rfl := Option.some.inj (hj.symm.trans hj')
  exact ⟨hji, hlent⟩

/-- Only a handle that is lent is read from. -/
theorem Local.not_source (hl : Local s) {k : ι} {g : Handle ι O D} (hk : s.handles k = some g)
    (hi : ∀ h, s.handles i = some h → ¬h.phase.lentTo k) : g.source ≠ some i := by
  intro hsource
  obtain ⟨-, src, hsrc, hlent, -⟩ := (hl k g hk).lent i hsource
  exact hi src hsrc hlent

/-- **One handle changes.** It may not be one that is read from, and no control block that another
handle points to may change its object. -/
theorem Local.update [DecidableEq ι] (hl : Local s) {o : Option (Handle ι O D)}
    (hhandles : s'.handles = Function.update s.handles i o)
    (hfree : ∀ k g, k ≠ i → s.handles k = some g → g.source ≠ some i)
    (hblocks : ∀ k g b cb', k ≠ i → s.handles k = some g → (g.holds = some b ∨ g.ending = some b) →
      s'.blocks b = some cb' → ∃ cb, s.blocks b = some cb ∧ cb.pObj = cb'.pObj)
    (ho : ∀ g, o = some g → g.Fine s'.handles s'.blocks i) : Local s' := by
  intro k g hk
  rcases eq_or_ne k i with rfl | hne
  · rw [hhandles, Function.update_self] at hk
    exact ho g hk
  · rw [hhandles, Function.update_of_ne hne] at hk
    have hg := hl k g hk
    have hne' : ∀ j, g.source = some j → j ≠ i := by
      rintro j hj rfl
      exact hfree k g hne hk hj
    refine ⟨hg.shaped, fun b cb' hb hcb' ↦ ?_, fun next b cb' hphase hb hcb' ↦ ?_, fun j hj ↦ ?_,
      fun j src hj hsrc ↦ ?_⟩
    · obtain ⟨cb, hcb, heq⟩ := hblocks k g b cb' hne hk (Or.inl hb) hcb'
      rw [← heq]
      exact hg.object b cb hb hcb
    · have hending : g.ending = some b := by rw [Handle.ending, hphase, hb]
      obtain ⟨cb, hcb, heq⟩ := hblocks k g b cb' hne hk (Or.inr hending) hcb'
      rw [← heq]
      exact hg.finished next b cb hphase hb hcb
    · obtain ⟨hjk, src, hsrc, hrest⟩ := hg.lent j hj
      refine ⟨hjk, src, ?_, hrest⟩
      rw [hhandles, Function.update_of_ne (hne' j hj), hsrc]
    · rw [hhandles, Function.update_of_ne (hne' j hj)] at hsrc
      exact hg.taken j src hj hsrc

theorem Phase.rests_cases {phase : Phase ι O D} (hrests : phase.rests = true) :
    phase = .idle ∨ (∃ readers h, phase = .lent readers h) ∨ ∃ mover, phase = .taken mover := by
  cases phase with
  | idle => exact Or.inl rfl
  | lent readers h => exact Or.inr (Or.inl ⟨readers, h, rfl⟩)
  | taken mover => exact Or.inr (Or.inr ⟨mover, rfl⟩)
  | _ => cases hrests

theorem Phase.rests_of_lentTo {phase : Phase ι O D} (hlent : phase.lentTo i) :
    phase.rests = true := by
  cases phase with
  | lent readers h => rfl
  | taken mover => rfl
  | _ => cases hlent

section Rests

variable (hrests : h.phase.rests = true)

include hrests

theorem Handle.holds_of_rests : h.holds = h.pCb := by
  rcases Phase.rests_cases hrests with hp | ⟨_, _, hp⟩ | ⟨_, hp⟩ <;> rw [Handle.holds, hp]

theorem Handle.ending_of_rests : h.ending = none := by
  rcases Phase.rests_cases hrests with hp | ⟨_, _, hp⟩ | ⟨_, hp⟩ <;> rw [Handle.ending, hp]

theorem Handle.source_of_rests : h.source = none := by
  rcases Phase.rests_cases hrests with hp | ⟨_, _, hp⟩ | ⟨_, hp⟩ <;> rw [Handle.source, hp]

theorem Handle.token_of_rests : h.token = none := by
  rcases Phase.rests_cases hrests with hp | ⟨_, _, hp⟩ | ⟨_, hp⟩ <;> rw [Handle.token, hp]

theorem Handle.shaped_of_rests : h.Shaped ↔ (h.pCb = none → h.pObj = none) := by
  rcases Phase.rests_cases hrests with hp | ⟨_, _, hp⟩ | ⟨_, hp⟩ <;> rw [Handle.Shaped, hp]

end Rests

/-- A handle on which no operation is in progress. -/
theorem Handle.Fine.of_rest {handles : ι → Option (Handle ι O D)}
    {blocks : ℕ → Option (ControlBlock O D)} (hrests : h.phase.rests = true)
    (hnull : h.pCb = none → h.pObj = none)
    (hobj : ∀ b cb, h.pCb = some b → blocks b = some cb → cb.pObj = h.pObj) :
    h.Fine handles blocks i := by
  have hsource : h.source = none := Handle.source_of_rests hrests
  refine ⟨(Handle.shaped_of_rests hrests).mpr hnull, fun b cb hb ↦ ?_, fun next b cb hphase ↦ ?_,
    fun j hj ↦ ?_, fun j src hj ↦ ?_⟩
  · exact hobj b cb (Handle.holds_of_rests hrests ▸ hb)
  · rw [hphase] at hrests
    cases hrests
  · cases hsource.symm.trans hj
  · cases hsource.symm.trans hj

/-- The operation goes on and reads from the same handle. -/
theorem Handle.Fine.advance {handles handles' : ι → Option (Handle ι O D)}
    {blocks blocks' : ℕ → Option (ControlBlock O D)} [DecidableEq ι] (hf : h.Fine handles blocks i)
    (hhandles : handles' = Function.update handles i (some h')) (hsource : h'.source = h.source)
    (htakes : h'.takes = h.takes) (hshaped : h'.Shaped) (hholds : h'.holds = none)
    (hadd : ∀ j, h'.phase ≠ .addRef j)
    (hfinished : ∀ next b cb, h'.phase = .freeing next → h'.pCb = some b → blocks' b = some cb →
      cb.pObj = none) : h'.Fine handles' blocks' i := by
  refine ⟨hshaped, fun b cb hb ↦ ?_, hfinished, fun j hj ↦ ?_, fun j src hj hsrc ↦ ?_⟩
  · cases hholds.symm.trans hb
  · obtain ⟨hji, src, hsrc, hlent, -⟩ := hf.lent j (hsource ▸ hj)
    refine ⟨hji, src, ?_, hlent, fun hphase ↦ absurd hphase (hadd j)⟩
    rw [hhandles, Function.update_of_ne hji, hsrc]
  · rw [hsource] at hj
    obtain ⟨hji, -⟩ := hf.lent j hj
    rw [hhandles, Function.update_of_ne hji] at hsrc
    rw [htakes]
    exact hf.taken j src hj hsrc

/-- A handle at the start of an operation. -/
def Handle.started (h : Handle ι O D) (next : Then ι O D) : Handle ι O D :=
  { h with phase := if h.pCb = none then .continuing next else .releasing next }

section Started

variable (h : Handle ι O D) (next : Then ι O D)

theorem Handle.holds_started : (h.started next).holds = h.pCb := by
  by_cases hnull : h.pCb = none <;> simp [Handle.started, hnull, Handle.holds]

theorem Handle.ending_started : (h.started next).ending = none := by
  by_cases hnull : h.pCb = none <;> simp [Handle.started, hnull, Handle.ending]

theorem Handle.source_started : (h.started next).source = next.source := by
  by_cases hnull : h.pCb = none <;> simp [Handle.started, hnull, Handle.source]

theorem Handle.takes_started : (h.started next).takes = next.takes := by
  by_cases hnull : h.pCb = none <;> simp [Handle.started, hnull, Handle.takes]

theorem Handle.token_started : (h.started next).token = next.token := by
  by_cases hnull : h.pCb = none <;> simp [Handle.started, hnull, Handle.token]

theorem Handle.shaped_started : (h.started next).Shaped := by
  by_cases hnull : h.pCb = none <;> simp [Handle.started, hnull, Handle.Shaped]

theorem Handle.started_phase :
    (h.started next).phase = .continuing next ∨ (h.started next).phase = .releasing next := by
  by_cases hnull : h.pCb = none <;> simp [Handle.started, hnull]

end Started

/-- An operation starts, and reads from a handle that is lent to it. -/
theorem Handle.Fine.started {handles handles' : ι → Option (Handle ι O D)}
    {blocks : ℕ → Option (ControlBlock O D)} [DecidableEq ι] {next : Then ι O D}
    (hhandles : handles' = Function.update handles i (some (h.started next)))
    (hobject : ∀ b cb, h.pCb = some b → blocks b = some cb → cb.pObj = h.pObj)
    (hsource : ∀ j, next.source = some j → j ≠ i ∧ ∃ src, handles j = some src ∧
      src.phase.lentTo i ∧ (src.phase = .taken i ↔ next.takes = some j)) :
    (h.started next).Fine handles' blocks i := by
  refine ⟨h.shaped_started next, fun b cb hb hcb ↦ ?_, fun next' b cb hphase ↦ ?_, fun j hj ↦ ?_,
    fun j src hj hsrc ↦ ?_⟩
  · rw [h.holds_started next] at hb
    exact hobject b cb hb hcb
  · rcases h.started_phase next with hstart | hstart <;> cases hstart.symm.trans hphase
  · rw [h.source_started next] at hj
    obtain ⟨hji, src, hsrc, hlent, -⟩ := hsource j hj
    refine ⟨hji, src, ?_, hlent, fun hphase ↦ ?_⟩
    · rw [hhandles, Function.update_of_ne hji, hsrc]
    · rcases h.started_phase next with hstart | hstart <;> cases hstart.symm.trans hphase
  · rw [h.source_started next] at hj
    obtain ⟨hji, src', hsrc', -, htaken⟩ := hsource j hj
    rw [hhandles, Function.update_of_ne hji] at hsrc
    obtain rfl := Option.some.inj (hsrc'.symm.trans hsrc)
    rw [h.takes_started next]
    exact htaken

/-! ## The invariant -/

/-- The counts, and the names of the control blocks. -/
structure Counted (s : State ι O D) : Prop where
  sound : s.faulted = false
  counts : Counts s.holds s.ending s.count
  named : Named s.allocated (fun b ↦ s.blocks b ≠ none) s.freed

structure Inv (s : State ι O D) : Prop where
  sound : s.faulted = false
  counts : Counts s.holds s.ending s.count
  named : Named s.allocated (fun b ↦ s.blocks b ≠ none) s.freed
  tokens : Tokens s.given s.place s.deleted
  fine : Local s

theorem Inv.init : Inv (init : State ι O D) where
  sound := rfl
  counts := by
    refine ⟨?_, ?_, ?_, ?_, ?_⟩ <;> simp [SharedPtr.init, State.holds, State.ending, State.count]
  named := by
    refine ⟨?_, ?_, ?_⟩ <;> simp [SharedPtr.init]
  tokens := by
    refine ⟨?_, ?_, ?_, ?_⟩ <;> simp [SharedPtr.init, State.place]
  fine _ _ h := by cases h

theorem Inv.counted (hinv : Inv s) : Counted s := ⟨hinv.sound, hinv.counts, hinv.named⟩

/-- The control block of a handle that holds one. -/
theorem Counted.block_of_holds (hc : Counted s) (hi : s.handles i = some h) {b : ℕ}
    (hb : h.holds = some b) :
    ∃ n cb, s.blocks b = some cb ∧ cb.mCount = n + 1 ∧ s.count b = some (n + 1) := by
  have hholds : s.holds i = some b := by rw [State.holds, hi, Option.bind_some, hb]
  obtain ⟨n, hn⟩ := hc.counts.exists_succ hholds
  obtain ⟨cb, hcb, hcount⟩ := Option.map_eq_some_iff.mp hn
  exact ⟨n, cb, hcb, hcount, hn⟩

/-- The control block that an operation takes down. -/
theorem Counted.block_of_ending (hc : Counted s) (hi : s.handles i = some h) {b : ℕ}
    (hb : h.ending = some b) : ∃ cb, s.blocks b = some cb ∧ cb.mCount = 0 := by
  have hending : s.ending i = some b := by rw [State.ending, hi, Option.bind_some, hb]
  exact Option.map_eq_some_iff.mp (hc.counts.ending_zero i b hending)

/-- A handle on which an operation is in progress is not lent. -/
theorem Inv.unlent (hinv : Inv s) (hi : s.handles i = some h) (hphase : h.phase.rests = false)
    (k : ι) (g : Handle ι O D) (_ : k ≠ i) (hk : s.handles k = some g) : g.source ≠ some i := by
  refine hinv.fine.not_source hk fun h' hi' hlent ↦ ?_
  obtain rfl := Option.some.inj (hi.symm.trans hi')
  rw [Phase.rests_of_lentTo hlent] at hphase
  cases hphase

/-- Nobody else has to do with a control block that an operation takes down. -/
theorem Inv.apart_of_ending (hinv : Inv s) (hi : s.handles i = some h) {b : ℕ}
    (hb : h.ending = some b) {k : ι} {g : Handle ι O D} (hne : k ≠ i) (hk : s.handles k = some g)
    {b' : ℕ} (hb' : g.holds = some b' ∨ g.ending = some b') : b' ≠ b := by
  have hending : s.ending i = some b := by rw [State.ending, hi, Option.bind_some, hb]
  rintro rfl
  rcases hb' with hholds | hend
  · have hholds : s.holds k = some b' := by rw [State.holds, hk, Option.bind_some, hholds]
    exact hinv.counts.not_holds_of_zero (hinv.counts.ending_zero i b' hending) k hholds
  · have hend : s.ending k = some b' := by rw [State.ending, hk, Option.bind_some, hend]
    exact hne (hinv.counts.ending_unique k i b' hend hending)

variable [DecidableEq ι]

/-! ## Release -/

section Release

variable {next : Then ι O D} {b n : ℕ} {cb : ControlBlock O D}

theorem go_releasing (hphase : h.phase = .releasing next) (hb : h.pCb = some b)
    (hcb : s.blocks b = some cb) (hcount : cb.mCount = n + 1) :
    s.go i h = some ((s.setBlock b (some { cb with mCount := n })).put i
      (some { h with phase := if n = 0 then .deleting next else .continuing next })) := by
  simp [State.go, hphase, State.onBlock, hb, hcb, hcount]

theorem go_deleting (hphase : h.phase = .deleting next) (hb : h.pCb = some b)
    (hcb : s.blocks b = some cb) :
    s.go i h = some { (s.setBlock b (some { cb with pObj := none })).put i
      (some { h with phase := .freeing next }) with
        deleted := s.deleted ++ cb.token.toList } := by
  simp [State.go, hphase, State.onBlock, hb, hcb, ControlBlock.token]

theorem go_freeing (hphase : h.phase = .freeing next) (hb : h.pCb = some b)
    (hcb : s.blocks b = some cb) :
    s.go i h = some { (s.setBlock b none).put i (some { h with phase := .continuing next }) with
      freed := s.freed ++ [b] } := by
  simp [State.go, hphase, State.onBlock, hb, hcb]

/-- `fetch_sub` on the count. -/
theorem Counted.release (hc : Counted s) (hi : s.handles i = some h)
    (hphase : h.phase = .releasing next) (hb : h.pCb = some b) (hcb : s.blocks b = some cb)
    (hcount : cb.mCount = n + 1) :
    Counted ((s.setBlock b (some { cb with mCount := n })).put i
      (some { h with phase := if n = 0 then .deleting next else .continuing next })) := by
  have hn : s.count b = some (n + 1) := by rw [State.count, hcb, Option.map_some, hcount]
  have hholds : ({ h with phase := if n = 0 then .deleting next else .continuing next } :
      Handle ι O D).holds = none := by
    by_cases hzero : n = 0 <;> simp [hzero, Handle.holds]
  have hending : ({ h with phase := if n = 0 then .deleting next else .continuing next } :
      Handle ι O D).ending = if n = 0 then some b else none := by
    by_cases hzero : n = 0 <;> simp [hzero, Handle.ending, hb]
  refine ⟨hc.sound, ?_, hc.named.congr fun b' ↦ ?_⟩
  · have hdrop := hc.counts.drop (i := i) (b := b) (n := n)
      (by rw [State.holds, hi, Option.bind_some, Handle.holds, hphase, hb]) hn
      (by rw [State.ending, hi, Option.bind_some, Handle.ending, hphase])
    rw [State.holds_put, State.ending_put, Option.bind_some, Option.bind_some, hholds, hending]
    exact (State.count_setBlock s b (some { cb with mCount := n })).symm ▸ hdrop
  · rcases eq_or_ne b' b with rfl | hne
    · simp [State.put, State.setBlock, hcb]
    · simp [State.put, State.setBlock, hne]

/-- The call of the deleter leaves the counts alone. -/
theorem Counted.delete (hc : Counted s) (hi : s.handles i = some h)
    (hphase : h.phase = .deleting next) (hcb : s.blocks b = some cb) {deleted : List (O × D)} :
    Counted { (s.setBlock b (some { cb with pObj := none })).put i
      (some { h with phase := .freeing next }) with deleted := deleted } := by
  have hi' : (s.setBlock b (some { cb with pObj := none })).handles i = some h := hi
  have hholds : ((s.setBlock b (some { cb with pObj := none })).put i
      (some { h with phase := .freeing next })).holds = s.holds :=
    State.holds_put_same hi' (by rw [Handle.holds, Handle.holds, hphase])
  have hending : ((s.setBlock b (some { cb with pObj := none })).put i
      (some { h with phase := .freeing next })).ending = s.ending :=
    State.ending_put_same hi' (by rw [Handle.ending, Handle.ending, hphase])
  have hcount : (s.setBlock b (some { cb with pObj := none })).count = s.count :=
    State.count_setBlock_same hcb rfl
  refine ⟨hc.sound, ?_, hc.named.congr fun b' ↦ ?_⟩
  · change Counts (State.holds (State.put _ i _)) (State.ending (State.put _ i _))
      (State.count (State.setBlock s b _))
    rw [hholds, hending, hcount]
    exact hc.counts
  · rcases eq_or_ne b' b with rfl | hne
    · simp [State.put, State.setBlock, hcb]
    · simp [State.put, State.setBlock, hne]

/-- The control block ends. -/
theorem Counted.free (hc : Counted s) (hi : s.handles i = some h)
    (hphase : h.phase = .freeing next) (hb : h.pCb = some b) (hcb : s.blocks b = some cb) :
    Counted { (s.setBlock b none).put i (some { h with phase := .continuing next }) with
      freed := s.freed ++ [b] } := by
  have hi' : (s.setBlock b none).handles i = some h := hi
  have hholds : ((s.setBlock b none).put i (some { h with phase := .continuing next })).holds =
      s.holds :=
    State.holds_put_same hi' (by rw [Handle.holds, Handle.holds, hphase])
  have hcount : (s.setBlock b none).count = Function.update s.count b none :=
    State.count_setBlock s b none
  refine ⟨hc.sound, ?_, hc.named.free (by simp [hcb]) fun b' ↦ ?_⟩
  · change Counts (State.holds (State.put _ i _)) (State.ending (State.put _ i _))
      (State.count (State.setBlock s b _))
    rw [hholds, State.ending_put, hcount]
    exact hc.counts.free (by rw [State.ending, hi, Option.bind_some, Handle.ending, hphase, hb])
  · rcases eq_or_ne b' b with rfl | hne
    · simp [State.put, State.setBlock]
    · simp [State.put, State.setBlock, hne]

end Release

/-- A handle may change as long as it stands for the same control blocks. -/
theorem Counted.put (hc : Counted s) {o : Option (Handle ι O D)}
    (hholds : o.bind Handle.holds = s.holds i) (hending : o.bind Handle.ending = s.ending i) :
    Counted (s.put i o) := by
  refine ⟨hc.sound, ?_, hc.named⟩
  rw [State.holds_put, State.ending_put, hholds, hending, Function.update_eq_self,
    Function.update_eq_self]
  exact hc.counts

omit [DecidableEq ι] in
/-- A handle that is going to release a control block points to one that counts it. -/
theorem Inv.block_of_releasing (hinv : Inv s) (hi : s.handles i = some h) {next : Then ι O D}
    (hphase : h.phase = .releasing next) :
    ∃ b cb n, h.pCb = some b ∧ s.blocks b = some cb ∧ cb.mCount = n + 1 := by
  have hshaped : h.pCb ≠ none := by simpa [Handle.Shaped, hphase] using (hinv.fine i h hi).shaped
  obtain ⟨b, hb⟩ := Option.ne_none_iff_exists'.mp hshaped
  have hholds : h.holds = some b := by rw [Handle.holds, hphase, hb]
  obtain ⟨n, cb, hcb, hcount, -⟩ := hinv.counted.block_of_holds hi hholds
  exact ⟨b, cb, n, hb, hcb, hcount⟩

/-- `fetch_sub`. -/
theorem Inv.release (hinv : Inv s) (hi : s.handles i = some h) {next : Then ι O D}
    (hphase : h.phase = .releasing next) {t : State ι O D} (hgo : s.go i h = some t) : Inv t := by
  obtain ⟨b, cb, n, hb, hcb, hcount⟩ := hinv.block_of_releasing hi hphase
  obtain rfl := Option.some.inj ((go_releasing hphase hb hcb hcount).symm.trans hgo)
  obtain ⟨hsound, hcounts, hnamed⟩ := hinv.counted.release hi hphase hb hcb hcount
  refine ⟨hsound, hcounts, hnamed, ?_, ?_⟩
  · have hsame : (s.setBlock b (some { cb with mCount := n })).place = s.place :=
      State.place_setBlock_same hcb rfl
    have hi' : (s.setBlock b (some { cb with mCount := n })).handles i = some h := hi
    rw [State.place_put_same hi' ?_, hsame]
    · exact hinv.tokens
    · by_cases hzero : n = 0 <;> simp [hzero, Handle.token, hphase]
  · refine hinv.fine.update rfl (hinv.unlent hi (by rw [hphase, Phase.rests]))
      (fun k g b' cb' _ _ _ hcb' ↦ ?_) fun g hg ↦ ?_
    · rcases eq_or_ne b' b with rfl | hne
      · obtain rfl : { cb with mCount := n } = cb' := by
          simpa [State.put, State.setBlock] using hcb'
        exact ⟨cb, hcb, rfl⟩
      · refine ⟨cb', ?_, rfl⟩
        simpa [State.put, State.setBlock, hne] using hcb'
    · obtain rfl := Option.some.inj hg
      refine (hinv.fine i h hi).advance rfl ?_ ?_ ?_ ?_ ?_ ?_
      · by_cases hzero : n = 0 <;> simp [hzero, Handle.source, hphase]
      · by_cases hzero : n = 0 <;> simp [hzero, Handle.takes, hphase]
      · by_cases hzero : n = 0 <;> simp [hzero, Handle.Shaped, hb]
      · by_cases hzero : n = 0 <;> simp [hzero, Handle.holds]
      · intro j
        by_cases hzero : n = 0 <;> simp [hzero]
      · intro next' b' cb' hfree
        by_cases hzero : n = 0 <;> simp [hzero] at hfree

/-- An operation that takes a control block down may do with it what it likes. -/
theorem Inv.fine_of_ending (hinv : Inv s) (hi : s.handles i = some h) {b : ℕ}
    (hending : h.ending = some b) {o : Option (ControlBlock O D)} {t : State ι O D}
    (hhandles : t.handles = Function.update s.handles i (some h'))
    (hblocks : t.blocks = Function.update s.blocks b o) (hfine : h'.Fine t.handles t.blocks i) :
    Local t := by
  have hphase : h.phase.rests = false := by
    by_contra hrests
    rw [Handle.ending_of_rests (Bool.eq_true_of_not_eq_false hrests)] at hending
    cases hending
  refine hinv.fine.update hhandles (hinv.unlent hi hphase) (fun k g b' cb' hne hk hb' hcb' ↦ ?_)
    fun g hg ↦ ?_
  · have hne' : b' ≠ b := hinv.apart_of_ending hi hending hne hk hb'
    rw [hblocks, Function.update_of_ne hne'] at hcb'
    exact ⟨cb', hcb', rfl⟩
  · obtain rfl := Option.some.inj hg
    exact hfine

omit [DecidableEq ι] in
/-- A handle that has begun to end a control block points to one that is there. -/
theorem Inv.block_of_phase (hinv : Inv s) (hi : s.handles i = some h) {next : Then ι O D}
    (hphase : h.phase = .deleting next ∨ h.phase = .freeing next) :
    ∃ b cb, h.pCb = some b ∧ h.ending = some b ∧ s.blocks b = some cb := by
  have hshaped : h.pCb ≠ none := by
    rcases hphase with hphase | hphase <;>
      simpa [Handle.Shaped, hphase] using (hinv.fine i h hi).shaped
  obtain ⟨b, hb⟩ := Option.ne_none_iff_exists'.mp hshaped
  have hending : h.ending = some b := by
    rcases hphase with hphase | hphase <;> rw [Handle.ending, hphase, hb]
  obtain ⟨cb, hcb, -⟩ := hinv.counted.block_of_ending hi hending
  exact ⟨b, cb, hb, hending, hcb⟩

/-- The call of the deleter. -/
theorem Inv.delete (hinv : Inv s) (hi : s.handles i = some h) {next : Then ι O D}
    (hphase : h.phase = .deleting next) {t : State ι O D} (hgo : s.go i h = some t) : Inv t := by
  obtain ⟨b, cb, hb, hending, hcb⟩ := hinv.block_of_phase hi (Or.inl hphase)
  obtain rfl := Option.some.inj ((go_deleting hphase hb hcb).symm.trans hgo)
  let s₁ : State ι O D := (s.setBlock b (some { cb with pObj := none })).put i
    (some { h with phase := .freeing next })
  have hi' : (s.setBlock b (some { cb with pObj := none })).handles i = some h := hi
  have hplace : s₁.place = Function.update s.place (.inr b) none := by
    rw [State.place_put_same hi' (by rw [Handle.token, Handle.token, hphase]),
      State.place_setBlock]
    rfl
  have hself : s.place (.inr b) = cb.token := by rw [State.place, hcb, Option.bind_some]
  obtain ⟨hsound, hcounts, hnamed⟩ := hinv.counted.delete hi hphase hcb
  refine ⟨hsound, hcounts, hnamed, ?_, ?_⟩
  · change Tokens s.given s₁.place (s.deleted ++ cb.token.toList)
    rw [hplace, ← hself]
    exact hinv.tokens.discard (.inr b)
  · refine hinv.fine_of_ending hi hending rfl rfl ?_
    refine (hinv.fine i h hi).advance rfl ?_ ?_ ?_ rfl (fun j ↦ nofun)
      fun next' b' cb' _ hb' hcb' ↦ ?_
    · rw [Handle.source, Handle.source, hphase]
    · rw [Handle.takes, Handle.takes, hphase]
    · simp [Handle.Shaped, hb]
    · obtain rfl : b = b' := Option.some.inj (hb.symm.trans hb')
      obtain rfl : { cb with pObj := none } = cb' := by
        simpa [State.put, State.setBlock] using hcb'
      rfl

/-- The end of a control block. -/
theorem Inv.free (hinv : Inv s) (hi : s.handles i = some h) {next : Then ι O D}
    (hphase : h.phase = .freeing next) {t : State ι O D} (hgo : s.go i h = some t) : Inv t := by
  obtain ⟨b, cb, hb, hending, hcb⟩ := hinv.block_of_phase hi (Or.inr hphase)
  obtain rfl := Option.some.inj ((go_freeing hphase hb hcb).symm.trans hgo)
  have hnull : cb.pObj = none := (hinv.fine i h hi).finished next b cb hphase hb hcb
  let s₁ : State ι O D := (s.setBlock b none).put i (some { h with phase := .continuing next })
  have hi' : (s.setBlock b none).handles i = some h := hi
  have hplace : s₁.place = s.place := by
    have hself : s.place (.inr b) = none := by
      rw [State.place, hcb, Option.bind_some, ControlBlock.token, hnull, Option.map_none]
    rw [State.place_put_same hi' (by rw [Handle.token, Handle.token, hphase]),
      State.place_setBlock, Option.bind_none, ← hself, Function.update_eq_self]
  obtain ⟨hsound, hcounts, hnamed⟩ := hinv.counted.free hi hphase hb hcb
  refine ⟨hsound, hcounts, hnamed, ?_, ?_⟩
  · change Tokens s.given s₁.place s.deleted
    rw [hplace]
    exact hinv.tokens
  · refine hinv.fine_of_ending hi hending rfl rfl ?_
    refine (hinv.fine i h hi).advance rfl ?_ ?_ trivial rfl (fun j ↦ nofun) fun _ _ _ hfree ↦ ?_
    · rw [Handle.source, Handle.source, hphase]
    · rw [Handle.takes, Handle.takes, hphase]
    · cases hfree

/-! ## The rest of an operation -/

section Rephase

variable {phase : Phase ι O D} (hj : s.handles j = some src) (hrests : src.phase.rests = true)
  (hrests' : phase.rests = true)
  (hkeep : ∀ k g, s.handles k = some g → g.source = some j → phase.lentTo k)
  (htaken : ∀ k g, s.handles k = some g → g.source = some j →
    (phase = .taken k ↔ g.takes = some j))

include hj hrests hrests' hkeep htaken

/-- A handle is lent to others than before, and to all that still read from it. -/
theorem Local.rephase (hl : Local s) : Local (s.put j (some { src with phase := phase })) := by
  intro k g hk
  rcases eq_or_ne k j with rfl | hne
  · rw [State.put_self] at hk
    obtain rfl := Option.some.inj hk
    have hfine := hl k src hj
    refine Handle.Fine.of_rest hrests' ((Handle.shaped_of_rests hrests).mp hfine.shaped)
      fun b cb hb hcb ↦ ?_
    exact hfine.object b cb ((Handle.holds_of_rests hrests).trans hb) hcb
  · rw [State.put_of_ne s hne] at hk
    have hg := hl k g hk
    refine ⟨hg.shaped, hg.object, hg.finished, fun j' hj' ↦ ?_, fun j' src' hj' hsrc' ↦ ?_⟩
    · obtain ⟨hjk, src', hsrc', hrest⟩ := hg.lent j' hj'
      rcases eq_or_ne j' j with rfl | hne'
      · obtain rfl := Option.some.inj (hj.symm.trans hsrc')
        exact ⟨hjk, _, State.put_self .., hkeep k g hk hj', hrest.2⟩
      · exact ⟨hjk, src', (State.put_of_ne s hne' _).trans hsrc', hrest⟩
    · rcases eq_or_ne j' j with rfl | hne'
      · rw [State.put_self] at hsrc'
        obtain rfl := Option.some.inj hsrc'
        exact htaken k g hk hj'
      · rw [State.put_of_ne s hne'] at hsrc'
        exact hg.taken j' src' hj' hsrc'

theorem Inv.rephase (hinv : Inv s) : Inv (s.put j (some { src with phase := phase })) := by
  refine ⟨hinv.sound, ?_, hinv.named, ?_, hinv.fine.rephase hj hrests hrests' hkeep htaken⟩
  · rw [State.holds_put_same hj, State.ending_put_same hj]
    · exact hinv.counts
    · rw [Handle.ending_of_rests hrests, Handle.ending_of_rests hrests']
    · rw [Handle.holds_of_rests hrests, Handle.holds_of_rests hrests']
  · rw [State.place_put_same hj]
    · exact hinv.tokens
    · rw [Handle.token_of_rests hrests, Handle.token_of_rests hrests']

end Rephase

/-- The copy for `i` gives back the handle it has read from. -/
theorem Phase.lentTo_giveBack {phase : Phase ι O D} {k : ι} (hk : phase.lentTo k) (hne : k ≠ i) :
    (phase.giveBack i).lentTo k := by
  cases phase with
  | lent readers h =>
    have hmem : k ∈ readers.erase i := Finset.mem_erase.mpr ⟨hne, hk⟩
    rw [Phase.giveBack, dif_pos ⟨k, hmem⟩]
    exact hmem
  | taken mover => exact hk
  | _ => cases hk

theorem Phase.giveBack_eq_taken {phase : Phase ι O D} {k : ι} :
    phase.giveBack i = .taken k ↔ phase = .taken k := by
  cases phase with
  | lent readers h =>
    rw [Phase.giveBack]
    split <;> exact iff_of_false nofun nofun
  | _ => exact Iff.rfl

theorem Phase.rests_giveBack {phase : Phase ι O D} (hrests : phase.rests = true) :
    (phase.giveBack i).rests = true := by
  cases phase with
  | lent readers h =>
    rw [Phase.giveBack]
    split <;> rfl
  | _ => exact hrests

/-- Once its operation has ended, the handle `i` gives back the one that it read from. -/
theorem Inv.giveBack (hinv : Inv s) (hi : s.handles i = some h) (hh : h.source = none)
    (hj : s.handles j = some src) (hlent : src.phase.lentTo i) :
    Inv (s.put j (some { src with phase := src.phase.giveBack i })) := by
  have hrests := Phase.rests_of_lentTo hlent
  refine hinv.rephase hj hrests (Phase.rests_giveBack hrests) (fun k g hk hg ↦ ?_)
    fun k g hk hg ↦ ?_
  · refine Phase.lentTo_giveBack (hinv.fine.lentTo hk hg hj).2 ?_
    rintro rfl
    obtain rfl := Option.some.inj (hi.symm.trans hk)
    cases hh.symm.trans hg
  · exact Phase.giveBack_eq_taken.trans ((hinv.fine k g hk).taken j src hg hj)

/-- The operation ends with an empty handle, or none. -/
theorem Inv.settle (hinv : Inv s) (hi : s.handles i = some h) {next : Then ι O D}
    (hphase : h.phase = .continuing next) (htoken : next.token = none)
    {o : Option (Handle ι O D)} (ho : ∀ g, o = some g → g = ⟨none, none, .idle⟩) :
    Inv (s.put i o) := by
  have hnone : ∀ f : Handle ι O D → Option ℕ, f ⟨none, none, .idle⟩ = none → o.bind f = none := by
    intro f hf
    cases o with
    | none => rfl
    | some g => rw [Option.bind_some, ho g rfl, hf]
  have hholds : o.bind Handle.holds = s.holds i := by
    rw [hnone _ rfl, State.holds, hi, Option.bind_some, Handle.holds, hphase]
  have hending : o.bind Handle.ending = s.ending i := by
    rw [hnone _ rfl, State.ending, hi, Option.bind_some, Handle.ending, hphase]
  have hplace : o.bind Handle.token = s.place (.inl i) := by
    rw [State.place, hi, Option.bind_some, Handle.token, hphase]
    cases o with
    | none => exact htoken.symm
    | some g => rw [Option.bind_some, ho g rfl]; exact htoken.symm
  obtain ⟨hsound, hcounts, hnamed⟩ := hinv.counted.put hholds hending
  refine ⟨hsound, hcounts, hnamed, ?_, ?_⟩
  · rw [State.place_put, hplace, Function.update_eq_self]
    exact hinv.tokens
  · refine hinv.fine.update rfl (hinv.unlent hi (by rw [hphase, Phase.rests]))
      (fun k g b cb _ _ _ hcb ↦ ⟨cb, hcb, rfl⟩) fun g hg ↦ ?_
    obtain rfl := ho g hg
    exact Handle.Fine.of_rest rfl (fun _ ↦ rfl) nofun

/-- The end of a copy from an empty handle. -/
theorem Inv.copy_empty (hinv : Inv s) (hi : s.handles i = some h)
    (hphase : h.phase = .continuing (.copyFrom j)) (hj : s.handles j = some src)
    (hnull : src.pCb = none) :
    Inv ((s.put i (some ⟨src.pObj, src.pCb, .idle⟩)).put j
      (some { src with phase := src.phase.giveBack i })) := by
  have hsource : h.source = some j := by simp [Handle.source, hphase, Then.source]
  obtain ⟨hji, hlent⟩ := hinv.fine.lentTo hi hsource hj
  have hobj : src.pObj = none :=
    (Handle.shaped_of_rests (Phase.rests_of_lentTo hlent)).mp (hinv.fine j src hj).shaped hnull
  have hsettled : Inv (s.put i (some ⟨src.pObj, src.pCb, .idle⟩)) :=
    hinv.settle hi hphase rfl fun g hg ↦ by rw [← Option.some.inj hg, hnull, hobj]
  have hj₁ : (s.put i (some ⟨src.pObj, src.pCb, .idle⟩)).handles j = some src :=
    (State.put_of_ne s hji _).trans hj
  exact hsettled.giveBack (State.put_self ..) (by rw [Handle.source]) hj₁ hlent

/-- A copy has its pointers and not yet its reference. -/
theorem Inv.copy_pointers (hinv : Inv s) (hi : s.handles i = some h)
    (hphase : h.phase = .continuing (.copyFrom j)) (hj : s.handles j = some src)
    (hnull : src.pCb ≠ none) : Inv (s.put i (some ⟨src.pObj, src.pCb, .addRef j⟩)) := by
  have hsource : h.source = some j := by simp [Handle.source, hphase, Then.source]
  obtain ⟨hji, hlent⟩ := hinv.fine.lentTo hi hsource hj
  refine ⟨hinv.sound, ?_, hinv.named, ?_, ?_⟩
  · rw [State.holds_put_same hi (by rw [Handle.holds, Handle.holds, hphase]),
      State.ending_put_same hi (by rw [Handle.ending, Handle.ending, hphase])]
    exact hinv.counts
  · rw [State.place_put_same hi (by rw [Handle.token, Handle.token, hphase]; rfl)]
    exact hinv.tokens
  · refine hinv.fine.update rfl (hinv.unlent hi (by rw [hphase, Phase.rests]))
      (fun k g b cb _ _ _ hcb ↦ ⟨cb, hcb, rfl⟩) fun g hg ↦ ?_
    obtain rfl := Option.some.inj hg
    refine ⟨hnull, nofun, nofun, fun j' hj' ↦ ?_, fun j' src' hj' hsrc' ↦ ?_⟩
    · obtain rfl : j = j' := Option.some.inj hj'
      refine ⟨hji, src, ?_, hlent, fun _ ↦ ⟨rfl, rfl⟩⟩
      rw [State.put_of_ne s hji, hj]
    · obtain rfl : j = j' := Option.some.inj hj'
      rw [State.put_of_ne s hji] at hsrc'
      have htaken := (hinv.fine i h hi).taken j src' hsource hsrc'
      rw [Handle.takes, hphase] at htaken
      exact htaken

/-- The end of a move. -/
theorem Inv.move (hinv : Inv s) (hi : s.handles i = some h)
    (hphase : h.phase = .continuing (.moveFrom j)) (hj : s.handles j = some src) :
    Inv ((s.put i (some ⟨src.pObj, src.pCb, .idle⟩)).put j (some ⟨none, none, .idle⟩)) := by
  have hsource : h.source = some j := by simp [Handle.source, hphase, Then.source]
  obtain ⟨hji, -⟩ := hinv.fine.lentTo hi hsource hj
  have htaken : src.phase = .taken i :=
    ((hinv.fine i h hi).taken j src hsource hj).mpr (by simp [Handle.takes, hphase, Then.takes])
  have hfine := hinv.fine j src hj
  have hrests : src.phase.rests = true := by rw [htaken, Phase.rests]
  have hnull := (Handle.shaped_of_rests hrests).mp hfine.shaped
  have hholds : src.holds = src.pCb := Handle.holds_of_rests hrests
  have hj₁ : (s.put i (some ⟨src.pObj, src.pCb, .idle⟩)).handles j = some src :=
    (State.put_of_ne s hji _).trans hj
  have hfree : ∀ k g, (s.put i (some ⟨src.pObj, src.pCb, .idle⟩)).handles k = some g →
      g.source ≠ some j := by
    intro k g hk hg
    rcases eq_or_ne k i with rfl | hne
    · rw [State.put_self] at hk
      rw [← Option.some.inj hk, Handle.source] at hg
      cases hg
    · rw [State.put_of_ne s hne] at hk
      have hlent := (hinv.fine.lentTo hk hg hj).2
      rw [htaken] at hlent
      exact hne hlent.symm
  refine ⟨hinv.sound, ?_, hinv.named, ?_, ?_⟩
  · have hi' : s.holds i = none := by rw [State.holds, hi, Option.bind_some, Handle.holds, hphase]
    have hj' : s.holds j = src.pCb := by rw [State.holds, hj, Option.bind_some, hholds]
    rw [State.ending_put_same hj₁ (by rw [Handle.ending_of_rests hrests, Handle.ending]),
      State.ending_put_same hi (by rw [Handle.ending, Handle.ending, hphase]), State.holds_put,
      State.holds_put, Function.update_comm hji.symm]
    cases hcb : src.pCb with
    | none =>
      have hsame : Function.update (Function.update s.holds j none) i none = s.holds := by
        rw [← hcb, ← hj', Function.update_eq_self, hj', hcb, ← hi', Function.update_eq_self]
      exact hsame.symm ▸ hinv.counts
    | some b => exact hinv.counts.transfer hi' (hj'.trans hcb)
  · rw [State.place_put_same hj₁ (by rw [Handle.token_of_rests hrests, Handle.token]),
      State.place_put_same hi (by rw [Handle.token, Handle.token, hphase]; rfl)]
    exact hinv.tokens
  · have hlocal : Local (s.put i (some ⟨src.pObj, src.pCb, .idle⟩)) := by
      refine hinv.fine.update rfl (hinv.unlent hi (by rw [hphase, Phase.rests]))
        (fun k g b cb _ _ _ hcb ↦ ⟨cb, hcb, rfl⟩) fun g hg ↦ ?_
      obtain rfl := Option.some.inj hg
      exact Handle.Fine.of_rest rfl hnull fun b cb hb ↦ hfine.object b cb (hholds.trans hb)
    refine hlocal.update rfl (fun k g _ ↦ hfree k g) (fun k g b cb _ _ _ hcb ↦ ⟨cb, hcb, rfl⟩)
      fun g hg ↦ ?_
    obtain rfl := Option.some.inj hg
    exact Handle.Fine.of_rest rfl (fun _ ↦ rfl) nofun

/-- `fetch_add` on the count. -/
theorem Counted.acquire (hc : Counted s) (hi : s.handles i = some h) (hphase : h.phase = .addRef j)
    {b n : ℕ} (hb : h.pCb = some b) {cb : ControlBlock O D} (hcb : s.blocks b = some cb)
    (hcount : cb.mCount = n + 1) :
    Counted ((s.setBlock b (some { cb with mCount := n + 1 + 1 })).put i
      (some { h with phase := .idle })) := by
  have hn : s.count b = some (n + 1) := by rw [State.count, hcb, Option.map_some, hcount]
  have hi' : (s.setBlock b (some { cb with mCount := n + 1 + 1 })).handles i = some h := hi
  refine ⟨hc.sound, ?_, hc.named.congr fun b' ↦ ?_⟩
  · have htake := hc.counts.take (i := i) (b := b) (n := n)
      (by rw [State.holds, hi, Option.bind_some, Handle.holds, hphase]) hn
    rw [State.ending_put_same hi' (by rw [Handle.ending, Handle.ending, hphase]), State.holds_put,
      Option.bind_some, Handle.holds, hb]
    exact (State.count_setBlock s b (some { cb with mCount := n + 1 + 1 })).symm ▸ htake
  · rcases eq_or_ne b' b with rfl | hne
    · simp [State.put, State.setBlock, hcb]
    · simp [State.put, State.setBlock, hne]

omit [DecidableEq ι] in
/-- A handle that is going to be counted points to a control block that is there. -/
theorem Inv.block_of_addRef (hinv : Inv s) (hi : s.handles i = some h)
    (hphase : h.phase = .addRef j) : ∃ b cb, h.pCb = some b ∧ s.blocks b = some cb := by
  obtain ⟨hji, src, hj, hlent, hsame⟩ := (hinv.fine i h hi).lent j (by rw [Handle.source, hphase])
  have hshaped : h.pCb ≠ none := by simpa [Handle.Shaped, hphase] using (hinv.fine i h hi).shaped
  obtain ⟨b, hb⟩ := Option.ne_none_iff_exists'.mp hshaped
  have hholds : src.holds = some b := by
    rw [Handle.holds_of_rests (Phase.rests_of_lentTo hlent), (hsame hphase).1, hb]
  obtain ⟨-, cb, hcb, -, -⟩ := hinv.counted.block_of_holds hj hholds
  exact ⟨b, cb, hb, hcb⟩

/-- `fetch_add`. -/
theorem Inv.acquire (hinv : Inv s) (hi : s.handles i = some h) (hphase : h.phase = .addRef j)
    {t : State ι O D} (hgo : s.go i h = some t) : Inv t := by
  have hsource : h.source = some j := by rw [Handle.source, hphase]
  obtain ⟨hji, src, hj, hlent, hsame⟩ := (hinv.fine i h hi).lent j hsource
  obtain ⟨hcb, hobj⟩ := hsame hphase
  have hshaped : h.pCb ≠ none := by simpa [Handle.Shaped, hphase] using (hinv.fine i h hi).shaped
  obtain ⟨b, hb⟩ := Option.ne_none_iff_exists'.mp hshaped
  have hholds : src.holds = some b := by
    rw [Handle.holds_of_rests (Phase.rests_of_lentTo hlent), hcb, hb]
  obtain ⟨n, cb, hblock, hcount, -⟩ := hinv.counted.block_of_holds hj hholds
  let s₁ : State ι O D := (s.setBlock b (some { cb with mCount := n + 1 + 1 })).put i
    (some { h with phase := .idle })
  have ht : s₁.put j (some { src with phase := src.phase.giveBack i }) = t := by
    simpa [State.go, hphase, State.onBlock, hb, hblock, hj, hcount, s₁] using hgo
  have hi' : (s.setBlock b (some { cb with mCount := n + 1 + 1 })).handles i = some h := hi
  suffices hinv₁ : Inv s₁ by
    subst ht
    exact hinv₁.giveBack (State.put_self ..) (by rw [Handle.source])
      ((State.put_of_ne _ hji _).trans hj) hlent
  obtain ⟨hsound, hcounts, hnamed⟩ := hinv.counted.acquire hi hphase hb hblock hcount
  refine ⟨hsound, hcounts, hnamed, ?_, ?_⟩
  · have hplace : s₁.place = s.place := by
      rw [State.place_put_same hi' (by rw [Handle.token, Handle.token, hphase])]
      exact State.place_setBlock_same hblock rfl
    rw [hplace]
    exact hinv.tokens
  · refine hinv.fine.update rfl (hinv.unlent hi (by rw [hphase, Phase.rests]))
      (fun k g b' cb' _ _ _ hcb' ↦ ?_) fun g hg ↦ ?_
    · rcases eq_or_ne b' b with rfl | hne
      · obtain rfl : { cb with mCount := n + 1 + 1 } = cb' := by
          simpa [s₁, State.put, State.setBlock] using hcb'
        exact ⟨cb, hblock, rfl⟩
      · refine ⟨cb', ?_, rfl⟩
        simpa [s₁, State.put, State.setBlock, hne] using hcb'
    · obtain rfl := Option.some.inj hg
      refine Handle.Fine.of_rest rfl (fun hnull ↦ absurd hnull hshaped)
        fun b' cb' hb' hcb' ↦ ?_
      obtain rfl : b = b' := Option.some.inj (hb.symm.trans hb')
      obtain rfl : { cb with mCount := n + 1 + 1 } = cb' := by
        simpa [s₁, State.put, State.setBlock] using hcb'
      exact ((hinv.fine j src hj).object b cb hholds hblock).trans hobj

omit [DecidableEq ι] in
theorem Counted.fresh (hc : Counted s) : s.blocks s.allocated = none := by
  by_contra hlive
  exact absurd (hc.named.lt _ hlive) (Nat.lt_irrefl _)

/-- A new control block counts the handle it was made for. -/
theorem Counted.allocate (hc : Counted s) (hi : s.handles i = some h) {next : Then ι O D}
    (hphase : h.phase = .continuing next) (pointer : Option O) (d : D) :
    Counted (s.allocate i pointer d) := by
  let s₁ : State ι O D := (s.setBlock s.allocated (some ⟨1, pointer, d⟩)).put i
    (some ⟨pointer, some s.allocated, .idle⟩)
  have hi' : (s.setBlock s.allocated (some ⟨1, pointer, d⟩)).handles i = some h := hi
  refine ⟨hc.sound, ?_, hc.named.create fun b' ↦ ?_⟩
  · have hcreate := hc.counts.create (i := i) (b := s.allocated)
      (by rw [State.holds, hi, Option.bind_some, Handle.holds, hphase])
      (by rw [State.count, hc.fresh, Option.map_none])
    have hend : s₁.ending = s.ending :=
      State.ending_put_same hi' (by rw [Handle.ending, Handle.ending, hphase])
    have hheld : s₁.holds = Function.update s.holds i (some s.allocated) := State.holds_put ..
    have hcounts : s₁.count = Function.update s.count s.allocated (some 1) :=
      State.count_setBlock s s.allocated _
    change Counts s₁.holds s₁.ending s₁.count
    rw [hend, hheld, hcounts]
    exact hcreate
  · rcases eq_or_ne b' s.allocated with rfl | hne
    · simp [State.allocate, State.put, State.setBlock]
    · simp [State.allocate, State.put, State.setBlock, hne]

/-- A new control block. -/
theorem Inv.allocate (hinv : Inv s) (hi : s.handles i = some h) {next : Then ι O D}
    (hphase : h.phase = .continuing next) {pointer : Option O} {d : D}
    (htoken : next.token = pointer.map fun o ↦ (o, d)) : Inv (s.allocate i pointer d) := by
  have hfresh := hinv.counted.fresh
  let s₁ : State ι O D := (s.setBlock s.allocated (some ⟨1, pointer, d⟩)).put i
    (some ⟨pointer, some s.allocated, .idle⟩)
  have hi' : (s.setBlock s.allocated (some ⟨1, pointer, d⟩)).handles i = some h := hi
  obtain ⟨hsound, hcounts, hnamed⟩ := hinv.counted.allocate hi hphase pointer d
  refine ⟨hsound, hcounts, hnamed, ?_, ?_⟩
  · have hfrom : s.place (.inl i) = pointer.map fun o ↦ (o, d) := by
      rw [State.place, hi, Option.bind_some, Handle.token, hphase]
      exact htoken
    have hto : s.place (.inr s.allocated) = none := by rw [State.place, hfresh, Option.bind_none]
    have hplace : s₁.place = Function.update (Function.update s.place (.inl i) none)
        (.inr s.allocated) (pointer.map fun o ↦ (o, d)) := by
      rw [State.place_put, State.place_setBlock, Function.update_comm (by simp)]
      rfl
    change Tokens s.given s₁.place s.deleted
    rw [hplace]
    cases pointer with
    | none =>
      rw [Option.map_none] at hfrom ⊢
      rw [← hfrom, Function.update_eq_self, hfrom, ← hto, Function.update_eq_self]
      exact hinv.tokens
    | some o => exact hinv.tokens.move hfrom hto
  · refine hinv.fine.update rfl (hinv.unlent hi (by rw [hphase, Phase.rests]))
      (fun k g b' cb' _ hk hb' hcb' ↦ ?_) fun g hg ↦ ?_
    · have hlive : s.blocks b' ≠ none := by
        rcases hb' with hholds | hending
        · obtain ⟨n, cb, hcb, -⟩ := hinv.counted.block_of_holds hk hholds
          simp [hcb]
        · obtain ⟨cb, hcb, -⟩ := hinv.counted.block_of_ending hk hending
          simp [hcb]
      have hne : b' ≠ s.allocated := by
        rintro rfl
        exact hlive hfresh
      refine ⟨cb', ?_, rfl⟩
      simpa [State.allocate, State.put, State.setBlock, hne] using hcb'
    · obtain rfl := Option.some.inj hg
      refine Handle.Fine.of_rest rfl nofun fun b' cb' hb' hcb' ↦ ?_
      obtain rfl : s.allocated = b' := Option.some.inj hb'
      obtain rfl : ⟨1, pointer, d⟩ = cb' := by
        simpa [State.allocate, State.put, State.setBlock] using hcb'
      rfl

/-- The step of an operation that has nothing (more) to release. -/
theorem Inv.continue (hinv : Inv s) (hi : s.handles i = some h) {next : Then ι O D}
    (hphase : h.phase = .continuing next) : Inv (s.continueWith i next) := by
  have hempty : ∀ g : Handle ι O D, some (⟨none, none, .idle⟩ : Handle ι O D) = some g →
      g = ⟨none, none, .idle⟩ := fun g hg ↦ (Option.some.inj hg).symm
  have hread : ∀ j, next.source = some j → ∃ src, s.handles j = some src := fun j hj ↦ by
    obtain ⟨-, src, hsrc, -⟩ :=
      (hinv.fine i h hi).lent j (by rw [Handle.source, hphase]; exact hj)
    exact ⟨src, hsrc⟩
  cases next with
  | copyFrom other =>
    obtain ⟨src, hsrc⟩ := hread other rfl
    rw [State.continueWith, hsrc]
    by_cases hnull : src.pCb = none
    · simp only [hnull, if_true]
      exact hnull ▸ hinv.copy_empty hi hphase hsrc hnull
    · simp only [hnull, if_false]
      exact hinv.copy_pointers hi hphase hsrc hnull
  | moveFrom other =>
    obtain ⟨src, hsrc⟩ := hread other rfl
    rw [State.continueWith, hsrc]
    exact hinv.move hi hphase hsrc
  | clear => exact hinv.settle hi hphase rfl hempty
  | destroy => exact hinv.settle hi hphase rfl nofun
  | allocate pointer d => exact hinv.allocate hi hphase rfl
  | replace pointer d =>
    cases pointer with
    | none => exact hinv.settle hi hphase rfl hempty
    | some o => exact hinv.allocate hi hphase rfl

theorem Inv.go (hinv : Inv s) (hi : s.handles i = some h) {t : State ι O D}
    (hgo : s.go i h = some t) : Inv t := by
  cases hphase : h.phase with
  | idle | lent _ _ | taken _ => simp [State.go, hphase] at hgo
  | releasing next => exact hinv.release hi hphase hgo
  | deleting next => exact hinv.delete hi hphase hgo
  | freeing next => exact hinv.free hi hphase hgo
  | continuing next =>
    obtain rfl : s.continueWith i next = t := by simpa [State.go, hphase] using hgo
    exact hinv.continue hi hphase
  | addRef other => exact hinv.acquire hi hphase hgo

/-! ## The start of an operation -/

omit [DecidableEq ι] in
theorem Phase.eq_idle {phase : Phase ι O D} (hidle : phase.isIdle = true) : phase = .idle := by
  cases phase <;> simp [Phase.isIdle] at hidle
  rfl

omit [DecidableEq ι] in
theorem target_cases {op : Op ι O D} (htarget : s.target i op = some h) :
    (s.handles i = none ∧ h = ⟨none, none, .idle⟩) ∨ (s.handles i = some h ∧ h.phase = .idle) := by
  unfold State.target at htarget
  cases hi : s.handles i with
  | none =>
    simp only [hi] at htarget
    split at htarget
    · exact Or.inl ⟨rfl, (Option.some.inj htarget).symm⟩
    · cases htarget
  | some g =>
    simp only [hi] at htarget
    split at htarget
    · cases htarget
    · split at htarget
      · next hidle =>
        obtain rfl := Option.some.inj htarget
        exact Or.inr ⟨rfl, Phase.eq_idle hidle⟩
      · cases htarget

theorem Phase.lend_eq_some {next : Then ι O D} {phase phase' : Phase ι O D}
    (hlend : phase.lend i next = some phase') :
    phase.rests = true ∧ phase'.rests = true ∧ (∀ k, phase'.lentTo k ↔ k = i ∨ phase.lentTo k) ∧
      (∀ k, phase.lentTo k → phase' ≠ .taken k) ∧ (∀ k, phase ≠ .taken k) ∧
        ∀ j, next.source = some j → (phase' = .taken i ↔ next.takes = some j) := by
  unfold Phase.lend at hlend
  split at hlend
  · obtain rfl := Option.some.inj hlend
    refine ⟨rfl, rfl, fun k ↦ ?_, fun k ↦ nofun, fun k ↦ nofun,
      fun j _ ↦ iff_of_false nofun nofun⟩
    simp [Phase.lentTo]
  · obtain rfl := Option.some.inj hlend
    refine ⟨rfl, rfl, fun k ↦ ?_, fun k _ ↦ nofun, fun k ↦ nofun,
      fun j _ ↦ iff_of_false nofun nofun⟩
    rw [Phase.lentTo, Finset.mem_insert, Phase.lentTo]
  · obtain rfl := Option.some.inj hlend
    refine ⟨rfl, rfl, fun k ↦ ?_, fun k ↦ nofun, fun k ↦ nofun, fun j hj ↦ ?_⟩
    · simp [Phase.lentTo, eq_comm]
    · exact iff_of_true rfl hj
  · cases hlend

theorem lend_cases {next : Then ι O D} (hlend : s.lend i next = some s') :
    (next.source = none ∧ s' = s) ∨ ∃ j src phase, next.source = some j ∧ j ≠ i ∧
      s.handles j = some src ∧ src.phase.lend i next = some phase ∧
        s' = s.put j (some { src with phase := phase }) := by
  unfold State.lend at hlend
  cases hsource : next.source with
  | none => exact Or.inl ⟨rfl, by simpa [hsource, eq_comm] using hlend⟩
  | some j =>
    simp only [hsource] at hlend
    cases hj : s.handles j with
    | none => simp [hj] at hlend
    | some src =>
      simp only [hj] at hlend
      split at hlend
      · cases hlend
      next hji =>
        obtain ⟨phase, hphase, rfl⟩ := Option.map_eq_some_iff.mp hlend
        exact Or.inr ⟨j, src, phase, rfl, hji, hj, hphase, rfl⟩

/-- The handle that is read from is lent to this operation, and to all that read from it before. -/
theorem Inv.lend (hinv : Inv s) {next : Then ι O D} (hlend : s.lend i next = some s') :
    Inv s' ∧ s'.handles i = s.handles i ∧ s'.given = s.given ∧ s'.deleted = s.deleted ∧
      ∀ j, next.source = some j → j ≠ i ∧ ∃ src, s'.handles j = some src ∧ src.phase.lentTo i ∧
        (src.phase = .taken i ↔ next.takes = some j) := by
  rcases lend_cases hlend with ⟨hsource, rfl⟩ | ⟨j, src, phase, hsource, hji, hj, hphase, rfl⟩
  · refine ⟨hinv, rfl, rfl, rfl, fun j hj ↦ ?_⟩
    cases hsource.symm.trans hj
  · obtain ⟨hrests, hrests', hlent, hshared, hnot, htakes⟩ := Phase.lend_eq_some hphase
    refine ⟨hinv.rephase hj hrests hrests' (fun k g hk hg ↦ ?_) fun k g hk hg ↦ ?_,
      State.put_of_ne s (Ne.symm hji) _, rfl, rfl, fun j' hj' ↦ ?_⟩
    · exact (hlent k).mpr (Or.inr (hinv.fine.lentTo hk hg hj).2)
    · rw [← (hinv.fine k g hk).taken j src hg hj]
      exact iff_of_false (hshared k (hinv.fine.lentTo hk hg hj).2) (hnot k)
    · obtain rfl : j = j' := Option.some.inj (hsource.symm.trans hj')
      exact ⟨hji, _, State.put_self .., (hlent i).mpr (Or.inl rfl), htakes j hsource⟩

variable [DecidableEq O]

omit [DecidableEq ι] in
theorem give_handles {next : Then ι O D} (hgive : s.give next = some s') :
    s'.handles = s.handles := by
  unfold State.give at hgive
  split at hgive
  · exact (congrArg State.handles (Option.some.inj hgive)).symm
  · split at hgive
    · exact (congrArg State.handles (Option.some.inj hgive)).symm
    · cases hgive

/-- The object that is handed over is with the operation. -/
theorem Inv.give {next : Then ι O D} (hinv : Inv s) (hplace : s.place (.inl i) = none)
    (hgive : s.give next = some s') :
    s'.handles = s.handles ∧ s'.blocks = s.blocks ∧ Counted s' ∧
      Tokens s'.given (Function.update s.place (.inl i) next.token) s'.deleted := by
  unfold State.give at hgive
  cases htoken : next.token with
  | none =>
    obtain rfl : s = s' := by simpa [htoken] using hgive
    refine ⟨rfl, rfl, hinv.counted, ?_⟩
    rw [← hplace, Function.update_eq_self]
    exact hinv.tokens
  | some od =>
    obtain ⟨o, d⟩ := od
    simp only [htoken] at hgive
    cases ho : s.given o with
    | some e => simp [ho] at hgive
    | none =>
      obtain rfl : { s with given := Function.update s.given o (some d) } = s' := by
        simpa [ho] using hgive
      exact ⟨rfl, rfl, ⟨hinv.sound, hinv.counts, hinv.named⟩, hinv.tokens.give ho hplace⟩

theorem Inv.start (hinv : Inv s) {op : Op ι O D} (htarget : s.target i op = some h)
    {t : State ι O D} (hstart : s.start i op h = some t) : Inv t := by
  obtain ⟨s₁, hlend, hstart⟩ := Option.bind_eq_some_iff.mp hstart
  obtain ⟨s₂, hgive, rfl⟩ := Option.map_eq_some_iff.mp hstart
  have htarget := target_cases htarget
  have hidle : h.phase = .idle := by
    rcases htarget with ⟨-, rfl⟩ | ⟨-, hidle⟩
    · rfl
    · exact hidle
  have hunlent : ∀ h', s.handles i = some h' → h'.phase = .idle := fun h' hi ↦ by
    rcases htarget with ⟨hnone, -⟩ | ⟨hsome, hidle⟩
    · cases hnone.symm.trans hi
    · exact Option.some.inj (hsome.symm.trans hi) ▸ hidle
  obtain ⟨hinv₁, hi₁, -, -, hsource⟩ := hinv.lend hlend
  -- Before the operation the handle stands for its pointer and for nothing else.
  have hold : ∀ {β : Type} (f : Handle ι O D → Option β), f ⟨none, none, .idle⟩ = none →
      (s₁.handles i).bind f = f h := by
    intro β f hf
    rw [hi₁]
    rcases htarget with ⟨hnone, rfl⟩ | ⟨hsome, -⟩
    · rw [hnone, Option.bind_none, hf]
    · rw [hsome, Option.bind_some]
  have hholds : s₁.holds i = h.pCb := (hold _ rfl).trans (by rw [Handle.holds, hidle])
  have hending : s₁.ending i = none := (hold _ rfl).trans (by rw [Handle.ending, hidle])
  have hplace : s₁.place (.inl i) = none := by
    rw [State.place, hi₁]
    rcases htarget with ⟨hnone, -⟩ | ⟨hsome, hidle⟩
    · rw [hnone, Option.bind_none]
    · rw [hsome, Option.bind_some, Handle.token, hidle]
  obtain ⟨hhandles, hblocks, hcounted, htokens⟩ := hinv₁.give hplace hgive
  change Inv (s₂.put i (some (h.started op.next)))
  have hcounted' : Counted (s₂.put i (some (h.started op.next))) := by
    refine hcounted.put ?_ ?_
    · rw [Option.bind_some, Handle.holds_started, ← hholds, State.holds, State.holds, hhandles]
    · rw [Option.bind_some, Handle.ending_started, ← hending, State.ending, State.ending, hhandles]
  refine ⟨hcounted'.sound, hcounted'.counts, hcounted'.named, ?_, ?_⟩
  · have hplaced : s₂.place = s₁.place := by
      funext p
      cases p with
      | inl k => simp only [State.place, hhandles]
      | inr b => simp only [State.place, hblocks]
    rw [State.place_put, Option.bind_some, Handle.token_started, hplaced]
    exact htokens
  · have hhandles' : (s₂.put i (some (h.started op.next))).handles =
        Function.update s₁.handles i (some (h.started op.next)) := by
      rw [← hhandles]
      rfl
    refine hinv₁.fine.update hhandles' (fun k g' _ hk ↦ ?_) (fun k g' b cb _ _ _ hcb ↦ ?_)
      fun g' hg' ↦ ?_
    · refine hinv₁.fine.not_source hk fun h' hi' hlent ↦ ?_
      rw [hi₁] at hi'
      rw [hunlent h' hi'] at hlent
      exact hlent
    · exact ⟨cb, hblocks ▸ hcb, rfl⟩
    · obtain rfl := Option.some.inj hg'
      refine Handle.Fine.started hhandles' (fun b cb hb hcb ↦ ?_) hsource
      rcases htarget with ⟨-, rfl⟩ | ⟨hsome, -⟩
      · cases hb
      · refine (hinv₁.fine i h (hi₁.trans hsome)).object b cb ?_ (hblocks ▸ hcb)
        rw [Handle.holds, hidle, hb]

theorem Inv.step (hinv : Inv s) (e : Event ι O D) (t : State ι O D) (hst : step s e = some t) :
    Inv t := by
  cases e with
  | start i op =>
    obtain ⟨h, htarget, hst⟩ := Option.bind_eq_some_iff.mp hst
    split at hst
    · exact Option.some.inj hst ▸ hinv
    · exact hinv.start htarget hst
  | go i =>
    obtain ⟨h, hi, hst⟩ := Option.bind_eq_some_iff.mp hst
    exact hinv.go hi hst

theorem Inv.of_run {events : List (Event ι O D)}
    (hrun : exec SharedPtr.step SharedPtr.init events = some s) : Inv s :=
  exec_invariant (fun _ e t hinv hst ↦ hinv.step e t hst) Inv.init hrun

end SharedPtr

end FastInAHurry
