import FastInAHurry.Handle.Counts

/-!
# Shared pointers between operations

While no operation is in progress the pointers of a handle say what it holds, nobody has a count of
zero to deal with, and every handle that was lent has been given back. The invariant of the steps
then reads as it should: counts are the numbers of handles, and an object has handles or was passed
to its deleter once.
-/

namespace FastInAHurry

namespace SharedPtr

open RefCount Runs

variable {ι O D : Type*} {s : State ι O D} {i : ι} {h : Handle ι O D}

/-- No operation is in progress. -/
def State.Quiet (s : State ι O D) : Prop := ∀ i h, s.handles i = some h → h.phase.rests = true

theorem State.Quiet.holds_eq (hq : s.Quiet) (hi : s.handles i = some h) : h.holds = h.pCb :=
  Handle.holds_of_rests (hq i h hi)

/-- The handles that point to a control block. -/
def State.pointing (s : State ι O D) (b : ℕ) : Set ι :=
  {i | ∃ h, s.handles i = some h ∧ h.pCb = some b}

theorem State.Quiet.pointing_eq (hq : s.Quiet) (b : ℕ) :
    s.pointing b = {i | s.holds i = some b} := by
  ext i
  constructor
  · rintro ⟨h, hi, hb⟩
    change s.holds i = some b
    rw [State.holds, hi, Option.bind_some, hq.holds_eq hi, hb]
  · intro hb
    obtain ⟨h, hi, hb⟩ := Option.bind_eq_some_iff.mp hb
    exact ⟨h, hi, (hq.holds_eq hi).symm.trans hb⟩

theorem Inv.encard_pointing (hinv : Inv s) (hq : s.Quiet) {b : ℕ} {cb : ControlBlock O D}
    (hb : s.blocks b = some cb) : (s.pointing b).encard = cb.mCount := by
  rw [hq.pointing_eq]
  exact hinv.counts.exact b cb.mCount (by rw [State.count, hb, Option.map_some])

/-- A control block that is there has a handle. -/
theorem Inv.exists_handle (hinv : Inv s) (hq : s.Quiet) {b : ℕ} {cb : ControlBlock O D}
    (hb : s.blocks b = some cb) : ∃ i h, s.handles i = some h ∧ h.pCb = some b := by
  have hpos : cb.mCount ≠ 0 := by
    intro hzero
    have hcount : s.count b = some 0 := by rw [State.count, hb, Option.map_some, hzero]
    obtain ⟨i, hi⟩ := hinv.counts.zero_ending b hcount
    obtain ⟨h, hi, hending⟩ := Option.bind_eq_some_iff.mp hi
    cases (Handle.ending_of_rests (hq i h hi)).symm.trans hending
  have hne : (s.pointing b).Nonempty := by
    rw [← Set.encard_ne_zero, hinv.encard_pointing hq hb]
    exact_mod_cast hpos
  exact hne

/-- A handle that is not empty points to a control block that holds its object. -/
theorem Inv.points (hinv : Inv s) (hq : s.Quiet) (hi : s.handles i = some h) :
    (h.pCb = none → h.pObj = none) ∧
      ∀ b, h.pCb = some b → ∃ cb, s.blocks b = some cb ∧ cb.pObj = h.pObj := by
  have hfine := hinv.fine i h hi
  refine ⟨?_, fun b hb ↦ ?_⟩
  · exact (Handle.shaped_of_rests (hq i h hi)).mp hfine.shaped
  · have hholds : h.holds = some b := (hq.holds_eq hi).trans hb
    obtain ⟨n, cb, hcb, -⟩ := hinv.counted.block_of_holds hi hholds
    exact ⟨cb, hcb, hfine.object b cb hholds hcb⟩

/-- The object of a handle is still there. -/
theorem Inv.place_of_pObj (hinv : Inv s) (hq : s.Quiet) (hi : s.handles i = some h) {o : O}
    (hobj : h.pObj = some o) : ∃ b d, s.place (.inr b) = some (o, d) := by
  obtain ⟨hnull, hpoints⟩ := hinv.points hq hi
  obtain ⟨b, hcb⟩ := Option.ne_none_iff_exists'.mp fun hcb ↦ by
    cases (hnull hcb).symm.trans hobj
  obtain ⟨cb, hb, hobj'⟩ := hpoints b hcb
  refine ⟨b, cb.deleter, ?_⟩
  rw [State.place, hb, Option.bind_some, ControlBlock.token, hobj', hobj, Option.map_some]

/-- An object that is somewhere is some handle's. -/
theorem Inv.exists_pObj (hinv : Inv s) (hq : s.Quiet) {p : ι ⊕ ℕ} {o : O} {d : D}
    (hp : s.place p = some (o, d)) : ∃ i h, s.handles i = some h ∧ h.pObj = some o := by
  cases p with
  | inl i =>
    obtain ⟨h, hi, htoken⟩ := Option.bind_eq_some_iff.mp hp
    cases (Handle.token_of_rests (hq i h hi)).symm.trans htoken
  | inr b =>
    obtain ⟨cb, hb, htoken⟩ := Option.bind_eq_some_iff.mp hp
    obtain ⟨o', hobj, heq⟩ := Option.map_eq_some_iff.mp htoken
    obtain ⟨rfl, -⟩ := Prod.mk.inj heq
    obtain ⟨i, h, hi, hcb⟩ := hinv.exists_handle hq hb
    obtain ⟨cb', hb', hobj'⟩ := (hinv.points hq hi).2 b hcb
    obtain rfl := Option.some.inj (hb.symm.trans hb')
    exact ⟨i, h, hi, hobj'.symm.trans hobj⟩

/-- An object has a handle, or its deleter was called once. -/
theorem Inv.object_once [DecidableEq O] (hinv : Inv s) (hq : s.Quiet) {o : O} {d : D}
    (ho : s.given o = some d) :
    ((∃ i h, s.handles i = some h ∧ h.pObj = some o) ∧ o ∉ s.deleted.map Prod.fst) ∨
      ((¬∃ i h, s.handles i = some h ∧ h.pObj = some o) ∧ (o, d) ∈ s.deleted ∧
        (s.deleted.map Prod.fst).count o = 1) := by
  rcases hinv.tokens.once ho with ⟨⟨p, hp⟩, hzero⟩ | ⟨hnone, hmem, hone⟩
  · exact Or.inl ⟨hinv.exists_pObj hq hp, List.count_eq_zero.mp hzero⟩
  · refine Or.inr ⟨?_, hmem, hone⟩
    rintro ⟨i, h, hi, hobj⟩
    obtain ⟨b, e, hplace⟩ := hinv.place_of_pObj hq hi hobj
    exact hnone _ e hplace

/-- A control block has a handle, or was freed once. -/
theorem Inv.block_once (hinv : Inv s) (hq : s.Quiet) {b : ℕ} (hb : b < s.allocated) :
    ((∃ i h, s.handles i = some h ∧ h.pCb = some b) ∧ s.blocks b ≠ none ∧ b ∉ s.freed) ∨
      ((¬∃ i h, s.handles i = some h ∧ h.pCb = some b) ∧ s.blocks b = none ∧
        s.freed.count b = 1) := by
  cases hcb : s.blocks b with
  | none =>
    refine Or.inr ⟨?_, rfl, List.count_eq_one_of_mem hinv.named.nodup ?_⟩
    · rintro ⟨i, h, hi, hpcb⟩
      obtain ⟨cb, hcb', -⟩ := (hinv.points hq hi).2 b hpcb
      cases hcb.symm.trans hcb'
    · exact (hinv.named.mem_iff b).mpr ⟨hb, not_not.mpr hcb⟩
  | some cb =>
    refine Or.inl ⟨hinv.exists_handle hq hcb, by simp, fun hfreed ↦ ?_⟩
    exact ((hinv.named.mem_iff b).mp hfreed).2 (by simp [hcb])

/-! ## Loans

A handle that is lent is not idle, and no operation can start on it. This ends with the operations
that it was lent to: while none is in progress, every handle is idle.
-/

/-- A handle is lent only to operations that read from it. -/
def Loans (s : State ι O D) : Prop :=
  ∀ j src k, s.handles j = some src → src.phase.lentTo k →
    ∃ g, s.handles k = some g ∧ g.source = some j

/-- A handle that is not idle is lent to somebody. -/
theorem Phase.idle_or_lentTo {phase : Phase ι O D} (hrests : phase.rests = true) :
    phase = .idle ∨ ∃ k, phase.lentTo k := by
  cases phase with
  | idle => exact Or.inl rfl
  | lent readers h => exact Or.inr h
  | taken mover => exact Or.inr ⟨mover, rfl⟩
  | _ => cases hrests

/-- Once every operation has ended, every handle is idle. -/
theorem Loans.idle (hl : Loans s) (hq : s.Quiet) (hi : s.handles i = some h) :
    h.phase = .idle := by
  rcases Phase.idle_or_lentTo (hq i h hi) with hidle | ⟨k, hlent⟩
  · exact hidle
  · obtain ⟨g, hk, hg⟩ := hl i h k hi hlent
    cases (Handle.source_of_rests (hq k g hk)).symm.trans hg

variable [DecidableEq ι] {s' : State ι O D} {j : ι} {src : Handle ι O D}

theorem Phase.lentTo_of_giveBack {phase : Phase ι O D} {k : ι} (hne : phase ≠ .taken i)
    (hk : (phase.giveBack i).lentTo k) : phase.lentTo k ∧ k ≠ i := by
  cases phase with
  | lent readers h =>
    rw [Phase.giveBack] at hk
    split at hk
    · exact (Finset.mem_erase.mp hk).symm
    · cases hk
  | taken mover =>
    refine ⟨hk, ?_⟩
    rintro rfl
    exact hne (congrArg Phase.taken hk)
  | _ => cases hk

/-- The handle `i` changes, and goes on reading from what it has read from. -/
theorem Loans.update (hl : Loans s) {o : Option (Handle ι O D)}
    (hhandles : s'.handles = Function.update s.handles i o)
    (ho : ∀ g k, o = some g → ¬g.phase.lentTo k)
    (hsource : ∀ h j, s.handles i = some h → h.source = some j →
      ∃ g, o = some g ∧ g.source = some j) : Loans s' := by
  intro j src k hj hlent
  rw [hhandles] at hj ⊢
  rcases update_eq_some_cases hj with ⟨-, hsrc⟩ | ⟨-, hj⟩
  · exact absurd hlent (ho src k hsrc)
  · obtain ⟨g, hk, hg⟩ := hl j src k hj hlent
    rcases eq_or_ne k i with rfl | hne
    · obtain ⟨g', rfl, hg'⟩ := hsource g j hk hg
      exact ⟨g', Function.update_self .., hg'⟩
    · exact ⟨g, by rw [Function.update_of_ne hne, hk], hg⟩

/-- The handle `j` is lent to `i` or is no longer, and `i` reads from it or does no longer. -/
theorem Loans.exchange (hl : Loans s) (hj : s.handles j = some src)
    (hrests : src.phase.rests = true) {o : Option (Handle ι O D)} {src' : Handle ι O D}
    (hhandles : s'.handles = Function.update (Function.update s.handles i o) j (some src'))
    (hother : ∀ h j', s.handles i = some h → h.source = some j' → j' = j)
    (ho : ∀ g k, o = some g → ¬g.phase.lentTo k)
    (hkeep : ∀ k, src'.phase.lentTo k → (k ≠ i ∧ src.phase.lentTo k) ∨
      (k = i ∧ k ≠ j ∧ ∃ g, o = some g ∧ g.source = some j)) : Loans s' := by
  -- nobody but `i` has changed what it reads from, and `j` reads from nothing
  have hreads : ∀ k g j', k ≠ i → s.handles k = some g → g.source = some j' →
      s'.handles k = some g := by
    intro k g j' hne hk hg
    have hkj : k ≠ j := by
      rintro rfl
      obtain rfl := Option.some.inj (hj.symm.trans hk)
      cases (Handle.source_of_rests hrests).symm.trans hg
    rw [hhandles, Function.update_of_ne hkj, Function.update_of_ne hne, hk]
  intro j' g' k hj' hlent
  rw [hhandles] at hj'
  rcases update_eq_some_cases hj' with ⟨rfl, heq⟩ | ⟨hne, hj'⟩
  · obtain rfl := Option.some.inj heq
    rcases hkeep k hlent with ⟨hki, hk⟩ | ⟨rfl, hkj, g, rfl, hg⟩
    · obtain ⟨g, hg, hsource⟩ := hl j' src k hj hk
      exact ⟨g, hreads k g j' hki hg hsource, hsource⟩
    · exact ⟨g, by rw [hhandles, Function.update_of_ne hkj, Function.update_self], hg⟩
  · rcases update_eq_some_cases hj' with ⟨-, rfl⟩ | ⟨-, hj'⟩
    · exact absurd hlent (ho g' k rfl)
    · obtain ⟨g, hg, hsource⟩ := hl j' g' k hj' hlent
      refine ⟨g, hreads k g j' ?_ hg hsource, hsource⟩
      rintro rfl
      exact hne (hother g j' hg hsource)

/-- The step of an operation that has nothing (more) to release. -/
theorem Loans.continue (hl : Loans s) (hinv : Inv s) (hi : s.handles i = some h)
    {next : Then ι O D} (hphase : h.phase = .continuing next) :
    Loans (s.continueWith i next) := by
  have hsource : h.source = next.source := by rw [Handle.source, hphase]
  have hself : ∀ h', s.handles i = some h' → h' = h := fun h' hi' ↦
    Option.some.inj (hi'.symm.trans hi)
  have hidle : ∀ (pObj : Option O) (pCb : Option ℕ) g k,
      some (⟨pObj, pCb, .idle⟩ : Handle ι O D) = some g → ¬g.phase.lentTo k := by
    intro pObj pCb g k hg
    obtain rfl := Option.some.inj hg
    exact id
  have hread : ∀ j, next.source = some j → ∃ src, s.handles j = some src ∧
      src.phase.lentTo i ∧ (src.phase = .taken i ↔ next.takes = some j) := fun j hj ↦ by
    obtain ⟨-, src, hsrc, hlent, -⟩ := (hinv.fine i h hi).lent j (hsource.trans hj)
    have htaken := (hinv.fine i h hi).taken j src (hsource.trans hj) hsrc
    rw [Handle.takes, hphase] at htaken
    exact ⟨src, hsrc, hlent, htaken⟩
  have hother : ∀ j, next.source = some j → ∀ h' j', s.handles i = some h' →
      h'.source = some j' → j' = j := fun j hj h' j' hi' hj' ↦ by
    rw [hself h' hi', hsource, hj] at hj'
    exact (Option.some.inj hj').symm
  have hnone : next.source = none → ∀ h' j (o : Option (Handle ι O D)), s.handles i = some h' →
      h'.source = some j → ∃ g, o = some g ∧ g.source = some j := fun hnext h' j o hi' hj ↦ by
    rw [hself h' hi', hsource, hnext] at hj
    cases hj
  cases next with
  | copyFrom j =>
    obtain ⟨src, hj, hlent, htaken⟩ := hread j rfl
    rw [State.continueWith, hj]
    by_cases hnull : src.pCb = none
    · simp only [hnull, if_true]
      refine hl.exchange hj (Phase.rests_of_lentTo hlent) rfl (hother j rfl) (hidle _ _)
        fun k hk ↦ ?_
      exact Or.inl (Phase.lentTo_of_giveBack (fun ht ↦ by cases htaken.mp ht) hk).symm
    · simp only [hnull, if_false]
      refine hl.update rfl (fun g k hg ↦ ?_) fun h' j' hi' hj' ↦ ⟨_, rfl, ?_⟩
      · obtain rfl := Option.some.inj hg
        exact id
      · rw [hother j rfl h' j' hi' hj', Handle.source]
  | moveFrom j =>
    obtain ⟨src, hj, hlent, -⟩ := hread j rfl
    rw [State.continueWith, hj]
    exact hl.exchange hj (Phase.rests_of_lentTo hlent) rfl (hother j rfl) (hidle _ _)
      fun k hk ↦ False.elim hk
  | clear => exact hl.update rfl (hidle _ _) fun h' j hi' hj ↦ hnone rfl h' j _ hi' hj
  | destroy =>
    refine hl.update rfl (fun g k hg ↦ ?_) fun h' j hi' hj ↦ hnone rfl h' j _ hi' hj
    cases hg
  | allocate pointer d =>
    exact hl.update rfl (hidle _ _) fun h' j hi' hj ↦ hnone rfl h' j _ hi' hj
  | replace pointer d =>
    cases pointer <;>
      exact hl.update rfl (hidle _ _) fun h' j hi' hj ↦ hnone rfl h' j _ hi' hj

theorem Loans.go (hl : Loans s) (hinv : Inv s) (hi : s.handles i = some h) {t : State ι O D}
    (hgo : s.go i h = some t) : Loans t := by
  have hself : ∀ h', s.handles i = some h' → h' = h := fun h' hi' ↦
    Option.some.inj (hi'.symm.trans hi)
  cases hphase : h.phase with
  | idle | lent _ _ | taken _ => simp [State.go, hphase] at hgo
  | releasing next =>
    obtain ⟨b, cb, n, hb, hcb, hcount⟩ := hinv.block_of_releasing hi hphase
    obtain rfl := Option.some.inj ((go_releasing hphase hb hcb hcount).symm.trans hgo)
    refine hl.update rfl (fun g k hg ↦ ?_) fun h' j hi' hj ↦ ⟨_, rfl, ?_⟩
    · obtain rfl := Option.some.inj hg
      by_cases hzero : n = 0 <;> simp [hzero, Phase.lentTo]
    · rw [hself h' hi', Handle.source, hphase] at hj
      by_cases hzero : n = 0 <;> simpa [hzero, Handle.source] using hj
  | deleting next =>
    obtain ⟨b, cb, hb, -, hcb⟩ := hinv.block_of_phase hi (Or.inl hphase)
    obtain rfl := Option.some.inj ((go_deleting hphase hb hcb).symm.trans hgo)
    refine hl.update rfl (fun g k hg ↦ ?_) fun h' j hi' hj ↦ ⟨_, rfl, ?_⟩
    · obtain rfl := Option.some.inj hg
      exact id
    · rw [hself h' hi', Handle.source, hphase] at hj
      exact hj
  | freeing next =>
    obtain ⟨b, cb, hb, -, hcb⟩ := hinv.block_of_phase hi (Or.inr hphase)
    obtain rfl := Option.some.inj ((go_freeing hphase hb hcb).symm.trans hgo)
    refine hl.update rfl (fun g k hg ↦ ?_) fun h' j hi' hj ↦ ⟨_, rfl, ?_⟩
    · obtain rfl := Option.some.inj hg
      exact id
    · rw [hself h' hi', Handle.source, hphase] at hj
      exact hj
  | continuing next =>
    obtain rfl : s.continueWith i next = t := by simpa [State.go, hphase] using hgo
    exact hl.continue hinv hi hphase
  | addRef j =>
    have hsource : h.source = some j := by rw [Handle.source, hphase]
    obtain ⟨hji, src, hj, hlent, -⟩ := (hinv.fine i h hi).lent j hsource
    have hshared : src.phase ≠ .taken i := by
      intro htaken
      have htakes := ((hinv.fine i h hi).taken j src hsource hj).mp htaken
      rw [Handle.takes, hphase] at htakes
      cases htakes
    obtain ⟨b, cb, hb, hcb⟩ := hinv.block_of_addRef hi hphase
    simp only [State.go, hphase, State.onBlock, hb, hcb, hj, Option.some.injEq] at hgo
    subst hgo
    refine hl.exchange hj (Phase.rests_of_lentTo hlent) rfl (fun h' j' hi' hj' ↦ ?_)
      (fun g k hg ↦ ?_) fun k hk ↦ Or.inl (Phase.lentTo_of_giveBack hshared hk).symm
    · rw [hself h' hi', hsource] at hj'
      exact (Option.some.inj hj').symm
    · obtain rfl := Option.some.inj hg
      exact id

theorem Loans.start [DecidableEq O] (hl : Loans s) {op : Op ι O D}
    (htarget : s.target i op = some h) {t : State ι O D} (hstart : s.start i op h = some t) :
    Loans t := by
  obtain ⟨s₁, hlend, hstart⟩ := Option.bind_eq_some_iff.mp hstart
  obtain ⟨s₂, hgive, rfl⟩ := Option.map_eq_some_iff.mp hstart
  change Loans (s₂.put i (some (h.started op.next)))
  have hnone : ∀ h' j, s.handles i = some h' → h'.source ≠ some j := by
    intro h' j hi hj
    rcases target_cases htarget with ⟨hnew, -⟩ | ⟨hold, hidle⟩
    · cases hnew.symm.trans hi
    · obtain rfl := Option.some.inj (hold.symm.trans hi)
      rw [Handle.source, hidle] at hj
      cases hj
  have hstarted : ∀ g k, some (h.started op.next) = some g → ¬g.phase.lentTo k := by
    intro g k hg
    obtain rfl := Option.some.inj hg
    rcases h.started_phase op.next with hphase | hphase <;> rw [hphase] <;> exact id
  rcases lend_cases hlend with ⟨-, rfl⟩ | ⟨j, src, phase, hsource, hji, hj, hphase, rfl⟩
  · refine hl.update (congrArg (Function.update · i _) (give_handles hgive)) hstarted
      fun h' j hi hj ↦ absurd hj (hnone h' j hi)
  · obtain ⟨hrests, -, hlent, -⟩ := Phase.lend_eq_some hphase
    have hhandles : (s₂.put i (some (h.started op.next))).handles = Function.update
        (Function.update s.handles i (some (h.started op.next))) j
          (some { src with phase := phase }) := by
      rw [Function.update_comm hji.symm]
      exact congrArg (Function.update · i _) (give_handles hgive)
    refine hl.exchange hj hrests hhandles (fun h' j' hi hj' ↦ absurd hj' (hnone h' j' hi)) hstarted
      fun k hk ↦ ?_
    rcases eq_or_ne k i with rfl | hne
    · exact Or.inr ⟨rfl, hji.symm, _, rfl, (h.source_started op.next).trans hsource⟩
    · exact Or.inl ⟨hne, ((hlent k).mp hk).resolve_left hne⟩

theorem Loans.step [DecidableEq O] (hl : Loans s) (hinv : Inv s) {e : Event ι O D}
    {t : State ι O D} (hst : step s e = some t) : Loans t := by
  cases e with
  | start i op =>
    obtain ⟨h, htarget, hst⟩ := Option.bind_eq_some_iff.mp hst
    split at hst
    · exact Option.some.inj hst ▸ hl
    · exact hl.start htarget hst
  | go i =>
    obtain ⟨h, hi, hst⟩ := Option.bind_eq_some_iff.mp hst
    exact hl.go hinv hi hst

theorem Loans.of_run [DecidableEq O] {events : List (Event ι O D)}
    (hrun : exec SharedPtr.step SharedPtr.init events = some s) : Loans s := by
  have hboth : Inv s ∧ Loans s := exec_invariant (P := fun s ↦ Inv s ∧ Loans s)
    (fun _ e t hs hst ↦ ⟨hs.1.step e t hst, hs.2.step hs.1 hst⟩) ⟨Inv.init, nofun⟩ hrun
  exact hboth.2

/-! ## Steps -/

/-- Only one step calls a deleter. -/
theorem go_deleted {t : State ι O D} (hgo : s.go i h = some t)
    (hphase : ∀ next, h.phase ≠ .deleting next) : t.deleted = s.deleted := by
  unfold State.go State.onBlock at hgo
  cases hp : h.phase with
  | deleting next => exact absurd hp (hphase next)
  | idle | lent _ _ | taken _ => simp [hp] at hgo
  | continuing next =>
    obtain rfl : s.continueWith i next = t := by simpa [hp] using hgo
    unfold State.continueWith
    repeat' split
    all_goals rfl
  | _ =>
    simp only [hp, Option.some.injEq] at hgo
    subst hgo
    repeat' split
    all_goals rfl

/-- A deleter is called by an operation whose handle was the last one. -/
theorem Inv.deletes_last (hinv : Inv s) (hi : s.handles i = some h) {t : State ι O D}
    (hgo : s.go i h = some t) {o : O} {d : D} (hdeleted : t.deleted = s.deleted ++ [(o, d)]) :
    s.given o = some d ∧ ∃ b, h.pCb = some b ∧ ∀ k, s.holds k ≠ some b := by
  obtain ⟨next, hphase⟩ : ∃ next, h.phase = .deleting next := by
    by_contra hnot
    rw [go_deleted hgo (fun next hnext ↦ hnot ⟨next, hnext⟩)] at hdeleted
    simp at hdeleted
  have hshaped : h.pCb ≠ none := by simpa [Handle.Shaped, hphase] using (hinv.fine i h hi).shaped
  obtain ⟨b, hb⟩ := Option.ne_none_iff_exists'.mp hshaped
  have hending : h.ending = some b := by rw [Handle.ending, hphase, hb]
  obtain ⟨cb, hcb, hcount⟩ := hinv.counted.block_of_ending hi hending
  have htoken : cb.token = some (o, d) := by
    have ht : t.deleted = s.deleted ++ cb.token.toList := by
      rw [State.go, hphase] at hgo
      simp only [State.onBlock, hb, hcb, Option.some.injEq] at hgo
      exact hgo ▸ rfl
    rw [ht, List.append_cancel_left_eq] at hdeleted
    cases htoken : cb.token with
    | none => simp [htoken] at hdeleted
    | some od => simpa [htoken] using hdeleted
  refine ⟨(hinv.tokens.given_iff o d).mpr (Or.inl ⟨.inr b, ?_⟩), b, hb, ?_⟩
  · rw [State.place, hcb, Option.bind_some, htoken]
  · exact hinv.counts.not_holds_of_zero (by rw [State.count, hcb, Option.map_some, hcount])

/-- An operation in progress can go on. -/
theorem go_ne_none (hrests : h.phase.rests = false) : s.go i h ≠ none := by
  unfold State.go
  cases hp : h.phase with
  | idle | lent _ _ | taken _ =>
    rw [hp] at hrests
    cases hrests
  | _ => simp

/-- **Counts are exact.** After any interleaving of operations nothing was done to a control block
or handle that is not there. While no operation is in progress every count is the number of handles
that point to the control block, every handle is free for the next operation and empty or points to
a control block that holds its object, an object has a handle or its deleter was called exactly
once, and a control block has a handle or was freed exactly once. A deleter is called, with the
object it was given for, when no handle holds the control block any more, and every operation in
progress can go on. -/
theorem counts_exact [DecidableEq O] (events : List (Event ι O D)) (s : State ι O D)
    (hrun : exec step init events = some s) :
    s.faulted = false ∧
    (s.Quiet →
      (∀ b cb, s.blocks b = some cb → (s.pointing b).encard = cb.mCount) ∧
      (∀ i h, s.handles i = some h → h.phase = .idle ∧ (h.pCb = none → h.pObj = none) ∧
        ∀ b, h.pCb = some b → ∃ cb, s.blocks b = some cb ∧ cb.pObj = h.pObj) ∧
      (∀ o d, s.given o = some d →
        ((∃ i h, s.handles i = some h ∧ h.pObj = some o) ∧ o ∉ s.deleted.map Prod.fst) ∨
        ((¬∃ i h, s.handles i = some h ∧ h.pObj = some o) ∧ (o, d) ∈ s.deleted ∧
          (s.deleted.map Prod.fst).count o = 1)) ∧
      (∀ b, b < s.allocated →
        ((∃ i h, s.handles i = some h ∧ h.pCb = some b) ∧ s.blocks b ≠ none ∧ b ∉ s.freed) ∨
        ((¬∃ i h, s.handles i = some h ∧ h.pCb = some b) ∧ s.blocks b = none ∧
          s.freed.count b = 1))) ∧
    (∀ i h, s.handles i = some h →
      (∀ t o d, s.go i h = some t → t.deleted = s.deleted ++ [(o, d)] →
        s.given o = some d ∧ ∃ b, h.pCb = some b ∧ ∀ k, s.holds k ≠ some b) ∧
      (h.phase.rests = false → s.go i h ≠ none)) := by
  have hinv := Inv.of_run hrun
  refine ⟨hinv.sound, fun hq ↦ ⟨fun b cb hb ↦ ?_, fun i h hi ↦ ?_, fun o d ho ↦ ?_, fun b hb ↦ ?_⟩,
    fun i h hi ↦ ⟨fun t o d hgo hdeleted ↦ ?_, go_ne_none⟩⟩
  · exact hinv.encard_pointing hq hb
  · exact ⟨(Loans.of_run hrun).idle hq hi, hinv.points hq hi⟩
  · exact hinv.object_once hq ho
  · exact hinv.block_once hq hb
  · exact hinv.deletes_last hi hgo hdeleted

/-- Two handles copy one at the same time, and then all three are destroyed at the same time. -/
theorem counts_exact_racing_copies :
    ∃ s : State (Fin 3) ℕ ℕ,
      exec step init [.start 0 (.construct (some 7) 1), .go 0, .start 1 (.copyConstruct 0),
        .start 2 (.copyConstruct 0), .go 1, .go 2, .go 2, .go 1, .start 0 .destruct,
        .start 1 .destruct, .start 2 .destruct, .go 1, .go 0, .go 2, .go 2, .go 1, .go 2, .go 0,
        .go 2] = some s ∧ s.Quiet ∧ (s.deleted.map Prod.fst).count 7 = 1 := by
  have hmap : ((exec step init [.start 0 (.construct (some 7) 1), .go 0,
      .start 1 (.copyConstruct 0), .start 2 (.copyConstruct 0), .go 1, .go 2, .go 2, .go 1,
      .start 0 .destruct, .start 1 .destruct, .start 2 .destruct, .go 1, .go 0, .go 2, .go 2, .go 1,
      .go 2, .go 0, .go 2] : Option (State (Fin 3) ℕ ℕ)).map fun s ↦
        (decide (∀ i, (s.handles i).isNone), s.given 7)) = some (true, some 1) := by
    decide +kernel
  obtain ⟨s, hrun, hs⟩ := Option.map_eq_some_iff.mp hmap
  obtain ⟨hgone, hgiven⟩ := Prod.mk.inj hs
  have hnone : ∀ i, s.handles i = none := fun i ↦
    Option.isNone_iff_eq_none.mp (of_decide_eq_true hgone i)
  have hquiet : s.Quiet := fun i h hi ↦ by cases (hnone i).symm.trans hi
  refine ⟨s, hrun, hquiet, ?_⟩
  obtain ⟨-, hexact, -⟩ := counts_exact _ s hrun
  rcases (hexact hquiet).2.2.1 7 1 hgiven with ⟨⟨i, h, hi, -⟩, -⟩ | ⟨-, -, honce⟩
  · cases (hnone i).symm.trans hi
  · exact honce

end SharedPtr

end FastInAHurry
