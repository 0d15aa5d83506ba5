import FastInAHurry.Handle.Cascade
import Mathlib.Tactic.FinCases

/-!
# Assignments when ownership is nested

An assignment first releases what `p` owns and then reads `q`. In between `q` may have been
destroyed, when it lies inside an object that only `p` kept. The handles that are still there after
the release are exactly the roots and those in objects that some root owns without the help of `p`,
so that the assignment is right if and only if `q` is one of these.

One direction follows the chain from the root: the control block of each object on it has a holder
left. The other direction goes up from `q`: its object is still there, so somebody other than `p`
holds it, and going up ends because the graph has no cycle.
-/

namespace FastInAHurry

namespace SharedPtr

namespace Nested

open RefCount Relation

variable {ι O D : Type} {g g' : Graph ι O D} {i p q : ι} {h : Pointers O} {o : O}

/-! ## Before and after -/

theorem outside_eq_some {L : Set ι} {b : ℕ} (hi : g.outside L i = some b) :
    i ∉ L ∧ ∃ h, g.handles i = some h ∧ h.pCb = some b := by
  rw [Graph.outside] at hi
  split at hi
  · cases hi
  · next hL => exact ⟨hL, Option.bind_eq_some_iff.mp hi⟩

theorem outside_of_notMem {L : Set ι} (hL : i ∉ L) (hh : g.handles i = some h) :
    g.outside L i = h.pCb := by
  rw [Graph.outside, if_neg hL, hh, Option.bind_some]

theorem holders_eq (g : Graph ι O D) (b : ℕ) :
    {i | ∃ h, g.handles i = some h ∧ h.pCb = some b} = {i | g.outside ∅ i = some b} := by
  ext i
  constructor
  · rintro ⟨h, hh, hcb⟩
    exact (outside_of_notMem (Set.notMem_empty i) hh).trans hcb
  · exact fun hi ↦ (outside_eq_some hi).2

/-- Before the release nobody has given up anything. -/
theorem Graph.WellFormed.running (hwf : g.WellFormed) : Running g ∅ (fun _ ↦ none) g := by
  have hzero : ∀ b, g.count b ≠ some 0 := by
    intro b hb
    obtain ⟨cb, hcb, hcount⟩ := Option.map_eq_some_iff.mp hb
    exact absurd (hwf.count_pos b cb hcb) (by omega)
  refine ⟨Shrinks.refl _ _ g, ⟨fun b n hn ↦ ?_, fun i b hi ↦ ?_, by simp,
    fun b hb ↦ absurd hb (hzero b), by simp⟩, by simp, fun b cb o hb _ ho m hm ↦ ?_,
    fun m o hm ↦ (hwf.member_alive m o hm).mp⟩
  · obtain ⟨cb, hb, rfl⟩ := Option.map_eq_some_iff.mp hn
    rw [← holders_eq]
    exact hwf.exact.count b cb hb
  · obtain ⟨-, h, hh, hcb⟩ := outside_eq_some hi
    obtain ⟨cb, hb, -⟩ := (hwf.exact.points i h hh).2 b hcb
    simp [Graph.count, hb]
  · exact (hwf.member_alive m o hm).mpr ⟨b, cb, hb, ho⟩

/-- When nobody is in the middle of anything, the counts are exact. -/
theorem Graph.WellFormed.exact_of_counts (hwf : g.WellFormed)
    (hcounts : Counts (g'.outside ∅) (fun _ ↦ none) g'.count)
    (hblocks : ∀ b cb', g'.blocks b = some cb' → ∃ cb, g.blocks b = some cb ∧ cb'.pObj = cb.pObj)
    (hhandles : ∀ i h, g'.handles i = some h → h = ⟨none, none⟩ ∨ ∃ j, g.handles j = some h) :
    g'.Exact := by
  refine ⟨fun b cb hb ↦ ?_, fun i h hh ↦ ?_⟩
  · rw [holders_eq]
    exact hcounts.exact b cb.mCount (by simp [Graph.count, hb])
  · rcases hhandles i h hh with rfl | ⟨j, hj⟩
    · simp
    · obtain ⟨hnull, hpoints⟩ := hwf.exact.points j h hj
      refine ⟨hnull, fun b hcb ↦ ?_⟩
      have hlive := hcounts.live i b ((outside_of_notMem (Set.notMem_empty i) hh).trans hcb)
      obtain ⟨cb', hb'⟩ : ∃ cb', g'.blocks b = some cb' := by
        rwa [Graph.count, Ne, Option.map_eq_none_iff, ← Ne, Option.ne_none_iff_exists'] at hlive
      obtain ⟨cb, hb, hobj⟩ := hblocks b cb' hb'
      obtain ⟨cb₁, hb₁, hobj₁⟩ := hpoints b hcb
      obtain rfl := Option.some.inj (hb.symm.trans hb₁)
      exact ⟨cb', hb', hobj.trans hobj₁⟩

/-! ## Which handles survive -/

section Survivors

variable (hwf : g.WellFormed) (hrun : Running g {p} (fun _ ↦ none) g')
include hwf hrun

/-- **Down from the roots.** -/
theorem alive_of_kept {Q : O → Prop} (hs : Shrinks ∅ Q g g') (hkept : g.Kept p i)
    (hi : g.handles i ≠ none) : g'.handles i ≠ none := by
  induction hkept with
  | root hroot =>
    intro hdead
    rcases hs.killed _ hi hdead with hnot | ⟨-, -, o, -, -, -, -, hmem, -⟩
    · exact hnot
    · exact hroot o hmem
  | @member i r o h hmem hr hne hh ho ih =>
    intro hdead
    have hh' : g'.handles r = some h := hs.kept hh (ih (by simp [hh]))
    obtain ⟨b, cb, hcb, hb, hobj⟩ := hwf.exact.block_of_pObj hh ho
    -- the handle above is alive, counts, and so keeps its control block
    have hlive := hrun.counts.live r b ((outside_of_notMem (by simpa using hne) hh').trans hcb)
    rcases hs.killed _ hi hdead with hnot | ⟨b', cb', o', hb', -, ho', -, hmem', hgone⟩
    · exact hnot
    · obtain rfl := hwf.members_unique i o o' hmem hmem'
      obtain rfl := hwf.object_unique b b' cb cb' o hb hb' hobj ho'
      exact hlive (by simp [Graph.count, hgone])

/-- **Up to the roots.** -/
theorem kept_of_alive (hi : g'.handles i ≠ none) : g.Kept p i := by
  by_cases hroot : ∀ o, i ∉ g.members o
  · exact Graph.Kept.root hroot
  · push Not at hroot
    obtain ⟨o, hmem⟩ := hroot
    induction o using hwf.wellFounded_up.induction generalizing i with
    | h o ih =>
      obtain ⟨b, cb, hb, ho⟩ := hrun.owned i o (hrun.shrinks.members ▸ hmem) hi
      have hn : g'.count b = some cb.mCount := by simp [Graph.count, hb]
      -- somebody else holds the object, since a count of zero would have ended it
      have hpos : {r | g'.outside {p} r = some b}.encard ≠ 0 := by
        rw [hrun.counts.exact b _ hn]
        intro hzero
        obtain ⟨r, hr⟩ := hrun.counts.zero_ending b (by rw [hn, Nat.cast_eq_zero.mp hzero])
        cases hr
      obtain ⟨r, hr⟩ := Set.encard_ne_zero.mp hpos
      obtain ⟨hne, h, hh, hcb⟩ := outside_eq_some hr
      have hobj : h.pObj = some o := (hrun.points hwf hh hcb hb).symm.trans ho
      have hh₀ := hrun.shrinks.handles r h hh
      refine Graph.Kept.member hmem ?_ (by simpa using hne) hh₀ hobj
      by_cases hroot : ∀ o, r ∉ g.members o
      · exact Graph.Kept.root hroot
      · push Not at hroot
        obtain ⟨o', hr'⟩ := hroot
        exact ih o' ⟨r, hr', h, hh₀, hobj⟩ (by simp [hh]) hr'

end Survivors

/-! ## The assignments -/

variable [DecidableEq ι]

/-- The release at the start of an assignment to `p`. -/
theorem exists_releaseOf (hwf : g.WellFormed) (hp : g.handles p = some h) :
    ∃ n, ∀ fuel ≥ n, ∃ g', releaseOf fuel g h.pCb = .ok g' ∧
      Running g {p} (fun _ ↦ none) g' ∧ g'.handles p = some h ∧
      ∀ i, g.handles i ≠ none → (g'.handles i ≠ none ↔ g.Kept p i) := by
  obtain ⟨n, hn⟩ := exists_releases hwf h.pObj
  refine ⟨n, fun fuel hfuel ↦ ?_⟩
  obtain ⟨g', hok, hrun, hs⟩ : ∃ g', releaseOf fuel g h.pCb = .ok g' ∧
      Running g {p} (fun _ ↦ none) g' ∧ Shrinks ∅ (g.Below h.pObj) g g' := by
    cases hcb : h.pCb with
    | none =>
      have hrun := hwf.running.idle hp hcb
      rw [insert_empty_eq] at hrun
      exact ⟨g, rfl, hrun, Shrinks.refl _ _ g⟩
    | some b =>
      obtain ⟨g', hok, hrun, hs⟩ := hn fuel hfuel g ∅ (fun _ ↦ none) p h b hwf.running hp hcb rfl
        (Set.notMem_empty p) (by simp)
      rw [insert_empty_eq] at hrun
      exact ⟨g', hok, hrun, hs⟩
  refine ⟨g', hok, hrun, hwf.running.survives hwf hp hs, fun i hi ↦ ?_⟩
  exact ⟨kept_of_alive hwf hrun, fun hkept ↦ alive_of_kept hwf hrun hs hkept hi⟩

/-- Nothing is used after its end, `p` owns what `q` owned before, and the counts are exact. -/
def Correct (g : Graph ι O D) (p q : ι) (r : Except Fault (Graph ι O D)) : Prop :=
  ∃ g', r = .ok g' ∧ g'.handles p = g.handles q ∧ g'.Exact

theorem outside_setHandle (g : Graph ι O D) (i : ι) (h : Pointers O) :
    (g.setHandle i (some h)).outside ∅ = Function.update (g.outside ∅) i h.pCb := by
  funext k
  rcases eq_or_ne k i with rfl | hne
  · rw [Function.update_self]
    exact outside_of_notMem (Set.notMem_empty k) (Function.update_self ..)
  · rw [Function.update_of_ne hne, Graph.outside, Graph.outside, if_neg (Set.notMem_empty k),
      if_neg (Set.notMem_empty k), handles_setHandle_of_ne hne]

/-- The write to `p`, which has given up its reference before. -/
theorem outside_write (g : Graph ι O D) (p : ι) (h : Pointers O) :
    (g.setHandle p (some h)).outside ∅ = Function.update (g.outside {p}) p h.pCb := by
  rw [outside_setHandle, ← insert_empty_eq p, outside_insert, Function.update_idem]

omit [DecidableEq ι] in
theorem outside_self (g : Graph ι O D) (p : ι) : g.outside {p} p = none := by
  rw [Graph.outside, if_pos (Set.mem_singleton p)]

theorem handles_of_write (hs : Shrinks Set.univ (fun _ ↦ True) g g') (hq : g.handles q = some h)
    (i : ι) (h' : Pointers O) (hi : (g'.setHandle p (some h)).handles i = some h') :
    ∃ j, g.handles j = some h' := by
  rcases handles_setHandle_cases hi with ⟨-, hwritten⟩ | ⟨-, hi⟩
  · exact ⟨q, hwritten ▸ hq⟩
  · exact ⟨i, hs.handles i h' hi⟩

/-- **The copy** from a handle that is still there. -/
theorem copy_exact (hwf : g.WellFormed) (hrun : Running g {p} (fun _ ↦ none) g') (hne : p ≠ q)
    (hq : g.handles q = some h) (hq' : g'.handles q = some h) :
    ∃ g'', addRef (g'.setHandle p (some h)) h.pCb = .ok g'' ∧ g''.handles p = some h ∧
      g''.Exact := by
  have hblocks : ∀ b cb', g'.blocks b = some cb' →
      ∃ cb, g.blocks b = some cb ∧ cb'.pObj = cb.pObj := fun b cb' hb' ↦ by
    obtain ⟨cb, hb, -, hobj⟩ := hrun.shrinks.blocks b cb' hb'
    exact ⟨cb, hb, hobj⟩
  have hhandles := handles_of_write (p := p) hrun.shrinks hq
  cases hcb : h.pCb with
  | none =>
    refine ⟨_, rfl, Function.update_self .., hwf.exact_of_counts ?_ hblocks
      fun i h' hi ↦ Or.inr (hhandles i h' hi)⟩
    rw [outside_write, hcb, Function.update_eq_self_iff.mpr (outside_self g' p).symm]
    exact hrun.counts
  | some b =>
    have hholds : g'.outside {p} q = some b :=
      (outside_of_notMem (by simpa using Ne.symm hne) hq').trans hcb
    obtain ⟨n, hn⟩ := hrun.counts.exists_succ hholds
    obtain ⟨cb, hb, hcount⟩ := Option.map_eq_some_iff.mp hn
    refine ⟨(g'.setHandle p (some h)).setBlock b (some { cb with mCount := cb.mCount + 1 }), ?_,
      Function.update_self .., hwf.exact_of_counts ?_ (fun b' cb' hb' ↦ ?_)
      fun i h' hi ↦ Or.inr (hhandles i h' hi)⟩
    · have hb' : (g'.setHandle p (some h)).blocks b = some cb := hb
      rw [addRef, block_eq hb']
      rfl
    · rw [outside_setBlock, outside_write, hcb, count_setBlock, Option.map_some, hcount]
      exact hrun.counts.take (outside_self g' p) hn
    · rcases blocks_setBlock_cases hb' with ⟨rfl, hcb'⟩ | ⟨-, hcb'⟩
      · obtain rfl := Option.some.inj hcb'
        exact hblocks b' cb hb
      · exact hblocks b' cb' hcb'

/-- **The move** from a handle that is still there. -/
theorem move_exact (hwf : g.WellFormed) (hrun : Running g {p} (fun _ ↦ none) g') (hne : p ≠ q)
    (hq : g.handles q = some h) (hq' : g'.handles q = some h) :
    ∃ g'', (g'.setHandle p (some h)).write q ⟨none, none⟩ = .ok g'' ∧ g''.handles p = some h ∧
      g''.Exact := by
  have hkept : (g'.setHandle p (some h)).handles q = some h :=
    (handles_setHandle_of_ne (Ne.symm hne) _).trans hq'
  refine ⟨_, write_eq hkept _, ?_, hwf.exact_of_counts ?_ (fun b cb' hb' ↦ ?_) fun i h' hi ↦ ?_⟩
  · exact (handles_setHandle_of_ne hne _).trans (Function.update_self ..)
  · have houtside : ((g'.setHandle p (some h)).setHandle q (some ⟨none, none⟩)).outside ∅ =
        Function.update (Function.update (g'.outside {p}) q none) p h.pCb := by
      rw [outside_setHandle, outside_write, Function.update_comm hne]
    have hholds : g'.outside {p} q = h.pCb := outside_of_notMem (by simpa using Ne.symm hne) hq'
    rw [houtside]
    cases hcb : h.pCb with
    | none =>
      rw [hcb] at hholds
      have hsame : Function.update (g'.outside {p}) q none = g'.outside {p} :=
        Function.update_eq_self_iff.mpr hholds.symm
      rw [hsame, Function.update_eq_self_iff.mpr (outside_self g' p).symm]
      exact hrun.counts
    | some b => exact hrun.counts.transfer (outside_self g' p) (hholds.trans hcb)
  · obtain ⟨cb, hb, -, hobj⟩ := hrun.shrinks.blocks b cb' hb'
    exact ⟨cb, hb, hobj⟩
  · rcases handles_setHandle_cases hi with ⟨-, hwritten⟩ | ⟨-, hi⟩
    · exact Or.inl (Option.some.inj hwritten).symm
    · exact Or.inr (handles_of_write hrun.shrinks hq i h' hi)

section Unfolding

variable {fuel : ℕ} {this other : Pointers O} (hne : p ≠ q) (hp : g.handles p = some this)
  (hok : releaseOf fuel g this.pCb = .ok g')
include hne hp hok

theorem assign_of_alive (hp' : g'.handles p = some this) (hq' : g'.handles q = some other) :
    copyAssign fuel g p q = addRef (g'.setHandle p (some other)) other.pCb ∧
      moveAssign fuel g p q = (g'.setHandle p (some other)).write q ⟨none, none⟩ := by
  refine ⟨?_, ?_⟩
  · rw [copyAssign, if_neg hne, handle_eq hp]
    simp only [bind, Except.bind, hok, handle_eq hq', write_eq hp']
  · rw [moveAssign, if_neg hne, handle_eq hp]
    simp only [bind, Except.bind, hok, handle_eq hq', write_eq hp']

theorem assign_of_dead (hq' : g'.handles q = none) :
    copyAssign fuel g p q = .error .deadHandle ∧ moveAssign fuel g p q = .error .deadHandle := by
  have hdead : g'.handle q = .error .deadHandle := by rw [Graph.handle, hq']
  refine ⟨?_, ?_⟩
  · rw [copyAssign, if_neg hne, handle_eq hp]
    simp only [bind, Except.bind, hok, hdead]
  · rw [moveAssign, if_neg hne, handle_eq hp]
    simp only [bind, Except.bind, hok, hdead]

end Unfolding

/-- **Assignments.** For every acyclic graph and all live handles, with enough fuel, an assignment
is right if and only if `q` is `p`, or a root, or in an object that a root owns without the help of
`p`; otherwise it reads `q` after its end. -/
theorem assign_correct_iff_kept (hwf : g.WellFormed) (hp : g.handles p ≠ none)
    (hq : g.handles q ≠ none) :
    ∃ n, ∀ fuel ≥ n,
      (Correct g p q (copyAssign fuel g p q) ↔ p = q ∨ g.Kept p q) ∧
      (Correct g p q (moveAssign fuel g p q) ↔ p = q ∨ g.Kept p q) ∧
      (¬(p = q ∨ g.Kept p q) → copyAssign fuel g p q = .error .deadHandle ∧
        moveAssign fuel g p q = .error .deadHandle) := by
  obtain ⟨this, hthis⟩ := Option.ne_none_iff_exists'.mp hp
  obtain ⟨other, hother⟩ := Option.ne_none_iff_exists'.mp hq
  obtain ⟨n, hn⟩ := exists_releaseOf hwf hthis
  refine ⟨n, fun fuel hfuel ↦ ?_⟩
  by_cases hself : p = q
  · have hcorrect : Correct g p q (.ok g) := ⟨g, rfl, congrArg g.handles hself, hwf.exact⟩
    rw [copyAssign, moveAssign, if_pos hself, if_pos hself]
    exact ⟨iff_of_true hcorrect (Or.inl hself), iff_of_true hcorrect (Or.inl hself),
      fun hnot ↦ absurd (Or.inl hself) hnot⟩
  obtain ⟨g', hok, hrun, hp', hsurvive⟩ := hn fuel hfuel
  by_cases hkept : g.Kept p q
  · have hq' : g'.handles q = some other :=
      hrun.shrinks.kept hother ((hsurvive q hq).mpr hkept)
    obtain ⟨hcopy, hmove⟩ := assign_of_alive hself hthis hok hp' hq'
    obtain ⟨g₁, hok₁, hp₁, hexact₁⟩ := copy_exact hwf hrun hself hother hq'
    obtain ⟨g₂, hok₂, hp₂, hexact₂⟩ := move_exact hwf hrun hself hother hq'
    refine ⟨iff_of_true ?_ (Or.inr hkept), iff_of_true ?_ (Or.inr hkept),
      fun hnot ↦ absurd (Or.inr hkept) hnot⟩
    · exact ⟨g₁, hcopy.trans hok₁, hp₁.trans hother.symm, hexact₁⟩
    · exact ⟨g₂, hmove.trans hok₂, hp₂.trans hother.symm, hexact₂⟩
  · have hq' : g'.handles q = none := by
      by_contra hne
      exact hkept ((hsurvive q hq).mp hne)
    obtain ⟨hcopy, hmove⟩ := assign_of_dead hself hthis hok hq'
    have hnot : ¬(p = q ∨ g.Kept p q) := not_or.mpr ⟨hself, hkept⟩
    refine ⟨iff_of_false ?_ hnot, iff_of_false ?_ hnot, fun _ ↦ ⟨hcopy, hmove⟩⟩
    · rintro ⟨g'', hok', -⟩
      cases hcopy.symm.trans hok'
    · rintro ⟨g'', hok', -⟩
      cases hmove.symm.trans hok'

/-! ## A list -/

/-- Two nodes with a handle each: the handle `0` is on the first node, whose member `1` is on the
second, whose member `2` is empty. The handle `3` may be on the first node as well. -/
def chain (shared : Bool) : Graph (Fin 4) Bool Unit where
  handles
    | 0 => some ⟨some false, some 0⟩
    | 1 => some ⟨some true, some 1⟩
    | 2 => some ⟨none, none⟩
    | 3 => some (if shared then ⟨some false, some 0⟩ else ⟨none, none⟩)
  blocks
    | 0 => some ⟨if shared then 2 else 1, some false, ()⟩
    | 1 => some ⟨1, some true, ()⟩
    | _ => none
  members
    | false => [1]
    | true => [2]

theorem chain_blocks {shared : Bool} {b : ℕ} {cb : ControlBlock Bool Unit}
    (hb : (chain shared).blocks b = some cb) :
    b = 0 ∧ cb = ⟨if shared then 2 else 1, some false, ()⟩ ∨ b = 1 ∧ cb = ⟨1, some true, ()⟩ := by
  match b with
  | 0 => exact Or.inl ⟨rfl, (Option.some.inj hb).symm⟩
  | 1 => exact Or.inr ⟨rfl, (Option.some.inj hb).symm⟩
  | b + 2 => cases hb

theorem chain_exact (shared : Bool) : (chain shared).Exact := by
  refine ⟨fun b cb hb ↦ ?_, fun i h hh ↦ ?_⟩
  · rcases chain_blocks hb with ⟨rfl, rfl⟩ | ⟨rfl, rfl⟩
    · cases shared with
      | false =>
        have hset : {i | ∃ h, (chain false).handles i = some h ∧ h.pCb = some 0} = {0} := by
          ext i
          fin_cases i <;> simp [chain]
        rw [hset, Set.encard_singleton]
        rfl
      | true =>
        have hset : {i | ∃ h, (chain true).handles i = some h ∧ h.pCb = some 0} = {0, 3} := by
          ext i
          fin_cases i <;> simp [chain]
        rw [hset, Set.encard_pair (by decide)]
        rfl
    · have hset : {i | ∃ h, (chain shared).handles i = some h ∧ h.pCb = some 1} = {1} := by
        ext i
        fin_cases i <;> cases shared <;> simp [chain]
      rw [hset, Set.encard_singleton]
      rfl
  · fin_cases i <;> cases shared <;> obtain rfl := Option.some.inj hh <;> simp [chain]

theorem chain_owns {shared : Bool} {o o' : Bool} (hown : (chain shared).Owns o o') :
    o = false ∧ o' = true := by
  obtain ⟨m, hm, h, hh, ho'⟩ := hown
  cases o with
  | false =>
    obtain rfl : m = 1 := List.mem_singleton.mp hm
    obtain rfl := Option.some.inj hh
    exact ⟨rfl, (Option.some.inj ho').symm⟩
  | true =>
    obtain rfl : m = 2 := List.mem_singleton.mp hm
    obtain rfl := Option.some.inj hh
    cases ho'

theorem chain_wellFormed (shared : Bool) : (chain shared).WellFormed where
  exact := chain_exact shared
  finite := by
    refine Set.Finite.subset (Set.toFinite {0, 1}) fun b hb ↦ ?_
    obtain ⟨cb, hcb⟩ := Option.ne_none_iff_exists'.mp hb
    rcases chain_blocks hcb with ⟨rfl, -⟩ | ⟨rfl, -⟩
    · simp
    · simp
  count_pos b cb hb := by
    rcases chain_blocks hb with ⟨-, rfl⟩ | ⟨-, rfl⟩
    · cases shared <;> simp
    · simp
  object_unique b b' cb cb' o hb hb' ho ho' := by
    rcases chain_blocks hb with ⟨rfl, rfl⟩ | ⟨rfl, rfl⟩ <;>
      rcases chain_blocks hb' with ⟨rfl, rfl⟩ | ⟨rfl, rfl⟩ <;> simp_all
  members_nodup o := by cases o <;> exact List.nodup_singleton _
  members_unique i o o' hi hi' := by
    cases o <;> cases o' <;> simp_all [chain]
  member_alive i o hi := by
    refine iff_of_true ?_ ?_
    · fin_cases i <;> cases shared <;> simp [chain]
    · cases o with
      | false => exact ⟨0, _, rfl, rfl⟩
      | true => exact ⟨1, _, rfl, rfl⟩
  acyclic o hcycle := by
    obtain ⟨o₁, hfirst, -⟩ := TransGen.head'_iff.mp hcycle
    obtain ⟨o₂, -, hlast⟩ := TransGen.tail'_iff.mp hcycle
    have hfalse := (chain_owns hfirst).1
    have htrue := (chain_owns hlast).2
    rw [hfalse] at htrue
    cases htrue

/-- While another handle is on the first node, a handle may step to the next node. -/
theorem assign_correct_iff_kept_shared :
    (chain true).WellFormed ∧ (chain true).handles 3 ≠ none ∧ (chain true).handles 1 ≠ none ∧
      (chain true).Kept 3 1 ∧ ∃ n, ∀ fuel ≥ n,
        Correct (chain true) 3 1 (copyAssign fuel (chain true) 3 1) ∧
        Correct (chain true) 3 1 (moveAssign fuel (chain true) 3 1) := by
  have hkept : (chain true).Kept 3 1 := by
    refine Graph.Kept.member (r := 0) (o := false) (h := ⟨some false, some 0⟩)
      (by decide) (Graph.Kept.root (by decide)) (by decide) rfl rfl
  obtain ⟨n, hn⟩ := assign_correct_iff_kept (chain_wellFormed true) (p := 3) (q := 1)
    (by decide) (by decide)
  refine ⟨chain_wellFormed true, by decide, by decide, hkept, n, fun fuel hfuel ↦ ?_⟩
  obtain ⟨hcopy, hmove, -⟩ := hn fuel hfuel
  exact ⟨hcopy.mpr (Or.inr hkept), hmove.mpr (Or.inr hkept)⟩

/-- `cur = cur->next` and `cur = std::move(cur->next)`, when `cur` is the only handle on its
node. -/
theorem assign_next_reads_dead :
    (chain false).WellFormed ∧ (chain false).handles 0 ≠ none ∧ (chain false).handles 1 ≠ none ∧
      ∀ fuel, ¬Correct (chain false) 0 1 (copyAssign fuel (chain false) 0 1) ∧
        ¬Correct (chain false) 0 1 (moveAssign fuel (chain false) 0 1) ∧
        copyAssign (fuel + 3) (chain false) 0 1 = .error .deadHandle ∧
        moveAssign (fuel + 3) (chain false) 0 1 = .error .deadHandle := by
  refine ⟨chain_wellFormed false, by decide, by decide, fun fuel ↦ ⟨?_, ?_, rfl, rfl⟩⟩
  · rintro ⟨g', hok, -⟩
    match fuel with
    | 0 => cases hok
    | 1 => cases hok
    | fuel + 2 => cases hok
  · rintro ⟨g', hok, -⟩
    match fuel with
    | 0 => cases hok
    | 1 => cases hok
    | fuel + 2 => cases hok

end Nested

end SharedPtr

end FastInAHurry
