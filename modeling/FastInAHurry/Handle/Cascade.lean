import FastInAHurry.Handle.Nested
import Mathlib.Order.WellFoundedSet

/-!
# What a release takes down

While a release runs, some handles have given up their reference and are still there: the one that
is assigned to, and one member of each object that is being destroyed. The invariant counts the
others.
A release of a handle leaves it among those that have given up theirs, and everything that it
destroys lies below its object; the order in which it goes is well founded because the graph has no
cycle, and the handles that have given up their references are never destroyed below themselves for
the same reason.
-/

namespace FastInAHurry

namespace SharedPtr

namespace Nested

open RefCount Relation

variable {ι O D : Type}

open Classical in
/-- The control block of a handle that still counts. -/
noncomputable def Graph.outside (g : Graph ι O D) (L : Set ι) (i : ι) : Option ℕ :=
  if i ∈ L then none else (g.handles i).bind Pointers.pCb

def Graph.count (g : Graph ι O D) (b : ℕ) : Option ℕ := (g.blocks b).map ControlBlock.mCount

/-- Handles and control blocks only go. Apart from the handles of `K` those that go are members of
objects in `Q`, whose control blocks go with them. -/
structure Shrinks (K : Set ι) (Q : O → Prop) (g g' : Graph ι O D) : Prop where
  members : g'.members = g.members
  handles : ∀ i h, g'.handles i = some h → g.handles i = some h
  blocks : ∀ b cb', g'.blocks b = some cb' →
    ∃ cb, g.blocks b = some cb ∧ cb'.mCount ≤ cb.mCount ∧ cb'.pObj = cb.pObj
  killed : ∀ i, g.handles i ≠ none → g'.handles i = none → i ∈ K ∨
    ∃ b cb o, g.blocks b = some cb ∧ cb.mCount ≠ 0 ∧ cb.pObj = some o ∧ Q o ∧ i ∈ g.members o ∧
      g'.blocks b = none

variable {g₀ g g' g'' : Graph ι O D} {K K' L : Set ι} {Q Q' : O → Prop} {ending : ι → Option ℕ}
  {i m : ι} {b : ℕ} {o : O} {h : Pointers O} {cb : ControlBlock O D}

theorem Shrinks.refl (K : Set ι) (Q : O → Prop) (g : Graph ι O D) : Shrinks K Q g g where
  members := rfl
  handles _ _ := id
  blocks _ cb hb := ⟨cb, hb, Nat.le_refl _, rfl⟩
  killed _ halive hdead := absurd hdead halive

theorem Shrinks.mono (hs : Shrinks K Q g g') (hK : K ⊆ K') (hQ : ∀ o, Q o → Q' o) :
    Shrinks K' Q' g g' where
  members := hs.members
  handles := hs.handles
  blocks := hs.blocks
  killed i halive hdead := by
    rcases hs.killed i halive hdead with hi | ⟨b, cb, o, hb, hcount, ho, hq, hi, hgone⟩
    · exact Or.inl (hK hi)
    · exact Or.inr ⟨b, cb, o, hb, hcount, ho, hQ o hq, hi, hgone⟩

theorem Shrinks.gone (hs : Shrinks K Q g g') (hb : g.blocks b = none) : g'.blocks b = none := by
  by_contra hne
  obtain ⟨cb', hcb'⟩ := Option.ne_none_iff_exists'.mp hne
  obtain ⟨cb, hcb, -⟩ := hs.blocks b cb' hcb'
  cases hb.symm.trans hcb

theorem Shrinks.dead (hs : Shrinks K Q g g') (hi : g.handles i = none) : g'.handles i = none := by
  by_contra hne
  obtain ⟨h, hh⟩ := Option.ne_none_iff_exists'.mp hne
  cases hi.symm.trans (hs.handles i h hh)

theorem Shrinks.kept (hs : Shrinks K Q g g') (hi : g.handles i = some h)
    (halive : g'.handles i ≠ none) : g'.handles i = some h := by
  obtain ⟨h', hh'⟩ := Option.ne_none_iff_exists'.mp halive
  obtain rfl := Option.some.inj (hi.symm.trans (hs.handles i h' hh'))
  exact hh'

theorem Shrinks.trans (h₁ : Shrinks K Q g g') (h₂ : Shrinks K Q g' g'') : Shrinks K Q g g'' := by
  refine ⟨h₂.members.trans h₁.members, fun i h hi ↦ h₁.handles i h (h₂.handles i h hi),
    fun b cb'' hb ↦ ?_, fun i halive hdead ↦ ?_⟩
  · obtain ⟨cb', hb', hle', hobj'⟩ := h₂.blocks b cb'' hb
    obtain ⟨cb, hb, hle, hobj⟩ := h₁.blocks b cb' hb'
    exact ⟨cb, hb, Nat.le_trans hle' hle, hobj'.trans hobj⟩
  · by_cases hmid : g'.handles i = none
    · rcases h₁.killed i halive hmid with hi | ⟨b, cb, o, hb, hcount, ho, hq, hi, hgone⟩
      · exact Or.inl hi
      · exact Or.inr ⟨b, cb, o, hb, hcount, ho, hq, hi, h₂.gone hgone⟩
    · rcases h₂.killed i hmid hdead with hi | ⟨b, cb', o, hb', hcount, ho, hq, hi, hgone⟩
      · exact Or.inl hi
      · obtain ⟨cb, hb, hle, hobj⟩ := h₁.blocks b cb' hb'
        refine Or.inr ⟨b, cb, o, hb, by omega, hobj.symm.trans ho, hq, ?_, hgone⟩
        rwa [← h₁.members]

/-- The state of a graph in the middle of a release, where the handles of `L` have given up their
references. -/
structure Running (g₀ : Graph ι O D) (L : Set ι) (ending : ι → Option ℕ) (g : Graph ι O D) :
    Prop where
  shrinks : Shrinks Set.univ (fun _ ↦ True) g₀ g
  counts : Counts (g.outside L) ending g.count
  ending_mem : ∀ i b, ending i = some b → i ∈ L
  /-- The members of an object are there until its count is zero. -/
  alive : ∀ b cb o, g.blocks b = some cb → cb.mCount ≠ 0 → cb.pObj = some o →
    ∀ m ∈ g.members o, g.handles m ≠ none
  /-- The control block of an object is there until its members are gone. -/
  owned : ∀ m o, m ∈ g.members o → g.handles m ≠ none → g.Managed o

theorem Running.points (hrun : Running g₀ L ending g) (hwf : g₀.WellFormed)
    (hi : g.handles i = some h) (hcb : h.pCb = some b) (hb : g.blocks b = some cb) :
    cb.pObj = h.pObj := by
  obtain ⟨cb₀, hb₀, -, hobj⟩ := hrun.shrinks.blocks b cb hb
  obtain ⟨cb₁, hb₁, hobj₁⟩ := (hwf.exact.points i h (hrun.shrinks.handles i h hi)).2 b hcb
  obtain rfl := Option.some.inj (hb₀.symm.trans hb₁)
  exact hobj.trans hobj₁

theorem Running.object_unique (hrun : Running g₀ L ending g) (hwf : g₀.WellFormed) {b' : ℕ}
    {cb' : ControlBlock O D} (hb : g.blocks b = some cb) (hb' : g.blocks b' = some cb')
    (ho : cb.pObj = some o) (ho' : cb'.pObj = some o) : b = b' := by
  obtain ⟨cb₀, hb₀, -, hobj⟩ := hrun.shrinks.blocks b cb hb
  obtain ⟨cb₀', hb₀', -, hobj'⟩ := hrun.shrinks.blocks b' cb' hb'
  exact hwf.object_unique b b' cb₀ cb₀' o hb₀ hb₀' (hobj.symm.trans ho) (hobj'.symm.trans ho')

theorem Running.ending_eq_none (hrun : Running g₀ L ending g) (hL : m ∉ L) : ending m = none := by
  by_contra hne
  obtain ⟨b, hb⟩ := Option.ne_none_iff_exists'.mp hne
  exact hL (hrun.ending_mem m b hb)

/-! ## Single steps -/

section Steps

variable [DecidableEq ι]

omit [DecidableEq ι] in
theorem blocks_setBlock_cases {b' : ℕ} {o : Option (ControlBlock O D)} {cb' : ControlBlock O D}
    (hb : (g.setBlock b o).blocks b' = some cb') :
    (b' = b ∧ o = some cb') ∨ (b' ≠ b ∧ g.blocks b' = some cb') :=
  update_eq_some_cases hb

omit [DecidableEq ι] in
theorem blocks_setBlock_of_ne {b' : ℕ} (hne : b' ≠ b) (o : Option (ControlBlock O D)) :
    (g.setBlock b o).blocks b' = g.blocks b' :=
  Function.update_of_ne hne ..

theorem handles_setHandle_cases {o : Option (Pointers O)}
    (hi : (g.setHandle m o).handles i = some h) :
    (i = m ∧ o = some h) ∨ (i ≠ m ∧ g.handles i = some h) :=
  update_eq_some_cases hi

theorem handles_setHandle_of_ne (hne : i ≠ m) (o : Option (Pointers O)) :
    (g.setHandle m o).handles i = g.handles i :=
  Function.update_of_ne hne ..

omit [DecidableEq ι] in
theorem outside_setBlock (g : Graph ι O D) (L : Set ι) (b : ℕ) (o : Option (ControlBlock O D)) :
    (g.setBlock b o).outside L = g.outside L := rfl

theorem outside_insert (g : Graph ι O D) (L : Set ι) (m : ι) :
    g.outside (insert m L) = Function.update (g.outside L) m none := by
  funext i
  rcases eq_or_ne i m with rfl | hne
  · simp [Graph.outside]
  · have hiff : i ∈ insert m L ↔ i ∈ L := by simp [hne]
    rw [Function.update_of_ne hne, Graph.outside, Graph.outside]
    split <;> split <;> simp_all

theorem outside_kill (g : Graph ι O D) (L : Set ι) (m : ι) :
    (g.setHandle m none).outside L = g.outside (insert m L) := by
  funext i
  rcases eq_or_ne i m with rfl | hne
  · simp [Graph.outside, Graph.setHandle]
  · have hiff : i ∈ insert m L ↔ i ∈ L := by simp [hne]
    rw [Graph.outside, Graph.outside, handles_setHandle_of_ne hne]
    split <;> split <;> simp_all

omit [DecidableEq ι] in
theorem count_setBlock (g : Graph ι O D) (b : ℕ) (o : Option (ControlBlock O D)) :
    (g.setBlock b o).count = Function.update g.count b (o.map ControlBlock.mCount) := by
  funext b'
  rcases eq_or_ne b' b with rfl | hne
  · simp [Graph.count, Graph.setBlock]
  · simp [Graph.count, Graph.setBlock, hne]

omit [DecidableEq ι] in
/-- Only the count of a control block drops. -/
theorem Shrinks.of_count (hb : g.blocks b = some cb) {n : ℕ} (hn : n ≤ cb.mCount) (K : Set ι)
    (Q : O → Prop) : Shrinks K Q g (g.setBlock b (some { cb with mCount := n })) := by
  refine ⟨rfl, fun _ _ ↦ id, fun b' cb' hb' ↦ ?_, fun i halive hdead ↦ absurd hdead halive⟩
  rcases blocks_setBlock_cases hb' with ⟨rfl, hcb⟩ | ⟨-, hcb⟩
  · obtain rfl := Option.some.inj hcb
    exact ⟨cb, hb, hn, rfl⟩
  · exact ⟨cb', hcb, Nat.le_refl _, rfl⟩

/-- `fetch_sub`. -/
theorem Running.drop (hrun : Running g₀ L ending g) (hm : g.handles m = some h)
    (hcb : h.pCb = some b) (hL : m ∉ L) :
    ∃ n cb, g.blocks b = some cb ∧ cb.mCount = n + 1 ∧
      Running g₀ (insert m L) (Function.update ending m (if n = 0 then some b else none))
        (g.setBlock b (some { cb with mCount := n })) := by
  have hend := hrun.ending_eq_none hL
  have hholds : g.outside L m = some b := by
    rw [Graph.outside, if_neg hL, hm, Option.bind_some, hcb]
  obtain ⟨n, hn⟩ := hrun.counts.exists_succ hholds
  obtain ⟨cb, hb, hcount⟩ := Option.map_eq_some_iff.mp hn
  refine ⟨n, cb, hb, hcount, ?_⟩
  have hdrop := hrun.counts.drop hholds hn hend
  refine ⟨hrun.shrinks.trans (Shrinks.of_count hb (by omega) _ _), ?_, fun i b' hi ↦ ?_,
    fun b' cb' o hb' hcount' ho k hk ↦ ?_, fun k o hk halive ↦ ?_⟩
  · rw [outside_setBlock, outside_insert, count_setBlock]
    exact hdrop
  · rcases eq_or_ne i m with rfl | hne
    · exact Set.mem_insert i L
    · rw [Function.update_of_ne hne] at hi
      exact Set.mem_insert_of_mem m (hrun.ending_mem i b' hi)
  · rcases blocks_setBlock_cases hb' with ⟨rfl, hcb'⟩ | ⟨-, hcb'⟩
    · obtain rfl := Option.some.inj hcb'
      exact hrun.alive b' cb o hb (by omega) ho k hk
    · exact hrun.alive b' cb' o hcb' hcount' ho k hk
  · obtain ⟨b', cb', hb', ho⟩ := hrun.owned k o hk halive
    rcases eq_or_ne b' b with rfl | hne
    · obtain rfl := Option.some.inj (hb.symm.trans hb')
      exact ⟨b', { cb with mCount := n }, Function.update_self .., ho⟩
    · exact ⟨b', cb', (blocks_setBlock_of_ne hne _).trans hb', ho⟩

/-- The end of a handle that has given up its reference, with its object. -/
theorem Running.kill (hrun : Running g₀ (insert m L) ending g)
    (hend : ∀ b, ending m ≠ some b)
    (hdead : ∀ b cb o, g.blocks b = some cb → cb.mCount ≠ 0 → cb.pObj = some o →
      m ∉ g.members o) : Running g₀ L ending (g.setHandle m none) := by
  refine ⟨⟨hrun.shrinks.members, fun i h hi ↦ ?_, hrun.shrinks.blocks,
    fun _ _ _ ↦ Or.inl (Set.mem_univ _)⟩, ?_, fun i b hi ↦ ?_, fun b cb o hb hcount ho k hk ↦ ?_,
    fun k o hk halive ↦ ?_⟩
  · rcases handles_setHandle_cases hi with ⟨-, hnone⟩ | ⟨-, hi⟩
    · cases hnone
    · exact hrun.shrinks.handles i h hi
  · rw [outside_kill]
    exact hrun.counts
  · rcases Set.mem_insert_iff.mp (hrun.ending_mem i b hi) with rfl | hL
    · exact absurd hi (hend b)
    · exact hL
  · have hne : k ≠ m := by
      rintro rfl
      exact hdead b cb o hb hcount ho hk
    rw [handles_setHandle_of_ne hne]
    exact hrun.alive b cb o hb hcount ho k hk
  · have hne : k ≠ m := by
      rintro rfl
      exact halive (Function.update_self ..)
    rw [handles_setHandle_of_ne hne] at halive
    exact hrun.owned k o hk halive

/-- The end of a control block whose object has no members left. -/
theorem Running.free (hrun : Running g₀ L (Function.update ending m (some b)) g)
    (hend : ending m = none) (hb : g.blocks b = some cb)
    (hdead : ∀ o, cb.pObj = some o → ∀ k ∈ g.members o, g.handles k = none) :
    Running g₀ L ending (g.setBlock b none) := by
  have hkept : ∀ b' cb', (g.setBlock b none).blocks b' = some cb' →
      b' ≠ b ∧ g.blocks b' = some cb' := by
    intro b' cb' hb'
    rcases blocks_setBlock_cases hb' with ⟨-, hnone⟩ | hkept
    · cases hnone
    · exact hkept
  refine ⟨⟨hrun.shrinks.members, hrun.shrinks.handles,
    fun b' cb' hb' ↦ hrun.shrinks.blocks b' cb' (hkept b' cb' hb').2,
    fun _ _ _ ↦ Or.inl (Set.mem_univ _)⟩, ?_, fun i b' hi ↦ ?_,
    fun b' cb' o hb' ↦ hrun.alive b' cb' o (hkept b' cb' hb').2, fun k o hk halive ↦ ?_⟩
  · have hfree := hrun.counts.free (i := m) (b := b) (Function.update_self ..)
    have hback : Function.update (Function.update ending m (some b)) m none = ending := by
      rw [Function.update_idem, ← hend, Function.update_eq_self]
    rw [hback] at hfree
    rw [outside_setBlock, count_setBlock]
    exact hfree
  · refine hrun.ending_mem i b' ?_
    rw [Function.update_of_ne, hi]
    rintro rfl
    cases hend.symm.trans hi
  · obtain ⟨b', cb', hb', ho⟩ := hrun.owned k o hk halive
    have hne : b' ≠ b := by
      rintro rfl
      obtain rfl := Option.some.inj (hb.symm.trans hb')
      exact halive (hdead o ho k hk)
    exact ⟨b', cb', (blocks_setBlock_of_ne hne _).trans hb', ho⟩

end Steps

/-! ## The order of destruction -/

theorem Graph.Exact.block_of_pObj (hexact : g₀.Exact) (hi : g₀.handles i = some h)
    (ho : h.pObj = some o) : ∃ b cb, h.pCb = some b ∧ g₀.blocks b = some cb ∧ cb.pObj = some o := by
  obtain ⟨hnull, hpoints⟩ := hexact.points i h hi
  obtain ⟨b, hb⟩ := Option.ne_none_iff_exists'.mp fun hcb ↦ by cases (hnull hcb).symm.trans ho
  obtain ⟨cb, hcb, hobj⟩ := hpoints b hb
  exact ⟨b, cb, hb, hcb, hobj.trans ho⟩

theorem Graph.WellFormed.managed_of_pObj (hwf : g₀.WellFormed) (hi : g₀.handles i = some h)
    (ho : h.pObj = some o) : g₀.Managed o := by
  obtain ⟨b, cb, -, hcb, hobj⟩ := hwf.exact.block_of_pObj hi ho
  exact ⟨b, cb, hcb, hobj⟩

theorem Graph.WellFormed.managed_of_owns (hwf : g₀.WellFormed) {o' : O} (hown : g₀.Owns o o') :
    g₀.Managed o ∧ g₀.Managed o' := by
  obtain ⟨m, hm, h, hh, ho'⟩ := hown
  exact ⟨(hwf.member_alive m o hm).mp (by simp [hh]), hwf.managed_of_pObj hh ho'⟩

theorem Graph.WellFormed.managed_finite (hwf : g₀.WellFormed) : {o | g₀.Managed o}.Finite := by
  have himage := hwf.finite.image fun b ↦ (g₀.blocks b).bind ControlBlock.pObj
  refine Set.Finite.of_injOn (f := some) (fun o ho ↦ ?_) (Option.some_injective O).injOn himage
  obtain ⟨b, cb, hb, hobj⟩ := ho
  exact ⟨b, by simp [hb], by simp [hb, hobj]⟩

theorem Graph.WellFormed.wellFounded_down (hwf : g₀.WellFormed) :
    WellFounded fun o' o ↦ g₀.Owns o o' := by
  refine wellFounded_of_acyclic hwf.managed_finite (fun o' o h ↦ (hwf.managed_of_owns h).2)
    fun o ho ↦ hwf.acyclic o ?_
  exact transGen_swap.mp ho

theorem Graph.WellFormed.wellFounded_up (hwf : g₀.WellFormed) : WellFounded g₀.Owns :=
  wellFounded_of_acyclic hwf.managed_finite (fun _ _ h ↦ (hwf.managed_of_owns h).1) hwf.acyclic

/-! ## The release -/

/-- The object of the handle is the given one, or owns it through others. -/
def Graph.Above (g : Graph ι O D) (l : ι) (o : O) : Prop :=
  ∃ h o', g.handles l = some h ∧ h.pObj = some o' ∧ ReflTransGen g.Owns o' o

/-- The objects that can go with the given one. -/
def Graph.Below (g : Graph ι O D) (po : Option O) (o' : O) : Prop :=
  ∃ o, po = some o ∧ ReflTransGen g.Owns o o'

theorem Graph.WellFormed.not_above_member (hwf : g₀.WellFormed) (hm : m ∈ g₀.members o) :
    ¬g₀.Above m o := by
  rintro ⟨h, o', hh, ho', hpath⟩
  exact hwf.acyclic o (TransGen.head' ⟨m, hm, h, hh, ho'⟩ hpath)

/-- A handle does not go with its own object. -/
theorem Running.survives (hrun : Running g₀ L ending g) (hwf : g₀.WellFormed)
    (hh : g.handles m = some h) (hs : Shrinks ∅ (g₀.Below h.pObj) g g') :
    g'.handles m = some h := by
  refine hs.kept hh fun hdead ↦ ?_
  rcases hs.killed m (by simp [hh]) hdead with hnot | ⟨b, cb, o, -, -, -, hbelow, hm, -⟩
  · exact hnot
  · obtain ⟨o', ho', hpath⟩ := hbelow
    rw [hrun.shrinks.members] at hm
    exact hwf.not_above_member hm ⟨h, o', hrun.shrinks.handles m h hh, ho', hpath⟩

variable [DecidableEq ι]

/-- What enough fuel gives for a handle on the object, in the middle of any release. -/
def Releases (g₀ : Graph ι O D) (n : ℕ) (po : Option O) : Prop :=
  ∀ fuel ≥ n, ∀ g L ending m h b, Running g₀ L ending g → g.handles m = some h →
    h.pCb = some b → h.pObj = po → m ∉ L → (∀ o, po = some o → ∀ l ∈ L, g₀.Above l o) →
    ∃ g', release fuel g b = .ok g' ∧ Running g₀ (insert m L) ending g' ∧
      Shrinks ∅ (g₀.Below po) g g'

theorem Releases.mono {n n' : ℕ} {po : Option O} (h : Releases g₀ n po) (hn : n ≤ n') :
    Releases g₀ n' po :=
  fun fuel hfuel ↦ h fuel (Nat.le_trans hn hfuel)

/-- A handle without a reference has nothing to give up. -/
theorem Running.idle (hrun : Running g₀ L ending g) (hh : g.handles m = some h)
    (hcb : h.pCb = none) : Running g₀ (insert m L) ending g := by
  have hnone : g.outside L m = none := by
    rw [Graph.outside]
    split
    · rfl
    · rw [hh, Option.bind_some, hcb]
  refine ⟨hrun.shrinks, ?_, fun i b hi ↦ Set.mem_insert_of_mem m (hrun.ending_mem i b hi),
    hrun.alive, hrun.owned⟩
  rw [outside_insert, ← hnone, Function.update_eq_self]
  exact hrun.counts

omit [DecidableEq ι] in
theorem handle_eq (hh : g.handles i = some h) : g.handle i = .ok h := by
  rw [Graph.handle, hh]

omit [DecidableEq ι] in
theorem block_eq (hb : g.blocks b = some cb) : g.block b = .ok cb := by
  rw [Graph.block, hb]

theorem write_eq (hh : g.handles i = some h) (h' : Pointers O) :
    g.write i h' = .ok (g.setHandle i (some h')) := by
  rw [Graph.write, handle_eq hh]
  rfl

theorem setHandle_setHandle (g : Graph ι O D) (i : ι) (o o' : Option (Pointers O)) :
    (g.setHandle i o).setHandle i o' = g.setHandle i o' := by
  rw [Graph.setHandle, Graph.setHandle, Graph.setHandle, Function.update_idem]

theorem destroyHandle_null {release : Graph ι O D → ℕ → Except Fault (Graph ι O D)}
    (hh : g.handles m = some h) (hcb : h.pCb = none) :
    g.destroyHandle release m = .ok (g.setHandle m none) := by
  rw [← setHandle_setHandle g m (some ⟨none, none⟩), Graph.destroyHandle, Graph.reset,
    handle_eq hh]
  simp only [bind, Except.bind, hcb, write_eq hh]
  rfl

theorem destroyHandle_release {release : Graph ι O D → ℕ → Except Fault (Graph ι O D)}
    (hh : g.handles m = some h) (hcb : h.pCb = some b) (hrel : release g b = .ok g')
    (hh' : g'.handles m = some h) :
    g.destroyHandle release m = .ok (g'.setHandle m none) := by
  rw [← setHandle_setHandle g' m (some ⟨none, none⟩), Graph.destroyHandle, Graph.reset,
    handle_eq hh]
  simp only [bind, Except.bind, hcb, hrel, write_eq hh']
  rfl

/-- The end of a handle as a change of the graph. -/
theorem Shrinks.kill (hs : Shrinks ∅ Q g g') (m : ι) : Shrinks {m} Q g (g'.setHandle m none) := by
  refine ⟨hs.members, fun i h hi ↦ ?_, hs.blocks, fun i halive hdead ↦ ?_⟩
  · rcases handles_setHandle_cases hi with ⟨-, hnone⟩ | ⟨-, hi⟩
    · cases hnone
    · exact hs.handles i h hi
  · rcases eq_or_ne i m with rfl | hne
    · exact Or.inl rfl
    · rw [handles_setHandle_of_ne hne] at hdead
      rcases hs.killed i halive hdead with hnot | hkilled
      · exact absurd hnot (Set.notMem_empty i)
      · exact Or.inr hkilled

/-- **One member.** It goes, and what goes with it lies further down. -/
theorem destroyHandle_ok (hwf : g₀.WellFormed) (hrun : Running g₀ L ending g)
    (hm : m ∈ g₀.members o) (hh : g.handles m = some h) (hL : ∀ l ∈ L, g₀.Above l o)
    (hzero : ∀ b cb, g.blocks b = some cb → cb.pObj = some o → cb.mCount = 0) {n fuel : ℕ}
    (hrel : Releases g₀ n h.pObj) (hfuel : n ≤ fuel) :
    ∃ g', g.destroyHandle (release fuel) m = .ok g' ∧ Running g₀ L ending g' ∧
      Shrinks {m} (TransGen g₀.Owns o) g g' ∧ g'.handles m = none := by
  have hh₀ := hrun.shrinks.handles m h hh
  have hmL : m ∉ L := fun hmem ↦ hwf.not_above_member hm (hL m hmem)
  have hend : ∀ b, ending m ≠ some b := fun b hb ↦ hmL (hrun.ending_mem m b hb)
  -- the object is being destroyed, so that its members are on their own
  have hloose : ∀ g' : Graph ι O D, Shrinks ∅ (TransGen g₀.Owns o) g g' →
      ∀ b cb o', g'.blocks b = some cb → cb.mCount ≠ 0 → cb.pObj = some o' →
        m ∉ g'.members o' := by
    intro g' hs b cb o' hb hcount ho' hm'
    rw [hs.members, hrun.shrinks.members] at hm'
    obtain rfl := hwf.members_unique m o o' hm hm'
    obtain ⟨cb₁, hb₁, hle, hobj⟩ := hs.blocks b cb hb
    have := hzero b cb₁ hb₁ (hobj.symm.trans ho')
    omega
  cases hcb : h.pCb with
  | none =>
    have hs := Shrinks.refl ∅ (TransGen g₀.Owns o) g
    exact ⟨_, destroyHandle_null hh hcb, (hrun.idle hh hcb).kill hend (hloose g hs), hs.kill m,
      Function.update_self ..⟩
  | some b =>
    obtain ⟨g₁, hrel₁, hrun₁, hs₁⟩ := hrel fuel hfuel g L ending m h b hrun hh hcb rfl hmL (by
      intro o' ho' l hl
      obtain ⟨hl', o_l, hhl, hol, hpath⟩ := hL l hl
      exact ⟨hl', o_l, hhl, hol, hpath.tail ⟨m, hm, h, hh₀, ho'⟩⟩)
    have hs : Shrinks ∅ (TransGen g₀.Owns o) g g₁ := by
      refine hs₁.mono subset_rfl fun o'' hbelow ↦ ?_
      obtain ⟨o', ho', hpath⟩ := hbelow
      exact TransGen.head' ⟨m, hm, h, hh₀, ho'⟩ hpath
    exact ⟨_, destroyHandle_release hh hcb hrel₁ (hrun.survives hwf hh hs₁),
      hrun₁.kill hend (hloose g₁ hs), hs.kill m, Function.update_self ..⟩

/-- **All members.** The later ones are there when their turn comes, because the earlier ones took
only what lies further down. -/
theorem destroyHandles_ok (hwf : g₀.WellFormed) {n fuel : ℕ} (hfuel : n ≤ fuel)
    (hL : ∀ l ∈ L, g₀.Above l o) (ms : List ι) (hnodup : ms.Nodup)
    (hms : ∀ m ∈ ms, m ∈ g₀.members o ∧ ∀ h, g₀.handles m = some h → Releases g₀ n h.pObj)
    (hrun : Running g₀ L ending g) (halive : ∀ m ∈ ms, g.handles m ≠ none)
    (hzero : ∀ b cb, g.blocks b = some cb → cb.pObj = some o → cb.mCount = 0) :
    ∃ g', g.destroyHandles (release fuel) ms = .ok g' ∧ Running g₀ L ending g' ∧
      Shrinks {m | m ∈ ms} (TransGen g₀.Owns o) g g' ∧ ∀ m ∈ ms, g'.handles m = none := by
  induction ms generalizing g with
  | nil => exact ⟨g, rfl, hrun, Shrinks.refl _ _ g, by simp⟩
  | cons m ms ih =>
    obtain ⟨hnot, hnodup⟩ := List.nodup_cons.mp hnodup
    obtain ⟨hm, hrel⟩ := hms m List.mem_cons_self
    obtain ⟨h, hh⟩ := Option.ne_none_iff_exists'.mp (halive m List.mem_cons_self)
    obtain ⟨g₁, hok₁, hrun₁, hs₁, hgone₁⟩ := destroyHandle_ok hwf hrun hm hh hL hzero
      (hrel h (hrun.shrinks.handles m h hh)) hfuel
    have halive₁ : ∀ k ∈ ms, g₁.handles k ≠ none := by
      intro k hk hdead
      have hko := (hms k (List.mem_cons_of_mem m hk)).1
      rcases hs₁.killed k (halive k (List.mem_cons_of_mem m hk)) hdead with
        rfl | ⟨b, cb, o', -, -, -, hpath, hk', -⟩
      · exact hnot hk
      · rw [hrun.shrinks.members] at hk'
        obtain rfl := hwf.members_unique k o o' hko hk'
        exact hwf.acyclic o hpath
    have hzero₁ : ∀ b cb, g₁.blocks b = some cb → cb.pObj = some o → cb.mCount = 0 := by
      intro b cb hb ho
      obtain ⟨cb₀, hb₀, hle, hobj⟩ := hs₁.blocks b cb hb
      have := hzero b cb₀ hb₀ (hobj.symm.trans ho)
      omega
    obtain ⟨g₂, hok₂, hrun₂, hs₂, hgone₂⟩ := ih hnodup
      (fun k hk ↦ hms k (List.mem_cons_of_mem m hk)) hrun₁ halive₁ hzero₁
    refine ⟨g₂, ?_, hrun₂, (hs₁.mono ?_ fun _ ↦ id).trans (hs₂.mono ?_ fun _ ↦ id), ?_⟩
    · rw [Graph.destroyHandles, hok₁]
      exact hok₂
    · exact Set.singleton_subset_iff.mpr List.mem_cons_self
    · exact fun k hk ↦ List.mem_cons_of_mem m hk
    · intro k hk
      rcases List.mem_cons.mp hk with rfl | hk
      · exact hs₂.dead hgone₁
      · exact hgone₂ k hk

/-- The deleter, if there is an object. -/
theorem destroyObject_ok (hwf : g₀.WellFormed) {n fuel : ℕ} (hfuel : n ≤ fuel) {po : Option O}
    (hmembers : ∀ o, po = some o → ∀ m ∈ g₀.members o, ∀ h, g₀.handles m = some h →
      Releases g₀ n h.pObj)
    (hL : ∀ o, po = some o → ∀ l ∈ L, g₀.Above l o) (hrun : Running g₀ L ending g)
    (halive : ∀ o, po = some o → ∀ m ∈ g.members o, g.handles m ≠ none)
    (hzero : ∀ o, po = some o → ∀ b cb, g.blocks b = some cb → cb.pObj = some o →
      cb.mCount = 0) :
    ∃ g', g.destroyObject (release fuel) po = .ok g' ∧ Running g₀ L ending g' ∧
      Shrinks {m | ∃ o, po = some o ∧ m ∈ g.members o} (g₀.Below po) g g' ∧
      ∀ o, po = some o → ∀ m ∈ g.members o, g'.handles m = none := by
  cases po with
  | none => exact ⟨g, rfl, hrun, Shrinks.refl _ _ g, by simp⟩
  | some o =>
    have hmem : g.members = g₀.members := hrun.shrinks.members
    obtain ⟨g', hok, hrun', hs, hgone⟩ := destroyHandles_ok hwf hfuel (hL o rfl) (g.members o)
      (hmem ▸ hwf.members_nodup o) (fun m hm ↦ ⟨hmem ▸ hm, hmembers o rfl m (hmem ▸ hm)⟩) hrun
      (halive o rfl) (hzero o rfl)
    refine ⟨g', hok, hrun', hs.mono (fun m hm ↦ ⟨o, rfl, hm⟩) fun o' ho' ↦ ?_, ?_⟩
    · exact ⟨o, rfl, ho'.to_reflTransGen⟩
    · rintro o' ho' m hm
      obtain rfl := Option.some.inj ho'
      exact hgone m hm

omit [DecidableEq ι] in
/-- The end of a control block whose members are gone accounts for them. -/
theorem Shrinks.free (hs : Shrinks {m | ∃ o, cb.pObj = some o ∧ m ∈ g.members o} Q g g')
    (hb : g.blocks b = some cb) (hcount : cb.mCount ≠ 0) (hQ : ∀ o, cb.pObj = some o → Q o) :
    Shrinks ∅ Q g (g'.setBlock b none) := by
  have hgone : ∀ b', g'.blocks b' = none → (g'.setBlock b none).blocks b' = none := by
    intro b' hb'
    rcases eq_or_ne b' b with rfl | hne
    · exact Function.update_self ..
    · exact (blocks_setBlock_of_ne hne none).trans hb'
  refine ⟨hs.members, hs.handles, fun b' cb' hb' ↦ ?_, fun i halive hdead ↦ ?_⟩
  · rcases blocks_setBlock_cases hb' with ⟨-, hnone⟩ | ⟨-, hkept⟩
    · cases hnone
    · exact hs.blocks b' cb' hkept
  · right
    rcases hs.killed i halive hdead with ⟨o, ho, hi⟩ | ⟨b', cb', o, hb', hcount', ho, hq, hi, hnone⟩
    · exact ⟨b, cb, o, hb, hcount, ho, hQ o ho, hi, Function.update_self ..⟩
    · exact ⟨b', cb', o, hb', hcount', ho, hq, hi, hgone b' hnone⟩

/-- **A release**, given enough fuel for the members of the object. -/
theorem Releases.of_members (hwf : g₀.WellFormed) {n : ℕ} {po : Option O}
    (hmembers : ∀ o, po = some o → ∀ m ∈ g₀.members o, ∀ h, g₀.handles m = some h →
      Releases g₀ n h.pObj) : Releases g₀ (n + 1) po := by
  intro fuel hfuel g L ending m h b hrun hh hcb hpo hmL hL
  obtain ⟨f, rfl⟩ := Nat.exists_eq_add_of_le' (Nat.le_trans (Nat.le_add_left 1 n) hfuel)
  have hend := hrun.ending_eq_none hmL
  obtain ⟨c, cb, hb, hcount, hrun₁⟩ := hrun.drop hh hcb hmL
  have hobj : cb.pObj = po := (hrun.points hwf hh hcb hb).trans hpo
  have hs₁ := Shrinks.of_count hb (show c ≤ cb.mCount by omega)
    {m | ∃ o, cb.pObj = some o ∧ m ∈ g.members o} (g₀.Below po)
  have hunfold : release (f + 1) g b =
      if c = 0 then do
        let g' ← (g.setBlock b (some { cb with mCount := c })).destroyObject (release f) cb.pObj
        g'.destroyBlock b
      else .ok (g.setBlock b (some { cb with mCount := c })) := by
    rw [release, block_eq hb]
    simp [bind, Except.bind, pure, Except.pure, hcount]
  rw [hunfold]
  by_cases hc : c = 0
  · subst hc
    rw [if_pos rfl] at hrun₁ ⊢
    have hL' : ∀ o, cb.pObj = some o → ∀ l ∈ insert m L, g₀.Above l o := by
      rintro o ho l (rfl | hl)
      · exact ⟨h, o, hrun.shrinks.handles l h hh, hpo.trans (hobj.symm.trans ho), .refl⟩
      · exact hL o (hobj.symm.trans ho) l hl
    obtain ⟨g₂, hok₂, hrun₂, hs₂, hgone₂⟩ := destroyObject_ok hwf (Nat.le_of_succ_le_succ hfuel)
      (fun o ho ↦ hmembers o (hobj.symm.trans ho)) hL' hrun₁
      (fun o ho ↦ hrun.alive b cb o hb (by omega) ho) (by
        intro o ho b' cb' hb' ho'
        obtain rfl := hrun₁.object_unique hwf (Function.update_self ..) hb' ho ho'
        rcases blocks_setBlock_cases hb' with ⟨-, hcb'⟩ | ⟨hne, -⟩
        · obtain rfl := Option.some.inj hcb'
          rfl
        · exact absurd rfl hne)
    obtain ⟨cb₂, hb₂, -⟩ := Option.map_eq_some_iff.mp
      (hrun₂.counts.ending_zero m b (Function.update_self ..))
    obtain ⟨cb₁, hb₁, -, hobj₂⟩ := hs₂.blocks b cb₂ hb₂
    obtain rfl : { cb with mCount := 0 } = cb₁ := by simpa [Graph.setBlock] using hb₁
    refine ⟨g₂.setBlock b none, ?_, hrun₂.free hend hb₂ ?_, ?_⟩
    · rw [hok₂]
      simp only [bind, Except.bind, Graph.destroyBlock, block_eq hb₂]
      rfl
    · intro o ho k hk
      rw [hs₂.members] at hk
      exact hgone₂ o (hobj₂.symm.trans ho) k hk
    · refine (hs₁.trans (hobj ▸ hs₂)).free hb (by omega) fun o ho ↦ ?_
      exact ⟨o, hobj.symm.trans ho, .refl⟩
  · rw [if_neg hc, ← hend, Function.update_eq_self] at hrun₁
    rw [if_neg hc]
    exact ⟨_, rfl, hrun₁, Shrinks.of_count hb (by omega) _ _⟩

theorem exists_releases_list (ms : List ι)
    (hms : ∀ m ∈ ms, ∀ h, g₀.handles m = some h → ∃ n, Releases g₀ n h.pObj) :
    ∃ n, ∀ m ∈ ms, ∀ h, g₀.handles m = some h → Releases g₀ n h.pObj := by
  induction ms with
  | nil => exact ⟨0, by simp⟩
  | cons m ms ih =>
    obtain ⟨n, hn⟩ := ih fun k hk ↦ hms k (List.mem_cons_of_mem m hk)
    cases hh : g₀.handles m with
    | none =>
      refine ⟨n, fun k hk h hk' ↦ ?_⟩
      rcases List.mem_cons.mp hk with rfl | hk
      · cases hh.symm.trans hk'
      · exact hn k hk h hk'
    | some h =>
      obtain ⟨n', hn'⟩ := hms m List.mem_cons_self h hh
      refine ⟨max n n', fun k hk h' hk' ↦ ?_⟩
      rcases List.mem_cons.mp hk with rfl | hk
      · obtain rfl := Option.some.inj (hh.symm.trans hk')
        exact hn'.mono (Nat.le_max_right n n')
      · exact (hn k hk h' hk').mono (Nat.le_max_left n n')

/-- **Every release ends**, and leaves the graph as it should. -/
theorem exists_releases (hwf : g₀.WellFormed) (po : Option O) : ∃ n, Releases g₀ n po := by
  have hnull : Releases g₀ 1 none := Releases.of_members hwf (by simp)
  cases po with
  | none => exact ⟨1, hnull⟩
  | some o =>
    induction o using hwf.wellFounded_down.induction with
    | h o ih =>
      obtain ⟨n, hn⟩ := exists_releases_list (g₀.members o) (by
        intro m hm h hh
        cases ho' : h.pObj with
        | none => exact ⟨1, hnull⟩
        | some o' => exact ih o' ⟨m, hm, h, hh, ho'⟩)
      refine ⟨n + 1, Releases.of_members hwf ?_⟩
      rintro o' ho'
      obtain rfl := Option.some.inj ho'
      exact hn

end Nested

end SharedPtr

end FastInAHurry
