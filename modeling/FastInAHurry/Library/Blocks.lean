import Mathlib.Data.List.Nodup
import Mathlib.Data.Set.Insert
import Mathlib.Logic.Function.Basic

/-!
# Raw memory and element lifetimes

A heap of blocks whose slots are raw or hold an element. Every element that is ever constructed gets
a number and every block a name, in order, so that "destroyed exactly once" and "freed exactly once"
are statements about lists of numbers.

Accesses outside a block or to a block that is gone have no result. Ending a lifetime without a
destructor, destroying or assigning to raw memory do have one in practice, and are recorded as a
misuse instead: as long as nothing is recorded, every element is in exactly one slot or was
destroyed exactly once.
-/

namespace Blocks

/-- What a program should not do to a slot or a block. -/
inductive Misuse where
  | constructLive
  | destroyRaw
  | assignRaw
  | freeLive
deriving DecidableEq, Repr

/-- A slot that is not raw holds the number of its element and its value. -/
structure Block (T : Type*) where
  cap : ℕ
  slots : ℕ → Option (ℕ × T)

structure Heap (T : Type*) where
  blocks : ℕ → Option (Block T)
  /-- The number of blocks allocated so far, and the name of the next one. -/
  allocated : ℕ
  freed : List ℕ
  /-- The number of elements constructed so far, and that of the next one. -/
  constructed : ℕ
  destroyed : List ℕ
  misuses : List Misuse

variable {T : Type*}

namespace Heap

def empty : Heap T where
  blocks := fun _ ↦ none
  allocated := 0
  freed := []
  constructed := 0
  destroyed := []
  misuses := []

/-- A new block of raw slots. -/
def alloc (h : Heap T) (cap : ℕ) : ℕ × Heap T :=
  (h.allocated, { h with
    blocks := Function.update h.blocks h.allocated (some ⟨cap, fun _ ↦ none⟩)
    allocated := h.allocated + 1 })

/-- Change one slot of a block. -/
def setSlot (h : Heap T) (b : ℕ) (B : Block T) (i : ℕ) (o : Option (ℕ × T)) : Heap T :=
  let B' : Block T := { B with slots := Function.update B.slots i o }
  { h with blocks := Function.update h.blocks b (some B') }

def record (h : Heap T) (bad : Bool) (m : Misuse) : Heap T :=
  { h with misuses := if bad then h.misuses ++ [m] else h.misuses }

/-- The block, if the index is inside it. -/
def locate (h : Heap T) (b i : ℕ) : Option (Block T) :=
  (h.blocks b).filter fun B ↦ decide (i < B.cap)

def constructAt (h : Heap T) (b i : ℕ) (x : T) : Option (Heap T) :=
  (h.locate b i).map fun B ↦
    { (h.setSlot b B i (some (h.constructed, x))).record (B.slots i).isSome .constructLive with
      constructed := h.constructed + 1 }

def destroyAt (h : Heap T) (b i : ℕ) : Option (Heap T) :=
  (h.locate b i).map fun B ↦
    match B.slots i with
    | none => h.record true .destroyRaw
    | some (k, _) => { h.setSlot b B i none with destroyed := h.destroyed ++ [k] }

/-- Assignment to an element; on raw memory it counts as a construction. -/
def assign (h : Heap T) (b i : ℕ) (x : T) : Option (Heap T) :=
  (h.locate b i).map fun B ↦
    match B.slots i with
    | none => { (h.setSlot b B i (some (h.constructed, x))).record true .assignRaw with
        constructed := h.constructed + 1 }
    | some (k, _) => h.setSlot b B i (some (k, x))

def read (h : Heap T) (b i : ℕ) : Option T :=
  (h.locate b i).bind fun B ↦ (B.slots i).map Prod.snd

def free (h : Heap T) (b : ℕ) : Option (Heap T) :=
  (h.blocks b).map fun B ↦
    { h.record ((List.range B.cap).any fun i ↦ (B.slots i).isSome) .freeLive with
      blocks := Function.update h.blocks b none
      freed := h.freed ++ [b] }

/-! ## Accounting -/

/-- The number of the element in a slot. -/
def idAt (h : Heap T) (b i : ℕ) : Option ℕ := (h.blocks b).bind fun B ↦ (B.slots i).map Prod.fst

/-- Every element is in exactly one slot or was destroyed exactly once. -/
structure ElementsOnce (h : Heap T) : Prop where
  nodup : h.destroyed.Nodup
  lt_iff : ∀ k, k < h.constructed ↔ k ∈ h.destroyed ∨ ∃ b i, h.idAt b i = some k
  alive : ∀ b i k, h.idAt b i = some k → k ∉ h.destroyed
  unique : ∀ b i b' i' k, h.idAt b i = some k → h.idAt b' i' = some k → b = b' ∧ i = i'

/-- Every block is there or was freed exactly once, and so for the elements, unless something was
misused. -/
structure Accounted (h : Heap T) : Prop where
  fresh : ∀ b, h.allocated ≤ b → h.blocks b = none
  inside : ∀ b B i, h.blocks b = some B → B.cap ≤ i → B.slots i = none
  freed_nodup : h.freed.Nodup
  mem_freed : ∀ b, b ∈ h.freed ↔ b < h.allocated ∧ h.blocks b = none
  elements : h.misuses = [] → h.ElementsOnce

theorem Accounted.empty : Accounted (empty : Heap T) where
  fresh _ _ := rfl
  inside _ _ _ h := by cases h
  freed_nodup := List.nodup_nil
  mem_freed b := by simp [Heap.empty]
  elements _ := by
    refine ⟨List.nodup_nil, ?_, ?_, ?_⟩ <;> simp [Heap.empty, idAt]

variable {h h' : Heap T} {b i : ℕ} {B : Block T}

theorem locate_eq_some : h.locate b i = some B ↔ h.blocks b = some B ∧ i < B.cap := by
  rw [locate, Option.filter_eq_some_iff, decide_eq_true_eq]

theorem idAt_setSlot (hb : h.blocks b = some B) (o : Option (ℕ × T)) (b' i' : ℕ) :
    (h.setSlot b B i o).idAt b' i' =
      if b' = b ∧ i' = i then o.map Prod.fst else h.idAt b' i' := by
  rcases eq_or_ne b' b with rfl | hne
  · rcases eq_or_ne i' i with rfl | hne'
    · simp [setSlot, idAt]
    · simp [setSlot, idAt, hb, hne']
  · simp [setSlot, idAt, hne]

/-- What a change of one slot has to take care of. -/
theorem Accounted.of_setSlot (hacc : Accounted h) (hb : h.blocks b = some B) (hi : i < B.cap)
    {o : Option (ℕ × T)} (hblocks : h'.blocks = (h.setSlot b B i o).blocks)
    (hallocated : h'.allocated = h.allocated) (hfreed : h'.freed = h.freed)
    (helements : h'.misuses = [] → ElementsOnce h') : Accounted h' := by
  have hother : ∀ b', b' ≠ b → h'.blocks b' = h.blocks b' := fun b' hne ↦ by
    rw [hblocks]
    exact Function.update_of_ne hne ..
  have hself : h'.blocks b = some { B with slots := Function.update B.slots i o } := by
    rw [hblocks]
    exact Function.update_self ..
  have hlt : b < h.allocated := by
    by_contra hge
    rw [hacc.fresh b (Nat.not_lt.mp hge)] at hb
    cases hb
  refine ⟨fun b' hge ↦ ?_, fun b' B' i' hb' hcap ↦ ?_, hfreed ▸ hacc.freed_nodup,
    fun b' ↦ ?_, helements⟩
  · rw [hallocated] at hge
    rw [hother b' (by omega)]
    exact hacc.fresh b' hge
  · rcases eq_or_ne b' b with rfl | hne
    · obtain rfl : _ = B' := Option.some.inj (hself.symm.trans hb')
      have hne' : i' ≠ i := fun heq ↦ absurd hi (Nat.not_lt.mpr (heq ▸ hcap))
      exact (Function.update_of_ne hne' ..).trans (hacc.inside _ _ _ hb hcap)
    · rw [hother b' hne] at hb'
      exact hacc.inside b' B' i' hb' hcap
  · rw [hfreed, hallocated, hacc.mem_freed b']
    rcases eq_or_ne b' b with rfl | hne
    · simp [hself, hb]
    · rw [hother b' hne]

theorem ElementsOnce.of_idAt_eq (he : ElementsOnce h) (hid : ∀ b i, h'.idAt b i = h.idAt b i)
    (hconstructed : h'.constructed = h.constructed) (hdestroyed : h'.destroyed = h.destroyed) :
    ElementsOnce h' where
  nodup := hdestroyed ▸ he.nodup
  lt_iff k := by
    simp only [hid, hconstructed, hdestroyed]
    exact he.lt_iff k
  alive b i k hk := by
    rw [hid] at hk
    exact hdestroyed ▸ he.alive b i k hk
  unique b i b' i' k hk hk' := by
    rw [hid] at hk hk'
    exact he.unique b i b' i' k hk hk'

/-- A new element gets the next number. -/
theorem ElementsOnce.of_construct (he : ElementsOnce h) (hraw : h.idAt b i = none)
    (hid : ∀ b' i', h'.idAt b' i' = if b' = b ∧ i' = i then some h.constructed else h.idAt b' i')
    (hconstructed : h'.constructed = h.constructed + 1)
    (hdestroyed : h'.destroyed = h.destroyed) : ElementsOnce h' := by
  have hold : ∀ b' i' k, h'.idAt b' i' = some k →
      (b' = b ∧ i' = i ∧ k = h.constructed) ∨ h.idAt b' i' = some k := by
    intro b' i' k hk
    rw [hid] at hk
    split at hk
    · next heq => exact Or.inl ⟨heq.1, heq.2, (Option.some.inj hk).symm⟩
    · exact Or.inr hk
  have hlt : ∀ b' i' k, h.idAt b' i' = some k → k < h.constructed := fun b' i' k hk ↦
    (he.lt_iff k).mpr (Or.inr ⟨b', i', hk⟩)
  have hnew : h'.idAt b i = some h.constructed := by rw [hid, if_pos ⟨rfl, rfl⟩]
  have hkept : ∀ b' i' k, h.idAt b' i' = some k → h'.idAt b' i' = some k := by
    intro b' i' k hk
    rw [hid, if_neg, hk]
    rintro ⟨rfl, rfl⟩
    cases hraw.symm.trans hk
  refine ⟨hdestroyed ▸ he.nodup, fun k ↦ ?_, fun b' i' k hk ↦ ?_, fun b' i' b'' i'' k hk hk' ↦ ?_⟩
  · rw [hconstructed, hdestroyed, Nat.lt_succ_iff_lt_or_eq, he.lt_iff k]
    constructor
    · rintro ((hdead | ⟨b', i', hk⟩) | rfl)
      · exact Or.inl hdead
      · exact Or.inr ⟨b', i', hkept b' i' k hk⟩
      · exact Or.inr ⟨b, i, hnew⟩
    · rintro (hdead | ⟨b', i', hk⟩)
      · exact Or.inl (Or.inl hdead)
      · rcases hold b' i' k hk with ⟨-, -, rfl⟩ | hk
        · exact Or.inr rfl
        · exact Or.inl (Or.inr ⟨b', i', hk⟩)
  · rw [hdestroyed]
    rcases hold b' i' k hk with ⟨-, -, rfl⟩ | hk
    · exact fun hdead ↦ absurd ((he.lt_iff _).mpr (Or.inl hdead)) (Nat.lt_irrefl _)
    · exact he.alive b' i' k hk
  · rcases hold b' i' k hk with ⟨rfl, rfl, rfl⟩ | hk
    · rcases hold b'' i'' _ hk' with ⟨rfl, rfl, -⟩ | hk'
      · exact ⟨rfl, rfl⟩
      · exact absurd (hlt _ _ _ hk') (Nat.lt_irrefl _)
    · rcases hold b'' i'' k hk' with ⟨-, -, rfl⟩ | hk'
      · exact absurd (hlt _ _ _ hk) (Nat.lt_irrefl _)
      · exact he.unique _ _ _ _ k hk hk'

/-- An element that is destroyed leaves its slot. -/
theorem ElementsOnce.of_destroy (he : ElementsOnce h) {k : ℕ} (hk : h.idAt b i = some k)
    (hid : ∀ b' i', h'.idAt b' i' = if b' = b ∧ i' = i then none else h.idAt b' i')
    (hconstructed : h'.constructed = h.constructed)
    (hdestroyed : h'.destroyed = h.destroyed ++ [k]) : ElementsOnce h' := by
  have hold : ∀ b' i' k', h'.idAt b' i' = some k' → h.idAt b' i' = some k' ∧ k' ≠ k := by
    intro b' i' k' hk'
    rw [hid] at hk'
    split at hk'
    · cases hk'
    · next hne =>
      refine ⟨hk', ?_⟩
      rintro rfl
      exact hne (he.unique _ _ _ _ k' hk' hk)
  refine ⟨?_, fun k' ↦ ?_, fun b' i' k' hk' ↦ ?_, fun b' i' b'' i'' k' hk' hk'' ↦ ?_⟩
  · rw [hdestroyed, List.nodup_append]
    refine ⟨he.nodup, List.nodup_singleton k, fun x hx y hy ↦ ?_⟩
    obtain rfl := List.mem_singleton.mp hy
    rintro rfl
    exact he.alive b i x hk hx
  · rw [hconstructed, hdestroyed, he.lt_iff k', List.mem_append, List.mem_singleton]
    constructor
    · rintro (hdead | ⟨b', i', hk'⟩)
      · exact Or.inl (Or.inl hdead)
      · by_cases heq : b' = b ∧ i' = i
        · obtain ⟨rfl, rfl⟩ := heq
          exact Or.inl (Or.inr (Option.some.inj (hk'.symm.trans hk)))
        · exact Or.inr ⟨b', i', by rw [hid, if_neg heq, hk']⟩
    · rintro ((hdead | rfl) | ⟨b', i', hk'⟩)
      · exact Or.inl hdead
      · exact Or.inr ⟨b, i, hk⟩
      · exact Or.inr ⟨b', i', (hold b' i' k' hk').1⟩
  · obtain ⟨hk', hne⟩ := hold b' i' k' hk'
    rw [hdestroyed, List.mem_append, List.mem_singleton]
    rintro (hdead | heq)
    · exact he.alive b' i' k' hk' hdead
    · exact hne heq
  · exact he.unique _ _ _ _ k' (hold _ _ _ hk').1 (hold _ _ _ hk'').1

theorem record_misuses_eq_nil {bad : Bool} {m : Misuse} :
    (h.record bad m).misuses = [] ↔ bad = false ∧ h.misuses = [] := by
  cases bad <;> simp [record]

theorem Accounted.alloc (hacc : Accounted h) (cap : ℕ) : Accounted (h.alloc cap).2 := by
  have hraw : ∀ b i, (h.alloc cap).2.idAt b i = h.idAt b i := by
    intro b i
    rcases eq_or_ne b h.allocated with rfl | hne
    · simp [Heap.alloc, idAt, hacc.fresh h.allocated (Nat.le_refl _)]
    · simp [Heap.alloc, idAt, hne]
  refine ⟨fun b hge ↦ ?_, fun b B i hb hcap ↦ ?_, hacc.freed_nodup, fun b ↦ ?_, fun hclean ↦ ?_⟩
  · have hge : h.allocated + 1 ≤ b := hge
    have hne : b ≠ h.allocated := by omega
    exact (Function.update_of_ne hne ..).trans (hacc.fresh b (by omega))
  · rcases eq_or_ne b h.allocated with rfl | hne
    · have hself : (h.alloc cap).2.blocks h.allocated = some ⟨cap, fun _ ↦ none⟩ :=
        Function.update_self ..
      obtain rfl := Option.some.inj (hself.symm.trans hb)
      rfl
    · exact hacc.inside b B i ((Function.update_of_ne hne ..).symm.trans hb) hcap
  · rw [show (h.alloc cap).2.freed = h.freed from rfl, hacc.mem_freed b]
    rcases eq_or_ne b h.allocated with rfl | hne
    · simp [Heap.alloc]
    · have hlt : b < h.allocated ↔ b < h.allocated + 1 := by omega
      simp [Heap.alloc, hne, hlt]
  · exact (hacc.elements hclean).of_idAt_eq hraw rfl rfl

theorem Accounted.constructAt {x : T} (hacc : Accounted h) (hstep : h.constructAt b i x = some h') :
    Accounted h' := by
  obtain ⟨B, hB, rfl⟩ := Option.map_eq_some_iff.mp hstep
  obtain ⟨hb, hi⟩ := locate_eq_some.mp hB
  refine hacc.of_setSlot hb hi (o := some (h.constructed, x)) rfl rfl rfl fun hclean ↦ ?_
  obtain ⟨hraw, hclean⟩ := record_misuses_eq_nil.mp hclean
  refine (hacc.elements hclean).of_construct (b := b) (i := i) ?_ ?_ rfl rfl
  · simp only [Option.isSome_eq_false_iff, Option.isNone_iff_eq_none] at hraw
    simp [idAt, hb, hraw]
  · exact idAt_setSlot hb _

theorem Accounted.destroyAt (hacc : Accounted h) (hstep : h.destroyAt b i = some h') :
    Accounted h' := by
  obtain ⟨B, hB, hh'⟩ := Option.map_eq_some_iff.mp hstep
  obtain ⟨hb, hi⟩ := locate_eq_some.mp hB
  split at hh'
  · subst hh'
    refine ⟨hacc.fresh, hacc.inside, hacc.freed_nodup, hacc.mem_freed, fun hclean ↦ ?_⟩
    exact absurd (record_misuses_eq_nil.mp hclean).1 (by decide)
  · next k x hslot =>
    subst hh'
    refine hacc.of_setSlot hb hi (o := none) rfl rfl rfl fun hclean ↦ ?_
    refine (hacc.elements hclean).of_destroy (b := b) (i := i) (k := k) ?_ ?_ rfl rfl
    · simp [idAt, hb, hslot]
    · exact idAt_setSlot hb _

theorem Accounted.assign {x : T} (hacc : Accounted h) (hstep : h.assign b i x = some h') :
    Accounted h' := by
  obtain ⟨B, hB, hh'⟩ := Option.map_eq_some_iff.mp hstep
  obtain ⟨hb, hi⟩ := locate_eq_some.mp hB
  split at hh'
  · subst hh'
    refine hacc.of_setSlot hb hi (o := some (h.constructed, x)) rfl rfl rfl fun hclean ↦ ?_
    have hrecord :
        ((h.setSlot b B i (some (h.constructed, x))).record true .assignRaw).misuses = [] := hclean
    exact absurd (record_misuses_eq_nil.mp hrecord).1 (by decide)
  · next k y hslot =>
    subst hh'
    refine hacc.of_setSlot hb hi (o := some (k, x)) rfl rfl rfl fun hclean ↦ ?_
    refine (hacc.elements hclean).of_idAt_eq (fun b' i' ↦ ?_) rfl rfl
    rw [idAt_setSlot hb]
    split
    · next heq =>
      obtain ⟨rfl, rfl⟩ := heq
      simp [idAt, hb, hslot]
    · rfl

theorem Accounted.free (hacc : Accounted h) (hstep : h.free b = some h') : Accounted h' := by
  obtain ⟨B, hb, rfl⟩ := Option.map_eq_some_iff.mp hstep
  have hlt : b < h.allocated := by
    by_contra hge
    rw [hacc.fresh b (Nat.not_lt.mp hge)] at hb
    cases hb
  have hlive : b ∉ h.freed := fun hmem ↦ by
    rw [((hacc.mem_freed b).mp hmem).2] at hb
    cases hb
  refine ⟨fun b' hge ↦ ?_, fun b' B' i hb' ↦ ?_, ?_, fun b' ↦ ?_, fun hclean ↦ ?_⟩
  · have hge : h.allocated ≤ b' := hge
    exact (Function.update_of_ne (by omega) ..).trans (hacc.fresh b' hge)
  · rcases eq_or_ne b' b with rfl | hne
    · cases (Function.update_self ..).symm.trans hb'
    · exact hacc.inside b' B' i ((Function.update_of_ne hne ..).symm.trans hb')
  · refine List.nodup_append.mpr ⟨hacc.freed_nodup, List.nodup_singleton b, fun x hx y hy ↦ ?_⟩
    obtain rfl := List.mem_singleton.mp hy
    rintro rfl
    exact hlive hx
  · rcases eq_or_ne b' b with rfl | hne
    · simpa [record] using hlt
    · simpa [hne, record] using hacc.mem_freed b'
  · obtain ⟨hraw, hclean⟩ := record_misuses_eq_nil.mp hclean
    refine (hacc.elements hclean).of_idAt_eq (fun b' i ↦ ?_) rfl rfl
    rcases eq_or_ne b' b with rfl | hne
    · have hslot : B.slots i = none := by
        rcases Nat.lt_or_ge i B.cap with hi | hi
        · have := List.any_eq_false.mp hraw i (List.mem_range.mpr hi)
          simpa using this
        · exact hacc.inside b' B i hb hi
      simp [idAt, hb, hslot]
    · simp [idAt, hne]

/-- When every block is gone every element was destroyed exactly once and every block freed exactly
once. -/
theorem Accounted.all_gone (hacc : Accounted h) (hclean : h.misuses = [])
    (hgone : ∀ b, h.blocks b = none) :
    h.destroyed.Nodup ∧ (∀ k, k ∈ h.destroyed ↔ k < h.constructed) ∧
      h.freed.Nodup ∧ (∀ b, b ∈ h.freed ↔ b < h.allocated) := by
  have he := hacc.elements hclean
  refine ⟨he.nodup, fun k ↦ ?_, hacc.freed_nodup, fun b ↦ ?_⟩
  · rw [he.lt_iff k]
    simp [idAt, hgone]
  · rw [hacc.mem_freed b, and_iff_left (hgone b)]

/-! ## What a block stores -/

/-- Block `b` has `cap` slots with the values `f`. -/
def Stores (h : Heap T) (b cap : ℕ) (f : ℕ → Option T) : Prop :=
  ∃ B, h.blocks b = some B ∧ B.cap = cap ∧ ∀ i, (B.slots i).map Prod.snd = f i

/-- Only the blocks of `S` differ between the two heaps. -/
structure Frame (S : Set ℕ) (h h' : Heap T) : Prop where
  others : ∀ b ∉ S, h'.blocks b = h.blocks b
  accounted : h.Accounted → h'.Accounted

theorem Frame.refl (S : Set ℕ) (h : Heap T) : Frame S h h := ⟨fun _ _ ↦ rfl, id⟩

theorem Frame.trans {S : Set ℕ} {h'' : Heap T} (h₁ : Frame S h h') (h₂ : Frame S h' h'') :
    Frame S h h'' where
  others b hb := (h₂.others b hb).trans (h₁.others b hb)
  accounted hacc := h₂.accounted (h₁.accounted hacc)

theorem Frame.mono {S S' : Set ℕ} (hf : Frame S h h') (hS : S ⊆ S') : Frame S' h h' where
  others b hb := hf.others b fun hmem ↦ hb (hS hmem)
  accounted := hf.accounted

theorem Stores.frame {S : Set ℕ} {cap : ℕ} {f : ℕ → Option T} (hs : h.Stores b cap f)
    (hf : Frame S h h') (hb : b ∉ S) : h'.Stores b cap f := by
  obtain ⟨B, hB, hrest⟩ := hs
  exact ⟨B, (hf.others b hb).trans hB, hrest⟩

variable {cap : ℕ} {f : ℕ → Option T}

theorem Stores.ne_none (hs : h.Stores b cap f) : h.blocks b ≠ none := by
  obtain ⟨B, hB, -⟩ := hs
  simp [hB]

theorem Stores.unique {f' : ℕ → Option T} {cap' : ℕ} (hs : h.Stores b cap f)
    (hs' : h.Stores b cap' f') : cap = cap' ∧ f = f' := by
  obtain ⟨B, hB, rfl, hf⟩ := hs
  obtain ⟨B', hB', rfl, hf'⟩ := hs'
  obtain rfl := Option.some.inj (hB.symm.trans hB')
  exact ⟨rfl, funext fun j ↦ (hf j).symm.trans (hf' j)⟩

theorem Stores.eq_none (hs : h.Stores b cap f) (hacc : h.Accounted) (hi : cap ≤ i) :
    f i = none := by
  obtain ⟨B, hB, rfl, hf⟩ := hs
  rw [← hf i, hacc.inside b B i hB hi, Option.map_none]

/-- There is no slot behind the last one. -/
theorem Stores.locate_eq_none (hs : h.Stores b cap f) (hi : cap ≤ i) : h.locate b i = none := by
  obtain ⟨B, hB, hcap, -⟩ := hs
  rw [locate, hB, Option.filter_some, if_neg (by simpa [hcap] using hi)]

/-- A slot of the block changes, with its new value. -/
theorem Stores.of_setSlot (hcap : B.cap = cap) (hf : ∀ i, (B.slots i).map Prod.snd = f i)
    {o : Option (ℕ × T)}
    (hblocks : h'.blocks = (h.setSlot b B i o).blocks) :
    h'.Stores b cap (Function.update f i (o.map Prod.snd)) := by
  refine ⟨{ B with slots := Function.update B.slots i o }, ?_, hcap, fun j ↦ ?_⟩
  · rw [hblocks]
    exact Function.update_self ..
  · rcases eq_or_ne j i with rfl | hne
    · simp
    · simpa [hne] using hf j

theorem others_of_setSlot {o : Option (ℕ × T)}
    (hblocks : h'.blocks = (h.setSlot b B i o).blocks) :
    ∀ b' ∉ ({b} : Set ℕ), h'.blocks b' = h.blocks b' := by
  intro b' hb'
  rw [hblocks]
  exact Function.update_of_ne hb' ..

theorem alloc_spec (h : Heap T) (cap : ℕ) :
    (h.alloc cap).2.Stores h.allocated cap (fun _ ↦ none) ∧
      Frame {h.allocated} h (h.alloc cap).2 ∧ (h.alloc cap).2.misuses = h.misuses := by
  refine ⟨⟨⟨cap, fun _ ↦ none⟩, Function.update_self .., rfl, fun _ ↦ rfl⟩,
    ⟨fun b hb ↦ ?_, ?_⟩, rfl⟩
  · exact Function.update_of_ne hb ..
  · exact fun hacc ↦ hacc.alloc cap

theorem constructAt_spec (hs : h.Stores b cap f) (hi : i < cap) (x : T) :
    ∃ h', h.constructAt b i x = some h' ∧ h'.Stores b cap (Function.update f i (some x)) ∧
      Frame {b} h h' ∧ (f i = none → h'.misuses = h.misuses) := by
  obtain ⟨B, hB, hcap, hf⟩ := hs
  have hloc : h.locate b i = some B := locate_eq_some.mpr ⟨hB, hcap ▸ hi⟩
  have hrun := congrArg (Option.map fun B : Block T ↦
    { (h.setSlot b B i (some (h.constructed, x))).record (B.slots i).isSome .constructLive with
      constructed := h.constructed + 1 }) hloc
  refine ⟨_, hrun, Stores.of_setSlot hcap hf rfl, ⟨others_of_setSlot rfl, ?_⟩, fun hraw ↦ ?_⟩
  · exact fun hacc ↦ hacc.constructAt hrun
  · have hslot : B.slots i = none := by simpa [hraw] using hf i
    simp [record, setSlot, hslot]

theorem destroyAt_spec {x : T} (hs : h.Stores b cap f) (hi : i < cap) (hx : f i = some x) :
    ∃ h', h.destroyAt b i = some h' ∧ h'.Stores b cap (Function.update f i none) ∧
      Frame {b} h h' ∧ h'.misuses = h.misuses := by
  obtain ⟨B, hB, hcap, hf⟩ := hs
  have hloc : h.locate b i = some B := locate_eq_some.mpr ⟨hB, hcap ▸ hi⟩
  obtain ⟨⟨k, y⟩, hslot, -⟩ := Option.map_eq_some_iff.mp ((hf i).trans hx)
  have hrun : h.destroyAt b i =
      some { h.setSlot b B i none with destroyed := h.destroyed ++ [k] } := by
    rw [destroyAt, hloc, Option.map_some, hslot]
  refine ⟨_, hrun, Stores.of_setSlot hcap hf rfl, ⟨others_of_setSlot rfl, ?_⟩, rfl⟩
  exact fun hacc ↦ hacc.destroyAt hrun

/-- An assignment to an element is no misuse, and one to raw memory is. -/
theorem assign_spec (hs : h.Stores b cap f) (hi : i < cap) (x : T) :
    ∃ h', h.assign b i x = some h' ∧ h'.Stores b cap (Function.update f i (some x)) ∧
      Frame {b} h h' ∧
      h'.misuses = if f i = none then h.misuses ++ [.assignRaw] else h.misuses := by
  obtain ⟨B, hB, hcap, hf⟩ := hs
  have hloc : h.locate b i = some B := locate_eq_some.mpr ⟨hB, hcap ▸ hi⟩
  cases hslot : B.slots i with
  | none =>
    have hrun : h.assign b i x =
        some { (h.setSlot b B i (some (h.constructed, x))).record true .assignRaw with
          constructed := h.constructed + 1 } := by
      rw [assign, hloc, Option.map_some, hslot]
    have hraw : f i = none := by rw [← hf i, hslot, Option.map_none]
    refine ⟨_, hrun, Stores.of_setSlot hcap hf rfl, ⟨others_of_setSlot rfl, ?_⟩, ?_⟩
    · exact fun hacc ↦ hacc.assign hrun
    · rw [if_pos hraw]
      rfl
  | some e =>
    have hrun : h.assign b i x = some (h.setSlot b B i (some (e.1, x))) := by
      rw [assign, hloc, Option.map_some, hslot]
    have hlive : ¬f i = none := by simp [← hf i, hslot]
    refine ⟨_, hrun, Stores.of_setSlot hcap hf rfl, ⟨others_of_setSlot rfl, ?_⟩, ?_⟩
    · exact fun hacc ↦ hacc.assign hrun
    · rw [if_neg hlive]
      rfl

theorem read_spec (hs : h.Stores b cap f) (hi : i < cap) : h.read b i = f i := by
  obtain ⟨B, hB, hcap, hf⟩ := hs
  rw [read, locate_eq_some.mpr ⟨hB, hcap ▸ hi⟩, Option.bind_some, hf i]

theorem free_spec (hs : h.Stores b cap f) :
    ∃ h', h.free b = some h' ∧ h'.blocks b = none ∧ Frame {b} h h' ∧
      ((∀ i, f i = none) → h'.misuses = h.misuses) ∧ h.misuses <+: h'.misuses := by
  obtain ⟨B, hB, hcap, hf⟩ := hs
  have hrun := congrArg (Option.map fun B : Block T ↦
    { h.record ((List.range B.cap).any fun i ↦ (B.slots i).isSome) .freeLive with
      blocks := Function.update h.blocks b none
      freed := h.freed ++ [b] }) hB
  refine ⟨_, hrun, Function.update_self .., ⟨fun b' hb' ↦ ?_, ?_⟩, fun hraw ↦ ?_, ?_⟩
  · exact Function.update_of_ne hb' ..
  · exact fun hacc ↦ hacc.free hrun
  · have hslot : ∀ i, B.slots i = none := fun i ↦ by simpa [hraw i] using hf i
    simp [record, hslot]
  · simp only [record]
    split
    · exact List.prefix_append _ _
    · exact List.prefix_refl _

end Heap

end Blocks
