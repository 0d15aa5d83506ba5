import FastInAHurry.Vector.Vector
import Mathlib.Data.List.Induction

/-!
# What each operation does to its vector

A vector holds a list when it is unallocated and the list is empty, or when its three pointers are
the start, the size and the capacity of a block of its own whose first slots hold the list. It is
tight when the slots behind them are raw. Every operation takes a vector that holds a list to one
that holds the expected list, touches no other block, and gives back the block it no longer uses; on
a tight vector it constructs in raw slots only and destroys constructed elements only.
-/

namespace FastInAHurry

open Blocks Heap

namespace Vector

variable {T : Type} {h h' : Heap T} {b b' cap cap' : ℕ} {f g : ℕ → Option T}

theorem defined_eq_ok {α : Type} {o : Option α} {a : α} (ho : o = some a) :
    defined o = .ok a := by
  rw [ho]
  rfl

theorem ok_bind {α β : Type} (a : α) (k : α → Except Fault β) : (Except.ok a >>= k) = k a := rfl

theorem pure_eq_ok {α : Type} (a : α) : (pure a : Except Fault α) = .ok a := rfl

/-! ## Loops -/

/-- The slots of a block with those from `i` to `i + n` emptied. -/
def emptied (f : ℕ → Option T) (i n : ℕ) : ℕ → Option T :=
  fun j ↦ if i ≤ j ∧ j < i + n then none else f j

theorem destroyN_spec {n i : ℕ} (hs : h.Stores b cap f) (hcap : i + n ≤ cap)
    (hlive : ∀ j, i ≤ j → j < i + n → ∃ x, f j = some x) :
    ∃ h', destroyN h (some ⟨b, i⟩) n = .ok h' ∧ h'.Stores b cap (emptied f i n) ∧
      Frame {b} h h' ∧ h'.misuses = h.misuses := by
  induction n generalizing h f i with
  | zero =>
    have hsame : emptied f i 0 = f := by
      funext j
      exact if_neg (by omega)
    exact ⟨h, rfl, hsame.symm ▸ hs, Frame.refl _ _, rfl⟩
  | succ n ih =>
    obtain ⟨x, hx⟩ := hlive i (Nat.le_refl i) (by omega)
    obtain ⟨h₁, hrun, hs₁, hframe₁, hmis₁⟩ := destroyAt_spec hs (by omega) hx
    obtain ⟨h₂, hrun₂, hs₂, hframe₂, hmis₂⟩ := ih hs₁ (i := i + 1) (by omega) fun j hij hj ↦ by
      obtain ⟨y, hy⟩ := hlive j (by omega) (by omega)
      exact ⟨y, by rw [Function.update_of_ne (by omega), hy]⟩
    have hstep : destroyAt h (some ⟨b, i⟩) = .ok h₁ := defined_eq_ok hrun
    refine ⟨h₂, ?_, ?_, hframe₁.trans hframe₂, hmis₂.trans hmis₁⟩
    · rw [destroyN, hstep, ok_bind]
      exact hrun₂
    · convert hs₂ using 1
      funext j
      unfold emptied
      rcases eq_or_ne j i with rfl | hne
      · simp
      · rw [Function.update_of_ne hne]
        exact if_congr (by omega) rfl rfl

theorem load_spec {i : ℕ} {x : T} (hs : h.Stores b cap f) (hi : i < cap) (hx : f i = some x) :
    load h (some ⟨b, i⟩) = .ok x :=
  defined_eq_ok ((read_spec hs hi).trans hx)

/-- The elements of a block as far as they were copied to another. -/
def copied (f g : ℕ → Option T) (i n : ℕ) : ℕ → Option T :=
  fun j ↦ if i ≤ j ∧ j < i + n then f j else g j

theorem growLoop_spec {n : ℕ} (hne : b ≠ b') (hs : h.Stores b cap f) (hs' : h.Stores b' cap' g)
    (hcap : n ≤ cap) (hcap' : n ≤ cap') (hlive : ∀ i < n, ∃ x, f i = some x)
    (hraw : ∀ i < n, g i = none) :
    ∃ h', growLoop h (some ⟨b', 0⟩) (some ⟨b, 0⟩) n = .ok h' ∧
      h'.Stores b' cap' (copied f g 0 n) ∧ Frame {b'} h h' ∧ h'.misuses = h.misuses := by
  induction n generalizing h g with
  | zero =>
    have hsame : copied f g 0 0 = g := by
      funext j
      exact if_neg (by omega)
    exact ⟨h, rfl, hsame.symm ▸ hs', Frame.refl _ _, rfl⟩
  | succ n ih =>
    obtain ⟨x, hx⟩ := hlive n (by omega)
    obtain ⟨h₁, hrun, hs₁, hframe₁, hmis₁⟩ := constructAt_spec hs' (by omega) x (i := n)
    obtain ⟨h₂, hrun₂, hs₂, hframe₂, hmis₂⟩ :=
      ih (hs.frame hframe₁ hne) hs₁ (by omega) (by omega) (fun i hi ↦ hlive i (by omega))
        fun i hi ↦ by rw [Function.update_of_ne (by omega), hraw i (by omega)]
    have hload : load h (Ptr.add (some ⟨b, 0⟩) n) = .ok x := by
      rw [Ptr.add, Option.map_some, Nat.zero_add]
      exact load_spec hs (by omega) hx
    have hstep : constructAt h (Ptr.add (some ⟨b', 0⟩) n) x = .ok h₁ := by
      rw [Ptr.add, Option.map_some, Nat.zero_add]
      exact defined_eq_ok hrun
    refine ⟨h₂, ?_, ?_, hframe₁.trans hframe₂, hmis₂.trans (hmis₁ (hraw n (by omega)))⟩
    · rw [growLoop, hload, ok_bind, hstep, ok_bind]
      exact hrun₂
    · convert hs₂ using 1
      funext j
      unfold copied
      rcases eq_or_ne j n with rfl | hne'
      · simp [hx]
      · rw [Function.update_of_ne hne']
        exact if_congr (by omega) rfl rfl

/-- The loop of the copying algorithms between two blocks. -/
theorem copyLoop_spec (fine : Option T → Prop)
    {write : Heap T → Option Ptr → T → Except Fault (Heap T)}
    (hwrite : ∀ (h : Heap T) (g : ℕ → Option T) (i : ℕ) (x : T), h.Stores b' cap' g → i < cap' →
      ∃ h', write h (some ⟨b', i⟩) x = .ok h' ∧
        h'.Stores b' cap' (Function.update g i (some x)) ∧ Frame {b'} h h' ∧
        (fine (g i) → h'.misuses = h.misuses))
    {n i : ℕ} (hne : b ≠ b') (hs : h.Stores b cap f) (hs' : h.Stores b' cap' g)
    (hcap : i + n ≤ cap) (hcap' : i + n ≤ cap')
    (hlive : ∀ j, i ≤ j → j < i + n → ∃ x, f j = some x) :
    ∃ h', copyLoop write h (some ⟨b, i⟩) (some ⟨b', i⟩) n = .ok h' ∧
      h'.Stores b' cap' (copied f g i n) ∧ Frame {b'} h h' ∧
      ((∀ j, i ≤ j → j < i + n → fine (g j)) → h'.misuses = h.misuses) := by
  induction n generalizing h g i with
  | zero =>
    have hsame : copied f g i 0 = g := by
      funext j
      exact if_neg (by omega)
    exact ⟨h, rfl, hsame.symm ▸ hs', Frame.refl _ _, fun _ ↦ rfl⟩
  | succ n ih =>
    obtain ⟨x, hx⟩ := hlive i (Nat.le_refl i) (by omega)
    obtain ⟨h₁, hrun, hs₁, hframe₁, hmis₁⟩ := hwrite h g i x hs' (by omega)
    obtain ⟨h₂, hrun₂, hs₂, hframe₂, hmis₂⟩ :=
      ih (hs.frame hframe₁ hne) hs₁ (i := i + 1) (by omega) (by omega)
        fun j hij hj ↦ hlive j (by omega) (by omega)
    have hload : load h (some ⟨b, i⟩) = .ok x := load_spec hs (by omega) hx
    refine ⟨h₂, ?_, ?_, hframe₁.trans hframe₂, fun hfine ↦ ?_⟩
    · rw [copyLoop, hload, ok_bind, hrun, ok_bind]
      exact hrun₂
    · convert hs₂ using 1
      funext j
      unfold copied
      rcases eq_or_ne j i with rfl | hne'
      · simp [hx]
      · rw [Function.update_of_ne hne']
        exact if_congr (by omega) rfl rfl
    · refine (hmis₂ fun j hij hj ↦ ?_).trans (hmis₁ (hfine i (Nat.le_refl i) (by omega)))
      rw [Function.update_of_ne (by omega)]
      exact hfine j (by omega) (by omega)

/-- Copying the elements of a block onto themselves changes nothing. -/
theorem copyN_self_spec {n i : ℕ} (hs : h.Stores b cap f) (hcap : i + n ≤ cap)
    (hlive : ∀ j, i ≤ j → j < i + n → ∃ x, f j = some x) :
    ∃ h', copyN h (some ⟨b, i⟩) n (some ⟨b, i⟩) = .ok h' ∧ h'.Stores b cap f ∧ Frame {b} h h' ∧
      h'.misuses = h.misuses := by
  induction n generalizing h i with
  | zero => exact ⟨h, rfl, hs, Frame.refl _ _, rfl⟩
  | succ n ih =>
    obtain ⟨x, hx⟩ := hlive i (Nat.le_refl i) (by omega)
    obtain ⟨h₁, hrun, hs₁, hframe₁, hmis₁⟩ := assign_spec hs (by omega) x (i := i)
    rw [show Function.update f i (some x) = f by rw [← hx, Function.update_eq_self]] at hs₁
    rw [if_neg (by simp [hx])] at hmis₁
    obtain ⟨h₂, hrun₂, hs₂, hframe₂, hmis₂⟩ :=
      ih hs₁ (i := i + 1) (by omega) fun j hij hj ↦ hlive j (by omega) (by omega)
    have hload : load h (some ⟨b, i⟩) = .ok x := load_spec hs (by omega) hx
    have hstep : store h (some ⟨b, i⟩) x = .ok h₁ := defined_eq_ok hrun
    refine ⟨h₂, ?_, hs₂, hframe₁.trans hframe₂, hmis₂.trans hmis₁⟩
    rw [copyN, copyLoop, hload, ok_bind, hstep, ok_bind]
    exact hrun₂

/-! ## Vectors that hold a list -/

/-- The pointers of a vector that owns block `b`. -/
def ofBlock (b len cap : ℕ) : Vector := ⟨some ⟨b, 0⟩, some ⟨b, len⟩, some ⟨b, cap⟩⟩

@[simp] theorem size_ofBlock (b len cap : ℕ) : (ofBlock b len cap).size = len := by
  simp [ofBlock, size, Ptr.sub]

@[simp] theorem capacity_ofBlock (b len cap : ℕ) : (ofBlock b len cap).capacity = cap := by
  simp [ofBlock, capacity, Ptr.sub]

@[simp] theorem mBegin_ofBlock (b len cap : ℕ) : (ofBlock b len cap).mBegin = some ⟨b, 0⟩ := rfl

/-- The first slots of the block hold the list, and only they when it is tight. -/
def Filled (tight : Prop) (h : Heap T) (b cap : ℕ) (xs : List T) : Prop :=
  ∃ f, h.Stores b cap f ∧ (∀ i < xs.length, f i = xs[i]?) ∧
    (tight → ∀ i, xs.length ≤ i → f i = none)

/-- The vector holds the list. -/
inductive Holds (tight : Prop) (h : Heap T) : Vector → List T → Prop where
  | unallocated : Holds tight h {} []
  | allocated {b cap : ℕ} {xs : List T} (hpos : 0 < cap) (hle : xs.length ≤ cap)
      (hfill : Filled tight h b cap xs) : Holds tight h (ofBlock b xs.length cap) xs

theorem Holds.of_empty {tight : Prop} (hpos : 0 < cap) (hfill : Filled tight h b cap []) :
    Holds tight h (ofBlock b 0 cap) [] :=
  @Holds.allocated T tight h b cap [] hpos (Nat.zero_le cap) hfill

/-- The block that the vector has to give back. -/
def Owns (v : Vector) (b : ℕ) : Prop := v.mBegin.map Ptr.block = some b

@[simp] theorem not_owns_null (b : ℕ) : ¬({} : Vector).Owns b := nofun

@[simp] theorem owns_ofBlock (b len cap b' : ℕ) : (ofBlock b len cap).Owns b' ↔ b = b' := by
  simp [Owns, ofBlock]

variable {tight : Prop} {v v' : Vector} {xs : List T}

/-- A slot of the list holds an element. -/
theorem exists_of_slot (hxs : ∀ i < xs.length, f i = xs[i]?) {i : ℕ} (hi : i < xs.length) :
    ∃ x, f i = some x :=
  ⟨xs[i], by rw [hxs i hi, List.getElem?_eq_getElem hi]⟩

theorem Filled.mono (hfill : Filled True h b cap xs) : Filled tight h b cap xs := by
  obtain ⟨f, hs, hxs, hraw⟩ := hfill
  exact ⟨f, hs, hxs, fun _ ↦ hraw trivial⟩

theorem Filled.frame {S : Set ℕ} (hfill : Filled tight h b cap xs) (hf : Frame S h h')
    (hb : b ∉ S) : Filled tight h' b cap xs := by
  obtain ⟨f, hs, hrest⟩ := hfill
  exact ⟨f, hs.frame hf hb, hrest⟩

theorem Holds.frame {S : Set ℕ} (hv : Holds tight h v xs) (hf : Frame S h h')
    (hS : ∀ b, v.Owns b → b ∉ S) : Holds tight h' v xs := by
  cases hv with
  | unallocated => exact .unallocated
  | allocated hpos hle hfill =>
    exact .allocated hpos hle (hfill.frame hf (hS _ ((owns_ofBlock ..).mpr rfl)))

theorem Holds.size_eq (hv : Holds tight h v xs) : v.size = xs.length := by
  cases hv with
  | unallocated => rfl
  | allocated => exact size_ofBlock ..

theorem Holds.length_le (hv : Holds tight h v xs) : xs.length ≤ v.capacity := by
  cases hv with
  | unallocated => exact Nat.zero_le _
  | allocated _ hle => rwa [capacity_ofBlock]

theorem Holds.owned (hv : Holds tight h v xs) (hb : v.Owns b) : h.blocks b ≠ none := by
  cases hv with
  | unallocated => exact absurd hb (not_owns_null b)
  | allocated hpos hle hfill =>
    obtain rfl := (owns_ofBlock ..).mp hb
    obtain ⟨f, hs, -⟩ := hfill
    exact hs.ne_none

/-- What an operation may do outside the list: it changes the vector's own block, takes a new one
or gives the old one back. -/
structure Effect (clean : Prop) (h : Heap T) (v : Vector) (h' : Heap T) (v' : Vector) : Prop where
  frame : Frame {b | v.Owns b ∨ v'.Owns b} h h'
  taken : ∀ b, v'.Owns b → v.Owns b ∨ h.blocks b = none
  given : ∀ b, v.Owns b → v'.Owns b ∨ h'.blocks b = none
  misuses : clean → h'.misuses = h.misuses

theorem Effect.refl (clean : Prop) (h : Heap T) (v : Vector) : Effect clean h v h v where
  frame := Frame.refl _ h
  taken _ := Or.inl
  given _ := Or.inl
  misuses _ := rfl

theorem Effect.trans {clean : Prop} {h'' : Heap T} {v'' : Vector} (h₁ : Effect clean h v h' v')
    (h₂ : Effect clean h' v' h'' v'') : Effect clean h v h'' v'' := by
  refine ⟨⟨fun b hb ↦ ?_, fun hacc ↦ h₂.frame.accounted (h₁.frame.accounted hacc)⟩, fun b hb ↦ ?_,
    fun b hb ↦ ?_, fun hclean ↦ (h₂.misuses hclean).trans (h₁.misuses hclean)⟩
  · obtain ⟨hv, hv''⟩ := not_or.mp hb
    by_cases hv' : v'.Owns b
    · -- A block that only the vector in between owned was taken and given back.
      rw [(h₂.given b hv').resolve_left hv'', (h₁.taken b hv').resolve_left hv]
    · rw [h₂.frame.others b (not_or.mpr ⟨hv', hv''⟩), h₁.frame.others b (not_or.mpr ⟨hv, hv'⟩)]
  · by_cases hv : v.Owns b
    · exact Or.inl hv
    · rcases h₂.taken b hb with hv' | hnone
      · exact h₁.taken b hv'
      · by_cases hv' : v'.Owns b
        · exact h₁.taken b hv'
        · exact Or.inr (h₁.frame.others b (not_or.mpr ⟨hv, hv'⟩) ▸ hnone)
  · by_cases hv'' : v''.Owns b
    · exact Or.inl hv''
    · rcases h₁.given b hb with hv' | hnone
      · exact h₂.given b hv'
      · by_cases hv' : v'.Owns b
        · exact h₂.given b hv'
        · exact Or.inr ((h₂.frame.others b (not_or.mpr ⟨hv', hv''⟩)).trans hnone)

/-- A change inside the vector's own block. -/
theorem Effect.inside {clean : Prop} (hf : Frame {b} h h') (hv : v.Owns b) (hv' : v'.Owns b)
    (hmis : clean → h'.misuses = h.misuses) : Effect clean h v h' v' := by
  have hown : ∀ b', v.Owns b' ↔ v'.Owns b' := fun b' ↦ by
    unfold Owns at hv hv' ⊢
    rw [hv, hv']
  refine ⟨hf.mono ?_, fun b' hb' ↦ Or.inl ((hown b').mpr hb'),
    fun b' hb' ↦ Or.inl ((hown b').mp hb'), hmis⟩
  rintro b' rfl
  exact Or.inl hv

/-! ## Storage helpers -/

variable {sizeofT : ℕ+}

/-- The slots of a block that was asked to have `n`. -/
def slots (sizeofT : ℕ+) (n : ℕ) : ℕ := sizeofT * n % 2 ^ 64 / sizeofT

/-- A request whose bytes fit a machine word gets all its slots. -/
theorem slots_eq {n : ℕ} (hfit : sizeofT * n < 2 ^ 64) : slots sizeofT n = n := by
  rw [slots, Nat.mod_eq_of_lt hfit, Nat.mul_div_cancel_left n sizeofT.pos]

/-- Any other one gets fewer. -/
theorem slots_lt {n : ℕ} (hfit : ¬sizeofT * n < 2 ^ 64) : slots sizeofT n < n := by
  rw [slots, Nat.div_lt_iff_lt_mul sizeofT.pos, Nat.mul_comm n]
  exact Nat.lt_of_lt_of_le (Nat.mod_lt _ (Nat.two_pow_pos 64)) (Nat.not_lt.mp hfit)

theorem allocate_spec (sizeofT : ℕ+) {n : ℕ} (hacc : h.Accounted) (hn : n ≠ 0) :
    ∃ b h', allocate sizeofT h n = .ok (some ⟨b, 0⟩, h') ∧ h.blocks b = none ∧
      h'.Stores b (slots sizeofT n) (fun _ ↦ none) ∧ Frame {b} h h' ∧
      h'.misuses = h.misuses := by
  obtain ⟨hs, hframe, hmis⟩ := alloc_spec h (slots sizeofT n)
  refine ⟨h.allocated, (h.alloc _).2, ?_, hacc.fresh _ (Nat.le_refl _), hs, hframe, hmis⟩
  rw [allocate, if_neg hn]
  rfl

theorem allocateFromNullptr_slots (sizeofT : ℕ+) (tight : Prop) {n : ℕ} (hacc : h.Accounted)
    (hn : n ≠ 0) :
    ∃ h' b, allocateFromNullptr sizeofT h {} n = .ok (h', ofBlock b 0 n) ∧
      Filled True h' b (slots sizeofT n) [] ∧ Effect tight h {} h' (ofBlock b 0 n) := by
  obtain ⟨b, h', hrun, hfresh, hs, hframe, hmis⟩ := allocate_spec sizeofT hacc hn
  refine ⟨h', b, ?_, ⟨_, hs, by simp, fun _ _ _ ↦ rfl⟩, hframe.mono ?_, ?_, ?_, fun _ ↦ hmis⟩
  · rw [allocateFromNullptr, if_neg (by simp)]
    simp only [hrun, ok_bind]
    simp [ofBlock, Ptr.add, pure_eq_ok]
  · rintro b' rfl
    exact Or.inr ((owns_ofBlock ..).mpr rfl)
  · intro b' hb'
    obtain rfl := (owns_ofBlock ..).mp hb'
    exact Or.inr hfresh
  · exact fun b' hb' ↦ absurd hb' (not_owns_null b')

theorem allocateFromNullptr_spec (tight : Prop) {n : ℕ} (hacc : h.Accounted) (hn : n ≠ 0)
    (hfit : sizeofT * n < 2 ^ 64) :
    ∃ h' b, allocateFromNullptr sizeofT h {} n = .ok (h', ofBlock b 0 n) ∧
      Filled True h' b n [] ∧ Effect tight h {} h' (ofBlock b 0 n) := by
  obtain ⟨h', b, hrun, hfill, heff⟩ :=
    allocateFromNullptr_slots sizeofT tight hacc hn
  rw [slots_eq hfit] at hfill
  exact ⟨h', b, hrun, hfill, heff⟩

/-- Growth moves the elements to another block, if that has room for them. -/
theorem growCapacity_slots (sizeofT : ℕ+) {n : ℕ} (hacc : h.Accounted)
    (hfill : Filled tight h b cap xs) (hle : xs.length ≤ cap) (hn : n ≠ 0)
    (hlen : xs.length ≤ slots sizeofT n) :
    ∃ h' b', growCapacity sizeofT h (ofBlock b xs.length cap) n =
        .ok (h', ofBlock b' xs.length n) ∧ b ≠ b' ∧ Filled True h' b' (slots sizeofT n) xs ∧
      Effect tight h (ofBlock b xs.length cap) h' (ofBlock b' xs.length n) ∧
      h.misuses <+: h'.misuses := by
  obtain ⟨f, hs, hxs, hraw⟩ := hfill
  have hlive : ∀ i < xs.length, ∃ x, f i = some x := fun _ ↦ exists_of_slot hxs
  obtain ⟨b', h₁, hrun₁, hfresh, hs₁', hframe₁, hmis₁⟩ := allocate_spec sizeofT hacc hn
  have hne : b ≠ b' := by
    rintro rfl
    exact hs.ne_none hfresh
  have hs₁ := hs.frame hframe₁ hne
  obtain ⟨h₂, hrun₂, hs₂', hframe₂, hmis₂⟩ :=
    growLoop_spec hne hs₁ hs₁' hle hlen hlive fun _ _ ↦ rfl
  have hs₂ := hs₁.frame hframe₂ hne
  obtain ⟨h₃, hrun₃, hs₃, hframe₃, hmis₃⟩ := destroyN_spec (n := xs.length) (i := 0) hs₂ (by omega)
    fun i _ hi ↦ hlive i (by omega)
  have hs₃' := hs₂'.frame hframe₃ (Ne.symm hne)
  obtain ⟨h₄, hrun₄, hgone, hframe₄, hmis₄, hprefix₄⟩ := free_spec hs₃
  have hs₄' := hs₃'.frame hframe₄ (Ne.symm hne)
  refine ⟨h₄, b', ?_, hne, ⟨_, hs₄', fun i hi ↦ ?_, fun _ i hi ↦ ?_⟩,
    ⟨?_, ?_, ?_, fun htight ↦ ?_⟩, ?_⟩
  · have hrun₃ : destroyN h₂ (some ⟨b, 0⟩) xs.length = .ok h₃ := hrun₃
    have hrun₄ : operatorDelete h₃ (some ⟨b, 0⟩) = .ok h₄ := defined_eq_ok hrun₄
    simp only [growCapacity, hrun₁, ok_bind, size_ofBlock, mBegin_ofBlock, hrun₂, hrun₃, hrun₄]
    simp [ofBlock, Ptr.add, pure_eq_ok]
  · rw [copied, if_pos (by omega), hxs i hi]
  · rw [copied, if_neg (by omega)]
  · refine (hframe₁.mono ?_).trans ((hframe₂.mono ?_).trans ((hframe₃.mono ?_).trans
      (hframe₄.mono ?_)))
    all_goals simp
  · intro b'' hb''
    obtain rfl := (owns_ofBlock ..).mp hb''
    exact Or.inr hfresh
  · intro b'' hb''
    obtain rfl := (owns_ofBlock ..).mp hb''
    exact Or.inr hgone
  · rw [hmis₄ ?_, hmis₃, hmis₂, hmis₁]
    intro i
    unfold emptied
    split
    · rfl
    · exact hraw htight i (by omega)
  · rw [← hmis₁, ← hmis₂, ← hmis₃]
    exact hprefix₄

theorem growCapacity_spec {n : ℕ} (hacc : h.Accounted) (hfill : Filled tight h b cap xs)
    (hle : xs.length ≤ cap) (hn : n ≠ 0) (hlen : xs.length ≤ n) (hfit : sizeofT * n < 2 ^ 64) :
    ∃ h' b', growCapacity sizeofT h (ofBlock b xs.length cap) n =
        .ok (h', ofBlock b' xs.length n) ∧ b ≠ b' ∧ Filled True h' b' n xs ∧
      Effect tight h (ofBlock b xs.length cap) h' (ofBlock b' xs.length n) := by
  have hslots := slots_eq hfit
  obtain ⟨h', b', hrun, hne, hfill', heff, -⟩ :=
    growCapacity_slots sizeofT hacc hfill hle hn (by omega)
  rw [hslots] at hfill'
  exact ⟨h', b', hrun, hne, hfill', heff⟩

/-- The loop starts with the last element, which has no slot if there are too few. -/
theorem growLoop_short {n : ℕ} (hs : h.Stores b cap f) (hs' : h.Stores b' cap' g) (hcap : n ≤ cap)
    (hcap' : cap' < n) (hlive : ∀ i < n, ∃ x, f i = some x) :
    growLoop h (some ⟨b', 0⟩) (some ⟨b, 0⟩) n = .error .undefined := by
  obtain ⟨i, rfl⟩ : ∃ i, n = i + 1 := ⟨n - 1, by omega⟩
  obtain ⟨x, hx⟩ := hlive i (Nat.lt_succ_self i)
  have hload : load h (Ptr.add (some ⟨b, 0⟩) i) = .ok x := by
    rw [Ptr.add, Option.map_some, Nat.zero_add]
    exact load_spec hs (by omega) hx
  have hout : constructAt h (Ptr.add (some ⟨b', 0⟩) i) x = .error .undefined := by
    simp [constructAt, Ptr.add, Heap.constructAt, hs'.locate_eq_none (show cap' ≤ i by omega),
      defined]
  rw [growLoop, hload, ok_bind, hout]
  rfl

theorem growCapacity_short {n : ℕ} (hacc : h.Accounted) (hfill : Filled tight h b cap xs)
    (hle : xs.length ≤ cap) (hn : n ≠ 0) (hshort : slots sizeofT n < xs.length) :
    growCapacity sizeofT h (ofBlock b xs.length cap) n = .error .undefined := by
  obtain ⟨f, hs, hxs, -⟩ := hfill
  have hlive : ∀ i < xs.length, ∃ x, f i = some x := fun _ ↦ exists_of_slot hxs
  obtain ⟨b', h₁, hrun₁, hfresh, hs₁', hframe₁, -⟩ := allocate_spec sizeofT hacc hn
  have hne : b ≠ b' := by
    rintro rfl
    exact hs.ne_none hfresh
  have hloop := growLoop_short (hs.frame hframe₁ hne) hs₁' hle hshort hlive
  simp only [growCapacity, hrun₁, ok_bind, size_ofBlock, mBegin_ofBlock, hloop]
  rfl

/-! ## The end of the list -/

theorem Filled.push (hfill : Filled tight h b cap xs) (hlt : xs.length < cap) (x : T) :
    ∃ h', constructAt h (some ⟨b, xs.length⟩) x = .ok h' ∧ Filled tight h' b cap (xs ++ [x]) ∧
      Frame {b} h h' ∧ (tight → h'.misuses = h.misuses) := by
  obtain ⟨f, hs, hxs, hraw⟩ := hfill
  obtain ⟨h', hrun, hs', hframe, hmis⟩ := constructAt_spec hs hlt x
  refine ⟨h', defined_eq_ok hrun, ⟨_, hs', fun i hi ↦ ?_, fun htight i hi ↦ ?_⟩, hframe,
    fun htight ↦ hmis (hraw htight _ (Nat.le_refl _))⟩
  · rw [List.length_append, List.length_singleton] at hi
    rcases Nat.lt_succ_iff_lt_or_eq.mp hi with hi | rfl
    · rw [Function.update_of_ne (by omega), hxs i hi, List.getElem?_append_left hi]
    · rw [Function.update_self, List.getElem?_concat_length]
  · rw [List.length_append, List.length_singleton] at hi
    rw [Function.update_of_ne (by omega), hraw htight i (by omega)]

theorem Filled.pop {x : T} (hfill : Filled tight h b cap (xs ++ [x])) (hlt : xs.length < cap) :
    ∃ h', destroyAt h (some ⟨b, xs.length⟩) = .ok h' ∧ Filled tight h' b cap xs ∧
      Frame {b} h h' ∧ h'.misuses = h.misuses := by
  obtain ⟨f, hs, hxs, hraw⟩ := hfill
  rw [List.length_append, List.length_singleton] at hxs hraw
  have hx : f xs.length = some x := by
    rw [hxs _ (Nat.lt_succ_self _), List.getElem?_concat_length]
  obtain ⟨h', hrun, hs', hframe, hmis⟩ := destroyAt_spec hs hlt hx
  refine ⟨h', defined_eq_ok hrun, ⟨_, hs', fun i hi ↦ ?_, fun htight i hi ↦ ?_⟩, hframe, hmis⟩
  · rw [Function.update_of_ne (by omega), hxs i (by omega), List.getElem?_append_left hi]
  · rcases eq_or_ne i xs.length with rfl | hne
    · rw [Function.update_self]
    · rw [Function.update_of_ne hne, hraw htight i (by omega)]

/-! ## Public operations -/

/-- The capacity that `emplace_back` asks for. -/
def emplaceRequest (v : Vector) : Option ℕ :=
  if v.mBegin = none then some 1 else if v.mEnd = v.mCap then some (v.capacity * 2) else none

/-- The capacity that `reserve` and `resize` ask for. -/
def reserveRequest (v : Vector) (n : ℕ) : Option ℕ :=
  if v.mBegin = none then some n else if n ≤ v.capacity then none else some n

/-- There is room for one more element behind the list. -/
theorem emplaceRoom_spec (hacc : h.Accounted) (hv : Holds tight h v xs)
    (hfit : ∀ n ∈ v.emplaceRequest, sizeofT * n < 2 ^ 64) :
    ∃ h' b cap, emplaceRoom sizeofT h v = .ok (h', ofBlock b xs.length cap) ∧ xs.length < cap ∧
      Filled tight h' b cap xs ∧ Effect tight h v h' (ofBlock b xs.length cap) ∧
      v.capacity ≤ cap := by
  cases hv with
  | unallocated =>
    obtain ⟨h', b, hrun, hfill, heff⟩ :=
      allocateFromNullptr_spec tight hacc Nat.one_ne_zero (hfit 1 (by rfl))
    exact ⟨h', b, 1, hrun, Nat.one_pos, hfill.mono, heff, Nat.zero_le _⟩
  | @allocated b cap xs hpos hle hfill =>
    rw [emplaceRoom, if_neg (by simp), capacity_ofBlock]
    by_cases hfull : xs.length = cap
    · have hfull' : (ofBlock b xs.length cap).mEnd = (ofBlock b xs.length cap).mCap := by
        simp [ofBlock, hfull]
      have hfit' : (sizeofT : ℕ) * (cap * 2) < 2 ^ 64 :=
        hfit (cap * 2) (by simp [emplaceRequest, hfull'])
      have hword : cap * 2 < 2 ^ 64 :=
        Nat.lt_of_le_of_lt (Nat.le_mul_of_pos_left _ sizeofT.pos) hfit'
      obtain ⟨h', b', hrun, -, hfill', heff⟩ :=
        growCapacity_spec hacc hfill hle (n := cap * 2) (by omega) (by omega) hfit'
      refine ⟨h', b', cap * 2, ?_, by omega, hfill'.mono, heff, by omega⟩
      rw [if_pos hfull', Nat.mod_eq_of_lt hword, hrun]
    · have hroom : (ofBlock b xs.length cap).mEnd ≠ (ofBlock b xs.length cap).mCap := by
        simp [ofBlock, hfull]
      rw [if_neg hroom]
      exact ⟨h, b, cap, rfl, by omega, hfill, Effect.refl _ _ _, Nat.le_refl _⟩

theorem emplaceBack_spec (hacc : h.Accounted) (hv : Holds tight h v xs) (x : T)
    (hfit : ∀ n ∈ v.emplaceRequest, sizeofT * n < 2 ^ 64) :
    ∃ h' v', emplaceBack sizeofT h v x = .ok (h', v') ∧ Holds tight h' v' (xs ++ [x]) ∧
      Effect tight h v h' v' ∧ v.capacity ≤ v'.capacity := by
  obtain ⟨h₁, b, cap, hrun, hlt, hfill, heff, hcap⟩ := emplaceRoom_spec hacc hv hfit
  obtain ⟨h₂, hrun₂, hfill₂, hframe₂, hmis₂⟩ := hfill.push hlt x
  have hlen : (xs ++ [x]).length = xs.length + 1 := by simp
  refine ⟨h₂, ofBlock b (xs ++ [x]).length cap, ?_,
    .allocated (by omega) (by omega) hfill₂, heff.trans ?_, by rwa [capacity_ofBlock]⟩
  · have hrun₂ : constructAt h₁ (ofBlock b xs.length cap).mEnd x = .ok h₂ := hrun₂
    simp only [emplaceBack, hrun, ok_bind, hrun₂, pure_eq_ok, hlen]
    rfl
  · exact Effect.inside hframe₂ ((owns_ofBlock ..).mpr rfl) ((owns_ofBlock ..).mpr rfl) hmis₂

theorem reserve_spec {n : ℕ} (hacc : h.Accounted) (hv : Holds tight h v xs)
    (hn : v.mBegin = none → n ≠ 0) (hfit : ∀ m ∈ v.reserveRequest n, sizeofT * m < 2 ^ 64) :
    ∃ h' v', reserve sizeofT h v n = .ok (h', v') ∧ Holds tight h' v' xs ∧
      Effect tight h v h' v' ∧ v.capacity ≤ v'.capacity ∧ n ≤ v'.capacity ∧ v'.mBegin ≠ none := by
  cases hv with
  | unallocated =>
    have hn := hn rfl
    obtain ⟨h', b, hrun, hfill, heff⟩ :=
      allocateFromNullptr_spec tight hacc hn (hfit n (by rfl))
    refine ⟨h', ofBlock b 0 n, hrun, ?_, heff, Nat.zero_le _, by rw [capacity_ofBlock], by simp⟩
    exact Holds.of_empty (Nat.pos_of_ne_zero hn) hfill.mono
  | @allocated b cap xs hpos hle hfill =>
    by_cases hcap : n ≤ cap
    · refine ⟨h, ofBlock b xs.length cap, ?_, .allocated hpos hle hfill, Effect.refl _ _ _,
        Nat.le_refl _, by rwa [capacity_ofBlock], by simp⟩
      rw [reserve, if_neg (by simp), if_pos (by rwa [capacity_ofBlock])]
    · have hfit := hfit n (by simp [reserveRequest, hcap])
      obtain ⟨h', b', hrun, -, hfill', heff⟩ :=
        growCapacity_spec hacc hfill hle (n := n) (by omega) (by omega) hfit
      refine ⟨h', ofBlock b' xs.length n, ?_, .allocated (by omega) (by omega) hfill'.mono, heff,
        ?_, by rw [capacity_ofBlock], by simp⟩
      · rw [reserve, if_neg (by simp), if_neg (by rwa [capacity_ofBlock]), hrun]
      · rw [capacity_ofBlock, capacity_ofBlock]
        omega

theorem destroyAll_spec (hv : Holds tight h v xs) :
    ∃ h' v', destroyAll h v = .ok (h', v') ∧ Holds tight h' v' [] ∧ Effect tight h v h' v' ∧
      v'.capacity = v.capacity ∧ v'.mBegin = v.mBegin := by
  cases hv with
  | unallocated => exact ⟨h, {}, rfl, .unallocated, Effect.refl _ _ _, rfl, rfl⟩
  | @allocated b cap xs hpos hle hfill =>
    obtain ⟨f, hs, hxs, hraw⟩ := hfill
    obtain ⟨h', hrun, hs', hframe, hmis⟩ := destroyN_spec (n := xs.length) (i := 0) hs (by omega)
      fun i _ hi ↦ ⟨xs.get ⟨i, by omega⟩, by rw [hxs i (by omega)]; simp⟩
    have hempty : Filled tight h' b cap ([] : List T) := by
      refine ⟨_, hs', fun i hi ↦ absurd hi (Nat.not_lt_zero i), fun htight i _ ↦ ?_⟩
      unfold emptied
      split
      · rfl
      · exact hraw htight i (by omega)
    refine ⟨h', ofBlock b 0 cap, ?_, Holds.of_empty hpos hempty,
      Effect.inside hframe ((owns_ofBlock ..).mpr rfl) ((owns_ofBlock ..).mpr rfl) fun _ ↦ hmis,
      ?_, rfl⟩
    · rw [destroyAll, if_neg (by simp), mBegin_ofBlock, size_ofBlock, hrun]
      rfl
    · rw [capacity_ofBlock, capacity_ofBlock]

theorem destroyAndFree_spec (hv : Holds tight h v xs) :
    ∃ h', destroyAndFree h v = .ok (h', {}) ∧ Effect tight h v h' {} := by
  obtain ⟨h₁, v₁, hrun₁, hv₁, heff₁, -⟩ := destroyAll_spec hv
  suffices hfree : ∃ h', free h₁ v₁ = .ok (h', {}) ∧ Effect tight h₁ v₁ h' {} by
    obtain ⟨h', hrun, heff⟩ := hfree
    refine ⟨h', ?_, heff₁.trans heff⟩
    rw [destroyAndFree, hrun₁, ok_bind]
    exact hrun
  generalize hnil : ([] : List T) = ys at hv₁
  cases hv₁ with
  | unallocated => exact ⟨h₁, rfl, Effect.refl _ _ _⟩
  | @allocated b cap ys hpos hle hfill =>
    subst hnil
    obtain ⟨f, hs, -, hraw⟩ := hfill
    obtain ⟨h', hrun, hgone, hframe, hmis, -⟩ := free_spec hs
    have hrun : operatorDelete h₁ (some ⟨b, 0⟩) = .ok h' := defined_eq_ok hrun
    refine ⟨h', ?_, hframe.mono ?_, fun b' hb' ↦ absurd hb' (not_owns_null b'), fun b' hb' ↦ ?_,
      fun htight ↦ hmis fun i ↦ hraw htight i (Nat.zero_le i)⟩
    · rw [free, mBegin_ofBlock, hrun]
      rfl
    · simp
    · obtain rfl := (owns_ofBlock ..).mp hb'
      exact Or.inr hgone

theorem popBack_spec (hv : Holds tight h v xs) (hne : xs ≠ []) :
    ∃ h' v', popBack h v = .ok (h', v') ∧ Holds tight h' v' xs.dropLast ∧ Effect tight h v h' v' ∧
      v'.capacity = v.capacity := by
  cases hv with
  | unallocated => exact absurd rfl hne
  | @allocated b cap xs hpos hle hfill =>
    obtain ⟨ys, x, rfl⟩ := (List.eq_nil_or_concat xs).resolve_left hne
    rw [List.concat_eq_append] at hle hfill ⊢
    rw [List.length_append, List.length_singleton] at hle ⊢
    obtain ⟨h', hrun, hfill', hframe, hmis⟩ := hfill.pop (by omega)
    have hrun : destroyAt h (Ptr.pred (ofBlock b (ys.length + 1) cap).mEnd) = .ok h' := hrun
    refine ⟨h', ofBlock b ys.length cap, ?_, ?_,
      Effect.inside hframe ((owns_ofBlock ..).mpr rfl) ((owns_ofBlock ..).mpr rfl) fun _ ↦ hmis, ?_⟩
    · have hfull : (ofBlock b (ys.length + 1) cap).empty = false := by simp [empty, ofBlock]
      simp only [popBack, hfull, hrun, ok_bind]
      rfl
    · rw [List.dropLast_concat]
      exact .allocated hpos (by omega) hfill'
    · rw [capacity_ofBlock, capacity_ofBlock]

theorem load_element {i : ℕ} (hv : Holds tight h v xs) (hi : i < xs.length) :
    load h (Ptr.add v.mBegin i) = .ok xs[i] := by
  cases hv with
  | unallocated => exact absurd hi (Nat.not_lt_zero i)
  | allocated hpos hle hfill =>
    obtain ⟨f, hs, hxs, -⟩ := hfill
    rw [mBegin_ofBlock, Ptr.add, Option.map_some, Nat.zero_add]
    exact load_spec hs (by omega) (by rw [hxs i hi, List.getElem?_eq_getElem hi])

/-- `at` on a list. -/
def atList (xs : List T) (i : ℕ) : Outcome T :=
  if hi : i < xs.length then .element xs[i] else .outOfRange (outOfRangeText i xs.length)

theorem atIndex_spec (hv : Holds tight h v xs) (i : ℕ) : atIndex h v i = .ok (atList xs i) := by
  rw [atIndex, atList, hv.size_eq]
  by_cases hi : i < xs.length
  · rw [if_neg (Nat.not_le.mpr hi), dif_pos hi, load_element hv hi]
    rfl
  · rw [if_pos (Nat.not_lt.mp hi), dif_neg hi]

theorem operatorIndex_spec {i : ℕ} (hv : Holds tight h v xs) (hi : i < xs.length) :
    operatorIndex h v i = .ok (atList xs i) := by
  rw [operatorIndex, atList, hv.size_eq, if_pos hi, dif_pos hi, load_element hv hi]
  rfl

/-! ## Resizing -/

theorem constructUntil_spec [Inhabited T] {k fuel : ℕ} (hfill : Filled tight h b cap xs)
    (hcap : xs.length + k ≤ cap) (hfuel : k < fuel) :
    ∃ h', constructUntil (some ⟨b, xs.length + k⟩) fuel h (ofBlock b xs.length cap) =
        .ok (h', ofBlock b (xs.length + k) cap) ∧
      Filled tight h' b cap (xs ++ List.replicate k default) ∧ Frame {b} h h' ∧
      (tight → h'.misuses = h.misuses) := by
  induction k generalizing h xs fuel with
  | zero =>
    obtain ⟨fuel, rfl⟩ := Nat.exists_eq_add_of_lt hfuel
    refine ⟨h, ?_, by simpa using hfill, Frame.refl _ _, fun _ ↦ rfl⟩
    rw [Nat.add_zero, constructUntil]
    exact if_pos rfl
  | succ k ih =>
    obtain ⟨fuel, rfl⟩ := Nat.exists_eq_add_one.mpr (Nat.zero_lt_of_lt hfuel)
    obtain ⟨h₁, hrun₁, hfill₁, hframe₁, hmis₁⟩ := hfill.push (by omega) default
    have hlen : (xs ++ [(default : T)]).length = xs.length + 1 := by simp
    obtain ⟨h₂, hrun₂, hfill₂, hframe₂, hmis₂⟩ := ih hfill₁ (by omega) (show k < fuel by omega)
    refine ⟨h₂, ?_, ?_, hframe₁.trans hframe₂, fun htight ↦ (hmis₂ htight).trans (hmis₁ htight)⟩
    · have hgo : (ofBlock b xs.length cap).mEnd ≠ some ⟨b, xs.length + (k + 1)⟩ := by simp [ofBlock]
      have hrun₁ : constructAt h (ofBlock b xs.length cap).mEnd default = .ok h₁ := hrun₁
      rw [hlen, show xs.length + 1 + k = xs.length + (k + 1) by omega] at hrun₂
      rw [constructUntil, if_neg hgo, hrun₁, ok_bind]
      exact hrun₂
    · rwa [List.append_assoc, List.singleton_append, ← List.replicate_succ] at hfill₂

/-- A loop whose end is not in its block leaves the block. -/
theorem constructUntil_runaway [Inhabited T] {i fuel : ℕ} {stop : Ptr} {mBegin mCap : Option Ptr}
    (hs : h.Stores b cap f) (hi : i ≤ cap) (hstop : stop.block = b → cap < stop.index) :
    constructUntil (some stop) fuel h ⟨mBegin, some ⟨b, i⟩, mCap⟩ = .error .undefined := by
  induction fuel generalizing h f i with
  | zero => rfl
  | succ fuel ih =>
    have hgo : (some ⟨b, i⟩ : Option Ptr) ≠ some stop := by
      intro heq
      obtain rfl := Option.some.inj heq
      exact absurd (hstop rfl) (Nat.not_lt.mpr hi)
    rw [constructUntil, if_neg hgo]
    rcases hi.lt_or_eq with hi | rfl
    · obtain ⟨h₁, hrun₁, hs₁, -⟩ := constructAt_spec hs hi (default : T)
      have hrun₁ : constructAt h (some ⟨b, i⟩) default = .ok h₁ := defined_eq_ok hrun₁
      rw [hrun₁, ok_bind]
      exact ih hs₁ hi
    · have hout : constructAt h (some ⟨b, i⟩) (default : T) = .error .undefined := by
        simp [constructAt, Heap.constructAt, hs.locate_eq_none (Nat.le_refl i), defined]
      rw [hout]
      rfl

theorem destroyUntil_spec {ys : List T} {fuel : ℕ} (hfill : Filled tight h b cap (xs ++ ys))
    (hcap : (xs ++ ys).length ≤ cap) (hfuel : ys.length < fuel) :
    ∃ h', destroyUntil (some ⟨b, xs.length⟩) fuel h (ofBlock b (xs ++ ys).length cap) =
        .ok (h', ofBlock b xs.length cap) ∧
      Filled tight h' b cap xs ∧ Frame {b} h h' ∧ h'.misuses = h.misuses := by
  induction ys using List.reverseRecOn generalizing h fuel with
  | nil =>
    obtain ⟨fuel, rfl⟩ := Nat.exists_eq_add_one.mpr (Nat.zero_lt_of_lt hfuel)
    rw [List.append_nil] at hfill ⊢
    refine ⟨h, ?_, hfill, Frame.refl _ _, rfl⟩
    rw [destroyUntil]
    exact if_pos rfl
  | append_singleton ys y ih =>
    obtain ⟨fuel, rfl⟩ := Nat.exists_eq_add_one.mpr (Nat.zero_lt_of_lt hfuel)
    rw [← List.append_assoc] at hfill hcap ⊢
    rw [List.length_append, List.length_singleton] at hcap hfuel ⊢
    obtain ⟨h₁, hrun₁, hfill₁, hframe₁, hmis₁⟩ := hfill.pop (by omega)
    obtain ⟨h₂, hrun₂, hfill₂, hframe₂, hmis₂⟩ :=
      ih hfill₁ (by omega) (show ys.length < fuel by omega)
    refine ⟨h₂, ?_, hfill₂, hframe₁.trans hframe₂, hmis₂.trans hmis₁⟩
    have hgo : (ofBlock b ((xs ++ ys).length + 1) cap).mEnd ≠ some ⟨b, xs.length⟩ := by
      simp [ofBlock]
      omega
    have hrun₁ : destroyAt h (Ptr.pred (ofBlock b ((xs ++ ys).length + 1) cap).mEnd) = .ok h₁ :=
      hrun₁
    rw [destroyUntil, if_neg hgo, hrun₁, ok_bind]
    exact hrun₂

/-- The list after `resize(n)`. -/
def resizeList [Inhabited T] (xs : List T) (n : ℕ) : List T :=
  xs.take n ++ List.replicate (n - xs.length) default

/-- The elements of a vector without a block are all new. -/
theorem resize_unallocated [Inhabited T] (tight : Prop) {n : ℕ} (hacc : h.Accounted) (hn : n ≠ 0)
    (hfit : sizeofT * n < 2 ^ 64) :
    ∃ h' v', resize sizeofT h {} n = .ok (h', v') ∧ Holds tight h' v' (resizeList [] n) ∧
      Effect tight h {} h' v' := by
  obtain ⟨h₁, b, hrun₁, hfill₁, heff₁⟩ := allocateFromNullptr_spec tight hacc hn hfit
  obtain ⟨h₂, hrun₂, hfill₂, hframe₂, hmis₂⟩ := constructUntil_spec (k := n)
    (hfill₁.mono : Filled tight h₁ b n []) (by simp) (Nat.lt_succ_self n)
  have hlist : [] ++ List.replicate n default = resizeList ([] : List T) n := by simp [resizeList]
  have hlen : (resizeList ([] : List T) n).length = n := by simp [resizeList]
  rw [hlist] at hfill₂
  refine ⟨h₂, ofBlock b (resizeList ([] : List T) n).length n, ?_,
    .allocated (Nat.pos_of_ne_zero hn) (by omega) hfill₂,
    heff₁.trans (Effect.inside hframe₂ ((owns_ofBlock ..).mpr rfl) ((owns_ofBlock ..).mpr rfl)
      hmis₂)⟩
  rw [List.length_nil, Nat.zero_add] at hrun₂
  simp only [resize, if_true, hrun₁, ok_bind, hlen]
  exact hrun₂

/-- The elements behind the new end are destroyed. -/
theorem resize_shrink [Inhabited T] {n : ℕ} (hpos : 0 < cap) (hle : xs.length ≤ cap)
    (hfill : Filled tight h b cap xs) (hshrink : n ≤ xs.length) :
    ∃ h' len, resize sizeofT h (ofBlock b xs.length cap) n = .ok (h', ofBlock b len cap) ∧
      Holds tight h' (ofBlock b len cap) (resizeList xs n) ∧ Frame {b} h h' ∧
      h'.misuses = h.misuses := by
  have hlist : resizeList xs n = xs.take n := by
    simp [resizeList, Nat.sub_eq_zero_of_le hshrink]
  have hlen : (xs.take n).length = n := by simp [hshrink]
  rw [← List.take_append_drop n xs] at hfill hle
  have hdrop : (xs.drop n).length < xs.length + 1 := by
    rw [List.length_drop]
    omega
  obtain ⟨h', hrun, hfill', hframe, hmis⟩ := destroyUntil_spec hfill hle hdrop
  rw [List.take_append_drop] at hrun hle
  refine ⟨h', (xs.take n).length, ?_, ?_, hframe, hmis⟩
  · rw [resize, if_neg (by simp), size_ofBlock, if_pos hshrink, mBegin_ofBlock, Ptr.add,
      Option.map_some, Nat.zero_add, ← hrun, hlen]
  · rw [hlist]
    exact .allocated hpos (by omega) hfill'

/-- The elements behind the old end are new. -/
theorem resize_grow [Inhabited T] {n : ℕ} (hpos : 0 < cap) (hfill : Filled tight h b cap xs)
    (hgrow : ¬n ≤ xs.length) (hcap : n ≤ cap) :
    ∃ h' len, resize sizeofT h (ofBlock b xs.length cap) n = .ok (h', ofBlock b len cap) ∧
      Holds tight h' (ofBlock b len cap) (resizeList xs n) ∧ Frame {b} h h' ∧
      (tight → h'.misuses = h.misuses) := by
  obtain ⟨h', hrun, hfill', hframe, hmis⟩ :=
    constructUntil_spec hfill (by omega) (show n - xs.length < n + 1 by omega)
  have hlist : xs ++ List.replicate (n - xs.length) default = resizeList xs n := by
    rw [resizeList, List.take_of_length_le (by omega)]
  have hlen : (resizeList xs n).length = n := by
    rw [← hlist, List.length_append, List.length_replicate]
    omega
  have hsum : xs.length + (n - xs.length) = n := by omega
  rw [hlist] at hfill'
  refine ⟨h', (resizeList xs n).length, ?_, .allocated hpos (by omega) hfill', hframe, hmis⟩
  have hroom : resizeRoom sizeofT h (ofBlock b xs.length cap) n =
      .ok (h, ofBlock b xs.length cap) := by
    rw [resizeRoom, if_neg (by rw [capacity_ofBlock]; omega)]
  rw [hsum] at hrun
  rw [resize, if_neg (by simp), size_ofBlock, if_neg hgrow, hroom, ok_bind, mBegin_ofBlock,
    Ptr.add, Option.map_some, Nat.zero_add, hlen]
  exact hrun

theorem resize_spec [Inhabited T] {n : ℕ} (hacc : h.Accounted) (hv : Holds tight h v xs)
    (hn : v.mBegin = none → n ≠ 0) (hcap : v.mBegin ≠ none → n ≤ v.capacity)
    (hfit : ∀ m ∈ v.reserveRequest n, sizeofT * m < 2 ^ 64) :
    ∃ h' v', resize sizeofT h v n = .ok (h', v') ∧ Holds tight h' v' (resizeList xs n) ∧
      Effect tight h v h' v' ∧ v.capacity ≤ v'.capacity := by
  cases hv with
  | unallocated =>
    obtain ⟨h', v', hrun, hholds, heff⟩ :=
      resize_unallocated tight hacc (hn rfl) (hfit n (by rfl))
    exact ⟨h', v', hrun, hholds, heff, Nat.zero_le _⟩
  | @allocated b cap xs hpos hle hfill =>
    have hcap : n ≤ cap := by simpa using hcap (by simp)
    have hown : ∀ len, (ofBlock b len cap).Owns b := fun len ↦ (owns_ofBlock ..).mpr rfl
    have hsame : ∀ len, (ofBlock b xs.length cap).capacity ≤ (ofBlock b len cap).capacity := by
      intro len
      rw [capacity_ofBlock, capacity_ofBlock]
    by_cases hshrink : n ≤ xs.length
    · obtain ⟨h', len, hrun, hholds, hframe, hmis⟩ := resize_shrink hpos hle hfill hshrink
      exact ⟨h', _, hrun, hholds, Effect.inside hframe (hown _) (hown _) fun _ ↦ hmis, hsame len⟩
    · obtain ⟨h', len, hrun, hholds, hframe, hmis⟩ := resize_grow hpos hfill hshrink hcap
      exact ⟨h', _, hrun, hholds, Effect.inside hframe (hown _) (hown _) hmis, hsame len⟩

/-- Growth invalidates the end that the loop of `resize` runs to. -/
theorem resize_past_capacity [Inhabited T] {n : ℕ} (hacc : h.Accounted)
    (hv : Holds tight h v xs) (halloc : v.mBegin ≠ none) (hcap : v.capacity < n) :
    resize sizeofT h v n = .error .undefined := by
  cases hv with
  | unallocated => exact absurd rfl halloc
  | @allocated b cap xs hpos hle hfill =>
    rw [capacity_ofBlock] at hcap
    rw [resize, if_neg (by simp), size_ofBlock, if_neg (by omega), mBegin_ofBlock, Ptr.add,
      Option.map_some, resizeRoom, if_pos (by rwa [capacity_ofBlock])]
    rcases Nat.lt_or_ge (slots sizeofT n) xs.length with hshort | hlen
    · rw [growCapacity_short hacc hfill hle (by omega) hshort]
      rfl
    · obtain ⟨h₁, b', hrun₁, hne, ⟨f, hs, -⟩, -⟩ :=
        growCapacity_slots sizeofT hacc hfill hle (n := n) (by omega) hlen
      rw [hrun₁, ok_bind]
      exact constructUntil_runaway hs hlen fun heq ↦ absurd heq hne

/-- A block that was asked for more than a word of bytes ends before its capacity. -/
theorem resize_unallocated_short [Inhabited T] {n : ℕ} (hacc : h.Accounted) (hn : n ≠ 0)
    (hfit : ¬sizeofT * n < 2 ^ 64) : resize sizeofT h {} n = .error .undefined := by
  obtain ⟨h', b, hrun, ⟨f, hs, -⟩, -⟩ :=
    allocateFromNullptr_slots sizeofT True hacc hn
  simp only [resize, if_true, hrun, ok_bind]
  exact constructUntil_runaway hs (Nat.zero_le _) fun _ ↦ slots_lt hfit

/-! ## Copying -/

theorem constructAt_write (h : Heap T) (g : ℕ → Option T) (i : ℕ) (x : T)
    (hs : h.Stores b cap g) (hi : i < cap) :
    ∃ h', constructAt h (some ⟨b, i⟩) x = .ok h' ∧
      h'.Stores b cap (Function.update g i (some x)) ∧ Frame {b} h h' ∧
      (g i = none → h'.misuses = h.misuses) := by
  obtain ⟨h', hrun, hs', hframe, hmis⟩ := constructAt_spec hs hi x
  exact ⟨h', defined_eq_ok hrun, hs', hframe, hmis⟩

theorem store_write (h : Heap T) (g : ℕ → Option T) (i : ℕ) (x : T) (hs : h.Stores b cap g)
    (hi : i < cap) :
    ∃ h', store h (some ⟨b, i⟩) x = .ok h' ∧ h'.Stores b cap (Function.update g i (some x)) ∧
      Frame {b} h h' ∧ (g i ≠ none → h'.misuses = h.misuses) := by
  obtain ⟨h', hrun, hs', hframe, hmis⟩ := assign_spec hs hi x
  exact ⟨h', defined_eq_ok hrun, hs', hframe, fun hlive ↦ by rw [hmis, if_neg hlive]⟩

theorem Filled.live (hfill : Filled tight h b cap xs) :
    ∃ f, h.Stores b cap f ∧ (∀ i < xs.length, f i = xs[i]?) ∧
      ∀ j, 0 ≤ j → j < 0 + xs.length → ∃ x, f j = some x := by
  obtain ⟨f, hs, hxs, -⟩ := hfill
  refine ⟨f, hs, hxs, fun j _ hj ↦ exists_of_slot hxs ?_⟩
  rwa [Nat.zero_add] at hj

theorem copyOf_spec (clean : Prop) (hacc : h.Accounted) (hv : Holds tight h v xs)
    (halloc : v.mBegin ≠ none) (hfit : sizeofT * v.capacity < 2 ^ 64) :
    ∃ h' v', copyOf sizeofT h v = .ok (h', v') ∧ Holds tight h' v' xs ∧ Effect clean h {} h' v' ∧
      v'.capacity = v.capacity := by
  cases hv with
  | unallocated => exact absurd rfl halloc
  | @allocated b cap xs hpos hle hfill =>
    obtain ⟨f, hs, hxs, hlive⟩ := hfill.live
    rw [capacity_ofBlock] at hfit
    obtain ⟨h₁, b', hrun₁, ⟨g, hs₁', -, hraw⟩, heff₁⟩ :=
      allocateFromNullptr_spec clean hacc (Nat.pos_iff_ne_zero.mp hpos) hfit
    have hne : b ≠ b' := by
      rintro rfl
      rcases heff₁.taken b ((owns_ofBlock ..).mpr rfl) with hown | hnone
      · exact not_owns_null b hown
      · exact hs.ne_none hnone
    have hs₁ : h₁.Stores b cap f := hs.frame heff₁.frame (by simpa using hne)
    obtain ⟨h₂, hrun₂, hs₂, hframe₂, hmis₂⟩ :=
      copyLoop_spec (i := 0) (· = none) constructAt_write hne hs₁ hs₁' (by omega)
        (by omega) hlive
    refine ⟨h₂, ofBlock b' xs.length cap, ?_, .allocated hpos hle ⟨_, hs₂, fun i hi ↦ ?_, ?_⟩,
      heff₁.trans (Effect.inside hframe₂ ((owns_ofBlock ..).mpr rfl) ((owns_ofBlock ..).mpr rfl)
        fun _ ↦ hmis₂ fun j _ _ ↦ hraw trivial j (Nat.zero_le j)), ?_⟩
    · have hrun₂ : uninitializedCopyN h₁ (some ⟨b, 0⟩) xs.length (some ⟨b', 0⟩) = .ok h₂ := hrun₂
      simp only [copyOf, capacity_ofBlock, hrun₁, ok_bind, size_ofBlock, mBegin_ofBlock, hrun₂]
      simp [ofBlock, Ptr.add, pure_eq_ok]
    · rw [copied, if_pos (by omega), hxs i hi]
    · intro _ i hi
      rw [copied, if_neg (by omega), hraw trivial i (Nat.zero_le i)]
    · rw [capacity_ofBlock, capacity_ofBlock]

/-- The slots after the elements of another vector, or of this one, were assigned to them. -/
theorem overwrite_slots {ys : List T} {src : Vector} (len : ℕ) (hs' : h.Stores b cap g)
    (hsrc : Holds tight h src ys) (hroom : ys.length ≤ cap) :
    ∃ h', overwrite h (ofBlock b len cap) src = .ok (h', ofBlock b ys.length cap) ∧
      h'.Stores b cap (fun j ↦ if j < ys.length then ys[j]? else g j) ∧ Frame {b} h h' ∧
      ((∀ j < ys.length, g j ≠ none) → h'.misuses = h.misuses) := by
  suffices hcopy : ∃ h' f, copyN h src.mBegin ys.length (some ⟨b, 0⟩) = .ok h' ∧
      h'.Stores b cap f ∧ (∀ j, f j = if j < ys.length then ys[j]? else g j) ∧ Frame {b} h h' ∧
      ((∀ j < ys.length, g j ≠ none) → h'.misuses = h.misuses) by
    obtain ⟨h', f, hrun, hs, hf, hframe, hmis⟩ := hcopy
    refine ⟨h', ?_, funext hf ▸ hs, hframe, hmis⟩
    simp only [overwrite, hsrc.size_eq, mBegin_ofBlock, hrun, ok_bind]
    simp [ofBlock, Ptr.add, pure_eq_ok]
  cases hsrc with
  | unallocated => exact ⟨h, g, rfl, hs', fun j ↦ rfl, Frame.refl _ _, fun _ ↦ rfl⟩
  | @allocated b' cap' ys hpos' hle' hfill' =>
    obtain ⟨f, hs, hys, hlive⟩ := hfill'.live
    rcases eq_or_ne b' b with rfl | hne
    · obtain ⟨h', hrun, hs₁, hframe, hmis⟩ := copyN_self_spec hs (by omega) hlive
      obtain ⟨rfl, rfl⟩ := hs.unique hs'
      refine ⟨h', f, hrun, hs₁, fun j ↦ ?_, hframe, fun _ ↦ hmis⟩
      split
      · next hj => exact hys j hj
      · rfl
    · obtain ⟨h', hrun, hs₁, hframe, hmis⟩ :=
        copyLoop_spec (i := 0) (· ≠ none) store_write hne hs hs' (by omega) (by omega)
          hlive
      refine ⟨h', _, hrun, hs₁, fun j ↦ ?_, hframe, fun hg ↦ hmis fun j _ hj ↦ hg j (by omega)⟩
      rw [copied]
      by_cases hj : j < ys.length
      · rw [if_pos (by omega), if_pos hj, hys j hj]
      · rw [if_neg (by omega), if_neg hj]

theorem overwrite_spec {ys : List T} {src : Vector} (hloose : ¬tight)
    (hv : Holds tight h v xs) (hsrc : Holds tight h src ys) (halloc : v.mBegin ≠ none)
    (hroom : ys.length ≤ v.capacity) :
    ∃ h' v', overwrite h v src = .ok (h', v') ∧ Holds tight h' v' ys ∧ Effect tight h v h' v' ∧
      v'.capacity = v.capacity := by
  cases hv with
  | unallocated => exact absurd rfl halloc
  | @allocated b cap xs hpos hle hfill =>
    rw [capacity_ofBlock] at hroom
    obtain ⟨g, hs', -⟩ := hfill
    obtain ⟨h', hrun, hs, hframe, -⟩ := overwrite_slots xs.length hs' hsrc hroom
    refine ⟨h', ofBlock b ys.length cap, hrun,
      .allocated hpos hroom ⟨_, hs, fun i hi ↦ if_pos hi, fun ht ↦ absurd ht hloose⟩,
      Effect.inside hframe ((owns_ofBlock ..).mpr rfl) ((owns_ofBlock ..).mpr rfl)
        fun ht ↦ absurd ht hloose, ?_⟩
    rw [capacity_ofBlock, capacity_ofBlock]

end Vector

end FastInAHurry
