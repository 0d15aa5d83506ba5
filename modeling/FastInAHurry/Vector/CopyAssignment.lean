import FastInAHurry.Vector.Capacity

/-!
# Assigning a vector to another one

`operator=` reserves the size of its source and copies with `std::copy_n`, which assigns to every
slot it writes and destroys nothing. A slot behind the old end is raw memory, and an element behind
the new end stays where it is without a vector that would destroy it. The two cannot balance each
other: the assignment leaves exactly the slots below the new size constructed, without a misuse, if
and only if those were the constructed ones before.

A vector whose own constructed slots are those below its size is one of the size of the source
then. There are reachable vectors that are not of this kind, since an earlier assignment of a
shorter vector leaves elements behind the end; assigning one that covers them is right.
-/

namespace FastInAHurry

open Blocks Heap Runs

namespace Vector

variable {T : Type} {tight : Prop} {sizeofT : ℕ+} {h h' : Heap T} {v src : Vector} {xs ys : List T}
  {b cap : ℕ} {g : ℕ → Option T}

/-- Exactly the first `n` slots of the vector's block hold an element. -/
def ConstructedBelow (h : Heap T) (v : Vector) (n : ℕ) : Prop :=
  ∃ b cap g, v.mBegin = some ⟨b, 0⟩ ∧ h.Stores b cap g ∧ ∀ j, g j ≠ none ↔ j < n

/-- The slots behind the end of a vector that is tight. -/
theorem Holds.raw (hv : Holds True h v xs) (hs : h.Stores b cap g)
    (hbegin : v.mBegin = some ⟨b, 0⟩) : ∀ j, v.size ≤ j → g j = none := by
  cases hv with
  | unallocated => cases hbegin
  | @allocated b' cap' xs hpos hle hfill =>
    obtain ⟨f, hs', -, hraw⟩ := hfill
    obtain rfl : b' = b := by simpa using hbegin
    obtain ⟨-, rfl⟩ := hs.unique hs'
    rw [size_ofBlock]
    exact hraw trivial

/-- For a vector without elements behind its end, these are the slots of its list. -/
theorem Holds.constructedBelow_iff (hv : Holds True h v xs) (halloc : v.mBegin ≠ none) (n : ℕ) :
    ConstructedBelow h v n ↔ v.size = n := by
  cases hv with
  | unallocated => exact absurd rfl halloc
  | @allocated b cap xs hpos hle hfill =>
    obtain ⟨f, hs, hxs, hraw⟩ := hfill
    have hlive : ∀ j, f j ≠ none ↔ j < xs.length := by
      intro j
      by_cases hj : j < xs.length
      · simp [hxs j hj, hj]
      · simp [hraw trivial j (by omega), hj]
    rw [size_ofBlock]
    constructor
    · rintro ⟨b', cap', g, hbegin, hs', hg⟩
      obtain rfl : b = b' := by simpa using hbegin
      obtain ⟨-, rfl⟩ := hs.unique hs'
      have hboth : ∀ j, j < xs.length ↔ j < n := fun j ↦ (hlive j).symm.trans (hg j)
      have h₁ := hboth xs.length
      have h₂ := hboth n
      omega
    · rintro rfl
      exact ⟨b, cap, f, rfl, hs, hlive⟩

/-! ## What `copy_n` writes -/

/-- A loop that returns has kept the other slots, and if it has assigned to no raw memory, every
slot it has written to held an element. -/
theorem copyLoop_store_ok {first : Option Ptr} {n i : ℕ} (hs : h.Stores b cap g)
    (hrun : copyLoop store h first (some ⟨b, i⟩) n = .ok h') :
    (∃ g', h'.Stores b cap g' ∧ ∀ j, ¬(i ≤ j ∧ j < i + n) → g' j = g j) ∧
      h.misuses.length ≤ h'.misuses.length ∧
      (h'.misuses.length = h.misuses.length → ∀ j, i ≤ j → j < i + n → g j ≠ none) := by
  induction n generalizing h g i first with
  | zero =>
    obtain rfl := Except.ok.inj hrun
    exact ⟨⟨g, hs, fun _ _ ↦ rfl⟩, Nat.le_refl _, fun _ j hij hj ↦ absurd hj (by omega)⟩
  | succ n ih =>
    obtain ⟨x, -, hrun⟩ := bind_eq_ok hrun
    obtain ⟨h₁, hstore, hrun⟩ := bind_eq_ok hrun
    rcases Nat.lt_or_ge i cap with hi | hi
    · obtain ⟨h₁', hassign, hs₁, -, hmis₁⟩ := assign_spec hs hi x
      have hsame : store h (some ⟨b, i⟩) x = .ok h₁' := defined_eq_ok hassign
      obtain rfl := Except.ok.inj (hsame.symm.trans hstore)
      obtain ⟨⟨g', hs', hkept⟩, hle, hlive⟩ := ih (i := i + 1) hs₁ hrun
      have hgrow : h.misuses.length ≤ h₁'.misuses.length := by
        rw [hmis₁]
        split
        · simp
        · exact Nat.le_refl _
      refine ⟨⟨g', hs', fun j hj ↦ ?_⟩, hgrow.trans hle, fun heq j hij hj ↦ ?_⟩
      · rw [hkept j (by omega), Function.update_of_ne (by omega)]
      · rcases hij.eq_or_lt with rfl | hij
        · -- a misuse would still be on record
          intro hraw
          rw [if_pos hraw] at hmis₁
          rw [hmis₁, List.length_append, List.length_singleton] at hle
          omega
        · have hj := hlive (by omega) j (by omega) (by omega)
          rwa [Function.update_of_ne (by omega)] at hj
    · have hout : store h (some ⟨b, i⟩) x = .error .undefined := by
        simp [store, Heap.assign, hs.locate_eq_none hi, defined]
      rw [hout] at hstore
      cases hstore

/-- The second half of the assignment, which returns. -/
theorem overwrite_eq_ok {len room n : ℕ} {r : Heap T × Vector} (hs : h.Stores b cap g)
    (hn : src.size = n) (hrun : overwrite h (ofBlock b len room) src = .ok r) :
    r.2 = ofBlock b n room ∧
      (∃ g', r.1.Stores b cap g' ∧ ∀ j, n ≤ j → g' j = g j) ∧
      h.misuses.length ≤ r.1.misuses.length ∧
      (r.1.misuses.length = h.misuses.length → ∀ j < n, g j ≠ none) := by
  obtain ⟨h₁, hcopy, hr⟩ := bind_eq_ok hrun
  rw [hn] at hcopy hr
  obtain rfl := Except.ok.inj hr
  obtain ⟨⟨g', hs', hkept⟩, hle, hlive⟩ := copyLoop_store_ok (i := 0) hs hcopy
  refine ⟨?_, ⟨g', hs', fun j hj ↦ hkept j (by omega)⟩, hle,
    fun heq j hj ↦ hlive heq j (Nat.zero_le j) (by omega)⟩
  simp [ofBlock, Ptr.add]

/-- An assignment to raw memory stays on record. -/
theorem overwrite_raw {len room j : ℕ} {r : Heap T × Vector} (hs : h.Stores b cap g)
    (hraw : g j = none) (hj : j < src.size)
    (hrun : overwrite h (ofBlock b len room) src = .ok r) :
    h.misuses.length < r.1.misuses.length := by
  obtain ⟨-, -, hle, hlive⟩ := overwrite_eq_ok hs rfl hrun
  rcases hle.eq_or_lt with heq | hlt
  · exact absurd hraw (hlive heq.symm j hj)
  · exact hlt

/-- A reservation that asks for a block leaves raw memory behind the elements. -/
theorem reserve_moves {n : ℕ} {h₁ : Heap T} {v₁ : Vector} (hacc : h.Accounted)
    (hholds : Holds False h v xs) (hmove : v.mBegin = none ∨ v.capacity < n)
    (hrun : reserve sizeofT h v n = .ok (h₁, v₁)) :
    ∃ b len cap g, v₁ = ofBlock b len n ∧ h₁.Stores b cap g ∧ g len = none ∧ len < n ∧
      h.misuses.length ≤ h₁.misuses.length := by
  cases hholds with
  | unallocated =>
    rw [reserve, if_pos rfl] at hrun
    rcases eq_or_ne n 0 with rfl | hn
    · cases hrun
    · obtain ⟨h', b, halloc, ⟨g, hs, -, hraw⟩, heff⟩ :=
        allocateFromNullptr_slots sizeofT True hacc hn
      obtain ⟨rfl, rfl⟩ := Prod.mk.inj (Except.ok.inj (halloc.symm.trans hrun))
      exact ⟨b, 0, _, g, rfl, hs, hraw trivial 0 (Nat.zero_le _), Nat.pos_of_ne_zero hn,
        (congrArg List.length (heff.misuses trivial)).ge⟩
  | @allocated b cap xs hpos hle hfill =>
    have hgrow : cap < n := by simpa using hmove
    rw [reserve, if_neg (by simp), capacity_ofBlock, if_neg (by omega)] at hrun
    rcases Nat.lt_or_ge (slots sizeofT n) xs.length with hshort | hlen
    · rw [growCapacity_short hacc hfill hle (by omega) hshort] at hrun
      cases hrun
    · obtain ⟨h', b', hgrown, -, ⟨g, hs, -, hraw⟩, -, hprefix⟩ :=
        growCapacity_slots sizeofT hacc hfill hle (n := n) (by omega) hlen
      obtain ⟨rfl, rfl⟩ := Prod.mk.inj (Except.ok.inj (hgrown.symm.trans hrun))
      exact ⟨b', xs.length, _, g, rfl, hs, hraw trivial _ (Nat.le_refl _), by omega,
        hprefix.length_le⟩

/-! ## The call -/

section World

variable {ι : Type} [DecidableEq ι] {w w' : World ι T} {i other : ι}

/-- The two halves of a call that returns. Assigned to itself, the vector that is copied is the one
that the first half has changed. -/
theorem copyAssign_eq_ok {o : Outcome T} (hv : w.vectors i = some v)
    (hsrc : w.vectors other = some src) (hr : w.copyAssign sizeofT i other = .ok (w', o)) :
    ∃ h₁ v₁ h₂ v₂, reserve sizeofT w.heap v src.size = .ok (h₁, v₁) ∧
      overwrite h₁ v₁ (if other = i then v₁ else src) = .ok (h₂, v₂) ∧
      w'.heap = h₂ ∧ w'.vectors i = some v₂ ∧ ∀ j ≠ i, w'.vectors j = w.vectors j := by
  obtain ⟨src', hget, hr⟩ := bind_eq_ok hr
  obtain rfl := Option.some.inj (hsrc.symm.trans (World.get_eq_ok hget))
  obtain ⟨⟨w₁, o₁⟩, hmod, hr⟩ := bind_eq_ok hr
  obtain ⟨v', h₁, v₁, hv', hreserve, heq⟩ := World.modify_eq_ok hmod
  obtain rfl := Option.some.inj (hv.symm.trans hv')
  obtain ⟨rfl, -⟩ := Prod.mk.inj heq
  obtain ⟨src₁, hget₁, hr⟩ := bind_eq_ok hr
  obtain ⟨v₁', h₂, v₂, hv₁', hover, heq₂⟩ := World.modify_eq_ok hr
  obtain ⟨rfl, -⟩ := Prod.mk.inj heq₂
  rw [World.set_self] at hv₁'
  obtain rfl := Option.some.inj hv₁'
  have hsrc₁ : src₁ = if other = i then v₁ else src := by
    have hget₁ := World.get_eq_ok hget₁
    split
    · next heq =>
      subst heq
      rw [World.set_self] at hget₁
      exact (Option.some.inj hget₁).symm
    · next hne =>
      rw [World.set_of_ne _ _ hne] at hget₁
      exact Option.some.inj (hget₁.symm.trans hsrc)
  rw [hsrc₁] at hover
  refine ⟨h₁, v₁, h₂, v₂, hreserve, hover, rfl, World.set_self .., fun j hne ↦ ?_⟩
  rw [World.set_of_ne _ _ hne]
  exact World.set_of_ne _ _ hne

/-- What an assignment should do: the vector has the elements of the other one and constructed
slots nowhere else, the other one is as it was, and no slot was misused. -/
structure AssignsWell [Inhabited T] (sizeofT : ℕ+) (w : World ι T) (i other : ι) (src : Vector)
    (ys : List T) (w' : World ι T) : Prop where
  returns : w.step sizeofT (.copyAssign i other) = .ok (w', .done)
  holds : ∃ a, w'.vectors i = some a ∧ Holds True w'.heap a ys
  source : other ≠ i → w'.vectors other = w.vectors other ∧
    ∀ b, src.Owns b → w'.heap.blocks b = w.heap.blocks b
  misuses : w'.heap.misuses = w.heap.misuses

variable [Inhabited T]

/-- Raw memory and elements behind the end do not go away. -/
theorem AssignsWell.constructedBelow (hacc : w.heap.Accounted) (hv : w.vectors i = some v)
    (hholds : Holds False w.heap v xs) (hsrc : w.vectors other = some src)
    (halloc : src.mBegin ≠ none) (h : AssignsWell sizeofT w i other src ys w') :
    ConstructedBelow w.heap v src.size := by
  obtain ⟨h₁, v₁, h₂, v₂, hreserve, hover, hheap, hvec, -⟩ :=
    copyAssign_eq_ok hv hsrc h.returns
  have hmis : h₂.misuses.length = w.heap.misuses.length := by rw [← hheap, h.misuses]
  have hself : other = i → src = v := by
    rintro rfl
    exact Option.some.inj (hsrc.symm.trans hv)
  by_cases hmove : v.mBegin = none ∨ v.capacity < src.size
  · obtain ⟨b, len, cap, g, rfl, hs, hraw, hlen, hmore⟩ := reserve_moves hacc hholds hmove hreserve
    have hne : other ≠ i := by
      intro heq
      rw [hself heq] at halloc hmove
      rcases hmove with hnull | hgrow
      · exact halloc hnull
      · rw [hholds.size_eq] at hgrow
        exact absurd hholds.length_le (Nat.not_le.mpr hgrow)
    rw [if_neg hne] at hover
    have hless : h₁.misuses.length < h₂.misuses.length := overwrite_raw hs hraw hlen hover
    omega
  · obtain ⟨hown, hroom⟩ := not_or.mp hmove
    cases hholds with
    | unallocated => exact absurd rfl hown
    | @allocated b cap xs hpos hle hfill =>
      rw [capacity_ofBlock, Nat.not_lt] at hroom
      rw [reserve, if_neg (by simp), capacity_ofBlock, if_pos hroom] at hreserve
      obtain ⟨rfl, rfl⟩ := Prod.mk.inj (Except.ok.inj hreserve)
      have hsize : (if other = i then ofBlock b xs.length cap else src).size = src.size := by
        split
        · next heq => rw [hself heq]
        · rfl
      obtain ⟨g, hs, -⟩ := hfill
      obtain ⟨rfl, ⟨g', hs', hkept⟩, -, hlive⟩ := overwrite_eq_ok hs hsize hover
      refine ⟨b, cap, g, rfl, hs, fun j ↦ ⟨fun hj ↦ ?_, hlive hmis j⟩⟩
      by_contra hge
      rw [← hkept j (Nat.not_lt.mp hge)] at hj
      obtain ⟨a, ha, hholds⟩ := h.holds
      obtain rfl := Option.some.inj (hvec.symm.trans ha)
      rw [hheap] at hholds
      refine hj (hholds.raw hs' rfl j ?_)
      rw [size_ofBlock]
      exact Nat.not_lt.mp hge

theorem exists_assignsWell (hacc : w.heap.Accounted) (hv : w.vectors i = some v)
    (hholds : Holds False w.heap v xs) (hsrc : w.vectors other = some src)
    (hsrcholds : Holds False w.heap src ys)
    (hapart : other ≠ i → ∀ b, src.Owns b → ¬v.Owns b)
    (hbelow : ConstructedBelow w.heap v src.size) :
    ∃ w', AssignsWell sizeofT w i other src ys w' := by
  obtain ⟨b, cap, g, hbegin, hs, hg⟩ := hbelow
  rw [hsrcholds.size_eq] at hg
  cases hholds with
  | unallocated => cases hbegin
  | @allocated b' cap' xs hpos hle hfill =>
    obtain rfl : b' = b := by simpa using hbegin
    obtain ⟨f, hs', -⟩ := hfill
    obtain ⟨rfl, rfl⟩ := hs.unique hs'
    have hroom : ys.length ≤ cap := by
      by_contra hcon
      exact (hg cap).mpr (Nat.not_le.mp hcon) (hs.eq_none hacc (Nat.le_refl cap))
    have hreserve : reserve sizeofT w.heap (ofBlock b' xs.length cap) src.size =
        .ok (w.heap, ofBlock b' xs.length cap) := by
      rw [reserve, if_neg (by simp), capacity_ofBlock, hsrcholds.size_eq, if_pos hroom]
    obtain ⟨h₂, hover, hs₂, hframe, hmis⟩ :=
      overwrite_slots xs.length hs hsrcholds hroom
    have hmodify₁ := World.modify_eq (f := fun h v ↦ reserve sizeofT h v src.size) hv hreserve
    let w₁ : World ι T := { w with heap := w.heap }.set i (some (ofBlock b' xs.length cap))
    have hsame : w₁.vectors = w.vectors := by
      show Function.update w.vectors i _ = w.vectors
      rw [← hv, Function.update_eq_self]
    have hmodify₂ := World.modify_eq (w := w₁) (f := fun h v ↦ overwrite h v src)
      (by rw [hsame, hv]) hover
    refine ⟨{ w₁ with heap := h₂ }.set i (some (ofBlock b' ys.length cap)), ?_, ?_,
      fun hne ↦ ?_, ?_⟩
    · have hsrc₁ : w₁.get other = .ok src := World.get_eq (by rw [hsame, hsrc])
      simp only [World.step, World.copyAssign, World.get_eq hsrc, ok_bind, hmodify₁]
      exact (congrArg (· >>= _) hsrc₁).trans hmodify₂
    · refine ⟨_, World.set_self .., .allocated hpos hroom ⟨_, hs₂, fun j hj ↦ if_pos hj, ?_⟩⟩
      intro _ j hj
      by_contra hlive
      rw [if_neg (Nat.not_lt.mpr hj)] at hlive
      exact absurd ((hg j).mp hlive) (Nat.not_lt.mpr hj)
    · refine ⟨?_, fun b hb ↦ hframe.others b ?_⟩
      · rw [World.set_of_ne _ _ hne]
        exact congrFun hsame other
      · rintro rfl
        exact hapart hne _ hb ((owns_ofBlock ..).mpr rfl)
    · exact hmis fun j hj ↦ (hg j).mpr hj

/-- **Assigning a vector of a run** whose requests fit a word to another one. The vector is left
with the elements of the other one, in constructed slots and nowhere else, exactly if its
constructed slots were as many as the other one has elements; if no element was left behind its end,
this is to say that the two vectors have the same size. -/
theorem copyAssign_iff (sizeofT : ℕ+) (calls : List (Call ι T)) (w : World ι T) (i other : ι)
    (v src : Vector)
    (hfits : Along (World.advance sizeofT) (World.Fits sizeofT) World.init calls)
    (hrun : Runs.exec (World.advance sizeofT) World.init calls = some w)
    (hv : w.vectors i = some v) (hsrc : w.vectors other = some src) (halloc : src.mBegin ≠ none) :
    ∃ ys, Holds False w.heap src ys ∧
      ((∃ w', AssignsWell sizeofT w i other src ys w') ↔ ConstructedBelow w.heap v src.size) ∧
      ∀ xs, Holds True w.heap v xs → v.mBegin ≠ none →
        (ConstructedBelow w.heap v src.size ↔ v.size = src.size) := by
  obtain ⟨l, hrel⟩ := Rel.of_fitting_run hfits hrun
  obtain ⟨xs, -, hholds⟩ := hrel.holds i v hv
  obtain ⟨ys, -, hsrcholds⟩ := hrel.holds other src hsrc
  refine ⟨ys, hsrcholds, ⟨fun ⟨w', h⟩ ↦ ?_, fun hbelow ↦ ?_⟩,
    fun xs htight hown ↦ htight.constructedBelow_iff hown _⟩
  · exact h.constructedBelow hrel.accounted hv hholds hsrc halloc
  · refine exists_assignsWell hrel.accounted hv hholds hsrc hsrcholds (fun hne b hb hb' ↦ ?_) hbelow
    exact hne (hrel.distinct other i src v b hsrc hv hb hb')

/-- Two vectors of one element each. -/
theorem copyAssign_iff_same_size :
    ∃ w : World ℕ ℕ,
      Runs.exec (World.advance 8) World.init
        [.construct 0, .emplaceBack 0 7, .construct 1, .emplaceBack 1 8] = some w ∧
      ∃ src ys w', AssignsWell 8 w 0 1 src ys w' := by
  have hmeets : Along (World.advance 8) (fun w c ↦ Permitted w c ∧ w.Fits 8 c) World.init
      ([.construct 0, .emplaceBack 0 7, .construct 1, .emplaceBack 1 8] : List (Call ℕ ℕ)) := by
    decide +kernel
  have hvectors : (Runs.exec (World.advance 8) World.init
      ([.construct 0, .emplaceBack 0 7, .construct 1, .emplaceBack 1 8] : List (Call ℕ ℕ))).map
        (fun w ↦ (w.vectors 0, w.vectors 1)) =
      some (some (ofBlock 0 1 1), some (ofBlock 1 1 1)) := by
    decide +kernel
  obtain ⟨w, hw, hrel⟩ := Rel.exec hmeets
  rw [hw, Option.map_some, Option.some_inj, Prod.mk.injEq] at hvectors
  obtain ⟨xs, -, hholds⟩ := hrel.holds 0 _ hvectors.1
  obtain ⟨ys, -, hiff, hsize⟩ := copyAssign_iff 8 _ w 0 1 _ _ (by decide +kernel) hw hvectors.1
    hvectors.2 (by simp)
  obtain ⟨w', h⟩ := hiff.mpr ((hsize xs hholds (by simp)).mpr (by decide))
  exact ⟨w, hw, _, ys, w', h⟩

/-- The first element is assigned to raw memory. -/
theorem copyAssign_to_raw :
    Along (World.advance 8) (World.Fits 8) World.init
        ([.construct 0, .reserve 0 4, .construct 1, .emplaceBack 1 9, .copyAssign 0 1] :
          List (Call ℕ ℕ)) ∧
      ((Runs.exec (World.advance 8) World.init
          ([.construct 0, .reserve 0 4, .construct 1, .emplaceBack 1 9] : List (Call ℕ ℕ))).map
        fun w ↦ (w.heap.misuses,
          (w.step 8 (.copyAssign 0 1)).map fun r ↦ r.1.heap.misuses))
        = some ([], .ok [.assignRaw]) := by
  exact ⟨by decide +kernel, by decide +kernel⟩

end World

end Vector

end FastInAHurry
