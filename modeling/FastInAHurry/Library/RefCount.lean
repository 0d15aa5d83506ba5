import Mathlib.Data.Set.Card

/-!
# Reference counts

Holders refer to counted things. The count of a thing that exists is the number of its holders,
except that a holder between giving up its reference and the end of the operation that gives it up
no longer counts. A thing whose count is zero still exists until the one holder that saw the count
drop has ended it.

Holders form any type, so the number of holders is `Set.encard`, and one holder moving at a time is
all that the lemmas need.

Where things own each other without cycles, what the last reference takes with it is found by
induction. The second half is about tokens: what is handed over is at exactly one place or was
consumed exactly once.
-/

namespace RefCount

variable {ι β : Type*}

/-- Counts are exact, and a count of zero is somebody's to deal with. -/
structure Counts (holds ending : ι → Option β) (count : β → Option ℕ) : Prop where
  exact : ∀ b n, count b = some n → {i | holds i = some b}.encard = n
  live : ∀ i b, holds i = some b → count b ≠ none
  ending_zero : ∀ i b, ending i = some b → count b = some 0
  zero_ending : ∀ b, count b = some 0 → ∃ i, ending i = some b
  ending_unique : ∀ i j b, ending i = some b → ending j = some b → i = j

variable {holds ending : ι → Option β} {count : β → Option ℕ} {i j : ι} {b : β} {n : ℕ}

theorem Counts.pos (h : Counts holds ending count) (hi : holds i = some b)
    (hn : count b = some n) : 0 < n := by
  rw [Nat.pos_iff_ne_zero]
  rintro rfl
  have hempty : {i | holds i = some b} = ∅ := by
    rw [← Set.encard_eq_zero]
    exact h.exact b 0 hn
  exact Set.notMem_empty i (hempty ▸ hi)

theorem Counts.exists_succ (h : Counts holds ending count) (hi : holds i = some b) :
    ∃ n, count b = some (n + 1) := by
  obtain ⟨n, hn⟩ := Option.ne_none_iff_exists'.mp (h.live i b hi)
  obtain ⟨m, rfl⟩ := Nat.exists_eq_add_one.mpr (h.pos hi hn)
  exact ⟨m, hn⟩

theorem Counts.not_holds_of_zero (h : Counts holds ending count) (hn : count b = some 0) (i : ι) :
    holds i ≠ some b :=
  fun hi ↦ absurd (h.pos hi hn) (Nat.lt_irrefl 0)

variable [DecidableEq ι]

/-! ## The holders of a thing -/

theorem holders_update_other (hi : holds i ≠ some b) {o : Option β} (ho : o ≠ some b) :
    {k | Function.update holds i o k = some b} = {k | holds k = some b} := by
  ext k
  rcases eq_or_ne k i with rfl | hne
  · simp [hi, ho]
  · simp [hne]

theorem holders_gain (hi : holds i ≠ some b) :
    {k | Function.update holds i (some b) k = some b}.encard =
      {k | holds k = some b}.encard + 1 := by
  rw [← Set.encard_insert_of_notMem (a := i) (s := {k | holds k = some b}) hi]
  congr 1
  ext k
  rcases eq_or_ne k i with rfl | hne
  · simp
  · simp [hne]

theorem holders_lose (hi : holds i = some b) {o : Option β} (ho : o ≠ some b) :
    {k | Function.update holds i o k = some b}.encard + 1 = {k | holds k = some b}.encard := by
  rw [← Set.encard_sdiff_singleton_add_one (a := i) (s := {k | holds k = some b}) hi]
  congr 2
  ext k
  rcases eq_or_ne k i with rfl | hne
  · simp [ho]
  · simp [hne]

theorem update_eq_some_cases {γ : Type*} {f : ι → Option γ} {o : Option γ} {x : γ}
    (hj : Function.update f i o j = some x) : (j = i ∧ o = some x) ∨ (j ≠ i ∧ f j = some x) := by
  rcases eq_or_ne j i with rfl | hne
  · rw [Function.update_self] at hj
    exact Or.inl ⟨rfl, hj⟩
  · rw [Function.update_of_ne hne] at hj
    exact Or.inr ⟨hne, hj⟩

theorem eq_some_of_update_none {γ : Type*} {f : ι → Option γ} {x : γ}
    (hj : Function.update f i none j = some x) : j ≠ i ∧ f j = some x := by
  rcases update_eq_some_cases hj with ⟨-, hnone⟩ | hj
  · cases hnone
  · exact hj

/-- Moving what is at `j` to the empty `i` exchanges the two. -/
theorem update_relocate {γ : Type*} {f : ι → Option γ} (hi : f i = none) :
    Function.update (Function.update f j none) i (f j) = fun k ↦ f (Equiv.swap i j k) := by
  funext k
  rcases eq_or_ne k i with rfl | hki
  · rw [Function.update_self, Equiv.swap_apply_left]
  · rw [Function.update_of_ne hki]
    rcases eq_or_ne k j with rfl | hkj
    · rw [Function.update_self, Equiv.swap_apply_right, hi]
    · rw [Function.update_of_ne hkj, Equiv.swap_apply_of_ne_of_ne hki hkj]

/-! ## One holder moves -/

variable [DecidableEq β]

omit [DecidableEq ι] [DecidableEq β] in
/-- A thing with a holder is not about to end. -/
theorem Counts.not_ending (h : Counts holds ending count) (hn : count b = some (n + 1)) (j : ι) :
    ending j ≠ some b := by
  intro hj
  rw [h.ending_zero j b hj] at hn
  cases hn

omit [DecidableEq β] in
/-- Somebody is left with a thing that nobody was left with before. -/
theorem Counts.ending_unique_update (h : Counts holds ending count) {o : Option β}
    (ho : ∀ b, o = some b → ∀ j, ending j ≠ some b) {k : ι}
    (hj : Function.update ending i o j = some b) (hk : Function.update ending i o k = some b) :
    j = k := by
  rcases update_eq_some_cases hj with ⟨hji, hoj⟩ | ⟨-, hbefore⟩
  · rcases update_eq_some_cases hk with ⟨hki, -⟩ | ⟨-, hbefore'⟩
    · exact hji.trans hki.symm
    · exact absurd hbefore' (ho b hoj k)
  · rcases update_eq_some_cases hk with ⟨-, hok⟩ | ⟨-, hbefore'⟩
    · exact absurd hbefore (ho b hok j)
    · exact h.ending_unique j k b hbefore hbefore'

/-- **Release.** The holder that sees the count drop to zero is left with the thing. -/
theorem Counts.drop (h : Counts holds ending count) (hi : holds i = some b)
    (hn : count b = some (n + 1)) (hend : ending i = none) :
    Counts (Function.update holds i none)
      (Function.update ending i (if n = 0 then some b else none))
      (Function.update count b (some n)) := by
  have hleft : ∀ b', (if n = 0 then some b else none) = some b' → n = 0 ∧ b' = b := by
    intro b' heq
    split at heq
    · next hzero => exact ⟨hzero, (Option.some.inj heq).symm⟩
    · cases heq
  refine ⟨fun b' m hm ↦ ?_, fun j b' hj ↦ ?_, fun j b' hj ↦ ?_, fun b' hb' ↦ ?_,
    fun j k b' ↦ h.ending_unique_update fun b' hb' ↦ (hleft b' hb').2 ▸ h.not_ending hn⟩
  · rcases eq_or_ne b' b with rfl | hb
    · obtain rfl : n = m := by simpa using hm
      have hlose := holders_lose hi (o := none) (by simp)
      rw [h.exact b' (n + 1) hn, Nat.cast_add, Nat.cast_one] at hlose
      exact ENat.add_left_injective_of_ne_top ENat.one_ne_top hlose
    · rw [Function.update_of_ne hb] at hm
      rw [holders_update_other (by simpa [hi] using Ne.symm hb) (by simp)]
      exact h.exact b' m hm
  · have hlive := h.live j b' (eq_some_of_update_none hj).2
    rcases eq_or_ne b' b with rfl | hb
    · simp
    · rwa [Function.update_of_ne hb]
  · rcases update_eq_some_cases hj with ⟨-, hleft'⟩ | ⟨-, hother⟩
    · obtain ⟨hzero, rfl⟩ := hleft b' hleft'
      rw [Function.update_self, hzero]
    · have hb : b' ≠ b := by
        rintro rfl
        exact h.not_ending hn j hother
      rw [Function.update_of_ne hb]
      exact h.ending_zero j b' hother
  · rcases eq_or_ne b' b with rfl | hb
    · have hzero : n = 0 := by simpa using hb'
      exact ⟨i, by rw [Function.update_self, if_pos hzero]⟩
    · rw [Function.update_of_ne hb] at hb'
      obtain ⟨j, hj⟩ := h.zero_ending b' hb'
      have hne : j ≠ i := by
        rintro rfl
        rw [hend] at hj
        cases hj
      exact ⟨j, by rw [Function.update_of_ne hne, hj]⟩

/-- A holder more, with the count that goes with it. -/
theorem Counts.gain (h : Counts holds ending count) (hi : holds i = none) (hb : count b ≠ some 0)
    (hn : {k | holds k = some b}.encard + 1 = n) :
    Counts (Function.update holds i (some b)) ending (Function.update count b (some n)) := by
  refine ⟨fun b' m hm ↦ ?_, fun j b' hj ↦ ?_, fun j b' hj ↦ ?_, fun b' hb' ↦ ?_, h.ending_unique⟩
  · rcases eq_or_ne b' b with rfl | hne
    · obtain rfl : n = m := by simpa using hm
      rw [holders_gain (by simp [hi]), hn]
    · rw [Function.update_of_ne hne] at hm
      rw [holders_update_other (by simp [hi]) (by simpa using Ne.symm hne)]
      exact h.exact b' m hm
  · rcases update_eq_some_cases hj with ⟨rfl, hb'⟩ | ⟨-, hj⟩
    · obtain rfl := Option.some.inj hb'
      simp
    · rcases eq_or_ne b' b with rfl | hne
      · simp
      · rw [Function.update_of_ne hne]
        exact h.live j b' hj
  · have hne : b' ≠ b := by
      rintro rfl
      exact hb (h.ending_zero j b' hj)
    rw [Function.update_of_ne hne]
    exact h.ending_zero j b' hj
  · rcases eq_or_ne b' b with rfl | hne
    · obtain rfl : n = 0 := by simpa using hb'
      simp at hn
    · rw [Function.update_of_ne hne] at hb'
      exact h.zero_ending b' hb'

/-- **Acquire.** -/
theorem Counts.take (h : Counts holds ending count) (hi : holds i = none)
    (hn : count b = some (n + 1)) :
    Counts (Function.update holds i (some b)) ending
      (Function.update count b (some (n + 1 + 1))) := by
  refine h.gain hi (by simp [hn]) ?_
  rw [h.exact b (n + 1) hn]
  rfl

/-- **A new thing** with one holder. -/
theorem Counts.create (h : Counts holds ending count) (hi : holds i = none)
    (hb : count b = none) :
    Counts (Function.update holds i (some b)) ending (Function.update count b (some 1)) := by
  have hnobody : {k | holds k = some b} = ∅ := by
    rw [Set.eq_empty_iff_forall_notMem]
    exact fun k hk ↦ h.live k b hk hb
  refine h.gain hi (by simp [hb]) ?_
  rw [hnobody, Set.encard_empty, zero_add, Nat.cast_one]

/-- **The end** of a thing without holders. -/
theorem Counts.free (h : Counts holds ending count) (hi : ending i = some b) :
    Counts holds (Function.update ending i none) (Function.update count b none) := by
  have hzero := h.ending_zero i b hi
  refine ⟨fun b' m hm ↦ ?_, fun j b' hj ↦ ?_, fun j b' hj ↦ ?_, fun b' hb' ↦ ?_,
    fun j k b' hj hk ↦ ?_⟩
  · rcases eq_or_ne b' b with rfl | hne
    · simp at hm
    · rw [Function.update_of_ne hne] at hm
      exact h.exact b' m hm
  · have hne : b' ≠ b := by
      rintro rfl
      exact h.not_holds_of_zero hzero j hj
    rw [Function.update_of_ne hne]
    exact h.live j b' hj
  · obtain ⟨hji, hj⟩ := eq_some_of_update_none hj
    have hne : b' ≠ b := by
      rintro rfl
      exact hji (h.ending_unique j i b' hj hi)
    rw [Function.update_of_ne hne]
    exact h.ending_zero j b' hj
  · rcases eq_or_ne b' b with rfl | hne
    · simp at hb'
    · rw [Function.update_of_ne hne] at hb'
      obtain ⟨j, hj⟩ := h.zero_ending b' hb'
      have hji : j ≠ i := by
        rintro rfl
        exact hne (Option.some.inj (hj.symm.trans hi))
      exact ⟨j, by rw [Function.update_of_ne hji, hj]⟩
  · exact h.ending_unique j k b' (eq_some_of_update_none hj).2 (eq_some_of_update_none hk).2

omit [DecidableEq β] in
/-- **Transfer.** A holder hands its reference to one that has none. -/
theorem Counts.transfer (h : Counts holds ending count) (hi : holds i = none)
    (hj : holds j = some b) :
    Counts (Function.update (Function.update holds j none) i (some b)) ending count := by
  rw [← hj, update_relocate hi]
  refine ⟨fun b' n hn ↦ ?_, fun k b' ↦ h.live _ b', h.ending_zero, h.zero_ending, h.ending_unique⟩
  rw [← h.exact b' n hn]
  exact Set.encard_preimage_of_bijective (Equiv.swap i j).bijective {k | holds k = some b'}

/-! ## Ownership without cycles -/

/-- A relation without cycles between finitely many things is well founded. -/
theorem wellFounded_of_acyclic {α : Type*} {r : α → α → Prop} {S : Set α} (hfin : S.Finite)
    (hmem : ∀ a b, r a b → a ∈ S) (hacyclic : ∀ a, ¬Relation.TransGen r a a) : WellFounded r := by
  let below : S → S → Prop := fun a b ↦ Relation.TransGen r a b
  have hfinite : Finite S := hfin
  have htrans : IsTrans S below := ⟨fun _ _ _ ↦ Relation.TransGen.trans⟩
  have hirrefl : Std.Irrefl below := ⟨fun a ↦ hacyclic a⟩
  have hacc : ∀ a : S, Acc r a := by
    intro a
    induction a using (Finite.wellFounded_of_trans_of_irrefl below).induction with
    | _ a ih => exact Acc.intro _ fun b hb ↦ ih ⟨b, hmem b a hb⟩ (Relation.TransGen.single hb)
  exact ⟨fun a ↦ Acc.intro a fun b hb ↦ hacc ⟨b, hmem b a hb⟩⟩

/-! ## Names that are used once -/

/-- A name below the next one is in use or was given back exactly once. -/
structure Named (next : ℕ) (live : ℕ → Prop) (freed : List ℕ) : Prop where
  lt : ∀ b, live b → b < next
  nodup : freed.Nodup
  mem_iff : ∀ b, b ∈ freed ↔ b < next ∧ ¬live b

theorem Named.congr {next : ℕ} {live live' : ℕ → Prop} {freed : List ℕ}
    (h : Named next live freed) (hlive : ∀ b, live' b ↔ live b) : Named next live' freed := by
  obtain rfl : live' = live := by
    funext b
    exact propext (hlive b)
  exact h

theorem Named.create {next : ℕ} {live live' : ℕ → Prop} {freed : List ℕ}
    (h : Named next live freed) (hlive : ∀ b, live' b ↔ b = next ∨ live b) :
    Named (next + 1) live' freed := by
  refine ⟨fun b hb ↦ ?_, h.nodup, fun b ↦ ?_⟩
  · rcases (hlive b).mp hb with rfl | hb
    · exact Nat.lt_succ_self b
    · exact Nat.lt_succ_of_lt (h.lt b hb)
  · rw [h.mem_iff b, hlive b]
    constructor
    · rintro ⟨hlt, hdead⟩
      exact ⟨Nat.lt_succ_of_lt hlt, not_or.mpr ⟨Nat.ne_of_lt hlt, hdead⟩⟩
    · rintro ⟨hlt, hdead⟩
      obtain ⟨hne, hdead⟩ := not_or.mp hdead
      exact ⟨Nat.lt_of_le_of_ne (Nat.le_of_lt_succ hlt) hne, hdead⟩

theorem Named.free {next b : ℕ} {live live' : ℕ → Prop} {freed : List ℕ}
    (h : Named next live freed) (hb : live b) (hlive : ∀ b', live' b' ↔ b' ≠ b ∧ live b') :
    Named next live' (freed ++ [b]) := by
  refine ⟨fun b' hb' ↦ h.lt b' ((hlive b').mp hb').2, ?_, fun b' ↦ ?_⟩
  · refine List.nodup_append.mpr ⟨h.nodup, List.nodup_singleton b, fun x hx y hy ↦ ?_⟩
    obtain rfl := List.mem_singleton.mp hy
    rintro rfl
    exact ((h.mem_iff x).mp hx).2 hb
  · rw [List.mem_append, List.mem_singleton, h.mem_iff b', hlive b']
    constructor
    · rintro (⟨hlt, hdead⟩ | rfl)
      · exact ⟨hlt, fun hlive ↦ hdead hlive.2⟩
      · exact ⟨h.lt b' hb, fun hlive ↦ hlive.1 rfl⟩
    · rintro ⟨hlt, hdead⟩
      rcases eq_or_ne b' b with rfl | hne
      · exact Or.inr rfl
      · exact Or.inl ⟨hlt, fun hlive ↦ hdead ⟨hne, hlive⟩⟩

/-! ## Tokens -/

section Tokens

variable {O D P : Type*}

/-- What was handed over, with its label, is at exactly one place or was consumed exactly once. -/
structure Tokens (given : O → Option D) (place : P → Option (O × D)) (consumed : List (O × D)) :
    Prop where
  given_iff : ∀ o d, given o = some d ↔ (∃ p, place p = some (o, d)) ∨ (o, d) ∈ consumed
  unique : ∀ p q o d e, place p = some (o, d) → place q = some (o, e) → p = q
  alive : ∀ p o d e, place p = some (o, d) → (o, e) ∉ consumed
  nodup : (consumed.map Prod.fst).Nodup

variable {given : O → Option D} {place : P → Option (O × D)} {consumed : List (O × D)} {p q : P}
  {o : O} {d : D} [DecidableEq P]

/-- A token is handed over at an empty place. -/
theorem Tokens.give [DecidableEq O] (h : Tokens given place consumed) (ho : given o = none)
    (hp : place p = none) :
    Tokens (Function.update given o (some d)) (Function.update place p (some (o, d))) consumed := by
  have hnew : ∀ q e, place q ≠ some (o, e) := fun q e hq ↦ by
    rw [(h.given_iff o e).mpr (Or.inl ⟨q, hq⟩)] at ho
    cases ho
  have hnot : ∀ e, (o, e) ∉ consumed := fun e he ↦ by
    rw [(h.given_iff o e).mpr (Or.inr he)] at ho
    cases ho
  have hkeep : ∀ {q x e}, place q = some (x, e) →
      Function.update place p (some (o, d)) q = some (x, e) := by
    intro q x e hq
    rw [Function.update_of_ne, hq]
    rintro rfl
    cases hp.symm.trans hq
  refine ⟨fun x e ↦ ?_, fun q r x e f hq hr ↦ ?_, fun q x e f hq ↦ ?_, h.nodup⟩
  · rcases eq_or_ne x o with rfl | hne
    · rw [Function.update_self]
      constructor
      · intro heq
        exact Or.inl ⟨p, by rw [Function.update_self, Option.some.inj heq]⟩
      · rintro (⟨q, hq⟩ | he)
        · rcases update_eq_some_cases hq with ⟨-, heq⟩ | ⟨-, hq⟩
          · rw [(Prod.mk.inj (Option.some.inj heq)).2]
          · exact absurd hq (hnew q e)
        · exact absurd he (hnot e)
    · rw [Function.update_of_ne hne, h.given_iff x e]
      refine or_congr ⟨fun ⟨q, hq⟩ ↦ ⟨q, hkeep hq⟩, ?_⟩ Iff.rfl
      rintro ⟨q, hq⟩
      rcases update_eq_some_cases hq with ⟨-, heq⟩ | ⟨-, hq⟩
      · exact absurd (Prod.mk.inj (Option.some.inj heq)).1.symm hne
      · exact ⟨q, hq⟩
  · rcases update_eq_some_cases hq with ⟨rfl, heq⟩ | ⟨-, hq'⟩
    · obtain ⟨rfl, -⟩ := Prod.mk.inj (Option.some.inj heq)
      rcases update_eq_some_cases hr with ⟨rfl, -⟩ | ⟨-, hr'⟩
      · rfl
      · exact absurd hr' (hnew r f)
    · rcases update_eq_some_cases hr with ⟨-, heq⟩ | ⟨-, hr'⟩
      · obtain ⟨rfl, -⟩ := Prod.mk.inj (Option.some.inj heq)
        exact absurd hq' (hnew q e)
      · exact h.unique q r x e f hq' hr'
  · rcases update_eq_some_cases hq with ⟨-, heq⟩ | ⟨-, hq⟩
    · obtain ⟨rfl, -⟩ := Prod.mk.inj (Option.some.inj heq)
      exact hnot f
    · exact h.alive q x e f hq

omit [DecidableEq P] in
/-- The tokens change places. -/
theorem Tokens.permute (h : Tokens given place consumed) (e : Equiv.Perm P) :
    Tokens given (fun p ↦ place (e p)) consumed := by
  refine ⟨fun o d ↦ ?_, fun p q o d d' hp hq ↦ ?_, fun p ↦ h.alive (e p), h.nodup⟩
  · rw [h.given_iff o d]
    refine or_congr ⟨?_, ?_⟩ Iff.rfl
    · rintro ⟨p, hp⟩
      exact ⟨e.symm p, by rw [Equiv.apply_symm_apply, hp]⟩
    · rintro ⟨p, hp⟩
      exact ⟨e p, hp⟩
  · exact e.injective (h.unique _ _ o d d' hp hq)

/-- Whatever is at a place, nothing or a token, moves to an empty one. -/
theorem Tokens.relocate (h : Tokens given place consumed) (hq : place q = none) :
    Tokens given (Function.update (Function.update place p none) q (place p)) consumed := by
  rw [update_relocate hq]
  exact h.permute (Equiv.swap q p)

/-- A token moves to an empty place. -/
theorem Tokens.move (h : Tokens given place consumed) (hp : place p = some (o, d))
    (hq : place q = none) :
    Tokens given (Function.update (Function.update place p none) q (some (o, d))) consumed :=
  hp ▸ h.relocate hq

/-- A token is consumed. -/
theorem Tokens.consume (h : Tokens given place consumed) (hp : place p = some (o, d)) :
    Tokens given (Function.update place p none) (consumed ++ [(o, d)]) := by
  refine ⟨fun x e ↦ ?_, fun q r x e f hq hr ↦ ?_, fun q x e f hq ↦ ?_, ?_⟩
  · rw [h.given_iff x e, List.mem_append, List.mem_singleton]
    constructor
    · rintro (⟨q, hq⟩ | hmem)
      · rcases eq_or_ne q p with rfl | hne
        · exact Or.inr (Or.inr (Option.some.inj (hq.symm.trans hp)))
        · exact Or.inl ⟨q, by rw [Function.update_of_ne hne, hq]⟩
      · exact Or.inr (Or.inl hmem)
    · rintro (⟨q, hq⟩ | hmem | heq)
      · exact Or.inl ⟨q, (eq_some_of_update_none hq).2⟩
      · exact Or.inr hmem
      · exact Or.inl ⟨p, heq ▸ hp⟩
  · exact h.unique q r x e f (eq_some_of_update_none hq).2 (eq_some_of_update_none hr).2
  · obtain ⟨hne, hq⟩ := eq_some_of_update_none hq
    rw [List.mem_append, List.mem_singleton]
    rintro (hmem | heq)
    · exact h.alive q x e f hq hmem
    · obtain ⟨rfl, -⟩ := Prod.mk.inj heq
      exact hne (h.unique q p x e d hq hp)
  · rw [List.map_append, List.map_singleton]
    refine List.nodup_append.mpr ⟨h.nodup, List.nodup_singleton o, fun x hx y hy ↦ ?_⟩
    obtain rfl := List.mem_singleton.mp hy
    rintro rfl
    obtain ⟨⟨x, e⟩, hmem, rfl⟩ := List.mem_map.mp hx
    exact h.alive p x d e hp hmem

/-! ### Places that may be empty -/

omit [DecidableEq P] in
theorem Tokens.perm {consumed' : List (O × D)} (h : Tokens given place consumed)
    (hperm : consumed.Perm consumed') : Tokens given place consumed' := by
  refine ⟨fun o d ↦ ?_, h.unique, fun p o d e hp hmem ↦ ?_, ?_⟩
  · rw [h.given_iff o d, hperm.mem_iff]
  · exact h.alive p o d e hp (hperm.mem_iff.mpr hmem)
  · exact (hperm.map Prod.fst).nodup_iff.mp h.nodup

/-- Whatever is at a place, nothing or a token, is consumed. -/
theorem Tokens.discard (h : Tokens given place consumed) (p : P) :
    Tokens given (Function.update place p none) (consumed ++ (place p).toList) := by
  cases hp : place p with
  | some token => exact h.consume hp
  | none =>
    rw [← hp, Function.update_eq_self, hp, Option.toList_none, List.append_nil]
    exact h

omit [DecidableEq P] in
/-- **Once.** A token is at a place and was never consumed, or it was consumed exactly once. -/
theorem Tokens.once [DecidableEq O] (h : Tokens given place consumed) (ho : given o = some d) :
    ((∃ p, place p = some (o, d)) ∧ (consumed.map Prod.fst).count o = 0) ∨
      ((∀ p e, place p ≠ some (o, e)) ∧ (o, d) ∈ consumed ∧
        (consumed.map Prod.fst).count o = 1) := by
  rcases (h.given_iff o d).mp ho with ⟨p, hp⟩ | hmem
  · refine Or.inl ⟨⟨p, hp⟩, List.count_eq_zero_of_not_mem fun hmem ↦ ?_⟩
    obtain ⟨⟨x, e⟩, hconsumed, rfl⟩ := List.mem_map.mp hmem
    exact h.alive p x d e hp hconsumed
  · refine Or.inr ⟨fun p e hp ↦ h.alive p o e d hp hmem, hmem, ?_⟩
    exact List.count_eq_one_of_mem h.nodup (List.mem_map.mpr ⟨(o, d), hmem, rfl⟩)

end Tokens

end RefCount
