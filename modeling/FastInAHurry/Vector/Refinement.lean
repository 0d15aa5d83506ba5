import FastInAHurry.Library.Runs
import FastInAHurry.Vector.Operations

/-!
# Vectors and lists

The list program of a program over vectors keeps one list for each vector. The relation between the
two says that every vector holds its list, that no two vectors own the same block, and that every
block that is there is owned. One lemma says how it survives the change of one vector, so that each
call is settled by what its operation does to its own vector.
-/

namespace FastInAHurry

open Blocks Heap Runs

namespace Vector

variable {T ι : Type} [DecidableEq ι]

/-! ## The list program -/

/-- The list of each vector that exists. -/
abbrev Lists (ι T : Type) := ι → Option (List T)

namespace Lists

def modify (l : Lists ι T) (i : ι) (f : List T → List T) : Lists ι T :=
  Function.update l i ((l i).map f)

/-- The lists after a call. -/
def next [Inhabited T] (l : Lists ι T) : Call ι T → Lists ι T
  | .construct i => Function.update l i (some [])
  | .constructReserve i _ => Function.update l i (some [])
  | .copyConstruct i other => Function.update l i (l other)
  | .moveConstruct i other => Function.update (Function.update l i (l other)) other (some [])
  | .copyAssign i other => Function.update l i (l other)
  | .moveAssign i other => Function.update (Function.update l i (l other)) other (some [])
  | .destruct i => Function.update l i none
  | .emplaceBack i x => l.modify i fun xs ↦ xs ++ [x]
  | .atIndex _ _ => l
  | .operatorIndex _ _ => l
  | .reserve _ _ => l
  | .resize i n => l.modify i fun xs ↦ resizeList xs n
  | .popBack i => l.modify i List.dropLast
  | .clear i => l.modify i fun _ ↦ []

/-- What a call returns. -/
def outcome (l : Lists ι T) : Call ι T → Outcome T
  | .atIndex i index => ((l i).map fun xs ↦ atList xs index).getD .done
  | .operatorIndex i pos => ((l i).map fun xs ↦ atList xs pos).getD .done
  | _ => .done

/-- The lists after a sequence of calls. -/
def after [Inhabited T] (calls : List (Call ι T)) : Lists ι T :=
  calls.foldl next fun _ ↦ none

end Lists

/-! ## Conditions on a call -/

namespace World

/-- The vectors that the call is about are there, and the assertions of the call itself hold; `n` is
positive in the type `ReserveInitial<n>`. -/
def Applicable (w : World ι T) : Call ι T → Prop
  | .construct i => w.vectors i = none
  | .constructReserve i n => w.vectors i = none ∧ 0 < n
  | .copyConstruct i other => w.vectors i = none ∧ w.vectors other ≠ none
  | .moveConstruct i other => w.vectors i = none ∧ w.vectors other ≠ none
  | .copyAssign i other => w.vectors i ≠ none ∧ w.vectors other ≠ none
  | .moveAssign i other => w.vectors i ≠ none ∧ w.vectors other ≠ none
  | .operatorIndex i pos => w.vectors i ≠ none ∧ ∀ v ∈ w.vectors i, pos < v.size
  | .popBack i => w.vectors i ≠ none ∧ ∀ v ∈ w.vectors i, v.empty = false
  | .destruct i => w.vectors i ≠ none
  | .emplaceBack i _ => w.vectors i ≠ none
  | .atIndex i _ => w.vectors i ≠ none
  | .reserve i _ => w.vectors i ≠ none
  | .resize i _ => w.vectors i ≠ none
  | .clear i => w.vectors i ≠ none

instance (w : World ι T) : DecidablePred w.Applicable
  | .construct i => inferInstanceAs (Decidable (w.vectors i = none))
  | .constructReserve i n => inferInstanceAs (Decidable (w.vectors i = none ∧ 0 < n))
  | .copyConstruct i j => inferInstanceAs (Decidable (w.vectors i = none ∧ w.vectors j ≠ none))
  | .moveConstruct i j => inferInstanceAs (Decidable (w.vectors i = none ∧ w.vectors j ≠ none))
  | .copyAssign i j => inferInstanceAs (Decidable (w.vectors i ≠ none ∧ w.vectors j ≠ none))
  | .moveAssign i j => inferInstanceAs (Decidable (w.vectors i ≠ none ∧ w.vectors j ≠ none))
  | .operatorIndex i pos =>
    inferInstanceAs (Decidable (w.vectors i ≠ none ∧ ∀ v ∈ w.vectors i, pos < v.size))
  | .popBack i =>
    inferInstanceAs (Decidable (w.vectors i ≠ none ∧ ∀ v ∈ w.vectors i, v.empty = false))
  | .destruct i => inferInstanceAs (Decidable (w.vectors i ≠ none))
  | .emplaceBack i _ => inferInstanceAs (Decidable (w.vectors i ≠ none))
  | .atIndex i _ => inferInstanceAs (Decidable (w.vectors i ≠ none))
  | .reserve i _ => inferInstanceAs (Decidable (w.vectors i ≠ none))
  | .resize i _ => inferInstanceAs (Decidable (w.vectors i ≠ none))
  | .clear i => inferInstanceAs (Decidable (w.vectors i ≠ none))

/-- An unallocated vector is not asked to reserve nor resize to zero, not copied from, and not
assigned an empty vector. -/
def Nonzero (w : World ι T) : Call ι T → Prop
  | .reserve i n => ∀ v ∈ w.vectors i, v.mBegin = none → n ≠ 0
  | .resize i n => ∀ v ∈ w.vectors i, v.mBegin = none → n ≠ 0
  | .copyConstruct _ other => ∀ src ∈ w.vectors other, src.mBegin ≠ none
  | .copyAssign i other => ∀ v ∈ w.vectors i, ∀ src ∈ w.vectors other,
      v.mBegin = none → src.empty = false
  | _ => True

instance (w : World ι T) : DecidablePred w.Nonzero
  | .reserve i n => inferInstanceAs (Decidable (∀ v ∈ w.vectors i, v.mBegin = none → n ≠ 0))
  | .resize i n => inferInstanceAs (Decidable (∀ v ∈ w.vectors i, v.mBegin = none → n ≠ 0))
  | .copyConstruct _ j => inferInstanceAs (Decidable (∀ src ∈ w.vectors j, src.mBegin ≠ none))
  | .copyAssign i j => inferInstanceAs (Decidable (∀ v ∈ w.vectors i, ∀ src ∈ w.vectors j,
      v.mBegin = none → src.empty = false))
  | .construct _ | .constructReserve _ _ | .moveConstruct _ _ | .moveAssign _ _ | .destruct _
  | .emplaceBack _ _ | .atIndex _ _ | .operatorIndex _ _ | .popBack _ | .clear _ => isTrue trivial

/-- The capacity that the call asks `_allocate` for. -/
def request (w : World ι T) : Call ι T → Option ℕ
  | .constructReserve _ n => some n
  | .copyConstruct _ other => (w.vectors other).map capacity
  | .copyAssign i other => (w.vectors other).bind fun src ↦
      (w.vectors i).bind fun v ↦ v.reserveRequest src.size
  | .emplaceBack i _ => (w.vectors i).bind emplaceRequest
  | .reserve i n => (w.vectors i).bind fun v ↦ v.reserveRequest n
  | .resize i n => (w.vectors i).bind fun v ↦ v.reserveRequest n
  | _ => none

/-- The bytes of the request fit a machine word. -/
def Fits (sizeofT : ℕ+) (w : World ι T) (c : Call ι T) : Prop :=
  ∀ n ∈ w.request c, sizeofT * n < 2 ^ 64

instance (sizeofT : ℕ+) (w : World ι T) : DecidablePred (w.Fits sizeofT) :=
  fun c ↦ inferInstanceAs (Decidable (∀ n ∈ w.request c, sizeofT * n < 2 ^ 64))

end World

@[simp] theorem World.set_self (w : World ι T) (i : ι) (o : Option Vector) :
    (w.set i o).vectors i = o :=
  Function.update_self ..

theorem World.set_of_ne (w : World ι T) (o : Option Vector) {i j : ι} (hne : j ≠ i) :
    (w.set i o).vectors j = w.vectors j :=
  Function.update_of_ne hne ..

/-! ## The relation -/

/-- The vectors hold the lists, each in a block of its own. -/
structure Rel (tight : Prop) (w : World ι T) (l : Lists ι T) : Prop where
  accounted : w.heap.Accounted
  clean : tight → w.heap.misuses = []
  none_iff : ∀ i, w.vectors i = none ↔ l i = none
  holds : ∀ i v, w.vectors i = some v → ∃ xs, l i = some xs ∧ Holds tight w.heap v xs
  distinct : ∀ i j v v' b, w.vectors i = some v → w.vectors j = some v' → v.Owns b → v'.Owns b →
    i = j
  owned : ∀ b, w.heap.blocks b ≠ none → ∃ i v, w.vectors i = some v ∧ v.Owns b

omit [DecidableEq ι] in
theorem Rel.init (tight : Prop) : Rel tight (World.init : World ι T) (fun _ ↦ none) where
  accounted := Accounted.empty
  clean _ := rfl
  none_iff _ := by simp [World.init]
  holds _ _ h := by cases h
  distinct _ _ _ _ _ h := by cases h
  owned _ h := absurd rfl h

variable {tight : Prop} {w : World ι T} {l : Lists ι T} {i other : ι} {h' : Heap T} {v v' : Vector}
  {xs : List T}

omit [DecidableEq ι] in
theorem Rel.apart (hrel : Rel tight w l) (hv : (w.vectors i).getD {} = v) {j : ι} {u : Vector}
    {b : ℕ} (hj : w.vectors j = some u) (hne : j ≠ i) (hb : u.Owns b) : ¬v.Owns b := by
  intro hvb
  cases hi : w.vectors i with
  | none =>
    rw [hi, Option.getD_none] at hv
    exact not_owns_null b (hv ▸ hvb)
  | some v₀ =>
    rw [hi, Option.getD_some] at hv
    exact hne (hrel.distinct j i u v₀ b hj hi hb (hv ▸ hvb))

/-- **One vector changes.** A vector that has no block yet counts as an unallocated one. -/
theorem Rel.put (hrel : Rel tight w l) (hv : (w.vectors i).getD {} = v)
    (heff : Effect tight w.heap v h' v') (hholds : Holds tight h' v' xs) :
    Rel tight ({ w with heap := h' }.set i (some v')) (Function.update l i (some xs)) := by
  have hsep : ∀ j u b, j ≠ i → w.vectors j = some u → u.Owns b → ¬(v.Owns b ∨ v'.Owns b) := by
    intro j u b hne hj hb
    have hvb : ¬v.Owns b := hrel.apart hv hj hne hb
    rintro (hvb' | hvb')
    · exact hvb hvb'
    · obtain ⟨ys, -, hu⟩ := hrel.holds j u hj
      exact hu.owned hb ((heff.taken b hvb').resolve_left hvb)
  have hself : ({ w with heap := h' }.set i (some v')).vectors i = some v' := World.set_self ..
  have hkept : ∀ j, j ≠ i → ({ w with heap := h' }.set i (some v')).vectors j = w.vectors j :=
    fun j hne ↦ World.set_of_ne _ _ hne
  refine ⟨heff.frame.accounted hrel.accounted,
    fun ht ↦ (heff.misuses ht).trans (hrel.clean ht), fun j ↦ ?_, fun j u hj ↦ ?_,
    fun j k u u' b hj hk hub hub' ↦ ?_, fun b hb ↦ ?_⟩
  · rcases eq_or_ne j i with rfl | hne
    · simp [World.set]
    · rw [hkept j hne, Function.update_of_ne hne]
      exact hrel.none_iff j
  · rcases eq_or_ne j i with rfl | hne
    · obtain rfl := Option.some.inj (hself.symm.trans hj)
      exact ⟨xs, Function.update_self .., hholds⟩
    · rw [hkept j hne] at hj
      obtain ⟨ys, hys, hu⟩ := hrel.holds j u hj
      refine ⟨ys, ?_, hu.frame heff.frame fun b hb ↦ hsep j u b hne hj hb⟩
      rw [Function.update_of_ne hne, hys]
  · rcases eq_or_ne j i with rfl | hji
    · obtain rfl := Option.some.inj (hself.symm.trans hj)
      by_contra hne
      rw [hkept k (Ne.symm hne)] at hk
      exact hsep k u' b (Ne.symm hne) hk hub' (Or.inr hub)
    · rw [hkept j hji] at hj
      rcases eq_or_ne k i with rfl | hki
      · obtain rfl := Option.some.inj (hself.symm.trans hk)
        exact absurd (Or.inr hub') (hsep j u b hji hj hub)
      · rw [hkept k hki] at hk
        exact hrel.distinct j k u u' b hj hk hub hub'
  · by_cases hvb' : v'.Owns b
    · exact ⟨i, v', hself, hvb'⟩
    · have hvb : ¬v.Owns b := fun hvb ↦ hb ((heff.given b hvb).resolve_left hvb')
      have hlive : w.heap.blocks b ≠ none := by
        rw [← heff.frame.others b (not_or.mpr ⟨hvb, hvb'⟩)]
        exact hb
      obtain ⟨j, u, hj, hub⟩ := hrel.owned b hlive
      have hne : j ≠ i := by
        rintro rfl
        rw [hj, Option.getD_some] at hv
        exact hvb (hv ▸ hub)
      exact ⟨j, u, (hkept j hne).trans hj, hub⟩

/-- An unallocated vector goes. -/
theorem Rel.drop (hrel : Rel tight w l) (hi : w.vectors i = some {}) :
    Rel tight (w.set i none) (Function.update l i none) := by
  have hkept : ∀ j u, (w.set i none).vectors j = some u → j ≠ i ∧ w.vectors j = some u := by
    intro j u hj
    rcases eq_or_ne j i with rfl | hne
    · rw [World.set_self] at hj
      cases hj
    · exact ⟨hne, (World.set_of_ne w none hne).symm.trans hj⟩
  refine ⟨hrel.accounted, hrel.clean, fun j ↦ ?_, fun j u hj ↦ ?_,
    fun j k u u' b hj hk ↦ hrel.distinct j k u u' b (hkept j u hj).2 (hkept k u' hk).2,
    fun b hb ↦ ?_⟩
  · rcases eq_or_ne j i with rfl | hne
    · simp [World.set]
    · simpa [World.set, hne] using hrel.none_iff j
  · obtain ⟨hne, hj⟩ := hkept j u hj
    obtain ⟨ys, hys, hu⟩ := hrel.holds j u hj
    exact ⟨ys, by rw [Function.update_of_ne hne, hys], hu⟩
  · obtain ⟨j, u, hj, hub⟩ := hrel.owned b hb
    have hne : j ≠ i := by
      rintro rfl
      obtain rfl := Option.some.inj (hi.symm.trans hj)
      exact not_owns_null b hub
    exact ⟨j, u, (World.set_of_ne w none hne).trans hj, hub⟩

/-- A vector without a block takes over another's. -/
theorem Rel.steal (hrel : Rel tight w l) (hi : (w.vectors i).getD {} = {})
    (hother : w.vectors other = some v) :
    Rel tight ((w.set i (some v)).set other (some {}))
      (Function.update (Function.update l i (l other)) other (some [])) := by
  -- Where each vector of the new world comes from.
  have hfrom : ∀ j u, ((w.set i (some v)).set other (some {})).vectors j = some u →
      (j = other ∧ u = {}) ∨ (j ≠ other ∧ j = i ∧ u = v) ∨
        (j ≠ other ∧ j ≠ i ∧ w.vectors j = some u) := by
    intro j u hj
    rcases eq_or_ne j other with rfl | hjo
    · rw [World.set_self] at hj
      exact Or.inl ⟨rfl, (Option.some.inj hj).symm⟩
    · rw [World.set_of_ne _ _ hjo] at hj
      rcases eq_or_ne j i with rfl | hji
      · rw [World.set_self] at hj
        exact Or.inr (Or.inl ⟨hjo, rfl, (Option.some.inj hj).symm⟩)
      · rw [World.set_of_ne _ _ hji] at hj
        exact Or.inr (Or.inr ⟨hjo, hji, hj⟩)
  refine ⟨hrel.accounted, hrel.clean, fun j ↦ ?_, fun j u hj ↦ ?_,
    fun j k u u' b hj hk hub hub' ↦ ?_, fun b hb ↦ ?_⟩
  · rcases eq_or_ne j other with rfl | hjo
    · simp [World.set]
    · rcases eq_or_ne j i with rfl | hji
      · have hsome : l other ≠ none := fun h ↦ by
          rw [(hrel.none_iff other).mpr h] at hother
          cases hother
        simpa [World.set, hjo] using hsome
      · simpa [World.set, hjo, hji] using hrel.none_iff j
  · rcases hfrom j u hj with ⟨rfl, rfl⟩ | ⟨hjo, rfl, rfl⟩ | ⟨hjo, hji, hj⟩
    · exact ⟨[], Function.update_self .., .unallocated⟩
    · obtain ⟨ys, hys, hu⟩ := hrel.holds other u hother
      exact ⟨ys, by rw [Function.update_of_ne hjo, Function.update_self, hys], hu⟩
    · obtain ⟨ys, hys, hu⟩ := hrel.holds j u hj
      exact ⟨ys, by rw [Function.update_of_ne hjo, Function.update_of_ne hji, hys], hu⟩
  · rcases hfrom j u hj with ⟨rfl, rfl⟩ | ⟨hjo, rfl, rfl⟩ | ⟨hjo, hji, hj'⟩
    · exact absurd hub (not_owns_null b)
    · rcases hfrom k u' hk with ⟨rfl, rfl⟩ | ⟨hko, rfl, rfl⟩ | ⟨hko, hki, hk⟩
      · exact absurd hub' (not_owns_null b)
      · rfl
      · exact absurd (hrel.distinct k other u' u b hk hother hub' hub) hko
    · rcases hfrom k u' hk with ⟨rfl, rfl⟩ | ⟨hko, rfl, rfl⟩ | ⟨hko, hki, hk'⟩
      · exact absurd hub' (not_owns_null b)
      · exact absurd (hrel.distinct j other u u' b hj' hother hub hub') hjo
      · exact hrel.distinct j k u u' b hj' hk' hub hub'
  · obtain ⟨j, u, hj, hub⟩ := hrel.owned b hb
    have hji : j ≠ i := by
      rintro rfl
      rw [hj, Option.getD_some] at hi
      exact not_owns_null b (hi ▸ hub)
    rcases eq_or_ne j other with rfl | hjo
    · obtain rfl := Option.some.inj (hother.symm.trans hj)
      exact ⟨i, v, by simp [World.set, Ne.symm hji], hub⟩
    · exact ⟨j, u, by simp [World.set, hjo, hji, hj], hub⟩

/-! ## Calls -/

/-- The vectors that a call moves from, or gives another's block. -/
def Call.Moves : Call ι T → ι → Prop
  | .moveConstruct _ other, j => j = other
  | .moveAssign i other, j => j = i ∨ j = other
  | _, _ => False

/-- No capacity shrinks, the vectors of `S` apart. -/
def Grows (S : ι → Prop) (w w' : World ι T) : Prop :=
  ∀ j u u', w.vectors j = some u → w'.vectors j = some u' → ¬S j → u.capacity ≤ u'.capacity

theorem Grows.set {S : ι → Prop} {o : Option Vector}
    (ho : ∀ u u', w.vectors i = some u → o = some u' → ¬S i → u.capacity ≤ u'.capacity) :
    Grows S w ({ w with heap := h' }.set i o) := by
  intro j u u' hj hj' hS
  rcases eq_or_ne j i with rfl | hne
  · rw [World.set_self] at hj'
    exact ho u u' hj hj' hS
  · rw [World.set_of_ne _ _ hne] at hj'
    exact Nat.le_of_eq (congrArg capacity (Option.some.inj (hj.symm.trans hj')))

omit [DecidableEq ι] in
theorem World.get_eq (hi : w.vectors i = some v) : w.get i = .ok v := by
  rw [World.get, hi]

theorem World.modify_eq {f : Heap T → Vector → Except Fault (Heap T × Vector)}
    (hi : w.vectors i = some v) (hf : f w.heap v = .ok (h', v')) :
    w.modify i f = .ok ({ w with heap := h' }.set i (some v'), .done) := by
  simp only [World.modify, World.get_eq hi, ok_bind, hf, pure_eq_ok]

theorem World.create_eq {c : Except Fault (Heap T × Vector)} (hi : w.vectors i = none)
    (hc : c = .ok (h', v')) :
    w.create i c = .ok ({ w with heap := h' }.set i (some v'), .done) := by
  simp only [World.create, if_pos hi, hc, ok_bind, pure_eq_ok]

/-- The call does what the list program says. -/
def Simulated [Inhabited T] (tight : Prop) (sizeofT : ℕ+) (w : World ι T) (l : Lists ι T)
    (c : Call ι T) : Prop :=
  ∃ w', w.step sizeofT c = .ok (w', l.outcome c) ∧ Rel tight w' (l.next c) ∧ Grows c.Moves w w'

variable [Inhabited T] {sizeofT : ℕ+}

omit [DecidableEq ι] [Inhabited T] in
theorem Rel.exists_of_ne_none (hrel : Rel tight w l) (hi : w.vectors i ≠ none) :
    ∃ v xs, w.vectors i = some v ∧ l i = some xs ∧ Holds tight w.heap v xs := by
  obtain ⟨v, hv⟩ := Option.ne_none_iff_exists'.mp hi
  obtain ⟨xs, hxs, hholds⟩ := hrel.holds i v hv
  exact ⟨v, xs, hv, hxs, hholds⟩

/-- A constructor. -/
theorem Rel.simulate_create (hrel : Rel tight w l) (hi : w.vectors i = none) {c : Call ι T}
    {r : Except Fault (Heap T × Vector)} (hr : r = .ok (h', v'))
    (hstep : w.step sizeofT c = w.create i r) (hout : l.outcome c = .done)
    (hnext : l.next c = Function.update l i (some xs)) (hholds : Holds tight h' v' xs)
    (heff : Effect tight w.heap {} h' v') : Simulated tight sizeofT w l c := by
  refine ⟨{ w with heap := h' }.set i (some v'), ?_, ?_, Grows.set fun u u' hu ↦ ?_⟩
  · rw [hstep, hout, World.create_eq hi hr]
  · rw [hnext]
    exact hrel.put (by rw [hi, Option.getD_none]) heff hholds
  · rw [hi] at hu
    cases hu

/-- A member function on one vector. -/
theorem Rel.simulate_modify (hrel : Rel tight w l) (hi : w.vectors i = some v) {c : Call ι T}
    {f : Heap T → Vector → Except Fault (Heap T × Vector)} (hf : f w.heap v = .ok (h', v'))
    (hstep : w.step sizeofT c = w.modify i f) (hout : l.outcome c = .done)
    (hnext : l.next c = Function.update l i (some xs)) (hholds : Holds tight h' v' xs)
    (heff : Effect tight w.heap v h' v') (hcap : v.capacity ≤ v'.capacity) :
    Simulated tight sizeofT w l c := by
  refine ⟨{ w with heap := h' }.set i (some v'), ?_, ?_, Grows.set fun u u' hu hu' _ ↦ ?_⟩
  · rw [hstep, hout, World.modify_eq hi hf]
  · rw [hnext]
    exact hrel.put (by rw [hi, Option.getD_some]) heff hholds
  · obtain rfl := Option.some.inj (hi.symm.trans hu)
    obtain rfl := Option.some.inj hu'
    exact hcap

/-- A member function that only looks. -/
theorem Rel.simulate_query (hrel : Rel tight w l) (hi : w.vectors i = some v) {c : Call ι T}
    {f : Heap T → Vector → Except Fault (Outcome T)} (hf : f w.heap v = .ok (l.outcome c))
    (hstep : w.step sizeofT c = w.query i f) (hnext : l.next c = l) :
    Simulated tight sizeofT w l c := by
  refine ⟨w, ?_, by rwa [hnext], fun j u u' hj hj' _ ↦ ?_⟩
  · simp only [hstep, World.query, World.get_eq hi, ok_bind, hf, pure_eq_ok]
  · exact Nat.le_of_eq (congrArg capacity (Option.some.inj (hj.symm.trans hj')))

theorem Rel.simulate_moveConstruct (hrel : Rel tight w l)
    (happ : w.Applicable (.moveConstruct i other)) :
    Simulated tight sizeofT w l (.moveConstruct i other) := by
  obtain ⟨hi, hother⟩ := happ
  obtain ⟨v, hv⟩ := Option.ne_none_iff_exists'.mp hother
  refine ⟨_, ?_, hrel.steal (by rw [hi, Option.getD_none]) hv, fun j u u' hj hj' hS ↦ ?_⟩
  · simp only [World.step, World.moveConstruct, if_pos hi, World.steal, World.get_eq hv, ok_bind,
      pure_eq_ok, Lists.outcome]
  · have hji : j ≠ i := by
      rintro rfl
      rw [hi] at hj
      cases hj
    have hjo : j ≠ other := hS
    rw [World.set_of_ne _ _ hjo, World.set_of_ne _ _ hji, hj] at hj'
    exact Nat.le_of_eq (congrArg capacity (Option.some.inj hj'))

omit [Inhabited T] in
/-- The first half of a move assignment, and all of a destruction but the end. -/
theorem Rel.free (hrel : Rel tight w l) (hi : w.vectors i ≠ none) :
    ∃ w', w.modify i destroyAndFree = .ok (w', .done) ∧ w'.vectors i = some {} ∧
      (∀ j, j ≠ i → w'.vectors j = w.vectors j) ∧
      Rel tight w' (Function.update l i (some [])) := by
  obtain ⟨v, xs, hv, -, hholds⟩ := hrel.exists_of_ne_none hi
  obtain ⟨h', hrun, heff⟩ := destroyAndFree_spec hholds
  refine ⟨_, World.modify_eq hv hrun, World.set_self .., fun j hne ↦ World.set_of_ne _ _ hne, ?_⟩
  exact hrel.put (by rw [hv, Option.getD_some]) heff .unallocated

theorem Rel.simulate_moveAssign (hrel : Rel tight w l)
    (happ : w.Applicable (.moveAssign i other)) :
    Simulated tight sizeofT w l (.moveAssign i other) := by
  obtain ⟨hi, hother⟩ := happ
  obtain ⟨w₁, hrun, hself, hkept, hrel₁⟩ := hrel.free hi
  have hother₁ : w₁.vectors other ≠ none := by
    rcases eq_or_ne other i with rfl | hne
    · simp [hself]
    · rwa [hkept other hne]
  obtain ⟨v, hv⟩ := Option.ne_none_iff_exists'.mp hother₁
  refine ⟨(w₁.set i (some v)).set other (some {}), ?_, ?_, fun j u u' hj hj' hS ↦ ?_⟩
  · simp only [World.step, World.moveAssign, hrun, ok_bind, World.steal, World.get_eq hv,
      pure_eq_ok, Lists.outcome]
  · have hsteal := hrel₁.steal (i := i) (by rw [hself, Option.getD_some]) hv
    convert hsteal using 1
    rw [Lists.next]
    rcases eq_or_ne other i with rfl | hne
    · simp
    · rw [Function.update_of_ne hne, Function.update_idem]
  · obtain ⟨hji, hjo⟩ := not_or.mp hS
    rw [World.set_of_ne _ _ hjo, World.set_of_ne _ _ hji, hkept j hji, hj] at hj'
    exact Nat.le_of_eq (congrArg capacity (Option.some.inj hj'))

theorem Rel.simulate_destruct (hrel : Rel tight w l) (happ : w.Applicable (.destruct i)) :
    Simulated tight sizeofT w l (.destruct i) := by
  obtain ⟨w₁, hrun, hself, hkept, hrel₁⟩ := hrel.free happ
  refine ⟨w₁.set i none, ?_, ?_, fun j u u' hj hj' _ ↦ ?_⟩
  · simp only [World.step, World.destruct, hrun, ok_bind, pure_eq_ok, Lists.outcome]
  · have hdrop := hrel₁.drop hself
    rwa [Function.update_idem] at hdrop
  · have hji : j ≠ i := by
      rintro rfl
      rw [World.set_self] at hj'
      cases hj'
    rw [World.set_of_ne _ _ hji, hkept j hji, hj] at hj'
    exact Nat.le_of_eq (congrArg capacity (Option.some.inj hj'))

theorem Rel.simulate_copyConstruct (hrel : Rel tight w l)
    (happ : w.Applicable (.copyConstruct i other)) (hnz : w.Nonzero (.copyConstruct i other))
    (hfit : w.Fits sizeofT (.copyConstruct i other)) :
    Simulated tight sizeofT w l (.copyConstruct i other) := by
  obtain ⟨hi, hother⟩ := happ
  obtain ⟨src, ys, hsrc, hys, hholds⟩ := hrel.exists_of_ne_none hother
  have hfit' : (sizeofT : ℕ) * src.capacity < 2 ^ 64 := hfit _ (by simp [World.request, hsrc])
  obtain ⟨h', v', hrun, hholds', heff, -⟩ :=
    copyOf_spec tight hrel.accounted hholds (hnz src hsrc) hfit'
  refine hrel.simulate_create hi hrun ?_ rfl ?_ hholds' heff
  · simp only [World.step, World.get_eq hsrc, ok_bind]
  · rw [Lists.next, hys]

theorem Rel.simulate_copyAssign (hloose : ¬tight) (hrel : Rel tight w l)
    (happ : w.Applicable (.copyAssign i other)) (hnz : w.Nonzero (.copyAssign i other))
    (hfit : w.Fits sizeofT (.copyAssign i other)) :
    Simulated tight sizeofT w l (.copyAssign i other) := by
  obtain ⟨hi, hother⟩ := happ
  obtain ⟨v, xs, hv, hxs, hholds⟩ := hrel.exists_of_ne_none hi
  obtain ⟨src, ys, hsrc, hys, hsrcholds⟩ := hrel.exists_of_ne_none hother
  have hsize : v.mBegin = none → src.size ≠ 0 := by
    intro hnull hzero
    have hfull := hnz v hv src hsrc hnull
    cases hsrcholds with
    | unallocated => simp [empty] at hfull
    | allocated hpos hle hfill =>
      rw [size_ofBlock] at hzero
      simp [empty, ofBlock, hzero] at hfull
  obtain ⟨h₁, v₁, hrun₁, hholds₁, heff₁, hcap₁, hroom, halloc⟩ :=
    reserve_spec hrel.accounted hholds hsize fun n hn ↦ hfit n (by simpa [World.request, hsrc, hv])
  have hrel₁ := hrel.put (by rw [hv, Option.getD_some]) heff₁ hholds₁
  rw [show Function.update l i (some xs) = l by rw [← hxs, Function.update_eq_self]] at hrel₁
  have hother₁ : ({ w with heap := h₁ }.set i (some v₁)).vectors other ≠ none :=
    fun h ↦ by simp [(hrel₁.none_iff other).mp h] at hys
  obtain ⟨src₁, ys₁, hsrc₁, hys₁, hsrcholds₁⟩ := hrel₁.exists_of_ne_none hother₁
  obtain rfl : ys = ys₁ := Option.some.inj (hys.symm.trans hys₁)
  rw [hsrcholds.size_eq] at hroom
  obtain ⟨h₂, v₂, hrun₂, hholds₂, heff₂, hcap₂⟩ :=
    overwrite_spec hloose hholds₁ hsrcholds₁ halloc hroom
  have hself : ({ w with heap := h₁ }.set i (some v₁)).vectors i = some v₁ := World.set_self ..
  have hrel₂ := hrel₁.put (by rw [hself, Option.getD_some]) heff₂ hholds₂
  have hmodify₁ := World.modify_eq (f := fun h v ↦ reserve sizeofT h v src.size) hv hrun₁
  have hmodify₂ := World.modify_eq (f := fun h v ↦ overwrite h v src₁) hself hrun₂
  let w₁ : World ι T := { w with heap := h₁ }.set i (some v₁)
  refine ⟨{ w₁ with heap := h₂ }.set i (some v₂), ?_, ?_, fun j u u' hj hj' _ ↦ ?_⟩
  · simp only [World.step, World.copyAssign, World.get_eq hsrc, ok_bind, hmodify₁,
      World.get_eq hsrc₁, hmodify₂, Lists.outcome]
    rfl
  · rw [Lists.next, hys]
    exact hrel₂
  · rcases eq_or_ne j i with rfl | hne
    · rw [World.set_self] at hj'
      obtain rfl := Option.some.inj (hv.symm.trans hj)
      obtain rfl := Option.some.inj hj'
      omega
    · rw [World.set_of_ne _ _ hne] at hj'
      have hj' : ({ w with heap := h₁ }.set i (some v₁)).vectors j = some u' := hj'
      rw [World.set_of_ne _ _ hne] at hj'
      exact Nat.le_of_eq (congrArg capacity (Option.some.inj (hj.symm.trans hj')))

omit [DecidableEq ι] [Inhabited T] in
theorem fits_reserve (hi : w.vectors i = some v) {n : ℕ}
    (hfit : ∀ m ∈ (w.vectors i).bind fun v ↦ v.reserveRequest n, sizeofT * m < 2 ^ 64) :
    ∀ m ∈ v.reserveRequest n, sizeofT * m < 2 ^ 64 :=
  fun m hm ↦ hfit m (by simpa [hi] using hm)

/-- **Simulation.** A call that applies, asks for at least one slot and for no more than a word of
bytes does what the list program says. A resize has to stay within the capacity, and a copy
assignment makes vectors that are not tight. -/
theorem Rel.simulate (hrel : Rel tight w l) {c : Call ι T} (happ : w.Applicable c)
    (hnz : w.Nonzero c) (hfit : w.Fits sizeofT c) (hcopy : ∀ i j, c = .copyAssign i j → ¬tight)
    (hroom : ∀ i n, c = .resize i n → ∀ v ∈ w.vectors i, v.mBegin ≠ none → n ≤ v.capacity) :
    Simulated tight sizeofT w l c := by
  cases c with
  | construct i =>
    exact hrel.simulate_create happ rfl rfl rfl rfl .unallocated (Effect.refl _ _ _)
  | constructReserve i n =>
    obtain ⟨hi, hn⟩ := happ
    obtain ⟨h', b, hrun, hfill, heff⟩ :=
      allocateFromNullptr_spec tight hrel.accounted (Nat.pos_iff_ne_zero.mp hn) (hfit n (by rfl))
    exact hrel.simulate_create hi hrun rfl rfl rfl (Holds.of_empty hn hfill.mono) heff
  | copyConstruct i other => exact hrel.simulate_copyConstruct happ hnz hfit
  | moveConstruct i other => exact hrel.simulate_moveConstruct happ
  | copyAssign i other => exact hrel.simulate_copyAssign (hcopy i other rfl) happ hnz hfit
  | moveAssign i other => exact hrel.simulate_moveAssign happ
  | destruct i => exact hrel.simulate_destruct happ
  | emplaceBack i x =>
    obtain ⟨v, xs, hi, hxs, hholds⟩ := hrel.exists_of_ne_none happ
    obtain ⟨h', v', hrun, hholds', heff, hcap⟩ := emplaceBack_spec hrel.accounted hholds x
      fun n hn ↦ hfit n (by simpa [World.request, hi] using hn)
    refine hrel.simulate_modify (f := fun h v ↦ emplaceBack sizeofT h v x) hi hrun rfl rfl ?_
      hholds' heff hcap
    rw [Lists.next, Lists.modify, hxs, Option.map_some]
  | atIndex i index =>
    obtain ⟨v, xs, hi, hxs, hholds⟩ := hrel.exists_of_ne_none happ
    refine hrel.simulate_query (f := fun h v ↦ atIndex h v index) hi ?_ rfl rfl
    rw [Lists.outcome, hxs, Option.map_some, Option.getD_some]
    exact atIndex_spec hholds index
  | operatorIndex i pos =>
    obtain ⟨v, xs, hi, hxs, hholds⟩ := hrel.exists_of_ne_none happ.1
    have hpos := happ.2 v hi
    rw [hholds.size_eq] at hpos
    refine hrel.simulate_query (f := fun h v ↦ operatorIndex h v pos) hi ?_ rfl rfl
    rw [Lists.outcome, hxs, Option.map_some, Option.getD_some]
    exact operatorIndex_spec hholds hpos
  | reserve i n =>
    obtain ⟨v, xs, hi, hxs, hholds⟩ := hrel.exists_of_ne_none happ
    obtain ⟨h', v', hrun, hholds', heff, hcap, -⟩ :=
      reserve_spec hrel.accounted hholds (hnz v hi) (fits_reserve hi hfit)
    refine hrel.simulate_modify (f := fun h v ↦ reserve sizeofT h v n) hi hrun rfl rfl ?_ hholds'
      heff hcap
    rw [Lists.next, ← hxs, Function.update_eq_self]
  | resize i n =>
    obtain ⟨v, xs, hi, hxs, hholds⟩ := hrel.exists_of_ne_none happ
    obtain ⟨h', v', hrun, hholds', heff, hcap⟩ :=
      resize_spec hrel.accounted hholds (hnz v hi) (hroom i n rfl v hi) (fits_reserve hi hfit)
    refine hrel.simulate_modify (f := fun h v ↦ resize sizeofT h v n) hi hrun rfl rfl ?_ hholds'
      heff hcap
    rw [Lists.next, Lists.modify, hxs, Option.map_some]
  | popBack i =>
    obtain ⟨v, xs, hi, hxs, hholds⟩ := hrel.exists_of_ne_none happ.1
    have hne : xs ≠ [] := by
      rintro rfl
      have hfull := happ.2 v hi
      generalize hnil : ([] : List T) = ys at hholds
      cases hholds with
      | unallocated => simp [empty] at hfull
      | allocated => simp [empty, ofBlock, ← hnil] at hfull
    obtain ⟨h', v', hrun, hholds', heff, hcap⟩ := popBack_spec hholds hne
    refine hrel.simulate_modify hi hrun rfl rfl ?_ hholds' heff (Nat.le_of_eq hcap.symm)
    rw [Lists.next, Lists.modify, hxs, Option.map_some]
  | clear i =>
    obtain ⟨v, xs, hi, hxs, hholds⟩ := hrel.exists_of_ne_none happ
    obtain ⟨h', v', hrun, hholds', heff, hcap, -⟩ := destroyAll_spec hholds
    refine hrel.simulate_modify hi hrun rfl rfl ?_ hholds' heff (Nat.le_of_eq hcap.symm)
    rw [Lists.next, Lists.modify, hxs, Option.map_some]

/-! ## Programs without copies and resizes -/

/-- Everything but copies, resizes and the move assignment of a vector to itself. -/
def Call.Listed : Call ι T → Prop
  | .copyConstruct _ _ => False
  | .copyAssign _ _ => False
  | .resize _ _ => False
  | .moveAssign i other => i ≠ other
  | _ => True

instance : DecidablePred (Call.Listed : Call ι T → Prop)
  | .copyConstruct _ _ | .copyAssign _ _ | .resize _ _ => isFalse id
  | .moveAssign i other => inferInstanceAs (Decidable (i ≠ other))
  | .construct _ | .constructReserve _ _ | .moveConstruct _ _ | .destruct _ | .emplaceBack _ _
  | .atIndex _ _ | .operatorIndex _ _ | .reserve _ _ | .popBack _ | .clear _ => isTrue trivial

/-- A listed call that applies and does not reserve nothing for an unallocated vector. -/
def Permitted (w : World ι T) (c : Call ι T) : Prop := c.Listed ∧ w.Applicable c ∧ w.Nonzero c

instance (w : World ι T) : DecidablePred (Permitted w) :=
  fun c ↦ inferInstanceAs (Decidable (c.Listed ∧ w.Applicable c ∧ w.Nonzero c))

theorem Rel.simulate_listed (hrel : Rel tight w l) {c : Call ι T} (hperm : Permitted w c)
    (hfit : w.Fits sizeofT c) : Simulated tight sizeofT w l c := by
  obtain ⟨hlisted, happ, hnz⟩ := hperm
  refine hrel.simulate happ hnz hfit ?_ ?_
  · rintro i j rfl
    exact hlisted.elim
  · rintro i n rfl
    exact hlisted.elim

theorem World.advance_eq {c : Call ι T} {w' : World ι T} {o : Outcome T}
    (hstep : w.step sizeofT c = .ok (w', o)) : w.advance sizeofT c = some w' := by
  rw [World.advance, hstep]
  rfl

theorem Lists.after_concat (calls : List (Call ι T)) (c : Call ι T) :
    Lists.after (calls ++ [c]) = (Lists.after calls).next c := by
  rw [Lists.after, Lists.after, List.foldl_append, List.foldl_cons, List.foldl_nil]

/-- A run of permitted calls whose requests fit follows the list program. -/
theorem Rel.exec {calls : List (Call ι T)}
    (hmeets : Along (World.advance sizeofT) (fun w c ↦ Permitted w c ∧ w.Fits sizeofT c)
      World.init calls) :
    ∃ w, Runs.exec (World.advance sizeofT) World.init calls = some w ∧
      Rel True w (Lists.after calls) := by
  induction calls using List.reverseRecOn with
  | nil => exact ⟨World.init, rfl, Rel.init True⟩
  | append_singleton calls c ih =>
    obtain ⟨w, hrun, hrel⟩ := ih hmeets.left
    obtain ⟨hperm, hfit⟩ := hmeets.at hrun
    obtain ⟨w', hstep, hrel', -⟩ := hrel.simulate_listed hperm hfit
    refine ⟨w', exec_append_eq_some.mpr ⟨w, hrun, ?_⟩, ?_⟩
    · exact exec_cons_eq_some.mpr ⟨w', World.advance_eq hstep, rfl⟩
    · rw [Lists.after_concat]
      exact hrel'

/-- The vector that a call moves from. -/
def Call.MovesFrom : Call ι T → ι → Prop
  | .moveConstruct _ other, j => j = other
  | .moveAssign _ other, j => j = other
  | _, _ => False

omit [Inhabited T] in
theorem World.steal_other {w' : World ι T} {o : Outcome T} (h : w.steal i other = .ok (w', o)) :
    w'.vectors other = some {} := by
  cases hv : w.vectors other with
  | none =>
    rw [World.steal, World.get, hv] at h
    cases h
  | some v =>
    simp only [World.steal, World.get_eq hv, ok_bind, pure_eq_ok, Except.ok.injEq,
      Prod.mk.injEq] at h
    obtain ⟨rfl, -⟩ := h
    exact World.set_self ..

theorem World.step_moved {c : Call ι T} {w' : World ι T} {o : Outcome T}
    (hstep : w.step sizeofT c = .ok (w', o)) {j : ι} (hj : c.MovesFrom j) :
    w'.vectors j = some {} := by
  cases c with
  | moveConstruct i other =>
    obtain rfl : j = other := hj
    rw [World.step, World.moveConstruct] at hstep
    split at hstep
    · exact World.steal_other hstep
    · cases hstep
  | moveAssign i other =>
    obtain rfl : j = other := hj
    rw [World.step, World.moveAssign] at hstep
    cases hfree : w.modify i destroyAndFree with
    | error e =>
      rw [hfree] at hstep
      cases hstep
    | ok r =>
      rw [hfree] at hstep
      exact World.steal_other hstep
  | _ => exact hj.elim

theorem World.step_atIndex {index : ℕ} {w' : World ι T} {o : Outcome T}
    (hstep : w.step sizeofT (.atIndex i index) = .ok (w', o)) : w' = w := by
  rw [World.step, World.query] at hstep
  cases hv : w.get i with
  | error e =>
    rw [hv] at hstep
    cases hstep
  | ok v =>
    rw [hv, ok_bind] at hstep
    cases hat : atIndex w.heap v index with
    | error e =>
      rw [hat] at hstep
      cases hstep
    | ok o' =>
      rw [hat] at hstep
      cases hstep
      rfl

omit [Inhabited T] in
theorem atList_throws (xs : List T) (index : ℕ) :
    (∃ what, atList xs index = .outOfRange what) ↔ xs.length ≤ index := by
  unfold atList
  split
  · next hi => simpa using hi
  · next hi => simpa using hi

/-- **Vectors refine lists.** The last call of every run of permitted calls whose requests fit a
machine word returns what the list program returns and leaves every vector with its list, in the
first slots of a block of its own and in nothing else. -/
theorem vectors_refine_lists (sizeofT : ℕ+) (calls : List (Call ι T)) (c : Call ι T)
    (hmeets : Along (World.advance sizeofT) (fun w c ↦ Permitted w c ∧ w.Fits sizeofT c)
      World.init (calls ++ [c])) :
    ∃ w w' : World ι T, Runs.exec (World.advance sizeofT) World.init calls = some w ∧
      w.step sizeofT c = .ok (w', (Lists.after calls).outcome c) ∧
      (∀ i, w'.vectors i = none ↔ Lists.after (calls ++ [c]) i = none) ∧
      (∀ i v, w'.vectors i = some v → ∃ xs, Lists.after (calls ++ [c]) i = some xs ∧
        Holds True w'.heap v xs ∧ v.size = xs.length ∧ v.size ≤ v.capacity) ∧
      (∀ i j v v' b, w'.vectors i = some v → w'.vectors j = some v' → v.Owns b → v'.Owns b →
        i = j) ∧
      (∀ b, w'.heap.blocks b ≠ none → ∃ i v, w'.vectors i = some v ∧ v.Owns b) ∧
      Grows c.Moves w w' ∧
      (∀ i index, c = .atIndex i index → w' = w ∧ ∀ v ∈ w.vectors i,
        ((∃ what, (Lists.after calls).outcome c = .outOfRange what) ↔ v.size ≤ index)) ∧
      (∀ i, c.MovesFrom i → w'.vectors i = some {}) ∧
      w'.heap.misuses = [] ∧
      ((∀ i, w'.vectors i = none) →
        w'.heap.destroyed.Nodup ∧ (∀ k, k ∈ w'.heap.destroyed ↔ k < w'.heap.constructed) ∧
        w'.heap.freed.Nodup ∧ ∀ b, b ∈ w'.heap.freed ↔ b < w'.heap.allocated) := by
  obtain ⟨w, hrun, hrel⟩ := Rel.exec hmeets.left
  obtain ⟨hperm, hfit⟩ := hmeets.at hrun
  obtain ⟨w', hstep, hrel', hgrows⟩ := hrel.simulate_listed hperm hfit
  rw [← Lists.after_concat] at hrel'
  refine ⟨w, w', hrun, hstep, hrel'.none_iff, fun i v hv ↦ ?_, hrel'.distinct, hrel'.owned, hgrows,
    ?_, fun i hi ↦ World.step_moved hstep hi, hrel'.clean trivial, fun hgone ↦ ?_⟩
  · obtain ⟨xs, hxs, hholds⟩ := hrel'.holds i v hv
    exact ⟨xs, hxs, hholds, hholds.size_eq, hholds.size_eq ▸ hholds.length_le⟩
  · rintro i index rfl
    refine ⟨World.step_atIndex hstep, fun v hv ↦ ?_⟩
    obtain ⟨xs, hxs, hholds⟩ := hrel.holds i v hv
    rw [Lists.outcome, hxs, Option.map_some, Option.getD_some, hholds.size_eq]
    exact atList_throws xs index
  · refine hrel'.accounted.all_gone (hrel'.clean trivial) fun b ↦ ?_
    by_contra hb
    obtain ⟨i, v, hv, -⟩ := hrel'.owned b hb
    rw [hgone i] at hv
    cases hv

/-- Two elements, so that the vector grows once, and the destructor. -/
theorem vectors_refine_lists_two_elements :
    ∃ w w' : World ℕ ℕ,
      Runs.exec (World.advance 8) World.init
        [.construct 0, .emplaceBack 0 7, .emplaceBack 0 8] = some w ∧
      w.step 8 (.destruct 0) = .ok (w', .done) ∧ w'.heap.misuses = [] ∧
      (∀ k, k ∈ w'.heap.destroyed ↔ k < w'.heap.constructed) := by
  have hmeets : Along (World.advance 8) (fun w c ↦ Permitted w c ∧ w.Fits 8 c) World.init
      ([.construct 0, .emplaceBack 0 7, .emplaceBack 0 8] ++ [.destruct 0] : List (Call ℕ ℕ)) := by
    decide +kernel
  obtain ⟨w, w', hrun, hstep, hnone, -, -, -, -, -, -, hclean, hgone⟩ :=
    vectors_refine_lists 8 _ _ hmeets
  refine ⟨w, w', hrun, hstep, hclean, (hgone fun i ↦ ?_).2.1⟩
  rw [hnone i]
  simp [Lists.after, Lists.next, Lists.modify]

/-- The bytes of this many elements of 24 bytes are `2^64 + 8`: `reserve` gets a block of eight
bytes, and the next element is constructed outside of it. -/
theorem reserve_wraps_then_push :
    Along (World.advance 24) Permitted World.init
        ([.construct 0, .reserve 0 768614336404564651, .emplaceBack 0 7] : List (Call ℕ ℕ)) ∧
      ((Runs.exec (World.advance 24) World.init
          ([.construct 0, .reserve 0 768614336404564651] : List (Call ℕ ℕ))).map fun w ↦
        (w.step 24 (.emplaceBack 0 7)).map fun _ ↦ ()) = some (.error .undefined) := by
  exact ⟨by decide +kernel, by decide +kernel⟩

end Vector

end FastInAHurry
