import FastInAHurry.Vector.Capacity

/-!
# Pointers that growth leaves behind

Growth moves the elements to another block and frees the one they were in. Two operations form a
pointer into the block before they grow and use it afterwards: `resize` computes the end it runs to
from the old `m_begin`, and `push_back` of an element of the same vector reads its argument after
room has been made for it.

What happens then does not depend on how the growth itself went. The end of the old block is never
met in the new one, so that the loop of `resize` leaves the block, and the argument of `push_back`
is in a block that is gone. Both operations are right exactly where they do not grow, and `resize`
of an unallocated vector where its request fits a word.
-/

namespace FastInAHurry

open Blocks Heap Runs

namespace Vector

variable {T : Type} {tight : Prop} {sizeofT : ℕ+} {h : Heap T} {v : Vector} {xs : List T}

/-! ## Resizing -/

/-- `resize(n)` ends with the first elements, and value-constructed ones behind them. -/
def Resizes [Inhabited T] (sizeofT : ℕ+) (h : Heap T) (v : Vector) (xs : List T) (n : ℕ) : Prop :=
  ∃ h' v', resize sizeofT h v n = .ok (h', v') ∧ v'.size = n ∧
    Holds False h' v' (xs.take n ++ List.replicate (n - xs.length) default) ∧ n ≤ v'.capacity

theorem resizes_iff [Inhabited T] (hacc : h.Accounted) (hv : Holds False h v xs) {n : ℕ}
    (hn : 1 ≤ n) :
    Resizes sizeofT h v xs n ↔
      (v.mBegin = none ∧ sizeofT * n < 2 ^ 64) ∨ (v.mBegin ≠ none ∧ n ≤ v.capacity) := by
  have hlen : (xs.take n ++ List.replicate (n - xs.length) (default : T)).length = n := by
    simp only [List.length_append, List.length_take, List.length_replicate]
    omega
  constructor
  · rintro ⟨h', v', hrun, -⟩
    by_contra hcon
    rw [not_or, not_and, not_and] at hcon
    by_cases hnull : v.mBegin = none
    · obtain ⟨rfl, -⟩ := hv.eq_null hnull
      rw [resize_unallocated_short hacc (by omega) (hcon.1 rfl)] at hrun
      cases hrun
    · rw [resize_past_capacity hacc hv hnull (Nat.not_le.mp (hcon.2 hnull))] at hrun
      cases hrun
  · intro hcond
    obtain ⟨h', v', hrun, hv', -⟩ : ∃ h' v', resize sizeofT h v n = .ok (h', v') ∧
        Holds False h' v' (resizeList xs n) ∧ Effect False h v h' v' ∧
          v.capacity ≤ v'.capacity := by
      refine resize_spec hacc hv (fun _ ↦ by omega) (fun halloc ↦ ?_) fun m hm ↦ ?_
      · exact (hcond.resolve_left fun hnull ↦ halloc hnull.1).2
      · rcases hcond with ⟨hnull, hfit⟩ | ⟨halloc, hcap⟩
        · rw [reserveRequest, if_pos hnull] at hm
          rwa [← Option.some.inj hm]
        · rw [reserveRequest, if_neg halloc, if_pos hcap] at hm
          cases hm
    have hlength : (resizeList xs n).length = n := hlen
    refine ⟨h', v', hrun, ?_, hv', ?_⟩
    · rw [hv'.size_eq, hlength]
    · have hle := hv'.length_le
      rwa [hlength] at hle

/-! ## Pushing an element of the vector itself -/

/-- `push_back(v[pos])` appends the value `v[pos]` had before the call, and changes nothing else. -/
def PushesOwn (sizeofT : ℕ+) (h : Heap T) (v : Vector) (xs : List T) (pos : ℕ) : Prop :=
  ∃ h' v' x, xs[pos]? = some x ∧ pushBackOwn sizeofT h v pos = .ok (h', v') ∧
    Holds False h' v' (xs ++ [x])

/-- Growth frees the block that it moves from. -/
theorem growCapacity_frees {b cap n : ℕ} (hacc : h.Accounted) (hfill : Filled tight h b cap xs)
    (hle : xs.length ≤ cap) {r : Heap T × Vector}
    (hrun : growCapacity sizeofT h (ofBlock b xs.length cap) n = .ok r) : r.1.blocks b = none := by
  rcases eq_or_ne n 0 with rfl | hn
  · cases hrun
  rcases Nat.lt_or_ge (slots sizeofT n) xs.length with hshort | hlen
  · rw [growCapacity_short hacc hfill hle hn hshort] at hrun
    cases hrun
  · obtain ⟨h', b', hrun', hne, -, heff, -⟩ := growCapacity_slots sizeofT hacc hfill hle hn hlen
    obtain rfl := Except.ok.inj (hrun'.symm.trans hrun)
    rcases heff.given b ((owns_ofBlock ..).mpr rfl) with howns | hgone
    · exact absurd ((owns_ofBlock ..).mp howns) hne.symm
    · exact hgone

theorem load_of_gone {b i : ℕ} (hgone : h.blocks b = none) :
    load h (some ⟨b, i⟩) = .error .undefined := by
  simp [load, Heap.read, locate, hgone, defined]

theorem pushesOwn_iff (hacc : h.Accounted) (hv : Holds False h v xs) {pos : ℕ}
    (hpos : pos < v.size) : PushesOwn sizeofT h v xs pos ↔ v.size ≠ v.capacity := by
  cases hv with
  | unallocated => exact absurd hpos (Nat.not_lt_zero pos)
  | @allocated b cap xs hwide hle hfill =>
    have hpos' : pos < xs.length := by rwa [size_ofBlock] at hpos
    have hpush : pushBackOwn sizeofT h (ofBlock b xs.length cap) pos =
        emplaceBackRef sizeofT h (ofBlock b xs.length cap) (some ⟨b, pos⟩) := by
      rw [pushBackOwn, if_pos hpos, mBegin_ofBlock, Ptr.add, Option.map_some, Nat.zero_add]
    rw [size_ofBlock, capacity_ofBlock, PushesOwn, hpush]
    constructor
    · rintro ⟨h', v', x, -, hrun, -⟩ hfull
      have hfull' : (ofBlock b xs.length cap).mEnd = (ofBlock b xs.length cap).mCap := by
        simp [ofBlock, hfull]
      -- the block of the argument is gone when it is read
      obtain ⟨⟨h₁, v₁⟩, hroom, hrest⟩ := bind_eq_ok hrun
      rw [emplaceRoom, if_neg (by simp), if_pos hfull'] at hroom
      have hgone := growCapacity_frees hacc hfill hle hroom
      obtain ⟨y, hload, -⟩ := bind_eq_ok hrest
      rw [load_of_gone hgone] at hload
      cases hload
    · intro hroom
      have hnot : ¬(ofBlock b xs.length cap).mEnd = (ofBlock b xs.length cap).mCap := by
        simp [ofBlock, hroom]
      have hload : load h (some ⟨b, pos⟩) = .ok xs[pos] := by
        have hload := load_element (.allocated hwide hle hfill) hpos'
        rwa [mBegin_ofBlock, Ptr.add, Option.map_some, Nat.zero_add] at hload
      obtain ⟨h', hrun, hfill', -⟩ := hfill.push (by omega) xs[pos]
      have hrun : constructAt h (ofBlock b xs.length cap).mEnd xs[pos] = .ok h' := hrun
      have hlen : (xs ++ [xs[pos]]).length = xs.length + 1 := by simp
      refine ⟨h', ofBlock b (xs ++ [xs[pos]]).length cap, xs[pos],
        List.getElem?_eq_getElem hpos', ?_, .allocated hwide (by omega) hfill'⟩
      simp only [emplaceBackRef, emplaceRoom, mBegin_ofBlock, reduceCtorEq, if_false, if_neg hnot,
        ok_bind, hload, hrun, hlen, pure_eq_ok]
      rfl

section Runs

variable {ι : Type} [DecidableEq ι] [Inhabited T] {w : World ι T} {i : ι}

/-- A vector of a reached program holds a list. -/
theorem exists_holds_of_run {calls : List (Call ι T)}
    (hfits : Along (World.advance sizeofT) (World.Fits sizeofT) World.init calls)
    (hrun : Runs.exec (World.advance sizeofT) World.init calls = some w)
    (hv : w.vectors i = some v) : w.heap.Accounted ∧ ∃ xs, Holds False w.heap v xs := by
  obtain ⟨l, hrel⟩ := Rel.of_fitting_run hfits hrun
  obtain ⟨xs, -, hholds⟩ := hrel.holds i v hv
  exact ⟨hrel.accounted, xs, hholds⟩

/-- **Resizing a vector of a run** whose requests fit a word. It does what it should exactly if the
vector is unallocated and the bytes fit a word, or if it is allocated and has the capacity. -/
theorem resize_iff (sizeofT : ℕ+) (calls : List (Call ι T)) (w : World ι T) (i : ι) (v : Vector)
    (hfits : Along (World.advance sizeofT) (World.Fits sizeofT) World.init calls)
    (hrun : Runs.exec (World.advance sizeofT) World.init calls = some w)
    (hv : w.vectors i = some v) :
    ∃ xs, Holds False w.heap v xs ∧ ∀ n, 1 ≤ n → (Resizes sizeofT w.heap v xs n ↔
      (v.mBegin = none ∧ sizeofT * n < 2 ^ 64) ∨ (v.mBegin ≠ none ∧ n ≤ v.capacity)) := by
  obtain ⟨hacc, xs, hholds⟩ := exists_holds_of_run hfits hrun hv
  exact ⟨xs, hholds, fun n hn ↦ resizes_iff hacc hholds hn⟩

/-- A vector with two elements and room for four. -/
theorem exec_two_of_four : (Runs.exec (World.advance 8) World.init
    ([.construct 0, .reserve 0 4, .emplaceBack 0 7, .emplaceBack 0 8] : List (Call ℕ ℕ))).map
      (fun w ↦ w.vectors 0) = some (some (ofBlock 0 2 4)) := by
  decide +kernel

theorem resize_iff_within_capacity :
    ∃ w : World ℕ ℕ, ∃ v : Vector,
      Runs.exec (World.advance 8) World.init
        [.construct 0, .reserve 0 4, .emplaceBack 0 7, .emplaceBack 0 8] = some w ∧
      w.vectors 0 = some v ∧ ∃ xs, Resizes 8 w.heap v xs 3 := by
  obtain ⟨w, hw, hv⟩ := Option.map_eq_some_iff.mp exec_two_of_four
  obtain ⟨xs, -, hiff⟩ := resize_iff 8 _ w 0 _ (by decide +kernel) hw hv
  exact ⟨w, _, hw, hv, xs, (hiff 3 (by decide)).mpr (Or.inr (by decide))⟩

/-- The second element does not fit the block of a vector with one. -/
theorem resize_one_to_two_fails :
    Along (World.advance 8) (World.Fits 8) World.init
        ([.construct 0, .emplaceBack 0 7, .resize 0 2] : List (Call ℕ ℕ)) ∧
      ((Runs.exec (World.advance 8) World.init
          ([.construct 0, .emplaceBack 0 7] : List (Call ℕ ℕ))).map fun w ↦
        (w.step 8 (.resize 0 2)).map fun _ ↦ ()) = some (.error .undefined) := by
  exact ⟨by decide +kernel, by decide +kernel⟩

/-- **Pushing an element of a vector of a run** whose requests fit a word. It appends the value of
the element exactly if the vector has room for it without growing. -/
theorem pushBackOwn_iff (sizeofT : ℕ+) (calls : List (Call ι T)) (w : World ι T) (i : ι)
    (v : Vector) (hfits : Along (World.advance sizeofT) (World.Fits sizeofT) World.init calls)
    (hrun : Runs.exec (World.advance sizeofT) World.init calls = some w)
    (hv : w.vectors i = some v) :
    ∃ xs, Holds False w.heap v xs ∧ ∀ pos < v.size,
      (PushesOwn sizeofT w.heap v xs pos ↔ v.size ≠ v.capacity) := by
  obtain ⟨hacc, xs, hholds⟩ := exists_holds_of_run hfits hrun hv
  exact ⟨xs, hholds, fun pos hpos ↦ pushesOwn_iff hacc hholds hpos⟩

theorem pushBackOwn_iff_with_room :
    ∃ w : World ℕ ℕ, ∃ v : Vector,
      Runs.exec (World.advance 8) World.init
        [.construct 0, .reserve 0 4, .emplaceBack 0 7, .emplaceBack 0 8] = some w ∧
      w.vectors 0 = some v ∧ ∃ xs, PushesOwn 8 w.heap v xs 0 := by
  obtain ⟨w, hw, hv⟩ := Option.map_eq_some_iff.mp exec_two_of_four
  obtain ⟨xs, -, hiff⟩ := pushBackOwn_iff 8 _ w 0 _ (by decide +kernel) hw hv
  exact ⟨w, _, hw, hv, xs, (hiff 0 (by decide)).mpr (by decide)⟩

/-- The only element of a vector without room for another one. -/
theorem pushBackOwn_full_fails :
    ((Runs.exec (World.advance 8) World.init
        ([.construct 0, .emplaceBack 0 7] : List (Call ℕ ℕ))).bind fun w ↦
      (w.vectors 0).map fun v ↦ (pushBackOwn 8 w.heap v 0).map fun _ ↦ ())
        = some (.error .undefined) := by
  decide +kernel

end Runs

end Vector

end FastInAHurry
