import Mathlib.Data.List.Basic
import Mathlib.Logic.Function.Basic

/-!
# Copying cells one at a time

A memory is a function from addresses to values. A sequence of assignments `*dst i = *src i`, one
for each index of a list, reads what the earlier ones have written. The lemmas here say when that
does not show: a cell no index writes to keeps its value, and if no write hits a cell that is still
to be read or was written already, every destination gets what its source held at the start.

Nothing is assumed about the addresses, so that the order of the indices is all there is to a
direction: a loop that runs upwards and one that runs downwards are the same copies for a list and
for its reverse.
-/

namespace Copying

variable {A B I : Type*} [DecidableEq A]

/-- The assignment `*dst = *src`. -/
def copyCell (m : A → B) (dst src : A) : A → B := Function.update m dst (m src)

/-- The assignments `*dst i = *src i`, in the order of the list. -/
def copyAll (dst src : I → A) (m : A → B) (is : List I) : A → B :=
  is.foldl (fun m i ↦ copyCell m (dst i) (src i)) m

variable {dst src : I → A} {m : A → B} {is : List I}

@[simp] theorem copyAll_nil : copyAll dst src m [] = m := rfl

@[simp] theorem copyAll_cons {i : I} :
    copyAll dst src m (i :: is) = copyAll dst src (copyCell m (dst i) (src i)) is := rfl

theorem copyAll_append {js : List I} :
    copyAll dst src m (is ++ js) = copyAll dst src (copyAll dst src m is) js :=
  List.foldl_append

/-- Copying for the images of the indices. -/
theorem copyAll_map {J : Type*} {f : J → I} {js : List J} :
    copyAll dst src m (js.map f) = copyAll (dst ∘ f) (src ∘ f) m js :=
  List.foldl_map

/-- A cell that is no destination keeps its value. -/
theorem copyAll_of_ne {a : A} (h : ∀ i ∈ is, dst i ≠ a) : copyAll dst src m is a = m a := by
  induction is generalizing m with
  | nil => rfl
  | cons i is ih =>
    rw [copyAll_cons, ih fun j hj ↦ h j (List.mem_cons_of_mem i hj), copyCell,
      Function.update_of_ne (h i List.mem_cons_self).symm]

/-- **Copies that never overwrite what is still needed.** Each destination holds what its source
held before the first copy. -/
theorem copyAll_apply_dst (h : is.Pairwise fun i j ↦ dst i ≠ src j ∧ dst i ≠ dst j) {i : I}
    (hi : i ∈ is) : copyAll dst src m is (dst i) = m (src i) := by
  induction is generalizing m with
  | nil => cases hi
  | cons j is ih =>
    obtain ⟨hj, his⟩ := List.pairwise_cons.mp h
    rw [copyAll_cons]
    rcases List.mem_cons.mp hi with rfl | hi
    · -- the first cell copied stays as it is through the others
      rw [copyAll_of_ne fun k hk ↦ (hj k hk).2.symm, copyCell, Function.update_self]
    · rw [ih his hi, copyCell, Function.update_of_ne (hj i hi).1.symm]

end Copying
