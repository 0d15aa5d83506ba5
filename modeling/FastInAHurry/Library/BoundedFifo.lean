import Mathlib.Data.List.Basic

/-!
# Bounded FIFO queues

The abstract queue a concurrent queue is compared with: a list of at most `cap` values, extended at
the back and shortened at the front. A concrete step refines it when its effect on the contents is
one of these moves or none.

Contents are usually given by two histories, the values accepted and the values delivered, the
second a prefix of the first. The lemmas say how recording an entry in either history moves the
contents.
-/

namespace BoundedFifo

variable {α : Type*}

/-- One move of a FIFO queue with room for `cap` values. -/
inductive Move (cap : ℕ) : List α → List α → Prop
  | stutter (q : List α) : Move cap q q
  | push (q : List α) (x : α) (h : q.length < cap) : Move cap q (q ++ [x])
  | pop (x : α) (q : List α) : Move cap (x :: q) q

/-- What was accepted and not yet delivered. -/
def contents (accepted delivered : List α) : List α := accepted.drop delivered.length

/-- Accepting a value while there is room pushes it. -/
theorem move_of_accept {cap : ℕ} {accepted delivered : List α}
    (hle : delivered.length ≤ accepted.length) (x : α)
    (hroom : accepted.length < delivered.length + cap) :
    Move cap (contents accepted delivered) (contents (accepted ++ [x]) delivered) := by
  rw [contents, contents, List.drop_append_of_le_length hle]
  refine Move.push _ x ?_
  rw [List.length_drop]
  omega

/-- Delivering the next value pops it. -/
theorem move_of_deliver {cap : ℕ} {accepted delivered : List α} {x : α}
    (hx : accepted[delivered.length]? = some x) :
    Move cap (contents accepted delivered) (contents accepted (delivered ++ [x])) := by
  obtain ⟨hlt, hget⟩ := List.getElem?_eq_some_iff.mp hx
  rw [contents, contents, List.length_append, List.drop_eq_getElem_cons hlt, hget]
  exact Move.pop x _

end BoundedFifo
