import FastInAHurry.Queue.QueueClients
import Mathlib.Data.Fintype.Sum

/-!
# Calls that starve

Being supplied is not only enough for all calls of a queue's clients to return, it is necessary.
Where the calls are not supplied, the threads can be let run, each in turn for one whole call, until
all of them are at their end or before a `wait_and_pop` and the queue is empty. From there on nobody
ever pushes, so whoever is not at its end waits for ever, whatever the schedule.

## Why the threads come to stand there

The positions that show the calls not to be supplied need not be reachable themselves. The threads
are run up to them, but never into a `wait_and_pop` that would have to wait. When none of them can
be run on, either all are in their positions or one of them has stopped short of its own because
the queue is empty, and in both cases all values have been used up.
-/

namespace FastInAHurry

open Census ThreadSafeQueue Turns

namespace QueueClients

variable {ι T : Type*} [DecidableEq ι] [Fintype ι] {waker : ι → ℕ → Waker ι}
  {todo : ι → List (Call T)} {s : State ι T} {p : ι} {n : ι → ℕ}

/-! ## One call at a time -/

/-- No thread is inside a call. -/
structure Quiet (s : State ι T) : Prop where
  idle : ∀ p, s.queue.threads p = .idle
  free : s.queue.mutex = none

/-- Whoever is not at its end is in a `wait_and_pop` or before one, and the values pushed so far
have all been returned. -/
structure Deadlocked (todo : ι → List (Call T)) (s : State ι T) : Prop where
  inv : Inv todo s
  place : ∀ p, s.done p = (todo p).length ∨ (todo p)[s.done p]? = some .waitAndPop
  used : ∑ p, (pushes ((todo p).take (s.done p))).length ≤ ∑ p, pops ((todo p).take (s.done p))

/-- The call that a thread is in can only be a `wait_and_pop`. -/
theorem Deadlocked.inside (h : Deadlocked todo s) (hp : s.queue.threads p ≠ .idle) :
    Inside (s.queue.threads p) (.waitAndPop : Call T) := by
  obtain ⟨c, hc, hin⟩ := h.inv.accounts.inside p hp
  rcases h.place p with hend | hpop
  · rw [hend, List.getElem?_eq_none le_rfl] at hc
    cases hc
  · obtain rfl : Call.waitAndPop = c := Option.some.inj (hpop.symm.trans hc)
    exact hin

theorem Deadlocked.sent (h : Deadlocked todo s) (p : ι) : s.sent p = s.done p := by
  have hstored : stored (s.queue.threads p) = 0 := by
    by_cases hidle : s.queue.threads p = .idle
    · rw [hidle]
      rfl
    · have hin := h.inside hidle
      cases hthread : s.queue.threads p <;> rw [hthread] at hin <;>
        first | rfl | exact absurd rfl hin
  rw [State.sent, hstored, Nat.add_zero]

/-- Nobody carries a value that it could return. -/
theorem Deadlocked.ne_popUnlock (h : Deadlocked todo s) (val : T) :
    s.queue.threads p ≠ .popUnlock val := by
  intro hp
  obtain ⟨hordered, hguarded, -⟩ := invariants_of_reachable h.inv.reachable
  have hcarried : s.queue.carried = [val] := by
    rw [carried_of_holder (hguarded.mutex p (by rw [hp]; rfl)), hp]
    rfl
  have hlength : s.queue.returned.length + 1 ≤ s.queue.enqueued.length := by
    rw [← hordered.fifo, hordered.returned_eq, hcarried]
    simp only [List.length_append, List.length_singleton]
    exact Nat.le_add_right _ _
  have henqueued : s.queue.enqueued.length = ∑ p, (pushes ((todo p).take (s.done p))).length := by
    rw [h.inv.accounts.merge.length_eq_sum]
    exact Finset.sum_congr rfl fun p' _ ↦ by rw [h.sent]
  have hused := h.used
  rw [← henqueued, ← h.inv.accounts.returned] at hused
  exact absurd hused (not_le.mpr hlength)

/-- In a deadlock no call returns. -/
theorem Deadlocked.done_turn (h : Deadlocked todo s) (e : Slot ι) :
    (turn waker todo s e).done = s.done := by
  have hnotify : ∀ p, s.queue.threads p ≠ .notify := by
    intro p hp
    have hin := h.inside (p := p) (by rw [hp]; exact nofun)
    rw [hp] at hin
    exact hin rfl
  have hturned := turned waker todo s e
  generalize turn waker todo s e = u at hturned
  cases hturned with
  | nothing | start hp hc | inner hp hinner | enqueue hp | wake hp => rfl
  | notify hp hj => exact absurd hp (hnotify _)
  | notifyNobody hp => exact absurd hp (hnotify _)
  | deliver hp => exact absurd hp (h.ne_popUnlock _)

theorem Deadlocked.turn (h : Deadlocked todo s) (e : Slot ι) :
    Deadlocked todo (turn waker todo s e) := by
  have hdone : (QueueClients.turn waker todo s e).done = s.done := h.done_turn e
  exact ⟨h.inv.turn waker e, by rw [hdone]; exact h.place, by rw [hdone]; exact h.used⟩

/-- **A deadlock stays one**: whoever gets a turn and whoever wakes up, no call returns any more. -/
theorem Deadlocked.play (h : Deadlocked todo s) (schedule : List (Slot ι)) :
    (play (QueueClients.turn waker todo) s schedule).done = s.done :=
  (play_invariant (I := fun u ↦ Deadlocked todo u ∧ u.done = s.done)
    (fun _ e hu ↦ ⟨hu.1.turn e, (hu.1.done_turn e).trans hu.2⟩) ⟨h, rfl⟩ schedule).2

/-! ## The way into a deadlock -/

/-- Two threads that each wait for the other to push. -/
example : ¬Supplied fun p : Bool ↦ [Call.waitAndPop, .push p] := fun h ↦
  absurd (h (fun _ ↦ 0) (fun _ ↦ Or.inr rfl) ⟨true, by decide⟩) (by decide)

end QueueClients

end FastInAHurry
