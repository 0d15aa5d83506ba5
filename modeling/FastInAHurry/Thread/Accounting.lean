import FastInAHurry.Library.Census
import FastInAHurry.Thread.ThreadPool
import Mathlib.Algebra.Order.Group.Multiset

/-!
# No wake-up is lost

Until the destructor begins, the queued tasks are exactly accounted for: each is matched by a token
of the semaphore, by a worker that has taken its token and not yet popped, or by a thread inside
`enqueue` that has not yet released one. So a worker with a token always finds a task.

What does not depend on the destructor is stated for every reachable state: tasks are taken in the
order in which they were enqueued, and each one taken has been run or is being run.
-/

namespace FastInAHurry

open Census Runs

namespace ThreadPool

/-- The worker has acquired the semaphore and not yet popped. -/
def Worker.acquired {T : Type*} : Worker T → Bool
  | .earlyStop => true
  | .earlyEmpty => true
  | .pop => true
  | _ => false

/-- The task a worker has taken and not yet run. -/
def Worker.running {T : Type*} : Worker T → Multiset T
  | .run task => {task}
  | _ => 0

/-- The thread has emplaced its task and not yet released the semaphore. -/
def Enqueuer.emplaced {T : Type*} : Enqueuer T → Bool
  | .release => true
  | _ => false

variable {n : ℕ} {ε T : Type*} {s t : State n ε T} {i : Fin n} {p : ε}

/-! ## The histories -/

/-- Tasks are taken in the order of `enqueue`, and what was taken has been run or is running. -/
structure Ordered (s : State n ε T) : Prop where
  fifo : s.taken ++ s.tasks = s.emplaced
  ran_eq : (s.taken : Multiset T) = s.ran + tally Worker.running s.workers

theorem Ordered.init : Ordered (init : State n ε T) := by
  have hnone : tally Worker.running (ThreadPool.init : State n ε T).workers = 0 :=
    tally_eq_zero fun _ ↦ rfl
  refine ⟨rfl, ?_⟩
  rw [hnone]
  rfl

/-- A worker may take a task to run it, or run the one it has taken. -/
theorem Ordered.of_worker (h : Ordered s) {w : Worker T}
    (hworkers : t.workers = Function.update s.workers i w)
    (hfifo : t.taken ++ t.tasks = t.emplaced)
    (hran : (t.taken : Multiset T) + ((s.workers i).running + s.ran) =
      s.taken + (w.running + t.ran)) :
    Ordered t := by
  refine ⟨hfifo, ?_⟩
  rw [hworkers]
  exact tally_ledger h.ran_eq hran

theorem Ordered.worker (h : Ordered s) (hm : WorkerMove s i t) : Ordered t := by
  cases hm with
  | point hn =>
    refine h.of_worker rfl h.fifo ?_
    generalize s.workers i = w₀ at hn
    cases hn <;> rfl
  | acquire hw hsem => exact h.of_worker rfl h.fifo (by rw [hw]; rfl)
  | @pop task rest hw htasks =>
    refine h.of_worker rfl ?_ ?_
    · rw [List.append_assoc, List.singleton_append, ← htasks]
      exact h.fifo
    · rw [hw, ← Multiset.coe_add, add_assoc]
      rfl
  | @run task hw =>
    refine h.of_worker rfl h.fifo ?_
    rw [hw, ← Multiset.coe_add, add_comm (s.ran : Multiset T)]
    exact congrArg _ (zero_add _).symm

theorem Ordered.step [DecidableEq ε] (h : Ordered s) {e : Event n ε T}
    (hst : step s e = some t) : Ordered t := by
  cases e with
  | worker i e => exact h.worker (workerMove_of_step hst)
  | enqueuer p e =>
    cases enqueuerMove_of_step hst with
    | enqueue | release => exact ⟨h.fifo, h.ran_eq⟩
    | @emplace task =>
      refine ⟨?_, h.ran_eq⟩
      rw [← List.append_assoc]
      exact congrArg (· ++ [task]) h.fifo
  | destructor e =>
    cases destructorMove_of_step hst with
    | store | release | requestStop => exact ⟨h.fifo, h.ran_eq⟩

theorem ordered_of_reachable [DecidableEq ε] (h : Reachable step init s) : Ordered s :=
  h.invariant (fun _ _ _ hs hst ↦ hs.step hst) Ordered.init

/-! ## The tokens -/

variable [Fintype ε]

/-- While the pool is alive no stop is requested, and every queued task has its token. -/
structure Balanced (s : State n ε T) : Prop where
  stopping_eq : s.stopping = false
  stop_eq : ∀ i, s.stop i = false
  tokens : s.tasks.length = s.semaphore + count Worker.acquired s.workers +
    count Enqueuer.emplaced s.enqueuers

theorem Balanced.init : Balanced (init : State n ε T) where
  stopping_eq := rfl
  stop_eq _ := rfl
  tokens := by
    rw [count_eq_zero fun _ ↦ rfl, count_eq_zero fun _ ↦ rfl]
    rfl

/-- A worker with a token finds a task. -/
theorem Balanced.tasks_ne_nil (h : Balanced s) (hw : (s.workers i).acquired = true) :
    s.tasks ≠ [] := by
  intro hnil
  have htokens := h.tokens
  have hpos := count_pos (P := Worker.acquired) hw
  rw [hnil, List.length_nil] at htokens
  omega

/-- A worker may take a token for itself, or a task with the token it has. -/
theorem Balanced.of_worker (h : Balanced s) {w : Worker T}
    (hworkers : t.workers = Function.update s.workers i w) (hstopping : t.stopping = s.stopping)
    (hstop : t.stop = s.stop) (henqueuers : t.enqueuers = s.enqueuers)
    (htokens : t.tasks.length + (s.semaphore + (s.workers i).acquired.toNat) =
      s.tasks.length + (t.semaphore + w.acquired.toNat)) :
    Balanced t := by
  refine ⟨hstopping.trans h.stopping_eq, fun j ↦ hstop ▸ h.stop_eq j, ?_⟩
  have hcount := count_update Worker.acquired s.workers i w
  have := h.tokens
  rw [hworkers, henqueuers]
  omega

theorem Balanced.worker (h : Balanced s) (hm : WorkerMove s i t) : Balanced t := by
  cases hm with
  | @point w hn =>
    have hne := h.tasks_ne_nil (i := i)
    refine h.of_worker rfl rfl rfl rfl ?_
    generalize s.workers i = w₀ at hn hne
    cases hn with
    -- the two branches that need an empty queue have a worker with a token in them
    | earlyExit hnil | nothingToPop hnil => exact absurd hnil (hne rfl)
    | _ => rfl
  | acquire hw hsem =>
    refine h.of_worker rfl rfl rfl rfl ?_
    rw [hw, hsem]
    rfl
  | pop hw htasks =>
    refine h.of_worker rfl rfl rfl rfl ?_
    rw [hw, htasks, List.length_cons]
    exact (Nat.succ_add_eq_add_succ _ _).symm
  | run hw =>
    refine h.of_worker rfl rfl rfl rfl ?_
    rw [hw]
    rfl

/-- A thread may queue a task for which it owes a token, or pay the token. -/
theorem Balanced.of_enqueuer [DecidableEq ε] (h : Balanced s) {q : Enqueuer T}
    (henqueuers : t.enqueuers = Function.update s.enqueuers p q)
    (hstopping : t.stopping = s.stopping) (hstop : t.stop = s.stop)
    (hworkers : t.workers = s.workers)
    (htokens : t.tasks.length + (s.semaphore + (s.enqueuers p).emplaced.toNat) =
      s.tasks.length + (t.semaphore + q.emplaced.toNat)) :
    Balanced t := by
  refine ⟨hstopping.trans h.stopping_eq, fun j ↦ hstop ▸ h.stop_eq j, ?_⟩
  have hcount := count_update Enqueuer.emplaced s.enqueuers p q
  have := h.tokens
  rw [hworkers, henqueuers]
  omega

theorem Balanced.enqueuer [DecidableEq ε] (h : Balanced s) (hm : EnqueuerMove s p t) :
    Balanced t := by
  cases hm with
  | enqueue task hp =>
    refine h.of_enqueuer rfl rfl rfl rfl ?_
    rw [hp]
    rfl
  | emplace hp =>
    refine h.of_enqueuer rfl rfl rfl rfl ?_
    rw [hp, List.length_append, Nat.add_assoc]
    exact congrArg _ (Nat.add_comm _ _)
  | release hp =>
    refine h.of_enqueuer rfl rfl rfl rfl ?_
    rw [hp]
    rfl

/-- The accounts balance in every state before the destructor begins. -/
theorem balanced_of_reachable [DecidableEq ε] (h : Reachable step init s)
    (halive : s.destructor = .alive) : Balanced s := by
  refine h.invariant (P := fun s ↦ s.destructor = .alive → Balanced s) ?_
    (fun _ ↦ Balanced.init) halive
  intro s e t hs hst ht
  cases e with
  | worker i e =>
    have hm := workerMove_of_step hst
    refine (hs ?_).worker hm
    cases hm <;> exact ht
  | enqueuer p e =>
    have hm := enqueuerMove_of_step hst
    refine (hs ?_).enqueuer hm
    cases hm <;> exact ht
  | destructor e => cases destructorMove_of_step hst <;> cases ht

/-- **No lost wake-up.** In every state reached before the destructor begins, for any number of
workers and of threads calling `enqueue`: the number of queued tasks is the number of tokens, plus
the workers that have acquired and not yet popped, plus the threads that have emplaced and not yet
released. So a worker that has acquired finds a task, a queued task has a token, a worker or a
thread committed to it, and the tasks taken are a prefix of the tasks emplaced, the rest of which is
still queued. -/
theorem alive_accounting [DecidableEq ε] (s : State n ε T) (hr : Reachable step init s)
    (halive : s.destructor = .alive) :
    s.tasks.length = s.semaphore + count Worker.acquired s.workers +
      count Enqueuer.emplaced s.enqueuers ∧
    (∀ i, (s.workers i).acquired = true → s.tasks ≠ []) ∧
    (s.tasks ≠ [] → 0 < s.semaphore ∨ (∃ i, (s.workers i).acquired = true) ∨
      ∃ p, (s.enqueuers p).emplaced = true) ∧
    s.taken ++ s.tasks = s.emplaced := by
  have h := balanced_of_reachable hr halive
  refine ⟨h.tokens, fun i hw ↦ h.tasks_ne_nil hw, fun hne ↦ ?_, (ordered_of_reachable hr).fifo⟩
  have hpos : 0 < s.tasks.length := List.length_pos_iff.mpr hne
  rw [h.tokens, Nat.add_assoc] at hpos
  rcases Nat.add_pos_iff_pos_or_pos.mp hpos with hsem | hrest
  · exact Or.inl hsem
  · rcases Nat.add_pos_iff_pos_or_pos.mp hrest with hw | hp
    · exact Or.inr (Or.inl (exists_of_count_pos hw))
    · exact Or.inr (Or.inr (exists_of_count_pos hp))

/-- One worker has acquired the token of the first of two tasks; the token of the second is not
yet released. -/
theorem alive_accounting_two_tasks : ∃ s : State 1 Bool ℕ, Reachable step init s ∧
    s.destructor = .alive ∧ s.tasks = [7, 8] ∧ s.workers 0 = .earlyStop ∧
    s.semaphore + count Worker.acquired s.workers + count Enqueuer.emplaced s.enqueuers = 2 := by
  have hr : Reachable step (init : State 1 Bool ℕ) _ :=
    ⟨[.enqueuer true (.enqueue 7), .enqueuer true .emplace, .enqueuer true .release,
      .worker 0 .testStop, .worker 0 .testStopping, .worker 0 .acquire,
      .enqueuer false (.enqueue 8), .enqueuer false .emplace], rfl⟩
  exact ⟨_, hr, rfl, rfl, rfl, (alive_accounting _ hr rfl).1.symm⟩

end ThreadPool

end FastInAHurry
