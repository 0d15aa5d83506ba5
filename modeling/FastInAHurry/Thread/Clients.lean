import FastInAHurry.Library.Merge
import FastInAHurry.Library.Turns
import FastInAHurry.Thread.Shutdown
import Mathlib.Algebra.Order.BigOperators.Group.Finset

/-!
# A pool whose owner waits for the futures

The whole life of a pool that is used as its interface invites: any number of client threads enqueue
their tasks one after the other, the owner waits until the future of every task is ready, and then
the pool is destroyed. A future becomes ready when its task has been run.

A pool that is destroyed earlier can lose tasks. Used in this way it does not: every task is run
once, and every thread ends, under every schedule that keeps giving turns to all of them. The body
of the destructor is part of this; the destruction of the members behind it is not.

## Termination

While the pool is alive each task brings its token to a worker and itself to the same or another
one: the work left counts the stages that tasks and tokens still have to pass. Once every future is
ready the clients have ended too, since a task whose token is not yet released leaves another task
in the queue. From then on the work left is the distance of each worker to the end of its loop, with
what the destructor has to do.
-/

namespace FastInAHurry

open Census Turns

namespace PoolClients

open ThreadPool (Worker Enqueuer Destructor WorkerEvent EnqueuerEvent DestructorEvent WorkerMove
  EnqueuerMove DestructorMove Ordered Balanced Covered workerStep enqueuerStep destructorStep
  workerMove_of_step enqueuerMove_of_step destructorMove_of_step)

inductive Thread (n : ℕ) (ε : Type*) where
  | worker (i : Fin n)
  | client (p : ε)
  | owner
deriving DecidableEq

/-- The pool, and how many tasks each client has enqueued. -/
structure State (n : ℕ) (ε T : Type*) where
  pool : ThreadPool.State n ε T
  i : ε → ℕ

variable {n : ℕ} {ε T : Type*}

def init : State n ε T where
  pool := ThreadPool.init
  i := fun _ ↦ 0

/-- The next step of a worker, `none` once it has left its loop. -/
def workerEvent : Worker T → Option WorkerEvent
  | .testStop => some .testStop
  | .testStopping => some .testStopping
  | .acquire => some .acquire
  | .earlyStop => some .earlyStop
  | .earlyEmpty => some .earlyEmpty
  | .pop => some .pop
  | .run _ => some .run
  | .exited => none

/-- The next step of a client, `none` once it has enqueued all its tasks. -/
def clientEvent (todo : ε → List T) (s : State n ε T) (p : ε) : Option (EnqueuerEvent T) :=
  match s.pool.enqueuers p with
  | .idle => (todo p)[s.i p]?.map .enqueue
  | .emplace _ => some .emplace
  | .release => some .release

/-- The next step of the owner: it destroys the pool when as many tasks have been run as there are
futures. -/
def ownerEvent (futures : ℕ) (s : State n ε T) : Option DestructorEvent :=
  match s.pool.destructor with
  | .alive => if s.pool.ran.length = futures then some .store else none
  | .loop k => if k < n then some .release else none
  | .requestStop _ => some .requestStop

variable [DecidableEq ε]

/-- `enqueue` returns with the release of the semaphore. -/
def iNext (i : ε → ℕ) (p : ε) : EnqueuerEvent T → ε → ℕ
  | .release => Function.update i p (i p + 1)
  | _ => i

variable [Fintype ε]

def total (todo : ε → List T) : ℕ := ∑ p, (todo p).length

/-- A thread takes a turn. A worker that waits for the semaphore stays where it is. -/
def turn (todo : ε → List T) (s : State n ε T) : Thread n ε → State n ε T
  | .worker i =>
    match (workerEvent (s.pool.workers i)).bind (workerStep s.pool i) with
    | none => s
    | some pool => { s with pool := pool }
  | .client p =>
    match clientEvent todo s p with
    | none => s
    | some e =>
      match enqueuerStep s.pool p e with
      | none => s
      | some pool => { s with pool := pool, i := iNext s.i p e }
  | .owner =>
    match (ownerEvent (total todo) s).bind (destructorStep s.pool) with
    | none => s
    | some pool => { s with pool := pool }

variable {todo : ε → List T} {s t : State n ε T} {i : Fin n} {p : ε}

/-! ## What a turn does -/

/-- A turn of the worker `i`: a step of it, unless it has left its loop or has to wait. -/
inductive WorkerTurn (s : State n ε T) (i : Fin n) : State n ε T → Prop
  | exited (hw : s.pool.workers i = .exited) : WorkerTurn s i s
  | wait (hw : s.pool.workers i = .acquire) (hsem : s.pool.semaphore = 0) : WorkerTurn s i s
  | move {pool : ThreadPool.State n ε T} (hm : WorkerMove s.pool i pool) :
      WorkerTurn s i { s with pool := pool }

/-- A turn of the client `p`. -/
inductive ClientTurn (todo : ε → List T) (s : State n ε T) (p : ε) : State n ε T → Prop
  | done (hp : s.pool.enqueuers p = .idle) (hi : (todo p).length ≤ s.i p) : ClientTurn todo s p s
  | enqueue {task : T} (hp : s.pool.enqueuers p = .idle) (htask : (todo p)[s.i p]? = some task) :
      ClientTurn todo s p { s with pool := s.pool.setEnqueuer p (.emplace task) }
  | emplace {task : T} (hp : s.pool.enqueuers p = .emplace task) :
      ClientTurn todo s p { s with pool := { s.pool.setEnqueuer p .release with
        tasks := s.pool.tasks ++ [task]
        emplaced := s.pool.emplaced ++ [task] } }
  | release (hp : s.pool.enqueuers p = .release) :
      ClientTurn todo s p { s with
        pool := { s.pool.setEnqueuer p .idle with semaphore := s.pool.semaphore + 1 }
        i := Function.update s.i p (s.i p + 1) }

/-- A turn of the owner. -/
inductive OwnerTurn (todo : ε → List T) (s : State n ε T) : State n ε T → Prop
  | await (hd : s.pool.destructor = .alive) (hran : s.pool.ran.length ≠ total todo) :
      OwnerTurn todo s s
  | destroyed {k : ℕ} (hd : s.pool.destructor = .loop k) (hk : n ≤ k) : OwnerTurn todo s s
  | move {e : DestructorEvent} {pool : ThreadPool.State n ε T}
      (hst : destructorStep s.pool e = some pool)
      (hran : s.pool.destructor = .alive → s.pool.ran.length = total todo) :
      OwnerTurn todo s { s with pool := pool }

theorem workerTurn : WorkerTurn s i (turn todo s (.worker i)) := by
  rw [turn]
  cases hstep : (workerEvent (s.pool.workers i)).bind (workerStep s.pool i) with
  | some pool =>
    obtain ⟨e, -, he⟩ := Option.bind_eq_some_iff.mp hstep
    exact .move (workerMove_of_step he)
  | none =>
    cases hw : s.pool.workers i with
    | exited => exact .exited hw
    | acquire =>
      cases hsem : s.pool.semaphore with
      | zero => exact .wait hw hsem
      | succ k => simp [hw, workerEvent, workerStep, hsem] at hstep
    | pop => cases htasks : s.pool.tasks <;> simp [hw, workerEvent, workerStep, htasks] at hstep
    | _ => simp [hw, workerEvent, workerStep] at hstep

theorem clientTurn : ClientTurn todo s p (turn todo s (.client p)) := by
  rw [turn, clientEvent]
  cases hp : s.pool.enqueuers p with
  | idle =>
    cases htask : (todo p)[s.i p]? with
    | none => exact .done hp (List.getElem?_eq_none_iff.mp htask)
    | some task =>
      simp only [Option.map_some, enqueuerStep, hp]
      exact .enqueue hp htask
  | emplace task =>
    simp only [enqueuerStep, hp]
    exact .emplace hp
  | release =>
    simp only [enqueuerStep, hp]
    exact .release hp

theorem ownerTurn : OwnerTurn todo s (turn todo s .owner) := by
  rw [turn]
  cases hstep : (ownerEvent (total todo) s).bind (destructorStep s.pool) with
  | some pool =>
    obtain ⟨e, he, hst⟩ := Option.bind_eq_some_iff.mp hstep
    refine .move hst fun hd ↦ ?_
    rw [ownerEvent, hd] at he
    exact (Option.ite_none_right_eq_some.mp he).1
  | none =>
    cases hd : s.pool.destructor with
    | alive =>
      refine .await hd fun hran ↦ ?_
      simp [ownerEvent, hd, hran, destructorStep] at hstep
    | loop k =>
      refine .destroyed hd (Nat.not_lt.mp fun hk ↦ ?_)
      simp [ownerEvent, hd, hk, destructorStep] at hstep
    | requestStop k => simp [ownerEvent, hd, destructorStep] at hstep

/-! ## The invariant -/

/-- The tasks the client has put into the queue. -/
def queued (s : State n ε T) (p : ε) : ℕ := s.i p + (s.pool.enqueuers p).emplaced.toNat

/-- The task the client is enqueueing is the one its counter stands at. -/
def TaskOk (todo : List T) (i : ℕ) : Enqueuer T → Prop
  | .idle => i ≤ todo.length
  | .emplace task => todo[i]? = some task
  | .release => i < todo.length

structure Inv (todo : ε → List T) (s : State n ε T) : Prop where
  ordered : Ordered s.pool
  covered : Covered s.pool
  merge : Merge (fun p ↦ (todo p).take (queued s p)) s.pool.emplaced
  task_ok : ∀ p, TaskOk (todo p) (s.i p) (s.pool.enqueuers p)
  balanced : s.pool.destructor = .alive → Balanced s.pool
  staying : s.pool.destructor = .alive → ∀ i, s.pool.workers i ≠ .exited
  all_ran : s.pool.destructor ≠ .alive → s.pool.ran.length = total todo ∧
    ∀ p, s.pool.enqueuers p = .idle ∧ s.i p = (todo p).length

theorem Inv.init : Inv todo (init : State n ε T) where
  ordered := Ordered.init
  covered := Covered.init
  merge := Merge.nil
  task_ok _ := Nat.zero_le _
  balanced _ := Balanced.init
  staying _ _ := nofun
  all_ran h := absurd rfl h

theorem TaskOk.le {l : List T} {i : ℕ} {q : Enqueuer T} (h : TaskOk l i q) : i ≤ l.length := by
  cases q with
  | idle => exact h
  | emplace => exact (List.getElem?_eq_some_iff.mp h).1.le
  | release => exact Nat.le_of_lt h

theorem TaskOk.queued_le {l : List T} {i : ℕ} {q : Enqueuer T} (h : TaskOk l i q) :
    i + q.emplaced.toNat ≤ l.length := by
  cases q with
  | release => exact h
  | _ => exact h.le

theorem length_le_total {xs : List T} {k : ε → ℕ} (h : Merge (fun p ↦ (todo p).take (k p)) xs) :
    xs.length ≤ total todo := by
  rw [h.length_eq_sum]
  exact Finset.sum_le_sum fun p _ ↦ List.length_take_le' ..

theorem Inv.length_emplaced (h : Inv todo s) : s.pool.emplaced.length = ∑ p, queued s p := by
  rw [h.merge.length_eq_sum]
  refine Finset.sum_congr rfl fun p _ ↦ ?_
  exact List.length_take_of_le (h.task_ok p).queued_le

/-- The tasks run, running and queued are the tasks put into the queue. -/
theorem Inv.length_eq (h : Inv todo s) : s.pool.ran.length +
    Multiset.card (tally Worker.running s.pool.workers) + s.pool.tasks.length =
      s.pool.emplaced.length := by
  have hran := congrArg Multiset.card h.ordered.ran_eq
  rw [Multiset.card_add, Multiset.coe_card, Multiset.coe_card] at hran
  rw [← h.ordered.fifo, List.length_append, hran]

/-- If as many tasks were put into the queue as there are, every client has put all of its own. -/
theorem Inv.queued_eq (h : Inv todo s) (hall : total todo ≤ s.pool.emplaced.length) (p : ε) :
    queued s p = (todo p).length := by
  have hle : ∀ p ∈ Finset.univ, queued s p ≤ (todo p).length := fun p _ ↦ (h.task_ok p).queued_le
  refine (Finset.sum_eq_sum_iff_of_le hle).mp ?_ p (Finset.mem_univ p)
  rw [← h.length_emplaced]
  exact Nat.le_antisymm (length_le_total h.merge) hall

/-- **When every future is ready, the clients have ended**: no token is owed, since the queue is
empty and every owed token has a task in it. -/
theorem Inv.clients_done (h : Inv todo s) (halive : s.pool.destructor = .alive)
    (hran : total todo ≤ s.pool.ran.length) (p : ε) :
    s.pool.enqueuers p = .idle ∧ s.i p = (todo p).length := by
  have hlen := h.length_eq
  have hle := length_le_total h.merge
  have htokens := (h.balanced halive).tokens
  have hnone : (s.pool.enqueuers p).emplaced = false := by
    by_contra hne
    have := count_pos (P := Enqueuer.emplaced) (Bool.not_eq_false _ ▸ hne)
    omega
  have hqueued := h.queued_eq (by omega) p
  have hok := h.task_ok p
  rw [queued, hnone, Bool.toNat_false, Nat.add_zero] at hqueued
  rw [hqueued] at hok
  refine ⟨?_, hqueued⟩
  cases hp : s.pool.enqueuers p with
  | idle => rfl
  | emplace task =>
    rw [hp] at hok
    exact absurd (List.getElem?_eq_some_iff.mp hok).1 (lt_irrefl _)
  | release =>
    rw [hp] at hnone
    cases hnone

/-! ## The work left -/

/-- The worker is running a task. -/
def busy : Worker T → Bool
  | .run _ => true
  | _ => false

/-- The steps that the destructor still has to make. -/
def toDestroy : Destructor n → ℕ
  | .alive => 2 * n + 1
  | .loop k => 2 * (n - k)
  | .requestStop k => 2 * (n - k) - 1

/-- While the pool is alive, the stages that tasks and tokens have to pass; afterwards, what keeps
the workers and the destructor from their ends. -/
def workLeft (todo : ε → List T) (s : State n ε T) : ℕ :=
  match s.pool.destructor with
  | .alive => 5 * (total todo - s.pool.emplaced.length) +
      2 * count Enqueuer.emplaced s.pool.enqueuers + s.pool.semaphore + 2 * s.pool.tasks.length +
      count busy s.pool.workers + (9 * n + 1)
  | d => toDestroy d + tally Worker.rank s.pool.workers

omit [DecidableEq ε] in
theorem workLeft_of_alive (h : s.pool.destructor = .alive) :
    workLeft todo s = 5 * (total todo - s.pool.emplaced.length) +
      2 * count Enqueuer.emplaced s.pool.enqueuers + s.pool.semaphore + 2 * s.pool.tasks.length +
      count busy s.pool.workers + (9 * n + 1) := by
  rw [workLeft, h]

omit [DecidableEq ε] in
theorem workLeft_of_ne (h : s.pool.destructor ≠ .alive) :
    workLeft todo s = toDestroy s.pool.destructor + tally Worker.rank s.pool.workers := by
  rw [workLeft]
  split
  · rename_i halive
    exact absurd halive h
  · rfl

/-- How many turns a worker is away from taking a token, popping a task or running one; once the
pool is being destroyed, from the end of its loop. -/
def workerDistance : Worker T → ℕ
  | .testStop => 2
  | .testStopping => 1
  | .earlyStop => 2
  | .earlyEmpty => 1
  | _ => 0

/-- How many turns a client is away from queueing a task or releasing its token. -/
def clientDistance : Enqueuer T → ℕ
  | .idle => 1
  | _ => 0

def distance (s : State n ε T) : Thread n ε → ℕ
  | .worker i => workerDistance (s.pool.workers i)
  | .client p => clientDistance (s.pool.enqueuers p)
  | .owner => 0

/-- A worker gets on while there is a token, or with the token or the task it has, and once the
destructor has made all its releases; a client while it has tasks; the owner when every future is
ready, until it has released and stopped every worker. -/
def Helpful (todo : ε → List T) (s : State n ε T) : Thread n ε → Prop
  | .worker i => if s.pool.destructor = .alive then
      0 < s.pool.semaphore ∨ (s.pool.workers i).acquired = true ∨ busy (s.pool.workers i) = true
    else toDestroy s.pool.destructor = 0 ∧ s.pool.workers i ≠ .exited
  | .client p => s.i p < (todo p).length
  | .owner => s.pool.ran.length = total todo ∧ toDestroy s.pool.destructor ≠ 0

/-- What a turn leaves alone that does none of the work. -/
structure Quiet (s t : State n ε T) : Prop where
  destructor_eq : t.pool.destructor = s.pool.destructor
  semaphore_eq : t.pool.semaphore = s.pool.semaphore
  ran_eq : t.pool.ran = s.pool.ran
  i_eq : t.i = s.i
  worker : ∀ i, (t.pool.workers i).acquired = (s.pool.workers i).acquired ∧
    busy (t.pool.workers i) = busy (s.pool.workers i) ∧
    (t.pool.workers i = .exited ↔ s.pool.workers i = .exited)

omit [DecidableEq ε] [Fintype ε] in
theorem Quiet.refl (s : State n ε T) : Quiet s s :=
  ⟨rfl, rfl, rfl, rfl, fun _ ↦ ⟨rfl, rfl, Iff.rfl⟩⟩

omit [DecidableEq ε] in
theorem Helpful.of_quiet {u : Thread n ε} (hq : Quiet s t) (h : Helpful todo s u) :
    Helpful todo t u := by
  cases u with
  | worker i =>
    obtain ⟨hacq, hbusy, hexit⟩ := hq.worker i
    simp only [Helpful, hq.destructor_eq, hq.semaphore_eq, hacq, hbusy, Ne, hexit]
    exact h
  | client p =>
    simp only [Helpful, hq.i_eq]
    exact h
  | owner =>
    simp only [Helpful, hq.ran_eq, hq.destructor_eq]
    exact h

/-- What every turn achieves: the invariant, and some of the work or an approach to it. -/
structure Turned (todo : ε → List T) (s t : State n ε T) (u : Thread n ε) : Prop where
  inv : Inv todo t
  progress : workLeft todo t < workLeft todo s ∨ workLeft todo t = workLeft todo s ∧ Quiet s t ∧
    (Helpful todo s u → distance t u < distance s u)
  workers_eq : ∀ i, u ≠ .worker i → t.pool.workers i = s.pool.workers i
  enqueuers_eq : ∀ p, u ≠ .client p → t.pool.enqueuers p = s.pool.enqueuers p

/-- A turn that leaves everything as it is. -/
theorem Turned.stutter (h : Inv todo s) {u : Thread n ε} (hu : ¬Helpful todo s u) :
    Turned todo s s u :=
  ⟨h, .inr ⟨rfl, .refl s, fun hhelp ↦ absurd hhelp hu⟩, fun _ _ ↦ rfl, fun _ _ ↦ rfl⟩

/-! ## Turns of the workers -/

omit [DecidableEq ε] [Fintype ε] in
theorem frame_of_worker {pool : ThreadPool.State n ε T} (hm : WorkerMove s.pool i pool) :
    pool.enqueuers = s.pool.enqueuers ∧ pool.emplaced = s.pool.emplaced ∧
      pool.destructor = s.pool.destructor ∧ s.pool.ran.length ≤ pool.ran.length ∧
      ∀ j, j ≠ i → pool.workers j = s.pool.workers j := by
  cases hm with
  | point | acquire | pop =>
    exact ⟨rfl, rfl, rfl, le_rfl, fun j hj ↦ Function.update_of_ne hj ..⟩
  | run =>
    refine ⟨rfl, rfl, rfl, ?_, fun j hj ↦ Function.update_of_ne hj ..⟩
    exact (List.prefix_append _ _).length_le

omit [DecidableEq ε] in
/-- While the pool is alive, a worker that only moves its program point does not leave its loop, and
comes closer to a piece of work. -/
theorem alive_of_next (hb : Balanced s.pool) {w : Worker T}
    (hn : ThreadPool.WorkerNext s.pool i (s.pool.workers i) w) :
    w ≠ .exited ∧ s.pool.workers i ≠ .exited ∧
      w.acquired = (s.pool.workers i).acquired ∧ busy w = busy (s.pool.workers i) ∧
      workerDistance w < workerDistance (s.pool.workers i) := by
  have hstop := hb.stop_eq i
  have htasks := hb.tasks_ne_nil (i := i)
  generalize s.pool.workers i = w₀ at hn htasks ⊢
  cases hn with
  | stopRequested h | askEmpty h =>
    rw [hstop] at h
    cases h
  | stoppingSeen h =>
    rw [hb.stopping_eq] at h
    cases h
  | earlyExit h | nothingToPop h => exact absurd h (htasks rfl)
  | notRequested | passed | askNothing | noEarlyExit =>
    exact ⟨nofun, nofun, rfl, rfl, by simp [workerDistance]⟩

theorem Inv.of_worker (h : Inv todo s) {pool : ThreadPool.State n ε T}
    (hm : WorkerMove s.pool i pool) : Inv todo { s with pool := pool } := by
  obtain ⟨henq, hemplaced, hdest, hran, hother⟩ := frame_of_worker hm
  have hqueued : ∀ p, queued { s with pool := pool } p = queued s p := fun p ↦ by
    simp only [queued, henq]
  have hmerge : Merge (fun p ↦ (todo p).take (queued { s with pool := pool } p)) pool.emplaced := by
    simpa only [hqueued, hemplaced] using h.merge
  refine ⟨h.ordered.worker hm, h.covered.worker hm, hmerge, ?_, ?_, ?_, ?_⟩
  · simpa only [henq] using h.task_ok
  · intro halive
    exact (h.balanced (hdest ▸ halive)).worker hm
  · intro halive j
    have halive' : s.pool.destructor = .alive := hdest ▸ halive
    by_cases hj : j = i
    · subst hj
      cases hm with
      | point hn => simpa using (alive_of_next (h.balanced halive') hn).1
      | acquire | pop | run => simp
    · show pool.workers j ≠ .exited
      rw [hother j hj]
      exact h.staying halive' j
  · intro hne
    obtain ⟨hlen, hclients⟩ := h.all_ran (hdest ▸ hne)
    refine ⟨?_, by simpa only [henq] using hclients⟩
    -- everything had been run, so this was no run of a task
    have htaken := congrArg Multiset.card (h.ordered.worker hm).ran_eq
    have hfifo := congrArg List.length (h.ordered.worker hm).fifo
    have hle := length_le_total hmerge
    rw [Multiset.card_add, Multiset.coe_card, Multiset.coe_card] at htaken
    rw [List.length_append] at hfifo
    show pool.ran.length = total todo
    omega

omit [DecidableEq ε] [Fintype ε] in
/-- While the pool is alive, a move of the worker `i` brings a token, a task or a run on by a stage,
or only moves the program point. -/
theorem alive_of_move {pool : ThreadPool.State n ε T} (hm : WorkerMove s.pool i pool) :
    ∃ w, pool.workers = Function.update s.pool.workers i w ∧
      (pool.semaphore + 2 * pool.tasks.length + (busy w).toNat <
          s.pool.semaphore + 2 * s.pool.tasks.length + (busy (s.pool.workers i)).toNat ∨
        pool = s.pool.setWorker i w ∧
          ThreadPool.WorkerNext s.pool i (s.pool.workers i) w) := by
  cases hm with
  | point hn => exact ⟨_, rfl, .inr ⟨rfl, hn⟩⟩
  | acquire hw hsem =>
    refine ⟨_, rfl, .inl ?_⟩
    rw [hw, hsem]
    simp [busy, ThreadPool.State.setWorker]
  | pop hw htasks =>
    refine ⟨_, rfl, .inl ?_⟩
    rw [hw, htasks]
    simp only [busy, ThreadPool.State.setWorker, Bool.toNat_false, Bool.toNat_true,
      List.length_cons]
    omega
  | run hw =>
    refine ⟨_, rfl, .inl ?_⟩
    rw [hw]
    simp [busy, ThreadPool.State.setWorker]

variable (todo) in
omit [DecidableEq ε] in
/-- The work left after a move of the worker `i` while the pool is alive. -/
theorem workLeft_of_move {pool : ThreadPool.State n ε T} {w : Worker T}
    (halive : s.pool.destructor = .alive) (hm : WorkerMove s.pool i pool)
    (hworkers : pool.workers = Function.update s.pool.workers i w) :
    workLeft todo { s with pool := pool } + (s.pool.semaphore + 2 * s.pool.tasks.length +
        (busy (s.pool.workers i)).toNat) =
      workLeft todo s + (pool.semaphore + 2 * pool.tasks.length + (busy w).toNat) := by
  obtain ⟨henq, hemplaced, hdest, -⟩ := frame_of_worker hm
  have hcount := count_update busy s.pool.workers i w
  have hafter : workLeft todo { s with pool := pool } =
      5 * (total todo - pool.emplaced.length) + 2 * count Enqueuer.emplaced pool.enqueuers +
        pool.semaphore + 2 * pool.tasks.length + count busy pool.workers + (9 * n + 1) :=
    workLeft_of_alive (hdest.trans halive)
  rw [hafter, workLeft_of_alive halive, henq, hemplaced, hworkers]
  omega

/-- After the last release of the destructor there is a token for every worker that waits. -/
theorem Inv.exists_token (h : Inv todo s) (hne : s.pool.destructor ≠ .alive)
    (hzero : toDestroy s.pool.destructor = 0) (hw : s.pool.workers i = .acquire) :
    0 < s.pool.semaphore := by
  have hrel : s.pool.destructor.released = n := by
    have hle := h.covered.released_le
    generalize s.pool.destructor = d at hle hzero hne
    cases d with
    | alive => exact absurd rfl hne
    | loop k =>
      simp only [toDestroy, ThreadPool.Destructor.released] at hzero hle ⊢
      omega
    | requestStop k =>
      simp only [toDestroy] at hzero
      omega
  have hpos : 0 < count Worker.waiting s.pool.workers := count_pos (by rw [hw]; rfl)
  exact hpos.trans_le (h.covered.waiting_le hrel)

theorem WorkerTurn.turned (h : Inv todo s) (ht : WorkerTurn s i t) :
    Turned todo s t (.worker i) := by
  cases ht with
  | exited hw =>
    refine .stutter h fun hhelp ↦ ?_
    by_cases halive : s.pool.destructor = .alive
    · exact h.staying halive i hw
    · rw [Helpful, if_neg halive] at hhelp
      exact hhelp.2 hw
  | wait hw hsem =>
    refine .stutter h fun hhelp ↦ ?_
    by_cases halive : s.pool.destructor = .alive
    · rw [Helpful, if_pos halive, hw, hsem] at hhelp
      rcases hhelp with hpos | hacq | hbusy
      · exact lt_irrefl _ hpos
      · cases hacq
      · cases hbusy
    · rw [Helpful, if_neg halive] at hhelp
      exact (h.exists_token halive hhelp.1 hw).ne' hsem
  | @move pool hm =>
    obtain ⟨henq, -, hdest, -, hother⟩ := frame_of_worker hm
    refine ⟨h.of_worker hm, ?_, fun j hj ↦ hother j fun heq ↦ hj (by rw [heq]),
      fun p _ ↦ congrFun henq p⟩
    by_cases halive : s.pool.destructor = .alive
    · have hb := h.balanced halive
      obtain ⟨w, hworkers, hmove⟩ := alive_of_move hm
      have hwork := workLeft_of_move todo halive hm hworkers
      rcases hmove with hlt | ⟨rfl, hn⟩
      · left
        omega
      · right
        obtain ⟨hw, hw', hacq, hbusy, hd⟩ := alive_of_next hb hn
        have hself : (s.pool.setWorker i w).workers i = w := ThreadPool.setWorker_self
        refine ⟨?_, ⟨rfl, rfl, rfl, rfl, fun j ↦ ?_⟩, fun _ ↦ ?_⟩
        · rw [hbusy] at hwork
          exact Nat.add_right_cancel hwork
        · by_cases hj : j = i
          · subst hj
            rw [hself]
            exact ⟨hacq, hbusy, iff_of_false hw hw'⟩
          · rw [hother j hj]
            exact ⟨rfl, rfl, Iff.rfl⟩
        · simp only [distance, hself]
          exact hd
    · left
      have hrank := ThreadPool.rank_lt_of_worker (h.covered.stopping_iff.mpr halive) hm
      have hworkers : pool.workers = Function.update s.pool.workers i (pool.workers i) :=
        (Function.eq_update_iff).mpr ⟨rfl, hother⟩
      have htally := tally_update Worker.rank s.pool.workers i (pool.workers i)
      rw [← hworkers] at htally
      have hafter : workLeft todo { s with pool := pool } =
          toDestroy pool.destructor + tally Worker.rank pool.workers :=
        workLeft_of_ne (by rw [hdest]; exact halive)
      rw [hafter, workLeft_of_ne halive, hdest]
      omega

/-! ## Turns of the clients and of the owner -/

omit [Fintype ε] in
theorem frame_of_client {pool : ThreadPool.State n ε T} (hm : EnqueuerMove s.pool p pool) :
    pool.workers = s.pool.workers ∧ pool.destructor = s.pool.destructor ∧
      pool.ran = s.pool.ran ∧ ∀ p', p' ≠ p → pool.enqueuers p' = s.pool.enqueuers p' := by
  cases hm <;> exact ⟨rfl, rfl, rfl, fun p' hp' ↦ Function.update_of_ne hp' ..⟩

/-- The invariant after a move of the client `p` to `q`, with what it has queued then. Clients move
only while the pool is alive. -/
theorem Inv.of_client (h : Inv todo s) (halive : s.pool.destructor = .alive)
    {pool : ThreadPool.State n ε T} {i' : ε → ℕ} {q : Enqueuer T}
    (hm : EnqueuerMove s.pool p pool)
    (henq : pool.enqueuers = Function.update s.pool.enqueuers p q)
    (hi : ∀ p', p' ≠ p → i' p' = s.i p')
    (hmerge : Merge (fun p' ↦ (todo p').take
      (if p' = p then i' p + q.emplaced.toNat else queued s p')) pool.emplaced)
    (hok : TaskOk (todo p) (i' p) q) : Inv todo { pool := pool, i := i' } := by
  obtain ⟨hworkers, hdest, -⟩ := frame_of_client hm
  have hqueued : ∀ p', queued { pool := pool, i := i' } p' =
      if p' = p then i' p + q.emplaced.toNat else queued s p' := fun p' ↦ by
    rw [queued]
    simp only [henq]
    split <;> rename_i hp'
    · rw [hp', Function.update_self]
    · rw [Function.update_of_ne hp', hi p' hp', queued]
  refine ⟨?_, ?_, ?_, ?_, ?_, ?_, fun hne ↦ absurd (hdest.trans halive) hne⟩
  · have hord := h.ordered
    cases hm with
    | enqueue | release => exact ⟨hord.fifo, hord.ran_eq⟩
    | @emplace task =>
      refine ⟨?_, hord.ran_eq⟩
      show s.pool.taken ++ (s.pool.tasks ++ [task]) = s.pool.emplaced ++ [task]
      rw [← hord.fifo, List.append_assoc]
  · have hcov := h.covered
    cases hm with
    | enqueue | emplace => exact ⟨hcov.stopping_iff, hcov.released_le, hcov.covers⟩
    | release =>
      refine ⟨hcov.stopping_iff, hcov.released_le, hcov.covers.trans ?_⟩
      exact Nat.add_le_add_right (Nat.le_succ _) n
  · simpa only [hqueued] using hmerge
  · simp only [henq]
    refine (Function.forall_update_iff _ fun p' r ↦ TaskOk (todo p') (i' p') r).mpr ⟨hok, ?_⟩
    intro p' hp'
    rw [hi p' hp']
    exact h.task_ok p'
  · exact fun _ ↦ (h.balanced halive).enqueuer hm
  · intro _ j
    show pool.workers j ≠ .exited
    rw [hworkers]
    exact h.staying halive j

/-- A client that has not ended finds the pool alive. -/
theorem Inv.alive_of_client (h : Inv todo s)
    (hp : s.pool.enqueuers p ≠ .idle ∨ s.i p < (todo p).length) :
    s.pool.destructor = .alive := by
  by_contra hne
  obtain ⟨hidle, hi⟩ := (h.all_ran hne).2 p
  rcases hp with hp | hp
  · exact hp hidle
  · exact hp.ne hi

theorem ClientTurn.turned (h : Inv todo s) (ht : ClientTurn todo s p t) :
    Turned todo s t (.client p) := by
  have hok := h.task_ok p
  have hsame : ∀ {k}, k = queued s p → Merge (fun p' ↦ (todo p').take
      (if p' = p then k else queued s p')) s.pool.emplaced := fun hk ↦ by
    have heq : ∀ p', (if p' = p then queued s p else queued s p') = queued s p' := fun p' ↦ by
      split <;> rename_i hp'
      · rw [hp']
      · rfl
    simpa only [hk, heq] using h.merge
  cases ht with
  | done hp hi => exact .stutter h fun hhelp ↦ absurd hhelp (Nat.not_lt.mpr hi)
  | @enqueue task hp htask =>
    have halive := h.alive_of_client (.inr (List.getElem?_eq_some_iff.mp htask).1)
    have hm := EnqueuerMove.enqueue task hp
    refine ⟨h.of_client halive hm rfl (fun _ _ ↦ rfl) (hsame ?_) htask, .inr ⟨?_, ?_, fun _ ↦ ?_⟩,
      fun _ _ ↦ rfl, fun p' hp' ↦ Function.update_of_ne (fun heq ↦ hp' (by rw [heq])) ..⟩
    · rw [queued, hp]
      rfl
    · have hcount := count_update Enqueuer.emplaced s.pool.enqueuers p (.emplace task)
      rw [hp] at hcount
      refine (workLeft_of_alive (by exact halive)).trans
        (Eq.trans ?_ (workLeft_of_alive halive).symm)
      simp only [ThreadPool.State.setEnqueuer, Nat.add_right_cancel hcount]
    · exact ⟨rfl, rfl, rfl, rfl, fun _ ↦ ⟨rfl, rfl, Iff.rfl⟩⟩
    · simp [distance, clientDistance, hp, ThreadPool.State.setEnqueuer]
  | @emplace task hp =>
    rw [hp] at hok
    have halive := h.alive_of_client (p := p) (.inl (by simp [hp]))
    have hm := EnqueuerMove.emplace hp
    have hqueued : queued s p = s.i p := by
      rw [queued, hp]
      rfl
    have hmerge : Merge (fun p' ↦ (todo p').take
        (if p' = p then s.i p + 1 else queued s p')) (s.pool.emplaced ++ [task]) := by
      refine h.merge.push (p := p) ?_ fun p' hp' ↦ by rw [if_neg hp']
      rw [if_pos rfl, hqueued, List.take_add_one, show (todo p)[s.i p]? = some task from hok]
      rfl
    refine ⟨h.of_client halive hm rfl (fun _ _ ↦ rfl) hmerge (List.getElem?_eq_some_iff.mp hok).1,
      .inl ?_, fun _ _ ↦ rfl,
      fun p' hp' ↦ Function.update_of_ne (fun heq ↦ hp' (by rw [heq])) ..⟩
    have hcount := count_update Enqueuer.emplaced s.pool.enqueuers p .release
    have hle := length_le_total hmerge
    rw [hp] at hcount
    refine (workLeft_of_alive (by exact halive)).trans_lt (lt_of_lt_of_eq ?_
      (workLeft_of_alive halive).symm)
    simp only [ThreadPool.State.setEnqueuer, List.length_append, List.length_singleton,
      Enqueuer.emplaced, Bool.toNat_false, Bool.toNat_true] at hcount hle ⊢
    omega
  | release hp =>
    rw [hp] at hok
    have halive := h.alive_of_client (p := p) (.inl (by simp [hp]))
    have hm := EnqueuerMove.release hp
    have hi : Function.update s.i p (s.i p + 1) p = s.i p + 1 := Function.update_self ..
    refine ⟨h.of_client halive hm rfl (fun p' hp' ↦ Function.update_of_ne hp' ..) (hsame ?_) ?_,
      .inl ?_, fun _ _ ↦ rfl,
      fun p' hp' ↦ Function.update_of_ne (fun heq ↦ hp' (by rw [heq])) ..⟩
    · rw [queued, hp, hi]
      rfl
    · rw [hi]
      exact hok
    · have hcount := count_update Enqueuer.emplaced s.pool.enqueuers p .idle
      rw [hp] at hcount
      refine (workLeft_of_alive (by exact halive)).trans_lt (lt_of_lt_of_eq ?_
        (workLeft_of_alive halive).symm)
      simp only [ThreadPool.State.setEnqueuer, Enqueuer.emplaced, Bool.toNat_false,
        Bool.toNat_true] at hcount ⊢
      omega

omit [DecidableEq ε] [Fintype ε] in
theorem tally_rank_le (s : State n ε T) : tally Worker.rank s.pool.workers ≤ 7 * n := by
  refine (Finset.sum_le_card_nsmul _ _ 7 fun i _ ↦ Worker.rank_le _).trans_eq ?_
  rw [Finset.card_univ, Fintype.card_fin, Nat.nsmul_eq_mul, Nat.mul_comm]

theorem OwnerTurn.turned (h : Inv todo s) (ht : OwnerTurn todo s t) : Turned todo s t .owner := by
  cases ht with
  | await hd hran => exact .stutter h fun hhelp ↦ hran hhelp.1
  | destroyed hd hk =>
    refine .stutter h fun hhelp ↦ hhelp.2 ?_
    rw [hd, toDestroy, Nat.sub_eq_zero_of_le hk]
  | @move e pool hst hran =>
    have hord := h.ordered.step (e := .destructor e) hst
    have hcov := h.covered.step (e := .destructor e) hst
    cases destructorMove_of_step hst with
    | store hd =>
      refine ⟨⟨hord, hcov, h.merge, h.task_ok, by simp, by simp, fun _ ↦ ⟨hran hd, ?_⟩⟩, .inl ?_,
        fun _ _ ↦ rfl, fun _ _ ↦ rfl⟩
      · exact h.clients_done hd (hran hd).ge
      · have hrank := tally_rank_le s
        refine (workLeft_of_ne (by simp)).trans_lt (lt_of_lt_of_eq ?_
          (workLeft_of_alive hd).symm)
        simp only [toDestroy]
        omega
    | @release k hd hk =>
      have hne : s.pool.destructor ≠ .alive := by
        rw [hd]
        simp
      refine ⟨⟨hord, hcov, h.merge, h.task_ok, by simp, by simp, fun _ ↦ h.all_ran hne⟩, .inl ?_,
        fun _ _ ↦ rfl, fun _ _ ↦ rfl⟩
      refine (workLeft_of_ne (by simp)).trans_lt
        (lt_of_lt_of_eq ?_ (workLeft_of_ne hne).symm)
      simp only [toDestroy, hd]
      omega
    | @requestStop k hd =>
      have hk := k.isLt
      have hne : s.pool.destructor ≠ .alive := by
        rw [hd]
        simp
      refine ⟨⟨hord, hcov, h.merge, h.task_ok, by simp, by simp, fun _ ↦ h.all_ran hne⟩, .inl ?_,
        fun _ _ ↦ rfl, fun _ _ ↦ rfl⟩
      refine (workLeft_of_ne (by simp)).trans_lt
        (lt_of_lt_of_eq ?_ (workLeft_of_ne hne).symm)
      simp only [toDestroy, hd]
      omega

theorem turned (h : Inv todo s) (u : Thread n ε) : Turned todo s (turn todo s u) u := by
  cases u with
  | worker i => exact workerTurn.turned h
  | client p => exact clientTurn.turned h
  | owner => exact ownerTurn.turned h

/-! ## Everything is run and everybody ends -/

/-- The pool has been destroyed: every client has enqueued its tasks, every task has been run, every
worker has left its loop, and the destructor has dealt with each of them. -/
structure Finished (todo : ε → List T) (s : State n ε T) : Prop where
  clients : ∀ p, s.pool.enqueuers p = .idle ∧ s.i p = (todo p).length
  all_ran : (s.pool.ran : Multiset T) = ∑ p, (todo p : Multiset T)
  workers : ∀ i, s.pool.workers i = .exited
  destructor : s.pool.destructor = .loop n

/-- When as many tasks have been run as there are, each has been run once, and each client's have
been taken in their order. -/
theorem Inv.ran_all (h : Inv todo s) (hran : total todo ≤ s.pool.ran.length) :
    Merge todo s.pool.taken ∧ (s.pool.ran : Multiset T) = ∑ p, (todo p : Multiset T) := by
  have hlen := h.length_eq
  have hle := length_le_total h.merge
  have hqueued : ∀ p, (todo p).take (queued s p) = todo p := fun p ↦ by
    rw [h.queued_eq (by omega) p, List.take_length]
  have htasks : s.pool.tasks = [] := List.length_eq_zero_iff.mp (by omega)
  have hrunning : tally Worker.running s.pool.workers = 0 := Multiset.card_eq_zero.mp (by omega)
  have hfifo := h.ordered.fifo
  have hmerge := h.merge
  simp only [hqueued] at hmerge
  rw [htasks, List.append_nil] at hfifo
  rw [← hfifo] at hmerge
  have hrancoe := h.ordered.ran_eq
  rw [hrunning, add_zero] at hrancoe
  exact ⟨hmerge, hrancoe.symm.trans hmerge.coe_eq_sum⟩

theorem Inv.finished (h : Inv todo s) (hzero : workLeft todo s = 0) : Finished todo s := by
  have hne : s.pool.destructor ≠ .alive := fun halive ↦ by
    rw [workLeft_of_alive halive] at hzero
    omega
  rw [workLeft_of_ne hne, Nat.add_eq_zero_iff] at hzero
  obtain ⟨hdestroy, hrank⟩ := hzero
  obtain ⟨hran, hclients⟩ := h.all_ran hne
  refine ⟨hclients, (h.ran_all hran.ge).2, fun i ↦ ?_, ?_⟩
  · have hi := Finset.sum_eq_zero_iff.mp hrank i (Finset.mem_univ i)
    cases hw : s.pool.workers i <;> rw [hw] at hi <;> simp [Worker.rank] at hi ⊢
  · have hle := h.covered.released_le
    generalize s.pool.destructor = d at hdestroy hle hne
    cases d with
    | alive => exact absurd rfl hne
    | loop k =>
      simp only [toDestroy, ThreadPool.Destructor.released] at hdestroy hle
      rw [show k = n by omega]
    | requestStop k =>
      have hk := k.isLt
      simp only [toDestroy] at hdestroy
      omega

theorem Inv.exists_helpful (hn : 0 < n) (h : Inv todo s) (hleft : workLeft todo s ≠ 0) :
    ∃ u, Helpful todo s u := by
  by_contra hno
  have hno' : ∀ u, ¬Helpful todo s u := fun u hu ↦ hno ⟨u, hu⟩
  have hclient : ∀ p, (todo p).length ≤ s.i p := fun p ↦ Nat.not_lt.mp (hno' (.client p))
  by_cases halive : s.pool.destructor = .alive
  · -- the clients have ended, no token is left and no worker has one: everything has been run
    have hworker : ∀ i, s.pool.semaphore = 0 ∧ (s.pool.workers i).acquired = false ∧
        busy (s.pool.workers i) = false := fun i ↦ by
      have hi := hno' (.worker i)
      rw [Helpful, if_pos halive] at hi
      simpa using hi
    have howed : count Enqueuer.emplaced s.pool.enqueuers = 0 := count_eq_zero fun p ↦ by
      have hok := h.task_ok p
      have := hclient p
      cases hp : s.pool.enqueuers p with
      | release =>
        rw [hp] at hok
        exact absurd hok (Nat.not_lt.mpr this)
      | _ => rfl
    have htokens := (h.balanced halive).tokens
    rw [howed, count_eq_zero fun i ↦ (hworker i).2.1, (hworker ⟨0, hn⟩).1] at htokens
    have hrunning : tally Worker.running s.pool.workers = 0 := tally_eq_zero fun i ↦ by
      have hi := (hworker i).2.2
      cases hw : s.pool.workers i with
      | run task =>
        rw [hw] at hi
        cases hi
      | _ => rfl
    have hlen := h.length_eq
    rw [hrunning, Multiset.card_zero] at hlen
    have hemplaced : s.pool.emplaced.length = total todo := by
      rw [h.merge.length_eq_sum]
      refine Finset.sum_congr rfl fun p _ ↦ ?_
      rw [List.take_of_length_le ((hclient p).trans (Nat.le_add_right _ _) : _ ≤ queued s p)]
    refine hno' .owner ⟨by omega, ?_⟩
    rw [halive]
    exact Nat.succ_ne_zero _
  · have hdestroy : toDestroy s.pool.destructor = 0 := by
      by_contra hne
      exact hno' .owner ⟨(h.all_ran halive).1, hne⟩
    have hexited : ∀ i, s.pool.workers i = .exited := fun i ↦ by
      have hi := hno' (.worker i)
      rw [Helpful, if_neg halive] at hi
      by_contra hne
      exact hi ⟨hdestroy, hne⟩
    refine hleft ?_
    rw [workLeft_of_ne halive, hdestroy, tally_eq_zero fun i ↦ by rw [hexited i]; rfl, Nat.add_zero]

theorem progress (hn : 0 < n) (todo : ε → List T) :
    Progress (turn (n := n) todo) (Inv todo) (workLeft todo) (Helpful todo) distance where
  inv _ u h := (turned h u).inv
  mono s u h := by
    rcases (turned h u).progress with hlt | ⟨heq, -⟩
    · exact hlt.le
    · exact heq.le
  exists_helpful s h hleft := h.exists_helpful hn hleft
  stays s u v h hu heq := by
    rcases (turned h v).progress with hlt | ⟨-, hquiet, -⟩
    · exact absurd heq hlt.ne
    · exact hu.of_quiet hquiet
  closer s u h hu heq := by
    rcases (turned h u).progress with hlt | ⟨-, -, hd⟩
    · exact absurd heq hlt.ne
    · exact hd hu
  keeps s u v h _ hvu _ := by
    have hv := turned h v
    cases u with
    | worker i => simp only [distance, hv.workers_eq i hvu, le_refl]
    | client p => simp only [distance, hv.enqueuers_eq p hvu, le_refl]
    | owner => exact le_rfl

/-- **Waiting for the futures is enough, for every schedule.** The destructor begins only when every
task of every client has been run, exactly once, and every client has ended; at any time the tasks
taken are a merge of first parts of what the clients enqueue, each client's in its order. -/
theorem clients_served (todo : ε → List T) (schedule : List (Thread n ε)) :
    let s := play (turn todo) init schedule
    (∃ firsts : ε → List T, (∀ p, firsts p <+: todo p) ∧ Merge firsts s.pool.taken) ∧
    (s.pool.destructor ≠ .alive → Merge todo s.pool.taken ∧
      (s.pool.ran : Multiset T) = ∑ p, (todo p : Multiset T) ∧ s.pool.tasks = [] ∧
      (∀ i task, s.pool.workers i ≠ .run task) ∧
      ∀ p, s.pool.enqueuers p = .idle ∧ s.i p = (todo p).length) := by
  intro s
  have h : Inv todo s :=
    play_invariant (I := Inv todo) (fun _ u hs ↦ (turned hs u).inv) Inv.init schedule
  refine ⟨?_, fun hne ↦ ?_⟩
  · have hpre : s.pool.taken <+: s.pool.emplaced := by
      rw [← h.ordered.fifo]
      exact List.prefix_append _ _
    obtain ⟨firsts, hfirsts, hmerge⟩ := h.merge.of_prefix hpre
    exact ⟨firsts, fun p ↦ (hfirsts p).trans (List.take_prefix _ _), hmerge⟩
  · obtain ⟨hran, hclients⟩ := h.all_ran hne
    obtain ⟨hmerge, hall⟩ := h.ran_all hran.ge
    have hlen := h.length_eq
    have hle := length_le_total h.merge
    refine ⟨hmerge, hall, List.length_eq_zero_iff.mp (by omega), fun i task hw ↦ ?_, hclients⟩
    have hi : Worker.running (s.pool.workers i) ≤ tally Worker.running s.pool.workers :=
      Finset.single_le_sum (fun _ _ ↦ Multiset.zero_le _) (Finset.mem_univ i)
    have hcard := Multiset.card_le_card hi
    rw [hw, Worker.running, Multiset.card_singleton] at hcard
    omega

end PoolClients

end FastInAHurry
