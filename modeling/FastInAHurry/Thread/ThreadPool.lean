import FastInAHurry.Library.Runs
import Mathlib.Logic.Function.Basic

/-!
# The thread pool

The embedding of `thread/ThreadPool.hpp`: the loop of the workers, `enqueue` for any number of
calling threads, and the destructor. A block under the mutex is one event, and so are each read of a
stop flag, each operation on the semaphore and the run of a task. The emptiness test of the early
exit is made without the mutex and is an event of its own. Tasks are assumed to return.

The destructor stores `m_stopping` and then, for one worker after the other, releases the semaphore
and requests the stop.

The histories `emplaced`, `taken` and `ran` are not part of the pool: they record the tasks
enqueued, popped and run, in that order.
-/

namespace FastInAHurry

namespace ThreadPool

/-- Where a worker stands in its loop. -/
inductive Worker (T : Type*) where
  | testStop
  | testStopping
  | acquire
  | earlyStop
  | earlyEmpty
  | pop
  | run (task : T)
  | exited
deriving DecidableEq

/-- Where a thread stands inside `enqueue`. -/
inductive Enqueuer (T : Type*) where
  | idle
  | emplace (task : T)
  | release
deriving DecidableEq

/-- Where the destructor stands; `loop k` has dealt with the first `k` workers. -/
inductive Destructor (n : ℕ) where
  | alive
  | loop (k : ℕ)
  | requestStop (k : Fin n)
deriving DecidableEq

structure State (n : ℕ) (ε T : Type*) where
  tasks : List T
  semaphore : ℕ
  stopping : Bool
  stop : Fin n → Bool
  workers : Fin n → Worker T
  enqueuers : ε → Enqueuer T
  destructor : Destructor n
  emplaced : List T
  taken : List T
  ran : List T

inductive WorkerEvent where
  | testStop
  | testStopping
  | acquire
  | earlyStop
  | earlyEmpty
  | pop
  | run
deriving DecidableEq

inductive EnqueuerEvent (T : Type*) where
  | enqueue (task : T)
  | emplace
  | release
deriving DecidableEq

inductive DestructorEvent where
  | store
  | release
  | requestStop
deriving DecidableEq

/-- What a schedule can do next. -/
inductive Event (n : ℕ) (ε T : Type*) where
  | worker (i : Fin n) (e : WorkerEvent)
  | enqueuer (p : ε) (e : EnqueuerEvent T)
  | destructor (e : DestructorEvent)
deriving DecidableEq

variable {n : ℕ} {ε T : Type*}

/-- The pool as constructed: every worker is before its first loop test. -/
def init : State n ε T where
  tasks := []
  semaphore := 0
  stopping := false
  stop := fun _ ↦ false
  workers := fun _ ↦ .testStop
  enqueuers := fun _ ↦ .idle
  destructor := .alive
  emplaced := []
  taken := []
  ran := []

/-- Move the worker `i` to the program point `w`. -/
def State.setWorker (s : State n ε T) (i : Fin n) (w : Worker T) : State n ε T :=
  { s with workers := Function.update s.workers i w }

/-- A step of the worker `i`. -/
def workerStep (s : State n ε T) (i : Fin n) (e : WorkerEvent) : Option (State n ε T) :=
  match e, s.workers i with
  | .testStop, .testStop => some (s.setWorker i (if s.stop i then .exited else .testStopping))
  | .testStopping, .testStopping =>
    some (s.setWorker i (if s.stopping then .exited else .acquire))
  | .acquire, .acquire =>
    match s.semaphore with
    | 0 => none
    | k + 1 => some { s.setWorker i .earlyStop with semaphore := k }
  | .earlyStop, .earlyStop => some (s.setWorker i (if s.stop i then .earlyEmpty else .pop))
  | .earlyEmpty, .earlyEmpty =>
    some (s.setWorker i (if s.tasks.isEmpty then .exited else .pop))
  | .pop, .pop =>
    match s.tasks with
    | [] => some (s.setWorker i .testStop)
    | task :: rest => some { s.setWorker i (.run task) with
        tasks := rest
        taken := s.taken ++ [task] }
  | .run, .run task => some { s.setWorker i .testStop with ran := s.ran ++ [task] }
  | _, _ => none

variable [DecidableEq ε]

/-- Move the enqueuing thread `p` to the program point `q`. -/
def State.setEnqueuer (s : State n ε T) (p : ε) (q : Enqueuer T) : State n ε T :=
  { s with enqueuers := Function.update s.enqueuers p q }

/-- A step of the enqueuing thread `p`. -/
def enqueuerStep (s : State n ε T) (p : ε) (e : EnqueuerEvent T) : Option (State n ε T) :=
  match e, s.enqueuers p with
  | .enqueue task, .idle => some (s.setEnqueuer p (.emplace task))
  | .emplace, .emplace task => some { s.setEnqueuer p .release with
      tasks := s.tasks ++ [task]
      emplaced := s.emplaced ++ [task] }
  | .release, .release => some { s.setEnqueuer p .idle with semaphore := s.semaphore + 1 }
  | _, _ => none

omit [DecidableEq ε] in
/-- A step of the destructor. -/
def destructorStep (s : State n ε T) (e : DestructorEvent) : Option (State n ε T) :=
  match e, s.destructor with
  | .store, .alive => some { s with stopping := true, destructor := .loop 0 }
  | .release, .loop k =>
    if h : k < n then
      some { s with semaphore := s.semaphore + 1, destructor := .requestStop ⟨k, h⟩ }
    else none
  | .requestStop, .requestStop k => some { s with
      stop := Function.update s.stop k true
      destructor := .loop (k + 1) }
  | _, _ => none

/-- One event of any thread. -/
def step (s : State n ε T) : Event n ε T → Option (State n ε T)
  | .worker i e => workerStep s i e
  | .enqueuer p e => enqueuerStep s p e
  | .destructor e => destructorStep s e

/-! ## What a step can do -/

variable {s t : State n ε T} {i : Fin n} {p : ε}

/-- The moves of a worker's program point that change nothing else. -/
inductive WorkerNext (s : State n ε T) (i : Fin n) : Worker T → Worker T → Prop
  | stopRequested (h : s.stop i = true) : WorkerNext s i .testStop .exited
  | notRequested (h : s.stop i = false) : WorkerNext s i .testStop .testStopping
  | stoppingSeen (h : s.stopping = true) : WorkerNext s i .testStopping .exited
  | passed (h : s.stopping = false) : WorkerNext s i .testStopping .acquire
  | askEmpty (h : s.stop i = true) : WorkerNext s i .earlyStop .earlyEmpty
  | askNothing (h : s.stop i = false) : WorkerNext s i .earlyStop .pop
  | earlyExit (h : s.tasks = []) : WorkerNext s i .earlyEmpty .exited
  | noEarlyExit (h : s.tasks ≠ []) : WorkerNext s i .earlyEmpty .pop
  | nothingToPop (h : s.tasks = []) : WorkerNext s i .pop .testStop

/-- Everything a step of the worker `i` can do. -/
inductive WorkerMove (s : State n ε T) (i : Fin n) : State n ε T → Prop
  | point {w : Worker T} (h : WorkerNext s i (s.workers i) w) : WorkerMove s i (s.setWorker i w)
  | acquire {k : ℕ} (hw : s.workers i = .acquire) (hsem : s.semaphore = k + 1) :
      WorkerMove s i { s.setWorker i .earlyStop with semaphore := k }
  | pop {task : T} {rest : List T} (hw : s.workers i = .pop) (htasks : s.tasks = task :: rest) :
      WorkerMove s i { s.setWorker i (.run task) with
        tasks := rest
        taken := s.taken ++ [task] }
  | run {task : T} (hw : s.workers i = .run task) :
      WorkerMove s i { s.setWorker i .testStop with ran := s.ran ++ [task] }

/-- Everything a step of the enqueuing thread `p` can do. -/
inductive EnqueuerMove (s : State n ε T) (p : ε) : State n ε T → Prop
  | enqueue (task : T) (hp : s.enqueuers p = .idle) :
      EnqueuerMove s p (s.setEnqueuer p (.emplace task))
  | emplace {task : T} (hp : s.enqueuers p = .emplace task) :
      EnqueuerMove s p { s.setEnqueuer p .release with
        tasks := s.tasks ++ [task]
        emplaced := s.emplaced ++ [task] }
  | release (hp : s.enqueuers p = .release) :
      EnqueuerMove s p { s.setEnqueuer p .idle with semaphore := s.semaphore + 1 }

/-- Everything a step of the destructor can do. -/
inductive DestructorMove (s : State n ε T) : State n ε T → Prop
  | store (hd : s.destructor = .alive) :
      DestructorMove s { s with stopping := true, destructor := .loop 0 }
  | release {k : ℕ} (hd : s.destructor = .loop k) (h : k < n) :
      DestructorMove s
        { s with semaphore := s.semaphore + 1, destructor := .requestStop ⟨k, h⟩ }
  | requestStop {k : Fin n} (hd : s.destructor = .requestStop k) :
      DestructorMove s { s with
        stop := Function.update s.stop k true
        destructor := .loop (k + 1) }

omit [DecidableEq ε] in
theorem workerMove_of_step {e : WorkerEvent} (hst : workerStep s i e = some t) :
    WorkerMove s i t := by
  unfold workerStep at hst
  split at hst <;> rename_i hw <;> try contradiction
  · obtain rfl := Option.some.inj hst
    split <;> rename_i hstop
    · exact .point (hw ▸ .stopRequested hstop)
    · exact .point (hw ▸ .notRequested (Bool.eq_false_iff.mpr hstop))
  · obtain rfl := Option.some.inj hst
    split <;> rename_i hstop
    · exact .point (hw ▸ .stoppingSeen hstop)
    · exact .point (hw ▸ .passed (Bool.eq_false_iff.mpr hstop))
  · split at hst <;> rename_i hsem <;> try contradiction
    obtain rfl := Option.some.inj hst
    exact .acquire hw hsem
  · obtain rfl := Option.some.inj hst
    split <;> rename_i hstop
    · exact .point (hw ▸ .askEmpty hstop)
    · exact .point (hw ▸ .askNothing (Bool.eq_false_iff.mpr hstop))
  · obtain rfl := Option.some.inj hst
    split <;> rename_i hempty
    · exact .point (hw ▸ .earlyExit (List.isEmpty_iff.mp hempty))
    · exact .point (hw ▸ .noEarlyExit fun h ↦ hempty (List.isEmpty_iff.mpr h))
  · split at hst <;> rename_i htasks <;> obtain rfl := Option.some.inj hst
    · exact .point (hw ▸ .nothingToPop htasks)
    · exact .pop hw htasks
  · obtain rfl := Option.some.inj hst
    exact .run hw

theorem enqueuerMove_of_step {e : EnqueuerEvent T} (hst : enqueuerStep s p e = some t) :
    EnqueuerMove s p t := by
  unfold enqueuerStep at hst
  split at hst <;> rename_i hp <;> try contradiction
  all_goals obtain rfl := Option.some.inj hst
  · exact .enqueue _ hp
  · exact .emplace hp
  · exact .release hp

omit [DecidableEq ε] in
theorem destructorMove_of_step {e : DestructorEvent} (hst : destructorStep s e = some t) :
    DestructorMove s t := by
  unfold destructorStep at hst
  split at hst <;> rename_i hd <;> try contradiction
  · obtain rfl := Option.some.inj hst
    exact .store hd
  · split at hst <;> try contradiction
    obtain rfl := Option.some.inj hst
    exact .release hd _
  · obtain rfl := Option.some.inj hst
    exact .requestStop hd

end ThreadPool

end FastInAHurry
