import FastInAHurry.Thread.Shutdown
import Mathlib.Data.List.Infix

/-!
# Destroying the pool

`~ThreadPool` is its body followed by the destruction of the members in reverse order of their
declaration. The body releases the semaphore and requests the stops, and it does not join. The
threads are joined when `m_workers` is destroyed, and four members that the workers use are declared
behind it: `m_stopping`, the semaphore and the mutex go while workers may still be in their loops.

Each of the three is safe to destroy when no worker stands where it is going to use it. By then
every stop is requested, so no worker comes to such a point again, except that a worker between
`acquire` and its pop goes on to the mutex while tasks are queued. `m_tasks` outlives the join.
-/

namespace FastInAHurry

open Census Runs

namespace ThreadPool

/-- The data members of the class. -/
inductive Member where
  | numThreads
  | tasks
  | workers
  | mutex
  | semaphore
  | activeTasks
  | stopping
deriving DecidableEq, Repr

/-- The members in the order of their declaration. -/
def members : List Member :=
  [.numThreads, .tasks, .workers, .mutex, .semaphore, .activeTasks, .stopping]

/-- A pool and those of its members that are alive, in the order in which they go. -/
structure Teardown (n : ℕ) (ε T : Type*) where
  pool : State n ε T
  alive : List Member

inductive TeardownEvent (n : ℕ) (ε T : Type*) where
  | pool (e : Event n ε T)
  | destroy
deriving DecidableEq

variable {n : ℕ} {ε T : Type*}

def Teardown.init : Teardown n ε T where
  pool := ThreadPool.init
  alive := members.reverse

/-- The members that the step of a worker uses. -/
def WorkerEvent.uses : WorkerEvent → List Member
  | .testStop => []
  | .testStopping => [.stopping]
  | .acquire => [.semaphore]
  | .earlyStop => []
  | .earlyEmpty => [.tasks]
  | .pop => [.mutex, .tasks]
  | .run => []

/-- The thread of the worker has ended, so that it can be joined. -/
def Worker.ended : Worker T → Bool
  | .exited => true
  | _ => false

variable [DecidableEq ε]

/-- One event of the pool or of its destruction. Nobody calls `enqueue` on a pool whose destructor
has begun. A member goes when the body has ended, and `m_workers` when every thread has. -/
def teardownStep (s : Teardown n ε T) : TeardownEvent n ε T → Option (Teardown n ε T)
  | .pool (.worker i e) => (workerStep s.pool i e).map fun p ↦ { s with pool := p }
  | .pool (.enqueuer p e) =>
    if s.pool.destructor = .alive then (enqueuerStep s.pool p e).map fun p ↦ { s with pool := p }
    else none
  | .pool (.destructor e) => (destructorStep s.pool e).map fun p ↦ { s with pool := p }
  | .destroy =>
    match s.alive with
    | [] => none
    | m :: rest =>
      if s.pool.destructor = .loop n ∧ (m = .workers → ∀ i, (s.pool.workers i).ended = true) then
        some { s with alive := rest }
      else none

omit [DecidableEq ε] in
/-- A worker that makes this step uses members that are alive. -/
def UsesAlive (s : Teardown n ε T) (e : TeardownEvent n ε T) : Prop :=
  ∀ i w, e = .pool (.worker i w) → ∀ m ∈ w.uses, m ∈ s.alive

omit [DecidableEq ε] in
/-- No worker stands where it is going to use the member. -/
def NotNeeded (s : State n ε T) : Member → Prop
  | .stopping => ∀ i, s.workers i ≠ .testStopping
  | .semaphore => ∀ i, s.workers i ≠ .acquire
  | .mutex => ∀ i, s.workers i ≠ .pop ∧
      (s.workers i = .earlyStop ∨ s.workers i = .earlyEmpty → s.tasks = [])
  | _ => True

omit [DecidableEq ε] in
/-- If the event destroys a member, it is one that no worker needs. -/
def DestroysUnneeded (s : Teardown n ε T) (e : TeardownEvent n ε T) : Prop :=
  e = .destroy → ∀ m ∈ s.alive.head?, NotNeeded s.pool m

omit [DecidableEq ε] in
instance [DecidableEq T] (s : State n ε T) : DecidablePred (NotNeeded s)
  | .stopping => inferInstanceAs (Decidable (∀ i, s.workers i ≠ .testStopping))
  | .semaphore => inferInstanceAs (Decidable (∀ i, s.workers i ≠ .acquire))
  | .mutex => inferInstanceAs (Decidable (∀ i, s.workers i ≠ .pop ∧
      (s.workers i = .earlyStop ∨ s.workers i = .earlyEmpty → s.tasks = [])))
  | .numThreads | .tasks | .workers | .activeTasks => isTrue trivial

instance [DecidableEq T] (s : Teardown n ε T) (e : TeardownEvent n ε T) :
    Decidable (DestroysUnneeded s e) :=
  inferInstanceAs (Decidable (e = .destroy → ∀ m ∈ s.alive.head?, NotNeeded s.pool m))

/-! ## Once the body has ended -/

omit [DecidableEq ε] in
/-- How many stops the destructor has requested. -/
def Destructor.requested : Destructor n → ℕ
  | .alive => 0
  | .loop k => k
  | .requestStop k => k

/-- What holds whatever is destroyed when: members go in order, and not before the body has
ended. -/
structure Begun (s : Teardown n ε T) : Prop where
  covered : Covered s.pool
  requested : ∀ i : Fin n, i < s.pool.destructor.requested → s.pool.stop i = true
  order : s.alive <:+ members.reverse
  body : s.alive ≠ members.reverse → s.pool.destructor = .loop n

variable {s t : Teardown n ε T}

omit [DecidableEq ε] in
theorem Begun.init : Begun (Teardown.init : Teardown n ε T) where
  covered := Covered.init
  requested _ h := absurd h (Nat.not_lt_zero _)
  order := List.suffix_rfl
  body h := absurd rfl h

omit [DecidableEq ε] in
/-- A worker whose stop is requested, with `m_stopping` set, goes on without coming to the loop test
of `m_stopping` or to the semaphore. -/
theorem WorkerMove.target {s t : State n ε T} {i : Fin n} (hm : WorkerMove s i t)
    (hstopping : s.stopping = true) (hstop : s.stop i = true) :
    ∃ w, t.workers = Function.update s.workers i w ∧ s.workers i ≠ .exited ∧
      w ≠ .testStopping ∧ w ≠ .acquire ∧ (w = .earlyStop → s.workers i = .acquire) ∧
      (w = .earlyEmpty → s.workers i = .earlyStop) ∧
      (w = .pop → s.workers i = .earlyEmpty ∧ s.tasks ≠ []) ∧
      (t.tasks = s.tasks ∨ s.workers i = .pop) := by
  cases hm with
  | @point w hn =>
    refine ⟨w, rfl, ?_⟩
    generalize s.workers i = w₀ at hn
    cases hn <;> simp_all [State.setWorker]
  | acquire hw => exact ⟨.earlyStop, rfl, by simp [hw, State.setWorker]⟩
  | @pop task rest hw => exact ⟨.run task, rfl, by simp [hw]⟩
  | run hw => exact ⟨.testStop, rfl, by simp [hw, State.setWorker]⟩

omit [DecidableEq ε] in
/-- When the body has ended, the destructor makes no step of the body. -/
theorem destructorStep_of_loop {s : State n ε T} {e : DestructorEvent}
    (hd : s.destructor = .loop n) : destructorStep s e = none := by
  cases e <;> simp [destructorStep, hd]

theorem destroy_eq_some (hst : teardownStep s .destroy = some t) :
    ∃ m rest, s.alive = m :: rest ∧ s.pool.destructor = .loop n ∧
      (m = .workers → ∀ i, (s.pool.workers i).ended = true) ∧ t = { s with alive := rest } := by
  simp only [teardownStep] at hst
  split at hst <;> try contradiction
  next m rest halive =>
    split at hst <;> try contradiction
    next hdone => exact ⟨m, rest, halive, hdone.1, hdone.2, (Option.some.inj hst).symm⟩

omit [DecidableEq ε] in
/-- Workers and calling threads leave the destructor and the stops alone. -/
theorem Begun.of_same (h : Begun s) {p : State n ε T} (hcovered : Covered p)
    (hstop : p.stop = s.pool.stop) (hdestructor : p.destructor = s.pool.destructor) :
    Begun { s with pool := p } := by
  refine ⟨hcovered, fun k hk ↦ ?_, h.order, fun hne ↦ hdestructor.trans (h.body hne)⟩
  rw [hstop]
  exact h.requested k (hdestructor ▸ hk)

omit [DecidableEq ε] in
/-- The destructor deals with one worker after the other. -/
theorem requested_of_move {s t : State n ε T} (hm : DestructorMove s t)
    (h : ∀ i : Fin n, i < s.destructor.requested → s.stop i = true) (k : Fin n)
    (hk : k < t.destructor.requested) : t.stop k = true := by
  cases hm with
  | store => exact absurd hk (Nat.not_lt_zero _)
  | release hd => exact h k (by rw [hd]; exact hk)
  | @requestStop j hd =>
    change Function.update s.stop j true k = true
    rcases eq_or_ne k j with rfl | hkj
    · exact Function.update_self ..
    · rw [Function.update_of_ne hkj]
      refine h k ?_
      rw [hd]
      exact Nat.lt_of_le_of_ne (Nat.le_of_lt_succ hk) (Fin.val_ne_of_ne hkj)

theorem Begun.step (h : Begun s) {e : TeardownEvent n ε T} (hst : teardownStep s e = some t) :
    Begun t := by
  cases e with
  | destroy =>
    obtain ⟨m, rest, halive, hdone, -, rfl⟩ := destroy_eq_some hst
    have hsuffix : rest <:+ s.alive := halive ▸ List.suffix_cons m rest
    exact ⟨h.covered, h.requested, hsuffix.trans h.order, fun _ ↦ hdone⟩
  | pool e =>
    cases e with
    | worker i e =>
      obtain ⟨p, hp, rfl⟩ := Option.map_eq_some_iff.mp hst
      have hm := workerMove_of_step hp
      refine h.of_same (h.covered.worker hm) ?_ ?_
      · cases hm <;> rfl
      · cases hm <;> rfl
    | enqueuer p e =>
      simp only [teardownStep] at hst
      split at hst <;> try contradiction
      next halive =>
        obtain ⟨q, hq, rfl⟩ := Option.map_eq_some_iff.mp hst
        have hm := enqueuerMove_of_step hq
        refine h.of_same (h.covered.step (e := .enqueuer p e) hq) ?_ ?_
        · cases hm <;> rfl
        · cases hm <;> rfl
    | destructor e =>
      obtain ⟨p, hp, rfl⟩ := Option.map_eq_some_iff.mp hst
      refine ⟨h.covered.step (e := .destructor e) hp,
        requested_of_move (destructorMove_of_step hp) h.requested, h.order, fun hne ↦ ?_⟩
      rw [destructorStep_of_loop (h.body hne)] at hp
      cases hp

/-! ## The order of the members -/

theorem mem_members (m : Member) : m ∈ members.reverse := by
  cases m <;> decide

theorem before_of_suffix {l : List Member} (h : l <:+ members.reverse) :
    (.mutex ∉ l → .semaphore ∉ l) ∧ (.tasks ∉ l → .workers ∉ l) := by
  have hall : ∀ l ∈ members.reverse.tails,
      (.mutex ∉ l → .semaphore ∉ l) ∧ (.tasks ∉ l → .workers ∉ l) := by decide
  exact hall l ((List.mem_tails ..).mpr h)

theorem notMem_of_suffix_cons {m : Member} {rest : List Member}
    (h : m :: rest <:+ members.reverse) : m ∉ rest := by
  have hnodup : (m :: rest).Nodup := (by decide : members.reverse.Nodup).sublist h.sublist
  exact (List.nodup_cons.mp hnodup).1

omit [DecidableEq ε] in
/-- Once a member is gone, `m_stopping` is set and every stop is requested. -/
theorem Begun.after (h : Begun s) {m : Member} (hm : m ∉ s.alive) :
    s.pool.destructor = .loop n ∧ s.pool.stopping = true ∧ ∀ i, s.pool.stop i = true := by
  have hloop : s.pool.destructor = .loop n := by
    refine h.body fun hall ↦ hm ?_
    rw [hall]
    exact mem_members m
  refine ⟨hloop, h.covered.stopping_iff.mpr (by rw [hloop]; exact nofun), fun i ↦ ?_⟩
  refine h.requested i ?_
  rw [hloop]
  exact i.isLt

/-! ## Members that no worker needs -/

/-- No worker needs a member that is gone, and the threads are joined where `m_workers` went. -/
structure Unused (s : Teardown n ε T) : Prop where
  notNeeded : ∀ m ∉ s.alive, NotNeeded s.pool m
  joined : .workers ∉ s.alive → ∀ i, (s.pool.workers i).ended = true

omit [DecidableEq ε] in
theorem Unused.init : Unused (Teardown.init : Teardown n ε T) where
  notNeeded m hm := absurd (mem_members m) hm
  joined hm := absurd (mem_members _) hm

omit [DecidableEq ε] in
/-- A worker does not come to need a member again that is gone. -/
theorem Unused.worker (h : Unused s) (hbegun : Begun s) {i : Fin n} {p : State n ε T}
    (hm : WorkerMove s.pool i p) : Unused { s with pool := p } := by
  constructor
  · intro m hgone
    obtain ⟨-, hstopping, hstop⟩ := hbegun.after hgone
    obtain ⟨w, hworkers, -, hne₁, hne₂, hearly, hempty, hpop, htasks⟩ :=
      hm.target hstopping (hstop i)
    have hneeded := h.notNeeded m hgone
    cases m with
    | stopping =>
      change ∀ k, p.workers k ≠ .testStopping
      rw [hworkers, Function.forall_update_iff s.pool.workers fun _ w ↦ w ≠ .testStopping]
      exact ⟨hne₁, fun k _ ↦ hneeded k⟩
    | semaphore =>
      change ∀ k, p.workers k ≠ .acquire
      rw [hworkers, Function.forall_update_iff s.pool.workers fun _ w ↦ w ≠ .acquire]
      exact ⟨hne₂, fun k _ ↦ hneeded k⟩
    | mutex =>
      have hwaits : ∀ k, s.pool.workers k ≠ .acquire :=
        h.notNeeded .semaphore ((before_of_suffix hbegun.order).1 hgone)
      -- nobody pops, so the queue stays as it is
      have hsame : p.tasks = s.pool.tasks := htasks.resolve_right (hneeded i).1
      change ∀ k, p.workers k ≠ .pop ∧
        (p.workers k = .earlyStop ∨ p.workers k = .earlyEmpty → p.tasks = [])
      rw [hworkers, hsame, Function.forall_update_iff s.pool.workers fun _ w ↦
        w ≠ .pop ∧ (w = .earlyStop ∨ w = .earlyEmpty → s.pool.tasks = [])]
      refine ⟨⟨fun hw ↦ ?_, ?_⟩, fun k _ ↦ hneeded k⟩
      · obtain ⟨hwi, htasks⟩ := hpop hw
        exact htasks ((hneeded i).2 (Or.inr hwi))
      · rintro (hw | hw)
        · exact absurd (hearly hw) (hwaits i)
        · exact (hneeded i).2 (Or.inl (hempty hw))
    | _ => trivial
  · -- the threads were joined, and this one makes a step
    intro hgone k
    obtain ⟨-, hstopping, hstop⟩ := hbegun.after hgone
    obtain ⟨w, -, hne, -⟩ := hm.target hstopping (hstop i)
    have hended := h.joined hgone i
    generalize s.pool.workers i = w₀ at hne hended
    cases w₀ <;> first | exact absurd rfl hne | exact absurd hended nofun

theorem Unused.step (h : Unused s) (hbegun : Begun s) {e : TeardownEvent n ε T}
    (hdestroys : DestroysUnneeded s e) (hst : teardownStep s e = some t) : Unused t := by
  cases e with
  | destroy =>
    obtain ⟨m, rest, halive, -, hjoin, rfl⟩ := destroy_eq_some hst
    have hm : NotNeeded s.pool m := hdestroys rfl m (by rw [halive]; rfl)
    refine ⟨fun k hk ↦ ?_, fun hk ↦ ?_⟩
    · by_cases hkm : k = m
      · exact hkm ▸ hm
      · exact h.notNeeded k (by rw [halive]; exact List.not_mem_cons_of_ne_of_not_mem hkm hk)
    · by_cases hkm : .workers = m
      · exact hjoin hkm.symm
      · exact h.joined (by rw [halive]; exact List.not_mem_cons_of_ne_of_not_mem hkm hk)
  | pool e =>
    cases e with
    | worker i e =>
      obtain ⟨p, hp, rfl⟩ := Option.map_eq_some_iff.mp hst
      exact h.worker hbegun (workerMove_of_step hp)
    -- nothing is gone before the body has ended, and then only workers move
    | enqueuer p e =>
      simp only [teardownStep] at hst
      split at hst <;> try contradiction
      next hd =>
        obtain ⟨q, -, rfl⟩ := Option.map_eq_some_iff.mp hst
        have hnone : ∀ m, m ∉ s.alive → False := fun m hm ↦ by
          cases hd.symm.trans (hbegun.after hm).1
        exact ⟨fun m hm ↦ (hnone m hm).elim, fun hm ↦ (hnone _ hm).elim⟩
    | destructor e =>
      obtain ⟨q, hq, rfl⟩ := Option.map_eq_some_iff.mp hst
      have hnone : ∀ m, m ∉ s.alive → False := fun m hm ↦ by
        rw [destructorStep_of_loop (hbegun.after hm).1] at hq
        cases hq
      exact ⟨fun m hm ↦ (hnone m hm).elim, fun hm ↦ (hnone _ hm).elim⟩

omit [DecidableEq ε] in
/-- A worker whose next step uses a member needs it, or it uses `m_tasks` and has not ended. -/
theorem needed_of_uses {s p : State n ε T} {i : Fin n} {w : WorkerEvent} {m : Member}
    (hst : workerStep s i w = some p) (hm : m ∈ w.uses) :
    ¬NotNeeded s m ∨ m = .tasks ∧ (s.workers i).ended = false := by
  cases w with
  | testStop | earlyStop | run => exact absurd hm List.not_mem_nil
  | testStopping =>
    obtain rfl := List.mem_singleton.mp hm
    refine Or.inl fun h ↦ ?_
    cases hw : s.workers i <;> simp [workerStep, hw] at hst
    exact h i hw
  | acquire =>
    obtain rfl := List.mem_singleton.mp hm
    refine Or.inl fun h ↦ ?_
    cases hw : s.workers i <;> simp [workerStep, hw] at hst
    exact h i hw
  | earlyEmpty =>
    refine Or.inr ⟨List.mem_singleton.mp hm, ?_⟩
    cases hw : s.workers i <;> simp [workerStep, hw] at hst
    rfl
  | pop =>
    have hw : s.workers i = .pop := by cases hw : s.workers i <;> simp [workerStep, hw] at hst ⊢
    rcases List.mem_pair.mp hm with rfl | rfl
    · exact Or.inl fun h ↦ (h i).1 hw
    · exact Or.inr ⟨rfl, by rw [hw]; rfl⟩

/-- What no worker needs, no worker uses, and `m_tasks` is there until every worker has ended. -/
theorem Unused.usesAlive (h : Unused s) (hbegun : Begun s) {e : TeardownEvent n ε T}
    (hst : teardownStep s e = some t) : UsesAlive s e := by
  rintro i w rfl m hm
  by_contra hgone
  obtain ⟨p, hp, -⟩ := Option.map_eq_some_iff.mp hst
  rcases needed_of_uses hp hm with hneeded | ⟨rfl, hended⟩
  · exact hneeded (h.notNeeded m hgone)
  · have hjoined := h.joined ((before_of_suffix hbegun.order).2 hgone) i
    rw [hended] at hjoined
    cases hjoined

/-! ## Members that a worker needs -/

/-- A run of worker steps after which a worker may use a member that is gone. -/
def Misuses (s : Teardown n ε T) : Prop :=
  ∃ es u i w, (∀ e ∈ es, ∃ i w, e = .pool (.worker i w)) ∧ exec teardownStep s es = some u ∧
    (teardownStep u (.pool (.worker i w))).isSome ∧ ¬UsesAlive u (.pool (.worker i w))

theorem Misuses.cons {i : Fin n} {w : WorkerEvent}
    (hst : teardownStep s (.pool (.worker i w)) = some t) (h : Misuses t) : Misuses s := by
  obtain ⟨es, u, j, v, hes, hexec, hsome, huses⟩ := h
  refine ⟨.pool (.worker i w) :: es, u, j, v, ?_, exec_cons_eq_some.mpr ⟨t, hst, hexec⟩, hsome,
    huses⟩
  intro e he
  rcases List.mem_cons.mp he with rfl | he
  · exact ⟨i, w, rfl⟩
  · exact hes e he

theorem Misuses.now {i : Fin n} {w : WorkerEvent} {m : Member}
    (hsome : (workerStep s.pool i w).isSome) (hm : m ∈ w.uses) (hgone : m ∉ s.alive) :
    Misuses s := by
  refine ⟨[], s, i, w, nofun, rfl, ?_, fun huses ↦ hgone (huses i w rfl m hm)⟩
  rw [teardownStep, Option.isSome_map]
  exact hsome

/-- A worker that is going to pop locks the mutex. -/
theorem misuses_of_pop {i : Fin n} (hw : s.pool.workers i = .pop) (hgone : .mutex ∉ s.alive) :
    Misuses s := by
  refine Misuses.now (i := i) (w := .pop) ?_ List.mem_cons_self hgone
  simp only [workerStep, hw]
  split <;> rfl

/-- A worker that finds a task at its early exit goes on to its pop. -/
theorem misuses_of_earlyEmpty {i : Fin n} (hw : s.pool.workers i = .earlyEmpty)
    (htasks : s.pool.tasks ≠ []) (hgone : .mutex ∉ s.alive) : Misuses s := by
  have hst : teardownStep s (.pool (.worker i .earlyEmpty)) =
      some { s with pool := s.pool.setWorker i .pop } := by
    simp [teardownStep, workerStep, hw, htasks]
  exact Misuses.cons hst (misuses_of_pop setWorker_self hgone)

/-- A worker that looks whether its stop is requested finds that it is, and looks for tasks. -/
theorem misuses_of_earlyStop {i : Fin n} (hw : s.pool.workers i = .earlyStop)
    (hstop : s.pool.stop i = true) (htasks : s.pool.tasks ≠ []) (hgone : .mutex ∉ s.alive) :
    Misuses s := by
  have hst : teardownStep s (.pool (.worker i .earlyStop)) =
      some { s with pool := s.pool.setWorker i .earlyEmpty } := by
    simp [teardownStep, workerStep, hw, hstop]
  exact Misuses.cons hst (misuses_of_earlyEmpty setWorker_self htasks hgone)

/-- A member that a worker needs when it goes can be used after that. -/
theorem misuses_of_destroy (hbegun : Begun s) (hst : teardownStep s .destroy = some t)
    (hneeded : ¬DestroysUnneeded s .destroy) : Misuses t := by
  have hbegun' := hbegun.step hst
  obtain ⟨m, rest, halive, hdone, -, rfl⟩ := destroy_eq_some hst
  have hgone : m ∉ rest := notMem_of_suffix_cons (halive ▸ hbegun.order)
  have hm : ¬NotNeeded s.pool m := by
    intro hm
    refine hneeded fun _ k hk ↦ ?_
    rw [halive] at hk
    obtain rfl := Option.some.inj hk
    exact hm
  have hstop := (hbegun'.after hgone).2.2
  cases m with
  | stopping =>
    obtain ⟨i, hi⟩ := not_forall_not.mp hm
    refine Misuses.now (i := i) (w := .testStopping) ?_ List.mem_cons_self hgone
    simp [workerStep, hi]
  | semaphore =>
    obtain ⟨i, hi⟩ := not_forall_not.mp hm
    -- the semaphore has a unit for every worker that waits, so the worker does acquire
    have hpos : 0 < count Worker.waiting s.pool.workers := count_pos (by rw [hi]; rfl)
    have hle := hbegun.covered.waiting_le (by rw [hdone]; rfl)
    exact Misuses.now (acquire_isSome hi (hpos.trans_le hle)) List.mem_cons_self hgone
  | mutex =>
    obtain ⟨i, hi⟩ := not_forall.mp hm
    by_cases hpop : s.pool.workers i = .pop
    · exact misuses_of_pop hpop hgone
    · obtain ⟨hw, htasks⟩ := Classical.not_imp.mp fun h ↦ hi ⟨hpop, h⟩
      rcases hw with hw | hw
      · exact misuses_of_earlyStop hw (hstop i) htasks hgone
      · exact misuses_of_earlyEmpty hw htasks hgone
  | _ => exact absurd trivial hm

/-- **When the workers use only live members**, for any number of workers and of threads calling
`enqueue`. In every run in which no member goes that a worker needs, a worker uses a member only
while it is alive. And in every run in which a member goes that a worker needs, some worker steps
lead to one that uses a member that is gone. -/
theorem uses_alive_of_destroys_unneeded :
    (∀ (es : List (TeardownEvent n ε T)) (u : Teardown n ε T),
      exec teardownStep Teardown.init es = some u →
      Along teardownStep DestroysUnneeded Teardown.init es →
      Along teardownStep UsesAlive Teardown.init es) ∧
    ∀ (es : List (TeardownEvent n ε T)) (s t : Teardown n ε T),
      exec teardownStep Teardown.init es = some s → teardownStep s .destroy = some t →
      ¬DestroysUnneeded s .destroy → Misuses t := by
  have hstep : ∀ (s : Teardown n ε T) e t, Begun s → teardownStep s e = some t → Begun t :=
    fun s e t h hst ↦ h.step hst
  refine ⟨fun es u hexec hdestroys ↦ ?_, fun es s t hexec hst hneeded ↦ ?_⟩
  · refine Along.imp (P := fun s ↦ Begun s ∧ Unused s) ?_ ?_ hdestroys
      ⟨Begun.init, Unused.init⟩ hexec
    · exact fun s e t ⟨hbegun, h⟩ hdestroys hst ↦ ⟨hbegun.step hst, h.step hbegun hdestroys hst⟩
    · exact fun s e t ⟨hbegun, h⟩ hst ↦ h.usesAlive hbegun hst
  · exact misuses_of_destroy (exec_invariant hstep Begun.init hexec) hst hneeded

/-- A worker that has left before anything goes uses nothing that is gone; one that is going to
acquire when the semaphore goes does. -/
theorem uses_alive_of_destroys_unneeded_one_worker :
    (∃ u : Teardown 1 Unit ℕ, exec teardownStep Teardown.init
        ([.pool (.destructor .store), .pool (.destructor .release),
          .pool (.destructor .requestStop), .pool (.worker 0 .testStop)] ++
            List.replicate 7 .destroy) = some u ∧ u.alive = []) ∧
      Along teardownStep UsesAlive (Teardown.init : Teardown 1 Unit ℕ)
        ([.pool (.destructor .store), .pool (.destructor .release),
          .pool (.destructor .requestStop), .pool (.worker 0 .testStop)] ++
            List.replicate 7 .destroy) ∧
      ∃ t : Teardown 1 Unit ℕ, exec teardownStep Teardown.init
          ([.pool (.worker 0 .testStop), .pool (.worker 0 .testStopping),
            .pool (.destructor .store), .pool (.destructor .release),
            .pool (.destructor .requestStop)] ++ List.replicate 3 .destroy) = some t ∧
        Misuses t := by
  obtain ⟨huses, hmisuses⟩ := uses_alive_of_destroys_unneeded (n := 1) (ε := Unit) (T := ℕ)
  refine ⟨⟨_, rfl, rfl⟩, huses _ _ rfl (by decide +kernel), _, rfl, ?_⟩
  exact hmisuses [.pool (.worker 0 .testStop), .pool (.worker 0 .testStopping),
    .pool (.destructor .store), .pool (.destructor .release), .pool (.destructor .requestStop),
    .destroy, .destroy] _ _ rfl rfl (by decide +kernel)

/-- One worker has passed its loop test and is going to acquire when the pool is destroyed: the body
releases the semaphore and requests the stop, `m_stopping`, `m_active_tasks` and the semaphore go,
and then the worker acquires. -/
theorem uses_destroyed_semaphore : ∃ u : Teardown 1 Unit ℕ,
    exec teardownStep Teardown.init [.pool (.worker 0 .testStop), .pool (.worker 0 .testStopping),
      .pool (.destructor .store), .pool (.destructor .release), .pool (.destructor .requestStop),
      .destroy, .destroy, .destroy] = some u ∧
    (teardownStep u (.pool (.worker 0 .acquire))).isSome ∧ .semaphore ∉ u.alive ∧
    ¬UsesAlive u (.pool (.worker 0 .acquire)) := by
  refine ⟨_, rfl, rfl, by decide, fun huses ↦ ?_⟩
  exact absurd (huses 0 .acquire rfl .semaphore List.mem_cons_self) (by decide)

end ThreadPool

end FastInAHurry
