import FastInAHurry.Thread.Accounting

/-!
# Shutting the pool down

Once `m_stopping` is set no worker passes its loop test again, so each goes through the rest of one
iteration at most. Two things follow from counting where the workers stand at that moment.

The one release per worker that the destructor makes is enough for every worker that still waits for
the semaphore: shutdown cannot deadlock, whatever was enqueued before or is enqueued meanwhile.

But a worker leaves at its loop test without looking at the queue. Only the workers between the loop
test and their pop take a task each; if more tasks than that are queued when `m_stopping` is stored,
the difference is never run. The emptiness test of the early exit does not prevent this.
-/

namespace FastInAHurry

open Census Runs

namespace ThreadPool

/-- The worker has passed the loop test and not yet acquired. -/
def Worker.waiting {T : Type*} : Worker T → Bool
  | .acquire => true
  | _ => false

/-- The worker has passed the loop test and is not yet past its pop. -/
def Worker.passed {T : Type*} (w : Worker T) : Bool := w.waiting || w.acquired

/-- How many releases the destructor has made. -/
def Destructor.released {n : ℕ} : Destructor n → ℕ
  | .alive => 0
  | .loop k => k
  | .requestStop k => k + 1

variable {n : ℕ} {ε T : Type*} [DecidableEq ε] {s t : State n ε T} {i : Fin n}

/-! ## After the store of `m_stopping` -/

theorem stopping_of_step {e : Event n ε T} (hstop : s.stopping = true)
    (hst : step s e = some t) : t.stopping = true := by
  cases e with
  | worker i e => cases workerMove_of_step hst <;> exact hstop
  | enqueuer p e => cases enqueuerMove_of_step hst <;> exact hstop
  | destructor e =>
    cases destructorMove_of_step hst with
    | store => rfl
    | release | requestStop => exact hstop

/-- How far a worker is from leaving its loop once `m_stopping` is set. -/
def Worker.rank {T : Type*} : Worker T → ℕ
  | .exited => 0
  | .testStopping => 1
  | .testStop => 2
  | .run _ => 3
  | .pop => 4
  | .earlyEmpty => 5
  | .earlyStop => 6
  | .acquire => 7

theorem Worker.rank_le {T : Type*} (w : Worker T) : w.rank ≤ 7 := by
  cases w <;> simp [rank]

omit [DecidableEq ε] in
@[simp] theorem setWorker_self {w : Worker T} : (s.setWorker i w).workers i = w :=
  Function.update_self ..

omit [DecidableEq ε] in
theorem WorkerNext.ne_acquire {w₀ w : Worker T} (hn : WorkerNext s i w₀ w)
    (hstop : s.stopping = true) : w ≠ .acquire := by
  rintro rfl
  cases hn with
  | passed hfalse =>
    rw [hfalse] at hstop
    cases hstop

omit [DecidableEq ε] in
/-- A worker that moves comes closer to its exit. -/
theorem rank_lt_of_worker (hstop : s.stopping = true) (hm : WorkerMove s i t) :
    (t.workers i).rank < (s.workers i).rank := by
  cases hm with
  | @point w hn =>
    have hne := hn.ne_acquire hstop
    rw [setWorker_self]
    generalize s.workers i = w₀ at hn
    cases hn with
    | passed => exact absurd rfl hne
    | _ => simp [Worker.rank]
  | acquire hw | pop hw | run hw => simp [hw, Worker.rank]

omit [DecidableEq ε] in
/-- A worker that moves does not come to wait again: there is no point further from the exit. -/
theorem not_waiting_of_worker (hstop : s.stopping = true) (hm : WorkerMove s i t) :
    (t.workers i).waiting = false := by
  have hlt := rank_lt_of_worker hstop hm
  cases hw : t.workers i with
  | acquire =>
    rw [hw] at hlt
    exact absurd (s.workers i).rank_le (Nat.not_le.mpr hlt)
  | _ => rfl

/-! ## Workers that wait for the semaphore -/

/-- The releases still to come, with the tokens there are, cover the workers that wait. -/
structure Covered (s : State n ε T) : Prop where
  stopping_iff : s.stopping = true ↔ s.destructor ≠ .alive
  released_le : s.destructor.released ≤ n
  covers : s.destructor.released + count Worker.waiting s.workers ≤ s.semaphore + n

omit [DecidableEq ε] in
theorem count_waiting_le (s : State n ε T) : count Worker.waiting s.workers ≤ n :=
  (count_le_card ..).trans_eq (Fintype.card_fin n)

omit [DecidableEq ε] in
theorem Covered.init : Covered (init : State n ε T) where
  stopping_iff := ⟨nofun, fun h ↦ absurd rfl h⟩
  released_le := Nat.zero_le n
  covers := (Nat.zero_add _).trans_le ((count_waiting_le _).trans_eq (Nat.zero_add n).symm)

omit [DecidableEq ε] in
/-- Once the destructor has begun, only an acquired token ends the wait of a worker, and none
begins to wait. -/
theorem Covered.of_worker (h : Covered s) {w : Worker T}
    (hworkers : t.workers = Function.update s.workers i w) (hstopping : t.stopping = s.stopping)
    (hdestructor : t.destructor = s.destructor)
    (hwaits : s.stopping = true →
      s.semaphore + w.waiting.toNat ≤ t.semaphore + (s.workers i).waiting.toNat) :
    Covered t := by
  refine ⟨by rw [hstopping, hdestructor]; exact h.stopping_iff, hdestructor ▸ h.released_le, ?_⟩
  by_cases halive : s.destructor = .alive
  -- nothing is released yet, and there are only `n` workers
  · rw [hdestructor, halive]
    exact (Nat.zero_add _).trans_le ((count_waiting_le t).trans (Nat.le_add_left n _))
  · have hcount := count_update Worker.waiting s.workers i w
    have hcovers := h.covers
    have := hwaits (h.stopping_iff.mpr halive)
    rw [hdestructor, hworkers]
    omega

omit [DecidableEq ε] in
theorem Covered.worker (h : Covered s) (hm : WorkerMove s i t) : Covered t := by
  cases hm with
  | @point w hn =>
    refine h.of_worker rfl rfl rfl fun hstop ↦ ?_
    have hw := not_waiting_of_worker hstop (.point hn)
    rw [setWorker_self] at hw
    rw [hw]
    exact Nat.add_le_add_left (Nat.zero_le _) _
  | acquire hw hsem =>
    refine h.of_worker rfl rfl rfl fun _ ↦ ?_
    rw [hw, hsem]
    exact Nat.le_refl _
  | pop hw | run hw =>
    refine h.of_worker rfl rfl rfl fun _ ↦ ?_
    rw [hw]
    exact Nat.le_refl _

theorem Covered.step (h : Covered s) {e : Event n ε T} (hst : step s e = some t) :
    Covered t := by
  have hcovers := h.covers
  cases e with
  | worker i e => exact h.worker (workerMove_of_step hst)
  | enqueuer p e =>
    cases enqueuerMove_of_step hst with
    | enqueue | emplace => exact ⟨h.stopping_iff, h.released_le, h.covers⟩
    | release =>
      refine ⟨h.stopping_iff, h.released_le, h.covers.trans ?_⟩
      exact Nat.add_le_add_right (Nat.le_succ _) n
  | destructor e =>
    cases destructorMove_of_step hst with
    | store hd =>
      rw [hd] at hcovers
      exact ⟨⟨fun _ ↦ nofun, fun _ ↦ rfl⟩, Nat.zero_le n, hcovers⟩
    | @release k hd hk =>
      rw [hd] at hcovers
      refine ⟨⟨fun _ ↦ nofun, fun _ ↦ h.stopping_iff.mpr (by rw [hd]; exact nofun)⟩, hk, ?_⟩
      calc k + 1 + count Worker.waiting s.workers
          = k + count Worker.waiting s.workers + 1 := Nat.add_right_comm ..
        _ ≤ s.semaphore + n + 1 := Nat.add_le_add_right hcovers 1
        _ = s.semaphore + 1 + n := Nat.add_right_comm ..
    | @requestStop k hd =>
      rw [hd] at hcovers
      exact ⟨⟨fun _ ↦ nofun, fun _ ↦ h.stopping_iff.mpr (by rw [hd]; exact nofun)⟩, k.isLt, hcovers⟩

theorem covered_of_reachable (h : Reachable step init s) : Covered s :=
  h.invariant (fun _ _ _ hs hst ↦ hs.step hst) Covered.init

/-! ## The destructor finishes its loop -/

/-- A part of a run in which only the destructor moves, to the end of its releases. -/
def Finishes (s : State n ε T) : Prop :=
  ∃ as t, (∀ e ∈ as, ∃ d, e = .destructor d) ∧ exec step s as = some t ∧
    t.destructor.released = n ∧ t.workers = s.workers

theorem Finishes.cons {d : DestructorEvent} (hst : step s (.destructor d) = some t)
    (hworkers : t.workers = s.workers) (h : Finishes t) : Finishes s := by
  obtain ⟨as, u, has, hexec, hrel, hu⟩ := h
  refine ⟨.destructor d :: as, u, ?_, exec_cons_eq_some.mpr ⟨t, hst, hexec⟩, hrel,
    hu.trans hworkers⟩
  rintro e he
  rcases List.mem_cons.mp he with rfl | he
  · exact ⟨d, rfl⟩
  · exact has e he

theorem finishes_of_loop (m : ℕ) {k : ℕ} (hd : s.destructor = .loop k) (hm : k + m = n) :
    Finishes s := by
  induction m generalizing s k with
  | zero =>
    refine ⟨[], s, nofun, rfl, ?_, rfl⟩
    rw [hd]
    exact hm
  | succ m ih =>
    have hk : k < n := by omega
    have hrelease : step s (.destructor .release) = some { s with
        semaphore := s.semaphore + 1
        destructor := .requestStop ⟨k, hk⟩ } := by
      simp [step, destructorStep, hd, hk]
    refine Finishes.cons hrelease rfl (Finishes.cons (d := .requestStop) rfl rfl ?_)
    exact ih (k := k + 1) rfl (by omega)

theorem finishes_of_covered (h : Covered s) : Finishes s := by
  have hle := h.released_le
  cases hd : s.destructor with
  | alive =>
    have hstore : step s (.destructor .store) = some { s with
        stopping := true
        destructor := .loop 0 } := by
      simp [step, destructorStep, hd]
    exact Finishes.cons hstore rfl (finishes_of_loop n rfl (Nat.zero_add n))
  | loop k =>
    rw [hd] at hle
    exact finishes_of_loop (n - k) hd (Nat.add_sub_of_le hle)
  | requestStop k =>
    rw [hd] at hle
    have hstop : step s (.destructor .requestStop) = some { s with
        stop := Function.update s.stop k true
        destructor := .loop (k + 1) } := by
      simp [step, destructorStep, hd]
    exact Finishes.cons hstop rfl (finishes_of_loop (n - (k + 1)) rfl (Nat.add_sub_of_le hle))

/-! ## Every worker can move, and moves only so often -/

omit [DecidableEq ε] in
/-- After the last release there is a token for every worker that waits. -/
theorem Covered.waiting_le (h : Covered s) (hrel : s.destructor.released = n) :
    count Worker.waiting s.workers ≤ s.semaphore := by
  have hcovers := h.covers
  omega

omit [DecidableEq ε] in
theorem acquire_isSome (hw : s.workers i = .acquire) (hsem : 0 < s.semaphore) :
    (workerStep s i .acquire).isSome := by
  obtain ⟨k, hk⟩ := Nat.exists_eq_add_of_lt hsem
  rw [Nat.zero_add] at hk
  simp [workerStep, hw, hk]

theorem exists_workerStep_of_covered (h : Covered s) (hrel : s.destructor.released = n)
    (hw : s.workers i ≠ .exited) : ∃ e, (step s (.worker i e)).isSome := by
  cases hwi : s.workers i with
  | testStop => exact ⟨.testStop, by simp [step, workerStep, hwi]⟩
  | testStopping => exact ⟨.testStopping, by simp [step, workerStep, hwi]⟩
  | acquire =>
    have hpos : 0 < count Worker.waiting s.workers := count_pos (by rw [hwi]; rfl)
    exact ⟨.acquire, acquire_isSome hwi (hpos.trans_le (h.waiting_le hrel))⟩
  | earlyStop => exact ⟨.earlyStop, by simp [step, workerStep, hwi]⟩
  | earlyEmpty => exact ⟨.earlyEmpty, by simp [step, workerStep, hwi]⟩
  | pop =>
    refine ⟨.pop, ?_⟩
    simp only [step, workerStep, hwi]
    split <;> rfl
  | run task => exact ⟨.run, by simp [step, workerStep, hwi]⟩
  | exited => exact absurd hwi hw

/-- The event is a step of the worker `i`. -/
def Event.isStepOf (i : Fin n) : Event n ε T → Bool
  | .worker j _ => decide (j = i)
  | _ => false

/-- The event is an acquire of the worker `i`. -/
def Event.isAcquireOf (i : Fin n) : Event n ε T → Bool
  | .worker j .acquire => decide (j = i)
  | _ => false

theorem step_worker_or_eq {e : Event n ε T} (hst : step s e = some t) (i : Fin n) :
    (∃ d, e = .worker i d) ∨ e.isStepOf i = false ∧ e.isAcquireOf i = false ∧
      t.workers i = s.workers i := by
  cases e with
  | worker j d =>
    by_cases hj : j = i
    · exact Or.inl ⟨d, by rw [hj]⟩
    · refine Or.inr ⟨decide_eq_false hj, ?_, ?_⟩
      · cases d <;> first | rfl | exact decide_eq_false hj
      · cases workerMove_of_step hst <;> exact Function.update_of_ne (Ne.symm hj) ..
  | enqueuer p d => exact Or.inr ⟨rfl, rfl, by cases enqueuerMove_of_step hst <;> rfl⟩
  | destructor d => exact Or.inr ⟨rfl, rfl, by cases destructorMove_of_step hst <;> rfl⟩

/-- **Every worker leaves soon.** Once `m_stopping` is set, in every run each worker makes at most
as many steps as it is away from its exit. -/
theorem steps_le_rank {as : List (Event n ε T)} (hstop : s.stopping = true)
    (h : exec step s as = some t) (i : Fin n) :
    (t.workers i).rank + as.countP (Event.isStepOf i) ≤ (s.workers i).rank := by
  refine exec_countP_le (P := fun s ↦ s.stopping = true) (φ := fun s ↦ (s.workers i).rank)
    (fun s e t ↦ stopping_of_step) (fun s e t hs hst ↦ ?_) hstop h
  rcases step_worker_or_eq hst i with ⟨d, rfl⟩ | ⟨hstep, -, hw⟩
  · rw [Event.isStepOf, decide_eq_true rfl]
    exact rank_lt_of_worker hs (workerMove_of_step hst)
  · rw [hstep, hw]
    rfl

theorem acquires_le_one {as : List (Event n ε T)} (hstop : s.stopping = true)
    (h : exec step s as = some t) (i : Fin n) : as.countP (Event.isAcquireOf i) ≤ 1 := by
  have hle : (t.workers i).waiting.toNat + as.countP (Event.isAcquireOf i) ≤
      (s.workers i).waiting.toNat := by
    refine exec_countP_le (P := fun s ↦ s.stopping = true)
      (φ := fun s ↦ (s.workers i).waiting.toNat) (fun s e t ↦ stopping_of_step)
      (fun s e t hs hst ↦ ?_) hstop h
    rcases step_worker_or_eq hst i with ⟨d, rfl⟩ | ⟨-, hacq, hw⟩
    · rw [not_waiting_of_worker hs (workerMove_of_step hst)]
      cases d with
      | acquire =>
        cases hwi : s.workers i <;> simp [step, workerStep, hwi] at hst
        simp [Event.isAcquireOf, Worker.waiting]
      | _ => exact Nat.zero_le _
    · rw [hacq, hw]
      rfl
  exact (Nat.le_add_left ..).trans (hle.trans (Bool.toNat_le _))

/-- **Shutdown cannot deadlock**, for any number of workers and whatever is enqueued before or
meanwhile. After the last release of the destructor there is a token for every worker that waits, so
every worker that has not left its loop can move. In every reachable state a worker that waits can
acquire after steps of the destructor alone. And after `m_stopping` was set each worker acquires at
most once. -/
theorem shutdown_no_deadlock :
    (∀ s : State n ε T, Reachable step init s → s.destructor.released = n →
      count Worker.waiting s.workers ≤ s.semaphore ∧
      ∀ i, s.workers i ≠ .exited → ∃ e, (step s (.worker i e)).isSome) ∧
    (∀ (s : State n ε T) (i : Fin n), Reachable step init s → s.workers i = .acquire →
      ∃ as t, (∀ e ∈ as, ∃ d, e = .destructor d) ∧ exec step s as = some t ∧
        (step t (.worker i .acquire)).isSome) ∧
    ∀ (s t : State n ε T) (i : Fin n) (as : List (Event n ε T)), s.stopping = true →
      exec step s as = some t → as.countP (Event.isAcquireOf i) ≤ 1 := by
  refine ⟨fun s hr hrel ↦ ?_, fun s i hr hw ↦ ?_, fun s t i as hstop h ↦ ?_⟩
  · have h := covered_of_reachable hr
    exact ⟨h.waiting_le hrel, fun i hw ↦ exists_workerStep_of_covered h hrel hw⟩
  · obtain ⟨as, t, has, hexec, hrel, hworkers⟩ := finishes_of_covered (covered_of_reachable hr)
    have hwt : t.workers i = .acquire := by rw [hworkers, hw]
    have hpos : 0 < count Worker.waiting t.workers := count_pos (by rw [hwt]; rfl)
    have hle := (covered_of_reachable (hr.exec hexec)).waiting_le hrel
    exact ⟨as, t, has, hexec, acquire_isSome hwt (hpos.trans_le hle)⟩
  · exact acquires_le_one hstop h i

/-- A worker that waits when the destructor begins gets its token, goes on and does not acquire
again. -/
theorem shutdown_no_deadlock_one_worker : ∃ s t u : State 1 Unit ℕ,
    exec step init [.worker 0 .testStop, .worker 0 .testStopping, .destructor .store] = some s ∧
    s.workers 0 = .acquire ∧ (step s (.worker 0 .acquire)).isNone ∧
    (∃ as t, exec step s as = some t ∧ (step t (.worker 0 .acquire)).isSome) ∧
    step s (.destructor .release) = some t ∧ (∃ e, (step t (.worker 0 e)).isSome) ∧
    exec step t [.worker 0 .acquire, .destructor .requestStop, .worker 0 .earlyStop] = some u ∧
    ∀ as v, exec step t as = some v → as.countP (Event.isAcquireOf 0) ≤ 1 := by
  obtain ⟨htoken, hacquires, honce⟩ := shutdown_no_deadlock (n := 1) (ε := Unit) (T := ℕ)
  refine ⟨_, _, _, rfl, rfl, rfl, ?_, rfl, ?_, rfl, fun as v h ↦ honce _ v 0 as rfl h⟩
  · obtain ⟨as, t, -, hexec, hsome⟩ := hacquires _ 0
      ⟨[.worker 0 .testStop, .worker 0 .testStopping, .destructor .store], rfl⟩ (by rfl)
    exact ⟨as, t, hexec, hsome⟩
  · obtain ⟨-, hmoves⟩ := htoken _ ⟨[.worker 0 .testStop, .worker 0 .testStopping,
      .destructor .store, .destructor .release], rfl⟩ (by rfl)
    exact hmoves 0 (by decide)

/-! ## Tasks that are never run -/

/-- The queued tasks for which no worker is on its way. -/
def unserved (s : State n ε T) : ℕ := s.tasks.length - count Worker.passed s.workers

omit [DecidableEq ε] in
theorem unserved_of_worker {w : Worker T} (hworkers : t.workers = Function.update s.workers i w)
    (hserved : t.tasks.length = s.tasks.length ∧ w.passed = (s.workers i).passed ∨
      t.tasks.length = s.tasks.length - 1 ∧ w.passed = false ∧ (s.workers i).passed = true) :
    unserved t = unserved s := by
  have hcount := count_update Worker.passed s.workers i w
  rw [unserved, unserved, hworkers]
  rcases hserved with ⟨htasks, hw⟩ | ⟨htasks, hw, hi⟩
  · rw [hw] at hcount
    omega
  · rw [hw, hi, Bool.toNat_true, Bool.toNat_false] at hcount
    omega

/-- Once `m_stopping` is set and nothing more is enqueued, each pop serves a task some worker was on
its way to, and no worker sets out for another one. -/
theorem unserved_of_step {e : Event n ε T} (hstop : s.stopping = true)
    (he : ∀ p d, e ≠ .enqueuer p d) (hst : step s e = some t) : unserved t = unserved s := by
  cases e with
  | worker i e =>
    cases workerMove_of_step hst with
    | @point w hn =>
      refine unserved_of_worker rfl ?_
      have hne := hn.ne_acquire hstop
      generalize s.workers i = w₀ at hn
      cases hn with
      | passed => exact absurd rfl hne
      | earlyExit hnil | nothingToPop hnil =>
        refine Or.inr ⟨?_, rfl, rfl⟩
        rw [State.setWorker, hnil]
        rfl
      | _ => exact Or.inl ⟨rfl, rfl⟩
    | acquire hw => exact unserved_of_worker rfl (Or.inl ⟨rfl, by rw [hw]; rfl⟩)
    | pop hw htasks =>
      refine unserved_of_worker rfl (Or.inr ⟨?_, rfl, by rw [hw]; rfl⟩)
      rw [htasks]
      rfl
    | run hw => exact unserved_of_worker rfl (Or.inl ⟨rfl, by rw [hw]; rfl⟩)
  | enqueuer p d => exact absurd rfl (he p d)
  | destructor e => cases destructorMove_of_step hst <;> rfl

omit [DecidableEq ε] in
theorem eq_of_store (h : destructorStep s .store = some t) :
    t = { s with stopping := true, destructor := .loop 0 } := by
  cases hd : s.destructor <;> simp [destructorStep, hd] at h
  exact h.symm

/-- Every task enqueued has been taken, in the order of `enqueue`, and run exactly once. -/
structure AllRun (s : State n ε T) : Prop where
  tasks_eq : s.tasks = []
  taken_eq : s.taken = s.emplaced
  ran_perm : s.ran.Perm s.emplaced

omit [DecidableEq ε] in
/-- When all workers have left, what was taken has been run. -/
theorem Ordered.allRun_iff (h : Ordered s) (hexited : ∀ i, s.workers i = .exited) :
    AllRun s ↔ s.tasks = [] := by
  refine ⟨AllRun.tasks_eq, fun hnil ↦ ?_⟩
  have htaken : s.taken = s.emplaced := by
    rw [← h.fifo, hnil, List.append_nil]
  have hran := h.ran_eq
  rw [tally_eq_zero (fun i ↦ by rw [hexited i]; rfl), add_zero, Multiset.coe_eq_coe] at hran
  exact ⟨hnil, htaken, htaken ▸ hran.symm⟩

/-- **Which shutdowns run every task.** Let all calls of `enqueue` be over when the destructor
stores `m_stopping`. When all workers have left their loops, every task has been taken in order and
run exactly once if and only if, at that store, there were no more tasks in the queue than workers
past the loop test and not yet past their pop. -/
theorem allRun_iff_at_store {s₀ s₁ s : State n ε T} {as : List (Event n ε T)}
    (hr : Reachable step init s₀) (hstore : step s₀ (.destructor .store) = some s₁)
    (hexec : exec step s₁ as = some s) (henqueue : ∀ e ∈ as, ∀ p d, e ≠ .enqueuer p d)
    (hexited : ∀ i, s.workers i = .exited) :
    AllRun s ↔ s₀.tasks.length ≤ count Worker.passed s₀.workers := by
  have hord := ordered_of_reachable ((hr.tail hstore).exec hexec)
  obtain rfl := eq_of_store hstore
  have hend : s.stopping = true ∧ unserved s = unserved s₀ := by
    refine exec_invariant_of_mem (P := fun s ↦ s.stopping = true ∧ unserved s = unserved s₀)
      ?_ ?_ hexec
    · rintro u e he v ⟨hu, hun⟩ hst
      exact ⟨stopping_of_step hu hst, (unserved_of_step hu (henqueue e he) hst).trans hun⟩
    · exact ⟨rfl, rfl⟩
  have hnone : count Worker.passed s.workers = 0 := count_eq_zero fun i ↦ by rw [hexited i]; rfl
  -- with no worker left inside, the unserved tasks are all that is queued
  have htasks : s.tasks.length = s₀.tasks.length - count Worker.passed s₀.workers := by
    have := hend.2
    rwa [unserved, hnone, Nat.sub_zero] at this
  rw [hord.allRun_iff hexited, ← List.length_eq_zero_iff, htasks, Nat.sub_eq_zero_iff_le]

/-- A worker that waits when the pool is shut down runs the one task that is queued. -/
theorem allRun_one_task : ∃ s : State 1 Unit ℕ, s.emplaced = [7] ∧ AllRun s := by
  have hr : Reachable step (init : State 1 Unit ℕ) _ :=
    ⟨[.worker 0 .testStop, .worker 0 .testStopping, .enqueuer () (.enqueue 7),
      .enqueuer () .emplace, .enqueuer () .release], rfl⟩
  have hall := allRun_iff_at_store hr rfl (rfl : exec step _ [.destructor .release,
    .destructor .requestStop, .worker 0 .acquire, .worker 0 .earlyStop, .worker 0 .earlyEmpty,
    .worker 0 .pop, .worker 0 .run, .worker 0 .testStop] = some _) (by simp) (by decide)
  exact ⟨_, rfl, hall.mpr (by decide)⟩

/-- The same shutdown with two tasks in the queue: all calls of `enqueue` are over, all workers have
left, and the second task is still queued. -/
theorem not_allRun_two_tasks : ∃ s₀ s₁ s : State 1 Unit ℕ, Reachable step init s₀ ∧
    (∀ p, s₀.enqueuers p = .idle) ∧ step s₀ (.destructor .store) = some s₁ ∧
    exec step s₁ [.destructor .release, .destructor .requestStop, .worker 0 .acquire,
      .worker 0 .earlyStop, .worker 0 .earlyEmpty, .worker 0 .pop, .worker 0 .run,
      .worker 0 .testStop] = some s ∧
    (∀ i, s.workers i = .exited) ∧ s.emplaced = [7, 8] ∧ s.tasks = [8] ∧ ¬AllRun s := by
  have hr : Reachable step (init : State 1 Unit ℕ) _ :=
    ⟨[.worker 0 .testStop, .worker 0 .testStopping, .enqueuer () (.enqueue 7),
      .enqueuer () .emplace, .enqueuer () .release, .enqueuer () (.enqueue 8),
      .enqueuer () .emplace, .enqueuer () .release], rfl⟩
  exact ⟨_, _, _, hr, fun _ ↦ rfl, rfl, rfl, by decide, rfl, rfl, fun h ↦ nomatch h.tasks_eq⟩

end ThreadPool

end FastInAHurry
