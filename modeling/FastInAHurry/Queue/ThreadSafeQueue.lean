import FastInAHurry.Library.Census
import FastInAHurry.Library.Runs

/-!
# The locking queue

The embedding of `structs/ThreadSafeQueue.hh` for any number of threads, each of which may call
`push` and `wait_and_pop`. The mutex is its holder. `_cv.wait(lock, pred)` is the loop of the
standard: the predicate is checked with the mutex held, a thread that finds it false goes to sleep
and releases the mutex in one step, and a thread that wakes up, notified or not, takes the mutex
again before the next check. `notify_one` wakes one sleeper if there is one and is lost otherwise.

The notification comes after the mutex was released, so a consumer that has just arrived can take
the value for which a sleeper is woken. What is never lost is cover: while a consumer sleeps, every
queued value is covered by a pusher that has still to notify or by a consumer that is awake.
-/

namespace FastInAHurry

open Census Runs

namespace ThreadSafeQueue

/-- Where a thread stands; a value is the argument of the `push` or the result of the
`wait_and_pop` that it is in. -/
inductive Thread (T : Type*) where
  | idle
  | pushLock (value : T)
  | enqueue (value : T)
  | pushUnlock
  | notify
  | popLock
  | check
  | sleep
  | asleep
  | wakeLock
  | take
  | popUnlock (val : T)
deriving DecidableEq

structure State (ι T : Type*) where
  queue : List T
  mutex : Option ι
  threads : ι → Thread T
  /-- The values in the order in which they were enqueued. -/
  enqueued : List T
  /-- The values in the order in which they were taken. -/
  taken : List T
  /-- The values in the order in which they were returned by `wait_and_pop`. -/
  returned : List T

inductive Access (ι T : Type*) where
  | push (value : T)
  | waitAndPop
  | lock
  | enqueue
  | unlock
  | notifyOne (sleeper : Option ι)
  | check
  | sleep
  | wake
  | take
deriving DecidableEq

/-- What a schedule can do next. -/
structure Event (ι T : Type*) where
  thread : ι
  access : Access ι T
deriving DecidableEq

variable {ι T : Type*}

/-- The thread holds the mutex. -/
def Thread.holds : Thread T → Bool
  | .enqueue _ | .pushUnlock | .check | .sleep | .take | .popUnlock _ => true
  | _ => false

/-- The thread has enqueued its value and not yet notified. -/
def Thread.owesNotify : Thread T → Bool
  | .pushUnlock | .notify => true
  | _ => false

/-- The thread is inside `wait_and_pop`, awake, and has not yet taken a value. -/
def Thread.awake : Thread T → Bool
  | .popLock | .check | .sleep | .wakeLock | .take => true
  | _ => false

def Thread.isAsleep : Thread T → Bool
  | .asleep => true
  | _ => false

/-- The value that the thread has taken and not yet returned. -/
def Thread.carried : Thread T → List T
  | .popUnlock val => [val]
  | _ => []

def init : State ι T where
  queue := []
  mutex := none
  threads := fun _ ↦ .idle
  enqueued := []
  taken := []
  returned := []

variable [DecidableEq ι]

/-- Move the thread `p` to the program point `q`. -/
def State.move (s : State ι T) (p : ι) (q : Thread T) : State ι T :=
  { s with threads := Function.update s.threads p q }

/-- One event of any thread. -/
def step [Fintype ι] (s : State ι T) (e : Event ι T) : Option (State ι T) :=
  let p := e.thread
  match e.access, s.threads p with
  | .push value, .idle => some (s.move p (.pushLock value))
  | .waitAndPop, .idle => some (s.move p .popLock)
  | .lock, .pushLock value =>
    if s.mutex.isNone then some { s.move p (.enqueue value) with mutex := some p } else none
  | .lock, .popLock =>
    if s.mutex.isNone then some { s.move p .check with mutex := some p } else none
  | .lock, .wakeLock =>
    if s.mutex.isNone then some { s.move p .check with mutex := some p } else none
  | .enqueue, .enqueue value => some { s.move p .pushUnlock with
      queue := s.queue ++ [value]
      enqueued := s.enqueued ++ [value] }
  | .unlock, .pushUnlock => some { s.move p .notify with mutex := none }
  | .unlock, .popUnlock val => some { s.move p .idle with
      mutex := none
      returned := s.returned ++ [val] }
  | .notifyOne (some j), .notify =>
    if (s.threads j).isAsleep then some ((s.move j .wakeLock).move p .idle) else none
  | .notifyOne none, .notify =>
    if count Thread.isAsleep s.threads = 0 then some (s.move p .idle) else none
  | .check, .check => some (s.move p (if s.queue.isEmpty then .sleep else .take))
  | .sleep, .sleep => some { s.move p .asleep with mutex := none }
  | .wake, .asleep => some (s.move p .wakeLock)
  | .take, .take =>
    match s.queue with
    | [] => none
    | val :: rest => some { s.move p (.popUnlock val) with
        queue := rest
        taken := s.taken ++ [val] }
  | _, _ => none

/-! ## What a step can do -/

variable {s t : State ι T} {p : ι}

/-- Everything a step of the thread `p` can do. -/
inductive Move [Fintype ι] (s : State ι T) (p : ι) : State ι T → Prop
  | push (value : T) (hp : s.threads p = .idle) : Move s p (s.move p (.pushLock value))
  | waitAndPop (hp : s.threads p = .idle) : Move s p (s.move p .popLock)
  | pushLock {value : T} (hp : s.threads p = .pushLock value) (hfree : s.mutex = none) :
      Move s p { s.move p (.enqueue value) with mutex := some p }
  | popLock (hp : s.threads p = .popLock ∨ s.threads p = .wakeLock) (hfree : s.mutex = none) :
      Move s p { s.move p .check with mutex := some p }
  | enqueue {value : T} (hp : s.threads p = .enqueue value) :
      Move s p { s.move p .pushUnlock with
        queue := s.queue ++ [value]
        enqueued := s.enqueued ++ [value] }
  | pushUnlock (hp : s.threads p = .pushUnlock) :
      Move s p { s.move p .notify with mutex := none }
  | popUnlock {val : T} (hp : s.threads p = .popUnlock val) :
      Move s p { s.move p .idle with
        mutex := none
        returned := s.returned ++ [val] }
  | notifyOne {j : ι} (hp : s.threads p = .notify) (hj : s.threads j = .asleep) :
      Move s p ((s.move j .wakeLock).move p .idle)
  | notifyNobody (hp : s.threads p = .notify) (hnone : count Thread.isAsleep s.threads = 0) :
      Move s p (s.move p .idle)
  | checkEmpty (hp : s.threads p = .check) (hempty : s.queue = []) : Move s p (s.move p .sleep)
  | checkNonempty (hp : s.threads p = .check) (hne : s.queue ≠ []) : Move s p (s.move p .take)
  | sleep (hp : s.threads p = .sleep) : Move s p { s.move p .asleep with mutex := none }
  | wake (hp : s.threads p = .asleep) : Move s p (s.move p .wakeLock)
  | take {val : T} {rest : List T} (hp : s.threads p = .take) (hqueue : s.queue = val :: rest) :
      Move s p { s.move p (.popUnlock val) with
        queue := rest
        taken := s.taken ++ [val] }

theorem isAsleep_iff {q : Thread T} : q.isAsleep = true ↔ q = .asleep := by
  cases q <;> simp [Thread.isAsleep]

theorem move_of_step [Fintype ι] {e : Event ι T} (hst : step s e = some t) :
    Move s e.thread t := by
  obtain ⟨p, access⟩ := e
  unfold step at hst
  dsimp only at hst ⊢
  split at hst
  · next hp => exact Option.some.inj hst ▸ .push _ hp
  · next hp => exact Option.some.inj hst ▸ .waitAndPop hp
  · next hp =>
    split at hst <;> try contradiction
    next hfree => exact Option.some.inj hst ▸ .pushLock hp (Option.isNone_iff_eq_none.mp hfree)
  · next hp =>
    split at hst <;> try contradiction
    next hfree =>
      exact Option.some.inj hst ▸ .popLock (Or.inl hp) (Option.isNone_iff_eq_none.mp hfree)
  · next hp =>
    split at hst <;> try contradiction
    next hfree =>
      exact Option.some.inj hst ▸ .popLock (Or.inr hp) (Option.isNone_iff_eq_none.mp hfree)
  · next hp => exact Option.some.inj hst ▸ .enqueue hp
  · next hp => exact Option.some.inj hst ▸ .pushUnlock hp
  · next hp => exact Option.some.inj hst ▸ .popUnlock hp
  · next hp =>
    split at hst <;> try contradiction
    next hj => exact Option.some.inj hst ▸ .notifyOne hp (isAsleep_iff.mp hj)
  · next hp =>
    split at hst <;> try contradiction
    next hnone => exact Option.some.inj hst ▸ .notifyNobody hp hnone
  · next hp =>
    obtain rfl := Option.some.inj hst
    by_cases hempty : s.queue = []
    · rw [if_pos (List.isEmpty_iff.mpr hempty)]
      exact .checkEmpty hp hempty
    · rw [if_neg (mt List.isEmpty_iff.mp hempty)]
      exact .checkNonempty hp hempty
  · next hp => exact Option.some.inj hst ▸ .sleep hp
  · next hp => exact Option.some.inj hst ▸ .wake hp
  · next hp =>
    split at hst <;> try contradiction
    next hqueue => exact Option.some.inj hst ▸ .take hp hqueue
  · contradiction

/-! ## The mutex -/

/-- The mutex protects what a consumer has learned about the queue. -/
structure Guarded (s : State ι T) : Prop where
  mutex : ∀ p, (s.threads p).holds = true → s.mutex = some p
  sleep : ∀ p, s.threads p = .sleep → s.queue = []
  take : ∀ p, s.threads p = .take → s.queue ≠ []

omit [DecidableEq ι] in
theorem Guarded.init : Guarded (init : State ι T) where
  mutex _ h := by cases h
  sleep _ h := by cases h
  take _ h := by cases h

omit [DecidableEq ι] in
theorem Guarded.eq_of_holds (h : Guarded s) {p q : ι} (hp : (s.threads p).holds = true)
    (hq : (s.threads q).holds = true) : p = q :=
  Option.some.inj ((h.mutex p hp).symm.trans (h.mutex q hq))

/-- A thread may move if it keeps the mutex, or takes it while it is free, or holds it. -/
theorem Guarded.of_thread (h : Guarded s) {q : Thread T}
    (hthreads : t.threads = Function.update s.threads p q)
    (hmutex : t.mutex = s.mutex ∨ s.mutex = none ∨ (s.threads p).holds = true)
    (hqueue : t.queue = s.queue ∨ (s.threads p).holds = true)
    (hholds : q.holds = true → t.mutex = some p) (hsleep : q = .sleep → t.queue = [])
    (htake : q = .take → t.queue ≠ []) : Guarded t := by
  have hself : t.threads p = q := by rw [hthreads, Function.update_self]
  have hother : ∀ r, r ≠ p → t.threads r = s.threads r := fun r hr ↦ by
    rw [hthreads, Function.update_of_ne hr]
  have hsame : ∀ r, r ≠ p → (s.threads r).holds = true → t.queue = s.queue := by
    intro r hr hrholds
    rcases hqueue with hqueue | hp
    · exact hqueue
    · exact absurd (h.eq_of_holds hrholds hp) hr
  refine ⟨fun r hr ↦ ?_, fun r hr ↦ ?_, fun r hr ↦ ?_⟩
  · rcases eq_or_ne r p with rfl | hne
    · exact hholds (hself ▸ hr)
    · rw [hother r hne] at hr
      rcases hmutex with hmutex | hfree | hp
      · exact hmutex.trans (h.mutex r hr)
      · cases hfree.symm.trans (h.mutex r hr)
      · exact absurd (h.eq_of_holds hr hp) hne
  · rcases eq_or_ne r p with rfl | hne
    · exact hsleep (hself ▸ hr)
    · rw [hother r hne] at hr
      rw [hsame r hne (by rw [hr]; rfl)]
      exact h.sleep r hr
  · rcases eq_or_ne r p with rfl | hne
    · exact htake (hself ▸ hr)
    · rw [hother r hne] at hr
      rw [hsame r hne (by rw [hr]; rfl)]
      exact h.take r hr

theorem Guarded.move [Fintype ι] (h : Guarded s) (hm : Move s p t) : Guarded t := by
  cases hm with
  | push value hp | waitAndPop hp | notifyNobody hp | wake hp =>
    exact h.of_thread rfl (Or.inl rfl) (Or.inl rfl) nofun nofun nofun
  | pushLock hp hfree | popLock hp hfree =>
    exact h.of_thread rfl (Or.inr (Or.inl hfree)) (Or.inl rfl) (fun _ ↦ rfl) nofun nofun
  | enqueue hp =>
    have hholds : (s.threads p).holds = true := by rw [hp]; rfl
    exact h.of_thread rfl (Or.inl rfl) (Or.inr hholds) (fun _ ↦ h.mutex p hholds) nofun nofun
  | pushUnlock hp | popUnlock hp | sleep hp =>
    have hholds : (s.threads p).holds = true := by rw [hp]; rfl
    exact h.of_thread rfl (Or.inr (Or.inr hholds)) (Or.inl rfl) nofun nofun nofun
  | @notifyOne j hp hj =>
    have hwake : Guarded (s.move j .wakeLock) :=
      h.of_thread rfl (Or.inl rfl) (Or.inl rfl) nofun nofun nofun
    exact hwake.of_thread rfl (Or.inl rfl) (Or.inl rfl) nofun nofun nofun
  | checkEmpty hp hempty =>
    have hholds : (s.threads p).holds = true := by rw [hp]; rfl
    exact h.of_thread rfl (Or.inl rfl) (Or.inl rfl) (fun _ ↦ h.mutex p hholds) (fun _ ↦ hempty)
      nofun
  | checkNonempty hp hne =>
    have hholds : (s.threads p).holds = true := by rw [hp]; rfl
    exact h.of_thread rfl (Or.inl rfl) (Or.inl rfl) (fun _ ↦ h.mutex p hholds) nofun
      fun _ ↦ hne
  | take hp hqueue =>
    have hholds : (s.threads p).holds = true := by rw [hp]; rfl
    exact h.of_thread rfl (Or.inl rfl) (Or.inr hholds) (fun _ ↦ h.mutex p hholds) nofun nofun

/-! ## The histories -/

/-- What the holder of the mutex has taken and not yet returned. -/
def State.carried (s : State ι T) : List T :=
  match s.mutex with
  | none => []
  | some p => (s.threads p).carried

omit [DecidableEq ι] in
theorem carried_of_free (h : s.mutex = none) : s.carried = [] := by
  rw [State.carried, h]

omit [DecidableEq ι] in
theorem carried_of_holder (h : s.mutex = some p) : s.carried = (s.threads p).carried := by
  rw [State.carried, h]

/-- Values are taken in the order of `push` and returned in the order in which they are taken: a
thread returns its value before it releases the mutex. -/
structure Ordered (s : State ι T) : Prop where
  fifo : s.taken ++ s.queue = s.enqueued
  returned_eq : s.taken = s.returned ++ s.carried

omit [DecidableEq ι] in
theorem Ordered.init : Ordered (init : State ι T) := ⟨rfl, rfl⟩

theorem Ordered.of_holder {q : Thread T} (hmutex : t.mutex = some p)
    (hthreads : t.threads = Function.update s.threads p q)
    (hfifo : t.taken ++ t.queue = t.enqueued) (hreturned : t.taken = t.returned ++ q.carried) :
    Ordered t := by
  refine ⟨hfifo, ?_⟩
  rw [carried_of_holder hmutex, hthreads, Function.update_self]
  exact hreturned

/-- A thread may move without touching the mutex if it carries the same before and after. -/
theorem Ordered.of_thread (h : Ordered s) {q : Thread T}
    (hq : q.carried = (s.threads p).carried) : Ordered (s.move p q) := by
  have hcarried : (s.move p q).carried = s.carried := by
    rcases hmutex : s.mutex with _ | r
    · rw [carried_of_free (s := s.move p q) hmutex, carried_of_free hmutex]
    · rw [carried_of_holder (s := s.move p q) hmutex, carried_of_holder hmutex]
      rcases eq_or_ne r p with rfl | hne
      · exact (congrArg _ (Function.update_self ..)).trans hq
      · exact congrArg _ (Function.update_of_ne hne ..)
  refine ⟨h.fifo, ?_⟩
  rw [hcarried]
  exact h.returned_eq

theorem Ordered.move [Fintype ι] (h : Ordered s) (hg : Guarded s) (hm : Move s p t) :
    Ordered t := by
  have hholder := hg.mutex p
  cases hm with
  | push value hp | waitAndPop hp | notifyNobody hp | checkEmpty hp | checkNonempty hp | wake hp =>
    exact h.of_thread (by rw [hp]; rfl)
  | pushLock hp hfree | popLock hp hfree =>
    refine .of_holder rfl rfl h.fifo (h.returned_eq.trans ?_)
    rw [carried_of_free hfree]
    rfl
  | @enqueue value hp =>
    have hmutex : s.mutex = some p := hholder (by rw [hp]; rfl)
    refine .of_holder hmutex rfl ?_ (h.returned_eq.trans ?_)
    · rw [← List.append_assoc]
      exact congrArg (· ++ [value]) h.fifo
    · rw [carried_of_holder hmutex, hp]
      rfl
  | pushUnlock hp | sleep hp =>
    refine ⟨h.fifo, h.returned_eq.trans ?_⟩
    rw [carried_of_holder (hholder (by rw [hp]; rfl)), hp]
    rfl
  | @popUnlock val hp =>
    refine ⟨h.fifo, h.returned_eq.trans ?_⟩
    rw [carried_of_holder (hholder (by rw [hp]; rfl)), hp]
    exact (List.append_nil _).symm
  | @notifyOne j hp hj =>
    have hne : p ≠ j := by
      rintro rfl
      cases hp.symm.trans hj
    have hwake : Ordered (s.move j .wakeLock) := h.of_thread (by rw [hj]; rfl)
    refine hwake.of_thread ?_
    rw [show (s.move j .wakeLock).threads p = _ from Function.update_of_ne hne .., hp]
    rfl
  | @take val rest hp hqueue =>
    have hmutex : s.mutex = some p := hholder (by rw [hp]; rfl)
    have htaken : s.taken = s.returned := by
      rw [h.returned_eq, carried_of_holder hmutex, hp]
      exact List.append_nil _
    refine .of_holder hmutex rfl ?_ (congrArg (· ++ [val]) htaken)
    rw [List.append_assoc, List.singleton_append, ← hqueue]
    exact h.fifo

variable [Fintype ι]

/-! ## Cover -/

/-- While a consumer sleeps, each queued value is covered by a pusher that has still to notify or
by a consumer that is awake. -/
def Covered (s : State ι T) : Prop :=
  0 < count Thread.isAsleep s.threads →
    s.queue.length ≤ count Thread.owesNotify s.threads + count Thread.awake s.threads

theorem Covered.of_thread (h : Covered s) {q : Thread T}
    (hthreads : t.threads = Function.update s.threads p q) (hq : q.isAsleep = false)
    (hlength : t.queue.length + ((s.threads p).owesNotify.toNat + (s.threads p).awake.toNat) ≤
      s.queue.length + (q.owesNotify.toNat + q.awake.toNat)) :
    Covered t := by
  intro hpos
  have hasleep := count_update Thread.isAsleep s.threads p q
  have howes := count_update Thread.owesNotify s.threads p q
  have hawake := count_update Thread.awake s.threads p q
  rw [hq, ← hthreads] at hasleep
  rw [← hthreads] at howes hawake
  have hcover := h (by simp only [Bool.toNat_false] at hasleep; omega)
  omega

/-- **Cover is kept.** A consumer goes to sleep only on an empty queue, which it has checked under
the mutex that it still holds; a lost notification finds nobody asleep. -/
theorem Covered.move (h : Covered s) (hg : Guarded s) (hm : Move s p t) : Covered t := by
  cases hm with
  | push value hp | waitAndPop hp | pushLock hp | pushUnlock hp | popUnlock hp | checkEmpty hp
  | checkNonempty hp | wake hp =>
    refine h.of_thread rfl rfl ?_
    rw [hp]
    simp [State.move, Thread.owesNotify, Thread.awake]
  | popLock hp =>
    refine h.of_thread rfl rfl ?_
    rcases hp with hp | hp <;> rw [hp] <;> exact Nat.le_refl _
  | enqueue hp =>
    refine h.of_thread rfl rfl ?_
    rw [hp, List.length_append]
    exact Nat.le_refl _
  | @notifyOne j hp hj =>
    intro _
    have hne : p ≠ j := by
      rintro rfl
      cases hp.symm.trans hj
    have hp' : (s.move j .wakeLock).threads p = .notify := (Function.update_of_ne hne ..).trans hp
    have howes := count_update Thread.owesNotify s.threads j .wakeLock
    have hawake := count_update Thread.awake s.threads j .wakeLock
    have howes' := count_update Thread.owesNotify (s.move j .wakeLock).threads p .idle
    have hawake' := count_update Thread.awake (s.move j .wakeLock).threads p .idle
    rw [hj] at howes hawake
    rw [hp'] at howes' hawake'
    have hcover := h (count_pos (i := j) (by rw [hj]; rfl))
    simp only [Thread.owesNotify, Thread.awake, Bool.toNat_true, Bool.toNat_false] at *
    simp only [State.move] at *
    omega
  | notifyNobody hp hnone =>
    intro hpos
    have hasleep := count_update Thread.isAsleep s.threads p .idle
    rw [hp, hnone] at hasleep
    exact absurd hasleep (Nat.pos_iff_ne_zero.mp hpos)
  | sleep hp =>
    intro _
    have hnil : s.queue = [] := hg.sleep p hp
    change s.queue.length ≤ _
    rw [hnil]
    exact Nat.zero_le _
  | take hp hqueue =>
    refine h.of_thread rfl rfl ?_
    rw [hp, hqueue]
    exact Nat.le_refl _

theorem invariants_of_reachable (h : Reachable step init s) :
    Ordered s ∧ Guarded s ∧ Covered s := by
  refine h.invariant (P := fun s ↦ Ordered s ∧ Guarded s ∧ Covered s) ?_
    ⟨Ordered.init, Guarded.init, ?_⟩
  · rintro s e t ⟨hordered, hguarded, hcovered⟩ hst
    have hm := move_of_step hst
    exact ⟨hordered.move hguarded hm, hguarded.move hm, hcovered.move hguarded hm⟩
  · intro hpos
    rw [count_eq_zero fun _ ↦ rfl] at hpos
    cases hpos

/-- **Every value once, and no sleep on a non-empty queue.** In every reachable state, for any
number of threads: the values taken, in order, are a prefix of the values enqueued, the rest of
which is still queued; they are returned in that order, each one once, by the thread that took it;
and while a consumer sleeps, the number of queued values is at most the number of pushers that have
still to notify plus the number of consumers that are awake without a value. -/
theorem delivery_and_cover (s : State ι T) (hr : Reachable step init s) :
    s.taken ++ s.queue = s.enqueued ∧
    s.taken = s.returned ++ s.carried ∧
    s.returned <+: s.enqueued ∧
    ((∃ p, s.threads p = .asleep) →
      s.queue.length ≤ count Thread.owesNotify s.threads + count Thread.awake s.threads) := by
  obtain ⟨hordered, -, hcovered⟩ := invariants_of_reachable hr
  refine ⟨hordered.fifo, hordered.returned_eq, ?_, ?_⟩
  · rw [← hordered.fifo, hordered.returned_eq, List.append_assoc]
    exact List.prefix_append _ _
  · rintro ⟨p, hp⟩
    exact hcovered (count_pos (isAsleep_iff.mpr hp))

/-- A value is queued while a consumer sleeps: its pusher has not notified yet. -/
theorem delivery_and_cover_before_notify : ∃ s : State Bool ℕ, Reachable step init s ∧
    s.threads true = .asleep ∧ s.queue = [7] ∧
    1 ≤ count Thread.owesNotify s.threads + count Thread.awake s.threads := by
  have hr : Reachable step (init : State Bool ℕ) _ :=
    ⟨[⟨true, .waitAndPop⟩, ⟨true, .lock⟩, ⟨true, .check⟩, ⟨true, .sleep⟩, ⟨false, .push 7⟩,
      ⟨false, .lock⟩, ⟨false, .enqueue⟩, ⟨false, .unlock⟩], rfl⟩
  exact ⟨_, hr, rfl, rfl, (delivery_and_cover _ hr).2.2.2 ⟨true, rfl⟩⟩

end ThreadSafeQueue

end FastInAHurry
