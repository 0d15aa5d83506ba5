import FastInAHurry.Library.Merge
import FastInAHurry.Library.Turns
import FastInAHurry.Queue.ThreadSafeQueue
import Mathlib.Algebra.Order.BigOperators.Group.Finset

/-!
# Clients of the locking queue

Threads that use a queue of `structs/ThreadSafeQueue.hh`, each for a list of calls of `push` and
`wait_and_pop`. The accesses that their calls make are the steps of the queue itself.

Three things are left open that no thread decides: whose turn it is, whom each `notify_one` wakes,
and which sleepers wake up without one. For the last there are slots of their own in the schedule,
of which only a given number has an effect.

## When all calls return

A thread that sleeps needs a value, so the calls themselves can leave it asleep for ever: two
threads that each wait for the other to push. The calls are *supplied* if no choice of positions at
which the threads could all be stuck has its values used up. Then every call returns; that a
notification comes late, goes to a thread that finds nothing, or is lost does not matter.
-/

namespace FastInAHurry

open Census ThreadSafeQueue Turns

namespace QueueClients

/-- A call of a client. -/
inductive Call (T : Type*) where
  | push (value : T)
  | waitAndPop
deriving DecidableEq

/-- Whom a `notify_one` wakes, given who is asleep: one of them if there is one. -/
structure Waker (ι : Type*) where
  pick : (ι → Bool) → Option ι
  asleep_of_some : ∀ asleep p, pick asleep = some p → asleep p = true
  awake_of_none : ∀ asleep, pick asleep = none → ∀ p, asleep p = false

/-- A slot in a schedule: a thread makes its next access, or may wake up without notification. -/
inductive Slot (ι : Type*) where
  | run (p : ι)
  | wake (p : ι)
deriving DecidableEq

structure State (ι T : Type*) where
  queue : ThreadSafeQueue.State ι T
  /-- How many of its calls have returned to each thread. -/
  done : ι → ℕ
  /-- How often a thread may still wake up without notification. -/
  spurious : ℕ

variable {ι T : Type*}

def init (spurious : ℕ) : State ι T where
  queue := ThreadSafeQueue.init
  done := fun _ ↦ 0
  spurious := spurious

/-- The access that begins a call. -/
def Call.access : Call T → Access ι T
  | .push value => .push value
  | .waitAndPop => .waitAndPop

/-- The next access of the thread `p`; a sleeper makes none. -/
def State.next (waker : ι → ℕ → Waker ι) (todo : ι → List (Call T)) (s : State ι T) (p : ι) :
    Option (Access ι T) :=
  match s.queue.threads p with
  | .idle => (todo p)[s.done p]?.map Call.access
  | .pushLock _ | .popLock | .wakeLock => some .lock
  | .enqueue _ => some .enqueue
  | .pushUnlock | .popUnlock _ => some .unlock
  | .notify => some (.notifyOne ((waker p (s.done p)).pick fun j ↦ (s.queue.threads j).isAsleep))
  | .check => some .check
  | .sleep => some .sleep
  | .asleep => none
  | .take => some .take

/-- The next access of the thread returns from its call. -/
def returns : Thread T → Bool
  | .notify | .popUnlock _ => true
  | _ => false

variable [DecidableEq ι] [Fintype ι]

/-- The thread `p` makes an access. -/
def State.access (s : State ι T) (p : ι) (a : Access ι T) : State ι T :=
  match ThreadSafeQueue.step s.queue ⟨p, a⟩ with
  | none => s
  | some queue => { s with
      queue := queue
      done := Function.update s.done p (s.done p + (returns (s.queue.threads p)).toNat) }

/-- One slot of a schedule. The `n`-th call of a thread `p`, if it is a `push`, wakes whom
`waker p n` picks. -/
def turn (waker : ι → ℕ → Waker ι) (todo : ι → List (Call T)) (s : State ι T) :
    Slot ι → State ι T
  | .run p =>
    match s.next waker todo p with
    | none => s
    | some a => s.access p a
  | .wake p =>
    if s.spurious = 0 then s
    else match ThreadSafeQueue.step s.queue ⟨p, .wake⟩ with
      | none => s
      | some queue => { s with queue := queue, spurious := s.spurious - 1 }

/-- All calls have returned. -/
def Finished (todo : ι → List (Call T)) (s : State ι T) : Prop :=
  ∀ p, s.queue.threads p = .idle ∧ s.done p = (todo p).length

variable {waker : ι → ℕ → Waker ι} {todo : ι → List (Call T)} {s : State ι T} {p : ι}

/-! ## What a turn does -/

/-- The thread is in the given call. -/
def Inside : Thread T → Call T → Prop
  | .pushLock value, c | .enqueue value, c => c = .push value
  | .pushUnlock, c | .notify, c => c ≠ .waitAndPop
  | .idle, _ => False
  | _, c => c = .waitAndPop

/-- How many values the thread has enqueued in the call it is in. -/
def stored (q : Thread T) : ℕ := q.owesNotify.toNat

/-- The accesses that a thread makes at most before its call returns, a wake-up apart. -/
def accessesLeft : Thread T → ℕ
  | .idle => 0
  | .pushLock _ => 7
  | .enqueue _ => 6
  | .pushUnlock => 5
  | .notify => 4
  | .popLock | .wakeLock => 5
  | .check => 4
  | .sleep => 3
  | .asleep | .take => 2
  | .popUnlock _ => 1

/-- Where a thread stands that has begun a call. -/
def Call.first : Call T → Thread T
  | .push value => .pushLock value
  | .waitAndPop => .popLock

/-- The thread `p` returns from its call. -/
def State.finish (s : State ι T) (p : ι) : State ι T :=
  { s with
    queue := s.queue.move p .idle
    done := Function.update s.done p (s.done p + 1) }

/-- The thread `p` returns from a `wait_and_pop` with a value. -/
def State.deliver (s : State ι T) (p : ι) (val : T) : State ι T :=
  { s.finish p with
    queue := { s.queue.move p .idle with
      mutex := none
      returned := s.queue.returned ++ [val] } }

/-- The thread `p` puts a value into the queue. -/
def State.enqueue (s : State ι T) (p : ι) (value : T) : State ι T :=
  { s with
    queue := { s.queue.move p .pushUnlock with
      queue := s.queue.queue ++ [value]
      enqueued := s.queue.enqueued ++ [value] } }

/-- The thread `j` wakes up. -/
def State.awaken (s : State ι T) (j : ι) : State ι T :=
  { s with queue := s.queue.move j .wakeLock }

/-- From one point inside a call to another, with no value put into the queue or returned. -/
structure Inner (x q : Thread T) : Prop where
  ne_idle : x ≠ .idle
  stays : q ≠ .idle
  inside : ∀ c, Inside x c → Inside q c
  stored : stored q = stored x
  less : accessesLeft q < accessesLeft x

/-- Everything a turn can do, as far as the calls of the threads are concerned. -/
inductive Turned (todo : ι → List (Call T)) (s : State ι T) : State ι T → Prop
  | nothing : Turned todo s s
  | start {p : ι} {c : Call T} (hp : s.queue.threads p = .idle)
      (hc : (todo p)[s.done p]? = some c) :
      Turned todo s { s with queue := s.queue.move p c.first }
  | inner {p : ι} {x q : Thread T} {queue : ThreadSafeQueue.State ι T}
      (hp : s.queue.threads p = x) (hinner : Inner x q)
      (hthreads : queue.threads = Function.update s.queue.threads p q)
      (henqueued : queue.enqueued = s.queue.enqueued)
      (hreturned : queue.returned = s.queue.returned) : Turned todo s { s with queue := queue }
  | enqueue {p : ι} {value : T} (hp : s.queue.threads p = .enqueue value) :
      Turned todo s (s.enqueue p value)
  | notify {p j : ι} (hp : s.queue.threads p = .notify) (hj : s.queue.threads j = .asleep) :
      Turned todo s ((s.awaken j).finish p)
  | notifyNobody {p : ι} (hp : s.queue.threads p = .notify) : Turned todo s (s.finish p)
  | deliver {p : ι} {val : T} (hp : s.queue.threads p = .popUnlock val) :
      Turned todo s (s.deliver p val)
  | wake {p : ι} (hp : s.queue.threads p = .asleep) (hspurious : s.spurious ≠ 0) :
      Turned todo s { s.awaken p with spurious := s.spurious - 1 }

/-- The access that begins a call. -/
theorem access_call (hp : s.queue.threads p = .idle) (c : Call T) :
    s.access p c.access = { s with queue := s.queue.move p c.first } := by
  cases c <;> simp [State.access, ThreadSafeQueue.step, Call.access, Call.first, hp, returns]

/-- An access inside a call. -/
theorem Turned.access {x q : Thread T} {a : Access ι T} {queue : ThreadSafeQueue.State ι T}
    (hp : s.queue.threads p = x) (hst : ThreadSafeQueue.step s.queue ⟨p, a⟩ = some queue)
    (hret : returns x = false) (hinner : Inner x q)
    (hthreads : queue.threads = Function.update s.queue.threads p q)
    (henqueued : queue.enqueued = s.queue.enqueued)
    (hreturned : queue.returned = s.queue.returned) : Turned todo s (s.access p a) := by
  have haccess : s.access p a = { s with queue := queue } := by
    rw [State.access, hst, hp, hret]
    simp
  rw [haccess]
  exact .inner hp hinner hthreads henqueued hreturned

theorem Turned.lock {x q : Thread T} (hp : s.queue.threads p = x) (hret : returns x = false)
    (hst : ThreadSafeQueue.step s.queue ⟨p, .lock⟩ =
      if s.queue.mutex.isNone then some { s.queue.move p q with mutex := some p } else none)
    (hinner : Inner x q) : Turned todo s (s.access p .lock) := by
  by_cases hfree : s.queue.mutex.isNone
  · rw [if_pos hfree] at hst
    exact .access hp hst hret hinner rfl rfl rfl
  · rw [if_neg hfree] at hst
    have hsame : s.access p .lock = s := by rw [State.access, hst]
    rw [hsame]
    exact .nothing

theorem turned (waker : ι → ℕ → Waker ι) (todo : ι → List (Call T)) (s : State ι T)
    (e : Slot ι) : Turned todo s (turn waker todo s e) := by
  cases e with
  | wake p =>
    rw [turn]
    split
    · exact .nothing
    · next hspurious =>
      cases hp : s.queue.threads p with
      | asleep =>
        simp only [ThreadSafeQueue.step, hp]
        exact .wake hp hspurious
      | _ =>
        simp only [ThreadSafeQueue.step, hp]
        exact .nothing
  | run p =>
    cases hp : s.queue.threads p with
    | idle =>
      simp only [turn, State.next, hp]
      cases hc : (todo p)[s.done p]? with
      | none => exact .nothing
      | some c =>
        simp only [Option.map_some, access_call hp]
        exact .start hp hc
    | pushLock value =>
      simp only [turn, State.next, hp]
      exact .lock (q := .enqueue value) hp rfl (by simp only [ThreadSafeQueue.step, hp])
        ⟨nofun, nofun, fun _ h ↦ h, rfl, by simp [accessesLeft]⟩
    | popLock =>
      simp only [turn, State.next, hp]
      exact .lock (q := .check) hp rfl (by simp only [ThreadSafeQueue.step, hp])
        ⟨nofun, nofun, fun _ h ↦ h, rfl, by simp [accessesLeft]⟩
    | wakeLock =>
      simp only [turn, State.next, hp]
      exact .lock (q := .check) hp rfl (by simp only [ThreadSafeQueue.step, hp])
        ⟨nofun, nofun, fun _ h ↦ h, rfl, by simp [accessesLeft]⟩
    | enqueue value =>
      have haccess : s.access p .enqueue = s.enqueue p value := by
        simp [State.access, ThreadSafeQueue.step, hp, returns, State.enqueue]
      simp only [turn, State.next, hp, haccess]
      exact .enqueue hp
    | pushUnlock =>
      have hst : ThreadSafeQueue.step s.queue ⟨p, .unlock⟩ =
          some { s.queue.move p .notify with mutex := none } := by
        simp only [ThreadSafeQueue.step, hp]
      simp only [turn, State.next, hp]
      exact .access (q := .notify) hp hst rfl
        ⟨nofun, nofun, fun _ h ↦ h, rfl, by simp [accessesLeft]⟩ rfl rfl rfl
    | check =>
      have hst : ThreadSafeQueue.step s.queue ⟨p, .check⟩ =
          some (s.queue.move p (if s.queue.queue.isEmpty then .sleep else .take)) := by
        simp only [ThreadSafeQueue.step, hp]
      simp only [turn, State.next, hp]
      refine .access hp hst rfl ?_ rfl rfl rfl
      split
      · exact ⟨nofun, nofun, fun _ h ↦ h, rfl, by simp [accessesLeft]⟩
      · exact ⟨nofun, nofun, fun _ h ↦ h, rfl, by simp [accessesLeft]⟩
    | sleep =>
      have hst : ThreadSafeQueue.step s.queue ⟨p, .sleep⟩ =
          some { s.queue.move p .asleep with mutex := none } := by
        simp only [ThreadSafeQueue.step, hp]
      simp only [turn, State.next, hp]
      exact .access (q := .asleep) hp hst rfl
        ⟨nofun, nofun, fun _ h ↦ h, rfl, by simp [accessesLeft]⟩ rfl rfl rfl
    | asleep =>
      simp only [turn, State.next, hp]
      exact .nothing
    | take =>
      simp only [turn, State.next, hp]
      cases hqueue : s.queue.queue with
      | nil =>
        have hsame : s.access p .take = s := by
          simp only [State.access, ThreadSafeQueue.step, hp, hqueue]
        rw [hsame]
        exact .nothing
      | cons val rest =>
        have hst : ThreadSafeQueue.step s.queue ⟨p, .take⟩ =
            some { s.queue.move p (.popUnlock val) with
              queue := rest
              taken := s.queue.taken ++ [val] } := by
          simp only [ThreadSafeQueue.step, hp, hqueue]
        exact .access (q := .popUnlock val) hp hst rfl
          ⟨nofun, nofun, fun _ h ↦ h, rfl, by simp [accessesLeft]⟩ rfl rfl rfl
    | popUnlock val =>
      have haccess : s.access p .unlock = s.deliver p val := by
        simp [State.access, ThreadSafeQueue.step, hp, returns, State.deliver, State.finish]
      simp only [turn, State.next, hp, haccess]
      exact .deliver hp
    | notify =>
      simp only [turn, State.next, hp]
      cases hpick : (waker p (s.done p)).pick fun j ↦ (s.queue.threads j).isAsleep with
      | some j =>
        have hj := (waker p (s.done p)).asleep_of_some _ j hpick
        have haccess : s.access p (.notifyOne (some j)) = (s.awaken j).finish p := by
          simp [State.access, ThreadSafeQueue.step, hp, hj, returns, State.awaken, State.finish]
        rw [haccess]
        exact .notify hp (isAsleep_iff.mp hj)
      | none =>
        have hnone : count Thread.isAsleep s.queue.threads = 0 :=
          count_eq_zero ((waker p (s.done p)).awake_of_none _ hpick)
        have haccess : s.access p (.notifyOne none) = s.finish p := by
          simp [State.access, ThreadSafeQueue.step, hp, hnone, returns, State.finish]
        rw [haccess]
        exact .notifyNobody hp

/-! ## The accounts of the calls -/

section Calls

omit [DecidableEq ι] [Fintype ι]

/-- The value that the call pushes. -/
def Call.value : Call T → Option T
  | .push value => some value
  | .waitAndPop => none

/-- The values that the calls push, in their order. -/
def pushes (calls : List (Call T)) : List T := calls.filterMap Call.value

/-- How many of the calls are calls of `wait_and_pop`. -/
def pops (calls : List (Call T)) : ℕ := calls.countP fun c ↦ c.value.isNone

variable {calls : List (Call T)} {n : ℕ} {c : Call T}

theorem pushes_take_succ (hc : calls[n]? = some c) :
    pushes (calls.take (n + 1)) = pushes (calls.take n) ++ c.value.toList := by
  rw [pushes, List.take_add_one, hc, Option.toList_some, List.filterMap_append, pushes]
  cases c <;> rfl

theorem pops_take_succ (hc : calls[n]? = some c) :
    pops (calls.take (n + 1)) = pops (calls.take n) + c.value.isNone.toNat := by
  rw [pops, List.take_add_one, hc, Option.toList_some, List.countP_append, pops]
  cases c <;> rfl

end Calls

/-- How many calls of the thread have enqueued their value or returned. -/
def State.sent (s : State ι T) (p : ι) : ℕ := s.done p + stored (s.queue.threads p)

/-- What the queue has seen agrees with the calls the threads have made. -/
structure Accounts (todo : ι → List (Call T)) (s : State ι T) : Prop where
  inside : ∀ p, s.queue.threads p ≠ .idle →
    ∃ c, (todo p)[s.done p]? = some c ∧ Inside (s.queue.threads p) c
  done_le : ∀ p, s.done p ≤ (todo p).length
  merge : Merge (fun p ↦ pushes ((todo p).take (s.sent p))) s.queue.enqueued
  returned : s.queue.returned.length = ∑ p, pops ((todo p).take (s.done p))

theorem Accounts.init (spurious : ℕ) : Accounts todo (init spurious : State ι T) where
  inside _ h := absurd rfl h
  done_le _ := Nat.zero_le _
  merge := by
    have hnil : (fun p ↦ pushes ((todo p).take ((QueueClients.init spurious : State ι T).sent p)))
        = fun _ ↦ [] := by
      funext p
      rfl
    rw [hnil]
    exact Merge.nil
  returned := (Finset.sum_eq_zero fun _ _ ↦ rfl).symm

/-- The thread `p` moves to the point `q`, having made `n` calls. -/
theorem Accounts.of_thread (h : Accounts todo s) {u : State ι T} {q : Thread T} {n : ℕ}
    (hthreads : u.queue.threads = Function.update s.queue.threads p q)
    (hdone : u.done = Function.update s.done p n)
    (hinside : q ≠ .idle → ∃ c, (todo p)[n]? = some c ∧ Inside q c) (hn : n ≤ (todo p).length)
    (hmerge : Merge (fun p ↦ pushes ((todo p).take (u.sent p))) u.queue.enqueued)
    (hreturned : u.queue.returned.length + pops ((todo p).take (s.done p)) =
      s.queue.returned.length + pops ((todo p).take n)) : Accounts todo u := by
  have hself : u.queue.threads p = q ∧ u.done p = n := by
    rw [hthreads, hdone, Function.update_self, Function.update_self]
    exact ⟨rfl, rfl⟩
  have hother : ∀ {p'}, p' ≠ p → u.queue.threads p' = s.queue.threads p' ∧
      u.done p' = s.done p' := fun hp' ↦ by
    rw [hthreads, hdone, Function.update_of_ne hp', Function.update_of_ne hp']
    exact ⟨rfl, rfl⟩
  refine ⟨fun p' hp' ↦ ?_, fun p' ↦ ?_, hmerge, ?_⟩
  · by_cases heq : p' = p
    · subst heq
      rw [hself.1, hself.2]
      exact hinside (hself.1 ▸ hp')
    · rw [(hother heq).1, (hother heq).2]
      exact h.inside p' ((hother heq).1 ▸ hp')
  · by_cases heq : p' = p
    · subst heq
      rw [hself.2]
      exact hn
    · rw [(hother heq).2]
      exact h.done_le p'
  · have hsum := Census.sum_add_eq_of_ne (i := p) (f := fun p' ↦ pops ((todo p').take (s.done p')))
      (g := fun p' ↦ pops ((todo p').take (u.done p'))) fun p' hp' ↦ by rw [(hother hp').2]
    rw [hself.2, ← h.returned] at hsum
    omega

/-- A move after which the threads have sent as many values as before. -/
theorem Accounts.merge_of_sent (h : Accounts todo s) {u : State ι T}
    (hsent : ∀ p, pushes ((todo p).take (u.sent p)) = pushes ((todo p).take (s.sent p)))
    (henqueued : u.queue.enqueued = s.queue.enqueued) :
    Merge (fun p ↦ pushes ((todo p).take (u.sent p))) u.queue.enqueued := by
  rw [funext hsent, henqueued]
  exact h.merge

omit [Fintype ι] in
theorem sent_of_ne {u : State ι T} {q : Thread T} {n : ℕ} {p' : ι}
    (hthreads : u.queue.threads = Function.update s.queue.threads p q)
    (hdone : u.done = Function.update s.done p n) (hp' : p' ≠ p) : u.sent p' = s.sent p' := by
  rw [State.sent, State.sent, hthreads, hdone, Function.update_of_ne hp',
    Function.update_of_ne hp']

omit [Fintype ι] in
theorem sent_self {u : State ι T} {q : Thread T} {n : ℕ}
    (hthreads : u.queue.threads = Function.update s.queue.threads p q)
    (hdone : u.done = Function.update s.done p n) : u.sent p = n + stored q := by
  rw [State.sent, hthreads, hdone, Function.update_self, Function.update_self]

/-- A move inside a call, which sends nothing and returns nothing. -/
theorem Accounts.of_inner (h : Accounts todo s) {u : State ι T} {q : Thread T}
    (hthreads : u.queue.threads = Function.update s.queue.threads p q) (hdone : u.done = s.done)
    (hinside : q ≠ .idle → ∃ c, (todo p)[s.done p]? = some c ∧ Inside q c)
    (hstored : stored q = stored (s.queue.threads p))
    (henqueued : u.queue.enqueued = s.queue.enqueued)
    (hreturned : u.queue.returned = s.queue.returned) : Accounts todo u := by
  have hdone' : u.done = Function.update s.done p (s.done p) := by
    rw [hdone, Function.update_eq_self]
  refine h.of_thread hthreads hdone' hinside (h.done_le p) (h.merge_of_sent (fun p' ↦ ?_) henqueued)
    (by rw [hreturned])
  by_cases heq : p' = p
  · subst heq
    rw [sent_self hthreads hdone', hstored, State.sent]
  · rw [sent_of_ne hthreads hdone' heq]

theorem Accounts.enqueue (h : Accounts todo s) {value : T}
    (hp : s.queue.threads p = .enqueue value) : Accounts todo (s.enqueue p value) := by
  obtain ⟨c, hc, hin⟩ := h.inside p (by rw [hp]; exact nofun)
  rw [hp] at hin
  obtain rfl : c = .push value := hin
  have hthreads : (s.enqueue p value).queue.threads =
      Function.update s.queue.threads p .pushUnlock := rfl
  have hdone : (s.enqueue p value).done = Function.update s.done p (s.done p) :=
    (Function.update_eq_self p _).symm
  refine h.of_thread hthreads hdone (fun _ ↦ ⟨_, hc, nofun⟩) (h.done_le p)
    (h.merge.push (p := p) ?_ fun p' hp' ↦ ?_) rfl
  · have hbefore : s.sent p = s.done p := by rw [State.sent, hp]; rfl
    rw [sent_self hthreads hdone, hbefore]
    exact pushes_take_succ hc
  · rw [sent_of_ne hthreads hdone hp']

/-- A `push` returns; it has sent its value before. -/
theorem Accounts.finish (h : Accounts todo s) (hp : s.queue.threads p = .notify) :
    Accounts todo (s.finish p) := by
  obtain ⟨c, hc, hin⟩ := h.inside p (by rw [hp]; exact nofun)
  rw [hp] at hin
  have hvalue : c.value.isNone = false := by
    cases c with
    | push value => rfl
    | waitAndPop => exact absurd rfl hin
  have hlt : s.done p < (todo p).length := (List.getElem?_eq_some_iff.mp hc).1
  have hthreads : (s.finish p).queue.threads = Function.update s.queue.threads p .idle := rfl
  refine h.of_thread hthreads rfl (fun hne ↦ absurd rfl hne) hlt
    (h.merge_of_sent (fun p' ↦ ?_) rfl) ?_
  · by_cases heq : p' = p
    · subst heq
      rw [sent_self hthreads rfl, State.sent, hp]
      rfl
    · rw [sent_of_ne hthreads rfl heq]
  · rw [pops_take_succ hc, hvalue]
    rfl

/-- A `wait_and_pop` returns with its value. -/
theorem Accounts.deliver (h : Accounts todo s) {val : T}
    (hp : s.queue.threads p = .popUnlock val) : Accounts todo (s.deliver p val) := by
  obtain ⟨c, hc, hin⟩ := h.inside p (by rw [hp]; exact nofun)
  rw [hp] at hin
  obtain rfl : c = .waitAndPop := hin
  have hlt : s.done p < (todo p).length := (List.getElem?_eq_some_iff.mp hc).1
  have hthreads : (s.deliver p val).queue.threads = Function.update s.queue.threads p .idle := rfl
  have hdone : (s.deliver p val).done = Function.update s.done p (s.done p + 1) := rfl
  refine h.of_thread hthreads hdone (fun hne ↦ absurd rfl hne) hlt
    (h.merge_of_sent (fun p' ↦ ?_) rfl) ?_
  · by_cases heq : p' = p
    · subst heq
      have hbefore : s.sent p' = s.done p' := by rw [State.sent, hp]; rfl
      rw [sent_self hthreads hdone, hbefore]
      exact (pushes_take_succ hc).trans (List.append_nil _)
    · rw [sent_of_ne hthreads hdone heq]
  · show (s.queue.returned ++ [val]).length + _ = _
    rw [pops_take_succ hc, List.length_append, List.length_singleton]
    show _ = s.queue.returned.length + (_ + 1)
    omega

/-- A sleeper wakes up inside its call. -/
theorem Accounts.awaken (h : Accounts todo s) {j : ι} (hj : s.queue.threads j = .asleep)
    (spurious : ℕ) : Accounts todo { s.awaken j with spurious := spurious } := by
  refine h.of_inner (p := j) rfl rfl (fun _ ↦ ?_) (by rw [hj]; rfl) rfl rfl
  obtain ⟨c, hc, hin⟩ := h.inside j (by rw [hj]; exact nofun)
  rw [hj] at hin
  exact ⟨c, hc, hin⟩

theorem Accounts.turned (h : Accounts todo s) {u : State ι T} (ht : Turned todo s u) :
    Accounts todo u := by
  cases ht with
  | nothing => exact h
  | @start p c hp hc =>
    refine h.of_inner (p := p) rfl rfl (fun _ ↦ ⟨c, hc, ?_⟩) ?_ rfl rfl
    · cases c <;> rfl
    · rw [hp]
      cases c <;> rfl
  | @inner p x q queue hp hinner hthreads henqueued hreturned =>
    refine h.of_inner (p := p) hthreads rfl (fun _ ↦ ?_) (by rw [hp, hinner.stored]) henqueued
      hreturned
    obtain ⟨c, hc, hin⟩ := h.inside p (by rw [hp]; exact hinner.ne_idle)
    exact ⟨c, hc, hinner.inside c (hp ▸ hin)⟩
  | enqueue hp => exact h.enqueue hp
  | @notify p j hp hj =>
    have hne : p ≠ j := by
      rintro rfl
      cases hp.symm.trans hj
    have hp' : (s.awaken j).queue.threads p = .notify := (Function.update_of_ne hne ..).trans hp
    exact (h.awaken hj s.spurious).finish hp'
  | notifyNobody hp => exact h.finish hp
  | deliver hp => exact h.deliver hp
  | wake hp hspurious => exact h.awaken hp _

/-! ## The holder of the mutex -/

/-- The mutex is held by a thread that is between taking and releasing it. -/
def Held (q : ThreadSafeQueue.State ι T) : Prop :=
  ∀ p, q.mutex = some p → (q.threads p).holds = true

omit [Fintype ι] in
theorem Held.of_thread {q r : ThreadSafeQueue.State ι T} (h : Held q) {x : Thread T}
    (hthreads : r.threads = Function.update q.threads p x)
    (hmutex : r.mutex = q.mutex) (hx : (q.threads p).holds = true → x.holds = true) : Held r := by
  intro p' hp'
  have hbefore := h p' (hmutex ▸ hp')
  rw [hthreads]
  by_cases heq : p' = p
  · subst heq
    rw [Function.update_self]
    exact hx hbefore
  · rw [Function.update_of_ne heq]
    exact hbefore

theorem Held.move {q r : ThreadSafeQueue.State ι T} (h : Held q) (hm : Move q p r) : Held r := by
  cases hm with
  | push value hp | waitAndPop hp | notifyNobody hp | wake hp =>
    exact h.of_thread (p := p) rfl rfl (by rw [hp]; exact nofun)
  | enqueue hp => exact h.of_thread (p := p) (x := .pushUnlock) rfl rfl fun _ ↦ rfl
  | checkEmpty hp hempty => exact h.of_thread (p := p) (x := .sleep) rfl rfl fun _ ↦ rfl
  | checkNonempty hp hne => exact h.of_thread (p := p) (x := .take) rfl rfl fun _ ↦ rfl
  | @take val rest hp hqueue =>
    exact h.of_thread (p := p) (x := .popUnlock val) rfl rfl fun _ ↦ rfl
  | pushLock hp hfree | popLock hp hfree =>
    intro p' hp'
    obtain rfl : p = p' := Option.some.inj hp'
    exact congrArg Thread.holds (Function.update_self p _ q.threads)
  | pushUnlock hp | popUnlock hp | sleep hp => exact fun _ ↦ nofun
  | @notifyOne j hp hj =>
    have hne : p ≠ j := by
      rintro rfl
      cases hp.symm.trans hj
    have hwake : Held (q.move j .wakeLock) :=
      h.of_thread (p := j) rfl rfl (by rw [hj]; exact nofun)
    refine hwake.of_thread (p := p) rfl rfl ?_
    rw [show (q.move j .wakeLock).threads p = .notify from (Function.update_of_ne hne ..).trans hp]
    exact nofun

theorem held_of_reachable {q : ThreadSafeQueue.State ι T}
    (h : Runs.Reachable ThreadSafeQueue.step ThreadSafeQueue.init q) : Held q :=
  h.invariant (fun _ _ _ hheld hst ↦ hheld.move (move_of_step hst)) fun _ hp ↦ by cases hp

/-! ## Every run -/

/-- The queue goes through a run of its own, and the accounts are kept. -/
structure Inv (todo : ι → List (Call T)) (s : State ι T) : Prop where
  reachable : Runs.Reachable ThreadSafeQueue.step ThreadSafeQueue.init s.queue
  accounts : Accounts todo s

theorem queue_turn (waker : ι → ℕ → Waker ι) (todo : ι → List (Call T)) (s : State ι T)
    (e : Slot ι) : (turn waker todo s e).queue = s.queue ∨
      ∃ a, ThreadSafeQueue.step s.queue a = some (turn waker todo s e).queue := by
  cases e with
  | run p =>
    rw [turn]
    split
    · exact Or.inl rfl
    · next a ha =>
      rw [State.access]
      split
      · exact Or.inl rfl
      · next queue hst => exact Or.inr ⟨_, hst⟩
  | wake p =>
    rw [turn]
    split
    · exact Or.inl rfl
    · split
      · exact Or.inl rfl
      · next queue hst => exact Or.inr ⟨_, hst⟩

theorem Inv.init (todo : ι → List (Call T)) (spurious : ℕ) :
    Inv todo (init spurious : State ι T) :=
  ⟨.refl _, .init spurious⟩

theorem Inv.turn (h : Inv todo s) (waker : ι → ℕ → Waker ι) (e : Slot ι) :
    Inv todo (turn waker todo s e) := by
  refine ⟨?_, h.accounts.turned (turned waker todo s e)⟩
  rcases queue_turn waker todo s e with heq | ⟨a, hst⟩
  · exact heq ▸ h.reachable
  · exact h.reachable.tail hst

theorem Inv.play (waker : ι → ℕ → Waker ι) (todo : ι → List (Call T)) (spurious : ℕ)
    (schedule : List (Slot ι)) :
    Inv todo (play (QueueClients.turn waker todo) (QueueClients.init spurious) schedule) :=
  play_invariant (fun _ e h ↦ h.turn waker e) (.init todo spurious) schedule

/-- **What the clients get.** In every interleaving the values enqueued are those of the calls of
`push` made so far, each of them once and those of one thread in their order; the calls of
`wait_and_pop` that have returned have got the first of them, one each and in this order. -/
theorem calls_exact (waker : ι → ℕ → Waker ι) (todo : ι → List (Call T)) (spurious : ℕ)
    (schedule : List (Slot ι)) :
    let s := play (turn waker todo) (init spurious) schedule
    (∃ sent : ι → ℕ, (∀ p, s.done p ≤ sent p ∧ sent p ≤ s.done p + 1) ∧
      (∀ p, s.queue.threads p = .idle → sent p = s.done p) ∧
      Merge (fun p ↦ pushes ((todo p).take (sent p))) s.queue.enqueued) ∧
    s.queue.returned <+: s.queue.enqueued ∧
    s.queue.returned.length = ∑ p, pops ((todo p).take (s.done p)) := by
  intro s
  have h : Inv todo s := Inv.play waker todo spurious schedule
  have hordered := (invariants_of_reachable h.reachable).1
  refine ⟨⟨s.sent, fun p ↦ ⟨Nat.le_add_right _ _, ?_⟩, fun p hp ↦ ?_, h.accounts.merge⟩, ?_,
    h.accounts.returned⟩
  · exact Nat.add_le_add_left (Bool.toNat_le _) _
  · rw [State.sent, hp]
    rfl
  · rw [← hordered.fifo, hordered.returned_eq, List.append_assoc]
    exact List.prefix_append _ _

/-! ## The work left -/

section Work

omit [DecidableEq ι] [Fintype ι] in
/-- What a call takes at most: its accesses, and for a `push` those of the thread that it wakes
until that sleeps again. -/
def Call.cost : Call T → ℕ
  | .push _ => 8
  | .waitAndPop => 6

def cost (calls : List (Call T)) : ℕ := (calls.map Call.cost).sum

/-- The thread has begun the call that comes next. -/
def begun : Thread T → ℕ
  | .idle => 0
  | _ => 1

/-- The accesses left to a thread that has returned from `n` calls. -/
def share (calls : List (Call T)) (n : ℕ) (q : Thread T) : ℕ :=
  accessesLeft q + cost (calls.drop (n + begun q))

/-- The accesses left to all threads, those of the sleepers that wake up by themselves included. -/
def budget (todo : ι → List (Call T)) (s : State ι T) : ℕ :=
  ∑ p, share (todo p) (s.done p) (s.queue.threads p) + 4 * s.spurious

theorem cost_drop {calls : List (Call T)} {n : ℕ} {c : Call T} (hc : calls[n]? = some c) :
    cost (calls.drop n) = c.cost + cost (calls.drop (n + 1)) := by
  obtain ⟨hn, hget⟩ := List.getElem?_eq_some_iff.mp hc
  rw [List.drop_eq_getElem_cons hn, cost, List.map_cons, List.sum_cons, hget, cost]

theorem begun_of_ne {q : Thread T} (hq : q ≠ .idle) : begun q = 1 := by
  cases q <;> first | rfl | exact absurd rfl hq

/-- The thread `p` moves, and nobody else. -/
theorem budget_add (todo : ι → List (Call T)) {u : State ι T} {q : Thread T} {n : ℕ}
    (hthreads : u.queue.threads = Function.update s.queue.threads p q)
    (hdone : u.done = Function.update s.done p n) :
    budget todo u + share (todo p) (s.done p) (s.queue.threads p) + 4 * s.spurious =
      budget todo s + share (todo p) n q + 4 * u.spurious := by
  have hsum := Census.sum_add_eq_of_ne (i := p)
    (f := fun p' ↦ share (todo p') (s.done p') (s.queue.threads p'))
    (g := fun p' ↦ share (todo p') (u.done p') (u.queue.threads p')) fun p' hp' ↦ by
      rw [hthreads, hdone, Function.update_of_ne hp', Function.update_of_ne hp']
  rw [hthreads, hdone, Function.update_self, Function.update_self, ← hthreads, ← hdone] at hsum
  rw [budget, budget]
  omega

omit [DecidableEq ι] in
theorem budget_spurious (todo : ι → List (Call T)) (s : State ι T) (k : ℕ) :
    budget todo { s with spurious := k } + 4 * s.spurious = budget todo s + 4 * k :=
  Nat.add_right_comm _ _ _

/-- The thread `p` moves within a call or begins one. -/
theorem budget_inner (todo : ι → List (Call T)) {u : State ι T} {q : Thread T}
    (hthreads : u.queue.threads = Function.update s.queue.threads p q) (hdone : u.done = s.done)
    (hspurious : u.spurious = s.spurious) :
    budget todo u + share (todo p) (s.done p) (s.queue.threads p) =
      budget todo s + share (todo p) (s.done p) q := by
  have h := budget_add todo (n := s.done p) hthreads
    (hdone.trans (Function.update_eq_self p _).symm)
  omega

/-- The thread `p` returns from its call. -/
theorem budget_return (todo : ι → List (Call T)) {u : State ι T}
    (hp : s.queue.threads p ≠ .idle)
    (hthreads : u.queue.threads = Function.update s.queue.threads p .idle)
    (hdone : u.done = Function.update s.done p (s.done p + 1))
    (hspurious : u.spurious = s.spurious) :
    budget todo u + accessesLeft (s.queue.threads p) = budget todo s := by
  have h := budget_add todo hthreads hdone
  have hidle : share (todo p) (s.done p + 1) .idle = cost ((todo p).drop (s.done p + 1)) :=
    Nat.zero_add _
  rw [hidle, share, begun_of_ne hp] at h
  omega

theorem budget_awaken (todo : ι → List (Call T)) {j : ι} (hj : s.queue.threads j = .asleep) :
    budget todo (s.awaken j) = budget todo s + 3 := by
  have h := budget_inner todo (s := s) (u := s.awaken j) (p := j) rfl rfl rfl
  simp only [hj, share, begun, accessesLeft] at h
  omega

/-- A turn changes nothing, or it does some of the work. -/
theorem Turned.eq_or_budget_lt {u : State ι T} (ht : Turned todo s u) :
    u = s ∨ budget todo u < budget todo s := by
  cases ht with
  | nothing => exact Or.inl rfl
  | @start p c hp hc =>
    have h := budget_inner todo (s := s)
      (u := { s with queue := s.queue.move p c.first }) (p := p) rfl rfl rfl
    rw [hp, share, begun, Nat.add_zero, cost_drop hc] at h
    have hless : share (todo p) (s.done p) c.first <
        accessesLeft (.idle : Thread T) + (c.cost + cost ((todo p).drop (s.done p + 1))) := by
      cases c <;> simp only [share, Call.first, Call.cost, begun, accessesLeft] <;> omega
    right
    omega
  | @inner p x q queue hp hinner hthreads henqueued hreturned =>
    have h := budget_inner todo (s := s) (u := { s with queue := queue }) (p := p)
      hthreads rfl rfl
    rw [hp, share, share, begun_of_ne hinner.ne_idle, begun_of_ne hinner.stays] at h
    have hless := hinner.less
    right
    omega
  | @enqueue p value hp =>
    have h := budget_inner todo (s := s) (u := s.enqueue p value) (p := p) rfl rfl rfl
    simp only [hp, share, begun, accessesLeft] at h
    right
    omega
  | @notify p j hp hj =>
    have hne : p ≠ j := by
      rintro rfl
      cases hp.symm.trans hj
    have hp' : (s.awaken j).queue.threads p = .notify := (Function.update_of_ne hne ..).trans hp
    -- what the notifier has put aside pays for the thread it wakes
    have hfinish := budget_return todo (u := (s.awaken j).finish p)
      (by rw [hp']; exact nofun) rfl rfl rfl
    rw [hp', accessesLeft] at hfinish
    have hawaken := budget_awaken todo hj
    right
    omega
  | notifyNobody hp =>
    have hfinish := budget_return todo (u := s.finish _) (by rw [hp]; exact nofun) rfl rfl
      rfl
    rw [hp, accessesLeft] at hfinish
    right
    omega
  | @deliver p val hp =>
    have hfinish := budget_return todo (u := s.deliver p val) (by rw [hp]; exact nofun)
      rfl rfl rfl
    rw [hp, accessesLeft] at hfinish
    right
    omega
  | @wake p hp hspurious =>
    have hawaken := budget_awaken todo hp
    have hpaid := budget_spurious todo (s.awaken p) (s.spurious - 1)
    have hsame : (s.awaken p).spurious = s.spurious := rfl
    right
    show budget todo ⟨(s.awaken p).queue, (s.awaken p).done, s.spurious - 1⟩ < budget todo s
    omega

end Work

/-! ## Calls that cannot starve -/

/-- Wherever the threads stand, each at its end or before a `wait_and_pop` and not all at the end,
more values have been pushed than popped. -/
def Supplied (todo : ι → List (Call T)) : Prop :=
  ∀ n : ι → ℕ, (∀ p, n p = (todo p).length ∨ (todo p)[n p]? = some .waitAndPop) →
    (∃ p, n p ≠ (todo p).length) →
      ∑ p, pops ((todo p).take (n p)) < ∑ p, (pushes ((todo p).take (n p))).length

omit [DecidableEq ι] in
/-- Threads that push before they pop are supplied if together they push enough. -/
theorem supplied_of_pushes_first (values : ι → List T) (k : ι → ℕ)
    (htodo : ∀ p, todo p = (values p).map .push ++ List.replicate (k p) .waitAndPop)
    (hle : ∑ p, k p ≤ ∑ p, (values p).length) : Supplied todo := by
  intro n hn hex
  have hpushes : ∀ (vs : List T) (j : ℕ),
      pushes (vs.map Call.push ++ List.replicate j Call.waitAndPop) = vs := fun vs j ↦ by
    induction vs with
    | nil => exact List.filterMap_eq_nil_iff.mpr fun c hc ↦ (List.eq_of_mem_replicate hc) ▸ rfl
    | cons v vs ih => exact congrArg (v :: ·) ih
  have hpops : ∀ (vs : List T) (j : ℕ),
      pops (vs.map Call.push ++ List.replicate j Call.waitAndPop) = j := fun vs j ↦ by
    induction vs with
    | nil => exact (List.countP_replicate ..).trans (if_pos rfl)
    | cons v vs ih => exact ih
  have htake : ∀ p, ∃ j, j ≤ k p ∧ (n p ≠ (todo p).length → j < k p) ∧
      (todo p).take (n p) = (values p).map Call.push ++ List.replicate j Call.waitAndPop := by
    intro p
    rw [htodo p, List.length_append, List.length_map, List.length_replicate]
    have hstands := hn p
    rw [htodo p, List.length_append, List.length_map, List.length_replicate] at hstands
    rcases hstands with hend | hpop
    · refine ⟨k p, le_rfl, fun hne ↦ absurd hend hne, List.take_of_length_le ?_⟩
      rw [List.length_append, List.length_map, List.length_replicate, hend]
    · -- a thread that stands before a pop has made all its pushes
      have hpast : (values p).length ≤ n p := by
        by_contra hlt
        rw [List.getElem?_append_left (by rw [List.length_map]; omega), List.getElem?_map] at hpop
        obtain ⟨v, -, hv⟩ := Option.map_eq_some_iff.mp hpop
        cases hv
      have hbound := (List.getElem?_eq_some_iff.mp hpop).1
      rw [List.length_append, List.length_map, List.length_replicate] at hbound
      refine ⟨n p - (values p).length, by omega, fun _ ↦ by omega, ?_⟩
      rw [List.take_append, List.take_of_length_le (by rw [List.length_map]; exact hpast),
        List.length_map, List.take_replicate, min_eq_left (by omega)]
  choose j hj hlt heq using htake
  obtain ⟨p, hp⟩ := hex
  calc ∑ p, pops ((todo p).take (n p)) = ∑ p, j p :=
        Finset.sum_congr rfl fun p _ ↦ by rw [heq, hpops]
    _ < ∑ p, k p := Finset.sum_lt_sum (fun p _ ↦ hj p) ⟨p, Finset.mem_univ p, hlt p hp⟩
    _ ≤ ∑ p, (values p).length := hle
    _ = ∑ p, (pushes ((todo p).take (n p))).length :=
        Finset.sum_congr rfl fun p _ ↦ by rw [heq, hpushes]

/-! ## Somebody can go on -/

theorem turn_ne {a : Access ι T} {queue : ThreadSafeQueue.State ι T}
    (hnext : s.next waker todo p = some a)
    (hst : ThreadSafeQueue.step s.queue ⟨p, a⟩ = some queue)
    (hne : queue.threads p ≠ s.queue.threads p) : turn waker todo s (.run p) ≠ s := by
  intro heq
  simp only [turn, hnext, State.access, hst] at heq
  exact hne (congrArg (fun u : State ι T ↦ u.queue.threads p) heq)

/-- The holder of the mutex can go on. -/
theorem turn_ne_of_holds (hg : Guarded s.queue) (hp : (s.queue.threads p).holds = true) :
    turn waker todo s (.run p) ≠ s := by
  cases hthread : s.queue.threads p with
  | enqueue value =>
    refine turn_ne (by rw [State.next, hthread]) (by simp only [ThreadSafeQueue.step, hthread]; rfl)
      ?_
    simp [ThreadSafeQueue.State.move, hthread]
  | pushUnlock =>
    refine turn_ne (by rw [State.next, hthread]) (by simp only [ThreadSafeQueue.step, hthread]; rfl)
      ?_
    simp [ThreadSafeQueue.State.move, hthread]
  | check =>
    refine turn_ne (by rw [State.next, hthread]) (by simp only [ThreadSafeQueue.step, hthread]; rfl)
      ?_
    simp only [ThreadSafeQueue.State.move, hthread, Function.update_self]
    split <;> simp
  | sleep =>
    refine turn_ne (by rw [State.next, hthread]) (by simp only [ThreadSafeQueue.step, hthread]; rfl)
      ?_
    simp [ThreadSafeQueue.State.move, hthread]
  | take =>
    cases hqueue : s.queue.queue with
    | nil => exact absurd hqueue (hg.take p hthread)
    | cons val rest =>
      refine turn_ne (by rw [State.next, hthread])
        (by simp only [ThreadSafeQueue.step, hthread, hqueue]; rfl) ?_
      simp [ThreadSafeQueue.State.move, hthread]
  | popUnlock val =>
    refine turn_ne (by rw [State.next, hthread]) (by simp only [ThreadSafeQueue.step, hthread]; rfl)
      ?_
    simp [ThreadSafeQueue.State.move, hthread]
  | _ =>
    rw [hthread] at hp
    cases hp

/-- With the mutex free, so can every thread inside a call that does not sleep. -/
theorem turn_ne_of_free (hg : Guarded s.queue) (hfree : s.queue.mutex = none)
    (hidle : s.queue.threads p ≠ .idle) (hasleep : s.queue.threads p ≠ .asleep) :
    turn waker todo s (.run p) ≠ s := by
  have hisNone : s.queue.mutex.isNone = true := by rw [hfree]; rfl
  cases hthread : s.queue.threads p with
  | idle => exact absurd hthread hidle
  | asleep => exact absurd hthread hasleep
  | pushLock value =>
    refine turn_ne (by rw [State.next, hthread])
      (by simp only [ThreadSafeQueue.step, hthread, if_pos hisNone]; rfl) ?_
    simp [ThreadSafeQueue.State.move, hthread]
  | popLock =>
    refine turn_ne (by rw [State.next, hthread])
      (by simp only [ThreadSafeQueue.step, hthread, if_pos hisNone]; rfl) ?_
    simp [ThreadSafeQueue.State.move, hthread]
  | wakeLock =>
    refine turn_ne (by rw [State.next, hthread])
      (by simp only [ThreadSafeQueue.step, hthread, if_pos hisNone]; rfl) ?_
    simp [ThreadSafeQueue.State.move, hthread]
  | notify =>
    have hnext : s.next waker todo p = some (.notifyOne
        ((waker p (s.done p)).pick fun j ↦ (s.queue.threads j).isAsleep)) := by
      rw [State.next, hthread]
    cases hpick : (waker p (s.done p)).pick fun j ↦ (s.queue.threads j).isAsleep with
    | some j =>
      rw [hpick] at hnext
      have hj := (waker p (s.done p)).asleep_of_some _ j hpick
      refine turn_ne hnext (by simp only [ThreadSafeQueue.step, hthread, if_pos hj]; rfl) ?_
      simp [ThreadSafeQueue.State.move, hthread]
    | none =>
      rw [hpick] at hnext
      have hnone : count Thread.isAsleep s.queue.threads = 0 :=
        count_eq_zero ((waker p (s.done p)).awake_of_none _ hpick)
      refine turn_ne hnext (by simp only [ThreadSafeQueue.step, hthread, if_pos hnone]; rfl) ?_
      simp [ThreadSafeQueue.State.move, hthread]
  | _ => exact turn_ne_of_holds hg (by rw [hthread]; rfl)

theorem turn_ne_of_call {c : Call T} (hidle : s.queue.threads p = .idle)
    (hc : (todo p)[s.done p]? = some c) : turn waker todo s (.run p) ≠ s := by
  have hnext : s.next waker todo p = some c.access := by rw [State.next, hidle, hc]; rfl
  intro heq
  simp only [turn, hnext, access_call hidle] at heq
  have hthread := congrArg (fun u : State ι T ↦ u.queue.threads p) heq
  simp only [ThreadSafeQueue.State.move, Function.update_self, hidle] at hthread
  cases c <;> cases hthread

/-- **Nobody is left asleep.** As long as a call has not returned, some thread can go on: if all
were asleep or through, the values would be used up, which supplied calls rule out. -/
theorem Inv.exists_turn_ne (h : Inv todo s) (hsupplied : Supplied todo) (hf : ¬Finished todo s) :
    ∃ e, QueueClients.turn waker todo s e ≠ s := by
  obtain ⟨hordered, hguarded, hcovered⟩ := invariants_of_reachable h.reachable
  by_contra hstuck
  have hnever : ∀ p, QueueClients.turn waker todo s (.run p) = s := fun p ↦
    not_not.mp fun hne ↦ hstuck ⟨_, hne⟩
  have hfree : s.queue.mutex = none := by
    cases hmutex : s.queue.mutex with
    | none => rfl
    | some p =>
      exact absurd (hnever p) (turn_ne_of_holds hguarded (held_of_reachable h.reachable p hmutex))
  have hstands : ∀ p, s.queue.threads p = .idle ∨ s.queue.threads p = .asleep := fun p ↦
    or_iff_not_imp_left.mpr fun hidle ↦ not_not.mp fun hasleep ↦
      turn_ne_of_free hguarded hfree hidle hasleep (hnever p)
  -- where each thread stands, it is at its end or before a pop
  have hplace : ∀ p, s.done p = (todo p).length ∨ (todo p)[s.done p]? = some .waitAndPop := by
    intro p
    rcases hstands p with hidle | hasleep
    · left
      refine (h.accounts.done_le p).antisymm (not_lt.mp fun hlt ↦ ?_)
      exact turn_ne_of_call hidle (List.getElem?_eq_getElem hlt) (hnever p)
    · obtain ⟨c, hc, hin⟩ := h.accounts.inside p (by rw [hasleep]; exact nofun)
      rw [hasleep] at hin
      exact Or.inr (hc.trans (congrArg some hin))
  have hsleeper : ∃ p, s.queue.threads p = .asleep := by
    by_contra hnone
    refine hf fun p ↦ ?_
    have hidle : s.queue.threads p = .idle :=
      (hstands p).resolve_right fun hasleep ↦ hnone ⟨p, hasleep⟩
    refine ⟨hidle, (hplace p).resolve_right fun hc ↦ ?_⟩
    exact turn_ne_of_call hidle hc (hnever p)
  obtain ⟨p, hp⟩ := hsleeper
  have hempty : s.queue.queue = [] := by
    have hlength := hcovered (count_pos (isAsleep_iff.mpr hp))
    rw [count_eq_zero fun p' ↦ ?_, count_eq_zero fun p' ↦ ?_] at hlength
    · exact List.eq_nil_of_length_eq_zero (Nat.le_zero.mp hlength)
    all_goals rcases hstands p' with heq | heq <;> rw [heq] <;> rfl
  have hsent : ∀ p, s.sent p = s.done p := by
    intro p'
    rcases hstands p' with heq | heq <;> rw [State.sent, heq] <;> rfl
  have hnotEnd : s.done p ≠ (todo p).length := by
    obtain ⟨c, hc, -⟩ := h.accounts.inside p (by rw [hp]; exact nofun)
    exact (List.getElem?_eq_some_iff.mp hc).1.ne
  have hvalues : s.queue.enqueued = s.queue.returned := by
    rw [← hordered.fifo, hordered.returned_eq, hempty, carried_of_free hfree, List.append_nil,
      List.append_nil]
  have hused : ∑ p, (pushes ((todo p).take (s.done p))).length
      = ∑ p, pops ((todo p).take (s.done p)) := by
    rw [← h.accounts.returned, ← hvalues, h.accounts.merge.length_eq_sum]
    exact Finset.sum_congr rfl fun p' _ ↦ by rw [hsent]
  exact absurd hused (hsupplied s.done hplace ⟨p, hnotEnd⟩).ne'

/-! ## Every call returns -/

section Liveness

variable (waker : ι → ℕ → Waker ι) (todo : ι → List (Call T))

open Classical in
/-- The work left: nothing when all calls have returned, whatever wake-ups were still to come. -/
noncomputable def work (s : State ι T) : ℕ := if Finished todo s then 0 else budget todo s

/-- The turn changes something. -/
def Helpful (s : State ι T) (e : Slot ι) : Prop := turn waker todo s e ≠ s

variable {waker todo}

theorem Finished.turn_eq (hf : Finished todo s) (e : Slot ι) : turn waker todo s e = s := by
  cases e with
  | run p =>
    have hnext : s.next waker todo p = none := by
      rw [State.next, (hf p).1, List.getElem?_eq_none (hf p).2.ge]
      rfl
    rw [turn, hnext]
  | wake p =>
    rw [turn]
    split
    · rfl
    · simp only [ThreadSafeQueue.step, (hf p).1]

theorem turn_eq_or_work_lt (s : State ι T) (e : Slot ι) :
    turn waker todo s e = s ∨ work todo (turn waker todo s e) < work todo s := by
  by_cases hf : Finished todo s
  · exact Or.inl (hf.turn_eq e)
  · refine (turned waker todo s e).eq_or_budget_lt.imp_right fun hlt ↦ ?_
    rw [work, work, if_neg hf]
    split
    · exact Nat.zero_lt_of_lt hlt
    · exact hlt

theorem progress (hsupplied : Supplied todo) :
    Progress (turn waker todo) (Inv todo) (work todo) (Helpful waker todo) fun _ _ ↦ 0 where
  inv _ e h := h.turn waker e
  mono s e _ := (turn_eq_or_work_lt s e).elim (fun heq ↦ by rw [heq]) le_of_lt
  exists_helpful s h hwork := h.exists_turn_ne hsupplied fun hf ↦ hwork (if_pos hf)
  stays s e e' _ he heq := by
    -- the turn that does no work changes nothing
    rwa [(turn_eq_or_work_lt s e').resolve_right heq.not_lt]
  closer s e _ he heq := absurd heq ((turn_eq_or_work_lt s e).resolve_left he).ne
  keeps _ _ _ _ _ _ _ := le_rfl

theorem finished_of_work (h : Inv todo s) (hwork : work todo s = 0) : Finished todo s := by
  by_contra hf
  rw [work, if_neg hf, budget, Nat.add_eq_zero_iff, Finset.sum_eq_zero_iff] at hwork
  refine hf fun p ↦ ?_
  have hshare := hwork.1 p (Finset.mem_univ p)
  rw [share, Nat.add_eq_zero_iff] at hshare
  have hidle : s.queue.threads p = .idle := by
    cases hthread : s.queue.threads p <;> rw [hthread] at hshare <;>
      first | rfl | exact absurd hshare.1 (by simp [accessesLeft])
  refine ⟨hidle, (h.accounts.done_le p).antisymm (not_lt.mp fun hlt ↦ ?_)⟩
  have hcost := hshare.2
  rw [hidle, begun, Nat.add_zero, cost_drop (List.getElem?_eq_getElem hlt)] at hcost
  cases hcall : (todo p)[s.done p] <;> rw [hcall, Call.cost] at hcost <;> omega

end Liveness

/-- **Every call returns.** Whatever each `notify_one` wakes and however often sleepers wake up by
themselves, as long as that is finitely often: under every fair schedule all calls of supplied
clients return. The queue then has got all the values that they push, each of them once and those
of one thread in their order, and has given out the first of them, one to each `wait_and_pop`. -/
theorem calls_end (waker : ι → ℕ → Waker ι) {todo : ι → List (Call T)}
    (hsupplied : Supplied todo) (spurious : ℕ) {schedule : ℕ → Slot ι} (hfair : Fair schedule) :
    ∃ m, ∀ k, m ≤ k →
      let s := play (turn waker todo) (init spurious) (firstTurns schedule k)
      Finished todo s ∧ Merge (fun p ↦ pushes (todo p)) s.queue.enqueued ∧
        s.queue.returned <+: s.queue.enqueued ∧ s.queue.returned.length = ∑ p, pops (todo p) := by
  obtain ⟨m, hm⟩ := (progress hsupplied).fair (.init todo spurious) hfair
  refine ⟨m, fun k hk ↦ ?_⟩
  intro s
  have h : Inv todo s := Inv.play waker todo spurious _
  have hf : Finished todo s := finished_of_work h (hm k hk)
  have hordered := (invariants_of_reachable h.reachable).1
  refine ⟨hf, ?_, ?_, ?_⟩
  · have hall : (fun p ↦ pushes ((todo p).take (s.sent p))) = fun p ↦ pushes (todo p) := by
      funext p
      have hsent : s.sent p = (todo p).length := by
        rw [State.sent, (hf p).1, (hf p).2]
        rfl
      rw [hsent, List.take_length]
    exact hall ▸ h.accounts.merge
  · rw [← hordered.fifo, hordered.returned_eq, List.append_assoc]
    exact List.prefix_append _ _
  · rw [h.accounts.returned]
    exact Finset.sum_congr rfl fun p _ ↦ by rw [(hf p).2, List.take_length]

/-- The thread `true` goes first. -/
def trueFirst : Waker Bool where
  pick asleep := if asleep true then some true else if asleep false then some false else none
  asleep_of_some asleep p h := by
    split at h
    · next htrue => exact Option.some.inj h ▸ htrue
    · split at h
      · next hfalse => exact Option.some.inj h ▸ hfalse
      · cases h
  awake_of_none asleep h p := by
    split at h
    · cases h
    · next htrue =>
      split at h
      · cases h
      · next hfalse =>
        cases p with
        | true => exact Bool.not_eq_true _ ▸ htrue
        | false => exact Bool.not_eq_true _ ▸ hfalse

/-- Each slot in turn. -/
def roundRobin (m : ℕ) : Slot Bool :=
  match m % 4 with
  | 0 => .run true
  | 1 => .run false
  | 2 => .wake true
  | _ => .wake false

theorem roundRobin_fair : Fair roundRobin := by
  intro e n
  have hmod : ∀ i, i < 4 → (4 * n + i) % 4 = i := fun i hi ↦ by omega
  rcases e with p | p <;> cases p
  · exact ⟨4 * n + 1, by omega, by rw [roundRobin, hmod 1 (by decide)]; rfl⟩
  · exact ⟨4 * n + 0, by omega, by rw [roundRobin, hmod 0 (by decide)]; rfl⟩
  · exact ⟨4 * n + 3, by omega, by rw [roundRobin, hmod 3 (by decide)]; rfl⟩
  · exact ⟨4 * n + 2, by omega, by rw [roundRobin, hmod 2 (by decide)]; rfl⟩

/-- A thread that pushes 1 and 2, and one that pops twice and may wake up twice by itself. -/
theorem calls_end_two : ∃ m, ∀ k, m ≤ k →
    (play (turn (fun _ _ ↦ trueFirst)
      fun p : Bool ↦ cond p [.push 1, .push 2] [.waitAndPop, .waitAndPop]) (init 2)
      (firstTurns roundRobin k)).queue.returned = [1, 2] := by
  have hsupplied : Supplied fun p : Bool ↦
      cond p [Call.push 1, .push 2] [.waitAndPop, .waitAndPop] :=
    supplied_of_pushes_first (fun p ↦ cond p [1, 2] []) (fun p ↦ cond p 0 2)
      (fun p ↦ by cases p <;> rfl) (by decide)
  obtain ⟨m, hm⟩ := calls_end (fun _ _ ↦ trueFirst) hsupplied 2 roundRobin_fair
  refine ⟨m, fun k hk ↦ ?_⟩
  obtain ⟨-, hmerge, hprefix, hlength⟩ := hm k hk
  have henqueued := hmerge.eq_of_single (p := true) fun p hp ↦ by
    cases p with
    | false => rfl
    | true => exact absurd rfl hp
  rw [henqueued] at hprefix
  exact hprefix.eq_of_length hlength

end QueueClients

end FastInAHurry
