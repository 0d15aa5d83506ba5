import FastInAHurry.Library.Runs
import Mathlib.Logic.Function.Basic

/-!
# The spin mutex

The embedding of `thread/SpinMutex.hpp`, with one event for each access to the flag, for any number
of threads. A thread holds the mutex after `lock` has returned, or after `try_lock` has returned
true, and calls `unlock` only while it holds it. The pauses of the spin loop and the yield have no
effect on the flag; the loop counter is kept.

`try_lock` returns what `test_and_set` returned, the previous value of the flag. So it reports
success exactly when the mutex was taken, and leaves a free mutex locked with nobody holding it. The
main result says that this is the only thing wrong: a run meets the contract of a lock exactly if no
`try_lock` is executed in it.
-/

namespace FastInAHurry

open Runs

namespace SpinMutex

/-- Where a thread stands; `i` is the counter of the spin loop. -/
inductive Thread where
  | idle
  | fastPath
  | spinTest (i : ℕ)
  | spinSet (i : ℕ)
  | yielding
  | tryLock
  | holding
deriving DecidableEq

structure State (ι : Type*) where
  flag : Bool
  threads : ι → Thread

/-- A call, or an access to the flag. -/
inductive Access where
  | lock
  | fastTestAndSet
  | test
  | testAndSet
  | yield
  | tryLock
  | tryTestAndSet
  | unlock
deriving DecidableEq

/-- What a schedule can do next. -/
structure Event (ι : Type*) where
  thread : ι
  access : Access
deriving DecidableEq

variable {ι : Type*}

/-- A free mutex, with every thread outside it. -/
def init : State ι where
  flag := false
  threads := fun _ ↦ .idle

/-- The value `try_lock` returns: that of `test_and_set`, the previous value of the flag. -/
def State.tryLock (s : State ι) : Bool := s.flag

/-- The next iteration of the spin loop, or its end. -/
def spinNext (i : ℕ) : Thread := if i + 1 < 64 then .spinTest (i + 1) else .yielding

variable [DecidableEq ι]

/-- Move the thread `p` to the program point `q`, leaving the value `b` in the flag. -/
def State.move (s : State ι) (b : Bool) (p : ι) (q : Thread) : State ι where
  flag := b
  threads := Function.update s.threads p q

/-- One event of any thread. -/
def step (s : State ι) (e : Event ι) : Option (State ι) :=
  match e.access, s.threads e.thread with
  | .lock, .idle => some (s.move s.flag e.thread .fastPath)
  | .fastTestAndSet, .fastPath =>
    some (s.move true e.thread (if s.flag then .spinTest 0 else .holding))
  | .test, .spinTest i =>
    some (s.move s.flag e.thread (if s.flag then spinNext i else .spinSet i))
  | .testAndSet, .spinSet i =>
    some (s.move true e.thread (if s.flag then spinNext i else .holding))
  | .yield, .yielding => some (s.move s.flag e.thread (.spinTest 0))
  | .tryLock, .idle => some (s.move s.flag e.thread .tryLock)
  | .tryTestAndSet, .tryLock =>
    some (s.move true e.thread (if s.tryLock then .holding else .idle))
  | .unlock, .holding => some (s.move false e.thread .idle)
  | _, _ => none

variable {s t : State ι} {e : Event ι} {o : Option ι} {p : ι}

theorem move_threads_self (b : Bool) (q : Thread) : (s.move b p q).threads p = q :=
  Function.update_self ..

theorem move_threads_of_ne {p' : ι} (hne : p' ≠ p) (b : Bool) (q : Thread) :
    (s.move b p q).threads p' = s.threads p' :=
  Function.update_of_ne hne ..

/-! ## What a step can do -/

/-- Everything a step other than that of `try_lock` can do: it leaves the flag and does not touch
the holders, it takes a free mutex, or it releases the mutex. -/
inductive Move (s : State ι) (p : ι) : State ι → Prop
  | wait {q : Thread} (hp : s.threads p ≠ .holding) (hq : q ≠ .holding) :
      Move s p (s.move s.flag p q)
  | acquire (hflag : s.flag = false) : Move s p (s.move true p .holding)
  | release (hp : s.threads p = .holding) : Move s p (s.move false p .idle)

theorem spinNext_ne_holding (i : ℕ) : spinNext i ≠ .holding := by
  rw [spinNext]
  split <;> exact nofun

/-- A `test_and_set` of `lock` waits on a set flag and acquires on a clear one. -/
theorem Move.testAndSet (hp : s.threads p ≠ .holding) {q : Thread} (hq : q ≠ .holding) :
    Move s p (s.move true p (if s.flag then q else .holding)) := by
  cases hflag : s.flag with
  | false => exact .acquire hflag
  | true =>
    have h := Move.wait hp hq
    rw [hflag] at h
    exact h

theorem move_of_step (hst : step s e = some t) (hne : e.access ≠ .tryTestAndSet) :
    Move s e.thread t := by
  rw [step] at hst
  split at hst <;> rename_i hacc hp <;> try contradiction
  all_goals obtain rfl := Option.some.inj hst
  · exact .wait (by rw [hp]; exact nofun) nofun
  · exact .testAndSet (by rw [hp]; exact nofun) nofun
  · refine .wait (by rw [hp]; exact nofun) ?_
    split
    · exact spinNext_ne_holding _
    · exact nofun
  · exact .testAndSet (by rw [hp]; exact nofun) (spinNext_ne_holding _)
  · exact .wait (by rw [hp]; exact nofun) nofun
  · exact .wait (by rw [hp]; exact nofun) nofun
  · exact .release hp

/-! ## The owner -/

/-- The mutex is held by `o` and by nobody else, and the flag says whether it is held. -/
structure Owned (s : State ι) (o : Option ι) : Prop where
  flag_eq : s.flag = o.isSome
  holding_iff : ∀ p, s.threads p = .holding ↔ o = some p

omit [DecidableEq ι] in
theorem Owned.init : Owned (init : State ι) none := ⟨rfl, fun _ ↦ ⟨nofun, nofun⟩⟩

theorem Owned.move (h : Owned s o) (hm : Move s p t) : ∃ o', Owned t o' := by
  cases hm with
  | @wait q hp hq =>
    refine ⟨o, h.flag_eq, ?_⟩
    refine (Function.forall_update_iff s.threads fun p r ↦ r = .holding ↔ o = some p).mpr
      ⟨⟨fun h' ↦ absurd h' hq, fun ho ↦ absurd ((h.holding_iff p).mpr ho) hp⟩, ?_⟩
    exact fun p' _ ↦ h.holding_iff p'
  | acquire hflag =>
    obtain rfl : o = none := by
      have := h.flag_eq
      rw [hflag] at this
      exact Option.not_isSome_iff_eq_none.mp (by simp [← this])
    refine ⟨some p, rfl, ?_⟩
    refine (Function.forall_update_iff s.threads fun p' r ↦ r = .holding ↔ some p = some p').mpr
      ⟨⟨fun _ ↦ rfl, fun _ ↦ rfl⟩, fun p' hp' ↦ ?_⟩
    rw [h.holding_iff p']
    exact ⟨nofun, fun heq ↦ absurd (Option.some.inj heq).symm hp'⟩
  | release hp =>
    obtain rfl := (h.holding_iff p).mp hp
    refine ⟨none, rfl, ?_⟩
    refine (Function.forall_update_iff s.threads fun p' r ↦ r = .holding ↔ none = some p').mpr
      ⟨⟨nofun, nofun⟩, fun p' hp' ↦ ?_⟩
    rw [h.holding_iff p']
    exact ⟨fun heq ↦ absurd (Option.some.inj heq).symm hp', nofun⟩

/-- **A mutex used through `lock` and `unlock` has at most one owner.** -/
theorem exists_owned {as : List (Event ι)} (h : exec step init as = some s)
    (hne : ∀ e ∈ as, e.access ≠ .tryTestAndSet) : ∃ o, Owned s o := by
  refine exec_invariant_of_mem (P := fun s ↦ ∃ o, Owned s o) ?_ ⟨none, Owned.init⟩ h
  rintro s e he t ⟨o, ho⟩ hst
  exact ho.move (move_of_step hst (hne e he))

/-! ## The contract of a lock -/

/-- The contract of a lock along a run: at most one thread holds it at any time, and a `try_lock`
that returns false leaves its thread not holding it and the flag as it was. -/
structure Lockable (as : List (Event ι)) : Prop where
  exclusive : ∀ pre post s, as = pre ++ post → exec step init pre = some s →
    ∀ p q, s.threads p = .holding → s.threads q = .holding → p = q
  tryLock_false : ∀ pre post p s t, as = pre ++ ⟨p, .tryTestAndSet⟩ :: post →
    exec step init pre = some s → step s ⟨p, .tryTestAndSet⟩ = some t → s.tryLock = false →
    t.threads p ≠ .holding ∧ t.flag = s.flag

/-- A run without `try_lock` meets the contract. -/
theorem lockable_of_forall_ne {as : List (Event ι)}
    (hne : ∀ e ∈ as, e.access ≠ .tryTestAndSet) : Lockable as := by
  constructor
  · rintro pre post s rfl hpre p q hp hq
    obtain ⟨o, ho⟩ := exists_owned hpre fun e he ↦ hne e (List.mem_append_left post he)
    have := ((ho.holding_iff p).mp hp).symm.trans ((ho.holding_iff q).mp hq)
    exact Option.some.inj this
  · rintro pre post p s t rfl
    exact absurd rfl (hne ⟨p, .tryTestAndSet⟩ (List.mem_append_right pre List.mem_cons_self))

theorem step_tryTestAndSet (hst : step s ⟨p, .tryTestAndSet⟩ = some t) :
    s.threads p = .tryLock ∧ t = s.move true p (if s.tryLock then .holding else .idle) := by
  rw [step] at hst
  split at hst <;> rename_i hacc hp <;> try contradiction
  exact ⟨hp, (Option.some.inj hst).symm⟩

/-- The first `try_lock` of a run breaks the contract: on a free mutex by setting the flag, on a
mutex that is held by becoming a second holder. -/
theorem not_lockable_of_tryTestAndSet {pre post : List (Event ι)}
    (hne : ∀ e ∈ pre, e.access ≠ .tryTestAndSet) (hpre : exec step init pre = some s)
    (hst : step s ⟨p, .tryTestAndSet⟩ = some t) :
    ¬Lockable (pre ++ ⟨p, .tryTestAndSet⟩ :: post) := by
  intro h
  obtain ⟨o, ho⟩ := exists_owned hpre hne
  obtain ⟨hp, ht⟩ := step_tryTestAndSet hst
  cases hflag : s.flag with
  | false =>
    have := (h.tryLock_false pre post p s t rfl hpre hst hflag).2
    rw [ht, hflag] at this
    exact Bool.false_ne_true this.symm
  | true =>
    obtain ⟨q, rfl⟩ := Option.isSome_iff_exists.mp (ho.flag_eq.symm.trans hflag)
    have hq := (ho.holding_iff q).mpr rfl
    -- the holder is another thread: this one is still inside `try_lock`
    have hqp : q ≠ p := by
      rintro rfl
      rw [hp] at hq
      cases hq
    refine hqp (h.exclusive (pre ++ [⟨p, .tryTestAndSet⟩]) post t (by simp) ?_ q p ?_ ?_)
    · exact exec_append_eq_some.mpr ⟨s, hpre, exec_cons_eq_some.mpr ⟨t, hst, rfl⟩⟩
    · rw [ht, move_threads_of_ne hqp]
      exact hq
    · rw [ht, move_threads_self, State.tryLock, hflag]
      rfl

/-- **A run of the spin mutex meets the contract of a lock exactly if no `try_lock` is executed in
it.** -/
theorem lockable_iff {as : List (Event ι)} (h : exec step init as = some s) :
    Lockable as ↔ ∀ e ∈ as, e.access ≠ .tryTestAndSet := by
  refine ⟨fun hlock e he hacc ↦ ?_, lockable_of_forall_ne⟩
  obtain ⟨⟨p, a⟩, hfirst⟩ := Option.isSome_iff_exists.mp
    (List.find?_isSome (p := fun e : Event ι ↦ e.access = .tryTestAndSet).mpr ⟨e, he, by simpa⟩)
  obtain ⟨ha, pre, post, rfl, hpre⟩ := List.find?_eq_some_iff_append.mp hfirst
  obtain rfl : a = .tryTestAndSet := by simpa using ha
  obtain ⟨u, hu, hrest⟩ := exec_append_eq_some.mp h
  obtain ⟨v, hv, -⟩ := exec_cons_eq_some.mp hrest
  exact not_lockable_of_tryTestAndSet (by simpa using hpre) hu hv hlock

/-- Two threads that take turns with `lock` and `unlock`, one of them through the spin loop. -/
theorem lockable_handover : Lockable [(⟨true, .lock⟩ : Event Bool), ⟨true, .fastTestAndSet⟩,
    ⟨false, .lock⟩, ⟨false, .fastTestAndSet⟩, ⟨false, .test⟩, ⟨true, .unlock⟩, ⟨false, .test⟩,
    ⟨false, .testAndSet⟩, ⟨false, .unlock⟩] :=
  (lockable_iff (s := _) rfl).mpr (by decide)

/-- A thread that tries a mutex which is held becomes its second holder. -/
theorem not_lockable_contended : ∃ s : State Bool,
    exec step init [⟨true, .lock⟩, ⟨true, .fastTestAndSet⟩, ⟨false, .tryLock⟩,
      ⟨false, .tryTestAndSet⟩] = some s ∧
    s.threads true = .holding ∧ s.threads false = .holding ∧
    ¬Lockable [(⟨true, .lock⟩ : Event Bool), ⟨true, .fastTestAndSet⟩, ⟨false, .tryLock⟩,
      ⟨false, .tryTestAndSet⟩] := by
  refine ⟨_, rfl, rfl, rfl, fun h ↦ ?_⟩
  exact absurd (h.exclusive _ [] _ (List.append_nil _).symm rfl true false rfl rfl) (by decide)

end SpinMutex

end FastInAHurry
