import FastInAHurry.Library.Merge
import FastInAHurry.Library.Turns
import FastInAHurry.Thread.SpinMutex
import Mathlib.Algebra.Order.BigOperators.Group.Finset

/-!
# Critical sections under the spin mutex

What `thread/SpinMutex.hpp` is for. Threads change a variable that is not atomic, each in a list of
sections between `lock` and `unlock`. A section loads the variable and stores a function of what it
has loaded, in two accesses between which the other threads may take turns. The accesses to the flag
are the steps of the mutex itself. No thread calls `try_lock`.

That no update is lost rests on one fact: what the holder has loaded is still what the variable
holds when it stores.
-/

namespace FastInAHurry

open SpinMutex Turns

namespace Sections

/-- Where the holder of the mutex stands in its section. -/
inductive Point (α : Type*) where
  | load
  | store (value : α)
  | leave

structure State (ι α : Type*) where
  mutex : SpinMutex.State ι
  shared : α
  points : ι → Point α
  /-- How many of its sections each thread has finished. -/
  done : ι → ℕ
  /-- The updates in the order of their stores. -/
  updates : List (α → α)

variable {ι α : Type*}

def init (a : α) : State ι α where
  mutex := SpinMutex.init
  shared := a
  points := fun _ ↦ .load
  done := fun _ ↦ 0
  updates := []

/-- Make the updates one after the other. -/
def apply (a : α) (updates : List (α → α)) : α := updates.foldl (fun x f ↦ f x) a

variable [DecidableEq ι]

/-- The thread makes an access to the flag. -/
def State.access (s : State ι α) (t : ι) (a : Access) : State ι α :=
  { s with mutex := (SpinMutex.step s.mutex ⟨t, a⟩).getD s.mutex }

/-- Load the variable. -/
def State.load (s : State ι α) (t : ι) : State ι α :=
  { s with points := Function.update s.points t (.store s.shared) }

/-- Store what the update makes of the value loaded. -/
def State.store (s : State ι α) (t : ι) (f : α → α) (value : α) : State ι α :=
  { s with
    shared := f value
    points := Function.update s.points t .leave
    updates := s.updates ++ [f] }

/-- The section is over, and the mutex is released. -/
def State.leave (s : State ι α) (t : ι) : State ι α :=
  { s.access t .unlock with
    points := Function.update s.points t .load
    done := Function.update s.done t (s.done t + 1) }

/-- A thread takes a turn: it goes on with `lock` if it has a section left, or with its section. -/
def turn (todo : ι → List (α → α)) (s : State ι α) (t : ι) : State ι α :=
  match s.mutex.threads t with
  | .idle => if s.done t < (todo t).length then s.access t .lock else s
  | .fastPath => s.access t .fastTestAndSet
  | .spinTest _ => s.access t .test
  | .spinSet _ => s.access t .testAndSet
  | .yielding => s.access t .yield
  | .tryLock => s
  | .holding =>
    match s.points t, (todo t)[s.done t]? with
    | .load, _ => s.load t
    | .store value, some f => s.store t f value
    | .store _, none => s
    | .leave, _ => s.leave t

/-- Every thread has left all its sections. -/
def Finished (todo : ι → List (α → α)) (s : State ι α) : Prop :=
  ∀ t, s.mutex.threads t = .idle ∧ s.done t = (todo t).length

variable {todo : ι → List (α → α)} {s : State ι α} {t : ι} {a : α}

/-! ## What a turn does -/

/-- The turns that a thread needs to take a free mutex. -/
def distance : Thread → ℕ
  | .yielding => 2
  | .idle | .spinTest _ => 1
  | _ => 0

/-- The thread is at another point of `lock`. -/
def State.wait (s : State ι α) (t : ι) (q : Thread) : State ι α :=
  { s with mutex := s.mutex.move s.mutex.flag t q }

/-- The thread takes the mutex. -/
def State.acquire (s : State ι α) (t : ι) : State ι α :=
  { s with mutex := s.mutex.move true t .holding }

/-- Everything a turn of the thread `t` can do. -/
inductive Turned (todo : ι → List (α → α)) (s : State ι α) (t : ι) : State ι α → Prop
  | finished (ht : s.mutex.threads t = .idle) (hdone : (todo t).length ≤ s.done t) :
      Turned todo s t s
  | outside (ht : s.mutex.threads t = .tryLock) : Turned todo s t s
  | wait {q : Thread} (ht : s.mutex.threads t ≠ .holding)
      (hmore : s.mutex.threads t = .idle → s.done t < (todo t).length) (hq : q ≠ .holding)
      (hidle : q ≠ .idle) (htry : q ≠ .tryLock)
      (hcloser : s.mutex.flag = false → distance q < distance (s.mutex.threads t)) :
      Turned todo s t (s.wait t q)
  | acquire (ht : s.mutex.threads t ≠ .holding) (hidle : s.mutex.threads t ≠ .idle)
      (hflag : s.mutex.flag = false) : Turned todo s t (s.acquire t)
  | load (ht : s.mutex.threads t = .holding) (hpoint : s.points t = .load) :
      Turned todo s t (s.load t)
  | store {f : α → α} {value : α} (ht : s.mutex.threads t = .holding)
      (hpoint : s.points t = .store value) (hf : (todo t)[s.done t]? = some f) :
      Turned todo s t (s.store t f value)
  | stuck {value : α} (ht : s.mutex.threads t = .holding) (hpoint : s.points t = .store value)
      (hf : (todo t)[s.done t]? = none) : Turned todo s t s
  | leave (ht : s.mutex.threads t = .holding) (hpoint : s.points t = .leave) :
      Turned todo s t (s.leave t)

section Fields

variable (s : State ι α) (t : ι) (q : Thread) (f : α → α) (value : α)

@[simp] theorem wait_flag : (s.wait t q).mutex.flag = s.mutex.flag := rfl

@[simp] theorem wait_threads :
    (s.wait t q).mutex.threads = Function.update s.mutex.threads t q := rfl

@[simp] theorem wait_done : (s.wait t q).done = s.done := rfl

@[simp] theorem wait_points : (s.wait t q).points = s.points := rfl

@[simp] theorem acquire_threads :
    (s.acquire t).mutex.threads = Function.update s.mutex.threads t .holding := rfl

@[simp] theorem acquire_done : (s.acquire t).done = s.done := rfl

@[simp] theorem acquire_points : (s.acquire t).points = s.points := rfl

@[simp] theorem load_mutex : (s.load t).mutex = s.mutex := rfl

@[simp] theorem load_done : (s.load t).done = s.done := rfl

@[simp] theorem load_points :
    (s.load t).points = Function.update s.points t (.store s.shared) := rfl

@[simp] theorem store_mutex : (s.store t f value).mutex = s.mutex := rfl

@[simp] theorem store_done : (s.store t f value).done = s.done := rfl

@[simp] theorem store_points :
    (s.store t f value).points = Function.update s.points t .leave := rfl

@[simp] theorem leave_done : (s.leave t).done = Function.update s.done t (s.done t + 1) := rfl

@[simp] theorem leave_points : (s.leave t).points = Function.update s.points t .load := rfl

variable {s t} in
theorem leave_mutex (ht : s.mutex.threads t = .holding) :
    (s.leave t).mutex = s.mutex.move false t .idle := by
  simp only [State.leave, State.access, SpinMutex.step, ht, Option.getD_some]

end Fields

/-- A `test_and_set` goes on to `q` on a set flag and acquires on a clear one. -/
theorem Turned.testAndSet {q : Thread} {b : Bool} (hb : s.mutex.flag = b)
    (ht : s.mutex.threads t ≠ .holding) (hidle : s.mutex.threads t ≠ .idle) (hq : q ≠ .holding)
    (hqidle : q ≠ .idle) (hqtry : q ≠ .tryLock) :
    Turned todo s t { s with mutex := s.mutex.move true t (if b then q else .holding) } := by
  cases b with
  | false => exact .acquire ht hidle hb
  | true =>
    have h : Turned todo s t (s.wait t q) := .wait ht (fun heq ↦ absurd heq hidle) hq hqidle hqtry
      (by rw [hb]; exact nofun)
    rw [State.wait, hb] at h
    exact h

theorem spinNext_ne (i : ℕ) : spinNext i ≠ .idle ∧ spinNext i ≠ .tryLock := by
  rw [spinNext]
  split <;> simp

theorem turned (todo : ι → List (α → α)) (s : State ι α) (t : ι) :
    Turned todo s t (turn todo s t) := by
  rw [turn]
  split
  · next ht =>
    split
    · next hmore =>
      simp only [State.access, SpinMutex.step, ht, Option.getD_some]
      exact .wait (by simp [ht]) (fun _ ↦ hmore) (by simp) (by simp) (by simp)
        fun _ ↦ by rw [ht]; decide
    · next hmore => exact .finished ht (not_lt.mp hmore)
  · next ht =>
    simp only [State.access, SpinMutex.step, ht, Option.getD_some]
    exact .testAndSet rfl (by simp [ht]) (by simp [ht]) (by simp) (by simp) (by simp)
  · next i ht =>
    simp only [State.access, SpinMutex.step, ht, Option.getD_some]
    cases hflag : s.mutex.flag with
    | false =>
      have h : Turned todo s t (s.wait t (.spinSet i)) :=
        .wait (by simp [ht]) (by simp [ht]) (by simp) (by simp) (by simp)
          fun _ ↦ by rw [ht]; exact Nat.zero_lt_one
      rw [State.wait, hflag] at h
      exact h
    | true =>
      have h : Turned todo s t (s.wait t (spinNext i)) :=
        .wait (by simp [ht]) (by simp [ht]) (spinNext_ne_holding i)
          (spinNext_ne i).1 (spinNext_ne i).2 (by simp [hflag])
      rw [State.wait, hflag] at h
      exact h
  · next i ht =>
    simp only [State.access, SpinMutex.step, ht, Option.getD_some]
    exact .testAndSet rfl (by simp [ht]) (by simp [ht])
      (spinNext_ne_holding i) (spinNext_ne i).1 (spinNext_ne i).2
  · next ht =>
    simp only [State.access, SpinMutex.step, ht, Option.getD_some]
    exact .wait (by simp [ht]) (by simp [ht]) (by simp) (by simp) (by simp)
      fun _ ↦ by rw [ht]; decide
  · next ht => exact .outside ht
  · next ht =>
    split
    · next hpoint => exact .load ht hpoint
    · next hpoint hf => exact .store ht hpoint hf
    · next hpoint hf => exact .stuck ht hpoint hf
    · next hpoint => exact .leave ht hpoint

/-! ## The invariant -/

/-- How many updates the thread has stored in the section it is in. -/
def Point.stored : Point α → ℕ
  | .leave => 1
  | _ => 0

/-- How many updates the thread has stored. -/
def State.stored (s : State ι α) (t : ι) : ℕ := s.done t + (s.points t).stored

structure Inv (todo : ι → List (α → α)) (a : α) (s : State ι α) : Prop where
  owned : ∃ o, Owned s.mutex o
  never_tries : ∀ t, s.mutex.threads t ≠ .tryLock
  more : ∀ t, s.mutex.threads t ≠ .idle → s.done t < (todo t).length
  done_le : ∀ t, s.done t ≤ (todo t).length
  outside : ∀ t, s.mutex.threads t ≠ .holding → s.points t = .load
  /-- What has been loaded is what the variable holds. -/
  loaded : ∀ t value, s.points t = .store value → s.shared = value
  value : s.shared = apply a s.updates
  merge : Merge (fun t ↦ (todo t).take (s.stored t)) s.updates

omit [DecidableEq ι] in
theorem apply_concat (a : α) (updates : List (α → α)) (f : α → α) :
    apply a (updates ++ [f]) = f (apply a updates) := by
  rw [apply, List.foldl_concat, apply]

theorem Inv.init (todo : ι → List (α → α)) (a : α) : Inv todo a (init a) where
  owned := ⟨none, Owned.init⟩
  never_tries _ := nofun
  more _ h := absurd rfl h
  done_le _ := Nat.zero_le _
  outside _ _ := rfl
  loaded _ _ := nofun
  value := rfl
  merge := by
    have hnil : (fun t ↦ (todo t).take ((Sections.init a : State ι α).stored t)) = fun _ ↦ [] := by
      funext t
      exact List.take_zero
    rw [hnil]
    exact Merge.nil

/-- Only one thread is in its section. -/
theorem Inv.eq_of_holding (h : Inv todo a s) {t' : ι} (ht : s.mutex.threads t = .holding)
    (ht' : s.mutex.threads t' = .holding) : t = t' := by
  obtain ⟨o, ho⟩ := h.owned
  exact Option.some.inj (((ho.holding_iff t).mp ht).symm.trans ((ho.holding_iff t').mp ht'))

theorem Inv.eq_of_store (h : Inv todo a s) {t' : ι} {value : α}
    (ht : s.mutex.threads t = .holding) (ht' : s.points t' = .store value) : t' = t := by
  by_contra hne
  have hload := h.outside t' fun heq ↦ hne (h.eq_of_holding heq ht)
  rw [ht'] at hload
  cases hload

/-- The thread `t` moves to another point of `lock`, or out of it, and has a section left. -/
theorem Inv.of_mutex (h : Inv todo a s) {m : SpinMutex.State ι} {q : Thread}
    (hm : Move s.mutex t m) (hthreads : m.threads = Function.update s.mutex.threads t q)
    (ht : s.mutex.threads t ≠ .holding) (hq : q ≠ .tryLock) (hmore : s.done t < (todo t).length) :
    Inv todo a { s with mutex := m } := by
  obtain ⟨o, ho⟩ := h.owned
  have hother : ∀ {t'}, t' ≠ t → m.threads t' = s.mutex.threads t' := fun ht' ↦ by
    rw [hthreads, Function.update_of_ne ht']
  refine ⟨ho.move hm, fun t' ↦ ?_, fun t' hidle ↦ ?_, h.done_le, fun t' hholding ↦ ?_, h.loaded,
    h.value, h.merge⟩
  · by_cases heq : t' = t
    · subst heq
      show m.threads t' ≠ .tryLock
      rw [hthreads, Function.update_self]
      exact hq
    · exact hother heq ▸ h.never_tries t'
  · by_cases heq : t' = t
    · exact heq ▸ hmore
    · exact h.more t' (hother heq ▸ hidle)
  · by_cases heq : t' = t
    · exact heq ▸ h.outside t ht
    · exact h.outside t' (hother heq ▸ hholding)

theorem Inv.load (h : Inv todo a s) (ht : s.mutex.threads t = .holding)
    (hpoint : s.points t = .load) : Inv todo a (s.load t) := by
  have hstored : (s.load t).stored = s.stored := by
    funext t'
    by_cases heq : t' = t
    · subst heq
      rw [State.stored, State.stored, load_points, load_done, Function.update_self, hpoint]
      rfl
    · rw [State.stored, State.stored, load_points, load_done, Function.update_of_ne heq]
  refine ⟨h.owned, h.never_tries, h.more, h.done_le, fun t' hholding ↦ ?_, fun t' value hvalue ↦ ?_,
    h.value, hstored ▸ h.merge⟩
  · have heq : t' ≠ t := fun heq ↦ hholding (heq ▸ ht)
    rw [load_points, Function.update_of_ne heq]
    exact h.outside t' hholding
  · by_cases heq : t' = t
    · subst heq
      rw [load_points, Function.update_self] at hvalue
      exact Point.store.inj hvalue
    · rw [load_points, Function.update_of_ne heq] at hvalue
      exact h.loaded t' value hvalue

/-- The one turn that changes the variable. -/
theorem Inv.store (h : Inv todo a s) {f : α → α} {value : α} (ht : s.mutex.threads t = .holding)
    (hpoint : s.points t = .store value) (hf : (todo t)[s.done t]? = some f) :
    Inv todo a (s.store t f value) := by
  have hother : ∀ {t'}, t' ≠ t → (s.store t f value).points t' = s.points t' := fun ht' ↦ by
    rw [store_points, Function.update_of_ne ht']
  refine ⟨h.owned, h.never_tries, h.more, h.done_le, fun t' hholding ↦ ?_,
    fun t' value' hvalue ↦ ?_, ?_, h.merge.push (p := t) ?_ fun t' ht' ↦ ?_⟩
  · have heq : t' ≠ t := fun heq ↦ hholding (heq ▸ ht)
    rw [hother heq]
    exact h.outside t' hholding
  · have heq : t' ≠ t := by
      rintro rfl
      rw [store_points, Function.update_self] at hvalue
      cases hvalue
    exact absurd (h.eq_of_store ht (hother heq ▸ hvalue)) heq
  · show f value = apply a (s.updates ++ [f])
    rw [apply_concat, ← h.value, h.loaded t value hpoint]
  · have hbefore : s.stored t = s.done t := by rw [State.stored, hpoint]; rfl
    have hafter : (s.store t f value).stored t = s.done t + 1 := by
      rw [State.stored, store_points, store_done, Function.update_self]
      rfl
    rw [hbefore, hafter, List.take_add_one, hf, Option.toList_some]
  · rw [State.stored, State.stored, hother ht', store_done]

theorem Inv.leave (h : Inv todo a s) (ht : s.mutex.threads t = .holding)
    (hpoint : s.points t = .leave) : Inv todo a (s.leave t) := by
  have hmutex := leave_mutex ht
  have hother : ∀ {t'}, t' ≠ t → (s.leave t).mutex.threads t' = s.mutex.threads t' ∧
      (s.leave t).points t' = s.points t' ∧ (s.leave t).done t' = s.done t' := fun ht' ↦ by
    rw [hmutex, leave_points, leave_done, move_threads_of_ne ht', Function.update_of_ne ht',
      Function.update_of_ne ht']
    exact ⟨rfl, rfl, rfl⟩
  have hself : (s.leave t).mutex.threads t = .idle := by rw [hmutex, move_threads_self]
  have hmore : s.done t < (todo t).length := h.more t (by rw [ht]; exact nofun)
  have hstored : (s.leave t).stored = s.stored := by
    funext t'
    by_cases heq : t' = t
    · subst heq
      rw [State.stored, State.stored, leave_points, leave_done, Function.update_self,
        Function.update_self, hpoint]
      rfl
    · rw [State.stored, State.stored, (hother heq).2.1, (hother heq).2.2]
  obtain ⟨o, ho⟩ := h.owned
  refine ⟨hmutex ▸ ho.move (.release ht), fun t' ↦ ?_, fun t' hidle ↦ ?_, fun t' ↦ ?_,
    fun t' hholding ↦ ?_, fun t' value hvalue ↦ ?_, h.value, hstored ▸ h.merge⟩
  all_goals by_cases heq : t' = t
  · subst heq
    rw [hself]
    exact nofun
  · exact (hother heq).1 ▸ h.never_tries t'
  · exact absurd (heq ▸ hself) hidle
  · exact (hother heq).2.2 ▸ h.more t' ((hother heq).1 ▸ hidle)
  · subst heq
    rw [leave_done, Function.update_self]
    exact hmore
  · exact (hother heq).2.2 ▸ h.done_le t'
  · subst heq
    rw [leave_points, Function.update_self]
  · exact (hother heq).2.1 ▸ h.outside t' ((hother heq).1 ▸ hholding)
  · subst heq
    rw [leave_points, Function.update_self] at hvalue
    cases hvalue
  · exact h.loaded t' value ((hother heq).2.1 ▸ hvalue)

theorem Inv.turn (h : Inv todo a s) (t : ι) : Inv todo a (turn todo s t) := by
  have hturned := turned todo s t
  generalize Sections.turn todo s t = u at hturned ⊢
  cases hturned with
  | finished ht hdone => exact h
  | outside ht => exact h
  | stuck ht hpoint hf => exact h
  | @wait q ht hmore hq hidle htry hcloser =>
    have hleft : s.done t < (todo t).length := by
      by_cases heq : s.mutex.threads t = .idle
      · exact hmore heq
      · exact h.more t heq
    exact h.of_mutex (.wait ht hq) rfl ht htry hleft
  | acquire ht hidle hflag => exact h.of_mutex (.acquire hflag) rfl ht nofun (h.more t hidle)
  | load ht hpoint => exact h.load ht hpoint
  | store ht hpoint hf => exact h.store ht hpoint hf
  | leave ht hpoint => exact h.leave ht hpoint

theorem Inv.play (todo : ι → List (α → α)) (a : α) (schedule : List ι) :
    Inv todo a (play (Sections.turn todo) (Sections.init a) schedule) :=
  play_invariant (fun _ t h ↦ h.turn t) (.init todo a) schedule

omit [DecidableEq ι] in
theorem stored_le_one (q : Point α) : q.stored ≤ 1 := by
  cases q with
  | leave => exact le_rfl
  | load | store _ => exact Nat.zero_le 1

/-- **No update is lost.** In every interleaving at most one thread is in its section, and the
variable holds what the updates stored so far make of its first value one after the other. These are
the updates of all threads, each of them once and in the order of its thread, for all the sections
that are finished and for no other than the one that a thread is in. -/
theorem sections_serial (todo : ι → List (α → α)) (a : α) (schedule : List ι) :
    let s := play (turn todo) (init a) schedule
    (∀ t t', s.mutex.threads t = .holding → s.mutex.threads t' = .holding → t = t') ∧
      s.shared = apply a s.updates ∧
      ∃ stored : ι → ℕ, (∀ t, s.done t ≤ stored t ∧ stored t ≤ s.done t + 1) ∧
        (∀ t, s.mutex.threads t ≠ .holding → stored t = s.done t) ∧
        Merge (fun t ↦ (todo t).take (stored t)) s.updates := by
  intro s
  have h : Inv todo a s := Inv.play todo a schedule
  refine ⟨fun t t' ↦ h.eq_of_holding, h.value, s.stored, fun t ↦ ⟨Nat.le_add_right _ _, ?_⟩,
    fun t ht ↦ ?_, h.merge⟩
  · exact Nat.add_le_add_left (stored_le_one _) _
  · rw [State.stored, h.outside t ht]
    rfl

/-! ## Every section is finished -/

/-- How far a thread that holds the mutex has come in its section. -/
def Point.passed : Point α → ℕ
  | .load => 1
  | .store _ => 2
  | .leave => 3

/-- The steps that the thread still has to make: it takes the mutex, loads, stores and leaves. -/
def stepsLeft (sections : ℕ) (q : Thread) (r : Point α) : ℕ :=
  if q = .holding then 4 * sections - r.passed else 4 * sections

section Work

variable [Fintype ι]

/-- The steps that all threads still have to make. -/
def work (todo : ι → List (α → α)) (s : State ι α) : ℕ :=
  ∑ t, stepsLeft ((todo t).length - s.done t) (s.mutex.threads t) (s.points t)

omit [Fintype ι] [DecidableEq ι] in
theorem stepsLeft_of_ne {n : ℕ} {q : Thread} (hq : q ≠ .holding) (r : Point α) :
    stepsLeft n q r = 4 * n := if_neg hq

omit [Fintype ι] [DecidableEq ι] in
theorem stepsLeft_holding (n : ℕ) (r : Point α) :
    stepsLeft n .holding r = 4 * n - r.passed := if_pos rfl

/-- A thread that makes a step does some of the work. -/
theorem work_lt {u : State ι α}
    (hother : ∀ t', t' ≠ t → u.done t' = s.done t' ∧ u.mutex.threads t' = s.mutex.threads t' ∧
      u.points t' = s.points t')
    (hlt : stepsLeft ((todo t).length - u.done t) (u.mutex.threads t) (u.points t) <
      stepsLeft ((todo t).length - s.done t) (s.mutex.threads t) (s.points t)) :
    work todo u < work todo s := by
  refine Finset.sum_lt_sum (fun t' _ ↦ ?_) ⟨t, Finset.mem_univ t, hlt⟩
  by_cases heq : t' = t
  · subst heq
    exact hlt.le
  · rw [(hother t' heq).1, (hother t' heq).2.1, (hother t' heq).2.2]

/-- A turn does some of the work, or it changes nothing but the point at which its thread is in
`lock`, and then a free mutex comes closer. -/
theorem Inv.work_turn (h : Inv todo a s) (t : ι) :
    work todo (Sections.turn todo s t) < work todo s ∨
      work todo (Sections.turn todo s t) = work todo s ∧ s.mutex.threads t ≠ .holding ∧
        (Sections.turn todo s t).mutex.flag = s.mutex.flag ∧
        (Sections.turn todo s t).done = s.done ∧
        (Sections.turn todo s t).mutex.threads =
          Function.update s.mutex.threads t ((Sections.turn todo s t).mutex.threads t) ∧
        (s.done t < (todo t).length → s.mutex.flag = false →
          distance ((Sections.turn todo s t).mutex.threads t) < distance (s.mutex.threads t)) := by
  have hturned := turned todo s t
  generalize Sections.turn todo s t = u at hturned ⊢
  cases hturned with
  | finished ht hdone =>
    exact Or.inr ⟨rfl, by rw [ht]; exact nofun, rfl, rfl, (Function.update_eq_self t _).symm,
      fun hlt ↦ absurd hlt (not_lt.mpr hdone)⟩
  | outside ht => exact absurd ht (h.never_tries t)
  | stuck ht hpoint hf =>
    have hmore := h.more t (by rw [ht]; exact nofun)
    rw [List.getElem?_eq_getElem hmore] at hf
    cases hf
  | @wait q ht hmore hq hidle htry hcloser =>
    refine Or.inr ⟨Finset.sum_congr rfl fun t' _ ↦ ?_, ht, rfl, rfl, ?_, fun _ hflag ↦ ?_⟩
    · by_cases heq : t' = t
      · subst heq
        rw [wait_threads, Function.update_self, stepsLeft_of_ne hq, stepsLeft_of_ne ht, wait_done]
      · rw [wait_threads, Function.update_of_ne heq, wait_done, wait_points]
    · rw [wait_threads, Function.update_self]
    · rw [wait_threads, Function.update_self]
      exact hcloser hflag
  | acquire ht hidle hflag =>
    refine Or.inl (work_lt (t := t) (fun t' ht' ↦ ⟨rfl, ?_, rfl⟩) ?_)
    · rw [acquire_threads, Function.update_of_ne ht']
    · have hmore := h.more t hidle
      rw [acquire_threads, Function.update_self, acquire_done, acquire_points, h.outside t ht,
        stepsLeft_of_ne ht, stepsLeft_holding, Point.passed]
      omega
  | load ht hpoint =>
    refine Or.inl (work_lt (t := t) (fun t' ht' ↦ ⟨rfl, rfl, ?_⟩) ?_)
    · rw [load_points, Function.update_of_ne ht']
    · have hmore := h.more t (by rw [ht]; exact nofun)
      rw [load_mutex, load_done, load_points, Function.update_self, ht, hpoint,
        stepsLeft_holding, stepsLeft_holding, Point.passed, Point.passed]
      omega
  | store ht hpoint hf =>
    refine Or.inl (work_lt (t := t) (fun t' ht' ↦ ⟨rfl, rfl, ?_⟩) ?_)
    · rw [store_points, Function.update_of_ne ht']
    · have hmore := h.more t (by rw [ht]; exact nofun)
      rw [store_mutex, store_done, store_points, Function.update_self, ht, hpoint,
        stepsLeft_holding, stepsLeft_holding, Point.passed, Point.passed]
      omega
  | leave ht hpoint =>
    have hmutex := leave_mutex ht
    refine Or.inl (work_lt (t := t) (fun t' ht' ↦ ⟨?_, ?_, ?_⟩) ?_)
    · rw [leave_done, Function.update_of_ne ht']
    · rw [hmutex, move_threads_of_ne ht']
    · rw [leave_points, Function.update_of_ne ht']
    · have hmore := h.more t (by rw [ht]; exact nofun)
      rw [hmutex, move_threads_self, leave_done, Function.update_self, ht, hpoint,
        stepsLeft_holding, stepsLeft_of_ne (q := .idle) nofun, Point.passed]
      omega

/-- A thread that makes the next step: the holder, or anyone with a section left. -/
def Helpful (todo : ι → List (α → α)) (s : State ι α) (t : ι) : Prop :=
  if s.mutex.flag then s.mutex.threads t = .holding else s.done t < (todo t).length

theorem Inv.exists_helpful (h : Inv todo a s) (hwork : work todo s ≠ 0) :
    ∃ t, Helpful todo s t := by
  obtain ⟨o, ho⟩ := h.owned
  cases hflag : s.mutex.flag with
  | true =>
    obtain ⟨t, rfl⟩ := Option.isSome_iff_exists.mp (ho.flag_eq.symm.trans hflag)
    exact ⟨t, by rw [Helpful, hflag, if_pos rfl]; exact (ho.holding_iff t).mpr rfl⟩
  | false =>
    obtain ⟨t, -, ht⟩ := Finset.exists_ne_zero_of_sum_ne_zero hwork
    refine ⟨t, ?_⟩
    rw [Helpful, hflag, if_neg Bool.false_ne_true]
    by_contra hdone
    refine ht ?_
    rw [Nat.sub_eq_zero_of_le (not_lt.mp hdone), stepsLeft]
    split <;> simp

theorem progress (todo : ι → List (α → α)) (a : α) :
    Progress (turn todo) (Inv todo a) (work todo) (Helpful todo)
      fun s t ↦ distance (s.mutex.threads t) where
  inv _ t h := h.turn t
  mono s t h := (h.work_turn t).elim le_of_lt fun hsame ↦ hsame.1.le
  exists_helpful _ h hwork := h.exists_helpful hwork
  stays s t u h ht heq := by
    obtain ⟨-, hu, hflag, hdone, hthreads, -⟩ := (h.work_turn u).resolve_left heq.not_lt
    rw [Helpful, hflag, hdone]
    rw [Helpful] at ht
    split at ht
    · next hset =>
      have htu : t ≠ u := fun heq ↦ hu (heq ▸ ht)
      rw [if_pos hset, hthreads, Function.update_of_ne htu]
      exact ht
    · next hclear =>
      rw [if_neg hclear]
      exact ht
  closer s t h ht heq := by
    obtain ⟨-, hholding, -, -, -, hcloser⟩ := (h.work_turn t).resolve_left heq.not_lt
    rw [Helpful] at ht
    split at ht
    · exact absurd ht hholding
    · next hclear => exact hcloser ht (Bool.not_eq_true _ ▸ hclear)
  keeps s t u h _ hut heq := by
    obtain ⟨-, -, -, -, hthreads, -⟩ := (h.work_turn u).resolve_left heq.not_lt
    rw [hthreads, Function.update_of_ne (Ne.symm hut)]

theorem Inv.finished (h : Inv todo a s) (hwork : work todo s = 0) : Finished todo s := by
  intro t
  have ht := Finset.sum_eq_zero_iff.mp hwork t (Finset.mem_univ t)
  have hle := h.done_le t
  have hdone : s.done t = (todo t).length := by
    by_contra hne
    have hpassed : (s.points t).passed ≤ 3 := by
      cases s.points t <;> simp [Point.passed]
    rw [stepsLeft] at ht
    split at ht <;> omega
  refine ⟨by_contra fun hidle ↦ ?_, hdone⟩
  exact absurd (h.more t hidle) (by omega)

end Work

/-- **Every section is finished.** Under every schedule that keeps giving turns to all threads, all
of them come to the end of their sections, although nobody is sure to get a mutex for which others
compete. The variable then holds what all the updates make of its first value in some order that
keeps the order of each thread. -/
theorem sections_end [Fintype ι] (todo : ι → List (α → α)) (a : α) {schedule : ℕ → ι}
    (hfair : Fair schedule) : ∃ m, ∀ k, m ≤ k →
      let s := play (turn todo) (init a) (firstTurns schedule k)
      Finished todo s ∧ s.shared = apply a s.updates ∧ Merge todo s.updates := by
  obtain ⟨m, hm⟩ := (progress todo a).fair (.init todo a) hfair
  refine ⟨m, fun k hk ↦ ?_⟩
  intro s
  have h : Inv todo a s := Inv.play todo a _
  have hf : Finished todo s := h.finished (hm k hk)
  have hall : (fun t ↦ (todo t).take (s.stored t)) = todo := by
    funext t
    have houtside : s.points t = .load := h.outside t (by rw [(hf t).1]; exact nofun)
    rw [State.stored, houtside, (hf t).2]
    exact List.take_length
  exact ⟨hf, h.value, hall ▸ h.merge⟩

/-- Two threads that take turns count to 5. -/
theorem sections_end_count : ∃ m, ∀ k, m ≤ k →
    (play (turn fun p : Bool ↦ List.replicate (cond p 2 3) fun x : ℕ ↦ x + 1) (init 0)
      (firstTurns (fun m ↦ decide (m % 2 = 0)) k)).shared = 5 := by
  have hfair : Fair fun m ↦ decide (m % 2 = 0) := by
    intro p n
    cases p with
    | false => exact ⟨2 * n + 1, by omega, by simp⟩
    | true => exact ⟨2 * n, by omega, by simp⟩
  obtain ⟨m, hm⟩ := sections_end
    (fun p : Bool ↦ List.replicate (cond p 2 3) fun x : ℕ ↦ x + 1) 0 hfair
  refine ⟨m, fun k hk ↦ ?_⟩
  obtain ⟨-, hshared, hmerge⟩ := hm k hk
  have hlength := hmerge.length_eq_sum
  have hsucc : ∀ f ∈ (play (turn fun p : Bool ↦ List.replicate (cond p 2 3) fun x : ℕ ↦ x + 1)
      (init 0) (firstTurns (fun m ↦ decide (m % 2 = 0)) k)).updates, f = fun x ↦ x + 1 := by
    intro f hf
    have hsum := Multiset.mem_coe.mpr hf
    rw [hmerge.coe_eq_sum] at hsum
    obtain ⟨p, -, hp⟩ := Multiset.mem_sum.mp hsum
    exact List.eq_of_mem_replicate hp
  rw [hshared, List.eq_replicate_of_mem hsucc, hlength]
  rfl

end Sections

end FastInAHurry
