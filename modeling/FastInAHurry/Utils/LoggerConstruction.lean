import FastInAHurry.Utils.Flushing

/-!
# The logger while it is constructed

`m_consumer_thread` is declared before `m_queues`, so the consumer runs while the constructor still
has to initialise the list of queues and to reserve its memory, and the constructor does neither
under `m_queues_mutex`. The copy that the consumer takes under the mutex can meet the list
uninitialised, or between two stores of `reserve`.

The copy is a read of several words here, with a beginning and an end; the rest of the logger makes
its own steps. It cannot be told from where the constructor stands whether a copy
will be a good one: once the consumer has passed its loop test, a schedule can always hold the
constructor back, or let it go on, until the copy meets an unready list. What helps is that the
consumer does not come to its first test before the constructor has returned.
-/

namespace FastInAHurry

open Runs

namespace SPSCLogger

/-- The accesses of `reserve` to an unallocated vector, in order. -/
inductive Reserve where
  | testBegin
  | allocate
  | storeBegin
  | storeEnd
  | storeCap
deriving DecidableEq, Repr

/-- What the constructor does next. -/
inductive Constructor where
  | initQueuesMutex
  | initConsumerThread
  | initQueues
  | reserve (r : Reserve)
  | returned
deriving DecidableEq, Repr

namespace Constructor

/-- The members in the order of their declaration, and then the body. -/
def next : Constructor → Option Constructor
  | initQueuesMutex => some initConsumerThread
  | initConsumerThread => some initQueues
  | initQueues => some (reserve .testBegin)
  | reserve .testBegin => some (reserve .allocate)
  | reserve .allocate => some (reserve .storeBegin)
  | reserve .storeBegin => some (reserve .storeEnd)
  | reserve .storeEnd => some (reserve .storeCap)
  | reserve .storeCap => some returned
  | returned => none

/-- The thread of the consumer runs. -/
def consumerStarted : Constructor → Bool
  | initQueuesMutex | initConsumerThread => false
  | _ => true

/-- `m_queues` is initialised, and `reserve` has not begun or has ended. -/
def queuesReady : Constructor → Bool
  | reserve .testBegin | returned => true
  | _ => false

end Constructor

structure Construction (ι R : Type*) where
  constructor : Constructor
  /-- The consumer is inside `q_snapshot = m_queues`. -/
  copying : Bool
  logger : State ι R

inductive ConstructionEvent (ι R : Type*) where
  | constructor
  | beginCopy
  | logger (e : Event ι R)

variable {ι R : Type*} [DecidableEq ι]

def Construction.init : Construction ι R where
  constructor := .initQueuesMutex
  copying := false
  logger := SPSCLogger.init

omit [DecidableEq ι] in
/-- The consumer runs from the start of its thread on; all others get the logger when the
constructor has returned. The copy is taken under the mutex. -/
def Construction.permits (s : Construction ι R) : Event ι R → Bool
  | .consumer .takeSnapshot => s.copying
  | .consumer _ => s.constructor.consumerStarted
  | .registerThread _ => s.constructor = .returned && !s.copying
  | .push .. | .destructor _ => s.constructor = .returned

omit [DecidableEq ι] in
/-- The event ends the copy. -/
def Event.endsCopy : Event ι R → Bool
  | .consumer .takeSnapshot => true
  | _ => false

/-- One event of the constructor or of any thread of the logger. -/
def constructionStep (s : Construction ι R) : ConstructionEvent ι R → Option (Construction ι R)
  | .constructor => s.constructor.next.map fun c ↦ { s with constructor := c }
  | .beginCopy =>
    match s.logger.consumer with
    | .takeSnapshot => if s.copying then none else some { s with copying := true }
    | _ => none
  | .logger e =>
    if s.permits e then
      (step s.logger e).map fun l ↦ { s with copying := s.copying && !e.endsCopy, logger := l }
    else none

omit [DecidableEq ι] in
/-- The consumer is not copying a list of queues that is not ready. -/
def CopiesReady (s : Construction ι R) : Prop :=
  s.copying = true → s.constructor.queuesReady = true

omit [DecidableEq ι] in
/-- If the event is a loop test of the consumer, the constructor has returned. -/
def TestsReturned (s : Construction ι R) (e : ConstructionEvent ι R) : Prop :=
  e = .logger (.consumer .testStop) → s.constructor = .returned

omit [DecidableEq ι] in
instance (s : Construction ι R) : ∀ e, Decidable (TestsReturned s e)
  | .logger (.consumer .testStop) =>
    decidable_of_iff (s.constructor = .returned) ⟨fun h _ ↦ h, fun h ↦ h rfl⟩
  | .logger (.consumer .takeSnapshot) | .logger (.consumer .nextQueue)
  | .logger (.consumer (.queue _)) | .logger (.consumer .flush) => isTrue (by simp [TestsReturned])
  | .logger (.registerThread _) | .logger (.push ..) | .logger (.destructor _)
  | .constructor | .beginCopy => isTrue (by simp [TestsReturned])

variable {s t : Construction ι R} {l : State ι R} {e : Event ι R}

/-! ## What a step can do -/

theorem constructor_step (hst : constructionStep s .constructor = some t) :
    s.constructor ≠ .returned ∧ ∃ c, s.constructor.next = some c ∧
      t = { s with constructor := c } := by
  obtain ⟨c, hc, rfl⟩ := Option.map_eq_some_iff.mp hst
  refine ⟨fun hret ↦ ?_, c, hc, rfl⟩
  rw [hret] at hc
  cases hc

theorem beginCopy_step (hst : constructionStep s .beginCopy = some t) :
    s.logger.consumer = .takeSnapshot ∧ t = { s with copying := true } := by
  simp only [constructionStep] at hst
  split at hst <;> try contradiction
  next hc =>
    split at hst <;> try contradiction
    exact ⟨hc, (Option.some.inj hst).symm⟩

theorem logger_step (hst : constructionStep s (.logger e) = some t) :
    s.permits e = true ∧ ∃ l, step s.logger e = some l ∧
      t = { s with copying := s.copying && !e.endsCopy, logger := l } := by
  simp only [constructionStep] at hst
  split at hst <;> try contradiction
  next hp =>
    obtain ⟨l, hl, rfl⟩ := Option.map_eq_some_iff.mp hst
    exact ⟨hp, l, hl, rfl⟩

omit [DecidableEq ι] in
/-- Before the constructor has returned, only the consumer moves. -/
theorem consumer_of_permits (hp : s.permits e = true) (hret : s.constructor ≠ .returned) :
    ∃ c, e = .consumer c := by
  cases e with
  | consumer c => exact ⟨c, rfl⟩
  | registerThread i | push i e | destructor e => simp [Construction.permits, hret] at hp

/-- Whatever the constructor does meanwhile, the threads make a run of the logger. -/
theorem reachable_logger (hr : Reachable constructionStep Construction.init s) :
    Reachable step SPSCLogger.init s.logger := by
  refine hr.invariant (P := fun s ↦ Reachable step SPSCLogger.init s.logger) ?_ (Reachable.refl _)
  intro s e t h hst
  cases e with
  | constructor =>
    obtain ⟨-, c, -, rfl⟩ := constructor_step hst
    exact h
  | beginCopy =>
    obtain ⟨-, rfl⟩ := beginCopy_step hst
    exact h
  | logger e =>
    obtain ⟨-, l, hl, rfl⟩ := logger_step hst
    exact h.tail hl

/-! ## Loop tests after the constructor -/

omit [DecidableEq ι] in
/-- As long as the constructor has not returned, the consumer is before its first loop test. -/
structure Waits (s : Construction ι R) : Prop where
  copying_eq : s.constructor ≠ .returned → s.copying = false
  logger_eq : s.constructor ≠ .returned → s.logger = SPSCLogger.init

omit [DecidableEq ι] in
theorem Waits.init : Waits (Construction.init : Construction ι R) where
  copying_eq _ := rfl
  logger_eq _ := rfl

theorem step_init_consumer {c : ConsumerEvent}
    (hst : step (SPSCLogger.init : State ι R) (.consumer c) = some l) : c = .testStop := by
  cases c with
  | testStop => rfl
  | _ => cases hst

theorem Waits.step (h : Waits s) {e : ConstructionEvent ι R} (htests : TestsReturned s e)
    (hst : constructionStep s e = some t) : Waits t := by
  cases e with
  | constructor =>
    obtain ⟨hret, c, -, rfl⟩ := constructor_step hst
    exact ⟨fun _ ↦ h.copying_eq hret, fun _ ↦ h.logger_eq hret⟩
  | beginCopy =>
    obtain ⟨hc, rfl⟩ := beginCopy_step hst
    have hret : s.constructor = .returned := by
      by_contra hret
      rw [h.logger_eq hret] at hc
      cases hc
    exact ⟨fun hne ↦ absurd hret hne, fun hne ↦ absurd hret hne⟩
  | logger e =>
    obtain ⟨hp, l, hl, rfl⟩ := logger_step hst
    -- before that only the consumer moves, and its first event is the loop test
    have hret : s.constructor = .returned := by
      by_contra hret
      obtain ⟨c, rfl⟩ := consumer_of_permits hp hret
      rw [h.logger_eq hret] at hl
      obtain rfl := step_init_consumer hl
      exact hret (htests rfl)
    exact ⟨fun hne ↦ absurd hret hne, fun hne ↦ absurd hret hne⟩

omit [DecidableEq ι] in
theorem Waits.copiesReady (h : Waits s) : CopiesReady s := by
  intro hcopying
  by_cases hret : s.constructor = .returned
  · rw [hret]
    rfl
  · rw [h.copying_eq hret] at hcopying
    cases hcopying

/-! ## A loop test before the constructor has returned -/

omit [DecidableEq ι] in
/-- What holds in every run: the consumer copies where it takes its snapshot, and nobody asks it to
stop before the constructor has returned. -/
structure Unstopped (s : Construction ι R) : Prop where
  takes : s.copying = true → s.logger.consumer = .takeSnapshot
  stop : s.constructor ≠ .returned → s.logger.stopRequested = false

omit [DecidableEq ι] in
theorem Unstopped.init : Unstopped (Construction.init : Construction ι R) where
  takes h := by cases h
  stop _ := rfl

theorem stopRequested_of_consumerMove {s t : State ι R} (hm : ConsumerMove s t) :
    t.stopRequested = s.stopRequested := by
  cases hm <;> rfl

/-- Nothing but the end of the copy takes the consumer on from its snapshot. -/
theorem takeSnapshot_of_step {s t : State ι R} (hst : step s e = some t)
    (hc : s.consumer = .takeSnapshot) (hends : e.endsCopy = false) :
    t.consumer = .takeSnapshot := by
  cases e with
  | consumer c =>
    cases c with
    | takeSnapshot => cases hends
    | _ => simp [step, consumerStep, hc] at hst
  | registerThread i =>
    simp only [step] at hst
    split at hst <;> try contradiction
    exact Option.some.inj hst ▸ hc
  | push i e =>
    simp only [step] at hst
    split at hst <;> try contradiction
    obtain ⟨q, -, rfl⟩ := Option.map_eq_some_iff.mp hst
    exact hc
  | destructor e =>
    cases e with
    | requestStop => rw [(eq_of_requestStop hst).2, hc]
    | join => simp [step, destructorStep, hc] at hst

theorem Unstopped.step (h : Unstopped s) {e : ConstructionEvent ι R}
    (hst : constructionStep s e = some t) : Unstopped t := by
  cases e with
  | constructor =>
    obtain ⟨hret, c, -, rfl⟩ := constructor_step hst
    exact ⟨h.takes, fun _ ↦ h.stop hret⟩
  | beginCopy =>
    obtain ⟨hc, rfl⟩ := beginCopy_step hst
    exact ⟨fun _ ↦ hc, h.stop⟩
  | logger e =>
    obtain ⟨hp, l, hl, rfl⟩ := logger_step hst
    refine ⟨fun hcopying ↦ ?_, fun hret ↦ ?_⟩
    · obtain ⟨hcopying, hends⟩ := Bool.and_eq_true_iff.mp hcopying
      exact takeSnapshot_of_step hl (h.takes hcopying) (Bool.not_eq_true' _ ▸ hends)
    · obtain ⟨c, rfl⟩ := consumer_of_permits hp hret
      exact (stopRequested_of_consumerMove (consumerMove_of_step hl)).trans (h.stop hret)

/-- Nobody asks a consumer to stop before the constructor has returned, so it goes on to a copy. -/
theorem takeSnapshot_of_testStop (h : Unstopped s)
    (hret : s.constructor ≠ .returned)
    (hst : constructionStep s (.logger (.consumer .testStop)) = some t) :
    t.constructor = s.constructor ∧ t.copying = false ∧ t.logger.consumer = .takeSnapshot := by
  obtain ⟨-, l, hl, rfl⟩ := logger_step hst
  simp only [step, consumerStep, h.stop hret] at hl
  split at hl <;> try contradiction
  next hc =>
    obtain rfl := Option.some.inj hl
    refine ⟨rfl, ?_, rfl⟩
    by_contra hcopying
    obtain ⟨hcopying, -⟩ := Bool.and_eq_true_iff.mp (Bool.eq_true_of_not_eq_false hcopying)
    rw [h.takes hcopying] at hc
    cases hc

/-- The copy of a consumer that has passed its loop test can meet a list that is not ready. -/
theorem exists_copy_unready (hret : t.constructor ≠ .returned) (hcopying : t.copying = false)
    (hc : t.logger.consumer = .takeSnapshot) :
    ∃ es u, exec constructionStep t es = some u ∧ ¬CopiesReady u := by
  have hbegin : constructionStep t .beginCopy = some { t with copying := true } := by
    simp [constructionStep, hc, hcopying]
  cases hready : t.constructor.queuesReady with
  | false =>
    -- not initialised yet, or inside `reserve`: the copy may begin at once
    refine ⟨[.beginCopy], _, exec_cons_eq_some.mpr ⟨_, hbegin, rfl⟩, fun h ↦ ?_⟩
    rw [show t.constructor.queuesReady = true from h rfl] at hready
    cases hready
  | true =>
    -- `reserve` is next, and its first step is made within the copy
    have hpoint : t.constructor = .reserve .testBegin := by
      generalize t.constructor = c at hret hready
      cases c with
      | reserve r => cases r <;> first | rfl | cases hready
      | returned => exact absurd rfl hret
      | _ => cases hready
    have hnext : constructionStep { t with copying := true } .constructor =
        some { t with copying := true, constructor := .reserve .allocate } := by
      simp [constructionStep, hpoint, Constructor.next]
    refine ⟨[.beginCopy, .constructor], _, exec_cons_eq_some.mpr ⟨_, hbegin,
      exec_cons_eq_some.mpr ⟨_, hnext, rfl⟩⟩, fun h ↦ ?_⟩
    cases h rfl

/-- **When the consumer copies only a list that is ready**, over all interleavings of the
constructor with the consumer and, once it has returned, with all other threads. In every run in
which the consumer makes no loop test before the constructor has returned, every copy meets the list
of queues initialised and never between two steps of `reserve`. And from every earlier loop test a
schedule leads to a copy of a list that is not ready. -/
theorem copies_ready_of_tests_returned :
    (∀ (es : List (ConstructionEvent ι R)) (s : Construction ι R),
      exec constructionStep Construction.init es = some s →
      Along constructionStep TestsReturned Construction.init es → CopiesReady s) ∧
    ∀ (es : List (ConstructionEvent ι R)) (s t : Construction ι R),
      exec constructionStep Construction.init es = some s →
      constructionStep s (.logger (.consumer .testStop)) = some t → s.constructor ≠ .returned →
      ∃ es' u, exec constructionStep t es' = some u ∧ ¬CopiesReady u := by
  refine ⟨fun es s hexec htests ↦ ?_, fun es s t hexec hst hret ↦ ?_⟩
  · exact (htests.invariant (fun s e t h he hst ↦ h.step he hst) Waits.init hexec).copiesReady
  · have h : Unstopped s := exec_invariant (fun s e t h hst ↦ h.step hst) Unstopped.init hexec
    obtain ⟨hsame, hcopying, hc⟩ := takeSnapshot_of_testStop h hret hst
    exact exists_copy_unready (hsame ▸ hret) hcopying hc

/-- A consumer whose thread begins late copies the list when the constructor has returned; one that
has passed its loop test before can meet a list that is not ready. -/
theorem copies_ready_of_tests_returned_late :
    (∃ s : Construction Unit ℕ, exec constructionStep Construction.init
        (List.replicate 8 .constructor ++ [.logger (.consumer .testStop), .beginCopy]) = some s ∧
      s.copying = true ∧ CopiesReady s) ∧
    ∃ t : Construction Unit ℕ, exec constructionStep Construction.init
        [.constructor, .constructor, .constructor, .logger (.consumer .testStop)] = some t ∧
      ∃ es u, exec constructionStep t es = some u ∧ ¬CopiesReady u := by
  obtain ⟨hready, hearly⟩ := copies_ready_of_tests_returned (ι := Unit) (R := ℕ)
  refine ⟨⟨_, rfl, rfl, ?_⟩, _, rfl, ?_⟩
  · exact hready (List.replicate 8 .constructor ++ [.logger (.consumer .testStop), .beginCopy]) _
      rfl (by decide +kernel)
  · exact hearly [.constructor, .constructor, .constructor] _ _ rfl rfl (by decide +kernel)

/-- The consumer gets ahead of the constructor: it copies the list before it is initialised. -/
theorem copy_uninitialised : ∃ s : Construction Unit ℕ,
    exec constructionStep Construction.init
      [.constructor, .constructor, .logger (.consumer .testStop), .beginCopy] = some s ∧
    s.constructor = .initQueues ∧ s.copying = true ∧ ¬CopiesReady s := by
  refine ⟨_, rfl, rfl, rfl, fun h ↦ ?_⟩
  cases h rfl

end SPSCLogger

end FastInAHurry
