import FastInAHurry.Utils.LogProgram

/-!
# A program that logs comes to its end

Under every fair schedule all threads return from all their calls of the logger, the destructor
requests the stop, and `join` returns.

## The work left

A call of `_log` takes at most six accesses, so the threads come to their end whatever the consumer
does; until then it goes round its loop, and this counts for nothing. After the stop request nobody
pushes. What is left to the consumer is then bounded by what is in the queues, with the queues that
it has still to visit: of the round that it is in, of the one after a snapshot that may still come,
and of the final one. The bound is set aside before the request, so that the request itself is
progress.
-/

namespace FastInAHurry

open RingIndex SPSCLogger Turns

namespace LogProgram

variable {ι R : Type*} [DecidableEq ι] [Fintype ι] {todo : ι → List R} {s : State ι R} {i : ι}

/-! ## What is left to a thread -/

/-- The accesses of `push` that a thread has made. -/
def begun : SPSCQueue.Producer R → ℕ
  | .emplaceLoadHead _ => 1
  | .emplaceLoadTail _ _ => 2
  | .emplaceTest _ _ _ => 3
  | .emplaceStore _ _ => 4
  | .idle | .observing _ => 0

/-- Its registration and its calls. -/
def threadLeft (todo : ι → List R) (s : State ι R) (i : ι) : ℕ :=
  (if i ∈ s.logger.mQueues ∨ (todo i).isEmpty then 0 else 1) +
    (6 * ((todo i).length - s.called i) - begun (s.logger.queues i).producer)

theorem begun_le (p : SPSCQueue.Producer R) : begun p ≤ 4 := by
  cases p <;> simp [begun]

theorem Pushed.begun_lt {next : Option R} {q q' : SPSCQueue.State R} {n : ℕ}
    (h : Pushed next q n q') : begun q.producer < begun q'.producer + 6 * n := by
  cases h with
  | emplace hp | loadHead hp | loadTail hp | full hp | construct hp | store hp =>
    rw [hp]
    simp [begun]

omit [Fintype ι] in
theorem threadLeft_congr {u : State ι R} (hqueues : u.logger.mQueues = s.logger.mQueues)
    (hcalled : u.called i = s.called i)
    (hproducer : (u.logger.queues i).producer = (s.logger.queues i).producer) :
    threadLeft todo u i = threadLeft todo s i := by
  rw [threadLeft, threadLeft, hqueues, hcalled, hproducer]

theorem Inv.threadLeft_eq_zero (h : Inv todo s) (hended : s.called i = (todo i).length) :
    threadLeft todo s i = 0 := by
  have hregistered : i ∈ s.logger.mQueues ∨ (todo i).isEmpty := by
    by_cases hi : i ∈ s.logger.mQueues
    · exact .inl hi
    · exact .inr (List.isEmpty_iff.mpr (h.nil_of_ended hi hended))
  rw [threadLeft, if_pos hregistered, hended, Nat.sub_self, Nat.mul_zero, Nat.zero_sub]

/-- The sum over the threads of which one does something. -/
theorem sum_threadLeft_lt {u : State ι R} (hlt : threadLeft todo u i < threadLeft todo s i)
    (hother : ∀ j, j ≠ i → threadLeft todo u j = threadLeft todo s j) :
    ∑ j, threadLeft todo u j < ∑ j, threadLeft todo s j := by
  have hsum := Census.sum_add_eq_of_ne hother
  omega

theorem Inv.push_lt (h : Inv todo s) {n : ℕ} {q : SPSCQueue.State R} (hi : i ∈ s.logger.mQueues)
    (hpushed : Pushed (todo i)[s.called i]? (s.logger.queues i) n q) :
    ∑ j, threadLeft todo { s with
        logger := s.logger.setQueue i q
        called := Function.update s.called i (s.called i + n) } j <
      ∑ j, threadLeft todo s j := by
  have hle := ((h.thread i).pushed (h.logger.queue i) hpushed).le
  have hlt := hpushed.begun_lt
  have hbegun := begun_le (s.logger.queues i).producer
  have hended : s.called i ≠ (todo i).length := fun hended ↦ h.not_pushed_of_ended hended hpushed
  have hn := (h.thread i).le
  refine sum_threadLeft_lt (i := i) ?_ fun j hj ↦ threadLeft_congr rfl ?_ ?_
  · simp only [threadLeft, SPSCLogger.State.setQueue, Function.update_self, hi, true_or, if_true]
    omega
  · exact Function.update_of_ne hj ..
  · show ((s.logger.setQueue i q).queues j).producer = _
    rw [SPSCLogger.State.setQueue]
    exact congrArg SPSCQueue.State.producer (Function.update_of_ne hj ..)

omit [Fintype ι] in
/-- The registration of another thread does not matter. -/
theorem threadLeft_register_of_ne {j : ι} (hj : j ≠ i) :
    threadLeft todo
        { s with logger := { s.logger with mQueues := s.logger.mQueues ++ [i] } } j =
      threadLeft todo s j := by
  have hmem : j ∈ s.logger.mQueues ++ [i] ↔ j ∈ s.logger.mQueues := by
    rw [List.mem_append, List.mem_singleton, or_iff_left hj]
  simp only [threadLeft, hmem]

theorem register_lt (hi : i ∉ s.logger.mQueues) (hne : todo i ≠ []) :
    ∑ j, threadLeft todo
        { s with logger := { s.logger with mQueues := s.logger.mQueues ++ [i] } } j <
      ∑ j, threadLeft todo s j := by
  have hbefore : ¬(i ∈ s.logger.mQueues ∨ (todo i).isEmpty = true) := fun hor ↦
    hor.elim hi fun hempty ↦ hne (List.isEmpty_iff.mp hempty)
  have hafter : i ∈ s.logger.mQueues ++ [i] := List.mem_append_right _ (List.mem_singleton_self i)
  refine sum_threadLeft_lt (i := i) ?_ fun j hj ↦ threadLeft_register_of_ne hj
  simp only [threadLeft, if_neg hbefore, hafter, true_or, if_true]
  omega

/-! ## What is left to the consumer -/

section Consumer

variable {l l' : SPSCLogger.State ι R} {final : Bool} {rest : List ι} {q : SPSCQueue.State R}
  {e : SPSCQueue.ConsumerEvent}

/-- The accesses left in a `pop`, or in one that begins now. -/
def popLeft : SPSCQueue.Consumer R → ℕ
  | .idle | .observing _ => 5
  | .popLoadTail => 4
  | .popLoadHead _ => 3
  | .popTest _ _ => 2
  | .popDestroy _ _ => 1
  | .popStore _ _ => 0

/-- The records in the queues. -/
def unread (l : SPSCLogger.State ι R) : ℕ :=
  ∑ i, ((l.queues i).accepted.length - (l.queues i).delivered.length)

/-- The final round, if the consumer is not in it yet. -/
def finalLeft (l : SPSCLogger.State ι R) (final : Bool) : ℕ :=
  if final then 0 else 8 * l.qSnapshot.length + 3

/-- The queues left to visit. -/
def visitsLeft (l : SPSCLogger.State ι R) : Consumer ι → ℕ
  | .testStop => 8 * l.qSnapshot.length + 2
  | .takeSnapshot => 16 * l.mQueues.length + 8
  | .nextQueue final rest => 8 * rest.length + 1 + finalLeft l final
  | .pop final i rest => 8 * rest.length + 3 + popLeft (l.queues i).consumer + finalLeft l final
  | .flushFull final _ rest => 8 * rest.length + 9 + finalLeft l final
  | .flushRest final _ rest => 8 * rest.length + 2 + finalLeft l final
  | .exited => 0

/-- What is left to do after a stop request, where each record still in a queue counts for a call of
`pop`. -/
def drainLeft (l : SPSCLogger.State ι R) : ℕ := 8 * unread l + visitsLeft l l.consumer

theorem popLeft_le (p : SPSCQueue.Consumer R) : popLeft p ≤ 5 := by
  cases p <;> simp [popLeft]

theorem unread_setQueue (l : SPSCLogger.State ι R) (i : ι) (q : SPSCQueue.State R) :
    unread (l.setQueue i q) + ((l.queues i).accepted.length - (l.queues i).delivered.length) =
      unread l + (q.accepted.length - q.delivered.length) := by
  have hsum := Census.sum_add_eq_of_ne (i := i)
    (f := fun j ↦ (l.queues j).accepted.length - (l.queues j).delivered.length)
    (g := fun j ↦ ((l.setQueue i q).queues j).accepted.length
      - ((l.setQueue i q).queues j).delivered.length) fun j hj ↦ by
        rw [SPSCLogger.State.setQueue]
        dsimp only
        rw [Function.update_of_ne hj]
  simp only [SPSCLogger.State.setQueue, Function.update_self] at hsum
  exact hsum

theorem unread_setQueue_of_eq (haccepted : q.accepted = (l.queues i).accepted)
    (hdelivered : q.delivered = (l.queues i).delivered) : unread (l.setQueue i q) = unread l := by
  have hunread := unread_setQueue l i q
  rw [haccepted, hdelivered] at hunread
  omega

/-- An access of a `pop` that goes on. -/
theorem drainLeft_inPop_lt (hp : l.consumer = .pop final i rest)
    (haccepted : q.accepted = (l.queues i).accepted)
    (hdelivered : q.delivered = (l.queues i).delivered)
    (hless : popLeft q.consumer < popLeft (l.queues i).consumer) :
    drainLeft (l.setQueue i q) < drainLeft l := by
  have hunread := unread_setQueue_of_eq haccepted hdelivered
  have hp' : (l.setQueue i q).consumer = .pop final i rest := hp
  have hqueue : (l.setQueue i q).queues i = q := Function.update_self ..
  have hfinal : finalLeft (l.setQueue i q) final = finalLeft l final := rfl
  rw [drainLeft, drainLeft, hunread, hp, hp', visitsLeft, visitsLeft, hqueue, hfinal]
  omega

/-- A `pop` that finds its queue empty. -/
theorem drainLeft_empty_lt (hp : l.consumer = .pop final i rest)
    (haccepted : q.accepted = (l.queues i).accepted)
    (hdelivered : q.delivered = (l.queues i).delivered) :
    drainLeft { l.setQueue i q with consumer := .flushRest final i rest } < drainLeft l := by
  have hunread : unread { l.setQueue i q with consumer := .flushRest final i rest } = unread l :=
    unread_setQueue_of_eq haccepted hdelivered
  have hfinal : finalLeft { l.setQueue i q with consumer := .flushRest final i rest } final
      = finalLeft l final := rfl
  rw [drainLeft, drainLeft, hunread, hp, visitsLeft, visitsLeft, hfinal]
  omega

/-- A `pop` that takes a record, which is the last one of a full list or not. -/
theorem drainLeft_store_lt {out : R} (hp : l.consumer = .pop final i rest)
    (haccepted : q.accepted = (l.queues i).accepted)
    (hdelivered : q.delivered = (l.queues i).delivered ++ [out])
    (hmore : (l.queues i).delivered.length < (l.queues i).accepted.length)
    (hidle : q.consumer = .idle) :
    drainLeft ((l.setQueue i q).store final i rest out) < drainLeft l := by
  have hunread := unread_setQueue l i q
  rw [haccepted, hdelivered, List.length_append, List.length_singleton] at hunread
  have hsame : unread ((l.setQueue i q).store final i rest out) = unread (l.setQueue i q) := rfl
  have hqueue : ((l.setQueue i q).store final i rest out).queues i = q := Function.update_self ..
  have hfinal : finalLeft ((l.setQueue i q).store final i rest out) final = finalLeft l final := rfl
  have hpop := popLeft_le (l.queues i).consumer
  rw [drainLeft, drainLeft, hsame, hp, visitsLeft]
  rcases store_consumer (l.setQueue i q) final i rest out with hc | hc
  · rw [hc, visitsLeft, hfinal]
    omega
  · rw [hc, visitsLeft, hfinal, hqueue, hidle, popLeft]
    omega

/-- An access of `pop`, of whatever kind. -/
theorem drainLeft_queue_lt (hinv : SPSCQueue.Inv queueSize (l.queues i))
    (hp : l.consumer = .pop final i rest) (he : popEvent (l.queues i).consumer = some e)
    (hq : SPSCQueue.consumerStep queueSize (l.queues i) e = some q) :
    drainLeft ((l.setQueue i q).afterPop final i rest e (l.queues i).consumer) < drainLeft l := by
  cases hpop : (l.queues i).consumer with
  | idle | popLoadTail | popLoadHead tail | popDestroy out tail =>
    rw [hpop] at he
    obtain rfl := Option.some.inj he
    simp only [SPSCQueue.consumerStep, hpop] at hq
    obtain rfl := Option.some.inj hq
    exact drainLeft_inPop_lt hp rfl rfl (by rw [hpop]; simp [popLeft])
  | popTest tail head =>
    rw [hpop] at he
    obtain rfl := Option.some.inj he
    by_cases hempty : head = tail
    · simp only [SPSCQueue.consumerStep, hpop, if_pos hempty] at hq ⊢
      obtain rfl := Option.some.inj hq
      exact drainLeft_empty_lt hp rfl rfl
    · simp only [SPSCQueue.consumerStep, hpop, if_neg hempty] at hq ⊢
      obtain ⟨out, -, rfl⟩ := Option.map_eq_some_iff.mp hq
      exact drainLeft_inPop_lt hp rfl rfl (by rw [hpop]; simp [popLeft])
  | popStore out tail =>
    rw [hpop] at he
    obtain rfl := Option.some.inj he
    simp only [SPSCQueue.consumerStep, hpop] at hq
    obtain rfl := Option.some.inj hq
    have hok := hinv.consumer_ok
    rw [hpop] at hok
    exact drainLeft_store_lt hp rfl rfl (List.getElem?_eq_some_iff.mp hok.2).1 rfl
  | observing o =>
    rw [hpop] at he
    cases he

/-- **After the stop request every step of the consumer is progress.** -/
theorem drainLeft_lt (hinv : SPSCLogger.Inv l) (hstop : l.stopRequested = true)
    {e : SPSCLogger.ConsumerEvent} (he : consumerEvent l = some e)
    (hst : consumerStep l e = some l') : drainLeft l' < drainLeft l := by
  cases hp : l.consumer with
  | testStop =>
    rw [consumerEvent, hp] at he
    obtain rfl := Option.some.inj he
    simp only [consumerStep, hp, hstop, if_true] at hst
    obtain rfl := Option.some.inj hst
    simp only [drainLeft, unread, hp, visitsLeft, finalLeft, if_true]
    omega
  | takeSnapshot =>
    rw [consumerEvent, hp] at he
    obtain rfl := Option.some.inj he
    simp only [consumerStep, hp] at hst
    obtain rfl := Option.some.inj hst
    simp only [drainLeft, unread, hp, visitsLeft, finalLeft, Bool.false_eq_true, if_false]
    omega
  | nextQueue final rest =>
    rw [consumerEvent, hp] at he
    obtain rfl := Option.some.inj he
    cases rest with
    | cons i rest =>
      simp only [consumerStep, hp] at hst
      obtain rfl := Option.some.inj hst
      have hpop := popLeft_le (l.queues i).consumer
      simp only [drainLeft, unread, hp, visitsLeft, finalLeft, List.length_cons]
      omega
    | nil =>
      cases final with
      | false =>
        simp only [consumerStep, hp] at hst
        obtain rfl := Option.some.inj hst
        simp only [drainLeft, unread, hp, visitsLeft, finalLeft, Bool.false_eq_true, if_false]
        omega
      | true =>
        simp only [consumerStep, hp] at hst
        obtain rfl := Option.some.inj hst
        simp only [drainLeft, unread, hp, visitsLeft]
        omega
  | pop final i rest =>
    rw [consumerEvent, hp] at he
    obtain ⟨e, hpop, rfl⟩ := Option.map_eq_some_iff.mp he
    simp only [consumerStep, hp] at hst
    split at hst
    · obtain ⟨q, hq, rfl⟩ := Option.map_eq_some_iff.mp hst
      exact drainLeft_queue_lt (hinv.queue i) hp hpop hq
    · cases hst
  | flushFull final i rest =>
    rw [consumerEvent, hp] at he
    obtain rfl := Option.some.inj he
    simp only [consumerStep, hp] at hst
    obtain rfl := Option.some.inj hst
    have hpop := popLeft_le (l.queues i).consumer
    simp only [drainLeft, unread, hp, visitsLeft, finalLeft, State.flush]
    omega
  | flushRest final i rest =>
    rw [consumerEvent, hp] at he
    obtain rfl := Option.some.inj he
    simp only [consumerStep, hp] at hst
    split at hst <;> obtain rfl := Option.some.inj hst <;>
      simp only [drainLeft, unread, hp, visitsLeft, finalLeft, State.flush] <;> omega
  | exited =>
    rw [consumerEvent, hp] at he
    cases he

end Consumer

/-- Until it has left `_run`, the consumer is never stuck. -/
theorem Inv.exists_consumerStep (h : Inv todo s) (hne : s.logger.consumer ≠ .exited) :
    ∃ e logger, consumerEvent s.logger = some e ∧ consumerStep s.logger e = some logger := by
  cases hp : s.logger.consumer with
  | testStop =>
    refine ⟨.testStop, ?_⟩
    cases hstop : s.logger.stopRequested <;> simp [consumerEvent, consumerStep, hp, hstop]
  | takeSnapshot => exact ⟨.takeSnapshot, by simp [consumerEvent, consumerStep, hp]⟩
  | nextQueue final rest =>
    refine ⟨.nextQueue, ?_⟩
    cases rest with
    | cons i rest => simp [consumerEvent, consumerStep, hp]
    | nil => cases final <;> simp [consumerEvent, consumerStep, hp]
  | pop final i rest =>
    obtain ⟨e, he, hof, hsome⟩ := exists_popEvent (h.logger.queue i) (h.popping i)
    obtain ⟨q, hq⟩ := Option.isSome_iff_exists.mp hsome
    exact ⟨.queue e, by simp [consumerEvent, consumerStep, hp, he, hof, hq]⟩
  | flushFull final i rest => exact ⟨.flush, by simp [consumerEvent, consumerStep, hp]⟩
  | flushRest final i rest =>
    refine ⟨.flush, ?_⟩
    by_cases hpos : 0 < s.logger.outList.length
    · simp [consumerEvent, consumerStep, hp, hpos]
    · simp [consumerEvent, consumerStep, hp, hpos]
  | exited => exact absurd hp hne

/-! ## What is left to all -/

/-- More than is left to the consumer at any stop request. -/
def reserve (todo : ι → List R) : ℕ := 8 * ∑ i, (todo i).length + 16 * Fintype.card ι + 8

/-- What is left to the consumer and the destructor. -/
def shutdownLeft (todo : ι → List R) (s : State ι R) : ℕ :=
  if s.logger.joined then 0
  else if s.logger.stopRequested then drainLeft s.logger + 1
  else reserve todo + 2

def work (todo : ι → List R) (s : State ι R) : ℕ :=
  ∑ i, threadLeft todo s i + shutdownLeft todo s

theorem Inv.drainLeft_le (h : Inv todo s) : drainLeft s.logger ≤ reserve todo := by
  have hunread : unread s.logger ≤ ∑ i, (todo i).length := by
    refine Finset.sum_le_sum fun i _ ↦ (Nat.sub_le _ _).trans ?_
    exact (h.thread i).sublist.length_le.trans (List.length_take_le' _ _)
  have hqueues : s.logger.mQueues.length ≤ Fintype.card ι := h.nodup.length_le_card
  have hsnapshot := h.snapshot
  have hvisits := h.visits
  have hfinal : ∀ final, finalLeft s.logger final ≤ 8 * s.logger.qSnapshot.length + 3 := by
    intro final
    rw [finalLeft]
    split <;> omega
  rw [drainLeft, reserve]
  cases hp : s.logger.consumer with
  | testStop | takeSnapshot | exited =>
    simp only [visitsLeft]
    omega
  | nextQueue final rest | flushFull final i rest | flushRest final i rest =>
    rw [hp] at hvisits
    have := hfinal final
    simp only [visitsLeft, Consumer.todo, List.length_cons] at hvisits ⊢
    omega
  | pop final i rest =>
    rw [hp] at hvisits
    have := hfinal final
    have := popLeft_le (s.logger.queues i).consumer
    simp only [visitsLeft, Consumer.todo, List.length_cons] at hvisits ⊢
    omega

theorem Inv.stop_of_exited (h : Inv todo s) (hp : s.logger.consumer = .exited) :
    s.logger.stopRequested = true :=
  stopRequested_of_last h.reachable (by rw [hp]; trivial)

/-- A thread that has something to do has it before the stop request. -/
theorem Inv.stop_eq_false (h : Inv todo s) (hi : s.called i ≠ (todo i).length) :
    s.logger.stopRequested = false :=
  Bool.eq_false_iff.mpr fun hstop ↦ hi ((h.stopped hstop).ended i)

theorem Inv.joined_eq_false (h : Inv todo s) (hstop : s.logger.stopRequested = false) :
    s.logger.joined = false := by
  refine Bool.eq_false_iff.mpr fun hjoined ↦ ?_
  rw [h.stop_of_exited (h.logger.joined hjoined)] at hstop
  cases hstop

omit [DecidableEq ι] in
theorem shutdownLeft_of_not_stop (hjoined : s.logger.joined = false)
    (hstop : s.logger.stopRequested = false) : shutdownLeft todo s = reserve todo + 2 := by
  simp [shutdownLeft, hjoined, hstop]

omit [DecidableEq ι] in
theorem shutdownLeft_of_stop (hjoined : s.logger.joined = false)
    (hstop : s.logger.stopRequested = true) : shutdownLeft todo s = drainLeft s.logger + 1 := by
  simp [shutdownLeft, hjoined, hstop]

/-- Before the stop request only the threads matter. -/
theorem Inv.work_congr_of_not_stop (h : Inv todo s) (hstop : s.logger.stopRequested = false)
    {u : State ι R} (hjoined' : u.logger.joined = s.logger.joined)
    (hstop' : u.logger.stopRequested = s.logger.stopRequested) :
    work todo u = ∑ i, threadLeft todo u i + (reserve todo + 2) ∧
      work todo s = ∑ i, threadLeft todo s i + (reserve todo + 2) := by
  have hjoined := h.joined_eq_false hstop
  constructor
  · rw [work, shutdownLeft_of_not_stop (hjoined'.trans hjoined) (hstop'.trans hstop)]
  · rw [work, shutdownLeft_of_not_stop hjoined hstop]

theorem Inv.work_register_lt (h : Inv todo s) (hi : i ∉ s.logger.mQueues) (hne : todo i ≠ []) :
    work todo { s with logger := { s.logger with mQueues := s.logger.mQueues ++ [i] } } <
      work todo s := by
  have hstop := h.stop_eq_false fun hended ↦ hne (h.nil_of_ended hi hended)
  obtain ⟨hafter, hbefore⟩ := h.work_congr_of_not_stop hstop
    (u := { s with logger := { s.logger with mQueues := s.logger.mQueues ++ [i] } }) rfl rfl
  rw [hafter, hbefore]
  exact Nat.add_lt_add_right (register_lt hi hne) _

theorem Inv.work_push_lt (h : Inv todo s) {n : ℕ} {q : SPSCQueue.State R}
    (hi : i ∈ s.logger.mQueues)
    (hpushed : Pushed (todo i)[s.called i]? (s.logger.queues i) n q) :
    work todo { s with
        logger := s.logger.setQueue i q
        called := Function.update s.called i (s.called i + n) } < work todo s := by
  have hstop := h.stop_eq_false fun hended ↦ h.not_pushed_of_ended hended hpushed
  obtain ⟨hafter, hbefore⟩ := h.work_congr_of_not_stop hstop
    (u := { s with
        logger := s.logger.setQueue i q
        called := Function.update s.called i (s.called i + n) }) rfl rfl
  rw [hafter, hbefore]
  exact Nat.add_lt_add_right (h.push_lt hi hpushed) _

/-- What a step of the consumer leaves to the threads. -/
theorem sum_threadLeft_of_consume {logger : SPSCLogger.State ι R} {e : SPSCLogger.ConsumerEvent}
    (hst : consumerStep s.logger e = some logger) (batches : List (List R)) :
    ∑ i, threadLeft todo ⟨logger, s.called, batches⟩ i = ∑ i, threadLeft todo s i := by
  have hm := consumerMove_of_step hst
  refine Finset.sum_congr rfl fun i _ ↦ ?_
  exact threadLeft_congr (fixed_of_consumerMove hm).1 rfl (producer_of_consumerMove hm i)

theorem Inv.work_consume_lt (h : Inv todo s) (hstop : s.logger.stopRequested = true)
    {logger : SPSCLogger.State ι R} {e : SPSCLogger.ConsumerEvent}
    (he : consumerEvent s.logger = some e) (hst : consumerStep s.logger e = some logger)
    (batches : List (List R)) : work todo ⟨logger, s.called, batches⟩ < work todo s := by
  obtain ⟨-, hstop', hjoined'⟩ := fixed_of_consumerMove (consumerMove_of_step hst)
  have hjoined : s.logger.joined = false := by
    refine Bool.eq_false_iff.mpr fun hjoined ↦ ?_
    rw [consumerEvent, h.logger.joined hjoined] at he
    cases he
  have hlt := drainLeft_lt h.logger hstop he hst
  rw [work, work, sum_threadLeft_of_consume hst, shutdownLeft_of_stop hjoined hstop,
    shutdownLeft_of_stop (hjoined'.trans hjoined) (hstop'.trans hstop)]
  exact Nat.add_lt_add_left (Nat.succ_lt_succ hlt) _

theorem Inv.work_consume_eq (h : Inv todo s) (hstop : s.logger.stopRequested = false)
    {logger : SPSCLogger.State ι R} {e : SPSCLogger.ConsumerEvent}
    (hst : consumerStep s.logger e = some logger) (batches : List (List R)) :
    work todo ⟨logger, s.called, batches⟩ = work todo s := by
  obtain ⟨-, hstop', hjoined'⟩ := fixed_of_consumerMove (consumerMove_of_step hst)
  obtain ⟨hafter, hbefore⟩ := h.work_congr_of_not_stop hstop
    (u := ⟨logger, s.called, batches⟩) hjoined' hstop'
  rw [hafter, hbefore, sum_threadLeft_of_consume hst]

theorem Inv.work_requestStop_lt (h : Inv todo s) (hstop : s.logger.stopRequested = false) :
    work todo { s with logger := { s.logger with stopRequested := true } } < work todo s := by
  have hjoined := h.joined_eq_false hstop
  have hle := h.drainLeft_le
  have hdrain : drainLeft { s.logger with stopRequested := true } = drainLeft s.logger := rfl
  have hthreads : ∑ i, threadLeft todo
      { s with logger := { s.logger with stopRequested := true } } i
        = ∑ i, threadLeft todo s i := rfl
  rw [work, work, hthreads, shutdownLeft_of_not_stop hjoined hstop,
    shutdownLeft_of_stop (by exact hjoined) rfl, hdrain]
  omega

theorem Inv.work_join_lt (h : Inv todo s) (hp : s.logger.consumer = .exited)
    (hjoined : s.logger.joined = false) :
    work todo { s with logger := { s.logger with joined := true } } < work todo s := by
  have hthreads : ∑ i, threadLeft todo { s with logger := { s.logger with joined := true } } i
      = ∑ i, threadLeft todo s i := rfl
  have hzero : shutdownLeft todo { s with logger := { s.logger with joined := true } } = 0 :=
    if_pos rfl
  rw [work, work, hthreads, hzero, shutdownLeft_of_stop hjoined (h.stop_of_exited hp)]
  omega

/-! ## Every turn counts -/

/-- The party can do something that is not waiting. -/
def Helpful (todo : ι → List R) (s : State ι R) : Party ι → Prop
  | .thread i => s.called i < (todo i).length
  | .consumer => s.logger.stopRequested = true ∧ s.logger.consumer ≠ .exited
  | .destructor => (∀ i, s.called i = (todo i).length) ∧
      (s.logger.stopRequested = false ∨ s.logger.consumer = .exited) ∧ s.logger.joined = false

/-- The consumer goes round its loop before the stop request. -/
structure Round (todo : ι → List R) (s u : State ι R) : Prop where
  before : s.logger.stopRequested = false
  work_eq : work todo u = work todo s
  called_eq : u.called = s.called
  after : u.logger.stopRequested = false
  joined_eq : u.logger.joined = s.logger.joined

/-- A turn changes nothing, or it does some of the work, or it is one of the loop. -/
theorem Turned.cases_work {p : Party ι} {u : State ι R} (h : Inv todo s)
    (ht : Turned todo s p u) : u = s ∨ work todo u < work todo s ∨ Round todo s u := by
  cases ht with
  | returned | unused | halted | wait => exact .inl rfl
  | register hi hne => exact .inr (.inl (h.work_register_lt hi hne))
  | push hi hpushed => exact .inr (.inl (h.work_push_lt hi hpushed))
  | @consume e logger he hst =>
    cases hstop : s.logger.stopRequested with
    | true => exact .inr (.inl (h.work_consume_lt hstop he hst _))
    | false =>
      obtain ⟨-, hstop', hjoined'⟩ := fixed_of_consumerMove (consumerMove_of_step hst)
      exact .inr (.inr ⟨hstop, h.work_consume_eq hstop hst _, rfl, hstop'.trans hstop, hjoined'⟩)
  | requestStop hall hstop => exact .inr (.inl (h.work_requestStop_lt hstop))
  | join hall hp =>
    cases hjoined : s.logger.joined with
    | true =>
      left
      rw [← hjoined]
    | false => exact .inr (.inl (h.work_join_lt hp hjoined))

/-- Who can do something does it with the next turn. -/
theorem Turned.work_lt {p : Party ι} {u : State ι R} (h : Inv todo s) (ht : Turned todo s p u)
    (hp : Helpful todo s p) : work todo u < work todo s := by
  cases ht with
  | @returned i hi hnext =>
    obtain ⟨e, he⟩ := (h.thread i).exists_pushEvent hp
    rw [hnext] at he
    cases he
  | unused hi hnil =>
    rw [Helpful, hnil] at hp
    exact absurd hp (Nat.not_lt_zero _)
  | register hi hne => exact h.work_register_lt hi hne
  | push hi hpushed => exact h.work_push_lt hi hpushed
  | halted hnone =>
    obtain ⟨e, logger, he, hst⟩ := h.exists_consumerStep hp.2
    rw [hnone e he] at hst
    cases hst
  | consume he hst => exact h.work_consume_lt hp.1 he hst _
  | wait hwait =>
    obtain ⟨hstop, hexited⟩ := hwait hp.1
    rcases hp.2.1 with hnot | hp
    · rw [hstop] at hnot
      cases hnot
    · exact absurd hp hexited
  | requestStop hall hstop => exact h.work_requestStop_lt hstop
  | join hall hexited => exact h.work_join_lt hexited hp.2.2

/-- Going round the loop makes no difference to the others. -/
theorem Round.helpful {u : State ι R} (hround : Round todo s u) {p : Party ι}
    (hp : Helpful todo s p) : Helpful todo u p := by
  cases p with
  | thread i =>
    rw [Helpful, hround.called_eq]
    exact hp
  | consumer =>
    rw [Helpful, hround.before] at hp
    cases hp.1
  | destructor =>
    rw [Helpful, hround.called_eq, hround.joined_eq]
    exact ⟨hp.1, .inl hround.after, hp.2.2⟩

/-- As long as something is left, somebody can do it. -/
theorem Inv.exists_helpful (h : Inv todo s) (hleft : work todo s ≠ 0) : ∃ p, Helpful todo s p := by
  by_cases hended : ∀ i, s.called i = (todo i).length
  · have hthreads : ∑ i, threadLeft todo s i = 0 :=
      Finset.sum_eq_zero fun i _ ↦ h.threadLeft_eq_zero (hended i)
    have hjoined : s.logger.joined = false := by
      refine Bool.eq_false_iff.mpr fun hjoined ↦ hleft ?_
      rw [work, hthreads, shutdownLeft, if_pos hjoined]
    by_cases hp : s.logger.consumer = .exited
    · exact ⟨.destructor, hended, .inr hp, hjoined⟩
    · cases hstop : s.logger.stopRequested with
      | false => exact ⟨.destructor, hended, .inl hstop, hjoined⟩
      | true => exact ⟨.consumer, hstop, hp⟩
  · obtain ⟨i, hi⟩ := not_forall.mp hended
    exact ⟨.thread i, lt_of_le_of_ne (h.thread i).le hi⟩

theorem progress (todo : ι → List R) :
    Progress (turn todo) (Inv todo) (work todo) (Helpful todo) (fun _ _ ↦ 0) where
  inv _ p h := h.turn p
  mono s p h := by
    rcases (turned todo s p).cases_work h with hsame | hlt | hround
    · rw [hsame]
    · exact hlt.le
    · exact hround.work_eq.le
  exists_helpful _ h := h.exists_helpful
  stays s p u h hp heq := by
    rcases (turned todo s u).cases_work h with hsame | hlt | hround
    · rwa [hsame]
    · exact absurd heq hlt.ne
    · exact hround.helpful hp
  closer s p h hp heq := absurd heq ((turned todo s p).work_lt h hp).ne
  keeps _ _ _ _ _ _ _ := le_rfl

/-- **The program ends.** Under every fair schedule every call of the logger returns, the destructor
requests the stop and returns from `join`; and then of each thread all the records that its queue
has accepted are written, which are all that it has logged if they are no more than the queue has
slots, or none of them are, if its queue came too late for the last snapshot. -/
theorem program_ends (todo : ι → List R) {schedule : ℕ → Party ι} (hfair : Fair schedule) :
    ∃ m, ∀ k, m ≤ k →
      let s := play (turn todo) init (firstTurns schedule k)
      (∀ i, s.called i = (todo i).length) ∧ s.logger.stopRequested = true ∧
      s.logger.joined = true ∧ ∃ written : ι → List R, Merge written s.batches.flatten ∧ ∀ i,
        (s.logger.queues i).accepted.Sublist (todo i) ∧
        ((todo i).length ≤ 1024 → (s.logger.queues i).accepted = todo i) ∧
        (written i = (s.logger.queues i).accepted ∨
          written i = [] ∧ i ∉ s.logger.qSnapshot) := by
  obtain ⟨m, hm⟩ := (progress todo).fair (Inv.init todo) hfair
  refine ⟨m, fun k hk ↦ ?_⟩
  intro s
  have hzero : shutdownLeft todo s = 0 := (Nat.add_eq_zero_iff.mp (hm k hk)).2
  have hjoined : s.logger.joined = true := by
    by_contra hnot
    rw [shutdownLeft, if_neg hnot] at hzero
    split at hzero <;> cases hzero
  have h : Inv todo s := Inv.play todo _
  obtain ⟨written, hmerge, hwritten⟩ := h.written
  have hended : ∀ i, s.called i = (todo i).length := fun i ↦ ((hwritten i).2 hjoined).1
  have hstop : s.logger.stopRequested = true := h.stop_of_exited (h.logger.joined hjoined)
  refine ⟨hended, hstop, hjoined, written, hmerge, fun i ↦ ?_⟩
  have htake : (todo i).take (s.called i) = todo i := by rw [hended, List.take_length]
  exact ⟨htake ▸ (h.thread i).sublist, fun hle ↦ ((h.thread i).whole hle).trans htake,
    ((hwritten i).2 hjoined).2⟩

/-- Two threads with a record each take turns with the consumer and the destructor. -/
theorem program_ends_round_robin : ∃ m, ∀ k, m ≤ k →
    (play (turn fun p : Bool ↦ cond p [7] [8]) init (firstTurns (fun m ↦
      if m % 4 = 0 then .consumer
      else if m % 4 = 1 then .destructor else .thread (m % 4 = 2)) k)).logger.joined = true := by
  have hfair : Fair fun m ↦ if m % 4 = 0 then (.consumer : Party Bool)
      else if m % 4 = 1 then .destructor else .thread (m % 4 = 2) := by
    intro p n
    cases p with
    | consumer => exact ⟨4 * n, by omega, by simp⟩
    | destructor => exact ⟨4 * n + 1, by omega, by simp [Nat.add_mod]⟩
    | thread b =>
      cases b with
      | true => exact ⟨4 * n + 2, by omega, by simp [Nat.add_mod]⟩
      | false => exact ⟨4 * n + 3, by omega, by simp [Nat.add_mod]⟩
  obtain ⟨m, hm⟩ := program_ends (fun p : Bool ↦ cond p [7] [8]) hfair
  exact ⟨m, fun k hk ↦ (hm k hk).2.2.1⟩

end LogProgram

end FastInAHurry
