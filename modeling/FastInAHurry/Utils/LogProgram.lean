import FastInAHurry.Library.Merge
import FastInAHurry.Library.Turns
import FastInAHurry.Utils.Flushing
import FastInAHurry.Utils.Serializing
import Mathlib.Algebra.Order.BigOperators.Group.Finset

/-!
# A program that logs

A whole process with `utils/SPSCLogger.hh`: each thread calls `_log` for a list of records, the
consumer thread of the logger runs beside them, and when the threads have come to an end the
destructor of the logger requests the stop and joins. A thread registers its queue with its first
record. Each call of `_log` pushes once and does not look at what `push` returns, so a record for
which there is no room is dropped.

## What is written

The records of a thread that are written are a beginning of those its queue has accepted, and in the
end they are all of them or none: none, if the queue was registered after the last snapshot. Nothing
is dropped as long as a thread logs no more records than its queue has slots. What `_flush` writes
for a batch is the lines of its records, so the whole output is the lines of all the threads merged.
-/

namespace FastInAHurry

open RingIndex SPSCLogger Turns

namespace LogProgram

/-- The threads of the process. -/
inductive Party (ι : Type*) where
  | thread (i : ι)
  | consumer
  | destructor
deriving DecidableEq

structure State (ι R : Type*) where
  logger : SPSCLogger.State ι R
  /-- How many calls of `_log` have returned to each thread. -/
  called : ι → ℕ
  /-- The lists of records for which `_flush` was called. -/
  batches : List (List R)

variable {ι R : Type*}

def init : State ι R where
  logger := SPSCLogger.init
  called := fun _ ↦ 0
  batches := []

/-- The next access of a thread to its queue, where `next` is the record that it logs next. -/
def pushEvent (next : Option R) : SPSCQueue.Producer R → Option (SPSCQueue.ProducerEvent R)
  | .idle => next.map .emplace
  | .emplaceLoadHead _ => some .loadHead
  | .emplaceLoadTail _ _ => some .loadTail
  | .emplaceTest _ head tail =>
    some (if head - tail = queueSize.word then .returnFalse else .constructAt)
  | .emplaceStore _ _ => some .storeHead
  | .observing _ => none

/-- The next access of the consumer inside `pop`. -/
def popEvent : SPSCQueue.Consumer R → Option SPSCQueue.ConsumerEvent
  | .idle => some .pop
  | .popLoadTail => some .loadTail
  | .popLoadHead _ => some .loadHead
  | .popTest tail head => some (if head = tail then .returnFalse else .moveOut)
  | .popDestroy _ _ => some .destroyAt
  | .popStore _ _ => some .storeTail
  | .observing _ => none

/-- With this access `push` returns. -/
def returns : SPSCQueue.ProducerEvent R → ℕ
  | .returnFalse | .storeHead => 1
  | _ => 0

/-- The next step of the consumer, `none` once it has left `_run`. -/
def consumerEvent (s : SPSCLogger.State ι R) : Option SPSCLogger.ConsumerEvent :=
  match s.consumer with
  | .testStop => some .testStop
  | .takeSnapshot => some .takeSnapshot
  | .nextQueue _ _ => some .nextQueue
  | .pop _ i _ => (popEvent (s.queues i).consumer).map .queue
  | .flushFull _ _ _ | .flushRest _ _ _ => some .flush
  | .exited => none

/-- The batch with which a step of the consumer calls `_flush`; for an empty list there is no
call. -/
def batchOf (s : SPSCLogger.State ι R) : SPSCLogger.ConsumerEvent → List (List R)
  | .flush => if s.outList.isEmpty then [] else [s.outList.map Prod.snd]
  | _ => []

variable [DecidableEq ι] [Fintype ι]

/-- A thread, the consumer or the destructor takes a turn. -/
def turn (todo : ι → List R) (s : State ι R) : Party ι → State ι R
  | .thread i =>
    if i ∈ s.logger.mQueues then
      match pushEvent (todo i)[s.called i]? (s.logger.queues i).producer with
      | none => s
      | some e =>
        match step s.logger (.push i e) with
        | none => s
        | some logger => { s with
            logger := logger
            called := Function.update s.called i (s.called i + returns e) }
    else if (todo i).isEmpty then s
    else
      match step s.logger (.registerThread i) with
      | none => s
      | some logger => { s with logger := logger }
  | .consumer =>
    match consumerEvent s.logger with
    | none => s
    | some e =>
      match step s.logger (.consumer e) with
      | none => s
      | some logger => { s with
          logger := logger
          batches := s.batches ++ batchOf s.logger e }
  | .destructor =>
    if ∀ i, s.called i = (todo i).length then
      match step s.logger
        (.destructor (if s.logger.stopRequested then .join else .requestStop)) with
      | none => s
      | some logger => { s with logger := logger }
    else s

variable {todo : ι → List R} {s : State ι R} {i : ι}

/-! ## What a turn does -/

/-- An access of `push` in a queue; the number tells whether the call returns with it. -/
inductive Pushed (next : Option R) (q : SPSCQueue.State R) : ℕ → SPSCQueue.State R → Prop
  | emplace {x : R} (hp : q.producer = .idle) (hx : next = some x) :
      Pushed next q 0 { q with producer := .emplaceLoadHead x }
  | loadHead {x : R} (hp : q.producer = .emplaceLoadHead x) :
      Pushed next q 0 { q with producer := .emplaceLoadTail x q.mHead }
  | loadTail {x : R} {head : UInt64} (hp : q.producer = .emplaceLoadTail x head) :
      Pushed next q 0 { q with producer := .emplaceTest x head q.mTail }
  | full {x : R} {head tail : UInt64} (hp : q.producer = .emplaceTest x head tail)
      (hfull : head - tail = queueSize.word) : Pushed next q 1 { q with producer := .idle }
  | construct {x : R} {head tail : UInt64} (hp : q.producer = .emplaceTest x head tail) :
      Pushed next q 0 { q with
        mStorage := Function.update q.mStorage (queueSize.slot head) (some x)
        producer := .emplaceStore x head }
  | store {x : R} {head : UInt64} (hp : q.producer = .emplaceStore x head) :
      Pushed next q 1 { q with
        mHead := head + 1
        producer := .idle
        accepted := q.accepted ++ [x] }

theorem Pushed.consumer_eq {next : Option R} {q q' : SPSCQueue.State R} {n : ℕ}
    (h : Pushed next q n q') : q'.consumer = q.consumer := by
  cases h <;> rfl

/-- Everything a turn of a party can do. -/
inductive Turned (todo : ι → List R) (s : State ι R) : Party ι → State ι R → Prop
  | returned {i : ι} (hi : i ∈ s.logger.mQueues)
      (hnext : pushEvent (todo i)[s.called i]? (s.logger.queues i).producer = none) :
      Turned todo s (.thread i) s
  | unused {i : ι} (hi : i ∉ s.logger.mQueues) (hnil : todo i = []) : Turned todo s (.thread i) s
  | register {i : ι} (hi : i ∉ s.logger.mQueues) (hne : todo i ≠ []) :
      Turned todo s (.thread i)
        { s with logger := { s.logger with mQueues := s.logger.mQueues ++ [i] } }
  | push {i : ι} {n : ℕ} {q : SPSCQueue.State R} (hi : i ∈ s.logger.mQueues)
      (hpushed : Pushed (todo i)[s.called i]? (s.logger.queues i) n q) :
      Turned todo s (.thread i) { s with
        logger := s.logger.setQueue i q
        called := Function.update s.called i (s.called i + n) }
  | halted (hnone : ∀ e, consumerEvent s.logger = some e → consumerStep s.logger e = none) :
      Turned todo s .consumer s
  | consume {e : SPSCLogger.ConsumerEvent} {logger : SPSCLogger.State ι R}
      (he : consumerEvent s.logger = some e) (hst : consumerStep s.logger e = some logger) :
      Turned todo s .consumer { s with
        logger := logger
        batches := s.batches ++ batchOf s.logger e }
  | wait (hwait : (∀ i, s.called i = (todo i).length) →
      s.logger.stopRequested = true ∧ s.logger.consumer ≠ .exited) : Turned todo s .destructor s
  | requestStop (hall : ∀ i, s.called i = (todo i).length)
      (hstop : s.logger.stopRequested = false) :
      Turned todo s .destructor { s with logger := { s.logger with stopRequested := true } }
  | join (hall : ∀ i, s.called i = (todo i).length) (hp : s.logger.consumer = .exited) :
      Turned todo s .destructor { s with logger := { s.logger with joined := true } }

/-- The next access of a thread is possible, and is one of those listed. -/
theorem exists_pushed {next : Option R} {q : SPSCQueue.State R} {e : SPSCQueue.ProducerEvent R}
    (he : pushEvent next q.producer = some e) :
    ofPush e = true ∧ ∃ q', SPSCQueue.producerStep queueSize q e = some q' ∧
      Pushed next q (returns e) q' := by
  cases hp : q.producer with
  | idle =>
    rw [hp] at he
    obtain ⟨x, hx, rfl⟩ := Option.map_eq_some_iff.mp he
    exact ⟨rfl, _, by rw [SPSCQueue.producerStep, hp], .emplace hp hx⟩
  | emplaceLoadHead x =>
    rw [hp] at he
    obtain rfl := Option.some.inj he
    exact ⟨rfl, _, by rw [SPSCQueue.producerStep, hp], .loadHead hp⟩
  | emplaceLoadTail x head =>
    rw [hp] at he
    obtain rfl := Option.some.inj he
    exact ⟨rfl, _, by rw [SPSCQueue.producerStep, hp], .loadTail hp⟩
  | emplaceTest x head tail =>
    rw [hp] at he
    obtain rfl := Option.some.inj he
    by_cases hfull : head - tail = queueSize.word
    · rw [if_pos hfull]
      exact ⟨rfl, _, by simp only [SPSCQueue.producerStep, hp, if_pos hfull], .full hp hfull⟩
    · rw [if_neg hfull]
      exact ⟨rfl, _, by simp only [SPSCQueue.producerStep, hp, if_neg hfull], .construct hp⟩
  | emplaceStore x head =>
    rw [hp] at he
    obtain rfl := Option.some.inj he
    exact ⟨rfl, _, by rw [SPSCQueue.producerStep, hp], .store hp⟩
  | observing o =>
    rw [hp] at he
    cases he

theorem turned (todo : ι → List R) (s : State ι R) (p : Party ι) :
    Turned todo s p (turn todo s p) := by
  cases p with
  | thread i =>
    rw [turn]
    split
    · next hi =>
      split
      · next hnext => exact .returned hi hnext
      · next e he =>
        obtain ⟨hof, q, hq, hpushed⟩ := exists_pushed he
        simp only [SPSCLogger.step, hi, hof, and_self, if_true, hq, Option.map_some]
        exact .push hi hpushed
    · next hi =>
      split
      · next hnil => exact .unused hi (List.isEmpty_iff.mp hnil)
      · next hne =>
        simp only [SPSCLogger.step, hi, if_false]
        exact .register hi fun hnil ↦ hne (by rw [hnil]; rfl)
  | consumer =>
    rw [turn]
    split
    · next hnone => exact .halted fun e he ↦ by rw [hnone] at he; cases he
    · next e he =>
      split
      · next hnone =>
        exact .halted fun e' he' ↦ by rw [← Option.some.inj (he.symm.trans he')]; exact hnone
      · next logger hst => exact .consume he hst
  | destructor =>
    rw [turn]
    split
    · next hall =>
      by_cases hstop : s.logger.stopRequested = true
      · rw [if_pos hstop]
        split
        · next hst =>
          refine .wait fun _ ↦ ⟨hstop, fun hp ↦ ?_⟩
          rw [SPSCLogger.step, destructorStep, hp, if_pos hstop] at hst
          cases hst
        · next logger hst =>
          simp only [SPSCLogger.step, destructorStep] at hst
          split at hst
          · next hp =>
            rw [if_pos hstop] at hst
            obtain rfl := Option.some.inj hst
            exact .join hall hp
          · cases hst
      · simp only [hstop, SPSCLogger.step, destructorStep]
        exact .requestStop hall (Bool.eq_false_iff.mpr hstop)
    · next hall => exact .wait fun h ↦ absurd h hall

/-- What a turn does to the logger is one of the logger's own steps. -/
theorem exists_step (todo : ι → List R) (s : State ι R) (p : Party ι) :
    (turn todo s p).logger = s.logger ∨
      ∃ e, SPSCLogger.step s.logger e = some (turn todo s p).logger := by
  cases p with
  | thread i =>
    rw [turn]
    split
    · split
      · exact .inl rfl
      · next e _ =>
        split
        · exact .inl rfl
        · next logger hst => exact .inr ⟨_, hst⟩
    · split
      · exact .inl rfl
      · split
        · exact .inl rfl
        · next logger hst => exact .inr ⟨_, hst⟩
  | consumer =>
    rw [turn]
    split
    · exact .inl rfl
    · next e _ =>
      split
      · exact .inl rfl
      · next logger hst => exact .inr ⟨_, hst⟩
  | destructor =>
    rw [turn]
    split
    · split
      · exact .inl rfl
      · next logger hst => exact .inr ⟨_, hst⟩
    · exact .inl rfl

/-! ## One thread and its queue -/

section OneThread

variable {records : List R} {n k : ℕ} {q q' : SPSCQueue.State R}

/-- Within a call of `push`, the record is the one that the thread logs next. -/
def Calling (next : Option R) : SPSCQueue.Producer R → Prop
  | .idle => True
  | .emplaceLoadHead x | .emplaceLoadTail x _ | .emplaceTest x _ _ | .emplaceStore x _ =>
    next = some x
  | .observing _ => False

/-- A thread that has returned from `n` calls of `_log`. Its queue has accepted some of its records,
and all of them if they are no more than the queue has slots. -/
structure ThreadOk (records : List R) (n : ℕ) (q : SPSCQueue.State R) : Prop where
  le : n ≤ records.length
  calling : Calling records[n]? q.producer
  sublist : q.accepted.Sublist (records.take n)
  whole : records.length ≤ queueSize.size → q.accepted = records.take n

theorem ThreadOk.init (records : List R) : ThreadOk records 0 SPSCQueue.init :=
  ⟨Nat.zero_le _, trivial, List.nil_sublist _, fun _ ↦ rfl⟩

theorem ThreadOk.lt_of_calling (h : ThreadOk records n q) (hp : q.producer ≠ .idle) :
    n < records.length := by
  have hcalling := h.calling
  cases hproducer : q.producer with
  | idle => exact absurd hproducer hp
  | observing o =>
    rw [hproducer] at hcalling
    exact hcalling.elim
  | _ =>
    rw [hproducer] at hcalling
    exact (List.getElem?_eq_some_iff.mp hcalling).1

/-- A thread that is not at its end is before an access. -/
theorem ThreadOk.exists_pushEvent (h : ThreadOk records n q) (hn : n < records.length) :
    ∃ e, pushEvent records[n]? q.producer = some e := by
  have hcalling := h.calling
  cases hproducer : q.producer with
  | idle =>
    rw [List.getElem?_eq_getElem hn]
    exact ⟨_, rfl⟩
  | observing o =>
    rw [hproducer] at hcalling
    exact hcalling.elim
  | _ => exact ⟨_, rfl⟩

/-- With a full queue a thread has logged more records than the queue has slots. -/
theorem ThreadOk.size_lt_of_full (h : ThreadOk records n q) (hinv : SPSCQueue.Inv queueSize q)
    {x : R} {head tail : UInt64} (hp : q.producer = .emplaceTest x head tail)
    (hfull : head - tail = queueSize.word) : queueSize.size < records.length := by
  have hn := h.lt_of_calling (by rw [hp]; simp)
  have hlength : q.accepted.length ≤ n := h.sublist.length_le.trans (List.length_take_le n records)
  have hok := hinv.producer_ok
  rw [hp] at hok
  obtain ⟨hhead, m, rfl, hm, hle⟩ := hok
  rw [hhead, hinv.head_eq, queueSize.ofNat_sub_eq_word_iff
    (hm.trans hinv.delivered_prefix.length_le) hle] at hfull
  omega

theorem ThreadOk.pushed (h : ThreadOk records n q) (hinv : SPSCQueue.Inv queueSize q)
    (hpushed : Pushed records[n]? q k q') : ThreadOk records (n + k) q' := by
  have hcalling := h.calling
  cases hpushed with
  | emplace hp hx => exact ⟨h.le, hx, h.sublist, h.whole⟩
  | loadHead hp | loadTail hp | construct hp =>
    rw [hp] at hcalling
    exact ⟨h.le, hcalling, h.sublist, h.whole⟩
  | full hp hfull =>
    have hn := h.lt_of_calling (by rw [hp]; simp)
    have hsize := h.size_lt_of_full hinv hp hfull
    exact ⟨hn, trivial, h.sublist.trans (List.take_sublist_take_left (Nat.le_succ n)),
      fun hle ↦ absurd hle (Nat.not_le.mpr hsize)⟩
  | @store x head hp =>
    rw [hp] at hcalling
    have htake : records.take (n + 1) = records.take n ++ [x] := by
      rw [List.take_add_one, show records[n]? = some x from hcalling]
      rfl
    refine ⟨(List.getElem?_eq_some_iff.mp hcalling).1, trivial, ?_, fun hle ↦ ?_⟩
    · rw [htake]
      exact h.sublist.append (List.Sublist.refl [x])
    · rw [htake, h.whole hle]

/-- The consumer's side of the queue does not matter. -/
theorem ThreadOk.congr (h : ThreadOk records n q) (hproducer : q'.producer = q.producer)
    (haccepted : q'.accepted = q.accepted) : ThreadOk records n q' where
  le := h.le
  calling := hproducer ▸ h.calling
  sublist := haccepted ▸ h.sublist
  whole := haccepted ▸ h.whole

end OneThread

/-! ## What the consumer leaves alone -/

section Consumer

variable {c : Capacity} {q q' : SPSCQueue.State R} {l l' : SPSCLogger.State ι R}

theorem producer_of_consumerStep {e : SPSCQueue.ConsumerEvent}
    (hst : SPSCQueue.consumerStep c q e = some q') : q'.producer = q.producer := by
  cases SPSCQueue.consumerMove_of_step hst with
  | point | destroyAt | storeTail => rfl

/-- The consumer is never stuck inside `pop`: what it is about to move out is there. -/
theorem exists_popEvent (hinv : SPSCQueue.Inv queueSize q)
    (hpopping : ∀ o, q.consumer ≠ .observing o) : ∃ e, popEvent q.consumer = some e ∧
      ofPop e = true ∧ (SPSCQueue.consumerStep queueSize q e).isSome = true := by
  cases hp : q.consumer with
  | popTest tail head =>
    by_cases hempty : head = tail
    · exact ⟨.returnFalse, by rw [popEvent, if_pos hempty], rfl,
        by simp [SPSCQueue.consumerStep, hp, hempty]⟩
    · obtain ⟨-, hlt, hslot⟩ := hinv.front hp hempty
      rw [List.getElem?_eq_getElem hlt] at hslot
      exact ⟨.moveOut, by rw [popEvent, if_neg hempty], rfl,
        by simp [SPSCQueue.consumerStep, hp, hempty, hslot]⟩
  | observing o => exact absurd hp (hpopping o)
  | _ => exact ⟨_, rfl, rfl, by simp [SPSCQueue.consumerStep, hp]⟩

/-- Inside `pop` there are no queries. -/
theorem consumer_ne_observing {e : SPSCQueue.ConsumerEvent} (hof : ofPop e = true)
    (hst : SPSCQueue.consumerStep c q e = some q') (o : SPSCQueue.Observer) :
    q'.consumer ≠ .observing o := by
  cases e with
  | pop | loadTail | loadHead | destroyAt | storeTail =>
    simp only [SPSCQueue.consumerStep] at hst
    split at hst
    · obtain rfl := Option.some.inj hst
      simp
    · cases hst
  | returnFalse =>
    simp only [SPSCQueue.consumerStep] at hst
    split at hst
    · split at hst
      · obtain rfl := Option.some.inj hst
        simp
      · cases hst
    · cases hst
  | moveOut =>
    simp only [SPSCQueue.consumerStep] at hst
    split at hst
    · split at hst
      · cases hst
      · obtain ⟨out, -, rfl⟩ := Option.map_eq_some_iff.mp hst
        simp
    · cases hst
  | query | observe | answer => cases hof

omit [DecidableEq ι] [Fintype ι] in
theorem fixed_of_afterPop (final : Bool) (i : ι) (rest : List ι) (e : SPSCQueue.ConsumerEvent)
    (p : SPSCQueue.Consumer R) : (l.afterPop final i rest e p).queues = l.queues ∧
      (l.afterPop final i rest e p).flushed = l.flushed := by
  unfold State.afterPop
  split <;> exact ⟨rfl, rfl⟩

omit [Fintype ι] in
theorem setQueue_ne_observing (h : ∀ i o, (l.queues i).consumer ≠ .observing o)
    (hq : ∀ o, q.consumer ≠ .observing o) (i j : ι) (o : SPSCQueue.Observer) :
    ((l.setQueue i q).queues j).consumer ≠ .observing o := by
  rw [SPSCLogger.State.setQueue]
  dsimp only
  rcases eq_or_ne j i with rfl | hj
  · rw [Function.update_self]
    exact hq o
  · rw [Function.update_of_ne hj]
    exact h j o

omit [Fintype ι] in
theorem queues_ne_observing {e : SPSCLogger.ConsumerEvent} (hst : consumerStep l e = some l')
    (h : ∀ i o, (l.queues i).consumer ≠ .observing o) (i : ι) (o : SPSCQueue.Observer) :
    (l'.queues i).consumer ≠ .observing o := by
  cases e with
  | queue e =>
    simp only [consumerStep] at hst
    split at hst
    · next final j rest hp =>
      split at hst
      · next hof =>
        obtain ⟨q, hq, rfl⟩ := Option.map_eq_some_iff.mp hst
        rw [(fixed_of_afterPop ..).1]
        exact setQueue_ne_observing h (consumer_ne_observing hof hq) j i o
      · cases hst
    · cases hst
  | _ =>
    simp only [consumerStep] at hst
    repeat' split at hst
    all_goals cases hst <;> exact h i o

omit [Fintype ι] in
theorem producer_of_consumerMove (hm : ConsumerMove l l') (j : ι) :
    (l'.queues j).producer = (l.queues j).producer := by
  have hset : ∀ (i : ι) (e : SPSCQueue.ConsumerEvent) (q : SPSCQueue.State R),
      SPSCQueue.consumerStep queueSize (l.queues i) e = some q →
        ((l.setQueue i q).queues j).producer = (l.queues j).producer := by
    intro i e q hq
    revert j
    exact (Function.forall_update_iff l.queues fun j q ↦
      q.producer = (l.queues j).producer).mpr ⟨producer_of_consumerStep hq, fun _ _ ↦ rfl⟩
  cases hm with
  | inPop hp hq | popEmpty hp hq | popped hp hq => exact hset _ _ _ hq
  | _ => rfl

omit [Fintype ι] in
theorem fixed_of_consumerMove (hm : ConsumerMove l l') :
    l'.mQueues = l.mQueues ∧ l'.stopRequested = l.stopRequested ∧ l'.joined = l.joined := by
  cases hm <;> exact ⟨rfl, rfl, rfl⟩

omit [Fintype ι] in
/-- What is flushed are the batches. -/
theorem flushed_of_step {e : SPSCLogger.ConsumerEvent} (hst : consumerStep l e = some l') :
    l'.flushed.map Prod.snd = l.flushed.map Prod.snd ++ (batchOf l e).flatten := by
  have hbatch : (batchOf l .flush).flatten = l.outList.map Prod.snd := by
    rw [batchOf]
    split
    · next hempty =>
      rw [List.isEmpty_iff.mp hempty]
      rfl
    · exact List.append_nil _
  cases e with
  | flush =>
    rw [hbatch]
    simp only [consumerStep] at hst
    split at hst
    · obtain rfl := Option.some.inj hst
      exact List.map_append
    · split at hst
      · obtain rfl := Option.some.inj hst
        exact List.map_append
      · next hempty =>
        obtain rfl := Option.some.inj hst
        rw [List.length_eq_zero_iff.mp (Nat.eq_zero_of_not_pos hempty)]
        exact (List.append_nil _).symm
    · cases hst
  | queue e =>
    simp only [consumerStep] at hst
    repeat' split at hst
    · obtain ⟨q, -, rfl⟩ := Option.map_eq_some_iff.mp hst
      rw [(fixed_of_afterPop ..).2]
      exact (List.append_nil _).symm
    all_goals cases hst
  | _ =>
    simp only [consumerStep] at hst
    repeat' split at hst
    all_goals cases hst <;> exact (List.append_nil _).symm

omit [Fintype ι] in
/-- The consumer has no more queues before it than are registered. -/
theorem length_todo_of_consumerMove (hm : ConsumerMove l l') {k : ℕ}
    (hqueues : l.mQueues.length ≤ k) (hsnapshot : l.qSnapshot.length ≤ k)
    (htodo : l.consumer.todo.length ≤ k) :
    l'.qSnapshot.length ≤ k ∧ l'.consumer.todo.length ≤ k := by
  cases hm with
  | again hp | endLoop hp | endFinal hp => exact ⟨hsnapshot, Nat.zero_le k⟩
  | last hp => exact ⟨hsnapshot, hsnapshot⟩
  | snapshot hp => exact ⟨hqueues, hqueues⟩
  | next hp | popEmpty hp | flushFull hp =>
    rw [hp] at htodo
    exact ⟨hsnapshot, htodo⟩
  | inPop hp => exact ⟨hsnapshot, htodo⟩
  | @popped final i rest q out hp =>
    rw [hp] at htodo
    refine ⟨hsnapshot, ?_⟩
    rcases store_consumer (l.setQueue i q) final i rest out with hc | hc
    · rw [hc]
      exact htodo
    · rw [hc]
      exact htodo
  | flushRest hp =>
    rw [hp] at htodo
    exact ⟨hsnapshot, (Nat.le_succ _).trans htodo⟩

end Consumer

/-! ## The invariant -/

/-- After the stop request all threads have ended. The queues that the final `drain` will not come
to were missed by the last snapshot; from the others it takes everything. -/
structure Stopped (todo : ι → List R) (s : State ι R) : Prop where
  ended : ∀ i, s.called i = (todo i).length
  drains : ∃ A, AfterStop A s.logger ∧
    ∀ i, A i = (s.logger.queues i).accepted ∨ Missed i s.logger

structure Inv (todo : ι → List R) (s : State ι R) : Prop where
  reachable : Runs.Reachable SPSCLogger.step SPSCLogger.init s.logger
  thread : ∀ i, ThreadOk (todo i) (s.called i) (s.logger.queues i)
  fresh : ∀ i, i ∉ s.logger.mQueues → s.called i = 0 ∧ (s.logger.queues i).producer = .idle
  batches : s.batches.flatten = s.logger.flushed.map Prod.snd
  popping : ∀ i o, (s.logger.queues i).consumer ≠ .observing o
  nodup : s.logger.mQueues.Nodup
  snapshot : s.logger.qSnapshot.length ≤ Fintype.card ι
  visits : s.logger.consumer.todo.length ≤ Fintype.card ι
  stopped : s.logger.stopRequested = true → Stopped todo s

theorem Inv.init (todo : ι → List R) : Inv todo init where
  reachable := Runs.Reachable.refl _
  thread i := ThreadOk.init (todo i)
  fresh _ _ := ⟨rfl, rfl⟩
  batches := rfl
  popping _ _ := nofun
  nodup := List.nodup_nil
  snapshot := Nat.zero_le _
  visits := Nat.zero_le _
  stopped := nofun

theorem Inv.logger (h : Inv todo s) : SPSCLogger.Inv s.logger := inv_of_reachable h.reachable

/-- A thread whose queue is not registered has not logged anything. -/
theorem Inv.nil_of_ended (h : Inv todo s) (hi : i ∉ s.logger.mQueues)
    (hended : s.called i = (todo i).length) : todo i = [] :=
  List.length_eq_zero_iff.mp (hended.symm.trans (h.fresh i hi).1)

theorem Inv.idle_of_ended (h : Inv todo s) (hended : s.called i = (todo i).length) :
    (s.logger.queues i).producer = .idle := by
  by_contra hp
  exact absurd hended ((h.thread i).lt_of_calling hp).ne

/-- No access of a thread that has ended. -/
theorem Inv.not_pushed_of_ended (h : Inv todo s) (hended : s.called i = (todo i).length) {n : ℕ}
    {q : SPSCQueue.State R} (hpushed : Pushed (todo i)[s.called i]? (s.logger.queues i) n q) :
    False := by
  have hidle := h.idle_of_ended hended
  cases hpushed with
  | emplace hp hx =>
    rw [hended, List.getElem?_eq_none (Nat.le_refl _)] at hx
    cases hx
  | loadHead hp | loadTail hp | full hp | construct hp | store hp =>
    rw [hidle] at hp
    cases hp

omit [Fintype ι] in
/-- The consumer goes on after the stop request. -/
theorem Stopped.consume (h : Stopped todo s) {e : SPSCLogger.ConsumerEvent}
    {logger : SPSCLogger.State ι R} (hst : consumerStep s.logger e = some logger)
    (batches : List (List R)) : Stopped todo ⟨logger, s.called, batches⟩ := by
  obtain ⟨A, hA, hkept⟩ := h.drains
  have hstep : SPSCLogger.step s.logger (.consumer e) = some logger := hst
  refine ⟨h.ended, A, hA.step hstep, fun i ↦ ?_⟩
  rcases hkept i with hsame | hmissed
  · left
    rw [hsame]
    exact (accepted_of_consumerMove (consumerMove_of_step hst) i).symm
  · exact .inr (hmissed.step hstep)

omit [DecidableEq ι] [Fintype ι] in
/-- Any records that only queues of the snapshot hold are drained as if they were all there are. -/
theorem finishing_of_outside {A : ι → List R} {l : SPSCLogger.State ι R}
    (hcovered : l.consumer = .takeSnapshot ∨ ∀ i, i ∉ l.qSnapshot → A i = [])
    (hloop : ¬l.consumer.last) :
    Finishing A { l with stopRequested := true } l.consumer := by
  let only : SPSCLogger.State ι R :=
    { l with queues := fun i ↦ { l.queues i with accepted := A i } }
  have honly : Finishing A only l.consumer := finishing_of_covered (s := only) hcovered hloop
  exact honly.congr rfl (fun _ ↦ rfl) fun _ ↦ rfl

/-- The stop is requested. What the final `drain` will take are the records of the queues in the
snapshot, or of all queues if another snapshot is to come. -/
theorem Inv.requestStop (h : Inv todo s) (hall : ∀ i, s.called i = (todo i).length)
    (hstop : s.logger.stopRequested = false) :
    Stopped todo { s with logger := { s.logger with stopRequested := true } } := by
  classical
  have hst : SPSCLogger.step s.logger (.destructor .requestStop)
      = some { s.logger with stopRequested := true } := by
    simp [SPSCLogger.step, destructorStep, hstop]
  have hloop : ¬s.logger.consumer.last := fun hlast ↦ by
    rw [stopRequested_of_last h.reachable hlast] at hstop
    cases hstop
  let A : ι → List R := fun i ↦
    if Missed i { s.logger with stopRequested := true } then [] else (s.logger.queues i).accepted
  have hprefix : ∀ i, A i <+: (s.logger.queues i).accepted := by
    intro i
    by_cases hm : Missed i { s.logger with stopRequested := true }
    · simp only [A, if_pos hm, List.nil_prefix]
    · simp only [A, if_neg hm, List.prefix_rfl]
  have hcovered : s.logger.consumer = .takeSnapshot ∨ ∀ i, i ∉ s.logger.qSnapshot → A i = [] := by
    by_cases hp : s.logger.consumer = .takeSnapshot
    · exact .inl hp
    · exact .inr fun i hi ↦ if_pos ⟨rfl, hp, hi⟩
  refine ⟨hall, A, ⟨h.logger.step hst, rfl, hprefix, ?_⟩, fun i ↦ ?_⟩
  · exact finishing_of_outside hcovered hloop
  · by_cases hm : Missed i { s.logger with stopRequested := true }
    · exact .inr hm
    · exact .inl (if_neg hm)

theorem Turned.inv {p : Party ι} {u : State ι R} (h : Inv todo s) (ht : Turned todo s p u)
    (hr : Runs.Reachable SPSCLogger.step SPSCLogger.init u.logger) : Inv todo u := by
  cases ht with
  | returned | unused | halted | wait => exact h
  | @register i hi hne =>
    refine ⟨hr, h.thread, fun j hj ↦ h.fresh j fun hmem ↦ hj (List.mem_append_left _ hmem),
      h.batches, h.popping, ?_, h.snapshot, h.visits, fun hstop ↦ ?_⟩
    · show (s.logger.mQueues ++ [i]).Nodup
      rw [← List.concat_eq_append]
      exact h.nodup.concat hi
    · exact absurd (h.nil_of_ended hi ((h.stopped hstop).ended i)) hne
  | @push i n q hi hpushed =>
    have hnew := (h.thread i).pushed (h.logger.queue i) hpushed
    refine ⟨hr, fun j ↦ ?_, fun j hj ↦ ?_, h.batches, ?_, h.nodup, h.snapshot, h.visits,
      fun hstop ↦ ?_⟩
    · rcases eq_or_ne j i with rfl | hj
      · simpa only [SPSCLogger.State.setQueue, Function.update_self] using hnew
      · simpa only [SPSCLogger.State.setQueue, Function.update_of_ne hj] using h.thread j
    · have hji : j ≠ i := by
        rintro rfl
        exact hj hi
      simpa only [SPSCLogger.State.setQueue, Function.update_of_ne hji] using h.fresh j hj
    · refine fun j ↦ setQueue_ne_observing h.popping ?_ i j
      rw [hpushed.consumer_eq]
      exact h.popping i
    · exact (h.not_pushed_of_ended ((h.stopped hstop).ended i) hpushed).elim
  | @consume e logger he hst =>
    have hm := consumerMove_of_step hst
    obtain ⟨hqueues, hstop, hjoined⟩ := fixed_of_consumerMove hm
    have hcard : s.logger.mQueues.length ≤ Fintype.card ι := h.nodup.length_le_card
    obtain ⟨hsnapshot, hvisits⟩ := length_todo_of_consumerMove hm hcard h.snapshot h.visits
    refine ⟨hr, fun j ↦ ?_, fun j hj ↦ ?_, ?_, queues_ne_observing hst h.popping, ?_, hsnapshot,
      hvisits, fun hstop' ↦ ?_⟩
    · exact (h.thread j).congr (producer_of_consumerMove hm j) (accepted_of_consumerMove hm j)
    · rw [hqueues] at hj
      rw [producer_of_consumerMove hm j]
      exact h.fresh j hj
    · rw [List.flatten_append, h.batches, flushed_of_step hst]
    · rw [hqueues]
      exact h.nodup
    · exact (h.stopped (hstop.symm.trans hstop')).consume hst _
  | requestStop hall hstop =>
    exact ⟨hr, h.thread, h.fresh, h.batches, h.popping, h.nodup, h.snapshot, h.visits,
      fun _ ↦ h.requestStop hall hstop⟩
  | join hall hp =>
    have hstop : s.logger.stopRequested = true :=
      stopRequested_of_last h.reachable (by rw [hp]; trivial)
    obtain ⟨A, hA, hkept⟩ := (h.stopped hstop).drains
    have hjoin : SPSCLogger.step s.logger (.destructor .join)
        = some { s.logger with joined := true } := by
      simp [SPSCLogger.step, destructorStep, hp, hstop]
    exact ⟨hr, h.thread, h.fresh, h.batches, h.popping, h.nodup, h.snapshot, h.visits,
      fun _ ↦ ⟨hall, A, hA.step hjoin, fun i ↦ (hkept i).imp_right fun hm ↦ hm.step hjoin⟩⟩

theorem Inv.turn (h : Inv todo s) (p : Party ι) : Inv todo (turn todo s p) := by
  refine (turned todo s p).inv h ?_
  rcases exists_step todo s p with hsame | ⟨e, hst⟩
  · rw [hsame]
    exact h.reachable
  · exact h.reachable.tail hst

theorem Inv.play (todo : ι → List R) (schedule : List (Party ι)) :
    Inv todo (play (LogProgram.turn todo) LogProgram.init schedule) :=
  play_invariant (fun _ p h ↦ h.turn p) (Inv.init todo) schedule

/-! ## What is written -/

omit [Fintype ι] in
theorem ofQueue_append (i : ι) (l l' : List (ι × R)) :
    ofQueue i (l ++ l') = ofQueue i l ++ ofQueue i l' := by
  rw [ofQueue, List.filter_append, List.map_append, ofQueue, ofQueue]

omit [Fintype ι] in
/-- The records come from the queues, whose orders they keep. -/
theorem merge_ofQueue (l : List (ι × R)) : Merge (fun i ↦ ofQueue i l) (l.map Prod.snd) := by
  induction l using List.reverseRecOn with
  | nil => exact .nil
  | append_singleton l x ih =>
    obtain ⟨i, x⟩ := x
    rw [List.map_append]
    refine ih.push (p := i) ?_ fun j hj ↦ ?_
    · exact (ofQueue_concat i i l x).trans (if_pos rfl)
    · exact (ofQueue_concat j i l x).trans (if_neg hj)

theorem Inv.flushed_prefix (h : Inv todo s) (i : ι) :
    ofQueue i s.logger.flushed <+: (s.logger.queues i).accepted := by
  have hpopped := h.logger.popped i
  have hqueue := h.logger.queue i
  have hprefix := hqueue.delivered_prefix
  rw [ofQueue_append] at hpopped
  rw [← hpopped] at hprefix
  exact (List.prefix_append _ _).trans hprefix

/-- In the end a queue has been emptied, or it was missed by the last snapshot. -/
theorem Inv.flushed_of_joined (h : Inv todo s) (hjoined : s.logger.joined = true) (i : ι) :
    s.called i = (todo i).length ∧ (ofQueue i s.logger.flushed = (s.logger.queues i).accepted ∨
      ofQueue i s.logger.flushed = [] ∧ i ∉ s.logger.qSnapshot) := by
  have hexited := h.logger.joined hjoined
  have hstop : s.logger.stopRequested = true :=
    stopRequested_of_last h.reachable (by rw [hexited]; trivial)
  obtain ⟨hended, A, hA, hkept⟩ := h.stopped hstop
  refine ⟨hended i, ?_⟩
  rw [h.logger.flushed_of_joined hjoined]
  rcases hkept i with hsame | hmissed
  · left
    have hdrained := hA.finishing
    rw [hexited] at hdrained
    have hle : (s.logger.queues i).accepted.length ≤ (s.logger.queues i).delivered.length :=
      hsame ▸ hdrained i
    have hqueue := h.logger.queue i
    have hprefix := hqueue.delivered_prefix
    exact hprefix.eq_of_length_le hle
  · exact .inr ⟨h.logger.unseen i hmissed.unseen, hmissed.unseen⟩

/-- What was written of each thread. -/
theorem Inv.written (h : Inv todo s) :
    ∃ written : ι → List R, Merge written s.batches.flatten ∧ ∀ i,
      written i <+: (s.logger.queues i).accepted ∧
      (s.logger.joined = true → s.called i = (todo i).length ∧
        (written i = (s.logger.queues i).accepted ∨
          written i = [] ∧ i ∉ s.logger.qSnapshot)) := by
  refine ⟨fun i ↦ ofQueue i s.logger.flushed, ?_, fun i ↦
    ⟨h.flushed_prefix i, fun hjoined ↦ h.flushed_of_joined hjoined i⟩⟩
  rw [h.batches]
  exact merge_ofQueue _

/-- **What is written.** In every interleaving the records for which `_flush` was called are a merge
of beginnings of what the queues have accepted. A queue accepts records of its thread only, in the
order in which the thread logs them; it accepts all of them if they are no more than it has slots.
Once the destructor has returned from `join`, of each thread everything accepted has been written
or nothing has, and nothing only if its queue came too late for the last snapshot. -/
theorem records_written (todo : ι → List R) (schedule : List (Party ι)) :
    let s := play (turn todo) init schedule
    ∃ written : ι → List R, Merge written s.batches.flatten ∧ ∀ i,
      written i <+: (s.logger.queues i).accepted ∧
      (s.logger.queues i).accepted.Sublist ((todo i).take (s.called i)) ∧
      ((todo i).length ≤ 1024 → (s.logger.queues i).accepted = (todo i).take (s.called i)) ∧
      (s.logger.joined = true → s.called i = (todo i).length ∧
        (written i = (s.logger.queues i).accepted ∨
          written i = [] ∧ i ∉ s.logger.qSnapshot)) := by
  intro s
  have h : Inv todo s := Inv.play todo schedule
  obtain ⟨written, hmerge, hwritten⟩ := h.written
  exact ⟨written, hmerge, fun i ↦
    ⟨(hwritten i).1, (h.thread i).sublist, (h.thread i).whole, (hwritten i).2⟩⟩

/-! ## The text -/

section Text

variable {localtime : UInt64 → Tm} {batches : List (List Record)} {text : List Char}

/-- What the calls of `_flush` for some batches print, whatever is in the array of a call before it
is written. -/
inductive Printed (localtime : UInt64 → Tm) : List (List Record) → List Char → Prop
  | nil : Printed localtime [] []
  | flush {batches : List (List Record)} {text line bytes : List Char} {batch : List Record}
      (h : Printed localtime batches text) (hline : line.length = lineSize)
      (hbytes : SPSCLogger.flush localtime line batch = some bytes) :
      Printed localtime (batches ++ [batch]) (text ++ bytes)

/-- The batches are printed line by line. -/
theorem Printed.eq (h : Printed localtime batches text)
    (hlogged : ∀ rec ∈ batches.flatten, Logged rec) :
    text = batches.flatten.flatMap (lineText localtime) := by
  induction h with
  | nil => rfl
  | @flush batches text line bytes batch _ hline hbytes ih =>
    rw [List.flatten_append, List.flatten_singleton] at hlogged ⊢
    have hbatch := flush_of_logged localtime
      (fun rec hrec ↦ hlogged rec (List.mem_append_right _ hrec)) hline
    rw [List.flatMap_append, ih fun rec hrec ↦ hlogged rec (List.mem_append_left _ hrec),
      Option.some.inj (hbytes.symm.trans hbatch)]

/-- No call of `_flush` reads behind its array. -/
theorem exists_printed (localtime : UInt64 → Tm) (hlogged : ∀ rec ∈ batches.flatten, Logged rec) :
    ∃ text, Printed localtime batches text := by
  induction batches using List.reverseRecOn with
  | nil => exact ⟨[], .nil⟩
  | append_singleton batches batch ih =>
    rw [List.flatten_append, List.flatten_singleton] at hlogged
    obtain ⟨text, htext⟩ := ih fun rec hrec ↦ hlogged rec (List.mem_append_left _ hrec)
    have hlength : (List.replicate lineSize '?').length = lineSize := List.length_replicate
    have hbatch := flush_of_logged localtime
      (fun rec hrec ↦ hlogged rec (List.mem_append_right _ hrec)) hlength
    exact ⟨_, .flush htext hlength hbatch⟩

end Text

/-- **The text.** In every interleaving no `_flush` reads behind its array, whatever was in it; and
what has been printed are whole lines, one for each record written, in the order of a merge of
records of the threads. If a thread logs no more records than its queue has slots, the first ones
that it logs are printed and none of them is left out. -/
theorem text_written (localtime : UInt64 → Tm) {todo : ι → List Record}
    (hlogged : ∀ i, ∀ rec ∈ todo i, Logged rec) (schedule : List (Party ι)) :
    let s := play (turn todo) init schedule
    (∃ text, Printed localtime s.batches text) ∧ ∀ text, Printed localtime s.batches text →
      text = s.batches.flatten.flatMap (lineText localtime) ∧
      ∃ written : ι → List Record, Merge written s.batches.flatten ∧
        ∀ i, (written i).Sublist (todo i) ∧ ((todo i).length ≤ 1024 → written i <+: todo i) := by
  intro s
  have h : Inv todo s := Inv.play todo schedule
  obtain ⟨written, hmerge, hwritten⟩ := h.written
  have hsub : ∀ i, (written i).Sublist (todo i) := fun i ↦
    (hwritten i).1.sublist.trans ((h.thread i).sublist.trans (List.take_sublist _ _))
  have hall : ∀ rec ∈ s.batches.flatten, Logged rec := by
    intro rec hrec
    obtain ⟨i, hi⟩ := hmerge.exists_mem hrec
    exact hlogged i rec ((hsub i).subset hi)
  refine ⟨exists_printed localtime hall, fun text htext ↦
    ⟨htext.eq hall, written, hmerge, fun i ↦ ⟨hsub i, fun hle ↦ ?_⟩⟩⟩
  exact (hwritten i).1.trans ((h.thread i).whole hle ▸ List.take_prefix _ _)

/-- A thread with one record, up to the return of `join`. -/
theorem text_written_start :
    let record := log .info startLocation 3661000000005 "up".toList
    let s := play (turn fun _ : Unit ↦ [record]) init (List.replicate 6 (.thread ()) ++
      List.replicate 16 .consumer ++ [.destructor] ++ List.replicate 32 .consumer ++ [.destructor])
    s.logger.joined = true ∧ ∀ text, Printed utc s.batches text → text = lineText utc record := by
  intro record s
  have hlogged : ∀ _ : Unit, ∀ rec ∈ [record], Logged rec := by
    intro _ rec hrec
    obtain rfl := List.mem_singleton.mp hrec
    exact ⟨_, _, _, _, rfl, by decide⟩
  have hlength : s.batches.flatten.length = 1 := by decide +kernel
  refine ⟨by decide +kernel, fun text htext ↦ ?_⟩
  obtain ⟨htext, written, hmerge, hwritten⟩ := (text_written utc hlogged _).2 text htext
  have hone : s.batches.flatten = written () := hmerge.eq_of_single fun u hu ↦ absurd rfl hu
  have hrecord : s.batches.flatten = [record] :=
    hone.trans ((hwritten ()).1.eq_of_length (hone ▸ hlength))
  rw [htext, hrecord]
  exact List.append_nil _

end LogProgram

end FastInAHurry
