import FastInAHurry.Queue.SPSCQueue

/-!
# The logger

The embedding of the threads of `utils/SPSCLogger.hh`. Every producer thread has a queue of its own,
which it creates and enters into `m_queues` with its first record; one consumer thread collects the
records of all queues. The queues are those of `SPSCQueue`, access by access, so that producers, the
consumer and the destructor interleave as they do there. The two critical sections of
`m_queues_mutex` are single events, and the list of queues and its copy are lists.

A record is passed to `_flush` from `out_list`, whose first `list_tracker` entries are the list
here. The queue from which an entry was popped is kept with it; the logger does not know it.
-/

namespace FastInAHurry

open RingIndex

namespace SPSCLogger

/-- `QUEUE_SIZE`. -/
def queueSize : Capacity := ⟨10, by decide⟩

/-- `OUT_LIST_SIZE`. -/
def outListSize : ℕ := 10

/-- Where the consumer stands in `_run`. Inside `drain`, `final` tells the call after the loop, `i`
is the queue whose turn it is, and `rest` are the queues after it. -/
inductive Consumer (ι : Type*) where
  | testStop
  | takeSnapshot
  | nextQueue (final : Bool) (rest : List ι)
  | pop (final : Bool) (i : ι) (rest : List ι)
  | flushFull (final : Bool) (i : ι) (rest : List ι)
  | flushRest (final : Bool) (i : ι) (rest : List ι)
  | exited

structure State (ι R : Type*) where
  mQueues : List ι
  queues : ι → SPSCQueue.State R
  stopRequested : Bool
  /-- `join` has returned. -/
  joined : Bool
  consumer : Consumer ι
  qSnapshot : List ι
  outList : List (ι × R)
  /-- What was passed to `_flush`. -/
  flushed : List (ι × R)

inductive ConsumerEvent where
  | testStop
  | takeSnapshot
  | nextQueue
  | queue (e : SPSCQueue.ConsumerEvent)
  | flush

inductive DestructorEvent where
  | requestStop
  | join

inductive Event (ι R : Type*) where
  | registerThread (i : ι)
  | push (i : ι) (e : SPSCQueue.ProducerEvent R)
  | consumer (e : ConsumerEvent)
  | destructor (e : DestructorEvent)

variable {ι R : Type*} [DecidableEq ι]

/-- After the constructor, with the consumer at the start of its loop. -/
def init : State ι R where
  mQueues := []
  queues := fun _ ↦ SPSCQueue.init
  stopRequested := false
  joined := false
  consumer := .testStop
  qSnapshot := []
  outList := []
  flushed := []

def State.setQueue (s : State ι R) (i : ι) (q : SPSCQueue.State R) : State ι R :=
  { s with queues := Function.update s.queues i q }

/-- The accesses of a `push`; constructing a `Record` does not throw. -/
def ofPush : SPSCQueue.ProducerEvent R → Bool
  | .emplace _ | .loadHead | .loadTail | .returnFalse | .constructAt | .storeHead => true
  | _ => false

/-- The accesses of a `pop`. -/
def ofPop : SPSCQueue.ConsumerEvent → Bool
  | .pop | .loadTail | .loadHead | .returnFalse | .moveOut | .destroyAt | .storeTail => true
  | _ => false

/-- `out_list[list_tracker++] = rec`, and the test for a full list. -/
def State.store (s : State ι R) (final : Bool) (i : ι) (rest : List ι) (rec : R) : State ι R :=
  { s with
    outList := s.outList ++ [(i, rec)]
    consumer := if outListSize ≤ s.outList.length + 1 then .flushFull final i rest
      else .pop final i rest }

/-- `_flush(out_list, list_tracker), list_tracker = 0`. -/
def State.flush (s : State ι R) (c : Consumer ι) : State ι R :=
  { s with flushed := s.flushed ++ s.outList, outList := [], consumer := c }

/-- The loop over one queue goes on with the result of its `pop`, once there is one. -/
def State.afterPop (s : State ι R) (final : Bool) (i : ι) (rest : List ι) :
    SPSCQueue.ConsumerEvent → SPSCQueue.Consumer R → State ι R
  | .returnFalse, _ => { s with consumer := .flushRest final i rest }
  | .storeTail, .popStore out _ => s.store final i rest out
  | _, _ => s

/-- A step of `_run`. -/
def consumerStep (s : State ι R) : ConsumerEvent → Option (State ι R)
  | .testStop =>
    match s.consumer with
    | .testStop =>
      if s.stopRequested then some { s with consumer := .nextQueue true s.qSnapshot }
      else some { s with consumer := .takeSnapshot }
    | _ => none
  | .takeSnapshot =>
    match s.consumer with
    | .takeSnapshot =>
      some { s with qSnapshot := s.mQueues, consumer := .nextQueue false s.mQueues }
    | _ => none
  | .nextQueue =>
    match s.consumer with
    | .nextQueue final (i :: rest) => some { s with consumer := .pop final i rest }
    | .nextQueue false [] => some { s with consumer := .testStop }
    | .nextQueue true [] => some { s with consumer := .exited }
    | _ => none
  | .queue e =>
    match s.consumer with
    | .pop final i rest =>
      if ofPop e then
        (SPSCQueue.consumerStep queueSize (s.queues i) e).map fun q ↦
          (s.setQueue i q).afterPop final i rest e (s.queues i).consumer
      else none
    | _ => none
  | .flush =>
    match s.consumer with
    | .flushFull final i rest => some (s.flush (.pop final i rest))
    | .flushRest final _ rest =>
      if 0 < s.outList.length then some (s.flush (.nextQueue final rest))
      else some { s with consumer := .nextQueue final rest }
    | _ => none

/-- A step of `~SPSCLogger`. -/
def destructorStep (s : State ι R) : DestructorEvent → Option (State ι R)
  | .requestStop => if s.stopRequested then none else some { s with stopRequested := true }
  | .join =>
    match s.consumer with
    | .exited => if s.stopRequested then some { s with joined := true } else none
    | _ => none

/-- One event of any thread. -/
def step (s : State ι R) : Event ι R → Option (State ι R)
  | .registerThread i =>
    if i ∈ s.mQueues then none else some { s with mQueues := s.mQueues ++ [i] }
  | .push i e =>
    if i ∈ s.mQueues ∧ ofPush e then
      (SPSCQueue.producerStep queueSize (s.queues i) e).map (s.setQueue i)
    else none
  | .consumer e => consumerStep s e
  | .destructor e => destructorStep s e

/-- The records of one queue, in order. -/
def ofQueue (i : ι) (l : List (ι × R)) : List R := (l.filter (·.1 = i)).map Prod.snd

end SPSCLogger

end FastInAHurry
