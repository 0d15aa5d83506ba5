import FastInAHurry.Library.RingIndex
import FastInAHurry.Library.Runs

/-!
# The single-producer single-consumer queue

The embedding of `structs/SPSCQueue.hh` as a step function. Each atomic load, each atomic store and
each construction, move-out or destruction of a slot is one event, and the two threads interleave
freely; local computation between two such accesses happens with the access that follows it. A
program point carries the local variables that are live there, so a stale copy of the other side's
counter is an argument of the program point that still uses it.

The counters are 64-bit words and wrap. A slot is `some v` while it holds a live element and `none`
while it is raw storage. `construct_at` may throw, which ends the call with nothing published.

The two histories `accepted` and `delivered` are not part of the queue: they record the values of
the `emplace` and `pop` calls that succeeded, in the order in which their counters were published.
-/

namespace FastInAHurry

open RingIndex

namespace SPSCQueue

/-- A query about the queue, which either thread may make between its own operations. -/
inductive Query where
  | empty
  | full
  | size
deriving DecidableEq, Repr

/-- Where a thread stands inside a query. -/
inductive Observer where
  | emptyLoadTail
  | emptyLoadHead (tail : UInt64)
  | fullLoadHead
  | fullLoadTail (head : UInt64)
  | sizeLoadHead
  | sizeLoadTail (head : UInt64)
  | answer (b : Bool)
  | count (n : UInt64)
deriving DecidableEq

def Query.start : Query → Observer
  | .empty => .emptyLoadTail
  | .full => .fullLoadHead
  | .size => .sizeLoadHead

/-- One load of a query, with the counters it may find. -/
def Observer.load (c : Capacity) (mHead mTail : UInt64) : Observer → Option Observer
  | .emptyLoadTail => some (.emptyLoadHead mTail)
  | .emptyLoadHead tail => some (.answer (decide (mHead = tail)))
  | .fullLoadHead => some (.fullLoadTail mHead)
  | .fullLoadTail head => some (.answer (decide (head - mTail = c.word)))
  | .sizeLoadHead => some (.sizeLoadTail mHead)
  | .sizeLoadTail head => some (.count (head - mTail))
  | .answer _ => none
  | .count _ => none

/-- Where the producer stands. -/
inductive Producer (T : Type*) where
  | idle
  | emplaceLoadHead (x : T)
  | emplaceLoadTail (x : T) (head : UInt64)
  | emplaceTest (x : T) (head tail : UInt64)
  | emplaceStore (x : T) (head : UInt64)
  | observing (o : Observer)

/-- Where the consumer stands. -/
inductive Consumer (T : Type*) where
  | idle
  | popLoadTail
  | popLoadHead (tail : UInt64)
  | popTest (tail head : UInt64)
  | popDestroy (out : T) (tail : UInt64)
  | popStore (out : T) (tail : UInt64)
  | observing (o : Observer)

structure State (T : Type*) where
  mHead : UInt64
  mTail : UInt64
  mStorage : UInt64 → Option T
  producer : Producer T
  consumer : Consumer T
  accepted : List T
  delivered : List T

/-- An access or a call of the producer; `push` is `emplace`. -/
inductive ProducerEvent (T : Type*) where
  | emplace (x : T)
  | loadHead
  | loadTail
  | returnFalse
  | constructAt
  | constructThrows
  | storeHead
  | query (q : Query)
  | observe
  | answer

/-- An access or a call of the consumer. -/
inductive ConsumerEvent where
  | pop
  | loadTail
  | loadHead
  | returnFalse
  | moveOut
  | destroyAt
  | storeTail
  | query (q : Query)
  | observe
  | answer

/-- What a schedule can do next. -/
inductive Event (T : Type*) where
  | producer (e : ProducerEvent T)
  | consumer (e : ConsumerEvent)

variable {T : Type*}

/-- The queue as constructed, with both threads outside it. -/
def init : State T where
  mHead := 0
  mTail := 0
  mStorage := fun _ ↦ none
  producer := .idle
  consumer := .idle
  accepted := []
  delivered := []

/-- A step of the producer. -/
def producerStep (c : Capacity) (s : State T) : ProducerEvent T → Option (State T)
  | .emplace x =>
    match s.producer with
    | .idle => some { s with producer := .emplaceLoadHead x }
    | _ => none
  | .loadHead =>
    match s.producer with
    | .emplaceLoadHead x => some { s with producer := .emplaceLoadTail x s.mHead }
    | _ => none
  | .loadTail =>
    match s.producer with
    | .emplaceLoadTail x head => some { s with producer := .emplaceTest x head s.mTail }
    | _ => none
  | .returnFalse =>
    match s.producer with
    | .emplaceTest _ head tail =>
      if head - tail = c.word then some { s with producer := .idle } else none
    | _ => none
  | .constructAt =>
    match s.producer with
    | .emplaceTest x head tail =>
      if head - tail = c.word then none
      else some { s with
        mStorage := Function.update s.mStorage (c.slot head) (some x)
        producer := .emplaceStore x head }
    | _ => none
  | .constructThrows =>
    match s.producer with
    | .emplaceTest _ head tail =>
      if head - tail = c.word then none else some { s with producer := .idle }
    | _ => none
  | .storeHead =>
    match s.producer with
    | .emplaceStore x head => some { s with
        mHead := head + 1
        producer := .idle
        accepted := s.accepted ++ [x] }
    | _ => none
  | .query q =>
    match s.producer with
    | .idle => some { s with producer := .observing q.start }
    | _ => none
  | .observe =>
    match s.producer with
    | .observing o =>
      (o.load c s.mHead s.mTail).map fun o' ↦ { s with producer := .observing o' }
    | _ => none
  | .answer =>
    match s.producer with
    | .observing (.answer _) => some { s with producer := .idle }
    | .observing (.count _) => some { s with producer := .idle }
    | _ => none

/-- A step of the consumer. -/
def consumerStep (c : Capacity) (s : State T) : ConsumerEvent → Option (State T)
  | .pop =>
    match s.consumer with
    | .idle => some { s with consumer := .popLoadTail }
    | _ => none
  | .loadTail =>
    match s.consumer with
    | .popLoadTail => some { s with consumer := .popLoadHead s.mTail }
    | _ => none
  | .loadHead =>
    match s.consumer with
    | .popLoadHead tail => some { s with consumer := .popTest tail s.mHead }
    | _ => none
  | .returnFalse =>
    match s.consumer with
    | .popTest tail head => if head = tail then some { s with consumer := .idle } else none
    | _ => none
  | .moveOut =>
    match s.consumer with
    | .popTest tail head =>
      if head = tail then none
      else (s.mStorage (c.slot tail)).map fun out ↦ { s with consumer := .popDestroy out tail }
    | _ => none
  | .destroyAt =>
    match s.consumer with
    | .popDestroy out tail => some { s with
        mStorage := Function.update s.mStorage (c.slot tail) none
        consumer := .popStore out tail }
    | _ => none
  | .storeTail =>
    match s.consumer with
    | .popStore out tail => some { s with
        mTail := tail + 1
        consumer := .idle
        delivered := s.delivered ++ [out] }
    | _ => none
  | .query q =>
    match s.consumer with
    | .idle => some { s with consumer := .observing q.start }
    | _ => none
  | .observe =>
    match s.consumer with
    | .observing o =>
      (o.load c s.mHead s.mTail).map fun o' ↦ { s with consumer := .observing o' }
    | _ => none
  | .answer =>
    match s.consumer with
    | .observing (.answer _) => some { s with consumer := .idle }
    | .observing (.count _) => some { s with consumer := .idle }
    | _ => none

/-- One event of either thread. -/
def step (c : Capacity) (s : State T) : Event T → Option (State T)
  | .producer e => producerStep c s e
  | .consumer e => consumerStep c s e

end SPSCQueue

end FastInAHurry
