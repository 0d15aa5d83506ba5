import FastInAHurry.Library.RingIndex
import FastInAHurry.Library.Runs

/-!
# The multi-producer single-consumer queue

The embedding of `structs/MPSCQueue.hh` as a step function, with one event for each atomic load,
store or compare-exchange and for each construction, move-out or destruction of a slot. There is a
producer for every element of an arbitrary type, and each of them may be anywhere in `try_push`.

`compare_exchange_weak` may fail although the counter has the expected value; the event says whether
it does. A failing one leaves the value it found in the local `tail`. The pauses of the backoff loop
have no effect on shared data, but its counter is kept.

A slot is raw storage or holds an element; the element is tagged with the index whose claimant
constructed it. The tag and the histories `claims` and `popped` are not part of the queue: they
record the values whose compare-exchange succeeded, in that order, and the values popped.
-/

namespace FastInAHurry

open RingIndex

namespace MPSCQueue

/-- Where a producer stands inside `try_push`. -/
inductive Producer (T : Type*) where
  | idle
  | loadTail (x : T)
  | loadHead (x : T) (tail backoff : UInt64)
  | claim (x : T) (tail backoff head : UInt64)
  | construct (x : T) (tail : UInt64)
  | storeReady (x : T) (tail : UInt64)
deriving DecidableEq

/-- Where the consumer stands inside `try_pop`. -/
inductive Consumer (T : Type*) where
  | idle
  | loadHead
  | loadReady (head : UInt64)
  | test (head : UInt64) (ready : Bool)
  | destroy (out : T) (head : UInt64)
  | clearReady (out : T) (head : UInt64)
  | storeHead (out : T) (head : UInt64)
deriving DecidableEq

structure State (ι T : Type*) where
  mHead : UInt64
  mTail : UInt64
  data : UInt64 → Option (UInt64 × T)
  ready : UInt64 → Bool
  producers : ι → Producer T
  consumer : Consumer T
  claims : List T
  popped : List T

/-- An access or a call of a producer. -/
inductive ProducerEvent (T : Type*) where
  | tryPush (x : T)
  | loadTail
  | loadHead
  | returnFalse
  | compareExchange (spurious : Bool)
  | constructAt
  | storeReady
deriving DecidableEq

/-- An access or a call of the consumer. -/
inductive ConsumerEvent where
  | tryPop
  | loadHead
  | loadReady
  | returnFalse
  | moveOut
  | destroyAt
  | clearReady
  | storeHead
deriving DecidableEq

/-- What a schedule can do next. -/
inductive Event (ι T : Type*) where
  | producer (p : ι) (e : ProducerEvent T)
  | consumer (e : ConsumerEvent)
deriving DecidableEq

variable {ι T : Type*}

/-- The queue as constructed, with every thread outside it. -/
def init : State ι T where
  mHead := 0
  mTail := 0
  data := fun _ ↦ none
  ready := fun _ ↦ false
  producers := fun _ ↦ .idle
  consumer := .idle
  claims := []
  popped := []

variable [DecidableEq ι]

/-- Move the producer `p` to the program point `q`. -/
def State.setProducer (s : State ι T) (p : ι) (q : Producer T) : State ι T :=
  { s with producers := Function.update s.producers p q }

/-- A step of the producer `p`. -/
def producerStep (c : Capacity) (s : State ι T) (p : ι) : ProducerEvent T → Option (State ι T)
  | .tryPush x =>
    match s.producers p with
    | .idle => some (s.setProducer p (.loadTail x))
    | _ => none
  | .loadTail =>
    match s.producers p with
    | .loadTail x => some (s.setProducer p (.loadHead x s.mTail 1))
    | _ => none
  | .loadHead =>
    match s.producers p with
    | .loadHead x tail backoff => some (s.setProducer p (.claim x tail backoff s.mHead))
    | _ => none
  | .returnFalse =>
    match s.producers p with
    | .claim _ tail _ head =>
      if c.word ≤ tail - head then some (s.setProducer p .idle) else none
    | _ => none
  | .compareExchange spurious =>
    match s.producers p with
    | .claim x tail backoff head =>
      if c.word ≤ tail - head then none
      else if s.mTail = tail ∧ spurious = false then
        some { s.setProducer p (.construct x tail) with
          mTail := tail + 1
          claims := s.claims ++ [x] }
      else some (s.setProducer p (.loadHead x s.mTail (min (backoff <<< 1) 64)))
    | _ => none
  | .constructAt =>
    match s.producers p with
    | .construct x tail => some { s.setProducer p (.storeReady x tail) with
        data := Function.update s.data (c.slot tail) (some (tail, x)) }
    | _ => none
  | .storeReady =>
    match s.producers p with
    | .storeReady _ tail => some { s.setProducer p .idle with
        ready := Function.update s.ready (c.slot tail) true }
    | _ => none

/-- A step of the consumer. -/
def consumerStep (c : Capacity) (s : State ι T) : ConsumerEvent → Option (State ι T)
  | .tryPop =>
    match s.consumer with
    | .idle => some { s with consumer := .loadHead }
    | _ => none
  | .loadHead =>
    match s.consumer with
    | .loadHead => some { s with consumer := .loadReady s.mHead }
    | _ => none
  | .loadReady =>
    match s.consumer with
    | .loadReady head => some { s with consumer := .test head (s.ready (c.slot head)) }
    | _ => none
  | .returnFalse =>
    match s.consumer with
    | .test _ false => some { s with consumer := .idle }
    | _ => none
  | .moveOut =>
    match s.consumer with
    | .test head true =>
      (s.data (c.slot head)).map fun elem ↦ { s with consumer := .destroy elem.2 head }
    | _ => none
  | .destroyAt =>
    match s.consumer with
    | .destroy out head => some { s with
        data := Function.update s.data (c.slot head) none
        consumer := .clearReady out head }
    | _ => none
  | .clearReady =>
    match s.consumer with
    | .clearReady out head => some { s with
        ready := Function.update s.ready (c.slot head) false
        consumer := .storeHead out head }
    | _ => none
  | .storeHead =>
    match s.consumer with
    | .storeHead out head => some { s with
        mHead := head + 1
        consumer := .idle
        popped := s.popped ++ [out] }
    | _ => none

/-- One event of any thread. -/
def step (c : Capacity) (s : State ι T) : Event ι T → Option (State ι T)
  | .producer p e => producerStep c s p e
  | .consumer e => consumerStep c s e

end MPSCQueue

end FastInAHurry
