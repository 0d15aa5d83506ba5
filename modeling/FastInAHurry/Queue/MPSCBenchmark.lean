import FastInAHurry.Library.Merge
import FastInAHurry.Library.Turns
import FastInAHurry.Queue.MPSCSafety
import Mathlib.Algebra.Order.BigOperators.Group.Finset

/-!
# Many producers and one consumer that retry

The program of `BM_MPSCQueue_ManyProducersOneConsumer` in `benchmarks/MPSCQueue_bench.cc`, one pass
of it over a fresh queue: every producer pushes its values in order, trying each of them again until
`try_push` accepts it, and the consumer pops until it has counted them all. The number of producers,
their values and the capacity are parameters.

Whether a compare-exchange fails spuriously is part of the turn in which it happens. Nothing that is
said about what arrives depends on it. Termination does: a producer whose exchange fails whenever it
could succeed does not get on, so there the exchanges may fail any number of times, but not for
ever.

## Termination

A producer may be told that the queue is full although it is not, and may lose the race for an index
again and again; but each race has a winner. The work left is what has to be claimed, published and
popped. Somebody can always go on with it: an owner of an index is about to publish, whatever the
others do; if nobody owns the index at the head, its element is there for the consumer; and if
nothing is claimed beyond the head, there is room for every producer that has values left.
-/

namespace FastInAHurry

open RingIndex Turns

namespace ManyProducersOneConsumer

open MPSCQueue (Producer Consumer ProducerEvent ConsumerEvent producerStep consumerStep
  setProducer_self setProducer_of_ne)

inductive Thread (ι : Type*) where
  | producer (p : ι)
  | consumer
deriving DecidableEq

/-- The queue and the loop counters of the threads. -/
structure State (ι T : Type*) where
  queue : MPSCQueue.State ι T
  i : ι → ℕ
  popped : ℕ

variable {ι T : Type*}

def init : State ι T where
  queue := MPSCQueue.init
  i := fun _ ↦ 0
  popped := 0

/-- The next access of a producer, `none` once its loop has ended. -/
def pushEvent (c : Capacity) (items : ι → List T) (s : State ι T) (p : ι) (spurious : Bool) :
    Option (ProducerEvent T) :=
  match s.queue.producers p with
  | .idle => (items p)[s.i p]?.map .tryPush
  | .loadTail _ => some .loadTail
  | .loadHead _ _ _ => some .loadHead
  | .claim _ tail _ head =>
    some (if c.word ≤ tail - head then .returnFalse else .compareExchange spurious)
  | .construct _ _ => some .constructAt
  | .storeReady _ _ => some .storeReady

/-- The next access of the consumer, `none` once its loop has ended. -/
def popEvent (n : ℕ) (s : State ι T) : Option ConsumerEvent :=
  match s.queue.consumer with
  | .idle => if s.popped < n then some .tryPop else none
  | .loadHead => some .loadHead
  | .loadReady _ => some .loadReady
  | .test _ ready => some (if ready then .moveOut else .returnFalse)
  | .destroy _ _ => some .destroyAt
  | .clearReady _ _ => some .clearReady
  | .storeHead _ _ => some .storeHead

/-- `try_pop` returns true, and the value is counted, with the store of the head. -/
def poppedNext (popped : ℕ) : ConsumerEvent → ℕ
  | .storeHead => popped + 1
  | _ => popped

variable [DecidableEq ι]

/-- `try_push` returns true, and the loop goes on to the next value, with the store of the flag. -/
def iNext (i : ι → ℕ) (p : ι) : ProducerEvent T → ι → ℕ
  | .storeReady => Function.update i p (i p + 1)
  | _ => i

variable [Fintype ι]

/-- How many values the consumer waits for. -/
def total (items : ι → List T) : ℕ := ∑ p, (items p).length

/-- A thread takes a turn. -/
def turn (c : Capacity) (items : ι → List T) (s : State ι T) (spurious : Bool) :
    Thread ι → State ι T
  | .producer p =>
    match pushEvent c items s p spurious with
    | none => s
    | some e =>
      match producerStep c s.queue p e with
      | none => s
      | some q => { s with queue := q, i := iNext s.i p e }
  | .consumer =>
    match popEvent (total items) s with
    | none => s
    | some e =>
      match consumerStep c s.queue e with
      | none => s
      | some q => { s with queue := q, popped := poppedNext s.popped e }

variable {c : Capacity} {items : ι → List T} {s t : State ι T} {p : ι} {spurious : Bool}

/-! ## The invariant -/

/-- The values the producer has claimed an index for. -/
def claimed (s : State ι T) (p : ι) : ℕ := s.i p + (s.queue.producers p).owns.isSome.toNat

/-- The value the producer is pushing is the one its counter stands at. -/
def PushOk (items : List T) (i : ℕ) : Producer T → Prop
  | .idle => i ≤ items.length
  | .loadTail x => items[i]? = some x
  | .loadHead x _ _ => items[i]? = some x
  | .claim x _ _ _ => items[i]? = some x
  | .construct x _ => items[i]? = some x
  | .storeReady x _ => items[i]? = some x

/-- The consumer calls `try_pop` only while values are missing. -/
def PopOk (popped n : ℕ) : Consumer T → Prop
  | .idle => True
  | _ => popped < n

structure Inv (c : Capacity) (items : ι → List T) (s : State ι T) : Prop where
  queue : MPSCQueue.Inv c s.queue
  merge : Merge (fun p ↦ (items p).take (claimed s p)) s.queue.claims
  push_ok : ∀ p, PushOk (items p) (s.i p) (s.queue.producers p)
  popped_eq : s.queue.popped.length = s.popped
  pop_ok : PopOk s.popped (total items) s.queue.consumer

theorem Inv.init : Inv c items (init : State ι T) where
  queue := MPSCQueue.Inv.init
  merge := Merge.nil
  push_ok _ := Nat.zero_le _
  popped_eq := rfl
  pop_ok := trivial

theorem PushOk.le {l : List T} {i : ℕ} {q : Producer T} (h : PushOk l i q) : i ≤ l.length := by
  cases q with
  | idle => exact h
  | _ => exact (List.getElem?_eq_some_iff.mp h).1.le

theorem length_le_total {claims : List T} {k : ι → ℕ}
    (h : Merge (fun p ↦ (items p).take (k p)) claims) : claims.length ≤ total items := by
  rw [h.length_eq_sum]
  refine Finset.sum_le_sum fun p _ ↦ ?_
  exact List.length_take_le' ..

theorem Inv.popped_le (h : Inv c items s) : s.popped ≤ s.queue.claims.length := by
  rw [← h.popped_eq]
  exact h.queue.popped_prefix.length_le

/-! ## What a turn does -/

/-- Move the producer `p` to the program point `q`. -/
def State.point (s : State ι T) (p : ι) (q : Producer T) : State ι T :=
  { s with queue := s.queue.setProducer p q }

/-- Everything a turn of the producer `p` can do. -/
inductive PushTurn (c : Capacity) (items : ι → List T) (s : State ι T) (p : ι) (spurious : Bool) :
    State ι T → Prop
  | done (hp : s.queue.producers p = .idle) (hi : (items p).length ≤ s.i p) :
      PushTurn c items s p spurious s
  | tryPush {x : T} (hp : s.queue.producers p = .idle) (hx : (items p)[s.i p]? = some x) :
      PushTurn c items s p spurious (s.point p (.loadTail x))
  | loadTail {x : T} (hp : s.queue.producers p = .loadTail x) :
      PushTurn c items s p spurious (s.point p (.loadHead x s.queue.mTail 1))
  | loadHead {x : T} {tail backoff : UInt64}
      (hp : s.queue.producers p = .loadHead x tail backoff) :
      PushTurn c items s p spurious (s.point p (.claim x tail backoff s.queue.mHead))
  | full {x : T} {tail backoff head : UInt64}
      (hp : s.queue.producers p = .claim x tail backoff head) (hfull : c.word ≤ tail - head) :
      PushTurn c items s p spurious (s.point p .idle)
  | retry {x : T} {tail backoff head : UInt64}
      (hp : s.queue.producers p = .claim x tail backoff head) (hroom : ¬c.word ≤ tail - head)
      (hlost : ¬(s.queue.mTail = tail ∧ spurious = false)) :
      PushTurn c items s p spurious
        (s.point p (.loadHead x s.queue.mTail (min (backoff <<< 1) 64)))
  | claim {x : T} {tail backoff head : UInt64}
      (hp : s.queue.producers p = .claim x tail backoff head) (hroom : ¬c.word ≤ tail - head)
      (htail : s.queue.mTail = tail) :
      PushTurn c items s p spurious { s with
        queue := { s.queue.setProducer p (.construct x tail) with
          mTail := tail + 1
          claims := s.queue.claims ++ [x] } }
  | constructAt {x : T} {tail : UInt64} (hp : s.queue.producers p = .construct x tail) :
      PushTurn c items s p spurious { s with
        queue := { s.queue.setProducer p (.storeReady x tail) with
          data := Function.update s.queue.data (c.slot tail) (some (tail, x)) } }
  | storeReady {x : T} {tail : UInt64} (hp : s.queue.producers p = .storeReady x tail) :
      PushTurn c items s p spurious { s with
        queue := { s.queue.setProducer p .idle with
          ready := Function.update s.queue.ready (c.slot tail) true }
        i := Function.update s.i p (s.i p + 1) }

/-- Everything a turn of the consumer can do. -/
inductive PopTurn (c : Capacity) (items : ι → List T) (s : State ι T) : State ι T → Prop
  | done (hq : s.queue.consumer = .idle) (hn : total items ≤ s.popped) : PopTurn c items s s
  | tryPop (hq : s.queue.consumer = .idle) (hn : s.popped < total items) :
      PopTurn c items s { s with queue := { s.queue with consumer := .loadHead } }
  | loadHead (hq : s.queue.consumer = .loadHead) :
      PopTurn c items s { s with queue := { s.queue with consumer := .loadReady s.queue.mHead } }
  | loadReady {head : UInt64} (hq : s.queue.consumer = .loadReady head) :
      PopTurn c items s { s with queue := { s.queue with
        consumer := .test head (s.queue.ready (c.slot head)) } }
  | returnFalse {head : UInt64} (hq : s.queue.consumer = .test head false) :
      PopTurn c items s { s with queue := { s.queue with consumer := .idle } }
  | moveOut {head : UInt64} {elem : UInt64 × T} (hq : s.queue.consumer = .test head true)
      (helem : s.queue.data (c.slot head) = some elem) :
      PopTurn c items s { s with queue := { s.queue with consumer := .destroy elem.2 head } }
  | destroyAt {out : T} {head : UInt64} (hq : s.queue.consumer = .destroy out head) :
      PopTurn c items s { s with queue := { s.queue with
        data := Function.update s.queue.data (c.slot head) none
        consumer := .clearReady out head } }
  | clearReady {out : T} {head : UInt64} (hq : s.queue.consumer = .clearReady out head) :
      PopTurn c items s { s with queue := { s.queue with
        ready := Function.update s.queue.ready (c.slot head) false
        consumer := .storeHead out head } }
  | storeHead {out : T} {head : UInt64} (hq : s.queue.consumer = .storeHead out head) :
      PopTurn c items s { s with
        queue := { s.queue with
          mHead := head + 1
          consumer := .idle
          popped := s.queue.popped ++ [out] }
        popped := s.popped + 1 }

omit [Fintype ι] in
theorem exists_producerStep {e : ProducerEvent T} (he : pushEvent c items s p spurious = some e) :
    ∃ q, producerStep c s.queue p e = some q := by
  rw [pushEvent] at he
  cases hp : s.queue.producers p with
  | idle =>
    rw [hp] at he
    obtain ⟨x, -, rfl⟩ := Option.map_eq_some_iff.mp he
    exact ⟨_, by rw [producerStep, hp]⟩
  | claim x tail backoff head =>
    simp only [hp, Option.some.injEq] at he
    subst he
    by_cases hfull : c.word ≤ tail - head
    · simp [producerStep, hp, hfull]
    · by_cases hwin : s.queue.mTail = tail ∧ spurious = false <;>
        simp only [producerStep, hp, hfull, hwin, if_false] <;> exact ⟨_, rfl⟩
  | _ =>
    simp only [hp, Option.some.injEq] at he
    subst he
    exact ⟨_, by rw [producerStep, hp]⟩

theorem pushTurn : PushTurn c items s p spurious (turn c items s spurious (.producer p)) := by
  rw [turn, pushEvent]
  cases hp : s.queue.producers p with
  | idle =>
    cases hx : (items p)[s.i p]? with
    | none => exact .done hp (List.getElem?_eq_none_iff.mp hx)
    | some x =>
      simp only [Option.map_some, producerStep, hp]
      exact .tryPush hp hx
  | loadTail x =>
    simp only [producerStep, hp]
    exact .loadTail hp
  | loadHead x tail backoff =>
    simp only [producerStep, hp]
    exact .loadHead hp
  | claim x tail backoff head =>
    by_cases hfull : c.word ≤ tail - head
    · simp only [hfull, if_true, producerStep, hp]
      exact .full hp hfull
    · by_cases hwin : s.queue.mTail = tail ∧ spurious = false
      · simp only [hfull, if_false, producerStep, hp, hwin]
        exact .claim hp hfull hwin.1
      · simp only [hfull, if_false, producerStep, hp, hwin]
        exact .retry hp hfull hwin
  | construct x tail =>
    simp only [producerStep, hp]
    exact .constructAt hp
  | storeReady x tail =>
    simp only [producerStep, hp]
    exact .storeReady hp

/-- The consumer does not read a raw slot. -/
theorem Inv.exists_elem (h : Inv c items s) {head : UInt64}
    (hq : s.queue.consumer = .test head true) :
    ∃ elem, s.queue.data (c.slot head) = some elem :=
  let ⟨_, _, _, hdata⟩ := h.queue.taking (Or.inl hq)
  ⟨_, hdata⟩

theorem Inv.exists_consumerStep (h : Inv c items s) {e : ConsumerEvent}
    (he : popEvent (total items) s = some e) : ∃ q, consumerStep c s.queue e = some q := by
  rw [popEvent] at he
  cases hq : s.queue.consumer with
  | idle =>
    simp only [hq, Option.ite_none_right_eq_some, Option.some.injEq] at he
    obtain ⟨-, rfl⟩ := he
    exact ⟨_, by rw [consumerStep, hq]⟩
  | test head ready =>
    simp only [hq, Option.some.injEq] at he
    subst he
    cases ready with
    | false => exact ⟨_, by simp only [consumerStep, hq]; rfl⟩
    | true =>
      obtain ⟨elem, helem⟩ := h.exists_elem hq
      exact ⟨_, by simp only [if_true, consumerStep, hq, helem, Option.map_some]; rfl⟩
  | _ =>
    simp only [hq, Option.some.injEq] at he
    subst he
    exact ⟨_, by rw [consumerStep, hq]⟩

theorem popTurn (h : Inv c items s) : PopTurn c items s (turn c items s spurious .consumer) := by
  rw [turn, popEvent]
  cases hq : s.queue.consumer with
  | idle =>
    by_cases hn : s.popped < total items
    · simp only [hn, if_true, consumerStep, hq]
      exact .tryPop hq hn
    · simp only [hn, if_false]
      exact .done hq (Nat.not_lt.mp hn)
  | loadHead =>
    simp only [consumerStep, hq]
    exact .loadHead hq
  | loadReady head =>
    simp only [consumerStep, hq]
    exact .loadReady hq
  | test head ready =>
    cases ready with
    | false =>
      simp only [consumerStep, hq]
      exact .returnFalse hq
    | true =>
      obtain ⟨elem, helem⟩ := h.exists_elem hq
      simp only [if_true, consumerStep, hq, helem, Option.map_some]
      exact .moveOut hq helem
  | destroy out head =>
    simp only [consumerStep, hq]
    exact .destroyAt hq
  | clearReady out head =>
    simp only [consumerStep, hq]
    exact .clearReady hq
  | storeHead out head =>
    simp only [consumerStep, hq]
    exact .storeHead hq

/-! ## How far a thread is from some progress -/

/-- How many turns a producer is away from publishing the index it owns or, if it owns none, from
claiming one of an empty queue. -/
def pushDistance (mTail : UInt64) (c : Capacity) : Producer T → ℕ
  | .storeReady _ _ => 0
  | .construct _ _ => 1
  | .claim _ tail _ head => if c.word ≤ tail - head then 4 else if tail = mTail then 0 else 2
  | .loadHead _ tail _ => if tail = mTail then 1 else 5
  | .loadTail _ => 2
  | .idle => 3

/-- How many turns the consumer is away from popping the published element at the head. -/
def popDistance : Consumer T → ℕ
  | .storeHead _ _ => 0
  | .clearReady _ _ => 1
  | .destroy _ _ => 2
  | .test _ true => 3
  | .loadReady _ => 4
  | .loadHead => 5
  | .idle => 6
  | .test _ false => 7

/-- A producer gets on if it owns an index, or has values left and finds the queue empty; the
consumer does if the element at the head is published. -/
def Helpful (items : ι → List T) (s : State ι T) : Thread ι → Prop
  | .producer p => (s.queue.producers p).owns.isSome = true ∨
      s.queue.claims.length = s.popped ∧ s.i p < (items p).length
  | .consumer => s.popped < s.queue.claims.length ∧ s.queue.Free s.popped

/-- What a turn of the producer `p` to the program point `q` achieves: it claims an index, it
publishes the one it owns, or it gets closer to one of the two. -/
inductive Advance (c : Capacity) (items : ι → List T) (s t : State ι T) (p : ι) (q : Producer T)
    (spurious : Bool) : Prop
  | claim (hclaims : t.queue.claims.length = s.queue.claims.length + 1)
      (hs : (s.queue.producers p).owns = none) (hq : q.owns.isSome = true)
  | publish (hclaims : t.queue.claims = s.queue.claims)
      (hs : (s.queue.producers p).owns.isSome = true) (hq : q.owns = none)
  | closer (hclaims : t.queue.claims = s.queue.claims) (htail : t.queue.mTail = s.queue.mTail)
      (howns : q.owns = (s.queue.producers p).owns) (hi : t.i = s.i)
      (hd : spurious = false → Helpful items s (.producer p) →
        pushDistance s.queue.mTail c q < pushDistance s.queue.mTail c (s.queue.producers p))

/-- A turn of the producer `p` to the program point `q`. -/
structure Pushed (c : Capacity) (items : ι → List T) (s t : State ι T) (p : ι) (q : Producer T)
    (spurious : Bool) : Prop where
  inv : Inv c items t
  popped_eq : t.popped = s.popped
  consumer_eq : t.queue.consumer = s.queue.consumer
  producers_eq : t.queue.producers = Function.update s.queue.producers p q
  i_eq : ∀ p', p' ≠ p → t.i p' = s.i p'
  advance : Advance c items s t p q spurious

/-- The invariant of the program after a turn of the producer `p` to `q`, with what it has claimed
then. -/
theorem Inv.of_push (h : Inv c items s) (hqueue : MPSCQueue.Inv c t.queue) {q : Producer T}
    (hproducers : t.queue.producers = Function.update s.queue.producers p q)
    (hi : ∀ p', p' ≠ p → t.i p' = s.i p')
    (hmerge : Merge (fun p' ↦ (items p').take
      (if p' = p then t.i p + q.owns.isSome.toNat else claimed s p')) t.queue.claims)
    (hok : PushOk (items p) (t.i p) q)
    (hpopped : t.queue.popped = s.queue.popped ∧ t.popped = s.popped)
    (hcons : t.queue.consumer = s.queue.consumer) : Inv c items t := by
  refine ⟨hqueue, ?_, ?_, ?_, ?_⟩
  · have hclaimed : ∀ p', claimed t p' =
        if p' = p then t.i p + q.owns.isSome.toNat else claimed s p' := fun p' ↦ by
      rw [claimed, hproducers]
      split <;> rename_i hp'
      · rw [hp', Function.update_self]
      · rw [Function.update_of_ne hp', hi p' hp', claimed]
    simpa only [hclaimed] using hmerge
  · rw [hproducers]
    refine (Function.forall_update_iff _ fun p' r ↦ PushOk (items p') (t.i p') r).mpr ⟨hok, ?_⟩
    intro p' hp'
    rw [hi p' hp']
    exact h.push_ok p'
  · rw [hpopped.1, hpopped.2]
    exact h.popped_eq
  · rw [hpopped.2, hcons]
    exact h.pop_ok

/-- A turn that claims nothing leaves what was claimed. -/
theorem Inv.merge_of_eq (h : Inv c items s) {k : ℕ} (hk : k = claimed s p) :
    Merge (fun p' ↦ (items p').take (if p' = p then k else claimed s p')) s.queue.claims := by
  have hsame : ∀ p', (if p' = p then k else claimed s p') = claimed s p' := fun p' ↦ by
    split <;> rename_i hp'
    · rw [hp', hk]
    · rfl
  simpa only [hsame] using h.merge

/-- A turn that moves the program point and nothing else. -/
theorem Pushed.point (h : Inv c items s) {q : Producer T}
    (hn : MPSCQueue.ProducerNext c s.queue (s.queue.producers p) q)
    (howns : (s.queue.producers p).owns = none ∧ q.owns = none)
    (hok : PushOk (items p) (s.i p) q)
    (hd : spurious = false → s.queue.claims.length = s.popped →
      pushDistance s.queue.mTail c q < pushDistance s.queue.mTail c (s.queue.producers p)) :
    Pushed c items s (s.point p q) p q spurious where
  inv := by
    refine h.of_push (h.queue.producerNext hn) rfl (fun _ _ ↦ rfl) (h.merge_of_eq ?_) hok
      ⟨rfl, rfl⟩ rfl
    rw [claimed, howns.1, howns.2]
    rfl
  popped_eq := rfl
  consumer_eq := rfl
  producers_eq := rfl
  i_eq _ _ := rfl
  advance := by
    refine .closer rfl rfl (howns.2.trans howns.1.symm) rfl fun hsp hhelp ↦ hd hsp ?_
    rcases hhelp with hsome | ⟨heq, -⟩
    · rw [howns.1] at hsome
      cases hsome
    · exact heq

/-- With nothing claimed beyond the head, the tail and the head are the same. -/
theorem Inv.mTail_eq (h : Inv c items s) (heq : s.queue.claims.length = s.popped) :
    s.queue.mTail = s.queue.mHead := by
  rw [h.queue.tail_eq, h.queue.head_eq, h.popped_eq, heq]

theorem PushTurn.pushed (hN : total items < 2 ^ 64) (h : Inv c items s)
    (ht : PushTurn c items s p spurious t) : ∃ q, Pushed c items s t p q spurious := by
  have hok := h.push_ok p
  cases ht with
  | done hp hi =>
    refine ⟨_, h, rfl, rfl, (Function.update_eq_self p _).symm, fun _ _ ↦ rfl, ?_⟩
    refine .closer rfl rfl rfl rfl fun _ hhelp ↦ ?_
    rcases hhelp with hsome | ⟨-, hlt⟩
    · rw [hp] at hsome
      cases hsome
    · exact absurd hlt (Nat.not_lt.mpr hi)
  | tryPush hp hx =>
    refine ⟨_, .point h (hp ▸ .tryPush _) ⟨by rw [hp]; rfl, rfl⟩ hx fun _ _ ↦ ?_⟩
    simp [hp, pushDistance]
  | loadTail hp =>
    rw [hp] at hok
    refine ⟨_, .point h (hp ▸ .loadTail _) ⟨by rw [hp]; rfl, rfl⟩ hok fun _ _ ↦ ?_⟩
    simp [hp, pushDistance]
  | @loadHead x tail backoff hp =>
    rw [hp] at hok
    refine ⟨_, .point h (hp ▸ .loadHead _ _ _) ⟨by rw [hp]; rfl, rfl⟩ hok fun _ heq ↦ ?_⟩
    by_cases htail : tail = s.queue.mTail
    · -- nothing is claimed beyond the head just loaded, so the full test will pass
      have hroom : ¬c.word ≤ tail - s.queue.mHead := by
        rw [htail, h.mTail_eq heq, UInt64.sub_self, UInt64.le_iff_toNat_le, c.toNat_word]
        exact Nat.not_le.mpr c.size_pos
      simp only [hp, pushDistance, if_neg hroom, if_pos htail]
      decide
    · simp only [hp, pushDistance, if_neg htail]
      split <;> decide
  | full hp hfull =>
    rw [hp] at hok
    refine ⟨_, .point h (hp ▸ .returnFalse hfull) ⟨by rw [hp]; rfl, rfl⟩ hok.le fun _ _ ↦ ?_⟩
    simp [hp, pushDistance, hfull]
  | @retry x tail backoff head hp hroom hlost =>
    rw [hp] at hok
    refine ⟨_, .point h (hp ▸ .retry _ _ _ _) ⟨by rw [hp]; rfl, rfl⟩ hok fun hsp _ ↦ ?_⟩
    have hne : tail ≠ s.queue.mTail := fun heq ↦ hlost ⟨heq.symm, hsp⟩
    simp only [hp, pushDistance, if_neg hroom, if_neg hne, if_true]
    decide
  | @claim x tail backoff head hp hroom htail =>
    rw [hp] at hok
    have hclaimed : claimed s p = s.i p := by rw [claimed, hp]; rfl
    have hmerge : Merge (fun p' ↦ (items p').take
        (if p' = p then s.i p + 1 else claimed s p')) (s.queue.claims ++ [x]) := by
      refine h.merge.push (p := p) ?_ fun p' hp' ↦ by rw [if_neg hp']
      rw [if_pos rfl, hclaimed, List.take_add_one, show (items p)[s.i p]? = some x from hok]
      rfl
    have hshort : s.queue.claims.length + 1 < 2 ^ 64 := by
      have := length_le_total hmerge
      rw [List.length_append, List.length_singleton] at this
      omega
    refine ⟨.construct x tail, ?_, rfl, rfl, rfl, fun _ _ ↦ rfl, .claim ?_ (by rw [hp]; rfl) rfl⟩
    · exact h.of_push (h.queue.claim hp hroom htail hshort) rfl (fun _ _ ↦ rfl) hmerge hok
        ⟨rfl, rfl⟩ rfl
    · simp
  | @constructAt x tail hp =>
    rw [hp] at hok
    refine ⟨.storeReady x tail, ?_, rfl, rfl, rfl, fun _ _ ↦ rfl,
      .closer rfl rfl (by rw [hp]; rfl) rfl fun _ _ ↦ by rw [hp]; exact Nat.zero_lt_one⟩
    refine h.of_push (h.queue.constructAt hp) rfl (fun _ _ ↦ rfl) (h.merge_of_eq ?_) hok
      ⟨rfl, rfl⟩ rfl
    rw [claimed, hp]
    rfl
  | @storeReady x tail hp =>
    rw [hp] at hok
    have hi : Function.update s.i p (s.i p + 1) p = s.i p + 1 := Function.update_self ..
    refine ⟨.idle, ?_, rfl, rfl, rfl, fun p' hp' ↦ Function.update_of_ne hp' ..,
      .publish rfl (by rw [hp]; rfl) rfl⟩
    refine h.of_push (h.queue.storeReady hp) rfl (fun p' hp' ↦ Function.update_of_ne hp' ..)
      (h.merge_of_eq ?_) ?_ ⟨rfl, rfl⟩ rfl
    · rw [claimed, hp]
      exact hi
    · show Function.update s.i p (s.i p + 1) p ≤ (items p).length
      rw [hi]
      exact (List.getElem?_eq_some_iff.mp hok).1

/-- A turn of the consumer: it pops a value, or it gets closer to that. -/
structure Popped (c : Capacity) (items : ι → List T) (s t : State ι T) : Prop where
  inv : Inv c items t
  claims_eq : t.queue.claims = s.queue.claims
  mTail_eq : t.queue.mTail = s.queue.mTail
  producers_eq : t.queue.producers = s.queue.producers
  i_eq : t.i = s.i
  advance : s.popped < s.queue.claims.length ∧ t.popped = s.popped + 1 ∨
    t.popped = s.popped ∧ (Helpful items s .consumer →
      popDistance t.queue.consumer < popDistance s.queue.consumer)

/-- A turn that works on the slot of the head, if it does anything to the queue. -/
theorem Popped.quiet (h : Inv c items s) {q : Consumer T} {data : UInt64 → Option (UInt64 × T)}
    {ready : UInt64 → Bool}
    (hqueue : MPSCQueue.Inv c { s.queue with data := data, ready := ready, consumer := q })
    (hok : PopOk s.popped (total items) q)
    (hd : Helpful items s .consumer → popDistance q < popDistance s.queue.consumer) :
    Popped c items s
      { s with queue := { s.queue with data := data, ready := ready, consumer := q } } where
  inv := ⟨hqueue, h.merge, h.push_ok, h.popped_eq, hok⟩
  claims_eq := rfl
  mTail_eq := rfl
  producers_eq := rfl
  i_eq := rfl
  advance := .inr ⟨rfl, hd⟩

theorem PopTurn.popped (h : Inv c items s) (ht : PopTurn c items s t) : Popped c items s t := by
  have hok := h.pop_ok
  have hcons := h.queue.consumer_ok
  have hlen : s.queue.claims.length ≤ total items := length_le_total h.merge
  cases ht with
  | done hq hn =>
    refine ⟨h, rfl, rfl, rfl, rfl, .inr ⟨rfl, fun hhelp ↦ ?_⟩⟩
    exact absurd (hhelp.1.trans_le hlen) (Nat.not_lt.mpr hn)
  | tryPop hq hn =>
    exact .quiet h (h.queue.consumerNext (hq ▸ .tryPop)) hn fun _ ↦ by simp [hq, popDistance]
  | loadHead hq =>
    rw [hq] at hok
    exact .quiet h (h.queue.consumerNext (hq ▸ .loadHead)) hok fun _ ↦ by simp [hq, popDistance]
  | @loadReady head hq =>
    rw [hq] at hok hcons
    refine .quiet h (h.queue.consumerNext (hq ▸ .loadReady _)) hok fun hhelp ↦ ?_
    -- the element at the head is published, so the flag just loaded is up
    obtain ⟨hlt, hfree⟩ := hhelp
    rw [← h.popped_eq] at hlt hfree
    have hcell := h.queue.published _ _ (by rw [hq]; rfl) (List.getElem?_eq_getElem hlt) hfree
    have hready : s.queue.ready (c.slot head) = true := by
      rw [show head = s.queue.mHead from hcons, h.queue.head_eq]
      exact congrArg Prod.snd hcell
    simp [hq, hready, popDistance]
  | returnFalse hq =>
    exact .quiet h (h.queue.consumerNext (hq ▸ .returnFalse _)) trivial fun _ ↦ by
      simp [hq, popDistance]
  | moveOut hq helem =>
    rw [hq] at hok
    exact .quiet h (h.queue.consumerNext (hq ▸ .moveOut helem)) hok fun _ ↦ by
      simp [hq, popDistance]
  | destroyAt hq =>
    rw [hq] at hok
    exact .quiet h (h.queue.destroyAt hq) hok fun _ ↦ by simp [hq, popDistance]
  | clearReady hq =>
    rw [hq] at hok
    exact .quiet h (h.queue.clearReady hq) hok fun _ ↦ by simp [hq, popDistance]
  | @storeHead out head hq =>
    rw [hq] at hcons
    have hlt := (List.getElem?_eq_some_iff.mp hcons.1.2.1).1
    rw [h.popped_eq] at hlt
    refine ⟨⟨h.queue.storeHead hq, h.merge, h.push_ok, ?_, trivial⟩, rfl, rfl, rfl, rfl,
      .inl ⟨hlt, rfl⟩⟩
    show (s.queue.popped ++ [out]).length = s.popped + 1
    rw [List.length_append, h.popped_eq]
    rfl

theorem pushed (hN : total items < 2 ^ 64) (h : Inv c items s) (p : ι) (spurious : Bool) :
    ∃ q, Pushed c items s (turn c items s spurious (.producer p)) p q spurious :=
  pushTurn.pushed hN h

theorem popped (h : Inv c items s) (spurious : Bool) :
    Popped c items s (turn c items s spurious .consumer) :=
  (popTurn h).popped h

theorem Inv.turn (hN : total items < 2 ^ 64) (h : Inv c items s) (spurious : Bool)
    (t : Thread ι) : Inv c items (turn c items s spurious t) := by
  cases t with
  | producer p =>
    obtain ⟨q, hq⟩ := pushed hN h p spurious
    exact hq.inv
  | consumer => exact (popped h spurious).inv

/-! ## Everybody finishes -/

/-- All the loops have ended. -/
structure Finished (items : ι → List T) (s : State ι T) : Prop where
  producers_eq : ∀ p, s.queue.producers p = .idle
  i_eq : ∀ p, s.i p = (items p).length
  consumer_eq : s.queue.consumer = .idle
  popped_eq : s.popped = total items

/-- What has to be claimed, published and popped. -/
def workLeft (items : ι → List T) (s : State ι T) : ℕ :=
  2 * (total items - s.queue.claims.length) +
    Census.count (fun q : Producer T ↦ q.owns.isSome) s.queue.producers + (total items - s.popped)

def distance (c : Capacity) (s : State ι T) : Thread ι → ℕ
  | .producer p => pushDistance s.queue.mTail c (s.queue.producers p)
  | .consumer => popDistance s.queue.consumer

theorem Inv.claims_le (h : Inv c items s) : s.queue.claims.length ≤ total items :=
  length_le_total h.merge

/-- If everything that is claimed is popped, nobody owns an index. -/
theorem Inv.owns_eq_none (h : Inv c items s) (heq : s.queue.claims.length = s.popped) (p : ι) :
    (s.queue.producers p).owns = none := by
  refine Option.eq_none_iff_forall_ne_some.mpr fun idx hidx ↦ ?_
  obtain ⟨i, x, hown, -⟩ := h.queue.exists_owns hidx
  obtain ⟨hlo, hhi, -⟩ := h.queue.owns_range hown
  have := h.popped_eq
  omega

/-- Everything is popped, so everything was pushed and every loop has ended. -/
theorem Inv.finished (h : Inv c items s) (hall : total items ≤ s.popped) : Finished items s := by
  have hle := h.claims_le
  have hpopped := h.popped_le
  have heq : s.queue.claims.length = s.popped := by omega
  have hnone := h.owns_eq_none heq
  have hclaimed : ∀ p, claimed s p = s.i p := fun p ↦ by
    rw [claimed, hnone p]
    rfl
  -- the claims are all the values, so no stream of them is short
  have hi : ∀ p, s.i p = (items p).length := by
    have hsum := h.merge.length_eq_sum
    have hlens : ∀ p, ((items p).take (claimed s p)).length = s.i p := fun p ↦ by
      rw [List.length_take, hclaimed, Nat.min_eq_left (h.push_ok p).le]
    simp only [hlens] at hsum
    have htotal : ∑ p, s.i p = ∑ p, (items p).length := by
      rw [← hsum]
      exact Nat.le_antisymm hle (by rw [heq]; exact hall)
    exact fun p ↦ (Finset.sum_eq_sum_iff_of_le fun p _ ↦ (h.push_ok p).le).mp htotal p
      (Finset.mem_univ p)
  refine ⟨fun p ↦ ?_, hi, ?_, by omega⟩
  · have hok := h.push_ok p
    rw [hi p] at hok
    cases hp : s.queue.producers p <;> rw [hp] at hok <;> simp [PushOk] at hok ⊢
  · have hok := h.pop_ok
    cases hq : s.queue.consumer with
    | idle => rfl
    | _ =>
      rw [hq] at hok
      exact absurd hok (Nat.not_lt.mpr hall)

/-- A turn of a producer does some of the work, or it changes nothing that others look at. -/
theorem Pushed.work {q : Producer T} (h : Pushed c items s t p q spurious) :
    workLeft items t < workLeft items s ∨ workLeft items t = workLeft items s ∧
      t.queue.claims = s.queue.claims ∧ t.queue.mTail = s.queue.mTail ∧
      q.owns = (s.queue.producers p).owns ∧ t.i = s.i ∧
      (spurious = false → Helpful items s (.producer p) →
        pushDistance s.queue.mTail c q < pushDistance s.queue.mTail c (s.queue.producers p)) := by
  have hle := h.inv.claims_le
  have hcount := Census.count_update (fun q : Producer T ↦ q.owns.isSome) s.queue.producers p q
  simp only [workLeft, h.popped_eq, h.producers_eq]
  cases h.advance with
  | claim hclaims hs hq =>
    left
    rw [hs, hq] at hcount
    rw [hclaims] at hle ⊢
    simp only [Option.isSome_none, Bool.toNat_false, Bool.toNat_true] at hcount
    omega
  | publish hclaims hs hq =>
    left
    rw [hs, hq] at hcount
    simp only [Option.isSome_none, Bool.toNat_false, Bool.toNat_true] at hcount
    rw [hclaims]
    omega
  | closer hclaims htail howns hi hd =>
    right
    rw [howns] at hcount
    refine ⟨?_, hclaims, htail, howns, hi, hd⟩
    rw [hclaims]
    omega

/-- A turn of the consumer does some of the work, or it changes nothing that others look at. -/
theorem Popped.work (h : Popped c items s t) :
    workLeft items t < workLeft items s ∨ workLeft items t = workLeft items s ∧
      t.popped = s.popped ∧ (Helpful items s .consumer →
        popDistance t.queue.consumer < popDistance s.queue.consumer) := by
  have hle := h.inv.claims_le
  simp only [workLeft, h.claims_eq, h.producers_eq]
  rw [h.claims_eq] at hle
  rcases h.advance with ⟨hlt, hpopped⟩ | ⟨hpopped, hd⟩
  · left
    omega
  · right
    exact ⟨by rw [hpopped], hpopped, hd⟩

omit [DecidableEq ι] [Fintype ι] in
/-- Who can go on is decided by the claims, the pops, the owners and the values left. -/
theorem Helpful.congr {t' : Thread ι} (ht : Helpful items s t') {u : State ι T}
    (hclaims : u.queue.claims = s.queue.claims) (hpopped : u.popped = s.popped) (hi : u.i = s.i)
    (howns : ∀ p, (u.queue.producers p).owns = (s.queue.producers p).owns) :
    Helpful items u t' := by
  cases t' with
  | producer p =>
    simp only [Helpful, hclaims, hpopped, hi, howns]
    exact ht
  | consumer =>
    simp only [Helpful, hclaims, hpopped, MPSCQueue.State.Free, howns]
    exact ht

theorem progress (c : Capacity) {items : ι → List T} (hN : total items < 2 ^ 64) :
    Progress (fun s t ↦ turn c items s false t) (Inv c items) (workLeft items) (Helpful items)
      (distance c) where
  inv _ t h := h.turn hN false t
  mono s t h := by
    cases t with
    | producer p =>
      obtain ⟨q, hq⟩ := pushed hN h p false
      rcases hq.work with hlt | ⟨heq, -⟩
      · exact hlt.le
      · exact heq.le
    | consumer =>
      rcases (popped h false).work with hlt | ⟨heq, -⟩
      · exact hlt.le
      · exact heq.le
  exists_helpful s h hleft := by
    by_cases hempty : s.queue.claims.length = s.popped
    · -- nothing is in the queue, and nobody owns an index: a producer has values left
      have hnone := h.owns_eq_none hempty
      by_contra hno
      have hi : ∀ p, (items p).length ≤ s.i p := fun p ↦ Nat.not_lt.mp fun hlt ↦
        hno ⟨.producer p, .inr ⟨hempty, hlt⟩⟩
      have hclaims : s.queue.claims.length = total items := by
        rw [h.merge.length_eq_sum]
        refine Finset.sum_congr rfl fun p _ ↦ ?_
        rw [List.take_of_length_le ((hi p).trans (Nat.le_add_right _ _) : _ ≤ claimed s p)]
      refine hleft ?_
      have hcount : Census.count (fun q : Producer T ↦ q.owns.isSome) s.queue.producers = 0 :=
        Census.count_eq_zero fun p ↦ by rw [hnone p]; rfl
      rw [workLeft, hcount]
      omega
    · have hle := h.popped_le
      have hlt : s.popped < s.queue.claims.length := by omega
      by_cases hfree : s.queue.Free s.popped
      · exact ⟨.consumer, hlt, hfree⟩
      · obtain ⟨p, hp⟩ := not_forall.mp hfree
        exact ⟨.producer p, .inl (by rw [not_not.mp hp]; rfl)⟩
  stays s t u h ht heq := by
    cases u with
    | producer p =>
      obtain ⟨q, hq⟩ := pushed hN h p false
      rcases hq.work with hlt | ⟨-, hclaims, -, howns, hi, -⟩
      · exact absurd heq hlt.ne
      · refine ht.congr hclaims hq.popped_eq hi fun p' ↦ ?_
        rw [hq.producers_eq]
        by_cases hp' : p' = p
        · rw [hp', Function.update_self, howns]
        · rw [Function.update_of_ne hp']
    | consumer =>
      have hu := popped h false
      rcases hu.work with hlt | ⟨-, hpopped, -⟩
      · exact absurd heq hlt.ne
      · exact ht.congr hu.claims_eq hpopped hu.i_eq fun p' ↦ by rw [hu.producers_eq]
  closer s t h ht heq := by
    cases t with
    | producer p =>
      obtain ⟨q, hq⟩ := pushed hN h p false
      rcases hq.work with hlt | ⟨-, -, htail, -, -, hd⟩
      · exact absurd heq hlt.ne
      · simp only [distance, htail, hq.producers_eq, Function.update_self]
        exact hd rfl ht
    | consumer =>
      rcases (popped h false).work with hlt | ⟨-, -, hd⟩
      · exact absurd heq hlt.ne
      · exact hd ht
  keeps s t u h _ hut heq := by
    refine le_of_eq ?_
    cases u with
    | producer p =>
      obtain ⟨q, hq⟩ := pushed hN h p false
      rcases hq.work with hlt | ⟨-, -, htail, -⟩
      · exact absurd heq hlt.ne
      · cases t with
        | producer p' =>
          have hne : p' ≠ p := fun hp' ↦ hut (by rw [hp'])
          simp only [distance, htail, hq.producers_eq, Function.update_of_ne hne]
        | consumer => simp only [distance, hq.consumer_eq]
    | consumer =>
      have hu := popped h false
      cases t with
      | producer p' => simp only [distance, hu.mTail_eq, hu.producers_eq]
      | consumer => exact absurd rfl hut

/-- **Every value arrives once, those of each producer in its order.** Under every schedule, with
exchanges failing spuriously at any turns, what the consumer has counted is a merge of first parts
of what the producers push, and no access of a thread is refused, so no raw slot is read. When the
consumer has counted them all, what it has popped is a merge of all the values, every producer has
finished, and no slot holds an element or has its flag up. -/
theorem arrivals_exact (c : Capacity) (items : ι → List T) (hN : total items < 2 ^ 64)
    (schedule : List (Thread ι × Bool)) :
    let s := play (fun s e ↦ turn c items s e.2 e.1) init schedule
    (∃ firsts : ι → List T, (∀ p, firsts p <+: items p) ∧ Merge firsts s.queue.popped) ∧
    s.queue.popped.length = s.popped ∧ s.popped ≤ total items ∧
    (∀ p b e, pushEvent c items s p b = some e → ∃ q, producerStep c s.queue p e = some q) ∧
    (∀ e, popEvent (total items) s = some e → ∃ q, consumerStep c s.queue e = some q) ∧
    (s.popped = total items → Finished items s ∧ Merge items s.queue.popped ∧
      ∀ idx, s.queue.data (c.slot idx) = none ∧ s.queue.ready (c.slot idx) = false) := by
  intro s
  have h : Inv c items s := play_invariant (fun _ e hs ↦ hs.turn hN e.2 e.1) Inv.init schedule
  refine ⟨?_, h.popped_eq, h.popped_le.trans h.claims_le, ?_, ?_, ?_⟩
  · obtain ⟨firsts, hfirsts, hmerge⟩ := h.merge.of_prefix h.queue.popped_prefix
    exact ⟨firsts, fun p ↦ (hfirsts p).trans (List.take_prefix _ _), hmerge⟩
  · exact fun p b e he ↦ exists_producerStep he
  · exact fun e he ↦ h.exists_consumerStep he
  · intro hall
    have hfin := h.finished hall.ge
    have hpopped : s.queue.popped = s.queue.claims :=
      h.queue.popped_prefix.eq_of_length_le (by rw [h.popped_eq, hall]; exact h.claims_le)
    refine ⟨hfin, ?_, fun idx ↦ ?_⟩
    · have hclaimed : ∀ p, (items p).take (claimed s p) = items p := fun p ↦ by
        rw [claimed, hfin.producers_eq, hfin.i_eq]
        exact List.take_length
      have hmerge := h.merge
      simp only [hclaimed] at hmerge
      rw [hpopped]
      exact hmerge
    · obtain ⟨i, hlo, hhi, hslot⟩ := c.exists_slot_eq s.queue.popped.length idx
      have hcell := h.queue.vacant i (by rw [← hpopped]; exact hlo) hhi
      rw [MPSCQueue.State.cell, hslot] at hcell
      exact ⟨congrArg Prod.fst hcell, congrArg Prod.snd hcell⟩

/-- One of two producers pushes a value, with one exchange failing spuriously, and it is popped. -/
theorem arrivals_exact_one_value : ∃ s : State Bool ℕ, s.popped = 1 ∧
    Merge (fun p : Bool ↦ cond p [7] []) s.queue.popped := by
  have h := arrivals_exact ⟨0, by decide⟩ (fun p : Bool ↦ cond p [7] []) (by decide)
    (List.replicate 4 (.producer true, true) ++ List.replicate 4 (.producer true, false) ++
      List.replicate 7 (.consumer, false))
  exact ⟨_, rfl, (h.2.2.2.2.2 rfl).2.1⟩

/-- **Everybody finishes.** Under every schedule that keeps giving turns to every thread and in
which exchanges fail spuriously finitely often, all the loops end, whatever the races for the
indices and however often a push is turned away. -/
theorem arrivals_end (c : Capacity) (items : ι → List T) (hN : total items < 2 ^ 64)
    (schedule : ℕ → Thread ι × Bool) (hfair : Fair fun k ↦ (schedule k).1)
    (hspurious : ∃ m, ∀ k, m ≤ k → (schedule k).2 = false) :
    ∃ n, ∀ k, n ≤ k → Finished items
      (play (fun s e ↦ turn c items s e.2 e.1) init (firstTurns schedule k)) := by
  have hinv : ∀ k, Inv c items (play (fun s e ↦ turn c items s e.2 e.1) init
      (firstTurns schedule k)) := fun k ↦
    play_invariant (fun _ e hs ↦ hs.turn hN e.2 e.1) Inv.init _
  obtain ⟨m, hm⟩ := hspurious
  -- once the last exchange has failed spuriously, the turns are those of the threads alone
  have hsame : ∀ s j, play (fun s e ↦ turn c items s e.2 e.1) s
      (firstTurns (fun i ↦ schedule (m + i)) j) =
        play (fun s t ↦ turn c items s false t) s
          (firstTurns (fun i ↦ (schedule (m + i)).1) j) :=
    play_firstTurns_congr fun s i ↦ by rw [hm _ (Nat.le_add_right m i)]
  obtain ⟨n, hn⟩ := (progress c hN).fair (hinv m) (Fair.drop hfair m)
  refine ⟨m + n, fun k hk ↦ (hinv k).finished ?_⟩
  obtain ⟨j, rfl⟩ := Nat.exists_eq_add_of_le ((Nat.le_add_right m n).trans hk)
  have hwork := hn j (by omega)
  rw [← hsame, ← play_append, ← firstTurns_add, workLeft] at hwork
  omega

/-- Two producers and the consumer take turns, and the first exchanges fail spuriously. -/
theorem arrivals_end_round_robin : ∃ n, ∀ k, n ≤ k →
    Finished (fun p : Bool ↦ cond p [7, 8] [9])
      (play (fun s e ↦ turn ⟨0, by decide⟩ (fun p : Bool ↦ cond p [7, 8] [9]) s e.2 e.1) init
        (firstTurns (fun n ↦ (if n % 3 = 0 then .consumer else .producer (n % 3 = 1),
          decide (n < 20))) k)) := by
  refine arrivals_end ⟨0, by decide⟩ _ (by decide) _ (fun t n ↦ ?_)
    ⟨20, fun k hk ↦ decide_eq_false (Nat.not_lt.mpr hk)⟩
  cases t with
  | consumer => exact ⟨3 * n, by omega, by simp⟩
  | producer p =>
    cases p with
    | true => exact ⟨3 * n + 1, by omega, by simp [Nat.add_mod]⟩
    | false => exact ⟨3 * n + 2, by omega, by simp [Nat.add_mod]⟩

end ManyProducersOneConsumer

end FastInAHurry
