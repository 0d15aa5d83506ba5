import FastInAHurry.Library.Turns
import FastInAHurry.Queue.SPSCLifetimes

/-!
# A producer and a consumer that retry

The program of `examples/spsc_queue_example.cc`: one thread emplaces a fixed sequence of values,
trying each of them again until it is accepted, and the other pops until it has counted as many
values as were to be sent. Neither thread waits for the other in any other way.

The sequence is a parameter, and so is the capacity. The threads are those of the queue's own model;
what is added is the loop around each call, which determines the next access of each thread. Nothing
in the program makes the element type throw, so a construction that throws does not occur.

## Termination

A failed call costs the caller its turn and changes nothing, so all depends on the calls that
succeed. There are two for each value, and as long as some are missing, one of the threads is about
to make one: the producer if there is room, and the consumer otherwise, since a full queue is not
empty.
-/

namespace FastInAHurry

open RingIndex Turns

namespace ExampleSPSCQueue

open SPSCQueue (Producer Consumer ProducerEvent ConsumerEvent producerStep consumerStep held)

inductive Thread where
  | prod
  | cons
deriving DecidableEq

/-- The queue and the loop counters of the two threads. -/
structure State (T : Type*) where
  queue : SPSCQueue.State T
  i : ℕ
  cnt : ℕ

variable {T : Type*}

def init : State T where
  queue := SPSCQueue.init
  i := 0
  cnt := 0

/-- The next access of the producing thread, `none` once its loop has ended. -/
def prodEvent (c : Capacity) (items : List T) (s : State T) : Option (ProducerEvent T) :=
  match s.queue.producer with
  | .idle => items[s.i]?.map .emplace
  | .emplaceLoadHead _ => some .loadHead
  | .emplaceLoadTail _ _ => some .loadTail
  | .emplaceTest _ head tail => some (if head - tail = c.word then .returnFalse else .constructAt)
  | .emplaceStore _ _ => some .storeHead
  | .observing _ => none

/-- The next access of the consuming thread, `none` once its loop has ended. -/
def consEvent (n : ℕ) (s : State T) : Option ConsumerEvent :=
  match s.queue.consumer with
  | .idle => if s.cnt < n then some .pop else none
  | .popLoadTail => some .loadTail
  | .popLoadHead _ => some .loadHead
  | .popTest tail head => some (if head = tail then .returnFalse else .moveOut)
  | .popDestroy _ _ => some .destroyAt
  | .popStore _ _ => some .storeTail
  | .observing _ => none

/-- `emplace` returns true, and the loop goes on to the next value, with the store of the head. -/
def iNext (i : ℕ) : ProducerEvent T → ℕ
  | .storeHead => i + 1
  | _ => i

/-- `pop` returns true, and the value is counted, with the store of the tail. -/
def cntNext (cnt : ℕ) : ConsumerEvent → ℕ
  | .storeTail => cnt + 1
  | _ => cnt

/-- A thread takes a turn. -/
def turn (c : Capacity) (items : List T) (s : State T) : Thread → State T
  | .prod =>
    match prodEvent c items s with
    | none => s
    | some e =>
      match producerStep c s.queue e with
      | none => s
      | some q => { s with queue := q, i := iNext s.i e }
  | .cons =>
    match consEvent items.length s with
    | none => s
    | some e =>
      match consumerStep c s.queue e with
      | none => s
      | some q => { s with queue := q, cnt := cntNext s.cnt e }

variable {c : Capacity} {items : List T} {s : State T}

/-! ## The invariant -/

/-- The value the producer is emplacing is the one its counter stands at. -/
def ProdOk (items : List T) (i : ℕ) : Producer T → Prop
  | .idle => True
  | .emplaceLoadHead x => items[i]? = some x
  | .emplaceLoadTail x _ => items[i]? = some x
  | .emplaceTest x _ _ => items[i]? = some x
  | .emplaceStore x _ => items[i]? = some x
  | .observing _ => False

/-- The consumer calls `pop` only while values are missing. -/
def ConsOk (cnt n : ℕ) : Consumer T → Prop
  | .idle => True
  | .observing _ => False
  | _ => cnt < n

structure Inv (c : Capacity) (items : List T) (s : State T) : Prop where
  queue : SPSCQueue.Inv c s.queue
  accepted_eq : s.queue.accepted = items.take s.i
  i_le : s.i ≤ items.length
  cnt_eq : s.queue.delivered.length = s.cnt
  prod_ok : ProdOk items s.i s.queue.producer
  cons_ok : ConsOk s.cnt items.length s.queue.consumer

theorem Inv.init : Inv c items (init : State T) where
  queue := SPSCQueue.Inv.init
  accepted_eq := rfl
  i_le := Nat.zero_le _
  cnt_eq := rfl
  prod_ok := trivial
  cons_ok := trivial

theorem Inv.length_accepted (h : Inv c items s) : s.queue.accepted.length = s.i := by
  rw [h.accepted_eq, List.length_take, Nat.min_eq_left h.i_le]

theorem Inv.cnt_le (h : Inv c items s) : s.cnt ≤ s.i := by
  rw [← h.cnt_eq, ← h.length_accepted]
  exact h.queue.length_le

theorem Inv.i_le_cnt_add (h : Inv c items s) : s.i ≤ s.cnt + c.size := by
  have hbound := h.queue.bound
  rw [h.length_accepted, h.cnt_eq] at hbound
  omega

theorem Inv.delivered_eq (h : Inv c items s) : s.queue.delivered = items.take s.cnt := by
  have hpre := h.queue.delivered_prefix
  rw [List.prefix_iff_eq_take, h.accepted_eq, h.cnt_eq, List.take_take,
    Nat.min_eq_left h.cnt_le] at hpre
  exact hpre

/-! ## What a turn does -/

theorem exists_producerStep {e : ProducerEvent T} (he : prodEvent c items s = some e) :
    ∃ q, producerStep c s.queue e = some q := by
  rw [prodEvent] at he
  cases hp : s.queue.producer with
  | idle =>
    rw [hp] at he
    obtain ⟨x, -, rfl⟩ := Option.map_eq_some_iff.mp he
    exact ⟨_, by rw [producerStep, hp]⟩
  | emplaceTest x head tail =>
    simp only [hp, Option.some.injEq] at he
    subst he
    by_cases hfull : head - tail = c.word <;> simp [producerStep, hp, hfull]
  | observing o => simp [hp] at he
  | _ =>
    simp only [hp, Option.some.injEq] at he
    subst he
    exact ⟨_, by rw [producerStep, hp]⟩

theorem Inv.exists_consumerStep (h : Inv c items s) {e : ConsumerEvent}
    (he : consEvent items.length s = some e) : ∃ q, consumerStep c s.queue e = some q := by
  rw [consEvent] at he
  cases hq : s.queue.consumer with
  | idle =>
    simp only [hq, Option.ite_none_right_eq_some, Option.some.injEq] at he
    obtain ⟨-, rfl⟩ := he
    exact ⟨_, by rw [consumerStep, hq]⟩
  | popTest tail head =>
    simp only [hq, Option.some.injEq] at he
    subst he
    by_cases hempty : head = tail
    · simp [consumerStep, hq, hempty]
    · -- the slot is not raw: the head the thread has seen is not ahead of the real one
      obtain ⟨-, hlt, hslot⟩ := h.queue.front hq hempty
      rw [List.getElem?_eq_getElem hlt] at hslot
      simp [consumerStep, hq, hempty, hslot]
  | observing o => simp [hq] at he
  | _ =>
    simp only [hq, Option.some.injEq] at he
    subst he
    exact ⟨_, by rw [consumerStep, hq]⟩

/-- Everything a turn of the producing thread can do. -/
inductive ProdTurn (c : Capacity) (items : List T) (s : State T) : State T → Prop
  | done (hp : s.queue.producer = .idle) (hi : items.length ≤ s.i) : ProdTurn c items s s
  | emplace {x : T} (hp : s.queue.producer = .idle) (hx : items[s.i]? = some x) :
      ProdTurn c items s { s with queue := { s.queue with producer := .emplaceLoadHead x } }
  | loadHead {x : T} (hp : s.queue.producer = .emplaceLoadHead x) :
      ProdTurn c items s
        { s with queue := { s.queue with producer := .emplaceLoadTail x s.queue.mHead } }
  | loadTail {x : T} {head : UInt64} (hp : s.queue.producer = .emplaceLoadTail x head) :
      ProdTurn c items s
        { s with queue := { s.queue with producer := .emplaceTest x head s.queue.mTail } }
  | full {x : T} {head tail : UInt64} (hp : s.queue.producer = .emplaceTest x head tail)
      (hfull : head - tail = c.word) :
      ProdTurn c items s { s with queue := { s.queue with producer := .idle } }
  | construct {x : T} {head tail : UInt64} (hp : s.queue.producer = .emplaceTest x head tail)
      (hfull : head - tail ≠ c.word) :
      ProdTurn c items s { s with queue := { s.queue with
        mStorage := Function.update s.queue.mStorage (c.slot head) (some x)
        producer := .emplaceStore x head } }
  | store {x : T} {head : UInt64} (hp : s.queue.producer = .emplaceStore x head) :
      ProdTurn c items s { s with
        queue := { s.queue with
          mHead := head + 1
          producer := .idle
          accepted := s.queue.accepted ++ [x] }
        i := s.i + 1 }

/-- Everything a turn of the consuming thread can do. -/
inductive ConsTurn (c : Capacity) (items : List T) (s : State T) : State T → Prop
  | done (hq : s.queue.consumer = .idle) (hcnt : items.length ≤ s.cnt) : ConsTurn c items s s
  | pop (hq : s.queue.consumer = .idle) (hcnt : s.cnt < items.length) :
      ConsTurn c items s { s with queue := { s.queue with consumer := .popLoadTail } }
  | loadTail (hq : s.queue.consumer = .popLoadTail) :
      ConsTurn c items s
        { s with queue := { s.queue with consumer := .popLoadHead s.queue.mTail } }
  | loadHead {tail : UInt64} (hq : s.queue.consumer = .popLoadHead tail) :
      ConsTurn c items s
        { s with queue := { s.queue with consumer := .popTest tail s.queue.mHead } }
  | empty {tail head : UInt64} (hq : s.queue.consumer = .popTest tail head) (hempty : head = tail) :
      ConsTurn c items s { s with queue := { s.queue with consumer := .idle } }
  | moveOut {tail head : UInt64} {out : T} (hq : s.queue.consumer = .popTest tail head)
      (hempty : head ≠ tail) (hout : s.queue.mStorage (c.slot tail) = some out) :
      ConsTurn c items s { s with queue := { s.queue with consumer := .popDestroy out tail } }
  | destroy {out : T} {tail : UInt64} (hq : s.queue.consumer = .popDestroy out tail) :
      ConsTurn c items s { s with queue := { s.queue with
        mStorage := Function.update s.queue.mStorage (c.slot tail) none
        consumer := .popStore out tail } }
  | store {out : T} {tail : UInt64} (hq : s.queue.consumer = .popStore out tail) :
      ConsTurn c items s { s with
        queue := { s.queue with
          mTail := tail + 1
          consumer := .idle
          delivered := s.queue.delivered ++ [out] }
        cnt := s.cnt + 1 }

theorem prodTurn (h : Inv c items s) : ProdTurn c items s (turn c items s .prod) := by
  have hok := h.prod_ok
  rw [turn, prodEvent]
  cases hp : s.queue.producer with
  | idle =>
    cases hx : items[s.i]? with
    | none => exact .done hp (List.getElem?_eq_none_iff.mp hx)
    | some x =>
      simp only [Option.map_some, producerStep, hp]
      exact .emplace hp hx
  | emplaceLoadHead x =>
    simp only [producerStep, hp]
    exact .loadHead hp
  | emplaceLoadTail x head =>
    simp only [producerStep, hp]
    exact .loadTail hp
  | emplaceTest x head tail =>
    by_cases hfull : head - tail = c.word
    · simp only [hfull, if_true, producerStep, hp]
      exact .full hp hfull
    · simp only [hfull, if_false, producerStep, hp]
      exact .construct hp hfull
  | emplaceStore x head =>
    simp only [producerStep, hp]
    exact .store hp
  | observing o =>
    rw [hp] at hok
    exact hok.elim

theorem consTurn (h : Inv c items s) : ConsTurn c items s (turn c items s .cons) := by
  have hok := h.cons_ok
  rw [turn, consEvent]
  cases hq : s.queue.consumer with
  | idle =>
    by_cases hcnt : s.cnt < items.length
    · simp only [hcnt, if_true, consumerStep, hq]
      exact .pop hq hcnt
    · simp only [hcnt, if_false]
      exact .done hq (Nat.not_lt.mp hcnt)
  | popLoadTail =>
    simp only [consumerStep, hq]
    exact .loadTail hq
  | popLoadHead tail =>
    simp only [consumerStep, hq]
    exact .loadHead hq
  | popTest tail head =>
    by_cases hempty : head = tail
    · simp only [hempty, if_true, consumerStep, hq]
      exact .empty hq hempty
    · -- the slot is not raw: the head the thread has seen is not ahead of the real one
      obtain ⟨-, hlt, hslot⟩ := h.queue.front hq hempty
      rw [List.getElem?_eq_getElem hlt] at hslot
      simp only [hempty, if_false, consumerStep, hq, hslot, Option.map_some]
      exact .moveOut hq hempty hslot
  | popDestroy out tail =>
    simp only [consumerStep, hq]
    exact .destroy hq
  | popStore out tail =>
    simp only [consumerStep, hq]
    exact .store hq
  | observing o =>
    rw [hq] at hok
    exact hok.elim

/-! ## How far a thread is from a call that succeeds -/

/-- How many turns the producer is away from publishing, as long as there is room. -/
def prodDistance (c : Capacity) : Producer T → ℕ
  | .emplaceStore _ _ => 0
  | .emplaceTest _ head tail => if head - tail = c.word then 5 else 1
  | .emplaceLoadTail _ _ => 2
  | .emplaceLoadHead _ => 3
  | .idle => 4
  | .observing _ => 0

/-- How many turns the consumer is away from taking a value, as long as there is one. -/
def consDistance : Consumer T → ℕ
  | .popStore _ _ => 0
  | .popDestroy _ _ => 1
  | .popTest tail head => if head = tail then 6 else 2
  | .popLoadHead _ => 3
  | .popLoadTail => 4
  | .idle => 5
  | .observing _ => 0

theorem prodDistance_le (p : Producer T) : prodDistance c p ≤ 6 := by
  cases p with
  | emplaceTest x head tail =>
    rw [prodDistance]
    split <;> omega
  | _ => simp [prodDistance]

theorem consDistance_le (q : Consumer T) : consDistance q ≤ 6 := by
  cases q with
  | popTest tail head =>
    rw [consDistance]
    split <;> omega
  | _ => simp [consDistance]

/-- What a turn of the producing thread achieves: it finishes the call with success, or it comes
closer to that if there is something to emplace and room for it. -/
structure Produced (c : Capacity) (items : List T) (s t : State T) : Prop where
  inv : Inv c items t
  cnt_eq : t.cnt = s.cnt
  consumer_eq : t.queue.consumer = s.queue.consumer
  progress : s.i < items.length ∧ t.i = s.i + 1 ∨ t.i = s.i ∧ (s.i < items.length →
    s.i < s.cnt + c.size → prodDistance c t.queue.producer < prodDistance c s.queue.producer)

/-- A turn that moves the program point and nothing else. -/
theorem Produced.point (h : Inv c items s) {p : Producer T}
    (hn : SPSCQueue.ProducerNext c s.queue s.queue.producer p) (hok : ProdOk items s.i p)
    (hd : s.i < s.cnt + c.size → prodDistance c p < prodDistance c s.queue.producer) :
    Produced c items s { s with queue := { s.queue with producer := p } } where
  inv := ⟨h.queue.producerNext hn, h.accepted_eq, h.i_le, h.cnt_eq, hok, h.cons_ok⟩
  cnt_eq := rfl
  consumer_eq := rfl
  progress := .inr ⟨rfl, fun _ ↦ hd⟩

theorem ProdTurn.produced (h : Inv c items s) {t : State T} (ht : ProdTurn c items s t) :
    Produced c items s t := by
  have hok := h.prod_ok
  cases ht with
  | done hp hi => exact ⟨h, rfl, rfl, .inr ⟨rfl, fun hlt ↦ absurd hi (Nat.not_le.mpr hlt)⟩⟩
  | emplace hp hx => exact .point h (hp ▸ .emplace _) hx fun _ ↦ by simp [hp, prodDistance]
  | loadHead hp =>
    rw [hp] at hok
    exact .point h (hp ▸ .loadHead _) hok fun _ ↦ by simp [hp, prodDistance]
  | @loadTail x head hp =>
    rw [hp] at hok
    refine .point h (hp ▸ .loadTail _ _) hok fun hroom ↦ ?_
    -- the tail loaded now is the real one, so the test will see the room
    have hhead := h.queue.producer_ok
    rw [hp] at hhead
    have hne : head - s.queue.mTail ≠ c.word := by
      rw [show head = s.queue.mHead from hhead, h.queue.head_eq, h.queue.tail_eq,
        h.length_accepted, h.cnt_eq, Ne, c.ofNat_sub_eq_word_iff h.cnt_le h.i_le_cnt_add]
      omega
    simp [hp, prodDistance, hne]
  | full hp hfull =>
    exact .point h (hp ▸ .giveUp _ _ _) trivial fun _ ↦ by simp [hp, prodDistance, hfull]
  | construct hp hfull =>
    rw [hp] at hok
    refine ⟨⟨?_, h.accepted_eq, h.i_le, h.cnt_eq, hok, h.cons_ok⟩, rfl, rfl, .inr ⟨rfl, ?_⟩⟩
    · exact h.queue.constructAt hp hfull
    · intro _ _
      simp [hp, prodDistance, hfull]
  | @store x head hp =>
    rw [hp] at hok
    obtain ⟨hlt, -⟩ := List.getElem?_eq_some_iff.mp hok
    refine ⟨⟨h.queue.storeHead hp, ?_, hlt, h.cnt_eq, trivial, h.cons_ok⟩, rfl, rfl,
      .inl ⟨hlt, rfl⟩⟩
    show s.queue.accepted ++ [x] = items.take (s.i + 1)
    rw [h.accepted_eq, List.take_add_one, show items[s.i]? = some x from hok]
    rfl

/-- What a turn of the consuming thread achieves: it finishes the call with success, or it comes
closer to that if there is a value to take. -/
structure Consumed (c : Capacity) (items : List T) (s t : State T) : Prop where
  inv : Inv c items t
  i_eq : t.i = s.i
  producer_eq : t.queue.producer = s.queue.producer
  progress : s.cnt < s.i ∧ t.cnt = s.cnt + 1 ∨ t.cnt = s.cnt ∧
    (s.cnt < s.i → consDistance t.queue.consumer < consDistance s.queue.consumer)

/-- A turn that moves the program point and nothing else. -/
theorem Consumed.point (h : Inv c items s) {q : Consumer T}
    (hn : SPSCQueue.ConsumerNext c s.queue s.queue.consumer q)
    (hok : ConsOk s.cnt items.length q)
    (hd : s.cnt < s.i → consDistance q < consDistance s.queue.consumer) :
    Consumed c items s { s with queue := { s.queue with consumer := q } } where
  inv := ⟨h.queue.consumerNext hn, h.accepted_eq, h.i_le, h.cnt_eq, h.prod_ok, hok⟩
  i_eq := rfl
  producer_eq := rfl
  progress := .inr ⟨rfl, hd⟩

theorem ConsTurn.consumed (h : Inv c items s) {t : State T} (ht : ConsTurn c items s t) :
    Consumed c items s t := by
  have hok := h.cons_ok
  cases ht with
  | done hq hcnt =>
    exact ⟨h, rfl, rfl,
      .inr ⟨rfl, fun hlt ↦ absurd (hlt.trans_le h.i_le) (Nat.not_lt.mpr hcnt)⟩⟩
  | pop hq hcnt => exact .point h (hq ▸ .pop) hcnt fun _ ↦ by simp [hq, consDistance]
  | loadTail hq =>
    rw [hq] at hok
    exact .point h (hq ▸ .loadTail) hok fun _ ↦ by simp [hq, consDistance]
  | @loadHead tail hq =>
    rw [hq] at hok
    refine .point h (hq ▸ .loadHead _) hok fun hlt ↦ ?_
    -- the head loaded now is the real one, so the test will see the value
    have htail := h.queue.consumer_ok
    rw [hq] at htail
    have hne : s.queue.mHead ≠ tail := by
      rw [show tail = s.queue.mTail from htail, h.queue.head_eq, h.queue.tail_eq,
        h.length_accepted, h.cnt_eq, Ne, c.ofNat_eq_ofNat_iff h.cnt_le h.i_le_cnt_add]
      omega
    simp [hq, consDistance, hne]
  | empty hq hempty =>
    exact .point h (hq ▸ .returnFalse _ _) trivial fun _ ↦ by simp [hq, consDistance, hempty]
  | moveOut hq hempty hout =>
    rw [hq] at hok
    exact .point h (hq ▸ .moveOut hempty hout) hok fun _ ↦ by simp [hq, consDistance, hempty]
  | destroy hq =>
    rw [hq] at hok
    refine ⟨⟨?_, h.accepted_eq, h.i_le, h.cnt_eq, h.prod_ok, hok⟩, rfl, rfl, .inr ⟨rfl, ?_⟩⟩
    · exact h.queue.destroyAt hq
    · intro _
      simp [hq, consDistance]
  | @store out tail hq =>
    have hout := h.queue.consumer_ok
    rw [hq] at hout
    obtain ⟨hlt, -⟩ := List.getElem?_eq_some_iff.mp hout.2
    rw [h.length_accepted, h.cnt_eq] at hlt
    refine ⟨⟨h.queue.storeTail hq, h.accepted_eq, h.i_le, ?_, h.prod_ok, trivial⟩, rfl, rfl,
      .inl ⟨hlt, rfl⟩⟩
    show (s.queue.delivered ++ [out]).length = s.cnt + 1
    rw [List.length_append, h.cnt_eq]
    rfl

theorem produced (h : Inv c items s) : Produced c items s (turn c items s .prod) :=
  (prodTurn h).produced h

theorem consumed (h : Inv c items s) : Consumed c items s (turn c items s .cons) :=
  (consTurn h).consumed h

theorem Inv.turn (h : Inv c items s) (t : Thread) : Inv c items (turn c items s t) := by
  cases t with
  | prod => exact (produced h).inv
  | cons => exact (consumed h).inv

theorem inv_play (schedule : List Thread) : Inv c items (play (turn c items) init schedule) :=
  play_invariant (fun _ t h ↦ h.turn t) Inv.init schedule

/-! ## Nothing is lost and nothing is waited for forever -/

/-- Both loops have ended. -/
structure Finished (items : List T) (s : State T) : Prop where
  producer_eq : s.queue.producer = .idle
  i_eq : s.i = items.length
  consumer_eq : s.queue.consumer = .idle
  cnt_eq : s.cnt = items.length

/-- The calls that still have to succeed. -/
def callsLeft (items : List T) (s : State T) : ℕ :=
  (items.length - s.i) + (items.length - s.cnt)

/-- The next call of the thread succeeds unless the other thread interferes, and it cannot. -/
def Helpful (c : Capacity) (items : List T) (s : State T) : Thread → Prop
  | .prod => s.i < items.length ∧ s.i < s.cnt + c.size
  | .cons => s.cnt < s.i

def distance (c : Capacity) (s : State T) : Thread → ℕ
  | .prod => prodDistance c s.queue.producer
  | .cons => consDistance s.queue.consumer

theorem Inv.finished (h : Inv c items s) (hcnt : items.length ≤ s.cnt) : Finished items s := by
  have hle := h.cnt_le
  have hi := h.i_le
  have hprod := h.prod_ok
  have hcons := h.cons_ok
  refine ⟨?_, by omega, ?_, by omega⟩
  · rw [show s.i = items.length by omega] at hprod
    cases hp : s.queue.producer <;> rw [hp] at hprod <;> simp [ProdOk] at hprod ⊢
  · cases hq : s.queue.consumer with
    | idle => rfl
    | observing o =>
      rw [hq] at hcons
      exact hcons.elim
    | _ =>
      rw [hq] at hcons
      exact absurd hcons (Nat.not_lt.mpr hcnt)

theorem progress (c : Capacity) (items : List T) :
    Progress (turn c items) (Inv c items) (callsLeft items) (Helpful c items) (distance c) where
  inv _ t h := h.turn t
  mono s t h := by
    cases t with
    | prod =>
      have ht := produced h
      have := ht.cnt_eq
      have := ht.progress
      simp only [callsLeft]
      omega
    | cons =>
      have ht := consumed h
      have := ht.i_eq
      have := ht.progress
      simp only [callsLeft]
      omega
  exists_helpful s h hleft := by
    have hi := h.i_le
    have hle := h.cnt_le
    have hpos := c.size_pos
    simp only [callsLeft] at hleft
    -- a full queue is not empty, so one of the two can go on
    by_cases hprod : s.i < items.length ∧ s.i < s.cnt + c.size
    · exact ⟨.prod, hprod⟩
    · refine ⟨.cons, ?_⟩
      show s.cnt < s.i
      omega
  stays s t u h ht heq := by
    cases u with
    | prod =>
      have hu := produced h
      have hcnt := hu.cnt_eq
      have hi := hu.progress
      simp only [callsLeft] at heq
      cases t <;> simp only [Helpful] at ht ⊢ <;> omega
    | cons =>
      have hu := consumed h
      have hi := hu.i_eq
      have hcnt := hu.progress
      have hle := h.i_le
      simp only [callsLeft] at heq
      cases t <;> simp only [Helpful] at ht ⊢ <;> omega
  closer s t h ht heq := by
    cases t with
    | prod =>
      have hu := produced h
      have hcnt := hu.cnt_eq
      simp only [callsLeft] at heq
      simp only [Helpful] at ht
      rcases hu.progress with ⟨hlt, hi⟩ | ⟨-, hd⟩
      · omega
      · exact hd ht.1 ht.2
    | cons =>
      have hu := consumed h
      have hi := hu.i_eq
      have hle := h.i_le
      simp only [callsLeft] at heq
      simp only [Helpful] at ht
      rcases hu.progress with ⟨hlt, hcnt⟩ | ⟨-, hd⟩
      · omega
      · exact hd ht
  keeps s t u h _ hut _ := by
    cases t <;> cases u <;> try exact absurd rfl hut
    · exact le_of_eq (congrArg (prodDistance c) (consumed h).producer_eq)
    · exact le_of_eq (congrArg consDistance (produced h).consumer_eq)

/-- **The transfer is exact.** Whatever the schedule, what the consumer has popped is what it has
counted, in the order in which it was to be sent; the producer is ahead by at most a capacity; no
access of either thread is refused. What is about to be constructed is so in a raw slot, and what is
about to be moved out or destroyed is a live element. When the consumer has counted them all, both
loops have ended, and the queue is empty and holds no element. -/
theorem transfer_exact (c : Capacity) (items : List T) (schedule : List Thread) :
    let s := play (turn c items) init schedule
    s.queue.delivered = items.take s.cnt ∧ s.queue.accepted = items.take s.i ∧
    s.cnt ≤ s.i ∧ s.i ≤ s.cnt + c.size ∧ s.i ≤ items.length ∧
    (∀ e, prodEvent c items s = some e → ∃ q, producerStep c s.queue e = some q) ∧
    (∀ e, consEvent items.length s = some e → ∃ q, consumerStep c s.queue e = some q) ∧
    (∀ x head tail, s.queue.producer = .emplaceTest x head tail → head - tail ≠ c.word →
      s.queue.mStorage (c.slot head) = none) ∧
    (∀ tail head, s.queue.consumer = .popTest tail head → head ≠ tail →
      (s.queue.mStorage (c.slot tail)).isSome = true) ∧
    (∀ out tail, s.queue.consumer = .popDestroy out tail →
      (s.queue.mStorage (c.slot tail)).isSome = true) ∧
    (s.cnt = items.length → Finished items s ∧ s.queue.delivered = items ∧
      s.queue.mHead = s.queue.mTail ∧ ∀ j, s.queue.mStorage j = none) := by
  intro s
  have h : Inv c items s := inv_play schedule
  refine ⟨h.delivered_eq, h.accepted_eq, h.cnt_le, h.i_le_cnt_add, h.i_le, ?_, ?_, ?_, ?_, ?_, ?_⟩
  · exact fun e he ↦ exists_producerStep he
  · exact fun e he ↦ h.exists_consumerStep he
  · exact fun x head tail ↦ h.queue.raw_of_emplaceTest
  · exact fun tail head ↦ h.queue.live_of_popTest
  · exact fun out tail ↦ h.queue.live_of_popDestroy
  · intro hcnt
    have hfin := h.finished hcnt.ge
    refine ⟨hfin, ?_, ?_, fun j ↦ ?_⟩
    · rw [h.delivered_eq, hcnt, List.take_length]
    · rw [h.queue.head_eq, h.queue.tail_eq, h.length_accepted, h.cnt_eq, hfin.i_eq, hcnt]
    · have hholds := h.queue.holds
      rw [hfin.producer_eq, hfin.consumer_eq] at hholds
      simp only [SPSCQueue.Producer.pending, SPSCQueue.Consumer.taken, List.length_nil,
        Nat.add_zero, h.length_accepted, h.cnt_eq, hfin.i_eq, hcnt] at hholds
      exact hholds.outside j fun i hlo hhi ↦ absurd hhi (Nat.not_lt.mpr hlo)

/-- **The transfer ends.** Under every schedule that keeps giving turns to both threads, both loops
end; two rounds for each value are enough if each thread gets seven turns in each round. -/
theorem transfer_ends (c : Capacity) (items : List T) :
    (∀ schedule : ℕ → Thread, Fair schedule →
      ∃ n, ∀ k, n ≤ k → Finished items (play (turn c items) init (firstTurns schedule k))) ∧
    ∀ rounds : List (List Thread), (∀ r ∈ rounds, Round 6 r) → 2 * items.length ≤ rounds.length →
      Finished items (play (turn c items) init rounds.flatten) := by
  have hfin : ∀ schedule, callsLeft items (play (turn c items) init schedule) = 0 →
      Finished items (play (turn c items) init schedule) := fun schedule hzero ↦ by
    refine (inv_play schedule).finished ?_
    rw [callsLeft] at hzero
    omega
  constructor
  · intro schedule hfair
    obtain ⟨n, hn⟩ := (progress c items).fair Inv.init hfair
    exact ⟨n, fun k hk ↦ hfin _ (hn k hk)⟩
  · intro rounds hrounds hlen
    refine hfin _ ?_
    have hd : ∀ s t, Inv c items s → Helpful c items s t → distance c s t ≤ 6 := by
      intro s t _ _
      cases t with
      | prod => exact prodDistance_le _
      | cons => exact consDistance_le _
    have hle := (progress c items).play_rounds hd Inv.init hrounds
    have hinit : callsLeft items (init : State T) = items.length + items.length := rfl
    omega

/-- Three values through a queue of capacity one, with the threads taking turns. -/
theorem transfer_ends_alternating : ∃ n, ∀ k, n ≤ k → Finished [7, 8, 9]
    (play (turn ⟨0, by decide⟩ [7, 8, 9]) init
      (firstTurns (fun n ↦ if n % 2 = 0 then .prod else .cons) k)) := by
  refine (transfer_ends ⟨0, by decide⟩ [7, 8, 9]).1 _ fun t n ↦ ?_
  cases t with
  | prod => exact ⟨2 * n, by omega, by simp⟩
  | cons => exact ⟨2 * n + 1, by omega, by simp [Nat.add_mod]⟩

end ExampleSPSCQueue

end FastInAHurry
