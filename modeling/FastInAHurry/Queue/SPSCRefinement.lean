import FastInAHurry.Library.BoundedFifo
import FastInAHurry.Queue.SPSCQueue

/-!
# The single-producer queue is a bounded FIFO queue

Under every interleaving, and across any number of wrap-arounds of the two counters, what the pops
deliver is a prefix of what the emplaces accepted, at most a capacity of values is in between, and
each of those values sits in its slot.

## The invariant

The counters are the lengths of the two histories, wrapped. The slots hold the accepted values that
were not delivered, plus the one the producer has constructed and not yet published, less the one
the consumer has destroyed and not yet published. Each thread's copy of the other counter is some
earlier length: the producer's tail copy is not ahead of the real tail, so seeing room is safe, and
the consumer's head copy is not ahead of the real head, so seeing an element is safe.
-/

namespace FastInAHurry

open BoundedFifo RingIndex Runs

namespace SPSCQueue

variable {T : Type*} {c : Capacity} {s t : State T}

/-! ## What a step can do

A step moves a program point and nothing else, or it works on a slot, or it publishes a counter. The
steps are classified once; every later proof is by cases on the classification. -/

/-- The moves of the producer's program point that change nothing else. -/
inductive ProducerNext (c : Capacity) (s : State T) : Producer T → Producer T → Prop
  | emplace (x : T) : ProducerNext c s .idle (.emplaceLoadHead x)
  | loadHead (x : T) : ProducerNext c s (.emplaceLoadHead x) (.emplaceLoadTail x s.mHead)
  | loadTail (x : T) (head : UInt64) :
      ProducerNext c s (.emplaceLoadTail x head) (.emplaceTest x head s.mTail)
  | giveUp (x : T) (head tail : UInt64) : ProducerNext c s (.emplaceTest x head tail) .idle
  | query (q : Query) : ProducerNext c s .idle (.observing q.start)
  | observe {o o' : Observer} (h : o.load c s.mHead s.mTail = some o') :
      ProducerNext c s (.observing o) (.observing o')
  | answer (o : Observer) : ProducerNext c s (.observing o) .idle

/-- Everything a step of the producer can do. -/
inductive ProducerMove (c : Capacity) (s : State T) : State T → Prop
  | point {p : Producer T} (h : ProducerNext c s s.producer p) :
      ProducerMove c s { s with producer := p }
  | constructAt {x : T} {head tail : UInt64} (hp : s.producer = .emplaceTest x head tail)
      (hne : head - tail ≠ c.word) :
      ProducerMove c s { s with
        mStorage := Function.update s.mStorage (c.slot head) (some x)
        producer := .emplaceStore x head }
  | storeHead {x : T} {head : UInt64} (hp : s.producer = .emplaceStore x head) :
      ProducerMove c s
        { s with mHead := head + 1, producer := .idle, accepted := s.accepted ++ [x] }

/-- The moves of the consumer's program point that change nothing else. -/
inductive ConsumerNext (c : Capacity) (s : State T) : Consumer T → Consumer T → Prop
  | pop : ConsumerNext c s .idle .popLoadTail
  | loadTail : ConsumerNext c s .popLoadTail (.popLoadHead s.mTail)
  | loadHead (tail : UInt64) : ConsumerNext c s (.popLoadHead tail) (.popTest tail s.mHead)
  | returnFalse (tail head : UInt64) : ConsumerNext c s (.popTest tail head) .idle
  | moveOut {tail head : UInt64} {out : T} (hne : head ≠ tail)
      (hout : s.mStorage (c.slot tail) = some out) :
      ConsumerNext c s (.popTest tail head) (.popDestroy out tail)
  | query (q : Query) : ConsumerNext c s .idle (.observing q.start)
  | observe {o o' : Observer} (h : o.load c s.mHead s.mTail = some o') :
      ConsumerNext c s (.observing o) (.observing o')
  | answer (o : Observer) : ConsumerNext c s (.observing o) .idle

/-- Everything a step of the consumer can do. -/
inductive ConsumerMove (c : Capacity) (s : State T) : State T → Prop
  | point {q : Consumer T} (h : ConsumerNext c s s.consumer q) :
      ConsumerMove c s { s with consumer := q }
  | destroyAt {out : T} {tail : UInt64} (hq : s.consumer = .popDestroy out tail) :
      ConsumerMove c s { s with
        mStorage := Function.update s.mStorage (c.slot tail) none
        consumer := .popStore out tail }
  | storeTail {out : T} {tail : UInt64} (hq : s.consumer = .popStore out tail) :
      ConsumerMove c s
        { s with mTail := tail + 1, consumer := .idle, delivered := s.delivered ++ [out] }

theorem producerMove_of_step {e : ProducerEvent T} (hst : producerStep c s e = some t) :
    ProducerMove c s t := by
  cases e <;> simp only [producerStep] at hst
  case emplace x =>
    split at hst <;> try contradiction
    rename_i hp
    obtain rfl := Option.some.inj hst
    exact .point (hp ▸ .emplace x)
  case loadHead =>
    split at hst <;> try contradiction
    rename_i x hp
    obtain rfl := Option.some.inj hst
    exact .point (hp ▸ .loadHead x)
  case loadTail =>
    split at hst <;> try contradiction
    rename_i x head hp
    obtain rfl := Option.some.inj hst
    exact .point (hp ▸ .loadTail x head)
  case returnFalse =>
    split at hst <;> try contradiction
    rename_i x head tail hp
    split at hst <;> try contradiction
    obtain rfl := Option.some.inj hst
    exact .point (hp ▸ .giveUp x head tail)
  case constructAt =>
    split at hst <;> try contradiction
    rename_i x head tail hp
    split at hst <;> try contradiction
    rename_i hne
    obtain rfl := Option.some.inj hst
    exact .constructAt hp hne
  case constructThrows =>
    split at hst <;> try contradiction
    rename_i x head tail hp
    split at hst <;> try contradiction
    obtain rfl := Option.some.inj hst
    exact .point (hp ▸ .giveUp x head tail)
  case storeHead =>
    split at hst <;> try contradiction
    rename_i x head hp
    obtain rfl := Option.some.inj hst
    exact .storeHead hp
  case query q =>
    split at hst <;> try contradiction
    rename_i hp
    obtain rfl := Option.some.inj hst
    exact .point (hp ▸ .query q)
  case observe =>
    split at hst <;> try contradiction
    rename_i o hp
    obtain ⟨o', ho', rfl⟩ := Option.map_eq_some_iff.mp hst
    exact .point (hp ▸ .observe ho')
  case answer =>
    split at hst <;> try contradiction
    all_goals
      rename_i hp
      obtain rfl := Option.some.inj hst
      exact .point (hp ▸ .answer _)

theorem consumerMove_of_step {e : ConsumerEvent} (hst : consumerStep c s e = some t) :
    ConsumerMove c s t := by
  cases e <;> simp only [consumerStep] at hst
  case pop =>
    split at hst <;> try contradiction
    rename_i hq
    obtain rfl := Option.some.inj hst
    exact .point (hq ▸ .pop)
  case loadTail =>
    split at hst <;> try contradiction
    rename_i hq
    obtain rfl := Option.some.inj hst
    exact .point (hq ▸ .loadTail)
  case loadHead =>
    split at hst <;> try contradiction
    rename_i tail hq
    obtain rfl := Option.some.inj hst
    exact .point (hq ▸ .loadHead tail)
  case returnFalse =>
    split at hst <;> try contradiction
    rename_i tail head hq
    split at hst <;> try contradiction
    obtain rfl := Option.some.inj hst
    exact .point (hq ▸ .returnFalse tail head)
  case moveOut =>
    split at hst <;> try contradiction
    rename_i tail head hq
    split at hst <;> try contradiction
    rename_i hne
    obtain ⟨out, hout, rfl⟩ := Option.map_eq_some_iff.mp hst
    exact .point (hq ▸ .moveOut hne hout)
  case destroyAt =>
    split at hst <;> try contradiction
    rename_i out tail hq
    obtain rfl := Option.some.inj hst
    exact .destroyAt hq
  case storeTail =>
    split at hst <;> try contradiction
    rename_i out tail hq
    obtain rfl := Option.some.inj hst
    exact .storeTail hq
  case query q =>
    split at hst <;> try contradiction
    rename_i hq
    obtain rfl := Option.some.inj hst
    exact .point (hq ▸ .query q)
  case observe =>
    split at hst <;> try contradiction
    rename_i o hq
    obtain ⟨o', ho', rfl⟩ := Option.map_eq_some_iff.mp hst
    exact .point (hq ▸ .observe ho')
  case answer =>
    split at hst <;> try contradiction
    all_goals
      rename_i hq
      obtain rfl := Option.some.inj hst
      exact .point (hq ▸ .answer _)

/-! ## The invariant -/

/-- The value constructed but not yet published. -/
def Producer.pending : Producer T → List T
  | .emplaceStore x _ => [x]
  | _ => []

/-- Whether the front element is destroyed but not yet given up. -/
def Consumer.taken : Consumer T → ℕ
  | .popStore _ _ => 1
  | _ => 0

/-- What the producer's locals mean. -/
def ProducerOk (c : Capacity) (s : State T) : Producer T → Prop
  | .emplaceLoadTail _ head => head = s.mHead
  | .emplaceTest _ head tail => head = s.mHead ∧
      ∃ n, tail = UInt64.ofNat n ∧ n ≤ s.delivered.length ∧ s.accepted.length ≤ n + c.size
  | .emplaceStore _ head => head = s.mHead
  | _ => True

/-- What the consumer's locals mean. -/
def ConsumerOk (s : State T) : Consumer T → Prop
  | .popLoadHead tail => tail = s.mTail
  | .popTest tail head => tail = s.mTail ∧
      ∃ n, head = UInt64.ofNat n ∧ s.delivered.length ≤ n ∧ n ≤ s.accepted.length
  | .popDestroy out tail => tail = s.mTail ∧ s.accepted[s.delivered.length]? = some out
  | .popStore out tail => tail = s.mTail ∧ s.accepted[s.delivered.length]? = some out
  | _ => True

structure Inv (c : Capacity) (s : State T) : Prop where
  head_eq : s.mHead = UInt64.ofNat s.accepted.length
  tail_eq : s.mTail = UInt64.ofNat s.delivered.length
  delivered_prefix : s.delivered <+: s.accepted
  bound : s.accepted.length + s.producer.pending.length ≤ s.delivered.length + c.size
  holds : Holds c s.mStorage (s.accepted ++ s.producer.pending)
    (s.delivered.length + s.consumer.taken) (s.accepted.length + s.producer.pending.length)
  producer_ok : ProducerOk c s s.producer
  consumer_ok : ConsumerOk s s.consumer

theorem Inv.init : Inv c (init : State T) where
  head_eq := rfl
  tail_eq := rfl
  delivered_prefix := List.prefix_refl _
  bound := Nat.zero_le _
  holds := Holds.empty
  producer_ok := trivial
  consumer_ok := trivial

/-! ## Moves that touch no shared data -/

theorem Inv.setProducer (h : Inv c s) {p : Producer T} (hp : p.pending = s.producer.pending)
    (hok : ProducerOk c s p) : Inv c { s with producer := p } where
  head_eq := h.head_eq
  tail_eq := h.tail_eq
  delivered_prefix := h.delivered_prefix
  bound := by
    simp only [hp]
    exact h.bound
  holds := by
    simp only [hp]
    exact h.holds
  producer_ok := by
    cases p <;> exact hok
  consumer_ok := by
    have hc := h.consumer_ok
    cases hcons : s.consumer <;> rw [hcons] at hc <;> exact hc

theorem Inv.setConsumer (h : Inv c s) {q : Consumer T} (hq : q.taken = s.consumer.taken)
    (hok : ConsumerOk s q) : Inv c { s with consumer := q } where
  head_eq := h.head_eq
  tail_eq := h.tail_eq
  delivered_prefix := h.delivered_prefix
  bound := h.bound
  holds := by
    simp only [hq]
    exact h.holds
  producer_ok := by
    have hp := h.producer_ok
    cases hprod : s.producer <;> rw [hprod] at hp <;> exact hp
  consumer_ok := by
    cases q <;> exact hok

theorem Inv.length_le (h : Inv c s) : s.delivered.length ≤ s.accepted.length :=
  h.delivered_prefix.length_le

/-- The consumer has destroyed at most what was published. -/
theorem Inv.taken_le (h : Inv c s) :
    s.delivered.length + s.consumer.taken ≤ s.accepted.length := by
  have hle := h.length_le
  have hok := h.consumer_ok
  cases hcons : s.consumer with
  | popStore out tail =>
    rw [hcons] at hok
    obtain ⟨hlt, -⟩ := List.getElem?_eq_some_iff.mp hok.2
    exact hlt
  | _ => exact hle

/-! ## Moves on the storage and the counters -/

/-- The full test passed on a stale tail: there is room. -/
theorem Inv.room (h : Inv c s) {x : T} {head tail : UInt64}
    (hp : s.producer = .emplaceTest x head tail) (hne : head - tail ≠ c.word) :
    head = UInt64.ofNat s.accepted.length ∧ s.accepted.length < s.delivered.length + c.size := by
  have hok := h.producer_ok
  rw [hp] at hok
  obtain ⟨rfl, n, rfl, hn, hacc⟩ := hok
  have hle := h.length_le
  refine ⟨h.head_eq, ?_⟩
  rw [h.head_eq, Ne, c.ofNat_sub_eq_word_iff (by omega) hacc] at hne
  omega

theorem Inv.constructAt (h : Inv c s) {x : T} {head tail : UInt64}
    (hp : s.producer = .emplaceTest x head tail) (hne : head - tail ≠ c.word) :
    Inv c { s with
      mStorage := Function.update s.mStorage (c.slot head) (some x)
      producer := .emplaceStore x head } := by
  obtain ⟨hhead, hroom⟩ := h.room hp hne
  have hholds := h.holds
  have htaken := h.taken_le
  simp only [hp, Producer.pending, List.append_nil, List.length_nil, Nat.add_zero] at hholds
  refine ⟨h.head_eq, h.tail_eq, h.delivered_prefix, ?_, ?_, ?_, ?_⟩
  · exact hroom
  · rw [hhead]
    exact (hholds.append le_rfl [x]).push htaken (by omega) List.getElem?_concat_length
  · exact hhead.trans h.head_eq.symm
  · have hc := h.consumer_ok
    cases hcons : s.consumer <;> rw [hcons] at hc <;> exact hc

theorem Inv.storeHead (h : Inv c s) {x : T} {head : UInt64}
    (hp : s.producer = .emplaceStore x head) :
    Inv c { s with mHead := head + 1, producer := .idle, accepted := s.accepted ++ [x] } := by
  have hok := h.producer_ok
  have hholds := h.holds
  have hbound := h.bound
  rw [hp] at hok hholds hbound
  refine ⟨?_, h.tail_eq, ?_, ?_, ?_, trivial, ?_⟩
  · rw [show head = s.mHead from hok, h.head_eq, List.length_append, UInt64.ofNat_add]
    rfl
  · exact h.delivered_prefix.trans (List.prefix_append _ _)
  · simpa [Producer.pending] using hbound
  · simpa [Producer.pending] using hholds
  · have hc := h.consumer_ok
    have hget : ∀ {out : T}, s.accepted[s.delivered.length]? = some out →
        (s.accepted ++ [x])[s.delivered.length]? = some out := fun hout ↦
      getElem?_of_prefix (List.prefix_append _ _) hout
    cases hcons : s.consumer with
    | popTest tail head' =>
      rw [hcons] at hc
      obtain ⟨ht, n, hn, hlo, hhi⟩ := hc
      exact ⟨ht, n, hn, hlo, by rw [List.length_append]; omega⟩
    | popDestroy out tail =>
      rw [hcons] at hc
      exact ⟨hc.1, hget hc.2⟩
    | popStore out tail =>
      rw [hcons] at hc
      exact ⟨hc.1, hget hc.2⟩
    | _ =>
      rw [hcons] at hc
      exact hc

/-- The empty test passed on a stale head: the front slot holds the next value to deliver. -/
theorem Inv.front (h : Inv c s) {tail head : UInt64} (hq : s.consumer = .popTest tail head)
    (hne : head ≠ tail) :
    tail = s.mTail ∧ s.delivered.length < s.accepted.length ∧
      s.mStorage (c.slot tail) = s.accepted[s.delivered.length]? := by
  have hok := h.consumer_ok
  have hholds := h.holds
  have hbound := h.bound
  rw [hq] at hok
  simp only [hq, Consumer.taken, Nat.add_zero] at hholds
  obtain ⟨rfl, n, rfl, hlo, hhi⟩ := hok
  -- the copy of the head differs from the tail, and it is at most the real head
  have hlt : s.delivered.length < s.accepted.length := by
    refine lt_of_lt_of_le (lt_of_le_of_ne hlo fun heq ↦ hne ?_) hhi
    rw [← heq, h.tail_eq]
  refine ⟨rfl, hlt, ?_⟩
  rw [h.tail_eq, hholds.inside _ le_rfl (by omega), List.getElem?_append_left hlt]

theorem Inv.destroyAt (h : Inv c s) {out : T} {tail : UInt64}
    (hq : s.consumer = .popDestroy out tail) :
    Inv c { s with
      mStorage := Function.update s.mStorage (c.slot tail) none
      consumer := .popStore out tail } := by
  have hok := h.consumer_ok
  have hholds := h.holds
  rw [hq] at hok hholds
  refine ⟨h.head_eq, h.tail_eq, h.delivered_prefix, h.bound, ?_, ?_, hok⟩
  · rw [hok.1, h.tail_eq]
    exact hholds.pop h.bound
  · have hp := h.producer_ok
    cases hprod : s.producer <;> rw [hprod] at hp <;> exact hp

theorem Inv.storeTail (h : Inv c s) {out : T} {tail : UInt64}
    (hq : s.consumer = .popStore out tail) :
    Inv c { s with mTail := tail + 1, consumer := .idle, delivered := s.delivered ++ [out] } := by
  have hok := h.consumer_ok
  have hholds := h.holds
  have hbound := h.bound
  rw [hq] at hok hholds
  have hlen : (s.delivered ++ [out]).length = s.delivered.length + 1 := by simp
  refine ⟨h.head_eq, ?_, ?_, ?_, ?_, ?_, trivial⟩
  · rw [hok.1, h.tail_eq, hlen, UInt64.ofNat_add]
    rfl
  · exact concat_prefix h.delivered_prefix hok.2
  · rw [hlen]
    exact hbound.trans (by omega)
  · rw [hlen]
    exact hholds
  · have hp := h.producer_ok
    cases hprod : s.producer with
    | emplaceTest x head tail' =>
      rw [hprod] at hp
      obtain ⟨hh, n, hn, hlo, hhi⟩ := hp
      exact ⟨hh, n, hn, by rw [hlen]; omega, hhi⟩
    | _ =>
      rw [hprod] at hp
      exact hp

/-! ## Every step keeps the invariant -/

theorem Inv.producerNext (h : Inv c s) {p : Producer T} (hn : ProducerNext c s s.producer p) :
    Inv c { s with producer := p } := by
  have hok := h.producer_ok
  generalize hp : s.producer = p₀ at hn hok
  cases hn with
  | loadHead x => exact h.setProducer (by rw [hp]; rfl) rfl
  | loadTail x head =>
    refine h.setProducer (by rw [hp]; rfl) ⟨hok, _, h.tail_eq, le_rfl, ?_⟩
    exact (Nat.le_add_right _ _).trans h.bound
  | emplace | giveUp | query | observe | answer => exact h.setProducer (by rw [hp]; rfl) trivial

theorem Inv.consumerNext (h : Inv c s) {q : Consumer T} (hn : ConsumerNext c s s.consumer q) :
    Inv c { s with consumer := q } := by
  have hok := h.consumer_ok
  generalize hq : s.consumer = q₀ at hn hok
  cases hn with
  | loadTail => exact h.setConsumer (by rw [hq]; rfl) rfl
  | loadHead tail =>
    exact h.setConsumer (by rw [hq]; rfl) ⟨hok, _, h.head_eq, h.length_le, le_rfl⟩
  | moveOut hne hout =>
    obtain ⟨htail, -, hslot⟩ := h.front hq hne
    exact h.setConsumer (by rw [hq]; rfl) ⟨htail, hslot.symm.trans hout⟩
  | pop | returnFalse | query | observe | answer => exact h.setConsumer (by rw [hq]; rfl) trivial

theorem Inv.step (h : Inv c s) {e : Event T} (hst : step c s e = some t) : Inv c t := by
  cases e with
  | producer e =>
    cases producerMove_of_step hst with
    | point hn => exact h.producerNext hn
    | constructAt hp hne => exact h.constructAt hp hne
    | storeHead hp => exact h.storeHead hp
  | consumer e =>
    cases consumerMove_of_step hst with
    | point hn => exact h.consumerNext hn
    | destroyAt hq => exact h.destroyAt hq
    | storeTail hq => exact h.storeTail hq

theorem inv_of_reachable (h : Reachable (step c) init s) : Inv c s :=
  h.invariant (fun _ _ _ hs hst ↦ hs.step hst) Inv.init

/-! ## The contents move as a bounded FIFO queue -/

/-- **Refinement.** Every step moves the contents as a bounded FIFO queue does. -/
theorem Inv.move (h : Inv c s) {e : Event T} (hst : SPSCQueue.step c s e = some t) :
    Move c.size (contents s.accepted s.delivered) (contents t.accepted t.delivered) := by
  cases e with
  | producer e =>
    cases producerMove_of_step hst with
    | point | constructAt => exact Move.stutter _
    | storeHead hp =>
      have hbound := h.bound
      rw [hp] at hbound
      exact move_of_accept h.length_le _ hbound
  | consumer e =>
    cases consumerMove_of_step hst with
    | point | destroyAt => exact Move.stutter _
    | storeTail hq =>
      have hok := h.consumer_ok
      rw [hq] at hok
      exact move_of_deliver hok.2

/-! ## What a failing call has seen -/

/-- The full test is reached by loading the tail. -/
theorem emplaceTest_of_step {e : Event T} (hst : step c s e = some t) {x : T} {head tail : UInt64}
    (ht : t.producer = .emplaceTest x head tail) :
    s.producer = .emplaceTest x head tail ∨
      s.producer = .emplaceLoadTail x head ∧ tail = s.mTail := by
  cases e with
  | producer e =>
    cases producerMove_of_step hst with
    | point hn =>
      subst ht
      generalize hp : s.producer = p₀ at hn
      cases hn with
      | loadTail => exact Or.inr ⟨rfl, rfl⟩
    | constructAt | storeHead => cases ht
  | consumer e =>
    cases consumerMove_of_step hst with
    | point | destroyAt | storeTail => exact Or.inl ht

/-- The empty test is reached by loading the head. -/
theorem popTest_of_step {e : Event T} (hst : step c s e = some t) {tail head : UInt64}
    (ht : t.consumer = .popTest tail head) :
    s.consumer = .popTest tail head ∨ s.consumer = .popLoadHead tail ∧ head = s.mHead := by
  cases e with
  | producer e =>
    cases producerMove_of_step hst with
    | point | constructAt | storeHead => exact Or.inl ht
  | consumer e =>
    cases consumerMove_of_step hst with
    | point hn =>
      subst ht
      generalize hq : s.consumer = q₀ at hn
      cases hn with
      | loadHead => exact Or.inr ⟨rfl, rfl⟩
    | destroyAt | storeTail => cases ht

/-- The queue holds this many values: accepted and not yet delivered. -/
def held (s : State T) : ℕ := s.accepted.length - s.delivered.length

/-- A full test that is going to fail was preceded, inside the call, by a full queue. -/
theorem full_of_emplaceTest {s₁ s₂ : State T} (hr : Reachable (step c) init s₁)
    {x : T} (h₁ : s₁.producer = .emplaceLoadHead x) {mid : List (Event T)}
    (hmid : exec (step c) s₁ mid = some s₂) {y : T} {head tail : UInt64}
    (h₂ : s₂.producer = .emplaceTest y head tail) (hfull : head - tail = c.word) :
    ∃ pre post m, mid = pre ++ post ∧ exec (step c) s₁ pre = some m ∧ held m = c.size := by
  -- the load that brought the call to a full test it is going to fail
  obtain ⟨pre, e, post, m, m', rfl, hpre, hst, -, hm, x', head', tail', hm', hfull'⟩ :=
    exec_crossing (P := fun s : State T ↦ ∃ x head tail,
        s.producer = .emplaceTest x head tail ∧ head - tail = c.word)
      (by simp [h₁]) ⟨y, head, tail, h₂, hfull⟩ hmid
  refine ⟨pre, e :: post, m, rfl, hpre, ?_⟩
  have hinv := inv_of_reachable (hr.exec hpre)
  rcases emplaceTest_of_step hst hm' with hsame | ⟨hload, rfl⟩
  · exact absurd ⟨x', head', tail', hsame, hfull'⟩ hm
  · have hok := hinv.producer_ok
    have hbound := hinv.bound
    have hle := hinv.length_le
    rw [hload] at hok hbound
    rw [show head' = m.mHead from hok, hinv.head_eq, hinv.tail_eq,
      c.ofNat_sub_eq_word_iff hle hbound] at hfull'
    rw [held]
    omega

/-- A `pop` that loads a head equal to its tail finds everything delivered. -/
theorem Inv.delivered_eq_of_load (h : Inv c s) {tail : UInt64}
    (hload : s.consumer = .popLoadHead tail) (hhead : s.mHead = tail) :
    s.delivered = s.accepted := by
  have hok := h.consumer_ok
  have hbound := h.bound
  have hle := h.length_le
  rw [hload] at hok
  rw [show tail = s.mTail from hok, h.head_eq, h.tail_eq,
    c.ofNat_eq_ofNat_iff hle (by omega)] at hhead
  exact h.delivered_prefix.eq_of_length hhead.symm

/-- An empty test that is going to fail was preceded, inside the call, by an empty queue. -/
theorem empty_of_popTest {s₁ s₂ : State T} (hr : Reachable (step c) init s₁)
    (h₁ : s₁.consumer = .popLoadTail) {mid : List (Event T)}
    (hmid : exec (step c) s₁ mid = some s₂) {tail head : UInt64}
    (h₂ : s₂.consumer = .popTest tail head) (hempty : head = tail) :
    ∃ pre post m, mid = pre ++ post ∧ exec (step c) s₁ pre = some m ∧ held m = 0 := by
  -- the load that brought the call to an empty test it is going to fail
  obtain ⟨pre, e, post, m, m', rfl, hpre, hst, -, hm, tail', head', hm', hempty'⟩ :=
    exec_crossing (P := fun s : State T ↦ ∃ tail head,
        s.consumer = .popTest tail head ∧ head = tail)
      (by simp [h₁]) ⟨tail, head, h₂, hempty⟩ hmid
  refine ⟨pre, e :: post, m, rfl, hpre, ?_⟩
  have hinv := inv_of_reachable (hr.exec hpre)
  rcases popTest_of_step hst hm' with hsame | ⟨hload, rfl⟩
  · exact absurd ⟨tail', head', hsame, hempty'⟩ hm
  · rw [held, hinv.delivered_eq_of_load hload hempty', Nat.sub_self]

/-- **The queue refines a bounded FIFO queue under any interleaving.** In every reachable state the
delivered values are a prefix of the accepted ones, at most a capacity of values is in between, each
of them is in its slot, a pop that passed its test finds the next of them, and every step moves the
contents as a bounded FIFO queue does. An `emplace` returns false only when the queue was full at
some moment of the call, and a `pop` only when it was empty at some moment of the call. -/
theorem run_refines_fifo (c : Capacity) :
    (∀ s : State T, Reachable (step c) init s →
      s.delivered <+: s.accepted ∧ held s ≤ c.size ∧
      (∀ i, s.delivered.length + s.consumer.taken ≤ i → i < s.accepted.length →
        s.mStorage (c.slot (UInt64.ofNat i)) = s.accepted[i]?) ∧
      (∀ tail head, s.consumer = .popTest tail head → head ≠ tail →
        s.delivered.length < s.accepted.length ∧
          s.mStorage (c.slot tail) = s.accepted[s.delivered.length]?) ∧
      ∀ e t, step c s e = some t →
        Move c.size (contents s.accepted s.delivered) (contents t.accepted t.delivered)) ∧
    (∀ (s₀ s₁ s₂ s₃ : State T) (x : T) (mid : List (Event T)), Reachable (step c) init s₀ →
      step c s₀ (.producer (.emplace x)) = some s₁ → exec (step c) s₁ mid = some s₂ →
      (∀ y, .producer (.emplace y) ∉ mid) → step c s₂ (.producer .returnFalse) = some s₃ →
      ∃ pre post m, mid = pre ++ post ∧ exec (step c) s₁ pre = some m ∧ held m = c.size) ∧
    ∀ (s₀ s₁ s₂ s₃ : State T) (mid : List (Event T)), Reachable (step c) init s₀ →
      step c s₀ (.consumer .pop) = some s₁ → exec (step c) s₁ mid = some s₂ →
      .consumer .pop ∉ mid → step c s₂ (.consumer .returnFalse) = some s₃ →
      ∃ pre post m, mid = pre ++ post ∧ exec (step c) s₁ pre = some m ∧ held m = 0 := by
  refine ⟨fun s hs ↦ ?_, ?_, ?_⟩
  · have h := inv_of_reachable hs
    refine ⟨h.delivered_prefix, ?_, ?_, ?_, fun e t hst ↦ h.move hst⟩
    · have hbound := h.bound
      rw [held]
      omega
    · intro i hlo hhi
      rw [h.holds.inside i hlo (by omega), List.getElem?_append_left hhi]
    · intro tail head hq hne
      exact (h.front hq hne).2
  · intro s₀ s₁ s₂ s₃ x mid hr hcall hmid _ hret
    have hr₁ : Reachable (step c) init s₁ := hr.tail hcall
    simp only [step, producerStep] at hcall hret
    split at hcall <;> try contradiction
    split at hret <;> try contradiction
    split at hret <;> try contradiction
    rename_i y head tail h₂ hfull
    obtain rfl := Option.some.inj hcall
    exact full_of_emplaceTest hr₁ rfl hmid h₂ hfull
  · intro s₀ s₁ s₂ s₃ mid hr hcall hmid _ hret
    have hr₁ : Reachable (step c) init s₁ := hr.tail hcall
    simp only [step, consumerStep] at hcall hret
    split at hcall <;> try contradiction
    split at hret <;> try contradiction
    split at hret <;> try contradiction
    rename_i tail head h₂ hempty
    obtain rfl := Option.some.inj hcall
    exact empty_of_popTest hr₁ rfl hmid h₂ hempty

end SPSCQueue

end FastInAHurry
