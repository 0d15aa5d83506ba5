import FastInAHurry.Library.BoundedFifo
import FastInAHurry.Queue.MPSCQueue

/-!
# Safety of the multi-producer queue

For any number of producers and every interleaving with fewer than `2 ^ 64` claims, a producer
constructs onto raw storage only, the consumer takes from a slot only the element of the claimant of
its index, and what is popped is a prefix of what was claimed.

## The invariant

The tail is the number of claims and the head the number of values popped. The ring is read through
the natural indices from the head on, a capacity of them: these name every slot exactly once. An
index below the tail that some producer owns has the contents that producer's program point says, an
index that nobody owns is published, and the indices from the tail on are vacant. The consumer is
the only one to touch the slot of the head, and only once nobody owns it.

A producer's copies of the counters are earlier values. The copy of the tail is the current one at a
successful exchange, so only the copy of the head is stale there, and a stale head underestimates
the room. This needs the distance of the two to be less than `2 ^ 64`, which the bound on the number
of claims gives.
-/

namespace FastInAHurry

open BoundedFifo RingIndex Runs

namespace MPSCQueue

variable {ι T : Type*} [DecidableEq ι] {c : Capacity} {s t : State ι T} {p : ι}

/-! ## What a step can do -/

/-- The moves of a producer's program point that change nothing else. -/
inductive ProducerNext (c : Capacity) (s : State ι T) : Producer T → Producer T → Prop
  | tryPush (x : T) : ProducerNext c s .idle (.loadTail x)
  | loadTail (x : T) : ProducerNext c s (.loadTail x) (.loadHead x s.mTail 1)
  | loadHead (x : T) (tail backoff : UInt64) :
      ProducerNext c s (.loadHead x tail backoff) (.claim x tail backoff s.mHead)
  | returnFalse {x : T} {tail backoff head : UInt64} (h : c.word ≤ tail - head) :
      ProducerNext c s (.claim x tail backoff head) .idle
  | retry (x : T) (tail backoff head : UInt64) :
      ProducerNext c s (.claim x tail backoff head)
        (.loadHead x s.mTail (min (backoff <<< 1) 64))

/-- Everything a step of the producer `p` can do. -/
inductive ProducerMove (c : Capacity) (s : State ι T) (p : ι) : State ι T → Prop
  | point {q : Producer T} (h : ProducerNext c s (s.producers p) q) :
      ProducerMove c s p (s.setProducer p q)
  | claim {x : T} {tail backoff head : UInt64} (hp : s.producers p = .claim x tail backoff head)
      (hroom : ¬c.word ≤ tail - head) (htail : s.mTail = tail) :
      ProducerMove c s p { s.setProducer p (.construct x tail) with
        mTail := tail + 1
        claims := s.claims ++ [x] }
  | constructAt {x : T} {tail : UInt64} (hp : s.producers p = .construct x tail) :
      ProducerMove c s p { s.setProducer p (.storeReady x tail) with
        data := Function.update s.data (c.slot tail) (some (tail, x)) }
  | storeReady {x : T} {tail : UInt64} (hp : s.producers p = .storeReady x tail) :
      ProducerMove c s p { s.setProducer p .idle with
        ready := Function.update s.ready (c.slot tail) true }

/-- The moves of the consumer's program point that change nothing else. -/
inductive ConsumerNext (c : Capacity) (s : State ι T) : Consumer T → Consumer T → Prop
  | tryPop : ConsumerNext c s .idle .loadHead
  | loadHead : ConsumerNext c s .loadHead (.loadReady s.mHead)
  | loadReady (head : UInt64) :
      ConsumerNext c s (.loadReady head) (.test head (s.ready (c.slot head)))
  | returnFalse (head : UInt64) : ConsumerNext c s (.test head false) .idle
  | moveOut {head : UInt64} {elem : UInt64 × T} (h : s.data (c.slot head) = some elem) :
      ConsumerNext c s (.test head true) (.destroy elem.2 head)

/-- Everything a step of the consumer can do. -/
inductive ConsumerMove (c : Capacity) (s : State ι T) : State ι T → Prop
  | point {q : Consumer T} (h : ConsumerNext c s s.consumer q) :
      ConsumerMove c s { s with consumer := q }
  | destroyAt {out : T} {head : UInt64} (hq : s.consumer = .destroy out head) :
      ConsumerMove c s { s with
        data := Function.update s.data (c.slot head) none
        consumer := .clearReady out head }
  | clearReady {out : T} {head : UInt64} (hq : s.consumer = .clearReady out head) :
      ConsumerMove c s { s with
        ready := Function.update s.ready (c.slot head) false
        consumer := .storeHead out head }
  | storeHead {out : T} {head : UInt64} (hq : s.consumer = .storeHead out head) :
      ConsumerMove c s { s with
        mHead := head + 1
        consumer := .idle
        popped := s.popped ++ [out] }

theorem producerMove_of_step {e : ProducerEvent T} (hst : producerStep c s p e = some t) :
    ProducerMove c s p t := by
  cases e <;> simp only [producerStep] at hst
  case tryPush x =>
    split at hst <;> try contradiction
    rename_i hp
    obtain rfl := Option.some.inj hst
    exact .point (hp ▸ .tryPush x)
  case loadTail =>
    split at hst <;> try contradiction
    rename_i x hp
    obtain rfl := Option.some.inj hst
    exact .point (hp ▸ .loadTail x)
  case loadHead =>
    split at hst <;> try contradiction
    rename_i x tail backoff hp
    obtain rfl := Option.some.inj hst
    exact .point (hp ▸ .loadHead x tail backoff)
  case returnFalse =>
    split at hst <;> try contradiction
    rename_i x tail backoff head hp
    split at hst <;> try contradiction
    rename_i hfull
    obtain rfl := Option.some.inj hst
    exact .point (hp ▸ .returnFalse hfull)
  case compareExchange spurious =>
    split at hst <;> try contradiction
    rename_i x tail backoff head hp
    split at hst <;> try contradiction
    rename_i hroom
    split at hst <;> obtain rfl := Option.some.inj hst
    · rename_i hwin
      exact .claim hp hroom hwin.1
    · exact .point (hp ▸ .retry x tail backoff head)
  case constructAt =>
    split at hst <;> try contradiction
    rename_i x tail hp
    obtain rfl := Option.some.inj hst
    exact .constructAt hp
  case storeReady =>
    split at hst <;> try contradiction
    rename_i x tail hp
    obtain rfl := Option.some.inj hst
    exact .storeReady hp

omit [DecidableEq ι] in
theorem consumerMove_of_step {e : ConsumerEvent} (hst : consumerStep c s e = some t) :
    ConsumerMove c s t := by
  cases e <;> simp only [consumerStep] at hst
  case tryPop =>
    split at hst <;> try contradiction
    rename_i hq
    obtain rfl := Option.some.inj hst
    exact .point (hq ▸ .tryPop)
  case loadHead =>
    split at hst <;> try contradiction
    rename_i hq
    obtain rfl := Option.some.inj hst
    exact .point (hq ▸ .loadHead)
  case loadReady =>
    split at hst <;> try contradiction
    rename_i head hq
    obtain rfl := Option.some.inj hst
    exact .point (hq ▸ .loadReady head)
  case returnFalse =>
    split at hst <;> try contradiction
    rename_i head hq
    obtain rfl := Option.some.inj hst
    exact .point (hq ▸ .returnFalse head)
  case moveOut =>
    split at hst <;> try contradiction
    rename_i head hq
    obtain ⟨elem, helem, rfl⟩ := Option.map_eq_some_iff.mp hst
    exact .point (hq ▸ .moveOut helem)
  case destroyAt =>
    split at hst <;> try contradiction
    rename_i out head hq
    obtain rfl := Option.some.inj hst
    exact .destroyAt hq
  case clearReady =>
    split at hst <;> try contradiction
    rename_i out head hq
    obtain rfl := Option.some.inj hst
    exact .clearReady hq
  case storeHead =>
    split at hst <;> try contradiction
    rename_i out head hq
    obtain rfl := Option.some.inj hst
    exact .storeHead hq

/-! ## The invariant -/

/-- The index a producer has claimed and not yet published. -/
def Producer.owns : Producer T → Option UInt64
  | .construct _ tail => some tail
  | .storeReady _ tail => some tail
  | _ => none

/-- How many elements the consumer has destroyed and not yet released. -/
def Consumer.taken : Consumer T → ℕ
  | .clearReady _ _ => 1
  | .storeHead _ _ => 1
  | _ => 0

theorem Consumer.taken_le_one (q : Consumer T) : q.taken ≤ 1 := by
  cases q <;> simp [taken]

/-- What the slot of an index holds. -/
def State.cell (s : State ι T) (c : Capacity) (i : ℕ) : Option (UInt64 × T) × Bool :=
  (s.data (c.slot (UInt64.ofNat i)), s.ready (c.slot (UInt64.ofNat i)))

/-- No producer owns the index. -/
def State.Free (s : State ι T) (i : ℕ) : Prop :=
  ∀ p, (s.producers p).owns ≠ some (UInt64.ofNat i)

/-- A producer owns the index `i`, which holds the value `x` it claimed it for. -/
def Owns (s : State ι T) (x : T) (tail : UInt64) (i : ℕ) : Prop :=
  s.popped.length ≤ i ∧ tail = UInt64.ofNat i ∧ s.claims[i]? = some x

/-- What a producer's local variables say about the queue. -/
def ProducerOk (c : Capacity) (s : State ι T) : Producer T → Prop
  | .loadHead _ tail _ => ∃ j ≤ s.claims.length, tail = UInt64.ofNat j
  | .claim _ tail _ head => (∃ j ≤ s.claims.length, tail = UInt64.ofNat j) ∧
      ∃ i ≤ s.popped.length, head = UInt64.ofNat i
  | .construct x tail => ∃ i, Owns s x tail i ∧ s.cell c i = (none, false)
  | .storeReady x tail => ∃ i, Owns s x tail i ∧ s.cell c i = (some (tail, x), false)
  | _ => True

/-- The consumer may take `out` from the slot of the head. -/
def Takes (s : State ι T) (out : T) (head : UInt64) : Prop :=
  head = s.mHead ∧ s.claims[s.popped.length]? = some out ∧ s.Free s.popped.length

/-- What the consumer's local variables say about the queue. -/
def ConsumerOk (c : Capacity) (s : State ι T) : Consumer T → Prop
  | .loadReady head => head = s.mHead
  | .test head ready => head = s.mHead ∧
      (ready = true → s.popped.length < s.claims.length ∧ s.Free s.popped.length)
  | .destroy out head => Takes s out head
  | .clearReady out head => Takes s out head ∧ s.cell c s.popped.length = (none, true)
  | .storeHead out head => Takes s out head ∧ s.cell c s.popped.length = (none, false)
  | _ => True

structure Inv (c : Capacity) (s : State ι T) : Prop where
  head_eq : s.mHead = UInt64.ofNat s.popped.length
  tail_eq : s.mTail = UInt64.ofNat s.claims.length
  popped_prefix : s.popped <+: s.claims
  bound : s.claims.length ≤ s.popped.length + c.size
  short : s.claims.length < 2 ^ 64
  producer_ok : ∀ p, ProducerOk c s (s.producers p)
  owns_inj : ∀ p q idx, (s.producers p).owns = some idx → (s.producers q).owns = some idx → p = q
  consumer_ok : ConsumerOk c s s.consumer
  published : ∀ i x, s.popped.length + s.consumer.taken ≤ i → s.claims[i]? = some x → s.Free i →
    s.cell c i = (some (UInt64.ofNat i, x), true)
  vacant : ∀ i, s.claims.length ≤ i → i < s.popped.length + c.size → s.cell c i = (none, false)

omit [DecidableEq ι] in
theorem Inv.init : Inv c (init : State ι T) where
  head_eq := rfl
  tail_eq := rfl
  popped_prefix := List.prefix_rfl
  bound := Nat.zero_le _
  short := Nat.two_pow_pos 64
  producer_ok _ := trivial
  owns_inj _ _ _ hp := nomatch hp
  consumer_ok := trivial
  published _ _ _ hx := nomatch hx
  vacant _ _ _ := rfl

/-! ### Reading the ring by index -/

omit [DecidableEq ι] in
/-- Distinct indices of the ring do not see each other's slots. -/
theorem cell_eq_of_ne {i j lo : ℕ} (hi : lo ≤ i) (hi' : i < lo + c.size) (hj : lo ≤ j)
    (hj' : j < lo + c.size) (hne : i ≠ j)
    (hdata : ∀ k, k ≠ c.slot (UInt64.ofNat j) → t.data k = s.data k)
    (hready : ∀ k, k ≠ c.slot (UInt64.ofNat j) → t.ready k = s.ready k) :
    t.cell c i = s.cell c i := by
  have hslot : c.slot (UInt64.ofNat i) ≠ c.slot (UInt64.ofNat j) := fun heq ↦
    hne (c.slot_injOn (by omega) (by omega) heq)
  rw [State.cell, State.cell, hdata _ hslot, hready _ hslot]

omit [DecidableEq ι] in
/-- A producer's knowledge survives what does not touch the index it owns. -/
theorem ProducerOk.mono {q : Producer T} (h : ProducerOk c s q) (hclaims : s.claims <+: t.claims)
    (hpopped : s.popped.length ≤ t.popped.length)
    (hcell : ∀ i, s.popped.length ≤ i → i < s.claims.length →
      q.owns = some (UInt64.ofNat i) → t.popped.length ≤ i ∧ t.cell c i = s.cell c i) :
    ProducerOk c t q := by
  have howns : ∀ {x tail i}, q.owns = some tail → Owns s x tail i →
      Owns t x tail i ∧ t.cell c i = s.cell c i := by
    rintro x tail i hq ⟨hlo, rfl, hx⟩
    obtain ⟨hlt, -⟩ := List.getElem?_eq_some_iff.mp hx
    obtain ⟨hlo', heq⟩ := hcell i hlo hlt hq
    exact ⟨⟨hlo', rfl, getElem?_of_prefix hclaims hx⟩, heq⟩
  cases q with
  | idle | loadTail => trivial
  | loadHead x tail backoff =>
    obtain ⟨j, hj, heq⟩ := h
    exact ⟨j, hj.trans hclaims.length_le, heq⟩
  | claim x tail backoff head =>
    obtain ⟨⟨j, hj, hjeq⟩, i, hi, hieq⟩ := h
    exact ⟨⟨j, hj.trans hclaims.length_le, hjeq⟩, i, hi.trans hpopped, hieq⟩
  | construct x tail =>
    obtain ⟨i, hown, hc⟩ := h
    obtain ⟨hown', heq⟩ := howns rfl hown
    exact ⟨i, hown', heq.trans hc⟩
  | storeReady x tail =>
    obtain ⟨i, hown, hc⟩ := h
    obtain ⟨hown', heq⟩ := howns rfl hown
    exact ⟨i, hown', heq.trans hc⟩

omit [DecidableEq ι] in
/-- The consumer's knowledge survives what does not touch the slot of the head. -/
theorem ConsumerOk.mono {q : Consumer T} (h : ConsumerOk c s q) (hhead : t.mHead = s.mHead)
    (hpopped : t.popped = s.popped) (hclaims : s.claims <+: t.claims)
    (hfree : s.popped.length < s.claims.length → s.Free s.popped.length →
      t.Free s.popped.length ∧ t.cell c s.popped.length = s.cell c s.popped.length) :
    ConsumerOk c t q := by
  have htakes : ∀ {out head}, Takes s out head →
      Takes t out head ∧ t.cell c t.popped.length = s.cell c s.popped.length := by
    rintro out head ⟨rfl, hout, hf⟩
    obtain ⟨hf', heq⟩ := hfree (List.getElem?_eq_some_iff.mp hout).1 hf
    rw [Takes, hhead, hpopped]
    exact ⟨⟨rfl, getElem?_of_prefix hclaims hout, hf'⟩, heq⟩
  cases q with
  | idle | loadHead => trivial
  | loadReady head => exact h.trans hhead.symm
  | test head ready =>
    refine ⟨h.1.trans hhead.symm, fun hr ↦ ?_⟩
    obtain ⟨hlt, hf⟩ := h.2 hr
    rw [hpopped]
    exact ⟨hlt.trans_le hclaims.length_le, (hfree hlt hf).1⟩
  | destroy out head => exact (htakes h).1
  | clearReady out head =>
    obtain ⟨hok, heq⟩ := htakes h.1
    exact ⟨hok, heq.trans h.2⟩
  | storeHead out head =>
    obtain ⟨hok, heq⟩ := htakes h.1
    exact ⟨hok, heq.trans h.2⟩

/-! ### The owners -/

section Owners

variable {q : Producer T}

theorem setProducer_self : (s.setProducer p q).producers p = q :=
  Function.update_self ..

theorem setProducer_of_ne {p' : ι} (hne : p' ≠ p) :
    (s.setProducer p q).producers p' = s.producers p' :=
  Function.update_of_ne hne ..

theorem producerOk_setProducer (ht : t.producers = (s.setProducer p q).producers)
    (hself : ProducerOk c t q) (hother : ∀ p', p' ≠ p → ProducerOk c t (s.producers p')) (p' : ι) :
    ProducerOk c t (t.producers p') := by
  rw [ht]
  exact (Function.forall_update_iff s.producers fun _ r ↦ ProducerOk c t r).mpr
    ⟨hself, hother⟩ p'

theorem free_setProducer {i : ℕ} :
    (s.setProducer p q).Free i ↔ q.owns ≠ some (UInt64.ofNat i) ∧
      ∀ p', p' ≠ p → (s.producers p').owns ≠ some (UInt64.ofNat i) :=
  Function.forall_update_iff s.producers fun _ r ↦ r.owns ≠ some (UInt64.ofNat i)

theorem Free.setProducer {i : ℕ} (hf : s.Free i) (hq : q.owns ≠ some (UInt64.ofNat i)) :
    (s.setProducer p q).Free i :=
  free_setProducer.mpr ⟨hq, fun p' _ ↦ hf p'⟩

/-- What is free after a move of `p` was free before, unless `p` owned it. -/
theorem free_of_setProducer {i : ℕ} (hf : (s.setProducer p q).Free i)
    (hp : (s.producers p).owns ≠ some (UInt64.ofNat i)) : s.Free i := by
  intro p'
  by_cases hp' : p' = p
  · rwa [hp']
  · exact (free_setProducer.mp hf).2 p' hp'

/-- Indices keep distinct owners when the index `p` moves to is nobody else's. -/
theorem owns_inj_setProducer
    (hinj : ∀ p q idx, (s.producers p).owns = some idx → (s.producers q).owns = some idx → p = q)
    (hq : ∀ idx, q.owns = some idx → ∀ p', p' ≠ p → (s.producers p').owns ≠ some idx)
    (p₁ p₂ : ι) (idx : UInt64) (h₁ : ((s.setProducer p q).producers p₁).owns = some idx)
    (h₂ : ((s.setProducer p q).producers p₂).owns = some idx) : p₁ = p₂ := by
  by_cases hp₁ : p₁ = p <;> by_cases hp₂ : p₂ = p
  · rw [hp₁, hp₂]
  · rw [hp₁, setProducer_self] at h₁
    rw [setProducer_of_ne hp₂] at h₂
    exact absurd h₂ (hq idx h₁ p₂ hp₂)
  · rw [hp₂, setProducer_self] at h₂
    rw [setProducer_of_ne hp₁] at h₁
    exact absurd h₁ (hq idx h₂ p₁ hp₁)
  · rw [setProducer_of_ne hp₁] at h₁
    rw [setProducer_of_ne hp₂] at h₂
    exact hinj p₁ p₂ idx h₁ h₂

end Owners

omit [DecidableEq ι] in
/-- An owned index is one of the claims, and its flag is not raised. -/
theorem Inv.exists_owns (h : Inv c s) {idx : UInt64} (hp : (s.producers p).owns = some idx) :
    ∃ i x, Owns s x idx i ∧ (s.cell c i).2 = false := by
  have hok := h.producer_ok p
  generalize s.producers p = q at hp hok
  cases q with
  | construct x tail =>
    obtain rfl := Option.some.inj hp
    obtain ⟨i, hown, hcell⟩ := hok
    exact ⟨i, x, hown, congrArg Prod.snd hcell⟩
  | storeReady x tail =>
    obtain rfl := Option.some.inj hp
    obtain ⟨i, hown, hcell⟩ := hok
    exact ⟨i, x, hown, congrArg Prod.snd hcell⟩
  | _ => cases hp

omit [DecidableEq ι] in
/-- An owned index is inside the ring. -/
theorem Inv.owns_range (h : Inv c s) {x : T} {tail : UInt64} {i : ℕ} (hi : Owns s x tail i) :
    s.popped.length ≤ i ∧ i < s.claims.length ∧ i < s.popped.length + c.size := by
  have hlt := (List.getElem?_eq_some_iff.mp hi.2.2).1
  exact ⟨hi.1, hlt, hlt.trans_le h.bound⟩

omit [DecidableEq ι] in
/-- Two producers own different indices. -/
theorem Inv.owns_ne (h : Inv c s) {p' : ι} (hne : p' ≠ p) {i j : ℕ}
    (hp' : (s.producers p').owns = some (UInt64.ofNat i))
    (hp : (s.producers p).owns = some (UInt64.ofNat j)) : i ≠ j := by
  rintro rfl
  exact hne (h.owns_inj p' p _ hp' hp)

/-! ## Moves of a producer -/

theorem Inv.setProducer (h : Inv c s) {q : Producer T} (hold : (s.producers p).owns = none)
    (hnew : q.owns = none) (hok : ProducerOk c s q) : Inv c (s.setProducer p q) := by
  have hne : ∀ idx, q.owns ≠ some idx := fun idx ↦ by
    rw [hnew]
    exact nofun
  refine ⟨h.head_eq, h.tail_eq, h.popped_prefix, h.bound, h.short, ?_, ?_, ?_, ?_, h.vacant⟩
  · exact producerOk_setProducer rfl hok fun p' _ ↦ h.producer_ok p'
  · exact owns_inj_setProducer h.owns_inj fun idx hidx ↦ absurd hidx (hne idx)
  · exact h.consumer_ok.mono rfl rfl List.prefix_rfl fun _ hf ↦
      ⟨Free.setProducer hf (hne _), rfl⟩
  · intro i x hlo hx hf
    refine h.published i x hlo hx (free_of_setProducer hf ?_)
    rw [hold]
    exact nofun

omit [DecidableEq ι] in
/-- The full test passed on a stale head: there is room. -/
theorem Inv.room (h : Inv c s) {x : T} {tail backoff head : UInt64}
    (hp : s.producers p = .claim x tail backoff head) (hroom : ¬c.word ≤ tail - head)
    (htail : s.mTail = tail) : s.claims.length < s.popped.length + c.size := by
  have hok := h.producer_ok p
  rw [hp] at hok
  obtain ⟨-, i, hi, rfl⟩ := hok
  have hle := h.popped_prefix.length_le
  have hshort := h.short
  -- the tail is current, so only the head is stale, and it is behind the real one
  rw [← htail, h.tail_eq, c.word_le_ofNat_sub_iff (by omega) (by omega)] at hroom
  omega

theorem Inv.claim (h : Inv c s) {x : T} {tail backoff head : UInt64}
    (hp : s.producers p = .claim x tail backoff head) (hroom : ¬c.word ≤ tail - head)
    (htail : s.mTail = tail) (hshort : s.claims.length + 1 < 2 ^ 64) :
    Inv c { s.setProducer p (.construct x tail) with
      mTail := tail + 1
      claims := s.claims ++ [x] } := by
  have hlt := h.room hp hroom htail
  have hle := h.popped_prefix.length_le
  have htail' : tail = UInt64.ofNat s.claims.length := htail.symm.trans h.tail_eq
  have hpre : s.claims <+: s.claims ++ [x] := List.prefix_append _ _
  have hlen : (s.claims ++ [x]).length = s.claims.length + 1 := by simp
  -- the index claimed now is none of those below the tail
  have hne : ∀ i, s.popped.length ≤ i → i < s.claims.length → tail ≠ UInt64.ofNat i := by
    intro i hlo hhi heq
    have := c.ofNat_injOn (by omega) (by omega) (htail'.symm.trans heq)
    omega
  refine ⟨h.head_eq, ?_, h.popped_prefix.trans hpre, ?_, ?_, ?_, ?_, ?_, ?_, ?_⟩
  · rw [htail', hlen, UInt64.ofNat_add]
    rfl
  · rw [hlen]
    exact hlt
  · rw [hlen]
    exact hshort
  · refine producerOk_setProducer rfl ?_ fun p' _ ↦ ?_
    · refine ⟨s.claims.length, ⟨hle, htail', List.getElem?_concat_length⟩, ?_⟩
      exact h.vacant _ le_rfl hlt
    · exact (h.producer_ok p').mono hpre le_rfl fun i hlo _ _ ↦ ⟨hlo, rfl⟩
  · refine owns_inj_setProducer h.owns_inj ?_
    rintro idx hidx p' - hp'
    obtain rfl := Option.some.inj hidx
    obtain ⟨i, y, hi, -⟩ := h.exists_owns hp'
    obtain ⟨hlo, hhi, -⟩ := h.owns_range hi
    exact hne i hlo hhi hi.2.1
  · refine h.consumer_ok.mono rfl rfl hpre fun hlt' hf ↦ ⟨Free.setProducer hf ?_, rfl⟩
    exact fun heq ↦ hne _ le_rfl hlt' (Option.some.inj heq)
  · intro i y hlo hy hf
    have hi : i < s.claims.length := by
      have hi := (List.getElem?_eq_some_iff.mp hy).1
      rw [hlen] at hi
      refine lt_of_le_of_ne (Nat.le_of_lt_succ hi) fun heq ↦ (free_setProducer.mp hf).1 ?_
      rw [heq, ← htail']
      rfl
    rw [List.getElem?_append_left hi] at hy
    refine h.published i y hlo hy (free_of_setProducer hf ?_)
    rw [hp]
    exact nofun
  · intro i hlo hhi
    rw [hlen] at hlo
    exact h.vacant i (by omega) hhi

/-- A producer that writes the slot it owns, and keeps or publishes it, keeps the invariant. -/
theorem Inv.writeOwned (h : Inv c s) {x : T} {j : ℕ} (hown : Owns s x (UInt64.ofNat j) j)
    (hp : (s.producers p).owns = some (UInt64.ofNat j)) {q : Producer T}
    {data : UInt64 → Option (UInt64 × T)} {ready : UInt64 → Bool}
    (hdata : ∀ k, k ≠ c.slot (UInt64.ofNat j) → data k = s.data k)
    (hready : ∀ k, k ≠ c.slot (UInt64.ofNat j) → ready k = s.ready k)
    (hkeep : ∀ idx, q.owns = some idx → idx = UInt64.ofNat j)
    (hok : ProducerOk c { s.setProducer p q with data := data, ready := ready } q)
    (hpub : q.owns = none → data (c.slot (UInt64.ofNat j)) = some (UInt64.ofNat j, x) ∧
      ready (c.slot (UInt64.ofNat j)) = true) :
    Inv c { s.setProducer p q with data := data, ready := ready } := by
  obtain ⟨hj, hj', hj''⟩ := h.owns_range hown
  have hframe : ∀ i, s.popped.length ≤ i → i < s.popped.length + c.size → i ≠ j →
      State.cell { s.setProducer p q with data := data, ready := ready } c i = s.cell c i :=
    fun i hlo hhi hne ↦ cell_eq_of_ne hlo hhi hj hj'' hne hdata hready
  have hbound := h.bound
  refine ⟨h.head_eq, h.tail_eq, h.popped_prefix, h.bound, h.short, ?_, ?_, ?_, ?_, ?_⟩
  · refine producerOk_setProducer rfl hok fun p' hp' ↦ ?_
    refine (h.producer_ok p').mono List.prefix_rfl le_rfl fun i hlo hhi howns ↦ ⟨hlo, ?_⟩
    exact hframe i hlo (by omega) (h.owns_ne hp' howns hp)
  · refine owns_inj_setProducer h.owns_inj fun idx hidx p' hp' howns ↦ hp' ?_
    rw [hkeep idx hidx] at howns
    exact h.owns_inj p' p _ howns hp
  · refine h.consumer_ok.mono rfl rfl List.prefix_rfl fun hlt hf ↦ ⟨Free.setProducer hf ?_, ?_⟩
    · exact fun hidx ↦ hf p (hkeep _ hidx ▸ hp)
    · exact hframe _ le_rfl (by omega) fun heq ↦ hf p (heq ▸ hp)
  · intro i y hlo hy hf
    by_cases hij : i = j
    · have hnone : q.owns = none := by
        refine Option.eq_none_iff_forall_ne_some.mpr fun idx hidx ↦ ?_
        exact (free_setProducer.mp hf).1 (by rw [hidx, hkeep idx hidx, hij])
      obtain rfl : x = y := Option.some.inj (hown.2.2.symm.trans (hij ▸ hy))
      rw [hij]
      exact Prod.ext (hpub hnone).1 (hpub hnone).2
    · have hi : i < s.claims.length := (List.getElem?_eq_some_iff.mp hy).1
      have hlo' : s.popped.length ≤ i := (Nat.le_add_right _ _).trans hlo
      rw [hframe i hlo' (by omega) hij]
      refine h.published i y hlo hy (free_of_setProducer hf ?_)
      rw [hp]
      refine fun heq ↦ hij (c.ofNat_injOn ?_ ?_ (Option.some.inj heq).symm)
      · omega
      · omega
  · intro i hlo hhi
    have hle : s.popped.length ≤ i := h.popped_prefix.length_le.trans hlo
    exact (hframe i hle hhi (hj'.trans_le hlo).ne').trans (h.vacant i hlo hhi)

theorem Inv.constructAt (h : Inv c s) {x : T} {tail : UInt64}
    (hp : s.producers p = .construct x tail) :
    Inv c { s.setProducer p (.storeReady x tail) with
      data := Function.update s.data (c.slot tail) (some (tail, x)) } := by
  have hok := h.producer_ok p
  rw [hp] at hok
  obtain ⟨j, hown, hcell⟩ := hok
  obtain rfl := hown.2.1
  refine h.writeOwned hown (by rw [hp]; rfl) (fun k hk ↦ Function.update_of_ne hk ..)
    (fun _ _ ↦ rfl) (fun idx hidx ↦ (Option.some.inj hidx).symm) ⟨j, hown, ?_⟩ nofun
  have hready : s.ready (c.slot (UInt64.ofNat j)) = false := congrArg Prod.snd hcell
  exact Prod.ext (Function.update_self ..) hready

theorem Inv.storeReady (h : Inv c s) {x : T} {tail : UInt64}
    (hp : s.producers p = .storeReady x tail) :
    Inv c { s.setProducer p .idle with
      ready := Function.update s.ready (c.slot tail) true } := by
  have hok := h.producer_ok p
  rw [hp] at hok
  obtain ⟨j, hown, hcell⟩ := hok
  obtain rfl := hown.2.1
  refine h.writeOwned hown (by rw [hp]; rfl) (fun _ _ ↦ rfl)
    (fun k hk ↦ Function.update_of_ne hk ..) nofun trivial fun _ ↦ ⟨?_, ?_⟩
  · exact congrArg Prod.fst hcell
  · exact Function.update_self ..

/-! ## Moves of the consumer -/

omit [DecidableEq ι] in
theorem Inv.setConsumer (h : Inv c s) {q : Consumer T} (htaken : q.taken = s.consumer.taken)
    (hok : ConsumerOk c s q) : Inv c { s with consumer := q } := by
  refine ⟨h.head_eq, h.tail_eq, h.popped_prefix, h.bound, h.short, h.producer_ok, h.owns_inj,
    ?_, ?_, h.vacant⟩
  · exact hok.mono rfl rfl List.prefix_rfl fun _ hf ↦ ⟨hf, rfl⟩
  · intro i x hlo hx hf
    exact h.published i x (htaken ▸ hlo) hx hf

omit [DecidableEq ι] in
/-- A raised flag at the head says that the claimant of the head has published. -/
theorem Inv.free_of_ready (h : Inv c s) (hready : s.ready (c.slot s.mHead) = true) :
    s.popped.length < s.claims.length ∧ s.Free s.popped.length := by
  have hpos := c.size_pos
  have hcell : (s.cell c s.popped.length).2 = true := by
    rw [State.cell, ← h.head_eq]
    exact hready
  constructor
  · refine lt_of_le_of_ne h.popped_prefix.length_le fun heq ↦ ?_
    rw [h.vacant _ heq.ge (by omega)] at hcell
    cases hcell
  · intro p hp
    obtain ⟨i, x, hown, hlow⟩ := h.exists_owns hp
    obtain ⟨hlo, hhi, hhi'⟩ := h.owns_range hown
    have hi : s.popped.length = i := c.ofNat_injOn (by omega) (by omega) hown.2.1
    rw [hi, hlow] at hcell
    cases hcell

omit [DecidableEq ι] in
/-- The front element is in its slot, with the index of its claimant. -/
theorem Inv.front (h : Inv c s) (htaken : s.consumer.taken = 0) {x : T}
    (hx : s.claims[s.popped.length]? = some x) (hf : s.Free s.popped.length) :
    s.data (c.slot s.mHead) = some (s.mHead, x) := by
  have hcell := h.published _ x (by rw [htaken, Nat.add_zero]) hx hf
  rw [h.head_eq]
  exact congrArg Prod.fst hcell

omit [DecidableEq ι] in
/-- The consumer works on the slot of the head, which is nobody else's. -/
theorem Inv.writeFront (h : Inv c s) {out : T} {head : UInt64} (htakes : Takes s out head)
    {q : Consumer T} {data : UInt64 → Option (UInt64 × T)} {ready : UInt64 → Bool}
    (hdata : ∀ k, k ≠ c.slot head → data k = s.data k)
    (hready : ∀ k, k ≠ c.slot head → ready k = s.ready k) (htaken : q.taken = 1)
    (hok : ConsumerOk c { s with data := data, ready := ready, consumer := q } q) :
    Inv c { s with data := data, ready := ready, consumer := q } := by
  obtain ⟨rfl, hout, hf⟩ := htakes
  have hlt := (List.getElem?_eq_some_iff.mp hout).1
  have hbound := h.bound
  have hframe : ∀ i, s.popped.length ≤ i → i < s.popped.length + c.size → i ≠ s.popped.length →
      State.cell { s with data := data, ready := ready, consumer := q } c i = s.cell c i := by
    rw [h.head_eq] at hdata hready
    exact fun i hlo hhi hne ↦ cell_eq_of_ne hlo hhi le_rfl (by omega) hne hdata hready
  refine ⟨h.head_eq, h.tail_eq, h.popped_prefix, h.bound, h.short, fun p ↦ ?_, h.owns_inj, hok,
    ?_, ?_⟩
  · refine (h.producer_ok p).mono List.prefix_rfl le_rfl fun i hlo hhi howns ↦ ⟨hlo, ?_⟩
    exact hframe i hlo (by omega) fun heq ↦ hf p (heq ▸ howns)
  · intro i x hlo hx hfree
    have hlo' : s.popped.length + 1 ≤ i := htaken ▸ hlo
    have hi : i < s.claims.length := (List.getElem?_eq_some_iff.mp hx).1
    rw [hframe i (by omega) (by omega) (by omega)]
    exact h.published i x ((Nat.add_le_add_left s.consumer.taken_le_one _).trans hlo') hx hfree
  · intro i hlo hhi
    have hle : s.popped.length < i := hlt.trans_le hlo
    exact (hframe i hle.le hhi hle.ne').trans (h.vacant i hlo hhi)

omit [DecidableEq ι] in
theorem Inv.destroyAt (h : Inv c s) {out : T} {head : UInt64}
    (hq : s.consumer = .destroy out head) :
    Inv c { s with
      data := Function.update s.data (c.slot head) none
      consumer := .clearReady out head } := by
  have hok := h.consumer_ok
  have hpub := h.published s.popped.length out
  rw [hq] at hok hpub
  refine h.writeFront hok (fun k hk ↦ Function.update_of_ne hk ..) (fun _ _ ↦ rfl) rfl ⟨hok, ?_⟩
  obtain ⟨rfl, hout, hf⟩ := hok
  rw [h.head_eq]
  have hready : s.ready (c.slot (UInt64.ofNat s.popped.length)) = true :=
    congrArg Prod.snd (hpub le_rfl hout hf)
  exact Prod.ext (Function.update_self ..) hready

omit [DecidableEq ι] in
theorem Inv.clearReady (h : Inv c s) {out : T} {head : UInt64}
    (hq : s.consumer = .clearReady out head) :
    Inv c { s with
      ready := Function.update s.ready (c.slot head) false
      consumer := .storeHead out head } := by
  have hok := h.consumer_ok
  rw [hq] at hok
  obtain ⟨htakes, hcell⟩ := hok
  refine h.writeFront htakes (fun _ _ ↦ rfl) (fun k hk ↦ Function.update_of_ne hk ..) rfl
    ⟨htakes, ?_⟩
  have hdata : s.data (c.slot (UInt64.ofNat s.popped.length)) = none := congrArg Prod.fst hcell
  rw [htakes.1, h.head_eq]
  exact Prod.ext hdata (Function.update_self ..)

omit [DecidableEq ι] in
theorem Inv.storeHead (h : Inv c s) {out : T} {head : UInt64}
    (hq : s.consumer = .storeHead out head) :
    Inv c { s with
      mHead := head + 1
      consumer := .idle
      popped := s.popped ++ [out] } := by
  have hok := h.consumer_ok
  have hpub := h.published
  rw [hq] at hok hpub
  obtain ⟨⟨rfl, hout, hf⟩, hcell⟩ := hok
  have hlen : (s.popped ++ [out]).length = s.popped.length + 1 := by simp
  have hbound := h.bound
  refine ⟨?_, h.tail_eq, concat_prefix h.popped_prefix hout, ?_, h.short, fun p ↦ ?_, h.owns_inj,
    trivial, ?_, ?_⟩
  · rw [h.head_eq, hlen, UInt64.ofNat_add]
    rfl
  · rw [hlen]
    exact hbound.trans (by omega)
  · refine (h.producer_ok p).mono List.prefix_rfl (by simp) fun i hlo _ howns ↦ ⟨?_, rfl⟩
    rw [hlen]
    exact lt_of_le_of_ne hlo fun heq ↦ hf p (heq ▸ howns)
  · rw [hlen]
    exact hpub
  · intro i hlo hhi
    rw [hlen] at hhi
    by_cases hi : i = s.popped.length + c.size
    · -- the slot just released is the last one of the ring seen from the new head
      rw [hi, State.cell, c.slot_add_size]
      exact hcell
    · exact h.vacant i hlo (by omega)

/-! ## Every step keeps the invariant -/

theorem Inv.producerNext (h : Inv c s) {q : Producer T}
    (hn : ProducerNext c s (s.producers p) q) : Inv c (s.setProducer p q) := by
  have hok := h.producer_ok p
  generalize hp : s.producers p = q₀ at hn hok
  have howns : q₀.owns = none := by cases hn <;> rfl
  rw [← hp] at howns
  cases hn with
  | tryPush | returnFalse => exact h.setProducer howns rfl trivial
  | loadTail => exact h.setProducer howns rfl ⟨_, le_rfl, h.tail_eq⟩
  | loadHead => exact h.setProducer howns rfl ⟨hok, _, le_rfl, h.head_eq⟩
  | retry => exact h.setProducer howns rfl ⟨_, le_rfl, h.tail_eq⟩

omit [DecidableEq ι] in
theorem Inv.consumerNext (h : Inv c s) {q : Consumer T} (hn : ConsumerNext c s s.consumer q) :
    Inv c { s with consumer := q } := by
  have hok := h.consumer_ok
  generalize hq : s.consumer = q₀ at hn hok
  have htaken : q.taken = s.consumer.taken := by
    rw [hq]
    cases hn <;> rfl
  cases hn with
  | tryPop | returnFalse => exact h.setConsumer htaken trivial
  | loadHead => exact h.setConsumer htaken rfl
  | loadReady head =>
    obtain rfl : head = s.mHead := hok
    exact h.setConsumer htaken ⟨rfl, h.free_of_ready⟩
  | @moveOut head elem helem =>
    obtain ⟨rfl, hr⟩ := hok
    obtain ⟨hlt, hf⟩ := hr rfl
    have hx := List.getElem?_eq_getElem hlt
    have hdata := h.front (by rw [hq]; rfl) hx hf
    obtain rfl := Option.some.inj (hdata.symm.trans helem)
    exact h.setConsumer htaken ⟨rfl, hx, hf⟩

/-- Steps claim at most one index, and never take one back. -/
theorem claims_prefix_of_step {e : Event ι T} (hst : step c s e = some t) :
    s.claims <+: t.claims := by
  cases e with
  | producer p e =>
    cases producerMove_of_step hst with
    | claim => exact List.prefix_append _ _
    | point | constructAt | storeReady => exact List.prefix_rfl
  | consumer e =>
    cases consumerMove_of_step hst with
    | point | destroyAt | clearReady | storeHead => exact List.prefix_rfl

theorem Inv.step (h : Inv c s) {e : Event ι T} (hst : step c s e = some t)
    (hshort : t.claims.length < 2 ^ 64) : Inv c t := by
  cases e with
  | producer p e =>
    cases producerMove_of_step hst with
    | point hn => exact h.producerNext hn
    | claim hp hroom htail =>
      exact h.claim hp hroom htail (by simpa using hshort)
    | constructAt hp => exact h.constructAt hp
    | storeReady hp => exact h.storeReady hp
  | consumer e =>
    cases consumerMove_of_step hst with
    | point hn => exact h.consumerNext hn
    | destroyAt hq => exact h.destroyAt hq
    | clearReady hq => exact h.clearReady hq
    | storeHead hq => exact h.storeHead hq

theorem inv_of_reachable (h : Reachable (step c) init s) (hshort : s.claims.length < 2 ^ 64) :
    Inv c s := by
  refine h.invariant (P := fun s ↦ s.claims.length < 2 ^ 64 → Inv c s) ?_ (fun _ ↦ Inv.init) hshort
  intro s e t hs hst ht
  exact (hs ((claims_prefix_of_step hst).length_le.trans_lt ht)).step hst ht

/-! ## The contents move as a bounded FIFO queue -/

/-- **Refinement.** Every step moves the claimed values as a bounded FIFO queue does. -/
theorem Inv.move (h : Inv c s) {e : Event ι T} (hst : MPSCQueue.step c s e = some t) :
    Move c.size (contents s.claims s.popped) (contents t.claims t.popped) := by
  cases e with
  | producer p e =>
    cases producerMove_of_step hst with
    | point | constructAt | storeReady => exact Move.stutter _
    | claim hp hroom htail =>
      exact move_of_accept h.popped_prefix.length_le _ (h.room hp hroom htail)
  | consumer e =>
    cases consumerMove_of_step hst with
    | point | destroyAt | clearReady => exact Move.stutter _
    | storeHead hq =>
      have hok := h.consumer_ok
      rw [hq] at hok
      exact move_of_deliver hok.1.2.1

/-! ## What the consumer finds -/

omit [DecidableEq ι] in
/-- The element the consumer is going to move out or destroy is the front one. -/
theorem Inv.taking (h : Inv c s) {head : UInt64}
    (hq : s.consumer = .test head true ∨ ∃ out, s.consumer = .destroy out head) :
    head = s.mHead ∧ ∃ x, s.claims[s.popped.length]? = some x ∧
      s.data (c.slot head) = some (s.mHead, x) := by
  have hok := h.consumer_ok
  rcases hq with hq | ⟨out, hq⟩ <;> rw [hq] at hok
  · obtain ⟨rfl, hr⟩ := hok
    obtain ⟨hlt, hf⟩ := hr rfl
    have hx := List.getElem?_eq_getElem hlt
    exact ⟨rfl, _, hx, h.front (by rw [hq]; rfl) hx hf⟩
  · obtain ⟨rfl, hx, hf⟩ := hok
    exact ⟨rfl, _, hx, h.front (by rw [hq]; rfl) hx hf⟩

omit [DecidableEq ι] in
/-- While no claim is in flight, the flag at the head is down only on an empty queue. -/
theorem Inv.ready_eq_false_iff (h : Inv c s) (htaken : s.consumer.taken = 0)
    (hidle : ∀ p, (s.producers p).owns = none) :
    s.ready (c.slot s.mHead) = false ↔ s.popped = s.claims := by
  have hpos := c.size_pos
  rw [h.head_eq]
  constructor
  · intro hready
    refine h.popped_prefix.eq_of_length_le (Nat.not_lt.mp fun hlt ↦ ?_)
    -- an index nobody owns is published
    have hf : s.Free s.popped.length := fun p ↦ by
      rw [hidle p]
      exact nofun
    have hcell := h.published _ _ (by rw [htaken, Nat.add_zero]) (List.getElem?_eq_getElem hlt) hf
    exact Bool.false_ne_true (hready.symm.trans (congrArg Prod.snd hcell))
  · intro heq
    exact congrArg Prod.snd (h.vacant s.popped.length (by rw [heq]) (by omega))

/-- Producers do not move the consumer. -/
theorem consumer_of_producerStep {e : ProducerEvent T} (hst : producerStep c s p e = some t) :
    t.consumer = s.consumer := by
  cases producerMove_of_step hst <;> rfl

omit [DecidableEq ι] in
/-- A counter that has not wrapped reads as the length of its history. -/
theorem Inv.toNat_counters (h : Inv c s) :
    s.mHead.toNat = s.popped.length ∧ s.mTail.toNat = s.claims.length := by
  have hle := h.popped_prefix.length_le
  have hshort := h.short
  rw [h.head_eq, h.tail_eq, UInt64.toNat_ofNat', UInt64.toNat_ofNat',
    Nat.mod_eq_of_lt (by omega), Nat.mod_eq_of_lt (by omega)]
  exact ⟨rfl, rfl⟩

/-- **Safety of the queue.** In every state reached with fewer than `2 ^ 64` claims, by any number
of producers: the counters are the numbers of values popped and claimed; a slot about to be
constructed holds no element, and its claim is on record; a slot about to be moved out or destroyed
is that of the head and holds the element of the claimant of that index; the values popped are a
prefix of the values claimed; and every step moves the values in between as a bounded FIFO queue
does. A `try_pop` whose ready load finds no claim in flight, whatever the producers do before it
goes on, returns false exactly if everything claimed had been popped. -/
theorem run_safety (c : Capacity) (s : State ι T) (hs : Reachable (step c) init s)
    (hshort : s.claims.length < 2 ^ 64) :
    (s.mHead.toNat = s.popped.length ∧ s.mTail.toNat = s.claims.length) ∧
    (∀ p x tail, s.producers p = .construct x tail →
      s.data (c.slot tail) = none ∧ s.claims[tail.toNat]? = some x) ∧
    (∀ head, (s.consumer = .test head true ∨ ∃ out, s.consumer = .destroy out head) →
      head = s.mHead ∧ ∃ x, s.claims[s.mHead.toNat]? = some x ∧
        s.data (c.slot head) = some (s.mHead, x)) ∧
    s.popped <+: s.claims ∧
    (∀ e t, step c s e = some t →
      Move c.size (contents s.claims s.popped) (contents t.claims t.popped)) ∧
    (∀ t mid u e v, (∀ p, (s.producers p).owns = none) →
      step c s (.consumer .loadReady) = some t →
      (∀ a ∈ mid, ∃ p e, a = .producer p e) → exec (step c) t mid = some u →
      step c u (.consumer e) = some v → (e = .returnFalse ↔ s.popped = s.claims)) := by
  have h := inv_of_reachable hs hshort
  obtain ⟨hhead, htail⟩ := h.toNat_counters
  refine ⟨⟨hhead, htail⟩, ?_, ?_, h.popped_prefix, fun e t hst ↦ h.move hst, ?_⟩
  · intro p x tail hp
    have hok := h.producer_ok p
    rw [hp] at hok
    obtain ⟨i, hown, hcell⟩ := hok
    obtain ⟨-, hlt, -⟩ := h.owns_range hown
    obtain ⟨-, rfl, hx⟩ := hown
    refine ⟨congrArg Prod.fst hcell, ?_⟩
    rw [UInt64.toNat_ofNat', Nat.mod_eq_of_lt (hlt.trans hshort)]
    exact hx
  · intro head hq
    rw [hhead]
    exact h.taking hq
  · intro t mid u e v hidle hload hmid hexec hnext
    simp only [step, consumerStep] at hload
    split at hload <;> try contradiction
    rename_i head hq
    have hok := h.consumer_ok
    rw [hq] at hok
    obtain rfl : head = s.mHead := hok
    obtain rfl := Option.some.inj hload
    -- the flag was read by the load; the producers that ran since did not change what it saw
    have hu : u.consumer = .test s.mHead (s.ready (c.slot s.mHead)) := by
      refine exec_invariant_of_mem (P := fun u : State ι T ↦
        u.consumer = .test s.mHead (s.ready (c.slot s.mHead))) ?_ rfl hexec
      intro s₁ a ha s₂ hs₁ hst
      obtain ⟨p, e, rfl⟩ := hmid a ha
      exact (consumer_of_producerStep hst).trans hs₁
    rw [← h.ready_eq_false_iff (by rw [hq]; rfl) hidle]
    cases hready : s.ready (c.slot s.mHead) <;> rw [hready] at hu <;>
      cases e <;> simp [step, consumerStep, hu] at hnext ⊢

/-- With a single slot, the second claimant constructs onto the slot the consumer just released. -/
theorem run_safety_one_slot : ∃ s : State Bool ℕ, Reachable (step ⟨0, by decide⟩) init s ∧
    s.popped = [7] ∧ s.producers false = .construct 8 1 ∧ s.data 0 = none := by
  have hrun : ((exec (step ⟨0, by decide⟩) (init : State Bool ℕ)
      [.producer true (.tryPush 7), .producer true .loadTail, .producer true .loadHead,
        .producer true (.compareExchange false), .producer true .constructAt,
        .producer true .storeReady, .consumer .tryPop, .consumer .loadHead, .consumer .loadReady,
        .consumer .moveOut, .consumer .destroyAt, .consumer .clearReady, .consumer .storeHead,
        .producer false (.tryPush 8), .producer false .loadTail, .producer false .loadHead,
        .producer false (.compareExchange false)]).map fun s ↦
      (s.claims, s.popped, s.producers false)) = some ([7, 8], [7], .construct 8 1) := by
    decide +kernel
  obtain ⟨s, hs, hfields⟩ := Option.map_eq_some_iff.mp hrun
  obtain ⟨hclaims, hpopped, hp⟩ : s.claims = [7, 8] ∧ s.popped = [7] ∧
      s.producers false = .construct 8 1 := by simpa using hfields
  have hsafe := run_safety ⟨0, by decide⟩ s ⟨_, hs⟩ (by rw [hclaims]; decide)
  exact ⟨s, ⟨_, hs⟩, hpopped, hp, (hsafe.2.1 false 8 1 hp).1⟩

end MPSCQueue

end FastInAHurry
