import FastInAHurry.Queue.SPSCRefinement

/-!
# What the observers promise the two owning threads

`empty`, `full` and `size` load the two counters one after the other while the other thread moves
one of them. The thread that asks owns the other counter, so one of its two loads is exact and the
second is stale in a known direction: the producer may miss deliveries and never overestimates the
room, the consumer may miss elements and never overestimates the contents. Both errors are on the
safe side, and what was true at the load stays true until the asking thread itself acts.

For `size` this is an invariant of the states. For `full` and `empty` it is a statement about a run:
the query, whatever happens up to the next call, and that call. Each of the three parts has a
condition of its own that every step in it keeps.
-/

namespace FastInAHurry

open RingIndex Runs

namespace SPSCQueue

variable {T : Type*} {c : Capacity} {s t : State T}

/-! ## What one thread sees of the other -/

/-- A step of the consumer leaves the producer's side as it is and delivers. -/
theorem frame_of_consumerStep {e : ConsumerEvent} (hst : consumerStep c s e = some t) :
    t.producer = s.producer ∧ t.mHead = s.mHead ∧ t.accepted = s.accepted ∧
      s.delivered.length ≤ t.delivered.length := by
  cases consumerMove_of_step hst with
  | point | destroyAt => exact ⟨rfl, rfl, rfl, le_rfl⟩
  | storeTail => exact ⟨rfl, rfl, rfl, (List.prefix_append _ _).length_le⟩

/-- A step of the producer leaves the consumer's side as it is and accepts. -/
theorem frame_of_producerStep {e : ProducerEvent T} (hst : producerStep c s e = some t) :
    t.consumer = s.consumer ∧ t.mTail = s.mTail ∧ t.delivered = s.delivered ∧
      s.accepted.length ≤ t.accepted.length := by
  cases producerMove_of_step hst with
  | point | constructAt => exact ⟨rfl, rfl, rfl, le_rfl⟩
  | storeHead => exact ⟨rfl, rfl, rfl, (List.prefix_append _ _).length_le⟩

/-! ## Sizes -/

/-- What the locals of the producer's `size` mean. -/
def ProducerSees (c : Capacity) (s : State T) : Producer T → Prop
  | .observing (.sizeLoadTail head) => head = s.mHead
  | .observing (.count n) => held s ≤ n.toNat ∧ n.toNat ≤ c.size
  | _ => True

/-- What the locals of the consumer's `size` mean. -/
def ConsumerSees (s : State T) : Consumer T → Prop
  | .observing (.sizeLoadTail head) =>
    ∃ n, head = UInt64.ofNat n ∧ s.delivered.length ≤ n ∧ n ≤ s.accepted.length
  | .observing (.count n) => n.toNat ≤ held s
  | _ => True

theorem ProducerSees.mono {p : Producer T} (h : ProducerSees c s p) (hhead : t.mHead = s.mHead)
    (hacc : t.accepted = s.accepted) (hdel : s.delivered.length ≤ t.delivered.length) :
    ProducerSees c t p := by
  unfold ProducerSees at h ⊢
  split
  · exact h.trans hhead.symm
  · refine ⟨le_trans ?_ h.1, h.2⟩
    rw [held, held, hacc]
    exact Nat.sub_le_sub_left hdel _
  · trivial

theorem ConsumerSees.mono {q : Consumer T} (h : ConsumerSees s q)
    (hdel : t.delivered = s.delivered) (hacc : s.accepted.length ≤ t.accepted.length) :
    ConsumerSees t q := by
  unfold ConsumerSees at h ⊢
  split
  · obtain ⟨n, hn, hlo, hhi⟩ := h
    exact ⟨n, hn, hdel ▸ hlo, hhi.trans hacc⟩
  · refine le_trans h ?_
    rw [held, held, hdel]
    exact Nat.sub_le_sub_right hacc _
  · trivial

theorem Inv.held_le (h : Inv c s) : held s ≤ c.size := by
  have hbound := h.bound
  rw [held]
  omega

/-- The producer's own step: it asks, or it loads the counters in turn. -/
theorem ProducerSees.step (hinv : Inv c s) (h : ProducerSees c s s.producer)
    {e : ProducerEvent T} (hst : producerStep c s e = some t) : ProducerSees c t t.producer := by
  cases producerMove_of_step hst with
  | constructAt | storeHead => trivial
  | point hn =>
    generalize s.producer = p at hn h
    cases hn with
    | query q => cases q <;> trivial
    | observe hload =>
      rename_i o o'
      cases o <;> cases hload <;> try trivial
      · -- the tail is loaded now, and the head is the producer's own
        have hbound : s.accepted.length ≤ s.delivered.length + c.size := by
          have := hinv.bound
          omega
        have hcount := c.toNat_ofNat_sub_ofNat hinv.length_le hbound
        rw [← hinv.head_eq, ← hinv.tail_eq, ← show _ = s.mHead from h] at hcount
        exact ⟨hcount.ge, hcount.trans_le hinv.held_le⟩
    | emplace | loadHead | loadTail | giveUp | answer => trivial

theorem ConsumerSees.step (hinv : Inv c s) (h : ConsumerSees s s.consumer)
    {e : ConsumerEvent} (hst : consumerStep c s e = some t) : ConsumerSees t t.consumer := by
  cases consumerMove_of_step hst with
  | destroyAt | storeTail => trivial
  | point hn =>
    generalize s.consumer = q at hn h
    cases hn with
    | query q => cases q <;> trivial
    | observe hload =>
      rename_i o o'
      cases o <;> cases hload <;> try trivial
      · exact ⟨s.accepted.length, hinv.head_eq, hinv.length_le, le_rfl⟩
      · -- the head was loaded earlier, and elements may have been added since
        obtain ⟨n, rfl, hlo, hhi⟩ := h
        have hbound := hinv.bound
        have hcount := c.toNat_ofNat_sub_ofNat hlo (by omega)
        rw [← hinv.tail_eq] at hcount
        exact hcount.trans_le (Nat.sub_le_sub_right hhi _)
    | pop | loadTail | loadHead | returnFalse | moveOut | answer => trivial

theorem sees_of_reachable (h : Reachable (step c) init s) :
    Inv c s ∧ ProducerSees c s s.producer ∧ ConsumerSees s s.consumer := by
  refine h.invariant (P := fun s ↦ Inv c s ∧ ProducerSees c s s.producer ∧
    ConsumerSees s s.consumer) ?_ ⟨Inv.init, trivial, trivial⟩
  rintro s (e | e) t ⟨hinv, hp, hq⟩ hst
  · obtain ⟨hcons, -, hdel, hacc⟩ := frame_of_producerStep hst
    refine ⟨hinv.step hst, hp.step hinv hst, ?_⟩
    rw [hcons]
    exact hq.mono hdel hacc
  · obtain ⟨hprod, hhead, hacc, hdel⟩ := frame_of_consumerStep hst
    refine ⟨hinv.step hst, ?_, hq.step hinv hst⟩
    rw [hprod]
    exact hp.mono hhead hacc hdel

/-! ## The producer after `full` -/

/-- There is room for one more element. -/
def Room (c : Capacity) (s : State T) : Prop := s.accepted.length < s.delivered.length + c.size

/-- The producer is inside `full`. -/
def AsksFull (c : Capacity) (s : State T) : Prop :=
  s.producer = .observing .fullLoadHead ∨ s.producer = .observing (.fullLoadTail s.mHead) ∨
    ∃ b, s.producer = .observing (.answer b) ∧ (b = false → Room c s)

/-- The producer has its answer and has not called `emplace` yet. -/
def KnowsRoom (c : Capacity) (s : State T) : Prop :=
  (s.producer = .idle ∨ ∃ o, s.producer = .observing o) ∧ Room c s

/-- The producer is inside the `emplace`, or it has left it. -/
structure WillEmplace (c : Capacity) (s : State T) : Prop where
  called : ∀ x, s.producer = .emplaceLoadHead x → Room c s
  loaded : ∀ x head, s.producer = .emplaceLoadTail x head → Room c s
  test : ∀ x head tail, s.producer = .emplaceTest x head tail → head - tail ≠ c.word

theorem Room.mono (h : Room c s) (hacc : t.accepted = s.accepted)
    (hdel : s.delivered.length ≤ t.delivered.length) : Room c t := by
  rw [Room, hacc]
  exact lt_of_lt_of_le h (Nat.add_le_add_right hdel _)

/-- The full test on the counters themselves. -/
theorem Inv.room_iff (h : Inv c s) : s.mHead - s.mTail ≠ c.word ↔ Room c s := by
  have hbound := h.bound
  have hle := h.length_le
  rw [Ne, h.head_eq, h.tail_eq, c.ofNat_sub_eq_word_iff hle (by omega), Room]
  omega

/-- A query goes on by its loads until it is answered. -/
theorem observe_of_producerStep {e : ProducerEvent T} (hst : producerStep c s e = some t)
    {o : Observer} (ho : s.producer = .observing o) (he : e ≠ .answer) :
    ∃ o', o.load c s.mHead s.mTail = some o' ∧ t = { s with producer := .observing o' } := by
  cases e <;> simp only [producerStep, ho] at hst <;> try contradiction
  obtain ⟨o', ho', rfl⟩ := Option.map_eq_some_iff.mp hst
  exact ⟨o', ho', rfl⟩

/-- Only a call of `emplace` brings the producer to its first load. -/
theorem eq_emplace_of_producerStep {e : ProducerEvent T} (hst : producerStep c s e = some t)
    {x : T} (ht : t.producer = .emplaceLoadHead x) : e = .emplace x := by
  have hidle : s.producer = .idle := by
    cases producerMove_of_step hst with
    | constructAt | storeHead => cases ht
    | point hn =>
      subst ht
      generalize s.producer = p at hn
      cases hn with
      | emplace => rfl
  cases e <;> simp only [producerStep, hidle] at hst <;> try contradiction
  all_goals obtain rfl := Option.some.inj hst
  · obtain rfl := Producer.emplaceLoadHead.inj ht
    rfl
  · cases ht

theorem AsksFull.step (h : AsksFull c s) (hinv : Inv c s) {e : Event T}
    (he : e ≠ .producer .answer) (hst : SPSCQueue.step c s e = some t) : AsksFull c t := by
  cases e with
  | consumer e =>
    obtain ⟨hprod, hhead, hacc, hdel⟩ := frame_of_consumerStep hst
    rw [AsksFull, hprod, hhead]
    refine h.imp_right (Or.imp_right ?_)
    rintro ⟨b, hb, hroom⟩
    exact ⟨b, hb, fun hfalse ↦ (hroom hfalse).mono hacc hdel⟩
  | producer e =>
    have he' : e ≠ .answer := fun heq ↦ he (congrArg Event.producer heq)
    rcases h with ho | ho | ⟨b, ho, -⟩
    · obtain ⟨o', hload, rfl⟩ := observe_of_producerStep hst ho he'
      cases hload
      exact Or.inr (Or.inl rfl)
    · obtain ⟨o', hload, rfl⟩ := observe_of_producerStep hst ho he'
      cases hload
      exact Or.inr (Or.inr ⟨_, rfl, fun hfalse ↦ hinv.room_iff.mp (of_decide_eq_false hfalse)⟩)
    · obtain ⟨o', hload, -⟩ := observe_of_producerStep hst ho he'
      cases hload

theorem KnowsRoom.step (h : KnowsRoom c s) {e : Event T} (he : ∀ x, e ≠ .producer (.emplace x))
    (hst : SPSCQueue.step c s e = some t) : KnowsRoom c t := by
  cases e with
  | consumer e =>
    obtain ⟨hprod, -, hacc, hdel⟩ := frame_of_consumerStep hst
    rw [KnowsRoom, hprod]
    exact ⟨h.1, h.2.mono hacc hdel⟩
  | producer e =>
    have hcall := fun x ↦ mt (eq_emplace_of_producerStep (x := x) hst)
      fun heq ↦ he x (congrArg Event.producer heq)
    cases producerMove_of_step hst with
    | constructAt hp | storeHead hp => simp [KnowsRoom, hp] at h
    | point hn =>
      obtain ⟨hp, hroom⟩ := h
      refine ⟨?_, hroom⟩
      generalize s.producer = p at hn hp
      cases hn with
      | emplace x => exact absurd rfl (hcall x)
      | query | observe => exact Or.inr ⟨_, rfl⟩
      | answer => exact Or.inl rfl
      | loadHead | loadTail | giveUp => simp at hp

theorem WillEmplace.step (h : WillEmplace c s) (hinv : Inv c s) {e : Event T}
    (he : ∀ x, e ≠ .producer (.emplace x)) (hst : SPSCQueue.step c s e = some t) :
    WillEmplace c t := by
  cases e with
  | consumer e =>
    obtain ⟨hprod, -, hacc, hdel⟩ := frame_of_consumerStep hst
    refine ⟨fun x hx ↦ ?_, fun x head hx ↦ ?_, fun x head tail hx ↦ ?_⟩
    · exact (h.called x (hprod ▸ hx)).mono hacc hdel
    · exact (h.loaded x head (hprod ▸ hx)).mono hacc hdel
    · exact h.test x head tail (hprod ▸ hx)
  | producer e =>
    have hcall := fun x ↦ mt (eq_emplace_of_producerStep (x := x) hst)
      fun heq ↦ he x (congrArg Event.producer heq)
    refine ⟨fun x hx ↦ absurd hx (hcall x), fun x head hx ↦ ?_, fun x head tail hx ↦ ?_⟩
    · cases producerMove_of_step hst with
      | constructAt | storeHead => cases hx
      | point hn =>
        subst hx
        generalize hp : s.producer = p at hn
        cases hn with
        | loadHead => exact h.called x hp
    · rcases emplaceTest_of_step (e := .producer e) hst hx with hsame | ⟨hload, rfl⟩
      · exact h.test x head tail hsame
      · have hok := hinv.producer_ok
        rw [hload] at hok
        rw [show head = s.mHead from hok]
        exact hinv.room_iff.mpr (h.loaded x head hload)

/-- **The producer after `full`.** What the answer false promises is kept up to the next `emplace`
and through it. -/
theorem willEmplace_of_full {s₀ s₁ s₂ s₃ s₄ s₅ : State T} (hr : Reachable (step c) init s₀)
    (hask : step c s₀ (.producer (.query .full)) = some s₁) {asked : List (Event T)}
    (hasked : exec (step c) s₁ asked = some s₂) (hno : .producer .answer ∉ asked)
    (hfalse : s₂.producer = .observing (.answer false)) {rest : List (Event T)}
    (hrest : exec (step c) s₂ rest = some s₃) (hnorest : ∀ y, .producer (.emplace y) ∉ rest)
    {x : T} (hcall : step c s₃ (.producer (.emplace x)) = some s₄) {call : List (Event T)}
    (hcalled : exec (step c) s₄ call = some s₅) (hnocall : ∀ y, .producer (.emplace y) ∉ call) :
    Inv c s₅ ∧ WillEmplace c s₅ := by
  refine exec_promise (P := AsksFull c) (Q := KnowsRoom c) (fun _ _ _ hinv hst ↦ hinv.step hst)
    (fun s e he t hinv hs hst ↦ hs.step hinv (fun h ↦ hno (h ▸ he)) hst) (fun hasks ↦ ?_)
    (fun s e he t _ hs hst ↦ hs.step (fun y h ↦ hnorest y (h ▸ he)) hst) (fun hknows ↦ ?_)
    (fun s e he t hinv hs hst ↦ hs.step hinv (fun y h ↦ hnocall y (h ▸ he)) hst)
    ⟨inv_of_reachable (hr.tail hask), ?_⟩ hasked hrest hcall hcalled
  · -- the answer, after which the consumer can only make more room
    refine ⟨Or.inr ⟨_, hfalse⟩, ?_⟩
    rcases hasks with ho | ho | ⟨b, ho, hroom⟩
    · cases hfalse.symm.trans ho
    · cases hfalse.symm.trans ho
    · cases hfalse.symm.trans ho
      exact hroom rfl
  · simp only [step, producerStep] at hcall
    split at hcall <;> try contradiction
    obtain rfl := Option.some.inj hcall
    exact ⟨fun _ _ ↦ hknows.2, fun _ _ h ↦ (by cases h), fun _ _ _ h ↦ (by cases h)⟩
  · simp only [step, producerStep] at hask
    split at hask <;> try contradiction
    obtain rfl := Option.some.inj hask
    exact Or.inl rfl

/-! ## The consumer after `empty` -/

/-- There is an element to deliver. -/
def Ready (s : State T) : Prop := s.delivered.length < s.accepted.length

/-- The consumer is inside `empty`. -/
def AsksEmpty (s : State T) : Prop :=
  s.consumer = .observing .emptyLoadTail ∨ s.consumer = .observing (.emptyLoadHead s.mTail) ∨
    ∃ b, s.consumer = .observing (.answer b) ∧ (b = false → Ready s)

/-- The consumer has its answer and has not called `pop` yet. -/
def KnowsReady (s : State T) : Prop :=
  (s.consumer = .idle ∨ ∃ o, s.consumer = .observing o) ∧ Ready s

/-- The consumer is inside the `pop`, or it has left it. -/
structure WillPop (s : State T) : Prop where
  called : s.consumer = .popLoadTail → Ready s
  loaded : ∀ tail, s.consumer = .popLoadHead tail → Ready s
  test : ∀ tail head, s.consumer = .popTest tail head → head ≠ tail

theorem Ready.mono (h : Ready s) (hdel : t.delivered = s.delivered)
    (hacc : s.accepted.length ≤ t.accepted.length) : Ready t := by
  rw [Ready, hdel]
  exact lt_of_lt_of_le h hacc

/-- The empty test on the counters themselves. -/
theorem Inv.ready_iff (h : Inv c s) : s.mHead ≠ s.mTail ↔ Ready s := by
  have hbound := h.bound
  have hle := h.length_le
  rw [Ne, h.head_eq, h.tail_eq, c.ofNat_eq_ofNat_iff hle (by omega), Ready]
  omega

theorem observe_of_consumerStep {e : ConsumerEvent} (hst : consumerStep c s e = some t)
    {o : Observer} (ho : s.consumer = .observing o) (he : e ≠ .answer) :
    ∃ o', o.load c s.mHead s.mTail = some o' ∧ t = { s with consumer := .observing o' } := by
  cases e <;> simp only [consumerStep, ho] at hst <;> try contradiction
  obtain ⟨o', ho', rfl⟩ := Option.map_eq_some_iff.mp hst
  exact ⟨o', ho', rfl⟩

/-- Only a call of `pop` brings the consumer to its first load. -/
theorem eq_pop_of_consumerStep {e : ConsumerEvent} (hst : consumerStep c s e = some t)
    (ht : t.consumer = .popLoadTail) : e = .pop := by
  have hidle : s.consumer = .idle := by
    cases consumerMove_of_step hst with
    | destroyAt | storeTail => cases ht
    | point hn =>
      subst ht
      generalize s.consumer = q at hn
      cases hn with
      | pop => rfl
  cases e <;> simp only [consumerStep, hidle] at hst <;> try contradiction
  · rfl
  · obtain rfl := Option.some.inj hst
    cases ht

theorem AsksEmpty.step (h : AsksEmpty s) (hinv : Inv c s) {e : Event T}
    (he : e ≠ .consumer .answer) (hst : SPSCQueue.step c s e = some t) : AsksEmpty t := by
  cases e with
  | producer e =>
    obtain ⟨hcons, htail, hdel, hacc⟩ := frame_of_producerStep hst
    rw [AsksEmpty, hcons, htail]
    refine h.imp_right (Or.imp_right ?_)
    rintro ⟨b, hb, hready⟩
    exact ⟨b, hb, fun hfalse ↦ (hready hfalse).mono hdel hacc⟩
  | consumer e =>
    have he' : e ≠ .answer := fun heq ↦ he (congrArg Event.consumer heq)
    rcases h with ho | ho | ⟨b, ho, -⟩
    · obtain ⟨o', hload, rfl⟩ := observe_of_consumerStep hst ho he'
      cases hload
      exact Or.inr (Or.inl rfl)
    · obtain ⟨o', hload, rfl⟩ := observe_of_consumerStep hst ho he'
      cases hload
      exact Or.inr (Or.inr ⟨_, rfl, fun hfalse ↦ hinv.ready_iff.mp (of_decide_eq_false hfalse)⟩)
    · obtain ⟨o', hload, -⟩ := observe_of_consumerStep hst ho he'
      cases hload

theorem KnowsReady.step (h : KnowsReady s) {e : Event T} (he : e ≠ .consumer .pop)
    (hst : SPSCQueue.step c s e = some t) : KnowsReady t := by
  cases e with
  | producer e =>
    obtain ⟨hcons, -, hdel, hacc⟩ := frame_of_producerStep hst
    rw [KnowsReady, hcons]
    exact ⟨h.1, h.2.mono hdel hacc⟩
  | consumer e =>
    have hcall := mt (eq_pop_of_consumerStep hst) fun heq ↦ he (congrArg Event.consumer heq)
    cases consumerMove_of_step hst with
    | destroyAt hq | storeTail hq => simp [KnowsReady, hq] at h
    | point hn =>
      obtain ⟨hq, hready⟩ := h
      refine ⟨?_, hready⟩
      generalize s.consumer = q at hn hq
      cases hn with
      | pop => exact absurd rfl hcall
      | query | observe => exact Or.inr ⟨_, rfl⟩
      | answer => exact Or.inl rfl
      | loadTail | loadHead | returnFalse | moveOut => simp at hq

theorem WillPop.step (h : WillPop s) (hinv : Inv c s) {e : Event T} (he : e ≠ .consumer .pop)
    (hst : SPSCQueue.step c s e = some t) : WillPop t := by
  cases e with
  | producer e =>
    obtain ⟨hcons, -, hdel, hacc⟩ := frame_of_producerStep hst
    refine ⟨fun hq ↦ ?_, fun tail hq ↦ ?_, fun tail head hq ↦ ?_⟩
    · exact (h.called (hcons ▸ hq)).mono hdel hacc
    · exact (h.loaded tail (hcons ▸ hq)).mono hdel hacc
    · exact h.test tail head (hcons ▸ hq)
  | consumer e =>
    have hcall := mt (eq_pop_of_consumerStep hst) fun heq ↦ he (congrArg Event.consumer heq)
    refine ⟨fun hq ↦ absurd hq hcall, fun tail hq ↦ ?_, fun tail head hq ↦ ?_⟩
    · cases consumerMove_of_step hst with
      | destroyAt | storeTail => cases hq
      | point hn =>
        subst hq
        generalize hpt : s.consumer = q at hn
        cases hn with
        | loadTail => exact h.called hpt
    · rcases popTest_of_step (e := .consumer e) hst hq with hsame | ⟨hload, rfl⟩
      · exact h.test tail head hsame
      · have hok := hinv.consumer_ok
        rw [hload] at hok
        rw [show tail = s.mTail from hok]
        exact hinv.ready_iff.mpr (h.loaded tail hload)

/-- **The consumer after `empty`.** What the answer false promises is kept up to the next `pop` and
through it. -/
theorem willPop_of_empty {s₀ s₁ s₂ s₃ s₄ s₅ : State T} (hr : Reachable (step c) init s₀)
    (hask : step c s₀ (.consumer (.query .empty)) = some s₁) {asked : List (Event T)}
    (hasked : exec (step c) s₁ asked = some s₂) (hno : .consumer .answer ∉ asked)
    (hfalse : s₂.consumer = .observing (.answer false)) {rest : List (Event T)}
    (hrest : exec (step c) s₂ rest = some s₃) (hnorest : .consumer .pop ∉ rest)
    (hcall : step c s₃ (.consumer .pop) = some s₄) {call : List (Event T)}
    (hcalled : exec (step c) s₄ call = some s₅) (hnocall : .consumer .pop ∉ call) :
    Inv c s₅ ∧ WillPop s₅ := by
  refine exec_promise (P := AsksEmpty) (Q := KnowsReady) (fun _ _ _ hinv hst ↦ hinv.step hst)
    (fun s e he t hinv hs hst ↦ hs.step hinv (fun h ↦ hno (h ▸ he)) hst) (fun hasks ↦ ?_)
    (fun s e he t _ hs hst ↦ hs.step (fun h ↦ hnorest (h ▸ he)) hst) (fun hknows ↦ ?_)
    (fun s e he t hinv hs hst ↦ hs.step hinv (fun h ↦ hnocall (h ▸ he)) hst)
    ⟨inv_of_reachable (hr.tail hask), ?_⟩ hasked hrest hcall hcalled
  · -- the answer, after which the producer can only make more elements ready
    refine ⟨Or.inr ⟨_, hfalse⟩, ?_⟩
    rcases hasks with ho | ho | ⟨b, ho, hready⟩
    · cases hfalse.symm.trans ho
    · cases hfalse.symm.trans ho
    · cases hfalse.symm.trans ho
      exact hready rfl
  · simp only [step, consumerStep] at hcall
    split at hcall <;> try contradiction
    obtain rfl := Option.some.inj hcall
    exact ⟨fun _ ↦ hknows.2, fun _ h ↦ (by cases h), fun _ _ h ↦ (by cases h)⟩
  · simp only [step, consumerStep] at hask
    split at hask <;> try contradiction
    obtain rfl := Option.some.inj hask
    exact Or.inl rfl

/-! ## All observers -/

/-- **The observers are stable for the two owning threads.** In every reachable state a `size` about
to return is at most the capacity; to the producer it is at least the number of elements in the
queue, to the consumer at most that number. If `full` answered false to the producer, its next
`emplace` does not return false and passes its test; if `empty` answered false to the consumer, its
next `pop` does not return false and finds an element; whatever the other thread does in between. -/
theorem observers_stable (c : Capacity) :
    (∀ s : State T, Reachable (step c) init s → ∀ n,
      (s.producer = .observing (.count n) → held s ≤ n.toNat ∧ n.toNat ≤ c.size) ∧
      (s.consumer = .observing (.count n) → n.toNat ≤ held s ∧ n.toNat ≤ c.size)) ∧
    (∀ (s₀ s₁ s₂ s₃ s₄ s₅ : State T) (x : T) (asked rest call : List (Event T)),
      Reachable (step c) init s₀ → step c s₀ (.producer (.query .full)) = some s₁ →
      exec (step c) s₁ asked = some s₂ → .producer .answer ∉ asked →
      s₂.producer = .observing (.answer false) →
      exec (step c) s₂ rest = some s₃ → (∀ y, .producer (.emplace y) ∉ rest) →
      step c s₃ (.producer (.emplace x)) = some s₄ →
      exec (step c) s₄ call = some s₅ → (∀ y, .producer (.emplace y) ∉ call) →
      step c s₅ (.producer .returnFalse) = none ∧
        ∀ y head tail, s₅.producer = .emplaceTest y head tail →
          (step c s₅ (.producer .constructAt)).isSome) ∧
    ∀ (s₀ s₁ s₂ s₃ s₄ s₅ : State T) (asked rest call : List (Event T)),
      Reachable (step c) init s₀ → step c s₀ (.consumer (.query .empty)) = some s₁ →
      exec (step c) s₁ asked = some s₂ → .consumer .answer ∉ asked →
      s₂.consumer = .observing (.answer false) →
      exec (step c) s₂ rest = some s₃ → .consumer .pop ∉ rest →
      step c s₃ (.consumer .pop) = some s₄ →
      exec (step c) s₄ call = some s₅ → .consumer .pop ∉ call →
      step c s₅ (.consumer .returnFalse) = none ∧
        ∀ tail head, s₅.consumer = .popTest tail head →
          (step c s₅ (.consumer .moveOut)).isSome := by
  refine ⟨fun s hs n ↦ ?_, ?_, ?_⟩
  · obtain ⟨hinv, hp, hq⟩ := sees_of_reachable hs
    refine ⟨fun hcount ↦ ?_, fun hcount ↦ ?_⟩
    · rw [hcount] at hp
      exact hp
    · rw [hcount] at hq
      exact ⟨hq, le_trans hq hinv.held_le⟩
  · intro s₀ s₁ s₂ s₃ s₄ s₅ x asked rest call hr hask hasked hno hfalse hrest hnorest hcall hcalled
      hnocall
    obtain ⟨-, hwill⟩ := willEmplace_of_full hr hask hasked hno hfalse hrest hnorest hcall hcalled
      hnocall
    refine ⟨?_, fun y head tail htest ↦ ?_⟩
    · simp only [step, producerStep]
      split
      · next y head tail htest => exact if_neg (hwill.test y head tail htest)
      · rfl
    · simp only [step, producerStep, htest, if_neg (hwill.test y head tail htest)]
      rfl
  · intro s₀ s₁ s₂ s₃ s₄ s₅ asked rest call hr hask hasked hno hfalse hrest hnorest hcall hcalled
      hnocall
    obtain ⟨hinv, hwill⟩ := willPop_of_empty hr hask hasked hno hfalse hrest hnorest hcall hcalled
      hnocall
    refine ⟨?_, fun tail head htest ↦ ?_⟩
    · simp only [step, consumerStep]
      split
      · next tail head htest => exact if_neg (hwill.test tail head htest)
      · rfl
    · obtain ⟨-, hlt, hslot⟩ := hinv.front htest (hwill.test tail head htest)
      simp only [step, consumerStep, htest, if_neg (hwill.test tail head htest), hslot,
        List.getElem?_eq_getElem hlt]
      rfl

end SPSCQueue

end FastInAHurry
