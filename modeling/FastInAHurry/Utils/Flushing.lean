import FastInAHurry.Queue.SPSCRefinement
import FastInAHurry.Utils.SPSCLogger

/-!
# What the logger has flushed when it is gone

The final `drain` goes over the queues of the last snapshot, and pops each until a `pop` that began
after the stop request finds it empty. So everything accepted before the request is flushed, as far
as its queue is in that snapshot. If the consumer was between its stop test and its snapshot when
the stop was requested, one more snapshot follows, with all queues that have accepted anything;
otherwise the last snapshot is the one there is, and the queues registered since are never looked
at.
-/

namespace FastInAHurry

open RingIndex Runs

namespace SPSCLogger

variable {ι R : Type*} [DecidableEq ι] {s t : State ι R} {i j : ι} {final : Bool} {rest : List ι}

/-! ## One queue -/

section Queue

variable {c : Capacity} {q q' : SPSCQueue.State R}

theorem consumer_of_producerStep {e : SPSCQueue.ProducerEvent R}
    (hst : SPSCQueue.producerStep c q e = some q') :
    q'.consumer = q.consumer ∧ q'.delivered = q.delivered ∧ q.accepted <+: q'.accepted := by
  cases SPSCQueue.producerMove_of_step hst with
  | point | constructAt => exact ⟨rfl, rfl, List.prefix_rfl⟩
  | storeHead => exact ⟨rfl, rfl, List.prefix_append ..⟩

theorem accepted_of_consumerStep {e : SPSCQueue.ConsumerEvent}
    (hst : SPSCQueue.consumerStep c q e = some q') : q'.accepted = q.accepted := by
  cases SPSCQueue.consumerMove_of_step hst with
  | point | destroyAt | storeTail => rfl

theorem eq_of_returnFalse (hst : SPSCQueue.consumerStep c q .returnFalse = some q') :
    (∃ tail, q.consumer = .popTest tail tail) ∧ q' = { q with consumer := .idle } := by
  simp only [SPSCQueue.consumerStep] at hst
  split at hst
  · rename_i tail head hq
    split at hst
    · rename_i heq
      exact ⟨⟨tail, heq ▸ hq⟩, (Option.some.inj hst).symm⟩
    · cases hst
  · cases hst

theorem eq_of_storeTail (hst : SPSCQueue.consumerStep c q .storeTail = some q') :
    ∃ out tail, q.consumer = .popStore out tail ∧ q'.consumer = .idle ∧
      q'.delivered = q.delivered ++ [out] := by
  simp only [SPSCQueue.consumerStep] at hst
  split at hst
  · rename_i out tail hq
    obtain rfl := Option.some.inj hst
    exact ⟨out, tail, hq, rfl, rfl⟩
  · cases hst

theorem delivered_of_consumerStep {e : SPSCQueue.ConsumerEvent} (he : e ≠ .storeTail)
    (hst : SPSCQueue.consumerStep c q e = some q') : q'.delivered = q.delivered := by
  cases SPSCQueue.consumerMove_of_step hst with
  | point | destroyAt => rfl
  | storeTail hp =>
    cases e with
    | storeTail => exact absurd rfl he
    | _ => simp [SPSCQueue.consumerStep, hp] at hst

/-- A `pop` that is about to return false has found the queue empty since it began. -/
theorem delivered_of_loadHead (hinv : SPSCQueue.Inv c q) {e : SPSCQueue.ConsumerEvent}
    (hst : SPSCQueue.consumerStep c q e = some q') {tail : UInt64}
    (hq' : q'.consumer = .popTest tail tail) :
    q.consumer = .popTest tail tail ∨ q.delivered = q.accepted := by
  have hstep : SPSCQueue.step c q (.consumer e) = some q' := hst
  rcases SPSCQueue.popTest_of_step hstep hq' with hsame | ⟨hload, hhead⟩
  · exact Or.inl hsame
  · exact Or.inr (hinv.delivered_eq_of_load hload hhead.symm)

end Queue

/-! ## What a step of the consumer can do -/

inductive ConsumerMove (s : State ι R) : State ι R → Prop
  | again (hp : s.consumer = .testStop) (hstop : s.stopRequested = false) :
      ConsumerMove s { s with consumer := .takeSnapshot }
  | last (hp : s.consumer = .testStop) (hstop : s.stopRequested = true) :
      ConsumerMove s { s with consumer := .nextQueue true s.qSnapshot }
  | snapshot (hp : s.consumer = .takeSnapshot) :
      ConsumerMove s { s with qSnapshot := s.mQueues, consumer := .nextQueue false s.mQueues }
  | next {final : Bool} {i : ι} {rest : List ι} (hp : s.consumer = .nextQueue final (i :: rest)) :
      ConsumerMove s { s with consumer := .pop final i rest }
  | endLoop (hp : s.consumer = .nextQueue false []) :
      ConsumerMove s { s with consumer := .testStop }
  | endFinal (hp : s.consumer = .nextQueue true []) :
      ConsumerMove s { s with consumer := .exited }
  | inPop {final : Bool} {i : ι} {rest : List ι} {e : SPSCQueue.ConsumerEvent}
      {q : SPSCQueue.State R} (hp : s.consumer = .pop final i rest)
      (hq : SPSCQueue.consumerStep queueSize (s.queues i) e = some q) (he : e ≠ .storeTail) :
      ConsumerMove s (s.setQueue i q)
  | popEmpty {final : Bool} {i : ι} {rest : List ι} {q : SPSCQueue.State R}
      (hp : s.consumer = .pop final i rest)
      (hq : SPSCQueue.consumerStep queueSize (s.queues i) .returnFalse = some q) :
      ConsumerMove s { s.setQueue i q with consumer := .flushRest final i rest }
  | popped {final : Bool} {i : ι} {rest : List ι} {q : SPSCQueue.State R} {out : R}
      (hp : s.consumer = .pop final i rest)
      (hq : SPSCQueue.consumerStep queueSize (s.queues i) .storeTail = some q)
      (hout : q.delivered = (s.queues i).delivered ++ [out]) (hidle : q.consumer = .idle) :
      ConsumerMove s ((s.setQueue i q).store final i rest out)
  | flushFull {final : Bool} {i : ι} {rest : List ι} (hp : s.consumer = .flushFull final i rest) :
      ConsumerMove s (s.flush (.pop final i rest))
  | flushRest {final : Bool} {i : ι} {rest : List ι} (hp : s.consumer = .flushRest final i rest) :
      ConsumerMove s (s.flush (.nextQueue final rest))

omit [DecidableEq ι] in
theorem afterPop_of_ne {e : SPSCQueue.ConsumerEvent} (hne : e ≠ .returnFalse)
    (hne' : e ≠ .storeTail) (p : SPSCQueue.Consumer R) : s.afterPop final i rest e p = s := by
  cases e with
  | returnFalse => exact absurd rfl hne
  | storeTail => exact absurd rfl hne'
  | _ => rfl

theorem consumerMove_of_queue {e : SPSCQueue.ConsumerEvent} {q : SPSCQueue.State R}
    (hp : s.consumer = .pop final i rest)
    (hq : SPSCQueue.consumerStep queueSize (s.queues i) e = some q) :
    ConsumerMove s ((s.setQueue i q).afterPop final i rest e (s.queues i).consumer) := by
  by_cases hret : e = .returnFalse
  · subst hret
    exact .popEmpty hp hq
  by_cases hstore : e = .storeTail
  · subst hstore
    obtain ⟨out, tail, hpop, hidle, hout⟩ := eq_of_storeTail hq
    rw [hpop]
    exact .popped hp hq hout hidle
  · rw [afterPop_of_ne hret hstore]
    exact .inPop hp hq hstore

theorem consumerMove_of_step {e : ConsumerEvent} (hst : consumerStep s e = some t) :
    ConsumerMove s t := by
  cases e <;> simp only [consumerStep] at hst
  case testStop =>
    split at hst <;> try contradiction
    rename_i hp
    split at hst
    · rename_i hstop
      obtain rfl := Option.some.inj hst
      exact .last hp hstop
    · rename_i hstop
      obtain rfl := Option.some.inj hst
      exact .again hp (Bool.eq_false_iff.mpr hstop)
  case takeSnapshot =>
    split at hst <;> try contradiction
    rename_i hp
    obtain rfl := Option.some.inj hst
    exact .snapshot hp
  case nextQueue =>
    split at hst <;> try contradiction
    all_goals
      rename_i hp
      obtain rfl := Option.some.inj hst
    · exact .next hp
    · exact .endLoop hp
    · exact .endFinal hp
  case queue e =>
    split at hst <;> try contradiction
    rename_i final i rest hp
    split at hst <;> try contradiction
    obtain ⟨q, hq, rfl⟩ := Option.map_eq_some_iff.mp hst
    exact consumerMove_of_queue hp hq
  case flush =>
    split at hst <;> try contradiction
    · rename_i hp
      obtain rfl := Option.some.inj hst
      exact .flushFull hp
    · rename_i final i rest hp
      split at hst
      · obtain rfl := Option.some.inj hst
        exact .flushRest hp
      · rename_i hempty
        obtain rfl := Option.some.inj hst
        have hnil : s.outList = [] := List.length_eq_zero_iff.mp (Nat.eq_zero_of_not_pos hempty)
        have hflush : { s with consumer := .nextQueue final rest } =
            s.flush (.nextQueue final rest) := by
          rw [State.flush, hnil, List.append_nil, ← hnil]
        rw [hflush]
        exact .flushRest hp

/-- Everything an event can do. -/
inductive Move (s : State ι R) : State ι R → Prop
  | registerThread {i : ι} (hi : i ∉ s.mQueues) : Move s { s with mQueues := s.mQueues ++ [i] }
  | push {i : ι} {e : SPSCQueue.ProducerEvent R} {q : SPSCQueue.State R} (hi : i ∈ s.mQueues)
      (hq : SPSCQueue.producerStep queueSize (s.queues i) e = some q) : Move s (s.setQueue i q)
  | consumer {t : State ι R} (hm : ConsumerMove s t) : Move s t
  | requestStop : Move s { s with stopRequested := true }
  | join (hp : s.consumer = .exited) : Move s { s with joined := true }

theorem move_of_step {e : Event ι R} (hst : step s e = some t) : Move s t := by
  cases e <;> simp only [step] at hst
  case registerThread i =>
    split at hst <;> try contradiction
    rename_i hi
    obtain rfl := Option.some.inj hst
    exact .registerThread hi
  case push i e =>
    split at hst <;> try contradiction
    rename_i hi
    obtain ⟨q, hq, rfl⟩ := Option.map_eq_some_iff.mp hst
    exact .push hi.1 hq
  case consumer e => exact .consumer (consumerMove_of_step hst)
  case destructor e =>
    cases e <;> simp only [destructorStep] at hst
    case requestStop =>
      split at hst <;> try contradiction
      obtain rfl := Option.some.inj hst
      exact .requestStop
    case join =>
      split at hst <;> try contradiction
      rename_i hp
      split at hst <;> try contradiction
      obtain rfl := Option.some.inj hst
      exact .join hp

/-! ## The invariant -/

/-- The queues that the consumer is on or has still to visit. -/
def Consumer.todo : Consumer ι → List ι
  | .nextQueue _ rest => rest
  | .pop _ i rest | .flushFull _ i rest | .flushRest _ i rest => i :: rest
  | _ => []

/-- The consumer is between two queues. -/
def Consumer.between : Consumer ι → Prop
  | .pop .. | .flushFull .. | .flushRest .. => False
  | _ => True

structure Inv (s : State ι R) : Prop where
  queue : ∀ i, SPSCQueue.Inv queueSize (s.queues i)
  popped : ∀ i, ofQueue i (s.flushed ++ s.outList) = (s.queues i).delivered
  /-- A queue accepts nothing before it is registered. -/
  registered : ∀ i, i ∉ s.mQueues → (s.queues i).accepted = []
  snapshot : ∀ i ∈ s.qSnapshot, i ∈ s.mQueues
  /-- Nothing is popped from a queue before it is in a snapshot. -/
  unseen : ∀ i, i ∉ s.qSnapshot → (s.queues i).delivered = []
  todo : ∀ i ∈ s.consumer.todo, i ∈ s.qSnapshot
  buffer : s.consumer.between → s.outList = []
  idle : ∀ i, (∀ final rest, s.consumer ≠ .pop final i rest) → (s.queues i).consumer = .idle
  joined : s.joined = true → s.consumer = .exited

theorem Inv.init : Inv (init : State ι R) where
  queue _ := SPSCQueue.Inv.init
  popped _ := rfl
  registered _ _ := rfl
  snapshot _ hi := absurd hi List.not_mem_nil
  unseen _ _ := rfl
  todo _ hi := absurd hi List.not_mem_nil
  buffer _ := rfl
  idle _ _ := rfl
  joined := nofun

/-- The consumer moves on, and nothing else happens. -/
theorem Inv.setConsumer (h : Inv s) {c : Consumer ι} (hne : s.consumer ≠ .exited)
    (htodo : ∀ i ∈ c.todo, i ∈ s.qSnapshot) (hbuffer : c.between → s.outList = [])
    (hidle : ∀ i, (∀ final rest, c ≠ .pop final i rest) → (s.queues i).consumer = .idle) :
    Inv { s with consumer := c } where
  queue := h.queue
  popped := h.popped
  registered := h.registered
  snapshot := h.snapshot
  unseen := h.unseen
  todo := htodo
  buffer := hbuffer
  idle := hidle
  joined hj := absurd (h.joined hj) hne

/-- An access to a queue that delivers nothing. -/
theorem Inv.setQueue (h : Inv s) {q : SPSCQueue.State R} (hq : SPSCQueue.Inv queueSize q)
    (hdelivered : q.delivered = (s.queues i).delivered)
    (hregistered : i ∉ s.mQueues → q.accepted = [])
    (hidle : (∀ final rest, s.consumer ≠ .pop final i rest) → q.consumer = .idle) :
    Inv (s.setQueue i q) where
  queue := (Function.forall_update_iff s.queues fun _ q ↦ SPSCQueue.Inv queueSize q).mpr
    ⟨hq, fun j _ ↦ h.queue j⟩
  popped := (Function.forall_update_iff s.queues fun j q ↦
    ofQueue j (s.flushed ++ s.outList) = q.delivered).mpr
      ⟨(h.popped i).trans hdelivered.symm, fun j _ ↦ h.popped j⟩
  registered := (Function.forall_update_iff s.queues fun j q ↦ j ∉ s.mQueues →
    q.accepted = []).mpr ⟨hregistered, fun j _ ↦ h.registered j⟩
  snapshot := h.snapshot
  unseen := (Function.forall_update_iff s.queues fun j q ↦ j ∉ s.qSnapshot →
    q.delivered = []).mpr ⟨fun hi ↦ hdelivered.trans (h.unseen i hi), fun j _ ↦ h.unseen j⟩
  todo := h.todo
  buffer := h.buffer
  idle := (Function.forall_update_iff s.queues fun j q ↦
    (∀ final rest, s.consumer ≠ .pop final j rest) → q.consumer = .idle).mpr
      ⟨hidle, fun j _ ↦ h.idle j⟩
  joined := h.joined

/-- `_flush`. -/
theorem Inv.flush (h : Inv s) :
    Inv { s with flushed := s.flushed ++ s.outList, outList := [] } where
  queue := h.queue
  popped i := by
    rw [List.append_nil]
    exact h.popped i
  registered := h.registered
  snapshot := h.snapshot
  unseen := h.unseen
  todo := h.todo
  buffer _ := rfl
  idle := h.idle
  joined := h.joined

theorem ofQueue_concat (j i : ι) (l : List (ι × R)) (x : R) :
    ofQueue j (l ++ [(i, x)]) = if j = i then ofQueue j l ++ [x] else ofQueue j l := by
  rw [ofQueue, List.filter_append, List.map_append]
  split
  · next h => simp [ofQueue, h]
  · next h => simp [ofQueue, Ne.symm h]

theorem Inv.idle_of_ne (h : Inv s) (hp : s.consumer = .pop final i rest) (hj : j ≠ i) :
    (s.queues j).consumer = .idle := by
  refine h.idle j fun final' rest' heq ↦ ?_
  rw [hp] at heq
  injection heq with _ hij
  exact hj hij.symm

omit [DecidableEq ι] in
theorem store_consumer (s : State ι R) (final : Bool) (i : ι) (rest : List ι) (out : R) :
    (s.store final i rest out).consumer = .flushFull final i rest ∨
      (s.store final i rest out).consumer = .pop final i rest := by
  rw [State.store]
  split
  · exact Or.inl rfl
  · exact Or.inr rfl

/-- A `pop` that succeeds. -/
theorem Inv.store (h : Inv s) {q : SPSCQueue.State R} {out : R}
    (hp : s.consumer = .pop final i rest) (hq : SPSCQueue.Inv queueSize q)
    (hout : q.delivered = (s.queues i).delivered ++ [out])
    (haccepted : q.accepted = (s.queues i).accepted) (hidle : q.consumer = .idle) :
    Inv ((s.setQueue i q).store final i rest out) := by
  have hmem : i ∈ s.qSnapshot := h.todo i (by rw [hp]; exact List.mem_cons_self)
  obtain ⟨htodo, hbetween⟩ : ((s.setQueue i q).store final i rest out).consumer.todo = i :: rest ∧
      ¬((s.setQueue i q).store final i rest out).consumer.between := by
    rcases store_consumer (s.setQueue i q) final i rest out with hc | hc
    · rw [hc]
      exact ⟨rfl, id⟩
    · rw [hc]
      exact ⟨rfl, id⟩
  refine ⟨?_, ?_, ?_, h.snapshot, ?_, fun j hj ↦ ?_, fun hbet ↦ absurd hbet hbetween, ?_,
    fun hj ↦ ?_⟩
  · exact (Function.forall_update_iff s.queues fun _ q ↦ SPSCQueue.Inv queueSize q).mpr
      ⟨hq, fun j _ ↦ h.queue j⟩
  · refine (Function.forall_update_iff s.queues fun j q ↦
      ofQueue j (s.flushed ++ (s.outList ++ [(i, out)])) = q.delivered).mpr ⟨?_, fun j hj ↦ ?_⟩
    · rw [← List.append_assoc, ofQueue_concat, if_pos rfl, h.popped i, hout]
    · rw [← List.append_assoc, ofQueue_concat, if_neg hj, h.popped j]
  · exact (Function.forall_update_iff s.queues fun j q ↦ j ∉ s.mQueues → q.accepted = []).mpr
      ⟨fun hi ↦ haccepted.trans (h.registered i hi), fun j _ ↦ h.registered j⟩
  · exact (Function.forall_update_iff s.queues fun j q ↦ j ∉ s.qSnapshot → q.delivered = []).mpr
      ⟨fun hi ↦ absurd hmem hi, fun j _ ↦ h.unseen j⟩
  · rw [htodo] at hj
    exact h.todo j (by rw [hp]; exact hj)
  · exact (Function.forall_update_iff s.queues fun j q' ↦ (∀ final' rest',
      ((s.setQueue i q).store final i rest out).consumer ≠ .pop final' j rest') →
        q'.consumer = .idle).mpr ⟨fun _ ↦ hidle, fun j hj _ ↦ h.idle_of_ne hp hj⟩
  · have hexited := h.joined hj
    rw [hp] at hexited
    cases hexited

theorem Inv.queueStep (h : Inv s) {e : SPSCQueue.ConsumerEvent} {q : SPSCQueue.State R}
    (hq : SPSCQueue.consumerStep queueSize (s.queues i) e = some q) :
    SPSCQueue.Inv queueSize q :=
  (h.queue i).step (e := .consumer e) hq

/-- Away from a `pop`, all queues are idle. -/
theorem Inv.all_idle (h : Inv s) (hp : ∀ final i rest, s.consumer ≠ .pop final i rest) (i : ι) :
    (s.queues i).consumer = .idle :=
  h.idle i fun final ↦ hp final i

/-- The consumer moves on from a point between two queues. -/
theorem Inv.advance (h : Inv s) {c : Consumer ι} (hbetween : s.consumer.between)
    (hne : s.consumer ≠ .exited) (htodo : ∀ i ∈ c.todo, i ∈ s.qSnapshot) :
    Inv { s with consumer := c } := by
  refine h.setConsumer hne htodo (fun _ ↦ h.buffer hbetween) fun i _ ↦ h.all_idle ?_ i
  intro final i rest hp
  rw [hp] at hbetween
  exact hbetween

theorem Inv.consumerMove (h : Inv s) (hm : ConsumerMove s t) : Inv t := by
  cases hm with
  | again hp =>
    exact h.advance (by simp [hp, Consumer.between]) (by simp [hp]) (by simp [Consumer.todo])
  | last hp => exact h.advance (by simp [hp, Consumer.between]) (by simp [hp]) fun _ ↦ id
  | snapshot hp =>
    have hsnap : Inv { s with qSnapshot := s.mQueues } := by
      refine ⟨h.queue, h.popped, h.registered, fun _ ↦ id, fun i hi ↦ ?_, ?_, h.buffer, h.idle,
        h.joined⟩
      · exact h.unseen i fun hmem ↦ hi (h.snapshot i hmem)
      · simp [hp, Consumer.todo]
    exact hsnap.advance (by simp [hp, Consumer.between]) (by simp [hp]) fun _ ↦ id
  | next hp =>
    refine h.advance (by simp [hp, Consumer.between]) (by simp [hp]) fun i hi ↦ h.todo i ?_
    rw [hp]
    exact hi
  | endLoop hp | endFinal hp =>
    exact h.advance (by simp [hp, Consumer.between]) (by simp [hp]) (by simp [Consumer.todo])
  | inPop hp hq he =>
    refine h.setQueue (h.queueStep hq) (delivered_of_consumerStep he hq) (fun hi ↦ ?_)
      fun hnot ↦ absurd hp (hnot _ _)
    rw [accepted_of_consumerStep hq, h.registered _ hi]
  | @popEmpty final i rest q hp hq =>
    obtain ⟨-, rfl⟩ := eq_of_returnFalse hq
    have hset := h.setQueue (h.queueStep hq) rfl (h.registered _) fun _ ↦ rfl
    refine hset.setConsumer (by simp [State.setQueue, hp]) (fun j hj ↦ h.todo j ?_)
      (fun hbet ↦ hbet.elim) fun j _ ↦ ?_
    · rw [hp]
      exact hj
    · rcases eq_or_ne j i with rfl | hj
      · simp [State.setQueue]
      · simpa [State.setQueue, hj] using h.idle_of_ne hp hj
  | popped hp hq hout hidle =>
    exact h.store hp (h.queueStep hq) hout (accepted_of_consumerStep hq) hidle
  | flushFull hp =>
    refine h.flush.setConsumer (by simp [hp]) (fun j hj ↦ h.todo j ?_) (fun hbet ↦ hbet.elim)
      fun j _ ↦ h.all_idle (by simp [hp]) j
    rw [hp]
    exact hj
  | flushRest hp =>
    refine h.flush.setConsumer (by simp [hp]) (fun j hj ↦ h.todo j ?_) (fun _ ↦ rfl)
      fun j _ ↦ h.all_idle (by simp [hp]) j
    rw [hp]
    exact List.mem_cons_of_mem _ hj

theorem Inv.step (h : Inv s) {e : Event ι R} (hst : step s e = some t) : Inv t := by
  cases move_of_step hst with
  | registerThread =>
    refine ⟨h.queue, h.popped, fun i hi ↦ h.registered i fun hmem ↦ hi ?_, fun i hi ↦ ?_,
      h.unseen, h.todo, h.buffer, h.idle, h.joined⟩
    · exact List.mem_append_left _ hmem
    · exact List.mem_append_left _ (h.snapshot i hi)
  | push hi hq =>
    obtain ⟨hconsumer, hdelivered, -⟩ := consumer_of_producerStep hq
    refine h.setQueue ((h.queue _).step (e := .producer _) hq) hdelivered
      (fun hnot ↦ absurd hi hnot) fun hnot ↦ ?_
    rw [hconsumer]
    exact h.idle _ hnot
  | consumer hm => exact h.consumerMove hm
  | requestStop =>
    exact ⟨h.queue, h.popped, h.registered, h.snapshot, h.unseen, h.todo, h.buffer, h.idle,
      h.joined⟩
  | join hp =>
    exact ⟨h.queue, h.popped, h.registered, h.snapshot, h.unseen, h.todo, h.buffer, h.idle,
      fun _ ↦ hp⟩

theorem inv_of_reachable (hr : Reachable step init s) : Inv s :=
  hr.invariant (fun _ _ _ h hst ↦ h.step hst) Inv.init

/-! ## After the stop request -/

variable {A : ι → List R}

/-- As many records as were accepted before the stop request have been popped. -/
def Drained (A : ι → List R) (s : State ι R) (i : ι) : Prop :=
  (A i).length ≤ (s.queues i).delivered.length

/-- What holds at each point of the consumer, with the records `A` accepted before the request.
Before the final `drain` the queues outside the snapshot have accepted nothing, unless a snapshot is
to come. During it, the queues behind the consumer are drained, and so is the one that it is about
to leave. -/
def Finishing (A : ι → List R) (s : State ι R) : Consumer ι → Prop
  | .takeSnapshot => True
  | .nextQueue true rest => ∀ j ∉ rest, Drained A s j
  | .pop true i rest => (∀ j ∉ i :: rest, Drained A s j) ∧
      ∀ tail, (s.queues i).consumer = .popTest tail tail → Drained A s i
  | .flushFull true i rest => ∀ j ∉ i :: rest, Drained A s j
  | .flushRest true _ rest => ∀ j ∉ rest, Drained A s j
  | .exited => ∀ j, Drained A s j
  | _ => ∀ i ∉ s.qSnapshot, A i = []

omit [DecidableEq ι] in
/-- Only the snapshot and the consumers' sides of the queues matter. -/
theorem Finishing.congr {c : Consumer ι} (h : Finishing A s c) (hsnap : t.qSnapshot = s.qSnapshot)
    (hdelivered : ∀ j, (t.queues j).delivered = (s.queues j).delivered)
    (hconsumer : ∀ j, (t.queues j).consumer = (s.queues j).consumer) : Finishing A t c := by
  unfold Finishing at h ⊢
  simp only [Drained, hsnap, hdelivered, hconsumer] at h ⊢
  exact h

structure AfterStop (A : ι → List R) (s : State ι R) : Prop where
  inv : Inv s
  stop : s.stopRequested = true
  accepted : ∀ i, A i <+: (s.queues i).accepted
  finishing : Finishing A s s.consumer

/-- The queues registered and the records accepted later do not matter. -/
theorem AfterStop.finishing_other (h : AfterStop A s) {q : SPSCQueue.State R}
    (hdelivered : q.delivered = (s.queues i).delivered)
    (hconsumer : q.consumer = (s.queues i).consumer) :
    Finishing A (s.setQueue i q) s.consumer := by
  refine h.finishing.congr rfl ?_ ?_
  · exact (Function.forall_update_iff s.queues fun j q ↦
      q.delivered = (s.queues j).delivered).mpr ⟨hdelivered, fun _ _ ↦ rfl⟩
  · exact (Function.forall_update_iff s.queues fun j q ↦
      q.consumer = (s.queues j).consumer).mpr ⟨hconsumer, fun _ _ ↦ rfl⟩

/-- A step of the queue under the consumer, which drains no queue less. -/
theorem Drained.setQueue {q : SPSCQueue.State R} (h : Drained A s j)
    (hle : (s.queues i).delivered.length ≤ q.delivered.length) : Drained A (s.setQueue i q) j := by
  rcases eq_or_ne j i with rfl | hne
  · rw [Drained, State.setQueue]
    simpa using Nat.le_trans h hle
  · rw [Drained, State.setQueue]
    rw [Drained] at h
    simpa [hne] using h

omit [DecidableEq ι] in
/-- The start of a `pop`, with the queue idle. -/
theorem Finishing.startPop (h : Finishing A s (.nextQueue final (i :: rest)))
    (hidle : (s.queues i).consumer = .idle) : Finishing A s (.pop final i rest) := by
  cases final with
  | false => exact h
  | true =>
    refine ⟨h, fun tail htest ↦ ?_⟩
    cases hidle.symm.trans htest

/-- What was drained outside of the queue under the consumer stays so. -/
theorem Finishing.others {q : SPSCQueue.State R} (h : Finishing A s (.pop final i rest))
    (hle : (s.queues i).delivered.length ≤ q.delivered.length) :
    Finishing A (s.setQueue i q) (.nextQueue final (i :: rest)) := by
  cases final with
  | false => exact h
  | true => exact fun j hj ↦ (h.1 j hj).setQueue hle

/-- An access of a `pop` that returns nothing yet. -/
theorem AfterStop.finishing_inPop (h : AfterStop A s) {e : SPSCQueue.ConsumerEvent}
    {q : SPSCQueue.State R} (hp : s.consumer = .pop final i rest)
    (hq : SPSCQueue.consumerStep queueSize (s.queues i) e = some q) (he : e ≠ .storeTail) :
    Finishing A (s.setQueue i q) (.pop final i rest) := by
  have hfin := h.finishing
  rw [hp] at hfin
  have hle : (s.queues i).delivered.length ≤ q.delivered.length := by
    rw [delivered_of_consumerStep he hq]
  cases final with
  | false => exact hfin
  | true =>
    refine ⟨fun j hj ↦ (hfin.1 j hj).setQueue hle, fun tail htest ↦ ?_⟩
    have htest' : q.consumer = .popTest tail tail := by simpa [State.setQueue] using htest
    refine Drained.setQueue ?_ hle
    -- the test was there before, or the head was loaded just now
    rcases delivered_of_loadHead (h.inv.queue i) hq htest' with hsame | hall
    · exact hfin.2 tail hsame
    · rw [Drained, hall]
      exact (h.accepted i).length_le

/-- A `pop` that returns false. -/
theorem AfterStop.finishing_popEmpty (h : AfterStop A s) {q : SPSCQueue.State R}
    (hp : s.consumer = .pop final i rest)
    (hq : SPSCQueue.consumerStep queueSize (s.queues i) .returnFalse = some q) :
    Finishing A (s.setQueue i q) (.flushRest final i rest) := by
  obtain ⟨⟨tail, htest⟩, rfl⟩ := eq_of_returnFalse hq
  have hfin := h.finishing
  rw [hp] at hfin
  cases final with
  | false => exact hfin
  | true =>
    intro j hj
    refine Drained.setQueue ?_ (Nat.le_refl _)
    rcases eq_or_ne j i with rfl | hne
    · exact hfin.2 tail htest
    · exact hfin.1 j (List.not_mem_cons_of_ne_of_not_mem hne hj)

theorem AfterStop.finishing_consumer (h : AfterStop A s) (hm : ConsumerMove s t) :
    Finishing A t t.consumer := by
  have hfin := h.finishing
  cases hm with
  | again hp hstop =>
    rw [h.stop] at hstop
    cases hstop
  | last hp =>
    rw [hp] at hfin
    intro j hj
    rw [Drained, hfin j hj]
    exact Nat.zero_le _
  | snapshot hp =>
    intro j hj
    have hprefix := h.accepted j
    rw [h.inv.registered j hj] at hprefix
    exact List.prefix_nil.mp hprefix
  | next hp =>
    rw [hp] at hfin
    exact hfin.startPop (h.inv.all_idle (by simp [hp]) _)
  | endLoop hp =>
    rw [hp] at hfin
    exact hfin
  | endFinal hp =>
    rw [hp] at hfin
    exact fun j ↦ hfin j List.not_mem_nil
  | @inPop final i rest e q hp hq he =>
    have hp' : (s.setQueue i q).consumer = .pop final i rest := hp
    rw [hp']
    exact h.finishing_inPop hp hq he
  | popEmpty hp hq => exact h.finishing_popEmpty hp hq
  | @popped final i rest q out hp hq hout hidle =>
    rw [hp] at hfin
    have hle : (s.queues i).delivered.length ≤ q.delivered.length := by
      rw [hout, List.length_append]
      exact Nat.le_add_right ..
    have hothers := hfin.others hle
    rcases store_consumer (s.setQueue i q) final i rest out with hc | hc
    · rw [hc]
      cases final with
      | false => exact hothers
      | true => exact hothers
    · rw [hc]
      refine Finishing.congr (hothers.startPop ?_) rfl (fun _ ↦ rfl) fun _ ↦ rfl
      simpa [State.setQueue] using hidle
  | @flushFull final i rest hp =>
    rw [hp] at hfin
    have hbefore : Finishing A s (.nextQueue final (i :: rest)) := by
      cases final with
      | false => exact hfin
      | true => exact hfin
    exact hbefore.startPop (h.inv.all_idle (by simp [hp]) i)
  | @flushRest final i rest hp =>
    rw [hp] at hfin
    cases final with
    | false => exact hfin
    | true => exact hfin

theorem accepted_of_consumerMove (hm : ConsumerMove s t) (j : ι) :
    (t.queues j).accepted = (s.queues j).accepted := by
  have hset : ∀ (i : ι) (e : SPSCQueue.ConsumerEvent) (q : SPSCQueue.State R),
      SPSCQueue.consumerStep queueSize (s.queues i) e = some q →
        ((s.setQueue i q).queues j).accepted = (s.queues j).accepted := by
    intro i e q hq
    revert j
    exact (Function.forall_update_iff s.queues fun j q ↦
      q.accepted = (s.queues j).accepted).mpr ⟨accepted_of_consumerStep hq, fun _ _ ↦ rfl⟩
  cases hm with
  | inPop hp hq | popEmpty hp hq | popped hp hq => exact hset _ _ _ hq
  | _ => rfl

theorem stopRequested_of_move (hm : Move s t) (hstop : s.stopRequested = true) :
    t.stopRequested = true := by
  cases hm with
  | consumer hm => cases hm <;> exact hstop
  | requestStop => rfl
  | registerThread | push | join => exact hstop

theorem AfterStop.step (h : AfterStop A s) {e : Event ι R} (hst : step s e = some t) :
    AfterStop A t := by
  have hm := move_of_step hst
  refine ⟨h.inv.step hst, stopRequested_of_move hm h.stop, fun j ↦ ?_, ?_⟩
  · cases hm with
    | @push i e q hi hq =>
      obtain ⟨-, -, haccepted⟩ := consumer_of_producerStep hq
      revert j
      exact (Function.forall_update_iff s.queues fun j q ↦ A j <+: q.accepted).mpr
        ⟨(h.accepted i).trans haccepted, fun j _ ↦ h.accepted j⟩
    | consumer hm =>
      rw [accepted_of_consumerMove hm]
      exact h.accepted j
    | registerThread | requestStop | join => exact h.accepted j
  · cases hm with
    | push hi hq =>
      obtain ⟨hconsumer, hdelivered, -⟩ := consumer_of_producerStep hq
      exact h.finishing_other hdelivered hconsumer
    | consumer hm => exact h.finishing_consumer hm
    | registerThread | requestStop | join =>
      exact h.finishing.congr rfl (fun _ ↦ rfl) fun _ ↦ rfl

/-- A queue that is not in the last snapshot. -/
structure Missed (i : ι) (s : State ι R) : Prop where
  stop : s.stopRequested = true
  noSnapshot : s.consumer ≠ .takeSnapshot
  unseen : i ∉ s.qSnapshot

theorem Missed.step (h : Missed i s) {e : Event ι R} (hst : step s e = some t) : Missed i t := by
  have hm := move_of_step hst
  refine ⟨stopRequested_of_move hm h.stop, ?_, ?_⟩
  · cases hm with
    | consumer hm =>
      cases hm with
      | again hp hstop =>
        rw [h.stop] at hstop
        cases hstop
      | inPop => exact h.noSnapshot
      | @popped final i rest q out =>
        rcases store_consumer (s.setQueue i q) final i rest out with hc | hc
        · rw [hc]
          nofun
        · rw [hc]
          nofun
      | _ => nofun
    | registerThread | push | requestStop | join => exact h.noSnapshot
  · cases hm with
    | consumer hm =>
      cases hm with
      | snapshot hp => exact absurd hp h.noSnapshot
      | _ => exact h.unseen
    | registerThread | push | requestStop | join => exact h.unseen

/-! ## Before the stop request -/

/-- The consumer has left its loop. -/
def Consumer.last : Consumer ι → Prop
  | .nextQueue final _ | .pop final _ _ | .flushFull final _ _ | .flushRest final _ _ =>
    final = true
  | .exited => True
  | _ => False

theorem last_of_consumerMove (hm : ConsumerMove s t) (hlast : t.consumer.last) :
    s.consumer.last ∨ s.stopRequested = true := by
  cases hm with
  | again | endLoop => exact hlast.elim
  | last hp hstop => exact Or.inr hstop
  | snapshot => cases hlast
  | next hp | popEmpty hp | flushFull hp | flushRest hp =>
    left
    rw [hp]
    exact hlast
  | endFinal hp =>
    left
    rw [hp]
    rfl
  | inPop => exact Or.inl hlast
  | @popped final i rest q out hp =>
    left
    rw [hp]
    rcases store_consumer (s.setQueue i q) final i rest out with hc | hc
    · rw [hc] at hlast
      exact hlast
    · rw [hc] at hlast
      exact hlast

/-- The consumer leaves its loop only after a stop request. -/
theorem stopRequested_of_last (hr : Reachable step init s) (hlast : s.consumer.last) :
    s.stopRequested = true := by
  refine hr.invariant (P := fun s ↦ s.consumer.last → s.stopRequested = true) ?_ nofun hlast
  intro s e t h hst hlast
  have hm := move_of_step hst
  cases hm with
  | consumer hm =>
    refine stopRequested_of_move (.consumer hm) ?_
    rcases last_of_consumerMove hm hlast with hs | hs
    · exact h hs
    · exact hs
  | requestStop => rfl
  | registerThread | push | join => exact h hlast

/-! ## The result -/

/-- The consumer has passed its stop test and not yet taken the snapshot, or every queue outside its
snapshot has accepted nothing. -/
def Covered (s : State ι R) : Prop :=
  s.consumer = .takeSnapshot ∨ ∀ i, i ∉ s.qSnapshot → (s.queues i).accepted = []

omit [DecidableEq ι] in
theorem finishing_of_covered (hcovered : Covered s) (hloop : ¬s.consumer.last) :
    Finishing (fun i ↦ (s.queues i).accepted) s s.consumer := by
  rcases hcovered with hp | hempty
  · rw [hp]
    trivial
  · generalize s.consumer = c at hloop
    cases c with
    | takeSnapshot => trivial
    | testStop => exact hempty
    | nextQueue final | pop final | flushFull final | flushRest final =>
      cases final with
      | false => exact hempty
      | true => exact absurd rfl hloop
    | exited => exact absurd trivial hloop

theorem eq_of_requestStop (hst : step s (.destructor .requestStop) = some t) :
    s.stopRequested = false ∧ t = { s with stopRequested := true } := by
  simp only [step, destructorStep] at hst
  split at hst
  · cases hst
  · next hstop => exact ⟨Bool.eq_false_iff.mpr hstop, (Option.some.inj hst).symm⟩

/-- When `join` has returned, what was popped has been flushed. -/
theorem Inv.flushed_of_joined (h : Inv s) (hjoined : s.joined = true) (i : ι) :
    ofQueue i s.flushed = (s.queues i).delivered := by
  have hbuffer : s.outList = [] := h.buffer (by rw [h.joined hjoined]; trivial)
  have hpopped := h.popped i
  rwa [hbuffer, List.append_nil] at hpopped

/-- **Shutdown.** In every run that goes through a stop request to the return of `join`, all
records accepted before the request have been passed to `_flush`, those of each queue in order, if
and only if the request came between a stop test and its snapshot, or when every queue outside the
snapshot of the consumer had accepted nothing. -/
theorem flushed_iff_covered_at_stop {s₀ s₁ : State ι R} {as : List (Event ι R)}
    (hr : Reachable step init s₀) (hstop : step s₀ (.destructor .requestStop) = some s₁)
    (hrun : exec step s₁ as = some s) (hjoined : s.joined = true) :
    (∀ i, (s₀.queues i).accepted <+: ofQueue i s.flushed) ↔ Covered s₀ := by
  have hinv := inv_of_reachable ((hr.tail hstop).exec hrun)
  obtain ⟨hnot, rfl⟩ := eq_of_requestStop hstop
  constructor
  · intro hall
    by_contra hcovered
    obtain ⟨hp, hmissed⟩ := not_or.mp hcovered
    push Not at hmissed
    obtain ⟨i, hi, hne⟩ := hmissed
    have hstart : Missed i { s₀ with stopRequested := true } := ⟨rfl, hp, hi⟩
    have hlost : Missed i s := exec_invariant (fun _ _ _ h hst ↦ h.step hst) hstart hrun
    have hprefix := hall i
    rw [hinv.flushed_of_joined hjoined, hinv.unseen i hlost.unseen] at hprefix
    exact hne (List.prefix_nil.mp hprefix)
  · intro hcovered i
    have hloop : ¬s₀.consumer.last := fun hlast ↦ by
      rw [stopRequested_of_last hr hlast] at hnot
      cases hnot
    have hstart : AfterStop (fun i ↦ (s₀.queues i).accepted) { s₀ with stopRequested := true } :=
      ⟨(inv_of_reachable hr).step hstop, rfl, fun _ ↦ List.prefix_rfl,
        (finishing_of_covered hcovered hloop).congr rfl (fun _ ↦ rfl) fun _ ↦ rfl⟩
    have hend : AfterStop (fun i ↦ (s₀.queues i).accepted) s :=
      exec_invariant (fun _ _ _ h hst ↦ h.step hst) hstart hrun
    have hdrained := hend.finishing
    have hqueue := hinv.queue i
    rw [hinv.joined hjoined] at hdrained
    rw [hinv.flushed_of_joined hjoined]
    exact List.prefix_of_prefix_length_le (hend.accepted i) hqueue.delivered_prefix (hdrained i)

/-- A call of the logger by the one thread there is, after its queue is registered. -/
def logCall (x : ℕ) : List (Event Unit ℕ) :=
  [.push () (.emplace x), .push () .loadHead, .push () .loadTail, .push () .constructAt,
    .push () .storeHead]

/-- A `pop` that finds the queue empty, and the end of the loop over it. -/
def popNone : List (Event Unit ℕ) :=
  [.consumer (.queue .pop), .consumer (.queue .loadTail), .consumer (.queue .loadHead),
    .consumer (.queue .returnFalse), .consumer .flush]

/-- The first record, with the stop request between a stop test and its snapshot. -/
theorem flushed_iff_covered_at_stop_snapshot : ∃ s₀ s₁ s : State Unit ℕ,
    Reachable step init s₀ ∧ step s₀ (.destructor .requestStop) = some s₁ ∧
      (s₀.queues ()).accepted = [7] ∧ s.joined = true ∧ Covered s₀ ∧
      [7] <+: ofQueue () s.flushed := by
  have hr : Reachable step (init : State Unit ℕ) _ :=
    ⟨[.registerThread (), .consumer .testStop] ++ logCall 7, rfl⟩
  have hiff := flushed_iff_covered_at_stop hr rfl (rfl : exec step _
    ([.consumer .takeSnapshot, .consumer .nextQueue, .consumer (.queue .pop),
      .consumer (.queue .loadTail), .consumer (.queue .loadHead), .consumer (.queue .moveOut),
      .consumer (.queue .destroyAt), .consumer (.queue .storeTail)] ++ popNone ++
      [.consumer .nextQueue, .consumer .testStop, .consumer .nextQueue] ++ popNone ++
      [.consumer .nextQueue, .destructor .join]) = some _) rfl
  exact ⟨_, _, _, hr, rfl, rfl, rfl, Or.inl rfl, hiff.mpr (Or.inl rfl) ()⟩

/-- The first record of a thread, after the consumer has taken its snapshot: the push has returned
true, then the stop is requested, and when `join` returns nothing has been flushed. -/
theorem first_record_lost : ∃ s₀ s₁ s : State Unit ℕ,
    exec step init ([.consumer .testStop, .consumer .takeSnapshot, .registerThread ()] ++
      logCall 7 ++ [.consumer .nextQueue]) = some s₀ ∧
    step s₀ (.destructor .requestStop) = some s₁ ∧
    exec step s₁ [.consumer .testStop, .consumer .nextQueue, .destructor .join] = some s ∧
    (s₀.queues ()).accepted = [7] ∧ s.joined = true ∧ s.flushed = [] ∧
    ¬∀ i, (s₀.queues i).accepted <+: ofQueue i s.flushed := by
  refine ⟨_, _, _, rfl, rfl, rfl, rfl, rfl, rfl, fun hall ↦ ?_⟩
  cases List.prefix_nil.mp (hall ())

end SPSCLogger

end FastInAHurry
