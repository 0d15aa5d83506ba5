import FastInAHurry.Queue.SPSCRefinement

/-!
# Element lifetimes in the single-producer queue

Every element that is ever constructed in a slot gets a number, in order of construction, and the
run keeps which element lives in which slot and which elements were destroyed. The slots hold the
numbers of a window of the history of constructions, exactly as they hold the values: the window
ends behind the element that is constructed and not yet published, and begins behind the one that is
destroyed and not yet given up.

The destructor walks from the tail to the head with wrapping counters and `!=`. Its loop ends after
as many rounds as the difference of the two words, whatever they are; that each round finds a live
element, and that none is left, is the invariant.
-/

namespace FastInAHurry

open RingIndex Runs

namespace SPSCQueue

variable {T : Type*} {c : Capacity}

/-- A queue with the lives of its elements. -/
structure Tracked (T : Type*) where
  queue : State T
  /-- The number of the element that lives in a slot. -/
  objects : UInt64 → Option ℕ
  constructed : ℕ
  /-- The elements destroyed, in order. -/
  destroyed : List ℕ

def Tracked.init : Tracked T where
  queue := SPSCQueue.init
  objects := fun _ ↦ none
  constructed := 0
  destroyed := []

/-- Record a step to `q`. -/
def Tracked.note (c : Capacity) (s : Tracked T) (q : State T) : Event T → Tracked T
  | .producer .constructAt =>
    match s.queue.producer with
    | .emplaceTest _ head _ =>
      { queue := q
        objects := Function.update s.objects (c.slot head) (some s.constructed)
        constructed := s.constructed + 1
        destroyed := s.destroyed }
    | _ => { s with queue := q }
  | .consumer .destroyAt =>
    match s.queue.consumer with
    | .popDestroy _ tail =>
      { queue := q
        objects := Function.update s.objects (c.slot tail) none
        constructed := s.constructed
        destroyed := s.destroyed ++ (s.objects (c.slot tail)).toList }
    | _ => { s with queue := q }
  | _ => { s with queue := q }

/-- One event, recorded. -/
def track (c : Capacity) (s : Tracked T) (e : Event T) : Option (Tracked T) :=
  (step c s.queue e).map fun q ↦ s.note c q e

/-- `destroy_at` on a slot; `none` where the slot is raw. -/
def Tracked.destroyAt (s : Tracked T) (j : UInt64) : Option (Tracked T) :=
  (s.queue.mStorage j).map fun _ ↦
    { queue := { s.queue with mStorage := Function.update s.queue.mStorage j none }
      objects := Function.update s.objects j none
      constructed := s.constructed
      destroyed := s.destroyed ++ (s.objects j).toList }

/-- The counter of the destructor's loop closes in on the head, across the wrap-around too. -/
theorem sub_succ_lt {tail head : UInt64} (hne : tail ≠ head) :
    (head - (tail + 1)).toNat < (head - tail).toNat := by
  have htail := tail.toNat_lt
  have hhead := head.toNat_lt
  have hne' : tail.toNat ≠ head.toNat := fun h ↦ hne (UInt64.toNat_inj.mp h)
  rw [UInt64.toNat_sub, UInt64.toNat_sub, UInt64.toNat_add, UInt64.toNat_one]
  omega

/-- The loop of `~SPSCQueue`. -/
def destroyLoop (c : Capacity) (tail head : UInt64) (s : Tracked T) : Option (Tracked T) :=
  if tail = head then some s
  else (s.destroyAt (c.slot tail)).bind (destroyLoop c (tail + 1) head)
termination_by (head - tail).toNat
decreasing_by exact sub_succ_lt (by assumption)

/-- `~SPSCQueue`. -/
def Tracked.destructor (c : Capacity) (s : Tracked T) : Option (Tracked T) :=
  destroyLoop c s.queue.mTail s.queue.mHead s

/-! ## The run and its record -/

theorem exec_track {events : List (Event T)} {s : Tracked T} {q : State T}
    (h : exec (step c) s.queue events = some q) :
    ∃ t, exec (track c) s events = some t ∧ t.queue = q := by
  induction events generalizing s with
  | nil => exact ⟨s, rfl, Option.some.inj h⟩
  | cons e events ih =>
    obtain ⟨q', hst, hq'⟩ := exec_cons_eq_some.mp h
    have hqueue : (s.note c q' e).queue = q' := by
      unfold Tracked.note
      split <;> try split
      all_goals rfl
    obtain ⟨t, ht, rfl⟩ := ih (s := s.note c q' e) (by rw [hqueue]; exact hq')
    exact ⟨t, exec_cons_eq_some.mpr ⟨_, by rw [track, hst]; rfl, ht⟩, rfl⟩

/-! ## The invariant -/

/-- The number of elements constructed so far. -/
def State.born (s : State T) : ℕ := s.accepted.length + s.producer.pending.length

/-- The number of elements destroyed so far. -/
def State.dead (s : State T) : ℕ := s.delivered.length + s.consumer.taken

/-- Elements are numbered and destroyed in order of construction, and those in between live in the
slots of their numbers. -/
structure Lifetimes (c : Capacity) (s : Tracked T) : Prop where
  inv : Inv c s.queue
  constructed_eq : s.constructed = s.queue.born
  destroyed_eq : s.destroyed = List.range s.queue.dead
  objects : Holds c s.objects (List.range s.constructed) s.queue.dead s.queue.born

theorem Lifetimes.init : Lifetimes c (Tracked.init : Tracked T) where
  inv := Inv.init
  constructed_eq := rfl
  destroyed_eq := rfl
  objects := Holds.empty

section Step

variable {s t : State T}

theorem Inv.dead_le_born (h : Inv c s) : s.dead ≤ s.born :=
  h.taken_le.trans (Nat.le_add_right _ _)

theorem Inv.born_le (h : Inv c s) : s.born ≤ s.dead + c.size :=
  h.bound.trans (Nat.add_le_add_right (Nat.le_add_right _ _) _)

/-- The producer creates an element in `construct_at` only, and destroys none. -/
theorem producerStep_born {e : ProducerEvent T} (hne : e ≠ .constructAt)
    (hst : producerStep c s e = some t) : t.born = s.born ∧ t.dead = s.dead := by
  cases e <;> simp only [producerStep] at hst
  case constructAt => exact absurd rfl hne
  case observe =>
    split at hst <;> try contradiction
    next hp =>
      obtain ⟨o', -, rfl⟩ := Option.map_eq_some_iff.mp hst
      exact ⟨by simp [State.born, hp, Producer.pending], rfl⟩
  all_goals
    repeat' split at hst
    all_goals try contradiction
    all_goals
      obtain rfl := Option.some.inj hst
      refine ⟨?_, rfl⟩
      simp [State.born, Producer.pending, *]

/-- The consumer destroys an element in `destroy_at` only, and creates none. -/
theorem consumerStep_dead {e : ConsumerEvent} (hne : e ≠ .destroyAt)
    (hst : consumerStep c s e = some t) : t.born = s.born ∧ t.dead = s.dead := by
  cases e <;> simp only [consumerStep] at hst
  case destroyAt => exact absurd rfl hne
  case observe =>
    split at hst <;> try contradiction
    next hq =>
      obtain ⟨o', -, rfl⟩ := Option.map_eq_some_iff.mp hst
      exact ⟨rfl, by simp [State.dead, hq, Consumer.taken]⟩
  case moveOut =>
    split at hst <;> try contradiction
    next hq =>
      split at hst <;> try contradiction
      obtain ⟨out, -, rfl⟩ := Option.map_eq_some_iff.mp hst
      exact ⟨rfl, by simp [State.dead, hq, Consumer.taken]⟩
  all_goals
    repeat' split at hst
    all_goals try contradiction
    all_goals
      obtain rfl := Option.some.inj hst
      refine ⟨rfl, ?_⟩
      simp [State.dead, Consumer.taken, *]

end Step

variable {s t : Tracked T}

/-- A step that neither creates nor destroys. -/
theorem Lifetimes.of_quiet (h : Lifetimes c s) {q : State T} (hinv : Inv c q)
    (hborn : q.born = s.queue.born) (hdead : q.dead = s.queue.dead) :
    Lifetimes c { s with queue := q } where
  inv := hinv
  constructed_eq := h.constructed_eq.trans hborn.symm
  destroyed_eq := by
    rw [hdead]
    exact h.destroyed_eq
  objects := by
    rw [hborn, hdead]
    exact h.objects

/-- The element that `construct_at` creates takes the next number. -/
theorem Lifetimes.constructAt (h : Lifetimes c s) {q : State T}
    (hst : producerStep c s.queue .constructAt = some q) :
    Lifetimes c (s.note c q (.producer .constructAt)) := by
  have hinv : Inv c q := h.inv.step (e := .producer .constructAt) hst
  simp only [producerStep] at hst
  split at hst <;> try contradiction
  next x head tail hp =>
    split at hst <;> try contradiction
    next hne =>
      obtain rfl := Option.some.inj hst
      obtain ⟨hhead, hroom⟩ := h.inv.room hp hne
      have hborn : s.queue.born = s.queue.accepted.length := by
        rw [State.born, hp]
        rfl
      have hconstructed : s.constructed = s.queue.accepted.length :=
        h.constructed_eq.trans hborn
      have hholds := h.objects.append (by rw [List.length_range, h.constructed_eq]) [s.constructed]
      have hle := h.inv.dead_le_born
      rw [hborn] at hholds hle
      simp only [Tracked.note, hp]
      refine ⟨hinv, congrArg (· + 1) hconstructed, h.destroyed_eq, ?_⟩
      rw [List.range_succ, hhead]
      refine hholds.push hle ?_ ?_
      · exact hroom.trans_le (Nat.add_le_add_right (Nat.le_add_right _ _) _)
      · rw [← hconstructed]
        exact List.getElem?_eq_some_iff.mpr ⟨by simp, by simp⟩

/-- The element that `destroy_at` destroys is the oldest one. -/
theorem Lifetimes.destroyAt (h : Lifetimes c s) {q : State T}
    (hst : consumerStep c s.queue .destroyAt = some q) :
    Lifetimes c (s.note c q (.consumer .destroyAt)) := by
  have hinv : Inv c q := h.inv.step (e := .consumer .destroyAt) hst
  simp only [consumerStep] at hst
  split at hst <;> try contradiction
  next out tail hq =>
    obtain rfl := Option.some.inj hst
    have hdead : s.queue.dead = s.queue.delivered.length := by
      rw [State.dead, hq]
      rfl
    have hok := h.inv.consumer_ok
    rw [hq] at hok
    obtain ⟨rfl, hout⟩ := hok
    have hlt : s.queue.delivered.length < s.queue.born :=
      Nat.lt_add_right _ (List.getElem?_eq_some_iff.mp hout).1
    have hholds := h.objects
    have hle := h.inv.born_le
    rw [hdead] at hholds hle
    have hobject : s.objects (c.slot (UInt64.ofNat s.queue.delivered.length)) =
        some s.queue.delivered.length := by
      rw [hholds.inside _ le_rfl hlt, h.constructed_eq]
      exact List.getElem?_eq_some_iff.mpr ⟨by simpa using hlt, by simp⟩
    simp only [Tracked.note, hq]
    refine ⟨hinv, h.constructed_eq, ?_, ?_⟩
    · rw [h.inv.tail_eq, hobject, h.destroyed_eq, hdead]
      exact List.range_succ.symm
    · rw [h.inv.tail_eq]
      exact hholds.pop hle

theorem Lifetimes.track (h : Lifetimes c s) {e : Event T} (hst : track c s e = some t) :
    Lifetimes c t := by
  obtain ⟨q, hq, rfl⟩ := Option.map_eq_some_iff.mp hst
  have hinv : Inv c q := h.inv.step hq
  cases e with
  | producer e =>
    by_cases he : e = .constructAt
    · subst he
      exact h.constructAt hq
    · obtain ⟨hborn, hdead⟩ := producerStep_born he hq
      have hnote : s.note c q (.producer e) = { s with queue := q } := by
        cases e <;> first | rfl | exact absurd rfl he
      rw [hnote]
      exact h.of_quiet hinv hborn hdead
  | consumer e =>
    by_cases he : e = .destroyAt
    · subst he
      exact h.destroyAt hq
    · obtain ⟨hborn, hdead⟩ := consumerStep_dead he hq
      have hnote : s.note c q (.consumer e) = { s with queue := q } := by
        cases e <;> first | rfl | exact absurd rfl he
      rw [hnote]
      exact h.of_quiet hinv hborn hdead

theorem lifetimes_of_exec {events : List (Event T)}
    (h : exec (SPSCQueue.track c) Tracked.init events = some s) : Lifetimes c s :=
  exec_invariant (fun _ _ _ hs hst ↦ hs.track hst) Lifetimes.init h

/-! ## The destructor -/

/-- **The loop of the destructor.** Over a window of live elements it destroys each of them once,
in order, and leaves every slot raw. -/
theorem destroyLoop_eq_some {n lo N : ℕ} {xs : List T} (hn : n ≤ c.size)
    (hstorage : Holds c s.queue.mStorage xs lo (lo + n)) (hxs : lo + n ≤ xs.length)
    (hobjects : Holds c s.objects (List.range N) lo (lo + n)) (hN : lo + n ≤ N) :
    ∃ t, destroyLoop c (UInt64.ofNat lo) (UInt64.ofNat (lo + n)) s = some t ∧
      t.constructed = s.constructed ∧ t.destroyed = s.destroyed ++ List.range' lo n ∧
      ∀ j, t.queue.mStorage j = none := by
  induction n generalizing lo s with
  | zero =>
    refine ⟨s, ?_, rfl, (List.append_nil _).symm, fun j ↦ ?_⟩
    · rw [destroyLoop, Nat.add_zero, if_pos rfl]
    · exact hstorage.outside j fun i hlo hhi ↦ absurd hhi (Nat.not_lt.mpr hlo)
  | succ n ih =>
    have hne : UInt64.ofNat lo ≠ UInt64.ofNat (lo + (n + 1)) := fun heq ↦ by
      have := (c.ofNat_eq_ofNat_iff (Nat.le_add_right lo (n + 1)) (by omega)).mp heq.symm
      omega
    have hlive : s.queue.mStorage (c.slot (UInt64.ofNat lo)) = some (xs.get ⟨lo, by omega⟩) := by
      rw [hstorage.inside lo le_rfl (by omega), List.getElem?_eq_getElem (by omega)]
      rfl
    have hobject : s.objects (c.slot (UInt64.ofNat lo)) = some lo := by
      rw [hobjects.inside lo le_rfl (by omega), List.getElem?_range (by omega)]
    have hhi : lo + (n + 1) = lo + 1 + n := by omega
    have hstorage' := hstorage.pop (by omega)
    have hobjects' := hobjects.pop (by omega)
    rw [hhi] at hstorage' hobjects'
    obtain ⟨t, ht, hconstructed, hdestroyed, hraw⟩ := ih (s :=
      { queue := { s.queue with
          mStorage := Function.update s.queue.mStorage (c.slot (UInt64.ofNat lo)) none }
        objects := Function.update s.objects (c.slot (UInt64.ofNat lo)) none
        constructed := s.constructed
        destroyed := s.destroyed ++ (s.objects (c.slot (UInt64.ofNat lo))).toList })
      (by omega) hstorage' (by omega) hobjects' (by omega)
    refine ⟨t, ?_, hconstructed, ?_, hraw⟩
    · rw [destroyLoop, if_neg hne, Tracked.destroyAt, hlive, hhi, ← UInt64.ofNat_one,
        ← UInt64.ofNat_add]
      exact ht
    · rw [hdestroyed, hobject, List.append_assoc]
      rfl

/-! ## A constructor that throws -/

/-- The contents and the counters: all that the two threads share. -/
def State.shared (s : State T) : UInt64 × UInt64 × (UInt64 → Option T) × List T × List T :=
  (s.mHead, s.mTail, s.mStorage, s.accepted, s.delivered)

/-- The producer is inside `emplace` and has not constructed yet. -/
def Producer.preparing : Producer T → Bool
  | .emplaceLoadHead _ | .emplaceLoadTail _ _ | .emplaceTest _ _ _ => true
  | _ => false

section Throw

variable {s t : State T}

/-- Only a call brings the producer to where it prepares an element. -/
theorem preparing_of_step {e : Event T} (he : ∀ x, e ≠ .producer (.emplace x))
    (hst : step c s e = some t) (ht : t.producer.preparing = true) :
    s.producer.preparing = true := by
  cases e with
  | producer e =>
    cases e <;> simp only [step, producerStep] at hst
    case emplace x => exact absurd rfl (he x)
    case observe =>
      split at hst <;> try contradiction
      obtain ⟨o', -, rfl⟩ := Option.map_eq_some_iff.mp hst
      cases ht
    all_goals
      repeat' split at hst
      all_goals try contradiction
      all_goals
        obtain rfl := Option.some.inj hst
        simp_all [Producer.preparing]
  | consumer e =>
    cases consumerMove_of_step hst with
    | point | destroyAt | storeTail => exact ht

/-- A step of the producer that leaves it preparing changes nothing else. -/
theorem shared_of_preparing {e : ProducerEvent T} (hst : step c s (.producer e) = some t)
    (ht : t.producer.preparing = true) : t.shared = s.shared := by
  cases producerMove_of_step hst with
  | point => rfl
  | constructAt | storeHead => cases ht

/-- **A constructor that throws leaves no trace.** No step of an `emplace` that ends in an exception
changes the contents or the counters. -/
theorem shared_of_throw {s₀ s₁ s₂ s₃ : State T} {x : T} {mid : List (Event T)}
    (hcall : step c s₀ (.producer (.emplace x)) = some s₁)
    (hmid : exec (step c) s₁ mid = some s₂) (hsame : ∀ y, .producer (.emplace y) ∉ mid)
    (hthrow : step c s₂ (.producer .constructThrows) = some s₃) :
    s₁.shared = s₀.shared ∧ s₃.shared = s₂.shared ∧
      ∀ pre e post m m', mid = pre ++ .producer e :: post → exec (step c) s₁ pre = some m →
        step c m (.producer e) = some m' → m'.shared = m.shared := by
  have hpreparing : s₂.producer.preparing = true ∧ s₃.shared = s₂.shared := by
    simp only [step, producerStep] at hthrow
    split at hthrow <;> try contradiction
    next hp =>
      split at hthrow <;> try contradiction
      obtain rfl := Option.some.inj hthrow
      exact ⟨by rw [hp]; rfl, rfl⟩
  refine ⟨?_, hpreparing.2, ?_⟩
  · simp only [step, producerStep] at hcall
    split at hcall <;> try contradiction
    obtain rfl := Option.some.inj hcall
    rfl
  · rintro pre e post m m' rfl hpre hst
    refine shared_of_preparing hst ?_
    obtain ⟨m₁, hm₁, hrest⟩ := exec_append_eq_some.mp hmid
    obtain rfl : m = m₁ := Option.some.inj (hpre.symm.trans hm₁)
    obtain ⟨m₂, hm₂, hpost⟩ := exec_cons_eq_some.mp hrest
    obtain rfl : m' = m₂ := Option.some.inj (hst.symm.trans hm₂)
    -- a producer that is not preparing after the step could not be at the exception
    by_contra hnot
    refine exec_invariant_of_mem (P := fun s : State T ↦ ¬s.producer.preparing = true) ?_ hnot
      hpost hpreparing.1
    intro s a ha t hs hst' ht
    refine hs (preparing_of_step (fun y hy ↦ hsame y ?_) hst' ht)
    rw [← hy]
    exact List.mem_append_right _ (List.mem_cons_of_mem _ ha)

end Throw

/-! ## The main result -/

section Quiescent

variable {s : State T}

/-- Between operations the wrapped counters are apart by the number of elements. -/
theorem Inv.toNat_head_sub_tail (h : Inv c s) :
    (s.mHead - s.mTail).toNat = s.accepted.length - s.delivered.length := by
  have hsize := c.size_le
  have hbound := h.bound
  rw [h.head_eq, h.tail_eq, ← UInt64.ofNat_sub h.length_le, UInt64.toNat_ofNat',
    Nat.mod_eq_of_lt (by omega)]

theorem Inv.holds_of_idle (h : Inv c s) (hp : s.producer = .idle) (hq : s.consumer = .idle) :
    Holds c s.mStorage s.accepted s.delivered.length s.accepted.length := by
  have hholds := h.holds
  rw [hp, hq] at hholds
  simpa only [Producer.pending, Consumer.taken, List.append_nil, List.length_nil,
    Nat.add_zero] using hholds

/-- The live slots between operations. -/
theorem Inv.isSome_iff (h : Inv c s) (hp : s.producer = .idle) (hq : s.consumer = .idle)
    (j : UInt64) :
    (s.mStorage j).isSome = true ↔
      ∃ k < (s.mHead - s.mTail).toNat, c.slot (s.mTail + UInt64.ofNat k) = j := by
  have hholds := h.holds_of_idle hp hq
  have hslot : ∀ k, s.mTail + UInt64.ofNat k = UInt64.ofNat (s.delivered.length + k) := fun k ↦ by
    rw [h.tail_eq, UInt64.ofNat_add]
  simp only [hslot, h.toNat_head_sub_tail]
  constructor
  · intro hlive
    by_contra hno
    have hraw := hholds.outside j fun i hlo hhi heq ↦
      hno ⟨i - s.delivered.length, by omega, by rw [Nat.add_sub_of_le hlo]; exact heq⟩
    rw [hraw] at hlive
    cases hlive
  · rintro ⟨k, hk, rfl⟩
    rw [hholds.inside _ (Nat.le_add_right _ _) (by omega), List.getElem?_eq_getElem (by omega)]
    rfl

/-- The indices between tail and head have distinct slots. -/
theorem Inv.slot_injOn (h : Inv c s) {k k' : ℕ} (hk : k < (s.mHead - s.mTail).toNat)
    (hk' : k' < (s.mHead - s.mTail).toNat)
    (heq : c.slot (s.mTail + UInt64.ofNat k) = c.slot (s.mTail + UInt64.ofNat k')) : k = k' := by
  have hbound := h.bound
  rw [h.toNat_head_sub_tail] at hk hk'
  rw [h.tail_eq, ← UInt64.ofNat_add, ← UInt64.ofNat_add] at heq
  have := c.slot_injOn (by omega) (by omega) heq
  omega

/-- The slot that `construct_at` is about to be applied to is raw. -/
theorem Inv.raw_of_emplaceTest (h : Inv c s) {x : T} {head tail : UInt64}
    (hp : s.producer = .emplaceTest x head tail) (hne : head - tail ≠ c.word) :
    s.mStorage (c.slot head) = none := by
  obtain ⟨rfl, hroom⟩ := h.room hp hne
  have hholds := h.holds
  have htaken := h.taken_le
  simp only [hp, Producer.pending, List.append_nil, List.length_nil, Nat.add_zero] at hholds
  refine hholds.outside _ fun i hlo hhi heq ↦ ?_
  have := c.slot_injOn (by omega) (by omega) heq
  omega

/-- The slot that is about to be moved out of is live. -/
theorem Inv.live_of_popTest (h : Inv c s) {tail head : UInt64}
    (hq : s.consumer = .popTest tail head) (hne : head ≠ tail) :
    (s.mStorage (c.slot tail)).isSome = true := by
  obtain ⟨-, hlt, hslot⟩ := h.front hq hne
  rw [hslot, List.getElem?_eq_getElem hlt]
  rfl

/-- The slot that `destroy_at` is about to be applied to is live. -/
theorem Inv.live_of_popDestroy (h : Inv c s) {out : T} {tail : UInt64}
    (hq : s.consumer = .popDestroy out tail) : (s.mStorage (c.slot tail)).isSome = true := by
  have hok := h.consumer_ok
  have hholds := h.holds
  rw [hq] at hok
  simp only [hq, Consumer.taken, Nat.add_zero] at hholds
  obtain ⟨rfl, hout⟩ := hok
  have hlt := (List.getElem?_eq_some_iff.mp hout).1
  rw [h.tail_eq, hholds.inside _ le_rfl (by omega), List.getElem?_append_left hlt, hout]
  rfl

end Quiescent

/-- The destructor of a queue that neither thread is using. -/
theorem Lifetimes.destructor (h : Lifetimes c s) (hp : s.queue.producer = .idle)
    (hq : s.queue.consumer = .idle) :
    ∃ t, s.destructor c = some t ∧ t.constructed = s.constructed ∧
      t.destroyed = List.range t.constructed ∧ ∀ j, t.queue.mStorage j = none := by
  have hstorage := h.inv.holds_of_idle hp hq
  have hobjects := h.objects
  have hconstructed := h.constructed_eq
  have hdestroyed := h.destroyed_eq
  have hbound := h.inv.bound
  have hle := h.inv.length_le
  rw [State.born, State.dead, hp, hq] at hobjects
  rw [State.born, hp] at hconstructed
  rw [State.dead, hq] at hdestroyed
  obtain ⟨n, hn⟩ := Nat.exists_eq_add_of_le hle
  simp only [Producer.pending, Consumer.taken, List.length_nil, Nat.add_zero] at *
  rw [hn] at hstorage hobjects hconstructed
  obtain ⟨t, ht, hsame, hdead, hraw⟩ := destroyLoop_eq_some (by omega) hstorage (by omega)
    hobjects (by omega)
  refine ⟨t, ?_, hsame, ?_, hraw⟩
  · rw [Tracked.destructor, h.inv.tail_eq, h.inv.head_eq, hn]
    exact ht
  · rw [hdead, hsame, hconstructed, hdestroyed, List.range_add, ← List.range'_eq_map_range]

/-- **Element lifetimes.** In every run: `construct_at` is about to be applied to a raw slot only,
and a move-out or `destroy_at` to a live one only; between operations the live slots are those of
the indices from the tail up to the head, which are distinct; and the destructor, run between
operations, ends with every element that was ever constructed destroyed, each one once. No step of
an `emplace` whose constructor throws changes the contents or the counters. -/
theorem element_lifetimes (c : Capacity) :
    (∀ (events : List (Event T)) (q : State T), exec (step c) init events = some q →
      ∃ s : Tracked T, exec (track c) Tracked.init events = some s ∧ s.queue = q ∧
        (∀ x head tail, q.producer = .emplaceTest x head tail → head - tail ≠ c.word →
          q.mStorage (c.slot head) = none) ∧
        (∀ tail head, q.consumer = .popTest tail head → head ≠ tail →
          (q.mStorage (c.slot tail)).isSome = true) ∧
        (∀ out tail, q.consumer = .popDestroy out tail →
          (q.mStorage (c.slot tail)).isSome = true) ∧
        (q.producer = .idle → q.consumer = .idle →
          (∀ j, (q.mStorage j).isSome = true ↔
            ∃ k < (q.mHead - q.mTail).toNat, c.slot (q.mTail + UInt64.ofNat k) = j) ∧
          (∀ k k', k < (q.mHead - q.mTail).toNat → k' < (q.mHead - q.mTail).toNat →
            c.slot (q.mTail + UInt64.ofNat k) = c.slot (q.mTail + UInt64.ofNat k') → k = k') ∧
          ∃ t, s.destructor c = some t ∧ t.constructed = s.constructed ∧
            t.destroyed = List.range t.constructed ∧ ∀ j, t.queue.mStorage j = none)) ∧
    ∀ (s₀ s₁ s₂ s₃ : State T) (x : T) (mid : List (Event T)),
      step c s₀ (.producer (.emplace x)) = some s₁ → exec (step c) s₁ mid = some s₂ →
      (∀ y, .producer (.emplace y) ∉ mid) →
      step c s₂ (.producer .constructThrows) = some s₃ →
      s₁.shared = s₀.shared ∧ s₃.shared = s₂.shared ∧
        ∀ pre e post m m', mid = pre ++ .producer e :: post → exec (step c) s₁ pre = some m →
          step c m (.producer e) = some m' → m'.shared = m.shared := by
  refine ⟨fun events q h ↦ ?_, fun _ _ _ _ _ _ ↦ shared_of_throw⟩
  obtain ⟨s, hs, rfl⟩ := exec_track (s := (Tracked.init : Tracked T)) h
  have hlife := lifetimes_of_exec hs
  have hinv := hlife.inv
  refine ⟨s, hs, rfl, fun _ _ _ ↦ hinv.raw_of_emplaceTest, fun _ _ ↦ hinv.live_of_popTest,
    fun _ _ ↦ hinv.live_of_popDestroy, fun hp hq ↦ ⟨hinv.isSome_iff hp hq, ?_, ?_⟩⟩
  · exact fun _ _ ↦ hinv.slot_injOn
  · exact hlife.destructor hp hq

end SPSCQueue

end FastInAHurry
