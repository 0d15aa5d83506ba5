import Mathlib.Data.List.Infix
import FastInAHurry.Queue.MPSCSafety

/-!
# When the multi-producer queue rejects a push

`try_push` returns false when `tail - head >= SIZE`, an unsigned comparison of a tail loaded earlier
with a head loaded later. If in between other producers claimed past the local tail and the consumer
released past it, the difference wraps around and the call is rejected on a queue that was never
full. Apart from that, a rejection is right: at the moment of the head load the queue was full.
-/

namespace FastInAHurry

open RingIndex Runs

namespace MPSCQueue

variable {ι T : Type*} [DecidableEq ι] {c : Capacity} {s t : State ι T} {p : ι}

/-- At some moment of this part of a run, `SIZE` indices were claimed and not yet released. -/
def FullDuring (c : Capacity) (s : State ι T) (mid : List (Event ι T)) : Prop :=
  ∃ pre post m, mid = pre ++ post ∧ exec (step c) s pre = some m ∧ m.mTail - m.mHead = c.word

/-- The producer `p` loads a head that has passed its local tail, by so little that the wrapped
difference passes the full test. -/
def loadsPassedHead (c : Capacity) (p : ι) (s : State ι T) : Event ι T → Bool
  | .producer q .loadHead =>
    match s.producers q with
    | .loadHead _ tail _ => decide (q = p ∧ tail < s.mHead ∧ c.word ≤ tail - s.mHead)
    | _ => false
  | _ => false

/-- A producer comes to the full test by loading the head. -/
theorem claim_of_producerStep {e : ProducerEvent T} (hst : producerStep c s p e = some t) {x : T}
    {tail backoff head : UInt64} (ht : t.producers p = .claim x tail backoff head) :
    e = .loadHead ∧ s.producers p = .loadHead x tail backoff ∧ head = s.mHead := by
  cases e <;> simp only [producerStep] at hst
  case loadHead =>
    split at hst <;> try contradiction
    rename_i y tail' backoff' hp
    obtain rfl := Option.some.inj hst
    rw [setProducer_self] at ht
    obtain ⟨rfl, rfl, rfl, rfl⟩ := Producer.claim.inj ht
    exact ⟨rfl, hp, rfl⟩
  -- every other step of the producer leaves it at another program point
  all_goals
    repeat' split at hst
    all_goals try contradiction
    all_goals
      obtain rfl := Option.some.inj hst
      simp only [setProducer_self, reduceCtorEq] at ht

theorem claim_of_step {e : Event ι T} (hst : step c s e = some t) {x : T}
    {tail backoff head : UInt64} (ht : t.producers p = .claim x tail backoff head) :
    s.producers p = .claim x tail backoff head ∨
      e = .producer p .loadHead ∧ s.producers p = .loadHead x tail backoff ∧ head = s.mHead := by
  cases e with
  | producer q e =>
    by_cases hq : q = p
    · obtain rfl := hq
      obtain ⟨rfl, hload⟩ := claim_of_producerStep hst ht
      exact Or.inr ⟨rfl, hload⟩
    · left
      rw [← ht]
      cases producerMove_of_step hst <;> exact (setProducer_of_ne (Ne.symm hq)).symm
  | consumer e =>
    left
    rw [← ht]
    cases consumerMove_of_step hst <;> rfl

omit [DecidableEq ι] in
/-- A head load that leads to a rejection, and has not passed the local tail, sees a full queue. -/
theorem Inv.full_of_loadHead (h : Inv c s) {x : T} {tail backoff : UInt64}
    (hp : s.producers p = .loadHead x tail backoff) (hfull : c.word ≤ tail - s.mHead)
    (hload : ¬tail < s.mHead) : s.mTail - s.mHead = c.word := by
  have hok := h.producer_ok p
  rw [hp] at hok
  obtain ⟨j, hj, rfl⟩ := hok
  have hle := h.popped_prefix.length_le
  have hbound := h.bound
  have hshort := h.short
  rw [UInt64.lt_iff_toNat_lt, h.toNat_counters.1, UInt64.toNat_ofNat',
    Nat.mod_eq_of_lt (by omega)] at hload
  rw [h.head_eq, c.word_le_ofNat_sub_iff (by omega) (by omega)] at hfull
  rw [h.head_eq, h.tail_eq, c.ofNat_sub_eq_word_iff hle hbound]
  omega

/-- The claims made so far bound the claims of every earlier state. -/
theorem claims_length_le_of_exec {as : List (Event ι T)} (h : exec (step c) s as = some t) :
    s.claims.length ≤ t.claims.length :=
  exec_invariant (P := fun u ↦ s.claims.length ≤ u.claims.length)
    (fun _ _ _ hu hst ↦ hu.trans (claims_prefix_of_step hst).length_le) le_rfl h

/-- **A rejected push saw a full queue**, in every run with fewer than `2 ^ 64` claims in which no
head load of the call finds a head that has passed its local tail. -/
theorem returnFalse_fullDuring (c : Capacity) {s₀ s₁ s₂ s₃ : State ι T} {p : ι} {x : T}
    {mid : List (Event ι T)} (hr : Reachable (step c) init s₀)
    (hcall : step c s₀ (.producer p (.tryPush x)) = some s₁)
    (hmid : exec (step c) s₁ mid = some s₂) (hret : step c s₂ (.producer p .returnFalse) = some s₃)
    (hshort : s₂.claims.length < 2 ^ 64)
    (hload : Along (step c) (fun s e ↦ loadsPassedHead c p s e = false) s₁ mid) :
    FullDuring c s₁ mid := by
  have hr₁ : Reachable (step c) init s₁ := hr.tail hcall
  simp only [step, producerStep] at hcall hret
  split at hcall <;> try contradiction
  obtain rfl := Option.some.inj hcall
  split at hret <;> try contradiction
  split at hret <;> try contradiction
  rename_i y tail backoff head h₂ hfull
  -- the step that brings the call to a full test it is going to fail
  obtain ⟨pre, e, post, m, m', rfl, hpre, hst, hpost, hm, x', tail', backoff', head', hm',
      hfull'⟩ := exec_crossing (P := fun s : State ι T ↦ ∃ x tail backoff head,
        s.producers p = .claim x tail backoff head ∧ c.word ≤ tail - head)
      (by simp [setProducer_self]) ⟨y, tail, backoff, head, h₂, hfull⟩ hmid
  refine ⟨pre, e :: post, m, rfl, hpre, ?_⟩
  have hlen : m.claims.length < 2 ^ 64 :=
    ((claims_prefix_of_step hst).length_le.trans (claims_length_le_of_exec hpost)).trans_lt hshort
  have hinv := inv_of_reachable (hr₁.exec hpre) hlen
  rcases claim_of_step hst hm' with hsame | ⟨rfl, hp, rfl⟩
  · exact absurd ⟨x', tail', backoff', head', hsame, hfull'⟩ hm
  · refine hinv.full_of_loadHead hp hfull' fun hlt ↦ ?_
    have hC := hload.at hpre
    rw [loadsPassedHead, hp] at hC
    exact of_decide_eq_false hC ⟨rfl, hlt, hfull'⟩

/-- With a single slot, taken by the first producer, the second one is rejected. -/
theorem returnFalse_fullDuring_one_slot : ∃ s : State Bool ℕ,
    Reachable (step ⟨0, by decide⟩) init s ∧
      FullDuring ⟨0, by decide⟩ s [.producer false .loadTail, .producer false .loadHead] := by
  have hr : Reachable (step ⟨0, by decide⟩) (init : State Bool ℕ) _ :=
    ⟨[.producer true (.tryPush 7), .producer true .loadTail, .producer true .loadHead,
      .producer true (.compareExchange false)], rfl⟩
  refine ⟨_, hr.tail (a := .producer false (.tryPush 8)) rfl, ?_⟩
  exact returnFalse_fullDuring (p := false) (x := 8) _ hr rfl rfl rfl (by decide +kernel)
    (by decide +kernel)

/-- The first call has loaded its tail; then a value of the other producer goes in and out again,
and the call loads a head beyond its tail. -/
def overtaken : List (Event Bool ℕ) :=
  [.producer false .loadTail, .producer true (.tryPush 7), .producer true .loadTail,
    .producer true .loadHead, .producer true (.compareExchange false),
    .producer true .constructAt, .producer true .storeReady, .consumer .tryPop,
    .consumer .loadHead, .consumer .loadReady, .consumer .moveOut, .consumer .destroyAt,
    .consumer .clearReady, .consumer .storeHead, .producer false .loadHead]

/-- A call that is rejected although the queue, with room for four, never held more than one. -/
theorem returnFalse_not_fullDuring : ∃ s₁ s₂ s₃ : State Bool ℕ,
    step ⟨2, by decide⟩ init (.producer false (.tryPush 9)) = some s₁ ∧
    exec (step ⟨2, by decide⟩) s₁ overtaken = some s₂ ∧
    (∀ y, .producer false (.tryPush y) ∉ overtaken) ∧
    step ⟨2, by decide⟩ s₂ (.producer false .returnFalse) = some s₃ ∧
    s₃.claims.length < 2 ^ 64 ∧ ¬FullDuring ⟨2, by decide⟩ s₁ overtaken := by
  refine ⟨_, _, _, rfl, rfl, by simp [overtaken], rfl, by decide +kernel, ?_⟩
  rintro ⟨pre, post, m, hmid, hpre, hfull⟩
  have hnever : ∀ pre ∈ overtaken.inits, ∀ m ∈ exec (step ⟨2, by decide⟩)
      ((init : State Bool ℕ).setProducer false (.loadTail 9)) pre,
      m.mTail - m.mHead ≠ Capacity.word ⟨2, by decide⟩ := by
    decide +kernel
  exact hnever pre ((List.mem_inits pre overtaken).mpr ⟨post, hmid.symm⟩) m hpre hfull

end MPSCQueue

end FastInAHurry
