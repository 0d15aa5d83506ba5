import FastInAHurry.Library.RefCount
import FastInAHurry.Queue.MPSCSafety

/-!
# Element lifetimes in the multi-producer queue

The elements constructed in slots are numbered, and a run keeps which of them lives in which slot
and which were destroyed, as for the single-producer queue. Only `try_pop` destroys an element: the
class has no destructor of its own, its slots are arrays of bytes, and what is still in them when
the queue goes is gone without being destroyed.

A construction onto a slot that is still occupied would end an element in the same way. Below
`2 ^ 64` claims there is none, so all that is lost is what is still queued; the exact condition is
stated for every run.
-/

namespace FastInAHurry

open RefCount RingIndex Runs

namespace MPSCQueue

variable {ι T : Type*} [DecidableEq ι] {c : Capacity}

/-- A queue with the lives of its elements. -/
structure Tracked (ι T : Type*) where
  queue : State ι T
  /-- The number of the element that lives in a slot. -/
  objects : UInt64 → Option ℕ
  constructed : ℕ
  /-- The elements destroyed, in order. -/
  destroyed : List ℕ

omit [DecidableEq ι] in
def Tracked.init : Tracked ι T where
  queue := MPSCQueue.init
  objects := fun _ ↦ none
  constructed := 0
  destroyed := []

omit [DecidableEq ι] in
/-- Record a step to `q`. -/
def Tracked.note (c : Capacity) (s : Tracked ι T) (q : State ι T) : Event ι T → Tracked ι T
  | .producer p .constructAt =>
    match s.queue.producers p with
    | .construct _ tail =>
      { queue := q
        objects := Function.update s.objects (c.slot tail) (some s.constructed)
        constructed := s.constructed + 1
        destroyed := s.destroyed }
    | _ => { s with queue := q }
  | .consumer .destroyAt =>
    match s.queue.consumer with
    | .destroy _ head =>
      { queue := q
        objects := Function.update s.objects (c.slot head) none
        constructed := s.constructed
        destroyed := s.destroyed ++ (s.objects (c.slot head)).toList }
    | _ => { s with queue := q }
  | _ => { s with queue := q }

/-- One event, recorded. -/
def track (c : Capacity) (s : Tracked ι T) (e : Event ι T) : Option (Tracked ι T) :=
  (step c s.queue e).map fun q ↦ s.note c q e

omit [DecidableEq ι] in
/-- The implicit destructor: the bytes of the slots go, and no element is destroyed. -/
def Tracked.destructor (s : Tracked ι T) : Tracked ι T :=
  { s with
    queue := { s.queue with data := fun _ ↦ none }
    objects := fun _ ↦ none }

/-- The event does not construct onto an element. -/
def OntoRaw (c : Capacity) (s : State ι T) (e : Event ι T) : Prop :=
  ∀ p x tail, e = .producer p .constructAt → s.producers p = .construct x tail →
    s.data (c.slot tail) = none

/-- The event does not destroy raw storage. -/
def DestroysLive (c : Capacity) (s : State ι T) (e : Event ι T) : Prop :=
  ∀ out head, e = .consumer .destroyAt → s.consumer = .destroy out head →
    (s.data (c.slot head)).isSome = true

/-! ## What a step records -/

/-- Everything a recorded step can do: construct, destroy, or neither. -/
inductive TrackMove (c : Capacity) (s : Tracked ι T) (e : Event ι T) : Tracked ι T → Prop
  | quiet {q : State ι T} (hdata : q.data = s.queue.data) (hraw : OntoRaw c s.queue e) :
      TrackMove c s e { s with queue := q }
  | constructAt {p : ι} {x : T} {tail : UInt64} {q : State ι T}
      (hp : s.queue.producers p = .construct x tail) (he : e = .producer p .constructAt)
      (hdata : q.data = Function.update s.queue.data (c.slot tail) (some (tail, x))) :
      TrackMove c s e
        { queue := q
          objects := Function.update s.objects (c.slot tail) (some s.constructed)
          constructed := s.constructed + 1
          destroyed := s.destroyed }
  | destroyAt {out : T} {head : UInt64} {q : State ι T}
      (hq : s.queue.consumer = .destroy out head) (he : e = .consumer .destroyAt)
      (hdata : q.data = Function.update s.queue.data (c.slot head) none) :
      TrackMove c s e
        { queue := q
          objects := Function.update s.objects (c.slot head) none
          constructed := s.constructed
          destroyed := s.destroyed ++ (s.objects (c.slot head)).toList }

variable {s t : Tracked ι T}

theorem trackMove_of_track {e : Event ι T} (hst : track c s e = some t) : TrackMove c s e t := by
  obtain ⟨q, hq, rfl⟩ := Option.map_eq_some_iff.mp hst
  cases e with
  | producer p e =>
    by_cases he : e = .constructAt
    · subst he
      simp only [step, producerStep] at hq
      split at hq <;> try contradiction
      next x tail hp =>
        obtain rfl := Option.some.inj hq
        simp only [Tracked.note, hp]
        exact .constructAt hp rfl rfl
    · have hnote : s.note c q (.producer p e) = { s with queue := q } := by
        cases e <;> first | rfl | exact absurd rfl he
      rw [hnote]
      refine .quiet ?_ fun p' x tail heq _ ↦ ?_
      · cases e <;> simp only [step, producerStep] at hq
        case constructAt => exact absurd rfl he
        all_goals
          repeat' split at hq
          all_goals try contradiction
          all_goals
            obtain rfl := Option.some.inj hq
            rfl
      · obtain ⟨-, rfl⟩ := Event.producer.inj heq
        exact absurd rfl he
  | consumer e =>
    by_cases he : e = .destroyAt
    · subst he
      simp only [step, consumerStep] at hq
      split at hq <;> try contradiction
      next out head hc =>
        obtain rfl := Option.some.inj hq
        simp only [Tracked.note, hc]
        exact .destroyAt hc rfl rfl
    · have hnote : s.note c q (.consumer e) = { s with queue := q } := by
        cases e <;> first | rfl | exact absurd rfl he
      rw [hnote]
      refine .quiet ?_ fun p x tail heq _ ↦ ?_
      · cases e <;> simp only [step, consumerStep] at hq
        case destroyAt => exact absurd rfl he
        case moveOut =>
          split at hq <;> try contradiction
          obtain ⟨elem, -, rfl⟩ := Option.map_eq_some_iff.mp hq
          rfl
        all_goals
          repeat' split at hq
          all_goals try contradiction
          all_goals
            obtain rfl := Option.some.inj hq
            rfl
      · cases heq

/-! ## Elements that are accounted for -/

/-- Every element lives in one slot or was destroyed once, and a slot holds an element where one
lives. -/
structure Lives (c : Capacity) (s : Tracked ι T) : Prop where
  named : Named s.constructed (fun i ↦ ∃ j, s.objects j = some i) s.destroyed
  unique : ∀ j k i, s.objects j = some i → s.objects k = some i → j = k
  same : ∀ j, s.objects j = none ↔ s.queue.data j = none
  slots : ∀ j, s.objects j ≠ none → ∃ idx, c.slot idx = j

omit [DecidableEq ι] in
theorem Lives.init : Lives c (Tracked.init : Tracked ι T) where
  named := by
    refine ⟨?_, List.nodup_nil, fun b ↦ ?_⟩
    · rintro b ⟨j, hj⟩
      cases hj
    · simp [Tracked.init]
  unique _ _ _ hj := nomatch hj
  same _ := iff_of_true rfl rfl
  slots _ hj := absurd rfl hj

omit [DecidableEq ι] in
theorem same_update {objects : UInt64 → Option ℕ} {data : UInt64 → Option (UInt64 × T)}
    (h : ∀ j, objects j = none ↔ data j = none) {k : UInt64} {o : Option ℕ}
    {d : Option (UInt64 × T)} (hk : o = none ↔ d = none) (j : UInt64) :
    Function.update objects k o j = none ↔ Function.update data k d j = none := by
  rcases eq_or_ne j k with rfl | hne
  · rw [Function.update_self, Function.update_self]
    exact hk
  · rw [Function.update_of_ne hne, Function.update_of_ne hne]
    exact h j

omit [DecidableEq ι] in
theorem Lives.constructAt (h : Lives c s) {idx : UInt64} {elem : UInt64 × T} {q : State ι T}
    (hraw : s.queue.data (c.slot idx) = none)
    (hdata : q.data = Function.update s.queue.data (c.slot idx) (some elem)) :
    Lives c
      { queue := q
        objects := Function.update s.objects (c.slot idx) (some s.constructed)
        constructed := s.constructed + 1
        destroyed := s.destroyed } := by
  have hempty := (h.same (c.slot idx)).mpr hraw
  have hnew : ∀ j, s.objects j ≠ some s.constructed := fun j hj ↦
    Nat.lt_irrefl _ (h.named.lt _ ⟨j, hj⟩)
  refine ⟨h.named.create fun b ↦ ⟨?_, ?_⟩, fun j k i hj hk ↦ ?_, ?_, fun j hj ↦ ?_⟩
  · rintro ⟨j, hj⟩
    rcases update_eq_some_cases hj with ⟨-, hb⟩ | ⟨-, hj⟩
    · exact Or.inl (Option.some.inj hb).symm
    · exact Or.inr ⟨j, hj⟩
  · rintro (rfl | ⟨j, hj⟩)
    · exact ⟨c.slot idx, Function.update_self ..⟩
    · refine ⟨j, (Function.update_of_ne ?_ ..).trans hj⟩
      rintro rfl
      cases hempty.symm.trans hj
  · rcases update_eq_some_cases hj with ⟨rfl, hi⟩ | ⟨-, hj⟩
    · rcases update_eq_some_cases hk with ⟨rfl, -⟩ | ⟨-, hk⟩
      · rfl
      · exact absurd (hk.trans hi.symm) (hnew k)
    · rcases update_eq_some_cases hk with ⟨rfl, hi⟩ | ⟨-, hk⟩
      · exact absurd (hj.trans hi.symm) (hnew j)
      · exact h.unique j k i hj hk
  · rw [hdata]
    exact same_update h.same (iff_of_false (by simp) (by simp))
  · rcases eq_or_ne j (c.slot idx) with rfl | hne
    · exact ⟨idx, rfl⟩
    · exact h.slots j fun hnone ↦ hj ((Function.update_of_ne hne ..).trans hnone)

omit [DecidableEq ι] in
theorem Lives.destroyAt (h : Lives c s) {idx : UInt64} {i : ℕ} {q : State ι T}
    (hi : s.objects (c.slot idx) = some i)
    (hdata : q.data = Function.update s.queue.data (c.slot idx) none) :
    Lives c
      { queue := q
        objects := Function.update s.objects (c.slot idx) none
        constructed := s.constructed
        destroyed := s.destroyed ++ [i] } := by
  have hold : ∀ j b, Function.update s.objects (c.slot idx) none j = some b →
      j ≠ c.slot idx ∧ s.objects j = some b := by
    intro j b hj
    rcases update_eq_some_cases hj with ⟨-, hb⟩ | ⟨hne, hj⟩
    · cases hb
    · exact ⟨hne, hj⟩
  refine ⟨h.named.free ⟨c.slot idx, hi⟩ fun b ↦ ⟨?_, ?_⟩, fun j k b hj hk ↦ ?_, ?_,
    fun j hj ↦ ?_⟩
  · rintro ⟨j, hj⟩
    obtain ⟨hne, hj'⟩ := hold j b hj
    refine ⟨?_, j, hj'⟩
    rintro rfl
    exact hne (h.unique j (c.slot idx) b hj' hi)
  · rintro ⟨hne, j, hj⟩
    refine ⟨j, (Function.update_of_ne ?_ ..).trans hj⟩
    rintro rfl
    exact hne (Option.some.inj (hj.symm.trans hi))
  · exact h.unique j k b (hold j b hj).2 (hold k b hk).2
  · rw [hdata]
    exact same_update h.same (iff_of_true rfl rfl)
  · obtain ⟨b, hb⟩ := Option.ne_none_iff_exists'.mp hj
    exact h.slots j (by rw [(hold j b hb).2]; simp)

omit [DecidableEq ι] in
/-- What the destructor leaves to be destroyed. -/
theorem Lives.destroyed_once_iff (h : Lives c s) :
    (∀ i < s.constructed, s.destroyed.count i = 1) ↔ ∀ j, s.queue.data j = none := by
  constructor
  · intro honce j
    rw [← h.same]
    by_contra hne
    obtain ⟨i, hi⟩ := Option.ne_none_iff_exists'.mp hne
    have hcount := honce i (h.named.lt i ⟨j, hi⟩)
    have hmem : i ∈ s.destroyed := List.count_pos_iff.mp (by omega)
    exact ((h.named.mem_iff i).mp hmem).2 ⟨j, hi⟩
  · intro hraw i hi
    refine List.count_eq_one_of_mem h.named.nodup ((h.named.mem_iff i).mpr ⟨hi, ?_⟩)
    rintro ⟨j, hj⟩
    rw [(h.same j).mpr (hraw j)] at hj
    cases hj

/-! ## Elements that are lost -/

/-- The element lives nowhere and was not destroyed. -/
def Lost (s : Tracked ι T) (i : ℕ) : Prop :=
  i < s.constructed ∧ i ∉ s.destroyed ∧ ∀ j, s.objects j ≠ some i

/-- What is lost stays lost. -/
theorem Lost.track {i : ℕ} (h : Lost s i) {e : Event ι T} (hst : track c s e = some t) :
    Lost t i := by
  obtain ⟨hlt, hmem, hno⟩ := h
  cases trackMove_of_track hst with
  | quiet => exact ⟨hlt, hmem, hno⟩
  | constructAt =>
    refine ⟨Nat.lt_succ_of_lt hlt, hmem, fun j hj ↦ ?_⟩
    rcases update_eq_some_cases hj with ⟨-, hi⟩ | ⟨-, hj⟩
    · exact hlt.ne' (Option.some.inj hi)
    · exact hno j hj
  | @destroyAt out head =>
    refine ⟨hlt, fun hi ↦ ?_, fun j hj ↦ ?_⟩
    · rcases List.mem_append.mp hi with hi | hi
      · exact hmem hi
      · exact hno _ (Option.mem_toList.mp hi)
    · rcases update_eq_some_cases hj with ⟨-, hi⟩ | ⟨-, hj⟩
      · cases hi
      · exact hno j hj

omit [DecidableEq ι] in
theorem Lost.not_once {i : ℕ} (h : Lost s i) : ¬∀ i < s.constructed, s.destroyed.count i = 1 := by
  intro honce
  have hcount := honce i h.1
  rw [List.count_eq_zero_of_not_mem h.2.1] at hcount
  cases hcount

/-! ## Runs -/

omit [DecidableEq ι] in
/-- The consumer is about to destroy an element only. -/
def AtDestroy (c : Capacity) (s : State ι T) : Prop :=
  ∀ out head, s.consumer = .destroy out head → (s.data (c.slot head)).isSome = true

theorem AtDestroy.step {s t : State ι T} (h : AtDestroy c s) {e : Event ι T}
    (hst : MPSCQueue.step c s e = some t) : AtDestroy c t := by
  intro out head hq
  cases e with
  | producer p e =>
    cases producerMove_of_step hst with
    | point | claim | storeReady => exact h out head hq
    | @constructAt x tail hp =>
      change (Function.update s.data (c.slot tail) (some (tail, x)) (c.slot head)).isSome = true
      rcases eq_or_ne (c.slot head) (c.slot tail) with heq | hne
      · rw [heq, Function.update_self]
        rfl
      · rw [Function.update_of_ne hne]
        exact h out head hq
  | consumer e =>
    cases consumerMove_of_step hst with
    | point hn =>
      subst hq
      generalize s.consumer = q at hn
      cases hn with
      | moveOut hdata =>
        rw [hdata]
        rfl
    | destroyAt | clearReady | storeHead => cases hq

theorem queue_of_track {e : Event ι T} (hst : track c s e = some t) :
    step c s.queue e = some t.queue := by
  obtain ⟨q, hq, rfl⟩ := Option.map_eq_some_iff.mp hst
  have hqueue : (s.note c q e).queue = q := by
    unfold Tracked.note
    split <;> try split
    all_goals rfl
  rw [hqueue, hq]

/-- A construction onto raw storage, and every other step, keeps the elements accounted for. -/
theorem Lives.track (h : Lives c s) (hat : AtDestroy c s.queue) {e : Event ι T}
    (hraw : OntoRaw c s.queue e) (hst : MPSCQueue.track c s e = some t) : Lives c t := by
  cases trackMove_of_track hst with
  | quiet hdata =>
    refine ⟨h.named, h.unique, fun j ↦ ?_, h.slots⟩
    rw [hdata]
    exact h.same j
  | constructAt hp he hdata => exact h.constructAt (hraw _ _ _ he hp) hdata
  | @destroyAt out head q hq he hdata =>
    obtain ⟨i, hi⟩ : ∃ i, s.objects (c.slot head) = some i := by
      rw [← Option.ne_none_iff_exists', Ne, h.same, ← Ne, Option.ne_none_iff_isSome]
      exact hat out head hq
    rw [hi]
    exact h.destroyAt hi hdata

/-- A construction onto an element loses it. -/
theorem Lives.lost_of_not_ontoRaw (h : Lives c s) {e : Event ι T} (hraw : ¬OntoRaw c s.queue e)
    (hst : MPSCQueue.track c s e = some t) : ∃ i, Lost t i := by
  cases trackMove_of_track hst with
  | quiet _ hraw' => exact absurd hraw' hraw
  | destroyAt _ he => exact absurd (fun _ _ _ he' _ ↦ nomatch he.symm.trans he') hraw
  | @constructAt p x tail q hp he hdata =>
    have hlive : s.objects (c.slot tail) ≠ none := by
      intro hnone
      refine hraw fun p' x' tail' he' hp' ↦ ?_
      obtain ⟨rfl, -⟩ := Event.producer.inj (he.symm.trans he')
      obtain ⟨-, rfl⟩ := Producer.construct.inj (hp.symm.trans hp')
      exact (h.same _).mp hnone
    obtain ⟨i, hi⟩ := Option.ne_none_iff_exists'.mp hlive
    have hlt := h.named.lt i ⟨_, hi⟩
    refine ⟨i, Nat.lt_succ_of_lt hlt, fun hmem ↦ ?_, fun j hj ↦ ?_⟩
    · exact ((h.named.mem_iff i).mp hmem).2 ⟨_, hi⟩
    · rcases update_eq_some_cases hj with ⟨-, heq⟩ | ⟨hne, hj⟩
      · exact hlt.ne' (Option.some.inj heq)
      · exact hne (h.unique j _ i hj hi)

/-- At the end of a run the elements are accounted for if none was constructed onto another, and one
is lost otherwise. -/
theorem lives_or_lost {events : List (Event ι T)} (hs : Lives c s) (hat : AtDestroy c s.queue)
    (hrun : exec (track c) s events = some t) :
    (Along (track c) (fun s e ↦ OntoRaw c s.queue e) s events ∧ Lives c t) ∨
      (¬Along (track c) (fun s e ↦ OntoRaw c s.queue e) s events ∧ ∃ i, Lost t i) := by
  -- the first construction onto an element decides; what it loses stays lost
  induction events generalizing s with
  | nil =>
    obtain rfl : s = t := Option.some.inj hrun
    exact Or.inl ⟨trivial, hs⟩
  | cons e events ih =>
    obtain ⟨u, hsu, hut⟩ := exec_cons_eq_some.mp hrun
    by_cases hraw : OntoRaw c s.queue e
    · rcases ih (hs.track hat hraw hsu) (hat.step (queue_of_track hsu)) hut with
        ⟨halong, hlives⟩ | ⟨hnot, hlost⟩
      · refine Or.inl ⟨⟨hraw, fun v hv ↦ ?_⟩, hlives⟩
        obtain rfl := Option.some.inj (hsu.symm.trans hv)
        exact halong
      · exact Or.inr ⟨fun h ↦ hnot (h.2 u hsu), hlost⟩
    · obtain ⟨i, hi⟩ := hs.lost_of_not_ontoRaw hraw hsu
      refine Or.inr ⟨fun h ↦ hraw h.1, i, ?_⟩
      exact exec_invariant (P := fun s ↦ Lost s i) (fun _ _ _ h hst ↦ h.track hst) hi hut

/-! ## Runs without a full lap of claims -/

omit [DecidableEq ι] in
theorem Inv.ontoRaw {s : State ι T} (h : Inv c s) (e : Event ι T) : OntoRaw c s e := by
  intro p x tail _ hp
  have hok := h.producer_ok p
  rw [hp] at hok
  obtain ⟨i, ⟨-, rfl, -⟩, hcell⟩ := hok
  exact congrArg Prod.fst hcell

theorem along_ontoRaw {events : List (Event ι T)} (hs : Inv c s.queue)
    (hrun : exec (track c) s events = some t) (hshort : t.queue.claims.length < 2 ^ 64) :
    Along (track c) (fun s e ↦ OntoRaw c s.queue e) s events := by
  induction events generalizing s with
  | nil => trivial
  | cons e events ih =>
    refine ⟨hs.ontoRaw e, fun u hsu ↦ ?_⟩
    obtain ⟨u', hsu', hut⟩ := exec_cons_eq_some.mp hrun
    obtain rfl := Option.some.inj (hsu.symm.trans hsu')
    -- the claims only grow, so the bound at the end holds all along
    have hclaims : u.queue.claims.length ≤ t.queue.claims.length :=
      exec_invariant (P := fun v ↦ u.queue.claims.length ≤ v.queue.claims.length)
        (fun v a w hv hst ↦ hv.trans (claims_prefix_of_step (queue_of_track hst)).length_le)
        le_rfl hut
    exact ih (hs.step (queue_of_track hsu) (hclaims.trans_lt hshort)) hut

omit [DecidableEq ι] in
/-- Between operations the slots are raw exactly if the queue is empty. -/
theorem Inv.raw_iff {s : State ι T} (h : Inv c s) (hidle : ∀ p, s.producers p = .idle)
    (hcons : s.consumer = .idle) (hslots : ∀ j, s.data j ≠ none → ∃ idx, c.slot idx = j) :
    (∀ j, s.data j = none) ↔ s.popped = s.claims := by
  constructor
  · intro hraw
    refine h.popped_prefix.eq_of_length_le (Nat.not_lt.mp fun hlt ↦ ?_)
    -- otherwise the first element not popped is published, in a slot that is not raw
    have hfree : s.Free s.popped.length := fun p ↦ by
      rw [hidle p]
      exact nofun
    have hcell := h.published _ _ (by rw [hcons]; exact le_rfl) (List.getElem?_eq_getElem hlt) hfree
    cases (hraw _).symm.trans (congrArg Prod.fst hcell)
  · intro heq j
    by_contra hne
    obtain ⟨idx, rfl⟩ := hslots j hne
    -- every slot belongs to one of the next indices, none of which is claimed
    obtain ⟨i, hlo, hhi, hslot⟩ := c.exists_slot_eq s.popped.length idx
    have hcell := h.vacant i (by rw [← heq]; exact hlo) hhi
    rw [← hslot] at hne
    exact hne (congrArg Prod.fst hcell)

/-- **Element lifetimes.** In every run that ends with no operation in progress, `destroy_at` is
applied to elements only, and after the destruction of the queue every element that was constructed
has been destroyed exactly once if and only if no element was constructed onto another and no slot
still held one. With fewer than `2 ^ 64` accepted pushes this is so exactly if the queue was empty:
all that was accepted had been popped. -/
theorem destroyed_once_iff_empty (c : Capacity) (events : List (Event ι T)) (s : Tracked ι T)
    (hrun : exec (track c) Tracked.init events = some s)
    (hidle : ∀ p, s.queue.producers p = .idle) (hcons : s.queue.consumer = .idle) :
    Along (track c) (fun s e ↦ DestroysLive c s.queue e) Tracked.init events ∧
    ((∀ i < s.destructor.constructed, s.destructor.destroyed.count i = 1) ↔
      Along (track c) (fun s e ↦ OntoRaw c s.queue e) Tracked.init events ∧
        ∀ j, s.queue.data j = none) ∧
    (s.queue.claims.length < 2 ^ 64 →
      ((∀ i < s.destructor.constructed, s.destructor.destroyed.count i = 1) ↔
        s.queue.popped = s.queue.claims)) := by
  have hat : AtDestroy c (Tracked.init : Tracked ι T).queue := fun _ _ h ↦ nomatch h
  refine ⟨?_, ?_, fun hshort ↦ ?_⟩
  · refine Along.of_invariant (P := fun s ↦ AtDestroy c s.queue)
      (fun s e t hs hst ↦ hs.step (queue_of_track hst)) (fun s e hs out head _ hq ↦ ?_) hat events
    exact hs out head hq
  · rcases lives_or_lost Lives.init hat hrun with ⟨halong, hlives⟩ | ⟨hnot, i, hlost⟩
    · exact hlives.destroyed_once_iff.trans (and_iff_right halong).symm
    · exact iff_of_false hlost.not_once fun h ↦ hnot h.1
  · have halong := along_ontoRaw (s := Tracked.init) Inv.init hrun hshort
    have hreach : Reachable (step c) MPSCQueue.init s.queue :=
      exec_invariant (P := fun s ↦ Reachable (step c) MPSCQueue.init s.queue)
        (fun _ _ _ hs hst ↦ hs.tail (queue_of_track hst)) (Reachable.refl _) hrun
    rcases lives_or_lost Lives.init hat hrun with ⟨-, hlives⟩ | ⟨hnot, -⟩
    · refine hlives.destroyed_once_iff.trans ((inv_of_reachable hreach hshort).raw_iff hidle hcons
        fun j hj ↦ hlives.slots j ?_)
      rwa [Ne, hlives.same]
    · exact absurd halong hnot

/-- One element pushed and popped is destroyed once. -/
theorem destroyed_once_push_pop : ∃ s : Tracked Unit ℕ, s.destructor.constructed = 1 ∧
    s.destructor.destroyed.count 0 = 1 := by
  have hrun : ((exec (track ⟨1, by decide⟩) (Tracked.init : Tracked Unit ℕ)
      [.producer () (.tryPush 7), .producer () .loadTail, .producer () .loadHead,
        .producer () (.compareExchange false), .producer () .constructAt, .producer () .storeReady,
        .consumer .tryPop, .consumer .loadHead, .consumer .loadReady, .consumer .moveOut,
        .consumer .destroyAt, .consumer .clearReady, .consumer .storeHead]).map fun s ↦
      (s.queue.claims, s.queue.popped, s.queue.producers (), s.queue.consumer, s.constructed)) =
      some ([7], [7], .idle, .idle, 1) := by
    decide +kernel
  obtain ⟨s, hs, hfields⟩ := Option.map_eq_some_iff.mp hrun
  obtain ⟨hclaims, hpopped, hp, hq, hone⟩ : s.queue.claims = [7] ∧ s.queue.popped = [7] ∧
      s.queue.producers () = .idle ∧ s.queue.consumer = .idle ∧ s.constructed = 1 := by
    simpa using hfields
  obtain ⟨-, -, hempty⟩ := destroyed_once_iff_empty _ _ s hs (fun _ ↦ hp) hq
  refine ⟨s, hone, (hempty (by rw [hclaims]; decide)).mpr (by rw [hpopped, hclaims]) 0 ?_⟩
  exact hone ▸ Nat.one_pos

/-- One element pushed and not popped is not destroyed. -/
theorem queued_not_destroyed : ∃ s : Tracked Unit ℕ,
    exec (track ⟨1, by decide⟩) Tracked.init
      [.producer () (.tryPush 7), .producer () .loadTail, .producer () .loadHead,
        .producer () (.compareExchange false), .producer () .constructAt,
        .producer () .storeReady] = some s ∧
    (∀ p, s.queue.producers p = .idle) ∧ s.queue.consumer = .idle ∧
    0 < s.destructor.constructed ∧ s.destructor.destroyed.count 0 ≠ 1 := by
  have hrun : ((exec (track ⟨1, by decide⟩) (Tracked.init : Tracked Unit ℕ)
      [.producer () (.tryPush 7), .producer () .loadTail, .producer () .loadHead,
        .producer () (.compareExchange false), .producer () .constructAt,
        .producer () .storeReady]).map fun s ↦
      (s.queue.producers (), s.queue.consumer, s.constructed, s.destroyed)) =
      some (.idle, .idle, 1, []) := by
    decide +kernel
  obtain ⟨s, hs, hfields⟩ := Option.map_eq_some_iff.mp hrun
  obtain ⟨hp, hq, hone, hnone⟩ : s.queue.producers () = .idle ∧ s.queue.consumer = .idle ∧
      s.constructed = 1 ∧ s.destroyed = [] := by simpa using hfields
  refine ⟨s, hs, fun _ ↦ hp, hq, ?_, ?_⟩
  · exact hone ▸ Nat.one_pos
  · have hcount : s.destructor.destroyed.count 0 = 0 := by
      rw [Tracked.destructor, hnone]
      rfl
    rw [hcount]
    exact Nat.zero_ne_one

end MPSCQueue

end FastInAHurry
