import FastInAHurry.Utils.SPSCLogger

/-!
# The batches of the consumer

A closer look at `drain` of `utils/SPSCLogger.hh`. In the model of the threads the records between
a `pop` and a `_flush` are a list; here they are what the source has, an array of fixed size and a
counter that two places reset. What concurrent producers add shows in nothing but the results of
the calls of `pop`, so a run is a list of these, each with the queue it was made on.

Without the array the loops would write each record as it is popped. The two are compared step by
step: what has been flushed and what waits in the array are together what that loop has written,
and between two calls of `pop` there is room in the array.
-/

namespace FastInAHurry

open Runs

namespace SPSCLogger

variable {ι R : Type*}

/-! ## The array and its counter -/

/-- `out_list` and `list_tracker`, with the records of each call of `_flush` so far. -/
structure OutList (R : Type*) where
  outList : Vector R outListSize
  listTracker : ℕ
  flushes : List (List R)

namespace OutList

/-- What `_flush(out_list, list_tracker)` reads. -/
def pending (o : OutList R) : List R := o.outList.toList.take o.listTracker

/-- `out_list[list_tracker++] = rec`; `none` where the array has no such element. -/
def store (o : OutList R) (rec : R) : Option (OutList R) :=
  if h : o.listTracker < outListSize then
    some { o with outList := o.outList.set o.listTracker rec, listTracker := o.listTracker + 1 }
  else none

/-- `_flush(out_list, list_tracker), list_tracker = 0`. -/
def flush (o : OutList R) : OutList R :=
  { o with flushes := o.flushes ++ [o.pending], listTracker := 0 }

/-- All that was stored, in order. -/
def stored (o : OutList R) : List R := o.flushes.flatten ++ o.pending

theorem stored_flush (o : OutList R) : o.flush.stored = o.stored := by
  rw [stored, stored, flush, pending, pending, List.flatten_append, List.flatten_singleton,
    List.take_zero, List.append_nil]

theorem pending_of_zero {o : OutList R} (h : o.listTracker = 0) : o.pending = [] := by
  rw [pending, h, List.take_zero]

theorem length_pending {o : OutList R} (h : o.listTracker ≤ outListSize) :
    o.pending.length = o.listTracker := by
  rw [pending, List.length_take, Vector.length_toList, Nat.min_eq_left h]

/-- A record is stored behind those that wait. -/
theorem store_spec {o : OutList R} (h : o.listTracker < outListSize) (rec : R) :
    ∃ o', o.store rec = some o' ∧ o'.listTracker = o.listTracker + 1 ∧
      o'.flushes = o.flushes ∧ o'.pending = o.pending ++ [rec] := by
  refine ⟨_, dif_pos h, rfl, rfl, ?_⟩
  have hlen : o.listTracker < o.outList.toList.length := by rwa [Vector.length_toList]
  rw [pending, pending, Vector.toList_set, List.take_add_one, List.take_set_of_le le_rfl,
    List.getElem?_set_self hlen]
  rfl

end OutList

/-! ## The loops -/

/-- The queues that are not done, the one whose turn it is first. -/
structure Drain (ι R : Type*) where
  queues : List ι
  out : OutList R

def Drain.start (qSnapshot : List ι) (outList : Vector R outListSize) : Drain ι R where
  queues := qSnapshot
  out := { outList, listTracker := 0, flushes := [] }

/-- A call of `pop` on a queue, its result, and what is done before the next one. -/
def drainStep [DecidableEq ι] (d : Drain ι R) : ι × Option R → Option (Drain ι R)
  | (i, result) =>
    match d.queues with
    | [] => none
    | q :: rest =>
      if i = q then
        match result with
        | some rec =>
          (d.out.store rec).map fun o ↦
            { d with out := if outListSize ≤ o.listTracker then o.flush else o }
        | none =>
          some { queues := rest, out := if 0 < d.out.listTracker then d.out.flush else d.out }
      else none

/-! ## Writing each record as it is popped -/

structure Unbatched (ι R : Type*) where
  queues : List ι
  written : List R

/-- The same loops with `_flush(&rec, 1)` in place of the array. -/
def unbatchedStep [DecidableEq ι] (u : Unbatched ι R) : ι × Option R → Option (Unbatched ι R)
  | (i, result) =>
    match u.queues with
    | [] => none
    | q :: rest =>
      if i = q then
        match result with
        | some rec => some { u with written := u.written ++ [rec] }
        | none => some { u with queues := rest }
      else none

theorem outListSize_pos : 0 < outListSize := by decide

/-- The two loops between the same two calls of `pop`. -/
structure Batches (d : Drain ι R) (u : Unbatched ι R) : Prop where
  queues : d.queues = u.queues
  stored : d.out.stored = u.written
  room : d.out.listTracker < outListSize
  sizes : ∀ recs ∈ d.out.flushes, 0 < recs.length ∧ recs.length ≤ outListSize
  done : d.queues = [] → d.out.listTracker = 0

theorem sizes_flush {o : OutList R} (hpos : 0 < o.listTracker) (hle : o.listTracker ≤ outListSize)
    (h : ∀ recs ∈ o.flushes, 0 < recs.length ∧ recs.length ≤ outListSize) :
    ∀ recs ∈ o.flush.flushes, 0 < recs.length ∧ recs.length ≤ outListSize := by
  intro recs hrecs
  rcases List.mem_append.mp hrecs with hrecs | hrecs
  · exact h recs hrecs
  · obtain rfl := List.mem_singleton.mp hrecs
    rw [OutList.length_pending hle]
    exact ⟨hpos, hle⟩

theorem Batches.start (qSnapshot : List ι) (outList : Vector R outListSize) :
    Batches (Drain.start qSnapshot outList) ⟨qSnapshot, []⟩ where
  queues := rfl
  stored := rfl
  room := outListSize_pos
  sizes := by
    intro recs hrecs
    cases hrecs
  done := fun _ ↦ rfl

/-- **A record is popped.** It is stored, as the last of those that wait or of those that are
flushed because the array is full. -/
theorem Batches.pop {d : Drain ι R} {u : Unbatched ι R} (h : Batches d u) {q : ι} {rest : List ι}
    (hq : d.queues = q :: rest) (rec : R) :
    ∃ o, d.out.store rec = some o ∧
      Batches { d with out := if outListSize ≤ o.listTracker then o.flush else o }
        { u with written := u.written ++ [rec] } := by
  obtain ⟨o, hstore, htracker, hflushes, hpending⟩ := OutList.store_spec h.room rec
  have hroom := h.room
  have hstored : o.stored = u.written ++ [rec] := by
    rw [OutList.stored, hflushes, hpending, ← List.append_assoc, ← h.stored]
    rfl
  have hsizes : ∀ recs ∈ o.flushes, 0 < recs.length ∧ recs.length ≤ outListSize := by
    rw [hflushes]
    exact h.sizes
  have hne : d.queues ≠ [] := by
    rw [hq]
    exact List.cons_ne_nil q rest
  refine ⟨o, hstore, ?_⟩
  by_cases hfull : outListSize ≤ o.listTracker
  · rw [if_pos hfull]
    exact ⟨h.queues, (OutList.stored_flush o).trans hstored, outListSize_pos,
      sizes_flush (by omega) (by omega) hsizes, fun _ ↦ rfl⟩
  · rw [if_neg hfull]
    exact ⟨h.queues, hstored, Nat.lt_of_not_le hfull, hsizes, fun hnil ↦ absurd hnil hne⟩

/-- **A queue is empty.** What waits is flushed before the next queue. -/
theorem Batches.next {d : Drain ι R} {u : Unbatched ι R} (h : Batches d u) (rest : List ι) :
    Batches { queues := rest, out := if 0 < d.out.listTracker then d.out.flush else d.out }
      { u with queues := rest } := by
  have hroom := h.room
  by_cases hpos : 0 < d.out.listTracker
  · rw [if_pos hpos]
    exact ⟨rfl, (OutList.stored_flush d.out).trans h.stored, outListSize_pos,
      sizes_flush hpos hroom.le h.sizes, fun _ ↦ rfl⟩
  · rw [if_neg hpos]
    exact ⟨rfl, h.stored, hroom, h.sizes, fun _ ↦ Nat.eq_zero_of_not_pos hpos⟩

variable [DecidableEq ι]

theorem Batches.step (d : Drain ι R) (u : Unbatched ι R) (e : ι × Option R) (h : Batches d u) :
    Option.Rel Batches (drainStep d e) (unbatchedStep u e) := by
  obtain ⟨i, result⟩ := e
  rw [drainStep, unbatchedStep, ← h.queues]
  cases hq : d.queues with
  | nil => exact Option.Rel.none
  | cons q rest =>
    dsimp only
    by_cases hi : i = q
    · rw [if_pos hi, if_pos hi]
      cases result with
      | some rec =>
        obtain ⟨o, hstore, hbatches⟩ := h.pop hq rec
        dsimp only
        rw [hstore]
        rw [← h.queues, hq] at hbatches
        exact Option.Rel.some hbatches
      | none => exact Option.Rel.some (h.next rest)
    · rw [if_neg hi, if_neg hi]
      exact Option.Rel.none

/-! ## A whole drain -/

/-- The calls of `pop` when each queue of a list gives the records of the list beside it, and is
then empty. -/
def popsOf : List ι → List (List R) → List (ι × Option R)
  | q :: queues, recs :: perQueue =>
    recs.map (fun rec ↦ (q, some rec)) ++ (q, none) :: popsOf queues perQueue
  | _, _ => []

theorem exec_unbatched_records (q : ι) (rest : List ι) (w recs : List R)
    (pops : List (ι × Option R)) :
    exec unbatchedStep ⟨q :: rest, w⟩ (recs.map (fun rec ↦ (q, some rec)) ++ pops)
      = exec unbatchedStep ⟨q :: rest, w ++ recs⟩ pops := by
  induction recs generalizing w with
  | nil => rw [List.map_nil, List.nil_append, List.append_nil]
  | cons rec recs ih =>
    have hstep : unbatchedStep ⟨q :: rest, w⟩ (q, some rec) = some ⟨q :: rest, w ++ [rec]⟩ :=
      if_pos rfl
    rw [List.map_cons, List.cons_append, exec, hstep, Option.bind_some, ih, List.append_assoc,
      List.singleton_append]

/-- **Queue by queue.** The loops have gone through the queues just when each has given some
records and was then empty. -/
theorem exec_unbatched_eq_some_iff {queues : List ι} {w w' : List R}
    {pops : List (ι × Option R)} :
    exec unbatchedStep ⟨queues, w⟩ pops = some ⟨[], w'⟩ ↔
      ∃ perQueue : List (List R), perQueue.length = queues.length ∧
        pops = popsOf queues perQueue ∧ w' = w ++ perQueue.flatten := by
  constructor
  · intro h
    induction pops generalizing queues w with
    | nil =>
      obtain ⟨rfl, rfl⟩ : queues = [] ∧ w = w' := by simpa using h
      exact ⟨[], rfl, rfl, (List.append_nil w).symm⟩
    | cons e pops ih =>
      obtain ⟨i, result⟩ := e
      obtain ⟨u, hstep, hrest⟩ := exec_cons_eq_some.mp h
      cases queues with
      | nil => cases hstep
      | cons q rest =>
        obtain ⟨rfl, hstep⟩ := Option.ite_none_right_eq_some.mp hstep
        cases result with
        | some rec =>
          obtain rfl := Option.some.inj hstep
          obtain ⟨perQueue, hlen, rfl, rfl⟩ := ih hrest
          cases perQueue with
          | nil => cases hlen
          | cons recs perQueue =>
            exact ⟨(rec :: recs) :: perQueue, hlen, rfl, by simp⟩
        | none =>
          obtain rfl := Option.some.inj hstep
          obtain ⟨perQueue, hlen, rfl, rfl⟩ := ih hrest
          exact ⟨[] :: perQueue, congrArg Nat.succ hlen, rfl, rfl⟩
  · rintro ⟨perQueue, hlen, rfl, rfl⟩
    induction queues generalizing w perQueue with
    | nil =>
      obtain rfl := List.length_eq_zero_iff.mp hlen
      rw [List.flatten_nil, List.append_nil]
      rfl
    | cons q rest ih =>
      cases perQueue with
      | nil => cases hlen
      | cons recs perQueue =>
        have hnext : unbatchedStep ⟨q :: rest, w ++ recs⟩ (q, none) = some ⟨rest, w ++ recs⟩ :=
          if_pos rfl
        rw [popsOf, exec_unbatched_records, exec, hnext, Option.bind_some,
          ih perQueue (Nat.succ.inj hlen), List.flatten_cons, List.append_assoc]

theorem written_of_step {u v : Unbatched ι R} {i : ι} {result : Option R}
    (h : unbatchedStep u (i, result) = some v) : v.written = u.written ++ result.toList := by
  rw [unbatchedStep] at h
  cases hq : u.queues with
  | nil =>
    rw [hq] at h
    cases h
  | cons q rest =>
    rw [hq] at h
    obtain ⟨-, hstep⟩ := Option.ite_none_right_eq_some.mp h
    cases result with
    | some rec => rw [← Option.some.inj hstep, Option.toList_some]
    | none => rw [← Option.some.inj hstep, Option.toList_none, List.append_nil]

/-- What is written are the records popped. -/
theorem written_of_exec {u v : Unbatched ι R} {pops : List (ι × Option R)}
    (h : exec unbatchedStep u pops = some v) :
    v.written = u.written ++ pops.filterMap Prod.snd := by
  induction pops generalizing u with
  | nil =>
    obtain rfl : u = v := Option.some.inj h
    rw [List.filterMap_nil, List.append_nil]
  | cons e pops ih =>
    obtain ⟨i, result⟩ := e
    obtain ⟨t, hstep, hrest⟩ := exec_cons_eq_some.mp h
    rw [ih hrest, written_of_step hstep]
    cases result <;> simp

/-- **Batching loses nothing and keeps the order.** Whatever the array held before, the loops go on
with the same results of `pop` with which they would without it, so there is always room where a
record is stored. What has been flushed and what waits are the records popped, in order, in batches
of at most the size of the array. Any records that the queues of the snapshot give can come, and
when all queues are done, they have been flushed, queue by queue, and nothing waits. -/
theorem drain_eq_unbatched (qSnapshot : List ι) (outList : Vector R outListSize)
    (pops : List (ι × Option R)) :
    (exec drainStep (.start qSnapshot outList) pops).isSome
        = (exec unbatchedStep ⟨qSnapshot, []⟩ pops).isSome ∧
      (∀ perQueue : List (List R), perQueue.length = qSnapshot.length →
        ∃ d, exec drainStep (.start qSnapshot outList) (popsOf qSnapshot perQueue) = some d ∧
          d.queues = []) ∧
      ∀ d, exec drainStep (.start qSnapshot outList) pops = some d →
        d.out.listTracker < outListSize ∧
          d.out.flushes.flatten ++ d.out.pending = pops.filterMap Prod.snd ∧
          (∀ recs ∈ d.out.flushes, 0 < recs.length ∧ recs.length ≤ outListSize) ∧
          (d.queues = [] → d.out.listTracker = 0 ∧
            d.out.flushes.flatten = pops.filterMap Prod.snd ∧
            ∃ perQueue : List (List R), perQueue.length = qSnapshot.length ∧
              pops = popsOf qSnapshot perQueue ∧ d.out.flushes.flatten = perQueue.flatten) := by
  have hrel : ∀ pops, Option.Rel Batches (exec drainStep (.start qSnapshot outList) pops)
      (exec unbatchedStep ⟨qSnapshot, []⟩ pops) :=
    exec_rel Batches.step (Batches.start qSnapshot outList)
  refine ⟨?_, fun perQueue hlen ↦ ?_, fun d hd ↦ ?_⟩
  · have hpops := hrel pops
    generalize exec drainStep (.start qSnapshot outList) pops = x at hpops ⊢
    generalize exec unbatchedStep ⟨qSnapshot, []⟩ pops = y at hpops ⊢
    cases hpops <;> rfl
  · have hpops := hrel (popsOf qSnapshot perQueue)
    rw [exec_unbatched_eq_some_iff.mpr ⟨perQueue, hlen, rfl, rfl⟩] at hpops
    generalize exec drainStep (.start qSnapshot outList) _ = x at hpops ⊢
    cases hpops with
    | some h => exact ⟨_, rfl, h.queues⟩
  · have hpops := hrel pops
    rw [hd] at hpops
    generalize hu : exec unbatchedStep ⟨qSnapshot, []⟩ pops = y at hpops
    cases hpops with
    | @some _ u h =>
      have hwritten : u.written = pops.filterMap Prod.snd := written_of_exec hu
      have hstored : d.out.flushes.flatten ++ d.out.pending = u.written := h.stored
      refine ⟨h.room, hstored.trans hwritten, h.sizes, fun hdone ↦ ?_⟩
      have hzero : d.out.listTracker = 0 := h.done hdone
      rw [OutList.pending_of_zero hzero, List.append_nil] at hstored
      have hend : exec unbatchedStep ⟨qSnapshot, []⟩ pops = some ⟨[], u.written⟩ := by
        rw [hu, ← hdone, h.queues]
      obtain ⟨perQueue, hlen, hperQueue, hflatten⟩ := exec_unbatched_eq_some_iff.mp hend
      exact ⟨hzero, hstored.trans hwritten, perQueue, hlen, hperQueue, hstored.trans hflatten⟩

/- Eleven records of one queue, with none in the next: a full batch, and a batch of one. -/
example : ((exec drainStep (.start [0, 1] (Vector.replicate 10 7))
    (popsOf [0, 1] [List.range 11, []])).map fun d ↦ d.out.flushes) =
      some [List.range 10, [10]] := by decide

/-! ## The list in the model of the threads -/

/-- The list of the model of the threads, and what it has flushed. -/
structure OutList.Represents (o : OutList R) (s : State ι R) : Prop where
  pending : s.outList.map Prod.snd = o.pending
  flushed : s.flushed.map Prod.snd = o.flushes.flatten

variable {o : OutList R} {s : State ι R}

omit [DecidableEq ι] in
theorem OutList.Represents.length (h : o.Represents s) (hle : o.listTracker ≤ outListSize) :
    s.outList.length = o.listTracker := by
  rw [← OutList.length_pending hle, ← h.pending, List.length_map]

omit [DecidableEq ι] in
/-- Storing in the array is appending to the list, and they are full together. -/
theorem OutList.Represents.store (h : o.Represents s) (hroom : o.listTracker < outListSize)
    (final : Bool) (i : ι) (rest : List ι) (rec : R) :
    ∃ o', o.store rec = some o' ∧ o'.Represents (s.store final i rest rec) ∧
      (outListSize ≤ o'.listTracker ↔ outListSize ≤ s.outList.length + 1) := by
  obtain ⟨o', hstore, htracker, hflushes, hpending⟩ := OutList.store_spec hroom rec
  refine ⟨o', hstore, ⟨?_, ?_⟩, ?_⟩
  · rw [hpending, ← h.pending, State.store, List.map_append]
    rfl
  · rw [hflushes, ← h.flushed]
    rfl
  · rw [htracker, h.length hroom.le]

omit [DecidableEq ι] in
theorem OutList.Represents.flush (h : o.Represents s) (c : Consumer ι) :
    o.flush.Represents (s.flush c) := by
  refine ⟨(OutList.pending_of_zero rfl).symm, ?_⟩
  rw [State.flush, List.map_append, h.flushed, h.pending, OutList.flush, List.flatten_append,
    List.flatten_singleton]

end SPSCLogger

end FastInAHurry
