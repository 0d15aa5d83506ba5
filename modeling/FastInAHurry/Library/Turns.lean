import Mathlib.Data.Fintype.EquivFin
import Mathlib.Data.List.Basic
import Mathlib.Order.Nat

/-!
# Threads that take turns

A program in which the next access of each thread is determined by the state is a function
`turn : σ → ι → σ`: the state after the thread `t` has taken a turn, which is the state itself when
`t` has finished or has to wait. A schedule says whose turn it is, so quantifying over schedules
quantifies over every interleaving of the program.

What the program achieves under every schedule that keeps giving turns to everybody is shown with a
measure of the work left, `Progress`. No turn adds to the work. As long as work is left, some thread
is *helpful*: it comes closer to doing a piece of it with each of its turns, and the turns of the
others neither take this away from it nor push it back. No thread in particular has to make the
progress, and a thread may be helpful at one moment and not at another.
-/

namespace Turns

variable {σ ι : Type*} {turn : σ → ι → σ}

/-- Take turns in the order of a schedule. -/
def play (turn : σ → ι → σ) (s : σ) (schedule : List ι) : σ := schedule.foldl turn s

@[simp] theorem play_nil (s : σ) : play turn s [] = s := rfl

@[simp] theorem play_cons (s : σ) (t : ι) (schedule : List ι) :
    play turn s (t :: schedule) = play turn (turn s t) schedule := rfl

theorem play_append (s : σ) (as bs : List ι) :
    play turn s (as ++ bs) = play turn (play turn s as) bs := List.foldl_append

/-- **Induction along a schedule.** What every turn preserves, a schedule preserves. -/
theorem play_invariant {I : σ → Prop} (hturn : ∀ s t, I s → I (turn s t)) {s : σ} (hs : I s)
    (schedule : List ι) : I (play turn s schedule) := by
  induction schedule generalizing s with
  | nil => exact hs
  | cons t schedule ih => exact ih (hturn s t hs)

/-- The first `n` turns of an endless schedule. -/
def firstTurns (schedule : ℕ → ι) (n : ℕ) : List ι := (List.range n).map schedule

theorem firstTurns_add (schedule : ℕ → ι) (n k : ℕ) :
    firstTurns schedule (n + k) =
      firstTurns schedule n ++ firstTurns (fun i ↦ schedule (n + i)) k := by
  rw [firstTurns, List.range_add, List.map_append, List.map_map]
  rfl

/-- Schedules over different kinds of turns that do the same. -/
theorem play_firstTurns_congr {κ : Type*} {turn' : σ → κ → σ} {schedule : ℕ → ι}
    {schedule' : ℕ → κ} (h : ∀ s n, turn s (schedule n) = turn' s (schedule' n)) (s : σ) (k : ℕ) :
    play turn s (firstTurns schedule k) = play turn' s (firstTurns schedule' k) := by
  simp only [play, firstTurns, List.foldl_map, h]

/-- Every thread gets a turn again and again. -/
def Fair (schedule : ℕ → ι) : Prop := ∀ t n, ∃ k, n ≤ k ∧ schedule k = t

/-- What is left of a fair schedule is fair. -/
theorem Fair.drop {schedule : ℕ → ι} (h : Fair schedule) (n : ℕ) :
    Fair fun i ↦ schedule (n + i) := by
  intro t m
  obtain ⟨k, hk, hkt⟩ := h t (n + m)
  refine ⟨k - n, Nat.le_sub_of_add_le' hk, ?_⟩
  simpa only [Nat.add_sub_cancel' ((Nat.le_add_right n m).trans hk)] using hkt

/-- A fair schedule may be preceded by any turns. -/
theorem Fair.after {schedule : ℕ → ι} (h : Fair schedule) (before : List ι) :
    ∃ schedule' : ℕ → ι, Fair schedule' ∧
      ∀ k, firstTurns schedule' (before.length + k) = before ++ firstTurns schedule k := by
  let schedule' : ℕ → ι := fun k ↦ (before[k]?).getD (schedule (k - before.length))
  have hlater : ∀ k, schedule' (before.length + k) = schedule k := fun k ↦ by
    simp only [schedule', List.getElem?_eq_none (Nat.le_add_right _ _), Option.getD_none,
      Nat.add_sub_cancel_left]
  refine ⟨schedule', fun t n ↦ ?_, fun k ↦ ?_⟩
  · obtain ⟨k, hk, hkt⟩ := h t n
    exact ⟨before.length + k, hk.trans (Nat.le_add_left _ _), (hlater k).trans hkt⟩
  · have hbefore : firstTurns schedule' before.length = before := by
      refine List.ext_getElem (by simp [firstTurns]) fun i _ hi ↦ ?_
      simp [firstTurns, schedule', List.getElem?_eq_getElem hi]
    rw [firstTurns_add, hbefore, funext hlater]

/-- A part of a schedule in which every thread gets more than `k` turns. -/
def Round [DecidableEq ι] (k : ℕ) (schedule : List ι) : Prop := ∀ t, k < schedule.count t

theorem Fair.exists_count [DecidableEq ι] {schedule : ℕ → ι} (h : Fair schedule) (t : ι)
    (k n : ℕ) : ∃ l, k ≤ (firstTurns (fun i ↦ schedule (n + i)) l).count t := by
  induction k with
  | zero => exact ⟨0, Nat.zero_le _⟩
  | succ k ih =>
    obtain ⟨l, hl⟩ := ih
    obtain ⟨j, hj, hjt⟩ := h t (n + l)
    -- the next turn of `t` after the ones already counted
    have hmem : t ∈ firstTurns (fun i ↦ schedule (n + (l + i))) (j - (n + l) + 1) := by
      refine List.mem_map.mpr ⟨j - (n + l), List.mem_range.mpr (Nat.lt_succ_self _), ?_⟩
      show schedule (n + (l + (j - (n + l)))) = t
      rw [← Nat.add_assoc, Nat.add_sub_cancel' hj, hjt]
    refine ⟨l + (j - (n + l) + 1), ?_⟩
    rw [firstTurns_add, List.count_append]
    exact Nat.add_le_add hl (List.count_pos_iff.mpr hmem)

/-- A certificate of progress, from the states that satisfy `I`: the measure `m` counts the work
left, and `d s t` how many turns the thread `t` is away from doing some of it, if it is helpful. -/
structure Progress (turn : σ → ι → σ) (I : σ → Prop) (m : σ → ℕ) (Helpful : σ → ι → Prop)
    (d : σ → ι → ℕ) : Prop where
  inv : ∀ s t, I s → I (turn s t)
  mono : ∀ s t, I s → m (turn s t) ≤ m s
  exists_helpful : ∀ s, I s → m s ≠ 0 → ∃ t, Helpful s t
  stays : ∀ s t u, I s → Helpful s t → m (turn s u) = m s → Helpful (turn s u) t
  closer : ∀ s t, I s → Helpful s t → m (turn s t) = m s → d (turn s t) t < d s t
  keeps : ∀ s t u, I s → Helpful s t → u ≠ t → m (turn s u) = m s → d (turn s u) t ≤ d s t

namespace Progress

variable {I : σ → Prop} {m : σ → ℕ} {Helpful : σ → ι → Prop} {d : σ → ι → ℕ}

theorem play_le (h : Progress turn I m Helpful d) {s : σ} (hs : I s) (schedule : List ι) :
    m (play turn s schedule) ≤ m s := by
  induction schedule generalizing s with
  | nil => exact le_rfl
  | cons t schedule ih => exact (ih (h.inv s t hs)).trans (h.mono s t hs)

variable [DecidableEq ι]

/-- **A helpful thread gets some work done** within the turns it is away from it, by itself or
because somebody else does some before. -/
theorem play_lt (h : Progress turn I m Helpful d) {s : σ} (hs : I s) {t : ι} (ht : Helpful s t)
    {schedule : List ι} (hcount : d s t < schedule.count t) :
    m (play turn s schedule) < m s := by
  induction schedule generalizing s with
  | nil => exact absurd hcount (Nat.not_lt_zero _)
  | cons u schedule ih =>
    have hu := h.inv s u hs
    rw [play_cons]
    rcases (h.mono s u hs).lt_or_eq with hlt | heq
    · exact (h.play_le hu schedule).trans_lt hlt
    · rw [← heq]
      refine ih hu (h.stays s t u hs ht heq) ?_
      by_cases hut : u = t
      · subst hut
        rw [List.count_cons_self] at hcount
        have := h.closer s u hs ht heq
        omega
      · rw [List.count_cons_of_ne hut] at hcount
        exact (h.keeps s t u hs ht hut heq).trans_lt hcount

/-- Every round does some of the work. -/
theorem play_rounds (h : Progress turn I m Helpful d) {k : ℕ}
    (hk : ∀ s t, I s → Helpful s t → d s t ≤ k) {s : σ} (hs : I s) {rounds : List (List ι)}
    (hrounds : ∀ r ∈ rounds, Round k r) :
    m (play turn s rounds.flatten) ≤ m s - rounds.length := by
  induction rounds generalizing s with
  | nil => exact le_rfl
  | cons r rounds ih =>
    rw [List.flatten_cons, play_append, List.length_cons]
    have hr := play_invariant h.inv hs r
    have hrest := ih hr fun r' hr' ↦ hrounds r' (List.mem_cons_of_mem r hr')
    rcases Nat.eq_zero_or_pos (m s) with hzero | hpos
    · have := h.play_le hs r
      omega
    · obtain ⟨t, ht⟩ := h.exists_helpful s hs hpos.ne'
      have hlt := h.play_lt hs ht ((hk s t hs ht).trans_lt (hrounds r List.mem_cons_self t))
      omega

/-- **All the work gets done** under a fair schedule, and no new work comes up. -/
theorem fair (h : Progress turn I m Helpful d) {s : σ} (hs : I s) {schedule : ℕ → ι}
    (hfair : Fair schedule) : ∃ n, ∀ k, n ≤ k → m (play turn s (firstTurns schedule k)) = 0 := by
  have hI : ∀ n, I (play turn s (firstTurns schedule n)) := fun n ↦ play_invariant h.inv hs _
  have hadd : ∀ n k, play turn s (firstTurns schedule (n + k)) =
      play turn (play turn s (firstTurns schedule n)) (firstTurns (fun i ↦ schedule (n + i)) k) :=
    fun n k ↦ by rw [firstTurns_add, play_append]
  suffices hex : ∃ n, m (play turn s (firstTurns schedule n)) = 0 by
    obtain ⟨n, hn⟩ := hex
    refine ⟨n, fun k hk ↦ Nat.le_zero.mp ?_⟩
    obtain ⟨j, rfl⟩ := Nat.exists_eq_add_of_le hk
    rw [hadd, ← hn]
    exact h.play_le (hI n) _
  -- induction on the work left at some moment
  suffices hind : ∀ w n, m (play turn s (firstTurns schedule n)) ≤ w →
      ∃ n, m (play turn s (firstTurns schedule n)) = 0 from hind _ 0 le_rfl
  intro w
  induction w with
  | zero => exact fun n hn ↦ ⟨n, Nat.le_zero.mp hn⟩
  | succ w ih =>
    intro n hn
    by_cases hzero : m (play turn s (firstTurns schedule n)) = 0
    · exact ⟨n, hzero⟩
    · obtain ⟨t, ht⟩ := h.exists_helpful _ (hI n) hzero
      obtain ⟨l, hl⟩ := hfair.exists_count t (d _ t + 1) n
      have hlt := h.play_lt (hI n) ht hl
      refine ih (n + l) ?_
      rw [hadd]
      omega

end Progress

end Turns
