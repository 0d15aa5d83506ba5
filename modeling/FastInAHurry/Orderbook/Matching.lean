import FastInAHurry.Orderbook.Book
import Mathlib.Algebra.BigOperators.Group.List.Basic
import Mathlib.Tactic.Linarith

/-!
# What the matching loop does

One iteration of the loop fills the best order completely or exhausts the incoming quantity, so the
whole loop has three shapes: it stops at once, it fills the best order and continues behind it, or
it takes a part of the best order and is finished. `matchLoop_induct` packages the three as an
induction principle; no later proof unfolds the loop.

The two sides of the book differ only in the direction of their comparators. `Order.rank` turns the
level into a number that rises towards the better price on both sides, so that a side is always
sorted by rising rank and two orders of opposite direction match when their ranks sum to at least
zero.
-/

namespace FastInAHurry

open LowerBound

/-- The level, signed so that a better price has a higher rank on either side. -/
def Order.rank (o : Order) : ℤ := if o.isBuy then o.level else -o.level

@[simp] theorem Order.rank_setQty (o : Order) (q : ℤ) : (o.setQty q).rank = o.rank := rfl

namespace Orderbook

theorem isMatch_iff {incoming best : Order} (h : best.isBuy = !incoming.isBuy) :
    isMatch incoming best = true ↔ 0 ≤ incoming.rank + best.rank := by
  cases hb : incoming.isBuy <;> rw [hb] at h <;>
    simp only [isMatch, canMatch, Order.rank, hb, h, Bool.not_true, Bool.not_false,
      Bool.false_eq_true, if_true, if_false, decide_eq_true_eq] <;> omega

/-! ## The shapes of the loop -/

theorem matchLoop_of_not_pos (incoming : Order) (stack : Orders) {r : ℤ} (hr : ¬0 < r) :
    matchLoop incoming stack r = ⟨stack, r, []⟩ := by
  cases stack with
  | nil => rw [matchLoop]
  | cons best rest => rw [matchLoop, if_neg hr]

theorem matchLoop_of_not_isMatch {incoming best : Order} (rest : Orders) (r : ℤ)
    (h : ¬isMatch incoming best = true) :
    matchLoop incoming (best :: rest) r = ⟨best :: rest, r, []⟩ := by
  by_cases hr : 0 < r
  · rw [matchLoop, if_pos hr, if_neg h]
  · exact matchLoop_of_not_pos incoming _ hr

/-- The best order is filled completely and popped. -/
theorem matchLoop_fill {incoming best : Order} (rest : Orders) {r : ℤ} (hr : 0 < r)
    (h : isMatch incoming best = true) (hq : best.qty ≤ r) :
    matchLoop incoming (best :: rest) r
      = (matchLoop incoming rest (r - best.qty)).emit (tradeWith incoming best best.qty) := by
  rw [matchLoop, if_pos hr, if_pos h]
  simp only [min_eq_left hq, Order.setQty_qty, sub_self, if_true]

/-- The incoming quantity is exhausted inside the best order, which stays at the back. -/
theorem matchLoop_part {incoming best : Order} (rest : Orders) {r : ℤ} (hr : 0 < r)
    (h : isMatch incoming best = true) (hq : r < best.qty) :
    matchLoop incoming (best :: rest) r
      = ⟨best.setQty (best.qty - r) :: rest, 0, [tradeWith incoming best r]⟩ := by
  have hne : ¬best.qty - r = 0 := by omega
  rw [matchLoop, if_pos hr, if_pos h]
  simp only [min_eq_right hq.le, Order.setQty_qty, sub_self, if_neg hne]
  -- the order stays at the back, and the loop test fails: nothing remains
  rw [matchLoop_of_not_pos incoming _ (lt_irrefl 0)]
  rfl

/-- **The induction principle of the loop**, one case for each of its shapes. -/
theorem matchLoop_induct (incoming : Order) {motive : Orders → ℤ → Matched → Prop}
    (stop : ∀ stack r, (0 < r → ∀ best ∈ stack.head?, ¬isMatch incoming best = true) →
      motive stack r ⟨stack, r, []⟩)
    (fill : ∀ best rest r, 0 < r → isMatch incoming best = true → best.qty ≤ r →
      motive rest (r - best.qty) (matchLoop incoming rest (r - best.qty)) →
      motive (best :: rest) r
        ((matchLoop incoming rest (r - best.qty)).emit (tradeWith incoming best best.qty)))
    (part : ∀ best rest r, 0 < r → isMatch incoming best = true → r < best.qty →
      motive (best :: rest) r
        ⟨best.setQty (best.qty - r) :: rest, 0, [tradeWith incoming best r]⟩)
    (stack : Orders) (r : ℤ) : motive stack r (matchLoop incoming stack r) := by
  induction stack generalizing r with
  | nil =>
    rw [matchLoop]
    exact stop [] r (by simp)
  | cons best rest ih =>
    by_cases hr : 0 < r
    · by_cases hm : isMatch incoming best = true
      · rcases le_or_gt best.qty r with hq | hq
        · rw [matchLoop_fill rest hr hm hq]
          exact fill best rest r hr hm hq (ih _)
        · rw [matchLoop_part rest hr hm hq]
          exact part best rest r hr hm hq
      · rw [matchLoop_of_not_isMatch rest r hm]
        exact stop _ r (by simpa using fun _ ↦ hm)
    · rw [matchLoop_of_not_pos incoming _ hr]
      exact stop _ r fun h ↦ absurd h hr

/-! ## Quantities -/

/-- The total size of a list of trades. -/
def traded (ts : Trades) : ℤ := (ts.map Trade.size).sum

@[simp] theorem traded_nil : traded [] = 0 := rfl

@[simp] theorem traded_cons (t : Trade) (ts : Trades) : traded (t :: ts) = t.size + traded ts := by
  rw [traded, traded, List.map_cons, List.sum_cons]

theorem traded_append (ts us : Trades) : traded (ts ++ us) = traded ts + traded us := by
  rw [traded, traded, traded, List.map_append, List.sum_append]

/-- The loop's local `remaining` is the incoming quantity less what was traded. -/
theorem matchLoop_remaining (incoming : Order) (stack : Orders) (r : ℤ) :
    (matchLoop incoming stack r).remaining = r - traded (matchLoop incoming stack r).trades := by
  refine matchLoop_induct incoming (motive := fun _ r m ↦ m.remaining = r - traded m.trades)
    ?_ ?_ ?_ stack r
  · intro stack r _
    simp
  · intro best rest r _ _ _ ih
    rw [Matched.emit_remaining, Matched.emit_trades, traded_cons, ih]
    simp only [tradeWith]
    omega
  · intro best rest r _ _ _
    simp [tradeWith]

theorem matchLoop_remaining_nonneg (incoming : Order) (stack : Orders) {r : ℤ} (hr : 0 ≤ r) :
    0 ≤ (matchLoop incoming stack r).remaining := by
  refine matchLoop_induct incoming (motive := fun _ r m ↦ 0 ≤ r → 0 ≤ m.remaining)
    ?_ ?_ ?_ stack r hr
  · exact fun _ _ _ hr ↦ hr
  · intro best rest r _ _ hq ih _
    exact ih (by omega)
  · exact fun _ _ _ _ _ _ _ ↦ le_rfl

end Orderbook

end FastInAHurry
