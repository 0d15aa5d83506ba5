import FastInAHurry.Orderbook.Conservation

/-!
# Splitting an incoming order

An order and the two halves of it, added one after the other, have the same effect on the book. The
loop of the second half starts from the stack the first half left, at the very order the first half
stopped in, so that the two loops together take from each resting order what one loop takes; where
the first half is exhausted inside a resting order, the two parts of that order add up.

The ids of the incoming orders are read by nothing the loop decides, only by the trades it emits.
That and the splitting are one relation between what three loops leave, `Joins`, with nothing
traded by the first of them in the one case.
-/

namespace FastInAHurry

/-- The order a trade was made against: the seller's of an incoming buy order. -/
def Trade.restingId (t : Trade) : ℕ := if t.aggressorIsBuy then t.orderIdB else t.orderIdA

/-- The size, if the trade was made against the order `k` at the level. -/
def Trade.against (k : ℕ) (level : ℤ) (t : Trade) : ℤ :=
  if t.restingId = k ∧ t.level = level then t.size else 0

namespace Orderbook

/-- The total size traded against the order `k` at the level. -/
def tradedAgainst (k : ℕ) (level : ℤ) (ts : Trades) : ℤ := (ts.map (Trade.against k level)).sum

@[simp] theorem tradedAgainst_nil (k : ℕ) (level : ℤ) : tradedAgainst k level [] = 0 := rfl

@[simp] theorem tradedAgainst_cons (k : ℕ) (level : ℤ) (t : Trade) (ts : Trades) :
    tradedAgainst k level (t :: ts) = t.against k level + tradedAgainst k level ts := by
  rw [tradedAgainst, List.map_cons, List.sum_cons, tradedAgainst]

theorem tradedAgainst_append (k : ℕ) (level : ℤ) (ts us : Trades) :
    tradedAgainst k level (ts ++ us) = tradedAgainst k level ts + tradedAgainst k level us := by
  rw [tradedAgainst, List.map_append, List.sum_append, tradedAgainst, tradedAgainst]

/-! ## Orders of one side and level -/

/-- Orders that differ at most in their id and their quantity. -/
structure Alike (o o' : Order) : Prop where
  level : o'.level = o.level
  isBuy : o'.isBuy = o.isBuy

variable {o o₁ o₂ : Order}

theorem Alike.isMatch (h : Alike o o₁) (best : Order) : isMatch o₁ best = isMatch o best := by
  rw [Orderbook.isMatch, Orderbook.isMatch, canMatch, canMatch, canMatch, canMatch, h.level,
    h.isBuy]

theorem against_tradeWith (o best : Order) (q : ℤ) (k : ℕ) (level : ℤ) :
    (tradeWith o best q).against k level
      = if best.id = k ∧ (if o.isBuy then best.level else o.level) = level then q else 0 := by
  have hid : (tradeWith o best q).restingId = best.id := by
    cases hb : o.isBuy <;> simp [Trade.restingId, tradeWith, hb]
  rw [Trade.against, hid]
  rfl

/-- A trade of two parts of a resting order counts as the trades of the parts. -/
theorem Alike.against_add (h₁ : Alike o o₁) (h₂ : Alike o o₂) (best : Order) (p q r : ℤ) (k : ℕ)
    (level : ℤ) :
    (tradeWith o best (p + q)).against k level
      = (tradeWith o₁ best p).against k level
        + (tradeWith o₂ (best.setQty r) q).against k level := by
  rw [against_tradeWith, against_tradeWith, against_tradeWith, h₁.level, h₁.isBuy, h₂.level,
    h₂.isBuy, Order.setQty_id]
  -- the part that is left has the level of the order it is a part of
  show _ = _ + if best.id = k ∧ (if o.isBuy then best.level else o.level) = level then q else 0
  rw [ite_add_ite, add_zero]

theorem Alike.against_eq (h : Alike o o₁) (best : Order) (q : ℤ) (k : ℕ) (level : ℤ) :
    (tradeWith o best q).against k level = (tradeWith o₁ best q).against k level := by
  rw [against_tradeWith, against_tradeWith, h.level, h.isBuy]

/-! ## Joining two loops -/

/-- What one loop leaves is what a loop and another one after it leave together. -/
structure Matched.Joins (m m₁ m₂ : Matched) : Prop where
  stack : m.stack = m₂.stack
  remaining : m.remaining = m₁.remaining + m₂.remaining
  against : ∀ k level,
    tradedAgainst k level m.trades
      = tradedAgainst k level m₁.trades + tradedAgainst k level m₂.trades

theorem matchLoop_stop {stack : Orders} {r : ℤ}
    (h : 0 < r → ∀ best ∈ stack.head?, ¬isMatch o best = true) :
    matchLoop o stack r = ⟨stack, r, []⟩ := by
  by_cases hr : 0 < r
  · cases stack with
    | nil => rw [matchLoop]
    | cons best rest => exact matchLoop_of_not_isMatch rest r (h hr best rfl)
  · exact matchLoop_of_not_pos o stack hr

/-- The loop does not depend on the id of the incoming order. -/
theorem Alike.joins_self (h : Alike o o₂) (s stack : Orders) (r : ℤ) :
    (matchLoop o stack r).Joins ⟨s, 0, []⟩ (matchLoop o₂ stack r) := by
  refine matchLoop_induct o (motive := fun stack r m ↦ m.Joins ⟨s, 0, []⟩ (matchLoop o₂ stack r))
    ?_ ?_ ?_ stack r
  · intro stack r hstop
    rw [matchLoop_stop fun hr best hbest ↦ by rw [h.isMatch]; exact hstop hr best hbest]
    exact ⟨rfl, (zero_add r).symm, fun _ _ ↦ rfl⟩
  · intro best rest r hr hm hq ih
    rw [matchLoop_fill rest hr (by rw [h.isMatch]; exact hm) hq]
    refine ⟨ih.stack, ih.remaining, fun k level ↦ ?_⟩
    rw [Matched.emit_trades, Matched.emit_trades, tradedAgainst_cons, tradedAgainst_cons,
      ih.against, h.against_eq]
    simp only [tradedAgainst_nil, zero_add]
  · intro best rest r hr hm hq
    rw [matchLoop_part rest hr (by rw [h.isMatch]; exact hm) hq]
    refine ⟨rfl, rfl, fun k level ↦ ?_⟩
    rw [tradedAgainst_cons, tradedAgainst_cons, h.against_eq]
    simp only [tradedAgainst_nil, zero_add]

/-- The first part ends inside a resting order, and the loop of the second part goes on with what is
left of it. -/
theorem matchLoop_joins_part (h₁ : Alike o o₁) (h₂ : Alike o o₂) {best : Order} (rest : Orders)
    {a b : ℤ} (ha : 0 < a) (hb : 0 < b) (hm : isMatch o best = true) :
    (matchLoop o (best :: rest) (a + b)).Joins
      ⟨best.setQty (best.qty - a) :: rest, 0, [tradeWith o₁ best a]⟩
      (matchLoop o₂ (best.setQty (best.qty - a) :: rest) b) := by
  have hm₂ : isMatch o₂ (best.setQty (best.qty - a)) = true := by
    rw [h₂.isMatch]
    exact hm
  rcases le_or_gt best.qty (a + b) with hle | hgt
  · have hrest : b - (best.qty - a) = a + b - best.qty := by omega
    have hsum : best.qty = a + (best.qty - a) := by omega
    rw [matchLoop_fill rest (by omega) hm hle,
      matchLoop_fill rest hb hm₂ (by rw [Order.setQty_qty]; omega), Order.setQty_qty, hrest]
    have hself := h₂.joins_self rest rest (a + b - best.qty)
    refine ⟨hself.stack, hself.remaining, fun k level ↦ ?_⟩
    have hadd := h₁.against_add h₂ best a (best.qty - a) (best.qty - a) k level
    rw [← hsum] at hadd
    rw [Matched.emit_trades, Matched.emit_trades, tradedAgainst_cons, tradedAgainst_cons,
      tradedAgainst_cons, hself.against, hadd]
    simp only [tradedAgainst_nil]
    ring
  · rw [matchLoop_part rest (by omega) hm hgt,
      matchLoop_part rest hb hm₂ (by rw [Order.setQty_qty]; omega)]
    refine ⟨?_, rfl, fun k level ↦ ?_⟩
    · have hleft : best.qty - (a + b) = best.qty - a - b := by omega
      rw [hleft]
      rfl
    · rw [tradedAgainst_cons, tradedAgainst_cons, tradedAgainst_cons,
        h₁.against_add h₂ best a b (best.qty - a)]
      simp only [tradedAgainst_nil]
      ring

/-- **Splitting the quantity of a loop.** The induction is on the loop of the first part: as long as
that fills resting orders, so does the loop of the whole. -/
theorem matchLoop_joins (h₁ : Alike o o₁) (h₂ : Alike o o₂) {b : ℤ} (hb : 0 < b) (stack : Orders)
    {a : ℤ} (ha : 0 ≤ a) :
    (matchLoop o stack (a + b)).Joins (matchLoop o₁ stack a)
      (matchLoop o₂ (matchLoop o₁ stack a).stack b) := by
  refine matchLoop_induct o₁ (motive := fun stack a m ↦
    0 ≤ a → (matchLoop o stack (a + b)).Joins m (matchLoop o₂ m.stack b)) ?_ ?_ ?_ stack a ha
  · intro stack a hstop ha
    rcases ha.eq_or_lt with rfl | ha
    · rw [zero_add]
      exact h₂.joins_self stack stack b
    · -- nothing at the back matches any of the three orders
      have hno : ∀ best ∈ stack.head?, ¬isMatch o best = true := by
        intro best hbest
        rw [← h₁.isMatch]
        exact hstop ha best hbest
      rw [matchLoop_stop fun _ ↦ hno, matchLoop_stop fun _ best hbest ↦ by
        rw [h₂.isMatch]; exact hno best hbest]
      exact ⟨rfl, rfl, fun _ _ ↦ rfl⟩
  · intro best rest a ha hm hq ih _
    rw [h₁.isMatch] at hm
    have hjoin := ih (by omega)
    rw [matchLoop_fill rest (by omega) hm (by omega), add_sub_right_comm]
    refine ⟨hjoin.stack, hjoin.remaining, fun k level ↦ ?_⟩
    rw [Matched.emit_trades, Matched.emit_trades, tradedAgainst_cons, tradedAgainst_cons,
      hjoin.against, h₁.against_eq, add_assoc]
    rfl
  · intro best rest a ha hm _ _
    rw [h₁.isMatch] at hm
    exact matchLoop_joins_part h₁ h₂ rest ha hb hm

/-! ## The orders on the incoming side -/

variable {b : Orderbook}

/-- An accepted order leaves the other orders of its side as they are. -/
theorem Valid.filter_same_addOrder (h : Valid b) (hdupe : ¬b.isDupe o = true) {p : Order → Bool}
    (hp : ∀ q, p (o.setQty q) = false) :
    ((b.addOrder o).1.same o.isBuy).filter p = (b.same o.isBuy).filter p := by
  rcases (h.addOrder_sides hdupe).2 with ⟨-, heq⟩ | ⟨-, l₁, l₂, heq, hins, -⟩
  · rw [heq]
  · rw [hins, heq, List.filter_append, List.filter_append,
      List.filter_cons_of_neg (by rw [hp]; exact Bool.false_ne_true)]

/-- What the loop leaves of an accepted order rests on its side. -/
theorem Valid.qtyOf_same_addOrder (h : Valid b) (hdupe : ¬b.isDupe o = true) (hq : 0 ≤ o.qty)
    (k : ℕ) :
    qtyOf k ((b.addOrder o).1.same o.isBuy)
      = qtyOf k (b.same o.isBuy) + if o.id = k then (b.matching o).remaining else 0 := by
  have hnonneg : 0 ≤ (b.matching o).remaining := matchLoop_remaining_nonneg o _ hq
  rcases (h.addOrder_sides hdupe).2 with ⟨hzero, heq⟩ | ⟨-, l₁, l₂, heq, hins, -⟩
  · have hrem : (b.matching o).remaining = 0 := by omega
    rw [heq, hrem, ite_self, add_zero]
  · rw [hins, heq, qtyOf_append, qtyOf_cons, qtyOf_append, Order.setQty_id, Order.setQty_qty]
    ring

/-- An id that no order of the opposite side has is not given to one of them. -/
theorem Valid.opposite_addOrder_ne (h : Valid b) (hdupe : ¬b.isDupe o = true) {k : ℕ}
    (hk : ∀ x ∈ b.opposite o.isBuy, x.id ≠ k) :
    ∀ x ∈ (b.addOrder o).1.opposite o.isBuy, x.id ≠ k := by
  intro x hx hid
  have hids := map_id_sublist_of_core (addOrder_core_sublist h hdupe)
  obtain ⟨y, hy, hyid⟩ := List.mem_map.mp (hids.subset (List.mem_map_of_mem hx))
  exact hk y hy (hyid.trans hid)

theorem ne_of_not_mem_liveIds {k : ℕ} (hk : k ∉ b.liveIds) (d : Bool) :
    (∀ x ∈ b.same d, x.id ≠ k) ∧ ∀ x ∈ b.opposite d, x.id ≠ k := by
  rw [mem_liveIds b d, not_or] at hk
  exact ⟨fun x hx hid ↦ hk.1 ⟨x, hx, hid⟩, fun x hx hid ↦ hk.2 ⟨x, hx, hid⟩⟩

theorem Valid.restingQty_addOrder_of_ne (h : Valid b) (hdupe : ¬b.isDupe o = true)
    (hq : 0 ≤ o.qty) {k : ℕ} (hk : ∀ x ∈ b.opposite o.isBuy, x.id ≠ k) :
    (b.addOrder o).1.restingQty k
      = qtyOf k (b.same o.isBuy) + if o.id = k then (b.matching o).remaining else 0 := by
  rw [restingQty_eq _ k o.isBuy, h.qtyOf_same_addOrder hdupe hq,
    qtyOf_eq_zero (h.opposite_addOrder_ne hdupe hk), add_zero]

/-- Under a new id rests what the loop left of the order. -/
theorem Valid.restingQty_addOrder_self (h : Valid b) (hid : o.id ∉ b.liveIds) (hq : 0 ≤ o.qty) :
    (b.addOrder o).1.restingQty o.id = (b.matching o).remaining := by
  have hne := ne_of_not_mem_liveIds hid o.isBuy
  rw [h.restingQty_addOrder_of_ne (by rwa [isDupe_iff]) hq hne.2, qtyOf_eq_zero hne.1, if_pos rfl,
    zero_add]

/-! ## Two calls for one -/

/-- The loop of the second half starts where that of the first half stopped. -/
theorem Valid.matching_joins (h : Valid b) (h₁ : Alike o o₁) (h₂ : Alike o o₂)
    (hdupe : ¬b.isDupe o₁ = true) (hqty : o.qty = o₁.qty + o₂.qty) (hq₁ : 0 ≤ o₁.qty)
    (hq₂ : 0 < o₂.qty) :
    (b.matching o).Joins (b.matching o₁) ((b.addOrder o₁).1.matching o₂) := by
  have hopp := (h.addOrder_sides hdupe).1
  have hjoin := matchLoop_joins h₁ h₂ hq₂ (b.opposite o.isBuy).reverse hq₁
  rw [matching, matching, matching, h₂.isBuy, ← h₁.isBuy, hopp, List.reverse_reverse, matching,
    h₁.isBuy, hqty]
  exact hjoin

/-- **Splitting an incoming order does not change its effect.** -/
theorem addOrder_split (calls : List Call) (level : ℤ) (isBuy : Bool) {a c : ℤ} (ha : 0 < a)
    (hc : 0 < c) {k k₁ k₂ : ℕ} (hk : k ∉ (run calls).liveIds) (hk₁ : k₁ ∉ (run calls).liveIds)
    (hk₂ : k₂ ∉ (run calls).liveIds) (hne : k₁ ≠ k₂) :
    let whole := (run calls).addOrder ⟨k, level, isBuy, a + c⟩
    let first := (run calls).addOrder ⟨k₁, level, isBuy, a⟩
    let second := first.1.addOrder ⟨k₂, level, isBuy, c⟩
    whole.1.opposite isBuy = second.1.opposite isBuy
      ∧ (∀ j l, tradedAgainst j l whole.2 = tradedAgainst j l (first.2 ++ second.2))
      ∧ (whole.1.same isBuy).filter (fun x ↦ decide (x.id ≠ k))
        = (second.1.same isBuy).filter (fun x ↦ decide (x.id ≠ k₁ ∧ x.id ≠ k₂))
      ∧ whole.1.restingQty k = second.1.restingQty k₁ + second.1.restingQty k₂ := by
  intro whole first second
  set b := run calls with hb
  have h : Valid b := valid_run calls
  have hnew : ¬b.isDupe ⟨k, level, isBuy, a + c⟩ = true := by rwa [isDupe_iff]
  have hnew₁ : ¬b.isDupe ⟨k₁, level, isBuy, a⟩ = true := by rwa [isDupe_iff]
  have h' : Valid first.1 := h.addOrder _
  have hlive₂ : k₂ ∉ first.1.liveIds := by
    intro hmem
    rcases h.mem_liveIds_addOrder hnew₁ hmem with heq | hmem
    · exact hne heq.symm
    · exact hk₂ hmem
  have hnew₂ : ¬first.1.isDupe ⟨k₂, level, isBuy, c⟩ = true := by rwa [isDupe_iff]
  have hjoin : (b.matching ⟨k, level, isBuy, a + c⟩).Joins (b.matching ⟨k₁, level, isBuy, a⟩)
      (first.1.matching ⟨k₂, level, isBuy, c⟩) :=
    h.matching_joins ⟨rfl, rfl⟩ ⟨rfl, rfl⟩ hnew₁ rfl ha.le hc
  refine ⟨?_, fun j l ↦ ?_, ?_, ?_⟩
  · rw [(h.addOrder_sides hnew).1, (h'.addOrder_sides hnew₂).1, hjoin.stack]
  · rw [tradedAgainst_append, addOrder_trades hnew, addOrder_trades hnew₁, addOrder_trades hnew₂]
    exact hjoin.against j l
  · -- the orders that were there before the call, on both sides of the equation
    have hall : ∀ p : Order → Bool, (∀ x ∈ b.same isBuy, p x = true) →
        (b.same isBuy).filter p = b.same isBuy := fun p ↦ List.filter_eq_self.mpr
    have hall₁ := (ne_of_not_mem_liveIds hk₁ isBuy).1
    have hall₂ := (ne_of_not_mem_liveIds hk₂ isBuy).1
    rw [h.filter_same_addOrder hnew (by simp), h'.filter_same_addOrder hnew₂ (by simp),
      h.filter_same_addOrder hnew₁ (by simp),
      hall _ (by simpa using (ne_of_not_mem_liveIds hk isBuy).1),
      hall _ (by simpa using fun x hx ↦ ⟨hall₁ x hx, hall₂ x hx⟩)]
  · have hopp := h.opposite_addOrder_ne hnew₁ (ne_of_not_mem_liveIds hk₁ isBuy).2
    have hfirst : second.1.restingQty k₁ = (b.matching ⟨k₁, level, isBuy, a⟩).remaining := by
      rw [h'.restingQty_addOrder_of_ne hnew₂ hc.le hopp, if_neg hne.symm, add_zero,
        h.qtyOf_same_addOrder hnew₁ ha.le, if_pos rfl,
        qtyOf_eq_zero (ne_of_not_mem_liveIds hk₁ isBuy).1, zero_add]
    rw [hfirst, h.restingQty_addOrder_self hk (by show 0 ≤ a + c; omega),
      h'.restingQty_addOrder_self hlive₂ hc.le]
    exact hjoin.remaining

/-- The first half ends inside the second resting order, and the second half is left with three. -/
theorem addOrder_split_two_asks :
    let b := run [.addOrder ⟨1, 10, false, 5⟩, .addOrder ⟨2, 10, false, 3⟩]
    let second := (b.addOrder ⟨3, 11, true, 6⟩).1.addOrder ⟨4, 11, true, 5⟩
    second.1.restingQty 4 = 3 ∧ (b.addOrder ⟨3, 11, true, 6 + 5⟩).1.restingQty 3
      = second.1.restingQty 3 + second.1.restingQty 4 :=
  ⟨by decide +kernel,
    (addOrder_split [.addOrder ⟨1, 10, false, 5⟩, .addOrder ⟨2, 10, false, 3⟩] 11 true
      (by decide) (by decide) (k := 3) (by decide +kernel) (by decide +kernel) (by decide +kernel)
      (by decide)).2.2.2⟩

end Orderbook

end FastInAHurry
