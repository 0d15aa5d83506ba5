import FastInAHurry.Orderbook.Invariant
import Mathlib.Tactic.Ring

/-!
# Quantity is conserved

Over a whole run, the quantity an order was submitted with is what was traded under its name while
it lived plus what was left of it at the end of its life. Quantity moves between the loop's
`remaining`, the resting order changed in place, the popped orders and the re-inserted copy of the
incoming order; per id, each of these moves is an equation between sums, and no ordering or
uniqueness is needed for it.

Ids may be reused once their order has left the book, so the life of an order is followed call by
call and ends with the first call after which its id is not live.
-/

namespace FastInAHurry

/-- The trade names the order `k`, as aggressor or as resting order. -/
def Trade.names (t : Trade) (k : ℕ) : Bool := decide (t.orderIdA = k) || decide (t.orderIdB = k)

namespace Orderbook

/-! ## Sums per id -/

/-- The quantity resting under the id `k` in a list of orders. -/
def qtyOf (k : ℕ) (l : Orders) : ℤ := ((l.filter fun o ↦ decide (o.id = k)).map Order.qty).sum

/-- The quantity resting under the id `k` in the book. -/
def restingQty (b : Orderbook) (k : ℕ) : ℤ := qtyOf k (b.bids ++ b.asks)

/-- The total size of the trades that name the order `k`. -/
def tradedUnder (k : ℕ) (ts : Trades) : ℤ := traded (ts.filter fun t ↦ t.names k)

theorem qtyOf_cons (k : ℕ) (o : Order) (l : Orders) :
    qtyOf k (o :: l) = (if o.id = k then o.qty else 0) + qtyOf k l := by
  by_cases h : o.id = k <;> simp [qtyOf, h]

theorem qtyOf_append (k : ℕ) (l l' : Orders) : qtyOf k (l ++ l') = qtyOf k l + qtyOf k l' := by
  rw [qtyOf, List.filter_append, List.map_append, List.sum_append, qtyOf, qtyOf]

theorem qtyOf_perm (k : ℕ) {l l' : Orders} (h : l.Perm l') : qtyOf k l = qtyOf k l' :=
  ((h.filter _).map _).sum_eq

theorem qtyOf_reverse (k : ℕ) (l : Orders) : qtyOf k l.reverse = qtyOf k l :=
  qtyOf_perm k (List.reverse_perm l)

theorem qtyOf_eq_zero {k : ℕ} {l : Orders} (h : ∀ o ∈ l, o.id ≠ k) : qtyOf k l = 0 := by
  rw [qtyOf, List.filter_eq_nil_iff.mpr fun o ho ↦ by simpa using h o ho, List.map_nil,
    List.sum_nil]

theorem restingQty_eq (b : Orderbook) (k : ℕ) (d : Bool) :
    b.restingQty k = qtyOf k (b.same d) + qtyOf k (b.opposite d) := by
  rw [restingQty, ← qtyOf_append]
  cases d
  · exact qtyOf_perm k List.perm_append_comm
  · rfl

theorem restingQty_eq_zero {b : Orderbook} {k : ℕ} (h : k ∉ b.liveIds) : b.restingQty k = 0 :=
  qtyOf_eq_zero fun _ ho hid ↦ h (List.mem_map.mpr ⟨_, ho, hid⟩)

@[simp] theorem tradedUnder_nil (k : ℕ) : tradedUnder k [] = 0 := rfl

theorem tradedUnder_cons (k : ℕ) (t : Trade) (ts : Trades) :
    tradedUnder k (t :: ts) = (if t.names k = true then t.size else 0) + tradedUnder k ts := by
  by_cases h : t.names k = true <;> simp [tradedUnder, h]

/-! ## One call -/

theorem names_tradeWith (incoming best : Order) (q : ℤ) (k : ℕ) :
    (tradeWith incoming best q).names k = true ↔ incoming.id = k ∨ best.id = k := by
  cases h : incoming.isBuy <;> simp [Trade.names, tradeWith, h, or_comm]

/-- Every trade of the loop names the incoming order. -/
theorem tradedUnder_incoming (incoming : Order) (stack : Orders) (r : ℤ) :
    tradedUnder incoming.id (matchLoop incoming stack r).trades
      = traded (matchLoop incoming stack r).trades := by
  have hname : ∀ best q, (tradeWith incoming best q).names incoming.id = true := fun best q ↦
    (names_tradeWith incoming best q _).mpr (Or.inl rfl)
  refine matchLoop_induct incoming (motive := fun _ _ m ↦
    tradedUnder incoming.id m.trades = traded m.trades) ?_ ?_ ?_ stack r
  · exact fun _ _ _ ↦ rfl
  · intro best rest r _ _ _ ih
    rw [Matched.emit_trades, tradedUnder_cons, if_pos (hname _ _), traded_cons, ih]
  · intro best rest r _ _ _
    rw [tradedUnder_cons, if_pos (hname _ _), tradedUnder_nil, traded_cons, traded_nil]

/-- What the loop takes from the orders of another id is what it trades with them. -/
theorem qtyOf_matchLoop {incoming : Order} {k : ℕ} (hk : incoming.id ≠ k) (stack : Orders) (r : ℤ) :
    qtyOf k stack = tradedUnder k (matchLoop incoming stack r).trades
      + qtyOf k (matchLoop incoming stack r).stack := by
  have hname : ∀ best q, (tradeWith incoming best q).names k = true ↔ best.id = k := by
    intro best q
    rw [names_tradeWith]
    exact or_iff_right hk
  refine matchLoop_induct incoming (motive := fun stack _ m ↦
    qtyOf k stack = tradedUnder k m.trades + qtyOf k m.stack) ?_ ?_ ?_ stack r
  · intro stack r _
    simp
  · intro best rest r _ _ _ ih
    rw [Matched.emit_trades, Matched.emit_stack, tradedUnder_cons, qtyOf_cons, ih]
    simp only [hname]
    simp only [tradeWith]
    ring
  · intro best rest r _ _ _
    rw [tradedUnder_cons, tradedUnder_nil, qtyOf_cons, qtyOf_cons]
    by_cases hid : best.id = k
    · rw [if_pos ((hname _ _).mpr hid), if_pos hid, Order.setQty_id, if_pos hid]
      simp only [tradeWith, Order.setQty_qty]
      ring
    · rw [if_neg fun h ↦ hid ((hname _ _).mp h), if_neg hid, Order.setQty_id, if_neg hid]
      ring

theorem restingQty_matchedBook {b : Orderbook} {o : Order} {k : ℕ} (hk : o.id ≠ k) :
    b.restingQty k
      = tradedUnder k (b.matching o).trades + (b.matchedBook o).restingQty k := by
  have hloop := qtyOf_matchLoop hk (b.opposite o.isBuy).reverse o.qty
  rw [qtyOf_reverse] at hloop
  rw [restingQty_eq b k o.isBuy, restingQty_eq _ k o.isBuy, same_matchedBook, matchedBook,
    opposite_setOpposite, qtyOf_reverse, hloop, matching]
  ring

theorem Valid.restingQty_insertOrder {b : Orderbook} (h : Valid b) {o : Order}
    (hdupe : ¬b.isDupe o = true) (k : ℕ) :
    (b.insertOrder o).restingQty k = b.restingQty k + if o.id = k then o.qty else 0 := by
  obtain ⟨hopp, l₁, l₂, hsame, hins, -⟩ := insertOrder_split hdupe (h.side o.isBuy)
  rw [restingQty_eq _ k o.isBuy, restingQty_eq b k o.isBuy, hopp, hins, hsame, qtyOf_append,
    qtyOf_cons, qtyOf_append]
  ring

/-- The quantity of an accepted order is what it traded and what it rests with. -/
theorem Valid.qty_eq_of_accepted {b : Orderbook} (h : Valid b) {o : Order}
    (hdupe : ¬b.isDupe o = true) (hq : 0 < o.qty) :
    o.qty = tradedUnder o.id (b.addOrder o).2 + (b.addOrder o).1.restingQty o.id := by
  -- nothing rests under the id between the loop and the insertion
  have hnone : (b.matchedBook o).restingQty o.id = 0 := by
    refine restingQty_eq_zero ?_
    have hlive := not_isDupe_matchedBook hdupe o.qty
    rwa [isDupe_iff, Order.setQty_id] at hlive
  have hnonneg : 0 ≤ (b.matching o).remaining := matchLoop_remaining_nonneg o _ hq.le
  have hunder : tradedUnder o.id (b.matching o).trades = traded (b.matching o).trades :=
    tradedUnder_incoming o _ _
  have hrem := b.matching_remaining o
  rw [addOrder_of_not_isDupe hdupe]
  simp only [hunder]
  by_cases hpos : 0 < (b.matching o).remaining
  · rw [if_pos hpos, (h.matchedBook o).restingQty_insertOrder (not_isDupe_matchedBook hdupe _),
      hnone, Order.setQty_id, if_pos rfl, Order.setQty_qty]
    omega
  · rw [if_neg hpos, hnone]
    omega

/-- An incoming order takes from the others exactly what it trades with them. -/
theorem Valid.restingQty_addOrder {b : Orderbook} (h : Valid b) {o : Order} {k : ℕ}
    (hk : k ∈ b.liveIds) :
    b.restingQty k = tradedUnder k (b.addOrder o).2 + (b.addOrder o).1.restingQty k := by
  by_cases hdupe : b.isDupe o = true
  · rw [addOrder_of_isDupe hdupe, tradedUnder_nil, zero_add]
  · have hne : o.id ≠ k := by
      rintro rfl
      exact hdupe ((b.isDupe_iff o).mpr hk)
    rw [addOrder_of_not_isDupe hdupe, restingQty_matchedBook hne]
    simp only
    split
    · rw [(h.matchedBook o).restingQty_insertOrder (not_isDupe_matchedBook hdupe _),
        Order.setQty_id, if_neg hne, add_zero]
    · rfl

private theorem qtyOf_eraseP {k k' : ℕ} (h : k' ≠ k) (l : Orders) :
    qtyOf k (l.eraseP fun o ↦ decide (o.id = k')) = qtyOf k l := by
  induction l with
  | nil => rfl
  | cons o l ih =>
    by_cases ho : o.id = k'
    · rw [List.eraseP_cons_of_pos (by simpa using ho), qtyOf_cons, if_neg (by rw [ho]; exact h),
        zero_add]
    · rw [List.eraseP_cons_of_neg (by simpa using ho), qtyOf_cons, qtyOf_cons, ih]

theorem restingQty_cancelOrder {k k' : ℕ} (h : k' ≠ k) (b : Orderbook) :
    (b.cancelOrder k').restingQty k = b.restingQty k := by
  rw [cancelOrder]
  split
  · rw [restingQty, restingQty, qtyOf_append, qtyOf_append, qtyOf_eraseP h]
  · split
    · rw [restingQty, restingQty, qtyOf_append, qtyOf_append, qtyOf_eraseP h]
    · rfl

private theorem notMem_eraseP_of_nodup {k : ℕ} {l : Orders} (h : (l.map Order.id).Nodup) :
    k ∉ (l.eraseP fun o ↦ decide (o.id = k)).map Order.id := by
  induction l with
  | nil => simp
  | cons o l ih =>
    rw [List.map_cons, List.nodup_cons] at h
    by_cases ho : o.id = k
    · rw [List.eraseP_cons_of_pos (by simpa using ho), ← ho]
      exact h.1
    · rw [List.eraseP_cons_of_neg (by simpa using ho), List.map_cons, List.mem_cons, not_or]
      exact ⟨fun hk ↦ ho hk.symm, ih h.2⟩

/-- A cancelled order is gone: no second order carries its id. -/
theorem notMem_liveIds_cancelOrder {b : Orderbook} (hnd : b.liveIds.Nodup) (k : ℕ) :
    k ∉ (b.cancelOrder k).liveIds := by
  rw [liveIds, List.map_append, List.nodup_append] at hnd
  have hany : ∀ l : Orders, (l.any fun o ↦ decide (o.id = k)) = true ↔ k ∈ l.map Order.id := by
    intro l
    simp only [List.any_eq_true, decide_eq_true_eq, List.mem_map]
  rw [Orderbook.cancelOrder, liveIds]
  simp only [hany]
  split
  · rename_i hbid
    rw [List.map_append, List.mem_append, not_or]
    exact ⟨notMem_eraseP_of_nodup hnd.1, fun hask ↦ hnd.2.2 k hbid k hask rfl⟩
  · rename_i hbid
    split
    · rw [List.map_append, List.mem_append, not_or]
      exact ⟨hbid, notMem_eraseP_of_nodup hnd.2.1⟩
    · rename_i hask
      rw [List.map_append, List.mem_append, not_or]
      exact ⟨hbid, hask⟩

/-! ## The life of an order -/

/-- The trades that name the order `k` in a run from `b`, up to the end of its life. -/
def lifeTrades (k : ℕ) (b : Orderbook) : List Call → Trades
  | [] => []
  | c :: calls =>
    if k ∈ b.liveIds then
      ((b.call c).2.filter fun t ↦ t.names k) ++ lifeTrades k (b.call c).1 calls
    else []

/-- What is left of the order `k` at the end of its life: the quantity it has when `CancelOrder`
removes it, or the quantity it still rests with at the end of the run; nothing when it was
filled. -/
def leftover (k : ℕ) (b : Orderbook) : List Call → ℤ
  | [] => b.restingQty k
  | c :: calls =>
    if k ∈ b.liveIds then
      if c = .cancelOrder k then b.restingQty k else leftover k (b.call c).1 calls
    else 0

theorem lifeTrades_of_notMem {k : ℕ} {b : Orderbook} (h : k ∉ b.liveIds) (calls : List Call) :
    lifeTrades k b calls = [] := by
  cases calls with
  | nil => rfl
  | cons c calls => rw [lifeTrades, if_neg h]

/-- The resting quantity of a live order is what it will trade and what will be left of it. -/
theorem Valid.restingQty_eq_life {b : Orderbook} (h : Valid b) (k : ℕ) (calls : List Call) :
    b.restingQty k = traded (lifeTrades k b calls) + leftover k b calls := by
  -- on the calls still to come, from whatever book they start in
  induction calls generalizing b with
  | nil => rw [lifeTrades, leftover, traded_nil, zero_add]
  | cons c calls ih =>
    rw [lifeTrades, leftover]
    by_cases hk : k ∈ b.liveIds
    · rw [if_pos hk, if_pos hk, traded_append]
      -- a cancel ends the life without a trade; every other call passes the quantity on
      by_cases hc : c = .cancelOrder k
      · subst hc
        have hgone : k ∉ (b.call (.cancelOrder k)).1.liveIds := notMem_liveIds_cancelOrder h.nodup k
        rw [if_pos rfl, lifeTrades_of_notMem hgone, Orderbook.call]
        simp
      · rw [if_neg hc]
        have hstep : b.restingQty k = tradedUnder k (b.call c).2 + (b.call c).1.restingQty k := by
          cases c with
          | addOrder o => exact h.restingQty_addOrder hk
          | cancelOrder k' =>
            have hne : k' ≠ k := fun heq ↦ hc (congrArg Call.cancelOrder heq)
            rw [Orderbook.call, tradedUnder_nil, zero_add, restingQty_cancelOrder hne]
        have hrest := ih (h.call c)
        rw [tradedUnder] at hstep
        omega
    · rw [if_neg hk, if_neg hk, restingQty_eq_zero hk, traded_nil, zero_add]

/-- **Conservation over whole runs.** The submitted quantity of an accepted order is the total size
of the trades that name it between its acceptance and the end of its life, plus what was left of it
then; and a rejected call returns no trades and leaves both sides as they were. -/
theorem run_conservation (before : List Call) (o : Order) :
    (¬(run before).isDupe o = true → 0 < o.qty → ∀ after : List Call,
      o.qty = traded (((run before).addOrder o).2.filter fun t ↦ t.names o.id)
        + traded (lifeTrades o.id ((run before).addOrder o).1 after)
        + leftover o.id ((run before).addOrder o).1 after) ∧
      ((run before).isDupe o = true ∨ o.qty ≤ 0 → (run before).addOrder o = (run before, [])) := by
  have h := valid_run before
  refine ⟨fun hdupe hq after ↦ ?_, ?_⟩
  · have hacc := h.qty_eq_of_accepted hdupe hq
    rw [(h.addOrder o).restingQty_eq_life o.id after, ← add_assoc] at hacc
    exact hacc
  · rintro (hdupe | hq)
    · exact addOrder_of_isDupe hdupe
    · exact addOrder_of_qty_nonpos _ (not_lt.mpr hq)

end Orderbook

end FastInAHurry
