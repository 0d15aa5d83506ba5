import FastInAHurry.Orderbook.Cancelled
import FastInAHurry.Orderbook.Priority

/-!
# Where a trade comes from

Every trade of a run can be traced back: its aggressor is the order of the call that returned it,
and its other party is an order accepted by an earlier call and not cancelled since, on the other
side of the book and with a limit that the price respects. What makes it so is the origin of the
resting orders. The loop changes nothing but quantities, and only downwards, so that whatever rests
in a reachable book is what is left of an order as it was submitted.
-/

namespace FastInAHurry

namespace Orderbook

/-- `p` was accepted in the run and has not been cancelled since. -/
def Standing (calls : List Call) (p : Order) : Prop :=
  ∃ before after, calls = before ++ .addOrder p :: after ∧ (run before).accepts p = true ∧
    .cancelOrder p.id ∉ after

/-- `x` is what is left of `p`. -/
structure LeftOf (p x : Order) : Prop where
  core : x.core = p.core
  qty_le : x.qty ≤ p.qty

theorem LeftOf.refl (p : Order) : LeftOf p p := ⟨rfl, le_rfl⟩

theorem LeftOf.trans {p x y : Order} (hpx : LeftOf p x) (hxy : LeftOf x y) : LeftOf p y :=
  ⟨hxy.core.trans hpx.core, hxy.qty_le.trans hpx.qty_le⟩

theorem LeftOf.setQty {p : Order} {q : ℤ} (h : q ≤ p.qty) : LeftOf p (p.setQty q) := ⟨rfl, h⟩

theorem LeftOf.eq_setQty {p x : Order} (h : LeftOf p x) : x = p.setQty x.qty := by
  have hset : x.core.setQty x.qty = p.core.setQty x.qty :=
    congrArg (fun o : Order ↦ o.setQty x.qty) h.core
  exact hset

theorem LeftOf.id_eq {p x : Order} (h : LeftOf p x) : x.id = p.id := by
  rw [h.eq_setQty, Order.setQty_id]

/-- A trade with what is left of an order reports the order. -/
theorem LeftOf.reports {p x incoming : Order} {q : ℤ} {t : Trade} (h : LeftOf p x)
    (hrep : Reports incoming x q t) : Reports incoming p q t := by
  have hid : ∀ q, (buyer incoming (p.setQty q)).id = (buyer incoming p).id ∧
      (seller incoming (p.setQty q)).id = (seller incoming p).id ∧
      (buyer incoming (p.setQty q)).level = (buyer incoming p).level ∧
      (seller incoming (p.setQty q)).level = (seller incoming p).level := by
    intro q
    cases hd : incoming.isBuy <;> simp [buyer, seller, hd, Order.setQty]
  obtain ⟨hbuyer, hseller, hbid, hask⟩ := hid x.qty
  rw [h.eq_setQty] at hrep
  constructor
  · exact hrep.orderIdA.trans hbuyer
  · exact hrep.orderIdB.trans hseller
  · exact hrep.aggressorOrderId
  · exact hrep.aggressorIsBuy
  · exact hrep.level.trans hask
  · exact hrep.level_le.trans_eq hbid
  · exact hrep.size

/-! ## The loop -/

/-- What the loop leaves of a side is left of the orders that were there. -/
theorem matchLoop_leftOf (incoming : Order) (stack : Orders) (r : ℤ) :
    ∀ x ∈ (matchLoop incoming stack r).stack, ∃ y ∈ stack, LeftOf y x := by
  refine matchLoop_induct incoming (motive := fun stack _ m ↦
    ∀ x ∈ m.stack, ∃ y ∈ stack, LeftOf y x) ?_ ?_ ?_ stack r
  · exact fun stack _ _ x hx ↦ ⟨x, hx, LeftOf.refl x⟩
  · intro best rest r _ _ _ ih x hx
    obtain ⟨y, hy, hleft⟩ := ih x hx
    exact ⟨y, List.mem_cons_of_mem best hy, hleft⟩
  · intro best rest r hr _ _ x hx
    rcases List.mem_cons.mp hx with rfl | hx
    · exact ⟨best, List.mem_cons_self, LeftOf.setQty (by omega)⟩
    · exact ⟨x, List.mem_cons_of_mem best hx, LeftOf.refl x⟩

/-- Every trade of the loop is with an order of the stack, within the quantities of both. -/
theorem matchLoop_reports {incoming : Order} {stack : Orders} (hpos : ∀ x ∈ stack, 0 < x.qty)
    (r : ℤ) : ∀ t ∈ (matchLoop incoming stack r).trades, ∃ x ∈ stack,
      Reports incoming x t.size t ∧ 0 < t.size ∧ t.size ≤ x.qty ∧ t.size ≤ r := by
  refine matchLoop_induct incoming (motive := fun stack r m ↦ (∀ x ∈ stack, 0 < x.qty) →
    ∀ t ∈ m.trades, ∃ x ∈ stack,
      Reports incoming x t.size t ∧ 0 < t.size ∧ t.size ≤ x.qty ∧ t.size ≤ r) ?_ ?_ ?_ stack r hpos
  · intro stack r _ _ t ht
    cases ht
  · intro best rest r _ hm hq ih hpos t ht
    have hbest := hpos best List.mem_cons_self
    rcases List.mem_cons.mp ht with rfl | ht
    · exact ⟨best, List.mem_cons_self, reports_tradeWith hm _, hbest, le_rfl, hq⟩
    · obtain ⟨x, hx, hrep, hsize, hle, hrest⟩ :=
        ih (fun x hx ↦ hpos x (List.mem_cons_of_mem best hx)) t ht
      exact ⟨x, List.mem_cons_of_mem best hx, hrep, hsize, hle, by omega⟩
  · intro best rest r hr hm hq _ t ht
    obtain rfl := List.mem_singleton.mp ht
    exact ⟨best, List.mem_cons_self, reports_tradeWith hm _, hr, hq.le, le_rfl⟩

/-! ## Runs -/

theorem Standing.concat {calls : List Call} {p : Order} (h : Standing calls p) {c : Call}
    (hc : c ≠ .cancelOrder p.id) : Standing (calls ++ [c]) p := by
  obtain ⟨before, after, rfl, hacc, hkept⟩ := h
  refine ⟨before, after ++ [c], by rw [List.append_assoc, List.cons_append], hacc, fun hmem ↦ ?_⟩
  rcases List.mem_append.mp hmem with hmem | hmem
  · exact hkept hmem
  · exact hc (List.mem_singleton.mp hmem).symm

theorem Standing.last {calls : List Call} {p : Order} (h : (run calls).accepts p = true) :
    Standing (calls ++ [.addOrder p]) p :=
  ⟨calls, [], rfl, h, List.not_mem_nil⟩

/-- What rests after an accepted order was left of what rested before, or of that order. -/
theorem Valid.leftOf_addOrder {b : Orderbook} (h : Valid b) {o : Order}
    (hdupe : ¬b.isDupe o = true) {d : Bool} {x : Order} (hx : x ∈ (b.addOrder o).1.same d) :
    (0 < o.qty ∧ LeftOf o x) ∨ ∃ y ∈ b.same d, LeftOf y x := by
  obtain ⟨hopp, hsame⟩ := h.addOrder_sides hdupe
  by_cases hd : d = o.isBuy
  · subst hd
    rcases hsame with ⟨-, heq⟩ | ⟨hpos, l₁, l₂, heq, hins, -⟩
    · exact Or.inr ⟨x, heq ▸ hx, LeftOf.refl x⟩
    · rw [hins, List.mem_append, List.mem_cons] at hx
      rw [heq]
      rcases hx with hx | rfl | hx
      · exact Or.inr ⟨x, List.mem_append_left _ hx, LeftOf.refl x⟩
      · have hle : (b.matching o).remaining ≤ o.qty := by
          refine matchLoop_induct o (motive := fun stack r m ↦ (∀ y ∈ stack, 0 < y.qty) →
            0 < m.remaining → m.remaining ≤ r) ?_ ?_ ?_ (b.opposite o.isBuy).reverse o.qty
            (fun y hy ↦ h.opposite_qty_pos _ y (List.mem_reverse.mp hy)) hpos
          · exact fun _ _ _ _ _ ↦ le_rfl
          · intro best rest r _ _ _ ih hpos hrem
            have hbest := hpos best List.mem_cons_self
            have hrest := ih (fun y hy ↦ hpos y (List.mem_cons_of_mem best hy)) hrem
            rw [Matched.emit_remaining]
            omega
          · exact fun _ _ _ hr _ _ _ _ ↦ hr.le
        exact Or.inl ⟨by omega, LeftOf.setQty hle⟩
      · exact Or.inr ⟨x, List.mem_append_right _ hx, LeftOf.refl x⟩
  · obtain rfl : d = !o.isBuy := Bool.eq_not_of_ne hd
    rw [← opposite_eq_same, hopp] at hx
    obtain ⟨y, hy, hleft⟩ := matchLoop_leftOf o _ _ x (List.mem_reverse.mp hx)
    rw [← opposite_eq_same]
    exact Or.inr ⟨y, List.mem_reverse.mp hy, hleft⟩

/-- **Whatever rests was submitted.** Every resting order of a reachable book is what is left of an
order accepted in the run and not cancelled since. -/
theorem exists_standing (calls : List Call) (d : Bool) :
    ∀ x ∈ (run calls).same d, ∃ p, Standing calls p ∧ LeftOf p x := by
  induction calls using List.reverseRecOn with
  | nil =>
    intro x hx
    cases d <;> cases hx
  | append_singleton calls c ih =>
    rw [run_concat]
    have hvalid := valid_run calls
    intro x hx
    cases c with
    | addOrder o =>
      have hkeep : ∀ y ∈ (run calls).same d, LeftOf y x →
          ∃ p, Standing (calls ++ [.addOrder o]) p ∧ LeftOf p x := by
        intro y hy hleft
        obtain ⟨p, hp, hpy⟩ := ih y hy
        exact ⟨p, hp.concat Call.noConfusion, hpy.trans hleft⟩
      by_cases hdupe : (run calls).isDupe o = true
      · rw [Orderbook.call, addOrder_of_isDupe hdupe] at hx
        exact hkeep x hx (LeftOf.refl x)
      · rcases hvalid.leftOf_addOrder hdupe hx with ⟨hq, hleft⟩ | ⟨y, hy, hleft⟩
        · refine ⟨o, Standing.last ?_, hleft⟩
          rw [accepts, Bool.not_eq_true _ |>.mp hdupe, decide_eq_true hq]
          rfl
        · exact hkeep y hy hleft
    | cancelOrder k =>
      obtain ⟨p, hp, hleft⟩ := ih x ((cancelOrder_sublist _ k d).subset hx)
      refine ⟨p, hp.concat fun heq ↦ ?_, hleft⟩
      -- the order with the cancelled id is gone, and `x` has the id of `p`
      have hk : k = x.id := (Call.cancelOrder.inj heq).trans hleft.id_eq.symm
      have hgone := notMem_liveIds_cancelOrder hvalid.nodup k
      rw [hk] at hgone hx
      exact hgone ((mem_liveIds _ d _).mpr (Or.inl ⟨x, hx, rfl⟩))

/-- **Every trade can be audited.** A trade returned in a run is returned by the call that submitted
its aggressor, which was accepted; its other party is an order of the other side that an earlier
call submitted, that was accepted and not cancelled since; it reports the two as they were
submitted, at the seller's limit, which the buyer's reaches; and its size is positive and within
both quantities. -/
theorem trades_audited (calls : List Call) (o : Order) :
    ∀ t ∈ ((run calls).addOrder o).2, (run calls).accepts o = true ∧ ∃ p, Standing calls p ∧
      p.isBuy = (!o.isBuy) ∧ Reports o p t.size t ∧ 0 < t.size ∧ t.size ≤ p.qty ∧
      t.size ≤ o.qty := by
  have hvalid := valid_run calls
  intro t ht
  by_cases hdupe : (run calls).isDupe o = true
  · rw [addOrder_of_isDupe hdupe] at ht
    cases ht
  · rw [addOrder_trades hdupe] at ht
    obtain ⟨x, hx, hrep, hsize, hle, hqty⟩ := matchLoop_reports
      (fun x hx ↦ hvalid.opposite_qty_pos _ x (List.mem_reverse.mp hx)) o.qty t ht
    rw [List.mem_reverse] at hx
    have hside := (hvalid.opposite_sorted o.isBuy).isBuy_eq x hx
    rw [opposite_eq_same] at hx
    obtain ⟨p, hp, hleft⟩ := exists_standing calls _ x hx
    have hbuy : p.isBuy = x.isBuy := by rw [hleft.eq_setQty, Order.setQty_isBuy]
    refine ⟨?_, p, hp, hbuy.trans hside, hleft.reports hrep, hsize, hle.trans hleft.qty_le, hqty⟩
    rw [accepts, Bool.not_eq_true _ |>.mp hdupe, decide_eq_true (hsize.trans_le hqty)]
    rfl

/-- A buy of 4 takes what is left of the first of two asks, and its trade is traced back to the call
that submitted that ask with a quantity of 5. -/
theorem trades_audited_partial :
    let calls : List Call := [.addOrder ⟨1, 10, false, 5⟩, .addOrder ⟨2, 10, false, 6⟩,
      .addOrder ⟨3, 11, true, 2⟩, .cancelOrder 2]
    (run calls).accepts ⟨4, 12, true, 4⟩ = true ∧ ∃ p, Standing calls p ∧ p.isBuy = false ∧
      Reports ⟨4, 12, true, 4⟩ p 3 ⟨4, 1, 4, true, 10, 3⟩ ∧ 3 ≤ p.qty := by
  intro calls
  have htrade : (⟨4, 1, 4, true, 10, 3⟩ : Trade) ∈ ((run calls).addOrder ⟨4, 12, true, 4⟩).2 := by
    decide +kernel
  obtain ⟨haccepts, p, hp, hbuy, hreports, -, hqty, -⟩ :=
    trades_audited calls ⟨4, 12, true, 4⟩ _ htrade
  exact ⟨haccepts, p, hp, hbuy, hreports, hqty⟩

end Orderbook

end FastInAHurry
