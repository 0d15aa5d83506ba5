import FastInAHurry.Orderbook.Cancelled

/-!
# Names, prices and units

What the book looks at in an order is little: ids are compared for equality, prices for order and
quantities are subtracted. So a run does not change when its ids are renamed, its prices are moved
without changing their order and its quantities are counted in another unit: the books and the
trades are the same ones under the new names. The two sides are the same engine as well, so a run in
which buyers and sellers change places is the mirror of the first, with one exception that is by
design: a trade is always at the seller's price, so a mirrored trade is at the price the buyer had,
which is no better for the seller.
-/

namespace FastInAHurry

namespace Orderbook

/-- Another way to name the same market. With `flip`, buyers become sellers and the order of the
prices is reversed. -/
structure Relabelling where
  id : ℕ → ℕ
  id_injective : Function.Injective id
  flip : Bool
  level : ℤ → ℤ
  level_le_iff : ∀ x y, (if flip then level y ≤ level x else level x ≤ level y) ↔ x ≤ y
  unit : ℤ
  unit_pos : 0 < unit

/-- Buyers and sellers change places, the prices are negated. -/
def mirror : Relabelling where
  id k := k
  id_injective := Function.injective_id
  flip := true
  level := Neg.neg
  level_le_iff x y := by simp
  unit := 1
  unit_pos := Int.one_pos

namespace Relabelling

variable (ρ : Relabelling)

def order (o : Order) : Order where
  id := ρ.id o.id
  level := ρ.level o.level
  isBuy := o.isBuy ^^ ρ.flip
  qty := ρ.unit * o.qty

def call : Call → Call
  | .addOrder o => .addOrder (ρ.order o)
  | .cancelOrder k => .cancelOrder (ρ.id k)

def book (b : Orderbook) : Orderbook where
  bids := (b.same (!ρ.flip)).map ρ.order
  asks := (b.same ρ.flip).map ρ.order

/-- `t'` reports the trade `t` under the new names. -/
structure Renames (t t' : Trade) : Prop where
  orderIdA : t'.orderIdA = ρ.id (if ρ.flip then t.orderIdB else t.orderIdA)
  orderIdB : t'.orderIdB = ρ.id (if ρ.flip then t.orderIdA else t.orderIdB)
  aggressorOrderId : t'.aggressorOrderId = ρ.id t.aggressorOrderId
  aggressorIsBuy : t'.aggressorIsBuy = (t.aggressorIsBuy ^^ ρ.flip)
  level : if ρ.flip then t'.level ≤ ρ.level t.level else t'.level = ρ.level t.level
  size : t'.size = ρ.unit * t.size

/-! ## Orders -/

@[simp] theorem order_setQty (o : Order) (q : ℤ) :
    (ρ.order o).setQty (ρ.unit * q) = ρ.order (o.setQty q) := rfl

theorem level_lt_iff (x y : ℤ) :
    (if ρ.flip then ρ.level y < ρ.level x else ρ.level x < ρ.level y) ↔ x < y := by
  have h := (ρ.level_le_iff y x).not
  rw [not_le] at h
  rw [← h]
  split <;> exact not_le.symm

/-- Orders of one side keep their rank among each other. -/
theorem rank_lt_iff {x y : Order} (h : x.isBuy = y.isBuy) :
    (ρ.order x).rank < (ρ.order y).rank ↔ x.rank < y.rank := by
  have hxy := ρ.level_lt_iff x.level y.level
  have hyx := ρ.level_lt_iff y.level x.level
  cases hy : y.isBuy <;> cases hf : ρ.flip <;>
    simp only [hf, Bool.false_eq_true, if_true, if_false] at hxy hyx <;>
    simp [Order.rank, order, h, hy, hf, hxy, hyx]

theorem isMatch_order (o best : Order) :
    isMatch (ρ.order o) (ρ.order best) = isMatch o best := by
  have hle := ρ.level_le_iff o.level best.level
  have hge := ρ.level_le_iff best.level o.level
  cases hb : o.isBuy <;> cases hf : ρ.flip <;>
    simp only [hf, Bool.false_eq_true, if_true, if_false] at hle hge <;>
    simp [isMatch, canMatch, order, hb, hf, hle, hge]

theorem insertRank_map {o : Order} {l : Orders} (h : ∀ x ∈ l, x.isBuy = o.isBuy) :
    insertRank (ρ.order o) (l.map ρ.order) = (insertRank o l).map ρ.order := by
  have hp : ∀ x ∈ l, decide ((ρ.order x).rank < (ρ.order o).rank) = decide (x.rank < o.rank) :=
    fun x hx ↦ decide_eq_decide.mpr (ρ.rank_lt_iff (h x hx))
  rw [insertRank, insertRank, List.map_append, List.map_cons, List.filter_map, List.filter_map]
  congr 1
  · exact congrArg _ (List.filter_congr hp)
  · refine congrArg _ (congrArg _ (List.filter_congr fun x hx ↦ ?_))
    exact congrArg Bool.not (hp x hx)

/-! ## Trades -/

theorem renames_tradeWith {o best : Order} (h : isMatch o best = true) (q : ℤ) :
    ρ.Renames (tradeWith o best q) (tradeWith (ρ.order o) (ρ.order best) (ρ.unit * q)) := by
  have hlevel := ρ.level_le_iff o.level best.level
  have hlevel' := ρ.level_le_iff best.level o.level
  cases hb : o.isBuy <;> cases hf : ρ.flip <;>
    simp only [isMatch, canMatch, hb, hf, Bool.false_eq_true, if_true, if_false,
      decide_eq_true_eq] at h hlevel hlevel' <;>
    constructor <;> simp [tradeWith, order, hb, hf, h, hlevel, hlevel']

/-- What a loop leaves under the new names. -/
structure Relabelled (m m' : Matched) : Prop where
  stack : m'.stack = m.stack.map ρ.order
  remaining : m'.remaining = ρ.unit * m.remaining
  trades : List.Forall₂ ρ.Renames m.trades m'.trades

/-- **The loop under the new names.** -/
theorem matchLoop_relabelled (o : Order) (stack : Orders) (r : ℤ) :
    ρ.Relabelled (matchLoop o stack r)
      (matchLoop (ρ.order o) (stack.map ρ.order) (ρ.unit * r)) := by
  have hpos : ∀ {q : ℤ}, 0 < q → 0 < ρ.unit * q := mul_pos ρ.unit_pos
  refine matchLoop_induct o (motive := fun stack r m ↦
    ρ.Relabelled m (matchLoop (ρ.order o) (stack.map ρ.order) (ρ.unit * r))) ?_ ?_ ?_ stack r
  · intro stack r hstop
    have hstop' : matchLoop (ρ.order o) (stack.map ρ.order) (ρ.unit * r) =
        ⟨stack.map ρ.order, ρ.unit * r, []⟩ := by
      by_cases hr : 0 < r
      · cases stack with
        | nil => rw [List.map_nil, matchLoop]
        | cons best rest =>
          refine matchLoop_of_not_isMatch _ _ ?_
          rw [isMatch_order]
          exact hstop hr best rfl
      · refine matchLoop_of_not_pos _ _ ?_
        rwa [mul_pos_iff_of_pos_left ρ.unit_pos]
    rw [hstop']
    exact ⟨rfl, rfl, .nil⟩
  · intro best rest r hr hm hq ih
    have hm' : isMatch (ρ.order o) (ρ.order best) = true := by rwa [isMatch_order]
    have hq' : (ρ.order best).qty ≤ ρ.unit * r := mul_le_mul_of_nonneg_left hq ρ.unit_pos.le
    have hrest : ρ.unit * r - (ρ.order best).qty = ρ.unit * (r - best.qty) := (mul_sub _ _ _).symm
    rw [List.map_cons, matchLoop_fill _ (hpos hr) hm' hq', hrest]
    exact ⟨ih.stack, ih.remaining, .cons (ρ.renames_tradeWith hm _) ih.trades⟩
  · intro best rest r hr hm hq
    have hm' : isMatch (ρ.order o) (ρ.order best) = true := by rwa [isMatch_order]
    have hq' : ρ.unit * r < (ρ.order best).qty := mul_lt_mul_of_pos_left hq ρ.unit_pos
    have hrest : (ρ.order best).qty - ρ.unit * r = ρ.unit * (best.qty - r) := (mul_sub _ _ _).symm
    rw [List.map_cons, matchLoop_part _ (hpos hr) hm' hq', hrest, order_setQty]
    exact ⟨rfl, (mul_zero _).symm, .cons (ρ.renames_tradeWith hm _) .nil⟩

/-! ## Books -/

theorem same_book (b : Orderbook) (d : Bool) :
    (ρ.book b).same (d ^^ ρ.flip) = (b.same d).map ρ.order := by
  cases d <;> cases hf : ρ.flip <;> simp [book, same, hf]

theorem opposite_book (b : Orderbook) (d : Bool) :
    (ρ.book b).opposite (d ^^ ρ.flip) = (b.opposite d).map ρ.order := by
  rw [opposite_eq_same, opposite_eq_same, ← same_book, Bool.not_xor]

theorem isDupe_book (b : Orderbook) (o : Order) : (ρ.book b).isDupe (ρ.order o) = b.isDupe o := by
  have hid : ∀ x : Order, (ρ.order x).id = (ρ.order o).id ↔ x.id = o.id := fun x ↦
    ρ.id_injective.eq_iff
  rw [Bool.eq_iff_iff, isDupe_iff, isDupe_iff, mem_liveIds _ (true ^^ ρ.flip), mem_liveIds b true,
    same_book, opposite_book]
  simp only [List.mem_map, exists_exists_and_eq_and, hid]

end Relabelling

/-- A side without the order that is cancelled: ids are unique, so it is on one side only. -/
theorem Valid.same_cancelOrder {b : Orderbook} (h : Valid b) (k : ℕ) (d : Bool) :
    (b.cancelOrder k).same d = (b.same d).eraseP fun o ↦ decide (o.id = k) := by
  have hnone : ∀ {l : Orders}, ¬(l.any fun o ↦ decide (o.id = k)) = true →
      l.eraseP (fun o ↦ decide (o.id = k)) = l := fun hl ↦
    List.eraseP_of_forall_not fun o ho hid ↦ hl (List.any_eq_true.mpr ⟨o, ho, hid⟩)
  rw [Orderbook.cancelOrder]
  by_cases hbid : (b.bids.any fun o ↦ decide (o.id = k)) = true
  · rw [if_pos hbid]
    cases d
    · refine (hnone fun hask ↦ ?_).symm
      obtain ⟨x, hx, hxk⟩ := List.any_eq_true.mp hbid
      obtain ⟨y, hy, hyk⟩ := List.any_eq_true.mp hask
      have hdisj := (List.nodup_append.mp (by simpa [liveIds] using h.nodup)).2.2
      exact hdisj k (List.mem_map.mpr ⟨x, hx, of_decide_eq_true hxk⟩) k
        (List.mem_map.mpr ⟨y, hy, of_decide_eq_true hyk⟩) rfl
    · rfl
  · rw [if_neg hbid]
    by_cases hask : (b.asks.any fun o ↦ decide (o.id = k)) = true
    · rw [if_pos hask]
      cases d
      · rfl
      · exact (hnone hbid).symm
    · rw [if_neg hask]
      cases d
      · exact (hnone hask).symm
      · exact (hnone hbid).symm

namespace Relabelling

variable (ρ : Relabelling)

theorem eraseP_map (k : ℕ) (l : Orders) :
    (l.map ρ.order).eraseP (fun o ↦ decide (o.id = ρ.id k)) =
      (l.eraseP fun o ↦ decide (o.id = k)).map ρ.order := by
  rw [List.eraseP_map]
  congr 2
  funext o
  exact decide_eq_decide.mpr ρ.id_injective.eq_iff

theorem matching_book (b : Orderbook) (o : Order) :
    ρ.Relabelled (b.matching o) ((ρ.book b).matching (ρ.order o)) := by
  have hloop := ρ.matchLoop_relabelled o (b.opposite o.isBuy).reverse o.qty
  rw [List.map_reverse, ← opposite_book] at hloop
  exact hloop

end Relabelling

/-- Each call does under the new names what it did under the old ones. -/
theorem Valid.call_relabelled {b : Orderbook} (h : Valid b) (ρ : Relabelling)
    (h' : Valid (ρ.book b)) (c : Call) :
    ((ρ.book b).call (ρ.call c)).1 = ρ.book (b.call c).1 ∧
      List.Forall₂ ρ.Renames (b.call c).2 ((ρ.book b).call (ρ.call c)).2 := by
  cases c with
  | cancelOrder k =>
    refine ⟨ext_sides (true ^^ ρ.flip) ?_ ?_, .nil⟩
    · rw [Relabelling.same_book, Orderbook.call, Relabelling.call, Orderbook.call,
        h'.same_cancelOrder, h.same_cancelOrder, Relabelling.same_book, Relabelling.eraseP_map]
    · rw [Relabelling.opposite_book, Orderbook.call, Relabelling.call, Orderbook.call,
        opposite_eq_same, opposite_eq_same, h'.same_cancelOrder, h.same_cancelOrder,
        ← opposite_eq_same, ← opposite_eq_same, Relabelling.opposite_book, Relabelling.eraseP_map]
  | addOrder o =>
    rw [Relabelling.call, Orderbook.call, Orderbook.call]
    by_cases hdupe : b.isDupe o = true
    · have hdupe' : (ρ.book b).isDupe (ρ.order o) = true := by rwa [Relabelling.isDupe_book]
      rw [addOrder_of_isDupe hdupe, addOrder_of_isDupe hdupe']
      exact ⟨rfl, .nil⟩
    · have hdupe' : ¬(ρ.book b).isDupe (ρ.order o) = true := by rwa [Relabelling.isDupe_book]
      obtain ⟨hstack, hrem, htrades⟩ := ρ.matching_book b o
      refine ⟨ext_sides (o.isBuy ^^ ρ.flip) ?_ ?_, ?_⟩
      -- the remainder goes to the same place among the orders of its side
      · have hsame := h'.addOrder_same hdupe'
        simp only [hrem, mul_pos_iff_of_pos_left ρ.unit_pos, Relabelling.order_setQty] at hsame
        refine hsame.trans ?_
        rw [Relabelling.same_book, h.addOrder_same hdupe]
        split
        · refine (congrArg _ (ρ.same_book b o.isBuy)).trans ?_
          exact ρ.insertRank_map (h.side o.isBuy).isBuy_eq
        · exact ρ.same_book b o.isBuy
      · refine ((h'.addOrder_sides hdupe').1).trans ?_
        rw [Relabelling.opposite_book, (h.addOrder_sides hdupe).1, hstack, List.map_reverse]
      · rw [addOrder_trades hdupe, addOrder_trades hdupe']
        exact htrades

theorem Valid.runFrom_relabelled {b : Orderbook} (h : Valid b) (ρ : Relabelling)
    (h' : Valid (ρ.book b)) (calls : List Call) :
    (ρ.book b).runFrom (calls.map ρ.call) = ρ.book (b.runFrom calls) ∧
      List.Forall₂ (List.Forall₂ ρ.Renames) (b.returned calls)
        ((ρ.book b).returned (calls.map ρ.call)) := by
  induction calls generalizing b with
  | nil => exact ⟨rfl, .nil⟩
  | cons c calls ih =>
    obtain ⟨hbook, htrades⟩ := h.call_relabelled ρ h' c
    obtain ⟨hend, hrest⟩ := ih (h.call c) (hbook ▸ h'.call (ρ.call c))
    rw [List.map_cons, returned, returned, hbook]
    refine ⟨?_, .cons htrades hrest⟩
    rw [Orderbook.runFrom, List.foldl_cons, hbook]
    exact hend

/-- **A run does not depend on how its market is named.** Under other ids, with the prices moved in
order and the quantities in another unit, every run leaves the same book and returns the same trades
call by call, under the new names; with buyers and sellers in each other's place it does so too, but
for the prices, which are then at most the mirrored ones. -/
theorem run_relabelled (ρ : Relabelling) (calls : List Call) :
    run (calls.map ρ.call) = ρ.book (run calls) ∧
      List.Forall₂ (List.Forall₂ ρ.Renames) (empty.returned calls)
        (empty.returned (calls.map ρ.call)) := by
  have hempty : ρ.book empty = empty := by
    rw [Relabelling.book]
    cases ρ.flip <;> rfl
  have hvalid : Valid (ρ.book empty) := by
    rw [hempty]
    exact Valid.empty
  have h := Valid.empty.runFrom_relabelled ρ hvalid calls
  rw [hempty] at h
  exact h

/-- A buyer at 12 meets an ask at 10 and pays 10; in the mirror a seller at -12 meets a bid at -10
and gets no more than his own limit. -/
example : empty.returned ([.addOrder ⟨1, 10, false, 5⟩, .addOrder ⟨2, 12, true, 3⟩].map
    mirror.call) = [[], [⟨1, 2, 2, false, -12, 3⟩]] := by decide +kernel

end Orderbook

end FastInAHurry
