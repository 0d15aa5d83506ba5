import FastInAHurry.Library.LowerBound
import Mathlib.Data.Int.Basic
import Mathlib.Order.Lattice

/-!
# The limit order book

The embedding of `structs/Orderbook.hh`. Both sides of the book are vectors in storage order, the
end of the list being `back()`: bids rise in level and asks fall, so the best order of a side is
its last element, and among equal levels the oldest order is the one closest to the back.

The source's `Id`, `Price` and `Quantity` are `size_t`, `long` and `int`; here they are the values
of those types, as natural numbers and integers. Ids are only compared for equality and prices for
order; the two subtractions of the matching loop are on quantities.

The matching loop works on the opposite side from the back, so `matchLoop` takes that side reversed
and recurses on it. An iteration either pops the best order or leaves nothing to trade, which is
what makes the loop terminate for every content of the book, non-positive quantities included.
-/

namespace FastInAHurry

/-- An order. The source's `side_` repeats `is_buy_` and is read by nothing here. -/
structure Order where
  id : ℕ
  level : ℤ
  isBuy : Bool
  qty : ℤ
deriving DecidableEq, Repr

def Order.setQty (o : Order) (newQty : ℤ) : Order := { o with qty := newQty }

@[simp] theorem Order.setQty_id (o : Order) (q : ℤ) : (o.setQty q).id = o.id := rfl

@[simp] theorem Order.setQty_isBuy (o : Order) (q : ℤ) : (o.setQty q).isBuy = o.isBuy := rfl

@[simp] theorem Order.setQty_qty (o : Order) (q : ℤ) : (o.setQty q).qty = q := rfl

@[simp] theorem Order.setQty_self (o : Order) : o.setQty o.qty = o := rfl

structure Trade where
  orderIdA : ℕ
  orderIdB : ℕ
  aggressorOrderId : ℕ
  aggressorIsBuy : Bool
  level : ℤ
  size : ℤ
deriving DecidableEq, Repr

abbrev Orders := List Order

abbrev Trades := List Trade

@[ext] structure Orderbook where
  bids : Orders
  asks : Orders
deriving DecidableEq, Repr

namespace Orderbook

open LowerBound (insertAtLowerBound)

/-- The default-constructed book. -/
def empty : Orderbook := ⟨[], []⟩

def canMatch (buy sell : Order) : Bool := decide (sell.level ≤ buy.level)

def isDupe (b : Orderbook) (order : Order) : Bool :=
  b.bids.any (fun o ↦ decide (o.id = order.id)) || b.asks.any fun o ↦ decide (o.id = order.id)

/-- Insertion in front of the orders of the same level, so that those stay closer to the back. -/
def insertOrder (b : Orderbook) (order : Order) : Orderbook :=
  if b.isDupe order then b
  else if order.isBuy then
    { b with bids := insertAtLowerBound (fun o ↦ decide (o.level < order.level)) order b.bids }
  else
    { b with asks := insertAtLowerBound (fun o ↦ decide (o.level > order.level)) order b.asks }

/-- The side an incoming order of the given direction trades against. -/
def opposite (b : Orderbook) (isBuy : Bool) : Orders := if isBuy then b.asks else b.bids

/-- The side an incoming order of the given direction would rest on. -/
def same (b : Orderbook) (isBuy : Bool) : Orders := if isBuy then b.bids else b.asks

def setOpposite (b : Orderbook) (isBuy : Bool) (orders : Orders) : Orderbook :=
  if isBuy then { b with asks := orders } else { b with bids := orders }

/-- The compatibility test of the loop: the buyer's limit reaches the seller's. -/
def isMatch (incoming best : Order) : Bool :=
  if incoming.isBuy then canMatch incoming best else canMatch best incoming

/-- The trade emitted against `best`: bid order first, then ask order, at the ask's level. -/
def tradeWith (incoming best : Order) (tradeSize : ℤ) : Trade where
  orderIdA := if incoming.isBuy then incoming.id else best.id
  orderIdB := if incoming.isBuy then best.id else incoming.id
  aggressorOrderId := incoming.id
  aggressorIsBuy := incoming.isBuy
  level := if incoming.isBuy then best.level else incoming.level
  size := tradeSize

/-- What the matching loop leaves: the opposite side from the back, the quantity still to trade and
the trades in the order they were emitted. -/
structure Matched where
  stack : Orders
  remaining : ℤ
  trades : Trades
deriving DecidableEq, Repr

def Matched.emit (t : Trade) (m : Matched) : Matched := { m with trades := t :: m.trades }

@[simp] theorem Matched.emit_stack (t : Trade) (m : Matched) : (m.emit t).stack = m.stack := rfl

@[simp] theorem Matched.emit_remaining (t : Trade) (m : Matched) :
    (m.emit t).remaining = m.remaining := rfl

@[simp] theorem Matched.emit_trades (t : Trade) (m : Matched) :
    (m.emit t).trades = t :: m.trades := rfl

/-- The `while` loop of `AddOrder`. The head of the list is `opposite_side.back()`. -/
def matchLoop (incoming : Order) (stack : Orders) (remaining : ℤ) : Matched :=
  match stack with
  | [] => ⟨[], remaining, []⟩
  | best :: rest =>
    if 0 < remaining then
      if isMatch incoming best then
        let tradeSize := min best.qty remaining
        let best' := best.setQty (best.qty - tradeSize)
        let next :=
          -- a fully filled order is popped, any other one stays at the back
          if best'.qty = 0 then matchLoop incoming rest (remaining - tradeSize)
          else matchLoop incoming (best' :: rest) (remaining - tradeSize)
        next.emit (tradeWith incoming best tradeSize)
      else ⟨best :: rest, remaining, []⟩
    else ⟨best :: rest, remaining, []⟩
termination_by stack.length + if 0 < remaining then 1 else 0
decreasing_by
  · rw [List.length_cons]
    split <;> omega
  · have hne : ¬best.qty - min best.qty remaining = 0 := ‹_›
    have hdone : ¬0 < remaining - min best.qty remaining := by omega
    rw [List.length_cons, List.length_cons, if_pos ‹0 < remaining›, if_neg hdone]
    omega

/-- `AddOrder`: the book afterwards and the trades returned. -/
def addOrder (b : Orderbook) (incoming : Order) : Orderbook × Trades :=
  if b.isDupe incoming then (b, [])
  else
    let m := matchLoop incoming (b.opposite incoming.isBuy).reverse incoming.qty
    let matched := b.setOpposite incoming.isBuy m.stack.reverse
    if 0 < m.remaining then (matched.insertOrder (incoming.setQty m.remaining), m.trades)
    else (matched, m.trades)

def cancelOrder (b : Orderbook) (orderId : ℕ) : Orderbook :=
  if b.bids.any fun o ↦ decide (o.id = orderId) then
    { b with bids := b.bids.eraseP fun o ↦ decide (o.id = orderId) }
  else if b.asks.any fun o ↦ decide (o.id = orderId) then
    { b with asks := b.asks.eraseP fun o ↦ decide (o.id = orderId) }
  else b

end Orderbook

end FastInAHurry
