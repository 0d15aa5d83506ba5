import FastInAHurry.Orderbook.Conservation
import Mathlib.Data.List.Induction
import Mathlib.Data.List.Pairwise
import Mathlib.Data.List.Sort

/-!
# Price-time priority

The code only ever looks at the back of a vector. That the order found there is the best priced
one, and among equal prices the one accepted first, is a fact about the whole run: insertion puts a
new order in front of the equal levels, pops and erasures keep the relative order, and a partial
fill changes a quantity in place.

The run carries a clock that the code does not have: `acceptedAt` is the number of the call that
accepted the order now live under an id. Priority is defined from levels and that clock alone, and
the trades of a call are compared with the greedy fill along the compatible orders sorted by it.
-/

namespace FastInAHurry

namespace Orderbook

/-! ## The clock -/

/-- The call is accepted: the id is not live and there is something to trade. -/
def accepts (b : Orderbook) (o : Order) : Bool := !b.isDupe o && decide (0 < o.qty)

/-- A book with the number of calls made so far and, per id, the number of the call that last
accepted an order under it. -/
structure Clocked where
  book : Orderbook
  now : ℕ
  acceptedAt : ℕ → ℕ

def Clocked.init : Clocked := ⟨empty, 0, fun _ ↦ 0⟩

def Clocked.call (s : Clocked) (c : Call) : Clocked where
  book := (s.book.call c).1
  now := s.now + 1
  acceptedAt :=
    match c with
    | .addOrder o => if s.book.accepts o then Function.update s.acceptedAt o.id s.now
        else s.acceptedAt
    | .cancelOrder _ => s.acceptedAt

def clocked (calls : List Call) : Clocked := calls.foldl Clocked.call Clocked.init

/-- The number of the call of the run that accepted the order now live under an id. -/
def acceptedAt (calls : List Call) : ℕ → ℕ := (clocked calls).acceptedAt

theorem clocked_concat (calls : List Call) (c : Call) :
    clocked (calls ++ [c]) = (clocked calls).call c := by
  rw [clocked, clocked, List.foldl_append, List.foldl_cons, List.foldl_nil]

/-- The clock does not influence the book. -/
theorem clocked_book (calls : List Call) : (clocked calls).book = run calls := by
  induction calls using List.reverseRecOn with
  | nil => rfl
  | append_singleton calls c ih =>
    rw [clocked_concat, run_concat, ← ih]
    rfl

/-- Towards the back of a side, equal levels get older. -/
def Older (time : ℕ → ℕ) (x y : Order) : Prop := x.rank = y.rank → time y.id < time x.id

/-- **The time invariant.** Live orders were accepted in the past, and on both sides the older one
of two equal levels is closer to the back. -/
structure Timed (s : Clocked) : Prop where
  lt_now : ∀ k ∈ s.book.liveIds, s.acceptedAt k < s.now
  older : ∀ d, (s.book.same d).Pairwise (Older s.acceptedAt)

theorem Older.congr {time time' : ℕ → ℕ} {l : Orders} (h : l.Pairwise (Older time))
    (heq : ∀ x ∈ l, time' x.id = time x.id) : l.Pairwise (Older time') := by
  refine h.imp_of_mem fun {x y} hx hy hxy hrank ↦ ?_
  rw [heq x hx, heq y hy]
  exact hxy hrank

/-- A call that keeps the clock and shortens the sides keeps the time invariant. -/
theorem Timed.of_sublist {s s' : Clocked} (h : Timed s)
    (hsub : ∀ d, (s'.book.same d).Sublist (s.book.same d)) (hnow : s.now ≤ s'.now)
    (htime : s'.acceptedAt = s.acceptedAt) : Timed s' := by
  constructor
  · intro k hk
    have hlive : k ∈ s.book.liveIds :=
      (((hsub true).append (hsub false)).map Order.id).subset hk
    rw [htime]
    exact (h.lt_now k hlive).trans_le hnow
  · intro d
    rw [htime]
    exact (h.older d).sublist (hsub d)

/-- The own side of an accepted order: the remainder is newer than every order of its level. -/
private theorem pairwise_older_same {s : Clocked} (h : Timed s) (hv : Valid s.book) {o : Order}
    (hdupe : ¬s.book.isDupe o = true) {time' : ℕ → ℕ} (hself : time' o.id = s.now)
    (hold : ∀ k ∈ s.book.liveIds, time' k = s.acceptedAt k)
    (hpw : (s.book.same o.isBuy).Pairwise (Older time')) :
    ((s.book.addOrder o).1.same o.isBuy).Pairwise (Older time') := by
  rcases (hv.addOrder_sides hdupe).2 with ⟨-, heq⟩ | ⟨-, l₁, l₂, heq, hins, h₁, h₂⟩
  · rw [heq]
    exact hpw
  · rw [heq, List.pairwise_append] at hpw
    rw [hins]
    refine List.pairwise_append.mpr ⟨hpw.1, List.pairwise_cons.mpr ⟨?_, hpw.2.1⟩, ?_⟩
    · intro y hy _
      have hlive : y.id ∈ s.book.liveIds :=
        (mem_liveIds _ o.isBuy _).mpr (Or.inl ⟨y, heq ▸ List.mem_append_right _ hy, rfl⟩)
      rw [Order.setQty_id, hself, hold _ hlive]
      exact h.lt_now _ hlive
    · intro x hx y hy
      rcases List.mem_cons.mp hy with rfl | hy
      · exact fun hrank ↦ absurd hrank (h₁ x hx).ne
      · exact hpw.2.2 x hx y hy

/-- The accepted case of a call. -/
theorem Timed.addOrder_accepted {s : Clocked} (h : Timed s) (hv : Valid s.book) {o : Order}
    (hdupe : ¬s.book.isDupe o = true) {time' : ℕ → ℕ} (hself : time' o.id = s.now)
    (hold : ∀ k ∈ s.book.liveIds, time' k = s.acceptedAt k) :
    Timed ⟨(s.book.addOrder o).1, s.now + 1, time'⟩ := by
  have holder : ∀ d, (s.book.same d).Pairwise (Older time') := fun d ↦
    Older.congr (h.older d) fun x hx ↦ hold _ ((mem_liveIds _ d _).mpr (Or.inl ⟨x, hx, rfl⟩))
  have hsame := pairwise_older_same h hv hdupe hself hold (holder _)
  -- the other side only lost orders and quantity, which the relation does not see
  have hopp : ((s.book.addOrder o).1.opposite o.isBuy).Pairwise (Older time') := by
    refine pairwise_of_core_sublist (fun _ _ ↦ Iff.rfl) ?_ (addOrder_core_sublist hv hdupe)
    rw [opposite_eq_same]
    exact holder _
  constructor
  · intro k hk
    change time' k < s.now + 1
    rcases hv.mem_liveIds_addOrder hdupe hk with rfl | hk'
    · rw [hself]
      exact Nat.lt_succ_self _
    · rw [hold k hk']
      exact Nat.lt_succ_of_lt (h.lt_now k hk')
  · rw [opposite_eq_same] at hopp
    cases hd : o.isBuy <;> rw [hd] at hopp hsame
    · exact Bool.forall_bool.mpr ⟨hsame, hopp⟩
    · exact Bool.forall_bool.mpr ⟨hopp, hsame⟩

theorem Timed.call {s : Clocked} (h : Timed s) (hv : Valid s.book) (c : Call) :
    Timed (s.call c) := by
  cases c with
  | cancelOrder k =>
    exact h.of_sublist (s.book.cancelOrder_sublist k) (Nat.le_succ _) rfl
  | addOrder o =>
    by_cases hacc : s.book.accepts o = true
    · have hdupe : ¬s.book.isDupe o = true := by
        rw [accepts, Bool.and_eq_true, Bool.not_eq_true'] at hacc
        rw [hacc.1]
        exact Bool.false_ne_true
      have hnew : o.id ∉ s.book.liveIds := fun hk ↦ hdupe ((isDupe_iff _ o).mpr hk)
      have hcall : s.call (.addOrder o)
          = ⟨(s.book.addOrder o).1, s.now + 1, Function.update s.acceptedAt o.id s.now⟩ := by
        simp only [Clocked.call, Orderbook.call, if_pos hacc]
      rw [hcall]
      refine h.addOrder_accepted hv hdupe (Function.update_self ..) fun k hk ↦ ?_
      exact Function.update_of_ne (fun heq : k = o.id ↦ hnew (heq ▸ hk)) _ _
    · have hrej : (s.book.addOrder o).1 = s.book := by
        by_cases hdupe : s.book.isDupe o = true
        · rw [addOrder_of_isDupe hdupe]
        · rw [addOrder_of_qty_nonpos _ fun hq ↦ hacc (by simp [accepts, hdupe, hq])]
      refine h.of_sublist (fun d ↦ ?_) (Nat.le_succ _) ?_
      · simp only [Clocked.call, Orderbook.call, hrej]
        exact List.Sublist.refl _
      · simp only [Clocked.call, if_neg hacc]

theorem timed_clocked (calls : List Call) : Timed (clocked calls) := by
  induction calls using List.reverseRecOn with
  | nil =>
    refine ⟨fun k hk ↦ absurd hk List.not_mem_nil, fun d ↦ ?_⟩
    cases d <;> exact List.Pairwise.nil
  | append_singleton calls c ih =>
    rw [clocked_concat]
    exact ih.call (clocked_book calls ▸ valid_run calls) c

/-! ## The greedy fill

The abstract meaning of a call, from levels, quantities and acceptance times only. -/

/-- The resting order's level is within the incoming order's limit. -/
def compatible (incoming resting : Order) : Bool :=
  if incoming.isBuy then decide (resting.level ≤ incoming.level)
  else decide (incoming.level ≤ resting.level)

/-- Price-time priority on one side: a better price first, at equal prices the earlier acceptance.
Bids are better when higher and asks when lower, which is what `Order.rank` measures. -/
def hasPriority (time : ℕ → ℕ) (x y : Order) : Bool :=
  decide (y.rank < x.rank) || decide (x.rank = y.rank) && decide (time x.id ≤ time y.id)

/-- The live opposite orders an incoming order may trade with, in price-time priority. -/
def priorityList (calls : List Call) (incoming : Order) : Orders :=
  (((run calls).opposite incoming.isBuy).filter (compatible incoming)).mergeSort
    (hasPriority (acceptedAt calls))

def buyer (incoming resting : Order) : Order := if incoming.isBuy then incoming else resting

def seller (incoming resting : Order) : Order := if incoming.isBuy then resting else incoming

/-- The trade `t` reports that `incoming` took `q` from `resting`. -/
structure Reports (incoming resting : Order) (q : ℤ) (t : Trade) : Prop where
  orderIdA : t.orderIdA = (buyer incoming resting).id
  orderIdB : t.orderIdB = (seller incoming resting).id
  aggressorOrderId : t.aggressorOrderId = incoming.id
  aggressorIsBuy : t.aggressorIsBuy = incoming.isBuy
  level : t.level = (seller incoming resting).level
  level_le : t.level ≤ (buyer incoming resting).level
  size : t.size = q

/-- The trades are the greedy fill of a quantity `r` along `resting`: the `i`-th trade is with the
`i`-th order and takes as much as both sides have, a trade is made only while there is quantity
left, and the fill ends when the orders or the quantity are exhausted. -/
structure IsGreedyFill (incoming : Order) (r : ℤ) (resting : Orders) (ts : Trades) : Prop where
  length_le : ts.length ≤ resting.length
  reports : ∀ i t x, ts[i]? = some t → resting[i]? = some x →
    Reports incoming x (min x.qty (r - traded (ts.take i))) t
  quantity_left : ∀ i < ts.length, traded (ts.take i) < r
  exhausted : ts.length = resting.length ∨ traded ts = r

theorem reports_tradeWith {incoming best : Order} (h : compatible incoming best = true) (q : ℤ) :
    Reports incoming best q (tradeWith incoming best q) := by
  cases hd : incoming.isBuy <;> simp only [compatible, hd, Bool.false_eq_true, if_true, if_false,
    decide_eq_true_eq] at h <;>
    constructor <;> simp [tradeWith, buyer, seller, hd, h]

theorem IsGreedyFill.nil {incoming : Order} {r : ℤ} {resting : Orders}
    (h : resting = [] ∨ r = 0) : IsGreedyFill incoming r resting [] where
  length_le := Nat.zero_le _
  reports i t x ht := by simp at ht
  quantity_left i hi := absurd hi (Nat.not_lt_zero i)
  exhausted := by
    rcases h with rfl | rfl
    · exact Or.inl rfl
    · exact Or.inr rfl

/-- A fill continues behind its first trade with the quantity that trade left. -/
theorem IsGreedyFill.cons {incoming : Order} {r : ℤ} {resting : Orders} {ts : Trades}
    (best : Order) (hm : compatible incoming best = true) (hr : 0 < r)
    (h : IsGreedyFill incoming (r - min best.qty r) resting ts) :
    IsGreedyFill incoming r (best :: resting)
      (tradeWith incoming best (min best.qty r) :: ts) where
  length_le := Nat.succ_le_succ h.length_le
  reports := by
    rintro (_ | i) t x ht hx
    · obtain rfl : _ = t := Option.some.inj ht
      obtain rfl : _ = x := Option.some.inj hx
      rw [List.take_zero, traded_nil, sub_zero]
      exact reports_tradeWith hm _
    · have hrep := h.reports i t x ht hx
      rwa [sub_sub] at hrep
  quantity_left := by
    rintro (_ | i) hi
    · exact hr
    · have hlt := h.quantity_left i (Nat.lt_of_succ_lt_succ hi)
      rw [List.take_succ_cons, traded_cons]
      simp only [tradeWith]
      omega
  exhausted := by
    refine h.exhausted.imp (congrArg Nat.succ) fun hts ↦ ?_
    rw [traded_cons, hts]
    simp only [tradeWith]
    omega

/-- **The loop is the greedy fill** along the matching orders at the back of the side. -/
theorem matchLoop_isGreedyFill (incoming : Order) (stack : Orders) {r : ℤ} (hr : 0 ≤ r) :
    IsGreedyFill incoming r (stack.takeWhile (compatible incoming))
      (matchLoop incoming stack r).trades := by
  refine matchLoop_induct incoming (motive := fun stack r m ↦ 0 ≤ r →
    IsGreedyFill incoming r (stack.takeWhile (compatible incoming)) m.trades) ?_ ?_ ?_ stack r hr
  · intro stack r hstop hr
    apply IsGreedyFill.nil
    rcases hr.lt_or_eq with hpos | heq
    · left
      cases stack with
      | nil => rfl
      | cons best rest => exact List.takeWhile_cons_of_neg (hstop hpos best rfl)
    · exact Or.inr heq.symm
  · intro best rest r hpos hm hq ih _
    rw [List.takeWhile_cons_of_pos (p := compatible incoming) hm, Matched.emit_trades]
    have hrest := ih (by omega)
    rw [← min_eq_left hq] at hrest
    have hcons := IsGreedyFill.cons best hm hpos hrest
    rwa [min_eq_left hq] at hcons
  · intro best rest r hpos hm hq _
    rw [List.takeWhile_cons_of_pos (p := compatible incoming) hm]
    have hrest : IsGreedyFill incoming (r - min best.qty r)
        (rest.takeWhile (compatible incoming)) [] := IsGreedyFill.nil (Or.inr (by omega))
    have hcons := IsGreedyFill.cons best hm hpos hrest
    rwa [min_eq_right hq.le] at hcons

/-! ## The back of the side is the head of the priority list -/

theorem hasPriority_iff {time : ℕ → ℕ} {x y : Order} :
    hasPriority time x y = true ↔ y.rank < x.rank ∨ x.rank = y.rank ∧ time x.id ≤ time y.id := by
  simp only [hasPriority, Bool.or_eq_true, Bool.and_eq_true, decide_eq_true_eq]

/-- Read from the back, a side is in strict price-time priority. -/
theorem pairwise_reverse_priority (calls : List Call) (d : Bool) :
    ((run calls).same d).reverse.Pairwise fun x y ↦
      y.rank < x.rank ∨ x.rank = y.rank ∧ acceptedAt calls x.id < acceptedAt calls y.id := by
  have holder := (timed_clocked calls).older d
  rw [clocked_book] at holder
  rw [List.pairwise_reverse]
  refine (((valid_run calls).side d).sorted.and holder).imp fun {x y} hxy ↦ ?_
  rcases hxy.1.lt_or_eq with hlt | heq
  · exact Or.inl hlt
  · exact Or.inr ⟨heq.symm, hxy.2 heq⟩

/-- Sorting the compatible orders by priority gives the compatible orders from the back. -/
theorem priorityList_eq (calls : List Call) (incoming : Order) :
    priorityList calls incoming
      = ((run calls).opposite incoming.isBuy).reverse.filter (compatible incoming) := by
  rw [opposite_eq_same]
  have hpri := (pairwise_reverse_priority calls (!incoming.isBuy)).filter (compatible incoming)
  have hperm : (priorityList calls incoming).Perm
      (((run calls).same (!incoming.isBuy)).reverse.filter (compatible incoming)) := by
    rw [priorityList, opposite_eq_same]
    exact (List.mergeSort_perm _ _).trans ((List.reverse_perm _).filter _).symm
  have hsorted : (priorityList calls incoming).Pairwise fun x y ↦
      hasPriority (acceptedAt calls) x y = true := by
    refine List.pairwise_mergeSort ?_ ?_ _
    · intro x y z hxy hyz
      rw [hasPriority_iff] at hxy hyz ⊢
      omega
    · intro x y
      rw [Bool.or_eq_true, hasPriority_iff, hasPriority_iff]
      omega
  refine List.Perm.eq_of_pairwise ?_ hsorted (hpri.imp fun {x y} hxy ↦ ?_) hperm
  · -- two orders that precede each other were accepted by the same call
    intro x y hx hy hxy hyx
    rw [hasPriority_iff] at hxy hyx
    have hall := List.Pairwise.forall_of_forall_of_flip
      (R := fun x y ↦ x.rank = y.rank ∧ acceptedAt calls x.id = acceptedAt calls y.id → x = y)
      (fun x _ _ ↦ rfl) (hpri.imp fun {x y} h h' ↦ by omega) (hpri.imp fun {x y} h h' ↦ by omega)
    exact hall (hperm.mem_iff.mp hx) hy (by omega)
  · exact hasPriority_iff.mpr (hxy.imp id fun h ↦ ⟨h.1, h.2.le⟩)

theorem filter_compatible_eq_takeWhile (calls : List Call) (incoming : Order) :
    ((run calls).opposite incoming.isBuy).reverse.filter (compatible incoming)
      = ((run calls).opposite incoming.isBuy).reverse.takeWhile (compatible incoming) := by
  have hside := (valid_run calls).opposite_sorted incoming.isBuy
  refine LowerBound.Partitioned.filter_eq_takeWhile ?_
  rw [LowerBound.Partitioned, List.pairwise_reverse]
  refine hside.sorted.imp_of_mem fun {x y} hx hy hle hm ↦ ?_
  have hm' := (isMatch_iff (hside.isBuy_eq x hx)).mp hm
  exact (isMatch_iff (hside.isBuy_eq y hy)).mpr (by omega)

/-! ## The book after a call -/

private theorem tradedUnder_matchLoop_eq_zero {incoming : Order} {k : ℕ} (hk : incoming.id ≠ k)
    {stack : Orders} (hstack : ∀ x ∈ stack, x.id ≠ k) (r : ℤ) :
    tradedUnder k (matchLoop incoming stack r).trades = 0 := by
  have hsub := matchLoop_core_suffix incoming stack r
  have hleft : ∀ x ∈ (matchLoop incoming stack r).stack, x.id ≠ k := by
    intro x hx heq
    obtain ⟨y, hy, hyid⟩ := List.mem_map.mp
      ((map_id_sublist_of_core hsub.sublist).subset (List.mem_map_of_mem hx))
    exact hstack y hy (hyid.trans heq)
  have hsum := qtyOf_matchLoop hk stack r
  rw [qtyOf_eq_zero hstack, qtyOf_eq_zero hleft] at hsum
  omega

/-- An order less what was traded with it. -/
def reduced (ts : Trades) (o : Order) : Order := o.setQty (o.qty - tradedUnder o.id ts)

/-- A trade leaves the orders it does not name alone. -/
private theorem map_reduced_cons {incoming best : Order} {q : ℤ} {ts : Trades} {l : Orders}
    (h : ∀ x ∈ l, incoming.id ≠ x.id ∧ best.id ≠ x.id) :
    l.map (reduced (tradeWith incoming best q :: ts)) = l.map (reduced ts) := by
  refine List.map_congr_left fun x hx ↦ ?_
  have hname : ¬(tradeWith incoming best q).names x.id = true := by
    rw [names_tradeWith, not_or]
    exact h x hx
  rw [reduced, reduced, tradedUnder_cons, if_neg hname, zero_add]

/-- Filled orders leave the side, the others stay where they are with what is left of them. -/
theorem matchLoop_stack_eq {incoming : Order} {stack : Orders}
    (hnd : (stack.map Order.id).Nodup) (hid : ∀ x ∈ stack, incoming.id ≠ x.id)
    (hq : ∀ x ∈ stack, 0 < x.qty) (r : ℤ) :
    (matchLoop incoming stack r).stack
      = (stack.map (reduced (matchLoop incoming stack r).trades)).filter
          fun x ↦ decide (0 < x.qty) := by
  -- without trades nothing is reduced and nothing is filtered out
  have hself : ∀ l : Orders, (∀ x ∈ l, 0 < x.qty) →
      (l.map (reduced [])).filter (fun x ↦ decide (0 < x.qty)) = l := by
    intro l hl
    have hmap : l.map (reduced []) = l := by
      refine (List.map_congr_left fun x _ ↦ ?_).trans (List.map_id l)
      simp [reduced]
    rw [hmap, List.filter_eq_self]
    simpa using hl
  refine matchLoop_induct incoming (motive := fun stack r m ↦ (stack.map Order.id).Nodup →
    (∀ x ∈ stack, incoming.id ≠ x.id) → (∀ x ∈ stack, 0 < x.qty) →
    m.stack = (stack.map (reduced m.trades)).filter fun x ↦ decide (0 < x.qty))
    ?_ ?_ ?_ stack r hnd hid hq
  · intro stack r _ _ _ hq
    exact (hself stack hq).symm
  · intro best rest r _ _ _ ih hnd hid hq
    rw [List.map_cons, List.nodup_cons, List.mem_map] at hnd
    have hne : ∀ x ∈ rest, x.id ≠ best.id := fun x hx heq ↦ hnd.1 ⟨x, hx, heq⟩
    have hbest : (reduced (tradeWith incoming best best.qty
        :: (matchLoop incoming rest (r - best.qty)).trades) best).qty = 0 := by
      rw [reduced, Order.setQty_qty, tradedUnder_cons,
        if_pos ((names_tradeWith ..).mpr (Or.inr rfl)),
        tradedUnder_matchLoop_eq_zero (hid best List.mem_cons_self) hne]
      simp [tradeWith]
    rw [Matched.emit_stack, Matched.emit_trades, List.map_cons,
      List.filter_cons_of_neg (by rw [hbest]; decide),
      map_reduced_cons (fun x hx ↦ ⟨hid x (List.mem_cons_of_mem _ hx), (hne x hx).symm⟩)]
    exact ih hnd.2 (fun x hx ↦ hid x (List.mem_cons_of_mem _ hx))
      fun x hx ↦ hq x (List.mem_cons_of_mem _ hx)
  · intro best rest r _ _ hlt hnd hid hq
    rw [List.map_cons, List.nodup_cons, List.mem_map] at hnd
    have hne : ∀ x ∈ rest, x.id ≠ best.id := fun x hx heq ↦ hnd.1 ⟨x, hx, heq⟩
    have hbest : reduced [tradeWith incoming best r] best = best.setQty (best.qty - r) := by
      rw [reduced, tradedUnder_cons, if_pos ((names_tradeWith ..).mpr (Or.inr rfl)),
        tradedUnder_nil, add_zero]
      rfl
    rw [List.map_cons, hbest,
      List.filter_cons_of_pos (by rw [Order.setQty_qty]; simpa using hlt),
      map_reduced_cons (fun x hx ↦ ⟨hid x (List.mem_cons_of_mem _ hx), (hne x hx).symm⟩),
      hself rest fun x hx ↦ hq x (List.mem_cons_of_mem _ hx)]

/-- **Price-time priority.** In every reachable book, an incoming order with a new id and a positive
quantity trades as the greedy fill along the live compatible orders, best price first and oldest
first at equal prices. Afterwards the opposite side holds the same orders in the same places, less
what was traded with them and without the filled ones, and the remainder of the incoming order, if
any, rests on its own side behind the worse prices and in front of its equals. -/
theorem addOrder_price_time (calls : List Call) (incoming : Order)
    (hnew : incoming.id ∉ (run calls).liveIds) (hq : 0 < incoming.qty) :
    IsGreedyFill incoming incoming.qty (priorityList calls incoming)
        ((run calls).addOrder incoming).2 ∧
      ((run calls).addOrder incoming).1.opposite incoming.isBuy
        = (((run calls).opposite incoming.isBuy).map
            (reduced ((run calls).addOrder incoming).2)).filter (fun x ↦ decide (0 < x.qty)) ∧
      (traded ((run calls).addOrder incoming).2 = incoming.qty ∧
          ((run calls).addOrder incoming).1.same incoming.isBuy
            = (run calls).same incoming.isBuy ∨
        traded ((run calls).addOrder incoming).2 < incoming.qty ∧
          ∃ l₁ l₂, (run calls).same incoming.isBuy = l₁ ++ l₂ ∧
            ((run calls).addOrder incoming).1.same incoming.isBuy = l₁ ++
              incoming.setQty (incoming.qty - traded ((run calls).addOrder incoming).2) :: l₂ ∧
            (∀ x ∈ l₁, x.rank < incoming.rank) ∧ ∀ x ∈ l₂, incoming.rank ≤ x.rank) := by
  have h := valid_run calls
  have hdupe : ¬(run calls).isDupe incoming = true := fun hd ↦ hnew ((isDupe_iff _ _).mp hd)
  have hleft := (run calls).matching_remaining incoming
  have hnonneg : 0 ≤ ((run calls).matching incoming).remaining :=
    matchLoop_remaining_nonneg incoming _ hq.le
  obtain ⟨hopp, hsame⟩ := h.addOrder_sides hdupe
  rw [addOrder_trades hdupe]
  refine ⟨?_, ?_, ?_⟩
  · rw [priorityList_eq, filter_compatible_eq_takeWhile]
    exact matchLoop_isGreedyFill incoming _ hq.le
  · have hnd := h.nodup_sides incoming.isBuy
    rw [List.map_append] at hnd
    have hids : ∀ x ∈ ((run calls).opposite incoming.isBuy).reverse, incoming.id ≠ x.id := by
      intro x hx heq
      refine hnew ((mem_liveIds _ incoming.isBuy _).mpr (Or.inr ⟨x, ?_, heq.symm⟩))
      exact List.mem_reverse.mp hx
    have hstack := matchLoop_stack_eq (by
        rw [List.map_reverse, List.nodup_reverse]
        exact (List.nodup_append.mp hnd).2.1) hids
      (fun x hx ↦ h.opposite_qty_pos _ x (List.mem_reverse.mp hx)) incoming.qty
    rw [hopp, matching, hstack, List.map_reverse, List.filter_reverse, List.reverse_reverse]
  · rcases hsame with ⟨hpos, heq⟩ | ⟨hpos, l₁, l₂, heq, hins, h₁, h₂⟩
    · exact Or.inl ⟨by omega, heq⟩
    · rw [hleft] at hins
      exact Or.inr ⟨by omega, l₁, l₂, heq, hins, h₁, h₂⟩

/-- Two asks of one level: a buy takes all of the older one and a part of the younger one. -/
theorem addOrder_price_time_two_asks :
    ((run [.addOrder ⟨1, 10, false, 5⟩, .addOrder ⟨2, 10, false, 3⟩]).addOrder
        ⟨3, 11, true, 6⟩).2 = [⟨3, 1, 3, true, 10, 5⟩, ⟨3, 2, 3, true, 10, 1⟩] ∧
      IsGreedyFill ⟨3, 11, true, 6⟩ 6
        (priorityList [.addOrder ⟨1, 10, false, 5⟩, .addOrder ⟨2, 10, false, 3⟩] ⟨3, 11, true, 6⟩)
        ((run [.addOrder ⟨1, 10, false, 5⟩, .addOrder ⟨2, 10, false, 3⟩]).addOrder
          ⟨3, 11, true, 6⟩).2 :=
  ⟨by decide +kernel,
    (addOrder_price_time [.addOrder ⟨1, 10, false, 5⟩, .addOrder ⟨2, 10, false, 3⟩]
      ⟨3, 11, true, 6⟩ (by decide +kernel) (by decide)).1⟩

end Orderbook

end FastInAHurry
