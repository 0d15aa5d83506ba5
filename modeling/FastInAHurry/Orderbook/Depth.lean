import FastInAHurry.Library.Ladder
import FastInAHurry.Orderbook.Cancelled
import FastInAHurry.Orderbook.Splitting

/-!
# The depth of the book

A market-by-price view of the book forgets the orders and keeps, for each side, the quantity resting
at each price. It is a ladder on the ranks, and the book refines it: an accepted order sweeps the
opposite ladder down to its limit and rests on its own ladder with what the sweep left, a cancel
withdraws what was left of one order at its rank, and nothing else happens. The view is complete for
the flow that comes: which orders make up a price, how many and in which order, is not visible in
any quantity traded later.

The refinement holds because the loop serves the opposite side from the best price, so that each of
its shapes is one step of the sweep at the best rung.
-/

namespace FastInAHurry

namespace Orderbook

open Ladder

/-! ## The abstract market -/

/-- For each direction, the quantity at each rank. -/
abbrev Depth := Bool → ℤ →₀ ℕ

/-- What a call reports to the market-by-price view. -/
inductive Event where
  | submit (isBuy : Bool) (rank : ℤ) (qty : ℕ)
  | withdraw (isBuy : Bool) (rank : ℤ) (qty : ℕ)
deriving DecidableEq, Repr

/-- The depth after an event, for each side. Ranks `r` and `r'` of opposite directions trade when
`-r ≤ r'`. -/
noncomputable def Depth.apply (D : Depth) : Event → Depth
  | .submit isBuy rank qty => fun d ↦
    if d = isBuy then D d + Finsupp.single rank (qty - atLeast (D !d) (-rank))
    else D d - taken (D d) (-rank) qty
  | .withdraw isBuy rank qty => fun d ↦
    if d = isBuy then D d - Finsupp.single rank qty else D d

theorem Depth.submit_self (D : Depth) (d : Bool) (rank : ℤ) (qty : ℕ) :
    D.apply (.submit d rank qty) d =
      D d + Finsupp.single rank (qty - atLeast (D !d) (-rank)) := if_pos rfl

theorem Depth.submit_of_ne (D : Depth) {d e : Bool} (h : e ≠ d) (rank : ℤ) (qty : ℕ) :
    D.apply (.submit d rank qty) e = D e - taken (D e) (-rank) qty := if_neg h

theorem Depth.withdraw_self (D : Depth) (d : Bool) (rank : ℤ) (qty : ℕ) :
    D.apply (.withdraw d rank qty) d = D d - Finsupp.single rank qty := if_pos rfl

theorem Depth.withdraw_of_ne (D : Depth) {d e : Bool} (h : e ≠ d) (rank : ℤ) (qty : ℕ) :
    D.apply (.withdraw d rank qty) e = D e := if_neg h

/-- The depth after a sequence of calls, of which some report nothing. -/
noncomputable def Depth.replay (D : Depth) (events : List (Option Event)) : Depth :=
  events.foldl (fun D e ↦ e.elim D D.apply) D

/-! ## The depth of a book -/

/-- The quantity of a list of orders, rank by rank. -/
noncomputable def ladder (l : Orders) : ℤ →₀ ℕ :=
  (l.map fun o ↦ Finsupp.single o.rank o.qty.toNat).sum

noncomputable def depth (b : Orderbook) : Depth := fun d ↦ ladder (b.same d)

/-- The volume of a list of trades, price by price. -/
noncomputable def volume (ts : Trades) : ℤ →₀ ℕ :=
  (ts.map fun t ↦ Finsupp.single t.level t.size.toNat).sum

/-- The price of a trade with a resting order of the given rank: the seller's. -/
def tradeLevel (incoming : Order) (rank : ℤ) : ℤ :=
  if incoming.isBuy then -rank else incoming.level

/-- What a call reports: nothing when it is rejected or names no live order. -/
def event (b : Orderbook) : Call → Option Event
  | .addOrder o => if b.isDupe o then none else some (.submit o.isBuy o.rank o.qty.toNat)
  | .cancelOrder k => ((b.bids ++ b.asks).find? fun o ↦ decide (o.id = k)).map fun o ↦
      .withdraw o.isBuy o.rank o.qty.toNat

/-- What the calls of a run report. -/
def events (b : Orderbook) : List Call → List (Option Event)
  | [] => []
  | c :: calls => b.event c :: events (b.call c).1 calls

@[simp] theorem ladder_nil : ladder [] = 0 := rfl

@[simp] theorem ladder_cons (o : Order) (l : Orders) :
    ladder (o :: l) = Finsupp.single o.rank o.qty.toNat + ladder l := by
  rw [ladder, List.map_cons, List.sum_cons, ladder]

theorem ladder_perm {l l' : Orders} (h : l.Perm l') : ladder l = ladder l' := (h.map _).sum_eq

/-- A ladder is empty where no order rests. -/
theorem ladder_eq_zero {l : Orders} {r : ℤ} (h : ∀ o ∈ l, o.rank ≠ r) : ladder l r = 0 := by
  induction l with
  | nil => rfl
  | cons o l ih =>
    rw [ladder_cons, Finsupp.add_apply, Finsupp.single_eq_of_ne (h o List.mem_cons_self).symm,
      zero_add]
    exact ih fun x hx ↦ h x (List.mem_cons_of_mem o hx)

@[simp] theorem volume_nil : volume [] = 0 := rfl

@[simp] theorem volume_cons (t : Trade) (ts : Trades) :
    volume (t :: ts) = Finsupp.single t.level t.size.toNat + volume ts := by
  rw [volume, List.map_cons, List.sum_cons, volume]

/-! ## The loop sweeps the ladder -/

/-- The loop took from a ladder what the sweep down to its limit takes. -/
structure Swept (incoming : Order) (f : ℤ →₀ ℕ) (q : ℕ) (m : Matched) : Prop where
  stack : ladder m.stack = f - taken f (-incoming.rank) q
  volume : volume m.trades = (taken f (-incoming.rank) q).mapDomain (tradeLevel incoming)
  remaining : m.remaining.toNat = q - atLeast f (-incoming.rank)

theorem level_tradeWith {incoming best : Order} (h : best.isBuy = !incoming.isBuy) (q : ℤ) :
    (tradeWith incoming best q).level = tradeLevel incoming best.rank := by
  cases hd : incoming.isBuy <;> rw [hd] at h <;> simp [tradeWith, tradeLevel, Order.rank, hd, h]

/-- A loop that stops at once found nothing to sweep or had nothing to sweep with. -/
theorem Swept.stop {incoming : Order} {l : Orders} {r : ℤ}
    (h : r ≤ 0 ∨ ∀ o ∈ l, incoming.rank + o.rank < 0) :
    Swept incoming (ladder l) r.toNat ⟨l, r, []⟩ := by
  have hnone : taken (ladder l) (-incoming.rank) r.toNat = 0 ∧
      r.toNat = r.toNat - atLeast (ladder l) (-incoming.rank) := by
    rcases h with hr | hl
    · rw [Int.toNat_of_nonpos hr]
      exact ⟨taken_zero _ _, (Nat.zero_sub _).symm⟩
    · have hempty : ∀ j, -incoming.rank ≤ j → ladder l j = 0 := fun j hj ↦
        ladder_eq_zero fun o ho ↦ by
          have hlt := hl o ho
          omega
      exact ⟨taken_eq_zero hempty _, by rw [atLeast_eq_zero hempty, Nat.sub_zero]⟩
  constructor
  · rw [hnone.1, tsub_zero]
  · rw [hnone.1, Finsupp.mapDomain_zero, volume_nil]
  · exact hnone.2

theorem Swept.fill {incoming best : Order} {f : ℤ →₀ ℕ} {r : ℤ} {m : Matched}
    (hbest : best.isBuy = !incoming.isBuy) (hm : 0 ≤ incoming.rank + best.rank)
    (hf : ∀ j, best.rank < j → f j = 0) (hpos : 0 ≤ best.qty) (hq : best.qty ≤ r)
    (h : Swept incoming f (r - best.qty).toNat m) :
    Swept incoming (Finsupp.single best.rank best.qty.toNat + f) r.toNat
      (m.emit (tradeWith incoming best best.qty)) := by
  have hlo : -incoming.rank ≤ best.rank := by omega
  have hle : best.qty.toNat ≤ r.toNat := by omega
  have hrest : (r - best.qty).toNat = r.toNat - best.qty.toNat := by omega
  rw [hrest] at h
  constructor
  · rw [Matched.emit_stack, h.stack, taken_add_single_of_le hlo hf hle, add_tsub_add_eq_tsub_left]
  · rw [Matched.emit_trades, volume_cons, h.volume, level_tradeWith hbest,
      taken_add_single_of_le hlo hf hle, Finsupp.mapDomain_add, Finsupp.mapDomain_single]
    rfl
  · rw [Matched.emit_remaining, h.remaining, atLeast_add_single _ _ hlo, Nat.sub_sub]

theorem Swept.part {incoming best : Order} {rest : Orders} {r : ℤ}
    (hbest : best.isBuy = !incoming.isBuy) (hm : 0 ≤ incoming.rank + best.rank)
    (hf : ∀ j, best.rank < j → ladder rest j = 0) (hr : 0 < r) (hq : r < best.qty) :
    Swept incoming (ladder (best :: rest)) r.toNat
      ⟨best.setQty (best.qty - r) :: rest, 0, [tradeWith incoming best r]⟩ := by
  have hlo : -incoming.rank ≤ best.rank := by omega
  have hlt : r.toNat < best.qty.toNat := by omega
  have hleft : best.qty.toNat = r.toNat + (best.qty - r).toNat := by omega
  constructor
  · rw [ladder_cons, ladder_cons, taken_add_single_of_lt hlo hf hlt, Order.rank_setQty,
      Order.setQty_qty, hleft, Finsupp.single_add, add_assoc, add_tsub_cancel_left]
  · rw [ladder_cons, taken_add_single_of_lt hlo hf hlt, Finsupp.mapDomain_single, volume_cons,
      volume_nil, add_zero, level_tradeWith hbest]
    rfl
  · rw [ladder_cons, atLeast_add_single _ _ hlo]
    change 0 = _
    omega

/-- **The loop sweeps the ladder of its stack**, which is sorted from the best rank down. -/
theorem matchLoop_swept {incoming : Order} {stack : Orders}
    (hside : ∀ o ∈ stack, o.isBuy = !incoming.isBuy)
    (hsorted : stack.Pairwise fun x y ↦ y.rank ≤ x.rank) (hpos : ∀ o ∈ stack, 0 < o.qty) (r : ℤ) :
    Swept incoming (ladder stack) r.toNat (matchLoop incoming stack r) := by
  have hbelow : ∀ {best : Order} {rest : Orders}, (∀ x ∈ rest, x.rank ≤ best.rank) →
      ∀ j, best.rank < j → ladder rest j = 0 := fun h j hj ↦
    ladder_eq_zero fun x hx ↦ by
      have hle := h x hx
      omega
  refine matchLoop_induct incoming (motive := fun stack r m ↦
    (∀ o ∈ stack, o.isBuy = !incoming.isBuy) → (stack.Pairwise fun x y ↦ y.rank ≤ x.rank) →
    (∀ o ∈ stack, 0 < o.qty) → Swept incoming (ladder stack) r.toNat m) ?_ ?_ ?_
    stack r hside hsorted hpos
  · intro stack r hstop hside hsorted _
    apply Swept.stop
    rcases le_or_gt r 0 with hr | hr
    · exact Or.inl hr
    · right
      cases stack with
      | nil => simp
      | cons best rest =>
        have hbest : incoming.rank + best.rank < 0 := not_le.mp fun hm ↦
          hstop hr best rfl ((isMatch_iff (hside best List.mem_cons_self)).mpr hm)
        intro o ho
        rcases List.mem_cons.mp ho with rfl | ho
        · exact hbest
        · have hle := (List.pairwise_cons.mp hsorted).1 o ho
          omega
  · intro best rest r _ hm hq ih hside hsorted hpos
    have hsort := List.pairwise_cons.mp hsorted
    have hbest := hside best List.mem_cons_self
    rw [ladder_cons]
    exact Swept.fill hbest ((isMatch_iff hbest).mp hm) (hbelow hsort.1)
      (hpos best List.mem_cons_self).le hq
      (ih (fun o ho ↦ hside o (List.mem_cons_of_mem best ho)) hsort.2
        fun o ho ↦ hpos o (List.mem_cons_of_mem best ho))
  · intro best rest r hr hm hq hside hsorted _
    have hbest := hside best List.mem_cons_self
    exact Swept.part hbest ((isMatch_iff hbest).mp hm) (hbelow (List.pairwise_cons.mp hsorted).1)
      hr hq

/-! ## One call -/

theorem Valid.matching_swept {b : Orderbook} (h : Valid b) (o : Order) :
    Swept o (b.depth !o.isBuy) o.qty.toNat (b.matching o) := by
  have hside := h.opposite_sorted o.isBuy
  have hswept := matchLoop_swept
    (fun x (hx : x ∈ (b.opposite o.isBuy).reverse) ↦ hside.isBuy_eq x (List.mem_reverse.mp hx))
    (List.pairwise_reverse.mpr hside.sorted)
    (fun x hx ↦ h.opposite_qty_pos _ x (List.mem_reverse.mp hx)) o.qty
  rw [ladder_perm (List.reverse_perm _)] at hswept
  rw [depth, ← opposite_eq_same]
  exact hswept

/-- **An accepted order is a submission**, whatever its quantity. -/
theorem Valid.depth_addOrder {b : Orderbook} (h : Valid b) {o : Order}
    (hdupe : ¬b.isDupe o = true) :
    depth (b.addOrder o).1 = b.depth.apply (.submit o.isBuy o.rank o.qty.toNat) := by
  have hswept := h.matching_swept o
  obtain ⟨hopp, hsame⟩ := h.addOrder_sides hdupe
  funext d
  by_cases hd : d = o.isBuy
  · subst hd
    rw [Depth.submit_self, ← hswept.remaining, depth, depth]
    rcases hsame with ⟨hrem, heq⟩ | ⟨-, l₁, l₂, heq, hins, -⟩
    · rw [heq, Int.toNat_of_nonpos (not_lt.mp hrem), Finsupp.single_zero, add_zero]
    · rw [heq, hins, ladder_perm List.perm_middle, ladder_cons, add_comm, Order.rank_setQty,
        Order.setQty_qty]
  · have hflip : d = !o.isBuy := Bool.eq_not_of_ne hd
    subst hflip
    rw [Depth.submit_of_ne _ hd, ← hswept.stack, depth, ← opposite_eq_same, hopp,
      ladder_perm (List.reverse_perm _)]

/-- The first order that satisfies a test, taken out of a list. -/
theorem ladder_eraseP {p : Order → Bool} {l : Orders} {o : Order} (h : l.find? p = some o) :
    ladder (l.eraseP p) = ladder l - Finsupp.single o.rank o.qty.toNat := by
  have hsplit : ladder l = Finsupp.single o.rank o.qty.toNat + ladder (l.eraseP p) := by
    induction l with
    | nil => cases h
    | cons x l ih =>
      by_cases hx : p x = true
      · rw [List.find?_cons_of_pos hx] at h
        cases h
        rw [List.eraseP_cons_of_pos hx, ladder_cons]
      · rw [List.find?_cons_of_neg hx] at h
        rw [List.eraseP_cons_of_neg hx, ladder_cons, ladder_cons, ih h]
        exact add_left_comm _ _ _
  rw [hsplit, add_tsub_cancel_left]

/-- **A cancel withdraws what was left of the order it finds**, and changes nothing else. -/
theorem Valid.depth_cancelOrder {b : Orderbook} (h : Valid b) (k : ℕ) :
    depth (b.cancelOrder k) = (b.event (.cancelOrder k)).elim b.depth b.depth.apply := by
  rw [Orderbook.cancelOrder, event, List.find?_append, ← List.isSome_find?, ← List.isSome_find?]
  cases hbid : b.bids.find? fun o ↦ decide (o.id = k) with
  | some o =>
    have hbuy := (h.side true).isBuy_eq o (List.mem_of_find?_eq_some hbid)
    rw [Option.some_or, Option.map_some, Option.elim_some, Option.isSome_some, if_pos rfl, hbuy]
    funext d
    cases d
    · rw [Depth.withdraw_of_ne _ Bool.false_ne_true]
      rfl
    · rw [Depth.withdraw_self]
      exact ladder_eraseP hbid
  | none =>
    rw [Option.none_or, Option.isSome_none, if_neg Bool.false_ne_true]
    cases hask : b.asks.find? fun o ↦ decide (o.id = k) with
    | some o =>
      have hbuy := (h.side false).isBuy_eq o (List.mem_of_find?_eq_some hask)
      rw [Option.map_some, Option.elim_some, Option.isSome_some, if_pos rfl, hbuy]
      funext d
      cases d
      · rw [Depth.withdraw_self]
        exact ladder_eraseP hask
      · rw [Depth.withdraw_of_ne _ Bool.false_ne_true.symm]
        rfl
    | none => rfl

/-- **One call is the event it reports.** -/
theorem Valid.depth_call {b : Orderbook} (h : Valid b) (c : Call) :
    depth (b.call c).1 = (b.event c).elim b.depth b.depth.apply := by
  cases c with
  | addOrder o =>
    rw [Orderbook.call, event]
    by_cases hdupe : b.isDupe o = true
    · rw [if_pos hdupe, addOrder_of_isDupe hdupe]
      rfl
    · rw [if_neg hdupe]
      exact h.depth_addOrder hdupe
  | cancelOrder k => exact h.depth_cancelOrder k

/-- The volume an accepted order trades at each price, from the depth alone. -/
theorem Valid.volume_addOrder {b : Orderbook} (h : Valid b) {o : Order}
    (hdupe : ¬b.isDupe o = true) :
    volume (b.addOrder o).2 =
      (taken (b.depth !o.isBuy) (-o.rank) o.qty.toNat).mapDomain (tradeLevel o) := by
  rw [addOrder_trades hdupe]
  exact (h.matching_swept o).volume

/-! ## Runs -/

theorem Valid.depth_runFrom {b : Orderbook} (h : Valid b) (calls : List Call) :
    depth (b.runFrom calls) = b.depth.replay (b.events calls) := by
  induction calls generalizing b with
  | nil => rfl
  | cons c calls ih =>
    rw [events, Depth.replay, List.foldl_cons, ← h.depth_call c]
    exact ih (h.call c)

/-- **The market-by-price refinement.** The depth of every reachable book is the replay of what its
calls reported, from the empty depth on, and the volume that the next accepted order trades at each
price is the sweep of that depth down to its limit, at the seller's prices. -/
theorem run_depth (calls : List Call) :
    depth (run calls) = Depth.replay 0 (empty.events calls) ∧
      ∀ o : Order, ¬(run calls).isDupe o = true →
        volume ((run calls).addOrder o).2 =
          (taken (Depth.replay 0 (empty.events calls) !o.isBuy) (-o.rank) o.qty.toNat).mapDomain
            (tradeLevel o) := by
  have hempty : depth empty = 0 := by
    funext d
    cases d <;> rfl
  have hdepth : depth (run calls) = Depth.replay 0 (empty.events calls) :=
    hempty ▸ Valid.empty.depth_runFrom calls
  exact ⟨hdepth, fun o hdupe ↦ hdepth ▸ (valid_run calls).volume_addOrder hdupe⟩

/-- The ids of the orders are new to the book and to each other. -/
structure Fresh (b : Orderbook) (os : List Order) : Prop where
  notMem : ∀ o ∈ os, o.id ∉ b.liveIds
  nodup : (os.map Order.id).Nodup

theorem Fresh.tail {b : Orderbook} (h : Valid b) {o : Order} {os : List Order}
    (hfresh : Fresh b (o :: os)) : Fresh (b.addOrder o).1 os where
  notMem x hx hmem := by
    have hdupe : ¬b.isDupe o = true := fun hd ↦
      hfresh.notMem o List.mem_cons_self ((b.isDupe_iff o).mp hd)
    rcases h.mem_liveIds_addOrder hdupe hmem with heq | hmem
    · exact (List.nodup_cons.mp hfresh.nodup).1 (heq ▸ List.mem_map_of_mem hx)
    · exact hfresh.notMem x (List.mem_cons_of_mem o hx) hmem
  nodup := (List.nodup_cons.mp hfresh.nodup).2

/-- The orders have the same side, price and quantity. -/
def SameTerms (o o' : Order) : Prop := Alike o o' ∧ o'.qty = o.qty

theorem Valid.same_volumes {b b' : Orderbook} (h : Valid b) (h' : Valid b')
    (hdepth : b.depth = b'.depth) {os os' : List Order} (hterms : List.Forall₂ SameTerms os os')
    (hfresh : Fresh b os) (hfresh' : Fresh b' os') :
    depth (b.runFrom (os.map .addOrder)) = depth (b'.runFrom (os'.map .addOrder)) ∧
      (b.returned (os.map .addOrder)).map volume =
        (b'.returned (os'.map .addOrder)).map volume := by
  induction hterms generalizing b b' with
  | nil => exact ⟨hdepth, rfl⟩
  | @cons o o' os os' hterm _ ih =>
    obtain ⟨⟨hlevel, hbuy⟩, hqty⟩ := hterm
    have hrank : o'.rank = o.rank := by rw [Order.rank, Order.rank, hlevel, hbuy]
    have htrade : tradeLevel o' = tradeLevel o := by
      funext r
      rw [tradeLevel, tradeLevel, hlevel, hbuy]
    have hdupe : ¬b.isDupe o = true := fun hd ↦
      hfresh.notMem o List.mem_cons_self ((b.isDupe_iff o).mp hd)
    have hdupe' : ¬b'.isDupe o' = true := fun hd ↦
      hfresh'.notMem o' List.mem_cons_self ((b'.isDupe_iff o').mp hd)
    -- the first order finds the same depth, so it leaves the same depth and volume
    have hnext : depth (b.addOrder o).1 = depth (b'.addOrder o').1 := by
      rw [h.depth_addOrder hdupe, h'.depth_addOrder hdupe', hdepth, hrank, hbuy, hqty]
    have hvolume : volume (b.addOrder o).2 = volume (b'.addOrder o').2 := by
      rw [h.volume_addOrder hdupe, h'.volume_addOrder hdupe', hdepth, hrank, hbuy, hqty, htrade]
    obtain ⟨hend, hrest⟩ := ih (h.addOrder o) (h'.addOrder o') hnext (hfresh.tail h)
      (hfresh'.tail h')
    refine ⟨hend, ?_⟩
    rw [List.map_cons, List.map_cons, returned, returned, List.map_cons, List.map_cons]
    exact congrArg₂ List.cons hvolume hrest

/-- **Depth is all that a flow of orders can tell.** Two reachable books of equal depth, however
many orders they hold at each price and in whatever order, answer the same flow of new orders with
the same volume at each price, order by order, and keep equal depth. -/
theorem same_depth_same_volumes (calls calls' : List Call)
    (hdepth : depth (run calls) = depth (run calls')) (os os' : List Order)
    (hterms : List.Forall₂ SameTerms os os') (hfresh : Fresh (run calls) os)
    (hfresh' : Fresh (run calls') os') :
    depth (run (calls ++ os.map .addOrder)) = depth (run (calls' ++ os'.map .addOrder)) ∧
      ((run calls).returned (os.map .addOrder)).map volume =
        ((run calls').returned (os'.map .addOrder)).map volume := by
  rw [run, run, runFrom_append, runFrom_append]
  exact (valid_run calls).same_volumes (valid_run calls') hdepth hterms hfresh hfresh'

/-- Two asks in one book are one ask in the other, and a buy takes a part of the second one. -/
theorem same_depth_same_volumes_two_asks :
    depth (run ([.addOrder ⟨1, 10, false, 3⟩, .addOrder ⟨2, 10, false, 2⟩]
        ++ [⟨3, 11, true, 4⟩].map .addOrder)) =
      depth (run ([.addOrder ⟨7, 10, false, 5⟩] ++ [⟨1, 11, true, 4⟩].map .addOrder)) := by
  have htwo : run [.addOrder ⟨1, 10, false, 3⟩, .addOrder ⟨2, 10, false, 2⟩] =
      ⟨[], [⟨2, 10, false, 2⟩, ⟨1, 10, false, 3⟩]⟩ := by decide +kernel
  have hone : run [.addOrder ⟨7, 10, false, 5⟩] = ⟨[], [⟨7, 10, false, 5⟩]⟩ := by decide +kernel
  refine (same_depth_same_volumes [.addOrder ⟨1, 10, false, 3⟩, .addOrder ⟨2, 10, false, 2⟩]
    [.addOrder ⟨7, 10, false, 5⟩] ?_ [⟨3, 11, true, 4⟩] [⟨1, 11, true, 4⟩]
    (.cons ⟨⟨rfl, rfl⟩, rfl⟩ .nil) ⟨by decide +kernel, by decide⟩
    ⟨by decide +kernel, by decide⟩).1
  rw [htwo, hone]
  funext d
  cases d <;> simp [depth, same, Order.rank, ← Finsupp.single_add]

end Orderbook

end FastInAHurry
