import FastInAHurry.Orderbook.Conservation

/-!
# A cancelled order leaves no trace

Two runs are compared: one in which an order is added and later cancelled without having traded, and
the same run without those two calls. Between the two calls the books differ by that one order,
which rests somewhere on its side with its whole quantity; everything else is the same, in the same
place.

The relation survives the calls in between for two reasons. An insertion at the lower bound splits
the side by rank, so it does not depend on which other orders are there. And the matching loop,
walking the side from the back, may meet the extra order only to stop in front of it: then the next
order behind it has no better price, so the loop stops there without the extra order too.
-/

namespace FastInAHurry

namespace Orderbook

/-! ## Runs and what they return -/

/-- The trades returned by each call of a run. -/
def returned (b : Orderbook) : List Call → List Trades
  | [] => []
  | c :: calls => (b.call c).2 :: returned (b.call c).1 calls

theorem length_returned (b : Orderbook) (calls : List Call) :
    (b.returned calls).length = calls.length := by
  induction calls generalizing b with
  | nil => rfl
  | cons c calls ih => rw [returned, List.length_cons, List.length_cons, ih]

theorem returned_append (b : Orderbook) (calls calls' : List Call) :
    b.returned (calls ++ calls') = b.returned calls ++ (b.runFrom calls).returned calls' := by
  induction calls generalizing b with
  | nil => rfl
  | cons c calls ih =>
    rw [List.cons_append, returned, returned, ih, List.cons_append]
    rfl

/-- The call names the order `k`. -/
def Call.uses (k : ℕ) : Call → Bool
  | .addOrder incoming => decide (incoming.id = k)
  | .cancelOrder orderId => decide (orderId = k)

/-! ## One order more -/

/-- `l` is `l'` with the order `o` put in somewhere. -/
def Extra (o : Order) (l l' : Orders) : Prop := ∃ l₁ l₂, l = l₁ ++ o :: l₂ ∧ l' = l₁ ++ l₂

theorem Extra.any_id {o : Order} {l l' : Orders} (h : Extra o l l') {k : ℕ} (hk : o.id ≠ k) :
    (l.any fun x ↦ decide (x.id = k)) = l'.any fun x ↦ decide (x.id = k) := by
  obtain ⟨l₁, l₂, rfl, rfl⟩ := h
  simp [hk]

theorem Extra.eraseP {o : Order} {l l' : Orders} (h : Extra o l l') {p : Order → Bool}
    (ho : ¬p o = true) : Extra o (l.eraseP p) (l'.eraseP p) := by
  obtain ⟨l₁, l₂, rfl, rfl⟩ := h
  by_cases h₁ : ∃ x ∈ l₁, p x = true
  · obtain ⟨x, hx, hpx⟩ := h₁
    refine ⟨l₁.eraseP p, l₂, ?_, ?_⟩
    · rw [List.eraseP_append_left hpx _ hx]
    · rw [List.eraseP_append_left hpx _ hx]
  · have hnone : ∀ x ∈ l₁, ¬p x = true := fun x hx hpx ↦ h₁ ⟨x, hx, hpx⟩
    refine ⟨l₁, l₂.eraseP p, ?_, ?_⟩
    · rw [List.eraseP_append_right _ hnone, List.eraseP_cons_of_neg ho]
    · rw [List.eraseP_append_right _ hnone]

/-! ## Insertion by rank -/

/-- The side with `o` put in behind the worse prices. -/
def insertRank (o : Order) (l : Orders) : Orders :=
  (l.filter fun x ↦ decide (x.rank < o.rank)) ++
    o :: l.filter fun x ↦ !decide (x.rank < o.rank)

theorem insertRank_of_split {o : Order} {l l₁ l₂ : Orders} (hl : l = l₁ ++ l₂)
    (h₁ : ∀ x ∈ l₁, x.rank < o.rank) (h₂ : ∀ x ∈ l₂, o.rank ≤ x.rank) :
    l₁ ++ o :: l₂ = insertRank o l := by
  have hlow₁ : (l₁.filter fun x ↦ decide (x.rank < o.rank)) = l₁ :=
    List.filter_eq_self.mpr fun x hx ↦ decide_eq_true (h₁ x hx)
  have hhigh₁ : (l₁.filter fun x ↦ !decide (x.rank < o.rank)) = [] :=
    List.filter_eq_nil_iff.mpr fun x hx ↦ by simp [h₁ x hx]
  have hlow₂ : (l₂.filter fun x ↦ decide (x.rank < o.rank)) = [] :=
    List.filter_eq_nil_iff.mpr fun x hx ↦ by simp [h₂ x hx]
  have hhigh₂ : (l₂.filter fun x ↦ !decide (x.rank < o.rank)) = l₂ :=
    List.filter_eq_self.mpr fun x hx ↦ by simp [h₂ x hx]
  rw [insertRank, hl, List.filter_append, List.filter_append, hlow₁, hhigh₁, hlow₂, hhigh₂,
    List.append_nil, List.nil_append]

theorem Extra.insertRank {o : Order} {l l' : Orders} (h : Extra o l l') (x : Order) :
    Extra o (insertRank x l) (insertRank x l') := by
  obtain ⟨l₁, l₂, rfl, rfl⟩ := h
  by_cases ho : o.rank < x.rank
  · refine ⟨l₁.filter fun y ↦ decide (y.rank < x.rank),
      (l₂.filter fun y ↦ decide (y.rank < x.rank)) ++
        x :: (l₁ ++ l₂).filter fun y ↦ !decide (y.rank < x.rank), ?_, ?_⟩ <;>
      simp [Orderbook.insertRank, ho]
  · refine ⟨(l₁ ++ l₂).filter (fun y ↦ decide (y.rank < x.rank)) ++
        x :: l₁.filter fun y ↦ !decide (y.rank < x.rank),
      l₂.filter fun y ↦ !decide (y.rank < x.rank), ?_, ?_⟩ <;>
      simp [Orderbook.insertRank, ho]

/-- **What an accepted order does to its own side.** -/
theorem Valid.addOrder_same {b : Orderbook} (h : Valid b) {o : Order}
    (hdupe : ¬b.isDupe o = true) :
    (b.addOrder o).1.same o.isBuy =
      if 0 < (b.matching o).remaining then
        insertRank (o.setQty (b.matching o).remaining) (b.same o.isBuy)
      else b.same o.isBuy := by
  rcases (h.addOrder_sides hdupe).2 with ⟨hpos, heq⟩ | ⟨hpos, l₁, l₂, heq, hins, h₁, h₂⟩
  · rw [if_neg hpos, heq]
  · rw [if_pos hpos, hins]
    exact insertRank_of_split heq h₁ h₂

/-! ## The loop meets the extra order -/

/-- **The loop does not notice an order that it does not trade with.** -/
theorem matchLoop_extra {incoming o : Order} {rest : Orders}
    (ho : o.isBuy = !incoming.isBuy)
    (hrest : ∀ y ∈ rest, y.isBuy = (!incoming.isBuy) ∧ y.rank ≤ o.rank) (stack : Orders) (r : ℤ)
    (hnames : ∀ t ∈ (matchLoop incoming (stack ++ o :: rest) r).trades, ¬t.names o.id = true) :
    ∃ left r' ts, matchLoop incoming (stack ++ o :: rest) r = ⟨left ++ o :: rest, r', ts⟩ ∧
      matchLoop incoming (stack ++ rest) r = ⟨left ++ rest, r', ts⟩ := by
  induction stack generalizing r with
  | nil =>
    by_cases hr : 0 < r
    swap
    · exact ⟨[], r, [], matchLoop_of_not_pos incoming _ hr, matchLoop_of_not_pos incoming _ hr⟩
    have hnot : ¬isMatch incoming o = true := by
      intro hm
      have hfirst : ∃ q ts, (matchLoop incoming (o :: rest) r).trades =
          tradeWith incoming o q :: ts := by
        rcases le_or_gt o.qty r with hq | hq
        · exact ⟨_, _, by rw [matchLoop_fill rest hr hm hq]; rfl⟩
        · exact ⟨_, _, by rw [matchLoop_part rest hr hm hq]⟩
      obtain ⟨q, ts, hts⟩ := hfirst
      rw [List.nil_append, hts] at hnames
      exact hnames _ List.mem_cons_self ((names_tradeWith incoming o q o.id).mpr (Or.inr rfl))
    refine ⟨[], r, [], matchLoop_of_not_isMatch rest r hnot, ?_⟩
    cases rest with
    | nil => rw [List.append_nil, matchLoop]
    | cons y rest =>
      -- the order behind the extra one has no better price
      obtain ⟨hy, hle⟩ := hrest y List.mem_cons_self
      refine matchLoop_of_not_isMatch rest r fun hm ↦ hnot ?_
      rw [isMatch_iff hy] at hm
      rw [isMatch_iff ho]
      omega
  | cons best stack ih =>
    rw [List.cons_append] at hnames ⊢
    rw [List.cons_append]
    by_cases hr : 0 < r
    swap
    · exact ⟨best :: stack, r, [], matchLoop_of_not_pos incoming _ hr,
        matchLoop_of_not_pos incoming _ hr⟩
    by_cases hm : isMatch incoming best = true
    swap
    · exact ⟨best :: stack, r, [], matchLoop_of_not_isMatch _ r hm,
        matchLoop_of_not_isMatch _ r hm⟩
    rcases le_or_gt best.qty r with hq | hq
    · rw [matchLoop_fill _ hr hm hq] at hnames ⊢
      rw [matchLoop_fill _ hr hm hq]
      obtain ⟨left, r', ts, hwith, hwithout⟩ := ih (r - best.qty) fun t ht ↦
        hnames t (List.mem_cons_of_mem _ ht)
      rw [hwith, hwithout]
      exact ⟨left, r', tradeWith incoming best best.qty :: ts, rfl, rfl⟩
    · rw [matchLoop_part _ hr hm hq, matchLoop_part _ hr hm hq]
      exact ⟨best.setQty (best.qty - r) :: stack, 0, [tradeWith incoming best r], rfl, rfl⟩

/-! ## Two books -/

/-- `b` is `b'` with the order `o` resting on its side as well. -/
structure Beside (o : Order) (b b' : Orderbook) : Prop where
  same : Extra o (b.same o.isBuy) (b'.same o.isBuy)
  opposite : b.opposite o.isBuy = b'.opposite o.isBuy

section Calls

variable {o : Order} {b b' : Orderbook}

theorem Beside.isDupe_eq (h : Beside o b b') {x : Order} (hx : o.id ≠ x.id) :
    b.isDupe x = b'.isDupe x := by
  have hsame := h.same.any_id hx
  have hopp := congrArg (fun l : Orders ↦ l.any fun y ↦ decide (y.id = x.id)) h.opposite
  cases hd : o.isBuy <;> rw [hd] at hsame hopp
  · exact congrArg₂ (· || ·) hopp hsame
  · exact congrArg₂ (· || ·) hsame hopp

theorem Beside.cancelOrder (h : Beside o b b') {k : ℕ} (hk : o.id ≠ k) :
    Beside o (b.cancelOrder k) (b'.cancelOrder k) := by
  have hany := h.same.any_id hk
  have herase := h.same.eraseP (p := fun x ↦ decide (x.id = k)) (by simp [hk])
  obtain ⟨hsame, hopp⟩ := h
  rcases b with ⟨bids, asks⟩
  rcases b' with ⟨bids', asks'⟩
  cases hd : o.isBuy <;> rw [hd] at hany herase hsame hopp
  · obtain rfl : bids = bids' := hopp
    replace hany : (asks.any fun x ↦ decide (x.id = k)) = asks'.any _ := hany
    simp only [Orderbook.cancelOrder, hany]
    repeat' split
    · exact ⟨hd ▸ hsame, hd ▸ rfl⟩
    · exact ⟨hd ▸ herase, hd ▸ rfl⟩
    · exact ⟨hd ▸ hsame, hd ▸ rfl⟩
  · obtain rfl : asks = asks' := hopp
    replace hany : (bids.any fun x ↦ decide (x.id = k)) = bids'.any _ := hany
    simp only [Orderbook.cancelOrder, hany]
    repeat' split
    · exact ⟨hd ▸ herase, hd ▸ rfl⟩
    · exact ⟨hd ▸ hsame, hd ▸ rfl⟩
    · exact ⟨hd ▸ hsame, hd ▸ rfl⟩

/-- An incoming order of the same direction does not see the extra one; it may rest beside it. -/
theorem Beside.addOrder_same (h : Beside o b b') (hb : Valid b) (hb' : Valid b') {x : Order}
    (hx : ¬b.isDupe x = true) (hx' : ¬b'.isDupe x = true) (hd : x.isBuy = o.isBuy) :
    (b.addOrder x).2 = (b'.addOrder x).2 ∧ Beside o (b.addOrder x).1 (b'.addOrder x).1 := by
  have hmatching : b.matching x = b'.matching x := by
    rw [matching, matching, hd, h.opposite]
  refine ⟨?_, ?_, ?_⟩
  · rw [addOrder_trades hx, addOrder_trades hx', hmatching]
  · rw [← hd, hb.addOrder_same hx, hb'.addOrder_same hx', hmatching]
    split
    · exact Extra.insertRank (hd ▸ h.same) _
    · exact hd ▸ h.same
  · rw [← hd, (hb.addOrder_sides hx).1, (hb'.addOrder_sides hx').1, hmatching]

/-- An incoming order of the other direction walks the side with the extra order. -/
theorem Beside.addOrder_opposite (h : Beside o b b') (hb : Valid b) (hb' : Valid b') {x : Order}
    (hx : ¬b.isDupe x = true) (hx' : ¬b'.isDupe x = true) (hd : x.isBuy = !o.isBuy)
    (hnames : ∀ t ∈ (b.addOrder x).2, ¬t.names o.id = true) :
    (b.addOrder x).2 = (b'.addOrder x).2 ∧ Beside o (b.addOrder x).1 (b'.addOrder x).1 := by
  have hside : ∀ b : Orderbook, b.opposite x.isBuy = b.same o.isBuy := fun b ↦ by
    rw [opposite_eq_same, hd, Bool.not_not]
  have hown : b.same x.isBuy = b'.same x.isBuy := by
    rw [hd, ← opposite_eq_same, ← opposite_eq_same, h.opposite]
  obtain ⟨l₁, l₂, hsame, hsame'⟩ := h.same
  have hloop : b.matching x = matchLoop x (l₂.reverse ++ o :: l₁.reverse) x.qty := by
    rw [matching, hside, hsame, List.reverse_append, List.reverse_cons, List.append_assoc,
      List.singleton_append]
  have hloop' : b'.matching x = matchLoop x (l₂.reverse ++ l₁.reverse) x.qty := by
    rw [matching, hside, hsame', List.reverse_append]
  have hsorted := hb.side o.isBuy
  rw [hsame] at hsorted
  have hrest : ∀ y ∈ l₁.reverse, y.isBuy = (!x.isBuy) ∧ y.rank ≤ o.rank := by
    intro y hy
    rw [List.mem_reverse] at hy
    refine ⟨?_, ?_⟩
    · rw [hd, Bool.not_not]
      exact hsorted.isBuy_eq y (List.mem_append_left _ hy)
    · exact (List.pairwise_append.mp hsorted.sorted).2.2 y hy o List.mem_cons_self
  rw [addOrder_trades hx, hloop] at hnames
  obtain ⟨left, r', ts, hwith, hwithout⟩ := matchLoop_extra (by rw [hd, Bool.not_not]) hrest
    l₂.reverse x.qty hnames
  rw [← hloop] at hwith
  rw [← hloop'] at hwithout
  refine ⟨?_, ⟨l₁, left.reverse, ?_, ?_⟩, ?_⟩
  · rw [addOrder_trades hx, addOrder_trades hx', hwith, hwithout]
  · rw [← hside, (hb.addOrder_sides hx).1, hwith]
    simp
  · rw [← hside, (hb'.addOrder_sides hx').1, hwithout]
    simp
  · rw [opposite_eq_same, opposite_eq_same, ← hd, hb.addOrder_same hx, hb'.addOrder_same hx',
      hwith, hwithout, hown]

theorem Beside.call (h : Beside o b b') (hb : Valid b) (hb' : Valid b') {c : Call}
    (hc : c.uses o.id = false) (hnames : ∀ t ∈ (b.call c).2, ¬t.names o.id = true) :
    (b.call c).2 = (b'.call c).2 ∧ Beside o (b.call c).1 (b'.call c).1 := by
  cases c with
  | addOrder x =>
    have hdupe := h.isDupe_eq (Ne.symm (of_decide_eq_false hc))
    change (b.addOrder x).2 = (b'.addOrder x).2 ∧ Beside o (b.addOrder x).1 (b'.addOrder x).1
    by_cases hx : b.isDupe x = true
    · rw [addOrder_of_isDupe hx, addOrder_of_isDupe (hdupe ▸ hx)]
      exact ⟨rfl, h⟩
    · by_cases hd : x.isBuy = o.isBuy
      · exact h.addOrder_same hb hb' hx (hdupe ▸ hx) hd
      · exact h.addOrder_opposite hb hb' hx (hdupe ▸ hx) (Bool.eq_not_of_ne hd) hnames
  | cancelOrder k => exact ⟨rfl, h.cancelOrder (Ne.symm (of_decide_eq_false hc))⟩

/-- **The simulation.** Calls that do not name the extra order, and trades that do not either, keep
the two books side by side and return the same trades. -/
theorem Beside.runFrom (h : Beside o b b') (hb : Valid b) (hb' : Valid b') {calls : List Call}
    (hcalls : ∀ c ∈ calls, c.uses o.id = false)
    (hnames : ∀ ts ∈ b.returned calls, ∀ t ∈ ts, ¬t.names o.id = true) :
    b.returned calls = b'.returned calls ∧ Beside o (b.runFrom calls) (b'.runFrom calls) := by
  induction calls generalizing b b' with
  | nil => exact ⟨rfl, h⟩
  | cons c calls ih =>
    obtain ⟨htrades, hbeside⟩ := h.call hb hb' (hcalls c List.mem_cons_self)
      (hnames _ List.mem_cons_self)
    obtain ⟨hrest, hend⟩ := ih hbeside (hb.call c) (hb'.call c)
      (fun c' hc' ↦ hcalls c' (List.mem_cons_of_mem _ hc'))
      (fun ts hts ↦ hnames ts (List.mem_cons_of_mem _ hts))
    exact ⟨congrArg₂ List.cons htrades hrest, hend⟩

end Calls

/-! ## The first call -/

theorem names_incoming (incoming : Order) (stack : Orders) (r : ℤ) :
    ∀ t ∈ (matchLoop incoming stack r).trades, t.names incoming.id = true := by
  refine matchLoop_induct incoming (motive := fun _ _ m ↦
    ∀ t ∈ m.trades, t.names incoming.id = true) ?_ ?_ ?_ stack r
  · exact fun _ _ _ _ ht ↦ absurd ht List.not_mem_nil
  · intro best rest r _ _ _ ih t ht
    rcases List.mem_cons.mp ht with rfl | ht
    · exact (names_tradeWith _ _ _ _).mpr (Or.inl rfl)
    · exact ih t ht
  · intro best rest r _ _ _ t ht
    obtain rfl := List.mem_singleton.mp ht
    exact (names_tradeWith _ _ _ _).mpr (Or.inl rfl)

/-- A loop without trades has left everything as it was. -/
theorem matchLoop_of_trades_nil {incoming : Order} {stack : Orders} {r : ℤ}
    (h : (matchLoop incoming stack r).trades = []) :
    matchLoop incoming stack r = ⟨stack, r, []⟩ := by
  refine matchLoop_induct incoming (motive := fun stack r m ↦ m.trades = [] → m = ⟨stack, r, []⟩)
    ?_ ?_ ?_ stack r h
  · exact fun _ _ _ _ ↦ rfl
  · exact fun _ _ _ _ _ _ _ h ↦ absurd h (List.cons_ne_nil _ _)
  · exact fun _ _ _ _ _ _ h ↦ absurd h (List.cons_ne_nil _ _)

/-- An order that does not trade when it is added rests as it came, or had no quantity to rest
with. -/
theorem Valid.addOrder_untraded {b : Orderbook} (h : Valid b) {o : Order}
    (hlive : o.id ∉ b.liveIds) (hnames : ∀ t ∈ (b.addOrder o).2, ¬t.names o.id = true) :
    Beside o (b.addOrder o).1 b ∨ (b.addOrder o).1 = b := by
  by_cases hq : 0 < o.qty
  swap
  · rw [addOrder_of_qty_nonpos b hq]
    exact Or.inr rfl
  have hdupe : ¬b.isDupe o = true := fun hdupe ↦ hlive ((isDupe_iff b o).mp hdupe)
  rw [addOrder_trades hdupe] at hnames
  have hnil : (b.matching o).trades = [] :=
    List.eq_nil_iff_forall_not_mem.mpr fun t ht ↦ hnames t ht (names_incoming o _ _ t ht)
  have hm : b.matching o = ⟨(b.opposite o.isBuy).reverse, o.qty, []⟩ :=
    matchLoop_of_trades_nil hnil
  obtain ⟨hopp, hsame⟩ := h.addOrder_sides hdupe
  rw [hm] at hopp hsame
  rcases hsame with ⟨hneg, -⟩ | ⟨-, l₁, l₂, hl, hins, -, -⟩
  · exact absurd hq hneg
  · refine Or.inl ⟨⟨l₁, l₂, ?_, hl⟩, ?_⟩
    · rw [hins, Order.setQty_self]
    · rw [hopp, List.reverse_reverse]

/-! ## The last call -/

theorem cancelOrder_of_notMem {b : Orderbook} {k : ℕ} (h : k ∉ b.liveIds) :
    b.cancelOrder k = b := by
  have hnone : ∀ x ∈ b.bids ++ b.asks, ¬decide (x.id = k) = true := fun x hx hk ↦
    h (List.mem_map.mpr ⟨x, hx, of_decide_eq_true hk⟩)
  have hbids : ¬(b.bids.any fun x ↦ decide (x.id = k)) = true := by
    rw [List.any_eq_true]
    exact fun ⟨x, hx, hk⟩ ↦ hnone x (List.mem_append_left _ hx) hk
  have hasks : ¬(b.asks.any fun x ↦ decide (x.id = k)) = true := by
    rw [List.any_eq_true]
    exact fun ⟨x, hx, hk⟩ ↦ hnone x (List.mem_append_right _ hx) hk
  rw [cancelOrder, if_neg hbids, if_neg hasks]

/-- Cancelling the extra order gives the book without it. -/
theorem Beside.cancelOrder_self {o : Order} {b b' : Orderbook} (h : Beside o b b')
    (hb : Valid b) : b.cancelOrder o.id = b' := by
  obtain ⟨⟨l₁, l₂, hsame, hsame'⟩, hopp⟩ := h
  have hother : ∀ x ∈ l₁ ++ (l₂ ++ b.opposite o.isBuy), ¬decide (x.id = o.id) = true := by
    have hnd := hb.nodup_sides o.isBuy
    rw [hsame, List.append_assoc, List.cons_append, (List.perm_middle.map _).nodup_iff,
      List.map_cons, List.nodup_cons] at hnd
    exact fun x hx hid ↦ hnd.1 (List.mem_map.mpr ⟨x, hx, of_decide_eq_true hid⟩)
  have hany : ((b.same o.isBuy).any fun x ↦ decide (x.id = o.id)) = true := by
    rw [hsame, List.any_eq_true]
    exact ⟨o, List.mem_append_right _ List.mem_cons_self, decide_eq_true rfl⟩
  have hnone : ¬((b.opposite o.isBuy).any fun x ↦ decide (x.id = o.id)) = true := by
    rw [List.any_eq_true]
    exact fun ⟨x, hx, hid⟩ ↦
      hother x (List.mem_append_right _ (List.mem_append_right _ hx)) hid
  have herase : ((b.same o.isBuy).eraseP fun x ↦ decide (x.id = o.id)) = b'.same o.isBuy := by
    rw [hsame, hsame', List.eraseP_append_right _ fun x hx ↦ hother x (List.mem_append_left _ hx),
      List.eraseP_cons_of_pos (p := fun x : Order ↦ decide (x.id = o.id)) (decide_eq_true rfl)]
  cases hd : o.isBuy <;> rw [hd] at hany hnone herase hopp
  · exact (if_neg hnone).trans ((if_pos hany).trans (Orderbook.ext hopp herase))
  · exact (if_pos hany).trans (Orderbook.ext herase hopp)

theorem Valid.notMem_liveIds_runFrom {b : Orderbook} (h : Valid b) {k : ℕ} (hk : k ∉ b.liveIds)
    {calls : List Call} (hcalls : ∀ c ∈ calls, c.uses k = false) :
    k ∉ (b.runFrom calls).liveIds := by
  induction calls generalizing b with
  | nil => exact hk
  | cons c calls ih =>
    refine ih (h.call c) (fun hmem ↦ hk ?_) fun c' hc' ↦ hcalls c' (List.mem_cons_of_mem _ hc')
    have hc := hcalls c List.mem_cons_self
    cases c with
    | addOrder x =>
      by_cases hdupe : b.isDupe x = true
      · simpa only [Orderbook.call, addOrder_of_isDupe hdupe] using hmem
      · exact (h.mem_liveIds_addOrder hdupe hmem).resolve_left
          (Ne.symm (of_decide_eq_false hc))
    | cancelOrder k' =>
      have hsub := ((b.cancelOrder_sublist k' true).append
        (b.cancelOrder_sublist k' false)).map Order.id
      exact hsub.subset hmem

/-- **A cancelled order leaves no trace.** If an order whose id is not live is added, no call uses
its id until it is cancelled, and no trade returned in between names it, then the run without the
two calls ends in the same book and returns the same trades at each of its calls. -/
theorem cancelled_no_trace (pre mid post : List Call) (o : Order)
    (hlive : o.id ∉ (run pre).liveIds) (hmid : ∀ c ∈ mid, c.uses o.id = false)
    (hnames : ∀ ts ∈ (run pre).returned (.addOrder o :: (mid ++ [.cancelOrder o.id])),
      ∀ t ∈ ts, ¬t.names o.id = true) :
    run (pre ++ .addOrder o :: (mid ++ .cancelOrder o.id :: post)) = run (pre ++ (mid ++ post)) ∧
      ∃ before between after : List Trades, ∃ first last : Trades,
        before.length = pre.length ∧ between.length = mid.length ∧ after.length = post.length ∧
        empty.returned (pre ++ .addOrder o :: (mid ++ .cancelOrder o.id :: post)) =
          before ++ first :: (between ++ last :: after) ∧
        empty.returned (pre ++ (mid ++ post)) = before ++ (between ++ after) := by
  have hb := valid_run pre
  have hnames_mid : ∀ ts ∈ ((run pre).addOrder o).1.returned mid,
      ∀ t ∈ ts, ¬t.names o.id = true := fun ts hts ↦ hnames ts (by
    rw [returned, returned_append]
    exact List.mem_cons_of_mem _ (List.mem_append_left _ hts))
  -- between the two calls the books are side by side, and the second call brings them together
  obtain ⟨hreturned, hcancel⟩ :
      ((run pre).addOrder o).1.returned mid = (run pre).returned mid ∧
        (((run pre).addOrder o).1.runFrom mid).cancelOrder o.id = (run pre).runFrom mid := by
    rcases hb.addOrder_untraded hlive (hnames _ List.mem_cons_self) with hbeside | hsame
    · obtain ⟨hret, hend⟩ := hbeside.runFrom (hb.addOrder o) hb hmid hnames_mid
      exact ⟨hret, hend.cancelOrder_self ((hb.addOrder o).runFrom mid)⟩
    · rw [hsame]
      exact ⟨rfl, cancelOrder_of_notMem (hb.notMem_liveIds_runFrom hlive hmid)⟩
  have hrun : ∀ calls, (run pre).runFrom (.addOrder o :: (mid ++ .cancelOrder o.id :: calls)) =
      (run pre).runFrom (mid ++ calls) := fun calls ↦ by
    rw [runFrom_append (run pre), ← hcancel]
    exact runFrom_append _ _ _
  refine ⟨?_, empty.returned pre, (run pre).returned mid, ((run pre).runFrom mid).returned post,
    ((run pre).addOrder o).2, [], length_returned _ _, length_returned _ _, length_returned _ _,
    ?_, ?_⟩
  · rw [run, run, runFrom_append, runFrom_append]
    exact hrun post
  · rw [returned_append, returned, returned_append, returned, ← hreturned, ← hcancel]
    rfl
  · rw [returned_append, returned_append]
    rfl

/-- A bid joins another one at the same level; a sell order then fills the first bid and stops in
front of the second, which is cancelled. -/
theorem cancelled_no_trace_second_bid :
    run [.addOrder ⟨1, 10, true, 5⟩, .addOrder ⟨2, 10, true, 5⟩, .addOrder ⟨3, 10, false, 5⟩,
      .cancelOrder 2] =
      run [.addOrder ⟨1, 10, true, 5⟩, .addOrder ⟨3, 10, false, 5⟩] :=
  (cancelled_no_trace [.addOrder ⟨1, 10, true, 5⟩] [.addOrder ⟨3, 10, false, 5⟩] []
    ⟨2, 10, true, 5⟩ (by decide +kernel) (by decide) (by decide +kernel)).1

end Orderbook

end FastInAHurry
