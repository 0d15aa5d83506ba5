import FastInAHurry.Orderbook.Conservation
import Mathlib.Data.List.Induction
import Mathlib.Data.List.Nodup

/-!
# The whole public interface

`insert_order` is public, next to `AddOrder` and `CancelOrder`. It rejects duplicate ids and looks
at nothing else, so it can put an order at the back of a side whose quantity is zero or negative,
which `AddOrder` never does. The matching loop then trades that quantity, calls later and with
another order.

Quantities are `int`. The loop makes two subtractions in each iteration, and `subtractions` lists
them as the loop makes them; up to the first one that leaves the range of `int` the code does what
the model does.
-/

namespace FastInAHurry

namespace Orderbook

/-! ## Calls -/

/-- A call of a public member function. -/
inductive PublicCall where
  | insertOrder (order : Order)
  | addOrder (incoming : Order)
  | cancelOrder (orderId : ℕ)
deriving DecidableEq, Repr

/-- The book after a call. -/
def publicCall (b : Orderbook) : PublicCall → Orderbook
  | .insertOrder order => b.insertOrder order
  | .addOrder incoming => (b.addOrder incoming).1
  | .cancelOrder orderId => b.cancelOrder orderId

/-- The book after a sequence of calls. -/
def publicRunFrom (b : Orderbook) (calls : List PublicCall) : Orderbook :=
  calls.foldl publicCall b

/-- The book after a sequence of calls on a default-constructed one. -/
def publicRun (calls : List PublicCall) : Orderbook := publicRunFrom empty calls

/-- A value of type `int`. -/
def IsInt (q : ℤ) : Prop := -2 ^ 31 ≤ q ∧ q < 2 ^ 31

instance (q : ℤ) : Decidable (IsInt q) := inferInstanceAs (Decidable (_ ∧ _))

/-- The order of the call, if it has one, has a quantity of type `int`. -/
def PublicCall.IntQty : PublicCall → Prop
  | .insertOrder order => IsInt order.qty
  | .addOrder incoming => IsInt incoming.qty
  | .cancelOrder _ => True

/-- The subtractions of the matching loop, minuend and subtrahend. -/
def subtractions (incoming : Order) (stack : Orders) (remaining : ℤ) : List (ℤ × ℤ) :=
  match stack with
  | [] => []
  | best :: rest =>
    if 0 < remaining then
      if isMatch incoming best then
        let tradeSize := min best.qty remaining
        let best' := best.setQty (best.qty - tradeSize)
        let next :=
          if best'.qty = 0 then subtractions incoming rest (remaining - tradeSize)
          else subtractions incoming (best' :: rest) (remaining - tradeSize)
        (best.qty, tradeSize) :: (remaining, tradeSize) :: next
      else []
    else []
termination_by stack.length + if 0 < remaining then 1 else 0
decreasing_by
  · rw [List.length_cons]
    split <;> omega
  · have hne : ¬best.qty - min best.qty remaining = 0 := ‹_›
    have hdone : ¬0 < remaining - min best.qty remaining := by omega
    rw [List.length_cons, List.length_cons, if_pos ‹0 < remaining›, if_neg hdone]
    omega

/-- The subtractions of `AddOrder`. -/
def addOrderSubtractions (b : Orderbook) (incoming : Order) : List (ℤ × ℤ) :=
  if b.isDupe incoming then []
  else subtractions incoming (b.opposite incoming.isBuy).reverse incoming.qty

/-- `AddOrder` with this order returns trades of positive size that the order can pay for, and no
subtraction overflows. -/
structure Sound (b : Orderbook) (incoming : Order) : Prop where
  size_pos : ∀ t ∈ (b.addOrder incoming).2, 0 < t.size
  size_le : ∀ t ∈ (b.addOrder incoming).2, t.size ≤ incoming.qty
  no_overflow : ∀ p ∈ b.addOrderSubtractions incoming, IsInt (p.1 - p.2)

/-! ## Matching against positive quantities -/

/-- Every resting quantity is positive and of type `int`. -/
def Positive (l : Orders) : Prop := ∀ o ∈ l, 0 < o.qty ∧ o.qty < 2 ^ 31

theorem size_of_mem_matchLoop {incoming : Order} {stack : Orders} (h : ∀ o ∈ stack, 0 < o.qty)
    (r : ℤ) : ∀ t ∈ (matchLoop incoming stack r).trades, 0 < t.size ∧ t.size ≤ r := by
  refine matchLoop_induct incoming (motive := fun stack r m ↦
    (∀ o ∈ stack, 0 < o.qty) → ∀ t ∈ m.trades, 0 < t.size ∧ t.size ≤ r) ?_ ?_ ?_ stack r h
  · intro stack r _ _ t ht
    cases ht
  · intro best rest r _ _ hq ih h t ht
    have hbest := h best List.mem_cons_self
    rcases List.mem_cons.mp ht with rfl | ht
    · exact ⟨hbest, hq⟩
    · obtain ⟨hpos, hle⟩ := ih (fun o ho ↦ h o (List.mem_cons_of_mem _ ho)) t ht
      exact ⟨hpos, hle.trans (by omega)⟩
  · intro best rest r hr _ _ _ t ht
    obtain rfl := List.mem_singleton.mp ht
    exact ⟨hr, le_rfl⟩

theorem subtractions_of_not_pos (incoming : Order) (stack : Orders) {r : ℤ} (hr : ¬0 < r) :
    subtractions incoming stack r = [] := by
  cases stack with
  | nil => rw [subtractions]
  | cons best rest => rw [subtractions, if_neg hr]

theorem isInt_of_mem_subtractions {incoming : Order} {stack : Orders} (h : Positive stack) {r : ℤ}
    (hr : r < 2 ^ 31) : ∀ p ∈ subtractions incoming stack r, IsInt (p.1 - p.2) := by
  induction stack generalizing r with
  | nil =>
    intro p hp
    rw [subtractions] at hp
    cases hp
  | cons best rest ih =>
    obtain ⟨hpos, hlt⟩ := h best List.mem_cons_self
    have hrest : Positive rest := fun o ho ↦ h o (List.mem_cons_of_mem _ ho)
    intro p hp
    rw [subtractions] at hp
    by_cases hr0 : 0 < r
    · by_cases hm : isMatch incoming best = true
      · simp only [if_pos hr0, if_pos hm, List.mem_cons] at hp
        have hmin : 0 < min best.qty r := lt_min hpos hr0
        rcases hp with rfl | rfl | hp
        · exact ⟨by omega, by omega⟩
        · exact ⟨by omega, by omega⟩
        · by_cases hfilled : (best.setQty (best.qty - min best.qty r)).qty = 0
          · rw [if_pos hfilled] at hp
            exact ih hrest (by omega) p hp
          · -- the best order keeps some quantity, so nothing remains to trade
            rw [if_neg hfilled] at hp
            rw [Order.setQty_qty] at hfilled
            rw [subtractions_of_not_pos incoming _ (by omega)] at hp
            cases hp
      · rw [if_pos hr0, if_neg hm] at hp
        cases hp
    · rw [if_neg hr0] at hp
      cases hp

/-- The loop leaves positive quantities, and no more to trade than there was. -/
theorem matchLoop_positive {incoming : Order} {stack : Orders} (h : Positive stack) (r : ℤ) :
    Positive (matchLoop incoming stack r).stack ∧ (matchLoop incoming stack r).remaining ≤ r := by
  refine matchLoop_induct incoming (motive := fun stack r m ↦
    Positive stack → Positive m.stack ∧ m.remaining ≤ r) ?_ ?_ ?_ stack r h
  · intro stack r _ h
    exact ⟨h, le_rfl⟩
  · intro best rest r _ _ _ ih h
    have hbest := (h best List.mem_cons_self).1
    obtain ⟨hpos, hle⟩ := ih fun o ho ↦ h o (List.mem_cons_of_mem _ ho)
    exact ⟨hpos, hle.trans (by omega)⟩
  · intro best rest r hr _ hq h
    obtain ⟨-, hlt⟩ := h best List.mem_cons_self
    refine ⟨fun o ho ↦ ?_, hr.le⟩
    rcases List.mem_cons.mp ho with rfl | ho
    · rw [Order.setQty_qty]
      omega
    · exact h o (List.mem_cons_of_mem _ ho)

/-! ## Books with positive quantities -/

/-- Every resting quantity of the book is positive and of type `int`. -/
def PositiveBook (b : Orderbook) : Prop := ∀ d, Positive (b.same d)

theorem PositiveBook.opposite {b : Orderbook} (h : PositiveBook b) (d : Bool) :
    Positive (b.opposite d) := by
  rw [opposite_eq_same]
  exact h _

/-- The property seen from one direction. -/
theorem PositiveBook.of_sides {b : Orderbook} (d : Bool) (hs : Positive (b.same d))
    (ho : Positive (b.opposite d)) : PositiveBook b := by
  cases d
  · exact Bool.forall_bool.mpr ⟨hs, ho⟩
  · exact Bool.forall_bool.mpr ⟨ho, hs⟩

theorem PositiveBook.sound {b : Orderbook} (h : PositiveBook b) {incoming : Order}
    (hint : IsInt incoming.qty) : Sound b incoming := by
  have hstack : Positive (b.opposite incoming.isBuy).reverse := fun o ho ↦
    h.opposite _ o (List.mem_reverse.mp ho)
  by_cases hdupe : b.isDupe incoming = true
  · refine ⟨?_, ?_, ?_⟩
    · simp [addOrder_of_isDupe hdupe]
    · simp [addOrder_of_isDupe hdupe]
    · simp [addOrderSubtractions, hdupe]
  · have hsize := @size_of_mem_matchLoop incoming _ (fun o ho ↦ (hstack o ho).1)
      incoming.qty
    refine ⟨?_, ?_, ?_⟩
    · rw [addOrder_trades hdupe]
      exact fun t ht ↦ (hsize t ht).1
    · rw [addOrder_trades hdupe]
      exact fun t ht ↦ (hsize t ht).2
    · rw [addOrderSubtractions, if_neg hdupe]
      exact isInt_of_mem_subtractions hstack hint.2

/-- **`insert_order` on any book.** -/
theorem insertOrder_perm {b : Orderbook} {o : Order} (hdupe : ¬b.isDupe o = true) :
    (b.insertOrder o).opposite o.isBuy = b.opposite o.isBuy ∧
      ((b.insertOrder o).same o.isBuy).Perm (o :: b.same o.isBuy) := by
  cases hd : o.isBuy with
  | true =>
    rw [insertOrder, if_neg hdupe, if_pos hd]
    exact ⟨rfl, LowerBound.insertAtLowerBound_perm _ _ _⟩
  | false =>
    rw [insertOrder, if_neg hdupe, if_neg (by simp [hd])]
    exact ⟨rfl, LowerBound.insertAtLowerBound_perm _ _ _⟩

theorem PositiveBook.insertOrder {b : Orderbook} (h : PositiveBook b) {o : Order}
    (ho : b.isDupe o = true ∨ 0 < o.qty) (hint : o.qty < 2 ^ 31) :
    PositiveBook (b.insertOrder o) := by
  by_cases hdupe : b.isDupe o = true
  · rw [Orderbook.insertOrder, if_pos hdupe]
    exact h
  · obtain ⟨hopp, hperm⟩ := insertOrder_perm hdupe
    refine PositiveBook.of_sides o.isBuy (fun x hx ↦ ?_) ?_
    · rcases List.mem_cons.mp (hperm.mem_iff.mp hx) with rfl | hx
      · exact ⟨ho.resolve_left hdupe, hint⟩
      · exact h _ x hx
    · rw [hopp]
      exact h.opposite _

theorem PositiveBook.addOrder {b : Orderbook} (h : PositiveBook b) {o : Order}
    (hint : IsInt o.qty) : PositiveBook (b.addOrder o).1 := by
  by_cases hdupe : b.isDupe o = true
  · rw [addOrder_of_isDupe hdupe]
    exact h
  · obtain ⟨hstack, hle⟩ := matchLoop_positive (fun x hx ↦ h.opposite o.isBuy x
      (List.mem_reverse.mp hx)) o.qty
    have hmatched : PositiveBook (b.matchedBook o) := by
      refine PositiveBook.of_sides o.isBuy ?_ ?_
      · rw [same_matchedBook]
        exact h _
      · rw [matchedBook, opposite_setOpposite]
        exact fun x hx ↦ hstack x (List.mem_reverse.mp hx)
    rw [addOrder_of_not_isDupe hdupe]
    by_cases hrem : 0 < (b.matching o).remaining
    · simp only [if_pos hrem]
      exact hmatched.insertOrder (Or.inr hrem) (hle.trans_lt hint.2)
    · simp only [if_neg hrem]
      exact hmatched

theorem PositiveBook.cancelOrder {b : Orderbook} (h : PositiveBook b) (k : ℕ) :
    PositiveBook (b.cancelOrder k) :=
  fun d o ho ↦ h d o ((b.cancelOrder_sublist k d).subset ho)

/-! ## Runs -/

theorem publicRunFrom_append (b : Orderbook) (calls calls' : List PublicCall) :
    b.publicRunFrom (calls ++ calls') = (b.publicRunFrom calls).publicRunFrom calls' := by
  rw [publicRunFrom, publicRunFrom, publicRunFrom, List.foldl_append]

theorem publicRun_append (calls calls' : List PublicCall) :
    publicRun (calls ++ calls') = (publicRun calls).publicRunFrom calls' :=
  publicRunFrom_append empty calls calls'

/-- If no order without positive quantity was inserted, none rests. -/
theorem positiveBook_publicRun {calls : List PublicCall} (hint : ∀ c ∈ calls, c.IntQty)
    (hinsert : ∀ pre order post, calls = pre ++ .insertOrder order :: post →
      (publicRun pre).isDupe order = true ∨ 0 < order.qty) : PositiveBook (publicRun calls) := by
  -- from the last call backwards, since the condition looks at the book before a call
  induction calls using List.reverseRecOn with
  | nil =>
    intro d
    cases d <;> exact fun o ho ↦ nomatch ho
  | append_singleton calls c ih =>
    have hbook : PositiveBook (publicRun calls) := by
      refine ih (fun c hc ↦ hint c (List.mem_append_left _ hc)) ?_
      rintro pre order post rfl
      exact hinsert pre order (post ++ [c]) (by rw [List.append_assoc, List.cons_append])
    have hc := hint c (List.mem_append_right _ List.mem_cons_self)
    rw [publicRun_append]
    cases c with
    | insertOrder order => exact hbook.insertOrder (hinsert calls order [] rfl) hc.2
    | addOrder incoming => exact hbook.addOrder hc
    | cancelOrder orderId => exact hbook.cancelOrder orderId

/-! ## One order without positive quantity -/

theorem nodup_insertOrder {b : Orderbook} (h : b.liveIds.Nodup) (o : Order) :
    (b.insertOrder o).liveIds.Nodup := by
  by_cases hdupe : b.isDupe o = true
  · rw [insertOrder, if_pos hdupe]
    exact h
  · obtain ⟨hopp, hperm⟩ := insertOrder_perm hdupe
    rw [((b.insertOrder o).liveIds_perm o.isBuy).nodup_iff, hopp,
      ((hperm.append_right _).map Order.id).nodup_iff, List.cons_append, List.map_cons,
      List.nodup_cons, ← (b.liveIds_perm o.isBuy).nodup_iff, ← (b.liveIds_perm o.isBuy).mem_iff,
      ← isDupe_iff]
    exact ⟨hdupe, h⟩

theorem nodup_addOrder {b : Orderbook} (h : b.liveIds.Nodup) (o : Order) :
    (b.addOrder o).1.liveIds.Nodup := by
  by_cases hdupe : b.isDupe o = true
  · rw [addOrder_of_isDupe hdupe]
    exact h
  · have hmatched : (b.matchedBook o).liveIds.Nodup := by
      rw [(b.liveIds_perm o.isBuy).nodup_iff, List.map_append] at h
      rw [((b.matchedBook o).liveIds_perm o.isBuy).nodup_iff, same_matchedBook, List.map_append]
      exact h.sublist ((List.Sublist.refl _).append
        (map_id_sublist_of_core (b.matchedBook_core_sublist o)))
    rw [addOrder_of_not_isDupe hdupe]
    by_cases hrem : 0 < (b.matching o).remaining
    · simp only [if_pos hrem]
      exact nodup_insertOrder hmatched _
    · simp only [if_neg hrem]
      exact hmatched

theorem liveIds_cancelOrder_sublist (b : Orderbook) (k : ℕ) :
    (b.cancelOrder k).liveIds.Sublist b.liveIds :=
  ((b.cancelOrder_sublist k true).append (b.cancelOrder_sublist k false)).map _

/-- Ids are unique in every book, whichever functions made it. -/
theorem nodup_publicRun (calls : List PublicCall) : (publicRun calls).liveIds.Nodup := by
  induction calls using List.reverseRecOn with
  | nil => exact List.nodup_nil
  | append_singleton calls c ih =>
    rw [publicRun_append]
    cases c with
    | insertOrder order => exact nodup_insertOrder ih order
    | addOrder incoming => exact nodup_addOrder ih incoming
    | cancelOrder orderId => exact ih.sublist (liveIds_cancelOrder_sublist _ _)

theorem mem_cancelOrder_of_ne {b : Orderbook} {d : Bool} {o : Order} (ho : o ∈ b.same d) {k : ℕ}
    (hk : o.id ≠ k) : o ∈ (b.cancelOrder k).same d := by
  have herase : ∀ l : Orders, o ∈ l → o ∈ l.eraseP fun x ↦ decide (x.id = k) := fun l hl ↦
    (List.mem_eraseP_of_neg (by simpa using hk)).mpr hl
  rw [cancelOrder]
  split
  · cases d
    · exact ho
    · exact herase _ ho
  · split
    · cases d
      · exact herase _ ho
      · exact ho
    · exact ho

/-- Cancelling other orders leaves this one. -/
theorem cancelAll_spec {b : Orderbook} (hnd : b.liveIds.Nodup) {d : Bool} {o : Order}
    (ho : o ∈ b.same d) {ks : List ℕ} (hks : o.id ∉ ks) :
    (b.publicRunFrom (ks.map .cancelOrder)).liveIds.Nodup ∧
      o ∈ (b.publicRunFrom (ks.map .cancelOrder)).same d ∧
      ∀ k ∈ (b.publicRunFrom (ks.map .cancelOrder)).liveIds, k ∈ b.liveIds ∧ k ∉ ks := by
  induction ks generalizing b with
  | nil => exact ⟨hnd, ho, fun k hk ↦ ⟨hk, List.not_mem_nil⟩⟩
  | cons k ks ih =>
    obtain ⟨hne, hks⟩ := not_or.mp (mt List.mem_cons.mpr hks)
    have hsub := b.liveIds_cancelOrder_sublist k
    obtain ⟨hnd', ho', hids⟩ := ih (hnd.sublist hsub) (mem_cancelOrder_of_ne ho hne) hks
    refine ⟨hnd', ho', fun j hj ↦ ?_⟩
    obtain ⟨hj, hnot⟩ := hids j hj
    refine ⟨hsub.subset hj, not_or.mpr ⟨?_, hnot⟩ ∘ List.mem_cons.mp⟩
    rintro rfl
    exact notMem_liveIds_cancelOrder hnd j hj

/-- An order of the other direction, at the same level and of quantity one. -/
def counterOrder (o : Order) : Order where
  id := if o.id = 0 then 1 else 0
  level := o.level
  isBuy := !o.isBuy
  qty := 1

/-- With nothing else in the book, an order without positive quantity makes a trade without positive
size. -/
theorem not_sound_of_only {b : Orderbook} (hnd : b.liveIds.Nodup) {o : Order}
    (ho : o ∈ b.same o.isBuy) (honly : ∀ k ∈ b.liveIds, k = o.id) (hq : o.qty ≤ 0) :
    ¬Sound b (counterOrder o) := by
  intro hsound
  have hdupe : ¬b.isDupe (counterOrder o) = true := by
    rw [isDupe_iff]
    intro hmem
    have heq := honly _ hmem
    simp only [counterOrder] at heq
    split at heq <;> omega
  -- the order is alone in its list, so it is the best one
  have hall : ∀ x ∈ b.same o.isBuy, x = o := by
    intro x hx
    have hnd' := (b.liveIds_perm o.isBuy).nodup_iff.mp hnd
    rw [List.map_append] at hnd'
    refine List.inj_on_of_nodup_map hnd'.of_append_left hx ho ?_
    exact honly _ ((mem_liveIds b o.isBuy _).mpr (Or.inl ⟨x, hx, rfl⟩))
  have hstack : (b.opposite (counterOrder o).isBuy).reverse = (b.same o.isBuy).reverse := by
    rw [opposite_eq_same, counterOrder, Bool.not_not]
  have hmatch : isMatch (counterOrder o) o = true := by
    have hlevel : (counterOrder o).level = o.level := rfl
    rw [isMatch, canMatch, canMatch, hlevel]
    split <;> exact decide_eq_true le_rfl
  have htrade : tradeWith (counterOrder o) o o.qty ∈ (b.addOrder (counterOrder o)).2 := by
    rw [addOrder_trades hdupe, matching, hstack]
    rcases hrev : (b.same o.isBuy).reverse with _ | ⟨best, rest⟩
    · rw [List.reverse_eq_nil_iff.mp hrev] at ho
      cases ho
    · obtain rfl : best = o := hall best (List.mem_reverse.mp (hrev ▸ List.mem_cons_self))
      have hone : (counterOrder best).qty = 1 := rfl
      rw [hone, matchLoop_fill rest Int.one_pos hmatch (hq.trans Int.one_nonneg)]
      exact List.mem_cons_self
  exact absurd (hsound.size_pos _ htrade) (not_lt.mpr hq)

/-- One accepted `insert_order` without positive quantity, and after some cancellations an
`AddOrder` returns a trade without positive size. -/
theorem exists_not_sound (pre : List PublicCall) {order : Order}
    (hdupe : ¬(publicRun pre).isDupe order = true) (hq : order.qty ≤ 0) :
    ∃ (cancels : List ℕ) (incoming : Order), IsInt incoming.qty ∧
      ¬Sound (publicRun (pre ++ .insertOrder order :: cancels.map .cancelOrder)) incoming := by
  have hnd := nodup_insertOrder (nodup_publicRun pre) order
  have hrests : order ∈ ((publicRun pre).insertOrder order).same order.isBuy :=
    (insertOrder_perm hdupe).2.mem_iff.mpr List.mem_cons_self
  -- every other order is cancelled
  refine ⟨((publicRun pre).insertOrder order).liveIds.filter (· ≠ order.id), counterOrder order,
    (by decide : IsInt 1), ?_⟩
  have hkeep : order.id ∉ ((publicRun pre).insertOrder order).liveIds.filter (· ≠ order.id) := by
    simp
  obtain ⟨hnd', ho, hids⟩ := cancelAll_spec hnd hrests hkeep
  rw [publicRun_append]
  refine not_sound_of_only hnd' ho (fun k hk ↦ ?_) hq
  obtain ⟨hlive, hnot⟩ := hids k hk
  by_contra hne
  exact hnot (List.mem_filter.mpr ⟨hlive, by simpa using hne⟩)

/-- **Trades stay positive and in range** in every run of the public functions in which each
`insert_order` that is not rejected as a duplicate has a positive quantity; and every other
`insert_order` can be followed by calls that break it. -/
theorem public_trades_sound (calls : List PublicCall) :
    ((∀ c ∈ calls, c.IntQty) →
      (∀ pre order post, calls = pre ++ .insertOrder order :: post →
        (publicRun pre).isDupe order = true ∨ 0 < order.qty) →
      ∀ pre incoming post, calls = pre ++ .addOrder incoming :: post →
        Sound (publicRun pre) incoming) ∧
    ∀ pre order post, calls = pre ++ .insertOrder order :: post →
      ¬(publicRun pre).isDupe order = true → order.qty ≤ 0 →
      ∃ (cancels : List ℕ) (incoming : Order), IsInt incoming.qty ∧
        ¬Sound (publicRun (pre ++ .insertOrder order :: cancels.map .cancelOrder)) incoming := by
  refine ⟨?_, fun pre order _ _ hdupe hq ↦ exists_not_sound pre hdupe hq⟩
  rintro hint hinsert pre incoming post rfl
  have hbook : PositiveBook (publicRun pre) := by
    refine positiveBook_publicRun (fun c hc ↦ hint c (List.mem_append_left _ hc)) ?_
    rintro pre' order post' rfl
    exact hinsert pre' order (post' ++ .addOrder incoming :: post)
      (by rw [List.append_assoc, List.cons_append])
  exact hbook.sound (hint _ (List.mem_append_right _ List.mem_cons_self))

/-- An inserted order of quantity `-5` is traded by the next order. -/
theorem negative_trade :
    ((publicRun [.insertOrder ⟨1, 10, false, -5⟩]).addOrder ⟨2, 10, true, 3⟩).2 =
        [⟨2, 1, 2, true, 10, -5⟩] ∧
      ¬Sound (publicRun [.insertOrder ⟨1, 10, false, -5⟩]) ⟨2, 10, true, 3⟩ := by
  have htrades : ((publicRun [.insertOrder ⟨1, 10, false, -5⟩]).addOrder ⟨2, 10, true, 3⟩).2 =
      [⟨2, 1, 2, true, 10, -5⟩] := by decide +kernel
  refine ⟨htrades, fun h ↦ ?_⟩
  have hpos := h.size_pos _ (htrades ▸ List.mem_cons_self)
  exact absurd hpos (by decide)

end Orderbook

end FastInAHurry
