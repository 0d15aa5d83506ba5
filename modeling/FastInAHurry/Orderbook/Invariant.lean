import FastInAHurry.Orderbook.Matching

/-!
# The representation invariant of the book

A run is any sequence of `AddOrder` and `CancelOrder` calls from the empty book, with arbitrary ids,
levels, directions and quantities. The invariant is stated side by side in terms of rank: a side is
sorted by rising rank, holds orders of its own direction only, every resting quantity is positive,
ids are unique across the book and no bid reaches an ask.

The book is never crossed for one reason: an order rests only when the loop stopped with quantity
left, which it does only at a best order that does not match, and by sortedness nothing behind that
order matches either.
-/

namespace FastInAHurry

/-- The order without its quantity. -/
def Order.core (o : Order) : Order := o.setQty 0

namespace Orderbook

/-! ## Runs -/

/-- A call on the public interface of the matching engine. -/
inductive Call where
  | addOrder (incoming : Order)
  | cancelOrder (orderId : ℕ)
deriving DecidableEq, Repr

/-- One call: the book afterwards and the trades it returned. -/
def call (b : Orderbook) : Call → Orderbook × Trades
  | .addOrder incoming => b.addOrder incoming
  | .cancelOrder orderId => (b.cancelOrder orderId, [])

/-- The book after a sequence of calls. -/
def runFrom (b : Orderbook) (calls : List Call) : Orderbook :=
  calls.foldl (fun b c ↦ (b.call c).1) b

/-- The book after a sequence of calls on a default-constructed one. -/
def run (calls : List Call) : Orderbook := runFrom empty calls

theorem runFrom_append (b : Orderbook) (calls calls' : List Call) :
    b.runFrom (calls ++ calls') = (b.runFrom calls).runFrom calls' := by
  rw [runFrom, runFrom, runFrom, List.foldl_append]

theorem run_concat (calls : List Call) (c : Call) :
    run (calls ++ [c]) = ((run calls).call c).1 := by
  rw [run, runFrom_append]
  rfl

/-! ## The two sides -/

theorem opposite_eq_same (b : Orderbook) (d : Bool) : b.opposite d = b.same (!d) := by
  cases d <;> rfl

/-- A book is its two sides, seen from either direction. -/
theorem ext_sides {b b' : Orderbook} (d : Bool) (hs : b.same d = b'.same d)
    (ho : b.opposite d = b'.opposite d) : b = b' := by
  cases d
  · exact Orderbook.ext ho hs
  · exact Orderbook.ext hs ho

@[simp] theorem opposite_setOpposite (b : Orderbook) (d : Bool) (l : Orders) :
    (b.setOpposite d l).opposite d = l := by
  cases d <;> rfl

@[simp] theorem same_setOpposite (b : Orderbook) (d : Bool) (l : Orders) :
    (b.setOpposite d l).same d = b.same d := by
  cases d <;> rfl

/-- The ids resting in the book. -/
def liveIds (b : Orderbook) : List ℕ := (b.bids ++ b.asks).map Order.id

theorem liveIds_perm (b : Orderbook) (d : Bool) :
    b.liveIds.Perm ((b.same d ++ b.opposite d).map Order.id) := by
  cases d
  · exact List.perm_append_comm.map _
  · exact List.Perm.refl _

theorem mem_liveIds (b : Orderbook) (d : Bool) (k : ℕ) :
    k ∈ b.liveIds ↔ (∃ o ∈ b.same d, o.id = k) ∨ ∃ o ∈ b.opposite d, o.id = k := by
  rw [(b.liveIds_perm d).mem_iff, List.map_append, List.mem_append, List.mem_map, List.mem_map]

theorem isDupe_iff (b : Orderbook) (o : Order) : b.isDupe o = true ↔ o.id ∈ b.liveIds := by
  rw [mem_liveIds b true, isDupe, Bool.or_eq_true, List.any_eq_true, List.any_eq_true]
  simp only [decide_eq_true_eq]
  rfl

/-- A side as the code keeps it: orders of direction `d` only, by rising rank. -/
structure SideSorted (d : Bool) (l : Orders) : Prop where
  isBuy_eq : ∀ o ∈ l, o.isBuy = d
  sorted : l.Pairwise fun x y ↦ x.rank ≤ y.rank

theorem SideSorted.nil (d : Bool) : SideSorted d [] := ⟨by simp, List.Pairwise.nil⟩

theorem SideSorted.sublist {d : Bool} {l l' : Orders} (h : SideSorted d l) (hl : l'.Sublist l) :
    SideSorted d l' :=
  ⟨fun o ho ↦ h.isBuy_eq o (hl.subset ho), h.sorted.sublist hl⟩

/-- **The representation invariant.** -/
structure Valid (b : Orderbook) : Prop where
  side : ∀ d, SideSorted d (b.same d)
  qty_pos : ∀ d, ∀ o ∈ b.same d, 0 < o.qty
  nodup : b.liveIds.Nodup
  uncrossed : ∀ d, ∀ x ∈ b.same d, ∀ y ∈ b.opposite d, x.rank + y.rank < 0

theorem Valid.empty : Valid empty where
  side d := by cases d <;> exact SideSorted.nil _
  qty_pos d := by cases d <;> simp [same, Orderbook.empty]
  nodup := List.nodup_nil
  uncrossed d := by cases d <;> simp [same, Orderbook.empty]

/-- The invariant from the point of view of one direction. -/
theorem Valid.of_sides {b : Orderbook} (d : Bool) (hs : SideSorted d (b.same d))
    (ho : SideSorted (!d) (b.opposite d)) (hsq : ∀ o ∈ b.same d, 0 < o.qty)
    (hoq : ∀ o ∈ b.opposite d, 0 < o.qty)
    (hnd : ((b.same d ++ b.opposite d).map Order.id).Nodup)
    (hun : ∀ x ∈ b.same d, ∀ y ∈ b.opposite d, x.rank + y.rank < 0) : Valid b := by
  have hswap : ∀ x ∈ b.opposite d, ∀ y ∈ b.same d, x.rank + y.rank < 0 := fun x hx y hy ↦ by
    rw [add_comm]
    exact hun y hy x hx
  cases d
  · exact ⟨Bool.forall_bool.mpr ⟨hs, ho⟩, Bool.forall_bool.mpr ⟨hsq, hoq⟩,
      (b.liveIds_perm false).nodup_iff.mpr hnd, Bool.forall_bool.mpr ⟨hun, hswap⟩⟩
  · exact ⟨Bool.forall_bool.mpr ⟨ho, hs⟩, Bool.forall_bool.mpr ⟨hoq, hsq⟩,
      (b.liveIds_perm true).nodup_iff.mpr hnd, Bool.forall_bool.mpr ⟨hswap, hun⟩⟩

theorem Valid.opposite_sorted {b : Orderbook} (h : Valid b) (d : Bool) :
    SideSorted (!d) (b.opposite d) := by
  rw [opposite_eq_same]
  exact h.side _

theorem Valid.opposite_qty_pos {b : Orderbook} (h : Valid b) (d : Bool) :
    ∀ o ∈ b.opposite d, 0 < o.qty := by
  rw [opposite_eq_same]
  exact h.qty_pos _

theorem Valid.nodup_sides {b : Orderbook} (h : Valid b) (d : Bool) :
    ((b.same d ++ b.opposite d).map Order.id).Nodup :=
  (b.liveIds_perm d).nodup_iff.mp h.nodup

/-! ## The loop keeps the side

A filled order leaves, a partly filled one changes its quantity only. Forgetting quantities, what is
left of the side is therefore a suffix of the stack. -/

theorem matchLoop_core_suffix (incoming : Order) (stack : Orders) (r : ℤ) :
    (matchLoop incoming stack r).stack.map Order.core <:+ stack.map Order.core := by
  refine matchLoop_induct incoming (motive := fun stack _ m ↦
    m.stack.map Order.core <:+ stack.map Order.core) ?_ ?_ ?_ stack r
  · exact fun _ _ _ ↦ List.suffix_refl _
  · intro best rest r _ _ _ ih
    rw [Matched.emit_stack, List.map_cons]
    exact ih.trans (List.suffix_cons _ _)
  · intro best rest r _ _ _
    exact List.suffix_refl _

theorem matchLoop_qty_pos {incoming : Order} {stack : Orders} (h : ∀ o ∈ stack, 0 < o.qty) (r : ℤ) :
    ∀ o ∈ (matchLoop incoming stack r).stack, 0 < o.qty := by
  refine matchLoop_induct incoming (motive := fun stack _ m ↦
    (∀ o ∈ stack, 0 < o.qty) → ∀ o ∈ m.stack, 0 < o.qty) ?_ ?_ ?_ stack r h
  · exact fun _ _ _ h ↦ h
  · intro best rest r _ _ _ ih h
    exact ih fun o ho ↦ h o (List.mem_cons_of_mem _ ho)
  · intro best rest r _ _ hq h o ho
    rcases List.mem_cons.mp ho with rfl | ho
    · rw [Order.setQty_qty]
      omega
    · exact h o (List.mem_cons_of_mem _ ho)

/-- The loop stops with quantity left only in front of an order that does not match. -/
theorem matchLoop_head_not_isMatch (incoming : Order) (stack : Orders) (r : ℤ) :
    0 < (matchLoop incoming stack r).remaining →
      ∀ best ∈ (matchLoop incoming stack r).stack.head?, ¬isMatch incoming best = true := by
  refine matchLoop_induct incoming (motive := fun _ _ m ↦
    0 < m.remaining → ∀ best ∈ m.stack.head?, ¬isMatch incoming best = true) ?_ ?_ ?_ stack r
  · exact fun _ _ h ↦ h
  · exact fun _ _ _ _ _ _ ih ↦ ih
  · exact fun _ _ _ _ _ _ h ↦ absurd h (lt_irrefl 0)

/-- A relation that does not look at quantities is inherited by what is left of a side. -/
theorem pairwise_of_core_sublist {R : Order → Order → Prop} (hR : ∀ x y, R x.core y.core ↔ R x y)
    {l l' : Orders} (h : l.Pairwise R) (hl : (l'.map Order.core).Sublist (l.map Order.core)) :
    l'.Pairwise R := by
  have hcore : (l.map Order.core).Pairwise R :=
    List.pairwise_map.mpr (h.imp fun {x y} hxy ↦ (hR x y).mpr hxy)
  have hcore' := hcore.sublist hl
  rw [List.pairwise_map] at hcore'
  exact hcore'.imp fun {x y} hxy ↦ (hR x y).mp hxy

theorem SideSorted.of_core_sublist {d : Bool} {l l' : Orders} (h : SideSorted d l)
    (hl : (l'.map Order.core).Sublist (l.map Order.core)) : SideSorted d l' := by
  constructor
  · intro o ho
    obtain ⟨o', ho', heq⟩ := List.mem_map.mp (hl.subset (List.mem_map_of_mem ho))
    have hbuy : o'.core.isBuy = o.core.isBuy := congrArg Order.isBuy heq
    exact hbuy.symm.trans (h.isBuy_eq o' ho')
  · exact pairwise_of_core_sublist (fun _ _ ↦ Iff.rfl) h.sorted hl

theorem map_id_sublist_of_core {l l' : Orders}
    (hl : (l'.map Order.core).Sublist (l.map Order.core)) :
    (l'.map Order.id).Sublist (l.map Order.id) := by
  have h := hl.map Order.id
  rwa [List.map_map, List.map_map] at h

/-- What the loop leaves of a side, in storage order. -/
theorem matchLoop_reverse_core_sublist (incoming : Order) (l : Orders) (r : ℤ) :
    ((matchLoop incoming l.reverse r).stack.reverse.map Order.core).Sublist
      (l.map Order.core) := by
  have h := (matchLoop_core_suffix incoming l.reverse r).sublist.reverse
  rwa [← List.map_reverse, ← List.map_reverse, List.reverse_reverse] at h

/-- With quantity left, nothing on the opposite side matches any more. -/
theorem matchLoop_rank_neg {incoming : Order} {l : Orders} {r : ℤ}
    (hl : SideSorted (!incoming.isBuy) l)
    (hrem : 0 < (matchLoop incoming l.reverse r).remaining) :
    ∀ y ∈ (matchLoop incoming l.reverse r).stack.reverse, incoming.rank + y.rank < 0 := by
  have hside := hl.of_core_sublist (matchLoop_reverse_core_sublist incoming l r)
  have hhead := matchLoop_head_not_isMatch incoming l.reverse r hrem
  intro y hy
  cases hstack : (matchLoop incoming l.reverse r).stack with
  | nil => simp [hstack] at hy
  | cons best rest =>
    rw [hstack] at hy hside hhead
    have hbest : incoming.rank + best.rank < 0 := by
      have hbuy := hside.isBuy_eq best (by simp)
      exact not_le.mp fun h ↦ hhead best rfl ((isMatch_iff hbuy).mpr h)
    -- the last order of the side is the best one, so it stands for all of them
    have hle : y.rank ≤ best.rank := by
      have hsorted := hside.sorted
      rw [List.reverse_cons, List.pairwise_append] at hsorted
      rw [List.reverse_cons, List.mem_append, List.mem_singleton] at hy
      rcases hy with hy | rfl
      · exact hsorted.2.2 y hy best (List.mem_singleton_self _)
      · exact le_rfl
    omega

/-! ## Insertion -/

private theorem partitioned_of_sorted {d : Bool} {l : Orders} (h : SideSorted d l)
    {before : Order → Bool} {c : ℤ} (hb : ∀ x ∈ l, before x = true ↔ x.rank < c) :
    LowerBound.Partitioned before l := by
  refine h.sorted.imp_of_mem fun {x y} hx hy hle hy' ↦ ?_
  rw [hb x hx]
  rw [hb y hy] at hy'
  omega

/-- Insertion at the lower bound of a sorted side: behind the worse orders, in front of the
others. -/
private theorem insertAtLowerBound_split {d : Bool} {l : Orders} (h : SideSorted d l) (o : Order)
    {before : Order → Bool} (hb : ∀ x ∈ l, before x = true ↔ x.rank < o.rank) :
    ∃ l₁ l₂, l = l₁ ++ l₂ ∧ LowerBound.insertAtLowerBound before o l = l₁ ++ o :: l₂ ∧
      (∀ x ∈ l₁, x.rank < o.rank) ∧ ∀ x ∈ l₂, o.rank ≤ x.rank := by
  have hpart := partitioned_of_sorted h hb
  refine ⟨l.takeWhile before, l.dropWhile before, List.takeWhile_append_dropWhile.symm,
    hpart.insertAtLowerBound_eq o, fun x hx ↦ ?_, fun x hx ↦ ?_⟩
  · exact (hb x ((List.takeWhile_sublist _).subset hx)).mp (List.mem_takeWhile_imp hx)
  · have hmem := (List.dropWhile_sublist before).subset hx
    have hx' := hpart.not_before_of_mem_dropWhile hx
    rw [hb x hmem] at hx'
    omega

/-- **`insert_order` on a sorted side.** -/
theorem insertOrder_split {b : Orderbook} {o : Order} (hdupe : ¬b.isDupe o = true)
    (hside : SideSorted o.isBuy (b.same o.isBuy)) :
    (b.insertOrder o).opposite o.isBuy = b.opposite o.isBuy ∧
      ∃ l₁ l₂, b.same o.isBuy = l₁ ++ l₂ ∧ (b.insertOrder o).same o.isBuy = l₁ ++ o :: l₂ ∧
        (∀ x ∈ l₁, x.rank < o.rank) ∧ ∀ x ∈ l₂, o.rank ≤ x.rank := by
  cases hd : o.isBuy with
  | true =>
    rw [hd] at hside
    rw [insertOrder, if_neg hdupe, if_pos hd]
    refine ⟨rfl, insertAtLowerBound_split hside o fun x hx ↦ ?_⟩
    simp [Order.rank, hd, hside.isBuy_eq x hx]
  | false =>
    rw [hd] at hside
    rw [insertOrder, if_neg hdupe, if_neg (by simp [hd])]
    refine ⟨rfl, insertAtLowerBound_split hside o fun x hx ↦ ?_⟩
    simp [Order.rank, hd, hside.isBuy_eq x hx]

theorem SideSorted.insert {d : Bool} {l₁ l₂ : Orders} {o : Order} (h : SideSorted d (l₁ ++ l₂))
    (hd : o.isBuy = d) (h₁ : ∀ x ∈ l₁, x.rank ≤ o.rank) (h₂ : ∀ x ∈ l₂, o.rank ≤ x.rank) :
    SideSorted d (l₁ ++ o :: l₂) := by
  have hs := List.pairwise_append.mp h.sorted
  constructor
  · intro x hx
    rcases List.mem_append.mp hx with hx | hx
    · exact h.isBuy_eq x (List.mem_append_left _ hx)
    · rcases List.mem_cons.mp hx with rfl | hx
      · exact hd
      · exact h.isBuy_eq x (List.mem_append_right _ hx)
  · refine List.pairwise_append.mpr ⟨hs.1, List.pairwise_cons.mpr ⟨h₂, hs.2.1⟩, ?_⟩
    intro x hx y hy
    rcases List.mem_cons.mp hy with rfl | hy
    · exact h₁ x hx
    · exact hs.2.2 x hx y hy

/-! ## What a call does to the book -/

/-- The matching loop as `AddOrder` starts it. -/
def matching (b : Orderbook) (incoming : Order) : Matched :=
  matchLoop incoming (b.opposite incoming.isBuy).reverse incoming.qty

/-- The book between the loop and the insertion of the remainder. -/
def matchedBook (b : Orderbook) (incoming : Order) : Orderbook :=
  b.setOpposite incoming.isBuy (b.matching incoming).stack.reverse

theorem addOrder_of_isDupe {b : Orderbook} {o : Order} (h : b.isDupe o = true) :
    b.addOrder o = (b, []) := by
  rw [addOrder, if_pos h]

theorem addOrder_of_not_isDupe {b : Orderbook} {o : Order} (h : ¬b.isDupe o = true) :
    b.addOrder o = (if 0 < (b.matching o).remaining then
        (b.matchedBook o).insertOrder (o.setQty (b.matching o).remaining) else b.matchedBook o,
      (b.matching o).trades) := by
  rw [addOrder, if_neg h]
  exact apply_ite (fun x ↦ (x, (b.matching o).trades)) _ _ _ |>.symm

/-- A call that does not name a positive quantity changes nothing. -/
theorem addOrder_of_qty_nonpos (b : Orderbook) {o : Order} (h : ¬0 < o.qty) :
    b.addOrder o = (b, []) := by
  by_cases hdupe : b.isDupe o = true
  · exact addOrder_of_isDupe hdupe
  · have hm : b.matching o = ⟨(b.opposite o.isBuy).reverse, o.qty, []⟩ :=
      matchLoop_of_not_pos o _ h
    have hbook : b.matchedBook o = b := by
      refine ext_sides o.isBuy ?_ ?_
      · rw [matchedBook, same_setOpposite]
      · rw [matchedBook, opposite_setOpposite, hm, List.reverse_reverse]
    rw [addOrder_of_not_isDupe hdupe, hm, if_neg h, hbook]

theorem matchedBook_core_sublist (b : Orderbook) (o : Order) :
    (((b.matchedBook o).opposite o.isBuy).map Order.core).Sublist
      ((b.opposite o.isBuy).map Order.core) := by
  rw [matchedBook, opposite_setOpposite]
  exact matchLoop_reverse_core_sublist o _ _

@[simp] theorem same_matchedBook (b : Orderbook) (o : Order) :
    (b.matchedBook o).same o.isBuy = b.same o.isBuy := by
  rw [matchedBook, same_setOpposite]

/-- Matching adds no id, so the second duplicate check sees none either. -/
theorem not_isDupe_matchedBook {b : Orderbook} {o : Order} (h : ¬b.isDupe o = true) (q : ℤ) :
    ¬(b.matchedBook o).isDupe (o.setQty q) = true := by
  rw [isDupe_iff, mem_liveIds b o.isBuy] at h
  rw [isDupe_iff, mem_liveIds _ o.isBuy, same_matchedBook]
  refine fun hmem ↦ h (hmem.imp id ?_)
  rintro ⟨x, hx, hid⟩
  have hsub := map_id_sublist_of_core (b.matchedBook_core_sublist o)
  obtain ⟨y, hy, hyid⟩ := List.mem_map.mp (hsub.subset (List.mem_map_of_mem hx))
  exact ⟨y, hy, hyid.trans hid⟩

theorem Valid.matchedBook {b : Orderbook} (h : Valid b) (o : Order) : Valid (b.matchedBook o) := by
  have hcore := b.matchedBook_core_sublist o
  refine Valid.of_sides o.isBuy ?_ ((h.opposite_sorted _).of_core_sublist hcore) ?_ ?_ ?_ ?_
  · rw [same_matchedBook]
    exact h.side _
  · rw [same_matchedBook]
    exact h.qty_pos _
  · rw [Orderbook.matchedBook, opposite_setOpposite]
    intro x hx
    refine matchLoop_qty_pos (fun y hy ↦ ?_) _ x (List.mem_reverse.mp hx)
    exact h.opposite_qty_pos _ y (List.mem_reverse.mp hy)
  · rw [same_matchedBook, List.map_append]
    have hnd := h.nodup_sides o.isBuy
    rw [List.map_append] at hnd
    exact hnd.sublist ((List.Sublist.refl _).append (map_id_sublist_of_core hcore))
  · rw [same_matchedBook]
    intro x hx y hy
    obtain ⟨y', hy', heq⟩ := List.mem_map.mp (hcore.subset (List.mem_map_of_mem hy))
    have hrank : y'.core.rank = y.core.rank := congrArg Order.rank heq
    have hlt := h.uncrossed o.isBuy x hx y' hy'
    exact hrank ▸ hlt

/-- Resting an order keeps the invariant when it has quantity, is new and reaches no opposite
one. -/
theorem Valid.insertOrder {b : Orderbook} (h : Valid b) {o : Order} (hq : 0 < o.qty)
    (hdupe : ¬b.isDupe o = true) (hun : ∀ y ∈ b.opposite o.isBuy, o.rank + y.rank < 0) :
    Valid (b.insertOrder o) := by
  obtain ⟨hopp, l₁, l₂, hsame, hins, h₁, h₂⟩ := insertOrder_split hdupe (h.side o.isBuy)
  have hmem : ∀ x ∈ l₁ ++ o :: l₂, x = o ∨ x ∈ b.same o.isBuy := by
    rw [hsame]
    intro x hx
    rcases List.mem_append.mp hx with hx | hx
    · exact Or.inr (List.mem_append_left _ hx)
    · exact (List.mem_cons.mp hx).imp id (List.mem_append_right _)
  refine Valid.of_sides o.isBuy ?_ (hopp ▸ h.opposite_sorted _) ?_ (hopp ▸ h.opposite_qty_pos _)
    ?_ ?_
  · rw [hins]
    exact SideSorted.insert (hsame ▸ h.side o.isBuy) rfl (fun x hx ↦ (h₁ x hx).le) h₂
  · rw [hins]
    intro x hx
    rcases hmem x hx with rfl | hx
    · exact hq
    · exact h.qty_pos _ x hx
  -- where the order went does not matter for the ids
  · have hperm : (l₁ ++ o :: l₂ ++ b.opposite o.isBuy).Perm
        (o :: (b.same o.isBuy ++ b.opposite o.isBuy)) := by
      rw [hsame, List.append_assoc, List.append_assoc, List.cons_append]
      exact List.perm_middle
    rw [hins, hopp, (hperm.map Order.id).nodup_iff, List.map_cons, List.nodup_cons]
    refine ⟨fun hid ↦ hdupe ?_, h.nodup_sides _⟩
    rw [isDupe_iff, (b.liveIds_perm o.isBuy).mem_iff]
    exact hid
  · rw [hins, hopp]
    intro x hx y hy
    rcases hmem x hx with rfl | hx
    · exact hun y hy
    · exact h.uncrossed _ x hx y hy

theorem Valid.addOrder {b : Orderbook} (h : Valid b) (o : Order) : Valid (b.addOrder o).1 := by
  by_cases hdupe : b.isDupe o = true
  · rw [addOrder_of_isDupe hdupe]
    exact h
  · rw [addOrder_of_not_isDupe hdupe]
    by_cases hrem : 0 < (b.matching o).remaining
    · simp only [if_pos hrem]
      refine (h.matchedBook o).insertOrder hrem (not_isDupe_matchedBook hdupe _) ?_
      rw [Orderbook.matchedBook, Order.setQty_isBuy, opposite_setOpposite, Order.rank_setQty]
      exact matchLoop_rank_neg (h.opposite_sorted _) hrem
    · simp only [if_neg hrem]
      exact h.matchedBook o

/-- `CancelOrder` shortens one side and leaves the other. -/
theorem cancelOrder_sublist (b : Orderbook) (k : ℕ) (d : Bool) :
    ((b.cancelOrder k).same d).Sublist (b.same d) := by
  rw [Orderbook.cancelOrder]
  split
  · cases d
    · exact List.Sublist.refl _
    · exact List.eraseP_sublist
  · split
    · cases d
      · exact List.eraseP_sublist
      · exact List.Sublist.refl _
    · exact List.Sublist.refl _

/-- The invariant is inherited by every book whose sides are sublists. -/
theorem Valid.of_sublist {b b' : Orderbook} (h : Valid b)
    (hsub : ∀ d, (b'.same d).Sublist (b.same d)) : Valid b' where
  side d := (h.side d).sublist (hsub d)
  qty_pos d := fun o ho ↦ h.qty_pos d o ((hsub d).subset ho)
  nodup := h.nodup.sublist (((hsub true).append (hsub false)).map _)
  uncrossed d := by
    intro x hx y hy
    rw [opposite_eq_same] at hy
    refine h.uncrossed d x ((hsub d).subset hx) y ?_
    rw [opposite_eq_same]
    exact (hsub _).subset hy

theorem Valid.cancelOrder {b : Orderbook} (h : Valid b) (k : ℕ) : Valid (b.cancelOrder k) :=
  h.of_sublist (b.cancelOrder_sublist k)

/-! ## Runs keep the invariant -/

theorem Valid.call {b : Orderbook} (h : Valid b) (c : Call) : Valid (b.call c).1 := by
  cases c with
  | addOrder incoming => exact h.addOrder incoming
  | cancelOrder orderId => exact h.cancelOrder orderId

theorem Valid.runFrom {b : Orderbook} (h : Valid b) (calls : List Call) :
    Valid (b.runFrom calls) := by
  induction calls generalizing b with
  | nil => exact h
  | cons c calls ih => exact ih (h.call c)

theorem valid_run (calls : List Call) : Valid (run calls) := Valid.empty.runFrom calls

/-- The trades of an accepted order and the quantity it has left. -/
theorem addOrder_trades {b : Orderbook} {o : Order} (h : ¬b.isDupe o = true) :
    (b.addOrder o).2 = (b.matching o).trades := by
  rw [addOrder_of_not_isDupe h]

theorem matching_remaining (b : Orderbook) (o : Order) :
    (b.matching o).remaining = o.qty - traded (b.matching o).trades :=
  matchLoop_remaining o _ _

/-- **What an accepted order does to the two sides.** The opposite side is what the loop left, and
the own side is unchanged or has the remainder inserted behind the worse prices. -/
theorem Valid.addOrder_sides {b : Orderbook} (h : Valid b) {o : Order}
    (hdupe : ¬b.isDupe o = true) :
    (b.addOrder o).1.opposite o.isBuy = (b.matching o).stack.reverse ∧
      (¬0 < (b.matching o).remaining ∧ (b.addOrder o).1.same o.isBuy = b.same o.isBuy ∨
        0 < (b.matching o).remaining ∧ ∃ l₁ l₂, b.same o.isBuy = l₁ ++ l₂ ∧
          (b.addOrder o).1.same o.isBuy = l₁ ++ o.setQty (b.matching o).remaining :: l₂ ∧
          (∀ x ∈ l₁, x.rank < o.rank) ∧ ∀ x ∈ l₂, o.rank ≤ x.rank) := by
  have hopp : (b.matchedBook o).opposite o.isBuy = (b.matching o).stack.reverse := by
    rw [Orderbook.matchedBook, opposite_setOpposite]
  rw [addOrder_of_not_isDupe hdupe]
  by_cases hpos : 0 < (b.matching o).remaining
  · simp only [if_pos hpos]
    obtain ⟨hopp', l₁, l₂, hsame, hins, h₁, h₂⟩ := insertOrder_split
      (not_isDupe_matchedBook hdupe (b.matching o).remaining) ((h.matchedBook o).side _)
    rw [Order.setQty_isBuy] at hopp' hins hsame
    rw [same_matchedBook] at hsame
    exact ⟨hopp'.trans hopp, Or.inr ⟨hpos, l₁, l₂, hsame, hins, h₁, h₂⟩⟩
  · simp only [if_neg hpos]
    exact ⟨hopp, Or.inl ⟨hpos, b.same_matchedBook o⟩⟩

theorem addOrder_core_sublist {b : Orderbook} (h : Valid b) {o : Order}
    (hdupe : ¬b.isDupe o = true) :
    (((b.addOrder o).1.opposite o.isBuy).map Order.core).Sublist
      ((b.opposite o.isBuy).map Order.core) := by
  rw [(h.addOrder_sides hdupe).1]
  exact matchLoop_reverse_core_sublist o _ _

/-- A call makes no other id live than the one it adds. -/
theorem Valid.mem_liveIds_addOrder {b : Orderbook} (h : Valid b) {o : Order}
    (hdupe : ¬b.isDupe o = true) {k : ℕ} (hk : k ∈ (b.addOrder o).1.liveIds) :
    k = o.id ∨ k ∈ b.liveIds := by
  rw [mem_liveIds b o.isBuy]
  rcases (mem_liveIds _ o.isBuy _).mp hk with ⟨x, hx, rfl⟩ | ⟨x, hx, rfl⟩
  · rcases (h.addOrder_sides hdupe).2 with ⟨-, heq⟩ | ⟨-, l₁, l₂, heq, hins, -⟩
    · exact Or.inr (Or.inl ⟨x, heq ▸ hx, rfl⟩)
    · rw [hins, List.mem_append, List.mem_cons] at hx
      rw [heq]
      rcases hx with hx | rfl | hx
      · exact Or.inr (Or.inl ⟨x, List.mem_append_left _ hx, rfl⟩)
      · exact Or.inl rfl
      · exact Or.inr (Or.inl ⟨x, List.mem_append_right _ hx, rfl⟩)
  · have hids := map_id_sublist_of_core (addOrder_core_sublist h hdupe)
    obtain ⟨y, hy, hyid⟩ := List.mem_map.mp (hids.subset (List.mem_map_of_mem hx))
    exact Or.inr (Or.inr ⟨y, hy, hyid⟩)

/-- What an accepted order does not trade rests on its own side. -/
theorem Valid.remainder_mem {b : Orderbook} (h : Valid b) {o : Order} (hdupe : ¬b.isDupe o = true)
    (hrem : traded (b.addOrder o).2 < o.qty) :
    o.setQty (o.qty - traded (b.addOrder o).2) ∈ (b.addOrder o).1.same o.isBuy := by
  have hleft := b.matching_remaining o
  rw [addOrder_trades hdupe] at hrem ⊢
  rcases (h.addOrder_sides hdupe).2 with ⟨hpos, -⟩ | ⟨-, l₁, l₂, -, hins, -⟩
  · omega
  · rw [hins, hleft]
    exact List.mem_append_right _ List.mem_cons_self

/-- **The representation invariant holds in every reachable book**, whatever the quantities, and no
accepted order loses its remainder at the second duplicate check. -/
theorem run_representation (calls : List Call) :
    (run calls).bids.Pairwise (fun x y ↦ x.level ≤ y.level) ∧
      (∀ x ∈ (run calls).bids, x.isBuy = true) ∧
      (run calls).asks.Pairwise (fun x y ↦ y.level ≤ x.level) ∧
      (∀ x ∈ (run calls).asks, x.isBuy = false) ∧
      (∀ x ∈ (run calls).bids ++ (run calls).asks, 0 < x.qty) ∧
      (((run calls).bids ++ (run calls).asks).map Order.id).Nodup ∧
      (∀ x ∈ (run calls).bids.getLast?, ∀ y ∈ (run calls).asks.getLast?, x.level < y.level) ∧
      ∀ o : Order, ¬(run calls).isDupe o = true → 0 < o.qty →
        traded ((run calls).addOrder o).2 < o.qty →
        o.setQty (o.qty - traded ((run calls).addOrder o).2)
          ∈ ((run calls).addOrder o).1.same o.isBuy := by
  have h := valid_run calls
  have hb := h.side true
  have ha := h.side false
  have hrankb : ∀ x ∈ (run calls).bids, x.rank = x.level := fun x hx ↦
    if_pos (hb.isBuy_eq x hx)
  have hranka : ∀ x ∈ (run calls).asks, x.rank = -x.level := fun x hx ↦
    if_neg (by rw [ha.isBuy_eq x hx]; exact Bool.false_ne_true)
  refine ⟨?_, hb.isBuy_eq, ?_, ha.isBuy_eq, ?_, h.nodup, ?_, ?_⟩
  · refine hb.sorted.imp_of_mem fun {x y} hx hy hle ↦ ?_
    rwa [hrankb x hx, hrankb y hy] at hle
  · refine ha.sorted.imp_of_mem fun {x y} hx hy hle ↦ ?_
    rw [hranka x hx, hranka y hy] at hle
    omega
  · intro x hx
    rcases List.mem_append.mp hx with hx | hx
    · exact h.qty_pos true x hx
    · exact h.qty_pos false x hx
  · intro x hx y hy
    have hx' := List.mem_of_mem_getLast? hx
    have hy' := List.mem_of_mem_getLast? hy
    have hlt := h.uncrossed true x hx' y hy'
    rw [hrankb x hx', hranka y hy'] at hlt
    omega
  · exact fun o hdupe _ hrem ↦ h.remainder_mem hdupe hrem

end Orderbook

end FastInAHurry
