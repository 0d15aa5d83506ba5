import FastInAHurry.Library.Descriptors
import FastInAHurry.Library.Runs

/-!
# Sockets

The embedding of `io/Socket.hh` over a kernel that hands out descriptors and may use every closed
number again. A non-negative `int` that is passed to a `Socket` has just been opened by the kernel;
the number is whatever the kernel likes among those that are not open. A negative one stands for a
call that failed.

The functions take the kernel and the objects they work on, and give them back. The objects of a
program are a table of sockets; one that is a member of another object, such as `m_sock`, is in the
table as well.
-/

namespace FastInAHurry

open Descriptors

namespace Io

structure Kernel where
  table : Table
  /-- The openings on which `bind` has succeeded. -/
  bound : List ℕ

namespace Kernel

def init : Kernel where
  table := Table.empty
  bound := []

/-- `::socket` or `::accept` returns `fd`. -/
def returns (k : Kernel) (fd : ℤ) : Option Kernel :=
  if fd < 0 then some k
  else if k.table.entries fd.toNat = none then some { k with table := k.table.openAs fd.toNat }
  else none

def close (k : Kernel) (fd : ℤ) : Kernel := { k with table := k.table.close fd.toNat }

/-- `::bind` returns a non-negative number if it is to succeed and the descriptor is open. -/
def bind (k : Kernel) (fd : ℤ) (succeeds : Bool) : Bool × Kernel :=
  if 0 ≤ fd then
    match k.table.entries fd.toNat with
    | some n => if succeeds then (true, { k with bound := k.bound ++ [n] }) else (false, k)
    | none => (false, k)
  else (false, k)

theorem bind_cases (k : Kernel) (fd : ℤ) (succeeds : Bool) :
    k.bind fd succeeds = (false, k) ∨
      ∃ n, 0 ≤ fd ∧ k.table.entries fd.toNat = some n ∧
        k.bind fd succeeds = (true, { k with bound := k.bound ++ [n] }) := by
  unfold bind
  split
  · next hpos =>
    split
    · next n hn =>
      cases succeeds with
      | false => exact Or.inl rfl
      | true => exact Or.inr ⟨n, hpos, hn, rfl⟩
    · exact Or.inl rfl
  · exact Or.inl rfl

/-- A call fails and changes nothing, or opens a descriptor that was not open. -/
theorem returns_cases {k k' : Kernel} {fd : ℤ} (hk : k.returns fd = some k') :
    fd < 0 ∧ k' = k ∨ 0 ≤ fd ∧ k.table.entries fd.toNat = none ∧
      k' = { k with table := k.table.openAs fd.toNat } := by
  unfold returns at hk
  split at hk
  · next hneg => exact Or.inl ⟨hneg, (Option.some.inj hk).symm⟩
  · next hpos =>
    split at hk <;> try contradiction
    next hclosed => exact Or.inr ⟨Int.not_lt.mp hpos, hclosed, (Option.some.inj hk).symm⟩

end Kernel

structure Socket where
  mFd : ℤ
deriving DecidableEq, Repr

namespace Socket

def valid (s : Socket) : Bool := s.mFd ≥ 0

/-- `if (m_fd >= 0) close(m_fd)`. -/
def closeHeld (k : Kernel) (s : Socket) : Kernel := if s.mFd ≥ 0 then k.close s.mFd else k

/-- The move constructor gives the new socket and what is left of the other one. -/
def moveConstruct (other : Socket) : Socket × Socket := (⟨other.mFd⟩, ⟨-1⟩)

/-- The move assignment, the two being different objects. -/
def moveAssign (k : Kernel) (s other : Socket) : Kernel × Socket × Socket :=
  (s.closeHeld k, ⟨other.mFd⟩, ⟨-1⟩)

/-- The assignment of an `int`. -/
def assign (k : Kernel) (s : Socket) (newfd : ℤ) : Kernel × Socket := (s.closeHeld k, ⟨newfd⟩)

def reset (k : Kernel) (s : Socket) (newfd : ℤ) : Kernel × Socket := (s.closeHeld k, ⟨newfd⟩)

def destroy (k : Kernel) (s : Socket) : Kernel := s.closeHeld k

/-- The descriptor that the socket holds. -/
def held (s : Socket) : Option ℕ := if 0 ≤ s.mFd then some s.mFd.toNat else none

theorem held_of_nonneg {s : Socket} (hfd : 0 ≤ s.mFd) : s.held = some s.mFd.toNat := if_pos hfd

theorem held_of_neg {s : Socket} (hfd : s.mFd < 0) : s.held = none :=
  if_neg (Int.not_le.mpr hfd)

inductive Op (ι : Type*) where
  /-- From a descriptor, or -1 for the default constructor. -/
  | construct (fd : ℤ)
  | moveConstruct (other : ι)
  | moveAssign (other : ι)
  | assign (newfd : ℤ)
  | reset (newfd : ℤ)
  | destruct

end Socket

structure World (ι : Type*) where
  kernel : Kernel
  sockets : ι → Option Socket

namespace World

variable {ι : Type*}

def init : World ι where
  kernel := Kernel.init
  sockets := fun _ ↦ none

/-- The descriptors that the sockets hold. -/
def holds (w : World ι) (i : ι) : Option ℕ := (w.sockets i).bind Socket.held

/-- The kernel after a call that returned `fd`, in a world that is otherwise the same. -/
def returns (w : World ι) (fd : ℤ) : Option (World ι) :=
  (w.kernel.returns fd).map fun k ↦ { w with kernel := k }

variable [DecidableEq ι]

def put (w : World ι) (i : ι) (o : Option Socket) : World ι :=
  { w with sockets := Function.update w.sockets i o }

/-- The object `i` and the kernel after an operation. -/
def after (w : World ι) (i : ι) (r : Kernel × Socket) : World ι :=
  { w with kernel := r.1 }.put i (some r.2)

/-- An operation on the socket `i`. -/
def socketStep (w : World ι) (i : ι) (op : Socket.Op ι) : Option (World ι) :=
  match op, w.sockets i with
  | .construct fd, none => (w.returns fd).map fun w ↦ w.put i (some ⟨fd⟩)
  | .moveConstruct j, none =>
    (w.sockets j).map fun other ↦
      let (s, other) := Socket.moveConstruct other
      (w.put i (some s)).put j (some other)
  | .moveAssign j, some s =>
    if i ≠ j then
      (w.sockets j).map fun other ↦
        let (k, s, other) := s.moveAssign w.kernel other
        ({ w with kernel := k }.put i (some s)).put j (some other)
    else some w
  | .assign newfd, some s => (w.returns newfd).map fun w ↦ w.after i (s.assign w.kernel newfd)
  | .reset newfd, some s => (w.returns newfd).map fun w ↦ w.after i (s.reset w.kernel newfd)
  | .destruct, some s => some ({ w with kernel := s.destroy w.kernel }.put i none)
  | _, _ => none

/-! ## What an operation does to the descriptors -/

variable {w w' : World ι} {i j : ι} {s other : Socket} {fd : ℤ} {pending : Option ℕ}

/-- Every opening is at its descriptor or was closed once, every open descriptor is held by one
socket, and no close has gone wrong. -/
def Inv (w : World ι) : Prop := Descriptors.Inv w.kernel.table w.holds none

omit [DecidableEq ι] in
theorem holds_eq (hi : w.sockets i = some s) : w.holds i = s.held := by
  rw [holds, hi, Option.bind_some]

omit [DecidableEq ι] in
theorem holds_eq_none (hi : w.sockets i = none) : w.holds i = none := by
  rw [holds, hi, Option.bind_none]

theorem holds_put (o : Option Socket) :
    (w.put i o).holds = Function.update w.holds i (o.bind Socket.held) := by
  funext k
  rcases eq_or_ne k i with rfl | hne
  · simp [holds, put]
  · simp [holds, put, hne]

omit [DecidableEq ι] in
/-- A new descriptor is on its way to a socket. -/
theorem Inv.returns (h : Inv w) (hst : w.returns fd = some w') :
    Descriptors.Inv w'.kernel.table w'.holds (Socket.held ⟨fd⟩) ∧ w'.sockets = w.sockets := by
  obtain ⟨k, hk, rfl⟩ := Option.map_eq_some_iff.mp hst
  refine ⟨?_, rfl⟩
  rcases Kernel.returns_cases hk with ⟨hneg, rfl⟩ | ⟨hpos, hclosed, rfl⟩
  · rw [Socket.held_of_neg hneg]
    exact h
  · rw [Socket.held_of_nonneg hpos]
    exact h.openAs hclosed

/-- The destructor of a socket, and every operation that replaces its descriptor, closes what it
holds. -/
theorem inv_closeHeld (h : Descriptors.Inv w.kernel.table w.holds pending)
    (hi : w.sockets i = some s) :
    Descriptors.Inv (s.closeHeld w.kernel).table (Function.update w.holds i none) pending := by
  unfold Socket.closeHeld
  split
  · next hpos => exact h.close ((holds_eq hi).trans (Socket.held_of_nonneg hpos))
  · next hneg =>
    rw [Function.update_eq_self_iff.mpr]
    · exact h
    · rw [holds_eq hi, Socket.held_of_neg (Int.not_le.mp hneg)]

/-- A socket that holds nothing gets the descriptor that is on its way to it. -/
theorem inv_receive {t : Table} {holds : ι → Option ℕ}
    (h : Descriptors.Inv t holds (Socket.held ⟨fd⟩)) (hi : holds i = none) :
    Descriptors.Inv t (Function.update holds i (Socket.held ⟨fd⟩)) none := by
  cases hfd : Socket.held ⟨fd⟩ with
  | none =>
    rw [hfd] at h
    rwa [Function.update_eq_self_iff.mpr hi.symm]
  | some n =>
    rw [hfd] at h
    exact h.receive hi

/-- Everything an operation on the object `i` can do to the descriptors. -/
inductive Move (w : World ι) (i : ι) : World ι → Prop
  | same : Move w i w
  | construct {fd : ℤ} {w' : World ι} (hi : w.sockets i = none) (hst : w.returns fd = some w') :
      Move w i (w'.put i (some ⟨fd⟩))
  | moveConstruct {j : ι} {other : Socket} (hi : w.sockets i = none)
      (hj : w.sockets j = some other) : Move w i ((w.put i (some ⟨other.mFd⟩)).put j (some ⟨-1⟩))
  | moveAssign {j : ι} {s other : Socket} (hij : i ≠ j) (hi : w.sockets i = some s)
      (hj : w.sockets j = some other) :
      Move w i (({ w with kernel := s.closeHeld w.kernel }.put i (some ⟨other.mFd⟩)).put j
        (some ⟨-1⟩))
  | replace {fd : ℤ} {s : Socket} {w' : World ι} (hi : w.sockets i = some s)
      (hst : w.returns fd = some w') : Move w i (w'.after i (s.closeHeld w'.kernel, ⟨fd⟩))
  | destruct {s : Socket} (hi : w.sockets i = some s) :
      Move w i ({ w with kernel := s.closeHeld w.kernel }.put i none)
  | bind {t : World ι} (hm : Move w i t) (bound : List ℕ) :
      Move w i { t with kernel := { t.kernel with bound := bound } }

theorem move_of_socketStep {op : Socket.Op ι} (hst : w.socketStep i op = some w') :
    Move w i w' := by
  unfold socketStep at hst
  split at hst <;> rename_i hi <;> try contradiction
  · obtain ⟨v, hv, rfl⟩ := Option.map_eq_some_iff.mp hst
    exact .construct hi hv
  · obtain ⟨other, hj, rfl⟩ := Option.map_eq_some_iff.mp hst
    exact .moveConstruct hi hj
  · split at hst
    · next hij =>
      obtain ⟨other, hj, rfl⟩ := Option.map_eq_some_iff.mp hst
      exact .moveAssign hij hi hj
    · exact Option.some.inj hst ▸ .same
  · obtain ⟨v, hv, rfl⟩ := Option.map_eq_some_iff.mp hst
    exact .replace hi hv
  · obtain ⟨v, hv, rfl⟩ := Option.map_eq_some_iff.mp hst
    exact .replace hi hv
  · exact Option.some.inj hst ▸ .destruct hi

/-- Moving from a socket leaves it without a descriptor. -/
theorem holds_moved (hij : i ≠ j) (hj : w.sockets j = some other) :
    ((w.put i (some ⟨other.mFd⟩)).put j (some ⟨-1⟩)).holds =
      Function.update (Function.update w.holds j none) i (w.holds j) := by
  rw [holds_put, holds_put, Function.update_comm hij, holds_eq hj]
  rfl

theorem Inv.move (h : Inv w) (hm : Move w i w') : Inv w' := by
  induction hm with
  | same => exact h
  | construct hi hst =>
    obtain ⟨hinv, hsame⟩ := h.returns hst
    unfold Inv
    rw [holds_put]
    exact inv_receive hinv (holds_eq_none (hsame ▸ hi))
  | moveConstruct hi hj =>
    have hij : i ≠ _ := fun heq ↦ nomatch (heq ▸ hi).symm.trans hj
    unfold Inv
    rw [holds_moved hij hj]
    exact Descriptors.Inv.relocate h (holds_eq_none hi)
  | @moveAssign j s other hij hi hj =>
    have hclosed := (inv_closeHeld h hi).relocate (j := j) (Function.update_self ..)
    rw [Function.update_of_ne hij.symm, Function.update_comm hij, Function.update_idem] at hclosed
    have hholds := holds_moved (w := { w with kernel := s.closeHeld w.kernel }) hij hj
    unfold Inv
    rw [hholds]
    exact hclosed
  | @replace fd s v hi hst =>
    -- the new descriptor is open before the old one is closed
    obtain ⟨hinv, hsame⟩ := h.returns hst
    have hclosed := inv_receive (inv_closeHeld hinv (hsame ▸ hi)) (Function.update_self ..)
    rw [Function.update_idem] at hclosed
    unfold Inv after
    rw [holds_put]
    exact hclosed
  | destruct hi =>
    unfold Inv
    rw [holds_put]
    exact inv_closeHeld h hi
  | bind hm bound ih => exact ih

omit [DecidableEq ι] in
/-- `if (m_fd >= 0) close(m_fd)` closes the descriptor of the socket or does nothing. -/
theorem closed_closeHeld (h : Descriptors.Inv w.kernel.table w.holds pending)
    (hi : w.sockets i = some s) :
    (s.closeHeld w.kernel).table.closed = w.kernel.table.closed ∨
      ∃ n, 0 ≤ s.mFd ∧ w.kernel.table.entries s.mFd.toNat = some n ∧
        (s.closeHeld w.kernel).table.closed = w.kernel.table.closed ++ [(n, s.mFd.toNat)] := by
  unfold Socket.closeHeld
  split
  · next hpos =>
    obtain ⟨n, hn⟩ := h.exists_opening ((holds_eq hi).trans (Socket.held_of_nonneg hpos))
    exact Or.inr ⟨n, hpos, hn, by rw [Kernel.close, Table.close_of_open hn]⟩
  · exact Or.inl rfl

omit [DecidableEq ι] in
/-- A call that returns a descriptor closes none, and what is open stays open. -/
theorem returns_frame (hst : w.returns fd = some w') :
    w'.kernel.table.closed = w.kernel.table.closed ∧
      ∀ fd' n, w.kernel.table.entries fd' ≠ none → w'.kernel.table.entries fd' = some n →
        w.kernel.table.entries fd' = some n := by
  obtain ⟨k, hk, rfl⟩ := Option.map_eq_some_iff.mp hst
  rcases Kernel.returns_cases hk with ⟨-, rfl⟩ | ⟨-, hclosed, rfl⟩
  · exact ⟨rfl, fun _ _ _ h ↦ h⟩
  · refine ⟨rfl, fun fd' n hopen hn ↦ ?_⟩
    have hne : fd' ≠ fd.toNat := fun heq ↦ hopen (heq ▸ hclosed)
    exact (Function.update_of_ne hne ..).symm.trans hn

/-- **Only what it holds.** An operation closes nothing, or the open descriptor that its own object
holds. -/
theorem Move.closed (hm : Move w i w') (h : Inv w) :
    w'.kernel.table.closed = w.kernel.table.closed ∨
      ∃ s n, w.sockets i = some s ∧ 0 ≤ s.mFd ∧ w.kernel.table.entries s.mFd.toNat = some n ∧
        w'.kernel.table.closed = w.kernel.table.closed ++ [(n, s.mFd.toNat)] := by
  induction hm with
  | same | moveConstruct => exact Or.inl rfl
  | construct hi hst => exact Or.inl (returns_frame hst).1
  | @moveAssign j s other hij hi hj =>
    rcases closed_closeHeld h hi with hsame | ⟨n, hpos, hn, hclosed⟩
    · exact Or.inl hsame
    · exact Or.inr ⟨s, n, hi, hpos, hn, hclosed⟩
  | @replace fd s v hi hst =>
    obtain ⟨hinv, hsame⟩ := h.returns hst
    obtain ⟨hframe, hopen⟩ := returns_frame hst
    rcases closed_closeHeld hinv (hsame ▸ hi) with hkept | ⟨n, hpos, hn, hclosed⟩
    · exact Or.inl (hkept.trans hframe)
    · -- what is closed was open before the new descriptor came
      have hheld := (holds_eq hi).trans (Socket.held_of_nonneg hpos)
      have hwas := (h.open_iff s.mFd.toNat).mpr (Or.inr ⟨i, hheld⟩)
      exact Or.inr ⟨s, n, hi, hpos, hopen _ n hwas hn, hclosed.trans (by rw [hframe])⟩
  | @destruct s hi =>
    rcases closed_closeHeld h hi with hsame | ⟨n, hpos, hn, hclosed⟩
    · exact Or.inl hsame
    · exact Or.inr ⟨s, n, hi, hpos, hn, hclosed⟩
  | bind hm bound ih => exact ih

end World

end Io

end FastInAHurry
