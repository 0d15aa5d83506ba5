import FastInAHurry.Library.RefCount
import FastInAHurry.Library.Runs

/-!
# The shared pointer

The embedding of `handle/SharedPtr.hh` for any number of handles and threads. An operation takes its
handle for itself; it then goes on step by step while operations on other handles do the same. A
handle that is moved from is with that one operation, and one that is copied from is lent to any
number of copies, which only read it. Each access to a count is a step of its own, and so are the
call of the deleter and the end of the control block. Reading and writing the two pointers of a
handle is not: nobody writes them while another looks.

The last step of an operation is the same for constructors and assignments, so that a constructor is
an operation on a handle that starts out with null pointers.

Counts are natural numbers: 2^64 handles do not fit into memory. A step on a control block that does
not exist is recorded as a fault, and so is one that reads from a handle that does not.
-/

namespace FastInAHurry

namespace SharedPtr

open Runs

structure ControlBlock (O D : Type*) where
  mCount : ℕ
  pObj : Option O
  deleter : D

/-- What an operation does once it has released what its handle owned. -/
inductive Then (ι O D : Type*) where
  | copyFrom (other : ι)
  | moveFrom (other : ι)
  /-- Null pointers: `reset()` and the default constructor. -/
  | clear
  /-- The end of the handle. -/
  | destroy
  /-- A new control block, whatever the pointer: the constructors from a raw pointer. -/
  | allocate (pointer : Option O) (d : D)
  /-- A new control block unless the pointer is null: `reset(pointer, d)`. -/
  | replace (pointer : Option O) (d : D)

/-- Where the operation on a handle stands. -/
inductive Phase (ι O D : Type*) where
  | idle
  /-- The operations on these other handles copy from this one. -/
  | lent (readers : Finset ι) (nonempty : readers.Nonempty)
  /-- The operation on this other handle moves from this one. -/
  | taken (mover : ι)
  /-- Before `fetch_sub`. -/
  | releasing (next : Then ι O D)
  /-- After a `fetch_sub` that returned one. -/
  | deleting (next : Then ι O D)
  /-- After the deleter. -/
  | freeing (next : Then ι O D)
  /-- There is nothing (more) to release. -/
  | continuing (next : Then ι O D)
  /-- Before `fetch_add`. -/
  | addRef (other : ι)

structure Handle (ι O D : Type*) where
  pObj : Option O
  pCb : Option ℕ
  phase : Phase ι O D

structure State (ι O D : Type*) where
  handles : ι → Option (Handle ι O D)
  blocks : ℕ → Option (ControlBlock O D)
  /-- The name of the next control block. -/
  allocated : ℕ
  freed : List ℕ
  /-- The objects handed over so far, each with the deleter given for it. -/
  given : O → Option D
  /-- The calls of deleters, in order. -/
  deleted : List (O × D)
  faulted : Bool

inductive Op (ι O D : Type*) where
  | default
  | construct (pointer : Option O) (d : D)
  | copyConstruct (other : ι)
  | moveConstruct (other : ι)
  | copyAssign (other : ι)
  | moveAssign (other : ι)
  | reset
  | resetTo (pointer : Option O) (d : D)
  | destruct

inductive Event (ι O D : Type*) where
  | start (i : ι) (op : Op ι O D)
  | go (i : ι)

variable {ι O D : Type*}

def Op.constructs : Op ι O D → Bool
  | .default | .construct _ _ | .copyConstruct _ | .moveConstruct _ => true
  | .copyAssign _ | .moveAssign _ | .reset | .resetTo _ _ | .destruct => false

def Op.next : Op ι O D → Then ι O D
  | .default => .clear
  | .construct pointer d => .allocate pointer d
  | .copyConstruct other => .copyFrom other
  | .moveConstruct other => .moveFrom other
  | .copyAssign other => .copyFrom other
  | .moveAssign other => .moveFrom other
  | .reset => .clear
  | .resetTo pointer d => .replace pointer d
  | .destruct => .destroy

/-- The handle that is read from. -/
def Then.source : Then ι O D → Option ι
  | .copyFrom other | .moveFrom other => some other
  | .clear | .destroy | .allocate _ _ | .replace _ _ => none

/-- The object that is handed over. -/
def Then.token : Then ι O D → Option (O × D)
  | .allocate pointer d | .replace pointer d => pointer.map fun o ↦ (o, d)
  | .copyFrom _ | .moveFrom _ | .clear | .destroy => none

def Phase.isIdle : Phase ι O D → Bool
  | .idle => true
  | _ => false

/-- No operation on the handle itself is in progress. -/
def Phase.rests : Phase ι O D → Bool
  | .idle | .lent _ _ | .taken _ => true
  | .releasing _ | .deleting _ | .freeing _ | .continuing _ | .addRef _ => false

def init : State ι O D where
  handles := fun _ ↦ none
  blocks := fun _ ↦ none
  allocated := 0
  freed := []
  given := fun _ ↦ none
  deleted := []
  faulted := false

def State.fault (s : State ι O D) : State ι O D := { s with faulted := true }

/-- Run a step on the control block that a handle points to. -/
def State.onBlock (s : State ι O D) (p : Option ℕ)
    (f : ℕ → ControlBlock O D → State ι O D) : State ι O D :=
  match p with
  | none => s.fault
  | some b =>
    match s.blocks b with
    | none => s.fault
    | some cb => f b cb

def State.setBlock (s : State ι O D) (b : ℕ) (o : Option (ControlBlock O D)) : State ι O D :=
  { s with blocks := Function.update s.blocks b o }

variable [DecidableEq ι]

/-- A handle is lent to the operation on `i` as well, if it may be. -/
def Phase.lend (i : ι) : Then ι O D → Phase ι O D → Option (Phase ι O D)
  | .copyFrom _, .idle => some (.lent {i} (Finset.singleton_nonempty i))
  | .copyFrom _, .lent readers _ => some (.lent (insert i readers) (readers.insert_nonempty i))
  | .moveFrom _, .idle => some (.taken i)
  | _, _ => none

/-- The operation on `i` has copied from the handle. -/
def Phase.giveBack (i : ι) : Phase ι O D → Phase ι O D
  | .lent readers _ =>
    if h : (readers.erase i).Nonempty then .lent (readers.erase i) h else .idle
  | phase => phase

def State.put (s : State ι O D) (i : ι) (o : Option (Handle ι O D)) : State ι O D :=
  { s with handles := Function.update s.handles i o }

/-- A new control block with one reference, for the handle `i`. -/
def State.allocate (s : State ι O D) (i : ι) (pointer : Option O) (d : D) : State ι O D :=
  { (s.setBlock s.allocated (some ⟨1, pointer, d⟩)).put i
      (some ⟨pointer, some s.allocated, .idle⟩) with
    allocated := s.allocated + 1 }

/-- The last part of an operation. -/
def State.continueWith (s : State ι O D) (i : ι) : Then ι O D → State ι O D
  | .copyFrom other =>
    match s.handles other with
    | none => s.fault
    | some src =>
      if src.pCb = none then
        (s.put i (some ⟨src.pObj, src.pCb, .idle⟩)).put other
          (some { src with phase := src.phase.giveBack i })
      else s.put i (some ⟨src.pObj, src.pCb, .addRef other⟩)
  | .moveFrom other =>
    match s.handles other with
    | none => s.fault
    | some src =>
      (s.put i (some ⟨src.pObj, src.pCb, .idle⟩)).put other (some ⟨none, none, .idle⟩)
  | .clear => s.put i (some ⟨none, none, .idle⟩)
  | .destroy => s.put i none
  | .allocate pointer d => s.allocate i pointer d
  | .replace none _ => s.put i (some ⟨none, none, .idle⟩)
  | .replace (some o) d => s.allocate i (some o) d

/-- The next step of the operation on the handle `i`. -/
def State.go (s : State ι O D) (i : ι) (h : Handle ι O D) : Option (State ι O D) :=
  match h.phase with
  | .idle | .lent _ _ | .taken _ => none
  | .releasing next => some <| s.onBlock h.pCb fun b cb ↦
      let phase := if cb.mCount = 1 then .deleting next else .continuing next
      (s.setBlock b (some { cb with mCount := cb.mCount - 1 })).put i
        (some { h with phase := phase })
  | .deleting next => some <| s.onBlock h.pCb fun b cb ↦
      { (s.setBlock b (some { cb with pObj := none })).put i
          (some { h with phase := .freeing next }) with
        deleted := s.deleted ++ (cb.pObj.map fun o ↦ (o, cb.deleter)).toList }
  | .freeing next => some <| s.onBlock h.pCb fun b _ ↦
      { (s.setBlock b none).put i (some { h with phase := .continuing next }) with
        freed := s.freed ++ [b] }
  | .continuing next => some (s.continueWith i next)
  | .addRef other => some <| s.onBlock h.pCb fun b cb ↦
      match s.handles other with
      | none => s.fault
      | some src =>
        ((s.setBlock b (some { cb with mCount := cb.mCount + 1 })).put i
          (some { h with phase := .idle })).put other
            (some { src with phase := src.phase.giveBack i })

/-- The handle on which an operation starts: a new one for a constructor, else one on which none is
in progress. -/
def State.target (s : State ι O D) (i : ι) (op : Op ι O D) : Option (Handle ι O D) :=
  match s.handles i with
  | none => if op.constructs then some ⟨none, none, .idle⟩ else none
  | some h => if op.constructs then none else if h.phase.isIdle then some h else none

/-- Lend the handle that the operation reads from; it is another one, on which no operation is in
progress. Copies share it, and a move has it for itself. -/
def State.lend (s : State ι O D) (i : ι) (next : Then ι O D) : Option (State ι O D) :=
  match next.source with
  | none => some s
  | some other =>
    match s.handles other with
    | none => none
    | some src =>
      if other = i then none
      else (src.phase.lend i next).map fun phase ↦ s.put other (some { src with phase := phase })

variable [DecidableEq O]

/-- Hand over an object that was not handed over before. -/
def State.give (s : State ι O D) (next : Then ι O D) : Option (State ι O D) :=
  match next.token with
  | none => some s
  | some (o, d) =>
    match s.given o with
    | none => some { s with given := Function.update s.given o (some d) }
    | some _ => none

/-- Start an operation. -/
def State.start (s : State ι O D) (i : ι) (op : Op ι O D) (h : Handle ι O D) :
    Option (State ι O D) :=
  (s.lend i op.next).bind fun s ↦ (s.give op.next).map fun s ↦
    let phase := if h.pCb = none then .continuing op.next else .releasing op.next
    s.put i (some { h with phase := phase })

/-- The assignment of a handle to itself. -/
def Op.isSelf (i : ι) : Op ι O D → Bool
  | .copyAssign other | .moveAssign other => other = i
  | .default | .construct _ _ | .copyConstruct _ | .moveConstruct _ | .reset | .resetTo _ _
  | .destruct => false

def step (s : State ι O D) : Event ι O D → Option (State ι O D)
  | .start i op => (s.target i op).bind fun h ↦ if op.isSelf i then some s else s.start i op h
  | .go i => (s.handles i).bind fun h ↦ s.go i h

end SharedPtr

end FastInAHurry
