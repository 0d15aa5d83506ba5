import FastInAHurry.Library.Blocks
import Mathlib.Algebra.Group.Nat.Defs
import Mathlib.Data.PNat.Defs

/-!
# The vector

Three raw pointers into one block. A pointer is the identity of its block and an index; forming one
is always possible, following one is possible inside a live block only. The size of the elements is
a parameter, because the number of bytes of a request is a product of machine words: a request that
wraps around gets a smaller block than was asked for. An index does not wrap around: after such a
request `m_cap` is as many elements behind `m_begin` as were asked for, where in the machine its
address wraps with the number of bytes to the end of the smaller block. What is proved of runs
leaves the runs with such a request out.

A call ends in a fault where an assertion fails or where the behaviour is undefined. Allocation
never fails for lack of memory: it would end the program, every function here being `noexcept`.
-/

namespace FastInAHurry

open Blocks

/-- A non-null pointer to an element. -/
structure Ptr where
  block : ℕ
  index : ℕ
deriving DecidableEq, Repr

namespace Ptr

def add (p : Option Ptr) (n : ℕ) : Option Ptr := p.map fun p ↦ { p with index := p.index + n }

/-- The difference of two pointers into one block, or of two null pointers. -/
def sub (p q : Option Ptr) : ℕ := (p.map index).getD 0 - (q.map index).getD 0

/-- `--p` has no meaning at the start of a block. -/
def pred : Option Ptr → Option Ptr
  | some ⟨b, i + 1⟩ => some ⟨b, i⟩
  | _ => none

end Ptr

inductive Fault where
  /-- The assertion of `_allocate`. -/
  | allocateZero
  /-- Any other assertion. -/
  | assertion
  | undefined
  /-- There is no such vector, or there is one already. -/
  | noObject
deriving DecidableEq, Repr

structure Vector where
  mBegin : Option Ptr := none
  mEnd : Option Ptr := none
  mCap : Option Ptr := none
deriving DecidableEq, Repr

/-- What a call returns to its caller, `void` or a reference apart. -/
inductive Outcome (T : Type) where
  | done
  | element (x : T)
  | outOfRange (what : String)
deriving DecidableEq, Repr

namespace Vector

variable {T : Type}

/-! ## Memory -/

def defined {α : Type} : Option α → Except Fault α
  | some a => .ok a
  | none => .error .undefined

def load (h : Heap T) (p : Option Ptr) : Except Fault T :=
  defined (p.bind fun p ↦ h.read p.block p.index)

def constructAt (h : Heap T) (p : Option Ptr) (x : T) : Except Fault (Heap T) :=
  defined (p.bind fun p ↦ h.constructAt p.block p.index x)

def destroyAt (h : Heap T) (p : Option Ptr) : Except Fault (Heap T) :=
  defined (p.bind fun p ↦ h.destroyAt p.block p.index)

def store (h : Heap T) (p : Option Ptr) (x : T) : Except Fault (Heap T) :=
  defined (p.bind fun p ↦ h.assign p.block p.index x)

/-- `std::destroy_n`. -/
def destroyN (h : Heap T) (p : Option Ptr) : ℕ → Except Fault (Heap T)
  | 0 => .ok h
  | n + 1 => do
    let h ← destroyAt h p
    destroyN h (Ptr.add p 1) n

/-- The loop of `std::copy_n` and `std::uninitialized_copy_n`, which differ in how they write. -/
def copyLoop (write : Heap T → Option Ptr → T → Except Fault (Heap T)) (h : Heap T)
    (first result : Option Ptr) : ℕ → Except Fault (Heap T)
  | 0 => .ok h
  | n + 1 => do
    let x ← load h first
    let h ← write h result x
    copyLoop write h (Ptr.add first 1) (Ptr.add result 1) n

def copyN (h : Heap T) (first : Option Ptr) (n : ℕ) (result : Option Ptr) :
    Except Fault (Heap T) :=
  copyLoop store h first result n

def uninitializedCopyN (h : Heap T) (first : Option Ptr) (n : ℕ) (result : Option Ptr) :
    Except Fault (Heap T) :=
  copyLoop constructAt h first result n

/-- `::operator delete` takes the null pointer, or one that `::operator new` has returned. -/
def operatorDelete (h : Heap T) : Option Ptr → Except Fault (Heap T)
  | none => .ok h
  | some ⟨b, 0⟩ => defined (h.free b)
  | some _ => .error .undefined

/-! ## Storage helpers -/

variable (sizeofT : ℕ+)

/-- `_allocate`: the block has room for as many elements as the wrapped number of bytes. -/
def allocate (h : Heap T) (allocSize : ℕ) : Except Fault (Option Ptr × Heap T) :=
  if allocSize = 0 then .error .allocateZero
  else
    let (b, h) := h.alloc (sizeofT * allocSize % 2 ^ 64 / sizeofT)
    .ok (some ⟨b, 0⟩, h)

def size (v : Vector) : ℕ := Ptr.sub v.mEnd v.mBegin

def capacity (v : Vector) : ℕ := Ptr.sub v.mCap v.mBegin

def empty (v : Vector) : Bool := v.mBegin = v.mEnd

/-- The loop of `_grow_capacity`, from the last element to the first. The element that was moved
from stays in its slot until it is destroyed, and nothing reads it in between. -/
def growLoop (h : Heap T) (newArr mBegin : Option Ptr) : ℕ → Except Fault (Heap T)
  | 0 => .ok h
  | i + 1 => do
    let x ← load h (Ptr.add mBegin i)
    let h ← constructAt h (Ptr.add newArr i) x
    growLoop h newArr mBegin i

def growCapacity (h : Heap T) (v : Vector) (newCap : ℕ) : Except Fault (Heap T × Vector) := do
  let (newArr, h) ← allocate sizeofT h newCap
  let currSz := v.size
  let h ← growLoop h newArr v.mBegin currSz
  let h ← destroyN h v.mBegin currSz
  let h ← operatorDelete h v.mBegin
  return (h, ⟨newArr, Ptr.add newArr currSz, Ptr.add newArr newCap⟩)

def allocateFromNullptr (h : Heap T) (v : Vector) (newCap : ℕ) :
    Except Fault (Heap T × Vector) := do
  if v.mBegin ≠ none ∨ v.mEnd ≠ none ∨ v.mCap ≠ none then .error .assertion
  let (p, h) ← allocate sizeofT h newCap
  return (h, ⟨p, p, Ptr.add p newCap⟩)

def destroyAll (h : Heap T) (v : Vector) : Except Fault (Heap T × Vector) :=
  if v.mBegin = none then .ok (h, v)
  else do
    let h ← destroyN h v.mBegin v.size
    return (h, { v with mEnd := v.mBegin })

def free (h : Heap T) (v : Vector) : Except Fault (Heap T × Vector) := do
  let h ← operatorDelete h v.mBegin
  return (h, {})

def destroyAndFree (h : Heap T) (v : Vector) : Except Fault (Heap T × Vector) := do
  let (h, v) ← destroyAll h v
  free h v

/-! ## Public operations on one vector -/

/-- What `emplace_back` does before it constructs. -/
def emplaceRoom (h : Heap T) (v : Vector) : Except Fault (Heap T × Vector) :=
  if v.mBegin = none then allocateFromNullptr sizeofT h v 1
  else if v.mEnd = v.mCap then growCapacity sizeofT h v (v.capacity * 2 % 2 ^ 64)
  else .ok (h, v)

/-- `emplace_back`, which both forms of `push_back` call; `x` is what the arguments construct. -/
def emplaceBack (h : Heap T) (v : Vector) (x : T) : Except Fault (Heap T × Vector) := do
  let (h, v) ← emplaceRoom sizeofT h v
  let h ← constructAt h v.mEnd x
  return (h, { v with mEnd := Ptr.add v.mEnd 1 })

/-- `emplace_back` and `push_back` of a reference to an element, which is followed when the new
element is constructed. -/
def emplaceBackRef (h : Heap T) (v : Vector) (element : Option Ptr) :
    Except Fault (Heap T × Vector) := do
  let (h, v) ← emplaceRoom sizeofT h v
  let x ← load h element
  let h ← constructAt h v.mEnd x
  return (h, { v with mEnd := Ptr.add v.mEnd 1 })

/-- `v.push_back(v[pos])`. -/
def pushBackOwn (h : Heap T) (v : Vector) (pos : ℕ) : Except Fault (Heap T × Vector) :=
  if pos < v.size then emplaceBackRef sizeofT h v (Ptr.add v.mBegin pos)
  else .error .assertion

def outOfRangeText (index size : ℕ) : String :=
  s!"Access at index {index} within fiah::Vector of size {size}."

/-- `at`, which both overloads write out. -/
def atIndex (h : Heap T) (v : Vector) (index : ℕ) : Except Fault (Outcome T) :=
  if v.size ≤ index then .ok (.outOfRange (outOfRangeText index v.size))
  else do
    let x ← load h (Ptr.add v.mBegin index)
    return .element x

/-- `operator[]`, which both overloads write out. -/
def operatorIndex (h : Heap T) (v : Vector) (pos : ℕ) : Except Fault (Outcome T) :=
  if pos < v.size then do
    let x ← load h (Ptr.add v.mBegin pos)
    return .element x
  else .error .assertion

def reserve (h : Heap T) (v : Vector) (newCap : ℕ) : Except Fault (Heap T × Vector) :=
  if v.mBegin = none then allocateFromNullptr sizeofT h v newCap
  else if newCap ≤ v.capacity then .ok (h, v)
  else growCapacity sizeofT h v newCap

/-- `while (m_end != stop) construct_at(m_end++)`. A loop that misses its end leaves the block, and
has no meaning, before as many rounds as the block has slots. -/
def constructUntil [Inhabited T] (stop : Option Ptr) :
    ℕ → Heap T → Vector → Except Fault (Heap T × Vector)
  | 0, _, _ => .error .undefined
  | fuel + 1, h, v =>
    if v.mEnd = stop then .ok (h, v)
    else do
      let h ← constructAt h v.mEnd default
      constructUntil stop fuel h { v with mEnd := Ptr.add v.mEnd 1 }

/-- `while (m_end != stop) destroy_at(--m_end)`. -/
def destroyUntil (stop : Option Ptr) : ℕ → Heap T → Vector → Except Fault (Heap T × Vector)
  | 0, _, _ => .error .undefined
  | fuel + 1, h, v =>
    if v.mEnd = stop then .ok (h, v)
    else do
      let h ← destroyAt h (Ptr.pred v.mEnd)
      destroyUntil stop fuel h { v with mEnd := Ptr.pred v.mEnd }

/-- What `resize` does before it constructs. -/
def resizeRoom (h : Heap T) (v : Vector) (newSize : ℕ) : Except Fault (Heap T × Vector) :=
  if v.capacity < newSize then growCapacity sizeofT h v newSize else .ok (h, v)

def resize [Inhabited T] (h : Heap T) (v : Vector) (newSize : ℕ) :
    Except Fault (Heap T × Vector) :=
  if v.mBegin = none then do
    let (h, v) ← allocateFromNullptr sizeofT h v newSize
    constructUntil v.mCap (newSize + 1) h v
  else
    let currentSize := v.size
    let newEnd := Ptr.add v.mBegin newSize
    if newSize ≤ currentSize then destroyUntil newEnd (currentSize + 1) h v
    else do
      let (h, v) ← resizeRoom sizeofT h v newSize
      constructUntil newEnd (newSize + 1) h v

def popBack (h : Heap T) (v : Vector) : Except Fault (Heap T × Vector) :=
  if v.empty then .error .assertion
  else do
    let h ← destroyAt h (Ptr.pred v.mEnd)
    return (h, { v with mEnd := Ptr.pred v.mEnd })

def clear (h : Heap T) (v : Vector) : Except Fault (Heap T × Vector) := destroyAll h v

/-- The copy constructor. -/
def copyOf (h : Heap T) (other : Vector) : Except Fault (Heap T × Vector) := do
  let (h, v) ← allocateFromNullptr sizeofT h {} other.capacity
  let h ← uninitializedCopyN h other.mBegin other.size v.mBegin
  return (h, { v with mEnd := Ptr.add v.mBegin other.size })

/-- What the copy assignment does once it has reserved. -/
def overwrite (h : Heap T) (v other : Vector) : Except Fault (Heap T × Vector) := do
  let h ← copyN h other.mBegin other.size v.mBegin
  return (h, { v with mEnd := Ptr.add v.mBegin other.size })

/-! ## Programs -/

/-- The memory and the vectors of a program. -/
structure World (ι T : Type) where
  heap : Heap T
  vectors : ι → Option Vector

/-- A call of a public operation. -/
inductive Call (ι T : Type) where
  | construct (i : ι)
  | constructReserve (i : ι) (n : ℕ)
  | copyConstruct (i other : ι)
  | moveConstruct (i other : ι)
  | copyAssign (i other : ι)
  | moveAssign (i other : ι)
  | destruct (i : ι)
  | emplaceBack (i : ι) (x : T)
  | atIndex (i : ι) (index : ℕ)
  | operatorIndex (i : ι) (pos : ℕ)
  | reserve (i : ι) (n : ℕ)
  | resize (i : ι) (n : ℕ)
  | popBack (i : ι)
  | clear (i : ι)
deriving DecidableEq, Repr

variable {ι : Type} [DecidableEq ι]

namespace World

def init : World ι T := ⟨Heap.empty, fun _ ↦ none⟩

def get (w : World ι T) (i : ι) : Except Fault Vector :=
  match w.vectors i with
  | some v => .ok v
  | none => .error .noObject

def set (w : World ι T) (i : ι) (o : Option Vector) : World ι T :=
  { w with vectors := Function.update w.vectors i o }

/-- Run a constructor. -/
def create (w : World ι T) (i : ι) (c : Except Fault (Heap T × Vector)) :
    Except Fault (World ι T × Outcome T) :=
  if w.vectors i = none then do
    let (h, v) ← c
    return ({ w with heap := h }.set i (some v), .done)
  else .error .noObject

/-- Run a member function that changes its own vector only. -/
def modify (w : World ι T) (i : ι) (f : Heap T → Vector → Except Fault (Heap T × Vector)) :
    Except Fault (World ι T × Outcome T) := do
  let v ← w.get i
  let (h, v) ← f w.heap v
  return ({ w with heap := h }.set i (some v), .done)

/-- Run a member function that changes nothing. -/
def query (w : World ι T) (i : ι) (f : Heap T → Vector → Except Fault (Outcome T)) :
    Except Fault (World ι T × Outcome T) := do
  let v ← w.get i
  let o ← f w.heap v
  return (w, o)

/-- The copy assignment, which may be one to itself. -/
def copyAssign (w : World ι T) (i other : ι) : Except Fault (World ι T × Outcome T) := do
  let src ← w.get other
  let (w, _) ← w.modify i fun h v ↦ reserve sizeofT h v src.size
  let src ← w.get other
  w.modify i fun h v ↦ overwrite h v src

/-- Take over the pointers of another vector and leave it with none. -/
def steal (w : World ι T) (i other : ι) : Except Fault (World ι T × Outcome T) := do
  let src ← w.get other
  return ((w.set i (some src)).set other (some {}), .done)

def moveConstruct (w : World ι T) (i other : ι) : Except Fault (World ι T × Outcome T) :=
  if w.vectors i = none then w.steal i other else .error .noObject

/-- The move assignment, which may be one to itself. -/
def moveAssign (w : World ι T) (i other : ι) : Except Fault (World ι T × Outcome T) := do
  let (w, _) ← w.modify i destroyAndFree
  w.steal i other

def destruct (w : World ι T) (i : ι) : Except Fault (World ι T × Outcome T) := do
  let (w, _) ← w.modify i destroyAndFree
  return (w.set i none, .done)

/-- One call. -/
def step [Inhabited T] (w : World ι T) : Call ι T → Except Fault (World ι T × Outcome T)
  | .construct i => w.create i (.ok (w.heap, {}))
  | .constructReserve i n => w.create i (allocateFromNullptr sizeofT w.heap {} n)
  | .copyConstruct i other => do
    let src ← w.get other
    w.create i (copyOf sizeofT w.heap src)
  | .moveConstruct i other => w.moveConstruct i other
  | .copyAssign i other => w.copyAssign sizeofT i other
  | .moveAssign i other => w.moveAssign i other
  | .destruct i => w.destruct i
  | .emplaceBack i x => w.modify i fun h v ↦ Vector.emplaceBack sizeofT h v x
  | .atIndex i index => w.query i fun h v ↦ Vector.atIndex h v index
  | .operatorIndex i pos => w.query i fun h v ↦ Vector.operatorIndex h v pos
  | .reserve i n => w.modify i fun h v ↦ Vector.reserve sizeofT h v n
  | .resize i n => w.modify i fun h v ↦ Vector.resize sizeofT h v n
  | .popBack i => w.modify i Vector.popBack
  | .clear i => w.modify i Vector.clear

/-- One call that does not fault, as an event. -/
def advance [Inhabited T] (w : World ι T) (c : Call ι T) : Option (World ι T) :=
  (w.step sizeofT c).toOption.map Prod.fst

end World

end Vector

end FastInAHurry
