import FastInAHurry.Library.Bump
import FastInAHurry.Library.Runs
import Mathlib.Algebra.Group.Nat.Defs
import Mathlib.Logic.Function.Basic

/-!
# The bump arena and its allocators

The embedding of `memory/BumpArena.hh` and `memory/BumpAllocator.hh`. Addresses and sizes are the
64-bit words of the source, with address 0 for the null pointer. `std::align` is modelled as the
standard describes it: the first aligned address at or above the pointer if the bytes asked for fit
between it and the end of the space, the null pointer otherwise.

A program owns any number of arenas. It calls them directly or through allocators, which are values
(an element type and a pointer to an arena), so that copying and rebinding an allocator is making
another value with the same pointer. The state keeps, for each arena, what it has handed out since
its last reset; `alloc_fail` ends the program.

A buffer that does not wrap may still end at the last byte of the address space. The cursor of a
full arena is then the null pointer, and every later request is refused.
-/

namespace FastInAHurry

open Runs

/-- A power of two that fits a word. -/
structure Alignment where
  log : ℕ
  log_lt : log < 64
deriving DecidableEq

def Alignment.bytes (a : Alignment) : UInt64 := UInt64.ofNat (2 ^ a.log)

/-- `std::align`, without its updates of `ptr` and `space`, which the arena does not read again. -/
def stdAlign (alignment : Alignment) (size ptr space : UInt64) : UInt64 :=
  let aligned := Bump.alignUp alignment.bytes.toNat ptr.toNat
  if aligned + size.toNat ≤ ptr.toNat + space.toNat then UInt64.ofNat aligned else 0

/-! ## The arena -/

structure BumpArena where
  mBegin : UInt64
  mCurr : UInt64
  mEnd : UInt64
deriving DecidableEq

namespace BumpArena

/-- The constructor. -/
def new (buff size : UInt64) : BumpArena where
  mBegin := buff
  mCurr := buff
  mEnd := buff + size

def used (A : BumpArena) : UInt64 := A.mCurr - A.mBegin

def remaining (A : BumpArena) : UInt64 := A.mEnd - A.mCurr

def reset (A : BumpArena) : BumpArena := { A with mCurr := A.mBegin }

/-- The pointer returned, and the arena after the call. -/
def allocate (A : BumpArena) (size : UInt64) (alignment : Alignment) : UInt64 × BumpArena :=
  let aligned := stdAlign alignment size A.mCurr A.remaining
  if aligned = 0 then (0, A) else (aligned, { A with mCurr := aligned + size })

end BumpArena

/-! ## Allocators -/

/-- What an allocator knows of its element type. -/
structure ElementType where
  sizeof : UInt64
  alignof : Alignment
  sizeof_pos : 0 < sizeof.toNat
  alignof_dvd : alignof.bytes.toNat ∣ sizeof.toNat

/-- A `BumpAllocator<T>` in a program whose arenas are named by `α`. -/
structure BumpAllocator (α : Type*) where
  valueType : ElementType
  mArena : Option α

variable {α : Type*}

/-- The converting constructor from a `BumpAllocator<U>`. -/
def BumpAllocator.rebind (T : ElementType) (other : BumpAllocator α) : BumpAllocator α where
  valueType := T
  mArena := other.mArena

/-- What a call of `allocate` asks of the arena; `none` where the first test traps. -/
def BumpAllocator.request (B : BumpAllocator α) (n : UInt64) : Option (α × UInt64 × Alignment) :=
  match B.mArena with
  | none => none
  | some a =>
    if n > UInt64.ofNat (2 ^ 64 - 1) / B.valueType.sizeof then none
    else some (a, n * B.valueType.sizeof, B.valueType.alignof)

/-! ## Programs -/

/-- A non-null result of a call, with what was asked for. -/
structure Grant where
  ptr : UInt64
  size : UInt64
  alignment : Alignment
deriving DecidableEq

def Grant.range (g : Grant) : Bump.Range where
  start := g.ptr.toNat
  len := g.size.toNat

/-- The arenas, and what each of them has handed out since its last reset. -/
structure Memory (α : Type*) where
  arenas : α → BumpArena
  grants : α → List Grant

/-- A buffer that does not wrap the address space. -/
structure Buffer where
  base : UInt64
  size : UInt64
  noWrap : base.toNat + size.toNat ≤ 2 ^ 64

/-- One arena over each of the buffers. -/
def Memory.start (buffer : α → Buffer) : Memory α where
  arenas := fun a ↦ .new (buffer a).base (buffer a).size
  grants := fun _ ↦ []

inductive ArenaCall (α : Type*) where
  | allocate (a : α) (size : UInt64) (alignment : Alignment)
  | reset (a : α)
  | allocatorAllocate (B : BumpAllocator α) (n : UInt64)
  | allocatorDeallocate (B : BumpAllocator α) (p n : UInt64)

variable [DecidableEq α]

namespace Memory

/-- `arena->allocate`: the pointer returned and the memory after the call. -/
def allocate (s : Memory α) (a : α) (size : UInt64) (alignment : Alignment) :
    UInt64 × Memory α :=
  let (ptr, A) := (s.arenas a).allocate size alignment
  let grant := if ptr = 0 then [] else [⟨ptr, size, alignment⟩]
  (ptr, { arenas := Function.update s.arenas a A
          grants := Function.update s.grants a (s.grants a ++ grant) })

/-- `BumpAllocator<T>::allocate`; `none` where it traps. -/
def allocatorAllocate (s : Memory α) (B : BumpAllocator α) (n : UInt64) :
    Option (UInt64 × Memory α) :=
  (B.request n).bind fun (a, size, alignment) ↦
    let (ptr, t) := s.allocate a size alignment
    if ptr = 0 then none else some (ptr, t)

/-- One call; `none` where it traps. `BumpAllocator<T>::deallocate` does nothing. -/
def step (s : Memory α) : ArenaCall α → Option (Memory α)
  | .allocate a size alignment => some (s.allocate a size alignment).2
  | .reset a =>
    some { arenas := Function.update s.arenas a (s.arenas a).reset
           grants := Function.update s.grants a [] }
  | .allocatorAllocate B n => (s.allocatorAllocate B n).map Prod.snd
  | .allocatorDeallocate _ _ _ => some s

end Memory

end FastInAHurry
