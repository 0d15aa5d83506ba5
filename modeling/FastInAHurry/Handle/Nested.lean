import FastInAHurry.Handle.SharedPtr
import Mathlib.Logic.Relation

/-!
# Shared pointers inside objects

Managed objects may contain handles, which are destroyed with them, so that a release can take down
a whole part of the object graph before it returns. Here one thread runs, the deleter is the default
one, and the members of an object are listed in the order of their destruction.

The recursion of `release` is bounded by fuel, and running out of it is a fault like any other: the
theorems ask for results that enough fuel gives.
-/

namespace FastInAHurry

namespace SharedPtr

namespace Nested

/-- The two pointers of a handle. -/
structure Pointers (O : Type) where
  pObj : Option O
  pCb : Option ℕ
deriving DecidableEq, Repr

structure Graph (ι O D : Type) where
  /-- The handles that are alive. -/
  handles : ι → Option (Pointers O)
  blocks : ℕ → Option (ControlBlock O D)
  members : O → List ι

inductive Fault where
  /-- A handle is read or written after its end. -/
  | deadHandle
  /-- A control block is used after its end. -/
  | deadBlock
  | outOfFuel
deriving DecidableEq, Repr

variable {ι O D : Type} [DecidableEq ι]

def Graph.handle (g : Graph ι O D) (i : ι) : Except Fault (Pointers O) :=
  match g.handles i with
  | some h => .ok h
  | none => .error .deadHandle

def Graph.setHandle (g : Graph ι O D) (i : ι) (o : Option (Pointers O)) : Graph ι O D :=
  { g with handles := Function.update g.handles i o }

def Graph.block (g : Graph ι O D) (b : ℕ) : Except Fault (ControlBlock O D) :=
  match g.blocks b with
  | some cb => .ok cb
  | none => .error .deadBlock

def Graph.setBlock (g : Graph ι O D) (b : ℕ) (o : Option (ControlBlock O D)) : Graph ι O D :=
  { g with blocks := Function.update g.blocks b o }

/-- Write the two pointers of a handle. -/
def Graph.write (g : Graph ι O D) (i : ι) (h : Pointers O) : Except Fault (Graph ι O D) := do
  let _ ← g.handle i
  return g.setHandle i (some h)

/-- `reset`, given what releases a control block. -/
def Graph.reset (release : Graph ι O D → ℕ → Except Fault (Graph ι O D)) (g : Graph ι O D) (i : ι) :
    Except Fault (Graph ι O D) := do
  let h ← g.handle i
  match h.pCb with
  | none => g.write i ⟨none, none⟩
  | some b => do
    let g ← release g b
    g.write i ⟨none, none⟩

/-- `~shared_ptr`; then the handle is gone. -/
def Graph.destroyHandle (release : Graph ι O D → ℕ → Except Fault (Graph ι O D))
    (g : Graph ι O D) (i : ι) : Except Fault (Graph ι O D) := do
  let g ← g.reset release i
  return g.setHandle i none

/-- The members of an object, one after the other. -/
def Graph.destroyHandles (release : Graph ι O D → ℕ → Except Fault (Graph ι O D)) :
    List ι → Graph ι O D → Except Fault (Graph ι O D)
  | [], g => .ok g
  | i :: is, g => do
    let g ← g.destroyHandle release i
    destroyHandles release is g

/-- The default deleter, if there is an object. -/
def Graph.destroyObject (release : Graph ι O D → ℕ → Except Fault (Graph ι O D))
    (g : Graph ι O D) : Option O → Except Fault (Graph ι O D)
  | none => .ok g
  | some o => g.destroyHandles release (g.members o)

/-- The end of a control block. -/
def Graph.destroyBlock (g : Graph ι O D) (b : ℕ) : Except Fault (Graph ι O D) := do
  let _ ← g.block b
  return g.setBlock b none

/-- `control_block::release`. -/
def release : ℕ → Graph ι O D → ℕ → Except Fault (Graph ι O D)
  | 0, _, _ => .error .outOfFuel
  | fuel + 1, g, b => do
    let cb ← g.block b
    let g := g.setBlock b (some { cb with mCount := cb.mCount - 1 })
    if cb.mCount = 1 then do
      let g ← g.destroyObject (release fuel) cb.pObj
      g.destroyBlock b
    else return g

def releaseOf (fuel : ℕ) (g : Graph ι O D) : Option ℕ → Except Fault (Graph ι O D)
  | none => .ok g
  | some b => release fuel g b

def addRef (g : Graph ι O D) : Option ℕ → Except Fault (Graph ι O D)
  | none => .ok g
  | some b => do
    let cb ← g.block b
    return g.setBlock b (some { cb with mCount := cb.mCount + 1 })

/-- `p = q`. -/
def copyAssign (fuel : ℕ) (g : Graph ι O D) (p q : ι) : Except Fault (Graph ι O D) :=
  if p = q then .ok g
  else do
    let this ← g.handle p
    let g ← releaseOf fuel g this.pCb
    let other ← g.handle q
    let g ← g.write p other
    addRef g other.pCb

/-- `p = std::move(q)`. -/
def moveAssign (fuel : ℕ) (g : Graph ι O D) (p q : ι) : Except Fault (Graph ι O D) :=
  if p = q then .ok g
  else do
    let this ← g.handle p
    let g ← releaseOf fuel g this.pCb
    let other ← g.handle q
    let g ← g.write p other
    g.write q ⟨none, none⟩

/-! ## The ownership graph -/

/-- A member of the one object owns the other. -/
def Graph.Owns (g : Graph ι O D) (o o' : O) : Prop :=
  ∃ m ∈ g.members o, ∃ h, g.handles m = some h ∧ h.pObj = some o'

/-- The object is managed by a control block. -/
def Graph.Managed (g : Graph ι O D) (o : O) : Prop :=
  ∃ b cb, g.blocks b = some cb ∧ cb.pObj = some o

/-- Counts are the numbers of handles, and handles point to control blocks that hold their
objects. -/
structure Graph.Exact (g : Graph ι O D) : Prop where
  count : ∀ b cb, g.blocks b = some cb →
    {i | ∃ h, g.handles i = some h ∧ h.pCb = some b}.encard = cb.mCount
  points : ∀ i h, g.handles i = some h → (h.pCb = none → h.pObj = none) ∧
    ∀ b, h.pCb = some b → ∃ cb, g.blocks b = some cb ∧ cb.pObj = h.pObj

/-- An acyclic graph of objects and handles between two operations. -/
structure Graph.WellFormed (g : Graph ι O D) : Prop where
  exact : g.Exact
  finite : {b | g.blocks b ≠ none}.Finite
  /-- A control block whose count has dropped to zero is gone. -/
  count_pos : ∀ b cb, g.blocks b = some cb → 0 < cb.mCount
  object_unique : ∀ b b' cb cb' o, g.blocks b = some cb → g.blocks b' = some cb' →
    cb.pObj = some o → cb'.pObj = some o → b = b'
  members_nodup : ∀ o, (g.members o).Nodup
  members_unique : ∀ i o o', i ∈ g.members o → i ∈ g.members o' → o = o'
  /-- The members of an object are there as long as it is. -/
  member_alive : ∀ i o, i ∈ g.members o → (g.handles i ≠ none ↔ g.Managed o)
  acyclic : ∀ o, ¬Relation.TransGen g.Owns o o

/-- The handles that are roots, or in objects that roots own through handles other than `p`. -/
inductive Graph.Kept (g : Graph ι O D) (p : ι) : ι → Prop where
  | root {i : ι} (hi : ∀ o, i ∉ g.members o) : Kept g p i
  | member {i r : ι} {o : O} {h : Pointers O} (hi : i ∈ g.members o) (hr : Kept g p r)
      (hne : r ≠ p) (hh : g.handles r = some h) (ho : h.pObj = some o) : Kept g p i

end Nested

end SharedPtr

end FastInAHurry
