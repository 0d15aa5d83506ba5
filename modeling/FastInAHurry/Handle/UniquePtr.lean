import FastInAHurry.Library.RefCount
import FastInAHurry.Library.Runs

/-!
# The unique pointer

The embedding of `handle/UniquePtr.hh` for any number of handles, whose deleters have a state. A
pointer stands for the object it points to: an address that is used again is another object. The
deleter of a handle is a value; a handle of another type has values of another type, and all of them
are in one type here. Moving or converting a deleter keeps its value in the target and leaves
whatever it likes, `left`, in the source.

Pointer and deleter are moved by separate statements, and an assignment deletes the old object
between the two. What makes it work is that the old deleter is still there at that moment, and that
the statement after it brings the deleter that belongs to the new pointer: the pairs of pointer and
deleter are tokens, each at one handle until it is deleted or released.

The histories `given`, `deleted` and `released` are not part of any handle. They record the pointers
taken over, with the deleter each was installed with, the calls of deleters, and the results of
`release`, with the deleter that stayed behind.
-/

namespace FastInAHurry

open RefCount Runs

namespace UniquePtr

structure Handle (O D : Type*) where
  mPtr : Option O
  mDeleter : D

structure State (ι O D : Type*) where
  handles : ι → Option (Handle O D)
  given : O → Option D
  deleted : List (O × D)
  released : List (O × D)

inductive Op (ι O D : Type*) where
  /-- The default constructor, or the one from `nullptr`. -/
  | default
  /-- From a raw pointer, with the default deleter. -/
  | construct (ptr : Option O)
  /-- From a raw pointer, with a copied or a moved deleter. -/
  | constructWith (ptr : Option O) (del : D)
  | moveConstruct (other : ι) (left : D)
  | convertConstruct (other : ι) (left : D)
  | moveAssign (other : ι) (left : D)
  | convertAssign (other : ι) (left : D)
  /-- The assignment of `nullptr`. -/
  | assignNull
  | release
  | reset (ptr : Option O)
  | swap (other : ι)
  | destruct

/-- An operation on the handle `this`. -/
structure Event (ι O D : Type*) where
  this : ι
  op : Op ι O D

variable {ι O D : Type*}

def init : State ι O D where
  handles := fun _ ↦ none
  given := fun _ ↦ none
  deleted := []
  released := []

/-- A pointer and the deleter it is to be passed to. -/
def Handle.token (h : Handle O D) : Option (O × D) := h.mPtr.map fun o ↦ (o, h.mDeleter)

/-- Nobody has taken the pointer over before. -/
def State.Fresh (s : State ι O D) (ptr : Option O) : Prop := ∀ o ∈ ptr, s.given o = none

instance (s : State ι O D) (ptr : Option O) : Decidable (s.Fresh ptr) :=
  inferInstanceAs (Decidable (∀ o ∈ ptr, s.given o = none))

/-- `m_deleter(old)` unless the pointer is null. -/
def State.delete (s : State ι O D) (token : Option (O × D)) : State ι O D :=
  { s with deleted := s.deleted ++ token.toList }

/-- The pointer is taken over, to be passed to the deleter `del`. -/
def State.take [DecidableEq O] (s : State ι O D) : Option O → D → State ι O D
  | none, _ => s
  | some o, del => { s with given := Function.update s.given o (some del) }

variable [DecidableEq ι]

def State.put (s : State ι O D) (i : ι) (o : Option (Handle O D)) : State ι O D :=
  { s with handles := Function.update s.handles i o }

/-- `release()`, the result of which is what was in `m_ptr`. -/
def State.releasePtr (s : State ι O D) (i : ι) (h : Handle O D) : State ι O D :=
  s.put i (some { h with mPtr := none })

/-- `reset(ptr)`: the old object goes to the deleter that the handle has. -/
def State.reset (s : State ι O D) (i : ι) (h : Handle O D) (ptr : Option O) : State ι O D :=
  (s.put i (some { h with mPtr := ptr })).delete h.token

/-- `reset(other.release()), m_deleter = std::forward<Deleter>(other.m_deleter)`. -/
def State.assign (s : State ι O D) (i : ι) (h : Handle O D) (j : ι) (other : Handle O D)
    (left : D) : State ι O D :=
  (((s.releasePtr j other).reset i h other.mPtr).put i (some ⟨other.mPtr, other.mDeleter⟩)).put j
    (some ⟨none, left⟩)

/-- A constructor from a raw pointer. -/
def State.construct [DecidableEq O] (s : State ι O D) (i : ι) (ptr : Option O) (del : D) :
    Option (State ι O D) :=
  if s.Fresh ptr then some ((s.take ptr del).put i (some ⟨ptr, del⟩)) else none

/-- One operation, where `defaultDeleter` is `m_deleter()` for the type of each handle. -/
def step [DecidableEq O] (defaultDeleter : ι → D) (s : State ι O D) (e : Event ι O D) :
    Option (State ι O D) :=
  let i := e.this
  match e.op, s.handles i with
  | .default, none => s.construct i none (defaultDeleter i)
  | .construct ptr, none => s.construct i ptr (defaultDeleter i)
  | .constructWith ptr del, none => s.construct i ptr del
  | .moveConstruct j left, none =>
    (s.handles j).map fun other ↦
      (s.put i (some ⟨other.mPtr, other.mDeleter⟩)).put j (some ⟨none, left⟩)
  | .convertConstruct j left, none =>
    (s.handles j).map fun other ↦
      ((s.releasePtr j other).put i (some ⟨other.mPtr, other.mDeleter⟩)).put j (some ⟨none, left⟩)
  | .moveAssign j left, some h =>
    if i ≠ j then (s.handles j).map fun other ↦ s.assign i h j other left else some s
  | .convertAssign j left, some h =>
    -- the two handles are of different types
    if i ≠ j then (s.handles j).map fun other ↦ s.assign i h j other left else none
  | .assignNull, some h => some (s.reset i h none)
  | .release, some h => some { s.releasePtr i h with released := s.released ++ h.token.toList }
  | .reset ptr, some h => if s.Fresh ptr then some ((s.take ptr h.mDeleter).reset i h ptr) else none
  | .swap j, some h =>
    (s.handles j).map fun other ↦
      (s.put i (some ⟨other.mPtr, other.mDeleter⟩)).put j (some ⟨h.mPtr, h.mDeleter⟩)
  | .destruct, some h => some ((s.reset i h none).put i none)
  | _, _ => none

/-! ## Where the tokens are -/

omit [DecidableEq ι] in
/-- The token at a handle. -/
def State.place (s : State ι O D) (i : ι) : Option (O × D) := (s.handles i).bind Handle.token

/-- A pointer taken over is at one handle, with the deleter it was installed with, or was deleted
or released once. -/
def Inv (s : State ι O D) : Prop := Tokens s.given s.place (s.deleted ++ s.released)

variable {s t : State ι O D} {i j : ι} {h other : Handle O D} {ptr : Option O} {del left : D}

omit [DecidableEq ι] in
theorem place_eq (hi : s.handles i = some h) : s.place i = h.token := by
  rw [State.place, hi, Option.bind_some]

omit [DecidableEq ι] in
theorem place_eq_none (hi : s.handles i = none) : s.place i = none := by
  rw [State.place, hi, Option.bind_none]

theorem place_put (o : Option (Handle O D)) :
    (s.put i o).place = Function.update s.place i (o.bind Handle.token) := by
  funext k
  rcases eq_or_ne k i with rfl | hne
  · simp [State.place, State.put]
  · simp [State.place, State.put, hne]

omit [DecidableEq ι] in
@[simp] theorem token_none : (⟨none, del⟩ : Handle O D).token = none := rfl

omit [DecidableEq ι] in
theorem Inv.init : Inv (init : State ι O D) :=
  ⟨fun o d ↦ by simp [UniquePtr.init, State.place], nofun, nofun, List.nodup_nil⟩

omit [DecidableEq ι] in
/-- What was passed to a deleter is recorded before what was released. -/
theorem perm_deleted (s : State ι O D) (token : Option (O × D)) :
    ((s.deleted ++ s.released) ++ token.toList).Perm
      ((s.deleted ++ token.toList) ++ s.released) := by
  rw [List.append_assoc, List.append_assoc]
  exact List.perm_append_comm.append_left s.deleted

/-! ## What a step does to the tokens -/

/-- A pointer is taken over by a handle that has none. -/
theorem Inv.take [DecidableEq O] (hinv : Inv s) (hi : s.place i = none) (hfresh : s.Fresh ptr) :
    Inv ((s.take ptr del).put i (some ⟨ptr, del⟩)) := by
  unfold Inv
  rw [place_put]
  cases ptr with
  | none =>
    have hsame : Function.update s.place i none = s.place := by rw [← hi, Function.update_eq_self]
    have hplace : Function.update (s.take none del).place i none = s.place := hsame
    rw [Option.bind_some, token_none, hplace]
    exact hinv
  | some o => exact Tokens.give hinv (hfresh o rfl) hi

/-- `reset()` passes the pointer of the handle to its deleter. -/
theorem Inv.resetNull (hinv : Inv s) (hi : s.handles i = some h) : Inv (s.reset i h none) := by
  have hplace : (s.reset i h none).place = Function.update s.place i none := place_put _
  unfold Inv
  rw [hplace]
  refine (Tokens.discard hinv i).perm ?_
  rw [place_eq hi]
  exact perm_deleted s h.token

theorem reset_eq_put [DecidableEq O] : (s.take ptr h.mDeleter).reset i h ptr =
    ((s.reset i h none).take ptr h.mDeleter).put i (some ⟨ptr, h.mDeleter⟩) := by
  cases ptr <;> simp [State.reset, State.take, State.put, State.delete]

theorem Inv.reset [DecidableEq O] (hinv : Inv s) (hi : s.handles i = some h)
    (hfresh : s.Fresh ptr) : Inv ((s.take ptr h.mDeleter).reset i h ptr) := by
  rw [reset_eq_put]
  refine Inv.take (hinv.resetNull hi) ?_ hfresh
  rw [place_eq (Function.update_self ..), token_none]

/-- The token of one handle goes to another that has none. -/
theorem Inv.handOver (hinv : Inv s) (hi : s.place i = none)
    (hplace : t.place = Function.update (Function.update s.place j none) i (s.place j))
    (hgiven : t.given = s.given) (hdeleted : t.deleted = s.deleted)
    (hreleased : t.released = s.released) : Inv t := by
  unfold Inv
  rw [hplace, hgiven, hdeleted, hreleased]
  exact Tokens.relocate hinv hi

theorem Inv.moveConstruct (hinv : Inv s) (hij : i ≠ j) (hi : s.handles i = none)
    (hj : s.handles j = some other) :
    Inv ((s.put i (some ⟨other.mPtr, other.mDeleter⟩)).put j (some ⟨none, left⟩)) := by
  refine hinv.handOver (j := j) (place_eq_none hi) ?_ rfl rfl rfl
  rw [place_put, place_put, Function.update_comm hij, place_eq hj]
  rfl

theorem Inv.convertConstruct (hinv : Inv s) (hij : i ≠ j) (hi : s.handles i = none)
    (hj : s.handles j = some other) :
    Inv (((s.releasePtr j other).put i (some ⟨other.mPtr, other.mDeleter⟩)).put j
      (some ⟨none, left⟩)) := by
  refine hinv.handOver (j := j) (place_eq_none hi) ?_ rfl rfl rfl
  rw [place_put, place_put, State.releasePtr, place_put, Function.update_comm hij,
    Function.update_idem, place_eq hj]
  rfl

/-- An assignment deletes the old object with the old deleter, and takes pointer and deleter of the
other handle. -/
theorem Inv.assign (hinv : Inv s) (hij : i ≠ j) (hi : s.handles i = some h)
    (hj : s.handles j = some other) : Inv (s.assign i h j other left) := by
  have hempty : (s.reset i h none).place i = none := by
    rw [place_eq (Function.update_self ..), token_none]
  have hother : (s.reset i h none).handles j = some other := by
    rw [← hj]
    exact Function.update_of_ne hij.symm ..
  have hreset : (s.reset i h none).place = Function.update s.place i none := place_put _
  have hexchange : ((s.releasePtr j other).reset i h other.mPtr).place =
      Function.update (s.releasePtr j other).place i _ := place_put _
  -- it is `reset()` and then a hand-over, though the source releases the other handle first
  refine (hinv.resetNull hi).handOver (j := j) hempty ?_ rfl rfl rfl
  calc (s.assign i h j other left).place
      = Function.update (Function.update (Function.update (Function.update s.place j none) i _) i
          other.token) j none := by
        rw [State.assign, place_put, place_put, hexchange, State.releasePtr, place_put]
        rfl
    _ = Function.update (Function.update s.place j none) i other.token := by
        rw [Function.update_idem, Function.update_comm hij, Function.update_idem]
    _ = _ := by
        rw [place_eq hother, hreset, Function.update_comm hij, Function.update_idem]

theorem Inv.swap (hinv : Inv s) (hi : s.handles i = some h) (hj : s.handles j = some other) :
    Inv ((s.put i (some ⟨other.mPtr, other.mDeleter⟩)).put j (some ⟨h.mPtr, h.mDeleter⟩)) := by
  have hplace : ((s.put i (some ⟨other.mPtr, other.mDeleter⟩)).put j
      (some ⟨h.mPtr, h.mDeleter⟩)).place = fun k ↦ s.place (Equiv.swap i j k) := by
    funext k
    rw [place_put, place_put]
    rcases eq_or_ne k j with rfl | hkj
    · rw [Function.update_self, Equiv.swap_apply_right, place_eq hi]
      rfl
    · rw [Function.update_of_ne hkj]
      rcases eq_or_ne k i with rfl | hki
      · rw [Function.update_self, Equiv.swap_apply_left, place_eq hj]
        rfl
      · rw [Function.update_of_ne hki, Equiv.swap_apply_of_ne_of_ne hki hkj]
  unfold Inv
  rw [hplace]
  exact Tokens.permute hinv (Equiv.swap i j)

theorem Inv.release (hinv : Inv s) (hi : s.handles i = some h) :
    Inv { s.releasePtr i h with released := s.released ++ h.token.toList } := by
  have hplace : (s.releasePtr i h).place = Function.update s.place i none := place_put _
  have htokens := Tokens.discard hinv i
  rw [List.append_assoc, place_eq hi, ← hplace] at htokens
  exact htokens

theorem Inv.destruct (hinv : Inv s) (hi : s.handles i = some h) :
    Inv ((s.reset i h none).put i none) := by
  have hplace : ((s.reset i h none).put i none).place = (s.reset i h none).place := by
    rw [place_put, Option.bind_none, Function.update_eq_self_iff,
      place_eq (Function.update_self ..), token_none]
  have hreset := hinv.resetNull hi
  unfold Inv at hreset
  rw [← hplace] at hreset
  exact hreset

/-! ## Runs -/

/-- Everything an operation can do. -/
inductive Move [DecidableEq O] (s : State ι O D) : State ι O D → Prop
  | construct {i : ι} {ptr : Option O} {del : D} (hi : s.handles i = none) (hfresh : s.Fresh ptr) :
      Move s ((s.take ptr del).put i (some ⟨ptr, del⟩))
  | moveConstruct {i j : ι} {other : Handle O D} {left : D} (hi : s.handles i = none)
      (hj : s.handles j = some other) :
      Move s ((s.put i (some ⟨other.mPtr, other.mDeleter⟩)).put j (some ⟨none, left⟩))
  | convertConstruct {i j : ι} {other : Handle O D} {left : D} (hi : s.handles i = none)
      (hj : s.handles j = some other) :
      Move s (((s.releasePtr j other).put i (some ⟨other.mPtr, other.mDeleter⟩)).put j
        (some ⟨none, left⟩))
  | assign {i j : ι} {h other : Handle O D} {left : D} (hij : i ≠ j) (hi : s.handles i = some h)
      (hj : s.handles j = some other) : Move s (s.assign i h j other left)
  | assignSelf : Move s s
  | resetNull {i : ι} {h : Handle O D} (hi : s.handles i = some h) : Move s (s.reset i h none)
  | release {i : ι} {h : Handle O D} (hi : s.handles i = some h) :
      Move s { s.releasePtr i h with released := s.released ++ h.token.toList }
  | reset {i : ι} {h : Handle O D} {ptr : Option O} (hi : s.handles i = some h)
      (hfresh : s.Fresh ptr) : Move s ((s.take ptr h.mDeleter).reset i h ptr)
  | swap {i j : ι} {h other : Handle O D} (hi : s.handles i = some h)
      (hj : s.handles j = some other) :
      Move s ((s.put i (some ⟨other.mPtr, other.mDeleter⟩)).put j (some ⟨h.mPtr, h.mDeleter⟩))
  | destruct {i : ι} {h : Handle O D} (hi : s.handles i = some h) :
      Move s ((s.reset i h none).put i none)

variable [DecidableEq O] {defaultDeleter : ι → D}

theorem move_of_construct (hi : s.handles i = none) (hst : s.construct i ptr del = some t) :
    Move s t := by
  unfold State.construct at hst
  split at hst <;> try contradiction
  next hfresh => exact Option.some.inj hst ▸ .construct hi hfresh

theorem move_of_step {e : Event ι O D} (hst : step defaultDeleter s e = some t) : Move s t := by
  simp only [step] at hst
  split at hst <;> rename_i hi <;> try contradiction
  · exact move_of_construct hi hst
  · exact move_of_construct hi hst
  · exact move_of_construct hi hst
  · obtain ⟨other, hj, rfl⟩ := Option.map_eq_some_iff.mp hst
    exact .moveConstruct hi hj
  · obtain ⟨other, hj, rfl⟩ := Option.map_eq_some_iff.mp hst
    exact .convertConstruct hi hj
  · split at hst
    · next hij =>
      obtain ⟨other, hj, rfl⟩ := Option.map_eq_some_iff.mp hst
      exact .assign hij hi hj
    · exact Option.some.inj hst ▸ .assignSelf
  · split at hst <;> try contradiction
    next hij =>
      obtain ⟨other, hj, rfl⟩ := Option.map_eq_some_iff.mp hst
      exact .assign hij hi hj
  · exact Option.some.inj hst ▸ .resetNull hi
  · exact Option.some.inj hst ▸ .release hi
  · split at hst <;> try contradiction
    next hfresh => exact Option.some.inj hst ▸ .reset hi hfresh
  · obtain ⟨other, hj, rfl⟩ := Option.map_eq_some_iff.mp hst
    exact .swap hi hj
  · exact Option.some.inj hst ▸ .destruct hi

theorem Inv.step (hinv : Inv s) {e : Event ι O D}
    (hst : UniquePtr.step defaultDeleter s e = some t) : Inv t := by
  -- a handle under construction is not the one it is constructed from
  have hne : ∀ {i j other}, s.handles i = none → s.handles j = some other → i ≠ j := by
    rintro i j other hi hj rfl
    cases hi.symm.trans hj
  cases move_of_step hst with
  | construct hi hfresh => exact hinv.take (place_eq_none hi) hfresh
  | moveConstruct hi hj => exact hinv.moveConstruct (hne hi hj) hi hj
  | convertConstruct hi hj => exact hinv.convertConstruct (hne hi hj) hi hj
  | assign hij hi hj => exact hinv.assign hij hi hj
  | assignSelf => exact hinv
  | resetNull hi => exact hinv.resetNull hi
  | release hi => exact hinv.release hi
  | reset hi hfresh => exact hinv.reset hi hfresh
  | swap hi hj => exact hinv.swap hi hj
  | destruct hi => exact hinv.destruct hi

omit [DecidableEq ι] in
theorem take_given {o : O} {del' : D} (hfresh : s.Fresh ptr) (ho : s.given o = some del) :
    (s.take ptr del').given o = some del := by
  cases ptr with
  | none => exact ho
  | some x =>
    have hne : o ≠ x := by
      rintro rfl
      cases (hfresh o rfl).symm.trans ho
    exact (Function.update_of_ne hne ..).trans ho

/-- The deleter a pointer was installed with is recorded for good. -/
theorem given_of_step {o : O} (ho : s.given o = some del) {e : Event ι O D}
    (hst : UniquePtr.step defaultDeleter s e = some t) : t.given o = some del := by
  cases move_of_step hst with
  | construct hi hfresh | reset hi hfresh => exact take_given hfresh ho
  | _ => exact ho

omit [DecidableEq ι] [DecidableEq O] in
theorem place_of_mPtr {o : O} (hi : s.handles i = some h) (hptr : h.mPtr = some o) :
    s.place i = some (o, h.mDeleter) := by
  rw [place_eq hi, Handle.token, hptr, Option.map_some]

omit [DecidableEq ι] [DecidableEq O] in
theorem mPtr_of_place {o : O} (hi : s.place i = some (o, del)) :
    ∃ h, s.handles i = some h ∧ h.mPtr = some o ∧ h.mDeleter = del := by
  obtain ⟨h, hh, htoken⟩ := Option.bind_eq_some_iff.mp hi
  obtain ⟨x, hx, heq⟩ := Option.map_eq_some_iff.mp htoken
  obtain ⟨rfl, rfl⟩ := Prod.mk.inj heq
  exact ⟨h, hh, hx, rfl⟩

omit [DecidableEq ι] in
/-- A pointer taken over is somebody's, or it was deleted once, or released once. -/
theorem Inv.once (hinv : Inv s) {o : O} (ho : s.given o = some del) :
    ((∃ i h, s.handles i = some h ∧ h.mPtr = some o ∧ h.mDeleter = del) ∧
      (s.deleted.map Prod.fst).count o = 0 ∧ (s.released.map Prod.fst).count o = 0) ∨
    ((∀ i h, s.handles i = some h → h.mPtr ≠ some o) ∧
      (s.deleted.map Prod.fst).count o + (s.released.map Prod.fst).count o = 1) := by
  have honce := Tokens.once hinv ho
  rw [List.map_append, List.count_append] at honce
  rcases honce with ⟨⟨i, hi⟩, hzero⟩ | ⟨hnone, -, hone⟩
  · exact Or.inl ⟨⟨i, mPtr_of_place hi⟩, Nat.add_eq_zero_iff.mp hzero⟩
  · exact Or.inr ⟨fun i h hi hptr ↦ hnone i h.mDeleter (place_of_mPtr hi hptr), hone⟩

/-- **One owner, deleted once with the right deleter**, for any number of handles and every sequence
of operations. No two handles hold the same pointer. Every pointer taken over is held by a handle
together with the deleter it was installed with, and was neither deleted nor released; or no handle
holds it any more, and it was passed to a deleter once and never released, or released once and
never deleted. Every call of a deleter gets a pointer taken over, and is the one of the deleter that
this pointer was installed with. -/
theorem one_owner_deletes_once (events : List (Event ι O D)) (s : State ι O D)
    (hrun : exec (step defaultDeleter) init events = some s) :
    (∀ i j h h' o, s.handles i = some h → s.handles j = some h' → h.mPtr = some o →
      h'.mPtr = some o → i = j) ∧
    (∀ o del, s.given o = some del →
      ((∃ i h, s.handles i = some h ∧ h.mPtr = some o ∧ h.mDeleter = del) ∧
        (s.deleted.map Prod.fst).count o = 0 ∧ (s.released.map Prod.fst).count o = 0) ∨
      ((∀ i h, s.handles i = some h → h.mPtr ≠ some o) ∧
        (s.deleted.map Prod.fst).count o + (s.released.map Prod.fst).count o = 1)) ∧
    (∀ o del, (o, del) ∈ s.deleted → s.given o = some del) ∧
    (∀ o del, (o, del) ∈ s.released → s.given o = some del) ∧
    ∀ more t o del, exec (step defaultDeleter) s more = some t → s.given o = some del →
      t.given o = some del := by
  have hinv : Inv s := exec_invariant (fun s e t hs hst ↦ hs.step hst) Inv.init hrun
  refine ⟨fun i j h h' o hi hj hptr hptr' ↦ ?_, fun o del ho ↦ hinv.once ho, fun o del hmem ↦ ?_,
    fun o del hmem ↦ ?_, fun more t o del hmore ho ↦ ?_⟩
  · exact hinv.unique i j o h.mDeleter h'.mDeleter (place_of_mPtr hi hptr) (place_of_mPtr hj hptr')
  · exact (hinv.given_iff o del).mpr (Or.inr (List.mem_append_left _ hmem))
  · exact (hinv.given_iff o del).mpr (Or.inr (List.mem_append_right _ hmem))
  · exact exec_invariant (P := fun s ↦ s.given o = some del)
      (fun s e t hs hst ↦ given_of_step hs hst) ho hmore

/-- Two handles with deleters 1 and 2 are swapped, one is assigned to the other, which deletes the
old object of that, and the rest is released: 7 went to the deleter 1 it was installed with, and 8
was handed back. -/
theorem one_owner_deletes_once_swapped : ∃ s : State Bool ℕ ℕ,
    exec (step fun _ ↦ 0) init [⟨false, .constructWith (some 7) 1⟩,
      ⟨true, .constructWith (some 8) 2⟩, ⟨false, .swap true⟩, ⟨true, .moveAssign false 0⟩,
      ⟨true, .release⟩, ⟨false, .destruct⟩] = some s ∧
    s.deleted = [(7, 1)] ∧ s.released = [(8, 2)] ∧ s.given 7 = some 1 ∧ s.given 8 = some 2 := by
  have hrun : exec (step fun _ ↦ 0) (init : State Bool ℕ ℕ) [⟨false, .constructWith (some 7) 1⟩,
      ⟨true, .constructWith (some 8) 2⟩, ⟨false, .swap true⟩, ⟨true, .moveAssign false 0⟩,
      ⟨true, .release⟩, ⟨false, .destruct⟩] = some _ := rfl
  obtain ⟨-, -, hdeleted, hreleased, -⟩ := one_owner_deletes_once _ _ hrun
  refine ⟨_, hrun, rfl, rfl, hdeleted 7 1 ?_, hreleased 8 2 ?_⟩
  · exact List.mem_cons_self
  · exact List.mem_cons_self

end UniquePtr

end FastInAHurry
