import FastInAHurry.Library.RefCount

/-!
# Descriptors whose numbers are used again

A table hands out descriptors: small numbers, each of which can be handed out again once it is
closed. An opening has a number of its own that is never used again, so that "closed exactly once"
can be said of openings; closing a number twice would end somebody else's opening.

Owners hold descriptors, at most one each. As long as every open descriptor has exactly one owner,
and an owner closes only what it holds, no close goes wrong. Between being opened and being given to
its owner a descriptor is pending.
-/

namespace Descriptors

open RefCount

structure Table where
  /-- The opening of each descriptor that is open. -/
  entries : ℕ → Option ℕ
  /-- The descriptors opened so far, in order; the position is the number of the opening. -/
  opened : List ℕ
  /-- The openings closed so far, with their descriptors. -/
  closed : List (ℕ × ℕ)
  /-- How often a descriptor was closed that was not open. -/
  badCloses : ℕ

namespace Table

def empty : Table where
  entries := fun _ ↦ none
  opened := []
  closed := []
  badCloses := 0

def openAs (t : Table) (fd : ℕ) : Table :=
  { t with
    entries := Function.update t.entries fd (some t.opened.length)
    opened := t.opened ++ [fd] }

def close (t : Table) (fd : ℕ) : Table :=
  match t.entries fd with
  | some n => { t with
      entries := Function.update t.entries fd none
      closed := t.closed ++ [(n, fd)] }
  | none => { t with badCloses := t.badCloses + 1 }

/-- The opening at a descriptor. -/
def place (t : Table) (fd : ℕ) : Option (ℕ × ℕ) := (t.entries fd).map fun n ↦ (n, fd)

theorem close_of_open {t : Table} {fd n : ℕ} (h : t.entries fd = some n) :
    t.close fd = { t with
      entries := Function.update t.entries fd none
      closed := t.closed ++ [(n, fd)] } := by
  rw [close, h]

end Table

variable {ι : Type*}

/-- Every opening is at its descriptor or was closed once, every open descriptor has one owner, and
no close has gone wrong. -/
structure Inv (t : Table) (holds : ι → Option ℕ) (pending : Option ℕ) : Prop where
  tokens : Tokens (fun n ↦ t.opened[n]?) t.place t.closed
  open_iff : ∀ fd, t.entries fd ≠ none ↔ pending = some fd ∨ ∃ i, holds i = some fd
  unique : ∀ i j fd, holds i = some fd → holds j = some fd → i = j
  not_held : ∀ i fd, pending = some fd → holds i ≠ some fd
  badCloses : t.badCloses = 0

variable {t : Table} {holds : ι → Option ℕ} {pending : Option ℕ} {i j : ι} {fd n : ℕ}

theorem Inv.init : Inv Table.empty (fun _ : ι ↦ none) none where
  tokens := ⟨by simp [Table.empty, Table.place], nofun, nofun, List.nodup_nil⟩
  open_iff fd := ⟨fun h ↦ absurd rfl h, by simp⟩
  unique := nofun
  not_held := nofun
  badCloses := rfl

theorem Inv.exists_opening (h : Inv t holds pending) (hi : holds i = some fd) :
    ∃ n, t.entries fd = some n :=
  Option.ne_none_iff_exists'.mp ((h.open_iff fd).mpr (Or.inr ⟨i, hi⟩))

theorem getElem?_concat_eq_update (l : List ℕ) (x : ℕ) :
    (fun n ↦ (l ++ [x])[n]?) = Function.update (fun n ↦ l[n]?) l.length (some x) := by
  funext n
  rcases Nat.lt_trichotomy n l.length with hlt | rfl | hgt
  · rw [Function.update_of_ne hlt.ne, List.getElem?_append_left hlt]
  · rw [Function.update_self, List.getElem?_concat_length]
  · rw [Function.update_of_ne hgt.ne', List.getElem?_eq_none hgt.le, List.getElem?_eq_none]
    rw [List.length_append, List.length_singleton]
    exact hgt

/-- A descriptor that was not open is opened, and has no owner yet. -/
theorem Inv.openAs (h : Inv t holds none) (hfd : t.entries fd = none) :
    Inv (t.openAs fd) holds (some fd) := by
  have hplace : (t.openAs fd).place = Function.update t.place fd (some (t.opened.length, fd)) := by
    funext fd'
    rcases eq_or_ne fd' fd with rfl | hne
    · simp [Table.openAs, Table.place]
    · simp [Table.openAs, Table.place, hne]
  have hnobody : ∀ i, holds i ≠ some fd := fun i hi ↦ (h.open_iff fd).mpr (Or.inr ⟨i, hi⟩) hfd
  refine ⟨?_, fun fd' ↦ ?_, h.unique, fun i fd' hfd' ↦ Option.some.inj hfd' ▸ hnobody i,
    h.badCloses⟩
  · rw [hplace, Table.openAs, getElem?_concat_eq_update]
    exact h.tokens.give (by simp) (by rw [Table.place, hfd, Option.map_none])
  · change Function.update t.entries fd _ fd' ≠ none ↔ _
    rcases eq_or_ne fd' fd with rfl | hne
    · simp
    · rw [Function.update_of_ne hne, h.open_iff fd', or_iff_right nofun, or_iff_right]
      exact fun heq ↦ hne (Option.some.inj heq).symm

variable [DecidableEq ι]

/-- An owner closes what it holds. -/
theorem Inv.close (h : Inv t holds pending) (hi : holds i = some fd) :
    Inv (t.close fd) (Function.update holds i none) pending := by
  obtain ⟨n, hn⟩ := h.exists_opening hi
  have hplace : (t.close fd).place = Function.update t.place fd none := by
    rw [Table.close_of_open hn]
    funext fd'
    rcases eq_or_ne fd' fd with rfl | hne
    · simp [Table.place]
    · simp [Table.place, hne]
  refine ⟨?_, fun fd' ↦ ?_, fun j k fd' hj hk ↦ ?_, fun k fd' hfd' hk ↦ ?_, ?_⟩
  · rw [hplace, Table.close_of_open hn]
    exact h.tokens.consume (by rw [Table.place, hn, Option.map_some])
  · -- nobody else holds the descriptor, so nobody holds what is closed now
    rw [Table.close_of_open hn]
    change Function.update t.entries fd none fd' ≠ none ↔ _
    rcases eq_or_ne fd' fd with rfl | hne
    · rw [Function.update_self]
      refine ⟨fun hnone ↦ absurd rfl hnone, ?_⟩
      rintro (hpending | ⟨k, hk⟩)
      · exact absurd hi (h.not_held i fd' hpending)
      · obtain ⟨hki, hk⟩ := eq_some_of_update_none hk
        exact absurd (h.unique k i fd' hk hi) hki
    · rw [Function.update_of_ne hne, h.open_iff fd']
      refine or_congr Iff.rfl ⟨?_, ?_⟩
      · rintro ⟨k, hk⟩
        have hki : k ≠ i := by
          rintro rfl
          exact hne (Option.some.inj (hk.symm.trans hi))
        exact ⟨k, by rw [Function.update_of_ne hki, hk]⟩
      · rintro ⟨k, hk⟩
        exact ⟨k, (eq_some_of_update_none hk).2⟩
  · exact h.unique j k fd' (eq_some_of_update_none hj).2 (eq_some_of_update_none hk).2
  · exact h.not_held k fd' hfd' (eq_some_of_update_none hk).2
  · rw [Table.close_of_open hn]
    exact h.badCloses

/-- The pending descriptor gets its owner. -/
theorem Inv.receive (h : Inv t holds (some fd)) (hi : holds i = none) :
    Inv t (Function.update holds i (some fd)) none := by
  have hnobody : ∀ k, holds k ≠ some fd := fun k ↦ h.not_held k fd rfl
  refine ⟨h.tokens, fun fd' ↦ ?_, fun j k fd' hj hk ↦ ?_, nofun, h.badCloses⟩
  · rw [h.open_iff fd', or_iff_right (a := none = some fd') nofun]
    constructor
    · rintro (hfd | ⟨k, hk⟩)
      · exact ⟨i, by rw [Function.update_self, hfd]⟩
      · refine ⟨k, ?_⟩
        rw [Function.update_of_ne, hk]
        rintro rfl
        cases hi.symm.trans hk
    · rintro ⟨k, hk⟩
      rcases update_eq_some_cases hk with ⟨-, hfd⟩ | ⟨-, hk⟩
      · exact Or.inl hfd
      · exact Or.inr ⟨k, hk⟩
  · rcases update_eq_some_cases hj with ⟨hji, hfd⟩ | ⟨-, hj'⟩
    · rcases update_eq_some_cases hk with ⟨hki, -⟩ | ⟨-, hk'⟩
      · rw [hji, hki]
      · exact absurd (hk'.trans hfd.symm) (hnobody k)
    · rcases update_eq_some_cases hk with ⟨-, hfd⟩ | ⟨-, hk'⟩
      · exact absurd (hj'.trans hfd.symm) (hnobody j)
      · exact h.unique j k fd' hj' hk'

omit [DecidableEq ι] in
/-- The owners change places. -/
theorem Inv.permute (h : Inv t holds pending) (e : Equiv.Perm ι) :
    Inv t (fun i ↦ holds (e i)) pending := by
  refine ⟨h.tokens, fun fd ↦ ?_, fun j k fd hj hk ↦ ?_, fun i ↦ h.not_held (e i), h.badCloses⟩
  · rw [h.open_iff fd]
    refine or_congr Iff.rfl ⟨?_, ?_⟩
    · rintro ⟨i, hi⟩
      exact ⟨e.symm i, by rw [Equiv.apply_symm_apply, hi]⟩
    · rintro ⟨i, hi⟩
      exact ⟨e i, hi⟩
  · exact e.injective (h.unique _ _ fd hj hk)

/-- What an owner holds, nothing or a descriptor, goes to an owner that holds nothing. -/
theorem Inv.relocate (h : Inv t holds pending) (hi : holds i = none) :
    Inv t (Function.update (Function.update holds j none) i (holds j)) pending := by
  rw [update_relocate hi]
  exact h.permute (Equiv.swap i j)

omit [DecidableEq ι] in
/-- **All closed.** When nobody holds a descriptor any more, every opening was closed once. -/
theorem Inv.closed_once (h : Inv t holds none) (hnone : ∀ i, holds i = none)
    (hn : n < t.opened.length) : (t.closed.map Prod.fst).count n = 1 := by
  rcases h.tokens.once (List.getElem?_eq_getElem hn) with ⟨⟨fd, hfd⟩, -⟩ | ⟨-, -, honce⟩
  · obtain ⟨m, hm, -⟩ := Option.map_eq_some_iff.mp hfd
    -- what is still open would have an owner
    have hopen : t.entries fd ≠ none := by simp [hm]
    rcases (h.open_iff fd).mp hopen with hpending | ⟨i, hi⟩
    · cases hpending
    · cases (hnone i).symm.trans hi
  · exact honce

end Descriptors
