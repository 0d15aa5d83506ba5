import Mathlib.Data.List.Basic
import Mathlib.Data.List.TakeWhile
import Mathlib.Data.List.InsertIdx

/-!
# Lower bound by binary search

The halving loop behind `std::lower_bound`, over a list and a Boolean test `before` saying that an
element sorts before the sought value. On a list whose `before` elements form a prefix the loop
returns the length of that prefix; on any other list it returns some index and nothing is claimed.

Insertion at the lower bound of a partitioned list is insertion between the two halves of the
partition, `insertAtLowerBound_eq`. Everything downstream uses that form and never the loop.
-/

namespace LowerBound

variable {α : Type*}

/-- The halving loop on the window of `len` positions that starts at `first`. -/
def search (before : α → Bool) (l : List α) (first len : ℕ) : ℕ :=
  if len = 0 then first
  else if (l[first + len / 2]?).any before then
    search before l (first + len / 2 + 1) (len - len / 2 - 1)
  else search before l first (len / 2)
termination_by len
decreasing_by all_goals omega

/-- The index of the first element that does not sort before the sought value. -/
def lowerBound (before : α → Bool) (l : List α) : ℕ := search before l 0 l.length

/-- Insert `a` at the lower bound. -/
def insertAtLowerBound (before : α → Bool) (a : α) (l : List α) : List α :=
  l.insertIdx (lowerBound before l) a

/-- The loop does not leave its window. -/
theorem search_le (before : α → Bool) (l : List α) (first len : ℕ) :
    search before l first len ≤ first + len := by
  induction first, len using search.induct before l with
  | case1 first => rw [search, if_pos rfl]; exact Nat.le_add_right _ _
  | case2 first len hlen hbefore ih =>
    rw [search, if_neg hlen, if_pos hbefore]
    omega
  | case3 first len hlen hbefore ih =>
    rw [search, if_neg hlen, if_neg hbefore]
    omega

/-- Whether the list is sorted or not, insertion adds the element and nothing else. -/
theorem insertAtLowerBound_perm (before : α → Bool) (a : α) (l : List α) :
    (insertAtLowerBound before a l).Perm (a :: l) :=
  List.perm_insertIdx a l ((search_le before l 0 l.length).trans (Nat.zero_add _).le)

/-- The elements that sort before the sought value form a prefix. -/
def Partitioned (before : α → Bool) (l : List α) : Prop :=
  l.Pairwise fun a b ↦ before b = true → before a = true

/-! ## The loop on a partitioned list -/

/-- The partition point decides `before` at every index. -/
theorem Partitioned.any_getElem?_iff {before : α → Bool} {l : List α} (h : Partitioned before l) :
    ∀ i, (l[i]?).any before = true ↔ i < (l.takeWhile before).length := by
  induction l with
  | nil => simp
  | cons a l ih =>
    obtain ⟨ha, hl⟩ := List.pairwise_cons.mp h
    intro i
    by_cases hb : before a = true
    · rw [List.takeWhile_cons_of_pos hb, List.length_cons]
      cases i with
      | zero => simp [hb]
      | succ i => rw [List.getElem?_cons_succ, ih hl i, Nat.succ_lt_succ_iff]
    · rw [List.takeWhile_cons_of_neg hb, List.length_nil]
      refine iff_of_false (fun hi ↦ ?_) (Nat.not_lt_zero i)
      obtain ⟨b, hbi, hbb⟩ := (Option.any_eq_true _ _).mp hi
      rcases List.mem_cons.mp (List.mem_of_getElem? hbi) with rfl | hmem
      · exact hb hbb
      · exact hb (ha b hmem hbb)

/-- The loop invariant: the partition point stays inside the window. -/
theorem search_eq {before : α → Bool} {l : List α} {n : ℕ}
    (hn : ∀ i, (l[i]?).any before = true ↔ i < n) (first len : ℕ) (hfirst : first ≤ n)
    (hlen : n ≤ first + len) : search before l first len = n := by
  fun_induction search before l first len with
  | case1 first => omega
  | case2 first len hpos hbefore ih =>
    have := (hn _).mp hbefore
    exact ih (by omega) (by omega)
  | case3 first len hpos hbefore ih =>
    have hle : n ≤ first + len / 2 := Nat.le_of_not_lt fun h ↦ hbefore ((hn _).mpr h)
    exact ih hfirst hle

theorem Partitioned.lowerBound_eq {before : α → Bool} {l : List α} (h : Partitioned before l) :
    lowerBound before l = (l.takeWhile before).length := by
  refine search_eq h.any_getElem?_iff 0 l.length (Nat.zero_le _) ?_
  rw [Nat.zero_add]
  exact (List.takeWhile_prefix before).length_le

/-! ## Insertion -/

private theorem insertIdx_length_append (a : α) (l₁ l₂ : List α) :
    (l₁ ++ l₂).insertIdx l₁.length a = l₁ ++ a :: l₂ := by
  induction l₁ with
  | nil => rfl
  | cons b l₁ ih =>
    rw [List.cons_append, List.length_cons, List.insertIdx_succ_cons, ih, List.cons_append]

/-- **Insertion splits the partition.** The new element goes after everything that sorts before it
and in front of everything else. -/
theorem Partitioned.insertAtLowerBound_eq {before : α → Bool} {l : List α}
    (h : Partitioned before l) (a : α) :
    insertAtLowerBound before a l = l.takeWhile before ++ a :: l.dropWhile before := by
  have hsplit := insertIdx_length_append a (l.takeWhile before) (l.dropWhile before)
  rw [List.takeWhile_append_dropWhile] at hsplit
  rw [insertAtLowerBound, h.lowerBound_eq, hsplit]

/-- No element behind the partition point sorts before the sought value. -/
theorem Partitioned.not_before_of_mem_dropWhile {before : α → Bool} {l : List α}
    (h : Partitioned before l) {b : α} (hb : b ∈ l.dropWhile before) : ¬before b = true := by
  induction l with
  | nil => simp at hb
  | cons a l ih =>
    obtain ⟨ha, hl⟩ := List.pairwise_cons.mp h
    by_cases hba : before a = true
    · rw [List.dropWhile_cons_of_pos hba] at hb
      exact ih hl hb
    · rw [List.dropWhile_cons_of_neg hba] at hb
      rcases List.mem_cons.mp hb with rfl | hmem
      · exact hba
      · exact fun hbb ↦ hba (ha b hmem hbb)

theorem Partitioned.filter_eq_takeWhile {before : α → Bool} {l : List α}
    (h : Partitioned before l) : l.filter before = l.takeWhile before := by
  induction l with
  | nil => rfl
  | cons a l ih =>
    obtain ⟨ha, hl⟩ := List.pairwise_cons.mp h
    by_cases hb : before a = true
    · rw [List.filter_cons_of_pos hb, List.takeWhile_cons_of_pos hb, ih hl]
    · rw [List.filter_cons_of_neg hb, List.takeWhile_cons_of_neg hb, List.filter_eq_nil_iff]
      exact fun b hmem hbb ↦ hb (ha b hmem hbb)

example : lowerBound (fun n : ℕ ↦ decide (n < 5)) [1, 4, 5, 5, 8] = 2 := by decide +kernel

end LowerBound
