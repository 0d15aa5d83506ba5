import FastInAHurry.Library.Census
import Mathlib.Algebra.Order.Group.Multiset

/-!
# Merged streams

What a common sink has received from several threads is a merge of what each of them has sent: every
value sent is in it once, and the values of one thread are in the order in which it sent them. How
the threads interleaved is all that the merge leaves open.

`Merge streams xs` is built in the order in which the sink receives, so a component keeps it as an
invariant by one application of `Merge.concat` for each value.
-/

open scoped BigOperators

variable {ι α : Type*} [DecidableEq ι]

/-- `xs` takes the values of all the streams, those of each stream in their order. -/
inductive Merge : (ι → List α) → List α → Prop
  | nil : Merge (fun _ ↦ []) []
  | concat {streams : ι → List α} {xs : List α} (h : Merge streams xs) (p : ι) (x : α) :
      Merge (Function.update streams p (streams p ++ [x])) (xs ++ [x])

namespace Merge

variable {streams : ι → List α} {xs : List α}

/-- The next value of one stream, for streams that are known pointwise. -/
theorem push (h : Merge streams xs) {streams' : ι → List α} {p : ι} {x : α}
    (hp : streams' p = streams p ++ [x]) (hne : ∀ q, q ≠ p → streams' q = streams q) :
    Merge streams' (xs ++ [x]) := by
  have heq : streams' = Function.update streams p (streams p ++ [x]) :=
    (Function.eq_update_iff).mpr ⟨hp, hne⟩
  rw [heq]
  exact h.concat p x

/-- Every value of the merge comes from a stream. -/
theorem exists_mem (h : Merge streams xs) {x : α} (hx : x ∈ xs) : ∃ p, x ∈ streams p := by
  induction h with
  | nil => exact absurd hx List.not_mem_nil
  | @concat streams xs _ q y ih =>
    rcases List.mem_append.mp hx with hx | hx
    · obtain ⟨p, hp⟩ := ih hx
      refine ⟨p, ?_⟩
      by_cases hpq : p = q
      · subst hpq
        rw [Function.update_self]
        exact List.mem_append_left _ hp
      · rwa [Function.update_of_ne hpq]
    · refine ⟨q, ?_⟩
      rw [Function.update_self]
      exact List.mem_append_right _ hx

/-- Where no stream has a value, there is none in the merge. -/
theorem eq_nil (h : Merge streams xs) (hnil : ∀ p, streams p = []) : xs = [] := by
  cases h with
  | nil => rfl
  | @concat streams xs _ q x =>
    have hq := hnil q
    rw [Function.update_self] at hq
    exact absurd hq (List.concat_ne_nil _ _)

/-- A merge with only one stream that has values is this stream. -/
theorem eq_of_single (h : Merge streams xs) {p : ι} (hne : ∀ q, q ≠ p → streams q = []) :
    xs = streams p := by
  induction h with
  | nil => rfl
  | @concat streams xs _ q x ih =>
    have hq : q = p := by
      by_contra hqp
      have hnil := hne q hqp
      rw [Function.update_self] at hnil
      exact absurd hnil (List.concat_ne_nil _ _)
    subst hq
    have hrest : ∀ r, r ≠ q → streams r = [] := fun r hr ↦ by
      have hnil := hne r hr
      rwa [Function.update_of_ne hr] at hnil
    rw [Function.update_self, ih hrest]

/-- The first part of a merge is a merge of the first parts. -/
theorem of_prefix (h : Merge streams xs) {ys : List α} (hpre : ys <+: xs) :
    ∃ firsts : ι → List α, (∀ p, firsts p <+: streams p) ∧ Merge firsts ys := by
  induction h with
  | nil => exact ⟨_, fun _ ↦ List.prefix_rfl, by rw [List.prefix_nil.mp hpre]; exact nil⟩
  | @concat streams xs h q x ih =>
    rcases List.prefix_concat_iff.mp hpre with rfl | hpre
    · exact ⟨_, fun _ ↦ List.prefix_rfl, by simpa using h.concat q x⟩
    · obtain ⟨firsts, hfirsts, hmerge⟩ := ih hpre
      refine ⟨firsts, fun p ↦ (hfirsts p).trans ?_, hmerge⟩
      by_cases hp : p = q
      · subst hp
        rw [Function.update_self]
        exact List.prefix_append _ _
      · rw [Function.update_of_ne hp]

variable [Fintype ι]

/-- Nothing is lost and nothing is invented. -/
theorem coe_eq_sum (h : Merge streams xs) :
    (xs : Multiset α) = ∑ p, (streams p : Multiset α) := by
  induction h with
  | nil => simp
  | @concat streams xs _ q x ih =>
    have hupdate := Census.tally_update (fun l : List α ↦ (l : Multiset α)) streams q
      (streams q ++ [x])
    refine add_right_cancel (b := (streams q : Multiset α)) (Eq.trans ?_ hupdate.symm)
    rw [← Multiset.coe_add, ← Multiset.coe_add, ih]
    exact (add_right_comm _ _ _).trans (add_assoc _ _ _)

theorem length_eq_sum (h : Merge streams xs) : xs.length = ∑ p, (streams p).length := by
  have hcard := congrArg Multiset.card h.coe_eq_sum
  simpa using hcard

end Merge
