import Mathlib.Data.List.Basic
import Mathlib.Data.Option.Basic

/-!
# Runs of a labelled step function

A concurrent component is a function `step : σ → α → Option σ`: the event `a` is possible in `s`
when `step s a` is some state, and the event carries every choice a schedule can make (who moves,
with which argument, which way a nondeterministic operation goes). A run is a list of events all of
which were possible, so quantifying over event lists quantifies over every interleaving.

Two rules carry the proofs below. `exec_invariant` is induction along a run. `exec_crossing` finds,
in a run between a state outside a set and a state inside it, a step that enters the set; it is how
a fact known at the end of a call is traced back to the moment at which it was established.
-/

namespace Runs

variable {σ α : Type*} {step : σ → α → Option σ}

/-- Run a list of events; `none` as soon as one of them is not possible. -/
def exec (step : σ → α → Option σ) : σ → List α → Option σ
  | s, [] => some s
  | s, a :: as => (step s a).bind fun t ↦ exec step t as

@[simp] theorem exec_nil (s : σ) : exec step s [] = some s := rfl

theorem exec_cons_eq_some {s u : σ} {a : α} {as : List α} :
    exec step s (a :: as) = some u ↔ ∃ t, step s a = some t ∧ exec step t as = some u :=
  Option.bind_eq_some_iff

theorem exec_append_eq_some {s u : σ} {as bs : List α} :
    exec step s (as ++ bs) = some u ↔
      ∃ t, exec step s as = some t ∧ exec step t bs = some u := by
  induction as generalizing s with
  | nil => simp
  | cons a as ih =>
    rw [List.cons_append, exec_cons_eq_some]
    constructor
    · rintro ⟨t, hst, htu⟩
      obtain ⟨t', htt', ht'u⟩ := ih.mp htu
      exact ⟨t', exec_cons_eq_some.mpr ⟨t, hst, htt'⟩, ht'u⟩
    · rintro ⟨t', hst', ht'u⟩
      obtain ⟨t, hst, htt'⟩ := exec_cons_eq_some.mp hst'
      exact ⟨t, hst, ih.mpr ⟨t', htt', ht'u⟩⟩

/-- `s` can be reached from `init`. -/
def Reachable (step : σ → α → Option σ) (init s : σ) : Prop := ∃ as, exec step init as = some s

theorem Reachable.refl (s : σ) : Reachable step s s := ⟨[], rfl⟩

theorem Reachable.exec {init s t : σ} (h : Reachable step init s) {as : List α}
    (hst : exec step s as = some t) : Reachable step init t := by
  obtain ⟨bs, hbs⟩ := h
  exact ⟨bs ++ as, exec_append_eq_some.mpr ⟨s, hbs, hst⟩⟩

theorem Reachable.tail {init s t : σ} (h : Reachable step init s) {a : α}
    (hst : step s a = some t) : Reachable step init t :=
  h.exec (exec_cons_eq_some.mpr ⟨t, hst, exec_nil t⟩)

/-- **Induction along a run.** What every event of the run preserves, the run preserves. -/
theorem exec_invariant_of_mem {P : σ → Prop} {s u : σ} {as : List α}
    (hstep : ∀ s, ∀ a ∈ as, ∀ t, P s → step s a = some t → P t) (hs : P s)
    (h : exec step s as = some u) : P u := by
  induction as generalizing s with
  | nil =>
    obtain rfl : s = u := Option.some.inj h
    exact hs
  | cons a as ih =>
    obtain ⟨t, hst, htu⟩ := exec_cons_eq_some.mp h
    refine ih (fun s b hb ↦ hstep s b (List.mem_cons_of_mem a hb)) ?_ htu
    exact hstep s a List.mem_cons_self t hs hst

theorem exec_invariant {P : σ → Prop} (hstep : ∀ s a t, P s → step s a = some t → P t) {s u : σ}
    {as : List α} (hs : P s) (h : exec step s as = some u) : P u :=
  exec_invariant_of_mem (fun s a _ t ↦ hstep s a t) hs h

theorem Reachable.invariant {P : σ → Prop} (hstep : ∀ s a t, P s → step s a = some t → P t)
    {init s : σ} (hinit : P init) (h : Reachable step init s) : P s := by
  obtain ⟨as, has⟩ := h
  exact exec_invariant hstep hinit has

/-- **A promise kept.** A fact is handed on twice in a run, from the first part to the second, and
from there across a single step to the third; all three parts keep their own fact, given an
invariant of the component. -/
theorem exec_promise {I P Q R : σ → Prop} {s₁ s₂ s₃ s₄ s₅ : σ} {as bs cs : List α} {a : α}
    (hI : ∀ s a t, I s → step s a = some t → I t)
    (hP : ∀ s, ∀ a ∈ as, ∀ t, I s → P s → step s a = some t → P t) (hPQ : P s₂ → Q s₂)
    (hQ : ∀ s, ∀ a ∈ bs, ∀ t, I s → Q s → step s a = some t → Q t) (hQR : Q s₃ → R s₄)
    (hR : ∀ s, ∀ a ∈ cs, ∀ t, I s → R s → step s a = some t → R t) (h₁ : I s₁ ∧ P s₁)
    (has : exec step s₁ as = some s₂) (hbs : exec step s₂ bs = some s₃)
    (ha : step s₃ a = some s₄) (hcs : exec step s₄ cs = some s₅) : I s₅ ∧ R s₅ := by
  have hkeep : ∀ {F : σ → Prop} {ds : List α} {u v : σ},
      (∀ s, ∀ a ∈ ds, ∀ t, I s → F s → step s a = some t → F t) → I u ∧ F u →
      exec step u ds = some v → I v ∧ F v := fun hF hu hrun ↦
    exec_invariant_of_mem (P := fun s ↦ I s ∧ _)
      (fun s a ha t hs hst ↦ ⟨hI s a t hs.1 hst, hF s a ha t hs.1 hs.2 hst⟩) hu hrun
  obtain ⟨hI₂, hP₂⟩ := hkeep hP h₁ has
  obtain ⟨hI₃, hQ₃⟩ := hkeep hQ ⟨hI₂, hPQ hP₂⟩ hbs
  exact hkeep hR ⟨hI s₃ a s₄ hI₃ ha, hQR hQ₃⟩ hcs

/-- **The crossing step.** A run from outside `P` into `P` contains a step that enters `P`. -/
theorem exec_crossing {P : σ → Prop} {s u : σ} {as : List α} (hs : ¬P s) (hu : P u)
    (h : exec step s as = some u) :
    ∃ bs a cs t t', as = bs ++ a :: cs ∧ exec step s bs = some t ∧ step t a = some t' ∧
      exec step t' cs = some u ∧ ¬P t ∧ P t' := by
  induction as generalizing s with
  | nil =>
    obtain rfl : s = u := Option.some.inj h
    exact absurd hu hs
  | cons a as ih =>
    obtain ⟨t, hst, htu⟩ := exec_cons_eq_some.mp h
    by_cases ht : P t
    · exact ⟨[], a, as, s, t, rfl, rfl, hst, htu, hs, ht⟩
    · obtain ⟨bs, b, cs, v, v', heq, hbs, hvv', hcs, hv, hv'⟩ := ih ht htu
      exact ⟨a :: bs, b, cs, v, v', by rw [heq, List.cons_append],
        exec_cons_eq_some.mpr ⟨t, hst, hbs⟩, hvv', hcs, hv, hv'⟩

/-- **Potential.** An event that always costs some of a potential that never grows happens at most
as often as the potential allows. -/
theorem exec_countP_le {P : σ → Prop} {φ : σ → ℕ} {q : α → Bool}
    (hP : ∀ s a t, P s → step s a = some t → P t)
    (hφ : ∀ s a t, P s → step s a = some t → φ t + (q a).toNat ≤ φ s) {s u : σ} {as : List α}
    (hs : P s) (h : exec step s as = some u) : φ u + as.countP q ≤ φ s := by
  induction as generalizing s with
  | nil =>
    obtain rfl : s = u := Option.some.inj h
    exact Nat.le_refl _
  | cons a as ih =>
    obtain ⟨t, hst, htu⟩ := exec_cons_eq_some.mp h
    have hrest := ih (hP s a t hs hst) htu
    have hcost := hφ s a t hs hst
    have hq : (if q a = true then 1 else 0) = (q a).toNat := by cases q a <;> rfl
    rw [List.countP_cons, hq]
    omega

/-- **Lockstep.** Two components that from related states admit the same events, and lead to related
states, admit the same runs. -/
theorem exec_rel {τ : Type*} {step' : τ → α → Option τ} {P : σ → τ → Prop}
    (hstep : ∀ s t a, P s t → Option.Rel P (step s a) (step' t a)) {s : σ} {t : τ} (hst : P s t)
    (as : List α) : Option.Rel P (exec step s as) (exec step' t as) := by
  induction as generalizing s t with
  | nil => exact Option.Rel.some hst
  | cons a as ih =>
    have hrel : Option.Rel P (step s a) (step' t a) := hstep s t a hst
    rw [exec, exec]
    generalize step s a = x at hrel ⊢
    generalize step' t a = y at hrel ⊢
    cases hrel with
    | none => exact Option.Rel.none
    | some hst' => exact ih hst'

/-! ## Conditions along a run -/

/-- Every event of the run meets the condition in the state it happens in. -/
def Along (step : σ → α → Option σ) (C : σ → α → Prop) : σ → List α → Prop
  | _, [] => True
  | s, a :: as => C s a ∧ ∀ t ∈ step s a, Along step C t as

instance Along.decidable (step : σ → α → Option σ) (C : σ → α → Prop) [∀ s a, Decidable (C s a)] :
    ∀ s as, Decidable (Along step C s as)
  | _, [] => inferInstanceAs (Decidable True)
  | s, a :: as =>
    have : ∀ t, Decidable (Along step C t as) := fun t ↦ Along.decidable step C t as
    inferInstanceAs (Decidable (C s a ∧ ∀ t ∈ step s a, Along step C t as))

theorem Along.at {C : σ → α → Prop} {s t : σ} {bs cs : List α} {a : α}
    (h : Along step C s (bs ++ a :: cs)) (hst : Runs.exec step s bs = some t) : C t a := by
  induction bs generalizing s with
  | nil =>
    obtain rfl : s = t := Option.some.inj hst
    exact h.1
  | cons b bs ih =>
    obtain ⟨u, hsu, hut⟩ := exec_cons_eq_some.mp hst
    exact ih (h.2 u hsu) hut

theorem Along.left {C : σ → α → Prop} {s : σ} {as bs : List α} (h : Along step C s (as ++ bs)) :
    Along step C s as := by
  induction as generalizing s with
  | nil => trivial
  | cons a as ih => exact ⟨h.1, fun t ht ↦ ih (h.2 t ht)⟩

/-- A condition that an invariant gives holds along every run. -/
theorem Along.of_invariant {C : σ → α → Prop} {P : σ → Prop}
    (hstep : ∀ s a t, P s → step s a = some t → P t) (hC : ∀ s a, P s → C s a) {s : σ} (hs : P s)
    (as : List α) : Along step C s as := by
  induction as generalizing s with
  | nil => trivial
  | cons a as ih => exact ⟨hC s a hs, fun t ht ↦ ih (hstep s a t hs ht)⟩

/-- Induction along a run whose events all meet the condition. -/
theorem Along.invariant {C : σ → α → Prop} {P : σ → Prop}
    (hstep : ∀ s a t, P s → C s a → step s a = some t → P t) {s u : σ} {as : List α}
    (h : Along step C s as) (hs : P s) (hrun : Runs.exec step s as = some u) : P u := by
  induction as generalizing s with
  | nil =>
    obtain rfl : s = u := Option.some.inj hrun
    exact hs
  | cons a as ih =>
    obtain ⟨t, hst, htu⟩ := exec_cons_eq_some.mp hrun
    exact ih (h.2 t hst) (hstep s a t hs h.1 hst) htu

/-- A condition that an invariant gives for every possible event holds along the runs that keep the
invariant. -/
theorem Along.imp {C D : σ → α → Prop} {P : σ → Prop}
    (hstep : ∀ s a t, P s → C s a → step s a = some t → P t)
    (hD : ∀ s a t, P s → step s a = some t → D s a) {s u : σ} {as : List α}
    (h : Along step C s as) (hs : P s) (hrun : Runs.exec step s as = some u) :
    Along step D s as := by
  induction as generalizing s with
  | nil => trivial
  | cons a as ih =>
    obtain ⟨t, hst, htu⟩ := exec_cons_eq_some.mp hrun
    refine ⟨hD s a t hs hst, fun t' ht' ↦ ?_⟩
    obtain rfl : t = t' := Option.some.inj (hst.symm.trans ht')
    exact ih (h.2 t hst) (hstep s a t hs h.1 hst) htu

/-! ## Histories -/

/-- What a history has recorded stays where it is. -/
theorem getElem?_of_prefix {β : Type*} {l xs : List β} (h : l <+: xs) {i : ℕ} {x : β}
    (hx : l[i]? = some x) : xs[i]? = some x := by
  obtain ⟨rest, rfl⟩ := h
  rw [List.getElem?_append_left (List.getElem?_eq_some_iff.mp hx).1, hx]

/-- A history that has recorded a prefix stays one when it records the next entry. -/
theorem concat_prefix {β : Type*} {l xs : List β} {x : β} (h : l <+: xs)
    (hx : xs[l.length]? = some x) : l ++ [x] <+: xs := by
  obtain ⟨rest, rfl⟩ := h
  rw [List.getElem?_append_right (Nat.le_refl _), Nat.sub_self] at hx
  cases rest with
  | nil => simp at hx
  | cons y rest =>
    obtain rfl : y = x := Option.some.inj hx
    exact ⟨rest, by rw [List.append_assoc, List.singleton_append]⟩

end Runs
