import Mathlib.Algebra.Group.Int.Defs
import Mathlib.Algebra.Group.Nat.Defs
import Mathlib.Data.List.DropRight
import Mathlib.Data.List.TakeWhile

/-!
# Searching and cutting strings by position

The operations of `std::string` that return or take positions, on lists of characters of any type.
A position that was not found, `npos`, is `none`. Passed on as a length it means up to the end, and
since it is the largest value of its type, adding one to it gives 0; `next` is that addition.

What programs build from them is simpler than they are: cutting a string in front of the first
character that is not in a set is `dropWhile`, cutting it behind the last one is `rdropWhile`, and
splitting it at a character is `takeWhile`. The lemmas here replace the positions by these, and say
how trimming and cutting at a character commute.
-/

namespace StdString

variable {α : Type*} [DecidableEq α]

/-! ## The operations -/

/-- `s.find(c)`. -/
def find (c : α) (s : List α) : Option ℕ := s.findIdx? (· == c)

/-- `s.find_first_not_of(cs)`. -/
def findFirstNotOf (cs s : List α) : Option ℕ := s.findIdx? fun x ↦ !cs.contains x

/-- `s.find_last_not_of(cs)`. -/
def findLastNotOf (cs s : List α) : Option ℕ :=
  (s.reverse.findIdx? fun x ↦ !cs.contains x).map fun i ↦ s.length - 1 - i

/-- `pos + 1`, which is 0 for `npos`. -/
def next : Option ℕ → ℕ
  | none => 0
  | some i => i + 1

omit [DecidableEq α] in
/-- `s.erase(pos, count)` with `pos` not behind the end, as `next` of a search never is. -/
def erase (s : List α) (pos : ℕ) : Option ℕ → List α
  | none => s.take pos
  | some count => s.take pos ++ s.drop (pos + count)

omit [DecidableEq α] in
/-- `s.substr(pos, count)` with `pos` not behind the end. -/
def substr (s : List α) (pos : ℕ) : Option ℕ → List α
  | none => s.drop pos
  | some count => (s.drop pos).take count

/-! ## Positions as cuts -/

omit [DecidableEq α] in
/-- A search finds nothing, or it splits the list at the first hit. -/
theorem findIdx?_cases (p : α → Bool) (s : List α) :
    (s.findIdx? p = none ∧ ∀ x ∈ s, p x = false) ∨
      ∃ l a r, s = l ++ a :: r ∧ (∀ x ∈ l, p x = false) ∧ p a = true ∧
        s.findIdx? p = some l.length := by
  induction s with
  | nil => exact Or.inl ⟨rfl, by simp⟩
  | cons x s ih =>
    by_cases hx : p x = true
    · exact Or.inr ⟨[], x, s, rfl, by simp, hx, by simp [List.findIdx?_cons, hx]⟩
    · rcases ih with ⟨hnone, hall⟩ | ⟨l, a, r, rfl, hl, ha, hsome⟩
      · refine Or.inl ⟨by simp [List.findIdx?_cons, hx, hnone], ?_⟩
        simpa [hx] using hall
      · refine Or.inr ⟨x :: l, a, r, rfl, ?_, ha, ?_⟩
        · simpa [hx] using hl
        · simp [List.findIdx?_cons, hx, hsome]

/-- Cutting in front of the first character that is not in the set. -/
theorem erase_findFirstNotOf (cs s : List α) :
    erase s 0 (findFirstNotOf cs s) = s.dropWhile cs.contains := by
  rcases findIdx?_cases (fun x ↦ !cs.contains x) s with ⟨hnone, hall⟩ | ⟨l, a, r, rfl, hl, ha, hi⟩
  · rw [findFirstNotOf, hnone, erase, List.take_zero, eq_comm, List.dropWhile_eq_nil_iff]
    exact fun x hx ↦ by simpa using hall x hx
  · have hl' : ∀ x ∈ l, cs.contains x = true := fun x hx ↦ by simpa using hl x hx
    have ha' : ¬cs.contains a = true := by simpa using ha
    rw [findFirstNotOf, hi, erase, List.take_zero, List.nil_append, Nat.zero_add,
      List.drop_left, List.dropWhile_append_of_pos hl', List.dropWhile_cons_of_neg ha']

omit [DecidableEq α] in
/-- A search from the end finds nothing, or it splits the list at the last hit. -/
theorem findLast_cases (p : α → Bool) (s : List α) :
    (((s.reverse.findIdx? p).map fun i ↦ s.length - 1 - i) = none ∧ ∀ x ∈ s, p x = false) ∨
      ∃ l a r, s = l ++ a :: r ∧ p a = true ∧ (∀ x ∈ r, p x = false) ∧
        ((s.reverse.findIdx? p).map fun i ↦ s.length - 1 - i) = some l.length := by
  rcases findIdx?_cases p s.reverse with ⟨hnone, hall⟩ | ⟨r, a, l, hs, hr, ha, hi⟩
  · rw [hnone]
    exact Or.inl ⟨rfl, fun x hx ↦ hall x (List.mem_reverse.mpr hx)⟩
  · have hs' : s = l.reverse ++ a :: r.reverse := by
      rw [← List.reverse_reverse s, hs]
      simp
    have hlen : s.length - 1 - r.length = l.reverse.length := by
      rw [hs', List.length_append, List.length_cons, List.length_reverse, List.length_reverse]
      omega
    refine Or.inr ⟨l.reverse, a, r.reverse, hs', ha, fun x hx ↦ hr x (List.mem_reverse.mp hx), ?_⟩
    rw [hi, Option.map_some, hlen]

/-- Cutting behind the last character that is not in the set. -/
theorem erase_findLastNotOf (cs s : List α) :
    erase s (next (findLastNotOf cs s)) none = s.rdropWhile cs.contains := by
  rcases findLast_cases (fun x ↦ !cs.contains x) s with ⟨hnone, hall⟩ | ⟨l, a, r, hs, ha, hr, hi⟩
  · rw [findLastNotOf, hnone, next, erase, List.take_zero, eq_comm, List.rdropWhile_eq_nil_iff]
    exact fun x hx ↦ by simpa using hall x hx
  · have hr' : ∀ x ∈ r.reverse, cs.contains x = true := fun x hx ↦ by
      simpa using hr x (List.mem_reverse.mp hx)
    have ha' : ¬cs.contains a = true := by simpa using ha
    rw [findLastNotOf, hi, next, erase, hs, List.rdropWhile, List.reverse_append,
      List.reverse_cons, List.append_assoc, List.dropWhile_append_of_pos hr',
      List.singleton_append, List.dropWhile_cons_of_neg ha', List.take_length_add_append]
    simp

theorem find_eq_none {c : α} {s : List α} (hc : c ∉ s) : find c s = none := by
  rw [find, List.findIdx?_eq_none_iff]
  intro x hx
  simpa using fun h : x = c ↦ hc (h ▸ hx)

/-- The first occurrence of a character. -/
theorem find_append {c : α} {l : List α} (hl : c ∉ l) (r : List α) :
    find c (l ++ c :: r) = some l.length := by
  have hnone : l.findIdx? (· == c) = none := find_eq_none hl
  rw [find, List.findIdx?_append, hnone, List.findIdx?_cons]
  simp

omit [DecidableEq α] in
theorem substr_append_left (l r : List α) : substr (l ++ r) 0 (some l.length) = l := by
  rw [substr, List.drop_zero, List.take_left]

omit [DecidableEq α] in
theorem substr_append_right (l : List α) (c : α) (r : List α) :
    substr (l ++ c :: r) (l.length + 1) none = r := by
  rw [substr, ← List.drop_drop, List.drop_left]
  rfl

/-! ## Cutting at a character -/

/-- The string in front of the first `c`, or all of it. -/
def before (c : α) (s : List α) : List α := s.takeWhile (· != c)

/-- The string behind the first `c`, or nothing. -/
def after (c : α) (s : List α) : List α := (s.dropWhile (· != c)).drop 1

theorem notMem_before (c : α) (s : List α) : c ∉ before c s := by
  intro h
  simpa using List.mem_takeWhile_imp h

theorem before_of_notMem {c : α} {s : List α} (hc : c ∉ s) : before c s = s := by
  rw [before, List.takeWhile_eq_self_iff]
  intro x hx
  simpa using fun h : x = c ↦ hc (h ▸ hx)

theorem before_append {c : α} {l : List α} (hl : c ∉ l) (r : List α) :
    before c (l ++ c :: r) = l := by
  have hall : ∀ x ∈ l, (x != c) = true := fun x hx ↦ by simpa using fun h : x = c ↦ hl (h ▸ hx)
  rw [before, List.takeWhile_append_of_pos hall]
  simp

theorem before_append_left {c : α} {l : List α} (hl : c ∉ l) (r : List α) :
    before c (l ++ r) = l ++ before c r :=
  List.takeWhile_append_of_pos fun x hx ↦ by simpa using fun h : x = c ↦ hl (h ▸ hx)

theorem after_append {c : α} {l : List α} (hl : c ∉ l) (r : List α) :
    after c (l ++ c :: r) = r := by
  have hall : ∀ x ∈ l, (x != c) = true := fun x hx ↦ by simpa using fun h : x = c ↦ hl (h ▸ hx)
  rw [after, List.dropWhile_append_of_pos hall]
  simp

/-- Cutting at the position of a character. -/
theorem substr_find (c : α) (s : List α) : substr s 0 (find c s) = before c s := by
  by_cases hc : c ∈ s
  · obtain ⟨l, r, rfl, hl⟩ := List.eq_append_cons_of_mem hc
    rw [find_append hl, substr_append_left, before_append hl]
  · rw [find_eq_none hc, before_of_notMem hc]
    rfl

/-! ## Trimming -/

/-- The string without the characters of the set at both ends. -/
def trim (cs s : List α) : List α := (s.dropWhile cs.contains).rdropWhile cs.contains

omit [DecidableEq α] in
theorem dropWhile_append_cons {p : α → Bool} {c : α} (hc : ¬p c = true) (l r : List α) :
    (l ++ c :: r).dropWhile p = l.dropWhile p ++ c :: r := by
  rw [List.dropWhile_append]
  split
  · next hnil => rw [List.isEmpty_iff.mp hnil, List.dropWhile_cons_of_neg hc, List.nil_append]
  · rfl

omit [DecidableEq α] in
theorem rdropWhile_append_cons {p : α → Bool} {c : α} (hc : ¬p c = true) (l r : List α) :
    (l ++ c :: r).rdropWhile p = l ++ c :: r.rdropWhile p := by
  have hrev : (l ++ c :: r).reverse = r.reverse ++ c :: l.reverse := by simp
  rw [List.rdropWhile, List.rdropWhile, hrev, dropWhile_append_cons hc]
  simp

/-- Trimming stops at a character that is not in the set, whatever is around it. -/
theorem trim_append_cons {cs : List α} {c : α} (hc : c ∉ cs) (l r : List α) :
    trim cs (l ++ c :: r) = l.dropWhile cs.contains ++ c :: r.rdropWhile cs.contains := by
  have hc' : ¬cs.contains c = true := mt List.contains_iff_mem.mp hc
  rw [trim, dropWhile_append_cons hc', rdropWhile_append_cons hc']

/-- Trimming removes no character that is not in the set. -/
theorem mem_trim_iff {cs s : List α} {c : α} (hc : c ∉ cs) : c ∈ trim cs s ↔ c ∈ s := by
  constructor
  · exact fun h ↦ (List.dropWhile_sublist _).subset ((List.rdropWhile_prefix _ _).subset h)
  · intro h
    obtain ⟨l, r, rfl⟩ := List.append_of_mem h
    rw [trim_append_cons hc]
    exact List.mem_append_right _ List.mem_cons_self

theorem trim_eq_nil_iff {cs s : List α} : trim cs s = [] ↔ ∀ x ∈ s, x ∈ cs := by
  constructor
  · intro h x hx
    by_contra hmem
    obtain ⟨l, r, rfl⟩ := List.append_of_mem hx
    rw [trim_append_cons hmem] at h
    simp at h
  · intro h
    rw [trim, List.rdropWhile_eq_nil_iff]
    exact fun x hx ↦ List.contains_iff_mem.mpr (h x ((List.dropWhile_sublist _).subset hx))

theorem trim_eq_self {cs s : List α} (h : ∀ x ∈ s, x ∉ cs) : trim cs s = s := by
  have hnot : ∀ x ∈ s, ¬cs.contains x = true := fun x hx ↦ mt List.contains_iff_mem.mp (h x hx)
  have hleft : s.dropWhile cs.contains = s := List.dropWhile_eq_self_iff.mpr fun hlen ↦
    hnot _ (List.getElem_mem hlen)
  rw [trim, hleft, List.rdropWhile_eq_self_iff]
  exact fun hne ↦ hnot _ (List.getLast_mem hne)

/-- What is trimmed on both sides has nothing more to trim on the left. -/
theorem dropWhile_trim (cs s : List α) : (trim cs s).dropWhile cs.contains = trim cs s := by
  cases htrim : trim cs s with
  | nil => rfl
  | cons x xs =>
    obtain ⟨u, hu⟩ : trim cs s <+: s.dropWhile cs.contains := List.rdropWhile_prefix _ _
    rw [htrim, List.cons_append] at hu
    have hx : ¬cs.contains x = true := by
      have hhead := List.head?_dropWhile_not cs.contains s
      rw [← hu] at hhead
      simpa using hhead
    exact List.dropWhile_cons_of_neg hx

inductive StoiError where
  | invalidArgument
  | outOfRange
deriving DecidableEq, Repr

/-- The characters that `std::strtol` skips. -/
def space : List Char := [' ', '\t', '\n', '\x0b', '\x0c', '\r']

/-- The sign that may stand in front of the digits, as a factor, and the rest. -/
def takeSign : List Char → ℤ × List Char
  | '-' :: s => (-1, s)
  | '+' :: s => (1, s)
  | s => (1, s)

def ofDigits (digits : List Char) : ℕ :=
  digits.foldl (fun n d ↦ 10 * n + (d.toNat - '0'.toNat)) 0

/-- `std::stoi(s)`: the longest prefix that is a number, behind leading space. What follows it is
not looked at. -/
def stoi (s : List Char) : Except StoiError ℤ :=
  let (sign, rest) := takeSign (s.dropWhile space.contains)
  let digits := rest.takeWhile Char.isDigit
  let val := sign * ofDigits digits
  if digits.isEmpty then .error .invalidArgument
  else if val < -2 ^ 31 ∨ 2 ^ 31 ≤ val then .error .outOfRange
  else .ok val

/-- The decimal text of a number. -/
def decimal (i : ℤ) : List Char :=
  if i < 0 then '-' :: Nat.toDigits 10 i.natAbs else Nat.toDigits 10 i.natAbs

theorem isDigit_of_mem_toDigits {n : ℕ} {c : Char} (hc : c ∈ Nat.toDigits 10 n) :
    c.isDigit = true :=
  Nat.isDigit_of_mem_toDigits (by decide) (by decide) hc

theorem notMem_decimal {c : Char} (hc : c.isDigit = false) (hminus : c ≠ '-') (i : ℤ) :
    c ∉ decimal i := by
  have hdigits : c ∉ Nat.toDigits 10 i.natAbs := fun hmem ↦ by
    rw [isDigit_of_mem_toDigits hmem] at hc
    cases hc
  rw [decimal]
  split
  · exact fun hmem ↦ hdigits ((List.mem_cons.mp hmem).resolve_left hminus)
  · exact hdigits

theorem ofDigits_toDigits (n : ℕ) : ofDigits (Nat.toDigits 10 n) = n :=
  Nat.ofDigitChars_ten_toDigits

/-- A decimal text starts with a digit behind its sign. -/
theorem takeSign_decimal (i : ℤ) :
    takeSign ((decimal i).dropWhile space.contains)
      = (if i < 0 then -1 else 1, Nat.toDigits 10 i.natAbs) := by
  have hdigit : ∀ {c : Char}, c.isDigit = true → c ∉ space ∧ c ≠ '-' ∧ c ≠ '+' := by
    intro c hc
    refine ⟨fun hmem ↦ ?_, ?_, ?_⟩
    · have hall : space.all (!·.isDigit) = true := by decide
      have hno := List.all_eq_true.mp hall c hmem
      simp [hc] at hno
    · rintro rfl
      exact absurd hc (by decide)
    · rintro rfl
      exact absurd hc (by decide)
  rw [decimal]
  split
  · rw [List.dropWhile_cons_of_neg (by decide)]
    rfl
  · have hne : Nat.toDigits 10 i.natAbs ≠ [] := Nat.toDigits_ne_nil
    obtain ⟨c, cs, hcs⟩ := List.exists_cons_of_ne_nil hne
    have hc := hdigit (isDigit_of_mem_toDigits (hcs ▸ List.mem_cons_self))
    rw [hcs, List.dropWhile_cons_of_neg (mt List.contains_iff_mem.mp hc.1), takeSign.eq_def]
    split
    · next heq => exact absurd (List.cons.inj heq).1 hc.2.1
    · next heq => exact absurd (List.cons.inj heq).1 hc.2.2
    · rfl

/-- A decimal text determines the number. -/
theorem decimal_injective : Function.Injective decimal := by
  intro i j h
  have hsign := takeSign_decimal i
  rw [h, takeSign_decimal, Prod.mk.injEq] at hsign
  have habs : j.natAbs = i.natAbs := by
    rw [← ofDigits_toDigits j.natAbs, hsign.2, ofDigits_toDigits]
  have hneg := hsign.1
  split at hneg <;> split at hneg <;> omega

end StdString
