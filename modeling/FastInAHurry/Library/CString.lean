import FastInAHurry.Library.StdString

/-!
# Strings of C in arrays

A string is the list of its bytes, and an array holds the string of its bytes in front of the first
zero byte. `snprintf` stores as much of a text as there is space for in front of the zero byte, and
returns the length of all of it; a text is what the format and its arguments spell. The return value
is an `int`, and negative where the length is none.

What a caller wants to know of the value returned is whether it counts bytes that were stored, and
that is a bound on the length of the text.
-/

namespace CString

open StdString

/-! ## Arrays -/

/-- The string in an array. -/
def cstr (bytes : List Char) : List Char := bytes.takeWhile (· != '\x00')

/-- `snprintf(out, n, ...)` for a text: the array, and the value returned. -/
def snprintf (out : List Char) (n : ℕ) (text : List Char) : List Char × ℤ :=
  let stored :=
    match n with
    | 0 => out
    | n + 1 => text.take n ++ '\x00' :: out.drop ((text.take n).length + 1)
  (stored, if text.length < 2 ^ 31 then text.length else -1)

/-- `fwrite(bytes, 1, n, stdout)`: what is written; `none` where it reads behind the array. -/
def fwrite (bytes : List Char) (n : ℕ) : Option (List Char) :=
  if n ≤ bytes.length then some (bytes.take n) else none

variable {out text : List Char} {n : ℕ}

/-- A text that fits is stored, and its length returned. -/
theorem snprintf_of_fits (h : text.length ≤ n) (hn : n < 2 ^ 31) :
    (snprintf out (n + 1) text).2 = text.length ∧
      (snprintf out (n + 1) text).1.take text.length = text ∧
      (out.length = n + 1 → (snprintf out (n + 1) text).1.length = n + 1) := by
  have htake : text.take n = text := List.take_of_length_le h
  refine ⟨if_pos (by omega), ?_, fun hout ↦ ?_⟩
  · rw [snprintf, htake]
    exact List.take_left
  · rw [snprintf]
    dsimp only
    rw [htake, List.length_append, List.length_cons, List.length_drop, hout]
    omega

/-- The string stored has space in the array. -/
theorem length_cstr_snprintf_le : (cstr (snprintf out (n + 1) text).1).length ≤ n := by
  have hstored : (text.take n).length ≤ n := List.length_take_le n text
  rw [snprintf, cstr]
  dsimp only
  rw [List.takeWhile_append, List.takeWhile_cons_of_neg (by decide), List.append_nil]
  split
  · exact hstored
  · exact (List.takeWhile_sublist _).length_le.trans hstored

/-! ## Searching from the end -/

/-- `strrchr(s, c)`, as a position. -/
def strrchr (s : List Char) (c : Char) : Option ℕ :=
  (s.reverse.findIdx? (· == c)).map fun i ↦ s.length - 1 - i

/-- The string behind the last `c`, and all of it where there is none. -/
def afterLast (s : List Char) (c : Char) : List Char :=
  match strrchr s c with
  | some i => s.drop (i + 1)
  | none => s

theorem afterLast_eq (s : List Char) (c : Char) : afterLast s c = s.rtakeWhile (· != c) := by
  rw [afterLast, strrchr]
  rcases findLast_cases (· == c) s with ⟨hnone, hall⟩ | ⟨l, a, r, hs, ha, hr, hi⟩
  · rw [hnone, eq_comm]
    exact List.rtakeWhile_eq_self_iff.mpr fun x hx ↦ by simpa using hall x hx
  · have hr' : ∀ x ∈ r.reverse, (x != c) = true := fun x hx ↦ by
      simpa using hr x (List.mem_reverse.mp hx)
    obtain rfl : a = c := by simpa using ha
    rw [hi, hs, List.rtakeWhile, List.reverse_append, List.reverse_cons, List.append_assoc,
      List.takeWhile_append_of_pos hr', List.singleton_append,
      List.takeWhile_cons_of_neg (by simp)]
    simp

theorem length_afterLast_le (s : List Char) (c : Char) : (afterLast s c).length ≤ s.length := by
  rw [afterLast_eq]
  exact (List.rtakeWhile_suffix _ _).length_le

/-! ## Numbers -/

/-- `%d`, `%u` and `%lu`, filled up with zeros to `width` characters. -/
def decimal (width : ℕ) (v : ℤ) : List Char :=
  let sign := if v < 0 then ['-'] else []
  let digits := Nat.toDigits 10 v.natAbs
  sign ++ List.replicate (width - sign.length - digits.length) '0' ++ digits

end CString
