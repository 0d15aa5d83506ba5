import FastInAHurry.Utils.TomlReload

/-!
# Loading a file that cannot be read

`extract_keys` stores what a line says before it looks at the next one, and `load` undoes nothing
when a line stops it. A load that fails therefore leaves the parser with what the lines in front of
the bad one say, put behind what it had, as a load that succeeds does with all lines.

Nothing at all changes only if the loop stops before it has stored anything. An entry needs a header
before it, so the first thing stored is a header, and the question is what the first line is that is
neither blank nor a comment: a line with a bracket is taken for a header, and any other one stops
the loop.
-/

namespace FastInAHurry

open StdString

namespace TomlParser

/-- The names of the headers, as they are stored. -/
def headers (lines : List Line) : List Str :=
  lines.filterMap fun
    | .header name => some (trim whitespace name)
    | _ => none

/-- The line is neither blank nor a comment. -/
def significant (raw : Str) : Bool :=
  !(trim whitespace raw).isEmpty && !decide ((trim whitespace raw).head? = some '#')

/-! ## One line -/

theorem processLine_of_not_significant (P : TomlParser) (cur : Str) {raw : Str}
    (h : ¬significant raw = true) : processLine P cur raw = .ok (P, cur) := by
  rw [processLine_readLine, readLine]
  by_cases hempty : (trim whitespace raw).isEmpty = true
  · rw [if_pos hempty]
    rfl
  · have hcomment : (trim whitespace raw).head? = some '#' := by
      by_contra hne
      exact h (by simp [significant, hempty, hne])
    rw [if_neg hempty, if_pos hcomment]
    rfl

theorem readLine_of_significant {raw : Str} (h : significant raw = true) :
    readLine (trim whitespace raw)
      = if '[' ∈ trim whitespace raw then
          some (.header (before ']' (after '[' (trim whitespace raw))))
        else if '=' ∈ trim whitespace raw then
          some (.entry (before '=' (trim whitespace raw))
            (before '#' (after '=' (trim whitespace raw))))
        else none := by
  rw [significant, Bool.and_eq_true, Bool.not_eq_true', Bool.not_eq_true',
    decide_eq_false_iff_not] at h
  rw [readLine, if_neg (by simp [h.1]), if_neg h.2]

/-- A line with a bracket adds a section. -/
theorem processLine_of_bracket (P : TomlParser) (cur : Str) {raw : Str} (h : significant raw = true)
    (hbracket : '[' ∈ raw) :
    ∃ name, processLine P cur raw
      = .ok ({ P with mSections := P.mSections ++ [name] }, name) := by
  rw [processLine_readLine, readLine_of_significant h,
    if_pos ((mem_trim_iff (by decide)).mpr hbracket)]
  exact ⟨_, rfl⟩

/-- Any other line stops the loop as long as there is no section. -/
theorem processLine_of_no_bracket (P : TomlParser) {raw : Str} (h : significant raw = true)
    (hbracket : '[' ∉ raw) : processLine P [] raw = .error .parseError := by
  rw [processLine_readLine, readLine_of_significant h,
    if_neg (mt (mem_trim_iff (by decide)).mp hbracket)]
  split
  · rfl
  · rfl

/-! ## The loop -/

/-- The loop has read these lines and stops at the next one. -/
structure StopsBehind (P : TomlParser) (cur : Str) (read : List Str) (raws : List Str) : Prop where
  ok : (extractLoop P cur read).2 = .ok true
  bad : ∃ bad rest e, raws = read ++ bad :: rest ∧
    (extractLoop P cur (read ++ [bad])).2 = .error e

/-- A loop that stops at a line leaves what it leaves of the lines before. -/
theorem extractLoop_error {P : TomlParser} {cur : Str} {raws : List Str} {e : TomlParserError}
    (h : (extractLoop P cur raws).2 = .error e) :
    ∃ read, StopsBehind P cur read raws ∧
      (extractLoop P cur raws).1 = (extractLoop P cur read).1 := by
  induction raws generalizing P cur with
  | nil => cases h
  | cons raw raws ih =>
    rw [extractLoop] at h ⊢
    rcases hline : processLine P cur raw with e' | ⟨P', cur'⟩
    · refine ⟨[], ⟨rfl, raw, raws, e', rfl, ?_⟩, rfl⟩
      rw [List.nil_append, extractLoop, hline]
    · rw [hline] at h
      obtain ⟨read, ⟨hok, bad, rest, e', hraws, hbad⟩, heq⟩ := ih h
      refine ⟨raw :: read, ⟨?_, bad, rest, e', by rw [hraws, List.cons_append], ?_⟩, ?_⟩
      · rw [extractLoop, hline]
        exact hok
      · rw [List.cons_append, extractLoop, hline]
        exact hbad
      · rw [extractLoop, hline]
        exact heq

/-- A successful loop adds the sections of the headers. -/
theorem mSections_extractLoop {P : TomlParser} {cur : Str} {raws : List Str} {b : Bool}
    (hok : (extractLoop P cur raws).2 = .ok b) :
    (extractLoop P cur raws).1.mSections = P.mSections ++ headers (readLines raws) := by
  refine extractLoop_ok_induct (motive := fun P _ lines Q ↦
    Q.mSections = P.mSections ++ headers lines) (fun P _ ↦ (List.append_nil _).symm) ?_ hok
  intro P cur line P' cur' lines Q hline ih
  cases line with
  | blank | comment =>
    obtain ⟨rfl, rfl⟩ := Prod.mk.inj (Except.ok.inj hline)
    exact ih
  | header name =>
    obtain ⟨rfl, rfl⟩ := Prod.mk.inj (Except.ok.inj hline)
    refine ih.trans ?_
    rw [List.append_assoc]
    rfl
  | entry key value =>
    obtain ⟨rfl, rfl⟩ := eq_emplace_of_apply hline
    exact ih

theorem isPrefix_mSections (P : TomlParser) (cur : Str) (raws : List Str) :
    P.mSections <+: (extractLoop P cur raws).1.mSections := by
  rcases h : (extractLoop P cur raws).2 with e | b
  · obtain ⟨read, hstop, heq⟩ := extractLoop_error h
    rw [heq, mSections_extractLoop hstop.ok]
    exact List.prefix_append _ _
  · rw [mSections_extractLoop h]
    exact List.prefix_append _ _

/-- A loop that fails changes nothing exactly if it stops at its first significant line. -/
theorem extractLoop_unchanged_iff {P : TomlParser} {raws : List Str} {e : TomlParserError}
    (h : (extractLoop P [] raws).2 = .error e) :
    ((∀ s k, (extractLoop P [] raws).1.getValue s k = P.getValue s k) ∧
        (extractLoop P [] raws).1.mSections = P.mSections) ↔
      ∀ raw ∈ raws.find? significant, '[' ∉ raw := by
  induction raws with
  | nil => cases h
  | cons raw raws ih =>
    by_cases hsig : significant raw = true
    · rw [List.find?_cons_of_pos hsig]
      by_cases hbracket : '[' ∈ raw
      · obtain ⟨name, hline⟩ := processLine_of_bracket P [] hsig hbracket
        refine iff_of_false (fun hsame ↦ ?_) fun hno ↦ hno raw rfl hbracket
        have hsections := hsame.2
        rw [extractLoop, hline] at hsections
        -- the section of this line is there from now on
        have hlength := (isPrefix_mSections { P with mSections := P.mSections ++ [name] } name
          raws).length_le
        simp only at hlength hsections
        rw [hsections, List.length_append, List.length_singleton] at hlength
        omega
      · have hline := processLine_of_no_bracket P hsig hbracket
        rw [extractLoop, hline]
        refine iff_of_true ⟨fun _ _ ↦ rfl, rfl⟩ fun raw' hraw' ↦ ?_
        rwa [← Option.some.inj hraw']
    · rw [List.find?_cons_of_neg hsig]
      rw [extractLoop, processLine_of_not_significant P [] hsig] at h ⊢
      exact ih h

/-! ## The call -/

/-- What a failed load leaves of a file that was opened. -/
theorem load_failed_some {P : TomlParser} {text : Str} {e : TomlParserError}
    (h : (P.load (some text)).2 = .error e) :
    ∃ read, StopsBehind P [] read (getlines text) ∧
      (∀ s k, (P.load (some text)).1.getValue s k
        = (P.getValue s k).or (lookup (entries [] (readLines read)) s k)) ∧
      (P.load (some text)).1.mSections = P.mSections ++ headers (readLines read) := by
  rcases load_cases P text with ⟨e', he, hload⟩ | ⟨b, -, hload⟩
  · obtain ⟨read, hstop, heq⟩ := extractLoop_error he
    refine ⟨read, hstop, fun s k ↦ ?_, ?_⟩
    · rw [hload, extractKeys, heq]
      exact getValue_extractLoop_readLines hstop.ok s k
    · rw [hload, extractKeys, heq]
      exact mSections_extractLoop hstop.ok
  · rw [hload] at h
    cases h

/-- **A load that fails.** The parser keeps what it has. What it gets are the entries and sections
of the lines in front of the one the loop stopped at, and it is left as it was exactly if the file
could not be opened or its first line that is neither blank nor a comment has no bracket. -/
theorem load_failed (P : TomlParser) (file : Option Str) {e : TomlParserError}
    (h : (P.load file).2 = .error e) :
    (∀ s k v, P.getValue s k = some v → (P.load file).1.getValue s k = some v) ∧
      P.mSections <+: (P.load file).1.mSections ∧
      (∀ text ∈ file, ∃ read, StopsBehind P [] read (getlines text) ∧
        (∀ s k, (P.load file).1.getValue s k
          = (P.getValue s k).or (lookup (entries [] (readLines read)) s k)) ∧
        (P.load file).1.mSections = P.mSections ++ headers (readLines read)) ∧
      (((∀ s k, (P.load file).1.getValue s k = P.getValue s k) ∧
          (P.load file).1.mSections = P.mSections) ↔
        ∀ text ∈ file, ∀ raw ∈ (getlines text).find? significant, '[' ∉ raw) := by
  cases file with
  | none =>
    exact ⟨fun _ _ _ hv ↦ hv, List.prefix_refl _, by simp, by simp [load]⟩
  | some text =>
    obtain ⟨read, hstop, hvalue, hsections⟩ := load_failed_some h
    refine ⟨fun s k v hv ↦ ?_, ?_, ?_, ?_⟩
    · rw [hvalue, hv, Option.some_or]
    · rw [hsections]
      exact List.prefix_append _ _
    · intro text' htext
      rw [← Option.some.inj htext]
      exact ⟨read, hstop, hvalue, hsections⟩
    · rcases load_cases P text with ⟨e', he, hload⟩ | ⟨b, -, hload⟩
      · rw [hload, extractKeys, extractLoop_unchanged_iff he]
        simp
      · rw [hload] at h
        cases h

/-- A file that is stopped at its second significant line has left its section behind. -/
theorem load_failed_behind_header :
    (empty.load (some "[net]\nport=80\nbad".toList)).2 = .error .parseError ∧
      ¬((empty.load (some "[net]\nport=80\nbad".toList)).1.getValue "net".toList "port".toList
          = empty.getValue "net".toList "port".toList) ∧
      ¬(empty.load (some "[net]\nport=80\nbad".toList)).1.mSections = empty.mSections := by
  decide +kernel

/-- Without a header nothing is stored. -/
theorem load_failed_no_header :
    (∀ s k, (empty.load (some "# ports\nport=80\n[net]".toList)).1.getValue s k
        = empty.getValue s k) ∧
      (empty.load (some "# ports\nport=80\n[net]".toList)).1.mSections = empty.mSections := by
  have hfail : (empty.load (some "# ports\nport=80\n[net]".toList)).2 = .error .parseError := by
    decide +kernel
  exact (load_failed empty _ hfail).2.2.2.mpr (by decide +kernel)

end TomlParser

end FastInAHurry
