import FastInAHurry.Utils.TomlGrammar

/-!
# Loading a file again

`load` adds what it reads to the maps of the parser. It does not empty them first, and `emplace`
keeps a value that is already there, so after a second load a section and key still have the value
of the first one, whatever the second file says.

To compare two loads the reading of a file is separated from the parser it is read into. Every line
that does not stop the parser says something: `readLine` is that, for any text and not only for the
lines of the grammar. The entries of a file are those of its lines, and a load puts them behind what
the parser already has.
-/

namespace FastInAHurry

open StdString

namespace TomlParser

/-! ## What any line says -/

/-- What a trimmed line says, and `none` for a line the parser stops at. The bracket of a header may
stand anywhere in the line and need not be closed. -/
def readLine (line : Str) : Option Line :=
  if line.isEmpty then some .blank
  else if line.head? = some '#' then some .comment
  else if '[' ∈ line then some (.header (before ']' (after '[' line)))
  else if '=' ∈ line then some (.entry (before '=' line) (before '#' (after '=' line)))
  else none

/-- The lines of a file. -/
def readLines (raws : List Str) : List Line :=
  raws.filterMap fun raw ↦ readLine (trim whitespace raw)

/-- The entries of a file, as they are looked up. -/
def fileEntries (file : Str) : List Entry := entries [] (readLines (getlines file))

theorem sectionOf_eq (l r : Str) :
    sectionOf (l ++ '[' :: r) l.length = trim whitespace (before ']' r) := by
  rw [sectionOf, substr_append_right, substr_find, eraseRight_eraseLeft]

/-- Behind the first `#` there is nothing, or a comment. -/
theorem eq_before_append (c : Char) (s : Str) :
    ∃ tail, s = before c s ++ tail ∧ (tail = [] ∨ ∃ text, tail = c :: text) := by
  by_cases hc : c ∈ s
  · obtain ⟨l, r, rfl, hl⟩ := List.eq_append_cons_of_mem hc
    exact ⟨c :: r, by rw [before_append hl], Or.inr ⟨r, rfl⟩⟩
  · exact ⟨[], by rw [before_of_notMem hc, List.append_nil], Or.inl rfl⟩

theorem valueOf_eq (key r : Str) :
    valueOf (key ++ '=' :: r) key.length = unquote (trim whitespace (before '#' r)) := by
  obtain ⟨tail, hr, htail⟩ := eq_before_append '#' r
  -- only what is in front of the `#` is rewritten
  conv_lhs => rw [hr]
  exact valueOf_entry (notMem_before '#' r) htail

/-- What the body of the loop does with a line that says this, and with one that says nothing. -/
def Line.applyOr (P : TomlParser) (currentSection : Str) :
    Option Line → Except TomlParserError (TomlParser × Str)
  | none => .error .parseError
  | some line => line.apply P currentSection

theorem processTrimmed_readLine (P : TomlParser) (cur : Str) {s : Str} (hs : s ≠ []) :
    processTrimmed P cur s = Line.applyOr P cur (readLine s) := by
  rw [processTrimmed, readLine, if_neg (mt List.isEmpty_iff.mp hs)]
  by_cases hcomment : s.head? = some '#'
  · rw [if_pos hcomment, if_pos hcomment]
    rfl
  rw [if_neg hcomment, if_neg hcomment]
  by_cases hbracket : '[' ∈ s
  · obtain ⟨l, r, rfl, hl⟩ := List.eq_append_cons_of_mem hbracket
    rw [if_pos hbracket, after_append hl]
    simp only [find_append hl, sectionOf_eq]
    rfl
  rw [if_neg hbracket]
  by_cases hequal : '=' ∈ s
  · obtain ⟨l, r, rfl, hl⟩ := List.eq_append_cons_of_mem hequal
    rw [if_pos hequal, after_append hl, before_append hl]
    simp only [find_eq_none hbracket, find_append hl, keyOf_entry, valueOf_eq]
    rfl
  · rw [if_neg hequal]
    simp only [find_eq_none hbracket, find_eq_none hequal]
    rfl

/-- **Any line.** The body of the loop does what the line says. -/
theorem processLine_readLine (P : TomlParser) (cur raw : Str) :
    processLine P cur raw = Line.applyOr P cur (readLine (trim whitespace raw)) := by
  by_cases hnil : trim whitespace raw = []
  · rw [hnil, processLine_eq (hnil ▸ Reads.blank)]
    rfl
  · have hleft : ¬(eraseLeft raw).isEmpty = true := by
      intro hempty
      rw [← eraseRight_eraseLeft, List.isEmpty_iff.mp hempty] at hnil
      exact hnil rfl
    rw [processLine, if_neg hleft, eraseRight_eraseLeft]
    exact processTrimmed_readLine P cur hnil

/-! ## What a load leaves -/

/-- Whether the loop succeeds does not depend on what the parser has. -/
theorem extractLoop_snd (P Q : TomlParser) (cur : Str) (raws : List Str) :
    (extractLoop P cur raws).2 = (extractLoop Q cur raws).2 := by
  induction raws generalizing P Q cur with
  | nil => rfl
  | cons raw raws ih =>
    rw [extractLoop, extractLoop, processLine_readLine, processLine_readLine]
    rcases readLine (trim whitespace raw) with _ | _ | _ | name | ⟨key, value⟩
    · rfl
    · exact ih P Q cur
    · exact ih P Q cur
    · exact ih _ _ _
    · simp only [Line.applyOr, Line.apply]
      split_ifs
      · rfl
      · exact ih _ _ cur

theorem eq_emplace_of_apply {P P' : TomlParser} {cur cur' key value : Str}
    (h : (Line.entry key value).apply P cur = .ok (P', cur')) :
    P.emplace cur (trim whitespace key) (unquote (trim whitespace value)) = P' ∧ cur = cur' := by
  rw [Line.apply] at h
  split at h
  · cases h
  · exact Prod.mk.inj (Except.ok.inj h)

/-- **Induction along a successful loop.** It does what the lines say, one after the other. -/
theorem extractLoop_ok_induct {motive : TomlParser → Str → List Line → TomlParser → Prop}
    (hnil : ∀ P cur, motive P cur [] P)
    (hcons : ∀ P cur line P' cur' lines Q, line.apply P cur = .ok (P', cur') →
      motive P' cur' lines Q → motive P cur (line :: lines) Q)
    {P : TomlParser} {cur : Str} {raws : List Str} {b : Bool}
    (hok : (extractLoop P cur raws).2 = .ok b) :
    motive P cur (readLines raws) (extractLoop P cur raws).1 := by
  induction raws generalizing P cur with
  | nil => exact hnil P cur
  | cons raw raws ih =>
    rw [readLines, List.filterMap_cons]
    rw [extractLoop, processLine_readLine] at hok ⊢
    generalize readLine (trim whitespace raw) = read at hok ⊢
    cases read with
    | none => cases hok
    | some line =>
      rw [Line.applyOr.eq_def] at hok ⊢
      dsimp only at hok ⊢
      rcases hline : line.apply P cur with e | ⟨P', cur'⟩
      · rw [hline] at hok
        cases hok
      · rw [hline] at hok
        exact hcons P cur line P' cur' _ _ hline (ih hok)

/-- A successful loop leaves the entries of the lines behind what was there before. -/
theorem getValue_extractLoop_readLines {P : TomlParser} {cur : Str} {raws : List Str} {b : Bool}
    (hok : (extractLoop P cur raws).2 = .ok b) (s k : Str) :
    (extractLoop P cur raws).1.getValue s k =
      (P.getValue s k).or (lookup (entries cur (readLines raws)) s k) := by
  refine extractLoop_ok_induct (motive := fun P cur lines Q ↦
    Q.getValue s k = (P.getValue s k).or (lookup (entries cur lines) s k))
    (fun P cur ↦ Option.or_none.symm) ?_ hok
  intro P cur line P' cur' lines Q hline ih
  cases line with
  | blank | comment | header name =>
    obtain ⟨rfl, rfl⟩ := Prod.mk.inj (Except.ok.inj hline)
    exact ih
  | entry key value =>
    obtain ⟨rfl, rfl⟩ := eq_emplace_of_apply hline
    -- `emplace` keeps what is there, so the new entry goes behind it
    rw [ih, getValue_emplace, Option.or_assoc, entries, lookup_cons]

/-- `load` keeps the parser that `extract_keys` leaves and succeeds if it does. -/
theorem load_cases (P : TomlParser) (file : Str) :
    (∃ e, (P.extractKeys file).2 = .error e ∧
        P.load (some file) = ((P.extractKeys file).1, .error .parseError)) ∨
      ∃ b, (P.extractKeys file).2 = .ok b ∧
        P.load (some file) = ((P.extractKeys file).1, .ok true) := by
  rcases h : P.extractKeys file with ⟨P', e | b⟩
  · exact Or.inl ⟨e, rfl, by rw [load, h]⟩
  · exact Or.inr ⟨b, rfl, by rw [load, h]⟩

/-- A file that one parser loads, every parser loads. -/
theorem load_snd (P Q : TomlParser) (file : Str) :
    (P.load (some file)).2 = (Q.load (some file)).2 := by
  have hsame : (P.extractKeys file).2 = (Q.extractKeys file).2 := extractLoop_snd P Q [] _
  rcases load_cases P file with ⟨e, he, hP⟩ | ⟨b, hb, hP⟩
  · rcases load_cases Q file with ⟨e', -, hQ⟩ | ⟨b', hb', -⟩
    · rw [hP, hQ]
    · rw [hsame, hb'] at he
      cases he
  · rcases load_cases Q file with ⟨e', he', -⟩ | ⟨b', -, hQ⟩
    · rw [hsame, he'] at hb
      cases hb
    · rw [hP, hQ]

/-- **One load.** The entries of the file come behind what the parser has. -/
theorem getValue_load {P : TomlParser} {file : Str} (hok : (P.load (some file)).2 = .ok true)
    (s k : Str) :
    (P.load (some file)).1.getValue s k = (P.getValue s k).or (lookup (fileEntries file) s k) := by
  rcases load_cases P file with ⟨e, -, hload⟩ | ⟨b, hb, hload⟩
  · rw [hload] at hok
    cases hok
  · rw [hload]
    exact getValue_extractLoop_readLines hb s k

/-- A parser that has loaded nothing finds what the file says. -/
theorem getValue_load_empty {file : Str} (hok : (empty.load (some file)).2 = .ok true)
    (s k : Str) : (empty.load (some file)).1.getValue s k = lookup (fileEntries file) s k :=
  getValue_load hok s k

/-- What the first load found, the second one does not change. -/
theorem getValue_reload {F₁ F₂ : Str} (h₁ : (empty.load (some F₁)).2 = .ok true)
    (h₂ : (empty.load (some F₂)).2 = .ok true) (s k : Str) :
    ((empty.load (some F₁)).1.load (some F₂)).1.getValue s k =
      (lookup (fileEntries F₁) s k).or (lookup (fileEntries F₂) s k) := by
  rw [load_snd empty (empty.load (some F₁)).1] at h₂
  rw [getValue_load h₂, getValue_load_empty h₁]

/-- **Loading again.** A parser that has loaded `F₁` and then loads `F₂` answers like one that has
loaded only `F₂` exactly if every section and key that `F₁` gives a value has this value in `F₂`
too. A value that `F₂` changes is not seen, and an entry that it does not have stays. -/
theorem reload_iff (F₁ F₂ : Str) (h₁ : (empty.load (some F₁)).2 = .ok true)
    (h₂ : (empty.load (some F₂)).2 = .ok true) :
    (∀ s k, ((empty.load (some F₁)).1.load (some F₂)).1.getValue s k =
        (empty.load (some F₂)).1.getValue s k) ↔
      ∀ s k v, lookup (fileEntries F₁) s k = some v → lookup (fileEntries F₂) s k = some v := by
  refine forall_congr' fun s ↦ forall_congr' fun k ↦ ?_
  rw [getValue_reload h₁ h₂, getValue_load_empty h₂]
  rcases hfirst : lookup (fileEntries F₁) s k with _ | v
  · exact iff_of_true Option.none_or fun v hv ↦ nomatch hv
  · rw [Option.some_or]
    constructor
    · rintro heq w hw
      exact heq.symm.trans hw
    · intro hall
      exact (hall v rfl).symm

/-- A file that only adds an entry loads, and leaves the parser with what it says. -/
theorem reload_iff_added :
    (empty.load (some "[net]\nhost=a\nport=80".toList)).2 = .ok true ∧
      ∀ s k, ((empty.load (some "[net]\nport=80".toList)).1.load
          (some "[net]\nhost=a\nport=80".toList)).1.getValue s k =
        (empty.load (some "[net]\nhost=a\nport=80".toList)).1.getValue s k := by
  have hload : (empty.load (some "[net]\nhost=a\nport=80".toList)).2 = .ok true := by
    decide +kernel
  refine ⟨hload, (reload_iff _ _ (by decide +kernel) hload).mpr fun s k v hv ↦ ?_⟩
  have hfirst : fileEntries "[net]\nport=80".toList =
      [⟨"net".toList, "port".toList, "80".toList⟩] := by decide +kernel
  have hsecond : fileEntries "[net]\nhost=a\nport=80".toList =
      [⟨"net".toList, "host".toList, "a".toList⟩, ⟨"net".toList, "port".toList, "80".toList⟩] := by
    decide +kernel
  rw [hfirst, lookup_cons] at hv
  rw [hsecond, lookup_cons, lookup_cons]
  by_cases hport : "net".toList = s ∧ "port".toList = k
  · obtain ⟨rfl, rfl⟩ := hport
    exact hv
  · rw [if_neg hport] at hv
    cases hv

/-- The port is changed in the file, and the parser that loads it again still has the old one; a
parser that loads only the new file has the new one. -/
theorem reload_changed :
    (empty.load (some "[net]\nport=80".toList)).2 = .ok true ∧
      (empty.load (some "[net]\nport=81".toList)).2 = .ok true ∧
      ((empty.load (some "[net]\nport=80".toList)).1.load
        (some "[net]\nport=81".toList)).1.getValue "net".toList "port".toList =
          some "80".toList ∧
      (empty.load (some "[net]\nport=81".toList)).1.getValue "net".toList "port".toList =
        some "81".toList := by
  decide +kernel

end TomlParser

end FastInAHurry
