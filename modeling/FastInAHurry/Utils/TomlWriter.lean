import FastInAHurry.Utils.TomlQuotes

/-!
# Writing a configuration

A configuration is a list of sections with their settings; a text or a number is assigned to each
key. It is written as a file in any layout: indented or not, with blank lines, with comments on
lines of their own or behind a header or a value, with either quote, each line with blanks and a
carriage return before its newline or without, and the last line with a newline or without. The
types carry what a writer has to keep to, so that every value of them is a file that can be written:
a name is a word, a text has no `#`, no `[` and no newline, a comment behind something has no `[`.

Loading such a file succeeds and leaves exactly its settings, the layout is not seen. A number is
written in decimal and comes back from `get_int` if it fits into an `int`.
-/

namespace FastInAHurry

open StdString

namespace TomlParser

/-! ## What is written -/

/-- Spaces and tabs. -/
structure Gap where
  text : Str
  blank : ∀ c ∈ text, c = ' ' ∨ c = '\t'

/-- The name of a section or a key. -/
structure Name where
  text : Str
  ne_nil : text ≠ []
  word : ∀ c ∈ text, isWord c = true

/-- A comment behind a header or a value. -/
structure Note where
  gap : Gap
  text : Str
  newline : '\n' ∉ text
  bracket : '[' ∉ text

/-- A text with the quote it is written in, or a number. -/
inductive Value where
  | quoted (q : Char) (v : Str) (quote : IsQuote q) (newline : '\n' ∉ v) (hash : '#' ∉ v)
      (bracket : '[' ∉ v)
  | number (i : ℤ)

/-- A line that says nothing. -/
inductive Filler where
  | blank (gap : Gap)
  | comment (gap : Gap) (text : Str) (newline : '\n' ∉ text)

structure Setting where
  indent : Gap
  key : Name
  gap : Gap
  gap' : Gap
  value : Value
  note : Option Note

inductive Row where
  | filler (filler : Filler)
  | setting (setting : Setting)

/-- A header and the rows behind it. -/
structure Section where
  indent : Gap
  gap : Gap
  name : Name
  gap' : Gap
  note : Option Note
  rows : List Row

/-- What is between the text of a line and its newline. -/
structure LineEnd where
  gap : Gap
  carriageReturn : Bool

structure Document where
  preamble : List Filler
  sections : List Section
  /-- How each line ends, counted from 0. -/
  ends : ℕ → LineEnd
  /-- The last line has a newline, too. -/
  finalNewline : Bool

/-! ## The file -/

def Value.text : Value → Str
  | .quoted q v _ _ _ _ => q :: (v ++ [q])
  | .number i => decimal i

/-- What is stored for a value. -/
def Value.stored : Value → Str
  | .quoted _ v _ _ _ _ => v
  | .number i => decimal i

/-- What is behind a header or a value. -/
def noteText : Option Note → Str
  | none => []
  | some note => note.gap.text ++ '#' :: note.text

def Filler.line : Filler → Str
  | .blank gap => gap.text
  | .comment gap text _ => gap.text ++ '#' :: text

def Setting.line (e : Setting) : Str :=
  e.indent.text ++ (e.key.text ++ e.gap.text ++ '=' ::
    (e.gap'.text ++ (e.value.text ++ noteText e.note)))

def Row.line : Row → Str
  | .filler f => f.line
  | .setting e => e.line

def Section.line (s : Section) : Str :=
  s.indent.text ++ '[' ::
    (s.gap.text ++ (s.name.text ++ s.gap'.text) ++ ']' :: noteText s.note)

def Document.lines (D : Document) : List Str :=
  D.preamble.map Filler.line ++ D.sections.flatMap fun s ↦ s.line :: s.rows.map Row.line

def LineEnd.text (e : LineEnd) : Str := e.gap.text ++ if e.carriageReturn then ['\r'] else []

/-- The lines with all that is before their newlines. -/
def Document.rawLines (D : Document) : List Str :=
  D.lines.mapIdx fun n line ↦ line ++ (D.ends n).text

/-- The lines, each with a newline. -/
def unlines (lines : List Str) : Str := lines.flatMap fun line ↦ line ++ ['\n']

def Document.text (D : Document) : Str :=
  if D.finalNewline then unlines D.rawLines else (unlines D.rawLines).dropLast

theorem Gap.mem_whitespace (g : Gap) : ∀ c ∈ g.text, c ∈ whitespace := by
  intro c hc
  rcases g.blank c hc with rfl | rfl <;> decide

theorem Gap.notMem (g : Gap) {c : Char} (hc : c ≠ ' ') (hc' : c ≠ '\t') : c ∉ g.text := by
  intro hmem
  rcases g.blank c hmem with rfl | rfl
  · exact hc rfl
  · exact hc' rfl

theorem Name.notMem (n : Name) {c : Char} (hc : isWord c = false) : c ∉ n.text :=
  notMem_of_isWord n.word hc

/-- A value has none of the characters that end it or its line. -/
theorem Value.notMem (v : Value) {c : Char} (hc : c ∈ ['\n', '#', '[']) : c ∉ v.text := by
  cases v with
  | quoted q v quote newline hash bracket =>
    have hq : c ≠ q := by
      rintro rfl
      rcases quote with rfl | rfl <;> exact absurd hc (by decide)
    have hv : c ∉ v := by
      simp only [List.mem_cons, List.not_mem_nil, or_false] at hc
      rcases hc with rfl | rfl | rfl
      · exact newline
      · exact hash
      · exact bracket
    simp [Value.text, hq, hv]
  | number i =>
    simp only [List.mem_cons, List.not_mem_nil, or_false] at hc
    rcases hc with rfl | rfl | rfl <;> exact notMem_decimal (by decide) (by decide) i

theorem notMem_noteText {note : Option Note} {c : Char} (hc : c = '\n' ∨ c = '[') :
    c ∉ noteText note := by
  cases note with
  | none => exact List.not_mem_nil
  | some note =>
    have hgap : c ∉ note.gap.text := by
      rcases hc with rfl | rfl <;> exact note.gap.notMem (by decide) (by decide)
    have htext : c ∉ note.text := by
      rcases hc with rfl | rfl
      · exact note.newline
      · exact note.bracket
    have hhash : c ≠ '#' := by
      rcases hc with rfl | rfl <;> decide
    simp [noteText, hgap, htext, hhash]

/-! ## What a written line says -/

def Filler.meaning : Filler → Line
  | .blank _ => .blank
  | .comment .. => .comment

/-- The value of the line goes up to its comment, or is trimmed with the line. -/
def Setting.meaning (e : Setting) : Line :=
  .entry (e.key.text ++ e.gap.text)
    (match e.note with
      | none => (e.gap'.text ++ e.value.text).rdropWhile whitespace.contains
      | some note => e.gap'.text ++ (e.value.text ++ note.gap.text))

def Row.meaning : Row → Line
  | .filler f => f.meaning
  | .setting e => e.meaning

def Section.meaning (s : Section) : Line := .header (s.gap.text ++ (s.name.text ++ s.gap'.text))

/-- Blanks in front of a character that is none are trimmed. -/
theorem trim_indent (g : Gap) {c : Char} (hc : c ∉ whitespace) (rest : Str) :
    trim whitespace (g.text ++ c :: rest) = c :: rest.rdropWhile whitespace.contains := by
  have hnil : g.text.dropWhile whitespace.contains = [] :=
    List.dropWhile_eq_nil_iff.mpr fun x hx ↦ List.contains_iff_mem.mpr (g.mem_whitespace x hx)
  rw [trim_append_cons hc, hnil, List.nil_append]

theorem Filler.reads (f : Filler) : Reads (trim whitespace f.line) f.meaning := by
  cases f with
  | blank gap =>
    have hnil : trim whitespace gap.text = [] := trim_eq_nil_iff.mpr gap.mem_whitespace
    rw [Filler.line, hnil]
    exact .blank
  | comment gap text newline =>
    rw [Filler.line, trim_indent gap (by decide)]
    exact .comment _

theorem Section.reads (s : Section) : Reads (trim whitespace s.line) s.meaning := by
  have hclosed : ']' ∉ s.gap.text ++ (s.name.text ++ s.gap'.text) := by
    simp [s.gap.notMem, s.gap'.notMem, s.name.notMem (c := ']') rfl]
  obtain ⟨c, cs, hname⟩ := List.exists_cons_of_ne_nil s.name.ne_nil
  have hc : c ∈ s.name.text := hname ▸ List.mem_cons_self
  rw [Section.line, trim_indent s.indent (by decide), rdropWhile_append_cons (by decide)]
  refine .header _ _ hclosed ⟨c, ?_, fun hspace ↦ ?_⟩
  · exact List.mem_append_right _ (List.mem_append_left _ hc)
  · exact notMem_of_isWord s.name.word (isWord_whitespace c hspace) hc

theorem Setting.bracket_notMem (e : Setting) : '[' ∉ e.line := by
  simp [Setting.line, e.indent.notMem, e.gap.notMem, e.gap'.notMem,
    e.key.notMem (c := '[') rfl, e.value.notMem (c := '[') (by decide),
    (notMem_noteText (Or.inr rfl) : '[' ∉ noteText e.note)]

/-- The line of a setting behind its indent, up to its last character. -/
theorem Setting.trim_line (e : Setting) :
    trim whitespace e.line = e.key.text ++ e.gap.text ++ '=' ::
      (e.gap'.text ++ (e.value.text ++ noteText e.note)).rdropWhile whitespace.contains := by
  obtain ⟨c, cs, hkey⟩ := List.exists_cons_of_ne_nil e.key.ne_nil
  have hc : c ∉ whitespace := fun hspace ↦
    notMem_of_isWord e.key.word (isWord_whitespace c hspace) (hkey ▸ List.mem_cons_self)
  rw [Setting.line, hkey, List.cons_append, List.cons_append, trim_indent e.indent hc,
    rdropWhile_append_cons (by decide)]
  rfl

theorem Setting.reads (e : Setting) : Reads (trim whitespace e.line) e.meaning := by
  have hbracket : '[' ∉ trim whitespace e.line := by
    rw [mem_trim_iff (by decide)]
    exact e.bracket_notMem
  have hequal : '=' ∉ e.key.text ++ e.gap.text := by
    simp [e.gap.notMem, e.key.notMem (c := '=') rfl]
  have hstart : (e.key.text ++ e.gap.text).head? ≠ some '#' := by
    obtain ⟨c, cs, hkey⟩ := List.exists_cons_of_ne_nil e.key.ne_nil
    have hc : '#' ≠ c := by
      rintro rfl
      exact e.key.notMem (c := '#') rfl (hkey ▸ List.mem_cons_self)
    simpa [hkey] using hc.symm
  have hhash : '#' ∉ e.value.text := e.value.notMem (by decide)
  rw [trim_line] at hbracket ⊢
  rw [Setting.meaning]
  cases hnote : e.note with
  | none =>
    have hvalue : '#' ∉ (e.gap'.text ++ e.value.text).rdropWhile whitespace.contains := fun h ↦ by
      have hmem := (List.rdropWhile_prefix _ _).subset h
      simp [e.gap'.notMem, hhash] at hmem
    rw [hnote, noteText, List.append_nil] at hbracket
    rw [noteText, List.append_nil]
    have hreads := Reads.entry _ _ [] (Or.inl rfl) (by rwa [List.append_nil]) hequal hstart hvalue
    rwa [List.append_nil] at hreads
  | some note =>
    have hvalue : '#' ∉ e.gap'.text ++ (e.value.text ++ note.gap.text) := by
      simp [e.gap'.notMem, hhash, note.gap.notMem]
    have htail : (e.gap'.text ++ (e.value.text ++ noteText (some note))).rdropWhile
        whitespace.contains = e.gap'.text ++ (e.value.text ++ note.gap.text) ++
          '#' :: note.text.rdropWhile whitespace.contains := by
      rw [noteText, ← List.append_assoc e.value.text, ← List.append_assoc e.gap'.text,
        rdropWhile_append_cons (by decide)]
    rw [hnote, htail] at hbracket
    rw [htail]
    exact .entry _ _ _ (Or.inr ⟨_, rfl⟩) hbracket hequal hstart hvalue

theorem Row.reads (r : Row) : Reads (trim whitespace r.line) r.meaning := by
  cases r with
  | filler f => exact f.reads
  | setting e => exact e.reads

/-! ## What the file says -/

def Document.meaning (D : Document) : List Line :=
  D.preamble.map Filler.meaning ++ D.sections.flatMap fun s ↦ s.meaning :: s.rows.map Row.meaning

theorem Document.reads (D : Document) :
    List.Forall₂ (fun raw line ↦ Reads (trim whitespace raw) line) D.lines D.meaning := by
  have hmap : ∀ {α : Type} (f : α → Str) (g : α → Line),
      (∀ x, Reads (trim whitespace (f x)) (g x)) → ∀ l : List α,
        List.Forall₂ (fun raw line ↦ Reads (trim whitespace raw) line) (l.map f) (l.map g) := by
    intro α f g h l
    rw [List.forall₂_map_left_iff, List.forall₂_map_right_iff]
    exact List.forall₂_same.mpr fun x _ ↦ h x
  rw [Document.lines, Document.meaning]
  refine List.rel_append (hmap _ _ Filler.reads _) ?_
  induction D.sections with
  | nil => exact .nil
  | cons s sections ih =>
    rw [List.flatMap_cons, List.flatMap_cons]
    refine List.rel_append (List.Forall₂.cons ?_ (hmap _ _ Row.reads s.rows)) ih
    exact s.reads

theorem LineEnd.mem_whitespace (e : LineEnd) : ∀ c ∈ e.text, c ∈ whitespace := by
  intro c hc
  rcases List.mem_append.mp hc with hc | hc
  · exact e.gap.mem_whitespace c hc
  · split at hc
    · obtain rfl := List.mem_singleton.mp hc
      decide
    · cases hc

/-- A header with a carriage return behind it, and a setting at the end of the file. -/
example :
    let gap : Gap := ⟨[], by simp⟩
    let name : Name := ⟨['n'], by simp, List.all_eq_true.mp (by decide)⟩
    let key : Name := ⟨['k'], by simp, List.all_eq_true.mp (by decide)⟩
    let value : Value := .quoted '"' ['v'] (Or.inl rfl) (by decide) (by decide) (by decide)
    Document.text ⟨[], [⟨gap, gap, name, gap, none, [.setting ⟨gap, key, gap, gap, value, none⟩]⟩],
      fun n ↦ ⟨gap, n == 0⟩, false⟩ = "[n]\r\nk=\"v\"".toList := by decide

end TomlParser

end FastInAHurry
