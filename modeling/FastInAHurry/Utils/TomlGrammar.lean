import FastInAHurry.Utils.TomlParser
import Mathlib.Data.List.Forall2

/-!
# The line grammar of the parser

A line, trimmed at both ends, is empty, a comment, a section header, or an entry with an optional
comment behind it. A file of such lines is read as its list of entries, each with the section of the
last header before it; `extract_keys` succeeds exactly if every entry has a header before it, and
`get_value` then finds the first entry of its section and key.

The positions disappear in three places: a header is cut at its first `]`, an entry at its first
`=`, and a value at its first `#`, where it does not matter that the source trims the value before
it looks for the comment.
-/

namespace FastInAHurry

open StdString

namespace TomlParser

/-! ## The grammar -/

/-- What a line says. -/
inductive Line where
  | blank
  | comment
  | header (name : Str)
  | entry (key value : Str)
deriving DecidableEq, Repr

/-- The trimmed line `s` says `line`. -/
inductive Reads : Str → Line → Prop
  | blank : Reads [] .blank
  | comment (text : Str) : Reads ('#' :: text) .comment
  | header (name rest : Str) (hclosed : ']' ∉ name) (hname : ∃ c ∈ name, c ∉ whitespace) :
      Reads ('[' :: (name ++ ']' :: rest)) (.header name)
  | entry (key value tail : Str) (htail : tail = [] ∨ ∃ text, tail = '#' :: text)
      (hbracket : '[' ∉ key ++ '=' :: (value ++ tail)) (hkey : '=' ∉ key)
      (hstart : key.head? ≠ some '#') (hvalue : '#' ∉ value) :
      Reads (key ++ '=' :: (value ++ tail)) (.entry key value)

/-- The text between one pair of equal outer quotes, or the text itself. -/
def unquote : Str → Str
  | [] => []
  | q :: rest =>
    if (q = '"' ∨ q = '\'') ∧ rest.getLast? = some q then rest.dropLast else q :: rest

/-- An entry with its section, its key and value as they are looked up. -/
structure Entry where
  sectionName : Str
  key : Str
  value : Str
deriving DecidableEq, Repr

/-- The entries of a file, each in the section of the last header before it. -/
def entries (currentSection : Str) : List Line → List Entry
  | [] => []
  | .header name :: lines => entries (trim whitespace name) lines
  | .entry key value :: lines =>
    ⟨currentSection, trim whitespace key, unquote (trim whitespace value)⟩ ::
      entries currentSection lines
  | _ :: lines => entries currentSection lines

/-- The value of the first entry of the section with the key. -/
def lookup (es : List Entry) (s k : Str) : Option Str :=
  (es.find? fun e ↦ decide (e.sectionName = s ∧ e.key = k)).map Entry.value

/-! ## Cutting -/

theorem eraseLeft_eq (s : Str) : eraseLeft s = s.dropWhile whitespace.contains :=
  erase_findFirstNotOf whitespace s

theorem eraseRight_eq (s : Str) : eraseRight s = s.rdropWhile whitespace.contains :=
  erase_findLastNotOf whitespace s

theorem eraseRight_eraseLeft (s : Str) : eraseRight (eraseLeft s) = trim whitespace s := by
  rw [eraseLeft_eq, eraseRight_eq, trim]

theorem sectionOf_header {name : Str} (hclosed : ']' ∉ name) (rest : Str) :
    sectionOf ('[' :: (name ++ ']' :: rest)) 0 = trim whitespace name := by
  have hrest : substr ('[' :: (name ++ ']' :: rest)) (0 + 1) none = name ++ ']' :: rest := rfl
  rw [sectionOf, hrest, find_append hclosed, substr_append_left, eraseRight_eraseLeft]

theorem keyOf_entry (key rest : Str) :
    keyOf (key ++ '=' :: rest) key.length = trim whitespace key := by
  rw [keyOf, substr_append_left, eraseRight_eraseLeft]

/-- Trimming before the comment is removed makes no difference. -/
theorem removeComment_trim {value tail : Str} (hvalue : '#' ∉ value)
    (htail : tail = [] ∨ ∃ text, tail = '#' :: text) :
    removeComment (trim whitespace (value ++ tail)) = trim whitespace value := by
  rcases htail with rfl | ⟨text, rfl⟩
  · have hno : '#' ∉ trim whitespace value := fun h ↦
      hvalue ((List.dropWhile_sublist _).subset ((List.rdropWhile_prefix _ _).subset h))
    rw [List.append_nil, removeComment, find_eq_none hno]
  · have hno : '#' ∉ value.dropWhile whitespace.contains := fun h ↦
      hvalue ((List.dropWhile_sublist _).subset h)
    rw [trim_append_cons (by decide), removeComment, find_append hno]
    simp only [substr_append_left]
    rw [eraseLeft_eq, eraseRight_eq]
    exact dropWhile_trim whitespace value

theorem quotedBy_cons_iff {q c : Char} {rest : Str} (hrest : rest ≠ []) :
    quotedBy q (c :: rest) = true ↔ c = q ∧ rest.getLast? = some c := by
  rw [quotedBy, List.head?_cons, Bool.and_eq_true, decide_eq_true_eq, decide_eq_true_eq,
    List.getLast?_cons_of_ne_nil hrest]
  constructor
  · rintro ⟨hc, hlast⟩
    obtain rfl := Option.some.inj hc
    exact ⟨rfl, hlast⟩
  · rintro ⟨rfl, hlast⟩
    exact ⟨rfl, hlast⟩

theorem removeQuotes_eq (val : Str) : removeQuotes val = unquote val := by
  rcases val with _ | ⟨c, rest⟩
  · rfl
  rcases eq_or_ne rest [] with rfl | hrest
  · have hlast : ¬((c = '"' ∨ c = '\'') ∧ ([] : Str).getLast? = some c) := fun h ↦ nomatch h.2
    rw [unquote, if_neg hlast, removeQuotes, if_neg fun h ↦ absurd h.1 (by simp)]
  · have hlength : 2 ≤ (c :: rest).length :=
      Nat.succ_le_succ (List.length_pos_iff.mpr hrest)
    have hinner : substr (c :: rest) 1 (some ((c :: rest).length - 2)) = rest.dropLast := by
      rw [substr, List.dropLast_eq_take]
      rfl
    rw [removeQuotes, unquote, hinner]
    refine if_congr ?_ rfl rfl
    rw [quotedBy_cons_iff hrest, quotedBy_cons_iff hrest, ← or_and_right]
    exact and_iff_right hlength

theorem valueOf_entry {key value tail : Str} (hvalue : '#' ∉ value)
    (htail : tail = [] ∨ ∃ text, tail = '#' :: text) :
    valueOf (key ++ '=' :: (value ++ tail)) key.length = unquote (trim whitespace value) := by
  rw [valueOf, substr_append_right, eraseRight_eraseLeft, removeComment_trim hvalue htail,
    removeQuotes_eq]

/-! ## One line -/

/-- What a line of each kind does to the parser and to the current section. -/
def Line.apply (P : TomlParser) (currentSection : Str) :
    Line → Except TomlParserError (TomlParser × Str)
  | .blank => .ok (P, currentSection)
  | .comment => .ok (P, currentSection)
  | .header name =>
    .ok ({ P with mSections := P.mSections ++ [trim whitespace name] }, trim whitespace name)
  | .entry key value =>
    if currentSection.isEmpty then .error .parseError
    else
      .ok (P.emplace currentSection (trim whitespace key) (unquote (trim whitespace value)),
        currentSection)

theorem processTrimmed_eq {P : TomlParser} {cur s : Str} {line : Line} (h : Reads s line)
    (hs : s ≠ []) : processTrimmed P cur s = line.apply P cur := by
  cases h with
  | blank => exact absurd rfl hs
  | comment text => exact if_pos rfl
  | header name rest hclosed hname =>
    have hfind : find '[' ('[' :: (name ++ ']' :: rest)) = some 0 :=
      find_append (l := []) (by simp) _
    rw [processTrimmed, if_neg (by simp)]
    simp only [hfind, sectionOf_header hclosed]
    rfl
  | entry key value tail htail hbracket hkey hstart hvalue =>
    have hhead : ¬(key ++ '=' :: (value ++ tail)).head? = some '#' := by
      rcases key with _ | ⟨c, key⟩
      · simp
      · simpa using hstart
    rw [processTrimmed, if_neg hhead]
    simp only [find_eq_none hbracket, find_append hkey, keyOf_entry, valueOf_entry hvalue htail]
    rfl

theorem Reads.eq_blank {s : Str} {line : Line} (h : Reads s line) (hs : s = []) :
    line = .blank := by
  cases h with
  | blank => rfl
  | comment | header => cases hs
  | entry => simp at hs

/-- **One line.** The body of the loop does what the line says. -/
theorem processLine_eq {P : TomlParser} {cur raw : Str} {line : Line}
    (h : Reads (trim whitespace raw) line) : processLine P cur raw = line.apply P cur := by
  rw [processLine]
  by_cases hnil : trim whitespace raw = []
  · have hleft : (eraseLeft raw).isEmpty = true := by
      rw [eraseLeft_eq, List.isEmpty_iff, List.dropWhile_eq_nil_iff]
      exact fun x hx ↦ List.contains_iff_mem.mpr (trim_eq_nil_iff.mp hnil x hx)
    rw [if_pos hleft, h.eq_blank hnil]
    rfl
  · have hleft : ¬(eraseLeft raw).isEmpty = true := by
      intro hempty
      rw [← eraseRight_eraseLeft, List.isEmpty_iff.mp hempty] at hnil
      exact hnil rfl
    rw [if_neg hleft, eraseRight_eraseLeft]
    exact processTrimmed_eq h hnil

/-! ## All lines -/

/-- `emplace` adds a value behind those that are there. -/
theorem getValue_emplace (P : TomlParser) (sec key val s k : Str) :
    (P.emplace sec key val).getValue s k =
      (P.getValue s k).or (if sec = s ∧ key = k then some val else none) := by
  have hbind : ∀ keys : Option (Str → Option Str),
      (keys.bind fun keys ↦ keys k) = keys.getD (fun _ ↦ none) k := fun keys ↦ by
    cases keys <;> rfl
  rcases eq_or_ne sec s with rfl | hsec
  · simp only [getValue, emplace, Function.update_self, hbind, Option.getD_some]
    generalize (P.mKeys sec).getD (fun _ ↦ none) = keys
    rcases eq_or_ne key k with rfl | hkey
    · rcases hkeys : keys key with _ | old
      · simp
      · simp [hkeys]
    · split
      · simp [hkey]
      · rw [Function.update_of_ne hkey.symm]
        simp [hkey]
  · simp only [getValue, emplace, Function.update_of_ne hsec.symm]
    simp [hsec]

theorem lookup_cons (e : Entry) (es : List Entry) (s k : Str) :
    lookup (e :: es) s k =
      (if e.sectionName = s ∧ e.key = k then some e.value else none).or (lookup es s k) := by
  rw [lookup, List.find?_cons]
  by_cases he : e.sectionName = s ∧ e.key = k
  · simp [he]
  · rw [if_neg he, decide_eq_false he]
    rfl

/-- Every entry has a header before it. -/
def HeaderFirst (lines : List Line) : Prop :=
  ∀ before key value after, lines = before ++ .entry key value :: after →
    ∃ name, .header name ∈ before

theorem HeaderFirst.header (name : Str) (lines : List Line) :
    HeaderFirst (.header name :: lines) := by
  intro before key value after heq
  rcases before with _ | ⟨line, before⟩
  · cases heq
  · obtain ⟨rfl, -⟩ := List.cons.inj heq
    exact ⟨name, List.mem_cons_self⟩

theorem not_headerFirst_entry (key value : Str) (lines : List Line) :
    ¬HeaderFirst (.entry key value :: lines) := by
  intro h
  obtain ⟨name, hmem⟩ := h [] key value lines rfl
  cases hmem

/-- A line that is neither a header nor an entry does not matter. -/
theorem headerFirst_cons_iff {line : Line} {lines : List Line}
    (hheader : ∀ name, line ≠ .header name) (hentry : ∀ key value, line ≠ .entry key value) :
    HeaderFirst (line :: lines) ↔ HeaderFirst lines := by
  constructor
  · intro h before key value after heq
    obtain ⟨name, hmem⟩ := h (line :: before) key value after (congrArg (line :: ·) heq)
    exact ⟨name, (List.mem_cons.mp hmem).resolve_left (hheader name).symm⟩
  · intro h before key value after heq
    rcases before with _ | ⟨line', before⟩
    · exact absurd (List.cons.inj heq).1 (hentry key value)
    · obtain ⟨name, hmem⟩ := h before key value after (List.cons.inj heq).2
      exact ⟨name, List.mem_cons_of_mem _ hmem⟩

/-- The name of a header is not blank, so its section is not the empty one. -/
theorem Reads.trim_name_ne_nil {s name : Str} (h : Reads s (.header name)) :
    trim whitespace name ≠ [] := by
  cases h with
  | header _ _ hclosed hname =>
    obtain ⟨c, hc, hspace⟩ := hname
    exact fun hnil ↦ hspace (trim_eq_nil_iff.mp hnil c hc)

/-- The loop succeeds if it is in a section or reaches a header before an entry. -/
theorem extractLoop_ok_iff {P : TomlParser} {cur : Str} {raws : List Str} {lines : List Line}
    (h : List.Forall₂ (fun raw line ↦ Reads (trim whitespace raw) line) raws lines) :
    (extractLoop P cur raws).2 = .ok true ↔ cur ≠ [] ∨ HeaderFirst lines := by
  induction h generalizing P cur with
  | nil =>
    refine iff_of_true rfl (Or.inr fun before key value after heq ↦ ?_)
    simp at heq
  | @cons raw line raws lines hline h ih =>
    rw [extractLoop, processLine_eq hline]
    cases line with
    | blank | comment =>
      refine ih.trans (or_congr Iff.rfl (headerFirst_cons_iff ?_ ?_).symm) <;> simp
    | header name =>
      exact iff_of_true (ih.mpr (Or.inl hline.trim_name_ne_nil)) (Or.inr (.header name lines))
    | entry key value =>
      rcases eq_or_ne cur [] with rfl | hcur
      · refine iff_of_false nofun ?_
        rintro (hne | hfirst)
        · exact hne rfl
        · exact not_headerFirst_entry key value lines hfirst
      · have hempty : ¬cur.isEmpty = true := mt List.isEmpty_iff.mp hcur
        rw [Line.apply, if_neg hempty]
        exact iff_of_true (ih.mpr (Or.inl hcur)) (Or.inl hcur)

/-- What the loop stores is found behind what was there before. -/
theorem getValue_extractLoop {P : TomlParser} {cur : Str} {raws : List Str} {lines : List Line}
    (h : List.Forall₂ (fun raw line ↦ Reads (trim whitespace raw) line) raws lines)
    (hok : (extractLoop P cur raws).2 = .ok true) (s k : Str) :
    (extractLoop P cur raws).1.getValue s k =
      (P.getValue s k).or (lookup (entries cur lines) s k) := by
  induction h generalizing P cur with
  | nil => exact Option.or_none.symm
  | @cons raw line raws lines hline h ih =>
    rw [extractLoop, processLine_eq hline] at hok ⊢
    cases line with
    | blank | comment => exact ih hok
    | header name => exact ih hok
    | entry key value =>
      by_cases hcur : cur.isEmpty = true
      · simp only [Line.apply, if_pos hcur] at hok
        cases hok
      · simp only [Line.apply, if_neg hcur] at hok ⊢
        rw [ih hok, getValue_emplace, Option.or_assoc, entries, lookup_cons]

/-- **The line grammar.** On a file each of whose lines, trimmed, is empty, a comment, a header with
a name that is not blank, or an entry, an empty parser succeeds exactly if a header comes before the
first entry; and then it finds for every section and key the value of the first such entry, and
nothing where there is none. -/
theorem extractKeys_grammar (file : Str) (lines : List Line)
    (h : List.Forall₂ (fun raw line ↦ Reads (trim whitespace raw) line) (getlines file) lines) :
    ((empty.extractKeys file).2 = .ok true ↔ HeaderFirst lines) ∧
      ((empty.extractKeys file).2 = .ok true → ∀ s k,
        (empty.extractKeys file).1.getValue s k = lookup (entries [] lines) s k) := by
  refine ⟨?_, fun hok s k ↦ ?_⟩
  · rw [extractKeys, extractLoop_ok_iff h]
    simp
  · rw [extractKeys, getValue_extractLoop h hok]
    rfl

/-- A header, a comment and a quoted value with a comment behind it. -/
theorem extractKeys_grammar_quoted :
    (empty.extractKeys " [net]\n# ports\nport = '80' # default\n".toList).1.getValue
      "net".toList "port".toList = some "80".toList := by
  have hreads : List.Forall₂ (fun raw line ↦ Reads (trim whitespace raw) line)
      (getlines " [net]\n# ports\nport = '80' # default\n".toList)
      [.header "net".toList, .comment, .entry "port ".toList " '80' ".toList] := by
    have hlines : getlines " [net]\n# ports\nport = '80' # default\n".toList =
        [" [net]".toList, "# ports".toList, "port = '80' # default".toList] := by decide +kernel
    rw [hlines]
    refine .cons ?_ (.cons ?_ (.cons ?_ .nil))
    · exact .header "net".toList [] (by decide) ⟨'n', by decide, by decide⟩
    · exact .comment " ports".toList
    · exact .entry "port ".toList " '80' ".toList "# default".toList (Or.inr ⟨_, rfl⟩) (by decide)
        (by decide) (by decide) (by decide)
  obtain ⟨-, hvalue⟩ := extractKeys_grammar _ _ hreads
  rw [hvalue (by decide +kernel)]
  decide

end TomlParser

end FastInAHurry
