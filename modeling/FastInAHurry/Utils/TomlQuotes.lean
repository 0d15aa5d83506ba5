import FastInAHurry.Utils.TomlReload

/-!
# Quotes

The loop looks for brackets, comments and quotes on the raw line, one after the other, and none of
these searches knows of the quotes of a value. A quoted text survives exactly if no search for
something else stops inside it: a `[` anywhere in the line, also in its comment, makes the line a
header, and a `#` in the text cuts the value in front of its closing quote. An `=` in the text, the
other quote character and spaces are harmless, since the line is cut at its first `=` and only the
outermost pair of quotes is removed.

The quotes are gone once the value is stored. `get_string` removes them again, from a text that
had another pair inside the first, and it cuts the name it is given at the first dot, which may be
one of the section's own.
-/

namespace FastInAHurry

open StdString

namespace TomlParser

/-- The two quote characters. -/
def IsQuote (q : Char) : Prop := q = '"' ∨ q = '\''

/-- A text in a pair of equal quotes. -/
def Quoted (w : Str) : Prop := ∃ q v, IsQuote q ∧ w = q :: (v ++ [q])

theorem IsQuote.notMem_whitespace {q : Char} (hq : IsQuote q) : q ∉ whitespace := by
  rcases hq with rfl | rfl <;> decide

theorem IsQuote.ne_hash {q : Char} (hq : IsQuote q) : '#' ≠ q := by
  rcases hq with rfl | rfl <;> decide

theorem unquote_quoted {q : Char} (hq : IsQuote q) (v : Str) : unquote (q :: (v ++ [q])) = v := by
  rw [unquote, if_pos ⟨hq, List.getLast?_concat⟩, List.dropLast_concat]

theorem unquote_of_not_quoted {w : Str} (h : ¬Quoted w) : unquote w = w := by
  rcases w with _ | ⟨q, rest⟩
  · rfl
  · rw [unquote, if_neg]
    rintro ⟨hq, hlast⟩
    obtain ⟨v, rfl⟩ := List.getLast?_eq_some_iff.mp hlast
    exact h ⟨q, v, hq, rfl⟩

/-- What is left is the text itself, or was inside a pair of quotes. -/
theorem unquote_eq_iff {w v : Str} :
    unquote w = v ↔ (¬Quoted w ∧ w = v) ∨ ∃ q, IsQuote q ∧ w = q :: (v ++ [q]) := by
  constructor
  · rintro rfl
    by_cases h : Quoted w
    · obtain ⟨q, v, hq, rfl⟩ := h
      rw [unquote_quoted hq]
      exact Or.inr ⟨q, hq, rfl⟩
    · exact Or.inl ⟨h, (unquote_of_not_quoted h).symm⟩
  · rintro (⟨h, rfl⟩ | ⟨q, hq, rfl⟩)
    · exact unquote_of_not_quoted h
    · exact unquote_quoted hq v

/-! ## The two lookups -/

/-- The text in the maps, the empty one if there is none. -/
def storedText (P : TomlParser) (s k : Str) : Str :=
  ((P.mKeys s).bind fun keys ↦ keys k).getD []

/-- `get_string` removes the quotes of what is stored under the two parts of the name. -/
theorem getString_eq (P : TomlParser) {s : Str} (hs : '.' ∉ s) (k : Str) :
    P.getString (s ++ '.' :: k) = unquote (P.storedText s k) := by
  rw [getString, find_append hs]
  simp only [substr_append_left, substr_append_right, storedText]
  cases P.mKeys s with
  | none => rfl
  | some keys =>
    simp only [Option.bind_some]
    cases keys k with
    | none => rfl
    | some val => exact removeQuotes_eq val

/-- **The two lookups agree exactly** for a section without a dot whose value is not in quotes, and
for one with a dot if what is stored under the name cut at that dot happens to be the value, in
quotes or not. -/
theorem getString_eq_getValue_iff (P : TomlParser) (s k : Str) :
    P.getString (s ++ '.' :: k) = (P.getValue s k).getD [] ↔
      ('.' ∉ s ∧ ¬Quoted (P.storedText s k)) ∨
        ∃ s₁ s₂, s = s₁ ++ '.' :: s₂ ∧ '.' ∉ s₁ ∧
          (P.storedText s₁ (s₂ ++ '.' :: k) = P.storedText s k ∧ ¬Quoted (P.storedText s k) ∨
            ∃ q, IsQuote q ∧
              P.storedText s₁ (s₂ ++ '.' :: k) = q :: (P.storedText s k ++ [q])) := by
  have hvalue : (P.getValue s k).getD [] = P.storedText s k := rfl
  rw [hvalue]
  by_cases hdot : '.' ∈ s
  · obtain ⟨s₁, s₂, rfl, hs₁⟩ := List.eq_append_cons_of_mem hdot
    have happend : s₁ ++ '.' :: s₂ ++ '.' :: k = s₁ ++ '.' :: (s₂ ++ '.' :: k) := by simp
    rw [happend, getString_eq P hs₁, unquote_eq_iff]
    constructor
    · rintro (⟨h, heq⟩ | hquoted)
      · exact Or.inr ⟨s₁, s₂, rfl, hs₁, Or.inl ⟨heq, heq ▸ h⟩⟩
      · exact Or.inr ⟨s₁, s₂, rfl, hs₁, Or.inr hquoted⟩
    · rintro (⟨h, -⟩ | ⟨t₁, t₂, heq, ht₁, h⟩)
      · exact absurd hdot h
      · -- there is only one first dot
        have h₁ : s₁ = t₁ := by rw [← before_append hs₁ s₂, heq, before_append ht₁]
        have h₂ : s₂ = t₂ := by rw [← after_append hs₁ s₂, heq, after_append ht₁]
        subst h₁
        subst h₂
        rcases h with ⟨heq, hquoted⟩ | hquoted
        · exact Or.inl ⟨heq ▸ hquoted, heq⟩
        · exact Or.inr hquoted
  · rw [getString_eq P hdot, unquote_eq_iff]
    constructor
    · rintro (⟨h, -⟩ | ⟨q, -, h⟩)
      · exact Or.inl ⟨hdot, h⟩
      · -- a text is shorter than itself in quotes
        have hlength := congrArg List.length h
        simp at hlength
        omega
    · rintro (⟨-, h⟩ | ⟨s₁, s₂, rfl, -⟩)
      · exact Or.inl ⟨h, rfl⟩
      · exact absurd (List.mem_append_right _ List.mem_cons_self) hdot

/-- A value in two pairs of quotes. -/
theorem getString_ne_getValue :
    (empty.load (some "[a]\nk = \"'x'\"".toList)).2 = .ok true ∧
      ¬(empty.load (some "[a]\nk = \"'x'\"".toList)).1.getString ("a".toList ++ '.' :: "k".toList)
        = ((empty.load (some "[a]\nk = \"'x'\"".toList)).1.getValue "a".toList "k".toList).getD
          [] := by
  decide +kernel

/-! ## A quoted text in a file -/

/-- A letter, a digit or an underscore. -/
def isWord (c : Char) : Bool := c.isAlphanum || c == '_'

/-- The spaces and the comment behind the closing quote. -/
def lineTail (spaces : ℕ) (comment : Option Str) : Str :=
  List.replicate spaces ' ' ++ comment.elim [] ('#' :: ·)

/-- The line `k = ` with the text in quotes, spaces and a comment. -/
def quotedLine (k : Str) (q : Char) (v : Str) (spaces : ℕ) (comment : Option Str) : Str :=
  (k ++ [' ']) ++ '=' :: ' ' :: q :: (v ++ q :: lineTail spaces comment)

/-- The file of a header and this line, which a newline may end. -/
def quotedFile (s k : Str) (q : Char) (v : Str) (spaces : ℕ) (comment : Option Str)
    (newline : Bool) : Str :=
  ('[' :: (s ++ [']'])) ++ '\n' ::
    (quotedLine k q v spaces comment ++ if newline then ['\n'] else [])

theorem notMem_of_isWord {s : Str} (hs : ∀ c ∈ s, isWord c = true) {c : Char}
    (hc : isWord c = false) : c ∉ s := by
  intro hmem
  rw [hs c hmem] at hc
  cases hc

theorem isWord_whitespace : ∀ c ∈ whitespace, isWord c = false := by
  intro c hc
  have hall : whitespace.all (!isWord ·) = true := by decide
  simpa using List.all_eq_true.mp hall c hc

theorem getlines_of_ne_nil {file : Str} (h : file ≠ []) :
    getlines file = before '\n' file :: getlines (after '\n' file) := by
  rcases file with _ | ⟨c, cs⟩
  · exact absurd rfl h
  · rw [getlines]
    rfl

theorem getlines_append {line : Str} (h : '\n' ∉ line) (rest : Str) :
    getlines (line ++ '\n' :: rest) = line :: getlines rest := by
  rw [getlines_of_ne_nil (by simp), before_append h, after_append h]

theorem getlines_last {line : Str} (h : '\n' ∉ line) (hne : line ≠ []) (newline : Bool) :
    getlines (line ++ if newline then ['\n'] else []) = [line] := by
  cases newline with
  | true =>
    rw [if_pos rfl, getlines_append h, getlines]
  | false =>
    have hall : ∀ c ∈ line, (c != '\n') = true := fun c hc ↦ by
      simpa using fun heq : c = '\n' ↦ h (heq ▸ hc)
    have hafter : after '\n' line = [] := by
      rw [after, List.dropWhile_eq_nil_iff.mpr hall]
      rfl
    rw [if_neg Bool.false_ne_true, List.append_nil, getlines_of_ne_nil hne, before_of_notMem h,
      hafter, getlines]

theorem readLine_header {s : Str} (hs : ∀ c ∈ s, isWord c = true) :
    readLine (trim whitespace ('[' :: (s ++ [']']))) = some (.header s) := by
  have htrim : trim whitespace ('[' :: (s ++ [']'])) = '[' :: (s ++ [']']) := by
    have hopen : '[' ∉ whitespace := by decide
    have hleft := trim_append_cons hopen [] (s ++ [']'])
    rw [rdropWhile_append_cons (by decide)] at hleft
    exact hleft
  have hafter : after '[' ('[' :: (s ++ [']'])) = s ++ [']'] :=
    after_append (l := []) (by simp) _
  rw [htrim, readLine, if_neg (by simp), if_neg (by simp), if_pos List.mem_cons_self, hafter,
    before_append (notMem_of_isWord hs rfl)]

section QuotedLine

variable {k v : Str} {q : Char} {spaces : ℕ} {comment : Option Str}

theorem trim_quotedLine (hq : IsQuote q) :
    trim whitespace (quotedLine k q v spaces comment)
      = (k ++ [' ']).dropWhile whitespace.contains ++ '=' :: ' ' :: q ::
        (v ++ q :: (lineTail spaces comment).rdropWhile whitespace.contains) := by
  have hquote : ¬whitespace.contains q = true := mt List.contains_iff_mem.mp hq.notMem_whitespace
  have hright := rdropWhile_append_cons hquote (' ' :: q :: v) (lineTail spaces comment)
  rw [quotedLine, trim_append_cons (by decide)]
  exact congrArg (_ ++ '=' :: ·) hright

theorem trim_key (hk : ∀ c ∈ k, isWord c = true) :
    trim whitespace ((k ++ [' ']).dropWhile whitespace.contains) = k := by
  have hno : ∀ c ∈ k, c ∉ whitespace := fun c hc hspace ↦
    notMem_of_isWord hk (isWord_whitespace c hspace) hc
  cases k with
  | nil => rfl
  | cons c k =>
    have hc : ¬whitespace.contains c = true :=
      mt List.contains_iff_mem.mp (hno c List.mem_cons_self)
    have hleft : (c :: k ++ [' ']).dropWhile whitespace.contains = c :: k ++ [' '] :=
      List.dropWhile_cons_of_neg hc
    have hself : (c :: k).dropWhile whitespace.contains = c :: k := List.dropWhile_cons_of_neg hc
    have htrim := trim_eq_self hno
    rw [trim, hself] at htrim
    rw [hleft, trim, hleft, List.rdropWhile_concat_pos _ _ _ (by decide), htrim]

/-- In front of the comment there are only spaces. -/
theorem before_lineTail :
    ∀ c ∈ before '#' ((lineTail spaces comment).rdropWhile whitespace.contains), c = ' ' := by
  have hspaces : ∀ c ∈ List.replicate spaces ' ', c = ' ' := fun c hc ↦ List.eq_of_mem_replicate hc
  intro c hc
  cases comment with
  | none =>
    have hmem := (List.rdropWhile_prefix _ _).subset ((List.takeWhile_prefix _).subset hc)
    rw [lineTail, Option.elim_none, List.append_nil] at hmem
    exact hspaces c hmem
  | some text =>
    have hno : '#' ∉ List.replicate spaces ' ' := fun h ↦ absurd (hspaces '#' h) (by decide)
    rw [lineTail, Option.elim_some, rdropWhile_append_cons (by decide), before_append hno] at hc
    exact hspaces c hc

/-- The value behind the equal sign is the text exactly if no `#` cuts it. -/
theorem unquote_value_iff (spaces : ℕ) (comment : Option Str) (hq : IsQuote q) (hqv : q ∉ v) :
    unquote (trim whitespace (before '#' (' ' :: q ::
        (v ++ q :: (lineTail spaces comment).rdropWhile whitespace.contains)))) = v
      ↔ '#' ∉ v := by
  have hquote : ¬whitespace.contains q = true := mt List.contains_iff_mem.mp hq.notMem_whitespace
  have htrim : ∀ rest, trim whitespace (' ' :: q :: rest)
      = q :: rest.rdropWhile whitespace.contains := fun rest ↦
    trim_append_cons hq.notMem_whitespace [' '] rest
  by_cases hhash : '#' ∈ v
  · obtain ⟨v₁, v₂, rfl, hv₁⟩ := List.eq_append_cons_of_mem hhash
    have hfront : '#' ∉ ' ' :: q :: v₁ := by simp [hq.ne_hash, hv₁]
    have hbefore := before_append hfront
      (v₂ ++ q :: (lineTail spaces comment).rdropWhile whitespace.contains)
    refine iff_of_false ?_ (not_not_intro hhash)
    rw [List.append_assoc, List.cons_append]
    simp only [List.cons_append] at hbefore
    rw [hbefore, htrim]
    -- the opening quote stays, and is no character of the text
    intro heq
    rw [unquote_of_not_quoted] at heq
    · exact hqv (heq ▸ List.mem_cons_self)
    · rintro ⟨q', w, -, hw⟩
      obtain ⟨rfl, hrest⟩ := List.cons.inj hw
      have hmem : q ∈ v₁.rdropWhile whitespace.contains := by
        rw [hrest]
        exact List.mem_append_right _ List.mem_cons_self
      exact hqv (List.mem_append_left _ ((List.rdropWhile_prefix _ _).subset hmem))
  · refine iff_of_true ?_ hhash
    have hfront : '#' ∉ ' ' :: q :: (v ++ [q]) := by simp [hq.ne_hash, hhash]
    have hbefore := before_append_left hfront
      ((lineTail spaces comment).rdropWhile whitespace.contains)
    simp only [List.cons_append, List.append_assoc, List.nil_append] at hbefore
    have hnil : (before '#' ((lineTail spaces comment).rdropWhile whitespace.contains)).rdropWhile
        whitespace.contains = [] := by
      rw [List.rdropWhile_eq_nil_iff]
      intro c hc
      rw [before_lineTail c hc]
      decide
    rw [hbefore, htrim, rdropWhile_append_cons hquote, hnil, unquote_quoted hq]

/-- The characters of the line that are none of the file's own. -/
theorem mem_quotedLine_iff (hk : ∀ c ∈ k, isWord c = true) (hq : IsQuote q) {c : Char}
    (hword : isWord c = false) (hc : c ∉ [' ', '=', '"', '\'', '#']) :
    c ∈ quotedLine k q v spaces comment ↔ c ∈ v ∨ ∃ text ∈ comment, c ∈ text := by
  have hkey : c ∉ k := notMem_of_isWord hk hword
  have hquote : c ≠ q := by
    rintro rfl
    rcases hq with rfl | rfl <;> exact hc (by decide)
  cases comment <;> simp_all [quotedLine, lineTail, List.mem_replicate]

/-- The line is not taken for an empty one or for a comment. -/
theorem trim_quotedLine_start (v : Str) (spaces : ℕ) (comment : Option Str)
    (hk : ∀ c ∈ k, isWord c = true) (hq : IsQuote q) :
    ¬(trim whitespace (quotedLine k q v spaces comment)).isEmpty = true ∧
      ¬(trim whitespace (quotedLine k q v spaces comment)).head? = some '#' := by
  have hno : '#' ∉ (k ++ [' ']).dropWhile whitespace.contains := by
    intro hmem
    have hkey : '#' ∉ k ++ [' '] := by simp [notMem_of_isWord hk (c := '#') rfl]
    exact hkey ((List.dropWhile_sublist _).subset hmem)
  rw [trim_quotedLine hq]
  generalize (k ++ [' ']).dropWhile whitespace.contains = key at hno ⊢
  rcases key with _ | ⟨c, key⟩
  · simp
  · simpa using fun h : c = '#' ↦ hno (h ▸ List.mem_cons_self)

/-- A bracket anywhere makes the line a header. -/
theorem readLine_quotedLine_header (hk : ∀ c ∈ k, isWord c = true) (hq : IsQuote q)
    (h : '[' ∈ quotedLine k q v spaces comment) :
    ∃ name, readLine (trim whitespace (quotedLine k q v spaces comment)) = some (.header name) := by
  obtain ⟨hempty, hhash⟩ := trim_quotedLine_start v spaces comment hk hq
  rw [readLine, if_neg hempty, if_neg hhash, if_pos ((mem_trim_iff (by decide)).mpr h)]
  exact ⟨_, rfl⟩

theorem readLine_quotedLine_entry (hk : ∀ c ∈ k, isWord c = true) (hq : IsQuote q)
    (h : '[' ∉ quotedLine k q v spaces comment) :
    readLine (trim whitespace (quotedLine k q v spaces comment))
      = some (.entry ((k ++ [' ']).dropWhile whitespace.contains) (before '#' (' ' :: q ::
        (v ++ q :: (lineTail spaces comment).rdropWhile whitespace.contains)))) := by
  obtain ⟨hempty, hhash⟩ := trim_quotedLine_start v spaces comment hk hq
  have hkey : '=' ∉ (k ++ [' ']).dropWhile whitespace.contains := by
    intro hmem
    have hno : '=' ∉ k ++ [' '] := by simp [notMem_of_isWord hk (c := '=') rfl]
    exact hno ((List.dropWhile_sublist _).subset hmem)
  rw [readLine, if_neg hempty, if_neg hhash, if_neg (mt (mem_trim_iff (by decide)).mp h),
    trim_quotedLine hq, if_pos (List.mem_append_right _ List.mem_cons_self), before_append hkey,
    after_append hkey]

end QuotedLine

/-- What the loop leaves of the two lines, by what the second one says. -/
theorem extractKeys_quotedFile {s k v : Str} {q : Char} {comment : Option Str} (spaces : ℕ)
    (newline : Bool) (hs : ∀ c ∈ s, isWord c = true) (hk : ∀ c ∈ k, isWord c = true)
    (hq : IsQuote q) (hv : '\n' ∉ v) (hcomment : ∀ text ∈ comment, '\n' ∉ text) :
    empty.extractKeys (quotedFile s k q v spaces comment newline)
      = extractLoop { empty with mSections := [s] } s [quotedLine k q v spaces comment] := by
  have hspace : ∀ c ∈ s, c ∉ whitespace := fun c hc hspace ↦
    notMem_of_isWord hs (isWord_whitespace c hspace) hc
  have hline : '\n' ∉ quotedLine k q v spaces comment := by
    rw [mem_quotedLine_iff hk hq rfl (by decide)]
    rintro (h | ⟨text, htext, h⟩)
    · exact hv h
    · exact hcomment text htext h
  have hheader : '\n' ∉ '[' :: (s ++ [']']) := by simp [notMem_of_isWord hs (c := '\n') rfl]
  have hne : quotedLine k q v spaces comment ≠ [] := by simp [quotedLine]
  rw [extractKeys, quotedFile, getlines_append hheader, getlines_last hline hne, extractLoop,
    processLine_readLine, readLine_header hs]
  simp only [Line.applyOr, Line.apply, trim_eq_self hspace]
  rfl

/-- **A quoted text in a file.** It is loaded and found as it was written exactly if the section has
a name, the text has neither a `[` nor a `#`, and the comment has no `[`. -/
theorem load_quotedFile_iff {s k v : Str} {q : Char} {spaces : ℕ} {comment : Option Str}
    {newline : Bool} (hs : ∀ c ∈ s, isWord c = true) (hk : ∀ c ∈ k, isWord c = true)
    (hq : IsQuote q) (hv : '\n' ∉ v) (hqv : q ∉ v) (hcomment : ∀ text ∈ comment, '\n' ∉ text) :
    ((empty.load (some (quotedFile s k q v spaces comment newline))).2 = .ok true ∧
        (empty.load (some (quotedFile s k q v spaces comment newline))).1.getValue s k = some v) ↔
      s ≠ [] ∧ '[' ∉ v ∧ '#' ∉ v ∧ ∀ text ∈ comment, '[' ∉ text := by
  have hkeys := extractKeys_quotedFile spaces newline hs hk hq hv hcomment
  have hbracket : '[' ∈ quotedLine k q v spaces comment ↔ '[' ∈ v ∨ ∃ text ∈ comment, '[' ∈ text :=
    mem_quotedLine_iff hk hq rfl (by decide)
  rw [load, hkeys, extractLoop, processLine_readLine]
  by_cases hmem : '[' ∈ quotedLine k q v spaces comment
  · -- the second line is a header too, and nothing is stored
    obtain ⟨name, hname⟩ := readLine_quotedLine_header hk hq hmem
    rw [hname]
    refine iff_of_false (fun h ↦ ?_) fun h ↦ ?_
    · exact absurd h.2 (by simp [Line.applyOr, Line.apply, extractLoop, getValue, empty])
    · rcases hbracket.mp hmem with hin | ⟨text, htext, hin⟩
      · exact h.2.1 hin
      · exact h.2.2.2 text htext hin
  · rw [readLine_quotedLine_entry hk hq hmem]
    rw [hbracket, not_or, not_exists] at hmem
    have hcond : (s ≠ [] ∧ '[' ∉ v ∧ '#' ∉ v ∧ ∀ text ∈ comment, '[' ∉ text)
        ↔ s ≠ [] ∧ '#' ∉ v :=
      ⟨fun h ↦ ⟨h.1, h.2.2.1⟩,
        fun h ↦ ⟨h.1, hmem.1, h.2, fun text htext hin ↦ hmem.2 text ⟨htext, hin⟩⟩⟩
    simp only [Line.applyOr, Line.apply, trim_key hk, hcond]
    rcases eq_or_ne s [] with rfl | hne
    · refine iff_of_false (fun h ↦ ?_) fun h ↦ h.1 rfl
      cases h.1
    · simp only [if_neg (mt List.isEmpty_iff.mp hne), extractLoop, getValue_emplace, and_self,
        if_true, true_and, ne_eq, hne, not_false_eq_true]
      rw [← unquote_value_iff spaces comment hq hqv]
      exact Option.some_inj

/-- An equal sign, the other quote and a comment. -/
theorem load_quotedFile_apostrophe :
    quotedFile "net".toList "host".toList '"' "it's = a".toList 1 (some " b".toList) true
        = "[net]\nhost = \"it's = a\" # b\n".toList ∧
      (empty.load (some (quotedFile "net".toList "host".toList '"' "it's = a".toList 1
        (some " b".toList) true))).1.getValue "net".toList "host".toList
          = some "it's = a".toList :=
  ⟨by decide,
    ((load_quotedFile_iff (List.all_eq_true.mp (by decide)) (List.all_eq_true.mp (by decide))
      (Or.inl rfl) (by decide) (by decide) (by decide)).mpr (by decide)).2⟩

/-- The text ends at its `#`, and the opening quote has become a part of it. -/
theorem load_quotedFile_hash :
    quotedFile "net".toList "host".toList '"' "a#b".toList 0 none true
        = "[net]\nhost = \"a#b\"\n".toList ∧
      (empty.load (some "[net]\nhost = \"a#b\"\n".toList)).1.getValue "net".toList "host".toList
        = some "\"a".toList ∧
      ¬(empty.load (some "[net]\nhost = \"a#b\"\n".toList)).1.getValue "net".toList "host".toList
        = some "a#b".toList := by
  decide +kernel

end TomlParser

end FastInAHurry
