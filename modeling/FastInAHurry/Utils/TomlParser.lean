import FastInAHurry.Library.StdString
import Mathlib.Logic.Function.Basic

/-!
# The configuration parser

The embedding of `load`, `extract_keys`, `get_value`, `get_string` and `get_int` of
`utils/TomlParser.hh`. A file is the list of its characters; `std::getline` cuts it into lines.
Strings are lists of characters, and every `find`, `erase` and `substr` of the source is one of
`StdString`, with the positions handed on as the source hands them on.

The nested hash maps are partial functions: `m_keys[section]` makes an empty map for a section that
has none, and `emplace` keeps the value that is there. The result of a call is the parser after it
and what it returned; an error ends the call with what had been stored before it.
-/

namespace FastInAHurry

open StdString

abbrev Str := List Char

inductive TomlParserError where
  | fileNotFound
  | parseError
  | keyNotFound
  | typeMismatch
  | invalidToml
deriving DecidableEq, Repr

structure TomlParser where
  mSections : List Str
  mKeys : Str → Option (Str → Option Str)

namespace TomlParser

/-- A parser that has loaded nothing. -/
def empty : TomlParser where
  mSections := []
  mKeys := fun _ ↦ none

def getValue (P : TomlParser) (sectionName key : Str) : Option Str :=
  (P.mKeys sectionName).bind fun keys ↦ keys key

def whitespace : Str := [' ', '\t', '\r', '\n']

/-- `s.erase(0, s.find_first_not_of(" \t\r\n"))`. -/
def eraseLeft (s : Str) : Str := erase s 0 (findFirstNotOf whitespace s)

/-- `s.erase(s.find_last_not_of(" \t\r\n") + 1)`. -/
def eraseRight (s : Str) : Str := erase s (next (findLastNotOf whitespace s)) none

/-- The name in a line with a bracket at `leftBracket`. -/
def sectionOf (line : Str) (leftBracket : ℕ) : Str :=
  let rest := substr line (leftBracket + 1) none
  eraseRight (eraseLeft (substr rest 0 (find ']' rest)))

/-- The key of a line with an equal sign at `equalSign`. -/
def keyOf (line : Str) (equalSign : ℕ) : Str :=
  eraseRight (eraseLeft (substr line 0 (some equalSign)))

def removeComment (val : Str) : Str :=
  match find '#' val with
  | none => val
  | some commentPos => eraseLeft (eraseRight (substr val 0 (some commentPos)))

def quotedBy (q : Char) (val : Str) : Bool :=
  decide (val.head? = some q) && decide (val.getLast? = some q)

def removeQuotes (val : Str) : Str :=
  if 2 ≤ val.length ∧ (quotedBy '"' val = true ∨ quotedBy '\'' val = true) then
    substr val 1 (some (val.length - 2))
  else val

/-- The value of `section.key`, cut at the first dot, and the empty string if there is none. -/
def getString (P : TomlParser) (key : Str) : Str :=
  match find '.' key with
  | none => []
  | some dot =>
    match P.mKeys (substr key 0 (some dot)) with
    | none => []
    | some keys =>
      match keys (substr key (dot + 1) none) with
      | none => []
      | some val => removeQuotes val

/-- The value of a line with an equal sign at `equalSign`. -/
def valueOf (line : Str) (equalSign : ℕ) : Str :=
  removeQuotes (removeComment (eraseRight (eraseLeft (substr line (equalSign + 1) none))))

/-- `m_keys[section].emplace(key, val)`. -/
def emplace (P : TomlParser) (sectionName key val : Str) : TomlParser :=
  let keys := (P.mKeys sectionName).getD fun _ ↦ none
  let keys := if (keys key).isSome then keys else Function.update keys key (some val)
  { P with mKeys := Function.update P.mKeys sectionName (some keys) }

/-- The body of the loop for a line that is trimmed and not empty: the parser and the current
section after it. -/
def processTrimmed (P : TomlParser) (currentSection line : Str) :
    Except TomlParserError (TomlParser × Str) :=
  if line.head? = some '#' then .ok (P, currentSection)
  else
    match find '[' line with
    | some leftBracket =>
      let name := sectionOf line leftBracket
      .ok ({ P with mSections := P.mSections ++ [name] }, name)
    | none =>
      match find '=' line with
      | none => .error .parseError
      | some equalSign =>
        if currentSection.isEmpty then .error .parseError
        else
          .ok (P.emplace currentSection (keyOf line equalSign) (valueOf line equalSign),
            currentSection)

/-- The body of the loop. -/
def processLine (P : TomlParser) (currentSection line : Str) :
    Except TomlParserError (TomlParser × Str) :=
  let line := eraseLeft line
  if line.isEmpty then .ok (P, currentSection)
  else processTrimmed P currentSection (eraseRight line)

/-- The `while` loop over the lines. -/
def extractLoop (P : TomlParser) (currentSection : Str) :
    List Str → TomlParser × Except TomlParserError Bool
  | [] => (P, .ok true)
  | line :: lines =>
    match processLine P currentSection line with
    | .error e => (P, .error e)
    | .ok (P', currentSection') => extractLoop P' currentSection' lines

/-- The lines that `std::getline` reads, one after the other. -/
def getlines (file : Str) : List Str :=
  match file with
  | [] => []
  | c :: cs =>
    (c :: cs).takeWhile (· != '\n') :: getlines (((c :: cs).dropWhile (· != '\n')).drop 1)
termination_by file.length
decreasing_by
  have hle : ((c :: cs).dropWhile (· != '\n')).length ≤ (c :: cs).length :=
    (List.dropWhile_sublist _).length_le
  rw [List.length_drop]
  simp only [List.length_cons] at hle ⊢
  omega

def extractKeys (P : TomlParser) (file : Str) : TomlParser × Except TomlParserError Bool :=
  extractLoop P [] (getlines file)

/-- `load()`, where `file` is what opening `m_filepath` gives. -/
def load (P : TomlParser) (file : Option Str) : TomlParser × Except TomlParserError Bool :=
  match file with
  | none => (P, .error .fileNotFound)
  | some file =>
    match P.extractKeys file with
    | (P', .error _) => (P', .error .parseError)
    | (P', .ok _) => (P', .ok true)

end TomlParser

end FastInAHurry
